import Chaosircd.ChanmodeParse
import Chaosircd.ModePartition

/-!
# Channel modes: what the members are told

`m_mode_channel` parses the changes of a line and applies them, and the walk leaves a list with
explicit removals in it.  The parser and every callback leave the texts of a change within their
fields, so the lines that are made of the list show all changes that did not bounce, whoever
asked for which changes.
-/

namespace Chaosircd

namespace Modes

/-- What a callback leaves behind fits the fields it is kept in. -/
structure Bounce.Fits (b : Bounce) (chptr : Channel) (cmcptr : Chanmodechange) : Prop where
  name : b.chptr.name = chptr.name
  acptr : b.cmcptr.acptr = cmcptr.acptr
  arg : b.cmcptr.arg.length ≤ prefixLen
  inserted : ∀ other ∈ b.inserted, other.acptr = none ∧ other.arg.length ≤ prefixLen

variable {systime count : Nat} {cptr : Client} {chptr chptr' : Channel}
  {cmcptr cmcptr' : Chanmodechange} {changes : List Chanmodechange} {source : Source}

/-- A callback that inserts nothing. -/
theorem Bounce.Fits.of_nil {ret : Int} (name : chptr'.name = chptr.name)
    (acptr : cmcptr'.acptr = cmcptr.acptr) (arg : cmcptr'.arg.length ≤ prefixLen) :
    (⟨ret, chptr', cmcptr', []⟩ : Bounce).Fits chptr cmcptr where
  name := name
  acptr := acptr
  arg := arg
  inserted := fun _ member => by cases member

theorem fits_chanmodeBounceSimple (name : chptr'.name = chptr.name)
    (acptr : cmcptr'.acptr = cmcptr.acptr) (arg : cmcptr'.arg.length ≤ prefixLen) :
    (chanmodeBounceSimple chptr' cmcptr').Fits chptr cmcptr := by
  rw [chanmodeBounceSimple]
  split
  · split
    · exact .of_nil name acptr arg
    · exact .of_nil name acptr arg
  · split
    · exact .of_nil name acptr arg
    · exact .of_nil name acptr arg
  · exact .of_nil name acptr arg

theorem fits_cmInviteBounce (arg : cmcptr.arg.length ≤ prefixLen) :
    (cmInviteBounce chptr cmcptr).Fits chptr cmcptr := by
  rw [cmInviteBounce]
  split
  · split
    · exact .of_nil rfl rfl arg
    · exact fits_chanmodeBounceSimple rfl rfl arg
  · exact fits_chanmodeBounceSimple rfl rfl arg
  · exact fits_chanmodeBounceSimple rfl rfl arg

theorem fits_cmKeyBounce (arg : cmcptr.arg.length ≤ prefixLen) :
    (cmKeyBounce chptr cmcptr).Fits chptr cmcptr := by
  rw [cmKeyBounce]
  split
  · split
    · exact .of_nil rfl rfl arg
    · exact fits_chanmodeBounceSimple rfl rfl arg
  · split
    · exact .of_nil rfl rfl arg
    · exact fits_chanmodeBounceSimple rfl rfl ((List.length_take_le' _ _).trans arg)
  · exact fits_chanmodeBounceSimple rfl rfl arg

theorem fits_cmLimitBounce (arg : cmcptr.arg.length ≤ prefixLen) :
    (cmLimitBounce chptr cmcptr).Fits chptr cmcptr := by
  rw [cmLimitBounce]
  split
  · split
    · exact .of_nil rfl rfl arg
    · exact fits_chanmodeBounceSimple rfl rfl arg
  · dsimp only
    split
    · exact .of_nil rfl rfl arg
    · exact fits_chanmodeBounceSimple rfl rfl arg
  · exact fits_chanmodeBounceSimple rfl rfl arg

theorem fits_chanuserModeBounce (arg : cmcptr.arg.length ≤ prefixLen) :
    (chanuserModeBounce chptr cmcptr).Fits chptr cmcptr := by
  rw [chanuserModeBounce]
  split
  · exact .of_nil rfl rfl arg
  · split
    · exact .of_nil rfl rfl arg
    · split
      · exact .of_nil rfl rfl arg
      · exact .of_nil rfl rfl arg
  · split
    · exact .of_nil rfl rfl arg
    · split
      · exact .of_nil rfl rfl arg
      · exact .of_nil rfl rfl arg

/-- The explicit removals of masks fit their fields. -/
theorem fits_explicitDel (mode : Chanmode) (mlptr : List Chanmodeitem) :
    ∀ other ∈ mlptr.map (explicitDel mode), other.acptr = none ∧ other.arg.length ≤ prefixLen := by
  intro other member
  obtain ⟨cmiptr, -, rfl⟩ := List.mem_map.mp member
  exact ⟨rfl, Nat.le_of_lt_succ (strlcpy_length_lt _ (Nat.succ_pos prefixLen))⟩

theorem fits_chanmodeBounceMask (acptr : cmcptr'.acptr = cmcptr.acptr)
    (arg : cmcptr'.arg.length ≤ prefixLen) :
    (chanmodeBounceMask systime cptr chptr cmcptr').Fits chptr cmcptr := by
  rw [chanmodeBounceMask]
  split
  · dsimp only
    split
    · exact ⟨rfl, acptr, arg, fits_explicitDel _ _⟩
    · exact ⟨rfl, acptr, arg, fits_explicitDel _ _⟩
  · exact ⟨rfl, acptr, arg, fits_explicitDel _ _⟩
  · exact .of_nil rfl acptr arg

theorem fits_chanmodeBounceBan (arg : cmcptr.arg.length ≤ prefixLen) :
    (chanmodeBounceBan systime cptr chptr cmcptr).Fits chptr cmcptr := by
  rw [chanmodeBounceBan]
  split
  · exact fits_chanmodeBounceMask rfl
      (Nat.le_of_lt_succ (strlcpy_length_lt _ (Nat.succ_pos prefixLen)))
  · exact fits_chanmodeBounceMask rfl arg
  · exact fits_chanmodeBounceMask rfl arg

theorem fits_callback (arg : cmcptr.arg.length ≤ prefixLen) :
    (callback systime cptr chptr cmcptr).Fits chptr cmcptr := by
  rw [callback]
  split
  · exact fits_chanmodeBounceSimple rfl rfl arg
  · exact fits_chanmodeBounceSimple rfl rfl arg
  · exact fits_cmInviteBounce arg
  · exact fits_cmKeyBounce arg
  · exact fits_cmLimitBounce arg
  · exact fits_chanmodeBounceBan arg
  · exact fits_chanmodeBounceMask rfl arg
  · exact fits_chanuserModeBounce arg

/-! ## The walk -/

/-- A client whose name and identifier fit their fields. -/
def Named (acptr : Client) : Prop :=
  acptr.name.length ≤ 64 ∧ ∀ uptr ∈ acptr.user, uptr.uid.length ≤ 8

/-- The texts of a change fit their fields. -/
def ChangeFits (cmcptr : Chanmodechange) : Prop :=
  cmcptr.arg.length ≤ prefixLen ∧ ∀ acptr ∈ cmcptr.acptr, Named acptr

/-- The walk keeps the name of the channel, and what it has come past fits. -/
structure Applied.Fits (state : Applied) (chptr : Channel) : Prop where
  name : state.chptr.name = chptr.name
  changes : ∀ cmcptr ∈ state.changes, ChangeFits cmcptr

theorem Applied.Fits.applyOne {state : Applied} (kept : state.Fits chptr)
    (fits : ChangeFits cmcptr) : (applyOne systime source state cmcptr).Fits chptr := by
  have b := @fits_callback systime source.cptr state.chptr cmcptr fits.1
  have appended : ∀ last, ChangeFits last → ∀ other ∈ state.changes ++
      (callback systime source.cptr state.chptr cmcptr).inserted ++ [last], ChangeFits other := by
    intro last lastFits other member
    rcases List.mem_append.mp member with front | isLast
    · rcases List.mem_append.mp front with past | inserted
      · exact kept.changes other past
      · obtain ⟨noClient, short⟩ := b.inserted other inserted
        exact ⟨short, fun acptr some => by rw [noClient] at some; cases some⟩
    · rw [List.mem_singleton.mp isLast]
      exact lastFits
  have handled : ChangeFits (callback systime source.cptr state.chptr cmcptr).cmcptr :=
    ⟨b.arg, fun acptr some => fits.2 acptr (b.acptr ▸ some)⟩
  rw [Modes.applyOne]
  split
  · refine ⟨kept.name, fun other member => ?_⟩
    rcases List.mem_append.mp member with past | isLast
    · exact kept.changes other past
    · rw [List.mem_singleton.mp isLast]
      exact fits
  · dsimp only
    split
    · exact ⟨b.name.trans kept.name, appended _ handled⟩
    · exact ⟨b.name.trans kept.name, appended _ handled⟩

theorem fits_chanmodeApply (fits : ∀ cmcptr ∈ changes, ChangeFits cmcptr) :
    (chanmodeApply systime source chptr changes).Fits chptr := by
  have start : (⟨chptr, []⟩ : Applied).Fits chptr := ⟨rfl, fun _ member => by cases member⟩
  rw [chanmodeApply]
  generalize (⟨chptr, []⟩ : Applied) = state at start
  induction changes generalizing state with
  | nil => exact start
  | cons cmcptr changes ih =>
      rw [List.forall_mem_cons] at fits
      exact ih fits.2 _ (start.applyOne fits.1)

/-! ## The parser -/

variable {env : ParseEnv} {stack : Chanmodechange} {argp : List CString}

/-- Every client that an argument may name fits its fields. -/
def ParseEnv.Named (env : ParseEnv) : Prop :=
  ∀ arg, ∀ acptr ∈ env.acptr arg, Modes.Named acptr

theorem changeFits_chanmodePrepare (named : env.Named) (what : What) (mode : Chanmode)
    (arg : Option CString) (ai : Nat) :
    ∀ change ∈ (chanmodePrepare env stack chptr what mode arg ai).1, ChangeFits change := by
  have short : ∀ text : CString, (strlcpy text (prefixLen + 1)).length ≤ prefixLen :=
    fun text => Nat.le_of_lt_succ (strlcpy_length_lt text (Nat.succ_pos prefixLen))
  rw [chanmodePrepare.eq_def]
  dsimp only
  intro change prepared
  split at prepared
  · cases prepared
    exact ⟨Nat.zero_le _, fun _ some => by cases some⟩
  · split at prepared
    · split at prepared
      · cases prepared
      · cases prepared
        exact ⟨short _, fun _ some => by cases some⟩
    · cases prepared
      exact ⟨Nat.zero_le _, fun _ some => by cases some⟩
  · split at prepared
    · split at prepared
      · cases prepared
      · cases prepared
        exact ⟨short _, fun _ some => by cases some⟩
    · cases prepared
      exact ⟨Nat.zero_le _, fun _ some => by cases some⟩
  · split at prepared
    · split at prepared
      · cases prepared
        exact ⟨Nat.zero_le _, fun _ some => by cases some⟩
      · cases prepared
        exact ⟨short _, fun _ some => by cases some⟩
    · cases prepared
      exact ⟨Nat.zero_le _, fun _ some => by cases some⟩
  · split at prepared
    · split at prepared
      · cases prepared
      · split at prepared
        · cases prepared
        · split at prepared
          · cases prepared
          · next found _ _ _ =>
              cases prepared
              exact ⟨short _, fun acptr same => named _ acptr (found.trans same)⟩
    · cases prepared
      exact ⟨Nat.zero_le _, fun _ some => by cases some⟩

theorem changeFits_parseFlag (named : env.Named) (flag : Char) {state : Parse}
    (kept : ∀ change ∈ state.changes, ChangeFits change) :
    ∀ change ∈ (parseFlag env stack chptr argp flag state).changes, ChangeFits change := by
  rw [parseFlag]
  split
  · exact kept
  split
  · exact kept
  split
  · exact kept
  rcases @parseLetter_cases env stack chptr argp flag state with
    ⟨-, _, same⟩ | ⟨-, -, _, same⟩ | ⟨-, mode, -, change, ai, replies, prepared, same⟩
  · rw [same]
    exact kept
  · rw [same]
    exact kept
  · rw [same]
    intro other member
    rcases List.mem_append.mp member with past | new
    · exact kept other past
    · have fits := @changeFits_chanmodePrepare chptr env stack named state.what mode
        argp[state.ai]? state.ai
      rw [prepared] at fits
      exact fits other (Option.mem_toList.mp new)

theorem changeFits_parseFlags (named : env.Named) (pc : Nat) (modes : CString) {state : Parse}
    (kept : ∀ change ∈ state.changes, ChangeFits change) :
    ∀ change ∈ (parseFlags env stack chptr argp pc modes state).changes, ChangeFits change := by
  induction modes generalizing state with
  | nil => exact kept
  | cons flag modes ih =>
      have turned := @changeFits_parseFlag chptr env stack argp named flag state kept
      rw [parseFlags]
      split
      · exact turned
      · exact ih turned

theorem changeFits_chanmodeParse (named : env.Named) (cuptr : Option Channel) (modes : CString)
    (args : Option CString) (pc : Nat) :
    ∀ change ∈ (chanmodeParse env stack chptr cuptr modes args pc).changes, ChangeFits change :=
  changeFits_parseFlags named pc modes fun _ member => by cases member

/-! ## `m_mode_channel` -/

/-- What a `MODE` leaves behind: the channel and the list of changes, the lines for the members
and those for the servers. -/
structure Announcement where
  chptr : Channel
  changes : List Chanmodechange
  lines : List CString
  remote : List CString × List CString

/-- `client_is_user(cptr) ? IRCD_MODESPERLINE : CHANMODE_PER_LINE`. -/
def changesPerLine (cptr : Client) : Nat :=
  if cptr.isUser then modesPerLine else chanmodePerLine

/-- `m_mode_channel`: without a flag string the modes are shown, and a user who is not on the
channel is told so. -/
def mModeChannel (env : ParseEnv) (stack : Chanmodechange) (systime : Nat) (cptr : Client)
    (chptr : Channel) (modes args : Option CString) : Option Announcement :=
  match modes with
  | none => none
  | some modes =>
    if cptr.isUser ∧ (chptr.find cptr.id).isNone then none
    else
      let cuptr := if cptr.isUser then some chptr else none
      let parse := chanmodeParse env stack chptr cuptr modes args (changesPerLine cptr)
      let applied := chanmodeApply systime ⟨cptr, cptr.isUser⟩ chptr parse.changes
      some
        { chptr := applied.chptr
          changes := applied.changes
          lines := chanmodeSendLocal cptr applied.chptr applied.changes (changesPerLine cptr)
          remote := chanmodeSendRemote cptr applied.chptr applied.changes }

/-- These lines show the changes of a list that did not bounce. -/
def Shows (count : Nat) (uid : Bool) (cmd : CString) (changes : List Chanmodechange)
    (lines : List CString) : Prop :=
  ∃ pieces, Partition count changes pieces ∧
    lines = pieces.map fun piece => modeLine cmd (lineOf uid piece)

theorem shows_modeLines {text : CString} {uid : Bool} (positive : 0 < count)
    (short : text.length ≤ 146) (channel : chptr.name.length ≤ 128)
    (fits : ∀ cmcptr ∈ changes, ChangeFits cmcptr) :
    Shows count uid (modeCmd text chptr) changes
      (modeLines (modeCmd text chptr) count uid changes) := by
  have length : (modeCmd text chptr).length ≤ 281 := by
    have whole := length_modeCmd_le text chptr
    omega
  have args : ∀ cmcptr ∈ changes, (changeArg uid cmcptr).length ≤ 114 := by
    intro cmcptr member
    obtain ⟨arg, named⟩ := fits cmcptr member
    rw [changeArg]
    cases some : cmcptr.acptr with
    | none => exact arg
    | some acptr =>
        obtain ⟨name, uids⟩ := named acptr some
        dsimp only
        split
        · cases user : acptr.user with
          | none => exact Nat.zero_le _
          | some uptr =>
              have uid := uids uptr user
              rw [Option.map_some, Option.getD_some]
              omega
        · omega
  obtain ⟨pieces, cut, -, lines⟩ := modeLines_partition positive length args
  exact ⟨pieces, cut, lines⟩

/-- After a `MODE` the members of the channel, the servers that know identifiers and the other
servers see the changes that were applied, the explicit removals among them, each once and in
order; what bounced does not show. -/
theorem mModeChannel_announced (named : env.Named) (isNamed : Named cptr)
    (host : cptr.host.length ≤ 64) (user : ∀ uptr ∈ cptr.user, uptr.name.length ≤ 16)
    (channel : chptr.name.length ≤ 128) (modes args : Option CString) :
    ∀ result ∈ mModeChannel env stack systime cptr chptr modes args,
      Shows (changesPerLine cptr) false (modeCmd cptr.fullName chptr) result.changes
          result.lines ∧
        Shows chanmodePerLine true (modeCmd ((cptr.user.map User.uid).getD cptr.name) chptr)
            result.changes result.remote.1 ∧
          Shows chanmodePerLine false (modeCmd cptr.name chptr) result.changes
            result.remote.2 := by
  intro result announced
  rw [mModeChannel.eq_def] at announced
  cases modes with
  | none => cases announced
  | some modes =>
      dsimp only at announced
      split at announced
      · cases announced
      cases announced
      have parsed := @changeFits_chanmodeParse chptr env stack named
        (if cptr.isUser then some chptr else none) modes args (changesPerLine cptr)
      generalize (chanmodeParse env stack chptr (if cptr.isUser then some chptr else none) modes
        args (changesPerLine cptr)).changes = changes at parsed ⊢
      have walked := @fits_chanmodeApply systime chptr changes ⟨cptr, cptr.isUser⟩ parsed
      have sameCmd : ∀ text, modeCmd text
          (chanmodeApply systime ⟨cptr, cptr.isUser⟩ chptr changes).chptr =
            modeCmd text chptr := by
        intro text
        rw [modeCmd, modeCmd, walked.name]
      have few : 0 < changesPerLine cptr := by
        rw [changesPerLine]
        split <;> decide
      have name := isNamed.1
      have full : cptr.fullName.length ≤ 146 :=
        @FieldsFit.length_fullName cptr chptr []
          { name := name
            host := host
            user := user
            channel := channel
            arg := fun _ member => by cases member
            acptr := fun _ member => by cases member }
      have identifier : ((cptr.user.map User.uid).getD cptr.name).length ≤ 146 := by
        cases some : cptr.user with
        | none =>
            rw [Option.map_none, Option.getD_none]
            omega
        | some uptr =>
            have uid := isNamed.2 uptr some
            rw [Option.map_some, Option.getD_some]
            omega
      have many : 0 < chanmodePerLine := by decide
      dsimp only
      rw [chanmodeSendLocal, chanmodeSendRemote]
      dsimp only
      rw [sameCmd, sameCmd, sameCmd]
      exact ⟨shows_modeLines few full channel walked.changes,
        shows_modeLines many identifier channel walked.changes,
        shows_modeLines many (by omega) channel walked.changes⟩

/-- One mode, and no clients. -/
def flagEnv : ParseEnv where
  chanmodeTable := fun i =>
    if i = tableIndex 'n' then some ⟨'n', .single, ∅, .chanmodeBounceSimple⟩ else none
  clientFindUid := fun _ => none
  clientFindNick := fun _ => none
  clientFindNickhw := fun _ => none
  isServer := true
  capUid := true

theorem flagEnv_named : flagEnv.Named := by
  intro arg acptr found
  simp [ParseEnv.acptr, flagEnv] at found

theorem mModeChannel_announced_flag :
    (mModeChannel flagEnv (flagChange 'n' .add 0) 1 flagServer flagChannel (some ['+', 'n'])
        none).isSome ∧
      ∀ result ∈ mModeChannel flagEnv (flagChange 'n' .add 0) 1 flagServer flagChannel
          (some ['+', 'n']) none,
        Shows (changesPerLine flagServer) false (modeCmd flagServer.fullName flagChannel)
            result.changes result.lines ∧
          Shows chanmodePerLine true
              (modeCmd ((flagServer.user.map User.uid).getD flagServer.name) flagChannel)
              result.changes result.remote.1 ∧
            Shows chanmodePerLine false (modeCmd flagServer.name flagChannel) result.changes
              result.remote.2 :=
  ⟨rfl, mModeChannel_announced flagEnv_named ⟨by decide, fun _ member => by cases member⟩
    (by decide) (fun _ member => by cases member) (by decide) _ _⟩

end Modes

end Chaosircd
