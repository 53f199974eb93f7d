import Chaosircd.ModeLines

/-!
# Channel modes: the changes of each line

The loop of `chanmode_send_local` puts the changes of a list on lines.  Those that did not
bounce are cut into pieces, one for each line, and a line shows the changes of its piece, with a
sign where the direction is another one than before.  A line has room for them in both buffers
whatever the arguments are; the loop comes to its end because an argument is never as long as
what is left behind the command.
-/

namespace Chaosircd

namespace Modes

/-! ## What a line shows -/

/-- The sign of a direction. -/
def signOf (what : What) : Char :=
  if what = .add then '+' else '-'

/-- The letters of these changes behind one of this direction. -/
def flagsOf : Option What → List Chanmodechange → CString
  | _, [] => []
  | before, cmcptr :: piece =>
    (if before = some cmcptr.what then [] else [signOf cmcptr.what]) ++
      cmcptr.mode.letter :: flagsOf (some cmcptr.what) piece

/-- An argument behind those before it. -/
def joinArg (parabuf arg : CString) : CString :=
  parabuf ++ (if parabuf = [] then [] else [' ']) ++ arg

/-- The arguments of these changes behind those before them. -/
def argsOf (uid : Bool) (parabuf : CString) (piece : List Chanmodechange) : CString :=
  ((piece.filter fun cmcptr => cmcptr.mode.type ≠ .single).map (changeArg uid)).foldl joinArg
    parabuf

/-- The two buffers of a line with these changes. -/
def lineOf (uid : Bool) (piece : List Chanmodechange) : CString × CString :=
  (flagsOf none piece, argsOf uid [] piece)

/-- These changes are written into the buffers. -/
def Assembly.writeAll (st : Assembly) (uid : Bool) (piece : List Chanmodechange) : Assembly :=
  piece.foldl (fun st cmcptr => st.write uid cmcptr) st

variable {n count : Nat} {uid : Bool} {st : Assembly}

theorem Assembly.writeAll_modebuf (st : Assembly) (uid : Bool) (piece : List Chanmodechange) :
    (st.writeAll uid piece).modebuf = st.modebuf ++ flagsOf st.what piece := by
  induction piece generalizing st with
  | nil => exact (List.append_nil _).symm
  | cons cmcptr piece ih =>
      rw [writeAll, List.foldl_cons, ← writeAll, ih, flagsOf, signOf, write]
      simp

theorem Assembly.writeAll_parabuf (st : Assembly) (uid : Bool) (piece : List Chanmodechange) :
    (st.writeAll uid piece).parabuf = argsOf uid st.parabuf piece := by
  induction piece generalizing st with
  | nil => rfl
  | cons cmcptr piece ih =>
      rw [writeAll, List.foldl_cons, ← writeAll, ih, argsOf, argsOf]
      by_cases single : cmcptr.mode.type = .single
      · simp [write, single]
      · simp [write, single, joinArg]

theorem lineOf_eq (uid : Bool) (piece : List Chanmodechange) :
    lineOf uid piece =
      ((Assembly.empty.writeAll uid piece).modebuf,
        (Assembly.empty.writeAll uid piece).parabuf) := by
  rw [Assembly.writeAll_modebuf, Assembly.writeAll_parabuf]
  rfl

theorem flagsOf_ne_nil (before : Option What) {piece : List Chanmodechange} (some : piece ≠ []) :
    flagsOf before piece ≠ [] := by
  cases piece with
  | nil => exact absurd rfl some
  | cons cmcptr piece => simp [flagsOf]

/-! ## One call -/

/-- The buffers hold a line of up to this many changes, with their ends. -/
structure Assembly.Inside (st : Assembly) (n : Nat) : Prop where
  modebuf : st.modebuf.length ≤ 2 * st.i
  parabuf : st.parabuf.length < max 1 n

theorem Assembly.Inside.empty (n : Nat) : Assembly.empty.Inside n where
  modebuf := Nat.le_refl 0
  parabuf := Nat.lt_of_lt_of_le Nat.zero_lt_one (Nat.le_max_left 1 n)

theorem Assembly.Inside.write (inside : st.Inside n) {cmcptr : Chanmodechange}
    (fits : ¬ st.Overflows n uid cmcptr) : (st.write uid cmcptr).Inside n := by
  have letters := inside.modebuf
  have before := inside.parabuf
  constructor
  · have sign : (if st.what = some cmcptr.what then ([] : CString)
        else [if cmcptr.what = .add then '+' else '-']).length ≤ 1 := by
      split
      · exact Nat.zero_le 1
      · exact Nat.le_refl 1
    rw [Assembly.write]
    dsimp only
    rw [List.length_append, List.length_append, List.length_singleton]
    omega
  · rw [Assembly.write]
    dsimp only
    by_cases single : cmcptr.mode.type = .single
    · rwa [if_pos single]
    · have blank : (if st.parabuf = [] then ([] : CString) else [' ']).length ≤ 1 := by
        split <;> decide
      have room : st.parabuf.length + (changeArg uid cmcptr).length + 2 ≤ n := by
        by_contra more
        exact fits ⟨single, Nat.lt_of_not_le more⟩
      rw [if_neg single, List.length_append, List.length_append]
      omega

/-- A call takes a piece of the changes that did not bounce, and leaves those behind it. -/
theorem assembleLoop_piece (n : Nat) (uid : Bool) (changes : List Chanmodechange) (st : Assembly)
    (room : st.i < count ∧ st.i < chanmodePerLine) (inside : st.Inside n) :
    ∃ piece,
      unbounced changes = piece ++ unbounced (assembleLoop n count uid changes st).2 ∧
        (assembleLoop n count uid changes st).1 = st.writeAll uid piece ∧
          st.i + piece.length ≤ count ∧ st.i + piece.length ≤ chanmodePerLine ∧
            (st.writeAll uid piece).Inside n ∧
              (st.writeAll uid piece).i = st.i + piece.length := by
  have stays : ∀ rest, (unbounced rest = [] ++ unbounced rest ∧ st = st.writeAll uid [] ∧
      st.i + 0 ≤ count ∧ st.i + 0 ≤ chanmodePerLine ∧ (st.writeAll uid []).Inside n ∧
        (st.writeAll uid []).i = st.i + 0) := fun rest =>
    ⟨rfl, rfl, Nat.le_of_lt room.1, Nat.le_of_lt room.2, inside, rfl⟩
  induction changes generalizing st with
  | nil => exact ⟨[], stays []⟩
  | cons cmcptr changes ih =>
      rw [assembleLoop]
      by_cases bounced : cmcptr.bounced ≠ 0
      · rw [if_pos bounced, if_pos room, unbounced_cons_of_ne bounced]
        exact ih _ room inside stays
      rw [if_neg bounced]
      by_cases overflows : st.Overflows n uid cmcptr
      · rw [if_pos overflows]
        exact ⟨[], stays _⟩
      rw [if_neg overflows, unbounced_cons_of_zero (not_not.mp bounced)]
      dsimp only
      have written := inside.write overflows
      have next : (st.write uid cmcptr).i = st.i + 1 := rfl
      by_cases more : (st.write uid cmcptr).i < count ∧ (st.write uid cmcptr).i < chanmodePerLine
      · obtain ⟨piece, cut, same, few, short, kept, index⟩ := ih _ more written fun rest =>
          ⟨rfl, rfl, Nat.le_of_lt more.1, Nat.le_of_lt more.2, written, rfl⟩
        rw [if_pos more]
        refine ⟨cmcptr :: piece, ?_, same, ?_, ?_, kept, ?_⟩
        · rw [cut]
          rfl
        · rw [List.length_cons]
          omega
        · rw [List.length_cons]
          omega
        · rw [List.length_cons]
          have index' : (st.writeAll uid (cmcptr :: piece)).i =
              (st.write uid cmcptr).i + piece.length := index
          omega
      · rw [if_neg more]
        exact ⟨[cmcptr], rfl, rfl, room.1, room.2, written, rfl⟩

/-- Whatever the arguments are, a line has room in both buffers. -/
theorem chanmodeAssemble_inside (n : Nat) (positive : 0 < count) (uid : Bool)
    (changes : List Chanmodechange) :
    (chanmodeAssemble n count uid changes).1.modebuf.length < chanmodePerLine * 2 + 1 ∧
      (chanmodeAssemble n count uid changes).1.parabuf.length < max 1 n := by
  obtain ⟨piece, -, same, -, short, inside, index⟩ :=
    assembleLoop_piece n uid changes .empty ⟨positive, by decide⟩ (.empty n)
  have empty : Assembly.empty.i = 0 := rfl
  have letters := inside.modebuf
  rw [chanmodeAssemble, same]
  refine ⟨?_, inside.parabuf⟩
  omega

theorem assembleLoop_suffix (n count : Nat) (uid : Bool) (changes : List Chanmodechange)
    (st : Assembly) : (assembleLoop n count uid changes st).2 <:+ changes := by
  induction changes generalizing st with
  | nil => exact List.suffix_refl []
  | cons cmcptr changes ih =>
      have later : ∀ st, (assembleLoop n count uid changes st).2 <:+ cmcptr :: changes :=
        fun st => (ih st).trans (List.suffix_cons _ _)
      rw [assembleLoop]
      dsimp only
      split_ifs
      · exact later _
      · exact List.suffix_cons _ _
      · exact List.suffix_refl _
      · exact later _
      · exact List.suffix_cons _ _

/-! ## All lines of a list -/

/-- The argument of a change fits on a line of its own. -/
def ArgFits (n : Nat) (uid : Bool) (cmcptr : Chanmodechange) : Prop :=
  (changeArg uid cmcptr).length + 2 ≤ n

/-- Where the first argument fits, a call comes further. -/
theorem chanmodeAssemble_further {cmcptr : Chanmodechange} (positive : 0 < count)
    (fits : ArgFits n uid cmcptr) (changes : List Chanmodechange) :
    (chanmodeAssemble n count uid (cmcptr :: changes)).2.length ≤ changes.length := by
  have room : Assembly.empty.i < count ∧ Assembly.empty.i < chanmodePerLine :=
    ⟨positive, by decide⟩
  have inLine : ¬ Assembly.empty.Overflows n uid cmcptr := by
    rintro ⟨-, more⟩
    have empty : Assembly.empty.parabuf.length = 0 := rfl
    rw [ArgFits] at fits
    omega
  rw [chanmodeAssemble, assembleLoop]
  dsimp only
  rw [if_pos room, if_neg inLine]
  split_ifs
  · exact assembleLoop_length changes _
  · exact assembleLoop_length changes _
  · exact Nat.le_refl _

/-- The loop of `chanmode_send_local` with the buffers of the lines it sends, if it comes to the
end of the list in this many turns. -/
def sendLoop (n count : Nat) (uid : Bool) :
    Nat → List Chanmodechange → Option (List (CString × CString))
  | _, [] => some []
  | 0, _ :: _ => none
  | turns + 1, cmcptr :: changes =>
    let line := chanmodeAssemble n count uid (cmcptr :: changes)
    (sendLoop n count uid turns line.2).map fun lines =>
      if line.1.modebuf = [] then lines else (line.1.modebuf, line.1.parabuf) :: lines

theorem assembleLines_eq {turns : Nat} {changes : List Chanmodechange}
    {lines : List (CString × CString)}
    (ends : sendLoop n count uid turns changes = some lines) :
    assembleLines n count uid turns changes = lines := by
  induction turns generalizing changes lines with
  | zero =>
      cases changes with
      | nil => exact Option.some.inj ends
      | cons cmcptr changes => cases ends
  | succ turns ih =>
      cases changes with
      | nil => exact Option.some.inj ends
      | cons cmcptr changes =>
          rw [sendLoop] at ends
          obtain ⟨later, same, whole⟩ := Option.map_eq_some_iff.mp ends
          rw [assembleLines]
          dsimp only
          rw [ih same, ← whole]

/-- The pieces that the changes of a list are cut into. -/
structure Partition (count : Nat) (changes : List Chanmodechange)
    (pieces : List (List Chanmodechange)) : Prop where
  whole : pieces.flatten = unbounced changes
  shown : ∀ piece ∈ pieces, piece ≠ []
  few : ∀ piece ∈ pieces, piece.length ≤ min count chanmodePerLine

theorem sendLoop_partition (uid : Bool) (positive : 0 < count) {turns : Nat}
    {changes : List Chanmodechange} (enough : changes.length ≤ turns)
    (fits : ∀ cmcptr ∈ changes, ArgFits n uid cmcptr) :
    ∃ pieces, Partition count changes pieces ∧
      sendLoop n count uid turns changes = some (pieces.map (lineOf uid)) := by
  induction turns generalizing changes with
  | zero =>
      have empty : changes = [] := List.length_eq_zero_iff.mp (by omega)
      subst empty
      exact ⟨[], ⟨rfl, by simp, by simp⟩, rfl⟩
  | succ turns ih =>
      cases changes with
      | nil => exact ⟨[], ⟨rfl, by simp, by simp⟩, rfl⟩
      | cons cmcptr changes =>
          have further := chanmodeAssemble_further positive
            (fits cmcptr List.mem_cons_self) changes
          have suffix := assembleLoop_suffix n count uid (cmcptr :: changes) .empty
          rw [List.length_cons] at enough
          obtain ⟨pieces, partition_, ends⟩ := ih (further.trans (by omega))
            fun other member => fits other (suffix.subset member)
          obtain ⟨piece, cut, same, few, short, -, -⟩ :=
            assembleLoop_piece n uid (cmcptr :: changes) .empty ⟨positive, by decide⟩
              (.empty n)
          have empty : Assembly.empty.i = 0 := rfl
          have line : ((chanmodeAssemble n count uid (cmcptr :: changes)).1.modebuf,
              (chanmodeAssemble n count uid (cmcptr :: changes)).1.parabuf) =
                lineOf uid piece := by
            rw [lineOf_eq, chanmodeAssemble, same]
          have flags : (chanmodeAssemble n count uid (cmcptr :: changes)).1.modebuf =
              flagsOf none piece := congrArg Prod.fst line
          rw [sendLoop, ends, Option.map_some, line]
          by_cases nothing : piece = []
          · rw [if_pos (flags.trans (by rw [nothing]; rfl))]
            refine ⟨pieces, ⟨?_, partition_.shown, partition_.few⟩, rfl⟩
            rw [partition_.whole, cut, nothing]
            rfl
          · rw [if_neg (flags ▸ flagsOf_ne_nil none nothing)]
            refine ⟨piece :: pieces, ⟨?_, ?_, ?_⟩, rfl⟩
            · rw [List.flatten_cons, partition_.whole]
              exact cut.symm
            · rintro other member
              rcases List.mem_cons.mp member with rfl | member
              · exact nothing
              · exact partition_.shown other member
            · rintro other member
              rcases List.mem_cons.mp member with rfl | member
              · omega
              · exact partition_.few other member

/-- The texts fit the fields of `struct client`, `struct user`, `struct channel` and
`struct chanmodechange`. -/
structure FieldsFit (cptr : Client) (chptr : Channel) (changes : List Chanmodechange) : Prop where
  name : cptr.name.length ≤ 64
  host : cptr.host.length ≤ 64
  user : ∀ uptr ∈ cptr.user, uptr.name.length ≤ 16
  channel : chptr.name.length ≤ 128
  arg : ∀ cmcptr ∈ changes, cmcptr.arg.length ≤ prefixLen
  acptr : ∀ cmcptr ∈ changes, ∀ acptr ∈ cmcptr.acptr, acptr.name.length ≤ 64

/-- The identifiers of users fit theirs. -/
structure IdsFit (cptr : Client) (changes : List Chanmodechange) : Prop where
  user : ∀ uptr ∈ cptr.user, uptr.uid.length ≤ 8
  acptr : ∀ cmcptr ∈ changes, ∀ acptr ∈ cmcptr.acptr, ∀ uptr ∈ acptr.user, uptr.uid.length ≤ 8

variable {cptr : Client} {chptr : Channel} {changes : List Chanmodechange}

theorem length_modeCmd_le (source : CString) (chptr : Channel) :
    (modeCmd source chptr).length ≤ source.length + chptr.name.length + 7 := by
  have texts : ":".length = 1 ∧ " MODE ".length = 6 := by decide
  have cut : (modeCmd source chptr).length ≤
      (":".toList ++ source ++ " MODE ".toList ++ chptr.name).length := by
    rw [modeCmd, strlcpy]
    exact List.length_take_le' _ _
  simp only [List.length_append, String.length_toList] at cut
  omega

theorem FieldsFit.length_fullName (fields : FieldsFit cptr chptr changes) :
    cptr.fullName.length ≤ 146 := by
  have name := fields.name
  have host := fields.host
  rw [Client.fullName]
  cases some : cptr.user with
  | none =>
      dsimp only
      omega
  | some uptr =>
      have user := fields.user uptr some
      have marks : "!".length = 1 ∧ "@".length = 1 := by decide
      simp only [List.length_append, String.length_toList]
      omega

theorem FieldsFit.length_changeArg (fields : FieldsFit cptr chptr changes)
    {cmcptr : Chanmodechange} (member : cmcptr ∈ changes) :
    (changeArg false cmcptr).length ≤ 114 := by
  rw [changeArg]
  cases some : cmcptr.acptr with
  | none => exact fields.arg cmcptr member
  | some acptr =>
      have name := fields.acptr cmcptr member acptr some
      simp only [Bool.false_eq_true, if_false]
      omega

theorem IdsFit.length_changeArg (ids : IdsFit cptr changes) (fields : FieldsFit cptr chptr changes)
    {cmcptr : Chanmodechange} (member : cmcptr ∈ changes) :
    (changeArg true cmcptr).length ≤ 114 := by
  rw [changeArg]
  cases some : cmcptr.acptr with
  | none => exact fields.arg cmcptr member
  | some acptr =>
      simp only [if_true]
      cases user : acptr.user with
      | none => exact Nat.zero_le _
      | some uptr =>
          have uid := ids.acptr cmcptr member acptr some uptr user
          rw [Option.map_some, Option.getD_some]
          omega

/-- What a source and a channel leave of a line is more than an argument takes. -/
theorem argFits_of_length {cmd : CString} (short : cmd.length ≤ 281) {cmcptr : Chanmodechange}
    (arg : (changeArg uid cmcptr).length ≤ 114) : ArgFits (argLen cmd) uid cmcptr := by
  rw [ArgFits, argLen, lineLen, chanmodePerLine]
  omega

/-- The lines of a list behind a command are those of its pieces. -/
theorem modeLines_partition {cmd : CString} (positive : 0 < count) (short : cmd.length ≤ 281)
    (args : ∀ cmcptr ∈ changes, (changeArg uid cmcptr).length ≤ 114) :
    ∃ pieces, Partition count changes pieces ∧
      sendLoop (argLen cmd) count uid changes.length changes = some (pieces.map (lineOf uid)) ∧
        modeLines cmd count uid changes =
          pieces.map fun piece => modeLine cmd (lineOf uid piece) := by
  obtain ⟨pieces, cut, ends⟩ := sendLoop_partition uid positive (Nat.le_refl _)
    fun cmcptr member => argFits_of_length short (args cmcptr member)
  refine ⟨pieces, cut, ends, ?_⟩
  rw [modeLines, assembleLines_eq ends, List.map_map]
  rfl

/-- Each line of `chanmode_send_local` shows a piece of the changes that did not bounce, in
their order and up to the limit, and the loop comes to its end; a line has room in both buffers
whatever its arguments are. -/
theorem chanmodeSendLocal_partition (positive : 0 < count) (cptr : Client) (chptr : Channel)
    (changes : List Chanmodechange) :
    (∀ n uid, (chanmodeAssemble n count uid changes).1.modebuf.length < chanmodePerLine * 2 + 1 ∧
        (chanmodeAssemble n count uid changes).1.parabuf.length < max 1 n) ∧
      (FieldsFit cptr chptr changes →
        (modeCmd cptr.fullName chptr).length + argLen (modeCmd cptr.fullName chptr) + 38 =
            lineLen ∧
          ∃ pieces, Partition count changes pieces ∧
            sendLoop (argLen (modeCmd cptr.fullName chptr)) count false changes.length changes =
                some (pieces.map (lineOf false)) ∧
              chanmodeSendLocal cptr chptr changes count =
                pieces.map fun piece =>
                  modeLine (modeCmd cptr.fullName chptr) (lineOf false piece)) := by
  refine ⟨fun n uid => chanmodeAssemble_inside n positive uid changes, fun fields => ⟨?_, ?_⟩⟩
  · have cmd := length_modeCmd_le cptr.fullName chptr
    have name := fields.length_fullName
    have channel := fields.channel
    rw [argLen, lineLen, chanmodePerLine]
    omega
  · have cmd := length_modeCmd_le cptr.fullName chptr
    have name := fields.length_fullName
    have channel := fields.channel
    exact modeLines_partition positive (by omega) fun _ member => fields.length_changeArg member

/-- The change of a flag. -/
def flagChange (letter : Char) (what : What) (bounced : Nat) : Chanmodechange where
  mode := ⟨letter, .single, ∅, .chanmodeBounceSimple⟩
  what := what
  acptr := none
  bounced := bounced
  ts := 0
  nmask := none
  umask := none
  hmask := none
  info := []
  arg := []

/-- A server sets a flag, does not remove another one, and sets two more. -/
def flagChanges : List Chanmodechange :=
  [flagChange 'n' .add 0, flagChange 'm' .del 1, flagChange 't' .add 0, flagChange 's' .add 0]

/-- The server, and the channel. -/
def flagServer : Client :=
  ⟨0, false, true, ['a'], none, [], [], [], []⟩

def flagChannel : Channel :=
  ⟨0, ['#'], ∅, [], 0, fun _ => [], [], ∅⟩

theorem flagChanges_fieldsFit : FieldsFit flagServer flagChannel flagChanges where
  name := by decide
  host := by decide
  user := fun _ member => by cases member
  channel := by decide
  arg := by decide
  acptr := by simp [flagChanges, flagChange]

theorem chanmodeSendLocal_partition_flags :
    ∃ pieces, Partition 2 flagChanges pieces ∧
      chanmodeSendLocal flagServer flagChannel flagChanges 2 =
        pieces.map fun piece =>
          modeLine (modeCmd flagServer.fullName flagChannel) (lineOf false piece) := by
  obtain ⟨-, fits⟩ :=
    chanmodeSendLocal_partition (show 0 < 2 by decide) flagServer flagChannel flagChanges
  obtain ⟨-, pieces, cut, -, lines⟩ := fits flagChanges_fieldsFit
  exact ⟨pieces, cut, lines⟩

/-- The servers that know identifiers and those that do not get the same changes in the same
order, each on lines of their own. -/
theorem chanmodeSendRemote_partition (fields : FieldsFit cptr chptr changes)
    (ids : IdsFit cptr changes) :
    ∃ pieces pieces', Partition chanmodePerLine changes pieces ∧
      Partition chanmodePerLine changes pieces' ∧ pieces.flatten = pieces'.flatten ∧
        chanmodeSendRemote cptr chptr changes =
          (pieces.map fun piece =>
              modeLine (modeCmd ((cptr.user.map User.uid).getD cptr.name) chptr)
                (lineOf true piece),
            pieces'.map fun piece => modeLine (modeCmd cptr.name chptr) (lineOf false piece)) := by
  have name := fields.name
  have channel := fields.channel
  have source : ((cptr.user.map User.uid).getD cptr.name).length ≤ 64 := by
    cases some : cptr.user with
    | none => exact name
    | some uptr =>
        have uid := ids.user uptr some
        rw [Option.map_some, Option.getD_some]
        omega
  have short : (modeCmd ((cptr.user.map User.uid).getD cptr.name) chptr).length ≤ 281 := by
    have cmd := length_modeCmd_le ((cptr.user.map User.uid).getD cptr.name) chptr
    omega
  have short' : (modeCmd cptr.name chptr).length ≤ 281 := by
    have cmd := length_modeCmd_le cptr.name chptr
    omega
  obtain ⟨pieces, cut, -, lines⟩ := modeLines_partition (show 0 < chanmodePerLine by decide)
    short fun _ member => ids.length_changeArg fields member
  obtain ⟨pieces', cut', -, lines'⟩ := modeLines_partition (show 0 < chanmodePerLine by decide)
    short' fun _ member => fields.length_changeArg member
  refine ⟨pieces, pieces', cut, cut', cut.whole.trans cut'.whole.symm, ?_⟩
  rw [chanmodeSendRemote, lines, lines']

theorem chanmodeSendRemote_partition_flags :
    ∃ pieces, Partition chanmodePerLine flagChanges pieces ∧
      (chanmodeSendRemote flagServer flagChannel flagChanges).2 =
        pieces.map fun piece =>
          modeLine (modeCmd flagServer.name flagChannel) (lineOf false piece) := by
  obtain ⟨_, pieces, -, cut, -, lines⟩ :=
    chanmodeSendRemote_partition flagChanges_fieldsFit
      { user := fun _ member => by cases member
        acptr := by simp [flagChanges, flagChange] }
  exact ⟨pieces, cut, congrArg Prod.snd lines⟩

end Modes

end Chaosircd
