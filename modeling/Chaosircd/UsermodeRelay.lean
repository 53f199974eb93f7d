import Chaosircd.Tokenize
import Chaosircd.UsermodeLists

/-!
# Relaying user modes

The server of a user packs the changes that it has made into lines of eight: signs and
letters, then the arguments, each behind a blank.  The next server takes the line apart at
blanks, reads the letters against the modes that it has on record, and passes on what is
left of the changes.  Lines that fit and arguments that are words come through.
-/

namespace Chaosircd

namespace Usermodes

/-! ## The modes of the modules -/

/-- `usermode_table`, in which a letter stands for the mode that has it. -/
structure ModeTable where
  lookup : Char → Option Usermode
  letter : ∀ c umptr, lookup c = some umptr → umptr.character = c
  valid : ∀ c umptr, lookup c = some umptr → usermodeValid c = true

/-- The modes that the modules register. -/
def usermodeModules : List Usermode :=
  [⟨'c', .on, .clientLocal, 0, true⟩, ⟨'g', .off, .clientLocal, 0, true⟩, umInvisible,
    umOperator, ⟨'p', .off, .clientLocal, 0, true⟩, ⟨'s', .off, .clientLocal, 0, false⟩,
    ⟨'w', .off, .clientLocal, 0, false⟩]

/-- The table when all of them are loaded. -/
def ModeTable.ofModules : ModeTable where
  lookup c := usermodeModules.find? fun umptr => umptr.character = c
  letter c umptr found := by simpa using List.find?_some found
  valid c umptr found := by
    have named : umptr.character = c := by simpa using List.find?_some found
    have all : ∀ umptr ∈ usermodeModules, usermodeValid umptr.character = true := by decide
    exact named ▸ all umptr (List.mem_of_find?_eq_some found)

/-- What a server has on record of a user: its modes, and whether it has an `oper{}` block. -/
structure Record where
  modes : BitVec 64
  oper : Bool
  deriving DecidableEq

/-- `um_client_bounce`. -/
def umClientBounce (isLocal oper : Bool) (umcptr : Usermodechange) : Bool :=
  isLocal && umcptr.change && !oper

/-- `um_oper_bounce`, and whether the user keeps the block. -/
def umOperBounce (isLocal permission oper : Bool) (umcptr : Usermodechange) : Bool × Bool :=
  (isLocal && umcptr.change && permission, oper && (!isLocal || umcptr.change))

/-- `um_crowdguard_bounce`. -/
def umCrowdguardBounce : Bool :=
  false

/-- `um_paranoid_bounce`. -/
def umParanoidBounce (permission : Bool) : Bool :=
  permission

/-- The handler of a mode: whether it refuses the change, and the block. -/
def Usermodechange.handler (isLocal permission oper : Bool) (umcptr : Usermodechange) :
    Bool × Bool :=
  if umcptr.mode.handler then
    match umcptr.mode.character with
    | 'c' => (umClientBounce isLocal oper umcptr, oper)
    | 'g' => (umCrowdguardBounce, oper)
    | 'o' => umOperBounce isLocal permission oper umcptr
    | 'p' => (umParanoidBounce permission, oper)
    | _ => (false, oper)
  else (false, oper)

namespace Record

/-- `usermode_apply`, the lists of the modes apart: the record, and what is left of the
changes. -/
def usermodeApply (isLocal permission : Bool) :
    Record → List Usermodechange → Record × List Usermodechange
  | record, [] => (record, [])
  | record, umcptr :: changes =>
    let (refused, oper) := umcptr.handler isLocal permission record.oper
    if refused then usermodeApply isLocal permission ⟨record.modes, oper⟩ changes
    else
      let (record, kept) :=
        usermodeApply isLocal permission ⟨umcptr.turn record.modes, oper⟩ changes
      (record, umcptr :: kept)

/-- `usermode_make`, for a user that is here or elsewhere. -/
def usermodeMake (record : Record) (table : ModeTable) (isLocal permission : Bool)
    (args : List CString) : Record × List Usermodechange :=
  record.usermodeApply isLocal permission (usermodeParse table.lookup record.modes args)

end Record

/-! ## Lines -/

/-- `USERMODE_PERLINE_REMOTE`. -/
def usermodePerlineRemote : Nat := 8

/-- `IRCD_LINELEN`. -/
def lineLen : Nat := 2048

/-- Signs and letters of a line; a sign stands where it is another than before. -/
def umcbuf : Option Bool → List Usermodechange → CString
  | _, [] => []
  | change, umcptr :: changes =>
    if change = some umcptr.change then
      umcptr.mode.character :: umcbuf (some umcptr.change) changes
    else
      (if umcptr.change then '+' else '-') :: umcptr.mode.character ::
        umcbuf (some umcptr.change) changes

/-- The arguments of a line. -/
def umcargs (changes : List Usermodechange) : CString :=
  changes.flatMap fun umcptr => match umcptr.arg with
    | none => []
    | some arg => ' ' :: arg

/-- The loop of `usermode_change_send` to servers: the changes of each line.  Those that are
in the buffers already come first. -/
def usermodeChangeSend (buffered : List Usermodechange) :
    List Usermodechange → List (List Usermodechange)
  | [] => []
  | umcptr :: changes =>
    if usermodePerlineRemote ≤ buffered.length + 1 ∨ changes = [] then
      (buffered ++ [umcptr]) :: usermodeChangeSend [] changes
    else usermodeChangeSend (buffered ++ [umcptr]) changes

/-- What follows the command in a line of `usermode_send_remote`. -/
def lineText (changes : List Usermodechange) : CString :=
  umcbuf none changes ++ umcargs changes

/-- How much may follow the command where the line starts with this name of the user:
`server_vsend` has `IRCD_LINELEN - 2` characters for the line. -/
def lineRoom (source : CString) : Nat :=
  lineLen - 2 - (":".toList ++ source ++ " UMODE ".toList).length

/-! ## The next server -/

namespace Record

/-- `ms_umode` for a line. -/
def msUmode (record : Record) (table : ModeTable) (text : CString) :
    Record × List Usermodechange :=
  record.usermodeMake table false false (strTokenize 253 text)

/-- `ms_umode` for the lines in turn: the record, and the changes that are passed on. -/
def receive (table : ModeTable) (source : CString) :
    Record → List (List Usermodechange) → Record × List Usermodechange
  | record, [] => (record, [])
  | record, changes :: lines =>
    let (record, first) := record.msUmode table ((lineText changes).take (lineRoom source))
    let (record, rest) := receive table source record lines
    (record, first ++ rest)

/-- The next server has the modes of the user right, and passes on the same changes. -/
def Agrees (home : Record) (table : ModeTable) (source : CString) (permission : Bool)
    (args : List CString) : Prop :=
  let made := home.usermodeMake table true permission args
  ∀ remote : Record, remote.modes = home.modes →
    let received := remote.receive table source (usermodeChangeSend [] made.2)
    received.1.modes = made.1.modes ∧ received.2 = made.2

/-- The condition: the arguments of the changes are words, and no line is cut. -/
def Travels (home : Record) (table : ModeTable) (source : CString) (permission : Bool)
    (args : List CString) : Prop :=
  let made := home.usermodeMake table true permission args
  (∀ umcptr ∈ made.2, ∀ arg ∈ umcptr.arg, PlainWord arg) ∧
    ∀ changes ∈ usermodeChangeSend [] made.2, (lineText changes).length ≤ lineRoom source

end Record

/-! ## What is parsed -/

/-- The mode takes an argument when there is one. -/
def Usermode.Takes (umptr : Usermode) : Prop :=
  umptr.arg &&& argEnable ≠ 0

/-- What `usermode_parse` makes: changes of known modes, each at most once, those without
argument for modes that are not that way; arguments run out only once. -/
structure Made (table : ModeTable) (modes : BitVec 64) (changes : List Usermodechange) :
    Prop where
  known : ∀ umcptr ∈ changes, table.lookup umcptr.mode.character = some umcptr.mode
  turns : ∀ umcptr ∈ changes, umcptr.arg = none → isOn modes umcptr.mode ≠ umcptr.change
  taken : ∀ umcptr ∈ changes, umcptr.arg ≠ none → umcptr.mode.Takes
  spared : ∀ umcptr ∈ changes, umcptr.arg = none → umcptr.mode.Takes →
    umcptr.mode.arg &&& argEmpty ≠ 0
  apart : changes.Pairwise fun umcptr other => sameChange other umcptr = false
  last : changes.Pairwise fun umcptr other =>
    umcptr.arg = none → umcptr.mode.Takes → other.arg = none

variable {table : ModeTable} {modes : BitVec 64} {changes : List Usermodechange}
  {umcptr : Usermodechange}

theorem made_nil : Made table modes [] :=
  ⟨by simp, by simp, by simp, by simp, List.Pairwise.nil, List.Pairwise.nil⟩

/-- Changes that are left out do no harm. -/
theorem Made.sublist (made : Made table modes changes) {kept : List Usermodechange}
    (sublist : kept.Sublist changes) : Made table modes kept where
  known umcptr mem := made.known umcptr (sublist.subset mem)
  turns umcptr mem := made.turns umcptr (sublist.subset mem)
  taken umcptr mem := made.taken umcptr (sublist.subset mem)
  spared umcptr mem := made.spared umcptr (sublist.subset mem)
  apart := made.apart.sublist sublist
  last := made.last.sublist sublist

theorem sameChange_of_both {other another : Usermodechange}
    (first : sameChange umcptr other = true) (second : sameChange umcptr another = true) :
    sameChange another other = true := by
  obtain ⟨mode, change, arg⟩ := umcptr
  obtain ⟨mode', change', arg'⟩ := other
  obtain ⟨mode'', change'', arg''⟩ := another
  simp only [sameChange, Bool.and_eq_true, decide_eq_true_eq] at first second ⊢
  refine ⟨second.1.symm.trans first.1, ?_⟩
  cases arg with
  | none => cases arg' <;> cases arg'' <;> simp_all
  | some arg =>
      cases arg' with
      | none => cases first.2
      | some arg' =>
          cases arg'' with
          | none => cases second.2
          | some arg'' =>
              simp only [decide_eq_true_eq] at first second ⊢
              exact second.2.symm.trans first.2

/-- `usermode_change_add` leaves no other change for the same. -/
theorem sameChange_of_mem_eraseP {other : Usermodechange}
    (apart : changes.Pairwise fun umcptr other => sameChange other umcptr = false)
    (mem : other ∈ changes.eraseP (sameChange umcptr)) : sameChange umcptr other = false := by
  induction changes with
  | nil => simp at mem
  | cons first changes induction =>
      rw [List.pairwise_cons] at apart
      by_cases same : sameChange umcptr first = true
      · rw [List.eraseP_cons_of_pos same] at mem
        by_contra again
        have both := sameChange_of_both same (Bool.not_eq_false _ ▸ again)
        rw [apart.1 other mem] at both
        cases both
      · rw [List.eraseP_cons_of_neg same, List.mem_cons] at mem
        cases mem with
        | inl isFirst => rw [isFirst]; exact Bool.not_eq_true _ ▸ same
        | inr later => exact induction apart.2 later

theorem Made.changeAdd (made : Made table modes changes)
    (known : table.lookup umcptr.mode.character = some umcptr.mode)
    (turns : umcptr.arg = none → isOn modes umcptr.mode ≠ umcptr.change)
    (taken : umcptr.arg ≠ none → umcptr.mode.Takes)
    (spared : umcptr.arg = none → umcptr.mode.Takes → umcptr.mode.arg &&& argEmpty ≠ 0)
    (last : umcptr.arg ≠ none → ∀ other ∈ changes, other.arg = none → ¬ other.mode.Takes) :
    Made table modes (usermodeChangeAdd changes umcptr) := by
  have kept := made.sublist (List.eraseP_sublist (p := sameChange umcptr))
  have either : ∀ other ∈ usermodeChangeAdd changes umcptr,
      other ∈ changes.eraseP (sameChange umcptr) ∨ other = umcptr := by
    intro other mem
    simpa [usermodeChangeAdd] using mem
  constructor
  · intro other mem
    rcases either other mem with mem | rfl
    · exact kept.known other mem
    · exact known
  · intro other mem
    rcases either other mem with mem | rfl
    · exact kept.turns other mem
    · exact turns
  · intro other mem
    rcases either other mem with mem | rfl
    · exact kept.taken other mem
    · exact taken
  · intro other mem
    rcases either other mem with mem | rfl
    · exact kept.spared other mem
    · exact spared
  · rw [usermodeChangeAdd, List.pairwise_append]
    refine ⟨kept.apart, List.pairwise_singleton _ _, ?_⟩
    intro other mem isNew new
    rw [List.mem_singleton.mp new]
    exact sameChange_of_mem_eraseP made.apart mem
  · rw [usermodeChangeAdd, List.pairwise_append]
    refine ⟨kept.last, List.pairwise_singleton _ _, ?_⟩
    intro other mem isNew new bare takes
    rw [List.mem_singleton.mp new]
    by_contra given
    exact last given other (List.mem_of_mem_eraseP mem) bare takes

/-- No argument is left when a mode has had to do without. -/
def Parse.Starved (parse : Parse) (rest : List CString) : Prop :=
  ∀ umcptr ∈ parse.changes, umcptr.arg = none → umcptr.mode.Takes → rest.length ≤ parse.skip

theorem Made.add {parse : Parse} {umptr : Usermode} (made : Made table modes parse.changes)
    (known : table.lookup umptr.character = some umptr)
    (spared : umptr.Takes → umptr.arg &&& argEmpty ≠ 0) :
    Made table modes (parse.add modes umptr).changes := by
  unfold Parse.add
  split
  · exact made
  · rename_i differ
    exact made.changeAdd known (fun _ => differ) (fun given => absurd rfl given)
      (fun _ => spared) (fun given => absurd rfl given)

theorem Parse.Starved.add {parse : Parse} {rest : List CString} {umptr : Usermode}
    (starved : parse.Starved rest) (empty : umptr.Takes → rest.length ≤ parse.skip) :
    (parse.add modes umptr).Starved rest := by
  unfold Parse.add
  split
  · exact starved
  · intro other mem bare takes
    rcases List.mem_append.mp mem with mem | mem
    · exact starved other (List.mem_of_mem_eraseP mem) bare takes
    · rw [List.mem_singleton.mp mem] at takes
      exact empty takes

/-- One character. -/
theorem Made.parseChar {parse : Parse} {rest : List CString}
    (made : Made table modes parse.changes) (starved : parse.Starved rest) (c : Char) :
    Made table modes (parseChar table.lookup modes rest parse c).changes ∧
      (Usermodes.parseChar table.lookup modes rest parse c).Starved rest := by
  unfold Usermodes.parseChar
  split
  · exact ⟨made, starved⟩
  · split
    · exact ⟨made, starved⟩
    · split
      · exact ⟨made, starved⟩
      · cases found : table.lookup c with
        | none => exact ⟨made, starved⟩
        | some umptr =>
            have known : table.lookup umptr.character = some umptr :=
              table.letter c umptr found ▸ found
            dsimp only
            split
            · rename_i free
              exact ⟨made.add known fun takes => absurd free takes,
                starved.add fun takes => absurd free takes⟩
            · rename_i takes
              cases next : rest[parse.skip]? with
              | some changearg =>
                  have some_left : parse.skip < rest.length :=
                    (List.getElem?_eq_some_iff.mp next).1
                  refine ⟨?_, ?_⟩
                  · refine made.changeAdd known (fun bare => nomatch bare) (fun _ => takes)
                      (fun bare => nomatch bare) ?_
                    intro _ other mem bare takes'
                    exact absurd (starved other mem bare takes') (Nat.not_le.mpr some_left)
                  · intro other mem bare takes'
                    rcases List.mem_append.mp mem with mem | mem
                    · exact (starved other (List.mem_of_mem_eraseP mem) bare takes').trans
                        (Nat.le_succ _)
                    · rw [List.mem_singleton.mp mem] at bare
                      cases bare
              | none =>
                  dsimp only
                  split
                  · exact ⟨made, starved⟩
                  · rename_i spared
                    exact ⟨made.add known fun _ => spared,
                      starved.add fun _ => List.getElem?_eq_none_iff.mp next⟩

theorem Made.parseWord {parse : Parse} {rest : List CString}
    (made : Made table modes parse.changes) (starved : parse.Starved rest) (word : CString) :
    Made table modes (word.foldl (Usermodes.parseChar table.lookup modes rest) parse).changes ∧
      (word.foldl (Usermodes.parseChar table.lookup modes rest) parse).Starved rest := by
  induction word generalizing parse with
  | nil => exact ⟨made, starved⟩
  | cons c word induction =>
      obtain ⟨made, starved⟩ := made.parseChar starved c
      exact induction made starved

theorem Made.parseArgs {parse : Parse} {args : List CString}
    (made : Made table modes parse.changes) (starved : parse.Starved args) :
    Made table modes (parseArgs table.lookup modes args parse).changes := by
  induction args generalizing parse with
  | nil => exact made
  | cons arg rest induction =>
      rw [Usermodes.parseArgs]
      split
      · rename_i skip used
        refine induction made fun umcptr mem bare takes => ?_
        have enough := starved umcptr mem bare takes
        rw [used, List.length_cons] at enough
        exact Nat.le_of_succ_le_succ enough
      · rename_i used
        have fresh : parse.Starved rest := by
          intro umcptr mem bare takes
          have enough := starved umcptr mem bare takes
          rw [used] at enough
          exact absurd enough (Nat.not_succ_le_zero _)
        obtain ⟨made, starved⟩ := made.parseWord fresh arg
        exact induction made starved

theorem made_usermodeParse (table : ModeTable) (modes : BitVec 64) (args : List CString) :
    Made table modes (usermodeParse table.lookup modes args) :=
  Made.parseArgs made_nil fun _ mem => nomatch mem

/-! ## What is applied -/

/-- The modes after the changes. -/
def turned (modes : BitVec 64) (changes : List Usermodechange) : BitVec 64 :=
  changes.foldl (fun modes umcptr => umcptr.turn modes) modes

/-- Changes that are to other modes, or that have arguments, leave a mode alone. -/
theorem isOn_turned_of_spared {umptr : Usermode} {changes : List Usermodechange}
    (valid : usermodeValid umptr.character = true)
    (spared : ∀ umcptr ∈ changes, usermodeValid umcptr.mode.character = true ∧
      (umcptr.mode.character = umptr.character → umcptr.arg ≠ none)) (modes : BitVec 64) :
    isOn (turned modes changes) umptr = isOn modes umptr := by
  induction changes generalizing modes with
  | nil => rfl
  | cons umcptr changes induction =>
      rw [List.forall_mem_cons] at spared
      refine (induction spared.2 _).trans ?_
      dsimp only
      by_cases same : umcptr.mode.character = umptr.character
      · rw [turn_of_arg (spared.1.2 same)]
      · exact isOn_turn_of_ne spared.1.1 valid (Ne.symm same)

namespace Record

theorem usermodeApply_sublist (isLocal permission : Bool) (record : Record)
    (changes : List Usermodechange) :
    (record.usermodeApply isLocal permission changes).2.Sublist changes := by
  induction changes generalizing record with
  | nil => exact List.Sublist.refl _
  | cons umcptr changes induction =>
      rw [usermodeApply]
      dsimp only
      split
      · exact (induction _).cons umcptr
      · exact (induction _).cons_cons umcptr

/-- Only what is left of the changes turns modes. -/
theorem usermodeApply_modes (isLocal permission : Bool) (record : Record)
    (changes : List Usermodechange) :
    (record.usermodeApply isLocal permission changes).1.modes =
      turned record.modes (record.usermodeApply isLocal permission changes).2 := by
  induction changes generalizing record with
  | nil => rfl
  | cons umcptr changes induction =>
      rw [usermodeApply]
      dsimp only
      split
      · exact induction _
      · exact induction _

/-- No handler refuses a change of a user that is elsewhere. -/
theorem usermodeApply_elsewhere (record : Record) (changes : List Usermodechange) :
    record.usermodeApply false false changes =
      (⟨turned record.modes changes, record.oper⟩, changes) := by
  induction changes generalizing record with
  | nil => rfl
  | cons umcptr changes induction =>
      have allowed : umcptr.handler false false record.oper = (false, record.oper) := by
        unfold Usermodechange.handler
        split
        · split <;> simp [umClientBounce, umCrowdguardBounce, umOperBounce, umParanoidBounce]
        · rfl
      rw [usermodeApply, allowed]
      simp only [Bool.false_eq_true, if_false, induction]
      rfl

theorem made_usermodeMake (record : Record) (isLocal permission : Bool) (args : List CString) :
    Made table record.modes (record.usermodeMake table isLocal permission args).2 :=
  (made_usermodeParse table record.modes args).sublist (usermodeApply_sublist ..)

end Record

/-- After some of the changes the others are as good as before. -/
theorem Made.of_append {first rest : List Usermodechange}
    (made : Made table modes (first ++ rest)) :
    Made table modes first ∧ Made table (turned modes first) rest := by
  refine ⟨made.sublist (List.sublist_append_left first rest), ?_⟩
  have later := made.sublist (List.sublist_append_right first rest)
  refine { later with turns := ?_ }
  intro umcptr mem bare
  have still : isOn (turned modes first) umcptr.mode = isOn modes umcptr.mode := by
    apply isOn_turned_of_spared (table.valid _ _ (later.known umcptr mem))
    intro other mem'
    refine ⟨table.valid _ _ (made.known other (List.mem_append_left rest mem')), ?_⟩
    intro letters arg
    have differ := (List.pairwise_append.mp made.apart).2.2 other mem' umcptr mem
    simp [sameChange, bare, arg, letters] at differ
  rw [still]
  exact later.turns umcptr mem bare

/-! ## Reading a line -/

/-- The arguments of changes. -/
def changeArgs (changes : List Usermodechange) : List CString :=
  changes.filterMap Usermodechange.arg

/-- Where the changes of the line stand, its letter adds a change. -/
theorem Made.parseChar_letter {done : List Usermodechange}
    (made : Made table modes (done ++ umcptr :: changes)) :
    Usermodes.parseChar table.lookup modes (changeArgs (done ++ umcptr :: changes))
        ⟨(changeArgs done).length, umcptr.change, done⟩ umcptr.mode.character =
      ⟨(changeArgs (done ++ [umcptr])).length, umcptr.change, done ++ [umcptr]⟩ := by
  have member : umcptr ∈ done ++ umcptr :: changes := by simp
  have known := made.known umcptr member
  have valid := table.valid _ _ known
  have plus : umcptr.mode.character ≠ '+' := by
    intro sign
    rw [sign] at valid
    exact absurd valid (by decide)
  have minus : umcptr.mode.character ≠ '-' := by
    intro sign
    rw [sign] at valid
    exact absurd valid (by decide)
  have added : usermodeChangeAdd done umcptr = done ++ [umcptr] := by
    rw [usermodeChangeAdd, List.eraseP_of_forall_not]
    intro other mem
    have apart := (List.pairwise_append.mp made.apart).2.2 other mem umcptr List.mem_cons_self
    exact Bool.not_eq_true _ ▸ apart
  have parsed : umcptr.arg = none →
      Parse.add ⟨(changeArgs done).length, umcptr.change, done⟩ modes umcptr.mode =
        ⟨(changeArgs (done ++ [umcptr])).length, umcptr.change, done ++ [umcptr]⟩ := by
    intro bare
    have change : (⟨umcptr.mode, umcptr.change, none⟩ : Usermodechange) = umcptr := by
      rw [← bare]
    rw [Parse.add, if_neg (made.turns umcptr member bare)]
    dsimp only
    rw [change, added]
    simp [changeArgs, bare]
  unfold Usermodes.parseChar
  rw [if_neg plus, if_neg minus, if_neg (by simp [valid]), known]
  dsimp only
  cases arg : umcptr.arg with
  | none =>
      split
      · exact parsed arg
      · rename_i takes
        have later : changeArgs changes = [] := by
          rw [changeArgs, List.filterMap_eq_nil_iff]
          intro other mem
          have rest := (List.pairwise_append.mp made.last).2.1
          exact (List.pairwise_cons.mp rest).1 other mem arg takes
        have out : (changeArgs (done ++ umcptr :: changes))[(changeArgs done).length]? = none := by
          have same : changeArgs (done ++ umcptr :: changes) = changeArgs done := by
            have front : changeArgs (done ++ umcptr :: changes) =
                changeArgs done ++ changeArgs changes := by simp [changeArgs, arg]
            rw [front, later, List.append_nil]
          rw [same, List.getElem?_eq_none_iff]
        rw [out]
        dsimp only
        rw [if_neg (made.spared umcptr member arg takes)]
        exact parsed arg
  | some text =>
      have given : umcptr.arg ≠ none := by simp [arg]
      have next : (changeArgs (done ++ umcptr :: changes))[(changeArgs done).length]? =
          some text := by
        simp [changeArgs, arg]
      have change : (⟨umcptr.mode, umcptr.change, some text⟩ : Usermodechange) = umcptr := by
        rw [← arg]
      rw [if_neg (made.taken umcptr member given), next]
      dsimp only
      rw [change, added]
      simp [changeArgs, arg]

/-- The signs and letters of a line give its changes. -/
theorem Made.foldl_umcbuf {done : List Usermodechange} (made : Made table modes (done ++ changes))
    (sign : Option Bool) (change : Bool) (signed : ∀ given ∈ sign, change = given) :
    ∃ change', (umcbuf sign changes).foldl
        (Usermodes.parseChar table.lookup modes (changeArgs (done ++ changes)))
        ⟨(changeArgs done).length, change, done⟩ =
      ⟨(changeArgs (done ++ changes)).length, change', done ++ changes⟩ := by
  induction changes generalizing done sign change with
  | nil => exact ⟨change, by simp [umcbuf]⟩
  | cons umcptr changes induction =>
      have step := made.parseChar_letter
      have split : done ++ umcptr :: changes = (done ++ [umcptr]) ++ changes := by simp
      have rest := @induction (done ++ [umcptr]) (split ▸ made) (some umcptr.change)
        umcptr.change fun given same => Option.some.inj same
      rw [← split] at rest
      obtain ⟨change', rest⟩ := rest
      refine ⟨change', ?_⟩
      unfold umcbuf
      split
      · rename_i same
        rw [signed _ same, List.foldl_cons, step, rest]
      · rw [List.foldl_cons, List.foldl_cons]
        have read : Usermodes.parseChar table.lookup modes
            (changeArgs (done ++ umcptr :: changes)) ⟨(changeArgs done).length, change, done⟩
            (if umcptr.change then '+' else '-') =
              ⟨(changeArgs done).length, umcptr.change, done⟩ := by
          cases umcptr.change <;> rfl
        rw [read, step, rest]

theorem parseArgs_of_used (args : List CString) (parse : Parse)
    (used : parse.skip = args.length) :
    (parseArgs table.lookup modes args parse).changes = parse.changes := by
  induction args generalizing parse with
  | nil => rfl
  | cons arg rest induction =>
      obtain ⟨skip, change, changes⟩ := parse
      rw [List.length_cons] at used
      dsimp only at used
      subst used
      exact induction ⟨rest.length, change, changes⟩ rfl

/-- A server that reads signs, letters and arguments of a line has its changes. -/
theorem Made.usermodeParse_line (made : Made table modes changes) :
    usermodeParse table.lookup modes (umcbuf none changes :: changeArgs changes) = changes := by
  obtain ⟨change', parsed⟩ := @Made.foldl_umcbuf table modes changes [] made none true
    (fun _ same => nomatch same)
  unfold usermodeParse
  rw [Usermodes.parseArgs]
  dsimp only
  exact (congrArg (fun parse => (Usermodes.parseArgs table.lookup modes (changeArgs changes) parse).changes)
    parsed).trans (parseArgs_of_used _ _ rfl)

/-- What stands before the arguments. -/
theorem mem_umcbuf {sign : Option Bool} {c : Char}
    (valid : ∀ umcptr ∈ changes, usermodeValid umcptr.mode.character = true)
    (mem : c ∈ umcbuf sign changes) : c = '+' ∨ c = '-' ∨ usermodeValid c = true := by
  induction changes generalizing sign with
  | nil => simp [umcbuf] at mem
  | cons umcptr changes induction =>
      have rest := @induction (some umcptr.change) fun other mem =>
        valid other (List.mem_cons_of_mem _ mem)
      have letter := valid umcptr List.mem_cons_self
      unfold umcbuf at mem
      split at mem
      · rcases List.mem_cons.mp mem with rfl | mem
        · exact .inr (.inr letter)
        · exact rest mem
      · rcases List.mem_cons.mp mem with rfl | mem
        · cases umcptr.change <;> simp
        · rcases List.mem_cons.mp mem with rfl | mem
          · exact .inr (.inr letter)
          · exact rest mem

theorem strIsspace_of_umcbuf {c : Char} (letter : c = '+' ∨ c = '-' ∨ usermodeValid c = true) :
    strIsspace c = false := by
  rcases letter with rfl | rfl | valid
  · rfl
  · rfl
  · by_contra blank
    simp only [strIsspace, Bool.not_eq_false, Bool.or_eq_true, beq_iff_eq] at blank
    rcases blank with ((rfl | rfl) | rfl) | rfl <;> exact absurd valid (by decide)

theorem Made.valid (made : Made table modes changes) :
    ∀ umcptr ∈ changes, usermodeValid umcptr.mode.character = true :=
  fun umcptr mem => table.valid _ _ (made.known umcptr mem)

theorem Made.plainWord_umcbuf (made : Made table modes changes) (some_change : changes ≠ []) :
    PlainWord (umcbuf none changes) := by
  refine ⟨?_, fun c mem => strIsspace_of_umcbuf (mem_umcbuf made.valid mem), ?_⟩
  · cases changes with
    | nil => exact absurd rfl some_change
    | cons umcptr changes => simp [umcbuf]
  · cases changes with
    | nil => simp [umcbuf]
    | cons umcptr changes => cases change : umcptr.change <;> simp [umcbuf, change]

theorem lineText_eq_intercalate (changes : List Usermodechange) :
    lineText changes = List.intercalate [' '] (umcbuf none changes :: changeArgs changes) := by
  have args : ∀ word : CString,
      word ++ umcargs changes = List.intercalate [' '] (word :: changeArgs changes) := by
    induction changes with
    | nil => simp [umcargs, changeArgs]
    | cons umcptr changes induction =>
        intro word
        cases arg : umcptr.arg with
        | none => simpa [umcargs, changeArgs, arg] using induction word
        | some text =>
            have rest := induction text
            simp only [umcargs, changeArgs] at rest
            simp [umcargs, changeArgs, arg, List.intercalate_cons_cons, ← rest]
  exact args _

/-- A line whose arguments are words is taken apart as it was put together. -/
theorem Made.strTokenize_lineText (made : Made table modes changes) (some_change : changes ≠ [])
    (plain : ∀ arg ∈ changeArgs changes, PlainWord arg) (short : changes.length ≤ 8) :
    strTokenize 253 (lineText changes) = umcbuf none changes :: changeArgs changes := by
  rw [lineText_eq_intercalate]
  apply strTokenize_intercalate
  · intro word mem
    rcases List.mem_cons.mp mem with rfl | mem
    · exact made.plainWord_umcbuf some_change
    · exact plain word mem
  · have few : (changeArgs changes).length ≤ changes.length := List.length_filterMap_le _ _
    rw [List.length_cons]
    omega

/-! ## All the lines -/

/-- The lines have all the changes, those in the buffers first. -/
theorem flatten_usermodeChangeSend (buffered changes : List Usermodechange)
    (some_change : changes ≠ [] ∨ buffered = []) :
    (usermodeChangeSend buffered changes).flatten = buffered ++ changes := by
  induction changes generalizing buffered with
  | nil =>
      rcases some_change with wrong | rfl
      · exact absurd rfl wrong
      · rfl
  | cons umcptr changes induction =>
      unfold usermodeChangeSend
      split
      · rw [List.flatten_cons, induction [] (.inr rfl)]
        simp
      · rename_i room
        rw [induction _ (.inl fun out => room (.inr out))]
        simp

theorem length_of_mem_usermodeChangeSend {buffered changes line : List Usermodechange}
    (room : buffered.length < usermodePerlineRemote)
    (mem : line ∈ usermodeChangeSend buffered changes) :
    line ≠ [] ∧ line.length ≤ usermodePerlineRemote := by
  induction changes generalizing buffered with
  | nil => cases mem
  | cons umcptr changes induction =>
      unfold usermodeChangeSend at mem
      split at mem
      · rcases List.mem_cons.mp mem with rfl | mem
        · refine ⟨by simp, ?_⟩
          rw [List.length_append, List.length_singleton]
          exact room
        · exact induction (by decide) mem
      · rename_i more
        refine induction ?_ mem
        rw [List.length_append, List.length_singleton]
        omega

namespace Record

/-- The changes of a line that is whole and has words for arguments. -/
theorem msUmode_eq (record : Record) (made : Made table record.modes changes)
    (some_change : changes ≠ []) (plain : ∀ arg ∈ changeArgs changes, PlainWord arg)
    (short : changes.length ≤ 8) :
    record.msUmode table (lineText changes) =
      (⟨turned record.modes changes, record.oper⟩, changes) := by
  rw [msUmode, made.strTokenize_lineText some_change plain short, usermodeMake,
    made.usermodeParse_line, usermodeApply_elsewhere]

/-- The changes of all lines, when each of them travels. -/
theorem receive_eq (source : CString) (record : Record) (lines : List (List Usermodechange))
    (made : Made table record.modes lines.flatten)
    (short : ∀ line ∈ lines, line ≠ [] ∧ line.length ≤ usermodePerlineRemote)
    (plain : ∀ line ∈ lines, ∀ arg ∈ changeArgs line, PlainWord arg)
    (whole : ∀ line ∈ lines, (lineText line).length ≤ lineRoom source) :
    record.receive table source lines =
      (⟨turned record.modes lines.flatten, record.oper⟩, lines.flatten) := by
  induction lines generalizing record with
  | nil => rfl
  | cons line lines induction =>
      have here : line ∈ line :: lines := List.mem_cons_self
      rw [List.flatten_cons] at made ⊢
      obtain ⟨first, rest⟩ := made.of_append
      have read := record.msUmode_eq first (short line here).1 (plain line here)
        (short line here).2
      have others := induction ⟨turned record.modes line, record.oper⟩ rest
        (fun line mem => short line (List.mem_cons_of_mem _ mem))
        (fun line mem => plain line (List.mem_cons_of_mem _ mem))
        fun line mem => whole line (List.mem_cons_of_mem _ mem)
      rw [receive, List.take_of_length_le (whole line here), read]
      dsimp only
      rw [others]
      simp [turned, List.foldl_append]

/-- Changes that travel arrive. -/
theorem Travels.agrees {home : Record} {source : CString} {permission : Bool}
    {args : List CString} (travels : home.Travels table source permission args) :
    home.Agrees table source permission args := by
  obtain ⟨plain, whole⟩ := travels
  have made := @made_usermodeMake table home true permission args
  have turns : (home.usermodeMake table true permission args).1.modes =
      turned home.modes (home.usermodeMake table true permission args).2 :=
    home.usermodeApply_modes true permission _
  intro remote same
  dsimp only
  rw [turns]
  generalize (home.usermodeMake table true permission args).2 = changes at *
  have sent : (usermodeChangeSend [] changes).flatten = changes :=
    flatten_usermodeChangeSend [] changes (.inr rfl)
  have words : ∀ line ∈ usermodeChangeSend [] changes, ∀ arg ∈ changeArgs line,
      PlainWord arg := by
    intro line mem arg given
    obtain ⟨umcptr, mem', has⟩ := List.mem_filterMap.mp given
    have member : umcptr ∈ (usermodeChangeSend [] changes).flatten :=
      List.mem_flatten_of_mem mem mem'
    rw [sent] at member
    exact plain umcptr member arg has
  have received := receive_eq source remote (usermodeChangeSend [] changes)
    (by rw [sent, same]; exact made)
    (fun line mem => length_of_mem_usermodeChangeSend (by decide) mem) words whole
  rw [received, sent, same]
  exact ⟨rfl, rfl⟩

end Record

end Usermodes

end Chaosircd
