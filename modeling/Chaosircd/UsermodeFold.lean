import Chaosircd.UsermodeRelay
import Mathlib.Data.List.Find

/-!
# A user mode string as a fold

Flag by flag a mode string would turn each mode the way its last flag says.  The parser
collects the changes first, leaves out a flag for what the user has already, and lets a
later flag of a mode stand in for an earlier one only when it is itself put on record.  So
a flag that takes an earlier one back is lost, and a flag with an argument is passed on
without turning anything.
-/

namespace Chaosircd

namespace Usermodes

/-! ## The flags of a string -/

/-- One character, as `usermode_parse` reads it, with each flag put on record. -/
def readFlag (table : Char → Option Usermode) (rest : List CString) (parse : Parse)
    (c : Char) : Parse :=
  if c = '+' then { parse with change := true }
  else if c = '-' then { parse with change := false }
  else if !usermodeValid c then parse
  else
    match table c with
    | none => parse
    | some umptr =>
      if umptr.arg &&& argEnable = 0 then
        { parse with changes := parse.changes ++ [⟨umptr, parse.change, none⟩] }
      else
        match rest[parse.skip]? with
        | some changearg =>
          { parse with
            skip := parse.skip + 1
            changes := parse.changes ++ [⟨umptr, parse.change, some changearg⟩] }
        | none =>
          if umptr.arg &&& argEmpty = 0 then parse
          else { parse with changes := parse.changes ++ [⟨umptr, parse.change, none⟩] }

/-- The words of a string, less those that are arguments. -/
def readFlags (table : Char → Option Usermode) : List CString → Parse → Parse
  | [], parse => parse
  | arg :: rest, parse =>
    match parse.skip with
    | skip + 1 => readFlags table rest { parse with skip := skip }
    | 0 => readFlags table rest (arg.foldl (readFlag table rest) parse)

/-- The flags of a mode string in order, each with its sign and its argument. -/
def flagsOf (table : Char → Option Usermode) (args : List CString) : List Usermodechange :=
  (readFlags table args ⟨0, true, []⟩).changes

/-- Sets or clears the mode of a flag. -/
def Usermodechange.flip (flag : Usermodechange) (modes : BitVec 64) : BitVec 64 :=
  if flag.change then modes ||| flag.mode.flag else modes &&& ~~~flag.mode.flag

/-- The modes after each flag in order. -/
def folded (modes : BitVec 64) (flags : List Usermodechange) : BitVec 64 :=
  flags.foldl (fun modes flag => flag.flip modes) modes

/-! ## The broadcast -/

/-- The letters of a line, each with the sign that it stands behind. -/
def signed : Bool → CString → List (Char × Bool)
  | _, [] => []
  | change, c :: text =>
    if c = '+' then signed true text
    else if c = '-' then signed false text
    else (c, change) :: signed change text

/-- What the lines say that go to the servers. -/
def broadcast (changes : List Usermodechange) : List (Char × Bool) :=
  (usermodeChangeSend [] changes).flatMap fun line => signed true (umcbuf none line)

/-- The lines tell the difference between two sets of modes: each letter is that of a mode
that was not and is now as its sign says, each mode that differs is there, and no letter
stands twice. -/
structure Describes (table : ModeTable) (before after : BitVec 64)
    (said : List (Char × Bool)) : Prop where
  real : ∀ entry ∈ said, ∃ umptr, table.lookup entry.1 = some umptr ∧
    isOn before umptr = !entry.2 ∧ isOn after umptr = entry.2
  whole : ∀ c umptr, table.lookup c = some umptr → isOn before umptr ≠ isOn after umptr →
    (c, isOn after umptr) ∈ said
  once : (said.map Prod.fst).Nodup

/-- A flag is for what the user does not have. -/
def Flips (modes : BitVec 64) (flag : Usermodechange) : Prop :=
  isOn modes flag.mode ≠ flag.change

instance (modes : BitVec 64) (flag : Usermodechange) : Decidable (Flips modes flag) :=
  inferInstanceAs (Decidable (_ ≠ _))

/-- The last of the flags with this letter. -/
def lastFlag (flags : List Usermodechange) (c : Char) : Option Usermodechange :=
  flags.reverse.find? fun flag => flag.mode.character = c

/-- No flag has an argument; and where a flag is for what the user does not have, so is the
last flag of that mode. -/
def LastFlips (modes : BitVec 64) (flags : List Usermodechange) : Prop :=
  (∀ flag ∈ flags, flag.arg = none) ∧
    ∀ flag ∈ flags, Flips modes flag →
      ∀ last ∈ lastFlag flags flag.mode.character, Flips modes last

instance (modes : BitVec 64) (flags : List Usermodechange) : Decidable (LastFlips modes flags) :=
  inferInstanceAs (Decidable (_ ∧ _))

/-- After the string the modes are those of its fold, and the lines tell the difference. -/
structure Folds (table : ModeTable) (before : BitVec 64) (flags : List Usermodechange)
    (after : Record × List Usermodechange) : Prop where
  modes : after.1.modes = folded before flags
  describes : Describes table before after.1.modes (broadcast after.2)

variable {table : ModeTable} {modes : BitVec 64} {flags changes : List Usermodechange}
  {flag umcptr : Usermodechange}

/-! ## The parser, flag by flag -/

/-- What the parser does with a flag. -/
def note (modes : BitVec 64) (changes : List Usermodechange) (flag : Usermodechange) :
    List Usermodechange :=
  if flag.arg = none ∧ isOn modes flag.mode = flag.change then changes
  else usermodeChangeAdd changes flag

/-- The changes that the parser puts on record for these flags. -/
def noted (modes : BitVec 64) (flags : List Usermodechange) : List Usermodechange :=
  flags.foldl (note modes) []

/-- The parser stands where the flags have been read, and has their changes. -/
structure Follows (modes : BitVec 64) (parse reading : Parse) : Prop where
  skip : parse.skip = reading.skip
  change : parse.change = reading.change
  changes : parse.changes = noted modes reading.changes

theorem noted_append (flag : Usermodechange) :
    noted modes (flags ++ [flag]) = note modes (noted modes flags) flag := by
  simp [noted]

theorem Follows.add {parse reading : Parse} {umptr : Usermode}
    (follows : Follows modes parse reading) :
    Follows modes (parse.add modes umptr)
      { reading with changes := reading.changes ++ [⟨umptr, reading.change, none⟩] } := by
  unfold Parse.add
  split
  · rename_i same
    refine ⟨follows.skip, follows.change, ?_⟩
    rw [noted_append, note, if_pos ⟨rfl, follows.change ▸ same⟩]
    exact follows.changes
  · rename_i differ
    refine ⟨follows.skip, follows.change, ?_⟩
    rw [noted_append, note, if_neg fun same => differ (follows.change ▸ same.2)]
    simp only [follows.changes, follows.change]

theorem Follows.parseChar {parse reading : Parse} (follows : Follows modes parse reading)
    (lookup : Char → Option Usermode) (rest : List CString) (c : Char) :
    Follows modes (parseChar lookup modes rest parse c) (readFlag lookup rest reading c) := by
  unfold Usermodes.parseChar readFlag
  split
  · exact ⟨follows.skip, rfl, follows.changes⟩
  · split
    · exact ⟨follows.skip, rfl, follows.changes⟩
    · split
      · exact follows
      · cases lookup c with
        | none => exact follows
        | some umptr =>
            dsimp only
            split
            · exact follows.add
            · rw [follows.skip]
              cases rest[reading.skip]? with
              | some changearg =>
                  refine ⟨rfl, follows.change, ?_⟩
                  have given : ¬ (some changearg = none ∧ isOn modes umptr = reading.change) :=
                    fun bare => Option.some_ne_none changearg bare.1
                  rw [noted_append, note, if_neg given]
                  simp only [follows.changes, follows.change]
              | none =>
                  dsimp only
                  split
                  · exact follows
                  · exact follows.add

theorem Follows.parseWord {parse reading : Parse} (follows : Follows modes parse reading)
    (lookup : Char → Option Usermode) (rest : List CString) (word : CString) :
    Follows modes (word.foldl (Usermodes.parseChar lookup modes rest) parse)
      (word.foldl (readFlag lookup rest) reading) := by
  induction word generalizing parse reading with
  | nil => exact follows
  | cons c word induction => exact induction (follows.parseChar lookup rest c)

theorem Follows.parseArgs {parse reading : Parse} (follows : Follows modes parse reading)
    (lookup : Char → Option Usermode) (args : List CString) :
    Follows modes (parseArgs lookup modes args parse) (readFlags lookup args reading) := by
  induction args generalizing parse reading with
  | nil => exact follows
  | cons arg rest induction =>
      rw [Usermodes.parseArgs, readFlags, follows.skip]
      cases reading.skip with
      | zero => exact induction (follows.parseWord lookup rest arg)
      | succ skip => exact induction ⟨rfl, follows.change, follows.changes⟩

/-- The parser goes through the flags. -/
theorem usermodeParse_eq_noted (lookup : Char → Option Usermode) (modes : BitVec 64)
    (args : List CString) :
    usermodeParse lookup modes args = noted modes (flagsOf lookup args) :=
  (Follows.parseArgs ⟨rfl, rfl, rfl⟩ lookup args).changes

/-! ## Flags are known -/

/-- The modes of the flags are those of the table. -/
def Known (table : ModeTable) (flags : List Usermodechange) : Prop :=
  ∀ flag ∈ flags, table.lookup flag.mode.character = some flag.mode

theorem Known.append (known : Known table flags)
    (new : table.lookup flag.mode.character = some flag.mode) :
    Known table (flags ++ [flag]) := by
  intro other member
  rw [List.mem_append, List.mem_singleton] at member
  cases member with
  | inl old => exact known other old
  | inr isNew => rw [isNew]; exact new

theorem Known.valid (known : Known table flags) (member : flag ∈ flags) :
    usermodeValid flag.mode.character = true :=
  table.valid _ _ (known flag member)

theorem known_readFlag {reading : Parse} (known : Known table reading.changes)
    (rest : List CString) (c : Char) :
    Known table (readFlag table.lookup rest reading c).changes := by
  unfold readFlag
  split
  · exact known
  · split
    · exact known
    · split
      · exact known
      · cases found : table.lookup c with
        | none => exact known
        | some umptr =>
            have named : table.lookup umptr.character = some umptr :=
              table.letter c umptr found ▸ found
            dsimp only
            split
            · exact known.append named
            · cases rest[reading.skip]? with
              | some changearg => exact known.append named
              | none =>
                  dsimp only
                  split
                  · exact known
                  · exact known.append named

theorem known_readWord {reading : Parse} (known : Known table reading.changes)
    (rest : List CString) (word : CString) :
    Known table (word.foldl (readFlag table.lookup rest) reading).changes := by
  induction word generalizing reading with
  | nil => exact known
  | cons c word induction => exact induction (known_readFlag known rest c)

theorem known_readFlags {reading : Parse} (known : Known table reading.changes)
    (args : List CString) : Known table (readFlags table.lookup args reading).changes := by
  induction args generalizing reading with
  | nil => exact known
  | cons arg rest induction =>
      rw [readFlags]
      split
      · exact induction known
      · exact induction (known_readWord known rest arg)

theorem known_flagsOf (table : ModeTable) (args : List CString) :
    Known table (flagsOf table.lookup args) :=
  known_readFlags (fun _ member => absurd member List.not_mem_nil) args

/-! ## What is on record -/

theorem mem_noted (member : umcptr ∈ noted modes flags) :
    umcptr ∈ flags ∧ (umcptr.arg = none → Flips modes umcptr) := by
  induction flags using List.reverseRecOn with
  | nil => exact absurd member List.not_mem_nil
  | append_singleton flags flag induction =>
      have old : umcptr ∈ noted modes flags →
          umcptr ∈ flags ++ [flag] ∧ (umcptr.arg = none → Flips modes umcptr) :=
        fun member => ⟨List.mem_append_left _ (induction member).1, (induction member).2⟩
      rw [noted_append, note] at member
      split at member
      · exact old member
      · rename_i differ
        rcases List.mem_append.mp member with member | member
        · exact old (List.mem_of_mem_eraseP member)
        · rw [List.mem_singleton.mp member]
          exact ⟨List.mem_append_right _ (List.mem_singleton_self _),
            fun bare same => differ ⟨bare, same⟩⟩

theorem sameChange_self (flag : Usermodechange) : sameChange flag flag = true := by
  obtain ⟨mode, change, arg⟩ := flag
  cases arg with
  | none => simp [sameChange]
  | some arg => simp [sameChange, IcmpEq]

theorem sameChange_trans {first second third : Usermodechange}
    (same : sameChange first second = true) (same' : sameChange third second = true) :
    sameChange first third = true :=
  sameChange_of_both (sameChange_of_both (sameChange_self third) same')
    (sameChange_of_both (sameChange_self first) same)

/-- A flag that is put on record stays there, or one for the same comes in its place. -/
theorem exists_noted (member : flag ∈ flags) (counts : flag.arg = none → Flips modes flag) :
    ∃ umcptr ∈ noted modes flags, sameChange flag umcptr = true := by
  induction flags using List.reverseRecOn with
  | nil => exact absurd member List.not_mem_nil
  | append_singleton flags last induction =>
      rw [noted_append, note]
      rcases List.mem_append.mp member with old | isLast
      · obtain ⟨umcptr, listed, same⟩ := induction old
        split
        · exact ⟨umcptr, listed, same⟩
        · by_cases replaced : sameChange last umcptr = true
          · exact ⟨last, by simp [usermodeChangeAdd], sameChange_trans same replaced⟩
          · refine ⟨umcptr, List.mem_append_left _ ?_, same⟩
            exact (List.mem_eraseP_of_neg replaced).mpr listed
      · rw [List.mem_singleton] at isLast
        subst isLast
        rw [if_neg fun skipped => counts skipped.1 skipped.2]
        exact ⟨flag, by simp [usermodeChangeAdd], sameChange_self flag⟩

/-! ## Bits -/

theorem getLsbD_flip (flag : Usermodechange) (modes : BitVec 64) {i : Nat} (below : i < 64) :
    (flag.flip modes).getLsbD i =
      if tableIndex flag.mode.character = i then flag.change else modes.getLsbD i := by
  rw [Usermodechange.flip, Usermode.flag]
  by_cases here : tableIndex flag.mode.character = i
  · cases flag.change <;> simp [here, below]
  · have apart : ¬ i = tableIndex flag.mode.character := fun same => here same.symm
    cases flag.change <;> simp [here, apart, below]

/-- The last flag decides. -/
theorem getLsbD_folded (valid : ∀ flag ∈ flags, usermodeValid flag.mode.character = true)
    {i : Nat} (below : i < 64) :
    (folded modes flags).getLsbD i =
      match flags.reverse.find? fun flag => tableIndex flag.mode.character = i with
      | none => modes.getLsbD i
      | some flag => flag.change := by
  induction flags using List.reverseRecOn with
  | nil => rfl
  | append_singleton flags last induction =>
      have before := induction fun flag member => valid flag (List.mem_append_left _ member)
      rw [folded, List.foldl_append, List.foldl_cons, List.foldl_nil,
        getLsbD_flip last _ below, List.reverse_append]
      by_cases here : tableIndex last.mode.character = i
      · simp [here]
      · rw [if_neg here]
        simpa [here, folded] using before

theorem mem_of_find? {p : Usermodechange → Prop} [DecidablePred p]
    (found : (flags.reverse.find? fun flag => p flag) = some flag) : flag ∈ flags ∧ p flag :=
  ⟨List.mem_reverse.mp (List.mem_of_find?_eq_some found),
    by simpa using List.find?_some found⟩

theorem lastFlag_eq_some {c : Char} (found : lastFlag flags c = some flag) :
    flag ∈ flags ∧ flag.mode.character = c :=
  mem_of_find? found

theorem lastFlag_isSome (member : flag ∈ flags) :
    ∃ last, lastFlag flags flag.mode.character = some last := by
  rw [← Option.isSome_iff_exists, lastFlag, List.find?_isSome]
  exact ⟨flag, List.mem_reverse.mpr member, decide_eq_true rfl⟩

/-- The mode of a letter is the way its last flag says. -/
theorem isOn_folded (known : Known table flags) {c : Char} {umptr : Usermode}
    (found : table.lookup c = some umptr) :
    isOn (folded modes flags) umptr =
      match lastFlag flags c with
      | none => isOn modes umptr
      | some flag => flag.change := by
  have letter := table.letter c umptr found
  have valid := letter ▸ table.valid c umptr found
  have same : (flags.reverse.find? fun flag =>
      tableIndex flag.mode.character = tableIndex umptr.character) = lastFlag flags c := by
    rw [lastFlag]
    apply List.find?_congr
    intro flag member
    have valid' := known.valid (List.mem_reverse.mp member)
    rw [decide_eq_decide, ← letter]
    exact ⟨tableIndex_inj valid' valid, fun same => congrArg tableIndex same⟩
  rw [isOn_eq_getLsbD valid, isOn_eq_getLsbD valid,
    getLsbD_folded (fun flag member => known.valid member) (tableIndex_lt valid), same]

theorem folded_eq_of_isOn {flags' : List Usermodechange} (known : Known table flags)
    (known' : Known table flags')
    (same : ∀ c umptr, table.lookup c = some umptr →
      isOn (folded modes flags) umptr = isOn (folded modes flags') umptr) :
    folded modes flags = folded modes flags' := by
  apply BitVec.eq_of_getLsbD_eq
  intro i below
  have here : ∀ flag : Usermodechange, table.lookup flag.mode.character = some flag.mode →
      tableIndex flag.mode.character = i →
      (folded modes flags).getLsbD i = (folded modes flags').getLsbD i := by
    intro flag found index
    have valid := table.valid _ _ found
    rw [← index, ← isOn_eq_getLsbD valid, ← isOn_eq_getLsbD valid]
    exact same _ _ found
  have valid : ∀ flag ∈ flags, usermodeValid flag.mode.character = true :=
    fun _ member => known.valid member
  have valid' : ∀ flag ∈ flags', usermodeValid flag.mode.character = true :=
    fun _ member => known'.valid member
  cases found : flags.reverse.find? fun flag => tableIndex flag.mode.character = i with
  | some flag =>
      obtain ⟨member, index⟩ := mem_of_find? found
      exact here flag (known flag member) index
  | none =>
      cases found' : flags'.reverse.find? fun flag => tableIndex flag.mode.character = i with
      | some flag =>
          obtain ⟨member, index⟩ := mem_of_find? found'
          exact here flag (known' flag member) index
      | none => rw [getLsbD_folded valid below, getLsbD_folded valid' below, found, found']

/-! ## The lines -/

theorem signed_umcbuf (valid : ∀ umcptr ∈ changes, usermodeValid umcptr.mode.character = true)
    {sign : Option Bool} {change : Bool} (agree : sign = none ∨ sign = some change) :
    signed change (umcbuf sign changes) =
      changes.map fun umcptr => (umcptr.mode.character, umcptr.change) := by
  induction changes generalizing sign change with
  | nil => rfl
  | cons umcptr changes induction =>
      rw [List.forall_mem_cons] at valid
      have letter : ∀ change, signed change (umcptr.mode.character ::
          umcbuf (some umcptr.change) changes) = (umcptr.mode.character, change) ::
            signed change (umcbuf (some umcptr.change) changes) := by
        intro change
        have plus : umcptr.mode.character ≠ '+' := fun same => by
          rw [same] at valid
          exact absurd valid.1 (by decide)
        have minus : umcptr.mode.character ≠ '-' := fun same => by
          rw [same] at valid
          exact absurd valid.1 (by decide)
        rw [signed, if_neg plus, if_neg minus]
      have later := induction valid.2 (.inr (rfl : some umcptr.change = some umcptr.change))
      rw [umcbuf, List.map_cons]
      split
      · rename_i same
        have signs : change = umcptr.change := by
          rcases agree with none | some
          · rw [none] at same
            cases same
          · exact Option.some_inj.mp (some.symm.trans same)
        rw [letter, signs, later]
      · cases turn : umcptr.change with
        | true =>
            rw [turn] at letter later
            rw [if_pos rfl, signed, if_pos rfl, letter, later]
        | false =>
            rw [turn] at letter later
            rw [if_neg Bool.false_ne_true, signed, if_neg (by decide), if_pos rfl, letter, later]

/-- The lines say all the changes, in order. -/
theorem broadcast_eq
    (valid : ∀ umcptr ∈ changes, usermodeValid umcptr.mode.character = true) :
    broadcast changes = changes.map fun umcptr => (umcptr.mode.character, umcptr.change) := by
  have whole := flatten_usermodeChangeSend [] changes (.inr rfl)
  rw [List.nil_append] at whole
  have each : ∀ line ∈ usermodeChangeSend [] changes, signed true (umcbuf none line) =
      line.map fun umcptr => (umcptr.mode.character, umcptr.change) := by
    intro line member
    apply signed_umcbuf _ (.inl rfl)
    intro umcptr member'
    exact valid umcptr (whole ▸ List.mem_flatten.mpr ⟨line, member, member'⟩)
  rw [broadcast, List.flatMap_congr each, List.flatMap_def, ← List.map_flatten, whole]

/-! ## What becomes of the modes -/

theorem turned_eq_folded (bare : ∀ umcptr ∈ changes, umcptr.arg = none) (modes : BitVec 64) :
    turned modes changes = folded modes changes := by
  induction changes generalizing modes with
  | nil => rfl
  | cons umcptr changes induction =>
      rw [List.forall_mem_cons] at bare
      have turn : umcptr.turn modes = umcptr.flip modes := if_pos bare.1
      rw [turned, List.foldl_cons, turn, folded, List.foldl_cons]
      exact induction bare.2 _

/-- Without arguments a mode is turned when one of its flags is for what the user does not
have. -/
theorem isOn_folded_noted (known : Known table flags) (bare : ∀ flag ∈ flags, flag.arg = none)
    {c : Char} {umptr : Usermode} (found : table.lookup c = some umptr) :
    ((∃ flag ∈ flags, flag.mode.character = c ∧ Flips modes flag) →
      isOn (folded modes (noted modes flags)) umptr = !isOn modes umptr) ∧
    ((∀ flag ∈ flags, flag.mode.character = c → ¬ Flips modes flag) →
      isOn (folded modes (noted modes flags)) umptr = isOn modes umptr) := by
  have knownNoted : Known table (noted modes flags) :=
    fun umcptr member => known umcptr (mem_noted member).1
  rw [isOn_folded knownNoted found]
  have flipping : ∀ umcptr, lastFlag (noted modes flags) c = some umcptr →
      umcptr ∈ flags ∧ umcptr.mode.character = c ∧ Flips modes umcptr := by
    intro umcptr last
    obtain ⟨member, letter⟩ := lastFlag_eq_some last
    obtain ⟨member, flips⟩ := mem_noted member
    exact ⟨member, letter, flips (bare umcptr member)⟩
  constructor
  · rintro ⟨flag, member, letter, flips⟩
    obtain ⟨umcptr, listed, same⟩ := exists_noted member fun _ => flips
    obtain ⟨last, isLast⟩ := lastFlag_isSome listed
    have letters : flag.mode.character = umcptr.mode.character := by
      simp only [sameChange, Bool.and_eq_true, decide_eq_true_eq] at same
      exact same.1
    rw [← letters, letter] at isLast
    obtain ⟨member', letter', flips'⟩ := flipping last isLast
    have mode : last.mode = umptr :=
      Option.some_inj.mp ((known last member').symm.trans (letter' ▸ found))
    rw [isLast]
    rw [Flips, mode] at flips'
    exact (Bool.eq_not.mpr flips'.symm)
  · intro none_flips
    cases isLast : lastFlag (noted modes flags) c with
    | none => rfl
    | some last =>
        obtain ⟨member, letter, flips⟩ := flipping last isLast
        exact absurd flips (none_flips last member letter)

/-- Each mode stands on record once when there are no arguments. -/
theorem nodup_noted (made : Made table modes changes)
    (bare : ∀ umcptr ∈ changes, umcptr.arg = none) :
    (changes.map fun umcptr => umcptr.mode.character).Nodup := by
  rw [List.Nodup, List.pairwise_map]
  refine made.apart.imp_of_mem ?_
  intro umcptr other member member' differ same
  simp [sameChange, bare umcptr member, bare other member', same] at differ

/-! ## The condition -/

theorem broadcast_noted (known : Known table flags) :
    broadcast (noted modes flags) =
      (noted modes flags).map fun umcptr => (umcptr.mode.character, umcptr.change) :=
  broadcast_eq fun _ member => known.valid (mem_noted member).1

theorem describes_noted (known : Known table flags) (made : Made table modes (noted modes flags))
    (bare : ∀ flag ∈ flags, flag.arg = none) :
    Describes table modes (folded modes (noted modes flags)) (broadcast (noted modes flags)) := by
  rw [broadcast_noted known]
  constructor
  · intro entry member
    obtain ⟨umcptr, listed, rfl⟩ := List.mem_map.mp member
    obtain ⟨member', flips⟩ := mem_noted listed
    have flips := flips (bare umcptr member')
    have found := known umcptr member'
    have before : isOn modes umcptr.mode = !umcptr.change := Bool.eq_not.mpr flips
    refine ⟨umcptr.mode, found, before, ?_⟩
    rw [(isOn_folded_noted known bare found).1 ⟨umcptr, member', rfl, flips⟩, before,
      Bool.not_not]
  · intro c umptr found differ
    have turned : ∃ flag ∈ flags, flag.mode.character = c ∧ Flips modes flag := by
      by_contra none_flips
      apply differ
      rw [(isOn_folded_noted known bare found).2]
      intro flag member letter flips
      exact none_flips ⟨flag, member, letter, flips⟩
    rw [(isOn_folded_noted known bare found).1 turned]
    obtain ⟨flag, member, letter, flips⟩ := turned
    obtain ⟨umcptr, listed, same⟩ := exists_noted member fun _ => flips
    obtain ⟨member', flips'⟩ := mem_noted listed
    have flips' := flips' (bare umcptr member')
    have letters : umcptr.mode.character = c := by
      simp only [sameChange, Bool.and_eq_true, decide_eq_true_eq] at same
      exact same.1.symm.trans letter
    have mode : umcptr.mode = umptr :=
      Option.some_inj.mp ((known umcptr member').symm.trans (letters ▸ found))
    rw [Flips, mode] at flips'
    refine List.mem_map.mpr ⟨umcptr, listed, ?_⟩
    rw [letters, Bool.eq_not.mpr flips', Bool.not_not]
  · rw [List.map_map]
    exact nodup_noted made fun umcptr member => bare umcptr (mem_noted member).1

/-- A change with an argument says what is not so. -/
theorem bare_of_describes (known : Known table flags)
    (describes : Describes table modes (turned modes (noted modes flags))
      (broadcast (noted modes flags))) :
    ∀ flag ∈ flags, flag.arg = none := by
  intro flag member
  by_contra given
  have knownNoted : Known table (noted modes flags) :=
    fun umcptr member => known umcptr (mem_noted member).1
  have changes : flag.arg = none → Flips modes flag := fun bare => absurd bare given
  obtain ⟨umcptr, listed, same⟩ := exists_noted member changes
  have given' : umcptr.arg ≠ none := by
    intro bare
    cases arg : flag.arg with
    | none => exact given arg
    | some arg' => simp [sameChange, bare, arg] at same
  rw [broadcast_noted known] at describes
  have found := knownNoted umcptr listed
  obtain ⟨umptr, found', before, after⟩ :=
    describes.real _ (List.mem_map.mpr ⟨umcptr, listed, rfl⟩)
  have mode : umptr = umcptr.mode := Option.some_inj.mp (found'.symm.trans found)
  have once := describes.once
  rw [List.map_map] at once
  have spared : ∀ other ∈ noted modes flags, usermodeValid other.mode.character = true ∧
      (other.mode.character = umcptr.mode.character → other.arg ≠ none) := by
    intro other listed'
    refine ⟨knownNoted.valid listed', fun letters => ?_⟩
    have sameEntry : other = umcptr :=
      List.inj_on_of_nodup_map once listed' listed letters
    rw [sameEntry]
    exact given'
  rw [mode] at before after
  rw [isOn_turned_of_spared (knownNoted.valid listed) spared, before] at after
  simp at after

/-- Without arguments the modes are the fold when each flag that counts is borne out by the
last of its mode. -/
theorem folded_noted_iff (known : Known table flags)
    (bare : ∀ flag ∈ flags, flag.arg = none) :
    folded modes (noted modes flags) = folded modes flags ↔
      ∀ flag ∈ flags, Flips modes flag →
        ∀ last ∈ lastFlag flags flag.mode.character, Flips modes last := by
  have knownNoted : Known table (noted modes flags) :=
    fun umcptr member => known umcptr (mem_noted member).1
  constructor
  · intro same flag member flips last isLast
    have isLast := Option.mem_def.mp isLast
    obtain ⟨member', letter⟩ := lastFlag_eq_some isLast
    have found : table.lookup flag.mode.character = some last.mode := letter ▸ known last member'
    have turned := (isOn_folded_noted known bare found).1 ⟨flag, member, rfl, flips⟩
    rw [same, isOn_folded known found, isLast] at turned
    intro still
    rw [still] at turned
    exact Bool.eq_not_self _ |>.mp turned
  · intro lastFlips
    apply folded_eq_of_isOn knownNoted known
    intro c umptr found
    rw [isOn_folded known found]
    cases isLast : lastFlag flags c with
    | none =>
        apply (isOn_folded_noted known bare found).2
        intro flag member letter
        obtain ⟨last, isLast'⟩ := lastFlag_isSome member
        rw [letter, isLast] at isLast'
        cases isLast'
    | some last =>
        obtain ⟨member, letter⟩ := lastFlag_eq_some isLast
        have mode : last.mode = umptr :=
          Option.some_inj.mp ((known last member).symm.trans (letter ▸ found))
        by_cases flips : Flips modes last
        · rw [(isOn_folded_noted known bare found).1 ⟨last, member, letter, flips⟩]
          rw [Flips, mode] at flips
          exact (Bool.eq_not.mpr flips.symm).symm
        · rw [(isOn_folded_noted known bare found).2]
          · rw [Flips, mode, not_not] at flips
            exact flips
          · intro flag member' letter' flips'
            exact flips (lastFlips flag member' flips' last (letter' ▸ isLast))

/-- When no handler refuses a change, the modes are the fold of the string and the lines
tell the difference exactly when no flag has an argument and the last flag of a mode bears
out those before it. -/
theorem usermodeMake_folds_iff (table : ModeTable) (record : Record)
    (isLocal permission : Bool) (args : List CString)
    (allowed : (record.usermodeMake table isLocal permission args).2 =
      usermodeParse table.lookup record.modes args) :
    Folds table record.modes (flagsOf table.lookup args)
        (record.usermodeMake table isLocal permission args) ↔
      LastFlips record.modes (flagsOf table.lookup args) := by
  have known := known_flagsOf table args
  have made := made_usermodeParse table record.modes args
  have modes : (record.usermodeMake table isLocal permission args).1.modes =
      turned record.modes (record.usermodeMake table isLocal permission args).2 :=
    record.usermodeApply_modes isLocal permission _
  rw [usermodeParse_eq_noted] at allowed made
  rw [allowed] at modes
  constructor
  · intro folds
    have described := folds.describes
    rw [allowed, modes] at described
    have bare := bare_of_describes known described
    have same := folds.modes
    rw [modes, turned_eq_folded fun umcptr member => bare umcptr (mem_noted member).1] at same
    exact ⟨bare, (folded_noted_iff known bare).mp same⟩
  · rintro ⟨bare, lastFlips⟩
    rw [turned_eq_folded fun umcptr member => bare umcptr (mem_noted member).1] at modes
    constructor
    · rw [modes]
      exact (folded_noted_iff known bare).mpr lastFlips
    · rw [modes, allowed]
      exact describes_noted known made bare

/-- A user that has nothing asks for `+i-w+i`. -/
theorem usermodeMake_folds_invisible :
    Folds ModeTable.ofModules 0 (flagsOf ModeTable.ofModules.lookup ["+i-w+i".toList])
        (Record.usermodeMake ⟨0, false⟩ ModeTable.ofModules true false ["+i-w+i".toList]) :=
  (usermodeMake_folds_iff ModeTable.ofModules ⟨0, false⟩ true false ["+i-w+i".toList]
    (by decide +kernel)).mpr (by decide +kernel)

/-- `+i-i` leaves a user invisible that was not. -/
theorem taken_back_stays :
    ¬ ∀ (table : ModeTable) (record : Record) (isLocal permission : Bool)
      (args : List CString),
      (record.usermodeMake table isLocal permission args).2 =
        usermodeParse table.lookup record.modes args →
      Folds table record.modes (flagsOf table.lookup args)
        (record.usermodeMake table isLocal permission args) := by
  intro always
  have folds := always ModeTable.ofModules ⟨0, false⟩ true false ["+i-i".toList]
    (by decide +kernel)
  exact absurd folds.modes (by decide +kernel)

end Usermodes

end Chaosircd
