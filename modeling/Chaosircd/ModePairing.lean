import Chaosircd.ChanmodeParse

/-!
# Which argument a mode flag gets

The flags of a string that have an entry and take an argument are counted.  The parser
offers them the arguments in order as long as every flag that was given an argument also
made a change of it.  A privilege flag whose argument names no member of the channel
leaves the index where it was, and the next flag is offered the same argument again.
-/

namespace Chaosircd

namespace Modes

/-- A flag with an entry and its direction. -/
abbrev DirectedFlag := What × Chanmode

/-- Whether the flag takes an argument. -/
def takes (flag : DirectedFlag) : Bool :=
  takesArg flag.1 flag.2

/-! ## Flags and their arguments -/

/-- The entry of a flag. -/
def flagEntry (env : ParseEnv) (flag : Char) : Option Chanmode :=
  if charsIsalpha flag then env.chanmodeTable (tableIndex flag) else none

/-- The flags of a string that have an entry, with the directions they stand in. -/
def directedFlags (env : ParseEnv) : What → CString → List DirectedFlag
  | _, [] => []
  | what, flag :: modes =>
    if flag = '=' then directedFlags env .query modes
    else if flag = '+' then directedFlags env .add modes
    else if flag = '-' then directedFlags env .del modes
    else
      match flagEntry env flag with
      | none => directedFlags env what modes
      | some mode => (what, mode) :: directedFlags env what modes

/-- The flags that the walk comes to, with the places of the arguments they are offered. -/
def pairFlags (env : ParseEnv) (stack : Chanmodechange) (chptr : Channel)
    (argp : List CString) : List DirectedFlag → Nat → Nat → List (DirectedFlag × Nat)
  | [], _, _ => []
  | flag :: flags, ai, count =>
    let prepared := chanmodePrepare env stack chptr flag.1 flag.2 argp[ai]? ai
    (flag, ai) ::
      if count + prepared.1.toList.length = modesPerLine then []
      else pairFlags env stack chptr argp flags prepared.2.1
        (count + prepared.1.toList.length)

/-- From the `k`-th argument on, every flag that takes one is offered the next one; behind
the last argument there is the null pointer. -/
def InStep (length : Nat) : Nat → List (DirectedFlag × Nat) → Prop
  | _, [] => True
  | k, pair :: pairs =>
    if takes pair.1 then pair.2 = min k length ∧ InStep length (k + 1) pairs
    else InStep length k pairs

theorem inStep_iff (length k : Nat) (pairs : List (DirectedFlag × Nat)) :
    InStep length k pairs ↔ ∀ i pair, (pairs.filter fun pair => takes pair.1)[i]? = some pair →
      pair.2 = min (k + i) length := by
  induction pairs generalizing k with
  | nil =>
      refine iff_of_true trivial fun i pair found => ?_
      rw [List.filter_nil, List.getElem?_nil] at found
      cases found
  | cons pair pairs induction =>
      rw [InStep]
      split
      · rename_i taken
        rw [List.filter_cons, if_pos taken, induction]
        constructor
        · rintro ⟨first, later⟩ i other same
          cases i with
          | zero =>
              cases same
              exact first
          | succ i =>
              rw [← Nat.add_assoc, Nat.add_right_comm]
              exact later i other same
        · intro all
          refine ⟨all 0 pair rfl, ?_⟩
          intro i other same
          rw [Nat.add_right_comm]
          exact all (i + 1) other same
      · rename_i notTaken
        rw [List.filter_cons, if_neg notTaken, induction]

/-- A privilege flag whose argument, counted from `k`, names no member stands before another
flag that takes an argument, which is among the next `room`. -/
def Shifts (env : ParseEnv) (chptr : Channel) (argp : List CString) (k room : Nat)
    (flags : List DirectedFlag) : Prop :=
  ∃ i j flag later text, i < j ∧ j ≤ room ∧ flags[i]? = some flag ∧ takes flag ∧
    argp[k + (flags.take i).countP takes]? = some text ∧ NoMember env chptr flag.2 text ∧
      flags[j]? = some later ∧ takes later

section

variable {env : ParseEnv} {stack : Chanmodechange} {chptr : Channel} {argp : List CString}

theorem pairFlags_cons {flag : DirectedFlag} {ai ai' added : Nat} (flags : List DirectedFlag)
    (count : Nat)
    (made : (chanmodePrepare env stack chptr flag.1 flag.2 argp[ai]? ai).1.toList.length =
      added)
    (moved : (chanmodePrepare env stack chptr flag.1 flag.2 argp[ai]? ai).2.1 = ai') :
    pairFlags env stack chptr argp (flag :: flags) ai count =
      (flag, ai) :: if count + added = modesPerLine then []
        else pairFlags env stack chptr argp flags ai' (count + added) := by
  subst made moved
  rfl

theorem length_toList_of_isSome {α : Type*} {o : Option α} (some : o.isSome) :
    o.toList.length = 1 := by
  cases o with
  | none => cases some
  | some a => rfl

/-! ## Past the last argument -/

/-- Behind the last argument every flag is offered the null pointer. -/
theorem inStep_of_exhausted {k : Nat} (flags : List DirectedFlag) (count : Nat)
    (past : argp.length ≤ k) :
    InStep argp.length k (pairFlags env stack chptr argp flags argp.length count) := by
  induction flags generalizing k count with
  | nil => trivial
  | cons flag flags induction =>
      have missing : argp[argp.length]? = none := List.getElem?_eq_none (Nat.le_refl _)
      have stays : (chanmodePrepare env stack chptr flag.1 flag.2 argp[argp.length]?
          argp.length).2.1 = argp.length := by
        rcases @chanmodePrepare_cases env stack chptr flag.1 flag.2 argp[argp.length]?
            argp.length with
          ⟨_, _, same⟩ | ⟨_, _, same⟩ | ⟨_, _, _, _, _, same⟩ | ⟨_, text, filled, _⟩
        · exact same
        · exact same
        · exact same
        · rw [missing] at filled
          cases filled
      rw [pairFlags_cons flags count rfl stays, InStep]
      have rest : ∀ k, argp.length ≤ k → InStep argp.length k
          (if count + (chanmodePrepare env stack chptr flag.1 flag.2 argp[argp.length]?
              argp.length).1.toList.length = modesPerLine then []
            else pairFlags env stack chptr argp flags argp.length
              (count + (chanmodePrepare env stack chptr flag.1 flag.2 argp[argp.length]?
                argp.length).1.toList.length)) := by
        intro k past
        split
        · trivial
        · exact induction _ past
      split
      · exact ⟨(Nat.min_eq_right past).symm, rest _ (Nat.le_succ_of_le past)⟩
      · exact rest _ past

theorem not_shifts_of_exhausted {k room : Nat} (flags : List DirectedFlag)
    (past : argp.length ≤ k) : ¬ Shifts env chptr argp k room flags := by
  rintro ⟨i, j, flag, later, text, _, _, _, _, filled, _⟩
  rw [List.getElem?_eq_none (Nat.le_add_right_of_le past)] at filled
  cases filled

/-! ## Behind a flag without a member -/

/-- A walk that has not moved on is out of step with the next flag that takes an
argument. -/
theorem inStep_behind_iff {k room : Nat} (flags : List DirectedFlag) {count : Nat}
    (filled : k < argp.length) (left : count + (room + 1) = modesPerLine) :
    InStep argp.length (k + 1) (pairFlags env stack chptr argp flags k count) ↔
      ∀ j later, j ≤ room → flags[j]? = some later → takes later = false := by
  induction flags generalizing count room with
  | nil =>
      refine iff_of_true trivial fun j later _ found => ?_
      rw [List.getElem?_nil] at found
      cases found
  | cons flag flags induction =>
      cases taken : takes flag with
      | true =>
          apply iff_of_false
          · rw [pairFlags, InStep]
            rintro step
            rw [if_pos taken] at step
            have first := step.1
            dsimp only at first
            omega
          · intro none
            rw [none 0 flag (Nat.zero_le _) rfl] at taken
            cases taken
      | false =>
          have made : (chanmodePrepare env stack chptr flag.1 flag.2 argp[k]? k).1.isSome ∧
              (chanmodePrepare env stack chptr flag.1 flag.2 argp[k]? k).2.1 = k := by
            rcases @chanmodePrepare_cases env stack chptr flag.1 flag.2 argp[k]? k with
              ⟨_, made⟩ | ⟨takes', _⟩ | ⟨takes', _⟩ | ⟨takes', _⟩
            · exact made
            all_goals
              rw [takes, takes'] at taken
              cases taken
          rw [pairFlags_cons flags count (length_toList_of_isSome made.1) made.2, InStep,
            if_neg (by rw [taken]; exact Bool.false_ne_true)]
          cases room with
          | zero =>
              rw [if_pos left]
              apply iff_of_true trivial
              intro j later first same
              rw [Nat.le_zero.mp first] at same
              cases same
              exact taken
          | succ room =>
              rw [if_neg (by omega), @induction room _ (by omega)]
              constructor
              · intro none j later near same
                cases j with
                | zero =>
                    cases same
                    exact taken
                | succ j => exact none j later (Nat.le_of_succ_le_succ near) same
              · intro none j later near same
                exact none (j + 1) later (Nat.succ_le_succ near) same

/-! ## The whole walk -/

/-- A flag that does not fail shifts nothing by itself. -/
theorem shifts_cons_of_member {k room : Nat} {flag : DirectedFlag} (flags : List DirectedFlag)
    (member : takes flag → ∀ text ∈ argp[k]?, ¬ NoMember env chptr flag.2 text) :
    Shifts env chptr argp k (room + 1) (flag :: flags) ↔
      Shifts env chptr argp (if takes flag then k + 1 else k) room flags := by
  have counts : ∀ i, k + ((flag :: flags).take (i + 1)).countP takes =
      (if takes flag then k + 1 else k) + (flags.take i).countP takes := by
    intro i
    rw [List.take_succ_cons, List.countP_cons]
    split
    · omega
    · omega
  constructor
  · rintro ⟨i, j, failing, later, text, before, near, same, taken, filled, fails, same', taken'⟩
    cases i with
    | zero =>
        cases same
        exact absurd fails (member taken text filled)
    | succ i =>
        cases j with
        | zero => omega
        | succ j =>
            rw [counts] at filled
            exact ⟨i, j, failing, later, text, by omega, by omega, same, taken, filled, fails,
              same', taken'⟩
  · rintro ⟨i, j, failing, later, text, before, near, same, taken, filled, fails, same', taken'⟩
    rw [← counts] at filled
    exact ⟨i + 1, j + 1, failing, later, text, by omega, by omega, same, taken, filled, fails,
      same', taken'⟩

theorem shifts_cons_of_noMember {k room : Nat} {flag : DirectedFlag} {text : CString}
    (flags : List DirectedFlag) (taken : takes flag) (filled : argp[k]? = some text)
    (fails : NoMember env chptr flag.2 text) :
    Shifts env chptr argp k (room + 1) (flag :: flags) ↔
      ¬ ∀ j later, j ≤ room → flags[j]? = some later → takes later = false := by
  constructor
  · rintro ⟨i, j, failing, later, text, before, near, _, _, _, _, same', taken'⟩ none
    cases j with
    | zero => omega
    | succ j =>
        rw [none j later (by omega) same'] at taken'
        cases taken'
  · intro some
    push Not at some
    obtain ⟨j, later, near, same, taken'⟩ := some
    exact ⟨0, j + 1, flag, later, text, by omega, by omega, rfl, taken, filled, fails, same,
      by simpa using taken'⟩

/-- The walk from an index in step stays in step just when no flag shifts the arguments of
those behind it. -/
theorem inStep_pairFlags_iff {k room : Nat} (flags : List DirectedFlag) {count : Nat}
    (inside : k ≤ argp.length) (left : count + (room + 1) = modesPerLine) :
    InStep argp.length k (pairFlags env stack chptr argp flags k count) ↔
      ¬ Shifts env chptr argp k (room + 1) flags := by
  induction flags generalizing k count room with
  | nil =>
      apply iff_of_true trivial
      rintro ⟨i, j, failing, later, text, _, _, same, _⟩
      cases same
  | cons flag flags induction =>
      rcases Nat.lt_or_eq_of_le inside with filled | rfl
      · have rest : ∀ k', k' ≤ argp.length → (InStep argp.length k'
            (if count + 1 = modesPerLine then []
              else pairFlags env stack chptr argp flags k' (count + 1)) ↔
            ¬ Shifts env chptr argp k' room flags) := by
          intro k' inside'
          cases room with
          | zero =>
              rw [if_pos left]
              apply iff_of_true trivial
              rintro ⟨i, j, _, _, _, before, near, _⟩
              omega
          | succ room =>
              rw [if_neg (by omega)]
              exact induction inside' (by omega)
        rcases @chanmodePrepare_cases env stack chptr flag.1 flag.2 argp[k]? k with
          ⟨free, made, same⟩ | ⟨_, missing, _⟩ | ⟨taken, text, present, fails, none, same⟩ |
            ⟨taken, text, present, member, made, same⟩
        · have notTaken : ¬ takes flag := by
            rw [takes, free]
            exact Bool.false_ne_true
          rw [pairFlags_cons flags count (length_toList_of_isSome made) same, InStep,
            if_neg notTaken, shifts_cons_of_member flags fun taken => absurd taken notTaken,
            if_neg notTaken]
          exact rest k inside
        · rw [List.getElem?_eq_getElem filled] at missing
          cases missing
        · have nothing : (chanmodePrepare env stack chptr flag.1 flag.2 argp[k]? k).1.toList.length
              = 0 := by
            rw [none]
            rfl
          have taken' : takes flag := taken
          have again : pairFlags env stack chptr argp (flag :: flags) k count =
              (flag, k) :: pairFlags env stack chptr argp flags k count := by
            rw [pairFlags_cons flags count nothing same, if_neg (by omega)]
            rfl
          rw [again, InStep, if_pos taken', inStep_behind_iff flags filled left,
            shifts_cons_of_noMember flags taken' present fails, not_not]
          exact and_iff_right (Nat.min_eq_left inside).symm
        · have first : takes flag → ∀ other ∈ argp[k]?, ¬ NoMember env chptr flag.2 other := by
            intro _ other same
            rw [present] at same
            cases same
            exact member
          have taken' : takes flag := taken
          rw [pairFlags_cons flags count (length_toList_of_isSome made) same, InStep,
            if_pos taken', shifts_cons_of_member flags first, if_pos taken', rest (k + 1) filled]
          exact and_iff_right (Nat.min_eq_left inside).symm
      · exact iff_of_true (inStep_of_exhausted _ _ (Nat.le_refl _))
          (not_shifts_of_exhausted _ (Nat.le_refl _))

/-! ## The walk over the string -/

/-- A byte that is no flag with an entry leaves the flags and the changes alone. -/
theorem parseFlag_pairs (flag : Char) (state : Parse) (modes : CString) :
    (directedFlags env state.what (flag :: modes) =
        directedFlags env (parseFlag env stack chptr argp flag state).what modes ∧
      (parseFlag env stack chptr argp flag state).ai = state.ai ∧
      (parseFlag env stack chptr argp flag state).changes = state.changes ∧
      (parseFlag env stack chptr argp flag state).flags = state.flags) ∨
    ∃ mode, directedFlags env state.what (flag :: modes) =
        (state.what, mode) :: directedFlags env state.what modes ∧
      (parseFlag env stack chptr argp flag state).what = state.what ∧
      (parseFlag env stack chptr argp flag state).ai =
        (chanmodePrepare env stack chptr state.what mode argp[state.ai]? state.ai).2.1 ∧
      (parseFlag env stack chptr argp flag state).changes = state.changes ++
        (chanmodePrepare env stack chptr state.what mode argp[state.ai]?
          state.ai).1.toList ∧
      (parseFlag env stack chptr argp flag state).flags =
        state.flags ++ [⟨flag, state.what, mode, state.ai⟩] := by
  rw [directedFlags, parseFlag]
  split
  · exact .inl ⟨rfl, rfl, rfl, rfl⟩
  · split
    · exact .inl ⟨rfl, rfl, rfl, rfl⟩
    · split
      · exact .inl ⟨rfl, rfl, rfl, rfl⟩
      · rw [flagEntry]
        rcases @parseLetter_cases env stack chptr argp flag state with
          ⟨other, _, same⟩ | ⟨letter, entry, _, same⟩ |
            ⟨letter, mode, entry, change, ai, replies, prepared, same⟩
        · rw [same, other]
          exact .inl ⟨rfl, rfl, rfl, rfl⟩
        · rw [same, letter, if_pos rfl, entry]
          exact .inl ⟨rfl, rfl, rfl, rfl⟩
        · rw [same, letter, if_pos rfl, entry]
          refine .inr ⟨mode, rfl, rfl, ?_, ?_, rfl⟩
          · rw [prepared]
          · rw [prepared]

/-- The flags a walk has come to, with the places of their arguments. -/
def Parse.pairs (state : Parse) : List (DirectedFlag × Nat) :=
  state.flags.map fun flag => ((flag.what, flag.mode), flag.slot)

/-- The walk over a string offers arguments as the walk over its flags does. -/
theorem pairs_parseFlags {pc : Nat} (counts : pc ≠ 0) (modes : CString) (state : Parse)
    (room : state.changes.length < modesPerLine) :
    (parseFlags env stack chptr argp pc modes state).pairs =
      state.pairs ++ pairFlags env stack chptr argp (directedFlags env state.what modes)
        state.ai state.changes.length := by
  induction modes generalizing state with
  | nil => exact (List.append_nil _).symm
  | cons flag modes induction =>
      have ends : ∀ next : Parse, next.Ends pc ↔ next.changes.length = modesPerLine := by
        intro next
        exact or_iff_left counts
      rw [parseFlags]
      rcases @parseFlag_pairs env stack chptr argp flag state modes with
        ⟨same, index, changes, flags⟩ | ⟨mode, same, what, index, changes, flags⟩
      · have goesOn : ¬ (parseFlag env stack chptr argp flag state).Ends pc := by
          rw [ends, changes]
          omega
        rw [if_neg goesOn, induction _ (by rw [changes]; exact room), same, index, changes,
          Parse.pairs, Parse.pairs, flags]
      · rw [same, pairFlags]
        dsimp only
        have count : (parseFlag env stack chptr argp flag state).changes.length =
            state.changes.length + (chanmodePrepare env stack chptr state.what mode
              argp[state.ai]? state.ai).1.toList.length := by
          rw [changes, List.length_append]
        have pairs : (parseFlag env stack chptr argp flag state).pairs =
            state.pairs ++ [((state.what, mode), state.ai)] := by
          rw [Parse.pairs, flags, List.map_append]
          rfl
        rw [← count, ← index]
        by_cases full : (parseFlag env stack chptr argp flag state).changes.length =
            modesPerLine
        · rw [if_pos ((ends _).mpr full), if_pos full]
          exact pairs
        · have one : (chanmodePrepare env stack chptr state.what mode argp[state.ai]?
              state.ai).1.toList.length ≤ 1 := by
            cases (chanmodePrepare env stack chptr state.what mode argp[state.ai]? state.ai).1
            · exact Nat.zero_le 1
            · exact Nat.le_refl 1
          rw [if_neg (mt (ends _).mp full), if_neg full, induction _ (by omega), what, pairs,
            List.append_assoc]
          rfl

/-- The flags that are offered arguments are the first ones of the string. -/
theorem pairFlags_initial (flags : List DirectedFlag) (ai count : Nat) :
    ((pairFlags env stack chptr argp flags ai count).map Prod.fst) <+: flags := by
  induction flags generalizing ai count with
  | nil => exact List.nil_prefix
  | cons flag flags induction =>
      rw [pairFlags, List.map_cons, List.cons_prefix_cons]
      refine ⟨rfl, ?_⟩
      split
      · exact List.nil_prefix
      · exact induction _ _

/-- When no change is counted, the walk ends after one byte. -/
theorem pairs_parseFlags_zero (modes : CString) :
    (parseFlags env stack chptr argp 0 modes .start).pairs = [] ∨
      ∃ flag flags, directedFlags env .query modes = flag :: flags ∧
        (parseFlags env stack chptr argp 0 modes .start).pairs = [(flag, 0)] := by
  cases modes with
  | nil => exact .inl rfl
  | cons flag modes =>
      rw [parseFlags, if_pos (.inr rfl)]
      rcases @parseFlag_pairs env stack chptr argp flag .start modes with
        ⟨_, _, _, flags⟩ | ⟨mode, same, _, _, _, flags⟩
      · left
        rw [Parse.pairs, flags]
        rfl
      · right
        refine ⟨_, _, same, ?_⟩
        rw [Parse.pairs, flags]
        rfl

end

/-- The walk pairs flags with arguments: the flags it comes to are the first ones of the
string that have an entry, and the `k`-th of them that takes an argument is offered the
`k`-th argument, or the null pointer behind the last one. -/
structure PairsInOrder (env : ParseEnv) (modes : CString) (argp : List CString)
    (state : Parse) : Prop where
  flags : state.pairs.map Prod.fst <+: directedFlags env .query modes
  slots : ∀ k pair, (state.pairs.filter fun pair => takes pair.1)[k]? = some pair →
    pair.2 = min k argp.length

/-- The parser pairs the `k`-th flag that takes an argument with the `k`-th argument just
when, among the first five flags of the string, no flag that takes an argument stands
behind a privilege flag whose own argument names no member of the channel. -/
theorem chanmodeParse_pairsInOrder_iff (env : ParseEnv) (stack : Chanmodechange)
    (chptr : Channel) (cuptr : Option Channel) (modes : CString) (args : Option CString)
    (pc : Nat) :
    PairsInOrder env modes (argVector args)
        (chanmodeParse env stack chptr cuptr modes args pc) ↔
      pc = 0 ∨ ¬ Shifts env (cuptr.getD chptr) (argVector args) 0 modesPerLine
        (directedFlags env .query modes) := by
  rw [chanmodeParse]
  by_cases counts : pc = 0
  · subst counts
    refine iff_of_true ?_ (.inl rfl)
    rcases @pairs_parseFlags_zero env stack (cuptr.getD chptr) (argVector args) modes with
      none | ⟨flag, flags, same, one⟩
    · constructor
      · rw [none]
        exact List.nil_prefix
      · rw [none]
        intro k pair found
        rw [List.filter_nil, List.getElem?_nil] at found
        cases found
    · constructor
      · rw [one, same]
        exact List.cons_prefix_cons.mpr ⟨rfl, List.nil_prefix⟩
      · rw [one]
        intro k pair same
        obtain ⟨inside, _⟩ := List.getElem?_eq_some_iff.mp same
        have short := List.length_filter_le (fun pair => takes pair.1) [(flag, 0)]
        have first : k = 0 := by
          rw [List.length_singleton] at short
          omega
        have member := List.mem_of_mem_filter (List.mem_of_getElem? same)
        rw [List.mem_singleton.mp member, first, Nat.zero_min]
  · have pairs := @pairs_parseFlags env stack (cuptr.getD chptr) (argVector args) pc counts
      modes .start (by decide)
    have walk := @inStep_pairFlags_iff env stack (cuptr.getD chptr) (argVector args) 0 3
      (directedFlags env .query modes) 0 (Nat.zero_le _) rfl
    rw [inStep_iff] at walk
    rw [or_iff_right counts]
    constructor
    · intro paired
      apply walk.mp
      intro k pair same
      rw [Nat.zero_add]
      apply paired.slots k pair
      rw [pairs]
      exact same
    · intro steady
      constructor
      · rw [pairs]
        exact pairFlags_initial _ _ _
      · intro k pair same
        rw [pairs] at same
        rw [← Nat.zero_add k]
        exact walk.mpr steady k pair same

/-- A channel with one member, and a parser that knows the member's name. -/
def aliceEnv : ParseEnv where
  chanmodeTable i := if i = 47 then some ⟨'o', .privilege, {'o'}, .chanuserModeBounce⟩ else none
  clientFindUid _ := none
  clientFindNick _ := none
  clientFindNickhw nick :=
    if nick = "alice".toList then some ⟨7, true, true, nick, none, [], [], [], []⟩ else none
  isServer := false
  capUid := false

/-- The second of two privilege flags is offered the argument of the first again. -/
theorem later_flag_gets_earlier_argument :
    ¬ PairsInOrder aliceEnv "+oo".toList (argVector (some "nobody alice".toList))
      (chanmodeParse aliceEnv
        (explicitDel ⟨'n', .single, ∅, .chanmodeBounceSimple⟩ ⟨[], [], [], [], [], 0, 0⟩)
        ⟨1, "#a".toList, ∅, [], 0, fun _ => [], [⟨7, ∅⟩], ∅⟩ none "+oo".toList
        (some "nobody alice".toList) 4) := by
  intro paired
  have second := paired.slots 1 ((.add, ⟨'o', .privilege, {'o'}, .chanuserModeBounce⟩), 0)
    (by decide +kernel)
  revert second
  decide

end Modes

end Chaosircd
