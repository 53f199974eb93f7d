import Chaosircd.Regions

/-!
# Loops that may fail

One turn of a loop fails, goes on to the next turn or comes out of the loop.  A loop is given
the turns it may take, and it halts when some number of them is enough.  An invariant with a
bound that each turn lowers shows that it does.  Where the turns do lower a bound, a loop that
does not halt is one that comes to a turn that fails.
-/

namespace Chaosircd

namespace Loops

variable {State Result : Type}

/-- The loop with this body, and the turns that it may take. -/
def loop (turn : State → Except Fault (State ⊕ Result)) : Nat → State → Except Fault Result
  | 0, _ => .error .endless
  | turns + 1, state =>
    match turn state with
    | .error fault => .error fault
    | .ok (.inl next) => loop turn turns next
    | .ok (.inr result) => .ok result

theorem loop_succ (turn : State → Except Fault (State ⊕ Result)) (turns : Nat) (state : State) :
    loop turn (turns + 1) state =
      match turn state with
      | .error fault => .error fault
      | .ok (.inl next) => loop turn turns next
      | .ok (.inr result) => .ok result :=
  rfl

/-- The loop has this result when it is given enough turns. -/
def Returns (turn : State → Except Fault (State ⊕ Result)) (state : State) (result : Result) :
    Prop :=
  ∃ turns, loop turn turns state = .ok result

/-- Some number of turns is enough. -/
def Halts (turn : State → Except Fault (State ⊕ Result)) (state : State) : Prop :=
  ∃ turns result, loop turn turns state = .ok result

/-- The states before the turns of a loop. -/
inductive Reaches (turn : State → Except Fault (State ⊕ Result)) : State → State → Prop where
  | here (state : State) : Reaches turn state state
  | there {state next last : State} (goesOn : turn state = .ok (.inl next))
      (later : Reaches turn next last) : Reaches turn state last

variable {turn : State → Except Fault (State ⊕ Result)}

/-- What turns preserve holds in every state that is reached. -/
theorem Reaches.invariant {Inv : State → Prop}
    (preserved : ∀ state next, Inv state → turn state = .ok (.inl next) → Inv next)
    {state last : State} (reaches : Reaches turn state last) (holds : Inv state) : Inv last := by
  induction reaches with
  | here => exact holds
  | there goesOn _ ih => exact ih (preserved _ _ holds goesOn)

/-- The rule for a loop that always comes to its end. -/
theorem loop_spec (Inv : State → Prop) (bound : State → Nat) {Post : Result → Prop}
    (progress : ∀ state, Inv state →
      (∃ next, turn state = .ok (.inl next) ∧ Inv next ∧ bound next < bound state) ∨
        ∃ result, turn state = .ok (.inr result) ∧ Post result)
    {turns : Nat} {state : State} (holds : Inv state) (enough : bound state < turns) :
    ∃ result, loop turn turns state = .ok result ∧ Post result := by
  induction turns generalizing state with
  | zero => omega
  | succ turns ih =>
      rw [loop_succ]
      rcases progress state holds with ⟨next, goesOn, holds, lower⟩ | ⟨result, comesOut, post⟩
      · rw [goesOn]
        exact ih holds (by omega)
      · rw [comesOut]
        exact ⟨result, rfl, post⟩

/-- A loop whose turns lower a bound has a result if and only if no turn fails. -/
theorem loop_ok_iff (Inv : State → Prop) (bound : State → Nat)
    (lower : ∀ state next, Inv state → turn state = .ok (.inl next) →
      Inv next ∧ bound next < bound state)
    {turns : Nat} {state : State} (holds : Inv state) (enough : bound state < turns) :
    (∃ result, loop turn turns state = .ok result) ↔
      ∀ last, Reaches turn state last → ∃ outcome, turn last = .ok outcome := by
  induction turns generalizing state with
  | zero => omega
  | succ turns ih =>
      rw [loop_succ]
      cases turned : turn state with
      | error fault =>
          constructor
          · rintro ⟨result, same⟩
            cases same
          · intro all
            obtain ⟨outcome, same⟩ := all state (.here state)
            rw [turned] at same
            cases same
      | ok outcome =>
          cases outcome with
          | inl next =>
              obtain ⟨kept, less⟩ := lower state next holds turned
              refine Iff.trans (ih kept (by omega)) ⟨fun all last reaches => ?_,
                fun all last reaches => all last (.there turned reaches)⟩
              cases reaches with
              | here => exact ⟨_, turned⟩
              | there goesOn later =>
                  rw [turned] at goesOn
                  cases goesOn
                  exact all last later
          | inr result =>
              refine ⟨fun _ last reaches => ?_, fun _ => ⟨result, rfl⟩⟩
              cases reaches with
              | here => exact ⟨_, turned⟩
              | there goesOn _ =>
                  rw [turned] at goesOn
                  cases goesOn

/-- A loop halts if and only if it reaches a state whose turn comes out of it. -/
theorem halts_iff {state : State} :
    Halts turn state ↔ ∃ last, Reaches turn state last ∧ ∃ result, turn last = .ok (.inr result) := by
  constructor
  · rintro ⟨turns, result, halted⟩
    induction turns generalizing state with
    | zero => cases halted
    | succ turns ih =>
        rw [loop_succ] at halted
        cases turned : turn state with
        | error fault =>
            rw [turned] at halted
            cases halted
        | ok outcome =>
            rw [turned] at halted
            cases outcome with
            | inl next =>
                obtain ⟨last, reaches, comesOut⟩ := ih halted
                exact ⟨last, .there turned reaches, comesOut⟩
            | inr result => exact ⟨state, .here state, result, turned⟩
  · rintro ⟨last, reaches, result, comesOut⟩
    induction reaches with
    | here state => exact ⟨1, result, by rw [loop_succ, comesOut]⟩
    | there goesOn _ ih =>
        obtain ⟨turns, result, halted⟩ := ih comesOut
        exact ⟨turns + 1, result, by rw [loop_succ, goesOn]; exact halted⟩

/-- No turn of a loop that halts fails. -/
theorem Halts.turn_ok {state last : State} (halts : Halts turn state)
    (reaches : Reaches turn state last) : ∃ outcome, turn last = .ok outcome := by
  induction reaches with
  | here state =>
      obtain ⟨turns, result, halted⟩ := halts
      cases turns with
      | zero => cases halted
      | succ turns =>
          rw [loop_succ] at halted
          cases turned : turn state with
          | error fault =>
              rw [turned] at halted
              cases halted
          | ok outcome => exact ⟨outcome, rfl⟩
  | there goesOn _ ih =>
      obtain ⟨turns, result, halted⟩ := halts
      cases turns with
      | zero => cases halted
      | succ turns =>
          rw [loop_succ, goesOn] at halted
          exact ih ⟨turns, result, halted⟩

/-- More turns do not change a result. -/
theorem loop_mono {turns more : Nat} {state : State} {result : Result}
    (halted : loop turn turns state = .ok result) (le : turns ≤ more) :
    loop turn more state = .ok result := by
  induction turns generalizing more state with
  | zero => cases halted
  | succ turns ih =>
      obtain ⟨more, rfl⟩ : ∃ k, more = k + 1 := ⟨more - 1, by omega⟩
      rw [loop_succ] at halted ⊢
      cases turned : turn state with
      | error fault =>
          rw [turned] at halted
          cases halted
      | ok outcome =>
          rw [turned] at halted
          cases outcome with
          | inl next => exact ih halted (by omega)
          | inr last => exact halted

/-- A loop that comes back to the same state does not end. -/
theorem loop_stuck {state : State} (stays : turn state = .ok (.inl state)) (turns : Nat) :
    loop turn turns state = .error .endless := by
  induction turns with
  | zero => rfl
  | succ turns ih =>
      rw [loop_succ, stays]
      exact ih

theorem returns_of_goesOn {state next : State} (goesOn : turn state = .ok (.inl next))
    (result : Result) : Returns turn state result ↔ Returns turn next result := by
  constructor
  · rintro ⟨turns, halted⟩
    cases turns with
    | zero => cases halted
    | succ turns =>
        rw [loop_succ, goesOn] at halted
        exact ⟨turns, halted⟩
  · rintro ⟨turns, halted⟩
    exact ⟨turns + 1, by rw [loop_succ, goesOn]; exact halted⟩

theorem returns_of_comesOut {state : State} {last : Result}
    (comesOut : turn state = .ok (.inr last)) (result : Result) :
    Returns turn state result ↔ last = result := by
  constructor
  · rintro ⟨turns, halted⟩
    cases turns with
    | zero => cases halted
    | succ turns =>
        rw [loop_succ, comesOut] at halted
        exact Except.ok.inj halted
  · rintro rfl
    exact ⟨1, by rw [loop_succ, comesOut]⟩

theorem not_returns_of_stays {state : State} (stays : turn state = .ok (.inl state))
    (result : Result) : ¬ Returns turn state result := by
  rintro ⟨turns, halted⟩
  rw [loop_stuck stays] at halted
  cases halted

end Loops

end Chaosircd
