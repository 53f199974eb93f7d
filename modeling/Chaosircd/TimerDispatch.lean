import Chaosircd.TimerRun

/-!
# When a pass over the timers is sound

The saved successor and the timer that has been called are the two pointers that
`timer_run` follows after a callback.  As long as no callback removes one of the
two, the timers behind the pass and those ahead of it stay apart and the pass
does what is asked of it; the first callback that removes one of them makes the
pass touch a timer that is gone.
-/

namespace Chaosircd

namespace TimerHeap

open Dlink

/-! ## The timers that are left -/

section Olds

variable {timers : Timers} {h : Heap} {block : Nat} {ahead : List Nat}

theorem mem_olds (member : block ∈ ahead) (old : (h.timer block).id < timers.heap.timerId) :
    (h.timer block).id ∈ olds timers h ahead := by
  rw [olds, List.mem_filter]
  exact ⟨List.mem_map_of_mem member, by simpa using old⟩

theorem olds_eq_nil (new : ∀ block ∈ ahead, timers.heap.timerId ≤ (h.timer block).id) :
    olds timers h ahead = [] := by
  rw [olds, List.filter_eq_nil_iff]
  intro id member
  obtain ⟨other, inside, rfl⟩ := List.mem_map.mp member
  have large := new other inside
  simp only [decide_eq_true_eq]
  omega

/-- One timer fewer, unless only timers that callbacks started are left. -/
theorem olds_tail (ordered : ((block :: ahead).map fun other => (h.timer other).id).Pairwise
      (· < ·)) :
    (olds timers h ahead).length + 1 ≤ (olds timers h (block :: ahead)).length ∨
      olds timers h ahead = [] := by
  by_cases old : (h.timer block).id < timers.heap.timerId
  · apply Or.inl
    simp [olds, old]
  · apply Or.inr
    apply olds_eq_nil
    intro other member
    rw [List.map_cons, List.pairwise_cons] at ordered
    have less := ordered.1 _ (List.mem_map_of_mem member)
    omega

theorem olds_congr {h' : Heap} (ids : ∀ block, (h'.timer block).id = (h.timer block).id) :
    olds timers h' ahead = olds timers h ahead := by
  simp only [olds, ids]

theorem Follows.congr {h' : Heap} {next : Option Ref} (follows : Follows timers h next ahead)
    (ids : ∀ block, (h'.timer block).id = (h.timer block).id) :
    Follows timers h' next ahead := by
  cases next with
  | none =>
      intro block member
      rw [ids]
      exact follows block member
  | some timer =>
      obtain ⟨rest, split, sameId⟩ := follows
      exact ⟨rest, split, by rw [ids]; exact sameId⟩

theorem write_settle_id (h : Heap) (block : Nat) (ret : Bool) (other : Nat) :
    ((h.write block (settle (h.timer block) ret)).timer other).id = (h.timer other).id := by
  by_cases same : other = block
  · subst same
    cases ret <;> simp [Heap.write, settle]
  · simp [Heap.write, same]

end Olds

/-! ## The invariant of a run -/

/-- What holds after so many turns. -/
def Inv (timers : Timers) (pass : Pass) (turns : Nat) : Prop :=
  ∃ done ahead, Core timers pass.scene pass.called done ahead ∧
    Follows timers pass.scene.heap pass.cur ahead ∧
    ((olds timers pass.scene.heap ahead).length + turns ≤ timers.blocks.length ∨
      olds timers pass.scene.heap ahead = [])

theorem inv_timerRun (timers : Timers) : Inv timers (timerRun timers.heap) 0 := by
  refine ⟨[], timers.blocks, ?_, ?_, ?_⟩
  · refine ⟨timers.wellFormed, rfl, Nat.le_refl _, by simp [timerRun], by simp [timerRun],
      by simp [timerRun], ?_, ?_⟩
    · intro block member _
      exact Or.inl ⟨member, rfl⟩
    · intro block member
      refine ⟨_, Or.inl ⟨block, member, rfl⟩, rfl, rfl, ?_⟩
      simp [timerRun]
  · rw [timerRun]
    dsimp only
    rw [timers.wellFormed.list.head]
    cases timers.blocks with
    | nil => simp [Follows]
    | cons block rest => exact ⟨rest, rfl, rfl⟩
  · apply Or.inl
    have fewer := List.length_filter_le (fun id => decide (id < timers.heap.timerId))
      (timers.blocks.map fun block => (timers.heap.timer block).id)
    simpa [olds, timerRun] using fewer

section Turns

variable {timers : Timers} {scene : Scene} {called : List (Nat × Bool)}
variable {done ahead : List Nat} {block : Nat}

theorem Core.holds {timer : Ref} (core : Core timers scene called done (timer.block :: ahead))
    (sameId : (scene.heap.timer timer.block).id = timer.id) : scene.heap.Holds timer :=
  ⟨(core.wf.used timer.block).mpr (by simp), sameId⟩

/-- The saved successor is the first timer of the rest. -/
theorem Core.follows_successor {timer : Ref}
    (core : Core timers scene called done (timer.block :: ahead)) :
    Follows timers scene.heap (scene.heap.successor timer) ahead := by
  rw [Heap.successor, core.wf.list.next done timer.block ahead rfl]
  cases ahead with
  | nil => simp [Follows]
  | cons next rest => exact ⟨rest, rfl, rfl⟩

/-- The timer that was called is put off or marked, and lies behind the pass. -/
theorem Core.settle (core : Core timers scene called done (block :: ahead)) (ret : Bool) :
    Core timers
      { scene with
        heap := scene.heap.write block (TimerHeap.settle (scene.heap.timer block) ret) }
      (called ++ [((scene.heap.timer block).id, ret)]) (done ++ [block]) ahead := by
  have listed : done ++ [block] ++ ahead = done ++ block :: ahead := by simp
  have sameId : (TimerHeap.settle (scene.heap.timer block) ret).id =
      (scene.heap.timer block).id := by
    cases ret <;> rfl
  have ids := write_settle_id scene.heap block ret
  have others : ∀ other, other ≠ block →
      (scene.heap.write block (TimerHeap.settle (scene.heap.timer block) ret)).timer other =
        scene.heap.timer other :=
    fun other different => Function.update_of_ne different _ _
  have member : block ∈ done ++ block :: ahead := by simp
  have apart : ∀ other ∈ ahead, (scene.heap.timer other).id ≠ (scene.heap.timer block).id := by
    intro other inside same
    have isBlock := core.wf.block_eq (by simp [inside]) member same
    have nodup := (List.nodup_append.mp core.wf.list.nodup).2.1
    exact (List.nodup_cons.mp nodup).1 (isBlock ▸ inside)
  have uncalled : ∀ ret', ((scene.heap.timer block).id, ret') ∉ called := fun ret' before =>
    (core.behind _ before).2 block (by simp) rfl
  refine ⟨?_, core.mtime, core.later, ?_, ?_, ?_, ?_, ?_⟩
  · rw [listed]
    exact core.wf.write sameId
  · intro id gone
    obtain ⟨small, free⟩ := core.removed id gone
    refine ⟨small, ?_⟩
    intro other inside
    dsimp only
    rw [ids]
    exact free other (listed ▸ inside)
  · rw [List.map_append, List.nodup_append]
    refine ⟨core.once, by simp, ?_⟩
    rintro id before last isLast rfl
    obtain ⟨call, inside, rfl⟩ := List.mem_map.mp before
    have sameCall : call.1 = (scene.heap.timer block).id := by simpa using isLast
    exact (core.behind call inside).2 block (by simp) sameCall.symm
  · intro call inside
    rcases List.mem_append.mp inside with before | last
    · obtain ⟨small, free⟩ := core.behind call before
      refine ⟨small, ?_⟩
      intro other left
      dsimp only
      rw [ids]
      exact free other (List.mem_cons_of_mem _ left)
    · obtain rfl : call = ((scene.heap.timer block).id, ret) := by simpa using last
      refine ⟨core.wf.fresh block member, ?_⟩
      intro other left
      dsimp only
      rw [ids]
      exact apart other left
  · intro other inside calls
    rcases core.awaited other inside calls with ⟨left, same⟩ | ⟨ret', before⟩ | gone
    · rcases List.mem_cons.mp left with rfl | later
      · refine Or.inr (Or.inl ⟨ret, List.mem_append_right _ ?_⟩)
        rw [same]
        exact List.mem_singleton_self _
      · have different : other ≠ block := by
          rintro rfl
          exact apart other later rfl
        refine Or.inl ⟨later, ?_⟩
        dsimp only
        rw [others other different, same]
    · exact Or.inr (Or.inl ⟨ret', List.mem_append_left _ before⟩)
    · exact Or.inr (Or.inr gone)
  · intro other inside
    obtain ⟨timer, known, isId, isInterval, isDeadline⟩ := core.known other (listed ▸ inside)
    refine ⟨timer, known, by rw [ids, isId], ?_, ?_⟩
    · by_cases same : other = block
      · subst same
        rw [← isInterval]
        cases ret <;> simp [Heap.write, TimerHeap.settle]
      · dsimp only
        rw [others other same, isInterval]
    · by_cases same : other = block
      · subst same
        rw [isId] at uncalled
        rw [if_neg (uncalled false)] at isDeadline
        cases ret with
        | false =>
            simp [Heap.write, TimerHeap.settle, isId, isInterval, isDeadline]
        | true =>
            simp [Heap.write, TimerHeap.settle, isId, isDeadline, uncalled]
      · have different : timer.id ≠ (scene.heap.timer block).id := by
          intro sameTimer
          rw [← isId] at sameTimer
          exact same (core.wf.block_eq (listed ▸ inside) member sameTimer)
        dsimp only
        rw [others other same, isDeadline]
        simp [different]

end Turns

/-! ## Considerate callbacks make a sound pass -/

section Sound

variable {timers : Timers} {behaviour : Nat → Behaviour} {turns : Nat} {pass : Pass}

/-- One turn. -/
theorem Inv.turn (inv : Inv timers pass turns)
    (harmless : ∀ timer, pass.cur = some timer → pass.scene.heap.Calls timer →
      ∀ op ∈ (behaviour pass.ret).ops, op.target ≠ some timer ∧
        ∀ next, pass.scene.heap.successor timer = some next → op.target ≠ some next) :
    ∃ pass', turn behaviour pass = some pass' ∧ Inv timers pass' (turns + 1) := by
  obtain ⟨done, ahead, core, follows, fewer⟩ := inv
  rw [TimerHeap.turn]
  cases isCur : pass.cur with
  | none =>
      rw [isCur] at follows
      refine ⟨pass, rfl, done, ahead, core, by rw [isCur]; exact follows, ?_⟩
      exact Or.inr (olds_eq_nil follows)
  | some timer =>
      rw [isCur] at follows
      obtain ⟨rest, rfl, sameId⟩ := follows
      have holds := core.holds sameId
      have isRef : pass.scene.heap.ref timer.block = timer := by rw [Heap.ref, sameId]
      have next := core.follows_successor
      have ordered := core.wf.started
      rw [List.map_append, List.pairwise_append] at ordered
      have left : (olds timers pass.scene.heap rest).length + (turns + 1) ≤
          timers.blocks.length ∨ olds timers pass.scene.heap rest = [] := by
        rcases @olds_tail timers pass.scene.heap timer.block rest ordered.2.1
          with shorter | nothing
        · rcases fewer with bounded | nothing
          · apply Or.inl
            omega
          · rw [nothing] at shorter
            simp at shorter
        · exact Or.inr nothing
      dsimp only
      rw [if_neg (not_not.mpr holds)]
      by_cases dead : (pass.scene.heap.timer timer.block).refcount = 0
      · -- a timer that was marked is taken out
        rw [if_pos dead]
        have nodup := core.wf.list.nodup
        rw [List.nodup_middle, List.nodup_cons, List.mem_append, not_or] at nodup
        obtain ⟨⟨notDone, notRest⟩, -⟩ := nodup
        refine ⟨_, rfl, done, rest, ?_, ?_, left⟩
        · refine core.shrink core.wf.timerRemove (by simp) rfl rfl (fun _ _ => rfl) ?_ ?_
            (Or.inl ⟨rfl, dead⟩)
          · intro other
            refine ⟨fun inside => ⟨inside, ?_⟩, And.left⟩
            rintro rfl
            exact notDone inside
          · intro other
            rw [List.mem_cons]
            refine ⟨fun inside => ⟨Or.inr inside, ?_⟩, ?_⟩
            · rintro rfl
              exact notRest inside
            · rintro ⟨isGone | inside, different⟩
              · exact absurd isGone different
              · exact inside
        · exact next
      · rw [if_neg dead]
        by_cases calls : pass.scene.heap.Calls timer
        · -- the callback leaves this timer and the next one alone
          rw [if_pos calls]
          have quiet : ∀ op ∈ (behaviour pass.ret).ops,
              op.target ≠ some (pass.scene.heap.ref timer.block) ∧
                ∀ timer', pass.scene.heap.successor timer = some timer' →
                  op.target ≠ some timer' := by
            rw [isRef]
            exact harmless timer isCur calls
          obtain ⟨done', ahead', core', follows', sameTimer, fewer'⟩ :=
            core.foldl_apply next quiet
          have sameId' : (((behaviour pass.ret).ops.foldl Scene.apply pass.scene).heap.timer
              timer.block).id = timer.id := by rw [sameTimer, sameId]
          rw [if_neg (not_not.mpr (core'.holds sameId'))]
          have settled := core'.settle (behaviour pass.ret).ret
          rw [sameId'] at settled
          have ids := write_settle_id
            ((behaviour pass.ret).ops.foldl Scene.apply pass.scene).heap timer.block
            (behaviour pass.ret).ret
          refine ⟨_, rfl, done' ++ [timer.block], ahead', settled, follows'.congr ids, ?_⟩
          dsimp only
          rw [olds_congr ids]
          rcases left with bounded | nothing
          · apply Or.inl
            omega
          · apply Or.inr
            rw [nothing] at fewer'
            simpa using fewer'
        · -- the timer has not expired
          rw [if_neg calls]
          refine ⟨_, rfl, done ++ [timer.block], rest, core.advance ?_, next, left⟩
          intro same called
          refine calls ⟨dead, ?_⟩
          rw [same, core.mtime]
          exact called.2

theorem passAfter_inv (considerate : Considerate timers behaviour) (turns : Nat) :
    ∃ pass, passAfter timers.heap behaviour turns = some pass ∧ Inv timers pass turns := by
  induction turns with
  | zero => exact ⟨_, rfl, inv_timerRun timers⟩
  | succ turns ih =>
      obtain ⟨pass, reached, inv⟩ := ih
      obtain ⟨pass', next, inv'⟩ := inv.turn
        (fun timer isCur calls => considerate turns pass timer reached isCur calls)
      refine ⟨pass', ?_, inv'⟩
      rw [passAfter, reached]
      exact next

/-- At the end of a pass no timer of the start is left. -/
theorem Inv.olds_eq_nil {ahead : List Nat}
    (follows : Follows timers pass.scene.heap pass.cur ahead)
    (fewer : (olds timers pass.scene.heap ahead).length + turns ≤ timers.blocks.length ∨
      olds timers pass.scene.heap ahead = [])
    (finished : pass.cur = none ∨ timers.blocks.length ≤ turns) :
    olds timers pass.scene.heap ahead = [] := by
  rcases finished with isNone | enough
  · rw [isNone] at follows
    exact TimerHeap.olds_eq_nil follows
  · rcases fewer with bounded | nothing
    · apply List.eq_nil_of_length_eq_zero
      omega
    · exact nothing

theorem dispatched_of_considerate (considerate : Considerate timers behaviour) :
    Dispatched timers behaviour := by
  have invariant : ∀ turns pass, passAfter timers.heap behaviour turns = some pass →
      Inv timers pass turns := by
    intro turns pass reached
    obtain ⟨pass', reached', inv⟩ := passAfter_inv considerate turns
    obtain rfl := Option.some.inj (reached.symm.trans reached')
    exact inv
  refine ⟨?_, ?_, ?_, ?_, ?_, ?_⟩
  · intro turns lost
    obtain ⟨pass, reached, -⟩ := passAfter_inv considerate turns
    rw [lost] at reached
    cases reached
  · intro turns pass reached
    obtain ⟨done, ahead, core, -, -⟩ := invariant turns pass reached
    exact ⟨_, core.wf⟩
  · intro turns pass reached
    obtain ⟨done, ahead, core, -, -⟩ := invariant turns pass reached
    exact core.once
  · intro turns pass timer reached isCur _ gone
    obtain ⟨done, ahead, core, follows, -⟩ := invariant turns pass reached
    rw [isCur] at follows
    obtain ⟨rest, rfl, sameId⟩ := follows
    exact (core.removed _ gone).2 timer.block (by simp) sameId
  · intro turns pass reached finished block member calls
    obtain ⟨done, ahead, core, follows, fewer⟩ := invariant turns pass reached
    rcases core.awaited block member calls with ⟨left, same⟩ | answered
    · -- a timer of the start cannot be among those that are left
      have nothing := Inv.olds_eq_nil follows fewer finished
      have old : (pass.scene.heap.timer block).id < timers.heap.timerId := by
        rw [same]
        exact timers.wellFormed.fresh block member
      have inside := mem_olds left old
      rw [nothing] at inside
      cases inside
    · exact answered
  · intro turns pass block reached used
    obtain ⟨done, ahead, core, -, -⟩ := invariant turns pass reached
    exact core.known block ((core.wf.used block).mp used)

end Sound

/-! ## An inconsiderate callback spoils the pass -/

section Spoilt

variable {timers : Timers} {behaviour : Nat → Behaviour} {turns : Nat} {pass : Pass}

theorem turn_of_gone {timer : Ref} (isCur : pass.cur = some timer)
    (gone : ¬ pass.scene.heap.Holds timer) : turn behaviour pass = none := by
  rw [turn, isCur]
  exact if_pos gone

theorem turn_of_calls {timer : Ref} (isCur : pass.cur = some timer)
    (holds : pass.scene.heap.Holds timer) (calls : pass.scene.heap.Calls timer) :
    (¬ ((behaviour pass.ret).ops.foldl Scene.apply pass.scene).heap.Holds timer →
      turn behaviour pass = none) ∧
    ∀ pass', turn behaviour pass = some pass' →
      pass'.cur = pass.scene.heap.successor timer ∧
      pass'.scene.heap =
        ((behaviour pass.ret).ops.foldl Scene.apply pass.scene).heap.write timer.block
          (settle (((behaviour pass.ret).ops.foldl Scene.apply pass.scene).heap.timer
            timer.block) (behaviour pass.ret).ret) := by
  rw [turn, isCur]
  dsimp only
  rw [if_neg (not_not.mpr holds), if_neg calls.1, if_pos calls]
  by_cases kept : ((behaviour pass.ret).ops.foldl Scene.apply pass.scene).heap.Holds timer
  · rw [if_neg (not_not.mpr kept)]
    refine ⟨fun gone => absurd kept gone, ?_⟩
    intro pass' result
    obtain rfl := Option.some.inj result
    exact ⟨rfl, rfl⟩
  · rw [if_pos kept]
    refine ⟨fun _ => rfl, ?_⟩
    intro pass' result
    cases result

theorem passAfter_succ (reached : passAfter timers.heap behaviour turns = some pass) :
    passAfter timers.heap behaviour (turns + 1) = turn behaviour pass := by
  rw [passAfter, reached, Option.bind_some]

theorem considerate_of_dispatched (dispatched : Dispatched timers behaviour) :
    Considerate timers behaviour := by
  intro turns pass timer reached isCur calls op member
  obtain ⟨blocks, wf⟩ := dispatched.wellFormed turns pass reached
  have nextTurn := passAfter_succ reached
  have holds : pass.scene.heap.Holds timer := by
    by_contra gone
    rw [turn_of_gone isCur gone] at nextTurn
    exact dispatched.safe _ nextTurn
  have known : ∀ block ∈ blocks, (pass.scene.heap.timer block).id < pass.scene.heap.timerId :=
    wf.fresh
  have listed := (wf.used timer.block).mp holds.1
  have result := @turn_of_calls behaviour pass timer isCur holds calls
  constructor
  · -- the timer that is called is not its own target
    intro target
    have fresh : timer.id < pass.scene.heap.timerId := by
      rw [← holds.2]
      exact known timer.block listed
    have gone := foldl_apply_target fresh member target
    rw [result.1 gone.1] at nextTurn
    exact dispatched.safe _ nextTurn
  · -- nor is the saved successor
    intro next successor target
    obtain ⟨before, behind, rfl⟩ := List.append_of_mem listed
    rw [Heap.successor, wf.list.next before timer.block behind rfl] at successor
    obtain ⟨block, isHead, rfl⟩ := Option.map_eq_some_iff.mp successor
    have inside : block ∈ before ++ timer.block :: behind := by
      simp [List.mem_of_head? isHead]
    have gone := foldl_apply_target (known block inside) member target
    cases isPass : turn behaviour pass with
    | none =>
        rw [isPass] at nextTurn
        exact dispatched.safe _ nextTurn
    | some pass' =>
        obtain ⟨isNext, heap⟩ := result.2 pass' isPass
        rw [Heap.successor, wf.list.next before timer.block behind rfl, isHead] at isNext
        have lost : ¬ pass'.scene.heap.Holds (pass.scene.heap.ref block) := by
          rw [heap]
          refine (write_gone gone ?_).1
          cases (behaviour pass.ret).ret <;> rfl
        rw [isPass] at nextTurn
        have secondTurn := passAfter_succ nextTurn
        rw [turn_of_gone isNext lost] at secondTurn
        exact dispatched.safe _ secondTurn

end Spoilt

/-- A pass over the timers does what is asked of it if and only if no callback removes its
own timer or the one whose pointer the pass has saved. -/
theorem dispatched_iff_considerate (timers : Timers) (behaviour : Nat → Behaviour) :
    Dispatched timers behaviour ↔ Considerate timers behaviour :=
  ⟨considerate_of_dispatched, dispatched_of_considerate⟩

/-- Two timers that have expired. -/
def twoExpired : Timers :=
  (((Timers.boot 1000).start 0 0 rfl).start 1 0 rfl)

/-- The first callback cancels the second timer. -/
def cancelsNext : Nat → Behaviour
  | 0 => ⟨[.cancel ⟨1, 1⟩], false⟩
  | _ => ⟨[], false⟩

/-- The pass goes on with the timer that was cancelled. -/
theorem not_dispatched_of_nextCancelled : ¬ Dispatched twoExpired cancelsNext := by
  intro dispatched
  exact dispatched.safe 2 (by decide)

end TimerHeap

end Chaosircd
