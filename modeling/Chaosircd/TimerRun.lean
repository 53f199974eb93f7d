import Chaosircd.TimerList

/-!
# One pass over the timers

`timer_run` walks the timer list with a saved successor and calls the timers that
have expired.  A callback may start, cancel and remove timers; which ones is the
callback's own affair, so each call of a pass has a behaviour of its own.  The
pass goes wrong as soon as it follows a pointer to a timer that is not registered
any more: that happens if and only if a callback cancels or removes its own timer
or the saved successor.
-/

namespace Chaosircd

namespace TimerHeap

open Dlink

/-! ## Callbacks -/

/-- What a callback may do to the timers.  A pointer to a timer that is gone has been set to
`NULL`, and the chunk of a new timer is one that is not in use. -/
inductive TimerOp where
  | start (block interval : Nat)
  | remove (timer : Ref)
  | cancel (timer : Ref)
  deriving DecidableEq

/-- The timer that is removed. -/
def TimerOp.target : TimerOp → Option Ref
  | .start _ _ => none
  | .remove timer | .cancel timer => some timer

/-- One call: what it does, and whether it returns a nonzero value. -/
structure Behaviour where
  ops : List TimerOp
  ret : Bool

/-- The timers during a pass, with the numbers of those that callbacks removed and the
timers that callbacks started. -/
structure Scene where
  heap : Heap
  removed : List Nat
  started : List Timer

/-- One operation of a callback. -/
def Scene.apply (scene : Scene) : TimerOp → Scene
  | .start block interval =>
    if scene.heap.used block then scene
    else
      let heap := timerStart scene.heap block interval
      { scene with heap := heap, started := scene.started ++ [heap.timer block] }
  | .remove timer =>
    if scene.heap.Holds timer then
      { scene with
        heap := timerRemove scene.heap timer.block
        removed := scene.removed ++ [timer.id] }
    else scene
  | .cancel timer =>
    if scene.heap.Holds timer then
      { scene with
        heap := timerCancel scene.heap timer.block
        removed := scene.removed ++ [timer.id] }
    else scene

/-! ## The pass -/

/-- A pass over the list: the timer it has come to, how many it has called (`ret`), and the
calls with their return values. -/
structure Pass where
  scene : Scene
  cur : Option Ref
  ret : Nat
  called : List (Nat × Bool)

/-- What `timer_run` writes to the timer it has called. -/
def settle (timer : Timer) (ret : Bool) : Timer :=
  if ret then { timer with refcount := 0 }
  else { timer with deadline := (timer.deadline + timer.interval) % 2 ^ 64 }

/-- The timer of the pass is called. -/
def Heap.Calls (h : Heap) (timer : Ref) : Prop :=
  (h.timer timer.block).refcount ≠ 0 ∧ (h.timer timer.block).deadline ≤ h.timerMtime

instance (h : Heap) (timer : Ref) : Decidable (h.Calls timer) :=
  inferInstanceAs (Decidable (_ ∧ _))

/-- The successor that `dlink_foreach_safe` saves. -/
def Heap.successor (h : Heap) (timer : Ref) : Option Ref :=
  (h.links.next timer.block).map h.ref

/-- One turn of the loop of `timer_run`; no value means that it has followed a pointer to a
timer that is not registered any more. -/
def turn (behaviour : Nat → Behaviour) (pass : Pass) : Option Pass :=
  match pass.cur with
  | none => some pass
  | some timer =>
    let h := pass.scene.heap
    if ¬ h.Holds timer then none
    else
      let next := h.successor timer
      if (h.timer timer.block).refcount = 0 then
        some { pass with
          scene := { pass.scene with heap := timerRemove h timer.block }
          cur := next }
      else if h.Calls timer then
        let scene := (behaviour pass.ret).ops.foldl Scene.apply pass.scene
        if ¬ scene.heap.Holds timer then none
        else
          some
            { scene := { scene with
                heap := scene.heap.write timer.block
                  (settle (scene.heap.timer timer.block) (behaviour pass.ret).ret) }
              cur := next
              ret := pass.ret + 1
              called := pass.called ++ [(timer.id, (behaviour pass.ret).ret)] }
      else some { pass with cur := next }

/-- The pass at its start. -/
def timerRun (h : Heap) : Pass :=
  ⟨⟨h, [], []⟩, h.timerList.head.map h.ref, 0, []⟩

/-- The pass after so many turns. -/
def passAfter (h : Heap) (behaviour : Nat → Behaviour) : Nat → Option Pass
  | 0 => some (timerRun h)
  | turns + 1 => (passAfter h behaviour turns).bind (turn behaviour)

/-! ## What a pass should do -/

/-- A timer of the list at the start, or one that a callback started. -/
def Known (timers : Timers) (scene : Scene) (timer : Timer) : Prop :=
  (∃ block ∈ timers.blocks, timers.heap.timer block = timer) ∨ timer ∈ scene.started

/-- What is asked of the dispatch of one pass. -/
structure Dispatched (timers : Timers) (behaviour : Nat → Behaviour) : Prop where
  /-- no block is touched after its timer was removed -/
  safe : ∀ turns, passAfter timers.heap behaviour turns ≠ none
  /-- the list stays well formed -/
  wellFormed : ∀ turns pass, passAfter timers.heap behaviour turns = some pass →
    ∃ blocks, WellFormed pass.scene.heap blocks
  /-- no timer is called twice -/
  once : ∀ turns pass, passAfter timers.heap behaviour turns = some pass →
    (pass.called.map Prod.fst).Nodup
  /-- no cancelled timer is called -/
  registered : ∀ turns pass timer, passAfter timers.heap behaviour turns = some pass →
    pass.cur = some timer → pass.scene.heap.Calls timer → timer.id ∉ pass.scene.removed
  /-- every expired timer is called, unless a callback removed it before its turn -/
  complete : ∀ turns pass, passAfter timers.heap behaviour turns = some pass →
    (pass.cur = none ∨ timers.blocks.length ≤ turns) →
    ∀ block ∈ timers.blocks, timers.heap.Calls (timers.heap.ref block) →
      (∃ ret, ((timers.heap.timer block).id, ret) ∈ pass.called) ∨
        (timers.heap.timer block).id ∈ pass.scene.removed
  /-- the timers whose callback returned zero, and no others, are put off by one interval -/
  rescheduled : ∀ turns pass block, passAfter timers.heap behaviour turns = some pass →
    pass.scene.heap.used block = true →
    ∃ timer, Known timers pass.scene timer ∧
      (pass.scene.heap.timer block).id = timer.id ∧
      (pass.scene.heap.timer block).interval = timer.interval ∧
      (pass.scene.heap.timer block).deadline =
        if (timer.id, false) ∈ pass.called then (timer.deadline + timer.interval) % 2 ^ 64
        else timer.deadline

/-- No callback of the pass removes its own timer or the one that followed it in the list
when it was called. -/
def Considerate (timers : Timers) (behaviour : Nat → Behaviour) : Prop :=
  ∀ turns pass timer, passAfter timers.heap behaviour turns = some pass →
    pass.cur = some timer → pass.scene.heap.Calls timer →
    ∀ op ∈ (behaviour pass.ret).ops,
      op.target ≠ some timer ∧
        ∀ next, pass.scene.heap.successor timer = some next → op.target ≠ some next

/-! ## What an operation does to the list -/

section Operations

variable {scene : Scene}

/-- A timer that is gone does not come back. -/
def Heap.Gone (h : Heap) (timer : Ref) : Prop :=
  ¬ h.Holds timer ∧ timer.id < h.timerId

theorem timerStart_gone {h : Heap} {timer : Ref} (gone : h.Gone timer)
    (block interval : Nat) : (timerStart h block interval).Gone timer := by
  refine ⟨?_, Nat.lt_succ_of_lt gone.2⟩
  rintro ⟨used, sameId⟩
  by_cases same : timer.block = block
  · -- the new timer has a new number
    have newId : h.timerId = timer.id := by simpa [timerStart, same] using sameId
    exact absurd gone.2 (by omega)
  · refine gone.1 ⟨?_, ?_⟩
    · simpa [timerStart, same] using used
    · simpa [timerStart, same] using sameId

theorem timerRemove_gone {h : Heap} {timer : Ref} (gone : h.Gone timer) (block : Nat) :
    (timerRemove h block).Gone timer := by
  refine ⟨?_, gone.2⟩
  rintro ⟨used, sameId⟩
  by_cases same : timer.block = block
  · simp [timerRemove, same] at used
  · exact gone.1 ⟨by simpa [timerRemove, same] using used, sameId⟩

theorem write_gone {h : Heap} {timer : Ref} (gone : h.Gone timer) {block : Nat}
    {after : Timer} (sameId : after.id = (h.timer block).id) :
    (h.write block after).Gone timer := by
  refine ⟨?_, gone.2⟩
  rintro ⟨used, isId⟩
  refine gone.1 ⟨used, ?_⟩
  by_cases same : timer.block = block
  · simpa [Heap.write, same, sameId] using isId
  · simpa [Heap.write, same] using isId

theorem timerCancel_gone {h : Heap} {timer : Ref} (gone : h.Gone timer) (block : Nat) :
    (timerCancel h block).Gone timer := by
  refine timerRemove_gone ?_ block
  exact write_gone gone rfl

theorem timerRemove_gone_self {h : Heap} {timer : Ref} (known : timer.id < h.timerId) :
    (timerRemove h timer.block).Gone timer := by
  refine ⟨?_, known⟩
  rintro ⟨used, -⟩
  simp [timerRemove] at used

theorem Scene.apply_gone {timer : Ref} (gone : scene.heap.Gone timer) (op : TimerOp) :
    (scene.apply op).heap.Gone timer := by
  cases op with
  | start block interval =>
      rw [Scene.apply]
      split_ifs
      · exact gone
      · exact timerStart_gone gone block interval
  | remove other =>
      rw [Scene.apply]
      split_ifs
      · exact timerRemove_gone gone other.block
      · exact gone
  | cancel other =>
      rw [Scene.apply]
      split_ifs
      · exact timerCancel_gone gone other.block
      · exact gone

theorem Scene.apply_timerId (op : TimerOp) :
    scene.heap.timerId ≤ (scene.apply op).heap.timerId := by
  cases op <;> rw [Scene.apply] <;> split_ifs <;>
    simp [timerStart, timerRemove, timerCancel, Heap.write]

/-- The operation on a timer leaves it gone. -/
theorem Scene.apply_target {timer : Ref} (known : timer.id < scene.heap.timerId)
    {op : TimerOp} (target : op.target = some timer) :
    (scene.apply op).heap.Gone timer := by
  cases op with
  | start block interval => cases target
  | remove other =>
      obtain rfl : other = timer := Option.some.inj target
      rw [Scene.apply]
      split_ifs with holds
      · exact timerRemove_gone_self known
      · exact ⟨holds, known⟩
  | cancel other =>
      obtain rfl : other = timer := Option.some.inj target
      rw [Scene.apply]
      split_ifs with holds
      · exact @timerRemove_gone_self
          (scene.heap.write other.block { scene.heap.timer other.block with refcount := 0 })
          other known
      · exact ⟨holds, known⟩

theorem foldl_apply_gone {timer : Ref} (ops : List TimerOp) (gone : scene.heap.Gone timer) :
    (ops.foldl Scene.apply scene).heap.Gone timer := by
  induction ops generalizing scene with
  | nil => exact gone
  | cons op ops ih => exact ih (Scene.apply_gone gone op)

theorem foldl_apply_target {timer : Ref} {ops : List TimerOp} {op : TimerOp}
    (known : timer.id < scene.heap.timerId) (member : op ∈ ops)
    (target : op.target = some timer) :
    (ops.foldl Scene.apply scene).heap.Gone timer := by
  induction ops generalizing scene with
  | nil => cases member
  | cons first ops ih =>
      rcases List.mem_cons.mp member with rfl | later
      · exact foldl_apply_gone ops (Scene.apply_target known target)
      · exact ih (Nat.lt_of_lt_of_le known (Scene.apply_timerId first)) later

end Operations

/-! ## The invariant of a pass -/

/-- The timers behind the pass and ahead of it, and what is known about them. -/
structure Core (timers : Timers) (scene : Scene) (called : List (Nat × Bool))
    (done ahead : List Nat) : Prop where
  wf : WellFormed scene.heap (done ++ ahead)
  mtime : scene.heap.timerMtime = timers.heap.timerMtime
  later : timers.heap.timerId ≤ scene.heap.timerId
  removed : ∀ id ∈ scene.removed, id < scene.heap.timerId ∧
    ∀ block ∈ done ++ ahead, (scene.heap.timer block).id ≠ id
  once : (called.map Prod.fst).Nodup
  behind : ∀ call ∈ called, call.1 < scene.heap.timerId ∧
    ∀ block ∈ ahead, (scene.heap.timer block).id ≠ call.1
  awaited : ∀ block ∈ timers.blocks, timers.heap.Calls (timers.heap.ref block) →
    (block ∈ ahead ∧ scene.heap.timer block = timers.heap.timer block) ∨
      (∃ ret, ((timers.heap.timer block).id, ret) ∈ called) ∨
      (timers.heap.timer block).id ∈ scene.removed
  known : ∀ block ∈ done ++ ahead, ∃ timer, Known timers scene timer ∧
    (scene.heap.timer block).id = timer.id ∧
    (scene.heap.timer block).interval = timer.interval ∧
    (scene.heap.timer block).deadline =
      if (timer.id, false) ∈ called then (timer.deadline + timer.interval) % 2 ^ 64
      else timer.deadline

/-- What lies ahead begins with the timer the pass goes on with; where the pass ends, only
timers that callbacks started are left. -/
def Follows (timers : Timers) (h : Heap) (next : Option Ref) (ahead : List Nat) : Prop :=
  match next with
  | some timer => ∃ rest, ahead = timer.block :: rest ∧ (h.timer timer.block).id = timer.id
  | none => ∀ block ∈ ahead, timers.heap.timerId ≤ (h.timer block).id

/-- The numbers of the timers ahead that were there at the start. -/
def olds (timers : Timers) (h : Heap) (ahead : List Nat) : List Nat :=
  (ahead.map fun block => (h.timer block).id).filter fun id => id < timers.heap.timerId

section Steps

variable {timers : Timers} {scene : Scene} {called : List (Nat × Bool)}
variable {done ahead : List Nat}

theorem Core.start (core : Core timers scene called done ahead) {block : Nat}
    (free : scene.heap.used block = false) (interval : Nat) :
    Core timers (scene.apply (.start block interval)) called done (ahead ++ [block]) ∧
      (∀ other ∈ done ++ ahead,
        (scene.apply (.start block interval)).heap.timer other = scene.heap.timer other) ∧
      ((scene.apply (.start block interval)).heap.timer block).id = scene.heap.timerId := by
  have result : scene.apply (.start block interval) =
      { scene with
        heap := timerStart scene.heap block interval
        started := scene.started ++ [(timerStart scene.heap block interval).timer block] } := by
    rw [Scene.apply, if_neg (by simp [free])]
  have outside : block ∉ done ++ ahead := by
    rw [← core.wf.used]
    simp [free]
  have older : ∀ other ∈ done ++ ahead,
      (timerStart scene.heap block interval).timer other = scene.heap.timer other := by
    intro other member
    refine Function.update_of_ne ?_ _ _
    rintro rfl
    exact outside member
  have newest : (timerStart scene.heap block interval).timer block =
      { id := scene.heap.timerId
        refcount := 1
        deadline := (scene.heap.timerMtime + interval) % 2 ^ 64
        interval := interval } := by
    simp [timerStart]
  have cases : ∀ other ∈ done ++ (ahead ++ [block]), other ∈ done ++ ahead ∨ other = block := by
    intro other member
    simp only [List.mem_append, List.mem_singleton] at member ⊢
    tauto
  rw [result]
  refine ⟨⟨?_, core.mtime, Nat.le_succ_of_le core.later, ?_, core.once, ?_, ?_, ?_⟩, older, ?_⟩
  · rw [← List.append_assoc]
    exact core.wf.timerStart free interval
  · intro id member
    obtain ⟨small, apart⟩ := core.removed id member
    refine ⟨Nat.lt_succ_of_lt small, ?_⟩
    intro other inside
    rcases cases other inside with old | rfl
    · dsimp only
      rw [older other old]
      exact apart other old
    · dsimp only
      rw [newest]
      exact (Nat.ne_of_lt small).symm
  · intro call member
    obtain ⟨small, apart⟩ := core.behind call member
    refine ⟨Nat.lt_succ_of_lt small, ?_⟩
    intro other inside
    rcases List.mem_append.mp inside with old | last
    · dsimp only
      rw [older other (List.mem_append_right _ old)]
      exact apart other old
    · obtain rfl : other = block := by simpa using last
      dsimp only
      rw [newest]
      exact (Nat.ne_of_lt small).symm
  · intro other member calls
    rcases core.awaited other member calls with ⟨inside, same⟩ | answered
    · refine Or.inl ⟨List.mem_append_left _ inside, ?_⟩
      dsimp only
      rw [older other (List.mem_append_right _ inside), same]
    · exact Or.inr answered
  · intro other inside
    rcases cases other inside with old | rfl
    · obtain ⟨timer, known, facts⟩ := core.known other old
      refine ⟨timer, known.imp_right (List.mem_append_left _), ?_⟩
      dsimp only
      rw [older other old]
      exact facts
    · refine ⟨_, Or.inr (List.mem_append_right _ (List.mem_singleton_self _)), rfl, rfl, ?_⟩
      have uncalled : (scene.heap.timerId, false) ∉ called := fun member =>
        absurd (core.behind _ member).1 (Nat.lt_irrefl _)
      dsimp only
      rw [newest]
      dsimp only
      rw [if_neg uncalled]
  · dsimp only
    rw [newest]

/-- One timer is taken out of the list. -/
theorem Core.shrink (core : Core timers scene called done ahead) {gone : Nat}
    {heap : Heap} {removed done' ahead' : List Nat}
    (wf : WellFormed heap (done' ++ ahead')) (member : gone ∈ done ++ ahead)
    (sameClock : heap.timerMtime = scene.heap.timerMtime)
    (sameId : heap.timerId = scene.heap.timerId)
    (sameTimers : ∀ block, block ≠ gone → heap.timer block = scene.heap.timer block)
    (doneIff : ∀ block, block ∈ done' ↔ block ∈ done ∧ block ≠ gone)
    (aheadIff : ∀ block, block ∈ ahead' ↔ block ∈ ahead ∧ block ≠ gone)
    (marked : removed = scene.removed ∧ (scene.heap.timer gone).refcount = 0 ∨
      removed = scene.removed ++ [(scene.heap.timer gone).id]) :
    Core timers { scene with heap := heap, removed := removed } called done' ahead' := by
  have inside : ∀ block, block ∈ done' ++ ahead' ↔ block ∈ done ++ ahead ∧ block ≠ gone := by
    intro block
    rw [List.mem_append, List.mem_append, doneIff, aheadIff]
    tauto
  have ids : ∀ block ∈ done' ++ ahead', (heap.timer block).id = (scene.heap.timer block).id :=
    fun block listed => by rw [sameTimers block ((inside block).mp listed).2]
  refine ⟨wf, sameClock.trans core.mtime, by rw [sameId]; exact core.later, ?_, core.once,
    ?_, ?_, ?_⟩
  · intro id listed
    have old : id ∈ scene.removed ∨ id = (scene.heap.timer gone).id := by
      rcases marked with ⟨rfl, -⟩ | rfl
      · exact Or.inl listed
      · simpa using listed
    rcases old with old | rfl
    · obtain ⟨small, apart⟩ := core.removed id old
      refine ⟨by rw [sameId]; exact small, ?_⟩
      intro block left
      dsimp only
      rw [ids block left]
      exact apart block ((inside block).mp left).1
    · refine ⟨by rw [sameId]; exact core.wf.fresh gone member, ?_⟩
      intro block left same
      dsimp only at same
      rw [ids block left] at same
      obtain ⟨listed, other⟩ := (inside block).mp left
      exact other (core.wf.block_eq listed member same)
  · intro call listed
    obtain ⟨small, apart⟩ := core.behind call listed
    refine ⟨by rw [sameId]; exact small, ?_⟩
    intro block left
    dsimp only
    rw [ids block (List.mem_append_right _ left)]
    exact apart block ((aheadIff block).mp left).1
  · intro block listed calls
    rcases core.awaited block listed calls with ⟨left, same⟩ | answered | earlier
    · by_cases isGone : block = gone
      · subst isGone
        rcases marked with ⟨-, dead⟩ | rfl
        · rw [same] at dead
          exact absurd dead calls.1
        · refine Or.inr (Or.inr (List.mem_append_right _ ?_))
          rw [same]
          exact List.mem_singleton_self _
      · refine Or.inl ⟨(aheadIff block).mpr ⟨left, isGone⟩, ?_⟩
        dsimp only
        rw [sameTimers block isGone, same]
    · exact Or.inr (Or.inl answered)
    · refine Or.inr (Or.inr ?_)
      rcases marked with ⟨rfl, -⟩ | rfl
      · exact earlier
      · exact List.mem_append_left _ earlier
  · intro block left
    obtain ⟨timer, known, facts⟩ := core.known block ((inside block).mp left).1
    refine ⟨timer, known, ?_⟩
    dsimp only
    rw [sameTimers block ((inside block).mp left).2]
    exact facts

/-- The pass goes on past a timer. -/
theorem Core.advance {block : Nat} (core : Core timers scene called done (block :: ahead))
    (uncalled : scene.heap.timer block = timers.heap.timer block →
      ¬ timers.heap.Calls (timers.heap.ref block)) :
    Core timers scene called (done ++ [block]) ahead := by
  have same : done ++ [block] ++ ahead = done ++ block :: ahead := by simp
  refine ⟨same ▸ core.wf, core.mtime, core.later, ?_, core.once, ?_, ?_, ?_⟩
  · intro id listed
    obtain ⟨small, apart⟩ := core.removed id listed
    exact ⟨small, fun other inside => apart other (same ▸ inside)⟩
  · intro call listed
    obtain ⟨small, apart⟩ := core.behind call listed
    exact ⟨small, fun other inside => apart other (List.mem_cons_of_mem _ inside)⟩
  · intro other listed calls
    rcases core.awaited other listed calls with ⟨left, sameTimer⟩ | answered
    · rcases List.mem_cons.mp left with rfl | later
      · exact absurd calls (uncalled sameTimer)
      · exact Or.inl ⟨later, sameTimer⟩
    · exact Or.inr answered
  · intro other inside
    exact core.known other (same ▸ inside)

/-- The removals in one form. -/
theorem Scene.apply_of_holds {op : TimerOp} {timer : Ref} (target : op.target = some timer)
    (holds : scene.heap.Holds timer) :
    ∃ heap, scene.apply op =
        { scene with heap := heap, removed := scene.removed ++ [timer.id] } ∧
      (∀ before behind, WellFormed scene.heap (before ++ timer.block :: behind) →
        WellFormed heap (before ++ behind)) ∧
      heap.timerMtime = scene.heap.timerMtime ∧ heap.timerId = scene.heap.timerId ∧
      ∀ block, block ≠ timer.block → heap.timer block = scene.heap.timer block := by
  cases op with
  | start block interval => cases target
  | remove other =>
      obtain rfl : other = timer := Option.some.inj target
      refine ⟨timerRemove scene.heap other.block, ?_, ?_, rfl, rfl, ?_⟩
      · rw [Scene.apply, if_pos holds]
      · intro before behind wf
        exact wf.timerRemove
      · intro block _
        rfl
  | cancel other =>
      obtain rfl : other = timer := Option.some.inj target
      refine ⟨timerCancel scene.heap other.block, ?_, ?_, rfl, rfl, ?_⟩
      · rw [Scene.apply, if_pos holds]
      · intro before behind wf
        exact wf.timerCancel
      · intro block different
        exact Function.update_of_ne different _ _

theorem Scene.apply_of_not_holds {op : TimerOp} {timer : Ref}
    (target : op.target = some timer) (gone : ¬ scene.heap.Holds timer) :
    scene.apply op = scene := by
  cases op with
  | start block interval => cases target
  | remove other =>
      obtain rfl : other = timer := Option.some.inj target
      rw [Scene.apply, if_neg gone]
  | cancel other =>
      obtain rfl : other = timer := Option.some.inj target
      rw [Scene.apply, if_neg gone]

theorem filter_ne_of_nodup {before behind : List Nat} {block : Nat}
    (nodup : (before ++ block :: behind).Nodup) :
    (before ++ block :: behind).filter (fun other => other ≠ block) = before ++ behind := by
  rw [List.nodup_middle, List.nodup_cons] at nodup
  have others : ∀ other ∈ before ++ behind, decide (other ≠ block) = true := by
    intro other member
    rw [decide_eq_true_eq]
    rintro rfl
    exact nodup.1 member
  rw [List.filter_append, List.filter_cons_of_neg (by simp), ← List.filter_append,
    List.filter_eq_self.mpr others]

section Ahead

variable {h h' : Heap} {next : Option Ref} {new gone : Nat}

/-- A new timer comes behind the timers ahead. -/
theorem Follows.append (follows : Follows timers h next ahead)
    (same : ∀ other ∈ ahead, h'.timer other = h.timer other)
    (later : timers.heap.timerId ≤ (h'.timer new).id) :
    Follows timers h' next (ahead ++ [new]) := by
  cases next with
  | some timer =>
      obtain ⟨rest, rfl, sameId⟩ := follows
      refine ⟨rest ++ [new], rfl, ?_⟩
      rw [same timer.block List.mem_cons_self]
      exact sameId
  | none =>
      intro other inside
      rcases List.mem_append.mp inside with old | last
      · rw [same other old]
        exact follows other old
      · rw [List.mem_singleton.mp last]
        exact later

theorem olds_append (same : ∀ other ∈ ahead, h'.timer other = h.timer other)
    (later : timers.heap.timerId ≤ (h'.timer new).id) :
    olds timers h' (ahead ++ [new]) = olds timers h ahead := by
  have sameIds : ahead.map (fun other => (h'.timer other).id) =
      ahead.map fun other => (h.timer other).id :=
    List.map_congr_left fun other inside => by rw [same other inside]
  simp [olds, sameIds, later]

/-- One of the timers ahead goes, and it is not the next one. -/
theorem Follows.filter (follows : Follows timers h next ahead)
    (same : ∀ other, other ≠ gone → h'.timer other = h.timer other)
    (notNext : ∀ timer, next = some timer → timer.block ≠ gone) :
    Follows timers h' next (ahead.filter fun other => other ≠ gone) := by
  cases next with
  | some timer =>
      obtain ⟨rest, rfl, sameId⟩ := follows
      have apart := notNext timer rfl
      refine ⟨rest.filter (fun other => other ≠ gone), ?_, ?_⟩
      · rw [List.filter_cons_of_pos (by simpa using apart)]
      · rw [same _ apart]
        exact sameId
  | none =>
      intro other inside
      obtain ⟨inside, apart⟩ := List.mem_filter.mp inside
      rw [same other (of_decide_eq_true apart)]
      exact follows other inside

theorem length_olds_filter_le
    (same : ∀ other, other ≠ gone → h'.timer other = h.timer other) :
    (olds timers h' (ahead.filter fun other => other ≠ gone)).length ≤
      (olds timers h ahead).length := by
  have sameIds : (ahead.filter fun other => other ≠ gone).map
      (fun other => (h'.timer other).id) =
        (ahead.filter fun other => other ≠ gone).map fun other => (h.timer other).id :=
    List.map_congr_left fun other inside => by
      rw [same other (of_decide_eq_true (List.mem_filter.mp inside).2)]
  rw [olds, sameIds]
  exact ((List.filter_sublist.map _).filter _).length_le

end Ahead

/-- One harmless operation of a callback of the timer `block`. -/
theorem Core.apply {block : Nat} {next : Option Ref}
    (core : Core timers scene called done (block :: ahead))
    (follows : Follows timers scene.heap next ahead) {op : TimerOp}
    (notOwn : op.target ≠ some (scene.heap.ref block))
    (notNext : ∀ timer, next = some timer → op.target ≠ some timer) :
    ∃ done' ahead', Core timers (scene.apply op) called done' (block :: ahead') ∧
      Follows timers (scene.apply op).heap next ahead' ∧
      (scene.apply op).heap.timer block = scene.heap.timer block ∧
      (olds timers (scene.apply op).heap ahead').length ≤
        (olds timers scene.heap ahead).length := by
  cases target : op.target with
  | none =>
      -- a new timer goes to the end of the list
      cases op with
      | remove other => cases target
      | cancel other => cases target
      | start new interval =>
          by_cases used : scene.heap.used new = true
          · have same : scene.apply (.start new interval) = scene := by
              rw [Scene.apply, if_pos used]
            rw [same]
            exact ⟨done, ahead, core, follows, rfl, Nat.le_refl _⟩
          · obtain ⟨core', older, newId⟩ := core.start (by simpa using used) interval
            have olderAhead : ∀ other ∈ ahead,
                (scene.apply (.start new interval)).heap.timer other =
                  scene.heap.timer other := fun other inside => older other (by simp [inside])
            have later : timers.heap.timerId ≤
                ((scene.apply (.start new interval)).heap.timer new).id := by
              rw [newId]
              exact core.later
            refine ⟨done, ahead ++ [new], by simpa using core', follows.append olderAhead later,
              older block (by simp), ?_⟩
            rw [olds_append olderAhead later]
  | some timer =>
      by_cases holds : scene.heap.Holds timer
      · obtain ⟨heap, result, wellFormed, clock, counter, others⟩ :=
          Scene.apply_of_holds target holds
        have member : timer.block ∈ done ++ block :: ahead :=
          (core.wf.used timer.block).mp holds.1
        have different : block ≠ timer.block := by
          rintro rfl
          refine notOwn (target.trans (congrArg some ?_))
          rw [Heap.ref, holds.2]
        obtain ⟨before, behind, split⟩ := List.append_of_mem member
        have nodup := core.wf.list.nodup
        have wf := core.wf
        rw [split] at nodup wf
        have filtered := filter_ne_of_nodup nodup
        rw [← split, List.filter_append, List.filter_cons_of_pos (by simpa using different)]
          at filtered
        have apart : ∀ successor, next = some successor → successor.block ≠ timer.block := by
          rintro successor rfl same
          obtain ⟨rest, -, sameId⟩ := follows
          refine notNext successor rfl (target.trans (congrArg some ?_))
          have sameNumber : timer.id = successor.id := by
            rw [← holds.2, ← sameId, same]
          cases timer
          cases successor
          simp_all
        rw [result]
        refine ⟨done.filter (fun other => other ≠ timer.block),
          ahead.filter (fun other => other ≠ timer.block), ?_, follows.filter others apart,
          others block different, length_olds_filter_le others⟩
        refine core.shrink ?_ member clock counter others ?_ ?_ (Or.inr (by rw [holds.2]))
        · rw [filtered]
          exact wellFormed before behind wf
        · intro other
          simp
        · intro other
          simp only [List.mem_cons, List.mem_filter, decide_eq_true_eq]
          constructor
          · rintro (rfl | ⟨inside, apart⟩)
            · exact ⟨Or.inl rfl, different⟩
            · exact ⟨Or.inr inside, apart⟩
          · rintro ⟨rfl | inside, apart⟩
            · exact Or.inl rfl
            · exact Or.inr ⟨inside, apart⟩
      · rw [Scene.apply_of_not_holds target holds]
        exact ⟨done, ahead, core, follows, rfl, Nat.le_refl _⟩

/-- A whole harmless callback of the timer `block`. -/
theorem Core.foldl_apply {block : Nat} {next : Option Ref}
    (core : Core timers scene called done (block :: ahead))
    (follows : Follows timers scene.heap next ahead) {ops : List TimerOp}
    (harmless : ∀ op ∈ ops, op.target ≠ some (scene.heap.ref block) ∧
      ∀ timer, next = some timer → op.target ≠ some timer) :
    ∃ done' ahead', Core timers (ops.foldl Scene.apply scene) called done' (block :: ahead') ∧
      Follows timers (ops.foldl Scene.apply scene).heap next ahead' ∧
      (ops.foldl Scene.apply scene).heap.timer block = scene.heap.timer block ∧
      (olds timers (ops.foldl Scene.apply scene).heap ahead').length ≤
        (olds timers scene.heap ahead).length := by
  induction ops generalizing scene done ahead with
  | nil => exact ⟨done, ahead, core, follows, rfl, Nat.le_refl _⟩
  | cons op ops ih =>
      obtain ⟨notOwn, notNext⟩ := harmless op (by simp)
      obtain ⟨done₁, ahead₁, core₁, follows₁, same₁, fewer₁⟩ :=
        core.apply follows notOwn notNext
      have sameRef : (scene.apply op).heap.ref block = scene.heap.ref block := by
        rw [Heap.ref, Heap.ref, same₁]
      obtain ⟨done₂, ahead₂, core₂, follows₂, same₂, fewer₂⟩ := ih core₁ follows₁ (by
        intro later member
        rw [sameRef]
        exact harmless later (List.mem_cons_of_mem _ member))
      exact ⟨done₂, ahead₂, core₂, follows₂, same₂.trans same₁, Nat.le_trans fewer₂ fewer₁⟩

end Steps

end TimerHeap

end Chaosircd
