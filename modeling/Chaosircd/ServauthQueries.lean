import Chaosircd.TransitionSystem
import Mathlib.Data.List.Basic
import Mathlib.Logic.Function.Basic

/-!
# Queries to servauth

A query is on the list of the queries from its start until it is deleted, and its callback
is called when a reply comes, when its timer fires, and when the child dies.  Callbacks
start and delete queries: the one they are called for, or others.  Who goes on with a query
after its callback reads memory that may have been freed: so does `sauth_timeout` with its
query, and `sauth_recover` with the next one of the list.
-/

namespace Chaosircd

namespace ServauthQueries

/-! ## Queries -/

/-- `SAUTH_TYPE_DNSF` and so on. -/
inductive SauthType where
  | dnsf
  | dnsr
  | auth
  | proxy
  | userdb
  deriving DecidableEq

/-- `SAUTH_DONE`, `SAUTH_ERROR`, and what `sauth_timeout` has for a status. -/
inductive Status where
  | done
  | error
  | timeout
  deriving DecidableEq

/-- `struct sauth`, without what is asked and answered; `serial` is how many queries were
started before it, and tells the queries apart. -/
structure Sauth where
  serial : Nat
  type : SauthType
  status : Option Status
  timer : Bool
  deriving DecidableEq

/-- `sauth->id`. -/
def Sauth.id (sauth : Sauth) : Nat :=
  sauth.serial % 2 ^ 32

/-- `sauth_list`, the number of queries that have been started, and how often the callback of
each has been called. -/
structure State where
  sauthList : List Sauth
  serial : Nat
  calls : Nat → Nat

/-- What a callback does to the queries. -/
inductive Act where
  | start (type : SauthType)
  | delete (serial : Nat)
  deriving DecidableEq

/-- What the child says: `dns forward`, `dns reverse` or `dns` and something else, `auth`,
`proxy`, `userdb`, or nothing of this. -/
inductive Reply where
  | dns (forward : Option Bool) (id : Nat)
  | auth (id : Nat)
  | proxy (id : Nat)
  | userdb (id : Nat)
  | invalid

namespace State

/-- `sauth_init`. -/
def init : State :=
  ⟨[], 0, fun _ => 0⟩

/-- The query has been started and not been deleted. -/
def Live (s : State) (serial : Nat) : Prop :=
  serial ∈ s.sauthList.map Sauth.serial

instance (s : State) (serial : Nat) : Decidable (s.Live serial) :=
  inferInstanceAs (Decidable (_ ∈ _))

/-- `sauth_new` and the timer. -/
def sauthNew (s : State) (type : SauthType) : State :=
  { s with sauthList := ⟨s.serial, type, none, true⟩ :: s.sauthList, serial := s.serial + 1 }

/-- The list without a query. -/
def remove (s : State) (serial : Nat) : State :=
  { s with sauthList := s.sauthList.filter fun sauth => sauth.serial ≠ serial }

/-- `sauth_delete`; there is no result when the query is not there. -/
def sauthDelete (s : State) (serial : Nat) : Option State :=
  if s.Live serial then some (s.remove serial) else none

/-- What a callback does. -/
def runActs : State → List Act → Option State
  | s, [] => some s
  | s, .start type :: acts => (s.sauthNew type).runActs acts
  | s, .delete serial :: acts => (s.sauthDelete serial).bind fun s => s.runActs acts

/-- The status of the query, its timer, and the call. -/
def mark (s : State) (serial : Nat) (status : Status) : State :=
  { s with
    sauthList := s.sauthList.map fun sauth =>
      if sauth.serial = serial then { sauth with status := some status, timer := false }
      else sauth
    calls := Function.update s.calls serial (s.calls serial + 1) }

/-- `sauth_callback`. -/
def sauthCallback (s : State) (serial : Nat) (status : Status) (acts : List Act) :
    Option State :=
  if s.Live serial then (s.mark serial status).runActs acts else none

/-- The timer of the query is running. -/
def Armed (s : State) (serial : Nat) : Prop :=
  ∃ sauth ∈ s.sauthList, sauth.serial = serial ∧ sauth.timer = true

instance (s : State) (serial : Nat) : Decidable (s.Armed serial) :=
  inferInstanceAs (Decidable (∃ sauth ∈ s.sauthList, _ ∧ _))

/-- `sauth_timeout`, which looks at the query again after its callback. -/
def sauthTimeout (s : State) (serial : Nat) (acts : List Act) : Option State :=
  (s.sauthCallback serial .timeout acts).bind fun s => if s.Live serial then some s else none

/-- `sauth_find`. -/
def sauthFind (s : State) (id : Nat) : Option Sauth :=
  s.sauthList.find? fun sauth => sauth.id = id

/-- The query that a reply is for, and the status it gets. -/
def replied (s : State) : Reply → Option (Sauth × Status)
  | .dns forward id => (s.sauthFind id).map fun sauth =>
    (sauth, if sauth.type = .dnsf ∧ forward = some true then .done
      else if sauth.type = .dnsr ∧ forward = some false then .done else .error)
  | .auth id | .proxy id | .userdb id => (s.sauthFind id).map fun sauth => (sauth, .done)
  | .invalid => none

/-- `sauth_parse`. -/
def sauthParse (s : State) (reply : Reply) (acts : List Act) : Option State :=
  match s.replied reply with
  | none => some s
  | some (sauth, status) => s.sauthCallback sauth.serial status acts

/-- `node->next`. -/
def nextOf (s : State) (serial : Nat) : Option Nat :=
  (((s.sauthList.map Sauth.serial).dropWhile fun other => other ≠ serial).drop 1).head?

/-- The loop of `sauth_recover`; the next query is taken down before the callback. -/
def recoverLoop (acts : Nat → List Act) : Nat → State → Option Nat → Option State
  | 0, s, _ => some s
  | _ + 1, s, none => some s
  | fuel + 1, s, some serial =>
    let next := s.nextOf serial
    (s.sauthCallback serial .error (acts serial)).bind fun s => recoverLoop acts fuel s next

/-- `sauth_recover`. -/
def sauthRecover (s : State) (acts : Nat → List Act) : Option State :=
  recoverLoop acts s.sauthList.length s (s.sauthList.map Sauth.serial).head?

end State

/-- What happens to the queries; with it comes what the callbacks do. -/
inductive Event where
  | start (type : SauthType)
  | delete (serial : Nat)
  | timeout (serial : Nat) (acts : List Act)
  | reply (reply : Reply) (acts : List Act)
  | recover (acts : Nat → List Act)

namespace State

/-- One event; there is no result when a query is used that is not there any more.  Only a
timer that runs can fire. -/
def step (s : State) : Event → Option State
  | .start type => some (s.sauthNew type)
  | .delete serial => s.sauthDelete serial
  | .timeout serial acts => if s.Armed serial then s.sauthTimeout serial acts else some s
  | .reply reply acts => s.sauthParse reply acts
  | .recover acts => s.sauthRecover acts

/-! ## What is asked of the callbacks -/

/-- The callback of each query that was started has been called once, or it will be called,
since the timer is running, or the query was deleted before. -/
def Accounted (s : State) : Prop :=
  ∀ serial < s.serial, s.calls serial = 1 ∨
    s.calls serial = 0 ∧ (s.Armed serial ∨ ¬ s.Live serial)

/-- An event uses no query that is not there, and accounts for all. -/
def Sound (s : State) (event : Event) : Prop :=
  ∃ s', s.step event = some s' ∧ s'.Accounted

/-! ## The condition -/

/-- A callback deletes queries that are there. -/
def ActsFit : State → List Act → Prop
  | _, [] => True
  | s, .start type :: acts => (s.sauthNew type).ActsFit acts
  | s, .delete serial :: acts => s.Live serial ∧ (s.remove serial).ActsFit acts

/-- The queries after a callback. -/
def afterActs : State → List Act → State
  | s, [] => s
  | s, .start type :: acts => (s.sauthNew type).afterActs acts
  | s, .delete serial :: acts => (s.remove serial).afterActs acts

/-- The condition on the callbacks of `sauth_recover`, for these queries in turn: each of
those that are still there has not been called, and its callback does not delete the one
that is next. -/
def RecoverFits (acts : Nat → List Act) : State → List Nat → Prop
  | _, [] => True
  | s, serial :: rest =>
    if s.Live serial then
      s.Armed serial ∧ (s.mark serial .error).ActsFit (acts serial) ∧
        (∀ next, rest.find? (fun other => s.Live other) = some next →
          .delete next ∉ acts serial) ∧
        RecoverFits acts ((s.mark serial .error).afterActs (acts serial)) rest
    else RecoverFits acts s rest

/-- The condition on an event. -/
def Fits (s : State) : Event → Prop
  | .start _ => True
  | .delete serial => s.Live serial
  | .timeout serial acts => s.Armed serial →
    (s.mark serial .timeout).ActsFit acts ∧ .delete serial ∉ acts
  | .reply reply acts => ∀ sauth status, s.replied reply = some (sauth, status) →
    s.Armed sauth.serial ∧ (s.mark sauth.serial status).ActsFit acts
  | .recover acts => RecoverFits acts s (s.sauthList.map Sauth.serial)

/-! ## Single operations -/

variable {s : State} {serial other : Nat}

/-- The serial numbers of the queries on the list. -/
def serials (s : State) : List Nat :=
  s.sauthList.map Sauth.serial

theorem live_sauthNew (type : SauthType) :
    (s.sauthNew type).Live serial ↔ serial = s.serial ∨ s.Live serial := by
  simp [Live, sauthNew]

theorem live_remove : (s.remove other).Live serial ↔ serial ≠ other ∧ s.Live serial := by
  unfold Live remove
  rw [List.mem_map, List.mem_map]
  constructor
  · rintro ⟨sauth, mem, rfl⟩
    obtain ⟨mem, differ⟩ := List.mem_filter.mp mem
    exact ⟨by simpa using differ, sauth, mem, rfl⟩
  · rintro ⟨differ, sauth, mem, rfl⟩
    exact ⟨sauth, List.mem_filter.mpr ⟨mem, by simpa using differ⟩, rfl⟩

theorem serials_mark (status : Status) : (s.mark other status).serials = s.serials := by
  unfold serials mark
  rw [List.map_map]
  apply List.map_congr_left
  intro sauth _
  rw [Function.comp_apply]
  split <;> rfl

theorem live_mark (status : Status) : (s.mark other status).Live serial ↔ s.Live serial := by
  show serial ∈ (s.mark other status).serials ↔ serial ∈ s.serials
  rw [serials_mark]

theorem armed_sauthNew (type : SauthType) :
    (s.sauthNew type).Armed serial ↔ serial = s.serial ∨ s.Armed serial := by
  constructor
  · rintro ⟨sauth, mem, rfl, runs⟩
    rcases List.mem_cons.mp mem with rfl | mem
    · exact .inl rfl
    · exact .inr ⟨sauth, mem, rfl, runs⟩
  · rintro (rfl | ⟨sauth, mem, same, runs⟩)
    · exact ⟨_, List.mem_cons_self, rfl, rfl⟩
    · exact ⟨sauth, List.mem_cons_of_mem _ mem, same, runs⟩

theorem armed_remove : (s.remove other).Armed serial ↔ serial ≠ other ∧ s.Armed serial := by
  constructor
  · rintro ⟨sauth, mem, rfl, runs⟩
    obtain ⟨mem, differ⟩ := List.mem_filter.mp mem
    exact ⟨by simpa using differ, sauth, mem, rfl, runs⟩
  · rintro ⟨differ, sauth, mem, rfl, runs⟩
    exact ⟨sauth, List.mem_filter.mpr ⟨mem, by simpa using differ⟩, rfl, runs⟩

theorem armed_mark (status : Status) :
    (s.mark other status).Armed serial ↔ serial ≠ other ∧ s.Armed serial := by
  constructor
  · rintro ⟨_, mem, rfl, runs⟩
    obtain ⟨sauth, listed, rfl⟩ := List.mem_map.mp mem
    split at runs
    · cases runs
    · rename_i differ
      rw [if_neg differ]
      exact ⟨differ, sauth, listed, rfl, runs⟩
  · rintro ⟨differ, sauth, mem, rfl, runs⟩
    exact ⟨sauth, List.mem_map.mpr ⟨sauth, mem, if_neg differ⟩, rfl, runs⟩

theorem Armed.live (armed : s.Armed serial) : s.Live serial := by
  obtain ⟨sauth, mem, rfl, _⟩ := armed
  exact List.mem_map_of_mem mem

/-! ## The invariant -/

/-- Queries have numbers of their own, and a timer runs until the first call. -/
structure Listed (s : State) : Prop where
  bound : ∀ serial, s.Live serial → serial < s.serial
  distinct : s.serials.Nodup
  armed : ∀ serial, s.Live serial → (s.Armed serial ↔ s.calls serial = 0)
  fresh : ∀ serial, s.serial ≤ serial → s.calls serial = 0

/-- And there is no second call. -/
structure Inv (s : State) : Prop extends Listed s where
  once : ∀ serial, s.calls serial ≤ 1

theorem inv_init : init.Inv where
  bound := fun _ live => by cases live
  distinct := List.nodup_nil
  armed := fun _ live => by cases live
  fresh := fun _ _ => rfl
  once := fun _ => Nat.zero_le _

theorem Inv.accounted (inv : s.Inv) : s.Accounted := by
  intro serial _
  have once := inv.once serial
  by_cases called : s.calls serial = 0
  · refine .inr ⟨called, ?_⟩
    by_cases live : s.Live serial
    · exact .inl ((inv.armed serial live).mpr called)
    · exact .inr live
  · exact .inl (by omega)

theorem Listed.inv (listed : s.Listed) (accounted : s.Accounted) : s.Inv := by
  refine ⟨listed, fun serial => ?_⟩
  rcases Nat.lt_or_ge serial s.serial with old | later
  · rcases accounted serial old with once | ⟨never, _⟩
    · exact Nat.le_of_eq once
    · exact Nat.le_of_lt (Nat.lt_succ_of_le (Nat.le_of_eq never))
  · exact Nat.le_of_lt (Nat.lt_succ_of_le (Nat.le_of_eq (listed.fresh serial later)))

theorem Listed.sauthNew (listed : s.Listed) (type : SauthType) : (s.sauthNew type).Listed := by
  have absent : ¬ s.Live s.serial := fun live => Nat.lt_irrefl _ (listed.bound _ live)
  constructor
  · intro serial live
    rcases (live_sauthNew type).mp live with rfl | live
    · exact Nat.lt_succ_self _
    · exact Nat.lt_succ_of_lt (listed.bound serial live)
  · exact List.nodup_cons.mpr ⟨absent, listed.distinct⟩
  · intro serial live
    rw [armed_sauthNew]
    rcases (live_sauthNew type).mp live with rfl | live
    · exact iff_of_true (.inl rfl) (listed.fresh _ (Nat.le_refl _))
    · refine Iff.trans (or_iff_right ?_) (listed.armed serial live)
      rintro rfl
      exact absent live
  · exact fun serial later => listed.fresh serial (Nat.le_of_succ_le later)

theorem Listed.remove (listed : s.Listed) (other : Nat) : (s.remove other).Listed := by
  constructor
  · exact fun serial live => listed.bound serial (live_remove.mp live).2
  · exact listed.distinct.sublist (List.filter_sublist.map _)
  · intro serial live
    obtain ⟨differ, live⟩ := live_remove.mp live
    rw [armed_remove, and_iff_right differ]
    exact listed.armed serial live
  · exact listed.fresh

theorem Listed.mark (listed : s.Listed) (there : s.Live other) (status : Status) :
    (s.mark other status).Listed := by
  constructor
  · exact fun serial live => listed.bound serial ((live_mark status).mp live)
  · rw [serials_mark]
    exact listed.distinct
  · intro serial live
    rw [armed_mark]
    by_cases same : serial = other
    · subst same
      simp [State.mark]
    · rw [and_iff_right same, listed.armed serial ((live_mark status).mp live)]
      simp [State.mark, same]
  · intro serial later
    have differ : serial ≠ other := by
      rintro rfl
      exact Nat.not_lt.mpr later (listed.bound serial there)
    simpa [State.mark, differ] using listed.fresh serial later

theorem Inv.sauthNew (inv : s.Inv) (type : SauthType) : (s.sauthNew type).Inv :=
  ⟨inv.toListed.sauthNew type, inv.once⟩

theorem Inv.remove (inv : s.Inv) (other : Nat) : (s.remove other).Inv :=
  ⟨inv.toListed.remove other, inv.once⟩

theorem Inv.mark (inv : s.Inv) (armed : s.Armed other) (status : Status) :
    (s.mark other status).Inv := by
  have zero : s.calls other = 0 := (inv.armed other armed.live).mp armed
  refine ⟨inv.toListed.mark armed.live status, fun serial => ?_⟩
  by_cases same : serial = other
  · subst same
    simp [State.mark, zero]
  · simpa [State.mark, same] using inv.once serial

/-! ## Callbacks -/

theorem runActs_of_fit {acts : List Act} (fit : s.ActsFit acts) :
    s.runActs acts = some (s.afterActs acts) := by
  induction acts generalizing s with
  | nil => rfl
  | cons act acts induction =>
      cases act with
      | start type => exact induction fit
      | delete serial =>
          obtain ⟨live, fit⟩ := fit
          rw [runActs, sauthDelete, if_pos live]
          exact induction fit

theorem runActs_of_not_fit {acts : List Act} (unfit : ¬ s.ActsFit acts) :
    s.runActs acts = none := by
  induction acts generalizing s with
  | nil => exact absurd trivial unfit
  | cons act acts induction =>
      cases act with
      | start type => exact induction unfit
      | delete serial =>
          rw [runActs, sauthDelete]
          split
          · rename_i live
            exact induction fun fit => unfit ⟨live, fit⟩
          · rfl

theorem Listed.afterActs (listed : s.Listed) (acts : List Act) : (s.afterActs acts).Listed := by
  induction acts generalizing s with
  | nil => exact listed
  | cons act acts induction =>
      cases act with
      | start type => exact induction (listed.sauthNew type)
      | delete serial => exact induction (listed.remove serial)

theorem calls_afterActs (s : State) (acts : List Act) : (s.afterActs acts).calls = s.calls := by
  induction acts generalizing s with
  | nil => rfl
  | cons act acts induction =>
      cases act with
      | start type => exact induction _
      | delete serial => exact induction _

theorem Inv.afterActs (inv : s.Inv) (acts : List Act) : (s.afterActs acts).Inv := by
  refine ⟨inv.toListed.afterActs acts, fun serial => ?_⟩
  rw [calls_afterActs]
  exact inv.once serial

theorem serial_le_afterActs (s : State) (acts : List Act) :
    s.serial ≤ (s.afterActs acts).serial := by
  induction acts generalizing s with
  | nil => exact Nat.le_refl _
  | cons act acts induction =>
      cases act with
      | start type => exact Nat.le_trans (Nat.le_succ _) (induction (s.sauthNew type))
      | delete serial => exact induction (s.remove serial)

/-- Of the queries that are there before the callback, those are left that it does not
delete. -/
theorem live_afterActs {acts : List Act} (old : serial < s.serial) :
    (s.afterActs acts).Live serial ↔ s.Live serial ∧ .delete serial ∉ acts := by
  induction acts generalizing s with
  | nil => simp [afterActs]
  | cons act acts induction =>
      cases act with
      | start type =>
          rw [afterActs, @induction (s.sauthNew type) (Nat.lt_succ_of_lt old), live_sauthNew,
            or_iff_right (Nat.ne_of_lt old)]
          simp
      | delete other =>
          rw [afterActs, @induction (s.remove other) old, live_remove, List.mem_cons, not_or,
            Act.delete.injEq]
          constructor
          · exact fun left => ⟨left.1.2, left.1.1, left.2⟩
          · exact fun left => ⟨⟨left.2.1, left.1⟩, left.2.2⟩

/-- Queries that a callback starts come to the front of the list. -/
theorem serials_afterActs {acts : List Act} (listed : s.Listed) (fit : s.ActsFit acts) :
    ∃ newer, (s.afterActs acts).serials =
      newer ++ s.serials.filter fun serial => (s.afterActs acts).Live serial := by
  induction acts generalizing s with
  | nil =>
      refine ⟨[], ?_⟩
      rw [List.nil_append, eq_comm]
      exact List.filter_eq_self.mpr fun serial live => decide_eq_true live
  | cons act acts induction =>
      cases act with
      | start type =>
          obtain ⟨newer, same⟩ := induction (listed.sauthNew type) fit
          have front : (s.sauthNew type).serials = s.serial :: s.serials := rfl
          rw [front, List.filter_cons] at same
          rw [afterActs]
          split at same
          · exact ⟨newer ++ [s.serial], by rw [same]; simp⟩
          · exact ⟨newer, same⟩
      | delete other =>
          obtain ⟨live, fit⟩ := fit
          obtain ⟨newer, same⟩ := induction (listed.remove other) fit
          refine ⟨newer, same.trans ?_⟩
          have removed : (s.remove other).serials =
              s.serials.filter fun serial => serial ≠ other := by
            unfold serials State.remove
            rw [List.filter_map]
            rfl
          rw [removed, List.filter_filter, afterActs]
          congr 1
          apply List.filter_congr
          intro serial mem
          have old : serial < (s.remove other).serial := listed.bound serial mem
          have left := @live_afterActs (s.remove other) serial acts old
          rw [live_remove] at left
          by_cases there : ((s.remove other).afterActs acts).Live serial
          · simp [there, (left.mp there).1.1]
          · simp [there]

theorem sauthCallback_of_fit {acts : List Act} (live : s.Live serial) (status : Status)
    (fit : (s.mark serial status).ActsFit acts) :
    s.sauthCallback serial status acts = some ((s.mark serial status).afterActs acts) := by
  rw [sauthCallback, if_pos live]
  exact runActs_of_fit fit

theorem sauthCallback_of_not_fit {acts : List Act} (status : Status)
    (unfit : ¬ (s.mark serial status).ActsFit acts) :
    s.sauthCallback serial status acts = none := by
  rw [sauthCallback]
  split
  · exact runActs_of_not_fit unfit
  · rfl

/-- Calls are not taken back. -/
theorem calls_le_sauthCallback {acts : List Act} {status : Status} {s' : State}
    (result : s.sauthCallback serial status acts = some s') :
    (∀ other, s.calls other ≤ s'.calls other) ∧ s.calls serial + 1 ≤ s'.calls serial ∧
      s.serial ≤ s'.serial := by
  by_cases fit : (s.mark serial status).ActsFit acts
  · by_cases live : s.Live serial
    · rw [sauthCallback_of_fit live status fit] at result
      cases result
      rw [calls_afterActs]
      refine ⟨fun other => ?_, ?_, serial_le_afterActs (s.mark serial status) acts⟩
      · by_cases same : other = serial
        · subst same
          simp [mark]
        · simp [mark, same]
      · simp [mark]
    · rw [sauthCallback, if_neg live] at result
      cases result
  · rw [sauthCallback_of_not_fit status fit] at result
    cases result

theorem not_accounted_of_twice (twice : 2 ≤ s.calls serial) (old : serial < s.serial) :
    ¬ s.Accounted := by
  intro accounted
  rcases accounted serial old with once | ⟨never, _⟩ <;> omega

/-- Where a query has been called, calling it again does not account for it. -/
theorem Inv.twice (inv : s.Inv) (live : s.Live serial) (called : ¬ s.Armed serial)
    {acts : List Act} {status : Status} {s' : State}
    (result : s.sauthCallback serial status acts = some s') :
    2 ≤ s'.calls serial ∧ serial < s'.serial := by
  have once := inv.once serial
  have notZero : s.calls serial ≠ 0 := fun zero => called ((inv.armed serial live).mpr zero)
  have old := inv.bound serial live
  obtain ⟨_, more, later⟩ := calls_le_sauthCallback result
  omega

/-- The callback of a query that has not been called. -/
theorem Inv.sauthCallback_iff (inv : s.Inv) (live : s.Live serial) (status : Status)
    (acts : List Act) :
    (∃ s', s.sauthCallback serial status acts = some s' ∧ s'.Accounted) ↔
      s.Armed serial ∧ (s.mark serial status).ActsFit acts := by
  constructor
  · rintro ⟨s', result, accounted⟩
    constructor
    · by_contra called
      obtain ⟨twice, old⟩ := inv.twice live called result
      exact not_accounted_of_twice twice old accounted
    · by_contra unfit
      rw [sauthCallback_of_not_fit status unfit] at result
      cases result
  · rintro ⟨armed, fit⟩
    exact ⟨_, sauthCallback_of_fit live status fit,
      ((inv.mark armed status).afterActs acts).accounted⟩

/-! ## `sauth_recover` -/

theorem calls_le_recoverLoop {acts : Nat → List Act} {fuel : Nat} {next : Option Nat}
    {s' : State} (result : recoverLoop acts fuel s next = some s') :
    (∀ other, s.calls other ≤ s'.calls other) ∧ s.serial ≤ s'.serial := by
  induction fuel generalizing s next with
  | zero =>
      cases result
      exact ⟨fun _ => Nat.le_refl _, Nat.le_refl _⟩
  | succ fuel induction =>
      cases next with
      | none =>
          cases result
          exact ⟨fun _ => Nat.le_refl _, Nat.le_refl _⟩
      | some serial =>
          obtain ⟨middle, called, result⟩ := Option.bind_eq_some_iff.mp result
          obtain ⟨first, _, later⟩ := calls_le_sauthCallback called
          obtain ⟨rest, latest⟩ := induction result
          exact ⟨fun other => Nat.le_trans (first other) (rest other), Nat.le_trans later latest⟩

/-- The next query is the first one of the others that is still there. -/
theorem nextOf_eq {rest newer : List Nat} (distinct : s.serials.Nodup)
    (order : s.serials = newer ++ serial :: rest) : s.nextOf serial = rest.head? := by
  have before : serial ∉ newer := by
    rw [order] at distinct
    intro mem
    exact (List.nodup_append.mp distinct).2.2 serial mem serial List.mem_cons_self rfl
  show ((s.serials.dropWhile fun other => other ≠ serial).drop 1).head? = rest.head?
  rw [order, List.dropWhile_append_of_pos]
  · simp
  · intro other mem
    have differ : other ≠ serial := fun same => before (same ▸ mem)
    simpa using differ

/-- Where the first of the queries that were there is left, it is the first of those that
are left. -/
theorem find?_of_left {there left : Nat → Prop} [DecidablePred there] [DecidablePred left]
    {rest : List Nat} (less : ∀ other ∈ rest, left other → there other)
    (spared : ∀ next, (rest.find? fun other => there other) = some next → left next) :
    (rest.find? fun other => left other) = rest.find? fun other => there other := by
  induction rest with
  | nil => rfl
  | cons serial rest induction =>
      rw [List.find?_cons, List.find?_cons] at *
      by_cases before : there serial
      · have kept : left serial := spared serial (by simp [before])
        simp [before, kept]
      · have gone : ¬ left serial := fun kept => before (less serial List.mem_cons_self kept)
        simp only [before, gone, decide_false] at spared ⊢
        exact induction (fun other mem => less other (List.mem_cons_of_mem _ mem)) spared

/-- A callback keeps those of the later queries that it does not delete, and their order. -/
theorem Listed.order_afterActs (listed : s.Listed) {acts : List Act} {newer rest : List Nat}
    (fit : s.ActsFit acts) (old : ∀ other ∈ rest, other < s.serial)
    (order : s.serials = newer ++ serial :: rest.filter fun other => s.Live other) :
    ∃ newest, (s.afterActs acts).serials =
      newest ++ rest.filter fun other => (s.afterActs acts).Live other := by
  obtain ⟨front, same⟩ := serials_afterActs listed fit
  have kept : ((rest.filter fun other => s.Live other).filter fun other =>
      (s.afterActs acts).Live other) =
        rest.filter fun other => (s.afterActs acts).Live other := by
    rw [List.filter_filter]
    apply List.filter_congr
    intro other mem
    by_cases there : (s.afterActs acts).Live other
    · simp [there, ((live_afterActs (old other mem)).mp there).1]
    · simp [there]
  rw [order, List.filter_append, List.filter_cons, kept] at same
  split at same
  · exact ⟨front ++ (newer.filter fun other => (s.afterActs acts).Live other) ++ [serial],
      by rw [same]; simp⟩
  · exact ⟨front ++ newer.filter fun other => (s.afterActs acts).Live other,
      by rw [same]; simp⟩

/-- The loop goes through the queries that are still there when their turn comes. -/
theorem Inv.recoverLoop_iff (inv : s.Inv) (acts : Nat → List Act) {rest : List Nat}
    {fuel : Nat} (old : ∀ serial ∈ rest, serial < s.serial) (enough : rest.length ≤ fuel)
    (order : ∃ newer, s.serials = newer ++ rest.filter fun serial => s.Live serial) :
    (∃ s', recoverLoop acts fuel s (rest.find? fun serial => s.Live serial) = some s' ∧
      s'.Accounted) ↔ RecoverFits acts s rest := by
  induction rest generalizing s fuel with
  | nil =>
      refine iff_of_true ⟨s, ?_, inv.accounted⟩ trivial
      cases fuel <;> rfl
  | cons serial rest induction =>
      obtain ⟨newer, order⟩ := order
      have older : ∀ other ∈ rest, other < s.serial :=
        fun other mem => old other (List.mem_cons_of_mem _ mem)
      obtain ⟨fuel, rfl⟩ : ∃ n, fuel = n + 1 :=
        Nat.exists_eq_succ_of_ne_zero (by rw [List.length_cons] at enough; omega)
      have enough' : rest.length ≤ fuel := Nat.le_of_succ_le_succ enough
      rw [RecoverFits]
      by_cases live : s.Live serial
      · rw [List.filter_cons, if_pos (by simpa using live)] at order
        have first : ((serial :: rest).find? fun other => s.Live other) = some serial := by
          rw [List.find?_cons]
          simp [live]
        have next : s.nextOf serial = rest.find? fun other => s.Live other := by
          rw [nextOf_eq inv.distinct order, List.head?_filter]
        rw [first, if_pos live, recoverLoop, next]
        by_cases fit : (s.mark serial .error).ActsFit (acts serial)
        · by_cases armed : s.Armed serial
          · have marked := inv.mark armed .error
            have left : ∀ other ∈ rest,
                ((s.mark serial .error).afterActs (acts serial)).Live other ↔
                  s.Live other ∧ .delete other ∉ acts serial := by
              intro other mem
              rw [@live_afterActs (s.mark serial .error) other _ (older other mem), live_mark]
            rw [sauthCallback_of_fit live .error fit, Option.bind_some, and_iff_right armed,
              and_iff_right fit]
            by_cases spared : ∀ next, (rest.find? fun other => s.Live other) = some next →
                .delete next ∉ acts serial
            · rw [and_iff_right spared, ← @find?_of_left s.Live
                ((s.mark serial .error).afterActs (acts serial)).Live _ _ rest
                (fun other mem kept => ((left other mem).mp kept).1) fun next found =>
                  (left next (List.mem_of_find?_eq_some found)).mpr
                    ⟨by simpa using List.find?_some found, spared next found⟩]
              refine induction (marked.afterActs (acts serial)) ?_ enough' ?_
              · exact fun other mem => Nat.lt_of_lt_of_le (older other mem)
                  (serial_le_afterActs (s.mark serial .error) _)
              · have order' : (s.mark serial .error).serials = newer ++
                    serial :: rest.filter fun other => (s.mark serial .error).Live other := by
                  rw [serials_mark, order]
                  simp only [live_mark]
                exact marked.toListed.order_afterActs fit older order'
            · refine iff_of_false ?_ fun fits => spared fits.1
              push Not at spared
              obtain ⟨next, found, deleted⟩ := spared
              have mem := List.mem_of_find?_eq_some found
              have gone : ¬ ((s.mark serial .error).afterActs (acts serial)).Live next :=
                fun kept => ((left next mem).mp kept).2 deleted
              obtain ⟨fuel, rfl⟩ : ∃ n, fuel = n + 1 :=
                Nat.exists_eq_succ_of_ne_zero (by
                  have := List.length_pos_of_mem mem
                  omega)
              rw [found, recoverLoop, State.sauthCallback, if_neg gone]
              rintro ⟨s', result, _⟩
              cases result
          · refine iff_of_false ?_ fun fits => armed fits.1
            rintro ⟨s', result, accounted⟩
            obtain ⟨middle, called, result⟩ := Option.bind_eq_some_iff.mp result
            obtain ⟨twice, before⟩ := inv.twice live armed called
            obtain ⟨more, later⟩ := calls_le_recoverLoop result
            exact not_accounted_of_twice (Nat.le_trans twice (more serial))
              (Nat.lt_of_lt_of_le before later) accounted
        · refine iff_of_false ?_ fun fits => fit fits.2.1
          rw [sauthCallback_of_not_fit .error fit]
          rintro ⟨s', result, _⟩
          cases result
      · rw [List.filter_cons, if_neg (by simpa using live)] at order
        have first : ((serial :: rest).find? fun other => s.Live other) =
            rest.find? fun other => s.Live other := by
          rw [List.find?_cons]
          simp [live]
        rw [first, if_neg live]
        exact induction inv older (Nat.le_succ_of_le enough') ⟨newer, order⟩

/-! ## Events -/

theorem mem_of_replied {reply : Reply} {sauth : Sauth} {status : Status}
    (found : s.replied reply = some (sauth, status)) : sauth ∈ s.sauthList := by
  have searched : ∃ id, s.sauthFind id = some sauth := by
    cases reply with
    | dns forward id =>
        obtain ⟨same, find, equal⟩ := Option.map_eq_some_iff.mp found
        cases equal
        exact ⟨id, find⟩
    | auth id | proxy id | userdb id =>
        obtain ⟨same, find, equal⟩ := Option.map_eq_some_iff.mp found
        cases equal
        exact ⟨id, find⟩
    | invalid => cases found
  obtain ⟨id, find⟩ := searched
  exact List.mem_of_find?_eq_some find

theorem live_of_replied {reply : Reply} {sauth : Sauth} {status : Status}
    (found : s.replied reply = some (sauth, status)) : s.Live sauth.serial :=
  List.mem_map_of_mem (mem_of_replied found)

/-- After its callback `sauth_timeout` has a query only if the callback left it. -/
theorem Inv.sauthTimeout_iff (inv : s.Inv) (armed : s.Armed serial) (acts : List Act) :
    (∃ s', s.sauthTimeout serial acts = some s' ∧ s'.Accounted) ↔
      (s.mark serial .timeout).ActsFit acts ∧ .delete serial ∉ acts := by
  by_cases fit : (s.mark serial .timeout).ActsFit acts
  · have left := @live_afterActs (s.mark serial .timeout) serial acts
      (inv.bound serial armed.live)
    rw [live_mark, and_iff_right armed.live] at left
    rw [sauthTimeout, sauthCallback_of_fit armed.live .timeout fit, Option.bind_some,
      and_iff_right fit]
    by_cases there : ((s.mark serial .timeout).afterActs acts).Live serial
    · rw [if_pos there]
      exact iff_of_true ⟨_, rfl, ((inv.mark armed .timeout).afterActs acts).accounted⟩
        (left.mp there)
    · rw [if_neg there]
      refine iff_of_false ?_ fun spared => there (left.mpr spared)
      rintro ⟨s', result, _⟩
      cases result
  · refine iff_of_false ?_ fun fits => fit fits.1
    rw [sauthTimeout, sauthCallback_of_not_fit .timeout fit]
    rintro ⟨s', result, _⟩
    cases result

theorem Inv.sauthRecover_iff (inv : s.Inv) (acts : Nat → List Act) :
    (∃ s', s.sauthRecover acts = some s' ∧ s'.Accounted) ↔ RecoverFits acts s s.serials := by
  have all : (s.serials.filter fun serial => s.Live serial) = s.serials :=
    List.filter_eq_self.mpr fun serial live => decide_eq_true live
  have fuel : s.serials.length ≤ s.sauthList.length :=
    Nat.le_of_eq (by rw [serials, List.length_map])
  have loop := @Inv.recoverLoop_iff s inv acts s.serials s.sauthList.length inv.bound fuel
    ⟨[], by rw [all, List.nil_append]⟩
  rw [← List.head?_filter, all] at loop
  exact loop

/-- An event is sound if and only if it meets the condition. -/
theorem Inv.sound_iff_fits (inv : s.Inv) (event : Event) : s.Sound event ↔ s.Fits event := by
  cases event with
  | start type => exact iff_of_true ⟨_, rfl, (inv.sauthNew type).accounted⟩ trivial
  | delete serial =>
      show (∃ s', s.sauthDelete serial = some s' ∧ s'.Accounted) ↔ s.Live serial
      rw [State.sauthDelete]
      split
      · rename_i live
        exact iff_of_true ⟨_, rfl, (inv.remove serial).accounted⟩ live
      · rename_i gone
        refine iff_of_false ?_ gone
        rintro ⟨s', result, _⟩
        cases result
  | timeout serial acts =>
      show (∃ s', (if s.Armed serial then s.sauthTimeout serial acts else some s) = some s' ∧
        s'.Accounted) ↔ _
      split
      · rename_i armed
        rw [inv.sauthTimeout_iff armed acts]
        exact ⟨fun fits _ => fits, fun fits => fits armed⟩
      · rename_i idle
        exact iff_of_true ⟨s, rfl, inv.accounted⟩ fun armed => absurd armed idle
  | reply reply acts =>
      show (∃ s', s.sauthParse reply acts = some s' ∧ s'.Accounted) ↔
        ∀ sauth status, s.replied reply = some (sauth, status) →
          s.Armed sauth.serial ∧ (s.mark sauth.serial status).ActsFit acts
      rw [sauthParse]
      cases found : s.replied reply with
      | none => exact iff_of_true ⟨s, rfl, inv.accounted⟩ (by simp)
      | some both =>
          obtain ⟨sauth, status⟩ := both
          rw [show (∃ s', s.sauthCallback sauth.serial status acts = some s' ∧
            s'.Accounted) ↔ _ from inv.sauthCallback_iff (live_of_replied found) status acts]
          constructor
          · rintro fits _ _ ⟨⟩
            exact fits
          · exact fun fits => fits sauth status rfl
  | recover acts => exact inv.sauthRecover_iff acts

/-! ## Runs -/

theorem Listed.sauthCallback {acts : List Act} {status : Status} {s' : State}
    (listed : s.Listed) (result : s.sauthCallback serial status acts = some s') :
    s'.Listed := by
  by_cases fit : (s.mark serial status).ActsFit acts
  · by_cases live : s.Live serial
    · rw [sauthCallback_of_fit live status fit] at result
      cases result
      exact (listed.mark live status).afterActs acts
    · rw [State.sauthCallback, if_neg live] at result
      cases result
  · rw [sauthCallback_of_not_fit status fit] at result
    cases result

theorem Listed.recoverLoop {acts : Nat → List Act} {fuel : Nat} {next : Option Nat}
    {s' : State} (listed : s.Listed) (result : recoverLoop acts fuel s next = some s') :
    s'.Listed := by
  induction fuel generalizing s next with
  | zero =>
      cases result
      exact listed
  | succ fuel induction =>
      cases next with
      | none =>
          cases result
          exact listed
      | some serial =>
          obtain ⟨middle, called, result⟩ := Option.bind_eq_some_iff.mp result
          exact induction (listed.sauthCallback called) result

theorem Listed.step {event : Event} {s' : State} (listed : s.Listed)
    (result : s.step event = some s') : s'.Listed := by
  cases event with
  | start type =>
      cases result
      exact listed.sauthNew type
  | delete serial =>
      rw [State.step, sauthDelete] at result
      split at result
      · cases result
        exact listed.remove serial
      · cases result
  | timeout serial acts =>
      rw [State.step] at result
      split at result
      · obtain ⟨middle, called, result⟩ := Option.bind_eq_some_iff.mp result
        split at result
        · cases result
          exact listed.sauthCallback called
        · cases result
      · cases result
        exact listed
  | reply reply acts =>
      rw [State.step, sauthParse] at result
      split at result
      · cases result
        exact listed
      · exact listed.sauthCallback result
  | recover acts => exact listed.recoverLoop result

theorem Inv.step {event : Event} {s' : State} (inv : s.Inv) (fits : s.Fits event)
    (result : s.step event = some s') : s'.Inv := by
  obtain ⟨next, same, accounted⟩ := (inv.sound_iff_fits event).mpr fits
  rw [result] at same
  cases same
  exact (inv.toListed.step result).inv accounted

/-- In every run the queries are handled as they should be if and only if every event meets
the condition. -/
theorem handled_run_iff (events : List Event) :
    TransitionSystem.GuardedRun step Sound init events ↔
      TransitionSystem.GuardedRun step Fits init events :=
  @TransitionSystem.guardedRun_congr State Event step (fun _ _ => True) Sound Fits Inv
    (fun _ event inv _ => inv.sound_iff_fits event)
    (fun _ _ _ inv _ fits result => inv.step fits result) init events inv_init
    (TransitionSystem.guardedRun_of_forall (fun _ _ => trivial) init events)

/-! ## The callbacks of `lc_sauth` -/

/-- `lc_sauth_dns`, where `sauth_auth` can start its query. -/
def lcSauthDns (serial : Nat) : List Act :=
  [.start .auth, .delete serial]

/-- `lc_sauth_auth`, with so many entries in `m_proxy_list`. -/
def lcSauthAuth (checks serial : Nat) : List Act :=
  List.replicate checks (.start .proxy) ++ [.delete serial]

/-- `lc_sauth_proxy`: where the proxy is open, `lc_sauth_done` deletes the other queries of
the client. -/
def lcSauthProxy (isOpen : Bool) (others : List Nat) (serial : Nat) : List Act :=
  (if isOpen then others.map .delete else []) ++ [.delete serial]

/-- All three delete their query, and so none of them suits `sauth_timeout`. -/
theorem not_fits_timeout (armed : s.Armed serial) {acts : List Act}
    (script : acts = lcSauthDns serial ∨ (∃ checks, acts = lcSauthAuth checks serial) ∨
      ∃ isOpen others, acts = lcSauthProxy isOpen others serial) :
    ¬ s.Fits (.timeout serial acts) := by
  intro fits
  apply (fits armed).2
  rcases script with rfl | ⟨checks, rfl⟩ | ⟨isOpen, others, rfl⟩
  · exact List.mem_cons_of_mem _ List.mem_cons_self
  · exact List.mem_append_right _ List.mem_cons_self
  · exact List.mem_append_right _ List.mem_cons_self

/-- Where a proxy is open when the child dies and another check of the client is next, that
does not suit `sauth_recover`. -/
theorem not_recoverFits_of_open {acts : Nat → List Act} {others rest : List Nat} {next : Nat}
    (live : s.Live serial) (script : acts serial = lcSauthProxy true others serial)
    (following : (rest.find? fun other => s.Live other) = some next) (mem : next ∈ others) :
    ¬ RecoverFits acts s (serial :: rest) := by
  rw [RecoverFits, if_pos live]
  rintro ⟨_, _, spared, _⟩
  apply spared next following
  rw [script, lcSauthProxy, if_pos rfl]
  exact List.mem_append_left _ (List.mem_map_of_mem mem)

end State

/-- `lc_sauth` asks for the name of a client, and the child does not answer in time. -/
def unanswered : List Event :=
  [.start .dnsr, .timeout 0 (State.lcSauthDns 0)]

/-- The callback has freed the query when `sauth_timeout` comes to cancel its timer. -/
theorem unanswered_uses_freed :
    ¬ TransitionSystem.GuardedRun State.step State.Sound State.init unanswered := by
  intro sound
  let s : State := ⟨[⟨0, .dnsr, none, true⟩], 1, fun _ => 0⟩
  have started : State.init.step (.start .dnsr) = some s := rfl
  rw [unanswered, TransitionSystem.GuardedRun, started] at sound
  obtain ⟨s', result, _⟩ := sound.2.1
  have freed : s.step (.timeout 0 (State.lcSauthDns 0)) = none := rfl
  rw [freed] at result
  cases result

end ServauthQueries

end Chaosircd
