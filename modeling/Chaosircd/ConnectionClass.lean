import Chaosircd.CString
import Chaosircd.TransitionSystem
import Mathlib.Data.List.Perm.Basic
import Mathlib.Tactic.Common

/-!
# Limits of the connection classes

A class does not know its clients.  It counts references, and `lclient_accept` takes the
numbers of `listen{}` and `connect{}` blocks off the count, as if each of them held one: in
fact the references are those of the configuration and of the local clients.  The clients
of one address are counted over two lists, in which operators and servers are not.
-/

namespace Chaosircd

namespace ConnectionClass

/-! ## Classes and clients -/

/-- `struct class`, and how many references the configuration holds to it: one of
`class_add`, one of the parser and one for each `oper{}` block. -/
structure ConnClass where
  name : CString
  maxClients : BitVec 32
  clientsPerIp : BitVec 32
  blocks : Nat
  deriving DecidableEq

/-- The configuration: the classes, `listen_list.size` and `connect_list.size`. -/
structure Config where
  classes : List ConnClass
  listens : Nat
  connects : Nat

/-- The lists that a local client can be in. -/
inductive LclientType where
  | unknown
  | user
  | server
  | oper
  deriving DecidableEq

/-- `struct lclient`: the place of its class, and the class that `lclient_accept` took for
it, if it came by a listener and has not been moved to another class. -/
structure Lclient where
  type : LclientType
  addrRemote : BitVec 32
  place : Nat
  accepted : Option Nat
  deriving DecidableEq

/-- The reference counts of the classes, and the local clients. -/
structure State where
  refcount : Nat → Nat
  clients : List Lclient

namespace Config

/-- The class at a place. -/
def classAt (conf : Config) (c : Nat) : ConnClass :=
  conf.classes.getD c ⟨[], 0, 0, 0⟩

/-- `class_find_name`; the hashes are those of the lowered names. -/
def classFindName (conf : Config) (name : CString) : Option Nat :=
  conf.classes.findIdx? fun clptr => decide (IcmpEq clptr.name name)

end Config

namespace State

/-- `class_pop`. -/
def classPop (s : State) (c : Nat) : State :=
  { s with refcount := Function.update s.refcount c (s.refcount c + 1) }

/-- `class_push`; a count of zero stays. -/
def classPush (s : State) (c : Nat) : State :=
  { s with refcount := Function.update s.refcount c (s.refcount c - 1) }

/-- `lclient_new`, and the class of the new client. -/
def link (s : State) (lcptr : Lclient) : State :=
  { s with clients := s.clients ++ [lcptr] }.classPop lcptr.place

/-- `lclient_count`. -/
def lclientCount (s : State) (ip : BitVec 32) : Nat :=
  s.clients.countP fun lcptr =>
    (lcptr.type = .unknown || lcptr.type = .user) && lcptr.addrRemote = ip

/-- The test of `lclient_accept` for the limit of the class. -/
def Full (conf : Config) (s : State) (c : Nat) : Prop :=
  (conf.classAt c).maxClients.toInt < (s.refcount c : Int) - conf.listens - conf.connects

instance (conf : Config) (s : State) (c : Nat) : Decidable (s.Full conf c) :=
  inferInstanceAs (Decidable (_ < _))

end State

/-- What happens to the local clients; the name is the one of the class in the `listen{}` or
`connect{}` block. -/
inductive Event where
  | accept (name : CString) (addr : BitVec 32)
  | connect (name : CString) (addr : BitVec 32)
  | setType (client : Nat) (type : LclientType)
  | login (client : Nat) (name : CString)
  | exit (client : Nat)

namespace State

/-- `lclient_delete` of the client at a place in the list. -/
def delete (s : State) (client : Nat) : State :=
  match s.clients[client]? with
  | none => s
  | some lcptr => { s with clients := s.clients.eraseIdx client }.classPush lcptr.place

/-- `lclient_accept` and `lclient_connect` with a valid descriptor, `lclient_set_type`, what
`server_login` does about the class of a server that has connected to a listener, and
`lclient_exit`. -/
def exec (conf : Config) (s : State) : Event → State
  | .accept name addr =>
    match conf.classFindName name with
    | none => s
    | some c =>
      if s.Full conf c then s
      else if (conf.classAt c).clientsPerIp.toNat ≤ s.lclientCount addr then s
      else s.link ⟨.unknown, addr, c, some c⟩
  | .connect name addr =>
    match conf.classFindName name with
    | none => s
    | some c => s.link ⟨.unknown, addr, c, none⟩
  | .setType client type =>
    { s with clients := s.clients.modify client fun lcptr => { lcptr with type := type } }
  | .login client name =>
    match conf.classFindName name with
    | none => s.delete client
    | some c =>
      match s.clients[client]? with
      | none => s
      | some lcptr =>
        if lcptr.place = c then s
        else
          ({ s with clients := s.clients.set client { lcptr with place := c, accepted := none } }
            |>.classPush lcptr.place).classPop c
  | .exit client => s.delete client

/-! ## The limits -/

/-- The clients that have been accepted into a class. -/
def holds (s : State) (c : Nat) : Nat :=
  s.clients.countP fun lcptr => lcptr.accepted = some c

/-- Those of one address. -/
def holdsFrom (s : State) (c : Nat) (ip : BitVec 32) : Nat :=
  s.clients.countP fun lcptr => lcptr.accepted = some c && lcptr.addrRemote = ip

/-- The other clients of a class: servers, mostly. -/
def others (s : State) (c : Nat) : Nat :=
  s.clients.countP fun lcptr => lcptr.place = c && lcptr.accepted ≠ some c

/-- No class has more clients than it may have, in all and from one address. -/
def Within (conf : Config) (s : State) : Prop :=
  ∀ c, s.holds c ≤ (conf.classAt c).maxClients.toNat ∧
    ∀ ip, s.holdsFrom c ip ≤ (conf.classAt c).clientsPerIp.toNat

/-- A connection that is refused for the limit of the class meets a class that has as many
clients as it may have. -/
def Justified (conf : Config) (s : State) : Event → Prop
  | .accept name _ =>
    ∀ c, conf.classFindName name = some c → s.Full conf c →
      (conf.classAt c).maxClients.toNat ≤ s.holds c
  | .connect _ _ | .setType _ _ | .login _ _ | .exit _ => True

/-- What an event has to do with the limits. -/
def Limits (conf : Config) (s : State) (event : Event) : Prop :=
  s.Justified conf event ∧ (s.exec conf event).Within conf

/-! ## The condition -/

/-- What the derived number of clients has too much. -/
def surplus (conf : Config) (s : State) (c : Nat) : Int :=
  (conf.classAt c).blocks + s.others c - conf.listens - conf.connects

/-- The condition on a connection to a listener of a class: with the surplus the class is not
over its limit while there is room, and where it is not, and the address has fewer unknown
clients and users than it may have, then there is room in the class and for the address. -/
def AcceptFits (conf : Config) (s : State) (c : Nat) (addr : BitVec 32) : Prop :=
  let clptr := conf.classAt c
  (s.holds c < clptr.maxClients.toNat →
    s.holds c + s.surplus conf c ≤ clptr.maxClients.toInt) ∧
  (s.holds c + s.surplus conf c ≤ clptr.maxClients.toInt →
    s.lclientCount addr < clptr.clientsPerIp.toNat →
      s.holds c < clptr.maxClients.toNat ∧ s.holdsFrom c addr < clptr.clientsPerIp.toNat)

/-- The condition on an event. -/
def Fits (conf : Config) (s : State) : Event → Prop
  | .accept name addr => ∀ c, conf.classFindName name = some c → s.AcceptFits conf c addr
  | .connect _ _ | .setType _ _ | .login _ _ | .exit _ => True

/-! ## Counting clients -/

theorem countP_eraseIdx (p : Lclient → Bool) {clients : List Lclient} {client : Nat}
    {lcptr : Lclient} (found : clients[client]? = some lcptr) :
    (clients.eraseIdx client).countP p + (if p lcptr then 1 else 0) = clients.countP p := by
  obtain ⟨inside, rfl⟩ := List.getElem?_eq_some_iff.mp found
  rw [← (List.getElem_cons_eraseIdx_perm inside).countP_eq p, List.countP_cons]

theorem countP_set (p : Lclient → Bool) {clients : List Lclient} {client : Nat}
    {lcptr : Lclient} (found : clients[client]? = some lcptr) (lcptr' : Lclient) :
    (clients.set client lcptr').countP p =
      (clients.eraseIdx client).countP p + if p lcptr' then 1 else 0 := by
  obtain ⟨inside, _⟩ := List.getElem?_eq_some_iff.mp found
  rw [(List.set_perm_cons_eraseIdx inside lcptr').countP_eq p, List.countP_cons]

theorem countP_setType (p : Lclient → Bool)
    (same : ∀ (lcptr : Lclient) (type : LclientType), p { lcptr with type := type } = p lcptr)
    (clients : List Lclient) (client : Nat) (type : LclientType) :
    (clients.modify client fun lcptr => { lcptr with type := type }).countP p =
      clients.countP p := by
  induction clients generalizing client with
  | nil => simp
  | cons lcptr clients induction =>
      cases client with
      | zero => simp [List.countP_cons, same]
      | succ client => simp [List.countP_cons, induction]

/-! ## References -/

/-- The invariant: the references are those of the configuration and of the clients, and a
client is in the class it was accepted into. -/
structure Counted (conf : Config) (s : State) : Prop where
  refs : ∀ c, s.refcount c =
    (conf.classAt c).blocks + s.clients.countP fun lcptr => lcptr.place = c
  placed : ∀ lcptr ∈ s.clients, ∀ c ∈ lcptr.accepted, lcptr.place = c

variable {conf : Config} {s : State}

/-- The clients of a class are those accepted into it and the others. -/
theorem Counted.countP_place (counted : s.Counted conf) (c : Nat) :
    s.clients.countP (fun lcptr => lcptr.place = c) = s.holds c + s.others c := by
  unfold holds others
  have placed := counted.placed
  revert placed
  induction s.clients with
  | nil => exact fun _ => rfl
  | cons lcptr clients induction =>
      intro placed
      have rest := induction fun lcptr' mem => placed lcptr' (List.mem_cons_of_mem _ mem)
      have first := placed lcptr List.mem_cons_self c
      simp only [List.countP_cons, rest]
      by_cases accepted : lcptr.accepted = some c
      · have place : lcptr.place = c := first accepted
        simp [accepted, place]
        omega
      · by_cases place : lcptr.place = c <;> simp [accepted, place]
        omega

/-- What `lclient_accept` compares with the limit. -/
theorem Counted.full_iff (counted : s.Counted conf) (c : Nat) :
    s.Full conf c ↔ (conf.classAt c).maxClients.toInt < s.holds c + s.surplus conf c := by
  unfold Full surplus
  rw [counted.refs c, counted.countP_place c]
  constructor <;> intro <;> omega

/-! ### What each operation preserves -/

theorem Counted.link (counted : s.Counted conf) {lcptr : Lclient}
    (placed : ∀ c ∈ lcptr.accepted, lcptr.place = c) : (s.link lcptr).Counted conf := by
  constructor
  · intro c
    have refs := counted.refs c
    by_cases place : c = lcptr.place
    · subst place
      simp [State.link, classPop, refs]
      omega
    · simp [State.link, classPop, refs, place, Ne.symm place]
  · intro lcptr' mem
    rcases List.mem_append.mp mem with old | new
    · exact counted.placed lcptr' old
    · rw [List.mem_singleton.mp new]
      exact placed

theorem Counted.delete (counted : s.Counted conf) (client : Nat) :
    (s.delete client).Counted conf := by
  unfold State.delete
  cases found : s.clients[client]? with
  | none => exact counted
  | some lcptr =>
      constructor
      · intro c
        have refs := counted.refs c
        have erased := countP_eraseIdx (fun lcptr => lcptr.place = c) found
        by_cases place : c = lcptr.place
        · subst place
          simp [classPush] at erased ⊢
          omega
        · simp [classPush, place, Ne.symm place] at erased ⊢
          omega
      · exact fun lcptr' mem => counted.placed lcptr' (List.mem_of_mem_eraseIdx mem)

theorem Counted.setType (counted : s.Counted conf) (client : Nat) (type : LclientType) :
    (s.exec conf (.setType client type)).Counted conf := by
  constructor
  · intro c
    rw [exec, countP_setType _ (fun _ _ => rfl)]
    exact counted.refs c
  · intro lcptr mem
    obtain ⟨i, found⟩ := List.mem_iff_getElem?.mp mem
    rw [exec, List.getElem?_modify] at found
    obtain ⟨before, found', rfl⟩ := Option.map_eq_some_iff.mp found
    have old := counted.placed before (List.mem_of_getElem? found')
    split <;> exact old

theorem Counted.move (counted : s.Counted conf) {client : Nat} {lcptr : Lclient}
    (found : s.clients[client]? = some lcptr) (c : Nat) :
    (({ s with clients := s.clients.set client { lcptr with place := c, accepted := none } }
      |>.classPush lcptr.place).classPop c).Counted conf := by
  constructor
  · intro c'
    have refs := counted.refs c'
    have erased := countP_eraseIdx (fun lcptr => lcptr.place = c') found
    simp only [classPush, classPop, countP_set _ found]
    by_cases left : c' = lcptr.place
    · subst left
      by_cases entered : c = lcptr.place
      · subst entered
        simp at erased ⊢
        omega
      · simp [entered, Ne.symm entered] at erased ⊢
        omega
    · by_cases entered : c' = c
      · subst entered
        simp [left, Ne.symm left] at erased ⊢
        omega
      · simp [left, entered, Ne.symm left, Ne.symm entered] at erased ⊢
        omega
  · intro lcptr' mem
    rcases List.mem_or_eq_of_mem_set mem with old | rfl
    · exact counted.placed lcptr' old
    · simp

/-- Every event preserves the equation between references and clients. -/
theorem Counted.exec (counted : s.Counted conf) (event : Event) :
    (s.exec conf event).Counted conf := by
  cases event with
  | accept name addr =>
      simp only [State.exec]
      split
      · exact counted
      · split
        · exact counted
        · split
          · exact counted
          · exact counted.link fun c same => Option.some.inj same
  | connect name addr =>
      simp only [State.exec]
      split
      · exact counted
      · exact counted.link fun c same => nomatch same
  | setType client type => exact counted.setType client type
  | login client name =>
      simp only [State.exec]
      split
      · exact counted.delete client
      · split
        · exact counted
        · rename_i found
          split
          · exact counted
          · exact counted.move found _
  | exit client => exact counted.delete client

/-! ## The limits of a run -/

theorem Within.of_le {s' : State} (within : s.Within conf) (fewer : ∀ c, s'.holds c ≤ s.holds c)
    (fewerFrom : ∀ c ip, s'.holdsFrom c ip ≤ s.holdsFrom c ip) : s'.Within conf :=
  fun c => ⟨Nat.le_trans (fewer c) (within c).1,
    fun ip => Nat.le_trans (fewerFrom c ip) ((within c).2 ip)⟩

theorem Within.delete (within : s.Within conf) (client : Nat) :
    (s.delete client).Within conf := by
  unfold State.delete
  cases found : s.clients[client]? with
  | none => exact within
  | some lcptr =>
      apply within.of_le
      · intro c
        exact Nat.le.intro (countP_eraseIdx _ found)
      · intro c ip
        exact Nat.le.intro (countP_eraseIdx _ found)

theorem Within.move (within : s.Within conf) {client : Nat} {lcptr : Lclient}
    (found : s.clients[client]? = some lcptr) (c : Nat) :
    (({ s with clients := s.clients.set client { lcptr with place := c, accepted := none } }
      |>.classPush lcptr.place).classPop c).Within conf := by
  apply within.of_le
  · intro c'
    simp only [holds, classPush, classPop, countP_set _ found]
    exact Nat.le.intro (countP_eraseIdx _ found)
  · intro c' ip
    simp only [holdsFrom, classPush, classPop, countP_set _ found]
    exact Nat.le.intro (countP_eraseIdx _ found)

theorem holds_link (s : State) (lcptr : Lclient) (c : Nat) :
    (s.link lcptr).holds c = s.holds c + if lcptr.accepted = some c then 1 else 0 := by
  simp [holds, State.link, classPop, List.countP_cons]

theorem holdsFrom_link (s : State) (lcptr : Lclient) (c : Nat) (ip : BitVec 32) :
    (s.link lcptr).holdsFrom c ip =
      s.holdsFrom c ip + if lcptr.accepted = some c ∧ lcptr.addrRemote = ip then 1 else 0 := by
  simp [holdsFrom, State.link, classPop, List.countP_cons]

/-- There is room for a client that is accepted if and only if the limits hold with it. -/
theorem Within.link_iff (within : s.Within conf) (c : Nat) (addr : BitVec 32) :
    (s.link ⟨.unknown, addr, c, some c⟩).Within conf ↔
      s.holds c < (conf.classAt c).maxClients.toNat ∧
        s.holdsFrom c addr < (conf.classAt c).clientsPerIp.toNat := by
  constructor
  · intro within'
    obtain ⟨room, roomFrom⟩ := within' c
    have here := roomFrom addr
    rw [holds_link, if_pos rfl] at room
    rw [holdsFrom_link, if_pos ⟨rfl, rfl⟩] at here
    exact ⟨room, here⟩
  · rintro ⟨room, here⟩ c'
    obtain ⟨below, belowFrom⟩ := within c'
    constructor
    · rw [holds_link]
      split
      · rename_i same
        cases same
        exact room
      · exact below
    · intro ip
      rw [holdsFrom_link]
      split
      · rename_i same
        obtain ⟨same, rfl⟩ := same
        cases same
        exact here
      · exact belowFrom ip

/-- The events that accept nobody keep the limits. -/
theorem Within.exec_of_fits (counted : s.Counted conf) (within : s.Within conf) (event : Event)
    (fits : s.Fits conf event) : (s.exec conf event).Within conf := by
  cases event with
  | accept name addr =>
      simp only [State.exec]
      split
      · exact within
      · rename_i c found
        obtain ⟨_, enough⟩ := fits c found
        split
        · exact within
        · rename_i notFull
          split
          · exact within
          · rename_i notMany
            rw [counted.full_iff, Int.not_lt] at notFull
            exact (within.link_iff c addr).mpr (enough notFull (not_le.mp notMany))
  | connect name addr =>
      simp only [State.exec]
      split
      · exact within
      · rename_i c _
        apply within.of_le
        · exact fun c' => Nat.le_of_eq (holds_link s _ c')
        · exact fun c' ip => Nat.le_of_eq (holdsFrom_link s _ c' ip)
  | setType client type =>
      apply within.of_le
      · exact fun c => Nat.le_of_eq (countP_setType _ (fun _ _ => rfl) s.clients client type)
      · exact fun c ip => Nat.le_of_eq (countP_setType _ (fun _ _ => rfl) s.clients client type)
  | login client name =>
      simp only [State.exec]
      split
      · exact within.delete client
      · split
        · exact within
        · rename_i found
          split
          · exact within
          · exact within.move found _
  | exit client => exact within.delete client

/-- An event does what the limits ask for if and only if it meets the condition. -/
theorem limits_iff_fits (counted : s.Counted conf) (within : s.Within conf) (event : Event) :
    s.Limits conf event ↔ s.Fits conf event := by
  constructor
  · intro limits
    cases event with
    | accept name addr =>
        intro c found
        obtain ⟨justified, after⟩ := limits
        constructor
        · intro room
          by_contra beyond
          have full : s.Full conf c := (counted.full_iff c).mpr (Int.not_le.mp beyond)
          exact (justified c found full).not_gt room
        · intro notFull notMany
          simp only [exec, found] at after
          rw [if_neg, if_neg (not_le.mpr notMany)] at after
          · exact (within.link_iff c addr).mp after
          · rw [counted.full_iff, Int.not_lt]
            exact notFull
    | connect | setType | login | exit => trivial
  · intro fits
    refine ⟨?_, within.exec_of_fits counted event fits⟩
    cases event with
    | accept name addr =>
        intro c found full
        by_contra room
        have notFull := (fits c found).1 (not_le.mp room)
        exact Int.not_lt.mpr notFull ((counted.full_iff c).mp full)
    | connect | setType | login | exit => trivial

end State

/-- The server before its first connection. -/
def Config.start (conf : Config) : State :=
  ⟨fun c => (conf.classAt c).blocks, []⟩

/-- The limits hold all along a run if and only if every connection to a listener on the way
meets a class and an address that the derived numbers are right about. -/
theorem Config.limits_run_iff (conf : Config) (events : List Event) :
    TransitionSystem.GuardedRun (fun s event => some (State.exec conf s event))
        (State.Limits conf) conf.start events ↔
      TransitionSystem.GuardedRun (fun s event => some (State.exec conf s event))
        (State.Fits conf) conf.start events := by
  have counted : conf.start.Counted conf := ⟨fun c => rfl, fun lcptr mem => nomatch mem⟩
  have within : conf.start.Within conf := fun c => ⟨Nat.zero_le _, fun ip => Nat.zero_le _⟩
  apply @TransitionSystem.guardedRun_congr State Event _ (fun _ _ => True) (State.Limits conf)
    (State.Fits conf) fun s => s.Counted conf ∧ s.Within conf
  · exact fun s event good _ => State.limits_iff_fits good.1 good.2 event
  · intro s event next good _ fits stepped
    cases stepped
    exact ⟨good.1.exec event, good.2.exec_of_fits good.1 event fits⟩
  · exact ⟨counted, within⟩
  · exact TransitionSystem.guardedRun_of_forall (fun _ _ => trivial) conf.start events

/-- A class of one client, for which there are a listener and a `connect{}` block. -/
def oneEach : Config := ⟨[⟨['c'], 1, 4, 2⟩], 1, 1⟩

/-- The class takes a second client. -/
theorem oneEach_second_client_accepted :
    ¬ TransitionSystem.GuardedRun (fun s event => some (State.exec oneEach s event))
      (State.Limits oneEach) oneEach.start [.accept ['c'] 1, .accept ['c'] 2] := by
  rintro ⟨_, ⟨_, within⟩, _⟩
  exact absurd (within 0).1 (by decide)

end ConnectionClass

end Chaosircd
