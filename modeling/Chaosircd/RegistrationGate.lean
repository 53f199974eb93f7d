import Chaosircd.Chars
import Chaosircd.Daemon
import Chaosircd.TransitionSystem
import Mathlib.Data.List.Basic
import Mathlib.Logic.Function.Basic

/-!
# What a connection waits for before it is registered

With `NICK` and `USER` a connection asks to be registered.  It gets a cookie and has to send
it back; then its name, its user and the proxies on its address are asked for, one after
the other.  While that goes on there is a record of it on `lc_sauth_list`.  The record should
be gone when the connection is, and when it is registered.
-/

namespace Chaosircd

namespace RegistrationGate

/-! ## Connections and records -/

/-- `struct lclient`, as far as registration is concerned; that the cookie was sent back is
remembered. -/
structure Lclient where
  name : CString
  user : Option CString
  registered : Bool
  shut : Bool
  cookie : Option CString
  answered : Bool

/-- The pointer to a query: there is none, its answer is not there yet, or its callback is
being called. -/
inductive Query where
  | none
  | asked
  | replied
  deriving DecidableEq

/-- `struct lc_sauth`; of the proxy checks only how many are on the list. -/
structure LcSauth where
  id : Nat
  lclient : Nat
  sauthDns : Query
  sauthAuth : Query
  sauthProxy : Nat
  deriving DecidableEq

/-- A registration, and what was known when it took place. -/
structure Registered where
  lclient : Nat
  answered : Bool
  asked : Bool

/-- The connections by their number, how many there were, `lc_sauth_list`, how many records
there were, and all registrations. -/
structure State where
  lclients : Nat → Option Lclient
  accepted : Nat
  lcSauthList : List LcSauth
  handshakes : Nat
  registrations : List Registered

/-- What is decided elsewhere: whether the nick is in use, what `lc_cookie_build` draws,
which queries `sauth` can start, and whether the hooks of `lclient_register` refuse the
connection.  `hooks_call` adds up what its hooks return, but `lc_cookie_hook` and
`lc_sauth_handshake` return nothing: `cookieLeft` and `sauthLeft` is what they leave. -/
structure Outside where
  inUse : Bool
  data : CString
  cookieLeft : Int
  sauthLeft : Int
  startsDns : Bool
  startsAuth : Bool
  checks : Nat
  refuse : Bool

namespace State

def init : State :=
  ⟨fun _ => none, 0, [], 0, []⟩

/-- Some field of a connection is set. -/
def set (s : State) (id : Nat) (lcptr : Lclient) : State :=
  { s with lclients := Function.update s.lclients id (some lcptr) }

/-- Some field of a record is set. -/
def updateSauth (s : State) (arg : Nat) (f : LcSauth → LcSauth) : State :=
  { s with lcSauthList := s.lcSauthList.map fun sauth => if sauth.id = arg then f sauth else sauth }

/-- An answer of the record is awaited. -/
def Asked (sauth : LcSauth) : Prop :=
  sauth.sauthDns = .asked ∨ sauth.sauthAuth = .asked ∨ 0 < sauth.sauthProxy

instance (sauth : LcSauth) : Decidable (Asked sauth) :=
  inferInstanceAs (Decidable (_ ∨ _))

/-! ## Exit and registration -/

/-- `lclient_exit`: the hook of `lc_cookie` finds the cookie, the one of `lc_sauth` finds no
record, since nobody sets `plugdata[LCLIENT_PLUGDATA_SAUTH]`. -/
def lclientExit (s : State) (id : Nat) : State :=
  { s with lclients := Function.update s.lclients id none }

/-- `lclient_register`; who is refused there is exited. -/
def lclientRegister (s : State) (id : Nat) (outside : Outside) : Option State :=
  (s.lclients id).map fun lcptr =>
    if lcptr.user = none then s
    else if lcptr.registered then s.set id { lcptr with shut := false }
    else if outside.refuse then s.lclientExit id
    else
      { s.set id { lcptr with registered := true, shut := false } with
        registrations := s.registrations ++ [⟨id, lcptr.answered,
          decide (∃ sauth ∈ s.lcSauthList, sauth.lclient = id ∧ Asked sauth)⟩] }

/-! ## The callbacks of `lc_sauth` -/

/-- `lc_sauth_done`. -/
def lcSauthDone (s : State) (arg : Nat) : State :=
  { s with lcSauthList := s.lcSauthList.filter fun sauth => sauth.id ≠ arg }

/-- `lc_sauth_lookup_auth`. -/
def lcSauthLookupAuth (s : State) (arg id : Nat) (outside : Outside) : Option State :=
  if outside.startsAuth then
    (s.lclients id).map fun _ => s.updateSauth arg fun sauth => { sauth with sauthAuth := .asked }
  else s.lclientRegister id outside

/-- `lc_sauth_lookup_dns`. -/
def lcSauthLookupDns (s : State) (arg id : Nat) (outside : Outside) : Option State :=
  if outside.startsDns then
    (s.lclients id).map fun _ => s.updateSauth arg fun sauth => { sauth with sauthDns := .asked }
  else s.lcSauthLookupAuth arg id outside

/-- `lc_sauth_check_proxy`. -/
def lcSauthCheckProxy (s : State) (arg id : Nat) (outside : Outside) : Option State :=
  if 0 < outside.checks then
    (s.lclients id).map fun _ =>
      s.updateSauth arg fun sauth => { sauth with sauthProxy := outside.checks }
  else s.lclientRegister id outside

/-- `lc_sauth_dns`. -/
def lcSauthDns (s : State) (arg id : Nat) (outside : Outside) : Option State :=
  ((s.updateSauth arg fun sauth => { sauth with sauthDns := .replied }).lcSauthLookupAuth arg id
    outside).map fun s => s.updateSauth arg fun sauth => { sauth with sauthDns := .none }

/-- `lc_sauth_auth`, with what the ident service says. -/
def lcSauthAuth (s : State) (arg id : Nat) (ident : CString) (outside : Outside) :
    Option State :=
  (s.lclients id).bind fun lcptr =>
    let user := if ident = [] then lcptr.user else lcptr.user.map fun _ => ident
    (((s.set id { lcptr with user }).updateSauth arg fun sauth =>
      { sauth with sauthAuth := .replied }).lcSauthCheckProxy arg id outside).map fun s =>
        s.updateSauth arg fun sauth => { sauth with sauthAuth := .none }

/-- `lc_sauth_proxy`; the connection is exited by `lc_sauth_deny`. -/
def lcSauthProxy (s : State) (sauth : LcSauth) (isOpen : Bool) (outside : Outside) :
    Option State :=
  (s.lclients sauth.lclient).bind fun _ =>
    let s := s.updateSauth sauth.id fun sauth => { sauth with sauthProxy := sauth.sauthProxy - 1 }
    if isOpen then some ((s.lcSauthDone sauth.id).lclientExit sauth.lclient)
    else if sauth.sauthProxy = 1 then
      (s.lclientRegister sauth.lclient outside).map fun s => s.lcSauthDone sauth.id
    else some s

/-- A record comes to the end of `lc_sauth_list`, and no more commands are read. -/
def enter (s : State) (id : Nat) (lcptr : Lclient) (sauth : LcSauth) : State :=
  { s.set id { lcptr with shut := true } with
    lcSauthList := s.lcSauthList ++ [sauth], handshakes := s.handshakes + 1 }

/-- `lc_sauth_handshake`. -/
def lcSauthHandshake (s : State) (id : Nat) (outside : Outside) : Option State :=
  (s.lclients id).bind fun lcptr =>
    (s.enter id lcptr ⟨s.handshakes, id, .none, .none, 0⟩).lcSauthLookupDns s.handshakes id outside

/-! ## Commands -/

/-- `lclient_handshake`. -/
def lclientHandshake (s : State) (id : Nat) (outside : Outside) : Option State :=
  (s.lclients id).bind fun lcptr =>
    if !charsValidNick lcptr.name then some s
    else
      lcptr.user.bind fun user =>
        if !charsValidUser user then some (s.lclientExit id)
        else
          (s.lcSauthHandshake id outside).bind fun s =>
            if outside.sauthLeft = 0 then s.lclientRegister id outside else some s

/-- `lc_cookie_hook`.  Where there is a cookie already, the address of the array it is in is
given to `mem_static_free`, which is no chunk of the heap. -/
def lcCookieHook (s : State) (id : Nat) (outside : Outside) : Option State :=
  (s.lclients id).bind fun lcptr =>
    if lcptr.cookie = none then some (s.set id { lcptr with cookie := some outside.data })
    else none

/-- `lclient_login`. -/
def lclientLogin (s : State) (id : Nat) (outside : Outside) : Option State :=
  (s.lclients id).bind fun lcptr =>
    if outside.inUse then some (s.set id { lcptr with name := [] })
    else
      (s.lcCookieHook id outside).bind fun s =>
        if outside.cookieLeft = 0 then s.lclientHandshake id outside else some s

/-- `mr_nick`. -/
def mrNick (s : State) (id : Nat) (lcptr : Lclient) (nick : Option CString)
    (outside : Outside) : Option State :=
  match nick with
  | none => some (s.lclientExit id)
  | some nick =>
    if lcptr.name = [] then
      let named := s.set id
        { lcptr with name := (strlcpy nick (nickLen + 1)).takeWhile (· ≠ '~') }
      if lcptr.user = none then some named else named.lclientLogin id outside
    else some s

/-- `mr_user`. -/
def mrUser (s : State) (id : Nat) (lcptr : Lclient) (user : CString) (outside : Outside) :
    Option State :=
  if lcptr.user = none then
    let known := s.set id { lcptr with user := some ('~' :: strlcpy user 16) }
    if lcptr.name = [] then some known else known.lclientLogin id outside
  else some s

/-- `mr_pong` of `lc_cookie`, and `lc_cookie_done`. -/
def mrPong (s : State) (id : Nat) (lcptr : Lclient) (data : CString) (outside : Outside) :
    Option State :=
  if lcptr.cookie = some data then
    (s.set id { lcptr with cookie := none, answered := true }).lclientHandshake id outside
  else some s

end State

/-- What a connection sends. -/
inductive Command where
  | nick (nick : Option CString)
  | user (user : CString)
  | pong (data : CString)

/-- A connection comes, sends a command or is exited; a callback of `lc_sauth` is called
because of a reply, a timeout or the death of the child. -/
inductive Event where
  | accept
  | command (id : Nat) (command : Command) (outside : Outside)
  | exit (id : Nat)
  | dns (arg : Nat) (outside : Outside)
  | auth (arg : Nat) (ident : CString) (outside : Outside)
  | proxy (arg : Nat) (isOpen : Bool) (outside : Outside)

namespace State

/-- The handlers for connections that are not registered. -/
def handle (s : State) (id : Nat) (lcptr : Lclient) (outside : Outside) :
    Command → Option State
  | .nick nick => s.mrNick id lcptr nick outside
  | .user user => s.mrUser id lcptr user outside
  | .pong data => s.mrPong id lcptr data outside

/-- The record of a pending query. -/
def findSauth (s : State) (arg : Nat) (pending : LcSauth → Bool) : Option LcSauth :=
  s.lcSauthList.find? fun sauth => sauth.id = arg ∧ pending sauth

/-- One event; there is no result when a connection is used that is gone.  While `shut` is
set, `lclient_recv` reads no commands. -/
def step (s : State) : Event → Option State
  | .accept => some
      { s.set s.accepted ⟨[], none, false, false, none, false⟩ with accepted := s.accepted + 1 }
  | .command id command outside =>
    match s.lclients id with
    | none => some s
    | some lcptr =>
      if lcptr.registered ∨ lcptr.shut then some s else s.handle id lcptr outside command
  | .exit id => some (s.lclientExit id)
  | .dns arg outside =>
    match s.findSauth arg fun sauth => sauth.sauthDns = .asked with
    | none => some s
    | some sauth => s.lcSauthDns arg sauth.lclient outside
  | .auth arg ident outside =>
    match s.findSauth arg fun sauth => sauth.sauthAuth = .asked with
    | none => some s
    | some sauth => s.lcSauthAuth arg sauth.lclient ident outside
  | .proxy arg isOpen outside =>
    match s.findSauth arg fun sauth => 0 < sauth.sauthProxy with
    | none => some s
    | some sauth => s.lcSauthProxy sauth isOpen outside

/-! ## What registration promises -/

/-- Every connection is registered once at most, with its cookie answered and no answer
awaited, and every record is one of a connection that is there and not registered. -/
structure Kept (s : State) : Prop where
  once : (s.registrations.map Registered.lclient).Nodup
  after : ∀ done ∈ s.registrations, done.answered = true ∧ done.asked = false
  refers : ∀ sauth ∈ s.lcSauthList, ∃ lcptr,
    s.lclients sauth.lclient = some lcptr ∧ lcptr.registered = false

/-- An event keeps the promise. -/
def Sound (s : State) (event : Event) : Prop :=
  ∃ s', s.step event = some s' ∧ s'.Kept

/-! ## The condition -/

/-- When the handshake starts, a query can be started, and the hook leaves something. -/
def HandshakeFits (lcptr : Lclient) (outside : Outside) : Prop :=
  charsValidNick lcptr.name = true → (∀ user ∈ lcptr.user, charsValidUser user = true →
    outside.sauthLeft ≠ 0 ∧ (outside.startsDns ∨ outside.startsAuth))

/-- When the cookie is sent there is none yet. -/
def LoginFits (lcptr : Lclient) (outside : Outside) : Prop :=
  outside.inUse = false →
    lcptr.cookie = none ∧ (outside.cookieLeft = 0 → HandshakeFits lcptr outside)

/-- The condition on a command. -/
def CommandFits (lcptr : Lclient) (outside : Outside) : Command → Prop
  | .nick nick => ∀ name ∈ nick, lcptr.name = [] → lcptr.user ≠ none →
    LoginFits { lcptr with name := (strlcpy name (nickLen + 1)).takeWhile (· ≠ '~') } outside
  | .user user => lcptr.user = none → lcptr.name ≠ [] →
    LoginFits { lcptr with user := some ('~' :: strlcpy user 16) } outside
  | .pong data => lcptr.cookie = some data → HandshakeFits lcptr outside

/-- The condition on an event: no connection is exited while there is a record of it, a query
is followed by the next, and who is registered has answered the cookie. -/
def Fits (s : State) : Event → Prop
  | .accept => True
  | .command id command outside => ∀ lcptr, s.lclients id = some lcptr →
    ¬ (lcptr.registered ∨ lcptr.shut) → CommandFits lcptr outside command
  | .exit id => ∀ sauth ∈ s.lcSauthList, sauth.lclient ≠ id
  | .dns arg outside => (s.findSauth arg fun sauth => sauth.sauthDns = .asked) ≠ none →
    outside.startsAuth = true
  | .auth arg _ outside => (s.findSauth arg fun sauth => sauth.sauthAuth = .asked) ≠ none →
    0 < outside.checks
  | .proxy arg isOpen outside => ∀ sauth lcptr,
    (s.findSauth arg fun sauth => 0 < sauth.sauthProxy) = some sauth →
      s.lclients sauth.lclient = some lcptr → isOpen = false → sauth.sauthProxy = 1 →
        outside.refuse = false → lcptr.answered = true

/-! ## The invariant -/

/-- How far a record has come: one answer is awaited after the other. -/
def Phase (sauth : LcSauth) : Prop :=
  (sauth.sauthDns = .asked ∧ sauth.sauthAuth = .none ∧ sauth.sauthProxy = 0) ∨
    (sauth.sauthDns = .none ∧ sauth.sauthAuth = .asked ∧ sauth.sauthProxy = 0) ∨
    (sauth.sauthDns = .none ∧ sauth.sauthAuth = .none ∧ 0 < sauth.sauthProxy)

/-- A record is the only one of its connection, which does not read commands meanwhile. -/
structure Inv (s : State) : Prop where
  bound : ∀ id lcptr, s.lclients id = some lcptr → id < s.accepted
  users : ∀ id lcptr, s.lclients id = some lcptr → lcptr.cookie ≠ none → lcptr.user ≠ none
  refers : ∀ sauth ∈ s.lcSauthList, ∃ lcptr, s.lclients sauth.lclient = some lcptr ∧
    lcptr.registered = false ∧ lcptr.shut = true ∧ lcptr.user ≠ none
  phase : ∀ sauth ∈ s.lcSauthList, Phase sauth
  apart : (s.lcSauthList.map LcSauth.lclient).Nodup
  distinct : (s.lcSauthList.map LcSauth.id).Nodup
  fresh : ∀ sauth ∈ s.lcSauthList, sauth.id < s.handshakes
  after : ∀ done ∈ s.registrations, done.answered = true ∧ done.asked = false
  once : (s.registrations.map Registered.lclient).Nodup
  registered : ∀ done ∈ s.registrations, done.lclient < s.accepted ∧
    ∀ lcptr, s.lclients done.lclient = some lcptr → lcptr.registered = true

variable {s : State} {id arg : Nat} {lcptr : Lclient} {outside : Outside}

theorem inv_init : init.Inv where
  bound := fun _ _ found => by cases found
  users := fun _ _ found => by cases found
  refers := fun _ mem => by cases mem
  phase := fun _ mem => by cases mem
  apart := List.nodup_nil
  distinct := List.nodup_nil
  fresh := fun _ mem => by cases mem
  after := fun _ mem => by cases mem
  once := List.nodup_nil
  registered := fun _ mem => by cases mem

theorem Inv.kept (inv : s.Inv) : s.Kept where
  once := inv.once
  after := inv.after
  refers := fun sauth mem => by
    obtain ⟨lcptr, found, fresh, _⟩ := inv.refers sauth mem
    exact ⟨lcptr, found, fresh⟩

/-- What becomes of an operation: under its condition it keeps the invariant, and otherwise
the promise is broken. -/
def Meets (result : Option State) (condition : Prop) : Prop :=
  (condition → ∃ s', result = some s' ∧ s'.Inv) ∧
    (¬ condition → ∀ s', result = some s' → ¬ s'.Kept)

theorem Meets.iff {result : Option State} {condition : Prop}
    (meets : Meets result condition) :
    (∃ s', result = some s' ∧ s'.Kept) ↔ condition := by
  constructor
  · rintro ⟨s', same, kept⟩
    by_contra unfit
    exact meets.2 unfit s' same kept
  · intro fits
    obtain ⟨s', same, inv⟩ := meets.1 fits
    exact ⟨s', same, inv.kept⟩

theorem Meets.of_inv {condition : Prop} (inv : s.Inv) (fits : condition) :
    Meets (some s) condition :=
  ⟨fun _ => ⟨s, rfl, inv⟩, fun unfit => absurd fits unfit⟩

/-- There is a record of the connection, which is registered or gone. -/
def Lost (s : State) (id : Nat) : Prop :=
  (∃ sauth ∈ s.lcSauthList, sauth.lclient = id) ∧
    ∀ lcptr, s.lclients id = some lcptr → lcptr.registered = true ∧ lcptr.user ≠ none

theorem Lost.not_kept (lost : s.Lost id) : ¬ s.Kept := by
  intro kept
  obtain ⟨⟨sauth, mem, rfl⟩, registered⟩ := lost
  obtain ⟨lcptr, found, unregistered⟩ := kept.refers sauth mem
  rw [(registered lcptr found).1] at unregistered
  cases unregistered

theorem Meets.of_lost {result : Option State} {condition : Prop}
    (lost : ∀ s', result = some s' → s'.Lost id) (unfit : ¬ condition) :
    Meets result condition :=
  ⟨fun fits => absurd fits unfit, fun _ s' same => (lost s' same).not_kept⟩

/-! ## Single operations -/

@[simp]
theorem set_lclients_self : (s.set id lcptr).lclients id = some lcptr := by
  simp [set]

theorem set_lclients_of_ne {other : Nat} (differ : other ≠ id) :
    (s.set id lcptr).lclients other = s.lclients other := by
  simp [set, differ]

@[simp]
theorem updateSauth_lclients {f : LcSauth → LcSauth} :
    (s.updateSauth arg f).lclients = s.lclients :=
  rfl

theorem mem_updateSauth {f : LcSauth → LcSauth} {sauth : LcSauth} :
    sauth ∈ (s.updateSauth arg f).lcSauthList ↔
      ∃ old ∈ s.lcSauthList, (if old.id = arg then f old else old) = sauth :=
  List.mem_map

/-- A record is still there after its fields were set. -/
theorem exists_updateSauth {f : LcSauth → LcSauth}
    (same : ∀ sauth, (f sauth).lclient = sauth.lclient)
    (listed : ∃ sauth ∈ s.lcSauthList, sauth.lclient = id) :
    ∃ sauth ∈ (s.updateSauth arg f).lcSauthList, sauth.lclient = id := by
  obtain ⟨sauth, mem, rfl⟩ := listed
  refine ⟨_, mem_updateSauth.mpr ⟨sauth, mem, rfl⟩, ?_⟩
  split
  · exact same sauth
  · rfl

theorem Lost.updateSauth {f : LcSauth → LcSauth} (lost : s.Lost id)
    (same : ∀ sauth, (f sauth).lclient = sauth.lclient) : (s.updateSauth arg f).Lost id :=
  ⟨exists_updateSauth same lost.1, lost.2⟩

/-- Registering a connection that has a record is what must not happen. -/
theorem lost_of_lclientRegister {s' : State}
    (listed : ∃ sauth ∈ s.lcSauthList, sauth.lclient = id)
    (users : ∀ lcptr, s.lclients id = some lcptr → lcptr.user ≠ none)
    (result : s.lclientRegister id outside = some s') : s'.Lost id := by
  obtain ⟨lcptr, found, rfl⟩ := Option.map_eq_some_iff.mp result
  have known := users lcptr found
  rw [if_neg known]
  split
  · rename_i registered
    refine ⟨listed, fun other found' => ?_⟩
    rw [set_lclients_self] at found'
    cases found'
    exact ⟨registered, known⟩
  · split
    · refine ⟨listed, fun other found' => ?_⟩
      simp [lclientExit] at found'
    · refine ⟨listed, fun other found' => ?_⟩
      have same : other = { lcptr with registered := true, shut := false } :=
        Option.some.inj (found'.symm.trans (by simp [set]))
      subst same
      exact ⟨rfl, known⟩

theorem Inv.set {lcptr' : Lclient} (inv : s.Inv) (found : s.lclients id = some lcptr)
    (registered : lcptr'.registered = lcptr.registered) (shut : lcptr'.shut = lcptr.shut)
    (user : lcptr.user ≠ none → lcptr'.user ≠ none)
    (cookie : lcptr'.cookie ≠ none → lcptr'.user ≠ none) : (s.set id lcptr').Inv := by
  refine { inv with bound := ?_, users := ?_, refers := ?_, registered := ?_ }
  · intro other client found'
    by_cases same : other = id
    · subst same
      exact inv.bound other lcptr found
    · rw [set_lclients_of_ne same] at found'
      exact inv.bound other client found'
  · intro other client found'
    by_cases same : other = id
    · subst same
      rw [set_lclients_self] at found'
      cases found'
      exact cookie
    · rw [set_lclients_of_ne same] at found'
      exact inv.users other client found'
  · intro sauth mem
    obtain ⟨client, found', fresh, closed, known⟩ := inv.refers sauth mem
    by_cases same : sauth.lclient = id
    · subst same
      rw [found] at found'
      cases found'
      exact ⟨lcptr', set_lclients_self, registered.trans fresh, shut.trans closed, user known⟩
    · exact ⟨client, (set_lclients_of_ne same).trans found', fresh, closed, known⟩
  · intro done mem
    obtain ⟨old, later⟩ := inv.registered done mem
    refine ⟨old, fun client found' => ?_⟩
    by_cases same : done.lclient = id
    · subst same
      rw [set_lclients_self] at found'
      cases found'
      exact registered.trans (later lcptr found)
    · rw [set_lclients_of_ne same] at found'
      exact later client found'

theorem Inv.exit (inv : s.Inv) (unlisted : ∀ sauth ∈ s.lcSauthList, sauth.lclient ≠ id) :
    (s.lclientExit id).Inv := by
  have kept : ∀ other, other ≠ id → (s.lclientExit id).lclients other = s.lclients other :=
    fun other differ => by simp [lclientExit, differ]
  have left : ∀ other client, (s.lclientExit id).lclients other = some client →
      s.lclients other = some client := by
    intro other client found
    by_cases same : other = id
    · subst same
      simp [lclientExit] at found
    · exact (kept other same).symm.trans found
  refine { inv with bound := ?_, users := ?_, refers := ?_, registered := ?_ }
  · exact fun other client found => inv.bound other client (left other client found)
  · exact fun other client found => inv.users other client (left other client found)
  · intro sauth mem
    rw [kept sauth.lclient (unlisted sauth mem)]
    exact inv.refers sauth mem
  · intro done mem
    obtain ⟨old, later⟩ := inv.registered done mem
    exact ⟨old, fun client found => later client (left _ client found)⟩

theorem Inv.meets_exit (inv : s.Inv) (id : Nat) :
    Meets (some (s.lclientExit id)) (∀ sauth ∈ s.lcSauthList, sauth.lclient ≠ id) := by
  refine ⟨fun unlisted => ⟨_, rfl, inv.exit unlisted⟩, ?_⟩
  rintro listed s' ⟨⟩
  push Not at listed
  refine @Lost.not_kept _ id ⟨listed, fun lcptr found => ?_⟩
  simp [lclientExit] at found

theorem Inv.accept (inv : s.Inv) :
    { s.set s.accepted ⟨[], none, false, false, none, false⟩ with
      accepted := s.accepted + 1 }.Inv := by
  have older : ∀ other client, s.lclients other = some client → other ≠ s.accepted :=
    fun other client found => Nat.ne_of_lt (inv.bound other client found)
  refine { inv with bound := ?_, users := ?_, refers := ?_, registered := ?_ }
  · intro other client found
    by_cases same : other = s.accepted
    · exact Nat.lt_succ_of_le (Nat.le_of_eq same)
    · exact Nat.lt_succ_of_lt
        (inv.bound other client ((set_lclients_of_ne same).symm.trans found))
  · intro other client found
    by_cases same : other = s.accepted
    · subst same
      have new : some _ = some client := (set_lclients_self).symm.trans found
      cases new
      exact fun pending => absurd rfl pending
    · exact inv.users other client ((set_lclients_of_ne same).symm.trans found)
  · intro sauth mem
    obtain ⟨client, found, rest⟩ := inv.refers sauth mem
    exact ⟨client, (set_lclients_of_ne (older _ client found)).trans found, rest⟩
  · intro done mem
    obtain ⟨old, later⟩ := inv.registered done mem
    refine ⟨Nat.lt_succ_of_lt old, fun client found => ?_⟩
    exact later client ((set_lclients_of_ne (Nat.ne_of_lt old)).symm.trans found)

theorem Inv.updateSauth {f : LcSauth → LcSauth} (inv : s.Inv)
    (sameId : ∀ sauth, (f sauth).id = sauth.id)
    (sameLclient : ∀ sauth, (f sauth).lclient = sauth.lclient)
    (phase : ∀ sauth ∈ s.lcSauthList, sauth.id = arg → Phase (f sauth)) :
    (s.updateSauth arg f).Inv := by
  have ids : (s.updateSauth arg f).lcSauthList.map LcSauth.id = s.lcSauthList.map LcSauth.id := by
    rw [State.updateSauth, List.map_map]
    apply List.map_congr_left
    intro sauth _
    rw [Function.comp_apply]
    split
    · exact sameId sauth
    · rfl
  have lclients : (s.updateSauth arg f).lcSauthList.map LcSauth.lclient =
      s.lcSauthList.map LcSauth.lclient := by
    rw [State.updateSauth, List.map_map]
    apply List.map_congr_left
    intro sauth _
    rw [Function.comp_apply]
    split
    · exact sameLclient sauth
    · rfl
  refine { inv with refers := ?_, phase := ?_, apart := ?_, distinct := ?_, fresh := ?_ }
  · intro sauth mem
    obtain ⟨old, listed, rfl⟩ := mem_updateSauth.mp mem
    split
    · rw [sameLclient]
      exact inv.refers old listed
    · exact inv.refers old listed
  · intro sauth mem
    obtain ⟨old, listed, rfl⟩ := mem_updateSauth.mp mem
    split
    · rename_i same
      exact phase old listed same
    · exact inv.phase old listed
  · rw [lclients]
    exact inv.apart
  · rw [ids]
    exact inv.distinct
  · intro sauth mem
    obtain ⟨old, listed, rfl⟩ := mem_updateSauth.mp mem
    split
    · rw [sameId]
      exact inv.fresh old listed
    · exact inv.fresh old listed

theorem updateSauth_updateSauth {f g : LcSauth → LcSauth}
    (sameId : ∀ sauth, (f sauth).id = sauth.id) :
    (s.updateSauth arg f).updateSauth arg g = s.updateSauth arg fun sauth => g (f sauth) := by
  unfold updateSauth
  rw [List.map_map]
  congr 1
  apply List.map_congr_left
  intro sauth _
  rw [Function.comp_apply]
  by_cases same : sauth.id = arg
  · rw [if_pos same, if_pos same, if_pos ((sameId sauth).trans same)]
  · rw [if_neg same, if_neg same, if_neg same]

theorem Inv.lcSauthDone (inv : s.Inv) (arg : Nat) : (s.lcSauthDone arg).Inv :=
  { inv with
    refers := fun sauth mem => inv.refers sauth (List.mem_filter.mp mem).1
    phase := fun sauth mem => inv.phase sauth (List.mem_filter.mp mem).1
    apart := inv.apart.sublist (List.filter_sublist.map _)
    distinct := inv.distinct.sublist (List.filter_sublist.map _)
    fresh := fun sauth mem => inv.fresh sauth (List.mem_filter.mp mem).1 }

theorem lcSauthDone_updateSauth {f : LcSauth → LcSauth}
    (sameId : ∀ sauth, (f sauth).id = sauth.id) :
    (s.updateSauth arg f).lcSauthDone arg = s.lcSauthDone arg := by
  unfold State.lcSauthDone updateSauth
  dsimp only
  congr 1
  induction s.lcSauthList with
  | nil => rfl
  | cons sauth rest induction =>
      rw [List.map_cons, List.filter_cons, List.filter_cons, induction]
      by_cases same : sauth.id = arg
      · simp [same, sameId]
      · simp [same]

/-- A record is told by its number, and by its connection. -/
theorem Inv.eq_of_id {sauth other : LcSauth} (inv : s.Inv) (mem : sauth ∈ s.lcSauthList)
    (mem' : other ∈ s.lcSauthList) (same : sauth.id = other.id) : sauth = other :=
  List.inj_on_of_nodup_map inv.distinct mem mem' same

theorem Inv.eq_of_lclient {sauth other : LcSauth} (inv : s.Inv) (mem : sauth ∈ s.lcSauthList)
    (mem' : other ∈ s.lcSauthList) (same : sauth.lclient = other.lclient) : sauth = other :=
  List.inj_on_of_nodup_map inv.apart mem mem' same

/-- After `lc_sauth_done` there is no record of the connection. -/
theorem Inv.unlisted {sauth : LcSauth} (inv : s.Inv) (mem : sauth ∈ s.lcSauthList) :
    ∀ other ∈ (s.lcSauthDone sauth.id).lcSauthList, other.lclient ≠ sauth.lclient := by
  intro other mem' same
  obtain ⟨mem', differ⟩ := List.mem_filter.mp mem'
  have equal := inv.eq_of_lclient mem' mem same
  subst equal
  simp at differ

theorem Inv.register (inv : s.Inv) (found : s.lclients id = some lcptr)
    (fresh : lcptr.registered = false) (answered : lcptr.answered = true)
    (unlisted : ∀ sauth ∈ s.lcSauthList, sauth.lclient ≠ id) :
    ({ s.set id { lcptr with registered := true, shut := false } with
      registrations := s.registrations ++ [⟨id, lcptr.answered, false⟩] } : State).Inv := by
  have never : ∀ done ∈ s.registrations, done.lclient ≠ id := by
    rintro done mem rfl
    rw [(inv.registered done mem).2 lcptr found] at fresh
    cases fresh
  refine { inv with
    bound := ?_, users := ?_, refers := ?_, after := ?_, once := ?_, registered := ?_ }
  · intro other client found'
    by_cases same : other = id
    · subst same
      exact inv.bound other lcptr found
    · exact inv.bound other client ((set_lclients_of_ne same).symm.trans found')
  · intro other client found'
    by_cases same : other = id
    · subst same
      have new : some _ = some client := (set_lclients_self).symm.trans found'
      cases new
      exact inv.users other lcptr found
    · exact inv.users other client ((set_lclients_of_ne same).symm.trans found')
  · intro sauth mem
    obtain ⟨client, found', rest⟩ := inv.refers sauth mem
    exact ⟨client, (set_lclients_of_ne (unlisted sauth mem)).trans found', rest⟩
  · intro done mem
    rcases List.mem_append.mp mem with old | new
    · exact inv.after done old
    · rw [List.mem_singleton.mp new]
      exact ⟨answered, rfl⟩
  · rw [List.map_append, List.map_singleton, List.nodup_append]
    refine ⟨inv.once, List.nodup_singleton _, ?_⟩
    intro first mem second single same
    obtain ⟨done, listed, rfl⟩ := List.mem_map.mp mem
    exact never done listed (same.trans (List.mem_singleton.mp single))
  · intro done mem
    rcases List.mem_append.mp mem with old | new
    · obtain ⟨before, later⟩ := inv.registered done old
      refine ⟨before, fun client found' => later client ?_⟩
      exact (set_lclients_of_ne (never done old)).symm.trans found'
    · rw [List.mem_singleton.mp new]
      refine ⟨inv.bound id lcptr found, fun client found' => ?_⟩
      have same : some _ = some client := (set_lclients_self).symm.trans found'
      cases same
      rfl

/-- A connection that reads commands has no record. -/
theorem Inv.unlisted_of_reads (inv : s.Inv) (found : s.lclients id = some lcptr)
    (reads : lcptr.shut = false) : ∀ sauth ∈ s.lcSauthList, sauth.lclient ≠ id := by
  rintro sauth mem rfl
  obtain ⟨client, found', _, shut, _⟩ := inv.refers sauth mem
  rw [found] at found'
  cases found'
  rw [reads] at shut
  cases shut

theorem Inv.enter {sauth : LcSauth} (inv : s.Inv) (found : s.lclients id = some lcptr)
    (fresh : lcptr.registered = false) (reads : lcptr.shut = false) (known : lcptr.user ≠ none)
    (number : sauth.id = s.handshakes) (own : sauth.lclient = id) (phase : Phase sauth) :
    (s.enter id lcptr sauth).Inv := by
  have unlisted := inv.unlisted_of_reads found reads
  have later : ∀ other client, (s.enter id lcptr sauth).lclients other = some client →
      ∃ before, s.lclients other = some before ∧ before.registered = client.registered ∧
        before.cookie = client.cookie ∧ before.user = client.user := by
    intro other client found'
    by_cases same : other = id
    · subst same
      have new : some _ = some client := (set_lclients_self).symm.trans found'
      cases new
      exact ⟨lcptr, found, rfl, rfl, rfl⟩
    · exact ⟨client, (set_lclients_of_ne same).symm.trans found', rfl, rfl, rfl⟩
  constructor
  · intro other client found'
    obtain ⟨before, found', _⟩ := later other client found'
    exact inv.bound other before found'
  · intro other client found'
    obtain ⟨before, found', _, cookie, user⟩ := later other client found'
    rw [← cookie, ← user]
    exact inv.users other before found'
  · intro other mem
    rcases List.mem_append.mp mem with old | new
    · obtain ⟨client, found', rest⟩ := inv.refers other old
      exact ⟨client, (set_lclients_of_ne (unlisted other old)).trans found', rest⟩
    · rw [List.mem_singleton.mp new, own]
      exact ⟨_, set_lclients_self, fresh, rfl, known⟩
  · intro other mem
    rcases List.mem_append.mp mem with old | new
    · exact inv.phase other old
    · rw [List.mem_singleton.mp new]
      exact phase
  · rw [State.enter, List.map_append, List.map_singleton, List.nodup_append]
    refine ⟨inv.apart, List.nodup_singleton _, ?_⟩
    intro first mem second single same
    obtain ⟨other, listed, rfl⟩ := List.mem_map.mp mem
    exact unlisted other listed ((same.trans (List.mem_singleton.mp single)).trans own)
  · rw [State.enter, List.map_append, List.map_singleton, List.nodup_append]
    refine ⟨inv.distinct, List.nodup_singleton _, ?_⟩
    intro first mem second single same
    obtain ⟨other, listed, rfl⟩ := List.mem_map.mp mem
    have number' : other.id = s.handshakes :=
      (same.trans (List.mem_singleton.mp single)).trans number
    exact Nat.ne_of_lt (inv.fresh other listed) number'
  · intro other mem
    rcases List.mem_append.mp mem with old | new
    · exact Nat.lt_succ_of_lt (inv.fresh other old)
    · rw [List.mem_singleton.mp new, number]
      exact Nat.lt_succ_self _
  · exact inv.after
  · exact inv.once
  · intro done mem
    obtain ⟨old, registered⟩ := inv.registered done mem
    refine ⟨old, fun client found' => ?_⟩
    obtain ⟨before, found', same, _⟩ := later _ client found'
    rw [← same]
    exact registered before found'

/-- Setting a field of the record that has just been made. -/
theorem updateSauth_enter {sauth : LcSauth} {f : LcSauth → LcSauth} (inv : s.Inv)
    (number : sauth.id = s.handshakes) :
    (s.enter id lcptr sauth).updateSauth s.handshakes f = s.enter id lcptr (f sauth) := by
  have older : (s.lcSauthList.map fun other =>
      if other.id = s.handshakes then f other else other) = s.lcSauthList := by
    conv_rhs => rw [← List.map_id s.lcSauthList]
    apply List.map_congr_left
    intro other mem
    rw [if_neg (Nat.ne_of_lt (inv.fresh other mem))]
    rfl
  unfold State.enter updateSauth
  dsimp only
  rw [List.map_append, List.map_singleton, if_pos number, older]

/-! ## Callbacks -/

variable {sauth : LcSauth}

theorem findSauth_eq_some {pending : LcSauth → Bool} (found : s.findSauth arg pending = some sauth) :
    sauth ∈ s.lcSauthList ∧ sauth.id = arg ∧ pending sauth = true := by
  have both := List.find?_some found
  rw [decide_eq_true_eq] at both
  exact ⟨List.mem_of_find?_eq_some found, both⟩

/-- The phase of a record whose first answer is awaited. -/
theorem Phase.of_dns (phase : Phase sauth) (asked : sauth.sauthDns = .asked) :
    sauth.sauthAuth = .none ∧ sauth.sauthProxy = 0 := by
  rcases phase with here | later | last
  · exact here.2
  · rw [later.1] at asked
    cases asked
  · rw [last.1] at asked
    cases asked

theorem Phase.of_auth (phase : Phase sauth) (asked : sauth.sauthAuth = .asked) :
    sauth.sauthDns = .none ∧ sauth.sauthProxy = 0 := by
  rcases phase with before | here | last
  · rw [before.2.1] at asked
    cases asked
  · exact ⟨here.1, here.2.2⟩
  · rw [last.2.1] at asked
    cases asked

theorem Phase.of_proxy (phase : Phase sauth) (asked : 0 < sauth.sauthProxy) :
    sauth.sauthDns = .none ∧ sauth.sauthAuth = .none := by
  rcases phase with before | later | here
  · rw [before.2.2] at asked
    exact absurd asked (Nat.lt_irrefl 0)
  · rw [later.2.2] at asked
    exact absurd asked (Nat.lt_irrefl 0)
  · exact ⟨here.1, here.2.1⟩

theorem Inv.meets_dns (inv : s.Inv) (mem : sauth ∈ s.lcSauthList)
    (asked : sauth.sauthDns = .asked) (outside : Outside) :
    Meets (s.lcSauthDns sauth.id sauth.lclient outside) (outside.startsAuth = true) := by
  obtain ⟨lcptr, found, _, _, known⟩ := inv.refers sauth mem
  by_cases starts : outside.startsAuth = true
  · refine ⟨fun _ => ?_, fun unfit => absurd starts unfit⟩
    rw [lcSauthDns, lcSauthLookupAuth, if_pos starts, updateSauth_lclients, found,
      Option.map_some, Option.map_some]
    refine ⟨_, rfl, ?_⟩
    rw [updateSauth_updateSauth, updateSauth_updateSauth]
    · refine inv.updateSauth (fun _ => rfl) (fun _ => rfl) fun other mem' same => ?_
      have equal := inv.eq_of_id mem' mem same
      subst equal
      exact .inr (.inl ⟨rfl, rfl, ((inv.phase other mem).of_dns asked).2⟩)
    · exact fun _ => rfl
    · exact fun _ => rfl
  · refine @Meets.of_lost sauth.lclient _ _ (fun s' result => ?_) starts
    rw [lcSauthDns, lcSauthLookupAuth, if_neg starts] at result
    obtain ⟨middle, registers, rfl⟩ := Option.map_eq_some_iff.mp result
    refine Lost.updateSauth (lost_of_lclientRegister ?_ ?_ registers) fun _ => rfl
    · exact exists_updateSauth (fun _ => rfl) ⟨sauth, mem, rfl⟩
    · intro client found'
      have same : some lcptr = some client := found.symm.trans found'
      cases same
      exact known

theorem Inv.meets_auth (inv : s.Inv) (mem : sauth ∈ s.lcSauthList)
    (asked : sauth.sauthAuth = .asked) (ident : CString) (outside : Outside) :
    Meets (s.lcSauthAuth sauth.id sauth.lclient ident outside) (0 < outside.checks) := by
  obtain ⟨lcptr, found, _, _, known⟩ := inv.refers sauth mem
  have named : ∀ user, user = (if ident = [] then lcptr.user else lcptr.user.map fun _ => ident) →
      user ≠ none := by
    rintro user rfl
    split
    · exact known
    · rw [Ne, Option.map_eq_none_iff]
      exact known
  rw [lcSauthAuth, found, Option.bind_some]
  dsimp only
  generalize (if ident = [] then lcptr.user else lcptr.user.map fun _ => ident) = user at named
  have known' := named user rfl
  have inv' : (s.set sauth.lclient { lcptr with user }).Inv :=
    inv.set found rfl rfl (fun _ => known') fun _ => known'
  by_cases starts : 0 < outside.checks
  · refine ⟨fun _ => ?_, fun unfit => absurd starts unfit⟩
    rw [lcSauthCheckProxy, if_pos starts, updateSauth_lclients, set_lclients_self,
      Option.map_some, Option.map_some]
    refine ⟨_, rfl, ?_⟩
    rw [updateSauth_updateSauth, updateSauth_updateSauth]
    · refine inv'.updateSauth (fun _ => rfl) (fun _ => rfl) fun other mem' same => ?_
      have equal := inv.eq_of_id mem' mem same
      subst equal
      exact .inr (.inr ⟨((inv.phase other mem).of_auth asked).1, rfl, starts⟩)
    · exact fun _ => rfl
    · exact fun _ => rfl
  · refine @Meets.of_lost sauth.lclient _ _ (fun s' result => ?_) starts
    rw [lcSauthCheckProxy, if_neg starts] at result
    obtain ⟨middle, registers, rfl⟩ := Option.map_eq_some_iff.mp result
    refine Lost.updateSauth (lost_of_lclientRegister ?_ ?_ registers) fun _ => rfl
    · exact exists_updateSauth (fun _ => rfl) ⟨sauth, mem, rfl⟩
    · intro client found'
      have same : some _ = some client := (set_lclients_self).symm.trans found'
      cases same
      exact known'

/-- When the last check is over no answer is awaited for the connection. -/
theorem Inv.not_asked (inv : s.Inv) (mem : sauth ∈ s.lcSauthList) (last : sauth.sauthProxy = 1) :
    ¬ ∃ other ∈ (s.updateSauth sauth.id fun sauth =>
        { sauth with sauthProxy := sauth.sauthProxy - 1 }).lcSauthList,
      other.lclient = sauth.lclient ∧ Asked other := by
  rintro ⟨other, mem', own, asked⟩
  obtain ⟨old, listed, rfl⟩ := mem_updateSauth.mp mem'
  have equal : old = sauth := by
    apply inv.eq_of_lclient listed mem
    split at own <;> exact own
  subst equal
  obtain ⟨dns, auth⟩ := (inv.phase old mem).of_proxy (by omega)
  rw [if_pos rfl] at asked
  rcases asked with asked | asked | asked
  · rw [dns] at asked
    cases asked
  · rw [auth] at asked
    cases asked
  · dsimp only at asked
    omega

theorem Inv.meets_proxy (inv : s.Inv) (mem : sauth ∈ s.lcSauthList)
    (found : s.lclients sauth.lclient = some lcptr) (isOpen : Bool) (outside : Outside)
    (asked : 0 < sauth.sauthProxy) :
    Meets (s.lcSauthProxy sauth isOpen outside)
      (isOpen = false → sauth.sauthProxy = 1 → outside.refuse = false →
        lcptr.answered = true) := by
  obtain ⟨client, found', fresh, _, known⟩ := inv.refers sauth mem
  rw [found] at found'
  cases found'
  have removed : (s.updateSauth sauth.id fun sauth =>
      { sauth with sauthProxy := sauth.sauthProxy - 1 }).lcSauthDone sauth.id =
        s.lcSauthDone sauth.id := lcSauthDone_updateSauth fun _ => rfl
  have gone : ((s.lcSauthDone sauth.id).lclientExit sauth.lclient).Inv :=
    (inv.lcSauthDone sauth.id).exit (inv.unlisted mem)
  rw [lcSauthProxy, found, Option.bind_some]
  dsimp only
  by_cases isOpen' : isOpen = true
  · rw [if_pos isOpen', removed]
    exact Meets.of_inv gone fun shut => by simp [isOpen'] at shut
  · rw [if_neg isOpen']
    by_cases last : sauth.sauthProxy = 1
    · rw [if_pos last, State.lclientRegister, updateSauth_lclients, found, Option.map_some,
        if_neg known, if_neg (by simp [fresh]), Option.map_some]
      by_cases refuse : outside.refuse = true
      · rw [if_pos refuse]
        refine Meets.of_inv ?_ fun _ _ accepted => by simp [refuse] at accepted
        rw [← removed] at gone
        exact gone
      · rw [if_neg refuse, decide_eq_false (inv.not_asked mem last)]
        constructor
        · intro fits
          have answered := fits (by simpa using isOpen') last (by simpa using refuse)
          have done := (inv.lcSauthDone sauth.id).register found fresh answered
            (inv.unlisted mem)
          rw [← removed] at done
          exact ⟨_, rfl, done⟩
        · rintro unfit s' ⟨⟩ kept
          apply unfit
          intro _ _ _
          exact (kept.after _ (List.mem_append_right _ List.mem_cons_self)).1
    · rw [if_neg last]
      refine Meets.of_inv ?_ fun _ alone => absurd alone last
      refine inv.updateSauth (fun _ => rfl) (fun _ => rfl) fun other mem' same => ?_
      have equal := inv.eq_of_id mem' mem same
      subst equal
      obtain ⟨dns, auth⟩ := (inv.phase other mem).of_proxy asked
      exact .inr (.inr ⟨dns, auth, by dsimp only; omega⟩)

/-! ## Commands -/

/-- `lc_sauth_handshake`, where a query can be started. -/
theorem Inv.lcSauthHandshake_eq (inv : s.Inv) (found : s.lclients id = some lcptr)
    (starts : outside.startsDns = true ∨ outside.startsAuth = true) :
    s.lcSauthHandshake id outside = some (s.enter id lcptr
      (if outside.startsDns then ⟨s.handshakes, id, .asked, .none, 0⟩
        else ⟨s.handshakes, id, .none, .asked, 0⟩)) := by
  have here : ∀ sauth, (s.enter id lcptr sauth).lclients id =
      some { lcptr with shut := true } := fun _ => set_lclients_self
  rw [lcSauthHandshake, found, Option.bind_some, lcSauthLookupDns]
  split
  · rw [here, Option.map_some, updateSauth_enter inv rfl]
  · rename_i down
    rw [lcSauthLookupAuth, if_pos (starts.resolve_left down), here, Option.map_some,
      updateSauth_enter inv rfl]

/-- And where none can: the connection is registered with its record on the list. -/
theorem lost_of_lcSauthHandshake {s' : State} (found : s.lclients id = some lcptr)
    (known : lcptr.user ≠ none)
    (down : ¬ (outside.startsDns = true ∨ outside.startsAuth = true))
    (result : s.lcSauthHandshake id outside = some s') : s'.Lost id := by
  rw [not_or] at down
  rw [lcSauthHandshake, found, Option.bind_some, lcSauthLookupDns, if_neg down.1,
    lcSauthLookupAuth, if_neg down.2] at result
  refine lost_of_lclientRegister ?_ ?_ result
  · exact ⟨_, List.mem_append_right _ List.mem_cons_self, rfl⟩
  · intro client found'
    have same : some _ = some client := (set_lclients_self).symm.trans found'
    cases same
    exact known

theorem Inv.meets_handshake (inv : s.Inv) (found : s.lclients id = some lcptr)
    (fresh : lcptr.registered = false) (reads : lcptr.shut = false) (known : lcptr.user ≠ none) :
    Meets (s.lclientHandshake id outside) (HandshakeFits lcptr outside) := by
  have unlisted := inv.unlisted_of_reads found reads
  obtain ⟨user, named⟩ := Option.ne_none_iff_exists'.mp known
  rw [lclientHandshake, found, Option.bind_some, named, Option.bind_some]
  by_cases nick : charsValidNick lcptr.name = true
  · rw [if_neg (by simp [nick])]
    by_cases valid : charsValidUser user = true
    · rw [if_neg (by simp [valid])]
      have condition : HandshakeFits lcptr outside ↔ outside.sauthLeft ≠ 0 ∧
          (outside.startsDns = true ∨ outside.startsAuth = true) := by
        unfold HandshakeFits
        rw [named]
        constructor
        · exact fun fits => fits nick user rfl valid
        · rintro fits _ _ ⟨⟩ _
          exact fits
      by_cases starts : outside.startsDns = true ∨ outside.startsAuth = true
      · rw [inv.lcSauthHandshake_eq found starts, Option.bind_some]
        by_cases left : outside.sauthLeft = 0
        · rw [if_pos left]
          refine @Meets.of_lost id _ _ (fun s' result => ?_) fun fits =>
            (condition.mp fits).1 left
          refine lost_of_lclientRegister ?_ ?_ result
          · exact ⟨_, List.mem_append_right _ List.mem_cons_self, by split <;> rfl⟩
          · intro client found'
            have same : some _ = some client := (set_lclients_self).symm.trans found'
            cases same
            exact known
        · rw [if_neg left]
          refine Meets.of_inv ?_ (condition.mpr ⟨left, starts⟩)
          split
          · exact inv.enter found fresh reads known rfl rfl (.inl ⟨rfl, rfl, rfl⟩)
          · exact inv.enter found fresh reads known rfl rfl (.inr (.inl ⟨rfl, rfl, rfl⟩))
      · refine @Meets.of_lost id _ _ (fun s' result => ?_) fun fits =>
          starts (condition.mp fits).2
        obtain ⟨middle, shook, result⟩ := Option.bind_eq_some_iff.mp result
        have lost := lost_of_lcSauthHandshake found known starts shook
        split at result
        · exact lost_of_lclientRegister lost.1 (fun client there => (lost.2 client there).2) result
        · cases result
          exact lost
    · rw [if_pos (by simpa using valid)]
      refine Meets.of_inv (inv.exit unlisted) ?_
      intro _ other same valid'
      rw [named] at same
      cases same
      exact absurd valid' valid
  · rw [if_pos (by simpa using nick)]
    exact Meets.of_inv inv fun valid => absurd valid nick

theorem Inv.meets_login (inv : s.Inv) (found : s.lclients id = some lcptr)
    (fresh : lcptr.registered = false) (reads : lcptr.shut = false) (known : lcptr.user ≠ none) :
    Meets (s.lclientLogin id outside) (LoginFits lcptr outside) := by
  rw [lclientLogin, found, Option.bind_some]
  by_cases used : outside.inUse = true
  · rw [if_pos used]
    exact Meets.of_inv (inv.set found rfl rfl (fun _ => known) fun _ => known)
      fun unused => by simp [used] at unused
  · rw [if_neg used, lcCookieHook, found, Option.bind_some]
    have unused : outside.inUse = false := by simpa using used
    by_cases first : lcptr.cookie = none
    · rw [if_pos first, Option.bind_some]
      have inv' : (s.set id { lcptr with cookie := some outside.data }).Inv :=
        inv.set found rfl rfl (fun _ => known) fun _ => known
      by_cases left : outside.cookieLeft = 0
      · rw [if_pos left]
        obtain ⟨keeps, breaks⟩ := @Inv.meets_handshake _ id _ outside inv' set_lclients_self
          fresh reads known
        constructor
        · exact fun fits => keeps ((fits unused).2 left)
        · exact fun unfit => breaks fun fits => unfit fun _ => ⟨first, fun _ => fits⟩
      · rw [if_neg left]
        exact Meets.of_inv inv' fun _ => ⟨first, fun zero => absurd zero left⟩
    · rw [if_neg first]
      refine ⟨fun fits => absurd (fits unused).1 first, fun _ s' result => ?_⟩
      cases result

theorem Inv.meets_command (inv : s.Inv) (found : s.lclients id = some lcptr)
    (fresh : lcptr.registered = false) (reads : lcptr.shut = false) (command : Command) :
    Meets (s.handle id lcptr outside command) (CommandFits lcptr outside command) := by
  cases command with
  | nick nick =>
      cases nick with
      | none =>
          exact Meets.of_inv (inv.exit (inv.unlisted_of_reads found reads))
            fun _ mem => by cases mem
      | some nick =>
          rw [handle, mrNick]
          split
          · rename_i unnamed
            dsimp only
            have inv' : (s.set id
                { lcptr with name := (strlcpy nick (nickLen + 1)).takeWhile (· ≠ '~') }).Inv :=
              inv.set found rfl rfl (fun known => known) (inv.users id lcptr found)
            split
            · rename_i unknown
              exact Meets.of_inv inv' fun _ _ _ known => absurd unknown known
            · rename_i known
              obtain ⟨keeps, breaks⟩ := @Inv.meets_login _ id _ outside inv' set_lclients_self
                fresh reads known
              constructor
              · exact fun fits => keeps (fits nick rfl unnamed known)
              · refine fun unfit => breaks fun fits => unfit ?_
                rintro _ ⟨⟩ _ _
                exact fits
          · rename_i named
            exact Meets.of_inv inv fun _ _ unnamed => absurd unnamed named
  | user user =>
      rw [handle, mrUser]
      split
      · rename_i unknown
        dsimp only
        have inv' : (s.set id { lcptr with user := some ('~' :: strlcpy user 16) }).Inv :=
          inv.set found rfl rfl (fun _ => by simp) fun _ => by simp
        split
        · rename_i unnamed
          exact Meets.of_inv inv' fun _ named => absurd unnamed named
        · rename_i named
          obtain ⟨keeps, breaks⟩ := @Inv.meets_login _ id _ outside inv' set_lclients_self
            fresh reads (by simp)
          constructor
          · exact fun fits => keeps (fits unknown named)
          · exact fun unfit => breaks fun fits => unfit fun _ _ => fits
      · rename_i known
        exact Meets.of_inv inv fun unknown => absurd unknown known
  | pong data =>
      rw [handle, mrPong]
      split
      · rename_i same
        have known : lcptr.user ≠ none := inv.users id lcptr found (by simp [same])
        have inv' : (s.set id { lcptr with cookie := none, answered := true }).Inv :=
          inv.set found rfl rfl (fun _ => known) fun _ => known
        obtain ⟨keeps, breaks⟩ := @Inv.meets_handshake _ id _ outside inv' set_lclients_self
          fresh reads known
        constructor
        · exact fun fits => keeps (fits same)
        · exact fun unfit => breaks fun fits => unfit fun _ => fits
      · rename_i differ
        exact Meets.of_inv inv fun same => absurd same differ

/-! ## Events -/

theorem Inv.meets (inv : s.Inv) (event : Event) : Meets (s.step event) (s.Fits event) := by
  cases event with
  | accept => exact Meets.of_inv inv.accept trivial
  | command id command outside =>
      rw [step, Fits]
      cases found : s.lclients id with
      | none => exact Meets.of_inv inv fun _ there => by cases there
      | some lcptr =>
          dsimp only
          split
          · rename_i idle
            refine Meets.of_inv inv ?_
            rintro _ ⟨⟩ reads
            exact absurd idle reads
          · rename_i reads
            have both := reads
            rw [not_or, Bool.not_eq_true, Bool.not_eq_true] at both
            obtain ⟨keeps, breaks⟩ := @Inv.meets_command s id lcptr outside inv found both.1
              both.2 command
            constructor
            · exact fun fits => keeps (fits lcptr rfl reads)
            · refine fun unfit => breaks fun fits => unfit ?_
              rintro _ ⟨⟩ _
              exact fits
  | exit id => exact inv.meets_exit id
  | dns arg outside =>
      rw [step, Fits]
      cases found : s.findSauth arg fun sauth => sauth.sauthDns = .asked with
      | none => exact Meets.of_inv inv fun there => absurd rfl there
      | some sauth =>
          obtain ⟨mem, rfl, asked⟩ := findSauth_eq_some found
          obtain ⟨keeps, breaks⟩ := inv.meets_dns mem (by simpa using asked) outside
          exact ⟨fun fits => keeps (fits (by simp)), fun unfit => breaks fun fits =>
            unfit fun _ => fits⟩
  | auth arg ident outside =>
      rw [step, Fits]
      cases found : s.findSauth arg fun sauth => sauth.sauthAuth = .asked with
      | none => exact Meets.of_inv inv fun there => absurd rfl there
      | some sauth =>
          obtain ⟨mem, rfl, asked⟩ := findSauth_eq_some found
          obtain ⟨keeps, breaks⟩ := inv.meets_auth mem (by simpa using asked) ident outside
          exact ⟨fun fits => keeps (fits (by simp)), fun unfit => breaks fun fits =>
            unfit fun _ => fits⟩
  | proxy arg isOpen outside =>
      rw [step, Fits]
      cases found : s.findSauth arg fun sauth => 0 < sauth.sauthProxy with
      | none => exact Meets.of_inv inv fun _ _ there => by cases there
      | some sauth =>
          obtain ⟨mem, rfl, asked⟩ := findSauth_eq_some found
          obtain ⟨lcptr, there, _⟩ := inv.refers sauth mem
          obtain ⟨keeps, breaks⟩ := inv.meets_proxy mem there isOpen outside (by simpa using asked)
          constructor
          · exact fun fits => keeps (fits sauth lcptr rfl there)
          · refine fun unfit => breaks fun fits => unfit ?_
            rintro _ client ⟨⟩ there'
            rw [there] at there'
            cases there'
            exact fits

/-! ## Runs -/

theorem Inv.step {event : Event} {s' : State} (inv : s.Inv) (fits : s.Fits event)
    (result : s.step event = some s') : s'.Inv := by
  obtain ⟨next, same, inv'⟩ := (inv.meets event).1 fits
  rw [result] at same
  cases same
  exact inv'

/-- In every run registration keeps its promise if and only if every event meets the
condition. -/
theorem kept_run_iff (events : List Event) :
    TransitionSystem.GuardedRun step Sound init events ↔
      TransitionSystem.GuardedRun step Fits init events :=
  @TransitionSystem.guardedRun_congr State Event step (fun _ _ => True) Sound Fits Inv
    (fun _ event inv _ => (inv.meets event).iff)
    (fun _ _ _ inv _ fits result => inv.step fits result) init events inv_init
    (TransitionSystem.guardedRun_of_forall (fun _ _ => trivial) init events)

end State

/-- Everything goes well elsewhere. -/
def smooth : Outside :=
  ⟨false, "0123456789abcdef".toList, 1, 1, true, true, 1, false⟩

/-- A connection answers its cookie, and its name is asked for. -/
def waiting : List Event :=
  [.accept, .command 0 (.user "ab".toList) smooth, .command 0 (.nick (some "ab".toList)) smooth,
    .command 0 (.pong "0123456789abcdef".toList) smooth]

/-- When it is closed before the answer comes, its record stays on the list. -/
theorem waiting_exit_leaves_record :
    ¬ TransitionSystem.GuardedRun State.step State.Sound State.init (waiting ++ [.exit 0]) := by
  intro sound
  have records : (TransitionSystem.run State.step State.init waiting).map State.lcSauthList =
      some [⟨0, 0, .asked, .none, 0⟩] := by
    decide +kernel
  obtain ⟨s, reached, listed⟩ := Option.map_eq_some_iff.mp records
  obtain ⟨s', result, kept⟩ := (sound.of_append.2 s reached).1
  cases result
  have mem : ⟨0, 0, .asked, .none, 0⟩ ∈ (s.lclientExit 0).lcSauthList := by
    show _ ∈ s.lcSauthList
    rw [listed]
    exact List.mem_cons_self
  obtain ⟨lcptr, found, _⟩ := kept.refers _ mem
  simp [State.lclientExit] at found

end RegistrationGate

end Chaosircd
