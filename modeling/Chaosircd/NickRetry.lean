import Chaosircd.RegistrationGate
import Mathlib.Data.List.TakeWhile

/-!
# A nick that is refused

A connection that is not registered gets its name from `NICK` as long as it has none.  When
the nick is in use the name is taken back, and the next `NICK` starts the login again; when
the nick turns out to be erroneous, after the cookie came back, the name stays and every
later `NICK` is ignored.
-/

namespace Chaosircd

namespace RegistrationGate

/-! ## Refusals -/

/-- What a connection is answered: `ERR_NICKNAMEINUSE` or `ERR_ERRONEUSNICKNAME`. -/
inductive Refusal where
  | nicknameInUse
  | erroneusNickname
  deriving DecidableEq

/-- The answer of `lclient_handshake`. -/
def handshakeRefusal (lcptr : Lclient) : Option Refusal :=
  if !charsValidNick lcptr.name then some .erroneusNickname else none

/-- The answer of `lclient_login`, and of the handshake where the hook does not put it off. -/
def loginRefusal (lcptr : Lclient) (outside : Outside) : Option Refusal :=
  if outside.inUse then some .nicknameInUse
  else if lcptr.cookie = none ∧ outside.cookieLeft = 0 then handshakeRefusal lcptr
  else none

/-- What the name is set to. -/
def pendingName (nick : CString) : CString :=
  (strlcpy nick (nickLen + 1)).takeWhile (· ≠ '~')

/-- The refusal that a command is answered with. -/
def refusal (lcptr : Lclient) (outside : Outside) : Command → Option Refusal
  | .nick none => none
  | .nick (some nick) =>
    if lcptr.name = [] ∧ lcptr.user ≠ none then
      loginRefusal { lcptr with name := pendingName nick } outside
    else none
  | .user user =>
    if lcptr.user = none ∧ lcptr.name ≠ [] then
      loginRefusal { lcptr with user := some ('~' :: strlcpy user 16) } outside
    else none
  | .pong data => if lcptr.cookie = some data then handshakeRefusal lcptr else none

namespace State

/-- A nick that can be a name, and is not in use. -/
structure Usable (nick : CString) (outside : Outside) : Prop where
  some : nick ≠ []
  valid : charsValidNick nick = true
  fits : nick.length ≤ nickLen
  unused : outside.inUse = false

/-- The login with a cookie that was sent: it goes on when the hook does not put it off. -/
def goOn (s : State) (id : Nat) (outside : Outside) : Option State :=
  if outside.cookieLeft = 0 then s.lclientHandshake id outside else some s

/-- The next usable nick becomes the name of the connection and starts the login again. -/
def CanReplace (s : State) (id : Nat) : Prop :=
  ∀ lcptr, s.lclients id = some lcptr → ∀ nick outside, Usable nick outside →
    s.step (.command id (.nick (some nick)) outside) =
      (s.set id { lcptr with name := nick, cookie := some outside.data }).goOn id outside

/-- The event is no `NICK` of the connection. -/
def NoNick (id : Nat) : Event → Prop
  | .command other (.nick _) _ => other ≠ id
  | _ => True

/-! ## What an operation touches -/

/-- While a connection may send commands there is no record of it. -/
def Guarded (s : State) (id : Nat) : Prop :=
  ∀ lcptr, s.lclients id = some lcptr → lcptr.shut = false → lcptr.registered = false →
    ∀ sauth ∈ s.lcSauthList, sauth.lclient ≠ id

/-- An operation on one connection leaves the others alone. -/
structure Touches (id : Nat) (s s' : State) : Prop where
  others : ∀ other, other ≠ id → s'.lclients other = s.lclients other
  accepted : s'.accepted = s.accepted
  absent : s.lclients id = none → s'.lclients id = none
  records : ∀ sauth ∈ s'.lcSauthList, sauth.lclient = id ∧ s.lclients id ≠ none ∨
    ∃ old ∈ s.lcSauthList, old.lclient = sauth.lclient
  guarded : s.Guarded id → s'.Guarded id

variable {s s' s'' : State} {id arg : Nat} {lcptr : Lclient} {outside : Outside}

theorem Touches.refl (id : Nat) (s : State) : Touches id s s where
  others := fun _ _ => rfl
  accepted := rfl
  absent := fun gone => gone
  records := fun sauth mem => .inr ⟨sauth, mem, rfl⟩
  guarded := fun guarded => guarded

theorem Touches.trans (first : Touches id s s') (second : Touches id s' s'') :
    Touches id s s'' where
  others := fun other differ => (second.others other differ).trans (first.others other differ)
  accepted := second.accepted.trans first.accepted
  absent := fun gone => second.absent (first.absent gone)
  records := by
    intro sauth mem
    rcases second.records sauth mem with ⟨own, there⟩ | ⟨old, mem, same⟩
    · exact .inl ⟨own, fun gone => there (first.absent gone)⟩
    · rcases first.records old mem with ⟨own, there⟩ | ⟨older, mem, also⟩
      · exact .inl ⟨same.symm.trans own, there⟩
      · exact .inr ⟨older, mem, also.trans same⟩
  guarded := fun guarded => second.guarded (first.guarded guarded)

/-- The fields of a connection that is not put in another stage. -/
theorem touches_set {lcptr' : Lclient} (found : s.lclients id = some lcptr)
    (stage : lcptr'.shut = false → lcptr'.registered = false →
      lcptr.shut = false ∧ lcptr.registered = false) :
    Touches id s (s.set id lcptr') where
  others := fun other differ => set_lclients_of_ne differ
  accepted := rfl
  absent := fun gone => by rw [found] at gone; cases gone
  records := fun sauth mem => .inr ⟨sauth, mem, rfl⟩
  guarded := by
    intro guarded now found' open' fresh
    rw [set_lclients_self, Option.some.injEq] at found'
    subst found'
    obtain ⟨wasOpen, wasFresh⟩ := stage open' fresh
    exact guarded lcptr found wasOpen wasFresh

theorem touches_lclientExit (s : State) (id : Nat) : Touches id s (s.lclientExit id) where
  others := fun other differ => by simp [lclientExit, differ]
  accepted := rfl
  absent := fun _ => by simp [lclientExit]
  records := fun sauth mem => .inr ⟨sauth, mem, rfl⟩
  guarded := fun _ lcptr found => by simp [lclientExit] at found

theorem touches_updateSauth {f : LcSauth → LcSauth} (id arg : Nat)
    (same : ∀ sauth, (f sauth).lclient = sauth.lclient) : Touches id s (s.updateSauth arg f) where
  others := fun _ _ => rfl
  accepted := rfl
  absent := fun gone => gone
  records := by
    intro sauth mem
    obtain ⟨old, listed, rfl⟩ := mem_updateSauth.mp mem
    refine .inr ⟨old, listed, ?_⟩
    split
    · exact (same old).symm
    · rfl
  guarded := by
    intro guarded lcptr found open' fresh sauth mem
    obtain ⟨old, listed, rfl⟩ := mem_updateSauth.mp mem
    have apart := guarded lcptr found open' fresh old listed
    split
    · rw [same]
      exact apart
    · exact apart

theorem touches_lcSauthDone (id arg : Nat) : Touches id s (s.lcSauthDone arg) where
  others := fun _ _ => rfl
  accepted := rfl
  absent := fun gone => gone
  records := fun sauth mem => .inr ⟨sauth, List.mem_of_mem_filter mem, rfl⟩
  guarded := fun guarded lcptr found open' fresh sauth mem =>
    guarded lcptr found open' fresh sauth (List.mem_of_mem_filter mem)

theorem Touches.registrations (touches : Touches id s s') (done : List Registered) :
    Touches id s { s' with registrations := done } :=
  ⟨touches.others, touches.accepted, touches.absent, touches.records, touches.guarded⟩

theorem touches_lclientRegister (result : s.lclientRegister id outside = some s') :
    Touches id s s' := by
  obtain ⟨lcptr, found, rfl⟩ := Option.map_eq_some_iff.mp result
  split
  · exact Touches.refl id s
  split
  case isTrue registered =>
    exact touches_set found fun _ fresh => absurd (registered.symm.trans fresh) (by decide)
  case isFalse =>
    split
    · exact touches_lclientExit s id
    · exact (touches_set found fun _ fresh => absurd fresh (by simp)).registrations _

theorem touches_lcSauthLookupAuth (result : s.lcSauthLookupAuth arg id outside = some s') :
    Touches id s s' := by
  rw [lcSauthLookupAuth] at result
  split at result
  · obtain ⟨lcptr, -, rfl⟩ := Option.map_eq_some_iff.mp result
    exact touches_updateSauth id arg fun _ => rfl
  · exact touches_lclientRegister result

theorem touches_lcSauthLookupDns (result : s.lcSauthLookupDns arg id outside = some s') :
    Touches id s s' := by
  rw [lcSauthLookupDns] at result
  split at result
  · obtain ⟨lcptr, -, rfl⟩ := Option.map_eq_some_iff.mp result
    exact touches_updateSauth id arg fun _ => rfl
  · exact touches_lcSauthLookupAuth result

theorem touches_lcSauthCheckProxy (result : s.lcSauthCheckProxy arg id outside = some s') :
    Touches id s s' := by
  rw [lcSauthCheckProxy] at result
  split at result
  · obtain ⟨lcptr, -, rfl⟩ := Option.map_eq_some_iff.mp result
    exact touches_updateSauth id arg fun _ => rfl
  · exact touches_lclientRegister result

theorem touches_lcSauthDns (result : s.lcSauthDns arg id outside = some s') :
    Touches id s s' := by
  obtain ⟨next, looked, rfl⟩ := Option.map_eq_some_iff.mp result
  refine (Touches.trans ?_ (touches_lcSauthLookupAuth looked)).trans ?_
  · exact touches_updateSauth id arg fun _ => rfl
  · exact touches_updateSauth id arg fun _ => rfl

theorem touches_lcSauthAuth {ident : CString}
    (result : s.lcSauthAuth arg id ident outside = some s') : Touches id s s' := by
  obtain ⟨lcptr, found, result⟩ := Option.bind_eq_some_iff.mp result
  obtain ⟨next, checked, rfl⟩ := Option.map_eq_some_iff.mp result
  refine (Touches.trans ?_ (touches_lcSauthCheckProxy checked)).trans ?_
  · refine Touches.trans ?_ (touches_updateSauth id arg ?_)
    · exact touches_set found fun open' fresh => ⟨open', fresh⟩
    · exact fun _ => rfl
  · exact touches_updateSauth id arg fun _ => rfl

theorem touches_lcSauthProxy {sauth : LcSauth} {isOpen : Bool}
    (result : s.lcSauthProxy sauth isOpen outside = some s') : Touches sauth.lclient s s' := by
  obtain ⟨lcptr, -, result⟩ := Option.bind_eq_some_iff.mp result
  have counted : Touches sauth.lclient s
      (s.updateSauth sauth.id fun sauth => { sauth with sauthProxy := sauth.sauthProxy - 1 }) :=
    touches_updateSauth _ _ fun _ => rfl
  simp only at result
  split at result
  · rw [← Option.some.inj result]
    exact (counted.trans (touches_lcSauthDone _ _)).trans (touches_lclientExit _ _)
  split at result
  · obtain ⟨next, registered, rfl⟩ := Option.map_eq_some_iff.mp result
    exact (counted.trans (touches_lclientRegister registered)).trans (touches_lcSauthDone _ _)
  · rw [← Option.some.inj result]
    exact counted

theorem touches_enter {sauth : LcSauth} (found : s.lclients id = some lcptr)
    (own : sauth.lclient = id) : Touches id s (s.enter id lcptr sauth) where
  others := fun other differ => set_lclients_of_ne differ
  accepted := rfl
  absent := fun gone => by rw [found] at gone; cases gone
  records := by
    intro other mem
    rcases List.mem_append.mp mem with old | new
    · exact .inr ⟨other, old, rfl⟩
    · refine .inl ⟨?_, by simp [found]⟩
      rw [List.eq_of_mem_singleton new]
      exact own
  guarded := by
    intro _ now found' open'
    have entered : some { lcptr with shut := true } = some now := set_lclients_self.symm.trans found'
    rw [← Option.some.inj entered] at open'
    exact absurd open' (by simp)

theorem touches_lclientHandshake (result : s.lclientHandshake id outside = some s') :
    Touches id s s' := by
  obtain ⟨lcptr, found, result⟩ := Option.bind_eq_some_iff.mp result
  split at result
  · rw [← Option.some.inj result]
    exact Touches.refl id s
  obtain ⟨user, -, result⟩ := Option.bind_eq_some_iff.mp result
  split at result
  · rw [← Option.some.inj result]
    exact touches_lclientExit s id
  obtain ⟨next, shaken, result⟩ := Option.bind_eq_some_iff.mp result
  obtain ⟨lcptr', found', looked⟩ := Option.bind_eq_some_iff.mp shaken
  have first := (touches_enter found' rfl).trans (touches_lcSauthLookupDns looked)
  split at result
  · exact first.trans (touches_lclientRegister result)
  · rw [← Option.some.inj result]
    exact first

theorem touches_lclientLogin (result : s.lclientLogin id outside = some s') :
    Touches id s s' := by
  obtain ⟨lcptr, found, result⟩ := Option.bind_eq_some_iff.mp result
  split at result
  · rw [← Option.some.inj result]
    exact touches_set found fun open' fresh => ⟨open', fresh⟩
  obtain ⟨next, hooked, result⟩ := Option.bind_eq_some_iff.mp result
  obtain ⟨lcptr', found', hooked⟩ := Option.bind_eq_some_iff.mp hooked
  split at hooked
  case isFalse => exact absurd hooked (by simp)
  have cookie : Touches id s next := by
    rw [← Option.some.inj hooked]
    exact touches_set found' fun open' fresh => ⟨open', fresh⟩
  split at result
  · exact cookie.trans (touches_lclientHandshake result)
  · rw [← Option.some.inj result]
    exact cookie

theorem touches_handle {command : Command} (found : s.lclients id = some lcptr)
    (result : s.handle id lcptr outside command = some s') : Touches id s s' := by
  cases command with
  | nick nick =>
    cases nick with
    | none =>
      rw [← Option.some.inj result]
      exact touches_lclientExit s id
    | some nick =>
      have named : Touches id s (s.set id { lcptr with name := pendingName nick }) :=
        touches_set found fun open' fresh => ⟨open', fresh⟩
      rw [handle, mrNick] at result
      split at result
      · simp only at result
        split at result
        · rw [← Option.some.inj result]
          exact named
        · exact named.trans (touches_lclientLogin result)
      · rw [← Option.some.inj result]
        exact Touches.refl id s
  | user user =>
    have known : Touches id s (s.set id { lcptr with user := some ('~' :: strlcpy user 16) }) :=
      touches_set found fun open' fresh => ⟨open', fresh⟩
    rw [handle, mrUser] at result
    split at result
    · simp only at result
      split at result
      · rw [← Option.some.inj result]
        exact known
      · exact known.trans (touches_lclientLogin result)
    · rw [← Option.some.inj result]
      exact Touches.refl id s
  | pong data =>
    rw [handle, mrPong] at result
    split at result
    · refine Touches.trans ?_ (touches_lclientHandshake result)
      exact touches_set found fun open' fresh => ⟨open', fresh⟩
    · rw [← Option.some.inj result]
      exact Touches.refl id s

/-! ## Every run -/

/-- Connections have numbers that were given away, and there is no record of those that may
send commands. -/
structure Sorted (s : State) : Prop where
  bound : ∀ id lcptr, s.lclients id = some lcptr → id < s.accepted
  refers : ∀ sauth ∈ s.lcSauthList, sauth.lclient < s.accepted
  guarded : ∀ id, s.Guarded id

theorem Sorted.touches (sorted : s.Sorted) (touches : Touches id s s') : s'.Sorted where
  bound := by
    intro other lcptr found
    rw [touches.accepted]
    by_cases own : other = id
    · subst own
      cases before : s.lclients other with
      | none =>
        rw [touches.absent before] at found
        cases found
      | some old => exact sorted.bound other old before
    · rw [touches.others other own] at found
      exact sorted.bound other lcptr found
  refers := by
    intro sauth mem
    rw [touches.accepted]
    rcases touches.records sauth mem with ⟨own, there⟩ | ⟨old, mem, same⟩
    · obtain ⟨lcptr, found⟩ := Option.ne_none_iff_exists'.mp there
      rw [own]
      exact sorted.bound id lcptr found
    · rw [← same]
      exact sorted.refers old mem
  guarded := by
    intro other
    by_cases own : other = id
    · subst own
      exact touches.guarded (sorted.guarded other)
    · intro lcptr found open' fresh sauth mem same
      rw [touches.others other own] at found
      rcases touches.records sauth mem with ⟨mine, -⟩ | ⟨old, mem, also⟩
      · exact own (same.symm.trans mine)
      · exact sorted.guarded other lcptr found open' fresh old mem (also.trans same)

theorem Sorted.accept (sorted : s.Sorted) (lcptr : Lclient) :
    Sorted { s.set s.accepted lcptr with accepted := s.accepted + 1 } where
  bound := by
    intro id other found
    change (s.set s.accepted lcptr).lclients id = some other at found
    by_cases own : id = s.accepted
    · exact own ▸ Nat.lt_succ_self id
    · rw [set_lclients_of_ne own] at found
      exact Nat.lt_succ_of_lt (sorted.bound id other found)
  refers := fun sauth mem => Nat.lt_succ_of_lt (sorted.refers sauth mem)
  guarded := by
    intro id other found open' fresh sauth mem same
    change (s.set s.accepted lcptr).lclients id = some other at found
    have old := sorted.refers sauth mem
    have differ : id ≠ s.accepted := fun own => by omega
    rw [set_lclients_of_ne differ] at found
    exact sorted.guarded id other found open' fresh sauth mem same

/-- An event changes nothing, or is about one connection: that of the command or the record. -/
theorem touches_step {event : Event} (result : s.step event = some s') :
    event = .accept ∨ s' = s ∨ ∃ id, Touches id s s' ∧
      (event = .exit id ∨ (∃ command outside, event = .command id command outside) ∨
        ∃ sauth ∈ s.lcSauthList, sauth.lclient = id) := by
  cases event with
  | accept => exact .inl rfl
  | command id command outside =>
    rw [step] at result
    split at result
    · exact .inr (.inl (Option.some.inj result).symm)
    next lcptr found =>
      split at result
      · exact .inr (.inl (Option.some.inj result).symm)
      · exact .inr (.inr ⟨id, touches_handle found result, .inr (.inl ⟨command, outside, rfl⟩)⟩)
  | exit id =>
    rw [← Option.some.inj result]
    exact .inr (.inr ⟨id, touches_lclientExit s id, .inl rfl⟩)
  | dns arg outside =>
    rw [step] at result
    split at result
    · exact .inr (.inl (Option.some.inj result).symm)
    next sauth found =>
      exact .inr (.inr ⟨_, touches_lcSauthDns result,
        .inr (.inr ⟨sauth, (findSauth_eq_some found).1, rfl⟩)⟩)
  | auth arg ident outside =>
    rw [step] at result
    split at result
    · exact .inr (.inl (Option.some.inj result).symm)
    next sauth found =>
      exact .inr (.inr ⟨_, touches_lcSauthAuth result,
        .inr (.inr ⟨sauth, (findSauth_eq_some found).1, rfl⟩)⟩)
  | proxy arg isOpen outside =>
    rw [step] at result
    split at result
    · exact .inr (.inl (Option.some.inj result).symm)
    next sauth found =>
      exact .inr (.inr ⟨_, touches_lcSauthProxy result,
        .inr (.inr ⟨sauth, (findSauth_eq_some found).1, rfl⟩)⟩)

theorem Sorted.step {event : Event} (sorted : s.Sorted) (result : s.step event = some s') :
    s'.Sorted := by
  rcases touches_step result with rfl | rfl | ⟨id, touches, -⟩
  · rw [← Option.some.inj result]
    exact sorted.accept _
  · exact sorted
  · exact sorted.touches touches

theorem sorted_init : init.Sorted where
  bound := fun _ _ found => by cases found
  refers := fun _ mem => by cases mem
  guarded := fun _ _ found => by cases found

theorem sorted_run {events : List Event}
    (run : TransitionSystem.run State.step init events = some s) : s.Sorted :=
  TransitionSystem.invariant_of_run (fun _ _ _ sorted result => sorted.step result) sorted_init run

/-! ## A connection that waits for a name -/

/-- The connection has given its user, and has neither a name nor a cookie. -/
structure Unnamed (lcptr : Lclient) : Prop where
  name : lcptr.name = []
  user : lcptr.user ≠ none
  cookie : lcptr.cookie = none
  fresh : lcptr.registered = false
  reads : lcptr.shut = false

/-- The connection is gone, or waits for a name. -/
structure Waits (s : State) (id : Nat) : Prop where
  bound : id < s.accepted
  unnamed : ∀ lcptr, s.lclients id = some lcptr → Unnamed lcptr

/-- A connection that waits for a name ignores every other command. -/
theorem handle_of_unnamed {command : Command} (unnamed : Unnamed lcptr)
    (other : NoNick id (.command id command outside))
    (result : s.handle id lcptr outside command = some s') : s' = s := by
  cases command with
  | nick nick => exact absurd rfl other
  | user user =>
    rw [handle, mrUser, if_neg unnamed.user] at result
    exact (Option.some.inj result).symm
  | pong data =>
    rw [handle, mrPong, unnamed.cookie, if_neg (Option.some_ne_none data).symm] at result
    exact (Option.some.inj result).symm

/-- Nothing but a `NICK` of its own changes a connection that waits for a name, apart from its
exit. -/
theorem lclients_of_waits {event : Event} (waits : s.Waits id) (sorted : s.Sorted)
    (other : NoNick id event) (result : s.step event = some s') :
    s.accepted ≤ s'.accepted ∧
      (s'.lclients id = s.lclients id ∨ s'.lclients id = none) := by
  rcases touches_step result with rfl | rfl | ⟨touched, touches, about⟩
  · rw [← Option.some.inj result]
    exact ⟨Nat.le_succ _, .inl (set_lclients_of_ne (Nat.ne_of_lt waits.bound))⟩
  · exact ⟨le_rfl, .inl rfl⟩
  refine ⟨touches.accepted.ge, ?_⟩
  by_cases own : id = touched
  swap
  · exact .inl (touches.others id own)
  subst own
  cases found : s.lclients id with
  | none => exact .inr (touches.absent found)
  | some lcptr =>
    have unnamed := waits.unnamed lcptr found
    rcases about with rfl | ⟨command, outside, rfl⟩ | ⟨sauth, mem, same⟩
    · rw [← Option.some.inj result]
      exact .inr (by simp [lclientExit])
    · rw [step, found] at result
      simp only [unnamed.fresh, unnamed.reads, Bool.false_eq_true, or_self, if_false] at result
      rw [handle_of_unnamed unnamed other result, found]
      exact .inl rfl
    · exact absurd same (sorted.guarded id lcptr found unnamed.reads unnamed.fresh sauth mem)

theorem Waits.step {event : Event} (waits : s.Waits id) (sorted : s.Sorted)
    (other : NoNick id event) (result : s.step event = some s') : s'.Waits id := by
  obtain ⟨later, still | gone⟩ := lclients_of_waits waits sorted other result
  · refine ⟨lt_of_lt_of_le waits.bound later, fun lcptr found => waits.unnamed lcptr ?_⟩
    rw [← still]
    exact found
  · refine ⟨lt_of_lt_of_le waits.bound later, fun lcptr found => ?_⟩
    rw [gone] at found
    cases found

theorem set_set (s : State) (id : Nat) (lcptr lcptr' : Lclient) :
    (s.set id lcptr).set id lcptr' = s.set id lcptr' := by
  simp [set]

theorem pendingName_of_usable {nick : CString} (usable : Usable nick outside) :
    pendingName nick = nick := by
  have fits := usable.fits
  rw [pendingName, strlcpy_eq_self (by omega), List.takeWhile_eq_self_iff]
  intro c listed
  have nickchar : charsIsnickchar c = true := by
    have valid := usable.valid
    unfold charsValidNick at valid
    split at valid
    · exact absurd listed List.not_mem_nil
    · rw [Bool.and_eq_true] at valid
      exact List.all_eq_true.mp valid.2 c listed
  rw [decide_eq_true_eq]
  rintro rfl
  exact absurd nickchar (by decide)

/-- Where the connection has no name, the login with a usable nick gets to the cookie. -/
theorem step_nick (found : s.lclients id = some lcptr) (name : lcptr.name = [])
    (user : lcptr.user ≠ none) (fresh : lcptr.registered = false) (reads : lcptr.shut = false)
    {nick : CString} (usable : Usable nick outside) :
    s.step (.command id (.nick (some nick)) outside) =
      if lcptr.cookie = none then
        (s.set id { lcptr with name := nick, cookie := some outside.data }).goOn id outside
      else none := by
  have pending := pendingName_of_usable usable
  rw [pendingName] at pending
  have notYet : ¬(lcptr.registered = true ∨ lcptr.shut = true) := by
    rw [fresh, reads]
    decide
  rw [step, found]
  change (if lcptr.registered = true ∨ lcptr.shut = true then some s else _) = _
  rw [if_neg notYet, handle, mrNick, if_pos name]
  simp only [pending, if_neg user]
  rw [lclientLogin, set_lclients_self, Option.bind_some, usable.unused, if_neg Bool.false_ne_true,
    lcCookieHook, set_lclients_self, Option.bind_some]
  split
  · rw [Option.bind_some, set_set]
    rfl
  · rfl

/-- Where the connection has a name, another one is ignored. -/
theorem step_nick_of_named (found : s.lclients id = some lcptr) (named : lcptr.name ≠ [])
    (fresh : lcptr.registered = false) (reads : lcptr.shut = false) (nick : CString) :
    s.step (.command id (.nick (some nick)) outside) = some s := by
  have notYet : ¬(lcptr.registered = true ∨ lcptr.shut = true) := by
    rw [fresh, reads]
    decide
  rw [step, found]
  change (if lcptr.registered = true ∨ lcptr.shut = true then some s else _) = _
  rw [if_neg notYet, handle, mrNick, if_neg named]

theorem canReplace_of_waits (waits : s.Waits id) : s.CanReplace id := by
  intro lcptr found nick outside usable
  obtain ⟨name, user, cookie, fresh, reads⟩ := waits.unnamed lcptr found
  rw [step_nick found name user fresh reads usable, if_pos cookie]

/-- What a refusal leaves: after the first kind the connection has no name, after the second it
still has the one that was refused. -/
structure Refused (s : State) (id : Nat) (cookie : Option CString) (answer : Refusal)
    (lcptr : Lclient) : Prop where
  found : s.lclients id = some lcptr
  fresh : lcptr.registered = false
  reads : lcptr.shut = false
  taken : answer = .nicknameInUse → lcptr.name = [] ∧ lcptr.user ≠ none ∧ lcptr.cookie = cookie
  kept : answer = .erroneusNickname → lcptr.name ≠ []

theorem ne_nil_of_handshakeRefusal {answer : Refusal}
    (refused : handshakeRefusal lcptr = some answer) :
    answer = .erroneusNickname ∧ charsValidNick lcptr.name = false ∧ lcptr.name ≠ [] := by
  rw [handshakeRefusal] at refused
  split at refused
  case isFalse => cases refused
  case isTrue invalid =>
    rw [Bool.not_eq_true'] at invalid
    refine ⟨(Option.some.inj refused).symm, invalid, fun empty => ?_⟩
    rw [empty] at invalid
    cases invalid

theorem refused_of_handshake (lcptr : Lclient) {answer : Refusal} {cookie : Option CString}
    (refused : handshakeRefusal lcptr = some answer)
    (result : s.lclientHandshake id outside = some s') (found : s.lclients id = some lcptr)
    (fresh : lcptr.registered = false) (reads : lcptr.shut = false) :
    Refused s' id cookie answer lcptr := by
  obtain ⟨rfl, invalid, named⟩ := ne_nil_of_handshakeRefusal refused
  rw [lclientHandshake, found, Option.bind_some, invalid] at result
  rw [← Option.some.inj result]
  exact ⟨found, fresh, reads, fun other => absurd other (by decide), fun _ => named⟩

theorem refused_of_login (lcptr : Lclient) {answer : Refusal}
    (refused : loginRefusal lcptr outside = some answer) (result : s.lclientLogin id outside = some s') (found : s.lclients id = some lcptr)
    (user : lcptr.user ≠ none) (fresh : lcptr.registered = false) (reads : lcptr.shut = false) :
    ∃ lcptr', Refused s' id lcptr.cookie answer lcptr' := by
  rw [loginRefusal] at refused
  rw [lclientLogin, found, Option.bind_some] at result
  split at refused
  case isTrue inUse =>
    rw [if_pos inUse] at result
    rw [← Option.some.inj result, ← Option.some.inj refused]
    exact ⟨_, set_lclients_self, fresh, reads, fun _ => ⟨rfl, user, rfl⟩,
      fun other => absurd other (by decide)⟩
  case isFalse unused =>
    rw [if_neg unused] at result
    split at refused
    case isFalse => cases refused
    case isTrue direct =>
      rw [lcCookieHook, found, Option.bind_some, if_pos direct.1, Option.bind_some,
        if_pos direct.2] at result
      exact ⟨_, refused_of_handshake { lcptr with cookie := some outside.data } refused result
        set_lclients_self fresh reads⟩

theorem refused_of_step {command : Command} {answer : Refusal}
    (found : s.lclients id = some lcptr) (fresh : lcptr.registered = false)
    (reads : lcptr.shut = false) (refused : refusal lcptr outside command = some answer)
    (result : s.step (.command id command outside) = some s') :
    ∃ lcptr', Refused s' id lcptr.cookie answer lcptr' := by
  have notYet : ¬(lcptr.registered = true ∨ lcptr.shut = true) := by
    rw [fresh, reads]
    decide
  rw [step, found] at result
  change (if lcptr.registered = true ∨ lcptr.shut = true then some s else _) = _ at result
  rw [if_neg notYet] at result
  cases command with
  | nick nick =>
    cases nick with
    | none => cases refused
    | some nick =>
      rw [refusal] at refused
      split at refused
      case isFalse => cases refused
      case isTrue accepts =>
        rw [handle, mrNick, if_pos accepts.1] at result
        simp only [if_neg accepts.2] at result
        exact refused_of_login { lcptr with name := pendingName nick } refused result
          set_lclients_self accepts.2 fresh reads
  | user user =>
    rw [refusal] at refused
    split at refused
    case isFalse => cases refused
    case isTrue accepts =>
      rw [handle, mrUser, if_pos accepts.1] at result
      simp only [if_neg accepts.2] at result
      exact refused_of_login { lcptr with user := some ('~' :: strlcpy user 16) } refused result
        set_lclients_self (Option.some_ne_none _) fresh reads
  | pong data =>
    rw [refusal] at refused
    split at refused
    case isFalse => cases refused
    case isTrue same =>
      rw [handle, mrPong, if_pos same] at result
      exact ⟨_, refused_of_handshake { lcptr with cookie := none, answered := true } refused result
        set_lclients_self fresh reads⟩

/-- Nicks that are free while nothing is put off. -/
theorem usable_of_letter {c : Char} (letter : c = 'a' ∨ c = 'b') :
    Usable [c] ⟨false, [], 1, 1, true, true, 1, false⟩ := by
  rcases letter with rfl | rfl <;> exact ⟨by decide, by decide, by decide, rfl⟩

/-- A cookie that is outstanding, or a name, is in the way of the next nick. -/
theorem unnamed_of_canReplace (found : s.lclients id = some lcptr)
    (fresh : lcptr.registered = false) (reads : lcptr.shut = false) (can : s.CanReplace id) :
    lcptr.name = [] ∧ (lcptr.user ≠ none → lcptr.cookie = none) := by
  have name : lcptr.name = [] := by
    by_contra named
    have first := can lcptr found ['a'] _ (usable_of_letter (.inl rfl))
    have second := can lcptr found ['b'] _ (usable_of_letter (.inr rfl))
    rw [step_nick_of_named found named fresh reads] at first second
    rw [goOn, if_neg (by decide), Option.some.injEq] at first second
    have names : some ['a'] = some ['b'] := by
      calc
        some ['a'] = (s.lclients id).map Lclient.name := by
          rw [first, set_lclients_self]
          rfl
        _ = some ['b'] := by
          rw [second, set_lclients_self]
          rfl
    exact absurd names (by decide)
  refine ⟨name, fun user => ?_⟩
  by_contra cookie
  have next := can lcptr found ['a'] _ (usable_of_letter (.inl rfl))
  rw [step_nick found name user fresh reads (usable_of_letter (.inl rfl)), if_neg cookie, goOn,
    if_neg (by decide)] at next
  cases next

/-- In every run: after a refusal the next usable nick becomes the name of the connection, and
starts the login again, whatever comes before it, exactly if the nick was refused because it is
in use and no cookie is outstanding. -/
theorem refused_nick_iff {events : List Event} {command : Command} {answer : Refusal}
    (run : TransitionSystem.run State.step init events = some s)
    (found : s.lclients id = some lcptr) (fresh : lcptr.registered = false)
    (reads : lcptr.shut = false) (refused : refusal lcptr outside command = some answer)
    (result : s.step (.command id command outside) = some s') :
    (∀ later final, TransitionSystem.GuardedRun State.step (fun _ => NoNick id) s' later →
        TransitionSystem.run State.step s' later = some final → final.CanReplace id) ↔
      answer = .nicknameInUse ∧ lcptr.cookie = none := by
  have sorted := sorted_run run
  obtain ⟨now, left⟩ := refused_of_step found fresh reads refused result
  constructor
  · intro always
    obtain ⟨name, cookie⟩ := unnamed_of_canReplace left.found left.fresh left.reads
      (always [] s' trivial rfl)
    cases answer with
    | erroneusNickname => exact absurd name (left.kept rfl)
    | nicknameInUse =>
      obtain ⟨-, user, same⟩ := left.taken rfl
      exact ⟨rfl, same.symm.trans (cookie user)⟩
  · rintro ⟨taken, noCookie⟩ later final guarded runs
    obtain ⟨name, user, cookie⟩ := left.taken taken
    have sorted' := sorted.step result
    have waits : s'.Waits id := by
      refine ⟨sorted'.bound id now left.found, fun other found' => ?_⟩
      rw [left.found, Option.some.injEq] at found'
      subst found'
      exact ⟨name, user, cookie.trans noCookie, left.fresh, left.reads⟩
    have both : final.Waits id ∧ final.Sorted :=
      @TransitionSystem.invariant_of_guardedRun State Event State.step (fun _ => NoNick id)
        (fun s => s.Waits id ∧ s.Sorted)
        (fun _ _ _ holds other result => ⟨holds.1.step holds.2 other result, holds.2.step result⟩)
        s' final later ⟨waits, sorted'⟩ guarded runs
    exact canReplace_of_waits both.1

end State

/-- A connection that has given its user. -/
def withUser : List Event :=
  [.accept, .command 0 (.user "u".toList) smooth]

/-- The connection asks for a nick that is in use. -/
def takenNick : Event :=
  .command 0 (.nick (some "ab".toList)) { smooth with inUse := true }

theorem isSome_withUser : (TransitionSystem.run State.step State.init withUser).isSome := by
  decide

theorem isSome_takenNick :
    (((TransitionSystem.run State.step State.init withUser).get isSome_withUser).step
      takenNick).isSome := by
  decide

theorem refused_nick_iff_taken :
    (∀ later final,
        TransitionSystem.GuardedRun State.step (fun _ => State.NoNick 0)
            (Option.get _ isSome_takenNick) later →
          TransitionSystem.run State.step (Option.get _ isSome_takenNick) later = some final →
            final.CanReplace 0) ↔
      Refusal.nicknameInUse = .nicknameInUse ∧ (none : Option CString) = none :=
  @State.refused_nick_iff (Option.get _ isSome_withUser) (Option.get _ isSome_takenNick) 0
    ⟨[], some "~u".toList, false, false, none, false⟩ { smooth with inUse := true } withUser
    (.nick (some "ab".toList)) .nicknameInUse (Option.some_get _).symm rfl rfl rfl rfl
    (Option.some_get _).symm

/-- The cookie that the connection is sent for an erroneous nick comes back. -/
def erroneous : List Event :=
  withUser ++ [.command 0 (.nick (some "1ab".toList)) smooth]

/-- An erroneous nick is refused, and stays the name when another nick is sent. -/
theorem erroneous_nick_stays :
    ((TransitionSystem.run State.step State.init erroneous).bind fun s =>
        (s.lclients 0).bind fun lcptr => refusal lcptr smooth (.pong smooth.data)) =
      some .erroneusNickname ∧
    ((TransitionSystem.run State.step State.init
        (erroneous ++ [.command 0 (.pong smooth.data) smooth,
          .command 0 (.nick (some "ab".toList)) smooth])).bind fun s =>
        (s.lclients 0).map Lclient.name) = some "1ab".toList := by
  decide

end RegistrationGate

end Chaosircd
