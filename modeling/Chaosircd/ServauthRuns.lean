import Chaosircd.ServauthSlots
import Mathlib.Data.List.GetD

/-!
# Runs of the lookup process

Which requests keep the slots sound.  A lookup needs a free slot, one that connects needs a
connection that can be begun, and a proxy check needs its test address and type in order,
which are looked at only after the slot is taken.  At the end of a lookup the ident server has
to send a colon, and a reply about a proxy needs an entry of the cache that can be given up.
-/

namespace Chaosircd

namespace Servauth

/-- The test address and the type of a proxy command are what `query_set_proxy` expects. -/
def TestAddressed (av : List CString) : Prop :=
  match av with
  | [_, _, _, l, t] =>
    (splitPort l).2 ≠ none ∧ netAton (splitPort l).1 ≠ none ∧ proxyParseType t ≠ none
  | _ => False

/-- What a request has to meet, in the state that it finds. -/
def Fits (s : State) : Event → Prop
  | .line text begun =>
    match controlParse s text with
    | .launch _ _ lookup =>
      (∃ q ∈ s.slots, q.IsFree) ∧ (lookup = .auth ∨ lookup = .proxy → begun = true) ∧
        (lookup = .proxy → TestAddressed (strTokenize 16 (ioGets 1024 text)))
    | _ => True
  | .done i outcome =>
    match s.slots[i]?, outcome with
    | some q, .identLine line => q.auth = true → ':' ∈ ioGets 512 line
    | some q, .proxy _ => q.proxy = true → Replaceable [3, 4, 6, 2, 1] s.proxycache
    | _, _ => True
  | .tick _ => True

/-! ## Commands -/

/-- The commands that start a lookup. -/
inductive Launches : List CString → CString → (Query → Setting) → Lookup → Prop where
  | auth (name id ip l r : CString) (addressed : netAton ip ≠ none) :
      Launches [name, id, ip, l, r] id (querySetAuth id ip l r) .auth
  | dnsForward (name kind id host : CString) :
      Launches [name, kind, id, host] id (querySetHost id host) .dnsForward
  | dnsReverse (name kind id ip : CString) (addressed : netAton ip ≠ none) :
      Launches [name, kind, id, ip] id (querySetAddr id ip) .dnsReverse
  | proxy (name id r l t : CString) (ported : (splitPort r).2 ≠ none)
      (addressed : netAton (splitPort r).1 ≠ none) :
      Launches [name, id, r, l, t] id (querySetProxy id r l t) .proxy

/-- What a command can come to: an answer leaves all but the caches alone, and a lookup is
started by one of four commands. -/
def Task.Of (s : State) (av : List CString) : Task → Prop
  | .nothing => True
  | .reject => True
  | .answer s' _ _ _ =>
    s.Alike s' ∧ (Yielding [1, 2] s.authcache → Yielding [1, 2] s'.authcache) ∧
      (Yielding [1, 2] s.dnscache → Yielding [1, 2] s'.dnscache)
  | .launch id set lookup => Launches av id set lookup

section Commands

variable {s : State} (running : s.status = .running)

include running

theorem cmdAuth_of (av : List CString) : (cmdAuth s av).Of s av := by
  unfold cmdAuth
  split
  · rename_i name id ip l r
    split
    · trivial
    · rename_i addr parsed
      split
      · rename_i picked found
        refine ⟨⟨rfl, rfl, rfl, by simp [running]⟩, ?_, fun yielding => yielding⟩
        exact fun yielding => yielding.of_cachePick found
      · exact .auth name id ip l r (by simp [parsed])
  · trivial

theorem cmdDnsReverse_of (av : List CString) : (cmdDnsReverse s av).Of s av := by
  unfold cmdDnsReverse
  split
  · rename_i name kind id ip
    split
    · trivial
    · rename_i addr parsed
      split
      · rename_i picked found
        refine ⟨⟨rfl, rfl, rfl, by simp [running]⟩, fun yielding => yielding, ?_⟩
        exact fun yielding => yielding.of_cachePick found
      · exact .dnsReverse name kind id ip (by simp [parsed])
  · trivial

omit running in
theorem cmdDnsForward_of (av : List CString) : (cmdDnsForward av).Of s av := by
  unfold cmdDnsForward
  split
  · exact .dnsForward _ _ _ _
  · trivial

theorem cmdDns_of (av : List CString) : (cmdDns s av).Of s av := by
  unfold cmdDns
  split
  · split
    · exact cmdDnsReverse_of running _
    · split
      · exact cmdDnsForward_of _
      · trivial
  · trivial

theorem cmdProxy_of (av : List CString) : (cmdProxy s av).Of s av := by
  unfold cmdProxy
  split
  · rename_i name id r l t
    split
    · rename_i port addr ported parsed
      split
      · exact ⟨⟨rfl, rfl, rfl, by simp [running]⟩, fun yielding => yielding,
          fun yielding => yielding⟩
      · exact .proxy name id r l t (by simp [ported]) (by simp [parsed])
    · trivial
  · trivial

theorem controlParse_of (text : CString) :
    (controlParse s text).Of s (strTokenize 16 (ioGets 1024 text)) := by
  unfold controlParse
  split
  · trivial
  · unfold controlExec
    split
    · trivial
    · split
      · exact cmdDns_of running _
      · split
        · exact cmdAuth_of running _
        · split
          · exact cmdProxy_of running _
          · split <;> trivial

end Commands

/-! ## Lookups -/

/-- The slot is given to the command, and its lookups are left as they are. -/
def Setting.Fills (id : CString) (q : Query) : Setting → Prop
  | .filled q' => q'.id = some id ∧ q'.dns = q.dns ∧ q'.auth = q.auth ∧ q'.proxy = q.proxy
  | _ => False

/-- The slot is taken, but not for a lookup. -/
def Setting.Spoils (q : Query) : Setting → Prop
  | .filled _ => False
  | .failed q' => ¬ q'.IsFree ∧ q'.pending = q.pending
  | .crashed => True

theorem Launches.fills {av : List CString} {id : CString} {set : Query → Setting}
    {lookup : Lookup} (launches : Launches av id set lookup)
    (inOrder : lookup = .proxy → TestAddressed av) (q : Query) : (set q).Fills id q := by
  cases launches with
  | auth name id ip l r addressed =>
      obtain ⟨addr, parsed⟩ := Option.ne_none_iff_exists'.mp addressed
      simp [querySetAuth, parsed, Setting.Fills]
  | dnsForward name kind id host => simp [querySetHost, Setting.Fills]
  | dnsReverse name kind id ip addressed =>
      obtain ⟨addr, parsed⟩ := Option.ne_none_iff_exists'.mp addressed
      simp [querySetAddr, parsed, Setting.Fills]
  | proxy name id r l t ported addressed =>
      obtain ⟨port, hasPort⟩ := Option.ne_none_iff_exists'.mp ported
      obtain ⟨addr, parsed⟩ := Option.ne_none_iff_exists'.mp addressed
      obtain ⟨testPorted, testAddressed, known⟩ := inOrder rfl
      obtain ⟨testPort, hasTestPort⟩ := Option.ne_none_iff_exists'.mp testPorted
      obtain ⟨testAddr, testParsed⟩ := Option.ne_none_iff_exists'.mp testAddressed
      simp [querySetProxy, hasPort, parsed, hasTestPort, testParsed, known, Setting.Fills]

theorem Launches.spoils {av : List CString} {id : CString} {set : Query → Setting}
    (launches : Launches av id set .proxy) (disorder : ¬ TestAddressed av) (q : Query) :
    (set q).Spoils q := by
  cases launches with
  | proxy name id r l t ported addressed =>
      obtain ⟨port, hasPort⟩ := Option.ne_none_iff_exists'.mp ported
      obtain ⟨addr, parsed⟩ := Option.ne_none_iff_exists'.mp addressed
      cases testParsed : netAton (splitPort l).1 with
      | none => simp [querySetProxy, hasPort, parsed, testParsed, Setting.Spoils, Query.IsFree,
          Query.pending]
      | some testAddr =>
          cases hasTestPort : (splitPort l).2 with
          | none => simp [querySetProxy, hasPort, parsed, testParsed, hasTestPort,
              Setting.Spoils]
          | some testPort =>
              have unknown : proxyParseType t = none := by
                by_contra known
                exact disorder ⟨by simp [hasTestPort], by simp [testParsed], known⟩
              simp [querySetProxy, hasPort, parsed, testParsed, hasTestPort, unknown,
                Setting.Spoils, Query.IsFree, Query.pending]

theorem queryFind_eq_some {slots : List Query} {i : Nat} (found : queryFind slots = some i) :
    ∃ inside : i < slots.length, slots[i].IsFree := by
  obtain ⟨inside, free, _⟩ := List.findIdx?_eq_some_iff_getElem.mp found
  exact ⟨inside, of_decide_eq_true free⟩

theorem queryFind_eq_none {slots : List Query} :
    queryFind slots = none ↔ ¬ ∃ q ∈ slots, q.IsFree := by
  simp [queryFind, List.findIdx?_eq_none_iff]

theorem Query.idle_of_pending {q : Query} (idle : q.pending = 0) :
    q.dns = none ∧ q.auth = false ∧ q.proxy = false := by
  unfold Query.pending at idle
  cases dns : q.dns <;> cases auth : q.auth <;> cases proxy : q.proxy <;>
    simp [dns, auth, proxy] at idle ⊢

/-- A lookup that could be begun is the one that is pending. -/
theorem queryStart_begun {lookup : Lookup} {begun : Bool} {q : Query}
    (connected : lookup = .auth ∨ lookup = .proxy → begun = true) (idle : q.pending = 0) :
    ∃ q', queryStart lookup begun q = (q', true) ∧ q'.id = q.id ∧ q'.serial = q.serial ∧
      q'.pending = 1 := by
  obtain ⟨dns, auth, proxy⟩ := Query.idle_of_pending idle
  cases lookup with
  | dnsReverse => simp [queryStart, Query.pending, auth, proxy]
  | dnsForward => simp [queryStart, Query.pending, auth, proxy]
  | auth => simp [queryStart, Query.pending, connected, dns, proxy]
  | proxy => simp [queryStart, Query.pending, connected, dns, auth]

/-- A connection that could not be begun leaves the query without a lookup. -/
theorem queryStart_failed {lookup : Lookup} {q : Query}
    (connects : lookup = .auth ∨ lookup = .proxy) (idle : q.pending = 0) :
    ∃ q', queryStart lookup false q = (q', false) ∧ q'.id = q.id ∧ q'.pending = 0 := by
  obtain ⟨dns, auth, proxy⟩ := Query.idle_of_pending idle
  rcases connects with rfl | rfl <;> simp [queryStart, Query.pending, dns, auth, proxy]

namespace State

variable {s : State} {av : List CString} {id : CString} {set : Query → Setting}
  {lookup : Lookup}

/-- A lookup that has all that it needs occupies a slot. -/
theorem Sound.launch (sound : s.Sound) {begun : Bool} (launches : Launches av id set lookup)
    (room : ∃ q ∈ s.slots, q.IsFree) (connected : lookup = .auth ∨ lookup = .proxy → begun = true)
    (inOrder : lookup = .proxy → TestAddressed av) : (s.launch begun id set lookup).Sound := by
  obtain ⟨i, found⟩ := Option.ne_none_iff_exists'.mp (queryFind_eq_none.not.mpr (not_not_intro room))
  obtain ⟨inside, free⟩ := queryFind_eq_some found
  have idle : s.slots[i].pending = 0 := by
    rw [sound.pending _ (List.getElem_mem inside), if_pos free]
  have fills := launches.fills inOrder s.slots[i]
  unfold State.launch
  rw [found]
  dsimp only
  rw [List.getD_eq_getElem _ _ inside]
  cases filled : set s.slots[i] with
  | crashed => simp [filled, Setting.Fills] at fills
  | failed q => simp [filled, Setting.Fills] at fills
  | filled q =>
      rw [filled] at fills
      obtain ⟨named, dns, auth, proxy⟩ := fills
      have idle' : { q with serial := some s.accepted.length }.pending = 0 := by
        rw [← idle]
        simp only [Query.pending, dns, auth, proxy]
      obtain ⟨q', started, sameId, serial, pending⟩ := queryStart_begun connected idle'
      dsimp only
      rw [started]
      exact sound.occupy inside free (sameId.trans named) serial pending

/-- A lookup that is not sound to start: a slot is missing, the connection fails, or the proxy
command is not in order. -/
theorem fits_of_sound_launch (sound : s.Sound) {begun : Bool}
    (launches : Launches av id set lookup) (after : (s.launch begun id set lookup).Sound) :
    (∃ q ∈ s.slots, q.IsFree) ∧ (lookup = .auth ∨ lookup = .proxy → begun = true) ∧
      (lookup = .proxy → TestAddressed av) := by
  unfold State.launch at after
  cases found : queryFind s.slots with
  | none =>
      rw [found] at after
      exact absurd after (not_sound_crash s)
  | some i =>
      obtain ⟨inside, free⟩ := queryFind_eq_some found
      have idle : s.slots[i].pending = 0 := by
        rw [sound.pending _ (List.getElem_mem inside), if_pos free]
      rw [found] at after
      dsimp only at after
      rw [List.getD_eq_getElem _ _ inside] at after
      have inOrder : lookup = .proxy → TestAddressed av := by
        rintro rfl
        by_contra disorder
        have spoils := launches.spoils disorder s.slots[i]
        cases spoiled : set s.slots[i] with
        | filled q => simp [spoiled, Setting.Spoils] at spoils
        | crashed =>
            rw [spoiled] at after
            exact not_sound_crash s after
        | failed q =>
            rw [spoiled] at after spoils
            exact not_sound_of_leak inside spoils.1 (spoils.2.trans idle) after
      refine ⟨⟨_, List.getElem_mem inside, free⟩, ?_, inOrder⟩
      intro connects
      by_contra notBegun
      obtain rfl : begun = false := by simpa using notBegun
      have fills := launches.fills inOrder s.slots[i]
      cases filled : set s.slots[i] with
      | crashed => simp [filled, Setting.Fills] at fills
      | failed q => simp [filled, Setting.Fills] at fills
      | filled q =>
          rw [filled] at fills after
          obtain ⟨named, dns, auth, proxy⟩ := fills
          have idle' : { q with serial := some s.accepted.length }.pending = 0 := by
            rw [← idle]
            simp only [Query.pending, dns, auth, proxy]
          obtain ⟨q', started, sameId, pending⟩ := queryStart_failed connects idle'
          dsimp only at after
          rw [started] at after
          refine not_sound_of_leak inside ?_ ?_ after
          · simp [Query.IsFree, sameId, named]
          · exact pending

/-! ## Callbacks -/

/-- A slot replies and is free again, and the caches may have changed. -/
theorem Inv.release (inv : s.Inv) {i : Nat} (inside : i < s.slots.length) {id : CString}
    (named : s.slots[i].id = some id) (kind : ReplyKind) (text : Option CString)
    {authcache : List (CacheEntry Nat Unit)} {dnscache : List (CacheEntry Nat CString)}
    (proxycache : List (CacheEntry (Nat × Nat × Option Nat) Unit))
    (auth : Yielding [1, 2] authcache) (dns : Yielding [1, 2] dnscache) :
    ({ s.send s.slots[i].serial kind id text with
        authcache := authcache, dnscache := dnscache, proxycache := proxycache }.queryFree
      i).Inv := by
  refine ⟨Alike.sound ?_ (inv.toSound.release inside named kind text), auth, dns⟩
  exact ⟨rfl, rfl, rfl, inv.alive⟩

theorem Inv.authDone (inv : s.Inv) {i : Nat} (inside : i < s.slots.length) {id : CString}
    (named : s.slots[i].id = some id) (reply : CString) :
    (s.authDone i s.slots[i] id reply).Inv := by
  unfold State.authDone
  split
  · exact inv.release inside named .auth (some reply) s.proxycache inv.auth inv.dns
  · obtain ⟨authcache, put⟩ := Option.isSome_iff_exists.mp (isSome_cachePut.mpr
      inv.auth.replaceable)
    dsimp only [State.send]
    rw [put]
    exact inv.release inside named .auth none s.proxycache
      (inv.auth.of_cachePut (by simp) put) inv.dns

theorem Inv.dnsForwardDone (inv : s.Inv) {i : Nat} (inside : i < s.slots.length) {id : CString}
    (named : s.slots[i].id = some id) (addr : Nat) :
    (s.dnsForwardDone i s.slots[i] id addr).Inv := by
  unfold State.dnsForwardDone
  split
  · exact inv.release inside named .dnsForward (some (netNtoa addr)) s.proxycache inv.auth
      inv.dns
  · exact inv.release inside named .dnsForward none s.proxycache inv.auth inv.dns

theorem Inv.dnsReverseDone (inv : s.Inv) {i : Nat} (inside : i < s.slots.length) {id : CString}
    (named : s.slots[i].id = some id) (name : Option CString) :
    (s.dnsReverseDone i s.slots[i] id name).Inv := by
  unfold State.dnsReverseDone
  obtain ⟨dnscache, put⟩ := Option.isSome_iff_exists.mp (isSome_cachePut.mpr
    inv.dns.replaceable)
  dsimp only [State.send]
  rw [put]
  exact inv.release inside named .dnsReverse name s.proxycache inv.auth
    (inv.dns.of_cachePut (by simp) put)

theorem Inv.proxyDone (inv : s.Inv) {i : Nat} (inside : i < s.slots.length) {id : CString}
    (named : s.slots[i].id = some id) (reply : ProxyReply)
    (room : Replaceable [3, 4, 6, 2, 1] s.proxycache) :
    (s.proxyDone i s.slots[i] id reply).Inv := by
  unfold State.proxyDone
  obtain ⟨proxycache, put⟩ := Option.isSome_iff_exists.mp (isSome_cachePut.mpr room)
  dsimp only [State.send]
  rw [put]
  exact inv.release inside named .proxy (some (proxyReplyText reply.code)) proxycache inv.auth
    inv.dns

end State

theorem Outcome.pending_of_pendingIn {outcome : Outcome} {q : Query}
    (awaited : outcome.PendingIn q) : q.pending ≠ 0 := by
  intro idle
  obtain ⟨dns, auth, proxy⟩ := Query.idle_of_pending idle
  cases outcome <;> simp [Outcome.PendingIn, dns, auth, proxy] at awaited

theorem authParse_eq_none {recvbuf : CString} : authParse recvbuf = none ↔ ':' ∉ recvbuf := by
  unfold authParse
  split
  · rename_i colon
    split <;> simp [colon]
  · rename_i colon
    simp [colon]

namespace State

variable {s : State}

/-- The end of a lookup frees its slot, if it meets the guard. -/
theorem Inv.done (inv : s.Inv) {i : Nat} (inside : i < s.slots.length) {outcome : Outcome}
    (awaited : outcome.PendingIn s.slots[i]) (fits : Fits s (.done i outcome)) :
    (s.done i s.slots[i] outcome).Inv := by
  have busy : ¬ s.slots[i].IsFree := by
    intro free
    refine outcome.pending_of_pendingIn awaited ?_
    rw [inv.pending _ (List.getElem_mem inside), if_pos free]
  obtain ⟨id, named⟩ := Option.ne_none_iff_exists'.mp busy
  simp only [Fits, List.getElem?_eq_getElem inside] at fits
  unfold State.done
  rw [named]
  dsimp only [Option.getD_some]
  cases outcome with
  | dnsForward addr => exact inv.dnsForwardDone inside named addr
  | dnsReverse name => exact inv.dnsReverseDone inside named name
  | identLine line =>
      obtain ⟨reply, parsed⟩ := Option.ne_none_iff_exists'.mp
        (authParse_eq_none.not.mpr (not_not_intro (fits awaited)))
      dsimp only
      rw [parsed]
      exact inv.authDone inside named reply
  | identClosed => exact inv.authDone inside named []
  | proxy reply => exact inv.proxyDone inside named reply (fits awaited)

/-- A lookup that ends against the guard crashes the process. -/
theorem fits_of_sound_done {i : Nat} (inside : i < s.slots.length) {outcome : Outcome}
    (after : (s.done i s.slots[i] outcome).Sound) : Fits s (.done i outcome) := by
  simp only [Fits, List.getElem?_eq_getElem inside]
  cases outcome with
  | dnsForward addr => trivial
  | dnsReverse name => trivial
  | identClosed => trivial
  | identLine line =>
      intro _
      by_contra noColon
      simp only [State.done, authParse_eq_none.mpr noColon] at after
      exact not_sound_crash s after
  | proxy reply =>
      intro _
      by_contra full
      simp only [State.done, State.proxyDone, State.send] at after
      split at after
      · exact not_sound_crash _ after
      · rename_i proxycache put
        exact full (isSome_cachePut.mp (Option.isSome_of_mem put))

end State

/-! ## Runs -/

namespace State

variable {s : State}

theorem launch_caches (begun : Bool) (id : CString) (set : Query → Setting) (lookup : Lookup) :
    (s.launch begun id set lookup).authcache = s.authcache ∧
      (s.launch begun id set lookup).dnscache = s.dnscache := by
  unfold State.launch
  split
  · exact ⟨rfl, rfl⟩
  · split
    · exact ⟨rfl, rfl⟩
    · exact ⟨rfl, rfl⟩
    · split <;> exact ⟨rfl, rfl⟩

theorem Inv.shutdown (inv : s.Inv) : s.shutdown.Inv where
  alive := by simp [State.shutdown]
  pending := inv.pending
  owned := inv.owned
  named := inv.named
  once := inv.once
  auth := inv.auth
  dns := inv.dns

theorem Inv.line (inv : s.Inv) (running : s.status = .running) {text : CString} {begun : Bool}
    (fits : Fits s (.line text begun)) : (s.line text begun).Inv := by
  have came := controlParse_of running text
  unfold Fits at fits
  unfold State.line
  cases task : controlParse s text with
  | nothing => exact inv
  | reject => exact inv.shutdown
  | answer s' kind id text =>
      rw [task] at came
      obtain ⟨alike, auth, dns⟩ := came
      have sound := alike.sound inv.toSound
      refine ⟨?_, auth inv.auth, dns inv.dns⟩
      rw [← alike.accepted]
      exact sound.answer kind id text
  | launch id set lookup =>
      rw [task] at came
      simp only [task] at fits
      obtain ⟨room, connected, inOrder⟩ := fits
      obtain ⟨auth, dns⟩ := @launch_caches s begun id set lookup
      refine ⟨inv.toSound.launch came room connected inOrder, ?_, ?_⟩
      · exact auth ▸ inv.auth
      · exact dns ▸ inv.dns

theorem fits_of_sound_line (sound : s.Sound) (running : s.status = .running) {text : CString}
    {begun : Bool} (after : (s.line text begun).Sound) : Fits s (.line text begun) := by
  have came := controlParse_of running text
  unfold State.line at after
  cases task : controlParse s text with
  | nothing => simp only [Fits, task]
  | reject => simp only [Fits, task]
  | answer s' kind id text => simp only [Fits, task]
  | launch id set lookup =>
      simp only [Fits, task]
      rw [task] at came after
      exact fits_of_sound_launch sound came after

/-- What meets the guard keeps the invariant. -/
theorem Inv.exec (inv : s.Inv) {event : Event} (fits : s.status = .running → Fits s event) :
    (exec s event).Inv := by
  unfold Servauth.exec
  split
  · rename_i running
    cases event with
    | line text begun => exact inv.line running (fits running)
    | tick systime =>
        refine ⟨Alike.sound ?_ inv.toSound, inv.auth, inv.dns⟩
        exact ⟨rfl, rfl, rfl, inv.alive⟩
    | done i outcome =>
        cases found : s.slots[i]? with
        | none => simpa only [State.handle, found] using inv
        | some q =>
            obtain ⟨inside, rfl⟩ := List.getElem?_eq_some_iff.mp found
            simp only [State.handle, found]
            split
            · rename_i awaited
              exact inv.done inside awaited (fits running)
            · exact inv
  · exact inv

/-- What does not meet the guard leaves a state that is not sound. -/
theorem fits_of_sound_exec (sound : s.Sound) {event : Event} (after : (exec s event).Sound)
    (running : s.status = .running) : Fits s event := by
  unfold Servauth.exec at after
  rw [if_pos running] at after
  cases event with
  | line text begun => exact fits_of_sound_line sound running after
  | tick systime => trivial
  | done i outcome =>
      cases found : s.slots[i]? with
      | none => simp [Fits, found]
      | some q =>
          obtain ⟨inside, rfl⟩ := List.getElem?_eq_some_iff.mp found
          simp only [State.handle, found] at after
          by_cases awaited : outcome.PendingIn s.slots[i]
          · rw [if_pos awaited] at after
            exact fits_of_sound_done inside after
          · simp only [Fits, found]
            cases outcome with
            | dnsForward addr => trivial
            | dnsReverse name => trivial
            | identClosed => trivial
            | identLine line => exact fun waiting => absurd waiting awaited
            | proxy reply => exact fun waiting => absurd waiting awaited

theorem inv_initial (systime : Nat) : (initial systime).Inv where
  alive := by
    intro crashed
    cases crashed
  pending := by
    intro q member
    rw [List.eq_of_mem_replicate member]
    rfl
  owned := by
    intro q member busy
    rw [List.eq_of_mem_replicate member] at busy
    exact absurd rfl busy
  named := by
    intro reply member
    cases member
  once := by
    intro n
    have idle : (initial systime).servers n = 0 := by
      refine List.countP_eq_zero.mpr fun q member => ?_
      rw [List.eq_of_mem_replicate member]
      simp [Query.serves, Query.IsFree, Query.zero]
    rw [idle]
    exact (if_neg (Nat.not_lt_zero n)).symm
  auth := by
    refine ⟨List.ne_nil_of_length_pos ?_, fun entry member => ?_⟩
    · rw [initial, List.length_replicate]
      decide
    · exact Or.inl (by rw [List.eq_of_mem_replicate member])
  dns := by
    refine ⟨List.cons_ne_nil _ _, fun entry member => ?_⟩
    rcases List.mem_cons.mp member with rfl | free
    · exact Or.inr (List.mem_cons_of_mem _ List.mem_cons_self)
    · exact Or.inl (by rw [List.eq_of_mem_replicate free])

end State

/-- No slot leaks and each accepted command has one reply or one slot that will give it, all
along a run, exactly when every request that comes while the process runs meets the guard. -/
theorem sound_run_iff (systime : Nat) (events : List Event) :
    (∀ before, before <+: events → (before.foldl exec (initial systime)).Sound) ↔
      TransitionSystem.GuardedRun (fun s event => some (exec s event))
        (fun s event => s.status = .running → Fits s event) (initial systime) events := by
  refine TransitionSystem.guardedRun_iff_forall ?_ ?_ ?_ (State.inv_initial systime) events
  · intro s inv
    exact inv.toSound
  · intro s event inv fits
    exact inv.exec fits
  · intro s event inv after
    exact State.fits_of_sound_exec inv.toSound after

/-- A request for an address takes the first slot that is free. -/
theorem exec_dnsForward {s : State} {text id host : CString} {front : List Query} {m : Nat}
    (words : strTokenize 16 (ioGets 1024 text) = ["dns".toList, "forward".toList, id, host])
    (busy : ∀ q ∈ front, ¬ q.IsFree) (slots : s.slots = front ++ List.replicate (m + 1) Query.zero)
    (running : s.status = .running) :
    ∃ q, ¬ q.IsFree ∧ (exec s (.line text true)).slots = front ++ [q] ++ List.replicate m Query.zero ∧
      (exec s (.line text true)).status = .running := by
  have task : controlParse s text = .launch id (querySetHost id host) .dnsForward := by
    rw [controlParse, words]
    rfl
  have free : decide Query.zero.IsFree = true := by decide
  have first : queryFind s.slots = some front.length := by
    rw [queryFind, slots, List.findIdx?_append, List.findIdx?_eq_none_iff.mpr (by simpa using busy),
      List.replicate_succ, List.findIdx?_cons, if_pos free, Option.none_or,
      Option.map_some, Nat.zero_add]
  rw [exec, if_pos running, State.handle, State.line, task]
  dsimp only
  rw [State.launch, first]
  refine ⟨{ (s.slots.getD front.length Query.zero) with
    id := some id, host := some host, serial := some s.accepted.length, dns := some .forwardDone },
    fun free => Option.some_ne_none _ free, ?_, running⟩
  dsimp only [querySetHost, queryStart, State.accept]
  rw [slots, List.set_append_right _ _ (Nat.le_refl _), Nat.sub_self, List.replicate_succ,
    List.set_cons_zero, List.append_assoc]
  rfl

/-- One request more than there are free slots follows a null pointer. -/
theorem exec_dnsForwards {s : State} {text id host : CString} {front : List Query} {m : Nat}
    (words : strTokenize 16 (ioGets 1024 text) = ["dns".toList, "forward".toList, id, host])
    (busy : ∀ q ∈ front, ¬ q.IsFree) (slots : s.slots = front ++ List.replicate m Query.zero)
    (running : s.status = .running) :
    ((List.replicate (m + 1) (Event.line text true)).foldl exec s).status = .crashed := by
  induction m generalizing s front with
  | zero =>
      have task : controlParse s text = .launch id (querySetHost id host) .dnsForward := by
        rw [controlParse, words]
        rfl
      have full : queryFind s.slots = none := by
        rw [queryFind_eq_none, slots, List.replicate_zero, List.append_nil]
        exact fun ⟨q, member, free⟩ => busy q member free
      rw [List.replicate_one, List.foldl_cons, List.foldl_nil, exec, if_pos running, State.handle,
        State.line, task]
      dsimp only
      rw [State.launch, full]
      rfl
  | succ m ih =>
      obtain ⟨q, taken, slots', running'⟩ := exec_dnsForward words busy slots running
      rw [List.replicate_succ, List.foldl_cons]
      refine ih (fun p member => ?_) slots' running'
      rcases List.mem_append.mp member with member | member
      · exact busy p member
      · rw [List.mem_singleton.mp member]
        exact taken

/-- The request behind as many as there are slots crashes the process. -/
theorem full_table_crashes :
    ¬ ((List.replicate 257 (Event.line "dns forward 1 localhost".toList true)).foldl exec
      (initial 0)).Sound :=
  fun sound => sound.alive (@exec_dnsForwards (initial 0) _ "1".toList "localhost".toList [] maxQueries
    (by decide +kernel) (fun _ member => absurd member List.not_mem_nil) rfl rfl)

end Servauth

end Chaosircd
