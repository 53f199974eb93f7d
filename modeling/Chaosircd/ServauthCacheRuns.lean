import Chaosircd.Servauth
import Chaosircd.TransitionSystem
import Mathlib.Data.List.Forall2

/-!
# What the caches answer

The three caches of the lookup process differ in the statuses that are stored, in those that a
pick looks at, and in the order in which they are given up.  A pick answers with the first
entry for its key, which is the one put last when the key is not put again while it is cached.
-/

namespace Chaosircd

/-- A kind of cache: which statuses are given up and looked at, how a result is stored, and
what is read from an entry. -/
structure CacheKind (Key Answer Result : Type) where
  order : List Nat
  sought : Nat → Bool
  status : Result → Nat
  answer : Result → Answer
  found : Nat → Answer → Result
  free_unsought : sought 0 = false
  status_sought : ∀ result, sought (status result) = true

/-- A cache.  `owners` and `log` are not in the code: which of the puts so far each entry comes
from, by its number, and what has been put, the last first. -/
structure Cache (Key Answer Result : Type) where
  entries : List (CacheEntry Key Answer)
  owners : List (Option Nat)
  log : List (Key × Result)

namespace CacheKind

variable {Key Answer Result : Type} [DecidableEq Key] (kind : CacheKind Key Answer Result)

/-- The entry is one that a pick looks for. -/
def wanted (key : Key) (entry : CacheEntry Key Answer) : Bool :=
  kind.sought entry.status && entry.key = key

/-- The entry that is put. -/
def made (key : Key) (result : Result) (t : Nat) : CacheEntry Key Answer :=
  ⟨kind.status result, key, kind.answer result, t⟩

/-- `cache_*_put`. -/
def put (entries : List (CacheEntry Key Answer)) (key : Key) (result : Result) (t : Nat) :
    Option (List (CacheEntry Key Answer)) :=
  cachePut kind.order (kind.made key result t) entries

/-- `cache_*_pick`, with what is read. -/
def pick (entries : List (CacheEntry Key Answer)) (key : Key) (t : Nat) :
    Option (Result × List (CacheEntry Key Answer)) :=
  (cachePick (kind.wanted key) t entries).map fun (entry, entries) =>
    (kind.found entry.status entry.answer, entries)

end CacheKind

/-! ## Lists that are related entry by entry -/

section Related

variable {A B : Type*} {R : A → B → Prop} {as : List A} {bs : List B}

theorem forall₂_set (related : List.Forall₂ R as bs) (i : Nat) {a : A} {b : B} (new : R a b) :
    List.Forall₂ R (as.set i a) (bs.set i b) := by
  induction related generalizing i with
  | nil => exact List.Forall₂.nil
  | cons first _ induction =>
      cases i with
      | zero => exact List.Forall₂.cons new ‹_›
      | succ i => exact List.Forall₂.cons first (induction i)

theorem forall₂_getElem? (related : List.Forall₂ R as bs) {i : Nat} {a : A}
    (at' : as[i]? = some a) : ∃ b, bs[i]? = some b ∧ R a b := by
  induction related generalizing i with
  | nil => simp at at'
  | cons first _ induction =>
      cases i with
      | zero =>
          obtain rfl := Option.some.inj at'
          exact ⟨_, rfl, first⟩
      | succ i => exact induction at'

theorem forall₂_exists_left (related : List.Forall₂ R as bs) {b : B} (member : b ∈ bs) :
    ∃ a ∈ as, R a b := by
  induction related with
  | nil => cases member
  | cons first _ induction =>
      cases member with
      | head => exact ⟨_, List.mem_cons_self, first⟩
      | tail _ member =>
          obtain ⟨a, inside, holds⟩ := induction member
          exact ⟨a, List.mem_cons_of_mem _ inside, holds⟩

end Related

/-! ## Runs of a cache -/

namespace Cache

variable {Key Answer Result : Type} [DecidableEq Key]

inductive Event (Key Result : Type) where
  | put (key : Key) (result : Result) (t : Nat)
  | pick (key : Key) (t : Nat)

/-- There is no result when a put follows a null pointer. -/
def step (kind : CacheKind Key Answer Result) (cache : Cache Key Answer Result) :
    Event Key Result → Option (Cache Key Answer Result)
  | .put key result t =>
    match cacheEntryNew kind.order cache.entries, kind.put cache.entries key result t with
    | some i, some entries =>
      some ⟨entries, cache.owners.set i (some cache.log.length), (key, result) :: cache.log⟩
    | _, _ => none
  | .pick key t =>
    match kind.pick cache.entries key t with
    | none => some cache
    | some (_, entries) => some { cache with entries := entries }

/-- The put that was the last for a key, by its number, and its result. -/
def lastPut (key : Key) : List (Key × Result) → Option (Nat × Result)
  | [] => none
  | (other, result) :: log => if other = key then some (log.length, result) else lastPut key log

/-- The result that was put last for a key, if it has not been evicted. -/
def expected (cache : Cache Key Answer Result) (key : Key) : Option Result :=
  match lastPut key cache.log with
  | none => none
  | some (n, result) => if some n ∈ cache.owners then some result else none

/-- A put finds an entry, which is a free one unless none is free, and a pick answers what is
expected. -/
def Right (kind : CacheKind Key Answer Result) (cache : Cache Key Answer Result) :
    Event Key Result → Prop
  | .put key result t =>
    (kind.put cache.entries key result t).isSome ∧
      ∃ i entry, cacheEntryNew kind.order cache.entries = some i ∧
        cache.entries[i]? = some entry ∧
          (entry.status = 0 ∨ ∀ other ∈ cache.entries, other.status ≠ 0)
  | .pick key t => (kind.pick cache.entries key t).map Prod.fst = cache.expected key

/-- A put finds an entry to give up, its result is read as it is stored, and its key is not
cached. -/
def Fits (kind : CacheKind Key Answer Result) (cache : Cache Key Answer Result) :
    Event Key Result → Prop
  | .put key result _ =>
    Replaceable kind.order cache.entries ∧
      kind.found (kind.status result) (kind.answer result) = result ∧
        ∀ entry ∈ cache.entries, kind.wanted key entry = false
  | .pick _ _ => True

/-- A cache that is new: its entries are free. -/
def IsNew (cache : Cache Key Answer Result) : Prop :=
  cache.entries ≠ [] ∧ (∀ entry ∈ cache.entries, entry.status = 0) ∧
    cache.owners = cache.entries.map (fun _ => none) ∧ cache.log = []

/-- An entry is free, or it is what the put says that it comes from, and this put is the last
for its key. -/
def Comes (kind : CacheKind Key Answer Result) (log : List (Key × Result))
    (entry : CacheEntry Key Answer) : Option Nat → Prop
  | none => entry.status = 0
  | some n => ∃ result, lastPut entry.key log = some (n, result) ∧
      entry.status = kind.status result ∧ kind.found entry.status entry.answer = result

/-- What holds in every state. -/
structure Inv (kind : CacheKind Key Answer Result) (cache : Cache Key Answer Result) : Prop where
  nonempty : cache.entries ≠ []
  comes : List.Forall₂ (Comes kind cache.log) cache.entries cache.owners

variable {kind : CacheKind Key Answer Result} {cache next : Cache Key Answer Result}

theorem IsNew.inv (new : cache.IsNew) : cache.Inv kind := by
  obtain ⟨nonempty, free, owners, _⟩ := new
  refine ⟨nonempty, ?_⟩
  rw [owners, List.forall₂_map_right_iff, List.forall₂_same]
  exact free

theorem lastPut_cons_of_ne {key other : Key} {result : Result} {log : List (Key × Result)}
    (differs : other ≠ key) : lastPut key ((other, result) :: log) = lastPut key log :=
  if_neg differs

theorem lastPut_lt {key : Key} {log : List (Key × Result)} {put : Nat × Result}
    (last : lastPut key log = some put) : put.1 < log.length := by
  induction log with
  | nil => cases last
  | cons first log induction =>
      unfold lastPut at last
      split at last
      · obtain rfl := Option.some.inj last
        exact Nat.lt_succ_self _
      · exact Nat.lt_succ_of_lt (induction last)

/-- A put is for one key. -/
theorem lastPut_inj {key other : Key} {log : List (Key × Result)} {n : Nat}
    {result result' : Result} (last : lastPut key log = some (n, result))
    (last' : lastPut other log = some (n, result')) : key = other := by
  induction log with
  | nil => cases last
  | cons first log induction =>
      by_cases isFirst : first.1 = key
      · by_cases isFirst' : first.1 = other
        · exact isFirst.symm.trans isFirst'
        · rw [lastPut, if_pos isFirst] at last
          rw [lastPut_cons_of_ne isFirst'] at last'
          have inside := lastPut_lt last'
          obtain rfl := congrArg Prod.fst (Option.some.inj last)
          exact absurd inside (Nat.lt_irrefl _)
      · rw [lastPut_cons_of_ne isFirst] at last
        by_cases isFirst' : first.1 = other
        · rw [lastPut, if_pos isFirst'] at last'
          have inside := lastPut_lt last
          obtain rfl := congrArg Prod.fst (Option.some.inj last')
          exact absurd inside (Nat.lt_irrefl _)
        · rw [lastPut_cons_of_ne isFirst'] at last'
          exact induction last last'

/-- An entry that comes from a put is one that a pick of its key looks for. -/
theorem Comes.wanted {log : List (Key × Result)} {entry : CacheEntry Key Answer} {n : Nat}
    (comes : Comes kind log entry (some n)) : kind.wanted entry.key entry = true := by
  obtain ⟨result, _, status, _⟩ := comes
  simp [CacheKind.wanted, status, kind.status_sought]

namespace Inv

/-- A put keeps the invariant, and finds an entry. -/
theorem put (inv : cache.Inv kind) {key : Key} {result : Result} {t : Nat}
    (fits : cache.Fits kind (.put key result t)) :
    ∃ i entries, cacheEntryNew kind.order cache.entries = some i ∧
      kind.put cache.entries key result t = some entries ∧
        Cache.Inv kind ⟨entries, cache.owners.set i (some cache.log.length),
          (key, result) :: cache.log⟩ := by
  obtain ⟨room, faithful, uncached⟩ := fits
  obtain ⟨entries, put⟩ := Option.isSome_iff_exists.mp
    (isSome_cachePut.mpr room : (kind.put cache.entries key result t).isSome)
  obtain ⟨i, new, rfl⟩ := Option.map_eq_some_iff.mp put
  refine ⟨i, _, new, put, by simpa using inv.nonempty, ?_⟩
  refine forall₂_set ?_ i ?_
  · refine ((List.forall₂_and_left _ _).mpr ⟨uncached, inv.comes⟩).imp ?_
    rintro entry owner ⟨unwanted, comes⟩
    cases owner with
    | none => exact comes
    | some n =>
        have differs : key ≠ entry.key := by
          rintro rfl
          rw [comes.wanted] at unwanted
          cases unwanted
        obtain ⟨result, last, status, found⟩ := comes
        exact ⟨result, (lastPut_cons_of_ne differs).trans last, status, found⟩
  · exact ⟨result, if_pos rfl, rfl, faithful⟩

/-- A pick answers what is expected, and keeps the invariant. -/
theorem pick (inv : cache.Inv kind) (key : Key) (t : Nat) :
    (kind.pick cache.entries key t).map Prod.fst = cache.expected key ∧
      ∀ result entries, kind.pick cache.entries key t = some (result, entries) →
        Cache.Inv kind { cache with entries := entries } := by
  unfold CacheKind.pick
  cases picked : cachePick (kind.wanted key) t cache.entries with
  | none =>
      refine ⟨?_, by simp⟩
      have uncached := cachePick_eq_none.mp picked
      unfold expected
      cases last : lastPut key cache.log with
      | none => rfl
      | some put =>
          obtain ⟨n, result⟩ := put
          refine (if_neg fun member => ?_).symm
          obtain ⟨entry, inside, comes⟩ := forall₂_exists_left inv.comes member
          have isWanted := comes.wanted
          obtain ⟨result', last', _, _⟩ := comes
          obtain rfl := lastPut_inj last last'
          rw [uncached entry inside] at isWanted
          cases isWanted
  | some picked' =>
      obtain ⟨wanted, i, at', set⟩ := cachePick_eq_some picked
      obtain ⟨owner, owns, comes⟩ := forall₂_getElem? inv.comes at'
      have isWanted : kind.sought picked'.1.status = true ∧ picked'.1.key = key := by
        simpa [CacheKind.wanted] using wanted
      cases owner with
      | none =>
          have free : picked'.1.status = 0 := comes
          rw [free, kind.free_unsought] at isWanted
          cases isWanted.1
      | some n =>
          obtain ⟨result, last, status, found⟩ := comes
          rw [isWanted.2] at last
          refine ⟨?_, ?_⟩
          · unfold expected
            rw [last]
            dsimp only
            rw [if_pos (List.mem_of_getElem? owns)]
            exact congrArg some found
          · intro result' entries same
            obtain ⟨rfl, rfl⟩ := Prod.mk.inj (Option.some.inj same)
            rw [set]
            refine ⟨by simpa using inv.nonempty, ?_⟩
            have kept : cache.owners.set i (some n) = cache.owners := by
              obtain ⟨inside, same⟩ := List.getElem?_eq_some_iff.mp owns
              rw [← same, List.set_getElem_self]
            dsimp only
            rw [← kept]
            refine forall₂_set inv.comes i ?_
            rw [← isWanted.2] at last
            exact ⟨result, last, status, found⟩

end Inv

/-- The invariant is kept. -/
theorem Inv.after (inv : cache.Inv kind) {event : Event Key Result} (fits : cache.Fits kind event)
    (stepped : step kind cache event = some next) : next.Inv kind := by
  cases event with
  | put key result t =>
      obtain ⟨i, entries, isNew, put, inv'⟩ := inv.put fits
      simp only [step, isNew, put] at stepped
      exact Option.some.inj stepped ▸ inv'
  | pick key t =>
      simp only [step] at stepped
      cases picked : kind.pick cache.entries key t with
      | none =>
          rw [picked] at stepped
          exact Option.some.inj stepped ▸ inv
      | some answer =>
          rw [picked] at stepped
          exact Option.some.inj stepped ▸ (inv.pick key t).2 _ _ picked

/-- In a run whose puts fit, every put finds an entry and every pick answers what is
expected. -/
theorem right_of_fits (new : cache.IsNew) {events : List (Event Key Result)}
    (fits : TransitionSystem.GuardedRun (step kind) (Fits kind) cache events) :
    TransitionSystem.GuardedRun (step kind) (Right kind) cache events := by
  refine TransitionSystem.GuardedRun.mono_of_invariant ?_ ?_ (new.inv : Inv kind cache)
    fits
  · intro cache event inv fits
    cases event with
    | put key result t =>
        obtain ⟨i, entries, isNew, put, _⟩ := inv.put fits
        obtain ⟨entry, at', unlessFull⟩ := cacheEntryNew_eq_some isNew
        exact ⟨Option.isSome_of_mem put, i, entry, isNew, at', unlessFull⟩
    | pick key t => exact (inv.pick key t).1
  · intro cache event next inv fits stepped
    exact inv.after fits stepped

/-- Where every status that is put can be given up, there is always room. -/
theorem Inv.replaceable (inv : cache.Inv kind) (given : ∀ result, kind.status result ∈ kind.order) :
    Replaceable kind.order cache.entries := by
  obtain ⟨entry, member⟩ := List.exists_mem_of_ne_nil _ inv.nonempty
  obtain ⟨i, at'⟩ := List.getElem?_of_mem member
  obtain ⟨owner, _, comes⟩ := forall₂_getElem? inv.comes at'
  cases owner with
  | none => exact ⟨entry, member, Or.inl comes⟩
  | some n =>
      obtain ⟨result, _, status, _⟩ := comes
      exact ⟨entry, member, Or.inr (status ▸ given result)⟩

/-- A key is not put while it is cached. -/
def Uncached (kind : CacheKind Key Answer Result) (cache : Cache Key Answer Result) :
    Event Key Result → Prop
  | .put key _ _ => ∀ entry ∈ cache.entries, kind.wanted key entry = false
  | .pick _ _ => True

instance (kind : CacheKind Key Answer Result) (cache : Cache Key Answer Result)
    (event : Event Key Result) : Decidable (Uncached kind cache event) :=
  match event with
  | .put key _ _ =>
    inferInstanceAs (Decidable (∀ entry ∈ cache.entries, kind.wanted key entry = false))
  | .pick _ _ => instDecidableTrue

/-- The same, where a guard that is simpler is enough for a put to fit. -/
theorem right_of_guard {guard : Cache Key Answer Result → Event Key Result → Prop}
    (enough : ∀ cache event, cache.Inv kind → guard cache event → cache.Fits kind event)
    (new : cache.IsNew) {events : List (Event Key Result)}
    (guarded : TransitionSystem.GuardedRun (step kind) guard cache events) :
    TransitionSystem.GuardedRun (step kind) (Right kind) cache events := by
  refine right_of_fits new (TransitionSystem.GuardedRun.mono_of_invariant enough ?_
    (new.inv : Inv kind cache) guarded)
  intro cache event next inv allowed stepped
  exact inv.after (enough cache event inv allowed) stepped

end Cache

/-! ## The three caches -/

namespace Servauth

/-- What is put about an ident lookup that failed: `CACHE_AUTH_RESET` or
`CACHE_AUTH_TIMEOUT`. -/
inductive AuthFailure where
  | reset
  | timeout
  deriving DecidableEq

def AuthFailure.code : AuthFailure → Nat
  | reset => 1
  | timeout => 2

/-- `cache_auth_put` and `cache_auth_pick`. -/
def cacheAuth : CacheKind Nat Unit AuthFailure where
  order := [1, 2]
  sought status := status ≠ 0
  status := AuthFailure.code
  answer _ := ()
  found status _ := if status = 2 then .timeout else .reset
  free_unsought := rfl
  status_sought result := by cases result <;> rfl

/-- `cache_dns_put` as it is called, with `CACHE_DNS_REVERSE`, and `cache_dns_pick_reverse`. -/
def cacheDns : CacheKind Nat CString (Option CString) where
  order := [1, 2]
  sought status := status = 2
  status _ := 2
  answer name := strlcpy (name.getD []) 64
  found _ name := some name
  free_unsought := rfl
  status_sought _ := rfl

def ProxyReply.ofCode : Nat → ProxyReply
  | 1 => rpTimeout
  | 2 => rpFiltered
  | 3 => rpClosed
  | 4 => rpDenied
  | 5 => rpNa
  | _ => rpOpen

/-- `cache_proxy_put` and `cache_proxy_pick`. -/
def cacheProxy : CacheKind (Nat × Nat × Option Nat) Unit ProxyReply where
  order := [3, 4, 6, 2, 1]
  sought status := status ≠ 0
  status := ProxyReply.code
  answer _ := ()
  found status _ := ProxyReply.ofCode status
  free_unsought := rfl
  status_sought result := by cases result <;> rfl

/-- The name fits into the entry. -/
def NameFits : Cache.Event Nat (Option CString) → Prop
  | .put _ (some host) _ => host.length < 64
  | .put _ none _ => False
  | .pick _ _ => True

instance (event : Cache.Event Nat (Option CString)) : Decidable (NameFits event) :=
  match event with
  | .put _ (some host) _ => inferInstanceAs (Decidable (host.length < 64))
  | .put _ none _ => instDecidableFalse
  | .pick _ _ => instDecidableTrue

/-- Not every entry is `n/a`. -/
def SomeNotNa (cache : Cache (Nat × Nat × Option Nat) Unit ProxyReply) :
    Cache.Event (Nat × Nat × Option Nat) ProxyReply → Prop
  | .put _ _ _ => ∃ entry ∈ cache.entries, entry.status ≠ 5
  | .pick _ _ => True

instance (cache : Cache (Nat × Nat × Option Nat) Unit ProxyReply)
    (event : Cache.Event (Nat × Nat × Option Nat) ProxyReply) :
    Decidable (SomeNotNa cache event) :=
  match event with
  | .put _ _ _ => inferInstanceAs (Decidable (∃ entry ∈ cache.entries, entry.status ≠ 5))
  | .pick _ _ => instDecidableTrue

/-- In the three caches a put finds an entry, and a pick answers what was put last, when no key
is put while it is cached, names fit, and the proxy cache is not full of `n/a`. -/
theorem caches_right {auth : Cache Nat Unit AuthFailure}
    {dns : Cache Nat CString (Option CString)}
    {proxy : Cache (Nat × Nat × Option Nat) Unit ProxyReply}
    (newAuth : auth.IsNew) (newDns : dns.IsNew) (newProxy : proxy.IsNew)
    {authEvents : List (Cache.Event Nat AuthFailure)}
    {dnsEvents : List (Cache.Event Nat (Option CString))}
    {proxyEvents : List (Cache.Event (Nat × Nat × Option Nat) ProxyReply)}
    (fitsAuth : TransitionSystem.GuardedRun (Cache.step cacheAuth) (Cache.Uncached cacheAuth)
      auth authEvents)
    (fitsDns : TransitionSystem.GuardedRun (Cache.step cacheDns)
      (fun cache event => Cache.Uncached cacheDns cache event ∧ NameFits event) dns dnsEvents)
    (fitsProxy : TransitionSystem.GuardedRun (Cache.step cacheProxy)
      (fun cache event => Cache.Uncached cacheProxy cache event ∧ SomeNotNa cache event)
      proxy proxyEvents) :
    TransitionSystem.GuardedRun (Cache.step cacheAuth) (Cache.Right cacheAuth) auth authEvents ∧
      TransitionSystem.GuardedRun (Cache.step cacheDns) (Cache.Right cacheDns) dns dnsEvents ∧
        TransitionSystem.GuardedRun (Cache.step cacheProxy) (Cache.Right cacheProxy) proxy
          proxyEvents := by
  refine ⟨Cache.right_of_guard ?_ newAuth fitsAuth, Cache.right_of_guard ?_ newDns fitsDns,
    Cache.right_of_guard ?_ newProxy fitsProxy⟩
  · intro cache event inv uncached
    cases event with
    | pick key t => trivial
    | put key result t =>
        refine ⟨inv.replaceable fun result => ?_, ?_, uncached⟩
        · cases result <;> decide
        · cases result <;> rfl
  · rintro cache event inv ⟨uncached, fits⟩
    cases event with
    | pick key t => trivial
    | put key name t =>
        cases name with
        | none => cases fits
        | some host =>
        have short : host.length < 64 := fits
        refine ⟨inv.replaceable fun result => ?_, ?_, uncached⟩
        · exact List.mem_cons_of_mem _ List.mem_cons_self
        · exact congrArg some (strlcpy_eq_self short)
  · rintro cache event inv ⟨uncached, fits⟩
    cases event with
    | pick key t => trivial
    | put key reply t =>
        refine ⟨?_, ?_, uncached⟩
        · obtain ⟨entry, member, notNa⟩ := fits
          obtain ⟨i, at'⟩ := List.getElem?_of_mem member
          obtain ⟨owner, _, comes⟩ := forall₂_getElem? inv.comes at'
          refine ⟨entry, member, ?_⟩
          cases owner with
          | none => exact Or.inl comes
          | some n =>
              obtain ⟨reply, _, status, _⟩ := comes
              rw [status] at notNa ⊢
              refine Or.inr ?_
              revert notNa
              cases reply <;> decide
        · cases reply <;> rfl

/-- A new cache with one entry. -/
def single {Key Answer Result : Type} (key : Key) (answer : Answer) : Cache Key Answer Result :=
  ⟨[⟨0, key, answer, 0⟩], [none], []⟩

theorem isNew_single {Key Answer Result : Type} (key : Key) (answer : Answer) :
    (single key answer : Cache Key Answer Result).IsNew := by
  refine ⟨List.cons_ne_nil _ _, ?_, rfl, rfl⟩
  intro entry member
  rw [List.mem_singleton.mp member]

theorem caches_right_single :
    TransitionSystem.GuardedRun (Cache.step cacheAuth) (Cache.Right cacheAuth) (single 0 ())
        [.put 1 .reset 1, .pick 1 2, .put 2 .timeout 3, .pick 1 4] ∧
      TransitionSystem.GuardedRun (Cache.step cacheDns) (Cache.Right cacheDns) (single 0 [])
          [.put 1 (some ['a']) 1, .pick 1 2, .pick 2 3] ∧
        TransitionSystem.GuardedRun (Cache.step cacheProxy) (Cache.Right cacheProxy)
          (single (0, 0, some 0) ())
          [.put (1, 80, some 0) .rpClosed 1, .put (2, 80, some 0) .rpNa 2,
            .pick (1, 80, some 0) 3] :=
  caches_right (isNew_single 0 ()) (isNew_single 0 []) (isNew_single (0, 0, some 0) ())
    (by decide) (by decide) (by decide)

/-- A proxy cache that is full of `n/a` has no entry for the next result. -/
theorem full_of_na :
    ¬ TransitionSystem.GuardedRun (Cache.step cacheProxy) (Cache.Right cacheProxy)
      (single (0, 0, some 0) ())
      [.put (1, 80, some 0) .rpNa 1, .put (2, 80, some 0) .rpOpen 2] := by
  rintro ⟨_, ⟨found, _⟩, _⟩
  revert found
  decide

end Servauth

end Chaosircd
