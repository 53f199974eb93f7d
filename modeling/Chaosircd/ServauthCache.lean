import Chaosircd.CString

/-!
# Caches of answers

The lookup process keeps three caches of a fixed size.  An entry without status is free; an
answer is put into a free entry, or else in place of the oldest answer of the status that is
given up first.
-/

namespace Chaosircd

/-- An entry of a cache: what has been asked, and what is answered apart from the status. -/
structure CacheEntry (Key Answer : Type) where
  status : Nat
  key : Key
  answer : Answer
  created : Nat
  deriving DecidableEq

variable {Key Answer : Type}

/-- `cache_*_pick`: the first entry that is wanted; it becomes new. -/
def cachePick (wanted : CacheEntry Key Answer → Bool) (t : Nat) :
    List (CacheEntry Key Answer) → Option (CacheEntry Key Answer × List (CacheEntry Key Answer))
  | [] => none
  | entry :: entries =>
    if wanted entry then some (entry, { entry with created := t } :: entries)
    else (cachePick wanted t entries).map fun picked => (picked.1, entry :: picked.2)

/-- The loop of `cache_*_entry_oldest`: when the oldest entry so far was created, and where it
is. -/
def oldestFrom (status : Nat) (i : Nat) (oldest : Option (Nat × Nat)) :
    List (CacheEntry Key Answer) → Option (Nat × Nat)
  | [] => oldest
  | entry :: entries =>
    if entry.status ≠ status then oldestFrom status (i + 1) oldest entries
    else
      match oldest with
      | none => oldestFrom status (i + 1) (some (entry.created, i)) entries
      | some (created, j) =>
        if entry.created < created then
          oldestFrom status (i + 1) (some (entry.created, i)) entries
        else oldestFrom status (i + 1) (some (created, j)) entries

/-- `cache_*_entry_oldest`: the place of the first of the oldest entries with the status. -/
def cacheEntryOldest (status : Nat) (entries : List (CacheEntry Key Answer)) : Option Nat :=
  (oldestFrom status 0 none entries).map Prod.snd

/-- `cache_*_entry_new`, by the statuses that are given up, in this order; there is no result
when the entry stays `NULL`. -/
def cacheEntryNew (order : List Nat) (entries : List (CacheEntry Key Answer)) : Option Nat :=
  (entries.findIdx? fun entry => entry.status = 0).or
    (order.findSome? fun status => cacheEntryOldest status entries)

/-- `cache_*_put`, which writes through the pointer to the new entry. -/
def cachePut (order : List Nat) (entry : CacheEntry Key Answer)
    (entries : List (CacheEntry Key Answer)) : Option (List (CacheEntry Key Answer)) :=
  (cacheEntryNew order entries).map fun i => entries.set i entry

/-- Some entry can be given up. -/
def Replaceable (order : List Nat) (entries : List (CacheEntry Key Answer)) : Prop :=
  ∃ entry ∈ entries, entry.status = 0 ∨ entry.status ∈ order

instance (order : List Nat) (entries : List (CacheEntry Key Answer)) :
    Decidable (Replaceable order entries) :=
  inferInstanceAs (Decidable (∃ entry ∈ entries, _))

theorem isSome_oldestFrom {status i : Nat} {oldest : Option (Nat × Nat)}
    {entries : List (CacheEntry Key Answer)} : (oldestFrom status i oldest entries).isSome ↔
      oldest.isSome ∨ ∃ entry ∈ entries, entry.status = status := by
  induction entries generalizing i oldest with
  | nil => simp [oldestFrom]
  | cons entry entries induction =>
      unfold oldestFrom
      by_cases same : entry.status = status
      · rw [if_neg (not_not_intro same)]
        have found : ∃ other ∈ entry :: entries, other.status = status :=
          ⟨entry, List.mem_cons_self, same⟩
        cases oldest with
        | none => exact iff_of_true (induction.mpr (Or.inl rfl)) (Or.inr found)
        | some pair =>
            dsimp only
            split <;> exact iff_of_true (induction.mpr (Or.inl rfl)) (Or.inr found)
      · rw [if_pos same, induction]
        simp [same]

/-- There is room for an answer exactly when some entry can be given up. -/
theorem isSome_cachePut {order : List Nat} {entry : CacheEntry Key Answer}
    {entries : List (CacheEntry Key Answer)} :
    (cachePut order entry entries).isSome ↔ Replaceable order entries := by
  rw [cachePut, Option.isSome_map, cacheEntryNew, Option.isSome_or, Bool.or_eq_true,
    List.findIdx?_isSome, List.findSome?_isSome_iff, Replaceable]
  simp only [cacheEntryOldest, Option.isSome_map, List.any_eq_true, isSome_oldestFrom,
    Option.isSome_none, Bool.false_eq_true, false_or, decide_eq_true_eq]
  constructor
  · rintro (⟨entry, member, free⟩ | ⟨status, inOrder, entry, member, rfl⟩)
    · exact ⟨entry, member, Or.inl free⟩
    · exact ⟨entry, member, Or.inr inOrder⟩
  · rintro ⟨entry, member, free | inOrder⟩
    · exact Or.inl ⟨entry, member, free⟩
    · exact Or.inr ⟨entry.status, inOrder, entry, member, rfl⟩

/-- The place that is found lies in the cache. -/
theorem oldestFrom_lt {status i : Nat} {oldest : Option (Nat × Nat)}
    {entries : List (CacheEntry Key Answer)} {found : Nat × Nat}
    (before : ∀ place ∈ oldest, place.2 < i)
    (isOldest : oldestFrom status i oldest entries = some found) :
    found.2 < i + entries.length := by
  induction entries generalizing i oldest with
  | nil => exact before found isOldest
  | cons entry entries induction =>
      have later {place : Nat × Nat} (inside : place.2 < i + 1)
          (same : oldestFrom status (i + 1) (some place) entries = some found) :
          found.2 < i + (entry :: entries).length := by
        have bound := induction (by simpa using inside) same
        rw [List.length_cons]
        omega
      unfold oldestFrom at isOldest
      split at isOldest
      · have bound := induction (fun place member => Nat.lt_succ_of_lt (before place member))
          isOldest
        rw [List.length_cons]
        omega
      · split at isOldest
        · exact later (Nat.lt_succ_self i) isOldest
        · rename_i created j
          split at isOldest
          · exact later (Nat.lt_succ_self i) isOldest
          · exact later (Nat.lt_succ_of_lt (before _ rfl)) isOldest

/-- A new entry takes the place of a free one, or of any other where none is free. -/
theorem cacheEntryNew_eq_some {order : List Nat} {entries : List (CacheEntry Key Answer)}
    {i : Nat} (new : cacheEntryNew order entries = some i) :
    ∃ entry, entries[i]? = some entry ∧
      (entry.status = 0 ∨ ∀ other ∈ entries, other.status ≠ 0) := by
  unfold cacheEntryNew at new
  cases free : entries.findIdx? fun entry => entry.status = 0 with
  | some j =>
      rw [free, Option.some_or] at new
      obtain rfl := Option.some.inj new
      obtain ⟨inside, isFree, _⟩ := List.findIdx?_eq_some_iff_getElem.mp free
      exact ⟨entries[j], List.getElem?_eq_getElem inside, Or.inl (of_decide_eq_true isFree)⟩
  | none =>
      rw [free, Option.none_or] at new
      obtain ⟨status, _, oldest⟩ := List.exists_of_findSome?_eq_some new
      obtain ⟨found, isOldest, rfl⟩ := Option.map_eq_some_iff.mp oldest
      have inside := oldestFrom_lt (by simp) isOldest
      rw [Nat.zero_add] at inside
      refine ⟨entries[found.2], List.getElem?_eq_getElem inside, Or.inr fun other member => ?_⟩
      exact of_decide_eq_false (List.findIdx?_eq_none_iff.mp free other member)

theorem cachePick_eq_none {wanted : CacheEntry Key Answer → Bool} {t : Nat}
    {entries : List (CacheEntry Key Answer)} :
    cachePick wanted t entries = none ↔ ∀ entry ∈ entries, wanted entry = false := by
  induction entries with
  | nil => simp [cachePick]
  | cons entry entries induction =>
      rw [cachePick]
      by_cases isWanted : wanted entry = true
      · simp [isWanted]
      · simp [isWanted, induction]

/-- What is picked is an entry that is wanted, and only becomes new. -/
theorem cachePick_eq_some {wanted : CacheEntry Key Answer → Bool} {t : Nat}
    {entries : List (CacheEntry Key Answer)}
    {picked : CacheEntry Key Answer × List (CacheEntry Key Answer)}
    (found : cachePick wanted t entries = some picked) :
    wanted picked.1 = true ∧ ∃ i, entries[i]? = some picked.1 ∧
      picked.2 = entries.set i { picked.1 with created := t } := by
  induction entries generalizing picked with
  | nil => simp [cachePick] at found
  | cons entry entries induction =>
      rw [cachePick] at found
      split at found
      · rename_i isWanted
        obtain rfl := Option.some.inj found
        exact ⟨isWanted, 0, rfl, rfl⟩
      · obtain ⟨inner, within, rfl⟩ := Option.map_eq_some_iff.mp found
        obtain ⟨isWanted, i, at', set⟩ := induction within
        refine ⟨isWanted, i + 1, at', ?_⟩
        rw [List.set_cons_succ, set]

/-- Every entry can be given up, and there is one. -/
def Yielding (order : List Nat) (entries : List (CacheEntry Key Answer)) : Prop :=
  entries ≠ [] ∧ ∀ entry ∈ entries, entry.status = 0 ∨ entry.status ∈ order

theorem Yielding.replaceable {order : List Nat} {entries : List (CacheEntry Key Answer)}
    (yielding : Yielding order entries) : Replaceable order entries := by
  obtain ⟨nonempty, given⟩ := yielding
  obtain ⟨entry, member⟩ := List.exists_mem_of_ne_nil entries nonempty
  exact ⟨entry, member, given entry member⟩

/-- An answer that is picked keeps its status. -/
theorem map_status_of_cachePick {wanted : CacheEntry Key Answer → Bool} {t : Nat}
    {entries : List (CacheEntry Key Answer)}
    {picked : CacheEntry Key Answer × List (CacheEntry Key Answer)}
    (found : cachePick wanted t entries = some picked) :
    picked.2.map CacheEntry.status = entries.map CacheEntry.status := by
  induction entries generalizing picked with
  | nil => simp [cachePick] at found
  | cons entry entries induction =>
      rw [cachePick] at found
      split at found
      · obtain rfl := Option.some.inj found
        rfl
      · obtain ⟨inner, within, rfl⟩ := Option.map_eq_some_iff.mp found
        simp [induction within]

theorem Yielding.of_cachePick {order : List Nat} {wanted : CacheEntry Key Answer → Bool}
    {t : Nat} {entries : List (CacheEntry Key Answer)}
    {picked : CacheEntry Key Answer × List (CacheEntry Key Answer)}
    (yielding : Yielding order entries) (found : cachePick wanted t entries = some picked) :
    Yielding order picked.2 := by
  obtain ⟨nonempty, given⟩ := yielding
  have statuses := map_status_of_cachePick found
  have given' : ∀ status ∈ entries.map CacheEntry.status, status = 0 ∨ status ∈ order := by
    simpa using given
  constructor
  · intro empty
    rw [empty] at statuses
    exact nonempty (List.map_eq_nil_iff.mp statuses.symm)
  · intro entry member
    exact given' entry.status (statuses ▸ List.mem_map_of_mem member)

theorem Yielding.of_cachePut {order : List Nat} {entry : CacheEntry Key Answer}
    {entries entries' : List (CacheEntry Key Answer)} (yielding : Yielding order entries)
    (given : entry.status ∈ order) (put : cachePut order entry entries = some entries') :
    Yielding order entries' := by
  obtain ⟨i, _, rfl⟩ := Option.map_eq_some_iff.mp put
  refine ⟨by simpa using yielding.1, ?_⟩
  intro other member
  cases List.mem_or_eq_of_mem_set member with
  | inl old => exact yielding.2 other old
  | inr new => exact Or.inr (new ▸ given)

end Chaosircd
