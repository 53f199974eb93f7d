import Mathlib.Algebra.Ring.Nat
import Mathlib.Data.List.Induction
import Mathlib.Data.List.Nodup
import Mathlib.Logic.Function.Basic

/-!
# Walks that stamp what they have visited

A walk over a list of items that takes each key once: the first eligible item of
a key stamps it with the serial number of the walk, and a stamped key is passed
over from then on.  A key that carries the serial number before the walk has
begun is passed over as well.
-/

namespace Chaosircd

namespace StampWalk

variable {Item Key : Type*} [DecidableEq Key]

/-- The stamps and the items taken so far. -/
structure Walk (Item Key : Type*) where
  stamp : Key → Nat
  taken : List Item

/-- The walk comes to one item. -/
def visit (serial : Nat) (eligible : Item → Prop) [DecidablePred eligible]
    (key : Item → Key) (walk : Walk Item Key) (item : Item) : Walk Item Key :=
  if eligible item ∧ walk.stamp (key item) ≠ serial then
    { stamp := Function.update walk.stamp (key item) serial
      taken := walk.taken ++ [item] }
  else walk

/-- The walk over all items. -/
def run (serial : Nat) (eligible : Item → Prop) [DecidablePred eligible]
    (key : Item → Key) (stamp : Key → Nat) (items : List Item) : Walk Item Key :=
  items.foldl (visit serial eligible key) ⟨stamp, []⟩

/-- What is known about a walk over these items. -/
structure Visited (serial : Nat) (eligible : Item → Prop) (key : Item → Key)
    (before : Key → Nat) (items : List Item) (walk : Walk Item Key) : Prop where
  once : (walk.taken.map key).Nodup
  sound : ∀ item ∈ walk.taken, item ∈ items ∧ eligible item
  complete : ∀ k, k ∈ walk.taken.map key ↔
    before k ≠ serial ∧ ∃ item ∈ items, eligible item ∧ key item = k
  stamped : ∀ k, walk.stamp k = if k ∈ walk.taken.map key then serial else before k

variable {serial : Nat} {eligible : Item → Prop} {key : Item → Key}
variable {before : Key → Nat} {items : List Item}
variable {walk : Walk Item Key}

/-- A key is passed over when it has been taken or was stamped from the start. -/
theorem Visited.passed_over (visited : Visited serial eligible key before items walk)
    (k : Key) : walk.stamp k = serial ↔ k ∈ walk.taken.map key ∨ before k = serial := by
  rw [visited.stamped]
  by_cases taken : k ∈ walk.taken.map key
  · simp [taken]
  · simp [taken]

theorem Visited.visit [DecidablePred eligible]
    (visited : Visited serial eligible key before items walk)
    (item : Item) :
    Visited serial eligible key before (items ++ [item])
      (visit serial eligible key walk item) := by
  by_cases taken : eligible item ∧ walk.stamp (key item) ≠ serial
  · have fresh : key item ∉ walk.taken.map key ∧ before (key item) ≠ serial := by
      rw [← not_or, ← visited.passed_over]
      exact taken.2
    rw [StampWalk.visit, if_pos taken]
    refine ⟨?_, ?_, ?_, ?_⟩
    · rw [List.map_append, List.nodup_append]
      refine ⟨visited.once, by simp, ?_⟩
      intro k member k' single same
      have isKey : k' = key item := by simpa using single
      exact fresh.1 (isKey ▸ same ▸ member)
    · intro member inside
      rcases List.mem_append.mp inside with earlier | last
      · obtain ⟨listed, good⟩ := visited.sound member earlier
        exact ⟨List.mem_append_left _ listed, good⟩
      · have isItem : member = item := by simpa using last
        exact ⟨by simp [isItem], isItem ▸ taken.1⟩
    · intro k
      simp only [List.map_append, List.mem_append, List.map_cons, List.map_nil,
        List.mem_singleton, visited.complete]
      constructor
      · rintro (⟨unstamped, member, listed, good, isKey⟩ | rfl)
        · exact ⟨unstamped, member, Or.inl listed, good, isKey⟩
        · exact ⟨fresh.2, item, Or.inr rfl, taken.1, rfl⟩
      · rintro ⟨unstamped, member, listed | rfl, good, isKey⟩
        · exact Or.inl ⟨unstamped, member, listed, good, isKey⟩
        · exact Or.inr isKey.symm
    · intro k
      by_cases same : k = key item
      · simp [same]
      · simp [same, visited.stamped k]
  · rw [StampWalk.visit, if_neg taken]
    refine ⟨visited.once, ?_, ?_, visited.stamped⟩
    · intro member inside
      obtain ⟨listed, good⟩ := visited.sound member inside
      exact ⟨List.mem_append_left _ listed, good⟩
    · intro k
      rw [visited.complete]
      constructor
      · rintro ⟨unstamped, member, listed, good, isKey⟩
        exact ⟨unstamped, member, List.mem_append_left _ listed, good, isKey⟩
      · rintro ⟨unstamped, member, listed, good, isKey⟩
        rcases List.mem_append.mp listed with earlier | last
        · exact ⟨unstamped, member, earlier, good, isKey⟩
        · -- the item was passed over, so its key has been taken before
          have isItem : member = item := by simpa using last
          subst isItem isKey
          have stamp : walk.stamp (key member) = serial := by
            by_contra other
            exact taken ⟨good, other⟩
          have earlier := ((visited.passed_over _).mp stamp).resolve_right unstamped
          exact (visited.complete _).mp earlier

/-- Every walk takes each key at most once, and exactly the keys of its eligible items that
did not carry the serial number before. -/
theorem run_visited (serial : Nat) (eligible : Item → Prop) [DecidablePred eligible]
    (key : Item → Key) (before : Key → Nat) (items : List Item) :
    Visited serial eligible key before items (run serial eligible key before items) := by
  induction items using List.reverseRecOn with
  | nil => exact ⟨by simp [run], by simp [run], by simp [run], by simp [run]⟩
  | append_singleton items item ih =>
      rw [run, List.foldl_append]
      exact ih.visit item

end StampWalk

end Chaosircd
