import Mathlib.Data.List.Nodup

/-!
# Lists of records with distinct keys

A table is a list of records whose keys are distinct.  Looking a key up finds
the one record that has it, whatever else the lookup asks for.
-/

namespace Chaosircd

namespace KeyedList

variable {Record Key : Type*}

/-- Under distinct keys, two records with one key are one record. -/
theorem eq_of_key_eq {key : Record → Key} {records : List Record}
    (distinct : (records.map key).Nodup) {first second : Record}
    (firstMember : first ∈ records) (secondMember : second ∈ records)
    (sameKey : key first = key second) : first = second :=
  List.inj_on_of_nodup_map distinct firstMember secondMember sameKey

/-- A lookup by key finds exactly the records of the table. -/
theorem find?_eq_some_iff [DecidableEq Key] {key : Record → Key} {records : List Record}
    (distinct : (records.map key).Nodup) {record : Record} {wanted : Key} :
    records.find? (fun other => key other = wanted) = some record ↔
      record ∈ records ∧ key record = wanted := by
  constructor
  · intro found
    exact ⟨List.mem_of_find?_eq_some found, by simpa using List.find?_some found⟩
  · rintro ⟨member, rfl⟩
    cases found : records.find? fun other => key other = key record with
    | none =>
        have absent := List.find?_eq_none.mp found record member
        simp at absent
    | some other =>
        have sameKey : key other = key record := by
          simpa using List.find?_some found
        rw [eq_of_key_eq distinct (List.mem_of_find?_eq_some found) member
          sameKey]

/-- A lookup by key and a further test finds the record when it passes. -/
theorem find?_and_key [DecidableEq Key] {key : Record → Key} {records : List Record}
    (distinct : (records.map key).Nodup) {record : Record}
    (member : record ∈ records) (test : Record → Prop) [DecidablePred test] :
    records.find? (fun other => decide (test other ∧ key other = key record)) =
      if test record then some record else none := by
  cases found : records.find? fun other =>
      decide (test other ∧ key other = key record) with
  | none =>
      have fails := List.find?_eq_none.mp found record member
      have failsTest : ¬ test record := by simpa using fails
      rw [if_neg failsTest]
  | some other =>
      have passes : test other ∧ key other = key record := by
        simpa using List.find?_some found
      have same := eq_of_key_eq distinct (List.mem_of_find?_eq_some found)
        member passes.2
      rw [same] at passes
      rw [if_pos passes.1, same]

/-- Changing records without changing their keys keeps the keys. -/
theorem map_key_map {key : Record → Key} (records : List Record)
    {change : Record → Record} (keepsKey : ∀ record, key (change record) = key record) :
    (records.map change).map key = records.map key := by
  rw [List.map_map]
  exact List.map_congr_left fun record _ => keepsKey record

end KeyedList

end Chaosircd
