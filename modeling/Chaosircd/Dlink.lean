import Mathlib.Algebra.Ring.Nat
import Mathlib.Data.List.Nodup
import Mathlib.Logic.Function.Basic

/-!
# Doubly linked lists

Nodes that point to their neighbours, and a list block with its head, its tail
and its size.  `dlink_add_tail` and `dlink_delete` write the pointers that a node
and its neighbours hold; they do to the list of nodes what their names say, and
touch no node of another list.
-/

namespace Chaosircd

namespace Dlink

variable {Node : Type*} [DecidableEq Node]

/-- The `next` and `prev` references of all nodes. -/
structure Links (Node : Type*) where
  next : Node → Option Node
  prev : Node → Option Node

/-- `struct list`. -/
structure Dlist (Node : Type*) where
  head : Option Node
  tail : Option Node
  size : Nat

/-- `dlink_list_zero`. -/
def zero : Dlist Node :=
  ⟨none, none, 0⟩

/-- `dlink_add_tail`. -/
def addTail (links : Links Node) (lptr : Dlist Node) (nptr : Node) :
    Links Node × Dlist Node :=
  let next := Function.update links.next nptr none
  let prev := Function.update links.prev nptr lptr.tail
  match lptr.tail with
  | some last =>
    (⟨Function.update next last (some nptr), prev⟩,
      ⟨lptr.head, some nptr, lptr.size + 1⟩)
  | none => (⟨next, prev⟩, ⟨some nptr, some nptr, lptr.size + 1⟩)

/-- `f[at] = value`, where the reference is present. -/
def updateAt (f : Node → Option Node) (at_ value : Option Node) : Node → Option Node :=
  match at_ with
  | some nptr => Function.update f nptr value
  | none => f

/-- `dlink_delete`. -/
def delete (links : Links Node) (lptr : Dlist Node) (nptr : Node) :
    Links Node × Dlist Node :=
  let (next, head) :=
    if lptr.head = some nptr then (links.next, links.next nptr)
    else (updateAt links.next (links.prev nptr) (links.next nptr), lptr.head)
  let (prev, tail) :=
    if lptr.tail = some nptr then (links.prev, links.prev nptr)
    else (updateAt links.prev (links.next nptr) (links.prev nptr), lptr.tail)
  (⟨Function.update next nptr none, Function.update prev nptr none⟩,
    ⟨head, tail, lptr.size - 1⟩)

/-- The list block and the references of the nodes are those of this list of nodes. -/
structure Represents (links : Links Node) (lptr : Dlist Node) (nodes : List Node) :
    Prop where
  nodup : nodes.Nodup
  head : lptr.head = nodes.head?
  tail : lptr.tail = nodes.getLast?
  size : lptr.size = nodes.length
  prev : ∀ before nptr behind, nodes = before ++ nptr :: behind →
    links.prev nptr = before.getLast?
  next : ∀ before nptr behind, nodes = before ++ nptr :: behind →
    links.next nptr = behind.head?

omit [DecidableEq Node] in
theorem represents_zero (links : Links Node) : Represents links zero ([] : List Node) :=
  ⟨List.nodup_nil, rfl, rfl, rfl, by simp, by simp⟩

section

variable {links : Links Node} {lptr : Dlist Node} {nodes : List Node} {nptr : Node}

omit [DecidableEq Node] in
/-- What stands on either side of a node is determined. -/
theorem split_unique {before behind before' behind' : List Node}
    (nodup : (before ++ nptr :: behind).Nodup)
    (same : before ++ nptr :: behind = before' ++ nptr :: behind') :
    before = before' ∧ behind = behind' := by
  have fresh : nptr ∉ before := by
    intro member
    exact (List.nodup_append.mp nodup).2.2 _ member _ (by simp) rfl
  have fresh' : nptr ∉ before' := by
    rw [same] at nodup
    intro member
    exact (List.nodup_append.mp nodup).2.2 _ member _ (by simp) rfl
  rcases List.append_eq_append_iff.mp same with ⟨mid, first, last⟩ | ⟨mid, first, last⟩
  · cases mid with
    | nil => simp_all
    | cons node mid =>
        obtain ⟨rfl, -⟩ := List.cons.inj last
        exact absurd (by simp [first]) fresh'
  · cases mid with
    | nil => simp_all
    | cons node mid =>
        obtain ⟨rfl, -⟩ := List.cons.inj last
        exact absurd (by simp [first]) fresh

theorem Represents.addTail (list : Represents links lptr nodes) (fresh : nptr ∉ nodes) :
    Represents (addTail links lptr nptr).1 (addTail links lptr nptr).2 (nodes ++ [nptr]) := by
  have nodup : (nodes ++ [nptr]).Nodup := by
    rw [List.nodup_append]
    refine ⟨list.nodup, by simp, ?_⟩
    rintro node member _ last rfl
    exact fresh ((by simpa using last : node = nptr) ▸ member)
  have notLast : nodes.getLast? ≠ some nptr := fun last =>
    fresh (List.mem_of_getLast? last)
  rw [Dlink.addTail, list.tail]
  cases last : nodes.getLast? with
  | none =>
      have empty : nodes = [] := List.getLast?_eq_none_iff.mp last
      subst empty
      refine ⟨nodup, rfl, rfl, by simp [list.size], ?_, ?_⟩
      · intro before node behind split
        obtain ⟨rfl, rest⟩ : before = [] ∧ [nptr] = node :: behind := by
          cases before with
          | nil => exact ⟨rfl, split⟩
          | cons first before => simp at split
        simp [(List.cons.inj rest).1]
      · intro before node behind split
        obtain ⟨rfl, rest⟩ : before = [] ∧ [nptr] = node :: behind := by
          cases before with
          | nil => exact ⟨rfl, split⟩
          | cons first before => simp at split
        simp [(List.cons.inj rest).1, ← (List.cons.inj rest).2]
  | some tail =>
      have tailNe : tail ≠ nptr := fun same => notLast (same ▸ last)
      obtain ⟨front, isFront⟩ : ∃ front, nodes = front ++ [tail] :=
        ⟨nodes.dropLast, (List.dropLast_append_getLast? tail last).symm⟩
      have headSome : (nodes ++ [nptr]).head? = nodes.head? := by
        rw [isFront]
        cases front <;> rfl
      refine ⟨nodup, ?_, by simp, by simp [list.size], ?_, ?_⟩
      · rw [headSome]
        exact list.head
      · intro before node behind split
        by_cases isNew : node = nptr
        · subst isNew
          obtain ⟨rfl, -⟩ := split_unique nodup split
          simp [last]
        · -- an older node keeps its predecessor
          have older : ∃ behind', nodes = before ++ node :: behind' := by
            rcases List.eq_nil_or_concat behind with rfl | ⟨behind', final, rfl⟩
            · have ends := List.append_inj_right' split rfl
              exact absurd (List.cons.inj ends).1.symm isNew
            · rw [List.concat_eq_append, ← List.cons_append, ← List.append_assoc] at split
              exact ⟨behind', List.append_inj_left' split rfl⟩
          obtain ⟨behind', split'⟩ := older
          simpa [isNew] using list.prev before node behind' split'
      · intro before node behind split
        by_cases isNew : node = nptr
        · subst isNew
          obtain ⟨-, rfl⟩ := split_unique nodup split
          simp [Function.update_of_ne (Ne.symm tailNe)]
        · by_cases isTail : node = tail
          · subst isTail
            rw [isFront, List.append_assoc] at split nodup
            obtain ⟨-, rfl⟩ := split_unique nodup split
            simp
          · rcases List.eq_nil_or_concat behind with rfl | ⟨behind', final, rfl⟩
            · have ends := List.append_inj_right' split rfl
              exact absurd (List.cons.inj ends).1.symm isNew
            · rw [List.concat_eq_append, ← List.cons_append, ← List.append_assoc] at split
              have split' := List.append_inj_left' split rfl
              have kept := list.next before node behind' split'
              cases behind' with
              | nil =>
                  rw [isFront] at split'
                  have ends := List.append_inj_right' split' rfl
                  exact absurd (List.cons.inj ends).1.symm isTail
              | cons first behind' =>
                  simpa [isNew, isTail] using kept

omit [DecidableEq Node] in
theorem getLast?_cons_concat (first last : Node) (nodes : List Node) :
    (first :: (nodes ++ [last])).getLast? = some last := by
  rw [← List.cons_append]
  exact List.getLast?_concat

omit [DecidableEq Node] in
/-- A node of a list without one of its nodes stands before or behind the gap. -/
theorem split_gap {before behind first last : List Node} {node : Node}
    (split : before ++ behind = first ++ node :: last) :
    (∃ mid, before = first ++ node :: mid ∧ last = mid ++ behind) ∨
      ∃ mid, first = before ++ mid ∧ behind = mid ++ node :: last := by
  rcases List.append_eq_append_iff.mp split with ⟨mid, front, back⟩ | ⟨mid, front, back⟩
  · exact Or.inr ⟨mid, front, back⟩
  · cases mid with
    | nil => exact Or.inr ⟨[], by simpa using front.symm, by simpa using back.symm⟩
    | cons other mid =>
        obtain ⟨rfl, rest⟩ := List.cons.inj back
        exact Or.inl ⟨mid, front, rest⟩

section Delete

variable {before behind : List Node}

omit [DecidableEq Node] in
theorem Represents.not_mem (list : Represents links lptr (before ++ nptr :: behind)) :
    nptr ∉ before ∧ nptr ∉ behind := by
  constructor
  · intro member
    exact (List.nodup_append.mp list.nodup).2.2 _ member _ (by simp) rfl
  · exact (List.nodup_cons.mp (List.nodup_append.mp list.nodup).2.1).1

omit [DecidableEq Node] in
theorem Represents.head_eq_iff (list : Represents links lptr (before ++ nptr :: behind)) :
    lptr.head = some nptr ↔ before = [] := by
  rw [list.head]
  cases before with
  | nil => simp
  | cons first before =>
      have other : first ≠ nptr := by
        rintro rfl
        exact list.not_mem.1 (by simp)
      simp [other]

omit [DecidableEq Node] in
theorem Represents.tail_eq_iff (list : Represents links lptr (before ++ nptr :: behind)) :
    lptr.tail = some nptr ↔ behind = [] := by
  rw [list.tail]
  rcases List.eq_nil_or_concat behind with rfl | ⟨front, last, rfl⟩
  · simp
  · have other : last ≠ nptr := by
      rintro rfl
      exact list.not_mem.2 (by simp)
    simp [other, getLast?_cons_concat]

/-- The node in front of the deleted one leads to the node behind it. -/
theorem Represents.delete_next (list : Represents links lptr (before ++ nptr :: behind))
    {node : Node} (other : node ≠ nptr) : (Dlink.delete links lptr nptr).1.next node =
      if before.getLast? = some node then behind.head? else links.next node := by
  by_cases first : before = []
  · simp [Dlink.delete, list.head_eq_iff.mpr first, first, other]
  · rw [Dlink.delete, if_neg (list.head_eq_iff.not.mpr first),
      list.prev before nptr behind rfl, list.next before nptr behind rfl]
    cases last : before.getLast? with
    | none => exact absurd (List.getLast?_eq_none_iff.mp last) first
    | some node' =>
        by_cases same : node' = node
        · subst same
          simp [updateAt, other]
        · simp [updateAt, other, same, Function.update_of_ne (Ne.symm same)]

/-- The node behind the deleted one leads back to the node in front of it. -/
theorem Represents.delete_prev (list : Represents links lptr (before ++ nptr :: behind))
    {node : Node} (other : node ≠ nptr) : (Dlink.delete links lptr nptr).1.prev node =
      if behind.head? = some node then before.getLast? else links.prev node := by
  by_cases final : behind = []
  · simp [Dlink.delete, list.tail_eq_iff.mpr final, final, other]
  · rw [Dlink.delete, if_neg (list.tail_eq_iff.not.mpr final),
      list.prev before nptr behind rfl, list.next before nptr behind rfl]
    cases first : behind.head? with
    | none => exact absurd (List.head?_eq_none_iff.mp first) final
    | some node' =>
        by_cases same : node' = node
        · subst same
          simp [updateAt, other]
        · simp [updateAt, other, same, Function.update_of_ne (Ne.symm same)]

theorem Represents.delete (list : Represents links lptr (before ++ nptr :: behind)) :
    Represents (delete links lptr nptr).1 (delete links lptr nptr).2 (before ++ behind) := by
  have nodup : (before ++ behind).Nodup :=
    list.nodup.sublist (List.sublist_append_right [nptr] behind |>.append_left before)
  have disjoint : ∀ node, node ∈ before → node ∉ behind := by
    intro node member member'
    exact (List.nodup_append.mp nodup).2.2 _ member _ member' rfl
  have stays : ∀ front node back, before ++ behind = front ++ node :: back → node ≠ nptr := by
    rintro front node back split rfl
    have member : node ∈ before ++ behind := by simp [split]
    rcases List.mem_append.mp member with member | member
    · exact list.not_mem.1 member
    · exact list.not_mem.2 member
  refine ⟨nodup, ?_, ?_, ?_, ?_, ?_⟩
  · by_cases first : before = []
    · simp [Dlink.delete, list.head_eq_iff.mpr first, first, list.next before nptr behind rfl]
    · have kept : (Dlink.delete links lptr nptr).2.head = lptr.head := by
        simp [Dlink.delete, list.head_eq_iff.not.mpr first]
      rw [kept, list.head]
      cases before with
      | nil => exact absurd rfl first
      | cons node before => rfl
  · by_cases final : behind = []
    · simp [Dlink.delete, list.tail_eq_iff.mpr final, final, list.prev before nptr behind rfl]
    · have kept : (Dlink.delete links lptr nptr).2.tail = lptr.tail := by
        simp [Dlink.delete, list.tail_eq_iff.not.mpr final]
      rw [kept, list.tail]
      rcases List.eq_nil_or_concat behind with rfl | ⟨front, last, rfl⟩
      · exact absurd rfl final
      · simp [getLast?_cons_concat]
  · simp [Dlink.delete, list.size]
  · intro front node back split
    rw [list.delete_prev (stays front node back split)]
    rcases split_gap split with ⟨mid, rfl, rfl⟩ | ⟨mid, rfl, rfl⟩
    · have inside : node ∉ behind := disjoint node (by simp)
      have notFirst : behind.head? ≠ some node := fun first =>
        inside (List.mem_of_head? first)
      rw [if_neg notFirst]
      exact list.prev front node (mid ++ nptr :: behind) (by simp)
    · cases mid with
      | nil => simp
      | cons first mid =>
          have notFirst : first ≠ node := by
            rintro rfl
            have twice := (List.nodup_append.mp nodup).2.1
            simp at twice
          rw [if_neg (by simpa using notFirst)]
          rw [list.prev (before ++ nptr :: first :: mid) node back (by simp)]
          simp
  · intro front node back split
    rw [list.delete_next (stays front node back split)]
    rcases split_gap split with ⟨mid, rfl, rfl⟩ | ⟨mid, rfl, rfl⟩
    · rcases List.eq_nil_or_concat mid with rfl | ⟨mid, final, rfl⟩
      · simp
      · have notLast : final ≠ node := by
          rintro rfl
          have twice := (List.nodup_append.mp nodup).1
          simp [List.nodup_append] at twice
        rw [if_neg (by simpa [getLast?_cons_concat] using notLast)]
        rw [list.next front node (mid ++ [final] ++ nptr :: behind) (by simp)]
        simp
    · have outside : before.getLast? ≠ some node := by
        intro last
        exact disjoint node (List.mem_of_getLast? last) (by simp)
      rw [if_neg outside]
      exact list.next (before ++ nptr :: mid) node back (by simp)

end Delete

end

end Dlink

end Chaosircd
