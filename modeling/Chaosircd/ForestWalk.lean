import Chaosircd.Forest
import Mathlib.Data.List.Nodup

/-!
# Walking down a forest

A walk from a root comes to each node below it once, and to no node before its parent,
since the children of a node are walked one after the other behind the node.  The number
of keys above the one of the root bounds the depth of the walk.
-/

namespace Chaosircd

namespace Forest

variable {Node : Type*} (key : Node → Nat) (parent : Node → Option Nat)

/-- The keys of the nodes whose parent has this key, in the order of the list. -/
def children (nodes : List Node) (root : Nat) : List Nat :=
  (nodes.filter fun node => parent node = some root).map key

/-- The keys at and below the root, each node before its children. -/
def walk (nodes : List Node) : Nat → Nat → List Nat
  | 0, _ => []
  | depth + 1, root => root :: (children key parent nodes root).flatMap (walk nodes depth)

variable {key parent} {nodes : List Node} {root target depth : Nat}

theorem mem_children : target ∈ children key parent nodes root ↔
    ∃ node ∈ nodes, parent node = some root ∧ key node = target := by
  simp [children, and_assoc]

/-- A child has less room below it. -/
theorem room_child_lt (ordered : Ordered key parent nodes)
    (child : target ∈ children key parent nodes root) :
    room key nodes target < room key nodes root := by
  obtain ⟨node, member, named, rfl⟩ := mem_children.mp child
  exact room_lt member (ordered node member root named).1

/-- The walk comes to the root and to what is below it. -/
theorem mem_walk (ordered : Ordered key parent nodes) (deep : room key nodes root < depth) :
    target ∈ walk key parent nodes depth root ↔
      target = root ∨ Below key parent nodes root target := by
  induction depth generalizing root with
  | zero => exact absurd deep (Nat.not_lt_zero _)
  | succ depth induction =>
      rw [walk, List.mem_cons, List.mem_flatMap]
      refine or_congr_right ⟨?_, ?_⟩
      · rintro ⟨child, isChild, below⟩
        have less := room_child_lt ordered isChild
        rw [induction (by omega)] at below
        obtain ⟨node, member, named, rfl⟩ := mem_children.mp isChild
        cases below with
        | inl same => exact same ▸ .child member named
        | inr below => exact below.trans (.child member named)
      · intro below
        obtain ⟨node, member, named, further⟩ := below.down_cases
        have isChild : key node ∈ children key parent nodes root :=
          mem_children.mpr ⟨node, member, named, rfl⟩
        have less := room_child_lt ordered isChild
        exact ⟨key node, isChild, (induction (by omega)).mpr further⟩

/-- A walk that is deep enough does not change with the depth. -/
theorem walk_eq {depth' : Nat} (ordered : Ordered key parent nodes)
    (deep : room key nodes root < depth) (deep' : room key nodes root < depth') :
    walk key parent nodes depth root = walk key parent nodes depth' root := by
  induction depth generalizing depth' root with
  | zero => exact absurd deep (Nat.not_lt_zero _)
  | succ depth induction =>
      cases depth' with
      | zero => exact absurd deep' (Nat.not_lt_zero _)
      | succ depth' =>
          rw [walk, walk]
          congr 1
          apply List.flatMap_congr
          intro child isChild
          have less := room_child_lt ordered isChild
          exact induction (by omega) (by omega)

/-- Of two nodes above a third one, one is above the other. -/
theorem Below.comparable (distinct : (nodes.map key).Nodup) {root' : Nat}
    (below : Below key parent nodes root target) (below' : Below key parent nodes root' target) :
    root = root' ∨ Below key parent nodes root root' ∨ Below key parent nodes root' root := by
  induction below with
  | child member named =>
      obtain ⟨up, named', further⟩ := below'.up_cases distinct member
      obtain rfl := Option.some.inj (named.symm.trans named')
      cases further with
      | inl same => exact Or.inl same
      | inr above => exact Or.inr (Or.inr above)
  | deeper member named above induction =>
      obtain ⟨up, named', further⟩ := below'.up_cases distinct member
      obtain rfl := Option.some.inj (named.symm.trans named')
      cases further with
      | inl same => exact Or.inr (Or.inl (same ▸ above))
      | inr above' => exact induction above'

/-- No child of a node is below another one. -/
theorem not_below_sibling (ordered : Ordered key parent nodes) (distinct : (nodes.map key).Nodup)
    {child child' : Nat} (isChild : child ∈ children key parent nodes root)
    (isChild' : child' ∈ children key parent nodes root) :
    ¬ Below key parent nodes child child' := by
  intro below
  obtain ⟨node, member, named, rfl⟩ := mem_children.mp isChild
  obtain ⟨node', member', named', rfl⟩ := mem_children.mp isChild'
  have up := (ordered node member root named).1
  obtain ⟨up', named'', further⟩ := below.up_cases distinct member'
  obtain rfl := Option.some.inj (named'.symm.trans named'')
  cases further with
  | inl same => omega
  | inr above =>
      have lower := above.lt ordered
      omega

/-- The walk comes to no node twice. -/
theorem walk_nodup (ordered : Ordered key parent nodes) (distinct : (nodes.map key).Nodup)
    (deep : room key nodes root < depth) : (walk key parent nodes depth root).Nodup := by
  induction depth generalizing root with
  | zero => exact absurd deep (Nat.not_lt_zero _)
  | succ depth induction =>
      have less : ∀ child ∈ children key parent nodes root, room key nodes child < depth := by
        intro child isChild
        have less := room_child_lt ordered isChild
        omega
      rw [walk, List.nodup_cons]
      constructor
      · rw [List.mem_flatMap]
        rintro ⟨child, isChild, member⟩
        rw [mem_walk ordered (less child isChild)] at member
        obtain ⟨node, isNode, named, rfl⟩ := mem_children.mp isChild
        have up := (ordered node isNode root named).1
        cases member with
        | inl same => omega
        | inr below =>
            have lower := below.lt ordered
            omega
      · rw [List.nodup_flatMap]
        refine ⟨fun child isChild => induction (less child isChild), ?_⟩
        have siblings : (children key parent nodes root).Nodup :=
          distinct.sublist (List.filter_sublist.map key)
        refine siblings.imp_of_mem ?_
        intro child child' isChild isChild' differ target member member'
        rw [mem_walk ordered (less child isChild)] at member
        rw [mem_walk ordered (less child' isChild')] at member'
        have apart := not_below_sibling ordered distinct isChild isChild'
        have apart' := not_below_sibling ordered distinct isChild' isChild
        cases member with
        | inl same =>
            cases member' with
            | inl same' => exact differ (same.symm.trans same')
            | inr below' => exact apart' (same ▸ below')
        | inr below =>
            cases member' with
            | inl same' => exact apart (same' ▸ below)
            | inr below' =>
                rcases below.comparable distinct below' with same | lower | upper
                · exact differ same
                · exact apart lower
                · exact apart' upper

/-- Where an element of a joined list comes from. -/
theorem exists_of_flatMap_eq {Part Element : Type*} {part : Part → List Element}
    {parts : List Part} {element : Element} {before after : List Element}
    (split : parts.flatMap part = before ++ element :: after) :
    ∃ here ∈ parts, ∃ earlier before' after', part here = before' ++ element :: after' ∧
      before = earlier ++ before' := by
  induction parts generalizing before with
  | nil => exact absurd split (by simp)
  | cons first parts induction =>
      rw [List.flatMap_cons] at split
      rcases List.append_eq_append_iff.mp split with
        ⟨middle, whole, rest⟩ | ⟨middle, whole, rest⟩
      · obtain ⟨here, member, earlier, before', after', inPart, front⟩ := induction rest
        refine ⟨here, List.mem_cons_of_mem _ member, part first ++ earlier, before', after',
          inPart, ?_⟩
        rw [whole, front, List.append_assoc]
      · cases middle with
        | nil =>
            obtain ⟨here, member, earlier, before', after', inPart, front⟩ :=
              @induction [] rest.symm
            obtain ⟨-, rfl⟩ := List.append_eq_nil_iff.mp front.symm
            exact ⟨here, List.mem_cons_of_mem _ member, before, [], after', inPart, by simp⟩
        | cons element' middle =>
            obtain ⟨rfl, _⟩ := List.cons.inj rest
            exact ⟨first, List.mem_cons_self, [], before, middle, whole, rfl⟩

/-- The parent of a node comes before the node, unless the walk begins with the node. -/
theorem walk_parent {before after : List Nat}
    (split : walk key parent nodes depth root = before ++ target :: after) :
    (target = root ∧ before = []) ∨
      ∃ node ∈ nodes, key node = target ∧ ∃ up ∈ before, parent node = some up := by
  induction depth generalizing root before after with
  | zero => exact absurd split (by simp [walk])
  | succ depth induction =>
      rw [walk] at split
      cases before with
      | nil => exact Or.inl ⟨(List.cons.inj split).1.symm, rfl⟩
      | cons first before =>
          right
          obtain ⟨rfl, tail⟩ := List.cons.inj split
          obtain ⟨child, isChild, earlier, before', after', inChild, front⟩ :=
            exists_of_flatMap_eq tail
          rcases induction inChild with ⟨same, _⟩ | ⟨node, member, same, up, isUp, named⟩
          · obtain ⟨node, member, named, isKey⟩ := mem_children.mp isChild
            exact ⟨node, member, isKey.trans same.symm, root, List.mem_cons_self, named⟩
          · refine ⟨node, member, same, up, ?_, named⟩
            rw [front]
            exact List.mem_cons_of_mem _ (List.mem_append_right _ isUp)

end Forest

end Chaosircd
