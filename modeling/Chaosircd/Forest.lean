import Chaosircd.KeyedList
import Mathlib.Data.List.Count

/-!
# Forests given by parent pointers

A list of nodes with keys, each of which may name the key of its parent, is a
forest when every parent is in the list and has a smaller key.  What lies below
a root can be cut out without breaking the forest, and the number of nodes whose
key exceeds that of a root bounds the depth of a walk down from it.
-/

namespace Chaosircd

namespace Forest

variable {Node : Type*} (key : Node → Nat) (parent : Node → Option Nat)

/-- The keys of the nodes from which parent pointers lead to the root. -/
inductive Below (nodes : List Node) (root : Nat) : Nat → Prop where
  | child {node : Node} (member : node ∈ nodes)
      (named : parent node = some root) : Below nodes root (key node)
  | deeper {node : Node} {up : Nat} (member : node ∈ nodes)
      (named : parent node = some up) (above : Below nodes root up) :
      Below nodes root (key node)

/-- Every parent pointer leads to a node with a smaller key. -/
def Ordered (nodes : List Node) : Prop :=
  ∀ node ∈ nodes, ∀ up, parent node = some up →
    up < key node ∧ ∃ node' ∈ nodes, key node' = up

/-- A set of keys that contains a node with its parent. -/
def Closed (nodes : List Node) (gone : Nat → Bool) : Prop :=
  ∀ node ∈ nodes, ∀ up, parent node = some up → gone up → gone (key node)

open Classical in
/-- What lies below a root, as a test. -/
noncomputable def isBelow (nodes : List Node) (root target : Nat) : Bool :=
  decide (Below key parent nodes root target)

/-- The number of nodes whose key exceeds the one of the root. -/
def room (nodes : List Node) (root : Nat) : Nat :=
  nodes.countP fun node => root < key node

variable {key parent} {nodes nodes' : List Node} {root mid target : Nat}

namespace Below

theorem mono (sub : ∀ node ∈ nodes, node ∈ nodes')
    (below : Below key parent nodes root target) :
    Below key parent nodes' root target := by
  induction below with
  | child member named => exact child (sub _ member) named
  | deeper member named above ih => exact deeper (sub _ member) named ih

theorem trans (lower : Below key parent nodes mid target)
    (upper : Below key parent nodes root mid) :
    Below key parent nodes root target := by
  induction lower with
  | child member named => exact deeper member named upper
  | deeper member named above ih => exact deeper member named ih

theorem exists_node (below : Below key parent nodes root target) :
    ∃ node ∈ nodes, key node = target := by
  cases below with
  | child member named => exact ⟨_, member, rfl⟩
  | deeper member named above => exact ⟨_, member, rfl⟩

theorem lt (ordered : Ordered key parent nodes)
    (below : Below key parent nodes root target) : root < target := by
  induction below with
  | child member named => exact (ordered _ member _ named).1
  | deeper member named above ih =>
      have step := (ordered _ member _ named).1
      omega

/-- Under distinct keys the walk up from a node is determined. -/
theorem up_cases (distinct : (nodes.map key).Nodup)
    {node : Node} (member : node ∈ nodes)
    (below : Below key parent nodes root (key node)) :
    ∃ up, parent node = some up ∧
      (up = root ∨ Below key parent nodes root up) := by
  generalize isKey : key node = target at below
  cases below with
  | child member' named =>
      have same := KeyedList.eq_of_key_eq distinct member member' isKey
      exact ⟨root, same ▸ named, .inl rfl⟩
  | deeper member' named above =>
      have same := KeyedList.eq_of_key_eq distinct member member' isKey
      exact ⟨_, same ▸ named, .inr above⟩

/-- The first step of a walk down. -/
theorem down_cases (below : Below key parent nodes root target) :
    ∃ node ∈ nodes, parent node = some root ∧
      (target = key node ∨ Below key parent nodes (key node) target) := by
  induction below with
  | child member named => exact ⟨_, member, named, .inl rfl⟩
  | deeper member named above ih =>
      obtain ⟨node, isNode, isChild, rfl | lower⟩ := ih
      · exact ⟨node, isNode, isChild, .inr (child member named)⟩
      · exact ⟨node, isNode, isChild, .inr (deeper member named lower)⟩

/-- Cutting out a closed set keeps the walks to what is left. -/
theorem filter {gone : Nat → Bool} (closed : Closed key parent nodes gone)
    (stays : gone target = false)
    (below : Below key parent nodes root target) :
    Below key parent (nodes.filter fun node => !gone (key node)) root
      target := by
  induction below with
  | child member named =>
      exact child (List.mem_filter.mpr ⟨member, by simpa using stays⟩) named
  | @deeper node up member named above ih =>
      have upStays : gone up = false := by
        by_contra isGone
        rw [closed _ member _ named (by simpa using isGone)] at stays
        cases stays
      exact deeper (List.mem_filter.mpr ⟨member, by simpa using stays⟩) named
        (ih upStays)

end Below

theorem isBelow_iff :
    isBelow key parent nodes root target = true ↔
      Below key parent nodes root target := by
  simp [isBelow]

/-- What lies below a root, with or without the root, is closed. -/
theorem closed_isBelow :
    Closed key parent nodes (isBelow key parent nodes root) := by
  intro node member up named above
  rw [isBelow_iff] at above ⊢
  exact .deeper member named above

theorem closed_isBelow_or_root :
    Closed key parent nodes fun target =>
      target = root || isBelow key parent nodes root target := by
  intro node member up named above
  simp only [Bool.or_eq_true, decide_eq_true_eq, isBelow_iff] at above ⊢
  right
  rcases above with rfl | above
  · exact .child member named
  · exact .deeper member named above

theorem Closed.or {gone gone' : Nat → Bool}
    (closed : Closed key parent nodes gone)
    (closed' : Closed key parent nodes gone') :
    Closed key parent nodes fun target => gone target || gone' target := by
  intro node member up named isGone
  rw [Bool.or_eq_true] at isGone ⊢
  exact isGone.imp (closed node member up named) (closed' node member up named)

theorem Ordered.filter {gone : Nat → Bool} (ordered : Ordered key parent nodes)
    (closed : Closed key parent nodes gone) :
    Ordered key parent (nodes.filter fun node => !gone (key node)) := by
  intro node member up named
  obtain ⟨member, stays⟩ := List.mem_filter.mp member
  obtain ⟨smaller, node', member', isUp⟩ := ordered node member up named
  refine ⟨smaller, node', List.mem_filter.mpr ⟨member', ?_⟩, isUp⟩
  rw [isUp, Bool.not_eq_true']
  by_contra isGone
  rw [closed node member up named (by simpa using isGone)] at stays
  cases stays

/-- Cutting out a closed set does not change what is below a root in the rest. -/
theorem isBelow_filter {gone : Nat → Bool}
    (closed : Closed key parent nodes gone) (stays : gone target = false) :
    isBelow key parent (nodes.filter fun node => !gone (key node)) root target =
      isBelow key parent nodes root target := by
  rw [Bool.eq_iff_iff, isBelow_iff, isBelow_iff]
  exact ⟨.mono fun _ => List.mem_of_mem_filter, .filter closed stays⟩

theorem room_le_of_sublist (sub : nodes.Sublist nodes') :
    room key nodes root ≤ room key nodes' root :=
  List.Sublist.countP_le sub

/-- Going down one step leaves less room. -/
theorem room_lt {node : Node} (member : node ∈ nodes)
    (smaller : root < key node) :
    room key nodes (key node) < room key nodes root := by
  have isLess : ∀ other, key node < key other → root < key other :=
    fun _ less => by omega
  induction nodes with
  | nil => cases member
  | cons other nodes ih =>
      simp only [room, List.countP_cons, decide_eq_true_eq] at ih ⊢
      rcases List.mem_cons.mp member with rfl | later
      · have least : nodes.countP (fun other => key node < key other) ≤
            nodes.countP fun other => root < key other :=
          List.countP_mono_left fun other _ less => by
            simpa using isLess other (by simpa using less)
        rw [if_neg (Nat.lt_irrefl _), if_pos smaller]
        omega
      · have less := ih later
        by_cases above : key node < key other
        · rw [if_pos above, if_pos (isLess other above)]
          omega
        · rw [if_neg above]
          omega

theorem room_lt_length {node : Node} (member : node ∈ nodes) :
    room key nodes (key node) < nodes.length := by
  rw [room, List.countP_lt_length_iff]
  exact ⟨node, member, by simp⟩

end Forest

end Chaosircd
