import Chaosircd.Dlink

/-!
# Families of linked lists

Several list blocks whose nodes come from one store, such as the member lists of
all channels.  No node is on two lists of a family, so an operation on one list
leaves the others alone.  A list can be walked by following its references, and
a walk with a saved successor survives a body that deletes the node it is called
with.
-/

namespace Chaosircd

namespace Dlink

variable {Node : Type*} [DecidableEq Node]

/-! ## Walking a list -/

section Walk

omit [DecidableEq Node]

/-- At most so many nodes, from the one that is given, by following references. -/
def follow (next : Node → Option Node) : Nat → Option Node → List Node
  | 0, _ => []
  | _, none => []
  | fuel + 1, some nptr => nptr :: follow next fuel (next nptr)

/-- The nodes of a list, as `dlink_foreach` meets them. -/
def nodes (links : Links Node) (lptr : Dlist Node) : List Node :=
  follow links.next lptr.size lptr.head

/-- `dlink_foreach_safe` with the successor of a node read before the body runs. -/
def foreachSafe {State : Type*} (next : State → Node → Option Node)
    (body : State → Node → State) : Nat → State → Option Node → State
  | 0, state, _ => state
  | _, state, none => state
  | fuel + 1, state, some nptr =>
    foreachSafe next body fuel (body state nptr) (next state nptr)

theorem Represents.nodes_eq {links : Links Node} {lptr : Dlist Node} {nodes : List Node}
    (list : Represents links lptr nodes) : Dlink.nodes links lptr = nodes := by
  have walk : ∀ before behind, nodes = before ++ behind →
      follow links.next behind.length behind.head? = behind := by
    intro before behind split
    induction behind generalizing before with
    | nil => rfl
    | cons nptr behind ih =>
        have successor := list.next before nptr behind split
        rw [List.length_cons, List.head?_cons, follow, successor,
          ih (before ++ [nptr]) (by simpa using split)]
  rw [Dlink.nodes, list.size, list.head]
  exact walk [] nodes rfl

/-- What lies ahead of the loop shrinks by one node in each turn. -/
theorem foreachSafe_induction {State : Type*} {next : State → Node → Option Node}
    {body : State → Node → State} {Ahead : State → List Node → Prop}
    (successor : ∀ state nptr rest, Ahead state (nptr :: rest) →
      next state nptr = rest.head?)
    (shrinks : ∀ state nptr rest, Ahead state (nptr :: rest) → Ahead (body state nptr) rest)
    {fuel : Nat} {state : State} {rest : List Node} (ahead : Ahead state rest)
    (enough : rest.length ≤ fuel) :
    Ahead (foreachSafe next body fuel state rest.head?) [] := by
  induction rest generalizing fuel state with
  | nil => cases fuel <;> exact ahead
  | cons nptr rest ih =>
      cases fuel with
      | zero => simp at enough
      | succ fuel =>
          rw [List.head?_cons, foreachSafe, successor state nptr rest ahead]
          apply ih (shrinks state nptr rest ahead)
          simpa using enough

/-- A list block depends on the references of its own nodes only. -/
theorem Represents.congr {links links' : Links Node} {lptr : Dlist Node}
    {nodes : List Node} (list : Represents links lptr nodes)
    (same : ∀ node ∈ nodes, links'.next node = links.next node ∧
      links'.prev node = links.prev node) : Represents links' lptr nodes := by
  refine ⟨list.nodup, list.head, list.tail, list.size, ?_, ?_⟩
  · intro before node behind split
    rw [(same node (by simp [split])).2]
    exact list.prev before node behind split
  · intro before node behind split
    rw [(same node (by simp [split])).1]
    exact list.next before node behind split

end Walk

/-! ## What an operation leaves alone -/

section Frame

variable {links : Links Node} {lptr : Dlist Node} {nodes : List Node} {nptr node : Node}

theorem updateAt_of_ne {f : Node → Option Node} {at_ value : Option Node}
    (other : at_ ≠ some node) : updateAt f at_ value node = f node := by
  cases at_ with
  | none => rfl
  | some nptr =>
      refine Function.update_of_ne ?_ _ _
      rintro rfl
      exact other rfl

theorem addTail_frame (list : Represents links lptr nodes) (outside : node ∉ nodes)
    (other : node ≠ nptr) :
    (addTail links lptr nptr).1.next node = links.next node ∧
      (addTail links lptr nptr).1.prev node = links.prev node := by
  rw [addTail]
  cases last : lptr.tail with
  | none => simp [other]
  | some tail =>
      have apart : node ≠ tail := by
        rintro rfl
        rw [list.tail] at last
        exact outside (List.mem_of_getLast? last)
      simp [other, apart]

theorem delete_frame {before behind : List Node}
    (list : Represents links lptr (before ++ nptr :: behind))
    (outside : node ∉ before ++ nptr :: behind) :
    (delete links lptr nptr).1.next node = links.next node ∧
      (delete links lptr nptr).1.prev node = links.prev node := by
  rw [List.mem_append, List.mem_cons, not_or, not_or] at outside
  obtain ⟨notBefore, other, notBehind⟩ := outside
  have notPrev : links.prev nptr ≠ some node := by
    rw [list.prev before nptr behind rfl]
    exact fun last => notBefore (List.mem_of_getLast? last)
  have notNext : links.next nptr ≠ some node := by
    rw [list.next before nptr behind rfl]
    exact fun first => notBehind (List.mem_of_head? first)
  rw [delete]
  split_ifs <;> simp [other, updateAt_of_ne notPrev, updateAt_of_ne notNext]

end Frame

/-! ## Families -/

variable {Index : Type*} [DecidableEq Index]

/-- List blocks over one store of nodes. -/
structure Lists (Index Node : Type*) where
  links : Links Node
  list : Index → Dlist Node

namespace Lists

/-- All lists are empty. -/
def empty : Lists Index Node :=
  ⟨⟨fun _ => none, fun _ => none⟩, fun _ => zero⟩

/-- `dlink_add_tail` on one of the lists. -/
def addTail (lists : Lists Index Node) (i : Index) (nptr : Node) : Lists Index Node :=
  let linked := Dlink.addTail lists.links (lists.list i) nptr
  ⟨linked.1, Function.update lists.list i linked.2⟩

/-- `dlink_delete` on one of the lists. -/
def delete (lists : Lists Index Node) (i : Index) (nptr : Node) : Lists Index Node :=
  let unlinked := Dlink.delete lists.links (lists.list i) nptr
  ⟨unlinked.1, Function.update lists.list i unlinked.2⟩

/-- `dlink_list_zero` on one of the lists. -/
def listZero (lists : Lists Index Node) (i : Index) : Lists Index Node :=
  { lists with list := Function.update lists.list i zero }

/-- The nodes of one of the lists. -/
def nodes (lists : Lists Index Node) (i : Index) : List Node :=
  Dlink.nodes lists.links (lists.list i)

/-- The family holds these nodes. -/
structure Holds (lists : Lists Index Node) (contents : Index → List Node) : Prop where
  list : ∀ i, Represents lists.links (lists.list i) (contents i)
  apart : ∀ i j node, node ∈ contents i → node ∈ contents j → i = j

variable {lists : Lists Index Node} {contents : Index → List Node} {i : Index} {nptr : Node}

omit [DecidableEq Node] [DecidableEq Index] in
theorem holds_empty : (empty : Lists Index Node).Holds fun _ => [] :=
  ⟨fun _ => represents_zero _, by simp⟩

omit [DecidableEq Node] [DecidableEq Index] in
theorem Holds.nodes_eq (holds : lists.Holds contents) : lists.nodes i = contents i :=
  (holds.list i).nodes_eq

theorem Holds.addTail (holds : lists.Holds contents) (fresh : ∀ j, nptr ∉ contents j) :
    (lists.addTail i nptr).Holds (Function.update contents i (contents i ++ [nptr])) := by
  refine ⟨?_, ?_⟩
  · intro j
    by_cases same : j = i
    · subst same
      simp only [Lists.addTail, Function.update_self]
      exact (holds.list j).addTail (fresh j)
    · simp only [Lists.addTail, Function.update_of_ne same]
      apply (holds.list j).congr
      intro node member
      apply addTail_frame (holds.list i)
      · exact fun inside => same (holds.apart j i node member inside)
      · rintro rfl
        exact fresh j member
  · have member : ∀ j node, node ∈ Function.update contents i (contents i ++ [nptr]) j →
        node ∈ contents j ∨ j = i ∧ node = nptr := by
      intro j node inside
      by_cases same : j = i
      · subst same
        simpa using inside
      · rw [Function.update_of_ne same] at inside
        exact Or.inl inside
    intro j k node first second
    rcases member j node first with old | ⟨rfl, rfl⟩ <;>
      rcases member k node second with old' | ⟨rfl, isNew⟩
    · exact holds.apart j k node old old'
    · exact absurd old (isNew ▸ fresh j)
    · exact absurd old' (fresh k)
    · rfl

theorem Holds.delete (holds : lists.Holds contents) (member : nptr ∈ contents i) :
    (lists.delete i nptr).Holds (Function.update contents i ((contents i).erase nptr)) := by
  have nodup := (holds.list i).nodup
  obtain ⟨before, behind, split⟩ := List.append_of_mem member
  have notBefore : nptr ∉ before := by
    rw [split, List.nodup_middle, List.nodup_cons] at nodup
    exact fun inside => nodup.1 (List.mem_append_left _ inside)
  have erased : (contents i).erase nptr = before ++ behind := by
    rw [split, List.erase_append_right _ notBefore, List.erase_cons_head]
  have listed := holds.list i
  rw [split] at listed
  refine ⟨?_, ?_⟩
  · intro j
    by_cases same : j = i
    · subst same
      simp only [Lists.delete, Function.update_self, erased]
      exact listed.delete
    · simp only [Lists.delete, Function.update_of_ne same]
      apply (holds.list j).congr
      intro node inside
      apply delete_frame listed
      rw [← split]
      exact fun inside' => same (holds.apart j i node inside inside')
  · have smaller : ∀ j node,
        node ∈ Function.update contents i ((contents i).erase nptr) j → node ∈ contents j := by
      intro j node inside
      by_cases same : j = i
      · subst same
        rw [Function.update_self] at inside
        exact List.mem_of_mem_erase inside
      · rwa [Function.update_of_ne same] at inside
    intro j k node first second
    exact holds.apart j k node (smaller j node first) (smaller k node second)

omit [DecidableEq Node] in
/-- An empty list is zero already. -/
theorem Holds.listZero (holds : lists.Holds contents) (nothing : contents i = []) :
    lists.listZero i = lists := by
  have block := holds.list i
  rw [nothing] at block
  have isZero : lists.list i = zero := by
    cases found : lists.list i with
    | mk head tail size =>
        rw [found] at block
        have noHead : head = none := block.head
        have noTail : tail = none := block.tail
        have noSize : size = 0 := block.size
        rw [noHead, noTail, noSize]
        rfl
  rw [Lists.listZero, ← isZero, Function.update_eq_self]

/-! ### Families that index the nodes -/

/-- The nodes of each list are those that belong there. -/
def Indexes (lists : Lists Index Node) (belongs : Index → Node → Prop) : Prop :=
  ∃ contents, lists.Holds contents ∧ ∀ i node, node ∈ contents i ↔ belongs i node

section Indexes

variable {belongs belongs' : Index → Node → Prop}

omit [DecidableEq Node] [DecidableEq Index] in
theorem indexes_empty : (empty : Lists Index Node).Indexes fun _ _ => False :=
  ⟨_, holds_empty, by simp⟩

omit [DecidableEq Node] [DecidableEq Index] in
theorem Indexes.mem_nodes (indexes : lists.Indexes belongs) {node : Node} :
    node ∈ lists.nodes i ↔ belongs i node := by
  obtain ⟨contents, holds, iff⟩ := indexes
  rw [holds.nodes_eq, iff]

omit [DecidableEq Node] [DecidableEq Index] in
theorem Indexes.nodup (indexes : lists.Indexes belongs) (i : Index) :
    (lists.nodes i).Nodup := by
  obtain ⟨contents, holds, -⟩ := indexes
  rw [holds.nodes_eq]
  exact (holds.list i).nodup

omit [DecidableEq Node] [DecidableEq Index] in
theorem Indexes.size (indexes : lists.Indexes belongs) (i : Index) :
    (lists.list i).size = (lists.nodes i).length := by
  obtain ⟨contents, holds, -⟩ := indexes
  rw [holds.nodes_eq]
  exact (holds.list i).size

omit [DecidableEq Node] [DecidableEq Index] in
theorem Indexes.head (indexes : lists.Indexes belongs) (i : Index) :
    (lists.list i).head = (lists.nodes i).head? := by
  obtain ⟨contents, holds, -⟩ := indexes
  rw [holds.nodes_eq]
  exact (holds.list i).head

omit [DecidableEq Node] [DecidableEq Index] in
theorem Indexes.next (indexes : lists.Indexes belongs) {before rest : List Node}
    (split : lists.nodes i = before ++ nptr :: rest) : lists.links.next nptr = rest.head? := by
  obtain ⟨contents, holds, -⟩ := indexes
  rw [holds.nodes_eq] at split
  exact (holds.list i).next before nptr rest split

omit [DecidableEq Node] [DecidableEq Index] in
theorem Indexes.congr (indexes : lists.Indexes belongs)
    (same : ∀ i node, belongs' i node ↔ belongs i node) : lists.Indexes belongs' := by
  obtain ⟨contents, holds, iff⟩ := indexes
  exact ⟨contents, holds, fun i node => (iff i node).trans (same i node).symm⟩

theorem Indexes.addTail (indexes : lists.Indexes belongs) (fresh : ∀ j, ¬ belongs j nptr)
    (joins : ∀ j node, belongs' j node ↔ belongs j node ∨ j = i ∧ node = nptr) :
    (lists.addTail i nptr).Indexes belongs' := by
  obtain ⟨contents, holds, iff⟩ := indexes
  refine ⟨_, holds.addTail fun j inside => fresh j ((iff j nptr).mp inside), ?_⟩
  intro j node
  rw [joins, ← iff]
  by_cases same : j = i
  · subst same
    simp
  · simp [same]

theorem Indexes.delete (indexes : lists.Indexes belongs) (member : belongs i nptr)
    (leaves : ∀ j node, belongs' j node ↔ belongs j node ∧ node ≠ nptr) :
    (lists.delete i nptr).Indexes belongs' := by
  obtain ⟨contents, holds, iff⟩ := indexes
  have inside := (iff i nptr).mpr member
  refine ⟨_, holds.delete inside, ?_⟩
  intro j node
  rw [leaves, ← iff]
  by_cases same : j = i
  · subst same
    rw [Function.update_self, (holds.list j).nodup.mem_erase_iff]
    exact and_comm
  · rw [Function.update_of_ne same]
    refine ⟨fun there => ⟨there, ?_⟩, And.left⟩
    rintro rfl
    exact same (holds.apart j i node there inside)

theorem Indexes.nodes_delete (indexes : lists.Indexes belongs) (member : belongs i nptr) :
    (lists.delete i nptr).nodes i = (lists.nodes i).erase nptr := by
  obtain ⟨contents, holds, iff⟩ := indexes
  rw [(holds.delete ((iff i nptr).mpr member)).nodes_eq, holds.nodes_eq,
    Function.update_self]

omit [DecidableEq Node] in
theorem Indexes.listZero (indexes : lists.Indexes belongs)
    (nothing : ∀ node, ¬ belongs i node) : lists.listZero i = lists := by
  obtain ⟨contents, holds, iff⟩ := indexes
  apply holds.listZero
  rw [List.eq_nil_iff_forall_not_mem]
  exact fun node inside => nothing node ((iff i node).mp inside)

end Indexes

end Lists

end Dlink

end Chaosircd
