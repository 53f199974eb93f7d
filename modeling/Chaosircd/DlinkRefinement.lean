import Chaosircd.DlinkOps
import Chaosircd.TransitionSystem
import Mathlib.Data.List.Induction
import Mathlib.Logic.Equiv.Basic

/-!
# Linked lists and the sequences they stand for

The operations of the list library on a whole store of lists, beside the same
operations on plain sequences of nodes.  What a walk over a list meets, forward or
backward, and what its size says are compared with the sequence after every step of
a run.  `dlink_copy` does not count the nodes it makes, and the two operations that
move a list empty the list they have just filled when both arguments are the same.
-/

namespace Chaosircd

namespace Dlink

variable {Index Node Data : Type*} [DecidableEq Index] [DecidableEq Node]

/-! ## The store -/

/-- The lists and what their nodes carry. -/
structure Store (Index Node Data : Type*) where
  lists : Lists Index Node
  data : Node → Data

/-- The operations, with the arguments of the functions.  The nodes that `dlink_copy`
gets from the heap and the number of turns for the loop of `dlink_find_delete` come
with the operation. -/
inductive Op (Index Node Data : Type*) where
  | addHead (lptr : Index) (nptr : Node) (ptr : Data)
  | addTail (lptr : Index) (nptr : Node) (ptr : Data)
  | addBefore (lptr : Index) (nptr before : Node) (ptr : Data)
  | addAfter (lptr : Index) (nptr after : Node) (ptr : Data)
  | delete (lptr : Index) (nptr : Node)
  | findDelete (lptr : Index) (ptr : Data) (turns : Nat)
  | destroy (lptr : Index)
  | swap (lptr : Index) (nptr1 nptr2 : Node)
  | moveHead (source target : Index)
  | moveTail (source target : Index)
  | copy (source target : Index) (news : List Node)

namespace Store

/-- All lists are empty. -/
def empty (data : Node → Data) : Store Index Node Data :=
  ⟨Lists.empty, data⟩

/-- The list block and the references are those that an operation left. -/
def write (store : Store Index Node Data) (i : Index) (written : Links Node × Dlist Node) :
    Store Index Node Data :=
  { store with lists := ⟨written.1, Function.update store.lists.list i written.2⟩ }

omit [DecidableEq Node] in
theorem write_list (store : Store Index Node Data) (i : Index)
    (written : Links Node × Dlist Node) : (store.write i written).lists.list i = written.2 := by
  simp [write]

/-- `nptr->data = ptr`. -/
def setData (store : Store Index Node Data) (nptr : Node) (ptr : Data) :
    Store Index Node Data :=
  { store with data := Function.update store.data nptr ptr }

/-- `dlink_find`. -/
def find [DecidableEq Data] (store : Store Index Node Data) (ptr : Data) : Nat → Option Node → Option Node
  | 0, _ => none
  | _, none => none
  | turns + 1, some nptr =>
    if store.data nptr = ptr then some nptr
    else find store ptr turns (store.lists.links.next nptr)

/-- `dlink_find_delete`. -/
def findDelete [DecidableEq Data] (store : Store Index Node Data) (i : Index) (ptr : Data) (turns : Nat) :
    Store Index Node Data :=
  match store.find ptr turns (store.lists.list i).head with
  | some nptr => store.write i (unlink store.lists.links (store.lists.list i) nptr)
  | none => store

/-- `dlink_destroy`.  The nodes go back to the heap with their references unwritten. -/
def destroy (store : Store Index Node Data) (i : Index) : Store Index Node Data :=
  { store with lists := store.lists.listZero i }

/-- `dlink_move_head`. -/
def moveHead (store : Store Index Node Data) (source target : Index) :
    Store Index Node Data :=
  let list := store.lists.list
  let links := store.lists.links
  let (links, list) :=
    match (list target).head, (list source).tail with
    | none, _ => (links, Function.update list target (list source))
    | some first, some last =>
      (⟨Function.update links.next last (some first),
          Function.update links.prev first (some last)⟩,
        Function.update list target ⟨(list source).head, (list target).tail,
          (list target).size + (list source).size⟩)
    | some _, none => (links, list)
  { store with lists := ⟨links, Function.update list source zero⟩ }

/-- `dlink_move_tail`. -/
def moveTail (store : Store Index Node Data) (source target : Index) :
    Store Index Node Data :=
  let list := store.lists.list
  let links := store.lists.links
  let (links, list) :=
    match (list target).tail, (list source).head with
    | none, _ => (links, Function.update list target (list source))
    | some last, some first =>
      (⟨Function.update links.next last (some first),
          Function.update links.prev first (some last)⟩,
        Function.update list target ⟨(list target).head, (list source).tail,
          (list target).size + (list source).size⟩)
    | some _, none => (links, list)
  { store with lists := ⟨links, Function.update list source zero⟩ }

/-- The loop of `dlink_copy`. -/
def copyLoop (source target : Index) :
    List Node → Option Node → Option Node → Store Index Node Data → Store Index Node Data
  | [], _, _, store => store
  | _, none, _, store => store
  | tnptr :: news, some fnptr, prev, store =>
    let block := store.lists.list source
    let copied := store.lists.list target
    let copied := if some fnptr = block.head then { copied with head := some tnptr } else copied
    let copied := if some fnptr = block.tail then { copied with tail := some tnptr } else copied
    let links : Links Node :=
      ⟨updateAt (Function.update store.lists.links.next tnptr none) prev (some tnptr),
        Function.update store.lists.links.prev tnptr prev⟩
    copyLoop source target news (links.next fnptr) (some tnptr)
      ((store.setData tnptr (store.data fnptr)).write target (links, copied))

/-- `dlink_copy`. -/
def copy (store : Store Index Node Data) (source target : Index) (news : List Node) :
    Store Index Node Data :=
  let cleared := { store with lists := store.lists.listZero target }
  copyLoop source target news (cleared.lists.list source).head none cleared

/-- `dlink_index`. -/
def index (store : Store Index Node Data) (i : Index) (k : Nat) : Option Node :=
  if (store.lists.list i).size ≤ k then none
  else go k (store.lists.list i).head
where
  go : Nat → Option Node → Option Node
    | _, none => none
    | 0, some nptr => some nptr
    | k + 1, some nptr => go k (store.lists.links.next nptr)

/-- What an operation does to the store. -/
def exec [DecidableEq Data] (store : Store Index Node Data) : Op Index Node Data → Store Index Node Data
  | .addHead i nptr ptr =>
    (store.setData nptr ptr).write i (addHead store.lists.links (store.lists.list i) nptr)
  | .addTail i nptr ptr =>
    (store.setData nptr ptr).write i (addTail store.lists.links (store.lists.list i) nptr)
  | .addBefore i nptr before ptr =>
    (store.setData nptr ptr).write i
      (addBefore store.lists.links (store.lists.list i) nptr before)
  | .addAfter i nptr after ptr =>
    (store.setData nptr ptr).write i
      (addAfter store.lists.links (store.lists.list i) nptr after)
  | .delete i nptr => store.write i (delete store.lists.links (store.lists.list i) nptr)
  | .findDelete i ptr turns => store.findDelete i ptr turns
  | .destroy i => store.destroy i
  | .swap i nptr1 nptr2 =>
    store.write i (swap store.lists.links (store.lists.list i) nptr1 nptr2)
  | .moveHead source target => store.moveHead source target
  | .moveTail source target => store.moveTail source target
  | .copy source target news => store.copy source target news

end Store

/-! ## The sequences -/

/-- The abstract store: each list is a sequence of nodes. -/
structure Sequences (Index Node Data : Type*) where
  nodes : Index → List Node
  data : Node → Data

namespace Sequences

/-- All sequences are empty. -/
def empty (data : Node → Data) : Sequences Index Node Data :=
  ⟨fun _ => [], data⟩

/-- A node in front of another. -/
def insertBefore (nptr before : Node) : List Node → List Node
  | [] => []
  | node :: nodes =>
    if node = before then nptr :: node :: nodes else node :: insertBefore nptr before nodes

/-- A node behind another. -/
def insertAfter (nptr after : Node) : List Node → List Node
  | [] => []
  | node :: nodes =>
    if node = after then node :: nptr :: nodes else node :: insertAfter nptr after nodes

/-- One list has other nodes now. -/
def set (sequences : Sequences Index Node Data) (i : Index) (nodes : List Node) :
    Sequences Index Node Data :=
  { sequences with nodes := Function.update sequences.nodes i nodes }

omit [DecidableEq Node] in
theorem set_nodes (sequences : Sequences Index Node Data) (i : Index) (nodes : List Node) :
    (sequences.set i nodes).nodes = Function.update sequences.nodes i nodes :=
  rfl

omit [DecidableEq Node] in
theorem set_set (sequences : Sequences Index Node Data) (i : Index) (nodes nodes' : List Node) :
    (sequences.set i nodes).set i nodes' = sequences.set i nodes' := by
  simp [set]

omit [DecidableEq Node] in
theorem set_self (sequences : Sequences Index Node Data) (i : Index) :
    sequences.set i (sequences.nodes i) = sequences := by
  simp [set]

/-- A node carries something else now. -/
def setData (sequences : Sequences Index Node Data) (nptr : Node) (ptr : Data) :
    Sequences Index Node Data :=
  { sequences with data := Function.update sequences.data nptr ptr }

/-- Each of the new nodes carries what its original carries. -/
def copyData (data : Node → Data) (news originals : List Node) : Node → Data :=
  (news.zip originals).foldl (fun data pair => Function.update data pair.1 (data pair.2)) data

/-- What an operation is for. -/
def apply [DecidableEq Data] (sequences : Sequences Index Node Data) :
    Op Index Node Data → Sequences Index Node Data
  | .addHead i nptr ptr => (sequences.setData nptr ptr).set i (nptr :: sequences.nodes i)
  | .addTail i nptr ptr => (sequences.setData nptr ptr).set i (sequences.nodes i ++ [nptr])
  | .addBefore i nptr before ptr =>
    (sequences.setData nptr ptr).set i (insertBefore nptr before (sequences.nodes i))
  | .addAfter i nptr after ptr =>
    (sequences.setData nptr ptr).set i (insertAfter nptr after (sequences.nodes i))
  | .delete i nptr => sequences.set i ((sequences.nodes i).erase nptr)
  | .findDelete i ptr _ =>
    sequences.set i ((sequences.nodes i).eraseP fun node => sequences.data node = ptr)
  | .destroy i => sequences.set i []
  | .swap i nptr1 nptr2 => sequences.set i ((sequences.nodes i).map (Equiv.swap nptr1 nptr2))
  | .moveHead source target =>
    -- the source is emptied before the target is filled
    let emptied := sequences.set source []
    emptied.set target (sequences.nodes source ++ emptied.nodes target)
  | .moveTail source target =>
    let emptied := sequences.set source []
    emptied.set target (emptied.nodes target ++ sequences.nodes source)
  | .copy source target news =>
    ⟨Function.update sequences.nodes target news,
      copyData sequences.data news (sequences.nodes source)⟩

/-- A node that is on no list. -/
def Unlinked (sequences : Sequences Index Node Data) (nptr : Node) : Prop :=
  ∀ i, nptr ∉ sequences.nodes i

/-- What the callers of an operation see to: a node that is added is on no list, and one
that is named is on the list. -/
def Legal (sequences : Sequences Index Node Data) : Op Index Node Data → Prop
  | .addHead _ nptr _ => sequences.Unlinked nptr
  | .addTail _ nptr _ => sequences.Unlinked nptr
  | .addBefore i nptr before _ => sequences.Unlinked nptr ∧ before ∈ sequences.nodes i
  | .addAfter i nptr after _ => sequences.Unlinked nptr ∧ after ∈ sequences.nodes i
  | .delete i nptr => nptr ∈ sequences.nodes i
  | .findDelete i _ turns => (sequences.nodes i).length ≤ turns
  | .destroy _ => True
  | .swap i nptr1 nptr2 => nptr1 ∈ sequences.nodes i ∧ nptr2 ∈ sequences.nodes i
  | .moveHead _ _ => True
  | .moveTail _ _ => True
  | .copy source _ news =>
    news.Nodup ∧ (∀ nptr ∈ news, sequences.Unlinked nptr) ∧
      news.length = (sequences.nodes source).length

/-- Nothing is copied, and no list is moved onto itself, unless it is empty. -/
def Counted (sequences : Sequences Index Node Data) : Op Index Node Data → Prop
  | .moveHead source target => source = target → sequences.nodes source = []
  | .moveTail source target => source = target → sequences.nodes source = []
  | .copy source _ _ => sequences.nodes source = []
  | _ => True

end Sequences

/-! ## Traversals -/

/-- Following the references from here meets these nodes and ends. -/
def Traverses (next : Node → Option Node) : Option Node → List Node → Prop
  | start, [] => start = none
  | start, nptr :: nodes => start = some nptr ∧ Traverses next (next nptr) nodes

/-- The lists are what the sequences say. -/
structure Refines (store : Store Index Node Data) (sequences : Sequences Index Node Data) :
    Prop where
  forward : ∀ i, Traverses store.lists.links.next (store.lists.list i).head (sequences.nodes i)
  backward : ∀ i, Traverses store.lists.links.prev (store.lists.list i).tail
    (sequences.nodes i).reverse
  size : ∀ i, (store.lists.list i).size = (sequences.nodes i).length
  index : ∀ i k, store.index i k = (sequences.nodes i)[k]?
  data : ∀ i, ∀ nptr ∈ sequences.nodes i, store.data nptr = sequences.data nptr

/-- The number of nodes on the list is zero when one is taken off. -/
def Underflows [DecidableEq Data] (store : Store Index Node Data) : Op Index Node Data → Prop
  | .delete i _ => (store.lists.list i).size = 0
  | .findDelete i ptr turns =>
    (store.find ptr turns (store.lists.list i).head).isSome ∧ (store.lists.list i).size = 0
  | _ => False

/-- At a point of a run, with what is still to come: the lists are what the sequences say,
and the next operation counts down from a size that is not zero. -/
def SoundAt [DecidableEq Data] (store : Store Index Node Data)
    (sequences : Sequences Index Node Data) (rest : List (Op Index Node Data)) : Prop :=
  Refines store sequences ∧ ∀ op, rest.head? = some op → ¬ Underflows store op

section

variable {links : Links Node} {lptr : Dlist Node} {nodes : List Node}

omit [DecidableEq Node] in
theorem Represents.traverses (list : Represents links lptr nodes) :
    Traverses links.next lptr.head nodes := by
  obtain ⟨-, isBlock, segment⟩ := represents_iff.mp list
  rw [isBlock]
  have walk : ∀ before, Segment links before nodes none →
      Traverses links.next nodes.head? nodes := by
    clear isBlock list segment
    induction nodes with
    | nil => exact fun _ _ => rfl
    | cons nptr nodes induction =>
        rintro before ⟨-, follows, segment⟩
        refine ⟨rfl, ?_⟩
        rw [follows, Option.or_none]
        exact induction _ segment
  exact walk none segment

omit [DecidableEq Node] in
theorem Represents.traverses_back (list : Represents links lptr nodes) :
    Traverses links.prev lptr.tail nodes.reverse := by
  obtain ⟨-, isBlock, segment⟩ := represents_iff.mp list
  rw [isBlock]
  have walk : ∀ behind, Segment links none nodes behind →
      Traverses links.prev nodes.getLast? nodes.reverse := by
    clear isBlock list segment
    induction nodes using List.reverseRecOn with
    | nil => exact fun _ _ => rfl
    | append_singleton nodes nptr induction =>
        intro behind segment
        rw [segment_append] at segment
        rw [List.getLast?_concat, List.reverse_append]
        refine ⟨rfl, ?_⟩
        rw [segment.2.1, Option.or_none]
        exact induction _ segment.1
  exact walk none segment

end

section

variable {store : Store Index Node Data} {nodes : List Node} {start : Option Node}

omit [DecidableEq Index] [DecidableEq Node] in
theorem Store.find_eq [DecidableEq Data] {ptr : Data} {turns : Nat}
    (walk : Traverses store.lists.links.next start nodes) (enough : nodes.length ≤ turns) :
    store.find ptr turns start = nodes.find? fun node => store.data node = ptr := by
  induction nodes generalizing start turns with
  | nil =>
      obtain rfl : start = none := walk
      cases turns <;> rfl
  | cons nptr nodes induction =>
      obtain ⟨rfl, walk⟩ := walk
      cases turns with
      | zero => simp at enough
      | succ turns =>
          rw [Store.find, induction walk (by simpa using enough), List.find?_cons]
          by_cases isPtr : store.data nptr = ptr
          · simp [isPtr]
          · simp [isPtr]

omit [DecidableEq Index] [DecidableEq Node] in
theorem Store.index_go (walk : Traverses store.lists.links.next start nodes) (k : Nat) :
    Store.index.go store k start = nodes[k]? := by
  induction nodes generalizing start k with
  | nil =>
      obtain rfl : start = none := walk
      simp [Store.index.go]
  | cons nptr nodes induction =>
      obtain ⟨rfl, walk⟩ := walk
      cases k with
      | zero => simp [Store.index.go]
      | succ k =>
          rw [Store.index.go, induction walk k]
          simp

end

/-! ## What is kept -/

section

variable {lists : Lists Index Node} {contents : Index → List Node} {i : Index}

omit [DecidableEq Node] in
/-- One list of a family is rewritten, and only references of its nodes and of nodes on no
list are touched. -/
theorem Lists.Holds.write {written : Links Node × Dlist Node} {nodes touched : List Node}
    (holds : lists.Holds contents) (list : Represents written.1 written.2 nodes)
    (only : WritesOnly lists.links written.1 touched) (inside : ∀ node ∈ nodes, node ∈ touched)
    (own : ∀ node ∈ touched, ∀ j, node ∈ contents j → j = i) :
    (⟨written.1, Function.update lists.list i written.2⟩ : Lists Index Node).Holds
      (Function.update contents i nodes) := by
  refine ⟨?_, ?_⟩
  · intro j
    by_cases same : j = i
    · subst same
      simpa only [Function.update_self] using list
    · simp only [Function.update_of_ne same]
      apply (holds.list j).congr
      intro node member
      exact only node fun there => same (own node there j member)
  · intro j k node first second
    by_cases isFirst : j = i
    · subst isFirst
      by_cases isSecond : k = j
      · exact isSecond.symm
      · rw [Function.update_self] at first
        rw [Function.update_of_ne isSecond] at second
        exact (own node (inside node first) k second).symm
    · rw [Function.update_of_ne isFirst] at first
      by_cases isSecond : k = i
      · subst isSecond
        rw [Function.update_self] at second
        exact own node (inside node second) j first
      · rw [Function.update_of_ne isSecond] at second
        exact holds.apart j k node first second

omit [DecidableEq Node] in
/-- One list of a family is given up. -/
theorem Lists.Holds.release (holds : lists.Holds contents) :
    (⟨lists.links, Function.update lists.list i zero⟩ : Lists Index Node).Holds
      (Function.update contents i []) := by
  have fewer : ∀ j node, node ∈ Function.update contents i [] j → node ∈ contents j := by
    intro j node member
    by_cases same : j = i
    · subst same
      simp at member
    · rwa [Function.update_of_ne same] at member
  refine ⟨?_, ?_⟩
  · intro j
    by_cases same : j = i
    · subst same
      simp only [Function.update_self]
      exact represents_zero _
    · simp only [Function.update_of_ne same]
      exact holds.list j
  · intro j k node first second
    exact holds.apart j k node (fewer j node first) (fewer k node second)

end

/-- The lists hold the sequences, and the nodes carry the same. -/
structure Inv (store : Store Index Node Data) (sequences : Sequences Index Node Data) :
    Prop where
  holds : store.lists.Holds sequences.nodes
  data : store.data = sequences.data

section

variable {store : Store Index Node Data} {sequences : Sequences Index Node Data} {i : Index}
  {nptr other : Node} {ptr : Data}

omit [DecidableEq Index] [DecidableEq Node] in
theorem Inv.empty (data : Node → Data) :
    Inv (Store.empty data : Store Index Node Data) (Sequences.empty data) :=
  ⟨Lists.holds_empty, rfl⟩

omit [DecidableEq Index] [DecidableEq Node] in
theorem Inv.refines (inv : Inv store sequences) : Refines store sequences := by
  refine ⟨fun i => (inv.holds.list i).traverses, fun i => (inv.holds.list i).traverses_back,
    fun i => (inv.holds.list i).size, ?_, fun _ nptr _ => congrFun inv.data nptr⟩
  intro i k
  rw [Store.index, (inv.holds.list i).size]
  by_cases short : (sequences.nodes i).length ≤ k
  · rw [if_pos short, List.getElem?_eq_none short]
  · rw [if_neg short]
    exact Store.index_go (inv.holds.list i).traverses k

omit [DecidableEq Node] in
/-- An operation that writes one list, and a node's data along with it. -/
theorem Inv.write {written : Links Node × Dlist Node} {nodes touched : List Node}
    {data data' : Node → Data} (inv : Inv store sequences) (same : data = data')
    (list : Represents written.1 written.2 nodes)
    (only : WritesOnly store.lists.links written.1 touched)
    (inside : ∀ node ∈ nodes, node ∈ touched)
    (own : ∀ node ∈ touched, ∀ j, node ∈ sequences.nodes j → j = i) :
    Inv (Store.write { store with data := data } i written)
      (Sequences.set { sequences with data := data' } i nodes) :=
  ⟨inv.holds.write list only inside own, same⟩

omit [DecidableEq Index] [DecidableEq Node] in
/-- The nodes of a list, and one that is on no list. -/
theorem Inv.own_insert {touched : List Node} (inv : Inv store sequences)
    (fresh : sequences.Unlinked nptr)
    (isOld : ∀ node ∈ touched, node = nptr ∨ node ∈ sequences.nodes i) :
    ∀ node ∈ touched, ∀ j, node ∈ sequences.nodes j → j = i := by
  intro node member j there
  cases isOld node member with
  | inl isNew => exact absurd (isNew ▸ there) (fresh j)
  | inr old => exact inv.holds.apart j i node there old

omit [DecidableEq Index] in
theorem Inv.setData (inv : Inv store sequences) (nptr : Node) (ptr : Data) :
    Function.update store.data nptr ptr = Function.update sequences.data nptr ptr := by
  rw [inv.data]

theorem Inv.addHead (inv : Inv store sequences) (fresh : sequences.Unlinked nptr) :
    Inv ((store.setData nptr ptr).write i
        (Dlink.addHead store.lists.links (store.lists.list i) nptr))
      ((sequences.setData nptr ptr).set i (nptr :: sequences.nodes i)) := by
  have list := inv.holds.list i
  refine inv.write (inv.setData nptr ptr) (list.addHead (fresh i)) (addHead_writesOnly list)
    (fun _ => id) (inv.own_insert fresh ?_)
  intro node member
  exact List.mem_cons.mp member

theorem Inv.addTail (inv : Inv store sequences) (fresh : sequences.Unlinked nptr) :
    Inv ((store.setData nptr ptr).write i
        (Dlink.addTail store.lists.links (store.lists.list i) nptr))
      ((sequences.setData nptr ptr).set i (sequences.nodes i ++ [nptr])) := by
  have list := inv.holds.list i
  refine inv.write (inv.setData nptr ptr) (list.addTail (fresh i)) (addTail_writesOnly list)
    (fun _ => id) (inv.own_insert fresh ?_)
  intro node member
  rw [List.mem_append, List.mem_singleton] at member
  exact member.symm

omit [DecidableEq Index] [DecidableEq Node] in
/-- A node on a list, with what is before it and behind it. -/
theorem Inv.split (inv : Inv store sequences) (member : nptr ∈ sequences.nodes i) :
    ∃ before behind, sequences.nodes i = before ++ nptr :: behind ∧ nptr ∉ before ∧
      Represents store.lists.links (store.lists.list i) (before ++ nptr :: behind) := by
  obtain ⟨before, behind, split⟩ := List.append_of_mem member
  have list := inv.holds.list i
  rw [split] at list
  have nodup := list.nodup
  rw [List.nodup_middle, List.nodup_cons, List.mem_append, not_or] at nodup
  exact ⟨before, behind, split, nodup.1.1, list⟩

theorem Sequences.insertBefore_append {before behind : List Node} (notBefore : other ∉ before) :
    Sequences.insertBefore nptr other (before ++ other :: behind) =
      before ++ nptr :: other :: behind := by
  induction before with
  | nil => simp [Sequences.insertBefore]
  | cons node before induction =>
      rw [List.mem_cons, not_or] at notBefore
      rw [List.cons_append, Sequences.insertBefore, if_neg (Ne.symm notBefore.1),
        induction notBefore.2]
      rfl

theorem Sequences.insertAfter_append {before behind : List Node} (notBefore : other ∉ before) :
    Sequences.insertAfter nptr other (before ++ other :: behind) =
      before ++ other :: nptr :: behind := by
  induction before with
  | nil => simp [Sequences.insertAfter]
  | cons node before induction =>
      rw [List.mem_cons, not_or] at notBefore
      rw [List.cons_append, Sequences.insertAfter, if_neg (Ne.symm notBefore.1),
        induction notBefore.2]
      rfl

theorem Inv.addBefore (inv : Inv store sequences) (fresh : sequences.Unlinked nptr)
    (member : other ∈ sequences.nodes i) :
    Inv ((store.setData nptr ptr).write i
        (Dlink.addBefore store.lists.links (store.lists.list i) nptr other))
      ((sequences.setData nptr ptr).set i
        (Sequences.insertBefore nptr other (sequences.nodes i))) := by
  obtain ⟨before, behind, split, notBefore, list⟩ := inv.split member
  have isNew := fresh i
  rw [split] at isNew ⊢
  rw [Sequences.insertBefore_append notBefore]
  refine inv.write (inv.setData nptr ptr) (list.addBefore isNew) (addBefore_writesOnly list)
    (fun _ => id) (inv.own_insert fresh ?_)
  intro node member
  rw [split]
  simp only [List.mem_append, List.mem_cons] at member ⊢
  tauto

theorem Inv.addAfter (inv : Inv store sequences) (fresh : sequences.Unlinked nptr)
    (member : other ∈ sequences.nodes i) :
    Inv ((store.setData nptr ptr).write i
        (Dlink.addAfter store.lists.links (store.lists.list i) nptr other))
      ((sequences.setData nptr ptr).set i
        (Sequences.insertAfter nptr other (sequences.nodes i))) := by
  obtain ⟨before, behind, split, notBefore, list⟩ := inv.split member
  have isNew := fresh i
  rw [split] at isNew ⊢
  rw [Sequences.insertAfter_append notBefore]
  refine inv.write (inv.setData nptr ptr) (list.addAfter isNew) (addAfter_writesOnly list)
    (fun _ => id) (inv.own_insert fresh ?_)
  intro node member
  rw [split]
  simp only [List.mem_append, List.mem_cons] at member ⊢
  tauto

theorem Inv.delete (inv : Inv store sequences) (member : nptr ∈ sequences.nodes i) :
    Inv (store.write i (Dlink.delete store.lists.links (store.lists.list i) nptr))
      (sequences.set i ((sequences.nodes i).erase nptr)) :=
  ⟨inv.holds.delete member, inv.data⟩

theorem Inv.findDelete [DecidableEq Data] {turns : Nat} (inv : Inv store sequences)
    (enough : (sequences.nodes i).length ≤ turns) :
    Inv (store.findDelete i ptr turns)
      (sequences.set i ((sequences.nodes i).eraseP fun node => sequences.data node = ptr)) := by
  have list := inv.holds.list i
  rw [Store.findDelete, Store.find_eq list.traverses enough, inv.data]
  cases found : (sequences.nodes i).find? fun node => decide (sequences.data node = ptr) with
  | none =>
      rw [List.find?_eq_none] at found
      rw [List.eraseP_of_forall_not found, Sequences.set, Function.update_eq_self]
      exact inv
  | some nptr =>
      have member := List.mem_of_find?_eq_some found
      obtain ⟨isPtr, before, behind, split, others⟩ := List.find?_eq_some_iff_append.mp found
      have notBefore : nptr ∉ before := by
        intro inside
        have isOther := others nptr inside
        rw [isPtr] at isOther
        exact Bool.noConfusion isOther
      have kept : (nptr :: behind).eraseP (fun node => decide (sequences.data node = ptr)) =
          behind :=
        List.eraseP_cons_of_pos isPtr
      have erased : (sequences.nodes i).eraseP (fun node => decide (sequences.data node = ptr)) =
          (sequences.nodes i).erase nptr := by
        rw [split, List.erase_append_right _ notBefore, List.erase_cons_head,
          List.eraseP_append_right _ (by simpa using others), kept]
      have isDelete : unlink store.lists.links (store.lists.list i) nptr =
          Dlink.delete store.lists.links (store.lists.list i) nptr := by
        rw [split] at list
        exact list.unlink_eq
      rw [erased]
      dsimp only
      rw [isDelete]
      exact inv.delete member

omit [DecidableEq Node] in
theorem Inv.destroy (inv : Inv store sequences) :
    Inv { store with lists := store.lists.listZero i } (sequences.set i []) :=
  ⟨inv.holds.release, inv.data⟩

theorem map_swap_of_notMem {first second : Node} {nodes : List Node} (notFirst : first ∉ nodes)
    (notSecond : second ∉ nodes) : nodes.map (Equiv.swap first second) = nodes := by
  have same : nodes.map (Equiv.swap first second) = nodes.map id := by
    apply List.map_congr_left
    intro node member
    exact Equiv.swap_apply_of_ne_of_ne (fun isFirst => notFirst (isFirst ▸ member))
      (fun isSecond => notSecond (isSecond ▸ member))
  rw [same, List.map_id]

theorem map_swap {before mid behind : List Node} {first second : Node}
    (nodup : (before ++ first :: (mid ++ second :: behind)).Nodup) :
    (before ++ first :: (mid ++ second :: behind)).map (Equiv.swap first second) =
      before ++ second :: (mid ++ first :: behind) := by
  obtain ⟨-, -, notFirst, notSecond, -, -⟩ := nodup_two nodup
  rw [List.map_append, List.map_cons, List.map_append, List.map_cons, Equiv.swap_apply_left,
    Equiv.swap_apply_right, map_swap_of_notMem notFirst.1 notSecond.1,
    map_swap_of_notMem notFirst.2.1 notSecond.2.1, map_swap_of_notMem notFirst.2.2 notSecond.2.2]

/-- Two nodes in the order of the list. -/
theorem Inv.swapped {before mid behind : List Node} {first second : Node}
    (inv : Inv store sequences)
    (split : sequences.nodes i = before ++ first :: (mid ++ second :: behind)) :
    Inv (store.write i (Dlink.swap store.lists.links (store.lists.list i) first second))
      (sequences.set i ((sequences.nodes i).map (Equiv.swap first second))) := by
  have list := inv.holds.list i
  rw [split] at list
  rw [split, map_swap list.nodup]
  have exchanged : ∀ node ∈ before ++ second :: (mid ++ first :: behind),
      node ∈ before ++ first :: (mid ++ second :: behind) := by
    intro node member
    simp only [List.mem_append, List.mem_cons] at member ⊢
    tauto
  refine inv.write inv.data list.swap (swap_writesOnly list) exchanged ?_
  intro node member j there
  rw [← split] at member
  exact inv.holds.apart j i node there member

theorem Inv.swap (inv : Inv store sequences) (member : nptr ∈ sequences.nodes i)
    (member' : other ∈ sequences.nodes i) :
    Inv (store.write i (Dlink.swap store.lists.links (store.lists.list i) nptr other))
      (sequences.set i ((sequences.nodes i).map (Equiv.swap nptr other))) := by
  obtain ⟨before, behind, split, -, list⟩ := inv.split member
  by_cases same : nptr = other
  · subst same
    rw [Dlink.swap, if_pos rfl, Equiv.swap_self, Store.write, Function.update_eq_self,
      Sequences.set]
    simpa using inv
  · rw [split, List.mem_append, List.mem_cons] at member'
    rcases member' with inBefore | isSame | inBehind
    · obtain ⟨first, mid, rfl⟩ := List.append_of_mem inBefore
      have ordered : sequences.nodes i = first ++ other :: (mid ++ nptr :: behind) := by
        rw [split]
        simp
      have back := inv.holds.list i
      rw [ordered] at back
      rw [back.swap_back, Equiv.swap_comm]
      exact inv.swapped ordered
    · exact absurd isSame.symm same
    · obtain ⟨mid, rest, rfl⟩ := List.append_of_mem inBehind
      exact inv.swapped split

/-! ### Moving all nodes -/

section

variable {source target : Index}

omit [DecidableEq Node] in
/-- The nodes of two lists come to be on one of them. -/
theorem Inv.moved {links' : Links Node} {block : Dlist Node} {nodes : List Node}
    (inv : Inv store sequences) (apart : source ≠ target)
    (list : Represents links' block nodes)
    (only : WritesOnly store.lists.links links' nodes)
    (members : ∀ node ∈ nodes, node ∈ sequences.nodes source ∨ node ∈ sequences.nodes target) :
    Inv { store with lists := ⟨links', Function.update
        (Function.update store.lists.list target block) source zero⟩ }
      ((sequences.set source []).set target nodes) := by
  have own : ∀ node ∈ nodes, ∀ j, node ∈ (sequences.set source []).nodes j → j = target := by
    intro node member j there
    have elsewhere : j ≠ source := by
      rintro rfl
      rw [Sequences.set_nodes, Function.update_self] at there
      exact List.not_mem_nil there
    rw [Sequences.set_nodes, Function.update_of_ne elsewhere] at there
    cases members node member with
    | inl inSource => exact absurd (inv.holds.apart j source node there inSource) elsewhere
    | inr inTarget => exact inv.holds.apart j target node there inTarget
  have moved : Inv (Store.write { store with lists := store.lists.listZero source } target
      (links', block)) ((sequences.set source []).set target nodes) :=
    inv.destroy.write inv.data list only (fun _ => id) own
  rw [Store.write, Lists.listZero, Function.update_comm apart] at moved
  exact moved

omit [DecidableEq Index] in
/-- The nodes of two lists, neither of them empty, come to be one list. -/
theorem Inv.joined {i j : Index} {before behind : List Node} {final start : Node}
    (inv : Inv store sequences) (apart : i ≠ j) (front : sequences.nodes i = before ++ [final])
    (back : sequences.nodes j = start :: behind) :
    Represents (Links.mk (Function.update store.lists.links.next final (some start))
          (Function.update store.lists.links.prev start (some final)))
        ⟨(store.lists.list i).head, (store.lists.list j).tail,
          (store.lists.list i).size + (store.lists.list j).size⟩
        (sequences.nodes i ++ sequences.nodes j) ∧
      WritesOnly store.lists.links
        (Links.mk (Function.update store.lists.links.next final (some start))
          (Function.update store.lists.links.prev start (some final)))
        (sequences.nodes i ++ sequences.nodes j) := by
  have listFront := inv.holds.list i
  have listBack := inv.holds.list j
  rw [front] at listFront
  rw [back] at listBack
  have disjoint : ∀ node ∈ before ++ [final], node ∉ start :: behind := by
    rw [← front, ← back]
    exact fun node inFront inBack => apart (inv.holds.apart i j node inFront inBack)
  have whole : sequences.nodes i ++ sequences.nodes j = before ++ final :: start :: behind := by
    rw [front, back]
    simp
  rw [whole]
  constructor
  · apply listFront.join listBack disjoint
    · exact Function.update_apply _ final _
    · exact Function.update_apply _ start _
  · intro node outside
    have notFinal : node ≠ final := by
      rintro rfl
      exact outside (by simp)
    have notStart : node ≠ start := by
      rintro rfl
      exact outside (by simp)
    exact ⟨Function.update_of_ne notFinal _ _, Function.update_of_ne notStart _ _⟩

omit [DecidableEq Node] in
/-- A list is copied onto itself and then given up. -/
theorem Inv.moved_self (inv : Inv store sequences) :
    Inv { store with lists := ⟨store.lists.links, Function.update
        (Function.update store.lists.list source (store.lists.list source)) source zero⟩ }
      ((sequences.set source []).set source []) := by
  rw [Function.update_eq_self, Sequences.set_set]
  exact inv.destroy

theorem Inv.moveHead (inv : Inv store sequences)
    (counted : source = target → sequences.nodes source = []) :
    Inv (store.moveHead source target) ((sequences.set source []).set target
      (sequences.nodes source ++ (sequences.set source []).nodes target)) := by
  have listSource := inv.holds.list source
  have listTarget := inv.holds.list target
  rw [Store.moveHead, Sequences.set_nodes]
  by_cases same : source = target
  · subst same
    rw [listSource.head, counted rfl, Function.update_self]
    exact inv.moved_self
  · rw [Function.update_of_ne (Ne.symm same), listTarget.head, listSource.tail]
    cases targetNodes : sequences.nodes target with
    | nil =>
        rw [List.append_nil]
        exact inv.moved same listSource (fun _ _ => ⟨rfl, rfl⟩) fun _ => Or.inl
    | cons start behind =>
        rw [List.head?_cons]
        cases isLast : (sequences.nodes source).getLast? with
        | none =>
            have kept := Sequences.set_self (sequences.set source []) target
            rw [Sequences.set_nodes, Function.update_of_ne (Ne.symm same), targetNodes] at kept
            rw [List.getLast?_eq_none_iff.mp isLast, List.nil_append, kept]
            exact inv.destroy
        | some final =>
            have front := (List.dropLast_append_getLast? final isLast).symm
            obtain ⟨list, only⟩ := inv.joined same front targetNodes
            rw [Nat.add_comm] at list
            rw [← targetNodes]
            exact inv.moved same list only fun _ => List.mem_append.mp

theorem Inv.moveTail (inv : Inv store sequences)
    (counted : source = target → sequences.nodes source = []) :
    Inv (store.moveTail source target) ((sequences.set source []).set target
      ((sequences.set source []).nodes target ++ sequences.nodes source)) := by
  have listSource := inv.holds.list source
  have listTarget := inv.holds.list target
  rw [Store.moveTail, Sequences.set_nodes]
  by_cases same : source = target
  · subst same
    rw [listSource.tail, counted rfl, Function.update_self]
    exact inv.moved_self
  · rw [Function.update_of_ne (Ne.symm same), listTarget.tail, listSource.head]
    cases isLast : (sequences.nodes target).getLast? with
    | none =>
        rw [List.getLast?_eq_none_iff.mp isLast, List.nil_append]
        exact inv.moved same listSource (fun _ _ => ⟨rfl, rfl⟩) fun _ => Or.inl
    | some final =>
        have front := (List.dropLast_append_getLast? final isLast).symm
        cases sourceNodes : sequences.nodes source with
        | nil =>
            have kept := Sequences.set_self (sequences.set source []) target
            rw [Sequences.set_nodes, Function.update_of_ne (Ne.symm same)] at kept
            rw [List.append_nil, kept]
            exact inv.destroy
        | cons start behind =>
            obtain ⟨list, only⟩ := inv.joined (Ne.symm same) front sourceNodes
            rw [List.head?_cons, ← sourceNodes]
            refine inv.moved same list only fun node member => ?_
            exact (List.mem_append.mp member).symm

/-- Nothing is copied from an empty list. -/
theorem Inv.copy {news : List Node} (inv : Inv store sequences)
    (length : news.length = 0) :
    Inv (store.copy source target news) ⟨Function.update sequences.nodes target news,
      Sequences.copyData sequences.data news (sequences.nodes source)⟩ := by
  obtain rfl := List.length_eq_zero_iff.mp length
  have cleared : store.copy source target [] =
      { store with lists := store.lists.listZero target } := rfl
  rw [cleared]
  exact inv.destroy

end

/-! ## Runs -/

theorem Store.moveHead_size : ((store.moveHead source target).lists.list source).size = 0 := by
  simp [Store.moveHead, zero]

theorem Store.moveTail_size : ((store.moveTail source target).lists.list source).size = 0 := by
  simp [Store.moveTail, zero]

/-- The loop makes nodes and does not count them. -/
theorem Store.copyLoop_size (news : List Node) (fnptr prev : Option Node)
    (store : Store Index Node Data) :
    ((Store.copyLoop source target news fnptr prev store).lists.list target).size =
      (store.lists.list target).size := by
  induction news generalizing fnptr prev store with
  | nil => cases fnptr <;> rfl
  | cons tnptr news induction =>
      cases fnptr with
      | none => rfl
      | some fnptr =>
          rw [Store.copyLoop, induction, Store.write_list]
          dsimp only
          split_ifs <;> rfl

theorem Store.copy_size {news : List Node} :
    ((store.copy source target news).lists.list target).size = 0 := by
  rw [Store.copy, Store.copyLoop_size]
  simp [Lists.listZero, zero]

variable [DecidableEq Data]

/-- One operation, by its kind. -/
theorem Inv.exec {op : Op Index Node Data} (inv : Inv store sequences)
    (legal : sequences.Legal op) (counted : sequences.Counted op) :
    Inv (store.exec op) (sequences.apply op) := by
  cases op with
  | addHead => exact inv.addHead legal
  | addTail => exact inv.addTail legal
  | addBefore => exact inv.addBefore legal.1 legal.2
  | addAfter => exact inv.addAfter legal.1 legal.2
  | delete => exact inv.delete legal
  | findDelete => exact inv.findDelete legal
  | destroy => exact inv.destroy
  | swap => exact inv.swap legal.1 legal.2
  | moveHead => exact inv.moveHead counted
  | moveTail => exact inv.moveTail counted
  | copy source target news =>
      have length : news.length = (sequences.nodes source).length := legal.2.2
      have nothing : sequences.nodes source = [] := counted
      rw [nothing] at length
      exact inv.copy length

omit [DecidableEq Data] in
/-- A node that has been taken off is on no list. -/
theorem Inv.unlinked_of_delete (inv : Inv store sequences) (member : nptr ∈ sequences.nodes i) :
    (sequences.set i ((sequences.nodes i).erase nptr)).Unlinked nptr := by
  intro j there
  rw [Sequences.set_nodes] at there
  by_cases same : j = i
  · subst same
    rw [Function.update_self, (inv.holds.list j).nodup.mem_erase_iff] at there
    exact there.1 rfl
  · rw [Function.update_of_ne same] at there
    exact same (inv.holds.apart j i nptr there member)

omit [DecidableEq Index] [DecidableEq Node] in
/-- A node that is taken off has been counted. -/
theorem Inv.not_underflows {op : Op Index Node Data} (inv : Inv store sequences)
    (legal : sequences.Legal op) : ¬ Underflows store op := by
  have counted : ∀ i node, node ∈ sequences.nodes i → (store.lists.list i).size ≠ 0 := by
    intro i node member
    rw [(inv.holds.list i).size]
    exact Nat.pos_iff_ne_zero.mp (List.length_pos_of_mem member)
  cases op with
  | delete i nptr => exact counted i nptr legal
  | findDelete i ptr turns =>
      rintro ⟨found, isZero⟩
      rw [Store.find_eq (inv.holds.list i).traverses legal, List.isSome_find?,
        List.any_eq_true] at found
      obtain ⟨node, member, -⟩ := found
      exact counted i node member isZero
  | _ => exact id

/-- What is left uncounted shows in the size of a list. -/
theorem Sequences.counted_of_size {op : Op Index Node Data} (legal : sequences.Legal op)
    (size : ∀ i, ((store.exec op).lists.list i).size = ((sequences.apply op).nodes i).length) :
    sequences.Counted op := by
  cases op with
  | moveHead source target =>
      rintro rfl
      have empty := size source
      rw [Store.exec, Store.moveHead_size, Sequences.apply, Sequences.set_nodes,
        Function.update_self, List.length_append] at empty
      exact List.length_eq_zero_iff.mp (by omega)
  | moveTail source target =>
      rintro rfl
      have empty := size source
      rw [Store.exec, Store.moveTail_size, Sequences.apply, Sequences.set_nodes,
        Function.update_self, List.length_append] at empty
      exact List.length_eq_zero_iff.mp (by omega)
  | copy source target news =>
      have uncounted := size target
      rw [Store.exec, Store.copy_size, Sequences.apply] at uncounted
      dsimp only at uncounted
      rw [Function.update_self, legal.2.2] at uncounted
      exact List.length_eq_zero_iff.mp uncounted.symm
  | _ => trivial

/-- From a state on in which the lists hold the sequences. -/
theorem Inv.soundAt_iff {ops : List (Op Index Node Data)} (inv : Inv store sequences)
    (legal : TransitionSystem.GuardedRun (fun sequences op => some (sequences.apply op))
      Sequences.Legal sequences ops) :
    (∀ before rest, ops = before ++ rest →
      SoundAt (before.foldl Store.exec store) (before.foldl Sequences.apply sequences) rest) ↔
    TransitionSystem.GuardedRun (fun sequences op => some (sequences.apply op))
      Sequences.Counted sequences ops := by
  induction ops generalizing store sequences with
  | nil =>
      refine ⟨fun _ => trivial, fun _ before rest split => ?_⟩
      obtain ⟨rfl, rfl⟩ := List.append_eq_nil_iff.mp split.symm
      exact ⟨inv.refines, by simp⟩
  | cons op ops induction =>
      obtain ⟨allowed, legal⟩ := legal
      constructor
      · intro sound
        have seen := (sound [op] ops rfl).1
        have counted := Sequences.counted_of_size allowed seen.size
        refine ⟨counted, (induction (inv.exec allowed counted) legal).mp ?_⟩
        intro before rest split
        exact sound (op :: before) rest (congrArg (op :: ·) split)
      · rintro ⟨counted, guarded⟩ before rest split
        cases before with
        | nil =>
            obtain rfl : op :: ops = rest := split
            refine ⟨inv.refines, fun next isNext => ?_⟩
            obtain rfl := Option.some.inj isNext
            exact inv.not_underflows allowed
        | cons first before =>
            obtain ⟨rfl, tail⟩ := List.cons.inj split
            exact (induction (inv.exec allowed counted) legal).mpr guarded before rest tail

/-- All lists are what the operations make of them, from the empty store on, as long as
nothing is copied and no list is moved onto itself. -/
theorem lists_refine_sequences (data : Node → Data) (ops : List (Op Index Node Data))
    (legal : TransitionSystem.GuardedRun (fun sequences op => some (sequences.apply op))
      Sequences.Legal (Sequences.empty data) ops) :
    (∀ before rest, ops = before ++ rest →
      SoundAt (before.foldl Store.exec (Store.empty data))
        (before.foldl Sequences.apply (Sequences.empty data)) rest) ↔
    TransitionSystem.GuardedRun (fun sequences op => some (sequences.apply op))
      Sequences.Counted (Sequences.empty data) ops :=
  (Inv.empty data).soundAt_iff legal

end

/-- Nodes are added at both ends, exchanged, moved to another list and taken off. -/
def movedOnce : List (Op Bool Nat Nat) :=
  [.addTail false 0 7, .addHead false 1 8, .swap false 0 1, .moveTail false true,
    .findDelete true 7 2]

theorem lists_refine_sequences_moved :
    (TransitionSystem.GuardedRun (fun sequences op => some (sequences.apply op))
      Sequences.Counted (Sequences.empty fun _ => 0) movedOnce) ∧
    ∀ before rest, movedOnce = before ++ rest →
      SoundAt (before.foldl Store.exec (Store.empty fun _ => 0))
        (before.foldl Sequences.apply (Sequences.empty fun _ => 0)) rest := by
  have legal : TransitionSystem.GuardedRun (fun sequences op => some (sequences.apply op))
      Sequences.Legal (Sequences.empty fun _ => 0) movedOnce := by
    refine ⟨?_, ?_, ?_, ?_, ?_, trivial⟩
    · exact fun _ => List.not_mem_nil
    · intro i
      cases i <;> decide
    · exact ⟨by decide, by decide⟩
    · trivial
    · exact Nat.le_refl 2
  have counted : TransitionSystem.GuardedRun (fun sequences op => some (sequences.apply op))
      Sequences.Counted (Sequences.empty fun _ => 0) movedOnce := by
    refine ⟨trivial, trivial, trivial, ?_, trivial, trivial⟩
    exact Bool.noConfusion
  exact ⟨counted, (lists_refine_sequences (fun _ => 0) movedOnce legal).mpr counted⟩

/-- A list of one node is copied. -/
def copiedOnce : List (Op Bool Nat Nat) :=
  [.addHead false 0 7, .copy false true [1]]

/-- The copy says that it is empty. -/
theorem copy_not_counted :
    (TransitionSystem.GuardedRun (fun sequences op => some (sequences.apply op))
      Sequences.Legal (Sequences.empty fun _ => 0) copiedOnce) ∧
    ¬ ∀ before rest, copiedOnce = before ++ rest →
      SoundAt (before.foldl Store.exec (Store.empty fun _ => 0))
        (before.foldl Sequences.apply (Sequences.empty fun _ => 0)) rest := by
  constructor
  · refine ⟨fun _ => List.not_mem_nil, ⟨by decide, ?_, by decide⟩, trivial⟩
    intro nptr member i
    obtain rfl := List.mem_singleton.mp member
    cases i <;> decide
  · intro sound
    have size := (sound copiedOnce [] (List.append_nil _).symm).1.size true
    revert size
    decide

end Dlink

end Chaosircd
