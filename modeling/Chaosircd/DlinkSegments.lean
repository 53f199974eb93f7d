import Chaosircd.DlinkLists

/-!
# Segments of linked lists

A segment is a stretch of nodes whose references lead through it and out of it on
either side.  A list is a segment between two null references.  Segments are joined
and cut, and a segment whose two outer references alone are written is the same
stretch between other neighbours; the operations that insert, exchange and move
nodes come down to that.
-/

namespace Chaosircd

namespace Dlink

variable {Node : Type*}

/-- The references lead through the nodes, between these neighbours. -/
def Segment (links : Links Node) : Option Node → List Node → Option Node → Prop
  | _, [], _ => True
  | before, nptr :: nodes, behind =>
    links.prev nptr = before ∧ links.next nptr = nodes.head?.or behind ∧
      Segment links (some nptr) nodes behind

section Segment

variable {links links' : Links Node} {lptr : Dlist Node} {before behind : Option Node}

/-- Segments are joined where each leads to the other. -/
theorem segment_append {first second : List Node} :
    Segment links before (first ++ second) behind ↔
      Segment links before first (second.head?.or behind) ∧
        Segment links (first.getLast?.or before) second behind := by
  induction first generalizing before with
  | nil => simp [Segment]
  | cons nptr first induction =>
      rw [List.cons_append, Segment, Segment, induction, and_assoc, and_assoc]
      have ahead : (first ++ second).head?.or behind =
          first.head?.or (second.head?.or behind) := by
        cases first <;> simp
      have last : first.getLast?.or (some nptr) = (nptr :: first).getLast?.or before := by
        rw [List.getLast?_cons]
        cases first.getLast? <;> rfl
      rw [ahead, last]

/-- The neighbours of a segment change when its outer references are written. -/
theorem Segment.rebound {nodes : List Node} {before' behind' : Option Node}
    (nodup : nodes.Nodup) (segment : Segment links before nodes behind)
    (first : ∀ node, nodes.head? = some node → links'.prev node = before')
    (last : ∀ node, nodes.getLast? = some node → links'.next node = behind')
    (prev : ∀ node ∈ nodes, nodes.head? ≠ some node → links'.prev node = links.prev node)
    (next : ∀ node ∈ nodes, nodes.getLast? ≠ some node → links'.next node = links.next node) :
    Segment links' before' nodes behind' := by
  induction nodes generalizing before before' with
  | nil => trivial
  | cons nptr nodes induction =>
      obtain ⟨_, follows, segment⟩ := segment
      rw [List.nodup_cons] at nodup
      have inner : Segment links' (some nptr) nodes behind' := by
        refine induction nodup.2 segment ?_ ?_ ?_ ?_
        · intro node isFirst
          have member := List.mem_of_head? isFirst
          have notHead : (nptr :: nodes).head? ≠ some node := by
            rintro same
            exact nodup.1 (Option.some.inj same ▸ member)
          rw [prev node (List.mem_cons_of_mem nptr member) notHead]
          cases nodes with
          | nil => exact absurd member List.not_mem_nil
          | cons other nodes =>
              obtain rfl := Option.some.inj isFirst
              exact segment.1
        · intro node isLast
          apply last
          rw [List.getLast?_cons, isLast]
          rfl
        · intro node member notFirst
          have notHead : (nptr :: nodes).head? ≠ some node := by
            rintro same
            exact nodup.1 (Option.some.inj same ▸ member)
          rw [prev node (List.mem_cons_of_mem nptr member) notHead]
        · intro node member notLast
          apply next node (List.mem_cons_of_mem nptr member)
          rw [List.getLast?_cons]
          cases isLast : nodes.getLast? with
          | none =>
              rw [List.getLast?_eq_none_iff.mp isLast] at member
              exact absurd member List.not_mem_nil
          | some final => rwa [isLast] at notLast
      refine ⟨first nptr rfl, ?_, inner⟩
      cases nodes with
      | nil => exact last nptr rfl
      | cons other nodes =>
          have notLast : (nptr :: other :: nodes).getLast? ≠ some nptr := by
            intro isLast
            rw [List.getLast?_cons_cons] at isLast
            exact nodup.1 (List.mem_of_getLast? isLast)
          rw [next nptr List.mem_cons_self notLast, follows]
          rfl

theorem Segment.prev_head {nodes : List Node} {node : Node}
    (segment : Segment links before nodes behind) (isFirst : nodes.head? = some node) :
    links.prev node = before := by
  cases nodes with
  | nil => simp at isFirst
  | cons nptr nodes =>
      obtain rfl := Option.some.inj isFirst
      exact segment.1

theorem Segment.next_getLast {nodes : List Node} {node : Node}
    (segment : Segment links before nodes behind) (isLast : nodes.getLast? = some node) :
    links.next node = behind := by
  have split : nodes = nodes.dropLast ++ [node] :=
    (List.dropLast_append_getLast? node isLast).symm
  rw [split, segment_append] at segment
  exact segment.2.2.1

/-- A segment comes to lead to another node behind it. -/
theorem Segment.rebehind [DecidableEq Node] {nodes : List Node} {behind' : Option Node} (nodup : nodes.Nodup)
    (segment : Segment links before nodes behind)
    (next : ∀ node ∈ nodes, links'.next node =
      if nodes.getLast? = some node then behind' else links.next node)
    (prev : ∀ node ∈ nodes, links'.prev node = links.prev node) :
    Segment links' before nodes behind' := by
  refine segment.rebound nodup ?_ ?_ ?_ ?_
  · intro node isFirst
    rw [prev node (List.mem_of_head? isFirst)]
    exact segment.prev_head isFirst
  · intro node isLast
    rw [next node (List.mem_of_getLast? isLast), if_pos isLast]
  · intro node member _
    exact prev node member
  · intro node member notLast
    rw [next node member, if_neg notLast]

/-- A segment comes to lead to another node before it. -/
theorem Segment.rebefore [DecidableEq Node] {nodes : List Node} {before' : Option Node} (nodup : nodes.Nodup)
    (segment : Segment links before nodes behind)
    (prev : ∀ node ∈ nodes, links'.prev node =
      if nodes.head? = some node then before' else links.prev node)
    (next : ∀ node ∈ nodes, links'.next node = links.next node) :
    Segment links' before' nodes behind := by
  refine segment.rebound nodup ?_ ?_ ?_ ?_
  · intro node isFirst
    rw [prev node (List.mem_of_head? isFirst), if_pos isFirst]
  · intro node isLast
    rw [next node (List.mem_of_getLast? isLast)]
    exact segment.next_getLast isLast
  · intro node member notFirst
    rw [prev node member, if_neg notFirst]
  · intro node member _
    exact next node member

/-- A segment depends on the references of its own nodes only. -/
theorem Segment.congr {nodes : List Node} (segment : Segment links before nodes behind)
    (same : ∀ node ∈ nodes, links'.next node = links.next node ∧
      links'.prev node = links.prev node) : Segment links' before nodes behind := by
  induction nodes generalizing before with
  | nil => trivial
  | cons nptr nodes induction =>
      rw [List.forall_mem_cons] at same
      obtain ⟨precedes, follows, segment⟩ := segment
      exact ⟨same.1.2.trans precedes, same.1.1.trans follows, induction segment same.2⟩

/-- A list is a segment between two null references. -/
theorem represents_iff {nodes : List Node} :
    Represents links lptr nodes ↔
      nodes.Nodup ∧ lptr = ⟨nodes.head?, nodes.getLast?, nodes.length⟩ ∧
        Segment links none nodes none := by
  constructor
  · intro list
    refine ⟨list.nodup, ?_, ?_⟩
    · rw [← list.head, ← list.tail, ← list.size]
    · have walk : ∀ before rest, nodes = before ++ rest →
          Segment links before.getLast? rest none := by
        intro before rest split
        induction rest generalizing before with
        | nil => trivial
        | cons nptr rest induction =>
            have behind := induction (before ++ [nptr]) (by simpa using split)
            rw [List.getLast?_concat] at behind
            refine ⟨list.prev before nptr rest split, ?_, behind⟩
            rw [list.next before nptr rest split, Option.or_none]
      exact walk [] nodes rfl
  · rintro ⟨nodup, rfl, segment⟩
    refine ⟨nodup, rfl, rfl, rfl, ?_, ?_⟩
    · intro before nptr behind split
      rw [split, segment_append] at segment
      rw [segment.2.1, Option.or_none]
    · intro before nptr behind split
      rw [split, segment_append] at segment
      rw [segment.2.2.1, Option.or_none]

/-- A node comes between two stretches of a list. -/
theorem Represents.splice [DecidableEq Node] {before behind : List Node} {nptr : Node}
    (list : Represents links lptr (before ++ behind)) (fresh : nptr ∉ before ++ behind)
    (nextNew : links'.next nptr = behind.head?) (prevNew : links'.prev nptr = before.getLast?)
    (next : ∀ node, node ≠ nptr → links'.next node =
      if before.getLast? = some node then some nptr else links.next node)
    (prev : ∀ node, node ≠ nptr → links'.prev node =
      if behind.head? = some node then some nptr else links.prev node) :
    Represents links'
      ⟨(before ++ nptr :: behind).head?, (before ++ nptr :: behind).getLast?, lptr.size + 1⟩
      (before ++ nptr :: behind) := by
  obtain ⟨nodup, isBlock, segment⟩ := represents_iff.mp list
  rw [segment_append] at segment
  obtain ⟨nodupBefore, nodupBehind, apart⟩ := List.nodup_append.mp nodup
  have other : ∀ node, node ∈ before ++ behind → node ≠ nptr := by
    rintro node member rfl
    exact fresh member
  have front : Segment links' none before (some nptr) := by
    refine segment.1.rebehind nodupBefore ?_ ?_
    · intro node member
      exact next node (other node (List.mem_append_left behind member))
    · intro node member
      have notFirst : behind.head? ≠ some node := fun isFirst =>
        apart node member node (List.mem_of_head? isFirst) rfl
      rw [prev node (other node (List.mem_append_left behind member)), if_neg notFirst]
  have back : Segment links' (some nptr) behind none := by
    refine segment.2.rebefore nodupBehind ?_ ?_
    · intro node member
      exact prev node (other node (List.mem_append_right before member))
    · intro node member
      have notLast : before.getLast? ≠ some node := fun isLast =>
        apart node (List.mem_of_getLast? isLast) node member rfl
      rw [next node (other node (List.mem_append_right before member)), if_neg notLast]
  refine represents_iff.mpr ⟨?_, ?_, ?_⟩
  · rw [List.nodup_middle, List.nodup_cons]
    exact ⟨fresh, nodup⟩
  · rw [isBlock]
    simp only [List.length_append, List.length_cons, Nat.add_assoc]
  · rw [segment_append]
    exact ⟨front, by rw [prevNew, Option.or_none], by rw [nextNew, Option.or_none], back⟩

end Segment

end Dlink

end Chaosircd
