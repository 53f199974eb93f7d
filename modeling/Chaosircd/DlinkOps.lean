import Chaosircd.DlinkSegments
import Mathlib.Data.List.Nodup

/-!
# Insertion, exchange and removal

The operations on one list besides `dlink_add_tail` and `dlink_delete`.  The four
that insert a node write the same references: those of the new node, and one of
each neighbour it comes between.  `dlink_swap` takes copies of both nodes first, so
two neighbours change places as well.
-/

namespace Chaosircd

namespace Dlink

variable {Node : Type*} [DecidableEq Node]

/-! ## The operations -/

/-- `dlink_add_head`. -/
def addHead (links : Links Node) (lptr : Dlist Node) (nptr : Node) :
    Links Node × Dlist Node :=
  let prev := Function.update links.prev nptr none
  let next := Function.update links.next nptr lptr.head
  match lptr.head with
  | some first =>
    (⟨next, Function.update prev first (some nptr)⟩, ⟨some nptr, lptr.tail, lptr.size + 1⟩)
  | none => (⟨next, prev⟩, ⟨some nptr, some nptr, lptr.size + 1⟩)

/-- `dlink_add_before`. -/
def addBefore (links : Links Node) (lptr : Dlist Node) (nptr before : Node) :
    Links Node × Dlist Node :=
  if some before = lptr.head then addHead links lptr nptr
  else
    let next := Function.update links.next nptr (some before)
    let prev := Function.update links.prev nptr (links.prev before)
    (⟨updateAt next (prev before) (some nptr), Function.update prev before (some nptr)⟩,
      { lptr with size := lptr.size + 1 })

/-- `dlink_add_after`. -/
def addAfter (links : Links Node) (lptr : Dlist Node) (nptr after : Node) :
    Links Node × Dlist Node :=
  if some after = lptr.tail then addTail links lptr nptr
  else
    let next := Function.update links.next nptr (links.next after)
    let prev := Function.update links.prev nptr (some after)
    (⟨Function.update next after (some nptr), updateAt prev (next after) (some nptr)⟩,
      { lptr with size := lptr.size + 1 })

/-- What `dlink_find_delete` does with the node it has found. -/
def unlink (links : Links Node) (lptr : Dlist Node) (nptr : Node) :
    Links Node × Dlist Node :=
  let (next, head) :=
    match links.prev nptr with
    | some prev => (Function.update links.next prev (links.next nptr), lptr.head)
    | none => (links.next, links.next nptr)
  let (prev, tail) :=
    match next nptr with
    | some behind => (Function.update links.prev behind (links.prev nptr), lptr.tail)
    | none => (links.prev, links.prev nptr)
  (⟨Function.update next nptr none, Function.update prev nptr none⟩,
    ⟨head, tail, lptr.size - 1⟩)

/-- `dlink_swap`. -/
def swap (links : Links Node) (lptr : Dlist Node) (nptr1 nptr2 : Node) :
    Links Node × Dlist Node :=
  if nptr1 = nptr2 then (links, lptr)
  else
    let n1 := (links.next nptr1, links.prev nptr1)
    let n2 := (links.next nptr2, links.prev nptr2)
    let prev := updateAt links.prev n2.1 (some nptr1)
    let tail := if n2.1 = none then some nptr1 else lptr.tail
    let next := updateAt links.next n2.2 (some nptr1)
    let head := if n2.2 = none then some nptr1 else lptr.head
    let prev := updateAt prev n1.1 (some nptr2)
    let tail := if n1.1 = none then some nptr2 else tail
    let next := updateAt next n1.2 (some nptr2)
    let head := if n1.2 = none then some nptr2 else head
    -- what the references of the two nodes have become by now changes hands
    (⟨Function.update (Function.update next nptr1 (next nptr2)) nptr2 (next nptr1),
        Function.update (Function.update prev nptr1 (prev nptr2)) nptr2 (prev nptr1)⟩,
      ⟨head, tail, lptr.size⟩)

/-! ## What they do to the list -/

section

variable {links : Links Node} {lptr : Dlist Node} {nodes before behind : List Node}
  {nptr other : Node}

theorem updateAt_apply (f : Node → Option Node) (at_ value : Option Node) (node : Node) :
    updateAt f at_ value node = if at_ = some node then value else f node := by
  cases at_ with
  | none => simp [updateAt]
  | some nptr =>
      by_cases same : nptr = node
      · simp [updateAt, same]
      · simp [updateAt, same, Function.update_of_ne (Ne.symm same)]

theorem addHead_links :
    (addHead links lptr nptr).1 = ⟨Function.update links.next nptr lptr.head,
      updateAt (Function.update links.prev nptr none) lptr.head (some nptr)⟩ := by
  rw [addHead]
  cases lptr.head <;> rfl

theorem Represents.addHead (list : Represents links lptr nodes) (fresh : nptr ∉ nodes) :
    Represents (addHead links lptr nptr).1 (addHead links lptr nptr).2 (nptr :: nodes) := by
  have block : (Dlink.addHead links lptr nptr).2 =
      ⟨(nptr :: nodes).head?, (nptr :: nodes).getLast?, lptr.size + 1⟩ := by
    rw [Dlink.addHead, list.head, list.tail]
    cases nodes with
    | nil => rfl
    | cons first nodes => rw [List.getLast?_cons_cons]; rfl
  have notHead : nodes.head? ≠ some nptr := fun isFirst => fresh (List.mem_of_head? isFirst)
  rw [block, addHead_links, list.head]
  refine @Represents.splice Node links _ lptr _ [] nodes nptr list fresh ?_ ?_ ?_ ?_
  · simp
  · simp [updateAt_apply, notHead]
  · intro node other
    simp [other]
  · intro node other
    simp [updateAt_apply, other]

/-- The node before which one is inserted. -/
theorem Represents.addBefore (list : Represents links lptr (before ++ other :: behind))
    (fresh : nptr ∉ before ++ other :: behind) :
    Represents (addBefore links lptr nptr other).1 (addBefore links lptr nptr other).2
      (before ++ nptr :: other :: behind) := by
  rw [Dlink.addBefore]
  cases before with
  | nil =>
      have isHead : some other = lptr.head := list.head.symm
      rw [if_pos isHead]
      exact list.addHead fresh
  | cons first before =>
      have nodup := list.nodup
      have notHead : some other ≠ lptr.head := by
        intro isHead
        rw [list.head, List.cons_append, List.head?_cons, Option.some.injEq] at isHead
        rw [List.cons_append, List.nodup_cons, ← isHead] at nodup
        exact nodup.1 (by simp)
      have apart : other ≠ nptr := by
        rintro rfl
        exact fresh (by simp)
      have prevOf := list.prev (first :: before) other behind rfl
      have notLast : (first :: before).getLast? ≠ some nptr := fun isLast =>
        fresh (List.mem_append_left _ (List.mem_of_getLast? isLast))
      have block : (⟨lptr.head, lptr.tail, lptr.size + 1⟩ : Dlist Node) =
          ⟨(first :: before ++ nptr :: other :: behind).head?,
            (first :: before ++ nptr :: other :: behind).getLast?, lptr.size + 1⟩ := by
        rw [list.head, list.tail]
        simp [List.getLast?_cons]
      rw [if_neg notHead]
      dsimp only
      rw [block]
      refine list.splice fresh ?_ ?_ ?_ ?_
      · dsimp only
        rw [updateAt_apply, Function.update_of_ne apart, prevOf, if_neg notLast,
          Function.update_self]
        rfl
      · dsimp only
        rw [Function.update_of_ne apart.symm, Function.update_self, prevOf]
      · intro node isOld
        dsimp only
        rw [updateAt_apply, Function.update_of_ne apart, prevOf, Function.update_of_ne isOld]
      · intro node isOld
        dsimp only
        rw [List.head?_cons, Function.update_apply, Function.update_of_ne isOld]
        simp only [Option.some.injEq, eq_comm]

/-- The node after which one is inserted. -/
theorem Represents.addAfter (list : Represents links lptr (before ++ other :: behind))
    (fresh : nptr ∉ before ++ other :: behind) :
    Represents (addAfter links lptr nptr other).1 (addAfter links lptr nptr other).2
      (before ++ other :: nptr :: behind) := by
  rw [Dlink.addAfter]
  have joined : before ++ other :: behind = (before ++ [other]) ++ behind := by
    simp
  cases behind with
  | nil =>
      have isTail : some other = lptr.tail := by
        rw [list.tail, List.getLast?_concat]
      have added := list.addTail fresh
      rw [if_pos isTail]
      rwa [List.append_assoc] at added
  | cons next behind =>
      have nodup := list.nodup
      have lastOf : (before ++ other :: next :: behind).getLast? = (next :: behind).getLast? := by
        rw [List.getLast?_append, List.getLast?_cons_cons]
        simp [List.getLast?_cons]
      have notTail : some other ≠ lptr.tail := by
        intro isTail
        rw [list.tail, lastOf] at isTail
        have inside := List.mem_of_getLast? isTail.symm
        rw [List.nodup_middle, List.nodup_cons] at nodup
        exact nodup.1 (List.mem_append_right before inside)
      have apart : other ≠ nptr := by
        rintro rfl
        exact fresh (by simp)
      have nextOf := list.next before other (next :: behind) rfl
      have notFirst : (next :: behind).head? ≠ some nptr := by
        intro isFirst
        have isNext : next = nptr := Option.some.inj isFirst
        exact fresh (by simp [isNext])
      have block : (⟨lptr.head, lptr.tail, lptr.size + 1⟩ : Dlist Node) =
          ⟨((before ++ [other]) ++ nptr :: next :: behind).head?,
            ((before ++ [other]) ++ nptr :: next :: behind).getLast?, lptr.size + 1⟩ := by
        rw [list.head, list.tail]
        cases before <;> simp [List.getLast?_cons]
      rw [if_neg notTail]
      dsimp only
      rw [block]
      rw [joined] at list fresh
      have spliced : before ++ other :: nptr :: next :: behind =
          (before ++ [other]) ++ nptr :: next :: behind := by
        simp
      rw [spliced]
      refine list.splice fresh ?_ ?_ ?_ ?_
      · dsimp only
        rw [Function.update_of_ne apart.symm, Function.update_self, nextOf]
      · dsimp only
        rw [updateAt_apply, Function.update_of_ne apart, nextOf, if_neg notFirst,
          Function.update_self, List.getLast?_concat]
      · intro node isOld
        dsimp only
        rw [List.getLast?_concat, Function.update_apply, Function.update_of_ne isOld]
        simp only [Option.some.injEq, eq_comm]
      · intro node isOld
        dsimp only
        rw [updateAt_apply, Function.update_of_ne apart, nextOf, Function.update_of_ne isOld]

/-- The node that is found is deleted the way `dlink_delete` does it. -/
theorem Represents.unlink_eq (list : Represents links lptr (before ++ nptr :: behind)) :
    unlink links lptr nptr = Dlink.delete links lptr nptr := by
  have nodup := list.nodup
  rw [List.nodup_middle, List.nodup_cons, List.mem_append, not_or] at nodup
  obtain ⟨⟨notBefore, notBehind⟩, -⟩ := nodup
  have isHead : lptr.head = some nptr ↔ links.prev nptr = none := by
    rw [list.head, list.prev before nptr behind rfl, List.getLast?_eq_none_iff]
    cases before with
    | nil => simp
    | cons first before =>
        have other : first ≠ nptr := by
          rintro rfl
          exact notBefore List.mem_cons_self
        simp [other]
  have isTail : lptr.tail = some nptr ↔ links.next nptr = none := by
    rw [list.tail, list.next before nptr behind rfl, List.head?_eq_none_iff,
      List.getLast?_append]
    cases behind with
    | nil => simp
    | cons next behind =>
        have other : (next :: behind).getLast? ≠ some nptr := fun isLast =>
          notBehind (List.mem_of_getLast? isLast)
        rw [List.getLast?_cons_cons]
        simpa [List.getLast?_cons] using other
  have selfless : links.prev nptr ≠ some nptr := by
    rw [list.prev before nptr behind rfl]
    exact fun isLast => notBefore (List.mem_of_getLast? isLast)
  rw [unlink, Dlink.delete]
  cases first : links.prev nptr with
  | none =>
      rw [if_pos (isHead.mpr first)]
      cases last : links.next nptr with
      | none => simp [isTail.mpr last, last]
      | some behind => simp [isTail, last, updateAt]
  | some prev =>
      have other : prev ≠ nptr := fun same => selfless (same ▸ first)
      rw [if_neg (by rw [isHead, first]; simp)]
      cases last : links.next nptr with
      | none => simp [isTail.mpr last, last, updateAt, other.symm]
      | some behind => simp [isTail, last, updateAt, other.symm]

/-! ### Exchange -/

/-- What `dlink_swap` makes of the references of a list. -/
def Swapped (links links' : Links Node) (before : List Node) (first : Node) (mid : List Node)
    (second : Node) (behind : List Node) : Prop :=
  (links'.next first = behind.head? ∧ links'.prev first = mid.getLast?.or (some second)) ∧
    (links'.next second = mid.head?.or (some first) ∧ links'.prev second = before.getLast?) ∧
    ∀ node, node ≠ first → node ≠ second →
      links'.next node =
          (if before.getLast? = some node then some second
          else if mid.getLast? = some node then some first else links.next node) ∧
        links'.prev node =
          (if behind.head? = some node then some first
          else if mid.head? = some node then some second else links.prev node)

omit [DecidableEq Node] in
/-- The nodes of a list with two of them singled out. -/
theorem nodup_two {mid : List Node} {first second : Node}
    (nodup : (before ++ first :: (mid ++ second :: behind)).Nodup) :
    (before.Nodup ∧ mid.Nodup ∧ behind.Nodup) ∧ first ≠ second ∧
      (first ∉ before ∧ first ∉ mid ∧ first ∉ behind) ∧
      (second ∉ before ∧ second ∉ mid ∧ second ∉ behind) ∧
      (∀ node ∈ before, node ∉ mid ∧ node ∉ behind) ∧ ∀ node ∈ mid, node ∉ behind := by
  simp only [List.nodup_append, List.nodup_cons, List.mem_append, List.mem_cons] at nodup
  grind

theorem Represents.of_swapped {links' : Links Node} {mid : List Node} {first second : Node}
    (list : Represents links lptr (before ++ first :: (mid ++ second :: behind)))
    (swapped : Swapped links links' before first mid second behind) :
    Represents links'
      ⟨(before ++ second :: (mid ++ first :: behind)).head?,
        (before ++ second :: (mid ++ first :: behind)).getLast?, lptr.size⟩
      (before ++ second :: (mid ++ first :: behind)) := by
  obtain ⟨nodup, isBlock, segment⟩ := represents_iff.mp list
  obtain ⟨ofFirst, ofSecond, others⟩ := swapped
  obtain ⟨⟨nodupBefore, nodupMid, nodupBehind⟩, apart, notFirst, notSecond, outside, notBehind⟩ :=
    nodup_two nodup
  simp only [segment_append, Segment] at segment
  obtain ⟨front, -, -, middle, -, -, back⟩ := segment
  have front' : Segment links' none before (some second) := by
    refine front.rebehind nodupBefore ?_ ?_
    · intro node member
      have notMid : mid.getLast? ≠ some node := fun isLast =>
        (outside node member).1 (List.mem_of_getLast? isLast)
      rw [(others node (by grind) (by grind)).1, if_neg notMid]
    · intro node member
      have notMid : mid.head? ≠ some node := fun isFirst =>
        (outside node member).1 (List.mem_of_head? isFirst)
      have notBack : behind.head? ≠ some node := fun isFirst =>
        (outside node member).2 (List.mem_of_head? isFirst)
      rw [(others node (by grind) (by grind)).2, if_neg notBack, if_neg notMid]
  have middle' : Segment links' (some second) mid (some first) := by
    refine middle.rebound nodupMid ?_ ?_ ?_ ?_
    · intro node isFirst
      have member := List.mem_of_head? isFirst
      have notBack : behind.head? ≠ some node := fun same =>
        notBehind node member (List.mem_of_head? same)
      rw [(others node (by grind) (by grind)).2, if_neg notBack, if_pos isFirst]
    · intro node isLast
      have member := List.mem_of_getLast? isLast
      have notFront : before.getLast? ≠ some node := fun same =>
        (outside node (List.mem_of_getLast? same)).1 member
      rw [(others node (by grind) (by grind)).1, if_neg notFront, if_pos isLast]
    · intro node member notHead
      have notBack : behind.head? ≠ some node := fun same =>
        notBehind node member (List.mem_of_head? same)
      rw [(others node (by grind) (by grind)).2, if_neg notBack, if_neg notHead]
    · intro node member notLast
      have notFront : before.getLast? ≠ some node := fun same =>
        (outside node (List.mem_of_getLast? same)).1 member
      rw [(others node (by grind) (by grind)).1, if_neg notFront, if_neg notLast]
  have back' : Segment links' (some first) behind none := by
    refine back.rebefore nodupBehind ?_ ?_
    · intro node member
      have notMid : mid.head? ≠ some node := fun isFirst =>
        notBehind node (List.mem_of_head? isFirst) member
      rw [(others node (by grind) (by grind)).2, if_neg notMid]
    · intro node member
      have notMid : mid.getLast? ≠ some node := fun isLast =>
        notBehind node (List.mem_of_getLast? isLast) member
      have notFront : before.getLast? ≠ some node := fun isLast =>
        (outside node (List.mem_of_getLast? isLast)).2 member
      rw [(others node (by grind) (by grind)).1, if_neg notFront, if_neg notMid]
  have exchange : (before ++ second :: (mid ++ first :: behind)).Perm
      (before ++ first :: (mid ++ second :: behind)) := by
    apply List.Perm.append_left
    exact (List.perm_middle.cons second).trans
      ((List.Perm.swap first second (mid ++ behind)).trans (List.perm_middle.symm.cons first))
  refine represents_iff.mpr ⟨?_, ?_, ?_⟩
  · exact exchange.nodup_iff.mpr nodup
  · rw [isBlock]
    simp only [List.length_append, List.length_cons]
  · simp only [segment_append, Segment]
    refine ⟨by simpa using front', by simp [ofSecond.2], ?_, by simpa using middle', ?_, ?_, back'⟩
    · rw [ofSecond.1]
      cases mid <;> simp
    · rw [ofFirst.2]
    · rw [ofFirst.1, Option.or_none]

theorem updateAt_comm {f : Node → Option Node} {at₁ at₂ : Option Node} (apart : at₁ ≠ at₂)
    (value₁ value₂ : Option Node) :
    updateAt (updateAt f at₁ value₁) at₂ value₂ = updateAt (updateAt f at₂ value₂) at₁ value₁ := by
  funext node
  simp only [updateAt_apply]
  by_cases first : at₁ = some node
  · have notSecond : at₂ ≠ some node := fun second => apart (first.trans second.symm)
    simp only [if_pos first, if_neg notSecond]
  · simp only [if_neg first]

/-- The two arguments of `dlink_swap` may be given in either order. -/
theorem swap_comm {first second : Node} (next : links.next first ≠ links.next second)
    (prev : links.prev first ≠ links.prev second) :
    swap links lptr second first = swap links lptr first second := by
  have apart : first ≠ second := fun same => next (congrArg links.next same)
  have tails : (if links.next first = none then some second else
        if links.next second = none then some first else lptr.tail) =
      if links.next second = none then some first else
        if links.next first = none then some second else lptr.tail := by
    by_cases last : links.next first = none
    · have notLast : links.next second ≠ none := fun both => next (last.trans both.symm)
      rw [if_pos last, if_neg notLast, if_pos last]
    · rw [if_neg last, if_neg last]
  have heads : (if links.prev first = none then some second else
        if links.prev second = none then some first else lptr.head) =
      if links.prev second = none then some first else
        if links.prev first = none then some second else lptr.head := by
    by_cases isFirst : links.prev first = none
    · have notFirst : links.prev second ≠ none := fun both => prev (isFirst.trans both.symm)
      rw [if_pos isFirst, if_neg notFirst, if_pos isFirst]
    · rw [if_neg isFirst, if_neg isFirst]
  rw [swap, swap, if_neg apart, if_neg apart.symm]
  dsimp only
  rw [tails, heads, updateAt_comm next, updateAt_comm prev, Function.update_comm apart,
    Function.update_comm apart]

/-- Two nodes next to each other. -/
theorem swapped_of_adjacent {first second : Node} (apart : first ≠ second)
    (keptFirst : before.getLast? ≠ some first ∧ behind.head? ≠ some first)
    (keptSecond : before.getLast? ≠ some second ∧ behind.head? ≠ some second)
    (prevFirst : links.prev first = before.getLast?) (nextFirst : links.next first = some second)
    (prevSecond : links.prev second = some first) (nextSecond : links.next second = behind.head?) :
    Swapped links (swap links lptr first second).1 before first [] second behind := by
  have apart' := apart.symm
  obtain ⟨keptFront, keptBack⟩ := keptFirst
  obtain ⟨keptFront', keptBack'⟩ := keptSecond
  rw [swap, if_neg apart]
  refine ⟨⟨?_, ?_⟩, ⟨?_, ?_⟩, ?_⟩
  · simp [updateAt_apply, *]
  · simp [updateAt_apply, *]
  · simp [updateAt_apply, *]
  · simp [updateAt_apply, *]
  · intro node notFirst notSecond
    have notFirst' := Ne.symm notFirst
    have notSecond' := Ne.symm notSecond
    constructor
    · simp [updateAt_apply, *]
    · simp [updateAt_apply, *]

/-- Two nodes with others between them. -/
theorem swapped_of_distant {mid : List Node} {first second inner final : Node}
    (apart : first ≠ second) (firstMid : mid.head? = some inner)
    (lastMid : mid.getLast? = some final)
    (keptFirst : before.getLast? ≠ some first ∧ behind.head? ≠ some first)
    (keptSecond : before.getLast? ≠ some second ∧ behind.head? ≠ some second)
    (innerApart : inner ≠ first ∧ inner ≠ second) (finalApart : final ≠ first ∧ final ≠ second)
    (outer : before.getLast? ≠ some final ∧ behind.head? ≠ some inner)
    (prevFirst : links.prev first = before.getLast?) (nextFirst : links.next first = some inner)
    (prevSecond : links.prev second = some final) (nextSecond : links.next second = behind.head?) :
    Swapped links (swap links lptr first second).1 before first mid second behind := by
  have apart' := apart.symm
  obtain ⟨keptFront, keptBack⟩ := keptFirst
  obtain ⟨keptFront', keptBack'⟩ := keptSecond
  rw [swap, if_neg apart]
  refine ⟨⟨?_, ?_⟩, ⟨?_, ?_⟩, ?_⟩
  · simp [updateAt_apply, *]
  · simp [updateAt_apply, *]
  · simp [updateAt_apply, *]
  · simp [updateAt_apply, *]
  · intro node notFirst notSecond
    constructor
    · simp [updateAt_apply, *]
    · simp only [updateAt_apply, Function.update_apply, firstMid, if_neg notFirst,
        if_neg notSecond, nextSecond, nextFirst]
      by_cases isInner : inner = node
      · obtain rfl := isInner
        simp [outer.2]
      · simp [isInner]

/-- What `dlink_swap` writes. -/
theorem Represents.swapped {mid : List Node} {first second : Node}
    (list : Represents links lptr (before ++ first :: (mid ++ second :: behind))) :
    Swapped links (swap links lptr first second).1 before first mid second behind ∧
      (swap links lptr first second).2 =
        ⟨(before ++ second :: (mid ++ first :: behind)).head?,
          (before ++ second :: (mid ++ first :: behind)).getLast?, lptr.size⟩ := by
  obtain ⟨nodups, apart, notFirst, notSecond, outside, notBehind⟩ := nodup_two list.nodup
  have split : before ++ first :: (mid ++ second :: behind) =
      (before ++ first :: mid) ++ second :: behind := by
    simp
  have noFront : ∀ node ∉ before, before.getLast? ≠ some node := fun node outside isLast =>
    outside (List.mem_of_getLast? isLast)
  have noBack : ∀ node ∉ behind, behind.head? ≠ some node := fun node outside isFirst =>
    outside (List.mem_of_head? isFirst)
  have prevFirst := list.prev before first (mid ++ second :: behind) rfl
  have nextSecond := list.next _ second behind split
  have nextFirst : links.next first = mid.head?.or (some second) := by
    rw [list.next before first (mid ++ second :: behind) rfl]
    cases mid <;> rfl
  have prevSecond : links.prev second = mid.getLast?.or (some first) := by
    rw [list.prev _ second behind split, List.getLast?_append, List.getLast?_cons]
    cases mid.getLast? <;> rfl
  have keptFirst := And.intro (noFront first notFirst.1) (noBack first notFirst.2.2)
  have keptSecond := And.intro (noFront second notSecond.1) (noBack second notSecond.2.2)
  constructor
  · cases firstMid : mid.head? with
    | none =>
        obtain rfl := List.head?_eq_none_iff.mp firstMid
        exact swapped_of_adjacent apart keptFirst keptSecond prevFirst nextFirst prevSecond
          nextSecond
    | some inner =>
        have innerIn := List.mem_of_head? firstMid
        obtain ⟨final, lastMid⟩ : ∃ final, mid.getLast? = some final := by
          cases mid with
          | nil => exact absurd innerIn List.not_mem_nil
          | cons other mid => exact ⟨_, List.getLast?_cons⟩
        have finalIn := List.mem_of_getLast? lastMid
        have outer : before.getLast? ≠ some final ∧ behind.head? ≠ some inner :=
          ⟨noFront final fun inside => (outside final inside).1 finalIn,
            noBack inner (notBehind inner innerIn)⟩
        rw [firstMid, Option.some_or] at nextFirst
        rw [lastMid, Option.some_or] at prevSecond
        exact swapped_of_distant apart firstMid lastMid keptFirst keptSecond
          ⟨fun same => notFirst.2.1 (same ▸ innerIn), fun same => notSecond.2.1 (same ▸ innerIn)⟩
          ⟨fun same => notFirst.2.1 (same ▸ finalIn), fun same => notSecond.2.1 (same ▸ finalIn)⟩
          outer prevFirst nextFirst prevSecond nextSecond
  · have headOf : lptr.head = before.head?.or (some first) := by
      rw [list.head]
      cases before <;> rfl
    have tailOf : lptr.tail = behind.getLast?.or (some second) := by
      rw [list.tail, split, List.getLast?_append, List.getLast?_cons]
      cases behind.getLast? <;> rfl
    have noNext : links.next first ≠ none := by
      rw [nextFirst]
      cases mid.head? <;> simp
    have noPrev : links.prev second ≠ none := by
      rw [prevSecond]
      cases mid.getLast? <;> simp
    have head : (if links.prev first = none then some second else lptr.head) =
        (before ++ second :: (mid ++ first :: behind)).head? := by
      rw [prevFirst, headOf]
      cases before with
      | nil => rfl
      | cons other before => simp [List.getLast?_cons]
    have tail : (if links.next second = none then some first else lptr.tail) =
        (before ++ second :: (mid ++ first :: behind)).getLast? := by
      rw [nextSecond, tailOf, List.getLast?_append, List.getLast?_cons, List.getLast?_append,
        List.getLast?_cons]
      cases behind with
      | nil => rfl
      | cons other behind => simp [List.getLast?_cons]
    rw [swap, if_neg apart]
    simp only [if_neg noNext, if_neg noPrev, head, tail]

/-- The exchange of two nodes of a list. -/
theorem Represents.swap {mid : List Node} {first second : Node}
    (list : Represents links lptr (before ++ first :: (mid ++ second :: behind))) :
    Represents (swap links lptr first second).1 (swap links lptr first second).2
      (before ++ second :: (mid ++ first :: behind)) := by
  obtain ⟨swapped, block⟩ := list.swapped
  rw [block]
  exact list.of_swapped swapped

/-- The same with the arguments the other way round. -/
theorem Represents.swap_back {mid : List Node} {first second : Node}
    (list : Represents links lptr (before ++ first :: (mid ++ second :: behind))) :
    Dlink.swap links lptr second first = Dlink.swap links lptr first second := by
  obtain ⟨nodups, apart, notFirst, notSecond, outside, notBehind⟩ := nodup_two list.nodup
  have split : before ++ first :: (mid ++ second :: behind) =
      (before ++ first :: mid) ++ second :: behind := by
    simp
  apply swap_comm
  · rw [list.next before first (mid ++ second :: behind) rfl, list.next _ second behind split]
    intro same
    cases mid with
    | nil => exact notSecond.2.2 (List.mem_of_head? same.symm)
    | cons inner mid =>
        exact notBehind inner List.mem_cons_self (List.mem_of_head? same.symm)
  · rw [list.prev before first (mid ++ second :: behind) rfl, list.prev _ second behind split,
      List.getLast?_append, List.getLast?_cons]
    intro same
    cases lastMid : mid.getLast? with
    | none =>
        rw [lastMid] at same
        exact notFirst.1 (List.mem_of_getLast? same)
    | some final =>
        rw [lastMid] at same
        exact (outside final (List.mem_of_getLast? same)).1 (List.mem_of_getLast? lastMid)

/-! ## What they leave alone -/

/-- Only the references of these nodes are written. -/
def WritesOnly (links links' : Links Node) (nodes : List Node) : Prop :=
  ∀ node ∉ nodes, links'.next node = links.next node ∧ links'.prev node = links.prev node

theorem addHead_writesOnly (list : Represents links lptr nodes) :
    WritesOnly links (addHead links lptr nptr).1 (nptr :: nodes) := by
  intro node outside
  rw [List.mem_cons, not_or] at outside
  have notHead : lptr.head ≠ some node := by
    rw [list.head]
    exact fun isFirst => outside.2 (List.mem_of_head? isFirst)
  rw [addHead_links]
  simp [updateAt_apply, outside.1, notHead]

theorem addTail_writesOnly (list : Represents links lptr nodes) :
    WritesOnly links (addTail links lptr nptr).1 (nodes ++ [nptr]) := by
  intro node outside
  rw [List.mem_append, not_or, List.mem_singleton] at outside
  exact addTail_frame list outside.1 outside.2

theorem addBefore_writesOnly (list : Represents links lptr (before ++ other :: behind)) :
    WritesOnly links (addBefore links lptr nptr other).1
      (before ++ nptr :: other :: behind) := by
  intro node outside
  have notNew : node ≠ nptr := by
    rintro rfl
    exact outside (by simp)
  have notOther : node ≠ other := by
    rintro rfl
    exact outside (by simp)
  have notPrev : before.getLast? ≠ some node := fun isLast =>
    outside (List.mem_append_left _ (List.mem_of_getLast? isLast))
  rw [addBefore]
  by_cases isHead : some other = lptr.head
  · rw [if_pos isHead]
    apply addHead_writesOnly list
    rw [List.mem_cons, not_or]
    exact ⟨notNew, fun inside => outside (by simp at inside ⊢; tauto)⟩
  · rw [if_neg isHead]
    dsimp only
    rw [updateAt_apply, Function.update_of_ne notOther, Function.update_of_ne notNew]
    by_cases same : other = nptr
    · subst same
      rw [Function.update_self, list.prev before other behind rfl, if_neg notPrev,
        Function.update_of_ne notOther]
      exact ⟨rfl, rfl⟩
    · rw [Function.update_of_ne same, list.prev before other behind rfl, if_neg notPrev,
        Function.update_of_ne notNew]
      exact ⟨rfl, rfl⟩

theorem addAfter_writesOnly (list : Represents links lptr (before ++ other :: behind)) :
    WritesOnly links (addAfter links lptr nptr other).1
      (before ++ other :: nptr :: behind) := by
  intro node outside
  have notNew : node ≠ nptr := by
    rintro rfl
    exact outside (by simp)
  have notOther : node ≠ other := by
    rintro rfl
    exact outside (by simp)
  have notNext : behind.head? ≠ some node := fun isFirst =>
    outside (by simp [List.mem_of_head? isFirst])
  rw [addAfter]
  by_cases isTail : some other = lptr.tail
  · rw [if_pos isTail]
    apply addTail_writesOnly list
    rw [List.mem_append, not_or, List.mem_singleton]
    exact ⟨fun inside => outside (by simp at inside ⊢; tauto), notNew⟩
  · rw [if_neg isTail]
    dsimp only
    rw [updateAt_apply, Function.update_of_ne notOther, Function.update_of_ne notNew]
    by_cases same : other = nptr
    · subst same
      rw [Function.update_self, list.next before other behind rfl, if_neg notNext,
        Function.update_of_ne notOther]
      exact ⟨rfl, rfl⟩
    · rw [Function.update_of_ne same, list.next before other behind rfl, if_neg notNext,
        Function.update_of_ne notNew]
      exact ⟨rfl, rfl⟩

theorem delete_writesOnly (list : Represents links lptr (before ++ nptr :: behind)) :
    WritesOnly links (Dlink.delete links lptr nptr).1 (before ++ nptr :: behind) :=
  fun _ outside => delete_frame list outside

theorem swap_writesOnly {mid : List Node} {first second : Node}
    (list : Represents links lptr (before ++ first :: (mid ++ second :: behind))) :
    WritesOnly links (Dlink.swap links lptr first second).1
      (before ++ first :: (mid ++ second :: behind)) := by
  intro node outside
  simp only [List.mem_append, List.mem_cons, not_or] at outside
  obtain ⟨notBefore, notFirst, notMid, notSecond, notBehind⟩ := outside
  obtain ⟨⟨-, -, others⟩, -⟩ := list.swapped
  obtain ⟨next, prev⟩ := others node notFirst notSecond
  rw [next, prev]
  rw [if_neg fun isLast => notBefore (List.mem_of_getLast? isLast),
    if_neg fun isLast => notMid (List.mem_of_getLast? isLast),
    if_neg fun isFirst => notBehind (List.mem_of_head? isFirst),
    if_neg fun isFirst => notMid (List.mem_of_head? isFirst)]
  exact ⟨rfl, rfl⟩

/-! ## Joining two lists -/

/-- Two lists become one when the last node of the first and the first node of the second
are made neighbours. -/
theorem Represents.join {links' : Links Node} {lptr' : Dlist Node} {final start : Node}
    (front : Represents links lptr (before ++ [final]))
    (back : Represents links lptr' (start :: behind))
    (apart : ∀ node ∈ before ++ [final], node ∉ start :: behind)
    (next : ∀ node, links'.next node = if node = final then some start else links.next node)
    (prev : ∀ node, links'.prev node = if node = start then some final else links.prev node) :
    Represents links' ⟨lptr.head, lptr'.tail, lptr.size + lptr'.size⟩
      (before ++ final :: start :: behind) := by
  obtain ⟨nodupFront, isFront, segmentFront⟩ := represents_iff.mp front
  obtain ⟨nodupBack, isBack, segmentBack⟩ := represents_iff.mp back
  have split : before ++ final :: start :: behind = (before ++ [final]) ++ (start :: behind) := by
    simp
  refine represents_iff.mpr ⟨?_, ?_, ?_⟩
  · rw [split, List.nodup_append]
    refine ⟨nodupFront, nodupBack, ?_⟩
    rintro node inFront node' inBack rfl
    exact apart node inFront inBack
  · rw [isFront, isBack, split]
    simp only [List.length_append]
    congr 1
    · cases before <;> rfl
    · rw [List.getLast?_append]
      simp [List.getLast?_cons]
  · rw [split, segment_append]
    constructor
    · refine segmentFront.rebehind nodupFront ?_ ?_
      · intro node member
        rw [next, List.getLast?_concat]
        simp only [Option.some.injEq, eq_comm, List.head?_cons, Option.some_or]
      · intro node member
        have notStart : node ≠ start := by
          rintro rfl
          exact apart node member List.mem_cons_self
        rw [prev, if_neg notStart]
    · refine segmentBack.rebefore nodupBack ?_ ?_
      · intro node member
        rw [prev, List.head?_cons, List.getLast?_concat]
        simp only [Option.some.injEq, eq_comm, Option.some_or]
      · intro node member
        have notFinal : node ≠ final := by
          rintro rfl
          exact apart node (by simp) member
        rw [next, if_neg notFinal]

end

end Dlink

end Chaosircd
