import Chaosircd.DnsNames

/-!
# The text of a name

`dns_dn_to_dot` writes the labels of a name with dots between them, and leaves out what does
not belong in a host name.  A text that fills its output has its terminator behind it.
-/

namespace Chaosircd

namespace Dns

/-! ## From lengths to dots -/

/-- The bytes of a label that `dns_dn_to_dot` keeps, after it has lowered them. -/
def isKept (ch : UInt8) : Bool :=
  (97 ≤ ch && ch ≤ 122) || (48 ≤ ch && ch ≤ 57) || ch == 45 || ch == 95

/-- `if((ch2 >= 'A') && (ch2 <= 'Z')) ch2 += 0x20;` -/
def lowered (ch : UInt8) : UInt8 :=
  if 65 ≤ ch ∧ ch ≤ 90 then ch + 0x20 else ch

/-- The variables of `dns_dn_to_dot`, with the position of `d`. -/
structure DotWalk where
  out : Region
  idx : Nat
  d : Nat
  deriving DecidableEq

/-- `while(ch--)` in `dns_dn_to_dot`. -/
def labelLoop (src : Region) (n : Nat) : Nat → DotWalk → Except Fault DotWalk
  | 0, walk => .ok walk
  | ch + 1, walk => do
    let ch2 ← src.read walk.d
    let walk := { walk with d := walk.d + 1 }
    if isKept (lowered ch2) then
      let out ← walk.out.write walk.idx (lowered ch2)
      let walk := { walk with out := out, idx := walk.idx + 1 }
      if walk.idx = n then pure walk else labelLoop src n ch walk
    else labelLoop src n ch walk

/-- `for(; idx < n;)` in `dns_dn_to_dot`. -/
def dnToDotLoop (src : Region) (n : Nat) : Nat → DotWalk → Except Fault DotWalk
  | 0, _ => .error .endless
  | turns + 1, walk =>
    if walk.idx < n then do
      let ch ← src.read walk.d
      let walk ← labelLoop src n ch.toNat { walk with d := walk.d + 1 }
      let next ← src.read walk.d
      if next = 0 ∨ walk.idx = n then pure walk
      else
        let out ← walk.out.write walk.idx 46
        dnToDotLoop src n turns { walk with out := out, idx := walk.idx + 1 }
    else .ok walk

/-- `dns_dn_to_dot`: the length of the text, and what `out` is then. -/
def dnsDnToDot (out src : Region) (n : Nat) : Except Fault (Nat × Region) :=
  if n = 0 then .ok (0, out)
  else do
    let first ← src.read 0
    if first = 0 then
      let out ← out.write 0 0
      pure (0, out)
    else
      let walk ← dnToDotLoop src n (src.length + 1) ⟨out, 0, 0⟩
      let out ← walk.out.write walk.idx 0
      pure (walk.idx, out)

/-! ## Labels -/

/-- Labels with their lengths before them. -/
def encodeLabels (labels : List (List UInt8)) : List UInt8 :=
  labels.flatMap fun label => UInt8.ofNat label.length :: label

/-- The bytes of a label that belong in a host name. -/
def keptBytes (label : List UInt8) : List UInt8 :=
  (label.map lowered).filter isKept

/-- Labels with dots between them. -/
def dotText (labels : List (List UInt8)) : List UInt8 :=
  [46].intercalate labels

@[simp]
theorem encodeLabels_cons (label : List UInt8) (labels : List (List UInt8)) :
    encodeLabels (label :: labels) =
      UInt8.ofNat label.length :: (label ++ encodeLabels labels) := by
  rw [encodeLabels, List.flatMap_cons, List.cons_append, encodeLabels]

theorem dotText_cons_cons (label next : List UInt8) (labels : List (List UInt8)) :
    dotText (label :: next :: labels) = label ++ 46 :: dotText (next :: labels) := by
  rw [dotText, dotText, List.intercalate_cons_cons, List.append_assoc]
  rfl

theorem keptBytes_cons (ch : UInt8) (label : List UInt8) :
    keptBytes (ch :: label) =
      if isKept (lowered ch) then lowered ch :: keptBytes label else keptBytes label := by
  rw [keptBytes, List.map_cons, List.filter_cons]
  rfl

theorem keptBytes_eq_self {label : List UInt8} (plain : ∀ ch ∈ label, lowered ch = ch ∧ isKept ch) :
    keptBytes label = label := by
  rw [keptBytes, List.map_congr_left (fun ch member => (plain ch member).1), List.map_id',
    List.filter_eq_self]
  exact fun ch member => (plain ch member).2

/-! ## The text of a name -/

/-- The text that `dns_dn_to_dot` has written, with the cells behind it. -/
structure Writes (walk : DotWalk) (text : List UInt8) (rest : Region) : Prop where
  out : walk.out = Region.ofBytes text ++ rest
  idx : walk.idx = text.length

variable {src rest behind : Region} {n : Nat} {front label text : List UInt8}

theorem labelLoop_kept {walk : DotWalk} {ch : UInt8} (reads : src.read walk.d = .ok ch)
    (kept : isKept (lowered ch)) (cell : Option UInt8) (writes : Writes walk text (cell :: rest))
    (left : Nat) : labelLoop src n (left + 1) walk =
      if text.length + 1 = n then
        .ok ⟨Region.ofBytes (text ++ [lowered ch]) ++ rest, text.length + 1, walk.d + 1⟩
      else
        labelLoop src n left
          ⟨Region.ofBytes (text ++ [lowered ch]) ++ rest, text.length + 1, walk.d + 1⟩ := by
  rw [labelLoop, reads]
  change (if isKept (lowered ch) = true then (Region.write _ _ _ >>= _) else _) = _
  rw [if_pos kept, writes.out, writes.idx, Region.write_next]
  rfl

theorem labelLoop_dropped {walk : DotWalk} {ch : UInt8} (reads : src.read walk.d = .ok ch)
    (dropped : ¬ isKept (lowered ch)) (left : Nat) :
    labelLoop src n (left + 1) walk = labelLoop src n left { walk with d := walk.d + 1 } := by
  rw [labelLoop, reads]
  change (if isKept (lowered ch) = true then _ else _) = _
  rw [if_neg dropped]

/-- A label goes to the text, or as much of it as there is room for. -/
theorem labelLoop_cases {walk : DotWalk} (source : src = Region.ofBytes (front ++ label) ++ behind)
    (at_label : walk.d = front.length) (writes : Writes walk text rest) (below : text.length < n)
    (room : n ≤ text.length + rest.length) :
    (text.length + (keptBytes label).length < n ∧
      labelLoop src n label.length walk =
        .ok ⟨Region.ofBytes (text ++ keptBytes label) ++ rest.drop (keptBytes label).length,
          text.length + (keptBytes label).length, front.length + label.length⟩) ∨
    n ≤ text.length + (keptBytes label).length ∧
      ∃ out d, labelLoop src n label.length walk = .ok ⟨out, n, d⟩ ∧
        out.length = text.length + rest.length ∧ d ≤ front.length + label.length := by
  induction label generalizing front text rest walk with
  | nil =>
      refine .inl ⟨below, ?_⟩
      obtain ⟨out, idx, d⟩ := walk
      have outEq := writes.out
      have idxEq := writes.idx
      dsimp only at outEq idxEq at_label
      subst outEq idxEq at_label
      simp [labelLoop, keptBytes]
  | cons ch label ih =>
      have reads : src.read walk.d = .ok ch := by
        rw [source, at_label]
        exact Region.read_front (by simp)
      have source' : src = Region.ofBytes ((front ++ [ch]) ++ label) ++ behind := by
        simpa using source
      rw [keptBytes_cons, List.length_cons]
      by_cases kept : isKept (lowered ch) = true
      · rw [if_pos kept]
        cases rest with
        | nil => simp only [List.length_nil] at room; omega
        | cons cell rest =>
            rw [labelLoop_kept reads kept cell writes]
            by_cases full : text.length + 1 = n
            · right
              rw [if_pos full, full, at_label]
              refine ⟨?_, _, _, rfl, ?_, ?_⟩
              · rw [List.length_cons]
                omega
              · simp only [List.length_append, Region.length_ofBytes, List.length_cons,
                  List.length_nil]
                omega
              · omega
            · rw [if_neg full]
              rw [List.length_cons] at room
              have size : (text ++ [lowered ch]).length = text.length + 1 := List.length_append
              have at_later : (⟨Region.ofBytes (text ++ [lowered ch]) ++ rest, text.length + 1,
                  walk.d + 1⟩ : DotWalk).d = (front ++ [ch]).length := by
                simpa using at_label
              have later := ih source' at_later ⟨rfl, size.symm⟩ (by omega) (by omega)
              simpa [Nat.add_assoc, Nat.add_comm 1] using later
      · rw [if_neg kept, labelLoop_dropped reads kept]
        have at_later : ({ walk with d := walk.d + 1 } : DotWalk).d = (front ++ [ch]).length := by
          simpa using at_label
        have later := ih source' at_later ⟨writes.out, writes.idx⟩ below room
        simpa [Nat.add_assoc, Nat.add_comm 1] using later

/-- The text that `dns_dn_to_dot` makes of labels. -/
def keptText (labels : List (List UInt8)) : List UInt8 :=
  dotText (labels.map keptBytes)

/-- Labels that a name in a packet can have. -/
def AreLabels (labels : List (List UInt8)) : Prop :=
  ∀ label ∈ labels, label ≠ [] ∧ label.length < 256

theorem dnToDotLoop_turn {walk walk' : DotWalk} {ch next : UInt8} (below : walk.idx < n)
    (reads : src.read walk.d = .ok ch)
    (label : labelLoop src n ch.toNat { walk with d := walk.d + 1 } = .ok walk')
    (reads' : src.read walk'.d = .ok next) (turns : Nat) :
    dnToDotLoop src n (turns + 1) walk =
      if next = 0 ∨ walk'.idx = n then .ok walk'
      else walk'.out.write walk'.idx 46 >>= fun out =>
        dnToDotLoop src n turns { walk' with out := out, idx := walk'.idx + 1 } := by
  rw [dnToDotLoop, if_pos below, reads]
  change (labelLoop src n ch.toNat _ >>= _) = _
  rw [label]
  change (src.read walk'.d >>= _) = _
  rw [reads']
  rfl

theorem dnToDotLoop_full {walk : DotWalk} (full : ¬ walk.idx < n) (turns : Nat) :
    dnToDotLoop src n (turns + 1) walk = .ok walk := by
  rw [dnToDotLoop, if_neg full]

theorem keptText_cons_cons (label next : List UInt8) (labels : List (List UInt8)) :
    keptText (label :: next :: labels) = keptBytes label ++ 46 :: keptText (next :: labels) :=
  dotText_cons_cons (keptBytes label) (keptBytes next) (labels.map keptBytes)

theorem ofNat_length_ne_zero (some : label ≠ []) (short : label.length < 256) :
    UInt8.ofNat label.length ≠ 0 := by
  intro zero
  have none := congrArg UInt8.toNat zero
  rw [UInt8.toNat_ofNat_of_lt' short] at none
  exact some (List.length_eq_zero_iff.mp none)

/-- Up to the byte behind a label everything can be read. -/
theorem read_behind {tail : List UInt8} {d : Nat}
    (source : src = Region.ofBytes (front ++ label) ++ (Region.ofBytes tail ++ behind))
    (some : tail ≠ []) (inside : d ≤ front.length + label.length) :
    ∃ next, src.read d = .ok next ∧
      (d = front.length + label.length → tail[0]? = Option.some next) := by
  have within : d < (front ++ label ++ tail).length := by
    have positive := List.length_pos_iff.mpr some
    rw [List.length_append, List.length_append]
    omega
  obtain ⟨next, at_d⟩ : ∃ next, (front ++ label ++ tail)[d]? = Option.some next :=
    ⟨_, List.getElem?_eq_getElem within⟩
  refine ⟨next, ?_, fun last => ?_⟩
  · rw [source, ← List.append_assoc, ← Region.ofBytes_append]
    exact Region.read_front at_d
  · rw [last, List.getElem?_append_right (by simp)] at at_d
    simpa using at_d

/-- The loop writes the text of the labels that are left, or as much of it as there is room
for. -/
theorem dnToDotLoop_cases {label : List UInt8} {labels : List (List UInt8)} {turns : Nat}
    {walk : DotWalk} (areLabels : AreLabels (label :: labels))
    (source : src = Region.ofBytes (front ++ encodeLabels (label :: labels) ++ [0]) ++ behind)
    (at_label : walk.d = front.length) (writes : Writes walk text rest) (below : text.length < n)
    (room : n ≤ text.length + rest.length) (enough : labels.length < turns) :
    (text.length + (keptText (label :: labels)).length < n ∧
      ∃ d, dnToDotLoop src n turns walk =
        .ok ⟨Region.ofBytes (text ++ keptText (label :: labels)) ++
          rest.drop (keptText (label :: labels)).length,
          text.length + (keptText (label :: labels)).length, d⟩) ∨
    n ≤ text.length + (keptText (label :: labels)).length ∧
      ∃ out d, dnToDotLoop src n turns walk = .ok ⟨out, n, d⟩ ∧
        out.length = text.length + rest.length := by
  induction turns generalizing label labels front text rest walk with
  | zero => exact absurd enough (Nat.not_lt_zero _)
  | succ turns ih =>
      obtain ⟨some, short⟩ := areLabels label List.mem_cons_self
      have size : (UInt8.ofNat label.length).toNat = label.length := UInt8.toNat_ofNat_of_lt' short
      have reads : src.read walk.d = .ok (UInt8.ofNat label.length) := by
        rw [source, at_label]
        exact Region.read_front (by simp)
      have source' : src = Region.ofBytes ((front ++ [UInt8.ofNat label.length]) ++ label) ++
          (Region.ofBytes (encodeLabels labels ++ [0]) ++ behind) := by
        rw [source, ← List.append_assoc, ← Region.ofBytes_append]
        simp
      have at_bytes : ({ walk with d := walk.d + 1 } : DotWalk).d =
          (front ++ [UInt8.ofNat label.length]).length := by
        simpa using at_label
      have inRegion : encodeLabels labels ++ [0] ≠ [] := by simp
      rcases labelLoop_cases source' at_bytes ⟨writes.out, writes.idx⟩ below room with
        ⟨fits, result⟩ | ⟨full, out, d, result, sizes, inside⟩
      · obtain ⟨next, reads', isNext⟩ := read_behind source' inRegion (Nat.le_refl _)
        rw [dnToDotLoop_turn (by rw [writes.idx]; exact below) reads (by rw [size]; exact result)
          reads']
        have first := isNext rfl
        cases labels with
        | nil =>
            left
            have zero : next = 0 := (Option.some.inj first).symm
            have same : keptText [label] = keptBytes label := by simp [keptText, dotText]
            rw [if_pos (.inl zero), same]
            exact ⟨fits, _, rfl⟩
        | cons after labels =>
            obtain ⟨someAfter, shortAfter⟩ := areLabels after (by simp)
            have isLength : next = UInt8.ofNat after.length := (Option.some.inj first).symm
            have notRoot : next ≠ 0 := by
              rw [isLength]
              exact ofNat_length_ne_zero someAfter shortAfter
            rw [if_neg (not_or.mpr ⟨notRoot, Nat.ne_of_lt fits⟩), keptText_cons_cons]
            obtain ⟨cell, cells⟩ : ∃ cell, rest.drop (keptBytes label).length =
                cell :: rest.drop ((keptBytes label).length + 1) :=
              ⟨_, List.drop_eq_getElem_cons (by omega)⟩
            have written := @Region.write_next (text ++ keptBytes label)
              (rest.drop ((keptBytes label).length + 1)) cell 46
            rw [← cells, List.length_append] at written
            have length : (text ++ keptBytes label ++ [46]).length =
                text.length + (keptBytes label).length + 1 := by simp [Nat.add_assoc]
            have length' : (keptBytes label ++ 46 :: keptText (after :: labels)).length =
                (keptBytes label).length + 1 + (keptText (after :: labels)).length := by
              rw [List.length_append, List.length_cons]
              omega
            dsimp only
            rw [written, length']
            change (_ ∧ ∃ d, dnToDotLoop src n turns ⟨_, _, _⟩ = _) ∨ _
            rw [List.length_cons] at enough
            by_cases more : (text ++ keptBytes label ++ [46]).length < n
            · have source₂ : src = Region.ofBytes (front ++ [UInt8.ofNat label.length] ++ label ++
                  encodeLabels (after :: labels) ++ [0]) ++ behind := by
                rw [source, encodeLabels_cons label]
                simp only [List.append_assoc, List.cons_append, List.nil_append]
              have later := @ih (rest.drop ((keptBytes label).length + 1))
                (front ++ [UInt8.ofNat label.length] ++ label) (text ++ keptBytes label ++ [46])
                after labels ⟨_, text.length + (keptBytes label).length + 1, _⟩
                (fun label member => areLabels label (List.mem_cons_of_mem _ member)) source₂
                (List.length_append).symm ⟨rfl, length.symm⟩ more
                (by rw [length, List.length_drop]; omega) (by omega)
              rw [length, List.length_drop] at later
              rcases later with ⟨fits', d, result'⟩ | ⟨full, out, d, result', sizes⟩
              · refine .inl ⟨by omega, d, result'.trans ?_⟩
                rw [List.drop_drop, List.append_assoc, List.append_assoc, ← Nat.add_assoc,
                  ← Nat.add_assoc]
                rfl
              · exact .inr ⟨by omega, out, d, result', by omega⟩
            · obtain ⟨turns, rfl⟩ := Nat.exists_eq_add_one.mpr (Nat.zero_lt_of_lt
                (Nat.lt_of_succ_lt_succ enough))
              obtain rfl : n = text.length + (keptBytes label).length + 1 := by omega
              refine .inr ⟨by omega, _, _, dnToDotLoop_full (Nat.lt_irrefl _) turns, ?_⟩
              simp only [List.length_append, Region.length_ofBytes, List.length_drop,
                List.length_cons, List.length_nil]
              omega
      · right
        obtain ⟨next, reads', -⟩ := read_behind source' inRegion inside
        rw [dnToDotLoop_turn (by rw [writes.idx]; exact below) reads (by rw [size]; exact result)
          reads', if_pos (.inr rfl)]
        refine ⟨?_, out, d, rfl, sizes⟩
        cases labels with
        | nil => simpa [keptText, dotText] using full
        | cons after labels =>
            rw [keptText_cons_cons, List.length_append]
            omega

theorem length_le_encodeLabels (labels : List (List UInt8)) :
    labels.length ≤ (encodeLabels labels).length := by
  induction labels with
  | nil => exact Nat.le_refl 0
  | cons label labels ih =>
      rw [encodeLabels_cons, List.length_cons, List.length_cons, List.length_append]
      omega

theorem write_end (fits : text.length < n) (sizes : text.length + rest.length = n) :
    Region.write (Region.ofBytes text ++ rest) text.length 0 =
      .ok (Region.ofBytes (text ++ [0]) ++ rest.drop 1) := by
  cases rest with
  | nil => simp only [List.length_nil] at sizes; omega
  | cons cell rest => exact Region.write_next cell 0

/-- The text of a name with its terminator, where both have room. -/
theorem dnsDnToDot_eq {out : Region} {labels : List (List UInt8)} (areLabels : AreLabels labels)
    (source : src = Region.ofBytes (encodeLabels labels ++ [0]) ++ behind)
    (sized : out.length = n) (positive : 0 < n) :
    dnsDnToDot out src n =
      if labels ≠ [] ∧ n ≤ (keptText labels).length then .error .overrun
      else .ok ((keptText labels).length,
        Region.ofBytes (keptText labels ++ [0]) ++ out.drop ((keptText labels).length + 1)) := by
  rw [dnsDnToDot, if_neg (by omega)]
  cases labels with
  | nil =>
      have reads : src.read 0 = .ok 0 := by
        rw [source]
        exact Region.read_front rfl
      have written := @write_end out n [] (by simpa using positive) (by simpa using sized)
      rw [reads, if_neg (fun both => both.1 rfl)]
      change (Region.write (Region.ofBytes [] ++ out) ([] : List UInt8).length 0 >>= _) = _
      rw [written]
      rfl
  | cons label labels =>
      obtain ⟨some, short⟩ := areLabels label List.mem_cons_self
      have reads : src.read 0 = .ok (UInt8.ofNat label.length) := by
        rw [source]
        exact Region.read_front (by simp)
      have notRoot : UInt8.ofNat label.length ≠ 0 := ofNat_length_ne_zero some short
      have enough : labels.length < src.length + 1 := by
        have length := length_le_encodeLabels (label :: labels)
        rw [source, List.length_append, Region.length_ofBytes, List.length_append]
        rw [List.length_cons] at length
        omega
      rw [reads]
      change (if UInt8.ofNat label.length = 0 then _ else (dnToDotLoop _ _ _ _ >>= _)) = _
      rw [if_neg notRoot]
      rcases @dnToDotLoop_cases src out behind n [] [] label labels _ ⟨out, 0, 0⟩ areLabels source rfl
          ⟨rfl, rfl⟩ positive (by simp [sized]) enough with
        ⟨fits, d, result⟩ | ⟨full, out', d, result, sizes⟩
      · rw [List.length_nil, Nat.zero_add] at fits result
        have written := @write_end (out.drop (keptText (label :: labels)).length) n
          (keptText (label :: labels)) fits
          (by rw [List.length_drop]; omega)
        rw [result, if_neg (fun both => absurd both.2 (Nat.not_le_of_lt fits))]
        change (Region.write _ _ 0 >>= _) = _
        rw [List.nil_append, written, List.drop_drop]
        rfl
      · rw [List.length_nil, Nat.zero_add] at full sizes
        rw [result, if_pos ⟨List.cons_ne_nil _ _, full⟩]
        change (Region.write out' n 0 >>= _) = _
        rw [Region.write, if_neg (by omega)]
        rfl

end Dns

end Chaosircd
