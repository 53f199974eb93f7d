import Chaosircd.DnsReplies

/-!
# Replies from anywhere

Whoever answers a query chooses every byte behind the identifier.  The checks hold against all
of it but one: the names in a reply are copied as texts, and then walked along by the lengths of
their labels.  A copy that ends in the middle of a label leaves the walk among bytes that were
never written, and nothing else does.
-/

namespace Chaosircd

namespace Dns

variable {res : Resolver} {buf : Packet} {pos stop n : Nat} {name text : List UInt8}

/-! ## Copied names -/

theorem drop_fresh (size n : Nat) : (Region.fresh size).drop n = Region.fresh (size - n) :=
  List.drop_replicate

/-- What a new buffer has of a name. -/
theorem dnsPacketGetname_fresh (buf : Packet) (pos : Nat) (size : 2 ≤ n) (room : n ≤ 256) :
    ((∀ name stop, ¬ HasName buf pos name stop) ∧
      dnsPacketGetname buf pos (Region.fresh 256) n = .ok (0, Region.fresh 256)) ∨
    ∃ name stop behind, HasName buf pos name stop ∧ stop ≠ 0 ∧
      dnsPacketGetname buf pos (Region.fresh 256) n =
        .ok (stop, Region.ofBytes ((textOf name).take (n - 2) ++ [0]) ++ Region.fresh behind) := by
  rcases dnsPacketGetname_cases buf pos (Region.fresh 256) n with
    ⟨none, unnamed⟩ | ⟨name, stop, has, positive, result⟩
  · exact .inl ⟨unnamed, none⟩
  · obtain ⟨pointers, named, -⟩ := id has
    have copied := @handOut_eq name (Region.fresh 256) n named.zero_mem size
      (room.trans (Region.length_fresh 256).ge)
    rw [copied, drop_fresh] at result
    exact .inr ⟨name, stop, _, has, Nat.ne_of_gt positive, result⟩

theorem not_mem_take_textOf (name : List UInt8) (n : Nat) : 0 ∉ (textOf name).take n :=
  fun member => not_mem_textOf name (List.mem_of_mem_take member)

/-- In a text without a zero no label is empty. -/
theorem WholeLabels.areLabels (whole : WholeLabels text) (noZero : 0 ∉ text) :
    ∃ labels, AreLabels labels ∧ encodeLabels labels = text := by
  obtain ⟨labels, short, rfl⟩ := whole
  refine ⟨labels, fun label member => ⟨?_, short label member⟩, rfl⟩
  rintro rfl
  exact noZero (List.mem_flatMap.mpr ⟨[], member, List.mem_cons_self⟩)

theorem wholeLabels_of_dnsDnLen {behind len : Nat} (noZero : 0 ∉ text)
    (result : dnsDnLen (Region.ofBytes (text ++ [0]) ++ Region.fresh behind) 0 = .ok len) :
    WholeLabels text := by
  obtain ⟨p, walked, -⟩ := bind_eq_ok.mp result
  exact wholeLabels_of_dnLenLoop noZero (Nat.zero_le _) walked

theorem dnsDnLen_encodeLabels {labels : List (List UInt8)} (areLabels : AreLabels labels)
    (front : List UInt8) (rest : Region) :
    dnsDnLen (Region.ofBytes (front ++ encodeLabels labels ++ [0]) ++ rest) front.length =
      .ok (encodeLabels labels ++ [0]).length := by
  have enough : labels.length <
      (Region.ofBytes (front ++ encodeLabels labels ++ [0]) ++ rest).length + 1 := by
    have length := length_le_encodeLabels labels
    simp only [List.length_append, Region.length_ofBytes]
    omega
  rw [dnsDnLen, dnLenLoop_encodeLabels areLabels rfl enough]
  change Except.ok _ = _
  rw [Nat.add_sub_cancel_left]

/-! ## The comparison with the query -/

/-- A name in the letters in which it is compared. -/
def foldCase (name : List UInt8) : List UInt8 :=
  name.map lowered

theorem dnsCmpEq_eq {a b : List UInt8} {rest rest' : Region} {i j : Nat} (inside : i + n ≤ a.length)
    (inside' : j + n ≤ b.length) :
    dnsCmpEq (Region.ofBytes a ++ rest) i (Region.ofBytes b ++ rest') j n =
      .ok (decide (foldCase ((a.drop i).take n) = foldCase ((b.drop j).take n))) := by
  induction n generalizing i j with
  | zero => simp [dnsCmpEq, foldCase]
  | succ n ih =>
      have below : i < a.length := by omega
      have below' : j < b.length := by omega
      rw [dnsCmpEq, Region.read_front (List.getElem?_eq_getElem below),
        Region.read_front (List.getElem?_eq_getElem below')]
      change (if lowered a[i] ≠ lowered b[j] then pure false else dnsCmpEq _ _ _ _ n) = _
      rw [@ih (i + 1) (j + 1) (by omega) (by omega), List.drop_eq_getElem_cons below,
        List.drop_eq_getElem_cons below', List.take_succ_cons, List.take_succ_cons]
      by_cases same : lowered a[i] = lowered b[j]
      · rw [if_neg (not_not.mpr same)]
        simp [foldCase, same]
      · rw [if_pos same]
        simp [foldCase, same]
        rfl

/-- The name in `&res->query[14]`, with its root. -/
def Resolver.asked (res : Resolver) : List UInt8 :=
  if res.domain = [] then [0] else res.domain

/-- The query is a header, what is asked and what is behind it. -/
theorem Resolver.exists_query (res : Resolver) : ∃ front labels rest, front.length = 14 ∧
    AreLabels labels ∧ res.asked = encodeLabels labels ++ [0] ∧
    res.query = front ++ res.asked ++ rest := by
  have header : ([UInt8.ofNat ((res.domain.length + 16) / 256), UInt8.ofNat (res.domain.length + 16)] ++
      res.id ++ [1, 0, 0, 1, 0, 0, 0, 0, 0, 0]).length = 14 := by
    simp [res.idFits]
  rcases res.isName with none | ⟨labels, areLabels, named⟩
  · refine ⟨_, [], res.lookup.type.tail ++ [0, 1], header, by simp [AreLabels], ?_, ?_⟩
    · rw [Resolver.asked, if_pos none]
      rfl
    · rw [Resolver.asked, if_pos none, Resolver.query, none]
      cases res.lookup <;> simp [Lookup.type]
  · have some : res.domain ≠ [] := by simp [named]
    refine ⟨_, labels, res.lookup.type ++ [0, 1], header, areLabels, ?_, ?_⟩
    · rw [Resolver.asked, if_neg some, named]
    · rw [Resolver.asked, if_neg some, Resolver.query]
      simp only [List.append_assoc]

theorem exists_error {α : Type} {x : Except Fault α} (never : ∀ a, x ≠ .ok a) :
    ∃ fault, x = .error fault := by
  cases x with
  | error fault => exact ⟨fault, rfl⟩
  | ok a => exact absurd rfl (never a)

/-- A copied name is compared with the one that was asked for, where its labels are whole. -/
theorem dnsDnCmp_query {behind : Nat} (noZero : 0 ∉ text) :
    (WholeLabels text ∧
      dnsDnCmp (Region.ofBytes (text ++ [0]) ++ Region.fresh behind) 0 (Region.ofBytes res.query)
        14 = .ok (decide (foldCase (text ++ [0]) = foldCase res.asked))) ∨
    ¬ WholeLabels text ∧ ∃ fault,
      dnsDnCmp (Region.ofBytes (text ++ [0]) ++ Region.fresh behind) 0 (Region.ofBytes res.query)
        14 = .error fault := by
  by_cases whole : WholeLabels text
  · refine .inl ⟨whole, ?_⟩
    obtain ⟨labels, areLabels, rfl⟩ := whole.areLabels noZero
    obtain ⟨front, labels', rest, size, areLabels', asked, query⟩ := res.exists_query
    have length := dnsDnLen_encodeLabels areLabels [] (Region.fresh behind)
    have length' := dnsDnLen_encodeLabels areLabels' front (Region.ofBytes rest)
    have source : Region.ofBytes (front ++ encodeLabels labels' ++ [0]) ++ Region.ofBytes rest =
        Region.ofBytes res.query := by
      rw [query, asked, ← Region.ofBytes_append]
      simp only [List.append_assoc]
    rw [source, size] at length'
    rw [List.nil_append, List.length_nil] at length
    rw [dnsDnCmp, length, Fault.ok_bind, length', Fault.ok_bind, asked]
    by_cases same : (encodeLabels labels ++ [0]).length = (encodeLabels labels' ++ [0]).length
    · have inQuery : 14 + (encodeLabels labels ++ [0]).length ≤ res.query.length := by
        rw [query, asked, same, @List.length_append _ (front ++ _), @List.length_append _ front, size]
        exact Nat.le_add_right _ _
      have compared := @dnsCmpEq_eq (encodeLabels labels ++ [0]).length
        (encodeLabels labels ++ [0]) res.query (Region.fresh behind) [] 0 14
        (Nat.zero_add _).le inQuery
      have behind_front : (res.query.drop 14).take (encodeLabels labels ++ [0]).length =
          encodeLabels labels' ++ [0] := by
        rw [query, asked, List.append_assoc, List.drop_left' size, same, List.take_left]
      rw [List.append_nil, behind_front, List.drop_zero, List.take_length] at compared
      rw [if_neg (not_not.mpr same), compared]
    · have different : foldCase (encodeLabels labels ++ [0]) ≠
          foldCase (encodeLabels labels' ++ [0]) := by
        intro folded
        have lengths := congrArg List.length folded
        rw [foldCase, foldCase, List.length_map, List.length_map] at lengths
        exact same lengths
      rw [if_pos same, decide_eq_false different]
      rfl
  · refine .inr ⟨whole, exists_error fun same result => whole ?_⟩
    obtain ⟨len, length, -⟩ := bind_eq_ok.mp result
    exact wholeLabels_of_dnsDnLen noZero length

/-! ## The check -/

/-- The header of a reply to the query. -/
def HeaderMatches (res : Resolver) (buf : Packet) : Prop :=
  12 ≤ buf.len ∧ bytesAt buf 0 2 = res.id ∧ bytesAt buf 4 2 = [0, 1]

/-- The first labels of a name, as far as they are copied to `n` bytes, are whole. -/
def CopiedWhole (buf : Packet) (n pos : Nat) : Prop :=
  ∀ name stop, HasName buf pos name stop → WholeLabels ((textOf name).take (n - 2))

/-- The question of the query is in the reply. -/
def QuestionMatches (res : Resolver) (buf : Packet) : Prop :=
  ∃ name stop, HasName buf 12 name stop ∧
    foldCase ((textOf name).take 254 ++ [0]) = foldCase res.asked ∧
    bytesAt buf stop 4 = res.lookup.type ++ [0, 1]

/-- A type and a class are looked for in the first bytes of a record. -/
theorem isRecord_eq {type front : List UInt8} {rest : Region} (two : type.length = 2)
    (some : 4 ≤ front.length) : isRecord type (Region.ofBytes front ++ rest) =
      .ok (decide (front.take 4 = type ++ [0, 1])) := by
  have compared := @memcmpEq_eq 2 front type rest [] 0 0 (by omega) (by omega)
  have compared' := @memcmpEq_eq 2 front [0, 1] rest [] 2 0 (by omega) (Nat.le_refl 2)
  rw [List.append_nil, List.drop_zero, List.drop_zero, ← two, List.take_length, two] at compared
  rw [List.append_nil] at compared'
  have pieces : front.take 4 = front.take 2 ++ (front.drop 2).take 2 := by
    rw [← List.take_add]
  have size : (front.take 2).length = type.length := by
    rw [List.length_take, two]
    omega
  rw [isRecord, compared]
  change (if decide (front.take 2 = type) = true then memcmpEq _ 2 _ 0 2 else Except.ok false) = _
  rw [compared', pieces]
  by_cases same : front.take 2 = type
  · rw [if_pos (decide_eq_true same), same]
    congr 1
    simp
  · rw [if_neg (by simpa using same), decide_eq_false]
    intro whole
    exact same (List.append_inj whole size).1

theorem dnsPacketCopy_header (buf : Packet) :
    (12 ≤ buf.len ∧ dnsPacketCopy buf 0 (Region.fresh 12) 12 =
      .ok (12, Region.ofBytes (bytesAt buf 0 12))) ∨
    buf.len < 12 ∧ ∃ out, dnsPacketCopy buf 0 (Region.fresh 12) 12 = .ok (0, out) := by
  rcases @dnsPacketCopy_cases buf 0 (Region.fresh 12) 12 (Region.length_fresh 12).ge (by decide)
    with ⟨inside, result⟩ | short
  · refine .inl ⟨by omega, ?_⟩
    rw [drop_fresh] at result
    exact result.trans (by rw [Region.fresh, List.replicate_zero, List.append_nil])
  · exact .inr (by simpa using short)

theorem headerMatches_eq (enough : 12 ≤ buf.len) :
    headerMatches res (Region.ofBytes (bytesAt buf 0 12)) =
      .ok (decide (bytesAt buf 0 2 = res.id ∧ bytesAt buf 4 2 = [0, 1])) := by
  obtain ⟨high, at_high⟩ := Packet.exists_of_lt (show 4 < buf.len by omega)
  obtain ⟨low, at_low⟩ := Packet.exists_of_lt (show 5 < buf.len by omega)
  have header (i : Nat) (below : i < 12) : (bytesAt buf 0 12)[i]? = buf.bytes[i]? := by
    rw [bytesAt, List.drop_zero, List.getElem?_take_of_lt below]
  have size : (bytesAt buf 0 12).length = 12 := length_bytesAt (by omega)
  have inQuery : 4 ≤ res.query.length := by
    simp [Resolver.query, res.idFits]
  have compared := @memcmpEq_eq 2 (bytesAt buf 0 12) res.query [] [] 0 2 (by omega) (by omega)
  have id : (res.query.drop 2).take 2 = res.id := by
    rw [Resolver.query]
    simp only [List.append_assoc, List.cons_append, List.nil_append, List.drop_succ_cons,
      List.drop_zero]
    exact List.take_left' res.idFits
  have front : ((bytesAt buf 0 12).drop 0).take 2 = bytesAt buf 0 2 := by
    simp [bytesAt, List.take_take]
  have counts : bytesAt buf 4 2 = [high, low] := by
    rw [bytesAt_succ at_high, bytesAt_succ at_low]
    rfl
  rw [List.append_nil, List.append_nil, id, front] at compared
  rw [headerMatches, compared, counts]
  change (if decide (bytesAt buf 0 2 = res.id) = true then
    (Region.read (Region.ofBytes (bytesAt buf 0 12)) 4 >>= _) else _) = _
  rw [Region.read_ofBytes ((header 4 (by decide)).trans at_high)]
  change (if decide (bytesAt buf 0 2 = res.id) = true then (if high ≠ 0 then Except.ok false else
    (Region.read (Region.ofBytes (bytesAt buf 0 12)) 5 >>= _)) else _) = _
  rw [Region.read_ofBytes ((header 5 (by decide)).trans at_low)]
  change (if decide (bytesAt buf 0 2 = res.id) = true then (if high ≠ 0 then Except.ok false else
    Except.ok (low == 1)) else Except.ok false) = _
  by_cases same : bytesAt buf 0 2 = res.id
  · by_cases zero : high = 0
    · simp [same, zero, beq_eq_decide]
    · simp [same, zero]
  · simp [same]

theorem le_len_of_bytesAt {bytes : List UInt8} (same : bytesAt buf pos n = bytes)
    (size : bytes.length = n) (some : n ≠ 0) : pos + n ≤ buf.len := by
  have length := congrArg List.length same
  rw [bytesAt, List.length_take, List.length_drop, size] at length
  rw [Packet.len]
  omega

theorem copiedWhole_iff (has : HasName buf pos name stop) :
    CopiedWhole buf n pos ↔ WholeLabels ((textOf name).take (n - 2)) := by
  refine ⟨fun whole => whole name stop has, fun whole name' stop' has' => ?_⟩
  obtain ⟨rfl, -⟩ := has.unique has'
  exact whole

theorem questionMatches_named {domain header : Region} (some : stop ≠ 0)
    (copied : dnsPacketGetname buf pos (Region.fresh 256) 256 = .ok (stop, domain)) :
    questionMatches res buf pos header =
      dnsDnCmp domain 0 (Region.ofBytes res.query) 14 >>= fun same =>
        if same then dnsPacketCopy buf stop header 4 >>= fun found =>
          if found.1 = 0 then .ok false else isRecord res.lookup.type found.2
        else .ok false := by
  rw [questionMatches, copied]
  exact if_neg some

/-- The question is looked at up to its end where the labels of its name are whole. -/
theorem questionMatches_cases (enough : 12 ≤ buf.len) :
    (CopiedWhole buf 256 12 ∧ ∃ asked,
      questionMatches res buf 12 (Region.ofBytes (bytesAt buf 0 12)) = .ok asked ∧
        (asked = true ↔ QuestionMatches res buf)) ∨
    ¬ CopiedWhole buf 256 12 ∧ ∃ fault,
      questionMatches res buf 12 (Region.ofBytes (bytesAt buf 0 12)) = .error fault := by
  rcases dnsPacketGetname_fresh buf 12 (show 2 ≤ 256 by decide) (Nat.le_refl 256) with
    ⟨unnamed, none⟩ | ⟨name, stop, behind, has, positive, copied⟩
  · refine .inl ⟨fun name stop has => absurd has (unnamed name stop), false, ?_, ?_⟩
    · rw [questionMatches, none]
      rfl
    · exact iff_of_false Bool.false_ne_true (fun ⟨name, stop, has, _⟩ => unnamed name stop has)
  · rw [questionMatches_named positive copied, copiedWhole_iff has]
    have matches_iff : QuestionMatches res buf ↔
        foldCase ((textOf name).take 254 ++ [0]) = foldCase res.asked ∧
          bytesAt buf stop 4 = res.lookup.type ++ [0, 1] := by
      refine ⟨fun ⟨name', stop', has', same, type⟩ => ?_,
        fun ⟨same, type⟩ => ⟨name, stop, has, same, type⟩⟩
      obtain ⟨rfl, rfl⟩ := has.unique has'
      exact ⟨same, type⟩
    rcases @dnsDnCmp_query res _ behind (not_mem_take_textOf name 254) with
      ⟨whole, result⟩ | ⟨broken, fault, result⟩
    · refine .inl ⟨whole, ?_⟩
      rw [result, matches_iff]
      by_cases same : foldCase ((textOf name).take 254 ++ [0]) = foldCase res.asked
      · rw [decide_eq_true same]
        change ∃ asked, (dnsPacketCopy buf stop _ 4 >>= _) = _ ∧ _
        have room : 4 ≤ (Region.ofBytes (bytesAt buf 0 12)).length := by
          rw [Region.length_ofBytes, length_bytesAt (by omega)]
          decide
        rcases dnsPacketCopy_cases room (by decide) with ⟨inside, result⟩ | ⟨short, out, result⟩
        · rw [result]
          change ∃ asked, (if stop + 4 = 0 then Except.ok false
            else isRecord res.lookup.type _) = _ ∧ _
          have two : res.lookup.type.length = 2 := by cases res.lookup <;> rfl
          rw [if_neg (Nat.succ_ne_zero _), isRecord_eq two (length_bytesAt inside).ge,
            List.take_of_length_le (length_bytesAt inside).le]
          exact ⟨_, rfl, by simp [same]⟩
        · refine ⟨false, by rw [result]; rfl, iff_of_false Bool.false_ne_true ?_⟩
          rintro ⟨-, type⟩
          have inside := le_len_of_bytesAt type (by cases res.lookup <;> rfl) (by decide)
          omega
      · rw [decide_eq_false same]
        exact ⟨false, rfl, iff_of_false Bool.false_ne_true (fun both => same both.1)⟩
    · exact .inr ⟨broken, fault, by rw [result]; rfl⟩

/-- A reply is checked where the labels of its question are whole, or nobody looks at them. -/
theorem dnsIrrelevant_cases (res : Resolver) (buf : Packet) :
    ((HeaderMatches res buf → CopiedWhole buf 256 12) ∧ ∃ irrelevant,
      dnsIrrelevant res buf = .ok irrelevant ∧
        (irrelevant = false ↔ HeaderMatches res buf ∧ QuestionMatches res buf)) ∨
    (HeaderMatches res buf ∧ ¬ CopiedWhole buf 256 12) ∧ ∃ fault,
      dnsIrrelevant res buf = .error fault := by
  rw [dnsIrrelevant]
  rcases dnsPacketCopy_header buf with ⟨enough, copied⟩ | ⟨short, out, copied⟩
  · rw [copied]
    change (_ ∧ ∃ irrelevant, (headerMatches res _ >>= _) = _ ∧ _) ∨
      _ ∧ ∃ fault, (headerMatches res _ >>= _) = _
    rw [headerMatches_eq enough]
    by_cases same : bytesAt buf 0 2 = res.id ∧ bytesAt buf 4 2 = [0, 1]
    · have header : HeaderMatches res buf := ⟨enough, same⟩
      rw [decide_eq_true same]
      change (_ ∧ ∃ irrelevant, (questionMatches res buf 12 _ >>= _) = _ ∧ _) ∨
        _ ∧ ∃ fault, (questionMatches res buf 12 _ >>= _) = _
      rcases @questionMatches_cases res buf enough with
        ⟨whole, asked, result, isQuestion⟩ | ⟨broken, fault, result⟩
      · refine .inl ⟨fun _ => whole, !asked, by rw [result]; rfl, ?_⟩
        rw [Bool.not_eq_false', isQuestion]
        exact (and_iff_right header).symm
      · exact .inr ⟨⟨header, broken⟩, fault, by rw [result]; rfl⟩
    · rw [decide_eq_false same]
      refine .inl ⟨fun header => absurd header.2 same, true, rfl, ?_⟩
      exact iff_of_false (by decide) (fun both => same both.1.2)
  · refine .inl ⟨fun header => absurd header.1 (Nat.not_le_of_lt short), true, ?_, ?_⟩
    · rw [copied]
      rfl
    · exact iff_of_false (by decide)
        (fun both => absurd both.1.1 (Nat.not_le_of_lt short))

/-- The bit of a reply that was cut. -/
def WantsTcp (buf : Packet) : Prop :=
  ∃ flags, buf.bytes[2]? = some flags ∧ flags &&& 0x02 ≠ 0

/-- A byte of the header. -/
theorem read_header {i : Nat} {byte : UInt8} (below : i < 12) (reads : buf.bytes[i]? = some byte) :
    Region.read (Region.ofBytes (bytesAt buf 0 12)) i = .ok byte := by
  refine Region.read_ofBytes ?_
  rw [bytesAt, List.drop_zero, List.getElem?_take_of_lt below, reads]

theorem dnsWantTcp_eq (enough : 12 ≤ buf.len) :
    ∃ wantTcp, dnsWantTcp buf = .ok wantTcp ∧ (wantTcp = true ↔ WantsTcp buf) := by
  obtain ⟨flags, at_flags⟩ := Packet.exists_of_lt (show 2 < buf.len by omega)
  rcases dnsPacketCopy_header buf with ⟨-, copied⟩ | ⟨short, -⟩
  · rw [dnsWantTcp, copied]
    change ∃ wantTcp, (Region.read (Region.ofBytes (bytesAt buf 0 12)) 2 >>= _) = _ ∧ _
    rw [read_header (by decide) at_flags]
    refine ⟨flags &&& 0x02 != 0, rfl, ?_⟩
    rw [WantsTcp, bne_iff_ne]
    refine ⟨fun set => ⟨flags, at_flags, set⟩, fun ⟨flags', again, set⟩ => ?_⟩
    cases at_flags.symm.trans again
    exact set
  · omega

theorem exists_dnsFail (enough : 12 ≤ buf.len) : ∃ closes, dnsFail buf = .ok closes := by
  obtain ⟨flags, at_flags⟩ := Packet.exists_of_lt (show 3 < buf.len by omega)
  rcases dnsPacketCopy_header buf with ⟨-, copied⟩ | ⟨short, -⟩
  · rw [dnsFail, copied]
    change ∃ closes, (Region.read (Region.ofBytes (bytesAt buf 0 12)) 3 >>= _) = _
    rw [read_header (by decide) at_flags]
    exact ⟨_, rfl⟩
  · omega

/-! ## The address in a reply -/

/-- The number in two bytes of a packet. -/
def uint16At (buf : Packet) (pos : Nat) : Nat :=
  (buf.bytes[pos]?.getD 0).toNat * 256 + (buf.bytes[pos + 1]?.getD 0).toNat

theorem dnsUint16Unpack_bytesAt {i size : Nat} (rest : Region) (below : i + 2 ≤ size)
    (inside : pos + size ≤ buf.len) :
    dnsUint16Unpack (Region.ofBytes (bytesAt buf pos size) ++ rest) i =
      .ok (uint16At buf (pos + i)) := by
  obtain ⟨high, at_high⟩ := Packet.exists_of_lt (show pos + i < buf.len by omega)
  obtain ⟨low, at_low⟩ := Packet.exists_of_lt (show pos + i + 1 < buf.len by omega)
  have copied (j : Nat) (below : j < size) : (bytesAt buf pos size)[j]? = buf.bytes[pos + j]? := by
    rw [bytesAt, List.getElem?_take_of_lt below, List.getElem?_drop]
  rw [dnsUint16Unpack_eq ((copied i (by omega)).trans at_high)
    ((copied (i + 1) (by omega)).trans at_low), uint16At, at_high, at_low]
  rfl

/-- The header of an answer. -/
theorem dnsPacketCopy_record {header : Region} (sized : header.length = 12) (pos : Nat) :
    (∃ rest, pos + 10 ≤ buf.len ∧ rest.length = 2 ∧ dnsPacketCopy buf pos header 10 =
      .ok (pos + 10, Region.ofBytes (bytesAt buf pos 10) ++ rest)) ∨
    buf.len < pos + 10 ∧ ∃ out, dnsPacketCopy buf pos header 10 = .ok (0, out) := by
  rcases @dnsPacketCopy_cases buf pos header 10 (by omega) (by decide) with ⟨inside, result⟩ | short
  · exact .inl ⟨header.drop 10, inside, by rw [List.length_drop, sized], result⟩
  · exact .inr short

theorem isRecord_bytesAt {type : List UInt8} {rest : Region} {size : Nat} (two : type.length = 2)
    (enough : 4 ≤ size) (inside : pos + size ≤ buf.len) :
    isRecord type (Region.ofBytes (bytesAt buf pos size) ++ rest) =
      .ok (decide (bytesAt buf pos 4 = type ++ [0, 1])) := by
  rw [isRecord_eq two (by rw [length_bytesAt inside]; exact enough), bytesAt, List.take_take,
    Nat.min_eq_left enough, bytesAt]

theorem extractAddrLoop_turn {header rest : Region} {numans count : Nat}
    (skips : dnsPacketSkipname buf pos = .ok stop) (some : stop ≠ 0)
    (copied : dnsPacketCopy buf stop header 10 =
      .ok (stop + 10, Region.ofBytes (bytesAt buf stop 10) ++ rest))
    (inside : stop + 10 ≤ buf.len) :
    extractAddrLoop buf n (numans + 1) count pos header =
      if bytesAt buf stop 4 = [0, 1] ++ [0, 1] ∧ uint16At buf (stop + 8) = 4 then
        dnsPacketCopy buf (stop + 10) (Region.ofBytes (bytesAt buf stop 10) ++ rest) 4 >>= fun found =>
          if found.1 = 0 then .ok none
          else if count = n then do
            let a ← found.2.read 0
            let b ← found.2.read 1
            let c ← found.2.read 2
            let d ← found.2.read 3
            pure (Option.some [a, b, c, d])
          else extractAddrLoop buf n numans (count + 1) (stop + 10 + uint16At buf (stop + 8)) found.2
      else
        extractAddrLoop buf n numans count (stop + 10 + uint16At buf (stop + 8))
          (Region.ofBytes (bytesAt buf stop 10) ++ rest) := by
  rw [extractAddrLoop, skips]
  change (if stop = 0 then Except.ok none else (dnsPacketCopy buf stop header 10 >>= _)) = _
  rw [if_neg some, copied]
  change (dnsUint16Unpack (Region.ofBytes (bytesAt buf stop 10) ++ rest) 8 >>= fun len =>
    isRecord [0, 1] (Region.ofBytes (bytesAt buf stop 10) ++ rest) >>= _) = _
  rw [dnsUint16Unpack_bytesAt rest (by decide) inside]
  change (isRecord [0, 1] (Region.ofBytes (bytesAt buf stop 10) ++ rest) >>= _) = _
  rw [isRecord_bytesAt (by rfl) (by decide) inside]
  change (if decide (_ = _) = true ∧ _ then _ else _) = _
  simp only [decide_eq_true_eq]
  rfl

theorem exists_four {bytes : List UInt8} (four : bytes.length = 4) :
    ∃ a b c d, bytes = [a, b, c, d] := by
  match bytes, four with
  | [a, b, c, d], _ => exact ⟨a, b, c, d, rfl⟩

/-- The walk along the answers for an address ends, whatever they are. -/
theorem exists_extractAddrLoop {header : Region} (sized : header.length = 12)
    (numans count pos : Nat) : ∃ found, extractAddrLoop buf n numans count pos header = .ok found := by
  induction numans generalizing header count pos with
  | zero => exact ⟨none, rfl⟩
  | succ numans ih =>
      obtain ⟨stop, skips, -⟩ := exists_dnsPacketSkipname buf pos
      by_cases nothing : stop = 0
      · refine ⟨none, ?_⟩
        rw [extractAddrLoop, skips]
        exact if_pos nothing
      · rcases @dnsPacketCopy_record buf header sized stop with
          ⟨rest, inside, size, copied⟩ | ⟨short, out, copied⟩
        · rw [extractAddrLoop_turn skips nothing copied inside]
          have length : (Region.ofBytes (bytesAt buf stop 10) ++ rest).length = 12 := by
            rw [List.length_append, Region.length_ofBytes, length_bytesAt inside, size]
          split
          · rcases @dnsPacketCopy_cases buf (stop + 10) (Region.ofBytes (bytesAt buf stop 10) ++ rest)
              4 (by omega) (by decide) with ⟨inside', result⟩ | ⟨short, out, result⟩
            · rw [result]
              change ∃ found, (if stop + 10 + 4 = 0 then Except.ok none else _) = _
              rw [if_neg (Nat.succ_ne_zero _)]
              split
              · obtain ⟨a, b, c, d, four⟩ := exists_four (length_bytesAt inside')
                rw [four]
                exact ⟨_, rfl⟩
              · refine ih ?_ _ _
                rw [List.length_append, Region.length_ofBytes, length_bytesAt inside',
                  List.length_drop, length]
            · rw [result]
              exact ⟨none, rfl⟩
          · exact ih length _ _
        · refine ⟨none, ?_⟩
          rw [extractAddrLoop, skips]
          change (if stop = 0 then Except.ok none else (dnsPacketCopy buf stop header 10 >>= _)) = _
          rw [if_neg nothing, copied]
          rfl

theorem dnsUint16Unpack_header (enough : 12 ≤ buf.len) {i : Nat} (below : i + 2 ≤ 12) :
    dnsUint16Unpack (Region.ofBytes (bytesAt buf 0 12)) i = .ok (uint16At buf i) := by
  have unpacked := @dnsUint16Unpack_bytesAt buf 0 i 12 [] below (by omega)
  rwa [List.append_nil, Nat.zero_add] at unpacked

/-- An address is looked for in any reply. -/
theorem exists_dnsExtractAddr (buf : Packet) (n : Nat) :
    ∃ found, dnsExtractAddr buf n = .ok found := by
  rw [dnsExtractAddr]
  rcases dnsPacketCopy_header buf with ⟨enough, copied⟩ | ⟨short, out, copied⟩
  · obtain ⟨stop, skips, -⟩ := exists_dnsPacketSkipname buf 12
    have size : (Region.ofBytes (bytesAt buf 0 12)).length = 12 := by
      rw [Region.length_ofBytes, length_bytesAt (by omega)]
    rw [copied]
    change ∃ found, (dnsUint16Unpack (Region.ofBytes (bytesAt buf 0 12)) 6 >>= fun numans =>
      dnsPacketSkipname buf 12 >>= _) = _
    rw [dnsUint16Unpack_header enough (by decide), skips]
    change ∃ found, (if stop = 0 then Except.ok none else if uint16At buf 6 ≤ n then Except.ok none
      else extractAddrLoop buf n (uint16At buf 6) 0 (stop + 4) _) = _
    split
    · exact ⟨none, rfl⟩
    · split
      · exact ⟨none, rfl⟩
      · exact exists_extractAddrLoop size _ _ _
  · rw [copied]
    exact ⟨none, rfl⟩

/-! ## The name in a reply -/

/-- A label that is not left early is walked along to its end. -/
theorem labelLoop_ok {src : Region} {left : Nat} {walk walk' : DotWalk}
    (result : labelLoop src n left walk = .ok walk') (below : walk.idx < walk.d) :
    walk'.idx < walk'.d ∧ (walk'.idx = n ∨ walk'.d = walk.d + left) := by
  induction left generalizing walk with
  | zero =>
      cases result
      exact ⟨below, .inr rfl⟩
  | succ left ih =>
      obtain ⟨ch, reads, next⟩ := bind_eq_ok.mp result
      by_cases kept : isKept (lowered ch) = true
      · rw [if_pos kept] at next
        obtain ⟨out, -, next⟩ := bind_eq_ok.mp next
        by_cases full : walk.idx + 1 = n
        · rw [if_pos full] at next
          cases next
          exact ⟨Nat.succ_lt_succ below, .inl full⟩
        · rw [if_neg full] at next
          obtain ⟨below', reached⟩ := ih next (Nat.succ_lt_succ below)
          refine ⟨below', reached.imp_right fun same => ?_⟩
          rw [same, Nat.add_assoc, Nat.add_comm 1]
      · rw [if_neg kept] at next
        obtain ⟨below', reached⟩ := ih next (Nat.lt_succ_of_lt below)
        refine ⟨below', reached.imp_right fun same => ?_⟩
        rw [same, Nat.add_assoc, Nat.add_comm 1]

theorem position_of_read {behind p : Nat} {c : UInt8}
    (reads : Region.read (Region.ofBytes (text ++ [0]) ++ Region.fresh behind) p = .ok c) :
    p ≤ text.length := by
  rcases read_text_cases reads with ⟨last, -⟩ | ⟨below, -⟩
  · exact last.le
  · exact below.le

/-- A text is made only from whole labels; the output is longer than what is walked along, so that
no label is left early. -/
theorem wholeLabels_of_dnToDotLoop {behind turns : Nat} {walk walk' : DotWalk} (noZero : 0 ∉ text)
    (fits : text.length < n) (inside : walk.idx ≤ walk.d) (bounded : walk.d ≤ text.length)
    (result : dnToDotLoop (Region.ofBytes (text ++ [0]) ++ Region.fresh behind) n turns walk =
      .ok walk') : WholeLabels (text.drop walk.d) := by
  induction turns generalizing walk with
  | zero => cases result
  | succ turns ih =>
      rw [dnToDotLoop, if_pos (by omega)] at result
      obtain ⟨ch, reads, result⟩ := bind_eq_ok.mp result
      obtain ⟨walk₁, labelled, result⟩ := bind_eq_ok.mp result
      obtain ⟨next, reads', result⟩ := bind_eq_ok.mp result
      obtain ⟨below, reached⟩ := labelLoop_ok labelled (Nat.lt_succ_of_le inside)
      have bounded' : walk₁.d ≤ text.length := position_of_read reads'
      have full : walk₁.idx ≠ n := by omega
      have stands : walk₁.d = walk.d + 1 + ch.toNat := reached.resolve_left full
      rcases read_text_cases reads with ⟨last, -⟩ | ⟨here, at_d⟩
      · omega
      · have later : WholeLabels (text.drop walk₁.d) := by
          rcases read_text_cases reads' with ⟨last, -⟩ | ⟨below', at_next⟩
          · rw [last, List.drop_length]
            exact .nil
          · have notRoot : next ≠ 0 := fun zero => noZero (zero ▸ List.mem_of_getElem? at_next)
            rw [if_neg (not_or.mpr ⟨notRoot, full⟩)] at result
            obtain ⟨out, -, result⟩ := bind_eq_ok.mp result
            exact @ih { walk₁ with out := out, idx := walk₁.idx + 1 } below bounded' result
        rw [stands, ← List.drop_drop] at later
        rw [List.drop_eq_getElem_cons here,
          Option.some.inj ((List.getElem?_eq_getElem here).symm.trans at_d)]
        refine .cons ?_ later
        rw [List.length_drop]
        omega

theorem length_keptText_le (labels : List (List UInt8)) :
    (keptText labels).length ≤ (encodeLabels labels).length := by
  induction labels with
  | nil => exact Nat.le_refl 0
  | cons label labels ih =>
      have kept : (keptBytes label).length ≤ label.length := by
        rw [keptBytes]
        exact (List.length_filter_le _ _).trans (List.length_map _).le
      rw [encodeLabels_cons, List.length_cons, List.length_append]
      cases labels with
      | nil =>
          have same : keptText [label] = keptBytes label := by simp [keptText, dotText]
          rw [same]
          omega
      | cons next labels =>
          rw [keptText_cons_cons, List.length_append, List.length_cons]
          omega

theorem zero_not_mem_keptText (labels : List (List UInt8)) : 0 ∉ keptText labels := by
  have plain (label : List UInt8) : 0 ∉ keptBytes label := fun member => by
    have kept := (List.mem_filter.mp member).2
    exact absurd kept (by decide)
  induction labels with
  | nil => simp [keptText, dotText]
  | cons label labels ih =>
      cases labels with
      | nil =>
          have same : keptText [label] = keptBytes label := by simp [keptText, dotText]
          rw [same]
          exact plain label
      | cons next labels =>
          rw [keptText_cons_cons]
          intro member
          rcases List.mem_append.mp member with member | member
          · exact plain label member
          · rcases List.mem_cons.mp member with dot | member
            · exact absurd dot (by decide)
            · exact ih member

/-- The text of a copied name is made where its labels are whole. -/
theorem dnsDnToDot_copied {behind : Nat} (noZero : 0 ∉ text) (fits : text.length < 256) :
    (WholeLabels text ∧ ∃ host rest, 0 ∉ host ∧
      dnsDnToDot (Region.fresh 256) (Region.ofBytes (text ++ [0]) ++ Region.fresh behind) 256 =
        .ok (host.length, Region.ofBytes (host ++ [0]) ++ rest)) ∨
    ¬ WholeLabels text ∧ ∃ fault,
      dnsDnToDot (Region.fresh 256) (Region.ofBytes (text ++ [0]) ++ Region.fresh behind) 256 =
        .error fault := by
  by_cases whole : WholeLabels text
  · refine .inl ⟨whole, ?_⟩
    obtain ⟨labels, areLabels, rfl⟩ := whole.areLabels noZero
    have short := length_keptText_le labels
    have result := @dnsDnToDot_eq _ (Region.fresh behind) 256 (Region.fresh 256) labels areLabels rfl
      (Region.length_fresh 256) (by decide)
    rw [if_neg (fun both => absurd both.2 (by omega))] at result
    exact ⟨_, _, zero_not_mem_keptText labels, result⟩
  · refine .inr ⟨whole, exists_error fun found result => whole ?_⟩
    rw [dnsDnToDot, if_neg (by decide)] at result
    obtain ⟨first, reads, result⟩ := bind_eq_ok.mp result
    rcases read_text_cases reads with ⟨last, -⟩ | ⟨-, at_first⟩
    · rw [List.length_eq_zero_iff.mp last.symm]
      exact .nil
    · have some : first ≠ 0 := fun zero => noZero (zero ▸ List.mem_of_getElem? at_first)
      rw [if_neg some] at result
      obtain ⟨walk, walked, -⟩ := bind_eq_ok.mp result
      exact wholeLabels_of_dnToDotLoop noZero fits (Nat.le_refl 0) (Nat.zero_le _) walked

theorem strDupLoop_eq {front host : List UInt8} {region rest : Region} {cells : Nat}
    (source : region = Region.ofBytes (front ++ host ++ [0]) ++ rest) (noZero : 0 ∉ host)
    (enough : host.length < cells) : strDupLoop region cells front.length = .ok host := by
  induction host generalizing front cells with
  | nil =>
      obtain ⟨cells, rfl⟩ := Nat.exists_eq_add_one.mpr (Nat.zero_lt_of_lt enough)
      have reads : region.read front.length = .ok 0 := by
        rw [source]
        exact Region.read_front (by simp)
      rw [strDupLoop, reads]
      rfl
  | cons ch host ih =>
      obtain ⟨cells, rfl⟩ := Nat.exists_eq_add_one.mpr (Nat.zero_lt_of_lt enough)
      have reads : region.read front.length = .ok ch := by
        rw [source]
        exact Region.read_front (by simp)
      have some : ch ≠ 0 := fun zero => noZero (zero ▸ List.mem_cons_self)
      have source' : region = Region.ofBytes ((front ++ [ch]) ++ host ++ [0]) ++ rest := by
        rw [source]
        simp
      have later := ih source' (fun member => noZero (List.mem_cons_of_mem _ member))
        (Nat.lt_of_succ_lt_succ enough)
      rw [List.length_append, List.length_singleton] at later
      rw [strDupLoop, reads]
      change (if ch = 0 then Except.ok [] else (strDupLoop region cells _ >>= _)) = _
      rw [if_neg some, later]
      rfl

theorem EndsAt.ne_zero (ends : EndsAt buf pos stop) : stop ≠ 0 := by
  induction ends with
  | root => exact Nat.succ_ne_zero _
  | label _ _ _ _ ih => exact ih
  | pointer => exact Nat.succ_ne_zero _

/-- Where the name is that an answer among so many gives. -/
inductive PtrAt (buf : Packet) : Nat → Nat → Nat → Prop
  | here {numans pos stop : Nat} (ends : EndsAt buf pos stop) (inside : stop + 10 ≤ buf.len)
      (isPtr : bytesAt buf stop 4 = [0, 12] ++ [0, 1]) :
      PtrAt buf (numans + 1) pos (stop + 10)
  | later {numans pos stop place : Nat} (ends : EndsAt buf pos stop) (inside : stop + 10 ≤ buf.len)
      (other : bytesAt buf stop 4 ≠ [0, 12] ++ [0, 1])
      (there : PtrAt buf numans (stop + 10 + uint16At buf (stop + 8)) place) :
      PtrAt buf (numans + 1) pos place

/-- What is done with the name of an answer. -/
def ptrName (buf : Packet) (out : Region) (len pos : Nat) : Except Fault (Int × Region) := do
  let (stop, name) ← dnsPacketGetname buf pos (Region.fresh 256) 255
  if stop = 0 then pure (-1, out)
  else
    let (length, out) ← dnsDnToDot out name len
    if length = 0 then pure (-1, out) else pure (1, out)

variable {numans len : Nat} {header out rest : Region}

theorem extractNameLoop_turn (skips : dnsPacketSkipname buf pos = .ok stop) (some : stop ≠ 0)
    (copied : dnsPacketCopy buf stop header 10 =
      .ok (stop + 10, Region.ofBytes (bytesAt buf stop 10) ++ rest))
    (inside : stop + 10 ≤ buf.len) : extractNameLoop buf out len (numans + 1) pos header =
      if bytesAt buf stop 4 = [0, 12] ++ [0, 1] then ptrName buf out len (stop + 10)
      else extractNameLoop buf out len numans (stop + 10 + uint16At buf (stop + 8))
        (Region.ofBytes (bytesAt buf stop 10) ++ rest) := by
  rw [extractNameLoop, skips]
  change (if stop = 0 then Except.ok (-1, out) else (dnsPacketCopy buf stop header 10 >>= _)) = _
  rw [if_neg some, copied]
  change (dnsUint16Unpack (Region.ofBytes (bytesAt buf stop 10) ++ rest) 8 >>= fun len =>
    isRecord [0, 12] (Region.ofBytes (bytesAt buf stop 10) ++ rest) >>= _) = _
  rw [dnsUint16Unpack_bytesAt rest (by decide) inside]
  change (isRecord [0, 12] (Region.ofBytes (bytesAt buf stop 10) ++ rest) >>= _) = _
  rw [isRecord_bytesAt (by rfl) (by decide) inside]
  change (if decide (_ = _) = true then _ else _) = _
  simp only [decide_eq_true_eq]
  rfl

/-- The walk along the answers for a name comes to the name of one, or ends without. -/
theorem extractNameLoop_cases (sized : header.length = 12) (numans pos : Nat) :
    ((∀ place, ¬ PtrAt buf numans pos place) ∧ ∃ found,
      extractNameLoop buf out len numans pos header = .ok (found, out) ∧ found ≠ 1) ∨
    ∃ place, PtrAt buf numans pos place ∧ (∀ place', PtrAt buf numans pos place' → place' = place) ∧
      extractNameLoop buf out len numans pos header = ptrName buf out len place := by
  induction numans generalizing header pos with
  | zero => exact .inl ⟨fun place there => (by cases there), 0, rfl, by decide⟩
  | succ numans ih =>
      obtain ⟨stop, skips, ends⟩ := exists_dnsPacketSkipname buf pos
      have stops (stop' : Nat) (ends' : EndsAt buf pos stop') : stop' = stop :=
        Except.ok.inj (ends'.skipname_eq.symm.trans skips)
      by_cases nothing : stop = 0
      · refine .inl ⟨fun place there => ?_, -1, ?_, by decide⟩
        · cases there with
          | here ends' => exact ends'.ne_zero ((stops _ ends').trans nothing)
          | later ends' => exact ends'.ne_zero ((stops _ ends').trans nothing)
        · rw [extractNameLoop, skips]
          exact if_pos nothing
      · rcases @dnsPacketCopy_record buf header sized stop with
          ⟨rest, inside, size, copied⟩ | ⟨short, out', copied⟩
        · rw [extractNameLoop_turn skips nothing copied inside]
          by_cases isPtr : bytesAt buf stop 4 = [0, 12] ++ [0, 1]
          · right
            refine ⟨stop + 10, .here (ends nothing) inside isPtr, fun place' there => ?_,
              if_pos isPtr⟩
            cases there with
            | here ends' => rw [stops _ ends']
            | later ends' _ other => exact absurd (stops _ ends' ▸ isPtr) other
          · have length : (Region.ofBytes (bytesAt buf stop 10) ++ rest).length = 12 := by
              rw [List.length_append, Region.length_ofBytes, length_bytesAt inside, size]
            rw [if_neg isPtr]
            rcases ih length (stop + 10 + uint16At buf (stop + 8)) with
              ⟨unnamed, found⟩ | ⟨place, there, only, result⟩
            · refine .inl ⟨fun place there => ?_, found⟩
              cases there with
              | here ends' _ isPtr' => exact isPtr (stops _ ends' ▸ isPtr')
              | later ends' _ _ there => exact unnamed place (stops _ ends' ▸ there)
            · refine .inr ⟨place, .later (ends nothing) inside isPtr there, fun place' there' => ?_,
                result⟩
              cases there' with
              | here ends' _ isPtr' => exact absurd (stops _ ends' ▸ isPtr') isPtr
              | later ends' _ _ there' => exact only place' (stops _ ends' ▸ there')
        · refine .inl ⟨fun place there => ?_, -1, ?_, by decide⟩
          · cases there with
            | here ends' inside => rw [stops _ ends'] at inside; omega
            | later ends' inside => rw [stops _ ends'] at inside; omega
          · rw [extractNameLoop, skips]
            change (if stop = 0 then Except.ok (-1, out)
              else (dnsPacketCopy buf stop header 10 >>= _)) = _
            rw [if_neg nothing, copied]
            rfl

/-- What the text of a name in an answer becomes. -/
theorem ptrName_cases (buf : Packet) (pos : Nat) :
    (CopiedWhole buf 255 pos ∧ ∃ found out, ptrName buf (Region.fresh 256) 256 pos = .ok (found, out) ∧
      (found = 1 → ∃ host rest, 0 ∉ host ∧ out = Region.ofBytes (host ++ [0]) ++ rest)) ∨
    ¬ CopiedWhole buf 255 pos ∧ ∃ fault, ptrName buf (Region.fresh 256) 256 pos = .error fault := by
  rcases dnsPacketGetname_fresh buf pos (show 2 ≤ 255 by decide) (show 255 ≤ 256 by decide) with
    ⟨unnamed, none⟩ | ⟨name, stop, behind, has, positive, copied⟩
  · refine .inl ⟨fun name stop has => absurd has (unnamed name stop), -1, Region.fresh 256, ?_, ?_⟩
    · rw [ptrName, none]
      rfl
    · exact fun one => absurd one (by decide)
  · have named : ptrName buf (Region.fresh 256) 256 pos =
        dnsDnToDot (Region.fresh 256) (Region.ofBytes ((textOf name).take (255 - 2) ++ [0]) ++
          Region.fresh behind) 256 >>= fun made =>
            if made.1 = 0 then .ok (-1, made.2) else .ok (1, made.2) := by
      rw [ptrName, copied]
      exact if_neg positive
    have fits : ((textOf name).take (255 - 2)).length < 256 := by
      rw [List.length_take]
      omega
    rw [named, copiedWhole_iff has]
    rcases @dnsDnToDot_copied _ behind (not_mem_take_textOf name (255 - 2)) fits with
      ⟨whole, host, rest, noZero, result⟩ | ⟨broken, fault, result⟩
    · refine .inl ⟨whole, ?_⟩
      rw [result]
      change ∃ found out, (if host.length = 0 then Except.ok (-1, _) else Except.ok (1, _)) = _ ∧ _
      split
      · exact ⟨-1, _, rfl, fun one => absurd one (by decide)⟩
      · exact ⟨1, _, rfl, fun _ => ⟨host, rest, noZero, rfl⟩⟩
    · exact .inr ⟨broken, fault, by rw [result]; rfl⟩

/-- The labels of the name that the answers give are whole, as far as they are copied. -/
def AnswerWhole (buf : Packet) : Prop :=
  ∀ stop place, EndsAt buf 12 stop → PtrAt buf (uint16At buf 6) (stop + 4) place →
    CopiedWhole buf 255 place

theorem dnsDupName_found {reply : Packet} {found : Int} {name : Region}
    (extracted : dnsExtractName reply (Region.fresh 256) 256 = .ok (found, name))
    (made : found = 1 → ∃ host rest, 0 ∉ host ∧ name = Region.ofBytes (host ++ [0]) ++ rest) :
    ∃ host, dnsDupName reply = .ok host := by
  rw [dnsDupName, extracted]
  change ∃ host, (if found = 1 then (strDupLoop name name.length 0 >>= _) else Except.ok none) = _
  by_cases one : found = 1
  · obtain ⟨host, rest, noZero, rfl⟩ := made one
    have enough : host.length < (Region.ofBytes (host ++ [0]) ++ rest).length := by
      rw [List.length_append, Region.length_ofBytes, List.length_append, List.length_singleton]
      omega
    have copied := @strDupLoop_eq [] host _ rest _ rfl noZero enough
    rw [List.nil_append, List.length_nil] at copied
    rw [if_pos one, copied]
    exact ⟨_, rfl⟩
  · exact ⟨none, if_neg one⟩

/-- A name is taken from a reply where the labels of the one it gives are whole. -/
theorem dnsDupName_cases (enough : 12 ≤ buf.len) :
    (AnswerWhole buf ∧ ∃ host, dnsDupName buf = .ok host) ∨
    ¬ AnswerWhole buf ∧ ∃ fault, dnsDupName buf = .error fault := by
  obtain ⟨stop, skips, ends⟩ := exists_dnsPacketSkipname buf 12
  have stops (stop' : Nat) (ends' : EndsAt buf 12 stop') : stop' = stop :=
    Except.ok.inj (ends'.skipname_eq.symm.trans skips)
  have extracts : dnsExtractName buf (Region.fresh 256) 256 =
      if stop = 0 then .ok (-1, Region.fresh 256)
      else extractNameLoop buf (Region.fresh 256) 256 (uint16At buf 6) (stop + 4)
        (Region.ofBytes (bytesAt buf 0 12)) := by
    rcases dnsPacketCopy_header buf with ⟨-, copied⟩ | ⟨short, -⟩
    · rw [dnsExtractName, copied]
      change (dnsUint16Unpack (Region.ofBytes (bytesAt buf 0 12)) 6 >>= fun numans =>
        dnsPacketSkipname buf 12 >>= _) = _
      rw [dnsUint16Unpack_header enough (by decide), skips]
      rfl
    · omega
  by_cases nothing : stop = 0
  · refine .inl ⟨fun stop' place ends' => absurd ((stops stop' ends').trans nothing) ends'.ne_zero, ?_⟩
    rw [if_pos nothing] at extracts
    exact dnsDupName_found extracts (fun one => absurd one (by decide))
  · rw [if_neg nothing] at extracts
    have size : (Region.ofBytes (bytesAt buf 0 12)).length = 12 := by
      rw [Region.length_ofBytes, length_bytesAt (by omega)]
    rcases @extractNameLoop_cases buf 256 _ (Region.fresh 256) size (uint16At buf 6) (stop + 4) with
      ⟨unnamed, found, result, other⟩ | ⟨place, there, only, result⟩
    · refine .inl ⟨fun stop' place ends' there => ?_, ?_⟩
      · exact absurd (stops stop' ends' ▸ there) (unnamed place)
      · exact dnsDupName_found (extracts.trans result) (fun one => absurd one other)
    · have whole_iff : AnswerWhole buf ↔ CopiedWhole buf 255 place := by
        refine ⟨fun whole => whole stop place (ends nothing) there,
          fun whole stop' place' ends' there' => ?_⟩
        rw [only place' (stops stop' ends' ▸ there')]
        exact whole
      rw [whole_iff]
      rcases ptrName_cases buf place with ⟨whole, found, out, named, made⟩ | ⟨broken, fault, named⟩
      · exact .inl ⟨whole, dnsDupName_found (extracts.trans (result.trans named)) made⟩
      · refine .inr ⟨broken, fault, ?_⟩
        rw [dnsDupName, extracts, result, named]
        rfl

/-! ## Any reply -/

/-- No name that is walked along ends in the middle of a label. -/
def Harmless (res : Resolver) (buf : Packet) : Prop :=
  HeaderMatches res buf → CopiedWhole buf 256 12 ∧
    (QuestionMatches res buf → ¬ WantsTcp buf → res.lookup = .reverse → AnswerWhole buf)

/-- Behind the check a reply is handled unless its answer has a broken name. -/
theorem dnsEventRd_relevant (sized : ¬ (buf.len = 0 ∨ 512 < buf.len)) (enough : 12 ≤ buf.len)
    (result : dnsIrrelevant res buf = .ok false) :
    (∃ outcome, dnsEventRd res buf = .ok outcome) ↔
      (¬ WantsTcp buf → res.lookup = .reverse → AnswerWhole buf) := by
  obtain ⟨wantTcp, wants, wants_iff⟩ := dnsWantTcp_eq enough
  obtain ⟨closes, fails⟩ := exists_dnsFail enough
  rw [dnsEventRd, if_neg sized, result]
  change (∃ outcome, (dnsWantTcp buf >>= _) = _) ↔ _
  rw [wants]
  cases wantTcp with
  | true => exact iff_of_true ⟨.stream, rfl⟩ (fun udp => absurd (wants_iff.mp rfl) udp)
  | false =>
      have udp : ¬ WantsTcp buf := fun wanted => absurd (wants_iff.mpr wanted) (by decide)
      change (∃ outcome, (dnsFail buf >>= _) = _) ↔ _
      rw [fails, forall_prop_of_true udp]
      cases lookup : res.lookup with
      | forward =>
          obtain ⟨found, extracted⟩ := exists_dnsExtractAddr buf 0
          refine iff_of_true ⟨.address found, ?_⟩ (fun other => by cases other)
          change (dnsExtractAddr buf 0 >>= _) = _
          rw [extracted]
          rfl
      | reverse =>
          change (∃ outcome, (dnsDupName buf >>= _) = _) ↔ _
          rw [forall_prop_of_true rfl]
          rcases dnsDupName_cases enough with ⟨whole, host, named⟩ | ⟨broken, fault, named⟩
          · refine iff_of_true ⟨.name host, ?_⟩ whole
            rw [named]
            rfl
          · refine iff_of_false ?_ broken
            rw [named]
            exact fun ⟨outcome, same⟩ => by cases same

/-- A reply is handled within it and within what was written where the names that are walked along
have whole labels, and never elsewhere. -/
theorem dnsEventRd_iff (res : Resolver) (buf : Packet) (short : buf.len ≤ 512) :
    (∃ outcome, dnsEventRd res buf = .ok outcome) ↔ Harmless res buf := by
  by_cases empty : buf.len = 0
  · have outcome : dnsEventRd res buf = .ok .failed := if_pos (.inl empty)
    refine iff_of_true ⟨_, outcome⟩ (fun header => ?_)
    have enough := header.1
    omega
  · have sized : ¬ (buf.len = 0 ∨ 512 < buf.len) := by omega
    rcases dnsIrrelevant_cases res buf with
      ⟨whole, irrelevant, result, relevant⟩ | ⟨⟨header, broken⟩, fault, result⟩
    · cases irrelevant with
      | true =>
          refine iff_of_true ⟨.failed, ?_⟩ (fun header => ⟨whole header, fun question => ?_⟩)
          · rw [dnsEventRd, if_neg sized, result]
            rfl
          · exact absurd (relevant.mpr ⟨header, question⟩) (by decide)
      | false =>
          obtain ⟨header, question⟩ := relevant.mp rfl
          rw [dnsEventRd_relevant sized header.1 result, Harmless, forall_prop_of_true header,
            and_iff_right (whole header), forall_prop_of_true question]
    · refine iff_of_false ?_ (fun harmless => broken (harmless header).1)
      rw [dnsEventRd, if_neg sized, result]
      exact fun ⟨outcome, same⟩ => by cases same

/-- The resolver that has asked for the name of `127.0.0.1`. -/
def asksForLoopback : Resolver where
  id := [7, 9]
  domain := [1, 49, 1, 48, 1, 48, 3, 49, 50, 55, 7, 105, 110, 45, 97, 100, 100, 114, 4, 97, 114, 112,
    97, 0]
  lookup := .reverse
  idFits := rfl
  isName := .inr ⟨[[49], [48], [48], [49, 50, 55], [105, 110, 45, 97, 100, 100, 114],
    [97, 114, 112, 97]], by simp [AreLabels], rfl⟩

theorem dnsEventRd_iff_unanswered :
    (∃ outcome, dnsEventRd asksForLoopback ⟨[7, 9, 0, 0, 0, 1, 0, 0, 0, 0, 0, 0] ++
      asksForLoopback.domain ++ [0, 12, 0, 1], by decide⟩ = .ok outcome) ↔
        Harmless asksForLoopback ⟨[7, 9, 0, 0, 0, 1, 0, 0, 0, 0, 0, 0] ++ asksForLoopback.domain ++
          [0, 12, 0, 1], by decide⟩ :=
  dnsEventRd_iff asksForLoopback _ (by decide)

/-- A zero in a label of the question. -/
theorem dnsEventRd_reads_unset : ¬ ∀ (res : Resolver) (buf : Packet), buf.len ≤ 512 →
    ∃ outcome, dnsEventRd res buf = .ok outcome := by
  intro harmless
  obtain ⟨outcome, handled⟩ := harmless asksForLoopback
    ⟨[7, 9, 0, 0, 0, 1, 0, 1, 0, 0, 0, 0, 3, 97, 0, 99, 0, 0, 12, 0, 1], by decide⟩ (by decide)
  have stopped : dnsEventRd asksForLoopback
      ⟨[7, 9, 0, 0, 0, 1, 0, 1, 0, 0, 0, 0, 3, 97, 0, 99, 0, 0, 12, 0, 1], by decide⟩ =
        .error .unset := by
    decide +kernel
  cases stopped.symm.trans handled

end Dns

end Chaosircd
