import Chaosircd.DnsText

/-!
# Replies of name servers

A reply is checked against the query, and where it belongs to it the name or the address is
taken from it.  All counts and lengths in a reply are those of its sender.  The names are
copied by a function for texts, so that a byte of a label that is zero ends a name in the
middle of the label, and what walks along the copy goes on behind it.
-/

namespace Chaosircd

namespace Dns

/-- What is looked up: the address of a name, or the name of an address. -/
inductive Lookup where
  | forward
  | reverse
  deriving DecidableEq

/-- `DNS_T_A` and `DNS_T_PTR`. -/
def Lookup.type : Lookup → List UInt8
  | .forward => [0, 1]
  | .reverse => [0, 12]

/-- What a resolver has asked, from `dns_transmit_start`.  The name is the one that was made for
the lookup, or nothing where a name could not be encoded. -/
structure Resolver where
  id : List UInt8
  domain : List UInt8
  lookup : Lookup
  idFits : id.length = 2
  isName : domain = [] ∨ ∃ labels, AreLabels labels ∧ domain = encodeLabels labels ++ [0]

/-- `res->query`, with its length in front. -/
def Resolver.query (res : Resolver) : List UInt8 :=
  [UInt8.ofNat ((res.domain.length + 16) / 256), UInt8.ofNat (res.domain.length + 16)] ++ res.id ++
    [1, 0, 0, 1, 0, 0, 0, 0, 0, 0] ++ res.domain ++ res.lookup.type ++ [0, 1]

/-! ## Bytes of a packet -/

/-- The loop of `dns_packet_copy`. -/
def packetCopyLoop (buf : Packet) : Nat → Nat → Region → Nat → Except Fault (Nat × Region)
  | 0, pos, out, _ => .ok (pos, out)
  | outlen + 1, pos, out, i =>
    if buf.len ≤ pos then .ok (0, out)
    else do
      let ch ← buf.read pos
      let out ← out.write i ch
      packetCopyLoop buf outlen (pos + 1) out (i + 1)

/-- `dns_packet_copy`: the position behind the bytes, where zero is none. -/
def dnsPacketCopy (buf : Packet) (pos : Nat) (out : Region) (outlen : Nat) :
    Except Fault (Nat × Region) :=
  packetCopyLoop buf outlen pos out 0

/-- `!memcmp(&a[i], &b[j], n)`; all of the bytes may be looked at. -/
def memcmpEq (a : Region) (i : Nat) (b : Region) (j : Nat) : Nat → Except Fault Bool
  | 0 => .ok true
  | n + 1 => do
    let x ← a.read i
    let y ← b.read j
    let later ← memcmpEq a (i + 1) b (j + 1) n
    pure (x == y && later)

/-- `dns_uint16_unpack(&in[i], out)`. -/
def dnsUint16Unpack (region : Region) (i : Nat) : Except Fault Nat := do
  let high ← region.read i
  let low ← region.read (i + 1)
  pure (high.toNat * 256 + low.toNat)

/-! ## Names in memory -/

/-- `while((c = *p++)) p += c;` -/
def dnLenLoop (domain : Region) : Nat → Nat → Except Fault Nat
  | 0, _ => .error .endless
  | turns + 1, p => do
    let c ← domain.read p
    if c = 0 then pure (p + 1) else dnLenLoop domain turns (p + 1 + c.toNat)

/-- `dns_dn_len(&region[start])`. -/
def dnsDnLen (region : Region) (start : Nat) : Except Fault Nat := do
  let p ← dnLenLoop region (region.length + 1) start
  pure (p - start)

/-- `!dns_cmp(&a[i], &b[j], len)`. -/
def dnsCmpEq (a : Region) (i : Nat) (b : Region) (j : Nat) : Nat → Except Fault Bool
  | 0 => .ok true
  | len + 1 => do
    let c1 ← a.read i
    let c2 ← b.read j
    if lowered c1 ≠ lowered c2 then pure false else dnsCmpEq a (i + 1) b (j + 1) len

/-- `dns_dn_cmp(&a[i], &b[j])`, which is one for equal names. -/
def dnsDnCmp (a : Region) (i : Nat) (b : Region) (j : Nat) : Except Fault Bool := do
  let len ← dnsDnLen a i
  let len' ← dnsDnLen b j
  if len ≠ len' then pure false else dnsCmpEq a i b j len

/-! ## The check -/

/-- The identifier and the number of questions. -/
def headerMatches (res : Resolver) (header : Region) : Except Fault Bool := do
  let same ← memcmpEq header 0 (Region.ofBytes res.query) 2 2
  if same then
    let high ← header.read 4
    if high ≠ 0 then pure false
    else
      let low ← header.read 5
      pure (low == 1)
  else pure false

/-- The type and the class of the question. -/
def typeMatches (res : Resolver) (header : Region) : Except Fault Bool := do
  let same ← memcmpEq header 0 (Region.ofBytes res.lookup.type) 0 2
  if same then memcmpEq header 2 (Region.ofBytes [0, 1]) 0 2 else pure false

/-- The part of `dns_irrelevant` behind the header, which looks at the question. -/
def questionMatches (res : Resolver) (buf : Packet) (pos : Nat) (header : Region) :
    Except Fault Bool := do
  let (pos, domain) ← dnsPacketGetname buf pos (Region.fresh 256) 256
  if pos = 0 then pure false
  else
    let same ← dnsDnCmp domain 0 (Region.ofBytes res.query) 14
    if same then
      let (pos, header) ← dnsPacketCopy buf pos header 4
      if pos = 0 then pure false else typeMatches res header
    else pure false

/-- `dns_irrelevant`. -/
def dnsIrrelevant (res : Resolver) (buf : Packet) : Except Fault Bool := do
  let (pos, header) ← dnsPacketCopy buf 0 (Region.fresh 12) 12
  if pos = 0 then pure true
  else
    let same ← headerMatches res header
    if same then
      let asked ← questionMatches res buf pos header
      pure !asked
    else pure true

/-- `dns_want_tcp`. -/
def dnsWantTcp (buf : Packet) : Except Fault Bool := do
  let (pos, header) ← dnsPacketCopy buf 0 (Region.fresh 12) 12
  if pos = 0 then pure true
  else
    let flags ← header.read 2
    pure (flags &&& 0x02 != 0)

/-- `dns_fail`. -/
def dnsFail (buf : Packet) : Except Fault Bool := do
  let (pos, header) ← dnsPacketCopy buf 0 (Region.fresh 12) 12
  if pos = 0 then pure true
  else
    let flags ← header.read 3
    let rcode := flags &&& 0x0f
    pure (rcode != 0 && rcode != 3)

/-! ## The answers -/

/-- Whether a record is of this type and of the class `IN`. -/
def isRecord (type : List UInt8) (header : Region) : Except Fault Bool := do
  let same ← memcmpEq header 0 (Region.ofBytes type) 0 2
  if same then memcmpEq header 2 (Region.ofBytes [0, 1]) 0 2 else pure false

/-- The loop of `dns_extract_name` over the answers. -/
def extractNameLoop (reply : Packet) (out : Region) (len : Nat) :
    Nat → Nat → Region → Except Fault (Int × Region)
  | 0, _, _ => .ok (0, out)
  | numans + 1, pos, header => do
    let pos ← dnsPacketSkipname reply pos
    if pos = 0 then pure (-1, out)
    else
      let (pos, header) ← dnsPacketCopy reply pos header 10
      if pos = 0 then pure (-1, out)
      else
        let datalen ← dnsUint16Unpack header 8
        let isPtr ← isRecord [0, 12] header
        if isPtr then
          let (stop, name) ← dnsPacketGetname reply pos (Region.fresh 256) 255
          if stop = 0 then pure (-1, out)
          else
            let (length, out) ← dnsDnToDot out name len
            if length = 0 then pure (-1, out) else pure (1, out)
        else extractNameLoop reply out len numans (pos + datalen) header

/-- `dns_extract_name`: its answer, and what `out` is then. -/
def dnsExtractName (reply : Packet) (out : Region) (len : Nat) : Except Fault (Int × Region) := do
  let (pos, header) ← dnsPacketCopy reply 0 (Region.fresh 12) 12
  if pos = 0 then pure (-1, out)
  else
    let numans ← dnsUint16Unpack header 6
    let pos ← dnsPacketSkipname reply pos
    if pos = 0 then pure (-1, out)
    else extractNameLoop reply out len numans (pos + 4) header

/-- The loop of `dns_extract_addr` over the answers. -/
def extractAddrLoop (reply : Packet) (n : Nat) :
    Nat → Nat → Nat → Region → Except Fault (Option (List UInt8))
  | 0, _, _, _ => .ok none
  | numans + 1, count, pos, header => do
    let pos ← dnsPacketSkipname reply pos
    if pos = 0 then pure none
    else
      let (pos, header) ← dnsPacketCopy reply pos header 10
      if pos = 0 then pure none
      else
        let len ← dnsUint16Unpack header 8
        let isA ← isRecord [0, 1] header
        if isA ∧ len = 4 then
          let (stop, header) ← dnsPacketCopy reply pos header 4
          if stop = 0 then pure none
          else if count = n then
            let a ← header.read 0
            let b ← header.read 1
            let c ← header.read 2
            let d ← header.read 3
            pure (some [a, b, c, d])
          else extractAddrLoop reply n numans (count + 1) (pos + len) header
        else extractAddrLoop reply n numans count (pos + len) header

/-- `dns_extract_addr`: the bytes of the address, if one is found. -/
def dnsExtractAddr (reply : Packet) (n : Nat) : Except Fault (Option (List UInt8)) := do
  let (pos, header) ← dnsPacketCopy reply 0 (Region.fresh 12) 12
  if pos = 0 then pure none
  else
    let numans ← dnsUint16Unpack header 6
    let pos ← dnsPacketSkipname reply pos
    if pos = 0 then pure none
    else if numans ≤ n then pure none
    else extractAddrLoop reply n numans 0 (pos + 4) header

/-- `str_dup(name)`, with how many cells there are from `i` on. -/
def strDupLoop (name : Region) : Nat → Nat → Except Fault (List UInt8)
  | 0, _ => .error .overread
  | cells + 1, i => do
    let ch ← name.read i
    if ch = 0 then pure []
    else
      let later ← strDupLoop name cells (i + 1)
      pure (ch :: later)

/-- `dns_dup_name`. -/
def dnsDupName (reply : Packet) : Except Fault (Option (List UInt8)) := do
  let (found, name) ← dnsExtractName reply (Region.fresh 256) 256
  if found = 1 then
    let text ← strDupLoop name name.length 0
    pure (some text)
  else pure none

/-- What becomes of a reply: it is refused, or the query is sent again by TCP, or the lookup has
a result. -/
inductive Outcome where
  | failed
  | stream
  | name (host : Option (List UInt8))
  | address (bytes : Option (List UInt8))
  deriving DecidableEq

/-- A reply in `dns_event_rd`, and what the callback of the lookup takes from it.  Where the
server failed the socket is closed, and the reply is taken all the same. -/
def dnsEventRd (res : Resolver) (buf : Packet) : Except Fault Outcome :=
  if buf.len = 0 ∨ 512 < buf.len then .ok .failed
  else do
    let irrelevant ← dnsIrrelevant res buf
    if irrelevant then pure .failed
    else
      let wantTcp ← dnsWantTcp buf
      if wantTcp then pure .stream
      else
        let _closes ← dnsFail buf
        match res.lookup with
        | .reverse => return .name (← dnsDupName buf)
        | .forward => return .address (← dnsExtractAddr buf 0)

/-! ## Copies of a packet -/

/-- So many bytes of a packet from a position on. -/
def bytesAt (buf : Packet) (pos n : Nat) : List UInt8 :=
  (buf.bytes.drop pos).take n

variable {buf : Packet} {pos stop n : Nat} {front copied name : List UInt8} {rest : Region}

theorem length_bytesAt (inside : pos + n ≤ buf.len) : (bytesAt buf pos n).length = n := by
  rw [bytesAt, List.length_take, List.length_drop]
  exact Nat.min_eq_left (by rw [Packet.len] at inside; omega)

theorem bytesAt_succ {ch : UInt8} (reads : buf.bytes[pos]? = some ch) (n : Nat) :
    bytesAt buf pos (n + 1) = ch :: bytesAt buf (pos + 1) n := by
  obtain ⟨inside, same⟩ := List.getElem?_eq_some_iff.mp reads
  rw [bytesAt, List.drop_eq_getElem_cons inside, List.take_succ_cons, same, bytesAt]

/-- A copy takes all the bytes, or there are not so many. -/
theorem packetCopyLoop_cases {outlen : Nat} (room : outlen ≤ rest.length) :
    (pos + outlen ≤ buf.len ∧
      packetCopyLoop buf outlen pos (Region.ofBytes front ++ rest) front.length =
        .ok (pos + outlen, Region.ofBytes (front ++ bytesAt buf pos outlen) ++
          rest.drop outlen)) ∨
    buf.len < pos + outlen ∧ (outlen ≠ 0 → ∃ out,
      packetCopyLoop buf outlen pos (Region.ofBytes front ++ rest) front.length = .ok (0, out)) := by
  induction outlen generalizing pos front rest with
  | zero =>
      by_cases inside : pos ≤ buf.len
      · exact .inl ⟨inside, by simp [packetCopyLoop, bytesAt]⟩
      · exact .inr ⟨Nat.lt_of_not_le inside, fun some => absurd rfl some⟩
  | succ outlen ih =>
      by_cases inside : buf.len ≤ pos
      · exact .inr ⟨by omega, fun _ => ⟨_, if_pos inside⟩⟩
      · obtain ⟨ch, reads⟩ := Packet.exists_of_lt (Nat.lt_of_not_le inside)
        cases rest with
        | nil => exact absurd room (Nat.not_succ_le_zero _)
        | cons cell rest =>
            have turn : packetCopyLoop buf (outlen + 1) pos (Region.ofBytes front ++ cell :: rest)
                front.length = packetCopyLoop buf outlen (pos + 1)
                  (Region.ofBytes (front ++ [ch]) ++ rest) (front ++ [ch]).length := by
              rw [packetCopyLoop, if_neg inside, Packet.read_eq reads]
              change (Region.write _ _ ch >>= _) = _
              rw [Region.write_next, List.length_append]
              rfl
            have later := @ih (pos + 1) (front ++ [ch]) rest (Nat.le_of_succ_le_succ room)
            rw [turn, bytesAt_succ reads]
            rcases later with ⟨fits, result⟩ | ⟨short, result⟩
            · refine .inl ⟨by omega, result.trans ?_⟩
              rw [List.append_assoc, Nat.add_right_comm]
              rfl
            · exact .inr ⟨by omega, fun _ => result (by omega)⟩

theorem dnsPacketCopy_cases {out : Region} {outlen : Nat} (room : outlen ≤ out.length)
    (some : outlen ≠ 0) :
    (pos + outlen ≤ buf.len ∧ dnsPacketCopy buf pos out outlen =
      .ok (pos + outlen, Region.ofBytes (bytesAt buf pos outlen) ++ out.drop outlen)) ∨
    buf.len < pos + outlen ∧ ∃ out', dnsPacketCopy buf pos out outlen = .ok (0, out') := by
  rcases @packetCopyLoop_cases buf pos [] out outlen room with result | ⟨short, result⟩
  · exact .inl result
  · exact .inr ⟨short, result some⟩

/-- Bytes in memory are compared as lists. -/
theorem memcmpEq_eq {a b : List UInt8} {rest rest' : Region} {i j : Nat} (inside : i + n ≤ a.length)
    (inside' : j + n ≤ b.length) :
    memcmpEq (Region.ofBytes a ++ rest) i (Region.ofBytes b ++ rest') j n =
      .ok (decide ((a.drop i).take n = (b.drop j).take n)) := by
  induction n generalizing i j with
  | zero => simp [memcmpEq]
  | succ n ih =>
      have first : a[i]? = some a[i] := List.getElem?_eq_getElem (by omega)
      have first' : b[j]? = some b[j] := List.getElem?_eq_getElem (by omega)
      rw [memcmpEq, Region.read_front first, Region.read_front first',
        @ih (i + 1) (j + 1) (by omega) (by omega),
        List.drop_eq_getElem_cons (show i < a.length by omega), List.drop_eq_getElem_cons (show j < b.length by omega), List.take_succ_cons,
        List.take_succ_cons]
      change Except.ok _ = _
      congr 1
      by_cases same : a[i] = b[j]
      · simp [same]
      · simp [same]

theorem dnsUint16Unpack_eq {i : Nat} {high low : UInt8} (first : front[i]? = some high)
    (second : front[i + 1]? = some low) :
    dnsUint16Unpack (Region.ofBytes front ++ rest) i = .ok (high.toNat * 256 + low.toNat) := by
  rw [dnsUint16Unpack, Region.read_front first, Region.read_front second]
  rfl

/-! ## Walks along a name in memory -/

/-- The bytes are a row of labels with their lengths. -/
def WholeLabels (text : List UInt8) : Prop :=
  ∃ labels, (∀ label ∈ labels, label.length < 256) ∧ encodeLabels labels = text

theorem WholeLabels.nil : WholeLabels [] :=
  ⟨[], by simp, rfl⟩

theorem WholeLabels.cons {c : UInt8} {text : List UInt8} (inside : c.toNat ≤ text.length)
    (later : WholeLabels (text.drop c.toNat)) : WholeLabels (c :: text) := by
  obtain ⟨labels, short, encoded⟩ := later
  have length : (text.take c.toNat).length = c.toNat := by
    rw [List.length_take]
    omega
  refine ⟨text.take c.toNat :: labels, ?_, ?_⟩
  · intro label member
    rcases List.mem_cons.mp member with rfl | member
    · rw [length]
      exact c.toNat_lt
    · exact short label member
  · rw [encodeLabels_cons, length, encoded, List.take_append_drop, UInt8.ofNat_toNat]

theorem dnLenLoop_turn {region : Region} {c : UInt8} {p : Nat} (reads : region.read p = .ok c)
    (turns : Nat) : dnLenLoop region (turns + 1) p =
      if c = 0 then .ok (p + 1) else dnLenLoop region turns (p + 1 + c.toNat) := by
  rw [dnLenLoop, reads]
  rfl

theorem bind_eq_ok {α β : Type} {x : Except Fault α} {f : α → Except Fault β} {b : β} :
    x >>= f = .ok b ↔ ∃ a, x = .ok a ∧ f a = .ok b := by
  cases x with
  | error fault => exact iff_of_false (fun same => by cases same) (fun ⟨a, same, _⟩ => by cases same)
  | ok a => exact ⟨fun result => ⟨a, rfl, result⟩, fun ⟨a', same, result⟩ => by cases same; exact result⟩

/-- What a text in a fresh region is followed by. -/
theorem read_text_cases {text : List UInt8} {size p : Nat} {c : UInt8}
    (reads : Region.read (Region.ofBytes (text ++ [0]) ++ Region.fresh size) p = .ok c) :
    (p = text.length ∧ c = 0) ∨ p < text.length ∧ text[p]? = some c := by
  rcases Nat.lt_trichotomy p text.length with below | same | beyond
  · refine .inr ⟨below, ?_⟩
    have first : (text ++ [0])[p]? = some text[p] := by
      rw [List.getElem?_append_left below, List.getElem?_eq_getElem below]
    rw [Region.read_front first] at reads
    rw [List.getElem?_eq_getElem below, Except.ok.inj reads]
  · subst same
    have first : (text ++ [0])[text.length]? = some 0 := by simp
    rw [Region.read_front first] at reads
    exact .inl ⟨rfl, (Except.ok.inj reads).symm⟩
  · refine absurd reads (Region.read_fresh_ne_ok ?_)
    rw [List.length_append]
    exact beyond

/-- A walk that ends over initialised bytes goes along whole labels. -/
theorem wholeLabels_of_dnLenLoop {text : List UInt8} {size turns p q : Nat}
    (noZero : 0 ∉ text) (inside : p ≤ text.length)
    (result : dnLenLoop (Region.ofBytes (text ++ [0]) ++ Region.fresh size) turns p = .ok q) :
    WholeLabels (text.drop p) := by
  induction turns generalizing p with
  | zero => cases result
  | succ turns ih =>
      obtain ⟨c, reads, -⟩ := bind_eq_ok.mp result
      rw [dnLenLoop_turn reads] at result
      rcases read_text_cases reads with ⟨rfl, rfl⟩ | ⟨below, at_p⟩
      · rw [List.drop_length]
        exact .nil
      · have some : c ≠ 0 := fun zero => noZero (zero ▸ List.mem_of_getElem? at_p)
        rw [if_neg some] at result
        have next : p + 1 + c.toNat ≤ text.length := by
          cases turns with
          | zero => cases result
          | succ turns =>
              obtain ⟨c', reads', -⟩ := bind_eq_ok.mp result
              rcases read_text_cases reads' with ⟨last, -⟩ | ⟨below', -⟩
              · exact last.le
              · exact below'.le
        have later := ih next result
        rw [← List.drop_drop] at later
        rw [List.drop_eq_getElem_cons below,
          Option.some.inj ((List.getElem?_eq_getElem below).symm.trans at_p)]
        refine .cons ?_ later
        rw [List.length_drop]
        omega

/-- Over whole labels the walk ends behind their root. -/
theorem dnLenLoop_encodeLabels {labels : List (List UInt8)} (areLabels : AreLabels labels)
    {region : Region} (source : region = Region.ofBytes (front ++ encodeLabels labels ++ [0]) ++ rest)
    {turns : Nat} (enough : labels.length < turns) :
    dnLenLoop region turns front.length = .ok (front.length + (encodeLabels labels ++ [0]).length) := by
  induction labels generalizing front turns with
  | nil =>
      obtain ⟨turns, rfl⟩ := Nat.exists_eq_add_one.mpr (Nat.zero_lt_of_lt enough)
      have reads : region.read front.length = .ok 0 := by
        rw [source]
        exact Region.read_front (by simp [encodeLabels])
      exact dnLenLoop_turn reads turns
  | cons label labels ih =>
      obtain ⟨turns, rfl⟩ := Nat.exists_eq_add_one.mpr (Nat.zero_lt_of_lt enough)
      obtain ⟨some, short⟩ := areLabels label List.mem_cons_self
      have reads : region.read front.length = .ok (UInt8.ofNat label.length) := by
        rw [source]
        exact Region.read_front (by simp)
      have size : (UInt8.ofNat label.length).toNat = label.length := UInt8.toNat_ofNat_of_lt' short
      have source' : region = Region.ofBytes ((front ++ UInt8.ofNat label.length :: label) ++
          encodeLabels labels ++ [0]) ++ rest := by
        rw [source]
        simp
      have later := ih (fun label member => areLabels label (List.mem_cons_of_mem _ member)) source'
        (Nat.lt_of_succ_lt_succ enough)
      rw [List.length_append, List.length_cons] at later
      rw [dnLenLoop_turn reads, if_neg (ofNat_length_ne_zero some short), size, Nat.add_assoc,
        Nat.add_comm 1, later]
      simp only [encodeLabels_cons, List.length_append, List.length_cons, List.length_nil]
      congr 1
      omega

end Dns

end Chaosircd
