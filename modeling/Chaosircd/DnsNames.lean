import Chaosircd.Regions
import Mathlib.Algebra.Ring.Nat
import Mathlib.Data.List.TakeWhile
import Mathlib.Tactic.Common

/-!
# Names in a packet

A name in a packet is a row of labels, each behind its length, up to one without bytes.  In
the place of a label there may be the position of another one, where the name goes on.
`dns_packet_skipname` looks for the end of a name and does not follow such a pointer;
`dns_packet_getname` does, and collects the labels.
-/

namespace Chaosircd

namespace Dns

/-- A packet; where the resolver keeps a position in it, it has a `uint32_t` for it. -/
structure Packet where
  bytes : List UInt8
  fits : bytes.length < 2 ^ 32

/-- `len`. -/
def Packet.len (buf : Packet) : Nat :=
  buf.bytes.length

/-- `buf[pos]`. -/
def Packet.read (buf : Packet) (pos : Nat) : Except Fault UInt8 :=
  Region.read (Region.ofBytes buf.bytes) pos

/-! ## The two walks -/

/-- The loop of `dns_packet_skipname`. -/
def skipnameLoop (buf : Packet) : Nat → Nat → Except Fault Nat
  | 0, _ => .error .endless
  | turns + 1, pos =>
    if pos < buf.len then do
      let ch ← buf.read pos
      let pos := pos + 1
      if 192 ≤ ch then pure (pos + 1)
      else if 64 ≤ ch then pure 0
      else if ch = 0 then pure pos
      else skipnameLoop buf turns (pos + ch.toNat)
    else pure 0

/-- `dns_packet_skipname`; zero is no position behind a name. -/
def dnsPacketSkipname (buf : Packet) (pos : Nat) : Except Fault Nat :=
  skipnameLoop buf (buf.len + 1) pos

/-- Why a walk of `dns_packet_getname` has no name: `goto proto`, or the program stopped. -/
inductive Exit where
  | proto
  | fault (fault : Fault)
  deriving DecidableEq

/-- The variables of `dns_packet_getname`. -/
structure NameWalk where
  pos : Nat
  loop : Nat
  state : Nat
  firstcompress : Nat
  name : Region
  namelen : Nat
  deriving DecidableEq

/-- `if(pos >= len) goto proto; ch = buf[pos++];` -/
def NameWalk.take (buf : Packet) (walk : NameWalk) : Except Exit (UInt8 × NameWalk) :=
  if buf.len ≤ walk.pos then .error .proto
  else
    match buf.read walk.pos with
    | .error fault => .error (.fault fault)
    | .ok ch => .ok (ch, { walk with pos := walk.pos + 1 })

/-- `if(++loop >= 1000) goto proto;` -/
def NameWalk.count (walk : NameWalk) : Except Exit NameWalk :=
  if 1000 ≤ walk.loop + 1 then .error .proto else .ok { walk with loop := walk.loop + 1 }

/-- `if(namelen > sizeof(name) - 1) goto proto; name[namelen++] = ch;` -/
def NameWalk.push (walk : NameWalk) (ch : UInt8) : Except Exit NameWalk :=
  if 255 < walk.namelen then .error .proto
  else
    match walk.name.write walk.namelen ch with
    | .error fault => .error (.fault fault)
    | .ok name => .ok { walk with name := name, namelen := walk.namelen + 1 }

/-- `if(!firstcompress) firstcompress = pos; pos = where + ch;` -/
def NameWalk.jump (walk : NameWalk) (high low : UInt8) : NameWalk :=
  { walk with
    firstcompress := if walk.firstcompress = 0 then walk.pos % 2 ^ 32 else walk.firstcompress
    pos := (high.toNat - 192) * 2 ^ 8 + low.toNat }

/-- `while(ch >= 192)` in `dns_packet_getname`. -/
def followPointers (buf : Packet) : Nat → UInt8 → NameWalk → Except Exit (UInt8 × NameWalk)
  | 0, _, _ => .error (.fault .endless)
  | turns + 1, ch, walk =>
    if 192 ≤ ch then do
      let (low, walk) ← walk.take buf
      let (ch', walk) ← (walk.jump ch low).take buf
      followPointers buf turns ch' (← walk.count)
    else .ok (ch, walk)

/-- The outer loop of `dns_packet_getname`, up to its `break`. -/
def getnameLoop (buf : Packet) : Nat → NameWalk → Except Exit NameWalk
  | 0, _ => .error (.fault .endless)
  | turns + 1, walk => do
    let (ch, walk) ← walk.take buf
    let walk ← walk.count
    if walk.state ≠ 0 then
      let walk ← walk.push ch
      getnameLoop buf turns { walk with state := walk.state - 1 }
    else
      let (ch, walk) ← followPointers buf 1000 ch walk
      if 64 ≤ ch then .error .proto
      else
        let walk ← walk.push ch
        if ch = 0 then pure walk else getnameLoop buf turns { walk with state := ch.toNat }

/-- The loop of `strlcpy`, with how often it still goes round. -/
def strlcpyLoop (s : Region) : Nat → Region → Nat → Except Fault (Region × Nat)
  | 0, d, i => .ok (d, i)
  | left + 1, d, i => do
    let c ← s.read i
    let d ← d.write i c
    if c = 0 then pure (d, i) else strlcpyLoop s left d (i + 1)

/-- `strlcpy(d, s, n)` on regions. -/
def strlcpyInto (d s : Region) (n : Nat) : Except Fault Region :=
  if n = 0 then .ok d
  else do
    let (d, i) ← strlcpyLoop s (n - 1) d 0
    d.write i 0

/-- `dns_packet_getname`: the position behind the name, where zero is none, and what
`domain` is then. -/
def dnsPacketGetname (buf : Packet) (pos : Nat) (domain : Region) (n : Nat) :
    Except Fault (Nat × Region) :=
  match getnameLoop buf 1000 ⟨pos, 0, 0, 0, Region.fresh 256, 0⟩ with
  | .error .proto => .ok (0, domain)
  | .error (.fault fault) => .error fault
  | .ok walk => do
    let domain ← if n ≠ 0 then strlcpyInto domain walk.name (n - 1) else domain.write 0 0
    pure (if walk.firstcompress ≠ 0 then walk.firstcompress else walk.pos, domain)

/-! ## What a name is -/

/-- Where a pointer leads. -/
def target (high low : UInt8) : Nat :=
  (high.toNat - 192) * 2 ^ 8 + low.toNat

/-- The bytes of a name from a position on, with so many of the current label left before
the next length, the pointers on the way, and the position behind the name. -/
inductive NameAt (buf : Packet) : Nat → Nat → List UInt8 → Nat → Nat → Prop
  | root {pos : Nat} (reads : buf.bytes[pos]? = some 0) : NameAt buf 0 pos [0] 0 (pos + 1)
  | length {pos : Nat} {ch : UInt8} {name : List UInt8} {pointers stop : Nat}
      (reads : buf.bytes[pos]? = some ch) (some : ch ≠ 0) (short : ch < 64)
      (later : NameAt buf ch.toNat (pos + 1) name pointers stop) :
      NameAt buf 0 pos (ch :: name) pointers stop
  | byte {left pos : Nat} {ch : UInt8} {name : List UInt8} {pointers stop : Nat}
      (reads : buf.bytes[pos]? = some ch) (later : NameAt buf left (pos + 1) name pointers stop) :
      NameAt buf (left + 1) pos (ch :: name) pointers stop
  | pointer {pos : Nat} {high low : UInt8} {name : List UInt8} {pointers stop : Nat}
      (reads : buf.bytes[pos]? = some high) (isPointer : 192 ≤ high)
      (reads' : buf.bytes[pos + 1]? = some low)
      (later : NameAt buf 0 (target high low) name pointers stop) :
      NameAt buf 0 pos name (pointers + 1) (pos + 2)

/-- There is a name at this position within the limits of `dns_packet_getname`. -/
def HasName (buf : Packet) (pos : Nat) (name : List UInt8) (stop : Nat) : Prop :=
  ∃ pointers, NameAt buf 0 pos name pointers stop ∧ name.length + pointers < 1000 ∧
    name.length ≤ 256

/-- Where the bytes of a name end that are at its position. -/
inductive EndsAt (buf : Packet) : Nat → Nat → Prop
  | root {pos : Nat} (reads : buf.bytes[pos]? = some 0) : EndsAt buf pos (pos + 1)
  | label {pos stop : Nat} {ch : UInt8} (reads : buf.bytes[pos]? = some ch) (some : ch ≠ 0)
      (short : ch < 64) (later : EndsAt buf (pos + 1 + ch.toNat) stop) : EndsAt buf pos stop
  | pointer {pos : Nat} {high : UInt8} (reads : buf.bytes[pos]? = some high)
      (isPointer : 192 ≤ high) : EndsAt buf pos (pos + 2)

variable {buf : Packet} {left pos pointers stop : Nat} {name : List UInt8}

theorem Packet.read_eq {ch : UInt8} (reads : buf.bytes[pos]? = some ch) :
    buf.read pos = .ok ch :=
  Region.read_ofBytes reads

theorem Packet.lt_len {ch : UInt8} (reads : buf.bytes[pos]? = some ch) : pos < buf.len :=
  (List.getElem?_eq_some_iff.mp reads).1

theorem Packet.exists_of_lt {pos : Nat} (inside : pos < buf.len) :
    ∃ ch, buf.bytes[pos]? = some ch :=
  ⟨_, List.getElem?_eq_getElem inside⟩

/-! ## The end of a name -/

theorem skipnameLoop_turn {ch : UInt8} (turns : Nat) (reads : buf.bytes[pos]? = some ch) :
    skipnameLoop buf (turns + 1) pos =
      if 192 ≤ ch then .ok (pos + 1 + 1)
      else if 64 ≤ ch then .ok 0
      else if ch = 0 then .ok (pos + 1)
      else skipnameLoop buf turns (pos + 1 + ch.toNat) := by
  rw [skipnameLoop, if_pos (Packet.lt_len reads), Packet.read_eq reads]
  rfl

/-- Each turn goes forward, and none reads behind the packet. -/
theorem exists_skipnameLoop (turns pos : Nat) (enough : buf.len - pos < turns) :
    ∃ stop, skipnameLoop buf turns pos = .ok stop ∧ (stop ≠ 0 → EndsAt buf pos stop) := by
  induction turns generalizing pos with
  | zero => omega
  | succ turns ih =>
      by_cases inside : pos < buf.len
      · obtain ⟨ch, reads⟩ := Packet.exists_of_lt inside
        rw [skipnameLoop_turn turns reads]
        split_ifs with isPointer long root
        · exact ⟨_, rfl, fun _ => .pointer reads isPointer⟩
        · exact ⟨0, rfl, fun none => absurd rfl none⟩
        · subst root
          exact ⟨_, rfl, fun _ => .root reads⟩
        · obtain ⟨stop, result, ends⟩ := ih (pos + 1 + ch.toNat) (by omega)
          exact ⟨stop, result, fun some => .label reads root (UInt8.not_le.mp long) (ends some)⟩
      · rw [skipnameLoop, if_neg inside]
        exact ⟨0, rfl, fun none => absurd rfl none⟩

theorem EndsAt.skipnameLoop_eq (ends : EndsAt buf pos stop) {turns : Nat}
    (enough : buf.len - pos < turns) : skipnameLoop buf turns pos = .ok stop := by
  induction ends generalizing turns with
  | root reads =>
      obtain ⟨turns, rfl⟩ := Nat.exists_eq_add_one.mpr (Nat.zero_lt_of_lt enough)
      exact skipnameLoop_turn turns reads
  | @label pos stop ch reads some short later ih =>
      have inside := Packet.lt_len reads
      obtain ⟨turns, rfl⟩ := Nat.exists_eq_add_one.mpr (Nat.zero_lt_of_lt enough)
      have noPointer : ¬ 192 ≤ ch := UInt8.not_le.mpr (UInt8.lt_trans short (by decide))
      rw [skipnameLoop_turn turns reads, if_neg noPointer, if_neg (UInt8.not_le.mpr short),
        if_neg some]
      exact ih (by omega)
  | pointer reads isPointer =>
      obtain ⟨turns, rfl⟩ := Nat.exists_eq_add_one.mpr (Nat.zero_lt_of_lt enough)
      exact (skipnameLoop_turn turns reads).trans (if_pos isPointer)

theorem EndsAt.skipname_eq (ends : EndsAt buf pos stop) :
    dnsPacketSkipname buf pos = .ok stop :=
  ends.skipnameLoop_eq (Nat.lt_succ_of_le (Nat.sub_le _ _))

theorem exists_dnsPacketSkipname (buf : Packet) (pos : Nat) :
    ∃ stop, dnsPacketSkipname buf pos = .ok stop ∧ (stop ≠ 0 → EndsAt buf pos stop) :=
  exists_skipnameLoop _ pos (Nat.lt_succ_of_le (Nat.sub_le _ _))

/-- A name ends in the packet where its first pointer does, or its root. -/
theorem NameAt.endsAt (named : NameAt buf left pos name pointers stop) :
    EndsAt buf (pos + left) stop := by
  induction named with
  | root reads => exact .root reads
  | length reads some short later ih => exact .label reads some short ih
  | byte reads later ih =>
      rw [← Nat.add_assoc, Nat.add_right_comm]
      exact ih
  | pointer reads isPointer reads' later ih => exact .pointer reads isPointer

/-! ## The walk along a name -/

theorem NameAt.reads (named : NameAt buf left pos name pointers stop) :
    ∃ ch, buf.bytes[pos]? = some ch := by
  cases named <;> exact ⟨_, ‹_›⟩

theorem NameAt.not_beyond (beyond : buf.bytes[pos]? = none) :
    ¬ NameAt buf left pos name pointers stop := by
  intro named
  obtain ⟨ch, reads⟩ := named.reads
  exact absurd (beyond.symm.trans reads) (Option.some_ne_none ch).symm

theorem NameAt.length_pos (named : NameAt buf left pos name pointers stop) : 0 < name.length := by
  induction named with
  | root => exact Nat.one_pos
  | length => exact Nat.succ_pos _
  | byte => exact Nat.succ_pos _
  | pointer _ _ _ _ ih => exact ih

/-- Where there is a pointer, the name goes on where it leads. -/
theorem NameAt.of_pointer {high : UInt8} (reads : buf.bytes[pos]? = some high)
    (isPointer : 192 ≤ high) (named : NameAt buf 0 pos name pointers stop) :
    ∃ low pointers' stop', buf.bytes[pos + 1]? = some low ∧ pointers = pointers' + 1 ∧
      stop = pos + 2 ∧ NameAt buf 0 (target high low) name pointers' stop' := by
  cases named with
  | root zero =>
      cases reads.symm.trans zero
      exact absurd isPointer (by decide)
  | length other some short later =>
      cases reads.symm.trans other
      exact absurd (UInt8.lt_of_le_of_lt isPointer short) (by decide)
  | pointer other _ reads' later =>
      cases reads.symm.trans other
      exact ⟨_, _, _, reads', rfl, rfl, later⟩

/-- The length of a label, and the byte that a walk has there. -/
theorem NameAt.of_length {ch : UInt8} (reads : buf.bytes[pos]? = some ch) (plain : ch < 192)
    (named : NameAt buf 0 pos name pointers stop) :
    ch < 64 ∧ ((ch = 0 ∧ name = [0] ∧ pointers = 0 ∧ stop = pos + 1) ∨
      ch ≠ 0 ∧ ∃ name', name = ch :: name' ∧
        NameAt buf ch.toNat (pos + 1) name' pointers stop) := by
  cases named with
  | root zero =>
      cases reads.symm.trans zero
      exact ⟨by decide, .inl ⟨rfl, rfl, rfl, rfl⟩⟩
  | length other some short later =>
      cases reads.symm.trans other
      exact ⟨short, .inr ⟨some, _, rfl, later⟩⟩
  | pointer other isPointer _ _ =>
      cases reads.symm.trans other
      exact absurd isPointer (UInt8.not_le.mpr plain)

theorem NameAt.of_byte {ch : UInt8} (reads : buf.bytes[pos]? = some ch)
    (named : NameAt buf (left + 1) pos name pointers stop) :
    ∃ later, name = ch :: later ∧ NameAt buf left (pos + 1) later pointers stop := by
  cases named with
  | byte other later =>
      cases reads.symm.trans other
      exact ⟨_, rfl, later⟩

/-- There are so many pointers between two positions. -/
inductive Leads (buf : Packet) : Nat → Nat → Nat → Prop
  | here (pos : Nat) : Leads buf pos 0 pos
  | jump {pos pointers place : Nat} {high low : UInt8} (reads : buf.bytes[pos]? = some high)
      (isPointer : 192 ≤ high) (reads' : buf.bytes[pos + 1]? = some low)
      (later : Leads buf (target high low) pointers place) : Leads buf pos (pointers + 1) place

theorem Leads.nameAt {place pointers' stop' : Nat} (leads : Leads buf pos pointers place)
    (named : NameAt buf 0 place name pointers' stop') :
    NameAt buf 0 pos name (pointers' + pointers) (if pointers = 0 then stop' else pos + 2) := by
  induction leads with
  | here pos => exact named
  | jump reads isPointer reads' later ih => exact .pointer reads isPointer reads' (ih named)

theorem Leads.of_nameAt {place : Nat} {hops : Nat} (leads : Leads buf pos hops place)
    (named : NameAt buf 0 pos name pointers stop) :
    ∃ pointers' stop', pointers = pointers' + hops ∧ NameAt buf 0 place name pointers' stop' := by
  induction leads generalizing pointers stop with
  | here pos => exact ⟨pointers, stop, rfl, named⟩
  | jump reads isPointer reads' later ih =>
      obtain ⟨low', pointers₁, stop₁, again, rfl, rfl, named₁⟩ :=
        named.of_pointer reads isPointer
      cases reads'.symm.trans again
      obtain ⟨pointers₂, stop₂, rfl, named₂⟩ := ih named₁
      exact ⟨pointers₂, stop₂, rfl, named₂⟩

/-- There is no more than one name at a position. -/
theorem NameAt.unique {pointers' stop' : Nat} {name' : List UInt8}
    (named : NameAt buf left pos name pointers stop)
    (named' : NameAt buf left pos name' pointers' stop') :
    name' = name ∧ pointers' = pointers ∧ stop' = stop := by
  induction named generalizing name' pointers' stop' with
  | root reads =>
      obtain ⟨-, ⟨-, rfl, rfl, rfl⟩ | ⟨some, -⟩⟩ := named'.of_length reads (by decide)
      · exact ⟨rfl, rfl, rfl⟩
      · exact absurd rfl some
  | length reads some short later ih =>
      obtain ⟨-, ⟨zero, -⟩ | ⟨-, later', rfl, named⟩⟩ :=
        named'.of_length reads (UInt8.lt_trans short (by decide))
      · exact absurd zero some
      · obtain ⟨rfl, rfl, rfl⟩ := ih named
        exact ⟨rfl, rfl, rfl⟩
  | byte reads later ih =>
      obtain ⟨later', rfl, named⟩ := named'.of_byte reads
      obtain ⟨rfl, rfl, rfl⟩ := ih named
      exact ⟨rfl, rfl, rfl⟩
  | pointer reads isPointer reads' later ih =>
      obtain ⟨low, pointers, stop, again, rfl, rfl, named⟩ := named'.of_pointer reads isPointer
      cases reads'.symm.trans again
      obtain ⟨rfl, rfl, -⟩ := ih named
      exact ⟨rfl, rfl, rfl⟩

theorem HasName.unique {name' : List UInt8} {stop' : Nat} (has : HasName buf pos name stop)
    (has' : HasName buf pos name' stop') : name' = name ∧ stop' = stop := by
  obtain ⟨pointers, named, -⟩ := has
  obtain ⟨pointers', named', -⟩ := has'
  obtain ⟨same, -, stops⟩ := named.unique named'
  exact ⟨same, stops⟩

theorem EndsAt.unique {stop' : Nat} (ends : EndsAt buf pos stop) (ends' : EndsAt buf pos stop') :
    stop' = stop :=
  Except.ok.inj (ends'.skipname_eq.symm.trans ends.skipname_eq)

namespace NameWalk

variable {walk : NameWalk} {ch : UInt8}

theorem take_eq (reads : buf.bytes[walk.pos]? = some ch) :
    walk.take buf = .ok (ch, { walk with pos := walk.pos + 1 }) := by
  rw [take, if_neg (Nat.not_le_of_lt (Packet.lt_len reads)), Packet.read_eq reads]

theorem take_beyond (beyond : buf.bytes[walk.pos]? = none) : walk.take buf = .error .proto :=
  if_pos (List.getElem?_eq_none_iff.mp beyond)

theorem count_bind {α : Type} (walk : NameWalk) (f : NameWalk → Except Exit α) :
    walk.count >>= f =
      if 1000 ≤ walk.loop + 1 then .error .proto else f { walk with loop := walk.loop + 1 } := by
  rw [count]
  split <;> rfl

/-- So many bytes are in `name`. -/
structure Holds (walk : NameWalk) (front : List UInt8) : Prop where
  cells : walk.name = Region.ofBytes front ++ Region.fresh (256 - front.length)
  count : walk.namelen = front.length
  fits : front.length ≤ 256

theorem Holds.of_eq {walk' : NameWalk} {front : List UInt8} (holds : walk.Holds front)
    (name : walk'.name = walk.name) (namelen : walk'.namelen = walk.namelen) :
    walk'.Holds front :=
  ⟨name.trans holds.cells, namelen.trans holds.count, holds.fits⟩

theorem Holds.push_eq {front : List UInt8} (holds : walk.Holds front) (room : front.length < 256)
    (ch : UInt8) : ∃ name, walk.push ch =
        .ok { walk with name := name, namelen := walk.namelen + 1 } ∧
      Holds { walk with name := name, namelen := walk.namelen + 1 } (front ++ [ch]) := by
  have cells : Region.fresh (256 - front.length) =
      none :: Region.fresh (256 - (front ++ [ch]).length) := by
    rw [Region.fresh, Region.fresh, List.length_append, List.length_singleton,
      ← List.replicate_succ]
    congr 1
    omega
  refine ⟨_, ?_, rfl, ?_, ?_⟩
  · rw [push, if_neg (by rw [holds.count]; omega), holds.cells, holds.count, cells,
      Region.write_next]
  · rw [List.length_append, List.length_singleton, holds.count]
  · rw [List.length_append, List.length_singleton]
    exact room

theorem Holds.push_full {front : List UInt8} (holds : walk.Holds front)
    (full : ¬ front.length < 256) (ch : UInt8) : walk.push ch = .error .proto :=
  if_pos (by rw [holds.count]; omega)

end NameWalk

/-- What a pointer is followed to. -/
theorem followPointers_cut {walk : NameWalk} {high : UInt8} (isPointer : 192 ≤ high)
    (beyond : buf.bytes[walk.pos]? = none) (turns : Nat) :
    followPointers buf (turns + 1) high walk = .error .proto := by
  rw [followPointers, if_pos isPointer, NameWalk.take_beyond beyond]
  rfl

theorem followPointers_beyond {walk : NameWalk} {high low : UInt8} (isPointer : 192 ≤ high)
    (reads : buf.bytes[walk.pos]? = some low) (beyond : buf.bytes[target high low]? = none)
    (turns : Nat) : followPointers buf (turns + 1) high walk = .error .proto := by
  rw [followPointers, if_pos isPointer, NameWalk.take_eq reads]
  change (NameWalk.take buf (NameWalk.jump _ high low) >>= _) = _
  rw [NameWalk.take_beyond beyond]
  rfl

theorem followPointers_turn {walk : NameWalk} {high low ch : UInt8} (isPointer : 192 ≤ high)
    (reads : buf.bytes[walk.pos]? = some low) (reads' : buf.bytes[target high low]? = some ch)
    (turns : Nat) : followPointers buf (turns + 1) high walk =
      if 1000 ≤ walk.loop + 1 then .error .proto
      else followPointers buf turns ch { walk with
        pos := target high low + 1
        loop := walk.loop + 1
        firstcompress :=
          if walk.firstcompress = 0 then (walk.pos + 1) % 2 ^ 32 else walk.firstcompress } := by
  rw [followPointers, if_pos isPointer, NameWalk.take_eq reads]
  change (NameWalk.take buf (NameWalk.jump _ high low) >>= _) = _
  rw [NameWalk.take_eq reads']
  exact NameWalk.count_bind _ (followPointers buf turns ch)

/-- Where a name ends that `dns_packet_getname` has walked along up to `pos`. -/
def NameWalk.answer (walk : NameWalk) (pos : Nat) : Nat :=
  if walk.firstcompress ≠ 0 then walk.firstcompress else pos

/-- The walk after so many pointers from `pos`, which it left for `place`. -/
structure Followed (walk walk' : NameWalk) (pos hops place : Nat) : Prop where
  stands : walk'.pos = place + 1
  loop : walk'.loop = walk.loop + hops
  name : walk'.name = walk.name
  namelen : walk'.namelen = walk.namelen
  answer : ∀ stop, walk'.answer stop = walk.answer (if hops = 0 then stop else pos + 2)

/-- The inner loop stops at a byte that is no pointer, or there is no name within the limit. -/
theorem followPointers_cases {turns : Nat} {walk : NameWalk} {ch : UInt8}
    (reads : buf.bytes[pos]? = some ch) (behind : walk.pos = pos + 1) (below : walk.loop < 1000)
    (enough : 1000 ≤ turns + walk.loop) :
    (followPointers buf turns ch walk = .error .proto ∧
      ∀ name pointers stop, NameAt buf 0 pos name pointers stop → 1000 ≤ walk.loop + pointers) ∨
    ∃ hops place ch' walk', Leads buf pos hops place ∧ buf.bytes[place]? = some ch' ∧ ch' < 192 ∧
      walk.loop + hops < 1000 ∧ followPointers buf turns ch walk = .ok (ch', walk') ∧
      Followed walk walk' pos hops place := by
  induction turns generalizing pos walk ch with
  | zero => omega
  | succ turns ih =>
      by_cases isPointer : 192 ≤ ch
      · have here : buf.bytes[walk.pos]? = buf.bytes[pos + 1]? := by rw [behind]
        cases reads' : buf.bytes[pos + 1]? with
        | none =>
            left
            refine ⟨followPointers_cut isPointer (here.trans reads') turns,
              fun name pointers stop named => ?_⟩
            obtain ⟨low, _, _, some, -⟩ := named.of_pointer reads isPointer
            exact absurd (reads'.symm.trans some) (Option.some_ne_none low).symm
        | some low =>
            have firstcompress : (walk.pos + 1) % 2 ^ 32 = pos + 2 := by
              rw [behind]
              exact Nat.mod_eq_of_lt (Nat.lt_of_le_of_lt (Packet.lt_len reads') buf.fits)
            cases reads'' : buf.bytes[target ch low]? with
            | none =>
                left
                refine ⟨followPointers_beyond isPointer (here.trans reads') reads'' turns,
                  fun name pointers stop named => ?_⟩
                obtain ⟨low', _, _, again, -, -, later⟩ := named.of_pointer reads isPointer
                cases reads'.symm.trans again
                exact absurd later (NameAt.not_beyond reads'')
            | some ch' =>
                rw [followPointers_turn isPointer (here.trans reads') reads'' turns, firstcompress]
                by_cases limit : 1000 ≤ walk.loop + 1
                · left
                  rw [if_pos limit]
                  refine ⟨rfl, fun name pointers stop named => ?_⟩
                  obtain ⟨_, _, _, -, rfl, -, -⟩ := named.of_pointer reads isPointer
                  omega
                · rw [if_neg limit]
                  have later := @ih (target ch low) { walk with
                    pos := target ch low + 1
                    loop := walk.loop + 1
                    firstcompress :=
                      if walk.firstcompress = 0 then pos + 2 else walk.firstcompress } ch' reads''
                    rfl (Nat.lt_of_not_le limit) (by dsimp only; omega)
                  rcases later with ⟨none, unnamed⟩ |
                    ⟨hops, place, ch₂, walk', leads, at_place, plain, within, result, followed⟩
                  · left
                    refine ⟨none, fun name pointers stop named => ?_⟩
                    obtain ⟨low', pointers', stop', again, rfl, -, later⟩ :=
                      named.of_pointer reads isPointer
                    cases reads'.symm.trans again
                    have many := unnamed name pointers' stop' later
                    dsimp only at many
                    omega
                  · right
                    refine ⟨hops + 1, place, ch₂, walk', .jump reads isPointer reads' leads,
                      at_place, plain, by dsimp only at within; omega, result, followed.stands,
                      ?_, followed.name, followed.namelen, fun stop => ?_⟩
                    · have loop := followed.loop
                      dsimp only at loop
                      omega
                    · rw [followed.answer stop]
                      by_cases first : walk.firstcompress = 0 <;> simp [NameWalk.answer, first]
      · refine .inr ⟨0, pos, ch, walk, .here pos, reads, UInt8.not_le.mp isPointer, below, ?_,
          behind, rfl, rfl, rfl, fun stop => rfl⟩
        rw [followPointers, if_neg isPointer]

theorem getnameLoop_beyond {walk : NameWalk} (beyond : buf.bytes[walk.pos]? = none)
    (turns : Nat) : getnameLoop buf (turns + 1) walk = .error .proto := by
  rw [getnameLoop, NameWalk.take_beyond beyond]
  rfl

theorem getnameLoop_limit {walk : NameWalk} {ch : UInt8} (reads : buf.bytes[walk.pos]? = some ch)
    (limit : 1000 ≤ walk.loop + 1) (turns : Nat) :
    getnameLoop buf (turns + 1) walk = .error .proto := by
  rw [getnameLoop, NameWalk.take_eq reads]
  change (NameWalk.count _ >>= _) = _
  rw [NameWalk.count_bind, if_pos limit]

/-- A byte of a label. -/
theorem getnameLoop_byte {walk : NameWalk} {ch : UInt8} (reads : buf.bytes[walk.pos]? = some ch)
    (below : ¬ 1000 ≤ walk.loop + 1) (inLabel : walk.state = left + 1) (turns : Nat) :
    getnameLoop buf (turns + 1) walk =
      NameWalk.push { walk with pos := walk.pos + 1, loop := walk.loop + 1, state := left } ch >>=
        getnameLoop buf turns := by
  rw [getnameLoop, NameWalk.take_eq reads]
  change (NameWalk.count _ >>= _) = _
  rw [NameWalk.count_bind, if_neg below, if_pos (by dsimp only; omega), NameWalk.push,
    NameWalk.push]
  dsimp only
  split
  · rfl
  · split
    · rfl
    · rw [inLabel]
      rfl

/-- The length of a label, maybe behind some pointers. -/
theorem getnameLoop_length {walk walk' : NameWalk} {ch ch' : UInt8}
    (reads : buf.bytes[walk.pos]? = some ch) (below : ¬ 1000 ≤ walk.loop + 1)
    (atLength : walk.state = 0)
    (follows : followPointers buf 1000 ch
      { walk with pos := walk.pos + 1, loop := walk.loop + 1 } = .ok (ch', walk'))
    (turns : Nat) : getnameLoop buf (turns + 1) walk =
      if 64 ≤ ch' then .error .proto
      else walk'.push ch' >>= fun walk =>
        if ch' = 0 then .ok walk else getnameLoop buf turns { walk with state := ch'.toNat } := by
  rw [getnameLoop, NameWalk.take_eq reads]
  change (NameWalk.count _ >>= _) = _
  rw [NameWalk.count_bind, if_neg below, if_neg (not_not.mpr atLength), follows]
  rfl

theorem getnameLoop_unnamed {walk : NameWalk} {ch : UInt8}
    (reads : buf.bytes[walk.pos]? = some ch) (below : ¬ 1000 ≤ walk.loop + 1)
    (atLength : walk.state = 0)
    (follows : followPointers buf 1000 ch
      { walk with pos := walk.pos + 1, loop := walk.loop + 1 } = .error .proto)
    (turns : Nat) : getnameLoop buf (turns + 1) walk = .error .proto := by
  rw [getnameLoop, NameWalk.take_eq reads]
  change (NameWalk.count _ >>= _) = _
  rw [NameWalk.count_bind, if_neg below, if_neg (not_not.mpr atLength), follows]
  rfl

/-- What the loop makes of a name of which some is in `name`: all of it, or there is none
within the limits. -/
theorem getnameLoop_cases {turns : Nat} {walk : NameWalk} {front : List UInt8}
    (holds : walk.Holds front) (below : walk.loop < 1000) (enough : 1000 ≤ turns + walk.loop) :
    (getnameLoop buf turns walk = .error .proto ∧
      ∀ name pointers stop, NameAt buf walk.state walk.pos name pointers stop →
        ¬ (walk.loop + name.length + pointers < 1000 ∧ front.length + name.length ≤ 256)) ∨
    ∃ name pointers stop walk', NameAt buf walk.state walk.pos name pointers stop ∧
      walk.loop + name.length + pointers < 1000 ∧ getnameLoop buf turns walk = .ok walk' ∧
      walk'.Holds (front ++ name) ∧ walk'.answer walk'.pos = walk.answer stop := by
  induction turns generalizing walk front with
  | zero => omega
  | succ turns ih =>
      cases reads : buf.bytes[walk.pos]? with
      | none =>
          exact .inl ⟨getnameLoop_beyond reads turns, fun name pointers stop named =>
            absurd named (NameAt.not_beyond reads)⟩
      | some ch =>
          by_cases limit : 1000 ≤ walk.loop + 1
          · refine .inl ⟨getnameLoop_limit reads limit turns, fun name pointers stop named => ?_⟩
            have some := named.length_pos
            omega
          · cases state : walk.state with
            | succ left =>
                rw [getnameLoop_byte reads limit state]
                have holds' : NameWalk.Holds { walk with
                    pos := walk.pos + 1, loop := walk.loop + 1, state := left } front :=
                  holds.of_eq rfl rfl
                by_cases room : front.length < 256
                · obtain ⟨region, pushed, holds''⟩ := holds'.push_eq room ch
                  rw [pushed]
                  have later := ih holds'' (Nat.lt_of_not_le limit) (by dsimp only; omega)
                  rcases later with ⟨none, unnamed⟩ |
                    ⟨name, pointers, stop, walk', named, within, result, holds', answer⟩
                  · left
                    refine ⟨none, fun name pointers stop named => ?_⟩
                    obtain ⟨later, rfl, named'⟩ := named.of_byte reads
                    have tooLong := unnamed later pointers stop named'
                    simp only [List.length_append, List.length_cons, List.length_nil] at tooLong ⊢
                    omega
                  · right
                    refine ⟨ch :: name, pointers, stop, walk', .byte reads named, ?_, result, ?_,
                      answer⟩
                    · dsimp only at within
                      rw [List.length_cons]
                      omega
                    · rwa [List.append_assoc] at holds'
                · left
                  rw [holds'.push_full room]
                  refine ⟨rfl, fun name pointers stop named => ?_⟩
                  have some := named.length_pos
                  omega
            | zero =>
                rcases @followPointers_cases buf walk.pos 1000 { walk with
                    pos := walk.pos + 1, loop := walk.loop + 1 } ch reads rfl
                    (Nat.lt_of_not_le limit) (Nat.le_add_right _ _) with
                  ⟨none, unnamed⟩ | ⟨hops, place, ch', walk', leads, reads', plain, within, result, followed⟩
                · left
                  refine ⟨getnameLoop_unnamed reads limit state none turns,
                    fun name pointers stop named => ?_⟩
                  have many := unnamed name pointers stop named
                  have some := named.length_pos
                  dsimp only at many
                  omega
                · rw [getnameLoop_length reads limit state result]
                  by_cases long : 64 ≤ ch'
                  · left
                    refine ⟨if_pos long, fun name pointers stop named => ?_⟩
                    obtain ⟨_, _, -, named'⟩ := leads.of_nameAt named
                    exact absurd (named'.of_length reads' plain).1 (UInt8.not_lt.mpr long)
                  · rw [if_neg long]
                    have short := UInt8.not_le.mp long
                    have holds' : walk'.Holds front :=
                      holds.of_eq followed.name followed.namelen
                    have loop : walk'.loop = walk.loop + 1 + hops := followed.loop
                    have answers (stop : Nat) : walk'.answer stop =
                        walk.answer (if hops = 0 then stop else walk.pos + 2) :=
                      followed.answer stop
                    dsimp only at within
                    by_cases room : front.length < 256
                    · obtain ⟨region, pushed, holds''⟩ := holds'.push_eq room ch'
                      rw [pushed]
                      by_cases root : ch' = 0
                      · subst root
                        right
                        have named := leads.nameAt (.root reads')
                        refine ⟨[0], 0 + hops, _, _, named, ?_, rfl, holds'', ?_⟩
                        · simp only [List.length_singleton]
                          omega
                        · refine (answers walk'.pos).trans ?_
                          rw [followed.stands]
                      · have later := ih (@NameWalk.Holds.of_eq _ { walk' with
                          state := ch'.toNat, name := region, namelen := walk'.namelen + 1 } _
                            holds'' rfl rfl) (by dsimp only; omega) (by dsimp only; omega)
                        rcases later with ⟨none, unnamed⟩ |
                          ⟨name, pointers, stop, walk₂, named, within', result', holds₂, answer⟩
                        · left
                          refine ⟨(if_neg root).trans none, fun name pointers stop named => ?_⟩
                          obtain ⟨pointers', stop', rfl, named'⟩ := leads.of_nameAt named
                          obtain ⟨-, ⟨zero, -⟩ | ⟨-, later, rfl, named''⟩⟩ :=
                            named'.of_length reads' plain
                          · exact absurd zero root
                          · rw [← followed.stands] at named''
                            have tooLong := unnamed later pointers' stop' named''
                            simp only [List.length_append, List.length_cons,
                              List.length_nil] at tooLong ⊢
                            omega
                        · right
                          dsimp only at named within'
                          rw [followed.stands] at named
                          refine ⟨ch' :: name, pointers + hops, _, walk₂,
                            leads.nameAt (.length reads' root short named), ?_,
                            (if_neg root).trans result', ?_, ?_⟩
                          · rw [List.length_cons]
                            omega
                          · rwa [List.append_assoc] at holds₂
                          · exact answer.trans (answers stop)
                    · left
                      rw [holds'.push_full room]
                      refine ⟨rfl, fun name pointers stop named => ?_⟩
                      have some := named.length_pos
                      omega

/-! ## The copy of a name -/

theorem strlcpyLoop_eq {s behind rest : Region} {done text : List UInt8} {left : Nat}
    (source : s = Region.ofBytes (done ++ text ++ [0]) ++ behind) (noZero : 0 ∉ text)
    (room : left ≤ rest.length) :
    strlcpyLoop s left (Region.ofBytes done ++ rest) done.length =
      if text.length < left then
        .ok (Region.ofBytes (done ++ text ++ [0]) ++ rest.drop (text.length + 1),
          done.length + text.length)
      else
        .ok (Region.ofBytes (done ++ text.take left) ++ rest.drop left, done.length + left) := by
  induction left generalizing done text rest with
  | zero => simp [strlcpyLoop]
  | succ left ih =>
      cases rest with
      | nil => exact absurd room (Nat.not_succ_le_zero left)
      | cons cell rest =>
          cases text with
          | nil =>
              have read : s.read done.length = .ok 0 := by
                rw [source, List.append_nil]
                exact Region.read_front (by simp)
              rw [strlcpyLoop, read]
              change (Region.write _ _ 0 >>= _) = _
              rw [Region.write_next]
              simp
          | cons c text =>
              have read : s.read done.length = .ok c := by
                rw [source]
                exact Region.read_front (by simp)
              rw [strlcpyLoop, read]
              change (Region.write _ _ c >>= _) = _
              rw [Region.write_next]
              have other : c ≠ 0 := by
                rintro rfl
                exact noZero List.mem_cons_self
              have later := @ih rest (done ++ [c]) text (by simpa using source)
                (fun member => noZero (List.mem_cons_of_mem _ member)) (Nat.le_of_succ_le_succ room)
              rw [List.length_append, List.length_singleton] at later
              change (if c = 0 then _ else strlcpyLoop s left _ (done.length + 1)) = _
              rw [if_neg other, later]
              by_cases short : text.length < left
              · rw [if_pos short, if_pos (by simpa using short)]
                simp [Nat.add_assoc, Nat.add_comm 1 text.length]
              · rw [if_neg short, if_neg (by simpa using short)]
                simp [Nat.add_assoc, Nat.add_comm 1 left]

/-- `strlcpy` of a text that ends within a region. -/
theorem strlcpyInto_eq {s behind d : Region} {text : List UInt8} {n : Nat}
    (source : s = Region.ofBytes (text ++ [0]) ++ behind) (noZero : 0 ∉ text)
    (positive : 0 < n) (room : n ≤ d.length) :
    strlcpyInto d s n = .ok (Region.ofBytes (text.take (n - 1) ++ [0]) ++
      d.drop (min text.length (n - 1) + 1)) := by
  have copied := @strlcpyLoop_eq s behind d [] text (n - 1) source noZero (by omega)
  rw [strlcpyInto, if_neg (by omega)]
  change (strlcpyLoop s (n - 1) (Region.ofBytes [] ++ d) ([] : List UInt8).length >>= _) = _
  rw [copied]
  by_cases short : text.length < n - 1
  · rw [if_pos short, List.take_of_length_le (Nat.le_of_lt short),
      Nat.min_eq_left (Nat.le_of_lt short)]
    refine Region.write_again ?_
    simp [Region.ofBytes]
  · rw [if_neg short, Nat.min_eq_right (Nat.le_of_not_lt short)]
    have size : (text.take (n - 1)).length = n - 1 := by
      rw [List.length_take]
      omega
    have cell : ∃ cell, d.drop (n - 1) = cell :: d.drop (n - 1 + 1) :=
      ⟨_, List.drop_eq_getElem_cons (by omega)⟩
    obtain ⟨cell, behind_cell⟩ := cell
    have written := @Region.write_next (text.take (n - 1)) (d.drop (n - 1 + 1)) cell 0
    rw [size, ← behind_cell] at written
    rw [List.nil_append, List.length_nil, Nat.zero_add]
    exact written

/-- The part of a name that a function for texts takes it for. -/
def textOf (name : List UInt8) : List UInt8 :=
  name.takeWhile (· ≠ 0)

theorem not_mem_textOf (name : List UInt8) : 0 ∉ textOf name := fun member => by
  simpa using List.mem_takeWhile_imp member

theorem eq_textOf_append (zero : 0 ∈ name) :
    name = textOf name ++ [0] ++ name.drop ((textOf name).length + 1) := by
  induction name with
  | nil => cases zero
  | cons c name ih =>
      by_cases here : c = 0
      · subst here
        rfl
      · have later := (List.mem_cons.mp zero).resolve_left (Ne.symm here)
        have text : textOf (c :: name) = c :: textOf name :=
          List.takeWhile_cons_of_pos (by simpa using here)
        rw [text, List.length_cons, List.drop_succ_cons, List.cons_append, List.cons_append,
          ← ih later]

theorem NameAt.zero_mem (named : NameAt buf left pos name pointers stop) : 0 ∈ name := by
  induction named with
  | root => exact List.mem_singleton_self 0
  | length _ _ _ _ ih => exact List.mem_cons_of_mem _ ih
  | byte _ _ ih => exact List.mem_cons_of_mem _ ih
  | pointer _ _ _ _ ih => exact ih

theorem NameAt.stop_pos (named : NameAt buf left pos name pointers stop) : 0 < stop := by
  induction named with
  | root => exact Nat.succ_pos _
  | length _ _ _ _ ih => exact ih
  | byte _ _ ih => exact ih
  | pointer => exact Nat.succ_pos _

/-- What `dns_packet_getname` does at its end with a name of which it has all the bytes. -/
def handOut (domain : Region) (n : Nat) (name : List UInt8) : Except Fault Region :=
  if n ≠ 0 then
    strlcpyInto domain (Region.ofBytes name ++ Region.fresh (256 - name.length)) (n - 1)
  else domain.write 0 0

theorem handOut_eq {domain : Region} {n : Nat} (zero : 0 ∈ name) (size : 2 ≤ n)
    (room : n ≤ domain.length) : handOut domain n name =
      .ok (Region.ofBytes ((textOf name).take (n - 2) ++ [0]) ++
        domain.drop (min (textOf name).length (n - 2) + 1)) := by
  have source : Region.ofBytes name ++ Region.fresh (256 - name.length) =
      Region.ofBytes (textOf name ++ [0]) ++ (Region.ofBytes (name.drop ((textOf name).length + 1)) ++
        Region.fresh (256 - name.length)) := by
    rw [← List.append_assoc, ← Region.ofBytes_append, ← eq_textOf_append zero]
  rw [handOut, if_pos (by omega), strlcpyInto_eq source (not_mem_textOf name) (by omega) (by omega)]
  rfl

theorem exists_handOut {domain : Region} {n : Nat} (zero : 0 ∈ name) (some : 0 < domain.length)
    (room : n ≤ domain.length) : ∃ domain', handOut domain n name = .ok domain' := by
  match n with
  | 0 => exact ⟨_, if_pos some⟩
  | 1 => exact ⟨domain, rfl⟩
  | n + 2 => exact ⟨_, handOut_eq zero (by omega) room⟩

/-- `dns_packet_getname` finds a name that is there within its limits, and no other. -/
theorem dnsPacketGetname_cases (buf : Packet) (pos : Nat) (domain : Region) (n : Nat) :
    (dnsPacketGetname buf pos domain n = .ok (0, domain) ∧ ∀ name stop, ¬ HasName buf pos name stop) ∨
    ∃ name stop, HasName buf pos name stop ∧ 0 < stop ∧
      dnsPacketGetname buf pos domain n =
        handOut domain n name >>= fun domain => .ok (stop, domain) := by
  have start : NameWalk.Holds ⟨pos, 0, 0, 0, Region.fresh 256, 0⟩ [] :=
    ⟨rfl, rfl, Nat.zero_le _⟩
  rw [dnsPacketGetname]
  rcases @getnameLoop_cases buf 1000 _ [] start (Nat.zero_lt_succ 999) (Nat.le_refl 1000) with
    ⟨none, unnamed⟩ | ⟨name, pointers, stop, walk, named, within, result, holds, answer⟩
  · refine .inl ⟨by rw [none], fun name stop ⟨pointers, named, within, fits⟩ => ?_⟩
    refine unnamed name pointers stop named ⟨?_, ?_⟩
    · rwa [Nat.zero_add]
    · rwa [List.length_nil, Nat.zero_add]
  · refine .inr ⟨name, stop, ⟨pointers, named, ?_, holds.fits⟩, named.stop_pos, ?_⟩
    · rwa [Nat.zero_add] at within
    · have behind : walk.answer walk.pos = stop := answer
      have cells : walk.name = Region.ofBytes name ++ Region.fresh (256 - name.length) :=
        holds.cells
      rw [NameWalk.answer] at behind
      rw [result, handOut, ← cells]
      dsimp only
      rw [behind]
      split <;> rfl

/-- The two walks agree on every packet, and both end within it. -/
theorem dnsPacketGetname_skipname (buf : Packet) (pos : Nat) {domain : Region} {n : Nat}
    (some : 0 < domain.length) (room : n ≤ domain.length) :
    ∃ skipped stop domain', dnsPacketSkipname buf pos = .ok skipped ∧
      dnsPacketGetname buf pos domain n = .ok (stop, domain') ∧ (stop ≠ 0 → skipped = stop) := by
  obtain ⟨skipped, skips, -⟩ := exists_dnsPacketSkipname buf pos
  rcases dnsPacketGetname_cases buf pos domain n with
    ⟨none, -⟩ | ⟨name, stop, ⟨pointers, named, -, -⟩, -, result⟩
  · exact ⟨skipped, 0, domain, skips, none, fun none => absurd rfl none⟩
  · obtain ⟨domain', copied⟩ := exists_handOut named.zero_mem some room
    rw [copied] at result
    exact ⟨stop, stop, domain', named.endsAt.skipname_eq, result, fun _ => rfl⟩

theorem dnsPacketGetname_skipname_compressed :
    ∃ skipped stop domain', dnsPacketSkipname ⟨[1, 97, 0, 192, 0], by decide⟩ 3 = .ok skipped ∧
      dnsPacketGetname ⟨[1, 97, 0, 192, 0], by decide⟩ 3 (Region.fresh 256) 256 =
        .ok (stop, domain') ∧ (stop ≠ 0 → skipped = stop) :=
  dnsPacketGetname_skipname ⟨[1, 97, 0, 192, 0], by decide⟩ 3
    (by rw [Region.length_fresh]; decide) (Region.length_fresh 256).ge

end Dns

end Chaosircd
