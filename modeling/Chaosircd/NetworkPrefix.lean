import Chaosircd.BanCoverage
import Chaosircd.BanNetwork

/-!
# The network of a ban

An address is four bytes in memory, the first one in front, and the code reads them as one
word.  Which number that is depends on the host, and so does the netmask that is cleared bit
by bit.  The test of a client against an entry is about the words; in memory it is about the
first bits of two addresses.
-/

namespace Chaosircd

/-- How a host reads four bytes as a word. -/
inductive ByteOrder where
  | big
  | little
  deriving DecidableEq

namespace ByteOrder

/-- The word that four bytes in memory are. -/
def word : ByteOrder → BitVec 8 → BitVec 8 → BitVec 8 → BitVec 8 → BitVec 32
  | .big, c₀, c₁, c₂, c₃ => c₀ ++ c₁ ++ c₂ ++ c₃
  | .little, c₀, c₁, c₂, c₃ => c₃ ++ c₂ ++ c₁ ++ c₀

/-- `htonl`, and what `uint32_pack_big` writes. -/
def htonl (order : ByteOrder) (n : BitVec 32) : BitVec 32 :=
  order.word (n.extractLsb' 24 8) (n.extractLsb' 16 8) (n.extractLsb' 8 8) (n.extractLsb' 0 8)

/-- Where in a word the host has a byte of memory. -/
def shift : ByteOrder → Nat → Nat
  | .big, place => 24 - 8 * place
  | .little, place => 8 * place

/-- A byte of a word in memory. -/
def byteAt (order : ByteOrder) (w : BitVec 32) (place : Nat) : BitVec 8 :=
  w.extractLsb' (order.shift place) 8

/-- A bit of a word in memory, the first one the highest of the first byte. -/
def bitAt (order : ByteOrder) (w : BitVec 32) (i : Nat) : Bool :=
  (order.byteAt w (i / 8)).getMsbD (i % 8)

variable {order : ByteOrder} {i : Nat}

theorem bitAt_eq (w : BitVec 32) (i : Nat) :
    order.bitAt w i = w.getLsbD (order.shift (i / 8) + (7 - i % 8)) := by
  have inside : i % 8 < 8 := Nat.mod_lt i (by decide)
  rw [bitAt, byteAt, BitVec.getMsbD, BitVec.getLsbD_extractLsb']
  simp [inside]
  omega

@[simp]
theorem bitAt_and (v w : BitVec 32) :
    order.bitAt (v &&& w) i = (order.bitAt v i && order.bitAt w i) := by
  simp only [bitAt_eq, BitVec.getLsbD_and]

theorem ne_zero_of_bitAt {w : BitVec 32} (set : order.bitAt w i = true) : w ≠ 0 := by
  rintro rfl
  rw [bitAt_eq] at set
  simp at set

theorem shift_lt (below : i < 32) : order.shift (i / 8) + (7 - i % 8) < 32 := by
  cases order <;> simp only [shift] <;> omega

theorem bitAt_not (w : BitVec 32) (below : i < 32) :
    order.bitAt (~~~w) i = !order.bitAt w i := by
  rw [bitAt_eq, bitAt_eq, BitVec.getLsbD_not, decide_eq_true (shift_lt below), Bool.true_and]

theorem bitAt_ones (below : i < 32) : order.bitAt 0xffffffff i = true := by
  rw [bitAt_eq, show (0xffffffff : BitVec 32) = BitVec.allOnes 32 from rfl,
    BitVec.getLsbD_allOnes, decide_eq_true (shift_lt below)]

/-- Two words are equal where their bytes in memory are. -/
theorem eq_iff_bitAt {v w : BitVec 32} :
    v = w ↔ ∀ i < 32, order.bitAt v i = order.bitAt w i := by
  refine ⟨fun same _ _ => by rw [same], fun same => ?_⟩
  apply BitVec.eq_of_getLsbD_eq
  intro j below
  cases order with
  | big =>
      have bit := same (31 - j) (by omega)
      simp only [bitAt_eq, shift] at bit
      rwa [show 24 - 8 * ((31 - j) / 8) + (7 - (31 - j) % 8) = j by omega] at bit
  | little =>
      have bit := same (8 * (j / 8) + (7 - j % 8)) (by omega)
      simp only [bitAt_eq, shift] at bit
      rwa [show 8 * ((8 * (j / 8) + (7 - j % 8)) / 8) + (7 - (8 * (j / 8) + (7 - j % 8)) % 8) = j
        by omega] at bit

/-- In memory a word in network order has its highest bit first. -/
theorem bitAt_htonl (n : BitVec 32) (below : i < 32) :
    order.bitAt (order.htonl n) i = n.getMsbD i := by
  rw [bitAt_eq]
  cases order with
  | big =>
      simp only [htonl, word, shift, BitVec.getLsbD_append, BitVec.getLsbD_extractLsb',
        BitVec.getMsbD]
      grind
  | little =>
      simp only [htonl, word, shift, BitVec.getLsbD_append, BitVec.getLsbD_extractLsb',
        BitVec.getMsbD]
      grind

/-! ## The text of an address -/

theorem htonl_and (m n : BitVec 32) :
    order.htonl (m &&& n) = order.htonl m &&& order.htonl n := by
  refine (@eq_iff_bitAt order _ _).mpr fun i below => ?_
  rw [bitAt_and, bitAt_htonl _ below, bitAt_htonl _ below, bitAt_htonl _ below,
    BitVec.getMsbD_and]

theorem htonl_not (n : BitVec 32) : order.htonl (~~~n) = ~~~order.htonl n := by
  refine (@eq_iff_bitAt order _ _).mpr fun i below => ?_
  rw [bitAt_not _ below, bitAt_htonl _ below, bitAt_htonl _ below, BitVec.getMsbD_not,
    decide_eq_true below, Bool.true_and]

theorem htonl_inj {m n : BitVec 32} : order.htonl m = order.htonl n ↔ m = n := by
  refine ⟨fun same => ?_, fun same => by rw [same]⟩
  refine BitVec.eq_of_getMsbD_eq fun i below => ?_
  have bit : order.bitAt (order.htonl m) i = order.bitAt (order.htonl n) i := by rw [same]
  rwa [bitAt_htonl _ below, bitAt_htonl _ below] at bit

end ByteOrder

/-! ## The text of an address -/

/-- What stands behind a number in a text: nothing, or a dot. -/
def NumberEnds (rest : CString) : Prop :=
  rest = [] ∨ rest.head? = some '.'

theorem strToulDigits_of_ends {rest : CString} (ends : NumberEnds rest) {base : Nat}
    (small : base ≤ 16) (v : Nat) : strToulDigits base v rest = some (v, rest) := by
  cases rest with
  | nil => rfl
  | cons c rest =>
      have dot : c = '.' := by simpa [NumberEnds] using ends
      subst dot
      rw [strToulDigits, if_pos]
      exact small.trans (by decide)

theorem strToulDigits_digits {ds rest : CString} (digits : ∀ d ∈ ds, strIsdigit d)
    (ends : NumberEnds rest) {v : Nat} (bounded : Nat.ofDigitChars 10 ds v < 2 ^ 64) :
    strToulDigits 10 v (ds ++ rest) = some (Nat.ofDigitChars 10 ds v, rest) := by
  induction ds generalizing v with
  | nil => exact strToulDigits_of_ends ends (by decide) v
  | cons d ds ih =>
      have digit : strIsdigit d := digits d List.mem_cons_self
      obtain ⟨value, small⟩ := BanList.digitValue_of_strIsdigit digit
      rw [Nat.ofDigitChars_cons] at bounded ⊢
      have valueBound : 10 * v + (d.toNat - '0'.toNat) < 2 ^ 64 :=
        Nat.lt_of_le_of_lt (le_ofDigitChars ds _) bounded
      have product : v * 10 % 2 ^ 64 = 10 * v := by
        rw [Nat.mul_comm]
        exact Nat.mod_eq_of_lt (by omega)
      have noWrap : ¬ 10 * v < v := by omega
      rw [List.cons_append, strToulDigits, if_neg (Nat.not_le_of_lt small)]
      dsimp only
      rw [product, if_neg noWrap, value, Nat.mod_eq_of_lt valueBound]
      exact ih (fun d member => digits d (List.mem_cons_of_mem _ member)) bounded

/-- A numeral of a byte does not start like an octal one. -/
theorem head_toDigits_byte :
    ∀ m < 256, m ≠ 0 → (Nat.toDigits 10 m).head? ≠ some '0' := by
  decide +kernel

/-- A numeral that starts with a digit is not skipped in part. -/
theorem strToulAny_of_digit {d : Char} (digit : strIsdigit d) (notOctal : d ≠ '0') {cs : CString}
    {v : Nat} {rest : CString} (read : strToulDigits 10 0 (d :: cs) = some (v, rest)) :
    strToulAny (d :: cs) = (v, rest) := by
  have notMinus : d ≠ '-' := by
    rintro rfl
    simp [strIsdigit] at digit
  have notPlus : d ≠ '+' := by
    rintro rfl
    simp [strIsdigit] at digit
  have unskipped : (d :: cs).dropWhile strIsspace = d :: cs := by
    rw [List.dropWhile_cons_of_neg]
    simp [not_strIsspace_of_strIsdigit digit]
  simp only [strToulAny, unskipped, skipSign, if_neg notMinus, if_neg notPlus,
    List.head?_cons, Option.some.injEq]
  split
  · next overflows =>
      split at overflows
      · next same => exact absurd (List.cons.inj same).1 notOctal
      · next same => exact absurd (List.cons.inj same).1 notOctal
      · next same => exact absurd (List.cons.inj same).1 notOctal
      · exact absurd (overflows.symm.trans read) (Option.some_ne_none _).symm
  · next reads =>
      split at reads
      · next same => exact absurd (List.cons.inj same).1 notOctal
      · next same => exact absurd (List.cons.inj same).1 notOctal
      · next same => exact absurd (List.cons.inj same).1 notOctal
      · cases Option.some.inj (reads.symm.trans read)
        rfl

theorem strToulAny_byte {m : Nat} (byte : m < 256) {rest : CString} (ends : NumberEnds rest) :
    strToulAny (Nat.toDigits 10 m ++ rest) = (m, rest) := by
  by_cases zero : m = 0
  · subst zero
    have read : strToulDigits 8 0 ('0' :: rest) = some (0, rest) :=
      strToulDigits_of_ends ends (by decide) 0
    cases rest with
    | nil => rfl
    | cons c rest =>
        have dot : c = '.' := by simpa [NumberEnds] using ends
        subst dot
        simp [strToulAny, skipSign, strIsspace, read]
  · obtain ⟨d, ds, same, digit⟩ := @head_toDigits m
    have notOctal : d ≠ '0' := by
      have head := head_toDigits_byte m byte zero
      rw [same] at head
      simpa using head
    have read := @strToulDigits_digits (Nat.toDigits 10 m) _
      (fun _ member => strIsdigit_of_mem_toDigits member) ends 0
      (by rw [Nat.ofDigitChars_ten_toDigits]; omega)
    rw [Nat.ofDigitChars_ten_toDigits] at read
    rw [same] at read ⊢
    exact strToulAny_of_digit digit notOctal read

theorem formatLu_byte {m : Nat} (byte : m < 256) : formatLu m = Nat.toDigits 10 m := by
  rw [formatLu, Nat.mod_eq_of_lt (by omega)]

/-- A number before a dot is one byte of the address. -/
theorem netAtonLoop_dot {m : Nat} (byte : m < 256) (fuel i ip : Nat) (rest : CString) :
    netAtonLoop (fuel + 1) i ip (formatLu m ++ '.' :: rest) =
      netAtonLoop fuel (i - 8) (ip ||| m <<< i) rest := by
  have small : ¬ 255 < timeT m := by
    rw [timeT_of_lt (by omega)]
    omega
  rw [formatLu_byte byte, netAtonLoop, strToulAny_byte byte (.inr rfl)]
  dsimp only
  rw [if_pos rfl, if_neg small]

theorem netAtonLoop_last {m : Nat} (byte : m < 256) (fuel i ip : Nat) :
    netAtonLoop (fuel + 1) i ip (formatLu m) = some ((ip ||| m) % 2 ^ 32) := by
  have read := strToulAny_byte byte (.inl rfl)
  rw [List.append_nil] at read
  rw [formatLu_byte byte, netAtonLoop, read]

/-- `net_aton` reads what `net_ntoa` writes. -/
theorem netAton_netNtoa {addr : Nat} (bounded : addr < 2 ^ 32) :
    netAton (netNtoa addr) = some addr := by
  have byte (shift : Nat) : addr >>> shift % 256 < 256 := Nat.mod_lt _ (by decide)
  have lengths : ∃ fuel, (netNtoa addr).length + 1 = fuel + 4 := by
    refine ⟨(netNtoa addr).length - 3, ?_⟩
    simp only [netNtoa, List.length_append, List.length_cons]
    omega
  obtain ⟨fuel, enough⟩ := lengths
  rw [netAton, enough, netNtoa]
  simp only [List.append_assoc, List.cons_append]
  rw [netAtonLoop_dot (byte 24), netAtonLoop_dot (byte 16), netAtonLoop_dot (byte 8),
    netAtonLoop_last (Nat.mod_lt addr (by decide))]
  refine congrArg some (Nat.eq_of_testBit_eq fun i => ?_)
  rw [show 256 = 2 ^ 8 from rfl]
  simp only [Nat.testBit_mod_two_pow, Nat.testBit_or, Nat.testBit_shiftLeft,
    Nat.testBit_shiftRight, Nat.zero_testBit, Bool.false_or, Nat.reduceSub]
  by_cases inside : i < 32
  · have place (s : Nat) : (decide (i ≥ s) && (decide (i - s < 8) && addr.testBit (s + (i - s)))) =
        (decide (s ≤ i ∧ i < s + 8) && addr.testBit i) := by
      by_cases above : s ≤ i
      · have same : i - s < 8 ↔ s ≤ i ∧ i < s + 8 := by omega
        rw [Nat.add_sub_of_le above, decide_eq_true above, Bool.true_and, decide_eq_decide.mpr same]
      · have outside : ¬ (s ≤ i ∧ i < s + 8) := fun within => above within.1
        rw [decide_eq_false above, decide_eq_false outside, Bool.false_and, Bool.false_and]
    rw [place 24, place 16, place 8, decide_eq_true inside, Bool.true_and]
    cases addr.testBit i with
    | false => simp
    | true =>
        simp only [Bool.and_true, Bool.or_eq_true, decide_eq_true_eq]
        omega
  · have beyond : addr.testBit i = false :=
      Nat.testBit_lt_two_pow (lt_of_lt_of_le bounded (Nat.pow_le_pow_right (by decide) (by omega)))
    simp [inside, beyond]

theorem plain_netNtoa (addr : Nat) : '/' ∉ netNtoa addr := by
  have digits (m : Nat) : '/' ∉ formatLu m := fun member =>
    absurd (strIsdigit_of_mem_toDigits member) (by decide)
  simp [netNtoa, digits]

theorem length_formatLu_byte {m : Nat} (byte : m < 256) : (formatLu m).length ≤ 3 := by
  rw [formatLu_byte byte, Nat.length_toDigits_le_iff (by decide) (by decide)]
  omega

theorem length_netNtoa_le (addr : Nat) : (netNtoa addr).length ≤ 15 := by
  have byte (m : Nat) : (formatLu (m % 256)).length ≤ 3 :=
    length_formatLu_byte (Nat.mod_lt m (by decide))
  have first := byte (addr >>> 24)
  have second := byte (addr >>> 16)
  have third := byte (addr >>> 8)
  have fourth := byte addr
  simp only [netNtoa, List.length_append, List.length_cons]
  omega

namespace BanList

open Modes (cutAt after)

/-! ## The words of an entry -/

/-- The loop of `m_kline_mask` over the bits that are cleared, on a netmask in memory. -/
def clearBitsOn (order : ByteOrder) (mbc : Nat) : BitVec 32 :=
  (List.range mbc).foldl (fun mask i => mask &&& ~~~order.htonl ((1 : BitVec 32) <<< i)) 0xffffffff

/-- `m_kline_mask` on a host: the words that its `addr` and `mask` are. -/
def lineMaskOn (order : ByteOrder) (host : CString) : BitVec 32 × BitVec 32 :=
  match readNetwork (strlcpy host 32) with
  | none => (0, 0)
  | some (ip, mbc) =>
    if order.htonl ip ≠ 0 then
      let mask := clearBitsOn order (32 - reduceBits mbc mbc)
      (order.htonl ip &&& mask, mask)
    else (0, 0)

theorem clearBitsOn_succ (order : ByteOrder) (mbc : Nat) :
    clearBitsOn order (mbc + 1) =
      clearBitsOn order mbc &&& ~~~order.htonl ((1 : BitVec 32) <<< mbc) := by
  rw [clearBitsOn, List.range_succ, List.foldl_append]
  rfl

theorem clearBitsOn_eq (order : ByteOrder) (mbc : Nat) :
    clearBitsOn order mbc = order.htonl (clearBits mbc) := by
  induction mbc with
  | zero => cases order <;> rfl
  | succ mbc ih =>
      rw [clearBitsOn_succ, ih, clearBits_succ, ByteOrder.htonl_and, ByteOrder.htonl_not]

/-- On a host the words are those of the numbers. -/
theorem lineMaskOn_eq (order : ByteOrder) (host : CString) :
    lineMaskOn order host = (order.htonl (lineMask host).1, order.htonl (lineMask host).2) := by
  have zero : order.htonl 0 = 0 := by cases order <;> rfl
  rw [lineMaskOn, lineMask]
  cases readNetwork (strlcpy host 32) with
  | none => rw [zero]
  | some network =>
      dsimp only
      by_cases any : network.1 = 0
      · rw [any, zero, if_neg (not_not.mpr rfl), if_neg (not_not.mpr rfl), zero]
      · have some : order.htonl network.1 ≠ 0 := fun same =>
          any (ByteOrder.htonl_inj.mp (same.trans zero.symm))
        rw [if_pos some, if_pos any, clearBitsOn_eq, ByteOrder.htonl_and]

/-- The test of `m_kline_find` is the one on numbers, whatever the host. -/
theorem and_lineMaskOn_iff (order : ByteOrder) (host : CString) (client : Address) :
    order.htonl client &&& (lineMaskOn order host).2 = (lineMaskOn order host).1 ↔
      client &&& (lineMask host).2 = (lineMask host).1 := by
  rw [lineMaskOn_eq, ← ByteOrder.htonl_and, ByteOrder.htonl_inj]

/-! ## Networks -/

/-- The text of a network: an address with the number of bits behind it, or alone. -/
def IsNetwork (address : Address) (bits : Nat) (host : CString) : Prop :=
  host = netNtoa address.toNat ++ '/' :: formatLu bits ∨ bits = 32 ∧ host = netNtoa address.toNat

theorem readNetwork_of_isNetwork {address : Address} {bits : Nat} {host : CString}
    (inside : bits ≤ 32) (text : IsNetwork address bits host) :
    readNetwork (strlcpy host 32) = some (address, bits) := by
  have short := length_netNtoa_le address.toNat
  have read := netAton_netNtoa address.isLt
  rcases text with rfl | ⟨rfl, rfl⟩
  · have fits : (netNtoa address.toNat ++ '/' :: formatLu bits).length < 32 := by
      have digits := length_formatLu_byte (show bits < 256 by omega)
      rw [List.length_append, List.length_cons]
      omega
    rw [strlcpy_eq_self fits, readNetwork, Modes.cutAt_append_cons _ (plain_netNtoa _),
      Modes.after_append_cons _ (plain_netNtoa _), read, if_pos (by simp), strToul_formatLu,
      Nat.mod_mod, Nat.mod_eq_of_lt (by omega)]
    simp
  · rw [strlcpy_eq_self (by omega), readNetwork, Modes.cutAt_eq_self (plain_netNtoa _), read,
      if_neg (plain_netNtoa _)]
    simp

variable {order : ByteOrder}

/-- Clearing bits from the low end leaves the first ones in memory. -/
theorem bitAt_clearBitsOn {mbc i : Nat} (below : i < 32) :
    order.bitAt (clearBitsOn order mbc) i = decide (i + mbc < 32) := by
  rw [clearBitsOn_eq, ByteOrder.bitAt_htonl _ below, BitVec.getMsbD, decide_eq_true below,
    Bool.true_and, getLsbD_clearBits (by omega)]
  congr 1
  rw [eq_iff_iff]
  omega

/-- A masked address in memory: the first bits of the address, and nothing else. -/
theorem bitAt_masked (address : Address) {bits i : Nat} (inside : bits ≤ 32) (below : i < 32) :
    order.bitAt (order.htonl address &&& clearBitsOn order (32 - bits)) i =
      (address.getMsbD i && decide (i < bits)) := by
  rw [ByteOrder.bitAt_and, ByteOrder.bitAt_htonl _ below, bitAt_clearBitsOn below]
  congr 2
  rw [eq_iff_iff]
  omega

theorem lineMaskOn_of_isNetwork {address : Address} {bits : Nat} {host : CString}
    (inside : bits ≤ 32) (text : IsNetwork address bits host)
    (named : ∃ i < bits, address.getMsbD i) :
    lineMaskOn order host =
      (order.htonl address &&& clearBitsOn order (32 - bits), clearBitsOn order (32 - bits)) := by
  obtain ⟨i, within, set⟩ := named
  have notAny : order.htonl address ≠ 0 :=
    @ByteOrder.ne_zero_of_bitAt order i _ ((ByteOrder.bitAt_htonl _ (by omega)).trans set)
  rw [lineMaskOn, readNetwork_of_isNetwork inside text]
  dsimp only
  rw [if_pos notAny, reduceBits_of_le inside]

/-- On every host the words of a network's entry are met by the addresses that begin like the
network, and `m_kline_find` looks at them. -/
theorem lineMaskOn_meets_iff (order : ByteOrder) {address : Address} {bits : Nat}
    {host : CString} (inside : bits ≤ 32) (text : IsNetwork address bits host)
    (named : ∃ i < bits, address.getMsbD i) :
    (lineMaskOn order host).1 ≠ 0 ∧
      ∀ client : BitVec 32, client &&& (lineMaskOn order host).2 = (lineMaskOn order host).1 ↔
        ∀ i < bits, order.bitAt client i = address.getMsbD i := by
  rw [lineMaskOn_of_isNetwork inside text named]
  dsimp only
  constructor
  · obtain ⟨i, within, set⟩ := named
    refine @ByteOrder.ne_zero_of_bitAt order i _ ?_
    rw [bitAt_masked address inside (by omega), set, decide_eq_true within]
    rfl
  · intro client
    rw [@ByteOrder.eq_iff_bitAt order]
    constructor
    · intro same i within
      have bit := same i (by omega)
      rw [bitAt_masked address inside (by omega), ByteOrder.bitAt_and,
        bitAt_clearBitsOn (by omega), decide_eq_true (by omega), decide_eq_true within] at bit
      simpa using bit
    · intro same i below
      rw [bitAt_masked address inside below, ByteOrder.bitAt_and, bitAt_clearBitsOn below]
      by_cases within : i < bits
      · rw [same i within, decide_eq_true within, decide_eq_true (by omega)]
      · rw [decide_eq_false within, decide_eq_false (by omega), Bool.and_false, Bool.and_false]

theorem lineMaskOn_meets_iff_private :
    IsNetwork 0x0a010000 16 "10.1.0.0/16".toList ∧ (lineMaskOn .little "10.1.0.0/16".toList).1 ≠ 0 ∧
      ∀ client : BitVec 32,
        client &&& (lineMaskOn .little "10.1.0.0/16".toList).2 =
            (lineMaskOn .little "10.1.0.0/16".toList).1 ↔
          ∀ i < 16, ByteOrder.little.bitAt client i = (0x0a010000 : Address).getMsbD i :=
  have text : IsNetwork 0x0a010000 16 "10.1.0.0/16".toList := .inl (by decide)
  ⟨text, lineMaskOn_meets_iff .little (by decide) text ⟨4, by decide, by decide⟩⟩

end BanList

end Chaosircd
