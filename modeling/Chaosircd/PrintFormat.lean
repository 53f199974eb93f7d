import Chaosircd.Numerals
import Mathlib.Algebra.Order.Ring.Nat

/-!
# Formatted print to a string

`str_vsnprintf` copies a format to a buffer and replaces the directives in it.  The width of
a directive is an `unsigned` that is counted down while its text is copied, and counts on
below zero where the text is longer.
-/

namespace Chaosircd

namespace PrintFormat

/-! ## The texts of numbers -/

/-- The loop of `str_lltoa` and its likes; no 64-bit number fills the 32 bytes. -/
def digitLoop : Nat → Int → CString
  | 0, _ => []
  | room + 1, ll =>
    let c := Char.ofNat ('0'.toNat + ll.tmod 10).toNat
    if ll.tdiv 10 = 0 then [c] else digitLoop room (ll.tdiv 10) ++ [c]

/-- `str_lltoa`. -/
def strLltoa (ll : BitVec 64) : CString :=
  if ll.toInt < 0 then '-' :: digitLoop 32 (-ll).toInt else digitLoop 32 ll.toInt

/-- `str_llutoa`. -/
def strLlutoa (llu : BitVec 64) : CString :=
  digitLoop 32 llu.toNat

/-- `str_ltoa` of an `int32_t`. -/
def strLtoa (l : BitVec 32) : CString :=
  strLltoa (l.signExtend 64)

/-- `str_lutoa` of an `uint32_t`. -/
def strLutoa (l : BitVec 32) : CString :=
  strLlutoa (l.zeroExtend 64)

/-- The character of `str_hexchars` for the four bits from a place on. -/
def hexchar (v : BitVec 64) (shift : Nat) : Char :=
  Nat.digitChar (v.toNat / 2 ^ shift % 16)

/-- `str_ptoa`. -/
def strPtoa (v : BitVec 64) : CString :=
  if v = 0 then "(nil)".toList
  else '0' :: 'x' :: [0x1c, 0x18, 0x14, 0x10, 0x0c, 0x08, 0x04, 0x00].map (hexchar v)

/-! ## Arguments -/

/-- An element of the `va_list`. -/
inductive Arg where
  | str (s : Option CString)
  | word32 (w : BitVec 32)
  | word64 (w : BitVec 64)
  | ptr (p : BitVec 64)

/-- `va_arg(args, const char *)`. -/
def argStr : List Arg → Option (Option CString × List Arg)
  | .str s :: args => some (s, args)
  | _ => none

/-- `va_arg(args, uint32_t)`, and the other types of 32 bits. -/
def arg32 : List Arg → Option (BitVec 32 × List Arg)
  | .word32 w :: args => some (w, args)
  | _ => none

/-- `va_arg(args, uint64_t)`, and `int64_t`. -/
def arg64 : List Arg → Option (BitVec 64 × List Arg)
  | .word64 w :: args => some (w, args)
  | _ => none

/-- `va_arg(args, void *)`. -/
def argPtr : List Arg → Option (BitVec 64 × List Arg)
  | .ptr p :: args => some (p, args)
  | _ => none

/-! ## Copying a text -/

/-- `while(padding-- && bytes < n)`: what is written, and the counter. -/
def padLoop (n : Nat) (pad : Char) : Nat → CString → CString × Nat
  | 0, out => (out, 2 ^ 32 - 1)
  | padding + 1, out =>
    if out.length < n then padLoop n pad padding (out ++ [pad]) else (out, padding)

/-- `while(*p1 && bytes < n)`: what is written, and the counter. -/
def copyLoop (n : Nat) : CString → CString → Nat → CString × Nat
  | [], out, padding => (out, padding)
  | c :: text, out, padding =>
    if out.length < n then copyLoop n text (out ++ [c]) ((padding + (2 ^ 32 - 1)) % 2 ^ 32)
    else (out, padding)

/-- The body shared by the conversions: the padding on the left, the text, the padding on the
right. -/
def emit (n : Nat) (left : Bool) (padding : Nat) (pad : Char) (text out : CString) : CString :=
  let (out, padding) :=
    if left = false ∧ text.length < padding then padLoop n pad (padding - text.length) out
    else (out, padding)
  let (out, padding) := copyLoop n text out padding
  if left = true ∧ 0 < padding then (padLoop n ' ' padding out).1 else out

/-! ## Directives -/

/-- What is read between a `%` and the conversion; `longlev` is kept from one directive to
the next. -/
structure Spec where
  left : Bool
  padding : Nat
  pad : Char
  longlev : Nat

/-- The branch for `I64`: any two characters are skipped. -/
def readI64 (spec : Spec) : List Char → Option (Spec × Char × List Char)
  | six :: four :: c :: f =>
    let longlev := spec.longlev + (if six = '6' then 1 else 0) + if strIsdigit four then 1 else 0
    some ({ spec with longlev := longlev }, c, f)
  | _ => none

/-- The part of the loop in front of the conversions, in three phases: a `-` may follow, a
`0` may follow, digits follow.  There is no result behind the end of the format. -/
def readSpec : List Char → Nat → Spec → Option (Spec × Char × List Char)
  | [], _, _ => none
  | c :: f, phase, spec =>
    if phase = 0 ∧ c = '-' then readSpec f 1 { spec with left := true }
    else if phase ≤ 1 ∧ c = '0' then readSpec f 2 { spec with pad := '0' }
    else if strIsdigit c then
      readSpec f 2
        { spec with padding := (spec.padding * 10 + (c.toNat - '0'.toNat)) % 2 ^ 32 }
    else if c = 'l' then readSpec f 0 { spec with longlev := spec.longlev + 1 }
    else if c = 'I' then readI64 spec f
    else some (spec, c, f)

/-- The formats that are registered in `str_table`: what one of them writes, given the number
of bytes so far and their limit, the padding, the alignment and the argument. -/
abbrev StrTable :=
  Char → Option (Nat → Nat → Nat → Bool → BitVec 64 → CString)

/-- The macro `str_isalpha`. -/
def strIsalpha (c : Char) : Bool :=
  ('A' ≤ c && c ≤ 'Z') || ('a' ≤ c && c ≤ 'z')

/-- The conversions: what has been written then, the arguments that are left and the value of
`longlev`. -/
def convert (table : StrTable) (n : Nat) (spec : Spec) (c : Char) (args : List Arg)
    (out : CString) : Option (CString × List Arg × Nat) :=
  if c = 's' then do
    let (p1, args) ← argStr args
    some (emit n spec.left spec.padding ' ' (p1.getD "(null)".toList) out, args, spec.longlev)
  else if spec.longlev = 2 ∧ c = 'u' then do
    let (llu, args) ← arg64 args
    some (emit n spec.left spec.padding spec.pad (strLlutoa llu) out, args, 0)
  else if c = 'u' then do
    let (lu, args) ← arg32 args
    some (emit n spec.left spec.padding spec.pad (strLutoa lu) out, args, 0)
  else if spec.longlev = 2 ∧ (c = 'i' ∨ c = 'd') then do
    let (ll, args) ← arg64 args
    some (emit n spec.left spec.padding ' ' (strLltoa ll) out, args, 0)
  else if c = 'i' ∨ c = 'd' then do
    let (l, args) ← arg32 args
    some (emit n spec.left spec.padding ' ' (strLtoa l) out, args, 0)
  else if c = 'x' then do
    let (v, args) ← argPtr args
    some (emit n spec.left spec.padding ' ' (strPtoa v) out, args, 0)
  else if c = 'p' then do
    let (v, args) ← argPtr args
    some ((copyLoop n (strPtoa v) out 0).1, args, spec.longlev)
  else if c = 'c' then do
    let (cs, args) ← arg32 args
    let out := if out.length < n then out ++ [Char.ofNat (cs.toNat % 256)] else out
    some (out, args, spec.longlev)
  else
    match if strIsalpha c then table c else none with
    | some cb => do
      let (v, args) ← argPtr args
      some (out ++ cb out.length n spec.padding spec.left v, args, spec.longlev)
    | none => some (out ++ [c], args, spec.longlev)

/-- The loop of `str_vsnprintf` over the format with the byte that ends it. -/
def vsnprintfLoop (table : StrTable) (n : Nat) :
    Nat → List Char → List Arg → Nat → CString → Option CString
  | 0, _, _, _, _ => none
  | _ + 1, [], _, _, _ => none
  | turns + 1, c :: f, args, longlev, out =>
    if c = '\x00' ∨ n ≤ out.length then some out
    else if c = '%' then
      match readSpec f 0 ⟨false, 0, ' ', longlev⟩ with
      | none => none
      | some (spec, c, f) =>
        match convert table n spec c args out with
        | none => none
        | some (out, args, longlev) => vsnprintfLoop table n turns f args longlev out
    else vsnprintfLoop table n turns f args longlev (out ++ [c])

/-- `str_vsnprintf`: the bytes that are stored and the value that is returned, an `int`. -/
def strVsnprintf (table : StrTable) (n : Nat) (format : CString) (args : List Arg) :
    Option (List Char × Int) :=
  if n = 0 then some ([], 0)
  else
    (vsnprintfLoop table (n - 1) (format.length + 1) (format ++ ['\x00']) args 0 []).map
      fun out => (out ++ ['\x00'], (BitVec.ofNat 32 out.length).toInt)

/-! ## What the number texts are -/

theorem ofNat_digit {d : Nat} (small : d < 10) : Char.ofNat ('0'.toNat + d) = Nat.digitChar d := by
  have all : ∀ d < 10, Char.ofNat ('0'.toNat + d) = Nat.digitChar d := by decide
  exact all d small

theorem digitLoop_eq {room n : Nat} (fits : n < 10 ^ room) (positive : 0 < room) :
    digitLoop room n = Nat.toDigits 10 n := by
  induction room generalizing n with
  | zero => exact absurd positive (Nat.lt_irrefl 0)
  | succ room induction =>
      have last : Char.ofNat ('0'.toNat + (n : Int).tmod 10).toNat = Nat.digitChar (n % 10) := by
        rw [← ofNat_digit (Nat.mod_lt n (by decide))]
        rfl
      have quotient : (n : Int).tdiv 10 = (n / 10 : Nat) := rfl
      rw [digitLoop, Nat.toDigits_eq_if (by decide)]
      simp only [last, quotient]
      by_cases small : n < 10
      · rw [if_pos small, Nat.div_eq_of_lt small, Nat.mod_eq_of_lt small]
        rfl
      · have more : ((n / 10 : Nat) : Int) ≠ 0 := by omega
        have room_pos : 0 < room := by
          rcases Nat.eq_zero_or_pos room with rfl | found
          · omega
          · exact found
        rw [if_neg small, if_neg more, induction (by rw [Nat.pow_succ] at fits; omega) room_pos]

/-- A signed decimal. -/
def intText (x : Int) : CString :=
  if x < 0 then '-' :: Nat.toDigits 10 x.natAbs else Nat.toDigits 10 x.natAbs

theorem strLlutoa_eq (llu : BitVec 64) : strLlutoa llu = Nat.toDigits 10 llu.toNat :=
  digitLoop_eq (Nat.lt_of_lt_of_le llu.isLt (by decide)) (by decide)

theorem strLutoa_eq (l : BitVec 32) : strLutoa l = Nat.toDigits 10 l.toNat := by
  rw [strLutoa, strLlutoa_eq, BitVec.zeroExtend, BitVec.toNat_setWidth]
  rw [Nat.mod_eq_of_lt (Nat.lt_of_lt_of_le l.isLt (by decide))]

/-- The text of a signed number is its decimal, unless it is the smallest. -/
theorem strLltoa_eq {ll : BitVec 64} (other : ll ≠ BitVec.intMin 64) :
    strLltoa ll = intText ll.toInt := by
  have bounds := @BitVec.toInt_lt 64 ll
  have bounds' := @BitVec.le_toInt 64 ll
  have digits : ∀ x : Int, 0 ≤ x → x < 2 ^ 63 → digitLoop 32 x = Nat.toDigits 10 x.natAbs := by
    intro x nonneg small
    obtain ⟨n, rfl⟩ := Int.eq_ofNat_of_zero_le nonneg
    exact digitLoop_eq (by omega) (by decide)
  rw [strLltoa, intText]
  by_cases negative : ll.toInt < 0
  · have least : -2 ^ 63 < ll.toInt := by
      have distinct : ll.toInt ≠ (BitVec.intMin 64).toInt := fun same =>
        other (BitVec.eq_of_toInt_eq same)
      have value : (BitVec.intMin 64).toInt = -2 ^ 63 := by decide
      omega
    have value := digits (-ll.toInt) (by omega) (by omega)
    rw [if_pos negative, if_pos negative, BitVec.toInt_neg_of_ne_intMin other, value,
      Int.natAbs_neg]
  · rw [if_neg negative, if_neg negative]
    exact digits ll.toInt (by omega) (by omega)

theorem strLtoa_eq (l : BitVec 32) : strLtoa l = intText l.toInt := by
  have same : (l.signExtend 64).toInt = l.toInt := BitVec.toInt_signExtend_of_le (by decide)
  have other : l.signExtend 64 ≠ BitVec.intMin 64 := by
    intro isMin
    have value := congrArg BitVec.toInt isMin
    have bound := @BitVec.le_toInt 32 l
    have least : (BitVec.intMin 64).toInt = -2 ^ 63 := by decide
    rw [same, least] at value
    omega
  rw [strLtoa, strLltoa_eq other, same]

/-- The digits of the smallest number are written as characters below the zero. -/
theorem strLltoa_intMin : strLltoa (BitVec.intMin 64) = "-'..--).0-*(+,))+(0(".toList := by
  decide +kernel

theorem length_strLltoa (ll : BitVec 64) : (strLltoa ll).length = (intText ll.toInt).length := by
  by_cases least : ll = BitVec.intMin 64
  · rw [least]
    decide +kernel
  · rw [strLltoa_eq least]

/-- Eight hexadecimal digits, or more where it takes more. -/
def hexText (n : Nat) : CString :=
  List.replicate (8 - (Nat.toDigits 16 n).length) '0' ++ Nat.toDigits 16 n

/-- The last digits of a number. -/
def hexDigits : Nat → Nat → CString
  | 0, _ => []
  | k + 1, n => hexDigits k (n / 16) ++ [Nat.digitChar (n % 16)]

theorem hexDigits_zero (k : Nat) : hexDigits k 0 = List.replicate k '0' := by
  induction k with
  | zero => rfl
  | succ k induction =>
      rw [hexDigits, Nat.zero_div, induction, List.replicate_succ']
      rfl

theorem hexDigits_eq {k n : Nat} (fits : n < 16 ^ k) (positive : 0 < k) :
    hexDigits k n =
      List.replicate (k - (Nat.toDigits 16 n).length) '0' ++ Nat.toDigits 16 n := by
  induction k generalizing n with
  | zero => exact absurd positive (Nat.lt_irrefl 0)
  | succ k induction =>
      rw [hexDigits, Nat.toDigits_eq_if (by decide)]
      by_cases small : n < 16
      · rw [if_pos small, Nat.div_eq_of_lt small, Nat.mod_eq_of_lt small, hexDigits_zero]
        rfl
      · have k_pos : 0 < k := by
          rcases Nat.eq_zero_or_pos k with rfl | found
          · omega
          · exact found
        rw [if_neg small, induction (by rw [Nat.pow_succ] at fits; omega) k_pos,
          List.length_append, List.length_singleton, Nat.add_sub_add_right, List.append_assoc]

/-- The text of a pointer is that of its lower half. -/
theorem strPtoa_eq {v : BitVec 64} (some : v ≠ 0) :
    strPtoa v = '0' :: 'x' :: hexDigits 8 v.toNat := by
  rw [strPtoa, if_neg some]
  simp only [hexDigits, hexchar, Nat.div_div_eq_div_mul, List.map_cons, List.map_nil,
    List.nil_append, List.cons_append, Nat.pow_zero, Nat.div_one]
  rfl

/-! ## What the loops write -/

variable {n : Nat} {out : CString}

theorem take_take_append {α : Type*} (l r : List α) (n : Nat) :
    (l.take n ++ r).take n = (l ++ r).take n := by
  rw [List.take_append, List.take_take, Nat.min_self, List.take_append, List.length_take]
  congr 2
  omega

/-- Nothing more is written behind the limit. -/
theorem take_append_of_full (full : out.length = n) (more : CString) :
    (out ++ more).take n = out := by
  rw [← full, List.take_left]

theorem padLoop_eq (inside : out.length ≤ n) (pad : Char) (padding : Nat) :
    (padLoop n pad padding out).1 = (out ++ List.replicate padding pad).take n := by
  induction padding generalizing out with
  | zero =>
      rw [List.replicate_zero, List.append_nil, List.take_of_length_le inside]
      rfl
  | succ padding induction =>
      rw [padLoop]
      by_cases room : out.length < n
      · have longer : (out ++ [pad]).length ≤ n := by
          rw [List.length_append, List.length_singleton]
          exact room
        rw [if_pos room, induction longer, List.append_assoc, List.replicate_succ,
          List.singleton_append]
      · rw [if_neg room, take_append_of_full (by omega)]

/-- The text is copied as far as there is room. -/
theorem copyLoop_eq (inside : out.length ≤ n) (text : CString) (padding : Nat) :
    (copyLoop n text out padding).1 = (out ++ text).take n := by
  induction text generalizing out padding with
  | nil =>
      rw [List.append_nil, List.take_of_length_le inside]
      rfl
  | cons c text induction =>
      rw [copyLoop]
      by_cases room : out.length < n
      · have longer : (out ++ [c]).length ≤ n := by
          rw [List.length_append, List.length_singleton]
          exact room
        rw [if_pos room, induction longer, List.append_assoc, List.singleton_append]
      · rw [if_neg room, take_append_of_full (by omega)]

/-- The counter of the padding behind a text that was copied whole. -/
theorem copyLoop_padding {text : CString} (room : out.length + text.length ≤ n) {padding : Nat}
    (bounded : padding < 2 ^ 32) (short : text.length < 2 ^ 32) :
    (copyLoop n text out padding).2 =
      if text.length ≤ padding then padding - text.length
      else 2 ^ 32 - (text.length - padding) := by
  induction text generalizing out padding with
  | nil => rfl
  | cons c text induction =>
      simp only [List.length_cons] at room short ⊢
      have longer : (out ++ [c]).length + text.length ≤ n := by
        rw [List.length_append, List.length_singleton]
        omega
      rw [copyLoop, if_pos (by omega), induction longer (by omega) (by omega)]
      rcases Nat.eq_zero_or_pos padding with rfl | positive
      · rw [if_neg (by omega : ¬ text.length + 1 ≤ 0)]
        split <;> omega
      · have less : (padding + (2 ^ 32 - 1)) % 2 ^ 32 = padding - 1 := by omega
        rw [less]
        split <;> split <;> omega

/-- A text that is justified to the right. -/
theorem emit_right (inside : out.length ≤ n) (padding : Nat) (pad : Char) (text : CString) :
    emit n false padding pad text out =
      (out ++ (List.replicate (padding - text.length) pad ++ text)).take n := by
  rw [emit]
  by_cases more : text.length < padding
  · have padded : (padLoop n pad (padding - text.length) out).1.length ≤ n := by
      rw [padLoop_eq inside, List.length_take]
      exact Nat.min_le_left _ _
    simp only [more, and_self, if_true, Bool.false_eq_true, false_and, if_false]
    rw [copyLoop_eq padded, padLoop_eq inside, take_take_append, List.append_assoc]
  · simp only [more, and_false, if_false, Bool.false_eq_true, false_and]
    rw [copyLoop_eq inside, Nat.sub_eq_zero_of_le (by omega), List.replicate_zero,
      List.nil_append]

/-- What a text that is justified to the left is padded with: where it is longer than the
width the counter has gone around. -/
def leftPadding (padding len : Nat) : Nat :=
  if len ≤ padding then padding - len else 2 ^ 32 - (len - padding)

theorem emit_left (inside : out.length ≤ n) {padding : Nat} (bounded : padding < 2 ^ 32)
    (pad : Char) {text : CString} (short : text.length < 2 ^ 32) :
    emit n true padding pad text out =
      (out ++ (text ++ List.replicate (leftPadding padding text.length) ' ')).take n := by
  have copied := copyLoop_eq inside text padding
  have written : (copyLoop n text out padding).1.length ≤ n := by
    rw [copied, List.length_take]
    exact Nat.min_le_left _ _
  rw [emit]
  simp only [reduceCtorEq, false_and, if_false, true_and]
  by_cases room : out.length + text.length ≤ n
  · have counter : (copyLoop n text out padding).2 = leftPadding padding text.length :=
      copyLoop_padding room bounded short
    rw [counter]
    by_cases none : leftPadding padding text.length = 0
    · rw [none, if_neg (Nat.lt_irrefl 0), copied, List.replicate_zero, List.append_nil]
    · rw [if_pos (Nat.pos_of_ne_zero none), padLoop_eq written, copied, take_take_append,
        List.append_assoc]
  · -- Nothing of the padding is written behind a text that is cut.
    have full : ((out ++ text).take n).length = n := by
      rw [List.length_take, List.length_append]
      omega
    have cut : (out ++ (text ++ List.replicate (leftPadding padding text.length) ' ')).take n =
        (out ++ text).take n := by
      rw [← List.append_assoc, ← take_take_append, take_append_of_full full]
    rw [cut]
    split
    · rw [padLoop_eq written, copied, take_append_of_full full]
    · exact copied

end PrintFormat

end Chaosircd
