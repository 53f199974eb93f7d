import Chaosircd.CString
import Mathlib.Tactic.Common

/-!
# Decimal numerals

Numbers travel as decimal text.  The formatter fetches the argument of `%lu`
and of `%u` alike as a 32-bit value, so only the low half of a 64-bit number is
written.  The reader `str_toul` works modulo 2^64.
-/

namespace Chaosircd

/-- What `%lu` and `%u` print. -/
def formatLu (n : Nat) : CString :=
  Nat.toDigits 10 (n % 2 ^ 32)

/-- A 64-bit value read as the signed `time_t`. -/
def timeT (n : Nat) : Int :=
  if n < 2 ^ 63 then n else (n : Int) - 2 ^ 64

theorem timeT_of_lt {n : Nat} (bounded : n < 2 ^ 63) : timeT n = n :=
  if_pos bounded

/-- The macro `str_isspace`. -/
def strIsspace (c : Char) : Bool :=
  c == ' ' || c == '\t' || c == '\n' || c == '\r'

/-- The macro `str_isdigit`. -/
def strIsdigit (c : Char) : Bool :=
  '0' ≤ c && c ≤ '9'

/-- The digit loop of `str_toul` in base ten; no value stands for the early
return of `ULONG_MAX` when the product wrapped. -/
def strToulLoop (v : Nat) : CString → Option Nat
  | [] => some v
  | c :: cs =>
      if strIsdigit c then
        let w := v * 10 % 2 ^ 64
        if w < v then none
        else strToulLoop ((w + (c.toNat - '0'.toNat)) % 2 ^ 64) cs
      else some v

/-- Skips one optional character. -/
def skipSign (sign : Char) : CString → CString
  | c :: cs => if c = sign then cs else c :: cs
  | [] => []

/-- `str_toul(nptr, NULL, 10)`. -/
def strToul (nptr : CString) : Nat :=
  let body := nptr.dropWhile strIsspace
  let neg := body.head? = some '-'
  match strToulLoop 0 (skipSign '+' (skipSign '-' body)) with
  | none => 2 ^ 64 - 1
  | some v => if neg then (2 ^ 64 - v) % 2 ^ 64 else v

theorem strIsdigit_iff {c : Char} :
    strIsdigit c ↔ 48 ≤ c.toNat ∧ c.toNat ≤ 57 := by
  simp [strIsdigit, Char.le_def, UInt32.le_iff_toNat_le]

theorem strIsdigit_of_isDigit {c : Char} (digit : c.isDigit) :
    strIsdigit c := by
  rw [strIsdigit_iff]
  simpa [Char.isDigit, UInt32.le_iff_toNat_le] using digit

theorem not_strIsspace_of_strIsdigit {c : Char} (digit : strIsdigit c) :
    strIsspace c = false := by
  rw [strIsdigit_iff] at digit
  simp only [strIsspace, Bool.or_eq_false_iff, beq_eq_false_iff_ne]
  refine ⟨⟨⟨?_, ?_⟩, ?_⟩, ?_⟩ <;>
    · rintro rfl
      simp at digit

theorem le_ofDigitChars (ds : List Char) (v : Nat) :
    v ≤ Nat.ofDigitChars 10 ds v := by
  induction ds generalizing v with
  | nil => simp
  | cons d ds ih =>
      rw [Nat.ofDigitChars_cons]
      have later := ih (10 * v + (d.toNat - '0'.toNat))
      omega

/-- On a digit string without overflow the loop computes the decimal value. -/
theorem strToulLoop_eq_ofDigitChars {ds : List Char}
    (digits : ∀ d ∈ ds, strIsdigit d) {v : Nat}
    (bounded : Nat.ofDigitChars 10 ds v < 2 ^ 64) :
    strToulLoop v ds = some (Nat.ofDigitChars 10 ds v) := by
  induction ds generalizing v with
  | nil => rfl
  | cons d ds ih =>
      have digit : strIsdigit d := digits d (by simp)
      rw [Nat.ofDigitChars_cons] at bounded ⊢
      have valueBound : 10 * v + (d.toNat - '0'.toNat) < 2 ^ 64 :=
        Nat.lt_of_le_of_lt (le_ofDigitChars ds _) bounded
      have product : v * 10 % 2 ^ 64 = 10 * v := by
        rw [Nat.mul_comm]
        exact Nat.mod_eq_of_lt (by omega)
      have noWrap : ¬ 10 * v < v := by omega
      rw [strToulLoop, if_pos digit, product, if_neg noWrap,
        Nat.mod_eq_of_lt valueBound]
      exact ih (fun d member => digits d (by simp [member])) bounded

theorem strIsdigit_of_mem_toDigits {n : Nat} {c : Char}
    (member : c ∈ Nat.toDigits 10 n) : strIsdigit c :=
  strIsdigit_of_isDigit
    (Nat.isDigit_of_mem_toDigits (by decide) (by decide) member)

/-- Numerals consist of digits. -/
theorem head_toDigits {n : Nat} : ∃ d ds, Nat.toDigits 10 n = d :: ds ∧ strIsdigit d = true := by
  cases same : Nat.toDigits 10 n with
  | nil =>
      have positive : 0 < (Nat.toDigits 10 n).length := Nat.length_toDigits_pos
      rw [same] at positive
      exact absurd positive (Nat.lt_irrefl 0)
  | cons d ds =>
      exact ⟨d, ds, rfl, strIsdigit_of_mem_toDigits (by rw [same]; exact List.mem_cons_self)⟩

theorem length_toDigits_le {n : Nat} (bounded : n < 10 ^ 10) : (Nat.toDigits 10 n).length ≤ 10 :=
  (Nat.length_toDigits_le_iff (by decide) (by decide)).mpr bounded

theorem length_formatLu_le (n : Nat) : (formatLu n).length ≤ 10 :=
  length_toDigits_le (by omega)

/-- A digit string is read from its first character on. -/
theorem strToul_of_digits {ds : CString} (digits : ∀ d ∈ ds, strIsdigit d) :
    strToul ds = (strToulLoop 0 ds).getD (2 ^ 64 - 1) := by
  cases ds with
  | nil => rfl
  | cons d ds =>
      have digit : strIsdigit d := digits d (by simp)
      have notMinus : d ≠ '-' := by
        rintro rfl
        simp [strIsdigit] at digit
      have notPlus : d ≠ '+' := by
        rintro rfl
        simp [strIsdigit] at digit
      have unskipped : (d :: ds).dropWhile strIsspace = d :: ds := by
        rw [List.dropWhile_cons_of_neg]
        simp [not_strIsspace_of_strIsdigit digit]
      simp only [strToul, unskipped, skipSign, if_neg notMinus, if_neg notPlus,
        List.head?_cons, Option.some.injEq]
      cases strToulLoop 0 (d :: ds) <;> rfl

theorem strToul_toDigits {n : Nat} (bounded : n < 2 ^ 64) :
    strToul (Nat.toDigits 10 n) = n := by
  have digits : ∀ d ∈ Nat.toDigits 10 n, strIsdigit d :=
    fun _ member => strIsdigit_of_mem_toDigits member
  have value : Nat.ofDigitChars 10 (Nat.toDigits 10 n) 0 = n :=
    Nat.ofDigitChars_ten_toDigits
  rw [strToul_of_digits digits,
    strToulLoop_eq_ofDigitChars digits (by rw [value]; exact bounded), value]
  rfl

/-- Reading back what `%lu` printed recovers the low 32 bits. -/
@[simp]
theorem strToul_formatLu (n : Nat) : strToul (formatLu n) = n % 2 ^ 32 :=
  strToul_toDigits (by omega)

end Chaosircd
