import Chaosircd.NetAddress
import Mathlib.Data.Nat.Digits.Defs

/-!
# Numerals in any base

`str_toul` multiplies modulo 2^64 and takes a product that is smaller than what was
multiplied for an overflow; most products that wrap are larger, and the digit that is added
can wrap as well.  `str_tol` takes what `str_toul` returns, and compares it with the bound of
a `long` of 32 bits.
-/

namespace Chaosircd

namespace NumeralBases

/-! ## The readers -/

/-- What a reader returns, and whether it leaves `ERANGE` in `errno` or clears it. -/
structure Conversion (α : Type) where
  value : α
  erange : Bool
  deriving DecidableEq

/-- The label `skip0x`: a base of 16 and what follows `0x`, or the base as it is. -/
def skip0x (base : Nat) (nptr : CString) : Nat × CString :=
  if nptr[1]? = some 'x' ∨ nptr[1]? = some 'X' then (16, nptr.drop 2) else (base, nptr)

/-- The base of a numeral, and its digits. -/
def findBase (base : Nat) (nptr : CString) : Nat × CString :=
  if base = 16 ∧ nptr.head? = some '0' then skip0x base nptr
  else if base = 0 then
    if nptr.head? = some '0' then skip0x 8 nptr else (10, nptr)
  else (base, nptr)

/-- `str_toul(nptr, NULL, base)`. -/
def strToul (base : Nat) (nptr : CString) : Conversion Nat :=
  let body := nptr.dropWhile strIsspace
  let neg := body.head? = some '-'
  let (base, digits) := findBase base (skipSign '+' (skipSign '-' body))
  match strToulDigits base 0 digits with
  | none => ⟨2 ^ 64 - 1, true⟩
  | some (v, _) => ⟨if neg then (2 ^ 64 - v) % 2 ^ 64 else v, false⟩

/-- `str_tol(nptr, NULL, base)`. -/
def strTol (base : Nat) (nptr : CString) : Conversion Int :=
  let body := nptr.dropWhile strIsspace
  let neg := body.head? = some '-'
  let v := strToul base (skipSign '-' body)
  if 2 ^ 31 ≤ v.value then
    if v.value = 2 ^ 31 ∧ neg then ⟨2 ^ 31, false⟩
    else ⟨if neg then -2 ^ 63 else 2 ^ 63 - 1, true⟩
  else ⟨if neg then -v.value else v.value, v.erange⟩

/-! ## Numerals -/

/-- The digit that a character stands for; 36 if it is none. -/
def digit (c : Char) : Nat :=
  if '0'.toNat ≤ c.toNat ∧ c.toNat ≤ '9'.toNat then c.toNat - '0'.toNat
  else if 'a'.toNat ≤ c.toNat ∧ c.toNat ≤ 'z'.toNat then c.toNat - 'a'.toNat + 10
  else if 'A'.toNat ≤ c.toNat ∧ c.toNat ≤ 'Z'.toNat then c.toNat - 'A'.toNat + 10
  else 36

/-- The number that digits stand for, the first of them the highest. -/
def numeral (radix : Nat) (digits : CString) : Nat :=
  Nat.ofDigits radix (digits.map digit).reverse

/-- How a number with these digits is written for a base: base 0 tells the radix by what is
before the digits, and base 16 does not mind what is. -/
inductive Written : Nat → CString → Nat → CString → Prop
  | plain {base : Nat} (digits : CString) (least : 2 ≤ base) (most : base ≤ 36) :
      Written base digits base digits
  | hex {base : Nat} (digits : CString) (c : Char) (either : base = 16 ∨ base = 0)
      (x : c = 'x' ∨ c = 'X') : Written base ('0' :: c :: digits) 16 digits
  | octal (digits : CString) : Written 0 ('0' :: digits) 8 ('0' :: digits)
  | decimal (digits : CString) (first : digits.head? ≠ some '0') : Written 0 digits 10 digits

/-- The value if it is an `unsigned long`, and else an overflow and the largest. -/
def UlongRight (n : Nat) (result : Conversion Nat) : Prop :=
  if n < 2 ^ 64 then result = ⟨n, false⟩ else result = ⟨2 ^ 64 - 1, true⟩

/-- The value if it is a `long`, and else an overflow and the bound. -/
def LongRight (n : Int) (result : Conversion Int) : Prop :=
  if -2 ^ 63 ≤ n ∧ n < 2 ^ 63 then result = ⟨n, false⟩
  else result = ⟨if n < 0 then -2 ^ 63 else 2 ^ 63 - 1, true⟩

/-- Some beginning of the numeral has, modulo 2^64, a value whose product wraps to less. -/
def Caught (radix : Nat) (digits : CString) : Prop :=
  ∃ k < digits.length, numeral radix (digits.take k) % 2 ^ 64 * radix % 2 ^ 64 <
    numeral radix (digits.take k) % 2 ^ 64

instance (radix : Nat) (digits : CString) : Decidable (Caught radix digits) :=
  inferInstanceAs (Decidable (∃ k < _, _))

/-- The number with its sign. -/
def signed (neg : Bool) (n : Nat) : Int :=
  if neg then -n else n

/-- The sign as it is written. -/
def sign (neg : Bool) : CString :=
  if neg then ['-'] else []

/-- A number that `str_tol` tells right: it is below the bound of 32 bits, or it is no `long`
and what `str_toul` makes of it is at the bound, which a negative number may not meet. -/
def LongHolds (neg : Bool) (radix : Nat) (digits : CString) : Prop :=
  numeral radix digits < 2 ^ 31 ∨
    ¬ (-2 ^ 63 ≤ signed neg (numeral radix digits) ∧
        signed neg (numeral radix digits) < 2 ^ 63) ∧
      (Caught radix digits ∨ 2 ^ 31 < numeral radix digits % 2 ^ 64 ∨
        numeral radix digits % 2 ^ 64 = 2 ^ 31 ∧ neg = false)

/-! ## Digits -/

variable {base radix : Nat} {text digits : CString} {c : Char}

theorem digitValue_eq (isDigit : digit c < 36) : digitValue c = digit c := by
  have codes : 'a'.toNat = 97 ∧ 'z'.toNat = 122 ∧ 'A'.toNat = 65 ∧ 'Z'.toNat = 90 ∧
      '0'.toNat = 48 ∧ '9'.toNat = 57 := by decide
  obtain ⟨a, z, capitalA, capitalZ, zero, nine⟩ := codes
  have compare : ∀ d : Char, d ≤ c ↔ d.toNat ≤ c.toNat := fun d => by
    simp [Char.le_def, UInt32.le_iff_toNat_le]
  have compare' : c ≤ '9' ↔ c.toNat ≤ 57 := by
    simp [Char.le_def, UInt32.le_iff_toNat_le]
  rw [digitValue]
  simp only [compare, compare', a, capitalA, zero]
  rw [digit, a, z, capitalA, capitalZ, zero, nine] at isDigit ⊢
  split at isDigit
  · rename_i decimal
    rw [if_neg (by omega), if_neg (by omega), if_pos decimal.2, if_pos decimal]
    omega
  · split at isDigit
    · rename_i notDecimal small
      rw [if_pos small.1, if_neg notDecimal, if_pos small]
    · split at isDigit
      · rename_i notDecimal notSmall capital
        rw [if_neg (by omega), if_pos capital.1, if_neg notDecimal, if_neg notSmall,
          if_pos capital]
      · omega

theorem not_sign_of_digit (isDigit : digit c < 36) :
    strIsspace c = false ∧ c ≠ '-' ∧ c ≠ '+' := by
  refine ⟨?_, ?_, ?_⟩
  · rw [Bool.eq_false_iff]
    intro blank
    simp only [strIsspace, Bool.or_eq_true, beq_iff_eq] at blank
    rcases blank with ((rfl | rfl) | rfl) | rfl
    · exact absurd isDigit (by decide)
    · exact absurd isDigit (by decide)
    · exact absurd isDigit (by decide)
    · exact absurd isDigit (by decide)
  · rintro rfl
    exact absurd isDigit (by decide)
  · rintro rfl
    exact absurd isDigit (by decide)

@[simp]
theorem numeral_nil (radix : Nat) : numeral radix [] = 0 :=
  rfl

theorem numeral_append (radix : Nat) (front rest : CString) :
    numeral radix (front ++ rest) =
      numeral radix rest + radix ^ rest.length * numeral radix front := by
  rw [numeral, List.map_append, List.reverse_append, Nat.ofDigits_append, List.length_reverse,
    List.length_map, numeral, numeral]

theorem numeral_concat (radix : Nat) (front : CString) (c : Char) :
    numeral radix (front ++ [c]) = numeral radix front * radix + digit c := by
  have single : numeral radix [c] = digit c := by
    simp [numeral]
  rw [numeral_append, single, List.length_singleton, Nat.pow_one, Nat.mul_comm, Nat.add_comm]

/-! ## The digit loop -/

/-- The product of a value wraps to less. -/
def Wraps (radix v : Nat) : Prop :=
  v * radix % 2 ^ 64 < v

theorem loop_step (radix : Nat) (front : CString) (c : Char) :
    (numeral radix front % 2 ^ 64 * radix % 2 ^ 64 + digit c) % 2 ^ 64 =
      numeral radix (front ++ [c]) % 2 ^ 64 := by
  rw [numeral_concat, Nat.mod_add_mod, Nat.add_mod, Nat.mod_mul_mod, ← Nat.add_mod]

/-- The value modulo 2^64 where no product is seen to wrap, and nothing where one is. -/
theorem strToulDigits_append (most : radix ≤ 36) (front rest : CString)
    (isDigits : ∀ c ∈ rest, digit c < radix) :
    ((∀ k, front.length ≤ k → k < (front ++ rest).length →
        ¬ Wraps radix (numeral radix ((front ++ rest).take k) % 2 ^ 64)) →
      strToulDigits radix (numeral radix front % 2 ^ 64) rest =
        some (numeral radix (front ++ rest) % 2 ^ 64, [])) ∧
    ((∃ k, front.length ≤ k ∧ k < (front ++ rest).length ∧
        Wraps radix (numeral radix ((front ++ rest).take k) % 2 ^ 64)) →
      strToulDigits radix (numeral radix front % 2 ^ 64) rest = none) := by
  induction rest generalizing front with
  | nil =>
      refine ⟨fun _ => by rw [strToulDigits, List.append_nil], ?_⟩
      rintro ⟨k, least, bound, _⟩
      rw [List.append_nil] at bound
      omega
  | cons c rest induction =>
      rw [List.forall_mem_cons] at isDigits
      have same : front ++ c :: rest = (front ++ [c]) ++ rest := by simp
      have here : (front ++ c :: rest).take front.length = front := List.take_left
      have inside : front.length < (front ++ c :: rest).length := by simp
      obtain ⟨goes, stops⟩ := induction (front ++ [c]) isDigits.2
      rw [strToulDigits, digitValue_eq (by omega), if_neg (by omega)]
      dsimp only
      rw [loop_step]
      constructor
      · intro never
        have notHere := never front.length (Nat.le_refl _) inside
        rw [here, Wraps] at notHere
        rw [if_neg notHere, same]
        apply goes
        rw [← same]
        intro k least
        rw [List.length_append, List.length_singleton] at least
        exact never k (by omega)
      · rintro ⟨k, least, bound, wraps⟩
        by_cases first : k = front.length
        · rw [first, here] at wraps
          exact if_pos wraps
        · rw [same] at bound wraps
          have later := stops ⟨k, by simp; omega, bound, wraps⟩
          split
          · rfl
          · exact later

theorem strToulDigits_zero (most : radix ≤ 36) (isDigits : ∀ c ∈ digits, digit c < radix) :
    strToulDigits radix 0 digits =
      if Caught radix digits then none else some (numeral radix digits % 2 ^ 64, []) := by
  obtain ⟨goes, stops⟩ := strToulDigits_append most [] digits isDigits
  split
  · rename_i caught
    obtain ⟨k, bound, wraps⟩ := caught
    exact stops ⟨k, Nat.zero_le k, bound, wraps⟩
  · rename_i never
    exact goes fun k _ bound wraps => never ⟨k, bound, wraps⟩

/-- No product of a number that fits is seen to wrap. -/
theorem not_caught (least : 2 ≤ radix) (fits : numeral radix digits < 2 ^ 64) :
    ¬ Caught radix digits := by
  rintro ⟨k, bound, wraps⟩
  have whole := numeral_append radix (digits.take k) (digits.drop k)
  rw [List.take_append_drop, List.length_drop] at whole
  have power : radix ≤ radix ^ (digits.length - k) :=
    Nat.le_self_pow (by omega) radix
  have product : radix * numeral radix (digits.take k) < 2 ^ 64 := by
    have grows := Nat.mul_le_mul_right (numeral radix (digits.take k)) power
    omega
  have grows := Nat.mul_le_mul_right (numeral radix (digits.take k)) least
  have small : numeral radix (digits.take k) < 2 ^ 64 := by omega
  rw [Nat.mod_eq_of_lt small, Nat.mul_comm, Nat.mod_eq_of_lt product] at wraps
  omega

/-! ## Written numerals -/

/-- The readers find the digits and their radix. -/
theorem Written.found (written : Written base text radix digits)
    (isDigits : ∀ c ∈ digits, digit c < radix) :
    2 ≤ radix ∧ radix ≤ 36 ∧ (∀ c ∈ text.head?, digit c < 36) ∧
      findBase base text = (radix, digits) := by
  have second : ∀ c rest, digits = '0' :: rest → radix ≤ 16 → c ∈ rest.head? →
      c ≠ 'x' ∧ c ≠ 'X' := by
    rintro c rest rfl small isSecond
    have bound := isDigits c (List.mem_cons_of_mem _ (List.mem_of_mem_head? isSecond))
    constructor
    · rintro rfl
      exact absurd (Nat.lt_of_lt_of_le bound small) (by decide)
    · rintro rfl
      exact absurd (Nat.lt_of_lt_of_le bound small) (by decide)
  have stays : ∀ base rest, digits = '0' :: rest → radix ≤ 16 →
      skip0x base digits = (base, digits) := by
    intro base rest same small
    rw [skip0x, if_neg]
    rintro (x | x)
    · rw [same, List.getElem?_cons_succ, ← List.head?_eq_getElem?] at x
      exact (second 'x' rest same small x).1 rfl
    · rw [same, List.getElem?_cons_succ, ← List.head?_eq_getElem?] at x
      exact (second 'X' rest same small x).2 rfl
  cases written with
  | plain _ least most =>
      refine ⟨least, most, fun c first => ?_, ?_⟩
      · exact Nat.lt_of_lt_of_le (isDigits c (List.mem_of_mem_head? first)) most
      · rw [findBase]
        split
        · rename_i hex
          obtain ⟨rest, same⟩ := List.head?_eq_some_iff.mp hex.2
          exact stays base rest same (Nat.le_of_eq hex.1)
        · exact if_neg (by omega)
  | hex _ c either x =>
      refine ⟨by decide, by decide, fun c first => ?_, ?_⟩
      · rw [Option.mem_def, List.head?_cons, Option.some_inj] at first
        subst first
        decide
      · have skips : ∀ base, skip0x base ('0' :: c :: digits) = (16, digits) := by
          intro base
          rw [skip0x, if_pos]
          · rfl
          · simpa using x
        rw [findBase]
        rcases either with rfl | rfl
        · exact (if_pos ⟨rfl, rfl⟩).trans (skips 16)
        · exact (if_neg fun both => absurd both.1 (by decide)).trans
            ((if_pos rfl).trans ((if_pos rfl).trans (skips 8)))
  | octal rest =>
      refine ⟨by decide, by decide, fun c first => ?_, ?_⟩
      · rw [Option.mem_def, List.head?_cons, Option.some_inj] at first
        subst first
        decide
      · rw [findBase]
        exact (if_neg fun both => absurd both.1 (by decide)).trans
          ((if_pos rfl).trans ((if_pos rfl).trans (stays 8 rest rfl (by decide))))
  | decimal _ first =>
      refine ⟨by decide, by decide, fun c first => ?_, ?_⟩
      · exact Nat.lt_of_lt_of_le (isDigits c (List.mem_of_mem_head? first)) (by decide)
      · rw [findBase]
        exact (if_neg fun both => first both.2).trans ((if_pos rfl).trans (if_neg first))

theorem unskipped (starts : ∀ c ∈ text.head?, digit c < 36) :
    text.dropWhile strIsspace = text ∧ text.head? ≠ some '-' ∧
      skipSign '-' text = text ∧ skipSign '+' text = text := by
  cases text with
  | nil => exact ⟨rfl, by simp, rfl, rfl⟩
  | cons c text =>
      obtain ⟨blank, minus, plus⟩ := not_sign_of_digit (starts c rfl)
      refine ⟨?_, by simpa using minus, if_neg minus, if_neg plus⟩
      rw [List.dropWhile_cons_of_neg]
      simp [blank]

theorem strToul_eq (written : Written base text radix digits)
    (isDigits : ∀ c ∈ digits, digit c < radix) :
    strToul base text =
      if Caught radix digits then ⟨2 ^ 64 - 1, true⟩
      else ⟨numeral radix digits % 2 ^ 64, false⟩ := by
  obtain ⟨least, most, starts, found⟩ := written.found isDigits
  obtain ⟨blanks, minus, skipMinus, skipPlus⟩ := unskipped starts
  rw [strToul, blanks, skipMinus, skipPlus, found]
  dsimp only
  rw [strToulDigits_zero most isDigits]
  by_cases caught : Caught radix digits
  · rw [if_pos caught, if_pos caught]
  · rw [if_neg caught, if_neg caught]
    simp only [minus, if_false]

theorem strTol_eq (written : Written base text radix digits)
    (isDigits : ∀ c ∈ digits, digit c < radix) (neg : Bool) :
    strTol base (sign neg ++ text) =
      if 2 ^ 31 ≤ (strToul base text).value then
        if (strToul base text).value = 2 ^ 31 ∧ neg = true then ⟨2 ^ 31, false⟩
        else ⟨if neg = true then -2 ^ 63 else 2 ^ 63 - 1, true⟩
      else ⟨signed neg (strToul base text).value, (strToul base text).erange⟩ := by
  obtain ⟨least, most, starts, found⟩ := written.found isDigits
  obtain ⟨blanks, minus, skipMinus, skipPlus⟩ := unskipped starts
  cases neg with
  | true =>
      have body : ('-' :: text).dropWhile strIsspace = '-' :: text :=
        List.dropWhile_cons_of_neg (by decide)
      have skipped : skipSign '-' ('-' :: text) = text := by rw [skipSign, if_pos rfl]
      rw [strTol, sign, if_pos rfl, List.singleton_append, body, skipped]
      simp only [List.head?_cons, and_true, if_true, signed]
  | false =>
      rw [strTol, sign, if_neg Bool.false_ne_true, List.nil_append, blanks, skipMinus]
      simp only [minus, and_false, if_false, Bool.false_eq_true, signed]

/-! ## Base ten -/

theorem digitValue_lt_ten (c : Char) : digitValue c < 10 ↔ strIsdigit c = true := by
  have compare : ∀ d : Char, d ≤ c ↔ d.toNat ≤ c.toNat := fun d => by
    simp [Char.le_def, UInt32.le_iff_toNat_le]
  have compare' : c ≤ '9' ↔ c.toNat ≤ 57 := by
    simp [Char.le_def, UInt32.le_iff_toNat_le]
  have codes : 'a'.toNat = 97 ∧ 'A'.toNat = 65 ∧ '0'.toNat = 48 := by decide
  rw [strIsdigit_iff, digitValue]
  simp only [compare, compare', codes.1, codes.2.1, codes.2.2]
  split
  · omega
  · split
    · omega
    · split
      · omega
      · omega

theorem toNat_digitValue (isDigit : strIsdigit c = true) :
    digitValue c = c.toNat - '0'.toNat := by
  have bounds := strIsdigit_iff.mp isDigit
  have zero : '0'.toNat = 48 := rfl
  have decimal : digit c = c.toNat - '0'.toNat := if_pos ⟨bounds.1, bounds.2⟩
  rw [digitValue_eq (by omega), decimal]

theorem strToulLoop_eq_digits (v : Nat) (s : CString) :
    strToulLoop v s = (strToulDigits 10 v s).map Prod.fst := by
  induction s generalizing v with
  | nil => rfl
  | cons c cs induction =>
      rw [strToulLoop, strToulDigits]
      by_cases isDigit : strIsdigit c = true
      · rw [if_pos isDigit, if_neg (Nat.not_le.mpr ((digitValue_lt_ten c).mpr isDigit)),
          toNat_digitValue isDigit]
        dsimp only
        split
        · rfl
        · exact induction _
      · rw [if_neg isDigit, if_pos]
        · rfl
        · exact Nat.not_lt.mp fun less => isDigit ((digitValue_lt_ten c).mp less)

/-- For base ten the reader returns what the one without `errno` returns. -/
theorem value_strToul_ten (nptr : CString) :
    (strToul 10 nptr).value = Chaosircd.strToul nptr := by
  have base : ∀ digits, findBase 10 digits = (10, digits) := fun digits =>
    (if_neg fun both => absurd both.1 (by decide)).trans (if_neg (by decide))
  rw [strToul, Chaosircd.strToul, base]
  dsimp only
  rw [strToulLoop_eq_digits]
  cases strToulDigits 10 0 (skipSign '+' (skipSign '-' (nptr.dropWhile strIsspace))) with
  | none => rfl
  | some found => rfl

theorem value_strTol_ten (nptr : CString) :
    (strTol 10 nptr).value = Chaosircd.strTol nptr := by
  rw [strTol, Chaosircd.strTol, value_strToul_ten]
  split
  · split
    · rfl
    · rfl
  · rfl

/-! ## When the readers are right -/

theorem ulongRight_iff (written : Written base text radix digits)
    (isDigits : ∀ c ∈ digits, digit c < radix) :
    UlongRight (numeral radix digits) (strToul base text) ↔
      numeral radix digits < 2 ^ 64 ∨ Caught radix digits := by
  have least := (written.found isDigits).1
  rw [strToul_eq written isDigits, UlongRight]
  by_cases fits : numeral radix digits < 2 ^ 64
  · rw [if_pos fits, if_neg (not_caught least fits), Nat.mod_eq_of_lt fits]
    exact iff_of_true rfl (.inl fits)
  · rw [if_neg fits]
    by_cases caught : Caught radix digits
    · rw [if_pos caught]
      exact iff_of_true rfl (.inr caught)
    · rw [if_neg caught]
      refine iff_of_false (fun same => ?_) (fun either => either.elim fits caught)
      exact Bool.false_ne_true (congrArg Conversion.erange same)

/-- What `str_tol` makes of a value that `str_toul` returns. -/
theorem longRight_iff_of_value {neg : Bool} {n v : Nat} {erange : Bool}
    (exact : n < 2 ^ 64 → v = n) (clear : v < 2 ^ 31 → erange = false) :
    LongRight (signed neg n)
        (if 2 ^ 31 ≤ v then
          if v = 2 ^ 31 ∧ neg = true then ⟨2 ^ 31, false⟩
          else ⟨if neg = true then -2 ^ 63 else 2 ^ 63 - 1, true⟩
        else ⟨signed neg v, erange⟩) ↔
      n < 2 ^ 31 ∨ ¬ (-2 ^ 63 ≤ signed neg n ∧ signed neg n < 2 ^ 63) ∧
        (2 ^ 31 < v ∨ v = 2 ^ 31 ∧ neg = false) := by
  rw [LongRight]
  by_cases small : n < 2 ^ 31
  · have same := exact (by omega)
    have range : -2 ^ 63 ≤ signed neg n ∧ signed neg n < 2 ^ 63 := by
      unfold signed
      split
      · omega
      · omega
    rw [if_pos range, if_neg (by omega), same, clear (by omega)]
    exact iff_of_true rfl (.inl small)
  · by_cases range : -2 ^ 63 ≤ signed neg n ∧ signed neg n < 2 ^ 63
    · have fits : n < 2 ^ 64 := by
        unfold signed at range
        split at range
        · omega
        · omega
      rw [if_pos range, exact fits, if_pos (by omega)]
      refine iff_of_false ?_ (fun either => either.elim small fun outside => outside.1 range)
      split
      · rename_i bound
        rw [bound.1, bound.2, signed, if_pos rfl]
        intro same
        exact absurd (congrArg Conversion.value same) (by decide)
      · intro same
        exact Bool.false_ne_true (congrArg Conversion.erange same).symm
    · rw [if_neg range]
      have below : (signed neg n < 0) ↔ neg = true := by
        cases neg with
        | false => exact iff_of_false (Int.not_lt.mpr (Int.natCast_nonneg n)) Bool.false_ne_true
        | true =>
            have negative : signed true n = -(n : Int) := rfl
            refine iff_of_true ?_ rfl
            omega
      by_cases large : 2 ^ 31 ≤ v
      · rw [if_pos large]
        by_cases bound : v = 2 ^ 31 ∧ neg = true
        · rw [if_pos bound]
          refine iff_of_false ?_ ?_
          · intro same
            exact Bool.false_ne_true (congrArg Conversion.erange same)
          · rintro (less | ⟨_, more | other⟩)
            · exact small less
            · omega
            · exact Bool.false_ne_true (other.2.symm.trans bound.2)
        · rw [if_neg bound]
          refine iff_of_true ?_ (.inr ⟨range, ?_⟩)
          · simp only [below]
          · by_cases same : v = 2 ^ 31
            · exact .inr ⟨same, Bool.eq_false_iff.mpr fun negative => bound ⟨same, negative⟩⟩
            · exact .inl (by omega)
      · rw [if_neg large, clear (by omega)]
        refine iff_of_false ?_ ?_
        · intro same
          exact Bool.false_ne_true (congrArg Conversion.erange same)
        · rintro (less | ⟨_, more | other⟩)
          · exact small less
          · omega
          · omega

/-- `str_toul` reads a numeral, or tells its overflow, when the number fits or one of the
products is seen to wrap; `str_tol` when the number has less than 32 bits, or is no `long` and
what is left of it is at the bound. -/
theorem reads_right_iff (written : Written base text radix digits)
    (isDigits : ∀ c ∈ digits, digit c < radix) :
    (UlongRight (numeral radix digits) (strToul base text) ↔
      numeral radix digits < 2 ^ 64 ∨ Caught radix digits) ∧
    ∀ neg, LongRight (signed neg (numeral radix digits)) (strTol base (sign neg ++ text)) ↔
      LongHolds neg radix digits := by
  refine ⟨ulongRight_iff written isDigits, fun neg => ?_⟩
  have least := (written.found isDigits).1
  have read := strToul_eq written isDigits
  rw [strTol_eq written isDigits, longRight_iff_of_value, LongHolds, read]
  · by_cases caught : Caught radix digits
    · rw [if_pos caught]
      simp [caught]
    · rw [if_neg caught]
      simp [caught]
  · intro fits
    rw [read, if_neg (not_caught least fits), Nat.mod_eq_of_lt fits]
  · intro small
    rw [read] at small ⊢
    split at small
    · exact absurd small (by decide)
    · rename_i unseen
      rw [if_neg unseen]

theorem reads_right_hex :
    (UlongRight (numeral 16 "dEAdbeef".toList) (strToul 0 "0xdEAdbeef".toList) ↔
      numeral 16 "dEAdbeef".toList < 2 ^ 64 ∨ Caught 16 "dEAdbeef".toList) ∧
    ∀ neg, LongRight (signed neg (numeral 16 "dEAdbeef".toList))
        (strTol 0 (sign neg ++ "0xdEAdbeef".toList)) ↔ LongHolds neg 16 "dEAdbeef".toList :=
  reads_right_iff (.hex "dEAdbeef".toList 'x' (.inr rfl) (.inl rfl)) (by simp [digit])

/-- The product of 3000000000000000000 and ten wraps to more. -/
theorem wrapped_unseen :
    ¬ ∀ base text radix digits, Written base text radix digits →
      (∀ c ∈ digits, digit c < radix) →
      UlongRight (numeral radix digits) (strToul base text) ∧
        ∀ neg, LongRight (signed neg (numeral radix digits)) (strTol base (sign neg ++ text)) := by
  intro always
  have isDigits : ∀ c ∈ "30000000000000000000".toList, digit c < 10 := by
    simp [digit]
  have right := always 10 _ 10 "30000000000000000000".toList
    (.plain _ (by decide) (by decide)) isDigits
  have holds := (ulongRight_iff (.plain _ (by decide) (by decide)) isDigits).mp right.1
  exact absurd holds (by decide +kernel)

end NumeralBases

end Chaosircd
