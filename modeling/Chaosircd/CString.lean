import Mathlib.Algebra.Ring.Int.Defs
import Mathlib.Algebra.Ring.Nat
import Mathlib.Data.List.Basic

/-!
# C strings, comparison and the name hash

The daemon keeps every name, mask and argument in a NUL-terminated byte array.
A string is modelled by the list of its characters before the terminator, one
`Char` standing for one byte.  Copying into an array of fixed size truncates,
comparison and hashing of names fold the twenty-six capital letters only, and
the 64-bit name hash is the shift-and-rotate mix of the string library.
-/

namespace Chaosircd

/-- The bytes of a C string before its terminator. -/
abbrev CString := List Char

/-- `strlcpy(d, s, n)`: what `d` holds afterwards. -/
def strlcpy (s : CString) (n : Nat) : CString :=
  s.take (n - 1)

theorem strlcpy_eq_self {s : CString} {n : Nat} (fits : s.length < n) :
    strlcpy s n = s :=
  List.take_of_length_le (by omega)

theorem strlcpy_eq_self_iff {s : CString} {n : Nat} (positive : 0 < n) :
    strlcpy s n = s ↔ s.length < n := by
  constructor
  · intro same
    have lengths := congrArg List.length same
    rw [strlcpy, List.length_take] at lengths
    omega
  · exact strlcpy_eq_self

@[simp]
theorem strlcpy_nil (n : Nat) : strlcpy [] n = [] := by
  simp [strlcpy]

theorem strlcpy_length_lt {n : Nat} (s : CString) (positive : 0 < n) :
    (strlcpy s n).length < n := by
  rw [strlcpy, List.length_take]
  omega

/-- The macro `str_tolower`: only `A` to `Z` are folded. -/
def strTolower (c : Char) : Char :=
  if 'A' ≤ c ∧ c ≤ 'Z' then Char.ofNat (c.toNat + 32) else c

/-- `str_icmp(s1, s2) == 0`. -/
def IcmpEq (s1 s2 : CString) : Prop :=
  s1.map strTolower = s2.map strTolower

instance (s1 s2 : CString) : Decidable (IcmpEq s1 s2) :=
  inferInstanceAs (Decidable (_ = _))

@[refl]
theorem IcmpEq.refl (s : CString) : IcmpEq s s :=
  rfl

@[symm]
theorem IcmpEq.symm {s1 s2 : CString} (same : IcmpEq s1 s2) : IcmpEq s2 s1 :=
  Eq.symm same

@[trans]
theorem IcmpEq.trans {s1 s2 s3 : CString} (first : IcmpEq s1 s2)
    (second : IcmpEq s2 s3) : IcmpEq s1 s3 :=
  Eq.trans first second

theorem IcmpEq.eq_nil_iff {s1 s2 : CString} (same : IcmpEq s1 s2) :
    s1 = [] ↔ s2 = [] := by
  have lengths := congrArg List.length same
  simp only [List.length_map] at lengths
  rw [← List.length_eq_zero_iff, ← List.length_eq_zero_iff, lengths]

/-- A `char` converted to the 64-bit `hash_t`: bytes from 0x80 on are negative
and sign-extend. -/
def charWord (c : Char) : Nat :=
  if c.toNat < 128 then c.toNat else 2 ^ 64 - 256 + c.toNat

/-- The macro `ROR` (the macro `ROL` has the same text). -/
def ror (v n : Nat) : Nat :=
  (v >>> (n % 64)) ||| ((v <<< (64 - n % 64)) % 2 ^ 64)

/-- One round of the loop shared by `str_hash` and `str_ihash`. -/
def hashRound (ret : Nat) (c : Char) : Nat :=
  let rotated := ror ret (charWord c)
  let temp := ror (ret ^^^ charWord c) rotated
  (rotated + (2 ^ 64 - temp)) % 2 ^ 64

/-- The start value of both hashes for a 64-bit `hash_t`. -/
def hashSeed : Nat :=
  (0xdefaced <<< 32) ||| 0xcafebabe

/-- `str_hash`. -/
def strHash (s : CString) : Nat :=
  s.foldl hashRound hashSeed

/-- `str_ihash`. -/
def strIhash (s : CString) : Nat :=
  s.foldl (fun ret c => hashRound ret (strTolower c)) hashSeed

/-- Names that compare equal without regard to case have the same hash. -/
theorem strIhash_eq_of_icmpEq {s1 s2 : CString} (same : IcmpEq s1 s2) :
    strIhash s1 = strIhash s2 := by
  have folded : ∀ s : CString,
      strIhash s = (s.map strTolower).foldl hashRound hashSeed := by
    intro s
    rw [List.foldl_map]
    rfl
  rw [folded, folded, same]

end Chaosircd
