import Chaosircd.Numerals

/-!
# Internet addresses in text

`net_aton` reads up to four numbers with dots between them, each of which may be decimal,
octal or hexadecimal, and `net_ntoa` writes four decimal ones.
-/

namespace Chaosircd

/-- The value of a digit in `str_toul`; the subtraction wraps in an `unsigned char`. -/
def digitValue (c : Char) : Nat :=
  if 'a' ≤ c then c.toNat - 'a'.toNat + 10
  else if 'A' ≤ c then c.toNat - 'A'.toNat + 10
  else if c ≤ '9' then (c.toNat + 256 - '0'.toNat) % 256
  else 255

/-- The digit loop of `str_toul`, with what is behind the digits. -/
def strToulDigits (base v : Nat) : CString → Option (Nat × CString)
  | [] => some (v, [])
  | c :: cs =>
    if base ≤ digitValue c then some (v, c :: cs)
    else
      let w := v * base % 2 ^ 64
      if w < v then none
      else strToulDigits base ((w + digitValue c) % 2 ^ 64) cs

/-- `str_toul(tmp, &tmp, 0)`; where the product wraps, the pointer stays. -/
def strToulAny (tmp : CString) : Nat × CString :=
  let body := tmp.dropWhile strIsspace
  let neg := body.head? = some '-'
  let digits := skipSign '+' (skipSign '-' body)
  let read :=
    match digits with
    | '0' :: 'x' :: cs => strToulDigits 16 0 cs
    | '0' :: 'X' :: cs => strToulDigits 16 0 cs
    | '0' :: cs => strToulDigits 8 0 ('0' :: cs)
    | cs => strToulDigits 10 0 cs
  match read with
  | none => (2 ^ 64 - 1, tmp)
  | some (v, rest) => (if neg then (2 ^ 64 - v) % 2 ^ 64 else v, rest)

/-- `str_tol(nptr, NULL, 10)`. -/
def strTol (nptr : CString) : Int :=
  let body := nptr.dropWhile strIsspace
  let neg := body.head? = some '-'
  let v := strToul (skipSign '-' body)
  if 2 ^ 31 ≤ v then
    if v = 2 ^ 31 ∧ neg then 2 ^ 31 else if neg then -2 ^ 63 else 2 ^ 63 - 1
  else if neg then -v else v

/-- A number as a `net_port_t`. -/
def netPort (n : Int) : Nat :=
  (n % 2 ^ 16).toNat

/-- The loop of `net_aton`; every round but the last takes a dot away. -/
def netAtonLoop : Nat → Nat → Nat → CString → Option Nat
  | 0, _, _, _ => none
  | fuel + 1, i, ip, tmp =>
    match strToulAny tmp with
    | (j, []) => some ((ip ||| j) % 2 ^ 32)
    | (j, c :: rest) =>
      if c = '.' then
        if 255 < timeT j then none else netAtonLoop fuel (i - 8) (ip ||| (j <<< i)) rest
      else none

/-- `net_aton`; no result stands for `0`. -/
def netAton (cp : CString) : Option Nat :=
  netAtonLoop (cp.length + 1) 24 0 cp

/-- `net_ntoa`. -/
def netNtoa (addr : Nat) : CString :=
  formatLu (addr >>> 24 % 256) ++ '.' :: formatLu (addr >>> 16 % 256) ++
    '.' :: formatLu (addr >>> 8 % 256) ++ '.' :: formatLu (addr % 256)

end Chaosircd
