import Chaosircd.NetAddress

/-!
# The times of a line of modes

`NMODE` carries the times of its entries as one word of numerals.  The first time that is
set is written as it is, and every later one as the difference to it.  The handler adds up
what it reads: it takes every difference to be one to the time before.  Differences are
printed as 32-bit values by `%li`, and read by `str_tol`, which clips what does not fit.
-/

namespace Chaosircd

/-! ## Signed numerals -/

/-- What `%li` and `%i` print. -/
def formatLi (x : Int) : CString :=
  let value := x.bmod (2 ^ 32)
  if value < 0 then '-' :: Nat.toDigits 10 value.natAbs else Nat.toDigits 10 value.natAbs

theorem strTol_toDigits {n : Nat} (bounded : n < 2 ^ 64) :
    strTol (Nat.toDigits 10 n) = if n < 2 ^ 31 then (n : Int) else 2 ^ 63 - 1 := by
  obtain ⟨d, ds, same, digit⟩ := @head_toDigits n
  have notMinus : d ≠ '-' := by
    rintro rfl
    simp [strIsdigit] at digit
  have unskipped : (Nat.toDigits 10 n).dropWhile strIsspace = Nat.toDigits 10 n := by
    rw [same, List.dropWhile_cons_of_neg]
    simp [not_strIsspace_of_strIsdigit digit]
  have unsigned : (Nat.toDigits 10 n).head? ≠ some '-' := by
    rw [same]
    simpa using notMinus
  have value : strToul (skipSign '-' (Nat.toDigits 10 n)) = n := by
    rw [same, skipSign, if_neg notMinus, ← same, strToul_toDigits bounded]
  simp only [strTol, unskipped, value, unsigned, and_false, if_false]
  by_cases small : n < 2 ^ 31
  · rw [if_neg (by omega), if_pos small]
  · rw [if_pos (by omega), if_neg small]

theorem strTol_minus_toDigits {n : Nat} (bounded : n ≤ 2 ^ 31) :
    strTol ('-' :: Nat.toDigits 10 n) = if n = 2 ^ 31 then 2 ^ 31 else -(n : Int) := by
  have unskipped : ('-' :: Nat.toDigits 10 n).dropWhile strIsspace = '-' :: Nat.toDigits 10 n := by
    rw [List.dropWhile_cons_of_neg]
    decide
  have value : strToul (Nat.toDigits 10 n) = n := strToul_toDigits (by omega)
  simp only [strTol, unskipped, skipSign, if_true, value, List.head?_cons, and_true]
  by_cases last : n = 2 ^ 31
  · rw [if_pos (by omega), if_pos last, if_pos last]
  · rw [if_neg (by omega), if_neg last]

/-- What `str_tol` makes of a difference. -/
def readLi (x : Int) : Int :=
  if x.bmod (2 ^ 32) = -2 ^ 31 then 2 ^ 31 else x.bmod (2 ^ 32)

theorem bmod_bounds (x : Int) : -2 ^ 31 ≤ x.bmod (2 ^ 32) ∧ x.bmod (2 ^ 32) < 2 ^ 31 := by
  have lower := Int.le_bmod (x := x) (m := 2 ^ 32) (by decide)
  have upper := Int.bmod_lt (x := x) (m := 2 ^ 32) (by decide)
  omega

@[simp]
theorem strTol_formatLi (x : Int) : strTol (formatLi x) = readLi x := by
  have bounds := bmod_bounds x
  rw [formatLi, readLi]
  generalize x.bmod (2 ^ 32) = value at bounds
  by_cases negative : value < 0
  · rw [if_pos negative, strTol_minus_toDigits (by omega)]
    by_cases last : value = -2 ^ 31
    · rw [if_pos (by omega), if_pos last]
    · rw [if_neg (by omega), if_neg last]
      omega
  · rw [if_neg negative, strTol_toDigits (by omega), if_pos (by omega), if_neg (by omega)]
    omega

@[simp]
theorem strTol_formatLu (n : Nat) :
    strTol (formatLu n) = if n % 2 ^ 32 < 2 ^ 31 then ((n % 2 ^ 32 : Nat) : Int) else 2 ^ 63 - 1 :=
  strTol_toDigits (by omega)

/-- A difference is read modulo 2^32; of the two bounds it is the upper one that can be
read. -/
theorem readLi_eq_iff {x y : Int} :
    readLi x = y ↔ -2 ^ 31 < y ∧ y ≤ 2 ^ 31 ∧ (x - y) % 2 ^ 32 = 0 := by
  have value : x.bmod (2 ^ 32) = x % 2 ^ 32 ∨ x.bmod (2 ^ 32) = x % 2 ^ 32 - 2 ^ 32 := by
    rw [Int.bmod_def]
    split
    · exact .inl rfl
    · exact .inr rfl
  have bounds := bmod_bounds x
  rw [readLi]
  split <;> omega

/-! ## Writing and reading times -/

/-- How a time is written after the first time that was set. -/
def timeText (lastts ts : Int) : CString :=
  if ts = 0 then ['-']
  else if lastts = 0 then formatLu (ts % 2 ^ 64).toNat
  else formatLi (ts - lastts)

/-- The times of a line. -/
def encodeTimes (lastts : Int) : List Int → List CString
  | [] => []
  | ts :: times => timeText lastts ts :: encodeTimes (if lastts = 0 then ts else lastts) times

/-- What `ms_nmode` makes of a time after the time before. -/
def readTime (first : Bool) (ts : Int) (text : CString) : Int :=
  if first then timeT (strToul text) else (ts + strTol text).bmod (2 ^ 64)

/-- What it makes of all of them. -/
def decodeTimes (first : Bool) (ts : Int) : List CString → List Int
  | [] => []
  | text :: texts => readTime first ts text :: decodeTimes false (readTime first ts text) texts

/-- The condition on the times after the first that is set: only the last one is another
time. -/
def Later (lastts : Int) : Int → List Int → Prop
  | _, [] => True
  | before, ts :: times =>
    (ts ≠ 0 ∧ before = lastts ∧ -2 ^ 31 < ts - lastts ∧ ts - lastts ≤ 2 ^ 31) ∧
      Later lastts ts times

/-- The condition on the times of a line. -/
def TimesFit (first : Bool) : List Int → Prop
  | [] => True
  | ts :: times =>
    if ts = 0 then TimesFit false times
    else (if first then ts < 2 ^ 32 else ts < 2 ^ 31 ∨ ts = 2 ^ 63 - 1) ∧ Later ts ts times

/-- The times are those of a `time_t` that is not negative. -/
def Times (times : List Int) : Prop :=
  ∀ ts ∈ times, 0 ≤ ts ∧ ts < 2 ^ 63

theorem bmod_eq_iff {x y : Int} (lower : -2 ^ 63 ≤ x) (upper : x < 2 ^ 64) (valid : 0 ≤ y) :
    x.bmod (2 ^ 64) = y ↔ x = y ∧ x < 2 ^ 63 := by
  rw [Int.bmod_def]
  split <;> omega

/-- One later time. -/
theorem readTime_later_iff {lastts before ts : Int} (set : lastts ≠ 0) (positive : 0 < before)
    (bounded : before < 2 ^ 63) (near : -2 ^ 31 < before - lastts ∧ before - lastts ≤ 2 ^ 31)
    (valid : 0 ≤ ts ∧ ts < 2 ^ 63) :
    readTime false before (timeText lastts ts) = ts ↔
      ts ≠ 0 ∧ before = lastts ∧ -2 ^ 31 < ts - lastts ∧ ts - lastts ≤ 2 ^ 31 := by
  rw [readTime, timeText, if_neg (by decide)]
  by_cases zero : ts = 0
  · have dash : strTol ['-'] = 0 := by decide
    rw [if_pos zero, dash, bmod_eq_iff (by omega) (by omega) valid.1]
    omega
  · obtain ⟨lower, upper, same⟩ := (@readLi_eq_iff (ts - lastts) _).mp rfl
    rw [if_neg zero, if_neg set, strTol_formatLi, bmod_eq_iff (by omega) (by omega) valid.1]
    constructor
    · rintro ⟨sum, _⟩
      omega
    · rintro ⟨_, equal, above, below⟩
      have read : readLi (ts - lastts) = ts - lastts :=
        readLi_eq_iff.mpr ⟨above, below, by omega⟩
      rw [read]
      omega

theorem decodeTimes_later_iff {lastts before : Int} {times : List Int} (set : lastts ≠ 0)
    (positive : 0 < before) (bounded : before < 2 ^ 63)
    (near : -2 ^ 31 < before - lastts ∧ before - lastts ≤ 2 ^ 31) (valid : Times times) :
    decodeTimes false before (encodeTimes lastts times) = times ↔
      Later lastts before times := by
  induction times generalizing before with
  | nil => exact iff_of_true rfl trivial
  | cons ts times induction =>
      have here := valid ts List.mem_cons_self
      rw [encodeTimes, decodeTimes, if_neg set, Later, List.cons.injEq,
        ← readTime_later_iff set positive bounded near here]
      apply and_congr_right
      intro read
      obtain ⟨zero, equal, above, below⟩ :=
        (readTime_later_iff set positive bounded near here).mp read
      rw [read]
      exact induction (by omega) here.2 ⟨above, below⟩
        fun other mem => valid other (List.mem_cons_of_mem _ mem)

/-- The first time that is set. -/
theorem readTime_first_iff {first : Bool} {ts : Int} (set : ts ≠ 0)
    (valid : 0 ≤ ts ∧ ts < 2 ^ 63) :
    readTime first 0 (timeText 0 ts) = ts ↔
      if first then ts < 2 ^ 32 else ts < 2 ^ 31 ∨ ts = 2 ^ 63 - 1 := by
  obtain ⟨n, rfl⟩ := Int.eq_ofNat_of_zero_le valid.1
  have low : ((n : Int) % 2 ^ 64).toNat = n := by omega
  rw [readTime, timeText, if_neg set, if_pos rfl, low]
  cases first with
  | true =>
      rw [if_pos rfl, if_pos rfl, strToul_formatLu, timeT_of_lt (by omega)]
      omega
  | false =>
      rw [if_neg (by decide), if_neg (by decide), strTol_formatLu]
      split
      · rw [bmod_eq_iff (by omega) (by omega) valid.1]
        omega
      · rw [bmod_eq_iff (by omega) (by omega) valid.1]
        omega

/-- Times that are not set are read as they were as long as none was set. -/
theorem readTime_zero {first : Bool} : readTime first 0 (timeText 0 0) = 0 := by
  cases first <;> decide

/-- The handler gets the times of a line if and only if they meet the condition. -/
theorem decodeTimes_iff {first : Bool} {times : List Int} (valid : Times times) :
    decodeTimes first 0 (encodeTimes 0 times) = times ↔ TimesFit first times := by
  induction times generalizing first with
  | nil => exact iff_of_true rfl trivial
  | cons ts times induction =>
      have here := valid ts List.mem_cons_self
      have rest : Times times := fun other mem => valid other (List.mem_cons_of_mem _ mem)
      rw [encodeTimes, decodeTimes, TimesFit, if_pos rfl, List.cons.injEq]
      by_cases zero : ts = 0
      · subst zero
        rw [if_pos rfl, readTime_zero, and_iff_right rfl]
        exact induction rest
      · rw [if_neg zero, ← readTime_first_iff zero here]
        apply and_congr_right
        intro read
        rw [read]
        exact decodeTimes_later_iff zero (by omega) here.2 (by omega) rest

end Chaosircd
