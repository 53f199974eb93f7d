import Chaosircd.Calendar

/-!
# Times as dates

`timer_gmtime` counts years from 1970 on by taking their days away from the number of the
day, and then looks for the month from the last one down.  All of it is done in 32 bits, in
which only the sum that the weekday is taken from can wrap.
-/

namespace Chaosircd

open Calendar

namespace GmTime

/-! ## `timer_gmtime` -/

/-- `struct tm`; years are counted from 1900 and months from 0. -/
structure Tm where
  sec : Nat
  min : Nat
  hour : Nat
  mday : Nat
  mon : Nat
  year : Nat
  wday : Nat
  yday : Nat
  deriving DecidableEq

/-- `isleap`. -/
def isleap (year : Nat) : Bool :=
  year % 4 = 0 && (year % 100 ≠ 0 || year % 400 = 0)

/-- `SPD`. -/
def spd : Nat := 24 * 60 * 60

/-- `EPOCH`. -/
def epoch : Nat := 1970

/-- `dpm`. -/
def dpm (mon : Nat) : Nat :=
  [0, 31, 59, 90, 120, 151, 181, 212, 243, 273, 304, 334].getD mon 0

/-- The loop over the years, with the rounds that are left, which are not meant to end it. -/
def yearLoop : Nat → Nat → Nat → Option (Nat × Nat)
  | 0, _, _ => none
  | rounds + 1, i, work =>
    let k := if isleap i then 366 else 365
    if k ≤ work then yearLoop rounds ((i + 1) % 2 ^ 32) (work - k) else some (i, work)

/-- The loop over the months. -/
def monthLoop (work : Nat) : Nat → Nat
  | 0 => 0
  | i + 1 => if work < dpm (i + 1) then monthLoop work i else i + 1

/-- The month and the day of the month of a day of a year; from March on a leap year counts
as one day less, and its 29th of February is the day after the 28th. -/
def findMonth (leap : Bool) (work : Nat) : Nat × Nat :=
  let mday := if leap ∧ work = 59 then 2 else 1
  let work := if leap ∧ 58 < work then work - 1 else work
  let mon := monthLoop work 11
  (mon, mday + (work - dpm mon))

/-- The fields for the seconds of the day, the day, and its year and place in it. -/
def fillTm (secs work : Nat) (found : Nat × Nat) : Tm :=
  let (year, yday) := found
  let (mon, mday) := findMonth (isleap year) yday
  { sec := secs % 60
    min := secs / 60 % 60
    hour := secs / 60 / 60
    mday := mday
    mon := mon
    year := year - 1900
    wday := (4 + work) % 2 ^ 32 % 7
    yday := yday }

/-- `timer_gmtime`. -/
def timerGmtime (mtime : Nat) : Option Tm :=
  let secs := mtime / 1000 % spd
  let work := mtime / 1000 / spd % 2 ^ 32
  (yearLoop (2 ^ 32) epoch work).map (fillTm secs work)

/-- The day that a time is in, counted from the first of January 1970. -/
def dayOf (mtime : Nat) : Nat :=
  mtime / 1000 / spd

/-- The date that the fields say. -/
def Tm.date (tm : Tm) : Date :=
  ⟨tm.year + 1900, tm.mon + 1, tm.mday⟩

/-- The fields are those of the calendar and of the clock; the first day was a Thursday. -/
structure Tm.Reads (tm : Tm) (mtime : Nat) : Prop where
  date : IsDate epoch (dayOf mtime) tm.date
  yday : tm.yday = tm.date.yday
  wday : tm.wday = weekday 4 (dayOf mtime)
  clock : tm.hour < 24 ∧ tm.min < 60 ∧ tm.sec < 60
  seconds : tm.hour * 3600 + tm.min * 60 + tm.sec = mtime / 1000 % spd

/-! ## Years -/

theorem isleap_eq (year : Nat) : isleap year = decide (IsLeap year) := by
  rw [isleap, ← Bool.decide_or, ← Bool.decide_and, decide_eq_decide, IsLeap]
  omega

theorem yearLength_eq_isleap (year : Nat) :
    yearLength year = if isleap year then 366 else 365 := by
  rw [isleap_eq, yearLength_eq]

/-- The loop ends, in the year of the day and with what is left of it. -/
theorem yearLoop_spec {rounds i work : Nat} (enough : work < rounds)
    (small : i * 365 + work < 2 ^ 32 * 365) :
    ∃ year yday, yearLoop rounds i work = some (year, yday) ∧ i ≤ year ∧
      yday < yearLength year ∧ yearStart i year + yday = work := by
  induction rounds generalizing i work with
  | zero => omega
  | succ rounds induction =>
      have least := yearLength_pos i
      rw [yearLoop, ← yearLength_eq_isleap]
      by_cases more : yearLength i ≤ work
      · have bound : i + 1 < 2 ^ 32 := by omega
        have next : (i + 1) % 2 ^ 32 = i + 1 := Nat.mod_eq_of_lt bound
        rw [if_pos more, next]
        have less : (i + 1) * 365 + (work - yearLength i) ≤ i * 365 + work := by omega
        obtain ⟨year, yday, ends, since, inYear, sum⟩ :=
          @induction (i + 1) (work - yearLength i) (by omega) (Nat.lt_of_le_of_lt less small)
        refine ⟨year, yday, ends, by omega, inYear, ?_⟩
        have first : yearStart i year = yearLength i + yearStart (i + 1) year :=
          Finset.sum_eq_sum_Ico_succ_bot (by omega) _
        omega
      · refine ⟨i, work, if_neg more, Nat.le_refl i, Nat.lt_of_not_le more, ?_⟩
        rw [yearStart_self, Nat.zero_add]

/-! ## Months -/

/-- The last month that starts by the day. -/
theorem monthLoop_spec (work i : Nat) :
    monthLoop work i ≤ i ∧ dpm (monthLoop work i) ≤ work ∧
      (monthLoop work i < i → work < dpm (monthLoop work i + 1)) := by
  induction i with
  | zero => exact ⟨Nat.le_refl 0, Nat.zero_le work, fun before => absurd before (Nat.lt_irrefl 0)⟩
  | succ i ih =>
      rw [monthLoop]
      by_cases later : work < dpm (i + 1)
      · rw [if_pos later]
        refine ⟨Nat.le_succ_of_le ih.1, ih.2.1, fun before => ?_⟩
        rcases Nat.lt_or_eq_of_le ih.1 with earlier | same
        · exact ih.2.2 earlier
        · rw [same]
          exact later
      · rw [if_neg later]
        exact ⟨Nat.le_refl _, Nat.le_of_not_lt later, fun before => absurd before (Nat.lt_irrefl _)⟩

/-- The month is one in which the day can be. -/
theorem findMonth_spec (leap : Bool) {yday : Nat} (inYear : yday < if leap then 366 else 365) :
    (findMonth leap yday).1 < 12 ∧ 1 ≤ (findMonth leap yday).2 ∧
      (findMonth leap yday).2 ≤ monthLength leap ((findMonth leap yday).1 + 1) ∧
      monthStart leap ((findMonth leap yday).1 + 1) + ((findMonth leap yday).2 - 1) = yday := by
  rw [findMonth]
  generalize worked : (if leap ∧ 58 < yday then yday - 1 else yday) = work
  obtain ⟨inside, starts, ends⟩ := monthLoop_spec work 11
  generalize monthLoop work 11 = mon at *
  have mon_lt : mon < 12 := Nat.lt_succ_of_le inside
  have next : ∀ mon < 12, (mon < 11 → dpm (mon + 1) = dpm mon + monthLength false (mon + 1)) ∧
      (mon = 11 → dpm mon + monthLength false (mon + 1) = 365) := by decide +kernel
  have march : ∀ mon < 12, (mon = 0 → dpm mon + monthLength false (mon + 1) = 31) ∧
      (mon = 1 → dpm mon + monthLength false (mon + 1) = 59) ∧ (1 < mon → 59 ≤ dpm mon) := by
    decide +kernel
  have leaps : ∀ mon < 12, monthStart leap (mon + 1) = dpm mon + (if leap ∧ 1 < mon then 1 else 0) ∧
      monthLength leap (mon + 1) =
        monthLength false (mon + 1) + (if leap ∧ mon = 1 then 1 else 0) := by
    cases leap
    · decide +kernel
    · decide +kernel
  obtain ⟨start, length⟩ := leaps mon mon_lt
  have bound : work < 365 := by
    cases leap with
    | false =>
        simp only [Bool.false_eq_true, false_and, if_false] at worked inYear
        omega
    | true =>
        simp only [true_and, if_true] at worked inYear
        split_ifs at worked <;> omega
  have upper : work < dpm mon + monthLength false (mon + 1) := by
    obtain ⟨follows, last⟩ := next mon mon_lt
    rcases Nat.lt_or_eq_of_le inside with earlier | december
    · rw [← follows earlier]
      exact ends earlier
    · rw [last december]
      exact bound
  obtain ⟨january, february, later⟩ := march mon mon_lt
  clear next march leaps ends bound inside
  rw [start, length]
  refine ⟨mon_lt, ?_⟩
  cases leap with
  | false =>
      simp only [Bool.false_eq_true, false_and, if_false] at *
      omega
  | true =>
      simp only [true_and, if_true] at *
      rcases Nat.lt_trichotomy mon 1 with first | second | behind
      · have days := january (by omega)
        rw [if_neg (show ¬ 1 < mon by omega), if_neg (show mon ≠ 1 by omega)]
        split_ifs at worked ⊢ <;> omega
      · have days := february second
        rw [if_neg (show ¬ 1 < mon by omega), if_pos second]
        split_ifs at worked ⊢ <;> omega
      · have days := later behind
        rw [if_pos behind, if_neg (show mon ≠ 1 by omega)]
        split_ifs at worked ⊢ <;> omega

/-! ## Dates -/

theorem secondsOf_clock {secs : Nat} (inDay : secs < spd) :
    secs / 60 / 60 < 24 ∧ secs / 60 % 60 < 60 ∧ secs % 60 < 60 ∧
      secs / 60 / 60 * 3600 + secs / 60 % 60 * 60 + secs % 60 = secs := by
  have day : spd = 86400 := rfl
  omega

/-- There always is a result, and the day is in its year. -/
theorem timerGmtime_found (mtime : Nat) :
    ∃ year yday, timerGmtime mtime =
        some (fillTm (mtime / 1000 % spd) (dayOf mtime % 2 ^ 32) (year, yday)) ∧
      epoch ≤ year ∧ (yday < if isleap year then 366 else 365) ∧
      yearStart epoch year + yday = dayOf mtime % 2 ^ 32 := by
  have fits : dayOf mtime % 2 ^ 32 < 2 ^ 32 := Nat.mod_lt _ (by decide)
  have start : epoch = 1970 := rfl
  obtain ⟨year, yday, ends, since, inYear, sum⟩ :=
    @yearLoop_spec (2 ^ 32) epoch (dayOf mtime % 2 ^ 32) fits (by omega)
  rw [yearLength_eq_isleap] at inYear
  refine ⟨year, yday, ?_, since, inYear, sum⟩
  have same : mtime / 1000 / spd % 2 ^ 32 = dayOf mtime % 2 ^ 32 := rfl
  rw [timerGmtime, same, ends]
  rfl

/-- All fields but the weekday are right, and the weekday is what 32 bits leave of it. -/
theorem timerGmtime_eq {mtime : Nat} (fits : dayOf mtime < 2 ^ 32) :
    ∃ tm, timerGmtime mtime = some tm ∧ IsDate epoch (dayOf mtime) tm.date ∧
      tm.yday = tm.date.yday ∧ tm.wday = (4 + dayOf mtime) % 2 ^ 32 % 7 ∧
      (tm.hour < 24 ∧ tm.min < 60 ∧ tm.sec < 60) ∧
      tm.hour * 3600 + tm.min * 60 + tm.sec = mtime / 1000 % spd := by
  have start : epoch = 1970 := rfl
  obtain ⟨year, yday, found, since, inYear, sum⟩ := timerGmtime_found mtime
  rw [Nat.mod_eq_of_lt fits] at found sum
  obtain ⟨hour, min, sec, seconds⟩ :=
    secondsOf_clock (Nat.mod_lt (mtime / 1000) (by decide : spd > 0))
  obtain ⟨mon, first, last, day⟩ := findMonth_spec (isleap year) inYear
  have date : (fillTm (mtime / 1000 % spd) (dayOf mtime) (year, yday)).date =
      ⟨year, (findMonth (isleap year) yday).1 + 1, (findMonth (isleap year) yday).2⟩ := by
    have year_eq : year - 1900 + 1900 = year := by omega
    exact congrArg (Date.mk · _ _) year_eq
  have place : (Date.mk year ((findMonth (isleap year) yday).1 + 1)
      (findMonth (isleap year) yday).2).yday = yday := by
    rw [Date.yday, ← isleap_eq]
    exact day
  refine ⟨_, found, ?_, ?_, rfl, ⟨hour, min, sec⟩, seconds⟩
  · rw [date]
    refine ⟨⟨Nat.le_add_left 1 _, mon, first, ?_⟩, since, ?_⟩
    · rw [← isleap_eq]
      exact last
    · rw [Date.number, place]
      exact sum
  · rw [date, place]
    rfl

/-- The weekday is right where the sum does not wrap, and wrong where it does. -/
theorem weekday_iff {day : Nat} (fits : day < 2 ^ 32) :
    (4 + day) % 2 ^ 32 % 7 = weekday 4 day ↔ day + 4 < 2 ^ 32 := by
  unfold weekday
  by_cases small : day + 4 < 2 ^ 32
  · rw [Nat.add_comm 4 day, Nat.mod_eq_of_lt small]
    exact iff_of_true rfl small
  · obtain ⟨more, rfl⟩ : ∃ more, day = 2 ^ 32 - 4 + more := ⟨day - (2 ^ 32 - 4), by omega⟩
    have four : more < 4 := by omega
    refine iff_of_false ?_ small
    have sum : 4 + (2 ^ 32 - 4 + more) = 2 ^ 32 + more := by omega
    have weeks : (2 ^ 32 + more) % 7 = (4 + more) % 7 := by
      rw [Nat.add_mod]
      exact (Nat.add_mod 4 more 7).symm
    rw [sum, Nat.add_mod_left, Nat.mod_eq_of_lt (Nat.lt_trans four (by decide)), weeks]
    omega

/-- Every field of a time whose day has 32 bits is that of the calendar exactly when the day
has four more after it. -/
theorem timerGmtime_reads_iff (mtime : Nat) (fits : dayOf mtime < 2 ^ 32) :
    (∃ tm, timerGmtime mtime = some tm ∧ tm.Reads mtime) ↔ dayOf mtime + 4 < 2 ^ 32 := by
  obtain ⟨tm, found, date, yday, wday, clock, seconds⟩ := timerGmtime_eq fits
  rw [← weekday_iff fits, ← wday]
  constructor
  · rintro ⟨other, found', reads⟩
    rw [← Option.some_inj.mp (found'.symm.trans found)]
    exact reads.wday
  · intro right
    exact ⟨tm, found, date, yday, right, clock, seconds⟩

/-- The last second of the 29th of February 2024. -/
theorem timerGmtime_reads_leapDay :
    ∃ tm, timerGmtime 1709251199000 = some tm ∧ tm.Reads 1709251199000 :=
  (timerGmtime_reads_iff 1709251199000 (by decide)).mpr (by decide)

example : timerGmtime 1709251199000 = some ⟨59, 59, 23, 29, 1, 124, 4, 59⟩ := by
  decide +kernel

/-- On the last day that 32 bits can count the weekday wraps. -/
theorem last_weekday_wraps :
    ¬ ∀ mtime, dayOf mtime < 2 ^ 32 →
      ∃ tm, timerGmtime mtime = some tm ∧ tm.Reads mtime := by
  intro always
  have fits : dayOf 371085174288000000 < 2 ^ 32 := by decide
  obtain ⟨tm, found, reads⟩ := always 371085174288000000 fits
  obtain ⟨other, found', _, _, wday, _⟩ := timerGmtime_eq fits
  have same : tm = other := Option.some_inj.mp (found.symm.trans found')
  have right := (weekday_iff fits).mp (wday.symm.trans (same ▸ reads.wday))
  exact absurd right (by decide)

end GmTime

end Chaosircd
