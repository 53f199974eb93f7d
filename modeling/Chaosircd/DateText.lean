import Chaosircd.GmTime
import Chaosircd.NumeralBases
import Chaosircd.Tokenize

/-!
# Dates and times in text

A time of day is written with two digits for each of its parts and read back as it was.  A
date is written with a day of the month that is one too high: `timer_gmtime` counts the days
of a month from one already, and the formatter adds another one, as it has to for the month.
-/

namespace Chaosircd

open Calendar NumeralBases

namespace GmTime

/-! ## Writing -/

/-- The last decimal digit of a number. -/
def lastDigit (n : Nat) : Char :=
  Char.ofNat (n % 10 + '0'.toNat)

/-- Two digits, the first left out if it is a zero that stands for the tens of less than ten. -/
def shortDigits (n : Nat) : CString :=
  (if n / 10 ≠ 0 then [lastDigit (n / 10)] else []) ++ [lastDigit n]

/-- The buffer of `timer_format_time`. -/
def timeBuf (tm : Tm) : CString :=
  [lastDigit (tm.hour / 10), lastDigit tm.hour, ':', lastDigit (tm.min / 10), lastDigit tm.min,
    ':', lastDigit (tm.sec / 10), lastDigit tm.sec]

/-- `timer_format_time`, where there is room for so many characters. -/
def timerFormatTime (room mtime : Nat) : Option CString :=
  (timerGmtime mtime).map fun tm => (timeBuf tm).take room

/-- The buffer of `timer_format_date`. -/
def dateBuf (tm : Tm) : CString :=
  shortDigits (tm.mday + 1) ++ '.' :: shortDigits (tm.mon + 1) ++
    ['.', lastDigit ((tm.year + 1900) / 1000), lastDigit ((tm.year + 1900) / 100),
      lastDigit ((tm.year + 1900) / 10), lastDigit (tm.year + 1900)]

/-- `timer_format_date`, where there is room for so many characters; what pads it stands
before it or behind it. -/
def timerFormatDate (room : Nat) (padding : Int) (left : Bool) (mtime : Nat) :
    Option CString := do
  let buf ← if mtime = 2 ^ 64 - 1 then some [] else (timerGmtime mtime).map dateBuf
  let blanks := List.replicate (padding - buf.length).toNat ' '
  some ((if left then blanks ++ buf else buf ++ blanks).take room)

/-! ## Reading -/

/-- `str_toul(p, &p, 10)`, unless it is `ULONG_MAX`. -/
def readNumber (p : CString) : Option (Nat × CString) := do
  let body := p.dropWhile strIsspace
  let (v, rest) ← strToulDigits 10 0 (skipSign '+' (skipSign '-' body))
  let value := if body.head? = some '-' then (2 ^ 64 - v) % 2 ^ 64 else v
  if value = 2 ^ 64 - 1 then none else some (value, rest)

/-- `*p++ == c`. -/
def expect (c : Char) : CString → Option CString
  | [] => none
  | first :: p => if first = c then some p else none

/-- The part behind the minutes. -/
def readSeconds : CString → Nat
  | ':' :: p | '.' :: p => ((readNumber p).map fun second => second.1 % 60).getD 0
  | _ => 0

/-- `timer_parse_time`; no value stands for -1. -/
def timerParseTime (t : CString) : Option Nat := do
  let (hour, p) ← readNumber t
  let p ← expect ':' p
  let (minute, p) ← readNumber p
  some ((hour % 24 * 3600 + minute % 60 * 60 + readSeconds p) * 1000)

/-- The fields of a `struct tm` that `mktime` is given. -/
structure MktimeArgs where
  year : Int
  mon : Nat
  mday : Nat
  deriving DecidableEq

/-- `timer_mktime` for the start of a day, with the `mktime` of the C library. -/
def timerMktime (mktime : MktimeArgs → Int) (tm : MktimeArgs) : Option Nat :=
  if tm.year < 70 then none else some ((mktime tm % 2 ^ 64).toNat * 1000 % 2 ^ 64)

/-- The year of a date, which is this year if none is given. -/
def readYear (thisyear : Int) : CString → Int
  | '.' :: p =>
    match readNumber p with
    | some (year, _) => (if year < 1000 then (year : Int) + 100 else year - 1900).bmod (2 ^ 32)
    | none => thisyear
  | _ => thisyear

/-- `timer_parse_date`; no value stands for -1. -/
def timerParseDate (mktime : MktimeArgs → Int) (thisyear : Int) (d : CString) : Option Nat := do
  let (day, p) ← readNumber d
  let p ← expect '.' p
  if day = 0 then none
  else
    let (month, p) ← readNumber p
    timerMktime mktime
      { mday := day % 32, mon := (month + 2 ^ 64 - 1) % 2 ^ 64 % 12, year := readYear thisyear p }

/-! ## What text says -/

/-- A text of three numbers with points between them says a date. -/
def Names (text : CString) (date : Date) : Prop :=
  ∃ day month year : CString, text = day ++ '.' :: month ++ '.' :: year ∧
    (∀ c ∈ day ++ month ++ year, digit c < 10) ∧ numeral 10 day = date.day ∧
    numeral 10 month = date.month ∧ numeral 10 year = date.year

/-- The first millisecond of a day. -/
def startOf (day : Nat) : Nat :=
  day * spd * 1000

/-- The date of a day is written as `timer_gmtime` has it, and read back as the day. -/
def DateComesBack (mktime : MktimeArgs → Int) (thisyear : Int) (day : Nat) : Prop :=
  ∃ tm text, timerGmtime (startOf day) = some tm ∧
    timerFormatDate 10 0 false (startOf day) = some text ∧ Names text tm.date ∧
    timerParseDate mktime thisyear text = some (startOf day)

/-- A time of day is read back from what is written for it, to the second. -/
def TimeComesBack (mtime : Nat) : Prop :=
  ∀ room, 8 ≤ room → ∃ text, timerFormatTime room mtime = some text ∧
    timerParseTime text = some (mtime / 1000 % spd * 1000)

/-! ## Digits -/

theorem lastDigit_spec (n : Nat) :
    digit (lastDigit n) = n % 10 ∧ digitValue (lastDigit n) = n % 10 := by
  have all : ∀ d < 10, digit (Char.ofNat (d + '0'.toNat)) = d := by decide
  have isDigit : digit (lastDigit n) = n % 10 := all (n % 10) (Nat.mod_lt n (by decide))
  refine ⟨isDigit, ?_⟩
  rw [digitValue_eq (by omega), isDigit]

theorem lastDigit_ne (n : Nat) {c : Char} (other : 10 ≤ digit c) : lastDigit n ≠ c := by
  intro same
  have isDigit := (lastDigit_spec n).1
  rw [same] at isDigit
  omega

/-- One more digit. -/
theorem strToulDigits_lastDigit {v : Nat} (small : v < 2 ^ 32) (n : Nat) (rest : CString) :
    strToulDigits 10 v (lastDigit n :: rest) = strToulDigits 10 (v * 10 + n % 10) rest := by
  have product : v * 10 % 2 ^ 64 = v * 10 := Nat.mod_eq_of_lt (by omega)
  have sum : (v * 10 + n % 10) % 2 ^ 64 = v * 10 + n % 10 := Nat.mod_eq_of_lt (by omega)
  rw [strToulDigits, (lastDigit_spec n).2, if_neg (by omega)]
  dsimp only
  rw [product, if_neg (by omega), sum]

theorem strToulDigits_stops (v : Nat) {rest : CString}
    (stops : ∀ c ∈ rest.head?, 10 ≤ digitValue c) : strToulDigits 10 v rest = some (v, rest) := by
  cases rest with
  | nil => rfl
  | cons c rest => exact if_pos (stops c rfl)

/-- Two digits are read as their number. -/
theorem readNumber_twoDigits {n : Nat} (small : n < 100) {rest : CString}
    (stops : ∀ c ∈ rest.head?, 10 ≤ digitValue c) :
    readNumber (lastDigit (n / 10) :: lastDigit n :: rest) = some (n, rest) := by
  have isDigit : digit (lastDigit (n / 10)) < 36 := by
    rw [(lastDigit_spec _).1]
    omega
  obtain ⟨blanks, _, skipMinus, skipPlus⟩ :=
    @unskipped (lastDigit (n / 10) :: lastDigit n :: rest)
      fun c first => Option.some_inj.mp first ▸ isDigit
  have minus : lastDigit (n / 10) ≠ '-' := lastDigit_ne _ (by decide)
  have value : (0 * 10 + n / 10 % 10) * 10 + n % 10 = n := by omega
  have notLargest : n ≠ 2 ^ 64 - 1 := by omega
  rw [readNumber, blanks, skipMinus, skipPlus, strToulDigits_lastDigit (by decide),
    strToulDigits_lastDigit (by omega), value, strToulDigits_stops n stops]
  simpa [minus] using notLargest

theorem digit_shortDigits {n : Nat} {c : Char} (member : c ∈ shortDigits n) : digit c < 10 := by
  have last : ∀ n, digit (lastDigit n) < 10 := fun n => by
    rw [(lastDigit_spec n).1]
    exact Nat.mod_lt n (by decide)
  rw [shortDigits, List.mem_append, List.mem_singleton] at member
  rcases member with tens | rfl
  · split at tens
    · rw [List.mem_singleton] at tens
      rw [tens]
      exact last _
    · exact absurd tens List.not_mem_nil
  · exact last n

theorem numeral_shortDigits {n : Nat} (small : n < 100) : numeral 10 (shortDigits n) = n := by
  have one : ∀ n, numeral 10 [lastDigit n] = n % 10 := fun n => by
    rw [← List.nil_append [lastDigit n], numeral_concat, (lastDigit_spec n).1, numeral_nil]
    omega
  rw [shortDigits, numeral_concat, (lastDigit_spec n).1]
  split
  · rw [one]
    omega
  · rw [numeral_nil]
    omega

theorem length_shortDigits (n : Nat) : (shortDigits n).length ≤ 2 := by
  rw [shortDigits]
  split
  · exact Nat.le_refl 2
  · exact Nat.le_succ 1

/-! ## Dates do not come back -/

/-- The day that a text says is what stands before its first point. -/
theorem Names.day_eq {first rest : CString} {date : Date} (names : Names (first ++ '.' :: rest) date)
    (isDigits : ∀ c ∈ first, digit c < 10) : numeral 10 first = date.day := by
  obtain ⟨day, month, year, text, digits, isDay, _⟩ := names
  have noPoint : ∀ {word : CString}, (∀ c ∈ word, digit c < 10) →
      ∀ c ∈ word, decide (c ≠ '.') = true := by
    intro word isDigits c member
    rw [decide_eq_true_eq]
    rintro rfl
    exact absurd (isDigits _ member) (by decide)
  have before : ∀ {word : CString} (rest : CString), (∀ c ∈ word, digit c < 10) →
      (word ++ '.' :: rest).takeWhile (fun c => decide (c ≠ '.')) = word := by
    intro word rest isDigits
    apply takeWhile_append_of_forall (noPoint isDigits)
    rintro c ⟨⟩
    rfl
  have same := congrArg (List.takeWhile fun c => decide (c ≠ '.')) text
  rw [before rest isDigits, List.append_assoc, List.cons_append,
    before _ fun c member => digits c (by simp [member])] at same
  rw [same]
  exact isDay

/-- No month has a hundred days. -/
theorem mday_lt (secs work : Nat) {year yday : Nat}
    (inYear : yday < if isleap year then 366 else 365) :
    (fillTm secs work (year, yday)).mday + 1 < 100 := by
  have lengths : ∀ leap : Bool, ∀ mon < 12, monthLength leap (mon + 1) ≤ 31 := by decide
  obtain ⟨mon, _, last, _⟩ := findMonth_spec (isleap year) inYear
  have bound := Nat.le_trans last (lengths _ _ mon)
  have same : (fillTm secs work (year, yday)).mday = (findMonth (isleap year) yday).2 := rfl
  omega

theorem timerFormatDate_eq (day : Nat) {tm : Tm} (found : timerGmtime (startOf day) = some tm) :
    timerFormatDate 10 0 false (startOf day) = some (dateBuf tm) := by
  have other : startOf day ≠ 2 ^ 64 - 1 := by
    have spd_eq : spd = 86400 := rfl
    rw [startOf, spd_eq]
    omega
  have short : (dateBuf tm).length ≤ 10 := by
    have first := length_shortDigits (tm.mday + 1)
    have second := length_shortDigits (tm.mon + 1)
    rw [dateBuf, List.append_assoc, List.length_append, List.length_append, List.length_cons]
    simp only [List.length_cons, List.length_nil]
    omega
  rw [timerFormatDate, if_neg other, found]
  simp [List.take_of_length_le short]

/-! ## Times come back -/

theorem timerParseTime_timeBuf {tm : Tm} (hour : tm.hour < 24) (min : tm.min < 60)
    (sec : tm.sec < 60) :
    timerParseTime (timeBuf tm) =
      some ((tm.hour * 3600 + tm.min * 60 + tm.sec) * 1000) := by
  have colon : ∀ rest : CString, ∀ c ∈ (':' :: rest).head?, 10 ≤ digitValue c := by
    rintro rest c ⟨⟩
    decide
  have seconds : readSeconds [':', lastDigit (tm.sec / 10), lastDigit tm.sec] = tm.sec := by
    rw [readSeconds, readNumber_twoDigits (by omega) (by simp)]
    exact Nat.mod_eq_of_lt sec
  rw [timerParseTime, timeBuf, readNumber_twoDigits (by omega) (colon _)]
  simp only [Option.bind_eq_bind, Option.bind_some, expect, if_true]
  rw [readNumber_twoDigits (by omega) (colon _)]
  simp only [Option.bind_some, seconds, Nat.mod_eq_of_lt hour, Nat.mod_eq_of_lt min]

/-- No date comes back, and every time does. -/
theorem only_times_come_back (mktime : MktimeArgs → Int) (thisyear : Int) (day mtime : Nat) :
    ¬ DateComesBack mktime thisyear day ∧ TimeComesBack mtime := by
  constructor
  · rintro ⟨tm, text, found, formatted, names, _⟩
    obtain ⟨year, yday, found', _, inYear, _⟩ := timerGmtime_found (startOf day)
    have small := mday_lt (startOf day / 1000 % spd) (dayOf (startOf day) % 2 ^ 32) inYear
    rw [← Option.some_inj.mp (found.symm.trans found')] at small
    rw [timerFormatDate_eq day found] at formatted
    rw [← Option.some_inj.mp formatted, dateBuf, List.append_assoc, List.cons_append] at names
    have said := names.day_eq fun c member => digit_shortDigits member
    rw [numeral_shortDigits small] at said
    exact absurd said (Nat.succ_ne_self tm.mday)
  · intro room enough
    obtain ⟨year, yday, found, _⟩ := timerGmtime_found mtime
    have inDay : mtime / 1000 % spd < spd := Nat.mod_lt _ (by decide)
    obtain ⟨hour, min, sec, seconds⟩ := secondsOf_clock inDay
    generalize mtime / 1000 % spd = secs at found hour min sec seconds
    have parsed := @timerParseTime_timeBuf (fillTm secs (dayOf mtime % 2 ^ 32) (year, yday))
      hour min sec
    refine ⟨_, ?_, parsed.trans (congrArg (fun secs => some (secs * 1000)) seconds)⟩
    rw [timerFormatTime, found, Option.map_some]
    exact congrArg some (List.take_of_length_le enough)

/-- The first of January 1970 is written as the second. -/
theorem first_day_written_second :
    ¬ ∀ mktime thisyear day, DateComesBack mktime thisyear day := by
  intro always
  obtain ⟨tm, text, found, formatted, names, _⟩ := always (fun _ => 0) 70 0
  have first : timerGmtime (startOf 0) = some ⟨0, 0, 0, 1, 0, 70, 4, 0⟩ := by decide +kernel
  have second : timerFormatDate 10 0 false (startOf 0) = some ("2" ++ ".1.1970").toList := by
    decide +kernel
  rw [← Option.some_inj.mp (second.symm.trans formatted)] at names
  rw [← Option.some_inj.mp (first.symm.trans found)] at names
  have isDigit : ∀ c ∈ ['2'], digit c < 10 := List.forall_mem_singleton.mpr (by decide)
  have said := @Names.day_eq ['2'] "1.1970".toList _ names isDigit
  exact absurd said (by decide)

end GmTime

end Chaosircd
