import Chaosircd.CString
import Mathlib.Data.Fin.Basic
import Mathlib.Data.Nat.Digits.Defs
import Mathlib.Tactic.IntervalCases

/-!
# Times in a format of their own

`timer_strftime` copies a format to a buffer of a given size and replaces the directives in
it.  A directive for which there is no room is left out, and what comes behind it is not.
-/

namespace Chaosircd

namespace TimeFormat

/-! ## `timer_strftime` -/

/-- `struct tm`, with the ranges that its fields have; years are counted from 1900 and months
from 0. -/
structure Tm where
  sec : Fin 61
  min : Fin 60
  hour : Fin 24
  mday : Fin 32
  mon : Fin 12
  year : BitVec 32
  wday : Fin 7
  deriving DecidableEq

/-- `timer_weekdays`. -/
def timerWeekdays (wday : Fin 7) : CString :=
  ["Sunday", "Monday", "Tuesday", "Wednesday", "Thursday", "Friday", "Saturday"][wday].toList

/-- `timer_months`. -/
def timerMonths (mon : Fin 12) : CString :=
  ["January", "February", "March", "April", "May", "June", "July", "August", "September",
    "November", "October", "December"][mon].toList

/-- `s[i++] = c` for some characters.  There is no result behind the end of the buffer. -/
def store (max : Nat) (text s : CString) : Option CString :=
  if s.length + text.length ≤ max then some (s ++ text) else none

/-- `i += strlcpy(&s[i], name, n)`, which writes a terminator too. -/
def storeName (max : Nat) (name : CString) (n : Nat) (s : CString) : Option CString :=
  if s.length + (strlcpy name n).length < max then some (s ++ strlcpy name n) else none

/-- `n + '0'` as a `char`. -/
def digit (n : Nat) : Char :=
  Char.ofNat ((n + '0'.toNat) % 256)

/-- The body of the directives of two digits. -/
def storeTwo (max n : Nat) (s : CString) : Option CString :=
  if s.length + 2 < max then store max [digit (n / 10), digit (n % 10)] s else some s

/-- `uint32_t year = tm->tm_year % 100`. -/
def shortYear (tm : Tm) : Nat :=
  (BitVec.ofInt 32 (tm.year.toInt.tmod 100)).toNat

/-- `uint32_t year = tm->tm_year + 1900`. -/
def longYear (tm : Tm) : Nat :=
  (tm.year + 1900).toNat

/-- The four characters that are written for a year. -/
def fourDigits (year : Nat) : CString :=
  [digit (year / 1000), digit (year % 1000 / 100), digit (year % 100 / 10), digit (year % 10)]

/-- The `switch` of `timer_strftime`. -/
def directive (max : Nat) (tm : Tm) (s : CString) : Char → Option CString
  | '%' => store max ['%'] s
  | 'a' => if s.length + 3 < max then storeName max (timerWeekdays tm.wday) 4 s else some s
  | 'A' =>
    let len := (timerWeekdays tm.wday).length
    if s.length + len < max then storeName max (timerWeekdays tm.wday) (len + 1) s else some s
  | 'b' =>
    if s.length + 3 < max then store max ((timerMonths tm.mon).take 3 ++ ['\x00']) s
    else some s
  | 'B' =>
    let len := (timerMonths tm.mon).length
    if s.length + len < max then storeName max (timerMonths tm.mon) (len + 1) s else some s
  | 'm' => storeTwo max (tm.mon + 1) s
  | 'H' => storeTwo max tm.hour s
  | 'd' => storeTwo max tm.mday s
  | 'D' =>
    if s.length + 2 < max then
      store max
        ((if (tm.mday : Nat) / 10 ≠ 0 then [digit (tm.mday / 10)] else []) ++
          [digit (tm.mday % 10)]) s
    else some s
  | 'M' => storeTwo max tm.min s
  | 'S' => storeTwo max tm.sec s
  | 'y' => storeTwo max (shortYear tm) s
  | 'Y' => if s.length + 4 < max then store max (fourDigits (longYear tm)) s else some s
  | _ => some s

/-- The loop of `timer_strftime`; behind a `%` at the end of the format it reads on behind the
format. -/
def strftimeLoop (max : Nat) (tm : Tm) : CString → CString → Option CString
  | [], s => some s
  | c :: format, s =>
    if max ≤ s.length then some s
    else if c ≠ '%' then (store max [c] s).bind (strftimeLoop max tm format)
    else
      match format with
      | [] => none
      | c :: format => (directive max tm s c).bind (strftimeLoop max tm format)

theorem strftimeLoop_char (max : Nat) (tm : Tm) {c : Char} (plain : c ≠ '%')
    (format s : CString) :
    strftimeLoop max tm (c :: format) s =
      if max ≤ s.length then some s else (store max [c] s).bind (strftimeLoop max tm format) := by
  rw [strftimeLoop.eq_def]
  exact if_congr Iff.rfl rfl (if_pos plain)

theorem strftimeLoop_directive (max : Nat) (tm : Tm) (c : Char) (format s : CString) :
    strftimeLoop max tm ('%' :: c :: format) s =
      if max ≤ s.length then some s
      else (directive max tm s c).bind (strftimeLoop max tm format) :=
  rfl

/-- `timer_strftime`: what is in the buffer, with the terminator.  For a size of 0 the
terminator is written in front of the buffer. -/
def timerStrftime (max : Nat) (format : CString) (tm : Tm) : Option CString :=
  (strftimeLoop max tm format []).bind fun s =>
    if max = 0 then none else some (s.take (max - 1) ++ ['\x00'])

/-! ## What a directive stands for -/

/-- The name of a month. -/
def monthName (mon : Fin 12) : CString :=
  ["January", "February", "March", "April", "May", "June", "July", "August", "September",
    "October", "November", "December"][mon].toList

/-- Two decimal digits. -/
def twoDigits (n : Nat) : CString :=
  [Nat.digitChar (n / 10), Nat.digitChar (n % 10)]

/-- The year that is meant. -/
def Tm.fullYear (tm : Tm) : Int :=
  tm.year.toInt + 1900

/-- A year with four digits or more, and a sign where it is negative. -/
def yearText (year : Int) : CString :=
  (if year < 0 then ['-'] else []) ++ List.leftpad 4 '0' (Nat.toDigits 10 year.natAbs)

/-- The text that a directive stands for. -/
def expansion (tm : Tm) : Char → CString
  | '%' => ['%']
  | 'a' => (timerWeekdays tm.wday).take 3
  | 'A' => timerWeekdays tm.wday
  | 'b' => (monthName tm.mon).take 3
  | 'B' => monthName tm.mon
  | 'm' => twoDigits (tm.mon + 1)
  | 'H' => twoDigits tm.hour
  | 'd' => twoDigits tm.mday
  | 'D' => Nat.toDigits 10 tm.mday
  | 'M' => twoDigits tm.min
  | 'S' => twoDigits tm.sec
  | 'y' => twoDigits (tm.year.toInt % 100).toNat
  | 'Y' => yearText tm.fullYear
  | _ => []

/-- A piece of a format: a character, a directive, or a `%` with nothing behind it. -/
inductive Piece where
  | char (c : Char)
  | directive (c : Char)
  | stray
  deriving DecidableEq

/-- The characters of a piece. -/
def Piece.source : Piece → CString
  | char c => [c]
  | directive c => ['%', c]
  | stray => ['%']

/-- The text that a piece stands for. -/
def Piece.text (tm : Tm) : Piece → CString
  | char c => [c]
  | directive c => expansion tm c
  | stray => []

/-- The pieces of a format. -/
def pieces : CString → List Piece
  | [] => []
  | c :: format =>
    if c ≠ '%' then .char c :: pieces format
    else
      match format with
      | [] => [.stray]
      | c :: format => .directive c :: pieces format

theorem pieces_char {c : Char} (plain : c ≠ '%') (format : CString) :
    pieces (c :: format) = .char c :: pieces format := by
  rw [pieces.eq_def]
  exact if_pos plain

theorem pieces_directive (c : Char) (format : CString) :
    pieces ('%' :: c :: format) = .directive c :: pieces format :=
  rfl

/-- The literal text and the expansions of the directives. -/
def expand (tm : Tm) (ps : List Piece) : CString :=
  ps.flatMap (Piece.text tm)

/-! ## Where the code does that -/

/-- What the code writes for a directive that it has room for. -/
def written (tm : Tm) : Char → CString
  | '%' => ['%']
  | 'a' => (timerWeekdays tm.wday).take 3
  | 'A' => timerWeekdays tm.wday
  | 'b' => (timerMonths tm.mon).take 3 ++ ['\x00']
  | 'B' => timerMonths tm.mon
  | 'm' => [digit ((tm.mon + 1 : Nat) / 10), digit ((tm.mon + 1 : Nat) % 10)]
  | 'H' => [digit (tm.hour / 10), digit (tm.hour % 10)]
  | 'd' => [digit (tm.mday / 10), digit (tm.mday % 10)]
  | 'D' =>
    (if (tm.mday : Nat) / 10 ≠ 0 then [digit (tm.mday / 10)] else []) ++ [digit (tm.mday % 10)]
  | 'M' => [digit (tm.min / 10), digit (tm.min % 10)]
  | 'S' => [digit (tm.sec / 10), digit (tm.sec % 10)]
  | 'y' => [digit (shortYear tm / 10), digit (shortYear tm % 10)]
  | 'Y' => fourDigits (longYear tm)
  | _ => []

/-- The room that the code wants for a directive. -/
def need (tm : Tm) : Char → Nat
  | 'a' | 'b' => 3
  | 'A' => (timerWeekdays tm.wday).length
  | 'B' => (timerMonths tm.mon).length
  | 'm' | 'H' | 'd' | 'D' | 'M' | 'S' | 'y' => 2
  | 'Y' => 4
  | _ => 0

theorem store_of_le {max : Nat} {text s : CString} (fits : s.length + text.length ≤ max) :
    store max text s = some (s ++ text) :=
  if_pos fits

theorem storeName_of_lt {max n : Nat} {name s : CString}
    (fits : s.length + (name.take n).length < max) :
    storeName max name (n + 1) s = some (s ++ name.take n) := by
  rw [storeName, strlcpy, Nat.add_sub_cancel]
  exact if_pos fits

/-- A directive is written where there is room for it, and left out elsewhere. -/
theorem guarded_eq {max left need : Nat} {s text : CString} {stored : Option CString}
    (room : s.length + left + 1 = max) (fits : need ≤ left → stored = some (s ++ text)) :
    (if s.length + need < max then stored else some s) =
      some (if left < need then s else s ++ text) := by
  by_cases short : left < need
  · rw [if_neg (by omega), if_pos short]
  · rw [if_pos (by omega), if_neg short, fits (by omega)]

theorem storeTwo_eq {max left : Nat} {s : CString} (n : Nat) (room : s.length + left + 1 = max) :
    storeTwo max n s =
      some (if left < 2 then s else s ++ [digit (n / 10), digit (n % 10)]) :=
  guarded_eq room fun _ => store_of_le (by simp only [List.length_cons, List.length_nil]; omega)

theorem directive_eq {max left : Nat} {s : CString} (tm : Tm) (c : Char)
    (room : s.length + left + 1 = max) :
    directive max tm s c = some (if left < need tm c then s else s ++ written tm c) := by
  unfold directive
  split <;> simp only [need, written, storeTwo_eq _ room]
  case h_1 => exact store_of_le (by simp only [List.length_cons, List.length_nil]; omega)
  case h_2 =>
    exact guarded_eq room fun _ => storeName_of_lt (by rw [List.length_take]; omega)
  case h_3 =>
    apply guarded_eq room
    intro fits
    rw [storeName_of_lt (by rw [List.length_take]; omega), List.take_length]
  case h_4 =>
    refine guarded_eq room fun _ => store_of_le ?_
    simp only [List.length_append, List.length_take, List.length_cons, List.length_nil]
    omega
  case h_5 =>
    apply guarded_eq room
    intro fits
    rw [storeName_of_lt (by rw [List.length_take]; omega), List.take_length]
  case h_9 =>
    refine guarded_eq room fun _ => store_of_le ?_
    split <;> simp only [List.length_append, List.length_cons, List.length_nil] <;> omega
  case h_13 =>
    refine guarded_eq room fun _ => store_of_le ?_
    simp only [fourDigits, List.length_cons, List.length_nil]
    omega
  case h_14 => simp

/-! ## When a directive is right -/

/-- With so many places left the directive is written, and it is right. -/
def Whole (tm : Tm) (left : Nat) : Char → Prop
  | '%' => 0 < left
  | 'a' => 3 ≤ left
  | 'A' => (timerWeekdays tm.wday).length ≤ left
  | 'b' => False
  | 'B' => (timerMonths tm.mon).length ≤ left ∧ tm.mon ≠ 9 ∧ tm.mon ≠ 10
  | 'm' | 'H' | 'd' | 'D' | 'M' | 'S' => 2 ≤ left
  | 'y' => 2 ≤ left ∧ (0 ≤ tm.year.toInt ∨ tm.year.toInt % 100 = 0)
  | 'Y' =>
    4 ≤ left ∧ (0 ≤ tm.fullYear ∧ tm.fullYear ≤ 9999 ∨
      left = 4 ∧ (yearText tm.fullYear).take 4 = fourDigits (longYear tm))
  | _ => True

/-- With so many places left the piece fills the buffer, and it is right. -/
def Fills (tm : Tm) (left : Nat) : Piece → Prop
  | .char _ => left = 0
  | .directive c => c = '%' ∧ left = 0 ∨ c = 'b' ∧ left = 3 ∧ tm.mon ≠ 9 ∧ tm.mon ≠ 10
  | .stray => False

/-- With so many places left the piece is right, and the buffer is not filled by it. -/
def Goes (tm : Tm) (left : Nat) : Piece → Prop
  | .char _ => 0 < left
  | .directive c => c ≠ '%' ∧ left = 0 ∨ Whole tm left c
  | .stray => False

/-- With so many places left the pieces are right. -/
def Meets (tm : Tm) : Nat → List Piece → Prop
  | _, [] => True
  | left, p :: ps =>
    Fills tm left p ∨ Goes tm left p ∧ Meets tm (left - (p.text tm).length) ps

/-- What is stored for a directive with so many places left. -/
def stored (tm : Tm) (left : Nat) (c : Char) : CString :=
  if left < need tm c then [] else written tm c

theorem take_stored_iff {left need : Nat} {actual wanted : CString} (visible : wanted ≠ []) :
    (if left < need then [] else actual).take left = wanted.take left ↔
      left = 0 ∨ need ≤ left ∧ actual.take left = wanted.take left := by
  by_cases none_left : left = 0
  · subst none_left
    simp
  by_cases short : left < need
  · rw [if_pos short, List.take_nil]
    have shown : wanted.take left ≠ [] := by
      intro empty
      exact (List.take_eq_nil_iff.mp empty).elim none_left visible
    constructor
    · intro same
      exact absurd same.symm shown
    · rintro (absent | ⟨fits, -⟩)
      · exact absurd absent none_left
      · omega
  · rw [if_neg short]
    constructor
    · exact fun same => .inr ⟨by omega, same⟩
    · rintro (absent | ⟨-, same⟩)
      · exact absurd absent none_left
      · exact same

theorem digit_eq {n : Nat} (small : n < 10) : digit n = Nat.digitChar n := by
  interval_cases n <;> rfl

theorem two_eq_twoDigits {n : Nat} (small : n < 100) :
    [digit (n / 10), digit (n % 10)] = twoDigits n := by
  rw [digit_eq (by omega), digit_eq (by omega), twoDigits]

/-- The names of the days are texts of at least three characters. -/
theorem weekday_text (wday : Fin 7) :
    3 ≤ (timerWeekdays wday).length ∧ '\x00' ∉ timerWeekdays wday := by
  have texts : ∀ text ∈ ["Sunday", "Monday", "Tuesday", "Wednesday", "Thursday", "Friday",
      "Saturday"], 3 ≤ text.toList.length ∧ '\x00' ∉ text.toList := by
    simp only [List.forall_mem_cons]
    repeat rw [String.toList_ofList]
    decide
  exact texts _ (List.getElem_mem _)

/-- So are those of the months. -/
theorem monthName_text (mon : Fin 12) :
    3 ≤ (monthName mon).length ∧ '\x00' ∉ monthName mon := by
  have texts : ∀ text ∈ ["January", "February", "March", "April", "May", "June", "July", "August",
      "September", "October", "November", "December"],
      3 ≤ text.toList.length ∧ '\x00' ∉ text.toList := by
    simp only [List.forall_mem_cons]
    repeat rw [String.toList_ofList]
    decide
  exact texts _ (List.getElem_mem _)

/-- October and November stand in the table the other way round. -/
theorem timerMonths_cases (mon : Fin 12) :
    timerMonths mon = monthName mon ∧ (mon ≠ 9 ∧ mon ≠ 10) ∨
      timerMonths mon = monthName 10 ∧ mon = 9 ∨ timerMonths mon = monthName 9 ∧ mon = 10 := by
  by_cases nine : mon = 9
  · subst nine
    exact .inr (.inl ⟨rfl, rfl⟩)
  · by_cases ten : mon = 10
    · subst ten
      exact .inr (.inr ⟨rfl, rfl⟩)
    · refine .inl ⟨?_, nine, ten⟩
      obtain ⟨mon, inside⟩ := mon
      interval_cases mon
      all_goals first | rfl | exact absurd rfl nine | exact absurd rfl ten

theorem head_monthNames_ne :
    (monthName 9).head? ≠ (monthName 10).head? ∧
      ((monthName 9).take 3 ++ ['\x00']).head? ≠ ((monthName 10).take 3).head? ∧
      ((monthName 10).take 3 ++ ['\x00']).head? ≠ ((monthName 9).take 3).head? := by
  have october : monthName 9 = ['O', 'c', 't', 'o', 'b', 'e', 'r'] := String.toList_ofList
  have november : monthName 10 = ['N', 'o', 'v', 'e', 'm', 'b', 'e', 'r'] := String.toList_ofList
  rw [october, november]
  decide

theorem three_le_length_month (mon : Fin 12) : 3 ≤ (timerMonths mon).length := by
  rcases timerMonths_cases mon with ⟨same, -⟩ | ⟨same, -⟩ | ⟨same, -⟩
  all_goals
    rw [same]
    exact (monthName_text _).1

theorem timerWeekdays_ne_nil (wday : Fin 7) : timerWeekdays wday ≠ [] :=
  List.ne_nil_of_length_pos (Nat.lt_of_lt_of_le (Nat.succ_pos 2) (weekday_text wday).1)

theorem monthName_ne_nil (mon : Fin 12) : monthName mon ≠ [] :=
  List.ne_nil_of_length_pos (Nat.lt_of_lt_of_le (Nat.succ_pos 2) (monthName_text mon).1)

theorem timerMonths_eq {mon : Fin 12} (right : mon ≠ 9 ∧ mon ≠ 10) :
    timerMonths mon = monthName mon := by
  rcases timerMonths_cases mon with ⟨same, -⟩ | ⟨-, nine⟩ | ⟨-, ten⟩
  · exact same
  · exact absurd nine right.1
  · exact absurd ten right.2

theorem head_timerMonths_ne {mon : Fin 12} (wrong : ¬(mon ≠ 9 ∧ mon ≠ 10)) :
    (timerMonths mon).head? ≠ (monthName mon).head? := by
  rcases timerMonths_cases mon with ⟨-, right⟩ | ⟨same, rfl⟩ | ⟨same, rfl⟩
  · exact absurd right wrong
  · rw [same]
    exact head_monthNames_ne.1.symm
  · rw [same]
    exact head_monthNames_ne.1

theorem head_shortMonth_ne {mon : Fin 12} (wrong : ¬(mon ≠ 9 ∧ mon ≠ 10)) :
    ((timerMonths mon).take 3 ++ ['\x00']).head? ≠ ((monthName mon).take 3).head? := by
  rcases timerMonths_cases mon with ⟨-, right⟩ | ⟨same, rfl⟩ | ⟨same, rfl⟩
  · exact absurd right wrong
  · rw [same]
    exact head_monthNames_ne.2.2
  · rw [same]
    exact head_monthNames_ne.2.1

theorem head_of_take_eq {left : Nat} {a b : CString} (positive : 0 < left)
    (same : a.take left = b.take left) : a.head? = b.head? := by
  have heads := congrArg List.head? same
  rwa [List.head?_take, List.head?_take, if_neg (by omega), if_neg (by omega)] at heads

/-- `%b` is right only where there is no room for the terminator that it writes. -/
theorem take_shortMonth_iff {left : Nat} {mon : Fin 12} (fits : 3 ≤ left) :
    ((timerMonths mon).take 3 ++ ['\x00']).take left = ((monthName mon).take 3).take left ↔
      left = 3 ∧ mon ≠ 9 ∧ mon ≠ 10 := by
  have long := three_le_length_month mon
  have longName := (monthName_text mon).1
  constructor
  · intro same
    have lengths := congrArg List.length same
    simp only [List.length_take, List.length_append, List.length_cons, List.length_nil] at lengths
    refine ⟨by omega, ?_⟩
    by_contra wrong
    exact head_shortMonth_ne wrong (head_of_take_eq (by omega) same)
  · rintro ⟨rfl, right⟩
    rw [timerMonths_eq right, List.take_left' (by rw [List.length_take]; omega), List.take_take]
    rfl

theorem take_month_iff {left : Nat} {mon : Fin 12} (fits : (timerMonths mon).length ≤ left) :
    (timerMonths mon).take left = (monthName mon).take left ↔ mon ≠ 9 ∧ mon ≠ 10 := by
  constructor
  · intro same
    by_contra wrong
    have long := three_le_length_month mon
    exact head_timerMonths_ne wrong (head_of_take_eq (by omega) same)
  · intro right
    rw [timerMonths_eq right]

theorem digitChar_ne (e : Fin 100) : Nat.digitChar ((e + 6 : Nat) % 10) ≠ Nat.digitChar (e % 10) := by
  revert e
  decide

/-- A negative remainder becomes a number below 2 ^ 32 whose last digit is another one. -/
theorem shortYear_iff (tm : Tm) :
    [digit (shortYear tm / 10), digit (shortYear tm % 10)] =
        twoDigits (tm.year.toInt % 100).toNat ↔
      0 ≤ tm.year.toInt ∨ tm.year.toInt % 100 = 0 := by
  have value : shortYear tm = (tm.year.toInt.tmod 100 % 2 ^ 32).toNat := by
    rw [shortYear, BitVec.toNat_ofInt]
    rfl
  have least : 0 ≤ tm.year.toInt % 100 := Int.emod_nonneg _ (by decide)
  have most : tm.year.toInt % 100 < 100 := Int.emod_lt_of_pos _ (by decide)
  rw [Int.tmod_eq_emod] at value
  by_cases plain : 0 ≤ tm.year.toInt ∨ (100 : Int) ∣ tm.year.toInt
  · rw [if_pos plain] at value
    have same : shortYear tm = (tm.year.toInt % 100).toNat := by omega
    rw [same, two_eq_twoDigits (by omega)]
    exact iff_of_true rfl (plain.imp id Int.emod_eq_zero_of_dvd)
  · rw [if_neg plain] at value
    have other : shortYear tm % 10 = ((tm.year.toInt % 100).toNat + 6) % 10 := by omega
    rw [Int.dvd_iff_emod_eq_zero] at plain
    refine iff_of_false ?_ plain
    intro same
    have last := (List.cons.inj (List.cons.inj same).2).1
    rw [digit_eq (by omega), other] at last
    exact digitChar_ne ⟨(tm.year.toInt % 100).toNat, by omega⟩ last

theorem length_yearText {year : Int} (long : year < 0 ∨ 9999 < year) :
    5 ≤ (yearText year).length := by
  rw [yearText, List.length_append, List.length_leftpad]
  by_cases negative : year < 0
  · rw [if_pos negative, List.length_singleton]
    omega
  · rw [if_neg negative, List.length_nil]
    have many := (Nat.length_toDigits_le_iff (b := 10) (n := year.natAbs) (k := 4)
      (by decide) (by decide)).not.mpr (by omega)
    omega

/-- The number with four digits. -/
theorem leftpad_toDigits {n : Nat} (small : n < 10000) :
    List.leftpad 4 '0' (Nat.toDigits 10 n) =
      [Nat.digitChar (n / 1000), Nat.digitChar (n % 1000 / 100), Nat.digitChar (n % 100 / 10),
        Nat.digitChar (n % 10)] := by
  have hundreds : n / 10 / 10 % 10 = n % 1000 / 100 := by omega
  have tens : n / 10 % 10 = n % 100 / 10 := by omega
  have thousands : n / 10 / 10 / 10 = n / 1000 := by omega
  rw [Nat.toDigits_eq_if (by decide)]
  split
  · have zeros : n / 1000 = 0 ∧ n % 1000 / 100 = 0 ∧ n % 100 / 10 = 0 ∧ n % 10 = n := by omega
    rw [zeros.1, zeros.2.1, zeros.2.2.1, zeros.2.2.2]
    rfl
  rw [Nat.toDigits_eq_if (by decide)]
  split
  · have zeros : n / 1000 = 0 ∧ n % 1000 / 100 = 0 ∧ n % 100 / 10 = n / 10 := by omega
    rw [zeros.1, zeros.2.1, zeros.2.2]
    rfl
  rw [Nat.toDigits_eq_if (by decide)]
  split
  · have zeros : n / 1000 = 0 ∧ n % 1000 / 100 = n / 10 / 10 := by omega
    rw [zeros.1, zeros.2, tens]
    rfl
  rw [Nat.toDigits_of_lt_base (by omega), hundreds, tens, thousands]
  rfl

theorem yearText_eq {tm : Tm} (least : 0 ≤ tm.fullYear) (most : tm.fullYear ≤ 9999) :
    yearText tm.fullYear = fourDigits (longYear tm) := by
  have value : longYear tm = tm.fullYear.natAbs := by
    have places := BitVec.toInt_eq_toNat_cond tm.year
    have sum : (tm.year + 1900).toNat = (tm.year.toNat + 1900) % 2 ^ 32 := by
      rw [BitVec.toNat_add]
      rfl
    have small := tm.year.isLt
    rw [longYear, sum]
    rw [Tm.fullYear] at least most ⊢
    split at places <;> omega
  rw [yearText, if_neg (by omega), List.nil_append, leftpad_toDigits (by omega), fourDigits, value,
    digit_eq (by omega), digit_eq (by omega), digit_eq (by omega), digit_eq (by omega)]

theorem take_year_iff {tm : Tm} {left : Nat} (fits : 4 ≤ left) :
    (fourDigits (longYear tm)).take left = (yearText tm.fullYear).take left ↔
      0 ≤ tm.fullYear ∧ tm.fullYear ≤ 9999 ∨
        left = 4 ∧ (yearText tm.fullYear).take 4 = fourDigits (longYear tm) := by
  have four : (fourDigits (longYear tm)).take left = fourDigits (longYear tm) :=
    List.take_of_length_le fits
  rw [four]
  by_cases usual : 0 ≤ tm.fullYear ∧ tm.fullYear ≤ 9999
  · rw [yearText_eq usual.1 usual.2, four]
    exact iff_of_true rfl (.inl usual)
  · have long := @length_yearText tm.fullYear (by omega)
    constructor
    · intro same
      have lengths : 4 = min left (yearText tm.fullYear).length := by
        rw [← List.length_take, ← same]
        rfl
      have exactly : left = 4 := by omega
      exact .inr ⟨exactly, by rw [same, exactly]⟩
    · rintro (within | ⟨exactly, same⟩)
      · exact absurd within usual
      · rw [exactly, same]

theorem two_ne_nil (n : Nat) : twoDigits n ≠ [] :=
  List.cons_ne_nil _ _

/-- Only the characters that are no directives stand for no text. -/
theorem need_written_of_expansion_eq_nil {tm : Tm} {c : Char} (empty : expansion tm c = []) :
    need tm c = 0 ∧ written tm c = [] := by
  unfold expansion at empty
  split at empty
  case h_1 => exact absurd empty (List.cons_ne_nil _ _)
  case h_2 => exact absurd empty (by simp [timerWeekdays_ne_nil])
  case h_3 => exact absurd empty (timerWeekdays_ne_nil _)
  case h_4 => exact absurd empty (by simp [monthName_ne_nil])
  case h_5 => exact absurd empty (monthName_ne_nil _)
  case h_6 | h_7 | h_8 | h_10 | h_11 | h_12 => exact absurd empty (two_ne_nil _)
  case h_9 => exact absurd empty Nat.toDigits_ne_nil
  case h_13 =>
    rw [yearText, List.append_eq_nil_iff] at empty
    have lengths := congrArg List.length empty.2
    rw [List.length_leftpad, List.length_nil] at lengths
    omega
  case h_14 => simp only [need, written, and_self]

theorem shortDay_eq (mday : Fin 32) :
    (if (mday : Nat) / 10 ≠ 0 then [digit (mday / 10)] else []) ++ [digit (mday % 10)] =
      Nat.toDigits 10 mday := by
  revert mday
  decide

theorem whole_iff {tm : Tm} {left : Nat} {c : Char} (percent : c ≠ '%') (short : c ≠ 'b') :
    Whole tm left c ↔
      need tm c ≤ left ∧ (written tm c).take left = (expansion tm c).take left := by
  unfold Whole
  split <;> simp only [need, written, expansion]
  case h_1 => exact absurd rfl percent
  case h_4 => exact absurd rfl short
  case h_5 => exact and_congr_right fun fits => (take_month_iff fits).symm
  case h_6 | h_7 | h_8 | h_10 | h_11 => rw [two_eq_twoDigits (by omega), and_iff_left rfl]
  case h_9 => rw [shortDay_eq, and_iff_left rfl]
  case h_12 =>
    refine and_congr_right fun fits => ?_
    rw [List.take_of_length_le fits, List.take_of_length_le fits, shortYear_iff]
  case h_13 => exact and_congr_right fun fits => (take_year_iff fits).symm
  all_goals simp

/-- What is stored for a directive is what is wanted there under the conditions above. -/
theorem stored_iff (tm : Tm) (left : Nat) (c : Char) :
    (stored tm left c).take left = (expansion tm c).take left ↔
      Fills tm left (.directive c) ∨ Goes tm left (.directive c) := by
  by_cases percent : c = '%'
  · subst percent
    have always : stored tm left '%' = expansion tm '%' := rfl
    rw [always]
    refine iff_of_true rfl ?_
    rcases Nat.eq_zero_or_pos left with full | room
    · exact .inl (.inl ⟨rfl, full⟩)
    · exact .inr (.inr room)
  by_cases short : c = 'b'
  · subst short
    have shown : (monthName tm.mon).take 3 ≠ [] := by simp [monthName_ne_nil]
    simp only [stored, need, written, expansion, Fills, Goes, Whole]
    rw [take_stored_iff shown, and_congr_right (fun fits => take_shortMonth_iff fits)]
    simp
    omega
  by_cases known : expansion tm c = []
  · obtain ⟨unneeded, unwritten⟩ := need_written_of_expansion_eq_nil known
    have whole : Whole tm left c := by
      rw [whole_iff percent short, unneeded, unwritten, known]
      exact ⟨Nat.zero_le _, rfl⟩
    rw [stored, unwritten, ite_self, known]
    exact iff_of_true rfl (.inr (.inr whole))
  · rw [stored, take_stored_iff known, ← whole_iff percent short]
    simp [Fills, Goes, percent, short]

/-! ## The loop over the pieces -/

/-- What one turn of the loop does with a piece. -/
def pieceStep (max : Nat) (tm : Tm) (s : CString) : Piece → Option CString
  | .char c => store max [c] s
  | .directive c => directive max tm s c
  | .stray => none

/-- The loop over the pieces. -/
def pieceLoop (max : Nat) (tm : Tm) : List Piece → CString → Option CString
  | [], s => some s
  | p :: ps, s =>
    if max ≤ s.length then some s else (pieceStep max tm s p).bind (pieceLoop max tm ps)

/-- The loop takes the pieces of a format one after the other, also those of a beginning. -/
theorem strftimeLoop_source (max : Nat) (tm : Tm) (format : CString) (before : List Piece)
    (s : CString) (prefixes : before <+: pieces format) :
    strftimeLoop max tm (before.flatMap Piece.source) s = pieceLoop max tm before s := by
  induction format using pieces.induct generalizing before s with
  | case1 =>
    rw [List.prefix_nil.mp prefixes]
    rfl
  | case2 c format plain ih =>
    rw [pieces_char plain, List.prefix_cons_iff] at prefixes
    rcases prefixes with rfl | ⟨later, rfl, prefixes⟩
    · rfl
    · rw [List.flatMap_cons, Piece.source, List.singleton_append, strftimeLoop_char _ _ plain,
        pieceLoop, pieceStep]
      exact if_congr Iff.rfl rfl (Option.bind_congr fun next _ => ih later next prefixes)
  | case3 c plain =>
    rw [not_not] at plain
    subst plain
    have single : before <+: [Piece.stray] := prefixes
    rw [List.prefix_cons_iff] at single
    rcases single with rfl | ⟨later, rfl, alone⟩
    · rfl
    · rw [List.prefix_nil.mp alone]
      rfl
  | case4 c plain d format ih =>
    rw [not_not] at plain
    subst plain
    rw [pieces_directive, List.prefix_cons_iff] at prefixes
    rcases prefixes with rfl | ⟨later, rfl, prefixes⟩
    · rfl
    · rw [List.flatMap_cons, Piece.source, List.cons_append, List.singleton_append,
        strftimeLoop_directive, pieceLoop, pieceStep]
      exact if_congr Iff.rfl rfl (Option.bind_congr fun next _ => ih later next prefixes)

/-- The pieces of a format are the format. -/
theorem pieces_source (format : CString) : (pieces format).flatMap Piece.source = format := by
  induction format using pieces.induct with
  | case1 => rfl
  | case2 c format plain ih =>
    rw [pieces_char plain, List.flatMap_cons, ih]
    rfl
  | case3 c plain =>
    rw [not_not] at plain
    subst plain
    rfl
  | case4 c plain d format ih =>
    rw [not_not] at plain
    subst plain
    rw [pieces_directive, List.flatMap_cons, ih]
    rfl

/-- What is stored for a piece with so many places left. -/
def Piece.stored (tm : Tm) (left : Nat) : Piece → CString
  | char c => [c]
  | directive c => TimeFormat.stored tm left c
  | stray => []

theorem pieceStep_eq {max left : Nat} {tm : Tm} {s : CString} {p : Piece}
    (room : s.length + left + 1 = max) (behind : p ≠ .stray) :
    pieceStep max tm s p = some (s ++ p.stored tm left) := by
  cases p with
  | char c => exact store_of_le (by simp only [List.length_singleton]; omega)
  | directive c =>
    rw [pieceStep, directive_eq tm c room, Piece.stored, stored]
    split
    · rw [List.append_nil]
    · rfl
  | stray => exact absurd rfl behind

theorem Piece.stored_iff {tm : Tm} {left : Nat} {p : Piece} (behind : p ≠ .stray) :
    (p.stored tm left).take left = (p.text tm).take left ↔ Fills tm left p ∨ Goes tm left p := by
  cases p with
  | char c => exact iff_of_true rfl (Nat.eq_zero_or_pos left)
  | directive c => exact TimeFormat.stored_iff tm left c
  | stray => exact absurd rfl behind

theorem length_written_le {tm : Tm} {c : Char} (percent : c ≠ '%') (short : c ≠ 'b') :
    (written tm c).length ≤ need tm c := by
  unfold written
  split
  case h_1 => exact absurd rfl percent
  case h_2 => exact List.length_take_le _ _
  case h_4 => exact absurd rfl short
  case h_9 =>
    have two : need tm 'D' = 2 := rfl
    rw [shortDay_eq, two]
    exact (Nat.length_toDigits_le_iff (by decide) (by decide)).mpr (by omega)
  case h_14 => exact Nat.zero_le _
  all_goals exact le_rfl

/-- A piece fills the buffer or leaves room in it as the two conditions say. -/
theorem length_stored_of_goes {tm : Tm} {left : Nat} {p : Piece} (goes : Goes tm left p) :
    (p.stored tm left).length ≤ left := by
  cases p with
  | char c => exact goes
  | directive c =>
    by_cases percent : c = '%'
    · subst percent
      rcases goes with ⟨plain, -⟩ | room
      · exact absurd rfl plain
      · exact room
    by_cases short : c = 'b'
    · subst short
      rcases goes with ⟨-, rfl⟩ | impossible
      · exact le_rfl
      · exact absurd impossible not_false
    · rw [Piece.stored, TimeFormat.stored]
      have fits := @length_written_le tm _ percent short
      split
      · exact Nat.zero_le _
      · omega
  | stray => exact absurd goes not_false

theorem lt_length_stored_of_fills {tm : Tm} {left : Nat} {p : Piece} (fills : Fills tm left p) :
    left < (p.stored tm left).length := by
  cases p with
  | char c => exact lt_of_eq_of_lt fills Nat.one_pos
  | directive c =>
    rcases fills with ⟨rfl, rfl⟩ | ⟨rfl, rfl, -⟩
    · exact Nat.one_pos
    · have long := three_le_length_month tm.mon
      have four : (Piece.stored tm 3 (.directive 'b')).length = 4 := by
        change ((timerMonths tm.mon).take 3 ++ ['\x00']).length = 4
        rw [List.length_append, List.length_take, Nat.min_eq_left long]
        rfl
      omega
  | stray => exact absurd fills not_false

/-! ## Whole formats -/

/-- The loop ends, and what is in front of the last place is the beginning of what is
wanted. -/
def EndsWith (max : Nat) (wanted : CString) (result : Option CString) : Prop :=
  ∃ s, result = some s ∧ s.take (max - 1) = wanted.take (max - 1)

theorem pieceLoop_of_full {max : Nat} {tm : Tm} (ps : List Piece) {s : CString}
    (full : max ≤ s.length) : pieceLoop max tm ps s = some s := by
  cases ps with
  | nil => rfl
  | cons p ps => exact if_pos full

theorem pieceLoop_cons {max left : Nat} {tm : Tm} {s : CString} {p : Piece} (ps : List Piece)
    (room : s.length + left + 1 = max) (behind : p ≠ .stray) :
    pieceLoop max tm (p :: ps) s = pieceLoop max tm ps (s ++ p.stored tm left) := by
  rw [pieceLoop, if_neg (by omega), pieceStep_eq room behind, Option.bind_some]

theorem take_append_take (left : Nat) (text rest : CString) :
    (text.take left ++ rest).take left = (text ++ rest).take left := by
  rcases Nat.le_total text.length left with short | long
  · rw [List.take_of_length_le short]
  · rw [List.take_append_of_le_length long,
      List.take_append_of_le_length (by rw [List.length_take]; omega), List.take_take,
      Nat.min_self]

/-- Behind a piece that is right and has left room the text goes on where it should. -/
theorem goes_on {tm : Tm} {left : Nat} {p : Piece} (goes : Goes tm left p)
    (behind : p ≠ .stray) :
    p.stored tm left = (p.text tm).take left ∧
      (p.stored tm left).length + (left - (p.text tm).length) = left := by
  have fits := length_stored_of_goes goes
  have same := (Piece.stored_iff behind).mpr (.inr goes)
  rw [List.take_of_length_le fits] at same
  refine ⟨same, ?_⟩
  rw [same, List.length_take]
  omega

theorem not_stray {tm : Tm} {left : Nat} {p : Piece} (right : Fills tm left p ∨ Goes tm left p) :
    p ≠ .stray := by
  rintro rfl
  exact right.elim id id

theorem pieceLoop_of_meets {max : Nat} {tm : Tm} (ps : List Piece) {left : Nat} {s : CString}
    (room : s.length + left + 1 = max) (meets : Meets tm left ps) :
    EndsWith max (s ++ expand tm ps) (pieceLoop max tm ps s) := by
  induction ps generalizing left s with
  | nil => exact ⟨s, rfl, by rw [expand, List.flatMap_nil, List.append_nil]⟩
  | cons p ps ih =>
    have behind : p ≠ .stray := not_stray (meets.imp id And.left)
    have front : max - 1 = s.length + left := by omega
    rw [pieceLoop_cons ps room behind, expand, List.flatMap_cons]
    rcases meets with fills | ⟨goes, meets⟩
    · have past := lt_length_stored_of_fills fills
      have right := (Piece.stored_iff behind).mpr (.inl fills)
      have shown : left ≤ (p.text tm).length := by
        have lengths := congrArg List.length right
        rw [List.length_take, List.length_take] at lengths
        omega
      refine ⟨_, pieceLoop_of_full ps (by rw [List.length_append]; omega), ?_⟩
      rw [front, List.take_length_add_append, List.take_length_add_append, right,
        List.take_append_of_le_length shown]
    · obtain ⟨same, places⟩ := goes_on goes behind
      obtain ⟨s', ended, wanted⟩ :=
        @ih (left - (p.text tm).length) (s ++ p.stored tm left)
          (by rw [List.length_append]; omega) meets
      refine ⟨s', ended, ?_⟩
      rw [wanted, front, List.append_assoc, List.take_length_add_append,
        List.take_length_add_append, same, take_append_take]
      rfl

theorem meets_front {tm : Tm} {before ps : List Piece} {left : Nat}
    (prefixes : before <+: ps) (meets : Meets tm left ps) : Meets tm left before := by
  induction ps generalizing before left with
  | nil =>
    rw [List.prefix_nil.mp prefixes]
    exact trivial
  | cons p ps ih =>
    rcases List.prefix_cons_iff.mp prefixes with rfl | ⟨later, rfl, inner⟩
    · exact trivial
    · exact meets.imp id fun ⟨goes, meets⟩ => ⟨goes, ih inner meets⟩

theorem meets_of_pieceLoop {max : Nat} {tm : Tm} (ps : List Piece) {left : Nat} {s : CString}
    (room : s.length + left + 1 = max)
    (right : ∀ before, before <+: ps →
      EndsWith max (s ++ expand tm before) (pieceLoop max tm before s)) :
    Meets tm left ps := by
  induction ps generalizing left s with
  | nil => exact trivial
  | cons p ps ih =>
    have front : max - 1 = s.length + left := by omega
    obtain ⟨s', ended, wanted⟩ := right [p] (List.prefix_cons_inj p |>.mpr List.nil_prefix)
    have behind : p ≠ .stray := by
      rintro rfl
      rw [pieceLoop, if_neg (by omega)] at ended
      exact absurd ended (by simp [pieceStep])
    rw [pieceLoop_cons [] room behind, pieceLoop, Option.some.injEq] at ended
    rw [← ended, expand, List.flatMap_cons, List.flatMap_nil, List.append_nil, front,
      List.take_length_add_append, List.take_length_add_append, List.append_cancel_left_eq] at wanted
    rcases (Piece.stored_iff behind).mp wanted with fills | goes
    · exact .inl fills
    · obtain ⟨same, places⟩ := goes_on goes behind
      refine .inr ⟨goes, ih (s := s ++ p.stored tm left) (by rw [List.length_append]; omega) ?_⟩
      intro before prefixes
      obtain ⟨s', ended, wanted⟩ := right (p :: before) (List.prefix_cons_inj p |>.mpr prefixes)
      rw [pieceLoop_cons before room behind] at ended
      refine ⟨s', ended, ?_⟩
      rw [wanted, expand, List.flatMap_cons, front, List.append_assoc, List.take_length_add_append,
        List.take_length_add_append, same, take_append_take]
      rfl

/-- At every place between two pieces the buffer holds the literal text and the expansions of
the directives up to there, as much of them as there is room for in front of a terminator. -/
def ExpandsRight (max : Nat) (format : CString) (tm : Tm) : Prop :=
  ∀ before, before <+: pieces format →
    timerStrftime max (before.flatMap Piece.source) tm =
      some ((expand tm before).take (max - 1) ++ ['\x00'])

theorem timerStrftime_eq_iff {max : Nat} {tm : Tm} {format : CString} {before : List Piece}
    (positive : 0 < max) (prefixes : before <+: pieces format) :
    timerStrftime max (before.flatMap Piece.source) tm =
        some ((expand tm before).take (max - 1) ++ ['\x00']) ↔
      EndsWith max (expand tm before) (pieceLoop max tm before []) := by
  rw [timerStrftime, strftimeLoop_source max tm format before [] prefixes,
    Option.bind_eq_some_iff]
  simp only [if_neg (Nat.ne_of_gt positive), Option.some.injEq, List.append_cancel_right_eq]
  rfl

/-- A format is expanded right exactly if there is a place for the terminator and the pieces
that the buffer has room for are right. -/
theorem expandsRight_iff (max : Nat) (format : CString) (tm : Tm) :
    ExpandsRight max format tm ↔ 0 < max ∧ Meets tm (max - 1) (pieces format) := by
  constructor
  · intro right
    have positive : 0 < max := by
      by_contra none_left
      obtain rfl : max = 0 := by omega
      have first := right [] List.nil_prefix
      simp [timerStrftime, strftimeLoop] at first
    have room : ([] : CString).length + (max - 1) + 1 = max := by
      rw [List.length_nil]
      omega
    refine ⟨positive, meets_of_pieceLoop (pieces format) room fun before prefixes => ?_⟩
    exact (timerStrftime_eq_iff positive prefixes).mp (right before prefixes)
  · rintro ⟨positive, meets⟩ before prefixes
    have room : ([] : CString).length + (max - 1) + 1 = max := by
      rw [List.length_nil]
      omega
    exact (timerStrftime_eq_iff positive prefixes).mpr
      (pieceLoop_of_meets before room (meets_front prefixes meets))

theorem ne_nul_of_mem_toDigits {n : Nat} {c : Char} (listed : c ∈ Nat.toDigits 10 n) :
    c ≠ '\x00' := by
  rintro rfl
  exact absurd (Nat.isDigit_of_mem_toDigits (by decide) (by decide) listed) (by decide)

theorem nul_not_mem_timerWeekdays (wday : Fin 7) : '\x00' ∉ timerWeekdays wday :=
  (weekday_text wday).2

theorem nul_not_mem_monthName (mon : Fin 12) : '\x00' ∉ monthName mon :=
  (monthName_text mon).2

theorem nul_not_mem_twoDigits {n : Nat} (small : n < 100) : '\x00' ∉ twoDigits n := by
  have digits : ∀ d < 10, '\x00' ≠ Nat.digitChar d := by decide
  have tens := digits (n / 10) (by omega)
  have ones := digits (n % 10) (by omega)
  simp [twoDigits, tens, ones]

/-- No directive stands for a text with a terminator in it. -/
theorem nul_not_mem_expansion (tm : Tm) (c : Char) : '\x00' ∉ expansion tm c := by
  unfold expansion
  split
  case h_1 => decide
  case h_2 => exact fun listed => nul_not_mem_timerWeekdays _ (List.mem_of_mem_take listed)
  case h_3 => exact nul_not_mem_timerWeekdays _
  case h_4 => exact fun listed => nul_not_mem_monthName _ (List.mem_of_mem_take listed)
  case h_5 => exact nul_not_mem_monthName _
  case h_6 | h_7 | h_8 | h_10 | h_11 | h_12 => exact nul_not_mem_twoDigits (by omega)
  case h_9 => exact fun listed => ne_nul_of_mem_toDigits listed rfl
  case h_13 =>
    intro listed
    rw [yearText, List.mem_append, List.leftpad, List.mem_append] at listed
    rcases listed with sign | zero | listed
    · split at sign
      · exact absurd sign (by decide)
      · exact absurd sign List.not_mem_nil
    · exact absurd (List.eq_of_mem_replicate zero) (by decide)
    · exact ne_nul_of_mem_toDigits listed rfl
  case h_14 => exact List.not_mem_nil

theorem nul_not_mem_expand {tm : Tm} {format : CString} (text : '\x00' ∉ format) :
    '\x00' ∉ expand tm (pieces format) := by
  rw [expand, List.mem_flatMap]
  rintro ⟨p, listed, within⟩
  cases p with
  | char c =>
    apply text
    rw [← pieces_source format, List.mem_flatMap]
    exact ⟨_, listed, within⟩
  | directive c => exact nul_not_mem_expansion tm c within
  | stray => exact absurd within List.not_mem_nil

/-! ## The size of the buffer -/

theorem length_stored_le {tm : Tm} (left : Nat) (p : Piece) :
    (p.stored tm left).length ≤ left + 1 := by
  cases p with
  | char c => exact Nat.le_add_left 1 left
  | directive c =>
    rw [Piece.stored, stored]
    split
    · exact Nat.zero_le _
    by_cases percent : c = '%'
    · subst percent
      exact Nat.le_add_left 1 left
    by_cases short : c = 'b'
    · subst short
      have three : need tm 'b' = 3 := rfl
      have four := List.length_take_le 3 (timerMonths tm.mon)
      change ((timerMonths tm.mon).take 3 ++ ['\x00']).length ≤ left + 1
      rw [List.length_append, List.length_singleton]
      omega
    · have fits := @length_written_le tm _ percent short
      omega
  | stray => exact Nat.zero_le _

theorem pieceLoop_le {max : Nat} {tm : Tm} (ps : List Piece) {s : CString}
    (room : s.length ≤ max) (behind : .stray ∉ ps) :
    ∃ s', pieceLoop max tm ps s = some s' ∧ s'.length ≤ max := by
  induction ps generalizing s with
  | nil => exact ⟨s, rfl, room⟩
  | cons p ps ih =>
    by_cases full : max ≤ s.length
    · exact ⟨s, pieceLoop_of_full _ full, room⟩
    · have places : s.length + (max - s.length - 1) + 1 = max := by omega
      have bounded := @length_stored_le tm (max - s.length - 1) p
      rw [pieceLoop_cons ps places (List.ne_of_not_mem_cons behind).symm]
      exact ih (by rw [List.length_append]; omega) (List.not_mem_of_not_mem_cons behind)

/-- Whatever is left out or wrong, nothing is written behind a buffer that has a size, unless
the format ends within a directive. -/
theorem timerStrftime_bounded {max : Nat} (format : CString) (tm : Tm) (positive : 0 < max)
    (whole : .stray ∉ pieces format) :
    ∃ s, timerStrftime max format tm = some (s ++ ['\x00']) ∧ s.length < max := by
  obtain ⟨s, ended, -⟩ := @pieceLoop_le max tm (pieces format) [] (Nat.zero_le max) whole
  refine ⟨s.take (max - 1), ?_, by rw [List.length_take]; omega⟩
  have loop := strftimeLoop_source max tm format (pieces format) [] (List.prefix_refl _)
  rw [pieces_source, ended] at loop
  rw [timerStrftime, loop, Option.bind_some, if_neg (by omega)]

/-! ## Every format -/

/-- A format is expanded right exactly if there is a place for the terminator and the pieces
that the buffer has room for are right; then the whole format is, and no terminator is in the
middle. -/
theorem timerStrftime_iff (max : Nat) (format : CString) (tm : Tm) :
    (ExpandsRight max format tm ↔ 0 < max ∧ Meets tm (max - 1) (pieces format)) ∧
      (ExpandsRight max format tm →
        timerStrftime max format tm =
            some ((expand tm (pieces format)).take (max - 1) ++ ['\x00']) ∧
          ('\x00' ∉ format → '\x00' ∉ (expand tm (pieces format)).take (max - 1))) := by
  refine ⟨expandsRight_iff max format tm, fun right => ⟨?_, fun text listed => ?_⟩⟩
  · have whole := right (pieces format) (List.prefix_refl _)
    rwa [pieces_source] at whole
  · exact nul_not_mem_expand text (List.mem_of_mem_take listed)

/-- A tenth month. -/
def october : Tm where
  sec := 0
  min := 0
  hour := 0
  mday := 1
  mon := 9
  year := 100
  wday := 0

/-- The tenth month is called November. -/
theorem timerStrftime_october :
    timerStrftime 64 "%B".toList october = some ("November".toList ++ ['\x00']) ∧
      expand october (pieces "%B".toList) = "October".toList ∧
      ¬∀ (max : Nat) (format : CString) (tm : Tm),
        timerStrftime max format tm =
          some ((expand tm (pieces format)).take (max - 1) ++ ['\x00']) := by
  refine ⟨by decide, by decide, fun always => ?_⟩
  have wrong := always 64 "%B".toList october
  exact absurd wrong (by decide)

/-- The full name of a month needs room for itself and is wrong for two of the months; behind
text that fills the buffer nothing is asked of it. -/
example : Meets { october with mon := 2 } 5 (pieces "%B%B".toList) := by
  refine .inr ⟨.inr ⟨by decide, by decide⟩, .inr ⟨.inl ⟨by decide, by decide⟩, trivial⟩⟩

end TimeFormat

end Chaosircd
