import Chaosircd.MaskList
import Chaosircd.Wildcards
import Mathlib.Data.List.TakeWhile

/-!
# What the mask matcher decides

A mask stands for a pattern: `*` for any run of bytes, `?` for any byte, every
other byte for itself.  `str_match` keeps one point of return, the last `*` it came
to.  That is enough: what is between two stars can be taken as early as it occurs.
The answer is the right one as long as the 512 turns are not used up; when they
are, it is no.
-/

namespace Chaosircd

open Wildcards

/-! ## Bytes, texts and patterns -/

/-- The bytes before the terminator. -/
def beforeNul (s : CString) : CString :=
  s.takeWhile (· ≠ '\x00')

theorem nul_not_mem_beforeNul (s : CString) : '\x00' ∉ beforeNul s := by
  intro member
  simpa using List.mem_takeWhile_imp member

theorem beforeNul_eq_self {s : CString} (noNul : '\x00' ∉ s) : beforeNul s = s := by
  rw [beforeNul, List.takeWhile_eq_self_iff]
  intro c member
  rw [decide_eq_true_eq]
  rintro rfl
  exact noNul member

/-- What a byte of a mask stands for. -/
def maskToken (c : Char) : Token Char :=
  if c = '*' then .many else .one c

/-- The pattern a mask stands for. -/
def maskTokens (mask : CString) : List (Token Char) :=
  (beforeNul mask).map maskToken

/-- The bytes that a byte other than `*` in a mask stands for. -/
def Allows (c d : Char) : Prop :=
  c = '?' ∨ c = d

instance (c d : Char) : Decidable (Allows c d) :=
  inferInstanceAs (Decidable (_ ∨ _))

/-- The text fits the mask. -/
def MaskFits (str mask : CString) : Prop :=
  Fits Allows (maskTokens mask) (beforeNul str)

theorem byteAt_cons_succ (c : Char) (s : CString) (i : Nat) :
    byteAt (c :: s) (i + 1) = byteAt s i :=
  rfl

theorem beforeNul_cons {c : Char} (isByte : c ≠ '\x00') (s : CString) :
    beforeNul (c :: s) = c :: beforeNul s :=
  List.takeWhile_cons_of_pos (by simpa using isByte)

theorem beforeNul_nul_cons (s : CString) : beforeNul ('\x00' :: s) = [] :=
  List.takeWhile_cons_of_neg (by simp)

theorem eq_beforeNul_append {bytes : List Char} (ended : '\x00' ∈ bytes) :
    ∃ more, bytes = beforeNul bytes ++ '\x00' :: more := by
  induction bytes with
  | nil => cases ended
  | cons d bytes ih =>
      by_cases here : d = '\x00'
      · subst here
        exact ⟨bytes, by rw [beforeNul_nul_cons, List.nil_append]⟩
      · obtain ⟨more, same⟩ := ih ((List.mem_cons.mp ended).resolve_left (Ne.symm here))
        refine ⟨more, ?_⟩
        rw [beforeNul_cons here, List.cons_append, ← same]

theorem beforeNul_append (front more : List Char) :
    beforeNul (front ++ '\x00' :: more) = beforeNul front := by
  induction front with
  | nil => rw [List.nil_append, beforeNul_nul_cons, beforeNul_eq_self List.not_mem_nil]
  | cons d front ih =>
      by_cases here : d = '\x00'
      · subst here
        rw [List.cons_append, beforeNul_nul_cons, beforeNul_nul_cons]
      · rw [List.cons_append, beforeNul_cons here, beforeNul_cons here, ih]

theorem beforeNul_append_nul {line : CString} (noNul : '\x00' ∉ line) (behind : List Char) :
    beforeNul (line ++ '\x00' :: behind) = line := by
  rw [beforeNul_append, beforeNul_eq_self noNul]

theorem byteAt_length_beforeNul (s : CString) : byteAt s (beforeNul s).length = '\x00' := by
  induction s with
  | nil => rfl
  | cons c s induction =>
      by_cases isNul : c = '\x00'
      · rw [isNul, beforeNul_nul_cons]
        rfl
      · rw [beforeNul_cons isNul, List.length_cons, byteAt_cons_succ]
        exact induction

theorem beforeNul_drop {s : CString} {i : Nat} (inside : i < (beforeNul s).length) :
    (beforeNul s).drop i = byteAt s i :: (beforeNul s).drop (i + 1) ∧
      byteAt s i ≠ '\x00' := by
  induction s generalizing i with
  | nil => simp [beforeNul] at inside
  | cons c s induction =>
      by_cases isNul : c = '\x00'
      · rw [isNul, beforeNul_nul_cons] at inside
        simp at inside
      · rw [beforeNul_cons isNul] at inside ⊢
        cases i with
        | zero => exact ⟨rfl, isNul⟩
        | succ i =>
            rw [List.length_cons] at inside
            exact induction (by omega)

theorem byteAt_eq_nul_iff {s : CString} {i : Nat} (inside : i ≤ (beforeNul s).length) :
    byteAt s i = '\x00' ↔ i = (beforeNul s).length := by
  constructor
  · intro isNul
    by_contra notEnd
    have before : i < (beforeNul s).length := by omega
    exact (beforeNul_drop before).2 isNul
  · intro isEnd
    rw [isEnd, byteAt_length_beforeNul]

theorem lt_of_byteAt_ne_nul {s : CString} {i : Nat} (inside : i ≤ (beforeNul s).length)
    (isByte : byteAt s i ≠ '\x00') : i < (beforeNul s).length := by
  have notEnd := mt (byteAt_eq_nul_iff inside).mpr isByte
  omega

/-- A walk over bytes does not come past the terminator. -/
theorem le_of_bytes {s : CString} {i j : Nat} (inside : i ≤ (beforeNul s).length)
    (order : i ≤ j) (bytes : ∀ k, i ≤ k → k < j → byteAt s k ≠ '\x00') :
    j ≤ (beforeNul s).length := by
  induction j, order using Nat.le_induction with
  | base => exact inside
  | succ j order induction =>
      have before := induction fun k least most => bytes k least (by omega)
      exact lt_of_byteAt_ne_nul before (bytes j order (by omega))

theorem maskTokens_drop {mask : CString} {m : Nat} (inside : m < (beforeNul mask).length) :
    (maskTokens mask).drop m = maskToken (byteAt mask m) :: (maskTokens mask).drop (m + 1) := by
  rw [maskTokens, ← List.map_drop, (beforeNul_drop inside).1, List.map_cons, List.map_drop]

/-! ## Positions -/

/-- The text from one position on fits the mask from another. -/
def FitsFrom (str mask : CString) (m n : Nat) : Prop :=
  Fits Allows ((maskTokens mask).drop m) ((beforeNul str).drop n)

section FitsFrom

variable {str mask : CString} {m n : Nat}

theorem fitsFrom_zero : FitsFrom str mask 0 0 ↔ MaskFits str mask :=
  Iff.rfl

/-- At the end of the mask the text has to be at its end. -/
theorem fitsFrom_nul (inside : m ≤ (beforeNul mask).length) (isNul : byteAt mask m = '\x00') :
    FitsFrom str mask m n ↔ (beforeNul str).length ≤ n := by
  have isEnd := (byteAt_eq_nul_iff inside).mp isNul
  have noTokens : (maskTokens mask).drop m = [] := by
    rw [List.drop_eq_nil_iff, maskTokens, List.length_map]
    omega
  rw [FitsFrom, noTokens, fits_nil, List.drop_eq_nil_iff]

/-- A byte other than `*` takes one byte of the text. -/
theorem fitsFrom_byte (inside : m ≤ (beforeNul mask).length) (isByte : byteAt mask m ≠ '\x00')
    (noStar : byteAt mask m ≠ '*') :
    FitsFrom str mask m n ↔
      n < (beforeNul str).length ∧ Allows (byteAt mask m) (byteAt str n) ∧
        FitsFrom str mask (m + 1) (n + 1) := by
  have tokens := maskTokens_drop (lt_of_byteAt_ne_nul inside isByte)
  rw [maskToken, if_neg noStar] at tokens
  rw [FitsFrom, tokens]
  by_cases before : n < (beforeNul str).length
  · rw [(beforeNul_drop before).1, fits_one_cons]
    exact (and_iff_right before).symm
  · have noText : (beforeNul str).drop n = [] := List.drop_eq_nil_of_le (by omega)
    rw [noText]
    constructor
    · intro fits
      exact fits.elim
    · intro fits
      exact (before fits.1).elim

/-- A `*` takes any number of bytes. -/
theorem fitsFrom_star (inside : m ≤ (beforeNul mask).length) (isStar : byteAt mask m = '*') :
    FitsFrom str mask m n ↔ ∃ k, n ≤ k ∧ FitsFrom str mask (m + 1) k := by
  have isByte : byteAt mask m ≠ '\x00' := by
    rw [isStar]
    decide
  have tokens := maskTokens_drop (lt_of_byteAt_ne_nul inside isByte)
  rw [maskToken, if_pos isStar] at tokens
  rw [FitsFrom, tokens, fits_many]
  constructor
  · intro ⟨rest, suffix, fits⟩
    have isDrop := List.suffix_iff_eq_drop.mp suffix
    rw [List.drop_drop] at isDrop
    rw [isDrop] at fits
    exact ⟨_, Nat.le_add_right n _, fits⟩
  · intro ⟨k, order, fits⟩
    have suffix : (beforeNul str).drop k <:+ (beforeNul str).drop n :=
      List.drop_suffix_drop_left _ order
    exact ⟨_, suffix, fits⟩

/-- A run of stars takes any number of bytes. -/
theorem fitsFrom_stars {last : Nat} (inside : m ≤ (beforeNul mask).length) (order : m < last)
    (stars : ∀ i, m ≤ i → i < last → byteAt mask i = '*') :
    FitsFrom str mask m n ↔ ∃ k, n ≤ k ∧ FitsFrom str mask last k := by
  induction last, order using Nat.le_induction with
  | base => exact fitsFrom_star inside (stars m (by omega) (by omega))
  | succ last order induction =>
      rw [induction fun i least most => stars i least (by omega)]
      have isStar : byteAt mask last = '*' := stars last (by omega) (by omega)
      have lastInside : last ≤ (beforeNul mask).length := by
        refine le_of_bytes inside (by omega) fun k least most => ?_
        rw [stars k least (by omega)]
        decide
      constructor
      · intro ⟨k, atLeast, fits⟩
        obtain ⟨j, further, fits⟩ := (fitsFrom_star lastInside isStar).mp fits
        exact ⟨j, by omega, fits⟩
      · intro ⟨k, atLeast, fits⟩
        exact ⟨k, atLeast, (fitsFrom_star lastInside isStar).mpr ⟨k, le_refl k, fits⟩⟩

/-- Where the mask has no star, as many bytes of the text are taken. -/
theorem FitsFrom.skip {last : Nat} (inside : last ≤ (beforeNul mask).length) (order : m ≤ last)
    (plain : ∀ i, m ≤ i → i < last → byteAt mask i ≠ '*') (fits : FitsFrom str mask m n) :
    FitsFrom str mask last (n + (last - m)) := by
  induction last, order using Nat.le_induction with
  | base =>
      rw [Nat.sub_self]
      exact fits
  | succ last order induction =>
      have fits := induction (by omega) fun i least most => plain i least (by omega)
      have isByte := (beforeNul_drop (s := mask) (i := last) (by omega)).2
      have step := (fitsFrom_byte (by omega) isByte (plain last order (by omega))).mp fits
      have position : n + (last + 1 - m) = n + (last - m) + 1 := by
        omega
      rw [position]
      exact step.2.2

/-- Where the mask has only `?`, as many bytes of the text are taken, whatever they are. -/
theorem FitsFrom.unskip {last : Nat} (inside : last ≤ (beforeNul mask).length)
    (order : m ≤ last) (any : ∀ i, m ≤ i → i < last → byteAt mask i = '?')
    (room : n + (last - m) ≤ (beforeNul str).length)
    (fits : FitsFrom str mask last (n + (last - m))) : FitsFrom str mask m n := by
  induction last, order using Nat.le_induction with
  | base =>
      rw [Nat.sub_self] at fits
      exact fits
  | succ last order induction =>
      have isAny := any last order (by omega)
      have isByte := (beforeNul_drop (s := mask) (i := last) (by omega)).2
      have noStar : byteAt mask last ≠ '*' := by
        rw [isAny]
        decide
      have position : n + (last + 1 - m) = n + (last - m) + 1 := by
        omega
      rw [position] at fits room
      refine induction (by omega) (fun i least most => any i least (by omega)) (by omega) ?_
      exact (fitsFrom_byte (by omega) isByte noStar).mpr ⟨by omega, .inl isAny, fits⟩

end FitsFrom

/-! ## The pointers of the loop -/

/-- The walk back ends at a star behind which the mask has only `?`. -/
theorem exists_star_of_backToStar {mask : CString} {m : Nat} (found : backToStar mask m = true) :
    ∃ i < m, byteAt mask i = '*' ∧ ∀ j, i < j → j < m → byteAt mask j = '?' := by
  induction m with
  | zero => exact nomatch found
  | succ m induction =>
      rw [backToStar] at found
      split at found
      case isTrue => exact nomatch found
      case isFalse =>
        split at found
        case isTrue isAny =>
          obtain ⟨i, before, isStar, any⟩ := induction found
          refine ⟨i, by omega, isStar, fun j least most => ?_⟩
          rcases Nat.lt_succ_iff_lt_or_eq.mp most with inner | isLast
          · exact any j least inner
          · rw [isLast]
            exact isAny
        case isFalse =>
          exact ⟨m, by omega, of_decide_eq_true found, fun j least most => by omega⟩


theorem byteAt_drop (s : CString) (m i : Nat) : byteAt (s.drop m) i = byteAt s (m + i) := by
  rw [byteAt, byteAt, List.getD_eq_getElem?_getD, List.getD_eq_getElem?_getD,
    List.getElem?_drop]

theorem byteAt_takeWhile_star (s : CString) :
    byteAt s (s.takeWhile (· = '*')).length ≠ '*' ∧
      ∀ i < (s.takeWhile (· = '*')).length, byteAt s i = '*' := by
  induction s with
  | nil => decide
  | cons c s induction =>
      by_cases isStar : c = '*'
      · rw [List.takeWhile_cons_of_pos (by simpa using isStar), List.length_cons,
          byteAt_cons_succ]
        refine ⟨induction.1, fun i before => ?_⟩
        cases i with
        | zero => exact isStar
        | succ i => exact induction.2 i (by omega)
      · rw [List.takeWhile_cons_of_neg (by simpa using isStar)]
        exact ⟨isStar, fun i before => absurd before (Nat.not_lt_zero i)⟩

theorem le_skipStars (mask : CString) (m : Nat) : m ≤ skipStars mask m :=
  Nat.le_add_right m _

theorem byteAt_skipStars (mask : CString) (m : Nat) : byteAt mask (skipStars mask m) ≠ '*' := by
  rw [skipStars, ← byteAt_drop]
  exact (byteAt_takeWhile_star _).1

theorem byteAt_of_lt_skipStars {mask : CString} {m i : Nat} (least : m ≤ i)
    (most : i < skipStars mask m) : byteAt mask i = '*' := by
  obtain ⟨step, rfl⟩ := Nat.exists_eq_add_of_le least
  rw [← byteAt_drop]
  refine (byteAt_takeWhile_star _).2 step ?_
  rw [skipStars] at most
  omega

theorem lt_skipStars {mask : CString} {m : Nat} (isStar : byteAt mask m = '*') :
    m < skipStars mask m := by
  have least := le_skipStars mask m
  have isPlain := byteAt_skipStars mask m
  rcases Nat.lt_or_eq_of_le least with before | same
  · exact before
  · rw [← same] at isPlain
    exact absurd isStar isPlain

theorem skipStars_le {mask : CString} {m : Nat} (inside : m ≤ (beforeNul mask).length) :
    skipStars mask m ≤ (beforeNul mask).length := by
  refine le_of_bytes inside (le_skipStars mask m) fun k least most => ?_
  rw [byteAt_of_lt_skipStars least most]
  decide

theorem skipStars_eq_self {mask : CString} {m : Nat} (noStar : byteAt mask m ≠ '*') :
    skipStars mask m = m := by
  by_contra moved
  have least := le_skipStars mask m
  exact noStar (byteAt_of_lt_skipStars (le_refl m) (by omega))

/-- No star is left under the mask pointer. -/
theorem byteAt_takeStars (mask : CString) (c : MatchCursor) :
    byteAt mask (takeStars mask c).m ≠ '*' := by
  rw [takeStars]
  split
  case isTrue => exact byteAt_skipStars mask c.m
  case isFalse noStar => exact noStar

namespace MatchCursor

/-- What the loop of `str_match` keeps: between the point of return and the pointers the
mask has no star and the bytes agree, and the text fits when the mask behind the last star
fits it from the point of return on. -/
structure Tracks (str mask : CString) (c : MatchCursor) : Prop where
  m_le : c.m ≤ (beforeNul mask).length
  n_le : c.n ≤ (beforeNul str).length
  ma_le : c.ma ≤ c.m
  level : c.n + c.ma = c.na + c.m
  plain : ∀ i, c.ma ≤ i → i < c.m → byteAt mask i ≠ '*'
  agree : FitsFrom str mask c.m c.n → FitsFrom str mask c.ma c.na
  tame : c.wild = false → c.ma = 0 ∧ c.na = 0
  starred : c.wild = true → 0 < c.ma ∧ byteAt mask (c.ma - 1) = '*'
  past : c.wild = true → byteAt mask c.ma ≠ '*'
  whole : MaskFits str mask ↔
    ∃ k, c.na ≤ k ∧ (c.wild = true ∨ k = c.na) ∧ FitsFrom str mask c.ma k

theorem tracks_start (str mask : CString) : Tracks str mask ⟨0, 0, 0, 0, false⟩ where
  m_le := Nat.zero_le _
  n_le := Nat.zero_le _
  ma_le := le_refl 0
  level := rfl
  plain i least most := absurd most (Nat.not_lt_zero i)
  agree := id
  tame _ := ⟨rfl, rfl⟩
  starred isWild := nomatch isWild
  past isWild := nomatch isWild
  whole := by
    constructor
    · intro fits
      exact ⟨0, le_refl 0, .inr rfl, fits⟩
    · intro ⟨k, _, here, fits⟩
      rcases here with isWild | isStart
      · exact nomatch isWild
      · rw [isStart] at fits
        exact fits

namespace Tracks

variable {str mask : CString} {c : MatchCursor}

/-- What fits from the pointers on fits. -/
theorem fits_of_here (tracks : c.Tracks str mask) (here : FitsFrom str mask c.m c.n) :
    MaskFits str mask :=
  tracks.whole.mpr ⟨c.na, le_refl _, .inr rfl, tracks.agree here⟩

/-- What fits does so from the mask pointer on, at the text pointer or behind it. -/
theorem here_of_fits (tracks : c.Tracks str mask) (fits : MaskFits str mask) :
    ∃ k, c.n ≤ k ∧ (c.wild = true ∨ k = c.n) ∧ FitsFrom str mask c.m k := by
  obtain ⟨k, least, here, fits⟩ := tracks.whole.mp fits
  have level := tracks.level
  have order := tracks.ma_le
  have skipped := fits.skip tracks.m_le order tracks.plain
  refine ⟨k + (c.m - c.ma), by omega, ?_, skipped⟩
  rcases here with isWild | isStart
  · exact .inl isWild
  · right
    omega

/-- Without a star to go back to, the pointers decide. -/
theorem not_fits_of_tame (tracks : c.Tracks str mask) (isTame : ¬ c.wild = true)
    (fails : ¬ FitsFrom str mask c.m c.n) : ¬ MaskFits str mask := by
  intro fits
  obtain ⟨k, _, here, behind⟩ := tracks.here_of_fits fits
  rcases here with isWild | isHere
  · exact isTame isWild
  · rw [isHere] at behind
    exact fails behind

/-- The stars under the mask pointer. -/
theorem takeStars (tracks : c.Tracks str mask) : (takeStars mask c).Tracks str mask := by
  rw [Chaosircd.takeStars]
  split
  case isFalse => exact tracks
  case isTrue isStar =>
    have stars : ∀ k, FitsFrom str mask c.m k ↔
        ∃ j, k ≤ j ∧ FitsFrom str mask (skipStars mask c.m) j := fun k =>
      fitsFrom_stars tracks.m_le (lt_skipStars isStar) fun i least most =>
        byteAt_of_lt_skipStars least most
    have further := lt_skipStars isStar
    have lastStar : byteAt mask (skipStars mask c.m - 1) = '*' :=
      byteAt_of_lt_skipStars (m := c.m) (by omega) (by omega)
    exact {
      m_le := skipStars_le tracks.m_le
      n_le := tracks.n_le
      ma_le := le_refl _
      level := rfl
      plain := fun i least most => absurd most (Nat.not_lt.mpr least)
      agree := id
      tame := fun isTame => nomatch isTame
      starred := fun _ => ⟨Nat.zero_lt_of_lt further, lastStar⟩
      past := fun _ => byteAt_skipStars mask c.m
      whole := by
        constructor
        · intro fits
          obtain ⟨k, least, _, here⟩ := tracks.here_of_fits fits
          obtain ⟨j, order, behind⟩ := (stars k).mp here
          exact ⟨j, least.trans order, .inl rfl, behind⟩
        · intro ⟨k, least, _, behind⟩
          exact tracks.fits_of_here ((stars c.n).mpr ⟨k, least, behind⟩) }

/-- Back to the last star where the bytes do not go on to fit. -/
theorem retry (tracks : c.Tracks str mask) (isWild : c.wild = true)
    (inside : c.n < (beforeNul str).length) (fails : ¬ FitsFrom str mask c.m c.n) :
    c.retry.Tracks str mask where
  m_le := tracks.ma_le.trans tracks.m_le
  n_le := by
    have level := tracks.level
    have order := tracks.ma_le
    simp only [MatchCursor.retry]
    omega
  ma_le := le_refl _
  level := rfl
  plain i least most := absurd most (Nat.not_lt.mpr least)
  agree := id
  tame isTame := by
    simp only [MatchCursor.retry] at isTame
    rw [isTame] at isWild
    exact nomatch isWild
  starred _ := tracks.starred isWild
  past _ := tracks.past isWild
  whole := by
    rw [tracks.whole]
    constructor
    · intro ⟨k, least, _, fits⟩
      have later : k ≠ c.na := by
        intro isReturn
        have skipped := fits.skip tracks.m_le tracks.ma_le tracks.plain
        have level := tracks.level
        have order := tracks.ma_le
        have position : k + (c.m - c.ma) = c.n := by
          omega
        rw [position] at skipped
        exact fails skipped
      exact ⟨k, by simp only [MatchCursor.retry]; omega, .inl isWild, fits⟩
    · intro ⟨k, least, _, fits⟩
      exact ⟨k, by simp only [MatchCursor.retry] at least; omega, .inl isWild, fits⟩

/-- The two bytes under the pointers agree. -/
theorem advance (tracks : c.Tracks str mask) (mByte : byteAt mask c.m ≠ '\x00')
    (nByte : byteAt str c.n ≠ '\x00') (noStar : byteAt mask c.m ≠ '*')
    (allows : Allows (byteAt mask c.m) (byteAt str c.n)) :
    ({ c with m := c.m + 1, n := c.n + 1 } : MatchCursor).Tracks str mask where
  m_le := lt_of_byteAt_ne_nul tracks.m_le mByte
  n_le := lt_of_byteAt_ne_nul tracks.n_le nByte
  ma_le := Nat.le_succ_of_le tracks.ma_le
  level := by
    have level := tracks.level
    dsimp only
    omega
  plain i least most := by
    rcases Nat.lt_succ_iff_lt_or_eq.mp most with before | isHere
    · exact tracks.plain i least before
    · rw [isHere]
      exact noStar
  agree behind :=
    tracks.agree ((fitsFrom_byte tracks.m_le mByte noStar).mpr
      ⟨lt_of_byteAt_ne_nul tracks.n_le nByte, allows, behind⟩)
  tame := tracks.tame
  starred := tracks.starred
  past := tracks.past
  whole := tracks.whole

/-- The comparison at the end of a turn. -/
theorem matchByte (tracks : c.Tracks str mask) (noStar : byteAt mask c.m ≠ '*')
    (ended : byteAt str c.n = '\x00' → byteAt mask c.m = '\x00') :
    match matchByte str mask c with
    | .inl answer => answer = true ↔ MaskFits str mask
    | .inr next => next.Tracks str mask := by
  rw [Chaosircd.matchByte]
  by_cases differ : byteAt mask c.m ≠ byteAt str c.n ∧ byteAt mask c.m ≠ '?'
  · have nByte : byteAt str c.n ≠ '\x00' := by
      intro isNul
      exact differ.1 ((ended isNul).trans isNul.symm)
    have inside := lt_of_byteAt_ne_nul tracks.n_le nByte
    have fails : ¬ FitsFrom str mask c.m c.n := by
      intro here
      by_cases mByte : byteAt mask c.m = '\x00'
      · have atEnd := (fitsFrom_nul tracks.m_le mByte).mp here
        omega
      · obtain ⟨_, allows, _⟩ := (fitsFrom_byte tracks.m_le mByte noStar).mp here
        rcases allows with isAny | same
        · exact differ.2 isAny
        · exact differ.1 same
    rw [if_pos differ]
    by_cases isWild : c.wild = true
    · rw [if_pos isWild]
      exact tracks.retry isWild inside fails
    · rw [if_neg isWild]
      simpa using tracks.not_fits_of_tame isWild fails
  · rw [if_neg differ]
    by_cases mByte : byteAt mask c.m = '\x00'
    · have nNul : byteAt str c.n = '\x00' := by
        by_contra nByte
        exact differ ⟨by rw [mByte]; exact Ne.symm nByte, by rw [mByte]; decide⟩
      rw [if_pos mByte, if_pos nNul]
      exact tracks
    · have nByte := mt ended mByte
      rw [if_neg mByte, if_neg nByte]
      refine tracks.advance mByte nByte noStar ?_
      by_contra apart
      rw [Allows, not_or] at apart
      exact differ ⟨apart.2, apart.1⟩

/-- At the end of the mask, only `?` behind the last star take whatever is left. -/
theorem fits_of_backToStar (tracks : c.Tracks str mask) (mEnd : byteAt mask c.m = '\x00')
    (found : backToStar mask c.m = true) : MaskFits str mask := by
  obtain ⟨i, before, isStar, any⟩ := exists_star_of_backToStar found
  have level := tracks.level
  have order := tracks.ma_le
  have nInside := tracks.n_le
  have ahead : i < c.ma := by
    by_contra behind
    exact tracks.plain i (by omega) before isStar
  have isWild : c.wild = true := by
    by_contra notWild
    have start := (tracks.tame (Bool.eq_false_of_not_eq_true notWild)).1
    omega
  have isLast : i + 1 = c.ma := by
    by_contra notLast
    have isAny := any (c.ma - 1) (by omega) (by omega)
    rw [(tracks.starred isWild).2] at isAny
    exact absurd isAny (by decide)
  have rest : FitsFrom str mask c.m ((beforeNul str).length) :=
    (fitsFrom_nul tracks.m_le mEnd).mpr (le_refl _)
  have position : (beforeNul str).length =
      (beforeNul str).length - (c.m - c.ma) + (c.m - c.ma) := by
    omega
  rw [position] at rest
  have taken := rest.unskip tracks.m_le order (fun j least most => any j (by omega) most)
    (by omega)
  exact tracks.whole.mpr ⟨_, by omega, .inl isWild, taken⟩

theorem not_fits_of_maskEnd (tracks : c.Tracks str mask) (mEnd : byteAt mask c.m = '\x00')
    (nByte : byteAt str c.n ≠ '\x00') : ¬ FitsFrom str mask c.m c.n := by
  have inside := lt_of_byteAt_ne_nul tracks.n_le nByte
  rw [fitsFrom_nul tracks.m_le mEnd]
  omega

/-- Back from the end of the mask: the text can only be at its end there when the star ends
the mask. -/
theorem retry_of_maskEnd (tracks : c.Tracks str mask) (isWild : c.wild = true)
    (mEnd : byteAt mask c.m = '\x00') (nByte : byteAt str c.n ≠ '\x00') :
    c.retry.Tracks str mask ∧
      (byteAt str c.retry.n = '\x00' → byteAt mask c.retry.m = '\x00') := by
  have inside := lt_of_byteAt_ne_nul tracks.n_le nByte
  have retried := tracks.retry isWild inside (tracks.not_fits_of_maskEnd mEnd nByte)
  refine ⟨retried, fun retryEnd => ?_⟩
  have level := tracks.level
  have order := tracks.ma_le
  have atEnd := (byteAt_eq_nul_iff retried.n_le).mp retryEnd
  simp only [MatchCursor.retry] at atEnd ⊢
  have isLast : c.ma = c.m := by
    omega
  rw [isLast]
  exact mEnd

/-- One turn of the loop keeps track, and its answer is the right one. -/
theorem matchTurn (tracks : c.Tracks str mask) :
    match matchTurn str mask c with
    | .inl answer => answer = true ↔ MaskFits str mask
    | .inr next => next.Tracks str mask := by
  have taken := tracks.takeStars
  have noStar := byteAt_takeStars mask c
  rw [Chaosircd.matchTurn]
  generalize Chaosircd.takeStars mask c = c at taken noStar
  by_cases mEnd : byteAt mask c.m = '\x00'
  · rw [if_pos mEnd]
    by_cases nEnd : byteAt str c.n = '\x00'
    · rw [if_pos nEnd]
      have here := (fitsFrom_nul taken.m_le mEnd).mpr
        ((byteAt_eq_nul_iff taken.n_le).mp nEnd).ge
      simpa using taken.fits_of_here here
    · rw [if_neg nEnd]
      by_cases found : backToStar mask c.m = true
      · rw [if_pos found]
        simpa using taken.fits_of_backToStar mEnd found
      · rw [if_neg found]
        by_cases isWild : c.wild = true
        · rw [if_pos isWild]
          obtain ⟨retried, ended⟩ := taken.retry_of_maskEnd isWild mEnd nEnd
          exact retried.matchByte (taken.past isWild) ended
        · rw [if_neg isWild]
          simpa using taken.not_fits_of_tame isWild (taken.not_fits_of_maskEnd mEnd nEnd)
  · rw [if_neg mEnd]
    by_cases nEnd : byteAt str c.n = '\x00'
    · rw [if_pos nEnd, skipStars_eq_self noStar]
      have atEnd := (byteAt_eq_nul_iff taken.n_le).mp nEnd
      have notFits : ¬ MaskFits str mask := by
        intro fits
        obtain ⟨k, least, _, here⟩ := taken.here_of_fits fits
        have before := ((fitsFrom_byte taken.m_le mEnd noStar).mp here).1
        omega
      simpa [mEnd] using notFits
    · rw [if_neg nEnd]
      exact taken.matchByte noStar fun ended => absurd ended nEnd

end Tracks

end MatchCursor

/-! ## The answer -/

/-- The loop comes to an answer before its turns are used up. -/
def Answers (str mask : CString) : Nat → MatchCursor → Prop
  | 0, _ => False
  | calls + 1, c =>
    match matchTurn str mask c with
    | .inl _ => True
    | .inr c => Answers str mask calls c

/-- The turns are taken one by one. -/
def decideAnswers (str mask : CString) : ∀ calls c, Decidable (Answers str mask calls c)
  | 0, _ => .isFalse id
  | calls + 1, c =>
    match turn : matchTurn str mask c with
    | .inl _ => .isTrue (by rw [Answers, turn]; trivial)
    | .inr next =>
      @decidable_of_iff _ (Answers str mask calls next) (by rw [Answers, turn])
        (decideAnswers str mask calls next)

/-- `str_match` does not give up. -/
def Decides (str mask : CString) : Prop :=
  Answers str mask 512 ⟨0, 0, 0, 0, false⟩

instance (str mask : CString) : Decidable (Decides str mask) :=
  decideAnswers str mask 512 ⟨0, 0, 0, 0, false⟩

/-- A positive answer is right. -/
theorem fits_of_matchTurns {str mask : CString} {calls : Nat} {c : MatchCursor}
    (tracks : c.Tracks str mask) (answer : matchTurns str mask calls c = true) :
    MaskFits str mask := by
  induction calls generalizing c with
  | zero => exact nomatch answer
  | succ calls induction =>
      have turn := tracks.matchTurn
      rw [matchTurns] at answer
      cases step : matchTurn str mask c with
      | inl found =>
          rw [step] at turn answer
          exact turn.mp answer
      | inr next =>
          rw [step] at turn answer
          exact induction turn answer

/-- An answer in time is right. -/
theorem matchTurns_iff {str mask : CString} {calls : Nat} {c : MatchCursor}
    (tracks : c.Tracks str mask) (answers : Answers str mask calls c) :
    matchTurns str mask calls c = true ↔ MaskFits str mask := by
  induction calls generalizing c with
  | zero => exact answers.elim
  | succ calls induction =>
      have turn := tracks.matchTurn
      rw [Answers] at answers
      rw [matchTurns]
      cases step : matchTurn str mask c with
      | inl found =>
          rw [step] at turn
          exact turn
      | inr next =>
          rw [step] at turn answers
          exact induction turn answers

theorem MaskFits.of_strMatch {str mask : CString} (answer : strMatch str mask = true) :
    MaskFits str mask :=
  fits_of_matchTurns (MatchCursor.tracks_start str mask) answer

theorem strMatch_iff {str mask : CString} (decides : Decides str mask) :
    strMatch str mask = true ↔ MaskFits str mask :=
  matchTurns_iff (MatchCursor.tracks_start str mask) decides

/-! ## Enough turns -/

/-- The turns that are left at most: each takes a byte of the mask or moves the point of
return on. -/
def turnsLeft (str mask : CString) (c : MatchCursor) : Nat :=
  ((beforeNul str).length - c.na) * ((beforeNul mask).length + 1) +
    ((beforeNul mask).length - (c.m - c.ma))

namespace MatchCursor.Tracks

variable {str mask : CString} {c : MatchCursor}

theorem turnsLeft_takeStars (tracks : c.Tracks str mask) :
    turnsLeft str mask (Chaosircd.takeStars mask c) ≤ turnsLeft str mask c := by
  rw [Chaosircd.takeStars]
  split
  case isFalse => exact le_refl _
  case isTrue =>
    have level := tracks.level
    have order := tracks.ma_le
    have mInside := tracks.m_le
    have nInside := tracks.n_le
    obtain ⟨taken, isTaken⟩ := Nat.exists_eq_add_of_le order
    have least : taken ≤ taken * ((beforeNul mask).length + 1) :=
      Nat.le_mul_of_pos_right taken (Nat.succ_pos _)
    have split : (beforeNul str).length - c.na = (beforeNul str).length - c.n + taken := by
      omega
    simp only [turnsLeft, split, Nat.add_mul]
    omega

theorem turnsLeft_retry (tracks : c.Tracks str mask) (inside : c.n < (beforeNul str).length) :
    turnsLeft str mask c.retry < turnsLeft str mask c := by
  have level := tracks.level
  have order := tracks.ma_le
  have mInside := tracks.m_le
  have split : (beforeNul str).length - c.na = (beforeNul str).length - (c.na + 1) + 1 := by
    omega
  simp only [turnsLeft, MatchCursor.retry, split, Nat.add_mul]
  omega

theorem turnsLeft_matchByte (tracks : c.Tracks str mask)
    (ended : byteAt str c.n = '\x00' → byteAt mask c.m = '\x00') {next : MatchCursor}
    (step : Chaosircd.matchByte str mask c = .inr next) :
    turnsLeft str mask next ≤ turnsLeft str mask c ∧
      (byteAt str c.n ≠ '\x00' → byteAt mask c.m ≠ '\x00' →
        turnsLeft str mask next < turnsLeft str mask c) := by
  rw [Chaosircd.matchByte] at step
  split at step
  case isTrue differ =>
    have nByte : byteAt str c.n ≠ '\x00' := fun isNul =>
      differ.1 ((ended isNul).trans isNul.symm)
    split at step
    · have fewer := tracks.turnsLeft_retry (lt_of_byteAt_ne_nul tracks.n_le nByte)
      rw [Sum.inr.injEq] at step
      rw [← step]
      exact ⟨fewer.le, fun _ _ => fewer⟩
    · exact nomatch step
  case isFalse =>
    rw [Sum.inr.injEq] at step
    have order := tracks.ma_le
    by_cases mByte : byteAt mask c.m = '\x00'
    · rw [if_pos mByte] at step
      rw [← step]
      exact ⟨le_refl _, fun _ notEnd => absurd mByte notEnd⟩
    · have inside := lt_of_byteAt_ne_nul tracks.m_le mByte
      rw [if_neg mByte] at step
      have fewer : turnsLeft str mask next < turnsLeft str mask c := by
        rw [← step]
        simp only [turnsLeft]
        omega
      exact ⟨fewer.le, fun _ _ => fewer⟩

theorem turnsLeft_matchTurn (tracks : c.Tracks str mask) {next : MatchCursor}
    (step : Chaosircd.matchTurn str mask c = .inr next) :
    turnsLeft str mask next < turnsLeft str mask c := by
  have taken := tracks.takeStars
  have fewer := tracks.turnsLeft_takeStars
  rw [Chaosircd.matchTurn] at step
  generalize Chaosircd.takeStars mask c = taker at taken fewer step
  split at step
  case isTrue mEnd =>
    split at step
    case isTrue => exact nomatch step
    case isFalse nByte =>
      split at step
      case isTrue => exact nomatch step
      case isFalse =>
        split at step
        case isFalse => exact nomatch step
        case isTrue isWild =>
          obtain ⟨retried, ended⟩ := taken.retry_of_maskEnd isWild mEnd nByte
          have back := taken.turnsLeft_retry (lt_of_byteAt_ne_nul taken.n_le nByte)
          have onward := (retried.turnsLeft_matchByte ended step).1
          omega
  case isFalse mByte =>
    split at step
    case isTrue => exact nomatch step
    case isFalse nByte =>
      have onward := (taken.turnsLeft_matchByte (fun isNul => absurd isNul nByte) step).2
        nByte mByte
      omega

end MatchCursor.Tracks

theorem answers_of_turnsLeft {str mask : CString} {calls : Nat} {c : MatchCursor}
    (tracks : c.Tracks str mask) (enough : turnsLeft str mask c < calls) :
    Answers str mask calls c := by
  induction calls generalizing c with
  | zero => exact absurd enough (Nat.not_lt_zero _)
  | succ calls induction =>
      have turn := tracks.matchTurn
      rw [Answers]
      cases step : matchTurn str mask c with
      | inl => trivial
      | inr next =>
          rw [step] at turn
          have fewer := tracks.turnsLeft_matchTurn step
          exact induction turn (by omega)

/-- A mask and a text that are short enough together are decided. -/
theorem decides_of_length {str mask : CString}
    (short : (str.length + 1) * (mask.length + 1) ≤ 512) : Decides str mask := by
  refine answers_of_turnsLeft (MatchCursor.tracks_start str mask) ?_
  have strShort : (beforeNul str).length ≤ str.length := (List.takeWhile_sublist _).length_le
  have maskShort : (beforeNul mask).length ≤ mask.length := (List.takeWhile_sublist _).length_le
  have product : ((beforeNul str).length + 1) * ((beforeNul mask).length + 1) ≤ 512 :=
    (Nat.mul_le_mul (Nat.succ_le_succ strShort) (Nat.succ_le_succ maskShort)).trans short
  rw [Nat.add_mul] at product
  simp only [turnsLeft, Nat.sub_zero]
  omega

/-! ## Parts and comparison of masks -/

theorem maskTokens_append {s t : CString} (bytes : ∀ c ∈ s, c ≠ '\x00') :
    maskTokens (s ++ t) = maskTokens s ++ maskTokens t := by
  have ahead : ∀ u, beforeNul (s ++ u) = s ++ beforeNul u := fun u =>
    List.takeWhile_append_of_pos fun c member => by simpa using bytes c member
  have alone := ahead []
  rw [List.append_nil] at alone
  rw [maskTokens, maskTokens, maskTokens, ahead, alone, List.map_append]
  simp [beforeNul]

theorem maskTokens_cons {c : Char} (isByte : c ≠ '\x00') (noStar : c ≠ '*') (s : CString) :
    maskTokens (c :: s) = .one c :: maskTokens s := by
  rw [maskTokens, beforeNul_cons isByte, List.map_cons, maskToken, if_neg noStar, maskTokens]

theorem mem_of_one_mem_maskTokens {c : Char} {s : CString} (token : .one c ∈ maskTokens s) :
    c ∈ s := by
  rw [maskTokens, List.mem_map] at token
  obtain ⟨d, member, isToken⟩ := token
  rw [maskToken] at isToken
  split at isToken
  · exact nomatch isToken
  · rw [Token.one.injEq] at isToken
    rw [← isToken]
    exact (List.takeWhile_sublist _).mem member

/-- What a mask covers stands for fewer texts. -/
theorem MaskFits.of_covers {general special text : CString}
    (covers : Covers Allows (maskTokens general) (maskTokens special))
    (fits : MaskFits text special) : MaskFits text general := by
  refine Covers.fits ?_ covers fits
  intro shape other b outer inner
  rcases outer with isAny | same
  · exact .inl isAny
  · rw [same]
    exact inner

/-- The matcher is right about two masks when the first has no `?` or the second no `*`. -/
theorem MaskFits.covers {general special : CString} (apart : '?' ∉ general ∨ '*' ∉ special)
    (fits : MaskFits special general) :
    Covers Allows (maskTokens general) (maskTokens special) := by
  refine fits.map fun shape b token inSpecial allows => ?_
  have inMask : b ∈ special := (List.takeWhile_sublist _).mem inSpecial
  have inGeneral := mem_of_one_mem_maskTokens token
  rw [maskToken]
  split
  case isFalse => exact allows
  case isTrue isStar =>
    rw [isStar] at inMask allows
    rcases allows with isAny | same
    · rw [isAny] at inGeneral
      rcases apart with noAny | noStar
      · exact noAny inGeneral
      · exact noStar inMask
    · -- no byte of a mask stands for a star alone
      rw [same] at token
      rw [maskTokens, List.mem_map] at token
      obtain ⟨c, _, isToken⟩ := token
      rw [maskToken] at isToken
      split at isToken
      · exact nomatch isToken
      case isFalse noStar => exact absurd (Token.one.inj isToken) noStar

/-- A byte that stands for itself in a mask is in every text that fits. -/
theorem MaskFits.mem {text mask : CString} {c : Char} (bytes : ∀ d ∈ mask, d ≠ '\x00')
    (noStar : c ≠ '*') (notAny : c ≠ '?') (member : c ∈ mask) (fits : MaskFits text mask) :
    c ∈ text := by
  have whole : beforeNul mask = mask :=
    List.takeWhile_eq_self_iff.mpr fun d inMask => by simpa using bytes d inMask
  have token : Token.one c ∈ maskTokens mask := by
    rw [maskTokens, whole, List.mem_map]
    exact ⟨c, member, by rw [maskToken, if_neg noStar]⟩
  obtain ⟨d, inText, allows⟩ := fits.exists_mem token
  rcases allows with isAny | same
  · exact absurd isAny notAny
  · rw [same]
    exact (List.takeWhile_sublist _).mem inText

end Chaosircd
