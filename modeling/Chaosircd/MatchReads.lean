import Chaosircd.BanList
import Chaosircd.StrMatch

/-!
# The two mask matchers and the bytes they read

`str_match` and `str_imatch` are one loop twice; the second compares bytes after lowering
them.  The loop is written here once more with the folding as a parameter, and with what it
returns when its turns are used up told apart from a negative answer.  Besides its answer,
the bytes that each turn looks at are recorded, none of which is behind a terminator.
-/

namespace Chaosircd

open Wildcards

/-! ## The loop with a folding -/

/-- The comparison at the end of a turn, on folded bytes. -/
def foldedByte (fold : Char → Char) (str mask : CString) (c : MatchCursor) :
    Bool ⊕ MatchCursor :=
  if fold (byteAt mask c.m) ≠ fold (byteAt str c.n) ∧ byteAt mask c.m ≠ '?' then
    if c.wild then .inr c.retry else .inl false
  else
    .inr { c with
      m := if byteAt mask c.m = '\x00' then c.m else c.m + 1
      n := if byteAt str c.n = '\x00' then c.n else c.n + 1 }

/-- One turn of the loop. -/
def foldedTurn (fold : Char → Char) (str mask : CString) (start : MatchCursor) :
    Bool ⊕ MatchCursor :=
  let c := takeStars mask start
  if byteAt mask c.m = '\x00' then
    if byteAt str c.n = '\x00' then .inl true
    else if backToStar mask c.m then .inl true
    else if c.wild then foldedByte fold str mask c.retry
    else .inl false
  else if byteAt str c.n = '\x00' then
    .inl (byteAt mask (skipStars mask c.m) = '\x00')
  else foldedByte fold str mask c

/-- The loop, which has no answer when its turns are used up. -/
def foldedTurns (fold : Char → Char) (str mask : CString) : Nat → MatchCursor → Option Bool
  | 0, _ => none
  | calls + 1, c =>
    match foldedTurn fold str mask c with
    | .inl answer => some answer
    | .inr c => foldedTurns fold str mask calls c

/-- What `str_match` finds in its 512 turns. -/
def matchAnswer (str mask : CString) : Option Bool :=
  foldedTurns id str mask 512 ⟨0, 0, 0, 0, false⟩

/-- What `str_imatch` finds in its 512 turns. -/
def imatchAnswer (str mask : CString) : Option Bool :=
  foldedTurns strTolower str mask 512 ⟨0, 0, 0, 0, false⟩

/-- The pointers at the start of each turn. -/
def visits (fold : Char → Char) (str mask : CString) : Nat → MatchCursor → List MatchCursor
  | 0, _ => []
  | calls + 1, c =>
    c :: match foldedTurn fold str mask c with
      | .inl _ => []
      | .inr c => visits fold str mask calls c

/-! ## What a turn reads -/

/-- The bytes that `while(*m == '*') m++` looks at. -/
def starReads (mask : CString) (m : Nat) : List Int :=
  (List.range' m (skipStars mask m + 1 - m)).map Int.ofNat

/-- The bytes that the walk back from the end of the mask looks at; that of an empty mask
looks at the byte before it. -/
def backReads (mask : CString) : Nat → List Int
  | 0 => [-1]
  | m + 1 =>
    if m = 0 then [0]
    else if byteAt mask m = '?' then (m : Int) :: backReads mask m
    else [(m : Int), (m : Int)]

/-- The bytes of the mask that a turn looks at. -/
def maskReads (str mask : CString) (start : MatchCursor) : List Int :=
  let c := takeStars mask start
  (start.m : Int) :: (if byteAt mask start.m = '*' then starReads mask start.m else []) ++
    (c.m : Int) ::
      if byteAt mask c.m = '\x00' then
        if byteAt str c.n = '\x00' then []
        else backReads mask c.m ++
          if backToStar mask c.m = false ∧ c.wild then [(c.ma : Int)] else []
      else if byteAt str c.n = '\x00' then starReads mask c.m
      else [(c.m : Int)]

/-- The bytes of the text that a turn looks at. -/
def strReads (str mask : CString) (start : MatchCursor) : List Nat :=
  let c := takeStars mask start
  c.n ::
    if byteAt mask c.m = '\x00' ∧ byteAt str c.n ≠ '\x00' ∧ backToStar mask c.m = false ∧ c.wild
    then [c.na + 1] else []

/-- No byte behind a terminator is looked at, and none before an argument but the one before
an empty mask. -/
structure ReadsInside (str mask : CString) (c : MatchCursor) : Prop where
  masks : ∀ i ∈ maskReads str mask c, i ≤ (beforeNul mask).length
  starts : ∀ i ∈ maskReads str mask c, 0 ≤ i ∨ beforeNul mask = []
  texts : ∀ i ∈ strReads str mask c, i ≤ (beforeNul str).length

/-! ## Folding the arguments -/

/-- A folding that leaves the bytes with a meaning alone. -/
structure Keeps (fold : Char → Char) : Prop where
  nul : ∀ c, fold c = '\x00' ↔ c = '\x00'
  star : ∀ c, fold c = '*' ↔ c = '*'
  any : ∀ c, fold c = '?' ↔ c = '?'

theorem keeps_id : Keeps id :=
  ⟨fun _ => Iff.rfl, fun _ => Iff.rfl, fun _ => Iff.rfl⟩

/-- Lowering leaves what is not a letter alone, and makes nothing else of a letter. -/
theorem strTolower_eq_iff {c d : Char} (low : d < 'A') : strTolower c = d ↔ c = d := by
  rw [strTolower]
  split
  · rename_i upper
    have least : 65 ≤ c.toNat := upper.1
    have most : c.toNat ≤ 90 := upper.2
    have below : d.toNat < 65 := low
    have value : (Char.ofNat (c.toNat + 32)).toNat = c.toNat + 32 := by
      have valid : (c.toNat + 32).isValidChar := .inl (by omega)
      rw [Char.ofNat, dif_pos valid]
      rfl
    constructor
    · rintro rfl
      omega
    · rintro rfl
      omega
  · exact Iff.rfl

theorem keeps_strTolower : Keeps strTolower :=
  ⟨fun _ => strTolower_eq_iff (by decide), fun _ => strTolower_eq_iff (by decide),
    fun _ => strTolower_eq_iff (by decide)⟩

section Keeps

variable {fold : Char → Char} (keeps : Keeps fold) (str mask : CString)
include keeps

theorem Keeps.byteAt (s : CString) (i : Nat) : byteAt (s.map fold) i = fold (byteAt s i) := by
  have nul := (keeps.nul '\x00').mpr rfl
  rw [Chaosircd.byteAt, Chaosircd.byteAt, List.getD_eq_getElem?_getD, List.getElem?_map,
    List.getD_eq_getElem?_getD]
  cases s[i]? with
  | none => exact nul.symm
  | some c => rfl

theorem Keeps.skipStars (m : Nat) : skipStars (mask.map fold) m = skipStars mask m := by
  have same : (fun c => decide (fold c = '*')) = fun c => decide (c = '*') := by
    funext c
    simp [keeps.star]
  rw [Chaosircd.skipStars, Chaosircd.skipStars, ← List.map_drop, List.takeWhile_map,
    List.length_map]
  exact congrArg (fun test => m + ((mask.drop m).takeWhile test).length) same

theorem Keeps.backToStar (m : Nat) : backToStar (mask.map fold) m = backToStar mask m := by
  induction m with
  | zero => rfl
  | succ m induction =>
      rw [Chaosircd.backToStar, Chaosircd.backToStar, induction, keeps.byteAt]
      simp only [keeps.any, keeps.star]

theorem Keeps.takeStars (c : MatchCursor) : takeStars (mask.map fold) c = takeStars mask c := by
  rw [Chaosircd.takeStars, Chaosircd.takeStars, keeps.byteAt, keeps.skipStars]
  simp only [keeps.star]

theorem Keeps.matchByte (c : MatchCursor) :
    matchByte (str.map fold) (mask.map fold) c = foldedByte fold str mask c := by
  rw [Chaosircd.matchByte, foldedByte, keeps.byteAt, keeps.byteAt]
  simp only [ne_eq, keeps.any, keeps.nul]

/-- Folding in the loop is folding the arguments. -/
theorem Keeps.matchTurn (c : MatchCursor) :
    matchTurn (str.map fold) (mask.map fold) c = foldedTurn fold str mask c := by
  rw [Chaosircd.matchTurn, foldedTurn, keeps.takeStars]
  simp only [keeps.byteAt, keeps.nul, keeps.backToStar, keeps.skipStars, keeps.matchByte]

/-- The folded loop is the loop on folded arguments. -/
theorem Keeps.foldedTurns (calls : Nat) (c : MatchCursor) :
    foldedTurns id (str.map fold) (mask.map fold) calls c =
      foldedTurns fold str mask calls c := by
  induction calls generalizing c with
  | zero => rfl
  | succ calls induction =>
      have plain := keeps_id.matchTurn (str.map fold) (mask.map fold) c
      rw [List.map_id, List.map_id] at plain
      rw [Chaosircd.foldedTurns, Chaosircd.foldedTurns, ← plain, keeps.matchTurn]
      cases foldedTurn fold str mask c with
      | inl answer => rfl
      | inr next => exact induction next

end Keeps

/-- Without folding it is the loop of `str_match`. -/
theorem foldedTurn_id (str mask : CString) (c : MatchCursor) :
    foldedTurn id str mask c = matchTurn str mask c := by
  have plain := keeps_id.matchTurn str mask c
  rw [List.map_id, List.map_id] at plain
  exact plain.symm

theorem matchTurns_eq (str mask : CString) (calls : Nat) (c : MatchCursor) :
    matchTurns str mask calls c = (foldedTurns id str mask calls c).getD false := by
  induction calls generalizing c with
  | zero => rfl
  | succ calls induction =>
      rw [matchTurns, foldedTurns, foldedTurn_id]
      cases matchTurn str mask c with
      | inl answer => rfl
      | inr next => exact induction next

/-- The answer of `str_match`, which is no when there is none. -/
theorem strMatch_eq (str mask : CString) :
    strMatch str mask = (matchAnswer str mask).getD false :=
  matchTurns_eq str mask 512 _

theorem imatchAnswer_eq (str mask : CString) :
    imatchAnswer str mask = matchAnswer (str.map strTolower) (mask.map strTolower) :=
  (keeps_strTolower.foldedTurns str mask 512 _).symm

/-- The answer of `str_imatch`. -/
theorem strImatch_eq (str mask : CString) :
    BanList.strImatch str mask = (imatchAnswer str mask).getD false := by
  rw [imatchAnswer_eq]
  exact strMatch_eq _ _

/-- There is an answer exactly if the turns are enough. -/
theorem answers_iff (str mask : CString) (calls : Nat) (c : MatchCursor) :
    Answers str mask calls c ↔ ∃ answer, foldedTurns id str mask calls c = some answer := by
  induction calls generalizing c with
  | zero => simp [Answers, foldedTurns]
  | succ calls induction =>
      rw [Answers, foldedTurns, foldedTurn_id]
      cases matchTurn str mask c with
      | inl answer => simp
      | inr next => exact induction next

theorem decides_iff (str mask : CString) :
    Decides str mask ↔ ∃ answer, matchAnswer str mask = some answer :=
  answers_iff str mask 512 _

/-- An answer of the loop says whether the text fits the mask. -/
theorem matchAnswer_iff {str mask : CString} {answer : Bool}
    (answered : matchAnswer str mask = some answer) : answer = true ↔ MaskFits str mask := by
  have value := strMatch_eq str mask
  rw [answered, Option.getD_some] at value
  rw [← value]
  exact strMatch_iff ((decides_iff str mask).mpr ⟨answer, answered⟩)

/-! ## No byte behind a terminator -/

variable {str mask : CString} {m : Nat} {c : MatchCursor}

theorem mem_starReads_iff {i : Int} :
    i ∈ starReads mask m ↔ (m : Int) ≤ i ∧ i ≤ skipStars mask m := by
  have least := le_skipStars mask m
  rw [starReads, List.mem_map]
  constructor
  · rintro ⟨j, listed, rfl⟩
    rw [List.mem_range'_1] at listed
    simp only [Int.ofNat_eq_natCast]
    omega
  · intro ⟨low, high⟩
    obtain ⟨j, rfl⟩ := Int.eq_ofNat_of_zero_le (by omega : 0 ≤ i)
    exact ⟨j, List.mem_range'_1.mpr (by omega), rfl⟩

/-- The walk back stays in front of the end, and leaves the mask only when it is empty. -/
theorem backReads_bounds {i : Int} (listed : i ∈ backReads mask m) :
    i < m ∧ (0 ≤ i ∨ m = 0) := by
  induction m with
  | zero =>
      rw [backReads, List.mem_singleton] at listed
      omega
  | succ m induction =>
      rw [backReads] at listed
      split at listed
      · rw [List.mem_singleton] at listed
        omega
      · split at listed
        · rcases List.mem_cons.mp listed with here | further
          · omega
          · have bounds := induction further
            omega
        · simp only [List.mem_cons, List.not_mem_nil, or_false, or_self] at listed
          omega

namespace MatchCursor.Tracks

/-- The bytes of the mask that a turn reads when the loop has kept track so far. -/
theorem maskReads_bounds (tracks : c.Tracks str mask) {i : Int}
    (listed : i ∈ maskReads str mask c) :
    i ≤ (beforeNul mask).length ∧ (0 ≤ i ∨ beforeNul mask = []) := by
  have taken := tracks.takeStars
  have here := tracks.m_le
  have skipped := skipStars_le tracks.m_le
  rw [maskReads] at listed
  generalize Chaosircd.takeStars mask c = after at taken listed
  have there := taken.m_le
  have order := taken.ma_le
  have skippedThere := skipStars_le taken.m_le
  have stars {m : Nat} (inside : skipStars mask m ≤ (beforeNul mask).length)
      (read : i ∈ starReads mask m) :
      i ≤ (beforeNul mask).length ∧ (0 ≤ i ∨ beforeNul mask = []) := by
    have bounds := mem_starReads_iff.mp read
    omega
  rcases List.mem_append.mp listed with first | second
  · rcases List.mem_cons.mp first with same | read
    · omega
    · split at read
      · exact stars skipped read
      · exact absurd read List.not_mem_nil
  · rcases List.mem_cons.mp second with same | read
    · omega
    · split at read
      · rename_i mEnd
        split at read
        · exact absurd read List.not_mem_nil
        · rcases List.mem_append.mp read with back | again
          · have bounds := backReads_bounds back
            have atEnd := (byteAt_eq_nul_iff taken.m_le).mp mEnd
            refine ⟨by omega, bounds.2.imp_right fun start => ?_⟩
            rw [start] at atEnd
            exact List.length_eq_zero_iff.mp atEnd.symm
          · split at again
            · rw [List.mem_singleton] at again
              omega
            · exact absurd again List.not_mem_nil
      · split at read
        · exact stars skippedThere read
        · rw [List.mem_singleton] at read
          omega

/-- The bytes of the text. -/
theorem strReads_bounds (tracks : c.Tracks str mask) {i : Nat}
    (listed : i ∈ strReads str mask c) : i ≤ (beforeNul str).length := by
  have taken := tracks.takeStars
  rw [strReads] at listed
  generalize Chaosircd.takeStars mask c = after at taken listed
  rcases List.mem_cons.mp listed with same | read
  · rw [same]
    exact taken.n_le
  · split at read
    · rename_i back
      obtain ⟨mEnd, nByte, _, isWild⟩ := back
      rw [List.mem_singleton.mp read]
      exact (taken.retry_of_maskEnd isWild mEnd nByte).1.n_le
    · exact absurd read List.not_mem_nil

/-- What a turn reads. -/
theorem readsInside (tracks : c.Tracks str mask) : ReadsInside str mask c where
  masks _ listed := (tracks.maskReads_bounds listed).1
  starts _ listed := (tracks.maskReads_bounds listed).2
  texts _ listed := tracks.strReads_bounds listed

end MatchCursor.Tracks

/-- Every turn reads inside. -/
theorem readsInside_of_visits (calls : Nat) (tracks : c.Tracks str mask) :
    ∀ cursor ∈ visits id str mask calls c, ReadsInside str mask cursor := by
  induction calls generalizing c with
  | zero => exact nofun
  | succ calls induction =>
      intro cursor listed
      have turn := tracks.matchTurn
      rw [visits, foldedTurn_id] at listed
      rcases List.mem_cons.mp listed with same | later
      · rw [same]
        exact tracks.readsInside
      · cases step : matchTurn str mask c with
        | inl answer =>
            rw [step] at later
            exact absurd later List.not_mem_nil
        | inr next =>
            rw [step] at turn later
            exact induction turn cursor later

section Keeps

variable {fold : Char → Char} (keeps : Keeps fold)
include keeps

theorem Keeps.visits (calls : Nat) (c : MatchCursor) :
    visits id (str.map fold) (mask.map fold) calls c = visits fold str mask calls c := by
  induction calls generalizing c with
  | zero => rfl
  | succ calls induction =>
      rw [Chaosircd.visits, Chaosircd.visits, foldedTurn_id, keeps.matchTurn]
      cases foldedTurn fold str mask c with
      | inl answer => rfl
      | inr next => exact congrArg (c :: ·) (induction next)

theorem Keeps.length_beforeNul (s : CString) :
    (beforeNul (s.map fold)).length = (beforeNul s).length := by
  have same : (fun c => decide (fold c ≠ '\x00')) = fun c => decide (c ≠ '\x00') := by
    funext c
    simp [keeps.nul]
  rw [beforeNul, beforeNul, List.takeWhile_map, List.length_map]
  exact congrArg (fun test => (s.takeWhile test).length) same

theorem Keeps.backReads (m : Nat) : backReads (mask.map fold) m = backReads mask m := by
  induction m with
  | zero => rfl
  | succ m induction =>
      rw [Chaosircd.backReads, Chaosircd.backReads, induction, keeps.byteAt]
      simp only [keeps.any]

/-- What is read does not depend on the folding. -/
theorem Keeps.readsInside (inside : ReadsInside (str.map fold) (mask.map fold) c) :
    ReadsInside str mask c := by
  have masks : maskReads (str.map fold) (mask.map fold) c = maskReads str mask c := by
    simp only [maskReads, starReads, keeps.takeStars, keeps.byteAt, keeps.star, keeps.nul,
      keeps.skipStars, keeps.backReads, keeps.backToStar]
  have texts : strReads (str.map fold) (mask.map fold) c = strReads str mask c := by
    simp only [strReads, keeps.takeStars, keeps.byteAt, keeps.nul, keeps.backToStar, ne_eq]
  obtain ⟨masksInside, starts, textsInside⟩ := inside
  rw [masks, keeps.length_beforeNul] at masksInside
  rw [texts, keeps.length_beforeNul] at textsInside
  rw [masks] at starts
  refine ⟨masksInside, fun i listed => (starts i listed).imp_right fun none => ?_, textsInside⟩
  rw [← List.length_eq_zero_iff, keeps.length_beforeNul] at none
  exact List.length_eq_zero_iff.mp none

end Keeps

/-- Where the loops come to an answer it is right, with the arguments folded for
`str_imatch`, and no turn looks behind a terminator. -/
theorem match_glob_reference (str mask : CString) :
    (∀ answer, matchAnswer str mask = some answer →
      strMatch str mask = answer ∧ (answer = true ↔ MaskFits str mask)) ∧
    (∀ answer, imatchAnswer str mask = some answer →
      BanList.strImatch str mask = answer ∧
        (answer = true ↔ MaskFits (str.map strTolower) (mask.map strTolower))) ∧
    (∀ c ∈ visits id str mask 512 ⟨0, 0, 0, 0, false⟩, ReadsInside str mask c) ∧
    ∀ c ∈ visits strTolower str mask 512 ⟨0, 0, 0, 0, false⟩, ReadsInside str mask c := by
  refine ⟨fun answer answered => ?_, fun answer answered => ?_, ?_, fun c listed => ?_⟩
  · rw [strMatch_eq, answered]
    exact ⟨rfl, matchAnswer_iff answered⟩
  · rw [strImatch_eq, answered]
    rw [imatchAnswer_eq] at answered
    exact ⟨rfl, matchAnswer_iff answered⟩
  · exact readsInside_of_visits 512 (MatchCursor.tracks_start str mask)
  · rw [← keeps_strTolower.visits] at listed
    exact keeps_strTolower.readsInside
      (readsInside_of_visits 512 (MatchCursor.tracks_start _ _) c listed)

theorem match_glob_reference_nick :
    ¬ MaskFits "Nick".toList "n?c*".toList ∧
      MaskFits ("Nick".toList.map strTolower) ("n?c*".toList.map strTolower) := by
  obtain ⟨plain, lowered, -⟩ := match_glob_reference "Nick".toList "n?c*".toList
  constructor
  · intro fits
    exact absurd ((plain false (by decide +kernel)).2.mpr fits) Bool.false_ne_true
  · exact (lowered true (by decide +kernel)).2.mp rfl

end Chaosircd
