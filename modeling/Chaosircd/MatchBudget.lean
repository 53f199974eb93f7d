import Chaosircd.MatchReads
import Chaosircd.MaskCoverage

/-!
# The turns that a mask takes

A mask is a sequence of parts with runs of stars between them.  The first part has to be at
the head of the text; behind a star, a part is tried at one position of the text after the
other, and each trial takes as many turns as bytes agree and one more.  The sum of these
trials is what the loop of `str_match` needs, and it has 512 turns.  Parts and texts of 64
bytes can need more than a thousand.
-/

namespace Chaosircd

open Wildcards

/-! ## Trials -/

/-- The parts of a mask between its runs of stars. -/
def maskParts : CString → List CString
  | [] => [[]]
  | c :: mask =>
    if c = '*' then
      if mask.head? = some '*' then maskParts mask else [] :: maskParts mask
    else
      match maskParts mask with
      | [] => [[c]]
      | part :: parts => (c :: part) :: parts

/-- How many bytes of a text agree with a part from its head on. -/
def agreeing : CString → CString → Nat
  | c :: part, d :: text => if Allows c d then agreeing part text + 1 else 0
  | _, _ => 0

/-- The turns for a part that is followed by a star, and for what comes behind it. -/
def seekTurns (part : CString) (behind : CString → Nat) : CString → Nat
  | [] => if part = [] then behind [] else 1
  | d :: text =>
    let n := agreeing part (d :: text)
    if n = part.length then n + behind ((d :: text).drop n)
    else if n = text.length + 1 then n + 1
    else n + 1 + seekTurns part behind text

/-- The turns for the part at the end of a mask.  A trial that agrees in all bytes and leaves
some of the text is the last one when the part closes the search. -/
def lastTurns (part : CString) (closes : Bool) : CString → Nat
  | [] => 1
  | d :: text =>
    let n := agreeing part (d :: text)
    if n = text.length + 1 then n + 1
    else if n = part.length then
      if closes then n + 1 else n + lastTurns part closes text
    else n + 1 + lastTurns part closes text

/-- Only `?` behind the last star, which is not the first byte of the mask: whatever is left
of the text is taken at once. -/
def Closes (mask part : CString) : Bool :=
  part.all (· = '?') && mask ≠ '*' :: part

/-- The turns for the parts behind a star.  A star that is the whole mask takes two bytes of
the text in a turn. -/
def restTurns (mask : CString) : List CString → CString → Nat
  | [], _ => 1
  | [part], text =>
    if part = [] ∧ Closes mask part = false then (text.length + 1) / 2 + 1
    else lastTurns part (Closes mask part) text
  | part :: other :: parts, text => seekTurns part (restTurns mask (other :: parts)) text

/-- The turns for a mask. -/
def maskTurns (mask text : CString) : Nat :=
  match maskParts mask with
  | [] => 1
  | part :: parts =>
    let n := agreeing part text
    if n = part.length ∧ parts ≠ [] then n + restTurns mask parts (text.drop n) else n + 1

/-! ## What the trials add up to -/

theorem maskParts_ne_nil (mask : CString) : maskParts mask ≠ [] := by
  induction mask with
  | nil => exact nofun
  | cons c mask induction =>
      rw [maskParts]
      split
      · split
        · exact induction
        · exact nofun
      · split
        · exact nofun
        · exact nofun

/-- Bytes other than stars belong to the first part. -/
theorem maskParts_append {seen mask part : CString} {parts : List CString}
    (plain : ∀ c ∈ seen, c ≠ '*') (split : maskParts mask = part :: parts) :
    maskParts (seen ++ mask) = (seen ++ part) :: parts := by
  induction seen with
  | nil => exact split
  | cons c seen induction =>
      have rest := induction fun d listed => plain d (List.mem_cons_of_mem c listed)
      rw [List.cons_append, maskParts, if_neg (plain c List.mem_cons_self), rest]
      rfl

/-- A run of stars ends a part. -/
theorem maskParts_star {mask : CString} (isStar : mask.head? = some '*') :
    maskParts mask = [] :: maskParts (mask.dropWhile (· = '*')) := by
  induction mask with
  | nil => exact nomatch isStar
  | cons c mask induction =>
      obtain rfl : c = '*' := by simpa using isStar
      rw [maskParts, if_pos rfl, List.dropWhile_cons_of_pos (by simp)]
      split
      · rename_i more
        exact induction more
      · rename_i noMore
        congr 2
        cases mask with
        | nil => rfl
        | cons d mask =>
            rw [List.dropWhile_cons_of_neg]
            simpa using noMore

@[simp] theorem agreeing_nil (text : CString) : agreeing [] text = 0 := by
  cases text with
  | nil => rfl
  | cons d text => rfl

theorem agreeing_le (part text : CString) :
    agreeing part text ≤ part.length ∧ agreeing part text ≤ text.length := by
  induction part generalizing text with
  | nil => simp [agreeing]
  | cons c part induction =>
      cases text with
      | nil => simp [agreeing]
      | cons d text =>
          have bounds := induction text
          rw [agreeing]
          split
          · simp only [List.length_cons]
            omega
          · simp

/-- Behind bytes that agree, the rest is compared. -/
theorem agreeing_append {seen part text : CString} (agrees : agreeing seen text = seen.length) :
    agreeing (seen ++ part) text = seen.length + agreeing part (text.drop seen.length) := by
  induction seen generalizing text with
  | nil => simp
  | cons c seen induction =>
      cases text with
      | nil => simp [agreeing] at agrees
      | cons d text =>
          rw [agreeing] at agrees
          split at agrees
          · rename_i allowed
            have rest := @induction text (by simpa using agrees)
            rw [List.cons_append, agreeing, if_pos allowed, rest]
            simp only [List.length_cons, List.drop_succ_cons]
            omega
          · simp at agrees

section Trials

variable {mask part text : CString} {parts : List CString}

theorem seekTurns_eq (behind : CString → Nat) :
    seekTurns part behind text =
      if agreeing part text = part.length then
        agreeing part text + behind (text.drop (agreeing part text))
      else if agreeing part text = text.length then agreeing part text + 1
      else agreeing part text + 1 + seekTurns part behind text.tail := by
  cases text with
  | nil => cases part <;> simp [seekTurns, agreeing]
  | cons d text => rfl

theorem lastTurns_eq (closes : Bool) :
    lastTurns part closes text =
      if agreeing part text = text.length then agreeing part text + 1
      else if agreeing part text = part.length then
        if closes then agreeing part text + 1
        else agreeing part text + lastTurns part closes text.tail
      else agreeing part text + 1 + lastTurns part closes text.tail := by
  cases text with
  | nil => cases part <;> simp [lastTurns, agreeing]
  | cons d text => rfl

/-- A trial that comes to the end of the text is the last one. -/
theorem restTurns_of_textEnd (fails : parts ≠ [] → agreeing part text < part.length)
    (ended : agreeing part text = text.length) :
    restTurns mask (part :: parts) text = agreeing part text + 1 := by
  cases parts with
  | nil =>
      rw [restTurns]
      split
      · rename_i alone
        rw [alone.1, agreeing_nil] at ended ⊢
        rw [← ended]
      · rw [lastTurns_eq, if_pos ended]
  | cons other parts =>
      have short := fails nofun
      rw [restTurns, seekTurns_eq, if_neg (by omega), if_pos ended]

/-- A trial that fails is followed by one at the next position. -/
theorem restTurns_of_differ (fails : agreeing part text < part.length)
    (more : agreeing part text < text.length) :
    restTurns mask (part :: parts) text =
      agreeing part text + 1 + restTurns mask (part :: parts) text.tail := by
  cases parts with
  | nil =>
      have someByte : part ≠ [] := by
        rintro rfl
        simp at fails
      rw [restTurns, restTurns, if_neg fun alone => someByte alone.1,
        if_neg fun alone => someByte alone.1, lastTurns_eq, if_neg (by omega),
        if_neg (by omega)]
  | cons other parts =>
      rw [restTurns, seekTurns_eq, if_neg (by omega), if_neg (by omega)]
      rfl

/-- A part that is found is followed by the next part. -/
theorem restTurns_of_found (found : agreeing part text = part.length) (further : parts ≠ []) :
    restTurns mask (part :: parts) text =
      part.length + restTurns mask parts (text.drop part.length) := by
  cases parts with
  | nil => exact absurd rfl further
  | cons other parts => rw [restTurns, seekTurns_eq, if_pos found, found]

/-- The last part closes the search when it is found. -/
theorem restTurns_of_closes (found : agreeing part text = part.length)
    (closes : Closes mask part = true) :
    restTurns mask [part] text = part.length + 1 := by
  rw [restTurns, if_neg (by simp [closes]), lastTurns_eq, found]
  simp [closes]

/-- The last part is tried again when it is found before the end of the text. -/
theorem restTurns_of_again (found : agreeing part text = part.length)
    (more : part.length < text.length) (someByte : part ≠ [])
    (goesOn : Closes mask part = false) :
    restTurns mask [part] text = part.length + restTurns mask [part] text.tail := by
  rw [restTurns, restTurns, if_neg fun alone => someByte alone.1,
    if_neg fun alone => someByte alone.1, lastTurns_eq, found, if_neg (by omega), if_pos rfl,
    goesOn]
  rfl

/-- A star that is the whole mask. -/
theorem restTurns_of_alone (goesOn : Closes mask [] = false) :
    restTurns mask [[]] text = (text.length + 1) / 2 + 1 := by
  rw [restTurns, if_pos ⟨rfl, goesOn⟩]

theorem lastTurns_pos (closes : Bool) : 0 < lastTurns part closes text := by
  induction text with
  | nil => exact Nat.one_pos
  | cons d text induction =>
      rw [lastTurns_eq, List.tail_cons]
      split
      · omega
      · split
        · split <;> omega
        · omega

theorem seekTurns_pos {behind : CString → Nat} (positive : ∀ text, 0 < behind text) :
    0 < seekTurns part behind text := by
  rw [seekTurns_eq]
  split
  · exact Nat.add_pos_right _ (positive _)
  · split
    · omega
    · omega

theorem restTurns_pos : 0 < restTurns mask parts text := by
  induction parts generalizing text with
  | nil => exact Nat.one_pos
  | cons part parts induction =>
      cases parts with
      | nil =>
          rw [restTurns]
          split
          · omega
          · exact lastTurns_pos _
      | cons other parts => exact seekTurns_pos fun text => induction

/-- There is a turn for each byte that agrees in the first trial, and one more. -/
theorem agreeing_lt_restTurns :
    agreeing part text < restTurns mask (part :: parts) text := by
  have bounds := agreeing_le part text
  have positive : 0 < restTurns mask (part :: parts) text.tail := restTurns_pos
  by_cases found : agreeing part text = part.length
  · by_cases further : parts = []
    · subst further
      by_cases ended : agreeing part text = text.length
      · rw [restTurns_of_textEnd (fun wrong => absurd rfl wrong) ended]
        omega
      · cases closes : Closes mask part with
        | true =>
            rw [restTurns_of_closes found closes]
            omega
        | false =>
            by_cases someByte : part = []
            · rw [found, someByte]
              exact restTurns_pos
            · rw [restTurns_of_again found (by omega) someByte closes]
              omega
    · have behind : 0 < restTurns mask parts (text.drop part.length) := restTurns_pos
      rw [restTurns_of_found found further]
      omega
  · by_cases ended : agreeing part text = text.length
    · rw [restTurns_of_textEnd (fun _ => by omega) ended]
      omega
    · rw [restTurns_of_differ (by omega) (by omega)]
      omega

end Trials

/-- The first part is found, and there is a star behind it. -/
theorem maskTurns_of_found {mask part text : CString} {parts : List CString}
    (split : maskParts mask = part :: parts) (found : agreeing part text = part.length)
    (further : parts ≠ []) :
    maskTurns mask text = part.length + restTurns mask parts (text.drop part.length) := by
  rw [maskTurns, split]
  simp only [found, further, ne_eq, not_false_eq_true, and_self, if_true]

/-- The first part is not found, or there is no star. -/
theorem maskTurns_of_fails {mask part text : CString} {parts : List CString}
    (split : maskParts mask = part :: parts)
    (fails : agreeing part text < part.length ∨ parts = []) :
    maskTurns mask text = agreeing part text + 1 := by
  have guard : ¬ (agreeing part text = part.length ∧ parts ≠ []) := by
    rintro ⟨found, further⟩
    rcases fails with short | single
    · omega
    · exact further single
  simp only [maskTurns, split, if_neg guard]

/-! ## The trial that the loop is in -/

/-- The bytes between the point of return and the pointers agree, and no star is among
them. -/
structure Agrees (str mask : CString) (c : MatchCursor) (seen : CString) : Prop where
  split : (beforeNul mask).drop c.ma = seen ++ (beforeNul mask).drop c.m
  length : c.ma + seen.length = c.m
  plain : ∀ d ∈ seen, d ≠ '*'
  agree : agreeing seen ((beforeNul str).drop c.na) = seen.length

/-- The turns of the trial that the loop is in and of those that follow. -/
def trialTurns (str mask : CString) (c : MatchCursor) : Nat :=
  if c.wild then
    restTurns (beforeNul mask) (maskParts ((beforeNul mask).drop c.ma))
      ((beforeNul str).drop c.na)
  else maskTurns (beforeNul mask) (beforeNul str)

theorem trialTurns_retry {str mask : CString} {c : MatchCursor} (isWild : c.wild = true) :
    trialTurns str mask c.retry =
      restTurns (beforeNul mask) (maskParts ((beforeNul mask).drop c.ma))
        ((beforeNul str).drop (c.na + 1)) :=
  if_pos isWild

section Trial

variable {str mask seen part : CString} {parts : List CString} {c : MatchCursor}

namespace Agrees

/-- The part that is tried. -/
theorem maskParts_eq (agrees : Agrees str mask c seen)
    (split : maskParts ((beforeNul mask).drop c.m) = part :: parts) :
    maskParts ((beforeNul mask).drop c.ma) = (seen ++ part) :: parts := by
  rw [agrees.split]
  exact maskParts_append agrees.plain split

theorem drop_na (agrees : Agrees str mask c seen) (tracks : c.Tracks str mask) :
    ((beforeNul str).drop c.na).drop seen.length = (beforeNul str).drop c.n := by
  have level := tracks.level
  have length := agrees.length
  rw [List.drop_drop]
  congr 1
  omega

theorem length_drop_na (agrees : Agrees str mask c seen) (tracks : c.Tracks str mask) :
    ((beforeNul str).drop c.na).length = seen.length + ((beforeNul str).drop c.n).length := by
  have within := (agreeing_le seen ((beforeNul str).drop c.na)).2
  have behind := congrArg List.length (agrees.drop_na tracks)
  rw [agrees.agree] at within
  rw [List.length_drop] at behind
  omega

theorem agreeing_eq (agrees : Agrees str mask c seen) (tracks : c.Tracks str mask) :
    agreeing (seen ++ part) ((beforeNul str).drop c.na) =
      seen.length + agreeing part ((beforeNul str).drop c.n) := by
  rw [agreeing_append agrees.agree, agrees.drop_na tracks]

/-- Without a star so far, the trial is the one of the first part. -/
theorem trialTurns_of_tame (agrees : Agrees str mask c seen) (tracks : c.Tracks str mask)
    (isTame : c.wild = false) (split : maskParts ((beforeNul mask).drop c.m) = part :: parts)
    (fails : agreeing part ((beforeNul str).drop c.n) < part.length ∨ parts = []) :
    trialTurns str mask c = seen.length + agreeing part ((beforeNul str).drop c.n) + 1 := by
  obtain ⟨ma, na⟩ := tracks.tame isTame
  have whole := agrees.maskParts_eq split
  have count := @agreeing_eq _ _ _ part _ agrees tracks
  rw [ma, List.drop_zero] at whole
  rw [na, List.drop_zero] at count
  rw [trialTurns, if_neg (by simp [isTame]), maskTurns_of_fails whole, count]
  rw [count, List.length_append]
  exact fails.imp_left fun short => by omega

/-- A trial whose part is found, with a star behind it. -/
theorem trialTurns_of_found (agrees : Agrees str mask c seen) (tracks : c.Tracks str mask)
    (split : maskParts ((beforeNul mask).drop c.m) = [] :: parts) (further : parts ≠ []) :
    trialTurns str mask c =
      seen.length + restTurns (beforeNul mask) parts ((beforeNul str).drop c.n) := by
  have whole := agrees.maskParts_eq split
  rw [List.append_nil] at whole
  cases isWild : c.wild with
  | true =>
      rw [trialTurns, if_pos isWild, whole, restTurns_of_found agrees.agree further,
        agrees.drop_na tracks]
  | false =>
      obtain ⟨ma, na⟩ := tracks.tame isWild
      have agree := agrees.agree
      have behind := agrees.drop_na tracks
      rw [ma, List.drop_zero] at whole
      rw [na, List.drop_zero] at agree behind
      rw [trialTurns, if_neg (by simp [isWild]), maskTurns_of_found whole agree further, behind]

/-- There is a turn for each byte that agrees, and one more. -/
theorem lt_trialTurns (agrees : Agrees str mask c seen) (tracks : c.Tracks str mask)
    (split : maskParts ((beforeNul mask).drop c.m) = part :: parts) :
    seen.length + agreeing part ((beforeNul str).drop c.n) < trialTurns str mask c := by
  have whole := agrees.maskParts_eq split
  cases isWild : c.wild with
  | true =>
      rw [trialTurns, if_pos isWild, whole, ← agrees.agreeing_eq tracks]
      exact agreeing_lt_restTurns
  | false =>
      by_cases fails : agreeing part ((beforeNul str).drop c.n) < part.length ∨ parts = []
      · rw [agrees.trialTurns_of_tame tracks isWild split fails]
        omega
      · obtain ⟨long, further⟩ := not_or.mp fails
        obtain ⟨ma, na⟩ := tracks.tame isWild
        have count := @agreeing_eq _ _ _ part _ agrees tracks
        have bounds := agreeing_le part ((beforeNul str).drop c.n)
        have positive : 0 < restTurns (beforeNul mask) parts
            ((beforeNul str).drop (seen ++ part).length) := restTurns_pos
        rw [ma, List.drop_zero] at whole
        rw [na, List.drop_zero] at count
        have found : agreeing (seen ++ part) (beforeNul str) = (seen ++ part).length := by
          rw [count, List.length_append]
          omega
        rw [trialTurns, if_neg (by simp [isWild]), maskTurns_of_found whole found further]
        omega

/-- Back at the point of return nothing has been compared. -/
theorem retry : Agrees str mask c.retry [] where
  split := rfl
  length := rfl
  plain := nofun
  agree := agreeing_nil _

/-- One more byte agrees. -/
theorem advance (agrees : Agrees str mask c seen) (tracks : c.Tracks str mask) {x t : Char}
    {rest text : CString} (mRest : (beforeNul mask).drop c.m = x :: rest)
    (nRest : (beforeNul str).drop c.n = t :: text) (noStar : x ≠ '*') (allowed : Allows x t) :
    Agrees str mask { c with m := c.m + 1, n := c.n + 1 } (seen ++ [x]) where
  split := by
    rw [agrees.split, mRest, List.append_assoc, List.singleton_append, ← List.tail_drop, mRest,
      List.tail_cons]
  length := by
    have length := agrees.length
    rw [List.length_append, List.length_singleton]
    dsimp only
    omega
  plain d listed := by
    rcases List.mem_append.mp listed with before | last
    · exact agrees.plain d before
    · rw [List.mem_singleton.mp last]
      exact noStar
  agree := by
    rw [agrees.agreeing_eq tracks, nRest, agreeing, if_pos allowed, agreeing_nil,
      List.length_append, List.length_singleton]

/-- A trial that fails behind a star. -/
theorem trialTurns_of_differ (agrees : Agrees str mask c seen) (tracks : c.Tracks str mask)
    (isWild : c.wild = true) (split : maskParts ((beforeNul mask).drop c.m) = part :: parts)
    (fails : agreeing part ((beforeNul str).drop c.n) < part.length)
    (more : agreeing part ((beforeNul str).drop c.n) < ((beforeNul str).drop c.n).length) :
    trialTurns str mask c =
      seen.length + agreeing part ((beforeNul str).drop c.n) + 1 +
        trialTurns str mask c.retry := by
  have whole := agrees.maskParts_eq split
  have length := agrees.length_drop_na tracks
  have count := @agreeing_eq _ _ _ part _ agrees tracks
  rw [trialTurns_retry isWild, trialTurns, if_pos isWild, whole, restTurns_of_differ, count,
    List.tail_drop]
  · rw [count, List.length_append]
    omega
  · omega

/-- A trial that comes to the end of the text in the middle of its part. -/
theorem trialTurns_of_textEnd (agrees : Agrees str mask c seen) (tracks : c.Tracks str mask)
    (split : maskParts ((beforeNul mask).drop c.m) = part :: parts)
    (ended : (beforeNul str).drop c.n = []) (fails : part ≠ [] ∨ parts = []) :
    trialTurns str mask c = seen.length + 1 := by
  have none : agreeing part ((beforeNul str).drop c.n) = 0 := by
    have bounds := (agreeing_le part ((beforeNul str).drop c.n)).2
    rw [ended] at bounds ⊢
    exact Nat.le_zero.mp bounds
  have short : agreeing part ((beforeNul str).drop c.n) < part.length ∨ parts = [] := by
    rw [none]
    exact fails.imp_left List.length_pos_iff.mpr
  cases isWild : c.wild with
  | true =>
      have whole := agrees.maskParts_eq split
      have length := agrees.length_drop_na tracks
      have count := @agreeing_eq _ _ _ part _ agrees tracks
      rw [ended] at length
      rw [trialTurns, if_pos isWild, whole, restTurns_of_textEnd, count, none]
      · intro further
        rw [count, List.length_append]
        have := short.resolve_right further
        omega
      · rw [count, none, length]
        rfl
  | false => rw [agrees.trialTurns_of_tame tracks isWild split short, none]

end Agrees

/-! ## One turn -/

/-- The turns that are left. -/
def leftTurns (str mask : CString) (c : MatchCursor) : Nat :=
  trialTurns str mask c - (c.m - c.ma)

theorem Agrees.leftTurns_eq (agrees : Agrees str mask c seen) :
    leftTurns str mask c = trialTurns str mask c - seen.length := by
  have length := agrees.length
  rw [leftTurns]
  congr 1
  omega

/-- The comparison of two bytes takes a turn. -/
theorem Agrees.matchByte (agrees : Agrees str mask c seen) (tracks : c.Tracks str mask)
    {x t : Char} {rest text : CString} (mRest : (beforeNul mask).drop c.m = x :: rest)
    (nRest : (beforeNul str).drop c.n = t :: text) (noStar : x ≠ '*') :
    match matchByte str mask c with
    | .inl _ => leftTurns str mask c = 1
    | .inr next => (∃ seen', Agrees str mask next seen') ∧
      leftTurns str mask c = leftTurns str mask next + 1 := by
  have mInside : c.m < (beforeNul mask).length := by
    by_contra outside
    rw [List.drop_eq_nil_of_le (by omega)] at mRest
    cases mRest
  have nInside : c.n < (beforeNul str).length := by
    by_contra outside
    rw [List.drop_eq_nil_of_le (by omega)] at nRest
    cases nRest
  obtain ⟨mDrop, mByte⟩ := beforeNul_drop mInside
  obtain ⟨nDrop, nByte⟩ := beforeNul_drop nInside
  obtain ⟨isX, -⟩ := List.cons.inj (mDrop.symm.trans mRest)
  obtain ⟨isT, -⟩ := List.cons.inj (nDrop.symm.trans nRest)
  obtain ⟨part, parts, split⟩ := List.exists_cons_of_ne_nil (maskParts_ne_nil rest)
  have split : maskParts ((beforeNul mask).drop c.m) = (x :: part) :: parts := by
    rw [mRest, maskParts, if_neg noStar, split]
  have count := agrees.lt_trialTurns tracks split
  rw [Chaosircd.matchByte, isX, isT]
  rw [isX] at mByte
  rw [isT] at nByte
  by_cases allowed : Allows x t
  · rw [if_neg, if_neg mByte, if_neg nByte]
    · have next := agrees.advance tracks mRest nRest noStar allowed
      refine ⟨⟨_, next⟩, ?_⟩
      rw [nRest, agreeing, if_pos allowed] at count
      have same : trialTurns str mask { c with m := c.m + 1, n := c.n + 1 } =
          trialTurns str mask c := rfl
      rw [agrees.leftTurns_eq, next.leftTurns_eq, same, List.length_append,
        List.length_singleton]
      omega
    · rintro ⟨apart, notAny⟩
      rcases allowed with isAny | equal
      · exact notAny isAny
      · exact apart equal
  · have none : agreeing (x :: part) ((beforeNul str).drop c.n) = 0 := by
      rw [nRest, agreeing, if_neg allowed]
    obtain ⟨notAny, apart⟩ := not_or.mp allowed
    rw [if_pos ⟨apart, notAny⟩]
    cases isWild : c.wild with
    | true =>
        refine ⟨⟨[], Agrees.retry⟩, ?_⟩
        have trial := agrees.trialTurns_of_differ tracks isWild split
          (by rw [none]; exact Nat.succ_pos _) (by rw [none, nRest]; exact Nat.succ_pos _)
        have retried := (Agrees.retry : Agrees str mask c.retry []).leftTurns_eq
        rw [agrees.leftTurns_eq, retried, trial, none, List.length_nil]
        omega
    | false =>
        have trial := agrees.trialTurns_of_tame tracks isWild split
          (.inl (by rw [none]; exact Nat.succ_pos _))
        show leftTurns str mask c = 1
        rw [agrees.leftTurns_eq, trial, none]
        omega

/-- Stars are skipped before the terminator. -/
theorem dropWhile_star {m : Nat} (inside : m ≤ (beforeNul mask).length) :
    ((beforeNul mask).drop m).dropWhile (· = '*') = (beforeNul mask).drop (skipStars mask m) := by
  have least := le_skipStars mask m
  have most := skipStars_le inside
  obtain ⟨count, last⟩ := Nat.exists_eq_add_of_le least
  have stars : ∀ i, m ≤ i → i < m + count → byteAt mask i = '*' := fun i low high =>
    byteAt_of_lt_skipStars low (by omega)
  have isPlain := byteAt_skipStars mask m
  rw [last] at most isPlain ⊢
  clear last least
  induction count generalizing m with
  | zero =>
      rw [Nat.add_zero] at most isPlain ⊢
      by_cases before : m < (beforeNul mask).length
      · rw [(beforeNul_drop before).1, List.dropWhile_cons_of_neg (by simpa using isPlain)]
      · rw [List.drop_eq_nil_of_le (by omega)]
        rfl
  | succ count induction =>
      rw [(beforeNul_drop (by omega : m < (beforeNul mask).length)).1,
        stars m (le_refl m) (by omega), List.dropWhile_cons_of_pos (by simp)]
      have shift : m + (count + 1) = m + 1 + count := by omega
      rw [shift] at most isPlain ⊢
      exact induction (by omega) most (fun i low high => stars i (by omega) (by omega)) isPlain

/-- A star is taken without a turn. -/
theorem Agrees.takeStars (agrees : Agrees str mask c seen) (tracks : c.Tracks str mask) :
    ∃ seen', Agrees str mask (takeStars mask c) seen' ∧
      leftTurns str mask c = leftTurns str mask (takeStars mask c) := by
  rw [Chaosircd.takeStars]
  split
  · rename_i isStar
    have inside : c.m < (beforeNul mask).length :=
      lt_of_byteAt_ne_nul tracks.m_le (by rw [isStar]; decide)
    have head : ((beforeNul mask).drop c.m).head? = some '*' := by
      rw [(beforeNul_drop inside).1, isStar]
      rfl
    have split := maskParts_star head
    rw [dropWhile_star tracks.m_le] at split
    have started : Agrees str mask ⟨skipStars mask c.m, c.n, skipStars mask c.m, c.n, true⟩ [] :=
      ⟨rfl, rfl, fun _ member => absurd member List.not_mem_nil, agreeing_nil _⟩
    refine ⟨[], started, ?_⟩
    rw [agrees.leftTurns_eq, started.leftTurns_eq,
      agrees.trialTurns_of_found tracks split (maskParts_ne_nil _), trialTurns, if_pos rfl]
    simp
  · exact ⟨seen, agrees, rfl⟩

/-- The walk back ends at a star that is not the first byte of the mask. -/
theorem backToStar_iff {m : Nat} :
    backToStar mask m = true ↔
      ∃ i, 0 < i ∧ i < m ∧ byteAt mask i = '*' ∧ ∀ j, i < j → j < m → byteAt mask j = '?' := by
  induction m with
  | zero => simp [backToStar]
  | succ m induction =>
      rw [backToStar]
      split
      · rename_i isFirst
        constructor
        · exact fun wrong => absurd wrong Bool.false_ne_true
        · rintro ⟨i, positive, before, -⟩
          omega
      · split
        · rename_i isAny
          rw [induction]
          constructor
          · rintro ⟨i, positive, before, isStar, any⟩
            refine ⟨i, positive, by omega, isStar, fun j low high => ?_⟩
            rcases Nat.lt_succ_iff_lt_or_eq.mp high with inner | last
            · exact any j low inner
            · rw [last]
              exact isAny
          · rintro ⟨i, positive, before, isStar, any⟩
            have apart : i ≠ m := by
              rintro rfl
              rw [isStar] at isAny
              exact absurd isAny (by decide)
            exact ⟨i, positive, by omega, isStar, fun j low high => any j low (by omega)⟩
        · rename_i notAny
          rw [decide_eq_true_eq]
          constructor
          · intro isStar
            exact ⟨m, by omega, by omega, isStar, fun j low high => by omega⟩
          · rintro ⟨i, positive, before, isStar, any⟩
            have same : i = m := by
              by_contra apart
              exact notAny (any m (by omega) (by omega))
            rw [← same]
            exact isStar

theorem mem_drop_beforeNul_iff {m : Nat} {x : Char} :
    x ∈ (beforeNul mask).drop m ↔ ∃ j, m ≤ j ∧ j < (beforeNul mask).length ∧
      byteAt mask j = x := by
  constructor
  · intro listed
    obtain ⟨k, inside, rfl⟩ := List.mem_iff_getElem.mp listed
    rw [List.length_drop] at inside
    have within : m + k < (beforeNul mask).length := by omega
    have here := (beforeNul_drop within).1
    rw [List.drop_eq_getElem_cons within] at here
    refine ⟨m + k, Nat.le_add_right m k, within, ?_⟩
    rw [List.getElem_drop]
    exact (List.cons.inj here).1.symm
  · rintro ⟨j, low, inside, rfl⟩
    refine (List.drop_suffix_drop_left (beforeNul mask) low).subset ?_
    rw [(beforeNul_drop inside).1]
    exact List.mem_cons_self

/-- The star before the last part is the first byte of the mask. -/
theorem eq_star_cons_iff (tracks : c.Tracks str mask) (isWild : c.wild = true) :
    beforeNul mask = '*' :: (beforeNul mask).drop c.ma ↔ c.ma = 1 := by
  obtain ⟨positive, isStar⟩ := tracks.starred isWild
  have inside := tracks.ma_le.trans tracks.m_le
  constructor
  · intro same
    have lengths := congrArg List.length same
    rw [List.length_cons, List.length_drop] at lengths
    omega
  · intro isFirst
    rw [isFirst] at isStar inside ⊢
    have whole := (beforeNul_drop (by omega : 0 < (beforeNul mask).length)).1
    rw [isStar, List.drop_zero] at whole
    exact whole

/-- At the end of the mask, the walk back finds whether the part closes the search. -/
theorem backToStar_eq (tracks : c.Tracks str mask) (isWild : c.wild = true)
    (mEnd : c.m = (beforeNul mask).length) :
    backToStar mask c.m = Closes (beforeNul mask) ((beforeNul mask).drop c.ma) := by
  obtain ⟨positive, isStar⟩ := tracks.starred isWild
  have order := tracks.ma_le
  rw [Bool.eq_iff_iff, backToStar_iff, Closes, Bool.and_eq_true, List.all_eq_true,
    decide_eq_true_eq, Ne, eq_star_cons_iff tracks isWild]
  constructor
  · rintro ⟨i, later, before, starHere, any⟩
    have ahead : i < c.ma := by
      by_contra behind
      exact tracks.plain i (by omega) before starHere
    have isLast : i + 1 = c.ma := by
      by_contra notLast
      have isAny := any (c.ma - 1) (by omega) (by omega)
      rw [isStar] at isAny
      exact absurd isAny (by decide)
    refine ⟨fun x listed => ?_, by omega⟩
    obtain ⟨j, low, inside, rfl⟩ := mem_drop_beforeNul_iff.mp listed
    simpa using any j (by omega) (by omega)
  · rintro ⟨any, notFirst⟩
    refine ⟨c.ma - 1, by omega, by omega, isStar, fun j low high => ?_⟩
    have listed := mem_drop_beforeNul_iff.mpr
      ⟨j, (by omega : c.ma ≤ j), by omega, (rfl : byteAt mask j = _)⟩
    simpa using any _ listed

/-- The last part has been found before the end of the text, and does not close the search:
it is tried at the next position in the same turn. -/
theorem Agrees.matchByte_retry (agrees : Agrees str mask c seen) (tracks : c.Tracks str mask)
    (isWild : c.wild = true) (mEnd : c.m = (beforeNul mask).length)
    (more : c.n < (beforeNul str).length) (goesOn : backToStar mask c.m = false) :
    match Chaosircd.matchByte str mask c.retry with
    | .inl _ => leftTurns str mask c = 1
    | .inr next => (∃ seen', Agrees str mask next seen') ∧
      leftTurns str mask c = leftTurns str mask next + 1 := by
  have mNul : byteAt mask c.m = '\x00' := (byteAt_eq_nul_iff tracks.m_le).mpr mEnd
  have nByte := (beforeNul_drop more).2
  have retried := (tracks.retry_of_maskEnd isWild mNul nByte).1
  have noMask : (beforeNul mask).drop c.m = [] := List.drop_eq_nil_of_le (by omega)
  have isPart : (beforeNul mask).drop c.ma = seen := by
    rw [agrees.split, noMask, List.append_nil]
  have whole : maskParts ((beforeNul mask).drop c.ma) = [seen] := by
    have parts := agrees.maskParts_eq (by rw [noMask]; rfl : _ = [] :: [])
    rwa [List.append_nil] at parts
  rw [backToStar_eq tracks isWild mEnd, isPart] at goesOn
  have length := agrees.length_drop_na tracks
  have left : ((beforeNul str).drop c.n).length = (beforeNul str).length - c.n :=
    List.length_drop
  cases seen with
  | nil =>
      have level := tracks.level
      have order := tracks.ma_le
      have lengths := agrees.length
      rw [List.length_nil] at lengths
      have atEnd : byteAt mask c.retry.m = '\x00' := by
        have same : c.retry.m = c.m := by simpa [MatchCursor.retry] using lengths
        rw [same]
        exact mNul
      have turns : ∀ cursor : MatchCursor, cursor.wild = true → cursor.ma = c.ma →
          cursor.m = c.ma → leftTurns str mask cursor =
            ((beforeNul str).length - cursor.na + 1) / 2 + 1 := by
        intro cursor wild ma m
        rw [leftTurns, trialTurns, if_pos wild, ma, m, whole, restTurns_of_alone goesOn,
          List.length_drop, Nat.sub_self, Nat.sub_zero]
      have now := turns c isWild rfl (by omega)
      rw [Chaosircd.matchByte, atEnd]
      by_cases nEnd : byteAt str c.retry.n = '\x00'
      · have last := (byteAt_eq_nul_iff retried.n_le).mp nEnd
        rw [nEnd, if_neg fun differ => differ.1 rfl, if_pos rfl, if_pos rfl]
        refine ⟨⟨[], Agrees.retry⟩, ?_⟩
        have next := turns c.retry isWild rfl rfl
        simp only [MatchCursor.retry] at next last ⊢
        omega
      · have inside := lt_of_byteAt_ne_nul retried.n_le nEnd
        have stillWild : c.retry.wild = true := isWild
        rw [if_pos ⟨Ne.symm nEnd, by decide⟩, if_pos stillWild]
        refine ⟨⟨[], Agrees.retry⟩, ?_⟩
        have next := turns c.retry.retry isWild rfl rfl
        simp only [MatchCursor.retry] at next inside ⊢
        omega
  | cons x rest =>
      have noStar := agrees.plain x List.mem_cons_self
      have more' : c.na + 1 < (beforeNul str).length := by
        rw [List.length_drop, List.length_drop, List.length_cons] at length
        omega
      have trial := @restTurns_of_again (beforeNul mask) _ _ agrees.agree
        (by rw [length, left]; omega) (List.cons_ne_nil x rest) goesOn
      have same : leftTurns str mask c = leftTurns str mask c.retry := by
        rw [agrees.leftTurns_eq, (Agrees.retry : Agrees str mask c.retry []).leftTurns_eq,
          trialTurns_retry isWild, trialTurns, if_pos isWild, whole, trial, List.tail_drop]
        simp
      rw [same]
      exact Agrees.matchByte Agrees.retry retried isPart (beforeNul_drop more').1 noStar

/-- A turn of the loop is one of the turns that are left. -/
theorem Agrees.matchTurn (agrees : Agrees str mask c seen) (tracks : c.Tracks str mask) :
    match matchTurn str mask c with
    | .inl _ => leftTurns str mask c = 1
    | .inr next => (∃ seen', Agrees str mask next seen') ∧
      leftTurns str mask c = leftTurns str mask next + 1 := by
  obtain ⟨seen, agrees, same⟩ := agrees.takeStars tracks
  have taken := tracks.takeStars
  have noStar := byteAt_takeStars mask c
  rw [Chaosircd.matchTurn, same]
  generalize Chaosircd.takeStars mask c = c at agrees taken noStar
  clear same tracks
  by_cases mEnd : byteAt mask c.m = '\x00'
  · have atEnd := (byteAt_eq_nul_iff taken.m_le).mp mEnd
    have noMask : (beforeNul mask).drop c.m = [] := List.drop_eq_nil_of_le (by omega)
    have split : maskParts ((beforeNul mask).drop c.m) = [] :: [] := by
      rw [noMask]
      rfl
    rw [if_pos mEnd]
    by_cases nEnd : byteAt str c.n = '\x00'
    · have strEnd := (byteAt_eq_nul_iff taken.n_le).mp nEnd
      have trial := agrees.trialTurns_of_textEnd taken split
        (List.drop_eq_nil_of_le (by omega)) (.inr rfl)
      rw [if_pos nEnd]
      show leftTurns str mask c = 1
      rw [agrees.leftTurns_eq, trial]
      omega
    · have more := lt_of_byteAt_ne_nul taken.n_le nEnd
      rw [if_neg nEnd]
      cases isWild : c.wild with
      | true =>
          cases found : backToStar mask c.m with
          | true =>
              rw [backToStar_eq taken isWild atEnd, agrees.split, noMask,
                List.append_nil] at found
              have whole := agrees.maskParts_eq split
              rw [List.append_nil] at whole
              have trial := restTurns_of_closes agrees.agree found
              show leftTurns str mask c = 1
              rw [agrees.leftTurns_eq, trialTurns, if_pos isWild, whole, trial]
              omega
          | false => exact agrees.matchByte_retry taken isWild atEnd more found
      | false =>
          have trial := agrees.trialTurns_of_tame taken isWild split (.inr rfl)
          have one : leftTurns str mask c = 1 := by
            rw [agrees.leftTurns_eq, trial, agreeing_nil]
            omega
          cases backToStar mask c.m with
          | true => exact one
          | false => exact one
  · have inside := lt_of_byteAt_ne_nul taken.m_le mEnd
    have mRest := (beforeNul_drop inside).1
    rw [if_neg mEnd]
    by_cases nEnd : byteAt str c.n = '\x00'
    · have strEnd := (byteAt_eq_nul_iff taken.n_le).mp nEnd
      obtain ⟨part, parts, split⟩ := List.exists_cons_of_ne_nil
        (maskParts_ne_nil ((beforeNul mask).drop (c.m + 1)))
      have split' : maskParts ((beforeNul mask).drop c.m) =
          (byteAt mask c.m :: part) :: parts := by
        rw [mRest, maskParts, if_neg noStar, split]
      have trial := agrees.trialTurns_of_textEnd taken split'
        (List.drop_eq_nil_of_le (by omega)) (.inl (List.cons_ne_nil _ _))
      rw [if_pos nEnd]
      show leftTurns str mask c = 1
      rw [agrees.leftTurns_eq, trial]
      omega
    · have more := lt_of_byteAt_ne_nul taken.n_le nEnd
      rw [if_neg nEnd]
      exact agrees.matchByte taken mRest (beforeNul_drop more).1 noStar

/-- The loop has an answer exactly if the turns that are left are enough. -/
theorem Agrees.answers_iff (agrees : Agrees str mask c seen) (tracks : c.Tracks str mask)
    (calls : Nat) : Answers str mask calls c ↔ leftTurns str mask c ≤ calls := by
  induction calls generalizing c seen with
  | zero =>
      have turn := agrees.matchTurn tracks
      have some : 0 < leftTurns str mask c := by
        cases step : Chaosircd.matchTurn str mask c with
        | inl answer =>
            rw [step] at turn
            exact turn ▸ Nat.one_pos
        | inr next =>
            rw [step] at turn
            rw [turn.2]
            exact Nat.succ_pos _
      exact ⟨False.elim, fun none => absurd none (Nat.not_le.mpr some)⟩
  | succ calls induction =>
      have turn := agrees.matchTurn tracks
      have next := tracks.matchTurn
      rw [Answers]
      cases step : Chaosircd.matchTurn str mask c with
      | inl answer =>
          rw [step] at turn
          simp only [true_iff]
          omega
      | inr after =>
          rw [step] at turn next
          obtain ⟨⟨seen', agrees'⟩, count⟩ := turn
          simp only [induction agrees' next]
          omega

end Trial

/-- The turns that `str_match` takes. -/
theorem decides_iff_maskTurns (str mask : CString) :
    Decides str mask ↔ maskTurns (beforeNul mask) (beforeNul str) ≤ 512 :=
  Agrees.answers_iff (⟨rfl, rfl, nofun, agreeing_nil _⟩ : Agrees str mask ⟨0, 0, 0, 0, false⟩ [])
    (MatchCursor.tracks_start str mask) 512

/-! ## Masks of channels -/

/-- The 512 turns are enough for the mask and the text. -/
def InBudget (str mask : CString) : Prop :=
  maskTurns (beforeNul mask) (beforeNul str) ≤ 512

instance (str mask : CString) : Decidable (InBudget str mask) :=
  inferInstanceAs (Decidable (_ ≤ _))

instance (str mask : CString) : Decidable (MaskFits str mask) :=
  inferInstanceAs (Decidable (Fits _ _ _))

theorem matchAnswer_inBudget_iff (str mask : CString) :
    (∃ answer, matchAnswer str mask = some answer ∧ (answer = true ↔ MaskFits str mask)) ↔
      InBudget str mask := by
  rw [InBudget, ← decides_iff_maskTurns, decides_iff]
  constructor
  · rintro ⟨answer, answered, -⟩
    exact ⟨answer, answered⟩
  · rintro ⟨answer, answered⟩
    exact ⟨answer, answered, matchAnswer_iff answered⟩

theorem matchAnswer_eq_none {str mask : CString} (beyond : ¬ InBudget str mask) :
    matchAnswer str mask = none := by
  cases answered : matchAnswer str mask with
  | none => rfl
  | some answer =>
      exact absurd ((matchAnswer_inBudget_iff str mask).mp ⟨answer, answered, matchAnswer_iff answered⟩)
        beyond

end Chaosircd
