import Mathlib.Data.List.Infix

/-!
# Wildcard patterns

A pattern is a list of tokens.  `many` stands for any run of letters; a token
`one s` stands for a single letter, and which letters those are is a relation
between the shapes `s` and the letters.  A text fits a pattern when its letters
can be dealt out to the tokens in order.

The letters of the text may themselves be tokens.  A pattern that another one
fits so that no `many` of the second falls to a `one` of the first stands for
every text the second stands for.
-/

namespace Chaosircd

namespace Wildcards

/-- A token of a pattern over shapes of single letters. -/
inductive Token (σ : Type*) where
  | many
  | one (shape : σ)
  deriving DecidableEq

variable {σ τ β : Type*}

/-- The letters of the text can be dealt out to the tokens of the pattern. -/
def Fits (allows : σ → β → Prop) : List (Token σ) → List β → Prop
  | [], text => text = []
  | .many :: pattern, text => ∃ rest ∈ text.tails, Fits allows pattern rest
  | .one _ :: _, [] => False
  | .one shape :: pattern, b :: text => allows shape b ∧ Fits allows pattern text

/-- A token of a text stands for one letter that the shape allows. -/
def Within (allows : σ → τ → Prop) (shape : σ) : Token τ → Prop
  | .many => False
  | .one other => allows shape other

/-- The second pattern fits the first without a `many` that falls to a `one`. -/
def Covers (allows : σ → τ → Prop) (general : List (Token σ)) (special : List (Token τ)) :
    Prop :=
  Fits (Within allows) general special

/-! ## Evaluation -/

/-- Every suffix of the text is tried for a `many`. -/
def decideFits (allows : σ → β → Prop) [∀ shape b, Decidable (allows shape b)] :
    ∀ pattern text, Decidable (Fits allows pattern text)
  | [], [] => .isTrue rfl
  | [], _ :: _ => .isFalse nofun
  | .many :: pattern, text =>
    have := decideFits allows pattern
    inferInstanceAs (Decidable (∃ rest ∈ text.tails, Fits allows pattern rest))
  | .one _ :: _, [] => .isFalse id
  | .one shape :: pattern, b :: text =>
    have := decideFits allows pattern text
    inferInstanceAs (Decidable (allows shape b ∧ Fits allows pattern text))

instance (allows : σ → β → Prop) [∀ shape b, Decidable (allows shape b)]
    (pattern : List (Token σ)) (text : List β) : Decidable (Fits allows pattern text) :=
  decideFits allows pattern text

instance (allows : σ → τ → Prop) [∀ shape other, Decidable (allows shape other)] (shape : σ) :
    ∀ token, Decidable (Within allows shape token)
  | .many => .isFalse id
  | .one other => inferInstanceAs (Decidable (allows shape other))

instance (allows : σ → τ → Prop) [∀ shape other, Decidable (allows shape other)]
    (general : List (Token σ)) (special : List (Token τ)) :
    Decidable (Covers allows general special) :=
  inferInstanceAs (Decidable (Fits _ _ _))

/-! ## One token at a time -/

section Fits

variable {allows : σ → β → Prop} {pattern : List (Token σ)} {text : List β} {shape : σ} {b : β}

@[simp]
theorem fits_nil : Fits allows [] text ↔ text = [] := by
  rw [Fits]

theorem fits_many : Fits allows (.many :: pattern) text ↔
    ∃ rest, rest <:+ text ∧ Fits allows pattern rest := by
  simp only [Fits, List.mem_tails]

@[simp]
theorem not_fits_one_nil : ¬ Fits allows (.one shape :: pattern) [] :=
  id

@[simp]
theorem fits_one_cons : Fits allows (.one shape :: pattern) (b :: text) ↔
    allows shape b ∧ Fits allows pattern text :=
  Iff.rfl

theorem fits_many_of_suffix {rest : List β} (suffix : rest <:+ text)
    (fits : Fits allows (.many :: pattern) rest) : Fits allows (.many :: pattern) text := by
  rw [fits_many] at fits ⊢
  obtain ⟨last, behind, fits⟩ := fits
  exact ⟨last, behind.trans suffix, fits⟩

/-- A run of `many` stands for as much as one of them. -/
theorem fits_many_many : Fits allows (.many :: .many :: pattern) text ↔
    Fits allows (.many :: pattern) text := by
  rw [fits_many]
  constructor
  · intro ⟨rest, suffix, fits⟩
    exact fits_many_of_suffix suffix fits
  · intro fits
    exact ⟨text, List.suffix_rfl, fits⟩

/-- The texts of a pattern cut in two are cut in two as well. -/
theorem fits_append {front back : List (Token σ)} :
    Fits allows (front ++ back) text ↔
      ∃ first second, text = first ++ second ∧ Fits allows front first ∧
        Fits allows back second := by
  induction front generalizing text with
  | nil =>
      constructor
      · intro fits
        exact ⟨[], text, rfl, rfl, fits⟩
      · intro ⟨first, second, isText, isNil, fits⟩
        rw [fits_nil] at isNil
        rw [isText, isNil]
        exact fits
  | cons token front induction =>
      cases token with
      | many =>
          rw [List.cons_append, fits_many]
          constructor
          · intro ⟨rest, ⟨taken, isText⟩, fits⟩
            obtain ⟨first, second, isRest, fitsFirst, fitsSecond⟩ := induction.mp fits
            have fitsTaken : Fits allows (.many :: front) (taken ++ first) :=
              fits_many.mpr ⟨first, List.suffix_append taken first, fitsFirst⟩
            refine ⟨taken ++ first, second, ?_, fitsTaken, fitsSecond⟩
            rw [← isText, isRest, List.append_assoc]
          · intro ⟨first, second, isText, fitsFirst, fitsSecond⟩
            obtain ⟨rest, ⟨taken, isFirst⟩, fitsRest⟩ := fits_many.mp fitsFirst
            have behind : rest ++ second <:+ text :=
              ⟨taken, by rw [isText, ← isFirst, List.append_assoc]⟩
            exact ⟨rest ++ second, behind, induction.mpr ⟨rest, second, rfl, fitsRest, fitsSecond⟩⟩
      | one shape =>
          cases text with
          | nil =>
              constructor
              · intro fits
                exact fits.elim
              · intro ⟨first, second, isText, fitsFirst, _⟩
                rw [(List.append_eq_nil_iff.mp isText.symm).1] at fitsFirst
                exact fitsFirst.elim
          | cons b text =>
              rw [List.cons_append, fits_one_cons, induction]
              constructor
              · intro ⟨allowed, first, second, isText, fitsFirst, fitsSecond⟩
                exact ⟨b :: first, second, by rw [isText, List.cons_append],
                  ⟨allowed, fitsFirst⟩, fitsSecond⟩
              · intro ⟨first, second, isText, fitsFirst, fitsSecond⟩
                cases first with
                | nil => exact fitsFirst.elim
                | cons c first =>
                    rw [List.cons_append, List.cons.injEq] at isText
                    rw [isText.1]
                    exact ⟨fitsFirst.1, first, second, isText.2, fitsFirst.2, fitsSecond⟩

/-- A shape that allows one letter only falls where that letter stands. -/
theorem fits_append_one {front back : List (Token σ)} {first second : List β}
    (only : ∀ c, allows shape c → c = b) (notFirst : b ∉ first) (notSecond : b ∉ second)
    (fits : Fits allows (front ++ .one shape :: back) (first ++ b :: second)) :
    Fits allows front first ∧ Fits allows back second := by
  obtain ⟨ahead, behind, isText, fitsAhead, fitsBehind⟩ := fits_append.mp fits
  cases behind with
  | nil => exact fitsBehind.elim
  | cons c behind =>
      rw [fits_one_cons] at fitsBehind
      rw [only c fitsBehind.1, List.append_cons_inj_of_notMem notFirst notSecond] at isText
      rw [isText.1, isText.2.2]
      exact ⟨fitsAhead, fitsBehind.2⟩

/-- The letters of a text may be replaced where what falls to a `one` stays allowed. -/
theorem Fits.map {γ : Type*} {also : σ → γ → Prop} {replace : β → γ}
    (stays : ∀ shape b, .one shape ∈ pattern → b ∈ text → allows shape b →
      also shape (replace b))
    (fits : Fits allows pattern text) : Fits also pattern (text.map replace) := by
  induction pattern generalizing text with
  | nil =>
      rw [fits_nil] at fits ⊢
      rw [fits, List.map_nil]
  | cons first pattern induction =>
      cases first with
      | many =>
          obtain ⟨rest, suffix, fits⟩ := fits_many.mp fits
          have behind := induction (fun shape b token inRest =>
            stays shape b (List.mem_cons_of_mem _ token) (suffix.mem inRest)) fits
          exact fits_many.mpr ⟨rest.map replace, suffix.map replace, behind⟩
      | one shape =>
          cases text with
          | nil => exact fits.elim
          | cons b text =>
              exact ⟨stays shape b List.mem_cons_self List.mem_cons_self fits.1,
                induction (fun other c token inText =>
                  stays other c (List.mem_cons_of_mem _ token) (List.mem_cons_of_mem b inText))
                  fits.2⟩

/-- Every `one` of a pattern falls to a letter it allows. -/
theorem Fits.exists_mem (fits : Fits allows pattern text) (token : .one shape ∈ pattern) :
    ∃ c ∈ text, allows shape c := by
  induction pattern generalizing text with
  | nil => exact absurd token List.not_mem_nil
  | cons first pattern induction =>
      cases first with
      | many =>
          obtain ⟨rest, suffix, fits⟩ := fits_many.mp fits
          rcases List.mem_cons.mp token with isMany | behind
          · exact nomatch isMany
          · obtain ⟨c, found, allowed⟩ := induction fits behind
            exact ⟨c, suffix.mem found, allowed⟩
      | one other =>
          cases text with
          | nil => exact fits.elim
          | cons b text =>
              rcases List.mem_cons.mp token with isOther | behind
              · rw [Token.one.injEq] at isOther
                rw [isOther]
                exact ⟨b, List.mem_cons_self, fits.1⟩
              · obtain ⟨c, found, allowed⟩ := induction fits.2 behind
                exact ⟨c, List.mem_cons_of_mem b found, allowed⟩

end Fits

/-! ## One pattern along another -/

section Covers

variable {allows : σ → τ → Prop} {inner : τ → β → Prop} {outer : σ → β → Prop}

/-- What a pattern covers stands for fewer texts. -/
theorem Covers.fits {general : List (Token σ)} {special : List (Token τ)} {text : List β}
    (through : ∀ {shape other b}, allows shape other → inner other b → outer shape b)
    (covers : Covers allows general special) (fits : Fits inner special text) :
    Fits outer general text := by
  induction general generalizing special text with
  | nil =>
      rw [Covers, fits_nil] at covers
      rw [covers] at fits
      exact fits
  | cons token general induction =>
      cases token with
      | many =>
          obtain ⟨rest, ⟨taken, isSpecial⟩, covers⟩ := fits_many.mp covers
          rw [← isSpecial, fits_append] at fits
          obtain ⟨first, second, isText, _, fits⟩ := fits
          rw [fits_many]
          exact ⟨second, ⟨first, isText.symm⟩, induction covers fits⟩
      | one shape =>
          cases special with
          | nil => exact covers.elim
          | cons other special =>
              obtain ⟨within, covers⟩ := covers
              cases other with
              | many => exact within.elim
              | one other =>
                  cases text with
                  | nil => exact fits.elim
                  | cons b text => exact ⟨through within fits.1, induction covers fits.2⟩

end Covers

/-! ## Runs of wildcards -/

section Canonical

/-- A `many` in front of a pattern goes behind the tokens there that allow every letter, and is
dropped before another one. -/
def pushMany (every : σ → Bool) : List (Token σ) → List (Token σ)
  | [] => [.many]
  | .many :: pattern => .many :: pattern
  | .one shape :: pattern =>
    if every shape then .one shape :: pushMany every pattern
    else .many :: .one shape :: pattern

/-- In each run of wildcards the single letters come first, and then one `many` at most. -/
def canonical (every : σ → Bool) : List (Token σ) → List (Token σ)
  | [] => []
  | .many :: pattern => pushMany every (canonical every pattern)
  | .one shape :: pattern => .one shape :: canonical every pattern

variable {allows : σ → β → Prop} {every : σ → Bool}

theorem fits_pushMany (isEvery : ∀ shape, every shape = true → ∀ b, allows shape b)
    (pattern : List (Token σ)) (text : List β) :
    Fits allows (pushMany every pattern) text ↔ Fits allows (.many :: pattern) text := by
  induction pattern generalizing text with
  | nil => exact Iff.rfl
  | cons token pattern ih =>
      cases token with
      | many => exact fits_many_many.symm
      | one shape =>
          rw [pushMany]
          split
          case isFalse => exact Iff.rfl
          case isTrue all =>
            have free := isEvery shape all
            cases text with
            | nil =>
                refine iff_of_false not_fits_one_nil ?_
                rw [fits_many]
                rintro ⟨rest, suffix, fits⟩
                rw [List.suffix_nil.mp suffix] at fits
                exact not_fits_one_nil fits
            | cons b text =>
                rw [fits_one_cons, ih, fits_many, fits_many]
                constructor
                · rintro ⟨-, rest, ⟨taken, rfl⟩, fits⟩
                  -- The letter before what is left falls to the token.
                  obtain ⟨front, x, cut⟩ := (⟨_, _, (List.dropLast_append_getLast (List.cons_ne_nil b taken)).symm⟩ :
                    ∃ front x, b :: taken = front ++ [x])
                  refine ⟨x :: rest, ⟨front, ?_⟩, free x, fits⟩
                  rw [← List.cons_append, cut, List.append_assoc, List.singleton_append]
                · rintro ⟨rest, suffix, fits⟩
                  cases rest with
                  | nil => exact absurd fits not_fits_one_nil
                  | cons c rest =>
                      refine ⟨free b, rest, ?_, fits.2⟩
                      rcases List.suffix_cons_iff.mp suffix with same | behind
                      · rw [(List.cons.inj same).2]
                      · exact (List.suffix_cons c rest).trans behind

theorem fits_canonical (isEvery : ∀ shape, every shape = true → ∀ b, allows shape b)
    (pattern : List (Token σ)) (text : List β) :
    Fits allows (canonical every pattern) text ↔ Fits allows pattern text := by
  induction pattern generalizing text with
  | nil => exact Iff.rfl
  | cons token pattern ih =>
      cases token with
      | many =>
          rw [canonical, fits_pushMany isEvery, fits_many, fits_many]
          simp only [ih]
      | one shape =>
          cases text with
          | nil => exact Iff.rfl
          | cons b text => rw [canonical, fits_one_cons, fits_one_cons, ih]

end Canonical

end Wildcards

end Chaosircd
