import Mathlib.Data.List.Basic

/-!
# Statements that are put together from pieces

A statement in SQL is read by characters: outside of quotes, inside a quoted form, behind a
backslash, or behind a quote that closes the form unless it is doubled.  A backslash means
nothing in a name in back quotes.

A program writes some pieces of a statement itself and fills in others.  The pieces that are
filled in are *contained* when each of them stands inside one quoted form and does not end
it.  What is left of a contained statement without the contents of its quoted forms, its
*skeleton*, is then the same for whatever is filled in.
-/

namespace Chaosircd

namespace SqlText

/-! ## The reader -/

/-- Where the reader of a statement stands. -/
inductive LexState where
  | code
  | inside (quote : Char)
  | escaped (quote : Char)
  | closing (quote : Char)
  deriving DecidableEq

/-- The characters that open a quoted form. -/
def isQuote (c : Char) : Bool :=
  c = '\'' || c = '"' || c = '`'

/-- A character that is read outside of quotes. -/
def readCode (c : Char) : LexState :=
  if isQuote c then .inside c else .code

/-- One character is read. -/
def lexStep : LexState → Char → LexState
  | .code, c => readCode c
  | .inside quote, c =>
      if c = quote then .closing quote
      else if c = '\\' ∧ quote ≠ '`' then .escaped quote
      else .inside quote
  | .escaped quote, _ => .inside quote
  | .closing quote, c => if c = quote then .inside quote else readCode c

/-- Where the reader stands after a text. -/
def lexRun (state : LexState) (text : List Char) : LexState :=
  text.foldl lexStep state

@[simp] theorem lexRun_nil (state : LexState) : lexRun state [] = state :=
  rfl

@[simp] theorem lexRun_cons (state : LexState) (c : Char) (text : List Char) :
    lexRun state (c :: text) = lexRun (lexStep state c) text :=
  rfl

theorem lexRun_append (state : LexState) (first rest : List Char) :
    lexRun state (first ++ rest) = lexRun (lexRun state first) rest :=
  List.foldl_append

theorem readCode_of_plain {c : Char} (plain : isQuote c = false) : readCode c = .code := by
  rw [readCode, plain, if_neg Bool.false_ne_true]

/-- A text without quotes leaves the reader outside of quotes. -/
theorem lexRun_code {text : List Char} (plain : ∀ c ∈ text, isQuote c = false) :
    lexRun .code text = .code := by
  induction text with
  | nil => rfl
  | cons c text induction =>
      rw [lexRun_cons, lexStep, readCode_of_plain (plain c List.mem_cons_self)]
      exact induction fun d member => plain d (List.mem_cons_of_mem c member)

/-! ## Texts that stay inside a quoted form -/

/-- The reader has not left the form that `quote` opened. -/
def within (quote : Char) : LexState → Bool
  | .code => false
  | .inside other | .escaped other | .closing other => other = quote

theorem within_inside (quote : Char) : within quote (.inside quote) = true :=
  decide_eq_true rfl

/-- A text is read without leaving the form, and the form is still open behind it. -/
def staysQuoted (quote : Char) : LexState → List Char → Bool
  | state, [] => state = .inside quote
  | state, c :: text => within quote (lexStep state c) && staysQuoted quote (lexStep state c) text

/-- A text that stands inside a form and stays there. -/
def staysInside (quote : Char) (text : List Char) : Bool :=
  staysQuoted quote (.inside quote) text

@[simp] theorem staysInside_nil (quote : Char) : staysInside quote [] = true :=
  decide_eq_true rfl

/-- The form is open behind a text that stays inside it. -/
theorem lexRun_of_staysQuoted {quote : Char} {state : LexState} {text : List Char}
    (stays : staysQuoted quote state text = true) : lexRun state text = .inside quote := by
  induction text generalizing state with
  | nil => exact of_decide_eq_true stays
  | cons c text induction =>
      rw [staysQuoted, Bool.and_eq_true] at stays
      exact induction stays.2

theorem lexRun_of_staysInside {quote : Char} {text : List Char}
    (stays : staysInside quote text = true) : lexRun (.inside quote) text = .inside quote :=
  lexRun_of_staysQuoted stays

/-- A text that stays inside decides nothing about what follows it. -/
theorem staysQuoted_append {quote : Char} {state : LexState} {first : List Char}
    (stays : staysQuoted quote state first = true) (rest : List Char) :
    staysQuoted quote state (first ++ rest) = staysInside quote rest := by
  induction first generalizing state with
  | nil =>
      rw [List.nil_append, of_decide_eq_true stays]
      rfl
  | cons c first induction =>
      rw [staysQuoted, Bool.and_eq_true] at stays
      rw [List.cons_append, staysQuoted, stays.1, Bool.true_and]
      exact induction stays.2

theorem staysInside_append {quote : Char} {first rest : List Char}
    (stays : staysInside quote first = true) (stays' : staysInside quote rest = true) :
    staysInside quote (first ++ rest) = true := by
  rw [staysInside, staysQuoted_append stays]
  exact stays'

/-- What is written for each character stays inside, and so does the whole. -/
theorem staysInside_flatMap {Source : Type*} {quote : Char} {escape : Source → List Char}
    (sound : ∀ c, staysInside quote (escape c) = true) (text : List Source) :
    staysInside quote (text.flatMap escape) = true := by
  induction text with
  | nil => exact staysInside_nil quote
  | cons c text induction =>
      rw [List.flatMap_cons]
      exact staysInside_append (sound c) induction

/-- A character that means nothing to the form stays inside. -/
theorem staysInside_cons {quote c : Char} (differs : c ≠ quote)
    (plain : c ≠ '\\' ∨ quote = '`') (text : List Char) :
    staysInside quote (c :: text) = staysInside quote text := by
  have step : lexStep (.inside quote) c = .inside quote := by
    rw [lexStep, if_neg differs, if_neg]
    rintro ⟨rfl, other⟩
    exact plain.elim (· rfl) other
  rw [staysInside, staysQuoted, step, within_inside, Bool.true_and]
  rfl

/-- A quote that is not doubled leaves the form. -/
theorem not_staysInside_quote {quote : Char} {text : List Char}
    (single : ∀ c ∈ text.head?, c ≠ quote) : staysInside quote (quote :: text) = false := by
  rw [staysInside, staysQuoted, lexStep, if_pos rfl]
  cases text with
  | nil => exact Bool.and_eq_false_iff.mpr (Or.inr (decide_eq_false (by nofun)))
  | cons c text =>
      have other : c ≠ quote := single c rfl
      have left : within quote (lexStep (.closing quote) c) = false := by
        rw [lexStep, if_neg other, readCode]
        split
        · exact decide_eq_false other
        · rfl
      rw [staysQuoted, left, Bool.false_and, Bool.and_false]

/-! ## Skeletons -/

/-- What a character shows of the structure of a statement. -/
def shown : LexState → Char → List Char
  | .code, c => [c]
  | .inside _, _ | .escaped _, _ => []
  | .closing quote, c => if c = quote then [] else [quote, c]

/-- What the end of a statement shows of its structure. -/
def shownEnd : LexState → List Char
  | .closing quote => [quote]
  | .code | .inside _ | .escaped _ => []

/-- A statement without the contents of its quoted forms. -/
def skeleton : LexState → List Char → List Char
  | state, [] => shownEnd state
  | state, c :: text => shown state c ++ skeleton (lexStep state c) text

theorem shown_of_within {quote : Char} {state : LexState} {c : Char}
    (stood : within quote state = true) (stands : within quote (lexStep state c) = true) :
    shown state c = [] := by
  cases state with
  | code => exact absurd stood Bool.false_ne_true
  | inside other => rfl
  | escaped other => rfl
  | closing other =>
      rw [within, decide_eq_true_eq] at stood
      subst stood
      rw [shown]
      split
      · rfl
      · rename_i differs
        rw [lexStep, if_neg differs, readCode] at stands
        split at stands
        · exact absurd (of_decide_eq_true stands) differs
        · exact absurd stands Bool.false_ne_true

/-- Nothing is shown of a text that stays inside. -/
theorem skeleton_append_of_staysQuoted {quote : Char} {state : LexState} {first : List Char}
    (stood : within quote state = true) (stays : staysQuoted quote state first = true)
    (rest : List Char) :
    skeleton state (first ++ rest) = skeleton (.inside quote) rest := by
  induction first generalizing state with
  | nil => rw [List.nil_append, of_decide_eq_true stays]
  | cons c first induction =>
      rw [staysQuoted, Bool.and_eq_true] at stays
      rw [List.cons_append, skeleton, shown_of_within stood stays.1, List.nil_append]
      exact induction stays.1 stays.2

theorem skeleton_append_inside {quote : Char} {first : List Char}
    (stays : staysInside quote first = true) (rest : List Char) :
    skeleton (.inside quote) (first ++ rest) = skeleton (.inside quote) rest :=
  skeleton_append_of_staysQuoted (within_inside quote) stays rest

/-- Behind the same text the same is shown, wherever its rests agree. -/
theorem skeleton_append_congr {state : LexState} (text : List Char) {rest rest' : List Char}
    (same : skeleton (lexRun state text) rest = skeleton (lexRun state text) rest') :
    skeleton state (text ++ rest) = skeleton state (text ++ rest') := by
  induction text generalizing state with
  | nil => exact same
  | cons c text induction =>
      rw [List.cons_append, List.cons_append, skeleton, skeleton, induction same]

/-! ## Pieces -/

/-- A piece of a statement, written by the program or filled in. -/
inductive Piece where
  | fixed (text : List Char)
  | given (text : List Char)
  deriving DecidableEq

/-- The text of a piece. -/
def Piece.text : Piece → List Char
  | .fixed text | .given text => text

/-- What is known of a piece before anything is filled in. -/
def Piece.frame : Piece → Option (List Char)
  | .fixed text => some text
  | .given _ => none

/-- The statement that pieces make up. -/
def written (pieces : List Piece) : List Char :=
  pieces.flatMap Piece.text

/-- A text that is filled in stands inside a quoted form and stays there, when there is
any. -/
def held (state : LexState) (text : List Char) : Bool :=
  text = [] || match state with
    | .inside quote => staysInside quote text
    | .code | .escaped _ | .closing _ => false

/-- Every piece that is filled in is held where it stands. -/
def Contained : LexState → List Piece → Prop
  | _, [] => True
  | state, .fixed text :: pieces => Contained (lexRun state text) pieces
  | state, .given text :: pieces =>
      held state text = true ∧ Contained (lexRun state text) pieces

instance decidableContained (state : LexState) (pieces : List Piece) :
    Decidable (Contained state pieces) := by
  induction pieces generalizing state with
  | nil => exact inferInstanceAs (Decidable True)
  | cons piece pieces induction =>
      cases piece with
      | fixed text => exact induction (lexRun state text)
      | given text => exact @instDecidableAnd _ _ _ (induction (lexRun state text))

@[simp] theorem written_nil : written [] = [] :=
  rfl

@[simp] theorem written_cons (piece : Piece) (pieces : List Piece) :
    written (piece :: pieces) = piece.text ++ written pieces :=
  List.flatMap_cons

@[simp] theorem written_append (pieces others : List Piece) :
    written (pieces ++ others) = written pieces ++ written others :=
  List.flatMap_append

@[simp] theorem contained_fixed (state : LexState) (text : List Char) (pieces : List Piece) :
    Contained state (.fixed text :: pieces) ↔ Contained (lexRun state text) pieces :=
  Iff.rfl

theorem contained_append (state : LexState) (pieces others : List Piece) :
    Contained state (pieces ++ others) ↔
      Contained state pieces ∧ Contained (lexRun state (written pieces)) others := by
  induction pieces generalizing state with
  | nil => exact Iff.symm (iff_of_eq (true_and _))
  | cons piece pieces induction =>
      rw [written_cons, lexRun_append]
      cases piece with
      | fixed text => exact induction (lexRun state text)
      | given text =>
          rw [List.cons_append, Contained, Contained, induction, and_assoc]
          rfl

theorem held_iff (quote : Char) (text : List Char) :
    held (.inside quote) text = true ↔ staysInside quote text = true := by
  rw [held, Bool.or_eq_true, decide_eq_true_eq]
  constructor
  · rintro (rfl | stays)
    · exact staysInside_nil quote
    · exact stays
  · exact Or.inr

theorem held_code_iff (text : List Char) : held .code text = true ↔ text = [] := by
  rw [held, Bool.or_false, decide_eq_true_eq]

/-- A piece inside a form that is closed behind it. -/
theorem contained_given_inside (quote : Char) (text : List Char) (pieces : List Piece) :
    Contained (.inside quote) (.given text :: pieces) ↔
      staysInside quote text = true ∧ Contained (.inside quote) pieces := by
  rw [Contained, held_iff]
  refine and_congr_right fun stays => ?_
  rw [lexRun_of_staysInside stays]

/-- A piece outside of quotes has to be empty. -/
theorem contained_given_code (text : List Char) (pieces : List Piece) :
    Contained .code (.given text :: pieces) ↔ text = [] ∧ Contained .code pieces := by
  rw [Contained, held_code_iff]
  refine and_congr_right fun empty => ?_
  rw [empty, lexRun_nil]

/-- A piece that is held shows nothing and leaves the reader where it stood. -/
theorem held_cases {state : LexState} {text : List Char} (holds : held state text = true) :
    lexRun state text = state ∧
      ∀ rest, skeleton state (text ++ rest) = skeleton state rest := by
  by_cases empty : text = []
  · subst empty
    exact ⟨rfl, fun rest => rfl⟩
  · cases state with
    | inside quote =>
        have stays := (held_iff quote text).mp holds
        exact ⟨lexRun_of_staysInside stays, skeleton_append_inside stays⟩
    | code => exact absurd ((held_code_iff text).mp holds) empty
    | escaped quote => exact absurd holds (by simp [held, empty])
    | closing quote => exact absurd holds (by simp [held, empty])

/-- Contained statements that differ in what is filled in have the same skeleton. -/
theorem skeleton_eq_of_contained {state : LexState} {pieces others : List Piece}
    (contained : Contained state pieces) (contained' : Contained state others)
    (frames : pieces.map Piece.frame = others.map Piece.frame) :
    skeleton state (written pieces) = skeleton state (written others) := by
  induction pieces generalizing state others with
  | nil => rw [List.map_eq_nil_iff.mp frames.symm]
  | cons piece pieces induction =>
      cases others with
      | nil => cases frames
      | cons other others =>
          rw [List.map_cons, List.map_cons, List.cons.injEq] at frames
          rw [written_cons, written_cons]
          cases piece with
          | fixed text =>
              cases other with
              | given text' => exact absurd frames.1 (by nofun)
              | fixed text' =>
                  have equal : text = text' := Option.some.inj frames.1
                  subst equal
                  exact skeleton_append_congr text (induction contained contained' frames.2)
          | given text =>
              cases other with
              | fixed text' => exact absurd frames.1 (by nofun)
              | given text' =>
                  have silent := held_cases contained.1
                  have silent' := held_cases contained'.1
                  have rest := contained.2
                  have rest' := contained'.2
                  rw [silent.1] at rest
                  rw [silent'.1] at rest'
                  rw [Piece.text, Piece.text, silent.2, silent'.2]
                  exact induction rest rest' frames.2

/-! ## Joined pieces -/

section Join

variable {Source : Type*}

/-- Pieces for each of some values, with a separator between them. -/
def joinPieces (sep : List Char) (item : Source → List Piece) : Bool → List Source → List Piece
  | _, [] => []
  | first, value :: values =>
      .fixed (if first then [] else sep) :: (item value ++ joinPieces sep item false values)

variable {sep : List Char} {item : Source → List Piece}

/-- A quoted form is closed behind its quote. -/
theorem lexRun_quoted {quote : Char} {front text : List Char}
    (opened : lexRun .code front = .inside quote) (stays : staysInside quote text = true) :
    lexRun .code (front ++ (text ++ [quote])) = .closing quote := by
  rw [lexRun_append, opened, lexRun_append, lexRun_of_staysInside stays]
  exact if_pos rfl

/-- Joined pieces are contained when those of each value are, where each value ends with a
quoted form and what follows them is read as it is outside of quotes. -/
theorem contained_join {quote : Char} {Good : Source → Prop} {text : List Char}
    (each : ∀ value, Contained .code (item value) ↔ Good value)
    (ends : ∀ value, Good value → lexRun .code (written (item value)) = .closing quote)
    (parts : lexRun (.closing quote) sep = .code)
    (follows : lexRun (.closing quote) text = lexRun .code text)
    (first : Bool) (values : List Source) (rest : List Piece) :
    Contained (if first then .code else .closing quote)
        (joinPieces sep item first values ++ .fixed text :: rest) ↔
      (∀ value ∈ values, Good value) ∧ Contained (lexRun .code text) rest := by
  induction values generalizing first with
  | nil =>
      have same : lexRun (if first then .code else .closing quote) text = lexRun .code text := by
        cases first with
        | true => rfl
        | false => exact follows
      rw [joinPieces, List.nil_append, contained_fixed, same]
      simp
  | cons value values induction =>
      have outside : lexRun (if first then .code else .closing quote)
          (if first then [] else sep) = .code := by
        cases first with
        | true => rfl
        | false => exact parts
      rw [joinPieces, List.cons_append, contained_fixed, outside, List.append_assoc,
        contained_append, each, List.forall_mem_cons, and_assoc]
      refine and_congr_right fun good => ?_
      rw [ends value good]
      exact induction false

/-- Values whose pieces look alike are joined to pieces that look alike. -/
theorem joinPieces_frames {values others : List Source}
    (alike : List.Forall₂ (fun value other => (item value).map Piece.frame =
      (item other).map Piece.frame) values others) (first : Bool) :
    (joinPieces sep item first values).map Piece.frame =
      (joinPieces sep item first others).map Piece.frame := by
  induction alike generalizing first with
  | nil => rfl
  | cons same alike induction =>
      rw [joinPieces, joinPieces, List.map_cons, List.map_cons, List.map_append,
        List.map_append, same, induction false]

end Join

end SqlText

end Chaosircd
