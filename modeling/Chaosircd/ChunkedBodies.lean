import Chaosircd.HttpResponses

/-!
# Bodies in chunks

A body in chunks is a row of sizes in hexadecimal digits, each on a line with its extensions and
before as many bytes, up to a size of zero.  When it is read, it comes out whole, whatever the
pieces are that the response arrived in.
-/

namespace Chaosircd

namespace HttpResponses

open NumeralBases

/-- A chunk as a server writes it. -/
structure Chunk where
  digits : CString
  extension : CString
  payload : List Char
  isDigits : ∀ c ∈ digits, digit c < 16
  first : digits ≠ []
  room : digits.length ≤ 31
  ends : ∀ c ∈ extension.head?, c = ';' ∨ c = ' '
  oneLine : '\n' ∉ extension
  size : numeral 16 digits = payload.length
  fits : payload.length < 2 ^ 64
  some : payload ≠ []

/-- The line before a chunk. -/
def Chunk.head (chunk : Chunk) : List Char :=
  chunk.digits ++ (chunk.extension ++ ['\r'])

/-- The text of a chunk. -/
def Chunk.code (chunk : Chunk) : List Char :=
  chunk.head ++ '\n' :: (chunk.payload ++ ['\r', '\n'])

/-- The text of a body, with what may be behind the last size. -/
def chunkedText (chunks : List Chunk) (trailer : List Char) : List Char :=
  chunks.flatMap Chunk.code ++ '0' :: '\r' :: '\n' :: trailer

variable {digits text : CString} {base v w : Nat}

/-! ## Lines -/

theorem line_append_cons (front rest : List Char) (oneLine : '\n' ∉ front) :
    Fifo.line '\n' (front ++ '\n' :: rest) = front ++ ['\n'] := by
  have more : '\n' ∈ front ++ '\n' :: rest := by simp
  rw [Fifo.line, if_pos more, List.idxOf_append_of_notMem oneLine, List.idxOf_cons_self,
    Nat.add_zero, List.take_length_add_append]
  rfl

theorem behindLine_append_cons (front rest : List Char) (oneLine : '\n' ∉ front) :
    behindLine (front ++ '\n' :: rest) = rest := by
  have split : front ++ '\n' :: rest = front ++ ['\n'] ++ rest := by simp
  rw [behindLine, line_append_cons front rest oneLine, split, List.drop_left]

/-! ## Sizes -/

/-- A character behind the digits of a size. -/
def Stops (c : Char) : Prop :=
  c = ';' ∨ c = ' ' ∨ c = '\r'

theorem Stops.not_digit {c : Char} (stops : Stops c) :
    16 ≤ digitValue c ∧ c ≠ 'x' ∧ c ≠ 'X' := by
  rcases stops with rfl | rfl | rfl
  · decide
  · decide
  · decide

/-- The digits are read up to where they stop. -/
theorem strToulDigits_stops (stops : ∀ c ∈ text.head?, base ≤ digitValue c)
    (read : strToulDigits base v digits = some (w, [])) :
    strToulDigits base v (digits ++ text) = some (w, text) := by
  induction digits generalizing v with
  | nil =>
      cases read
      cases text with
      | nil => rfl
      | cons c text => exact if_pos (stops c rfl)
  | cons c digits ih =>
      rw [strToulDigits] at read
      rw [List.cons_append, strToulDigits]
      by_cases none : base ≤ digitValue c
      · rw [if_pos none] at read
        cases read
      rw [if_neg none] at read ⊢
      dsimp only at read ⊢
      split at read
      case isTrue => cases read
      case isFalse fits =>
        rw [if_neg fits]
        exact ih read

theorem findBase_stops (isDigits : ∀ c ∈ digits, digit c < 16) (first : digits ≠ [])
    (stops : ∀ c ∈ text.head?, Stops c) : findBase 16 (digits ++ text) = (16, digits ++ text) := by
  have second : (digits ++ text)[1]? ≠ some 'x' ∧ (digits ++ text)[1]? ≠ some 'X' := by
    cases digits with
    | nil => exact absurd rfl first
    | cons c digits =>
        rw [List.cons_append, List.getElem?_cons_succ, ← List.head?_eq_getElem?]
        cases digits with
        | nil =>
            rw [List.nil_append]
            exact ⟨fun same => (stops _ same).not_digit.2.1 rfl,
              fun same => (stops _ same).not_digit.2.2 rfl⟩
        | cons d digits =>
            have isDigit := isDigits d (List.mem_cons_of_mem _ List.mem_cons_self)
            rw [List.cons_append, List.head?_cons]
            constructor
            · intro same
              cases Option.some.inj same
              exact absurd isDigit (by decide)
            · intro same
              cases Option.some.inj same
              exact absurd isDigit (by decide)
  rw [findBase, skip0x, if_neg (not_or.mpr second)]
  split
  · rfl
  · exact if_neg (by decide)

/-- A size is read from its digits. -/
theorem strToul_stops (isDigits : ∀ c ∈ digits, digit c < 16) (first : digits ≠ [])
    (fits : numeral 16 digits < 2 ^ 64) (stops : ∀ c ∈ text.head?, Stops c) :
    (NumeralBases.strToul 16 (digits ++ text)).value = numeral 16 digits := by
  have starts : ∀ c ∈ (digits ++ text).head?, digit c < 36 := by
    intro c isFirst
    cases digits with
    | nil => exact absurd rfl first
    | cons d digits =>
        have same : d = c := Option.some.inj isFirst
        rw [← same]
        exact Nat.lt_of_lt_of_le (isDigits d List.mem_cons_self) (by decide)
  obtain ⟨blanks, minus, skipMinus, skipPlus⟩ := unskipped starts
  have read : strToulDigits 16 0 digits = some (numeral 16 digits, []) := by
    rw [strToulDigits_zero (by decide) isDigits, if_neg (not_caught (by decide) fits),
      Nat.mod_eq_of_lt fits]
  have whole := strToulDigits_stops (fun c isFirst => (stops c isFirst).not_digit.1) read
  rw [NumeralBases.strToul, blanks, skipMinus, skipPlus, findBase_stops isDigits first stops]
  dsimp only
  rw [whole]
  simp only [minus, if_false]

/-! ## The text of a body -/

theorem Chunk.oneLine_head (chunk : Chunk) : '\n' ∉ chunk.head := by
  rw [Chunk.head, List.mem_append, List.mem_append]
  rintro (inDigits | inExtension | inEnd)
  · exact absurd (chunk.isDigits _ inDigits) (by decide)
  · exact chunk.oneLine inExtension
  · exact absurd inEnd (by decide)

/-- What is behind the digits in the buffer of the line. -/
theorem Chunk.lineText_code (chunk : Chunk) (rest : List Char) :
    ∃ text, lineText (chunk.code ++ rest) 32 = chunk.digits ++ text ∧
      ∀ c ∈ text.head?, Stops c := by
  have whole : chunk.code ++ rest =
      chunk.head ++ '\n' :: (chunk.payload ++ ['\r', '\n'] ++ rest) := by
    rw [Chunk.code, List.append_assoc, List.cons_append]
  have digitsPlain : ∀ c ∈ chunk.digits, decide (c ≠ '\x00') = true := by
    intro c member
    rw [decide_eq_true_eq]
    rintro rfl
    exact absurd (chunk.isDigits _ member) (by decide)
  refine ⟨((chunk.extension ++ ['\r'] ++ ['\n']).take (31 - chunk.digits.length)).takeWhile
    (· ≠ '\x00'), ?_, ?_⟩
  · rw [lineText, whole, line_append_cons _ _ chunk.oneLine_head, Chunk.head, List.append_assoc,
      List.take_append, List.take_of_length_le chunk.room, beforeNul,
      List.takeWhile_append_of_pos digitsPlain]
  · intro c isFirst
    have inLine : c ∈ (chunk.extension ++ ['\r'] ++ ['\n']).head? := by
      generalize chunk.extension ++ ['\r'] ++ ['\n'] = line at isFirst ⊢
      cases line with
      | nil => simp at isFirst
      | cons d line =>
          cases room : 31 - chunk.digits.length with
          | zero =>
              rw [room] at isFirst
              cases isFirst
          | succ n =>
              rw [room, List.take_succ_cons, List.takeWhile_cons] at isFirst
              split at isFirst
              · exact isFirst
              · cases isFirst
    cases ext : chunk.extension with
    | nil =>
        rw [ext] at inLine
        cases Option.some.inj inLine
        exact .inr (.inr rfl)
    | cons d extension =>
        rw [ext] at inLine
        have same : d = c := Option.some.inj inLine
        have ends := chunk.ends d (by rw [ext]; rfl)
        rw [← same]
        rcases ends with semicolon | blank
        · exact .inl semicolon
        · exact .inr (.inl blank)

theorem Chunk.chunkSize_code (chunk : Chunk) (rest : List Char) :
    chunkSize (chunk.code ++ rest) = chunk.payload.length := by
  obtain ⟨text, same, stops⟩ := chunk.lineText_code rest
  rw [chunkSize, same, ← chunk.size]
  exact strToul_stops chunk.isDigits chunk.first (chunk.size ▸ chunk.fits) stops

/-- A coded body is the text of what its chunks hold. -/
theorem chunkText_chunkedText (chunks : List Chunk) (trailer : List Char) :
    ChunkText (chunkedText chunks trailer) (chunks.flatMap Chunk.payload) := by
  induction chunks with
  | nil =>
      apply ChunkText.last
      · simp [chunkedText]
      · left
        have zero : '0' :: '\r' :: '\n' :: trailer = ['0', '\r'] ++ '\n' :: trailer := rfl
        rw [chunkedText, List.flatMap_nil, List.nil_append, chunkSize, lineText, zero,
          line_append_cons ['0', '\r'] trailer (by decide)]
        decide
  | cons chunk chunks ih =>
      have whole : chunkedText (chunk :: chunks) trailer =
          chunk.code ++ chunkedText chunks trailer := by
        rw [chunkedText, List.flatMap_cons, List.append_assoc, chunkedText]
      have behind : behindLine (chunk.code ++ chunkedText chunks trailer) =
          chunk.payload ++ (['\r'] ++ '\n' :: chunkedText chunks trailer) := by
        rw [Chunk.code, List.append_assoc, List.cons_append,
          behindLine_append_cons _ _ chunk.oneLine_head, List.append_assoc]
        rfl
      have size := chunk.chunkSize_code (chunkedText chunks trailer)
      have later : behindLine ((behindLine (chunk.code ++ chunkedText chunks trailer)).drop
          (chunkSize (chunk.code ++ chunkedText chunks trailer))) =
            chunkedText chunks trailer := by
        rw [behind, size, List.drop_left, behindLine_append_cons _ _ (by decide)]
      have text := @ChunkText.chunk (chunk.code ++ chunkedText chunks trailer)
        (chunks.flatMap Chunk.payload) (by simp [Chunk.code])
        (by rw [size]; exact fun none => chunk.some (List.length_eq_zero_iff.mp none))
        (by rw [size, behind, List.length_append]; omega) (by rw [later]; exact ih)
      rw [behind, size, List.take_left] at text
      rw [whole, List.flatMap_cons]
      exact text

/-- A body in chunks is collected whole, whatever the pieces of the response, when the
connection ends with an error. -/
theorem session_chunkedText (chunks : List Chunk) (trailer : List Char)
    (cuts : List (List Char)) (last : List Char)
    (status : (behindHeader cuts).1.status = .data)
    (chunked : (behindHeader cuts).1.chunked = true)
    (body : (behindHeader cuts).2 ++ last = chunkedText chunks trailer) :
    ∃ turns c, session turns cuts last true = .ok c ∧
      c.hcptr.data = chunks.flatMap Chunk.payload := by
  rw [session_collects last status, BodyText, if_pos chunked, body]
  exact chunkText_chunkedText chunks trailer

/-- A chunk of two letters. -/
def smallChunk : Chunk where
  digits := ['2']
  extension := []
  payload := ['h', 'i']
  isDigits := fun c member => by
    rw [List.mem_singleton.mp member]
    decide
  first := by decide
  room := by decide
  ends := fun _ first => by cases first
  oneLine := by decide
  size := by decide
  fits := by decide
  some := by decide

/-- The header of a body in chunks, behind the line of the status. -/
def chunkedHeader : List Char :=
  transferEncoding ++ [':', ' ', 'c', 'h', 'u', 'n', 'k', 'e', 'd', '\r', '\n']

/-- What is kept of a response in chunks. -/
def chunkedResponse : Httpc :=
  ⟨.data, true, [(transferEncoding, ['c', 'h', 'u', 'n', 'k', 'e', 'd'])], [], 0, 0⟩

theorem behindHeader_chunked :
    behindHeader [chunkedHeader, ['\r', '\n']] = (chunkedResponse, []) := by
  have field : readHeader Httpc.requested.started (chunkedHeader ++ ['\r', '\n']) =
      readHeader { Httpc.requested.started with header := chunkedResponse.header }
        ['\r', '\n'] := by
    rw [readHeader, dif_pos ⟨by decide, rfl⟩]
    rfl
  have ends : readHeader { Httpc.requested.started with header := chunkedResponse.header }
      ['\r', '\n'] = readHeader chunkedResponse [] := by
    rw [readHeader, dif_pos ⟨by decide, rfl⟩]
    rfl
  rw [behindHeader, List.flatten_cons, List.flatten_cons, List.flatten_nil, List.append_nil, field,
    ends, readHeader, dif_neg (by simp)]

theorem session_chunkedText_small :
    ∃ turns c,
      session turns [chunkedHeader, ['\r', '\n']] (chunkedText [smallChunk] ['\r', '\n']) true =
          .ok c ∧
        c.hcptr.data = [smallChunk].flatMap Chunk.payload :=
  session_chunkedText [smallChunk] ['\r', '\n'] _ _ (by rw [behindHeader_chunked]; rfl)
    (by rw [behindHeader_chunked]; rfl) (by rw [behindHeader_chunked]; rfl)

end HttpResponses

end Chaosircd
