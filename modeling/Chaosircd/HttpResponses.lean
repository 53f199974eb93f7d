import Chaosircd.Fifo
import Chaosircd.Loops
import Chaosircd.NumeralBases
import Chaosircd.StrMatch
import Chaosircd.Tokenize

/-!
# Responses

`httpc_recv` is called whenever something has arrived on a connection.  It takes the header off
the receive queue line by line, and leaves everything behind it there until the connection is
marked with an error; then it reads the body, by chunks or as many bytes as the header says.
-/

namespace Chaosircd

namespace HttpResponses

open Loops

/-! ## The header -/

/-- The states of a request. -/
inductive Status where
  | idle
  | connecting
  | sent
  | header
  | data
  | done
  deriving DecidableEq

/-- What `struct httpc` keeps of a response; the fields of the header have a name and a
value. -/
structure Httpc where
  status : Status
  chunked : Bool
  header : List (CString × CString)
  data : List Char
  dataLength : Nat
  chunkLength : Nat
  deriving DecidableEq

/-- `httpc_header_find`, which compares hashes only. -/
def httpcHeaderFind (header : List (CString × CString)) (name : CString) :
    Option (CString × CString) :=
  header.find? fun hvptr => strHash hvptr.1 == strHash name

/-- `httpc_header_set`. -/
def httpcHeaderSet (header : List (CString × CString)) (name value : CString) :
    List (CString × CString) :=
  let var := strlcpy name 64
  match header.findIdx? fun hvptr => strHash hvptr.1 == strHash var with
  | none => header ++ [(var, strlcpy value 128)]
  | some i => header.modify i fun hvptr => (hvptr.1, strlcpy value 128)

def transferEncoding : CString :=
  ['T', 'r', 'a', 'n', 's', 'f', 'e', 'r', '-', 'E', 'n', 'c', 'o', 'd', 'i', 'n', 'g']

def contentLength : CString :=
  ['C', 'o', 'n', 't', 'e', 'n', 't', '-', 'l', 'e', 'n', 'g', 't', 'h']

/-- The end of `httpc_recv_header`, behind the last field. -/
def headerEnd (hcptr : Httpc) : Httpc :=
  let hcptr :=
    { hcptr with status := .data, chunked := false, dataLength := 0, chunkLength := 0 }
  if (httpcHeaderFind hcptr.header transferEncoding).map Prod.snd =
      some ['c', 'h', 'u', 'n', 'k', 'e', 'd'] then
    { hcptr with chunked := true }
  else
    match httpcHeaderFind hcptr.header contentLength with
    | none => hcptr
    | some hvptr => { hcptr with dataLength := strToul hvptr.2 }

/-- `httpc_recv_header`, without the code and the text of an error. -/
def httpcRecvHeader (hcptr : Httpc) (s : CString) : Httpc :=
  match strTokenize 2 s with
  | [word, rest] =>
    if word.take 4 = ['H', 'T', 'T', 'P'] then hcptr
    else if ':' ∈ word then
      { hcptr with header := httpcHeaderSet hcptr.header (word.takeWhile (· ≠ ':')) rest }
    else headerEnd hcptr
  | _ => headerEnd hcptr

/-! ## The body -/

/-- A request and its connection: what is in the receive queue, and the mark of an error. -/
structure Conn where
  hcptr : Httpc
  recvq : List Char
  err : Bool
  deriving DecidableEq

/-- What `io_gets` leaves in the queue. -/
def behindLine (recvq : List Char) : List Char :=
  recvq.drop (Fifo.line '\n' recvq).length

/-- The string that `io_gets` stores in a buffer of this size. -/
def lineText (recvq : List Char) (size : Nat) : CString :=
  beforeNul ((Fifo.line '\n' recvq).take (size - 1))

/-- The size in a line before a chunk. -/
def chunkSize (recvq : List Char) : Nat :=
  (NumeralBases.strToul 16 (lineText recvq 32)).value

/-- `httpc_recv_body`. -/
def httpcRecvBody (c : Conn) : Conn :=
  let hcptr := c.hcptr
  if hcptr.chunked then
    if hcptr.chunkLength = 0 ∧ '\n' ∈ c.recvq then
      { c with
        recvq := behindLine c.recvq
        hcptr := { hcptr with
          chunkLength := chunkSize c.recvq
          status := if chunkSize c.recvq = 0 then .done else hcptr.status } }
    else if hcptr.chunkLength ≠ 0 ∧ hcptr.chunkLength ≤ c.recvq.length then
      { c with
        recvq := behindLine (c.recvq.drop hcptr.chunkLength)
        hcptr := { hcptr with
          data := hcptr.data.take hcptr.dataLength ++ c.recvq.take hcptr.chunkLength
          dataLength := hcptr.dataLength + hcptr.chunkLength
          chunkLength := 0 } }
    else c
  else if hcptr.dataLength ≤ c.recvq.length then
    { c with
      recvq := c.recvq.drop hcptr.dataLength
      hcptr := { hcptr with data := c.recvq.take hcptr.dataLength, status := .done } }
  else c

/-! ## `httpc_recv` -/

/-- `while(recvq.lines && status == HTTPC_HEADER)`. -/
def headerTurn (c : Conn) : Except Fault (Conn ⊕ Conn) :=
  if '\n' ∈ c.recvq ∧ c.hcptr.status = .header then
    .ok (.inl { c with
      recvq := behindLine c.recvq
      hcptr := httpcRecvHeader c.hcptr (lineText c.recvq 1024) })
  else .ok (.inr c)

/-- `while(recvq.size && status != HTTPC_DONE)`. -/
def bodyTurn (c : Conn) : Except Fault (Conn ⊕ Conn) :=
  if c.recvq ≠ [] ∧ c.hcptr.status ≠ .done then .ok (.inl (httpcRecvBody c)) else .ok (.inr c)

/-- `httpc_recv`, with the turns that its loop may take, up to the callback. -/
def httpcRecv (turns : Nat) (c : Conn) : Except Fault Conn :=
  let c := if c.hcptr.status = .sent then { c with hcptr := { c.hcptr with status := .header } }
    else c
  if c.hcptr.status = .header then loop headerTurn turns c
  else if c.hcptr.status = .data ∧ c.err then loop bodyTurn turns c
  else .ok c

/-- Something arrives. -/
def arrive (turns : Nat) (c : Conn) (bytes : List Char) : Except Fault Conn :=
  httpcRecv turns { c with recvq := c.recvq ++ bytes }

/-- A request that was sent. -/
def Httpc.requested : Httpc :=
  ⟨.sent, false, [], [], 0, 0⟩

/-- A response that arrives in these pieces, the last of which comes with the end of the
connection; that is an error or an orderly close. -/
def session (turns : Nat) (cuts : List (List Char)) (last : List Char) (err : Bool) :
    Except Fault Conn := do
  let c ← cuts.foldlM (arrive turns) ⟨.requested, [], false⟩
  arrive turns { c with err := err } last

/-! ## The header of what has arrived -/

variable {q rest : List Char} {hcptr : Httpc} {c : Conn} {turns : Nat}

theorem length_behindLine_lt (more : '\n' ∈ q) : (behindLine q).length < q.length := by
  have found := List.idxOf_lt_length_of_mem more
  rw [behindLine, Fifo.line, if_pos more, List.length_drop, List.length_take]
  omega

/-- What a line leaves does not depend on what comes later. -/
theorem line_append (more : '\n' ∈ q) (rest : List Char) :
    Fifo.line '\n' (q ++ rest) = Fifo.line '\n' q := by
  have found := List.idxOf_lt_length_of_mem more
  rw [Fifo.line, Fifo.line, if_pos more, if_pos (List.mem_append_left rest more),
    List.idxOf_append_of_mem more, List.take_append_of_le_length found]

theorem behindLine_append (more : '\n' ∈ q) (rest : List Char) :
    behindLine (q ++ rest) = behindLine q ++ rest := by
  have found := List.idxOf_lt_length_of_mem more
  rw [behindLine, behindLine, line_append more, List.drop_append_of_le_length]
  rw [Fifo.line, if_pos more, List.length_take]
  omega

/-- The lines of the header are taken off, and what is behind it is left. -/
def readHeader (hcptr : Httpc) (q : List Char) : Httpc × List Char :=
  if _more : '\n' ∈ q ∧ hcptr.status = .header then
    readHeader (httpcRecvHeader hcptr (lineText q 1024)) (behindLine q)
  else (hcptr, q)
termination_by q.length
decreasing_by exact length_behindLine_lt _more.1

/-- The header does not depend on the pieces it arrives in. -/
theorem readHeader_append (hcptr : Httpc) (q rest : List Char) :
    readHeader hcptr (q ++ rest) =
      readHeader (readHeader hcptr q).1 ((readHeader hcptr q).2 ++ rest) := by
  fun_induction readHeader hcptr q with
  | case1 hcptr q more ih =>
      rw [readHeader, dif_pos ⟨List.mem_append_left rest more.1, more.2⟩, ← ih,
        behindLine_append more.1, lineText, line_append more.1, lineText]
  | case2 hcptr q => rfl

theorem loop_headerTurn (enough : c.recvq.length < turns) :
    loop headerTurn turns c =
      .ok { c with
        hcptr := (readHeader c.hcptr c.recvq).1
        recvq := (readHeader c.hcptr c.recvq).2 } := by
  induction turns generalizing c with
  | zero => omega
  | succ turns ih =>
      rw [loop, headerTurn, readHeader]
      by_cases more : '\n' ∈ c.recvq ∧ c.hcptr.status = .header
      · have shorter := length_behindLine_lt more.1
        rw [if_pos more, dif_pos more]
        exact ih (c := { c with
          recvq := behindLine c.recvq
          hcptr := httpcRecvHeader c.hcptr (lineText c.recvq 1024) }) (by dsimp only; omega)
      · rw [if_neg more, dif_neg more]

/-- A request before its body: nothing is stored, and the lengths are those of the header. -/
structure Httpc.Fresh (hcptr : Httpc) : Prop where
  status : hcptr.status = .header ∨ hcptr.status = .data
  data : hcptr.data = []
  chunkLength : hcptr.chunkLength = 0
  chunked : hcptr.chunked = true → hcptr.dataLength = 0

theorem Httpc.Fresh.headerEnd (fresh : hcptr.Fresh) : (headerEnd hcptr).Fresh := by
  rw [HttpResponses.headerEnd]
  dsimp only
  split
  · exact ⟨.inr rfl, fresh.data, rfl, fun _ => rfl⟩
  · split
    · exact ⟨.inr rfl, fresh.data, rfl, fun chunked => by cases chunked⟩
    · exact ⟨.inr rfl, fresh.data, rfl, fun chunked => by cases chunked⟩

theorem Httpc.Fresh.httpcRecvHeader (fresh : hcptr.Fresh) (s : CString) :
    (httpcRecvHeader hcptr s).Fresh := by
  rw [HttpResponses.httpcRecvHeader.eq_def]
  split
  · split
    · exact fresh
    · split
      · exact ⟨fresh.status, fresh.data, fresh.chunkLength, fresh.chunked⟩
      · exact fresh.headerEnd
  · exact fresh.headerEnd

theorem Httpc.Fresh.readHeader (fresh : hcptr.Fresh) (q : List Char) :
    (readHeader hcptr q).1.Fresh := by
  fun_induction HttpResponses.readHeader hcptr q with
  | case1 hcptr q more ih => exact ih (fresh.httpcRecvHeader _)
  | case2 hcptr q => exact fresh

/-! ## The text of a body -/

/-- A text that the reader of chunks comes to the end of, with what is in the chunks: it ends
with a chunk, or with the line of a size, or has a line that is no size. -/
inductive ChunkText : List Char → List Char → Prop where
  | ended : ChunkText [] []
  | last {text : List Char} (isLine : '\n' ∈ text)
      (ends : chunkSize text = 0 ∨ behindLine text = []) : ChunkText text []
  | chunk {text data : List Char} (isLine : '\n' ∈ text) (some : chunkSize text ≠ 0)
      (whole : chunkSize text ≤ (behindLine text).length)
      (later : ChunkText (behindLine ((behindLine text).drop (chunkSize text))) data) :
      ChunkText text ((behindLine text).take (chunkSize text) ++ data)

/-- A text that a body can be read from, as the header says, and that body. -/
def BodyText (hcptr : Httpc) (text data : List Char) : Prop :=
  if hcptr.chunked then ChunkText text data
  else text = [] ∧ data = [] ∨ hcptr.dataLength ≤ text.length ∧ data = text.take hcptr.dataLength

/-- The loop over the body ends with this data. -/
def Collects (c : Conn) (data : List Char) : Prop :=
  ∃ last, Returns bodyTurn c last ∧ last.hcptr.data = data

theorem collects_goesOn {next : Conn} (more : c.recvq ≠ []) (going : c.hcptr.status ≠ .done)
    (turned : httpcRecvBody c = next) (data : List Char) :
    Collects c data ↔ Collects next data := by
  have goesOn : bodyTurn c = .ok (.inl next) := by
    rw [bodyTurn, if_pos ⟨more, going⟩, turned]
  exact exists_congr fun last => and_congr_left' (returns_of_goesOn goesOn last)

theorem collects_comesOut (ends : c.recvq = [] ∨ c.hcptr.status = .done) (data : List Char) :
    Collects c data ↔ c.hcptr.data = data := by
  have comesOut : bodyTurn c = .ok (.inr c) := by
    rw [bodyTurn, if_neg]
    rintro ⟨more, going⟩
    exact ends.elim more going
  simp only [Collects, returns_of_comesOut comesOut, exists_eq_left']

theorem not_collects (more : c.recvq ≠ []) (going : c.hcptr.status ≠ .done)
    (stays : httpcRecvBody c = c) (data : List Char) : ¬ Collects c data := by
  rintro ⟨last, returns, -⟩
  have stuck : bodyTurn c = .ok (.inl c) := by rw [bodyTurn, if_pos ⟨more, going⟩, stays]
  exact not_returns_of_stays stuck last returns

/-- The request behind the line of a size. -/
def Httpc.sized (hcptr : Httpc) (size : Nat) : Httpc :=
  { hcptr with chunkLength := size, status := if size = 0 then .done else hcptr.status }

/-- The request behind a chunk. -/
def Httpc.grown (hcptr : Httpc) (payload : List Char) : Httpc :=
  { hcptr with
    chunkLength := 0
    data := hcptr.data ++ payload
    dataLength := hcptr.dataLength + payload.length }

/-- Before a size, the loop ends if and only if what is in the queue is a text of chunks. -/
theorem collects_chunks_iff {hcptr : Httpc} (err : Bool) (chunked : hcptr.chunked = true)
    (noChunk : hcptr.chunkLength = 0) (status : hcptr.status = .data)
    (stored : hcptr.dataLength = hcptr.data.length) (q data : List Char) :
    Collects ⟨hcptr, q, err⟩ data ↔
      ∃ later, ChunkText q later ∧ hcptr.data ++ later = data := by
  induction size : q.length using Nat.strong_induction_on generalizing hcptr q with
  | _ n ih =>
    have going : hcptr.status ≠ .done := by
      rw [status]
      decide
    by_cases empty : q = []
    · subst empty
      rw [collects_comesOut (.inl rfl)]
      constructor
      · intro same
        exact ⟨[], .ended, by rwa [List.append_nil]⟩
      · rintro ⟨later, text, same⟩
        cases text with
        | ended => rwa [List.append_nil] at same
        | last isLine => cases isLine
        | chunk isLine => cases isLine
    by_cases isLine : '\n' ∈ q
    case neg =>
      have stays : httpcRecvBody ⟨hcptr, q, err⟩ = ⟨hcptr, q, err⟩ := by
        rw [httpcRecvBody, if_pos chunked, if_neg fun both => isLine both.2,
          if_neg fun both => both.1 noChunk]
      refine iff_of_false (not_collects empty going stays data) ?_
      rintro ⟨later, text, -⟩
      cases text with
      | ended => exact empty rfl
      | last more => exact isLine more
      | chunk more => exact isLine more
    -- a size is read
    have sized : httpcRecvBody ⟨hcptr, q, err⟩ =
        ⟨hcptr.sized (chunkSize q), behindLine q, err⟩ := by
      rw [httpcRecvBody, if_pos chunked, if_pos ⟨noChunk, isLine⟩]
      rfl
    rw [collects_goesOn empty going sized]
    have shorter := length_behindLine_lt isLine
    by_cases ends : chunkSize q = 0 ∨ behindLine q = []
    · have comesOut : behindLine q = [] ∨
          (if chunkSize q = 0 then Status.done else hcptr.status) = .done :=
        ends.symm.imp id fun zero => if_pos zero
      rw [collects_comesOut comesOut]
      constructor
      · intro same
        exact ⟨[], .last isLine ends, by rwa [List.append_nil]⟩
      · rintro ⟨later, text, same⟩
        cases text with
        | ended => exact absurd rfl empty
        | last => rwa [List.append_nil] at same
        | chunk _ some whole =>
            rcases ends with zero | nothing
            · exact absurd zero some
            · rw [nothing, List.length_nil] at whole
              exact absurd (Nat.le_zero.mp whole) some
    obtain ⟨some, more⟩ := not_or.mp ends
    have going' : (hcptr.sized (chunkSize q)).status ≠ .done := by
      rw [Httpc.sized, if_neg some]
      exact going
    by_cases whole : chunkSize q ≤ (behindLine q).length
    case neg =>
      have stays : httpcRecvBody ⟨hcptr.sized (chunkSize q), behindLine q, err⟩ =
          ⟨hcptr.sized (chunkSize q), behindLine q, err⟩ := by
        rw [httpcRecvBody, Httpc.sized]
        dsimp only
        rw [if_pos chunked, if_neg fun both => some both.1, if_neg fun both => whole both.2]
      refine iff_of_false (not_collects more going' stays data) ?_
      rintro ⟨later, text, -⟩
      cases text with
      | ended => exact empty rfl
      | last _ ends' => exact ends ends'
      | chunk _ _ whole' => exact whole whole'
    -- a chunk is read
    have payload : ((behindLine q).take (chunkSize q)).length = chunkSize q := by
      rw [List.length_take, Nat.min_eq_left whole]
    have taken : httpcRecvBody ⟨hcptr.sized (chunkSize q), behindLine q, err⟩ =
        ⟨hcptr.grown ((behindLine q).take (chunkSize q)),
          behindLine ((behindLine q).drop (chunkSize q)), err⟩ := by
      rw [httpcRecvBody, Httpc.sized, Httpc.grown, payload]
      dsimp only
      rw [if_pos chunked, if_neg fun both => some both.1, if_pos ⟨some, whole⟩, if_neg some, stored,
        List.take_length]
    have rest : (behindLine ((behindLine q).drop (chunkSize q))).length < n := by
      rw [behindLine, List.length_drop, List.length_drop]
      omega
    have stored' : (hcptr.grown ((behindLine q).take (chunkSize q))).dataLength =
        (hcptr.grown ((behindLine q).take (chunkSize q))).data.length := by
      rw [Httpc.grown, stored, List.length_append]
    rw [collects_goesOn more going' taken,
      @ih _ rest (hcptr.grown _) chunked rfl status stored' _ rfl]
    constructor
    · rintro ⟨later, text, same⟩
      exact ⟨_, .chunk isLine some whole text, (List.append_assoc _ _ _).symm.trans same⟩
    · rintro ⟨later, text, same⟩
      cases text with
      | ended => exact absurd rfl empty
      | last _ ends' => exact absurd ends' ends
      | chunk _ _ _ text => exact ⟨_, text, (List.append_assoc _ _ _).trans same⟩

/-- The loop over the body ends if and only if the queue has the text of a body. -/
theorem collects_iff {hcptr : Httpc} (fresh : hcptr.Fresh) (status : hcptr.status = .data)
    (err : Bool) (q data : List Char) :
    Collects ⟨hcptr, q, err⟩ data ↔ BodyText hcptr q data := by
  have going : hcptr.status ≠ .done := by
    rw [status]
    decide
  rw [BodyText]
  by_cases chunked : hcptr.chunked = true
  · rw [if_pos chunked, collects_chunks_iff err chunked fresh.chunkLength status
      (by rw [fresh.chunked chunked, fresh.data, List.length_nil])]
    simp only [fresh.data, List.nil_append, exists_eq_right]
  rw [if_neg chunked]
  by_cases empty : q = []
  · subst empty
    rw [collects_comesOut (.inl rfl), fresh.data]
    simp only [true_and, List.take_nil, List.length_nil]
    exact ⟨fun same => .inl same.symm, fun either => either.elim Eq.symm fun both => both.2.symm⟩
  by_cases whole : hcptr.dataLength ≤ q.length
  · have taken : httpcRecvBody ⟨hcptr, q, err⟩ = ⟨{ hcptr with
        data := q.take hcptr.dataLength, status := .done }, q.drop hcptr.dataLength, err⟩ := by
      rw [httpcRecvBody, if_neg chunked, if_pos whole]
    rw [collects_goesOn empty going taken, collects_comesOut (.inr rfl)]
    simp only [empty, false_and, false_or, whole, true_and]
    exact eq_comm
  · have stays : httpcRecvBody ⟨hcptr, q, err⟩ = ⟨hcptr, q, err⟩ := by
      rw [httpcRecvBody, if_neg chunked, if_neg whole]
    refine iff_of_false (not_collects empty going stays data) ?_
    rintro (⟨nothing, -⟩ | ⟨enough, -⟩)
    · exact empty nothing
    · exact whole enough

/-! ## Sessions -/

/-- The request in the first call. -/
def Httpc.started (hcptr : Httpc) : Httpc :=
  if hcptr.status = .sent then { hcptr with status := .header } else hcptr

theorem httpcRecv_eq (turns : Nat) (c : Conn) :
    httpcRecv turns c =
      if c.hcptr.started.status = .header then
        loop headerTurn turns { c with hcptr := c.hcptr.started }
      else if c.hcptr.started.status = .data ∧ c.err then
        loop bodyTurn turns { c with hcptr := c.hcptr.started }
      else .ok { c with hcptr := c.hcptr.started } := by
  rw [httpcRecv, Httpc.started]
  split
  · rfl
  · rfl

theorem Httpc.Fresh.started_eq (fresh : hcptr.Fresh) : hcptr.started = hcptr := by
  refine if_neg fun sent => ?_
  rcases fresh.status with header | data
  · rw [header] at sent
    cases sent
  · rw [data] at sent
    cases sent

theorem fresh_requested : Httpc.requested.started.Fresh where
  status := .inl rfl
  data := rfl
  chunkLength := rfl
  chunked := by rintro ⟨⟩

theorem httpcRecv_mono {more : Nat} {last : Conn} (received : httpcRecv turns c = .ok last)
    (le : turns ≤ more) : httpcRecv more c = .ok last := by
  rw [httpcRecv_eq] at received ⊢
  by_cases header : c.hcptr.started.status = .header
  · rw [if_pos header] at received ⊢
    exact loop_mono received le
  rw [if_neg header] at received ⊢
  by_cases body : c.hcptr.started.status = .data ∧ c.err = true
  · rw [if_pos body] at received ⊢
    exact loop_mono received le
  · rw [if_neg body] at received ⊢
    exact received

theorem foldlM_arrive_mono {more : Nat} {last : Conn} {cuts : List (List Char)}
    (received : cuts.foldlM (arrive turns) c = .ok last) (le : turns ≤ more) :
    cuts.foldlM (arrive more) c = .ok last := by
  induction cuts generalizing c with
  | nil => exact received
  | cons bytes cuts ih =>
      rw [List.foldlM_cons] at received ⊢
      cases first : arrive turns c bytes with
      | error fault =>
          rw [first] at received
          cases received
      | ok next =>
          rw [first] at received
          have first' : arrive more c bytes = .ok next := httpcRecv_mono first le
          rw [first']
          exact ih received

theorem session_mono {more : Nat} {last : Conn} {cuts : List (List Char)} {bytes : List Char}
    {err : Bool} (ends : session turns cuts bytes err = .ok last) (le : turns ≤ more) :
    session more cuts bytes err = .ok last := by
  rw [session] at ends ⊢
  cases first : cuts.foldlM (arrive turns) ⟨.requested, [], false⟩ with
  | error fault =>
      rw [first] at ends
      cases ends
  | ok c =>
      rw [first] at ends
      rw [foldlM_arrive_mono first le]
      exact httpcRecv_mono ends le

/-- Without an error only the header is read. -/
theorem httpcRecv_quiet (turns : Nat) (c : Conn)
    (quiet : ¬ (c.hcptr.started.status = .data ∧ c.err = true))
    (enough : c.recvq.length < turns) :
    httpcRecv turns c = .ok { c with
      hcptr := (readHeader c.hcptr.started c.recvq).1
      recvq := (readHeader c.hcptr.started c.recvq).2 } := by
  rw [httpcRecv_eq]
  by_cases header : c.hcptr.started.status = .header
  · rw [if_pos header]
    exact loop_headerTurn (c := { c with hcptr := c.hcptr.started }) enough
  · rw [if_neg header, if_neg quiet, readHeader, dif_neg fun both => header both.2]

theorem readHeader_idem (hcptr : Httpc) (q : List Char) :
    readHeader (readHeader hcptr q).1 (readHeader hcptr q).2 = readHeader hcptr q := by
  have same := readHeader_append hcptr q []
  rw [List.append_nil, List.append_nil] at same
  exact same.symm

theorem length_readHeader_le (hcptr : Httpc) (q : List Char) :
    (readHeader hcptr q).2.length ≤ q.length := by
  fun_induction readHeader hcptr q with
  | case1 hcptr q more ih => exact Nat.le_of_lt (Nat.lt_of_le_of_lt ih (length_behindLine_lt more.1))
  | case2 hcptr q => exact Nat.le_refl _

/-- After all pieces but the last the header is read as far as it has arrived, in one piece or in
many. -/
theorem foldlM_arrive (turns : Nat) (fresh : c.hcptr.started.Fresh) (quiet : c.err = false)
    (read : readHeader c.hcptr.started c.recvq = (c.hcptr.started, c.recvq))
    (cuts : List (List Char)) (enough : (c.recvq ++ cuts.flatten).length < turns) :
    ∃ last, cuts.foldlM (arrive turns) c = .ok last ∧ last.err = false ∧
      (last.hcptr.started, last.recvq) =
        readHeader c.hcptr.started (c.recvq ++ cuts.flatten) := by
  induction cuts generalizing c with
  | nil => exact ⟨c, rfl, quiet, by rw [List.flatten_nil, List.append_nil, read]⟩
  | cons bytes cuts ih =>
      rw [List.flatten_cons, ← List.append_assoc] at enough ⊢
      have shorter := length_readHeader_le c.hcptr.started (c.recvq ++ bytes)
      rw [List.length_append] at enough
      have arrives := httpcRecv_quiet turns { c with recvq := c.recvq ++ bytes }
        (by simp [quiet]) (by dsimp only; omega)
      have fresh' := fresh.readHeader (c.recvq ++ bytes)
      obtain ⟨last, received, quiet', result⟩ := ih
        (c := ⟨(readHeader c.hcptr.started (c.recvq ++ bytes)).1,
          (readHeader c.hcptr.started (c.recvq ++ bytes)).2, c.err⟩)
        (by rw [fresh'.started_eq]; exact fresh') quiet
        (by rw [fresh'.started_eq]; exact readHeader_idem _ _)
        (by rw [List.length_append]; dsimp only; omega)
      refine ⟨last, ?_, quiet', ?_⟩
      · rw [List.foldlM_cons, arrive, arrives, Fault.ok_bind]
        exact received
      · rw [result, fresh'.started_eq, readHeader_append c.hcptr.started (c.recvq ++ bytes)]

/-- A request after the pieces of the header, and what is behind the header. -/
def behindHeader (cuts : List (List Char)) : Httpc × List Char :=
  readHeader Httpc.requested.started cuts.flatten

/-- With enough turns the last call meets the request behind the header. -/
theorem session_eq (turns : Nat) (cuts : List (List Char)) (last : List Char) (err : Bool)
    (enough : cuts.flatten.length < turns) :
    ∃ c : Conn, session turns cuts last err = httpcRecv turns c ∧
      c.hcptr.started = (behindHeader cuts).1 ∧ c.recvq = (behindHeader cuts).2 ++ last ∧
      c.err = err := by
  obtain ⟨c, received, quiet, result⟩ := foldlM_arrive turns
    (c := ⟨.requested, [], false⟩) fresh_requested rfl (by rw [readHeader, dif_neg (by simp)]) cuts
    enough
  refine ⟨⟨c.hcptr, c.recvq ++ last, err⟩, ?_, ?_, ?_, rfl⟩
  · rw [session, received, Fault.ok_bind, arrive]
  · exact congrArg Prod.fst result
  · exact congrArg (fun pair => pair.2 ++ last) result

theorem session_unique {more : Nat} {cuts : List (List Char)} {last : List Char} {err : Bool}
    {c c' : Conn} (ends : session turns cuts last err = .ok c)
    (ends' : session more cuts last err = .ok c') : c = c' := by
  have first := session_mono ends (Nat.le_max_left turns more)
  rw [session_mono ends' (Nat.le_max_right turns more)] at first
  exact (Except.ok.inj first).symm

/-- Without an error in the last call, or before it has seen the header, nothing is collected. -/
theorem session_quiet (cuts : List (List Char)) (last : List Char) {err : Bool}
    (quiet : ¬ ((behindHeader cuts).1.status = .data ∧ err = true)) :
    ∃ turns c, session turns cuts last err = .ok c ∧ c.hcptr.data = [] := by
  have fresh : (behindHeader cuts).1.Fresh := fresh_requested.readHeader _
  obtain ⟨c, ends, started, recvq, error⟩ := session_eq
    (cuts.flatten.length + (behindHeader cuts).2.length + last.length + 1) cuts last err (by omega)
  have reads := httpcRecv_quiet
    (cuts.flatten.length + (behindHeader cuts).2.length + last.length + 1) c
    (by rwa [started, error]) (by rw [recvq, List.length_append]; omega)
  refine ⟨_, _, ends.trans reads, ?_⟩
  dsimp only
  rw [started]
  exact (fresh.readHeader _).data

/-- After an error behind the header, what is collected is a body in what is behind it. -/
theorem session_collects {cuts : List (List Char)} (last : List Char)
    (status : (behindHeader cuts).1.status = .data) (data : List Char) :
    (∃ turns c, session turns cuts last true = .ok c ∧ c.hcptr.data = data) ↔
      BodyText (behindHeader cuts).1 ((behindHeader cuts).2 ++ last) data := by
  have fresh : (behindHeader cuts).1.Fresh := fresh_requested.readHeader _
  have atEnd : ∀ turns, cuts.flatten.length < turns → session turns cuts last true =
      loop bodyTurn turns ⟨(behindHeader cuts).1, (behindHeader cuts).2 ++ last, true⟩ := by
    intro turns enough
    obtain ⟨c, ends, started, recvq, error⟩ := session_eq turns cuts last true enough
    rw [ends, httpcRecv_eq, started, recvq, error, status]
    rfl
  rw [← collects_iff fresh status true]
  constructor
  · rintro ⟨turns, c, ends, right⟩
    have later := session_mono ends (Nat.le_max_left turns (cuts.flatten.length + 1))
    rw [atEnd _ (Nat.lt_of_lt_of_le (Nat.lt_succ_self _) (Nat.le_max_right _ _))] at later
    exact ⟨c, ⟨_, later⟩, right⟩
  · rintro ⟨c, ⟨turns, ends⟩, right⟩
    refine ⟨max turns (cuts.flatten.length + 1), c, ?_, right⟩
    rw [atEnd _ (Nat.lt_of_lt_of_le (Nat.lt_succ_self _) (Nat.le_max_right _ _))]
    exact loop_mono ends (Nat.le_max_left _ _)

/-- Every call ends, and the data is the body when all of the response has arrived, if and only
if the connection ends with an error after the header has arrived, and what is behind the header
is the text of a body as the header says, namely of that one; else the body has to be empty. -/
theorem session_iff (response body : List Char) (cuts : List (List Char)) (last : List Char)
    (err : Bool) :
    (∃ turns c, session turns cuts last err = .ok c ∧
        (cuts.flatten ++ last = response → c.hcptr.data = body)) ↔
      if (behindHeader cuts).1.status = .data ∧ err = true then
        ∃ data, BodyText (behindHeader cuts).1 ((behindHeader cuts).2 ++ last) data ∧
          (cuts.flatten ++ last = response → data = body)
      else cuts.flatten ++ last = response → body = [] := by
  by_cases closing : (behindHeader cuts).1.status = .data ∧ err = true
  · rw [if_pos closing]
    obtain ⟨status, rfl⟩ := closing
    constructor
    · rintro ⟨turns, c, ends, right⟩
      exact ⟨_, (session_collects last status _).mp ⟨turns, c, ends, rfl⟩, right⟩
    · rintro ⟨data, text, right⟩
      obtain ⟨turns, c, ends, rfl⟩ := (session_collects last status data).mpr text
      exact ⟨turns, c, ends, right⟩
  · rw [if_neg closing]
    obtain ⟨turns, c, ends, nothing⟩ := session_quiet cuts last closing
    constructor
    · rintro ⟨turns', c', ends', right⟩ whole
      rw [← right whole, ← session_unique ends ends', nothing]
    · intro empty
      exact ⟨turns, c, ends, fun whole => by rw [nothing, empty whole]⟩

/-- A response with a body of two letters. -/
def smallResponse : List Char :=
  ['H', 'T', 'T', 'P', '/', '1', '.', '1', ' ', '2', '0', '0', ' ', 'O', 'K', '\r', '\n',
    'C', 'o', 'n', 't', 'e', 'n', 't', '-', 'l', 'e', 'n', 'g', 't', 'h', ':', ' ', '2', '\r', '\n',
    '\r', '\n', 'h', 'i']

/-- It is lost when the connection is closed as it should be. -/
theorem session_lost :
    ¬ ∃ turns c, session turns [smallResponse] [] false = .ok c ∧
      ([smallResponse].flatten ++ [] = smallResponse → c.hcptr.data = ['h', 'i']) := by
  rintro ⟨turns, c, ends, right⟩
  obtain ⟨turns', c', ends', nothing⟩ := @session_quiet [smallResponse] [] false
    (by simp)
  have data := right (by simp)
  rw [session_unique ends ends', nothing] at data
  cases data

end HttpResponses

end Chaosircd
