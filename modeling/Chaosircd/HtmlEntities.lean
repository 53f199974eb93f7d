import Chaosircd.HtmlTags

/-!
# Entities of a page

`htmlp_decode` copies a text without its entities into a static buffer.  It goes through the
text with an index of 32 bits, and takes the place of the semicolon behind a numeric entity
for granted.
-/

namespace Chaosircd

namespace HtmlPages

open Loops SauthLines

/-! ## `htmlp_decode` -/

/-- The static buffer of `htmlp_decode`. -/
structure DecodeBuffer where
  text : List Char
  size : text.length = 1024

/-- The variables of `htmlp_decode`. -/
structure Decoding where
  i : Nat
  di : Nat
  left : Bool
  text : List Char

/-- `i++`. -/
def increment (i : Nat) : Nat :=
  (i + 1) % 2 ^ 32

/-- `i--`. -/
def decrement (i : Nat) : Nat :=
  (i + (2 ^ 32 - 1)) % 2 ^ 32

/-- `htmlp_table`. -/
def htmlpTable : List (CString × Char) :=
  [(['n', 'b', 's', 'p'], ' ')]

/-- `!str_nicmp(s1, s2, n)`. -/
def nicmpEq (s1 s2 : CString) (n : Nat) : Bool :=
  (s1.take n).map strTolower == (s2.take n).map strTolower

/-- `text[di++] = c`. -/
def Decoding.put (d : Decoding) (c : Char) : Except Fault Decoding := do
  let text ← writeAt d.text d.di c
  pure { d with di := d.di + 1, text := text }

/-- `while(s[i] && s[i] != ';') i++`. -/
def entityLoop (s : List Char) : Nat → Nat → Except Fault Nat
  | 0, _ => .error .endless
  | turns + 1, i => do
    let c ← readAt s i
    if c = '\x00' ∨ c = ';' then pure i else entityLoop s turns (increment i)

/-- The loop over the table of entities. -/
def Decoding.lookUp (d : Decoding) (s : List Char) : Except Fault Decoding := do
  let behind ← textAt s (some d.i)
  match htmlpTable.find? fun row => nicmpEq row.1 behind row.1.length with
  | none => pure d
  | some row =>
    let d ← d.put row.2
    pure { d with i := (d.i + row.1.length) % 2 ^ 32 }

/-- The part for `&#`, from the number on; without a semicolon the index is that of no byte. -/
def Decoding.numeric (d : Decoding) (s : List Char) : Except Fault Decoding := do
  let number ← textAt s (some d.i)
  let next ← d.put (Char.ofNat (strToul number % 256))
  match ← strchr s d.i ';' with
  | none => .error .overread
  | some p => pure { next with i := p % 2 ^ 32 }

/-- The part for the other entities.  An index of 32 bits is seen again after as many turns. -/
def Decoding.named (d : Decoding) (s : List Char) : Except Fault Decoding := do
  let d ← d.lookUp s
  let c ← readAt s d.i
  if c = ';' then pure d
  else
    let i ← entityLoop s (2 ^ 32) d.i
    pure { d with i := decrement i }

/-- The part for `&`. -/
def Decoding.entity (d : Decoding) (s : List Char) : Except Fault Decoding := do
  let i := increment d.i
  let c ← readAt s i
  if c = '#' then Decoding.numeric { d with i := increment i } s
  else Decoding.named { d with i := i } s

/-- A turn of `htmlp_decode`. -/
def decodeTurn (s : List Char) (d : Decoding) : Except Fault (Decoding ⊕ List Char) := do
  let c ← readAt s d.i
  if c = '\x00' ∨ 1023 ≤ d.di then
    let text ← writeAt d.text d.di '\x00'
    pure (.inr text)
  else if d.left && strIsspace c then pure (.inl { d with i := increment d.i })
  else
    let d := { d with left := false }
    let next ← if c = '&' then d.entity s else d.put c
    pure (.inl { next with i := increment next.i })

def Decoding.start (buffer : DecodeBuffer) : Decoding :=
  ⟨0, 0, true, buffer.text⟩

/-- `htmlp_decode`, with the turns it may take. -/
def htmlpDecode (buffer : DecodeBuffer) (turns : Nat) (s : List Char) :
    Except Fault (List Char) :=
  loop (decodeTurn s) turns (Decoding.start buffer)

/-! ## Inside the text -/

variable {n : Nat} {s : List Char} {d : Decoding}

theorem increment_eq {i : Nat} (short : n < 2 ^ 32) (before : i < n) : increment i = i + 1 :=
  Nat.mod_eq_of_lt (by omega)

theorem increment_le {i : Nat} (before : i < n) : increment i ≤ n :=
  Nat.le_trans (Nat.mod_le _ _) before

theorem increment_lt (i : Nat) : increment i < 2 ^ 32 :=
  Nat.mod_lt _ (by decide)

theorem increment_decrement {i : Nat} (word : i < 2 ^ 32) : increment (decrement i) = i := by
  rw [increment, decrement]
  omega

/-- The index is that of a byte of the text, and the buffer has room for the terminator. -/
structure Decoding.Inside (n : Nat) (d : Decoding) : Prop where
  index : d.i ≤ n
  word : d.i < 2 ^ 32
  size : d.text.length = 1024
  room : d.di ≤ 1023

/-- What is left by the part of a turn that began at this index; the index is still to be
incremented. -/
structure Decoding.Done (n i : Nat) (next : Decoding) : Prop where
  index : increment next.i ≤ n
  size : next.text.length = 1024
  room : next.di ≤ 1023
  further : n < 2 ^ 32 → i < increment next.i

theorem Decoding.put_eq (inside : d.Inside n) (c : Char) :
    d.put c = .ok { d with di := d.di + 1, text := d.text.set d.di c } := by
  rw [Decoding.put, SauthLines.writeAt, if_pos (by rw [inside.size]; have := inside.room; omega)]
  rfl

theorem Ended.length_text_le (ended : Ended n s) {p : Nat} (inside : p ≤ n) :
    (beforeNul (s.drop p)).length ≤ n - p := by
  obtain ⟨more, split⟩ := eq_beforeNul_append (ended.nul_mem_drop inside)
  have lengths := congrArg List.length split
  rw [List.length_drop, ended.length, List.length_append, List.length_cons] at lengths
  omega

theorem length_le_of_nicmpEq {key behind : CString} (same : nicmpEq key behind key.length = true) :
    key.length ≤ behind.length := by
  have lengths := congrArg List.length (beq_iff_eq.mp same)
  rw [List.length_map, List.length_map, List.length_take, List.length_take] at lengths
  omega

/-- The entity that is found lies inside the text. -/
theorem Decoding.lookUp_cases (ended : Ended n s) (inside : d.Inside n) (open_ : d.di < 1023) :
    ∃ next, d.lookUp s = .ok next ∧ next.Inside n ∧ (n < 2 ^ 32 → d.i ≤ next.i) := by
  rw [Decoding.lookUp, ended.textAt inside.index, Fault.ok_bind]
  cases found : htmlpTable.find? fun row => nicmpEq row.1 (beforeNul (s.drop d.i)) row.1.length with
  | none => exact ⟨d, rfl, inside, fun _ => Nat.le_refl _⟩
  | some row =>
      have same : nicmpEq row.1 (beforeNul (s.drop d.i)) row.1.length = true := by
        simpa only using List.find?_some found
      have fits := length_le_of_nicmpEq same
      have textLength := ended.length_text_le inside.index
      have index := inside.index
      simp only [d.put_eq inside, Fault.ok_bind]
      refine ⟨_, rfl, ⟨?_, Nat.mod_lt _ (by decide), ?_, open_⟩, fun short => ?_⟩
      · exact Nat.le_trans (Nat.mod_le _ _) (by omega)
      · rw [List.length_set, inside.size]
      · dsimp only
        rw [Nat.mod_eq_of_lt (by omega)]
        exact Nat.le_add_right _ _

theorem entityLoop_inside (ended : Ended n s) {turns i i' : Nat} (index : i ≤ n)
    (word : i < 2 ^ 32) (stops : entityLoop s turns i = .ok i') : i' ≤ n ∧ i' < 2 ^ 32 := by
  induction turns generalizing i with
  | zero => cases stops
  | succ turns ih =>
      obtain ⟨c, read, byteAt⟩ := ended.readAt index
      rw [entityLoop, read, Fault.ok_bind] at stops
      by_cases stop : c = '\x00' ∨ c = ';'
      · rw [if_pos stop] at stops
        cases stops
        exact ⟨index, word⟩
      · rw [if_neg stop] at stops
        have before := ended.lt_of_ne index byteAt fun same => stop (.inl same)
        exact ih (increment_le before) (increment_lt i) stops

theorem entityLoop_short (ended : Ended n s) (short : n < 2 ^ 32) (turns : Nat) {i : Nat}
    (index : i ≤ n) (enough : n - i < turns) : ∃ i', entityLoop s turns i = .ok i' ∧ i ≤ i' := by
  induction turns generalizing i with
  | zero => omega
  | succ turns ih =>
      obtain ⟨c, read, byteAt⟩ := ended.readAt index
      rw [entityLoop, read, Fault.ok_bind]
      by_cases stop : c = '\x00' ∨ c = ';'
      · rw [if_pos stop]
        exact ⟨i, rfl, Nat.le_refl i⟩
      · have before := ended.lt_of_ne index byteAt fun same => stop (.inl same)
        obtain ⟨i', stops, further⟩ := ih (i := i + 1) before (by omega)
        rw [if_neg stop, increment_eq short before]
        exact ⟨i', stops, by omega⟩

/-- In a text whose length fits into the index, an entity with a name is decoded. -/
theorem Decoding.named_cases (ended : Ended n s) (inside : d.Inside n) (open_ : d.di < 1023)
    {i : Nat} (further : n < 2 ^ 32 → i < d.i) :
    (¬ n < 2 ^ 32 ∧ ∃ fault, d.named s = .error fault) ∨
      ∃ next, d.named s = .ok next ∧ next.Done n i := by
  obtain ⟨found, looks, kept, behind⟩ := d.lookUp_cases ended inside open_
  obtain ⟨c, read, byteAt⟩ := ended.readAt kept.index
  rw [Decoding.named, looks, Fault.ok_bind, read, Fault.ok_bind]
  by_cases semicolon : c = ';'
  · have before := ended.lt_of_ne kept.index byteAt (by rw [semicolon]; decide)
    rw [if_pos semicolon]
    refine .inr ⟨found, rfl, increment_le before, kept.size, kept.room, fun short => ?_⟩
    have first := further short
    have second := behind short
    rw [increment_eq short before]
    omega
  rw [if_neg semicolon]
  cases stops : entityLoop s (2 ^ 32) found.i with
  | error fault =>
      refine .inl ⟨fun short => ?_, fault, rfl⟩
      obtain ⟨i', same, -⟩ := entityLoop_short ended short (2 ^ 32) kept.index (by omega)
      rw [stops] at same
      cases same
  | ok i' =>
      obtain ⟨index, word⟩ := entityLoop_inside ended kept.index kept.word stops
      rw [Fault.ok_bind]
      refine .inr ⟨_, rfl, ?_, kept.size, kept.room, fun short => ?_⟩
      · rw [increment_decrement word]
        exact index
      · obtain ⟨i'', same, above⟩ :=
          entityLoop_short ended short (2 ^ 32) kept.index (by omega)
        rw [stops] at same
        cases same
        have first := further short
        have second := behind short
        rw [increment_decrement word]
        omega

/-- An entity with a number is decoded if and only if a semicolon is behind it. -/
theorem Decoding.numeric_cases (ended : Ended n s) (inside : d.Inside n) (open_ : d.di < 1023)
    {i : Nat} (further : n < 2 ^ 32 → i < d.i) :
    (';' ∉ beforeNul (s.drop d.i) ∧ ∃ fault, d.numeric s = .error fault) ∨
      (';' ∈ beforeNul (s.drop d.i) ∧ ∃ next, d.numeric s = .ok next ∧ next.Done n i) := by
  simp only [Decoding.numeric, ended.textAt inside.index, d.put_eq inside, Fault.ok_bind]
  rcases ended.strchr_cases (c := ';') inside.index (by decide) with
    ⟨nothing, absent⟩ | ⟨p, found, above, before, front, -, text⟩
  · rw [nothing]
    exact .inl ⟨absent, _, rfl⟩
  · rw [found]
    refine .inr ⟨?_, _, rfl, increment_le (Nat.lt_of_le_of_lt (Nat.mod_le _ _) before), ?_,
      open_, fun short => ?_⟩
    · rw [text]
      exact List.mem_append_right front List.mem_cons_self
    · rw [List.length_set, inside.size]
    · have first := further short
      have word : p % 2 ^ 32 = p := Nat.mod_eq_of_lt (by omega)
      dsimp only
      rw [word, increment_eq short before]
      omega

/-! ## Which texts can be decoded -/

/-- While there is room in the buffer, a semicolon is behind `&#`. -/
def EntityCloses (s : List Char) (d : Decoding) : Prop :=
  d.di < 1023 → ∀ behind, beforeNul (s.drop d.i) = '&' :: '#' :: behind → ';' ∈ behind

/-- What a turn of `htmlp_decode` comes to.  In a text whose length fits into the index it fails
if and only if a numeric entity has no semicolon; it comes out at the end of the text, or when
there is room for the terminator only. -/
inductive DecodesFrom (n : Nat) (s : List Char) (d : Decoding) :
    Except Fault (Decoding ⊕ List Char) → Prop where
  | fails (fault : Fault) (room : d.di < 1023) (open_ : n < 2 ^ 32 → ¬ EntityCloses s d) :
      DecodesFrom n s d (.error fault)
  | goesOn (next : Decoding) (inside : next.Inside n) (room : d.di < 1023)
      (closes : n < 2 ^ 32 → EntityCloses s d) (further : n < 2 ^ 32 → d.i < next.i) :
      DecodesFrom n s d (.ok (.inl next))
  | comesOut (text : List Char) (atEnd : d.i = n ∨ d.di = 1023)
      (closes : EntityCloses s d) : DecodesFrom n s d (.ok (.inr text))

/-- From `&` on a turn fails in a text whose length fits into the index if and only if a number
without a semicolon is there. -/
theorem Decoding.entity_cases (ended : Ended n s) (inside : d.Inside n) (open_ : d.di < 1023)
    (before : d.i < n) :
    ((∃ fault, d.entity s = .error fault) ∧ (n < 2 ^ 32 →
        ∃ behind, beforeNul (s.drop (d.i + 1)) = '#' :: behind ∧ ';' ∉ behind)) ∨
      (∃ next, d.entity s = .ok next ∧ next.Done n d.i ∧ (n < 2 ^ 32 →
        ∀ behind, beforeNul (s.drop (d.i + 1)) = '#' :: behind → ';' ∈ behind)) := by
  obtain ⟨c, read, byteAt⟩ := ended.readAt (increment_le before)
  rw [Decoding.entity]
  simp only [read, Fault.ok_bind]
  by_cases number : c = '#'
  · subst number
    have further := ended.lt_of_ne (increment_le before) byteAt (by decide)
    have atNumber : n < 2 ^ 32 → beforeNul (s.drop (d.i + 1)) =
        '#' :: beforeNul (s.drop (increment (increment d.i))) := by
      intro short
      rw [increment_eq short before] at byteAt further ⊢
      rw [increment_eq short further, byteAt, beforeNul_cons (by decide)]
    rw [if_pos rfl]
    rcases Decoding.numeric_cases (d := { d with i := increment (increment d.i) }) (i := d.i)
        ended ⟨increment_le further, increment_lt _, inside.size, inside.room⟩ open_
        (fun short => by
          rw [increment_eq short before] at further
          simp only [increment_eq short before, increment_eq short further]
          omega) with
      ⟨absent, fails⟩ | ⟨present, next, decodes, done⟩
    · exact .inl ⟨fails, fun short => ⟨_, atNumber short, absent⟩⟩
    · refine .inr ⟨next, decodes, done, fun short behind same => ?_⟩
      rw [atNumber short] at same
      cases same
      exact present
  · rw [if_neg number]
    have noNumber : n < 2 ^ 32 → ∀ behind, beforeNul (s.drop (d.i + 1)) ≠ '#' :: behind := by
      intro short behind same
      rw [increment_eq short before] at byteAt
      by_cases empty : c = '\x00'
      · rw [byteAt, empty, beforeNul_nul_cons] at same
        cases same
      · rw [byteAt, beforeNul_cons empty] at same
        exact number (List.cons.inj same).1
    rcases Decoding.named_cases (d := { d with i := increment d.i }) (i := d.i)
        ended ⟨increment_le before, increment_lt _, inside.size, inside.room⟩ open_
        (fun short => by
          dsimp only
          rw [increment_eq short before]
          omega) with
      ⟨long, fails⟩ | ⟨next, decodes, done⟩
    · exact .inl ⟨fails, fun short => absurd short long⟩
    · exact .inr ⟨next, decodes, done, fun short behind same => absurd same
        (noNumber short behind)⟩

theorem decodeTurn_cases (ended : Ended n s) (noNul : ∀ i, i < n → s[i]? ≠ some '\x00')
    (inside : d.Inside n) : DecodesFrom n s d (decodeTurn s d) := by
  obtain ⟨c, read, byteAt⟩ := ended.readAt inside.index
  have room := inside.room
  rw [decodeTurn, read, Fault.ok_bind]
  by_cases stops : c = '\x00' ∨ 1023 ≤ d.di
  · have written : writeAt d.text d.di '\x00' = .ok (d.text.set d.di '\x00') := by
      rw [SauthLines.writeAt, if_pos (by rw [inside.size]; omega)]
    rw [if_pos stops, written, Fault.ok_bind]
    rcases stops with nul | full
    · subst nul
      refine .comesOut _ (.inl ?_) fun _ behind text => ?_
      · by_contra other
        refine noNul d.i (Nat.lt_of_le_of_ne inside.index other) ?_
        rw [← List.head?_drop, byteAt, List.head?_cons]
      · rw [byteAt, beforeNul_nul_cons] at text
        cases text
    · exact .comesOut _ (.inr (by omega)) fun open_ => absurd open_ (by omega)
  have isByte : c ≠ '\x00' := fun same => stops (.inl same)
  have open_ : d.di < 1023 := by
    by_contra full
    exact stops (.inr (by omega))
  have before := ended.lt_of_ne inside.index byteAt isByte
  have text : beforeNul (s.drop d.i) = c :: beforeNul (s.drop (d.i + 1)) := by
    rw [byteAt, beforeNul_cons isByte]
  have closesUnless : c ≠ '&' → EntityCloses s d := by
    intro other _ behind same
    rw [text] at same
    exact absurd (List.cons.inj same).1 other
  rw [if_neg stops]
  by_cases blank : (d.left && strIsspace c) = true
  · rw [if_pos blank]
    refine .goesOn _ ⟨increment_le before, increment_lt _, inside.size, room⟩ open_
      (fun _ => closesUnless ?_) fun short => ?_
    · rintro rfl
      simp [strIsspace] at blank
    · dsimp only
      rw [increment_eq short before]
      exact Nat.lt_succ_self _
  rw [if_neg blank]
  have inside' : Decoding.Inside n { d with left := false } :=
    ⟨inside.index, inside.word, inside.size, room⟩
  by_cases entity : c = '&'
  · rw [if_pos entity]
    rcases Decoding.entity_cases ended inside' open_ before with
      ⟨⟨fault, fails⟩, missing⟩ | ⟨next, decodes, done, present⟩
    · rw [fails]
      refine .fails fault open_ fun short closes => ?_
      obtain ⟨behind, same, absent⟩ := missing short
      refine absent (closes open_ behind ?_)
      rw [text, entity]
      exact congrArg _ same
    · rw [decodes]
      refine .goesOn _ ⟨done.index, increment_lt _, done.size, done.room⟩ open_
        (fun short _ behind same => ?_) done.further
      rw [text] at same
      exact present short behind (List.cons.inj same).2
  · rw [if_neg entity, Decoding.put_eq inside', Fault.ok_bind]
    refine .goesOn _ ⟨increment_le before, increment_lt _, ?_, open_⟩ open_
      (fun _ => closesUnless entity) fun short => ?_
    · rw [List.length_set, inside.size]
    · dsimp only
      rw [increment_eq short before]
      exact Nat.lt_succ_self _

section

variable {doc : CString} (noNul : '\x00' ∉ doc)

theorem ended_text (doc : CString) : Ended doc.length (doc ++ ['\x00']) where
  length := by simp
  last := by simp

include noNul in
theorem decodesFrom_text (inside : d.Inside doc.length) :
    DecodesFrom doc.length (doc ++ ['\x00']) d (decodeTurn (doc ++ ['\x00']) d) := by
  refine decodeTurn_cases (ended_text doc) (fun i before same => ?_) inside
  rw [List.getElem?_append_left before] at same
  exact noNul (List.mem_of_getElem? same)

theorem Decoding.inside_start (n : Nat) (buffer : DecodeBuffer) :
    (Decoding.start buffer).Inside n :=
  ⟨Nat.zero_le n, Nat.two_pow_pos 32, buffer.size, Nat.zero_le 1023⟩

include noNul in
theorem inside_of_reaches {buffer : DecodeBuffer}
    (reaches : Reaches (decodeTurn (doc ++ ['\x00'])) (Decoding.start buffer) d) :
    d.Inside doc.length := by
  refine reaches.invariant (fun d next inside goesOn => ?_) (Decoding.inside_start _ buffer)
  cases goesOn ▸ decodesFrom_text noNul inside with
  | goesOn next inside => exact inside

include noNul in
/-- `htmlp_decode` ends inside the text and its buffer if and only if, in a text whose length fits
into the index, every numeric entity that it comes to has a semicolon, or the buffer is full at
some time. -/
theorem htmlpDecode_ok_iff (buffer : DecodeBuffer) :
    (∃ turns text, htmlpDecode buffer turns (doc ++ ['\x00']) = .ok text) ↔
      (doc.length < 2 ^ 32 ∧
          ∀ d, Reaches (decodeTurn (doc ++ ['\x00'])) (Decoding.start buffer) d →
            EntityCloses (doc ++ ['\x00']) d) ∨
        ∃ d, Reaches (decodeTurn (doc ++ ['\x00'])) (Decoding.start buffer) d ∧ d.di = 1023 := by
  constructor
  · intro halts
    obtain ⟨last, reaches, text, comesOut⟩ := halts_iff.mp halts
    have inside := inside_of_reaches noNul reaches
    have atEnd : last.i = doc.length ∨ last.di = 1023 := by
      cases comesOut ▸ decodesFrom_text noNul inside with
      | comesOut _ atEnd => exact atEnd
    refine atEnd.symm.imp (fun full => ⟨last, reaches, full⟩) (fun index => ?_) |>.symm
    have short : doc.length < 2 ^ 32 := index ▸ inside.word
    refine ⟨short, fun d reaches => ?_⟩
    obtain ⟨outcome, turned⟩ := Halts.turn_ok halts reaches
    cases turned ▸ decodesFrom_text noNul (inside_of_reaches noNul reaches) with
    | goesOn _ _ _ closes => exact closes short
    | comesOut _ _ closes => exact closes
  · rintro (⟨short, closes⟩ | ⟨d, reaches, full⟩)
    · refine ⟨doc.length + 1, (loop_ok_iff (Decoding.Inside doc.length)
        (fun d => doc.length - d.i) ?_ (Decoding.inside_start _ buffer)
        (Nat.lt_succ_of_le (Nat.sub_le _ _))).mpr fun d reaches => ?_⟩
      · intro d next inside goesOn
        cases goesOn ▸ decodesFrom_text noNul inside with
        | goesOn _ kept _ _ further =>
            have above := further short
            have below := kept.index
            exact ⟨kept, by omega⟩
      · have spec := decodesFrom_text noNul (inside_of_reaches noNul reaches)
        cases turned : decodeTurn (doc ++ ['\x00']) d with
        | error fault =>
            cases turned ▸ spec with
            | fails _ _ open_ => exact absurd (closes d reaches) (open_ short)
        | ok outcome => exact ⟨outcome, rfl⟩
    · refine halts_iff.mpr ⟨d, reaches, ?_⟩
      have spec := decodesFrom_text noNul (inside_of_reaches noNul reaches)
      cases turned : decodeTurn (doc ++ ['\x00']) d with
      | error fault =>
          cases turned ▸ spec with
          | fails _ room => omega
      | ok outcome =>
          cases turned ▸ spec with
          | goesOn _ _ room => omega
          | comesOut text => exact ⟨text, rfl⟩

include noNul in
/-- `htmlp_parse` and `htmlp_decode` end, and touch nothing but the document and what they
allocate, if and only if there is a blank ahead of every tag with an end that the one comes to,
and a semicolon behind every number that the other comes to.  A document that is longer than
the index of `htmlp_decode` can tell has to fill its buffer. -/
theorem htmlp_safe_iff (buffer : DecodeBuffer) :
    ((∃ result, htmlpParse (doc ++ ['\x00']) doc.length = .ok result) ↔
        ∀ page, Reaches tagTurn (Page.opened doc) page → BlankAhead page) ∧
      ((∃ turns text, htmlpDecode buffer turns (doc ++ ['\x00']) = .ok text) ↔
        (doc.length < 2 ^ 32 ∧
            ∀ d, Reaches (decodeTurn (doc ++ ['\x00'])) (Decoding.start buffer) d →
              EntityCloses (doc ++ ['\x00']) d) ∨
          ∃ d, Reaches (decodeTurn (doc ++ ['\x00'])) (Decoding.start buffer) d ∧
            d.di = 1023) :=
  ⟨htmlpParse_ok_iff doc ['\x00'], htmlpDecode_ok_iff noNul buffer⟩

end

/-- The static buffer before the first text. -/
def DecodeBuffer.zeroed : DecodeBuffer where
  text := List.replicate 1024 '\x00'
  size := List.length_replicate

theorem htmlp_safe_iff_letter :
    (∀ page, Reaches tagTurn (Page.opened ['x']) page → BlankAhead page) ∧
      ∃ turns text, htmlpDecode .zeroed turns ['x', '\x00'] = .ok text := by
  obtain ⟨parses, decodes⟩ := @htmlp_safe_iff ['x'] (by decide) .zeroed
  refine ⟨parses.mp ⟨_, rfl⟩, decodes.mpr (.inl ⟨by decide, fun d _ _ behind same => ?_⟩)⟩
  have member : '&' ∈ beforeNul ((['x'] ++ ['\x00']).drop d.i) := same ▸ List.mem_cons_self
  exact absurd (List.mem_of_mem_drop ((List.takeWhile_subset _) member)) (by decide)

/-- A tag at the end of the page, and the beginning of an entity at the end of a text. -/
theorem htmlp_unsafe :
    (¬ ∃ result, htmlpParse ['<', 'b', '>', '\x00'] 3 = .ok result) ∧
      ¬ ∃ turns text, htmlpDecode .zeroed turns ['&', '#', '\x00'] = .ok text := by
  constructor
  · rintro ⟨result, same⟩
    have fails : htmlpParse ['<', 'b', '>', '\x00'] 3 = .error .overread := rfl
    rw [fails] at same
    cases same
  · intro halts
    obtain ⟨outcome, turned⟩ := Halts.turn_ok halts (.here _)
    have spec := @decodesFrom_text _ ['&', '#'] (by decide) (Decoding.inside_start 2 .zeroed)
    have closes : EntityCloses ['&', '#', '\x00'] (Decoding.start .zeroed) := by
      cases turned ▸ spec with
      | goesOn _ _ _ closes => exact closes (by decide)
      | comesOut _ _ closes => exact closes
    exact absurd (closes (by decide) [] rfl) (by decide)

end HtmlPages

end Chaosircd
