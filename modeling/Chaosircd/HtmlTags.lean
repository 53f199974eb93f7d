import Chaosircd.Loops
import Chaosircd.PrintFormat
import Chaosircd.SauthLines

/-!
# Tags of a page

`htmlp_parse` copies a page and cuts the copy into tags, texts and attributes by writing
terminators into it.  Every pointer comes from a search that may find nothing.  The end of a tag
is looked for from the first blank behind its start on, whether there is one or not.
-/

namespace Chaosircd

namespace HtmlPages

open Loops PrintFormat SauthLines

/-! ## Searches -/

def strchrLoop (c : Char) : List Char → Nat → Except Fault (Option Nat)
  | [], _ => .error .overread
  | ch :: bytes, p =>
    if ch = c then .ok (some p)
    else if ch = '\x00' then .ok none
    else strchrLoop c bytes (p + 1)

/-- `strchr(p, c)`, for a character that is no terminator. -/
def strchr (buf : List Char) (p : Nat) (c : Char) : Except Fault (Option Nat) :=
  strchrLoop c (buf.drop p) p

/-- `for(; p < p3 && q(*p); p++)`, with the bytes that are left. -/
def spanLoop (q : Char → Bool) (buf : List Char) : Nat → Nat → Except Fault Nat
  | 0, p => .ok p
  | left + 1, p => do
    let c ← readAt buf p
    if q c then spanLoop q buf left (p + 1) else pure p

/-- The loop that counts quotes, with the bytes that are left. -/
def quoteLoop (buf : List Char) : Nat → Nat → Nat → Except Fault Nat
  | 0, _, quotecount => .ok quotecount
  | left + 1, p4, quotecount => do
    let c ← readAt buf p4
    quoteLoop buf left (p4 + 1) (if c = '"' then quotecount + 1 else quotecount)

/-! ## `htmlp_parse` -/

/-- `struct htmlp_var`. -/
structure HtmlpVar where
  hash : Nat
  name : CString
  value : CString
  deriving DecidableEq

/-- `struct htmlp_tag`; the text is where it starts in the copy. -/
structure HtmlpTag where
  hash : Nat
  closing : Bool
  vars : List HtmlpVar
  text : Nat
  name : CString
  deriving DecidableEq

/-- The copy of the page, the pointer into it and the tags so far. -/
structure Page where
  buf : List Char
  p1 : Nat
  tags : List HtmlpTag
  deriving DecidableEq

/-- The copy of the page, the pointers into it and the attributes of a tag so far. -/
structure Attributes where
  buf : List Char
  name : Nat
  p2 : Nat
  vars : List HtmlpVar

/-- The loop that looks for the end of a tag: where it is, and the blank, when that is inside.
There is no result without an end, and nothing to read at a null pointer. -/
def endTurn (buf : List Char) (p2 : Option Nat) (p4 : Nat) :
    Except Fault (Nat ⊕ Option (Nat × Option Nat)) := do
  match ← strchr buf p4 '>' with
  | none => pure (.inr none)
  | some p3 =>
    match p2 with
    | none => .error .overread
    | some p2 =>
      if p3 < p2 then pure (.inr (some (p3, none)))
      else
        let quotecount ← quoteLoop buf (p3 - p2) p2 0
        pure (if quotecount % 2 = 1 then .inl (p3 + 1) else .inr (some (p3, some p2)))

/-- The end of a turn over the attributes, which adds one that has a value. -/
def Attributes.add (a : Attributes) (buf : List Char) (name : Nat) (value : Option Nat)
    (p4 : Nat) : Except Fault (Attributes ⊕ Attributes × Bool) := do
  let c ← readAt buf name
  if c = '\x00' then pure (.inl ⟨buf, name, p4, a.vars⟩)
  else
    match value with
    | none => pure (.inl ⟨buf, name, p4, a.vars⟩)
    | some value =>
      let nameText ← textAt buf (some name)
      let valueText ← textAt buf (some value)
      let stored := strlcpy nameText 64
      pure (.inl
        ⟨buf, name, p4, a.vars ++ [⟨strIhash stored, stored, strlcpy valueText 128⟩]⟩)

/-- The loop over the attributes; it tells whether they could be read. -/
def attributeTurn (p3 : Nat) (a : Attributes) :
    Except Fault (Attributes ⊕ Attributes × Bool) :=
  if a.name < p3 ∧ a.p2 < p3 then do
    let name ← spanLoop strIsspace a.buf (p3 - a.p2) a.p2
    if p3 ≤ name + 1 then pure (.inr (a, true))
    else
      let value ← spanLoop (fun c => strIsalpha c || c == '-') a.buf (p3 - name) name
      let c ← readAt a.buf value
      if c = '=' then
        let buf ← writeAt a.buf value '\x00'
        let first ← readAt buf (value + 1)
        if first = '"' then
          let buf ← writeAt buf (value + 1) '\x00'
          match ← strchr buf (value + 2) '"' with
          | none => pure (.inr ({ a with buf := buf }, false))
          | some p4 =>
            let buf ← writeAt buf p4 '\x00'
            a.add buf name (some (value + 2)) (p4 + 1)
        else
          let found ← strchr buf (value + 1) ' '
          let p4 := min (found.getD p3) p3
          let buf ← writeAt buf p4 '\x00'
          a.add buf name (some (value + 1)) (p4 + 1)
      else
        let buf ← writeAt a.buf value '\x00'
        a.add buf name none (value + 1)
  else pure (.inr (a, true))

/-- The attributes of a tag that ends here. -/
def attributes (buf : List Char) (p3 : Nat) : Option Nat → Except Fault (Attributes × Bool)
  | none => .ok (⟨buf, 0, 0, []⟩, true)
  | some p2 => do
    let buf ← writeAt buf p2 '\x00'
    loop (attributeTurn p3) (buf.length + 1) ⟨buf, p2 + 1, p2 + 1, []⟩

/-- A turn of `htmlp_parse` from the name of a tag on. -/
def Page.tag (page : Page) (closing : Bool) (p1 : Nat) : Except Fault (Page ⊕ Int × Page) := do
  let p2 ← strchr page.buf p1 ' '
  match ← loop (endTurn page.buf p2) (page.buf.length + 1) p1 with
  | none => pure (.inr (-1, page))
  | some (p3, p2) =>
    let (a, whole) ← attributes page.buf p3 p2
    if whole then
      let buf ← writeAt a.buf p3 '\x00'
      let text ← textAt buf (some p1)
      let name := strlcpy text 64
      pure (.inl
        ⟨buf, p3 + 1, page.tags ++ [⟨strIhash name, closing, a.vars, p3 + 1, name⟩]⟩)
    else pure (.inr (-1, { page with buf := a.buf }))

/-- A turn of `htmlp_parse`, which returns a number in the end. -/
def tagTurn (page : Page) : Except Fault (Page ⊕ Int × Page) := do
  match ← strchr page.buf page.p1 '<' with
  | none => pure (.inr (0, page))
  | some p1 =>
    let buf ← writeAt page.buf p1 '\x00'
    let c ← readAt buf (p1 + 1)
    if c = '!' then
      match ← strchr buf (p1 + 1) '>' with
      | none => pure (.inr (0, { page with buf := buf }))
      | some p1 => pure (.inl { page with buf := buf, p1 := p1 })
    else if c = '/' then Page.tag { page with buf := buf } true (p1 + 2)
    else Page.tag { page with buf := buf } false (p1 + 1)

/-- What a byte of the page is copied as. -/
def copiedAs (c : Char) : Char :=
  if c = '\n' ∨ c = '\x00' then ' ' else c

/-- The loop that copies the page, with the bytes that are left. -/
def copyLoop (data : List Char) : Nat → Nat → List Char → Except Fault (List Char)
  | 0, _, buf => .ok buf
  | left + 1, i, buf => do
    let c ← readAt data i
    let buf ← writeAt buf i (copiedAs c)
    copyLoop data left (i + 1) buf

/-- `htmlp_parse`, given the memory for the copy. -/
def htmlpParse (data : List Char) (n : Nat) : Except Fault (Int × Page) := do
  let buf ← copyLoop data n 0 (List.replicate (n + 1) '\x00')
  let buf ← writeAt buf n '\x00'
  loop tagTurn (n + 1) ⟨buf, 0, []⟩

/-! ## Inside the copy -/

/-- Memory of `n + 1` bytes, of which the last one is a terminator. -/
structure Ended (n : Nat) (buf : List Char) : Prop where
  length : buf.length = n + 1
  last : buf[n]? = some '\x00'

variable {n p left : Nat} {buf : List Char} {c : Char}

theorem Ended.set (ended : Ended n buf) (p : Nat) : Ended n (buf.set p '\x00') where
  length := by rw [List.length_set, ended.length]
  last := by
    rw [List.getElem?_set, ended.last, ended.length]
    split
    · subst p
      exact if_pos (Nat.lt_succ_self n)
    · rfl

theorem Ended.writeAt (ended : Ended n buf) (inside : p ≤ n) :
    writeAt buf p '\x00' = .ok (buf.set p '\x00') := by
  rw [SauthLines.writeAt, if_pos (by rw [ended.length]; omega)]

theorem Ended.nul_mem_drop (ended : Ended n buf) (inside : p ≤ n) : '\x00' ∈ buf.drop p := by
  have last : (buf.drop p)[n - p]? = some '\x00' := by
    rw [List.getElem?_drop, Nat.add_sub_cancel' inside, ended.last]
  exact List.mem_of_getElem? last

theorem Ended.textAt (ended : Ended n buf) (inside : p ≤ n) :
    textAt buf (some p) = .ok (beforeNul (buf.drop p)) :=
  if_pos (ended.nul_mem_drop inside)

/-- A byte that is read is the first of the text there, or its terminator. -/
theorem Ended.readAt (ended : Ended n buf) (inside : p ≤ n) :
    ∃ c, readAt buf p = .ok c ∧ buf.drop p = c :: buf.drop (p + 1) := by
  have shorter : p < buf.length := by
    rw [ended.length]
    omega
  refine ⟨buf[p], ?_, List.drop_eq_getElem_cons shorter⟩
  rw [SauthLines.readAt, List.getElem?_eq_getElem shorter]

/-- A byte that is no terminator is not the last one. -/
theorem Ended.lt_of_ne (ended : Ended n buf) {rest : List Char} (inside : p ≤ n)
    (byteAt : buf.drop p = c :: rest) (isByte : c ≠ '\x00') : p < n := by
  rcases Nat.lt_or_eq_of_le inside with before | atLast
  · exact before
  · have byte := congrArg List.head? byteAt
    rw [List.head?_drop, atLast, ended.last] at byte
    exact absurd (Option.some.inj byte).symm isByte

theorem strchrLoop_cases (isByte : c ≠ '\x00') {bytes : List Char} (ended : '\x00' ∈ bytes)
    (p : Nat) :
    (strchrLoop c bytes p = .ok none ∧ c ∉ beforeNul bytes) ∨
      ∃ front rest, bytes = front ++ c :: rest ∧ '\x00' ∈ rest ∧ c ∉ front ∧
        beforeNul bytes = front ++ c :: beforeNul rest ∧
        strchrLoop c bytes p = .ok (some (p + front.length)) := by
  induction bytes generalizing p with
  | nil => cases ended
  | cons ch bytes ih =>
      rw [strchrLoop]
      by_cases found : ch = c
      · subst found
        have behind : '\x00' ∈ bytes := List.mem_of_ne_of_mem (Ne.symm isByte) ended
        exact .inr ⟨[], bytes, rfl, behind, List.not_mem_nil, beforeNul_cons isByte bytes,
          by rw [if_pos rfl]; rfl⟩
      rw [if_neg found]
      by_cases stops : ch = '\x00'
      · subst stops
        rw [beforeNul_nul_cons]
        exact .inl ⟨if_pos rfl, List.not_mem_nil⟩
      have behind : '\x00' ∈ bytes := List.mem_of_ne_of_mem (Ne.symm stops) ended
      rw [if_neg stops, beforeNul_cons stops]
      rcases ih behind (p + 1) with ⟨nothing, absent⟩ | ⟨front, rest, rfl, more, first, text, some⟩
      · exact .inl ⟨nothing, List.not_mem_cons_of_ne_of_not_mem (Ne.symm found) absent⟩
      · refine .inr ⟨ch :: front, rest, rfl, more, List.not_mem_cons_of_ne_of_not_mem (Ne.symm found) first,
          by rw [text, List.cons_append], ?_⟩
        rw [some, List.length_cons, Nat.add_assoc, Nat.add_comm 1]

/-- A search finds nothing, or the first place of the character in the text. -/
theorem Ended.strchr_cases (ended : Ended n buf) (inside : p ≤ n) (isByte : c ≠ '\x00') :
    (strchr buf p c = .ok none ∧ c ∉ beforeNul (buf.drop p)) ∨
      ∃ k, strchr buf p c = .ok (some k) ∧ p ≤ k ∧ k < n ∧
        ∃ front, c ∉ front ∧
          beforeNul (buf.drop p) = front ++ c :: beforeNul (buf.drop (k + 1)) := by
  rcases strchrLoop_cases isByte (ended.nul_mem_drop inside) p with
    nothing | ⟨front, rest, split, behind, first, text, found⟩
  · exact .inl nothing
  · have lengths := congrArg List.length split
    rw [List.length_drop, ended.length, List.length_append, List.length_cons] at lengths
    have more := List.length_pos_of_mem behind
    have rest_eq : rest = buf.drop (p + front.length + 1) := by
      rw [Nat.add_assoc, ← List.drop_drop, split, ← List.singleton_append, ← List.append_assoc,
        List.drop_left' (by simp)]
    refine .inr ⟨p + front.length, found, by omega, by omega, front, first, ?_⟩
    rw [text, rest_eq]

theorem Ended.spanLoop (ended : Ended n buf) (left : Nat) (q : Char → Bool) (inside : p + left ≤ n + 1) :
    ∃ p', spanLoop q buf left p = .ok p' ∧ p ≤ p' ∧ p' ≤ p + left := by
  induction left generalizing p with
  | zero => exact ⟨p, rfl, Nat.le_refl p, Nat.le_refl p⟩
  | succ left ih =>
      obtain ⟨c, read, -⟩ := ended.readAt (p := p) (by omega)
      rw [HtmlPages.spanLoop, read, Fault.ok_bind]
      by_cases goesOn : q c = true
      · obtain ⟨p', spans, above, below⟩ := ih (p := p + 1) (by omega)
        rw [if_pos goesOn]
        exact ⟨p', spans, by omega, by omega⟩
      · rw [if_neg goesOn]
        exact ⟨p, rfl, by omega, by omega⟩

theorem Ended.quoteLoop (ended : Ended n buf) (left : Nat) (inside : p + left ≤ n + 1) (quotecount : Nat) :
    ∃ quotecount', quoteLoop buf left p quotecount = .ok quotecount' := by
  induction left generalizing p quotecount with
  | zero => exact ⟨quotecount, rfl⟩
  | succ left ih =>
      obtain ⟨c, read, -⟩ := ended.readAt (p := p) (by omega)
      rw [HtmlPages.quoteLoop, read, Fault.ok_bind]
      exact ih (by omega) _

/-! ## The end of a tag -/

/-- From a blank on, the end of a tag is found, or there is none in the page. -/
theorem Ended.loop_endTurn (ended : Ended n buf) {p1 p2 : Nat} (inside : p1 ≤ n)
    (blank : p2 < n) :
    ∃ found, loop (endTurn buf (some p2)) (buf.length + 1) p1 = .ok found ∧
      ∀ end_ ∈ found, p1 ≤ end_.1 ∧ end_.1 < n ∧ ∀ p2 ∈ end_.2, p2 < n := by
  refine loop_spec (fun p4 => p1 ≤ p4 ∧ p4 ≤ n) (fun p4 => n - p4) ?_
    ⟨Nat.le_refl p1, inside⟩ (by rw [ended.length]; omega)
  rintro p4 ⟨above, below⟩
  rw [endTurn]
  rcases ended.strchr_cases below (c := '>') (by decide) with
    ⟨nothing, -⟩ | ⟨p3, found, further, before, -⟩
  · rw [nothing, Fault.ok_bind]
    exact .inr ⟨none, rfl, fun _ member => by cases member⟩
  · rw [found, Fault.ok_bind]
    by_cases outside : p3 < p2
    · refine .inr ⟨some (p3, none), if_pos outside, ?_⟩
      rintro end_ ⟨⟩
      exact ⟨by omega, before, fun _ member => by cases member⟩
    · obtain ⟨quotecount, counts⟩ :=
        ended.quoteLoop (p := p2) (p3 - p2) (by omega) 0
      simp only [if_neg outside, counts, Fault.ok_bind]
      by_cases odd : quotecount % 2 = 1
      · rw [if_pos odd]
        exact .inl ⟨p3 + 1, rfl, ⟨by omega, by omega⟩, by omega⟩
      · rw [if_neg odd]
        refine .inr ⟨some (p3, some p2), rfl, ?_⟩
        rintro end_ ⟨⟩
        refine ⟨by omega, before, ?_⟩
        rintro p2' ⟨⟩
        exact blank

/-- Without a blank there is a fault as soon as there is an end. -/
theorem loop_endTurn_none (turns p1 : Nat) :
    loop (endTurn buf none) (turns + 1) p1 =
      match strchr buf p1 '>' with
      | .error fault => .error fault
      | .ok none => .ok none
      | .ok (some _) => .error .overread := by
  rw [loop, endTurn]
  cases strchr buf p1 '>' with
  | error fault => rfl
  | ok found =>
      cases found with
      | none => rfl
      | some p3 => rfl

/-! ## Attributes -/

/-- What is kept of an attribute lies inside the copy. -/
theorem Attributes.add_cases (a : Attributes) (name : Nat) (value : Option Nat) (p4 : Nat)
    (ended : Ended n buf) (inside : name ≤ n) (valueInside : ∀ p ∈ value, p ≤ n) :
    ∃ next, a.add buf name value p4 = .ok (.inl next) ∧ next.buf = buf ∧ next.p2 = p4 := by
  obtain ⟨c, read, -⟩ := ended.readAt inside
  rw [Attributes.add.eq_def, read, Fault.ok_bind]
  by_cases empty : c = '\x00'
  · exact ⟨_, if_pos empty, rfl, rfl⟩
  · rw [if_neg empty]
    cases value with
    | none => exact ⟨_, rfl, rfl, rfl⟩
    | some value =>
        simp only [ended.textAt inside, ended.textAt (valueInside value rfl), Fault.ok_bind]
        exact ⟨_, rfl, rfl, rfl⟩

/-- A turn over the attributes stays inside the copy and goes on behind where it began. -/
theorem attributeTurn_cases {a : Attributes} {p3 : Nat} (ended : Ended n a.buf) (before : p3 < n) :
    (∃ next, attributeTurn p3 a = .ok (.inl next) ∧
        Ended n next.buf ∧ a.p2 < next.p2 ∧ next.p2 ≤ n) ∨
      ∃ last, attributeTurn p3 a = .ok (.inr last) ∧ Ended n last.1.buf := by
  rw [attributeTurn]
  by_cases goesOn : a.name < p3 ∧ a.p2 < p3
  case neg =>
    rw [if_neg goesOn]
    exact .inr ⟨(a, true), rfl, ended⟩
  obtain ⟨name, spans, above, below⟩ :=
    ended.spanLoop (p := a.p2) (p3 - a.p2) strIsspace (by omega)
  rw [if_pos goesOn, spans, Fault.ok_bind]
  by_cases last : p3 ≤ name + 1
  · rw [if_pos last]
    exact .inr ⟨(a, true), rfl, ended⟩
  obtain ⟨value, spans, aboveName, belowEnd⟩ :=
    ended.spanLoop (p := name) (p3 - name) (fun c => strIsalpha c || c == '-') (by omega)
  obtain ⟨c, read, -⟩ := ended.readAt (p := value) (by omega)
  simp only [if_neg last, spans, read, Fault.ok_bind]
  have ended' := ended.set value
  by_cases hasValue : c = '='
  case neg =>
    -- an attribute without a value
    simp only [if_neg hasValue, ended.writeAt (p := value) (by omega), Fault.ok_bind]
    obtain ⟨next, adds, same, behind⟩ :=
      Attributes.add_cases a name none (value + 1) ended' (by omega)
        (fun _ member => by cases member)
    exact .inl ⟨next, adds, same ▸ ended', by omega, by omega⟩
  obtain ⟨first, readFirst, firstAt⟩ := ended'.readAt (p := value + 1) (by omega)
  simp only [if_pos hasValue, ended.writeAt (p := value) (by omega), readFirst, Fault.ok_bind]
  by_cases quoted : first = '"'
  · -- a quoted value, whose end may be behind that of the tag
    have ended'' := ended'.set (value + 1)
    have quoteBefore : value + 1 < n :=
      ended'.lt_of_ne (by omega) firstAt (by rw [quoted]; decide)
    simp only [if_pos quoted, ended'.writeAt (p := value + 1) (by omega), Fault.ok_bind]
    rcases ended''.strchr_cases (p := value + 2) (c := '"') (by omega) (by decide) with
      ⟨nothing, -⟩ | ⟨p4, found, further, p4Before, -⟩
    · rw [nothing, Fault.ok_bind]
      exact .inr ⟨_, rfl, ended''⟩
    · simp only [found, ended''.writeAt (p := p4) (by omega), Fault.ok_bind]
      obtain ⟨next, adds, same, behind⟩ :=
        Attributes.add_cases a name (some (value + 2)) (p4 + 1) (ended''.set p4) (by omega)
          (fun p member => by cases member; omega)
      exact .inl ⟨next, adds, same ▸ ended''.set p4, by omega, by omega⟩
  · -- a value up to the next blank, or up to the end of the tag
    have searched : ∃ found, strchr (a.buf.set value '\x00') (value + 1) ' ' = .ok found ∧
        ∀ p4 ∈ found, value + 1 ≤ p4 := by
      rcases ended'.strchr_cases (p := value + 1) (c := ' ') (by omega) (by decide) with
        ⟨nothing, -⟩ | ⟨p4, found, further, -⟩
      · exact ⟨none, nothing, fun _ member => by cases member⟩
      · exact ⟨some p4, found, fun _ member => by cases member; exact further⟩
    obtain ⟨found, search, further⟩ := searched
    have p4Above : a.p2 < min (found.getD p3) p3 := by
      cases found with
      | none =>
          rw [Option.getD_none, Nat.min_self]
          omega
      | some p4 =>
          have behind := further p4 rfl
          rw [Option.getD_some]
          omega
    have p4Below : min (found.getD p3) p3 ≤ p3 := Nat.min_le_right _ _
    simp only [if_neg quoted, search, Fault.ok_bind,
      ended'.writeAt (p := min (found.getD p3) p3) (by omega)]
    obtain ⟨next, adds, same, behind⟩ :=
      Attributes.add_cases a name (some (value + 1)) (min (found.getD p3) p3 + 1) (ended'.set _)
        (by omega) (fun p member => by cases member; omega)
    exact .inl ⟨next, adds, same ▸ ended'.set _, by omega, by omega⟩

/-- The attributes of a tag are read inside the copy. -/
theorem Ended.attributes (ended : Ended n buf) {p3 : Nat} (before : p3 < n) {p2 : Option Nat}
    (inside : ∀ p ∈ p2, p < n) :
    ∃ last, attributes buf p3 p2 = .ok last ∧ Ended n last.1.buf := by
  cases p2 with
  | none => exact ⟨_, rfl, ended⟩
  | some p2 =>
      have blank := inside p2 rfl
      have ended' := ended.set p2
      rw [HtmlPages.attributes, ended.writeAt (Nat.le_of_lt blank), Fault.ok_bind]
      refine loop_spec (fun a => Ended n a.buf ∧ a.p2 ≤ n) (fun a => n - a.p2) ?_
        ⟨ended', blank⟩ (by rw [ended'.length]; omega)
      rintro a ⟨ended, below⟩
      rcases attributeTurn_cases ended before with
        ⟨next, goesOn, kept, above, below⟩ | ⟨last, comesOut, kept⟩
      · exact .inl ⟨next, goesOn, ⟨kept, below⟩, by omega⟩
      · exact .inr ⟨last, comesOut, kept⟩

/-! ## Which pages can be read -/

/-- The text behind the start of the next tag, unless that is a comment. -/
def tagBody (text : CString) : Option CString :=
  match text.dropWhile fun c => c ≠ '<' with
  | [] => none
  | _ :: behind =>
    if behind.head? = some '!' then none
    else if behind.head? = some '/' then some behind.tail
    else some behind

/-- If the next tag has an end ahead, it has a blank ahead as well. -/
def BlankAhead (page : Page) : Prop :=
  ∀ body, tagBody (beforeNul (page.buf.drop page.p1)) = some body → '>' ∈ body → ' ' ∈ body

/-- The page before the first turn. -/
def Page.opened (data : List Char) : Page :=
  ⟨data.map copiedAs ++ ['\x00'], 0, []⟩

/-- The pointer is in the copy. -/
structure Page.Inside (n : Nat) (page : Page) : Prop where
  ended : Ended n page.buf
  pointer : page.p1 ≤ n

/-- From its name on, a tag can be read if and only if no end is ahead without a blank. -/
theorem Page.tag_cases {page : Page} {p1 : Nat} (ended : Ended n page.buf) (inside : p1 ≤ n)
    (closing : Bool) :
    (('>' ∈ beforeNul (page.buf.drop p1) ∧ ' ' ∉ beforeNul (page.buf.drop p1)) ∧
        ∃ fault, page.tag closing p1 = .error fault) ∨
      (('>' ∈ beforeNul (page.buf.drop p1) → ' ' ∈ beforeNul (page.buf.drop p1)) ∧
        ((∃ next, page.tag closing p1 = .ok (.inl next) ∧ Page.Inside n next ∧ p1 < next.p1) ∨
          ∃ last, page.tag closing p1 = .ok (.inr last))) := by
  rw [Page.tag]
  rcases ended.strchr_cases inside (c := ' ') (by decide) with
    ⟨nothing, noBlank⟩ | ⟨blank, found, -, blankBefore, front, -, text⟩
  · rw [nothing, Fault.ok_bind, loop_endTurn_none]
    rcases ended.strchr_cases inside (c := '>') (by decide) with
      ⟨nothing, noEnd⟩ | ⟨p3, found, -, -, front, -, text⟩
    · rw [nothing]
      exact .inr ⟨fun member => absurd member noEnd, .inr ⟨_, rfl⟩⟩
    · rw [found]
      refine .inl ⟨⟨?_, noBlank⟩, _, rfl⟩
      rw [text]
      exact List.mem_append_right front List.mem_cons_self
  · have blankAhead : ' ' ∈ beforeNul (page.buf.drop p1) := by
      rw [text]
      exact List.mem_append_right front List.mem_cons_self
    refine .inr ⟨fun _ => blankAhead, ?_⟩
    obtain ⟨tagEnd, ends, where_⟩ := ended.loop_endTurn inside blankBefore
    rw [found, Fault.ok_bind, ends, Fault.ok_bind]
    cases tagEnd with
    | none => exact .inr ⟨_, rfl⟩
    | some tagEnd =>
        obtain ⟨p3, p2⟩ := tagEnd
        obtain ⟨above, before, p2Inside⟩ := where_ _ rfl
        obtain ⟨⟨a, whole⟩, reads, kept⟩ := ended.attributes before p2Inside
        simp only [reads, Fault.ok_bind]
        cases whole with
        | false => exact .inr ⟨_, rfl⟩
        | true =>
            simp only [↓reduceIte, kept.writeAt (Nat.le_of_lt before),
              (kept.set p3).textAt inside, Fault.ok_bind]
            exact .inl ⟨_, rfl, ⟨kept.set p3, before⟩, Nat.lt_succ_of_le above⟩

theorem tagBody_eq {front : CString} (absent : '<' ∉ front) (behind : CString) :
    tagBody (front ++ '<' :: behind) =
      if behind.head? = some '!' then none
      else if behind.head? = some '/' then some behind.tail
      else some behind := by
  have skipped : (front ++ '<' :: behind).dropWhile (fun c => c ≠ '<') = '<' :: behind := by
    rw [List.dropWhile_append_of_pos, List.dropWhile_cons_of_neg (by decide)]
    intro c member
    exact decide_eq_true fun same => absent (same ▸ member)
  rw [tagBody, skipped]

theorem tagBody_eq_none {text : CString} (absent : '<' ∉ text) : tagBody text = none := by
  have skipped : text.dropWhile (fun c => c ≠ '<') = [] :=
    List.dropWhile_eq_nil_iff.mpr fun c member =>
      decide_eq_true fun same => absent (same ▸ member)
  rw [tagBody, skipped]

/-- What a turn of `htmlp_parse` comes to: it fails if and only if an end is ahead without a
blank; otherwise it goes on further behind in the page, or returns. -/
def TurnFrom (n : Nat) (page : Page) (turned : Except Fault (Page ⊕ Int × Page)) : Prop :=
  (¬ BlankAhead page ∧ ∃ fault, turned = .error fault) ∨
    (BlankAhead page ∧
      ((∃ next, turned = .ok (.inl next) ∧ Page.Inside n next ∧ page.p1 < next.p1) ∨
        ∃ last, turned = .ok (.inr last)))

/-- A turn that has come to a tag does what reading the tag does. -/
theorem turnFrom_tag {page copy : Page} {p1 : Nat} (ended : Ended n copy.buf) (inside : p1 ≤ n)
    (further : page.p1 < p1) (closing : Bool)
    (body : tagBody (beforeNul (page.buf.drop page.p1)) = some (beforeNul (copy.buf.drop p1))) :
    TurnFrom n page (copy.tag closing p1) := by
  rw [TurnFrom, BlankAhead, body]
  rcases copy.tag_cases ended inside closing with
    ⟨⟨endAhead, noBlank⟩, fails⟩ | ⟨blank, ⟨next, goesOn, kept, behind⟩ | comesOut⟩
  · exact .inl ⟨fun all => noBlank (all _ rfl endAhead), fails⟩
  · refine .inr ⟨fun body same => ?_, .inl ⟨next, goesOn, kept, by omega⟩⟩
    cases same
    exact blank
  · refine .inr ⟨fun body same => ?_, .inr comesOut⟩
    cases same
    exact blank

theorem tagTurn_cases {page : Page} (inside : Page.Inside n page) :
    TurnFrom n page (tagTurn page) := by
  obtain ⟨ended, pointer⟩ := inside
  rw [tagTurn]
  rcases ended.strchr_cases pointer (c := '<') (by decide) with
    ⟨nothing, noTag⟩ | ⟨p1, found, above, before, front, absent, text⟩
  · rw [nothing, TurnFrom, BlankAhead, tagBody_eq_none noTag]
    exact .inr ⟨(fun _ same => by cases same), .inr ⟨_, rfl⟩⟩
  have ended' := ended.set p1
  have later : ∀ k, (page.buf.set p1 '\x00').drop (p1 + 1 + k) = page.buf.drop (p1 + 1 + k) :=
    fun k => List.drop_set_of_lt (by omega)
  obtain ⟨c, read, byteAt⟩ := ended'.readAt (p := p1 + 1) before
  have bodyAt : tagBody (beforeNul (page.buf.drop page.p1)) =
      if c = '!' then none
      else if c = '/' then some (beforeNul ((page.buf.set p1 '\x00').drop (p1 + 2)))
      else some (beforeNul ((page.buf.set p1 '\x00').drop (p1 + 1))) := by
    rw [text, tagBody_eq absent, ← later 0]
    rw [Nat.add_zero, byteAt]
    by_cases empty : c = '\x00'
    · subst empty
      rfl
    · rw [beforeNul_cons empty, List.head?_cons, List.tail_cons]
      simp only [Option.some.injEq]
  simp only [found, Fault.ok_bind, ended.writeAt (Nat.le_of_lt before), read]
  by_cases comment : c = '!'
  · rw [if_pos comment] at bodyAt ⊢
    rw [TurnFrom, BlankAhead, bodyAt]
    refine .inr ⟨(fun _ same => by cases same), ?_⟩
    rcases ended'.strchr_cases (p := p1 + 1) (c := '>') before (by decide) with
      ⟨nothing, -⟩ | ⟨p, found, further, pBefore, -⟩
    · rw [nothing]
      exact .inr ⟨_, rfl⟩
    · rw [found]
      exact .inl ⟨_, rfl, ⟨ended', Nat.le_of_lt pBefore⟩, by dsimp only; omega⟩
  rw [if_neg comment] at bodyAt ⊢
  by_cases closing : c = '/'
  · rw [if_pos closing] at bodyAt ⊢
    have inside' : p1 + 2 ≤ n := ended'.lt_of_ne before byteAt (by rw [closing]; decide)
    exact turnFrom_tag ended' inside' (by omega) true bodyAt
  · rw [if_neg closing] at bodyAt ⊢
    exact turnFrom_tag ended' before (by omega) false bodyAt

/-! ## The copy -/

theorem copyLoop_eq (data : List Char) (i left : Nat) (inside : i + left = data.length)
    (rest : List Char) :
    copyLoop (data ++ rest) left i
        ((data.take i).map copiedAs ++ List.replicate (left + 1) '\x00') =
      .ok (data.map copiedAs ++ ['\x00']) := by
  induction left generalizing i with
  | zero =>
      rw [copyLoop, List.take_of_length_le (by omega)]
      rfl
  | succ left ih =>
      have before : i < data.length := by omega
      have read : readAt (data ++ rest) i = .ok data[i] := by
        rw [SauthLines.readAt, List.getElem?_append_left before, List.getElem?_eq_getElem before]
      have lengths : ((data.take i).map copiedAs).length = i := by
        rw [List.length_map, List.length_take]
        omega
      rw [copyLoop, read, Fault.ok_bind, SauthLines.writeAt, if_pos (by simp; omega),
        Fault.ok_bind, ← ih (i := i + 1) (by omega), List.set_append_right _ _ (by omega),
        lengths, Nat.sub_self, List.replicate_succ, List.set_cons_zero,
        ← List.take_concat_get' data i before, List.map_append, List.append_assoc]
      rfl

/-- A page is read from its copy on. -/
theorem htmlpParse_eq (data rest : List Char) :
    htmlpParse (data ++ rest) data.length =
      loop tagTurn (data.length + 1) (Page.opened data) := by
  have copied := copyLoop_eq data 0 data.length (by omega) rest
  rw [List.take_zero, List.map_nil, List.nil_append] at copied
  have last : SauthLines.writeAt (data.map copiedAs ++ ['\x00']) data.length '\x00' =
      .ok (data.map copiedAs ++ ['\x00']) := by
    rw [SauthLines.writeAt, if_pos (by simp), List.set_append_right _ _ (by simp)]
    simp
  rw [htmlpParse, copied, Fault.ok_bind, last, Fault.ok_bind, Page.opened]

/-- `htmlp_parse` ends inside the page and its copy if and only if there is a blank ahead of
every tag that it comes to and that has an end. -/
theorem htmlpParse_ok_iff (data rest : List Char) :
    (∃ result, htmlpParse (data ++ rest) data.length = .ok result) ↔
      ∀ page, Reaches tagTurn (Page.opened data) page → BlankAhead page := by
  have opened : Page.Inside data.length (Page.opened data) := by
    refine ⟨⟨by simp [Page.opened], ?_⟩, Nat.zero_le _⟩
    rw [Page.opened, List.getElem?_append_right (by simp)]
    simp
  have lower : ∀ page next, Page.Inside data.length page → tagTurn page = .ok (.inl next) →
      Page.Inside data.length next ∧ data.length - next.p1 < data.length - page.p1 := by
    intro page next inside goesOn
    rcases tagTurn_cases inside with
      ⟨-, fault, fails⟩ | ⟨-, ⟨next', turned, kept, further⟩ | ⟨last, comesOut⟩⟩
    · rw [fails] at goesOn
      cases goesOn
    · rw [turned] at goesOn
      cases goesOn
      have below := kept.pointer
      exact ⟨kept, by omega⟩
    · rw [comesOut] at goesOn
      cases goesOn
  rw [htmlpParse_eq, loop_ok_iff _ _ lower opened (Nat.lt_succ_of_le (Nat.sub_le _ _))]
  refine forall_congr' fun page => forall_congr' fun reaches => ?_
  have inside := reaches.invariant (fun page next inside goesOn => (lower page next inside goesOn).1)
    opened
  rcases tagTurn_cases inside with
    ⟨missing, fault, fails⟩ | ⟨ahead, ⟨next, turned, -⟩ | ⟨last, comesOut⟩⟩
  · refine iff_of_false ?_ missing
    rintro ⟨outcome, same⟩
    rw [fails] at same
    cases same
  · exact iff_of_true ⟨_, turned⟩ ahead
  · exact iff_of_true ⟨_, comesOut⟩ ahead

end HtmlPages

end Chaosircd
