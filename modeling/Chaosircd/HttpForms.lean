import Chaosircd.PrintFormat
import Chaosircd.SauthLines

/-!
# Forms

`httpc_var_build` writes the variables of a request into one text, in which names and values
are encoded so that `&` and `=` are not in them.  The buffer is made for as many bytes as there
can be in the names and values, and three bytes are written for some of them.
-/

namespace Chaosircd

namespace HttpForms

open PrintFormat SauthLines

/-! ## `httpc_url_encode` -/

/-- `httpc_hexchars`. -/
def httpcHexchars : List Char :=
  ['0', '1', '2', '3', '4', '5', '6', '7', '8', '9', 'A', 'B', 'C', 'D', 'E', 'F', '\x00']

/-- `(uint32_t)(c >> 4)`; the characters are signed. -/
def highNibble (c : Char) : Nat :=
  if c.toNat < 128 then c.toNat / 16 else 2 ^ 32 - 16 + c.toNat / 16

/-- `(uint32_t)(c & 0x0f)`. -/
def lowNibble (c : Char) : Nat :=
  c.toNat % 16

/-- The characters that are written as they are. -/
def isPlain (loc : Bool) (c : Char) : Bool :=
  strIsdigit c || strIsalpha c || (loc && c == '/') || (loc && c == '.') || c == '-' || c == '_'

/-- What is written for a character. -/
def encodeChar (loc : Bool) (c : Char) : Except Fault CString :=
  if isPlain loc c then pure [c]
  else if c = ' ' ∧ loc = false then pure ['+']
  else do
    let high ← readAt httpcHexchars (highNibble c)
    let low ← readAt httpcHexchars (lowNibble c)
    pure ['%', high, low]

/-- `to[di++] = c`, for several characters. -/
def store : List Char → Nat → CString → Except Fault (List Char)
  | content, _, [] => .ok content
  | content, p, c :: text => do
    let content ← writeAt content p c
    store content (p + 1) text

/-- The loop of `httpc_url_encode`, whose target points into the content. -/
def encodeLoop (start n : Nat) (loc : Bool) :
    CString → List Char → Nat → Except Fault (List Char × Nat)
  | [], content, di => do
    let content ← writeAt content (start + di) '\x00'
    pure (content, di)
  | c :: from_, content, di =>
    if di + 4 < n then do
      let text ← encodeChar loc c
      let content ← store content (start + di) text
      encodeLoop start n loc from_ content (di + text.length)
    else do
      let content ← writeAt content (start + di) '\x00'
      pure (content, di)

/-- `httpc_url_encode`. -/
def httpcUrlEncode (content : List Char) (start : Nat) (from_ : CString) (n : Nat) (loc : Bool) :
    Except Fault (List Char × Nat) :=
  encodeLoop start n loc from_ content 0

/-! ## `httpc_var_build` -/

/-- The texts of `struct httpc_var`. -/
structure HttpcVar where
  name : CString
  value : CString
  nameFits : name.length < 64
  valueFits : value.length < 128

/-- `size - n - 1`, a `size_t`. -/
def remaining (size n : Nat) : Nat :=
  if n + 1 ≤ size then size - n - 1 else 2 ^ 64 + size - n - 1

/-- `mem_dynamic_realloc`, which fills with zeros. -/
def resize (content : List Char) (size : Nat) : List Char :=
  content.take size ++ List.replicate (size - content.length) '\x00'

/-- `if(n) content[n++] = '&'`. -/
def separate (content : List Char) (n : Nat) : Except Fault (List Char × Nat) :=
  if n ≠ 0 then do
    let content ← writeAt content n '&'
    pure (content, n + 1)
  else pure (content, n)

/-- A turn of the loop over the variables. -/
def addVar (size : Nat) (hvptr : HttpcVar) (content : List Char) (n : Nat) :
    Except Fault (List Char × Nat) := do
  let (content, n) ← separate content n
  let (content, length) ← httpcUrlEncode content n hvptr.name (remaining size n) false
  let n := n + length
  let content ← writeAt content n '='
  let n := n + 1
  let (content, length) ← httpcUrlEncode content n hvptr.value (remaining size n) false
  let n := n + length
  pure (if size < n + 1024 then resize content (n + 1024) else content, n)

def addVars (size : Nat) : List HttpcVar → List Char → Nat → Except Fault (List Char × Nat)
  | [], content, n => .ok (content, n)
  | hvptr :: vars, content, n => do
    let (content, n) ← addVar size hvptr content n
    addVars size vars content n

/-- `httpc_var_build`: the content and its length. -/
def httpcVarBuild (vars : List HttpcVar) : Except Fault (List Char × Nat) := do
  let size := vars.length * (64 + 1024) + 1
  let (content, n) ← addVars size vars (List.replicate size '\x00') 0
  let content ← writeAt content n '\x00'
  pure (resize content (n + 1), n)

/-! ## Reading a form -/

def hexValue (c : Char) : Nat :=
  if c.toNat ≤ '9'.toNat then c.toNat - '0'.toNat else c.toNat - 'A'.toNat + 10

/-- A text with its escapes read, and a blank for `+`. -/
def percentDecode : CString → CString
  | '%' :: high :: low :: text => Char.ofNat (hexValue high * 16 + hexValue low) :: percentDecode text
  | '+' :: text => ' ' :: percentDecode text
  | c :: text => c :: percentDecode text
  | [] => []

/-- The name and the value in a field. -/
def decodeField (field : CString) : CString × CString :=
  (percentDecode (field.takeWhile fun c => c ≠ '='),
    percentDecode (field.dropWhile fun c => c ≠ '=').tail)

/-- The names and values in a form. -/
def formDecode (content : CString) : List (CString × CString) :=
  if content = [] then [] else (content.splitOn '&').map decodeField

/-! ## Characters -/

def hexDigit (i : Nat) : Char :=
  httpcHexchars.getD i '0'

/-- What is written for a character of seven bits. -/
def encodedChar (c : Char) : CString :=
  if isPlain false c then [c]
  else if c = ' ' then ['+']
  else ['%', hexDigit (c.toNat / 16), hexDigit (c.toNat % 16)]

def encoded (s : CString) : CString :=
  s.flatMap encodedChar

/-- Every character has seven bits. -/
def Ascii (s : CString) : Prop :=
  ∀ c ∈ s, c.toNat < 128

variable {c : Char} {s rest front content : List Char} {n size : Nat}

theorem readAt_hexchars {i : Nat} (nibble : i < 16) : readAt httpcHexchars i = .ok (hexDigit i) := by
  have all : ∀ i < 16, httpcHexchars[i]? = some (hexDigit i) := by decide
  rw [readAt, all i nibble]

theorem hexValue_hexDigit {i : Nat} (nibble : i < 16) : hexValue (hexDigit i) = i := by
  have all : ∀ i < 16, hexValue (hexDigit i) = i := by decide
  exact all i nibble

theorem hexDigit_ne {i : Nat} (nibble : i < 16) : hexDigit i ≠ '&' ∧ hexDigit i ≠ '=' := by
  have all : ∀ i < 16, hexDigit i ≠ '&' ∧ hexDigit i ≠ '=' := by decide
  exact all i nibble

theorem toNat_lt_of_isPlain (plain : isPlain false c = true) : c.toNat < 128 := by
  simp only [isPlain, strIsdigit, strIsalpha, Bool.or_eq_true, Bool.and_eq_true, decide_eq_true_eq,
    beq_iff_eq, Bool.false_and, Bool.false_eq_true, or_false, Char.le_def,
    UInt32.le_iff_toNat_le] at plain
  rcases plain with (((⟨-, below⟩ | ⟨-, below⟩ | ⟨-, below⟩) | rfl) | rfl)
  · exact Nat.lt_of_le_of_lt below (by decide)
  · exact Nat.lt_of_le_of_lt below (by decide)
  · exact Nat.lt_of_le_of_lt below (by decide)
  · decide
  · decide

theorem encodeChar_ascii (ascii : c.toNat < 128) : encodeChar false c = .ok (encodedChar c) := by
  rw [encodeChar, encodedChar]
  by_cases plain : isPlain false c = true
  · rw [if_pos plain, if_pos plain]
    rfl
  rw [if_neg plain, if_neg plain]
  by_cases blank : c = ' '
  · rw [if_pos ⟨blank, rfl⟩, if_pos blank]
    rfl
  have high : readAt httpcHexchars (highNibble c) = .ok (hexDigit (c.toNat / 16)) := by
    rw [highNibble, if_pos ascii]
    exact readAt_hexchars (by omega)
  rw [if_neg fun both => blank both.1, if_neg blank, high, Fault.ok_bind, lowNibble,
    readAt_hexchars (Nat.mod_lt _ (by decide)), Fault.ok_bind]
  rfl

/-- For a character with the eighth bit a byte far behind the table is read. -/
theorem encodeChar_wide (wide : ¬ c.toNat < 128) : encodeChar false c = .error .overread := by
  have plain : ¬ isPlain false c = true := fun plain => wide (toNat_lt_of_isPlain plain)
  have blank : ¬ (c = ' ' ∧ false = false) := by
    rintro ⟨rfl, -⟩
    exact wide (by decide)
  have outside : httpcHexchars[highNibble c]? = none := by
    rw [highNibble, if_neg wide]
    refine List.getElem?_eq_none (Nat.le_trans (m := 17) (by decide) ?_)
    omega
  rw [encodeChar, if_neg plain, if_neg blank, readAt, outside]
  rfl

theorem length_encodedChar_le (c : Char) : (encodedChar c).length ≤ 3 := by
  rw [encodedChar]
  split
  · exact Nat.le_add_left 1 2
  · split
    · decide
    · exact Nat.le_refl 3

theorem length_encoded_le (s : CString) : (encoded s).length ≤ 3 * s.length := by
  induction s with
  | nil => exact Nat.le_refl 0
  | cons c s ih =>
      have first := length_encodedChar_le c
      rw [encoded, List.flatMap_cons, List.length_append, List.length_cons]
      rw [encoded] at ih
      omega

/-! ## Writing -/

/-- A text is stored behind what was written. -/
theorem store_front (starts : front <+: content) (text : CString)
    (room : front.length + text.length ≤ content.length) :
    ∃ content', store content front.length text = .ok content' ∧ front ++ text <+: content' ∧
      content'.length = content.length := by
  induction text generalizing front content with
  | nil => exact ⟨content, rfl, by rwa [List.append_nil], rfl⟩
  | cons c text ih =>
      rw [List.length_cons] at room
      have inside : front.length < content.length := by omega
      obtain ⟨behind, rfl⟩ := starts
      have starts' : front ++ [c] <+: (front ++ behind).set front.length c := by
        rw [List.set_append_right _ _ (Nat.le_refl _), Nat.sub_self]
        cases behind with
        | nil => simp at inside
        | cons old behind => exact ⟨behind, by simp⟩
      obtain ⟨content', stores, starts'', same⟩ := ih starts' (by
        rw [List.length_append, List.length_singleton, List.length_set]
        omega)
      rw [List.length_append, List.length_singleton] at stores
      rw [store, writeAt, if_pos inside, Fault.ok_bind]
      refine ⟨content', stores, ?_, by rw [same, List.length_set]⟩
      rwa [List.append_assoc, List.singleton_append] at starts''

theorem writeAt_front (starts : front <+: content) (room : front.length < content.length)
    (c : Char) :
    ∃ content', writeAt content front.length c = .ok content' ∧ front ++ [c] <+: content' ∧
      content'.length = content.length := by
  obtain ⟨content', stores, spec⟩ := store_front starts [c] room
  refine ⟨content', ?_, spec⟩
  rw [store] at stores
  cases written : writeAt content front.length c with
  | error fault =>
      rw [written] at stores
      cases stores
  | ok content'' =>
      rw [written] at stores
      exact stores

/-- With room for it, a text of seven bits is encoded whole, and another reads outside. -/
theorem encodeLoop_cases {start : Nat} (done : CString) (starts : front ++ done <+: content)
    (at_ : front.length = start) (room : done.length + 3 * s.length + 4 < n)
    (inside : start + n ≤ content.length) :
    (Ascii s ∧ ∃ content', encodeLoop start n false s content done.length =
          .ok (content', (done ++ encoded s).length) ∧
        front ++ (done ++ encoded s) <+: content' ∧ content'.length = content.length) ∨
      (¬ Ascii s ∧
        encodeLoop start n false s content done.length = .error .overread) := by
  induction s generalizing done content with
  | nil =>
      have last : (front ++ done).length = start + done.length := by
        rw [List.length_append, at_]
      obtain ⟨content', writes, starts', same⟩ := writeAt_front starts (by omega) '\x00'
      rw [last] at writes
      refine .inl ⟨(fun c member => by cases member), content', ?_, ?_, same⟩
      · rw [encodeLoop, writes, encoded, List.flatMap_nil, List.append_nil]
        rfl
      · rw [encoded, List.flatMap_nil, List.append_nil]
        exact (List.prefix_append _ _).trans starts'
  | cons c s ih =>
      rw [List.length_cons] at room
      rw [encodeLoop, if_pos (by omega)]
      by_cases ascii : c.toNat < 128
      · have three := length_encodedChar_le c
        have last : (front ++ done).length = start + done.length := by
          rw [List.length_append, at_]
        obtain ⟨content', stores, starts', same⟩ :=
          store_front starts (encodedChar c) (by omega)
        rw [last] at stores
        rw [encodeChar_ascii ascii, Fault.ok_bind, stores, Fault.ok_bind, ← List.length_append]
        rw [List.append_assoc] at starts'
        have whole : done ++ encoded (c :: s) = done ++ encodedChar c ++ encoded s := by
          rw [encoded, List.flatMap_cons, List.append_assoc]
          rfl
        rw [whole, ← same]
        rcases ih _ starts' (by rw [List.length_append]; omega) (by omega) with
          ⟨rest, result⟩ | ⟨rest, fails⟩
        · exact .inl ⟨List.forall_mem_cons.mpr ⟨ascii, rest⟩, result⟩
        · exact .inr ⟨fun all => rest (List.forall_mem_cons.mp all).2, fails⟩
      · rw [encodeChar_wide ascii]
        exact .inr ⟨fun all => ascii (List.forall_mem_cons.mp all).1, rfl⟩

/-! ## The content -/

/-- A variable in the content. -/
def field (hvptr : HttpcVar) : CString :=
  encoded hvptr.name ++ '=' :: encoded hvptr.value

/-- What is between this text and the next variable. -/
def separator (front : CString) : CString :=
  if front = [] then [] else ['&']

/-- This text with the variables behind it. -/
def joined (front : CString) : List HttpcVar → CString
  | [] => front
  | hvptr :: vars => joined (front ++ separator front ++ field hvptr) vars

theorem length_field_le (hvptr : HttpcVar) : (field hvptr).length ≤ 571 := by
  have name := length_encoded_le hvptr.name
  have value := length_encoded_le hvptr.value
  have nameFits := hvptr.nameFits
  have valueFits := hvptr.valueFits
  rw [field, List.length_append, List.length_cons]
  omega

theorem length_separator_le (front : CString) : (separator front).length ≤ 1 := by
  rw [separator]
  split <;> decide

/-- A text that is encoded in the content, where there is room for it. -/
theorem httpcUrlEncode_cases (s : CString) (size : Nat) (starts : front <+: content)
    (fits : size ≤ content.length)
    (room : front.length + 3 * s.length + 5 < size) :
    (Ascii s ∧ ∃ content',
        httpcUrlEncode content front.length s (remaining size front.length) false =
          .ok (content', (encoded s).length) ∧
        front ++ encoded s <+: content' ∧ content'.length = content.length) ∨
      (¬ Ascii s ∧
        httpcUrlEncode content front.length s (remaining size front.length) false =
          .error .overread) := by
  have left : remaining size front.length = size - front.length - 1 := if_pos (by omega)
  rw [left, httpcUrlEncode]
  exact encodeLoop_cases [] (by rwa [List.append_nil]) rfl
    (by rw [List.length_nil]; omega) (by omega)

theorem resize_spec (starts : front <+: content) {m : Nat} (room : front.length ≤ m) :
    front <+: resize content m ∧ (resize content m).length = m := by
  constructor
  · refine List.IsPrefix.trans ?_ (List.prefix_append _ _)
    exact List.prefix_take_iff.mpr ⟨starts, room⟩
  · rw [resize, List.length_append, List.length_take, List.length_replicate]
    omega

theorem separate_front (starts : front <+: content) (room : front.length < content.length) :
    ∃ content', separate content front.length =
        .ok (content', (front ++ separator front).length) ∧
      front ++ separator front <+: content' ∧ content'.length = content.length := by
  by_cases empty : front = []
  · rw [separator, if_pos empty, List.append_nil, separate]
    exact ⟨content, if_neg (by simp [empty]), starts, rfl⟩
  · obtain ⟨content', writes, starts', same⟩ := writeAt_front starts room '&'
    rw [separator, if_neg empty, separate, if_pos (by simpa using empty), writes, Fault.ok_bind,
      List.length_append]
    exact ⟨content', rfl, starts', same⟩

/-- A variable is written whole, unless it has a character with the eighth bit. -/
theorem addVar_cases (hvptr : HttpcVar) (starts : front <+: content)
    (fits : size ≤ content.length) (room : front.length + 600 ≤ size) :
    ((Ascii hvptr.name ∧ Ascii hvptr.value) ∧ ∃ content',
        addVar size hvptr content front.length =
          .ok (content', (front ++ separator front ++ field hvptr).length) ∧
        front ++ separator front ++ field hvptr <+: content' ∧ size ≤ content'.length) ∨
      (¬ (Ascii hvptr.name ∧ Ascii hvptr.value) ∧
        addVar size hvptr content front.length = .error .overread) := by
  have nameFits := hvptr.nameFits
  have valueFits := hvptr.valueFits
  obtain ⟨content₁, separates, starts₁, same₁⟩ := separate_front starts (by omega)
  have one := length_separator_le front
  rw [addVar, separates, Fault.ok_bind]
  generalize whole : front ++ separator front = front₁ at starts₁ ⊢
  have length₁ : front₁.length ≤ front.length + 1 := by
    rw [← whole, List.length_append]
    omega
  dsimp only
  rcases httpcUrlEncode_cases hvptr.name size starts₁ (by omega) (by omega) with
    ⟨nameAscii, content₂, encodes, starts₂, same₂⟩ | ⟨wide, fails⟩
  swap
  · rw [fails]
    exact .inr ⟨fun both => wide both.1, rfl⟩
  have nameLength := length_encoded_le hvptr.name
  have length₂ : (front₁ ++ encoded hvptr.name).length ≤ front.length + 190 := by
    rw [List.length_append]
    omega
  obtain ⟨content₃, writes, starts₃, same₃⟩ := writeAt_front starts₂ (by omega) '='
  rw [List.length_append] at writes
  rw [encodes, Fault.ok_bind]
  dsimp only
  rw [writes, Fault.ok_bind]
  have length₃ : (front₁ ++ encoded hvptr.name ++ ['=']).length =
      front₁.length + (encoded hvptr.name).length + 1 := by
    rw [List.length_append, List.length_append, List.length_singleton]
  rw [List.length_append] at length₂
  rcases httpcUrlEncode_cases hvptr.value size starts₃ (by omega)
      (by rw [length₃]; omega) with
    ⟨valueAscii, content₄, encodes, starts₄, same₄⟩ | ⟨wide, fails⟩
  swap
  · rw [length₃] at fails
    rw [fails]
    exact .inr ⟨fun both => wide both.2, rfl⟩
  have fieldIs : front₁ ++ encoded hvptr.name ++ ['='] ++ encoded hvptr.value =
      front₁ ++ field hvptr := by
    rw [field, List.append_assoc, List.append_assoc, List.singleton_append]
  have lengths : front₁.length + (encoded hvptr.name).length + 1 + (encoded hvptr.value).length =
      (front₁ ++ field hvptr).length := by
    rw [← fieldIs, List.length_append, length₃]
  rw [length₃] at encodes
  rw [fieldIs] at starts₄
  rw [encodes, Fault.ok_bind]
  dsimp only
  rw [lengths]
  refine .inl ⟨⟨nameAscii, valueAscii⟩, ?_⟩
  by_cases small : size < (front₁ ++ field hvptr).length + 1024
  · obtain ⟨starts₅, length₅⟩ := resize_spec starts₄
      (m := (front₁ ++ field hvptr).length + 1024) (by omega)
    rw [if_pos small]
    exact ⟨_, rfl, starts₅, by omega⟩
  · rw [if_neg small]
    exact ⟨_, rfl, starts₄, by omega⟩

theorem addVars_cases (vars : List HttpcVar) (size : Nat) (starts : front <+: content)
    (fits : size ≤ content.length) (room : front.length + vars.length * 1088 + 1 ≤ size) :
    ((∀ hvptr ∈ vars, Ascii hvptr.name ∧ Ascii hvptr.value) ∧ ∃ content',
        addVars size vars content front.length = .ok (content', (joined front vars).length) ∧
        joined front vars <+: content' ∧ (joined front vars).length < content'.length) ∨
      ((¬ ∀ hvptr ∈ vars, Ascii hvptr.name ∧ Ascii hvptr.value) ∧
        addVars size vars content front.length = .error .overread) := by
  induction vars generalizing front content with
  | nil =>
      exact .inl ⟨(fun _ member => by cases member), content, rfl, starts, by
        rw [joined]
        omega⟩
  | cons hvptr vars ih =>
      rw [List.length_cons] at room
      have fieldLength := length_field_le hvptr
      have separatorLength := length_separator_le front
      rw [addVars, joined]
      rcases addVar_cases hvptr starts fits (by omega) with
        ⟨ascii, content', adds, starts', fits'⟩ | ⟨wide, fails⟩
      · rw [adds, Fault.ok_bind]
        rcases ih starts' fits' (by rw [List.length_append, List.length_append]; omega) with
          ⟨rest, result⟩ | ⟨rest, fails⟩
        · exact .inl ⟨List.forall_mem_cons.mpr ⟨ascii, rest⟩, result⟩
        · exact .inr ⟨fun all => rest (List.forall_mem_cons.mp all).2, fails⟩
      · rw [fails]
        exact .inr ⟨fun all => wide (List.forall_mem_cons.mp all).1, rfl⟩

/-! ## Reading the content -/

theorem isPlain_ne {d : Char} (plain : isPlain false c = true) (other : isPlain false d = false) :
    c ≠ d := by
  rintro rfl
  rw [plain] at other
  cases other

theorem percentDecode_encodedChar (ascii : c.toNat < 128) (rest : CString) :
    percentDecode (encodedChar c ++ rest) = c :: percentDecode rest := by
  rw [encodedChar]
  split
  · rename_i plain
    rw [List.singleton_append, percentDecode]
    · rintro high low text rfl
      exact absurd rfl (isPlain_ne plain (by decide))
    · rintro rfl
      exact absurd rfl (isPlain_ne plain (by decide))
  · split
    · rename_i blank
      rw [List.singleton_append, percentDecode, blank]
    · have whole : c.toNat / 16 * 16 + c.toNat % 16 = c.toNat := by omega
      rw [List.cons_append, List.cons_append, List.singleton_append, percentDecode,
        hexValue_hexDigit (by omega), hexValue_hexDigit (by omega), whole, Char.ofNat_toNat]

/-- An encoded text is read back. -/
theorem percentDecode_encoded (ascii : Ascii s) : percentDecode (encoded s) = s := by
  induction s with
  | nil => rfl
  | cons c s ih =>
      obtain ⟨first, rest⟩ := List.forall_mem_cons.mp ascii
      rw [encoded, List.flatMap_cons, percentDecode_encodedChar first]
      exact congrArg (c :: ·) (ih rest)

/-- The separators are not in an encoded text. -/
theorem separators_not_mem_encoded (ascii : Ascii s) : '&' ∉ encoded s ∧ '=' ∉ encoded s := by
  have each : ∀ c ∈ s, '&' ∉ encodedChar c ∧ '=' ∉ encodedChar c := by
    intro c member
    have seven := ascii c member
    have high := hexDigit_ne (i := c.toNat / 16) (by omega)
    have low := hexDigit_ne (i := c.toNat % 16) (by omega)
    rw [encodedChar]
    split
    · rename_i plain
      simp only [List.mem_singleton]
      exact ⟨(isPlain_ne plain (by decide)).symm, (isPlain_ne plain (by decide)).symm⟩
    · split
      · decide
      · simp only [List.mem_cons, List.not_mem_nil, or_false, not_or]
        exact ⟨⟨by decide, high.1.symm, low.1.symm⟩, by decide, high.2.symm, low.2.symm⟩
  constructor
  · intro member
    obtain ⟨c, from_, inside⟩ := List.mem_flatMap.mp member
    exact (each c from_).1 inside
  · intro member
    obtain ⟨c, from_, inside⟩ := List.mem_flatMap.mp member
    exact (each c from_).2 inside

theorem decodeField_field {hvptr : HttpcVar} (name : Ascii hvptr.name)
    (value : Ascii hvptr.value) : decodeField (field hvptr) = (hvptr.name, hvptr.value) := by
  have inName : ∀ c ∈ encoded hvptr.name, decide (c ≠ '=') = true := by
    intro c member
    exact decide_eq_true fun same => (separators_not_mem_encoded name).2 (same ▸ member)
  rw [decodeField, field, List.takeWhile_append_of_pos inName, List.dropWhile_append_of_pos inName,
    List.takeWhile_cons_of_neg (by decide), List.dropWhile_cons_of_neg (by decide),
    List.append_nil, List.tail_cons, percentDecode_encoded name, percentDecode_encoded value]

theorem joined_eq {front : CString} (begun : front ≠ []) (vars : List HttpcVar) :
    joined front vars = front ++ vars.flatMap fun hvptr => '&' :: field hvptr := by
  induction vars generalizing front with
  | nil => rw [joined, List.flatMap_nil, List.append_nil]
  | cons hvptr vars ih =>
      rw [joined, ih (by simp [begun]), separator, if_neg begun, List.flatMap_cons]
      simp only [List.append_assoc, List.cons_append, List.nil_append]

theorem intercalate_map_field (hvptr : HttpcVar) (vars : List HttpcVar) :
    List.intercalate ['&'] (((hvptr :: vars).map field)) =
      field hvptr ++ vars.flatMap fun hvptr => '&' :: field hvptr := by
  induction vars generalizing hvptr with
  | nil => simp [List.intercalate]
  | cons next vars ih =>
      rw [List.map_cons, List.map_cons, List.intercalate_cons_cons, ← List.map_cons, ih,
        List.flatMap_cons]
      simp

/-- The content is read back as the list of the names and values. -/
theorem formDecode_joined {vars : List HttpcVar}
    (ascii : ∀ hvptr ∈ vars, Ascii hvptr.name ∧ Ascii hvptr.value) :
    formDecode (joined [] vars) = vars.map fun hvptr => (hvptr.name, hvptr.value) := by
  cases vars with
  | nil => rfl
  | cons hvptr vars =>
      have begun : field hvptr ≠ [] := by simp [field]
      have content : joined [] (hvptr :: vars) =
          List.intercalate ['&'] ((hvptr :: vars).map field) := by
        rw [intercalate_map_field, ← joined_eq begun]
        rfl
      have whole : joined [] (hvptr :: vars) ≠ [] := by
        rw [content, intercalate_map_field]
        simp [begun]
      have plain : ∀ text ∈ (hvptr :: vars).map field, '&' ∉ text := by
        intro text member
        obtain ⟨var, inside, rfl⟩ := List.mem_map.mp member
        obtain ⟨name, value⟩ := ascii var inside
        simp only [field, List.mem_append, List.mem_cons, not_or]
        exact ⟨(separators_not_mem_encoded name).1, by decide,
          (separators_not_mem_encoded value).1⟩
      rw [formDecode, if_neg whole, content, List.splitOn_intercalate _ plain (by simp),
        List.map_map]
      refine List.map_congr_left fun var inside => ?_
      exact decodeField_field (ascii var inside).1 (ascii var inside).2

theorem httpcVarBuild_cases (vars : List HttpcVar) :
    ((∀ hvptr ∈ vars, Ascii hvptr.name ∧ Ascii hvptr.value) ∧ ∃ content,
        httpcVarBuild vars = .ok (content, (joined [] vars).length) ∧
        joined [] vars <+: content) ∨
      ((¬ ∀ hvptr ∈ vars, Ascii hvptr.name ∧ Ascii hvptr.value) ∧
        httpcVarBuild vars = .error .overread) := by
  have added := addVars_cases vars (vars.length * (64 + 1024) + 1)
    (@List.nil_prefix _ (List.replicate (vars.length * (64 + 1024) + 1) '\x00'))
    (by rw [List.length_replicate]) (by rw [List.length_nil]; omega)
  rw [List.length_nil] at added
  rcases added with ⟨ascii, content, adds, starts, room⟩ | ⟨wide, fails⟩
  · obtain ⟨content', writes, starts', -⟩ := writeAt_front starts room '\x00'
    refine .inl ⟨ascii, _, ?_,
      (resize_spec ((List.prefix_append _ _).trans starts') (Nat.le_succ _)).1⟩
    simp only [httpcVarBuild, adds, Fault.ok_bind, writes]
    rfl
  · refine .inr ⟨wide, ?_⟩
    simp only [httpcVarBuild, fails, Fault.error_bind]

/-- The content is built inside its buffer and with indices inside the table of digits, and is
read back as the list of the names and values, if and only if all of them have characters of
seven bits only.  Nothing is ever truncated. -/
theorem httpcVarBuild_iff (vars : List HttpcVar) :
    (∃ content length, httpcVarBuild vars = .ok (content, length) ∧
        formDecode (content.take length) =
          vars.map fun hvptr => (hvptr.name, hvptr.value)) ↔
      ∀ hvptr ∈ vars, Ascii hvptr.name ∧ Ascii hvptr.value := by
  rcases httpcVarBuild_cases vars with ⟨ascii, content, builds, starts⟩ | ⟨wide, fails⟩
  · refine iff_of_true ⟨content, _, builds, ?_⟩ ascii
    rw [← List.prefix_iff_eq_take.mp starts]
    exact formDecode_joined ascii
  · refine iff_of_false ?_ wide
    rintro ⟨content, length, builds, -⟩
    rw [fails] at builds
    cases builds

/-- A value with a letter behind the seven bits. -/
theorem httpcVarBuild_umlaut :
    ¬ ∃ content length,
      httpcVarBuild [⟨['q'], ['\xe4'], by decide, by decide⟩] = .ok (content, length) ∧
        formDecode (content.take length) = [(['q'], ['\xe4'])] := by
  rintro ⟨content, length, builds, -⟩
  rcases httpcVarBuild_cases [⟨['q'], ['\xe4'], by decide, by decide⟩] with
    ⟨ascii, -⟩ | ⟨-, fails⟩
  · exact absurd ((ascii _ List.mem_cons_self).2 '\xe4' List.mem_cons_self) (by decide)
  · rw [fails] at builds
    cases builds

end HttpForms

end Chaosircd
