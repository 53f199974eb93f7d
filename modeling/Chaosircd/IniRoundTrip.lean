import Chaosircd.IniLines

/-!
# Plain ini trees

A tree comes back from its file when each of its lines is read as it was written: names and
values are stripped and on one line, a name has no equals sign and does not make the line a
comment or a section, and the line fits the buffer of `io_puts`.
-/

namespace Chaosircd

/-! ## Trees that come back -/

/-- A comment whose line comes back, or a key with a value whose line does. -/
def IniKey.Plain (key : IniKey) : Prop :=
  match key.name, key.value with
  | none, none => True
  | none, some value => IniPlain (';' :: value) ∧ (';' :: value).length ≤ ioLineSize - 2
  | some _, none => False
  | some name, some value => IniPlain name ∧ IniPlain value ∧ '=' ∉ name ∧
      name.head? ≠ some ';' ∧ ¬ (name.head? = some '[' ∧ value.getLast? = some ']') ∧
        (name ++ '=' :: value).length ≤ ioLineSize - 2

/-- A section whose line comes back, with its keys. -/
structure IniSection.Plain (isptr : IniSection) : Prop where
  name : IniPlain isptr.name
  fits : isptr.name.length + 2 ≤ ioLineSize - 2
  keys : ∀ key ∈ isptr.keys, key.Plain

/-- Before the first section there are only comments. -/
structure Ini.Plain (ini : Ini) : Prop where
  comments : ∀ key ∈ ini.keys, key.name = none ∧ key.Plain
  sections : ∀ isptr ∈ ini.sections, isptr.Plain

variable {key : IniKey} {isptr : IniSection} {ini : Ini} {loader : IniLoader}
  {name value line buf : CString} {place : Nat}

/-! ## Reading a plain line -/

theorem IniPlain.head (plain : IniPlain value) {c : Char} (isHead : value.head? = some c) :
    strIsspace c = false := by
  rw [← plain.stripped] at isHead
  exact head_iniStrip isHead

theorem IniPlain.getLast (plain : IniPlain value) {c : Char}
    (isLast : value.getLast? = some c) : strIsspace c = false := by
  rw [← plain.stripped] at isLast
  exact getLast_iniStrip isLast

/-- The line of a key with its value is plain. -/
theorem IniPlain.keyLine (plainName : IniPlain name) (plainValue : IniPlain value) :
    IniPlain (name ++ '=' :: value) := by
  refine ⟨iniStrip_eq_self ?_ ?_, ?_, ?_⟩
  · intro c isHead
    cases name with
    | nil =>
        obtain rfl := Option.some.inj isHead
        rfl
    | cons c' cs => exact plainName.head isHead
  · intro c isLast
    rw [List.getLast?_append, List.getLast?_cons] at isLast
    cases last : value.getLast? with
    | none =>
        simp only [last, Option.getD_none, Option.some_or, Option.some.injEq] at isLast
        exact isLast ▸ rfl
    | some c' =>
        simp only [last, Option.getD_some, Option.some_or, Option.some.injEq] at isLast
        exact isLast ▸ plainValue.getLast last
  · simp [plainName.noEnd, plainValue.noEnd]
  · simp [plainName.noNul, plainValue.noNul]

/-- The line of a section is plain. -/
theorem IniPlain.sectionLine (plain : IniPlain name) : IniPlain ('[' :: name ++ [']']) := by
  refine ⟨iniStrip_eq_self ?_ ?_, ?_, ?_⟩
  · intro c isHead
    obtain rfl := Option.some.inj isHead
    rfl
  · intro c isLast
    rw [List.getLast?_append_cons] at isLast
    obtain rfl := Option.some.inj isLast
    rfl
  · simp [plain.noEnd]
  · simp [plain.noNul]

theorem IniKey.Plain.read_comment {value : Option CString}
    (plain : IniKey.Plain ⟨none, value⟩) :
    loader.line (ioGets iniBufSize (IniKey.text ⟨none, value⟩)) = some (loader.comment value) := by
  cases value with
  | none =>
      have empty : IniPlain [] := ⟨rfl, List.not_mem_nil, List.not_mem_nil⟩
      have read := empty.read (Nat.zero_le _)
      simp only [IniLoader.line, IniKey.text, read, if_true]
  | some value =>
      have read := plain.1.read plain.2
      simp [IniLoader.line, IniKey.text, read]

/-- Where a line is split. -/
theorem takeWhile_equals (noEquals : '=' ∉ name) :
    (name ++ '=' :: value).takeWhile (· ≠ '=') = name := by
  have differ : ∀ c ∈ name, decide (c ≠ '=') = true := by
    intro c member
    rw [decide_eq_true_eq]
    rintro rfl
    exact noEquals member
  rw [List.takeWhile_append_of_pos differ, List.takeWhile_cons_of_neg (by simp),
    List.append_nil]

theorem dropWhile_equals (noEquals : '=' ∉ name) :
    ((name ++ '=' :: value).dropWhile (· ≠ '=')).tail = value := by
  have differ : ∀ c ∈ name, decide (c ≠ '=') = true := by
    intro c member
    rw [decide_eq_true_eq]
    rintro rfl
    exact noEquals member
  rw [List.dropWhile_append_of_pos differ, List.dropWhile_cons_of_neg (by simp), List.tail_cons]

theorem IniKey.Plain.read_key (plain : IniKey.Plain ⟨some name, some value⟩)
    (isPlace : loader.place = some place) :
    loader.line (ioGets iniBufSize (IniKey.text ⟨some name, some value⟩)) =
      some { loader with ini := loader.ini.writeStr place name value } := by
  obtain ⟨plainName, plainValue, noEquals, notComment, notSection, fits⟩ := plain
  have read := (plainName.keyLine plainValue).read fits
  have nonempty : name ++ '=' :: value ≠ [] := by simp
  have headLine : (name ++ '=' :: value).head? ≠ some ';' := by
    cases name with
    | nil => simp
    | cons c cs => exact notComment
  have ends : ¬ ((name ++ '=' :: value).head? = some '[' ∧
      (name ++ '=' :: value).getLast? = some ']') := by
    rintro ⟨isHead, isLast⟩
    rw [List.getLast?_append, List.getLast?_cons] at isLast
    cases last : value.getLast? with
    | none => simp [last] at isLast
    | some c =>
        cases name with
        | nil => simp at isHead
        | cons c' cs => exact notSection ⟨isHead, by simpa [last] using isLast⟩
  simp only [IniLoader.line, IniKey.text, read]
  rw [if_neg nonempty, if_neg headLine, if_neg ends, isPlace]
  dsimp only
  rw [if_pos (by simp), takeWhile_equals noEquals, dropWhile_equals noEquals, plainName.stripped, plainValue.stripped]

theorem IniSection.Plain.read (plain : isptr.Plain) :
    loader.line (ioGets iniBufSize ('[' :: isptr.name ++ [']'])) =
      some ⟨loader.ini.sectionNew isptr.name, some loader.ini.sections.length⟩ := by
  have fits : ('[' :: isptr.name ++ [']']).length ≤ ioLineSize - 2 := by
    rw [List.length_append, List.length_cons]
    exact plain.fits
  have read := plain.name.sectionLine.read fits
  have blank : strIsspace ' ' := rfl
  have inner : iniStrip (' ' :: (isptr.name ++ [' '])) = isptr.name := by
    rw [iniStrip_cons blank, iniStrip_concat blank, plain.name.stripped]
  have unwrapped : ('[' :: isptr.name ++ [']']).tail.dropLast = isptr.name := by
    rw [List.cons_append, List.tail_cons, List.dropLast_concat]
  have ends : ('[' :: isptr.name ++ [']']).head? = some '[' ∧
      ('[' :: isptr.name ++ [']']).getLast? = some ']' := by
    rw [List.getLast?_append_cons]
    exact ⟨rfl, rfl⟩
  simp only [IniLoader.line, read]
  rw [if_neg (by simp), if_neg (by simp), if_pos ends]
  rw [unwrapped, List.cons_append, inner]

/-! ## A plain tree comes back -/

/-- A comment before the sections, or in the last one. -/
theorem IniLoader.comment_concat {keys : List IniKey} {sections : List IniSection}
    {changed : Bool} (value : Option CString) :
    IniLoader.comment ⟨⟨keys, sections ++ [isptr], changed⟩, some sections.length⟩ value =
      ⟨⟨keys, sections ++ [isptr.comment value], changed⟩, some sections.length⟩ := by
  simp [IniLoader.comment, List.modify_eq_set_getElem?]

/-- A key that is new in the last section. -/
theorem Ini.writeStr_concat {keys : List IniKey} {sections : List IniSection} {changed : Bool}
    (fresh : ¬ isptr.Holds name) :
    Ini.writeStr ⟨keys, sections ++ [isptr], changed⟩ sections.length name value =
      ⟨keys, sections ++ [isptr.add name value fresh], true⟩ := by
  simp [Ini.writeStr, fresh]

/-- The keys of a section are read one after the other. -/
theorem IniLoader.lines_keys {comments : List IniKey} {sections : List IniSection}
    {keys : List IniKey} {whole : IniSection} {rest : List CString}
    (plain : ∀ key ∈ keys, key.Plain) (sameName : whole.name = isptr.name)
    (isWhole : whole.keys = isptr.keys ++ keys) :
    IniLoader.lines ⟨⟨comments, sections ++ [isptr], true⟩, some sections.length⟩
        ((keys.map IniKey.text).map (ioGets iniBufSize) ++ rest) =
      IniLoader.lines ⟨⟨comments, sections ++ [whole], true⟩, some sections.length⟩ rest := by
  induction keys generalizing isptr with
  | nil =>
      have same : isptr = whole :=
        IniSection.ext sameName.symm (isWhole.trans (List.append_nil _)).symm
      rw [same]
      rfl
  | cons key keys induction =>
      have plainKey := plain key List.mem_cons_self
      have later : ∀ key ∈ keys, key.Plain :=
        fun key member => plain key (List.mem_cons_of_mem _ member)
      rw [List.map_cons, List.map_cons, List.cons_append, IniLoader.lines]
      obtain ⟨name, value⟩ := key
      cases name with
      | none =>
          rw [plainKey.read_comment]
          dsimp only
          rw [IniLoader.comment_concat]
          refine @induction (isptr.comment value) later sameName ?_
          rw [isWhole, IniSection.comment, List.append_assoc, List.singleton_append]
      | some name =>
          cases value with
          | none => exact plainKey.elim
          | some value =>
              have distinct := whole.distinct
              rw [isWhole, List.filterMap_append,
                List.filterMap_cons_some (f := IniKey.name) (b := name) rfl,
                List.nodup_append] at distinct
              have fresh : ¬ isptr.Holds name := by
                intro holds
                obtain ⟨other, member, same⟩ := List.mem_map.mp holds
                exact distinct.2.2 name (List.mem_filterMap.mpr ⟨other, member, same⟩) name
                  List.mem_cons_self rfl
              rw [plainKey.read_key rfl]
              dsimp only
              rw [Ini.writeStr_concat fresh]
              refine @induction (isptr.add name value fresh) later sameName ?_
              rw [isWhole, IniSection.add, List.append_assoc, List.singleton_append]

/-- The sections are read one after the other. -/
theorem IniLoader.lines_sections {comments : List IniKey} {sections rest : List IniSection}
    {place : Option Nat} (plain : ∀ isptr ∈ rest, isptr.Plain) :
    (IniLoader.lines ⟨⟨comments, sections, true⟩, place⟩
        ((rest.flatMap IniSection.texts).map (ioGets iniBufSize))).ini =
      ⟨comments, sections ++ rest, true⟩ := by
  induction rest generalizing sections place with
  | nil => simp [IniLoader.lines]
  | cons isptr rest induction =>
      have plainSection := plain isptr List.mem_cons_self
      rw [List.flatMap_cons, List.map_append, IniSection.texts, List.map_cons, List.cons_append,
        IniLoader.lines, plainSection.read]
      dsimp only [Ini.sectionNew]
      rw [@IniLoader.lines_keys ⟨isptr.name, [], List.nodup_nil⟩ comments sections isptr.keys
        isptr _ plainSection.keys rfl rfl,
        induction fun isptr member => plain isptr (List.mem_cons_of_mem _ member),
        List.append_assoc, List.singleton_append]

/-- The comments before the sections are read one after the other. -/
theorem IniLoader.lines_comments {done keys : List IniKey} {rest : List CString}
    (plain : ∀ key ∈ keys, key.name = none ∧ key.Plain) :
    IniLoader.lines ⟨⟨done, [], true⟩, none⟩
        ((keys.map IniKey.text).map (ioGets iniBufSize) ++ rest) =
      IniLoader.lines ⟨⟨done ++ keys, [], true⟩, none⟩ rest := by
  induction keys generalizing done with
  | nil => rw [List.append_nil]; rfl
  | cons key keys induction =>
      obtain ⟨isComment, plainKey⟩ := plain key List.mem_cons_self
      obtain ⟨name, value⟩ := key
      cases isComment
      rw [List.map_cons, List.map_cons, List.cons_append, IniLoader.lines,
        plainKey.read_comment]
      dsimp only [IniLoader.comment]
      rw [induction fun key member => plain key (List.mem_cons_of_mem _ member),
        List.append_assoc, List.singleton_append]

theorem IniKey.Plain.text (plain : key.Plain) :
    IniPlain key.text ∧ key.text.length ≤ ioLineSize - 2 := by
  obtain ⟨name, value⟩ := key
  cases name with
  | none =>
      cases value with
      | none => exact ⟨⟨rfl, List.not_mem_nil, List.not_mem_nil⟩, Nat.zero_le _⟩
      | some value => exact plain
  | some name =>
      cases value with
      | none => exact plain.elim
      | some value =>
          obtain ⟨plainName, plainValue, _, _, _, fits⟩ := plain
          exact ⟨plainName.keyLine plainValue, fits⟩

theorem Ini.Plain.texts (plain : ini.Plain) {s : CString} (member : s ∈ ini.texts) :
    IniPlain s ∧ s.length ≤ ioLineSize - 2 := by
  cases List.mem_append.mp member with
  | inl inComments =>
      obtain ⟨key, isKey, rfl⟩ := List.mem_map.mp inComments
      exact (plain.comments key isKey).2.text
  | inr inSections =>
      obtain ⟨isptr, isSection, inSection⟩ := List.mem_flatMap.mp inSections
      have plainSection := plain.sections isptr isSection
      cases List.mem_cons.mp inSection with
      | inl isHeader =>
          rw [isHeader]
          refine ⟨plainSection.name.sectionLine, ?_⟩
          rw [List.length_append, List.length_cons]
          exact plainSection.fits
      | inr inKeys =>
          obtain ⟨key, isKey, rfl⟩ := List.mem_map.mp inKeys
          exact (plainSection.keys key isKey).text

/-- A plain tree comes back. -/
theorem Ini.Plain.load (plain : ini.Plain) :
    iniLoad (ini.texts.flatMap ioPuts) = ⟨ini.keys, ini.sections, true⟩ := by
  rw [iniLoad, completeLines_flatMap (fun s member => (plain.texts member).1.noEnd)
    fun s member => (plain.texts member).2, Ini.texts, List.map_append, Ini.fresh,
    IniLoader.lines_comments plain.comments, IniLoader.lines_sections plain.sections]
  rfl

end Chaosircd
