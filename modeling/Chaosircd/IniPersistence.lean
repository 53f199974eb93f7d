import Chaosircd.IniRoundTrip

/-!
# What an ini file gives back

Loading a file whose lines fit the buffer of `io_puts` gives a plain tree, so that a tree
that is not plain never comes back.  A tree that is not flagged as changed is not written,
and its file has been emptied.  The value of a key that exists is replaced without setting
the flag.
-/

namespace Chaosircd

variable {ini : Ini} {loader next : IniLoader} {name value line buf : CString} {place : Nat}

/-! ## What is loaded is plain -/

theorem Ini.Plain.modify (plain : ini.Plain) {isptr : IniSection}
    (plainSection : isptr.Plain) : Ini.Plain { ini with
      sections := ini.sections.set place isptr } := by
  refine ⟨plain.comments, ?_⟩
  intro other member
  cases List.mem_or_eq_of_mem_set member with
  | inl old => exact plain.sections other old
  | inr isNew => exact isNew ▸ plainSection

theorem Ini.Plain.writeStr (plain : ini.Plain)
    (plainKey : IniKey.Plain ⟨some name, some value⟩) : (ini.writeStr place name value).Plain := by
  rw [Ini.writeStr]
  split
  · exact plain
  · rename_i isptr found
    have plainSection := plain.sections isptr (List.mem_of_getElem? found)
    split
    · apply plain.modify
      refine ⟨plainSection.name, plainSection.fits, ?_⟩
      intro key member
      obtain ⟨old, isOld, rfl⟩ := List.mem_map.mp member
      split
      · rename_i sameName
        rw [sameName]
        exact plainKey
      · exact plainSection.keys old isOld
    · rename_i fresh
      have plainAdded : (isptr.add name value fresh).Plain := by
        refine ⟨plainSection.name, plainSection.fits, ?_⟩
        intro key member
        cases List.mem_append.mp member with
        | inl old => exact plainSection.keys key old
        | inr isNew => exact List.mem_singleton.mp isNew ▸ plainKey
      exact ⟨plain.comments, (plain.modify plainAdded).sections⟩

/-- The parts of a plain line that is neither a comment nor a section make a plain key. -/
theorem IniPlain.entry (plain : IniPlain buf) (fits : buf.length ≤ ioLineSize - 2)
    (notComment : buf.head? ≠ some ';')
    (notSection : ¬ (buf.head? = some '[' ∧ buf.getLast? = some ']')) (equals : '=' ∈ buf) :
    IniKey.Plain ⟨some (iniStrip (buf.takeWhile (· ≠ '='))),
      some (iniStrip (buf.dropWhile (· ≠ '=')).tail)⟩ := by
  obtain ⟨name, value, rfl, noEquals⟩ := List.eq_append_cons_of_mem equals
  rw [takeWhile_equals noEquals, dropWhile_equals noEquals]
  have headName : ∀ c, name.head? = some c → (name ++ '=' :: value).head? = some c := by
    intro c isHead
    rw [List.head?_append, isHead, Option.some_or]
  have lastValue : ∀ c, value.getLast? = some c →
      (name ++ '=' :: value).getLast? = some c := by
    intro c isLast
    rw [List.getLast?_append, List.getLast?_cons, isLast, Option.getD_some, Option.some_or]
  have isPrefix := iniStrip_prefix fun c isHead => plain.head (headName c isHead)
  have isSuffix := iniStrip_suffix fun c isLast => plain.getLast (lastValue c isLast)
  have headStrip : ∀ c, (iniStrip name).head? = some c →
      (name ++ '=' :: value).head? = some c := by
    intro c isHead
    obtain ⟨rest, whole⟩ := isPrefix
    apply headName
    rw [← whole, List.head?_append, isHead, Option.some_or]
  have lastStrip : ∀ c, (iniStrip value).getLast? = some c →
      (name ++ '=' :: value).getLast? = some c := by
    intro c isLast
    obtain ⟨front, whole⟩ := isSuffix
    apply lastValue
    rw [← whole, List.getLast?_append, isLast, Option.some_or]
  have noEnd := plain.noEnd
  have noNul := plain.noNul
  simp only [List.mem_append, List.mem_cons, not_or] at noEnd noNul
  refine ⟨.strip noEnd.1 noNul.1, .strip noEnd.2.2 noNul.2.2,
    fun member => noEquals ((iniStrip_sublist name).mem member),
    fun isHead => notComment (headStrip _ isHead),
    fun ⟨isHead, isLast⟩ => notSection ⟨headStrip _ isHead, lastStrip _ isLast⟩, ?_⟩
  have shortName := (iniStrip_sublist name).length_le
  have shortValue := (iniStrip_sublist value).length_le
  simp only [List.length_append, List.length_cons] at fits ⊢
  omega

theorem IniLoader.plain_comment {value : Option CString} (plain : loader.ini.Plain)
    (plainKey : IniKey.Plain ⟨none, value⟩) : (loader.comment value).ini.Plain := by
  rw [IniLoader.comment]
  split
  · refine ⟨?_, plain.sections⟩
    intro key member
    cases List.mem_append.mp member with
    | inl old => exact plain.comments key old
    | inr isNew => exact List.mem_singleton.mp isNew ▸ ⟨rfl, plainKey⟩
  · refine ⟨plain.comments, ?_⟩
    intro isptr member
    rename_i place _
    rw [List.modify_eq_set_getElem?] at member
    cases found : loader.ini.sections[place]? with
    | none =>
        rw [found] at member
        exact plain.sections isptr member
    | some old =>
        rw [found] at member
        have plainSection := plain.sections old (List.mem_of_getElem? found)
        cases List.mem_or_eq_of_mem_set member with
        | inl isOld => exact plain.sections isptr isOld
        | inr isNew =>
            rw [isNew]
            refine ⟨plainSection.name, plainSection.fits, ?_⟩
            intro key member
            cases List.mem_append.mp member with
            | inl old => exact plainSection.keys key old
            | inr isNew => exact List.mem_singleton.mp isNew ▸ plainKey

/-- A short line keeps the tree plain. -/
theorem IniLoader.plain_line (plain : loader.ini.Plain) (noEnd : '\n' ∉ line)
    (short : line.length ≤ ioLineSize - 2)
    (read : loader.line (ioGets iniBufSize line) = some next) : next.ini.Plain := by
  obtain ⟨plainBuf, fits⟩ := IniPlain.of_read noEnd short
  rw [IniLoader.line] at read
  generalize iniStrip (ioGets iniBufSize line) = buf at plainBuf fits read
  dsimp only at read
  split at read
  · cases read
    exact IniLoader.plain_comment plain trivial
  · split at read
    · rename_i isComment
      cases read
      cases buf with
      | nil => cases isComment
      | cons c cs =>
          obtain rfl := Option.some.inj isComment
          exact IniLoader.plain_comment plain ⟨plainBuf, fits⟩
    · rename_i notComment
      split at read
      · rename_i isSection
        cases read
        have blank : strIsspace ' ' := rfl
        have inner : buf.tail.dropLast.Sublist buf :=
          (List.dropLast_sublist _).trans (List.tail_sublist _)
        have isName : iniStrip (' ' :: buf.tail.dropLast ++ [' ']) =
            iniStrip buf.tail.dropLast := by
          rw [iniStrip_concat blank, iniStrip_cons blank]
        refine ⟨plain.comments, ?_⟩
        intro isptr member
        cases List.mem_append.mp member with
        | inl old => exact plain.sections isptr old
        | inr isNew =>
            rw [List.mem_singleton.mp isNew, isName]
            have shorter := (iniStrip_sublist buf.tail.dropLast).length_le
            rw [List.length_dropLast, List.length_tail] at shorter
            rw [ioLineSize] at fits
            refine ⟨.strip (fun isEnd => plainBuf.noEnd (inner.mem isEnd))
              fun isNul => plainBuf.noNul (inner.mem isNul), ?_, fun key none => by cases none⟩
            rw [ioLineSize]
            dsimp only
            omega
      · rename_i notSection
        split at read
        · cases read
        · split at read
          · rename_i equals
            cases read
            exact plain.writeStr (plainBuf.entry fits notComment notSection equals)
          · cases read

/-- Short lines keep the tree plain. -/
theorem IniLoader.plain_lines {lines : List CString} (plain : loader.ini.Plain)
    (noEnd : ∀ line ∈ lines, '\n' ∉ line)
    (short : ∀ line ∈ lines, line.length ≤ ioLineSize - 2) :
    (loader.lines (lines.map (ioGets iniBufSize))).ini.Plain := by
  induction lines generalizing loader with
  | nil => exact plain
  | cons line lines induction =>
      rw [List.map_cons, IniLoader.lines]
      cases read : loader.line (ioGets iniBufSize line) with
      | none => exact plain
      | some next =>
          exact induction
            (IniLoader.plain_line plain (noEnd line List.mem_cons_self) (short line List.mem_cons_self) read)
            (fun other member => noEnd other (List.mem_cons_of_mem _ member))
            fun other member => short other (List.mem_cons_of_mem _ member)

theorem Ini.plain_fresh : Ini.fresh.Plain :=
  ⟨by simp [Ini.fresh], by simp [Ini.fresh]⟩

/-- What is loaded from a file that has been written is plain. -/
theorem plain_iniLoad (texts : List CString) : (iniLoad (texts.flatMap ioPuts)).Plain :=
  IniLoader.plain_lines Ini.plain_fresh (fun _ => newline_not_mem_completeLines)
    fun _ => length_le_of_mem_flatMap

/-! ## What comes back -/

namespace IniFile

/-- The comments, the sections, the keys and the values. -/
def tree (ini : Ini) : List IniKey × List IniSection :=
  (ini.keys, ini.sections)

/-- The tree is saved, and loading the file into a fresh tree gives the same one. -/
def Persists (file : IniFile) : Prop :=
  tree (iniLoad file.save.content) = tree file.ini

instance (file : IniFile) : Decidable file.Persists :=
  inferInstanceAs (Decidable (_ = _))

/-- A tree comes back when it is plain and flagged as changed, or empty. -/
theorem persists_iff (file : IniFile) : file.Persists ↔
    file.ini.Plain ∧ (file.ini.changed = true ∨ tree file.ini = ([], [])) := by
  rw [Persists, save]
  have samePlain : ∀ {other : Ini}, tree other = tree file.ini → other.Plain →
      file.ini.Plain := by
    intro other same plain
    obtain ⟨sameKeys, sameSections⟩ := Prod.mk.inj same
    exact ⟨sameKeys ▸ plain.comments, sameSections ▸ plain.sections⟩
  cases changed : file.ini.changed with
  | true =>
      rw [if_pos rfl]
      constructor
      · intro same
        exact ⟨samePlain same (plain_iniLoad _), Or.inl rfl⟩
      · rintro ⟨plain, _⟩
        rw [plain.load]
        rfl
  | false =>
      rw [if_neg Bool.false_ne_true]
      have empty : tree (iniLoad []) = ([], []) := rfl
      rw [empty]
      constructor
      · intro same
        exact ⟨@samePlain .fresh same Ini.plain_fresh, Or.inr same.symm⟩
      · rintro ⟨_, impossible | isEmpty⟩
        · cases impossible
        · exact isEmpty.symm

/-- The operations that set the flag: sections come and go, and new keys are written. -/
def Touches (file : IniFile) : Op → Prop
  | .sectionNew _ => True
  | .write place key _ => ∃ isptr, file.ini.sections[place]? = some isptr ∧ ¬ isptr.Holds key
  | .sectionRemove place => place < file.ini.sections.length
  | .clear => True
  | .save => False

theorem changed_exec (file : IniFile) (op : Op) : (file.exec op).ini.changed = true ↔
    file.Touches op ∨ (op ≠ .save ∧ file.ini.changed = true) := by
  cases op with
  | sectionNew name => simp [exec, Touches, Ini.sectionNew]
  | write place key str =>
      rw [exec, Touches]
      dsimp only
      rw [Ini.writeStr]
      split
      · rename_i absent
        simp [absent]
      · rename_i isptr found
        split
        · rename_i holds
          simp [found, holds]
        · rename_i fresh
          simp [found, fresh]
  | sectionRemove place =>
      rw [exec, Touches]
      dsimp only
      rw [Ini.sectionRemove]
      split
      · rename_i within
        simp [within]
      · rename_i beyond
        simp [beyond]
  | clear => simp [exec, Touches, Ini.clear]
  | save =>
      rw [exec, save]
      split
      · simp [Touches]
      · rename_i unchanged
        simp [Touches, unchanged]

theorem changed_writeStr {ini : Ini} (changed : ini.changed = true) :
    (ini.writeStr place name value).changed = true := by
  rw [Ini.writeStr]
  split
  · exact changed
  · split
    · exact changed
    · rfl

/-- Loading leaves the flag as `ini_add` has set it. -/
theorem changed_lines {loader : IniLoader} {lines : List CString}
    (changed : loader.ini.changed = true) : (loader.lines lines).ini.changed = true := by
  induction lines generalizing loader with
  | nil => exact changed
  | cons line lines induction =>
      rw [IniLoader.lines]
      have comment : ∀ value, (loader.comment value).ini.changed = true := by
        intro value
        rw [IniLoader.comment]
        split <;> exact changed
      cases read : loader.line line with
      | none => exact changed
      | some next =>
          apply induction
          rw [IniLoader.line] at read
          dsimp only at read
          split at read
          · cases read
            exact comment _
          · split at read
            · cases read
              exact comment _
            · split at read
              · cases read
                rfl
              · split at read
                · cases read
                · split at read
                  · cases read
                    exact changed_writeStr changed
                  · cases read

/-- The flag is set as long as nothing has been saved, and by what has been done since the
last save, but for new values of keys that exist. -/
theorem changed_run (content : CString) (ops : List Op) :
    (run content ops).ini.changed = true ↔ .save ∉ ops ∨ ∃ before op after,
      ops = before ++ op :: after ∧ .save ∉ after ∧ (run content before).Touches op := by
  induction ops using List.reverseRecOn with
  | nil =>
      have changed : (iniLoad content).changed = true := changed_lines rfl
      exact iff_of_true changed (Or.inl List.not_mem_nil)
  | append_singleton ops op induction =>
      have last : run content (ops ++ [op]) = (run content ops).exec op := by
        rw [run, List.foldl_concat, run]
      rw [last, changed_exec, induction]
      constructor
      · rintro (touches | ⟨notSave, unsaved | ⟨before, other, after, rfl, unsaved, touches⟩⟩)
        · exact Or.inr ⟨ops, op, [], rfl, List.not_mem_nil, touches⟩
        · left
          simp [unsaved, Ne.symm notSave]
        · right
          exact ⟨before, other, after ++ [op], by simp, by simp [unsaved, Ne.symm notSave],
            touches⟩
      · rintro (unsaved | ⟨before, other, after, whole, unsaved, touches⟩)
        · simp only [List.mem_append, List.mem_singleton, not_or] at unsaved
          exact Or.inr ⟨Ne.symm unsaved.2, Or.inl unsaved.1⟩
        · cases after using List.reverseRecOn with
          | nil =>
              obtain ⟨rfl, same⟩ := List.append_inj' whole rfl
              cases same
              exact Or.inl touches
          | append_singleton after lastOp =>
              rw [← List.cons_append, ← List.append_assoc] at whole
              obtain ⟨rfl, same⟩ := List.append_inj' whole rfl
              cases same
              simp only [List.mem_append, List.mem_singleton, not_or] at unsaved
              exact Or.inr ⟨Ne.symm unsaved.2,
                Or.inr ⟨before, other, after, rfl, unsaved.1, touches⟩⟩

/-- Whatever the file held and whatever its owner did, the tree comes back exactly when it is
plain, and something other than the value of a key has been changed since the last save,
unless nothing has been saved yet or the tree is empty. -/
theorem persists_run_iff (content : CString) (ops : List Op) : (run content ops).Persists ↔
    (run content ops).ini.Plain ∧ ((.save ∉ ops ∨ ∃ before op after,
      ops = before ++ op :: after ∧ .save ∉ after ∧ (run content before).Touches op) ∨
        tree (run content ops).ini = ([], [])) := by
  rw [persists_iff, changed_run]

/-- A value that is written after a save is lost with the rest of the tree. -/
theorem overwrite_lost : ¬ (run "[a]\nk=1\n".toList
    [.save, .write 0 "k".toList "2".toList]).Persists := by
  decide

end IniFile

end Chaosircd
