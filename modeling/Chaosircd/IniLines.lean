import Chaosircd.IniFile

/-!
# Lines of an ini file

A line goes through a buffer on its way to the file and through another one on its way back,
where it is cut at the first NUL and stripped.  A plain text that fits the first buffer comes
back as it was, and whatever comes back is plain.
-/

namespace Chaosircd

/-! ## Stripping -/

theorem iniStrip_cons {c : Char} (space : strIsspace c) (s : CString) :
    iniStrip (c :: s) = iniStrip s := by
  rw [iniStrip, List.dropWhile_cons_of_pos space, iniStrip]

theorem iniStrip_concat {c : Char} (space : strIsspace c) (s : CString) :
    iniStrip (s ++ [c]) = iniStrip s := by
  rw [iniStrip, List.dropWhile_append]
  split
  · rename_i blank
    rw [List.isEmpty_iff] at blank
    rw [iniStrip, blank, List.dropWhile_cons_of_pos space, List.dropWhile_nil]
  · rw [List.rdropWhile_concat_pos _ _ _ space, iniStrip]

theorem iniStrip_sublist (s : CString) : (iniStrip s).Sublist s :=
  (List.rdropWhile_prefix _ _).sublist.trans (List.dropWhile_sublist _)

theorem head_iniStrip {s : CString} {c : Char} (isHead : (iniStrip s).head? = some c) :
    strIsspace c = false := by
  obtain ⟨rest, whole⟩ := List.rdropWhile_prefix strIsspace (s.dropWhile strIsspace)
  have notSpace := List.head?_dropWhile_not strIsspace s
  cases stripped : iniStrip s with
  | nil => simp [stripped] at isHead
  | cons c' cs =>
      rw [stripped] at isHead
      obtain rfl := Option.some.inj isHead
      rw [iniStrip] at stripped
      rw [stripped, List.cons_append] at whole
      simpa [← whole] using notSpace

theorem getLast_iniStrip {s : CString} {c : Char} (isLast : (iniStrip s).getLast? = some c) :
    strIsspace c = false := by
  have nonempty : iniStrip s ≠ [] := by
    intro empty
    simp [empty] at isLast
  have notSpace := List.rdropWhile_last_not strIsspace (s.dropWhile strIsspace) nonempty
  rw [List.getLast?_eq_some_getLast nonempty] at isLast
  obtain rfl := Option.some.inj isLast
  exact Bool.eq_false_iff.mpr notSpace

/-- A text is stripped when no blank is at its ends. -/
theorem iniStrip_eq_self {s : CString} (first : ∀ c, s.head? = some c → strIsspace c = false)
    (last : ∀ c, s.getLast? = some c → strIsspace c = false) : iniStrip s = s := by
  have dropped : s.dropWhile strIsspace = s := by
    cases s with
    | nil => rfl
    | cons c cs => exact List.dropWhile_cons_of_neg (by simp [first c rfl])
  rw [iniStrip, dropped, List.rdropWhile_eq_self_iff]
  intro nonempty
  simp [last _ (List.getLast?_eq_some_getLast nonempty)]

@[simp]
theorem iniStrip_iniStrip (s : CString) : iniStrip (iniStrip s) = iniStrip s :=
  iniStrip_eq_self (fun _ => head_iniStrip) fun _ => getLast_iniStrip

/-- Where no blank is in front, only the end goes. -/
theorem iniStrip_prefix {s : CString} (first : ∀ c, s.head? = some c → strIsspace c = false) :
    iniStrip s <+: s := by
  have dropped : s.dropWhile strIsspace = s := by
    cases s with
    | nil => rfl
    | cons c cs => exact List.dropWhile_cons_of_neg (by simp [first c rfl])
  rw [iniStrip, dropped]
  exact List.rdropWhile_prefix _ _

/-- Where no blank is at the end, only the front goes. -/
theorem iniStrip_suffix {s : CString} (last : ∀ c, s.getLast? = some c → strIsspace c = false) :
    iniStrip s <:+ s := by
  have isSuffix := List.dropWhile_suffix (l := s) strIsspace
  have kept : iniStrip s = s.dropWhile strIsspace := by
    rw [iniStrip, List.rdropWhile_eq_self_iff]
    intro nonempty
    obtain ⟨front, whole⟩ := isSuffix
    have isLast : s.getLast? = some ((s.dropWhile strIsspace).getLast nonempty) := by
      rw [← List.getLast?_eq_some_getLast nonempty, ← whole, List.getLast?_append_of_ne_nil]
      · rw [whole]
      · exact nonempty
    simp [last _ isLast]
  rw [kept]
  exact isSuffix

/-- A text that can stand in a line. -/
structure IniPlain (s : CString) : Prop where
  stripped : iniStrip s = s
  noEnd : '\n' ∉ s
  noNul : '\x00' ∉ s

instance (s : CString) : Decidable (IniPlain s) :=
  decidable_of_iff (iniStrip s = s ∧ '\n' ∉ s ∧ '\x00' ∉ s)
    ⟨fun ⟨stripped, noEnd, noNul⟩ => ⟨stripped, noEnd, noNul⟩,
      fun plain => ⟨plain.stripped, plain.noEnd, plain.noNul⟩⟩

theorem IniPlain.strip {s : CString} (noEnd : '\n' ∉ s) (noNul : '\x00' ∉ s) :
    IniPlain (iniStrip s) :=
  ⟨iniStrip_iniStrip s, fun member => noEnd ((iniStrip_sublist s).mem member),
    fun member => noNul ((iniStrip_sublist s).mem member)⟩

/-! ## Lines -/

theorem newline_not_mem_completeLines {s line : CString} (member : line ∈ completeLines s) :
    '\n' ∉ line := by
  induction s generalizing line with
  | nil => cases member
  | cons c cs induction =>
      rw [completeLines] at member
      split at member
      · cases List.mem_cons.mp member with
        | inl same => simp [same]
        | inr later => exact induction later
      · rename_i differs
        cases lines : completeLines cs with
        | nil => simp [lines] at member
        | cons first others =>
            rw [lines] at member induction
            cases List.mem_cons.mp member with
            | inl same =>
                have noEnd := induction List.mem_cons_self
                rw [same, List.mem_cons, not_or]
                exact ⟨Ne.symm differs, noEnd⟩
            | inr later => exact induction (List.mem_cons_of_mem _ later)

theorem completeLines_append {s : CString} (noEnd : '\n' ∉ s) (rest : CString) :
    completeLines (s ++ '\n' :: rest) = s :: completeLines rest := by
  induction s with
  | nil => rw [List.nil_append, completeLines, if_pos rfl]
  | cons c cs induction =>
      rw [List.mem_cons, not_or] at noEnd
      rw [List.cons_append, completeLines, if_neg (Ne.symm noEnd.1), induction noEnd.2]

/-- The lines of a text that is put before others are not longer than it. -/
theorem length_completeLines_append (s rest : CString) : ∃ first others,
    completeLines (s ++ '\n' :: rest) = first :: others ∧ first.length ≤ s.length ∧
      ∀ line ∈ others, line.length ≤ s.length ∨ line ∈ completeLines rest := by
  induction s with
  | nil => exact ⟨[], _, completeLines_append List.not_mem_nil rest, le_rfl, fun _ => Or.inr⟩
  | cons c cs induction =>
      obtain ⟨first, others, whole, short, later⟩ := induction
      have longer : ∀ line ∈ others,
          line.length ≤ (c :: cs).length ∨ line ∈ completeLines rest := by
        intro line member
        exact (later line member).imp_left Nat.le_succ_of_le
      rw [List.cons_append, completeLines, whole]
      split
      · refine ⟨[], first :: others, rfl, Nat.zero_le _, ?_⟩
        intro line member
        cases List.mem_cons.mp member with
        | inl same => exact Or.inl (same ▸ Nat.le_succ_of_le short)
        | inr member => exact longer line member
      · exact ⟨c :: first, others, rfl, Nat.succ_le_succ short, longer⟩

/-- Lines that fit come back. -/
theorem completeLines_flatMap {texts : List CString}
    (noEnd : ∀ s ∈ texts, '\n' ∉ s) (fits : ∀ s ∈ texts, s.length ≤ ioLineSize - 2) :
    completeLines (texts.flatMap ioPuts) = texts := by
  induction texts with
  | nil => rfl
  | cons s texts induction =>
      have whole : ioPuts s = s ++ ['\n'] := by
        rw [ioPuts, List.take_of_length_le (fits s List.mem_cons_self)]
      rw [List.flatMap_cons, whole, List.append_assoc, List.singleton_append,
        completeLines_append (noEnd s List.mem_cons_self),
        induction (fun t member => noEnd t (List.mem_cons_of_mem _ member))
          fun t member => fits t (List.mem_cons_of_mem _ member)]

/-- No line of what has been put is longer than the buffer. -/
theorem length_le_of_mem_flatMap {texts : List CString} {line : CString}
    (member : line ∈ completeLines (texts.flatMap ioPuts)) : line.length ≤ ioLineSize - 2 := by
  induction texts with
  | nil => cases member
  | cons s texts induction =>
      rw [List.flatMap_cons, ioPuts, List.append_assoc, List.singleton_append] at member
      obtain ⟨first, others, whole, short, later⟩ :=
        length_completeLines_append (s.take (ioLineSize - 2)) (texts.flatMap ioPuts)
      have bound : (s.take (ioLineSize - 2)).length ≤ ioLineSize - 2 := by
        rw [List.length_take]
        exact Nat.min_le_left _ _
      rw [whole] at member
      cases List.mem_cons.mp member with
      | inl same => exact same ▸ short.trans bound
      | inr member =>
          cases later line member with
          | inl short => exact short.trans bound
          | inr member => exact induction member

/-- A short line in the buffer. -/
theorem iniStrip_ioGets {line : CString} (short : line.length ≤ ioLineSize - 2) :
    iniStrip (ioGets iniBufSize line) = iniStrip (beforeNul line) := by
  have whole : (line ++ ['\n']).take (iniBufSize - 1) = line ++ ['\n'] := by
    apply List.take_of_length_le
    rw [List.length_append]
    simp only [ioLineSize, iniBufSize, List.length_singleton] at short ⊢
    omega
  rw [ioGets, whole]
  by_cases noNul : '\x00' ∈ line
  · rw [beforeNul, List.takeWhile_append, if_neg]
    · rfl
    · intro same
      have all : line.takeWhile (· ≠ '\x00') = line :=
        (List.takeWhile_prefix _).eq_of_length same
      simpa using List.takeWhile_eq_self_iff.mp all _ noNul
  · have all : ∀ c ∈ line, decide (c ≠ '\x00') = true := by
      intro c member
      rw [decide_eq_true_eq]
      rintro rfl
      exact noNul member
    rw [beforeNul, beforeNul, List.takeWhile_append_of_pos all,
      List.takeWhile_eq_self_iff.mpr all]
    exact iniStrip_concat rfl line

/-- A plain line that fits is read as it was written. -/
theorem IniPlain.read {s : CString} (plain : IniPlain s) (short : s.length ≤ ioLineSize - 2) :
    iniStrip (ioGets iniBufSize s) = s := by
  rw [iniStrip_ioGets short, beforeNul_eq_self plain.noNul, plain.stripped]

/-- What is read from a short line is plain. -/
theorem IniPlain.of_read {line : CString} (noEnd : '\n' ∉ line)
    (short : line.length ≤ ioLineSize - 2) : IniPlain (iniStrip (ioGets iniBufSize line)) ∧
      (iniStrip (ioGets iniBufSize line)).length ≤ ioLineSize - 2 := by
  have part : (beforeNul line).Sublist line := List.takeWhile_sublist _
  rw [iniStrip_ioGets short]
  exact ⟨.strip (fun member => noEnd (part.mem member)) (nul_not_mem_beforeNul line),
    ((iniStrip_sublist _).trans part).length_le.trans short⟩

end Chaosircd
