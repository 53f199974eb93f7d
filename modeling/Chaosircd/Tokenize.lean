import Chaosircd.Numerals
import Mathlib.Data.List.DropRight

/-!
# Splitting lines into tokens

`str_tokenize` separates a line at blanks.  A token that starts with a colon is
the rest of the line, and so is the last token it has room for.
`str_tokenize_s` separates at one delimiter, runs of which count as one.

The second half shows what the splitters return on lines that were built by
joining words: a word survives when it is not empty, contains no separator and
does not look like a trailing argument.
-/

namespace Chaosircd

/-- The last argument of a line: up to the line end, less trailing blanks. -/
def restOfLine (s : CString) : CString :=
  (s.takeWhile fun c => c ≠ '\r' ∧ c ≠ '\n').rdropWhile fun c =>
    c == ' ' || c == '\t'

/-- `str_tokenize(s, v, maxtok)`. -/
def strTokenize : Nat → CString → List CString
  | 0, _ => []
  | maxtok + 1, s =>
      match s.dropWhile strIsspace with
      | [] => []
      | ':' :: rest => [restOfLine rest]
      | c :: cs =>
          if maxtok = 0 then [restOfLine (c :: cs)]
          else
            (c :: cs).takeWhile (fun c => !strIsspace c) ::
              strTokenize maxtok
                ((c :: cs).dropWhile fun c => !strIsspace c)

/-- `str_tokenize_s(s, v, maxtok, delim)`. -/
def strTokenizeS (delim : Char) : Nat → CString → List CString
  | 0, _ => []
  | maxtok + 1, s =>
      match s.dropWhile (· == delim) with
      | [] => []
      | c :: cs =>
          (c :: cs).takeWhile (· != delim) ::
            strTokenizeS delim maxtok ((c :: cs).dropWhile (· != delim))

/-- A word that survives being one of the blank-separated tokens of a line. -/
structure PlainWord (w : CString) : Prop where
  nonempty : w ≠ []
  noBlank : ∀ c ∈ w, strIsspace c = false
  noColon : w.head? ≠ some ':'

instance (w : CString) : Decidable (PlainWord w) :=
  letI _noBlank : Decidable (∀ c ∈ w, strIsspace c = false) := List.decidableBAll _ w
  decidable_of_iff
    (w ≠ [] ∧ (∀ c ∈ w, strIsspace c = false) ∧ w.head? ≠ some ':')
    ⟨fun ⟨nonempty, noBlank, noColon⟩ => ⟨nonempty, noBlank, noColon⟩,
      fun plain => ⟨plain.nonempty, plain.noBlank, plain.noColon⟩⟩

/-- Numerals are plain words. -/
theorem plainWord_toDigits (n : Nat) : PlainWord (Nat.toDigits 10 n) where
  nonempty := Nat.toDigits_ne_nil
  noBlank := fun c member => not_strIsspace_of_strIsdigit (strIsdigit_of_mem_toDigits member)
  noColon := by
    intro colon
    have digit := strIsdigit_of_mem_toDigits (List.mem_of_mem_head? colon)
    exact absurd digit (by decide)

/-- A word that survives being one of the tokens separated by a delimiter. -/
structure PlainField (delim : Char) (w : CString) : Prop where
  nonempty : w ≠ []
  noDelim : delim ∉ w

instance (delim : Char) (w : CString) : Decidable (PlainField delim w) :=
  decidable_of_iff (w ≠ [] ∧ delim ∉ w)
    ⟨fun ⟨nonempty, noDelim⟩ => ⟨nonempty, noDelim⟩,
      fun plain => ⟨plain.nonempty, plain.noDelim⟩⟩

/-- Text that holds no separator is kept up to the first separator. -/
theorem takeWhile_append_of_forall {p : Char → Bool} {w s : CString}
    (all : ∀ c ∈ w, p c) (stops : ∀ c ∈ s.head?, p c = false) :
    (w ++ s).takeWhile p = w := by
  rw [List.takeWhile_append_of_pos all]
  cases s with
  | nil => simp
  | cons c s =>
      have stop : p c = false := stops c rfl
      simp [stop]

/-- Skipping text up to the first separator. -/
theorem dropWhile_append_of_forall {p : Char → Bool} {w s : CString}
    (all : ∀ c ∈ w, p c) (stops : ∀ c ∈ s.head?, p c = false) :
    (w ++ s).dropWhile p = s := by
  rw [List.dropWhile_append_of_pos all]
  cases s with
  | nil => rfl
  | cons c s =>
      have stop : p c = false := stops c rfl
      simp [stop]

theorem PlainWord.dropWhile_append {w : CString} (plain : PlainWord w)
    (s : CString) : (w ++ s).dropWhile strIsspace = w ++ s := by
  cases w with
  | nil => exact absurd rfl plain.nonempty
  | cons c cs =>
      have notBlank := plain.noBlank c (by simp)
      simp [notBlank]

/-- A blank-free line end is kept as it is. -/
theorem restOfLine_eq_self {s : CString}
    (noLineEnd : ∀ c ∈ s, c ≠ '\r' ∧ c ≠ '\n')
    (noTrailing : ∀ c ∈ s.getLast?, c ≠ ' ' ∧ c ≠ '\t') : restOfLine s = s := by
  have kept : (s.takeWhile fun c => decide (c ≠ '\r' ∧ c ≠ '\n')) = s := by
    rw [List.takeWhile_eq_self_iff]
    intro c member
    simpa using noLineEnd c member
  rw [restOfLine, kept, List.rdropWhile_eq_self_iff]
  intro nonempty
  have last := noTrailing (s.getLast nonempty)
    (List.getLast?_eq_getLast_of_ne_nil nonempty)
  simpa using last

theorem restOfLine_of_noBlank {s : CString}
    (noBlank : ∀ c ∈ s, strIsspace c = false) : restOfLine s = s := by
  have separate : ∀ c ∈ s, c ≠ ' ' ∧ c ≠ '\t' ∧ c ≠ '\n' ∧ c ≠ '\r' := by
    intro c member
    have notBlank := noBlank c member
    simpa [strIsspace, and_assoc] using notBlank
  apply restOfLine_eq_self
  · intro c member
    exact ⟨(separate c member).2.2.2, (separate c member).2.2.1⟩
  · intro c last
    have member := List.mem_of_getLast? last
    exact ⟨(separate c member).1, (separate c member).2.1⟩

/-- The last plain word of a line. -/
theorem strTokenize_plainWord {w : CString} (plain : PlainWord w)
    (maxtok : Nat) : strTokenize (maxtok + 1) w = [w] := by
  have skipped : w.dropWhile strIsspace = w := by
    simpa using plain.dropWhile_append []
  rw [strTokenize, skipped]
  cases w with
  | nil => exact absurd rfl plain.nonempty
  | cons c cs =>
      have notColon : c ≠ ':' := by
        intro isColon
        exact plain.noColon (by simp [isColon])
      split
      · contradiction
      · rename_i same
        exact absurd (List.cons.inj same).1 notColon
      · rename_i same
        cases same
        have taken : (c :: cs).takeWhile (fun c => !strIsspace c) = c :: cs := by
          rw [List.takeWhile_eq_self_iff]
          intro d member
          simp [plain.noBlank d member]
        have dropped : (c :: cs).dropWhile (fun c => !strIsspace c) = [] := by
          rw [List.dropWhile_eq_nil_iff]
          intro d member
          simp [plain.noBlank d member]
        split_ifs
        · rw [restOfLine_of_noBlank plain.noBlank]
        · rw [taken, dropped]
          cases maxtok <;> rfl

/-- A plain word before a blank is the next token. -/
theorem strTokenize_plainWord_append {w : CString} (plain : PlainWord w)
    (maxtok : Nat) (s : CString) :
    strTokenize (maxtok + 2) (w ++ ' ' :: s) =
      w :: strTokenize (maxtok + 1) s := by
  rw [strTokenize, plain.dropWhile_append]
  cases w with
  | nil => exact absurd rfl plain.nonempty
  | cons c cs =>
      have notColon : c ≠ ':' := by
        intro isColon
        exact plain.noColon (by simp [isColon])
      have noBlank : ∀ d ∈ c :: cs, !strIsspace d := by
        intro d member
        simp [plain.noBlank d member]
      have stops : ∀ d ∈ (' ' :: s).head?, (!strIsspace d) = false := by
        simp [strIsspace]
      have taken := takeWhile_append_of_forall noBlank stops
      have dropped := dropWhile_append_of_forall noBlank stops
      rw [List.cons_append] at taken dropped ⊢
      split
      · contradiction
      · rename_i same
        exact absurd (List.cons.inj same).1 notColon
      · rename_i same
        cases same
        rw [if_neg (by omega), taken, dropped]
        simp [strTokenize, strIsspace]

/-- A colon opens the last argument. -/
theorem strTokenize_colon (maxtok : Nat) (s : CString) :
    strTokenize (maxtok + 1) (':' :: s) = [restOfLine s] := by
  rw [strTokenize]
  rfl

/-- A leading blank is skipped. -/
theorem strTokenize_blank (maxtok : Nat) (s : CString) :
    strTokenize maxtok (' ' :: s) = strTokenize maxtok s := by
  cases maxtok with
  | zero => rfl
  | succ maxtok => simp [strTokenize, strIsspace]

/-- Plain words joined by blanks are split into themselves. -/
theorem strTokenize_intercalate {ws : List CString}
    (plain : ∀ w ∈ ws, PlainWord w) {maxtok : Nat} (room : ws.length ≤ maxtok) :
    strTokenize maxtok (List.intercalate [' '] ws) = ws := by
  induction ws generalizing maxtok with
  | nil =>
      cases maxtok <;> simp [strTokenize]
  | cons w ws ih =>
      obtain ⟨maxtok, rfl⟩ : ∃ n, maxtok = n + 1 :=
        Nat.exists_eq_succ_of_ne_zero (by simp at room; omega)
      have plainHead : PlainWord w := plain w (by simp)
      have plainTail : ∀ v ∈ ws, PlainWord v :=
        fun v member => plain v (by simp [member])
      cases ws with
      | nil => simpa using strTokenize_plainWord plainHead maxtok
      | cons v vs =>
          obtain ⟨maxtok, rfl⟩ : ∃ n, maxtok = n + 1 :=
            Nat.exists_eq_succ_of_ne_zero (by simp at room; omega)
          rw [List.intercalate_cons_cons, List.append_assoc,
            List.singleton_append, strTokenize_plainWord_append plainHead,
            ih plainTail (by simpa using room)]

/-- A leading delimiter is skipped. -/
theorem strTokenizeS_delim (delim : Char) (maxtok : Nat) (s : CString) :
    strTokenizeS delim maxtok (delim :: s) = strTokenizeS delim maxtok s := by
  cases maxtok with
  | zero => rfl
  | succ maxtok => simp [strTokenizeS]

/-- A field is the next token; what follows it starts with the delimiter. -/
theorem strTokenizeS_append {delim : Char} {w : CString}
    (plain : PlainField delim w) (maxtok : Nat) {s : CString}
    (stops : ∀ c ∈ s.head?, c = delim) :
    strTokenizeS delim (maxtok + 1) (w ++ s) =
      w :: strTokenizeS delim maxtok s := by
  have noDelim : ∀ d ∈ w, d != delim := by
    intro d member
    simp only [bne_iff_ne, ne_eq]
    rintro rfl
    exact plain.noDelim member
  have delimStops : ∀ d ∈ s.head?, (d != delim) = false := by
    intro d member
    simp [stops d member]
  have taken := takeWhile_append_of_forall noDelim delimStops
  have dropped := dropWhile_append_of_forall noDelim delimStops
  cases w with
  | nil => exact absurd rfl plain.nonempty
  | cons c cs =>
      have notDelim : ¬ c = delim := by simpa using noDelim c (by simp)
      rw [List.cons_append] at taken dropped ⊢
      rw [strTokenizeS, List.dropWhile_cons_of_neg (by simpa using notDelim)]
      simp only [taken, dropped]

/-- Fields joined by the delimiter are split into themselves. -/
theorem strTokenizeS_intercalate {delim : Char} {ws : List CString}
    (plain : ∀ w ∈ ws, PlainField delim w) {maxtok : Nat}
    (room : ws.length ≤ maxtok) :
    strTokenizeS delim maxtok (List.intercalate [delim] ws) = ws := by
  induction ws generalizing maxtok with
  | nil => cases maxtok <;> simp [strTokenizeS]
  | cons w ws ih =>
      obtain ⟨maxtok, rfl⟩ : ∃ n, maxtok = n + 1 :=
        Nat.exists_eq_succ_of_ne_zero (by simp at room; omega)
      have plainHead : PlainField delim w := plain w (by simp)
      have plainTail : ∀ v ∈ ws, PlainField delim v :=
        fun v member => plain v (by simp [member])
      cases ws with
      | nil =>
          have step := strTokenizeS_append plainHead maxtok (s := []) (by simp)
          simpa [show strTokenizeS delim maxtok [] = [] by
            cases maxtok <;> rfl] using step
      | cons v vs =>
          rw [List.intercalate_cons_cons, List.append_assoc,
            List.singleton_append, strTokenizeS_append plainHead _ (by simp),
            strTokenizeS_delim, ih plainTail (by simpa using room)]

end Chaosircd
