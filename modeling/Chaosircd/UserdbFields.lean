import Chaosircd.UserdbQueries

/-!
# Fields of the user database

`userdb_search` answers with fields `name=value`, whose values `quote_escape` quotes, and
`get_varvalue` takes the value out of such a field.  The one looks at the whole value before
it begins, and the other at no more than the first character of what it is given.
-/

namespace Chaosircd

namespace UserdbFields

open UserdbQueries

/-- `int n = str_len(str)`. -/
def lengthInt (str : CString) : Int :=
  (BitVec.ofNat 32 str.length).toInt

/-- The loop of `quote_escape` over a text in memory, with the rounds that are left; they are
not more than there are bytes. -/
def escapeLoop (q : Char) : Nat → List Char → CString
  | 0, _ => []
  | _ + 1, [] => []
  | rounds + 1, c :: str => (if c = q then ['\\', c] else [c]) ++ escapeLoop q rounds str

/-- `quote_escape`.  No memory is found for a negative number of bytes. -/
def quoteEscape (sa str : CString) (sep q : Char) : CString :=
  let quote := sep ≠ '\x00' ∧ sep ∈ str
  let escape := q ≠ '\x00' ∧ q ∈ str
  let n := lengthInt str
  let mark := if quote then [q] else []
  let text := if escape then escapeLoop q (n + 1).toNat (str ++ ['\x00']) else str.take n.toNat
  sa ++ mark ++ text ++ mark

/-- A field of the answer of `userdb_search`, up to its terminator. -/
def field (name value : CString) : CString :=
  beforeNul (quoteEscape (name ++ ['=']) value ' ' '\'')

/-! ## Which values come back -/

/-- The length of the value is an `int`, and either it has no quote, and no backslash before the
quote that is put behind it, or it has quotes, one of them at its end, and is quoted. -/
def ComesBack (value : CString) : Prop :=
  value.length < 2 ^ 31 ∧
    if '\'' ∈ value then ' ' ∈ value ∧ value.getLast? = some '\''
    else ' ' ∈ value → value.getLast? ≠ some '\\'

/-- The text with a backslash before each quote. -/
def escaped (s : CString) : CString :=
  s.flatMap fun c => if c = '\'' then ['\\', c] else [c]

theorem escaped_append (s t : CString) : escaped (s ++ t) = escaped s ++ escaped t :=
  List.flatMap_append

theorem escaped_eq_self {s : CString} (plain : '\'' ∉ s) : escaped s = s := by
  induction s with
  | nil => rfl
  | cons c s ih =>
      have other : c ≠ '\'' := fun same => plain (same ▸ List.mem_cons_self)
      rw [escaped, List.flatMap_cons, if_neg other, List.singleton_append]
      exact congrArg (c :: ·) (ih fun member => plain (List.mem_cons_of_mem c member))

theorem length_escaped (s : CString) : (escaped s).length = s.length + s.count '\'' := by
  induction s with
  | nil => rfl
  | cons c s ih =>
      have rest : (List.flatMap (fun c => if c = '\'' then ['\\', c] else [c]) s).length =
          s.length + s.count '\'' := ih
      rw [escaped, List.flatMap_cons, List.length_append, rest, List.length_cons, List.count_cons]
      by_cases quote : c = '\''
      · rw [if_pos quote, if_pos (beq_iff_eq.mpr quote)]
        simp only [List.length_cons, List.length_nil]
        omega
      · rw [if_neg quote, if_neg (by simpa using quote)]
        simp only [List.length_cons, List.length_nil]
        omega

/-- The copy does not begin with a quote, unless what is behind it does. -/
theorem head_escaped_append {s rest : CString} (behind : rest.head? ≠ some '\'') :
    (escaped s ++ rest).head? ≠ some '\'' := by
  cases s with
  | nil => exact behind
  | cons c s =>
      rw [escaped, List.flatMap_cons]
      by_cases quote : c = '\''
      · rw [if_pos quote]
        exact fun same => absurd (Option.some.inj same) (by decide)
      · rw [if_neg quote]
        exact fun same => quote (Option.some.inj same)

theorem escapeLoop_eq (rounds : Nat) (s : CString) :
    escapeLoop '\'' rounds s = escaped (s.take rounds) := by
  induction rounds generalizing s with
  | zero => rfl
  | succ rounds ih =>
      cases s with
      | nil => rfl
      | cons c s =>
          rw [escapeLoop, ih, List.take_succ_cons, escaped, escaped, List.flatMap_cons]

/-! ## The loop that takes the backslashes away -/

theorem dequoteLoop_cons {c : Char} {s : CString}
    (kept : c = '\\' → s.head? ≠ some '\'') (bytes : Nat) :
    dequoteLoop (bytes + 1) (c :: s) = c :: dequoteLoop bytes s := by
  rw [dequoteLoop]
  rintro t rfl rfl
  exact kept rfl rfl

theorem dequoteLoop_zero (s : CString) : dequoteLoop 0 s = [] := by
  cases s <;> rfl

theorem length_dequoteLoop_le (bytes : Nat) (s : CString) :
    (dequoteLoop bytes s).length ≤ s.length := by
  fun_induction dequoteLoop bytes s with
  | case1 => exact Nat.le_refl _
  | case2 => exact Nat.zero_le _
  | case3 bytes s ih =>
      simp only [List.length_cons]
      omega
  | case4 bytes c s _ ih =>
      simp only [List.length_cons]
      omega

/-- The backslashes that were put in are taken away, in front of anything but a quote. -/
theorem dequoteLoop_escaped {rest : CString} (behind : rest.head? ≠ some '\'') (k : Nat)
    (s : CString) :
    dequoteLoop ((escaped s).length + k) (escaped s ++ rest) = s ++ dequoteLoop k rest := by
  induction s with
  | nil =>
      rw [escaped, List.flatMap_nil, List.length_nil, Nat.zero_add]
      rfl
  | cons c s ih =>
      have head := @head_escaped_append s rest behind
      have split : escaped (c :: s) = (if c = '\'' then ['\\', c] else [c]) ++ escaped s := by
        rw [escaped, List.flatMap_cons]
        rfl
      rw [split]
      by_cases quote : c = '\''
      · subst quote
        rw [if_pos rfl]
        have bytes : (['\\', '\''] ++ escaped s).length + k = (escaped s).length + k + 1 + 1 := by
          rw [List.length_append]
          simp only [List.length_cons, List.length_nil]
          omega
        rw [bytes]
        exact congrArg ('\'' :: ·) ih
      · rw [if_neg quote]
        have bytes : ([c] ++ escaped s).length + k = (escaped s).length + k + 1 := by
          rw [List.length_append, List.length_singleton]
          omega
        rw [bytes, List.singleton_append, List.cons_append, dequoteLoop_cons (fun _ => head), ih]
        rfl

/-! ## The text of a field -/

variable {name value : CString}

theorem lengthInt_eq (short : value.length < 2 ^ 31) : lengthInt value = value.length := by
  rw [lengthInt, BitVec.toInt_eq_toNat_cond, BitVec.toNat_ofNat]
  split <;> omega

/-- A longer value is not copied to its end. -/
theorem lengthInt_of_long (long : 2 ^ 31 ≤ value.length) :
    2 * (lengthInt value + 1).toNat + 2 < value.length := by
  rw [lengthInt, BitVec.toInt_eq_toNat_cond, BitVec.toNat_ofNat]
  split <;> omega

theorem beforeNul_cons_append {front : CString} (text : '\x00' ∉ front) (more : CString) :
    beforeNul (front ++ more) = front ++ beforeNul more := by
  induction front with
  | nil => rfl
  | cons c front ih =>
      have isText : c ≠ '\x00' := fun isNul => text (isNul ▸ List.mem_cons_self)
      rw [List.cons_append, beforeNul_cons isText,
        ih fun member => text (List.mem_cons_of_mem c member)]
      rfl

/-- What is appended to the name and its equals sign. -/
theorem field_eq (text : '\x00' ∉ name) :
    field name value = name ++ '=' :: beforeNul (quoteEscape [] value ' ' '\'') := by
  have apart : quoteEscape (name ++ ['=']) value ' ' '\'' =
      (name ++ ['=']) ++ quoteEscape [] value ' ' '\'' := by
    rw [quoteEscape, quoteEscape]
    simp only [List.append_assoc, List.nil_append]
  have front : '\x00' ∉ name ++ ['='] := by
    rw [List.mem_append, List.mem_singleton]
    rintro (member | same)
    · exact text member
    · exact absurd same (by decide)
  rw [field, apart, beforeNul_cons_append front, List.append_assoc, List.singleton_append]

/-- The pieces that are appended. -/
theorem quoteEscape_eq (value : CString) :
    quoteEscape [] value ' ' '\'' =
      (if ' ' ∈ value then ['\''] else []) ++
        (if '\'' ∈ value then escaped ((value ++ ['\x00']).take (lengthInt value + 1).toNat)
          else value.take (lengthInt value).toNat) ++
        if ' ' ∈ value then ['\''] else [] := by
  have quote : (' ' ≠ '\x00' ∧ ' ' ∈ value) ↔ ' ' ∈ value := and_iff_right (by decide)
  have escape : ('\'' ≠ '\x00' ∧ '\'' ∈ value) ↔ '\'' ∈ value := and_iff_right (by decide)
  simp only [quoteEscape, quote, escape, List.nil_append, escapeLoop_eq]

theorem length_quoteEscape_le (value : CString) :
    (quoteEscape [] value ' ' '\'').length ≤ 2 * (lengthInt value + 1).toNat + 2 := by
  have mark : (if ' ' ∈ value then ['\''] else []).length ≤ 1 := by
    split <;> decide
  have text : (if '\'' ∈ value then escaped ((value ++ ['\x00']).take (lengthInt value + 1).toNat)
      else value.take (lengthInt value).toNat).length ≤ 2 * (lengthInt value + 1).toNat := by
    split
    · rw [length_escaped]
      have taken := List.length_take_le (lengthInt value + 1).toNat (value ++ ['\x00'])
      have quotes := @List.count_le_length _ _ '\'' ((value ++ ['\x00']).take (lengthInt value + 1).toNat)
      omega
    · have taken := List.length_take_le (lengthInt value).toNat value
      omega
  rw [quoteEscape_eq, List.length_append, List.length_append]
  omega

/-- A value without a quote is appended as it is, or between quotes. -/
theorem quoteEscape_plain (short : value.length < 2 ^ 31) (plain : '\'' ∉ value) :
    quoteEscape [] value ' ' '\'' =
      if ' ' ∈ value then '\'' :: (value ++ ['\'']) else value := by
  rw [quoteEscape_eq, lengthInt_eq short, if_neg plain, Int.toNat_natCast, List.take_length]
  by_cases blank : ' ' ∈ value
  · rw [if_pos blank, if_pos blank]
    rfl
  · rw [if_neg blank, if_neg blank, List.append_nil]
    rfl

/-- Behind a value with a quote its terminator is appended too, and hides the closing quote. -/
theorem beforeNul_quoteEscape (short : value.length < 2 ^ 31) (text : '\x00' ∉ value)
    (escape : '\'' ∈ value) :
    beforeNul (quoteEscape [] value ' ' '\'') =
      (if ' ' ∈ value then ['\''] else []) ++ escaped value := by
  have rounds : ((value.length : Int) + 1).toNat = (value ++ ['\x00']).length := by
    rw [List.length_append, List.length_singleton]
    omega
  have ended : escaped ['\x00'] = ['\x00'] := rfl
  have noNul : ∀ mark : CString, '\x00' ∉ mark → '\x00' ∉ mark ++ escaped value := by
    intro mark clean member
    rcases List.mem_append.mp member with member | member
    · exact clean member
    · obtain ⟨c, listed, isNul⟩ := List.mem_flatMap.mp member
      have same : c = '\x00' := by
        split at isNul
        · rcases List.mem_cons.mp isNul with slash | same
          · exact absurd slash (by decide)
          · exact (List.mem_singleton.mp same).symm
        · exact (List.mem_singleton.mp isNul).symm
      exact text (same ▸ listed)
  rw [quoteEscape_eq, lengthInt_eq short, if_pos escape, rounds, List.take_length, escaped_append,
    ended]
  by_cases blank : ' ' ∈ value
  · rw [if_pos blank, ← List.append_assoc, List.append_assoc _ _ ['\'']]
    exact beforeNul_append_nul (noNul ['\''] (by decide)) ['\'']
  · rw [if_neg blank, ← List.append_assoc, List.append_nil]
    exact beforeNul_append_nul (noNul [] List.not_mem_nil) []

/-! ## The value of a field -/

theorem getVarvalue_quoted (plain : '=' ∉ name) (d : CString) :
    getVarvalue (name ++ '=' :: '\'' :: d) = dequoteLoop (d.length - 1) d := by
  have named : '=' ∈ name ++ '=' :: '\'' :: d := List.mem_append_right _ List.mem_cons_self
  simp only [getVarvalue, if_pos named, Modes.after_append_cons _ plain]

theorem getVarvalue_plain (plain : '=' ∉ name) {p : CString} (bare : p.head? ≠ some '\'') :
    getVarvalue (name ++ '=' :: p) = p := by
  have named : '=' ∈ name ++ '=' :: p := List.mem_append_right _ List.mem_cons_self
  rw [getVarvalue, if_pos named, Modes.after_append_cons _ plain]
  split
  · exact absurd rfl bare
  · rfl

theorem length_getVarvalue_le (plain : '=' ∉ name) (p : CString) :
    (getVarvalue (name ++ '=' :: p)).length ≤ p.length := by
  by_cases quoted : p.head? = some '\''
  · obtain ⟨d, rfl⟩ := List.head?_eq_some_iff.mp quoted
    rw [getVarvalue_quoted plain]
    exact Nat.le_succ_of_le (length_dequoteLoop_le _ d)
  · rw [getVarvalue_plain plain quoted]

/-- A quoted value without a quote comes back, unless its last character hides the closing
quote. -/
theorem dequoteLoop_plain_iff {value : CString} (plain : '\'' ∉ value) :
    dequoteLoop value.length (value ++ ['\'']) = value ↔ value.getLast? ≠ some '\\' := by
  rcases List.eq_nil_or_concat value with rfl | ⟨front, c, rfl⟩
  · exact iff_of_true rfl (by decide)
  · rw [List.concat_eq_append] at plain ⊢
    have other : c ≠ '\'' := fun same => plain (List.mem_append_right _ (by rw [same]; exact List.mem_cons_self))
    have frontPlain : '\'' ∉ front := fun member => plain (List.mem_append_left _ member)
    have bare : (c :: ['\'']).head? ≠ some '\'' := fun same => other (Option.some.inj same)
    have read := dequoteLoop_escaped bare 1 front
    rw [escaped_eq_self frontPlain] at read
    rw [List.getLast?_concat, List.length_append, List.length_singleton, List.append_assoc,
      List.singleton_append, read, List.append_cancel_left_eq]
    by_cases slash : c = '\\'
    · subst slash
      exact iff_of_false (by decide) (fun kept => kept rfl)
    · refine iff_of_true ?_ (fun same => slash (Option.some.inj same))
      rw [dequoteLoop_cons (fun same => absurd same slash), dequoteLoop_zero]

/-- A quoted value with a quote lacks its closing quote, and comes back if it ends with one. -/
theorem dequoteLoop_escaped_iff {value : CString} (escape : '\'' ∈ value) :
    dequoteLoop ((escaped value).length - 1) (escaped value) = value ↔
      value.getLast? = some '\'' := by
  rcases List.eq_nil_or_concat value with rfl | ⟨front, c, rfl⟩
  · exact absurd escape List.not_mem_nil
  · rw [List.concat_eq_append, escaped_append, List.length_append, List.getLast?_concat]
    by_cases quote : c = '\''
    · subst quote
      have read := dequoteLoop_escaped (show ['\\', '\''].head? ≠ some '\'' by decide) 1 front
      have last : escaped ['\''] = ['\\', '\''] := rfl
      refine iff_of_true ?_ rfl
      rw [last]
      exact read
    · have last : escaped [c] = [c] := by
        rw [escaped, List.flatMap_singleton, if_neg quote]
      have bare : [c].head? ≠ some '\'' := fun same => quote (Option.some.inj same)
      have read := dequoteLoop_escaped bare 0 front
      rw [dequoteLoop_zero, List.append_nil, Nat.add_zero] at read
      refine iff_of_false (fun same => ?_) (fun same => quote (Option.some.inj same))
      rw [last, List.length_singleton, Nat.add_sub_cancel, read] at same
      exact absurd (congrArg List.length same) (by simp)

/-- The value that is taken out of a field is the one that was put into it just where the quotes
and the backslashes at its end allow it. -/
theorem getVarvalue_field_iff (plain : '=' ∉ name) (nameText : '\x00' ∉ name)
    (valueText : '\x00' ∉ value) : getVarvalue (field name value) = value ↔ ComesBack value := by
  rw [field_eq nameText]
  by_cases short : value.length < 2 ^ 31
  · rw [ComesBack, and_iff_right short]
    by_cases escape : '\'' ∈ value
    · rw [if_pos escape, beforeNul_quoteEscape short valueText escape]
      by_cases blank : ' ' ∈ value
      · rw [if_pos blank, List.singleton_append, getVarvalue_quoted plain, and_iff_right blank]
        exact dequoteLoop_escaped_iff escape
      · rw [if_neg blank, List.nil_append]
        refine iff_of_false (fun same => ?_) (fun ends => blank ends.1)
        have bare := @head_escaped_append value [] (by decide)
        rw [List.append_nil] at bare
        rw [getVarvalue_plain plain bare] at same
        have longer := congrArg List.length same
        rw [length_escaped] at longer
        have quotes := List.count_pos_iff.mpr escape
        omega
    · rw [if_neg escape, quoteEscape_plain short escape]
      by_cases blank : ' ' ∈ value
      · have noNul : '\x00' ∉ '\'' :: (value ++ ['\'']) := by
          simp [valueText]
        rw [if_pos blank, beforeNul_eq_self noNul, getVarvalue_quoted plain, List.length_append,
          List.length_singleton, Nat.add_sub_cancel, dequoteLoop_plain_iff escape]
        exact ⟨fun kept _ => kept, fun kept => kept blank⟩
      · rw [if_neg blank, beforeNul_eq_self valueText]
        refine iff_of_true (getVarvalue_plain plain fun head => ?_) (fun has => absurd has blank)
        exact escape (List.mem_of_mem_head? head)
  · refine iff_of_false (fun same => ?_) (fun back => short back.1)
    have long := lengthInt_of_long (Nat.le_of_not_lt short)
    have taken := length_getVarvalue_le plain (beforeNul (quoteEscape [] value ' ' '\''))
    have shown : (beforeNul (quoteEscape [] value ' ' '\'')).length ≤
        (quoteEscape [] value ' ' '\'').length := (List.takeWhile_prefix _).length_le
    have bound := length_quoteEscape_le value
    rw [same] at taken
    omega

/-- A host name comes back. -/
theorem getVarvalue_field_iff_host :
    getVarvalue (field "host".toList "irc.example.net".toList) = "irc.example.net".toList ↔
      ComesBack "irc.example.net".toList :=
  getVarvalue_field_iff (by decide) (by decide) (by decide)

/-- A value with a quote in it. -/
theorem getVarvalue_field_spoilt : ¬ ∀ name value : CString, '=' ∉ name → '\x00' ∉ name →
    '\x00' ∉ value → getVarvalue (field name value) = value := by
  intro back
  exact absurd (back ['a'] ['b', '\''] (by decide) (by decide) (by decide)) (by decide)

end UserdbFields

end Chaosircd
