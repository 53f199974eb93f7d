import Chaosircd.PrintFormat

/-!
# Formatted print against what its header documents

The comment over `str_vsnprintf` documents strings, decimals and pointers, padded on the left
or on the right.  A format made of these and of other text should be printed as far as there
is room for it.
-/

namespace Chaosircd

namespace PrintFormat

/-! ## Documented formats -/

/-- The conversions that can be padded, with the argument of each. -/
inductive Conversion where
  | s (arg : Option CString)
  | u (arg : BitVec 32)
  | i (arg : BitVec 32)
  | llu (arg : BitVec 64)
  | lli (arg : BitVec 64)

namespace Conversion

/-- The number of `l` in front of the letter. -/
def longs : Conversion → Nat
  | .llu _ | .lli _ => 2
  | _ => 0

def letter : Conversion → Char
  | .s _ => 's'
  | .u _ | .llu _ => 'u'
  | .i _ | .lli _ => 'i'

def arg : Conversion → Arg
  | .s arg => .str arg
  | .u arg | .i arg => .word32 arg
  | .llu arg | .lli arg => .word64 arg

/-- What the conversion stands for. -/
def text : Conversion → CString
  | .s arg => arg.getD "(null)".toList
  | .u arg => Nat.toDigits 10 arg.toNat
  | .i arg => intText arg.toInt
  | .llu arg => Nat.toDigits 10 arg.toNat
  | .lli arg => intText arg.toInt

/-- What is printed for it. -/
def printed : Conversion → CString
  | .s arg => arg.getD "(null)".toList
  | .u arg => strLutoa arg
  | .i arg => strLtoa arg
  | .llu arg => strLlutoa arg
  | .lli arg => strLltoa arg

end Conversion

/-- A piece of a format: a character that is copied, a conversion with or without a width, or
a pointer.  Only a width is aligned to the left. -/
inductive Item where
  | char (c : Char) (plain : c ≠ '%' ∧ c ≠ '\x00')
  | padded (left : Bool) (width : Nat) (conv : Conversion) (aligned : left = true → 0 < width)
  | pointer (p : BitVec 64)

/-- The digits of a width; zero stands for none. -/
def widthText (width : Nat) : CString :=
  if width = 0 then [] else Nat.toDigits 10 width

namespace Item

/-- The piece as it stands in the format. -/
def spelled : Item → CString
  | .char c _ => [c]
  | .padded left width conv _ =>
    '%' :: ((if left then ['-'] else []) ++ (widthText width ++
      (List.replicate conv.longs 'l' ++ [conv.letter])))
  | .pointer _ => ['%', 'p']

/-- The argument it takes. -/
def args : Item → List Arg
  | .char _ _ => []
  | .padded _ _ conv _ => [conv.arg]
  | .pointer p => [.ptr p]

/-- What it stands for. -/
def formatted : Item → CString
  | .char c _ => [c]
  | .padded left width conv _ =>
    let padding := List.replicate (width - conv.text.length) ' '
    if left then conv.text ++ padding else padding ++ conv.text
  | .pointer p => if p = 0 then "(nil)".toList else '0' :: 'x' :: hexText p.toNat

/-- The condition: a text that is aligned to the left is no longer than the width, the width
fits into the counter, a pointer into 32 bits, and a number is not the smallest of 64 bits. -/
def Fits : Item → Prop
  | .char _ _ => True
  | .padded left width conv _ =>
    width < 2 ^ 32 ∧ (left = true → conv.text.length ≤ width) ∧
      conv ≠ .lli (BitVec.intMin 64)
  | .pointer p => p.toNat < 2 ^ 32

end Item

/-- The format. -/
def format (items : List Item) : CString :=
  items.flatMap Item.spelled

/-- The arguments. -/
def arguments (items : List Item) : List Arg :=
  items.flatMap Item.args

/-- What should be printed, however long it is. -/
def reference (items : List Item) : CString :=
  items.flatMap Item.formatted

/-- The buffer holds what should be printed, up to its size and terminated, and its length is
returned. -/
def Conforms (table : StrTable) (n : Nat) (items : List Item) : Prop :=
  strVsnprintf table n (format items) (arguments items) =
    some (if n = 0 then [] else (reference items).take (n - 1) ++ ['\x00'],
      (((reference items).take (n - 1)).length : Int))

/-- The pieces that are reached while there is room meet a condition. -/
def Reached (P : Item → Prop) (text : Item → CString) : Nat → List Item → Prop
  | _, [] => True
  | room, item :: items =>
    room = 0 ∨ P item ∧ Reached P text (room - (text item).length) items

/-! ## Reading a directive -/

theorem head_toDigits_ne_zero {w : Nat} (positive : 0 < w) :
    ∀ c ∈ (Nat.toDigits 10 w).head?, c ≠ '0' := by
  induction w using Nat.strong_induction_on with
  | _ w induction =>
      rw [Nat.toDigits_eq_if (by decide)]
      by_cases small : w < 10
      · rw [if_pos small]
        rintro c ⟨⟩
        have all : ∀ d < 10, 0 < d → Nat.digitChar d ≠ '0' := by decide
        exact all w small positive
      · rw [if_neg small, List.head?_append_of_ne_nil _ Nat.toDigits_ne_nil]
        exact induction (w / 10) (by omega) (by omega)

theorem readSpec_digits {ds : CString} (digits : ∀ d ∈ ds, strIsdigit d = true) (f : List Char)
    (spec : Spec) :
    readSpec (ds ++ f) 2 spec = readSpec f 2 { spec with
      padding := ds.foldl (fun padding c => (padding * 10 + (c.toNat - '0'.toNat)) % 2 ^ 32)
        spec.padding } := by
  induction ds generalizing spec with
  | nil => rfl
  | cons d ds induction =>
      have digit := digits d List.mem_cons_self
      rw [List.cons_append, readSpec, if_neg (by omega), if_neg (by omega), if_pos digit,
        induction fun d member => digits d (List.mem_cons_of_mem _ member), List.foldl_cons]

/-- The digits are read modulo the size of the counter. -/
theorem foldl_digits (ds : CString) {v : Nat} (bounded : v < 2 ^ 32) :
    ds.foldl (fun padding c => (padding * 10 + (c.toNat - '0'.toNat)) % 2 ^ 32) v =
      Nat.ofDigitChars 10 ds v % 2 ^ 32 := by
  have general : ∀ v w, v % 2 ^ 32 = w % 2 ^ 32 → v < 2 ^ 32 →
      ds.foldl (fun padding c => (padding * 10 + (c.toNat - '0'.toNat)) % 2 ^ 32) v =
        Nat.ofDigitChars 10 ds w % 2 ^ 32 := by
    induction ds with
    | nil =>
        intro v w same bounded
        rw [Nat.ofDigitChars_nil, ← same, Nat.mod_eq_of_lt bounded]
        rfl
    | cons c ds induction =>
        intro v w same bounded
        rw [List.foldl_cons, Nat.ofDigitChars_cons]
        generalize c.toNat - '0'.toNat = d
        exact induction _ _ (by omega) (by omega)
  exact general v v rfl bounded

theorem readSpec_letters (conv : Conversion) (f : List Char) (phase : Nat) (spec : Spec) :
    readSpec ((List.replicate conv.longs 'l' ++ [conv.letter]) ++ f) phase spec =
      some ({ spec with longlev := spec.longlev + conv.longs }, conv.letter, f) := by
  cases conv <;>
    simp [Conversion.longs, Conversion.letter, readSpec, strIsdigit, List.replicate]

/-- A directive is read as it was spelled, with its width modulo the size of the counter. -/
theorem readSpec_padded (left : Bool) (width : Nat) (conv : Conversion) (f : List Char) :
    readSpec (((if left then ['-'] else []) ++ (widthText width ++
        (List.replicate conv.longs 'l' ++ [conv.letter]))) ++ f) 0 ⟨false, 0, ' ', 0⟩ =
      some (⟨left, width % 2 ^ 32, ' ', conv.longs⟩, conv.letter, f) := by
  have sized : ∀ phase ≤ 1,
      readSpec ((widthText width ++ (List.replicate conv.longs 'l' ++ [conv.letter])) ++ f) phase
          ⟨left, 0, ' ', 0⟩ =
        some (⟨left, width % 2 ^ 32, ' ', conv.longs⟩, conv.letter, f) := by
    intro phase early
    rw [widthText]
    by_cases none : width = 0
    · rw [if_pos none, none, List.nil_append, readSpec_letters, Nat.zero_add]
      rfl
    · obtain ⟨d, ds, same, digit⟩ := @head_toDigits width
      have first : d ≠ '0' :=
        head_toDigits_ne_zero (Nat.pos_of_ne_zero none) d (by rw [same]; rfl)
      have notMinus : d ≠ '-' := by
        rintro rfl
        exact absurd digit (by decide)
      have digits : ∀ c ∈ ds, strIsdigit c = true := fun c member =>
        strIsdigit_of_mem_toDigits (same ▸ List.mem_cons_of_mem _ member)
      have value : Nat.ofDigitChars 10 (d :: ds) 0 = width := by
        rw [← same]
        exact Nat.ofDigitChars_ten_toDigits
      rw [if_neg none, same, List.append_assoc, List.cons_append, readSpec,
        if_neg fun minus => notMinus minus.2, if_neg fun zero => first zero.2, if_pos digit,
        readSpec_digits digits, readSpec_letters, Nat.zero_add]
      have read := foldl_digits (d :: ds) (by decide : 0 < 2 ^ 32)
      rw [value, List.foldl_cons] at read
      rw [read]
  cases left with
  | false => exact sized 0 (by decide)
  | true =>
      rw [if_pos rfl, List.append_assoc, List.singleton_append, readSpec, if_pos ⟨rfl, rfl⟩]
      exact sized 1 (by decide)

/-! ## The loop on a piece -/

variable {n : Nat} {out : CString} {items : List Item}

/-- What a piece adds to what is written. -/
def Item.write (n : Nat) (out : CString) : Item → CString
  | .char c _ => out ++ [c]
  | .padded left width conv _ => emit n left (width % 2 ^ 32) ' ' conv.printed out
  | .pointer p => (copyLoop n (strPtoa p) out 0).1

theorem convert_padded (table : StrTable) (left : Bool) (width : Nat) (conv : Conversion)
    (args : List Arg) (out : CString) :
    convert table n ⟨left, width % 2 ^ 32, ' ', conv.longs⟩ conv.letter (conv.arg :: args) out =
      some (emit n left (width % 2 ^ 32) ' ' conv.printed out, args, 0) := by
  cases conv <;> rfl

/-- One turn of the loop takes a piece. -/
theorem vsnprintfLoop_item (table : StrTable) (turns : Nat) (item : Item) (f : List Char)
    (args : List Arg) (room : out.length < n) :
    vsnprintfLoop table n (turns + 1) (item.spelled ++ f) (item.args ++ args) 0 out =
      vsnprintfLoop table n turns f args 0 (item.write n out) := by
  have goesOn : ∀ c : Char, c ≠ '\x00' → ¬ (c = '\x00' ∨ n ≤ out.length) := by
    rintro c more (ended | full)
    · exact more ended
    · omega
  cases item with
  | char c plain =>
      rw [Item.spelled, List.singleton_append, vsnprintfLoop, if_neg (goesOn c plain.2),
        if_neg plain.1]
      rfl
  | padded left width conv aligned =>
      rw [Item.spelled, List.cons_append, vsnprintfLoop, if_neg (goesOn '%' (by decide)),
        if_pos rfl, readSpec_padded]
      dsimp only
      rw [Item.args, List.singleton_append, convert_padded]
      rfl
  | pointer p =>
      rw [Item.spelled, List.cons_append, vsnprintfLoop, if_neg (goesOn '%' (by decide)),
        if_pos rfl]
      rfl

/-- What the loop writes, where each piece that is reached writes its text. -/
theorem vsnprintfLoop_eq (table : StrTable) {text : Item → CString} {turns : Nat}
    (enough : items.length < turns) (inside : out.length ≤ n)
    (reached : Reached (fun item => ∀ out : CString, out.length < n →
      item.write n out = (out ++ text item).take n) text (n - out.length) items) :
    vsnprintfLoop table n turns (format items ++ ['\x00']) (arguments items) 0 out =
      some ((out ++ items.flatMap text).take n) := by
  induction items generalizing turns out with
  | nil =>
      obtain ⟨turns, rfl⟩ := Nat.exists_eq_succ_of_ne_zero (Nat.ne_of_gt enough)
      rw [List.flatMap_nil, List.append_nil, List.take_of_length_le inside]
      rfl
  | cons item items induction =>
      obtain ⟨turns, rfl⟩ := Nat.exists_eq_succ_of_ne_zero (Nat.ne_of_gt (Nat.zero_lt_of_lt enough))
      have enough' : items.length < turns := Nat.lt_of_succ_lt_succ enough
      by_cases room : out.length < n
      · obtain ⟨writes, later⟩ := reached.resolve_left (by omega)
        have length : ((out ++ text item).take n).length ≤ n := by
          rw [List.length_take]
          exact Nat.min_le_left _ _
        have left : n - ((out ++ text item).take n).length =
            n - out.length - (text item).length := by
          rw [List.length_take, List.length_append]
          omega
        have next := @induction ((out ++ text item).take n) turns enough' length (left ▸ later)
        rw [format, arguments, List.flatMap_cons, List.flatMap_cons, List.append_assoc,
          vsnprintfLoop_item table turns item _ _ room, writes out room]
        rw [format, arguments] at next
        rw [next, take_take_append, List.append_assoc, List.flatMap_cons]
      · obtain ⟨c, f, same⟩ : ∃ c f, format (item :: items) ++ ['\x00'] = c :: f :=
          List.exists_cons_of_ne_nil (by simp)
        rw [same, vsnprintfLoop, if_pos (.inr (by omega)), take_append_of_full (by omega)]

/-- A format is no shorter than its number of pieces. -/
theorem length_le_format (items : List Item) : items.length ≤ (format items).length := by
  induction items with
  | nil => exact Nat.le_refl 0
  | cons item items induction =>
      have some : 0 < item.spelled.length := by
        cases item <;> exact Nat.succ_pos _
      rw [format, List.flatMap_cons, List.length_append, List.length_cons]
      rw [format] at induction
      omega

theorem strVsnprintf_eq (table : StrTable) {text : Item → CString} {n : Nat} (positive : n ≠ 0)
    (reached : Reached (fun item => ∀ out : CString, out.length < n - 1 →
      item.write (n - 1) out = (out ++ text item).take (n - 1)) text (n - 1) items) :
    strVsnprintf table n (format items) (arguments items) =
      some ((items.flatMap text).take (n - 1) ++ ['\x00'],
        (BitVec.ofNat 32 ((items.flatMap text).take (n - 1)).length).toInt) := by
  have loop := @vsnprintfLoop_eq (n - 1) [] items table text ((format items).length + 1)
    (Nat.lt_succ_of_le (length_le_format items)) (Nat.zero_le _) reached
  rw [strVsnprintf, if_neg positive, loop]
  rfl

/-! ## Pieces that meet the condition -/

theorem printed_eq {conv : Conversion} (other : conv ≠ .lli (BitVec.intMin 64)) :
    conv.printed = conv.text := by
  cases conv with
  | s arg => rfl
  | u arg => exact strLutoa_eq arg
  | i arg => exact strLtoa_eq arg
  | llu arg => exact strLlutoa_eq arg
  | lli arg => exact strLltoa_eq fun least => other (congrArg Conversion.lli least)

theorem length_printed (conv : Conversion) : conv.printed.length = conv.text.length := by
  cases conv with
  | lli arg => exact length_strLltoa arg
  | s | u | i | llu => rw [printed_eq Conversion.noConfusion]

theorem strPtoa_of_lt {p : BitVec 64} (small : p.toNat < 2 ^ 32) :
    strPtoa p = (Item.pointer p).formatted := by
  rw [Item.formatted]
  by_cases null : p = 0
  · rw [strPtoa, if_pos null, if_pos null]
  · have digits := @hexDigits_eq 8 p.toNat (Nat.lt_of_lt_of_le small (by decide)) (by decide)
    rw [strPtoa_eq null, if_neg null, digits, hexText]

/-- A piece that meets the condition writes what it stands for. -/
theorem write_of_fits {item : Item} (fits : item.Fits) (room : out.length < n) :
    item.write n out = (out ++ item.formatted).take n := by
  have inside := Nat.le_of_lt room
  cases item with
  | char c plain =>
      rw [Item.write, Item.formatted, List.take_of_length_le]
      rw [List.length_append, List.length_singleton]
      exact room
  | padded left width conv aligned =>
      obtain ⟨small, short, other⟩ := fits
      rw [Item.write, Item.formatted, Nat.mod_eq_of_lt small, printed_eq other]
      cases left with
      | false => exact emit_right inside width ' ' conv.text
      | true =>
          have shorter := short rfl
          rw [emit_left inside small ' ' (Nat.lt_of_le_of_lt shorter small), leftPadding,
            if_pos shorter]
          rfl
  | pointer p => rw [Item.write, copyLoop_eq inside, strPtoa_of_lt fits]

/-! ## What any piece writes -/

/-- The text that the code prints for a piece. -/
def Item.shown : Item → CString
  | .char c _ => [c]
  | .padded left width conv _ =>
    if left then
      conv.printed ++ List.replicate (leftPadding (width % 2 ^ 32) conv.printed.length) ' '
    else List.replicate (width % 2 ^ 32 - conv.printed.length) ' ' ++ conv.printed
  | .pointer p => strPtoa p

theorem length_formatted (left : Bool) (width : Nat) (conv : Conversion)
    (aligned : left = true → 0 < width) :
    (Item.padded left width conv aligned).formatted.length = max width conv.text.length := by
  rw [Item.formatted]
  cases left <;>
    simp only [Bool.false_eq_true, if_false, if_true, List.length_append, List.length_replicate] <;>
    omega

theorem write_eq_shown {item : Item} (short : item.formatted.length < 2 ^ 32)
    (room : out.length < n) : item.write n out = (out ++ item.shown).take n := by
  have inside := Nat.le_of_lt room
  cases item with
  | char c plain => exact write_of_fits trivial room
  | padded left width conv aligned =>
      rw [length_formatted, ← length_printed] at short
      cases left with
      | false => exact emit_right inside (width % 2 ^ 32) ' ' conv.printed
      | true =>
          exact emit_left inside (Nat.mod_lt _ (by decide)) ' ' (by omega)
  | pointer p => exact copyLoop_eq inside (strPtoa p) 0

theorem reached_of_forall {P : Item → Prop} {text : Item → CString}
    (always : ∀ item ∈ items, P item) (room : Nat) : Reached P text room items := by
  induction items generalizing room with
  | nil => trivial
  | cons item items induction =>
      refine .inr ⟨always item List.mem_cons_self, ?_⟩
      exact induction (fun other member => always other (List.mem_cons_of_mem _ member)) _

theorem Reached.mono {P Q : Item → Prop} {text : Item → CString} (weaker : ∀ item, P item → Q item)
    {room : Nat} (reached : Reached P text room items) : Reached Q text room items := by
  induction items generalizing room with
  | nil => trivial
  | cons item items induction =>
      rcases reached with none | ⟨holds, later⟩
      · exact .inl none
      · exact .inr ⟨weaker item holds, induction later⟩

/-! ## Comparing the texts -/

theorem length_text_le {text : Item → CString} {item : Item} (member : item ∈ items) :
    (text item).length ≤ (items.flatMap text).length := by
  obtain ⟨before, behind, rfl⟩ := List.append_of_mem member
  rw [List.flatMap_append, List.flatMap_cons, List.length_append, List.length_append]
  omega

/-- Texts of which none is longer than its counterpart are the same where they make up the
same. -/
theorem eq_of_flatMap_eq {text text' : Item → CString}
    (shorter : ∀ item ∈ items, (text item).length ≤ (text' item).length)
    (same : items.flatMap text = items.flatMap text') :
    ∀ item ∈ items, text item = text' item := by
  have total : ∀ items : List Item,
      (∀ item ∈ items, (text item).length ≤ (text' item).length) →
        (items.flatMap text).length ≤ (items.flatMap text').length := by
    intro items shorter
    induction items with
    | nil => exact Nat.le_refl 0
    | cons item items induction =>
        have first := shorter item List.mem_cons_self
        have rest := induction fun other member => shorter other (List.mem_cons_of_mem _ member)
        rw [List.flatMap_cons, List.flatMap_cons, List.length_append, List.length_append]
        omega
  induction items with
  | nil => exact fun item member => absurd member List.not_mem_nil
  | cons item items induction =>
      have later : ∀ other ∈ items, (text other).length ≤ (text' other).length :=
        fun other member => shorter other (List.mem_cons_of_mem _ member)
      have lengths := congrArg List.length same
      have first := shorter item List.mem_cons_self
      have rest := total items later
      rw [List.flatMap_cons, List.flatMap_cons] at same
      rw [List.flatMap_cons, List.flatMap_cons, List.length_append, List.length_append] at lengths
      obtain ⟨here, there⟩ := List.append_inj same (by omega)
      intro other member
      rcases List.mem_cons.mp member with rfl | member
      · exact here
      · exact induction later there other member

/-- A text that is aligned to the left and longer than its width is followed by more blanks
than any output has bytes. -/
theorem short_of_shown {width : Nat} {conv : Conversion} {aligned : true = true → 0 < width}
    (small : (Item.padded true width conv aligned).formatted.length < 2 ^ 31)
    (bounded : (Item.padded true width conv aligned).shown.length < 2 ^ 31) :
    conv.text.length ≤ width := by
  rw [length_formatted] at small
  rw [Item.shown, if_pos rfl, Nat.mod_eq_of_lt (by omega), List.length_append,
    List.length_replicate, length_printed, leftPadding] at bounded
  by_contra longer
  rw [if_neg longer] at bounded
  omega

theorem length_shown_le {item : Item} (small : item.formatted.length < 2 ^ 31)
    (bounded : item.shown.length < 2 ^ 31) : item.shown.length ≤ item.formatted.length := by
  cases item with
  | char c plain => exact Nat.le_refl 1
  | padded left width conv aligned =>
      rw [length_formatted]
      cases left with
      | false =>
          rw [Item.shown, if_neg (by decide), List.length_append, List.length_replicate,
            length_printed]
          have less := Nat.mod_le width (2 ^ 32)
          omega
      | true =>
          have short := short_of_shown small bounded
          rw [length_formatted] at small
          rw [Item.shown, if_pos rfl, Nat.mod_eq_of_lt (by omega), List.length_append,
            List.length_replicate, length_printed, leftPadding, if_pos short]
          omega
  | pointer p =>
      rw [Item.shown, Item.formatted]
      by_cases null : p = 0
      · rw [strPtoa, if_pos null, if_pos null]
      · rw [strPtoa_eq null, if_neg null, hexText]
        simp only [hexDigits, List.length_cons, List.length_append, List.length_nil,
          List.length_replicate]
        omega

/-- A piece that is printed as what it stands for meets the condition. -/
theorem fits_of_shown {item : Item} (small : item.formatted.length < 2 ^ 31)
    (same : item.shown = item.formatted) : item.Fits := by
  cases item with
  | char c plain => trivial
  | padded left width conv aligned =>
      have sized := small
      rw [length_formatted] at sized
      refine ⟨by omega, ?_, ?_⟩
      · rintro rfl
        exact short_of_shown small (same ▸ small)
      · rintro rfl
        have lengths := length_printed (.lli (BitVec.intMin 64))
        have differ : Conversion.printed (.lli (BitVec.intMin 64)) ≠
            Conversion.text (.lli (BitVec.intMin 64)) := by
          decide +kernel
        cases left with
        | false =>
            rw [Item.shown, Item.formatted, Nat.mod_eq_of_lt (by omega), lengths] at same
            exact differ (List.append_cancel_left same)
        | true =>
            rw [Item.shown, Item.formatted] at same
            exact differ (List.append_inj same lengths).1
  | pointer p =>
      rw [Item.shown, Item.formatted] at same
      by_cases null : p = 0
      · rw [null]
        exact (by decide : (0 : BitVec 64).toNat < 2 ^ 32)
      · rw [strPtoa_eq null, if_neg null, hexText] at same
        have lengths := congrArg List.length same
        simp only [hexDigits, List.length_cons, List.length_append, List.length_nil,
          List.length_replicate] at lengths
        exact (@Nat.length_toDigits_le_iff 16 p.toNat 8 (by decide) (by decide)).mp (by omega)

/-! ## Conformance -/

/-- At any size the output conforms where the pieces that are reached meet the condition, and
its length is an `int`. -/
theorem conforms_of_reached (table : StrTable) {n : Nat}
    (short : ((reference items).take (n - 1)).length < 2 ^ 31)
    (reached : Reached Item.Fits Item.formatted (n - 1) items) : Conforms table n items := by
  rw [Conforms]
  by_cases none : n = 0
  · rw [none]
    rfl
  · have written := strVsnprintf_eq table none
      (reached.mono fun item fits out room => write_of_fits fits room)
    rw [written, if_neg none]
    have returned : (BitVec.ofNat 32 ((reference items).take (n - 1)).length).toInt =
        ((reference items).take (n - 1)).length := by
      generalize ((reference items).take (n - 1)).length = length at short
      have value : (BitVec.ofNat 32 length).toNat = length := by
        rw [BitVec.toNat_ofNat]
        exact Nat.mod_eq_of_lt (by omega)
      rw [BitVec.toInt_eq_toNat_of_lt (by rw [value]; omega), value]
    exact congrArg (fun value => some (_, value)) returned

/-- An output that conforms has a length that is an `int`. -/
theorem length_of_conforms {table : StrTable} (conforms : Conforms table (2 ^ 31 + 1) items) :
    (reference items).length < 2 ^ 31 := by
  by_contra long
  have cut : ((reference items).take (2 ^ 31 + 1 - 1)).length = 2 ^ 31 := by
    rw [List.length_take]
    omega
  rw [Conforms, strVsnprintf, if_neg (by decide), if_neg (by decide)] at conforms
  obtain ⟨out, _, same⟩ := Option.map_eq_some_iff.mp conforms
  obtain ⟨stored, returned⟩ := Prod.mk.inj same
  rw [List.append_cancel_right stored, cut] at returned
  exact absurd returned (by decide)

/-- The output conforms at every size if and only if it is shorter than an `int` can tell and
every piece meets the condition.  At one size it is enough that those do which are reached. -/
theorem strVsnprintf_conforms_iff (table : StrTable) (items : List Item) :
    ((∀ n < 2 ^ 64, Conforms table n items) ↔
      (reference items).length < 2 ^ 31 ∧ ∀ item ∈ items, item.Fits) ∧
    ∀ n, ((reference items).take (n - 1)).length < 2 ^ 31 →
      Reached Item.Fits Item.formatted (n - 1) items → Conforms table n items := by
  refine ⟨⟨fun conforms => ?_, ?_⟩, fun n short reached => conforms_of_reached table short reached⟩
  · have short := length_of_conforms (conforms (2 ^ 31 + 1) (by decide))
    refine ⟨short, ?_⟩
    have sized : ∀ item ∈ items, item.formatted.length < 2 ^ 31 := fun item member =>
      Nat.lt_of_le_of_lt (@length_text_le items Item.formatted item member) short
    have written := @strVsnprintf_eq items table Item.shown (2 ^ 32) (by decide)
      (reached_of_forall (fun item member out room =>
        write_eq_shown (Nat.lt_trans (sized item member) (by decide)) room) _)
    have wanted := conforms (2 ^ 32) (by decide)
    rw [Conforms, written, if_neg (by decide)] at wanted
    have stored := List.append_cancel_right (Prod.mk.inj (Option.some_inj.mp wanted)).1
    have whole : (reference items).take (2 ^ 32 - 1) = reference items :=
      List.take_of_length_le (by omega)
    rw [whole] at stored
    have lengths := congrArg List.length stored
    rw [List.length_take] at lengths
    have same : items.flatMap Item.shown = reference items := by
      rwa [List.take_of_length_le (by omega)] at stored
    have bounded : ∀ item ∈ items, item.shown.length < 2 ^ 31 := by
      intro item member
      have part := @length_text_le items Item.shown item member
      rw [same] at part
      exact Nat.lt_of_le_of_lt part short
    have each := eq_of_flatMap_eq
      (fun item member => length_shown_le (sized item member) (bounded item member)) same
    exact fun item member => fits_of_shown (sized item member) (each item member)
  · rintro ⟨short, fits⟩ n _
    refine conforms_of_reached table ?_ (reached_of_forall fits _)
    rw [List.length_take]
    exact Nat.lt_of_le_of_lt (Nat.min_le_right _ _) short

/-- A string that is longer than its width and aligned to the left is padded up to the end of
the buffer. -/
theorem longer_fills_buffer : ¬ ∀ table n items, Conforms table n items := by
  intro always
  have conforms := always (fun _ => none) 5 [.padded true 1 (.s (some "ab".toList)) (by decide)]
  have filled : strVsnprintf (fun _ => none) 5
      (format [.padded true 1 (.s (some "ab".toList)) (by decide)])
      (arguments [.padded true 1 (.s (some "ab".toList)) (by decide)]) =
        some ("ab  ".toList ++ ['\x00'], 4) := by
    decide +kernel
  rw [Conforms, filled] at conforms
  exact absurd conforms (by decide +kernel)

end PrintFormat

end Chaosircd
