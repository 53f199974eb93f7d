import Chaosircd.LineParse

/-!
# Splitting a line in place

`str_tokenize` writes terminators over the blanks of a line and stores where the arguments
start in a vector that has one slot more than there may be arguments.  Read back from the
buffer, the arguments are the fields of the line: up to the next blank each, and from the
first that starts with a colon, or that is the last there is room for, all the rest.
-/

namespace Chaosircd

/-! ## The split of a line -/

/-- Where the fields of a line start: at bytes that are no blanks, behind a blank or at the
start of the line. -/
def fields : Bool → CString → List CString
  | _, [] => []
  | behindBlank, c :: line =>
    if strIsspace c then fields true line
    else if behindBlank then (c :: line) :: fields false line
    else fields false line

/-- The arguments that start at these fields. -/
def arguments : Nat → List CString → List CString
  | 0, _ => []
  | _, [] => []
  | maxtok + 1, field :: later =>
    if field.head? = some ':' then [restOfLine field.tail]
    else if maxtok = 0 then [restOfLine field]
    else field.takeWhile (fun c => !strIsspace c) :: arguments maxtok later

/-- The split of a line into no more than `maxtok` arguments. -/
def ircSplit (maxtok : Nat) (line : CString) : List CString :=
  arguments maxtok (fields true line)

/-! ## The vector -/

/-- The vector of `str_tokenize`, how many arguments are in it, and the slots that were
written. -/
structure Slots where
  v : Nat → Option Nat
  c : Nat
  stored : List Nat

/-- `v[c++] = a`. -/
def Slots.push (slots : Slots) (a : Nat) : Slots :=
  ⟨Function.update slots.v slots.c (some a), slots.c + 1, slots.c :: slots.stored⟩

/-- `v[c] = NULL`. -/
def Slots.close (slots : Slots) : Slots :=
  { slots with v := Function.update slots.v slots.c none, stored := slots.c :: slots.stored }

namespace LineScan

/-- The loop of `str_tokenize`, with the number of arguments that there is still room for. -/
def fillLoop : Nat → LineScan → Slots → LineScan × Slots
  | 0, scan, slots => ((scan.clear strIsspace).look, slots)
  | room + 1, scan, slots =>
      let scan := (scan.clear strIsspace).look
      if scan.char = '\x00' then (scan, slots)
      else if scan.char = ':' then (scan, slots.push (scan.s + 1))
      else if room = 0 then (scan, slots.push scan.s)
      else fillLoop room (scan.skip fun c => !strIsspace c) (slots.push scan.s)

/-- `str_tokenize(s, v, maxtok)`. -/
def strTokenizeInto (maxtok : Nat) (scan : LineScan) (v : Nat → Option Nat) :
    LineScan × Slots :=
  let result := fillLoop maxtok scan ⟨v, 0, []⟩
  let scan := result.1.look
  (if result.2.c = maxtok ∨ scan.char = ':' then scan.endLast else scan, result.2.close)

/-- What `str_tokenize` leaves behind for a line of this length: the arguments can be read
back at the slots, a null pointer follows them, and nothing else was touched. -/
structure Splits (maxtok length : Nat) (v : Nat → Option Nat) (before : List Char)
    (arguments : List CString) (result : LineScan × Slots) : Prop where
  count : result.2.c = arguments.length
  count_le : result.2.c ≤ maxtok
  read : ∀ i argument, arguments[i]? = some argument →
    ∃ a, result.2.v i = some a ∧ beforeNul (result.1.bytes.drop a) = argument
  null : result.2.v result.2.c = none
  touched : ∀ i ∈ result.1.touched, 0 ≤ i ∧ i ≤ length
  stored : ∀ i ∈ result.2.stored, i ≤ maxtok
  others : ∀ i, result.2.c < i → result.2.v i = v i
  behind : result.1.bytes.drop length = before.drop length

end LineScan

/-! ## Fields -/

theorem fields_word (line : CString) :
    fields false line = fields true (line.dropWhile fun c => !strIsspace c) := by
  induction line with
  | nil => rfl
  | cons c line induction =>
      rw [fields, List.dropWhile_cons]
      by_cases blank : strIsspace c = true
      · simp [blank, fields]
      · simp [blank, induction]

theorem fields_blanks (line : CString) :
    fields true line = fields true (line.dropWhile strIsspace) := by
  induction line with
  | nil => rfl
  | cons c line induction =>
      by_cases blank : strIsspace c = true
      · rw [fields, if_pos blank, List.dropWhile_cons_of_pos blank, induction]
      · rw [List.dropWhile_cons_of_neg blank]

/-- The splitter without a buffer takes the fields. -/
theorem strTokenize_eq_ircSplit (maxtok : Nat) (line : CString) :
    strTokenize maxtok line = ircSplit maxtok line := by
  induction maxtok generalizing line with
  | zero => rfl
  | succ maxtok induction =>
      rw [strTokenize, ircSplit, fields_blanks]
      cases start : line.dropWhile strIsspace with
      | nil => rfl
      | cons c rest =>
          have notBlank : strIsspace c = false := by
            have some : line.dropWhile strIsspace ≠ [] := start ▸ List.cons_ne_nil c rest
            simpa [start] using List.head_dropWhile_not strIsspace some
          rw [fields, if_neg (by simp [notBlank]), if_pos rfl, arguments, fields_word]
          by_cases colon : c = ':'
          · subst colon
            rfl
          · have other : ¬ (c :: rest).head? = some ':' := by simpa using colon
            rw [if_neg other]
            simp only [induction, ircSplit, List.dropWhile_cons, notBlank, Bool.not_false,
              if_true]

namespace LineScan

/-! ## The pointer over a line -/

/-- The pointer stands before the text, and the line ends behind it. -/
structure Laid (done text behind : List Char) (scan : LineScan) : Prop where
  bytes : scan.bytes = done ++ text ++ '\x00' :: behind
  s : scan.s = done.length

variable {done text behind : List Char} {scan : LineScan}

theorem Laid.char_nil (laid : Laid done [] behind scan) : scan.char = '\x00' := by
  rw [char, byteAt, laid.bytes, laid.s]
  simp

theorem Laid.char_cons {c : Char} (laid : Laid done (c :: text) behind scan) :
    scan.char = c := by
  rw [char, byteAt, laid.bytes, laid.s]
  simp

theorem Laid.look (laid : Laid done text behind scan) : Laid done text behind scan.look :=
  ⟨laid.bytes, laid.s⟩

theorem Laid.skipOne {c : Char} (laid : Laid done (c :: text) behind scan) :
    Laid (done ++ [c]) text behind scan.look.next := by
  constructor
  · rw [next, LineScan.look, laid.bytes]
    simp
  · rw [next, LineScan.look, laid.s]
    simp

theorem Laid.clearOne {c : Char} (laid : Laid done (c :: text) behind scan) :
    Laid (done ++ ['\x00']) text behind scan.look.zero.next := by
  constructor
  · rw [next, zero, LineScan.look, laid.bytes, laid.s]
    simp
  · rw [next, zero, LineScan.look, laid.s]
    simp

theorem Laid.skipLoop {rounds : Nat} (laid : Laid done text behind scan)
    (noNul : '\x00' ∉ text) (p : Char → Bool) (enough : text.length < rounds) :
    Laid (done ++ text.takeWhile p) (text.dropWhile p) behind (skipLoop p rounds scan) := by
  induction text generalizing done scan rounds with
  | nil =>
      obtain ⟨rounds, rfl⟩ : ∃ more, rounds = more + 1 := ⟨rounds - 1, by omega⟩
      rw [LineScan.skipLoop, if_neg fun goes => goes.1 laid.char_nil]
      simpa using laid.look
  | cons c text induction =>
      obtain ⟨rounds, rfl⟩ : ∃ more, rounds = more + 1 := ⟨rounds - 1, by omega⟩
      have more : c ≠ '\x00' := fun isNul => noNul (by simp [isNul])
      rw [LineScan.skipLoop, laid.char_cons]
      by_cases skipped : p c = true
      · rw [if_pos ⟨more, skipped⟩, List.takeWhile_cons_of_pos skipped,
          List.dropWhile_cons_of_pos skipped]
        rw [List.length_cons] at enough
        have rest := induction laid.skipOne (fun member => noNul (by simp [member]))
          (Nat.lt_of_succ_lt_succ enough)
        simpa using rest
      · rw [if_neg fun goes => skipped goes.2, List.takeWhile_cons_of_neg skipped,
          List.dropWhile_cons_of_neg skipped, List.append_nil]
        exact laid.look

theorem Laid.clearLoop {rounds : Nat} (laid : Laid done text behind scan)
    (noNul : '\x00' ∉ text) (p : Char → Bool) (enough : text.length < rounds) :
    Laid (done ++ List.replicate (text.takeWhile p).length '\x00') (text.dropWhile p) behind
      (clearLoop p rounds scan) := by
  induction text generalizing done scan rounds with
  | nil =>
      obtain ⟨rounds, rfl⟩ : ∃ more, rounds = more + 1 := ⟨rounds - 1, by omega⟩
      rw [LineScan.clearLoop, if_neg fun goes => goes.1 laid.char_nil]
      simpa using laid.look
  | cons c text induction =>
      obtain ⟨rounds, rfl⟩ : ∃ more, rounds = more + 1 := ⟨rounds - 1, by omega⟩
      have more : c ≠ '\x00' := fun isNul => noNul (by simp [isNul])
      rw [LineScan.clearLoop, laid.char_cons]
      by_cases skipped : p c = true
      · rw [if_pos ⟨more, skipped⟩, List.takeWhile_cons_of_pos skipped,
          List.dropWhile_cons_of_pos skipped]
        rw [List.length_cons] at enough
        have rest := induction laid.clearOne (fun member => noNul (by simp [member]))
          (Nat.lt_of_succ_lt_succ enough)
        simpa [List.replicate_succ] using rest
      · rw [if_neg fun goes => skipped goes.2, List.takeWhile_cons_of_neg skipped,
          List.dropWhile_cons_of_neg skipped, List.length_nil, List.replicate_zero,
          List.append_nil]
        exact laid.look

theorem Laid.enough (laid : Laid done text behind scan) :
    text.length < scan.bytes.length + 1 := by
  rw [laid.bytes]
  simp only [List.length_append, List.length_cons]
  omega

theorem Laid.skip (laid : Laid done text behind scan) (noNul : '\x00' ∉ text)
    (p : Char → Bool) :
    Laid (done ++ text.takeWhile p) (text.dropWhile p) behind (scan.skip p) :=
  laid.skipLoop noNul p laid.enough

theorem Laid.argStart (laid : Laid done text behind scan) (noNul : '\x00' ∉ text) :
    Laid (done ++ List.replicate (text.takeWhile strIsspace).length '\x00')
      (text.dropWhile strIsspace) behind scan.argStart :=
  (laid.clearLoop noNul strIsspace laid.enough).look

/-! ## The end of the last argument -/

theorem set_laid {i : Nat} (bound : i ≤ text.length) :
    (done ++ text ++ '\x00' :: behind).set (done.length + i) '\x00' =
      done ++ text.set i '\x00' ++ '\x00' :: behind := by
  rw [List.append_assoc, List.set_append_right _ _ (Nat.le_add_right _ _),
    Nat.add_sub_cancel_left, List.append_assoc]
  congr 1
  by_cases inside : i < text.length
  · rw [List.set_append_left _ _ inside]
  · have same : i = text.length := by omega
    rw [same, List.set_append_right _ _ (Nat.le_refl _), Nat.sub_self, List.set_cons_zero,
      List.set_eq_of_length_le (Nat.le_refl _)]

/-- The walk back from the end of some text stops behind its last byte that is no blank. -/
theorem backOver_eq {c : Char} (starts : isTrailing c = false) (done text more : List Char) :
    (backOver (done ++ (c :: text) ++ more) (done.length + (c :: text).length)).1 =
      done.length + ((c :: text).rdropWhile isTrailing).length := by
  induction text using List.reverseRecOn generalizing more with
  | nil =>
      have byte : byteAt (done ++ [c] ++ more) done.length = c := by
        simp [byteAt]
      rw [List.length_singleton, backOver, byte, starts, if_neg Bool.false_ne_true,
        List.rdropWhile_singleton, starts, if_neg Bool.false_ne_true]
      rfl
  | append_singleton text last induction =>
      have byte : byteAt (done ++ (c :: (text ++ [last])) ++ more)
          (done.length + (c :: text).length) = last := by
        simp [byteAt]
      rw [← List.cons_append, List.length_append, List.length_singleton, ← Nat.add_assoc,
        backOver, List.cons_append, byte, ← List.cons_append]
      by_cases blank : isTrailing last = true
      · rw [if_pos blank, List.rdropWhile_concat_pos _ _ _ blank, ← induction (last :: more)]
        simp
      · rw [if_neg blank, List.rdropWhile_concat_neg _ _ _ blank]
        simp [Nat.add_assoc]

theorem rdropWhile_cons_of_neg {p : Char → Bool} {c : Char} (stays : p c = false)
    (text : List Char) :
    (c :: text).rdropWhile p = c :: text.rdropWhile p := by
  induction text using List.reverseRecOn with
  | nil =>
      rw [List.rdropWhile_singleton, stays, if_neg Bool.false_ne_true, List.rdropWhile_nil]
  | append_singleton text last induction =>
      rw [← List.cons_append]
      by_cases dropped : p last = true
      · rw [List.rdropWhile_concat_pos _ _ _ dropped, List.rdropWhile_concat_pos _ _ _ dropped,
          induction]
      · rw [List.rdropWhile_concat_neg _ _ _ dropped, List.rdropWhile_concat_neg _ _ _ dropped,
          List.cons_append]

theorem set_first_split (kept trailing behind : List Char) :
    ∃ more, (kept ++ trailing).set kept.length '\x00' ++ '\x00' :: behind =
      kept ++ '\x00' :: more := by
  cases trailing with
  | nil =>
      refine ⟨behind, ?_⟩
      rw [List.append_nil, List.set_eq_of_length_le (Nat.le_refl _)]
  | cons c trailing =>
      refine ⟨trailing ++ '\x00' :: behind, ?_⟩
      rw [List.set_append_right _ _ (Nat.le_refl _), Nat.sub_self, List.set_cons_zero]
      simp

/-- A byte that does not end the line. -/
def isText (c : Char) : Bool :=
  c ≠ '\r' ∧ c ≠ '\n'

theorem restOfLine_eq (s : CString) :
    restOfLine s = (s.takeWhile isText).rdropWhile isTrailing :=
  rfl

/-- Where the last argument starts, the rest of the line can be read. -/
theorem Laid.endLast {c : Char} (laid : Laid done (c :: text) behind scan)
    (noNul : '\x00' ∉ c :: text) (starts : strIsspace c = false) :
    ∃ after, after.length = (c :: text).length ∧
      scan.endLast.bytes = done ++ after ++ '\x00' :: behind ∧
      ∃ more, after ++ '\x00' :: behind = restOfLine (c :: text) ++ '\x00' :: more := by
  have notBlank : isTrailing c = false ∧ c ≠ '\r' ∧ c ≠ '\n' := by
    simp only [strIsspace, Bool.or_eq_false_iff, beq_eq_false_iff_ne] at starts
    simp [isTrailing, starts]
  have goes : isText c = true := decide_eq_true notBlank.2
  have reached := laid.skip noNul isText
  rw [List.takeWhile_cons_of_pos goes, List.dropWhile_cons_of_pos goes] at reached
  have whole := @List.takeWhile_append_dropWhile _ isText text
  have ended : scan.endLast =
      (if (scan.skip isText).char = '\x00' then scan.skip isText
        else (scan.skip isText).zero).back.zero := rfl
  rw [ended, restOfLine_eq, List.takeWhile_cons_of_pos goes]
  generalize scan.skip isText = stop at reached ⊢
  generalize text.takeWhile isText = body at reached whole ⊢
  generalize text.dropWhile isText = rest at reached whole
  subst whole
  -- a line end under the pointer is overwritten, the end of the line stays as it is
  have cut : ∃ cut, (if stop.char = '\x00' then stop else stop.zero) = cut ∧
      cut.bytes = done ++ (c :: body) ++ (rest.set 0 '\x00' ++ '\x00' :: behind) ∧
      cut.s = done.length + (c :: body).length := by
    refine ⟨_, rfl, ?_⟩
    have place : stop.s = done.length + (c :: body).length := by
      rw [reached.s, List.length_append]
    cases rest with
    | nil =>
        rw [if_pos reached.char_nil]
        refine ⟨?_, place⟩
        rw [reached.bytes]
        simp
    | cons d rest =>
        have more : stop.char ≠ '\x00' := by
          rw [reached.char_cons]
          intro isNul
          exact noNul (by simp [isNul])
        rw [if_neg more]
        refine ⟨?_, place⟩
        rw [zero, reached.bytes, reached.s]
        simp
  obtain ⟨cut, made, bytes, place⟩ := cut
  rw [made]
  have back := backOver_eq notBlank.1 done body (rest.set 0 '\x00' ++ '\x00' :: behind)
  obtain ⟨trailing, split⟩ := List.rdropWhile_prefix isTrailing (c :: body)
  refine ⟨((c :: body) ++ rest.set 0 '\x00').set
    ((c :: body).rdropWhile isTrailing).length '\x00', ?_, ?_, ?_⟩
  · simp
  · rw [zero, LineScan.back, bytes, place, back]
    rw [← List.append_assoc, List.append_assoc done]
    apply set_laid
    rw [List.length_append]
    exact Nat.le_add_right_of_le (List.rdropWhile_prefix isTrailing _).length_le
  · have parts : (c :: body) ++ rest.set 0 '\x00' =
        (c :: body).rdropWhile isTrailing ++ (trailing ++ rest.set 0 '\x00') := by
      rw [← List.append_assoc, split]
    rw [parts]
    exact set_first_split _ _ _

/-! ## The arguments of a line -/

theorem strTokenize_ended (room : Nat) (ended : scan.argStart.char = '\x00') :
    scan.strTokenize (room + 1) = (scan.argStart.look, []) := by
  have loop : tokenizeLoop (room + 1) scan = (scan.argStart, []) := by
    rw [tokenizeLoop]
    exact if_pos ended
  have goes : ¬ (([] : List Nat).length = room + 1 ∨ scan.argStart.look.char = ':') := by
    rintro (full | colon)
    · cases full
    · exact absurd (ended.symm.trans colon) (by decide)
  rw [LineScan.strTokenize, loop]
  exact congrArg (·, []) (if_neg goes)

theorem strTokenize_last (room : Nat) (more : scan.argStart.char ≠ '\x00') {a : Nat}
    (last : scan.argStart.char = ':' ∧ a = scan.argStart.s + 1 ∨
      scan.argStart.char ≠ ':' ∧ room = 0 ∧ a = scan.argStart.s) :
    scan.strTokenize (room + 1) = (scan.argStart.look.endLast, [a]) := by
  have loop : tokenizeLoop (room + 1) scan = (scan.argStart, [a]) := by
    rw [tokenizeLoop]
    rcases last with ⟨colon, rfl⟩ | ⟨other, full, rfl⟩
    · exact (if_neg more).trans (if_pos colon)
    · exact ((if_neg more).trans (if_neg other)).trans (if_pos full)
  have stops : [a].length = room + 1 ∨ scan.argStart.look.char = ':' := by
    rcases last with ⟨colon, _⟩ | ⟨_, full, _⟩
    · exact .inr colon
    · exact .inl (by rw [full]; rfl)
  rw [LineScan.strTokenize, loop]
  exact congrArg (·, [a]) (if_pos stops)

theorem strTokenize_word (room : Nat) (more : scan.argStart.char ≠ '\x00')
    (other : scan.argStart.char ≠ ':') :
    scan.strTokenize (room + 2) =
      (((scan.argStart.skip fun c => !strIsspace c).strTokenize (room + 1)).1,
        scan.argStart.s ::
          ((scan.argStart.skip fun c => !strIsspace c).strTokenize (room + 1)).2) := by
  have loop : tokenizeLoop (room + 2) scan =
      ((tokenizeLoop (room + 1) (scan.argStart.skip fun c => !strIsspace c)).1,
        scan.argStart.s ::
          (tokenizeLoop (room + 1) (scan.argStart.skip fun c => !strIsspace c)).2) := by
    rw [tokenizeLoop]
    exact ((if_neg more).trans (if_neg other)).trans (if_neg (Nat.succ_ne_zero room))
  rw [LineScan.strTokenize, LineScan.strTokenize, loop]
  simp only [List.length_cons, Nat.add_right_cancel_iff]

/-- What is read back at an argument. -/
def readBack (bytes : List Char) (a : Nat) : CString :=
  beforeNul (bytes.drop a)

theorem readBack_append {word more : List Char} (noNul : '\x00' ∉ word) (done : List Char) :
    readBack (done ++ (word ++ '\x00' :: more)) done.length = word := by
  rw [readBack, List.drop_left, beforeNul_append_nul noNul]

theorem nul_not_mem_restOfLine {line : CString} (noNul : '\x00' ∉ line) :
    '\x00' ∉ restOfLine line := by
  intro member
  rw [restOfLine_eq] at member
  have inText := (List.rdropWhile_prefix isTrailing _).subset member
  exact noNul ((List.takeWhile_sublist _).subset inText)

theorem restOfLine_colon (line : CString) : restOfLine (':' :: line) = ':' :: restOfLine line := by
  rw [restOfLine_eq, restOfLine_eq, List.takeWhile_cons_of_pos (by decide),
    rdropWhile_cons_of_neg (by decide)]

/-- A text that the pointer stands before is split: the text is left with a terminator first
if it started with a blank, and the arguments are those of the text. -/
structure SplitsText (room : Nat) (done text behind : List Char)
    (result : LineScan × List Nat) : Prop where
  bytes : ∃ after, after.length = text.length ∧
    result.1.bytes = done ++ after ++ '\x00' :: behind ∧
    ((∀ c ∈ text.head?, strIsspace c = true) →
      ∃ more, after ++ '\x00' :: behind = '\x00' :: more)
  read : result.2.map (readBack result.1.bytes) = Chaosircd.strTokenize room text

/-- The blanks before the first argument have become terminators. -/
theorem cleared_starts {after : List Char}
    (same : after.length = (text.dropWhile strIsspace).length)
    (blank : ∀ c ∈ text.head?, strIsspace c = true) :
    ∃ more, List.replicate (text.takeWhile strIsspace).length '\x00' ++ after ++
      '\x00' :: behind = '\x00' :: more := by
  cases text with
  | nil =>
      rw [List.length_eq_zero_iff.mp same]
      exact ⟨behind, rfl⟩
  | cons c text =>
      rw [List.takeWhile_cons_of_pos (blank c rfl), List.length_cons, List.replicate_succ]
      exact ⟨_, rfl⟩

theorem cleared_length (text after : List Char)
    (same : after.length = (text.dropWhile strIsspace).length) :
    (List.replicate (text.takeWhile strIsspace).length '\x00' ++ after).length =
      text.length := by
  have whole := congrArg List.length (@List.takeWhile_append_dropWhile _ strIsspace text)
  rw [List.length_append] at whole
  rw [List.length_append, List.length_replicate, same, whole]

theorem Laid.splits_ended (room : Nat) (laid : Laid done text behind scan)
    (noNul : '\x00' ∉ text) (ended : text.dropWhile strIsspace = []) :
    SplitsText (room + 1) done text behind (scan.strTokenize (room + 1)) := by
  have start := laid.argStart noNul
  rw [ended] at start
  rw [strTokenize_ended room start.char_nil]
  have none : ([] : List Char).length = (text.dropWhile strIsspace).length := by rw [ended]
  constructor
  · refine ⟨_, cleared_length text [] none, ?_, fun blank => cleared_starts none blank⟩
    rw [List.append_nil]
    simpa using start.look.bytes
  · rw [Chaosircd.strTokenize, ended]
    rfl

theorem Laid.splits_last (room : Nat) (laid : Laid done text behind scan)
    (noNul : '\x00' ∉ text) {c : Char} {rest : CString}
    (more : text.dropWhile strIsspace = c :: rest) (last : c = ':' ∨ room = 0) :
    SplitsText (room + 1) done text behind (scan.strTokenize (room + 1)) := by
  have start := laid.argStart noNul
  have some : text.dropWhile strIsspace ≠ [] := more ▸ List.cons_ne_nil c rest
  have notBlank : strIsspace c = false := by
    simpa [more] using List.head_dropWhile_not strIsspace some
  have noNul' : '\x00' ∉ c :: rest :=
    fun member => noNul ((List.dropWhile_sublist strIsspace).subset (more ▸ member))
  have isByte : c ≠ '\x00' := fun isNul => noNul' (by simp [isNul])
  rw [more] at start
  obtain ⟨after, length, bytes, terminated, reads⟩ := start.look.endLast noNul' notBlank
  have some_left : scan.argStart.char ≠ '\x00' := start.char_cons ▸ isByte
  have same : after.length = (text.dropWhile strIsspace).length := by rw [more, length]
  have placed : scan.argStart.look.endLast.bytes =
      done ++ List.replicate (text.takeWhile strIsspace).length '\x00' ++
        (restOfLine (c :: rest) ++ '\x00' :: terminated) := by
    rw [bytes, List.append_assoc, reads]
  have left : ∃ left, left.length = text.length ∧
      scan.argStart.look.endLast.bytes = done ++ left ++ '\x00' :: behind ∧
      ((∀ c ∈ text.head?, strIsspace c = true) →
        ∃ more, left ++ '\x00' :: behind = '\x00' :: more) := by
    refine ⟨_, cleared_length text after same, ?_, fun blank => cleared_starts same blank⟩
    rw [bytes]
    simp
  by_cases colon : c = ':'
  · subst colon
    rw [strTokenize_last room some_left (.inl ⟨start.char_cons, rfl⟩)]
    refine ⟨left, ?_⟩
    rw [restOfLine_colon] at placed
    have noNulRest : '\x00' ∉ rest := fun member => noNul' (List.mem_cons_of_mem _ member)
    have read := @readBack_append _ terminated (nul_not_mem_restOfLine noNulRest)
      (done ++ List.replicate (text.takeWhile strIsspace).length '\x00' ++ [':'])
    rw [Chaosircd.strTokenize, more, List.map_singleton, placed, start.s]
    simpa [Nat.add_assoc] using read
  · have full := last.resolve_left colon
    subst full
    have other : scan.argStart.char ≠ ':' := start.char_cons ▸ colon
    rw [strTokenize_last 0 some_left (.inr ⟨other, rfl, rfl⟩)]
    refine ⟨left, ?_⟩
    have read := @readBack_append _ terminated (nul_not_mem_restOfLine noNul')
      (done ++ List.replicate (text.takeWhile strIsspace).length '\x00')
    rw [Chaosircd.strTokenize, more, List.map_singleton, placed, start.s]
    simpa [colon] using read

/-- A word that is not the last argument ends where the next round clears the blanks. -/
theorem Laid.splits_word (room : Nat) (laid : Laid done text behind scan)
    (noNul : '\x00' ∉ text) {c : Char} {rest : CString}
    (found : text.dropWhile strIsspace = c :: rest) (other : c ≠ ':')
    (splits : ∀ {done text : List Char} {scan : LineScan}, Laid done text behind scan →
      '\x00' ∉ text → SplitsText (room + 1) done text behind (scan.strTokenize (room + 1))) :
    SplitsText (room + 2) done text behind (scan.strTokenize (room + 2)) := by
  have start := laid.argStart noNul
  have noNul' : '\x00' ∉ c :: rest :=
    fun member => noNul ((List.dropWhile_sublist strIsspace).subset (found ▸ member))
  have isByte : c ≠ '\x00' := fun isNul => noNul' (by simp [isNul])
  rw [found] at start
  have skipped := start.skip noNul' fun c => !strIsspace c
  have noWordNul : '\x00' ∉ (c :: rest).takeWhile fun c => !strIsspace c :=
    fun member => noNul' ((List.takeWhile_sublist _).subset member)
  have whole := @List.takeWhile_append_dropWhile _ (fun c => !strIsspace c) (c :: rest)
  have blank : ∀ d ∈ ((c :: rest).dropWhile fun c => !strIsspace c).head?,
      strIsspace d = true := by
    intro d isHead
    have stops := List.head?_dropWhile_not (fun c => !strIsspace c) (c :: rest)
    rw [Option.mem_def.mp isHead] at stops
    simpa using stops
  obtain ⟨⟨after, length, bytes, terminated⟩, read⟩ := splits skipped
    fun member => noNul' ((List.dropWhile_sublist _).subset member)
  obtain ⟨more, terminated⟩ := terminated blank
  rw [strTokenize_word room (start.char_cons ▸ isByte) (start.char_cons ▸ other)]
  have same : ((c :: rest).takeWhile (fun c => !strIsspace c) ++ after).length =
      (text.dropWhile strIsspace).length := by
    rw [found, List.length_append, length, ← List.length_append, whole]
  constructor
  · refine ⟨_, cleared_length text _ same, ?_, fun blank => cleared_starts same blank⟩
    rw [bytes]
    simp
  · rw [Chaosircd.strTokenize, found, List.map_cons, read]
    have first := @readBack_append _ more noWordNul
      (done ++ List.replicate (text.takeWhile strIsspace).length '\x00')
    rw [← terminated] at first
    rw [start.s, bytes]
    simpa [other] using first

theorem Laid.splits (room : Nat) (laid : Laid done text behind scan)
    (noNul : '\x00' ∉ text) :
    SplitsText (room + 1) done text behind (scan.strTokenize (room + 1)) := by
  induction room generalizing done text scan with
  | zero =>
      cases found : text.dropWhile strIsspace with
      | nil => exact laid.splits_ended 0 noNul found
      | cons c rest => exact laid.splits_last 0 noNul found (.inr rfl)
  | succ room induction =>
      cases found : text.dropWhile strIsspace with
      | nil => exact laid.splits_ended (room + 1) noNul found
      | cons c rest =>
          by_cases colon : c = ':'
          · exact laid.splits_last (room + 1) noNul found (.inl colon)
          · exact laid.splits_word room noNul found colon induction

/-! ## What is in the vector -/

variable {slots : Slots}

theorem fillLoop_eq (room : Nat) (scan : LineScan) (slots : Slots) :
    fillLoop room scan slots =
      ((tokenizeLoop room scan).1, (tokenizeLoop room scan).2.foldl Slots.push slots) := by
  induction room generalizing scan slots with
  | zero => rfl
  | succ room induction =>
      rw [fillLoop, tokenizeLoop]
      dsimp only
      split
      · rfl
      · split
        · rfl
        · split
          · rfl
          · rw [induction]
            rfl

/-- What a number of arguments does to the vector. -/
structure Pushed (before : Slots) (starts : List Nat) (after : Slots) : Prop where
  c : after.c = before.c + starts.length
  new : ∀ i a, starts[i]? = some a → after.v (before.c + i) = some a
  old : ∀ i, i < before.c ∨ after.c ≤ i → after.v i = before.v i
  stored : ∀ i ∈ after.stored, i ∈ before.stored ∨ i < after.c

theorem pushed_foldl (slots : Slots) (starts : List Nat) :
    Pushed slots starts (starts.foldl Slots.push slots) := by
  induction starts generalizing slots with
  | nil =>
      exact ⟨rfl, fun i a found => by simp at found, fun i _ => rfl, fun i member => .inl member⟩
  | cons start starts induction =>
      obtain ⟨c, new, old, stored⟩ := induction (slots.push start)
      have count : (slots.push start).c = slots.c + 1 := rfl
      rw [List.foldl_cons]
      constructor
      · rw [c, count, List.length_cons]
        omega
      · intro i a found
        cases i with
        | zero =>
            have isStart : start = a := by simpa using found
            rw [Nat.add_zero, old slots.c (.inl (Nat.lt_succ_self _)), Slots.push, ← isStart]
            exact Function.update_self _ _ _
        | succ i =>
            have later := new i a (by simpa using found)
            rw [count, Nat.add_assoc, Nat.add_comm 1 i] at later
            exact later
      · intro i outside
        rw [old i (by omega), Slots.push]
        exact Function.update_of_ne (by omega) _ _
      · intro i member
        rcases stored i member with before | inside
        · rcases List.mem_cons.mp before with rfl | before
          · exact .inr (by omega)
          · exact .inl before
        · exact .inr inside

theorem strTokenizeInto_eq (maxtok : Nat) (scan : LineScan) (v : Nat → Option Nat) :
    scan.strTokenizeInto maxtok v = ((scan.strTokenize maxtok).1,
      ((scan.strTokenize maxtok).2.foldl Slots.push ⟨v, 0, []⟩).close) := by
  rw [strTokenizeInto, fillLoop_eq, LineScan.strTokenize]
  dsimp only
  rw [(pushed_foldl ⟨v, 0, []⟩ (tokenizeLoop maxtok scan).2).c]
  simp only [Nat.zero_add]

theorem length_strTokenize_le (maxtok : Nat) (line : CString) :
    (Chaosircd.strTokenize maxtok line).length ≤ maxtok := by
  induction maxtok generalizing line with
  | zero => exact Nat.le_refl _
  | succ maxtok induction =>
      rw [Chaosircd.strTokenize]
      split
      · exact Nat.zero_le _
      · exact Nat.succ_le_succ (Nat.zero_le _)
      · split
        · exact Nat.succ_le_succ (Nat.zero_le _)
        · exact Nat.succ_le_succ (induction _)

/-- A line that ends before other bytes is split into its arguments, which a null pointer
follows in the vector; nothing but the line and the slots of the vector is touched. -/
theorem strTokenizeInto_splits (maxtok : Nat) (some : 1 ≤ maxtok) (line behind : List Char)
    (noNul : '\x00' ∉ line) (v : Nat → Option Nat) :
    Splits maxtok line.length v (line ++ '\x00' :: behind) (ircSplit maxtok line)
      (strTokenizeInto maxtok ⟨line ++ '\x00' :: behind, 0, []⟩ v) := by
  obtain ⟨room, rfl⟩ : ∃ room, maxtok = room + 1 := ⟨maxtok - 1, by omega⟩
  have laid : Laid [] line behind ⟨line ++ '\x00' :: behind, 0, []⟩ := ⟨rfl, rfl⟩
  obtain ⟨⟨after, length, bytes, _⟩, read⟩ := laid.splits room noNul
  have start : Inside line.length ⟨line ++ '\x00' :: behind, 0, []⟩ := by
    refine ⟨?_, Nat.zero_le _, fun i member => absurd member List.not_mem_nil⟩
    simp [byteAt]
  have inside := start.strTokenize (Nat.succ_pos room)
  rw [strTokenizeInto_eq, ← strTokenize_eq_ircSplit, ← read]
  generalize LineScan.strTokenize (room + 1) _ = result at bytes inside read ⊢
  have bound := length_strTokenize_le (room + 1) line
  rw [← read, List.length_map] at bound
  obtain ⟨c, new, old, stored⟩ := pushed_foldl ⟨v, 0, []⟩ result.2
  simp only [Nat.zero_add] at c new
  constructor
  · rw [List.length_map]
    exact c
  · exact c ▸ bound
  · intro i argument found
    rw [List.getElem?_map, Option.map_eq_some_iff] at found
    obtain ⟨a, place, rfl⟩ := found
    refine ⟨a, ?_, rfl⟩
    have before : i < result.2.length := (List.getElem?_eq_some_iff.mp place).1
    rw [Slots.close]
    exact (Function.update_of_ne (by omega) _ _).trans (new i a place)
  · exact Function.update_self _ _ _
  · exact inside.touched
  · intro i member
    rcases List.mem_cons.mp member with rfl | member
    · omega
    · rcases stored i member with none | before
      · exact absurd none List.not_mem_nil
      · omega
  · intro i later
    have later : (result.2.foldl Slots.push ⟨v, 0, []⟩).c < i := later
    rw [Slots.close]
    exact (Function.update_of_ne (by omega) _ _).trans (old i (.inr (Nat.le_of_lt later)))
  · rw [bytes, List.nil_append, ← length, List.drop_left, length, List.drop_left]

/-- A message with leading blanks, a trailing argument and a line end. -/
theorem strTokenizeInto_message :
    Splits 3 " MODE #a :b c \r\n".toList.length (fun _ => none)
      (" MODE #a :b c \r\n".toList ++ '\x00' :: [])
      (ircSplit 3 " MODE #a :b c \r\n".toList)
      (strTokenizeInto 3 ⟨" MODE #a :b c \r\n".toList ++ '\x00' :: [], 0, []⟩ fun _ => none) :=
  strTokenizeInto_splits 3 (by decide) " MODE #a :b c \r\n".toList [] (by decide +kernel) _

example : ircSplit 3 " MODE #a :b c \r\n".toList =
    ["MODE".toList, "#a".toList, "b c".toList] := by
  repeat rw [String.toList_ofList]
  decide +kernel

end LineScan

end Chaosircd
