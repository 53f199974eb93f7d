import Chaosircd.NmodeInfos
import Chaosircd.Tokenize

/-!
# The lines of a mode list

`chanmode_assemble_list` fills four buffers with the letters, the setters, the times and the
masks of as many entries as there is room for, and joins them to one line.  `ms_nmode` takes
the line apart again.  A line is read back exactly when each of its four words is, and when
it was not cut.
-/

namespace Chaosircd

namespace Nmode

variable {known : Char → Bool}

/-! ## Writing -/

/-- The four buffers, the hash of the setter written last, and the first time that is set. -/
structure ListAssembly where
  flagbuf : CString
  infobuf : CString
  timebuf : CString
  maskbuf : CString
  lasthash : Nat
  lastts : Int

/-- The buffers `chanmode_assemble_list` starts with. -/
def ListAssembly.empty : ListAssembly :=
  ⟨[], [], [], [], 0, 0⟩

namespace ListAssembly

/-- `flen + ilen + tlen + mlen`. -/
def size (st : ListAssembly) : Nat :=
  st.flagbuf.length + st.infobuf.length + st.timebuf.length + st.maskbuf.length

/-- The entry does not fit any more. -/
def Overflows (st : ListAssembly) (len : Nat) (entry : Entry known) : Prop :=
  len < st.size + 2 + (if Abbreviated st.lasthash entry then 1 else entry.info.length) +
      2 + 12 + entry.arg.length + 2 + 1 ∨
    st.flagbuf.length = 16

instance (st : ListAssembly) (len : Nat) (entry : Entry known) :
    Decidable (st.Overflows len entry) :=
  inferInstanceAs (Decidable (_ ∨ _))

end ListAssembly

/-- A text behind what is in a buffer. -/
def joinField (buf text : CString) : CString :=
  buf ++ (if buf = [] then [] else [';']) ++ text

/-- How a mask is written. -/
def argText (entry : Entry known) : CString :=
  if entry.arg = [] then ['-'] else entry.arg

/-- An entry is written into the buffers. -/
def ListAssembly.write (st : ListAssembly) (entry : Entry known) : ListAssembly where
  flagbuf := st.flagbuf ++ [entry.letter]
  infobuf :=
    if Abbreviated st.lasthash entry then st.infobuf ++ [';', '*']
    else joinField st.infobuf (infoText st.lasthash entry)
  timebuf := joinField st.timebuf (timeText st.lastts entry.ts)
  maskbuf := joinField st.maskbuf (argText entry)
  lasthash := nextHash st.lasthash entry
  lastts := if st.lastts = 0 then entry.ts else st.lastts

/-- The loop of `chanmode_assemble_list`: the buffers, and the list it returns. -/
def assembleListLoop (len : Nat) :
    List (Entry known) → ListAssembly → ListAssembly × List (Entry known)
  | [], st => (st, [])
  | entry :: entries, st =>
      if st.Overflows len entry then (st, entry :: entries)
      else assembleListLoop len entries (st.write entry)

/-- The four buffers with blanks between them. -/
def lineText (st : ListAssembly) : CString :=
  st.flagbuf ++ ' ' :: (st.infobuf ++ ' ' :: (st.timebuf ++ ' ' :: st.maskbuf))

/-- `chanmode_assemble_list`: what it writes, and the list it returns. -/
def chanmodeAssembleList (len : Nat) (entries : List (Entry known)) :
    CString × List (Entry known) :=
  let (st, rest) := assembleListLoop len entries ListAssembly.empty
  (if st.flagbuf = [] then [] else strlcpy (lineText st) len, rest)

/-! ## Reading -/

/-- A change as `ms_nmode` makes it. -/
structure Change where
  letter : Char
  arg : CString
  info : CString
  ts : Int
  deriving DecidableEq

/-- What the line of an entry should give. -/
def Entry.change (entry : Entry known) : Change :=
  ⟨entry.letter, entry.arg, entry.info, entry.ts⟩

/-- The loop of `ms_nmode`, over the flags with the tokens that belong to them. -/
def nmodeLoop (known : Char → Bool) :
    Bool → Int → Option CString → List (Char × CString × CString × CString) →
      Option (List Change)
  | _, _, _, [] => some []
  | first, ts, lastinfo, (letter, info, time, arg) :: words =>
      if charsIsalpha letter = false ∨ known letter = false then
        nmodeLoop known false ts lastinfo words
      else do
        let (info, lastinfo) ← readInfo lastinfo info
        let ts := readTime first ts time
        let changes ← nmodeLoop known false ts lastinfo words
        some (⟨letter, strlcpy arg 115, info, ts⟩ :: changes)

/-- What `ms_nmode` does with its arguments from the time stamp on, for a channel that is
known and not younger. -/
def nmodeWords (known : Char → Bool) (ts flags infos times args : CString) :
    Option (List Change) :=
  let infos := strTokenizeS ';' 16 infos
  let times := strTokenizeS ';' 16 times
  let args := strTokenizeS ';' 16 args
  if infos.length = flags.length ∧ times.length = flags.length ∧
      args.length = flags.length then
    nmodeLoop known true (timeT (strToul ts)) none (flags.zip (infos.zip (times.zip args)))
  else none

/-- `ms_nmode` on what follows the command.  With less than five arguments the link is
closed, and with five the last one is a null pointer. -/
def msNmode (known : Char → Bool) (arg : CString) : Option (List Change) :=
  match strTokenize 6 arg with
  | [_, ts, flags, infos, times, args] => nmodeWords known ts flags infos times args
  | _ => none

/-! ## The loop that reads -/

theorem length_nmodeLoop_le {first : Bool} {ts : Int} {lastinfo : Option CString}
    {words : List (Char × CString × CString × CString)} {changes : List Change}
    (read : nmodeLoop known first ts lastinfo words = some changes) :
    changes.length ≤ words.length := by
  induction words generalizing first ts lastinfo changes with
  | nil =>
      cases read
      exact Nat.le_refl 0
  | cons word words induction =>
      obtain ⟨letter, info, time, arg⟩ := word
      rw [nmodeLoop] at read
      split at read
      · exact Nat.le_succ_of_le (induction read)
      · simp only [Option.bind_eq_bind, Option.bind_eq_some_iff, Option.some.injEq] at read
        obtain ⟨found, _, others, behind, rfl⟩ := read
        exact Nat.succ_le_succ (induction behind)

/-- The entries are read back when their setters, times and masks are. -/
theorem nmodeLoop_iff {first : Bool} {ts : Int} {lastinfo : Option CString}
    {entries : List (Entry known)} {infos times args : List CString}
    (infosLength : infos.length = entries.length) (timesLength : times.length = entries.length)
    (argsLength : args.length = entries.length) :
    nmodeLoop known first ts lastinfo
        ((entries.map Entry.letter).zip (infos.zip (times.zip args))) =
        some (entries.map Entry.change) ↔
      decodeInfos lastinfo infos = some (entries.map Entry.info) ∧
        decodeTimes first ts times = entries.map Entry.ts ∧
        (args.map fun arg => strlcpy arg 115) = entries.map Entry.arg := by
  induction entries generalizing first ts lastinfo infos times args with
  | nil =>
      rw [List.length_eq_zero_iff.mp infosLength, List.length_eq_zero_iff.mp timesLength,
        List.length_eq_zero_iff.mp argsLength]
      exact iff_of_true rfl ⟨rfl, rfl, rfl⟩
  | cons entry entries induction =>
      obtain ⟨info, infos, rfl⟩ := List.exists_cons_of_length_eq_add_one infosLength
      obtain ⟨time, times, rfl⟩ := List.exists_cons_of_length_eq_add_one timesLength
      obtain ⟨arg, args, rfl⟩ := List.exists_cons_of_length_eq_add_one argsLength
      have valid : ¬ (charsIsalpha entry.letter = false ∨ known entry.letter = false) := by
        rw [entry.alpha, entry.listed]
        nofun
      have rest := fun first ts lastinfo => @induction first ts lastinfo infos times args
        (Nat.succ.inj infosLength) (Nat.succ.inj timesLength) (Nat.succ.inj argsLength)
      simp only [List.map_cons, List.zip_cons_cons, nmodeLoop, if_neg valid, Entry.change,
        Option.bind_eq_bind, Option.bind_eq_some_iff, Option.some.injEq, List.cons.injEq,
        Change.mk.injEq, decodeTimes, decodeInfos_cons_eq_some, Prod.exists, true_and]
      constructor
      · rintro ⟨info', lastinfo', read, changes, behind, ⟨copied, rfl, timed⟩, rfl⟩
        obtain ⟨infosRead, timesRead, argsRead⟩ := (rest false _ lastinfo').mp behind
        exact ⟨⟨_, _, _, read, infosRead, rfl, rfl⟩, ⟨timed, timesRead⟩, copied, argsRead⟩
      · rintro ⟨⟨info', lastinfo', others, read, infosRead, rfl, rfl⟩, ⟨timed, timesRead⟩,
          copied, argsRead⟩
        exact ⟨_, _, read, _, (rest false _ lastinfo').mpr ⟨infosRead, timesRead, argsRead⟩,
          ⟨copied, rfl, timed⟩, rfl⟩

/-! ## Tokens -/

/-- Fields with the delimiter between them. -/
abbrev fields (texts : List CString) : CString :=
  List.intercalate [';'] texts

theorem mem_strTokenizeS {delim : Char} {maxtok : Nat} {s w : CString}
    (member : w ∈ strTokenizeS delim maxtok s) :
    PlainField delim w ∧ ∀ c ∈ w, c ∈ s := by
  induction maxtok generalizing s with
  | zero => cases member
  | succ maxtok induction =>
      rw [strTokenizeS] at member
      split at member
      · cases member
      · rename_i c cs same
        have part : ∀ d ∈ c :: cs, d ∈ s := by
          intro d inside
          rw [← same] at inside
          exact (List.dropWhile_sublist _).mem inside
        rcases List.mem_cons.mp member with rfl | later
        · have other : c ≠ delim := by
            have head := List.head?_dropWhile_not (· == delim) s
            rw [same] at head
            simpa using head
          refine ⟨⟨?_, ?_⟩, fun d inside => part d ((List.takeWhile_sublist _).mem inside)⟩
          · rw [List.takeWhile_cons_of_pos (by simpa using other)]
            exact List.cons_ne_nil _ _
          · intro inside
            simpa using List.mem_takeWhile_imp inside
        · have found := induction later
          exact ⟨found.1, fun d inside =>
            part d ((List.dropWhile_sublist _).mem (found.2 d inside))⟩

/-- The tokens of a text, with one delimiter between them, are no longer than the text. -/
theorem length_intercalate_strTokenizeS_le {delim : Char} (maxtok : Nat) (s : CString) :
    (List.intercalate [delim] (strTokenizeS delim maxtok s)).length ≤ s.length := by
  induction maxtok generalizing s with
  | zero => exact Nat.zero_le _
  | succ maxtok induction =>
      rw [strTokenizeS]
      split
      · exact Nat.zero_le _
      · rename_i c cs same
        have shorter := (List.dropWhile_sublist (· == delim) (l := s)).length_le
        have parts := congrArg List.length
          (List.takeWhile_append_dropWhile (p := (· != delim)) (l := c :: cs))
        rw [List.length_append] at parts
        rw [same] at shorter
        have rest := induction ((c :: cs).dropWhile (· != delim))
        cases tokens : strTokenizeS delim maxtok ((c :: cs).dropWhile (· != delim)) with
        | nil =>
            rw [List.intercalate_singleton]
            omega
        | cons word words =>
            have delimited : ∃ behind, (c :: cs).dropWhile (· != delim) = delim :: behind := by
              cases left : (c :: cs).dropWhile (· != delim) with
              | nil =>
                  rw [left] at tokens
                  cases maxtok <;> cases tokens
              | cons d behind =>
                  have head := List.head?_dropWhile_not (· != delim) (c :: cs)
                  rw [left] at head
                  have isDelim : d = delim := by simpa using head
                  exact ⟨behind, by rw [isDelim]⟩
            obtain ⟨behind, left⟩ := delimited
            rw [left, strTokenizeS_delim] at tokens
            have behindFits := induction behind
            rw [tokens] at behindFits
            rw [left, List.length_cons] at parts
            rw [List.intercalate_cons_cons, List.length_append, List.length_append,
              List.length_singleton]
            omega

/-- A token that others follow is a plain word. -/
theorem plainWord_of_strTokenize {maxtok : Nat} {s w v : CString} {ws : List CString}
    (tokens : strTokenize maxtok s = w :: v :: ws) : PlainWord w := by
  cases maxtok with
  | zero => cases tokens
  | succ maxtok =>
      rw [strTokenize] at tokens
      split at tokens
      · cases tokens
      · cases tokens
      · rename_i c cs notColon same
        have head := List.head?_dropWhile_not strIsspace s
        rw [same] at head
        have notBlank : strIsspace c = false := by simpa using head
        split at tokens
        · cases tokens
        · have word := (List.cons.inj tokens).1
          rw [List.takeWhile_cons_of_pos (by rw [notBlank]; rfl)] at word
          subst word
          refine ⟨List.cons_ne_nil _ _, ?_, ?_⟩
          · intro d member
            rcases List.mem_cons.mp member with rfl | later
            · exact notBlank
            · simpa using List.mem_takeWhile_imp later
          · rintro ⟨⟩
            exact notColon rfl

/-! ## The words of a line -/

theorem mem_fields {texts : List CString} {c : Char} (member : c ∈ fields texts) :
    c = ';' ∨ ∃ text ∈ texts, c ∈ text := by
  induction texts with
  | nil => cases member
  | cons text texts induction =>
      cases texts with
      | nil => exact .inr ⟨text, List.mem_cons_self, by simpa [fields] using member⟩
      | cons other texts =>
          rw [fields, List.intercalate_cons_cons, List.append_assoc, List.mem_append,
            List.mem_append] at member
          rcases member with here | delim | later
          · exact .inr ⟨text, List.mem_cons_self, here⟩
          · exact .inl (List.mem_singleton.mp delim)
          · rcases induction later with delim | ⟨found, listed, inside⟩
            · exact .inl delim
            · exact .inr ⟨found, List.mem_cons_of_mem _ listed, inside⟩

/-- A word of fields begins with the first one. -/
theorem fields_cons (text : CString) (texts : List CString) :
    ∃ rest, fields (text :: texts) = text ++ rest := by
  cases texts with
  | nil => exact ⟨[], by simp [fields]⟩
  | cons other texts =>
      exact ⟨';' :: fields (other :: texts), by simp [fields, List.intercalate_cons_cons]⟩

theorem head_fields {text : CString} (more : text ≠ []) (texts : List CString) :
    (fields (text :: texts)).head? = text.head? := by
  obtain ⟨c, cs, rfl⟩ := List.exists_cons_of_ne_nil more
  obtain ⟨rest, whole⟩ := fields_cons (c :: cs) texts
  rw [whole]
  rfl

/-- Fields without blanks make up a word, unless the first one begins with a colon. -/
theorem plainWord_fields {texts : List CString} (more : texts ≠ [])
    (nonempty : ∀ text ∈ texts, text ≠ [])
    (noBlank : ∀ text ∈ texts, ∀ c ∈ text, strIsspace c = false)
    (noColon : (fields texts).head? ≠ some ':') : PlainWord (fields texts) := by
  refine ⟨?_, ?_, noColon⟩
  · obtain ⟨text, others, rfl⟩ := List.exists_cons_of_ne_nil more
    obtain ⟨rest, whole⟩ := fields_cons text others
    rw [whole]
    exact List.append_ne_nil_of_left_ne_nil (nonempty text List.mem_cons_self) rest
  · intro d member
    rcases mem_fields member with delim | ⟨other, listed, inside⟩
    · rw [delim]
      decide
    · exact noBlank other listed d inside

theorem timeText_chars {lastts ts : Int} {c : Char} (member : c ∈ timeText lastts ts) :
    strIsdigit c = true ∨ c = '-' := by
  rw [timeText] at member
  split at member
  · exact .inr (List.mem_singleton.mp member)
  · split at member
    · exact .inl (strIsdigit_of_mem_toDigits member)
    · rw [formatLi] at member
      split at member
      · rcases List.mem_cons.mp member with minus | digit
        · exact .inr minus
        · exact .inl (strIsdigit_of_mem_toDigits digit)
      · exact .inl (strIsdigit_of_mem_toDigits member)

theorem timeText_ne_nil (lastts ts : Int) : timeText lastts ts ≠ [] := by
  rw [timeText]
  split
  · exact List.cons_ne_nil _ _
  · split
    · exact List.ne_nil_of_length_pos Nat.length_toDigits_pos
    · rw [formatLi]
      split
      · exact List.cons_ne_nil _ _
      · exact List.ne_nil_of_length_pos Nat.length_toDigits_pos

/-- A time takes ten characters, and one more behind the first that is set. -/
theorem length_timeText_le (lastts ts : Int) :
    (timeText lastts ts).length ≤ if lastts = 0 then 10 else 11 := by
  rw [timeText]
  by_cases zero : ts = 0
  · rw [if_pos zero]
    split <;> simp
  · rw [if_neg zero]
    by_cases unset : lastts = 0
    · rw [if_pos unset, if_pos unset]
      exact length_toDigits_le (by omega)
    · rw [if_neg unset, if_neg unset, formatLi]
      have bounds := bmod_bounds (ts - lastts)
      generalize (ts - lastts).bmod (2 ^ 32) = value at bounds
      have digits : (Nat.toDigits 10 value.natAbs).length ≤ 10 := length_toDigits_le (by omega)
      split
      · exact Nat.succ_le_succ digits
      · exact Nat.le_succ_of_le digits

theorem mem_encodeTimes {lastts : Int} {times : List Int} {text : CString}
    (member : text ∈ encodeTimes lastts times) : ∃ last ts, text = timeText last ts := by
  induction times generalizing lastts with
  | nil => cases member
  | cons ts times induction =>
      rcases List.mem_cons.mp member with same | later
      · exact ⟨lastts, ts, same⟩
      · exact induction later

theorem length_encodeTimes (lastts : Int) (times : List Int) :
    (encodeTimes lastts times).length = times.length := by
  induction times generalizing lastts with
  | nil => rfl
  | cons ts times induction => exact congrArg (· + 1) (induction _)

/-! ## What the buffers hold -/

theorem joinField_of_ne_nil {buf : CString} (some : buf ≠ []) (text : CString) :
    joinField buf text = buf ++ ';' :: text := by
  rw [joinField, if_neg some, List.append_assoc]
  rfl

theorem foldl_joinField {buf : CString} (more : buf ≠ []) (texts : List CString) :
    texts.foldl joinField buf = fields (buf :: texts) := by
  induction texts generalizing buf with
  | nil => exact List.intercalate_singleton.symm
  | cons text texts induction =>
      rw [List.foldl_cons, joinField_of_ne_nil more, induction (by simp)]
      cases texts with
      | nil => simp [fields, List.intercalate_cons_cons]
      | cons other texts => simp [fields, List.intercalate_cons_cons]

theorem foldl_joinField_nil {texts : List CString} (nonempty : ∀ text ∈ texts, text ≠ []) :
    texts.foldl joinField [] = fields texts := by
  cases texts with
  | nil => rfl
  | cons text texts => exact foldl_joinField (nonempty text List.mem_cons_self) texts

theorem infoText_ne_nil (lasthash : Nat) (entry : Entry known) :
    infoText lasthash entry ≠ [] := by
  rw [infoText]
  split
  · exact List.cons_ne_nil _ _
  · split
    · exact List.cons_ne_nil _ _
    · assumption

theorem argText_ne_nil (entry : Entry known) : argText entry ≠ [] := by
  rw [argText]
  split
  · exact List.cons_ne_nil _ _
  · assumption

/-- The buffers after some entries. -/
theorem foldl_write (entries : List (Entry known)) (st : ListAssembly)
    (set : st.lasthash ≠ 0 → st.infobuf ≠ []) :
    (entries.foldl ListAssembly.write st).flagbuf = st.flagbuf ++ entries.map Entry.letter ∧
      (entries.foldl ListAssembly.write st).infobuf =
        (encodeInfos st.lasthash entries).foldl joinField st.infobuf ∧
      (entries.foldl ListAssembly.write st).timebuf =
        (encodeTimes st.lastts (entries.map Entry.ts)).foldl joinField st.timebuf ∧
      (entries.foldl ListAssembly.write st).maskbuf =
        (entries.map argText).foldl joinField st.maskbuf := by
  induction entries generalizing st with
  | nil => exact ⟨(List.append_nil _).symm, rfl, rfl, rfl⟩
  | cons entry entries induction =>
      have info : (st.write entry).infobuf =
          joinField st.infobuf (infoText st.lasthash entry) := by
        rw [ListAssembly.write]
        dsimp only
        split
        · rename_i abbreviated
          rw [joinField_of_ne_nil (set abbreviated.1), infoText, if_pos abbreviated]
        · rfl
      have filled : (st.write entry).infobuf ≠ [] := by
        rw [info, joinField]
        exact List.append_ne_nil_of_right_ne_nil _ (infoText_ne_nil st.lasthash entry)
      obtain ⟨flags, infos, times, masks⟩ := induction (st.write entry) fun _ => filled
      refine ⟨?_, ?_, times, masks⟩
      · rw [List.foldl_cons, flags, List.map_cons, ListAssembly.write]
        simp
      · rw [List.foldl_cons, infos, info]
        rfl

/-! ## What one line takes -/

/-- The entries that go into a line. -/
def lineEntries (len : Nat) : List (Entry known) → ListAssembly → List (Entry known)
  | [], _ => []
  | entry :: entries, st =>
      if st.Overflows len entry then [] else entry :: lineEntries len entries (st.write entry)

theorem assembleListLoop_eq (len : Nat) (entries : List (Entry known)) (st : ListAssembly) :
    (assembleListLoop len entries st).1 =
        (lineEntries len entries st).foldl ListAssembly.write st ∧
      entries = lineEntries len entries st ++ (assembleListLoop len entries st).2 := by
  induction entries generalizing st with
  | nil => exact ⟨rfl, rfl⟩
  | cons entry entries induction =>
      rw [assembleListLoop, lineEntries]
      split
      · exact ⟨rfl, rfl⟩
      · obtain ⟨buffers, whole⟩ := induction (st.write entry)
        exact ⟨buffers, congrArg (entry :: ·) whole⟩

/-- The sizes of the buffers after some entries.  Only the last two bytes of a line can be
cut off, and none where it has a single entry. -/
structure Sized (len : Nat) (st : ListAssembly) : Prop where
  letters : st.flagbuf.length ≤ 16
  fits : st.size + 2 ≤ len
  first : st.flagbuf.length ≤ 1 → st.size + 3 < len
  masks : 2 * st.flagbuf.length ≤ st.maskbuf.length + 1
  start : st.flagbuf = [] → st = ListAssembly.empty

theorem sized_empty {len : Nat} (room : 247 ≤ len) : Sized len ListAssembly.empty := by
  refine ⟨?_, ?_, ?_, ?_, fun _ => rfl⟩
  all_goals
    simp [ListAssembly.empty, ListAssembly.size]
    try omega

theorem length_joinField (buf text : CString) :
    (joinField buf text).length =
      buf.length + (if buf = [] then 0 else 1) + text.length := by
  rw [joinField, List.length_append, List.length_append]
  split <;> rfl

theorem length_argText_le (entry : Entry known) :
    (argText entry).length ≤ entry.arg.length + 1 := by
  rw [argText]
  split
  · simp
  · omega

theorem length_infoText_le {lasthash : Nat} {entry : Entry known}
    (whole : ¬ Abbreviated lasthash entry) :
    (infoText lasthash entry).length ≤ entry.info.length + 1 := by
  rw [infoText, if_neg whole]
  split
  · simp
  · omega

/-- The first entry of a line. -/
theorem sized_write_empty {len : Nat} {entry : Entry known}
    (fit : ¬ ListAssembly.empty.Overflows len entry) :
    Sized len (ListAssembly.empty.write entry) := by
  have whole : ¬ Abbreviated ListAssembly.empty.lasthash entry := fun marked => marked.1 rfl
  have room := (not_or.mp fit).1
  rw [if_neg whole] at room
  have info := length_infoText_le whole
  have time := length_timeText_le 0 entry.ts
  rw [if_pos rfl] at time
  have mask := length_argText_le entry
  have some : 0 < (argText entry).length := List.length_pos_of_ne_nil (argText_ne_nil entry)
  have same : ListAssembly.empty.write entry = ⟨[entry.letter], infoText 0 entry,
      timeText 0 entry.ts, argText entry, nextHash 0 entry, entry.ts⟩ := by
    rw [ListAssembly.write, if_neg whole]
    simp [ListAssembly.empty, joinField]
  simp only [ListAssembly.empty, ListAssembly.size, List.length_nil] at room info
  rw [same]
  refine ⟨?_, ?_, fun _ => ?_, ?_, fun empty => absurd empty (List.cons_ne_nil _ _)⟩
  all_goals
    simp only [ListAssembly.size, List.length_singleton]
    omega

/-- A further entry of a line. -/
theorem Sized.write {len : Nat} {st : ListAssembly} {entry : Entry known}
    (sized : Sized len st) (fit : ¬ st.Overflows len entry) : Sized len (st.write entry) := by
  by_cases fresh : st.flagbuf = []
  · have start := sized.start fresh
    subst start
    exact sized_write_empty fit
  · obtain ⟨room, few⟩ := not_or.mp fit
    have letters := sized.letters
    have before := sized.masks
    have some : 0 < st.flagbuf.length := List.length_pos_of_ne_nil fresh
    have filled : st.maskbuf ≠ [] := List.ne_nil_of_length_pos (by omega)
    have flags : (st.write entry).flagbuf.length = st.flagbuf.length + 1 := by
      simp [ListAssembly.write]
    have infos : (st.write entry).infobuf.length ≤ st.infobuf.length + 2 +
        (if Abbreviated st.lasthash entry then 1 else entry.info.length) := by
      rw [ListAssembly.write]
      dsimp only
      split
      · simp
      · rename_i whole
        have text := length_infoText_le whole
        rw [length_joinField]
        split <;> omega
    have times : (st.write entry).timebuf.length ≤ st.timebuf.length + 12 := by
      have text := length_timeText_le st.lastts entry.ts
      have joined : (st.write entry).timebuf.length = _ := length_joinField _ _
      rw [joined]
      split at text <;> split <;> omega
    have masks : (st.write entry).maskbuf.length =
        st.maskbuf.length + 1 + (argText entry).length := by
      have joined : (st.write entry).maskbuf.length = _ := length_joinField _ _
      rw [joined, if_neg filled]
    have mask := length_argText_le entry
    have more : 0 < (argText entry).length := List.length_pos_of_ne_nil (argText_ne_nil entry)
    rw [ListAssembly.size] at room
    generalize (if Abbreviated st.lasthash entry then 1 else entry.info.length) = info
      at room infos
    refine ⟨by omega, ?_, fun single => by omega, by omega, fun empty => ?_⟩
    · rw [ListAssembly.size]
      omega
    · rw [← List.length_eq_zero_iff] at empty
      omega

theorem Sized.foldl {len : Nat} {entries : List (Entry known)} {st : ListAssembly}
    (sized : Sized len st) :
    Sized len ((lineEntries len entries st).foldl ListAssembly.write st) := by
  induction entries generalizing st with
  | nil => exact sized
  | cons entry entries induction =>
      rw [lineEntries]
      split
      · exact sized
      · rename_i fit
        exact induction (sized.write fit)

/-- An entry always fits into an empty line. -/
theorem not_overflows_empty {len : Nat} (room : 247 ≤ len) (entry : Entry known) :
    ¬ ListAssembly.empty.Overflows len entry := by
  have argFits := entry.argFits
  have infoFits := entry.infoFits
  have whole : ¬ Abbreviated ListAssembly.empty.lasthash entry := fun marked => marked.1 rfl
  rw [ListAssembly.Overflows, if_neg whole]
  simp only [ListAssembly.empty, ListAssembly.size, List.length_nil]
  omega

theorem length_lineText (st : ListAssembly) : (lineText st).length = st.size + 3 := by
  simp only [lineText, ListAssembly.size, List.length_append, List.length_cons]
  omega

theorem take_word (w s : CString) (n : Nat) :
    (w ++ ' ' :: s).take (w.length + 1 + n) = w ++ ' ' :: s.take n := by
  rw [List.take_append, List.take_of_length_le (by omega)]
  have left : w.length + 1 + n - w.length = n + 1 := by omega
  rw [left, List.take_succ_cons]

/-- What is cut off a line is the end of its last word. -/
theorem strlcpy_lineText {len : Nat} {st : ListAssembly} (sized : Sized len st)
    (more : st.flagbuf ≠ []) :
    ∃ k, 0 < k ∧ (st.maskbuf.length ≤ k ↔ (lineText st).length < len) ∧
      strlcpy (lineText st) len = st.flagbuf ++ ' ' :: (st.infobuf ++ ' ' ::
        (st.timebuf ++ ' ' :: st.maskbuf.take k)) := by
  have some : 0 < st.flagbuf.length := List.length_pos_of_ne_nil more
  have fits := sized.fits
  have first := sized.first
  have masks := sized.masks
  have total := length_lineText st
  rw [ListAssembly.size] at fits first total
  refine ⟨len - 1 - (st.flagbuf.length + st.infobuf.length + st.timebuf.length + 3), ?_, ?_, ?_⟩
  · by_cases single : st.flagbuf.length ≤ 1
    · have short := first single
      omega
    · omega
  · rw [total]
    omega
  · rw [strlcpy, lineText]
    have parts : len - 1 = st.flagbuf.length + 1 + (st.infobuf.length + 1 +
        (st.timebuf.length + 1 +
          (len - 1 - (st.flagbuf.length + st.infobuf.length + st.timebuf.length + 3)))) := by
      by_cases single : st.flagbuf.length ≤ 1
      · have short := first single
        omega
      · omega
    generalize len - 1 - (st.flagbuf.length + st.infobuf.length + st.timebuf.length + 3) = k
      at parts
    rw [parts, take_word, take_word, take_word]

/-! ## One line -/

/-- The condition on the entries of a line: setters and masks that survive being fields of a
word, setters that are told apart from the marks, times that are read as they were, and no
more text than there is room for. -/
structure LineFits (len : Nat) (entries : List (Entry known)) : Prop where
  infos : InfosFit 0 none entries
  plain : ∀ entry ∈ entries, ∀ c ∈ entry.info, c ≠ ';' ∧ strIsspace c = false
  infoHead : ∀ entry ∈ entries.head?, entry.info.head? ≠ some ':'
  times : TimesFit true (entries.map Entry.ts)
  args : ∀ entry ∈ entries, entry.arg ≠ [] ∧ ';' ∉ entry.arg
  argHead : ∀ entry ∈ entries.head?, entry.arg.head? ≠ some ':'
  uncut : (lineText (entries.foldl ListAssembly.write ListAssembly.empty)).length < len

theorem length_decodeInfos {lastinfo : Option CString} {texts infos : List CString}
    (decoded : decodeInfos lastinfo texts = some infos) : infos.length = texts.length := by
  induction texts generalizing lastinfo infos with
  | nil =>
      cases decoded
      rfl
  | cons text texts induction =>
      obtain ⟨info, lastinfo', rest, _, others, rfl⟩ := decodeInfos_cons_eq_some.mp decoded
      exact congrArg (· + 1) (induction others)

theorem length_decodeTimes (first : Bool) (ts : Int) (texts : List CString) :
    (decodeTimes first ts texts).length = texts.length := by
  induction texts generalizing first ts with
  | nil => rfl
  | cons text texts induction => exact congrArg (· + 1) (induction _ _)

/-- The first time does not depend on what was there before. -/
theorem decodeTimes_true (ts : Int) (texts : List CString) :
    decodeTimes true ts texts = decodeTimes true 0 texts := by
  cases texts <;> rfl

/-- The words of a line are read back when the three lists in them are. -/
theorem nmodeWords_iff {entries : List (Entry known)} {ts infos times args : CString} :
    nmodeWords known ts (entries.map Entry.letter) infos times args =
        some (entries.map Entry.change) ↔
      decodeInfos none (strTokenizeS ';' 16 infos) = some (entries.map Entry.info) ∧
        decodeTimes true 0 (strTokenizeS ';' 16 times) = entries.map Entry.ts ∧
        ((strTokenizeS ';' 16 args).map fun arg => strlcpy arg 115) = entries.map Entry.arg := by
  rw [nmodeWords, List.length_map]
  constructor
  · intro read
    split at read
    · rename_i counts
      rw [nmodeLoop_iff counts.1 counts.2.1 counts.2.2, decodeTimes_true] at read
      exact read
    · cases read
  · intro read
    have infosLength := length_decodeInfos read.1
    have timesLength := congrArg List.length read.2.1
    have argsLength := congrArg List.length read.2.2
    rw [length_decodeTimes, List.length_map] at timesLength
    rw [List.length_map, List.length_map] at argsLength
    rw [List.length_map] at infosLength
    rw [if_pos ⟨infosLength.symm, timesLength, argsLength⟩,
      nmodeLoop_iff infosLength.symm timesLength argsLength, decodeTimes_true]
    exact read

/-- The words in front of the setters are read as they are. -/
theorem msNmode_eq {channel flags : CString} (plain : PlainWord channel)
    (plainFlags : PlainWord flags) (ts : Nat) (rest : CString) :
    msNmode known (channel ++ ' ' :: (formatLu ts ++ ' ' :: (flags ++ ' ' :: rest))) =
      match strTokenize 3 rest with
      | [infos, times, args] => nmodeWords known (formatLu ts) flags infos times args
      | _ => none := by
  have stamp : PlainWord (formatLu ts) := plainWord_toDigits _
  rw [msNmode, strTokenize_plainWord_append plain, strTokenize_plainWord_append stamp,
    strTokenize_plainWord_append plainFlags]
  rcases strTokenize (2 + 1) rest with _ | ⟨infos, _ | ⟨times, _ | ⟨args, _ | ⟨more, tokens⟩⟩⟩⟩ <;>
    rfl

theorem not_blank_of_alpha {c : Char} (alpha : charsIsalpha c = true) :
    strIsspace c = false ∧ c ≠ ':' := by
  have bounds : 0x40 < c.toNat := by
    simp only [charsIsalpha, inRanges, List.any_cons, List.any_nil, Bool.or_false,
      Bool.or_eq_true, Bool.and_eq_true, decide_eq_true_eq] at alpha
    omega
  have apart : ∀ d : Char, d.toNat ≤ 0x40 → c ≠ d := by
    rintro d low rfl
    omega
  simp [strIsspace, apart ' ' (by decide), apart '\t' (by decide), apart '\n' (by decide),
    apart '\r' (by decide), apart ':' (by decide)]

theorem plainWord_letters {entries : List (Entry known)} (more : entries ≠ []) :
    PlainWord (entries.map Entry.letter) := by
  have apart : ∀ c ∈ entries.map Entry.letter, strIsspace c = false ∧ c ≠ ':' := by
    intro c member
    obtain ⟨entry, _, rfl⟩ := List.mem_map.mp member
    exact not_blank_of_alpha entry.alpha
  refine ⟨fun empty => more (List.map_eq_nil_iff.mp empty), fun c member => (apart c member).1, ?_⟩
  intro colon
  exact (apart ':' (List.mem_of_mem_head? colon)).2 rfl

/-- The last word of a line, without a colon in front of it. -/
def lastWord (masks : CString) : CString :=
  if masks.head? = some ':' then masks.tail else masks

theorem strTokenize_lastWord {masks : CString} (more : masks ≠ [])
    (noBlank : ∀ c ∈ masks, strIsspace c = false) :
    strTokenize 1 masks = [lastWord masks] := by
  rw [lastWord]
  split
  · rename_i colon
    obtain ⟨rest, rfl⟩ := List.head?_eq_some_iff.mp colon
    rw [strTokenize_colon, List.tail_cons, restOfLine_of_noBlank]
    exact fun d member => noBlank d (List.mem_cons_of_mem _ member)
  · rename_i other
    exact strTokenize_plainWord ⟨more, noBlank, other⟩ 0

theorem length_lastWord_le (masks : CString) : (lastWord masks).length ≤ masks.length := by
  rw [lastWord]
  split
  · rw [List.length_tail]
    exact Nat.sub_le _ _
  · exact Nat.le_refl _

/-- Copies of fields are no longer than the fields. -/
theorem length_fields_map_le (texts : List CString) :
    (fields (texts.map fun text => strlcpy text 115)).length ≤ (fields texts).length := by
  induction texts with
  | nil => exact Nat.le_refl _
  | cons text texts induction =>
      have copied : (strlcpy text 115).length ≤ text.length := List.length_take_le' _ _
      cases texts with
      | nil => simpa [fields] using copied
      | cons other texts =>
          simp only [List.map_cons, fields, List.intercalate_cons_cons, List.length_append]
            at induction ⊢
          omega

/-- The masks of a line are read back when they are fields of a word that was not cut. -/
theorem masks_iff {entries : List (Entry known)} {k : Nat} (more : entries ≠ [])
    (few : entries.length ≤ 16) :
    ((strTokenizeS ';' 16 (lastWord ((fields (entries.map argText)).take k))).map
        fun arg => strlcpy arg 115) = entries.map Entry.arg ↔
      (∀ entry ∈ entries, entry.arg ≠ [] ∧ ';' ∉ entry.arg) ∧
        (∀ entry ∈ entries.head?, entry.arg.head? ≠ some ':') ∧
        (fields (entries.map argText)).length ≤ k := by
  have written : (∀ entry ∈ entries, entry.arg ≠ []) →
      entries.map argText = entries.map Entry.arg := by
    intro nonempty
    apply List.map_congr_left
    intro entry member
    rw [argText, if_neg (nonempty entry member)]
  obtain ⟨entry, others, rfl⟩ := List.exists_cons_of_ne_nil more
  constructor
  · intro read
    have good : ∀ other ∈ entry :: others, other.arg ≠ [] ∧ ';' ∉ other.arg := by
      intro other member
      have listed : other.arg ∈ (entry :: others).map Entry.arg := List.mem_map_of_mem member
      rw [← read] at listed
      obtain ⟨token, found, same⟩ := List.mem_map.mp listed
      have plain := (mem_strTokenizeS found).1
      obtain ⟨c, cs, split⟩ := List.exists_cons_of_ne_nil plain.nonempty
      rw [← same]
      constructor
      · rw [split, strlcpy]
        exact List.cons_ne_nil _ _
      · exact fun inside => plain.noDelim (List.mem_of_mem_take inside)
    have texts := written fun other member => (good other member).1
    rw [texts] at read ⊢
    have head := head_fields (good entry List.mem_cons_self).1 (others.map Entry.arg)
    have longest : (fields ((entry :: others).map Entry.arg)).length ≤
        (lastWord ((fields ((entry :: others).map Entry.arg)).take k)).length := by
      have copied := length_fields_map_le
        (strTokenizeS ';' 16 (lastWord ((fields ((entry :: others).map Entry.arg)).take k)))
      rw [read] at copied
      exact copied.trans (length_intercalate_strTokenizeS_le 16 _)
    rw [← List.map_cons] at head
    generalize fields ((entry :: others).map Entry.arg) = word at longest head ⊢
    have shorter := length_lastWord_le (word.take k)
    rw [List.length_take] at shorter
    have whole : word.length ≤ k := by omega
    rw [List.take_of_length_le whole] at longest
    refine ⟨good, ?_, whole⟩
    rintro first ⟨⟩ colon
    rw [← head] at colon
    obtain ⟨rest, rfl⟩ := List.head?_eq_some_iff.mp colon
    rw [lastWord, if_pos colon, List.tail_cons, List.length_cons] at longest
    omega
  · rintro ⟨good, colon, whole⟩
    have texts := written fun other member => (good other member).1
    have head := head_fields (good entry List.mem_cons_self).1 (others.map Entry.arg)
    rw [List.take_of_length_le whole, texts, List.map_cons, lastWord, head,
      if_neg (colon entry rfl), ← List.map_cons, strTokenizeS_intercalate, List.map_map]
    · apply List.map_congr_left
      intro other _
      exact strlcpy_eq_self other.argFits
    · intro text member
      obtain ⟨other, listed, rfl⟩ := List.mem_map.mp member
      exact ⟨(good other listed).1, (good other listed).2⟩
    · rw [List.length_map]
      exact few

/-- The first setter of a line is not abbreviated. -/
theorem head_infos (entry : Entry known) (entries : List (Entry known)) :
    (fields (encodeInfos 0 (entry :: entries))).head? = some ':' ↔
      entry.info.head? = some ':' := by
  have whole : ¬ Abbreviated 0 entry := fun marked => marked.1 rfl
  rw [encodeInfos, head_fields (infoText_ne_nil 0 entry), infoText, if_neg whole]
  split
  · rename_i empty
    rw [empty]
    exact iff_of_false (by decide) fun same => Option.some_ne_none _ same.symm
  · exact Iff.rfl

/-- Setters that are read have neither blanks nor semicolons. -/
theorem plain_of_nmodeWords {entries : List (Entry known)} {ts infos times args : CString}
    (word : PlainWord infos)
    (read : nmodeWords known ts (entries.map Entry.letter) infos times args =
      some (entries.map Entry.change)) :
    ∀ entry ∈ entries, ∀ c ∈ entry.info, c ≠ ';' ∧ strIsspace c = false := by
  have decoded := (nmodeWords_iff.mp read).1
  have tokens : ∀ text ∈ strTokenizeS ';' 16 infos, ∀ c ∈ text,
      c ≠ ';' ∧ strIsspace c = false := by
    intro text member c inside
    obtain ⟨field, part⟩ := mem_strTokenizeS member
    refine ⟨?_, word.noBlank c (part c inside)⟩
    rintro rfl
    exact field.noDelim inside
  intro entry member
  exact mem_of_decodeInfos tokens (by nofun) decoded entry.info (List.mem_map_of_mem member)

/-- Setters without blanks and semicolons make up fields of a word. -/
theorem fields_infos {entries : List (Entry known)}
    (plain : ∀ entry ∈ entries, ∀ c ∈ entry.info, c ≠ ';' ∧ strIsspace c = false) :
    ∀ text ∈ encodeInfos 0 entries,
      PlainField ';' text ∧ ∀ c ∈ text, strIsspace c = false := by
  intro text member
  rcases mem_encodeInfos member with rfl | rfl | ⟨some, entry, listed, rfl⟩
  · exact ⟨by decide, List.forall_mem_singleton.mpr (by decide)⟩
  · exact ⟨by decide, List.forall_mem_singleton.mpr (by decide)⟩
  · exact ⟨⟨some, fun inside => (plain entry listed _ inside).1 rfl⟩,
      fun c inside => (plain entry listed c inside).2⟩

theorem fields_times (times : List Int) :
    ∀ text ∈ encodeTimes 0 times, PlainField ';' text ∧
      ∀ c ∈ text, strIsspace c = false ∧ c ≠ ':' := by
  intro text member
  obtain ⟨last, time, rfl⟩ := mem_encodeTimes member
  have apart : ∀ c ∈ timeText last time, strIsspace c = false ∧ c ≠ ':' ∧ c ≠ ';' := by
    intro c inside
    rcases timeText_chars inside with digit | rfl
    · refine ⟨not_strIsspace_of_strIsdigit digit, ?_, ?_⟩
      · rintro rfl
        cases digit
      · rintro rfl
        cases digit
    · decide
  exact ⟨⟨timeText_ne_nil last time, fun inside => (apart _ inside).2.2 rfl⟩,
    fun c inside => ⟨(apart c inside).1, (apart c inside).2.1⟩⟩

theorem plainWord_times {times : List Int} (more : times ≠ []) :
    PlainWord (fields (encodeTimes 0 times)) := by
  apply plainWord_fields
  · rw [← List.length_pos_iff, length_encodeTimes, List.length_pos_iff]
    exact more
  · exact fun text member => (fields_times times text member).1.nonempty
  · exact fun text member c inside => ((fields_times times text member).2 c inside).1
  · intro colon
    rcases mem_fields (List.mem_of_mem_head? colon) with delim | ⟨text, member, inside⟩
    · cases delim
    · exact ((fields_times times text member).2 _ inside).2 rfl

theorem plainWord_infos {first : Entry known} {others : List (Entry known)}
    (plain : ∀ entry ∈ first :: others, ∀ c ∈ entry.info, c ≠ ';' ∧ strIsspace c = false)
    (head : first.info.head? ≠ some ':') :
    PlainWord (fields (encodeInfos 0 (first :: others))) := by
  apply plainWord_fields
  · rw [← List.length_pos_iff, length_encodeInfos]
    exact Nat.succ_pos _
  · exact fun text member => (fields_infos plain text member).1.nonempty
  · exact fun text member => (fields_infos plain text member).2
  · rwa [ne_eq, head_infos]

/-- The masks of a line are its last word, where at least a byte of them is left. -/
theorem strTokenize_masks {entries : List (Entry known)} {k : Nat} (more : entries ≠ [])
    (positive : 0 < k) :
    strTokenize 1 ((fields (entries.map argText)).take k) =
      [lastWord ((fields (entries.map argText)).take k)] := by
  obtain ⟨first, others, rfl⟩ := List.exists_cons_of_ne_nil more
  apply strTokenize_lastWord
  · obtain ⟨rest, whole⟩ := fields_cons (argText first) (others.map argText)
    obtain ⟨c, cs, same⟩ := List.exists_cons_of_ne_nil (argText_ne_nil first)
    obtain ⟨j, rfl⟩ := Nat.exists_eq_succ_of_ne_zero (Nat.ne_of_gt positive)
    rw [List.map_cons, whole, same]
    exact List.cons_ne_nil _ _
  · intro c member
    rcases mem_fields (List.mem_of_mem_take member) with rfl | ⟨text, listed, inside⟩
    · decide
    · obtain ⟨entry, _, rfl⟩ := List.mem_map.mp listed
      rw [argText] at inside
      split at inside
      · rw [List.mem_singleton.mp inside]
        decide
      · exact entry.noBlank c inside

/-- A line is read back if and only if its entries meet the condition. -/
theorem msNmode_iff {entries : List (Entry known)} {len : Nat} {channel : CString} (ts : Nat)
    (plain : PlainWord channel) (more : entries ≠ [])
    (sized : Sized len (entries.foldl ListAssembly.write ListAssembly.empty)) :
    msNmode known (channel ++ ' ' :: (formatLu ts ++ ' ' ::
        strlcpy (lineText (entries.foldl ListAssembly.write ListAssembly.empty)) len)) =
        some (entries.map Entry.change) ↔ LineFits len entries := by
  obtain ⟨first, others, rfl⟩ := List.exists_cons_of_ne_nil more
  obtain ⟨flagbuf, infobuf, timebuf, maskbuf⟩ :=
    foldl_write (first :: others) ListAssembly.empty fun wrong => absurd rfl wrong
  have flags : ((first :: others).foldl ListAssembly.write ListAssembly.empty).flagbuf =
      (first :: others).map Entry.letter := flagbuf
  have few : (first :: others).length ≤ 16 := by
    have letters := sized.letters
    rwa [flags, List.length_map] at letters
  have infos : ((first :: others).foldl ListAssembly.write ListAssembly.empty).infobuf =
      fields (encodeInfos 0 (first :: others)) := by
    rw [infobuf]
    apply foldl_joinField_nil
    intro text member
    rcases mem_encodeInfos member with rfl | rfl | ⟨some, _⟩
    · exact List.cons_ne_nil _ _
    · exact List.cons_ne_nil _ _
    · exact some
  have times : ((first :: others).foldl ListAssembly.write ListAssembly.empty).timebuf =
      fields (encodeTimes 0 ((first :: others).map Entry.ts)) := by
    rw [timebuf]
    exact foldl_joinField_nil fun text member => (fields_times _ text member).1.nonempty
  have masks : ((first :: others).foldl ListAssembly.write ListAssembly.empty).maskbuf =
      fields ((first :: others).map argText) := by
    rw [maskbuf]
    apply foldl_joinField_nil
    intro text member
    obtain ⟨entry, _, rfl⟩ := List.mem_map.mp member
    exact argText_ne_nil entry
  obtain ⟨k, positive, uncut, text⟩ := strlcpy_lineText sized
    (by rw [flags]; exact List.cons_ne_nil _ _)
  rw [masks] at uncut
  rw [text, flags, infos, times, masks, msNmode_eq plain (plainWord_letters more)]
  have stamped : (first :: others).map Entry.ts ≠ [] := List.cons_ne_nil _ _
  have stamps := plainWord_times stamped
  have lastMask := strTokenize_masks more positive
  by_cases setters : (∀ entry ∈ first :: others, ∀ c ∈ entry.info,
      c ≠ ';' ∧ strIsspace c = false) ∧ first.info.head? ≠ some ':'
  · obtain ⟨plainInfos, head⟩ := setters
    have infoWord := plainWord_infos plainInfos head
    rw [strTokenize_plainWord_append infoWord, strTokenize_plainWord_append stamps, lastMask]
    dsimp only
    rw [nmodeWords_iff, strTokenizeS_intercalate fun text member =>
        (fields_infos plainInfos text member).1,
      strTokenizeS_intercalate fun text member => (fields_times _ text member).1,
      decodeInfos_iff (by nofun), decodeTimes_iff, masks_iff more few]
    · constructor
      · rintro ⟨infosFit, timesFit, args, argHead, room⟩
        exact ⟨infosFit, plainInfos, by rintro entry ⟨⟩; exact head, timesFit, args, argHead,
          uncut.mp room⟩
      · intro fit
        exact ⟨fit.infos, fit.times, fit.args, fit.argHead, uncut.mpr fit.uncut⟩
    · intro ts member
      obtain ⟨entry, _, rfl⟩ := List.mem_map.mp member
      exact entry.time
    · rw [length_encodeTimes, List.length_map]
      exact few
    · rw [length_encodeInfos]
      exact few
  · apply iff_of_false
    · intro read
      split at read
      · rename_i i t a tokens
        have plainInfos := plain_of_nmodeWords (plainWord_of_strTokenize tokens) read
        have colon : first.info.head? = some ':' := by
          by_contra other
          exact setters ⟨plainInfos, other⟩
        rw [← head_infos first others, List.head?_eq_some_iff] at colon
        obtain ⟨rest, same⟩ := colon
        rw [same, List.cons_append, strTokenize_colon] at tokens
        cases tokens
      · cases read
    · intro fit
      exact setters ⟨fit.plain, fit.infoHead first rfl⟩

end Nmode

end Chaosircd
