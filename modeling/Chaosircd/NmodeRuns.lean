import Chaosircd.NmodeLines

/-!
# A mode list that is sent and read back

`chanmode_introduce` and `chanmode_burst` call `chanmode_assemble_list` until a mode list is
used up, and send each line behind a header with the channel and its time stamp.  The
handler makes its changes line by line, so that a list is read back as a whole exactly when
every line of it is.
-/

namespace Chaosircd

namespace Nmode

variable {known : Char → Bool}

/-! ## Sending -/

/-- What stands in front of the four words of a line: the origin with its blank, which a
burst leaves out, the command, the channel and its time stamp. -/
structure Header where
  origin : CString
  channel : CString
  ts : Nat
  plain : PlainWord channel
  originFits : origin.length ≤ 66
  channelFits : channel.length ≤ 128

/-- What is left of the buffer of a line behind the header. -/
def Header.room (header : Header) : Nat :=
  2047 - (header.origin ++ "NMODE ".toList ++ header.channel ++ [' '] ++ formatLu header.ts ++
    [' ']).length - 1

theorem Header.room_le (header : Header) : 247 ≤ header.room := by
  have origin := header.originFits
  have channel := header.channelFits
  have stamp : (formatLu header.ts).length ≤ 10 := length_formatLu_le header.ts
  have command : "NMODE ".toList.length = 6 := by decide +kernel
  rw [room]
  simp only [List.length_append, List.length_singleton, command]
  omega

/-- The loop of `chanmode_introduce`: what is sent behind the header. -/
def introduceLines (len : Nat) : Nat → List (Entry known) → List CString
  | 0, _ => []
  | _ + 1, [] => []
  | turns + 1, entry :: entries =>
      let (text, rest) := chanmodeAssembleList len (entry :: entries)
      (if text = [] then [] else [text]) ++ introduceLines len turns rest

/-- `chanmode_introduce`.  An entry always fits into a line of its own, so that every turn
takes one from the list. -/
def chanmodeIntroduce (header : Header) (entries : List (Entry known)) : List CString :=
  introduceLines header.room entries.length entries

/-- The changes that `ms_nmode` makes of some lines, one after the other. -/
def readLines (known : Char → Bool) (header : Header) (lines : List CString) : List Change :=
  lines.flatMap fun text => (msNmode known
    (header.channel ++ ' ' :: (formatLu header.ts ++ ' ' :: text))).getD []

/-! ## How a list is split -/

/-- The entries of each line: as many as there is room for, and sixteen at most. -/
def splitEntries (len : Nat) : Nat → List (Entry known) → List (List (Entry known))
  | 0, _ => []
  | _ + 1, [] => []
  | turns + 1, entry :: entries =>
      let line := lineEntries len (entry :: entries) ListAssembly.empty
      line :: splitEntries len turns ((entry :: entries).drop line.length)

/-- The text of a line. -/
def sentText (len : Nat) (line : List (Entry known)) : CString :=
  strlcpy (lineText (line.foldl ListAssembly.write ListAssembly.empty)) len

theorem lineEntries_ne_nil {len : Nat} (room : 247 ≤ len) (entry : Entry known)
    (entries : List (Entry known)) :
    lineEntries len (entry :: entries) ListAssembly.empty ≠ [] := by
  rw [lineEntries, if_neg (not_overflows_empty room entry)]
  exact List.cons_ne_nil _ _

theorem flagbuf_ne_nil {line : List (Entry known)} (more : line ≠ []) :
    (line.foldl ListAssembly.write ListAssembly.empty).flagbuf ≠ [] := by
  have flags := (foldl_write line ListAssembly.empty fun wrong => absurd rfl wrong).1
  rw [flags]
  exact List.append_ne_nil_of_right_ne_nil _ fun empty => more (List.map_eq_nil_iff.mp empty)

/-- One line is assembled of the entries that there is room for. -/
theorem chanmodeAssembleList_eq {len : Nat} (room : 247 ≤ len) (entry : Entry known)
    (entries : List (Entry known)) :
    chanmodeAssembleList len (entry :: entries) =
      (sentText len (lineEntries len (entry :: entries) ListAssembly.empty),
        (entry :: entries).drop
          (lineEntries len (entry :: entries) ListAssembly.empty).length) := by
  have some := flagbuf_ne_nil (lineEntries_ne_nil room entry entries)
  have rest := congrArg
    (List.drop (lineEntries len (entry :: entries) ListAssembly.empty).length)
    (assembleListLoop_eq len (entry :: entries) ListAssembly.empty).2
  rw [List.drop_left] at rest
  rw [chanmodeAssembleList, rest]
  dsimp only
  rw [(assembleListLoop_eq len (entry :: entries) ListAssembly.empty).1, if_neg some, sentText]

theorem sentText_ne_nil {len : Nat} {line : List (Entry known)} (more : line ≠ [])
    (sized : Sized len (line.foldl ListAssembly.write ListAssembly.empty)) :
    sentText len line ≠ [] := by
  have some := flagbuf_ne_nil more
  obtain ⟨k, _, _, text⟩ := strlcpy_lineText sized some
  rw [sentText, text]
  exact List.append_ne_nil_of_left_ne_nil some _

theorem splitEntries_spec {len : Nat} (room : 247 ≤ len) {turns : Nat}
    {entries : List (Entry known)} (enough : entries.length ≤ turns) :
    introduceLines len turns entries = (splitEntries len turns entries).map (sentText len) ∧
      (splitEntries len turns entries).flatten = entries ∧
      ∀ line ∈ splitEntries len turns entries, line ≠ [] ∧
        Sized len (line.foldl ListAssembly.write ListAssembly.empty) := by
  induction turns generalizing entries with
  | zero =>
      rw [List.length_eq_zero_iff.mp (Nat.le_zero.mp enough)]
      exact ⟨rfl, rfl, nofun⟩
  | succ turns induction =>
      cases entries with
      | nil => exact ⟨rfl, rfl, nofun⟩
      | cons entry entries =>
          have some := lineEntries_ne_nil room entry entries
          have sized := @Sized.foldl _ len (entry :: entries) _ (sized_empty room)
          have assembled := chanmodeAssembleList_eq room entry entries
          have sent := sentText_ne_nil some sized
          have front := (assembleListLoop_eq len (entry :: entries) ListAssembly.empty).2
          have split : entry :: entries =
              lineEntries len (entry :: entries) ListAssembly.empty ++ (entry :: entries).drop
                (lineEntries len (entry :: entries) ListAssembly.empty).length := by
            have rest := congrArg
              (List.drop (lineEntries len (entry :: entries) ListAssembly.empty).length) front
            rw [List.drop_left] at rest
            rw [rest]
            exact front
          have shorter : ((entry :: entries).drop
              (lineEntries len (entry :: entries) ListAssembly.empty).length).length ≤ turns := by
            have positive := List.length_pos_of_ne_nil some
            rw [List.length_drop]
            rw [List.length_cons] at enough ⊢
            omega
          obtain ⟨lines, whole, each⟩ := induction shorter
          refine ⟨?_, ?_, ?_⟩
          · rw [introduceLines, assembled]
            dsimp only
            rw [if_neg sent, lines]
            rfl
          · rw [splitEntries, List.flatten_cons, whole]
            exact split.symm
          · rw [splitEntries, List.forall_mem_cons]
            exact ⟨⟨some, sized⟩, each⟩

/-! ## Reading the lines one after the other -/

/-- A line gives no more changes than it has entries. -/
theorem length_getD_msNmode_le {header : Header} {len : Nat} {line : List (Entry known)}
    (more : line ≠ [])
    (sized : Sized len (line.foldl ListAssembly.write ListAssembly.empty)) :
    ((msNmode known (header.channel ++ ' ' :: (formatLu header.ts ++ ' ' ::
      sentText len line))).getD []).length ≤ line.length := by
  obtain ⟨k, _, _, text⟩ := strlcpy_lineText sized (flagbuf_ne_nil more)
  have flags := (foldl_write line ListAssembly.empty fun wrong => absurd rfl wrong).1
  rw [sentText, text, flags]
  have letters : ListAssembly.empty.flagbuf ++ line.map Entry.letter = line.map Entry.letter := rfl
  rw [letters, msNmode_eq header.plain (plainWord_letters more)]
  split
  · rename_i infos times args tokens
    cases read : nmodeWords known (formatLu header.ts) (line.map Entry.letter) infos times args with
    | none => exact Nat.zero_le _
    | some changes =>
        rw [nmodeWords] at read
        split at read
        · have bound := length_nmodeLoop_le read
          rw [List.length_zip, List.length_map] at bound
          exact bound.trans (Nat.min_le_left _ _)
        · cases read
  · exact Nat.zero_le _

theorem length_flatMap_le {Item Result : Type*} {read : List Item → List Result}
    {lines : List (List Item)} (short : ∀ line ∈ lines, (read line).length ≤ line.length) :
    (lines.flatMap read).length ≤ lines.flatten.length := by
  induction lines with
  | nil => exact Nat.le_refl 0
  | cons line lines induction =>
      rw [List.forall_mem_cons] at short
      rw [List.flatMap_cons, List.flatten_cons, List.length_append, List.length_append]
      exact Nat.add_le_add short.1 (induction short.2)

/-- Lists that are no longer than their parts make up a whole only when each makes up its
part. -/
theorem flatMap_eq_flatten_iff {Item Result : Type*} {read : List Item → List Result}
    {make : Item → Result} {lines : List (List Item)}
    (short : ∀ line ∈ lines, (read line).length ≤ line.length) :
    lines.flatMap read = lines.flatten.map make ↔
      ∀ line ∈ lines, read line = line.map make := by
  induction lines with
  | nil => exact iff_of_true rfl nofun
  | cons line lines induction =>
      rw [List.forall_mem_cons] at short ⊢
      rw [List.flatMap_cons, List.flatten_cons, List.map_append, ← induction short.2]
      constructor
      · intro whole
        have bound : (lines.flatMap read).length ≤ (lines.flatten.map make).length := by
          rw [List.length_map]
          exact length_flatMap_le short.2
        have total := congrArg List.length whole
        rw [List.length_append, List.length_append] at total
        have here := short.1
        rw [List.length_map] at total
        exact List.append_inj whole (by rw [List.length_map]; omega)
      · rintro ⟨first, rest⟩
        rw [first, rest]

/-- A mode list is read back, every entry once and in order, if and only if the entries of
each line meet the condition on a line. -/
theorem readLines_introduce_iff (header : Header) (entries : List (Entry known)) :
    readLines known header (chanmodeIntroduce header entries) = entries.map Entry.change ↔
      ∀ line ∈ splitEntries header.room entries.length entries, LineFits header.room line := by
  obtain ⟨lines, whole, each⟩ :=
    splitEntries_spec header.room_le (Nat.le_refl entries.length)
  rw [chanmodeIntroduce, lines, readLines, List.flatMap_map]
  generalize splitEntries header.room entries.length entries = split at whole each ⊢
  subst whole
  rw [flatMap_eq_flatten_iff fun line member =>
    length_getD_msNmode_le (each line member).1 (each line member).2]
  refine forall₂_congr fun line member => ?_
  have more : line.map Entry.change ≠ [] := fun empty =>
    (each line member).1 (List.map_eq_nil_iff.mp empty)
  rw [← msNmode_iff header.ts header.plain (each line member).1 (each line member).2, sentText]
  cases msNmode known _ with
  | none => exact iff_of_false (Ne.symm more) (by nofun)
  | some changes => rw [Option.getD_some, Option.some.injEq]

/-- The ban of a nick. -/
def banAt (nick : Char) (ts : Int) (notBlank : strIsspace nick = false)
    (time : 0 ≤ ts ∧ ts < 2 ^ 63) : Entry (· = 'b') where
  letter := 'b'
  arg := [nick]
  info := ['x']
  ihash := 1
  ts := ts
  alpha := by decide
  listed := by decide
  noBlank := by
    intro c member
    rwa [List.mem_singleton.mp member]
  argFits := by simp
  infoFits := by decide
  time := time

/-- Bans that were set at 100, 200 and 300: the last one is dated 400. -/
theorem third_time_is_added_up :
    ∃ header : Header, ∃ entries : List (Entry (· = 'b')),
      entries.map Entry.ts = [100, 200, 300] ∧
        (readLines (· = 'b') header (chanmodeIntroduce header entries)).map Change.ts =
          [100, 200, 400] ∧
        readLines (· = 'b') header (chanmodeIntroduce header entries) ≠
          entries.map Entry.change :=
  ⟨⟨[], ['#'], 1, by decide, by decide, by decide⟩,
    [banAt 'a' 100 (by decide) (by decide), banAt 'b' 200 (by decide) (by decide),
      banAt 'c' 300 (by decide) (by decide)], by decide +kernel⟩

end Nmode

end Chaosircd
