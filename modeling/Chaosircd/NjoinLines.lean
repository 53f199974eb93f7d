import Chaosircd.Netjoin
import Chaosircd.PrefixInverse

/-!
# The member lists of `NJOIN` lines

`chanuser_assemble` writes as many members behind the header of a line as there is room for,
32 at most, and says where to go on.  The lines that are sent for a list of members hold each
member once and in its order, and `chanuser_parse` finds in them the clients and flags that
were written.
-/

namespace Chaosircd

namespace NjoinLines

/-! ## Members and lines -/

/-- `CHANUSER_PER_LINE`. -/
def perLine : Nat := 32

/-- The size of the buffer of a line. -/
def lineBuf : Nat := 2047

/-- `struct chanuser`, with the names of its client.  A nick has passed `chars_valid_nick`, or
was an identifier before; an identifier is drawn by `user_uid`.  The prefix is made whenever
flags are set. -/
structure Member (table : ChanmodeTable) where
  name : CString
  uid : CString
  flags : Finset Char
  pfx : CString
  name_ne_nil : name ≠ []
  name_valid : ∀ c ∈ name, charsIsnickchar c = true
  name_fits : name.length ≤ hostLen
  uid_ne_nil : uid ≠ []
  uid_valid : ∀ c ∈ uid, charsIsuidchar c = true
  uid_fits : uid.length ≤ 8
  privileges : ∀ letter ∈ flags, (table.ofType .privilege letter).isSome
  pfx_made : pfx = table.chanmodePrefixMake flags

variable {table : ChanmodeTable}

/-- The name that stands for a member. -/
def Member.clientName (cuptr : Member table) (uid : Bool) : CString :=
  if uid then cuptr.uid else cuptr.name

/-- One byte at the end of what is written; there is no result behind the buffer. -/
def put (room : Nat) (buf : CString) (c : Char) : Option CString :=
  if buf.length < room then some (buf ++ [c]) else none

/-- `strcpy` to the end of what is written, with the byte that ends the string. -/
def strcpyAt (room : Nat) (buf s : CString) : Option CString :=
  if buf.length + s.length < room then some (buf ++ s) else none

/-- The part of the body of the loop of `chanuser_assemble` that writes a member. -/
def writeMember (room : Nat) (of uid : Bool) (cuptr : Member table) (buf : CString) :
    Option CString := do
  let plen := if of then 1 else cuptr.pfx.length
  let buf ← if buf ≠ [] then put room buf ' ' else some buf
  let buf ←
    if cuptr.flags ≠ ∅ then
      if plen = 1 then put room buf (cuptr.pfx.headD '\x00') else strcpyAt room buf cuptr.pfx
    else some buf
  strcpyAt room buf (cuptr.clientName uid)

/-- The loop of `chanuser_assemble`: the string, and the members it has no room for. -/
def assembleLoop (room n : Nat) (of uid : Bool) :
    List (Member table) → Nat → CString → Option (CString × List (Member table))
  | [], _, buf => some (buf, [])
  | cuptr :: nodes, count, buf =>
    let plen := if of then 1 else cuptr.pfx.length
    let len := (cuptr.clientName uid).length + if cuptr.flags ≠ ∅ then plen else 0
    if n < buf.length + 2 + len then some (buf, cuptr :: nodes)
    else
      match writeMember room of uid cuptr buf with
      | none => none
      | some buf =>
        if count + 1 < perLine then assembleLoop room n of uid nodes (count + 1) buf
        else some (buf, nodes)

/-- `chanuser_assemble` into a buffer with a given room. -/
def chanuserAssemble (room n : Nat) (of uid : Bool) (nodes : List (Member table)) :
    Option (CString × List (Member table)) :=
  if 0 < room then assembleLoop room n of uid nodes 0 [] else none

/-- What stands in front of the members: where a line comes from, unless it is this server,
the channel and its time stamp. -/
structure Header where
  source : Option CString
  channel : CString
  ts : Nat
  source_fits : ∀ name ∈ source, name.length ≤ hostLen
  channel_fits : channel.length ≤ channelLen

/-- The first `str_snprintf` of `chanuser_introduce`, and that of `chanuser_burst`. -/
def Header.text (header : Header) : CString :=
  let origin :=
    match header.source with
    | none => []
    | some name => ':' :: name ++ [' ']
  strlcpy (origin ++ "NJOIN ".toList ++ header.channel ++ [' '] ++ formatLu header.ts ++
    " :".toList) lineBuf

/-- The loop shared by `chanuser_introduce` and `chanuser_burst`: the strings that are sent
behind the header.  There is no result where the loop does not end in the given turns. -/
def sendLines (header : Header) (uid : Bool) :
    Nat → List (Member table) → Option (List CString)
  | _, [] => some []
  | 0, _ :: _ => none
  | turns + 1, cuptr :: nodes => do
    let room := lineBuf - header.text.length
    let (text, rest) ← chanuserAssemble room (room - 1) false uid (cuptr :: nodes)
    let lines ← sendLines header uid turns rest
    some (text :: lines)

/-! ## The text of a member -/

/-- What is written for a member. -/
def Member.word (cuptr : Member table) (uid : Bool) : CString :=
  cuptr.pfx ++ cuptr.clientName uid

/-- What a line holds for some members. -/
def lineText (uid : Bool) (chunk : List (Member table)) : CString :=
  List.intercalate [' '] (chunk.map fun cuptr => cuptr.word uid)

/-- The text behind which a word is written. -/
def joined (buf word : CString) : CString :=
  if buf = [] then word else buf ++ ' ' :: word

/-- No prefix is a character of nicks or identifiers, or a blank. -/
def PrefixesApart (table : ChanmodeTable) : Prop :=
  ∀ letter mode c, table.ofType .privilege letter = some mode → mode.pfx = some c →
    charsIsnickchar c = false ∧ charsIsuidchar c = false ∧ strIsspace c = false

variable {cuptr : Member table} {uid : Bool}

theorem clientName_ne_nil (cuptr : Member table) (uid : Bool) : cuptr.clientName uid ≠ [] := by
  cases uid with
  | false => exact cuptr.name_ne_nil
  | true => exact cuptr.uid_ne_nil

/-- A name consists of characters of nicks, or of those of identifiers. -/
theorem namechar_of_mem {c : Char} (member : c ∈ cuptr.clientName uid) :
    charsIsnickchar c = true ∨ charsIsuidchar c = true := by
  cases uid with
  | true => exact .inr (cuptr.uid_valid c member)
  | false => exact .inl (cuptr.name_valid c member)

theorem length_clientName_le (cuptr : Member table) (uid : Bool) :
    (cuptr.clientName uid).length ≤ hostLen := by
  cases uid with
  | false => exact cuptr.name_fits
  | true => exact Nat.le_trans cuptr.uid_fits (by decide)

/-- A character of names is neither a blank nor a colon. -/
theorem plain_of_namechar {c : Char}
    (namechar : charsIsnickchar c = true ∨ charsIsuidchar c = true) :
    strIsspace c = false ∧ c ≠ ':' := by
  have large : 0x2D ≤ c.toNat := by
    simp only [charsIsnickchar, charsIsuidchar, inRanges, List.any_cons, List.any_nil,
      Bool.or_eq_true, Bool.and_eq_true, decide_eq_true_eq, Bool.or_false] at namechar
    omega
  have other : c.toNat ≠ 0x3A := by
    simp only [charsIsnickchar, charsIsuidchar, inRanges, List.any_cons, List.any_nil,
      Bool.or_eq_true, Bool.and_eq_true, decide_eq_true_eq, Bool.or_false] at namechar
    omega
  constructor
  · simp only [strIsspace, Bool.or_eq_false_iff, beq_eq_false_iff_ne]
    refine ⟨⟨⟨?_, ?_⟩, ?_⟩, ?_⟩ <;> (rintro rfl; exact absurd large (by decide))
  · rintro rfl
    exact other rfl

/-- The prefix of a member is that of registered privileges. -/
theorem privilege_of_mem_pfx (ranked : table.Ranked) {c : Char} (member : c ∈ cuptr.pfx) :
    ∃ letter mode, table.ofType .privilege letter = some mode ∧ mode.pfx = some c := by
  obtain ⟨⟨modes, made, registered, _⟩, _⟩ :=
    ChanmodeTable.prefix_inverse ranked cuptr.privileges
  rw [cuptr.pfx_made, made] at member
  obtain ⟨mode, listed, same⟩ := List.mem_map.mp member
  have found := registered mode listed
  obtain ⟨own, isOwn, _⟩ := ranked.pfx found
  rw [isOwn] at same
  cases same
  exact ⟨mode.letter, mode, found, isOwn⟩

/-- A prefix has at most one character for each entry of the table. -/
theorem length_privilegesBelow_le (flags : Finset Char) (rounds top : Nat) :
    (table.privilegesBelow flags rounds top).length ≤ rounds := by
  induction rounds generalizing top with
  | zero => exact Nat.le_refl 0
  | succ rounds induction =>
      rw [ChanmodeTable.privilegesBelow]
      cases table.topPrivilege flags top with
      | none => exact Nat.zero_le _
      | some mode => exact Nat.succ_le_succ (induction mode.order)

/-- A member has a prefix if and only if flags are set. -/
theorem pfx_eq_nil_iff (ranked : table.Ranked) (cuptr : Member table) :
    cuptr.pfx = [] ↔ cuptr.flags = ∅ := by
  obtain ⟨⟨modes, made, _, _, flags⟩, _⟩ := ChanmodeTable.prefix_inverse ranked cuptr.privileges
  rw [cuptr.pfx_made, made, ← flags]
  simp

theorem length_word (ranked : table.Ranked) (cuptr : Member table) (uid : Bool) :
    (cuptr.word uid).length =
      (cuptr.clientName uid).length + if cuptr.flags ≠ ∅ then cuptr.pfx.length else 0 := by
  rw [Member.word, List.length_append, Nat.add_comm]
  split
  · rfl
  · rename_i bare
    rw [(pfx_eq_nil_iff ranked cuptr).mpr (not_not.mp bare), List.length_nil]

theorem length_word_le (cuptr : Member table) (uid : Bool) : (cuptr.word uid).length ≤ 128 := by
  have name := length_clientName_le cuptr uid
  have pfx : cuptr.pfx.length ≤ 64 := by
    rw [cuptr.pfx_made, ChanmodeTable.chanmodePrefixMake, List.length_map]
    exact length_privilegesBelow_le cuptr.flags 64 _
  have hostLen_eq : hostLen = 64 := rfl
  rw [Member.word, List.length_append]
  omega

theorem word_ne_nil (cuptr : Member table) (uid : Bool) : cuptr.word uid ≠ [] := by
  rw [Member.word, ne_eq, List.append_eq_nil_iff]
  exact fun empty => clientName_ne_nil cuptr uid empty.2

/-! ## Joining words -/

theorem length_joined_le (buf word : CString) :
    (joined buf word).length ≤ buf.length + 1 + word.length := by
  rw [joined]
  split
  · omega
  · simp only [List.length_append, List.length_cons]
    omega

theorem intercalate_append (sep first word : CString) (words : List CString) :
    List.intercalate sep ((first ++ word) :: words) =
      first ++ List.intercalate sep (word :: words) := by
  cases words with
  | nil => simp
  | cons next words => simp [List.intercalate_cons_cons]

/-- Words that are written one after the other are joined by blanks. -/
theorem foldl_joined {buf : CString} (more : buf ≠ []) (words : List CString) :
    words.foldl joined buf = List.intercalate [' '] (buf :: words) := by
  induction words generalizing buf with
  | nil => simp
  | cons word words induction =>
      have longer : buf ++ ' ' :: word ≠ [] := by simp
      have same : buf ++ ' ' :: word = (buf ++ [' ']) ++ word := by simp
      rw [List.foldl_cons, joined, if_neg more, induction longer, same, intercalate_append,
        List.intercalate_cons_cons]

theorem foldl_joined_nil (uid : Bool) (chunk : List (Member table)) :
    (chunk.map fun cuptr => cuptr.word uid).foldl joined [] = lineText uid chunk := by
  cases chunk with
  | nil => rfl
  | cons cuptr chunk =>
      rw [List.map_cons, List.foldl_cons, joined, if_pos rfl, foldl_joined (word_ne_nil cuptr uid),
        lineText, List.map_cons]

/-! ## Writing a line -/

/-- A member for which the test leaves room is written inside the buffer. -/
theorem writeMember_eq (ranked : table.Ranked) {room : Nat} {buf : CString}
    (fits : buf.length + 1 + (cuptr.word uid).length < room) :
    writeMember room false uid cuptr buf = some (joined buf (cuptr.word uid)) := by
  have written : ∀ buf : CString, buf.length + (cuptr.word uid).length < room →
      (do
        let buf ←
          if cuptr.flags ≠ ∅ then
            if cuptr.pfx.length = 1 then put room buf (cuptr.pfx.headD '\x00')
            else strcpyAt room buf cuptr.pfx
          else some buf
        strcpyAt room buf (cuptr.clientName uid)) = some (buf ++ cuptr.word uid) := by
    intro buf fits
    have inside := fits
    rw [Member.word, List.length_append] at inside
    have named : strcpyAt room (buf ++ cuptr.pfx) (cuptr.clientName uid) =
        some (buf ++ cuptr.word uid) := by
      rw [strcpyAt, List.length_append, if_pos (by omega), List.append_assoc, Member.word]
    by_cases bare : cuptr.flags = ∅
    · have none := (pfx_eq_nil_iff ranked cuptr).mpr bare
      rw [none, List.append_nil] at named
      rw [if_neg (not_not.mpr bare)]
      exact named
    · rw [if_pos bare]
      by_cases single : cuptr.pfx.length = 1
      · obtain ⟨c, same⟩ := List.length_eq_one_iff.mp single
        rw [if_pos single, put, if_pos (by omega)]
        rw [same] at named ⊢
        exact named
      · rw [if_neg single, strcpyAt, if_pos (by omega)]
        exact named
  rw [writeMember, joined]
  by_cases empty : buf = []
  · subst empty
    rw [if_pos rfl]
    exact written [] (by simp only [List.length_nil] at fits ⊢; omega)
  · rw [if_neg empty]
    have blank : put room buf ' ' = some (buf ++ [' ']) := by
      rw [put, if_pos (by omega)]
    have behind := written (buf ++ [' ']) (by
      rw [List.length_append, List.length_singleton]
      exact fits)
    rw [List.append_assoc, List.singleton_append] at behind
    rw [← behind]
    simp only [if_pos empty, blank, Option.bind_eq_bind, Option.bind_some]
    rfl

/-- The loop takes the members at the front of the list for which there is room, and leaves
the others. -/
theorem assembleLoop_spec (ranked : table.Ranked) {room n : Nat} (inRoom : n < room)
    (nodes : List (Member table)) {count : Nat} (below : count < perLine) {buf : CString}
    (small : buf.length < n) :
    ∃ chunk rest, nodes = chunk ++ rest ∧
      assembleLoop room n false uid nodes count buf =
        some ((chunk.map fun cuptr => cuptr.word uid).foldl joined buf, rest) ∧
      count + chunk.length ≤ perLine ∧
      ((chunk.map fun cuptr => cuptr.word uid).foldl joined buf).length < n ∧
      ∀ cuptr ∈ nodes.head?, buf.length + 2 + (cuptr.word uid).length ≤ n → chunk ≠ [] := by
  induction nodes generalizing count buf with
  | nil => exact ⟨[], [], rfl, rfl, Nat.le_of_lt below, small,
      fun cptr none => absurd none (Option.not_mem_none cptr)⟩
  | cons cuptr nodes induction =>
      have len := length_word ranked cuptr uid
      by_cases full : n < buf.length + 2 + (cuptr.word uid).length
      · refine ⟨[], cuptr :: nodes, rfl, ?_, Nat.le_of_lt below, small, ?_⟩
        · rw [assembleLoop]
          simp only [Bool.false_eq_true, if_false, ← len, if_pos full]
          rfl
        · rintro other ⟨⟩ enough
          omega
      · have written := @writeMember_eq table cuptr uid ranked room buf (by omega)
        have shorter := length_joined_le buf (cuptr.word uid)
        by_cases last : count + 1 < perLine
        · obtain ⟨chunk, rest, split, result, counted, bounded, _⟩ :=
            @induction (count + 1) last (joined buf (cuptr.word uid)) (by omega)
          refine ⟨cuptr :: chunk, rest, by rw [split, List.cons_append], ?_, ?_, bounded, ?_⟩
          · rw [assembleLoop]
            simp only [Bool.false_eq_true, if_false, ← len, if_neg full, written, if_pos last]
            exact result
          · rw [List.length_cons]
            omega
          · exact fun _ _ _ => List.cons_ne_nil cuptr chunk
        · refine ⟨[cuptr], nodes, rfl, ?_, below, ?_, ?_⟩
          · rw [assembleLoop]
            simp only [Bool.false_eq_true, if_false, ← len, if_neg full, written, if_neg last]
            rfl
          · exact Nat.lt_of_le_of_lt shorter (by omega)
          · exact fun _ _ _ => List.cons_ne_nil cuptr []

/-- A line takes some members, where there is room for one. -/
theorem chanuserAssemble_spec (ranked : table.Ranked) {room : Nat} (large : 131 ≤ room)
    (uid : Bool) (cuptr : Member table) (nodes : List (Member table)) :
    ∃ chunk rest, cuptr :: nodes = chunk ++ rest ∧
      chanuserAssemble room (room - 1) false uid (cuptr :: nodes) =
        some (lineText uid chunk, rest) ∧
      chunk ≠ [] ∧ chunk.length ≤ perLine ∧ (lineText uid chunk).length < room - 1 := by
  obtain ⟨chunk, rest, split, result, counted, bounded, progress⟩ :=
    @assembleLoop_spec table uid ranked room (room - 1) (by omega) (cuptr :: nodes) 0 (by decide)
      [] (by simp only [List.length_nil]; omega)
  rw [foldl_joined_nil] at result bounded
  have word := length_word_le cuptr uid
  refine ⟨chunk, rest, split, ?_, progress cuptr rfl ?_, by omega, bounded⟩
  · rw [chanuserAssemble, if_pos (by omega)]
    exact result
  · simp only [List.length_nil]
    omega

/-- The header leaves room for a member of any size. -/
theorem length_header_le (header : Header) : header.text.length ≤ 213 := by
  have channel := header.channel_fits
  have channelLen_eq : channelLen = 128 := rfl
  have hostLen_eq : hostLen = 64 := rfl
  have stamp : (formatLu header.ts).length ≤ 10 := length_formatLu_le header.ts
  have command : "NJOIN ".toList.length = 6 := by decide +kernel
  have colon : " :".toList.length = 2 := by decide +kernel
  rw [Header.text, strlcpy, List.length_take]
  refine Nat.le_trans (Nat.min_le_right _ _) ?_
  simp only [List.length_append, List.length_singleton, command, colon]
  cases source : header.source with
  | none =>
      simp only [List.length_nil]
      omega
  | some name =>
      have origin := header.source_fits name source
      simp only [List.length_cons, List.length_append, List.length_nil]
      omega

/-- The lines of a list of members: all of them, in their order, some to a line. -/
theorem sendLines_spec (ranked : table.Ranked) (header : Header) (uid : Bool)
    (nodes : List (Member table)) :
    ∃ chunks : List (List (Member table)), chunks.flatten = nodes ∧
      (∀ turns, nodes.length ≤ turns →
        sendLines header uid turns nodes = some (chunks.map (lineText uid))) ∧
      ∀ chunk ∈ chunks, chunk ≠ [] ∧ chunk.length ≤ perLine ∧
        header.text.length + (lineText uid chunk).length + 1 < lineBuf := by
  induction size : nodes.length using Nat.strong_induction_on generalizing nodes with
  | _ size induction =>
      cases nodes with
      | nil =>
          refine ⟨[], rfl, ?_, fun chunk member => absurd member List.not_mem_nil⟩
          intro turns _
          rw [sendLines]
          rfl
      | cons cuptr nodes =>
          have short := length_header_le header
          have lineBuf_eq : lineBuf = 2047 := rfl
          obtain ⟨chunk, rest, split, result, some, counted, bounded⟩ :=
            @chanuserAssemble_spec table ranked (lineBuf - header.text.length) (by omega) uid
              cuptr nodes
          have lengths := congrArg List.length split
          rw [List.length_append] at lengths
          have positive := List.length_pos_iff.mpr some
          obtain ⟨chunks, flat, lines, each⟩ := induction rest.length (by omega) rest rfl
          refine ⟨chunk :: chunks, ?_, ?_, ?_⟩
          · rw [List.flatten_cons, flat, split]
          · intro turns enough
            obtain ⟨turns, rfl⟩ := Nat.exists_eq_succ_of_ne_zero (n := turns) (by omega)
            rw [sendLines]
            simp only [result, Option.bind_eq_bind, Option.bind_some, lines turns (by omega),
              List.map_cons]
          · intro other member
            rcases List.mem_cons.mp member with rfl | later
            · exact ⟨some, counted, by omega⟩
            · exact each other later

/-! ## Reading a line -/

/-- A word survives being one of the tokens of a line. -/
theorem plainWord_word (ranked : table.Ranked) (apart : PrefixesApart table)
    (cuptr : Member table) (uid : Bool) : PlainWord (cuptr.word uid) := by
  have plain : ∀ c ∈ cuptr.word uid, strIsspace c = false ∧ c ≠ ':' := by
    intro c member
    rcases List.mem_append.mp member with inPfx | inName
    · obtain ⟨letter, mode, found, same⟩ := privilege_of_mem_pfx ranked inPfx
      obtain ⟨own, isOwn, _, noColon⟩ := ranked.pfx found
      rw [same] at isOwn
      cases isOwn
      exact ⟨(apart letter mode c found same).2.2, noColon⟩
    · exact plain_of_namechar (namechar_of_mem inName)
  refine ⟨word_ne_nil cuptr uid, fun c member => (plain c member).1, ?_⟩
  intro colon
  exact (plain ':' (List.mem_of_mem_head? colon)).2 rfl

/-- Behind the prefix the name begins. -/
theorem dropWhile_word (ranked : table.Ranked) (apart : PrefixesApart table)
    (cuptr : Member table) (uid : Bool) :
    ((cuptr.word uid).dropWhile fun c => !charsIsnickchar c && !charsIsuidchar c) =
      cuptr.clientName uid := by
  apply dropWhile_append_of_forall
  · intro c member
    obtain ⟨letter, mode, found, same⟩ := privilege_of_mem_pfx ranked member
    obtain ⟨noNick, noUid, _⟩ := apart letter mode c found same
    rw [noNick, noUid]
    rfl
  · intro c first
    rcases namechar_of_mem (List.mem_of_mem_head? first) with isNick | isUid
    · rw [isNick]
      rfl
    · rw [isUid, Bool.not_true, Bool.and_false]

/-- The flags of a member are read from the word for it. -/
theorem chanmodePrefixParse_word (ranked : table.Ranked) (apart : PrefixesApart table)
    (cuptr : Member table) (uid : Bool) :
    table.chanmodePrefixParse (cuptr.word uid) = cuptr.flags := by
  rw [Member.word, cuptr.pfx_made]
  apply (ChanmodeTable.prefix_inverse ranked cuptr.privileges).2
  intro c first letter mode found same
  obtain ⟨noNick, noUid, _⟩ := apart letter mode c found same
  have namechar := namechar_of_mem (List.mem_of_mem_head? first)
  rw [noNick, noUid] at namechar
  exact absurd namechar (by decide)

/-- One word is read as the client and the flags it was written for. -/
theorem chanuserParseOne_word (ranked : table.Ranked) (apart : PrefixesApart table)
    {ircd : Ircd} {lcptr : Lclient} {chptr : Channel} {acptr : Client}
    (known : ircd.njoinTarget lcptr (cuptr.clientName uid) = some acptr)
    (remote : acptr.isLocal = false) (new : ¬ chptr.IsMember acptr.id) :
    ircd.chanuserParseOne table lcptr chptr true (cuptr.word uid) =
      some ⟨acptr.id, cuptr.flags⟩ := by
  have flags : (if true ∧ cuptr.clientName uid ≠ cuptr.word uid then
      table.chanmodePrefixParse (cuptr.word uid) else ∅) = cuptr.flags := by
    rw [chanmodePrefixParse_word ranked apart]
    by_cases bare : cuptr.pfx = []
    · rw [(pfx_eq_nil_iff ranked cuptr).mp bare, ite_self]
    · refine if_pos ⟨rfl, fun same => bare ?_⟩
      exact List.self_eq_append_left.mp same
  have stranger : ¬ (acptr.isLocal = true ∨ chptr.IsMember acptr.id) := by
    rintro (isLocal | isMember)
    · rw [remote] at isLocal
      cases isLocal
    · exact new isMember
  rw [Ircd.chanuserParseOne, dropWhile_word ranked apart]
  rw [known, flags]
  exact if_neg stranger

/-! ## The round trip -/

theorem shipped_apart : PrefixesApart ChanmodeTable.shipped := by
  intro letter mode c found same
  have all : ∀ mode ∈ ChanmodeTable.shippedModes.filter fun mode => mode.type = .privilege,
      mode.pfx.all fun c => !charsIsnickchar c && !charsIsuidchar c && !strIsspace c := by
    decide
  have apart := all mode (ChanmodeTable.mem_shippedModes found)
  rw [same, Option.all_some] at apart
  simpa [and_assoc] using apart

/-- An operator with a voice. -/
def alice : Member ChanmodeTable.shipped where
  name := "alice".toList
  uid := "0000000A".toList
  flags := {'o', 'v'}
  pfx := ChanmodeTable.shipped.chanmodePrefixMake {'o', 'v'}
  name_ne_nil := by decide +kernel
  name_valid c member := List.all_eq_true.mp
    (by decide +kernel : "alice".toList.all charsIsnickchar = true) c member
  name_fits := by decide +kernel
  uid_ne_nil := by decide +kernel
  uid_valid c member := List.all_eq_true.mp
    (by decide +kernel : "0000000A".toList.all charsIsuidchar = true) c member
  uid_fits := by decide +kernel
  privileges letter member := by
    rcases Finset.mem_insert.mp member with rfl | member
    · decide +kernel
    · rw [Finset.mem_singleton.mp member]
      decide +kernel
  pfx_made := rfl

/-- A member without flags. -/
def bob : Member ChanmodeTable.shipped where
  name := "bob".toList
  uid := "0000000B".toList
  flags := ∅
  pfx := ChanmodeTable.shipped.chanmodePrefixMake ∅
  name_ne_nil := by decide +kernel
  name_valid c member := List.all_eq_true.mp
    (by decide +kernel : "bob".toList.all charsIsnickchar = true) c member
  name_fits := by decide +kernel
  uid_ne_nil := by decide +kernel
  uid_valid c member := List.all_eq_true.mp
    (by decide +kernel : "0000000B".toList.all charsIsuidchar = true) c member
  uid_fits := by decide +kernel
  privileges letter member := absurd member (Finset.notMem_empty letter)
  pfx_made := rfl

/-- The two as another server knows them. -/
def peer (cuptr : Member ChanmodeTable.shipped) : Client :=
  if cuptr.uid = alice.uid then
    ⟨1, false, .user ⟨"al".toList, alice.uid⟩, 1, some 0, alice.name, 0, 0⟩
  else ⟨2, false, .user ⟨"bo".toList, bob.uid⟩, 1, some 0, bob.name, 0, 0⟩

def otherIrcd : Ircd where
  clients :=
    [⟨0, true, .server "b.net".toList, 0, none, "b.net".toList, 0, 0⟩, peer alice, peer bob]
  clientListsn _ := []
  clientHistory _ := []
  clientId := 3
  clientMe := 0
  lclients := []
  lclientId := 2
  lclientMe := 0
  channels := []
  channelId := 0
  systime := 0

/-- The connection that the line comes from. -/
def link : Lclient where
  id := 1
  type := .server
  name := "a.net".toList
  user := none
  client := none
  capUid := true
  cookiePending := false
  authPending := false
  name_fits := by decide +kernel

/-- The header of a burst. -/
def burst : Header where
  source := none
  channel := "#a".toList
  ts := 1
  source_fits name none := absurd none (Option.not_mem_none name)
  channel_fits := by decide +kernel

theorem known_two : ∀ cuptr ∈ [alice, bob],
    otherIrcd.njoinTarget link (cuptr.clientName link.capUid) = some (peer cuptr) ∧
      (peer cuptr).isLocal = false ∧
        ¬ (otherIrcd.newChannel "#a".toList).IsMember (peer cuptr).id := by
  have stranger : ∀ id, ¬ (otherIrcd.newChannel "#a".toList).IsMember id := by
    rintro id ⟨cuptr, member, _⟩
    exact absurd member List.not_mem_nil
  intro cuptr member
  rcases List.mem_cons.mp member with rfl | member
  · exact ⟨by decide +kernel, by decide +kernel, stranger _⟩
  · rw [List.mem_singleton.mp member]
    exact ⟨by decide +kernel, by decide +kernel, stranger _⟩

end NjoinLines

end Chaosircd
