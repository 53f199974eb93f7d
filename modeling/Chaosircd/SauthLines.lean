import Chaosircd.NetAddress
import Chaosircd.Regions
import Chaosircd.ServauthQueries
import Chaosircd.TokenizeInPlace

/-!
# Lines from servauth

What the child answers is split into words, and the first of them says what it is about.  How
many words there are is not looked at: a word that is missing is a null pointer at first, and
behind it there are slots that nobody has filled.  A reply from the user database is not taken
from the words, but looked for in the line once more.
-/

namespace Chaosircd

namespace SauthLines

/-! ## Texts in memory -/

/-- `*p`, where the buffer ends with the line. -/
def readAt (buf : List Char) (p : Nat) : Except Fault Char :=
  match buf[p]? with
  | none => .error .overread
  | some c => .ok c

/-- `*p = c`. -/
def writeAt (buf : List Char) (p : Nat) (c : Char) : Except Fault (List Char) :=
  if p < buf.length then .ok (buf.set p c) else .error .overrun

/-- A function that is given a string reads it up to its terminator. -/
def textAt (buf : List Char) : Option Nat → Except Fault CString
  | none => .error .overread
  | some a => if '\x00' ∈ buf.drop a then .ok (beforeNul (buf.drop a)) else .error .overread

/-- The vector of `sauth_read`, and the copy of the line that it points into. -/
structure Argv where
  bytes : List Char
  slots : Slots

/-- `argv[i]`. -/
def Argv.slot (argv : Argv) (i : Nat) : Except Fault (Option Nat) :=
  if i ∈ argv.slots.stored then .ok (argv.slots.v i) else .error .unset

/-- The string at `argv[i]`. -/
def Argv.text (argv : Argv) (i : Nat) : Except Fault CString := do
  let a ← argv.slot i
  textAt argv.bytes a

/-! ## `sauth_parse` -/

/-- `isspace`. -/
def isspace (c : Char) : Bool :=
  c == ' ' || c == '\t' || c == '\n' || c == '\x0b' || c == '\x0c' || c == '\r'

/-- `str_toi`, as the number that `sauth_find` is given. -/
def strToi (s : CString) : Nat :=
  let p := s.dropWhile fun c => !strIsdigit c && c != '-'
  let sign := p.head? = some '-'
  let digits := (if sign then p.tail else p).takeWhile strIsdigit
  let i := digits.foldl (fun i c => (i * 10 + (c.toNat - '0'.toNat)) % 2 ^ 32) 0
  if sign then (2 ^ 32 - i) % 2 ^ 32 else i

/-- `sauth_replies`. -/
def sauthReplies : List CString :=
  ["none".toList, "timeout".toList, "filtered".toList, "closed".toList, "denied".toList,
    "n/a".toList, "open".toList]

/-- `sauth_proxy_reply`. -/
def sauthProxyReply (reply : CString) : Int :=
  match sauthReplies.findIdx? fun name => IcmpEq name reply with
  | some i => i
  | none => -1

/-- What a query is told: an address, unless it cannot be read, a host, a user name, the state of
a proxy, or what the user database has, with its place in the line. -/
inductive Answer where
  | addr (addr : Option Nat)
  | host (host : CString)
  | ident (ident : CString)
  | reply (reply : Int)
  | userargs (reply : Nat) (userargs : CString)
  deriving DecidableEq

/-- What becomes of a line.  The first two are for no query. -/
inductive Parsed where
  | invalid
  | ignored
  | done (serial : Nat) (answer : Answer)
  | error (serial : Nat)
  deriving DecidableEq

/-- What the user database has said. -/
def Parsed.userargs : Parsed → Option CString
  | .done _ (.userargs _ userargs) => some userargs
  | _ => none

/-- `while(p && q(*p)) ++p`. -/
def skipLoop (q : Char → Bool) (buf : List Char) : Nat → Nat → Except Fault Nat
  | 0, _ => .error .endless
  | turns + 1, p => do
    let c ← readAt buf p
    if q c then skipLoop q buf turns (p + 1) else pure p

/-- The loop over the words before the answer of the user database. -/
def skipWords (buf : List Char) : Nat → Nat → Except Fault Nat
  | 0, p => .ok p
  | words + 1, p => do
    let p ← skipLoop (fun c => !isspace c) buf (buf.length + 1) p
    let p ← skipLoop isspace buf (buf.length + 1) p
    skipWords buf words p

/-- `while(e > p)`. -/
def trimLoop (p : Nat) : Nat → List Char → Except Fault (List Char)
  | 0, buf => .ok buf
  | e + 1, buf =>
    if p < e + 1 then do
      let c ← readAt buf e
      if isspace c then
        let buf ← writeAt buf e '\x00'
        trimLoop p e buf
      else pure buf
    else .ok buf

/-- A line that starts with `dns`. -/
def parseDns (s : ServauthQueries.State) (argv : Argv) : Except Fault Parsed := do
  let id ← argv.text 2
  match s.sauthFind (strToi id) with
  | none => pure .ignored
  | some sauth =>
    if sauth.type = .dnsf then
      let what ← argv.text 1
      if IcmpEq what "forward".toList then
        let a ← argv.slot 3
        if a = none then pure (.done sauth.serial (.addr (some 0)))
        else
          let address ← textAt argv.bytes a
          pure (.done sauth.serial (.addr (netAton address)))
      else pure (.error sauth.serial)
    else if sauth.type = .dnsr then
      let what ← argv.text 1
      if IcmpEq what "reverse".toList then
        let a ← argv.slot 3
        if a = none then pure (.done sauth.serial (.host []))
        else
          let host ← textAt argv.bytes a
          pure (.done sauth.serial (.host (strlcpy host 65)))
      else pure (.error sauth.serial)
    else pure (.error sauth.serial)

/-- A line that starts with `auth`. -/
def parseAuth (s : ServauthQueries.State) (argv : Argv) : Except Fault Parsed := do
  let id ← argv.text 1
  match s.sauthFind (strToi id) with
  | none => pure .ignored
  | some sauth =>
    let a ← argv.slot 2
    if a = none then pure (.done sauth.serial (.ident []))
    else
      let ident ← textAt argv.bytes a
      pure (.done sauth.serial (.ident (strlcpy ident 33)))

/-- A line that starts with `proxy`. -/
def parseProxy (s : ServauthQueries.State) (argv : Argv) : Except Fault Parsed := do
  let id ← argv.text 1
  match s.sauthFind (strToi id) with
  | none => pure .ignored
  | some sauth =>
    let reply ← argv.text 2
    pure (.done sauth.serial (.reply (sauthProxyReply reply)))

/-- A line that starts with `userdb`, which is still in `sauth_readbuf` too. -/
def parseUserdb (s : ServauthQueries.State) (argv : Argv) (readbuf : List Char) :
    Except Fault Parsed := do
  let id ← argv.text 1
  match s.sauthFind (strToi id) with
  | none => pure .ignored
  | some sauth =>
    let p ← skipWords readbuf 3 0
    let line ← textAt readbuf (some 0)
    let readbuf ← trimLoop p line.length readbuf
    let userargs ← textAt readbuf (some p)
    pure (.done sauth.serial (.userargs p userargs))

/-- `sauth_parse`. -/
def sauthParse (s : ServauthQueries.State) (argv : Argv) (readbuf : List Char) :
    Except Fault Parsed := do
  let type ← argv.text 0
  if IcmpEq type "dns".toList then parseDns s argv
  else if IcmpEq type "auth".toList then parseAuth s argv
  else if IcmpEq type "proxy".toList then parseProxy s argv
  else if IcmpEq type "userdb".toList then parseUserdb s argv readbuf
  else pure .invalid

/-- `str_tokenize(s, argv, 5)` on a copy of the line; nobody has filled the vector. -/
def tokenized (line : CString) : LineScan × Slots :=
  LineScan.strTokenizeInto 5 ⟨line ++ ['\x00'], 0, []⟩ fun _ => none

/-- A line in `sauth_read`. -/
def sauthRead (s : ServauthQueries.State) (line : CString) : Except Fault Parsed :=
  sauthParse s ⟨(tokenized line).1.bytes, (tokenized line).2⟩ (line ++ ['\x00'])

/-! ## The words of a line -/

/-- The vector after the split: a pointer for each word, a null pointer behind them, and slots
that were not filled. -/
structure Holds (argv : Argv) (words : List CString) : Prop where
  word : ∀ i word, words[i]? = some word →
    ∃ a, argv.slot i = .ok (some a) ∧ textAt argv.bytes (some a) = .ok word
  null : argv.slot words.length = .ok none
  unset : ∀ i, words.length < i → argv.slot i = .error .unset

theorem mem_stored_foldl (slots : Slots) (starts : List Nat) (i : Nat) :
    i ∈ (starts.foldl Slots.push slots).stored ↔
      i ∈ slots.stored ∨ slots.c ≤ i ∧ i < slots.c + starts.length := by
  induction starts generalizing slots with
  | nil =>
      rw [List.foldl_nil, List.length_nil]
      exact ⟨.inl, fun stored => stored.resolve_right (by omega)⟩
  | cons start starts ih =>
      have count : (slots.push start).c = slots.c + 1 := rfl
      have stored : (slots.push start).stored = slots.c :: slots.stored := rfl
      rw [List.foldl_cons, ih, count, stored, List.mem_cons, List.length_cons]
      constructor
      · rintro ((here | before) | later)
        · exact .inr (by omega)
        · exact .inl before
        · exact .inr (by omega)
      · rintro (before | inside)
        · exact .inl (.inr before)
        · rcases Nat.eq_or_lt_of_le inside.1 with here | later
          · exact .inl (.inl here.symm)
          · exact .inr (by omega)

/-- No word starts behind the line. -/
theorem start_le_of_tokenizeLoop {length : Nat} {scan : LineScan} (room : Nat)
    (inside : LineScan.Inside length scan) : ∀ a ∈ (LineScan.tokenizeLoop room scan).2, a ≤ length := by
  induction room generalizing scan with
  | zero => exact fun a member => absurd member List.not_mem_nil
  | succ room ih =>
      have start := (inside.clear strIsspace).look
      have bound := start.s_le
      rw [LineScan.tokenizeLoop]
      dsimp only
      split
      · exact fun a member => absurd member List.not_mem_nil
      · rename_i more
        have before := start.lt more
        split
        · intro a member
          rw [List.mem_singleton.mp member]
          exact before
        · split
          · intro a member
            rw [List.mem_singleton.mp member]
            exact bound
          · intro a member
            rcases List.mem_cons.mp member with rfl | member
            · exact bound
            · exact ih (start.skip fun c => !strIsspace c) a member

variable {line : CString}

theorem tokenized_splits (noNul : '\x00' ∉ line) :
    LineScan.Splits 5 line.length (fun _ => none) (line ++ ['\x00']) (ircSplit 5 line)
      (tokenized line) :=
  LineScan.strTokenizeInto_splits 5 (by decide) line [] noNul _

/-- The slots up to the null pointer are filled, and no others. -/
theorem mem_stored_tokenized (noNul : '\x00' ∉ line) (i : Nat) :
    i ∈ (tokenized line).2.stored ↔ i ≤ (ircSplit 5 line).length := by
  have count := (tokenized_splits noNul).count
  rw [tokenized, LineScan.strTokenizeInto_eq] at count ⊢
  have pushed := LineScan.pushed_foldl ⟨fun _ => none, 0, []⟩
    (LineScan.strTokenize 5 ⟨line ++ ['\x00'], 0, []⟩).2
  dsimp only [Slots.close] at count ⊢
  rw [List.mem_cons, mem_stored_foldl, count]
  rw [pushed.c] at count
  dsimp only at count ⊢
  rw [Nat.zero_add] at count
  rw [Nat.zero_add, count]
  constructor
  · rintro (last | before | inside)
    · exact last.le
    · exact absurd before List.not_mem_nil
    · exact inside.2.le
  · intro inside
    rcases Nat.eq_or_lt_of_le inside with last | before
    · exact .inl last
    · exact .inr (.inr ⟨Nat.zero_le _, before⟩)

theorem starts_strTokenize (maxtok : Nat) (scan : LineScan) :
    (LineScan.strTokenize maxtok scan).2 = (LineScan.tokenizeLoop maxtok scan).2 :=
  rfl

theorem start_le_of_tokenized {i a : Nat} (before : i < (tokenized line).2.c)
    (slot : (tokenized line).2.v i = some a) : a ≤ line.length := by
  rw [tokenized, LineScan.strTokenizeInto_eq, starts_strTokenize] at before slot
  have inside : LineScan.Inside line.length ⟨line ++ ['\x00'], 0, []⟩ := by
    refine ⟨?_, Nat.zero_le _, fun i member => absurd member List.not_mem_nil⟩
    simp [byteAt]
  have starts := start_le_of_tokenizeLoop 5 inside
  have pushed := LineScan.pushed_foldl ⟨fun _ => none, 0, []⟩
    (LineScan.tokenizeLoop 5 ⟨line ++ ['\x00'], 0, []⟩).2
  dsimp only [Slots.close] at before slot
  rw [pushed.c, Nat.zero_add] at before
  have found := List.getElem?_eq_getElem before
  have filled := pushed.new i _ found
  rw [Nat.zero_add] at filled
  have other : i ≠ (List.foldl Slots.push ⟨fun _ => none, 0, []⟩
      (LineScan.tokenizeLoop 5 ⟨line ++ ['\x00'], 0, []⟩).2).c := by
    rw [pushed.c, Nat.zero_add]
    exact before.ne
  have same : some _ = some a := filled.symm.trans ((Function.update_of_ne other _ _).symm.trans slot)
  rw [← Option.some.inj same]
  exact starts _ (List.getElem_mem before)

theorem tokenized_holds (noNul : '\x00' ∉ line) :
    Holds ⟨(tokenized line).1.bytes, (tokenized line).2⟩ (ircSplit 5 line) := by
  have splits := tokenized_splits noNul
  have stored := mem_stored_tokenized noNul
  refine ⟨fun i word found => ?_, ?_, fun i beyond => ?_⟩
  · obtain ⟨a, slot, read⟩ := splits.read i word found
    have before := (List.getElem?_eq_some_iff.mp found).1
    have start := start_le_of_tokenized (by rw [splits.count]; exact before) slot
    have ended : '\x00' ∈ (tokenized line).1.bytes.drop a := by
      have last : '\x00' ∈ (tokenized line).1.bytes.drop line.length := by
        rw [splits.behind, List.drop_left]
        exact List.mem_singleton_self _
      rw [← Nat.add_sub_cancel' start, ← List.drop_drop] at last
      exact List.mem_of_mem_drop last
    refine ⟨a, ?_, ?_⟩
    · rw [Argv.slot, if_pos ((stored i).mpr before.le), slot]
    · rw [textAt, if_pos ended, read]
  · rw [Argv.slot, if_pos ((stored _).mpr (Nat.le_refl _)), ← splits.count, splits.null]
  · rw [Argv.slot, if_neg (fun filled => absurd ((stored i).mp filled) (Nat.not_le_of_lt beyond))]

namespace Holds

variable {argv : Argv} {words : List CString} {i : Nat}

theorem text_eq {word : CString} (holds : Holds argv words) (found : words[i]? = some word) :
    argv.text i = .ok word := by
  obtain ⟨a, slot, text⟩ := holds.word i word found
  rw [Argv.text, slot]
  exact text

/-- A word that is missing cannot be read. -/
theorem text_missing (holds : Holds argv words) (missing : words.length ≤ i) :
    ∃ fault, argv.text i = .error fault := by
  rcases Nat.eq_or_lt_of_le missing with last | beyond
  · refine ⟨.overread, ?_⟩
    rw [Argv.text, ← last, holds.null]
    rfl
  · refine ⟨.unset, ?_⟩
    rw [Argv.text, holds.unset i beyond]
    rfl

/-- Where a word may be missing, it is asked for before it is read. -/
theorem slot_cases (holds : Holds argv words) (inside : i ≤ words.length) :
    (words[i]? = none ∧ argv.slot i = .ok none) ∨ ∃ word a, words[i]? = some word ∧
      argv.slot i = .ok (some a) ∧ textAt argv.bytes (some a) = .ok word := by
  rcases Nat.eq_or_lt_of_le inside with last | before
  · refine .inl ⟨List.getElem?_eq_none last.ge, ?_⟩
    rw [last, holds.null]
  · have found := List.getElem?_eq_getElem before
    obtain ⟨a, slot, text⟩ := holds.word i _ found
    exact .inr ⟨_, a, found, slot, text⟩

end Holds

/-! ## Replies that are taken from the words -/

variable {s : ServauthQueries.State} {argv : Argv} {words : List CString}

/-- A host or an address may be missing. -/
theorem parseDns_cases (holds : Holds argv words) :
    (3 ≤ words.length ∧ ∃ parsed, parseDns s argv = .ok parsed ∧ parsed.userargs = none) ∨
    words.length < 3 ∧ ∃ fault, parseDns s argv = .error fault := by
  rw [parseDns]
  by_cases enough : 3 ≤ words.length
  · refine .inl ⟨enough, ?_⟩
    have what := holds.text_eq (List.getElem?_eq_getElem (show 1 < words.length by omega))
    rw [holds.text_eq (List.getElem?_eq_getElem enough), Fault.ok_bind]
    cases s.sauthFind (strToi words[2]) with
    | none => exact ⟨.ignored, rfl, rfl⟩
    | some sauth =>
        dsimp only
        rw [what, Fault.ok_bind, Fault.ok_bind]
        rcases holds.slot_cases enough with ⟨-, slot⟩ | ⟨word, a, -, slot, text⟩
        · have isNone : (none : Option Nat) = none := rfl
          rw [slot, Fault.ok_bind, Fault.ok_bind, if_pos isNone, if_pos isNone]
          split_ifs
          all_goals exact ⟨_, rfl, rfl⟩
        · have isSome := Option.some_ne_none a
          rw [slot, Fault.ok_bind, Fault.ok_bind, text, Fault.ok_bind, Fault.ok_bind,
            if_neg isSome, if_neg isSome]
          split_ifs
          all_goals exact ⟨_, rfl, rfl⟩
  · obtain ⟨fault, missing⟩ := @Holds.text_missing argv words 2 holds (by omega)
    exact .inr ⟨by omega, fault, by rw [missing]; rfl⟩

/-- A user name may be missing. -/
theorem parseAuth_eq (holds : Holds argv words) {id : CString} (found : words[1]? = some id) :
    parseAuth s argv = .ok (match s.sauthFind (strToi id) with
      | none => .ignored
      | some sauth => .done sauth.serial (.ident (strlcpy (words[2]?.getD []) 33))) := by
  have enough := (List.getElem?_eq_some_iff.mp found).1
  rw [parseAuth, holds.text_eq found, Fault.ok_bind]
  cases s.sauthFind (strToi id) with
  | none => rfl
  | some sauth =>
      dsimp only
      rcases holds.slot_cases enough with ⟨none, slot⟩ | ⟨ident, a, some, slot, text⟩
      · rw [slot, none, Fault.ok_bind]
        rfl
      · rw [slot, some, Fault.ok_bind, if_neg (Option.some_ne_none a), text]
        rfl

/-- The query that the second word of a line is the number of. -/
def asker (s : ServauthQueries.State) (words : List CString) : Option ServauthQueries.Sauth :=
  words[1]?.bind fun id => s.sauthFind (strToi id)

theorem asker_eq {id : CString} (found : words[1]? = some id) :
    asker s words = s.sauthFind (strToi id) := by
  rw [asker, found]
  rfl

theorem parseProxy_cases (holds : Holds argv words) :
    ((2 ≤ words.length ∧ (asker s words ≠ none → 3 ≤ words.length)) ∧
      ∃ parsed, parseProxy s argv = .ok parsed ∧ parsed.userargs = none) ∨
    ¬ (2 ≤ words.length ∧ (asker s words ≠ none → 3 ≤ words.length)) ∧
      ∃ fault, parseProxy s argv = .error fault := by
  by_cases enough : 2 ≤ words.length
  · have found := List.getElem?_eq_getElem enough
    rw [parseProxy, holds.text_eq found, Fault.ok_bind, asker_eq found]
    cases s.sauthFind (strToi words[1]) with
    | none => exact .inl ⟨⟨enough, fun asks => absurd rfl asks⟩, .ignored, rfl, rfl⟩
    | some sauth =>
        dsimp only
        by_cases third : 3 ≤ words.length
        · refine .inl ⟨⟨enough, fun _ => third⟩, ?_⟩
          rw [holds.text_eq (List.getElem?_eq_getElem third)]
          exact ⟨_, rfl, rfl⟩
        · obtain ⟨fault, missing⟩ := @Holds.text_missing argv words 2 holds (by omega)
          refine .inr ⟨fun both => third (both.2 (Option.some_ne_none sauth)), fault, ?_⟩
          rw [missing, Fault.error_bind]
  · obtain ⟨fault, missing⟩ := @Holds.text_missing argv words 1 holds (by omega)
    refine .inr ⟨fun both => enough both.1, fault, ?_⟩
    rw [parseProxy, missing, Fault.error_bind]

/-! ## The reply of the user database -/

/-- Behind a word and the blanks after it. -/
def behindWord (text : CString) : CString :=
  (text.dropWhile fun c => !isspace c).dropWhile isspace

/-- Behind so many words. -/
def behindWords : Nat → CString → CString
  | 0, text => text
  | words + 1, text => behindWords words (behindWord text)

/-- There is a blank behind each of so many words. -/
def Spaced : Nat → CString → Prop
  | 0, _ => True
  | words + 1, text => (∃ c ∈ text, isspace c = true) ∧ Spaced words (behindWord text)

/-- The text behind the third word of a line, without the blanks at its end. -/
def behindThird (line : CString) : CString :=
  (behindWords 3 (line.dropWhile isspace)).rdropWhile isspace

variable {q : Char → Bool} {done text behind : List Char} {turns : Nat}

theorem readAt_front {p : Nat} {c : Char} (found : text[p]? = some c) : readAt text p = .ok c := by
  rw [readAt, found]

/-- A walk stops at the first character that it does not skip, or leaves the buffer. -/
theorem skipLoop_cases {buf : List Char} (laid : buf = done ++ text) (enough : text.length < turns) :
    ((∃ c ∈ text, q c = false) ∧
      skipLoop q buf turns done.length = .ok (done.length + (text.takeWhile q).length)) ∨
    (∀ c ∈ text, q c = true) ∧ skipLoop q buf turns done.length = .error .overread := by
  induction text generalizing done turns with
  | nil =>
      obtain ⟨turns, rfl⟩ := Nat.exists_eq_add_one.mpr enough
      refine .inr ⟨by simp, ?_⟩
      have beyond : buf[done.length]? = none := by
        rw [laid, List.append_nil]
        exact List.getElem?_eq_none (Nat.le_refl _)
      rw [skipLoop, readAt, beyond]
      rfl
  | cons c text ih =>
      obtain ⟨turns, rfl⟩ := Nat.exists_eq_add_one.mpr (Nat.zero_lt_of_lt enough)
      have here : readAt buf done.length = .ok c := readAt_front (by rw [laid]; simp)
      have later := @ih (done ++ [c]) turns (by rw [laid]; simp) (Nat.lt_of_succ_lt_succ enough)
      rw [List.length_append, List.length_singleton] at later
      rw [skipLoop, here, Fault.ok_bind]
      by_cases skipped : q c = true
      · rw [if_pos skipped, List.takeWhile_cons_of_pos skipped, List.length_cons]
        rcases later with ⟨⟨stop, member, stops⟩, result⟩ | ⟨all, result⟩
        · refine .inl ⟨⟨stop, List.mem_cons_of_mem _ member, stops⟩, result.trans ?_⟩
          rw [Nat.add_assoc, Nat.add_comm 1]
        · exact .inr ⟨List.forall_mem_cons.mpr ⟨skipped, all⟩, result⟩
      · rw [if_neg skipped, List.takeWhile_cons_of_neg skipped]
        exact .inl ⟨⟨c, List.mem_cons_self, by simpa using skipped⟩, rfl⟩

theorem takeWhile_append_of_stop (stop : ∃ c ∈ text, q c = false) (more : List Char) :
    (text ++ more).takeWhile q = text.takeWhile q := by
  obtain ⟨c, member, stops⟩ := stop
  induction text with
  | nil => cases member
  | cons d text ih =>
      rw [List.cons_append, List.takeWhile_cons, List.takeWhile_cons]
      by_cases skipped : q d = true
      · rw [if_pos skipped, if_pos skipped]
        refine congrArg _ (ih ((List.mem_cons.mp member).resolve_left ?_))
        rintro rfl
        exact absurd skipped (by rw [stops]; decide)
      · rw [if_neg skipped, if_neg skipped]

theorem takeWhile_append_stop {stop : Char} (stops : q stop = false) (text more : List Char) :
    (text ++ stop :: more).takeWhile q = text.takeWhile q := by
  induction text with
  | nil =>
      rw [List.nil_append, List.takeWhile_cons_of_neg (by simp [stops]), List.takeWhile_nil]
  | cons c text ih => rw [List.cons_append, List.takeWhile_cons, List.takeWhile_cons, ih]

/-- The loops come behind a word and its blanks, or run over the terminator. -/
theorem skipWords_cases (words : Nat) (text : CString) :
    (Spaced words text ∧ ∃ skipped, text = skipped ++ behindWords words text ∧
      skipWords (done ++ text ++ ['\x00']) words done.length = .ok (done ++ skipped).length) ∨
    ¬ Spaced words text ∧
      skipWords (done ++ text ++ ['\x00']) words done.length = .error .overread := by
  induction words generalizing done text with
  | zero => exact .inl ⟨trivial, [], rfl, by rw [skipWords, List.append_nil]⟩
  | succ words ih =>
      have enough : (text ++ ['\x00']).length < (done ++ text ++ ['\x00']).length + 1 := by
        simp only [List.length_append]
        omega
      rw [skipWords]
      rcases @skipLoop_cases (fun c => !isspace c) done (text ++ ['\x00']) _
          (done ++ text ++ ['\x00']) (List.append_assoc _ _ _) enough with
        ⟨⟨c, member, stops⟩, result⟩ | ⟨all, result⟩
      · have blank : ∃ c ∈ text, isspace c = true := by
          refine ⟨c, (List.mem_append.mp member).resolve_right fun last => ?_, by simpa using stops⟩
          rw [List.mem_singleton.mp last] at stops
          exact absurd stops (by decide)
        have stop : ∃ c ∈ text, (!isspace c) = false := by simpa using blank
        have word := @List.takeWhile_append_dropWhile _ (fun c => !isspace c) text
        have next : behindWord text = (text.dropWhile fun c => !isspace c).dropWhile isspace := rfl
        rw [takeWhile_append_of_stop stop, ← List.length_append] at result
        rw [result, Fault.ok_bind, behindWords, Spaced, next]
        generalize text.takeWhile (fun c => !isspace c) = front at word
        generalize text.dropWhile (fun c => !isspace c) = rest at word
        have gap := @List.takeWhile_append_dropWhile _ isspace rest
        have ended : isspace '\x00' = false := by decide
        have laid : done ++ text ++ ['\x00'] = done ++ front ++ (rest ++ ['\x00']) := by
          rw [← word]
          simp
        have enough' : (rest ++ ['\x00']).length < (done ++ text ++ ['\x00']).length + 1 := by
          rw [laid]
          simp only [List.length_append]
          omega
        rcases @skipLoop_cases isspace (done ++ front) (rest ++ ['\x00']) _ _ laid enough' with
          ⟨-, result'⟩ | ⟨all, -⟩
        · rw [takeWhile_append_stop ended, ← List.length_append] at result'
          rw [result', Fault.ok_bind]
          have laid' : done ++ text ++ ['\x00'] =
              done ++ front ++ rest.takeWhile isspace ++ rest.dropWhile isspace ++ ['\x00'] := by
            rw [List.append_assoc _ _ (rest.dropWhile isspace), gap, laid]
            simp
          rw [laid']
          rcases @ih (done ++ front ++ rest.takeWhile isspace) (rest.dropWhile isspace) with
            ⟨spaced, skipped, same, walked⟩ | ⟨short, walked⟩
          · refine .inl ⟨⟨blank, spaced⟩, front ++ rest.takeWhile isspace ++ skipped, ?_, ?_⟩
            · rw [List.append_assoc, ← same, List.append_assoc, gap, word]
            · rw [walked]
              simp only [List.append_assoc]
          · exact .inr ⟨fun spaced => short spaced.2, walked⟩
        · exact absurd (all '\x00' (by simp)) (by rw [ended]; decide)
      · refine .inr ⟨fun ⟨⟨c, member, blank⟩, _⟩ => ?_, by rw [result, Fault.error_bind]⟩
        have other := all c (List.mem_append_left _ member)
        simp [blank] at other

/-- The blanks at the end of the reply are cut off. -/
theorem trimLoop_eq (text behind : List Char) :
    ∃ more, trimLoop done.length (done ++ text).length (done ++ text ++ '\x00' :: behind) =
      .ok (done ++ text.rdropWhile isspace ++ '\x00' :: more) := by
  induction text using List.reverseRecOn generalizing behind with
  | nil =>
      refine ⟨behind, ?_⟩
      rw [List.append_nil, List.rdropWhile_nil, List.append_nil]
      cases done.length with
      | zero => rw [trimLoop]
      | succ e => rw [trimLoop, if_neg (Nat.lt_irrefl _)]
  | append_singleton text last ih =>
      have length : (done ++ (text ++ [last])).length = (done ++ text).length + 1 := by
        simp [Nat.add_assoc]
      have inside : done.length < (done ++ text).length + 1 := by
        rw [List.length_append]
        omega
      have found : readAt (done ++ (text ++ [last]) ++ '\x00' :: behind) (done ++ text).length =
          .ok last := by
        refine readAt_front ?_
        rw [← List.append_assoc, List.append_assoc, List.getElem?_append_right (Nat.le_refl _),
          Nat.sub_self]
        rfl
      rw [length, trimLoop, if_pos inside, found, Fault.ok_bind]
      by_cases blank : isspace last = true
      · have written : writeAt (done ++ (text ++ [last]) ++ '\x00' :: behind) (done ++ text).length
            '\x00' = .ok (done ++ text ++ '\x00' :: '\x00' :: behind) := by
          rw [writeAt, if_pos (by simp)]
          congr 1
          rw [← List.append_assoc, List.append_assoc, List.set_append_right _ _ (Nat.le_refl _),
            Nat.sub_self]
          rfl
        rw [if_pos blank, written, Fault.ok_bind, List.rdropWhile_concat_pos _ _ _ blank]
        exact ih ('\x00' :: behind)
      · rw [if_neg blank, List.rdropWhile_concat_neg _ _ _ blank]
        exact ⟨behind, rfl⟩

theorem textAt_front (noNul : '\x00' ∉ text) :
    textAt (done ++ text ++ '\x00' :: behind) (some done.length) = .ok text := by
  have dropped : (done ++ text ++ '\x00' :: behind).drop done.length = text ++ '\x00' :: behind := by
    rw [List.append_assoc, List.drop_left]
  rw [textAt, dropped, if_pos (by simp), beforeNul_append_nul noNul]

/-- The user database is heard where there is a blank behind each of three words. -/
theorem parseUserdb_cases (holds : Holds argv words) (noNul : '\x00' ∉ line) :
    ((2 ≤ words.length ∧ (asker s words ≠ none → Spaced 3 line)) ∧
      ∃ parsed, parseUserdb s argv (line ++ ['\x00']) = .ok parsed ∧
        parsed.userargs = (asker s words).map fun _ => (behindWords 3 line).rdropWhile isspace) ∨
    ¬ (2 ≤ words.length ∧ (asker s words ≠ none → Spaced 3 line)) ∧
      ∃ fault, parseUserdb s argv (line ++ ['\x00']) = .error fault := by
  by_cases enough : 2 ≤ words.length
  · have found := List.getElem?_eq_getElem enough
    rw [parseUserdb, holds.text_eq found, Fault.ok_bind, asker_eq found]
    cases s.sauthFind (strToi words[1]) with
    | none => exact .inl ⟨⟨enough, fun asks => absurd rfl asks⟩, .ignored, rfl, rfl⟩
    | some sauth =>
        have known : some sauth ≠ none := Option.some_ne_none sauth
        dsimp only
        rcases @skipWords_cases [] 3 line with ⟨spaced, skipped, split, walked⟩ | ⟨short, walked⟩
        · refine .inl ⟨⟨enough, fun _ => spaced⟩, ?_⟩
          have noNul' : '\x00' ∉ (behindWords 3 line).rdropWhile isspace := by
            intro member
            refine noNul ?_
            rw [split]
            exact List.mem_append_right _ ((List.rdropWhile_prefix _ _).mem member)
          have whole := @textAt_front [] line [] noNul
          obtain ⟨more, trimmed⟩ := @trimLoop_eq skipped (behindWords 3 line) []
          rw [← split] at trimmed
          rw [List.nil_append, List.length_nil] at whole walked
          rw [List.nil_append] at walked
          rw [walked, Fault.ok_bind, whole, Fault.ok_bind, trimmed, Fault.ok_bind,
            textAt_front noNul', Fault.ok_bind]
          exact ⟨_, rfl, rfl⟩
        · refine .inr ⟨fun both => short (both.2 known), .overread, ?_⟩
          rw [List.nil_append, List.length_nil] at walked
          rw [walked, Fault.error_bind]
  · obtain ⟨fault, missing⟩ := @Holds.text_missing argv words 1 holds (by omega)
    refine .inr ⟨fun both => enough both.1, fault, ?_⟩
    rw [parseUserdb, missing, Fault.error_bind]

theorem behindWords_behindWord (words : Nat) (text : CString) :
    behindWords words (behindWord text) = behindWord (behindWords words text) := by
  induction words generalizing text with
  | zero => rfl
  | succ words ih => exact ih (behindWord text)

theorem countP_rdropWhile (text : CString) :
    (text.rdropWhile isspace).countP (fun c => !isspace c) = text.countP fun c => !isspace c := by
  induction text using List.reverseRecOn with
  | nil => rfl
  | append_singleton text last ih =>
      by_cases blank : isspace last = true
      · rw [List.rdropWhile_concat_pos _ _ _ blank, ih, List.countP_append]
        simp [blank]
      · rw [List.rdropWhile_concat_neg _ _ _ blank]

/-- Without its first word a text has less to say. -/
theorem countP_behindWord_lt {c : Char} (solid : isspace c = false) (text : CString) :
    (behindWord (c :: text)).countP (fun c => !isspace c) <
      (c :: text).countP fun c => !isspace c := by
  have part : (behindWord (c :: text)).Sublist text := by
    rw [behindWord, List.dropWhile_cons_of_pos (by simp [solid])]
    exact (List.dropWhile_sublist _).trans (List.dropWhile_sublist _)
  rw [List.countP_cons_of_pos (by simp [solid])]
  exact Nat.lt_succ_of_le (part.countP_le)

/-- The loops count a word before the blanks at the start of the line, if there are any. -/
theorem behindThird_iff (line : CString) :
    (behindWords 3 line).rdropWhile isspace = behindThird line ↔
      (∀ c ∈ line.head?, isspace c = false) ∨ behindWords 3 line = [] := by
  cases line with
  | nil => exact iff_of_true rfl (.inr rfl)
  | cons c line =>
      rw [behindThird]
      by_cases blank : isspace c = true
      · have drops : (c :: line).dropWhile isspace = behindWord (c :: line) := by
          rw [behindWord, @List.dropWhile_cons_of_neg _ (fun c => !isspace c) c line (by simp [blank])]
        rw [drops, behindWords_behindWord]
        constructor
        · intro same
          right
          cases rest : behindWords 3 (c :: line) with
          | nil => rfl
          | cons d rest' =>
              have solid : isspace d = false := by
                have starts : behindWords 3 (c :: line) =
                    (((behindWords 2 (c :: line)).dropWhile fun c => !isspace c).dropWhile isspace) :=
                  behindWords_behindWord 2 (c :: line)
                have some : behindWords 3 (c :: line) ≠ [] := rest ▸ List.cons_ne_nil d rest'
                have head := List.head_dropWhile_not isspace (starts ▸ some)
                simpa [← starts, rest] using head
              have counts := congrArg (List.countP fun c => !isspace c) same
              rw [countP_rdropWhile, countP_rdropWhile, rest] at counts
              exact absurd counts (countP_behindWord_lt solid rest').ne'
        · rintro (first | nothing)
          · rw [first c rfl] at blank
            cases blank
          · rw [nothing]
            rfl
      · have solid : isspace c = false := by simpa using blank
        rw [List.dropWhile_cons_of_neg blank]
        exact iff_of_true rfl (.inl fun d isFirst => by cases isFirst; exact solid)

/-! ## Any line -/

/-- A line is read between its ends, slots that were not filled are left alone, and what the user
database says is the text behind the third word. -/
structure ReadsInside (s : ServauthQueries.State) (line : CString) : Prop where
  touched : ∀ i ∈ (tokenized line).1.touched, 0 ≤ i ∧ i ≤ line.length
  stored : ∀ i ∈ (tokenized line).2.stored, i ≤ 5
  parsed : ∃ parsed, sauthRead s line = .ok parsed ∧
    ∀ userargs, parsed.userargs = some userargs → userargs = behindThird line

/-- What a line of this type has to have: enough words, where a query that is not there is asked
for less; for the user database a blank behind each of three words, and no blank before the first,
unless there are only two words. -/
def TypeFits (s : ServauthQueries.State) (line type : CString) : Prop :=
  if IcmpEq type "dns".toList then 3 ≤ (ircSplit 5 line).length
  else if IcmpEq type "auth".toList then 2 ≤ (ircSplit 5 line).length
  else if IcmpEq type "proxy".toList then
    2 ≤ (ircSplit 5 line).length ∧
      (asker s (ircSplit 5 line) ≠ none → 3 ≤ (ircSplit 5 line).length)
  else if IcmpEq type "userdb".toList then
    2 ≤ (ircSplit 5 line).length ∧ (asker s (ircSplit 5 line) ≠ none → Spaced 3 line ∧
      ((∀ c ∈ line.head?, isspace c = false) ∨ behindWords 3 line = []))
  else True

/-- The line has a first word, and what follows it fits. -/
def LineFits (s : ServauthQueries.State) (line : CString) : Prop :=
  ∃ type, (ircSplit 5 line)[0]? = some type ∧ TypeFits s line type

/-- A line can be parsed where it fits, but for the blanks before a reply of the user database. -/
theorem sauthParse_cases (noNul : '\x00' ∉ line) {type : CString}
    (found : (ircSplit 5 line)[0]? = some type) :
    (∃ parsed, sauthRead s line = .ok parsed ∧
      (TypeFits s line type ↔ ∀ userargs, parsed.userargs = some userargs →
        userargs = behindThird line)) ∨
    ¬ TypeFits s line type ∧ ∃ fault, sauthRead s line = .error fault := by
  have holds := tokenized_holds noNul
  have told {parsed : Parsed} (silent : parsed.userargs = none) :
      ∀ userargs, parsed.userargs = some userargs → userargs = behindThird line := by
    intro userargs said
    cases silent.symm.trans said
  rw [sauthRead, sauthParse, holds.text_eq found, Fault.ok_bind, TypeFits]
  by_cases dns : IcmpEq type "dns".toList
  · rw [if_pos dns, if_pos dns]
    rcases parseDns_cases holds with ⟨enough, parsed, result, silent⟩ | ⟨short, fault, result⟩
    · exact .inl ⟨parsed, result, iff_of_true enough (told silent)⟩
    · exact .inr ⟨Nat.not_le_of_lt short, fault, result⟩
  · rw [if_neg dns, if_neg dns]
    by_cases auth : IcmpEq type "auth".toList
    · rw [if_pos auth, if_pos auth]
      by_cases enough : 2 ≤ (ircSplit 5 line).length
      · refine .inl ⟨_, parseAuth_eq holds (List.getElem?_eq_getElem enough), ?_⟩
        refine iff_of_true enough (told ?_)
        cases s.sauthFind (strToi (ircSplit 5 line)[1]) <;> rfl
      · obtain ⟨fault, missing⟩ := @Holds.text_missing _ _ 1 holds (by omega)
        exact .inr ⟨enough, fault, by rw [parseAuth, missing, Fault.error_bind]⟩
    · rw [if_neg auth, if_neg auth]
      by_cases proxy : IcmpEq type "proxy".toList
      · rw [if_pos proxy, if_pos proxy]
        rcases @parseProxy_cases s _ _ holds with
          ⟨enough, parsed, result, silent⟩ | ⟨short, fault, result⟩
        · exact .inl ⟨parsed, result, iff_of_true enough (told silent)⟩
        · exact .inr ⟨short, fault, result⟩
      · rw [if_neg proxy, if_neg proxy]
        by_cases userdb : IcmpEq type "userdb".toList
        · rw [if_pos userdb, if_pos userdb]
          rcases @parseUserdb_cases line s _ _ holds noNul with
            ⟨⟨enough, spaced⟩, parsed, result, said⟩ | ⟨short, fault, result⟩
          · refine .inl ⟨parsed, result, ?_⟩
            rw [said, and_iff_right enough]
            cases asks : asker s (ircSplit 5 line) with
            | none =>
                refine iff_of_true (fun known => absurd rfl known) (fun userargs said => ?_)
                cases said
            | some sauth =>
                have known : asker s (ircSplit 5 line) ≠ none := asks ▸ Option.some_ne_none sauth
                rw [forall_prop_of_true (Option.some_ne_none sauth), and_iff_right (spaced known),
                  ← behindThird_iff]
                exact ⟨fun same userargs said => Option.some.inj said ▸ same, fun same => same _ rfl⟩
          · exact .inr ⟨fun fits => short ⟨fits.1, fun known => (fits.2 known).1⟩, fault, result⟩
        · rw [if_neg userdb, if_neg userdb]
          exact .inl ⟨.invalid, rfl, iff_of_true trivial (told rfl)⟩

/-- A line from the child is read inside just when it fits. -/
theorem sauthRead_iff (s : ServauthQueries.State) {line : CString} (noNul : '\x00' ∉ line) :
    ReadsInside s line ↔ LineFits s line := by
  have splits := tokenized_splits noNul
  have inside_iff : ReadsInside s line ↔ ∃ parsed, sauthRead s line = .ok parsed ∧
      ∀ userargs, parsed.userargs = some userargs → userargs = behindThird line :=
    ⟨fun reads => reads.parsed, fun parsed => ⟨splits.touched, splits.stored, parsed⟩⟩
  rw [inside_iff]
  cases found : (ircSplit 5 line)[0]? with
  | none =>
      refine iff_of_false (fun ⟨parsed, result, _⟩ => ?_) (fun ⟨type, first, _⟩ => ?_)
      · obtain ⟨fault, missing⟩ := @Holds.text_missing _ _ 0 (tokenized_holds noNul)
          (List.getElem?_eq_none_iff.mp found)
        rw [sauthRead, sauthParse, missing] at result
        cases result
      · cases found.symm.trans first
  | some type =>
      have fits_iff : LineFits s line ↔ TypeFits s line type := by
        refine ⟨fun ⟨type', first, fits⟩ => ?_, fun fits => ⟨type, found, fits⟩⟩
        cases found.symm.trans first
        exact fits
      rw [fits_iff]
      rcases @sauthParse_cases line s noNul type found with
        ⟨parsed, result, fits⟩ | ⟨misfit, fault, result⟩
      · rw [fits]
        refine ⟨fun ⟨parsed', again, said⟩ => ?_, fun said => ⟨parsed, result, said⟩⟩
        cases result.symm.trans again
        exact said
      · refine iff_of_false (fun ⟨parsed, again, _⟩ => ?_) misfit
        cases result.symm.trans again

/-- A reply to the query with number zero. -/
theorem sauthRead_iff_proxy :
    ReadsInside ((ServauthQueries.State.init).sauthNew .proxy) "proxy 0 open\n".toList ↔
      LineFits ((ServauthQueries.State.init).sauthNew .proxy) "proxy 0 open\n".toList :=
  sauthRead_iff _ (by decide)

/-- The user database answers in two words. -/
theorem sauthRead_leaves_line : ¬ ∀ (s : ServauthQueries.State) (line : CString), '\x00' ∉ line →
    ReadsInside s line := by
  intro inside
  obtain ⟨parsed, result, -⟩ := (inside ((ServauthQueries.State.init).sauthNew .userdb)
    "userdb 0\n".toList (by decide)).parsed
  have stopped : sauthRead ((ServauthQueries.State.init).sauthNew .userdb) "userdb 0\n".toList =
      .error .overread := by
    decide +kernel
  cases stopped.symm.trans result

end SauthLines

end Chaosircd
