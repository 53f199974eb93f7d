import Chaosircd.ByteQueueFifo
import Chaosircd.Chars
import Chaosircd.StrMatch
import Chaosircd.Tokenize

/-!
# The bytes that parsing a line touches

`lclient_process` fetches a line from the receive queue into a static buffer of 2048 bytes
and `lclient_parse` splits it in place, with pointers that run over the buffer.  Here every
byte that is looked at or written on the way is recorded.

A terminator written over a blank leaves the pointer inside the line, while one written over
the terminator of the line itself leaves it behind the line.  That is what happens to a
line in which no blank follows the origin or the command.
-/

namespace Chaosircd

/-! ## A pointer that runs over a buffer -/

/-- A buffer, a pointer into it, and the bytes looked at or written so far. -/
structure LineScan where
  bytes : List Char
  s : Nat
  touched : List Int
  deriving DecidableEq

namespace LineScan

/-- `*s`. -/
def char (scan : LineScan) : Char :=
  byteAt scan.bytes scan.s

/-- A look at `*s`. -/
def look (scan : LineScan) : LineScan :=
  { scan with touched := scan.s :: scan.touched }

/-- `s++`. -/
def next (scan : LineScan) : LineScan :=
  { scan with s := scan.s + 1 }

/-- `*s = '\0'`. -/
def zero (scan : LineScan) : LineScan :=
  { scan with
    bytes := scan.bytes.set scan.s '\x00'
    touched := scan.s :: scan.touched }

/-- `s = a`. -/
def goto (scan : LineScan) (a : Nat) : LineScan :=
  { scan with s := a }

/-- `while(*s && p(*s)) s++`, with the rounds that are left. -/
def skipLoop (p : Char → Bool) : Nat → LineScan → LineScan
  | 0, scan => scan
  | rounds + 1, scan =>
      if scan.char ≠ '\x00' ∧ p scan.char then skipLoop p rounds scan.look.next
      else scan.look

/-- `while(*s && p(*s)) s++`, which ends behind the buffer at the latest. -/
def skip (p : Char → Bool) (scan : LineScan) : LineScan :=
  skipLoop p (scan.bytes.length + 1) scan

/-- `while(*s && p(*s)) *s++ = '\0'`, with the rounds that are left. -/
def clearLoop (p : Char → Bool) : Nat → LineScan → LineScan
  | 0, scan => scan
  | rounds + 1, scan =>
      if scan.char ≠ '\x00' ∧ p scan.char then clearLoop p rounds scan.look.zero.next
      else scan.look

/-- `while(*s && p(*s)) *s++ = '\0'`. -/
def clear (p : Char → Bool) (scan : LineScan) : LineScan :=
  clearLoop p (scan.bytes.length + 1) scan

/-- The string that `s` points to. -/
def rest (scan : LineScan) : CString :=
  beforeNul (scan.bytes.drop scan.s)

/-- A function that is given the string at `a` reads all of it. -/
def readString (scan : LineScan) (a : Nat) : LineScan :=
  ((scan.goto a).skip fun _ => true).goto scan.s

/-- The blanks at the end of an argument. -/
def isTrailing (c : Char) : Bool :=
  c == ' ' || c == '\t'

/-- `do s--; while(*s == ' ' || *s == '\t'); ++s`: where it ends, and what it looks at. -/
def backOver (bytes : List Char) : Nat → Nat × List Int
  | 0 => (0, [-1])
  | s + 1 =>
      if isTrailing (byteAt bytes s) then
        ((backOver bytes s).1, (s : Int) :: (backOver bytes s).2)
      else (s + 1, [(s : Int)])

/-- The walk back from the end of an argument. -/
def back (scan : LineScan) : LineScan :=
  { scan with
    s := (backOver scan.bytes scan.s).1
    touched := (backOver scan.bytes scan.s).2 ++ scan.touched }

/-! ## `str_tokenize` -/

/-- The loop of `str_tokenize` with the number of arguments it has room for, and where the
arguments start. -/
def tokenizeLoop : Nat → LineScan → LineScan × List Nat
  | 0, scan => ((scan.clear strIsspace).look, [])
  | room + 1, scan =>
      let scan := (scan.clear strIsspace).look
      if scan.char = '\x00' then (scan, [])
      else if scan.char = ':' then (scan, [scan.s + 1])
      else if room = 0 then (scan, [scan.s])
      else
        let result := tokenizeLoop room (scan.skip fun c => !strIsspace c)
        (result.1, scan.s :: result.2)

/-- The last argument ends with the line, less trailing blanks. -/
def endLast (scan : LineScan) : LineScan :=
  let scan := scan.skip fun c => c ≠ '\r' ∧ c ≠ '\n'
  (if scan.char = '\x00' then scan else scan.zero).back.zero

/-- `str_tokenize(s, v, maxtok)`: the buffer, and where the arguments start. -/
def strTokenize (maxtok : Nat) (scan : LineScan) : LineScan × List Nat :=
  let result := tokenizeLoop maxtok scan
  let scan := result.1.look
  (if result.2.length = maxtok ∨ scan.char = ':' then scan.endLast else scan, result.2)

/-! ## The line of a client -/

/-- `*s++ = '\0'`. -/
def terminate (scan : LineScan) : LineScan :=
  scan.zero.next

/-- A numeric is passed on with the origin, the command and what is left of the line. -/
def passOn (origin : Option Nat) (command : Nat) (scan : LineScan) : LineScan :=
  let ended := scan.skip fun c => c ≠ '\r' ∧ c ≠ '\n'
  let ended := if ended.char = '\x00' then ended else ended.zero
  match origin with
  | some argv0 => ((ended.readString argv0).readString command).readString scan.s
  | none => (ended.readString command).readString scan.s

/-- `lclient_numeric`.  `known` says whether there is a client for a destination. -/
def lclientNumeric (server : Bool) (known : CString → Bool) (origin : Option Nat)
    (command : Nat) (scan : LineScan) : LineScan :=
  if server then
    let arg := (scan.skip fun c => charsIsnickchar c || charsIsuidchar c).clear isTrailing
    if known (scan.rest.takeWhile fun c => charsIsnickchar c || charsIsuidchar c) then
      arg.passOn origin command
    else arg.readString command
  else scan

/-- `lclient_command`.  `find` says how many arguments the table allows a command, unless
the command is unknown or refused. -/
def lclientCommand (find : CString → Option Nat) (command : Nat) (scan : LineScan) :
    LineScan :=
  let scan := scan.readString command
  match find (scan.goto command).rest with
  | some maxargs => (scan.strTokenize (if maxargs = 0 then 253 else maxargs)).1
  | none => scan

/-- `lclient_message`: a command of digits is a numeric. -/
def lclientMessage (server : Bool) (known : CString → Bool) (find : CString → Option Nat)
    (origin : Option Nat) (command : Nat) (scan : LineScan) : LineScan :=
  let digits := (scan.goto command).skip charsIsdigit
  if digits.char = '\x00' then
    (digits.goto scan.s).lclientNumeric server known origin command
  else (digits.goto scan.s).lclientCommand find command

/-- The origin of a line is cut off. -/
def parseOrigin (bytes : List Char) : LineScan :=
  let scan := (⟨bytes, 0, []⟩ : LineScan).look
  if scan.char = ':' then (scan.skip fun c => !charsIsspace c).terminate else scan

/-- The command of a line is cut off, and what follows it is handled. -/
def parseCommand (server : Bool) (known : CString → Bool) (find : CString → Option Nat)
    (origin : Option Nat) (scan : LineScan) : LineScan :=
  let scan := (scan.skip charsIsspace).look
  if scan.char = '\x00' then scan
  else
    ((scan.skip fun c => !charsIsspace c).terminate.skip charsIsspace).lclientMessage
      server known find origin scan.s

/-- `lclient_parse`, where `refused` is the answer of the hook. -/
def lclientParse (refused server : Bool) (known : CString → Bool)
    (find : CString → Option Nat) (bytes : List Char) : LineScan :=
  if refused then ⟨bytes, 0, []⟩
  else
    (parseOrigin bytes).parseCommand server known find
      (if byteAt bytes 0 = ':' then some 1 else none)

end LineScan

/-- `IRCD_BUFSIZE`. -/
def ircdBufsize : Nat := 2048

/-- The characters of bytes. -/
def lineChars (bytes : List UInt8) : List Char :=
  bytes.map fun byte => Char.ofNat byte.toNat

/-- The receive buffer after `io_gets`. -/
def recvLine (heap : QueueHeap) (fifo : Fqueue) (recvbuf : List Char) : List Char :=
  if fifo.lines = 0 then recvbuf
  else
    let line := lineChars (queueGets heap fifo ircdBufsize).1.2
    line ++ '\x00' :: recvbuf.drop (line.length + 1)

/-- `lclient_process`. -/
def lclientProcess (refused server : Bool) (known : CString → Bool)
    (find : CString → Option Nat) (heap : QueueHeap) (fifo : Fqueue)
    (recvbuf : List Char) : LineScan :=
  LineScan.lclientParse refused server known find (recvLine heap fifo recvbuf)

/-! ## Staying inside -/

namespace LineScan

/-- The line still ends at `length`, the pointer is not behind its end, and no byte outside
was touched. -/
structure Inside (length : Nat) (scan : LineScan) : Prop where
  nul : byteAt scan.bytes length = '\x00'
  s_le : scan.s ≤ length
  touched : ∀ i ∈ scan.touched, 0 ≤ i ∧ i ≤ length

theorem byteAt_set_nul {bytes : List Char} {i j : Nat} (nul : byteAt bytes i = '\x00') :
    byteAt (bytes.set j '\x00') i = '\x00' := by
  rw [byteAt, List.getD_eq_getElem?_getD] at nul ⊢
  rw [List.getElem?_set]
  split
  · split
    · rfl
    · rfl
  · exact nul

variable {length : Nat} {scan : LineScan}

@[simp]
theorem bytes_skipLoop (p : Char → Bool) (rounds : Nat) :
    (skipLoop p rounds scan).bytes = scan.bytes := by
  induction rounds generalizing scan with
  | zero => rfl
  | succ rounds induction =>
      rw [skipLoop]
      split
      · rw [induction]
        rfl
      · rfl

theorem le_skipLoop (p : Char → Bool) (rounds : Nat) :
    scan.s ≤ (skipLoop p rounds scan).s := by
  induction rounds generalizing scan with
  | zero => exact Nat.le_refl _
  | succ rounds induction =>
      rw [skipLoop]
      split
      · exact Nat.le_trans (Nat.le_succ _) (@induction scan.look.next)
      · exact Nat.le_refl _

/-- A byte that is skipped moves the pointer. -/
theorem lt_skip {p : Char → Bool} (more : scan.char ≠ '\x00') (skipped : p scan.char) :
    scan.s < (scan.skip p).s := by
  rw [skip, skipLoop, if_pos ⟨more, skipped⟩]
  exact @le_skipLoop scan.look.next p _

/-- Behind the buffer there are only terminators. -/
theorem char_of_length_le (behind : scan.bytes.length ≤ scan.s) : scan.char = '\x00' := by
  rw [char, byteAt, List.getD_eq_getElem?_getD, List.getElem?_eq_none behind]
  rfl

theorem clearLoop_stops {p : Char → Bool} {rounds : Nat}
    (enough : scan.bytes.length < scan.s + rounds) :
    (clearLoop p rounds scan).char = '\x00' ∨
      p (clearLoop p rounds scan).char = false := by
  induction rounds generalizing scan with
  | zero => exact .inl (@char_of_length_le scan (by omega))
  | succ rounds induction =>
      rw [clearLoop]
      split
      · apply induction
        simp only [next, zero, look, List.length_set]
        omega
      · rename_i stops
        rw [not_and_or, ne_eq, not_not, Bool.not_eq_true] at stops
        exact stops

theorem Inside.look (inside : Inside length scan) : Inside length scan.look := by
  refine ⟨inside.nul, inside.s_le, ?_⟩
  intro i member
  have bound := inside.s_le
  rcases List.mem_cons.mp member with rfl | before
  · omega
  · exact inside.touched i before

theorem Inside.goto (inside : Inside length scan) {a : Nat} (bound : a ≤ length) :
    Inside length (scan.goto a) :=
  ⟨inside.nul, bound, inside.touched⟩

theorem Inside.zero (inside : Inside length scan) : Inside length scan.zero :=
  ⟨byteAt_set_nul inside.nul, inside.s_le, inside.look.touched⟩

/-- A step over a byte that is not the terminator. -/
theorem Inside.lt (inside : Inside length scan) (more : scan.char ≠ '\x00') :
    scan.s < length := by
  have bound := inside.s_le
  have other : scan.s ≠ length := by
    intro same
    exact more ((congrArg (byteAt scan.bytes) same).trans inside.nul)
  omega

theorem Inside.skipLoop (p : Char → Bool) (rounds : Nat) (inside : Inside length scan) :
    Inside length (skipLoop p rounds scan) := by
  induction rounds generalizing scan with
  | zero => exact inside
  | succ rounds induction =>
      rw [LineScan.skipLoop]
      split
      · rename_i goes
        exact induction ⟨inside.nul, inside.lt goes.1, inside.look.touched⟩
      · exact inside.look

theorem Inside.skip (p : Char → Bool) (inside : Inside length scan) :
    Inside length (scan.skip p) :=
  inside.skipLoop p _

theorem Inside.clearLoop (p : Char → Bool) (rounds : Nat) (inside : Inside length scan) :
    Inside length (clearLoop p rounds scan) := by
  induction rounds generalizing scan with
  | zero => exact inside
  | succ rounds induction =>
      rw [LineScan.clearLoop]
      split
      · rename_i goes
        have zeroed := inside.look.zero
        exact induction ⟨zeroed.nul, inside.lt goes.1, zeroed.touched⟩
      · exact inside.look

theorem Inside.clear (p : Char → Bool) (inside : Inside length scan) :
    Inside length (scan.clear p) :=
  inside.clearLoop p _

theorem Inside.readString (inside : Inside length scan) {a : Nat} (bound : a ≤ length) :
    Inside length (scan.readString a) :=
  ((inside.goto bound).skip _).goto inside.s_le

/-- The walk back ends at a byte that is no blank. -/
theorem backOver_bounds {bytes : List Char} {first s : Nat}
    (stops : isTrailing (byteAt bytes first) = false) (ahead : first < s) :
    first < (backOver bytes s).1 ∧ (backOver bytes s).1 ≤ s ∧
      ∀ i ∈ (backOver bytes s).2, (first : Int) ≤ i ∧ i ≤ s := by
  induction s with
  | zero => omega
  | succ s induction =>
      rw [backOver]
      split
      · rename_i blank
        have other : first ≠ s := by
          rintro rfl
          rw [blank] at stops
          cases stops
        obtain ⟨after, before, between⟩ := induction (by omega)
        refine ⟨after, Nat.le_succ_of_le before, ?_⟩
        intro i member
        rcases List.mem_cons.mp member with rfl | deeper
        · omega
        · have bounds := between i deeper
          omega
      · refine ⟨ahead, Nat.le_refl _, ?_⟩
        intro i member
        rw [List.mem_singleton] at member
        omega

/-- An argument that has a byte ends inside the line. -/
theorem Inside.endLast (inside : Inside length scan) (more : scan.char ≠ '\x00')
    (starts : strIsspace scan.char = false) : Inside length scan.endLast := by
  have notBlank : isTrailing scan.char = false ∧
      scan.char ≠ '\r' ∧ scan.char ≠ '\n' := by
    simp only [strIsspace, Bool.or_eq_false_iff, beq_eq_false_iff_ne] at starts
    simp [isTrailing, starts]
  rw [LineScan.endLast]
  have ahead := @lt_skip scan (fun c => c ≠ '\r' ∧ c ≠ '\n') more (by simp [notBlank])
  have reached := inside.skip fun c => c ≠ '\r' ∧ c ≠ '\n'
  have same : (scan.skip fun c => c ≠ '\r' ∧ c ≠ '\n').bytes = scan.bytes :=
    bytes_skipLoop _ _
  generalize scan.skip (fun c => c ≠ '\r' ∧ c ≠ '\n') = stop at ahead reached same
  apply Inside.zero
  have cut : ∃ cut, (if stop.char = '\x00' then stop else stop.zero) = cut ∧
      Inside length cut ∧ cut.s = stop.s ∧
        byteAt cut.bytes scan.s = scan.char := by
    refine ⟨_, rfl, ?_⟩
    split
    · exact ⟨reached, rfl, congrArg (byteAt · scan.s) same⟩
    · refine ⟨reached.zero, rfl, ?_⟩
      rw [LineScan.zero, same, byteAt, List.getD_eq_getElem?_getD,
        List.getElem?_set_ne (Nat.ne_of_gt ahead), ← List.getD_eq_getElem?_getD]
      rfl
  obtain ⟨cut, made, inside', same', first⟩ := cut
  rw [made]
  obtain ⟨_, before, between⟩ := @backOver_bounds cut.bytes scan.s cut.s
    (by rw [first]; exact notBlank.1) (by omega)
  have bound := inside'.s_le
  refine ⟨inside'.nul, Nat.le_trans before bound, ?_⟩
  intro i member
  rcases List.mem_append.mp member with walked | earlier
  · have bounds := between i walked
    omega
  · exact inside'.touched i earlier

/-- Where the blanks before an argument end. -/
def argStart (scan : LineScan) : LineScan :=
  (scan.clear strIsspace).look

theorem argStart_stops : scan.argStart.char = '\x00' ∨
    strIsspace scan.argStart.char = false :=
  clearLoop_stops (by omega)

/-- One argument is the last one, or the rounds for the others follow. -/
theorem tokenizeLoop_cases (room : Nat) (scan : LineScan) :
    (scan.argStart.char = '\x00' ∧ tokenizeLoop (room + 1) scan = (scan.argStart, [])) ∨
      (scan.argStart.char ≠ '\x00' ∧
        ((∃ v, tokenizeLoop (room + 1) scan = (scan.argStart, [v])) ∨
          room ≠ 0 ∧ scan.argStart.char ≠ ':' ∧ tokenizeLoop (room + 1) scan =
            ((tokenizeLoop room (scan.argStart.skip fun c => !strIsspace c)).1,
              scan.argStart.s ::
                (tokenizeLoop room (scan.argStart.skip fun c => !strIsspace c)).2))) := by
  rw [tokenizeLoop]
  by_cases ended : scan.argStart.char = '\x00'
  · exact .inl ⟨ended, if_pos ended⟩
  · refine .inr ⟨ended, ?_⟩
    by_cases colon : scan.argStart.char = ':'
    · exact .inl ⟨scan.argStart.s + 1, (if_neg ended).trans (if_pos colon)⟩
    · by_cases full : room = 0
      · exact .inl ⟨scan.argStart.s,
          ((if_neg ended).trans (if_neg colon)).trans (if_pos full)⟩
      · exact .inr ⟨full, colon, ((if_neg ended).trans (if_neg colon)).trans (if_neg full)⟩

/-- A loop that used all its room, or saw a colon, is at the start of an argument. -/
theorem Inside.tokenizeLoop (room : Nat) (inside : Inside length scan) :
    Inside length (tokenizeLoop (room + 1) scan).1 ∧
      ((tokenizeLoop (room + 1) scan).2.length = room + 1 ∨
          (tokenizeLoop (room + 1) scan).1.char = ':' →
        (tokenizeLoop (room + 1) scan).1.char ≠ '\x00' ∧
          strIsspace (tokenizeLoop (room + 1) scan).1.char = false) := by
  induction room generalizing scan with
  | zero =>
      have start : Inside length scan.argStart := (inside.clear strIsspace).look
      rcases tokenizeLoop_cases 0 scan with ⟨ended, same⟩ | ⟨more, ⟨v, same⟩ | ⟨none, _⟩⟩
      · rw [same]
        refine ⟨start, ?_⟩
        rw [ended]
        simp
      · rw [same]
        exact ⟨start, fun _ => ⟨more, argStart_stops.resolve_left more⟩⟩
      · exact absurd rfl none
  | succ room induction =>
      have start : Inside length scan.argStart := (inside.clear strIsspace).look
      rcases tokenizeLoop_cases (room + 1) scan with
        ⟨ended, same⟩ | ⟨more, ⟨v, same⟩ | ⟨_, _, same⟩⟩
      · rw [same]
        refine ⟨start, ?_⟩
        rw [ended]
        simp
      · rw [same]
        exact ⟨start, fun _ => ⟨more, argStart_stops.resolve_left more⟩⟩
      · rw [same]
        obtain ⟨after, starts⟩ := induction (start.skip fun c => !strIsspace c)
        generalize LineScan.tokenizeLoop (room + 1) _ = result at after starts ⊢
        refine ⟨after, ?_⟩
        rw [List.length_cons, Nat.add_right_cancel_iff]
        exact starts

theorem Inside.strTokenize {maxtok : Nat} (some : 0 < maxtok) (inside : Inside length scan) :
    Inside length (scan.strTokenize maxtok).1 := by
  obtain ⟨room, rfl⟩ : ∃ room, maxtok = room + 1 := ⟨maxtok - 1, by omega⟩
  obtain ⟨after, starts⟩ := inside.tokenizeLoop room
  rw [LineScan.strTokenize]
  generalize LineScan.tokenizeLoop (room + 1) scan = result at after starts
  dsimp only
  split
  · rename_i last
    obtain ⟨more, notBlank⟩ := starts last
    exact after.look.endLast more notBlank
  · exact after.look

/-! ## The string at the pointer -/

theorem rest_look : scan.look.rest = scan.rest :=
  rfl

theorem char_eq_head : scan.char = scan.rest.headD '\x00' := by
  rw [char, rest, beforeNul, byteAt, List.getD_eq_getElem?_getD, ← List.head?_drop]
  cases scan.bytes.drop scan.s with
  | nil => rfl
  | cons c cs =>
      rw [List.takeWhile_cons]
      by_cases ends : c = '\x00'
      · simp [ends]
      · simp [ends]

theorem char_eq_nul_iff : scan.char = '\x00' ↔ scan.rest = [] := by
  rw [char_eq_head]
  cases same : scan.rest with
  | nil => exact iff_of_true rfl rfl
  | cons c cs =>
      have member : c ∈ scan.rest := by simp [same]
      have more : c ≠ '\x00' := by
        rintro rfl
        exact nul_not_mem_beforeNul _ member
      exact iff_of_false more nofun

/-- A step over a byte of the string. -/
theorem rest_next {c : Char} {cs : CString} (same : scan.rest = c :: cs) :
    scan.next.rest = cs := by
  rw [rest, beforeNul] at same ⊢
  rw [next, ← List.tail_drop]
  cases more : scan.bytes.drop scan.s with
  | nil =>
      rw [more] at same
      cases same
  | cons d ds =>
      rw [more, List.takeWhile_cons] at same
      split at same
      · exact (List.cons.inj same).2
      · cases same

/-- A terminator that is stepped over does not change what follows. -/
theorem rest_terminate {c : Char} {cs : CString} (same : scan.rest = c :: cs) :
    scan.terminate.rest = cs := by
  rw [← rest_next same, rest, rest, terminate, next, next, zero,
    List.drop_set_of_lt (Nat.lt_succ_self _)]

/-- Where the string at the pointer ends. -/
def stop (scan : LineScan) : Nat :=
  scan.s + scan.rest.length

theorem skipLoop_spec (p : Char → Bool) {rounds : Nat} (enough : scan.rest.length < rounds) :
    (skipLoop p rounds scan).rest = scan.rest.dropWhile p ∧
      (skipLoop p rounds scan).stop = scan.stop := by
  induction rounds generalizing scan with
  | zero => omega
  | succ rounds induction =>
      rw [skipLoop]
      cases same : scan.rest with
      | nil =>
          rw [if_neg (fun goes => goes.1 (char_eq_nul_iff.mpr same))]
          exact ⟨same, rfl⟩
      | cons c cs =>
          have first : scan.char = c := by rw [char_eq_head, same]; rfl
          have more : scan.char ≠ '\x00' := by
            rw [ne_eq, char_eq_nul_iff, same]
            nofun
          have after : scan.look.next.rest = cs := rest_next same
          rw [List.dropWhile_cons]
          by_cases skipped : p c
          · rw [if_pos ⟨more, by rw [first]; exact skipped⟩, if_pos skipped]
            rw [same, List.length_cons] at enough
            obtain ⟨rest', stop'⟩ := @induction scan.look.next (by rw [after]; omega)
            refine ⟨by rw [rest', after], ?_⟩
            rw [stop', stop, stop, after, same, List.length_cons]
            dsimp only [next, look]
            omega
          · rw [if_neg (by rw [first]; exact fun goes => skipped goes.2), if_neg skipped]
            exact ⟨same, rfl⟩

theorem rest_length_le : scan.rest.length ≤ scan.bytes.length := by
  have shorter : (beforeNul (scan.bytes.drop scan.s)).length ≤
      (scan.bytes.drop scan.s).length := (List.takeWhile_sublist _).length_le
  rw [List.length_drop] at shorter
  rw [rest]
  omega

theorem rest_skip (p : Char → Bool) : (scan.skip p).rest = scan.rest.dropWhile p :=
  (skipLoop_spec p (Nat.lt_succ_of_le rest_length_le)).1

theorem stop_skip (p : Char → Bool) : (scan.skip p).stop = scan.stop :=
  (skipLoop_spec p (Nat.lt_succ_of_le rest_length_le)).2

theorem stop_terminate {c : Char} {cs : CString} (same : scan.rest = c :: cs) :
    scan.terminate.stop = scan.stop := by
  rw [stop, stop, rest_terminate same, same, List.length_cons, terminate, next, zero]
  dsimp only
  omega

/-! ## The handlers of a line -/

theorem Inside.cut (inside : Inside length scan) :
    Inside length (if scan.char = '\x00' then scan else scan.zero) := by
  split
  · exact inside
  · exact inside.zero

theorem Inside.passOn {origin : Option Nat} {command : Nat} (inside : Inside length scan)
    (name : command ≤ length) (source : ∀ argv0 ∈ origin, argv0 ≤ length) :
    Inside length (scan.passOn origin command) := by
  have ended := (inside.skip fun c => c ≠ '\r' ∧ c ≠ '\n').cut
  cases origin with
  | none => exact (ended.readString name).readString inside.s_le
  | some argv0 =>
      exact ((ended.readString (source argv0 rfl)).readString name).readString inside.s_le

theorem Inside.lclientNumeric {server : Bool} {known : CString → Bool} {origin : Option Nat}
    {command : Nat} (inside : Inside length scan) (name : command ≤ length)
    (source : ∀ argv0 ∈ origin, argv0 ≤ length) :
    Inside length (scan.lclientNumeric server known origin command) := by
  have arg := (inside.skip fun c => charsIsnickchar c || charsIsuidchar c).clear isTrailing
  rw [LineScan.lclientNumeric]
  split
  · dsimp only
    split
    · exact arg.passOn name source
    · exact arg.readString name
  · exact inside

theorem Inside.lclientCommand {find : CString → Option Nat} {command : Nat}
    (inside : Inside length scan) (name : command ≤ length) :
    Inside length (scan.lclientCommand find command) := by
  have named := inside.readString name
  rw [LineScan.lclientCommand]
  split
  · apply named.strTokenize
    split
    · decide
    · omega
  · exact named

/-- What follows the command stays inside the line. -/
theorem Inside.lclientMessage {server : Bool} {known : CString → Bool}
    {find : CString → Option Nat} {origin : Option Nat} {command : Nat}
    (inside : Inside length scan) (name : command ≤ length)
    (source : ∀ argv0 ∈ origin, argv0 ≤ length) :
    Inside length (scan.lclientMessage server known find origin command) := by
  have digits := ((inside.goto name).skip charsIsdigit).goto inside.s_le
  rw [LineScan.lclientMessage]
  split
  · exact digits.lclientNumeric name source
  · exact digits.lclientCommand name

/-! ## What was touched stays touched -/

/-- Nothing that was touched before is forgotten. -/
def Extends (before after : LineScan) : Prop :=
  ∀ i ∈ before.touched, i ∈ after.touched

theorem Extends.refl (scan : LineScan) : scan.Extends scan :=
  fun _ member => member

theorem Extends.trans {first second third : LineScan} (before : first.Extends second)
    (after : second.Extends third) : first.Extends third :=
  fun i member => after i (before i member)

theorem extends_look (scan : LineScan) : scan.Extends scan.look :=
  fun _ member => List.mem_cons_of_mem _ member

theorem extends_zero (scan : LineScan) : scan.Extends scan.zero :=
  fun _ member => List.mem_cons_of_mem _ member

theorem extends_skipLoop (p : Char → Bool) (rounds : Nat) (scan : LineScan) :
    scan.Extends (skipLoop p rounds scan) := by
  induction rounds generalizing scan with
  | zero => exact .refl scan
  | succ rounds induction =>
      rw [skipLoop]
      split
      · exact (extends_look scan).trans (induction scan.look.next)
      · exact extends_look scan

theorem extends_skip (p : Char → Bool) (scan : LineScan) : scan.Extends (scan.skip p) :=
  extends_skipLoop p _ scan

/-- A loop looks at the byte it starts at. -/
theorem s_mem_skip (p : Char → Bool) (scan : LineScan) :
    (scan.s : Int) ∈ (scan.skip p).touched := by
  rw [skip, skipLoop]
  split
  · exact extends_skipLoop p _ scan.look.next _ List.mem_cons_self
  · exact List.mem_cons_self

theorem extends_clear (p : Char → Bool) (scan : LineScan) : scan.Extends (scan.clear p) := by
  rw [clear]
  generalize scan.bytes.length + 1 = rounds
  induction rounds generalizing scan with
  | zero => exact .refl scan
  | succ rounds induction =>
      rw [clearLoop]
      split
      · exact ((extends_look scan).trans (extends_zero scan.look)).trans
          (induction scan.look.zero.next)
      · exact extends_look scan

theorem extends_readString (scan : LineScan) (a : Nat) : scan.Extends (scan.readString a) :=
  extends_skip _ (scan.goto a)

theorem extends_cut (scan : LineScan) :
    scan.Extends (if scan.char = '\x00' then scan else scan.zero) := by
  split
  · exact .refl scan
  · exact extends_zero scan

theorem extends_back (scan : LineScan) : scan.Extends scan.back :=
  fun _ member => List.mem_append_right _ member

theorem extends_endLast (scan : LineScan) : scan.Extends scan.endLast :=
  (((extends_skip _ scan).trans (extends_cut _)).trans (extends_back _)).trans
    (extends_zero _)

theorem extends_tokenizeLoop (room : Nat) (scan : LineScan) :
    scan.Extends (tokenizeLoop room scan).1 := by
  have start : ∀ scan : LineScan, scan.Extends scan.argStart :=
    fun scan => (extends_clear _ scan).trans (extends_look _)
  induction room generalizing scan with
  | zero => exact start scan
  | succ room induction =>
      rcases tokenizeLoop_cases room scan with ⟨_, same⟩ | ⟨_, ⟨v, same⟩ | ⟨_, _, same⟩⟩
      · rw [same]
        exact start scan
      · rw [same]
        exact start scan
      · rw [same]
        exact ((start scan).trans (extends_skip _ _)).trans (induction _)

theorem extends_strTokenize (maxtok : Nat) (scan : LineScan) :
    scan.Extends (scan.strTokenize maxtok).1 := by
  have before := (extends_tokenizeLoop maxtok scan).trans (extends_look _)
  rw [strTokenize]
  dsimp only
  split
  · exact before.trans (extends_endLast _)
  · exact before

theorem extends_passOn (origin : Option Nat) (command : Nat) (scan : LineScan) :
    scan.Extends (scan.passOn origin command) := by
  have ended := (extends_skip (fun c => c ≠ '\r' ∧ c ≠ '\n') scan).trans (extends_cut _)
  cases origin with
  | none => exact (ended.trans (extends_readString _ _)).trans (extends_readString _ _)
  | some argv0 =>
      exact ((ended.trans (extends_readString _ _)).trans (extends_readString _ _)).trans
        (extends_readString _ _)

theorem extends_lclientNumeric (server : Bool) (known : CString → Bool)
    (origin : Option Nat) (command : Nat) (scan : LineScan) :
    scan.Extends (scan.lclientNumeric server known origin command) := by
  have arg := (extends_skip (fun c => charsIsnickchar c || charsIsuidchar c) scan).trans
    (extends_clear isTrailing _)
  rw [lclientNumeric]
  split
  · dsimp only
    split
    · exact arg.trans (extends_passOn _ _ _)
    · exact arg.trans (extends_readString _ _)
  · exact .refl scan

theorem extends_lclientCommand (find : CString → Option Nat) (command : Nat)
    (scan : LineScan) : scan.Extends (scan.lclientCommand find command) := by
  rw [lclientCommand]
  split
  · exact (extends_readString scan _).trans (extends_strTokenize _ _)
  · exact extends_readString scan _

theorem extends_lclientMessage (server : Bool) (known : CString → Bool)
    (find : CString → Option Nat) (origin : Option Nat) (command : Nat) (scan : LineScan) :
    scan.Extends (scan.lclientMessage server known find origin command) := by
  have digits : scan.Extends (((scan.goto command).skip charsIsdigit).goto scan.s) :=
    extends_skip charsIsdigit (scan.goto command)
  rw [lclientMessage]
  split
  · exact digits.trans (extends_lclientNumeric _ _ _ _ _)
  · exact digits.trans (extends_lclientCommand _ _ _)

/-! ## Lines that fit -/

/-- What follows the origin of a line and the byte that ends it. -/
def afterOrigin (line : CString) : CString :=
  if line.head? = some ':' then (line.dropWhile fun c => !charsIsspace c).tail else line

/-- A line from its command on. -/
def fromCommand (line : CString) : CString :=
  (afterOrigin line).dropWhile charsIsspace

/-- A blank follows the origin, and one follows the command. -/
structure LineFits (line : CString) : Prop where
  origin : line.head? = some ':' → ∃ c ∈ line, charsIsspace c
  command : fromCommand line ≠ [] → ∃ c ∈ fromCommand line, charsIsspace c

instance (line : CString) : Decidable (LineFits line) :=
  letI _origin : Decidable (∃ c ∈ line, charsIsspace c) := List.decidableBEx _ line
  letI _command : Decidable (∃ c ∈ fromCommand line, charsIsspace c) :=
    List.decidableBEx _ (fromCommand line)
  decidable_of_iff
    ((line.head? = some ':' → ∃ c ∈ line, charsIsspace c) ∧
      (fromCommand line ≠ [] → ∃ c ∈ fromCommand line, charsIsspace c))
    ⟨fun fits => ⟨fits.1, fits.2⟩, fun fits => ⟨fits.origin, fits.command⟩⟩

theorem dropWhile_ne_nil_iff {p : Char → Bool} {line : CString} :
    (line.dropWhile fun c => !p c) ≠ [] ↔ ∃ c ∈ line, p c := by
  rw [ne_eq, List.dropWhile_eq_nil_iff]
  push Not
  simp

/-- A word that is followed by a blank is cut off inside the line. -/
theorem Inside.cutWord (inside : Inside length scan) (ends : scan.stop = length)
    (blank : (scan.rest.dropWhile fun c => !charsIsspace c) ≠ []) :
    Inside length (scan.skip fun c => !charsIsspace c).terminate ∧
      (scan.skip fun c => !charsIsspace c).terminate.rest =
          (scan.rest.dropWhile fun c => !charsIsspace c).tail ∧
        (scan.skip fun c => !charsIsspace c).terminate.stop = length := by
  have word := inside.skip fun c => !charsIsspace c
  have same := @rest_skip scan fun c => !charsIsspace c
  have stop' := (@stop_skip scan fun c => !charsIsspace c).trans ends
  generalize scan.skip (fun c => !charsIsspace c) = stopped at word same stop'
  rw [← same] at blank ⊢
  obtain ⟨c, cs, split⟩ := List.exists_cons_of_ne_nil blank
  have more : stopped.char ≠ '\x00' := fun ended => blank (char_eq_nul_iff.mp ended)
  refine ⟨⟨word.zero.nul, word.lt more, word.zero.touched⟩, ?_, ?_⟩
  · rw [rest_terminate split, split, List.tail_cons]
  · rw [stop_terminate split, stop']

/-- After a word that no blank follows, the pointer is behind the line. -/
theorem s_cutWord (ends : scan.stop = length)
    (none : (scan.rest.dropWhile fun c => !charsIsspace c) = []) :
    (scan.skip fun c => !charsIsspace c).terminate.s = length + 1 := by
  have stop' := (@stop_skip scan fun c => !charsIsspace c).trans ends
  rw [stop, rest_skip, none] at stop'
  exact congrArg (· + 1) stop'

theorem Inside.start (bytes : List Char) :
    Inside (beforeNul bytes).length (⟨bytes, 0, []⟩ : LineScan).look :=
  Inside.look ⟨byteAt_length_beforeNul bytes, Nat.zero_le _, nofun⟩

/-- An origin is cut off inside the line, or leaves the pointer behind it. -/
theorem parseOrigin_cases (bytes : List Char) :
    ((beforeNul bytes).head? = some ':' ∧ (¬ ∃ c ∈ beforeNul bytes, charsIsspace c) ∧
        (parseOrigin bytes).s = (beforeNul bytes).length + 1) ∨
      (((beforeNul bytes).head? = some ':' → ∃ c ∈ beforeNul bytes, charsIsspace c) ∧
        Inside (beforeNul bytes).length (parseOrigin bytes) ∧
          (parseOrigin bytes).rest = afterOrigin (beforeNul bytes) ∧
            (parseOrigin bytes).stop = (beforeNul bytes).length) := by
  have start := Inside.start bytes
  have same : (⟨bytes, 0, []⟩ : LineScan).look.rest = beforeNul bytes := rfl
  have stop' : (⟨bytes, 0, []⟩ : LineScan).look.stop = (beforeNul bytes).length :=
    Nat.zero_add _
  have colon : (⟨bytes, 0, []⟩ : LineScan).look.char = ':' ↔
      (beforeNul bytes).head? = some ':' := by
    rw [char_eq_head, same]
    cases beforeNul bytes with
    | nil => simp
    | cons c cs => simp
  rw [parseOrigin, afterOrigin]
  generalize (⟨bytes, 0, []⟩ : LineScan).look = scan at start same stop' colon
  by_cases head : (beforeNul bytes).head? = some ':'
  · rw [if_pos (colon.mpr head), if_pos head]
    by_cases blank : ∃ c ∈ beforeNul bytes, charsIsspace c
    · right
      rw [← dropWhile_ne_nil_iff, ← same] at blank
      obtain ⟨inside, rest', ends⟩ := start.cutWord stop' blank
      rw [same] at rest'
      refine ⟨fun _ => ?_, inside, rest', ends⟩
      rw [same, dropWhile_ne_nil_iff] at blank
      exact blank
    · left
      refine ⟨head, blank, ?_⟩
      rw [← dropWhile_ne_nil_iff, not_not, ← same] at blank
      exact s_cutWord stop' blank
  · rw [if_neg (mt colon.mp head), if_neg head]
    exact .inr ⟨fun same => absurd same head, start, same, stop'⟩

section

variable {server : Bool} {known : CString → Bool} {find : CString → Option Nat}
  {origin : Option Nat}

theorem extends_parseCommand (scan : LineScan) :
    (scan.skip charsIsspace).Extends (scan.parseCommand server known find origin) := by
  rw [parseCommand]
  have start := extends_look (scan.skip charsIsspace)
  split
  · exact start
  · exact ((start.trans (extends_skip _ _)).trans (extends_zero _)).trans
      ((extends_skip charsIsspace (LineScan.terminate _)).trans
        (extends_lclientMessage _ _ _ _ _ _))

/-- A pointer that is behind the line is looked at. -/
theorem not_inside_parseCommand (behind : scan.s = length + 1) :
    ¬ ∀ i ∈ (scan.parseCommand server known find origin).touched, 0 ≤ i ∧ i ≤ length := by
  intro all
  have bounds := all scan.s (extends_parseCommand scan _ (s_mem_skip charsIsspace scan))
  omega

/-- The command is handled inside the line just when a blank follows it. -/
theorem Inside.parseCommand_iff (inside : Inside length scan) (ends : scan.stop = length)
    (source : ∀ argv0 ∈ origin, argv0 ≤ length) :
    (∀ i ∈ (scan.parseCommand server known find origin).touched, 0 ≤ i ∧ i ≤ length) ↔
      (scan.rest.dropWhile charsIsspace ≠ [] →
        ∃ c ∈ scan.rest.dropWhile charsIsspace, charsIsspace c) := by
  have skipped := (inside.skip charsIsspace).look
  have command : (scan.skip charsIsspace).look.rest = scan.rest.dropWhile charsIsspace :=
    rest_skip charsIsspace
  have stop' : (scan.skip charsIsspace).look.stop = length := (stop_skip _).trans ends
  rw [LineScan.parseCommand, ← command]
  generalize (scan.skip charsIsspace).look = scan at skipped command stop'
  rw [← dropWhile_ne_nil_iff]
  split
  · rename_i ended
    exact iff_of_true skipped.touched fun more => absurd (char_eq_nul_iff.mp ended) more
  · rename_i more
    rw [char_eq_nul_iff] at more
    by_cases blank : (scan.rest.dropWhile fun c => !charsIsspace c) = []
    · have behind := s_cutWord stop' blank
      apply iff_of_false
      · intro all
        have bounds := all _ (extends_lclientMessage _ _ _ _ _ _ _ (s_mem_skip charsIsspace _))
        rw [behind] at bounds
        omega
      · exact fun follows => follows more blank
    · obtain ⟨cut, _, _⟩ := skipped.cutWord stop' blank
      exact iff_of_true ((cut.skip charsIsspace).lclientMessage skipped.s_le source).touched
        fun _ => blank

end

/-- No byte outside the line is touched just when the line fits, or the hook keeps the
parser from it. -/
theorem lclientParse_inside_iff (refused server : Bool) (known : CString → Bool)
    (find : CString → Option Nat) (bytes : List Char) :
    (∀ i ∈ (lclientParse refused server known find bytes).touched,
        0 ≤ i ∧ i ≤ (beforeNul bytes).length) ↔
      refused = true ∨ LineFits (beforeNul bytes) := by
  cases refused with
  | true => exact iff_of_true nofun (.inl rfl)
  | false =>
      rw [lclientParse, if_neg Bool.false_ne_true]
      rcases parseOrigin_cases bytes with ⟨head, noBlank, behind⟩ | ⟨origin, inside, same, ends⟩
      · apply iff_of_false (not_inside_parseCommand behind)
        rintro (refused | fits)
        · cases refused
        · exact noBlank (fits.origin head)
      · have source : ∀ argv0 ∈ (if byteAt bytes 0 = ':' then some 1 else none),
            argv0 ≤ (beforeNul bytes).length := by
          split
          · rename_i colon
            have more : byteAt bytes 0 ≠ '\x00' := by
              rw [colon]
              decide
            rintro _ ⟨⟩
            exact (Inside.start bytes).lt more
          · nofun
        rw [inside.parseCommand_iff ends source, same]
        constructor
        · exact fun command => .inr ⟨origin, command⟩
        · rintro (refused | fits)
          · cases refused
          · exact fits.command

end LineScan

/-! ## Lines from the queue -/

/-- What the queue delivers is the next line, or as much of it as the buffer can hold. -/
theorem recvLine_of_queued {others : Nat → Nat} {heap : QueueHeap} {fifo : Fqueue}
    {bytes : List UInt8} (queued : Queued others heap fifo bytes) (waits : newline ∈ bytes)
    (recvbuf : List Char) :
    ∃ behind, recvLine heap fifo recvbuf =
      lineChars ((Fifo.line newline bytes).take 2047) ++ '\x00' :: behind := by
  have lines : fifo.lines ≠ 0 := by
    rw [queued.counts.lines]
    exact Nat.ne_of_gt (List.count_pos_iff.mpr waits)
  have line : (queueGets heap fifo ircdBufsize).1.2 = (Fifo.line newline bytes).take 2047 :=
    congrArg Prod.snd (queued.gets ircdBufsize).1
  rw [recvLine, if_neg lines, line]
  exact ⟨_, rfl⟩

/-- A line that is not cut short ends with a blank and so fits. -/
theorem LineScan.lineFits_of_newline (body : CString) : LineFits (body ++ ['\n']) := by
  have last : ∀ {rest : CString}, rest <:+ body ++ ['\n'] → rest ≠ [] →
      ∃ c ∈ rest, charsIsspace c := by
    intro rest part more
    refine ⟨'\n', ?_, by decide⟩
    rcases List.suffix_concat_iff.mp part with nothing | ⟨start, rfl, _⟩
    · exact absurd nothing more
    · exact List.mem_append_right _ List.mem_cons_self
  constructor
  · exact fun _ => last List.suffix_rfl (by simp)
  · apply last
    have command := List.dropWhile_suffix (l := afterOrigin (body ++ ['\n'])) charsIsspace
    refine command.trans ?_
    rw [afterOrigin]
    split
    · exact (List.tail_suffix _).trans (List.dropWhile_suffix _)
    · exact List.suffix_rfl

theorem Fifo.line_eq_concat {α : Type*} [DecidableEq α] {delimiter : α} {fifo : List α}
    (waits : delimiter ∈ fifo) : ∃ body, Fifo.line delimiter fifo = body ++ [delimiter] := by
  induction fifo with
  | nil => cases waits
  | cons symbol fifo induction =>
      rw [Fifo.line_cons]
      by_cases ends : symbol = delimiter
      · exact ⟨[], by rw [if_pos ends, ends, List.nil_append]⟩
      · have later := (List.mem_cons.mp waits).resolve_left (Ne.symm ends)
        obtain ⟨body, same⟩ := induction later
        exact ⟨symbol :: body, by rw [if_neg ends, if_pos later, same, List.cons_append]⟩

theorem Fifo.line_concat {α : Type*} [DecidableEq α] {delimiter : α} {body : List α}
    (none : delimiter ∉ body) : Fifo.line delimiter (body ++ [delimiter]) =
      body ++ [delimiter] := by
  induction body with
  | nil => exact (Fifo.line_cons _ _ _).trans (if_pos rfl)
  | cons symbol body induction =>
      rw [List.mem_cons, not_or] at none
      rw [List.cons_append, Fifo.line_cons, if_neg (Ne.symm none.1), if_pos (by simp),
        induction none.2]

theorem nul_not_mem_lineChars {bytes : List UInt8} (noNul : 0 ∉ bytes) :
    '\x00' ∉ lineChars bytes := by
  intro member
  obtain ⟨byte, isByte, isNul⟩ := List.mem_map.mp member
  have value : byte.toNat = 0 := by
    have small := byte.toNat_lt
    have valid : byte.toNat.isValidChar := .inl (by omega)
    have same := congrArg Char.toNat isNul
    rw [Char.ofNat, dif_pos valid] at same
    exact same
  rw [UInt8.toNat_inj.mp (value.trans UInt8.toNat_zero.symm)] at isByte
  exact noNul isByte

/-- A line of the queue without a zero byte that the buffer can hold fits. -/
theorem lineFits_of_queued {others : Nat → Nat} {heap : QueueHeap} {fifo : Fqueue}
    {bytes : List UInt8} (queued : Queued others heap fifo bytes) (waits : newline ∈ bytes)
    (noNul : 0 ∉ bytes) (short : (Fifo.line newline bytes).length ≤ 2047)
    (recvbuf : List Char) : LineScan.LineFits (beforeNul (recvLine heap fifo recvbuf)) := by
  obtain ⟨behind, same⟩ := recvLine_of_queued queued waits recvbuf
  obtain ⟨body, whole⟩ := Fifo.line_eq_concat waits
  have part : (Fifo.line newline bytes).Sublist bytes := by
    rw [Fifo.line, if_pos waits]
    exact List.take_sublist _ _
  have clean := nul_not_mem_lineChars fun member => noNul (part.mem member)
  rw [same, List.take_of_length_le short, beforeNul_append_nul clean, whole, lineChars,
    List.map_append]
  exact LineScan.lineFits_of_newline _

/-- In processing a line of the receive queue no byte outside the line is touched just when
a blank follows its origin and its command, or the hook keeps the parser from it. -/
theorem lclientProcess_inside_iff (refused server : Bool) (known : CString → Bool)
    (find : CString → Option Nat) (heap : QueueHeap) (fifo : Fqueue) (recvbuf : List Char) :
    (∀ i ∈ (lclientProcess refused server known find heap fifo recvbuf).touched,
        0 ≤ i ∧ i ≤ (beforeNul (recvLine heap fifo recvbuf)).length) ↔
      refused = true ∨ LineScan.LineFits (beforeNul (recvLine heap fifo recvbuf)) :=
  LineScan.lclientParse_inside_iff refused server known find _

/-! ## An origin that is too long -/

/-- A queue that received a colon, 2047 letters and a newline. -/
def longOrigin : QueuePool (Fin 1) :=
  (QueuePool.empty.exec (.write 0 (58 :: List.replicate 2047 97 ++ [newline]))).1

theorem longOrigin_represents : longOrigin.Represents
    (Function.update (fun _ => []) 0 (58 :: List.replicate 2047 97 ++ [newline])) := by
  have allowed : (QueuePool.empty : QueuePool (Fin 1)).Allows
      (.write 0 (58 :: List.replicate 2047 97 ++ [newline])) := by
    refine ⟨nofun, ?_, nofun⟩
    rw [List.cons_append, List.length_cons, List.length_append, List.length_replicate]
    decide
  exact (QueuePool.represents_empty.exec allowed).2

/-- A buffer of `n + 2` bytes takes the colon and `n` letters. -/
theorem take_longLine (n : Nat) : (Fifo.line newline
    (58 :: List.replicate (n + 1) 97 ++ [newline])).take (n + 1) =
      58 :: List.replicate n 97 := by
  have none : newline ∉ (58 : UInt8) :: List.replicate (n + 1) 97 := by
    intro member
    rcases List.mem_cons.mp member with colon | letter
    · cases colon
    · cases List.eq_of_mem_replicate letter
  rw [Fifo.line_concat none, List.replicate_succ', List.cons_append, List.take_succ_cons,
    List.append_assoc, List.take_append_of_le_length (by rw [List.length_replicate]),
    List.take_of_length_le (by rw [List.length_replicate])]

theorem eq_of_mem_colon_letters {c : Char} {n : Nat}
    (member : c ∈ ':' :: List.replicate n 'a') : c = ':' ∨ c = 'a' :=
  (List.mem_cons.mp member).imp id List.eq_of_mem_replicate

/-- The origin fills the buffer, and the parser goes on behind it. -/
theorem long_origin_leaves_line :
    ¬ ∀ i ∈ (lclientProcess false false (fun _ => false) (fun _ => none)
        longOrigin.heap (longOrigin.queue 0) []).touched,
      0 ≤ i ∧ i ≤ (beforeNul (recvLine longOrigin.heap (longOrigin.queue 0) [])).length := by
  have waits : newline ∈ Function.update (fun _ : Fin 1 => ([] : List UInt8)) 0
      (58 :: List.replicate 2047 97 ++ [newline]) 0 := by
    rw [Function.update_self]
    exact List.mem_append_right _ List.mem_cons_self
  obtain ⟨behind, same⟩ := recvLine_of_queued (longOrigin_represents 0) waits []
  have chars : lineChars (58 :: List.replicate 2046 97) = ':' :: List.replicate 2046 'a' := by
    rw [lineChars, List.map_cons, List.map_replicate]
    rfl
  have clean : '\x00' ∉ ':' :: List.replicate 2046 'a' := by
    intro member
    rcases eq_of_mem_colon_letters member with colon | letter
    · cases colon
    · cases letter
  rw [Function.update_self, take_longLine 2046, chars] at same
  rw [lclientProcess, LineScan.lclientParse_inside_iff, same, beforeNul_append_nul clean]
  rintro (refused | fits)
  · cases refused
  · obtain ⟨c, member, blank⟩ := fits.origin rfl
    rcases eq_of_mem_colon_letters member with rfl | rfl
    · cases blank
    · cases blank

end Chaosircd
