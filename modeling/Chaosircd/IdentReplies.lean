import Chaosircd.IniFile
import Chaosircd.SauthLines
import Chaosircd.Servauth

/-!
# Replies of ident servers

The line of an ident server goes through two processes: servauth takes the user name from
behind the last colon and sends it on in a line of its own, which the daemon splits into
words, and the name replaces the one that the client has given.
-/

namespace Chaosircd

namespace IdentReplies

open SauthLines

/-! ## In servauth -/

/-- The buffers of `struct auth_client`. -/
structure AuthClient where
  reply : List Char
  recvbuf : List Char
  replySize : reply.length = 32
  recvbufSize : recvbuf.length = 512

/-- `io_gets` of a line into a buffer of this size. -/
def received (line buf : List Char) : List Char :=
  let stored := (line ++ ['\n']).take (buf.length - 1)
  stored ++ '\x00' :: buf.drop (stored.length + 1)

/-- The loop of `strrchr`, with the last place so far. -/
def strrchrLoop (buf : List Char) (c : Char) : Nat → Nat → Option Nat → Except Fault (Option Nat)
  | 0, _, _ => .error .endless
  | turns + 1, i, last => do
    let ch ← readAt buf i
    if ch = '\x00' then pure last
    else strrchrLoop buf c turns (i + 1) (if ch = c then some i else last)

/-- `strrchr`, for a character that is no terminator. -/
def strrchr (buf : List Char) (c : Char) : Except Fault (Option Nat) :=
  strrchrLoop buf c (buf.length + 1) 0 none

/-- `for(i = 0; *p && i < 31; i++)`, with the rounds that are left. -/
def identLoop (recvbuf : List Char) : Nat → Nat → Nat → List Char → Except Fault (Nat × List Char)
  | 0, p, i, reply => do
    let _ch ← readAt recvbuf p
    pure (i, reply)
  | left + 1, p, i, reply => do
    let ch ← readAt recvbuf p
    if ch = '\x00' then pure (i, reply)
    else if Servauth.authIsIdentChar ch then
      let reply ← writeAt reply i ch
      identLoop recvbuf left (p + 1) (i + 1) reply
    else pure (i, reply)

/-- `auth_parse`, up to the callback; behind a null pointer nothing can be read. -/
def authParse (recvbuf reply : List Char) : Except Fault (List Char) := do
  let p ← strrchr recvbuf ':'
  match p with
  | none => .error .overread
  | some p =>
    let first ← readAt recvbuf (p + 1)
    let (i, reply) ← if first = ' ' then pure (0, reply) else identLoop recvbuf 31 (p + 1) 0 reply
    writeAt reply i '\x00'

/-- `query_auth_done`: what is sent to the daemon. -/
def queryAuthDone (id : CString) (reply : List Char) : Except Fault CString := do
  let first ← readAt reply 0
  if first = '\x00' then pure (ioPuts ("auth ".toList ++ id))
  else
    let ident ← textAt reply (some 0)
    pure (ioPuts ("auth ".toList ++ (id ++ ' ' :: ident)))

/-- `auth_event_rd` and its callback. -/
def authEventRd (auth : AuthClient) (id line : CString) : Except Fault CString := do
  let reply ← authParse (received line auth.recvbuf) auth.reply
  queryAuthDone id reply

/-! ## In the daemon -/

/-- `lc_sauth_auth`: the name of the user. -/
def lcSauthAuth (ident name : CString) : CString :=
  if ident = [] then name else strlcpy ident 17

/-- The name of the user whose query has this number, after a line from servauth. -/
def nameAfter (serial : Nat) (name : CString) : Parsed → CString
  | .done other (.ident ident) => if other = serial then lcSauthAuth ident name else name
  | _ => name

/-- The way of a line from the ident server to the name of the user. -/
def identReply (s : ServauthQueries.State) (auth : AuthClient) (serial : Nat) (line name : CString) :
    Except Fault CString := do
  let sent ← authEventRd auth (formatLu serial) line
  let parsed ← sauthRead s (beforeNul (sent.take 1023))
  pure (nameAfter serial name parsed)

/-! ## What arrives -/

/-- The field of a line behind its last colon. -/
def lastField (line : CString) : CString :=
  (line.reverse.takeWhile fun c => c ≠ ':').reverse

/-- The user name in a field, as long as the buffers hold it. -/
def identOf (field : CString) : CString :=
  (field.takeWhile Servauth.authIsIdentChar).take 16

variable {done text more line : List Char} {c : Char}

/-! ## The line in the buffer -/

/-- What is in the receive buffer is the line, up to a terminator. -/
theorem received_eq (line buf : List Char) :
    ∃ more, received line buf = ioGets buf.length line ++ '\x00' :: more := by
  obtain ⟨more, same⟩ := @eq_beforeNul_append (received line buf) (by simp [received])
  refine ⟨more, same.trans ?_⟩
  rw [received, beforeNul_append, ioGets]

/-- The last place of a character, or the one that was known before. -/
theorem strrchrLoop_cases {buf : List Char} (laid : buf = done ++ text ++ '\x00' :: more)
    (noNul : '\x00' ∉ text) {turns : Nat} (enough : text.length < turns) (last : Option Nat) :
    (c ∉ text ∧ strrchrLoop buf c turns done.length last = .ok last) ∨
    ∃ front field, text = front ++ c :: field ∧ c ∉ field ∧
      strrchrLoop buf c turns done.length last = .ok (some (done ++ front).length) := by
  induction text generalizing done turns last with
  | nil =>
      obtain ⟨turns, rfl⟩ := Nat.exists_eq_add_one.mpr enough
      have ended : readAt buf done.length = .ok '\x00' := readAt_front (by rw [laid]; simp)
      refine .inl ⟨List.not_mem_nil, ?_⟩
      rw [strrchrLoop, ended]
      rfl
  | cons d text ih =>
      obtain ⟨turns, rfl⟩ := Nat.exists_eq_add_one.mpr (Nat.zero_lt_of_lt enough)
      have here : readAt buf done.length = .ok d := readAt_front (by rw [laid]; simp)
      have isText : d ≠ '\x00' := fun isNul => noNul (isNul ▸ List.mem_cons_self)
      have later := @ih (done ++ [d]) (by rw [laid]; simp)
        (fun member => noNul (List.mem_cons_of_mem _ member)) turns (Nat.lt_of_succ_lt_succ enough)
        (if d = c then some done.length else last)
      rw [List.length_append, List.length_singleton] at later
      rw [strrchrLoop, here, Fault.ok_bind, if_neg isText]
      rcases later with ⟨none, result⟩ | ⟨front, field, rfl, none, result⟩
      · by_cases found : d = c
        · subst found
          refine .inr ⟨[], text, rfl, none, ?_⟩
          rw [result, if_pos rfl, List.append_nil]
        · refine .inl ⟨fun member => ?_, by rw [result, if_neg found]⟩
          rcases List.mem_cons.mp member with same | later
          · exact found same.symm
          · exact none later
      · refine .inr ⟨d :: front, field, rfl, none, ?_⟩
        rw [result, List.append_assoc]
        rfl

theorem lastField_eq {front field : List Char} (none : ':' ∉ field) :
    lastField (front ++ ':' :: field) = field := by
  have all : ∀ c ∈ field.reverse, (decide (c ≠ ':')) = true := by
    intro c member
    simp only [decide_eq_true_eq]
    rintro rfl
    exact none (List.mem_reverse.mp member)
  rw [lastField, List.reverse_append, List.reverse_cons, List.append_assoc,
    takeWhile_append_of_forall all (by simp), List.reverse_reverse]

/-- The loop copies the characters of a name, as long as there is room. -/
theorem identLoop_eq {recvbuf out rest : List Char} {left : Nat}
    (laid : recvbuf = done ++ text ++ '\x00' :: more) (noNul : '\x00' ∉ text)
    (room : left ≤ rest.length) :
    identLoop recvbuf left done.length out.length (out ++ rest) =
      .ok ((out ++ (text.takeWhile Servauth.authIsIdentChar).take left).length,
        out ++ (text.takeWhile Servauth.authIsIdentChar).take left ++
          rest.drop ((text.takeWhile Servauth.authIsIdentChar).take left).length) := by
  induction left generalizing done text out rest with
  | zero =>
      obtain ⟨d, here⟩ : ∃ d, readAt recvbuf done.length = .ok d := by
        cases text with
        | nil => exact ⟨_, readAt_front (by rw [laid]; simp; rfl)⟩
        | cons d text => exact ⟨d, readAt_front (by rw [laid]; simp)⟩
      rw [identLoop, here, List.take_zero, List.append_nil]
      rfl
  | succ left ih =>
      cases text with
      | nil =>
          have ended : readAt recvbuf done.length = .ok '\x00' := readAt_front (by rw [laid]; simp)
          rw [identLoop, ended, List.takeWhile_nil, List.take_nil, List.append_nil]
          rfl
      | cons d text =>
          have here : readAt recvbuf done.length = .ok d := readAt_front (by rw [laid]; simp)
          have isText : d ≠ '\x00' := fun isNul => noNul (isNul ▸ List.mem_cons_self)
          rw [identLoop, here, Fault.ok_bind, if_neg isText]
          by_cases valid : Servauth.authIsIdentChar d = true
          · cases rest with
            | nil => exact absurd room (Nat.not_succ_le_zero _)
            | cons e rest =>
                have written : writeAt (out ++ e :: rest) out.length d = .ok (out ++ [d] ++ rest) := by
                  rw [writeAt, if_pos (by simp), List.set_append_right _ _ (Nat.le_refl _),
                    Nat.sub_self, List.set_cons_zero, List.append_assoc]
                  rfl
                have later := @ih (done ++ [d]) text (out ++ [d]) rest (by rw [laid]; simp)
                  (fun member => noNul (List.mem_cons_of_mem _ member)) (Nat.le_of_succ_le_succ room)
                rw [List.length_append, List.length_append, List.length_singleton] at later
                rw [if_pos valid, written, Fault.ok_bind, List.takeWhile_cons_of_pos valid,
                  List.take_succ_cons, later]
                simp
          · rw [if_neg valid, List.takeWhile_cons_of_neg valid, List.take_nil, List.append_nil]
            rfl

/-- The name that `auth_parse` takes from a field. -/
def runOf (field : CString) : CString :=
  (field.takeWhile Servauth.authIsIdentChar).take 31

/-- A field that starts with a blank has no name. -/
theorem runOf_blank (field : CString) : runOf (' ' :: field) = [] := by
  rw [runOf, List.takeWhile_cons_of_neg (by decide), List.take_nil]

theorem writeAt_end {run reply : List Char} (room : run.length < reply.length) :
    writeAt (run ++ reply.drop run.length) run.length '\x00' =
      .ok (run ++ '\x00' :: reply.drop (run.length + 1)) := by
  rw [writeAt, if_pos (by rw [List.length_append, List.length_drop]; omega),
    List.set_append_right _ _ (Nat.le_refl _), Nat.sub_self, List.drop_eq_getElem_cons room,
    List.set_cons_zero]

/-- Behind the last colon the name is taken; without one a null pointer is followed. -/
theorem authParse_cases {recvbuf reply : List Char} (laid : recvbuf = text ++ '\x00' :: more)
    (noNul : '\x00' ∉ text) (size : reply.length = 32) :
    (':' ∈ text ∧ ∃ rest, authParse recvbuf reply = .ok (runOf (lastField text) ++ '\x00' :: rest)) ∨
    ':' ∉ text ∧ authParse recvbuf reply = .error .overread := by
  have enough : text.length < recvbuf.length + 1 := by
    rw [laid, List.length_append, List.length_cons]
    omega
  have found := @strrchrLoop_cases [] text more ':' recvbuf laid noNul _ enough none
  simp only [List.nil_append, List.length_nil] at found
  rw [authParse, strrchr]
  rcases found with ⟨none, result⟩ | ⟨front, field, rfl, none, result⟩
  · refine .inr ⟨none, ?_⟩
    rw [result]
    rfl
  · refine .inl ⟨by simp, ?_⟩
    have noNul' : '\x00' ∉ field := fun member =>
      noNul (List.mem_append_right _ (List.mem_cons_of_mem _ member))
    have laid' : recvbuf = front ++ [':'] ++ field ++ '\x00' :: more := by
      rw [laid]
      simp
    have short : (runOf field).length < reply.length := by
      have bound : (runOf field).length ≤ 31 := List.length_take_le _ _
      omega
    obtain ⟨first, here, blank⟩ : ∃ first, readAt recvbuf (front.length + 1) = .ok first ∧
        (first = ' ' → runOf field = []) := by
      cases field with
      | nil => exact ⟨'\x00', readAt_front (by rw [laid']; simp), fun same => absurd same (by decide)⟩
      | cons d field =>
          refine ⟨d, readAt_front (by rw [laid']; simp), ?_⟩
          rintro rfl
          exact runOf_blank field
    have copied := @identLoop_eq (front ++ [':']) field more recvbuf [] reply 31 laid' noNul'
      (by omega)
    simp only [List.nil_append, List.length_nil, List.length_append, List.length_cons,
      Nat.zero_add] at copied
    rw [lastField_eq none, result, Fault.ok_bind]
    dsimp only
    rw [here, Fault.ok_bind]
    refine ⟨reply.drop ((runOf field).length + 1), ?_⟩
    by_cases empty : first = ' '
    · have written := writeAt_end short
      rw [blank empty] at written ⊢
      rw [if_pos empty]
      exact written
    · rw [if_neg empty, copied]
      exact writeAt_end short

/-! ## The line between the processes -/

theorem isIdentChar_of_mem_runOf {field : CString} (member : c ∈ runOf field) :
    Servauth.authIsIdentChar c = true :=
  List.mem_takeWhile_imp (List.mem_of_mem_take member)

/-- The characters of a name are no blanks, no colons and no terminators. -/
theorem plain_of_isIdentChar (valid : Servauth.authIsIdentChar c = true) :
    strIsspace c = false ∧ c ≠ ':' ∧ c ≠ '\x00' := by
  refine ⟨?_, ?_, ?_⟩
  · rw [Bool.eq_false_iff]
    intro blank
    simp only [strIsspace, Bool.or_eq_true, beq_iff_eq] at blank
    rcases blank with ((rfl | rfl) | rfl) | rfl
    all_goals exact absurd valid (by decide)
  · rintro rfl
    exact absurd valid (by decide)
  · rintro rfl
    exact absurd valid (by decide)

theorem plainWord_runOf {field : CString} (some : runOf field ≠ []) : PlainWord (runOf field) where
  nonempty := some
  noBlank := fun _ member => (plain_of_isIdentChar (isIdentChar_of_mem_runOf member)).1
  noColon := fun colon =>
    (plain_of_isIdentChar (isIdentChar_of_mem_runOf (List.mem_of_mem_head? colon))).2.1 rfl

/-- The words that servauth sends. -/
def sentWords (id run : CString) : List CString :=
  if run = [] then ["auth".toList, id] else ["auth".toList, id, run]

theorem queryAuthDone_eq {id run rest : CString} (noNul : '\x00' ∉ run) :
    queryAuthDone id (run ++ '\x00' :: rest) =
      .ok (ioPuts ([' '].intercalate (sentWords id run))) := by
  have kind : "auth ".toList = "auth".toList ++ [' '] := by decide
  cases run with
  | nil =>
      have first : readAt ([] ++ '\x00' :: rest) 0 = .ok '\x00' := readAt_front rfl
      rw [queryAuthDone, first, Fault.ok_bind, if_pos rfl, sentWords, if_pos rfl,
        List.intercalate_cons_cons, List.intercalate_singleton, kind]
      rfl
  | cons d run =>
      have first : readAt (d :: run ++ '\x00' :: rest) 0 = .ok d := readAt_front rfl
      have isText : d ≠ '\x00' := fun isNul => noNul (isNul ▸ List.mem_cons_self)
      have text := @textAt_front [] (d :: run) rest noNul
      rw [List.nil_append, List.length_nil] at text
      rw [queryAuthDone, first, Fault.ok_bind, if_neg isText, text, Fault.ok_bind, sentWords,
        if_neg (List.cons_ne_nil d run), List.intercalate_cons_cons, List.intercalate_cons_cons,
        List.intercalate_singleton, kind, List.append_assoc id]
      rfl

/-- The last word before a line end. -/
theorem strTokenize_plainWord_newline {w : CString} (plain : PlainWord w) (maxtok : Nat) :
    strTokenize (maxtok + 2) (w ++ ['\n']) = [w] := by
  rw [strTokenize, plain.dropWhile_append]
  cases w with
  | nil => exact absurd rfl plain.nonempty
  | cons d w =>
      have notColon : d ≠ ':' := fun colon => plain.noColon (by rw [colon]; rfl)
      have noBlank : ∀ e ∈ d :: w, !strIsspace e := by
        intro e member
        simp [plain.noBlank e member]
      have stops : ∀ e ∈ ['\n'].head?, (!strIsspace e) = false := by
        simp [strIsspace]
      have taken := takeWhile_append_of_forall noBlank stops
      have dropped := dropWhile_append_of_forall noBlank stops
      rw [List.cons_append] at taken dropped ⊢
      split
      · rename_i same
        cases same
      · rename_i same
        exact absurd (List.cons.inj same).1 notColon
      · rename_i same
        cases same
        rw [if_neg (Nat.succ_ne_zero _), taken, dropped]
        rfl

/-- Plain words before a line end are split into themselves. -/
theorem strTokenize_words_newline {ws : List CString} (plain : ∀ w ∈ ws, PlainWord w) {maxtok : Nat}
    (room : ws.length < maxtok) :
    strTokenize maxtok ([' '].intercalate ws ++ ['\n']) = ws := by
  induction ws generalizing maxtok with
  | nil =>
      obtain ⟨maxtok, rfl⟩ := Nat.exists_eq_add_one.mpr room
      rfl
  | cons w ws ih =>
      obtain ⟨maxtok, rfl⟩ : ∃ n, maxtok = n + 2 := ⟨maxtok - 2, by rw [List.length_cons] at room; omega⟩
      have plainHead := plain w List.mem_cons_self
      have plainTail : ∀ v ∈ ws, PlainWord v := fun v member => plain v (List.mem_cons_of_mem _ member)
      cases ws with
      | nil => simpa using strTokenize_plainWord_newline plainHead maxtok
      | cons v ws =>
          rw [List.intercalate_cons_cons, List.append_assoc, List.append_assoc, List.singleton_append,
            strTokenize_plainWord_append plainHead, ih plainTail (by simpa using room)]

theorem plainWord_of_mem_sentWords {serial : Nat} {field w : CString}
    (member : w ∈ sentWords (formatLu serial) (runOf field)) : PlainWord w := by
  have id : PlainWord (formatLu serial) := plainWord_toDigits _
  have kind : PlainWord "auth".toList := by decide
  rw [sentWords] at member
  split at member
  · rcases List.mem_cons.mp member with rfl | member
    · exact kind
    · rw [List.mem_singleton.mp member]
      exact id
  · rename_i some
    rcases List.mem_cons.mp member with rfl | member
    · exact kind
    · rcases List.mem_cons.mp member with rfl | member
      · exact id
      · rw [List.mem_singleton.mp member]
        exact plainWord_runOf some

/-- What servauth sends is a short line. -/
theorem length_sentWords_le (serial : Nat) (field : CString) :
    ([' '].intercalate (sentWords (formatLu serial) (runOf field))).length ≤ 47 := by
  have id := length_formatLu_le serial
  have run : (runOf field).length ≤ 31 := List.length_take_le _ _
  have kind : "auth".toList.length = 4 := by decide
  rw [sentWords]
  split
  · rw [List.intercalate_cons_cons, List.intercalate_singleton, List.length_append,
      List.length_append, kind, List.length_singleton]
    omega
  · rw [List.intercalate_cons_cons, List.intercalate_cons_cons, List.intercalate_singleton]
    simp only [List.length_append, kind, List.length_singleton]
    omega

theorem noNul_sentWords (serial : Nat) (field : CString) :
    '\x00' ∉ [' '].intercalate (sentWords (formatLu serial) (runOf field)) ++ ['\n'] := by
  have digits : '\x00' ∉ formatLu serial := fun member =>
    absurd (strIsdigit_of_mem_toDigits member) (by decide)
  have run : '\x00' ∉ runOf field := fun member =>
    (plain_of_isIdentChar (isIdentChar_of_mem_runOf member)).2.2 rfl
  have kind : '\x00' ∉ "auth".toList := by decide
  rw [sentWords]
  split
  · rw [List.intercalate_cons_cons, List.intercalate_singleton]
    simp [digits]
  · rw [List.intercalate_cons_cons, List.intercalate_cons_cons, List.intercalate_singleton]
    simp [digits, run]

/-- The line of servauth reaches the daemon as it was sent. -/
theorem received_ioPuts {text : CString} (short : text.length ≤ 47)
    (noNul : '\x00' ∉ text ++ ['\n']) : beforeNul ((ioPuts text).take 1023) = text ++ ['\n'] := by
  have whole : ioPuts text = text ++ ['\n'] := by
    rw [ioPuts, List.take_of_length_le (by rw [ioLineSize]; omega)]
  have fits : (text ++ ['\n']).length ≤ 1023 := by
    rw [List.length_append, List.length_singleton]
    omega
  rw [whole, List.take_of_length_le fits, beforeNul_eq_self noNul]

/-! ## The whole way -/

/-- What the daemon makes of the words. -/
theorem sauthRead_sentWords (s : ServauthQueries.State) (serial : Nat) (field : CString) :
    sauthRead s ([' '].intercalate (sentWords (formatLu serial) (runOf field)) ++ ['\n']) =
      .ok (match s.sauthFind (strToi (formatLu serial)) with
        | none => .ignored
        | some sauth => .done sauth.serial (.ident (strlcpy (runOf field) 33))) := by
  have holds := tokenized_holds (noNul_sentWords serial field)
  have room : (sentWords (formatLu serial) (runOf field)).length < 5 := by
    rw [sentWords]
    split
    · exact (by decide : 2 < 5)
    · exact (by decide : 3 < 5)
  have words := strTokenize_words_newline (fun w => plainWord_of_mem_sentWords) room
  rw [strTokenize_eq_ircSplit] at words
  rw [words] at holds
  have type : (sentWords (formatLu serial) (runOf field))[0]? = some "auth".toList := by
    rw [sentWords]
    split <;> rfl
  have id : (sentWords (formatLu serial) (runOf field))[1]? = some (formatLu serial) := by
    rw [sentWords]
    split <;> rfl
  have ident : (sentWords (formatLu serial) (runOf field))[2]?.getD [] = runOf field := by
    rw [sentWords]
    split
    · rename_i none
      rw [none]
      rfl
    · rfl
  have parsed := @parseAuth_eq s _ _ holds _ id
  rw [ident] at parsed
  rw [sauthRead, sauthParse, holds.text_eq type, Fault.ok_bind, if_neg (by decide),
    if_pos (IcmpEq.refl _)]
  exact parsed

/-- The daemon reads what servauth sends between its ends. -/
theorem readsInside_sentWords (s : ServauthQueries.State) (serial : Nat) (field : CString) :
    SauthLines.ReadsInside s ([' '].intercalate (sentWords (formatLu serial) (runOf field)) ++ ['\n']) := by
  have splits := tokenized_splits (noNul_sentWords serial field)
  have read := sauthRead_sentWords s serial field
  generalize [' '].intercalate (sentWords (formatLu serial) (runOf field)) ++ ['\n'] = sent
    at splits read ⊢
  constructor
  · exact splits.touched
  · exact splits.stored
  · refine ⟨_, read, fun userargs said => ?_⟩
    cases found : s.sauthFind (strToi (formatLu serial)) with
    | none =>
        rw [found] at said
        cases said
    | some sauth =>
        rw [found] at said
        cases said

/-- A line of the ident server is read between its ends, and so is the one that it is passed on
in; the name of the user stays as it is, or is the one behind the last colon. -/
structure Arrives (s : ServauthQueries.State) (auth : AuthClient) (serial : Nat)
    (line name : CString) : Prop where
  sent : ∃ sent, authEventRd auth (formatLu serial) line = .ok sent ∧
    SauthLines.ReadsInside s (beforeNul (sent.take 1023))
  named : ∃ name', identReply s auth serial line name = .ok name' ∧
    (name' = name ∨ name' = identOf (lastField (ioGets 512 line)))

theorem nameAfter_ident (other serial : Nat) (field name : CString) :
    nameAfter serial name (.done other (.ident (strlcpy (runOf field) 33))) = name ∨
      nameAfter serial name (.done other (.ident (strlcpy (runOf field) 33))) = identOf field := by
  rw [nameAfter]
  by_cases own : other = serial
  · rw [if_pos own, lcSauthAuth]
    split
    · exact .inl rfl
    · right
      rw [strlcpy, strlcpy, runOf, identOf, List.take_take, List.take_take]
      rfl
  · exact .inl (if_neg own)

theorem authEventRd_cases (auth : AuthClient) (serial : Nat) (line : CString) :
    (':' ∈ ioGets 512 line ∧ authEventRd auth (formatLu serial) line =
      .ok (ioPuts ([' '].intercalate
        (sentWords (formatLu serial) (runOf (lastField (ioGets 512 line))))))) ∨
    ':' ∉ ioGets 512 line ∧ authEventRd auth (formatLu serial) line = .error .overread := by
  obtain ⟨more, laid⟩ := received_eq line auth.recvbuf
  rw [auth.recvbufSize] at laid
  rw [authEventRd]
  rcases authParse_cases laid (nul_not_mem_beforeNul _) auth.replySize with
    ⟨colon, rest, result⟩ | ⟨none, result⟩
  · refine .inl ⟨colon, ?_⟩
    rw [result, Fault.ok_bind, queryAuthDone_eq]
    exact fun member => (plain_of_isIdentChar (isIdentChar_of_mem_runOf member)).2.2 rfl
  · exact .inr ⟨none, by rw [result, Fault.error_bind]⟩

/-- What becomes of the name when servauth sends what it has taken from a field. -/
theorem identReply_eq (s : ServauthQueries.State) {auth : AuthClient} {serial : Nat}
    {field : CString} (name : CString) (sent : authEventRd auth (formatLu serial) line =
      .ok (ioPuts ([' '].intercalate (sentWords (formatLu serial) (runOf field))))) :
    ∃ name', identReply s auth serial line name = .ok name' ∧
      (name' = name ∨ name' = identOf field) := by
  have arrived := received_ioPuts (length_sentWords_le serial field) (noNul_sentWords serial field)
  have read := sauthRead_sentWords s serial field
  rw [← arrived] at read
  generalize ioPuts ([' '].intercalate (sentWords (formatLu serial) (runOf field))) = text
    at sent read
  rw [identReply, sent, Fault.ok_bind, read, Fault.ok_bind]
  cases s.sauthFind (strToi (formatLu serial)) with
  | none => exact ⟨name, rfl, .inl rfl⟩
  | some sauth => exact ⟨_, rfl, nameAfter_ident sauth.serial serial field name⟩

/-- The name arrives, or nothing changes, just when the line in the buffer has a colon. -/
theorem identReply_iff (s : ServauthQueries.State) (auth : AuthClient) (serial : Nat)
    (line name : CString) : Arrives s auth serial line name ↔ ':' ∈ ioGets 512 line := by
  rcases authEventRd_cases auth serial line with ⟨colon, sent⟩ | ⟨none, stopped⟩
  · refine iff_of_true ?_ colon
    have arrived := received_ioPuts (length_sentWords_le serial (lastField (ioGets 512 line)))
      (noNul_sentWords serial (lastField (ioGets 512 line)))
    constructor
    · refine ⟨_, sent, ?_⟩
      rw [arrived]
      exact readsInside_sentWords s serial (lastField (ioGets 512 line))
    · exact identReply_eq s name sent
  · refine iff_of_false (fun arrives => ?_) none
    obtain ⟨sent, result, -⟩ := arrives.sent
    cases stopped.symm.trans result

/-- The buffers of a client that is new. -/
def newClient : AuthClient :=
  ⟨List.replicate 32 '\x00', List.replicate 512 '\x00', List.length_replicate, List.length_replicate⟩

/-- An ident server answers without a colon. -/
theorem identReply_leaves_line : ¬ ∀ (s : ServauthQueries.State) (auth : AuthClient) (serial : Nat)
    (line name : CString), Arrives s auth serial line name := by
  intro arrives
  obtain ⟨sent, result, -⟩ := (arrives ((ServauthQueries.State.init).sauthNew .auth) newClient 0
    "root\r".toList "~root".toList).sent
  have stopped : authEventRd newClient (formatLu 0) "root\r".toList = .error .overread := by
    decide +kernel
  cases stopped.symm.trans result

end IdentReplies

end Chaosircd
