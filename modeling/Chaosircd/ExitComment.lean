import Chaosircd.PrintFormat
import Mathlib.Data.List.TakeWhile

/-!
# The comment of an exit

`lclient_vexit` formats the reason of an exit to a buffer and hands the buffer to
`client_vexit`, which takes it for a format.  What the user's clients and servers are told is
the reason formatted twice.
-/

namespace Chaosircd

namespace ExitComment

open PrintFormat

/-! ## The two functions -/

/-- `IRCD_TOPICLEN`. -/
def topiclen : Nat := 384

/-- `str_vsnprintf` to a buffer of `IRCD_TOPICLEN + 1` bytes: the string that is in it. -/
def formatBuf (table : StrTable) (format : CString) (args : List Arg) : Option CString := do
  let (stored, _) ← strVsnprintf table (topiclen + 1) format args
  if stored.length ≤ topiclen + 1 then some (stored.takeWhile (· ≠ '\x00')) else none

/-- A comment that is passed on, and where: to the client that leaves, to the hooks and the
log, to the servers and the channels of the user, to the servers. -/
inductive Said where
  | error (comment : CString)
  | hook (comment : CString)
  | quit (comment : CString)
  | nquit (comment : CString)
  deriving DecidableEq

def Said.comment : Said → CString
  | error comment | hook comment | quit comment | nquit comment => comment

/-- What `lclient_vexit` looks at in a `struct lclient`: whether it has registered, whether it
can be written to and whether it is that of a server. -/
structure Lclient where
  registered : Bool
  writable : Bool
  server : Bool

/-- What `client_vexit` looks at in a `struct client`. -/
structure Client where
  user : Bool
  server : Bool
  lclient : Option Lclient

/-- What `lclient_vexit` says before it comes to the client. -/
def Lclient.tells (l : Lclient) (buf : CString) : List Said :=
  (if l.registered && l.writable then [.error buf] else []) ++
    if l.server then [.nquit buf] else []

/-- `lclient_exit(lcptr, "%s", cstr)` of a connection that has no client any more. -/
def lclientExit (table : StrTable) (l : Lclient) (cstr : CString) : Option (List Said) :=
  (formatBuf table ['%', 's'] [.str (some cstr)]).map l.tells

/-- The comment of `client_vexit`. -/
def exitComment (table : StrTable) (args : List Arg) : Option CString → Option CString
  | some comment => formatBuf table comment args
  | none => some "client quit".toList

/-- The end of `client_vexit`, where the client has a connection. -/
def Client.exitLclient (table : StrTable) (c : Client) (cstr : CString) : Option (List Said) :=
  match c.lclient with
  | none => some []
  | some l => lclientExit table { l with server := l.server && !c.server } cstr

/-- `client_vexit`. -/
def clientVexit (table : StrTable) (c : Client) (comment : Option CString) (args : List Arg) :
    Option (List Said) := do
  let cstr ← exitComment table args comment
  let rest ← c.exitLclient table cstr
  some ([.hook cstr] ++ (if c.user then [.quit cstr] else []) ++
    (if c.server then [.nquit cstr] else []) ++ rest)

/-- `lclient_vexit`.  The second `va_list` is what is left of the first one, which the
functions that it was passed to have read. -/
def lclientVexit (table : StrTable) (l : Lclient) (client : Option Client) (format : CString)
    (args again : List Arg) : Option (List Said) := do
  let buf ← formatBuf table format args
  let rest ←
    match client with
    | none => some []
    | some c =>
      clientVexit table { c with server := c.server && !l.server, lclient := none } (some buf)
        again
  some (l.tells buf ++ rest)

/-- The comment is that text wherever it is passed on. -/
def SaysOnly (result : Option (List Said)) (text : CString) : Prop :=
  ∃ said, result = some said ∧ ∀ s ∈ said, s.comment = text

/-! ## Text that is formatted again -/

section Formatting

variable {table : StrTable} {n : Nat}

/-- Without a `%` in it a format is copied. -/
theorem vsnprintfLoop_plain (text : CString) {turns : Nat} {args : List Arg} {longlev : Nat}
    {out : CString} (plain : ∀ c ∈ text, c ≠ '%' ∧ c ≠ '\x00') (turnsLeft : text.length < turns)
    (room : out.length + text.length ≤ n) :
    vsnprintfLoop table n turns (text ++ ['\x00']) args longlev out = some (out ++ text) := by
  induction text generalizing turns out with
  | nil =>
    obtain ⟨turns, rfl⟩ := Nat.exists_eq_succ_of_ne_zero (Nat.ne_of_gt turnsLeft)
    rw [List.nil_append, vsnprintfLoop, if_pos (.inl rfl), List.append_nil]
  | cons c text ih =>
    obtain ⟨turns, rfl⟩ := Nat.exists_eq_succ_of_ne_zero (Nat.ne_of_gt (Nat.zero_lt_of_lt turnsLeft))
    simp only [List.length_cons] at turnsLeft room
    obtain ⟨percent, nul⟩ := plain c List.mem_cons_self
    have inside : ¬(c = '\x00' ∨ n ≤ out.length) := by
      rintro (ended | full)
      · exact nul ended
      · omega
    rw [List.cons_append, vsnprintfLoop, if_neg inside, if_neg percent,
      ih (fun d listed => plain d (List.mem_cons_of_mem c listed)) (by omega)
        (by rw [List.length_append, List.length_singleton]; omega),
      List.append_assoc, List.singleton_append]

/-- Without arguments only what is no conversion is copied. -/
theorem convert_nil {spec : Spec} {c : Char} {out : CString}
    {converted : CString × List Arg × Nat}
    (some_result : convert table n spec c [] out = some converted) :
    converted.1 = out ++ [c] ∧ converted.2.1 = [] := by
  rw [convert] at some_result
  simp only [argStr, arg32, arg64, argPtr, Option.bind_eq_bind, Option.bind_none] at some_result
  generalize (if strIsalpha c = true then table c else none) = registered at some_result
  split_ifs at some_result
  cases registered with
  | some cb => exact absurd some_result (by simp)
  | none =>
    rw [← Option.some.inj some_result]
    exact ⟨rfl, rfl⟩

theorem length_readI64 {f : List Char} {spec : Spec} {read : Spec × Char × List Char}
    (some_result : readI64 spec f = some read) : read.2.2.length < f.length := by
  unfold readI64 at some_result
  split at some_result
  · rw [← Option.some.inj some_result]
    simp only [List.length_cons]
    omega
  · exact absurd some_result (by simp)

/-- Behind a `%` one character is read at least. -/
theorem length_readSpec {f : List Char} {phase : Nat} {spec : Spec}
    {read : Spec × Char × List Char} (some_result : readSpec f phase spec = some read) :
    read.2.2.length < f.length := by
  induction f generalizing phase spec with
  | nil => exact absurd some_result (by simp [readSpec])
  | cons c f ih =>
    rw [readSpec] at some_result
    rw [List.length_cons]
    split_ifs at some_result
    · exact Nat.lt_succ_of_lt (ih some_result)
    · exact Nat.lt_succ_of_lt (ih some_result)
    · exact Nat.lt_succ_of_lt (ih some_result)
    · exact Nat.lt_succ_of_lt (ih some_result)
    · exact Nat.lt_succ_of_lt (length_readI64 some_result)
    · rw [← Option.some.inj some_result]
      exact Nat.lt_succ_self _

/-- A turn at a `%` takes two characters of the format at least for one that it writes. -/
theorem percent_turn {turns longlev : Nat} {f : List Char} {out out' : CString}
    (later : ∀ {f : List Char} {longlev : Nat} {out : CString},
      vsnprintfLoop table n turns f [] longlev out = some out' →
        out'.length < out.length + f.length)
    (room : out.length < n)
    (looped : vsnprintfLoop table n (turns + 1) ('%' :: f) [] longlev out = some out') :
    out'.length < out.length + f.length := by
  rw [vsnprintfLoop, if_neg (not_or.mpr ⟨by decide, by omega⟩), if_pos rfl] at looped
  split at looped
  · exact absurd looped (by simp)
  next read =>
    split at looped
    · exact absurd looped (by simp)
    next converted =>
      have shorter := length_readSpec read
      obtain ⟨written, emptied⟩ := convert_nil converted
      simp only at shorter written emptied
      subst written emptied
      have rest := later looped
      rw [List.length_append, List.length_singleton] at rest
      omega

/-- Each turn takes one character of the format at least for one that it writes. -/
theorem length_vsnprintfLoop_nil {turns longlev : Nat} {f : List Char} {out out' : CString}
    (looped : vsnprintfLoop table n turns f [] longlev out = some out') :
    out'.length < out.length + f.length := by
  induction turns generalizing f out longlev with
  | zero => exact absurd looped (by simp [vsnprintfLoop])
  | succ turns ih =>
    cases f with
    | nil => exact absurd looped (by simp [vsnprintfLoop])
    | cons c f =>
      by_cases ended : c = '\x00' ∨ n ≤ out.length
      · rw [vsnprintfLoop, if_pos ended, Option.some.injEq] at looped
        rw [← looped, List.length_cons]
        omega
      by_cases percent : c = '%'
      · subst percent
        have fewer := percent_turn ih (by omega) looped
        rw [List.length_cons]
        omega
      · rw [vsnprintfLoop, if_neg ended, if_neg percent] at looped
        have rest := ih looped
        rw [List.length_append, List.length_singleton] at rest
        rw [List.length_cons]
        omega

/-- What a text with a `%` is formatted to, without arguments, is shorter. -/
theorem length_vsnprintfLoop_percent (text : CString) {turns longlev : Nat} {out out' : CString}
    (percent : '%' ∈ text) (plain : '\x00' ∉ text) (room : out.length + text.length ≤ n)
    (looped : vsnprintfLoop table n turns (text ++ ['\x00']) [] longlev out = some out') :
    out'.length < out.length + text.length := by
  induction text generalizing turns out with
  | nil => exact absurd percent List.not_mem_nil
  | cons c text ih =>
    cases turns with
    | zero => exact absurd looped (by simp [vsnprintfLoop])
    | succ turns =>
      rw [List.length_cons] at room ⊢
      by_cases first : c = '%'
      · subst first
        rw [List.cons_append] at looped
        have fewer := percent_turn length_vsnprintfLoop_nil (by omega) looped
        rw [List.length_append, List.length_singleton] at fewer
        omega
      · have goesOn : ¬(c = '\x00' ∨ n ≤ out.length) :=
          not_or.mpr ⟨(List.ne_of_not_mem_cons plain).symm, by omega⟩
        rw [List.cons_append, vsnprintfLoop, if_neg goesOn, if_neg first] at looped
        have within : '%' ∈ text :=
          (List.mem_cons.mp percent).resolve_left fun same => first same.symm
        have rest := ih within (List.not_mem_of_not_mem_cons plain)
          (by rw [List.length_append, List.length_singleton]; omega) looped
        rw [List.length_append, List.length_singleton] at rest
        omega

end Formatting

/-! ## The buffer -/

section Buffer

variable {table : StrTable}

theorem takeWhile_terminated (out : CString) :
    (out ++ ['\x00']).takeWhile (· ≠ '\x00') = out.takeWhile (· ≠ '\x00') := by
  induction out with
  | nil => rfl
  | cons c out ih =>
    rw [List.cons_append, List.takeWhile_cons, List.takeWhile_cons, ih]

theorem formatBuf_eq_some_iff {format text : CString} {args : List Arg} :
    formatBuf table format args = some text ↔
      ∃ out, vsnprintfLoop table topiclen (format.length + 1) (format ++ ['\x00']) args 0 [] =
          some out ∧ out.length ≤ topiclen ∧ out.takeWhile (· ≠ '\x00') = text := by
  rw [formatBuf, strVsnprintf, if_neg (Nat.succ_ne_zero _), Nat.add_sub_cancel,
    Option.bind_eq_bind, Option.bind_map, Option.bind_eq_some_iff]
  apply exists_congr
  intro out
  apply and_congr_right
  intro looped
  simp only [Function.comp_apply, List.length_append, List.length_singleton, takeWhile_terminated]
  by_cases fits : out.length ≤ topiclen
  · rw [if_pos (by omega), Option.some.injEq]
    exact (and_iff_right fits).symm
  · rw [if_neg (by omega)]
    exact iff_of_false (by simp) fun inside => fits inside.1

theorem formatBuf_spec {format text : CString} {args : List Arg}
    (formatted : formatBuf table format args = some text) :
    text.length ≤ topiclen ∧ '\x00' ∉ text := by
  obtain ⟨out, -, fits, rfl⟩ := formatBuf_eq_some_iff.mp formatted
  refine ⟨(List.takeWhile_prefix _).length_le.trans fits, fun listed => ?_⟩
  exact absurd (List.mem_takeWhile_imp listed) (by decide)

theorem takeWhile_eq_self {text : CString} (ended : '\x00' ∉ text) :
    text.takeWhile (· ≠ '\x00') = text := by
  rw [List.takeWhile_eq_self_iff]
  intro c listed
  exact decide_eq_true fun same => ended (same ▸ listed)

/-- A text that fits and has no `%` in it is its own format. -/
theorem formatBuf_plain {text : CString} (args : List Arg) (plain : '%' ∉ text)
    (ended : '\x00' ∉ text) (fits : text.length ≤ topiclen) :
    formatBuf table text args = some text := by
  have copied : vsnprintfLoop table topiclen (text.length + 1) (text ++ ['\x00']) args 0 [] =
      some ([] ++ text) := by
    apply vsnprintfLoop_plain text _ (Nat.lt_succ_self _)
    · rw [List.length_nil, Nat.zero_add]
      exact fits
    · exact fun c listed => ⟨fun same => plain (same ▸ listed), fun same => ended (same ▸ listed)⟩
  exact formatBuf_eq_some_iff.mpr ⟨text, copied, fits, takeWhile_eq_self ended⟩

/-- A text with a `%` in it is not its own format, as far as there are no arguments. -/
theorem formatBuf_percent {text : CString} (percent : '%' ∈ text) (ended : '\x00' ∉ text)
    (fits : text.length ≤ topiclen) : formatBuf table text [] ≠ some text := by
  intro formatted
  obtain ⟨out, looped, -, same⟩ := formatBuf_eq_some_iff.mp formatted
  have fewer := length_vsnprintfLoop_percent text percent ended
    (by rw [List.length_nil, Nat.zero_add]; exact fits) looped
  have front := (List.takeWhile_prefix (l := out) (· ≠ '\x00')).length_le
  rw [same] at front
  rw [List.length_nil] at fewer
  omega

theorem formatBuf_string {text : CString} (ended : '\x00' ∉ text)
    (fits : text.length ≤ topiclen) :
    formatBuf table ['%', 's'] [.str (some text)] = some text := by
  refine formatBuf_eq_some_iff.mpr ⟨text, ?_, fits, takeWhile_eq_self ended⟩
  have copied : emit topiclen false 0 ' ' text [] = text := by
    rw [emit_right (Nat.zero_le _), Nat.zero_sub, List.replicate_zero, List.nil_append,
      List.nil_append, List.take_of_length_le fits]
  have turn : vsnprintfLoop table topiclen 3 ['%', 's', '\x00'] [.str (some text)] 0 [] =
      vsnprintfLoop table topiclen 2 ['\x00'] [] 0 (emit topiclen false 0 ' ' text []) := rfl
  rw [copied] at turn
  exact turn

end Buffer

/-! ## What an exit says -/

section Exits

variable {table : StrTable}

theorem comment_of_tells {l : Lclient} {buf : CString} {s : Said} (said : s ∈ l.tells buf) :
    s.comment = buf := by
  rw [Lclient.tells, List.mem_append] at said
  rcases said with error | nquit
  · split at error
    · rw [List.eq_of_mem_singleton error]
      rfl
    · exact absurd error List.not_mem_nil
  · split at nquit
    · rw [List.eq_of_mem_singleton nquit]
      rfl
    · exact absurd nquit List.not_mem_nil

theorem lclientExit_eq (l : Lclient) {cstr : CString} (ended : '\x00' ∉ cstr)
    (fits : cstr.length ≤ topiclen) : lclientExit table l cstr = some (l.tells cstr) := by
  rw [lclientExit, formatBuf_string ended fits, Option.map_some]

/-- `client_vexit` formats once: what it hands on to the connection is an argument of `%s`. -/
theorem clientVexit_spec (c : Client) {comment text : CString} {args : List Arg}
    (formatted : formatBuf table comment args = some text) :
    SaysOnly (clientVexit table c (some comment) args) text := by
  obtain ⟨fits, ended⟩ := formatBuf_spec formatted
  have connection : ∃ rest, c.exitLclient table text = some rest ∧
      ∀ s ∈ rest, s.comment = text := by
    rw [Client.exitLclient]
    cases c.lclient with
    | none => exact ⟨[], rfl, fun s listed => absurd listed List.not_mem_nil⟩
    | some l => exact ⟨_, lclientExit_eq _ ended fits, fun s said => comment_of_tells said⟩
  obtain ⟨rest, connected, right⟩ := connection
  refine ⟨[.hook text] ++ (if c.user then [.quit text] else []) ++
    (if c.server then [.nquit text] else []) ++ rest, ?_, ?_⟩
  · rw [clientVexit, exitComment, formatted, Option.bind_eq_bind, Option.bind_some, connected]
    rfl
  · intro s said
    simp only [List.mem_append, List.mem_singleton] at said
    rcases said with ((rfl | quit) | nquit) | said
    · rfl
    · split at quit
      · rw [List.eq_of_mem_singleton quit]
        rfl
      · exact absurd quit List.not_mem_nil
    · split at nquit
      · rw [List.eq_of_mem_singleton nquit]
        rfl
      · exact absurd nquit List.not_mem_nil
    · exact right s said

/-- The hooks are told what the comment is formatted to. -/
theorem formatBuf_of_clientVexit {c : Client} {comment text : CString} {args : List Arg}
    (saysOnly : SaysOnly (clientVexit table c (some comment) args) text) :
    formatBuf table comment args = some text := by
  obtain ⟨said, result, right⟩ := saysOnly
  rw [clientVexit, exitComment] at result
  simp only [Option.bind_eq_bind, Option.bind_eq_some_iff, Option.some.injEq] at result
  obtain ⟨cstr, formatted, rest, -, rfl⟩ := result
  have hook := right (.hook cstr) (by simp)
  rw [formatted, ← hook]
  rfl

theorem lclientVexit_none {l : Lclient} {format text : CString} {args again : List Arg}
    (formatted : formatBuf table format args = some text) :
    lclientVexit table l none format args again = some (l.tells text) := by
  rw [lclientVexit, formatted]
  simp

theorem lclientVexit_some {l : Lclient} {c : Client} {format text : CString}
    {args again : List Arg} (formatted : formatBuf table format args = some text) :
    lclientVexit table l (some c) format args again =
      (clientVexit table { c with server := c.server && !l.server, lclient := none } (some text)
        again).map (l.tells text ++ ·) := by
  rw [lclientVexit, formatted]
  simp only [Option.bind_eq_bind, Option.bind_some]
  rw [Option.map_eq_bind]
  rfl

/-- Whatever the second reading of the arguments yields, everyone is told the reason formatted
once, exactly if the connection has no client yet or there is no `%` in that. -/
theorem lclientVexit_iff (table : StrTable) (l : Lclient) (client : Option Client)
    (format : CString) (args : List Arg) {text : CString}
    (formatted : formatBuf table format args = some text) :
    (∀ again, SaysOnly (lclientVexit table l client format args again) text) ↔
      client = none ∨ '%' ∉ text := by
  obtain ⟨fits, ended⟩ := formatBuf_spec formatted
  cases client with
  | none =>
    refine iff_of_true (fun again => ⟨_, lclientVexit_none formatted, ?_⟩) (.inl rfl)
    exact fun s said => comment_of_tells said
  | some c =>
    constructor
    · intro right
      refine .inr fun percent => ?_
      obtain ⟨said, result, said_right⟩ := right []
      rw [lclientVexit_some formatted, Option.map_eq_some_iff] at result
      obtain ⟨later, exited, rfl⟩ := result
      have again : SaysOnly (some later) text :=
        ⟨later, rfl, fun s listed => said_right s (List.mem_append_right _ listed)⟩
      rw [← exited] at again
      exact formatBuf_percent percent ended fits (formatBuf_of_clientVexit again)
    · rintro (absent | plain) again
      · exact absurd absent (Option.some_ne_none c)
      · obtain ⟨later, exited, right⟩ := clientVexit_spec
          { c with server := c.server && !l.server, lclient := none }
          (@formatBuf_plain table text again plain ended fits)
        refine ⟨l.tells text ++ later, ?_, fun s said => ?_⟩
        · rw [lclientVexit_some formatted, exited, Option.map_some]
        · exact (List.mem_append.mp said).elim comment_of_tells (right s)

theorem lclientVexit_iff_bye :
    formatBuf (fun _ => none) ['%', 's'] [.str (some "bye".toList)] = some "bye".toList ∧
      ((∀ again, SaysOnly
          (lclientVexit (fun _ => none) ⟨true, true, false⟩ (some ⟨true, false, none⟩) ['%', 's']
            [.str (some "bye".toList)] again) "bye".toList) ↔
        (some ⟨true, false, none⟩ : Option Client) = none ∨ '%' ∉ "bye".toList) :=
  ⟨by decide +kernel, lclientVexit_iff _ _ _ _ _ (by decide +kernel)⟩

/-- A banned user's client leaves with another comment than the one that the user is sent. -/
theorem lclientVexit_banned :
    (∀ again, lclientVexit (fun _ => none) ⟨true, true, false⟩ (some ⟨true, false, none⟩)
        "k-lined: %s".toList [.str (some "100%% spam".toList)] again =
      some [.error "k-lined: 100%% spam".toList, .hook "k-lined: 100% spam".toList,
        .quit "k-lined: 100% spam".toList]) ∧
      ¬∀ (table : StrTable) (l : Lclient) (client : Option Client) (format : CString)
        (args again : List Arg) (text : CString), formatBuf table format args = some text →
          SaysOnly (lclientVexit table l client format args again) text := by
  have told : ∀ again, lclientVexit (fun _ => none) ⟨true, true, false⟩
      (some ⟨true, false, none⟩) "k-lined: %s".toList [.str (some "100%% spam".toList)] again =
      some [.error "k-lined: 100%% spam".toList, .hook "k-lined: 100% spam".toList,
        .quit "k-lined: 100% spam".toList] := by
    intro again
    repeat rw [String.toList_ofList]
    rfl
  refine ⟨told, fun always => ?_⟩
  obtain ⟨said, result, right⟩ := always (fun _ => none) ⟨true, true, false⟩
    (some ⟨true, false, none⟩) "k-lined: %s".toList [.str (some "100%% spam".toList)] []
    "k-lined: 100%% spam".toList (by repeat rw [String.toList_ofList]
                                     decide +kernel)
  rw [told, Option.some.injEq] at result
  have quit := right (.quit "k-lined: 100% spam".toList) (by
    rw [← result]
    exact List.mem_cons_of_mem _ (List.mem_cons_of_mem _ List.mem_cons_self))
  revert quit
  repeat rw [String.toList_ofList]
  decide +kernel

end Exits

end ExitComment

end Chaosircd
