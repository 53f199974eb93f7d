import Chaosircd.ModeLines
import Chaosircd.Tokenize

/-!
# The parser of mode changes

`chanmode_parse` walks over a flag string with a direction and an index into the vector of
arguments.  A flag is looked up in a table of 64 entries, under the value of its byte less
0x40, and `chanmode_prepare` makes a change of it, for which it may take the argument at
the index.

The places of the table that are read, and the flags with the place of the argument they
are offered, are recorded.  Bytes are signed, so that one from 0x80 on is a large number
when it becomes an index; the class of letters has such bytes in it.
-/

namespace Chaosircd

namespace Modes

/-- What the parser looks at: the entries of `chanmode_table`, with what the memory behind
its 64 entries reads as, the clients by name, and the link the line came from. -/
structure ParseEnv where
  chanmodeTable : Nat → Option Chanmode
  clientFindUid : CString → Option Client
  clientFindNick : CString → Option Client
  clientFindNickhw : CString → Option Client
  isServer : Bool
  capUid : Bool

/-- The numerics that are sent back. -/
inductive ParseReply where
  | unknownMode (flag : Char)
  | noSuchNick (arg : CString)
  deriving DecidableEq

/-- `IRCD_MODESPERLINE`. -/
def modesPerLine : Nat := 4

/-! ## `chanmode_prepare` -/

/-- The client that the argument of a privilege mode names. -/
def ParseEnv.acptr (env : ParseEnv) (arg : CString) : Option Client :=
  if env.isServer then
    if env.capUid then env.clientFindUid arg else env.clientFindNick arg
  else env.clientFindNickhw arg

/-- `chanmode_prepare`: the change, the index into the arguments, and the numerics.  The
index goes on only with a change.  The fields it does not set are those of `stack`. -/
def chanmodePrepare (env : ParseEnv) (stack : Chanmodechange) (chptr : Channel) (what : What)
    (mode : Chanmode) (arg : Option CString) (ai : Nat) :
    Option Chanmodechange × Nat × List ParseReply :=
  let change : Chanmodechange :=
    { stack with
      bounced := 0
      mode := mode
      what := what
      arg := []
      acptr := none
      nmask := none
      umask := none
      hmask := none }
  match mode.type with
  | .single => (some change, ai, [])
  | .limit | .key =>
    if what = .add then
      match arg with
      | none => (none, ai, [])
      | some arg => (some { change with arg := strlcpy arg (prefixLen + 1) }, ai + 1, [])
    else (some change, ai, [])
  | .list =>
    if what ≠ .query then
      match arg with
      | none => (some { change with what := .query }, ai, [])
      | some arg => (some { change with arg := strlcpy arg (prefixLen + 1) }, ai + 1, [])
    else (some change, ai, [])
  | .privilege =>
    if what ≠ .query then
      match arg with
      | none => (none, ai, [])
      | some arg =>
        let arg := strlcpy arg (prefixLen + 1)
        match env.acptr arg with
        | none => (none, ai, [.noSuchNick arg])
        | some acptr =>
          match chptr.find acptr.id with
          | none => (none, ai, [])
          | some _ => (some { change with arg := arg, acptr := some acptr }, ai + 1, [])
    else (some change, ai, [])

/-! ## `chanmode_parse` -/

/-- A flag that has an entry, with its direction and the place of the argument it is
offered. -/
structure ParsedFlag where
  letter : Char
  what : What
  mode : Chanmode
  slot : Nat
  deriving DecidableEq

/-- The variables of the walk, and what it has read. -/
structure Parse where
  what : What
  ai : Nat
  changes : List Chanmodechange
  replies : List ParseReply
  indices : List Nat
  flags : List ParsedFlag
  deriving DecidableEq

/-- `(uint32_t)modes[mi] - 0x40`, where `modes[mi]` is signed. -/
def tableIndex (flag : Char) : Nat :=
  let byte := if flag.toNat < 0x80 then flag.toNat else 2 ^ 32 - 0x100 + flag.toNat
  (byte + (2 ^ 32 - 0x40)) % 2 ^ 32

/-- The default case for one byte of the flag string. -/
def parseLetter (env : ParseEnv) (stack : Chanmodechange) (chptr : Channel)
    (argp : List CString) (flag : Char) (state : Parse) : Parse :=
  if charsIsalpha flag then
    let state := { state with indices := state.indices ++ [tableIndex flag] }
    match env.chanmodeTable (tableIndex flag) with
    | none => { state with replies := state.replies ++ [.unknownMode flag] }
    | some mode =>
      let (change, ai, replies) :=
        chanmodePrepare env stack chptr state.what mode argp[state.ai]? state.ai
      { state with
        ai := ai
        changes := state.changes ++ change.toList
        replies := state.replies ++ replies
        flags := state.flags ++ [⟨flag, state.what, mode, state.ai⟩] }
  else { state with replies := state.replies ++ [.unknownMode flag] }

/-- The switch on one byte of the flag string. -/
def parseFlag (env : ParseEnv) (stack : Chanmodechange) (chptr : Channel)
    (argp : List CString) (flag : Char) (state : Parse) : Parse :=
  if flag = '=' then { state with what := .query }
  else if flag = '+' then { state with what := .add }
  else if flag = '-' then { state with what := .del }
  else parseLetter env stack chptr argp flag state

/-- The walk returns with the fourth change.  The counter that is compared with `pc` is
never increased. -/
def Parse.Ends (pc : Nat) (state : Parse) : Prop :=
  state.changes.length = modesPerLine ∨ pc = 0

instance (pc : Nat) (state : Parse) : Decidable (state.Ends pc) :=
  inferInstanceAs (Decidable (_ ∨ _))

/-- The walk over the flag string. -/
def parseFlags (env : ParseEnv) (stack : Chanmodechange) (chptr : Channel)
    (argp : List CString) (pc : Nat) : CString → Parse → Parse
  | [], state => state
  | flag :: modes, state =>
    let state := parseFlag env stack chptr argp flag state
    if state.Ends pc then state else parseFlags env stack chptr argp pc modes state

/-- The vector of arguments, less the null pointer at its end. -/
def argVector (args : Option CString) : List CString :=
  match args with
  | some (c :: cs) => strTokenize chanmodePerLine (c :: cs)
  | _ => []

/-- Where the walk starts. -/
def Parse.start : Parse :=
  ⟨.query, 0, [], [], [], []⟩

/-- `chanmode_parse`. -/
def chanmodeParse (env : ParseEnv) (stack : Chanmodechange) (chptr : Channel)
    (cuptr : Option Channel) (modes : CString) (args : Option CString) (pc : Nat) : Parse :=
  parseFlags env stack (cuptr.getD chptr) (argVector args) pc modes .start
/-! ## What one flag does -/

/-- Whether a flag takes an argument in a direction. -/
def takesArg (what : What) (mode : Chanmode) : Bool :=
  match mode.type with
  | .single => false
  | .limit | .key => what = .add
  | .list | .privilege => what ≠ .query

/-- The argument of a privilege mode names no member of the channel. -/
def NoMember (env : ParseEnv) (chptr : Channel) (mode : Chanmode) (arg : CString) : Prop :=
  mode.type = .privilege ∧
    ((env.acptr (strlcpy arg (prefixLen + 1))).bind fun acptr => chptr.find acptr.id) = none

instance (env : ParseEnv) (chptr : Channel) (mode : Chanmode) (arg : CString) :
    Decidable (NoMember env chptr mode arg) :=
  inferInstanceAs (Decidable (_ ∧ _))

section

variable {env : ParseEnv} {stack : Chanmodechange} {chptr : Channel} {argp : List CString}
  {pc : Nat}

/-- A flag without an argument makes a change.  One with an argument takes it, unless it
names no member; one whose argument is missing leaves the index where it is. -/
theorem chanmodePrepare_cases (what : What) (mode : Chanmode) (arg : Option CString)
    (ai : Nat) :
    (takesArg what mode = false ∧
        (chanmodePrepare env stack chptr what mode arg ai).1.isSome ∧
        (chanmodePrepare env stack chptr what mode arg ai).2.1 = ai) ∨
      (takesArg what mode = true ∧ arg = none ∧
        (chanmodePrepare env stack chptr what mode arg ai).2.1 = ai) ∨
      (takesArg what mode = true ∧ ∃ text, arg = some text ∧
        NoMember env chptr mode text ∧
        (chanmodePrepare env stack chptr what mode arg ai).1 = none ∧
        (chanmodePrepare env stack chptr what mode arg ai).2.1 = ai) ∨
      (takesArg what mode = true ∧ ∃ text, arg = some text ∧
        ¬ NoMember env chptr mode text ∧
        (chanmodePrepare env stack chptr what mode arg ai).1.isSome ∧
        (chanmodePrepare env stack chptr what mode arg ai).2.1 = ai + 1) := by
  unfold chanmodePrepare takesArg NoMember
  cases type : mode.type with
  | single => exact .inl ⟨rfl, rfl, rfl⟩
  | limit | key =>
      cases what with
      | add =>
          cases arg with
          | none => exact .inr (.inl ⟨rfl, rfl, rfl⟩)
          | some text =>
              exact .inr (.inr (.inr
                ⟨rfl, text, rfl, fun fails => ChanmodeType.noConfusion fails.1, rfl, rfl⟩))
      | del | query => exact .inl ⟨rfl, rfl, rfl⟩
  | list =>
      cases what with
      | add | del =>
          cases arg with
          | none => exact .inr (.inl ⟨rfl, rfl, rfl⟩)
          | some text =>
              exact .inr (.inr (.inr
                ⟨rfl, text, rfl, fun fails => ChanmodeType.noConfusion fails.1, rfl, rfl⟩))
      | query => exact .inl ⟨rfl, rfl, rfl⟩
  | privilege =>
      cases what with
      | add | del =>
          cases arg with
          | none => exact .inr (.inl ⟨rfl, rfl, rfl⟩)
          | some text =>
              right
              right
              dsimp only
              cases found : env.acptr (strlcpy text (prefixLen + 1)) with
              | none => exact .inl ⟨rfl, text, rfl, ⟨rfl, by rw [found]; rfl⟩, rfl, rfl⟩
              | some acptr =>
                  dsimp only
                  cases member : chptr.find acptr.id with
                  | none =>
                      exact .inl ⟨rfl, text, rfl, ⟨rfl, by rw [found]; exact member⟩, rfl, rfl⟩
                  | some target =>
                      refine .inr ⟨rfl, text, rfl, fun fails => ?_, rfl, rfl⟩
                      have none := fails.2
                      rw [found, Option.bind_some, member] at none
                      cases none
      | query => exact .inl ⟨rfl, rfl, rfl⟩

/-- A change is one of the mode it was made for. -/
theorem chanmodePrepare_mode {what : What} {mode : Chanmode} {arg : Option CString} {ai : Nat}
    {change : Chanmodechange}
    (made : change ∈ (chanmodePrepare env stack chptr what mode arg ai).1) :
    change.mode = mode := by
  unfold chanmodePrepare at made
  cases type : mode.type with
  | single =>
      rw [type] at made
      cases made
      rfl
  | limit | key | list =>
      rw [type] at made
      dsimp only at made
      split at made
      · split at made <;> cases made <;> rfl
      · cases made
        rfl
  | privilege =>
      rw [type] at made
      dsimp only at made
      split at made
      · split at made
        · cases made
        · split at made
          · cases made
          · split at made <;> cases made
            rfl
      · cases made
        rfl

/-! ## Inside the table and the arguments -/

/-- A letter whose byte is negative. -/
def HighLetter (flag : Char) : Prop :=
  charsIsalpha flag ∧ 0x80 ≤ flag.toNat

instance (flag : Char) : Decidable (HighLetter flag) :=
  inferInstanceAs (Decidable (_ ∧ _))

theorem charsIsalpha_bounds {flag : Char} (letter : charsIsalpha flag) :
    0x40 < flag.toNat ∧ flag.toNat < 0xFF := by
  simp only [charsIsalpha, inRanges, List.any_cons, List.any_nil, Bool.or_false,
    Bool.or_eq_true, Bool.and_eq_true, decide_eq_true_eq] at letter
  omega

theorem tableIndex_lt_iff {flag : Char} (letter : charsIsalpha flag) :
    tableIndex flag < 64 ↔ ¬ HighLetter flag := by
  have bounds := charsIsalpha_bounds letter
  rw [HighLetter, not_and, tableIndex]
  constructor
  · intro inside _ high
    rw [if_neg (by omega)] at inside
    omega
  · intro low
    have small := low letter
    rw [if_pos (by omega)]
    omega

/-- Every read of the table is inside it and every read of the arguments not behind their
end, every flag with an entry is a registered letter, every change is of a registered mode,
and there are no more changes than a line may have. -/
structure InBounds (env : ParseEnv) (argp : List CString) (state : Parse) : Prop where
  indices : ∀ i ∈ state.indices, i < 64
  slots : ∀ flag ∈ state.flags, flag.slot ≤ argp.length
  registered : ∀ flag ∈ state.flags, 0x40 ≤ flag.letter.toNat ∧ flag.letter.toNat < 0x80 ∧
    env.chanmodeTable (flag.letter.toNat - 0x40) = some flag.mode
  modes : ∀ change ∈ state.changes, ∃ i < 64, env.chanmodeTable i = some change.mode
  changes : state.changes.length ≤ modesPerLine

/-- A flag changes the direction, or it is looked up. -/
theorem parseFlag_cases (flag : Char) (state : Parse) :
    (¬ HighLetter flag ∧
        ∃ what, parseFlag env stack chptr argp flag state = { state with what := what }) ∨
      parseFlag env stack chptr argp flag state =
        parseLetter env stack chptr argp flag state := by
  rw [parseFlag]
  split
  · rename_i same
    rw [same]
    exact .inl ⟨by decide, _, rfl⟩
  · split
    · rename_i same
      rw [same]
      exact .inl ⟨by decide, _, rfl⟩
    · split
      · rename_i same
        rw [same]
        exact .inl ⟨by decide, _, rfl⟩
      · exact .inr rfl

/-- A flag that is looked up is no letter, or has no entry, or a change is prepared. -/
theorem parseLetter_cases (flag : Char) (state : Parse) :
    (charsIsalpha flag = false ∧ ∃ replies, parseLetter env stack chptr argp flag state =
        { state with replies := replies }) ∨
      (charsIsalpha flag = true ∧ env.chanmodeTable (tableIndex flag) = none ∧
        ∃ replies, parseLetter env stack chptr argp flag state =
          { state with
            indices := state.indices ++ [tableIndex flag]
            replies := replies }) ∨
      (charsIsalpha flag = true ∧ ∃ mode, env.chanmodeTable (tableIndex flag) = some mode ∧
        ∃ change ai replies,
          chanmodePrepare env stack chptr state.what mode argp[state.ai]? state.ai =
              (change, ai, replies) ∧
            parseLetter env stack chptr argp flag state =
              { state with
                ai := ai
                changes := state.changes ++ change.toList
                replies := state.replies ++ replies
                indices := state.indices ++ [tableIndex flag]
                flags := state.flags ++ [⟨flag, state.what, mode, state.ai⟩] }) := by
  rw [parseLetter]
  split
  · rename_i letter
    right
    dsimp only
    cases entry : env.chanmodeTable (tableIndex flag) with
    | none => exact .inl ⟨letter, rfl, _, rfl⟩
    | some mode => exact .inr ⟨letter, mode, rfl, _, _, _, rfl, rfl⟩
  · rename_i other
    exact .inl ⟨Bool.eq_false_of_not_eq_true other, _, rfl⟩

theorem indices_parseLetter {flag : Char} (letter : charsIsalpha flag) (state : Parse) :
    (parseLetter env stack chptr argp flag state).indices =
      state.indices ++ [tableIndex flag] := by
  rcases @parseLetter_cases env stack chptr argp flag state with
    ⟨other, _⟩ | ⟨_, _, _, same⟩ | ⟨_, _, _, _, _, _, _, same⟩
  · rw [letter] at other
    cases other
  · rw [same]
  · rw [same]

theorem indices_parseFlag (flag : Char) (state : Parse) :
    ∀ i ∈ state.indices, i ∈ (parseFlag env stack chptr argp flag state).indices := by
  intro i member
  rcases @parseFlag_cases env stack chptr argp flag state with ⟨_, _, same⟩ | same
  · rw [same]
    exact member
  · rw [same]
    rcases @parseLetter_cases env stack chptr argp flag state with
      ⟨_, _, same⟩ | ⟨_, _, _, same⟩ | ⟨_, _, _, _, _, _, _, same⟩
    · rw [same]
      exact member
    · rw [same]
      exact List.mem_append_left _ member
    · rw [same]
      exact List.mem_append_left _ member

theorem indices_parseFlags (modes : CString) (state : Parse) :
    ∀ i ∈ state.indices, i ∈ (parseFlags env stack chptr argp pc modes state).indices := by
  induction modes generalizing state with
  | nil => exact fun _ member => member
  | cons flag modes induction =>
      intro i member
      have after := @indices_parseFlag env stack chptr argp flag state i member
      rw [parseFlags]
      split
      · exact after
      · exact induction _ i after

/-- A letter from 0x80 on is looked up outside the table. -/
theorem HighLetter.not_inBounds {flag : Char} (high : HighLetter flag) (modes : CString)
    (state : Parse) :
    ¬ InBounds env argp (parseFlags env stack chptr argp pc (flag :: modes) state) := by
  intro inside
  have looked : tableIndex flag ∈ (parseFlag env stack chptr argp flag state).indices := by
    rcases @parseFlag_cases env stack chptr argp flag state with ⟨low, _⟩ | same
    · exact absurd high low
    · rw [same, indices_parseLetter high.1]
      exact List.mem_append_right _ List.mem_cons_self
  have small := inside.indices (tableIndex flag) (by
    rw [parseFlags]
    split
    · exact looked
    · exact indices_parseFlags modes _ _ looked)
  exact (tableIndex_lt_iff high.1).mp small high

/-- The index into the arguments goes on by one, and not from the null pointer. -/
theorem chanmodePrepare_ai {what : What} {mode : Chanmode} {ai : Nat}
    (index : ai ≤ argp.length) :
    (chanmodePrepare env stack chptr what mode argp[ai]? ai).2.1 ≤ argp.length := by
  rcases @chanmodePrepare_cases env stack chptr what mode argp[ai]? ai with
    ⟨_, _, same⟩ | ⟨_, _, same⟩ | ⟨_, _, _, _, _, same⟩ | ⟨_, text, filled, _, _, same⟩
  · rw [same]
    exact index
  · rw [same]
    exact index
  · rw [same]
    exact index
  · rw [same]
    exact (List.getElem?_eq_some_iff.mp filled).1

/-- Any other flag keeps the walk inside. -/
theorem InBounds.parseFlag {state : Parse} {flag : Char} (inside : InBounds env argp state)
    (index : state.ai ≤ argp.length) (room : state.changes.length < modesPerLine)
    (low : ¬ HighLetter flag) :
    InBounds env argp (parseFlag env stack chptr argp flag state) ∧
      (parseFlag env stack chptr argp flag state).ai ≤ argp.length := by
  rcases @parseFlag_cases env stack chptr argp flag state with ⟨_, _, same⟩ | same
  · rw [same]
    exact ⟨⟨inside.indices, inside.slots, inside.registered, inside.modes, inside.changes⟩,
      index⟩
  · rw [same]
    have indices : charsIsalpha flag → ∀ i ∈ state.indices ++ [tableIndex flag], i < 64 := by
      intro letter i member
      rcases List.mem_append.mp member with before | new
      · exact inside.indices i before
      · rw [List.mem_singleton.mp new]
        exact (tableIndex_lt_iff letter).mpr low
    rcases @parseLetter_cases env stack chptr argp flag state with
      ⟨_, _, same⟩ | ⟨letter, _, _, same⟩ |
        ⟨letter, mode, entry, change, ai, replies, prepared, same⟩
    · rw [same]
      exact ⟨⟨inside.indices, inside.slots, inside.registered, inside.modes,
        inside.changes⟩, index⟩
    · rw [same]
      exact ⟨⟨indices letter, inside.slots, inside.registered, inside.modes,
        inside.changes⟩, index⟩
    · rw [same]
      have after := @chanmodePrepare_ai env stack chptr argp state.what mode state.ai index
      have ofMode : ∀ made ∈ change, made.mode = mode := by
        intro made member
        apply @chanmodePrepare_mode env stack chptr state.what mode argp[state.ai]? state.ai
        rw [prepared]
        exact member
      rw [prepared] at after
      have bounds := charsIsalpha_bounds letter
      have small : flag.toNat < 0x80 := by
        rw [HighLetter, not_and] at low
        have := low letter
        omega
      refine ⟨⟨indices letter, ?_, ?_, ?_, ?_⟩, after⟩
      · intro parsed member
        rcases List.mem_append.mp member with before | new
        · exact inside.slots parsed before
        · rw [List.mem_singleton.mp new]
          exact index
      · intro parsed member
        rcases List.mem_append.mp member with before | new
        · exact inside.registered parsed before
        · rw [List.mem_singleton.mp new]
          have place : tableIndex flag = flag.toNat - 0x40 := by
            rw [tableIndex, if_pos small]
            omega
          rw [place] at entry
          exact ⟨by dsimp only; omega, small, entry⟩
      · intro made member
        rcases List.mem_append.mp member with before | new
        · exact inside.modes made before
        · rw [ofMode made (Option.mem_toList.mp new)]
          exact ⟨_, (tableIndex_lt_iff letter).mpr low, entry⟩
      · rw [List.length_append]
        have one : change.toList.length ≤ 1 := by cases change <;> simp
        omega

/-- The walk from a state inside stays there just when it comes to no letter from 0x80
on. -/
theorem InBounds.parseFlags_iff {state : Parse} (modes : CString)
    (inside : InBounds env argp state) (index : state.ai ≤ argp.length)
    (room : state.changes.length < modesPerLine) :
    InBounds env argp (parseFlags env stack chptr argp pc modes state) ↔
      ∀ before flag after, modes = before ++ flag :: after → HighLetter flag →
        before ≠ [] ∧ (parseFlags env stack chptr argp pc before state).Ends pc := by
  induction modes generalizing state with
  | nil => exact iff_of_true inside fun before flag after same => by simp at same
  | cons first modes induction =>
      by_cases high : HighLetter first
      · apply iff_of_false (high.not_inBounds modes state)
        intro none
        exact (none [] first modes rfl high).1 rfl
      · obtain ⟨inside', index'⟩ :=
          @InBounds.parseFlag env stack chptr argp state first inside index room high
        by_cases ends : (Modes.parseFlag env stack chptr argp first state).Ends pc
        · have last : ∀ rest, Modes.parseFlags env stack chptr argp pc (first :: rest) state =
              Modes.parseFlag env stack chptr argp first state := by
            intro rest
            rw [Modes.parseFlags, if_pos ends]
          rw [last]
          apply iff_of_true inside'
          intro before flag after same high'
          cases before with
          | nil =>
              cases same
              exact absurd high' high
          | cons c before =>
              cases same
              rw [last]
              exact ⟨nofun, ends⟩
        · have goesOn : ∀ rest, Modes.parseFlags env stack chptr argp pc (first :: rest) state =
              Modes.parseFlags env stack chptr argp pc rest
                (Modes.parseFlag env stack chptr argp first state) := by
            intro rest
            rw [Modes.parseFlags, if_neg ends]
          have room' : (Modes.parseFlag env stack chptr argp first state).changes.length <
              modesPerLine := by
            have most := inside'.changes
            rw [Parse.Ends, not_or] at ends
            omega
          rw [goesOn, induction inside' index' room']
          constructor
          · intro later before flag after same high'
            cases before with
            | nil =>
                cases same
                exact absurd high' high
            | cons c before =>
                cases same
                rw [goesOn]
                exact ⟨nofun, (later before flag after rfl high').2⟩
          · intro all before flag after same high'
            obtain ⟨_, ended⟩ := all (first :: before) flag after (by rw [same]; rfl) high'
            rw [goesOn] at ended
            refine ⟨?_, ended⟩
            rintro rfl
            exact ends ended

theorem inBounds_start : InBounds env argp .start :=
  ⟨fun _ member => absurd member List.not_mem_nil, fun _ member => absurd member List.not_mem_nil,
    fun _ member => absurd member List.not_mem_nil,
    fun _ member => absurd member List.not_mem_nil, Nat.zero_le _⟩

end

/-- The parser stays in bounds just when every letter from 0x80 on in the flag string
stands behind the flag that the walk ends with. -/
theorem chanmodeParse_inBounds_iff (env : ParseEnv) (stack : Chanmodechange) (chptr : Channel)
    (cuptr : Option Channel) (modes : CString) (args : Option CString) (pc : Nat) :
    InBounds env (argVector args) (chanmodeParse env stack chptr cuptr modes args pc) ↔
      ∀ before flag after, modes = before ++ flag :: after → HighLetter flag →
        before ≠ [] ∧ (chanmodeParse env stack chptr cuptr before args pc).Ends pc :=
  inBounds_start.parseFlags_iff modes (Nat.zero_le _) (by decide)

/-- A single letter from 0xC0 on. -/
theorem high_letter_leaves_table :
    ¬ InBounds ⟨fun _ => none, fun _ => none, fun _ => none, fun _ => none, false, false⟩
      (argVector none)
      (chanmodeParse
        ⟨fun _ => none, fun _ => none, fun _ => none, fun _ => none, false, false⟩
        (explicitDel ⟨'n', .single, ∅, .chanmodeBounceSimple⟩ ⟨[], [], [], [], [], 0, 0⟩)
        ⟨1, "#a".toList, ∅, [], 0, fun _ => [], [], ∅⟩ none "+ä".toList none 4) := by
  intro inside
  have small := inside.indices 4294967204 (by decide +kernel)
  omega

end Modes

end Chaosircd
