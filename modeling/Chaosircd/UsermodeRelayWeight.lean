import Chaosircd.UsermodeRelay
import Mathlib.Algebra.BigOperators.Group.List.Basic

/-!
# Mode changes that do not travel

A server cannot get more out of a line than there is in it.  A change weighs one for its
letter, and for an argument its length and a blank: as much as it adds to a line, signs
apart.  What is parsed weighs at most as much as the line, and it weighs less when the line
is cut, when an argument is more or less than a word, or when one is left over.
-/

namespace Chaosircd

namespace Usermodes

/-! ## Weights -/

/-- What a change adds to a line, signs apart. -/
def Usermodechange.weight (umcptr : Usermodechange) : Nat :=
  match umcptr.arg with
  | none => 1
  | some arg => arg.length + 2

def weight (changes : List Usermodechange) : Nat :=
  (changes.map Usermodechange.weight).sum

/-- The characters of a word that are no signs. -/
def letters (word : CString) : Nat :=
  word.countP fun c => !(c == '+' || c == '-')

/-- Words, and a blank before each. -/
def tokenWeight (tokens : List CString) : Nat :=
  (tokens.map fun token => token.length + 1).sum

@[simp]
theorem weight_nil : weight [] = 0 :=
  rfl

@[simp]
theorem weight_cons (umcptr : Usermodechange) (changes : List Usermodechange) :
    weight (umcptr :: changes) = umcptr.weight + weight changes := by
  simp [weight]

@[simp]
theorem weight_append (changes changes' : List Usermodechange) :
    weight (changes ++ changes') = weight changes + weight changes' := by
  simp [weight]

@[simp]
theorem tokenWeight_nil : tokenWeight [] = 0 :=
  rfl

@[simp]
theorem tokenWeight_cons (token : CString) (tokens : List CString) :
    tokenWeight (token :: tokens) = token.length + 1 + tokenWeight tokens := by
  simp [tokenWeight]

theorem letters_cons (c : Char) (word : CString) :
    letters (c :: word) = letters [c] + letters word := by
  simp [letters, List.countP_cons]
  omega

theorem letters_le_length (word : CString) : letters word ≤ word.length :=
  List.countP_le_length

/-! ## Parsing -/

variable {table : ModeTable} {modes : BitVec 64} {changes : List Usermodechange}

theorem weight_eraseP_le (p : Usermodechange → Bool) (changes : List Usermodechange) :
    weight (changes.eraseP p) ≤ weight changes := by
  induction changes with
  | nil => simp
  | cons umcptr changes induction =>
      rw [List.eraseP_cons]
      cases p umcptr with
      | true =>
          rw [weight_cons]
          exact Nat.le_add_left _ _
      | false =>
          rw [weight_cons, cond_false, weight_cons]
          exact Nat.add_le_add_left induction _

theorem weight_usermodeChangeAdd_le (changes : List Usermodechange) (umcptr : Usermodechange) :
    weight (usermodeChangeAdd changes umcptr) ≤ weight changes + umcptr.weight := by
  rw [usermodeChangeAdd, weight_append]
  have less := weight_eraseP_le (sameChange umcptr) changes
  simp
  omega

theorem weight_add_le (parse : Parse) (modes : BitVec 64) (umptr : Usermode) :
    weight (parse.add modes umptr).changes ≤ weight parse.changes + 1 ∧
      (parse.add modes umptr).skip = parse.skip := by
  unfold Parse.add
  split
  · exact ⟨Nat.le_succ _, rfl⟩
  · exact ⟨weight_usermodeChangeAdd_le _ _, rfl⟩

/-- A letter pays for a change, and the words that it takes for an argument. -/
theorem weight_parseChar_le (lookup : Char → Option Usermode) (rest : List CString)
    (parse : Parse) (c : Char) :
    weight (parseChar lookup modes rest parse c).changes +
          tokenWeight (rest.drop (parseChar lookup modes rest parse c).skip) ≤
        weight parse.changes + tokenWeight (rest.drop parse.skip) + letters [c] ∧
      (parseChar lookup modes rest parse c).skip ≤ parse.skip + letters [c] := by
  unfold parseChar
  split
  · exact ⟨Nat.le_add_right _ _, Nat.le_add_right _ _⟩
  · rename_i plus
    split
    · exact ⟨Nat.le_add_right _ _, Nat.le_add_right _ _⟩
    · rename_i minus
      have one : letters [c] = 1 := by simp [letters, plus, minus]
      rw [one]
      have bare := fun umptr => weight_add_le parse modes umptr
      split
      · exact ⟨Nat.le_succ _, Nat.le_succ _⟩
      · cases lookup c with
        | none => exact ⟨Nat.le_succ _, Nat.le_succ _⟩
        | some umptr =>
            obtain ⟨paid, same⟩ := bare umptr
            dsimp only
            split
            · rw [same]
              omega
            · cases next : rest[parse.skip]? with
              | none =>
                  dsimp only
                  split
                  · exact ⟨Nat.le_succ _, Nat.le_succ _⟩
                  · rw [same]
                    omega
              | some changearg =>
                  obtain ⟨inside, rfl⟩ := List.getElem?_eq_some_iff.mp next
                  dsimp only
                  have added := weight_usermodeChangeAdd_le parse.changes
                    ⟨umptr, parse.change, some rest[parse.skip]⟩
                  rw [List.drop_eq_getElem_cons inside, tokenWeight_cons]
                  simp only [Usermodechange.weight] at added
                  omega

theorem weight_parseWord_le (lookup : Char → Option Usermode) (rest : List CString)
    (parse : Parse) (word : CString) :
    weight (word.foldl (parseChar lookup modes rest) parse).changes +
          tokenWeight (rest.drop (word.foldl (parseChar lookup modes rest) parse).skip) ≤
        weight parse.changes + tokenWeight (rest.drop parse.skip) + letters word ∧
      (word.foldl (parseChar lookup modes rest) parse).skip ≤ parse.skip + letters word := by
  induction word generalizing parse with
  | nil => exact ⟨Nat.le_refl _, Nat.le_refl _⟩
  | cons c word induction =>
      have first := @weight_parseChar_le modes lookup rest parse c
      have others := induction (parseChar lookup modes rest parse c)
      rw [List.foldl_cons, letters_cons]
      omega

/-- A word that is no argument does not pay its blank back. -/
theorem weight_parseArgs_le (lookup : Char → Option Usermode) (args : List CString)
    (parse : Parse) :
    weight (parseArgs lookup modes args parse).changes +
        (if parse.skip < args.length then 1 else 0) ≤
      weight parse.changes + tokenWeight (args.drop parse.skip) := by
  induction args generalizing parse with
  | nil => simp [parseArgs]
  | cons arg rest induction =>
      rw [parseArgs]
      split
      · rename_i skip used
        have others := induction { parse with skip := skip }
        rw [used]
        simpa using others
      · rename_i used
        have word := @weight_parseWord_le modes lookup rest parse arg
        have others := induction (arg.foldl (parseChar lookup modes rest) parse)
        have short := letters_le_length arg
        rw [used] at word ⊢
        rw [List.drop_zero, tokenWeight_cons, if_pos (by simp)]
        rw [List.drop_zero] at word
        omega

/-- What is parsed of a word and arguments. -/
theorem weight_usermodeParse_le (lookup : Char → Option Usermode) (modes : BitVec 64)
    (word : CString) (rest : List CString) :
    weight (usermodeParse lookup modes (word :: rest)) +
        (if letters word < rest.length then 1 else 0) ≤ letters word + tokenWeight rest := by
  have first := @weight_parseWord_le modes lookup rest ⟨0, true, []⟩ word
  have others := @weight_parseArgs_le modes lookup rest
    (word.foldl (parseChar lookup modes rest) ⟨0, true, []⟩)
  unfold usermodeParse
  rw [parseArgs]
  dsimp only at first ⊢
  rw [List.drop_zero, weight_nil] at first
  split at others <;> split <;> omega

/-- Arguments of changes are arguments of the line. -/
theorem arg_mem_of_parseWord (lookup : Char → Option Usermode) {rest args : List CString}
    {parse : Parse} (within : ∀ arg ∈ rest, arg ∈ args)
    (known : ∀ umcptr ∈ parse.changes, ∀ arg ∈ umcptr.arg, arg ∈ args) (word : CString) :
    ∀ umcptr ∈ (word.foldl (parseChar lookup modes rest) parse).changes,
      ∀ arg ∈ umcptr.arg, arg ∈ args := by
  induction word generalizing parse with
  | nil => exact known
  | cons c word induction =>
      refine induction ?_
      have bare : ∀ umptr, ∀ umcptr ∈ (parse.add modes umptr).changes,
          ∀ arg ∈ umcptr.arg, arg ∈ args := by
        intro umptr umcptr mem
        unfold Parse.add at mem
        split at mem
        · exact known umcptr mem
        · rcases List.mem_append.mp mem with mem | mem
          · exact known umcptr (List.mem_of_mem_eraseP mem)
          · rw [List.mem_singleton.mp mem]
            exact fun arg given => nomatch given
      unfold parseChar
      split
      · exact known
      · split
        · exact known
        · split
          · exact known
          · cases lookup c with
            | none => exact known
            | some umptr =>
                dsimp only
                split
                · exact bare umptr
                · cases next : rest[parse.skip]? with
                  | none =>
                      dsimp only
                      split
                      · exact known
                      · exact bare umptr
                  | some changearg =>
                      intro umcptr mem arg given
                      rcases List.mem_append.mp mem with mem | mem
                      · exact known umcptr (List.mem_of_mem_eraseP mem) arg given
                      · rw [List.mem_singleton.mp mem] at given
                        cases given
                        exact within _ (List.mem_of_getElem? next)

theorem arg_mem_of_parseArgs (lookup : Char → Option Usermode) {rest args : List CString}
    {parse : Parse} (within : ∀ arg ∈ rest, arg ∈ args)
    (known : ∀ umcptr ∈ parse.changes, ∀ arg ∈ umcptr.arg, arg ∈ args) :
    ∀ umcptr ∈ (parseArgs lookup modes rest parse).changes, ∀ arg ∈ umcptr.arg, arg ∈ args := by
  induction rest generalizing parse with
  | nil => exact known
  | cons word rest induction =>
      have within' : ∀ arg ∈ rest, arg ∈ args :=
        fun arg mem => within arg (List.mem_cons_of_mem _ mem)
      rw [parseArgs]
      split
      · exact induction within' known
      · exact induction within' (arg_mem_of_parseWord lookup within' known word)

theorem arg_mem_of_usermodeParse (lookup : Char → Option Usermode) (modes : BitVec 64)
    (args : List CString) :
    ∀ umcptr ∈ usermodeParse lookup modes args, ∀ arg ∈ umcptr.arg, arg ∈ args :=
  arg_mem_of_parseArgs lookup (fun _ mem => mem) fun _ mem => nomatch mem

/-! ## Tokens -/

theorem length_restOfLine_le (s : CString) : (restOfLine s).length ≤ s.length :=
  (List.rdropWhile_prefix _ _).length_le.trans (List.takeWhile_prefix _).length_le

/-- The tokens of a line weigh at most so much.  Where one of them is no word they weigh
less, unless all the tokens that there may be have been found. -/
def TokensWeigh (maxtok : Nat) (s : CString) (bound : Nat) : Prop :=
  tokenWeight (strTokenize maxtok s) ≤ bound ∧
    ((∀ token ∈ strTokenize maxtok s, PlainWord token) ∨
      tokenWeight (strTokenize maxtok s) < bound ∨ (strTokenize maxtok s).length = maxtok)

/-- A blank at the start pays for the blank of the first token. -/
theorem tokensWeigh_of_blank {maxtok : Nat} {s : CString}
    (weigh : ∀ s : CString, TokensWeigh maxtok s (s.length + 1))
    (blank : ∀ c ∈ s.head?, strIsspace c = true) : TokensWeigh maxtok s s.length := by
  cases s with
  | nil => cases maxtok <;> simp [TokensWeigh, strTokenize]
  | cons c s =>
      have isBlank : strIsspace c = true := blank c rfl
      have skipped : strTokenize maxtok (c :: s) = strTokenize maxtok s := by
        cases maxtok with
        | zero => rfl
        | succ maxtok => simp [strTokenize, isBlank]
      unfold TokensWeigh
      rw [skipped]
      exact weigh s

/-- The tokens of a line weigh no more than the line and a blank before it. -/
theorem tokensWeigh_strTokenize (maxtok : Nat) (s : CString) :
    TokensWeigh maxtok s (s.length + 1) := by
  induction maxtok generalizing s with
  | zero => exact ⟨Nat.zero_le _, .inr (.inr rfl)⟩
  | succ maxtok induction =>
      have shorter : (s.dropWhile strIsspace).length ≤ s.length :=
        (List.dropWhile_suffix strIsspace).length_le
      unfold TokensWeigh
      rw [strTokenize]
      split
      · exact ⟨Nat.zero_le _, .inl (by simp)⟩
      · rename_i rest same
        have less := length_restOfLine_le rest
        rw [same, List.length_cons] at shorter
        rw [tokenWeight_cons, tokenWeight_nil]
        exact ⟨by omega, .inr (.inl (by omega))⟩
      · rename_i c cs colon same
        rw [same] at shorter
        split
        · rename_i last
          have less := length_restOfLine_le (c :: cs)
          rw [tokenWeight_cons, tokenWeight_nil]
          exact ⟨by omega, .inr (.inr (by simp [last]))⟩
        · have start : strIsspace c = false := by
            have head := List.head_dropWhile_not strIsspace (l := s) (by simp [same])
            simpa [same] using head
          have word : PlainWord ((c :: cs).takeWhile fun c => !strIsspace c) := by
            refine ⟨?_, ?_, ?_⟩
            · simp [start]
            · intro d mem
              have kept := List.mem_takeWhile_imp mem
              simpa using kept
            · rw [List.takeWhile_cons_of_pos (by simp [start]), List.head?_cons]
              intro isColon
              exact colon (Option.some.inj isColon)
          have blank : ∀ d ∈ ((c :: cs).dropWhile fun c => !strIsspace c).head?,
              strIsspace d = true := by
            intro d mem
            have stop := List.head?_dropWhile_not (fun c => !strIsspace c) (c :: cs)
            rw [Option.mem_def.mp mem] at stop
            simpa using stop
          have parts := congrArg List.length
            (List.takeWhile_append_dropWhile (p := fun c => !strIsspace c) (l := c :: cs))
          rw [List.length_append] at parts
          obtain ⟨bound, kind⟩ := tokensWeigh_of_blank induction blank
          rw [tokenWeight_cons]
          refine ⟨by omega, ?_⟩
          rcases kind with plain | less | full
          · refine .inl fun token mem => ?_
            rcases List.mem_cons.mp mem with rfl | mem
            · exact word
            · exact plain token mem
          · exact .inr (.inl (by omega))
          · exact .inr (.inr (by rw [List.length_cons, full]))

/-! ## Lines -/

/-- A line weighs what its changes weigh. -/
theorem weight_eq (changes : List Usermodechange) :
    weight changes = changes.length + (umcargs changes).length := by
  induction changes with
  | nil => rfl
  | cons umcptr changes induction =>
      rw [weight_cons, induction]
      cases arg : umcptr.arg <;> simp [Usermodechange.weight, umcargs, arg] <;> omega

theorem letters_of_valid {c : Char} (valid : usermodeValid c = true) : letters [c] = 1 := by
  have plus : c ≠ '+' := by
    rintro rfl
    exact absurd valid (by decide)
  have minus : c ≠ '-' := by
    rintro rfl
    exact absurd valid (by decide)
  simp [letters, plus, minus]

theorem letters_sign (change : Bool) : letters [if change then '+' else '-'] = 0 := by
  cases change <;> rfl

theorem letters_umcbuf {sign : Option Bool}
    (valid : ∀ umcptr ∈ changes, usermodeValid umcptr.mode.character = true) :
    letters (umcbuf sign changes) = changes.length := by
  induction changes generalizing sign with
  | nil => rfl
  | cons umcptr changes induction =>
      have rest := @induction (some umcptr.change)
        fun other mem => valid other (List.mem_cons_of_mem _ mem)
      have letter := letters_of_valid (valid umcptr List.mem_cons_self)
      unfold umcbuf
      split
      · rw [letters_cons, letter, rest, List.length_cons, Nat.add_comm]
      · rw [letters_cons, letters_sign, letters_cons, letter, rest, List.length_cons]
        omega

/-- A cut through the letters costs one. -/
theorem letters_take_umcbuf {sign : Option Bool} {room : Nat}
    (valid : ∀ umcptr ∈ changes, usermodeValid umcptr.mode.character = true)
    (cut : room < (umcbuf sign changes).length) :
    letters ((umcbuf sign changes).take room) < changes.length := by
  induction changes generalizing sign room with
  | nil => cases cut
  | cons umcptr changes induction =>
      have rest := fun room => @induction (some umcptr.change) room
        fun other mem => valid other (List.mem_cons_of_mem _ mem)
      have letter := letters_of_valid (valid umcptr List.mem_cons_self)
      unfold umcbuf at cut ⊢
      rw [List.length_cons]
      split at cut
      · rename_i same
        rw [if_pos same]
        cases room with
        | zero => exact Nat.succ_pos _
        | succ room =>
            have less := rest room (Nat.lt_of_succ_lt_succ cut)
            rw [List.take_succ_cons, letters_cons, letter]
            omega
      · rename_i other
        rw [if_neg other]
        cases room with
        | zero => exact Nat.succ_pos _
        | succ room =>
            cases room with
            | zero =>
                rw [List.take_succ_cons, letters_cons, letters_sign]
                exact Nat.succ_pos _
            | succ room =>
                have less := rest room (Nat.lt_of_succ_lt_succ (Nat.lt_of_succ_lt_succ cut))
                rw [List.take_succ_cons, List.take_succ_cons, letters_cons, letters_sign,
                  letters_cons, letter]
                omega

/-- The arguments start with a blank, wherever they are cut. -/
theorem blank_of_umcargs (changes : List Usermodechange) (room : Nat) :
    ∀ c ∈ ((umcargs changes).take room).head?, c = ' ' := by
  induction changes with
  | nil => simp [umcargs]
  | cons umcptr changes induction =>
      cases arg : umcptr.arg with
      | none => simpa [umcargs, arg] using induction
      | some text =>
          intro c mem
          cases room with
          | zero => simp at mem
          | succ room =>
              simp only [umcargs, List.flatMap_cons, arg, List.cons_append, List.take_succ_cons,
                List.head?_cons, Option.mem_some_iff] at mem
              exact mem.symm

theorem strTokenize_plainWord_blank {word args : CString} (plain : PlainWord word)
    (blank : ∀ c ∈ args.head?, c = ' ') (maxtok : Nat) :
    strTokenize (maxtok + 2) (word ++ args) = word :: strTokenize (maxtok + 1) args := by
  cases args with
  | nil =>
      rw [List.append_nil, strTokenize_plainWord plain]
      rfl
  | cons c args =>
      obtain rfl : c = ' ' := blank c rfl
      rw [strTokenize_plainWord_append plain, strTokenize_blank]

theorem plainWord_take {word : CString} (plain : PlainWord word) (room : Nat) :
    PlainWord (word.take (room + 1)) := by
  obtain ⟨nonempty, noBlank, noColon⟩ := plain
  cases word with
  | nil => exact absurd rfl nonempty
  | cons c word =>
      refine ⟨by simp, fun d mem => noBlank d (List.mem_of_mem_take mem), ?_⟩
      simpa using noColon

/-- A cut through the letters loses some of the weight. -/
theorem Made.weight_of_cut {modes' : BitVec 64} (made : Made table modes' changes)
    (some_change : changes ≠ []) {room : Nat} (cut : room < (umcbuf none changes).length) :
    weight (usermodeParse table.lookup modes
      (strTokenize 253 ((lineText changes).take room))) < weight changes := by
  have fewer := letters_take_umcbuf made.valid cut
  have total := weight_eq changes
  rw [lineText, List.take_append_of_le_length (Nat.le_of_lt cut)]
  cases room with
  | zero => exact Nat.lt_of_lt_of_le fewer (by omega)
  | succ room =>
      have word := plainWord_take (made.plainWord_umcbuf some_change) room
      rw [strTokenize_plainWord word]
      have paid := weight_usermodeParse_le table.lookup modes
        ((umcbuf none changes).take (room + 1)) []
      rw [tokenWeight_nil] at paid
      omega

/-- The next server gets no more out of a line than is in it, and as much only out of a whole
line that is made of words. -/
theorem Made.weight_received {modes' : BitVec 64} (made : Made table modes' changes)
    (some_change : changes ≠ []) (short : changes.length ≤ 8) (room : Nat) :
    weight (usermodeParse table.lookup modes
        (strTokenize 253 ((lineText changes).take room))) ≤ weight changes ∧
      (weight (usermodeParse table.lookup modes
          (strTokenize 253 ((lineText changes).take room))) = weight changes →
        (lineText changes).length ≤ room ∧
          ∀ token ∈ strTokenize 253 ((lineText changes).take room), PlainWord token) := by
  by_cases cut : room < (umcbuf none changes).length
  · have less := @Made.weight_of_cut table modes changes modes' made some_change room cut
    exact ⟨Nat.le_of_lt less, fun same => absurd same (Nat.ne_of_lt less)⟩
  · have word := made.plainWord_umcbuf some_change
    have total := weight_eq changes
    have count : letters (umcbuf none changes) = changes.length := letters_umcbuf made.valid
    obtain ⟨args, isArgs⟩ : ∃ args, (umcargs changes).take
        (room - (umcbuf none changes).length) = args := ⟨_, rfl⟩
    have text : (lineText changes).take room = umcbuf none changes ++ args := by
      rw [lineText, List.take_append, List.take_of_length_le (Nat.not_lt.mp cut), isArgs]
    have kept : args.length =
        min (room - (umcbuf none changes).length) (umcargs changes).length := by
      rw [← isArgs, List.length_take]
    have blank : ∀ c ∈ args.head?, c = ' ' := isArgs ▸ blank_of_umcargs changes _
    have tokens : strTokenize 253 (umcbuf none changes ++ args) =
        umcbuf none changes :: strTokenize 252 args := strTokenize_plainWord_blank word blank 251
    have paid := weight_usermodeParse_le table.lookup modes (umcbuf none changes)
      (strTokenize 252 args)
    obtain ⟨bound, kind⟩ := tokensWeigh_of_blank (tokensWeigh_strTokenize 252)
      fun c mem => (by rw [blank c mem]; rfl : strIsspace c = true)
    rw [text, tokens]
    constructor
    · omega
    · intro same
      refine ⟨by rw [lineText, List.length_append]; omega, fun token mem => ?_⟩
      rcases List.mem_cons.mp mem with rfl | mem
      · exact word
      · rcases kind with plain | less | full
        · exact plain token mem
        · omega
        · rw [full, if_pos (by omega)] at paid
          omega

namespace Record

theorem msUmode_snd (record : Record) (text : CString) :
    (record.msUmode table text).2 = usermodeParse table.lookup record.modes
      (strTokenize 253 text) := by
  rw [msUmode, usermodeMake, usermodeApply_elsewhere]

/-- The same for all lines. -/
theorem weight_receive (source : CString) (record : Record) (lines : List (List Usermodechange))
    (made : ∀ line ∈ lines, ∃ modes, Made table modes line)
    (short : ∀ line ∈ lines, line ≠ [] ∧ line.length ≤ usermodePerlineRemote) :
    weight (record.receive table source lines).2 ≤ weight lines.flatten ∧
      (weight (record.receive table source lines).2 = weight lines.flatten →
        (∀ line ∈ lines, (lineText line).length ≤ lineRoom source) ∧
          ∀ umcptr ∈ (record.receive table source lines).2, ∀ arg ∈ umcptr.arg,
            PlainWord arg) := by
  induction lines generalizing record with
  | nil =>
      refine ⟨Nat.le_refl _, fun _ => ⟨fun line mem => absurd mem List.not_mem_nil, ?_⟩⟩
      exact fun umcptr mem => absurd mem List.not_mem_nil
  | cons line lines induction =>
      have here : line ∈ line :: lines := List.mem_cons_self
      obtain ⟨modes', well⟩ := made line here
      have first := @Made.weight_received table record.modes line modes' well (short line here).1
        (short line here).2 (lineRoom source)
      have args := arg_mem_of_usermodeParse table.lookup record.modes
        (strTokenize 253 ((lineText line).take (lineRoom source)))
      have others := induction
        (record.msUmode table ((lineText line).take (lineRoom source))).1
        (fun line mem => made line (List.mem_cons_of_mem _ mem))
        fun line mem => short line (List.mem_cons_of_mem _ mem)
      rw [receive, List.flatten_cons, weight_append]
      dsimp only
      rw [weight_append, msUmode_snd]
      refine ⟨by omega, fun same => ?_⟩
      obtain ⟨whole, plain⟩ := first.2 (by omega)
      obtain ⟨wholes, plains⟩ := others.2 (by omega)
      constructor
      · intro other mem
        rcases List.mem_cons.mp mem with rfl | mem
        · exact whole
        · exact wholes other mem
      · intro umcptr mem arg given
        rcases List.mem_append.mp mem with mem | mem
        · exact plain arg (args umcptr mem arg given)
        · exact plains umcptr mem arg given

/-- Changes that arrive have travelled. -/
theorem Agrees.travels {home : Record} {source : CString} {permission : Bool}
    {args : List CString} (agrees : home.Agrees table source permission args) :
    home.Travels table source permission args := by
  have made := @made_usermodeMake table home true permission args
  have received := (agrees home rfl).2
  unfold Travels
  dsimp only at received ⊢
  generalize (home.usermodeMake table true permission args).2 = changes at *
  have sent : (usermodeChangeSend [] changes).flatten = changes :=
    flatten_usermodeChangeSend [] changes (.inr rfl)
  obtain ⟨_, kind⟩ := @weight_receive table source home (usermodeChangeSend [] changes)
    (fun line mem => ⟨home.modes, made.sublist (sent ▸ List.sublist_flatten_of_mem mem)⟩)
    fun line mem => length_of_mem_usermodeChangeSend (by decide) mem
  obtain ⟨whole, plain⟩ := kind (by rw [received, sent])
  rw [received] at plain
  exact ⟨plain, whole⟩

/-- The next server has the modes right and passes on the same changes if and only if the
arguments of the changes are words and no line is cut. -/
theorem agrees_iff_travels (table : ModeTable) (home : Record) (source : CString)
    (permission : Bool) (args : List CString) :
    home.Agrees table source permission args ↔ home.Travels table source permission args :=
  ⟨Agrees.travels, Travels.agrees⟩

end Record

/-- A user sends `UMODE -o :x +w`.  The argument is one here and two elsewhere, where the
second of them turns a mode on. -/
theorem spaced_argument_turns_mode :
    ¬ Record.Agrees ⟨0, false⟩ ModeTable.ofModules "alice".toList true
      (strTokenize 253 "-o :x +w".toList) := by
  intro agrees
  exact absurd (agrees ⟨0, false⟩ rfl).1 (by decide +kernel)

end Usermodes

end Chaosircd
