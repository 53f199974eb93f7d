import Chaosircd.MaskEntries
import Chaosircd.Tokenize

/-!
# What a mask argument becomes

`chanmode_bounce_ban` rewrites the argument of a new mask into nick, user and host parts.
The parts that an argument supplies are read off its separators here, and every argument
is told apart for which the rewriting keeps them and does not change its own result.

Two things go wrong in the source.  A missing `@` is a null pointer, which is less than any
position of a `!`, so that the branch for a nick and a user is never reached.  In the branch
for a user and a host the second `@` is looked for in the user.
-/

namespace Chaosircd

namespace Modes

/-! ## Parts -/

/-- The parts that an argument supplies: `nick`, `nick!user`, `user@host` or
`nick!user@host`, where a further separator ends the part it stands in. -/
def suppliedParts (arg : CString) : CString × CString × CString :=
  let front := cutAt '!' arg
  let behind := after '!' arg
  if '@' ∈ front then ([], cutAt '@' front, cutAt '@' (after '@' front))
  else (front, cutAt '!' (cutAt '@' behind), cutAt '!' (cutAt '@' (after '@' behind)))

/-- Parts are put together, a star for what is missing. -/
def joinParts (parts : CString × CString × CString) : CString :=
  maskPart charsIsnickchar 33 parts.1 ++ '!' :: (maskPart charsIsuserchar 17 parts.2.1 ++
    '@' :: maskPart charsIshostchar 65 parts.2.2)

/-- The mask of the parts that an argument supplies. -/
def wholeMask (arg : CString) : CString :=
  joinParts (suppliedParts arg)

/-- The mask that `chanmode_bounce_ban` makes of an argument. -/
def normalMask (arg : CString) : CString :=
  joinParts (splitMask arg)

/-- A part that is left as it is. -/
structure CleanPart (allowed : Char → Bool) (size : Nat) (part : CString) : Prop where
  some : part ≠ []
  good : ∀ c ∈ part, (allowed c || charsIskwildchar c) = true
  fits : part.length < size

theorem maskPart_eq (allowed : Char → Bool) {size : Nat} (text : CString) (room : 1 < size) :
    maskPart allowed size text =
      if ((text.take (size - 1)).takeWhile fun c => allowed c || charsIskwildchar c) = [] then
        ['*']
      else (text.take (size - 1)).takeWhile fun c => allowed c || charsIskwildchar c := by
  cases text with
  | nil =>
      rw [List.take_nil, List.takeWhile_nil, if_pos rfl, maskPart, if_pos rfl]
      have star : charsIskwildchar '*' = true := by decide
      simp [star]
  | cons c text =>
      have more : strlcpy (c :: text) size ≠ [] := by
        rw [strlcpy]
        obtain ⟨n, same⟩ : ∃ n, size - 1 = n + 1 := ⟨size - 2, by omega⟩
        rw [same, List.take_succ_cons]
        exact List.cons_ne_nil _ _
      rw [maskPart, if_neg (List.cons_ne_nil c text)]
      rw [strlcpy] at more ⊢
      split
      · rename_i none
        rw [if_pos none.1]
      · rename_i good
        rw [if_neg fun none => good ⟨none, more⟩]

theorem cleanPart_maskPart (allowed : Char → Bool) {size : Nat} (text : CString)
    (room : 1 < size) : CleanPart allowed size (maskPart allowed size text) := by
  refine ⟨?_, ?_, length_maskPart_lt text room⟩
  · rw [maskPart_eq allowed text room]
    split
    · nofun
    · assumption
  · intro c member
    rcases mem_maskPart member with star | ⟨_, good⟩
    · rw [star, Bool.or_eq_true]
      exact .inr (by decide)
    · exact good

theorem CleanPart.maskPart_eq_self {allowed : Char → Bool} {size : Nat} {part : CString}
    (clean : CleanPart allowed size part) (room : 1 < size) :
    maskPart allowed size part = part := by
  have whole : ((part.take (size - 1)).takeWhile fun c => allowed c || charsIskwildchar c) =
      part := by
    have fits := clean.fits
    rw [List.take_of_length_le (by omega), List.takeWhile_eq_self_iff]
    exact clean.good
  rw [maskPart_eq allowed part room, whole, if_neg clean.some]

/-! ## Separators -/

theorem after_eq_nil {c : Char} {text : CString} (plain : c ∉ text) : after c text = [] := by
  rw [after, List.dropWhile_eq_nil_iff.mpr, List.drop_nil]
  intro d member
  rw [decide_eq_true_eq]
  rintro rfl
  exact plain member

theorem not_mem_cutAt (c : Char) (text : CString) : c ∉ cutAt c text :=
  fun member => (mem_cutAt member).2 rfl

/-- A text is cut at a separator that occurs in it. -/
theorem eq_cutAt_append {c : Char} {text : CString} (occurs : c ∈ text) :
    text = cutAt c text ++ c :: after c text := by
  induction text with
  | nil => cases occurs
  | cons d text induction =>
      by_cases first : d = c
      · rw [cutAt, after, List.takeWhile_cons, List.dropWhile_cons, first]
        simp
      · have later := (List.mem_cons.mp occurs).resolve_left (Ne.symm first)
        have passed : decide (d ≠ c) = true := decide_eq_true first
        rw [cutAt, after, List.takeWhile_cons, List.dropWhile_cons, if_pos passed,
          if_pos passed, List.cons_append]
        exact congrArg (d :: ·) (induction later)

/-- A joined mask is taken apart again, its host up to a further separator. -/
theorem splitMask_join {nick user : CString} (host : CString) (noBang : '!' ∉ nick)
    (noAt : '@' ∉ nick) (noBang' : '!' ∉ user) (noAt' : '@' ∉ user) :
    splitMask (nick ++ '!' :: (user ++ '@' :: host)) =
      (nick, user, cutAt '!' (cutAt '@' host)) := by
  have whole : '!' ∈ nick ++ '!' :: (user ++ '@' :: host) ∧ '@' ∈ user ++ '@' :: host ∧
      '@' ∉ nick :=
    ⟨List.mem_append_right _ List.mem_cons_self, List.mem_append_right _ List.mem_cons_self,
      noAt⟩
  rw [splitMask, cutAt_append_cons _ noBang, after_append_cons _ noBang, if_pos whole]
  dsimp only
  rw [cutAt_append_cons _ noAt', after_append_cons _ noAt', cutAt_eq_self noBang']

/-- Two joined masks are equal when their parts are. -/
theorem join_inj {nick nick' user user' host host' : CString} (noBang : '!' ∉ nick)
    (noBang' : '!' ∉ nick') (noAt : '@' ∉ user) (noAt' : '@' ∉ user') :
    nick ++ '!' :: (user ++ '@' :: host) = nick' ++ '!' :: (user' ++ '@' :: host') ↔
      nick = nick' ∧ user = user' ∧ host = host' := by
  constructor
  · intro same
    have nicks := congrArg (cutAt '!') same
    have rests := congrArg (after '!') same
    rw [cutAt_append_cons _ noBang, cutAt_append_cons _ noBang'] at nicks
    rw [after_append_cons _ noBang, after_append_cons _ noBang'] at rests
    have users := congrArg (cutAt '@') rests
    have hosts := congrArg (after '@') rests
    rw [cutAt_append_cons _ noAt, cutAt_append_cons _ noAt'] at users
    rw [after_append_cons _ noAt, after_append_cons _ noAt'] at hosts
    exact ⟨nicks, users, hosts⟩
  · rintro ⟨rfl, rfl, rfl⟩
    rfl

/-! ## Masks that are left as they are -/

/-- Parts without the separators that end them. -/
structure PlainParts (parts : CString × CString × CString) : Prop where
  nick : '!' ∉ parts.1 ∧ '@' ∉ parts.1
  user : '!' ∉ parts.2.1 ∧ '@' ∉ parts.2.1
  host : '!' ∉ parts.2.2

theorem plainParts_splitMask (arg : CString) : PlainParts (splitMask arg) :=
  ⟨⟨fun member => (mem_splitMask.1 member).1 rfl, fun member => (mem_splitMask.1 member).2 rfl⟩,
    ⟨fun member => (mem_splitMask.2.1 member).1 rfl,
      fun member => (mem_splitMask.2.1 member).2 rfl⟩,
    fun member => mem_splitMask.2.2 member rfl⟩

theorem not_mem_cutAt_cutAt (c d : Char) (text : CString) :
    c ∉ cutAt c (cutAt d text) ∧ d ∉ cutAt c (cutAt d text) :=
  ⟨not_mem_cutAt c _, fun member => not_mem_cutAt d text (mem_cutAt member).1⟩

theorem plainParts_suppliedParts (arg : CString) :
    PlainParts (suppliedParts arg) ∧ '@' ∉ (suppliedParts arg).2.2 := by
  rw [suppliedParts]
  have front := not_mem_cutAt '!' arg
  split
  · exact ⟨⟨⟨nofun, nofun⟩, ⟨fun member => front (mem_cutAt member).1, not_mem_cutAt _ _⟩,
      fun member => front (mem_after (mem_cutAt member).1)⟩, not_mem_cutAt _ _⟩
  · rename_i noAt
    exact ⟨⟨⟨front, noAt⟩, not_mem_cutAt_cutAt _ _ _, (not_mem_cutAt_cutAt _ _ _).1⟩,
      (not_mem_cutAt_cutAt _ _ _).2⟩

theorem not_mem_maskPart {allowed : Char → Bool} {size : Nat} {text : CString} {c : Char}
    (plain : c ∉ text) (isPlain : c ≠ '*') : c ∉ maskPart allowed size text :=
  fun member => (mem_maskPart member).elim isPlain fun inText => plain inText.1

theorem PlainParts.mask {parts : CString × CString × CString} (plain : PlainParts parts) :
    PlainParts (maskPart charsIsnickchar 33 parts.1, maskPart charsIsuserchar 17 parts.2.1,
      maskPart charsIshostchar 65 parts.2.2) :=
  ⟨⟨not_mem_maskPart plain.nick.1 (by decide), not_mem_maskPart plain.nick.2 (by decide)⟩,
    ⟨not_mem_maskPart plain.user.1 (by decide), not_mem_maskPart plain.user.2 (by decide)⟩,
    not_mem_maskPart plain.host (by decide)⟩

theorem joinParts_inj {parts parts' : CString × CString × CString} (plain : PlainParts parts)
    (plain' : PlainParts parts') : joinParts parts = joinParts parts' ↔
      maskPart charsIsnickchar 33 parts.1 = maskPart charsIsnickchar 33 parts'.1 ∧
        maskPart charsIsuserchar 17 parts.2.1 = maskPart charsIsuserchar 17 parts'.2.1 ∧
          maskPart charsIshostchar 65 parts.2.2 = maskPart charsIshostchar 65 parts'.2.2 :=
  join_inj plain.mask.nick.1 plain'.mask.nick.1 plain.mask.user.2 plain'.mask.user.2

/-- A mask that is taken apart again keeps its nick and user, and its host up to an `@`. -/
theorem normalMask_joinParts {parts : CString × CString × CString} (plain : PlainParts parts) :
    normalMask (joinParts parts) = joinParts
      (parts.1, parts.2.1, cutAt '@' (maskPart charsIshostchar 65 parts.2.2)) := by
  have noBang : '!' ∉ cutAt '@' (maskPart charsIshostchar 65 parts.2.2) :=
    fun member => plain.mask.host (mem_cutAt member).1
  have split : splitMask (joinParts parts) = (maskPart charsIsnickchar 33 parts.1,
      maskPart charsIsuserchar 17 parts.2.1,
      cutAt '@' (maskPart charsIshostchar 65 parts.2.2)) := by
    rw [joinParts, splitMask_join _ plain.mask.nick.1 plain.mask.nick.2 plain.mask.user.1
      plain.mask.user.2, cutAt_eq_self noBang]
  rw [normalMask, split, joinParts, joinParts,
    (cleanPart_maskPart charsIsnickchar parts.1 (by decide)).maskPart_eq_self (by decide),
    (cleanPart_maskPart charsIsuserchar parts.2.1 (by decide)).maskPart_eq_self (by decide)]

/-- Normalising a normal mask changes nothing just when its host has no `@`. -/
theorem normalMask_joinParts_eq_iff {parts : CString × CString × CString}
    (plain : PlainParts parts) : normalMask (joinParts parts) = joinParts parts ↔
      '@' ∉ maskPart charsIshostchar 65 parts.2.2 := by
  have plain' : PlainParts (parts.1, parts.2.1, cutAt '@' (maskPart charsIshostchar 65
      parts.2.2)) :=
    ⟨plain.nick, plain.user, fun member => plain.mask.host (mem_cutAt member).1⟩
  rw [normalMask_joinParts plain, joinParts_inj plain' plain]
  constructor
  · rintro ⟨_, _, hosts⟩ isAt
    rw [← hosts] at isAt
    exact not_mem_maskPart (not_mem_cutAt _ _) (by decide) isAt
  · intro noAt
    refine ⟨rfl, rfl, ?_⟩
    rw [cutAt_eq_self noAt]
    exact (cleanPart_maskPart charsIshostchar parts.2.2 (by decide)).maskPart_eq_self (by decide)

/-! ## Arguments that are kept -/

/-- What is kept of the text of a user part. -/
def keptUser (text : CString) : CString :=
  (text.take 16).takeWhile fun c => charsIsuserchar c || charsIskwildchar c

/-- What is kept of the text of a host part. -/
def keptHost (text : CString) : CString :=
  (text.take 64).takeWhile fun c => charsIshostchar c || charsIskwildchar c

/-- Where an `@` stands before any `!`, what is kept of the text behind it has no further
`@`; where there is a `!` and no `@`, nothing of the text behind it is kept but a star. -/
structure KeepsParts (arg : CString) : Prop where
  host : '@' ∈ cutAt '!' arg → '@' ∉ keptHost (after '@' (cutAt '!' arg))
  user : '!' ∈ arg → '@' ∉ arg →
    keptUser (cutAt '!' (after '!' arg)) = [] ∨ keptUser (cutAt '!' (after '!' arg)) = ['*']

theorem maskPart_host (text : CString) : maskPart charsIshostchar 65 text =
    if keptHost text = [] then ['*'] else keptHost text :=
  maskPart_eq charsIshostchar text (by decide)

theorem maskPart_user (text : CString) : maskPart charsIsuserchar 17 text =
    if keptUser text = [] then ['*'] else keptUser text :=
  maskPart_eq charsIsuserchar text (by decide)

theorem maskPart_user_eq_star_iff (text : CString) :
    maskPart charsIsuserchar 17 text = ['*'] ↔ keptUser text = [] ∨ keptUser text = ['*'] := by
  rw [maskPart_user]
  split
  · rename_i none
    exact iff_of_true rfl (.inl none)
  · rename_i some
    rw [or_iff_right some]

theorem at_mem_maskPart_host_iff (text : CString) :
    '@' ∈ maskPart charsIshostchar 65 text ↔ '@' ∈ keptHost text := by
  rw [maskPart_host]
  split
  · rename_i none
    rw [none]
    decide
  · rfl

/-- A separator that is not kept does not matter for what is kept. -/
theorem takeWhile_take_cutAt {p : Char → Bool} {c : Char} (good : p c = true) (text : CString)
    (n : Nat) (notKept : c ∉ (text.take n).takeWhile p) :
    ((cutAt c text).take n).takeWhile p = (text.take n).takeWhile p := by
  induction text generalizing n with
  | nil => rfl
  | cons d text induction =>
      cases n with
      | zero => rfl
      | succ n =>
          rw [List.take_succ_cons, List.takeWhile_cons] at notKept ⊢
          by_cases first : d = c
          · rw [first, if_pos good] at notKept
            exact absurd List.mem_cons_self notKept
          · have cut : cutAt c (d :: text) = d :: cutAt c text := by
              rw [cutAt, List.takeWhile_cons, if_pos (decide_eq_true first)]
              rfl
            rw [cut, List.take_succ_cons, List.takeWhile_cons]
            split
            · rename_i passed
              rw [if_pos passed] at notKept
              rw [induction n fun member => notKept (List.mem_cons_of_mem _ member)]
            · rfl

/-- A host that is kept without its `@` is the one before the `@`. -/
theorem maskPart_host_cutAt_iff (text : CString) :
    maskPart charsIshostchar 65 text = maskPart charsIshostchar 65 (cutAt '@' text) ↔
      '@' ∉ keptHost text := by
  constructor
  · intro same isAt
    rw [← at_mem_maskPart_host_iff, same] at isAt
    exact not_mem_maskPart (not_mem_cutAt _ _) (by decide) isAt
  · intro noAt
    have kept : keptHost (cutAt '@' text) = keptHost text :=
      takeWhile_take_cutAt (by decide) text 64 noAt
    rw [maskPart_host, maskPart_host, kept]

/-- The parts of an argument are kept just when none is lost to a missing or a second
separator. -/
theorem normalMask_eq_wholeMask_iff (arg : CString) :
    normalMask arg = wholeMask arg ↔ KeepsParts arg := by
  rw [normalMask, wholeMask, joinParts_inj (plainParts_splitMask arg)
    (plainParts_suppliedParts arg).1]
  have front := not_mem_cutAt '!' arg
  by_cases atFirst : '@' ∈ cutAt '!' arg
  · have isAt : '@' ∈ arg := (mem_cutAt atFirst).1
    have split : splitMask arg =
        ([], cutAt '@' (cutAt '!' arg), after '@' (cutAt '!' arg)) := by
      rw [splitMask, if_neg fun whole => whole.2.2 atFirst, if_pos atFirst]
    have supplied : suppliedParts arg =
        ([], cutAt '@' (cutAt '!' arg), cutAt '@' (after '@' (cutAt '!' arg))) := by
      rw [suppliedParts, if_pos atFirst]
    rw [split, supplied]
    dsimp only
    rw [maskPart_host_cutAt_iff]
    constructor
    · rintro ⟨_, _, host⟩
      exact ⟨fun _ => host, fun _ noAt => absurd isAt noAt⟩
    · intro keeps
      exact ⟨rfl, rfl, keeps.host atFirst⟩
  · have supplied : suppliedParts arg = (cutAt '!' arg, cutAt '!' (cutAt '@' (after '!' arg)),
        cutAt '!' (cutAt '@' (after '@' (after '!' arg)))) := by
      rw [suppliedParts, if_neg atFirst]
    have noHost : '@' ∈ cutAt '!' arg → '@' ∉ keptHost (after '@' (cutAt '!' arg)) :=
      fun isAt => absurd isAt atFirst
    rw [supplied]
    by_cases whole : '!' ∈ arg ∧ '@' ∈ after '!' arg
    · rw [splitMask, if_pos ⟨whole.1, whole.2, atFirst⟩]
      apply iff_of_true ⟨rfl, rfl, rfl⟩
      exact ⟨noHost, fun _ noAt => absurd (mem_after whole.2) noAt⟩
    · have split : splitMask arg = (cutAt '!' arg, [], []) := by
        rw [splitMask, if_neg fun all => whole ⟨all.1, all.2.1⟩, if_neg atFirst]
      rw [split]
      dsimp only
      by_cases bang : '!' ∈ arg
      · have noAt : '@' ∉ after '!' arg := fun isAt => whole ⟨bang, isAt⟩
        have none : '@' ∉ arg := by
          rw [eq_cutAt_append bang, List.mem_append, List.mem_cons]
          rintro (inFront | isBang | behind)
          · exact atFirst inFront
          · cases isBang
          · exact noAt behind
        rw [cutAt_eq_self noAt, after_eq_nil noAt, eq_comm (b := maskPart charsIsuserchar 17 _)]
        have star : maskPart charsIsuserchar 17 [] = ['*'] := by decide
        rw [star, maskPart_user_eq_star_iff]
        constructor
        · rintro ⟨_, user, _⟩
          exact ⟨noHost, fun _ _ => user⟩
        · intro keeps
          exact ⟨rfl, keeps.user bang none, rfl⟩
      · rw [after_eq_nil bang]
        apply iff_of_true ⟨rfl, rfl, rfl⟩
        exact ⟨noHost, fun isBang => absurd isBang bang⟩

/-- A mask of supplied parts is normal. -/
theorem normalMask_wholeMask (arg : CString) : normalMask (wholeMask arg) = wholeMask arg := by
  obtain ⟨plain, noAt⟩ := plainParts_suppliedParts arg
  exact (normalMask_joinParts_eq_iff plain).mpr (not_mem_maskPart noAt (by decide))

/-! ## Entries -/

theorem length_joinParts (parts : CString × CString × CString) :
    (joinParts parts).length < prefixLen + 1 := by
  have nick : (maskPart charsIsnickchar 33 parts.1).length < 33 :=
    length_maskPart_lt _ (by decide)
  have user : (maskPart charsIsuserchar 17 parts.2.1).length < 17 :=
    length_maskPart_lt _ (by decide)
  have host : (maskPart charsIshostchar 65 parts.2.2).length < 65 :=
    length_maskPart_lt _ (by decide)
  simp only [joinParts, List.length_append, List.length_cons, prefixLen]
  omega

theorem normalChange_arg (cmcptr : Chanmodechange) :
    (normalChange cmcptr).arg = normalMask cmcptr.arg := by
  have joined : (normalChange cmcptr).arg =
      strlcpy (joinParts (splitMask cmcptr.arg)) (prefixLen + 1) := by
    rw [joinParts, normalChange]
    simp only [List.append_assoc]
    rfl
  rw [joined, normalMask, strlcpy_eq_self (length_joinParts _)]

section

variable {systime : Nat} {cptr : Client} {chptr : Channel} {cmcptr : Chanmodechange}

theorem modelists_setList (letter : Char) (mlptr : List Chanmodeitem) :
    (chptr.setList letter mlptr).modelists letter = mlptr :=
  if_pos rfl

/-- A block in the list of a new mask was made for it, or was there before. -/
theorem mem_modelists_add {entry : Chanmodeitem} (isAdd : cmcptr.what = .add)
    (member : entry ∈ (chanmodeBounceMask systime cptr chptr cmcptr).chptr.modelists
      cmcptr.mode.letter) :
    entry = maskItem systime cptr cmcptr ∨ entry ∈ chptr.modelists cmcptr.mode.letter := by
  have stays : ∀ entry ∈ (coverScan cmcptr.arg (chptr.modelists cmcptr.mode.letter)).kept,
      entry ∈ chptr.modelists cmcptr.mode.letter :=
    fun _ kept => (coverScan_kept _ _).mem kept
  rw [chanmodeBounceMask] at member
  simp only [isAdd] at member
  split at member
  · rw [modelists_setList] at member
    exact .inr (stays entry member)
  · rw [modelists_setList, chanmodeMaskAdd] at member
    split at member
    · exact .inr (stays entry member)
    · rcases mem_linkByHash.mp member with made | kept
      · exact .inl made
      · exact .inr (stays entry kept)

/-- A list without entries takes every new mask. -/
theorem mem_modelists_add_of_nil (isAdd : cmcptr.what = .add)
    (none : chptr.modelists cmcptr.mode.letter = []) :
    maskItem systime cptr cmcptr ∈
      (chanmodeBounceMask systime cptr chptr cmcptr).chptr.modelists cmcptr.mode.letter := by
  rw [chanmodeBounceMask]
  simp only [isAdd, none, coverScan, Bool.false_eq_true, if_false]
  rw [modelists_setList, chanmodeMaskAdd, if_neg (by decide)]
  exact List.mem_cons_self

end

/-- On every channel, an entry that a change puts into its list has the given mask. -/
def StoresMask (cmcptr : Chanmodechange) (mask : CString) : Prop :=
  ∀ systime cptr chptr,
    ∀ entry ∈ (chanmodeBounceBan systime cptr chptr cmcptr).chptr.modelists cmcptr.mode.letter,
      entry ∉ chptr.modelists cmcptr.mode.letter → entry.mask = mask

theorem storesMask_iff {cmcptr : Chanmodechange} (isAdd : cmcptr.what = .add)
    (mask : CString) : StoresMask cmcptr mask ↔ normalMask cmcptr.arg = mask := by
  have made : ∀ systime cptr,
      (maskItem systime cptr (normalChange cmcptr)).mask = normalMask cmcptr.arg :=
    fun systime cptr => (maskItem_normalChange systime cptr cmcptr).1.trans
      (normalChange_arg cmcptr)
  constructor
  · intro stores
    let empty : Channel := ⟨0, [], ∅, [], 0, fun _ => [], [], ∅⟩
    let server : Client := ⟨0, false, true, [], none, [], [], [], []⟩
    have taken := @mem_modelists_add_of_nil 0 server empty (normalChange cmcptr) isAdd rfl
    rw [← chanmodeBounceBan_add isAdd] at taken
    rw [← stores 0 server empty _ taken List.not_mem_nil, made]
  · intro same systime cptr chptr entry member isNew
    rw [chanmodeBounceBan_add isAdd] at member
    rcases @mem_modelists_add systime cptr chptr (normalChange cmcptr) entry isAdd member with
      rfl | before
    · rw [made, same]
    · exact absurd before isNew

/-- A new mask is stored with all the parts its argument supplies, and what is stored is
stored as it is when it is relayed, just when no part is lost to a missing or a second
separator. -/
theorem storesMask_wholeMask_iff (cmcptr : Chanmodechange) :
    (StoresMask { cmcptr with what := .add } (wholeMask cmcptr.arg) ∧
        ∀ mask, StoresMask { cmcptr with what := .add } mask →
          StoresMask { cmcptr with what := .add, arg := mask } mask) ↔
      KeepsParts cmcptr.arg := by
  have stores : ∀ mask, StoresMask { cmcptr with what := .add } mask ↔
      normalMask cmcptr.arg = mask := fun mask => storesMask_iff rfl mask
  have relays : ∀ mask, StoresMask { cmcptr with what := .add, arg := mask } mask ↔
      normalMask mask = mask := fun mask => storesMask_iff rfl mask
  rw [stores, ← normalMask_eq_wholeMask_iff]
  refine and_iff_left_of_imp ?_
  intro same mask stored
  rw [relays, ← (stores mask).mp stored, same]
  exact normalMask_wholeMask cmcptr.arg

/-- A nick and a user are stored without the user, and a host with two `@` is stored with
both, of which the next server drops the second. -/
theorem parts_are_lost :
    (¬ StoresMask { unbanAll with what := .add, arg := "alice!bob".toList }
        (wholeMask "alice!bob".toList)) ∧
      StoresMask { unbanAll with what := .add, arg := "u@a@b".toList } "*!u@a@b".toList ∧
      ¬ StoresMask { unbanAll with what := .add, arg := "*!u@a@b".toList }
        "*!u@a@b".toList := by
  refine ⟨?_, ?_, ?_⟩
  · rw [storesMask_iff rfl]
    decide +kernel
  · rw [storesMask_iff rfl]
    decide +kernel
  · rw [storesMask_iff rfl]
    decide +kernel

end Modes

end Chaosircd
