import Chaosircd.ModeBounce
import Chaosircd.StrMatch

/-!
# Entries of the mask lists

`chanmode_bounce_ban` takes the argument of a new mask apart, fills in what is
missing, and puts it together again.  The parts hold no `!`, the nick and user
parts no `@` either, so where one such mask is laid along another their nick, user
and host parts fall to one another.  That keeps the whole masks, which the walk over
a list compares, in step with the parts, which a client is matched against.
-/

namespace Chaosircd

open Wildcards

namespace Modes

/-! ## Normal entries -/

/-- An entry that `chanmode_bounce_ban` has made. -/
structure Chanmodeitem.Normal (cmiptr : Chanmodeitem) : Prop where
  nick : ∀ c ∈ cmiptr.nmask, c ≠ '\x00' ∧ c ≠ '!' ∧ c ≠ '@'
  user : ∀ c ∈ cmiptr.umask, c ≠ '\x00' ∧ c ≠ '!' ∧ c ≠ '@'
  host : ∀ c ∈ cmiptr.hmask, c ≠ '\x00' ∧ c ≠ '!'
  whole : cmiptr.mask =
    cmiptr.nmask ++ "!".toList ++ cmiptr.umask ++ "@".toList ++ cmiptr.hmask

/-- The lists of a channel hold normal entries only. -/
def Channel.NormalLists (chptr : Channel) : Prop :=
  ∀ letter, ∀ cmiptr ∈ chptr.modelists letter, cmiptr.Normal

theorem mem_maskPart {allowed : Char → Bool} {size : Nat} {text : CString} {c : Char}
    (member : c ∈ maskPart allowed size text) :
    c = '*' ∨ (c ∈ text ∧ (allowed c || charsIskwildchar c) = true) := by
  rw [maskPart] at member
  generalize isPart : (if text = [] then ['*'] else strlcpy text size) = part at member
  split at member
  · exact .inl (List.mem_singleton.mp member)
  · have good := List.mem_takeWhile_imp member
    have inPart := (List.takeWhile_sublist _).mem member
    split at isPart
    · rw [← isPart] at inPart
      exact .inl (List.mem_singleton.mp inPart)
    · rw [← isPart] at inPart
      exact .inr ⟨List.mem_of_mem_take inPart, good⟩

theorem length_maskPart_lt {allowed : Char → Bool} {size : Nat} (text : CString)
    (room : 1 < size) : (maskPart allowed size text).length < size := by
  rw [maskPart]
  have partFits : (if text = [] then ['*'] else strlcpy text size).length < size := by
    split
    · exact room
    · exact strlcpy_length_lt text (by omega)
  generalize (if text = [] then ['*'] else strlcpy text size) = part at partFits
  split
  · exact room
  · exact Nat.lt_of_le_of_lt (List.takeWhile_sublist _).length_le partFits

theorem mem_cutAt {c d : Char} {s : CString} (member : d ∈ cutAt c s) : d ∈ s ∧ d ≠ c := by
  have differs := List.mem_takeWhile_imp member
  exact ⟨(List.takeWhile_sublist _).mem member, by simpa using differs⟩

theorem mem_after {c d : Char} {s : CString} (member : d ∈ after c s) : d ∈ s :=
  ((List.drop_sublist 1 _).trans (List.dropWhile_sublist _)).mem member

/-- The separators are gone from the parts, a second `@` of a host apart. -/
theorem mem_splitMask {arg : CString} {c : Char} :
    (c ∈ (splitMask arg).1 → c ≠ '!' ∧ c ≠ '@') ∧
      (c ∈ (splitMask arg).2.1 → c ≠ '!' ∧ c ≠ '@') ∧
      (c ∈ (splitMask arg).2.2 → c ≠ '!') := by
  rw [splitMask]
  dsimp only
  split
  case isTrue whole =>
    refine ⟨fun member => ⟨(mem_cutAt member).2, ?_⟩, fun member => ?_, fun member => ?_⟩
    · intro isAt
      rw [isAt] at member
      exact whole.2.2 member
    · have inner := mem_cutAt member
      exact ⟨inner.2, (mem_cutAt inner.1).2⟩
    · exact (mem_cutAt member).2
  case isFalse =>
    split
    case isTrue =>
      refine ⟨fun member => absurd member List.not_mem_nil, fun member => ?_, fun member => ?_⟩
      · have inner := mem_cutAt member
        exact ⟨(mem_cutAt inner.1).2, inner.2⟩
      · exact (mem_cutAt (mem_after member)).2
    case isFalse noAt =>
      refine ⟨fun member => ⟨(mem_cutAt member).2, ?_⟩, fun member => ?_, fun member => ?_⟩
      · intro isAt
        rw [isAt] at member
        exact noAt member
      · exact absurd member List.not_mem_nil
      · exact absurd member List.not_mem_nil

/-- The change `chanmode_bounce_ban` hands on for a new mask. -/
def normalChange (cmcptr : Chanmodechange) : Chanmodechange :=
  let nick := maskPart charsIsnickchar 33 (splitMask cmcptr.arg).1
  let user := maskPart charsIsuserchar 17 (splitMask cmcptr.arg).2.1
  let host := maskPart charsIshostchar 65 (splitMask cmcptr.arg).2.2
  { cmcptr with
    arg := strlcpy (nick ++ "!".toList ++ user ++ "@".toList ++ host) (prefixLen + 1)
    nmask := some nick
    umask := some user
    hmask := some host }

theorem chanmodeBounceBan_add {systime : Nat} {cptr : Client} {chptr : Channel}
    {cmcptr : Chanmodechange} (isAdd : cmcptr.what = .add) :
    chanmodeBounceBan systime cptr chptr cmcptr =
      chanmodeBounceMask systime cptr chptr (normalChange cmcptr) := by
  rw [chanmodeBounceBan]
  split
  · rfl
  · simp_all
  · simp_all

/-- What a part of a new mask may hold, the wild card characters being bytes. -/
theorem ne_of_mem_maskPart {allowed : Char → Bool} {size : Nat} {text : CString} {c d : Char}
    (isPlain : d ≠ '*') (absent : c ∈ text → (allowed c || charsIskwildchar c) = true → c ≠ d)
    (member : c ∈ maskPart allowed size text) : c ≠ d := by
  rcases mem_maskPart member with isStar | ⟨inText, good⟩
  · rw [isStar]
    exact isPlain.symm
  · exact absent inText good

theorem ne_nul_of_good {allowed : Char → Bool} {c : Char} (noNul : allowed '\x00' = false)
    (good : (allowed c || charsIskwildchar c) = true) : c ≠ '\x00' := by
  intro isNul
  rw [isNul, noNul] at good
  exact absurd good (by decide)

/-- The block of a new mask is normal, and holds the mask the walk compares. -/
theorem maskItem_normalChange (systime : Nat) (cptr : Client) (cmcptr : Chanmodechange) :
    (maskItem systime cptr (normalChange cmcptr)).mask = (normalChange cmcptr).arg ∧
      (maskItem systime cptr (normalChange cmcptr)).Normal := by
  have nickFits : (maskPart charsIsnickchar 33 (splitMask cmcptr.arg).1).length < 33 :=
    length_maskPart_lt _ (by decide)
  have userFits : (maskPart charsIsuserchar 17 (splitMask cmcptr.arg).2.1).length < 17 :=
    length_maskPart_lt _ (by decide)
  have hostFits : (maskPart charsIshostchar 65 (splitMask cmcptr.arg).2.2).length < 65 :=
    length_maskPart_lt _ (by decide)
  have wholeFits : (maskPart charsIsnickchar 33 (splitMask cmcptr.arg).1 ++ "!".toList ++
      maskPart charsIsuserchar 17 (splitMask cmcptr.arg).2.1 ++ "@".toList ++
      maskPart charsIshostchar 65 (splitMask cmcptr.arg).2.2).length < prefixLen + 1 := by
    have separator : ("!".toList).length = 1 ∧ ("@".toList).length = 1 := by
      decide
    simp only [List.length_append, prefixLen]
    omega
  have same : (normalChange cmcptr).arg = maskPart charsIsnickchar 33 (splitMask cmcptr.arg).1 ++
      "!".toList ++ maskPart charsIsuserchar 17 (splitMask cmcptr.arg).2.1 ++ "@".toList ++
      maskPart charsIshostchar 65 (splitMask cmcptr.arg).2.2 :=
    strlcpy_eq_self wholeFits
  have isArg : (maskItem systime cptr (normalChange cmcptr)).mask = (normalChange cmcptr).arg :=
    strlcpy_eq_self (same ▸ wholeFits)
  have isNick : (maskItem systime cptr (normalChange cmcptr)).nmask =
      maskPart charsIsnickchar 33 (splitMask cmcptr.arg).1 := strlcpy_eq_self nickFits
  have isUser : (maskItem systime cptr (normalChange cmcptr)).umask =
      maskPart charsIsuserchar 17 (splitMask cmcptr.arg).2.1 := strlcpy_eq_self userFits
  have isHost : (maskItem systime cptr (normalChange cmcptr)).hmask =
      maskPart charsIshostchar 65 (splitMask cmcptr.arg).2.2 := strlcpy_eq_self hostFits
  refine ⟨isArg, ?_, ?_, ?_, ?_⟩
  · rw [isNick]
    intro c member
    exact ⟨ne_of_mem_maskPart (by decide) (fun _ good => ne_nul_of_good (by decide) good) member,
      ne_of_mem_maskPart (by decide) (fun inText _ => (mem_splitMask.1 inText).1) member,
      ne_of_mem_maskPart (by decide) (fun inText _ => (mem_splitMask.1 inText).2) member⟩
  · rw [isUser]
    intro c member
    exact ⟨ne_of_mem_maskPart (by decide) (fun _ good => ne_nul_of_good (by decide) good) member,
      ne_of_mem_maskPart (by decide) (fun inText _ => (mem_splitMask.2.1 inText).1) member,
      ne_of_mem_maskPart (by decide) (fun inText _ => (mem_splitMask.2.1 inText).2) member⟩
  · rw [isHost]
    intro c member
    exact ⟨ne_of_mem_maskPart (by decide) (fun _ good => ne_nul_of_good (by decide) good) member,
      ne_of_mem_maskPart (by decide) (fun inText _ => mem_splitMask.2.2 inText) member⟩
  · rw [isArg, isNick, isUser, isHost]
    exact same

/-! ### What keeps the lists normal -/

theorem mem_linkByHash {cmiptr acmiptr : Chanmodeitem} {mlptr : List Chanmodeitem} :
    acmiptr ∈ linkByHash cmiptr mlptr ↔ acmiptr = cmiptr ∨ acmiptr ∈ mlptr := by
  induction mlptr with
  | nil => simp [linkByHash]
  | cons first mlptr induction =>
      rw [linkByHash]
      split
      · simp only [List.mem_cons]
        tauto
      · simp only [List.mem_cons, induction]
        tauto

section NormalLists

variable {systime : Nat} {cptr : Client} {chptr : Channel} {cmcptr : Chanmodechange}

theorem Channel.NormalLists.setList (normal : chptr.NormalLists) (letter : Char)
    {mlptr : List Chanmodeitem} (entries : ∀ cmiptr ∈ mlptr, cmiptr.Normal) :
    (chptr.setList letter mlptr).NormalLists := by
  intro l cmiptr member
  simp only [Channel.setList] at member
  split at member
  · exact entries cmiptr member
  · exact normal l cmiptr member

/-- A walk over a list adds at most the block of the change. -/
theorem chanmodeBounceMask_normalLists (normal : chptr.NormalLists)
    (new : cmcptr.what = .add → (maskItem systime cptr cmcptr).Normal) :
    (chanmodeBounceMask systime cptr chptr cmcptr).chptr.NormalLists := by
  have old := normal cmcptr.mode.letter
  rw [chanmodeBounceMask]
  cases what : cmcptr.what with
  | query => exact normal
  | del =>
      refine normal.setList _ fun cmiptr member => ?_
      exact old cmiptr (List.mem_of_mem_filter member)
  | add =>
      have kept : ∀ cmiptr ∈ (coverScan cmcptr.arg (chptr.modelists cmcptr.mode.letter)).kept,
          cmiptr.Normal := fun cmiptr member =>
        old cmiptr ((coverScan_kept _ _).mem member)
      dsimp only
      split
      · exact normal.setList _ kept
      · refine normal.setList _ fun cmiptr member => ?_
        rw [chanmodeMaskAdd] at member
        split at member
        · exact kept cmiptr member
        · rcases mem_linkByHash.mp member with isNew | isOld
          · rw [isNew]
            exact new what
          · exact kept cmiptr isOld

theorem chanmodeBounceBan_normalLists (normal : chptr.NormalLists) :
    (chanmodeBounceBan systime cptr chptr cmcptr).chptr.NormalLists := by
  cases what : cmcptr.what with
  | add =>
      rw [chanmodeBounceBan_add what]
      exact chanmodeBounceMask_normalLists normal fun _ =>
        (maskItem_normalChange systime cptr cmcptr).2
  | del =>
      have same : chanmodeBounceBan systime cptr chptr cmcptr =
          chanmodeBounceMask systime cptr chptr cmcptr := by
        simp only [chanmodeBounceBan, what]
      rw [same]
      exact chanmodeBounceMask_normalLists normal fun isAdd => by simp [what] at isAdd
  | query =>
      have same : chanmodeBounceBan systime cptr chptr cmcptr =
          chanmodeBounceMask systime cptr chptr cmcptr := by
        simp only [chanmodeBounceBan, what]
      rw [same]
      exact chanmodeBounceMask_normalLists normal fun isAdd => by simp [what] at isAdd

theorem chanmodeBounceSimple_modelists :
    (chanmodeBounceSimple chptr cmcptr).chptr.modelists = chptr.modelists := by
  rw [chanmodeBounceSimple]
  split
  · split_ifs <;> rfl
  · split_ifs <;> rfl
  · rfl

/-- The callbacks of the other modes leave the lists alone. -/
theorem callback_modelists (noBan : cmcptr.mode.cb ≠ .chanmodeBounceBan)
    (noMask : cmcptr.mode.cb ≠ .chanmodeBounceMask) :
    (callback systime cptr chptr cmcptr).chptr.modelists = chptr.modelists := by
  cases cb : cmcptr.mode.cb with
  | chanmodeBounceSimple => simp only [callback, cb, chanmodeBounceSimple_modelists]
  | cmAlarmBounce => simp only [callback, cb, cmAlarmBounce, chanmodeBounceSimple_modelists]
  | cmInviteBounce =>
      simp only [callback, cb, cmInviteBounce]
      split
      · split_ifs <;> simp only [refuse, chanmodeBounceSimple_modelists]
      · rw [chanmodeBounceSimple_modelists]
      · rw [chanmodeBounceSimple_modelists]
  | cmKeyBounce =>
      simp only [callback, cb, cmKeyBounce]
      split
      · split_ifs <;> simp only [refuse, chanmodeBounceSimple_modelists]
      · split_ifs <;> simp only [refuse, chanmodeBounceSimple_modelists]
      · rw [chanmodeBounceSimple_modelists]
  | cmLimitBounce =>
      simp only [callback, cb, cmLimitBounce]
      split
      · split_ifs <;> simp only [refuse, chanmodeBounceSimple_modelists]
      · split_ifs <;> simp only [refuse, chanmodeBounceSimple_modelists]
      · rw [chanmodeBounceSimple_modelists]
  | chanuserModeBounce =>
      simp only [callback, cb, chanuserModeBounce]
      split
      · rfl
      · split
        · rfl
        · split_ifs <;> rfl
      · split
        · rfl
        · split_ifs <;> rfl
  | chanmodeBounceBan => exact absurd cb noBan
  | chanmodeBounceMask => exact absurd cb noMask

/-- Every callback that a module registers keeps the lists normal. -/
theorem callback_normalLists (registered : cmcptr.mode.cb ≠ .chanmodeBounceMask)
    (normal : chptr.NormalLists) : (callback systime cptr chptr cmcptr).chptr.NormalLists := by
  by_cases ban : cmcptr.mode.cb = .chanmodeBounceBan
  · rw [callback, ban]
    exact chanmodeBounceBan_normalLists normal
  · intro letter
    rw [callback_modelists ban registered]
    exact normal letter

theorem applyOne_normalLists {source : Source} {state : Applied}
    (registered : cmcptr.mode.cb ≠ .chanmodeBounceMask) (normal : state.chptr.NormalLists) :
    (applyOne systime source state cmcptr).chptr.NormalLists := by
  rw [applyOne]
  have kept : (callback systime source.cptr state.chptr cmcptr).chptr.NormalLists :=
    callback_normalLists registered normal
  split
  · exact normal
  · dsimp only
    split
    · exact kept
    · exact kept

/-- The lists stay normal whatever changes are applied, from whatever source. -/
theorem chanmodeApply_normalLists {source : Source} {changes : List Chanmodechange}
    (registered : ∀ cmcptr ∈ changes, cmcptr.mode.cb ≠ .chanmodeBounceMask)
    (normal : chptr.NormalLists) :
    (chanmodeApply systime source chptr changes).chptr.NormalLists := by
  have start : (⟨chptr, []⟩ : Applied).chptr.NormalLists := normal
  rw [chanmodeApply]
  generalize (⟨chptr, []⟩ : Applied) = state at start
  induction changes generalizing state with
  | nil => exact start
  | cons cmcptr changes induction =>
      rw [List.forall_mem_cons] at registered
      exact induction registered.2 _ (applyOne_normalLists registered.1 start)

end NormalLists

/-! ## Parts of masks -/

namespace Chanmodeitem.Normal

theorem maskTokens_mask {cmiptr : Chanmodeitem} (normal : cmiptr.Normal) :
    maskTokens cmiptr.mask = maskTokens cmiptr.nmask ++ .one '!' ::
      (maskTokens cmiptr.umask ++ .one '@' :: maskTokens cmiptr.hmask) := by
  have isMask : cmiptr.mask =
      cmiptr.nmask ++ '!' :: (cmiptr.umask ++ '@' :: cmiptr.hmask) := by
    rw [normal.whole]
    simp
  rw [isMask, maskTokens_append fun c member => (normal.nick c member).1,
    maskTokens_cons (by decide) (by decide),
    maskTokens_append fun c member => (normal.user c member).1,
    maskTokens_cons (by decide) (by decide)]

/-- A byte that stands for itself only. -/
theorem isOne_of_within {c : Char} (notAny : c ≠ '?') (token : Token Char)
    (within : Within Allows c token) : token = .one c := by
  cases token with
  | many => exact within.elim
  | one d =>
      rcases within with isAny | same
      · exact absurd isAny notAny
      · rw [same]

/-- Where one whole mask is laid along another, so are the parts. -/
theorem covers_parts {general special : Chanmodeitem} (isGeneral : general.Normal)
    (isSpecial : special.Normal) (single : '@' ∉ special.hmask)
    (covers : Covers Allows (maskTokens general.mask) (maskTokens special.mask)) :
    Covers Allows (maskTokens general.nmask) (maskTokens special.nmask) ∧
      Covers Allows (maskTokens general.umask) (maskTokens special.umask) ∧
      Covers Allows (maskTokens general.hmask) (maskTokens special.hmask) := by
  rw [Covers, isGeneral.maskTokens_mask, isSpecial.maskTokens_mask] at covers
  have inNick : Token.one '!' ∉ maskTokens special.nmask := fun token =>
    (isSpecial.nick _ (mem_of_one_mem_maskTokens token)).2.1 rfl
  have behindNick : Token.one '!' ∉
      maskTokens special.umask ++ .one '@' :: maskTokens special.hmask := by
    rw [List.mem_append, List.mem_cons]
    rintro (token | isAt | token)
    · exact (isSpecial.user _ (mem_of_one_mem_maskTokens token)).2.1 rfl
    · exact absurd isAt (by decide)
    · exact (isSpecial.host _ (mem_of_one_mem_maskTokens token)).2 rfl
  have inUser : Token.one '@' ∉ maskTokens special.umask := fun token =>
    (isSpecial.user _ (mem_of_one_mem_maskTokens token)).2.2 rfl
  have inHost : Token.one '@' ∉ maskTokens special.hmask := fun token =>
    single (mem_of_one_mem_maskTokens token)
  obtain ⟨nick, behind⟩ := fits_append_one (isOne_of_within (by decide)) inNick behindNick covers
  obtain ⟨user, host⟩ := fits_append_one (isOne_of_within (by decide)) inUser inHost behind
  exact ⟨nick, user, host⟩

end Chanmodeitem.Normal

end Modes

end Chaosircd
