import Chaosircd.MaskEntries

/-!
# What a mask list stands for after a new mask

The walk for a new mask refuses it at an entry that covers it and removes the
entries it covers.  It finds that out by running the matcher along one mask with the
other as the text, and the matcher lets a `?` of the first stand for a `*` of the
second: `?!*@*` counts as covering `*!*@*`.  Where that does not happen, and the
matcher does not give up on a client, the list stands afterwards for the clients it
stood for and for those of the new mask.
-/

namespace Chaosircd

open Wildcards

namespace Modes

/-! ## Asking a list for a client -/

/-- The three functions that look for a client in a mask list. -/
inductive Matcher where
  | ban
  | amode
  | deny
  deriving DecidableEq

namespace Matcher

/-- `chanmode_match_ban`, `chanmode_match_amode` and `chanmode_match_deny`. -/
def list : Matcher → Client → List Chanmodeitem → Bool
  | .ban => chanmodeMatchBan
  | .amode => chanmodeMatchAmode
  | .deny => chanmodeMatchDeny

/-- The hosts of a client that the host part of an entry is tried on. -/
def hosts : Matcher → Client → List CString
  | .ban, cptr => [cptr.host, cptr.hostreal, cptr.hostip]
  | .amode, cptr => [cptr.hostreal, cptr.hostip]
  | .deny, _ => []

/-- One entry is met, by a relation between texts and masks. -/
def Meets (matcher : Matcher) (R : CString → CString → Prop) (cptr : Client)
    (cmiptr : Chanmodeitem) : Prop :=
  match matcher with
  | .deny => R cptr.info cmiptr.mask
  | .ban | .amode =>
    (R cptr.name cmiptr.nmask ∧ ∀ uptr ∈ cptr.user, R uptr.name cmiptr.umask) ∧
      ∃ host ∈ matcher.hosts cptr, R host cmiptr.hmask

/-- A relation holds of all texts and masks that one entry may be tried with. -/
def Throughout (matcher : Matcher) (R : CString → CString → Prop) (cptr : Client)
    (cmiptr : Chanmodeitem) : Prop :=
  match matcher with
  | .deny => R cptr.info cmiptr.mask
  | .ban | .amode =>
    (R cptr.name cmiptr.nmask ∧ ∀ uptr ∈ cptr.user, R uptr.name cmiptr.umask) ∧
      ∀ host ∈ matcher.hosts cptr, R host cmiptr.hmask

instance (matcher : Matcher) (R : CString → CString → Prop)
    [∀ text mask, Decidable (R text mask)] (cptr : Client) (cmiptr : Chanmodeitem) :
    Decidable (matcher.Throughout R cptr cmiptr) :=
  match matcher with
  | .deny => inferInstanceAs (Decidable (R _ _))
  | .ban | .amode => inferInstanceAs (Decidable (_ ∧ _))

variable {matcher : Matcher} {cptr : Client} {cmiptr : Chanmodeitem}

/-- A list has a client when one of its entries does. -/
theorem list_iff {mlptr : List Chanmodeitem} :
    matcher.list cptr mlptr = true ↔
      ∃ cmiptr ∈ mlptr, matcher.Meets (strMatch · ·) cptr cmiptr := by
  cases matcher with
  | deny => simp [list, chanmodeMatchDeny, Meets]
  | ban =>
      simp [list, chanmodeMatchBan, Meets, hosts, Chanmodeitem.MatchesNick, or_assoc]
  | amode => simp [list, chanmodeMatchAmode, Meets, hosts, Chanmodeitem.MatchesNick]

theorem Meets.mono {R S : CString → CString → Prop}
    (steps : matcher.Throughout (fun text mask => R text mask → S text mask) cptr cmiptr)
    (meets : matcher.Meets R cptr cmiptr) : matcher.Meets S cptr cmiptr := by
  cases matcher with
  | deny => exact steps meets
  | ban | amode =>
      obtain ⟨⟨nick, user⟩, host, member, found⟩ := meets
      exact ⟨⟨steps.1.1 nick, fun uptr isUser => steps.1.2 uptr isUser (user uptr isUser)⟩,
        host, member, steps.2 host member found⟩

theorem Throughout.of_forall {R : CString → CString → Prop} (holds : ∀ text mask, R text mask) :
    matcher.Throughout R cptr cmiptr := by
  cases matcher with
  | deny => exact holds _ _
  | ban | amode =>
      exact ⟨⟨holds _ _, fun uptr _ => holds _ _⟩, fun host _ => holds _ _⟩

theorem Throughout.imp {R S : CString → CString → Prop} (steps : ∀ {text mask}, R text mask → S text mask)
    (all : matcher.Throughout R cptr cmiptr) : matcher.Throughout S cptr cmiptr := by
  cases matcher with
  | deny => exact steps all
  | ban | amode =>
      exact ⟨⟨steps all.1.1, fun uptr isUser => steps (all.1.2 uptr isUser)⟩,
        fun host member => steps (all.2 host member)⟩

theorem Meets.fits (meets : matcher.Meets (strMatch · ·) cptr cmiptr) :
    matcher.Meets MaskFits cptr cmiptr :=
  meets.mono (.of_forall fun _ _ => MaskFits.of_strMatch)

/-- A client that the texts of one mask include is met by a mask that covers it. -/
theorem Meets.of_covers {general special : Chanmodeitem} (isGeneral : general.Normal)
    (isSpecial : special.Normal) (plain : ∀ host ∈ matcher.hosts cptr, '@' ∉ host)
    (covers : Covers Allows (maskTokens general.mask) (maskTokens special.mask))
    (meets : matcher.Meets MaskFits cptr special) : matcher.Meets MaskFits cptr general := by
  cases matcher with
  | deny => exact MaskFits.of_covers covers meets
  | ban | amode =>
      obtain ⟨⟨nick, user⟩, host, member, found⟩ := meets
      have single : '@' ∉ special.hmask := by
        intro inHost
        have bytes : ∀ c ∈ special.hmask, c ≠ '\x00' := fun c isByte =>
          (isSpecial.host c isByte).1
        exact plain host member (found.mem bytes (by decide) (by decide) inHost)
      obtain ⟨onNick, onUser, onHost⟩ := isGeneral.covers_parts isSpecial single covers
      exact ⟨⟨nick.of_covers onNick, fun uptr isUser => (user uptr isUser).of_covers onUser⟩,
        host, member, found.of_covers onHost⟩

theorem Meets.of_fits (decides : matcher.Throughout Decides cptr cmiptr)
    (meets : matcher.Meets MaskFits cptr cmiptr) :
    matcher.Meets (strMatch · ·) cptr cmiptr :=
  meets.mono (decides.imp fun decides => (strMatch_iff decides).mpr)

end Matcher

/-! ## The walk for a new mask -/

/-- Where the walk for a new entry takes one mask to cover another, it does so without a `?`
that stands for a `*`, and the matcher decides the client against the entry that stays for
the others. -/
def WellReplaced (matcher : Matcher) (cptr : Client) (new : Chanmodeitem) :
    Bool → List Chanmodeitem → Prop
  | removed, [] => removed = true → matcher.Throughout Decides cptr new
  | removed, cmiptr :: mlptr =>
    if strMatch new.mask cmiptr.mask then
      Covers Allows (maskTokens cmiptr.mask) (maskTokens new.mask) ∧
        matcher.Throughout Decides cptr cmiptr
    else if strMatch cmiptr.mask new.mask then
      Covers Allows (maskTokens new.mask) (maskTokens cmiptr.mask) ∧
        WellReplaced matcher cptr new true mlptr
    else WellReplaced matcher cptr new removed mlptr

/-- The entries are tried one by one. -/
def decideWellReplaced (matcher : Matcher) (cptr : Client) (new : Chanmodeitem) :
    ∀ removed mlptr, Decidable (WellReplaced matcher cptr new removed mlptr)
  | _, [] => inferInstanceAs (Decidable (_ → _))
  | removed, cmiptr :: mlptr =>
    have := decideWellReplaced matcher cptr new true mlptr
    have := decideWellReplaced matcher cptr new removed mlptr
    inferInstanceAs (Decidable (
      if strMatch new.mask cmiptr.mask then
        Covers Allows (maskTokens cmiptr.mask) (maskTokens new.mask) ∧
          matcher.Throughout Decides cptr cmiptr
      else if strMatch cmiptr.mask new.mask then
        Covers Allows (maskTokens new.mask) (maskTokens cmiptr.mask) ∧
          WellReplaced matcher cptr new true mlptr
      else WellReplaced matcher cptr new removed mlptr))

instance (matcher : Matcher) (cptr : Client) (new : Chanmodeitem) (removed : Bool)
    (mlptr : List Chanmodeitem) : Decidable (WellReplaced matcher cptr new removed mlptr) :=
  decideWellReplaced matcher cptr new removed mlptr

section Walk

variable {matcher : Matcher} {cptr : Client} {new : Chanmodeitem} {removed : Bool}
  {mlptr : List Chanmodeitem}

/-- What the walk removes is covered by the new mask. -/
theorem covers_of_mem_lost (well : WellReplaced matcher cptr new removed mlptr) :
    ∀ cmiptr ∈ (coverScan new.mask mlptr).lost,
      Covers Allows (maskTokens new.mask) (maskTokens cmiptr.mask) := by
  induction mlptr generalizing removed with
  | nil => exact fun cmiptr member => absurd member List.not_mem_nil
  | cons first mlptr induction =>
      rw [WellReplaced] at well
      rw [coverScan]
      split at well
      case isTrue refused =>
        rw [if_pos refused]
        exact fun cmiptr member => absurd member List.not_mem_nil
      case isFalse notRefused =>
        rw [if_neg notRefused]
        split at well
        case isTrue covered =>
          rw [if_pos covered, List.forall_mem_cons]
          exact ⟨well.1, induction well.2⟩
        case isFalse notCovered =>
          rw [if_neg notCovered]
          exact induction well

/-- An entry that covers the new mask stays, and decides the client. -/
theorem exists_kept_of_covered (well : WellReplaced matcher cptr new removed mlptr)
    (covered : (coverScan new.mask mlptr).covered = true) :
    ∃ cmiptr ∈ (coverScan new.mask mlptr).kept,
      Covers Allows (maskTokens cmiptr.mask) (maskTokens new.mask) ∧
        matcher.Throughout Decides cptr cmiptr := by
  induction mlptr generalizing removed with
  | nil => exact nomatch covered
  | cons first mlptr induction =>
      rw [WellReplaced] at well
      rw [coverScan] at covered ⊢
      split at well
      case isTrue refused =>
        rw [if_pos refused]
        exact ⟨first, List.mem_cons_self, well⟩
      case isFalse notRefused =>
        rw [if_neg notRefused] at covered ⊢
        split at well
        case isTrue isLost =>
          rw [if_pos isLost] at covered ⊢
          exact induction well.2 covered
        case isFalse notLost =>
          rw [if_neg notLost] at covered ⊢
          obtain ⟨cmiptr, member, stays⟩ := induction well covered
          exact ⟨cmiptr, List.mem_cons_of_mem first member, stays⟩

/-- A new mask that takes the place of others decides the client. -/
theorem decides_of_lost (well : WellReplaced matcher cptr new removed mlptr)
    (notCovered : (coverScan new.mask mlptr).covered = false)
    (replaces : removed = true ∨ (coverScan new.mask mlptr).lost ≠ []) :
    matcher.Throughout Decides cptr new := by
  induction mlptr generalizing removed with
  | nil =>
      cases replaces with
      | inl already => exact well already
      | inr lost => exact absurd rfl lost
  | cons first mlptr induction =>
      rw [WellReplaced] at well
      rw [coverScan] at notCovered replaces
      split at well
      case isTrue refused =>
        rw [if_pos refused] at notCovered
        exact Bool.noConfusion notCovered
      case isFalse notRefused =>
        rw [if_neg notRefused] at notCovered replaces
        split at well
        case isTrue isLost =>
          rw [if_pos isLost] at notCovered
          exact induction well.2 notCovered (.inl rfl)
        case isFalse notLost =>
          rw [if_neg notLost] at notCovered replaces
          exact induction well notCovered replaces

/-- Masks without `?` are compared rightly, and texts and masks that are short enough
together decided. -/
theorem wellReplaced_of_noAny (newPlain : '?' ∉ new.mask)
    (plain : ∀ cmiptr ∈ mlptr, '?' ∉ cmiptr.mask)
    (short : ∀ cmiptr ∈ new :: mlptr, matcher.Throughout
      (fun text mask => (text.length + 1) * (mask.length + 1) ≤ 512) cptr cmiptr) :
    WellReplaced matcher cptr new removed mlptr := by
  induction mlptr generalizing removed with
  | nil => exact fun _ => (short new List.mem_cons_self).imp decides_of_length
  | cons first mlptr induction =>
      rw [List.forall_mem_cons] at plain
      have shortNew := short new List.mem_cons_self
      have shortFirst := short first (List.mem_cons_of_mem new List.mem_cons_self)
      have rest (removed : Bool) : WellReplaced matcher cptr new removed mlptr := by
        refine induction plain.2 fun cmiptr member => ?_
        rcases List.mem_cons.mp member with isNew | behind
        · rw [isNew]
          exact shortNew
        · exact short cmiptr (List.mem_cons_of_mem new (List.mem_cons_of_mem first behind))
      rw [WellReplaced]
      split
      case isTrue refused =>
        have fits := MaskFits.of_strMatch refused
        exact ⟨fits.covers (.inl plain.1), shortFirst.imp decides_of_length⟩
      case isFalse =>
        split
        case isTrue isLost =>
          have fits := MaskFits.of_strMatch isLost
          exact ⟨fits.covers (.inl newPlain), rest true⟩
        case isFalse => exact rest removed

theorem mem_iff_kept_or_lost {arg : CString} {cmiptr : Chanmodeitem} :
    cmiptr ∈ mlptr ↔
      cmiptr ∈ (coverScan arg mlptr).kept ∨ cmiptr ∈ (coverScan arg mlptr).lost := by
  rw [← List.mem_append, (coverScan_perm arg mlptr).mem_iff]

end Walk

/-! ## The clients of the list -/

/-- The entry that a new mask becomes. -/
def newEntry (systime : Nat) (cptr : Client) (cmcptr : Chanmodechange) : Chanmodeitem :=
  maskItem systime cptr (normalChange cmcptr)

section Coverage

variable {matcher : Matcher} {systime : Nat} {source cptr : Client} {chptr : Channel}
  {cmcptr : Chanmodechange} {mlptr : List Chanmodeitem} {new : Chanmodeitem}

/-- After the walk has refused the new mask. -/
theorem list_kept_of_covered (isNew : new.Normal) (normal : ∀ cmiptr ∈ mlptr, cmiptr.Normal)
    (plain : ∀ host ∈ matcher.hosts cptr, '@' ∉ host)
    (well : WellReplaced matcher cptr new false mlptr)
    (covered : (coverScan new.mask mlptr).covered = true) :
    matcher.list cptr (coverScan new.mask mlptr).kept = true ↔
      matcher.list cptr mlptr = true ∨ matcher.list cptr [new] = true := by
  obtain ⟨keeper, stays, covers, decides⟩ := exists_kept_of_covered well covered
  have isKeeper := normal keeper (mem_iff_kept_or_lost.mpr (.inl stays))
  have keeps (fits : matcher.Meets MaskFits cptr new) :
      ∃ cmiptr ∈ (coverScan new.mask mlptr).kept, matcher.Meets (strMatch · ·) cptr cmiptr :=
    ⟨keeper, stays, (fits.of_covers isKeeper isNew plain covers).of_fits decides⟩
  simp only [Matcher.list_iff]
  constructor
  · intro ⟨cmiptr, member, meets⟩
    exact .inl ⟨cmiptr, mem_iff_kept_or_lost.mpr (.inl member), meets⟩
  · rintro (⟨cmiptr, member, meets⟩ | ⟨cmiptr, member, meets⟩)
    · rcases mem_iff_kept_or_lost.mp member with kept | lost
      · exact ⟨cmiptr, kept, meets⟩
      · have onNew := covers_of_mem_lost well cmiptr lost
        exact keeps (meets.fits.of_covers isNew (normal cmiptr member) plain onNew)
    · rw [List.mem_singleton.mp member] at meets
      exact keeps meets.fits

/-- After the walk has linked the new mask. -/
theorem list_linked_of_not_covered (isNew : new.Normal)
    (normal : ∀ cmiptr ∈ mlptr, cmiptr.Normal)
    (plain : ∀ host ∈ matcher.hosts cptr, '@' ∉ host)
    (well : WellReplaced matcher cptr new false mlptr)
    (notCovered : (coverScan new.mask mlptr).covered = false) :
    matcher.list cptr (linkByHash new (coverScan new.mask mlptr).kept) = true ↔
      matcher.list cptr mlptr = true ∨ matcher.list cptr [new] = true := by
  simp only [Matcher.list_iff, mem_linkByHash, List.mem_singleton]
  constructor
  · rintro ⟨cmiptr, isNew | kept, meets⟩
    · exact .inr ⟨cmiptr, isNew, meets⟩
    · exact .inl ⟨cmiptr, mem_iff_kept_or_lost.mpr (.inl kept), meets⟩
  · rintro (⟨cmiptr, member, meets⟩ | ⟨cmiptr, isNew, meets⟩)
    · rcases mem_iff_kept_or_lost.mp member with kept | lost
      · exact ⟨cmiptr, .inr kept, meets⟩
      · have onNew := covers_of_mem_lost well cmiptr lost
        have decides := decides_of_lost well notCovered (.inr (List.ne_nil_of_mem lost))
        have fits := meets.fits.of_covers isNew (normal cmiptr member) plain onNew
        exact ⟨new, .inl rfl, fits.of_fits decides⟩
    · exact ⟨cmiptr, .inl isNew, meets⟩

/-- The list of an accepted or dropped mask. -/
theorem chanmodeBounceMask_modelists (isAdd : cmcptr.what = .add)
    (settled : (chanmodeBounceMask systime source chptr cmcptr).ret = 0 ∨
      (chanmodeBounceMask systime source chptr cmcptr).ret = 1) :
    (chanmodeBounceMask systime source chptr cmcptr).chptr.modelists cmcptr.mode.letter =
      if (coverScan cmcptr.arg (chptr.modelists cmcptr.mode.letter)).covered then
        (coverScan cmcptr.arg (chptr.modelists cmcptr.mode.letter)).kept
      else linkByHash (maskItem systime source cmcptr)
        (coverScan cmcptr.arg (chptr.modelists cmcptr.mode.letter)).kept := by
  rw [chanmodeBounceMask] at settled ⊢
  simp only [isAdd] at settled ⊢
  split
  case isTrue => exact if_pos rfl
  case isFalse notCovered =>
    rw [if_neg notCovered, chanmodeMaskAdd] at settled
    rw [chanmodeMaskAdd]
    split
    case isTrue full => simp [full] at settled
    case isFalse => exact if_pos rfl

end Coverage

/-! ### One letter for all -/

/-- `+b`. -/
def banOf (mask : String) : Chanmodechange where
  mode := banMode
  what := .add
  acptr := none
  bounced := 0
  ts := 0
  nmask := none
  umask := none
  hmask := none
  info := []
  arg := mask.toList

/-- A channel without bans. -/
def openChannel : Channel where
  id := 0
  name := "#c".toList
  modes := {'n'}
  key := []
  limit := 0
  modelists := fun _ => []
  chanusers := []
  invites := ∅

/-- The channel after the first ban. -/
def channelWith (mask : String) : Channel :=
  (chanmodeBounceBan 1 hub.cptr openChannel (banOf mask)).chptr

theorem channelWith_normalLists (mask : String) : (channelWith mask).NormalLists :=
  chanmodeBounceBan_normalLists fun _ _ member => absurd member List.not_mem_nil

/-- A user whose nick has more than one letter. -/
def visitor : Client where
  id := 3
  isUser := true
  isLocal := true
  name := "ab".toList
  user := some ⟨"u".toList, "A".toList, ∅⟩
  host := "h".toList
  hostreal := "h".toList
  hostip := "10.0.0.3".toList
  info := "i".toList

end Modes

end Chaosircd
