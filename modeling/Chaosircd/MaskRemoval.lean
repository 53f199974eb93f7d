import Chaosircd.MaskCoverage
import Chaosircd.MaskNormal

/-!
# Taking a mask back

`chanmode_bounce_ban` rewrites the argument of a new mask, while the argument of a removal
is compared as it was typed with the masks in the list.  A removal with the argument of an
addition lifts the mask when one of the two, the argument and what it was rewritten to,
matches the other.
-/

namespace Chaosircd

open Wildcards

namespace Modes

section

variable {systime : Nat} {cptr : Client} {chptr : Channel} {cmcptr : Chanmodechange}

/-- A removal keeps the entries that its argument is not comparable with. -/
theorem mem_modelists_del {entry : Chanmodeitem} (isDel : cmcptr.what = .del) :
    entry ∈ (chanmodeBounceBan systime cptr chptr cmcptr).chptr.modelists cmcptr.mode.letter ↔
      entry ∈ chptr.modelists cmcptr.mode.letter ∧ ¬ Comparable cmcptr.arg entry := by
  rw [chanmodeBounceBan]
  simp only [isDel]
  rw [chanmodeBounceMask]
  simp only [isDel]
  rw [modelists_setList, List.mem_filter, decide_eq_true_eq]

/-- An accepted mask is in its list. -/
theorem mem_modelists_of_accepted (isAdd : cmcptr.what = .add)
    (accepted : (chanmodeBounceBan systime cptr chptr cmcptr).ret = 0) :
    newEntry systime cptr cmcptr ∈
      (chanmodeBounceBan systime cptr chptr cmcptr).chptr.modelists cmcptr.mode.letter := by
  rw [chanmodeBounceBan_add isAdd] at accepted ⊢
  have sameWhat : (normalChange cmcptr).what = .add := isAdd
  have list := chanmodeBounceMask_modelists sameWhat (.inl accepted)
  have open' : (coverScan (normalChange cmcptr).arg
      (chptr.modelists (normalChange cmcptr).mode.letter)).covered = false := by
    rw [Bool.eq_false_iff]
    intro covered
    rw [chanmodeBounceMask] at accepted
    simp only [sameWhat, if_pos covered] at accepted
    cases accepted
  rw [open', if_neg Bool.false_ne_true] at list
  have member : newEntry systime cptr cmcptr ∈ linkByHash
      (maskItem systime cptr (normalChange cmcptr))
      (coverScan (normalChange cmcptr).arg
        (chptr.modelists (normalChange cmcptr).mode.letter)).kept :=
    mem_linkByHash.mpr (.inl rfl)
  rw [← list] at member
  exact member

end

/-- The argument of a mask, and the mask it was rewritten to, matched in one direction. -/
def Lifts (arg : CString) : Prop :=
  strMatch arg (normalMask arg) = true ∨ strMatch (normalMask arg) arg = true

instance (arg : CString) : Decidable (Lifts arg) :=
  inferInstanceAs (Decidable (_ ∨ _))

/-- The removal of a mask that was accepted lifts it from every later list just when its
argument matches what it was rewritten to, or the other way round. -/
theorem removal_lifts_iff {systime : Nat} {cptr : Client} {chptr : Channel}
    (cmcptr : Chanmodechange)
    (accepted :
      (chanmodeBounceBan systime cptr chptr { cmcptr with what := .add }).ret = 0) :
    (∀ systime' cptr' later,
      newEntry systime cptr { cmcptr with what := .add } ∉
        (chanmodeBounceBan systime' cptr' later { cmcptr with what := .del }).chptr.modelists
          cmcptr.mode.letter) ↔
      Lifts cmcptr.arg := by
  have comparable : Comparable cmcptr.arg (newEntry systime cptr { cmcptr with what := .add }) ↔
      Lifts cmcptr.arg := by
    have mask := (maskItem_normalChange systime cptr { cmcptr with what := .add }).1.trans
      (normalChange_arg _)
    rw [Comparable, newEntry, mask, Lifts]
  rw [← comparable]
  constructor
  · intro gone
    have there := @mem_modelists_of_accepted systime cptr chptr { cmcptr with what := .add } rfl
      accepted
    have lifted := gone 0 cptr
      (chanmodeBounceBan systime cptr chptr { cmcptr with what := .add }).chptr
    rw [@mem_modelists_del 0 cptr _ { cmcptr with what := .del } _ rfl, not_and, not_not]
      at lifted
    exact lifted there
  · intro isComparable systime' cptr' later member
    rw [@mem_modelists_del systime' cptr' later { cmcptr with what := .del } _ rfl] at member
    exact member.2 isComparable

/-- A mask without wildcards that has all three parts is lifted. -/
theorem removal_lifts_alice :
    newEntry 1 hub.cptr { banOf "alice!bob@example.org" with what := .add } ∉
      (chanmodeBounceBan 2 hub.cptr (channelWith "alice!bob@example.org")
        { banOf "alice!bob@example.org" with what := .del }).chptr.modelists 'b' :=
  (@removal_lifts_iff 1 hub.cptr openChannel (banOf "alice!bob@example.org")
    (by decide +kernel)).mpr (by decide +kernel) 2 hub.cptr _

/-- A nick that was banned stays banned when the ban of the nick is removed. -/
theorem nick_stays_banned :
    (chanmodeBounceBan 1 hub.cptr openChannel { banOf "alice" with what := .add }).ret = 0 ∧
      newEntry 1 hub.cptr { banOf "alice" with what := .add } ∈
        (chanmodeBounceBan 2 hub.cptr (channelWith "alice")
          { banOf "alice" with what := .del }).chptr.modelists 'b' := by
  decide +kernel

/-! ## Arguments that never lift -/

/-- A mask of plain bytes stands for itself only. -/
theorem eq_of_fits_plain {mask text : CString} (noAny : '?' ∉ mask)
    (fits : Fits Allows (mask.map .one) text) : text = mask := by
  induction mask generalizing text with
  | nil => exact fits
  | cons c mask induction =>
      rw [List.mem_cons, not_or] at noAny
      cases text with
      | nil => exact fits.elim
      | cons d text =>
          obtain ⟨allowed, rest⟩ := fits
          rw [induction noAny.2 rest, allowed.resolve_left (Ne.symm noAny.1)]

theorem maskTokens_of_plain {mask : CString} (bytes : '\x00' ∉ mask) (noStar : '*' ∉ mask) :
    maskTokens mask = mask.map .one := by
  rw [maskTokens, beforeNul_eq_self bytes]
  apply List.map_congr_left
  intro c member
  rw [maskToken, if_neg]
  rintro rfl
  exact noStar member

theorem nul_not_mem_joinParts (parts : CString × CString × CString) :
    '\x00' ∉ joinParts parts := by
  have clean : ∀ {allowed : Char → Bool} {size : Nat} {part : CString},
      CleanPart allowed size part → allowed '\x00' = false → '\x00' ∉ part := by
    intro allowed size part clean noNul member
    exact ne_nul_of_good noNul (clean.good _ member) rfl
  rw [joinParts]
  simp only [List.mem_append, List.mem_cons]
  rintro (nick | isBang | user | isAt | host)
  · exact clean (cleanPart_maskPart charsIsnickchar parts.1 (by decide)) (by decide) nick
  · cases isBang
  · exact clean (cleanPart_maskPart charsIsuserchar parts.2.1 (by decide)) (by decide) user
  · cases isAt
  · exact clean (cleanPart_maskPart charsIshostchar parts.2.2 (by decide)) (by decide) host

theorem separators_mem_joinParts (parts : CString × CString × CString) :
    '!' ∈ joinParts parts ∧ '@' ∈ joinParts parts := by
  rw [joinParts]
  constructor
  · exact List.mem_append_right _ List.mem_cons_self
  · exact List.mem_append_right _
      (List.mem_cons_of_mem _ (List.mem_append_right _ List.mem_cons_self))

/-- An argument without wildcards that lacks a separator does not lift its mask. -/
theorem not_lifts_of_plain {arg : CString} (bytes : '\x00' ∉ arg) (noStar : '*' ∉ arg)
    (noAny : '?' ∉ arg) (lacks : '!' ∉ arg ∨ '@' ∉ arg) : ¬ Lifts arg := by
  have noNul := nul_not_mem_joinParts (splitMask arg)
  have separators : '!' ∈ normalMask arg ∧ '@' ∈ normalMask arg :=
    separators_mem_joinParts (splitMask arg)
  have whole : ∀ c ∈ normalMask arg, c ≠ '\x00' := by
    rintro c member rfl
    exact noNul member
  rintro (forth | back)
  · have fits := MaskFits.of_strMatch forth
    rcases lacks with noBang | noAt
    · exact noBang (fits.mem whole (by decide) (by decide) separators.1)
    · exact noAt (fits.mem whole (by decide) (by decide) separators.2)
  · have fits := MaskFits.of_strMatch back
    rw [MaskFits, maskTokens_of_plain bytes noStar] at fits
    have same : normalMask arg = arg :=
      (beforeNul_eq_self noNul).symm.trans (eq_of_fits_plain noAny fits)
    rw [same] at separators
    exact lacks.elim (fun noBang => noBang separators.1) fun noAt => noAt separators.2

end Modes

end Chaosircd
