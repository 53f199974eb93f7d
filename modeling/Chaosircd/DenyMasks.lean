import Chaosircd.JoinHooks
import Chaosircd.MaskRemoval

/-!
# The deny list

`+d` has the callback of `+b`: its argument is rewritten to nick, user and host parts.  The
hook matches the realname, which has no such parts, against the whole of that mask.  The
entries of a channel are followed here from the change that each of them was accepted with.
-/

namespace Chaosircd

open Wildcards

namespace Modes

/-! ## Masks that stay what they are -/

/-- The argument and what it is rewritten to are the same mask, apart from the order of the
wildcards in a run. -/
def KeepsMask (arg : CString) : Prop :=
  canonical (· = '?') (maskTokens (normalMask arg)) = canonical (· = '?') (maskTokens arg)

instance (arg : CString) : Decidable (KeepsMask arg) :=
  inferInstanceAs (Decidable (_ = _))

theorem fits_maskTokens_iff (text mask : CString) :
    Fits Allows (canonical (· = '?') (maskTokens mask)) (beforeNul text) ↔ MaskFits text mask :=
  fits_canonical (fun _ any _ => .inl (of_decide_eq_true any)) _ _

theorem KeepsMask.fits_iff {arg : CString} (keeps : KeepsMask arg) (text : CString) :
    MaskFits text (normalMask arg) ↔ MaskFits text arg := by
  rw [← fits_maskTokens_iff, keeps, fits_maskTokens_iff]

/-- What is put together from parts stays what it is. -/
theorem keepsMask_wholeMask (arg : CString) : KeepsMask (wholeMask arg) := by
  rw [KeepsMask, normalMask_wholeMask]

/-! ## Runs of changes -/

/-- What a change makes of the deny list, and where its entries come from: an entry was there
before, or the change is a `+d` that was accepted. -/
structure Follows (systime : Nat) (cptr : Client) (chptr : Channel) (cmcptr : Chanmodechange)
    (held after : List (Chanmodeitem × CString)) : Prop where
  entries : after.map Prod.fst =
    (chanmodeBounceBan systime cptr chptr cmcptr).chptr.modelists 'd'
  origin : ∀ p ∈ after, p ∈ held ∨
    cmcptr.what = .add ∧ (chanmodeBounceBan systime cptr chptr cmcptr).ret = 0 ∧
      p = (newEntry systime cptr cmcptr, cmcptr.arg)

/-- A run of a channel from an empty deny list on, with the entries that the list holds and the
arguments that they were accepted with.  Between the changes of the list anything else may
happen to the channel. -/
inductive DenyRun : Channel → List (Chanmodeitem × CString) → Prop where
  | start {chptr : Channel} (empty : chptr.modelists 'd' = []) : DenyRun chptr []
  | change {chptr : Channel} {held after : List (Chanmodeitem × CString)} {systime : Nat}
      {cptr : Client} {cmcptr : Chanmodechange} (run : DenyRun chptr held)
      (isDeny : cmcptr.mode.letter = 'd')
      (follows : Follows systime cptr chptr cmcptr held after) :
      DenyRun (chanmodeBounceBan systime cptr chptr cmcptr).chptr after
  | other {chptr later : Channel} {held : List (Chanmodeitem × CString)} (run : DenyRun chptr held)
      (same : later.modelists 'd' = chptr.modelists 'd') : DenyRun later held

theorem newEntry_mask (systime : Nat) (cptr : Client) (cmcptr : Chanmodechange) :
    (newEntry systime cptr cmcptr).mask = normalMask cmcptr.arg :=
  (maskItem_normalChange systime cptr cmcptr).1.trans (normalChange_arg cmcptr)

/-- The list holds the entries that are followed, and each of them has the mask that its
argument was rewritten to. -/
theorem DenyRun.spec {chptr : Channel} {held : List (Chanmodeitem × CString)}
    (run : DenyRun chptr held) :
    held.map Prod.fst = chptr.modelists 'd' ∧ ∀ p ∈ held, p.1.mask = normalMask p.2 := by
  induction run with
  | start empty => exact ⟨empty.symm, fun p listed => absurd listed List.not_mem_nil⟩
  | change run isDeny follows ih =>
    refine ⟨follows.entries, fun p listed => ?_⟩
    rcases follows.origin p listed with before | ⟨-, -, rfl⟩
    · exact ih.2 p before
    · exact newEntry_mask _ _ _
  | other run same ih => exact ⟨ih.1.trans same.symm, ih.2⟩

/-- What a walk for a new mask puts into the list, it puts there when it accepts the mask. -/
theorem made_of_accepted {systime : Nat} {cptr : Client} {chptr : Channel}
    {cmcptr : Chanmodechange} {entry : Chanmodeitem} (isAdd : cmcptr.what = .add)
    (listed : entry ∈
      (chanmodeBounceMask systime cptr chptr cmcptr).chptr.modelists cmcptr.mode.letter) :
    entry ∈ chptr.modelists cmcptr.mode.letter ∨
      (chanmodeBounceMask systime cptr chptr cmcptr).ret = 0 ∧
        entry = maskItem systime cptr cmcptr := by
  have stays : entry ∈ (coverScan cmcptr.arg (chptr.modelists cmcptr.mode.letter)).kept →
      entry ∈ chptr.modelists cmcptr.mode.letter :=
    fun kept => (coverScan_kept _ _).mem kept
  rw [chanmodeBounceMask] at listed ⊢
  simp only [isAdd] at listed ⊢
  split at listed
  case isTrue covered =>
    rw [modelists_setList] at listed
    exact .inl (stays listed)
  case isFalse notCovered =>
    rw [modelists_setList, chanmodeMaskAdd] at listed
    rw [if_neg notCovered, chanmodeMaskAdd]
    split at listed
    case isTrue full => exact .inl (stays listed)
    case isFalse room =>
      rw [if_neg room]
      rcases mem_linkByHash.mp listed with made | kept
      · exact .inr ⟨rfl, made⟩
      · exact .inl (stays kept)

/-- An entry in the list after a change was there before or belongs to an accepted `+d`. -/
theorem origin_of_entry {systime : Nat} {cptr : Client} {chptr : Channel}
    {cmcptr : Chanmodechange} {entry : Chanmodeitem}
    (listed : entry ∈
      (chanmodeBounceBan systime cptr chptr cmcptr).chptr.modelists cmcptr.mode.letter) :
    entry ∈ chptr.modelists cmcptr.mode.letter ∨
      cmcptr.what = .add ∧ (chanmodeBounceBan systime cptr chptr cmcptr).ret = 0 ∧
        entry = newEntry systime cptr cmcptr := by
  cases isWhat : cmcptr.what with
  | add =>
    rw [chanmodeBounceBan_add isWhat] at listed ⊢
    exact (@made_of_accepted systime cptr chptr (normalChange cmcptr) entry isWhat listed).imp id
      fun ⟨accepted, made⟩ => ⟨rfl, accepted, made⟩
  | del => exact .inl ((mem_modelists_del isWhat).mp listed).1
  | query =>
    rw [chanmodeBounceBan] at listed
    simp only [isWhat] at listed
    rw [chanmodeBounceMask] at listed
    simp only [isWhat] at listed
    exact .inl listed

theorem exists_pairs {α β : Type*} (P : α × β → Prop) (l : List α)
    (each : ∀ a ∈ l, ∃ b, P (a, b)) :
    ∃ pairs : List (α × β), pairs.map Prod.fst = l ∧ ∀ p ∈ pairs, P p := by
  induction l with
  | nil => exact ⟨[], rfl, fun p listed => absurd listed List.not_mem_nil⟩
  | cons a l ih =>
    obtain ⟨b, right⟩ := each a List.mem_cons_self
    obtain ⟨pairs, same, rights⟩ := ih fun c listed => each c (List.mem_cons_of_mem a listed)
    refine ⟨(a, b) :: pairs, by rw [List.map_cons, same], fun p listed => ?_⟩
    rcases List.mem_cons.mp listed with rfl | later
    · exact right
    · exact rights p later

/-- The entries can be followed through every change. -/
theorem DenyRun.exists_follows {chptr : Channel} {held : List (Chanmodeitem × CString)}
    (run : DenyRun chptr held) (systime : Nat) (cptr : Client) {cmcptr : Chanmodechange}
    (isDeny : cmcptr.mode.letter = 'd') :
    ∃ after, Follows systime cptr chptr cmcptr held after ∧
      DenyRun (chanmodeBounceBan systime cptr chptr cmcptr).chptr after := by
  have each : ∀ entry ∈ (chanmodeBounceBan systime cptr chptr cmcptr).chptr.modelists 'd',
      ∃ arg, (entry, arg) ∈ held ∨
        cmcptr.what = .add ∧ (chanmodeBounceBan systime cptr chptr cmcptr).ret = 0 ∧
          (entry, arg) = (newEntry systime cptr cmcptr, cmcptr.arg) := by
    intro entry listed
    rw [← isDeny] at listed
    rcases origin_of_entry listed with before | ⟨isAdd, accepted, made⟩
    · rw [isDeny, ← run.spec.1, List.mem_map] at before
      obtain ⟨⟨_, arg⟩, inHeld, rfl⟩ := before
      exact ⟨arg, .inl inHeld⟩
    · exact ⟨cmcptr.arg, .inr ⟨isAdd, accepted, by rw [made]⟩⟩
  obtain ⟨after, entries, origin⟩ := exists_pairs (fun p => p ∈ held ∨
    cmcptr.what = .add ∧ (chanmodeBounceBan systime cptr chptr cmcptr).ret = 0 ∧
      p = (newEntry systime cptr cmcptr, cmcptr.arg)) _ each
  exact ⟨after, ⟨entries, origin⟩, run.change isDeny ⟨entries, origin⟩⟩

/-! ## Who is refused -/

/-- Where the hook comes to the list it refuses the clients that the list matches. -/
theorem cmDenyHook_reply {s : Joining} (undecided : ¬(0 < s.reply ∨ s.reply = spared 'e')) :
    (cmDenyHook s).reply = errDeniedfromchan ↔
      ∃ entry ∈ s.chptr.modelists 'd', strMatch s.cptr.info entry.mask = true := by
  rw [cmDenyHook, refuseUnexcepted, if_neg undecided, ← List.any_eq_true, ← chanmodeMatchDeny]
  split
  case isTrue found => exact iff_of_true rfl found
  case isFalse missed =>
    refine iff_of_false (fun same => undecided (.inl ?_)) missed
    rw [same]
    decide

/-- In every run whose accepted arguments are masks already, the hook refuses the clients whose
realname fits the argument of an entry, and no others, as far as the matching comes to an
end. -/
theorem DenyRun.refused_iff {s : Joining} {held : List (Chanmodeitem × CString)}
    (run : DenyRun s.chptr held) (keeps : ∀ p ∈ held, KeepsMask p.2)
    (decides : ∀ p ∈ held, Decides s.cptr.info (normalMask p.2))
    (undecided : ¬(0 < s.reply ∨ s.reply = spared 'e')) :
    (cmDenyHook s).reply = errDeniedfromchan ↔ ∃ p ∈ held, MaskFits s.cptr.info p.2 := by
  obtain ⟨entries, masks⟩ := run.spec
  have each : ∀ p ∈ held, (strMatch s.cptr.info p.1.mask = true ↔ MaskFits s.cptr.info p.2) := by
    intro p listed
    rw [masks p listed, strMatch_iff (decides p listed), (keeps p listed).fits_iff]
  rw [cmDenyHook_reply undecided, ← entries]
  constructor
  · rintro ⟨entry, listed, found⟩
    obtain ⟨p, inHeld, rfl⟩ := List.mem_map.mp listed
    exact ⟨p, inHeld, (each p inHeld).mp found⟩
  · rintro ⟨p, inHeld, fits⟩
    exact ⟨p.1, List.mem_map_of_mem inHeld, (each p inHeld).mpr fits⟩

/-- `cm_deny_mode`. -/
def cmDenyMode : Chanmode where
  letter := 'd'
  type := .list
  need := {'o', 'h'}
  cb := .chanmodeBounceBan

/-- `+d`. -/
def denyOf (mask : String) : Chanmodechange :=
  { banOf mask with mode := cmDenyMode }

/-- The join of somebody with a realname. -/
def joinAs (realname mask : String) : Joining where
  cptr := { visitor with info := realname.toList }
  chptr := (chanmodeBounceBan 1 hub.cptr openChannel (denyOf mask)).chptr
  reply := 0

theorem denyRun_joinAs (realname : String) :
    DenyRun (joinAs realname "a!b@c*").chptr
      [(newEntry 1 hub.cptr (denyOf "a!b@c*"), "a!b@c*".toList)] := by
  refine DenyRun.change (DenyRun.start rfl) rfl ⟨by decide +kernel, fun p listed => .inr ?_⟩
  exact ⟨rfl, by decide +kernel, List.eq_of_mem_singleton listed⟩

theorem refused_iff_cat :
    (cmDenyHook (joinAs "a!b@cat" "a!b@c*")).reply = errDeniedfromchan ↔
      ∃ p ∈ [(newEntry 1 hub.cptr (denyOf "a!b@c*"), "a!b@c*".toList)],
        MaskFits (joinAs "a!b@cat" "a!b@c*").cptr.info p.2 :=
  DenyRun.refused_iff (denyRun_joinAs "a!b@cat") (by decide +kernel) (by decide +kernel)
    (by decide +kernel)

/-- A realname mask is accepted, and the realnames that it matches are let in. -/
theorem deny_misses_realname :
    (chanmodeBounceBan 1 hub.cptr openChannel (denyOf "*spam*")).ret = 0 ∧
      MaskFits (joinAs "some spam bot" "*spam*").cptr.info "*spam*".toList ∧
      newEntry 1 hub.cptr (denyOf "*spam*") ∈
        (joinAs "some spam bot" "*spam*").chptr.modelists 'd' ∧
      (newEntry 1 hub.cptr (denyOf "*spam*")).mask = "*spam*!*@*".toList ∧
      (cmDenyHook (joinAs "some spam bot" "*spam*")).reply = 0 := by
  refine ⟨by decide +kernel, MaskFits.of_strMatch (by decide +kernel), ?_⟩
  decide +kernel

end Modes

end Chaosircd
