import Chaosircd.Chars
import Chaosircd.Machine
import Chaosircd.NickUniqueness
import Mathlib.Data.List.Rotate

/-!
# Turning a nick

When two clients want the same nick, the nick of one of them is turned round until it is
free.  Each round turns the nick that was given, by one character, and so looks for the same
nick as the round before; no other rotation is tried, and the first character of what is
found may be one that no nick starts with.
-/

namespace Chaosircd

namespace Ircd

/-! ## The loop -/

/-- The inner loop of `client_nick_rotate`, and the two characters behind it. -/
def rotateOnce (name : CString) : CString :=
  name.tail ++ name.take 1

/-- The outer loop of `client_nick_rotate`, with the rounds that are left: what was found in
the last round, and the buffer. -/
def rotateLoop (ircd : Ircd) (name : CString) :
    Nat → Option Client → CString → Option Client × CString
  | 0, acptr, buf => (acptr, buf)
  | rounds + 1, _, _ =>
    match ircd.clientFindNick (rotateOnce name) with
    | none => (none, rotateOnce name)
    | some acptr => rotateLoop ircd name rounds (some acptr) (rotateOnce name)

/-- `client_nick_rotate`: the buffer where it returns 0, and nothing where it returns -1. -/
def clientNickRotateLoop (ircd : Ircd) (name buf : CString) : Option CString :=
  if name.length < 2 then none
  else
    match rotateLoop ircd name (name.length - 1) none buf with
    | (none, buf) => some buf
    | (some _, _) => none

/-- A client is found under the nick. -/
def NickInUse (ircd : Ircd) (nick : CString) : Prop :=
  ircd.clientFindNick nick ≠ none

instance (ircd : Ircd) (nick : CString) : Decidable (ircd.NickInUse nick) :=
  inferInstanceAs (Decidable (_ ≠ _))

/-- A proper rotation of a nick is one by less than its length. -/
def ProperRotation (nick candidate : CString) : Prop :=
  ∃ k, 0 < k ∧ k < nick.length ∧ candidate = nick.rotate k

/-- There is a result when some proper rotation is free, and the result is a free one that is
a valid nick. -/
structure FindsFreeNick (ircd : Ircd) (nick : CString) (result : Option CString) : Prop where
  finds : (∃ candidate, result = some candidate) ↔
    ∃ candidate, ProperRotation nick candidate ∧ ¬ ircd.NickInUse candidate
  free : ∀ candidate, result = some candidate →
    ProperRotation nick candidate ∧ ¬ ircd.NickInUse candidate ∧ charsValidNick candidate = true

/-- A nick has one character or none, or the rotation by one is free and a valid nick, or all
rotations are in use. -/
def RotatesWell (ircd : Ircd) (nick : CString) : Prop :=
  nick.length < 2 ∨
    ¬ ircd.NickInUse (nick.rotate 1) ∧ charsValidNick (nick.rotate 1) = true ∨
    ∀ k, 0 < k → k < nick.length → ircd.NickInUse (nick.rotate k)

/-! ## Each round is the first -/

variable {ircd : Ircd} {nick : CString}

theorem rotateOnce_eq (some : nick ≠ []) : rotateOnce nick = nick.rotate 1 := by
  cases nick with
  | nil => exact absurd rfl some
  | cons c nick => rw [List.rotate_cons_succ, List.rotate_zero]; rfl

theorem rotateLoop_eq (name : CString) (rounds : Nat) (acptr : Option Client) (buf : CString) :
    rotateLoop ircd name (rounds + 1) acptr buf =
      (ircd.clientFindNick (rotateOnce name), rotateOnce name) := by
  induction rounds generalizing acptr buf with
  | zero =>
      rw [rotateLoop]
      cases ircd.clientFindNick (rotateOnce name) with
      | none => rfl
      | some found => rfl
  | succ rounds induction =>
      rw [rotateLoop]
      cases found : ircd.clientFindNick (rotateOnce name) with
      | none => rfl
      | some other =>
          dsimp only
          rw [induction, found]

theorem clientNickRotateLoop_eq (ircd : Ircd) (name buf : CString) :
    ircd.clientNickRotateLoop name buf =
      if name.length < 2 ∨ ircd.NickInUse (name.rotate 1) then none else some (name.rotate 1) := by
  rw [clientNickRotateLoop]
  by_cases short : name.length < 2
  · rw [if_pos short, if_pos (.inl short)]
  · obtain ⟨rounds, enough⟩ : ∃ rounds, name.length - 1 = rounds + 1 :=
      ⟨name.length - 2, by omega⟩
    have some_left : name ≠ [] := by
      rintro rfl
      exact short (by decide)
    rw [if_neg short, enough, rotateLoop_eq, rotateOnce_eq some_left]
    cases found : ircd.clientFindNick (name.rotate 1) with
    | none =>
        have free : ¬ ircd.NickInUse (name.rotate 1) := fun used => used found
        rw [if_neg (not_or.mpr ⟨short, free⟩)]
    | some acptr =>
        have used : ircd.NickInUse (name.rotate 1) := by
          rw [NickInUse, found]
          exact Option.some_ne_none acptr
        rw [if_pos (.inr used)]

/-- The function in which only one candidate is looked for is the loop. -/
theorem clientNickRotate_eq_loop (ircd : Ircd) (name buf : CString) :
    ircd.clientNickRotate name = ircd.clientNickRotateLoop name buf := by
  rw [clientNickRotateLoop_eq]
  match name with
  | [] => rfl
  | [_] => rfl
  | first :: second :: rest =>
      have long : ¬ (first :: second :: rest).length < 2 := by simp
      have turned : (first :: second :: rest).rotate 1 = (second :: rest) ++ [first] := by
        rw [List.rotate_cons_succ, List.rotate_zero]
      rw [clientNickRotate, turned]
      by_cases free : ircd.clientFindNick ((second :: rest) ++ [first]) = none
      · rw [if_pos free, if_neg]
        rintro (short | used)
        · exact long short
        · exact used free
      · rw [if_neg free, if_pos (.inr free)]

/-- Where the index is coherent, the nicks in use are those of the users. -/
theorem nickInUse_iff (coherent : ircd.nickTable.Coherent) (some : nick ≠ []) :
    ircd.NickInUse nick ↔ ∃ cptr ∈ ircd.clients, cptr.IsUser ∧ IcmpEq cptr.name nick := by
  constructor
  · intro used
    obtain ⟨cptr, found⟩ := Option.ne_none_iff_exists'.mp used
    have entry : ircd.nickTable.find nick = Option.some cptr.nickEntry := by
      rw [find_nickTable, found]
      rfl
    obtain ⟨_, isUser, answers⟩ := coherent.of_find entry
    exact ⟨cptr, mem_of_clientFindNick found, by simpa [Client.nickEntry] using isUser,
      answers.2.2⟩
  · rintro ⟨cptr, member, isUser, same⟩ notFound
    have noEntry : ircd.nickTable.find nick = none := by
      rw [find_nickTable, notFound]
      rfl
    have named : cptr.name ≠ [] := by
      intro empty
      rw [empty] at same
      exact some (List.map_eq_nil_iff.mp same.symm)
    exact coherent.not_held_of_find_eq_none noEntry (List.mem_map_of_mem member)
      (by simpa [Client.nickEntry] using isUser) named same

/-! ## When a free nick is found -/

theorem none_ne_some {α : Type} (a : α) : (none : Option α) ≠ some a :=
  (Option.some_ne_none a).symm

/-- A free rotation is found, and is a valid nick, when it is the rotation by one, and there
is none to find when all rotations are in use. -/
theorem findsFreeNick_iff (ircd : Ircd) (nick buf : CString) :
    FindsFreeNick ircd nick (ircd.clientNickRotateLoop nick buf) ↔ RotatesWell ircd nick := by
  rw [clientNickRotateLoop_eq]
  by_cases short : nick.length < 2
  · rw [if_pos (.inl short)]
    refine iff_of_true ⟨?_, fun candidate found => absurd found (none_ne_some candidate)⟩
      (.inl short)
    refine iff_of_false (fun ⟨candidate, found⟩ => none_ne_some candidate found) ?_
    rintro ⟨_, ⟨k, least, most, _⟩, _⟩
    omega
  · have first : ProperRotation nick (nick.rotate 1) := ⟨1, by decide, by omega, rfl⟩
    by_cases used : ircd.NickInUse (nick.rotate 1)
    · rw [if_pos (.inr used)]
      constructor
      · rintro ⟨finds, _⟩
        refine .inr (.inr fun k least most => ?_)
        by_contra free
        obtain ⟨candidate, found⟩ := finds.mpr ⟨_, ⟨k, least, most, rfl⟩, free⟩
        cases found
      · rintro (less | ⟨free, _⟩ | all)
        · exact absurd less short
        · exact absurd used free
        · refine ⟨?_, fun candidate found => nomatch found⟩
          refine iff_of_false (fun ⟨candidate, found⟩ => nomatch found) ?_
          rintro ⟨_, ⟨k, least, most, rfl⟩, free⟩
          exact free (all k least most)
    · rw [if_neg (not_or.mpr ⟨short, used⟩)]
      constructor
      · rintro ⟨_, valid⟩
        exact .inr (.inl ⟨used, (valid _ rfl).2.2⟩)
      · rintro (less | ⟨_, valid⟩ | all)
        · exact absurd less short
        · refine ⟨iff_of_true ⟨_, rfl⟩ ⟨_, first, used⟩, ?_⟩
          intro candidate found
          rw [← Option.some_inj.mp found]
          exact ⟨first, used, valid⟩
        · exact absurd (all 1 (by decide) (by omega)) used

/-- A server where somebody is called `bca`. -/
def turnedNick : Ircd :=
  (boot "me".toList 0).linkClient ⟨1, false, .user ⟨"al".toList, "AAAAAAAA".toList⟩, 0, some 0,
    "bca".toList, strIhash "bca".toList, 500⟩

/-- The nick `abc` could become `cab`, which is not tried. -/
theorem cab_not_tried :
    ¬ ∀ ircd nick buf, FindsFreeNick ircd nick (ircd.clientNickRotateLoop nick buf) := by
  intro always
  have free : ∃ candidate, ProperRotation "abc".toList candidate ∧
      ¬ turnedNick.NickInUse candidate :=
    ⟨"cab".toList, ⟨2, by decide, by decide +kernel, by decide +kernel⟩, by decide +kernel⟩
  obtain ⟨candidate, found⟩ := (always turnedNick "abc".toList []).finds.mpr free
  have missed : turnedNick.clientNickRotateLoop "abc".toList [] = none := by decide +kernel
  exact none_ne_some candidate (missed.symm.trans found)

end Ircd

end Chaosircd
