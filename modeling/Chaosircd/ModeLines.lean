import Chaosircd.ModeChange

/-!
# Channel modes: the lines of a change list

`chanmode_assemble` fills one line with changes from a list, skipping those that
bounced, and returns where it stopped; `chanmode_send_local` and
`chanmode_send_remote` call it until the list is used up.  Whatever the list, the
lines are those of the list without its bounced changes.
-/

namespace Chaosircd

namespace Modes

/-- `CHANMODE_PER_LINE`. -/
def chanmodePerLine : Nat := 16

/-- `IRCD_LINELEN`. -/
def lineLen : Nat := 2048

/-- The two buffers, the number of modes in them and the direction written last. -/
structure Assembly where
  modebuf : CString
  parabuf : CString
  i : Nat
  what : Option What
  deriving DecidableEq

/-- The buffers `chanmode_assemble` starts with. -/
def Assembly.empty : Assembly :=
  ⟨[], [], 0, none⟩

/-- The argument written for a change: the identifier or the name of a client, or the text. -/
def changeArg (uid : Bool) (cmcptr : Chanmodechange) : CString :=
  match cmcptr.acptr with
  | some acptr => if uid then (acptr.user.map User.uid).getD [] else acptr.name
  | none => cmcptr.arg

/-- The change does not fit any more. -/
def Assembly.Overflows (st : Assembly) (n : Nat) (uid : Bool) (cmcptr : Chanmodechange) :
    Prop :=
  cmcptr.mode.type ≠ .single ∧ n < st.parabuf.length + (changeArg uid cmcptr).length + 2

instance (st : Assembly) (n : Nat) (uid : Bool) (cmcptr : Chanmodechange) :
    Decidable (st.Overflows n uid cmcptr) :=
  inferInstanceAs (Decidable (_ ∧ _))

/-- The change is written into the buffers. -/
def Assembly.write (st : Assembly) (uid : Bool) (cmcptr : Chanmodechange) : Assembly where
  modebuf :=
    st.modebuf ++
      (if st.what = some cmcptr.what then []
        else [if cmcptr.what = .add then '+' else '-']) ++ [cmcptr.mode.letter]
  parabuf :=
    if cmcptr.mode.type = .single then st.parabuf
    else st.parabuf ++ (if st.parabuf = [] then [] else [' ']) ++ changeArg uid cmcptr
  i := st.i + 1
  what := some cmcptr.what

/-- The loop of `chanmode_assemble`: the buffers, and the list it returns. -/
def assembleLoop (n count : Nat) (uid : Bool) :
    List Chanmodechange → Assembly → Assembly × List Chanmodechange
  | [], st => (st, [])
  | cmcptr :: changes, st =>
    if cmcptr.bounced ≠ 0 then
      if st.i < count ∧ st.i < chanmodePerLine then assembleLoop n count uid changes st
      else (st, changes)
    else if st.Overflows n uid cmcptr then (st, cmcptr :: changes)
    else
      let st := st.write uid cmcptr
      if st.i < count ∧ st.i < chanmodePerLine then assembleLoop n count uid changes st
      else (st, changes)

/-- `chanmode_assemble`. -/
def chanmodeAssemble (n count : Nat) (uid : Bool) (changes : List Chanmodechange) :
    Assembly × List Chanmodechange :=
  assembleLoop n count uid changes Assembly.empty

/-- `for(node = nptr; node;) node = chanmode_assemble(...)`: the buffers of each line sent.
No argument is as long as a line, so every turn takes a change from the list. -/
def assembleLines (n count : Nat) (uid : Bool) :
    Nat → List Chanmodechange → List (CString × CString)
  | 0, _ => []
  | _ + 1, [] => []
  | turns + 1, cmcptr :: changes =>
    let (st, rest) := chanmodeAssemble n count uid (cmcptr :: changes)
    if st.modebuf = [] then assembleLines n count uid turns rest
    else (st.modebuf, st.parabuf) :: assembleLines n count uid turns rest

/-- The text of one line. -/
def modeLine (cmd : CString) (buffers : CString × CString) : CString :=
  if buffers.2 = [] then cmd ++ " ".toList ++ buffers.1
  else cmd ++ " ".toList ++ buffers.1 ++ " ".toList ++ buffers.2

/-- `arglen` for a line that starts with `cmd`. -/
def argLen (cmd : CString) : Nat :=
  lineLen - 2 - cmd.length - (chanmodePerLine * 2 + 1) - 3

/-- All lines of a change list that start with `cmd`. -/
def modeLines (cmd : CString) (count : Nat) (uid : Bool) (changes : List Chanmodechange) :
    List CString :=
  (assembleLines (argLen cmd) count uid changes.length changes).map (modeLine cmd)

/-- `:nick MODE #channel`. -/
def modeCmd (source : CString) (chptr : Channel) : CString :=
  strlcpy (":".toList ++ source ++ " MODE ".toList ++ chptr.name) (lineLen - 1)

/-- `nick!user@host` of a user, the name of a server. -/
def Client.fullName (cptr : Client) : CString :=
  match cptr.user with
  | some uptr => cptr.name ++ "!".toList ++ uptr.name ++ "@".toList ++ cptr.host
  | none => cptr.name

/-- `chanmode_send_local`: the lines that go to the local members. -/
def chanmodeSendLocal (cptr : Client) (chptr : Channel) (changes : List Chanmodechange)
    (n : Nat) : List CString :=
  modeLines (modeCmd cptr.fullName chptr) n false changes

/-- `chanmode_send_remote`: the lines for the servers that know identifiers, and those for
the others. -/
def chanmodeSendRemote (cptr : Client) (chptr : Channel) (changes : List Chanmodechange) :
    List CString × List CString :=
  let source := (cptr.user.map User.uid).getD cptr.name
  (modeLines (modeCmd source chptr) chanmodePerLine true changes,
    modeLines (modeCmd cptr.name chptr) chanmodePerLine false changes)

/-! ## The bounced changes do not show -/

/-- The changes that go out. -/
def unbounced (changes : List Chanmodechange) : List Chanmodechange :=
  changes.filter fun cmcptr => cmcptr.bounced = 0

@[simp]
theorem unbounced_cons_of_zero {cmcptr : Chanmodechange} (kept : cmcptr.bounced = 0)
    (changes : List Chanmodechange) :
    unbounced (cmcptr :: changes) = cmcptr :: unbounced changes := by
  simp [unbounced, kept]

@[simp]
theorem unbounced_cons_of_ne {cmcptr : Chanmodechange} (bounced : cmcptr.bounced ≠ 0)
    (changes : List Chanmodechange) :
    unbounced (cmcptr :: changes) = unbounced changes := by
  simp [unbounced, bounced]

theorem unbounced_append (first second : List Chanmodechange) :
    unbounced (first ++ second) = unbounced first ++ unbounced second :=
  List.filter_append ..

section Lines

variable {n count : Nat} {uid : Bool}

/-- While a line has room, the loop runs alike on the list and on its unbounced changes. -/
theorem assembleLoop_unbounced (changes : List Chanmodechange) {st : Assembly}
    (room : st.i < count ∧ st.i < chanmodePerLine) :
    (assembleLoop n count uid (unbounced changes) st).1 =
        (assembleLoop n count uid changes st).1 ∧
      (assembleLoop n count uid (unbounced changes) st).2 =
        unbounced (assembleLoop n count uid changes st).2 := by
  induction changes generalizing st with
  | nil => simp [unbounced, assembleLoop]
  | cons cmcptr changes ih =>
      by_cases bounced : cmcptr.bounced = 0
      · rw [unbounced_cons_of_zero bounced, assembleLoop, assembleLoop,
          if_neg (not_not.mpr bounced), if_neg (not_not.mpr bounced)]
        by_cases overflows : st.Overflows n uid cmcptr
        · rw [if_pos overflows, if_pos overflows]
          exact ⟨rfl, (unbounced_cons_of_zero bounced changes).symm⟩
        · rw [if_neg overflows, if_neg overflows]
          by_cases more : (st.write uid cmcptr).i < count ∧
              (st.write uid cmcptr).i < chanmodePerLine
          · simp only [more, and_self, if_true]
            exact ih more
          · simp only [more, if_false, and_self]
      · rw [unbounced_cons_of_ne bounced, assembleLoop, if_pos bounced, if_pos room]
        exact ih room

theorem assembleLoop_length (changes : List Chanmodechange) (st : Assembly) :
    (assembleLoop n count uid changes st).2.length ≤ changes.length := by
  induction changes generalizing st with
  | nil => simp [assembleLoop]
  | cons cmcptr changes ih =>
      have later : ∀ st, (assembleLoop n count uid changes st).2.length ≤
          changes.length + 1 := fun st => Nat.le_succ_of_le (ih st)
      rw [assembleLoop, List.length_cons]
      dsimp only
      split_ifs <;> simp [later]

/-- What has been written stays in the buffer. -/
theorem assembleLoop_modebuf (changes : List Chanmodechange) {st : Assembly}
    (written : st.modebuf ≠ []) : (assembleLoop n count uid changes st).1.modebuf ≠ [] := by
  induction changes generalizing st with
  | nil => exact written
  | cons cmcptr changes ih =>
      have after : (st.write uid cmcptr).modebuf ≠ [] := by simp [Assembly.write]
      rw [assembleLoop]
      dsimp only
      split_ifs
      · exact ih written
      · exact written
      · exact written
      · exact ih after
      · exact after

/-- A line with something in it has taken a change from the list. -/
theorem chanmodeAssemble_length {changes : List Chanmodechange}
    (shown : (chanmodeAssemble n count uid changes).1.modebuf ≠ []) :
    (chanmodeAssemble n count uid changes).2.length < changes.length := by
  cases changes with
  | nil => exact absurd rfl shown
  | cons cmcptr changes =>
      have later : ∀ st, (assembleLoop n count uid changes st).2.length <
          changes.length + 1 := fun st => Nat.lt_succ_of_le (assembleLoop_length changes st)
      rw [chanmodeAssemble, assembleLoop] at shown ⊢
      dsimp only at shown ⊢
      rw [List.length_cons]
      split_ifs at shown ⊢
      · exact later _
      · simp
      · exact absurd rfl shown
      · exact later _
      · simp

/-- An empty line has left the unbounced changes where they were. -/
theorem chanmodeAssemble_silent {changes : List Chanmodechange} (positive : 0 < count)
    (silent : (chanmodeAssemble n count uid changes).1.modebuf = []) :
    unbounced (chanmodeAssemble n count uid changes).2 = unbounced changes := by
  have alike := @assembleLoop_unbounced n count uid changes Assembly.empty
    ⟨positive, by decide⟩
  rw [chanmodeAssemble] at silent ⊢
  rw [← alike.2]
  rw [← alike.1] at silent
  cases first : unbounced changes with
  | nil => rfl
  | cons cmcptr rest =>
      have kept : cmcptr.bounced = 0 := by
        have member : cmcptr ∈ unbounced changes := by simp [first]
        simpa [unbounced] using (List.mem_filter.mp member).2
      rw [first, assembleLoop, if_neg (not_not.mpr kept)] at silent
      rw [assembleLoop, if_neg (not_not.mpr kept)]
      by_cases overflows : Assembly.empty.Overflows n uid cmcptr
      · rw [if_pos overflows]
      · have after : (Assembly.empty.write uid cmcptr).modebuf ≠ [] := by
          simp [Assembly.write]
        rw [if_neg overflows] at silent
        dsimp only at silent
        split_ifs at silent
        · exact absurd silent (assembleLoop_modebuf rest after)
        · exact absurd silent after

theorem assembleLines_silent (positive : 0 < count) (turns : Nat)
    {changes : List Chanmodechange}
    (silent : (chanmodeAssemble n count uid changes).1.modebuf = []) :
    assembleLines n count uid turns changes = [] := by
  induction turns generalizing changes with
  | zero => rfl
  | succ turns ih =>
      cases changes with
      | nil => rfl
      | cons cmcptr changes =>
          have same := chanmodeAssemble_silent positive silent
          have room : Assembly.empty.i < count ∧ Assembly.empty.i < chanmodePerLine :=
            ⟨positive, by decide⟩
          have first := @assembleLoop_unbounced n count uid (cmcptr :: changes) _ room
          have again := @assembleLoop_unbounced n count uid
            (chanmodeAssemble n count uid (cmcptr :: changes)).2 _ room
          rw [assembleLines]
          dsimp only
          rw [if_pos silent]
          refine ih ?_
          rw [chanmodeAssemble, ← again.1, same, first.1]
          exact silent

/-- The lines depend on the unbounced changes alone. -/
theorem assembleLines_congr (positive : 0 < count) {turns turns' : Nat}
    {changes changes' : List Chanmodechange} (enough : changes.length ≤ turns)
    (enough' : changes'.length ≤ turns') (same : unbounced changes = unbounced changes') :
    assembleLines n count uid turns changes = assembleLines n count uid turns' changes' := by
  induction turns generalizing turns' changes changes' with
  | zero =>
      have empty : changes = [] := List.length_eq_zero_iff.mp (by omega)
      subst empty
      have silent : (chanmodeAssemble n count uid changes').1.modebuf = [] := by
        have alike := @assembleLoop_unbounced n count uid changes' Assembly.empty
          ⟨positive, by decide⟩
        rw [chanmodeAssemble, ← alike.1, ← same]
        rfl
      rw [assembleLines_silent positive turns' silent]
      rfl
  | succ turns ih =>
      have room : Assembly.empty.i < count ∧ Assembly.empty.i < chanmodePerLine :=
        ⟨positive, by decide⟩
      have first := @assembleLoop_unbounced n count uid changes _ room
      have first' := @assembleLoop_unbounced n count uid changes' _ room
      have sameLine : (chanmodeAssemble n count uid changes).1 =
          (chanmodeAssemble n count uid changes').1 := by
        rw [chanmodeAssemble, chanmodeAssemble, ← first.1, ← first'.1, same]
      have sameRest : unbounced (chanmodeAssemble n count uid changes).2 =
          unbounced (chanmodeAssemble n count uid changes').2 := by
        rw [chanmodeAssemble, chanmodeAssemble, ← first.2, ← first'.2, same]
      by_cases silent : (chanmodeAssemble n count uid changes).1.modebuf = []
      · rw [assembleLines_silent positive _ silent,
          assembleLines_silent positive _ (sameLine ▸ silent)]
      · have silent' : (chanmodeAssemble n count uid changes').1.modebuf ≠ [] :=
          sameLine ▸ silent
        have shorter := chanmodeAssemble_length silent
        have shorter' := chanmodeAssemble_length silent'
        obtain ⟨cmcptr, rest, rfl⟩ := List.exists_cons_of_length_pos
          (Nat.zero_lt_of_lt shorter)
        obtain ⟨cmcptr', rest', rfl⟩ := List.exists_cons_of_length_pos
          (Nat.zero_lt_of_lt shorter')
        obtain ⟨turns', rfl⟩ : ∃ before, turns' = before + 1 :=
          ⟨turns' - 1, by simp only [List.length_cons] at enough'; omega⟩
        rw [assembleLines, assembleLines]
        dsimp only
        rw [if_neg silent, if_neg silent', sameLine]
        congr 1
        exact ih (by omega) (by omega) sameRest

end Lines

theorem modeLines_congr (cmd : CString) {count : Nat} (positive : 0 < count) (uid : Bool)
    {changes changes' : List Chanmodechange}
    (same : unbounced changes = unbounced changes') :
    modeLines cmd count uid changes = modeLines cmd count uid changes' := by
  rw [modeLines, modeLines, assembleLines_congr positive le_rfl le_rfl same]

theorem chanmodeSendLocal_congr (cptr : Client) (chptr : Channel) {n : Nat}
    (positive : 0 < n) {changes changes' : List Chanmodechange}
    (same : unbounced changes = unbounced changes') :
    chanmodeSendLocal cptr chptr changes n = chanmodeSendLocal cptr chptr changes' n :=
  modeLines_congr _ positive _ same

theorem chanmodeSendRemote_congr (cptr : Client) (chptr : Channel)
    {changes changes' : List Chanmodechange}
    (same : unbounced changes = unbounced changes') :
    chanmodeSendRemote cptr chptr changes = chanmodeSendRemote cptr chptr changes' := by
  have positive : 0 < chanmodePerLine := by decide
  rw [chanmodeSendRemote, chanmodeSendRemote, modeLines_congr _ positive _ same,
    modeLines_congr _ positive _ same]

end Modes

end Chaosircd
