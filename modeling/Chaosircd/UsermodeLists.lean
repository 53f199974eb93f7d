import Chaosircd.TransitionSystem
import Chaosircd.Usermodes
import Mathlib.Data.List.Nodup
import Mathlib.Data.List.Pairwise

/-!
# The lists of the user modes

A user belongs on the list of a mode when it is in the scope of the list and has the mode
the way the list wants it.  The three places that fill the lists do not agree on this:
the registration of a mode puts everybody on a list of those that have the mode on, a
login puts the user on every list of those that have the mode off, neither of them looks
at the modes of the user, and a change with an argument moves the user between the lists
without turning the mode.  Where none of this makes a difference the lists are right.
-/

namespace Chaosircd

namespace Usermodes

/-! ## The policy of a list -/

/-- The list of the mode is kept for users at this place. -/
def InScope (location : Location) (umptr : Usermode) : Prop :=
  umptr.listType = .clientGlobal ∨ umptr.listType = location

instance (location : Location) (umptr : Usermode) : Decidable (InScope location umptr) :=
  inferInstanceAs (Decidable (_ ∨ _))

/-- The mode state of the user is what the list of the mode is kept for. -/
def Matches (uptr : User) (umptr : Usermode) : Prop :=
  match uptr.client with
  | none => False
  | some location =>
    InScope location umptr ∧ umptr.listMode = ListMode.of (isOn uptr.modes umptr)

instance (uptr : User) (umptr : Usermode) : Decidable (Matches uptr umptr) :=
  match uptr with
  | ⟨none, _⟩ => inferInstanceAs (Decidable False)
  | ⟨some _, _⟩ => inferInstanceAs (Decidable (_ ∧ _))

/-- The list holds what is wanted, and nothing twice. -/
structure Lists (wanted : Nat → Prop) (list : List Nat) : Prop where
  mem_iff : ∀ id, id ∈ list ↔ wanted id
  nodup : list.Nodup

namespace State

/-- The user is there and belongs on the list of the mode. -/
def Wanted (state : State) (umptr : Usermode) (id : Nat) : Prop :=
  id ∈ state.userList ∧ Matches (state.user id) umptr

/-- The list of each registered mode holds the users that match its policy, each once. -/
def ListsMatch (state : State) : Prop :=
  ∀ entry ∈ state.usermodeList, Lists (state.Wanted entry.mode) entry.list

end State

/-! ## The condition -/

/-- The mode has a list that users at this place can be on. -/
def Kept (location : Location) (umptr : Usermode) : Prop :=
  umptr.listMode ≠ .noList ∧ InScope location umptr

instance (location : Location) (umptr : Usermode) : Decidable (Kept location umptr) :=
  inferInstanceAs (Decidable (_ ∧ _))

/-- When a mode with a list is registered, the user has it on or is out of its scope; a user
without a client is left alone only by a list of those that have the mode off anywhere. -/
def RegisterFits (umptr : Usermode) (uptr : User) : Prop :=
  match uptr.client with
  | none => umptr.listType = .clientGlobal ∧ umptr.listMode = .off
  | some location => InScope location umptr → isOn uptr.modes umptr = true

instance (umptr : Usermode) (uptr : User) : Decidable (RegisterFits umptr uptr) :=
  match uptr with
  | ⟨none, _⟩ => inferInstanceAs (Decidable (_ ∧ _))
  | ⟨some _, _⟩ => inferInstanceAs (Decidable (_ → _))

/-- Among the changes that are applied, one with an argument for a mode with a list is for
the value that the user has, and the list is kept for the other value. -/
def ArgsFit (deny : Usermodechange → Bool) (location : Location) :
    BitVec 64 → List Usermodechange → Prop
  | _, [] => True
  | modes, umcptr :: changes =>
    if umcptr.denied deny then ArgsFit deny location modes changes
    else
      (umcptr.arg ≠ none → Kept location umcptr.mode →
        umcptr.mode.listMode ≠ ListMode.of umcptr.change ∧
          isOn modes umcptr.mode = umcptr.change) ∧
      ArgsFit deny location (umcptr.turn modes) changes

instance decidableArgsFit (deny : Usermodechange → Bool) (location : Location)
    (modes : BitVec 64) (changes : List Usermodechange) :
    Decidable (ArgsFit deny location modes changes) :=
  match changes with
  | [] => inferInstanceAs (Decidable True)
  | umcptr :: changes =>
    have := decidableArgsFit deny location modes changes
    have := decidableArgsFit deny location (umcptr.turn modes) changes
    inferInstanceAs (Decidable (if umcptr.denied deny = true
      then ArgsFit deny location modes changes
      else (umcptr.arg ≠ none → Kept location umcptr.mode →
          umcptr.mode.listMode ≠ ListMode.of umcptr.change ∧
            isOn modes umcptr.mode = umcptr.change) ∧
        ArgsFit deny location (umcptr.turn modes) changes))

/-- A user that logs in turns on no mode that has a list for it. -/
structure LoginFits (state : State) (location : Location) (arg : CString)
    (deny : Usermodechange → Bool) (ssl : Bool) : Prop where
  changes : ∀ umcptr ∈ usermodeParse state.usermodeTable 0 [arg],
    umcptr.arg = none → Kept location umcptr.mode → umcptr.denied deny = true
  ssl : ssl = true → ∀ entry ∈ state.usermodeList, Kept location entry.mode →
    isOn State.sslModes entry.mode = false

/-- The condition on an event, in the state it meets. -/
def Fits (state : State) : Event → Prop
  | .register umptr =>
    usermodeValid umptr.character = true → state.usermodeTable umptr.character = none →
      umptr.listMode ≠ .noList → ∀ id ∈ state.userList, RegisterFits umptr (state.user id)
  | .login id location arg deny ssl =>
    state.Pending id → LoginFits state location arg deny ssl
  | .umode id args deny =>
    state.LoggedIn id → ∀ location ∈ (state.user id).client,
      ArgsFit deny location (state.user id).modes
        (usermodeParse state.usermodeTable (state.user id).modes args)
  | .operUp id deny =>
    state.LoggedIn id → ∀ location ∈ (state.user id).client,
      ∀ umptr ∈ state.usermodeTable 'o',
        Usermodechange.denied ⟨umptr, true, none⟩ deny = false → Kept location umptr →
          umptr.listMode = .on → isOn (state.user id).modes umptr = false
  | .unregister _ | .userNew | .userDelete _ => True

instance (state : State) (location : Location) (arg : CString) (deny : Usermodechange → Bool)
    (ssl : Bool) : Decidable (LoginFits state location arg deny ssl) :=
  decidable_of_iff
    ((∀ umcptr ∈ usermodeParse state.usermodeTable 0 [arg],
      umcptr.arg = none → Kept location umcptr.mode → umcptr.denied deny = true) ∧
        (ssl = true → ∀ entry ∈ state.usermodeList, Kept location entry.mode →
          isOn State.sslModes entry.mode = false))
    ⟨fun fits => ⟨fits.1, fits.2⟩, fun fits => ⟨fits.changes, fits.ssl⟩⟩

instance (state : State) (event : Event) : Decidable (Fits state event) :=
  match event with
  | .register umptr => inferInstanceAs (Decidable (usermodeValid umptr.character = true →
      state.usermodeTable umptr.character = none → umptr.listMode ≠ .noList →
        ∀ id ∈ state.userList, RegisterFits umptr (state.user id)))
  | .login id location arg deny ssl =>
    inferInstanceAs (Decidable (state.Pending id → LoginFits state location arg deny ssl))
  | .umode id args deny =>
    inferInstanceAs (Decidable (state.LoggedIn id → ∀ location ∈ (state.user id).client,
      ArgsFit deny location (state.user id).modes
        (usermodeParse state.usermodeTable (state.user id).modes args)))
  | .operUp id deny =>
    inferInstanceAs (Decidable (state.LoggedIn id → ∀ location ∈ (state.user id).client,
      ∀ umptr ∈ state.usermodeTable 'o',
        Usermodechange.denied ⟨umptr, true, none⟩ deny = false → Kept location umptr →
          umptr.listMode = .on → isOn (state.user id).modes umptr = false))
  | .unregister _ => inferInstanceAs (Decidable True)
  | .userNew => inferInstanceAs (Decidable True)
  | .userDelete _ => inferInstanceAs (Decidable True)

/-! ## Lists of ids -/

variable {umptr : Usermode} {uptr : User} {location : Location} {umcptr : Usermodechange}

namespace Lists

variable {wanted wanted' : Nat → Prop} {list : List Nat} {id : Nat}

theorem congr (lists : Lists wanted list) (same : ∀ id, wanted' id ↔ wanted id) :
    Lists wanted' list :=
  ⟨fun id => (lists.mem_iff id).trans (same id).symm, lists.nodup⟩

/-- A user that was not wanted is wanted now. -/
theorem link (lists : Lists wanted list) (before : ¬ wanted id) (after : wanted' id)
    (others : ∀ other, other ≠ id → (wanted' other ↔ wanted other)) :
    Lists wanted' (list ++ [id]) := by
  have absent : id ∉ list := fun member => before ((lists.mem_iff id).mp member)
  constructor
  · intro other
    rw [List.mem_append, List.mem_singleton, lists.mem_iff]
    by_cases same : other = id
    · simp [same, after]
    · simp [same, others other same]
  · rw [List.nodup_append]
    refine ⟨lists.nodup, List.nodup_singleton id, ?_⟩
    intro old member new isNew same
    rw [List.mem_singleton.mp isNew] at same
    exact absent (same ▸ member)

/-- A user is not wanted any more. -/
theorem unlink (lists : Lists wanted list) (after : ¬ wanted' id)
    (others : ∀ other, other ≠ id → (wanted' other ↔ wanted other)) :
    Lists wanted' (list.erase id) := by
  refine ⟨?_, lists.nodup.erase id⟩
  intro other
  rw [lists.nodup.mem_erase_iff, lists.mem_iff]
  by_cases same : other = id
  · simp [same, after]
  · simp [same, others other same]

/-- A user is as little wanted as before. -/
theorem skip (lists : Lists wanted list) (before : ¬ wanted id) (after : ¬ wanted' id)
    (others : ∀ other, other ≠ id → (wanted' other ↔ wanted other)) :
    Lists wanted' list := by
  apply lists.congr
  intro other
  by_cases same : other = id
  · rw [same]
    exact iff_of_false after before
  · exact others other same

end Lists

/-! ## The test for a link -/

theorem ListMode.of_inj {change other : Bool} :
    ListMode.of change = ListMode.of other ↔ change = other := by
  cases change <;> cases other <;> decide

theorem ListMode.of_ne_noList (change : Bool) : ListMode.of change ≠ .noList := by
  cases change <;> decide

theorem matches_iff (client : uptr.client = some location) :
    Matches uptr umptr ↔
      InScope location umptr ∧ umptr.listMode = ListMode.of (isOn uptr.modes umptr) := by
  rw [Matches, client]

theorem not_matches_of_none (client : uptr.client = none) : ¬ Matches uptr umptr := by
  rw [Matches, client]
  exact id

/-- A user is only on lists that are kept for it. -/
theorem Matches.kept (holds : Matches uptr umptr) (client : uptr.client = some location) :
    Kept location umptr := by
  obtain ⟨scope, policy⟩ := (matches_iff client).mp holds
  exact ⟨policy ▸ ListMode.of_ne_noList _, scope⟩

/-- The answer for a user that has a client. -/
theorem usermodeLinkTest_eq (client : uptr.client = some location) (change : Bool) :
    usermodeLinkTest uptr umptr change =
      some (if Kept location umptr then
        if umptr.listMode = ListMode.of change then 1 else -1 else 0) := by
  rw [usermodeLinkTest, client]
  by_cases none : umptr.listMode = .noList
  · simp [none, Kept]
  · by_cases everybody : umptr.listType = .clientGlobal
    · simp [none, everybody, Kept, InScope]
    · by_cases here : umptr.listType = location
      · simp [none, here, Kept, InScope]
      · simp [none, everybody, here, Kept, InScope]

/-! ## What is parsed -/

/-- What `usermode_parse` has made: changes of registered modes; those without argument turn
a mode, each another one. -/
structure Parsed (table : Char → Option Usermode) (modes : BitVec 64)
    (changes : List Usermodechange) : Prop where
  known : ∀ umcptr ∈ changes, table umcptr.mode.character = some umcptr.mode
  turns : ∀ umcptr ∈ changes, umcptr.arg = none → isOn modes umcptr.mode ≠ umcptr.change
  apart : changes.Pairwise fun umcptr other =>
    umcptr.arg = none → other.arg = none → umcptr.mode.character ≠ other.mode.character

section Parsing

variable {table : Char → Option Usermode} {modes : BitVec 64}
  {changes : List Usermodechange}

/-- No other change of the mode without argument is left beside a new one. -/
theorem apart_of_mem_eraseP {other : Usermodechange}
    (apart : changes.Pairwise fun umcptr other =>
      umcptr.arg = none → other.arg = none → umcptr.mode.character ≠ other.mode.character)
    (member : other ∈ changes.eraseP (sameChange umcptr)) (bare : other.arg = none)
    (bare' : umcptr.arg = none) : other.mode.character ≠ umcptr.mode.character := by
  induction changes with
  | nil => simp at member
  | cons first changes induction =>
      rw [List.pairwise_cons] at apart
      by_cases same : sameChange umcptr first = true
      · rw [List.eraseP_cons_of_pos same] at member
        have letters : umcptr.mode.character = first.mode.character := by
          rw [sameChange, Bool.and_eq_true, decide_eq_true_eq] at same
          exact same.1
        have bareFirst : first.arg = none := by
          cases arg : first.arg with
          | none => rfl
          | some arg' => simp [sameChange, bare', arg] at same
        rw [letters]
        exact Ne.symm (apart.1 other member bareFirst bare)
      · rw [List.eraseP_cons_of_neg same, List.mem_cons] at member
        cases member with
        | inl isFirst =>
            intro letters
            apply same
            simp [sameChange, bare', ← isFirst, bare, letters]
        | inr later => exact induction apart.2 later

theorem Parsed.changeAdd (parsed : Parsed table modes changes)
    (known : table umcptr.mode.character = some umcptr.mode)
    (turns : umcptr.arg = none → isOn modes umcptr.mode ≠ umcptr.change) :
    Parsed table modes (usermodeChangeAdd changes umcptr) := by
  have old : ∀ other ∈ changes.eraseP (sameChange umcptr), other ∈ changes :=
    fun _ => List.mem_of_mem_eraseP
  refine ⟨?_, ?_, ?_⟩
  · intro other member
    cases List.mem_append.mp member with
    | inl before => exact parsed.known other (old other before)
    | inr isNew => exact List.mem_singleton.mp isNew ▸ known
  · intro other member
    cases List.mem_append.mp member with
    | inl before => exact parsed.turns other (old other before)
    | inr isNew => exact List.mem_singleton.mp isNew ▸ turns
  · rw [usermodeChangeAdd, List.pairwise_append]
    refine ⟨parsed.apart.sublist List.eraseP_sublist, List.pairwise_singleton _ _, ?_⟩
    intro other member new isNew bare bare'
    rw [List.mem_singleton.mp isNew] at bare' ⊢
    exact apart_of_mem_eraseP parsed.apart member bare bare'

theorem Parsed.add {parse : Parse} (parsed : Parsed table modes parse.changes)
    (known : table umptr.character = some umptr) :
    Parsed table modes (parse.add modes umptr).changes := by
  rw [Parse.add]
  split
  · exact parsed
  · rename_i differ
    exact parsed.changeAdd known fun _ => differ

variable (letters : ∀ c umptr, table c = some umptr → umptr.character = c)
include letters

theorem Parsed.parseChar {parse : Parse} (parsed : Parsed table modes parse.changes)
    (rest : List CString) (c : Char) :
    Parsed table modes (parseChar table modes rest parse c).changes := by
  rw [Usermodes.parseChar]
  split
  · exact parsed
  · split
    · exact parsed
    · split
      · exact parsed
      · cases found : table c with
        | none => exact parsed
        | some umptr =>
            have known : table umptr.character = some umptr := letters c umptr found ▸ found
            dsimp only
            split
            · exact parsed.add known
            · cases rest[parse.skip]? with
              | some changearg =>
                  exact parsed.changeAdd known fun bare => by simp at bare
              | none =>
                  dsimp only
                  split
                  · exact parsed
                  · exact parsed.add known

theorem Parsed.parseWord {parse : Parse} (parsed : Parsed table modes parse.changes)
    (rest : List CString) (word : CString) :
    Parsed table modes (word.foldl (Usermodes.parseChar table modes rest) parse).changes := by
  induction word generalizing parse with
  | nil => exact parsed
  | cons c word induction => exact induction (parsed.parseChar letters rest c)

theorem Parsed.parseArgs {parse : Parse} (parsed : Parsed table modes parse.changes)
    (args : List CString) : Parsed table modes (parseArgs table modes args parse).changes := by
  induction args generalizing parse with
  | nil => exact parsed
  | cons arg rest induction =>
      rw [Usermodes.parseArgs]
      split
      · exact induction parsed
      · exact induction (parsed.parseWord letters rest arg)

theorem parsed_usermodeParse (args : List CString) :
    Parsed table modes (usermodeParse table modes args) :=
  Parsed.parseArgs letters ⟨by simp, by simp, List.Pairwise.nil⟩ args

end Parsing

/-! ## The invariant -/

/-- The lists match, letters and users are distinct, and a user without a client has no
modes. -/
structure Inv (state : State) : Prop where
  lists : state.ListsMatch
  valid : ∀ entry ∈ state.usermodeList, usermodeValid entry.mode.character = true
  letters : state.usermodeList.Pairwise fun entry other =>
    entry.mode.character ≠ other.mode.character
  users : state.userList.Nodup
  fresh : ∀ id ∈ state.userList, id < state.userId
  pending : ∀ id, state.Pending id → (state.user id).modes = 0

variable {state : State} {entry : Registered} {id : Nat} {deny : Usermodechange → Bool}
  {changes : List Usermodechange}

theorem inv_empty : Inv State.empty :=
  ⟨by simp [State.ListsMatch, State.empty], by simp [State.empty], List.Pairwise.nil,
    List.nodup_nil, by simp [State.empty], fun _ _ => rfl⟩

theorem character_of_usermodeTable {c : Char} (found : state.usermodeTable c = some umptr) :
    umptr.character = c := by
  obtain ⟨entry, first, rfl⟩ := Option.map_eq_some_iff.mp found
  have letter := List.find?_some first
  exact of_decide_eq_true letter

theorem exists_of_usermodeTable {c : Char} (found : state.usermodeTable c = some umptr) :
    ∃ entry ∈ state.usermodeList, entry.mode = umptr := by
  obtain ⟨entry, found, same⟩ := Option.map_eq_some_iff.mp found
  exact ⟨entry, List.mem_of_find?_eq_some found, same⟩

theorem character_ne_of_usermodeTable {c : Char} (absent : state.usermodeTable c = none)
    (member : entry ∈ state.usermodeList) : entry.mode.character ≠ c := by
  have none := List.find?_eq_none.mp (Option.map_eq_none_iff.mp absent) entry member
  exact of_decide_eq_false (Bool.eq_false_iff.mpr none)

/-- A letter has one mode. -/
theorem Inv.mode_eq (inv : Inv state) (member : entry ∈ state.usermodeList) {c : Char}
    (found : state.usermodeTable c = some umptr) (same : entry.mode.character = c) :
    entry.mode = umptr := by
  obtain ⟨other, member', rfl⟩ := exists_of_usermodeTable found
  have letter := character_of_usermodeTable found
  by_contra differ
  have apart : entry ≠ other := fun equal => differ (congrArg Registered.mode equal)
  have symmetric : Std.Symm fun entry other : Registered =>
      entry.mode.character ≠ other.mode.character := ⟨fun _ _ => Ne.symm⟩
  exact inv.letters.forall member member' apart (same.trans letter.symm)

theorem Inv.valid_of_usermodeTable (inv : Inv state) {c : Char}
    (found : state.usermodeTable c = some umptr) :
    usermodeValid umptr.character = true := by
  obtain ⟨entry, member, rfl⟩ := exists_of_usermodeTable found
  exact inv.valid entry member

/-! ## Changes -/

/-- What the changes do to the modes of the user. -/
def turnAll (deny : Usermodechange → Bool) (modes : BitVec 64)
    (changes : List Usermodechange) : BitVec 64 :=
  changes.foldl (fun modes umcptr => if umcptr.denied deny then modes else umcptr.turn modes) modes

/-- The change that `usermode_apply` is about to make for a mode with a list turns the mode,
unless it is for the value that the user has and the list is kept for the other one. -/
def ChangeFits (location : Location) (modes : BitVec 64) (umcptr : Usermodechange) : Prop :=
  Kept location umcptr.mode →
    if umcptr.arg = none then
      umcptr.mode.listMode = ListMode.of umcptr.change → isOn modes umcptr.mode ≠ umcptr.change
    else
      umcptr.mode.listMode ≠ ListMode.of umcptr.change ∧ isOn modes umcptr.mode = umcptr.change

/-- The modes have been changed for one user, and the lists of one mode. -/
structure Changed (state next : State) (id : Nat) (modes : BitVec 64) : Prop where
  registered : next.usermodeList.map Registered.mode = state.usermodeList.map Registered.mode
  userList : next.userList = state.userList
  user : next.user = Function.update state.user id { state.user id with modes := modes }
  userId : next.userId = state.userId

theorem Changed.usermodeTable {next : State} {modes : BitVec 64}
    (changed : Changed state next id modes) : next.usermodeTable = state.usermodeTable := by
  have table : ∀ state : State, ∀ c, state.usermodeTable c =
      (state.usermodeList.map Registered.mode).find? fun umptr => umptr.character = c := by
    intro state c
    rw [State.usermodeTable, List.find?_map]
    rfl
  funext c
  rw [table, table, changed.registered]

/-- A new list for each mode. -/
theorem Inv.of_map (inv : Inv state) {next : State} {f : Registered → Registered}
    (mode : ∀ entry, (f entry).mode = entry.mode)
    (entries : next.usermodeList = state.usermodeList.map f)
    (lists : ∀ entry ∈ state.usermodeList, Lists (next.Wanted entry.mode) (f entry).list)
    (users : next.userList.Nodup) (fresh : ∀ id ∈ next.userList, id < next.userId)
    (pending : ∀ id, next.Pending id → (next.user id).modes = 0) : Inv next := by
  refine ⟨?_, ?_, ?_, users, fresh, pending⟩
  · intro entry member
    rw [entries] at member
    obtain ⟨old, isOld, rfl⟩ := List.mem_map.mp member
    rw [mode]
    exact lists old isOld
  · intro entry member
    rw [entries] at member
    obtain ⟨old, isOld, rfl⟩ := List.mem_map.mp member
    rw [mode]
    exact inv.valid old isOld
  · rw [entries, List.pairwise_map]
    simp only [mode]
    exact inv.letters

theorem wanted_setModes_of_ne {modes : BitVec 64} {other : Nat} (differ : other ≠ id) :
    (state.setModes id modes).Wanted umptr other ↔ state.Wanted umptr other := by
  rw [State.Wanted, State.Wanted, State.setModes_user_of_ne differ]
  exact Iff.rfl

/-- Whether a user with a client belongs on a list after its modes have been set. -/
theorem wanted_setModes_self {modes : BitVec 64} (here : id ∈ state.userList)
    (client : (state.user id).client = some location) :
    (state.setModes id modes).Wanted umptr id ↔
      InScope location umptr ∧ umptr.listMode = ListMode.of (isOn modes umptr) := by
  rw [State.Wanted, State.setModes_user_self, client]
  exact and_iff_right here

theorem wanted_iff (here : id ∈ state.userList)
    (client : (state.user id).client = some location) :
    state.Wanted umptr id ↔
      InScope location umptr ∧ umptr.listMode = ListMode.of (isOn (state.user id).modes umptr) := by
  rw [State.Wanted, matches_iff client]
  exact and_iff_right here

theorem Inv.pending_setModes (inv : Inv state) {modes : BitVec 64}
    (client : (state.user id).client = some location) (other : Nat)
    (pending : (state.setModes id modes).Pending other) :
    ((state.setModes id modes).user other).modes = 0 := by
  by_cases same : other = id
  · subst same
    have none := pending.2
    rw [State.setModes_user_self] at none
    exact absurd (client.symm.trans none) (by simp)
  · rw [State.Pending, State.setModes_user_of_ne same] at pending
    rw [State.setModes_user_of_ne same]
    exact inv.pending other pending

/-- A change turns the mode of the user; what it does to the list of this mode is to be
right, and the lists of the other modes stay right. -/
theorem Inv.changeList (inv : Inv state) (here : id ∈ state.userList)
    (client : (state.user id).client = some location)
    (known : state.usermodeTable umcptr.mode.character = some umcptr.mode)
    {f : Registered → Registered} (mode : ∀ entry, (f entry).mode = entry.mode)
    (own : ∀ entry ∈ state.usermodeList, entry.mode = umcptr.mode →
      Lists ((state.setModes id (umcptr.turn (state.user id).modes)).Wanted umcptr.mode)
        (f entry).list) :
    Inv ((state.setModes id (umcptr.turn (state.user id).modes)).changeList umcptr.mode f) ∧
      Changed state
        ((state.setModes id (umcptr.turn (state.user id).modes)).changeList umcptr.mode f) id
        (umcptr.turn (state.user id).modes) := by
  have valid := inv.valid_of_usermodeTable known
  have modeIf : ∀ entry : Registered, (if entry.mode.character = umcptr.mode.character
      then f entry else entry).mode = entry.mode := by
    intro entry
    split
    · exact mode entry
    · rfl
  constructor
  · refine inv.of_map modeIf rfl ?_ inv.users inv.fresh (inv.pending_setModes client)
    intro entry member
    split
    · rename_i same
      have modes := inv.mode_eq member known same
      rw [modes]
      exact own entry member modes
    · rename_i differ
      apply (inv.lists entry member).congr
      intro other
      by_cases same : other = id
      · rw [same, wanted_iff here client]
        refine (wanted_setModes_self here client).trans ?_
        rw [isOn_turn_of_ne valid (inv.valid entry member) differ]
      · have outside : (state.setModes id (umcptr.turn (state.user id).modes)).Wanted
            entry.mode other ↔ state.Wanted entry.mode other := wanted_setModes_of_ne same
        exact outside
  · refine ⟨?_, rfl, rfl, rfl⟩
    rw [State.changeList, State.setModes, List.map_map]
    exact List.map_congr_left fun entry _ => modeIf entry

/-- The loop of `usermode_apply` deals with one change. -/
theorem Inv.applyChange (inv : Inv state) (here : id ∈ state.userList)
    (client : (state.user id).client = some location)
    (known : state.usermodeTable umcptr.mode.character = some umcptr.mode)
    (fits : umcptr.denied deny = false → ChangeFits location (state.user id).modes umcptr) :
    ∃ next, State.applyChange deny false id state umcptr = some next ∧ Inv next ∧
      Changed state next id (turnAll deny (state.user id).modes [umcptr]) := by
  rw [State.applyChange, turnAll, List.foldl_cons, List.foldl_nil]
  split
  · exact ⟨state, rfl, inv, ⟨rfl, rfl, (Function.update_eq_self id state.user).symm, rfl⟩⟩
  · rename_i allowed
    have fits := fits (Bool.eq_false_iff.mpr allowed)
    have client' : ((state.setModes id (umcptr.turn (state.user id).modes)).user id).client =
        some location := by
      rw [State.setModes_user_self]
      exact client
    have finish := fun f mode own => inv.changeList here client known (f := f) mode own
    rw [if_neg Bool.false_ne_true, usermodeLinkTest_eq client', Option.bind_eq_bind,
      Option.bind_some]
    by_cases kept : Kept location umcptr.mode
    · have fits := fits kept
      have turned : isOn (umcptr.turn (state.user id).modes) umcptr.mode = umcptr.change := by
        by_cases bare : umcptr.arg = none
        · exact isOn_turn (inv.valid_of_usermodeTable known) bare
        · rw [if_neg bare] at fits
          rw [turn_of_arg bare]
          exact fits.2
      rw [if_pos kept]
      by_cases policy : umcptr.mode.listMode = ListMode.of umcptr.change
      · rw [if_pos policy, if_pos (by decide)]
        refine ⟨_, rfl, finish (fun entry => entry.link id) (fun _ => rfl) ?_⟩
        intro entry member same
        have lists := inv.lists entry member
        rw [same] at lists
        apply lists.link _ _ fun other => wanted_setModes_of_ne
        · rw [wanted_iff here client, policy, ListMode.of_inj]
          split at fits
          · exact fun wanted => fits policy wanted.2.symm
          · exact absurd policy fits.1
        · rw [wanted_setModes_self here client, turned]
          exact ⟨kept.2, policy⟩
      · rw [if_neg policy, if_neg (by decide), if_pos (by decide)]
        refine ⟨_, rfl, finish (fun entry => entry.unlink id) (fun _ => rfl) ?_⟩
        intro entry member same
        have lists := inv.lists entry member
        rw [same] at lists
        apply lists.unlink _ fun other => wanted_setModes_of_ne
        rw [wanted_setModes_self here client, turned]
        exact fun wanted => policy wanted.2
    · rw [if_neg kept, if_neg (by decide), if_neg (by decide)]
      have outside : ∀ modes, ¬ (InScope location umcptr.mode ∧
          umcptr.mode.listMode = ListMode.of (isOn modes umcptr.mode)) :=
        fun modes wanted => kept ⟨wanted.2 ▸ ListMode.of_ne_noList _, wanted.1⟩
      refine ⟨_, rfl, ?_⟩
      rw [← State.changeList_self (state.setModes _ _) umcptr.mode]
      refine finish (fun entry => entry) (fun _ => rfl) ?_
      intro entry member same
      have lists := inv.lists entry member
      rw [same] at lists
      apply lists.skip _ _ fun other => wanted_setModes_of_ne
      · rw [wanted_iff here client]
        exact outside _
      · rw [wanted_setModes_self here client]
        exact outside _

/-- Each change fits when its turn comes. -/
def ChangesFit (deny : Usermodechange → Bool) (location : Location) :
    BitVec 64 → List Usermodechange → Prop
  | _, [] => True
  | modes, umcptr :: changes =>
    (umcptr.denied deny = false → ChangeFits location modes umcptr) ∧
      ChangesFit deny location (turnAll deny modes [umcptr]) changes

theorem Changed.trans {middle next : State} {modes modes' : BitVec 64}
    (first : Changed state middle id modes) (second : Changed middle next id modes') :
    Changed state next id modes' := by
  refine ⟨second.registered.trans first.registered, second.userList.trans first.userList, ?_,
    second.userId.trans first.userId⟩
  rw [second.user, first.user, Function.update_idem, Function.update_self]

theorem Inv.usermodeApply (inv : Inv state) (here : id ∈ state.userList)
    (client : (state.user id).client = some location)
    (known : ∀ umcptr ∈ changes,
      state.usermodeTable umcptr.mode.character = some umcptr.mode)
    (fits : ChangesFit deny location (state.user id).modes changes) :
    ∃ next, state.usermodeApply id deny false changes = some next ∧ Inv next := by
  induction changes generalizing state with
  | nil => exact ⟨state, rfl, inv⟩
  | cons umcptr changes induction =>
      rw [List.forall_mem_cons] at known
      obtain ⟨middle, applied, inv', changed⟩ := inv.applyChange here client known.1 fits.1
      have user : middle.user id =
          ⟨(state.user id).client, turnAll deny (state.user id).modes [umcptr]⟩ := by
        rw [changed.user, Function.update_self]
      rw [State.usermodeApply, List.foldlM_cons, applied]
      apply induction inv'
      · rw [changed.userList]
        exact here
      · rw [user]
        exact client
      · rw [changed.usermodeTable]
        exact known.2
      · rw [user]
        exact fits.2

/-- What has been parsed fits as far as its arguments do. -/
theorem Parsed.changesFit {table : Char → Option Usermode} {modes : BitVec 64}
    (parsed : Parsed table modes changes)
    (valid : ∀ c umptr, table c = some umptr → usermodeValid umptr.character = true)
    (fits : ArgsFit deny location modes changes) : ChangesFit deny location modes changes := by
  induction changes generalizing modes with
  | nil => trivial
  | cons umcptr changes induction =>
      have known := List.forall_mem_cons.mp parsed.known
      have turns := List.forall_mem_cons.mp parsed.turns
      have apart := List.pairwise_cons.mp parsed.apart
      have later : Parsed table (turnAll deny modes [umcptr]) changes := by
        refine ⟨known.2, ?_, apart.2⟩
        intro other member bare
        rw [turnAll, List.foldl_cons, List.foldl_nil]
        split
        · exact turns.2 other member bare
        · by_cases bare' : umcptr.arg = none
          · rw [isOn_turn_of_ne (valid _ _ known.1) (valid _ _ (known.2 other member))
              (Ne.symm (apart.1 other member bare' bare))]
            exact turns.2 other member bare
          · rw [turn_of_arg bare']
            exact turns.2 other member bare
      rw [ArgsFit] at fits
      constructor
      · intro allowed kept
        rw [if_neg (by simp [allowed])] at fits
        split
        · rename_i bare
          exact fun _ => turns.1 bare
        · rename_i given
          exact fits.1 given kept
      · apply induction later
        rw [turnAll, List.foldl_cons, List.foldl_nil]
        split at fits
        · rename_i denied
          rw [if_pos denied]
          exact fits
        · rename_i allowed
          rw [if_neg allowed]
          exact fits.2

/-! ## Registrations and logins -/

/-- Where no user without a client is asked for its place, the loop finishes. -/
theorem foldlM_linkUser {users : List Nat} (tested : ∀ id ∈ users,
      ∃ link, usermodeLinkTest (state.user id) umptr true = some link) (list : List Nat) :
    users.foldlM (state.linkUser umptr) list = some (list ++ users.filter fun id =>
      decide (0 < (usermodeLinkTest (state.user id) umptr true).getD 0)) := by
  induction users generalizing list with
  | nil => simp
  | cons id users induction =>
      rw [List.forall_mem_cons] at tested
      obtain ⟨⟨link, answer⟩, others⟩ := tested
      rw [List.foldlM_cons, State.linkUser, answer]
      simp only [Option.bind_eq_bind, Option.bind_some]
      rw [induction others]
      by_cases positive : 0 < link
      · simp [positive, answer]
      · simp [positive, answer]

theorem Inv.usermodeRegister (inv : Inv state) (fits : Fits state (.register umptr)) :
    ∃ next, state.usermodeRegister umptr = some next ∧ Inv next := by
  rw [State.usermodeRegister]
  split
  · exact ⟨state, rfl, inv⟩
  · rename_i accepted
    rw [not_or, Bool.not_eq_true', Bool.not_eq_false, ne_eq, not_not] at accepted
    obtain ⟨valid, absent⟩ := accepted
    have tested : ∀ id ∈ state.userList, ∃ link,
        usermodeLinkTest (state.user id) umptr true = some link ∧
          (0 < link ↔ Matches (state.user id) umptr) := by
      intro id here
      cases client : (state.user id).client with
      | some location =>
          rw [usermodeLinkTest_eq client, matches_iff client]
          refine ⟨_, rfl, ?_⟩
          by_cases kept : Kept location umptr
          · have known := fits valid absent kept.1 id here
            rw [RegisterFits, client] at known
            rw [if_pos kept, known kept.2]
            split <;> simp [*, kept.2]
          · rw [if_neg kept]
            refine iff_of_false (by decide) fun wanted => kept ?_
            exact ⟨wanted.2 ▸ ListMode.of_ne_noList _, wanted.1⟩
      | none =>
          by_cases nobody : umptr.listMode = .noList
          · refine ⟨0, by simp [usermodeLinkTest, nobody], ?_⟩
            exact iff_of_false (by decide) (not_matches_of_none client)
          · have known := fits valid absent nobody id here
            rw [RegisterFits, client] at known
            refine ⟨-1, by simp [usermodeLinkTest, known.1, known.2, ListMode.of], ?_⟩
            exact iff_of_false (by decide) (not_matches_of_none client)
    rw [State.usermodeLinkallMode,
      foldlM_linkUser fun id here => (tested id here).imp fun _ => And.left, List.nil_append]
    refine ⟨_, rfl, ?_, ?_, ?_, inv.users, inv.fresh, inv.pending⟩
    · intro entry member
      cases List.mem_append.mp member with
      | inl old => exact inv.lists entry old
      | inr isNew =>
          rw [List.mem_singleton.mp isNew]
          refine ⟨?_, inv.users.filter _⟩
          intro id
          refine List.mem_filter.trans (and_congr_right fun here => ?_)
          rw [decide_eq_true_eq]
          obtain ⟨link, answer, positive⟩ := tested id here
          rw [answer]
          exact positive
    · intro entry member
      cases List.mem_append.mp member with
      | inl old => exact inv.valid entry old
      | inr isNew => rw [List.mem_singleton.mp isNew]; exact valid
    · rw [List.pairwise_append]
      refine ⟨inv.letters, List.pairwise_singleton _ _, ?_⟩
      intro entry member other isNew
      rw [List.mem_singleton.mp isNew]
      exact character_ne_of_usermodeTable absent member

/-- At a login the changes only touch the modes of the user. -/
theorem usermodeApply_linkall (deny : Usermodechange → Bool) (changes : List Usermodechange) :
    state.usermodeApply id deny true changes =
      some (state.setModes id (turnAll deny (state.user id).modes changes)) := by
  induction changes generalizing state with
  | nil => simp [State.usermodeApply, turnAll, State.setModes]
  | cons umcptr changes induction =>
      rw [State.usermodeApply, List.foldlM_cons, State.applyChange, turnAll, List.foldl_cons]
      split
      · exact induction
      · refine induction.trans ?_
        rw [State.setModes_user_self]
        simp [State.setModes, turnAll]

/-- `usermode_linkall_user` for a user that has a client. -/
theorem usermodeLinkallUser_eq (client : (state.user id).client = some location) :
    state.usermodeLinkallUser id = some { state with
      usermodeList := state.usermodeList.map fun entry =>
        if Kept location entry.mode ∧ entry.mode.listMode = .off then entry.link id
        else entry } := by
  have tests : (fun entry : Registered => do
      let link ← usermodeLinkTest (state.user id) entry.mode false
      some (if 0 < link then entry.link id else entry)) =
      fun entry => pure (if Kept location entry.mode ∧ entry.mode.listMode = .off
        then entry.link id else entry) := by
    funext entry
    rw [usermodeLinkTest_eq client]
    by_cases kept : Kept location entry.mode
    · by_cases policy : entry.mode.listMode = .off
      · simp [kept, policy, ListMode.of]
      · simp [kept, policy, ListMode.of]
    · simp [kept]
  rw [State.usermodeLinkallUser, tests, List.mapM_pure]
  rfl

/-- A mode that no change turns is left as it is. -/
theorem isOn_turnAll (valid : usermodeValid umptr.character = true)
    (known : ∀ umcptr ∈ changes, usermodeValid umcptr.mode.character = true)
    (denied : ∀ umcptr ∈ changes, umcptr.mode.character = umptr.character →
      umcptr.arg = none → umcptr.denied deny = true) (modes : BitVec 64) :
    isOn (turnAll deny modes changes) umptr = isOn modes umptr := by
  induction changes generalizing modes with
  | nil => rfl
  | cons umcptr changes induction =>
      rw [List.forall_mem_cons] at known denied
      rw [turnAll, List.foldl_cons]
      refine (induction known.2 denied.2 _).trans ?_
      split
      · rfl
      · rename_i allowed
        by_cases same : umcptr.mode.character = umptr.character
        · have given : umcptr.arg ≠ none := fun bare => allowed (denied.1 same bare)
          rw [turn_of_arg given]
        · exact isOn_turn_of_ne known.1 valid (Ne.symm same)

theorem Inv.parsed (inv : Inv state) (modes : BitVec 64) (args : List CString) :
    Parsed state.usermodeTable modes (usermodeParse state.usermodeTable modes args) ∧
      ∀ umcptr ∈ usermodeParse state.usermodeTable modes args,
        usermodeValid umcptr.mode.character = true := by
  have parsed : Parsed state.usermodeTable modes (usermodeParse state.usermodeTable modes args) :=
    parsed_usermodeParse (fun _ _ => character_of_usermodeTable) args
  exact ⟨parsed, fun umcptr member => inv.valid_of_usermodeTable (parsed.known umcptr member)⟩

/-- The state after a login that leaves the user with these modes. -/
def entered (state : State) (id : Nat) (location : Location) (modes : BitVec 64) : State :=
  { state with
    usermodeList := state.usermodeList.map fun entry =>
      if Kept location entry.mode ∧ entry.mode.listMode = .off then entry.link id else entry
    user := Function.update state.user id ⟨some location, modes⟩ }

/-- The modes that a login leaves the user with. -/
def loginModes (table : Char → Option Usermode) (arg : CString)
    (deny : Usermodechange → Bool) (ssl : Bool) : BitVec 64 :=
  let modes := turnAll deny 0 (usermodeParse table 0 [arg])
  if ssl then modes ||| State.sslModes else modes

theorem login_eq (zero : (state.user id).modes = 0) (arg : CString) (ssl : Bool) :
    state.login id location arg deny ssl =
      some (entered state id location (loginModes state.usermodeTable arg deny ssl)) := by
  have table : (state.setClient id location).usermodeTable = state.usermodeTable := rfl
  have client : ∀ modes, (((state.setClient id location).setModes id modes).user id).client =
      some location := by simp
  rw [State.login, State.usermodeMake, usermodeApply_linkall, table, State.setClient_user_self,
    zero, Option.bind_eq_bind, Option.bind_some, if_pos rfl,
    usermodeLinkallUser_eq (client _), Option.bind_some, entered, loginModes]
  cases ssl with
  | false => simp [State.setModes, State.setClient]
  | true => simp [State.setModes, State.setClient]

theorem Inv.login (inv : Inv state) {arg : CString} {ssl : Bool} (pending : state.Pending id)
    (fits : LoginFits state location arg deny ssl) :
    ∃ next, state.login id location arg deny ssl = some next ∧ Inv next := by
  have zero := inv.pending id pending
  refine ⟨_, login_eq zero arg ssl, ?_⟩
  obtain ⟨parsed, valid⟩ := inv.parsed 0 [arg]
  -- no mode with a list for the user is on
  have off : ∀ entry ∈ state.usermodeList, Kept location entry.mode →
      isOn (loginModes state.usermodeTable arg deny ssl) entry.mode = false := by
    intro entry member kept
    have unturned : isOn (turnAll deny 0 (usermodeParse state.usermodeTable 0 [arg]))
        entry.mode = false := by
      rw [isOn_turnAll (inv.valid entry member) valid, isOn_zero]
      intro umcptr parse same bare
      have modes := inv.mode_eq member (parsed.known umcptr parse) same.symm
      exact fits.changes umcptr parse bare (modes ▸ kept)
    cases ssl with
    | false => exact unturned
    | true =>
        rw [loginModes, if_pos rfl, isOn_or (inv.valid entry member), unturned,
          fits.ssl rfl entry member kept]
        rfl
  generalize loginModes state.usermodeTable arg deny ssl = modes at off
  have others : ∀ umptr other, other ≠ id →
      ((entered state id location modes).Wanted umptr other ↔ state.Wanted umptr other) := by
    intro umptr other differ
    rw [State.Wanted, State.Wanted, entered]
    simp [Function.update_of_ne differ]
  have before : ∀ umptr, ¬ state.Wanted umptr id :=
    fun umptr wanted => not_matches_of_none pending.2 wanted.2
  have after : ∀ umptr, (entered state id location modes).Wanted umptr id ↔
      InScope location umptr ∧ umptr.listMode = ListMode.of (isOn modes umptr) := by
    intro umptr
    rw [State.Wanted, entered]
    simp [pending.1, Matches]
  refine inv.of_map (fun entry => ?_) rfl ?_ inv.users inv.fresh ?_
  · split <;> rfl
  · intro entry member
    have lists := inv.lists entry member
    split
    · rename_i linked
      apply lists.link (before _) _ (others _)
      rw [after, off entry member linked.1]
      exact ⟨linked.1.2, linked.2⟩
    · rename_i unlinked
      apply lists.skip (before _) _ (others _)
      rw [after]
      rintro ⟨scope, policy⟩
      have kept : Kept location entry.mode := ⟨policy ▸ ListMode.of_ne_noList _, scope⟩
      rw [off entry member kept] at policy
      exact unlinked ⟨kept, policy⟩
  · intro other isPending
    by_cases same : other = id
    · rw [State.Pending, entered, same] at isPending
      simp at isPending
    · have old : state.Pending other := by
        rw [State.Pending, entered] at isPending
        simpa [State.Pending, Function.update_of_ne same] using isPending
      rw [entered]
      simp [Function.update_of_ne same, inv.pending other old]

/-! ## Users that come and go -/

theorem Inv.usermodeUnregister (inv : Inv state) (c : Char) :
    Inv (state.usermodeUnregister c) := by
  have old : ∀ entry ∈ (state.usermodeUnregister c).usermodeList,
      entry ∈ state.usermodeList := fun _ => List.mem_of_mem_eraseP
  exact ⟨fun entry member => inv.lists entry (old entry member),
    fun entry member => inv.valid entry (old entry member),
    inv.letters.sublist List.eraseP_sublist, inv.users, inv.fresh, inv.pending⟩

theorem Inv.userNew (inv : Inv state) : Inv state.userNew := by
  have absent : state.userId ∉ state.userList :=
    fun member => Nat.lt_irrefl _ (inv.fresh _ member)
  have users : ∀ id, id ∈ state.userNew.userList ↔ id ∈ state.userList ∨ id = state.userId := by
    intro id
    simp [State.userNew]
  refine ⟨?_, inv.valid, inv.letters, ?_, ?_, ?_⟩
  · intro entry member
    apply (inv.lists entry member).congr
    intro id
    rw [State.Wanted, State.Wanted, users]
    by_cases same : id = state.userId
    · simp [State.userNew, same, absent, Matches]
    · simp [State.userNew, same]
  · rw [State.userNew, List.nodup_append]
    refine ⟨inv.users, List.nodup_singleton _, ?_⟩
    intro id member new isNew same
    rw [List.mem_singleton.mp isNew] at same
    exact absent (same ▸ member)
  · intro id member
    cases (users id).mp member with
    | inl old => exact Nat.lt_succ_of_lt (inv.fresh id old)
    | inr isNew => rw [isNew]; exact Nat.lt_succ_self _
  · intro id pending
    by_cases same : id = state.userId
    · simp [State.userNew, same]
    · have old : state.Pending id := by
        have here := (users id).mp pending.1
        have client := pending.2
        simp only [State.userNew, Function.update_of_ne same] at client
        exact ⟨here.resolve_right same, client⟩
      simp [State.userNew, Function.update_of_ne same, inv.pending id old]

theorem Inv.userDelete (inv : Inv state) (id : Nat) : Inv (state.userDelete id) := by
  have users : ∀ other, other ∈ (state.userDelete id).userList ↔
      other ∈ state.userList ∧ other ≠ id := by
    intro other
    rw [and_comm]
    exact inv.users.mem_erase_iff
  refine inv.of_map (f := fun entry => entry.unlink id) (fun _ => rfl) rfl ?_
    (inv.users.erase id) (fun other member => inv.fresh other ((users other).mp member).1)
    (fun other pending => inv.pending other ⟨((users other).mp pending.1).1, pending.2⟩)
  intro entry member
  apply (inv.lists entry member).unlink
  · intro wanted
    exact ((users id).mp wanted.1).2 rfl
  · intro other differ
    exact and_congr_left fun _ => (users other).trans (and_iff_left differ)

/-! ## Runs -/

/-- An event that fits has a next state, and keeps the invariant. -/
theorem Inv.step (inv : Inv state) {event : Event} (fits : Fits state event) :
    ∃ next, state.step event = some next ∧ Inv next := by
  cases event with
  | register umptr => exact inv.usermodeRegister fits
  | unregister c => exact ⟨_, rfl, inv.usermodeUnregister c⟩
  | userNew => exact ⟨_, rfl, inv.userNew⟩
  | login id location arg deny ssl =>
      rw [State.step]
      split
      · rename_i pending
        exact inv.login pending (fits pending)
      · exact ⟨state, rfl, inv⟩
  | umode id args deny =>
      rw [State.step]
      split
      · rename_i loggedIn
        obtain ⟨location, client⟩ := Option.ne_none_iff_exists'.mp loggedIn.2
        obtain ⟨parsed, valid⟩ := inv.parsed (state.user id).modes args
        obtain ⟨next, applied, inv'⟩ := inv.usermodeApply loggedIn.1 client parsed.known
          (parsed.changesFit (fun _ _ => inv.valid_of_usermodeTable)
            (fits loggedIn location client))
        refine ⟨next, ?_, inv'⟩
        rw [State.usermodeMake, applied]
        rfl
      · exact ⟨state, rfl, inv⟩
  | operUp id deny =>
      rw [State.step]
      split
      · rename_i loggedIn
        obtain ⟨location, client⟩ := Option.ne_none_iff_exists'.mp loggedIn.2
        cases found : state.usermodeTable 'o' with
        | none => exact ⟨state, rfl, inv⟩
        | some umptr =>
            apply inv.usermodeApply loggedIn.1 client
            · intro umcptr member
              rw [List.mem_singleton.mp member, character_of_usermodeTable found]
              exact found
            · refine ⟨?_, trivial⟩
              intro allowed kept
              rw [if_pos rfl]
              intro policy
              rw [fits loggedIn location client umptr found allowed kept policy]
              exact Bool.false_ne_true
      · exact ⟨state, rfl, inv⟩
  | userDelete id => exact ⟨_, rfl, inv.userDelete id⟩

/-- Along every run whose events fit, from no modes and no users on, there always is a next
state, and the list of each registered mode holds exactly the users whose mode state
matches its policy, each once. -/
theorem lists_match_of_fits {events before : List Event}
    (fits : TransitionSystem.GuardedRun State.step Fits State.empty events)
    (shorter : before <+: events) :
    ∃ state, TransitionSystem.run State.step State.empty before = some state ∧
      state.ListsMatch := by
  obtain ⟨rest, rfl⟩ := shorter
  obtain ⟨state, runs, inv⟩ := TransitionSystem.reaches_of_guardedRun
    (fun _ _ inv fits => inv.step fits) inv_empty fits.of_append.1
  exact ⟨state, runs, inv.lists⟩

/-- The modes `i` and `o` of the modules. -/
def umInvisible : Usermode :=
  ⟨'i', .off, .clientLocal, 0, false⟩

def umOperator : Usermode :=
  ⟨'o', .on, .clientGlobal, argEnable ||| argEmpty, true⟩

/-- A user logs in, hides and opers up. -/
def hiddenOperator : List Event :=
  [.register umInvisible, .register umOperator, .userNew,
    .login 0 .clientLocal [] (fun _ => true) false,
    .umode 0 [['+', 'i']] (fun _ => true), .operUp 0 (fun _ => false)]

theorem lists_match_hiddenOperator :
    ∃ state, TransitionSystem.run State.step State.empty hiddenOperator = some state ∧
      state.ListsMatch :=
  lists_match_of_fits
    (by decide +kernel :
      TransitionSystem.GuardedRun State.step Fits State.empty hiddenOperator)
    (List.prefix_refl hiddenOperator)

/-- A user that logs in with `+i` is put on the list of those that have `i` off. -/
theorem login_invisible_listed :
    ¬ ∀ events state, TransitionSystem.run State.step State.empty events = some state →
      state.ListsMatch := by
  intro always
  have wrong : ∃ state ∈ TransitionSystem.run State.step State.empty
      [.register umInvisible, .userNew,
        .login 0 .clientLocal ['+', 'i'] (fun _ => true) false],
      ∃ entry ∈ state.usermodeList, ∃ id ∈ entry.list,
        ¬ Matches (state.user id) entry.mode := by
    decide +kernel
  obtain ⟨state, runs, entry, member, id, listed, differs⟩ := wrong
  have lists := always _ state runs entry member
  exact differs ((lists.mem_iff id).mp listed).2

end Usermodes

end Chaosircd
