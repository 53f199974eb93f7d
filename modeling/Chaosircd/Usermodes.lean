import Chaosircd.CString
import Mathlib.Algebra.Ring.Nat
import Mathlib.Logic.Function.Basic

/-!
# User modes

A user mode keeps its bit in the modes of each user, and may keep a list of the users
that have it on, or off, here, elsewhere or anywhere.  The list is filled in three
places: when the mode is registered, when a user logs in, and with each change.
-/

namespace Chaosircd

namespace Usermodes

/-! ## Modes and users -/

/-- `CLIENT_LOCAL`, `CLIENT_REMOTE` and `CLIENT_GLOBAL`. -/
inductive Location where
  | clientLocal
  | clientRemote
  | clientGlobal
  deriving DecidableEq, Repr

/-- `USERMODE_LIST_NOLIST`, `USERMODE_LIST_OFF` and `USERMODE_LIST_ON`. -/
inductive ListMode where
  | noList
  | off
  | on
  deriving DecidableEq, Repr

/-- The list mode that equals `USERMODE_OFF` or `USERMODE_ON`. -/
def ListMode.of (change : Bool) : ListMode :=
  if change then .on else .off

/-- `USERMODE_ARG_ENABLE`. -/
def argEnable : Nat := 1

/-- `USERMODE_ARG_EMPTY`. -/
def argEmpty : Nat := 2

/-- `struct usermode`, its list apart; of the handler only whether there is one. -/
structure Usermode where
  character : Char
  listMode : ListMode
  listType : Location
  arg : Nat
  handler : Bool
  deriving DecidableEq, Repr

/-- `USERMODE_VALID`. -/
def usermodeValid (c : Char) : Bool :=
  ('A'.toNat ≤ c.toNat && c.toNat ≤ 'Z'.toNat) || ('a'.toNat ≤ c.toNat && c.toNat ≤ 'z'.toNat)

/-- The place of a letter in `usermode_table`. -/
def tableIndex (c : Char) : Nat :=
  c.toNat - 0x40

/-- `umptr->flag`. -/
def Usermode.flag (umptr : Usermode) : BitVec 64 :=
  BitVec.twoPow 64 (tableIndex umptr.character)

/-- `modes & umptr->flag`. -/
def isOn (modes : BitVec 64) (umptr : Usermode) : Bool :=
  decide (modes &&& umptr.flag ≠ 0)

/-- `struct user`: where its client is, once it has one, and its modes. -/
structure User where
  client : Option Location
  modes : BitVec 64
  deriving DecidableEq

/-- `struct usermodechange`. -/
structure Usermodechange where
  mode : Usermode
  change : Bool
  arg : Option CString
  deriving DecidableEq

/-- A registered mode and its list. -/
structure Registered where
  mode : Usermode
  list : List Nat
  deriving DecidableEq

/-- `usermode_list`, `user_list` and `user_id`. -/
structure State where
  usermodeList : List Registered
  userList : List Nat
  user : Nat → User
  userId : Nat

namespace State

/-- No mode is registered and nobody is there. -/
def empty : State :=
  ⟨[], [], fun _ => ⟨none, 0⟩, 0⟩

/-- `usermode_table`. -/
def usermodeTable (state : State) (c : Char) : Option Usermode :=
  (state.usermodeList.find? fun entry => entry.mode.character = c).map Registered.mode

end State

/-! ## Parsing -/

/-- The change that an earlier one makes room for. -/
def sameChange (umcptr other : Usermodechange) : Bool :=
  decide (umcptr.mode.character = other.mode.character) &&
    match umcptr.arg, other.arg with
    | some arg, some other => decide (IcmpEq arg other)
    | none, none => true
    | _, _ => false

/-- `usermode_change_add`. -/
def usermodeChangeAdd (changes : List Usermodechange) (umcptr : Usermodechange) :
    List Usermodechange :=
  changes.eraseP (sameChange umcptr) ++ [umcptr]

/-- How far `usermode_parse` is: the arguments it has used up, the sign and the changes. -/
structure Parse where
  skip : Nat
  change : Bool
  changes : List Usermodechange

/-- A change without argument, unless the user has it already. -/
def Parse.add (parse : Parse) (modes : BitVec 64) (umptr : Usermode) : Parse :=
  if isOn modes umptr = parse.change then parse
  else { parse with changes := usermodeChangeAdd parse.changes ⟨umptr, parse.change, none⟩ }

/-- The body of the inner loop of `usermode_parse`; `rest` are the arguments that come
after the one that is read. -/
def parseChar (table : Char → Option Usermode) (modes : BitVec 64) (rest : List CString)
    (parse : Parse) (c : Char) : Parse :=
  if c = '+' then { parse with change := true }
  else if c = '-' then { parse with change := false }
  else if !usermodeValid c then parse
  else
    match table c with
    | none => parse
    | some umptr =>
      if umptr.arg &&& argEnable = 0 then parse.add modes umptr
      else
        match rest[parse.skip]? with
        | some changearg =>
          { parse with
            skip := parse.skip + 1
            changes := usermodeChangeAdd parse.changes ⟨umptr, parse.change, some changearg⟩ }
        | none => if umptr.arg &&& argEmpty = 0 then parse else parse.add modes umptr

/-- The outer loop of `usermode_parse`. -/
def parseArgs (table : Char → Option Usermode) (modes : BitVec 64) :
    List CString → Parse → Parse
  | [], parse => parse
  | arg :: rest, parse =>
    match parse.skip with
    | skip + 1 => parseArgs table modes rest { parse with skip := skip }
    | 0 => parseArgs table modes rest (arg.foldl (parseChar table modes rest) parse)

/-- `usermode_parse`. -/
def usermodeParse (table : Char → Option Usermode) (modes : BitVec 64) (args : List CString) :
    List Usermodechange :=
  (parseArgs table modes args ⟨0, true, []⟩).changes

/-! ## Lists -/

/-- `usermode_link_test`; it reads through the pointer to the client unless the list is
kept for all users. -/
def usermodeLinkTest (uptr : User) (umptr : Usermode) (change : Bool) : Option Int :=
  let verdict := if umptr.listMode = ListMode.of change then 1 else -1
  if umptr.listMode = .noList then some 0
  else if umptr.listType = .clientGlobal then some verdict
  else uptr.client.map fun location => if umptr.listType ≠ location then 0 else verdict

/-- `usermode_link`. -/
def Registered.link (entry : Registered) (id : Nat) : Registered :=
  { entry with list := entry.list ++ [id] }

/-- `usermode_unlink`. -/
def Registered.unlink (entry : Registered) (id : Nat) : Registered :=
  { entry with list := entry.list.erase id }

/-- What `usermode_apply` does to the modes of the user. -/
def Usermodechange.turn (umcptr : Usermodechange) (modes : BitVec 64) : BitVec 64 :=
  if umcptr.arg = none then
    if umcptr.change then modes ||| umcptr.mode.flag else modes &&& ~~~umcptr.mode.flag
  else modes

/-- The mode has a handler, and it does not allow the change. -/
def Usermodechange.denied (umcptr : Usermodechange) (deny : Usermodechange → Bool) : Bool :=
  umcptr.mode.handler && deny umcptr

namespace State

/-- Sets the modes of a user. -/
def setModes (state : State) (id : Nat) (modes : BitVec 64) : State :=
  { state with user := Function.update state.user id { state.user id with modes := modes } }

/-- Changes the list of a registered mode. -/
def changeList (state : State) (umptr : Usermode) (f : Registered → Registered) : State :=
  { state with
    usermodeList := state.usermodeList.map fun entry =>
      if entry.mode.character = umptr.character then f entry else entry }

/-- `usermode_linkall_user`. -/
def usermodeLinkallUser (state : State) (id : Nat) : Option State := do
  let usermodeList ← state.usermodeList.mapM fun entry => do
    let link ← usermodeLinkTest (state.user id) entry.mode false
    some (if 0 < link then entry.link id else entry)
  some { state with usermodeList := usermodeList }

/-- `usermode_unlinkall_user`. -/
def usermodeUnlinkallUser (state : State) (id : Nat) : State :=
  { state with usermodeList := state.usermodeList.map fun entry => entry.unlink id }

/-- The body of the loop of `usermode_linkall_mode`. -/
def linkUser (state : State) (umptr : Usermode) (list : List Nat) (id : Nat) :
    Option (List Nat) := do
  let link ← usermodeLinkTest (state.user id) umptr true
  some (if 0 < link then list ++ [id] else list)

/-- `usermode_linkall_mode`, from an empty list. -/
def usermodeLinkallMode (state : State) (umptr : Usermode) : Option (List Nat) :=
  state.userList.foldlM (state.linkUser umptr) []

/-- `usermode_register`. -/
def usermodeRegister (state : State) (umptr : Usermode) : Option State :=
  if !usermodeValid umptr.character ∨ state.usermodeTable umptr.character ≠ none then some state
  else do
    let list ← state.usermodeLinkallMode umptr
    some { state with usermodeList := state.usermodeList ++ [⟨umptr, list⟩] }

/-- `usermode_unregister` of the mode with this letter. -/
def usermodeUnregister (state : State) (c : Char) : State :=
  { state with usermodeList := state.usermodeList.eraseP fun entry => entry.mode.character = c }

/-- The body of the loop of `usermode_apply`. -/
def applyChange (deny : Usermodechange → Bool) (linkall : Bool) (id : Nat) (state : State)
    (umcptr : Usermodechange) : Option State :=
  if umcptr.denied deny then some state
  else
    let turned := state.setModes id (umcptr.turn (state.user id).modes)
    if linkall then some turned
    else do
      let link ← usermodeLinkTest (turned.user id) umcptr.mode umcptr.change
      some (if 0 < link then turned.changeList umcptr.mode fun entry => entry.link id
        else if link < 0 then turned.changeList umcptr.mode fun entry => entry.unlink id
        else turned)

/-- `usermode_apply`. -/
def usermodeApply (state : State) (id : Nat) (deny : Usermodechange → Bool) (linkall : Bool)
    (changes : List Usermodechange) : Option State :=
  changes.foldlM (applyChange deny linkall id) state

/-- `usermode_make`. -/
def usermodeMake (state : State) (id : Nat) (args : List CString)
    (deny : Usermodechange → Bool) (linkall : Bool) : Option State := do
  let applied ← state.usermodeApply id deny linkall
    (usermodeParse state.usermodeTable (state.user id).modes args)
  if linkall then applied.usermodeLinkallUser id else some applied

/-- `user_new`: a user that has no client yet. -/
def userNew (state : State) : State :=
  { state with
    userList := state.userList ++ [state.userId]
    user := Function.update state.user state.userId ⟨none, 0⟩
    userId := state.userId + 1 }

/-- The user gets its client. -/
def setClient (state : State) (id : Nat) (location : Location) : State :=
  { state with
    user := Function.update state.user id { state.user id with client := some location } }

/-- `'p' - 0x40`. -/
def sslModes : BitVec 64 := 0x30

/-- `lclient_register` and `ms_nuser`, from where the user gets its client on. -/
def login (state : State) (id : Nat) (location : Location) (arg : CString)
    (deny : Usermodechange → Bool) (ssl : Bool) : Option State := do
  let made ← (state.setClient id location).usermodeMake id [arg] deny true
  some (if ssl then made.setModes id ((made.user id).modes ||| sslModes) else made)

/-- `user_delete`. -/
def userDelete (state : State) (id : Nat) : State :=
  let released := state.usermodeUnlinkallUser id
  { released with userList := released.userList.erase id }

end State

/-- What happens to modes and users.  The handlers' answers come with the event. -/
inductive Event where
  | register (umptr : Usermode)
  | unregister (c : Char)
  | userNew
  | login (id : Nat) (location : Location) (arg : CString) (deny : Usermodechange → Bool)
      (ssl : Bool)
  | umode (id : Nat) (args : List CString) (deny : Usermodechange → Bool)
  | operUp (id : Nat) (deny : Usermodechange → Bool)
  | userDelete (id : Nat)

namespace State

/-- The user has a client. -/
def LoggedIn (state : State) (id : Nat) : Prop :=
  id ∈ state.userList ∧ (state.user id).client ≠ none

/-- The user is there and has no client yet. -/
def Pending (state : State) (id : Nat) : Prop :=
  id ∈ state.userList ∧ (state.user id).client = none

instance (state : State) (id : Nat) : Decidable (state.LoggedIn id) :=
  inferInstanceAs (Decidable (_ ∧ _))

instance (state : State) (id : Nat) : Decidable (state.Pending id) :=
  inferInstanceAs (Decidable (_ ∧ _))

/-- One event; there is no state after a read through a null pointer.  An event of a user
that cannot have it does nothing. -/
def step (state : State) : Event → Option State
  | .register umptr => state.usermodeRegister umptr
  | .unregister c => some (state.usermodeUnregister c)
  | .userNew => some state.userNew
  | .login id location arg deny ssl =>
    if state.Pending id then state.login id location arg deny ssl else some state
  | .umode id args deny =>
    if state.LoggedIn id then state.usermodeMake id args deny false else some state
  | .operUp id deny =>
    if state.LoggedIn id then
      match state.usermodeTable 'o' with
      | none => some state
      | some umptr => state.usermodeApply id deny false [⟨umptr, true, none⟩]
    else some state
  | .userDelete id => some (state.userDelete id)

end State

/-! ## Letters and bits -/

variable {umptr other : Usermode} {umcptr : Usermodechange} {modes : BitVec 64} {c d : Char}

theorem tableIndex_lt (valid : usermodeValid c = true) : tableIndex c < 64 := by
  simp only [usermodeValid, Bool.or_eq_true, Bool.and_eq_true, decide_eq_true_eq] at valid
  have capitalZ : 'Z'.toNat = 90 := rfl
  have smallZ : 'z'.toNat = 122 := rfl
  rw [tableIndex]
  omega

/-- Each letter has a place of its own. -/
theorem tableIndex_inj (valid : usermodeValid c = true) (valid' : usermodeValid d = true)
    (same : tableIndex c = tableIndex d) : c = d := by
  simp only [usermodeValid, Bool.or_eq_true, Bool.and_eq_true, decide_eq_true_eq]
    at valid valid'
  have capitalA : 'A'.toNat = 65 := rfl
  have smallA : 'a'.toNat = 97 := rfl
  rw [tableIndex, tableIndex] at same
  have codes : c.toNat = d.toNat := by omega
  exact Char.toNat_inj.mp codes

theorem isOn_eq_getLsbD (valid : usermodeValid umptr.character = true) :
    isOn modes umptr = modes.getLsbD (tableIndex umptr.character) := by
  have bound := tableIndex_lt valid
  rw [isOn, Usermode.flag, BitVec.and_twoPow]
  cases modes.getLsbD (tableIndex umptr.character) with
  | true =>
      rw [if_pos rfl, decide_eq_true_eq]
      intro zero
      have bit := congrArg (fun modes => BitVec.getLsbD modes (tableIndex umptr.character)) zero
      simp [bound] at bit
  | false => simp

theorem isOn_zero : isOn 0 umptr = false := by
  simp [isOn]

theorem isOn_or {modes' : BitVec 64} (valid : usermodeValid umptr.character = true) :
    isOn (modes ||| modes') umptr = (isOn modes umptr || isOn modes' umptr) := by
  rw [isOn_eq_getLsbD valid, isOn_eq_getLsbD valid, isOn_eq_getLsbD valid, BitVec.getLsbD_or]

/-- A change without argument turns its mode on or off. -/
theorem isOn_turn (valid : usermodeValid umcptr.mode.character = true) (bare : umcptr.arg = none) :
    isOn (umcptr.turn modes) umcptr.mode = umcptr.change := by
  have bound := tableIndex_lt valid
  rw [isOn_eq_getLsbD valid, Usermodechange.turn, if_pos bare, Usermode.flag]
  cases umcptr.change <;> simp [bound]

/-- A change leaves the other modes alone. -/
theorem isOn_turn_of_ne (valid : usermodeValid umcptr.mode.character = true)
    (valid' : usermodeValid umptr.character = true)
    (differ : umptr.character ≠ umcptr.mode.character) :
    isOn (umcptr.turn modes) umptr = isOn modes umptr := by
  have bound := tableIndex_lt valid'
  have apart : tableIndex umcptr.mode.character ≠ tableIndex umptr.character :=
    fun same => differ (tableIndex_inj valid' valid same.symm)
  rw [isOn_eq_getLsbD valid', isOn_eq_getLsbD valid', Usermodechange.turn, Usermode.flag]
  split
  · split
    · simp [BitVec.getLsbD_twoPow, apart]
    · simp [bound, Ne.symm apart]
  · rfl

theorem turn_of_arg (given : umcptr.arg ≠ none) : umcptr.turn modes = modes :=
  if_neg given

/-! ## Single users -/

namespace State

variable {state : State} {id other : Nat} {location : Location}

@[simp]
theorem setModes_user_self :
    (state.setModes id modes).user id = ⟨(state.user id).client, modes⟩ :=
  Function.update_self ..

theorem setModes_user_of_ne (differ : other ≠ id) :
    (state.setModes id modes).user other = state.user other :=
  Function.update_of_ne differ ..

@[simp]
theorem setClient_user_self :
    (state.setClient id location).user id = ⟨some location, (state.user id).modes⟩ :=
  Function.update_self ..

theorem changeList_self (state : State) (umptr : Usermode) :
    state.changeList umptr (fun entry => entry) = state := by
  simp [changeList]

theorem setClient_user_of_ne (differ : other ≠ id) :
    (state.setClient id location).user other = state.user other :=
  Function.update_of_ne differ ..

end State

end Usermodes

end Chaosircd
