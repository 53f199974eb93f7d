import Chaosircd.Chars
import Mathlib.Data.Finset.Basic

/-!
# The table of channel modes

A channel mode is registered under its letter by the module that implements it.
Privilege modes also have a prefix character, shown before the names of the
members that hold them, and an order in which several prefixes are written.
-/

namespace Chaosircd

/-- `mode->type`. -/
inductive ChanmodeType where
  | single
  | limit
  | key
  | list
  | privilege
  deriving DecidableEq

/-- `mode->cb`: the callback that applies a change of the mode.  The callbacks
of the invite-only and of the alarm mode change nothing else in the channel than
`chanmode_bounce_simple`, which they end in. -/
inductive ChanmodeCallback where
  | bounceSimple
  | bounceKey
  | bounceLimit
  | bounceBan
  | bounceMask
  | bouncePrivilege
  deriving DecidableEq

/-- `struct chanmode`. -/
structure Chanmode where
  letter : Char
  pfx : Option Char
  type : ChanmodeType
  need : Finset Char
  order : Nat
  cb : ChanmodeCallback
  deriving DecidableEq

/-- The letters of `chanmode_table`, in the order of its 64 entries. -/
def chanmodeLetters : List Char :=
  (List.range 0x40).map fun i => Char.ofNat (i + 0x40)

/-- `chanmode_table`: an entry that no module registered is absent. -/
structure ChanmodeTable where
  entry : Char → Option Chanmode
  letter_eq : ∀ {letter mode}, entry letter = some mode → mode.letter = letter
  registrable : ∀ {letter mode}, entry letter = some mode →
    charsIsalpha letter ∧ letter ∈ chanmodeLetters

namespace ChanmodeTable

/-- The table after registering modes with valid letters. -/
def ofModes (modes : List Chanmode)
    (valid : ∀ mode ∈ modes, charsIsalpha mode.letter ∧
      mode.letter ∈ chanmodeLetters) : ChanmodeTable where
  entry letter := modes.find? fun mode => mode.letter = letter
  letter_eq found := by simpa using List.find?_some found
  registrable found := by
    have isLetter := List.find?_some found
    rw [decide_eq_true_eq] at isLetter
    exact isLetter ▸ valid _ (List.mem_of_find?_eq_some found)

/-- The modes that the modules of the daemon register. -/
def shippedModes : List Chanmode :=
  [⟨'A', none, .single, {'o'}, 0, .bounceSimple⟩,
    ⟨'H', none, .list, {'o', 'h'}, 0, .bounceBan⟩,
    ⟨'I', none, .list, {'o', 'h'}, 0, .bounceBan⟩,
    ⟨'O', none, .list, {'o', 'h'}, 0, .bounceBan⟩,
    ⟨'P', none, .single, {'o'}, 0, .bounceSimple⟩,
    ⟨'V', none, .list, {'o', 'h'}, 0, .bounceBan⟩,
    ⟨'b', none, .list, {'o', 'h'}, 0, .bounceBan⟩,
    ⟨'d', none, .list, {'o', 'h'}, 0, .bounceBan⟩,
    ⟨'e', none, .list, {'o', 'h'}, 0, .bounceBan⟩,
    ⟨'h', some '%', .privilege, {'o', 'h'}, 50, .bouncePrivilege⟩,
    ⟨'i', none, .single, {'o', 'h'}, 0, .bounceSimple⟩,
    ⟨'k', none, .key, {'o', 'h'}, 0, .bounceKey⟩,
    ⟨'l', none, .key, {'o', 'h'}, 0, .bounceLimit⟩,
    ⟨'m', none, .single, {'o', 'h'}, 0, .bounceSimple⟩,
    ⟨'n', none, .single, {'o', 'h'}, 0, .bounceSimple⟩,
    ⟨'o', some '@', .privilege, {'o'}, 100, .bouncePrivilege⟩,
    ⟨'s', none, .single, {'o', 'h'}, 0, .bounceSimple⟩,
    ⟨'t', none, .single, {'o', 'h'}, 0, .bounceSimple⟩,
    ⟨'v', some '+', .privilege, {'o', 'h'}, 20, .bouncePrivilege⟩]

/-- The table with all modules loaded.  (The order field of a list mode is the
number of a reply to the user, which is not modelled.) -/
def shipped : ChanmodeTable :=
  ofModes shippedModes (by decide)

/-- The entry of a letter when it is of the given type. -/
def ofType (table : ChanmodeTable) (type : ChanmodeType) (letter : Char) :
    Option Chanmode :=
  (table.entry letter).filter fun mode => mode.type = type

/-- The letters of one type in table order. -/
def lettersOfType (table : ChanmodeTable) (type : ChanmodeType) : List Char :=
  chanmodeLetters.filter fun letter => (table.ofType type letter).isSome

/-- The first privilege with the prefix character. -/
def privilegeOfPfx (table : ChanmodeTable) (c : Char) : Option Chanmode :=
  chanmodeLetters.findSome? fun letter =>
    (table.ofType .privilege letter).filter fun mode => mode.pfx = some c

/-- `chanmode_prefix_parse`. -/
def chanmodePrefixParse (table : ChanmodeTable) : CString → Finset Char
  | [] => ∅
  | c :: cs =>
      if c = ':' then ∅
      else
        match table.privilegeOfPfx c with
        | none => ∅
        | some mode => insert mode.letter (table.chanmodePrefixParse cs)

/-- The scan shared by `chanmode_prefix_make` and `chanmode_changes_make`: the
privilege of highest order below `top` among those held. -/
def topPrivilege (table : ChanmodeTable) (flags : Finset Char) (top : Nat) :
    Option Chanmode :=
  chanmodeLetters.foldl
    (fun best letter =>
      match table.ofType .privilege letter with
      | none => best
      | some mode =>
          if mode.order < top ∧ (best.map Chanmode.order).getD 0 < mode.order ∧
              mode.letter ∈ flags then
            some mode
          else best)
    none

/-- The privileges held, from the highest order down.  Every round lowers the
bound, so the 64 entries of the table need no more than 64 rounds. -/
def privilegesBelow (table : ChanmodeTable) (flags : Finset Char) :
    Nat → Nat → List Chanmode
  | 0, _ => []
  | rounds + 1, top =>
      match table.topPrivilege flags top with
      | none => []
      | some mode => mode :: table.privilegesBelow flags rounds mode.order

/-- `chanmode_prefix_make`. -/
def chanmodePrefixMake (table : ChanmodeTable) (flags : Finset Char) :
    CString :=
  (table.privilegesBelow flags 64 (2 ^ 32 - 1)).map fun mode =>
    mode.pfx.getD '\x00'

end ChanmodeTable

end Chaosircd
