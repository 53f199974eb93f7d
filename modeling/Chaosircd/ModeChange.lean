import Chaosircd.MaskList
import Chaosircd.ChanmodeTable
import Chaosircd.Numerals
import Mathlib.Data.Finset.Insert
import Mathlib.Data.List.TakeWhile

/-!
# Channel modes: changes and their callbacks

A `MODE` line is parsed into a list of changes.  `chanmode_apply` walks the list
and calls the callback of each mode, which decides and mutates in one go: it
returns zero after it has applied the change, or a nonzero value to have the
change marked as bounced.  A callback of a mask list may put explicit removals in
front of the change it was called for; the walk does not come to those any more.

The numerics sent back to the source are left out.
-/

namespace Chaosircd

namespace Modes

/-! ## Changes -/

/-- `CHANMODE_ADD`, `CHANMODE_DEL` and `CHANMODE_QUERY`. -/
inductive What where
  | add
  | del
  | query
  deriving DecidableEq, Repr

/-- The callbacks that the mode modules register. -/
inductive Callback where
  | chanmodeBounceSimple
  | cmAlarmBounce
  | cmInviteBounce
  | cmKeyBounce
  | cmLimitBounce
  | chanmodeBounceBan
  | chanmodeBounceMask
  | chanuserModeBounce
  deriving DecidableEq, Repr

/-- `struct chanmode`; the letter stands for the flag. -/
structure Chanmode where
  letter : Char
  type : ChanmodeType
  need : Finset Char
  cb : Callback
  deriving DecidableEq

/-- `struct chanmodechange`; the target is the member block of `acptr`. -/
structure Chanmodechange where
  mode : Chanmode
  what : What
  acptr : Option Client
  bounced : Nat
  ts : Nat
  nmask : Option CString
  umask : Option CString
  hmask : Option CString
  info : CString
  arg : CString
  deriving DecidableEq

/-- `IRCD_PREFIXLEN`. -/
def prefixLen : Nat := 114

/-- `IRCD_KEYLEN`. -/
def keyLen : Nat := 24

/-- `IRCD_MAXBANS`. -/
def maxBans : Nat := 64

/-- The change `chanmode_change_insert` makes out of the mask of an entry. -/
def explicitDel (mode : Chanmode) (cmiptr : Chanmodeitem) : Chanmodechange where
  mode := mode
  what := .del
  acptr := none
  bounced := 0
  ts := 0
  nmask := none
  umask := none
  hmask := none
  info := []
  arg := strlcpy cmiptr.mask (prefixLen + 1)

/-- What a callback returns and leaves behind: the channel, the change, and the changes it
inserted in front of it. -/
structure Bounce where
  ret : Int
  chptr : Channel
  cmcptr : Chanmodechange
  inserted : List Chanmodechange

/-- Nothing has been touched. -/
def refuse (ret : Int) (chptr : Channel) (cmcptr : Chanmodechange) : Bounce :=
  ⟨ret, chptr, cmcptr, []⟩

/-! ## Flags, key and limit -/

/-- `chanmode_bounce_simple`. -/
def chanmodeBounceSimple (chptr : Channel) (cmcptr : Chanmodechange) : Bounce :=
  match cmcptr.what with
  | .del =>
    if cmcptr.mode.letter ∉ chptr.modes then refuse 1 chptr cmcptr
    else ⟨0, { chptr with modes := chptr.modes.erase cmcptr.mode.letter }, cmcptr, []⟩
  | .add =>
    if cmcptr.mode.letter ∈ chptr.modes then refuse 1 chptr cmcptr
    else ⟨0, { chptr with modes := insert cmcptr.mode.letter chptr.modes }, cmcptr, []⟩
  | .query => ⟨0, chptr, cmcptr, []⟩

/-- `cm_alarm_bounce`, its log line apart. -/
def cmAlarmBounce : Channel → Chanmodechange → Bounce :=
  chanmodeBounceSimple

/-- `cm_invite_bounce`: the removal of the flag cancels the invitations. -/
def cmInviteBounce (chptr : Channel) (cmcptr : Chanmodechange) : Bounce :=
  match cmcptr.what with
  | .del =>
    if cmcptr.mode.letter ∉ chptr.modes then refuse 1 chptr cmcptr
    else chanmodeBounceSimple { chptr with invites := ∅ } cmcptr
  | .add | .query => chanmodeBounceSimple chptr cmcptr

/-- `cm_key_bounce`: it is the equal key that takes the flag away before it is set again. -/
def cmKeyBounce (chptr : Channel) (cmcptr : Chanmodechange) : Bounce :=
  match cmcptr.what with
  | .del =>
    if cmcptr.mode.letter ∉ chptr.modes then refuse 1 chptr cmcptr
    else chanmodeBounceSimple { chptr with key := [] } cmcptr
  | .add =>
    if cmcptr.arg = [] then refuse 1 chptr cmcptr
    else
      let arg := cmcptr.arg.take keyLen
      let modes :=
        if cmcptr.mode.letter ∈ chptr.modes ∧ chptr.key = arg then
          chptr.modes.erase cmcptr.mode.letter
        else chptr.modes
      chanmodeBounceSimple { chptr with modes := modes, key := strlcpy arg (keyLen + 1) }
        { cmcptr with arg := arg }
  | .query => chanmodeBounceSimple chptr cmcptr

/-- `cm_limit_bounce`: here a different limit takes the flag away. -/
def cmLimitBounce (chptr : Channel) (cmcptr : Chanmodechange) : Bounce :=
  match cmcptr.what with
  | .del =>
    if cmcptr.mode.letter ∉ chptr.modes then refuse 1 chptr cmcptr
    else chanmodeBounceSimple { chptr with limit := 2 ^ 64 - 1 } cmcptr
  | .add =>
    let limit := strToul cmcptr.arg
    if limit = 2 ^ 64 - 1 ∨ limit = 0 then refuse 1 chptr cmcptr
    else
      let modes :=
        if cmcptr.mode.letter ∈ chptr.modes ∧ chptr.limit ≠ limit then
          chptr.modes.erase cmcptr.mode.letter
        else chptr.modes
      chanmodeBounceSimple { chptr with modes := modes, limit := limit } cmcptr
  | .query => chanmodeBounceSimple chptr cmcptr

/-! ## Privileges -/

/-- `chanuser_find`. -/
def Channel.find (chptr : Channel) (client : Nat) : Option Chanuser :=
  chptr.chanusers.find? fun cuptr => cuptr.client = client

/-- `chanuser_mode_set` on the member block of a client. -/
def chanuserModeSet (client : Nat) (flags : Finset Char) : List Chanuser → List Chanuser
  | [] => []
  | cuptr :: chanusers =>
    if cuptr.client = client then { cuptr with flags := flags } :: chanusers
    else cuptr :: chanuserModeSet client flags chanusers

/-- `chanuser_mode_bounce`: `chanmode_prepare` makes no change without a target. -/
def chanuserModeBounce (chptr : Channel) (cmcptr : Chanmodechange) : Bounce :=
  match cmcptr.what with
  | .query => ⟨0, chptr, cmcptr, []⟩
  | .del =>
    match cmcptr.acptr.bind fun acptr => chptr.find acptr.id with
    | none => refuse 1 chptr cmcptr
    | some target =>
      if cmcptr.mode.letter ∉ target.flags then refuse 1 chptr cmcptr
      else
        ⟨0, { chptr with
          chanusers := chanuserModeSet target.client (target.flags.erase cmcptr.mode.letter)
            chptr.chanusers }, cmcptr, []⟩
  | .add =>
    match cmcptr.acptr.bind fun acptr => chptr.find acptr.id with
    | none => refuse 1 chptr cmcptr
    | some target =>
      if cmcptr.mode.letter ∈ target.flags then refuse 1 chptr cmcptr
      else
        ⟨0, { chptr with
          chanusers := chanuserModeSet target.client (insert cmcptr.mode.letter target.flags)
            chptr.chanusers }, cmcptr, []⟩

/-! ## Mask lists -/

/-- Links a block after the last one of the first run with the same information hash, or at
the tail. -/
def linkByHash (cmiptr : Chanmodeitem) : List Chanmodeitem → List Chanmodeitem
  | [] => [cmiptr]
  | acmiptr :: mlptr =>
    if acmiptr.ihash = cmiptr.ihash ∧ (mlptr.head?.map Chanmodeitem.ihash) ≠ some cmiptr.ihash
    then acmiptr :: cmiptr :: mlptr
    else acmiptr :: linkByHash cmiptr mlptr

/-- The block `chanmode_mask_add` makes out of a change. -/
def maskItem (systime : Nat) (cptr : Client) (cmcptr : Chanmodechange) : Chanmodeitem :=
  let (info, ts) :=
    match cptr.user with
    | some uptr =>
      (strlcpy (cptr.name ++ "!".toList ++ uptr.name ++ "@".toList ++ cptr.host)
        (prefixLen + 1), systime)
    | none =>
      if cmcptr.info ≠ [] then (strlcpy cmcptr.info (prefixLen + 1), cmcptr.ts)
      else (strlcpy cptr.name (prefixLen + 1), systime)
  { mask := strlcpy cmcptr.arg (prefixLen + 1)
    nmask := strlcpy (cmcptr.nmask.getD []) 33
    umask := strlcpy (cmcptr.umask.getD []) 17
    hmask := strlcpy (cmcptr.hmask.getD []) 65
    info := info
    ts := ts
    ihash := strHash info }

/-- `chanmode_mask_add`: what it returns and the list. -/
def chanmodeMaskAdd (systime : Nat) (cptr : Client) (mlptr : List Chanmodeitem)
    (cmcptr : Chanmodechange) : Int × List Chanmodeitem :=
  if mlptr.length = maxBans then (-2, mlptr)
  else (0, linkByHash (maskItem systime cptr cmcptr) mlptr)

/-- What a walk over a mask list keeps and removes, and whether it came to an entry that
covers the new mask. -/
structure MaskScan where
  kept : List Chanmodeitem
  lost : List Chanmodeitem
  covered : Bool

/-- The walk of `chanmode_bounce_mask` for a new mask: it ends at an entry that covers it. -/
def coverScan (arg : CString) : List Chanmodeitem → MaskScan
  | [] => ⟨[], [], false⟩
  | cmiptr :: mlptr =>
    if strMatch arg cmiptr.mask then ⟨cmiptr :: mlptr, [], true⟩
    else
      let rest := coverScan arg mlptr
      if strMatch cmiptr.mask arg then { rest with lost := cmiptr :: rest.lost }
      else { rest with kept := cmiptr :: rest.kept }

/-- The test of `chanmode_bounce_mask` for the entries that a removal means. -/
def Comparable (arg : CString) (cmiptr : Chanmodeitem) : Prop :=
  strMatch arg cmiptr.mask = true ∨ strMatch cmiptr.mask arg = true

instance (arg : CString) : DecidablePred (Comparable arg) :=
  fun _ => inferInstanceAs (Decidable (_ ∨ _))

/-- The mask list of one mode. -/
def Channel.setList (chptr : Channel) (letter : Char) (mlptr : List Chanmodeitem) : Channel :=
  { chptr with modelists := fun l => if l = letter then mlptr else chptr.modelists l }

/-- `chanmode_bounce_mask`. -/
def chanmodeBounceMask (systime : Nat) (cptr : Client) (chptr : Channel)
    (cmcptr : Chanmodechange) : Bounce :=
  let letter := cmcptr.mode.letter
  match cmcptr.what with
  | .add =>
    let scan := coverScan cmcptr.arg (chptr.modelists letter)
    let inserted := scan.lost.map (explicitDel cmcptr.mode)
    if scan.covered then ⟨1, chptr.setList letter scan.kept, cmcptr, inserted⟩
    else
      let (ret, mlptr) := chanmodeMaskAdd systime cptr scan.kept cmcptr
      ⟨ret, chptr.setList letter mlptr, cmcptr, inserted⟩
  | .del =>
    let mlptr := chptr.modelists letter
    ⟨1, chptr.setList letter (mlptr.filter fun cmiptr => ¬ Comparable cmcptr.arg cmiptr),
      cmcptr,
      (mlptr.filter fun cmiptr => Comparable cmcptr.arg cmiptr).map
        (explicitDel cmcptr.mode)⟩
  | .query => ⟨0, chptr, cmcptr, []⟩

/-- One part of a mask: a star where nothing is given, cut at the first byte that does not
belong there. -/
def maskPart (allowed : Char → Bool) (size : Nat) (text : CString) : CString :=
  let part := if text = [] then ['*'] else strlcpy text size
  let good := part.takeWhile fun c => allowed c || charsIskwildchar c
  if good = [] ∧ part ≠ [] then ['*'] else good

/-- `*strchr(s, c) = '\0'`, where `c` occurs. -/
def cutAt (c : Char) (s : CString) : CString :=
  s.takeWhile (· ≠ c)

/-- What follows the first `c`. -/
def after (c : Char) (s : CString) : CString :=
  (s.dropWhile (· ≠ c)).drop 1

theorem cutAt_append_cons {c : Char} {front : CString} (behind : CString) (plain : c ∉ front) :
    cutAt c (front ++ c :: behind) = front := by
  rw [cutAt, List.takeWhile_append_of_pos fun d member => by
    simpa using ne_of_mem_of_not_mem member plain]
  simp

theorem after_append_cons {c : Char} {front : CString} (behind : CString) (plain : c ∉ front) :
    after c (front ++ c :: behind) = behind := by
  rw [after, List.dropWhile_append_of_pos fun d member => by
    simpa using ne_of_mem_of_not_mem member plain]
  simp

theorem cutAt_eq_self {c : Char} {text : CString} (plain : c ∉ text) : cutAt c text = text := by
  rw [cutAt, List.takeWhile_eq_self_iff]
  intro d member
  rw [decide_eq_true_eq]
  exact ne_of_mem_of_not_mem member plain

/-- How `chanmode_bounce_ban` takes an argument apart: a `!` without an `@` behind it only
ends the argument. -/
def splitMask (arg : CString) : CString × CString × CString :=
  let front := cutAt '!' arg
  if '!' ∈ arg ∧ '@' ∈ after '!' arg ∧ '@' ∉ front then
    let behind := after '!' arg
    (front, cutAt '!' (cutAt '@' behind), cutAt '!' (cutAt '@' (after '@' behind)))
  else if '@' ∈ front then ([], cutAt '@' front, after '@' front)
  else (front, [], [])

/-- `chanmode_bounce_ban`. -/
def chanmodeBounceBan (systime : Nat) (cptr : Client) (chptr : Channel)
    (cmcptr : Chanmodechange) : Bounce :=
  match cmcptr.what with
  | .add =>
    let (nick, user, host) := splitMask cmcptr.arg
    let nick := maskPart charsIsnickchar 33 nick
    let user := maskPart charsIsuserchar 17 user
    let host := maskPart charsIshostchar 65 host
    chanmodeBounceMask systime cptr chptr
      { cmcptr with
        arg := strlcpy (nick ++ "!".toList ++ user ++ "@".toList ++ host) (prefixLen + 1)
        nmask := some nick
        umask := some user
        hmask := some host }
  | .del | .query => chanmodeBounceMask systime cptr chptr cmcptr

/-! ## The walk over the changes -/

/-- `cmcptr->mode->cb(lcptr, cptr, chptr, cuptr, lptr, cmcptr)`. -/
def callback (systime : Nat) (cptr : Client) (chptr : Channel)
    (cmcptr : Chanmodechange) : Bounce :=
  match cmcptr.mode.cb with
  | .chanmodeBounceSimple => chanmodeBounceSimple chptr cmcptr
  | .cmAlarmBounce => cmAlarmBounce chptr cmcptr
  | .cmInviteBounce => cmInviteBounce chptr cmcptr
  | .cmKeyBounce => cmKeyBounce chptr cmcptr
  | .cmLimitBounce => cmLimitBounce chptr cmcptr
  | .chanmodeBounceBan => chanmodeBounceBan systime cptr chptr cmcptr
  | .chanmodeBounceMask => chanmodeBounceMask systime cptr chptr cmcptr
  | .chanuserModeBounce => chanuserModeBounce chptr cmcptr

/-- The source of the changes: the client, and whether its member block came along. -/
structure Source where
  cptr : Client
  cuptr : Bool

/-- A local user whose member block has none of the privileges the mode needs. -/
def Source.Unprivileged (source : Source) (chptr : Channel) (cmcptr : Chanmodechange) :
    Prop :=
  source.cuptr ∧ cmcptr.what ≠ .query ∧ source.cptr.isUser ∧ source.cptr.isLocal ∧
    ∀ cuptr ∈ chptr.find source.cptr.id, Disjoint cuptr.flags cmcptr.mode.need

instance (source : Source) (chptr : Channel) (cmcptr : Chanmodechange) :
    Decidable (source.Unprivileged chptr cmcptr) :=
  inferInstanceAs (Decidable (_ ∧ _ ∧ _ ∧ _ ∧ _))

/-- The channel and the part of the list that the walk has come past. -/
structure Applied where
  chptr : Channel
  changes : List Chanmodechange

/-- One turn of `chanmode_apply`. -/
def applyOne (systime : Nat) (source : Source) (state : Applied)
    (cmcptr : Chanmodechange) : Applied :=
  if source.Unprivileged state.chptr cmcptr then
    ⟨state.chptr, state.changes ++ [{ cmcptr with bounced := cmcptr.bounced + 1 }]⟩
  else
    let b := callback systime source.cptr state.chptr cmcptr
    if b.ret = -2 ∨ b.ret = -1 ∨ b.ret = 1 ∨ (cmcptr.what = .query ∧ cmcptr.bounced = 0) then
      ⟨b.chptr, state.changes ++ b.inserted ++
        [{ b.cmcptr with bounced := b.cmcptr.bounced + 1 }]⟩
    else ⟨b.chptr, state.changes ++ b.inserted ++ [b.cmcptr]⟩

/-- `chanmode_apply`. -/
def chanmodeApply (systime : Nat) (source : Source) (chptr : Channel)
    (changes : List Chanmodechange) : Applied :=
  changes.foldl (applyOne systime source) ⟨chptr, []⟩

end Modes

end Chaosircd
