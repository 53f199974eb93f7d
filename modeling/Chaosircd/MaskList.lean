import Chaosircd.CString
import Mathlib.Data.Finset.Basic

/-!
# Channel modes: wildcard masks and mask lists

`str_match` runs one text along one mask with a single point of return, the
position after the last `*`, and gives up after 512 turns of its loop.  The mask
lists of a channel (`b`, `d`, `e`, `I` and the automatic privileges) are lists of
blocks that hold the whole mask and its nick, user and host parts; the join hooks
match a client against the parts, a deny mask is matched against the information
line alone.

Only the fields that the mode modules look at are kept in the blocks below.
-/

namespace Chaosircd

/-! ## The matcher -/

/-- The byte a pointer into `s` sees, the terminator included. -/
def byteAt (s : CString) (i : Nat) : Char :=
  s.getD i '\x00'

/-- The pointers of `str_match`: into the mask and the text, and where both go back to. -/
structure MatchCursor where
  m : Nat
  n : Nat
  ma : Nat
  na : Nat
  wild : Bool
  deriving DecidableEq

/-- `while(*m == '*') m++`. -/
def skipStars (mask : CString) (m : Nat) : Nat :=
  m + ((mask.drop m).takeWhile (· = '*')).length

/-- The walk back over `?` from the end of the mask to a `*` that is not its first byte. -/
def backToStar (mask : CString) : Nat → Bool
  | 0 => false
  | m + 1 =>
    if m = 0 then false
    else if byteAt mask m = '?' then backToStar mask m
    else byteAt mask m = '*'

/-- Back to the last `*`, which now takes one more byte of the text. -/
def MatchCursor.retry (c : MatchCursor) : MatchCursor :=
  { c with m := c.ma, n := c.na + 1, na := c.na + 1 }

/-- The comparison of two bytes at the end of a turn. -/
def matchByte (str mask : CString) (c : MatchCursor) : Bool ⊕ MatchCursor :=
  if byteAt mask c.m ≠ byteAt str c.n ∧ byteAt mask c.m ≠ '?' then
    if c.wild then .inr c.retry else .inl false
  else
    .inr { c with
      m := if byteAt mask c.m = '\x00' then c.m else c.m + 1
      n := if byteAt str c.n = '\x00' then c.n else c.n + 1 }

/-- A `*` under the mask pointer is taken and becomes the point of return. -/
def takeStars (mask : CString) (c : MatchCursor) : MatchCursor :=
  if byteAt mask c.m = '*' then
    { m := skipStars mask c.m, n := c.n, ma := skipStars mask c.m, na := c.n, wild := true }
  else c

/-- One turn of the loop of `str_match`: its answer, or the pointers it goes on with. -/
def matchTurn (str mask : CString) (start : MatchCursor) : Bool ⊕ MatchCursor :=
  let c := takeStars mask start
  if byteAt mask c.m = '\x00' then
    if byteAt str c.n = '\x00' then .inl true
    else if backToStar mask c.m then .inl true
    else if c.wild then matchByte str mask c.retry
    else .inl false
  else if byteAt str c.n = '\x00' then
    .inl (byteAt mask (skipStars mask c.m) = '\x00')
  else matchByte str mask c

/-- `while(calls++ < MATCH_MAX_CALLS)`, with the number of turns left. -/
def matchTurns (str mask : CString) : Nat → MatchCursor → Bool
  | 0, _ => false
  | calls + 1, c =>
    match matchTurn str mask c with
    | .inl answer => answer
    | .inr c => matchTurns str mask calls c

/-- `str_match(str, mask)`. -/
def strMatch (str mask : CString) : Bool :=
  matchTurns str mask 512 ⟨0, 0, 0, 0, false⟩

example : strMatch "nick!user@some.host".toList "*!us?r@*.host".toList = true := by
  repeat rw [String.toList_ofList]
  decide

namespace Modes

/-! ## The blocks -/

/-- `struct chanmodeitem`. -/
structure Chanmodeitem where
  mask : CString
  nmask : CString
  umask : CString
  hmask : CString
  info : CString
  ts : Nat
  ihash : Nat
  deriving DecidableEq

/-- `struct user`; an invitation is shown by the number of its channel.  `user_invite`
links no second invitation to a channel, so the list is a set. -/
structure User where
  name : CString
  uid : CString
  invites : Finset Nat
  deriving DecidableEq

/-- `struct client`. -/
structure Client where
  id : Nat
  isUser : Bool
  isLocal : Bool
  name : CString
  user : Option User
  host : CString
  hostreal : CString
  hostip : CString
  info : CString
  deriving DecidableEq

/-- `struct chanuser`: the member and its privileges. -/
structure Chanuser where
  client : Nat
  flags : Finset Char
  deriving DecidableEq

/-- `struct channel`; an invitation is shown by the number of its client. -/
structure Channel where
  id : Nat
  name : CString
  modes : Finset Char
  key : CString
  limit : Nat
  modelists : Char → List Chanmodeitem
  chanusers : List Chanuser
  invites : Finset Nat

/-! ## Matching a client against a list -/

/-- The nick and user parts of one entry: a client without a user block skips the second. -/
def Chanmodeitem.MatchesNick (cmiptr : Chanmodeitem) (cptr : Client) : Prop :=
  strMatch cptr.name cmiptr.nmask ∧
    ∀ uptr ∈ cptr.user, strMatch uptr.name cmiptr.umask

instance (cmiptr : Chanmodeitem) (cptr : Client) : Decidable (cmiptr.MatchesNick cptr) :=
  inferInstanceAs (Decidable (_ ∧ _))

/-- `chanmode_match_ban`. -/
def chanmodeMatchBan (cptr : Client) (mlptr : List Chanmodeitem) : Bool :=
  mlptr.any fun cmiptr =>
    cmiptr.MatchesNick cptr &&
      (strMatch cptr.host cmiptr.hmask || strMatch cptr.hostreal cmiptr.hmask ||
        strMatch cptr.hostip cmiptr.hmask)

/-- `chanmode_match_amode`: the host shown to others is left out. -/
def chanmodeMatchAmode (cptr : Client) (mlptr : List Chanmodeitem) : Bool :=
  mlptr.any fun cmiptr =>
    cmiptr.MatchesNick cptr &&
      (strMatch cptr.hostreal cmiptr.hmask || strMatch cptr.hostip cmiptr.hmask)

/-- `chanmode_match_deny`. -/
def chanmodeMatchDeny (cptr : Client) (mlptr : List Chanmodeitem) : Bool :=
  mlptr.any fun cmiptr => strMatch cptr.info cmiptr.mask

theorem chanmodeMatchBan_of_matchAmode {cptr : Client} {mlptr : List Chanmodeitem}
    (found : chanmodeMatchAmode cptr mlptr) : chanmodeMatchBan cptr mlptr := by
  simp only [chanmodeMatchAmode, List.any_eq_true] at found
  obtain ⟨cmiptr, member, fits⟩ := found
  simp only [chanmodeMatchBan, List.any_eq_true]
  refine ⟨cmiptr, member, ?_⟩
  grind

@[simp]
theorem chanmodeMatchBan_nil (cptr : Client) : chanmodeMatchBan cptr [] = false :=
  rfl

@[simp]
theorem chanmodeMatchDeny_nil (cptr : Client) : chanmodeMatchDeny cptr [] = false :=
  rfl

end Modes

end Chaosircd
