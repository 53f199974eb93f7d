import Chaosircd.DlinkLists

/-!
# Memberships and their four lists

A membership is a `struct chanuser`.  It is linked to the member list of its
channel, to one of the channel's lists of local and of remote members, and to the
channel list of its client.  `chanuser_add` links a new block at once; `NJOIN`
parses a whole line into new blocks first and links them afterwards.

Which client or channel a name stands for, and what the hooks answer, is part of
an event.
-/

namespace Chaosircd

namespace Memberships

open Dlink

/-- `struct chanuser`, its nodes, flags and texts apart. -/
structure Chanuser where
  channel : Nat
  client : Nat
  isLocal : Bool
  deriving DecidableEq

/-- The blocks in use, the four families of lists, the registered channels with whether they
are persistent, and the users with whether they are local.  The number of a block, of a
channel or of a client is never given a second time. -/
structure State where
  chanuser : Nat → Chanuser
  used : Nat → Bool
  chanuserHeap : Nat
  chanusers : Lists Nat Nat
  lchanusers : Lists Nat Nat
  rchanusers : Lists Nat Nat
  channels : Lists Nat Nat
  channel : Nat → Option Bool
  channelId : Nat
  client : Nat → Option Bool
  clientId : Nat

namespace State

/-- The daemon at its start. -/
def boot : State where
  chanuser := fun _ => ⟨0, 0, false⟩
  used := fun _ => false
  chanuserHeap := 0
  chanusers := Lists.empty
  lchanusers := Lists.empty
  rchanusers := Lists.empty
  channels := Lists.empty
  channel := fun _ => none
  channelId := 0
  client := fun _ => none
  clientId := 0

/-! ## Blocks -/

/-- A user appears. -/
def clientNew (s : State) (isLocal : Bool) : State :=
  { s with
    channels := s.channels.listZero s.clientId
    client := Function.update s.client s.clientId (some isLocal)
    clientId := s.clientId + 1 }

/-- `channel_new`. -/
def channelNew (s : State) : State :=
  { s with
    chanusers := s.chanusers.listZero s.channelId
    lchanusers := s.lchanusers.listZero s.channelId
    rchanusers := s.rchanusers.listZero s.channelId
    channel := Function.update s.channel s.channelId (some false)
    channelId := s.channelId + 1 }

/-- `chanuser_new`; the block is the next one of the heap. -/
def chanuserNew (s : State) (chptr cptr : Nat) : State :=
  { s with
    chanuser := Function.update s.chanuser s.chanuserHeap ⟨chptr, cptr, false⟩
    used := Function.update s.used s.chanuserHeap true
    chanuserHeap := s.chanuserHeap + 1 }

/-- The three `dlink_add_tail` of a membership. -/
def link (s : State) (cuptr chptr cptr : Nat) (isLocal : Bool) : State :=
  { s with
    chanusers := s.chanusers.addTail chptr cuptr
    lchanusers := if isLocal then s.lchanusers.addTail chptr cuptr else s.lchanusers
    rchanusers := if isLocal then s.rchanusers else s.rchanusers.addTail chptr cuptr
    channels := s.channels.addTail cptr cuptr }

/-- `chanuser_add`. -/
def chanuserAdd (s : State) (chptr cptr : Nat) : State :=
  match s.client cptr with
  | none => s
  | some isLocal =>
    let new := s.chanuserNew chptr cptr
    { new with
      chanuser := Function.update new.chanuser s.chanuserHeap
        { new.chanuser s.chanuserHeap with isLocal := isLocal } }.link
      s.chanuserHeap chptr cptr isLocal

/-- `chanuser_find` walks the channel list of the client. -/
def chanuserFind (s : State) (chptr cptr : Nat) : Option Nat :=
  if (s.client cptr).isSome then
    (s.channels.nodes cptr).find? fun cuptr => (s.chanuser cuptr).channel = chptr
  else none

/-- `chanuser_delete`. -/
def chanuserDelete (s : State) (cuptr : Nat) : State :=
  let block := s.chanuser cuptr
  { s with
    channels := s.channels.delete block.client cuptr
    chanusers := s.chanusers.delete block.channel cuptr
    lchanusers :=
      if block.isLocal then s.lchanusers.delete block.channel cuptr else s.lchanusers
    rchanusers :=
      if block.isLocal then s.rchanusers else s.rchanusers.delete block.channel cuptr
    used := Function.update s.used cuptr false }

/-- `channel_release`. -/
def channelRelease (s : State) (chptr : Nat) : State :=
  let left := foreachSafe (fun s cuptr => s.chanusers.links.next cuptr) chanuserDelete
    (s.chanusers.list chptr).size s (s.chanusers.list chptr).head
  { left with
    lchanusers := left.lchanusers.listZero chptr
    chanusers := left.chanusers.listZero chptr }

/-- `channel_delete`. -/
def channelDelete (s : State) (chptr : Nat) : State :=
  { s with channel := Function.update s.channel chptr none }.channelRelease chptr

/-! ## Joining -/

/-- `channel_join`; `refused` is the reply of the join hooks. -/
def channelJoin (s : State) (cptr : Nat) (chptr : Option Nat) (refused : Bool) : State :=
  match chptr with
  | some chptr =>
    if (s.chanuserFind chptr cptr).isSome then s
    else if refused then s
    else s.chanuserAdd chptr cptr
  | none => s.channelNew.chanuserAdd s.channelId cptr

/-- `chanuser_parse`: the new blocks, not linked yet, for the clients that the tokens of the
line stand for. -/
def chanuserParse (chptr : Nat) : State → List (Option Nat) → State × List Nat
  | s, [] => (s, [])
  | s, none :: uv => chanuserParse chptr s uv
  | s, some acptr :: uv =>
    if s.client acptr ≠ some false ∨ (s.chanuserFind chptr acptr).isSome then
      chanuserParse chptr s uv
    else
      let parsed := chanuserParse chptr (s.chanuserNew chptr acptr) uv
      (parsed.1, s.chanuserHeap :: parsed.2)

/-- The last loop of `ms_njoin`. -/
def linkUsers (s : State) (chptr : Nat) (chanusers : List Nat) : State :=
  chanusers.foldl (fun s cuptr => s.link cuptr chptr (s.chanuser cuptr).client false) s

/-- `ms_njoin` on a channel that is registered or on a new one. -/
def msNjoin (s : State) (chptr : Option Nat) (uv : List (Option Nat)) : State :=
  let found :=
    match chptr with
    | some chptr => (s, chptr)
    | none => (s.channelNew, s.channelId)
  let parsed := chanuserParse found.2 found.1 uv
  parsed.1.linkUsers found.2 parsed.2

/-! ## Leaving -/

/-- The test of `m_part` for a channel that is to be kept. -/
def IsPersistent (s : State) (chptr : Nat) : Prop :=
  s.channel chptr = some true

instance (s : State) (chptr : Nat) : Decidable (s.IsPersistent chptr) :=
  inferInstanceAs (Decidable (_ = _))

/-- `m_part`; `isOwner` is `chanuser_is_owner`. -/
def mPart (s : State) (cptr chptr : Nat) (isOwner : Bool) : State :=
  match s.chanuserFind chptr cptr with
  | none => s
  | some cuptr =>
    if isOwner ∧ s.client cptr = some true ∧ s.IsPersistent chptr then s
    else
      let left := s.chanuserDelete cuptr
      if (left.chanusers.list chptr).size = 0 ∧ ¬ left.IsPersistent chptr then
        left.channelDelete chptr
      else left

/-- `ms_part`. -/
def msPart (s : State) (cptr chptr : Nat) : State :=
  match s.chanuserFind chptr cptr with
  | none => s
  | some cuptr =>
    let left := s.chanuserDelete cuptr
    if (left.chanusers.list chptr).size = 0 then left.channelDelete chptr else left

/-- One round of `chanuser_kick`: the client that the target names, and the answer of the
kick hooks. -/
def chanuserKickOne (s : State) (chptr : Nat) (target : Option Nat × Bool) : State :=
  match target.1.bind fun acptr => s.chanuserFind chptr acptr with
  | none => s
  | some acuptr => if target.2 then s.chanuserDelete acuptr else s

/-- `chanuser_kick`. -/
def chanuserKick (s : State) (chptr : Nat) (targets : List (Option Nat × Bool)) : State :=
  targets.foldl (fun s target => s.chanuserKickOne chptr target) s

/-- One turn of the loops over the channels of a client that goes away; `client_vexit`
spares persistent channels, `server_split` does not. -/
def leaveOne (spare : Bool) (s : State) (cuptr : Nat) : State :=
  let chptr := (s.chanuser cuptr).channel
  let left := s.chanuserDelete cuptr
  if (left.chanusers.list chptr).size = 0 ∧ ¬ (spare ∧ left.IsPersistent chptr) then
    left.channelDelete chptr
  else left

/-- A loop over the channel list of a client. -/
def foreachChannel (s : State) (cptr : Nat) (body : State → Nat → State) : State :=
  foreachSafe (fun s cuptr => s.channels.links.next cuptr) body
    (s.channels.list cptr).size s (s.channels.list cptr).head

/-- `user_release` and the end of the client. -/
def clientDelete (s : State) (cptr : Nat) : State :=
  let released := s.foreachChannel cptr chanuserDelete
  { released with client := Function.update released.client cptr none }

/-- `client_vexit` of a user. -/
def clientVexit (s : State) (cptr : Nat) : State :=
  (s.foreachChannel cptr (leaveOne true)).clientDelete cptr

/-- `server_split` for one of the users behind the lost servers. -/
def splitOne (s : State) (cptr : Nat) : State :=
  if (s.client cptr).isSome then
    (s.foreachChannel cptr (leaveOne false)).clientDelete cptr
  else s

/-- `server_split` for all users behind the lost servers. -/
def serverSplit (s : State) (users : List Nat) : State :=
  users.foldl splitOne s

/-! ## Events -/

/-- The channel, where there is one, is registered. -/
def Registered (s : State) (chptr : Option Nat) : Prop :=
  ∀ id ∈ chptr, (s.channel id).isSome

instance (s : State) (chptr : Option Nat) : Decidable (s.Registered chptr) :=
  inferInstanceAs (Decidable (∀ id ∈ chptr, _))

end State

/-- What happens to the memberships, and what can happen in between. -/
inductive Event where
  | user (isLocal : Bool)
  | mode (chptr : Nat) (persistent : Bool)
  | join (cptr : Nat) (chptr : Option Nat) (refused : Bool)
  | njoin (chptr : Option Nat) (uv : List (Option Nat))
  | part (cptr chptr : Nat) (isOwner : Bool)
  | remotePart (cptr chptr : Nat)
  | kick (chptr : Nat) (targets : List (Option Nat × Bool))
  | quit (cptr : Nat)
  | split (users : List Nat)
  deriving DecidableEq

/-- An event that names a channel or a client that is not there does not happen. -/
def State.step (s : State) : Event → State
  | .user isLocal => s.clientNew isLocal
  | .mode chptr persistent =>
    if s.Registered (some chptr) then
      { s with channel := Function.update s.channel chptr (some persistent) }
    else s
  | .join cptr chptr refused =>
    if (s.client cptr).isSome ∧ s.Registered chptr then s.channelJoin cptr chptr refused else s
  | .njoin chptr uv => if s.Registered chptr then s.msNjoin chptr uv else s
  | .part cptr chptr isOwner =>
    if s.Registered (some chptr) then s.mPart cptr chptr isOwner else s
  | .remotePart cptr chptr => if s.Registered (some chptr) then s.msPart cptr chptr else s
  | .kick chptr targets =>
    if s.Registered (some chptr) then s.chanuserKick chptr targets else s
  | .quit cptr => if (s.client cptr).isSome then s.clientVexit cptr else s
  | .split users => s.serverSplit users

end Memberships

end Chaosircd
