import Chaosircd.ChannelTable
import Chaosircd.NickHandlers

/-!
# The tree of servers

Every client records the connection it is reached through and the server it is
on.  Remote servers and users are created from lines that name that server, and
when a server goes, the clients recorded on it go with it, down the tree.

The dependants of a server are the clients whose origin it is.  The recursion of
`server_split` follows the origins; since a server is created after its uplink,
the number of clients bounds its depth.
-/

namespace Chaosircd

namespace Ircd

/-- `sptr->deps[CLIENT_USER]`. -/
def userDeps (ircd : Ircd) (sptr : Nat) : List Nat :=
  (ircd.clients.filter fun cptr =>
    cptr.IsUser ∧ cptr.origin = some sptr).map Client.id

/-- `sptr->deps[CLIENT_SERVER]`. -/
def serverDeps (ircd : Ircd) (sptr : Nat) : List Nat :=
  (ircd.clients.filter fun cptr =>
    cptr.IsServer ∧ cptr.origin = some sptr).map Client.id

/-- The loop body of `server_split` for a user: an emptied channel is deleted
whatever its modes. -/
def splitUser (ircd : Ircd) (cptr : Nat) : Ircd :=
  (ircd.leaveChannels cptr fun _ => False).clientDelete cptr

/-- `server_split`. -/
def serverSplit : Nat → Ircd → Nat → Ircd
  | 0, ircd, _ => ircd
  | depth + 1, ircd, sptr =>
      let usersGone := (ircd.userDeps sptr).foldl splitUser ircd
      (usersGone.serverDeps sptr).foldl
        (fun ircd cptr => (serverSplit depth ircd cptr).clientDelete cptr)
        usersGone

/-- The end of `lclient_vexit`: the connection is gone. -/
def lclientDelete (ircd : Ircd) (lcptr : Nat) : Ircd :=
  { ircd with lclients := ircd.lclients.filter fun other => other.id ≠ lcptr }

/-- `client_vexit`.  A user leaves its channels, keeping the persistent ones; a
server takes its part of the tree with it; the connection of a local client is
closed. -/
def clientVexit (ircd : Ircd) (id : Nat) : Ircd :=
  match ircd.client? id with
  | none => ircd
  | some cptr =>
      let released :=
        if cptr.IsUser then
          (ircd.leaveChannels id Channel.IsPersistent).clientHistoryClean id
        else serverSplit ircd.clients.length ircd id
      let closed :=
        if cptr.isLocal then released.lclientDelete cptr.source else released
      closed.clientDelete id

/-- `lclient_vexit`: a connection is lost.  The server or the user on it goes
with it. -/
def lclientVexit (ircd : Ircd) (lcptr : Nat) : Ircd :=
  match ircd.lclient? lcptr with
  | none => ircd
  | some found =>
      match found.client with
      | none => ircd.lclientDelete lcptr
      | some id => (ircd.clientVexit id).lclientDelete lcptr

/-- `server_login` of a connection that announces its name and capabilities,
from the point where the peer is accepted. -/
def serverLogin (ircd : Ircd) (lcptr : Lclient) (name : CString)
    (capUid : Bool) : Ircd :=
  let announced := { lcptr.setName name with capUid := capUid }
  let known := ircd.updateLclient lcptr.id fun _ => announced
  if known.serverFindName announced.name ≠ none then
    known.lclientDelete lcptr.id
  else known.clientNewLocal (.server announced.name) announced

/-- `ms_nserver`.  When the uplink is unknown the handler dereferences a null
pointer after logging; no state is reached from there. -/
def msNserver (ircd : Ircd) (lcptr : Nat) (uplink name : CString) :
    Option Ircd :=
  if ircd.serverFindName name ≠ none then some (ircd.lclientVexit lcptr)
  else
    (ircd.serverFindName uplink).map fun sptr =>
      ircd.clientNewRemote (.server (strlcpy name (hostLen + 1))) lcptr sptr.id
        (strlcpy name (hostLen + 1)) 0

/-- `mo_squit` with one argument, as far as it changes this server's state: a
server that is linked here is dropped, for any other the command is passed
on. -/
def moSquit (ircd : Ircd) (name : CString) : Ircd :=
  match ircd.serverFindName name with
  | none => ircd
  | some asptr =>
      if asptr.isLocal ∧ asptr.id ≠ ircd.clientMe then ircd.clientVexit asptr.id
      else ircd

/-- `ms_nquit`. -/
def msNquit (ircd : Ircd) (name : CString) : Ircd :=
  match ircd.serverFindName name with
  | none => ircd
  | some sptr =>
      if sptr.id = ircd.clientMe then ircd else ircd.clientVexit sptr.id

end Ircd

end Chaosircd
