import Chaosircd.CString
import Mathlib.Data.Finset.Basic

/-!
# The state of one server

Clients, local connections and channels are the records of the daemon's global
lists.  A pointer to a record is modelled by its identifier: the counter value
it was created with, which the daemon never reuses.  Lists that the daemon
derives from another list are views here: the dependants of a server are the
clients whose origin it is, the channels of a user are the channels that list
it as a member, and the members of a channel are kept in one list.

Bit fields of mode letters (`CHFLG`) are finite sets of letters.
-/

namespace Chaosircd

/-- `IRCD_NICKLEN`. -/
def nickLen : Nat := 32

/-- `IRCD_HOSTLEN`; the name of a client has this length at most. -/
def hostLen : Nat := 64

/-- `IRCD_IDLEN`. -/
def idLen : Nat := 8

/-- `IRCD_CHANNELLEN`. -/
def channelLen : Nat := 128

/-- `IRCD_MAXCHANNELS`. -/
def maxChannels : Nat := 16

/-- `IRCD_MAXTARGETS`. -/
def maxTargets : Nat := 4

/-- `CLIENT_HASH_SIZE`, the number of buckets of the nick index. -/
def clientHashSize : Nat := 32

/-- `CLIENT_HISTORY_SIZE`, the capacity of a bucket of the nick history. -/
def clientHistorySize : Nat := 64

/-- The part of `struct user` that identifies a user. -/
structure User where
  name : CString
  uid : CString
  deriving DecidableEq

/-- The type of a client together with the record that belongs to that type:
a user client always has its `struct user`, a server client its
`struct server` (kept by its name). -/
inductive ClientKind where
  | user (user : User)
  | server (name : CString)
  deriving DecidableEq

/-- The type of a client alone. -/
def ClientKind.isUser : ClientKind → Bool
  | .user _ => true
  | .server _ => false

/-- `struct client`.  `source` is the connection it is reached through, `origin`
the client of the server it is on (none for this server's own client). -/
structure Client where
  id : Nat
  isLocal : Bool
  kind : ClientKind
  source : Nat
  origin : Option Nat
  name : CString
  hash : Nat
  ts : Nat
  deriving DecidableEq

namespace Client

/-- `client_is_user`. -/
def IsUser (cptr : Client) : Prop :=
  cptr.kind.isUser

instance (cptr : Client) : Decidable cptr.IsUser :=
  inferInstanceAs (Decidable (_ = true))

/-- `client_is_server`. -/
def IsServer (cptr : Client) : Prop :=
  ¬ cptr.IsUser

instance (cptr : Client) : Decidable cptr.IsServer :=
  inferInstanceAs (Decidable (¬ _))

/-- `cptr->user->uid`, empty when there is no user record. -/
def uid (cptr : Client) : CString :=
  match cptr.kind with
  | .user user => user.uid
  | .server _ => []

/-- `cptr->server->name`, when the client is a server. -/
def serverName (cptr : Client) : Option CString :=
  match cptr.kind with
  | .user _ => none
  | .server name => some name

end Client

/-- `lclient->type`. -/
inductive LclientType where
  | unknown
  | user
  | server
  deriving DecidableEq

theorem strlcpy_nickLen_le (name : CString) :
    (strlcpy name (nickLen + 1)).length ≤ nickLen :=
  Nat.le_of_lt_succ (strlcpy_length_lt name (by decide))

/-- `struct lclient`, one local connection.  Two fields record which asynchronous
registration query is outstanding for it. -/
structure Lclient where
  id : Nat
  type : LclientType
  name : CString
  user : Option User
  client : Option Nat
  capUid : Bool
  cookiePending : Bool
  authPending : Bool
  name_fits : name.length ≤ nickLen := by decide
  deriving DecidableEq

/-- The name field as `lclient_set_name` writes it. -/
def Lclient.setName (lcptr : Lclient) (name : CString) : Lclient :=
  { lcptr with
    name := strlcpy name (nickLen + 1)
    name_fits := strlcpy_nickLen_le name }

/-- `struct history`. -/
structure History where
  nick : CString
  hash : Nat
  client : Nat
  deriving DecidableEq

/-- `struct chanuser`: one membership with its privilege letters. -/
structure Chanuser where
  client : Nat
  flags : Finset Char
  deriving DecidableEq

/-- `struct chanmodeitem`: one entry of a mask list. -/
structure Chanmodeitem where
  mask : CString
  info : CString
  ts : Nat
  deriving DecidableEq

/-- `struct channel`. -/
structure Channel where
  id : Nat
  name : CString
  ts : Nat
  chanusers : List Chanuser
  modes : Finset Char
  key : CString
  limit : Nat
  modelists : Char → List Chanmodeitem
  topic : CString
  topicInfo : CString
  topicTs : Nat

/-- The lists and counters of one daemon. -/
structure Ircd where
  clients : List Client
  clientListsn : Nat → List Nat
  clientHistory : Nat → List History
  clientId : Nat
  clientMe : Nat
  lclients : List Lclient
  lclientId : Nat
  lclientMe : Nat
  channels : List Channel
  channelId : Nat
  systime : Nat

namespace Ircd

/-- The client record behind a client pointer. -/
def client? (ircd : Ircd) (id : Nat) : Option Client :=
  ircd.clients.find? (fun cptr => cptr.id = id)

/-- The connection record behind a connection pointer. -/
def lclient? (ircd : Ircd) (id : Nat) : Option Lclient :=
  ircd.lclients.find? (fun lcptr => lcptr.id = id)

/-- Writing through a client pointer. -/
def updateClient (ircd : Ircd) (id : Nat) (change : Client → Client) : Ircd :=
  { ircd with
    clients := ircd.clients.map fun cptr =>
      if cptr.id = id then change cptr else cptr }

/-- Writing through a connection pointer. -/
def updateLclient (ircd : Ircd) (id : Nat) (change : Lclient → Lclient) :
    Ircd :=
  { ircd with
    lclients := ircd.lclients.map fun lcptr =>
      if lcptr.id = id then change lcptr else lcptr }

/-- Writing through a channel pointer. -/
def updateChannel (ircd : Ircd) (id : Nat) (change : Channel → Channel) :
    Ircd :=
  { ircd with
    channels := ircd.channels.map fun chptr =>
      if chptr.id = id then change chptr else chptr }

/-- `dlink_delete(&client_listsn[hash % CLIENT_HASH_SIZE], &cptr->nnode)`. -/
def unlinkNick (ircd : Ircd) (hash id : Nat) : Ircd :=
  { ircd with
    clientListsn := fun bucket =>
      if bucket = hash % clientHashSize then
        (ircd.clientListsn bucket).filter (· ≠ id)
      else ircd.clientListsn bucket }

/-- `dlink_add_head(&client_listsn[hash % CLIENT_HASH_SIZE], &cptr->nnode, cptr)`. -/
def linkNick (ircd : Ircd) (hash id : Nat) : Ircd :=
  { ircd with
    clientListsn := fun bucket =>
      if bucket = hash % clientHashSize then id :: ircd.clientListsn bucket
      else ircd.clientListsn bucket }

end Ircd

end Chaosircd
