import Chaosircd.Netjoin
import Chaosircd.Registration
import Chaosircd.ServerTree
import Chaosircd.TransitionSystem

/-!
# The daemon as a transition system

One event is one thing the daemon reacts to: a line from a client or a server,
the answer of a registration query, a lost connection, a moving clock.  What the
daemon leaves to hooks or to chance is part of the event.
-/

namespace Chaosircd

/-- What happens to the daemon.  A connection is given by its identifier `l`, the
prefix of a line from a server by `pfx`. -/
inductive Event where
  | tick (systime : Nat)
  | accept (capUid : Bool)
  | mrNick (l : Nat) (nick : CString) (hooks : LoginHooks)
  | mrUser (l : Nat) (user uid : CString) (hooks : LoginHooks)
  | cookieDone (l : Nat) (hooks : LoginHooks)
  | authDone (l : Nat) (hooks : LoginHooks)
  | mNick (l : Nat) (args : List CString)
  | msNick (l : Nat) (pfx : Option CString) (args : List CString)
  | msNuser (l : Nat) (pfx : Option CString) (args : List CString)
      (randomNick : CString)
  | msNbounce (l : Nat) (pfx : Option CString) (args : List CString)
  | exit (cptr : Nat)
  | linkLoss (l : Nat)
  | serverLogin (l : Nat) (name : CString) (capUid : Bool)
  | msNserver (l : Nat) (pfx : Option CString) (uplink name : CString)
  | moSquit (name : CString)
  | msNquit (l : Nat) (pfx : Option CString) (name : CString)
  | mJoin (l : Nat) (names : CString) (hooks : Nat → JoinHooks)
  | msNjoin (l : Nat) (pfx : Option CString) (name tsArg members : CString)
  | mPart (l : Nat) (name : CString)
  | msPart (l : Nat) (pfx : Option CString) (name : CString)
  | mKick (l : Nat) (name targets : CString) (halfop : Nat → Bool)
  | msKick (l : Nat) (pfx : Option CString) (name targets : CString)
      (halfop : Nat → Bool)
  | changeFlag (chptr : Nat) (what : Channel.What) (letter : Char)

namespace Ircd

/-- The connection block that `lclient_accept` links. -/
def newLclient (ircd : Ircd) (capUid : Bool) : Lclient where
  id := ircd.lclientId
  type := .unknown
  name := []
  user := none
  client := none
  capUid := capUid
  cookiePending := false
  authPending := false

/-- `lclient_accept`. -/
def lclientAccept (ircd : Ircd) (capUid : Bool) : Ircd :=
  { ircd with
    lclients := ircd.lclients ++ [ircd.newLclient capUid]
    lclientId := ircd.lclientId + 1 }

/-- A line from a connection that has not registered. -/
def fromUnknown (ircd : Ircd) (l : Nat) (handler : Lclient → Ircd) : Ircd :=
  match ircd.lclient? l with
  | some lcptr => if lcptr.type = .unknown then handler lcptr else ircd
  | none => ircd

/-- The connection and the client that a line from a local user is handled
for. -/
def userLine (ircd : Ircd) (l : Nat) : Option (Lclient × Client) :=
  (ircd.lclient? l).bind fun lcptr =>
    if lcptr.type = .user then
      (lcptr.client.bind ircd.client?).map fun cptr => (lcptr, cptr)
    else none

/-- The connection and the client that a line from a linked server is handled
for; it is dropped when it comes from an unknown client or from the wrong
direction.  The daemon's own connection block has no descriptor, so nothing is
read from it. -/
def serverLine (ircd : Ircd) (l : Nat) (pfx : Option CString) :
    Option (Lclient × Client) :=
  (ircd.lclient? l).bind fun lcptr =>
    if lcptr.type = .server ∧ lcptr.id ≠ ircd.lclientMe then
      (ircd.lineSource lcptr pfx).map fun cptr => (lcptr, cptr)
    else none

/-- A line from a local user. -/
def fromUser (ircd : Ircd) (l : Nat) (handler : Lclient → Client → Ircd) :
    Ircd :=
  match ircd.userLine l with
  | some (lcptr, cptr) => handler lcptr cptr
  | none => ircd

/-- A line from a linked server. -/
def fromServer (ircd : Ircd) (l : Nat) (pfx : Option CString)
    (handler : Lclient → Client → Option Ircd) : Option Ircd :=
  match ircd.serverLine l pfx with
  | some (lcptr, cptr) => handler lcptr cptr
  | none => some ircd

/-- One event. -/
def step (table : ChanmodeTable) (ircd : Ircd) : Event → Option Ircd
  | .tick systime => some { ircd with systime := systime }
  | .accept capUid => some (ircd.lclientAccept capUid)
  | .mrNick l nick hooks =>
      some (ircd.fromUnknown l fun _ => ircd.mrNick l nick hooks)
  | .mrUser l user uid hooks =>
      some (ircd.fromUnknown l fun _ => ircd.mrUser l user uid hooks)
  | .cookieDone l hooks => some (ircd.cookieDone l hooks)
  | .authDone l hooks => some (ircd.authDone l hooks)
  | .mNick l args =>
      some (ircd.fromUser l fun lcptr cptr => (ircd.mNick lcptr.id cptr args).1)
  | .msNick l pfx args =>
      ircd.fromServer l pfx fun lcptr cptr =>
        some (ircd.msNick lcptr.id cptr args).1
  | .msNuser l pfx args randomNick =>
      ircd.fromServer l pfx fun lcptr cptr =>
        some (ircd.msNuser lcptr.id cptr args randomNick).1
  | .msNbounce l pfx args =>
      ircd.fromServer l pfx fun lcptr cptr =>
        some (ircd.msNbounce lcptr cptr args).1
  | .exit cptr =>
      match ircd.client? cptr with
      | some found =>
          some (if found.IsUser then ircd.clientVexit cptr else ircd)
      | none => some ircd
  | .linkLoss l =>
      some (if l = ircd.lclientMe then ircd else ircd.lclientVexit l)
  | .serverLogin l name capUid =>
      some (ircd.fromUnknown l fun lcptr =>
        ircd.serverLogin lcptr name capUid)
  | .msNserver l pfx uplink name =>
      ircd.fromServer l pfx fun lcptr _ => ircd.msNserver lcptr.id uplink name
  | .moSquit name => some (ircd.moSquit name)
  | .msNquit l pfx name =>
      ircd.fromServer l pfx fun _ _ => some (ircd.msNquit name)
  | .mJoin l names hooks =>
      some (ircd.fromUser l fun _ cptr => ircd.mJoin cptr.id names hooks)
  | .msNjoin l pfx name tsArg members =>
      ircd.fromServer l pfx fun lcptr cptr =>
        some (ircd.msNjoin table lcptr cptr name tsArg members)
  | .mPart l name =>
      some (ircd.fromUser l fun _ cptr => ircd.mPart cptr name)
  | .msPart l pfx name =>
      ircd.fromServer l pfx fun _ cptr => some (ircd.msPart cptr name)
  | .mKick l name targets halfop =>
      some (ircd.fromUser l fun lcptr cptr =>
        ircd.mKick lcptr cptr name targets halfop)
  | .msKick l pfx name targets halfop =>
      ircd.fromServer l pfx fun lcptr cptr =>
        some (ircd.mKick lcptr cptr name targets halfop)
  | .changeFlag chptr what letter => some (ircd.changeFlag chptr what letter)

/-- The state a daemon starts in: its own server client and connection. -/
def boot (name : CString) (systime : Nat) : Ircd where
  clients :=
    [⟨0, true, .server name, 0, none, strlcpy name (hostLen + 1),
      strIhash (strlcpy name (hostLen + 1)), systime⟩]
  clientListsn := fun _ => []
  clientHistory := fun _ => []
  clientId := 1
  clientMe := 0
  lclients :=
    [{ id := 0, type := .server, name := strlcpy name (nickLen + 1),
       user := none, client := some 0, capUid := false, cookiePending := false,
       authPending := false,
       name_fits := strlcpy_nickLen_le name }]
  lclientId := 1
  lclientMe := 0
  channels := []
  channelId := 0
  systime := systime

/-- A line that reaches its handler satisfies a condition on its connection and
its sender. -/
def FromServer (ircd : Ircd) (l : Nat) (pfx : Option CString)
    (condition : Lclient → Client → Prop) : Prop :=
  ∀ lcptr cptr, ircd.serverLine l pfx = some (lcptr, cptr) →
    condition lcptr cptr

/-- `ms_nuser` passes its checks and looks at the nick. -/
def NuserAccepted (ircd : Ircd) (cptr : Client)
    (nick user server uid : CString) : Prop :=
  cptr.IsServer ∧ ircd.userFindUid uid = none ∧ charsValidNick nick ∧
    charsValidUser user ∧ ircd.serverFindName server ≠ none

theorem serverLine_eq_some {ircd : Ircd} {l : Nat} {pfx : Option CString}
    {lcptr : Lclient} {cptr : Client}
    (reached : ircd.serverLine l pfx = some (lcptr, cptr)) :
    ircd.lclient? l = some lcptr ∧
      (lcptr.type = .server ∧ lcptr.id ≠ ircd.lclientMe) ∧
        ircd.lineSource lcptr pfx = some cptr := by
  obtain ⟨other, found, reached⟩ := Option.bind_eq_some_iff.mp reached
  split_ifs at reached with isServer
  obtain ⟨sender, isSender, same⟩ := Option.map_eq_some_iff.mp reached
  cases same
  exact ⟨found, isServer, isSender⟩

theorem userLine_eq_some {ircd : Ircd} {l : Nat} {lcptr : Lclient}
    {cptr : Client} (reached : ircd.userLine l = some (lcptr, cptr)) :
    ircd.lclient? l = some lcptr ∧ lcptr.type = .user ∧
      lcptr.client = some cptr.id ∧ ircd.client? cptr.id = some cptr := by
  obtain ⟨other, found, reached⟩ := Option.bind_eq_some_iff.mp reached
  split_ifs at reached with isUser
  obtain ⟨sender, isSender, same⟩ := Option.map_eq_some_iff.mp reached
  cases same
  obtain ⟨id, isClient, shown⟩ := Option.bind_eq_some_iff.mp isSender
  obtain rfl := id_of_client? shown
  exact ⟨found, isUser, isClient, shown⟩

/-- A line from a server is dropped, or its handler runs for a client of the
table. -/
theorem fromServer_cases {ircd next : Ircd} {l : Nat} {pfx : Option CString}
    {handler : Lclient → Client → Option Ircd}
    (stepped : ircd.fromServer l pfx handler = some next) :
    (ircd.serverLine l pfx = none ∧ next = ircd) ∨ ∃ lcptr cptr,
      ircd.serverLine l pfx = some (lcptr, cptr) ∧
        handler lcptr cptr = some next := by
  unfold fromServer at stepped
  split at stepped
  · rename_i lcptr cptr reached
    exact .inr ⟨lcptr, cptr, reached, stepped⟩
  · rename_i dropped
    exact .inl ⟨dropped, (Option.some.inj stepped).symm⟩

/-- A line from a local user has no effect, or its handler runs for a client of
the table. -/
theorem fromUser_cases (ircd : Ircd) (l : Nat)
    (handler : Lclient → Client → Ircd) :
    (ircd.userLine l = none ∧ ircd.fromUser l handler = ircd) ∨ ∃ lcptr cptr,
      ircd.userLine l = some (lcptr, cptr) ∧
        ircd.fromUser l handler = handler lcptr cptr := by
  unfold fromUser
  split
  · rename_i lcptr cptr reached
    exact .inr ⟨lcptr, cptr, reached, rfl⟩
  · rename_i dropped
    exact .inl ⟨dropped, rfl⟩

/-- A line from a connection that has not registered has no effect, or its
handler runs. -/
theorem fromUnknown_cases (ircd : Ircd) (l : Nat) (handler : Lclient → Ircd) :
    ircd.fromUnknown l handler = ircd ∨ ∃ lcptr,
      ircd.lclient? l = some lcptr ∧ lcptr.type = .unknown ∧
        ircd.fromUnknown l handler = handler lcptr := by
  unfold fromUnknown
  split
  · rename_i lcptr isLcptr
    split_ifs with unknown
    · exact .inr ⟨lcptr, isLcptr, unknown, rfl⟩
    · exact .inl rfl
  · exact .inl rfl

end Ircd

end Chaosircd
