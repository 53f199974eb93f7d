import Chaosircd.Chars
import Chaosircd.ClientTable
import Chaosircd.Numerals

/-!
# The handlers that name users

A line is kept the way `lclient_command` hands it to a handler: the prefix, if
there is one, the command and the arguments it was tokenised into.  The handlers
here rename or introduce users, and answer or relay with lines of their own.
Lines for the daemon's local users are not modelled.
-/

namespace Chaosircd

/-- A tokenised line: `argv[0]`, `argv[1]` and the arguments from `argv[2]`. -/
structure Line where
  pfx : Option CString
  command : CString
  args : List CString
  deriving DecidableEq

/-- A line queued on a connection. -/
structure Send where
  lclient : Nat
  line : Line
  deriving DecidableEq

namespace Ircd

/-- The name of this server's own client. -/
def meName (ircd : Ircd) : CString :=
  ((ircd.client? ircd.clientMe).map Client.name).getD []

/-- `server_send(one, NULL, CAP_UID, CAP_NONE, ...)`, and with the two masks
exchanged when `capUid` is false: to every linked server but one. -/
def serverSend (ircd : Ircd) (one : Option Nat) (capUid : Bool)
    (line : Line) : List Send :=
  (ircd.lclients.filter fun lcptr =>
    lcptr.type = .server ∧ some lcptr.id ≠ one ∧ lcptr.id ≠ ircd.lclientMe ∧
      lcptr.capUid = capUid).map fun lcptr => ⟨lcptr.id, line⟩

/-- `client_nick`. -/
def clientNick (ircd : Ircd) (lcptr : Nat) (cptr : Client) (nick : CString) :
    Ircd × List Send :=
  let stamped := ircd.setTs cptr.id ircd.systime
  let args := [nick, formatLu ircd.systime]
  let sends :=
    if cptr.IsUser then
      stamped.serverSend (some lcptr) true ⟨some cptr.uid, "NICK".toList, args⟩ ++
        stamped.serverSend (some lcptr) false
          ⟨some cptr.name, "NICK".toList, args⟩
    else []
  (stamped.clientSetName cptr.id nick, sends)

/-- `ms_nick`: the time stamp of the line is a `uint32_t`. -/
def msNick (ircd : Ircd) (lcptr : Nat) (cptr : Client) (args : List CString) :
    Ircd × List Send :=
  match args with
  | nick :: tsArg :: _ =>
      let ts := strToul tsArg % 2 ^ 32
      let (renamed, sends) := ircd.clientNick lcptr cptr nick
      (renamed.setTs cptr.id ts, sends)
  | _ => (ircd, [])

/-- `m_nick`, for a local user. -/
def mNick (ircd : Ircd) (lcptr : Nat) (cptr : Client) (args : List CString) :
    Ircd × List Send :=
  match args with
  | [] => (ircd, [])
  | nickArg :: _ =>
      let nick := strlcpy nickArg nickLen
      if charsValidNick nick then
        match ircd.clientFindNick nick with
        | some acptr =>
            if acptr.id = cptr.id then
              if acptr.name ≠ nick then ircd.clientNick lcptr cptr nick
              else (ircd, [])
            else (ircd, [])
        | none => ircd.clientNick lcptr cptr nick
      else (ircd, [])

/-- How `ms_nbounce` finds the user that the line is about. -/
def nbounceTarget (ircd : Ircd) (lcptr : Lclient) (user : CString) :
    Option Client :=
  if lcptr.capUid then ircd.clientFindUid user else ircd.clientFindNick user

/-- `ms_nbounce`. -/
def msNbounce (ircd : Ircd) (lcptr : Lclient) (cptr : Client)
    (args : List CString) : Ircd × List Send :=
  match args with
  | user :: nick :: tsArg :: _ =>
      match ircd.nbounceTarget lcptr user with
      | none => (ircd, [])
      | some acptr =>
          let ts := strToul tsArg
          let stamped := ircd.setTs acptr.id ts
          let line (user : CString) : Line :=
            ⟨some cptr.name, "NBOUNCE".toList, [user, nick, formatLu ts]⟩
          let sends :=
            stamped.serverSend (some lcptr.id) true (line acptr.uid) ++
              stamped.serverSend (some lcptr.id) false (line acptr.name)
          (stamped.clientSetName acptr.id nick, sends)
  | _ => (ircd, [])

/-- The nick under which `ms_nuser` registers a user whose own nick is taken:
the turned nick, or a random one when that is taken too. -/
def nuserRename (ircd : Ircd) (nick randomNick : CString) : CString :=
  (ircd.clientNickRotate nick).getD randomNick

/-- `ms_nuser`.  The loop of `client_nick_random` ends with a nick that no
client answers to; that nick is a parameter here. -/
def msNuser (ircd : Ircd) (lcptr : Nat) (cptr : Client) (args : List CString)
    (randomNick : CString) : Ircd × List Send :=
  match args with
  | [nick, _, tsArg, _, user, _, _, server, uid, _] =>
      let kill (reason : CString) : List Send :=
        [⟨cptr.source, none, "KILL".toList, [uid, reason]⟩]
      if cptr.IsServer then
        if ircd.userFindUid uid ≠ none then
          (ircd, kill "UID collision".toList)
        else if !charsValidNick nick then
          (ircd, kill "Invalid nickname".toList)
        else if !charsValidUser user then
          (ircd, kill "Invalid username".toList)
        else
          match ircd.serverFindName server with
          | none => (ircd, kill "Invalid origin".toList)
          | some sptr =>
              let ts := strToul tsArg
              let register (nick : CString) (ts : Nat) : Ircd :=
                ircd.clientNewRemote
                  (.user ⟨strlcpy user 17, strlcpy uid (idLen + 1)⟩)
                  lcptr sptr.id nick ts
              match ircd.clientFindNick nick with
              | none => (register nick ts, [])
              | some acptr =>
                  if timeT acptr.ts ≤ timeT ts then
                    let newnick := ircd.nuserRename nick randomNick
                    (register newnick ircd.systime,
                      [⟨cptr.source, some ircd.meName, "NBOUNCE".toList,
                        [uid, newnick, formatLu ircd.systime]⟩])
                  else (register nick ts, [])
      else (ircd, [])
  | _ => (ircd, [])

/-- The part of `lclient_command` that decides which client a line received on
a server link is from; a line whose prefix is unknown or is reached through
another connection is dropped. -/
def lineSource (ircd : Ircd) (lcptr : Lclient) (pfx : Option CString) :
    Option Client :=
  let cptr :=
    match pfx with
    | none => lcptr.client.bind ircd.client?
    | some pfx => ircd.lclientPrefix lcptr pfx
  cptr.filter fun cptr => cptr.source = lcptr.id

theorem mem_of_lineSource {ircd : Ircd} {lcptr : Lclient}
    {pfx : Option CString} {cptr : Client}
    (found : ircd.lineSource lcptr pfx = some cptr) : cptr ∈ ircd.clients := by
  obtain ⟨found, -⟩ := Option.filter_eq_some_iff.mp found
  cases pfx with
  | none =>
      obtain ⟨id, -, shown⟩ := Option.bind_eq_some_iff.mp found
      exact mem_of_client? shown
  | some pfx => exact mem_of_lclientPrefix found

theorem mem_of_nbounceTarget {ircd : Ircd} {lcptr : Lclient} {user : CString}
    {acptr : Client} (found : ircd.nbounceTarget lcptr user = some acptr) :
    acptr ∈ ircd.clients := by
  unfold nbounceTarget at found
  split at found
  · exact mem_of_clientFindUid found
  · exact mem_of_clientFindNick found

/-- The line that one server sends to another one of its links. -/
theorem serverSend_find? {ircd : Ircd}
    (distinct : (ircd.lclients.map Lclient.id).Nodup) {one : Option Nat}
    {down : Lclient} (member : down ∈ ircd.lclients)
    (isServer : down.type = .server) (notOne : some down.id ≠ one)
    (notMe : down.id ≠ ircd.lclientMe) (capUid : Bool) (line : Line) :
    (ircd.serverSend one capUid line).find? (fun send => send.lclient = down.id) =
      if down.capUid = capUid then some ⟨down.id, line⟩ else none := by
  have lookup := KeyedList.find?_and_key distinct member fun lcptr =>
    lcptr.type = .server ∧ some lcptr.id ≠ one ∧ lcptr.id ≠ ircd.lclientMe ∧
      lcptr.capUid = capUid
  rw [serverSend, List.find?_map, List.find?_filter]
  simp only [Function.comp_def, decide_eq_true_eq, lookup, isServer, ne_eq,
    notOne, notMe, not_false_eq_true, true_and]
  split_ifs <;> rfl

/-- A line queued for both kinds of links reaches a link in its own form. -/
theorem serverSend_append_find? {ircd : Ircd}
    (distinct : (ircd.lclients.map Lclient.id).Nodup) {one : Option Nat}
    {down : Lclient} (member : down ∈ ircd.lclients)
    (isServer : down.type = .server) (notOne : some down.id ≠ one)
    (notMe : down.id ≠ ircd.lclientMe) (line : CString → Line)
    (uid name : CString) :
    (ircd.serverSend one true (line uid) ++
        ircd.serverSend one false (line name)).find?
          (fun send => send.lclient = down.id) =
      some ⟨down.id, line (if down.capUid then uid else name)⟩ := by
  rw [List.find?_append, serverSend_find? distinct member isServer notOne notMe,
    serverSend_find? distinct member isServer notOne notMe]
  cases down.capUid <;> rfl

end Ircd

end Chaosircd
