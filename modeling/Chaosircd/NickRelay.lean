import Chaosircd.NickHandlers

/-!
# Relaying a rename along a chain of servers

A rename travels as `NICK` from the server of the user, or as `NBOUNCE` from the
server that resolved a collision.  Every server on the way looks up the user the
line names, applies the rename to its own table and passes the line on over its
next link.  The time stamp is handled differently by the two handlers, and a
rename always stamps the record with the local clock first; this file determines
which nick and which time stamp each server of a chain ends up with.
-/

namespace Chaosircd

namespace NickRelay

/-- One server of a chain, with the link a line arrives on and the link it is
passed on over, if there is one. -/
structure Hop where
  ircd : Ircd
  upstream : Lclient
  downstream : Option Lclient
  clientsDistinct : (ircd.clients.map Client.id).Nodup
  lclientsDistinct : (ircd.lclients.map Lclient.id).Nodup
  linked : ∀ down ∈ downstream, down ∈ ircd.lclients ∧ down.type = .server ∧
    down.id ≠ upstream.id ∧ down.id ≠ ircd.lclientMe

/-- What one server has done with a line: the user it renamed, and its state
afterwards. -/
structure Receipt where
  user : Nat
  after : Ircd

/-- The nick and the time stamp that the server now has for the user. -/
def Receipt.record (receipt : Receipt) : Option (CString × Nat) :=
  (receipt.after.client? receipt.user).map fun cptr => (cptr.name, cptr.ts)

/-- The server records this nick and this time stamp for the user. -/
def Receipt.Records (receipt : Receipt) (nick : CString) (ts : Nat) : Prop :=
  receipt.record = some (nick, ts)

instance (receipt : Receipt) (nick : CString) (ts : Nat) :
    Decidable (receipt.Records nick ts) :=
  inferInstanceAs (Decidable (_ = _))

/-- The command of a rename with the name of the user it is about. -/
inductive Rename where
  | nick (user : CString)
  | nbounce (pfx : Option CString) (user : CString)
  deriving DecidableEq

/-- The line of a rename. -/
def Rename.line (rename : Rename) (nick tsArg : CString) : Line :=
  match rename with
  | .nick user => ⟨some user, "NICK".toList, [nick, tsArg]⟩
  | .nbounce pfx user => ⟨pfx, "NBOUNCE".toList, [user, nick, tsArg]⟩

namespace Hop

/-- The client a rename comes from and the user it is about, when this server
knows both and the line comes from the right direction. -/
def target (hop : Hop) (rename : Rename) : Option (Client × Client) :=
  match rename with
  | .nick user =>
      (hop.ircd.lineSource hop.upstream (some user)).bind fun cptr =>
        if cptr.IsUser then some (cptr, cptr) else none
  | .nbounce pfx user =>
      (hop.ircd.lineSource hop.upstream pfx).bind fun cptr =>
        (hop.ircd.nbounceTarget hop.upstream user).map fun acptr =>
          (cptr, acptr)

/-- `lclient_command` for a line with one of the two commands. -/
def command (hop : Hop) (rename : Rename) (nick tsArg : CString) :
    Option (Client × Ircd × List Send) :=
  (hop.target rename).map fun (cptr, acptr) =>
    match rename with
    | .nick _ =>
        (acptr, hop.ircd.msNick hop.upstream.id cptr [nick, tsArg])
    | .nbounce _ user =>
        (acptr, hop.ircd.msNbounce hop.upstream cptr [user, nick, tsArg])

/-- How the user is named on the next link. -/
def label (down : Lclient) (acptr : Client) : CString :=
  if down.capUid then acptr.uid else acptr.name

/-- The rename as it is passed on over the next link. -/
def passOn (down : Lclient) (cptr acptr : Client) : Rename → Rename
  | .nick _ => .nick (label down acptr)
  | .nbounce _ _ => .nbounce (some cptr.name) (label down acptr)

end Hop

/-- Reading a received line back as a rename. -/
def Line.rename? (line : Line) : Option (Rename × CString × CString) :=
  match line.pfx, line.args with
  | some user, [nick, tsArg] =>
      if line.command = "NICK".toList then some (.nick user, nick, tsArg)
      else none
  | pfx, [user, nick, tsArg] =>
      if line.command = "NBOUNCE".toList then
        some (.nbounce pfx user, nick, tsArg)
      else none
  | _, _ => none

/-- A rename travels along a chain: each server that can process it does so,
and the first line that it queues on its next link goes to the next server. -/
def relay : List Hop → Rename → CString → CString → List Receipt
  | [], _, _, _ => []
  | hop :: hops, rename, nick, tsArg =>
      match hop.command rename nick tsArg with
      | none => []
      | some (acptr, after, sends) =>
          ⟨acptr.id, after⟩ ::
            match hop.downstream.bind fun down =>
                (sends.find? fun send => send.lclient = down.id).bind fun send =>
                  Line.rename? send.line with
            | none => []
            | some (rename, nick, tsArg) => relay hops rename nick tsArg

/-- The servers of a chain that a rename reaches: it goes on as long as each
server knows its sender and its user. -/
def reached : List Hop → Rename → List Hop
  | [], _ => []
  | hop :: hops, rename =>
      match hop.target rename with
      | none => []
      | some (cptr, acptr) =>
          hop :: match hop.downstream with
            | none => []
            | some down => reached hops (Hop.passOn down cptr acptr rename)

/-! ## One server -/

namespace Hop

/-- The time stamp a server records for a rename. -/
def stamp (hop : Hop) (rename : Rename) (tsArg : CString) : Nat :=
  match rename with
  | .nick _ => strToul tsArg % 2 ^ 32
  | .nbounce _ _ => hop.ircd.systime

/-- The time stamp a server passes on with a rename. -/
def stampOnward (hop : Hop) (rename : Rename) (tsArg : CString) : CString :=
  match rename with
  | .nick _ => formatLu hop.ircd.systime
  | .nbounce _ _ => formatLu (strToul tsArg)

theorem target_nick {hop : Hop} {user : CString} {cptr acptr : Client}
    (found : hop.target (.nick user) = some (cptr, acptr)) :
    cptr = acptr ∧ acptr.IsUser ∧ acptr ∈ hop.ircd.clients := by
  obtain ⟨sender, shown, isUser⟩ := Option.bind_eq_some_iff.mp found
  split_ifs at isUser with user
  cases isUser
  exact ⟨rfl, user, Ircd.mem_of_lineSource shown⟩

theorem target_nbounce {hop : Hop} {pfx : Option CString} {user : CString}
    {cptr acptr : Client}
    (found : hop.target (.nbounce pfx user) = some (cptr, acptr)) :
    hop.ircd.nbounceTarget hop.upstream user = some acptr := by
  obtain ⟨sender, -, found⟩ := Option.bind_eq_some_iff.mp found
  obtain ⟨named, shown, same⟩ := Option.map_eq_some_iff.mp found
  cases same
  exact shown

end Hop

/-- A line built from a rename is read back as that rename. -/
@[simp]
theorem Line.rename?_line (rename : Rename) (nick tsArg : CString) :
    Line.rename? (rename.line nick tsArg) = some (rename, nick, tsArg) := by
  cases rename with
  | nick user => rfl
  | nbounce pfx user => cases pfx <;> rfl

/-- What one server does with a rename: the record it leaves and the line it
queues on its next link. -/
theorem Hop.command_spec {hop : Hop} {rename : Rename} {cptr acptr : Client}
    (found : hop.target rename = some (cptr, acptr)) (nick tsArg : CString) :
    ∃ after sends, hop.command rename nick tsArg = some (acptr, after, sends) ∧
      Receipt.record ⟨acptr.id, after⟩ =
        some (strlcpy nick (hostLen + 1), hop.stamp rename tsArg) ∧
      ∀ down ∈ hop.downstream,
        (sends.find? fun send => send.lclient = down.id) =
          some ⟨down.id, (Hop.passOn down cptr acptr rename).line nick
            (hop.stampOnward rename tsArg)⟩ := by
  cases rename with
  | nick user =>
      obtain ⟨rfl, isUser, member⟩ := Hop.target_nick found
      have shown := Ircd.client?_of_mem hop.clientsDistinct member
      refine ⟨_, _, by rw [Hop.command, found]; rfl, ?_, ?_⟩
      · have stamped := Ircd.client?_setTs shown hop.ircd.systime
        have renamed := Ircd.client?_clientSetName stamped nick
        have restamped := Ircd.client?_setTs renamed (strToul tsArg % 2 ^ 32)
        exact congrArg (Option.map fun cptr => (cptr.name, cptr.ts)) restamped
      · intro down isDown
        obtain ⟨downMember, isServer, notUp, notMe⟩ := hop.linked down isDown
        simp only [if_pos isUser]
        exact Ircd.serverSend_append_find? hop.lclientsDistinct downMember
          isServer (by simpa using notUp) notMe
          (fun label => (Rename.nick label).line nick
            (formatLu hop.ircd.systime)) cptr.uid cptr.name
  | nbounce pfx user =>
      have named := Hop.target_nbounce found
      have shown := Ircd.client?_of_mem hop.clientsDistinct
        (Ircd.mem_of_nbounceTarget named)
      refine ⟨_, _, by rw [Hop.command, found]; rfl, ?_, ?_⟩
      · have stamped := Ircd.client?_setTs shown (strToul tsArg)
        have renamed := Ircd.client?_clientSetName stamped nick
        simp only [named]
        exact congrArg (Option.map fun cptr => (cptr.name, cptr.ts)) renamed
      · intro down isDown
        obtain ⟨downMember, isServer, notUp, notMe⟩ := hop.linked down isDown
        simp only [named]
        exact Ircd.serverSend_append_find? hop.lclientsDistinct downMember
          isServer (by simpa using notUp) notMe
          (fun label => (Rename.nbounce (some cptr.name) label).line nick
            (formatLu (strToul tsArg))) acptr.uid acptr.name

/-! ## The chain -/

/-- The time stamps recorded along a list of servers that all process a rename
of this kind. -/
def stamps (rename : Rename) : List Hop → CString → List Nat
  | [], _ => []
  | hop :: hops, tsArg =>
      hop.stamp rename tsArg :: stamps rename hops (hop.stampOnward rename tsArg)

theorem stamps_passOn (down : Lclient) (cptr acptr : Client) (rename : Rename)
    (hops : List Hop) (tsArg : CString) :
    stamps (Hop.passOn down cptr acptr rename) hops tsArg =
      stamps rename hops tsArg := by
  induction hops generalizing tsArg with
  | nil => rfl
  | cons hop hops ih =>
      cases rename <;> simp only [stamps, ih] <;> rfl

/-- Along a chain the reached servers, and no others, record the truncated nick
and the time stamps of `stamps`. -/
theorem relay_records (hops : List Hop) (rename : Rename)
    (nick tsArg : CString) :
    (relay hops rename nick tsArg).map Receipt.record =
      (stamps rename (reached hops rename) tsArg).map fun ts =>
        some (strlcpy nick (hostLen + 1), ts) := by
  induction hops generalizing rename tsArg with
  | nil => rfl
  | cons hop hops ih =>
      cases found : hop.target rename with
      | none => simp [relay, reached, Hop.command, found, stamps]
      | some pair =>
          obtain ⟨cptr, acptr⟩ := pair
          obtain ⟨after, sends, command, record, onward⟩ :=
            Hop.command_spec found nick tsArg
          cases link : hop.downstream with
          | none =>
              simp [relay, reached, command, found, link, stamps, record]
          | some down =>
              have line := onward down link
              simp [relay, reached, command, found, link, line, stamps, record,
                ih, stamps_passOn]

/-- When the time stamps recorded along a chain all equal the one the rename
carries: a `NICK` is relayed with the relaying server's own clock, an `NBOUNCE`
is recorded with the recording server's own clock. -/
def ClocksAgree (servers : List Hop) (ts : Nat) : Rename → Prop
  | .nick _ => ts < 2 ^ 32 ∧
      ∀ hop ∈ servers.dropLast, hop.ircd.systime % 2 ^ 32 = ts
  | .nbounce _ _ => ∀ hop ∈ servers, hop.ircd.systime = ts

instance (servers : List Hop) (ts : Nat) :
    (rename : Rename) → Decidable (ClocksAgree servers ts rename)
  | .nick _ => inferInstanceAs (Decidable (_ ∧ _))
  | .nbounce _ _ =>
      inferInstanceAs (Decidable (∀ hop ∈ servers, hop.ircd.systime = ts))

private theorem stamps_nick_eq (user : CString) (hop : Hop) (hops : List Hop)
    (tsArg : CString) :
    stamps (.nick user) (hop :: hops) tsArg =
      strToul tsArg % 2 ^ 32 ::
        (hop :: hops).dropLast.map fun hop => hop.ircd.systime % 2 ^ 32 := by
  induction hops generalizing hop tsArg with
  | nil => rfl
  | cons next hops ih =>
      rw [stamps, ih]
      simp [Hop.stamp, Hop.stampOnward]

private theorem stamps_nbounce_eq (pfx : Option CString) (user : CString)
    (hops : List Hop) (tsArg : CString) :
    stamps (.nbounce pfx user) hops tsArg =
      hops.map fun hop => hop.ircd.systime := by
  induction hops generalizing tsArg with
  | nil => rfl
  | cons hop hops ih =>
      rw [stamps, ih]
      rfl

private theorem forall_stamps_iff (rename : Rename) {servers : List Hop}
    (nonempty : servers ≠ []) (tsArg : CString) :
    (∀ ts ∈ stamps rename servers tsArg, ts = strToul tsArg) ↔
      ClocksAgree servers (strToul tsArg) rename := by
  cases servers with
  | nil => exact absurd rfl nonempty
  | cons hop hops =>
      cases rename with
      | nick user =>
          rw [stamps_nick_eq, ClocksAgree, List.forall_mem_cons,
            List.forall_mem_map]
          exact and_congr_left' ⟨fun fixed => by omega, Nat.mod_eq_of_lt⟩
      | nbounce pfx user =>
          rw [stamps_nbounce_eq, ClocksAgree, List.forall_mem_map]

/-- Every server of the chain that processes the rename records its nick and
its time stamp exactly when the nick fits the name field and the clocks on the
way agree with the time stamp. -/
theorem relay_records_rename_iff (hops : List Hop) (rename : Rename)
    (nick tsArg : CString) :
    (∀ receipt ∈ relay hops rename nick tsArg,
        receipt.Records nick (strToul tsArg)) ↔
      reached hops rename = [] ∨
        (nick.length ≤ hostLen ∧
          ClocksAgree (reached hops rename) (strToul tsArg) rename) := by
  have asStamps :
      (∀ receipt ∈ relay hops rename nick tsArg,
          receipt.Records nick (strToul tsArg)) ↔
        ∀ ts ∈ stamps rename (reached hops rename) tsArg,
          strlcpy nick (hostLen + 1) = nick ∧ ts = strToul tsArg := by
    calc
      _ ↔ ∀ record ∈ (relay hops rename nick tsArg).map Receipt.record,
            record = some (nick, strToul tsArg) := List.forall_mem_map.symm
      _ ↔ _ := by
          rw [relay_records, List.forall_mem_map]
          simp only [Option.some.injEq, Prod.mk.injEq]
  rw [asStamps]
  cases servers : reached hops rename with
  | nil => simp [stamps]
  | cons hop rest =>
      have nonempty : hop :: rest ≠ [] := by simp
      have someStamp : ∃ ts, ts ∈ stamps rename (hop :: rest) tsArg := by
        simp [stamps]
      rw [← forall_stamps_iff rename nonempty tsArg,
        strlcpy_eq_self_iff (by simp), Nat.lt_succ_iff]
      simp only [nonempty, false_or]
      constructor
      · intro all
        obtain ⟨ts, member⟩ := someStamp
        exact ⟨(all ts member).1, fun ts member => (all ts member).2⟩
      · rintro ⟨fits, all⟩ ts member
        exact ⟨fits, all ts member⟩

/-- A server link whose peer names users by their identifiers. -/
def exampleLink (id : Nat) (name : CString) (fits : name.length ≤ nickLen)
    (client : Option Nat) : Lclient where
  id := id
  type := .server
  name := name
  user := none
  client := client
  capUid := true
  cookiePending := false
  authPending := false
  name_fits := fits

/-- A server with one remote user, reached through connection 1, and a link to
the next server on connection 2. -/
def middleServer (systime : Nat) : Ircd where
  clients :=
    [⟨0, true, .server "me".toList, 0, none, "me".toList, 0, 0⟩,
      ⟨1, true, .server "hub".toList, 1, some 0, "hub".toList, 0, 0⟩,
      ⟨2, false, .user ⟨"al".toList, "AAAAAAAA".toList⟩, 1, some 1,
        "alice".toList, 0, 500⟩]
  clientListsn := fun _ => []
  clientHistory := fun _ => []
  clientId := 3
  clientMe := 0
  lclients :=
    [exampleLink 1 "hub".toList (by decide) (some 1),
      exampleLink 2 "leaf".toList (by decide) none]
  lclientId := 3
  lclientMe := 0
  channels := []
  channelId := 0
  systime := systime

/-- `middleServer` as a member of a chain. -/
def middleHop (systime : Nat) : Hop where
  ircd := middleServer systime
  upstream := exampleLink 1 "hub".toList (by decide) (some 1)
  downstream := some (exampleLink 2 "leaf".toList (by decide) none)
  clientsDistinct := by simp [middleServer]
  lclientsDistinct := by simp [middleServer, exampleLink]
  linked := by simp [middleServer, exampleLink]

/-- A `NICK` with time stamp 900 reaches two servers whose clocks show 1000: the
second one records 1000.  An `NBOUNCE` with time stamp 900 is recorded with 1000
already by the first one. -/
theorem relay_not_records_rename :
    (∃ receipt ∈ relay [middleHop 1000, middleHop 1000]
        (.nick "AAAAAAAA".toList) "bob".toList "900".toList,
      ¬ receipt.Records "bob".toList (strToul "900".toList)) ∧
    ∃ receipt ∈ relay [middleHop 1000]
        (.nbounce (some "hub".toList) "AAAAAAAA".toList)
        "bob".toList "900".toList,
      ¬ receipt.Records "bob".toList (strToul "900".toList) := by
  decide

end NickRelay

end Chaosircd
