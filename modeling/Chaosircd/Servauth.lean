import Chaosircd.IniFile
import Chaosircd.NetAddress
import Chaosircd.ServauthCache

/-!
# The lookup process

The server hands its DNS, ident and proxy lookups to a process of its own.  Each line on the
control channel is a command; a command is answered from a cache, or starts a lookup in a free
query slot, whose callback sends the reply and frees the slot.  A rejected command ends the
process.  Where the code follows a null pointer the process crashes.
-/

namespace Chaosircd

namespace Servauth

def maxQueries : Nat := 256

/-- The callback of `q->res`. -/
inductive DnsCallback where
  | forwardDone
  | reverseDone
  deriving DecidableEq

/-- A query slot.  `dns`, `auth` and `proxy` tell which lookups of the slot are pending.
`serial` is not in the code: the number of the accepted command that the slot is for. -/
structure Query where
  id : Option CString
  host : Option CString
  remoteAddr : Nat
  localAddr : Nat
  remotePort : Nat
  localPort : Nat
  ptype : Option Nat
  dns : Option DnsCallback
  auth : Bool
  proxy : Bool
  serial : Option Nat
  deriving DecidableEq

namespace Query

/-- `query_zero`. -/
def zero : Query :=
  ⟨none, none, 0, 0, 0, 0, some 0, none, false, false, none⟩

/-- `query_is_free`. -/
def IsFree (q : Query) : Prop :=
  q.id = none

instance (q : Query) : Decidable q.IsFree :=
  inferInstanceAs (Decidable (_ = _))

/-- The number of lookups that are pending. -/
def pending (q : Query) : Nat :=
  q.dns.toList.length + q.auth.toNat + q.proxy.toNat

end Query

def proxyTypes : List CString :=
  ["http".toList, "socks4".toList, "socks5".toList, "wingate".toList, "cisco".toList]

/-- `proxy_parse_type`; no result stands for `-1`. -/
def proxyParseType (type : CString) : Option Nat :=
  proxyTypes.findIdx? fun name => IcmpEq name type

/-- `proxy->reply` when a callback is called. -/
inductive ProxyReply where
  | rpTimeout
  | rpFiltered
  | rpClosed
  | rpDenied
  | rpNa
  | rpOpen
  deriving DecidableEq

namespace ProxyReply

def code : ProxyReply → Nat
  | rpTimeout => 1
  | rpFiltered => 2
  | rpClosed => 3
  | rpDenied => 4
  | rpNa => 5
  | rpOpen => 6

end ProxyReply

def proxyReplies : List CString :=
  ["none".toList, "timeout".toList, "filtered".toList, "closed".toList, "denied".toList,
    "n/a".toList, "open".toList]

def proxyReplyText (status : Nat) : CString :=
  (proxyReplies[status]?).getD []

/-- The first words of a reply. -/
inductive ReplyKind where
  | dnsForward
  | dnsReverse
  | auth
  | proxy
  deriving DecidableEq

/-- A reply line; `serial` is the number of the command that it answers. -/
structure Reply where
  serial : Option Nat
  kind : ReplyKind
  id : CString
  answer : Option CString
  deriving DecidableEq

inductive Status where
  | running
  | exited
  | crashed
  deriving DecidableEq

/-- The state of the process.  `accepted` and `replies` are not in the code: the identifiers
of the commands that have been accepted, and the replies that have been sent, in order. -/
structure State where
  slots : List Query
  authcache : List (CacheEntry Nat Unit)
  dnscache : List (CacheEntry Nat CString)
  proxycache : List (CacheEntry (Nat × Nat × Option Nat) Unit)
  systime : Nat
  status : Status
  accepted : List CString
  replies : List Reply

/-- `query_find`. -/
def queryFind (slots : List Query) : Option Nat :=
  slots.findIdx? fun q => q.IsFree

/-! ## Filling and starting a query -/

/-- What a `query_set_*` function leaves: the filled query and `0`, the query and an error, or
a crash. -/
inductive Setting where
  | filled (q : Query)
  | failed (q : Query)
  | crashed

/-- `query_set_auth`. -/
def querySetAuth (id ip l r : CString) (q : Query) : Setting :=
  match netAton ip with
  | none => .failed q
  | some addr =>
    .filled { q with
      remoteAddr := addr
      id := some id
      localPort := netPort (strTol l)
      remotePort := netPort (strTol r) }

/-- `query_set_host`. -/
def querySetHost (id host : CString) (q : Query) : Setting :=
  .filled { q with id := some id, host := some host }

/-- `query_set_addr`. -/
def querySetAddr (id addr : CString) (q : Query) : Setting :=
  match netAton addr with
  | none => .failed { q with id := some id }
  | some remoteAddr => .filled { q with id := some id, remoteAddr := remoteAddr }

/-- The address and the text behind the colon, of the part that fits into a buffer of 32
bytes. -/
def splitPort (s : CString) : CString × Option CString :=
  let addrbuf := strlcpy s 32
  (addrbuf.takeWhile (· ≠ ':'),
    if ':' ∈ addrbuf then some (addrbuf.dropWhile (· ≠ ':')).tail else none)

/-- `query_set_proxy`, which reads the port at a null pointer when there is no colon. -/
def querySetProxy (id r l t : CString) (q : Query) : Setting :=
  let named := { q with id := some id }
  match netAton (splitPort r).1 with
  | none => .failed named
  | some remoteAddr =>
    match (splitPort r).2 with
    | none => .crashed
    | some remotePort =>
      let remote := { named with
        remoteAddr := remoteAddr
        remotePort := netPort (strToul remotePort) }
      match netAton (splitPort l).1 with
      | none => .failed remote
      | some localAddr =>
        match (splitPort l).2 with
        | none => .crashed
        | some localPort =>
          let whole := { remote with
            localAddr := localAddr
            localPort := netPort (strToul localPort)
            ptype := proxyParseType t }
          if proxyParseType t = none then .failed whole else .filled whole

/-- The kinds of lookups. -/
inductive Lookup where
  | dnsReverse
  | dnsForward
  | auth
  | proxy
  deriving DecidableEq

/-- `query_start`, and whether it did not return `-1`.  The timer of a DNS lookup runs before
the lookup is sent, and a failure to send it is not told by `-1`; the timer of the others runs
only when the connection could be begun. -/
def queryStart (lookup : Lookup) (begun : Bool) (q : Query) : Query × Bool :=
  match lookup with
  | .dnsReverse => ({ q with dns := some .reverseDone }, true)
  | .dnsForward => ({ q with dns := some .forwardDone }, true)
  | .auth => ({ q with auth := begun }, begun)
  | .proxy => ({ q with proxy := begun }, begun)

/-! ## Commands -/

/-- What a command comes to after its own checks and the look into the cache. -/
inductive Task where
  | nothing
  | reject
  | answer (s : State) (kind : ReplyKind) (id : CString) (text : Option CString)
  | launch (id : CString) (set : Query → Setting) (lookup : Lookup)

/-- `cmd_auth`. -/
def cmdAuth (s : State) (av : List CString) : Task :=
  match av with
  | [_, id, ip, l, r] =>
    match netAton ip with
    | none => .reject
    | some addr =>
      match cachePick (fun entry => entry.status ≠ 0 && entry.key = addr) s.systime
          s.authcache with
      | some (_, authcache) => .answer { s with authcache := authcache } .auth id none
      | none => .launch id (querySetAuth id ip l r) .auth
  | _ => .reject

/-- `cmd_dns_forward`. -/
def cmdDnsForward (av : List CString) : Task :=
  match av with
  | [_, _, id, host] => .launch id (querySetHost id host) .dnsForward
  | _ => .reject

/-- `cmd_dns_reverse`. -/
def cmdDnsReverse (s : State) (av : List CString) : Task :=
  match av with
  | [_, _, id, ip] =>
    match netAton ip with
    | none => .reject
    | some addr =>
      match cachePick (fun entry => entry.status = 2 && entry.key = addr) s.systime
          s.dnscache with
      | some (entry, dnscache) =>
        .answer { s with dnscache := dnscache } .dnsReverse id (some entry.answer)
      | none => .launch id (querySetAddr id ip) .dnsReverse
  | _ => .reject

/-- `cmd_dns`. -/
def cmdDns (s : State) (av : List CString) : Task :=
  match av with
  | _ :: name :: _ =>
    if name = "reverse".toList then cmdDnsReverse s av
    else if name = "forward".toList then cmdDnsForward av
    else .nothing
  | _ => .reject

/-- `cmd_proxy`. -/
def cmdProxy (s : State) (av : List CString) : Task :=
  match av with
  | [_, id, r, l, t] =>
    match (splitPort r).2, netAton (splitPort r).1 with
    | some port, some addr =>
      match cachePick (fun entry => entry.status ≠ 0 &&
          entry.key = (addr, netPort (strToul port), proxyParseType t)) s.systime
          s.proxycache with
      | some (entry, proxycache) =>
        .answer { s with proxycache := proxycache } .proxy id
          (some (proxyReplyText entry.status))
      | none => .launch id (querySetProxy id r l t) .proxy
    | _, _ => .reject
  | _ => .reject

/-- `control_exec`.  `userdb` asks a database and has nothing to do with the slots. -/
def controlExec (s : State) (av : List CString) : Task :=
  match av with
  | [] => .reject
  | name :: _ =>
    if name = "dns".toList then cmdDns s av
    else if name = "auth".toList then cmdAuth s av
    else if name = "proxy".toList then cmdProxy s av
    else if name = "userdb".toList then .nothing
    else .reject

/-- `control_parse` of what `control_readable` reads of a line. -/
def controlParse (s : State) (line : CString) : Task :=
  match strTokenize 16 (ioGets 1024 line) with
  | [] => .nothing
  | av => controlExec s av

namespace State

/-- `servauth_shutdown`. -/
def shutdown (s : State) : State :=
  { s with status := .exited }

def crash (s : State) : State :=
  { s with status := .crashed }

/-- `control_send`, in answer to the command with this number. -/
def send (s : State) (serial : Option Nat) (kind : ReplyKind) (id : CString)
    (text : Option CString) : State :=
  { s with replies := s.replies ++ [⟨serial, kind, id, text⟩] }

/-- A command is accepted. -/
def accept (s : State) (id : CString) : State :=
  { s with accepted := s.accepted ++ [id] }

/-- A query is filled and started; where no slot is free, the pointer that it is filled
through is null. -/
def launch (s : State) (begun : Bool) (id : CString) (set : Query → Setting)
    (lookup : Lookup) : State :=
  match queryFind s.slots with
  | none => s.crash
  | some i =>
    match set (s.slots.getD i Query.zero) with
    | .crashed => s.crash
    | .failed q => { s with slots := s.slots.set i q }.shutdown
    | .filled q =>
      match queryStart lookup begun { q with serial := some s.accepted.length } with
      | (q, true) => { s with slots := s.slots.set i q }.accept id
      | (q, false) => { s with slots := s.slots.set i { q with serial := none } }.shutdown

/-- A line on the control channel; `begun` tells whether a connection can be begun. -/
def line (s : State) (text : CString) (begun : Bool) : State :=
  match controlParse s text with
  | .nothing => s
  | .reject => s.shutdown
  | .answer s' kind id text => (s'.send (some s.accepted.length) kind id text).accept id
  | .launch id set lookup => s.launch begun id set lookup

end State

/-! ## Callbacks -/

/-- How a lookup ends: an address (or `0`), a name, a line of the ident server, an ident
connection that is closed or timed out, or a reply about a proxy. -/
inductive Outcome where
  | dnsForward (addr : Nat)
  | dnsReverse (name : Option CString)
  | identLine (line : CString)
  | identClosed
  | proxy (reply : ProxyReply)

namespace Outcome

/-- The lookup that ends so is pending in the slot. -/
def PendingIn (outcome : Outcome) (q : Query) : Prop :=
  match outcome with
  | dnsForward _ => q.dns = some .forwardDone
  | dnsReverse _ => q.dns = some .reverseDone
  | identLine _ => q.auth = true
  | identClosed => q.auth = true
  | proxy _ => q.proxy = true

instance (outcome : Outcome) (q : Query) : Decidable (outcome.PendingIn q) := by
  cases outcome <;> exact inferInstanceAs (Decidable (_ = _))

end Outcome

def authIsIdentChar (c : Char) : Bool :=
  c.isAlphanum || c == '-' || c == '_' || c == '.'

/-- `auth_parse`, which looks behind the last colon; no result stands for a line without
one. -/
def authParse (recvbuf : CString) : Option CString :=
  if ':' ∈ recvbuf then
    match (recvbuf.reverse.takeWhile (· ≠ ':')).reverse with
    | ' ' :: _ => some []
    | p => some ((p.take 31).takeWhile authIsIdentChar)
  else none

namespace State

/-- `query_free`. -/
def queryFree (s : State) (i : Nat) : State :=
  { s with slots := s.slots.set i Query.zero }

/-- `query_auth_done`; nothing sets the status that would tell a timeout from a reset. -/
def authDone (s : State) (i : Nat) (q : Query) (id reply : CString) : State :=
  if reply ≠ [] then (s.send q.serial .auth id (some reply)).queryFree i
  else
    let s := s.send q.serial .auth id none
    match cachePut [1, 2] ⟨1, q.remoteAddr, (), s.systime⟩ s.authcache with
    | none => s.crash
    | some authcache => { s with authcache := authcache }.queryFree i

/-- `query_dns_forward_done`. -/
def dnsForwardDone (s : State) (i : Nat) (q : Query) (id : CString) (addr : Nat) : State :=
  if addr ≠ 0 then (s.send q.serial .dnsForward id (some (netNtoa addr))).queryFree i
  else (s.send q.serial .dnsForward id none).queryFree i

/-- `query_dns_reverse_done`. -/
def dnsReverseDone (s : State) (i : Nat) (q : Query) (id : CString)
    (name : Option CString) : State :=
  let s := s.send q.serial .dnsReverse id name
  match cachePut [1, 2] ⟨2, q.remoteAddr, strlcpy (name.getD []) 64, s.systime⟩ s.dnscache with
  | none => s.crash
  | some dnscache => { s with dnscache := dnscache }.queryFree i

/-- `query_proxy_done`; what is given up is closed, denied, open, filtered and timed out. -/
def proxyDone (s : State) (i : Nat) (q : Query) (id : CString) (reply : ProxyReply) : State :=
  let s := s.send q.serial .proxy id (some (proxyReplyText reply.code))
  match cachePut [3, 4, 6, 2, 1]
      ⟨reply.code, (q.remoteAddr, q.remotePort, q.ptype), (), s.systime⟩ s.proxycache with
  | none => s.crash
  | some proxycache => { s with proxycache := proxycache }.queryFree i

/-- The end of a lookup in a slot. -/
def done (s : State) (i : Nat) (q : Query) (outcome : Outcome) : State :=
  let id := q.id.getD []
  match outcome with
  | .dnsForward addr => s.dnsForwardDone i q id addr
  | .dnsReverse name => s.dnsReverseDone i q id name
  | .identLine line =>
    match authParse (ioGets 512 line) with
    | none => s.crash
    | some reply => s.authDone i q id reply
  | .identClosed => s.authDone i q id []
  | .proxy reply => s.proxyDone i q id reply

end State

/-! ## The process -/

inductive Event where
  | line (text : CString) (begun : Bool)
  | done (i : Nat) (outcome : Outcome)
  | tick (systime : Nat)

/-- What an event does while the process runs.  A lookup ends only where it is pending. -/
def State.handle (s : State) : Event → State
  | .line text begun => s.line text begun
  | .done i outcome =>
    match s.slots[i]? with
    | none => s
    | some q => if outcome.PendingIn q then s.done i q outcome else s
  | .tick systime => { s with systime := systime }

def exec (s : State) (event : Event) : State :=
  if s.status = .running then s.handle event else s

/-- The caches when the process starts: `localhost` is already in one of them. -/
def initial (systime : Nat) : State where
  slots := List.replicate maxQueries Query.zero
  authcache := List.replicate 512 ⟨0, 0, (), 0⟩
  dnscache := ⟨2, 2130706433, "localhost".toList, 2 ^ 64 - 1⟩ ::
    List.replicate 255 ⟨0, 0, [], 0⟩
  proxycache := List.replicate 256 ⟨0, (0, 0, some 0), (), 0⟩
  systime := systime
  status := .running
  accepted := []
  replies := []

end Servauth

end Chaosircd
