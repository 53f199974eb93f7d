import Chaosircd.BanList
import Chaosircd.TopicBurst
import Chaosircd.TransitionSystem
import Mathlib.Data.Finset.Dedup

/-!
# G-lines on a network

A G-line is added and removed on one server, which tells its links, and each of these tells
its other links.  A server writes the line for the next ones from its own entry.  The
servers form a tree, so what is behind a link is a tree again and the lines go down it.
-/

namespace Chaosircd

/-- `%llu`. -/
def formatLlu (n : Nat) : CString :=
  Nat.toDigits 10 (n % 2 ^ 64)

/-- `str_toull(nptr, NULL, 10)`. -/
def strToull (nptr : CString) : Nat :=
  ((skipSign '+' (nptr.dropWhile strIsspace)).takeWhile fun c => digitValue c < 10).foldl
    (fun v c => (v * 10 + digitValue c) % 2 ^ 64) 0

namespace BanList

/-! ## Trees -/

/-- The servers behind the links of a server: the first link and the others. -/
inductive Route where
  | nil
  | cons (server : Nat) (behind others : Route)
  deriving DecidableEq

namespace Route

def servers : Route → List Nat
  | .nil => []
  | .cons server behind others => server :: (behind.servers ++ others.servers)

/-- The servers are the ones of the tree, each of which is there once. -/
def Spans (server : Nat) (servers : Finset Nat) (route : Route) : Prop :=
  (server :: route.servers).Nodup ∧ (server :: route.servers).toFinset = servers

instance (server : Nat) (servers : Finset Nat) (route : Route) :
    Decidable (route.Spans server servers) :=
  inferInstanceAs (Decidable (_ ∧ _))

/-- No link has a server behind the next one. -/
def Flat : Route → Prop
  | .nil => True
  | .cons _ behind others => behind = .nil ∧ others.Flat

def decideFlat : ∀ route : Route, Decidable route.Flat
  | .nil => .isTrue trivial
  | .cons _ behind others =>
    have := decideFlat others
    inferInstanceAs (Decidable (behind = .nil ∧ others.Flat))

instance (route : Route) : Decidable route.Flat :=
  decideFlat route

end Route

/-! ## Lines -/

/-- A line for a server, from its first argument on. -/
inductive Line where
  | gline (args : CString)
  | ungline (args : CString)
  deriving DecidableEq

/-- `"GLINE %s %s %s %llu"`, and the reason where it is sent. -/
def Entry.glineArgs (entry : Entry) (reason : Option CString) : CString :=
  let words := [entry.user, entry.host, entry.info, formatLlu entry.ts]
  match reason with
  | none => List.intercalate [' '] words
  | some text => (words.map fun w => w ++ [' ']).flatten ++ ':' :: text

/-- `"UNGLINE %s %s"`. -/
def unglineArgs (user host : CString) : CString :=
  List.intercalate [' '] [user, host]

/-- What the removal handlers still find in an entry they have freed: its masks, or anything
else if the block of the heap was given back. -/
def Entry.remains (entry : Entry) (stale : Option (CString × CString)) : CString × CString :=
  stale.getD (entry.user, entry.host)

/-! ## Handlers -/

/-- A list and the line that is sent on. -/
abbrev Handled := List Entry × Option Line

/-- `mo_gline`. -/
def moGline (list : List Entry) (arg info : CString) (mtime : Nat) (reason : Option CString) :
    Handled :=
  match lineCommand list arg (strlcpy info 114) (mtime % 2 ^ 64) reason with
  | .invalid | .already _ => (list, none)
  | .added entry =>
    (list ++ [entry], some (.gline (entry.glineArgs (reason.map fun _ => entry.reason))))

/-- `ms_gline`. -/
def msGline (list : List Entry) (args : CString) : Handled :=
  match strTokenize 5 args with
  | user :: host :: info :: ts :: rest =>
    let addr := (lineMask host).1
    match lineFind list user host addr with
    | none =>
      let entry := lineNew user host info (strToull ts) rest.head?
      (list ++ [entry], some (.gline (entry.glineArgs none)))
    | some entry =>
      let change := Entry.update info (strToull ts) rest.head?
      (lineChange change user host addr list, some (.gline ((change entry).glineArgs none)))
  | _ => (list, none)

/-- The end of `mo_ungline` and `ms_ungline`. -/
def unglineFound (list : List Entry) (user host : CString) (stale : Option (CString × CString)) :
    Handled :=
  match lineFind list user host (lineMask host).1 with
  | none => (list, none)
  | some entry =>
    (lineDelete list user host (lineMask host).1,
      some (.ungline (unglineArgs (entry.remains stale).1 (entry.remains stale).2)))

/-- `mo_ungline`. -/
def moUngline (list : List Entry) (arg : CString) (stale : Option (CString × CString)) :
    Handled :=
  let parts := lineSplit arg
  if parts.invalid then (list, none) else unglineFound list parts.user parts.host stale

/-- `ms_ungline`. -/
def msUngline (list : List Entry) (args : CString) (stale : Option (CString × CString)) :
    Handled :=
  match strTokenize 2 args with
  | user :: host :: _ => unglineFound list user host stale
  | _ => (list, none)

/-- The handler of a line from a server. -/
def receive (list : List Entry) (stale : Option (CString × CString)) : Line → Handled
  | .gline args => msGline list args
  | .ungline args => msUngline list args stale

/-! ## The network -/

/-- A line on its way to a server, with the links of that server but the one it comes by. -/
structure Wire where
  line : Line
  target : Nat
  behind : Route
  deriving DecidableEq

/-- `server_send`: the line goes out to each link. -/
def Route.send (line : Line) : Route → List Wire
  | .nil => []
  | .cons server behind others => ⟨line, server, behind⟩ :: others.send line

structure Net where
  lists : Nat → List Entry
  wires : List Wire

/-- What happens on the network.  A command comes with the tree as its server sees it; which
line arrives next, and whether a freed entry is lost, is left open. -/
inductive NetEvent where
  | gline (server : Nat) (route : Route) (arg info : CString) (mtime : Nat)
      (reason : Option CString)
  | ungline (server : Nat) (route : Route) (arg : CString)
      (stale : Option (CString × CString))
  | deliver (place : Nat) (stale : Option (CString × CString))

namespace Net

/-- A server has handled a command or a line and tells its links. -/
def handled (net : Net) (server : Nat) (route : Route) (result : Handled) : Net where
  lists := Function.update net.lists server result.1
  wires := net.wires ++ match result.2 with
    | none => []
    | some line => route.send line

/-- One event among the servers.  There is no second command while lines are in flight, and
the tree of a command has each server once. -/
def step (servers : Finset Nat) (net : Net) : NetEvent → Option Net
  | .gline server route arg info mtime reason =>
    if net.wires = [] ∧ route.Spans server servers then
      some (net.handled server route (moGline (net.lists server) arg info mtime reason))
    else none
  | .ungline server route arg stale =>
    if net.wires = [] ∧ route.Spans server servers then
      some (net.handled server route (moUngline (net.lists server) arg stale))
    else none
  | .deliver place stale =>
    match net.wires[place]? with
    | none => none
    | some wire =>
      some (({ net with wires := net.wires.eraseIdx place } : Net).handled wire.target wire.behind
        (receive (net.lists wire.target) stale wire.line))

/-- All servers have equal lists and nothing is in flight. -/
def start (list : List Entry) : Net where
  lists := fun _ => list
  wires := []

/-- The servers have the same entries. -/
def Agree (servers : Finset Nat) (net : Net) : Prop :=
  ∀ server ∈ servers, ∀ other ∈ servers, net.lists server = net.lists other

/-! ## The condition -/

/-- The words of a new entry survive on the line, the host mask not being taken for a last
argument; the reason loses no blanks at its end, and does not go further than one link. -/
def GlineFits (entry : Entry) (route : Route) : Prop :=
  entry.host.head? ≠ some ':' ∧ PlainWord entry.info ∧
    restOfLine entry.reason = entry.reason ∧ (entry.reason = [] ∨ route.Flat)

/-- The masks of the entry that is found are found again as the first ones, and survive on the
line. -/
def UnglineFits (list : List Entry) (entry : Entry) : Prop :=
  lineFind list entry.user entry.host (lineMask entry.host).1 = some entry ∧
    PlainWord entry.user ∧ PlainWord entry.host

/-- The condition on an event: what a command changes arrives on all servers as it is, and
freed entries are not lost. -/
def Fits (net : Net) : NetEvent → Prop
  | .gline server route arg info mtime reason =>
    let parts := lineSplit arg
    ¬ parts.invalid →
      lineFind (net.lists server) parts.user parts.host (lineMask parts.host).1 = none →
        GlineFits (lineNew parts.user parts.host (strlcpy info 114) (mtime % 2 ^ 64) reason)
          route
  | .ungline server _ arg stale =>
    let parts := lineSplit arg
    stale = none ∧ (¬ parts.invalid →
      ∀ entry ∈ lineFind (net.lists server) parts.user parts.host (lineMask parts.host).1,
        UnglineFits (net.lists server) entry)
  | .deliver _ stale => stale = none

instance (entry : Entry) (route : Route) : Decidable (GlineFits entry route) :=
  inferInstanceAs (Decidable (_ ∧ _))

instance (list : List Entry) (entry : Entry) : Decidable (UnglineFits list entry) :=
  inferInstanceAs (Decidable (_ ∧ _))

instance (net : Net) (event : NetEvent) : Decidable (net.Fits event) :=
  match event with
  | .gline _ _ _ _ _ _ => inferInstanceAs (Decidable (_ → _ → _))
  | .ungline _ _ _ _ => inferInstanceAs (Decidable (_ ∧ (_ → _)))
  | .deliver _ _ => inferInstanceAs (Decidable (_ = _))

end Net

/-! ## Numbers on a line -/

theorem digitValue_of_strIsdigit {c : Char} (digit : strIsdigit c) :
    digitValue c = c.toNat - '0'.toNat ∧ digitValue c < 10 := by
  rw [strIsdigit_iff] at digit
  have below {d : Char} (above : 57 < d.toNat) : ¬ d ≤ c := by
    rw [Char.le_def, UInt32.le_iff_toNat_le]
    exact Nat.not_le.mpr (lt_of_le_of_lt digit.2 above)
  have isDigit : c ≤ '9' := by
    rw [Char.le_def, UInt32.le_iff_toNat_le]
    exact digit.2
  rw [digitValue, if_neg (below (by decide)), if_neg (below (by decide)), if_pos isDigit]
  have zero : '0'.toNat = 48 := rfl
  rw [zero]
  omega

/-- The digit loop works modulo `2 ^ 64`. -/
theorem foldl_digits {ds : CString} (digits : ∀ d ∈ ds, strIsdigit d) (v : Nat) :
    ds.foldl (fun v c => (v * 10 + digitValue c) % 2 ^ 64) (v % 2 ^ 64) =
      Nat.ofDigitChars 10 ds v % 2 ^ 64 := by
  induction ds generalizing v with
  | nil => rfl
  | cons d ds induction =>
      have value := (digitValue_of_strIsdigit (digits d List.mem_cons_self)).1
      rw [List.foldl_cons, Nat.ofDigitChars_cons, value,
        ← induction fun c member => digits c (List.mem_cons_of_mem d member)]
      congr 1
      omega

theorem strToull_formatLlu (n : Nat) : strToull (formatLlu n) = n % 2 ^ 64 := by
  have digits : ∀ d ∈ formatLlu n, strIsdigit d := fun _ member =>
    strIsdigit_of_mem_toDigits member
  have value : Nat.ofDigitChars 10 (formatLlu n) 0 = n % 2 ^ 64 :=
    Nat.ofDigitChars_ten_toDigits
  have unskipped : (formatLlu n).dropWhile strIsspace = formatLlu n :=
    List.dropWhile_eq_self_iff.mpr fun inside =>
      by simp [not_strIsspace_of_strIsdigit (digits _ (List.getElem_mem inside))]
  have unsigned : skipSign '+' (formatLlu n) = formatLlu n := by
    cases form : formatLlu n with
    | nil => rfl
    | cons d ds =>
        have digit : strIsdigit d := digits d (by rw [form]; exact List.mem_cons_self)
        have notPlus : d ≠ '+' := by
          rintro rfl
          exact absurd digit (by decide)
        rw [skipSign, if_neg notPlus]
  have whole : (formatLlu n).takeWhile (fun c => digitValue c < 10) = formatLlu n :=
    List.takeWhile_eq_self_iff.mpr fun d member =>
      decide_eq_true (digitValue_of_strIsdigit (digits d member)).2
  rw [strToull, unskipped, unsigned, whole]
  refine (foldl_digits digits 0).trans ?_
  rw [value, Nat.mod_mod]

/-! ## One line -/

/-- An entry that the list does not know, and whose texts survive on a line. -/
structure Travels (list : List Entry) (entry : Entry) : Prop where
  user : PlainWord entry.user
  host : PlainWord entry.host
  info : PlainWord entry.info
  stamp : entry.ts < 2 ^ 64
  reason : restOfLine entry.reason = entry.reason
  made : lineNew entry.user entry.host entry.info entry.ts (some entry.reason) = entry
  unknown : lineFind list entry.user entry.host (lineMask entry.host).1 = none

section Travels

variable {list : List Entry} {entry : Entry}

theorem Travels.plain (travels : Travels list entry) :
    ∀ w ∈ [entry.user, entry.host, entry.info, formatLlu entry.ts], PlainWord w := by
  simp only [List.forall_mem_cons]
  exact ⟨travels.user, travels.host, travels.info, plainWord_toDigits _, nofun⟩

theorem Travels.strToull_ts (travels : Travels list entry) :
    strToull (formatLlu entry.ts) = entry.ts := by
  rw [strToull_formatLlu, Nat.mod_eq_of_lt travels.stamp]

theorem Travels.msGline_first (travels : Travels list entry) :
    msGline list (entry.glineArgs (some entry.reason)) =
      (list ++ [entry], some (.gline (entry.glineArgs none))) := by
  have tokens : strTokenize 5 (entry.glineArgs (some entry.reason)) =
      [entry.user, entry.host, entry.info, formatLlu entry.ts, entry.reason] :=
    (strTokenize_last travels.plain entry.reason (show 4 < 5 by decide)).trans
      (by rw [travels.reason]; rfl)
  rw [msGline, tokens]
  simp only [travels.unknown, travels.strToull_ts, List.head?_cons, travels.made]

theorem Travels.msGline_next (travels : Travels list entry) (noReason : entry.reason = []) :
    msGline list (entry.glineArgs none) =
      (list ++ [entry], some (.gline (entry.glineArgs none))) := by
  have tokens : strTokenize 5 (entry.glineArgs none) =
      [entry.user, entry.host, entry.info, formatLlu entry.ts] :=
    strTokenize_intercalate travels.plain (show 4 ≤ 5 by decide)
  have made : lineNew entry.user entry.host entry.info entry.ts none = entry := by
    have remade := travels.made
    rw [noReason] at remade
    exact remade
  rw [msGline, tokens]
  simp only [travels.unknown, travels.strToull_ts, List.head?_nil, made]

end Travels

/-- The removal that is relayed finds the entry that was removed. -/
theorem unglineFound_eq {list : List Entry} {user host : CString} {entry : Entry}
    (found : lineFind list user host (lineMask host).1 = some entry) :
    unglineFound list user host none =
      (list.erase entry, some (.ungline (unglineArgs entry.user entry.host))) := by
  have isErase : lineDelete list user host (lineMask host).1 = list.erase entry := by
    obtain ⟨meets, before, behind, isList, unmet⟩ := lineFind_split found
    have absent : entry ∉ before := fun member => unmet entry member meets
    rw [lineDelete, isList, List.eraseP_append_right _ unmet, List.eraseP_cons_of_pos meets,
      List.erase_append_right _ absent, List.erase_cons_head]
  rw [unglineFound, found, isErase]
  rfl

theorem msUngline_eq {list : List Entry} {entry : Entry} (fits : Net.UnglineFits list entry) :
    msUngline list (unglineArgs entry.user entry.host) none =
      (list.erase entry, some (.ungline (unglineArgs entry.user entry.host))) := by
  obtain ⟨found, user, host⟩ := fits
  have plain : ∀ w ∈ [entry.user, entry.host], PlainWord w := by
    simp only [List.forall_mem_cons]
    exact ⟨user, host, nofun⟩
  have tokens : strTokenize 2 (unglineArgs entry.user entry.host) =
      [entry.user, entry.host] :=
    strTokenize_intercalate plain (le_refl 2)
  rw [msUngline, tokens]
  exact unglineFound_eq found

/-! ## Down the tree -/

/-- Each server behind the links makes the same change, and tells the next ones. -/
def Reaches (list list' : List Entry) : Line → Route → Prop
  | _, .nil => True
  | line, .cons _ behind others =>
    ((receive list none line).1 = list' ∧
      match (receive list none line).2 with
      | none => behind = .nil
      | some next => Reaches list list' next behind) ∧
    Reaches list list' line others

/-- A line that is relayed as it is reaches every server. -/
theorem reaches_of_fixed {list list' : List Entry} {line : Line}
    (fixed : receive list none line = (list', some line)) (route : Route) :
    Reaches list list' line route := by
  induction route with
  | nil => trivial
  | cons server behind others behindInduction othersInduction =>
      rw [Reaches, fixed]
      exact ⟨⟨rfl, behindInduction⟩, othersInduction⟩

/-- A line that is relayed in another way reaches the servers of the first links. -/
theorem reaches_of_flat {list list' : List Entry} {line next : Line}
    (first : receive list none line = (list', some next)) {route : Route} (flat : route.Flat) :
    Reaches list list' line route := by
  induction route with
  | nil => trivial
  | cons server behind others _ othersInduction =>
      obtain ⟨isNil, flat⟩ := flat
      rw [Reaches, first, isNil]
      exact ⟨⟨rfl, trivial⟩, othersInduction flat⟩

theorem Travels.reaches {list : List Entry} {entry : Entry} (travels : Travels list entry)
    {route : Route} (near : entry.reason = [] ∨ route.Flat) (reason : Option CString)
    (isReason : reason = none → entry.reason = []) :
    Reaches list (list ++ [entry])
      (.gline (entry.glineArgs (reason.map fun _ => entry.reason))) route := by
  have later (noReason : entry.reason = []) (route : Route) :
      Reaches list (list ++ [entry]) (.gline (entry.glineArgs none)) route :=
    reaches_of_fixed
      (show receive list none (.gline (entry.glineArgs none)) = _ from
        travels.msGline_next noReason) route
  cases reason with
  | none => exact later (isReason rfl) route
  | some text =>
      have first : receive list none (.gline (entry.glineArgs (some entry.reason))) =
          (list ++ [entry], some (.gline (entry.glineArgs none))) :=
        travels.msGline_first
      rw [Option.map_some]
      rcases near with noReason | flat
      · induction route with
        | nil => trivial
        | cons server behind others _ othersInduction =>
            rw [Reaches, first]
            exact ⟨⟨rfl, later noReason behind⟩, othersInduction⟩
      · exact reaches_of_flat first flat

/-! ## The servers in flight -/

namespace Net

/-- The servers that a line is on its way to. -/
def pending (wires : List Wire) : List Nat :=
  wires.flatMap fun wire => wire.target :: wire.behind.servers

theorem pending_send (line : Line) (route : Route) : pending (route.send line) = route.servers := by
  induction route with
  | nil => rfl
  | cons server behind others _ othersInduction =>
      rw [Route.send, pending, List.flatMap_cons, ← pending, othersInduction, Route.servers,
        List.cons_append]

/-- A change spreads: the servers that lines are on their way to have the old list, the
others the new one, and the lines do the rest. -/
structure Spreading (servers : Finset Nat) (list list' : List Entry) (net : Net) : Prop where
  distinct : (pending net.wires).Nodup
  within : ∀ server ∈ pending net.wires, server ∈ servers
  lists : ∀ server ∈ servers,
    net.lists server = if server ∈ pending net.wires then list else list'
  reaches : ∀ wire ∈ net.wires, Reaches list list' wire.line (.cons wire.target wire.behind .nil)

variable {servers : Finset Nat} {list list' : List Entry} {net : Net}

theorem Spreading.agree (spreading : Spreading servers list list' net)
    (processed : net.wires = []) : ∀ server ∈ servers, net.lists server = list' := by
  intro server member
  rw [spreading.lists server member, processed]
  exact if_neg (List.not_mem_nil)

/-- Where nothing is in flight, the server that a command comes to has the new list. -/
theorem Spreading.lists_of_spans {server : Nat} {route : Route}
    (spreading : Spreading servers list list' net) (idle : net.wires = [])
    (spans : route.Spans server servers) : net.lists server = list' := by
  refine spreading.agree idle server ?_
  rw [← spans.2, List.mem_toFinset]
  exact List.mem_cons_self

/-- The wires that a line is sent over. -/
theorem reaches_send {line : Line} {route : Route} (reaches : Reaches list list' line route) :
    ∀ wire ∈ route.send line,
      Reaches list list' wire.line (.cons wire.target wire.behind .nil) := by
  induction route with
  | nil => exact nofun
  | cons server behind others _ othersInduction =>
      intro wire member
      rcases List.mem_cons.mp member with isFirst | member
      · rw [isFirst]
        exact ⟨reaches.1, trivial⟩
      · exact othersInduction reaches.2 wire member

/-- A server that had the old list makes the change and tells its links. -/
theorem Spreading.handled {server : Nat} {behind : Route} {result : Handled}
    {rest : List Wire} {before : List Nat}
    (lists : ∀ other ∈ servers, net.lists other = if other ∈ before then list else list')
    (shares : before.Perm (server :: (behind.servers ++ pending rest)))
    (distinct : before.Nodup) (within : ∀ other ∈ before, other ∈ servers)
    (reaches : ∀ wire ∈ rest, Reaches list list' wire.line (.cons wire.target wire.behind .nil))
    (changed : result.1 = list')
    (told : match result.2 with
      | none => behind = .nil
      | some next => Reaches list list' next behind) :
    Spreading servers list list'
      (({ net with wires := rest } : Net).handled server behind result) := by
  have isPending : pending
      (({ net with wires := rest } : Net).handled server behind result).wires =
        pending rest ++ behind.servers := by
    rw [Net.handled, pending, List.flatMap_append, ← pending, ← pending]
    cases relay : result.2 with
    | none =>
        rw [relay] at told
        rw [told]
        rfl
    | some next => exact congrArg (pending rest ++ ·) (pending_send next behind)
  have shares : before.Perm (server :: (pending rest ++ behind.servers)) :=
    shares.trans (List.perm_append_comm.cons server)
  obtain ⟨gone, distinct⟩ := List.nodup_cons.mp (shares.nodup_iff.mp distinct)
  constructor
  case distinct =>
    rw [isPending]
    exact distinct
  case within =>
    intro other isPending'
    rw [isPending] at isPending'
    exact within other (shares.mem_iff.mpr (List.mem_cons_of_mem server isPending'))
  case lists =>
    intro other member
    rw [isPending, Net.handled]
    dsimp only
    by_cases same : other = server
    · rw [same, Function.update_self, if_neg gone, changed]
    · have still : other ∈ before ↔ other ∈ pending rest ++ behind.servers := by
        rw [shares.mem_iff, List.mem_cons, or_iff_right same]
      rw [Function.update_of_ne same, lists other member]
      simp only [still]
  case reaches =>
    intro wire isWire
    rcases List.mem_append.mp isWire with old | new
    · exact reaches wire old
    · cases relay : result.2 with
      | none =>
          rw [relay] at new
          exact absurd new List.not_mem_nil
      | some next =>
          rw [relay] at new told
          exact reaches_send told wire new

/-- A command that meets the condition starts a change, or nothing happens. -/
theorem Spreading.command {server : Nat} {route : Route} {result : Handled}
    (spreading : Spreading servers list list' net) (idle : net.wires = [])
    (spans : route.Spans server servers)
    (does : result = (list', none) ∨
      ∃ line, result.2 = some line ∧ Reaches list' result.1 line route) :
    ∃ old new, Spreading servers old new (net.handled server route result) := by
  have agree := spreading.agree idle
  obtain ⟨distinct, isServers⟩ := spans
  have mem_iff (other : Nat) : other ∈ server :: route.servers ↔ other ∈ servers := by
    rw [← isServers, List.mem_toFinset]
  rcases does with nothing | ⟨line, tells, reaches⟩
  · refine ⟨list', list', ?_⟩
    have same : (net.handled server route result).lists = net.lists := by
      rw [Net.handled, nothing, ← agree server ((mem_iff server).mp List.mem_cons_self)]
      exact Function.update_eq_self server net.lists
    have still : (net.handled server route result).wires = [] := by
      rw [Net.handled, nothing, idle]
      rfl
    constructor
    case distinct =>
      rw [still]
      exact List.nodup_nil
    case within =>
      rw [still]
      exact nofun
    case lists =>
      intro other member
      rw [same, agree other member, ite_self]
    case reaches =>
      rw [still]
      exact nofun
  · refine ⟨list', result.1, ?_⟩
    have lists : ∀ other ∈ servers, net.lists other =
        if other ∈ server :: route.servers then list' else result.1 := by
      intro other member
      rw [agree other member, if_pos ((mem_iff other).mpr member)]
    have shares : (server :: route.servers).Perm
        (server :: (route.servers ++ pending [])) := by
      rw [pending, List.flatMap_nil, List.append_nil]
    have told : match result.2 with
        | none => route = .nil
        | some next => Reaches list' result.1 next route := by
      rw [tells]
      exact reaches
    have noWires : ({ net with wires := [] } : Net) = net := by rw [← idle]
    rw [← noWires]
    exact Spreading.handled lists shares distinct (fun other => (mem_iff other).mp) nofun rfl
      told

/-- A line that arrives spreads the change. -/
theorem Spreading.deliver {place : Nat} {wire : Wire}
    (spreading : Spreading servers list list' net) (arrives : net.wires[place]? = some wire) :
    Spreading servers list list'
      (({ net with wires := net.wires.eraseIdx place } : Net).handled wire.target wire.behind
        (receive (net.lists wire.target) none wire.line)) := by
  obtain ⟨inside, isWire⟩ := List.getElem?_eq_some_iff.mp arrives
  have member : wire ∈ net.wires := by
    rw [← isWire]
    exact List.getElem_mem inside
  have shares : (pending net.wires).Perm
      (wire.target :: (wire.behind.servers ++ pending (net.wires.eraseIdx place))) := by
    have taken := (List.getElem_cons_eraseIdx_perm inside).symm
    rw [isWire] at taken
    exact taken.flatMap_right _
  have isPending : wire.target ∈ pending net.wires :=
    shares.mem_iff.mpr List.mem_cons_self
  have isServer := spreading.within wire.target isPending
  have isOld : net.lists wire.target = list := by
    rw [spreading.lists wire.target isServer, if_pos isPending]
  have reached := (spreading.reaches wire member).1
  rw [isOld]
  exact Spreading.handled spreading.lists shares spreading.distinct spreading.within
    (fun other isOther => spreading.reaches other (List.mem_of_mem_eraseIdx isOther))
    reached.1 reached.2

/-! ## Commands -/

theorem strlcpy_strlcpy (s : CString) (n : Nat) : strlcpy (strlcpy s n) n = strlcpy s n := by
  rw [strlcpy, strlcpy, List.take_take, Nat.min_self]

theorem typedParts_ne_nil (arg : CString) : (typedParts arg).1 ≠ [] ∧ (typedParts arg).2 ≠ [] := by
  have some' (text : CString) : (if text = [] then ['*'] else text) ≠ [] := by
    split
    · exact List.cons_ne_nil _ _
    · assumption
  rw [typedParts]
  split
  · exact ⟨some' _, some' _⟩
  · exact ⟨List.cons_ne_nil _ _, some' _⟩

/-- What the loops of the split functions leave of a part is one word, which only a colon
could make a last argument. -/
theorem plainWord_filtered {allowed : Char → Bool} {part : CString} {size : Nat}
    (some' : part ≠ []) (room : 2 ≤ size)
    (good : ∀ c, strIsspace c = true → (charsIskwildchar c || allowed c) = false)
    (noColon : (filtered allowed (strlcpy part size)).head? ≠ some ':') :
    PlainWord (filtered allowed (strlcpy part size)) := by
  have copied : strlcpy part size ≠ [] := by
    cases part with
    | nil => exact absurd rfl some'
    | cons c part =>
        rw [strlcpy]
        obtain ⟨n, isSize⟩ := Nat.exists_eq_add_of_le' room
        rw [isSize]
        exact List.cons_ne_nil _ _
  have words : filtered allowed (strlcpy part size) ≠ [] ∧
      ∀ c ∈ filtered allowed (strlcpy part size), strIsspace c = false := by
    rw [filtered]
    split
    case isTrue =>
      refine ⟨List.cons_ne_nil _ _, fun c member => ?_⟩
      rw [List.mem_singleton.mp member]
      decide
    case isFalse keeps =>
      refine ⟨fun isNil => keeps ⟨isNil, copied⟩, fun c member => ?_⟩
      have isGood := List.mem_takeWhile_imp member
      by_contra blank
      rw [good c (by simpa using blank)] at isGood
      cases isGood
  exact ⟨words.1, words.2, noColon⟩

theorem blank_cases {c : Char} (blank : strIsspace c = true) :
    c = ' ' ∨ c = '\t' ∨ c = '\n' ∨ c = '\r' := by
  simpa [strIsspace, or_assoc] using blank

theorem plainWord_user (arg : CString) : PlainWord (lineSplit arg).user := by
  refine plainWord_filtered (typedParts_ne_nil arg).1 (by decide) ?_ ?_
  · intro c blank
    rcases blank_cases blank with rfl | rfl | rfl | rfl <;> decide
  · intro isColon
    have member := List.mem_of_head? isColon
    rw [filtered] at member
    split at member
    · exact absurd member (by decide)
    · exact absurd (List.mem_takeWhile_imp member) (by decide)

theorem plainWord_host {arg : CString} (noColon : (lineSplit arg).host.head? ≠ some ':') :
    PlainWord (lineSplit arg).host := by
  refine plainWord_filtered (typedParts_ne_nil arg).2 (by decide) ?_ noColon
  intro c blank
  rcases blank_cases blank with rfl | rfl | rfl | rfl <;> decide

/-- A new entry that meets the condition travels. -/
theorem travels_of_fits {arg info : CString} {mtime : Nat} {reason : Option CString}
    {route : Route}
    (unknown : lineFind list (lineSplit arg).user (lineSplit arg).host
      (lineMask (lineSplit arg).host).1 = none)
    (fits : GlineFits (lineNew (lineSplit arg).user (lineSplit arg).host (strlcpy info 114)
      (mtime % 2 ^ 64) reason) route) :
    Travels list (lineNew (lineSplit arg).user (lineSplit arg).host (strlcpy info 114)
      (mtime % 2 ^ 64) reason) := by
  obtain ⟨noColon, isInfo, isReason, _⟩ := fits
  have userFits : (lineSplit arg).user.length < 16 := length_filtered_lt _ (by decide)
  have hostFits : (lineSplit arg).host.length < 64 := length_filtered_lt _ (by decide)
  obtain ⟨sameUser, sameHost⟩ := @lineNew_eq (lineSplit arg).user (lineSplit arg).host
    (strlcpy info 114) (mtime % 2 ^ 64) reason userFits hostFits
  rw [sameHost] at noColon
  exact
    { user := by rw [sameUser]; exact plainWord_user arg
      host := by rw [sameHost]; exact plainWord_host noColon
      info := isInfo
      stamp := Nat.mod_lt _ (by decide)
      reason := isReason
      made := by
        rw [sameUser, sameHost]
        simp only [lineNew, Option.getD_some, strlcpy_strlcpy]
      unknown := by rw [sameUser, sameHost]; exact unknown }

theorem moGline_does {arg info : CString} {mtime : Nat} {reason : Option CString}
    {route : Route}
    (fits : ¬ (lineSplit arg).invalid →
      lineFind list (lineSplit arg).user (lineSplit arg).host
        (lineMask (lineSplit arg).host).1 = none →
      GlineFits (lineNew (lineSplit arg).user (lineSplit arg).host (strlcpy info 114)
        (mtime % 2 ^ 64) reason) route) :
    moGline list arg info mtime reason = (list, none) ∨
      ∃ line, (moGline list arg info mtime reason).2 = some line ∧
        Reaches list (moGline list arg info mtime reason).1 line route := by
  rw [moGline]
  cases answer : lineCommand list arg (strlcpy info 114) (mtime % 2 ^ 64) reason with
  | invalid => exact .inl rfl
  | already entry => exact .inl rfl
  | added entry =>
      obtain ⟨⟨valid, unknown⟩, isEntry⟩ := lineCommand_eq_added_iff.mp answer
      have fits := fits valid unknown
      have travels := travels_of_fits unknown fits
      rw [isEntry] at fits travels
      refine .inr ⟨_, rfl, travels.reaches fits.2.2.2 reason fun isNone => ?_⟩
      rw [← isEntry, isNone]
      rfl

theorem moUngline_does {arg : CString} {route : Route}
    (fits : ¬ (lineSplit arg).invalid →
      ∀ entry ∈ lineFind list (lineSplit arg).user (lineSplit arg).host
        (lineMask (lineSplit arg).host).1, UnglineFits list entry) :
    moUngline list arg none = (list, none) ∨
      ∃ line, (moUngline list arg none).2 = some line ∧
        Reaches list (moUngline list arg none).1 line route := by
  rw [moUngline]
  split
  case isTrue => exact .inl rfl
  case isFalse valid =>
    cases found : lineFind list (lineSplit arg).user (lineSplit arg).host
        (lineMask (lineSplit arg).host).1 with
    | none =>
        rw [unglineFound, found]
        exact .inl rfl
    | some entry =>
        rw [unglineFound_eq found]
        refine .inr ⟨_, rfl, reaches_of_fixed ?_ route⟩
        exact msUngline_eq (fits valid entry found)

/-- What one event preserves. -/
theorem spreading_step {net next : Net} {event : NetEvent}
    (spreading : ∃ old new, Spreading servers old new net) (fits : net.Fits event)
    (steps : net.step servers event = some next) :
    ∃ old new, Spreading servers old new next := by
  obtain ⟨old, new, spreading⟩ := spreading
  cases event with
  | gline server route arg info mtime reason =>
      rw [step] at steps
      split at steps
      case isFalse => cases steps
      case isTrue begins =>
        rw [← Option.some.inj steps]
        have isNew := spreading.lists_of_spans begins.1 begins.2
        rw [Fits, isNew] at fits
        rw [isNew]
        exact spreading.command begins.1 begins.2 (moGline_does fits)
  | ungline server route arg stale =>
      rw [step] at steps
      split at steps
      case isFalse => cases steps
      case isTrue begins =>
        rw [← Option.some.inj steps]
        have isNew := spreading.lists_of_spans begins.1 begins.2
        rw [Fits, isNew] at fits
        rw [isNew, fits.1]
        exact spreading.command begins.1 begins.2 (moUngline_does fits.2)
  | deliver place stale =>
      rw [step] at steps
      split at steps
      case h_1 => cases steps
      case h_2 wire arrives =>
        rw [← Option.some.inj steps, show stale = none from fits]
        exact ⟨old, new, spreading.deliver arrives⟩

theorem start_spreading (servers : Finset Nat) (list : List Entry) :
    Spreading servers list list (start list) where
  distinct := List.nodup_nil
  within := nofun
  lists := fun _ _ => (ite_self _).symm
  reaches := nofun

/-- When all lines of a run of commands that meet the condition have been handled, the
servers have the same entries. -/
theorem agree_of_guardedRun (servers : Finset Nat) (list : List Entry) {events : List NetEvent}
    {net : Net}
    (guarded : TransitionSystem.GuardedRun (step servers) Fits (start list) events)
    (runs : TransitionSystem.run (step servers) (start list) events = some net)
    (processed : net.wires = []) : net.Agree servers := by
  obtain ⟨old, new, spreading⟩ :=
    TransitionSystem.invariant_of_guardedRun
      (fun _ _ _ spreading fits steps => spreading_step spreading fits steps)
      ⟨list, list, start_spreading servers list⟩ guarded runs
  intro server member other isOther
  rw [spreading.agree processed server member, spreading.agree processed other isOther]

/-- Three servers in a row. -/
def row : Finset Nat :=
  {0, 1, 2}

/-- A G-line with a reason from the first one. -/
def fromTheEnd : List NetEvent :=
  [.gline 0 (.cons 1 (.cons 2 .nil .nil) .nil) "*@host.example".toList
      "oper!root@localhost".toList 1000 (some "spam".toList),
    .deliver 0 none, .deliver 0 none]

theorem reason_lost_on_second_link :
    ∃ net, TransitionSystem.run (step row) (start []) fromTheEnd = some net ∧ net.wires = [] ∧
      ¬ net.Agree row := by
  have ends : ((TransitionSystem.run (step row) (start []) fromTheEnd).map fun net =>
      (net.wires, (net.lists 0).map Entry.reason, (net.lists 2).map Entry.reason)) =
        some ([], ["spam".toList], [[]]) := by
    rw [fromTheEnd]
    repeat rw [String.toList_ofList]
    decide +kernel
  obtain ⟨net, runs, isNet⟩ := Option.map_eq_some_iff.mp ends
  simp only [Prod.mk.injEq] at isNet
  obtain ⟨processed, first, last⟩ := isNet
  refine ⟨net, runs, processed, fun agree => ?_⟩
  rw [agree 0 (by decide) 2 (by decide), last] at first
  exact absurd first (by decide)

/-- The same from the server in the middle, and the removal from the end. -/
def fromTheMiddle : List NetEvent :=
  [.gline 1 (.cons 0 .nil (.cons 2 .nil .nil)) "*@host.example".toList
      "oper!root@localhost".toList 1000 (some "spam".toList),
    .deliver 1 none, .deliver 0 none,
    .gline 2 (.cons 1 (.cons 0 .nil .nil) .nil) "*@10.0.0.0/8".toList
      "oper!root@localhost".toList 2000 none,
    .deliver 0 none, .deliver 0 none,
    .ungline 0 (.cons 1 (.cons 2 .nil .nil) .nil) "joe@host.example".toList none,
    .deliver 0 none, .deliver 0 none]

theorem fromTheMiddle_agree :
    ∃ net, TransitionSystem.run (step row) (start []) fromTheMiddle = some net ∧
      net.wires = [] ∧ net.Agree row := by
  have guarded : TransitionSystem.GuardedRun (step row) Fits (start []) fromTheMiddle := by
    rw [fromTheMiddle]
    repeat rw [String.toList_ofList]
    decide +kernel
  have ends : ((TransitionSystem.run (step row) (start []) fromTheMiddle).map Net.wires) =
      some [] := by
    rw [fromTheMiddle]
    repeat rw [String.toList_ofList]
    decide +kernel
  obtain ⟨net, runs, processed⟩ := Option.map_eq_some_iff.mp ends
  exact ⟨net, runs, processed, agree_of_guardedRun row [] guarded runs processed⟩

end Net

end BanList

end Chaosircd
