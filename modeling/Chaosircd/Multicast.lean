import Chaosircd.StampWalk

/-!
# Multicasting to channels

`chanuser_vsend` sends one line to the local members of all channels of a user,
`server_vsend` one line to the servers behind which a channel has members.  Both
walk over member lists that overlap and recognise whom they have reached by a
serial number: a global counter is incremented before the walk, and whoever is
reached gets its value.  The counters and the stamps are 32-bit numbers.
-/

namespace Chaosircd

namespace Multicast

/-! ## The network as the senders see it -/

/-- `struct client`, with its channels if it is a user. -/
structure Client where
  isUser : Bool
  isLocal : Bool
  lclient : Option Nat
  source : Nat
  channels : List Nat

/-- `struct channel`: its local and its remote members. -/
structure Channel where
  lchanusers : List Nat
  rchanusers : List Nat

/-- Clients, channels and the capabilities of the connections.  A connection belongs to one
local client, which keeps it as its source when it has lost it already. -/
structure Network where
  client : Nat → Client
  channel : Nat → Channel
  caps : Nat → BitVec 64
  linked : ∀ {c l}, (client c).lclient = some l → (client c).isLocal ∧ (client c).source = l
  own : ∀ {c c'}, (client c).isLocal → (client c').isLocal →
    (client c).source = (client c').source → c = c'
  channelsOfUser : ∀ {c}, (client c).isUser = false → (client c).channels = []
  localMember : ∀ {ch c}, c ∈ (channel ch).lchanusers → (client c).isLocal
  remoteMember : ∀ {ch c}, c ∈ (channel ch).rchanusers → (client c).isLocal = false

/-- The counters and the stamps. -/
structure Serials where
  clientSerial : Nat
  clientStamp : Nat → Nat
  lclientSerial : Nat
  lclientStamp : Nat → Nat

/-- `serial++`. -/
def bump (serial : Nat) : Nat :=
  (serial + 1) % 2 ^ 32

/-- `io_multi_link` for one member of a local list, unless it is passed over. -/
def linkMember (net : Network) (lcptr : Option Nat) (serial : Nat)
    (walk : StampWalk.Walk Nat Nat) (acptr : Nat) : StampWalk.Walk Nat Nat :=
  match (net.client acptr).lclient with
  | none => walk
  | some l =>
    if (net.client acptr).isLocal = false then walk
    else if lcptr = some l then walk
    else if walk.stamp acptr = serial then walk
    else
      { stamp := Function.update walk.stamp acptr serial
        taken := walk.taken ++ [acptr] }

/-- The two loops of `chanuser_vsend`. -/
def memberWalk (net : Network) (serials : Serials) (lcptr : Option Nat) (cptr : Nat) :
    StampWalk.Walk Nat Nat :=
  (net.client cptr).channels.foldl
    (fun walk chptr =>
      (net.channel chptr).lchanusers.foldl
        (linkMember net lcptr (bump serials.clientSerial)) walk)
    ⟨serials.clientStamp, []⟩

/-- `chanuser_vsend`: the counters afterwards, and the connections the line goes to. -/
def chanuserVsend (net : Network) (serials : Serials) (lcptr : Option Nat) (cptr : Nat) :
    Serials × List Nat :=
  if (net.client cptr).isUser = false then (serials, [])
  else
    let serial := bump serials.clientSerial
    let walk := memberWalk net serials lcptr cptr
    let links := walk.taken.filterMap fun acptr => (net.client acptr).lclient
    ({ serials with clientSerial := serial, clientStamp := walk.stamp },
      if (net.client cptr).isLocal ∧ lcptr ≠ some (net.client cptr).source ∧
          walk.stamp cptr ≠ serial then
        links ++ [(net.client cptr).source]
      else links)

/-- The connection has all capabilities of the first set and none of the second. -/
def HasCaps (flags caps nocaps : BitVec 64) : Prop :=
  flags &&& caps = caps ∧ flags &&& nocaps = 0

instance (flags caps nocaps : BitVec 64) : Decidable (HasCaps flags caps nocaps) :=
  inferInstanceAs (Decidable (_ ∧ _))

/-- `io_multi_link` for the server of one remote member, unless it is passed over. -/
def linkServer (net : Network) (one : Option Nat) (caps nocaps : BitVec 64) (serial : Nat)
    (walk : StampWalk.Walk Nat Nat) (cuptr : Nat) : StampWalk.Walk Nat Nat :=
  let l := (net.client cuptr).source
  if walk.stamp l = serial then walk
  else if one = some l then walk
  else if net.caps l &&& caps ≠ caps then walk
  else if net.caps l &&& nocaps ≠ 0 then walk
  else { stamp := Function.update walk.stamp l serial, taken := walk.taken ++ [cuptr] }

/-- `server_vsend` to a channel: the counters afterwards, and the connections the line goes
to. -/
def serverVsend (net : Network) (serials : Serials) (one : Option Nat) (chptr : Nat)
    (caps nocaps : BitVec 64) : Serials × List Nat :=
  let serial := bump serials.lclientSerial
  let walk := (net.channel chptr).rchanusers.foldl (linkServer net one caps nocaps serial)
    ⟨serials.lclientStamp, []⟩
  ({ serials with lclientSerial := serial, lclientStamp := walk.stamp },
    walk.taken.map fun cuptr => (net.client cuptr).source)

/-! ## Exactly once -/

/-- All members of a channel. -/
def Channel.members (chptr : Channel) : List Nat :=
  chptr.lchanusers ++ chptr.rchanusers

/-- The client is a local member of a channel of the user, and its connection is not the
excluded one. -/
structure Shares (net : Network) (lcptr : Option Nat) (cptr acptr l : Nat) : Prop where
  member : ∃ ch ∈ (net.client cptr).channels, acptr ∈ (net.channel ch).members
  isLocal : (net.client acptr).isLocal
  connected : (net.client acptr).lclient = some l
  other : lcptr ≠ some l

/-- The member lives behind this link, which has the right capabilities and is not the
excluded one. -/
structure Behind (net : Network) (one : Option Nat) (chptr : Nat) (caps nocaps : BitVec 64)
    (cuptr l : Nat) : Prop where
  member : cuptr ∈ (net.channel chptr).members
  remote : (net.client cuptr).isLocal = false
  source : (net.client cuptr).source = l
  other : one ≠ some l
  hasCaps : HasCaps (net.caps l) caps nocaps

/-- A line of `chanuser_vsend` reaches every local member that shares a channel exactly
once, nobody twice and never the excluded connection. -/
structure MembersOnce (net : Network) (serials : Serials) (lcptr : Option Nat) (cptr : Nat) :
    Prop where
  reached : ∀ acptr l, Shares net lcptr cptr acptr l →
    (chanuserVsend net serials lcptr cptr).2.count l = 1
  once : (chanuserVsend net serials lcptr cptr).2.Nodup
  excluded : ∀ l, lcptr = some l → l ∉ (chanuserVsend net serials lcptr cptr).2

/-- A line of `server_vsend` reaches exactly once every link behind which a member lives,
and no other one. -/
structure ServersOnce (net : Network) (serials : Serials) (one : Option Nat) (chptr : Nat)
    (caps nocaps : BitVec 64) : Prop where
  reached : ∀ cuptr l, Behind net one chptr caps nocaps cuptr l →
    (serverVsend net serials one chptr caps nocaps).2.count l = 1
  others : ∀ l, (¬ ∃ cuptr, Behind net one chptr caps nocaps cuptr l) →
    l ∉ (serverVsend net serials one chptr caps nocaps).2

/-! ## The two walks -/

section Members

variable {net : Network} {serials : Serials} {lcptr : Option Nat} {cptr : Nat}

/-- A local client that `chanuser_vsend` does not pass over. -/
def Linkable (net : Network) (lcptr : Option Nat) (acptr : Nat) : Prop :=
  ∃ l, (net.client acptr).lclient = some l ∧ lcptr ≠ some l

instance (net : Network) (lcptr : Option Nat) : DecidablePred (Linkable net lcptr) :=
  fun acptr => decidable_of_iff
    (∃ l ∈ (net.client acptr).lclient, lcptr ≠ some l) (by simp [Linkable, Option.mem_def])

theorem linkMember_eq (net : Network) (lcptr : Option Nat) (serial : Nat) :
    linkMember net lcptr serial =
      StampWalk.visit serial (Linkable net lcptr) (fun acptr => acptr) := by
  funext walk acptr
  cases found : (net.client acptr).lclient with
  | none => simp [linkMember, StampWalk.visit, Linkable, found]
  | some l =>
      have isLocal := (net.linked found).1
      by_cases excluded : lcptr = some l
      · simp [linkMember, StampWalk.visit, Linkable, found, excluded, isLocal]
      · by_cases stamped : walk.stamp acptr = serial
        · simp [linkMember, StampWalk.visit, found, stamped, isLocal]
        · simp [linkMember, StampWalk.visit, Linkable, found, stamped, excluded, isLocal]

theorem memberWalk_eq (net : Network) (serials : Serials) (lcptr : Option Nat)
    (cptr : Nat) :
    memberWalk net serials lcptr cptr =
      StampWalk.run (bump serials.clientSerial) (Linkable net lcptr) (fun acptr => acptr)
        serials.clientStamp
        ((net.client cptr).channels.flatMap fun ch => (net.channel ch).lchanusers) := by
  rw [memberWalk, StampWalk.run, List.foldl_flatMap, linkMember_eq]

/-- The members the walk takes. -/
theorem mem_memberWalk {acptr : Nat} :
    acptr ∈ (memberWalk net serials lcptr cptr).taken ↔
      serials.clientStamp acptr ≠ bump serials.clientSerial ∧
        ∃ l, Shares net lcptr cptr acptr l := by
  rw [memberWalk_eq]
  have complete := (StampWalk.run_visited (bump serials.clientSerial) (Linkable net lcptr)
    (fun acptr => acptr) serials.clientStamp
    ((net.client cptr).channels.flatMap fun ch => (net.channel ch).lchanusers)).complete
    acptr
  rw [List.map_id'] at complete
  rw [complete]
  refine and_congr_right fun _ => ?_
  constructor
  · rintro ⟨member, listed, ⟨l, connected, other⟩, rfl⟩
    obtain ⟨ch, joined, inside⟩ := List.mem_flatMap.mp listed
    exact ⟨l, ⟨ch, joined, List.mem_append_left _ inside⟩, (net.linked connected).1,
      connected, other⟩
  · rintro ⟨l, ⟨ch, joined, inside⟩, isLocal, connected, other⟩
    refine ⟨acptr, List.mem_flatMap.mpr ⟨ch, joined, ?_⟩, ⟨l, connected, other⟩, rfl⟩
    rcases List.mem_append.mp inside with here | remote
    · exact here
    · rw [net.remoteMember remote] at isLocal
      cases isLocal

/-- Everyone taken has a connection, which is also its source. -/
theorem links_eq :
    (memberWalk net serials lcptr cptr).taken.filterMap
        (fun acptr => (net.client acptr).lclient) =
      (memberWalk net serials lcptr cptr).taken.map fun acptr => (net.client acptr).source := by
  have connected : ∀ acptr ∈ (memberWalk net serials lcptr cptr).taken,
      (net.client acptr).lclient = some (net.client acptr).source := by
    intro acptr taken
    obtain ⟨-, l, shares⟩ := mem_memberWalk.mp taken
    rw [shares.connected, (net.linked shares.connected).2]
  rw [← List.filterMap_eq_map]
  exact List.filterMap_congr connected

theorem mem_taken_of_source {acptr : Nat} (isLocal : (net.client acptr).isLocal)
    (sent : (net.client acptr).source ∈
      (memberWalk net serials lcptr cptr).taken.map fun acptr => (net.client acptr).source) :
    acptr ∈ (memberWalk net serials lcptr cptr).taken := by
  obtain ⟨other, taken, same⟩ := List.mem_map.mp sent
  obtain ⟨-, l, shares⟩ := mem_memberWalk.mp taken
  rwa [net.own shares.isLocal isLocal same] at taken

theorem links_nodup :
    ((memberWalk net serials lcptr cptr).taken.map
      fun acptr => (net.client acptr).source).Nodup := by
  have once := (StampWalk.run_visited (bump serials.clientSerial) (Linkable net lcptr)
    (fun acptr => acptr) serials.clientStamp
    ((net.client cptr).channels.flatMap fun ch => (net.channel ch).lchanusers)).once
  rw [List.map_id', ← memberWalk_eq] at once
  refine List.Nodup.map_on ?_ once
  intro acptr taken other takenOther same
  obtain ⟨-, l, shares⟩ := mem_memberWalk.mp taken
  obtain ⟨-, l', shares'⟩ := mem_memberWalk.mp takenOther
  exact net.own shares.isLocal shares'.isLocal same

/-- The stamp of the walk is on whoever was taken, and on whoever had it before. -/
theorem memberWalk_stamp {acptr : Nat} :
    (memberWalk net serials lcptr cptr).stamp acptr = bump serials.clientSerial ↔
      acptr ∈ (memberWalk net serials lcptr cptr).taken ∨
        serials.clientStamp acptr = bump serials.clientSerial := by
  have passed := (StampWalk.run_visited (bump serials.clientSerial) (Linkable net lcptr)
    (fun acptr => acptr) serials.clientStamp
    ((net.client cptr).channels.flatMap fun ch => (net.channel ch).lchanusers)).passed_over
    acptr
  rwa [List.map_id', ← memberWalk_eq] at passed

end Members

section Servers

variable {net : Network} {serials : Serials} {one : Option Nat} {chptr : Nat}
variable {caps nocaps : BitVec 64}

/-- A remote member whose link `server_vsend` does not pass over. -/
def ServerLinkable (net : Network) (one : Option Nat) (caps nocaps : BitVec 64)
    (cuptr : Nat) : Prop :=
  one ≠ some (net.client cuptr).source ∧
    HasCaps (net.caps (net.client cuptr).source) caps nocaps

instance (net : Network) (one : Option Nat) (caps nocaps : BitVec 64) :
    DecidablePred (ServerLinkable net one caps nocaps) :=
  fun _ => inferInstanceAs (Decidable (_ ∧ _))

theorem linkServer_eq (net : Network) (one : Option Nat) (caps nocaps : BitVec 64)
    (serial : Nat) :
    linkServer net one caps nocaps serial =
      StampWalk.visit serial (ServerLinkable net one caps nocaps)
        (fun cuptr => (net.client cuptr).source) := by
  funext walk cuptr
  by_cases stamped : walk.stamp (net.client cuptr).source = serial
  · simp [linkServer, StampWalk.visit, stamped]
  · by_cases excluded : one = some (net.client cuptr).source
    · simp [linkServer, StampWalk.visit, ServerLinkable, excluded]
    · by_cases all : net.caps (net.client cuptr).source &&& caps = caps
      · by_cases none : net.caps (net.client cuptr).source &&& nocaps = 0#64
        · simp [linkServer, StampWalk.visit, ServerLinkable, HasCaps, stamped, excluded,
            all, none]
        · simp [linkServer, StampWalk.visit, ServerLinkable, HasCaps, excluded, all, none]
      · simp [linkServer, StampWalk.visit, ServerLinkable, HasCaps, stamped, excluded, all]

theorem serverVsend_visited (net : Network) (serials : Serials) (one : Option Nat)
    (chptr : Nat) (caps nocaps : BitVec 64) :
    ∃ walk, StampWalk.Visited (bump serials.lclientSerial)
        (ServerLinkable net one caps nocaps) (fun cuptr => (net.client cuptr).source)
        serials.lclientStamp (net.channel chptr).rchanusers walk ∧
      serverVsend net serials one chptr caps nocaps =
        ({ serials with
            lclientSerial := bump serials.lclientSerial
            lclientStamp := walk.stamp },
          walk.taken.map fun cuptr => (net.client cuptr).source) := by
  refine ⟨_, StampWalk.run_visited _ _ _ _ _, ?_⟩
  rw [serverVsend, linkServer_eq]
  rfl

theorem mem_serverVsend {l : Nat} :
    l ∈ (serverVsend net serials one chptr caps nocaps).2 ↔
      serials.lclientStamp l ≠ bump serials.lclientSerial ∧
        ∃ cuptr, Behind net one chptr caps nocaps cuptr l := by
  obtain ⟨walk, visited, sent⟩ := serverVsend_visited net serials one chptr caps nocaps
  rw [sent]
  dsimp only
  rw [visited.complete]
  refine and_congr_right fun _ => ?_
  constructor
  · rintro ⟨cuptr, listed, ⟨other, hasCaps⟩, rfl⟩
    exact ⟨cuptr, List.mem_append_right _ listed, net.remoteMember listed, rfl, other,
      hasCaps⟩
  · rintro ⟨cuptr, inside, remote, rfl, other, hasCaps⟩
    refine ⟨cuptr, ?_, ⟨other, hasCaps⟩, rfl⟩
    rcases List.mem_append.mp inside with here | listed
    · rw [net.localMember here] at remote
      cases remote
    · exact listed

theorem serverVsend_nodup : (serverVsend net serials one chptr caps nocaps).2.Nodup := by
  obtain ⟨walk, visited, sent⟩ := serverVsend_visited net serials one chptr caps nocaps
  rw [sent]
  exact visited.once

end Servers

/-! ## When a line reaches everyone -/

/-- Nobody the line is meant for carries the next serial number already. -/
structure Fresh (net : Network) (serials : Serials) (lcptr : Option Nat) (cptr : Nat)
    (one : Option Nat) (chptr : Nat) (caps nocaps : BitVec 64) : Prop where
  members : ∀ acptr l, Shares net lcptr cptr acptr l →
    serials.clientStamp acptr ≠ bump serials.clientSerial
  servers : ∀ cuptr l, Behind net one chptr caps nocaps cuptr l →
    serials.lclientStamp l ≠ bump serials.lclientSerial

section Once

variable {net : Network} {serials : Serials} {lcptr : Option Nat} {cptr : Nat}

theorem chanuserVsend_nodup : (chanuserVsend net serials lcptr cptr).2.Nodup := by
  rw [chanuserVsend]
  cases isUser : (net.client cptr).isUser with
  | false => simp
  | true =>
      rw [if_neg (by simp)]
      dsimp only
      rw [links_eq]
      split_ifs with last
      · -- the user itself is told last, unless the walk came past it
        obtain ⟨isLocal, -, unstamped⟩ := last
        rw [List.nodup_append]
        refine ⟨links_nodup, by simp, ?_⟩
        intro l sent l' single same
        have isSource : l' = (net.client cptr).source := by simpa using single
        rw [same, isSource] at sent
        exact unstamped (memberWalk_stamp.mpr (Or.inl (mem_taken_of_source isLocal sent)))
      · exact links_nodup

theorem mem_chanuserVsend {l : Nat} :
    l ∈ (chanuserVsend net serials lcptr cptr).2 ↔ (net.client cptr).isUser ∧
      ((∃ acptr, Shares net lcptr cptr acptr l ∧
          serials.clientStamp acptr ≠ bump serials.clientSerial) ∨
        ((net.client cptr).isLocal ∧ lcptr ≠ some (net.client cptr).source ∧
          (memberWalk net serials lcptr cptr).stamp cptr ≠ bump serials.clientSerial ∧
          l = (net.client cptr).source)) := by
  have linked : l ∈ (memberWalk net serials lcptr cptr).taken.filterMap
      (fun acptr => (net.client acptr).lclient) ↔
      ∃ acptr, Shares net lcptr cptr acptr l ∧
        serials.clientStamp acptr ≠ bump serials.clientSerial := by
    rw [List.mem_filterMap]
    constructor
    · rintro ⟨acptr, taken, connected⟩
      obtain ⟨fresh, l', shares⟩ := mem_memberWalk.mp taken
      have same : l' = l := Option.some.inj (shares.connected.symm.trans connected)
      exact ⟨acptr, same ▸ shares, fresh⟩
    · rintro ⟨acptr, shares, fresh⟩
      exact ⟨acptr, mem_memberWalk.mpr ⟨fresh, l, shares⟩, shares.connected⟩
  rw [chanuserVsend]
  cases isUser : (net.client cptr).isUser with
  | false => simp
  | true =>
      rw [if_neg (by simp)]
      dsimp only
      split_ifs with last
      · rw [List.mem_append, linked, List.mem_singleton]
        simp [last.1, last.2.1, last.2.2]
      · rw [linked]
        constructor
        · exact fun found => ⟨rfl, Or.inl found⟩
        · rintro ⟨-, found | ⟨isLocal, other, unstamped, -⟩⟩
          · exact found
          · exact absurd ⟨isLocal, other, unstamped⟩ last

theorem membersOnce_iff :
    MembersOnce net serials lcptr cptr ↔
      ∀ acptr l, Shares net lcptr cptr acptr l →
        serials.clientStamp acptr ≠ bump serials.clientSerial := by
  constructor
  · intro once acptr l shares stamped
    have sent : l ∈ (chanuserVsend net serials lcptr cptr).2 := by
      rw [← List.count_pos_iff, once.reached acptr l shares]
      exact Nat.one_pos
    obtain ⟨-, ⟨other, sharesToo, fresh⟩ | ⟨isLocal, -, unstamped, isSource⟩⟩ :=
      mem_chanuserVsend.mp sent
    · -- the connection has one client only
      have same : other = acptr := by
        refine net.own sharesToo.isLocal shares.isLocal ?_
        rw [(net.linked sharesToo.connected).2, (net.linked shares.connected).2]
      exact fresh (same ▸ stamped)
    · have same : cptr = acptr := by
        refine net.own isLocal shares.isLocal ?_
        rw [← isSource, (net.linked shares.connected).2]
      exact unstamped (memberWalk_stamp.mpr (Or.inr (same ▸ stamped)))
  · intro fresh
    refine ⟨?_, chanuserVsend_nodup, ?_⟩
    · intro acptr l shares
      have isUser : (net.client cptr).isUser := by
        cases user : (net.client cptr).isUser with
        | true => rfl
        | false =>
            obtain ⟨ch, joined, -⟩ := shares.member
            rw [net.channelsOfUser user] at joined
            cases joined
      exact List.count_eq_one_of_mem chanuserVsend_nodup
        (mem_chanuserVsend.mpr ⟨isUser, Or.inl ⟨acptr, shares, fresh acptr l shares⟩⟩)
    · rintro l rfl sent
      obtain ⟨-, ⟨acptr, shares, -⟩ | ⟨-, other, -, isSource⟩⟩ := mem_chanuserVsend.mp sent
      · exact shares.other rfl
      · exact other (congrArg some isSource)

theorem serversOnce_iff {one : Option Nat} {chptr : Nat} {caps nocaps : BitVec 64} :
    ServersOnce net serials one chptr caps nocaps ↔
      ∀ cuptr l, Behind net one chptr caps nocaps cuptr l →
        serials.lclientStamp l ≠ bump serials.lclientSerial := by
  constructor
  · intro once cuptr l behind
    have sent : l ∈ (serverVsend net serials one chptr caps nocaps).2 := by
      rw [← List.count_pos_iff, once.reached cuptr l behind]
      exact Nat.one_pos
    exact (mem_serverVsend.mp sent).1
  · intro fresh
    refine ⟨?_, ?_⟩
    · intro cuptr l behind
      exact List.count_eq_one_of_mem serverVsend_nodup
        (mem_serverVsend.mpr ⟨fresh cuptr l behind, cuptr, behind⟩)
    · intro l nobody sent
      exact nobody (mem_serverVsend.mp sent).2

end Once

/-- Whatever touches a counter or a stamp. -/
inductive Marking where
  | vsend (net : Network) (lcptr : Option Nat) (cptr : Nat)
  | serverVsend (net : Network) (one : Option Nat) (chptr : Nat) (caps nocaps : BitVec 64)
  /-- `WHO` and the burst to a server bump the counter and stamp the clients they show. -/
  | show (clients : List Nat)
  | clientNew (cptr : Nat)
  | lclientNew (lcptr : Nat)

/-- What it does to them. -/
def mark (serials : Serials) : Marking → Serials
  | .vsend net lcptr cptr => (chanuserVsend net serials lcptr cptr).1
  | .serverVsend net one chptr caps nocaps =>
    (serverVsend net serials one chptr caps nocaps).1
  | .show clients =>
    { serials with
      clientSerial := bump serials.clientSerial
      clientStamp := fun c =>
        if c ∈ clients then bump serials.clientSerial else serials.clientStamp c }
  | .clientNew cptr =>
    { serials with clientStamp := Function.update serials.clientStamp cptr 0 }
  | .lclientNew lcptr =>
    { serials with
      lclientStamp := Function.update serials.lclientStamp lcptr serials.lclientSerial }

/-- The counters when the daemon starts. -/
def Serials.boot : Serials :=
  ⟨0, fun _ => 0, 0, fun _ => 0⟩

/-- No counter is above `n` and no stamp above its counter. -/
structure Ahead (n : Nat) (serials : Serials) : Prop where
  clientSerial : serials.clientSerial ≤ n
  clientStamp : ∀ c, serials.clientStamp c ≤ serials.clientSerial
  lclientSerial : serials.lclientSerial ≤ n
  lclientStamp : ∀ l, serials.lclientStamp l ≤ serials.lclientSerial

theorem bump_of_lt {serial : Nat} (small : serial + 1 < 2 ^ 32) :
    bump serial = serial + 1 :=
  Nat.mod_eq_of_lt small

theorem Ahead.mark {n : Nat} {serials : Serials} (ahead : Ahead n serials)
    (small : n + 1 < 2 ^ 32) (marking : Marking) :
    Ahead (n + 1) (mark serials marking) := by
  have clientBump : bump serials.clientSerial = serials.clientSerial + 1 :=
    bump_of_lt (by have := ahead.clientSerial; omega)
  have lclientBump : bump serials.lclientSerial = serials.lclientSerial + 1 :=
    bump_of_lt (by have := ahead.lclientSerial; omega)
  have clientSerial := ahead.clientSerial
  have lclientSerial := ahead.lclientSerial
  have clientStamp := ahead.clientStamp
  have lclientStamp := ahead.lclientStamp
  cases marking with
  | vsend net lcptr cptr =>
      rw [Multicast.mark, chanuserVsend]
      cases isUser : (net.client cptr).isUser with
      | false => exact ⟨by simp; omega, by simpa using clientStamp, by simp; omega,
          by simpa using lclientStamp⟩
      | true =>
          rw [if_neg (by simp)]
          refine ⟨by simp only [clientBump]; omega, ?_, by simp only; omega, lclientStamp⟩
          intro c
          have earlier := clientStamp c
          have stamped := (StampWalk.run_visited (bump serials.clientSerial)
            (Linkable net lcptr) (fun acptr => acptr) serials.clientStamp
            ((net.client cptr).channels.flatMap
              fun ch => (net.channel ch).lchanusers)).stamped c
          rw [← memberWalk_eq] at stamped
          simp only [stamped, clientBump]
          split_ifs <;> omega
  | serverVsend net one chptr caps nocaps =>
      obtain ⟨walk, visited, sent⟩ := serverVsend_visited net serials one chptr caps nocaps
      rw [Multicast.mark, sent]
      refine ⟨by simp only; omega, clientStamp, by simp only [lclientBump]; omega, ?_⟩
      intro l
      have earlier := lclientStamp l
      simp only [visited.stamped l, lclientBump]
      split_ifs <;> omega
  | «show» clients =>
      refine ⟨by simp only [Multicast.mark, clientBump]; omega, ?_,
        by simp only [Multicast.mark]; omega, lclientStamp⟩
      intro c
      have earlier := clientStamp c
      simp only [Multicast.mark, clientBump]
      split_ifs <;> omega
  | clientNew cptr =>
      refine ⟨by simp only [Multicast.mark]; omega, ?_,
        by simp only [Multicast.mark]; omega, lclientStamp⟩
      intro c
      by_cases same : c = cptr
      · simp [Multicast.mark, same]
      · simpa [Multicast.mark, same] using clientStamp c
  | lclientNew lcptr =>
      refine ⟨by simp only [Multicast.mark]; omega, clientStamp,
        by simp only [Multicast.mark]; omega, ?_⟩
      intro l
      by_cases same : l = lcptr
      · simp [Multicast.mark, same]
      · simpa [Multicast.mark, same] using lclientStamp l

theorem ahead_of_run {n : Nat} {serials : Serials} (ahead : Ahead n serials)
    (markings : List Marking) (small : n + markings.length < 2 ^ 32) :
    Ahead (n + markings.length) (markings.foldl mark serials) := by
  induction markings generalizing n serials with
  | nil => exact ahead
  | cons marking markings ih =>
      rw [List.length_cons] at small ⊢
      have next := ih (ahead.mark (by omega) marking) (by omega)
      rwa [Nat.add_assoc, Nat.add_comm 1] at next

/-- Until a counter has come round every line reaches everyone. -/
theorem fresh_of_run (markings : List Marking) (few : markings.length + 1 < 2 ^ 32)
    (net : Network) (lcptr : Option Nat) (cptr : Nat) (one : Option Nat) (chptr : Nat)
    (caps nocaps : BitVec 64) :
    Fresh net (markings.foldl mark Serials.boot) lcptr cptr one chptr caps nocaps := by
  have boot : Ahead 0 Serials.boot :=
    ⟨Nat.le_refl _, fun _ => Nat.le_refl _, Nat.le_refl _, fun _ => Nat.le_refl _⟩
  have ahead := ahead_of_run boot markings (by omega)
  rw [Nat.zero_add] at ahead
  refine ⟨?_, ?_⟩
  · intro acptr l _ stamped
    have stamp := ahead.clientStamp acptr
    have serial := ahead.clientSerial
    rw [stamped, bump_of_lt (by omega)] at stamp
    omega
  · intro cuptr l _ stamped
    have stamp := ahead.lclientStamp l
    have serial := ahead.lclientSerial
    rw [stamped, bump_of_lt (by omega)] at stamp
    omega

/-! ### The counter comes round -/

/-- Two local users on one channel. -/
def pair : Network where
  client c :=
    if c = 1 ∨ c = 2 then
      { isUser := true, isLocal := true, lclient := some c, source := c, channels := [0] }
    else { isUser := false, isLocal := false, lclient := none, source := 0, channels := [] }
  channel ch := if ch = 0 then ⟨[1, 2], []⟩ else ⟨[], []⟩
  caps _ := 0
  linked := by
    intro c l found
    split at found
    · simp_all
    · cases found
  own := by
    intro c c' isLocal isLocal' same
    split at isLocal <;> split at isLocal' <;> simp_all
  channelsOfUser := by
    intro c noUser
    split at noUser
    · cases noUser
    · simp_all
  localMember := by
    intro ch c member
    split at member <;> simp_all
  remoteMember := by
    intro ch c member
    split at member <;> simp_all

/-- The second user has not been reached since the last time the counter was at zero. -/
def comeRound : Serials where
  clientSerial := 2 ^ 32 - 1
  clientStamp c := if c = 1 then 2 ^ 32 - 1 else 0
  lclientSerial := 0
  lclientStamp _ := 0

end Multicast

end Chaosircd
