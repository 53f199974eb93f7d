import Chaosircd.BanList
import Chaosircd.SocketFilter
import Chaosircd.TransitionSystem

/-!
# Ban lists and the socket filter

Both modules put their networks into the filter of the listening sockets.  A new entry for
every user of a network inserts a rule, and so does each client that is turned away by an
entry with an address.  The removal commands delete the rule of the network that is typed;
`m_kline_delete` deletes the one of the entry as well.
-/

namespace Chaosircd

namespace BanList

open SocketFilter

/-- The lists of both modules and the rules of the filter `"listen"`, which both ask for. -/
structure State where
  lists : Module → List Entry
  rules : List (Rule Address)

/-- A network: an address and a netmask. -/
abbrev Network := Address × Address

def Entry.net (entry : Entry) : Network :=
  (entry.addr, entry.mask)

/-- The test for a rule: every user of an address or a network. -/
def Entry.Blocks (entry : Entry) : Prop :=
  entry.user = ['*'] ∧ entry.addr ≠ 0

instance (entry : Entry) : Decidable entry.Blocks :=
  inferInstanceAs (Decidable (_ ∧ _))

namespace State

def setList (s : State) (module : Module) (list : List Entry) : State :=
  { s with lists := Function.update s.lists module list }

/-- `filter_rule_insert` of a rule for a network that stays. -/
def insertNet (s : State) (net : Network) (mtime : Nat) : State :=
  { s with rules := ruleInsert s.rules .srcNet .deny net.1 net.2 mtime 0 }

/-- `filter_rule_delete` of the rule for a network. -/
def deleteNet (s : State) (net : Network) : State :=
  { s with rules := ruleDelete s.rules .srcNet .deny net.1 net.2 }

/-- `m_kline_new`, `m_gline_new`. -/
def link (s : State) (module : Module) (entry : Entry) (mtime : Nat) : State :=
  let linked := s.setList module (s.lists module ++ [entry])
  if entry.Blocks then linked.insertNet entry.net mtime else linked

/-- The removal of the entry that is found for the masks: the rule of the network in the
command, in `m_kline_delete` the one of the entry, and the entry. -/
def unlink (s : State) (module : Module) (user host : CString) : State :=
  let net := lineMask host
  match lineFind (s.lists module) user host net.1 with
  | none => s
  | some entry =>
    let typed := if net.1 ≠ 0 then s.deleteNet net else s
    let deleted :=
      if module = .kline ∧ entry.Blocks then typed.deleteNet entry.net else typed
    deleted.setList module (lineDelete (s.lists module) user host net.1)

/-- `m_kline_hook`, `m_gline_hook`; the lifetime is `FILTER_LIFETIME`. -/
def hook (s : State) (module : Module) (lcptr : Client) (mtime : Nat) : State :=
  match lineHook (s.lists module) lcptr with
  | none => s
  | some entry =>
    if entry.addr ≠ 0 then s.insertNet entry.net mtime
    else { s with rules := ruleInsert s.rules .srcIp .deny lcptr.addrRemote 0 mtime 60000 }

end State

/-- What happens to the lists: the commands of operators, those of other servers, the check
of a client that registers, and the timer of the filters. -/
inductive Event where
  | line (module : Module) (arg info : CString) (mtime : Nat) (reason : Option CString)
  | remoteLine (user host info : CString) (ts mtime : Nat) (reason : Option CString)
  | unline (module : Module) (arg : CString)
  | remoteUnline (user host : CString)
  | check (module : Module) (lcptr : Client) (mtime : Nat)
  | expire (mtime : Nat)

namespace State

/-- `mo_kline` and `mo_gline`, `ms_gline`, `mo_unkline` and `mo_ungline`, `ms_ungline`, the
two hooks and `filter_cleanup`. -/
def exec (s : State) : Event → State
  | .line module arg info mtime reason =>
    match lineCommand (s.lists module) arg info mtime reason with
    | .added entry => s.link module entry mtime
    | .invalid | .already _ => s
  | .remoteLine user host info ts mtime reason =>
    match lineFind (s.lists .gline) user host (lineMask host).1 with
    | none => s.link .gline (lineNew user host info ts reason) mtime
    | some _ =>
      s.setList .gline
        (lineChange (Entry.update info ts reason) user host (lineMask host).1 (s.lists .gline))
  | .unline module arg =>
    let parts := removalSplit module arg
    if parts.invalid then s else s.unlink module parts.user parts.host
  | .remoteUnline user host => s.unlink .gline user host
  | .check module lcptr mtime => s.hook module lcptr mtime
  | .expire mtime => { s with rules := cleanup s.rules mtime }

/-! ## Agreement -/

/-- There is a permanent rule against a network. -/
def NetDenied (s : State) (net : Network) : Prop :=
  ∃ rule ∈ s.rules, rule.is .srcNet .deny net.1 net.2 ∧ rule.ts = 0

instance (s : State) (net : Network) : Decidable (s.NetDenied net) :=
  inferInstanceAs (Decidable (∃ rule ∈ s.rules, _))

/-- The networks that a list wants to have rules for. -/
def nets (list : List Entry) : List Network :=
  (list.filter (·.Blocks)).map Entry.net

/-- The filter has the rules that the list of the module wants. -/
def Agrees (module : Module) (s : State) : Prop :=
  ∀ net, s.NetDenied net ↔ net ∈ nets (s.lists module)

/-- No rule against a network will end. -/
def Permanent (s : State) : Prop :=
  ∀ rule ∈ s.rules, rule.type = .srcNet → rule.action = .deny → rule.ts = 0

/-- The filter agrees with the list, which wants no rule twice. -/
structure Sound (module : Module) (s : State) : Prop where
  agrees : s.Agrees module
  distinct : (nets (s.lists module)).Nodup
  permanent : s.Permanent

/-! ## The condition -/

/-- A new entry of the other module wants no rule, or one that is there. -/
def LinkFits (module : Module) (s : State) (other : Module) (user host : CString) : Prop :=
  module ≠ other →
    (strlcpy user 16 = ['*'] ∧ (lineMask host).1 ≠ 0 → lineMask host ∈ nets (s.lists module))

/-- A removal takes the rule of the entry that goes, if it wants one, and no other rule of
the list. -/
def UnlinkFits (module : Module) (s : State) (other : Module) (user host : CString) : Prop :=
  ∀ entry, lineFind (s.lists other) user host (lineMask host).1 = some entry →
    if module = other then
      ((lineMask host).1 ≠ 0 → lineMask host ∈ nets (s.lists module) →
        entry.Blocks ∧ entry.net = lineMask host) ∧
      (entry.Blocks →
        other = .kline ∨ ((lineMask host).1 ≠ 0 ∧ entry.net = lineMask host))
    else
      ((lineMask host).1 ≠ 0 → lineMask host ∉ nets (s.lists module)) ∧
      (other = .kline → entry.Blocks → entry.net ∉ nets (s.lists module))

/-- A client is turned away by an entry that has its rule, or that is for a host name. -/
def HookFits (module : Module) (s : State) (other : Module) (lcptr : Client) : Prop :=
  ∀ entry, lineHook (s.lists other) lcptr = some entry → entry.addr ≠ 0 →
    entry.net ∈ nets (s.lists module)

/-- The condition on an event. -/
def Fits (module : Module) (s : State) : Event → Prop
  | .line other arg _ _ _ =>
    let parts := lineSplit arg
    ¬ parts.invalid →
      lineFind (s.lists other) parts.user parts.host (lineMask parts.host).1 = none →
        LinkFits module s other parts.user parts.host
  | .remoteLine user host _ _ _ _ =>
    lineFind (s.lists .gline) user host (lineMask host).1 = none →
      LinkFits module s .gline user host
  | .unline other arg =>
    let parts := removalSplit other arg
    ¬ parts.invalid → UnlinkFits module s other parts.user parts.host
  | .remoteUnline user host => UnlinkFits module s .gline user host
  | .check other lcptr _ => HookFits module s other lcptr
  | .expire _ => True

/-! ## Rules -/

section Rules

variable {s : State} {net other : Network} {mtime : Nat}

theorem netDenied_deleteNet :
    (s.deleteNet other).NetDenied net ↔ s.NetDenied net ∧ net ≠ other := by
  constructor
  · rintro ⟨rule, member, isRule, stays⟩
    obtain ⟨member, different⟩ := List.mem_filter.mp member
    refine ⟨⟨rule, member, isRule, stays⟩, ?_⟩
    rintro rfl
    simp [isRule] at different
  · rintro ⟨⟨rule, member, isRule, stays⟩, different⟩
    refine ⟨rule, List.mem_filter.mpr ⟨member, ?_⟩, isRule, stays⟩
    rw [Bool.not_eq_true', ← Bool.not_eq_true]
    intro isOther
    simp only [Rule.is, Bool.and_eq_true, decide_eq_true_eq] at isRule isOther
    exact different (Prod.ext (isRule.1.2.symm.trans isOther.1.2)
      (isRule.2.symm.trans isOther.2))

theorem netDenied_insertNet (permanent : s.Permanent) :
    (s.insertNet other mtime).NetDenied net ↔ s.NetDenied net ∨ net = other := by
  have isNew : (⟨.srcNet, .deny, other.1, other.2, ruleTs mtime 0⟩ : Rule Address).is
      .srcNet .deny net.1 net.2 ↔ net = other := by
    simp only [Rule.is, decide_true, Bool.true_and, Bool.and_eq_true, decide_eq_true_eq,
      Prod.ext_iff, @eq_comm _ other.1, @eq_comm _ other.2]
  rw [insertNet, NetDenied, ruleInsert]
  dsimp only
  split
  case isTrue known =>
    obtain ⟨rule, member, isOther⟩ := List.find?_isSome.mp known
    refine (or_iff_left_of_imp ?_).symm
    rintro rfl
    have isRule := isOther
    simp only [Rule.is, Bool.and_eq_true, decide_eq_true_eq] at isRule
    exact ⟨rule, member, isOther, permanent rule member isRule.1.1.1 isRule.1.1.2⟩
  case isFalse =>
    simp only [List.exists_mem_cons_iff, isNew, NetDenied]
    constructor
    · rintro (⟨isOther, _⟩ | before)
      · exact .inr isOther
      · exact .inl before
    · rintro (before | isOther)
      · exact .inr before
      · exact .inl ⟨isOther, rfl⟩

theorem netDenied_insertIp (address : Address) (lifetime : Nat) :
    ({ s with rules := ruleInsert s.rules .srcIp .deny address 0 mtime lifetime } :
      State).NetDenied net ↔ s.NetDenied net := by
  rw [NetDenied, ruleInsert]
  dsimp only
  split
  · exact Iff.rfl
  · rw [List.exists_mem_cons_iff]
    exact or_iff_right fun isNew => by simp [Rule.is] at isNew

theorem netDenied_cleanup :
    ({ s with rules := cleanup s.rules mtime } : State).NetDenied net ↔ s.NetDenied net := by
  constructor
  · rintro ⟨rule, member, isRule⟩
    exact ⟨rule, List.mem_of_mem_filter member, isRule⟩
  · rintro ⟨rule, member, isRule, stays⟩
    exact ⟨rule, List.mem_filter.mpr ⟨member, by simp [stays]⟩, isRule, stays⟩

theorem Permanent.insert (permanent : s.Permanent) (type : RuleType) (address netmask : Address)
    {lifetime : Nat} (stays : type = .srcNet → lifetime = 0) :
    ({ s with rules := ruleInsert s.rules type .deny address netmask mtime lifetime } :
      State).Permanent := by
  intro rule member isNet isDeny
  dsimp only at member
  rw [ruleInsert] at member
  split at member
  · exact permanent rule member isNet isDeny
  · cases member with
    | head => rw [stays isNet, ruleTs, if_neg (by decide)]
    | tail _ member => exact permanent rule member isNet isDeny

theorem Permanent.filter (permanent : s.Permanent) (keeps : Rule Address → Bool) :
    ({ s with rules := s.rules.filter keeps } : State).Permanent :=
  fun rule member => permanent rule (List.mem_of_mem_filter member)

end Rules

/-! ## Wanted rules -/

theorem nets_append (first second : List Entry) :
    nets (first ++ second) = nets first ++ nets second := by
  rw [nets, List.filter_append, List.map_append, ← nets, ← nets]

theorem nets_singleton (entry : Entry) :
    nets [entry] = if entry.Blocks then [entry.net] else [] := by
  rw [nets, List.filter_singleton]
  by_cases blocks : entry.Blocks <;> simp [blocks]

theorem mem_nets_singleton {net : Network} {entry : Entry} :
    net ∈ nets [entry] ↔ entry.Blocks ∧ net = entry.net := by
  rw [nets_singleton]
  by_cases blocks : entry.Blocks <;> simp [blocks]

/-! ## One event -/

section Event

variable {module other : Module} {s : State} {entry : Entry} {user host : CString} {mtime : Nat}

/-- Agreement after a change of the rules, said of the rules alone. -/
theorem agrees_iff_of_netDenied {next : State} {denied : Network → Prop} {list : List Entry}
    (isDenied : ∀ net, next.NetDenied net ↔ denied net) (isList : next.lists module = list) :
    next.Agrees module ↔ ∀ net, denied net ↔ net ∈ nets list := by
  simp only [Agrees, isDenied, isList]

theorem netDenied_link (permanent : s.Permanent) (net : Network) :
    (s.link other entry mtime).NetDenied net ↔
      s.NetDenied net ∨ (entry.Blocks ∧ net = entry.net) := by
  rw [link]
  by_cases blocks : entry.Blocks
  · simp only [blocks, if_true, true_and]
    exact netDenied_insertNet permanent
  · simp only [blocks, if_false, false_and, or_false]
    exact Iff.rfl

theorem lists_link : (s.link other entry mtime).lists module =
    if module = other then s.lists module ++ [entry] else s.lists module := by
  have isSet : (s.link other entry mtime).lists =
      Function.update s.lists other (s.lists other ++ [entry]) := by
    rw [link]
    split <;> rfl
  rw [isSet]
  split
  case isTrue same =>
    subst same
    exact Function.update_self ..
  case isFalse different => exact Function.update_of_ne different ..

theorem agrees_link_iff (sound : s.Sound module) :
    (s.link other entry mtime).Agrees module ↔
      (module ≠ other → entry.Blocks → entry.net ∈ nets (s.lists module)) := by
  rw [agrees_iff_of_netDenied (netDenied_link sound.permanent) lists_link]
  simp only [sound.agrees _]
  by_cases same : module = other
  · simp only [same, if_true, nets_append, List.mem_append, mem_nets_singleton, ne_eq,
      not_true_eq_false, false_implies, implies_true]
  · simp only [same, if_false, ne_eq, not_false_eq_true, true_implies]
    constructor
    · intro agrees blocks
      exact (agrees entry.net).mp (.inr ⟨blocks, rfl⟩)
    · intro wanted net
      refine or_iff_left_of_imp ?_
      rintro ⟨blocks, rfl⟩
      exact wanted blocks

/-- An entry that was not found is not wanted yet. -/
theorem distinct_link {list : List Entry} {info : CString} {ts : Nat} {reason : Option CString}
    (distinct : (nets list).Nodup) (unknown : lineFind list user host (lineMask host).1 = none) :
    (nets (list ++ [lineNew user host info ts reason])).Nodup := by
  rw [nets_append, nets_singleton]
  split
  case isFalse => simpa using distinct
  case isTrue blocks =>
    refine List.nodup_append.mpr ⟨distinct, List.nodup_singleton _, ?_⟩
    intro net member net' isNew same
    rw [List.mem_singleton] at isNew
    rw [isNew] at same
    rw [nets, List.mem_map] at member
    obtain ⟨before, member, isNet⟩ := member
    obtain ⟨member, isBlock⟩ := List.mem_filter.mp member
    have isBlock : before.Blocks := by simpa using isBlock
    -- the mask is the bare star, which the older entry meets
    have isStar : user = ['*'] := by
      have cut : user.take 15 = ['*'] := blocks.1
      cases user with
      | nil => cases cut
      | cons c user =>
          rw [List.take_succ_cons, List.cons.injEq] at cut
          have rest : user = [] := by simpa using cut.2
          rw [cut.1, rest]
    have addresses := congrArg Prod.fst (isNet.trans same)
    have here : before.addr = (lineMask host).1 := addresses
    have meets : before.meets user host (lineMask host).1 := by
      rw [Entry.meets, if_pos isBlock.2, isStar, isBlock.1, ← here, before.isFirst,
        Bool.and_eq_true]
      exact ⟨by decide, decide_eq_true rfl⟩
    exact List.find?_eq_none.mp unknown before member meets

theorem permanent_link (permanent : s.Permanent) : (s.link other entry mtime).Permanent := by
  rw [link]
  split
  · exact Permanent.insert permanent .srcNet _ _ fun _ => rfl
  · exact permanent

theorem netDenied_unlink (found : lineFind (s.lists other) user host (lineMask host).1 = some entry)
    (net : Network) :
    (s.unlink other user host).NetDenied net ↔
      s.NetDenied net ∧ ¬ ((lineMask host).1 ≠ 0 ∧ net = lineMask host) ∧
        ¬ (other = .kline ∧ entry.Blocks ∧ net = entry.net) := by
  have typed : (if (lineMask host).1 ≠ 0 then s.deleteNet (lineMask host) else s).NetDenied net ↔
      s.NetDenied net ∧ ¬ ((lineMask host).1 ≠ 0 ∧ net = lineMask host) := by
    by_cases isNet : (lineMask host).1 = 0
    · rw [if_neg (not_not.mpr isNet)]
      simp only [isNet, ne_eq, not_true_eq_false, false_and, not_false_eq_true, and_true]
    · rw [if_pos isNet, netDenied_deleteNet]
      simp only [isNet, ne_eq, not_false_eq_true, true_and]
  have isNext : (s.unlink other user host).NetDenied net ↔
      (if other = .kline ∧ entry.Blocks then
        (if (lineMask host).1 ≠ 0 then s.deleteNet (lineMask host) else s).deleteNet entry.net
      else
        (if (lineMask host).1 ≠ 0 then s.deleteNet (lineMask host) else s)).NetDenied net := by
    rw [unlink, found]
    exact Iff.rfl
  rw [isNext, ← and_assoc, ← typed]
  by_cases removes : other = .kline ∧ entry.Blocks
  · rw [if_pos removes, netDenied_deleteNet, ← and_assoc, and_congr_right_iff]
    exact fun _ => by simp [removes]
  · rw [if_neg removes, ← and_assoc]
    exact (and_iff_left fun also => removes also.1).symm

theorem lists_unlink (found : lineFind (s.lists other) user host (lineMask host).1 = some entry) :
    (s.unlink other user host).lists module =
      if module = other then lineDelete (s.lists module) user host (lineMask host).1
      else s.lists module := by
  have isSet : (s.unlink other user host).lists = Function.update s.lists other
      (lineDelete (s.lists other) user host (lineMask host).1) := by
    rw [unlink, found]
    dsimp only [setList]
    split <;> split <;> rfl
  rw [isSet]
  split
  case isTrue same =>
    subst same
    exact Function.update_self ..
  case isFalse different => exact Function.update_of_ne different ..

theorem permanent_unlink (permanent : s.Permanent) : (s.unlink other user host).Permanent := by
  have deleted {s : State} (permanent : s.Permanent) (net : Network) : (s.deleteNet net).Permanent :=
    Permanent.filter permanent _
  rw [unlink]
  dsimp only
  split
  · exact permanent
  · have typed : (if (lineMask host).1 ≠ 0 then s.deleteNet (lineMask host) else s).Permanent := by
      split
      · exact deleted permanent _
      · exact permanent
    change (if other = .kline ∧ _ then _ else _ : State).Permanent
    split
    · exact deleted typed _
    · exact typed

/-- The entry that goes takes its wish with it. -/
theorem mem_nets_lineDelete {list : List Entry} {addr : Address} {net : Network}
    (distinct : (nets list).Nodup) (found : lineFind list user host addr = some entry) :
    net ∈ nets (lineDelete list user host addr) ↔
      net ∈ nets list ∧ ¬ (entry.Blocks ∧ net = entry.net) := by
  obtain ⟨before, behind, isList, isDeleted⟩ := lineFind_eq_some found
  have isWhole : list = before ++ ([entry] ++ behind) := isList
  have once : entry.Blocks → entry.net ∉ nets before ++ nets behind := by
    intro blocks
    rw [isWhole, nets_append, nets_append, nets_singleton, if_pos blocks] at distinct
    have shifted := (List.perm_middle (a := entry.net)).nodup_iff.mp distinct
    exact (List.nodup_cons.mp shifted).1
  rw [isDeleted, isWhole, nets_append, nets_append, nets_append, List.mem_append,
    List.mem_append, List.mem_append, mem_nets_singleton]
  constructor
  · intro member
    refine ⟨member.imp_right .inr, ?_⟩
    rintro ⟨blocks, rfl⟩
    exact once blocks (List.mem_append.mpr member)
  · rintro ⟨before | isEntry | behind, others⟩
    · exact .inl before
    · exact absurd isEntry others
    · exact .inr behind

theorem distinct_lineDelete {list : List Entry} {addr : Address} (distinct : (nets list).Nodup) :
    (nets (lineDelete list user host addr)).Nodup := by
  have fewer : (nets (lineDelete list user host addr)).Sublist (nets list) :=
    ((List.eraseP_sublist ..).filter _).map _
  exact distinct.sublist fewer

theorem agrees_unlink_iff (sound : s.Sound module) :
    (s.unlink other user host).Agrees module ↔ UnlinkFits module s other user host := by
  cases found : lineFind (s.lists other) user host (lineMask host).1 with
  | none =>
      have isSame : s.unlink other user host = s := by rw [unlink, found]
      rw [isSame]
      exact iff_of_true sound.agrees fun entry isEntry => by simp [found] at isEntry
  | some entry =>
      have onlyOne (P : Entry → Prop) :
          (∀ it, some entry = some it → P it) ↔ P entry :=
        ⟨fun holds => holds entry rfl, fun holds it same => Option.some.inj same ▸ holds⟩
      rw [agrees_iff_of_netDenied (netDenied_unlink found) (lists_unlink found), UnlinkFits,
        found, onlyOne]
      simp only [sound.agrees _]
      generalize typed : lineMask host = net at *
      by_cases same : module = other
      · subst same
        have wanted : entry.Blocks → entry.net ∈ nets (s.lists module) := fun blocks =>
          List.mem_map_of_mem (List.mem_filter.mpr
            ⟨List.mem_of_find?_eq_some found, decide_eq_true blocks⟩)
        simp only [if_true, mem_nets_lineDelete sound.distinct found, and_congr_right_iff]
        constructor
        · intro agrees
          constructor
          · intro isNet member
            by_contra other
            exact ((agrees net member).mpr fun taken =>
              other ⟨taken.1, taken.2.symm⟩).1 ⟨isNet, rfl⟩
          · intro blocks
            by_contra stays
            rw [not_or] at stays
            refine (agrees entry.net (wanted blocks)).mp ⟨?_, ?_⟩ ⟨blocks, rfl⟩
            · exact stays.2
            · exact fun removes => stays.1 removes.1
        · rintro ⟨typedFits, entryFits⟩ other member
          constructor
          · rintro ⟨notTyped, notEntry⟩ ⟨blocks, rfl⟩
            rcases entryFits blocks with isKline | isTyped
            · exact notEntry ⟨isKline, blocks, rfl⟩
            · exact notTyped isTyped
          · intro stays
            refine ⟨?_, fun removes => stays removes.2⟩
            rintro ⟨isNet, rfl⟩
            obtain ⟨blocks, isEntry⟩ := typedFits isNet member
            exact stays ⟨blocks, isEntry.symm⟩
      · simp only [if_neg same, and_iff_left_iff_imp]
        constructor
        · intro agrees
          constructor
          · intro isNet member
            exact (agrees net member).1 ⟨isNet, rfl⟩
          · intro isKline blocks member
            exact (agrees entry.net member).2 ⟨isKline, blocks, rfl⟩
        · rintro ⟨typedFits, entryFits⟩ other member
          constructor
          · rintro ⟨isNet, rfl⟩
            exact typedFits isNet member
          · rintro ⟨isKline, blocks, rfl⟩
            exact entryFits isKline blocks member

theorem agrees_hook_iff (sound : s.Sound module) (lcptr : Client) :
    (s.hook other lcptr mtime).Agrees module ↔ HookFits module s other lcptr := by
  rw [hook, HookFits]
  cases found : lineHook (s.lists other) lcptr with
  | none => exact iff_of_true sound.agrees nofun
  | some entry =>
      dsimp only
      split
      case isFalse isHost =>
        refine iff_of_true (fun net => (netDenied_insertIp _ _).trans (sound.agrees net)) ?_
        intro it same isNet
        rw [← Option.some.inj same] at isNet
        exact absurd isNet isHost
      case isTrue isNet =>
        rw [agrees_iff_of_netDenied (fun _ => netDenied_insertNet sound.permanent) rfl]
        simp only [sound.agrees _]
        constructor
        · intro agrees it same _
          rw [← Option.some.inj same]
          exact (agrees entry.net).mp (.inr rfl)
        · intro wanted net
          refine or_iff_left_of_imp ?_
          rintro rfl
          exact wanted entry rfl isNet

theorem permanent_hook (permanent : s.Permanent) (lcptr : Client) :
    (s.hook other lcptr mtime).Permanent := by
  rw [hook]
  split
  · exact permanent
  · split
    · exact Permanent.insert permanent .srcNet _ _ fun _ => rfl
    · exact Permanent.insert permanent .srcIp _ _ nofun

theorem lists_hook (lcptr : Client) : (s.hook other lcptr mtime).lists = s.lists := by
  rw [hook]
  split
  · rfl
  · split <;> rfl

theorem nets_lineChange (info : CString) (ts : Nat) (reason : Option CString) (addr : Address)
    (list : List Entry) :
    nets (lineChange (Entry.update info ts reason) user host addr list) = nets list := by
  have wish : ∀ list : List Entry, nets list =
      ((list.map fun entry => (entry.user, entry.net)).filter
        fun view => decide (view.1 = ['*'] ∧ view.2.1 ≠ 0)).map Prod.snd := by
    intro list
    rw [nets, List.filter_map, List.map_map]
    rfl
  have kept : (lineChange (Entry.update info ts reason) user host addr list).map
      (fun entry => (entry.user, entry.net)) = list.map fun entry => (entry.user, entry.net) :=
    map_lineChange (fun _ => rfl : ∀ entry, (fun entry : Entry => (entry.user, entry.net))
      (Entry.update info ts reason entry) = (entry.user, entry.net)) user host addr list
  rw [wish, kept, ← wish]

theorem agrees_exec_iff (sound : s.Sound module) (event : Event) :
    (s.exec event).Agrees module ↔ Fits module s event := by
  cases event with
  | line other arg info mtime reason =>
      rw [exec, Fits]
      cases answer : lineCommand (s.lists other) arg info mtime reason with
      | added entry =>
          obtain ⟨⟨valid, unknown⟩, isEntry⟩ := lineCommand_eq_added_iff.mp answer
          rw [← isEntry]
          refine (agrees_link_iff sound).trans ?_
          exact ((imp_iff_right valid).trans (imp_iff_right unknown)).symm
      | invalid =>
          refine iff_of_true sound.agrees fun valid unknown => ?_
          have isAdded : lineCommand (s.lists other) arg info mtime reason = .added _ :=
            lineCommand_eq_added_iff.mpr ⟨⟨valid, unknown⟩, rfl⟩
          cases answer.symm.trans isAdded
      | already entry =>
          refine iff_of_true sound.agrees fun valid unknown => ?_
          have isAdded : lineCommand (s.lists other) arg info mtime reason = .added _ :=
            lineCommand_eq_added_iff.mpr ⟨⟨valid, unknown⟩, rfl⟩
          cases answer.symm.trans isAdded
  | remoteLine user host info ts mtime reason =>
      rw [exec, Fits]
      cases found : lineFind (s.lists .gline) user host (lineMask host).1 with
      | none =>
          refine (agrees_link_iff sound).trans ?_
          simp only [true_implies]
          exact Iff.rfl
      | some entry =>
          refine iff_of_true (fun net => ?_) nofun
          refine (sound.agrees net).trans ?_
          by_cases same : module = .gline
          · subst same
            dsimp only [setList]
            rw [Function.update_self, nets_lineChange]
          · dsimp only [setList]
            rw [Function.update_of_ne same]
  | unline other arg =>
      rw [exec, Fits]
      split
      case isTrue invalid => exact iff_of_true sound.agrees fun valid => absurd invalid valid
      case isFalse valid =>
        rw [agrees_unlink_iff sound]
        exact (imp_iff_right valid).symm
  | remoteUnline user host => exact agrees_unlink_iff sound
  | check other lcptr mtime => exact agrees_hook_iff sound lcptr
  | expire mtime =>
      exact iff_of_true (fun net => netDenied_cleanup.trans (sound.agrees net)) trivial

theorem distinct_exec (sound : s.Sound module) (event : Event) :
    (nets ((s.exec event).lists module)).Nodup := by
  have unlinked (other : Module) (user host : CString) :
      (nets ((s.unlink other user host).lists module)).Nodup := by
    cases found : lineFind (s.lists other) user host (lineMask host).1 with
    | none =>
        rw [unlink, found]
        exact sound.distinct
    | some entry =>
        rw [lists_unlink found]
        split
        · exact distinct_lineDelete sound.distinct
        · exact sound.distinct
  cases event with
  | line other arg info mtime reason =>
      rw [exec]
      cases answer : lineCommand (s.lists other) arg info mtime reason with
      | added entry =>
          obtain ⟨⟨_, unknown⟩, isEntry⟩ := lineCommand_eq_added_iff.mp answer
          dsimp only
          rw [lists_link, ← isEntry]
          split
          case isTrue same =>
            subst same
            exact distinct_link sound.distinct unknown
          case isFalse => exact sound.distinct
      | invalid => exact sound.distinct
      | already entry => exact sound.distinct
  | remoteLine user host info ts mtime reason =>
      rw [exec]
      cases unknown : lineFind (s.lists .gline) user host (lineMask host).1 with
      | none =>
          dsimp only
          rw [lists_link]
          split
          case isTrue same =>
            subst same
            exact distinct_link sound.distinct unknown
          case isFalse => exact sound.distinct
      | some entry =>
          by_cases same : module = .gline
          · subst same
            dsimp only [setList]
            rw [Function.update_self, nets_lineChange]
            exact sound.distinct
          · dsimp only [setList]
            rw [Function.update_of_ne same]
            exact sound.distinct
  | unline other arg =>
      rw [exec]
      split
      · exact sound.distinct
      · exact unlinked ..
  | remoteUnline user host => exact unlinked ..
  | check other lcptr mtime =>
      rw [exec, lists_hook]
      exact sound.distinct
  | expire mtime => exact sound.distinct

theorem permanent_exec (permanent : s.Permanent) (event : Event) :
    (s.exec event).Permanent := by
  cases event with
  | line other arg info mtime reason =>
      rw [exec]
      split
      · exact permanent_link permanent
      · exact permanent
      · exact permanent
  | remoteLine user host info ts mtime reason =>
      rw [exec]
      split
      · exact permanent_link permanent
      · exact permanent
  | unline other arg =>
      rw [exec]
      split
      · exact permanent
      · exact permanent_unlink permanent
  | remoteUnline user host => exact permanent_unlink permanent
  | check other lcptr mtime => exact permanent_hook permanent lcptr
  | expire mtime => exact Permanent.filter permanent _

end Event

/-! ## Runs -/

/-- The list of a module and its filter agree all along a run if and only if each event
meets the condition. -/
theorem agrees_run_iff (module : Module) {s : State} (sound : s.Sound module)
    (events : List Event) :
    (∀ before, before <+: events → (before.foldl exec s).Agrees module) ↔
      TransitionSystem.GuardedRun (fun s event => some (exec s event)) (Fits module) s events :=
  @TransitionSystem.guardedRun_iff_forall _ _ exec (Fits module) (Sound module) (Agrees module)
    (fun _ sound => sound.agrees) (fun _ event sound fits =>
      ⟨(agrees_exec_iff sound event).mpr fits, distinct_exec sound event,
        permanent_exec sound.permanent event⟩)
    (fun _ event sound agrees => (agrees_exec_iff sound event).mp agrees) s sound events

/-- No bans and no rules. -/
def start : State where
  lists := fun _ => []
  rules := []

theorem start_sound (module : Module) : start.Sound module where
  agrees := fun net => iff_of_false (by simp [start, NetDenied]) (by simp [start, nets])
  distinct := List.nodup_nil
  permanent := nofun

/-- A ban on one user of a network, and that user on the way in. -/
def oneUser : List Event :=
  [.line .kline "bob@10.0.0.0/8".toList "oper!root@localhost".toList 1000 (some "spam".toList),
    .check .kline ⟨"bob".toList, "host.example".toList, "10.1.2.3".toList, 0x0a010203⟩ 2000]

theorem network_of_one_user_denied :
    (oneUser.foldl exec start).NetDenied (0x0a000000, 0xff000000) ∧
      ¬ (oneUser.foldl exec start).Agrees .kline := by
  have denied : (oneUser.foldl exec start).NetDenied (0x0a000000, 0xff000000) := by
    decide +kernel
  have unwanted : ((0x0a000000, 0xff000000) : Network) ∉
      nets ((oneUser.foldl exec start).lists .kline) := by
    decide +kernel
  exact ⟨denied, fun agrees => unwanted ((agrees _).mp denied)⟩

theorem agrees_run_iff_oneUser :
    (∀ before, before <+: oneUser → (before.foldl exec start).Agrees .kline) ↔
      TransitionSystem.GuardedRun (fun s event => some (exec s event)) (Fits .kline) start
        oneUser :=
  agrees_run_iff .kline (start_sound .kline) oneUser

end State

end BanList

end Chaosircd
