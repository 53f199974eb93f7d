import Chaosircd.DynamicHeap
import Chaosircd.PacketFilter
import Mathlib.Data.List.GetD

/-!
# Socket filters

A socket filter is a list of rules, which is compiled to a program that the kernel runs on
each packet.  Every rule is compiled to a test that drops the packet, whatever the action of
the rule is; behind the rules the program returns the length of the packet.
-/

namespace Chaosircd

/-! ## Rules -/

namespace SocketFilter

/-- The types of rules that the compiler has instructions for. -/
inductive RuleType where
  | srcIp
  | dstIp
  | srcNet
  | dstNet
  deriving DecidableEq, Repr

inductive Action where
  | deny
  | accept
  deriving DecidableEq, Repr

/-- `struct filter_rule`; a rule with `ts = 0` stays. -/
structure Rule (Addr : Type) where
  type : RuleType
  action : Action
  address : Addr
  netmask : Addr
  ts : Nat
  deriving DecidableEq

section Rules

variable {Addr : Type} [DecidableEq Addr]

/-- The rule is the one that is asked for. -/
def Rule.is (type : RuleType) (action : Action) (data1 data2 : Addr) (rule : Rule Addr) : Bool :=
  rule.type = type && rule.action = action && rule.address = data1 && rule.netmask = data2

/-- `filter_rule_find`. -/
def ruleFind (rules : List (Rule Addr)) (type : RuleType) (action : Action)
    (data1 data2 : Addr) : Option (Rule Addr) :=
  rules.find? (Rule.is type action data1 data2)

/-- When a rule ends. -/
def ruleTs (mtime lifetime : Nat) : Nat :=
  if lifetime ≠ 0 then (mtime + lifetime) % 2 ^ 64 else 0

/-- `filter_rule_add`. -/
def ruleAdd (rules : List (Rule Addr)) (type : RuleType) (action : Action) (data1 data2 : Addr)
    (mtime lifetime : Nat) : List (Rule Addr) :=
  if (ruleFind rules type action data1 data2).isSome then rules
  else rules ++ [⟨type, action, data1, data2, ruleTs mtime lifetime⟩]

/-- `filter_rule_insert`. -/
def ruleInsert (rules : List (Rule Addr)) (type : RuleType) (action : Action)
    (data1 data2 : Addr) (mtime lifetime : Nat) : List (Rule Addr) :=
  if (ruleFind rules type action data1 data2).isSome then rules
  else ⟨type, action, data1, data2, ruleTs mtime lifetime⟩ :: rules

/-- `filter_rule_delete`. -/
def ruleDelete (rules : List (Rule Addr)) (type : RuleType) (action : Action)
    (data1 data2 : Addr) : List (Rule Addr) :=
  rules.filter fun rule => !rule.is type action data1 data2

/-- `filter_cleanup`, for one filter. -/
def cleanup (rules : List (Rule Addr)) (mtime : Nat) : List (Rule Addr) :=
  rules.filter fun rule => !(rule.ts ≠ 0 && rule.ts < mtime)

end Rules

/-! ## Addresses and packets -/

/-- A `net_addr_t`, by its bytes in memory. -/
structure NetAddr where
  c0 : BitVec 8
  c1 : BitVec 8
  c2 : BitVec 8
  c3 : BitVec 8
  deriving DecidableEq, Repr

namespace NetAddr

/-- The bitwise `&` of two addresses. -/
def and (a b : NetAddr) : NetAddr :=
  ⟨a.c0 &&& b.c0, a.c1 &&& b.c1, a.c2 &&& b.c2, a.c3 &&& b.c3⟩

/-- `net_ntohl`. -/
def ntohl (n : NetAddr) : BitVec 32 :=
  n.c0 ++ n.c1 ++ n.c2 ++ n.c3

theorem ntohl_and (a b : NetAddr) : (a.and b).ntohl = a.ntohl &&& b.ntohl := by
  have bytes {w : Nat} (x0 x1 x2 x3 y0 y1 y2 y3 : BitVec w) :
      (x0 &&& y0) ++ (x1 &&& y1) ++ (x2 &&& y2) ++ (x3 &&& y3) =
        (x0 ++ x1 ++ x2 ++ x3) &&& (y0 ++ y1 ++ y2 ++ y3) := by
    simp only [BitVec.and_append]
  exact bytes _ _ _ _ _ _ _ _

theorem ntohl_inj {a b : NetAddr} : a.ntohl = b.ntohl ↔ a = b := by
  have parts {v w : Nat} {x x' : BitVec v} {y y' : BitVec w} (same : x ++ y = x' ++ y') :
      x = x' ∧ y = y' := by
    constructor
    · have upper := congrArg (BitVec.extractLsb' w v) same
      rwa [BitVec.extractLsb'_append_eq_left, BitVec.extractLsb'_append_eq_left] at upper
    · have lower := congrArg (BitVec.extractLsb' 0 w) same
      rwa [BitVec.extractLsb'_append_eq_right, BitVec.extractLsb'_append_eq_right] at lower
  constructor
  · intro same
    obtain ⟨same, same3⟩ := parts same
    obtain ⟨same, same2⟩ := parts same
    obtain ⟨same0, same1⟩ := parts same
    cases a with
    | mk a0 a1 a2 a3 =>
        cases b with
        | mk b0 b1 b2 b3 =>
            dsimp only at same0 same1 same2 same3
            rw [same0, same1, same2, same3]
  · rintro rfl
    rfl

end NetAddr

/-- An IPv4 packet, from its header on. -/
structure Ipv4Packet where
  bytes : List (BitVec 8)
  header : 20 ≤ bytes.length
  totalLength : PacketFilter.loadHalf bytes 2 ≠ some 0

namespace Ipv4Packet

/-- The address at a place in the header. -/
def address (packet : Ipv4Packet) (k : Nat) : NetAddr :=
  ⟨packet.bytes.getD k 0, packet.bytes.getD (k + 1) 0, packet.bytes.getD (k + 2) 0,
    packet.bytes.getD (k + 3) 0⟩

/-- The source address. -/
def source (packet : Ipv4Packet) : NetAddr :=
  packet.address 12

/-- The destination address. -/
def destination (packet : Ipv4Packet) : NetAddr :=
  packet.address 16

theorem loadWord_bytes (packet : Ipv4Packet) {k : Nat} (inside : k + 4 ≤ 20) :
    PacketFilter.loadWord packet.bytes k = some (packet.address k).ntohl := by
  have header := packet.header
  have at0 := List.drop_eq_getElem_cons (show k < packet.bytes.length by omega)
  have at1 := List.drop_eq_getElem_cons (show k + 1 < packet.bytes.length by omega)
  have at2 := List.drop_eq_getElem_cons (show k + 2 < packet.bytes.length by omega)
  have at3 := List.drop_eq_getElem_cons (show k + 3 < packet.bytes.length by omega)
  simp only [PacketFilter.loadWord, at0, at1, at2, at3, address, NetAddr.ntohl]
  rw [List.getD_eq_getElem, List.getD_eq_getElem, List.getD_eq_getElem, List.getD_eq_getElem]

theorem exists_totalLength (packet : Ipv4Packet) :
    ∃ length, PacketFilter.loadHalf packet.bytes 2 = some length ∧ length ≠ 0 := by
  have header := packet.header
  have at0 := List.drop_eq_getElem_cons (show 2 < packet.bytes.length by omega)
  have at1 := List.drop_eq_getElem_cons (show 2 + 1 < packet.bytes.length by omega)
  cases loaded : PacketFilter.loadHalf packet.bytes 2 with
  | none =>
      simp only [PacketFilter.loadHalf, at0, at1] at loaded
      cases loaded
  | some length =>
      refine ⟨length, rfl, ?_⟩
      rintro rfl
      exact packet.totalLength loaded

end Ipv4Packet

/-! ## Compilation -/

open PacketFilter

/-- `FILTER_MAX_SIZE`, the size of the blocks of `filter_prog_heap`. -/
def maxSize : Nat := 4096 * 8

/-- `filter_ins` and `filter_jmp`.  There is no result when the instruction would lie behind
the block of the heap, beside the header of the block and the one of the chunk. -/
def ins (prog : List Insn) (insn : Insn) : Option (List Insn) :=
  if DynamicHeap.dblockSize + DynamicHeap.dchunkSize + 8 * (prog.length + 1) ≤ maxSize then
    some (prog ++ [insn])
  else none

/-- The instructions of `filter_entry`, which does not look at the action. -/
def entryInsns (rule : Rule NetAddr) : List Insn :=
  (match rule.type with
    | .srcIp => [.ldAbsW 12, .jeqK 0 1 rule.address.ntohl]
    | .dstIp => [.ldAbsW 16, .jeqK 0 1 rule.address.ntohl]
    | .srcNet => [.ldAbsW 12, .andK rule.netmask.ntohl, .jeqK 0 1 rule.address.ntohl]
    | .dstNet => [.ldAbsW 16, .andK rule.netmask.ntohl, .jeqK 0 1 rule.address.ntohl]) ++
  [.retK 0]

/-- `filter_entry`. -/
def entry (prog : List Insn) (rule : Rule NetAddr) : Option (List Insn) :=
  (entryInsns rule).foldlM ins prog

/-- `filter_end`. -/
def filterEnd (prog : List Insn) : Option (List Insn) :=
  [.ldAbsH 2, .retA].foldlM ins prog

/-- `filter_rule_compile`. -/
def compile (rules : List (Rule NetAddr)) : Option (List Insn) :=
  (rules.foldlM entry []).bind filterEnd

/-! ## What the rules mean -/

namespace Rule

variable (rule : Rule NetAddr) (packet : Ipv4Packet)

/-- The address of the packet that the rule is about. -/
def about : NetAddr :=
  match rule.type with
  | .srcIp => packet.source
  | .srcNet => packet.source
  | .dstIp => packet.destination
  | .dstNet => packet.destination

/-- The rule is about a network. -/
def IsNet : Prop :=
  rule.type = .srcNet ∨ rule.type = .dstNet

instance : Decidable rule.IsNet :=
  inferInstanceAs (Decidable (_ ∨ _))

/-- The address of the packet is the one of the rule, or lies in its network. -/
def Matches : Prop :=
  if rule.IsNet then (rule.about packet).and rule.netmask = rule.address.and rule.netmask
  else rule.about packet = rule.address

instance : Decidable (rule.Matches packet) :=
  inferInstanceAs (Decidable (if rule.IsNet then
    (rule.about packet).and rule.netmask = rule.address.and rule.netmask
    else rule.about packet = rule.address))

/-- The address of a network rule has no bits outside of the netmask. -/
def Proper : Prop :=
  rule.IsNet → rule.address.and rule.netmask = rule.address

instance : Decidable rule.Proper :=
  inferInstanceAs (Decidable (_ → _))

end Rule

/-- The program drops the packet. -/
def Drops (prog : List Insn) (packet : Ipv4Packet) : Prop :=
  run packet.bytes prog 0 0 = some 0

/-- The program lets the packet pass. -/
def Passes (prog : List Insn) (packet : Ipv4Packet) : Prop :=
  ∃ length, run packet.bytes prog 0 0 = some length ∧ length ≠ 0

/-- The compiled program does what the first rule says that matches. -/
def DecidesByFirst (rules : List (Rule NetAddr)) (packet : Ipv4Packet) : Prop :=
  ∃ prog, compile rules = some prog ∧
    match rules.find? fun rule => rule.Matches packet with
    | some rule =>
      match rule.action with
      | .deny => Drops prog packet
      | .accept => Passes prog packet
    | none => Passes prog packet

/-- The program has room in the heap. -/
def HasRoom (rules : List (Rule NetAddr)) : Prop :=
  DynamicHeap.dblockSize + DynamicHeap.dchunkSize +
    8 * ((rules.map fun rule => if rule.IsNet then 4 else 3).sum + 2) ≤ maxSize

instance (rules : List (Rule NetAddr)) : Decidable (HasRoom rules) :=
  inferInstanceAs (Decidable (_ ≤ maxSize))

/-- Where a rule denies the packet, a proper rule matches it, and where none denies it, only
improper rules do. -/
def DeniesOnly (rules : List (Rule NetAddr)) (packet : Ipv4Packet) : Prop :=
  match rules.find? fun rule => rule.Matches packet with
  | some rule =>
    match rule.action with
    | .deny => ∃ rule ∈ rules, rule.Matches packet ∧ rule.Proper
    | .accept => ∀ rule ∈ rules, rule.Matches packet → ¬ rule.Proper
  | none => True

/-! ## Correctness -/

theorem foldlM_ins {insns prog : List Insn} (some' : insns ≠ []) :
    insns.foldlM ins prog =
      if DynamicHeap.dblockSize + DynamicHeap.dchunkSize + 8 * (prog.length + insns.length) ≤
        maxSize then some (prog ++ insns) else none := by
  induction insns generalizing prog with
  | nil => exact absurd rfl some'
  | cons insn insns induction =>
      rw [List.foldlM_cons, ins]
      cases insns with
      | nil =>
          simp only [List.length_singleton, List.foldlM_nil]
          split <;> rfl
      | cons next insns =>
          by_cases room : DynamicHeap.dblockSize + DynamicHeap.dchunkSize +
              8 * (prog.length + 1) ≤ maxSize
          · rw [if_pos room]
            simp only [Option.bind_eq_bind, Option.bind_some]
            rw [induction (List.cons_ne_nil _ _)]
            simp only [List.length_append, List.length_cons, List.append_assoc,
              List.length_nil, List.cons_append, List.nil_append]
            congr 2
            omega
          · rw [if_neg room, if_neg]
            · rfl
            · simp only [List.length_cons]
              omega

theorem foldlM_entry {rules : List (Rule NetAddr)} {prog : List Insn} :
    rules.foldlM entry prog = (rules.flatMap entryInsns).foldlM ins prog := by
  induction rules generalizing prog with
  | nil => rfl
  | cons rule rules induction =>
      rw [List.foldlM_cons, List.flatMap_cons, List.foldlM_append]
      exact congrArg (entry prog rule >>= ·) (funext fun _ => induction)

theorem length_entryInsns (rule : Rule NetAddr) :
    (entryInsns rule).length = if rule.IsNet then 4 else 3 := by
  cases type : rule.type <;> simp [entryInsns, Rule.IsNet, type]

/-- The compiled program, where it has room. -/
theorem compile_eq (rules : List (Rule NetAddr)) :
    compile rules =
      if HasRoom rules then some (rules.flatMap entryInsns ++ [.ldAbsH 2, .retA])
      else none := by
  have length : (rules.flatMap entryInsns ++ [Insn.ldAbsH 2, Insn.retA]).length =
      (rules.map fun rule => if rule.IsNet then 4 else 3).sum + 2 := by
    simp only [List.length_append, List.length_flatMap, length_entryInsns, List.length_cons,
      List.length_nil]
  have whole : compile rules =
      (rules.flatMap entryInsns ++ [Insn.ldAbsH 2, Insn.retA]).foldlM ins [] := by
    rw [List.foldlM_append, ← foldlM_entry]
    rfl
  rw [whole, foldlM_ins (by simp), length, List.length_nil, Nat.zero_add, List.nil_append]
  rfl

theorem NetAddr.and_and_self (a b : NetAddr) : (a.and b).and b = a.and b := by
  simp only [NetAddr.and, BitVec.and_assoc, BitVec.and_self]

/-- The test of a network rule succeeds when the rule is proper and matches. -/
theorem and_eq_iff (a address netmask : NetAddr) :
    a.and netmask = address ↔
      a.and netmask = address.and netmask ∧ address.and netmask = address := by
  constructor
  · rintro rfl
    rw [NetAddr.and_and_self]
    exact ⟨rfl, rfl⟩
  · rintro ⟨same, proper⟩
    exact same.trans proper

section Tests

variable {rule : Rule NetAddr} {packet : Ipv4Packet} {k : Nat}

/-- The test for an address drops what the rule matches. -/
theorem run_addressTest (notNet : ¬ rule.IsNet) (inside : k + 4 ≤ 20)
    (about : rule.about packet = packet.address k) (prog : List Insn) (a : BitVec 32) :
    ∃ a', run packet.bytes
        (.ldAbsW k :: .jeqK 0 1 rule.address.ntohl :: .retK 0 :: prog) 0 a =
      if rule.Matches packet ∧ rule.Proper then some 0 else run packet.bytes prog 0 a' := by
  have applies : (packet.address k).ntohl = rule.address.ntohl ↔
      rule.Matches packet ∧ rule.Proper := by
    rw [NetAddr.ntohl_inj, Rule.Matches, if_neg notNet, about]
    exact (and_iff_left fun isNet => absurd isNet notNet).symm
  refine ⟨(packet.address k).ntohl, ?_⟩
  rw [← if_congr applies rfl rfl]
  exact run_wordIs packet.bytes (packet.loadWord_bytes inside)

/-- The test for a network drops what the rule matches, where the rule is proper. -/
theorem run_networkTest (isNet : rule.IsNet) (inside : k + 4 ≤ 20)
    (about : rule.about packet = packet.address k) (prog : List Insn) (a : BitVec 32) :
    ∃ a', run packet.bytes
        (.ldAbsW k :: .andK rule.netmask.ntohl :: .jeqK 0 1 rule.address.ntohl :: .retK 0 ::
          prog) 0 a =
      if rule.Matches packet ∧ rule.Proper then some 0 else run packet.bytes prog 0 a' := by
  have applies : (packet.address k).ntohl &&& rule.netmask.ntohl = rule.address.ntohl ↔
      rule.Matches packet ∧ rule.Proper := by
    rw [← NetAddr.ntohl_and, NetAddr.ntohl_inj, and_eq_iff, Rule.Matches, if_pos isNet, about]
    exact and_congr_right fun _ => ⟨fun proper _ => proper, fun proper => proper isNet⟩
  refine ⟨(packet.address k).ntohl &&& rule.netmask.ntohl, ?_⟩
  rw [← if_congr applies rfl rfl]
  exact run_maskedWordIs packet.bytes (packet.loadWord_bytes inside)

end Tests

/-- The instructions of a rule drop what it matches. -/
theorem run_entryInsns (rule : Rule NetAddr) (packet : Ipv4Packet) (prog : List Insn)
    (a : BitVec 32) : ∃ a', run packet.bytes (entryInsns rule ++ prog) 0 a =
      if rule.Matches packet ∧ rule.Proper then some 0 else run packet.bytes prog 0 a' := by
  cases type : rule.type with
  | srcIp =>
      have about : rule.about packet = packet.address 12 := by
        rw [Rule.about, type]
        rfl
      have notNet : ¬ rule.IsNet := by simp [Rule.IsNet, type]
      rw [entryInsns, type]
      exact run_addressTest notNet (by decide) about prog a
  | dstIp =>
      have about : rule.about packet = packet.address 16 := by
        rw [Rule.about, type]
        rfl
      have notNet : ¬ rule.IsNet := by simp [Rule.IsNet, type]
      rw [entryInsns, type]
      exact run_addressTest notNet (by decide) about prog a
  | srcNet =>
      have about : rule.about packet = packet.address 12 := by
        rw [Rule.about, type]
        rfl
      rw [entryInsns, type]
      exact run_networkTest (.inl type) (by decide) about prog a
  | dstNet =>
      have about : rule.about packet = packet.address 16 := by
        rw [Rule.about, type]
        rfl
      rw [entryInsns, type]
      exact run_networkTest (.inr type) (by decide) about prog a

/-- A program drops what any proper rule matches. -/
theorem run_compiled (rules : List (Rule NetAddr)) (packet : Ipv4Packet) {length : BitVec 32}
    (loaded : loadHalf packet.bytes 2 = some length) (a : BitVec 32) :
    run packet.bytes (rules.flatMap entryInsns ++ [.ldAbsH 2, .retA]) 0 a =
      if ∃ rule ∈ rules, rule.Matches packet ∧ rule.Proper then some 0 else some length := by
  induction rules generalizing a with
  | nil =>
      rw [if_neg (by simp)]
      exact run_returnHalf packet.bytes loaded
  | cons rule rules induction =>
      obtain ⟨a', ran⟩ := run_entryInsns rule packet
        (rules.flatMap entryInsns ++ [.ldAbsH 2, .retA]) a
      rw [List.flatMap_cons, List.append_assoc, ran, induction]
      by_cases matched : rule.Matches packet ∧ rule.Proper
      · rw [if_pos matched, if_pos ⟨rule, List.mem_cons_self, matched⟩]
      · simp only [matched, if_false, List.mem_cons, exists_eq_or_imp, false_or]

/-! ## Runs -/

/-- What is done with the rules; `mtime` is the time. -/
inductive Event where
  | add (type : RuleType) (action : Action) (data1 data2 : NetAddr) (mtime lifetime : Nat)
  | insert (type : RuleType) (action : Action) (data1 data2 : NetAddr) (mtime lifetime : Nat)
  | delete (type : RuleType) (action : Action) (data1 data2 : NetAddr)
  | cleanup (mtime : Nat)

def exec (rules : List (Rule NetAddr)) : Event → List (Rule NetAddr)
  | .add type action data1 data2 mtime lifetime =>
    ruleAdd rules type action data1 data2 mtime lifetime
  | .insert type action data1 data2 mtime lifetime =>
    ruleInsert rules type action data1 data2 mtime lifetime
  | .delete type action data1 data2 => ruleDelete rules type action data1 data2
  | .cleanup mtime => cleanup rules mtime

/-- The program that is compiled after any events does with a packet what the first rule says
that matches, exactly when it has room and the rules only deny. -/
theorem decidesByFirst_iff (events : List Event) (packet : Ipv4Packet) :
    DecidesByFirst (events.foldl exec []) packet ↔
      HasRoom (events.foldl exec []) ∧ DeniesOnly (events.foldl exec []) packet := by
  generalize events.foldl exec [] = rules
  obtain ⟨length, loaded, nonzero⟩ := packet.exists_totalLength
  have ran := run_compiled rules packet loaded 0
  have drops : Drops (rules.flatMap entryInsns ++ [.ldAbsH 2, .retA]) packet ↔
      ∃ rule ∈ rules, rule.Matches packet ∧ rule.Proper := by
    unfold Drops
    rw [ran]
    split
    · rename_i matched
      exact iff_of_true rfl matched
    · rename_i unmatched
      exact iff_of_false (fun same => nonzero (Option.some.inj same)) unmatched
  have passes : Passes (rules.flatMap entryInsns ++ [.ldAbsH 2, .retA]) packet ↔
      ¬ ∃ rule ∈ rules, rule.Matches packet ∧ rule.Proper := by
    unfold Passes
    rw [ran]
    split
    · rename_i matched
      refine iff_of_false ?_ (not_not_intro matched)
      rintro ⟨length, same, nonzero⟩
      exact nonzero (Option.some.inj same).symm
    · rename_i unmatched
      exact iff_of_true ⟨length, rfl, nonzero⟩ unmatched
  have compiled := compile_eq rules
  by_cases room : HasRoom rules
  · rw [if_pos room] at compiled
    rw [DecidesByFirst, compiled, and_iff_right room, DeniesOnly]
    simp only [Option.some.injEq, exists_eq_left']
    cases found : rules.find? fun rule => rule.Matches packet with
    | none =>
        dsimp only
        rw [passes, iff_true]
        rintro ⟨rule, member, matched, _⟩
        exact List.find?_eq_none.mp found rule member (decide_eq_true matched)
    | some rule =>
        dsimp only
        cases rule.action with
        | deny => exact drops
        | accept =>
            dsimp only
            rw [passes]
            exact ⟨fun none' rule member matched proper => none' ⟨rule, member, matched, proper⟩,
              fun none' ⟨rule, member, matched, proper⟩ => none' rule member matched proper⟩
  · rw [if_neg room] at compiled
    simp [DecidesByFirst, compiled, room]

/-- An accept rule in front of a deny rule drops the packet that it is meant for. -/
theorem accept_drops :
    ¬ DecidesByFirst ([.add .srcIp .accept ⟨10, 0, 0, 1⟩ ⟨0, 0, 0, 0⟩ 0 0].foldl exec [])
      ⟨[0x45, 0, 0, 20, 0, 0, 0, 0, 64, 6, 0, 0, 10, 0, 0, 1, 10, 0, 0, 2], by decide,
        by decide⟩ := by
  rintro ⟨prog, compiled, length, ran, nonzero⟩
  obtain rfl : [.ldAbsW 12, .jeqK 0 1 0x0a000001, .retK 0, .ldAbsH 2, .retA] = prog :=
    Option.some.inj compiled
  exact nonzero (Option.some.inj ran).symm

end SocketFilter

end Chaosircd
