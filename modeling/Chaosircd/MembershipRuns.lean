import Chaosircd.MembershipLists
import Chaosircd.TransitionSystem

/-!
# Memberships over a run

Every operation but `NJOIN` makes sure that a client is not on the channel before
it adds a membership.  `NJOIN` looks at the lists, and the blocks of its own line
are not on the lists yet: a line that names a client twice makes two memberships.
Over a run the memberships are sound up to the first such line.
-/

namespace Chaosircd

namespace Memberships

open Dlink

namespace State

/-- Each channel and client have at most one membership. -/
def Unique (s : State) : Prop :=
  ∀ cuptr cuptr', s.used cuptr = true → s.used cuptr' = true →
    (s.chanuser cuptr).channel = (s.chanuser cuptr').channel →
    (s.chanuser cuptr).client = (s.chanuser cuptr').client → cuptr = cuptr'

/-- What is asked of the memberships in every state. -/
structure Coherent (s : State) : Prop where
  /-- each pair of a channel and a client has at most one membership -/
  unique : s.Unique
  /-- the member list of a channel holds its memberships -/
  members : ∀ chptr cuptr, cuptr ∈ s.chanusers.nodes chptr ↔
    s.used cuptr = true ∧ (s.chanuser cuptr).channel = chptr
  /-- the channel list of a client holds its memberships -/
  channels : ∀ cptr cuptr, cuptr ∈ s.channels.nodes cptr ↔
    s.used cuptr = true ∧ (s.chanuser cuptr).client = cptr
  /-- a membership is on the one list if and only if it is on the other -/
  linked : ∀ cuptr, cuptr ∈ s.chanusers.nodes (s.chanuser cuptr).channel ↔
    cuptr ∈ s.channels.nodes (s.chanuser cuptr).client
  /-- no list holds a membership twice, and the local and the remote members are disjoint -/
  nodup : ∀ i, (s.chanusers.nodes i).Nodup ∧ (s.channels.nodes i).Nodup ∧
    (s.lchanusers.nodes i ++ s.rchanusers.nodes i).Nodup
  /-- the member list is the union of the local and the remote one -/
  union : ∀ chptr,
    (s.chanusers.nodes chptr).Perm (s.lchanusers.nodes chptr ++ s.rchanusers.nodes chptr)
  /-- the counts match -/
  sizes : ∀ chptr, (s.chanusers.list chptr).size = (s.chanusers.nodes chptr).length ∧
    (s.chanusers.list chptr).size =
      (s.lchanusers.list chptr).size + (s.rchanusers.list chptr).size

/-- The clients that `chanuser_parse` makes memberships for: the remote users of the line
that are not on the channel. -/
def candidates (s : State) (chptr : Nat) (uv : List (Option Nat)) : List Nat :=
  (uv.filterMap id).filter fun acptr =>
    s.client acptr = some false ∧ s.chanuserFind chptr acptr = none

/-- An `NJOIN` names no remote user that is not on the channel twice. -/
def NamesOnce (s : State) : Event → Prop
  | .njoin chptr uv =>
    s.Registered chptr → (s.candidates (chptr.getD s.channelId) uv).Nodup
  | _ => True

/-- The lists are what the blocks say, and no membership is double. -/
def Good (s : State) : Prop :=
  s.Inv [] ∧ s.Unique

section

variable {s : State} {pending : List Nat} {chptr cptr cuptr : Nat}

@[simp]
theorem linked_nil : s.Linked [] cuptr ↔ s.used cuptr = true := by
  simp [Linked]

theorem Good.coherent (good : s.Good) : s.Coherent := by
  obtain ⟨inv, unique⟩ := good
  have members : ∀ chptr cuptr, cuptr ∈ s.chanusers.nodes chptr ↔
      s.used cuptr = true ∧ (s.chanuser cuptr).channel = chptr := by
    intro chptr cuptr
    rw [inv.chanusers.mem_nodes, linked_nil]
  have channels : ∀ cptr cuptr, cuptr ∈ s.channels.nodes cptr ↔
      s.used cuptr = true ∧ (s.chanuser cuptr).client = cptr := by
    intro cptr cuptr
    rw [inv.channels.mem_nodes, linked_nil]
  have nodup : ∀ chptr, (s.lchanusers.nodes chptr ++ s.rchanusers.nodes chptr).Nodup := by
    intro chptr
    rw [List.nodup_append]
    refine ⟨inv.lchanusers.nodup chptr, inv.rchanusers.nodup chptr, ?_⟩
    rintro cuptr isLocal other isRemote rfl
    have first := (inv.lchanusers.mem_nodes.mp isLocal).2.2
    have second := (inv.rchanusers.mem_nodes.mp isRemote).2.2
    rw [first] at second
    cases second
  have union : ∀ chptr, (s.chanusers.nodes chptr).Perm
      (s.lchanusers.nodes chptr ++ s.rchanusers.nodes chptr) := by
    intro chptr
    rw [List.perm_ext_iff_of_nodup (inv.chanusers.nodup chptr) (nodup chptr)]
    intro cuptr
    rw [List.mem_append, inv.chanusers.mem_nodes, inv.lchanusers.mem_nodes,
      inv.rchanusers.mem_nodes]
    cases (s.chanuser cuptr).isLocal <;> simp
  refine ⟨unique, members, channels, ?_, ?_, union, ?_⟩
  · intro cuptr
    rw [members, channels]
    simp
  · exact fun i => ⟨inv.chanusers.nodup i, inv.channels.nodup i, nodup i⟩
  · intro chptr
    refine ⟨inv.chanusers.size chptr, ?_⟩
    rw [inv.chanusers.size, inv.lchanusers.size, inv.rchanusers.size,
      (union chptr).length_eq, List.length_append]

/-! ## Leaving -/

/-- Uniqueness depends on the blocks in use only. -/
theorem Unique.of_used {s' : State} (unique : s.Unique) (same : s'.chanuser = s.chanuser)
    (fewer : ∀ cuptr, s'.used cuptr = true → s.used cuptr = true) : s'.Unique := by
  intro cuptr cuptr' used used' channel client
  rw [same] at channel client
  exact unique cuptr cuptr' (fewer cuptr used) (fewer cuptr' used') channel client

theorem Good.chanuserDelete (good : s.Good) (used : s.used cuptr = true) :
    (s.chanuserDelete cuptr).Good := by
  refine ⟨good.1.chanuserDelete (by simpa using used), ?_⟩
  refine @Unique.of_used s _ good.2 rfl ?_
  intro other stillUsed
  by_cases same : other = cuptr
  · exact same ▸ used
  · simpa [State.chanuserDelete, same] using stillUsed

theorem Good.channelDelete (good : s.Good) (isEmpty : (s.chanusers.list chptr).size = 0) :
    (s.channelDelete chptr).Good := by
  refine ⟨good.1.channelDelete isEmpty, ?_⟩
  rw [good.1.channelDelete_eq isEmpty]
  exact good.2

theorem Good.leaveOne (good : s.Good) (used : s.used cuptr = true) (spare : Bool) :
    (s.leaveOne spare cuptr).Good := by
  have left := good.chanuserDelete used
  rw [State.leaveOne]
  split_ifs with isEmpty
  · exact left.channelDelete isEmpty.1
  · exact left

theorem leaveOne_channels (good : s.Good) (used : s.used cuptr = true) (spare : Bool) :
    (s.leaveOne spare cuptr).channels = (s.chanuserDelete cuptr).channels := by
  have left := good.chanuserDelete used
  rw [State.leaveOne]
  split_ifs with isEmpty
  · rw [left.1.channelDelete_eq isEmpty.1]
  · rfl

/-- A loop over the channels of a client whose body takes away the membership it is called
with. -/
theorem Good.foreachChannel (good : s.Good) (cptr : Nat) {body : State → Nat → State}
    (keeps : ∀ s cuptr, Good s → s.used cuptr = true → (body s cuptr).Good)
    (takes : ∀ s cuptr, Good s → s.used cuptr = true →
      (body s cuptr).channels = (s.chanuserDelete cuptr).channels) :
    (s.foreachChannel cptr body).Good := by
  have loop := @foreachSafe_induction Nat State
    (fun s cuptr => s.channels.links.next cuptr) body
    (fun s rest => s.Good ∧ s.channels.nodes cptr = rest) (by
      rintro s cuptr rest ⟨good, ahead⟩
      exact @Lists.Indexes.next Nat Nat s.channels cptr cuptr _ good.1.channels [] rest ahead)
    (by
      rintro s cuptr rest ⟨good, ahead⟩
      have member := good.1.channels.mem_nodes.mp (by rw [ahead]; exact List.mem_cons_self)
      have used : s.used cuptr = true := linked_nil.mp member.1
      refine ⟨keeps s cuptr good used, ?_⟩
      rw [takes s cuptr good used]
      have shrunk := good.1.channels.nodes_delete member
      rw [ahead, List.erase_cons_head] at shrunk
      simp only [State.chanuserDelete, member.2]
      exact shrunk)
    (s.channels.list cptr).size s (s.channels.nodes cptr) ⟨good, rfl⟩
    (Nat.le_of_eq (good.1.channels.size cptr).symm)
  rw [State.foreachChannel, good.1.channels.head]
  exact loop.1

theorem Good.clientDelete (good : s.Good) (cptr : Nat) : (s.clientDelete cptr).Good := by
  have released := good.foreachChannel cptr (fun s cuptr good used => good.chanuserDelete used)
    (fun _ _ _ _ => rfl)
  refine ⟨released.1.setClient ?_, released.2⟩
  intro other isSome
  by_cases same : other = cptr
  · subst same
    simp at isSome
  · simpa [same] using isSome

theorem Good.clientVexit (good : s.Good) (cptr : Nat) : (s.clientVexit cptr).Good := by
  apply Good.clientDelete
  exact good.foreachChannel cptr (fun s cuptr good used => good.leaveOne used true)
    (fun s cuptr good used => leaveOne_channels good used true)

theorem Good.splitOne (good : s.Good) (cptr : Nat) : (s.splitOne cptr).Good := by
  rw [State.splitOne]
  split_ifs
  · apply Good.clientDelete
    exact good.foreachChannel cptr (fun s cuptr good used => good.leaveOne used false)
      (fun s cuptr good used => leaveOne_channels good used false)
  · exact good

theorem Good.serverSplit (good : s.Good) (users : List Nat) : (s.serverSplit users).Good := by
  induction users generalizing s with
  | nil => exact good
  | cons cptr users ih => exact ih (good.splitOne cptr)

theorem Good.mPart (good : s.Good) (cptr chptr : Nat) (isOwner : Bool) :
    (s.mPart cptr chptr isOwner).Good := by
  rw [State.mPart]
  cases found : s.chanuserFind chptr cptr with
  | none => exact good
  | some cuptr =>
      have used := linked_nil.mp (good.1.of_chanuserFind found).1
      have left := good.chanuserDelete used
      dsimp only
      split_ifs with _ isEmpty
      · exact good
      · exact left.channelDelete isEmpty.1
      · exact left

theorem Good.msPart (good : s.Good) (cptr chptr : Nat) : (s.msPart cptr chptr).Good := by
  rw [State.msPart]
  cases found : s.chanuserFind chptr cptr with
  | none => exact good
  | some cuptr =>
      have used := linked_nil.mp (good.1.of_chanuserFind found).1
      have left := good.chanuserDelete used
      dsimp only
      split_ifs with isEmpty
      · exact left.channelDelete isEmpty
      · exact left

theorem Good.chanuserKickOne (good : s.Good) (chptr : Nat) (target : Option Nat × Bool) :
    (s.chanuserKickOne chptr target).Good := by
  rw [State.chanuserKickOne]
  cases found : target.1.bind fun acptr => s.chanuserFind chptr acptr with
  | none => exact good
  | some acuptr =>
      obtain ⟨acptr, -, isFound⟩ := Option.bind_eq_some_iff.mp found
      have used := linked_nil.mp (good.1.of_chanuserFind isFound).1
      dsimp only
      split_ifs
      · exact good.chanuserDelete used
      · exact good

theorem Good.chanuserKick (good : s.Good) (chptr : Nat) (targets : List (Option Nat × Bool)) :
    (s.chanuserKick chptr targets).Good := by
  induction targets generalizing s with
  | nil => exact good
  | cons target targets ih => exact ih (good.chanuserKickOne chptr target)

/-! ## Joining -/

theorem Good.channelNew (good : s.Good) : s.channelNew.Good :=
  ⟨good.1.channelNew, good.2⟩

theorem Good.chanuserAdd (good : s.Good) (channel : chptr < s.channelId)
    (free : ∀ cuptr, s.used cuptr = true →
      ¬ ((s.chanuser cuptr).channel = chptr ∧ (s.chanuser cuptr).client = cptr)) :
    (s.chanuserAdd chptr cptr).Good := by
  refine ⟨good.1.chanuserAdd channel cptr, ?_⟩
  rw [State.chanuserAdd]
  cases s.client cptr with
  | none => exact good.2
  | some isLocal =>
      intro first second used used' sameChannel sameClient
      simp only [State.link, State.chanuserNew, Function.update_idem, Function.update_self]
        at used used' sameChannel sameClient
      by_cases isNew : first = s.chanuserHeap <;> by_cases isNew' : second = s.chanuserHeap
      · rw [isNew, isNew']
      · subst isNew
        rw [Function.update_self, Function.update_of_ne isNew'] at sameChannel sameClient
        rw [Function.update_of_ne isNew'] at used'
        exact absurd ⟨sameChannel.symm, sameClient.symm⟩ (free second used')
      · subst isNew'
        rw [Function.update_self, Function.update_of_ne isNew] at sameChannel sameClient
        rw [Function.update_of_ne isNew] at used
        exact absurd ⟨sameChannel, sameClient⟩ (free first used)
      · rw [Function.update_of_ne isNew, Function.update_of_ne isNew'] at sameChannel sameClient
        rw [Function.update_of_ne isNew] at used
        rw [Function.update_of_ne isNew'] at used'
        exact good.2 first second used used' sameChannel sameClient

theorem Good.channelJoin (good : s.Good) (isSome : (s.client cptr).isSome)
    {chptr : Option Nat} (registered : s.Registered chptr) (refused : Bool) :
    (s.channelJoin cptr chptr refused).Good := by
  cases chptr with
  | none =>
      apply good.channelNew.chanuserAdd (Nat.lt_succ_self _)
      rintro cuptr used ⟨isNew, -⟩
      have old := (good.1.given cuptr used).2.1
      have isNew' : (s.chanuser cuptr).channel = s.channelId := isNew
      omega
  | some chptr =>
      rw [State.channelJoin]
      split_ifs with member
      · exact good
      · exact good
      · apply good.chanuserAdd (good.1.registered chptr (registered chptr rfl))
        intro cuptr used
        exact good.1.not_linked_of_chanuserFind isSome (by simpa using member)
          (linked_nil.mpr used)

/-! ## The line of an `NJOIN` -/

/-- What a parsed line leaves: unlinked blocks for the candidates, and nothing else. -/
structure Parsed (s : State) (pending : List Nat) (chptr : Nat) (cands : List Nat)
    (after : State) (chanusers : List Nat) : Prop where
  inv : after.Inv (chanusers ++ pending)
  blocks : chanusers.map after.chanuser = cands.map fun acptr => ⟨chptr, acptr, false⟩
  used : ∀ cuptr, after.used cuptr = true ↔ s.used cuptr = true ∨ cuptr ∈ chanusers
  old : ∀ cuptr, cuptr < s.chanuserHeap → after.chanuser cuptr = s.chanuser cuptr
  nodup : chanusers.Nodup
  fresh : ∀ cuptr ∈ chanusers, s.chanuserHeap ≤ cuptr

theorem find?_congr {p q : Nat → Bool} {nodes : List Nat}
    (same : ∀ node ∈ nodes, p node = q node) : nodes.find? p = nodes.find? q := by
  induction nodes with
  | nil => rfl
  | cons node nodes ih =>
      rw [List.find?_cons, List.find?_cons, same node (by simp),
        ih fun other member => same other (by simp [member])]

/-- The blocks of the line are not found. -/
theorem Inv.chanuserFind_chanuserNew (inv : s.Inv pending) (chptr acptr chptr' cptr : Nat) :
    (s.chanuserNew chptr acptr).chanuserFind chptr' cptr = s.chanuserFind chptr' cptr := by
  rw [chanuserFind, chanuserFind]
  refine if_congr Iff.rfl (find?_congr ?_) rfl
  intro cuptr member
  have used := (inv.channels.mem_nodes.mp member).1.1
  have old : cuptr ≠ s.chanuserHeap := Nat.ne_of_lt (inv.given cuptr used).1
  simp [State.chanuserNew, old]

theorem Inv.pending_congr (inv : s.Inv pending) {pending' : List Nat}
    (same : ∀ cuptr, cuptr ∈ pending' ↔ cuptr ∈ pending) : s.Inv pending' :=
  inv.rewrite (fun cuptr => by rw [Linked, same]) (fun _ _ => rfl) inv.given

theorem chanuserParse_spec (inv : s.Inv pending) (channel : chptr < s.channelId)
    (uv : List (Option Nat)) :
    Parsed s pending chptr (s.candidates chptr uv) (chanuserParse chptr s uv).1
      (chanuserParse chptr s uv).2 := by
  induction uv generalizing s pending with
  | nil =>
      exact ⟨inv, rfl, by simp [chanuserParse], fun _ _ => rfl, List.nodup_nil,
        by simp [chanuserParse]⟩
  | cons token uv ih =>
      cases token with
      | none => exact ih inv channel
      | some acptr =>
          have first : (some acptr :: uv).filterMap id = acptr :: uv.filterMap id := rfl
          by_cases skip : s.client acptr ≠ some false ∨ (s.chanuserFind chptr acptr).isSome
          · have isSkipped : s.candidates chptr (some acptr :: uv) = s.candidates chptr uv := by
              rw [candidates, candidates, first, List.filter_cons_of_neg]
              rcases skip with other | member
              · simp [other]
              · rw [Option.isSome_iff_ne_none] at member
                simp [member]
            rw [chanuserParse, if_pos skip, isSkipped]
            exact ih inv channel
          · rw [not_or, not_not, Option.not_isSome_iff_eq_none] at skip
            obtain ⟨remote, absent⟩ := skip
            have client := inv.present acptr (by rw [remote]; rfl)
            have new := inv.chanuserNew channel client
            have later := ih new channel
            have isTaken : s.candidates chptr (some acptr :: uv) =
                acptr :: (s.chanuserNew chptr acptr).candidates chptr uv := by
              rw [candidates, candidates, first,
                List.filter_cons_of_pos (by simp [remote, absent])]
              congr 1
              apply List.filter_congr
              intro cptr _
              rw [inv.chanuserFind_chanuserNew]
              rfl
            have kept : ∀ cuptr, s.chanuserHeap ≤ cuptr → s.used cuptr ≠ true := by
              intro cuptr large used
              exact absurd (inv.given cuptr used).1 (by omega)
            rw [chanuserParse, if_neg (by simp [remote, absent]), isTaken]
            refine ⟨?_, ?_, ?_, ?_, ?_, ?_⟩
            · apply later.inv.pending_congr
              intro cuptr
              simp only [List.mem_append, List.mem_cons]
              tauto
            · rw [List.map_cons, List.map_cons, later.blocks,
                later.old _ (Nat.lt_succ_self _)]
              simp [State.chanuserNew]
            · intro cuptr
              rw [later.used]
              by_cases isNew : cuptr = s.chanuserHeap
              · simp [isNew, State.chanuserNew]
              · simp [isNew, State.chanuserNew]
            · intro cuptr small
              rw [later.old cuptr (Nat.lt_succ_of_lt small)]
              exact Function.update_of_ne (Nat.ne_of_lt small) _ _
            · rw [List.nodup_cons]
              refine ⟨fun inside => ?_, later.nodup⟩
              exact absurd (later.fresh _ inside) (Nat.not_succ_le_self _)
            · intro cuptr inside
              rcases List.mem_cons.mp inside with rfl | inside
              · exact Nat.le_refl _
              · exact Nat.le_of_succ_le (later.fresh cuptr inside)

theorem linkUsers_same (s : State) (chptr : Nat) (chanusers : List Nat) :
    (s.linkUsers chptr chanusers).chanuser = s.chanuser ∧
      (s.linkUsers chptr chanusers).used = s.used := by
  induction chanusers generalizing s with
  | nil => exact ⟨rfl, rfl⟩
  | cons cuptr chanusers ih => exact ih _

theorem Inv.linkUsers {chanusers : List Nat} (inv : s.Inv (chanusers ++ pending))
    (nodup : (chanusers ++ pending).Nodup)
    (ready : ∀ cuptr ∈ chanusers, s.used cuptr = true ∧
      (s.chanuser cuptr).channel = chptr ∧ (s.chanuser cuptr).isLocal = false) :
    (s.linkUsers chptr chanusers).Inv pending := by
  induction chanusers generalizing s with
  | nil => exact inv
  | cons cuptr chanusers ih =>
      obtain ⟨used, channel, remote⟩ := ready cuptr (by simp)
      rw [List.cons_append, List.nodup_cons] at nodup
      apply ih (inv.link used nodup.1 channel rfl remote) nodup.2
      intro other inside
      exact ready other (List.mem_cons_of_mem _ inside)

theorem mem_candidates {acptr : Nat} {uv : List (Option Nat)}
    (member : acptr ∈ s.candidates chptr uv) :
    (s.client acptr).isSome ∧ s.chanuserFind chptr acptr = none := by
  obtain ⟨remote, absent⟩ := of_decide_eq_true (List.mem_filter.mp member).2
  rw [remote]
  exact ⟨rfl, absent⟩

/-- The memberships of a parsed line, once they are linked. -/
theorem Good.linkUsers {after : State} {chanusers : List Nat} {uv : List (Option Nat)}
    (good : s.Good) (parsed : Parsed s [] chptr (s.candidates chptr uv) after chanusers) :
    (after.linkUsers chptr chanusers).Inv [] ∧
      ((after.linkUsers chptr chanusers).Unique ↔ (s.candidates chptr uv).Nodup) := by
  obtain ⟨inv, unique⟩ := good
  have blockOf : ∀ cuptr ∈ chanusers, ∃ acptr ∈ s.candidates chptr uv,
      after.chanuser cuptr = ⟨chptr, acptr, false⟩ := by
    intro cuptr inside
    have member := List.mem_map_of_mem inside (f := after.chanuser)
    rw [parsed.blocks] at member
    obtain ⟨acptr, isCandidate, isBlock⟩ := List.mem_map.mp member
    exact ⟨acptr, isCandidate, isBlock.symm⟩
  have clients : chanusers.map (fun cuptr => (after.chanuser cuptr).client) =
      s.candidates chptr uv := by
    have mapped := congrArg (List.map Chanuser.client) parsed.blocks
    simpa [List.map_map, Function.comp_def] using mapped
  obtain ⟨sameBlocks, sameUsed⟩ := linkUsers_same after chptr chanusers
  constructor
  · apply Inv.linkUsers parsed.inv (by simpa using parsed.nodup)
    intro cuptr inside
    obtain ⟨acptr, -, isBlock⟩ := blockOf cuptr inside
    rw [parsed.used, isBlock]
    exact ⟨Or.inr inside, rfl, rfl⟩
  · rw [Unique, sameBlocks, sameUsed]
    constructor
    · -- two blocks of the line with one client would be two memberships
      intro uniqueAfter
      rw [← clients]
      apply parsed.nodup.map_on
      intro first isFirst second isSecond sameClient
      obtain ⟨acptr, -, isBlock⟩ := blockOf first isFirst
      obtain ⟨acptr', -, isBlock'⟩ := blockOf second isSecond
      refine uniqueAfter first second ((parsed.used first).mpr (Or.inr isFirst))
        ((parsed.used second).mpr (Or.inr isSecond)) ?_ sameClient
      rw [isBlock, isBlock']
    · intro distinct first second used used' sameChannel sameClient
      -- an old membership is not one of a candidate
      have apart : ∀ old new, s.used old = true → new ∈ chanusers →
          (after.chanuser old).channel = (after.chanuser new).channel →
          (after.chanuser old).client ≠ (after.chanuser new).client := by
        intro old new usedOld isNew onChannel ofClient
        obtain ⟨acptr, isCandidate, isBlock⟩ := blockOf new isNew
        obtain ⟨isSome, absent⟩ := mem_candidates isCandidate
        rw [parsed.old old (inv.given old usedOld).1, isBlock] at onChannel ofClient
        exact inv.not_linked_of_chanuserFind isSome absent (linked_nil.mpr usedOld)
          ⟨onChannel, ofClient⟩
      rcases (parsed.used first).mp used with isOld | isNew <;>
        rcases (parsed.used second).mp used' with isOld' | isNew'
      · rw [parsed.old first (inv.given first isOld).1,
          parsed.old second (inv.given second isOld').1] at sameChannel sameClient
        exact unique first second isOld isOld' sameChannel sameClient
      · exact absurd sameClient (apart first second isOld isNew' sameChannel)
      · exact absurd sameClient.symm (apart second first isOld' isNew sameChannel.symm)
      · rw [← clients] at distinct
        exact List.inj_on_of_nodup_map distinct isNew isNew' sameClient

/-- `NJOIN` keeps the lists in order, and the memberships unique if and only if the
candidates of the line are distinct. -/
theorem Good.msNjoin (good : s.Good) {chptr : Option Nat} (registered : s.Registered chptr)
    (uv : List (Option Nat)) :
    (s.msNjoin chptr uv).Inv [] ∧
      ((s.msNjoin chptr uv).Unique ↔ (s.candidates (chptr.getD s.channelId) uv).Nodup) := by
  cases chptr with
  | some chptr =>
      have channel := good.1.registered chptr (registered chptr rfl)
      exact good.linkUsers (chanuserParse_spec good.1 channel uv)
  | none =>
      have new := good.channelNew
      exact new.linkUsers (chanuserParse_spec new.1 (Nat.lt_succ_self s.channelId) uv)

/-! ## Runs -/

/-- One event. -/
theorem Good.step (good : s.Good) {event : Event} (once : s.NamesOnce event) :
    (s.step event).Good := by
  cases event with
  | user isLocal => exact ⟨good.1.clientNew isLocal, good.2⟩
  | mode chptr persistent =>
      rw [State.step]
      split_ifs with registered
      · refine ⟨good.1.setChannel ?_, good.2⟩
        intro other isSome
        by_cases same : other = chptr
        · exact same ▸ registered chptr rfl
        · simpa [same] using isSome
      · exact good
  | join cptr chptr refused =>
      rw [State.step]
      split_ifs with here
      · exact good.channelJoin here.1 here.2 refused
      · exact good
  | njoin chptr uv =>
      rw [State.step]
      split_ifs with registered
      · obtain ⟨inv, iff⟩ := good.msNjoin registered uv
        exact ⟨inv, iff.mpr (once registered)⟩
      · exact good
  | part cptr chptr isOwner =>
      rw [State.step]
      split_ifs
      · exact good.mPart cptr chptr isOwner
      · exact good
  | remotePart cptr chptr =>
      rw [State.step]
      split_ifs
      · exact good.msPart cptr chptr
      · exact good
  | kick chptr targets =>
      rw [State.step]
      split_ifs
      · exact good.chanuserKick chptr targets
      · exact good
  | quit cptr =>
      rw [State.step]
      split_ifs
      · exact good.clientVexit cptr
      · exact good
  | split users => exact good.serverSplit users

/-- An event after which the memberships are unique has named nobody twice. -/
theorem Good.namesOnce (good : s.Good) {event : Event} (unique : (s.step event).Unique) :
    s.NamesOnce event := by
  cases event with
  | njoin chptr uv =>
      intro registered
      rw [State.step, if_pos registered] at unique
      exact (good.msNjoin registered uv).2.mp unique
  | _ => trivial

end

theorem good_boot : boot.Good :=
  ⟨inv_boot, fun cuptr _ used => by simp [boot] at used⟩

/-- The memberships are coherent in every state of a run if and only if no `NJOIN` of the
run names a remote user that is not on its channel twice. -/
theorem coherent_iff_namesOnce (run : List Event) :
    (∀ before, before <+: run → (before.foldl step boot).Coherent) ↔
      TransitionSystem.GuardedRun (fun s event => some (s.step event)) NamesOnce boot run := by
  apply @TransitionSystem.guardedRun_iff_forall State Event step NamesOnce Good Coherent
  · exact fun s good => good.coherent
  · exact fun s event good once => good.step once
  · exact fun s event good coherent => good.namesOnce coherent.unique
  · exact good_boot

/-- `NJOIN` with one remote user twice. -/
theorem not_coherent_of_namedTwice :
    ¬ ∀ run : List Event, (run.foldl step boot).Coherent := by
  intro all
  have coherent := all [.user false, .njoin none [some 0, some 0]]
  have same := coherent.unique 0 1 (by decide) (by decide) (by decide) (by decide)
  cases same

end State

end Memberships

end Chaosircd
