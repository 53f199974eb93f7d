import Chaosircd.NetworkStep

/-!
# The nick history

A rename files the old nick with a pointer to the client.  The exit of a user
takes the first entry of the user from every bucket, and the exit of a server
leaves the history alone.  An entry dangles when its client has more than one
entry in a bucket or goes with its server.
-/

namespace Chaosircd

namespace Ircd

/-- Every history entry refers to a registered client. -/
def HistoryLive (ircd : Ircd) : Prop :=
  ∀ bucket, ∀ hptr ∈ ircd.clientHistory bucket,
    ∃ cptr ∈ ircd.clients, cptr.id = hptr.client

/-- Every history entry refers to a registered user. -/
def HistoryOfUsers (ircd : Ircd) : Prop :=
  ∀ bucket, ∀ hptr ∈ ircd.clientHistory bucket, ircd.HasUser hptr.client

/-- A user that leaves has one entry in a bucket at most, and nobody who leaves
with a server has an entry. -/
def HistoryGuard (ircd : Ircd) (event : Event) : Prop :=
  ∀ cptr ∈ ircd.clients, ircd.exitOf event = some cptr.id →
    if cptr.IsUser then
      ∀ bucket, (ircd.clientHistory bucket).countP
        (fun hptr => hptr.client = cptr.id) ≤ 1
    else
      ∀ bucket, ∀ hptr ∈ ircd.clientHistory bucket,
        ¬ ircd.topology.Below cptr.id hptr.client

/-- The history gains no entry but for users that are there. -/
def HistoryGrows (ircd next : Ircd) : Prop :=
  ∀ bucket, ∀ hptr ∈ next.clientHistory bucket,
    (∃ bucket', hptr ∈ ircd.clientHistory bucket') ∨ next.HasUser hptr.client

variable {ircd next : Ircd}

theorem HistoryOfUsers.historyLive (ofUsers : ircd.HistoryOfUsers) :
    ircd.HistoryLive := by
  intro bucket hptr member
  obtain ⟨cptr, isClient, isId, -⟩ := ofUsers bucket hptr member
  exact ⟨cptr, isClient, isId⟩

theorem HistoryGrows.of_eq (same : next.clientHistory = ircd.clientHistory) :
    ircd.HistoryGrows next := by
  intro bucket hptr member
  rw [same] at member
  exact .inl ⟨bucket, member⟩

/-! ## Renames -/

theorem mem_clientHistoryAdd {id : Nat} {nick : CString} {bucket : Nat}
    {hptr : History}
    (member : hptr ∈ (ircd.clientHistoryAdd id nick).clientHistory bucket) :
    hptr ∈ ircd.clientHistory bucket ∨ hptr.client = id := by
  simp only [clientHistoryAdd] at member
  by_cases isBucket : bucket = strIhash nick % clientHashSize
  · rw [if_pos isBucket] at member
    split at member
    · rw [List.mem_iff_getElem?] at member
      obtain ⟨i, isEntry⟩ := member
      rw [List.getElem?_modify] at isEntry
      obtain ⟨entry, isOld, rfl⟩ := Option.map_eq_some_iff.mp isEntry
      split_ifs
      · exact .inr rfl
      · exact .inl (List.mem_of_getElem? isOld)
    · rcases List.mem_cons.mp member with rfl | old
      · exact .inr rfl
      · split at old
        · exact .inl (List.mem_of_mem_dropLast old)
        · exact .inl old
  · rw [if_neg isBucket] at member
    exact .inl member

theorem hasUser_congr (same : next.topology = ircd.topology) (id : Nat) :
    next.HasUser id ↔ ircd.HasUser id := by
  rw [hasUser_iff, hasUser_iff, same]

theorem historyGrows_clientSetName (ircd : Ircd) (id : Nat) (name : CString) :
    ircd.HistoryGrows (ircd.clientSetName id name) := by
  intro bucket hptr member
  rw [hasUser_congr (Quiet.clientSetName ircd id name).topology_eq]
  cases found : ircd.client? id with
  | none =>
      simp only [clientSetName, found] at member
      exact .inl ⟨bucket, member⟩
  | some cptr =>
      by_cases isUser : cptr.IsUser
      · by_cases named : cptr.name ≠ []
        · have added : hptr ∈
              ((ircd.unlinkNick cptr.hash id).clientHistoryAdd id
                cptr.name).clientHistory bucket := by
            simp only [clientSetName, found, if_pos isUser, if_pos named] at member
            split_ifs at member <;> exact member
          refine (mem_clientHistoryAdd added).imp (fun old => ⟨bucket, old⟩) ?_
          intro isId
          exact ⟨cptr, mem_of_client? found,
            (id_of_client? found).trans isId.symm, isUser⟩
        · simp only [clientSetName, found, if_pos isUser, if_neg named] at member
          split_ifs at member <;> exact .inl ⟨bucket, member⟩
      · simp only [clientSetName, found, if_neg isUser] at member
        split_ifs at member <;> exact .inl ⟨bucket, member⟩

theorem HistoryGrows.setTs (grows : ircd.HistoryGrows next) (id ts : Nat) :
    ircd.HistoryGrows (next.setTs id ts) := by
  intro bucket hptr member
  rw [hasUser_congr (Quiet.setTs next id ts).topology_eq]
  exact grows bucket hptr member

theorem historyGrows_clientNick (ircd : Ircd) (l : Nat) (cptr : Client)
    (nick : CString) : ircd.HistoryGrows (ircd.clientNick l cptr nick).1 := by
  intro bucket hptr member
  exact historyGrows_clientSetName (ircd.setTs cptr.id ircd.systime) cptr.id nick
    bucket hptr member

theorem historyGrows_mNick (ircd : Ircd) (l : Nat) (cptr : Client)
    (args : List CString) : ircd.HistoryGrows (ircd.mNick l cptr args).1 := by
  have same : ircd.HistoryGrows ircd := .of_eq rfl
  unfold mNick
  split
  · exact same
  · dsimp only
    split_ifs
    · split
      · split_ifs
        · exact historyGrows_clientNick ircd l cptr _
        · exact same
        · exact same
      · exact historyGrows_clientNick ircd l cptr _
    · exact same

theorem historyGrows_msNick (ircd : Ircd) (l : Nat) (cptr : Client)
    (args : List CString) : ircd.HistoryGrows (ircd.msNick l cptr args).1 := by
  unfold msNick
  split
  · exact (historyGrows_clientNick ircd l cptr _).setTs _ _
  · exact .of_eq rfl

theorem historyGrows_msNbounce (ircd : Ircd) (lcptr : Lclient) (cptr : Client)
    (args : List CString) :
    ircd.HistoryGrows (ircd.msNbounce lcptr cptr args).1 := by
  unfold msNbounce
  split
  · split
    · exact .of_eq rfl
    · intro bucket hptr member
      exact historyGrows_clientSetName (ircd.setTs _ _) _ _ bucket hptr member
  · exact .of_eq rfl

/-! ## What leaves the history alone -/

theorem clientHistory_clientNewLocal (kind : ClientKind) (lcptr : Lclient) :
    (ircd.clientNewLocal kind lcptr).clientHistory = ircd.clientHistory := by
  unfold clientNewLocal linkClient
  dsimp only
  split_ifs <;> rfl

theorem clientHistory_clientNewRemote (kind : ClientKind) (source origin : Nat)
    (name : CString) (ts : Nat) :
    (ircd.clientNewRemote kind source origin name ts).clientHistory =
      ircd.clientHistory := by
  unfold clientNewRemote linkClient
  dsimp only
  split_ifs <;> rfl

theorem clientHistory_clientDelete (id : Nat) :
    (ircd.clientDelete id).clientHistory = ircd.clientHistory := by
  unfold clientDelete
  split
  · rfl
  · dsimp only
    split_ifs <;> rfl

theorem clientHistory_lclientRegister (id : Nat) (hooks : LoginHooks) :
    (ircd.lclientRegister id hooks).clientHistory = ircd.clientHistory := by
  unfold lclientRegister
  split
  · rfl
  · split
    · rfl
    · split_ifs
      · exact clientHistory_clientNewLocal _ _
      · rfl

theorem clientHistory_lclientHandshake (id : Nat) (hooks : LoginHooks) :
    (ircd.lclientHandshake id hooks).clientHistory = ircd.clientHistory := by
  unfold lclientHandshake
  split
  · rfl
  · split
    · rfl
    · split_ifs
      · rfl
      · rfl
      · rfl
      · exact clientHistory_lclientRegister id hooks

theorem clientHistory_lclientLogin (id : Nat) (hooks : LoginHooks) :
    (ircd.lclientLogin id hooks).clientHistory = ircd.clientHistory := by
  unfold lclientLogin
  split
  · rfl
  · split_ifs
    · rfl
    · rfl
    · exact clientHistory_lclientHandshake id hooks

theorem clientHistory_mrNick (id : Nat) (nick : CString) (hooks : LoginHooks) :
    (ircd.mrNick id nick hooks).clientHistory = ircd.clientHistory := by
  unfold mrNick
  split
  · rfl
  · dsimp only
    split_ifs
    · exact clientHistory_lclientLogin id hooks
    · rfl
    · rfl

theorem clientHistory_mrUser (id : Nat) (user uid : CString)
    (hooks : LoginHooks) :
    (ircd.mrUser id user uid hooks).clientHistory = ircd.clientHistory := by
  unfold mrUser
  split
  · rfl
  · dsimp only
    split_ifs
    · exact clientHistory_lclientLogin id hooks
    · rfl
    · rfl

theorem clientHistory_cookieDone (id : Nat) (hooks : LoginHooks) :
    (ircd.cookieDone id hooks).clientHistory = ircd.clientHistory := by
  unfold cookieDone
  split
  · rfl
  · split_ifs
    · exact clientHistory_lclientHandshake id hooks
    · rfl

theorem clientHistory_authDone (id : Nat) (hooks : LoginHooks) :
    (ircd.authDone id hooks).clientHistory = ircd.clientHistory := by
  unfold authDone
  split
  · rfl
  · split_ifs
    · exact clientHistory_lclientRegister id hooks
    · rfl

theorem clientHistory_serverLogin (lcptr : Lclient) (name : CString)
    (capUid : Bool) :
    (ircd.serverLogin lcptr name capUid).clientHistory = ircd.clientHistory := by
  unfold serverLogin
  dsimp only
  split_ifs
  · rfl
  · exact clientHistory_clientNewLocal _ _

theorem clientHistory_msNuser (l : Nat) (cptr : Client) (args : List CString)
    (randomNick : CString) :
    (ircd.msNuser l cptr args randomNick).1.clientHistory =
      ircd.clientHistory := by
  unfold msNuser
  split
  · dsimp only
    split_ifs
    · rfl
    · rfl
    · rfl
    · split
      · rfl
      · split
        · exact clientHistory_clientNewRemote _ _ _ _ _
        · split_ifs <;> exact clientHistory_clientNewRemote _ _ _ _ _
    · rfl
  · rfl

/-- `server_split` does not look at the history. -/
theorem clientHistory_serverSplit (depth : Nat) (ircd : Ircd) (id : Nat) :
    (serverSplit depth ircd id).clientHistory = ircd.clientHistory := by
  induction depth generalizing ircd id with
  | zero => rfl
  | succ depth ih =>
      have users : ∀ (ids : List Nat) (ircd : Ircd),
          (ids.foldl splitUser ircd).clientHistory = ircd.clientHistory := by
        intro ids
        induction ids with
        | nil => exact fun _ => rfl
        | cons user ids ih =>
            intro ircd
            exact (ih _).trans (clientHistory_clientDelete user)
      have servers : ∀ (ids : List Nat) (ircd : Ircd),
          (ids.foldl (fun ircd cptr =>
            (serverSplit depth ircd cptr).clientDelete cptr) ircd).clientHistory =
              ircd.clientHistory := by
        intro ids
        induction ids with
        | nil => exact fun _ => rfl
        | cons sptr ids ihIds =>
            intro ircd
            exact (ihIds _).trans ((clientHistory_clientDelete sptr).trans
              (ih ircd sptr))
      exact (servers _ _).trans (users _ _)

/-- What the exit of a client does to the history. -/
theorem clientHistory_clientVexit {id : Nat} {cptr : Client}
    (found : ircd.client? id = some cptr) :
    (ircd.clientVexit id).clientHistory =
      if cptr.IsUser then (ircd.clientHistoryClean id).clientHistory
      else ircd.clientHistory := by
  simp only [clientVexit, found]
  rw [clientHistory_clientDelete]
  by_cases isUser : cptr.IsUser
  · rw [if_pos isUser, if_pos isUser]
    split_ifs <;> rfl
  · rw [if_neg isUser, if_neg isUser, apply_ite clientHistory]
    simp only [lclientDelete, clientHistory_serverSplit, ite_self]

/-! ## Exits -/

/-- Nothing is recorded below a user. -/
theorem Linked.not_below_user (linked : ircd.Linked) {cptr : Client}
    (member : cptr ∈ ircd.clients) (isUser : cptr.IsUser) (id : Nat) :
    ¬ ircd.topology.Below cptr.id id := by
  intro below
  obtain ⟨place, isPlace, named, -⟩ := below.down_cases
  obtain ⟨acptr, isClient, rfl⟩ := mem_places.mp isPlace
  refine linked.origin_ne_user ?_ acptr isClient named
  intro other isOther isId
  rw [linked.network.eq_of_id_eq isOther (place_mem member) isId]
  exact isUser

/-- Erasing the first of the entries that satisfy a predicate erases them all when
there is one at most. -/
theorem forall_eraseP_iff {α : Type*} (p : α → Bool) (l : List α) :
    (∀ a ∈ l.eraseP p, ¬ p a) ↔ l.countP p ≤ 1 := by
  induction l with
  | nil => simp
  | cons a l ih =>
      by_cases first : p a
      · rw [List.eraseP_cons_of_pos first, List.countP_cons_of_pos first]
        have none : l.countP p + 1 ≤ 1 ↔ l.countP p = 0 := by omega
        rw [none, List.countP_eq_zero]
      · rw [List.eraseP_cons_of_neg first, List.countP_cons_of_neg first, ← ih,
          List.forall_mem_cons]
        exact and_iff_right first

/-- The exit of a client leaves no entry behind when the guard is met, and only
then. -/
theorem HistoryOfUsers.clientVexit_iff (ofUsers : ircd.HistoryOfUsers)
    (linked : ircd.Linked) {cptr : Client} (member : cptr ∈ ircd.clients)
    (notMe : cptr.id ≠ ircd.clientMe) :
    (ircd.clientVexit cptr.id).HistoryOfUsers ↔
      if cptr.IsUser then
        ∀ bucket, (ircd.clientHistory bucket).countP
          (fun hptr => hptr.client = cptr.id) ≤ 1
      else
        ∀ bucket, ∀ hptr ∈ ircd.clientHistory bucket,
          ¬ ircd.topology.Below cptr.id hptr.client := by
  have found := linked.client?_of_mem member
  obtain ⟨listsn, history, -, exited⟩ := clientVexit_pruned linked found notMe
  have stays : ∀ id, (ircd.clientVexit cptr.id).HasUser id ↔
      ircd.HasUser id ∧ id ≠ cptr.id ∧ ¬ ircd.topology.Below cptr.id id := by
    intro id
    have gone : ∀ other, (!(decide (other = cptr.id) ||
        ircd.topology.isBelow cptr.id other)) = true ↔
          other ≠ cptr.id ∧ ¬ ircd.topology.Below cptr.id other := by
      intro other
      rw [← Topology.isBelow_iff]
      simp
    rw [HasUser, exited]
    constructor
    · rintro ⟨acptr, isClient, rfl, isUser⟩
      obtain ⟨isClient, kept⟩ := List.mem_filter.mp isClient
      exact ⟨⟨acptr, isClient, rfl, isUser⟩, (gone _).mp kept⟩
    · rintro ⟨⟨acptr, isClient, rfl, isUser⟩, kept⟩
      exact ⟨acptr, List.mem_filter.mpr ⟨isClient, (gone _).mpr kept⟩, rfl, isUser⟩
  simp only [HistoryOfUsers, clientHistory_clientVexit found, stays]
  by_cases isUser : cptr.IsUser
  · rw [if_pos isUser, if_pos isUser]
    refine forall_congr' fun bucket => ?_
    rw [← forall_eraseP_iff]
    refine forall_congr' fun hptr => forall_congr' fun isEntry => ?_
    have isUser' := ofUsers bucket hptr (List.mem_of_mem_eraseP isEntry)
    rw [decide_eq_true_eq]
    exact ⟨fun all => all.2.1, fun notId => ⟨isUser', notId,
      linked.not_below_user member isUser _⟩⟩
  · rw [if_neg isUser, if_neg isUser]
    refine forall_congr' fun bucket => forall_congr' fun hptr =>
      forall_congr' fun isEntry => ?_
    have isUser' := ofUsers bucket hptr isEntry
    constructor
    · exact fun all => all.2.2
    · refine fun notBelow => ⟨isUser', ?_, notBelow⟩
      intro isId
      obtain ⟨acptr, isClient, same, acptrUser⟩ := isUser'
      have samePlace := linked.network.eq_of_id_eq (place_mem isClient)
        (place_mem member) (same.trans isId)
      exact isUser ((congrArg Place.isUser samePlace).symm.trans acptrUser)

/-! ## Every event -/

theorem HistoryOfUsers.of_grows (ofUsers : ircd.HistoryOfUsers)
    (history : ircd.HistoryGrows next)
    (kept : ∀ id, ircd.HasUser id → next.HasUser id) : next.HistoryOfUsers := by
  intro bucket hptr member
  rcases history bucket hptr member with ⟨bucket', old⟩ | isUser
  · exact kept _ (ofUsers bucket' hptr old)
  · exact isUser

/-- An event lets the history grow and keeps all users, or makes a client
leave. -/
inductive HistoryEffect (ircd : Ircd) (event : Event) (next : Ircd) : Prop where
  | grows (history : ircd.HistoryGrows next)
      (kept : ircd.exitOf event = none ∨ ∀ id, ircd.HasUser id → next.HasUser id)
  | exit {cptr : Client} (isExit : ircd.exitOf event = some cptr.id)
      (member : cptr ∈ ircd.clients) (notMe : cptr.id ≠ ircd.clientMe)
      (same : next = ircd.clientVexit cptr.id)

theorem HistoryEffect.of_eq {event : Event}
    (same : next.clientHistory = ircd.clientHistory)
    (kept : ircd.exitOf event = none ∨ ∀ id, ircd.HasUser id → next.HasUser id) :
    HistoryEffect ircd event next :=
  .grows (.of_eq same) kept

theorem OnlyChannels.historyEffect {event : Event}
    (only : ircd.OnlyChannels next) : HistoryEffect ircd event next := by
  obtain ⟨channels, channelId, rfl⟩ := only
  exact .of_eq rfl (.inr fun _ => id)

theorem Linked.historyEffect_lclientVexit (linked : ircd.Linked) {event : Event}
    {l : Nat} (notMe : l ≠ ircd.lclientMe)
    (isExit : ∀ lcptr id, ircd.lclient? l = some lcptr →
      lcptr.client = some id → ircd.exitOf event = some id) :
    HistoryEffect ircd event (ircd.lclientVexit l) := by
  cases found : ircd.lclient? l with
  | none =>
      simp only [lclientVexit, found]
      exact .of_eq rfl (.inr fun _ => id)
  | some lcptr =>
      cases isClient : lcptr.client with
      | none =>
          simp only [lclientVexit, found, isClient]
          exact .of_eq rfl (.inr fun _ => id)
      | some id =>
          obtain ⟨cptr, shown, -, -, cptrNotMe, same⟩ :=
            linked.lclientVexit_eq found isClient notMe
          obtain rfl := id_of_client? shown
          exact .exit (isExit lcptr _ found isClient) (mem_of_client? shown)
            cptrNotMe same

theorem Linked.historyEffect (linked : ircd.Linked) (table : ChanmodeTable)
    {event : Event} (stepped : ircd.step table event = some next) :
    HistoryEffect ircd event next := by
  cases event with
  | tick systime =>
      cases stepped
      exact .of_eq rfl (.inl rfl)
  | accept capUid =>
      cases stepped
      exact .of_eq rfl (.inl rfl)
  | mrNick l nick hooks =>
      cases stepped
      rcases ircd.fromUnknown_cases l _ with same | ⟨lcptr, -, -, same⟩ <;> rw [same]
      · exact .of_eq rfl (.inl rfl)
      · exact .of_eq (clientHistory_mrNick l nick hooks) (.inl rfl)
  | mrUser l user uid hooks =>
      cases stepped
      rcases ircd.fromUnknown_cases l _ with same | ⟨lcptr, -, -, same⟩ <;> rw [same]
      · exact .of_eq rfl (.inl rfl)
      · exact .of_eq (clientHistory_mrUser l user uid hooks) (.inl rfl)
  | cookieDone l hooks =>
      cases stepped
      exact .of_eq (clientHistory_cookieDone l hooks) (.inl rfl)
  | authDone l hooks =>
      cases stepped
      exact .of_eq (clientHistory_authDone l hooks) (.inl rfl)
  | mNick l args =>
      cases stepped
      rcases ircd.fromUser_cases l _ with ⟨-, same⟩ | ⟨lcptr, cptr, -, same⟩ <;>
        rw [same]
      · exact .of_eq rfl (.inl rfl)
      · exact .grows (historyGrows_mNick ircd lcptr.id cptr args) (.inl rfl)
  | msNick l pfx args =>
      rcases fromServer_cases stepped with ⟨-, rfl⟩ | ⟨lcptr, cptr, -, handled⟩
      · exact .of_eq rfl (.inl rfl)
      · cases handled
        exact .grows (historyGrows_msNick ircd lcptr.id cptr args) (.inl rfl)
  | msNuser l pfx args randomNick =>
      rcases fromServer_cases stepped with ⟨-, rfl⟩ | ⟨lcptr, cptr, -, handled⟩
      · exact .of_eq rfl (.inl rfl)
      · cases handled
        exact .of_eq (clientHistory_msNuser lcptr.id cptr args randomNick) (.inl rfl)
  | msNbounce l pfx args =>
      rcases fromServer_cases stepped with ⟨-, rfl⟩ | ⟨lcptr, cptr, -, handled⟩
      · exact .of_eq rfl (.inl rfl)
      · cases handled
        exact .grows (historyGrows_msNbounce ircd lcptr cptr args) (.inl rfl)
  | exit id =>
      simp only [Ircd.step] at stepped
      split at stepped
      · rename_i cptr found
        cases stepped
        obtain rfl := id_of_client? found
        split_ifs with isUser
        · have member := mem_of_client? found
          exact .exit rfl member (linked.user_ne_me member isUser) rfl
        · exact .of_eq rfl (.inr fun _ => id)
      · cases stepped
        exact .of_eq rfl (.inr fun _ shown => shown)
  | linkLoss l =>
      cases stepped
      split_ifs with isMe
      · exact .of_eq rfl (.inr fun _ => id)
      · refine linked.historyEffect_lclientVexit isMe fun lcptr id isLcptr isClient => ?_
        simp [exitOf, isLcptr, isClient]
  | serverLogin l name capUid =>
      cases stepped
      rcases ircd.fromUnknown_cases l _ with same | ⟨lcptr, -, -, same⟩ <;> rw [same]
      · exact .of_eq rfl (.inl rfl)
      · exact .of_eq (clientHistory_serverLogin lcptr name capUid) (.inl rfl)
  | msNserver l pfx uplink name =>
      rcases fromServer_cases stepped with ⟨-, rfl⟩ | ⟨lcptr, cptr, reached, handled⟩
      · exact .of_eq rfl (.inr fun _ => id)
      · obtain ⟨found, ⟨-, notMe⟩, -⟩ := serverLine_eq_some reached
        unfold msNserver at handled
        split_ifs at handled with known
        · cases handled
          refine linked.historyEffect_lclientVexit notMe fun other id isLcptr isClient => ?_
          obtain rfl := id_of_lclient? found
          obtain rfl := Option.some.inj (found.symm.trans isLcptr)
          simp [exitOf, reached, known, isClient]
        · obtain ⟨sptr, -, rfl⟩ := Option.map_eq_some_iff.mp handled
          refine .of_eq (clientHistory_clientNewRemote _ _ _ _ _) (.inl ?_)
          simp only [not_not] at known
          simp [exitOf, reached, known]
  | moSquit name =>
      cases stepped
      unfold moSquit
      split
      · exact .of_eq rfl (.inr fun _ => id)
      · rename_i asptr found
        split_ifs with squits
        · refine .exit ?_ (mem_of_serverFindName found) squits.2 rfl
          simp [exitOf, found, squits]
        · exact .of_eq rfl (.inr fun _ => id)
  | msNquit l pfx name =>
      rcases fromServer_cases stepped with ⟨-, rfl⟩ | ⟨lcptr, cptr, reached, handled⟩
      · exact .of_eq rfl (.inr fun _ => id)
      · cases handled
        unfold msNquit
        split
        · exact .of_eq rfl (.inr fun _ => id)
        · rename_i sptr found
          split_ifs with isMe
          · exact .of_eq rfl (.inr fun _ => id)
          · refine .exit ?_ (mem_of_serverFindName found) isMe rfl
            simp [exitOf, reached, found, isMe]
  | mJoin l names hooks =>
      cases stepped
      rcases ircd.fromUser_cases l _ with ⟨-, same⟩ | ⟨lcptr, cptr, -, same⟩ <;>
        rw [same]
      · exact .of_eq rfl (.inl rfl)
      · exact (OnlyChannels.mJoinLoop ircd cptr.id _).historyEffect
  | msNjoin l pfx name tsArg members =>
      rcases fromServer_cases stepped with ⟨-, rfl⟩ | ⟨lcptr, cptr, -, handled⟩
      · exact .of_eq rfl (.inl rfl)
      · cases handled
        exact (OnlyChannels.msNjoin ircd table lcptr cptr name tsArg
          members).historyEffect
  | mPart l name =>
      cases stepped
      rcases ircd.fromUser_cases l _ with ⟨-, same⟩ | ⟨lcptr, cptr, -, same⟩ <;>
        rw [same]
      · exact .of_eq rfl (.inl rfl)
      · exact (OnlyChannels.mPart ircd cptr name).historyEffect
  | msPart l pfx name =>
      rcases fromServer_cases stepped with ⟨-, rfl⟩ | ⟨lcptr, cptr, -, handled⟩
      · exact .of_eq rfl (.inl rfl)
      · cases handled
        exact (OnlyChannels.msPart ircd cptr name).historyEffect
  | mKick l name targets halfop =>
      cases stepped
      rcases ircd.fromUser_cases l _ with ⟨-, same⟩ | ⟨lcptr, cptr, -, same⟩ <;>
        rw [same]
      · exact .of_eq rfl (.inl rfl)
      · exact (OnlyChannels.mKick ircd lcptr cptr name targets halfop).historyEffect
  | msKick l pfx name targets halfop =>
      rcases fromServer_cases stepped with ⟨-, rfl⟩ | ⟨lcptr, cptr, -, handled⟩
      · exact .of_eq rfl (.inl rfl)
      · cases handled
        exact (OnlyChannels.mKick ircd lcptr cptr name targets halfop).historyEffect
  | changeFlag id what letter =>
      cases stepped
      exact .of_eq rfl (.inl rfl)

/-- A guarded event keeps the entries to registered users. -/
theorem HistoryOfUsers.step (ofUsers : ircd.HistoryOfUsers)
    (linked : ircd.Linked) (table : ChanmodeTable) {event : Event}
    (guard : ircd.HistoryGuard event)
    (stepped : ircd.step table event = some next) : next.HistoryOfUsers := by
  have effect := linked.effect table (ircd.originsAre_true event) stepped
  cases linked.historyEffect table stepped with
  | exit isExit member notMe same =>
      subst same
      exact (ofUsers.clientVexit_iff linked member notMe).mpr
        (guard _ member isExit)
  | grows history kept =>
      refine ofUsers.of_grows history ?_
      rcases kept with notExit | kept
      · cases effect with
        | grows grows =>
            intro id isUser
            obtain ⟨place, isPlace, isId⟩ := hasUser_iff.mp isUser
            exact hasUser_iff.mpr ⟨place, grows.growth.places_subset isPlace, isId⟩
        | exit isExit => rw [notExit] at isExit; cases isExit
        | channels changes only =>
            obtain ⟨channels, channelId, rfl⟩ := only
            exact fun _ => id
      · exact kept

theorem historyOfUsers_boot (name : CString) (systime : Nat) :
    (boot name systime).HistoryOfUsers := by
  intro bucket hptr member
  exact absurd member List.not_mem_nil

end Ircd

end Chaosircd
