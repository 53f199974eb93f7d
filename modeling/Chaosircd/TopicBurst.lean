import Chaosircd.Machine

/-!
# Topics of linking servers

When two servers link, each announces the topics of its channels with `NTOPIC`.
The handler compares time stamps, lengths and texts to decide which of two topics
stays, but it does so only for a channel without a topic: a channel that has one
drops the line whatever it carries.  A channel without a topic is announced under
the name of the server and the time of the burst.
-/

namespace Chaosircd

/-- `IRCD_TOPICLEN`. -/
def topicLen : Nat := 384

/-- `IRCD_PREFIXLEN`. -/
def prefixLen : Nat := nickLen + 1 + 16 + 1 + hostLen

/-- The fields of a channel that a topic consists of. -/
structure Topic where
  text : CString
  info : CString
  ts : Nat
  deriving DecidableEq

namespace Channel

def topicOf (chptr : Channel) : Topic :=
  ⟨chptr.topic, chptr.topicInfo, chptr.topicTs⟩

/-- `ms_ntopic` from the point where the channel has been found. -/
def ntopic (chptr : Channel) (ts topicTs : Nat) (info topic : CString) :
    Channel :=
  if timeT chptr.ts < timeT ts ∨ chptr.topic ≠ [] then chptr
  else if chptr.ts = ts ∧ timeT topicTs < timeT chptr.topicTs then chptr
  else if chptr.ts = ts ∧ chptr.topicTs = topicTs ∧
      topic.length < chptr.topic.length then chptr
  else if chptr.ts = ts ∧ chptr.topicTs = topicTs ∧
      topic.length = chptr.topic.length ∧ topic = chptr.topic then chptr
  else
    { chptr with
      ts := ts
      topic := strlcpy topic (topicLen + 1)
      topicInfo := strlcpy info (prefixLen + 1)
      topicTs := topicTs }

end Channel

namespace Ircd

/-- `channel_topic`, for a sender on the host `host`. -/
def channelTopic (ircd : Ircd) (cptr : Client) (host : CString) (chptr : Nat)
    (topic : CString) : Ircd :=
  ircd.updateChannel chptr fun chptr =>
    if chptr.topic.take topicLen = topic.take topicLen then chptr
    else
      { chptr with
        topic := strlcpy topic (topicLen + 1)
        topicInfo := match cptr.kind with
          | .user user =>
              strlcpy (cptr.name ++ '!' :: user.name ++ '@' :: host)
                (prefixLen + 1)
          | .server _ => strlcpy cptr.name (prefixLen + 1)
        topicTs := ircd.systime }

/-- `ms_ntopic`.  The buffer for the topic is one byte smaller than the field it
is copied to. -/
def msNtopic (ircd : Ircd) (args : List CString) : Ircd :=
  match args with
  | name :: tsArg :: info :: topicTsArg :: rest =>
      let topic := match rest with
        | [text] => strlcpy text topicLen
        | _ => []
      match ircd.channelFindName name with
      | none => ircd
      | some chptr =>
          ircd.updateChannel chptr.id fun _ =>
            chptr.ntopic (strToul tsArg) (strToul topicTsArg) info topic
  | _ => ircd

/-- The topic that `channel_burst` announces. -/
def announced (ircd : Ircd) (chptr : Channel) : Topic :=
  if chptr.topic ≠ [] then chptr.topicOf else ⟨[], ircd.meName, ircd.systime⟩

/-- What `channel_burst` sends about the topic.  The last argument of a line
arrives without the blanks it ends in. -/
def topicBurst (ircd : Ircd) (chptr : Channel) : Line :=
  let topic := ircd.announced chptr
  ⟨none, "NTOPIC".toList, [chptr.name, formatLu chptr.ts, topic.info,
    formatLu topic.ts, restOfLine topic.text]⟩

/-- A line from a server link goes to `ms_ntopic`. -/
def receiveNtopic (ircd : Ircd) (l : Nat) (line : Line) : Ircd :=
  match ircd.serverLine l line.pfx with
  | none => ircd
  | some _ => ircd.msNtopic line.args

end Ircd

/-- The text of a line with a last argument is split into these arguments. -/
theorem strTokenize_last {ws : List CString} (plain : ∀ w ∈ ws, PlainWord w)
    (text : CString) {maxtok : Nat} (room : ws.length < maxtok) :
    strTokenize maxtok
        ((ws.map fun w => w ++ [' ']).flatten ++ ':' :: text) =
      ws ++ [restOfLine text] := by
  induction ws generalizing maxtok with
  | nil =>
      obtain ⟨maxtok, rfl⟩ := Nat.exists_eq_add_of_le' (Nat.succ_le_of_lt room)
      exact strTokenize_colon maxtok text
  | cons w ws ih =>
      obtain ⟨maxtok, rfl⟩ : ∃ n, maxtok = n + 2 :=
        Nat.exists_eq_add_of_le' (by simp at room; omega)
      have rest := ih (fun v member => plain v (List.mem_cons_of_mem _ member))
        (show ws.length < maxtok + 1 by simpa using room)
      simp only [List.map_cons, List.flatten_cons, List.append_assoc,
        List.cons_append, List.nil_append]
      rw [strTokenize_plainWord_append (plain w List.mem_cons_self), rest]

/-! ## What one line does -/

/-- What arrives of a topic. -/
def Topic.received (topic : Topic) : Topic :=
  ⟨strlcpy (restOfLine topic.text) topicLen, strlcpy topic.info (prefixLen + 1),
    topic.ts % 2 ^ 32⟩

/-- A channel takes the topic of a line that carries the channel's own time stamp:
it has no topic, the time stamp survives being sent, and the topic of the line is
younger, or of the same age and not empty. -/
def Channel.Takes (chptr : Channel) (topic : Topic) : Prop :=
  chptr.topic = [] ∧ timeT (chptr.ts % 2 ^ 32) ≤ timeT chptr.ts ∧
    (chptr.ts < 2 ^ 32 → timeT chptr.topicTs ≤ timeT topic.ts ∧
      (chptr.topicTs = topic.ts → topic.text ≠ []))

instance (chptr : Channel) (topic : Topic) : Decidable (chptr.Takes topic) :=
  inferInstanceAs (Decidable (_ ∧ _ ∧ (_ → _)))

theorem strlcpy_topicLen (topic : CString) :
    strlcpy (strlcpy topic topicLen) (topicLen + 1) = strlcpy topic topicLen :=
  strlcpy_eq_self ((strlcpy_length_lt topic (by decide)).trans (by decide))

theorem Channel.topicOf_ntopic (chptr : Channel) (topic : Topic) :
    (chptr.ntopic (chptr.ts % 2 ^ 32) (topic.ts % 2 ^ 32) topic.info
        (strlcpy (restOfLine topic.text) topicLen)).topicOf =
      if chptr.Takes topic.received then topic.received else chptr.topicOf := by
  have sent : chptr.ts = chptr.ts % 2 ^ 32 ↔ chptr.ts < 2 ^ 32 :=
    ⟨fun same => same ▸ Nat.mod_lt _ (by decide),
      fun small => (Nat.mod_eq_of_lt small).symm⟩
  by_cases takes : chptr.Takes topic.received
  · obtain ⟨empty, old, younger⟩ := takes
    rw [if_pos ⟨empty, old, younger⟩, Channel.ntopic, if_neg, if_neg, if_neg,
      if_neg]
    · simp only [Channel.topicOf, strlcpy_topicLen]
      rfl
    · rintro ⟨isTs, sameAge, -, same⟩
      exact (younger (sent.mp isTs)).2 sameAge (same.trans empty)
    · rintro ⟨-, -, shorter⟩
      simp [empty] at shorter
    · rintro ⟨isTs, older⟩
      exact absurd (younger (sent.mp isTs)).1 (not_le.mpr older)
    · rintro (later | nonempty)
      · exact absurd old (not_le.mpr later)
      · exact nonempty empty
  · rw [if_neg takes, Channel.ntopic]
    split_ifs with dropped older shorter same
    · rfl
    · rfl
    · rfl
    · rfl
    · refine absurd ⟨?_, ?_, ?_⟩ takes
      · by_contra nonempty
        exact dropped (.inr nonempty)
      · exact not_lt.mp fun later => dropped (.inl later)
      · intro small
        refine ⟨not_lt.mp fun isOlder => older ⟨sent.mpr small, isOlder⟩, ?_⟩
        intro sameAge isEmpty
        have empty : chptr.topic = [] := by
          by_contra nonempty
          exact dropped (.inr nonempty)
        have received : strlcpy (restOfLine topic.text) topicLen = [] := isEmpty
        exact same ⟨sent.mpr small, sameAge, by rw [received, empty],
          by rw [received, empty]⟩

namespace Ircd

/-- The channel is found again after it has been written. -/
theorem channelFindName_updateChannel {ircd : Ircd} {name : CString}
    {chptr : Channel} (found : ircd.channelFindName name = some chptr)
    {changed : Channel} (sameName : changed.name = chptr.name) :
    (ircd.updateChannel chptr.id fun _ => changed).channelFindName name =
      some changed := by
  unfold channelFindName at found ⊢
  unfold updateChannel
  dsimp only
  have answers := List.find?_some found
  simp only [decide_eq_true_eq] at answers
  generalize ircd.channels = channels at found
  induction channels with
  | nil => cases found
  | cons other channels ih =>
      rw [List.map_cons, List.find?_cons]
      by_cases isChptr : other.id = chptr.id
      · rw [if_pos isChptr, sameName, decide_eq_true answers]
      · rw [if_neg isChptr]
        rw [List.find?_cons] at found
        cases isName : decide (IcmpEq other.name name) with
        | true =>
            rw [isName] at found
            cases found
            exact absurd rfl isChptr
        | false =>
            rw [isName] at found
            exact ih found

end Ircd

/-! ## Two servers -/

/-- Two servers on the connections `link` that share a channel. -/
structure SharedChannel where
  ircd : Bool → Ircd
  link : Bool → Nat
  name : CString
  chptr : Bool → Channel
  found : ∀ side, (ircd side).channelFindName name = some (chptr side)
  sameTs : (chptr false).ts = (chptr true).ts
  linked : ∀ side, (ircd side).serverLine (link side) none ≠ none
  namesFit : ∀ side, (ircd side).meName.length ≤ hostLen
  namesApart : (ircd false).meName ≠ (ircd true).meName

namespace SharedChannel

variable (shared : SharedChannel)

/-- A server after it has handled the `NTOPIC` line of the other one. -/
def after (side : Bool) : Ircd :=
  (shared.ircd side).receiveNtopic (shared.link side)
    ((shared.ircd !side).topicBurst (shared.chptr !side))

/-- Both servers have the same topic now, and it is one they had that is not
older than the other one. -/
def TopicsConverge : Prop :=
  ∃ newest : Topic,
    (∃ side, newest = (shared.chptr side).topicOf) ∧
    (∀ side, timeT (shared.chptr side).topicTs ≤ timeT newest.ts) ∧
    ∀ side, ∃ chptr, (shared.after side).channelFindName shared.name = some chptr ∧
      chptr.topicOf = newest

/-- What a side receives. -/
def offered (side : Bool) : Topic :=
  ((shared.ircd !side).announced (shared.chptr !side)).received

/-- Neither side takes the topic of the other one and they are the same, or one
side takes the topic of the other one, which is announced as it is and is not
older. -/
def TopicsSettled : Prop :=
  ((∀ side, ¬ (shared.chptr side).Takes (shared.offered side)) ∧
    (shared.chptr false).topicOf = (shared.chptr true).topicOf) ∨
  ∃ side, (shared.chptr side).Takes (shared.offered side) ∧
    ¬ (shared.chptr !side).Takes (shared.offered !side) ∧
    shared.offered side = (shared.chptr !side).topicOf ∧
    timeT (shared.chptr side).topicTs ≤ timeT (shared.chptr !side).topicTs

theorem sameTs' (side : Bool) :
    (shared.chptr !side).ts = (shared.chptr side).ts := by
  cases side
  · exact shared.sameTs.symm
  · exact shared.sameTs

/-- The name of the channel on one side finds it on the other one. -/
theorem found_flip (side : Bool) :
    (shared.ircd side).channelFindName (shared.chptr !side).name =
      some (shared.chptr side) := by
  have answers := List.find?_some (shared.found !side)
  rw [decide_eq_true_eq] at answers
  rw [← shared.found side, Ircd.channelFindName, Ircd.channelFindName]
  congr 1
  funext chptr
  exact decide_eq_decide.mpr
    ⟨fun same => same.trans answers, fun same => same.trans answers.symm⟩

/-- One line is handled. -/
theorem after_spec (side : Bool) :
    ∃ chptr, (shared.after side).channelFindName shared.name = some chptr ∧
      chptr.topicOf =
        if (shared.chptr side).Takes (shared.offered side) then
          shared.offered side
        else (shared.chptr side).topicOf := by
  obtain ⟨source, isSource⟩ := Option.ne_none_iff_exists'.mp (shared.linked side)
  have fits : strlcpy (restOfLine
      ((shared.ircd !side).announced (shared.chptr !side)).text) topicLen =
        (shared.offered side).text := rfl
  refine ⟨_, ?_, (shared.chptr side).topicOf_ntopic
    ((shared.ircd !side).announced (shared.chptr !side))⟩
  rw [after, Ircd.receiveNtopic]
  simp only [Ircd.topicBurst, isSource, Ircd.msNtopic, shared.found_flip,
    strToul_formatLu, shared.sameTs']
  apply Ircd.channelFindName_updateChannel (shared.found side)
  rw [Channel.ntopic]
  split_ifs <;> rfl

/-- Two servers do not both take a topic and agree on it. -/
theorem offered_ne (empty : ∀ side, (shared.chptr side).topic = []) :
    shared.offered false ≠ shared.offered true := by
  intro same
  have fits : ∀ side, strlcpy (shared.ircd side).meName (prefixLen + 1) =
      (shared.ircd side).meName := fun side =>
    strlcpy_eq_self (Nat.lt_of_le_of_lt (shared.namesFit side) (by decide))
  have infos := congrArg Topic.info same
  simp only [offered, Ircd.announced, empty, ne_eq, not_true_eq_false, if_false,
    Topic.received, Bool.not_false, Bool.not_true, fits] at infos
  exact shared.namesApart infos.symm

/-- The topics converge when they are settled, and only then. -/
theorem topicsConverge_iff : shared.TopicsConverge ↔ shared.TopicsSettled := by
  have result : ∀ side newest,
      (∃ chptr, (shared.after side).channelFindName shared.name = some chptr ∧
        chptr.topicOf = newest) ↔
      (if (shared.chptr side).Takes (shared.offered side) then
        shared.offered side else (shared.chptr side).topicOf) = newest := by
    intro side newest
    obtain ⟨chptr, found, isTopic⟩ := shared.after_spec side
    rw [← isTopic]
    constructor
    · rintro ⟨other, found', rfl⟩
      rw [found] at found'
      cases found'
      rfl
    · exact fun same => ⟨chptr, found, same⟩
  simp only [TopicsConverge, result]
  constructor
  · rintro ⟨newest, ⟨origin, isOrigin⟩, isNewest, same⟩
    have atOrigin := same origin
    have atOther := same !origin
    by_cases takes : (shared.chptr origin).Takes (shared.offered origin) <;>
      by_cases takes' : (shared.chptr !origin).Takes (shared.offered !origin)
    · rw [if_pos takes] at atOrigin
      rw [if_pos takes'] at atOther
      have empty : ∀ side, (shared.chptr side).topic = [] := by
        intro side
        rcases Bool.eq_or_eq_not side origin with rfl | rfl
        · exact takes.1
        · exact takes'.1
      have agree := atOrigin.trans atOther.symm
      refine absurd ?_ (shared.offered_ne empty)
      cases origin
      · exact agree
      · exact agree.symm
    · -- the origin takes the topic of the other side, which is its own
      rw [if_pos takes] at atOrigin
      rw [if_neg takes'] at atOther
      refine .inr ⟨origin, takes, takes', atOrigin.trans atOther.symm, ?_⟩
      have notOlder := isNewest origin
      rw [← atOther] at notOlder
      exact notOlder
    · rw [if_neg takes] at atOrigin
      rw [if_pos takes'] at atOther
      refine .inr ⟨!origin, takes', ?_, ?_, ?_⟩
      · rwa [Bool.not_not]
      · rw [Bool.not_not, atOther, isOrigin]
      · have notOlder := isNewest !origin
        rw [isOrigin] at notOlder
        rwa [Bool.not_not]
    · rw [if_neg takes] at atOrigin
      rw [if_neg takes'] at atOther
      refine .inl ⟨?_, ?_⟩
      · intro side
        rcases Bool.eq_or_eq_not side origin with rfl | rfl
        · exact takes
        · exact takes'
      · have agree := atOrigin.trans atOther.symm
        cases origin
        · exact agree
        · exact agree.symm
  · rintro (⟨keeps, agree⟩ | ⟨side, takes, keeps, isOffered, notOlder⟩)
    · have agree' : ∀ side, (shared.chptr side).topicOf =
          (shared.chptr false).topicOf := by
        intro side
        cases side
        · rfl
        · exact agree.symm
      refine ⟨(shared.chptr false).topicOf, ⟨false, rfl⟩, ?_, ?_⟩
      · intro side
        exact le_of_eq (congrArg (fun topic => timeT topic.ts) (agree' side))
      · intro side
        rw [if_neg (keeps side)]
        exact agree' side
    · refine ⟨(shared.chptr !side).topicOf, ⟨_, rfl⟩, ?_, ?_⟩
      · intro side'
        rcases Bool.eq_or_eq_not side' side with rfl | rfl
        · exact notOlder
        · exact le_refl _
      · intro side'
        rcases Bool.eq_or_eq_not side' side with rfl | rfl
        · rw [if_pos takes]
          exact isOffered
        · rw [if_neg keeps]

/-! ## A channel with two topics -/

/-- A server on which `alice` has joined a channel when the server was started,
and has set its topic later. -/
def topicServer (name other uid : CString) (systime : Nat) (topic : CString) :
    Ircd :=
  let joined := (TransitionSystem.run (Ircd.step .shipped) (Ircd.boot name 1000)
    [.accept true, .mrUser 1 "al".toList uid .none,
      .mrNick 1 "alice".toList .none, .accept true, .serverLogin 2 other true,
      .mJoin 1 "#c".toList fun _ => ⟨false, ∅⟩, .tick systime]).getD
        (Ircd.boot name 1000)
  match joined.clientFindNick "alice".toList with
  | some cptr => joined.channelTopic cptr "h".toList 0 topic
  | none => joined

def topicServers (side : Bool) : Ircd :=
  match side with
  | false => topicServer "irc.a".toList "irc.b".toList "AAAAAAAA".toList 1100
      "tea".toList
  | true => topicServer "irc.b".toList "irc.a".toList "BBBBBBBB".toList 1200
      "milk".toList

/-- Two servers that set the topic of a channel before they were linked. -/
def twoTopics : SharedChannel where
  ircd := topicServers
  link := fun _ => 2
  name := "#c".toList
  chptr := fun side =>
    ((topicServers side).channelFindName "#c".toList).getD
      ((topicServers side).newChannel [])
  found := by intro side; cases side <;> rfl
  sameTs := by decide
  linked := by decide
  namesFit := by decide
  namesApart := by decide

/-- Each of them keeps its own topic. -/
theorem not_topicsConverge_of_twoTopics : ¬ twoTopics.TopicsConverge := by
  rintro ⟨newest, -, -, same⟩
  obtain ⟨chptr, found, isTopic⟩ := same false
  obtain ⟨chptr', found', isTopic'⟩ := same true
  have differ :
      ((twoTopics.after false).channelFindName twoTopics.name).map
          Channel.topicOf ≠
        ((twoTopics.after true).channelFindName twoTopics.name).map
          Channel.topicOf := by decide
  apply differ
  rw [found, found', Option.map_some, Option.map_some, isTopic, isTopic']

end SharedChannel

end Chaosircd
