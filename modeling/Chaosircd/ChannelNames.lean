import Chaosircd.Chars
import Chaosircd.Daemon
import Chaosircd.Tokenize
import Mathlib.Data.List.Find
import Mathlib.Logic.Function.Basic

/-!
# Names of channels

`channel_new` stores as much of a name as fits and hashes what it has stored, while
`channel_find_name` hashes and compares the name it is given.  The two agree on names
that fit, whatever the case of their letters.  `m_join` turns longer names away;
`ms_njoin` does not look at the length, and a longer name is never found again.
-/

namespace Chaosircd

namespace ChannelNames

/-- `struct channel`, as far as names go. -/
structure Channel where
  id : Nat
  name : CString
  hash : Nat
  deriving DecidableEq

/-- `CHANNEL_HASH_SIZE`. -/
def hashSize : Nat := 16

/-- `channel_list`, `channel_lists` and `channel_id`. -/
structure Channels where
  list : List Channel
  lists : Nat → List Channel
  nextId : Nat

namespace Channels

/-- No channel. -/
def empty : Channels :=
  ⟨[], fun _ => [], 0⟩

/-- The block that `channel_new` makes. -/
def newChannel (channels : Channels) (name : CString) : Channel :=
  let stored := strlcpy name (channelLen + 1)
  ⟨channels.nextId, stored, strIhash stored⟩

/-- `channel_new`. -/
def channelNew (channels : Channels) (name : CString) : Channels :=
  let chptr := channels.newChannel name
  let bucket := chptr.hash % hashSize
  { list := channels.list ++ [chptr]
    lists := Function.update channels.lists bucket (channels.lists bucket ++ [chptr])
    nextId := channels.nextId + 1 }

/-- `channel_delete`. -/
def channelDelete (channels : Channels) (chptr : Channel) : Channels :=
  let bucket := chptr.hash % hashSize
  { channels with
    list := channels.list.erase chptr
    lists := Function.update channels.lists bucket ((channels.lists bucket).erase chptr) }

/-- `channel_find_name`. -/
def channelFindName (channels : Channels) (name : CString) : Option Channel :=
  let hash := strIhash name
  (channels.lists (hash % hashSize)).find? fun chptr =>
    decide (hash = chptr.hash) && decide (IcmpEq chptr.name name)

/-- The first bytes of a channel name that `channel_is_valid` accepts. -/
def channelIsValid (name : CString) : Bool :=
  match name with
  | first :: _ => first ∈ ['#', '+', '&', '!']
  | [] => false

/-- A channel that a message made, and the name the message used for it. -/
structure Created where
  name : CString
  chptr : Channel

/-- Makes a channel unless there is one: `channel_join` and `ms_njoin` alike. -/
def findOrNew (channels : Channels) (name : CString) : Channels × List Created :=
  match channels.channelFindName name with
  | some _ => (channels, [])
  | none => (channels.channelNew name, [⟨name, channels.newChannel name⟩])

/-- The loop of `m_join`; with each name comes whether the user is on
`IRCD_MAXCHANNELS` channels when its turn comes. -/
def mJoinLoop (channels : Channels) : List (CString × Bool) → Channels × List Created
  | [] => (channels, [])
  | (name, full) :: chanv =>
    if !charsValidChan name ∨ channelLen < name.length then (channels, [])
    else if !channelIsValid name then (channels, [])
    else if full then (channels, [])
    else
      let joined := channels.findOrNew name
      let rest := joined.1.mJoinLoop chanv
      (rest.1, joined.2 ++ rest.2)

/-- `m_join`. -/
def mJoin (channels : Channels) (arg : CString) (full : Nat → Bool) :
    Channels × List Created :=
  channels.mJoinLoop ((strTokenizeS ',' maxChannels arg).mapIdx fun i name => (name, full i))

/-- `ms_njoin`. -/
def msNjoin (channels : Channels) (isServer : Bool) (name : CString) :
    Channels × List Created :=
  if !isServer then (channels, [])
  else if !charsValidChan name then (channels, [])
  else channels.findOrNew name

/-- The messages, and the end of a channel whose last member leaves. -/
inductive Event where
  | join (arg : CString) (full : Nat → Bool)
  | njoin (isServer : Bool) (name : CString)
  | gone (chptr : Channel)

/-- What an event does to the tables, and the channels it makes. -/
def handle (channels : Channels) : Event → Channels × List Created
  | .join arg full => channels.mJoin arg full
  | .njoin isServer name => channels.msNjoin isServer name
  | .gone chptr =>
    if chptr ∈ channels.list then (channels.channelDelete chptr, []) else (channels, [])

/-- The tables after an event. -/
def exec (channels : Channels) (event : Event) : Channels :=
  (channels.handle event).1

/-- No two channels have the same name up to case. -/
def Distinct (channels : Channels) : Prop :=
  channels.list.Pairwise fun chptr other => ¬ IcmpEq chptr.name other.name

/-- After an event no two channels have the same name, and each channel it has made is
found under the name that was used. -/
structure NamesKept (channels : Channels) (event : Event) : Prop where
  distinct : (channels.exec event).Distinct
  found : ∀ made ∈ (channels.handle event).2,
    (channels.exec event).channelFindName made.name = some made.chptr

/-- The name of an NJOIN that is accepted fits into the channel block. -/
def NameFits : Event → Prop
  | .njoin isServer name => isServer = true → charsValidChan name = true → name.length ≤ channelLen
  | _ => True

instance (event : Event) : Decidable (NameFits event) :=
  match event with
  | .njoin isServer name => inferInstanceAs (Decidable (isServer = true →
      charsValidChan name = true → name.length ≤ channelLen))
  | .join _ _ => inferInstanceAs (Decidable True)
  | .gone _ => inferInstanceAs (Decidable True)

/-! ## The index -/

/-- The buckets hold the channels by their hash, and each name is stored whole, once and
with its hash. -/
structure Inv (channels : Channels) : Prop where
  lists : ∀ bucket, channels.lists bucket =
    channels.list.filter fun chptr => chptr.hash % hashSize = bucket
  hash : ∀ chptr ∈ channels.list, chptr.hash = strIhash chptr.name
  length : ∀ chptr ∈ channels.list, chptr.name.length ≤ channelLen
  fresh : ∀ chptr ∈ channels.list, chptr.id < channels.nextId
  distinct : channels.Distinct

variable {channels : Channels} {chptr : Channel} {name : CString}

theorem inv_empty : Inv empty :=
  ⟨fun _ => rfl, by simp [empty], by simp [empty], by simp [empty], List.Pairwise.nil⟩

/-- The index finds what a search of the whole list would. -/
theorem Inv.channelFindName_eq (inv : Inv channels) (name : CString) :
    channels.channelFindName name = channels.list.find? fun chptr => IcmpEq chptr.name name := by
  rw [channelFindName, inv.lists, List.find?_filter]
  apply List.find?_congr
  intro chptr member
  rw [inv.hash chptr member]
  by_cases same : IcmpEq chptr.name name
  · simp [same, strIhash_eq_of_icmpEq same]
  · simp [same]

/-- A name that does not fit is never found. -/
theorem Inv.find_of_long (inv : Inv channels) (long : channelLen < name.length) :
    channels.channelFindName name = none := by
  rw [inv.channelFindName_eq, List.find?_eq_none]
  intro chptr member
  rw [decide_eq_true_eq]
  intro same
  have lengths := congrArg List.length same
  rw [List.length_map, List.length_map] at lengths
  have short := inv.length chptr member
  omega

theorem newChannel_name (fits : name.length ≤ channelLen) :
    (channels.newChannel name).name = name :=
  strlcpy_eq_self (Nat.lt_succ_of_le fits)

/-- A new channel whose stored name is not there yet. -/
theorem Inv.channelNew (inv : Inv channels)
    (absent : ∀ chptr ∈ channels.list,
      ¬ IcmpEq chptr.name (channels.newChannel name).name) :
    Inv (channels.channelNew name) := by
  have positive : 0 < channelLen + 1 := Nat.succ_pos channelLen
  refine ⟨?_, ?_, ?_, ?_, ?_⟩
  · intro bucket
    rw [Channels.channelNew, List.filter_append]
    by_cases same : bucket = (channels.newChannel name).hash % hashSize
    · subst same
      simp [inv.lists]
    · have other : (channels.newChannel name).hash % hashSize ≠ bucket := Ne.symm same
      simp [Function.update_of_ne same, inv.lists, other]
  · intro chptr member
    rw [Channels.channelNew, List.mem_append, List.mem_singleton] at member
    cases member with
    | inl old => exact inv.hash chptr old
    | inr isNew => rw [isNew]; rfl
  · intro chptr member
    rw [Channels.channelNew, List.mem_append, List.mem_singleton] at member
    cases member with
    | inl old => exact inv.length chptr old
    | inr isNew =>
        rw [isNew]
        exact Nat.le_of_lt_succ (strlcpy_length_lt name positive)
  · intro chptr member
    rw [Channels.channelNew, List.mem_append, List.mem_singleton] at member
    cases member with
    | inl old => exact Nat.lt_succ_of_lt (inv.fresh chptr old)
    | inr isNew =>
        rw [isNew]
        exact Nat.lt_succ_self _
  · rw [Distinct, Channels.channelNew, List.pairwise_append]
    refine ⟨inv.distinct, List.pairwise_singleton _ _, ?_⟩
    intro chptr member other isNew
    rw [List.mem_singleton.mp isNew]
    exact absent chptr member

/-- What has been found stays found when a channel is added. -/
theorem Inv.find_channelNew (inv : Inv channels) (inv' : Inv (channels.channelNew name))
    {wanted : CString} (found : channels.channelFindName wanted = some chptr) :
    (channels.channelNew name).channelFindName wanted = some chptr := by
  rw [inv.channelFindName_eq] at found
  rw [inv'.channelFindName_eq, Channels.channelNew, List.find?_append, found]
  rfl

/-! ## The messages -/

/-- What an entry point does to a good table: the table stays good, what it made is found,
and so is what was found before. -/
structure Good (channels : Channels) (result : Channels × List Created) : Prop where
  inv : Inv result.1
  found : ∀ made ∈ result.2, result.1.channelFindName made.name = some made.chptr
  kept : ∀ name chptr, channels.channelFindName name = some chptr →
    result.1.channelFindName name = some chptr

theorem Good.refl (inv : Inv channels) : Good channels (channels, []) :=
  ⟨inv, by simp, fun _ _ => id⟩

theorem Good.findOrNew (inv : Inv channels) (fits : name.length ≤ channelLen) :
    Good channels (channels.findOrNew name) := by
  rw [Channels.findOrNew]
  cases found : channels.channelFindName name with
  | some chptr => exact Good.refl inv
  | none =>
      have absent := found
      rw [inv.channelFindName_eq, List.find?_eq_none] at absent
      have inv' : Inv (channels.channelNew name) := by
        apply inv.channelNew
        rw [newChannel_name fits]
        simpa using absent
      refine ⟨inv', ?_, fun wanted chptr => inv.find_channelNew inv'⟩
      intro made member
      rw [List.mem_singleton.mp member, inv'.channelFindName_eq, Channels.channelNew,
        List.find?_append]
      rw [inv.channelFindName_eq] at found
      rw [found, Option.none_or, List.find?_singleton, newChannel_name fits]
      exact if_pos (decide_eq_true (IcmpEq.refl name))

theorem Good.mJoinLoop (inv : Inv channels) (chanv : List (CString × Bool)) :
    Good channels (channels.mJoinLoop chanv) := by
  induction chanv generalizing channels with
  | nil => exact Good.refl inv
  | cons first chanv induction =>
      obtain ⟨name, full⟩ := first
      rw [Channels.mJoinLoop]
      split
      · exact Good.refl inv
      · rename_i valid
        rw [not_or, Nat.not_lt] at valid
        split
        · exact Good.refl inv
        · split
          · exact Good.refl inv
          · have joined := Good.findOrNew inv valid.2
            have rest := induction joined.inv
            refine ⟨rest.inv, ?_, fun name chptr found =>
              rest.kept name chptr (joined.kept name chptr found)⟩
            intro made member
            cases List.mem_append.mp member with
            | inl early => exact rest.kept _ _ (joined.found made early)
            | inr late => exact rest.found made late

/-- A channel is taken out of the list and out of its bucket. -/
theorem Inv.channelDelete (inv : Inv channels) (chptr : Channel) :
    Inv (channels.channelDelete chptr) := by
  have old : ∀ other ∈ (channels.channelDelete chptr).list, other ∈ channels.list :=
    fun _ => List.mem_of_mem_erase
  refine ⟨?_, fun other member => inv.hash other (old other member),
    fun other member => inv.length other (old other member),
    fun other member => inv.fresh other (old other member),
    inv.distinct.sublist (List.erase_sublist)⟩
  intro bucket
  rw [Channels.channelDelete, ← List.erase_filter]
  by_cases same : bucket = chptr.hash % hashSize
  · subst same
    simp [inv.lists]
  · have outside : chptr ∉ channels.list.filter fun chptr => chptr.hash % hashSize = bucket := by
      rw [List.mem_filter, decide_eq_true_eq]
      exact fun member => same member.2.symm
    rw [List.erase_of_not_mem outside, ← inv.lists]
    exact Function.update_of_ne same _ _

/-- An event whose names fit; the end of a channel makes nothing. -/
theorem Inv.handle (inv : Inv channels) {event : Event} (fits : NameFits event) :
    Good channels (channels.handle event) ∨
      (Inv (channels.exec event) ∧ (channels.handle event).2 = []) := by
  cases event with
  | join arg full => exact Or.inl (Good.mJoinLoop inv _)
  | njoin isServer name =>
      left
      rw [Channels.handle, msNjoin]
      cases isServer with
      | false => exact Good.refl inv
      | true =>
          cases valid : charsValidChan name with
          | false => exact Good.refl inv
          | true => exact Good.findOrNew inv (fits rfl valid)
  | gone chptr =>
      right
      rw [exec, Channels.handle]
      split
      · exact ⟨inv.channelDelete chptr, rfl⟩
      · exact ⟨inv, rfl⟩

theorem Inv.exec (inv : Inv channels) {event : Event} (fits : NameFits event) :
    Inv (channels.exec event) := by
  cases inv.handle fits with
  | inl good => exact good.inv
  | inr gone => exact gone.1

theorem Inv.namesKept (inv : Inv channels) {event : Event} (fits : NameFits event) :
    NamesKept channels event := by
  refine ⟨(inv.exec fits).distinct, ?_⟩
  cases inv.handle fits with
  | inl good => exact good.found
  | inr gone =>
      rw [gone.2]
      simp

/-- A longer name makes a channel that is not found. -/
theorem Inv.nameFits_of_namesKept (inv : Inv channels) {event : Event}
    (kept : NamesKept channels event) : NameFits event := by
  cases event with
  | join arg full => trivial
  | gone chptr => trivial
  | njoin isServer name =>
      intro server valid
      by_contra long
      rw [Nat.not_le] at long
      have absent := inv.find_of_long long
      have made : channels.handle (.njoin isServer name) =
          (channels.channelNew name, [⟨name, channels.newChannel name⟩]) := by
        simp [Channels.handle, msNjoin, server, valid, Channels.findOrNew, absent]
      have found := kept.found ⟨name, channels.newChannel name⟩ (by simp [made])
      have answers := List.find?_some found
      have same : IcmpEq (strlcpy name (channelLen + 1)) name :=
        of_decide_eq_true (Bool.and_eq_true_iff.mp answers).2
      have lengths := congrArg List.length same
      rw [List.length_map, List.length_map] at lengths
      have short : (strlcpy name (channelLen + 1)).length < channelLen + 1 :=
        strlcpy_length_lt name (Nat.succ_pos channelLen)
      omega

/-- From a good table on. -/
theorem Inv.namesKept_iff (inv : Inv channels) (events : List Event) :
    (∀ before event rest, events = before ++ event :: rest →
      NamesKept (before.foldl Channels.exec channels) event) ↔
      ∀ event ∈ events, NameFits event := by
  induction events generalizing channels with
  | nil => simp
  | cons event events induction =>
      rw [List.forall_mem_cons]
      constructor
      · intro kept
        have fits := inv.nameFits_of_namesKept (kept [] event events rfl)
        refine ⟨fits, (induction (inv.exec fits)).mp ?_⟩
        intro before next rest split
        exact kept (event :: before) next rest (congrArg (event :: ·) split)
      · rintro ⟨fits, others⟩ before next rest split
        cases before with
        | nil =>
            obtain ⟨rfl, rfl⟩ := List.cons.inj split
            exact inv.namesKept fits
        | cons first before =>
            obtain ⟨rfl, tail⟩ := List.cons.inj split
            exact (induction (inv.exec fits)).mpr others before next rest tail

/-- Every run of JOINs and NJOINs from an empty table on keeps names distinct, and each
channel is found under the name that was used for it, if and only if the name of every
NJOIN that is accepted fits. -/
theorem names_kept_iff (events : List Event) :
    (∀ before event rest, events = before ++ event :: rest →
      NamesKept (before.foldl Channels.exec empty) event) ↔
      ∀ event ∈ events, NameFits event :=
  inv_empty.namesKept_iff events

/-- A name one byte too long. -/
def longName : CString :=
  '#' :: List.replicate 128 'a'

/-- Two NJOINs for it make two channels of one name, and neither is found. -/
theorem long_name_doubled :
    ¬ ∀ before event rest,
      [Event.njoin true longName, Event.njoin true longName] = before ++ event :: rest →
        NamesKept (before.foldl Channels.exec empty) event := by
  intro kept
  have distinct := (kept [.njoin true longName] (.njoin true longName) [] rfl).distinct
  revert distinct
  rw [Distinct]
  decide +kernel

end Channels

end ChannelNames

end Chaosircd
