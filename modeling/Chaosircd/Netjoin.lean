import Chaosircd.ChanmodeTable
import Chaosircd.ChannelTable
import Chaosircd.Tokenize

/-!
# Joins from other servers

`NJOIN` announces members of a channel together with the time stamp of the
channel.  The older time stamp wins: a server that has a newer one drops the
privileges, modes and masks it has for the channel, a server that has an older
one adds the members without the privileges that are claimed for them.
-/

namespace Chaosircd

namespace Channel

/-- `chanuser_drop`. -/
def chanuserDrop (chptr : Channel) : Channel :=
  { chptr with
    chanusers := chptr.chanusers.map fun cuptr => { cuptr with flags := ∅ } }

/-- `chanmode_drop`. -/
def chanmodeDrop (table : ChanmodeTable) (chptr : Channel) : Channel :=
  { chptr with
    modes := ∅
    modelists := fun letter =>
      if (table.ofType .list letter).isSome then [] else chptr.modelists letter }

/-- What `ms_njoin` does to a channel when the line has an older time stamp. -/
def dropTs (table : ChanmodeTable) (chptr : Channel) (ts : Nat) : Channel :=
  { (({ chptr with ts := ts } : Channel).chanuserDrop.chanmodeDrop table) with
    topic := [] }

end Channel

namespace Ircd

/-- How `chanuser_parse` finds a member. -/
def njoinTarget (ircd : Ircd) (lcptr : Lclient) (usr : CString) :
    Option Client :=
  if lcptr.capUid then ircd.clientFindUid usr else ircd.clientFindNick usr

/-- One token of `chanuser_parse`: the prefix characters are followed by the
member, who must be a remote user that is not on the channel yet. -/
def chanuserParseOne (ircd : Ircd) (table : ChanmodeTable) (lcptr : Lclient)
    (chptr : Channel) (pfx : Bool) (uv : CString) : Option Chanuser :=
  let usr := uv.dropWhile fun c => !charsIsnickchar c && !charsIsuidchar c
  let flags := if pfx ∧ usr ≠ uv then table.chanmodePrefixParse uv else ∅
  match ircd.njoinTarget lcptr usr with
  | none => none
  | some acptr =>
      if acptr.isLocal ∨ chptr.IsMember acptr.id then none
      else some ⟨acptr.id, flags⟩

/-- `chanuser_parse`, with `CHANUSER_PER_LINE`. -/
def chanuserParse (ircd : Ircd) (table : ChanmodeTable) (lcptr : Lclient)
    (chptr : Channel) (args : CString) (pfx : Bool) : List Chanuser :=
  (strTokenize 32 args).filterMap
    (ircd.chanuserParseOne table lcptr chptr pfx)

/-- `ms_njoin`. -/
def msNjoin (ircd : Ircd) (table : ChanmodeTable) (lcptr : Lclient)
    (cptr : Client) (name tsArg members : CString) : Ircd :=
  if cptr.IsServer ∧ charsValidChan name then
    let ts := strToul tsArg
    match ircd.channelFindName name with
    | none =>
        let chptr := { ircd.newChannel name with ts := ts }
        let chanusers := ircd.chanuserParse table lcptr chptr members true
        ircd.channelNew { chptr with chanusers := chanusers }
    | some chptr =>
        let merged :=
          if timeT ts < timeT chptr.ts then chptr.dropTs table ts else chptr
        let dropremote := timeT merged.ts < timeT ts
        let chanusers :=
          ircd.chanuserParse table lcptr merged members (!dropremote)
        ircd.updateChannel chptr.id fun _ =>
          { merged with chanusers := merged.chanusers ++ chanusers }
  else ircd

theorem OnlyChannels.msNjoin (ircd : Ircd) (table : ChanmodeTable)
    (lcptr : Lclient) (cptr : Client) (name tsArg members : CString) :
    ircd.OnlyChannels (ircd.msNjoin table lcptr cptr name tsArg members) := by
  unfold Ircd.msNjoin
  split_ifs
  · dsimp only
    split <;> exact ⟨_, _, rfl⟩
  · exact refl ircd

end Ircd

end Chaosircd
