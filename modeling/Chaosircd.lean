import Chaosircd.BanCoverage
import Chaosircd.BanDatabase
import Chaosircd.BanFilter
import Chaosircd.BanList
import Chaosircd.BanNetwork
import Chaosircd.ByteQueue
import Chaosircd.ByteQueueChunks
import Chaosircd.ByteQueueFifo
import Chaosircd.ByteQueueReads
import Chaosircd.ByteQueueWrites
import Chaosircd.CString
import Chaosircd.Calendar
import Chaosircd.ChanmodeParse
import Chaosircd.ChanmodeTable
import Chaosircd.ChannelLifetime
import Chaosircd.ChannelNames
import Chaosircd.ChannelTable
import Chaosircd.Chars
import Chaosircd.ChunkedBodies
import Chaosircd.ClientTable
import Chaosircd.ConnectBlock
import Chaosircd.ConnectionClass
import Chaosircd.Daemon
import Chaosircd.DateText
import Chaosircd.DenyMasks
import Chaosircd.Dlink
import Chaosircd.DlinkLists
import Chaosircd.DlinkOps
import Chaosircd.DlinkRefinement
import Chaosircd.DlinkSegments
import Chaosircd.DnsDotted
import Chaosircd.DnsHostile
import Chaosircd.DnsNames
import Chaosircd.DnsReplies
import Chaosircd.DnsText
import Chaosircd.DynamicHeap
import Chaosircd.DynamicHeapChain
import Chaosircd.DynamicHeapRuns
import Chaosircd.ExitComment
import Chaosircd.Fifo
import Chaosircd.Forest
import Chaosircd.ForestWalk
import Chaosircd.GmTime
import Chaosircd.HashedLookups
import Chaosircd.HtmlEntities
import Chaosircd.HtmlTags
import Chaosircd.HttpForms
import Chaosircd.HttpResponses
import Chaosircd.IdentReplies
import Chaosircd.IniFile
import Chaosircd.IniLines
import Chaosircd.IniPersistence
import Chaosircd.IniRoundTrip
import Chaosircd.JoinHooks
import Chaosircd.JoinPoll
import Chaosircd.JoinVerdict
import Chaosircd.KeyedList
import Chaosircd.KickAuthority
import Chaosircd.LineParse
import Chaosircd.Loops
import Chaosircd.Machine
import Chaosircd.MaskCoverage
import Chaosircd.MaskEntries
import Chaosircd.MaskGroups
import Chaosircd.MaskList
import Chaosircd.MaskNormal
import Chaosircd.MaskRemoval
import Chaosircd.MatchBudget
import Chaosircd.MatchReads
import Chaosircd.MembershipLists
import Chaosircd.MembershipRuns
import Chaosircd.Memberships
import Chaosircd.ModeAnnouncements
import Chaosircd.ModeBounce
import Chaosircd.ModeChange
import Chaosircd.ModeLines
import Chaosircd.ModePairing
import Chaosircd.ModePartition
import Chaosircd.Multicast
import Chaosircd.NetAddress
import Chaosircd.Netjoin
import Chaosircd.Network
import Chaosircd.NetworkEffect
import Chaosircd.NetworkPrefix
import Chaosircd.NetworkStep
import Chaosircd.NickBurst
import Chaosircd.NickCollision
import Chaosircd.NickHandlers
import Chaosircd.NickHistory
import Chaosircd.NickMerge
import Chaosircd.NickRelay
import Chaosircd.NickRetry
import Chaosircd.NickRotation
import Chaosircd.NickTable
import Chaosircd.NickUniqueness
import Chaosircd.NjoinLines
import Chaosircd.NmodeInfos
import Chaosircd.NmodeLines
import Chaosircd.NmodeRuns
import Chaosircd.NmodeTimes
import Chaosircd.NumeralBases
import Chaosircd.Numerals
import Chaosircd.PacketFilter
import Chaosircd.PollTable
import Chaosircd.PollTableEntries
import Chaosircd.PollTableRuns
import Chaosircd.PrefixInverse
import Chaosircd.PrintConformance
import Chaosircd.PrintFormat
import Chaosircd.Regions
import Chaosircd.Registration
import Chaosircd.RegistrationGate
import Chaosircd.SauthLines
import Chaosircd.Servauth
import Chaosircd.ServauthCache
import Chaosircd.ServauthCacheRuns
import Chaosircd.ServauthQueries
import Chaosircd.ServauthRuns
import Chaosircd.ServauthSlots
import Chaosircd.ServerBurst
import Chaosircd.ServerCoherence
import Chaosircd.ServerRebuild
import Chaosircd.ServerTree
import Chaosircd.SocketFilter
import Chaosircd.SpoofEntries
import Chaosircd.SqlText
import Chaosircd.StampWalk
import Chaosircd.StaticHeap
import Chaosircd.StaticHeapInvariant
import Chaosircd.StaticHeapRuns
import Chaosircd.StrMatch
import Chaosircd.TimeFormat
import Chaosircd.TimerDispatch
import Chaosircd.TimerList
import Chaosircd.TimerRun
import Chaosircd.Tokenize
import Chaosircd.TokenizeInPlace
import Chaosircd.TopicBurst
import Chaosircd.Topology
import Chaosircd.TransitionSystem
import Chaosircd.UserdbFields
import Chaosircd.UserdbQueries
import Chaosircd.UsermodeFold
import Chaosircd.UsermodeLists
import Chaosircd.UsermodeRelay
import Chaosircd.UsermodeRelayWeight
import Chaosircd.Usermodes
import Chaosircd.Wildcards
