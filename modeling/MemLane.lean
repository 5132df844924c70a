import MemLane.Run
import MemLane.ProbeTable
import MemLane.Decimal
import MemLane.Slot
import MemLane.Text
import MemLane.Arena
import MemLane.Ttl
import MemLane.SipHash
import MemLane.HashMap
import MemLane.Client
import MemLane.ProbeOutcome
import MemLane.TableInvariant
import MemLane.StoredEntries
import MemLane.MapRefinement
import MemLane.ReadHistory
import MemLane.Occupancy
import MemLane.InterleavedOps
import MemLane.SetRace
import MemLane.CounterRace
import MemLane.Resp
import MemLane.HeaderLines
import MemLane.AcceptedFrames
import MemLane.RespRoundTrip
import MemLane.Substitution
import MemLane.UnicodeText
import MemLane.Dispatch
import MemLane.ReplyFraming
import MemLane.SlotAccess
import MemLane.ValueProvenance
import MemLane.Framing
import MemLane.ParserPrefix
import MemLane.Server
import MemLane.StreamFraming
import MemLane.ProtocolErrors
import MemLane.RespGrammar
import MemLane.EvictionCount
import MemLane.History
import MemLane.SettledSlots
import MemLane.DeleteRace
import MemLane.Publication
import MemLane.Removals
import MemLane.Startup
import MemLane.SingleCopy
import MemLane.SipReference
import MemLane.SipAgreement
import MemLane.Percentile
import MemLane.Metrics
import MemLane.Requests
import MemLane.FullArena
import MemLane.TtlArithmetic
import MemLane.SetOptions
import MemLane.Visibility
import MemLane.DeleteCount
import MemLane.BatchSet
import MemLane.Counters
import MemLane.CounterExpiry
import MemLane.ParserPanics
import MemLane.Script
import MemLane.RequestScripts
import MemLane.Replies
import MemLane.RequestEffects
import MemLane.MapStore
import MemLane.Sessions
import MemLane.ServerRuns
import MemLane.Isolation
import MemLane.Channels
import MemLane.Telemetry
import MemLane.TelemetryRuns
import MemLane.CInterface
import MemLane.WaitFreedom
import MemLane.SoloRuns
import MemLane.Atomicity
import MemLane.ReplySources
import MemLane.TimedStore
import MemLane.ServerProgress
import MemLane.Pipelining
import MemLane.FlushRace
import MemLane.FlushedReads
