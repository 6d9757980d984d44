import Matcher.Theorems.Refinement
import Matcher.Theorems.Restore
import Matcher.Theorems.Interchange
import Matcher.Theorems.Uncrossed
import Matcher.Theorems.EventLog
import Matcher.Theorems.CrossStructure
import Matcher.Theorems.MapChurn
import Matcher.Theorems.LadderMap
import Matcher.Theorems.QueueFamily
import Matcher.Theorems.SweepForm
import Matcher.Theorems.Totals
import Matcher.Theorems.FillOrKill
import Matcher.Theorems.TimeInForce
import Matcher.Theorems.ReplaceAsNew
import Matcher.Theorems.Lookahead
import Matcher.Theorems.Symbols
import Matcher.Theorems.TornJournal
import Matcher.Theorems.TornSnapshot
import Matcher.Theorems.JournalReplay
import Matcher.Theorems.SnapshotRoundTrip
import Matcher.Theorems.Priority
import Matcher.Theorems.NumberFields
import Matcher.Theorems.EventStreams
import Matcher.Theorems.ChunkPool
import Matcher.Theorems.DeadBranches
import Matcher.Theorems.FastPath
import Matcher.Kit.Machine
import Matcher.Spec.Market
import Matcher.Logic.MarketSim
import Matcher.Theorems.Upkeep
import Matcher.Theorems.Restarts
import Matcher.Drivers
import Matcher.Theorems.Recovery
import Matcher.Theorems.Amortized
import Matcher.Theorems.Conservation
import Matcher.Theorems.QueuePosition
import Matcher.Theorems.BestExecution
import Matcher.Theorems.DerivedOrders
import Matcher.Theorems.Loading
import Matcher.Theorems.Migration
import Matcher.Theorems.Symmetries
import Matcher.Theorems.Bystanders
import Matcher.Theorems.HighWater
import Matcher.Kit.Trace
import Matcher.Vectorgen
import Matcher.Logic.Corpus
import Matcher.Theorems.CorpusFiles
import Matcher.Theorems.CorpusReplay
