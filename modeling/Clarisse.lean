import Clarisse.Transition
import Clarisse.Interleave
import Clarisse.Digest
import Clarisse.Topology
import Clarisse.Sampling
import Clarisse.MultiFunc
import Clarisse.MultiFuncSound
import Clarisse.Stone
import Clarisse.Backlog
import Clarisse.OwnMetrics
import Clarisse.OwnMetricsSound
import Clarisse.Results
import Clarisse.Bootstrap
import Clarisse.Links
import Clarisse.Network
import Clarisse.History
import Clarisse.Relay
import Clarisse.Contents
import Clarisse.Aggregation
import Clarisse.Mixing
import Clarisse.Shutdown
import Clarisse.Finalize
import Clarisse.Scanf
import Clarisse.Crawler
import Clarisse.Measuring
import Clarisse.Latency
import Clarisse.Queue
import Clarisse.ResultBuffer
import Clarisse.CopyLoop
import Clarisse.StartTime
import Clarisse.Benchmark
import Clarisse.BenchmarkSound
import Clarisse.CString
import Clarisse.Address
import Clarisse.EvPath
import Clarisse.Startup
import Clarisse.Wiring
import Clarisse.StartupSound
import Clarisse.Binary
import Clarisse.WireFormat
import Clarisse.WireResults
import Clarisse.MachineInt
import Clarisse.LongCount
import Clarisse.Overflow
import Clarisse.Destroy
import Clarisse.Buffers
import Clarisse.Finishing
import Clarisse.LinkedList
import Clarisse.UtHash
import Clarisse.UtHashSound
import Clarisse.UtHashItems
import Clarisse.UtHashMap
import Clarisse.TimestampTable
import Clarisse.Storage
import Clarisse.StorageResults
import Clarisse.Draining
import Clarisse.Timing
import Clarisse.Readers
import Clarisse.PulseTimes
import Clarisse.Builds
import Clarisse.Completion
import Clarisse.JobEnd
import Clarisse.BenchmarkEnd
import Clarisse.Monitor
import Clarisse.ResultsLock
