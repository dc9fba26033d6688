import LazyNet.Lib.Words
import LazyNet.Lib.Regions
import LazyNet.Lib.StepRuns
import LazyNet.Lib.Tables
import LazyNet.Lib.Framing
import LazyNet.Lib.WireFormat
import LazyNet.Lib.Pieces
import LazyNet.HandyBuffer
import LazyNet.ExternalMsgCodec
import LazyNet.CodecRoundTrip
import LazyNet.MsDsProtocol
import LazyNet.MsDsWire
import LazyNet.DSServer
import LazyNet.DecodeBounds
import LazyNet.StreamReassembly
import LazyNet.StreamBuffer
import LazyNet.Dispatcher
import LazyNet.SessionService
import LazyNet.StreamMgr
import LazyNet.StreamSteps
import LazyNet.PlanChecks
import LazyNet.CompleteMessages
import LazyNet.AckPairing
import LazyNet.AdmissionLimit
import LazyNet.SessionTables
import LazyNet.Ports
import LazyNet.StoreQueue
import LazyNet.StoreLoop
import LazyNet.StoreLifecycle
import LazyNet.MsAgent
import LazyNet.FrameBoundary
import LazyNet.Registration
import LazyNet.CommandTables
import LazyNet.PlanSweeps
import LazyNet.SessionCounters
import LazyNet.BindReports
import LazyNet.Descriptors
import LazyNet.ByeWords
import LazyNet.PlanRepeats
import LazyNet.TypedFrames
import LazyNet.CheckClock
import LazyNet.TaskQueue
import LazyNet.StoreThreads
import LazyNet.ThreadPool
import LazyNet.Timers
import LazyNet.TimerRuns
import LazyNet.TimerEnds
import LazyNet.AdminLoop
import LazyNet.AdminRuns
import LazyNet.AdminWire
import LazyNet.Poller
import LazyNet.PollerRuns
import LazyNet.ConnOutput
import LazyNet.OutputRuns
import LazyNet.Lib.Decoders
import LazyNet.HandyCodecs
import LazyNet.LengthStreams
import LazyNet.LineStreams
import LazyNet.MessageRuns
