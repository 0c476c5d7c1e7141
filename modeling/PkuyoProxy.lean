import PkuyoProxy.Lib.Substring
import PkuyoProxy.Lib.Lines
import PkuyoProxy.Lib.WhileLoop
import PkuyoProxy.Lib.CutOff
import PkuyoProxy.Lib.Mealy
import PkuyoProxy.Lib.FallibleRun
import PkuyoProxy.Lib.SecondaryIndex
import PkuyoProxy.Lib.Paths
import PkuyoProxy.Lib.ScanMin
import PkuyoProxy.Lib.FirstMatch
import PkuyoProxy.Lib.StoreCount
import PkuyoProxy.Lib.PercentEncoding
import PkuyoProxy.Model.Text
import PkuyoProxy.Model.InetAddress
import PkuyoProxy.Model.HttpContext
import PkuyoProxy.Model.Headers
import PkuyoProxy.Model.NormalConnHandler
import PkuyoProxy.Model.Parser
import PkuyoProxy.Model.Sender
import PkuyoProxy.Model.StaticFile
import PkuyoProxy.Model.Config
import PkuyoProxy.Model.Balancer
import PkuyoProxy.Model.Worker
import PkuyoProxy.Model.RevHandler
import PkuyoProxy.Model.ReadEvent
import PkuyoProxy.Model.ProxyPair
import PkuyoProxy.Model.EventLoop
import PkuyoProxy.Model.BalancedWorker
import PkuyoProxy.Model.SharedRegion
import PkuyoProxy.Model.InterleavedCalls
import PkuyoProxy.Model.MainLoop
import PkuyoProxy.Model.WorkerLoop
import PkuyoProxy.Model.WorkerRounds
import PkuyoProxy.Model.PeerAddress
import PkuyoProxy.Interface.Framer
import PkuyoProxy.Interface.Messages
import PkuyoProxy.Interface.HeaderBlock
import PkuyoProxy.Interface.HttpMessage
import PkuyoProxy.Interface.Decimal
import PkuyoProxy.Interface.Elements
import PkuyoProxy.Interface.ConfigDocument
import PkuyoProxy.Analysis.ParserRefinement
import PkuyoProxy.Analysis.HeaderRewriting
import PkuyoProxy.Analysis.Segmentation
import PkuyoProxy.Analysis.OutputStream
import PkuyoProxy.Analysis.ParserStates
import PkuyoProxy.Analysis.Forwarding
import PkuyoProxy.Analysis.StartLines
import PkuyoProxy.Analysis.AccessLines
import PkuyoProxy.Analysis.LoggedRuns
import PkuyoProxy.Analysis.ContentLengthFraming
import PkuyoProxy.Analysis.ChunkedFraming
import PkuyoProxy.Analysis.ConnectionMaps
import PkuyoProxy.Analysis.Confinement
import PkuyoProxy.Analysis.BackendChoice
import PkuyoProxy.Analysis.WeightedFairness
import PkuyoProxy.Analysis.BalancerSafety
import PkuyoProxy.Analysis.ParserTermination
import PkuyoProxy.Analysis.ParserExceptions
import PkuyoProxy.Analysis.ClientAddress
import PkuyoProxy.Analysis.ConfigFidelity
import PkuyoProxy.Analysis.EndOfStream
import PkuyoProxy.Analysis.ResponseOrder
import PkuyoProxy.Analysis.PairEvents
import PkuyoProxy.Analysis.Writability
import PkuyoProxy.Analysis.BackendClose
import PkuyoProxy.Analysis.ConnectionCounts
import PkuyoProxy.Analysis.SharedRegions
import PkuyoProxy.Analysis.InterleavedRoundRobin
import PkuyoProxy.Analysis.Reloads
import PkuyoProxy.Analysis.Draining
import PkuyoProxy.Analysis.HeaderFrame
import PkuyoProxy.Analysis.ContentLengths
import PkuyoProxy.Analysis.PeerAddresses
import PkuyoProxy.Analysis.WeightConservation
import PkuyoProxy.Analysis.PendingOutput
import PkuyoProxy.Analysis.UrlDecoding
import PkuyoProxy.Analysis.LocalResponses
import PkuyoProxy.Analysis.ServedFiles
import PkuyoProxy.Analysis.FreshStart
import PkuyoProxy.Analysis.SelfDelimiting
import PkuyoProxy.Analysis.RejectedRequests
import PkuyoProxy.Analysis.BodylessResponses
import PkuyoProxy.Model.AccessLog
import PkuyoProxy.Analysis.LeastConnections
import PkuyoProxy.Analysis.RoundRobinFairness
import PkuyoProxy.Analysis.SuspendedParser
import PkuyoProxy.Model.TransferCoding
import PkuyoProxy.Analysis.TransferCoding
import PkuyoProxy.Lib.OwnedHandles
import PkuyoProxy.Lib.Outcomes
import PkuyoProxy.Lib.Interleaving
import PkuyoProxy.Lib.Turns
import PkuyoProxy.Model.Descriptors
import PkuyoProxy.Model.Commands
import PkuyoProxy.Analysis.OpenDescriptors
import PkuyoProxy.Analysis.ProcessRuns
import PkuyoProxy.Analysis.ParserSide
import PkuyoProxy.Analysis.SessionTraffic
import PkuyoProxy.Analysis.Relaying
import PkuyoProxy.Analysis.ClientView
import PkuyoProxy.Analysis.ProxyChains
import PkuyoProxy.Analysis.DispatchOrder
import PkuyoProxy.Analysis.DaemonControl
import PkuyoProxy.Model.MasterLoop
import PkuyoProxy.Analysis.HealthChecks
import PkuyoProxy.Analysis.HandshakeGate
import PkuyoProxy.Analysis.MissedSignals
