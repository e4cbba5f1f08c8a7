import StateTableBench.Arithmetic.Int32
import StateTableBench.Arithmetic.Rounding
import StateTableBench.Arithmetic.Binary64
import StateTableBench.Arithmetic.Exactness
import StateTableBench.Collections.FiniteMap
import StateTableBench.Collections.KeyedLog
import StateTableBench.Collections.MaxBy
import StateTableBench.Collections.Blocks
import StateTableBench.Collections.LastValue
import StateTableBench.Collections.Interleaving
import StateTableBench.Collections.Quantile
import StateTableBench.Collections.Grouping
import StateTableBench.Collections.Increments
import StateTableBench.Transition.Run
import StateTableBench.Text.Split
import StateTableBench.Text.Regex
import StateTableBench.Text.Numerals
import StateTableBench.Spmd.Defs
import StateTableBench.Spmd.Plan
import StateTableBench.Spmd.Termination
import StateTableBench.Spmd.Agreement
import StateTableBench.Spmd.Schedule
import StateTableBench.Spmd.Work
import StateTableBench.Choreography.Defs
import StateTableBench.Choreography.Progress
import StateTableBench.Monitor.Defs
import StateTableBench.Monitor.Progress
import StateTableBench.MergedMap.Defs
import StateTableBench.MergedMap.Step
import StateTableBench.MergedMap.Opinions
import StateTableBench.MergedMap.Winners
import StateTableBench.MergedMap.Stale
import StateTableBench.MergedMap.Size
import StateTableBench.MergedMap.Subscribers
import StateTableBench.MergedMap.EventStream
import StateTableBench.ArpMergedMap.Formats
import StateTableBench.ArpMergedMap.Wire
import StateTableBench.ArpMergedMap.Freshest
import StateTableBench.KafkaBus.Consumer
import StateTableBench.KafkaBus.Opening
import StateTableBench.KafkaBus.Compaction
import StateTableBench.KafkaBus.Convergence
import StateTableBench.ArpMergedMap.Replication
import StateTableBench.ArpMergedMap.Deployment
import StateTableBench.ArpMergedMap.Refinement
import StateTableBench.ArpMergedMap.EventualConsistency
import StateTableBench.Mpi.BlockDistribution
import StateTableBench.Mpi.Arrays
import StateTableBench.Mpi.Allgather
import StateTableBench.Mpi.GlobalArray
import StateTableBench.LatencyNodes.Nodes
import StateTableBench.LatencyNodes.PacedWriter
import StateTableBench.LatencyNodes.Pacing
import StateTableBench.LatencyNodes.ReaderRun
import StateTableBench.LatencyNodes.ReaderResults
import StateTableBench.LatencyNodes.Percentile
import StateTableBench.LatencyNodes.Observer
import StateTableBench.LatencyNodes.SurplusEvents
import StateTableBench.LatencyNodes.EndToEnd
import StateTableBench.LatencyNodes.Latencies
import StateTableBench.LatencyNodes.MultiMapResults
import StateTableBench.TestBench.ThrottledSetup
import StateTableBench.TestBench.SetupOrder
import StateTableBench.TestBench.NodeTestCycle
import StateTableBench.TestBench.LeftAlone
import StateTableBench.TestBench.Roles
import StateTableBench.TestBench.Layout
import StateTableBench.TestBench.Admission
import StateTableBench.TestBench.Prelude
import StateTableBench.TestBench.Writers
import StateTableBench.TestBench.ExactRoles
import StateTableBench.TestBench.InitBarrier
import StateTableBench.TestBench.Topics
import StateTableBench.TestBench.Callbacks
import StateTableBench.TestBench.Warmup
import StateTableBench.BatchTestBench.Construction
import StateTableBench.BatchTestBench.Config
import StateTableBench.BatchTestBench.ResultPaths
import StateTableBench.BatchTestBench.Main
import StateTableBench.BatchTestBench.Restarts
import StateTableBench.DataAnalysis.ExperimentReader
import StateTableBench.DataAnalysis.TimeSeries
import StateTableBench.DataAnalysis.RawLatencies
import StateTableBench.DataAnalysis.JmxLog
import StateTableBench.DataAnalysis.DiscreteDerivative
import StateTableBench.DataAnalysis.NmonLog
import StateTableBench.DataAnalysis.NmonSections
import StateTableBench.DataAnalysis.NmonAcceptance
import StateTableBench.MapSetBenchmark.Routes
import StateTableBench.MapSetBenchmark.LatencyBench
import StateTableBench.MapSetBenchmark.MergedMapLatency
import StateTableBench.MapSetBenchmark.ChurnBench
import StateTableBench.MapSetBenchmark.Watchers
import StateTableBench.MapSetBenchmark.Waiting
import StateTableBench.ZoomStorage.Conversions
import StateTableBench.ZoomStorage.Service
import StateTableBench.ZoomStorage.GetAll
import StateTableBench.ZoomStorage.Ports
import StateTableBench.ZoomStorage.Links
import StateTableBench.ZoomStorage.Subscriptions
import StateTableBench.MpiTest.Main
