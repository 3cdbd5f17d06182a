import NcclTests.Lib.ArgumentOrder
import NcclTests.Lib.BinaryFloat
import NcclTests.Lib.BitMask
import NcclTests.Lib.Blocks
import NcclTests.Lib.BusyPeriod
import NcclTests.Lib.FlagRally
import NcclTests.Lib.FloatText
import NcclTests.Lib.GatherScatter
import NcclTests.Lib.Ieee
import NcclTests.Lib.IeeeOrder
import NcclTests.Lib.Json
import NcclTests.Lib.JsonScalar
import NcclTests.Lib.Lockstep
import NcclTests.Lib.Loop
import NcclTests.Lib.MachineInt
import NcclTests.Lib.Moves
import NcclTests.Lib.Numeral
import NcclTests.Lib.OrderStatistic
import NcclTests.Lib.PowTwoOrbit
import NcclTests.Lib.PowTwoPerm
import NcclTests.Lib.Printf
import NcclTests.Lib.Rally
import NcclTests.Lib.ReduceTree
import NcclTests.Lib.Rendezvous
import NcclTests.Lib.Scanf
import NcclTests.Lib.Segments
import NcclTests.Lib.SendQueue
import NcclTests.Lib.SignalBarrier
import NcclTests.Lib.SignalData
import NcclTests.Lib.SignalNet
import NcclTests.Lib.Staircase
import NcclTests.Lib.Stores
import NcclTests.Lib.StrideLoop
import NcclTests.Lib.Threads
import NcclTests.Lib.WordPerm
import NcclTests.Lib.Words
import NcclTests.Gin.FlagPingPong
import NcclTests.Gin.Launches
import NcclTests.Gin.Options
import NcclTests.Gin.PerfRun
import NcclTests.Gin.PingPong
import NcclTests.Gin.SizeBounds
import NcclTests.Gin.Throughput
import NcclTests.Verifiable.CopyData
import NcclTests.Verifiable.FloatAvg
import NcclTests.Verifiable.FloatLayout
import NcclTests.Verifiable.FloatPreMulSum
import NcclTests.Verifiable.FloatProd
import NcclTests.Verifiable.FloatSum
import NcclTests.Verifiable.GenInOutFloat
import NcclTests.Verifiable.GenSumXY
import NcclTests.Verifiable.GenSumXYDomain
import NcclTests.Verifiable.GenericFold
import NcclTests.Verifiable.Kernels
import NcclTests.Verifiable.Overloads
import NcclTests.Verifiable.Random
import NcclTests.Verifiable.ShuffleRank
import NcclTests.Collective.AlltoAllv
import NcclTests.Collective.BuffSize
import NcclTests.Collective.BufferBounds
import NcclTests.Collective.Counts
import NcclTests.Collective.DistanceWeighted
import NcclTests.Collective.HyperCube
import NcclTests.Collective.InitData
import NcclTests.Collective.Memory
import NcclTests.Collective.PointToPoint
import NcclTests.Collective.Reductions
import NcclTests.Collective.StartColl
import NcclTests.Collective.TrafficEnv
import NcclTests.Collective.TrafficMatrix
import NcclTests.Device.AllReduce
import NcclTests.Device.AllReduceIndices
import NcclTests.Device.AlltoAll
import NcclTests.Device.AlltoAllData
import NcclTests.Device.Launch
import NcclTests.Device.MultimemAllReduce
import NcclTests.Device.SignalAlltoAll
import NcclTests.HostRma.Expected
import NcclTests.HostRma.Placement
import NcclTests.HostRma.Puts
import NcclTests.HostRma.Signals
import NcclTests.Harness.Barrier
import NcclTests.Harness.BenchTime
import NcclTests.Harness.CommandLine
import NcclTests.Harness.DeviceReport
import NcclTests.Harness.GetoptLong
import NcclTests.Harness.IterOptions
import NcclTests.Harness.IterStats
import NcclTests.Harness.JsonWriter
import NcclTests.Harness.MemoryPlan
import NcclTests.Harness.OutputFile
import NcclTests.Harness.ProcessTimes
import NcclTests.Harness.Profiler
import NcclTests.Harness.RankLayout
import NcclTests.Harness.Report
import NcclTests.Harness.ReportScalars
import NcclTests.Harness.RunTest
import NcclTests.Harness.RunThreads
import NcclTests.Harness.SanitizeJson
import NcclTests.Harness.SizeSweep
import NcclTests.Harness.SizeText
import NcclTests.Harness.SplitColor
import NcclTests.Harness.Verdict
import NcclTests.CommOps.GatherTiming
import NcclTests.CommOps.RootLayout
import NcclTests.CommOps.StepKinds
import NcclTests.CommOps.Sweep
import NcclTests.CommOps.Timers
