import HiDANN.Library.Bytes
import HiDANN.Library.Scatter
import HiDANN.Library.StagedLog
import HiDANN.Library.Script
import HiDANN.Library.Smallest
import HiDANN.Format.Candidates
import HiDANN.Construction.Buckets
import HiDANN.Construction.BucketLog
import HiDANN.Construction.Staging
import HiDANN.Construction.Compaction
import HiDANN.Construction.Lossless
import HiDANN.Construction.Crash
import HiDANN.Search.Queue
import HiDANN.Search.Tracking
import HiDANN.Construction.VisitSearch
import HiDANN.Construction.Occlude
import HiDANN.Construction.PairMask
import HiDANN.Construction.Pairs
import HiDANN.Construction.PairLoop
import HiDANN.Construction.Pipeline
import HiDANN.Construction.Refinement
import HiDANN.Construction.StagedRuns
import HiDANN.Library.Selection
import HiDANN.Pruning.Prune
import HiDANN.Pruning.Validity
import HiDANN.Format.MemIndex
import HiDANN.Library.Posix
import HiDANN.Library.Bisect
import HiDANN.Pruning.Batches
import HiDANN.Pruning.Output
import HiDANN.Pruning.FirstPass
import HiDANN.Pruning.GraphFiles
import HiDANN.Reverse.Contributions
import HiDANN.Reverse.Stripes
import HiDANN.Reverse.Symmetric
import HiDANN.Reverse.Exact
import HiDANN.Search.Beam
import HiDANN.Search.FixedPoint
import HiDANN.Library.Packing
import HiDANN.Disk.Layout
import HiDANN.Disk.Sources
import HiDANN.Disk.ReadBack
import HiDANN.Search.ReadsOnce
import HiDANN.Library.TopK
import HiDANN.Search.Refine
import HiDANN.Search.EarlyExit
import HiDANN.Search.Explicit
import HiDANN.Library.Probing
import HiDANN.Search.CacheTable
import HiDANN.Search.CacheLoad
import HiDANN.Library.FallibleFold
import HiDANN.Search.ResultFiles
import HiDANN.Search.Recall
import HiDANN.Search.ReportedRecall
import HiDANN.Construction.Residency
import HiDANN.Library.LeastSearch
import HiDANN.Construction.Planner
import HiDANN.Library.Decimal
import HiDANN.Search.NodeList
import HiDANN.Search.CacheGen
import HiDANN.Baselines.Sogaic
import HiDANN.Pruning.Greedy
import HiDANN.Construction.RobustPrune
import HiDANN.Construction.EmitRefinement
import HiDANN.Construction.SelfDump
import HiDANN.Construction.Arena
import HiDANN.Library.Words
import HiDANN.Library.Rounding
import HiDANN.Pruning.MemoryBudget
import HiDANN.Reverse.StripeBudget
import HiDANN.Disk.Metadata
import HiDANN.Search.Scratch
import HiDANN.Search.CacheFile
import HiDANN.Search.SeparateLayout
import HiDANN.Search.BfsLevels
import HiDANN.Search.InDegree
import HiDANN.Pruning.ChunkOffsets
import HiDANN.Pruning.PqFiles
import HiDANN.Tools.NeighborQueue
import HiDANN.Tools.EvaluateQuery
import HiDANN.Disk.IoUring
import HiDANN.Tools.ExtractShard
import HiDANN.Search.QueueSlots
import HiDANN.Reverse.Pickers
import HiDANN.Library.Runs
import HiDANN.Memory.OccludeList
import HiDANN.Memory.SinglePass
import HiDANN.Memory.Link
import HiDANN.Memory.NaturalNumbers
import HiDANN.Memory.Slots
import HiDANN.Memory.Consolidate
import HiDANN.Search.Renaming
import HiDANN.Memory.SearchTags
import HiDANN.Memory.Compact
import HiDANN.Memory.Reposition
import HiDANN.Memory.SaveLoad
import HiDANN.Memory.InsertOnly
import HiDANN.Memory.Updates
import HiDANN.Memory.UpdateRuns
import HiDANN.Baselines.MergeShards
import HiDANN.Build.FinalGraph
import HiDANN.Library.Holders
import HiDANN.Search.Workers
