import AerospikeBenchmark.Lib.CText
import AerospikeBenchmark.Lib.CPointer
import AerospikeBenchmark.Lib.Float
import AerospikeBenchmark.Lib.Consumed
import AerospikeBenchmark.Lib.FpNum
import AerospikeBenchmark.Lib.Words
import AerospikeBenchmark.Lib.Digits
import AerospikeBenchmark.Lib.Barrier
import AerospikeBenchmark.Lib.Runs
import AerospikeBenchmark.Lib.Ring
import AerospikeBenchmark.Lib.Owners
import AerospikeBenchmark.Lib.CountLoop
import AerospikeBenchmark.Lib.Snprintf
import AerospikeBenchmark.Lib.Tiling
import AerospikeBenchmark.Lib.Rounding
import AerospikeBenchmark.Lib.Cells
import AerospikeBenchmark.Lib.Results
import AerospikeBenchmark.Lib.ErrorRuns
import AerospikeBenchmark.Lib.Footprints
import AerospikeBenchmark.Lib.Fairness
import AerospikeBenchmark.Lib.Rounded
import AerospikeBenchmark.Lib.FpArith
import AerospikeBenchmark.Lib.LogLinear
import AerospikeBenchmark.Lib.BigEndian
import AerospikeBenchmark.ObjectSpec.Basic
import AerospikeBenchmark.ObjectSpec.Layout
import AerospikeBenchmark.ObjectSpec.Print
import AerospikeBenchmark.ObjectSpec.Token
import AerospikeBenchmark.ObjectSpec.Gen
import AerospikeBenchmark.ObjectSpec.WriteBins
import AerospikeBenchmark.ObjectSpec.MapKeys
import AerospikeBenchmark.ObjectSpec.Free
import AerospikeBenchmark.ObjectSpec.Parse
import AerospikeBenchmark.ObjectSpec.Checked
import AerospikeBenchmark.ObjectSpec.Handles
import AerospikeBenchmark.ObjectSpec.Tree
import AerospikeBenchmark.ObjectSpec.Render
import AerospikeBenchmark.ObjectSpec.Grammar
import AerospikeBenchmark.ObjectSpec.Conform
import AerospikeBenchmark.Workload.Basic
import AerospikeBenchmark.Workload.Parse
import AerospikeBenchmark.Workload.StageSpecs
import AerospikeBenchmark.Workload.BinNames
import AerospikeBenchmark.Workload.SetUp
import AerospikeBenchmark.Args.Basic
import AerospikeBenchmark.Args.SetArgs
import AerospikeBenchmark.Args.Init
import AerospikeBenchmark.Args.CleanUp
import AerospikeBenchmark.Args.Fields
import AerospikeBenchmark.Transaction.Linear
import AerospikeBenchmark.Transaction.Accounting
import AerospikeBenchmark.Transaction.Operations
import AerospikeBenchmark.Transaction.Async
import AerospikeBenchmark.Transaction.DeleteRecord
import AerospikeBenchmark.Transaction.Populate
import AerospikeBenchmark.Transaction.StageObjects
import AerospikeBenchmark.Transaction.Queue
import AerospikeBenchmark.Transaction.AsyncItems
import AerospikeBenchmark.Transaction.Reads
import AerospikeBenchmark.Latency.Histograms
import AerospikeBenchmark.Latency.Hdr
import AerospikeBenchmark.Latency.Buckets
import AerospikeBenchmark.Latency.Sinks
import AerospikeBenchmark.Latency.OutputWorker
import AerospikeBenchmark.Latency.HdrValues
import AerospikeBenchmark.Latency.HdrEncoding
import AerospikeBenchmark.Latency.HdrLog
import AerospikeBenchmark.Coordinator.Model
import AerospikeBenchmark.Coordinator.Creation
import AerospikeBenchmark.Coordinator.OsxBarrier
import AerospikeBenchmark.Coordinator.Work
import AerospikeBenchmark.Lemmas.Token
import AerospikeBenchmark.Lemmas.Tidy
import AerospikeBenchmark.Lemmas.WrittenTokens
import AerospikeBenchmark.Lemmas.ConstGen
import AerospikeBenchmark.Lemmas.Reads
import AerospikeBenchmark.Lemmas.ParseRun
import AerospikeBenchmark.Lemmas.Accepted
import AerospikeBenchmark.Lemmas.Strings
import AerospikeBenchmark.Lemmas.Generate
import AerospikeBenchmark.Lemmas.StageProtocol
import AerospikeBenchmark.Lemmas.StageInvariant
import AerospikeBenchmark.Lemmas.OsxBarrier
import AerospikeBenchmark.Lemmas.Buckets
import AerospikeBenchmark.Lemmas.Accounting
import AerospikeBenchmark.Lemmas.WriteBins
import AerospikeBenchmark.Lemmas.Populate
import AerospikeBenchmark.Lemmas.Queue
import AerospikeBenchmark.Lemmas.Free
import AerospikeBenchmark.Lemmas.Checked
import AerospikeBenchmark.Lemmas.ParseStates
import AerospikeBenchmark.Lemmas.Print
import AerospikeBenchmark.Lemmas.SetUp
import AerospikeBenchmark.Lemmas.Args
import AerospikeBenchmark.Lemmas.OptionFields
import AerospikeBenchmark.Lemmas.StageProgress
import AerospikeBenchmark.Lemmas.StageWork
import AerospikeBenchmark.Lemmas.StageCounts
import AerospikeBenchmark.Lemmas.HdrEncoding
import AerospikeBenchmark.Lemmas.HdrLayout
import AerospikeBenchmark.Lemmas.HdrRecording
import AerospikeBenchmark.Lemmas.HdrLog
import AerospikeBenchmark.Theorems.ParserCompleteness
import AerospikeBenchmark.Theorems.ParserSoundness
import AerospikeBenchmark.Theorems.ParserStates
import AerospikeBenchmark.Theorems.ParsedSpecs
import AerospikeBenchmark.Theorems.PrintBuffer
import AerospikeBenchmark.Theorems.PrintParse
import AerospikeBenchmark.Theorems.ConstantTokens
import AerospikeBenchmark.Theorems.ConstantFolding
import AerospikeBenchmark.Theorems.GeneratedValues
import AerospikeBenchmark.Theorems.LinearStages
import AerospikeBenchmark.Theorems.StageProtocol
import AerospikeBenchmark.Theorems.CreationFailure
import AerospikeBenchmark.Theorems.OsxBarrier
import AerospikeBenchmark.Theorems.AccountingModes
import AerospikeBenchmark.Theorems.AsyncTags
import AerospikeBenchmark.Theorems.DeleteRecord
import AerospikeBenchmark.Theorems.HistogramUses
import AerospikeBenchmark.Theorems.LatencySinks
import AerospikeBenchmark.Theorems.StageHeaders
import AerospikeBenchmark.Theorems.NormalStages
import AerospikeBenchmark.Theorems.ReadAllPct
import AerospikeBenchmark.Theorems.WriteBins
import AerospikeBenchmark.Theorems.GenerationPaths
import AerospikeBenchmark.Theorems.StageObjects
import AerospikeBenchmark.Theorems.Queue
import AerospikeBenchmark.Theorems.AsyncItems
import AerospikeBenchmark.Theorems.PrintClear
import AerospikeBenchmark.Theorems.MapKeys
import AerospikeBenchmark.Theorems.ConstantKeys
import AerospikeBenchmark.Theorems.Handles
import AerospikeBenchmark.Theorems.Freeing
import AerospikeBenchmark.Theorems.FailedParse
import AerospikeBenchmark.Theorems.StringLiterals
import AerospikeBenchmark.Theorems.RandomStrings
import AerospikeBenchmark.Theorems.RandomBuffers
import AerospikeBenchmark.Theorems.RangeReduction
import AerospikeBenchmark.Theorems.KeyWarnings
import AerospikeBenchmark.Theorems.LinearLimits
import AerospikeBenchmark.Theorems.BucketLookup
import AerospikeBenchmark.Theorems.BinSelections
import AerospikeBenchmark.Theorems.Percentages
import AerospikeBenchmark.Theorems.RejectedStages
import AerospikeBenchmark.Theorems.ExitStatus
import AerospikeBenchmark.Theorems.CleanUp
import AerospikeBenchmark.Theorems.OptionEffects
import AerospikeBenchmark.Theorems.StageTermination
import AerospikeBenchmark.Theorems.StageWork
import AerospikeBenchmark.Theorems.HdrPercentiles
import AerospikeBenchmark.Theorems.HdrLog
