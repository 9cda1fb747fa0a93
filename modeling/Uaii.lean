import Uaii.Loaders.GgufPaths
import Uaii.Runtime.Generate
import Uaii.Runtime.KvCache
import Uaii.Runtime.KvWindow
import Uaii.Lib.Kahn
import Uaii.Ir.Validator
import Uaii.Lib.Dataflow
import Uaii.Ir.Semantics
import Uaii.Planner.Fusion
import Uaii.Planner.FusionIdentity
import Uaii.Planner.MatmulRelu
import Uaii.Planner.FusionValues
import Uaii.Planner.MemoryPlan
import Uaii.Runtime.Allocate
import Uaii.Kernels.Moe
import Uaii.Kernels.MoeListed
import Uaii.Kernels.QuantGemm
import Uaii.Storage.ExpertCache
import Uaii.Storage.Streaming
import Uaii.Runtime.StagedExperts
import Uaii.Runtime.Staging
import Uaii.Planner.MemoryDisjoint
import Uaii.Planner.MemoryRun
import Uaii.Loaders.WeightRef
import Uaii.Runtime.LoadWeights
import Uaii.Runtime.RunValues
import Uaii.Runtime.Sampling
import Uaii.Lib.Storage
import Uaii.Ir.PlanOrder
import Uaii.Ir.PlanExact
import Uaii.Lib.Merges
import Uaii.Tokenizers.Bpe
import Uaii.Tokenizers.BpeRoundTrip
import Uaii.Planner.StorageFits
import Uaii.Storage.StagedBytes
import Uaii.Storage.ExpertBudget
import Uaii.Planner.PlanCache
import Uaii.Ir.SerializeBinary
import Uaii.Lib.Rows
import Uaii.Runtime.KvStore
import Uaii.Lib.Sliding
import Uaii.Runtime.KvHistory
import Uaii.Runtime.WeightBytes
import Uaii.Lib.Decimal
import Uaii.Ir.Json
import Uaii.Lib.TextStream
import Uaii.Ir.JsonRoundTrip
import Uaii.Ir.SerializeJson
import Uaii.Tokenizers.HfTokenizer
import Uaii.Tokenizers.Metaspace
import Uaii.Tokenizers.Spm
import Uaii.Lib.Softmax
import Uaii.Kernels.Attention
import Uaii.Runtime.DecodeAttention
import Uaii.Runtime.FailedRun
import Uaii.Planner.PlanFile
import Uaii.Runtime.GenerateLoop
import Uaii.Storage.PeekPrefetched
import Uaii.Lib.Binary
import Uaii.Loaders.MiniJson
import Uaii.Loaders.Safetensors
import Uaii.Loaders.HalfFloat
import Uaii.Loaders.SafetensorsRoundTrip
import Uaii.Loaders.ReadInside
import Uaii.Loaders.GgufHeader
import Uaii.Loaders.GgufRoundTrip
import Uaii.Ir.Building
import Uaii.Loaders.SafetensorsLoad
import Uaii.Loaders.LoadedGraphs
import Uaii.Dashboard.ChatWorker
import Uaii.Dashboard.StaleEvents
import Uaii.Loaders.HfGraphs
import Uaii.Core.Plugins
import Uaii.Lib.Traces
import Uaii.Runtime.MemoryWarning
import Uaii.Runtime.OpenedFiles
import Uaii.Tokenizers.ChatTemplate
import Uaii.Cli.ReplyText
import Uaii.Tokenizers.ChatBos
import Uaii.Runtime.SessionHistory
import Uaii.Loaders.HfHead
import Uaii.Ir.BinaryStrict
import Uaii.Ir.JsonObjects
import Uaii.Kernels.Embedding
import Uaii.Kernels.Present
import Uaii.Lib.Recorded
import Uaii.Lib.Regex
import Uaii.Loaders.GgufSlices
import Uaii.Loaders.HeaderNumbers
import Uaii.Runtime.FailedAppend
import Uaii.Storage.StreamedWeights
import Uaii.Tokenizers.Gpt2Split
import Uaii.Tokenizers.VocabJson
import Uaii.Kernels.RefGemm
import Uaii.Memory.Arena
import Uaii.Quant.CodecRoundTrip
import Uaii.Storage.ExpertCounters
import Uaii.Storage.FileProvider
import Uaii.Kernels.Rope
import Uaii.Runtime.SampledTokens
import Uaii.Cli.RequestRead
import Uaii.Tokenizers.SplitLoops
import Uaii.Kernels.ThreadRuns
import Uaii.Runtime.TensorSizes
import Uaii.Runtime.SettingsAgree
import Uaii.Loaders.GgufConfig
import Uaii.Loaders.GgufLoad
import Uaii.Loaders.GgufGraphs
import Uaii.Loaders.WellFormed
import Uaii.Ir.Reads
import Uaii.Loaders.BlockNames
import Uaii.Loaders.GgufUses
import Uaii.Loaders.HfUses
import Uaii.Loaders.UsedWeights
import Uaii.Runtime.TurnedRuns
