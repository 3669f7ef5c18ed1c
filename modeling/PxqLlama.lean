import PxqLlama.Proofs.Pxq.Threads
import PxqLlama.Proofs.Pxq.Dot
import PxqLlama.Proofs.Dsv4.RawWindow
import PxqLlama.Proofs.Dsv4.Scratch
import PxqLlama.Proofs.Dsv4.Snapshot
import PxqLlama.Proofs.Kv.DefragRows
import PxqLlama.Proofs.Kv.SwaWindow
import PxqLlama.Proofs.Kv.Placement
import PxqLlama.Proofs.Kv.SavedRows
import PxqLlama.Proofs.Kv.PartialRestore
import PxqLlama.Proofs.Kv.Truncation
import PxqLlama.Proofs.Kv.StateFile
import PxqLlama.Proofs.Ple.Rows
import PxqLlama.Proofs.Server.StopWords
import PxqLlama.Proofs.Server.PromptCache
import PxqLlama.Proofs.Server.TaskQueue
import PxqLlama.Proofs.Server.Sample
import PxqLlama.Proofs.Server.FailedDecode
import PxqLlama.Proofs.Kv.StepCapture
import PxqLlama.Proofs.Grammar.MaskAgrees
import PxqLlama.Proofs.Server.AnthropicStream
import PxqLlama.Proofs.Server.LaunchSlot
import PxqLlama.Proofs.Spec.SuffixTree
import PxqLlama.Proofs.Spec.DraftModel
import PxqLlama.Proofs.Spec.MtpPrefetch
import PxqLlama.Proofs.Grammar.Language
import PxqLlama.Proofs.Pxq.HeadOrder
import PxqLlama.Proofs.Kv.CellShadow
import PxqLlama.Proofs.Kv.SeqBounds
import PxqLlama.Proofs.Sampling.ReasoningBudget
import PxqLlama.Proofs.Dsv4.Rewind
import PxqLlama.Proofs.Pxq.SubBlock
import PxqLlama.Proofs.Common.RegexPartial
import PxqLlama.Proofs.Kv.SeqArrays
import PxqLlama.Proofs.Spec.DsparkSched
import PxqLlama.Proofs.Sampling.TokenMatcher
import PxqLlama.Proofs.Spec.NgramDraft
import PxqLlama.Proofs.Spec.NgramCacheFile
import PxqLlama.Proofs.Server.PromptShift
import PxqLlama.Proofs.Server.SlotPositions
import PxqLlama.Proofs.Sampling.ExpiringBias
import PxqLlama.Proofs.Spec.NgramDominant
import PxqLlama.Proofs.Server.TickBatch
import PxqLlama.Proofs.Server.SelfExtend
import PxqLlama.Proofs.Sampling.Rollback
import PxqLlama.Proofs.Server.TokenOps
import PxqLlama.Proofs.Server.MediaPrefix
import PxqLlama.Proofs.Server.BanText
import PxqLlama.Proofs.Grammar.PartialChar
import PxqLlama.Proofs.Ggml.Hadamard
import PxqLlama.Proofs.Pxq.ConvertPlan
import PxqLlama.Proofs.Grammar.Parser
import PxqLlama.Proofs.Common.SchemaPattern
