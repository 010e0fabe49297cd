import ActQuant.Hsic.QuantPipeline
import ActQuant.Fisher.Amf
import ActQuant.Fisher.RowOrder
import ActQuant.Hsic.SampleAlign
import ActQuant.Hsic.InputCache
import ActQuant.Pi05.Context
import ActQuant.Pi05.Placeholder
import ActQuant.Quant.ImatrixSlices
import ActQuant.Vision.Keeps
import ActQuant.Pi05.MergeTensors
import ActQuant.Fisher.CalibFrames
import ActQuant.Quantize.OutputRun
import ActQuant.KvCache.Shifts
import ActQuant.Context.Outputs
import ActQuant.Sampling.ChainFlag
import ActQuant.KQuant.ImatrixRows
import ActQuant.Grammar.PartialChar
import ActQuant.NgramCache.File
import ActQuant.NgramCache.Draft
import ActQuant.Tokenizer.Spm
import ActQuant.Tokenizer.Bpe
import ActQuant.Alloc.FullArray
import ActQuant.Hsic.QuantMenu
import ActQuant.Hsic.AllocateRun
import ActQuant.Hsic.LinearKernel
import ActQuant.Quant.ParallelDequant
import ActQuant.Tokenizer.Rwkv
import ActQuant.Tokenizer.Ugm
import ActQuant.Recurrent.Placement
import ActQuant.KvCache.BookedRuns
import ActQuant.Sampling.PenaltyWindow
import ActQuant.Hsic.BaselineHeuristics
import ActQuant.Pi05.OdeLoop
import ActQuant.OpenVla.ActionTokens
import ActQuant.Pi05.ServePolicy
import ActQuant.Pi05.TextEmbed
import ActQuant.Pi05.QuantPlan
import ActQuant.Pi05.SuffixMemory
import ActQuant.Sampling.FastFilters
import ActQuant.Grammar.IntegerRange
import ActQuant.Grammar.ObjectPairs
import ActQuant.Grammar.Generation
import ActQuant.KvCache.Attention
