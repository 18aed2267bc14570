import Siphon.Lib.Rounding
import Siphon.Types
import Siphon.Layout.Model
import Siphon.Layout.Steps
import Siphon.Layout.Watermark
import Siphon.Layout.Plan
import Siphon.Layout.Payload
import Siphon.Layout.Progress
import Siphon.Lib.Machine
import Siphon.Runtime.Model
import Siphon.Runtime.Invariant
import Siphon.Runtime.Run
import Siphon.Executor.Model
import Siphon.Manager
import Siphon.Executor.Delivery
import Siphon.Executor.Run
import Siphon.Io.Rank
import Siphon.Io.Completion
import Siphon.Lib.Trie
import Siphon.Lib.Utf8
import Siphon.Rwkv.Tokenizer
import Siphon.Lib.U64
import Siphon.Stloader.Header
import Siphon.Stloader.Plan
import Siphon.Lib.Binary64
import Siphon.Lib.Ieee
import Siphon.Pyjson.Model
import Siphon.Pyjson.Grammar
import Siphon.Pyjson.Sound
import Siphon.Pyjson.Complete
import Siphon.Pyjson.Document
import Siphon.Pyjson.Written
import Siphon.Pyjson.RoundTrip
import Siphon.Chat.Template
import Siphon.Chat.Frame
import Siphon.Chat.Parse
import Siphon.Chat.RoundTrip
import Siphon.Chat.Split
import Siphon.Chat.Panic
import Siphon.Chat.Content
import Siphon.Chat.Turns
import Siphon.Chat.Blocks
import Siphon.Chat.Framing
import Siphon.Frontend.Params
import Siphon.Frontend.Agreement
import Siphon.Lib.Regex
import Siphon.Qwen.Pretokenizer
import Siphon.Qwen.Nfc
import Siphon.Qwen.Tokenizer
import Siphon.Qwen.Vocabulary
import Siphon.Qwen.RoundTrip
import Siphon.Qwen.Added
import Siphon.Lib.Rows
import Siphon.Qwen.Tensor
import Siphon.Qwen.Delta
import Siphon.Qwen.Gdn
import Siphon.Qwen.Attention
import Siphon.Qwen.Model
import Siphon.Qwen.Cached
import Siphon.Bundle.Model
import Siphon.Bundle.Compare
import Siphon.Qwen.Sample
import Siphon.Qwen.Draw
import Siphon.Qwen.Greedy
import Siphon.Lib.Launch
import Siphon.Lib.Mealy
import Siphon.Lib.Reduce
import Siphon.Rwkv.Gemv
import Siphon.Rwkv.Wkv
import Siphon.Qwen.Merge
import Siphon.Qwen.Segments
import Siphon.Stloader.Total
import Siphon.Lib.Widening
import Siphon.Qwen.Decode
import Siphon.Qwen.Shard
import Siphon.Frontend.Sizing
import Siphon.Frontend.Open
import Siphon.Frontend.Views
import Siphon.Frontend.Residency
import Siphon.Rwkv.Repr
import Siphon.Rwkv.Lora
import Siphon.Rwkv.Post
import Siphon.Rwkv.Model
import Siphon.Rwkv.Step
import Siphon.Lib.Merging
import Siphon.Stloader.Merge
import Siphon.Stloader.Reader
import Siphon.Lib.Slots
import Siphon.Stloader.Pool
import Siphon.Stloader.Small
import Siphon.Qwen.Linear
import Siphon.Qwen.Atomic
import Siphon.Qwen.Causal
import Siphon.Qwen.Stopping
import Siphon.Qwen.AttentionBatch
import Siphon.Qwen.GdnBatch
import Siphon.Lib.Batches
import Siphon.Qwen.Batch
import Siphon.Rwkv.Pass
import Siphon.Rwkv.Chunked
import Siphon.Rwkv.Batch
import Siphon.Rwkv.Workspace
import Siphon.Lib.Schedule
import Siphon.Rwkv.Lanes
import Siphon.Pyjson.Layout
import Siphon.Qwen.Ngram
import Siphon.Qwen.Lone
import Siphon.Lib.Ranking
import Siphon.Qwen.Exact
import Siphon.Qwen.Nucleus
import Siphon.Qwen.Typical
import Siphon.Qwen.InverseCdf
import Siphon.Qwen.Truncation
import Siphon.Lib.Runs
import Siphon.Qwen.Canonical
import Siphon.Qwen.Reorder
import Siphon.Lib.Mixing
import Siphon.Qwen.SplitMix
import Siphon.Qwen.Checkpoint
import Siphon.Qwen.Rejects
import Siphon.Qwen.Table
import Siphon.Qwen.Loaded
import Siphon.Qwen.Agreement
import Siphon.Qwen.Samplecheck
import Siphon.Qwen.Passing
import Siphon.Executor.Bounded
import Siphon.Close.Model
import Siphon.Close.Buffers
import Siphon.Close.Drain
import Siphon.Layout.Anchors
import Siphon.Layout.Holding
import Siphon.Ranks.Delivered
import Siphon.Ranks.InOrder
import Siphon.Rpc.Calls
import Siphon.Rpc.Progress
import Siphon.Rpc.Return
import Siphon.Frontend.Yielded
import Siphon.Rwkv.Generate
