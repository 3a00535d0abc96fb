import LlmServing.Lib.Machine
import LlmServing.Lib.Pool
import LlmServing.Lib.Writes
import LlmServing.Lib.Generate
import LlmServing.Lib.Keyed
import LlmServing.Lib.BoundedQueue
import LlmServing.Lib.Launch
import LlmServing.Lib.Spans
import LlmServing.Lib.OnlineSoftmax
import LlmServing.Scheduling.Sequence
import LlmServing.Scheduling.Allocator
import LlmServing.Scheduling.Dispatch
import LlmServing.Scheduling.Scheduler
import LlmServing.Scheduling.Planning
import LlmServing.Scheduling.Results
import LlmServing.Runner.ModelRunner
import LlmServing.Runner.Rows
import LlmServing.Runner.Hf
import LlmServing.Runner.DecodeGraph
import LlmServing.Runner.Buckets
import LlmServing.Runner.Contiguous
import LlmServing.Engine.Loop
import LlmServing.Engine.Pieces
import LlmServing.Engine.Consistent
import LlmServing.Engine.Delivery
import LlmServing.Engine.Memory
import LlmServing.Engine.Reference
import LlmServing.Engine.Plans
import LlmServing.Engine.Iteration
import LlmServing.Engine.Remaining
import LlmServing.Engine.Starvation
import LlmServing.Paged.Ownership
import LlmServing.Paged.Rows
import LlmServing.Paged.Pool
import LlmServing.Paged.DecodeRows
import LlmServing.Paged.DecodeGraphs
import LlmServing.Paged.Paths
import LlmServing.Paged.Stall
import LlmServing.Paged.Preemption
import LlmServing.Paged.Headroom
import LlmServing.Paged.Rejection
import LlmServing.Paged.Starvation
import LlmServing.Threads.System
import LlmServing.Threads.HandOff
import LlmServing.Threads.Shutdown
import LlmServing.Threads.Refinement
import LlmServing.Threads.Accounting
import LlmServing.Threads.Endings
import LlmServing.Threads.Switch
import LlmServing.Contiguous.Reservation
import LlmServing.Contiguous.Buffers
import LlmServing.Contiguous.Drain
import LlmServing.Clients.Channels
import LlmServing.Clients.Delivery
import LlmServing.Kernels.Tiles
import LlmServing.Kernels.FlashAttention
import LlmServing.Kernels.Programs
import LlmServing.Kernels.Softmax
import LlmServing.Kernels.Paged
import LlmServing.Paged.Attention
import LlmServing.Lib.Decimal
import LlmServing.Lib.Ranks
import LlmServing.Lib.Apportion
import LlmServing.Lib.Nucleus
import LlmServing.Lib.Transducer
import LlmServing.Lib.Utf8
import LlmServing.Lib.Json
import LlmServing.Lib.Lines
import LlmServing.Observability.Metrics
import LlmServing.LoadGen.Schedule
import LlmServing.Runner.Sampling
import LlmServing.Server.Tokenizer
import LlmServing.Server.Stream
import LlmServing.LoadGen.Client
import LlmServing.Engine.Batches
import LlmServing.Contiguous.Batches
import LlmServing.Paged.Batches
import LlmServing.Lib.CausalStack
import LlmServing.Engine.Views
import LlmServing.Engine.Sampled
import LlmServing.Decoder.Modules
import LlmServing.Decoder.Rows
import LlmServing.Decoder.Segments
import LlmServing.Decoder.Inputs
import LlmServing.Decoder.Batch
import LlmServing.Decoder.Emit
import LlmServing.Decoder.Paged
import LlmServing.Decoder.PagedRuns
import LlmServing.Decoder.Progress
import LlmServing.Decoder.Correct
import LlmServing.Lib.Visits
import LlmServing.Decoder.Contiguous
import LlmServing.Decoder.ContiguousRuns
import LlmServing.Decoder.Hf
import LlmServing.Decoder.Agreement
import LlmServing.Decoder.Kernel
import LlmServing.Engine.Turns
import LlmServing.Paged.Line
import LlmServing.Paged.Drain
import LlmServing.Observability.Requests
import LlmServing.Engine.Timeline
import LlmServing.LoadGen.Timing
import LlmServing.LoadGen.Arrivals
import LlmServing.Lib.Unordered
import LlmServing.Lib.Fallible
import LlmServing.Lib.Incremental
import LlmServing.Web.Console
import LlmServing.LoadGen.Report
import LlmServing.LoadGen.Reordered
