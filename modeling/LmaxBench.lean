import LmaxBench.Lib.Loop
import LmaxBench.Lib.Follow
import LmaxBench.Lib.OrdMap
import LmaxBench.Lib.Word
import LmaxBench.Lib.Signed
import LmaxBench.Lib.Mix
import LmaxBench.Lib.Greedy
import LmaxBench.Lib.SpscRing
import LmaxBench.Lib.Double
import LmaxBench.Lib.Window
import LmaxBench.Lib.Pipeline
import LmaxBench.Cpp.Workload
import LmaxBench.Cpp.Book
import LmaxBench.Cpp.BookLoops
import LmaxBench.Cpp.BookInvariant
import LmaxBench.Cpp.TunedBook
import LmaxBench.Cpp.TunedLoops
import LmaxBench.Cpp.TunedRefine
import LmaxBench.Cpp.TunedRun
import LmaxBench.Cpp.BookPlacement
import LmaxBench.Cpp.TunedConformance
import LmaxBench.Cpp.Ledger
import LmaxBench.Cpp.Market
import LmaxBench.Cpp.EagerCancel
import LmaxBench.Cpp.Termination
import LmaxBench.Cpp.Splitting
import LmaxBench.Cpp.CancelCommutes
import LmaxBench.Cpp.PriceTime
import LmaxBench.Cpp.Stream
import LmaxBench.Cpp.Ring
import LmaxBench.Cpp.Harness
import LmaxBench.Cpp.HarnessRun
import LmaxBench.Go.Workload
import LmaxBench.Rust.Workload
import LmaxBench.Java.Workload
import LmaxBench.Conformance.Streams
import LmaxBench.Conformance.Operations
import LmaxBench.Rust.Book
import LmaxBench.Rust.BookRefine
import LmaxBench.Rust.TunedBook
import LmaxBench.Rust.TunedRefine
import LmaxBench.Go.Book
import LmaxBench.Go.BookRefine
import LmaxBench.Go.Ring
import LmaxBench.Go.TunedBook
import LmaxBench.Cpp.TunedBounds
import LmaxBench.Go.TunedRefine
import LmaxBench.Java.TunedBook
import LmaxBench.Java.TunedRefine
import LmaxBench.Java.Book
import LmaxBench.Java.BookRefine
import LmaxBench.Java.CoreHandler
import LmaxBench.Rust.Core
import LmaxBench.Conformance.Measurement
import LmaxBench.Conformance.Tuned
import LmaxBench.Conformance.Books
import LmaxBench.Conformance.CommandLine
import LmaxBench.Cpp.Accounting
import LmaxBench.Cpp.Progress
import LmaxBench.Cpp.Slots
import LmaxBench.Cpp.Latency
import LmaxBench.Cpp.PrintResult
import LmaxBench.Cpp.Orbit
import LmaxBench.Java.TunedRange
import LmaxBench.Java.Harness
import LmaxBench.Java.Pacing
import LmaxBench.Java.Schedule
import LmaxBench.Java.HarnessRun
import LmaxBench.Go.Harness
import LmaxBench.Go.HarnessRun
import LmaxBench.Go.HarnessFinish
import LmaxBench.Lib.Fair
import LmaxBench.Lib.Rank
import LmaxBench.Cpp.Percentiles
import LmaxBench.Go.HarnessFair
import LmaxBench.Cpp.HarnessFair
import LmaxBench.Rust.HarnessFair
import LmaxBench.Java.HarnessFair
import LmaxBench.Rust.Harness
import LmaxBench.Rust.HarnessRun
import LmaxBench.Rust.HarnessFinish
import LmaxBench.Cpp.Checksum
import LmaxBench.Cpp.Mirror
import LmaxBench.Cpp.MarketRun
import LmaxBench.Cpp.Relist
import LmaxBench.Cpp.Reorder
import LmaxBench.Cpp.Relabel
import LmaxBench.Lib.Cost
import LmaxBench.Cpp.Work
import LmaxBench.Conformance.Engines
import LmaxBench.Conformance.Suite
import LmaxBench.Conformance.Completion
