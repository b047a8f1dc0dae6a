import LmaxBench.Go.Book
import LmaxBench.Go.Ring
import LmaxBench.Go.TunedBook

/-!
# The harness in Go

`run` of `go/harness.go`: the main goroutine draws operations from the generator, paces them if
there is a rate, and sends them through the ring, followed by one event that asks for the report;
the other goroutine applies what it finds in the ring to an engine, records a latency for every
operation with a time stamp, and sends its report through a channel.

The histogram is a package; the error of a recording is dropped, so what matters is how the
histogram changes. `times` keeps when each event was handled, and no goroutine reads it. Where the
slices of the tuned book are too long for `make`, the panic ends the process, and there is no run.

## Main definitions

* `Engine` — the interface `engine`, and the two books behind it.
* `Hdr`, `Report`.
* `Harness`, `Harness.start` — the state with which the two goroutines start, if they do.
* `Harness.producerStep`, `Harness.consumerStep` — the two goroutines.
* `Harness.run` — an interleaving of the two.
-/

namespace LmaxBench.Go

/-! ## The engines -/

/-- What `stats` returns: the fills, the volume, the number of live orders and the checksum. -/
abbrev Stats := UInt64 × UInt64 × ℤ × UInt64

/-- The length above which `make` panics for a slice of words: the address space of a process has
`2 ^ 48` bytes. -/
def maxLen : ℕ := 2 ^ 45

/-- The interface `engine`, with the constructor. A call that panics is `none`. -/
structure Engine (σ : Type) where
  new : UInt64 → Option σ
  limit : σ → UInt8 → ℤ → ℤ → UInt64 → Option σ
  cancel : σ → UInt64 → Option σ
  stats : σ → Option Stats

/-- `newBook` takes no size. -/
def Book.engine : Engine Book where
  new _ := some {}
  limit := Book.limit
  cancel b id := some (b.cancel id)
  stats b := b.checksum.map fun checksum => (b.fills, b.volume, (b.orders.size : ℤ), checksum)

/-- `newTunedBook` makes two slices with a word for each id. -/
def TunedBook.engine : Engine TunedBook where
  new maxID := if (maxID + 2).toNat ≤ maxLen then some (TunedBook.new maxID) else none
  limit := TunedBook.limit
  cancel := TunedBook.cancel
  stats b := b.checksum.map fun checksum => (b.fills, b.volume, b.live.toInt, checksum)

namespace Engine

variable {σ : Type}

def apply (E : Engine σ) (b : σ) : Cpp.Op → Option σ
  | .limit side price qty id => E.limit b side price qty id
  | .cancel id => E.cancel b id

/-- The sequential fold of the engine over the operations. -/
def run (E : Engine σ) (n : UInt64) (ops : List Cpp.Op) : Option σ := do
  let b ← E.new n
  ops.foldlM E.apply b

end Engine

/-! ## Events -/

def kindReport : UInt8 := 2

/-- The operation an event asks for. In the `default` case, the consumer reports and returns. -/
def Event.op? (e : Event) : Option Cpp.Op :=
  if e.kind = kindLimit then some (.limit e.side e.price.toInt e.qty.toInt e.id)
  else if e.kind = kindCancel then some (.cancel e.id)
  else none

/-- What an event asks for, with its time stamp. -/
def Event.request? (e : Event) : Option (Cpp.Op × UInt64) := e.op?.map fun op => (op, e.ts)

/-- What the harness asks of the package's `Histogram`. -/
structure Hdr (H : Type) where
  /-- `hdr.New`, with the bounds of the harness. -/
  new : H
  /-- What `RecordValue` leaves. -/
  recordValue : H → Int64 → H

/-- The recording of an event stamped `ts` that is handled at the time `now`. -/
def Hdr.measure {H : Type} (R : Hdr H) (hist : H) (now ts : UInt64) : H :=
  if ts ≠ 0 then R.recordValue hist (max (now - ts).toInt64 1) else hist

/-- `report`; `stats` is what it says of the matching. -/
structure Report (H : Type) where
  stats : Stats
  hist : H

/-! ## The goroutines -/

/-- The arguments of `run`, but for `quiet`. -/
structure Params where
  totalOps : UInt64
  warmupOps : UInt64
  rate : UInt64
  deriving DecidableEq, Repr

/-- The time between two operations; without pacing it is zero. -/
def Params.interval (c : Params) : UInt64 := if 0 < c.rate then 1000000000 / c.rate else 0

/-- Where the main goroutine is: at the head of its loop, pacing an operation, sending it, sending
the request for the report, waiting for the report, or past it. While it sends, the stores it
still has to make are left. -/
inductive Stage
  | next
  | pace
  | send (todo : List Store)
  | request (todo : List Store)
  | await
  | returned
  deriving DecidableEq

/-- The stores that fill in the event of the operation `g` drew. -/
def opStores (g : Gen) (ts : UInt64) : List Store :=
  [.kind g.kind, .side g.side, .price (Int64.ofInt g.price), .qty (Int64.ofInt g.qty), .id g.id,
    .ts ts]

/-- The stores that fill in the last event. -/
def reportStores : List Store := [.kind kindReport, .ts 0]

/-- The clock, the ring, the channel, and the locals of the two goroutines. -/
structure Harness (σ H : Type) where
  /-- `uint64(time.Since(epoch).Nanoseconds())`. -/
  now : UInt64
  pipe : Pipe
  stage : Stage := .next
  i : UInt64 := 0
  wl : Gen := Gen.new 42
  nextDue : UInt64
  book : σ
  hist : H
  /-- What is in the channel. -/
  done : Option (Report H) := none
  times : List UInt64 := []

/-- Who moves: the clock, or one of the goroutines. -/
inductive Turn
  | tick (now : UInt64)
  | producer
  | consumer
  deriving DecidableEq, Repr

/-- One step of sending an event: `claim`, a round of its spin loop, the next store, or
`publish`, after which nothing is left. -/
def Pipe.send (p : Pipe) (todo : List Store) : Option (Pipe × Option (List Store)) :=
  match p.producer, todo with
  | .idle, todo => (p.step .claim).map fun p => (p, some todo)
  | .spinning _, todo => (p.step .test).map fun p => (p, some todo)
  | .writing _, st :: todo => (p.step (.write st)).map fun p => (p, some todo)
  | .writing _, [] => (p.step .publish).map fun p => (p, none)

namespace Harness

variable {σ H : Type}

/-- The state in which the two goroutines start. The engine is made by the consumer; its panic
ends the process. -/
def start (E : Engine σ) (R : Hdr H) (c : Params) (now : UInt64) : Option (Harness σ H) := do
  let book ← E.new c.totalOps
  some { now, pipe := Pipe.new, nextDue := now, book, hist := R.new }

/-- One step of the main goroutine. -/
def producerStep (c : Params) (s : Harness σ H) : Option (Harness σ H) :=
  match s.stage with
  | .next =>
    if s.i < c.totalOps then
      let wl := s.wl.nextOp
      some
        (if 0 < c.interval then
          { s with wl, nextDue := s.nextDue + c.interval, stage := .pace }
        else { s with wl, stage := .send (opStores wl 0) })
    else some { s with stage := .request reportStores }
  | .pace =>
    -- busy-spin pacing
    if s.now < s.nextDue then some s
    else
      let ts := if c.warmupOps ≤ s.i then s.nextDue else 0
      some { s with stage := .send (opStores s.wl ts) }
  | .send todo => do
    let (pipe, left) ← s.pipe.send todo
    match left with
    | some todo => some { s with pipe, stage := .send todo }
    | none => some { s with pipe, stage := .next, i := s.i + 1 }
  | .request todo => do
    let (pipe, left) ← s.pipe.send todo
    match left with
    | some todo => some { s with pipe, stage := .request todo }
    | none => some { s with pipe, stage := .await }
  | .await => if s.done.isSome then some { s with stage := .returned } else none
  | .returned => none

/-- The consumer's work on one event. -/
def handleEvent (E : Engine σ) (R : Hdr H) (s : Harness σ H) (e : Event) : Option (Harness σ H) :=
  match e.op? with
  | some op => do
    let book ← E.apply s.book op
    some { s with book, hist := R.measure s.hist s.now e.ts, times := s.times ++ [s.now] }
  | none => do
    let stats ← E.stats s.book
    some { s with done := some { stats, hist := s.hist }, times := s.times ++ [s.now] }

/-- One step of the other goroutine. -/
def consumerStep (E : Engine σ) (R : Hdr H) (s : Harness σ H) : Option (Harness σ H) :=
  match s.pipe.consumer with
  | .waiting => do
    let pipe ← s.pipe.step .load
    some { s with pipe }
  | .ready => do
    let pipe ← s.pipe.step .take
    some { s with pipe }
  | .handling => do
    let e ← s.pipe.ring.buf[(s.pipe.ring.slot s.pipe.seq).toNat]?
    let pipe ← s.pipe.step .handle
    handleEvent E R { s with pipe } e
  | .releasing => do
    let pipe ← s.pipe.step .store
    some { s with pipe }
  | .stopped => none

/-- One turn; a turn that cannot be taken is `none`. -/
def step (E : Engine σ) (R : Hdr H) (c : Params) (s : Harness σ H) : Turn → Option (Harness σ H)
  | .tick now => if s.now ≤ now then some { s with now } else none
  | .producer => s.producerStep c
  | .consumer => s.consumerStep E R

/-- An interleaving, from the reading `now` of the clock at the start. -/
def run (E : Engine σ) (R : Hdr H) (c : Params) (now : UInt64) (turns : List Turn) :
    Option (Harness σ H) :=
  (start E R c now).bind fun s => turns.foldlM (step E R c) s

end Harness
end LmaxBench.Go
