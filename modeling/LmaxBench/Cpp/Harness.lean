import LmaxBench.Cpp.Ring
import LmaxBench.Cpp.TunedBook

/-!
# The pipeline

`run_impl` of `main.cpp`: a producer thread that draws operations from the generator,
paces them if there is a rate, and sends them through the ring, followed by one event that
asks for the report; and a consumer thread that applies what it drains to an engine of
either kind, and takes a sample for every event with a time stamp. Where the room for the
samples cannot be reserved or the engine cannot be constructed, the exception ends the process,
and there is no run.

Each thread is a step function on the shared state, and a run is a list of turns, each
taken by one of the threads or by the clock. The clock only moves forward.

## Main definitions

* `Engine` — what `run_impl` asks of its template parameter.
* `Harness`, `Harness.start` — the state with which the two threads start, if they do.
* `Harness.producerStep`, `Harness.consumerStep` — the two threads.
* `Harness.run` — an interleaving of the two.
-/

namespace LmaxBench.Cpp

/-! ## The engines -/

/-- The `max_size()` of a vector whose elements take `bytes` bytes each: no object is larger
than the largest difference of two pointers. -/
def maxSize (bytes : ℕ) : ℕ := (2 ^ 63 - 1) / bytes

/-- The template parameter `BookT`. A constructor that throws and an operation that faults are
`none`. -/
structure Engine (σ : Type) where
  new : UInt64 → Option σ
  limit : σ → UInt8 → ℤ → ℤ → UInt64 → Option σ
  cancel : σ → UInt64 → Option σ
  fills : σ → UInt64
  volume : σ → UInt64
  resting : σ → ℕ
  checksum : σ → Option UInt64

/-- The idiomatic book ignores the size it is built for. -/
def Book.engine : Engine Book where
  new _ := some {}
  limit b side price qty id := some (b.limit side price qty id)
  cancel b id := some (b.cancel id)
  fills := Book.fills
  volume := Book.volume
  resting := Book.resting
  checksum b := some b.checksum

/-- The tuned book has a record of two words for each id, and throws `std::length_error` if they
are too many. -/
def TunedBook.engine : Engine TunedBook where
  new maxId := if (maxId + 2).toNat ≤ maxSize 16 then some (TunedBook.new maxId) else none
  limit := TunedBook.limit
  cancel := TunedBook.cancel
  fills := TunedBook.fills
  volume := TunedBook.volume
  resting := TunedBook.resting
  checksum := TunedBook.checksum

namespace Engine

variable {σ : Type}

def apply (E : Engine σ) (book : σ) : Op → Option σ
  | .limit side price qty id => E.limit book side price qty id
  | .cancel id => E.cancel book id

/-- The sequential fold of the engine over the operations. -/
def run (E : Engine σ) (n : UInt64) (ops : List Op) : Option σ := do
  let book ← E.new n
  ops.foldlM E.apply book

end Engine

/-- `struct Report`. -/
structure Report where
  fills : UInt64 := 0
  volume : UInt64 := 0
  checksum : UInt64 := 0
  resting : ℕ := 0
  samples : List UInt32 := []
  deriving DecidableEq, Repr

/-- The latency sample of an event stamped `ts` that is handled at the time `now`. -/
def Report.sample (rep : Report) (now ts : UInt64) : Report :=
  if ts ≠ 0 then
    { rep with samples := rep.samples ++ [(min (max (now - ts) 1) 0xFFFFFFFF).toUInt32] }
  else rep

/-- The `switch` of the consumer: the operation an event asks for. In the `default` case,
the consumer reports and is done. -/
def Event.op? (e : Event) : Option Op :=
  if e.kind = kindLimit then some (.limit e.side e.price e.qty e.id)
  else if e.kind = kindCancel then some (.cancel e.id)
  else none

def Event.isReport (e : Event) : Bool := e.op?.isNone

/-! ## The threads -/

/-- The arguments of `run_impl`, and the size of its ring. -/
structure Params where
  size : UInt64 := ringSize
  totalOps : UInt64
  warmupOps : UInt64
  rate : UInt64
  deriving DecidableEq, Repr

/-- The time between two operations; without pacing it is zero. -/
def Params.interval (c : Params) : UInt64 := if 0 < c.rate then 1000000000 / c.rate else 0

/-- The room for the samples that is asked for when there is a rate, by a sum of words. -/
def Params.room (c : Params) : UInt64 := c.totalOps - c.warmupOps + 16

/-- `rep.samples.reserve(total_ops - warmup_ops + 16)` does not throw `std::length_error`. -/
def Params.Reserves (c : Params) : Prop := 0 < c.rate → c.room.toNat ≤ maxSize 4

instance (c : Params) : Decidable c.Reserves := inferInstanceAs (Decidable (_ → _))

/-- Where the producer is: at the head of its loop, pacing an operation, sending it,
sending the request for the report, or waiting for the consumer to end. While it sends,
the stores it still has to make are left. -/
inductive Stage
  | next
  | pace
  | send (todo : List Store)
  | report (todo : List Store)
  | join
  deriving DecidableEq, Repr

/-- The stores that fill in the event of the operation `g` drew. -/
def opStores (g : Gen) (ts : UInt64) : List Store :=
  [.kind g.kind, .side g.side, .price g.price, .qty g.qty, .id g.id, .ts ts]

/-- The stores that fill in the last event. -/
def reportStores : List Store := [.kind kindReport, .ts 0]

/-- The clock, the ring, and the locals of the producer and of the consumer. -/
structure Harness (σ : Type) where
  /-- The reading of `nanos_since(epoch)`. -/
  now : UInt64
  pipe : Pipe
  stage : Stage := .next
  i : UInt64 := 0
  wl : Gen := Gen.new 42
  nextDue : UInt64
  book : σ
  rep : Report := {}

/-- Who moves: the clock, or one of the threads. -/
inductive Turn
  | tick (now : UInt64)
  | producer
  | consumer
  deriving DecidableEq, Repr

/-- One step of sending an event: `claim`, the next store, or `publish`, after which
nothing is left. -/
def Pipe.send (N : UInt64) (p : Pipe) (todo : List Store) : Option (Pipe × Option (List Store)) :=
  match p.producer, todo with
  | .idle, todo => (p.step N Event.isReport .claim).map fun p => (p, some todo)
  | .spinning, todo => (p.step N Event.isReport .reload).map fun p => (p, some todo)
  | .writing _, st :: todo => (p.step N Event.isReport (.write st)).map fun p => (p, some todo)
  | .writing _, [] => (p.step N Event.isReport .publish).map fun p => (p, none)

namespace Harness

variable {σ : Type}

/-- The state in which the two threads start. The samples are reserved before there is a
consumer, and the engine is constructed by the consumer; an exception of either ends the
process. -/
def start (E : Engine σ) (c : Params) (now : UInt64) : Option (Harness σ) :=
  if c.Reserves then do
    let book ← E.new c.totalOps
    some { now, pipe := Pipe.new c.size, nextDue := now, book }
  else none

/-- One step of the producer. -/
def producerStep (c : Params) (s : Harness σ) : Option (Harness σ) :=
  match s.stage with
  | .next =>
    if s.i < c.totalOps then
      let wl := s.wl.nextOp
      some
        (if 0 < c.interval then
          { s with wl, nextDue := s.nextDue + c.interval, stage := .pace }
        else { s with wl, stage := .send (opStores wl 0) })
    else some { s with stage := .report reportStores }
  | .pace =>
    -- busy-spin pacing
    if s.now < s.nextDue then some s
    else
      let ts := if c.warmupOps ≤ s.i then s.nextDue else 0
      some { s with stage := .send (opStores s.wl ts) }
  | .send todo => do
    let (pipe, left) ← s.pipe.send c.size todo
    match left with
    | some todo => some { s with pipe, stage := .send todo }
    | none => some { s with pipe, stage := .next, i := s.i + 1 }
  | .report todo => do
    let (pipe, left) ← s.pipe.send c.size todo
    match left with
    | some todo => some { s with pipe, stage := .report todo }
    | none => some { s with pipe, stage := .join }
  | .join => none

/-- The consumer's work on one event. -/
def handleEvent (E : Engine σ) (s : Harness σ) (e : Event) : Option (Harness σ) :=
  match e.op? with
  | some op => do
    let book ← E.apply s.book op
    some { s with book, rep := s.rep.sample s.now e.ts }
  | none => do
    let checksum ← E.checksum s.book
    some
      { s with
        rep :=
          { s.rep with
            fills := E.fills s.book
            volume := E.volume s.book
            resting := E.resting s.book
            checksum } }

/-- One step of the consumer. -/
def consumerStep (E : Engine σ) (c : Params) (s : Harness σ) : Option (Harness σ) :=
  match s.pipe.consumer with
  | .waiting => do
    let pipe ← s.pipe.step c.size Event.isReport .load
    some { s with pipe }
  | .draining =>
    if s.pipe.seq < s.pipe.avail then do
      let e ← s.pipe.next?
      let pipe ← s.pipe.step c.size Event.isReport .handle
      handleEvent E { s with pipe } e
    else do
      let pipe ← s.pipe.step c.size Event.isReport .store
      some { s with pipe }
  | .stopped => none

/-- One turn; a turn that cannot be taken is `none`. -/
def step (E : Engine σ) (c : Params) (s : Harness σ) : Turn → Option (Harness σ)
  | .tick now => if s.now ≤ now then some { s with now } else none
  | .producer => s.producerStep c
  | .consumer => s.consumerStep E c

/-- An interleaving, from the reading `now` of the clock at the start. -/
def run (E : Engine σ) (c : Params) (now : UInt64) (turns : List Turn) : Option (Harness σ) :=
  (start E c now).bind fun s => turns.foldlM (step E c) s

end Harness
end LmaxBench.Cpp
