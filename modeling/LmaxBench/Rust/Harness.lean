import LmaxBench.Rust.Core

/-!
# The harness in Rust

`run` of `rust/src/harness.rs`: the main thread draws operations from the generator, paces them
if there is a rate, and publishes them with the producer of the crate `disruptor`, followed by
one event that asks for the report; the crate's thread hands the events to the core. Then the
main thread drops the producer, which waits until all events are handled, and takes the report.

What is used of the crate is that it hands over the published events in order and once each. The
main thread fills in an event through a closure, which may leave fields of the slot as they were.
`handled` and `times` keep the events handled and when they were; no thread reads them.

## Main definitions

* `Disruptor`, `Disruptor.Ordered`, `Disruptor.Live` — the ring buffer.
* `Params.interval` — the pacing, which a rate of zero does not survive.
* `Harness`, `Harness.producerStep`, `Harness.consumerStep`, `Harness.run` — the two threads.
-/

namespace LmaxBench.Rust

def kindReport : UInt8 := 2

/-! ## The crate -/

/-- What the harness asks of the crate `disruptor`. A call that has to wait is `none`. -/
structure Disruptor (ρ : Type) where
  /-- `producer.publish(update)`, which waits while the ring is full. -/
  publish : ρ → (Event → Event) → Option ρ
  /-- The event that is handed over to the handler next. -/
  take : ρ → Option (Event × ρ)
  /-- `drop(producer)`, which waits until all events are handled. -/
  drop : ρ → Option Unit

/-- The events are handed over in the order in which they were published, once each, and all of
them before the producer is dropped. -/
structure Disruptor.Ordered {ρ : Type} (D : Disruptor ρ) (pending : ρ → List Event) : Prop where
  publish : ∀ {r f r'}, D.publish r f = some r' → ∃ e, pending r' = pending r ++ [f e]
  take : ∀ {r e r'}, D.take r = some (e, r') → pending r = e :: pending r'
  drop : ∀ {r}, D.drop r = some () → pending r = []

/-- A ring with a slot, and a handler that is not asleep: what has been published is handed over,
and when nothing is left, nobody waits. -/
structure Disruptor.Live {ρ : Type} (D : Disruptor ρ) (pending : ρ → List Event) : Prop where
  publish : ∀ {r}, pending r = [] → ∀ f, ∃ r', D.publish r f = some r'
  take : ∀ {r}, pending r ≠ [] → ∃ e r', D.take r = some (e, r')
  drop : ∀ {r}, pending r = [] → D.drop r = some ()

/-! ## The threads -/

/-- The arguments of `run`, but for `quiet`. -/
structure Params where
  totalOps : UInt64
  warmupOps : UInt64
  rate : Option UInt64
  deriving DecidableEq, Repr

/-- `rate.map(|r| 1_000_000_000 / r)`. The division by zero panics. -/
def Params.interval (c : Params) : Option (Option UInt64) :=
  match c.rate with
  | none => some none
  | some r => if r = 0 then none else some (some (1000000000 / r))

/-- The closure that fills in the event of an operation. -/
def fillOp (op : Op) (ts : UInt64) (_ : Event) : Event :=
  { kind := op.kind, side := op.side, price := op.price, qty := op.qty, id := op.id, ts }

/-- The closure that fills in the last event. -/
def fillReport (e : Event) : Event := { e with kind := kindReport, ts := 0 }

/-- Where the main thread is: at the head of its loop, pacing an operation, publishing it,
publishing the request for the report, dropping the producer, or past that. -/
inductive Stage
  | next
  | pace (op : Op)
  | publish (op : Op) (ts : UInt64)
  | request
  | drop
  | joined
  deriving DecidableEq, Repr

/-- The clock, the ring buffer, the locals of the main thread, and the core. -/
structure Harness (ρ H : Type) where
  /-- `epoch.elapsed().as_nanos() as u64`. -/
  now : UInt64
  ring : ρ
  stage : Stage := .next
  i : UInt64 := 0
  wl : Gen := Gen.new 42
  nextDue : UInt64
  core : Core H
  handled : List Event := []
  times : List UInt64 := []

/-- Who moves: the clock, or one of the threads. -/
inductive Turn
  | tick (now : UInt64)
  | producer
  | consumer
  deriving DecidableEq, Repr

namespace Harness

variable {ρ H : Type}

/-- The main thread, with the interval it paces with. -/
def producerStep (D : Disruptor ρ) (c : Params) (interval : Option UInt64) (s : Harness ρ H) :
    Option (Harness ρ H) :=
  match s.stage with
  | .next =>
    some (if s.i < c.totalOps then
      let (op, wl) := s.wl.nextOp
      match interval with
      | some iv => { s with wl, nextDue := s.nextDue + iv, stage := .pace op }
      | none => { s with wl, stage := .publish op 0 }
    else { s with stage := .request })
  | .pace op =>
    some (if s.now < s.nextDue then s
    else { s with stage := .publish op (if c.warmupOps ≤ s.i then s.nextDue else 0) })
  | .publish op ts => do
    let ring ← D.publish s.ring (fillOp op ts)
    some { s with ring, i := s.i + 1, stage := .next }
  | .request => do
    let ring ← D.publish s.ring fillReport
    some { s with ring, stage := .drop }
  | .drop => do
    D.drop s.ring
    some { s with stage := .joined }
  | .joined => none

/-- The crate's thread. -/
def consumerStep (R : Hdr H) (D : Disruptor ρ) (s : Harness ρ H) : Option (Harness ρ H) := do
  let (e, ring) ← D.take s.ring
  let core ← s.core.onEvent R e s.now
  some { s with ring, core, handled := s.handled ++ [e], times := s.times ++ [s.now] }

def step (R : Hdr H) (D : Disruptor ρ) (c : Params) (interval : Option UInt64)
    (s : Harness ρ H) : Turn → Option (Harness ρ H)
  | .tick now => if s.now ≤ now then some { s with now } else none
  | .producer => s.producerStep D c interval
  | .consumer => s.consumerStep R D

/-- The state in which the two threads start, with an empty ring and histogram. -/
def start (book : AnyBook) (hist : H) (ring : ρ) (now : UInt64) : Harness ρ H :=
  { now, ring, nextDue := now, core := { book, hist } }

/-- An interleaving of the two threads, and of the clock. -/
def run (R : Hdr H) (D : Disruptor ρ) (c : Params) (book : AnyBook) (hist : H) (ring : ρ)
    (now : UInt64) (turns : List Turn) : Option (Harness ρ H) := do
  let interval ← c.interval
  turns.foldlM (step R D c interval) (start book hist ring now)

end Harness
end LmaxBench.Rust
