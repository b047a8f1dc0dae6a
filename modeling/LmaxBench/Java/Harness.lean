import LmaxBench.Java.CoreHandler

/-!
# The harness in Java

`Harness.run` of the Java suite: the main thread draws operations from the generator, paces
them if there is a rate, and publishes them on the ring buffer of the Disruptor, followed by one
event that asks for the report; the Disruptor's thread hands the events to the core handler.

The Disruptor is a library; what is used of it here is that it hands over the published events
in order and once each. `System.nanoTime` has an arbitrary origin and wraps around: the time
that has elapsed since the first reading is a number, and a reading is a word.

## Main definitions

* `Disruptor`, `Disruptor.Ordered`, `Disruptor.Alive` — the ring buffer, and what is asked of it.
* `Disruptor.fifo` — a ring buffer, as the events in it.
* `nanoTime` — a reading of the clock.
* `Harness`, `Harness.producerStep`, `Harness.consumerStep`, `Harness.run` — the two threads.
-/

namespace LmaxBench.Java

/-! ## The Disruptor -/

/-- What the harness asks of the classes `RingBuffer` and `Disruptor`. A call that has to wait
is `none`. -/
structure Disruptor (ρ : Type) where
  /-- `rb.next()`, which waits while the ring is full. -/
  next : ρ → Option ρ
  /-- `rb.publish(seq)`, of the event at `rb.get(seq)`. -/
  publish : ρ → Ev → Option ρ
  /-- The event that is handed over to the handler next. -/
  take : ρ → Option (Ev × ρ)

/-- The events are handed over in the order in which they were published, once each. -/
structure Disruptor.Ordered {ρ : Type} (D : Disruptor ρ) (pending : ρ → List Ev) : Prop where
  next : ∀ {r r'}, D.next r = some r' → pending r' = pending r
  publish : ∀ {r e r'}, D.publish r e = some r' → pending r' = pending r ++ [e]
  take : ∀ {r e r'}, D.take r = some (e, r') → pending r = e :: pending r'

/-- A ring with a slot, and a handler that is not asleep: what has been published is handed over,
and when nothing is left, there is room. -/
structure Disruptor.Live {ρ : Type} (D : Disruptor ρ) (pending : ρ → List Ev) : Prop where
  next : ∀ {r}, pending r = [] → ∃ r', D.next r = some r'
  publish : ∀ {r r'}, D.next r = some r' → ∀ e, ∃ r'', D.publish r' e = some r''
  take : ∀ {r}, pending r ≠ [] → ∃ e r', D.take r = some (e, r')

/-- A slot that was claimed can be published, whatever is handed over in between. -/
structure Disruptor.Alive {ρ : Type} (D : Disruptor ρ) (pending : ρ → List Ev)
    (claimed : ρ → Prop) : Prop where
  next : ∀ {r}, pending r = [] → ∃ r', D.next r = some r'
  take : ∀ {r}, pending r ≠ [] → ∃ e r', D.take r = some (e, r')
  claims : ∀ {r r'}, D.next r = some r' → claimed r'
  keeps : ∀ {r e r'}, claimed r → D.take r = some (e, r') → claimed r'
  publish : ∀ {r}, claimed r → ∀ e, ∃ r', D.publish r e = some r'

theorem Disruptor.Alive.live {ρ : Type} {D : Disruptor ρ} {pending : ρ → List Ev}
    {claimed : ρ → Prop} (h : D.Alive pending claimed) : D.Live pending where
  next := h.next
  publish hnext := h.publish (h.claims hnext)
  take := h.take

/-! ## A ring buffer -/

/-- A ring buffer of `size` slots, as the events in it. -/
def Disruptor.fifo (size : ℕ) : Disruptor (List Ev) where
  next l := if l.length < size then some l else none
  publish l e := some (l ++ [e])
  take
    | [] => none
    | e :: l => some (e, l)

theorem Disruptor.fifo_ordered (size : ℕ) : (Disruptor.fifo size).Ordered id where
  next := by
    rintro l l' h
    simp only [fifo, Option.ite_none_right_eq_some] at h
    exact (Option.some.inj h.2).symm
  publish := by
    rintro l e l' h
    exact (Option.some.inj h).symm
  take := by
    rintro l e l' h
    cases l with
    | nil => simp [fifo] at h
    | cons e' rest =>
      obtain ⟨rfl, rfl⟩ := Prod.mk.inj (Option.some.inj h)
      rfl

theorem Disruptor.fifo_alive {size : ℕ} (h : 0 < size) :
    (Disruptor.fifo size).Alive id fun _ => True where
  next := by
    rintro l rfl
    exact ⟨[], if_pos h⟩
  take := by
    rintro l hne
    obtain ⟨e, rest, rfl⟩ := List.exists_cons_of_ne_nil hne
    exact ⟨e, rest, rfl⟩
  claims _ := trivial
  keeps _ _ := trivial
  publish _ _ := ⟨_, rfl⟩

def ringSize : ℕ := 65536

theorem ringSize_pos : 0 < ringSize := by decide

/-! ## The threads -/

/-- `System.nanoTime()`, where its first reading was `origin`. -/
def nanoTime (origin : Int64) (elapsed : ℕ) : Int64 := origin + Int64.ofNat elapsed

/-- The arguments of `Harness.run`. -/
structure Params where
  totalOps : Int64
  warmupOps : Int64
  rate : Int64
  deriving DecidableEq, Repr

/-- The time between two operations; without pacing it is zero. -/
def Params.interval (c : Params) : Int64 := if c.rate > 0 then 1000000000 / c.rate else 0

/-- The event that the producer fills in with the operation drawn. -/
def Workload.event (wl : Workload) (ts : Int64) : Ev :=
  { kind := wl.kind
    side := wl.side
    price := wl.price.toInt
    qty := wl.qty.toInt
    id := wl.id
    ts }

/-- The last event. The other fields of its slot stay what they were, and are not read. -/
def reportEvent : Ev := { kind := kindReport, ts := 0 }

/-- Where the producer is: at the head of its loop, pacing an operation, waiting for a slot,
publishing, or waiting for the backlog to drain. -/
inductive Stage
  | next
  | pace
  | claim (e : Ev)
  | publish (e : Ev)
  | shutdown
  deriving DecidableEq, Repr

/-- The clock, the ring buffer, the locals of the producer, and the handler. -/
structure Harness (ρ σ H : Type) where
  /-- The time since the first reading of the clock. -/
  elapsed : ℕ := 0
  ring : ρ
  stage : Stage := .next
  i : Int64 := 0
  wl : Workload := Workload.new 42
  nextDue : Int64
  core : CoreHandler σ H
  /-- The events published so far, each with the time at which it was. -/
  published : List (Ev × ℕ) := []
  /-- The events handled so far. -/
  handled : List Ev := []

/-- Who moves: the clock, or one of the threads. -/
inductive Turn
  | tick (d : ℕ)
  | producer
  | consumer
  deriving DecidableEq, Repr

namespace Harness

variable {ρ σ H : Type}

/-- The state at the first reading of the clock, with which the schedule starts. -/
def start (origin : Int64) (ring : ρ) (core : CoreHandler σ H) : Harness ρ σ H :=
  { ring, nextDue := origin, core }

/-- The main thread. -/
def producerStep (D : Disruptor ρ) (c : Params) (origin : Int64) (s : Harness ρ σ H) :
    Option (Harness ρ σ H) :=
  match s.stage with
  | .next =>
    some (if s.i < c.totalOps then
      let wl := s.wl.nextOp
      if c.interval > 0 then { s with wl, nextDue := s.nextDue + c.interval, stage := .pace }
      else { s with wl, stage := .claim (wl.event 0) }
    else { s with stage := .claim reportEvent })
  | .pace =>
    some (if nanoTime origin s.elapsed < s.nextDue then s
    else
      let ts := if s.i ≥ c.warmupOps then s.nextDue else 0
      { s with stage := .claim (s.wl.event ts) })
  | .claim e => do
    let ring ← D.next s.ring
    some { s with ring, stage := .publish e }
  | .publish e => do
    let ring ← D.publish s.ring e
    let s := { s with ring, published := s.published ++ [(e, s.elapsed)] }
    some (if e.kind = kindReport then { s with stage := .shutdown }
      else { s with i := s.i + 1, stage := .next })
  | .shutdown => none

/-- The Disruptor's thread. -/
def consumerStep (E : Engine σ) (R : Hdr H) (D : Disruptor ρ) (origin : Int64)
    (s : Harness ρ σ H) : Option (Harness ρ σ H) := do
  let (e, ring) ← D.take s.ring
  let core ← s.core.onEvent E R e (nanoTime origin s.elapsed)
  some { s with ring, core, handled := s.handled ++ [e] }

def step (E : Engine σ) (R : Hdr H) (D : Disruptor ρ) (c : Params) (origin : Int64)
    (s : Harness ρ σ H) : Turn → Option (Harness ρ σ H)
  | .tick d => some { s with elapsed := s.elapsed + d }
  | .producer => s.producerStep D c origin
  | .consumer => s.consumerStep E R D origin

/-- An interleaving of the two threads, and of the clock. -/
def run (E : Engine σ) (R : Hdr H) (D : Disruptor ρ) (c : Params) (origin : Int64) (ring : ρ)
    (core : CoreHandler σ H) (turns : List Turn) : Option (Harness ρ σ H) :=
  turns.foldlM (step E R D c origin) (start origin ring core)

end Harness
end LmaxBench.Java
