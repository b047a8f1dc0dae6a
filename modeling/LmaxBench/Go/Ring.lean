import LmaxBench.Go.Workload
import LmaxBench.Lib.Loop
import LmaxBench.Lib.SpscRing
import LmaxBench.Lib.Word

/-!
# The ring in Go

`event` and `ring` of `go/ring.go`, with the two loops of `go/harness.go` on it. The
producer loads `cons` anew in every round of its spin loop, and the consumer releases each
event before it looks for the next. One action is one step of either goroutine, with at
most one access to a shared cursor.

The cursors are words that wrap around, and a run may publish any number of events.

## Main definitions

* `Ring`, `Pipe`, `Pipe.step`, `Pipe.run` — the ring, and the goroutines' steps on it.
* `Pipe.Inv`, `Pipe.inv_step` — the words as counters, related to how many events went by.
* `Pipe.Delivers`, `Pipe.delivers_run` — what holds under every interleaving.
-/

namespace LmaxBench.Go

structure Event where
  kind : UInt8 := 0
  side : UInt8 := 0
  price : Int64 := 0
  qty : Int64 := 0
  id : UInt64 := 0
  /-- When the event is due; zero means it is not measured. -/
  ts : UInt64 := 0
  deriving DecidableEq

/-- Whether the event takes the `default` branch of the consumer, which returns. -/
def Event.stops (e : Event) : Bool := e.kind != kindLimit && e.kind != kindCancel

/-- A store into one field of an event. -/
inductive Store
  | kind (v : UInt8)
  | side (v : UInt8)
  | price (v : Int64)
  | qty (v : Int64)
  | id (v : UInt64)
  | ts (v : UInt64)
  deriving DecidableEq

def Store.apply : Store → Event → Event
  | .kind v, e => { e with kind := v }
  | .side v, e => { e with side := v }
  | .price v, e => { e with price := v }
  | .qty v, e => { e with qty := v }
  | .id v, e => { e with id := v }
  | .ts v, e => { e with ts := v }

def ringSize : UInt64 := 65536

structure Ring where
  buf : List Event
  mask : UInt64
  prod : UInt64 := 0
  cons : UInt64 := 0
  deriving DecidableEq

namespace Ring

/-- `newRing`. -/
def new : Ring := { buf := List.replicate ringSize.toNat {}, mask := ringSize - 1 }

/-- The test in the spin loop of `claim`, `next - r.cons.Load() > ringSize`. -/
def isFull (r : Ring) (next : UInt64) : Bool := next - r.cons > ringSize

/-- The index of a sequence number's slot, `seq & r.mask`. -/
def slot (r : Ring) (seq : UInt64) : UInt64 := seq &&& r.mask

/-- `ring.publish`. Only the producer stores into `prod`. -/
def publish (r : Ring) : Ring := { r with prod := r.prod + 1 }

end Ring

/-- Where the producer is: before `claim`, in its spin loop, or with the slot it returned. -/
inductive Producer
  | idle
  | spinning (next : UInt64)
  | writing (slot : UInt64)
  deriving DecidableEq

/-- Where the consumer is: in its spin loop, past it, with `seq` incremented, with the event
handled, or returned. -/
inductive Consumer
  | waiting
  | ready
  | handling
  | releasing
  | stopped
  deriving DecidableEq

/-- The ring and what the two goroutines keep beside it. `published`, `handled` and `released`
record the events that went in and came out, and how many stores to `cons` there were. -/
structure Pipe where
  ring : Ring
  producer : Producer := .idle
  consumer : Consumer := .waiting
  seq : UInt64 := 0
  published : List Event := []
  handled : List Event := []
  released : ℕ := 0
  deriving DecidableEq

/-- The steps of the producer (`claim` to `publish`) and of the consumer (`load` to `store`). -/
inductive Act
  | claim
  | test
  | write (st : Store)
  | publish
  | load
  | take
  | handle
  | store
  deriving DecidableEq

namespace Pipe

def new : Pipe := { ring := Ring.new }

/-- One step. It is `none` where the goroutine is elsewhere, or the slot is out of bounds. -/
def step (p : Pipe) : Act → Option Pipe
  | .claim =>
    if p.producer = .idle then some { p with producer := .spinning (p.ring.prod + 1) } else none
  | .test =>
    match p.producer with
    | .spinning next =>
      some
        { p with
          producer := if p.ring.isFull next then .spinning next else .writing (p.ring.slot next) }
    | _ => none
  | .write st =>
    match p.producer with
    | .writing slot => do
      let e ← p.ring.buf[slot.toNat]?
      some { p with ring := { p.ring with buf := p.ring.buf.set slot.toNat (st.apply e) } }
    | _ => none
  | .publish =>
    match p.producer with
    | .writing slot => do
      let e ← p.ring.buf[slot.toNat]?
      some { p with ring := p.ring.publish, producer := .idle, published := p.published ++ [e] }
    | _ => none
  | .load =>
    if p.consumer = .waiting then
      some { p with consumer := if p.ring.prod = p.seq then .waiting else .ready }
    else none
  | .take =>
    if p.consumer = .ready then some { p with seq := p.seq + 1, consumer := .handling } else none
  | .handle =>
    if p.consumer = .handling then do
      let e ← p.ring.buf[(p.ring.slot p.seq).toNat]?
      some
        { p with
          consumer := if e.stops then .stopped else .releasing
          handled := p.handled ++ [e] }
    else none
  | .store =>
    if p.consumer = .releasing then
      some
        { p with
          ring := { p.ring with cons := p.seq }
          consumer := .waiting
          released := p.released + 1 }
    else none

/-- An interleaving of the two goroutines, from the state in which they start. -/
def run (acts : List Act) : Option Pipe := acts.foldlM step new

/-- The slot of the event with number `i`, counted from zero. -/
def slotOf (p : Pipe) (i : ℕ) : UInt64 := p.ring.slot (UInt64.ofNat (i + 1))

end Pipe

/-! ## The invariant -/

namespace Consumer

/-- Whether the consumer knows of an event beyond the released ones. -/
def saw : Consumer → ℕ
  | .waiting => 0
  | .ready | .handling | .releasing | .stopped => 1

/-- Whether `seq` is the number of an event beyond the released ones. -/
def took : Consumer → ℕ
  | .waiting | .ready => 0
  | .handling | .releasing | .stopped => 1

/-- Whether an event beyond the released ones was handled. -/
def gave : Consumer → ℕ
  | .waiting | .ready | .handling => 0
  | .releasing | .stopped => 1

theorem gave_le_saw (c : Consumer) : c.gave ≤ c.saw := by cases c <;> decide

theorem took_le_saw (c : Consumer) : c.took ≤ c.saw := by cases c <;> decide

end Consumer

namespace Pipe

/-- The cursors count the events published, released and taken, modulo `2 ^ 64`. The counts
themselves are at most a ring apart. -/
structure Inv (p : Pipe) : Prop where
  mask : p.ring.mask = ringSize - 1
  length : p.ring.buf.length = ringSize.toNat
  prod : p.ring.prod = UInt64.ofNat p.published.length
  cons : p.ring.cons = UInt64.ofNat p.released
  seq : p.seq = UInt64.ofNat (p.released + p.consumer.took)
  next : ∀ {next}, p.producer = .spinning next → next = UInt64.ofNat (p.published.length + 1)
  slot : ∀ {slot}, p.producer = .writing slot → slot = p.slotOf p.published.length
  room : ∀ {slot}, p.producer = .writing slot →
    p.published.length + 1 ≤ p.released + ringSize.toNat
  bounded : p.published.length ≤ p.released + ringSize.toNat
  saw : p.released + p.consumer.saw ≤ p.published.length
  handled_length : p.handled.length = p.released + p.consumer.gave
  handled : p.handled = p.published.take p.handled.length
  /-- An event stays in its slot from the store to `prod` to the store to `cons`. -/
  unread : ∀ i, p.released ≤ i → i < p.published.length →
    p.ring.buf[(p.slotOf i).toNat]? = p.published[i]?

theorem inv_new : Inv new where
  mask := rfl
  length := List.length_replicate
  prod := rfl
  cons := rfl
  seq := rfl
  next := by simp [new]
  slot := by simp [new]
  room := by simp [new]
  bounded := Nat.zero_le _
  saw := le_rfl
  handled_length := rfl
  handled := rfl
  unread := by simp [new]

section

variable {p p' : Pipe}

@[simp] theorem ringSize_toNat : ringSize.toNat = 2 ^ 16 := rfl

theorem Inv.slotOf_toNat (h : Inv p) (i : ℕ) :
    (p.slotOf i).toNat = (i + 1) % ringSize.toNat := by
  rw [slotOf, Ring.slot, h.mask, Word.toNat_ofNat_and_mask ringSize_toNat]

theorem Inv.slotOf_lt (h : Inv p) (i : ℕ) : (p.slotOf i).toNat < p.ring.buf.length := by
  rw [h.slotOf_toNat, h.length]
  exact Nat.mod_lt _ (by decide)

/-- Fewer than `ringSize` events apart, two events have different slots. -/
theorem Inv.slotOf_ne (h : Inv p) {i j : ℕ} (hij : i < j) (hji : j < i + ringSize.toNat) :
    (p.slotOf i).toNat ≠ (p.slotOf j).toNat := by
  rw [h.slotOf_toNat, h.slotOf_toNat]
  exact Spsc.slot_ne (by omega) (by omega)

theorem Inv.released_le (h : Inv p) : p.released ≤ p.published.length :=
  Nat.le_of_add_right_le h.saw

/-- The distance of the cursors, also where one of them wrapped around. -/
theorem Inv.distance (h : Inv p) :
    (p.ring.prod - p.ring.cons).toNat = p.published.length - p.released := by
  have hbounded := h.bounded
  rw [ringSize_toNat] at hbounded
  rw [h.prod, h.cons]
  exact Word.toNat_ofNat_sub h.released_le (by omega)

/-- The test of `claim` decides whether there is room for one more event. -/
theorem Inv.isFull_iff (h : Inv p) {next : UInt64} (hp : p.producer = .spinning next) :
    p.ring.isFull next = true ↔ p.released + ringSize.toNat < p.published.length + 1 := by
  have hreleased := h.released_le
  have hbounded := h.bounded
  have hsize := ringSize_toNat
  have hdist := Word.toNat_ofNat_sub (m := p.released) (n := p.published.length + 1) (by omega)
    (by omega)
  rw [Ring.isFull, decide_eq_true_iff, gt_iff_lt, UInt64.lt_iff_toNat_lt, h.next hp, h.cons, hdist]
  omega

/-- The test of the consumer decides whether every published event is released. -/
theorem Inv.prod_eq_seq_iff (h : Inv p) (hp : p.consumer = .waiting) :
    p.ring.prod = p.seq ↔ p.published.length = p.released := by
  have hbounded := h.bounded
  have hsize := ringSize_toNat
  rw [h.prod, h.seq, hp]
  exact Word.ofNat_inj_of_lt h.released_le (by omega)

/-! ### One lemma per action -/

theorem Inv.claim (h : Inv p) : Inv { p with producer := .spinning (p.ring.prod + 1) } where
  __ := h
  next := by
    intro next heq
    obtain rfl := Producer.spinning.inj heq
    rw [Word.ofNat_succ, ← h.prod]
  slot := by simp
  room := by simp

theorem Inv.test (h : Inv p) {next : UInt64} (hp : p.producer = .spinning next) :
    Inv
      { p with
        producer :=
          if p.ring.isFull next then .spinning next else .writing (p.ring.slot next) } := by
  cases hf : p.ring.isFull next with
  | true =>
    rw [if_pos rfl]
    exact
      { h with
        next := by
          intro next' heq
          obtain rfl := Producer.spinning.inj heq
          exact h.next hp
        slot := by simp
        room := by simp }
  | false =>
    have hroom := mt (h.isFull_iff hp).mpr (Bool.eq_false_iff.mp hf)
    rw [if_neg Bool.false_ne_true]
    exact
      { h with
        next := by simp
        slot := by
          intro slot heq
          obtain rfl := Producer.writing.inj heq
          rw [h.next hp]
          rfl
        room := fun _ => Nat.le_of_not_lt hroom }

theorem Inv.write (h : Inv p) {slot : UInt64} (hp : p.producer = .writing slot) (e : Event) :
    Inv { p with ring := { p.ring with buf := p.ring.buf.set slot.toNat e } } where
  __ := h
  length := by simp [h.length]
  unread := by
    intro i hcons hprod
    have hlt : p.published.length < i + ringSize.toNat :=
      Nat.le_trans (h.room hp) (Nat.add_le_add_right hcons _)
    have hne := (h.slotOf_ne hprod hlt).symm
    rw [← h.slot hp] at hne
    exact (List.getElem?_set_ne hne).trans (h.unread i hcons hprod)

theorem Inv.publish (h : Inv p) {slot : UInt64} {e : Event} (hp : p.producer = .writing slot)
    (hget : p.ring.buf[slot.toNat]? = some e) :
    Inv
      { p with
        ring := p.ring.publish
        producer := .idle
        published := p.published ++ [e] } where
  __ := h
  prod := by
    rw [List.length_append, List.length_singleton, Word.ofNat_succ, ← h.prod]
    rfl
  next := by simp
  slot := by simp
  room := by simp
  bounded := by
    rw [List.length_append]
    exact h.room hp
  saw := by
    rw [List.length_append]
    exact Nat.le_add_right_of_le h.saw
  handled := by
    have hsaw := h.saw
    have hgave := Consumer.gave_le_saw p.consumer
    have hlen := h.handled_length
    dsimp only
    rw [List.take_append_of_le_length (by omega)]
    exact h.handled
  unread := by
    intro i hcons hprod
    rw [List.length_append] at hprod
    rcases Nat.lt_succ_iff_lt_or_eq.mp hprod with hlt | rfl
    · rw [List.getElem?_append_left hlt]
      exact h.unread i hcons hlt
    · rw [List.getElem?_concat_length, ← hget, h.slot hp]
      rfl

theorem Inv.load (h : Inv p) (hp : p.consumer = .waiting) :
    Inv { p with consumer := if p.ring.prod = p.seq then .waiting else .ready } := by
  by_cases heq : p.ring.prod = p.seq
  · rw [if_pos heq, ← hp]
    exact h
  · have hne := mt (h.prod_eq_seq_iff hp).mpr heq
    have hlt : p.released < p.published.length :=
      Nat.lt_of_le_of_ne h.released_le (Ne.symm hne)
    have hseq := h.seq
    have hlen := h.handled_length
    rw [hp] at hseq hlen
    rw [if_neg heq]
    exact { h with seq := hseq, saw := hlt, handled_length := hlen }

theorem Inv.take (h : Inv p) (hp : p.consumer = .ready) :
    Inv { p with seq := p.seq + 1, consumer := .handling } := by
  have hseq := h.seq
  have hsaw := h.saw
  have hlen := h.handled_length
  rw [hp] at hseq hsaw hlen
  exact
    { h with
      seq := by
        dsimp only
        rw [hseq, ← Word.ofNat_succ]
        rfl
      saw := hsaw
      handled_length := hlen }

/-- The consumer reads the event after those it released. -/
theorem Inv.slot_seq (h : Inv p) (ht : p.consumer.took = 1) :
    p.released < p.published.length ∧ p.ring.slot p.seq = p.slotOf p.released := by
  have hsaw := h.saw
  have htook := Consumer.took_le_saw p.consumer
  rw [h.seq, ht]
  exact ⟨by omega, rfl⟩

theorem Inv.next_eq (h : Inv p) (ht : p.consumer.took = 1) :
    p.ring.buf[(p.ring.slot p.seq).toNat]? = p.published[p.released]? := by
  obtain ⟨hlt, hslot⟩ := h.slot_seq ht
  rw [hslot]
  exact h.unread p.released le_rfl hlt

theorem Inv.handle (h : Inv p) (hp : p.consumer = .handling) {e : Event}
    (hget : p.ring.buf[(p.ring.slot p.seq).toNat]? = some e) :
    Inv
      { p with
        consumer := if e.stops then .stopped else .releasing
        handled := p.handled ++ [e] } := by
  have hseq := h.seq
  have hsaw := h.saw
  have hlen := h.handled_length
  rw [hp] at hseq hsaw hlen
  have hnext : p.published[p.handled.length]? = some e := by
    rw [hlen]
    exact (h.next_eq (hp ▸ rfl)).symm.trans hget
  have hhandled : p.handled ++ [e] = p.published.take (p.handled ++ [e]).length := by
    rw [List.length_append, List.length_singleton, List.take_add_one, hnext, ← h.handled]
    rfl
  have hlength : (p.handled ++ [e]).length = p.released + 1 := by
    rw [List.length_append, hlen]
    rfl
  cases hstop : e.stops with
  | true =>
    rw [if_pos rfl]
    exact
      { h with seq := hseq, saw := hsaw, handled_length := hlength, handled := hhandled }
  | false =>
    rw [if_neg Bool.false_ne_true]
    exact
      { h with seq := hseq, saw := hsaw, handled_length := hlength, handled := hhandled }

theorem Inv.store (h : Inv p) (hp : p.consumer = .releasing) :
    Inv
      { p with
        ring := { p.ring with cons := p.seq }
        consumer := .waiting
        released := p.released + 1 } := by
  have hseq := h.seq
  have hsaw := h.saw
  have hlen := h.handled_length
  rw [hp] at hseq hsaw hlen
  exact
    { h with
      cons := hseq
      seq := hseq
      saw := hsaw
      handled_length := hlen
      room := by
        intro slot hw
        have hroom := h.room hw
        dsimp only
        omega
      bounded := by
        have hbounded := h.bounded
        dsimp only
        omega
      unread := fun i hi => h.unread i (Nat.le_of_succ_le hi) }

/-- What a store to the claimed slot did. -/
theorem step_write {st : Store} (hstep : p.step (.write st) = some p') :
    ∃ slot e, p.producer = .writing slot ∧ p.ring.buf[slot.toNat]? = some e ∧
      p' = { p with ring := { p.ring with buf := p.ring.buf.set slot.toNat (st.apply e) } } := by
  simp only [step] at hstep
  split at hstep
  case h_1 slot hp =>
    obtain ⟨e, hget, heq⟩ := Option.bind_eq_some_iff.mp hstep
    exact ⟨slot, e, hp, hget, (Option.some.inj heq).symm⟩
  case h_2 => simp at hstep

theorem step_publish (hstep : p.step .publish = some p') :
    ∃ slot e, p.producer = .writing slot ∧ p.ring.buf[slot.toNat]? = some e ∧
      p' = { p with ring := p.ring.publish, producer := .idle,
                    published := p.published ++ [e] } := by
  simp only [step] at hstep
  split at hstep
  case h_1 slot hp =>
    obtain ⟨e, hget, heq⟩ := Option.bind_eq_some_iff.mp hstep
    exact ⟨slot, e, hp, hget, (Option.some.inj heq).symm⟩
  case h_2 => simp at hstep

theorem step_test (hstep : p.step .test = some p') :
    ∃ next, p.producer = .spinning next ∧
      p' = { p with producer :=
        if p.ring.isFull next then .spinning next else .writing (p.ring.slot next) } := by
  simp only [step] at hstep
  split at hstep
  case h_1 next hp => exact ⟨next, hp, (Option.some.inj hstep).symm⟩
  case h_2 => simp at hstep

/-- **Every action of either goroutine keeps the invariant**, also where a counter wraps
around. -/
theorem inv_step (h : Inv p) {a : Act} (hstep : p.step a = some p') : Inv p' := by
  cases a with
  | claim =>
    obtain ⟨-, heq⟩ := Option.ite_none_right_eq_some.mp hstep
    obtain rfl := Option.some.inj heq
    exact h.claim
  | test =>
    obtain ⟨next, hp, rfl⟩ := step_test hstep
    exact h.test hp
  | write st =>
    obtain ⟨slot, e, hp, -, rfl⟩ := step_write hstep
    exact h.write hp _
  | publish =>
    obtain ⟨slot, e, hp, hget, rfl⟩ := step_publish hstep
    exact h.publish hp hget
  | load =>
    obtain ⟨hp, heq⟩ := Option.ite_none_right_eq_some.mp hstep
    obtain rfl := Option.some.inj heq
    exact h.load hp
  | take =>
    obtain ⟨hp, heq⟩ := Option.ite_none_right_eq_some.mp hstep
    obtain rfl := Option.some.inj heq
    exact h.take hp
  | handle =>
    obtain ⟨hp, hbind⟩ := Option.ite_none_right_eq_some.mp hstep
    obtain ⟨e, hget, heq⟩ := Option.bind_eq_some_iff.mp hbind
    obtain rfl := Option.some.inj heq
    exact h.handle hp hget
  | store =>
    obtain ⟨hp, heq⟩ := Option.ite_none_right_eq_some.mp hstep
    obtain rfl := Option.some.inj heq
    exact h.store hp

theorem inv_run {acts : List Act} (hrun : run acts = some p) : Inv p :=
  Loop.foldlM_invariant Inv (fun _ _ _ h hstep => inv_step h hstep) inv_new hrun

/-! ## Delivery -/

/-- What the ring guarantees. The events from `released` to the last one published are those
which the consumer has yet to release. -/
structure Delivers (p : Pipe) : Prop where
  /-- Events are handled in order and once each. -/
  handled : p.handled = p.published.take p.handled.length
  handled_le : p.handled.length ≤ p.published.length
  /-- At most the event handled last is not released. -/
  released_le : p.released ≤ p.handled.length
  le_released : p.handled.length ≤ p.released + 1
  bounded : p.published.length - p.released ≤ ringSize.toNat
  /-- The cursors are as far apart as there are events to release. -/
  distance : (p.ring.prod - p.ring.cons).toNat = p.published.length - p.released
  /-- The slot `claim` returns is in bounds, and no event to release is in it. -/
  claimed : ∀ {slot}, p.producer = .writing slot → slot.toNat < p.ring.buf.length ∧
    ∀ i, p.released ≤ i → i < p.published.length → p.slotOf i ≠ slot
  /-- An event to release is in its slot as it was published. -/
  unreleased : ∀ i, p.released ≤ i → i < p.published.length →
    p.ring.buf[(p.slotOf i).toNat]? = p.published[i]?
  /-- The consumer reads from the slot of the first event to release. -/
  consumed : p.consumer.took = 1 →
    p.released < p.published.length ∧ p.ring.slot p.seq = p.slotOf p.released

theorem Inv.delivers (h : Inv p) : Delivers p := by
  have hsaw := h.saw
  have hgave := Consumer.gave_le_saw p.consumer
  have hlen := h.handled_length
  constructor
  case handled => exact h.handled
  case handled_le => omega
  case released_le => omega
  case le_released =>
    rw [hlen]
    exact Nat.add_le_add_left (by cases p.consumer <;> decide) _
  case bounded => exact Nat.sub_le_iff_le_add'.mpr h.bounded
  case distance => exact h.distance
  case claimed =>
    intro slot hp
    have hroom := h.room hp
    obtain rfl := h.slot hp
    refine ⟨h.slotOf_lt _, ?_⟩
    intro i hcons hprod heq
    exact h.slotOf_ne hprod (by omega) (congrArg UInt64.toNat heq)
  case unreleased => exact h.unread
  case consumed => exact h.slot_seq

/-- **The ring delivers** under every interleaving, whatever the number of events that are
published: neither the cursors nor `seq` have to stay below `2 ^ 64`. -/
theorem delivers_run {acts : List Act} (hrun : run acts = some p) : Delivers p :=
  (inv_run hrun).delivers

/-- The consumer handles one event, and the producer is about to write the third. -/
theorem delivers_run_third :
    ∃ p, run
        [.claim, .test, .write (.id 7), .publish, .load, .claim, .test, .write (.id 8), .take,
          .publish, .handle, .claim, .store, .test] = some p ∧
      p.handled = [{ id := 7 }] ∧ p.producer = .writing 3 ∧ Delivers p := by
  have hrun :
      (run
        [.claim, .test, .write (.id 7), .publish, .load, .claim, .test, .write (.id 8), .take,
          .publish, .handle, .claim, .store, .test]).map (fun p => (p.handled, p.producer)) =
        some ([{ id := 7 }], .writing 3) := by
    decide +kernel
  obtain ⟨p, hp, heq⟩ := Option.map_eq_some_iff.mp hrun
  exact ⟨p, hp, congrArg Prod.fst heq, congrArg Prod.snd heq, delivers_run hp⟩

end

end Pipe
end LmaxBench.Go
