import LmaxBench.Cpp.Workload
import LmaxBench.Lib.Loop
import LmaxBench.Lib.SpscRing
import LmaxBench.Lib.Word

/-!
# The ring

`Event` and `Ring` of `ring.hpp`, with the two loops that use it: the producer claims a
slot, stores into its fields and publishes it, the consumer drains batch after batch. One
action is one step of either thread, with at most one access to a shared cursor; the
cursors behave as message passing, so that a run is an interleaving of actions.

The cursors are words and wrap around. As long as fewer than `2 ^ 64` events are
published, the ring refines `Spsc.Step`.

## Main definitions

* `Ring`, `Pipe`, `Pipe.step`, `Pipe.run` — the ring, and the threads' steps on it.
* `Pipe.abs`, `Pipe.step_abs` — the refinement.
* `Pipe.Safe`, `Pipe.safe_run` — what holds under every interleaving.
-/

namespace LmaxBench.Cpp

/-- `struct Event`. -/
structure Event where
  kind : UInt8 := 0
  side : UInt8 := 0
  price : ℤ := 0
  qty : ℤ := 0
  id : UInt64 := 0
  /-- The scheduled time of the event; zero means it is not measured. -/
  ts : UInt64 := 0
  deriving DecidableEq, Repr

/-- A store into one field of an event. -/
inductive Store
  | kind (v : UInt8)
  | side (v : UInt8)
  | price (v : ℤ)
  | qty (v : ℤ)
  | id (v : UInt64)
  | ts (v : UInt64)
  deriving DecidableEq, Repr

def Store.apply : Store → Event → Event
  | .kind v, e => { e with kind := v }
  | .side v, e => { e with side := v }
  | .price v, e => { e with price := v }
  | .qty v, e => { e with qty := v }
  | .id v, e => { e with id := v }
  | .ts v, e => { e with ts := v }

/-- `RING_SIZE`. Below, the size of the ring is a parameter `N`. -/
def ringSize : UInt64 := 65536

/-- `struct Ring`. -/
structure Ring where
  buf : List Event
  mask : UInt64
  prod : UInt64 := 0
  cons : UInt64 := 0
  consSeen : UInt64 := 0
  deriving DecidableEq, Repr

namespace Ring

def new (N : UInt64) : Ring := { buf := List.replicate N.toNat {}, mask := N - 1 }

/-- The test of `claim`, `next - cons_seen > RING_SIZE`. -/
def looksFull (N : UInt64) (r : Ring) : Bool := r.prod + 1 - r.consSeen > N

/-- The load of `cons` in the spin loop of `claim`. -/
def reload (r : Ring) : Ring := { r with consSeen := r.cons }

/-- The index of the slot `claim` returns, `next & mask`. -/
def claimed (r : Ring) : UInt64 := (r.prod + 1) &&& r.mask

/-- `Ring::publish`. -/
def publish (r : Ring) : Ring := { r with prod := r.prod + 1 }

end Ring

/-- Where the producer is: before `claim`, in its spin loop, or with the slot it returned. -/
inductive Producer
  | idle
  | spinning
  | writing (slot : UInt64)
  deriving DecidableEq, Repr

/-- The ring and what the two threads keep beside it. `published` and `handled` record the
events that went in and came out. -/
structure Pipe where
  ring : Ring
  producer : Producer := .idle
  consumer : Spsc.Consumer := .waiting
  seq : UInt64 := 0
  avail : UInt64 := 0
  published : List Event := []
  handled : List Event := []
  deriving DecidableEq, Repr

/-- The steps of the producer (`claim` to `publish`) and of the consumer (`load` to `store`). -/
inductive Act
  | claim
  | reload
  | write (st : Store)
  | publish
  | load
  | handle
  | store
  deriving DecidableEq, Repr

/-- The steps of the producer. -/
def Act.ofProducer : Act → Bool
  | .claim | .reload | .write _ | .publish => true
  | .load | .handle | .store => false

namespace Pipe

def new (N : UInt64) : Pipe := { ring := Ring.new N }

/-- The test of `claim` and where it leads. -/
def tryClaim (N : UInt64) (p : Pipe) : Pipe :=
  { p with producer := if p.ring.looksFull N then .spinning else .writing p.ring.claimed }

/-- The event the consumer takes next, `ring.buf[seq & ring.mask]` for the incremented `seq`. -/
def next? (p : Pipe) : Option Event := p.ring.buf[((p.seq + 1) &&& p.ring.mask).toNat]?

/-- One step. It is `none` where the thread is elsewhere, or the slot is out of bounds. -/
def step (N : UInt64) (stop : Event → Bool) (p : Pipe) : Act → Option Pipe
  | .claim => if p.producer = .idle then some (p.tryClaim N) else none
  | .reload =>
    if p.producer = .spinning then some ({ p with ring := p.ring.reload }.tryClaim N) else none
  | .write st =>
    match p.producer with
    | .writing slot => do
      let e ← p.ring.buf[slot.toNat]?
      some { p with ring := { p.ring with buf := p.ring.buf.set slot.toNat (st.apply e) } }
    | _ => none
  | .publish =>
    match p.producer with
    | .writing slot => do
      let e ← p.ring.buf[slot.toNat]?
      some { p with ring := p.ring.publish, producer := .idle, published := p.published ++ [e] }
    | _ => none
  | .load =>
    if p.consumer = .waiting then
      some
        { p with
          avail := p.ring.prod
          consumer := if p.ring.prod = p.seq then .waiting else .draining }
    else none
  | .handle =>
    if p.consumer = .draining ∧ p.seq < p.avail then do
      let e ← p.next?
      some
        { p with
          seq := p.seq + 1
          consumer := if stop e then .stopped else .draining
          handled := p.handled ++ [e] }
    else none
  | .store =>
    if p.consumer = .draining ∧ ¬ p.seq < p.avail then
      some { p with ring := { p.ring with cons := p.seq }, consumer := .waiting }
    else none

/-- An interleaving of the two threads, from the state in which they start. -/
def run (N : UInt64) (stop : Event → Bool) (acts : List Act) : Option Pipe :=
  acts.foldlM (step N stop) (new N)

/-! ## The refinement -/

/-- Where the producer is, without its pointer into the ring. -/
def phase : Producer → Spsc.Producer
  | .idle => .idle
  | .spinning => .spinning
  | .writing _ => .writing

/-- The ring with the cursors as numbers. -/
def abs (p : Pipe) : Spsc.State Event where
  buf i := p.ring.buf.getD i {}
  prod := p.ring.prod.toNat
  cons := p.ring.cons.toNat
  seen := p.ring.consSeen.toNat
  seq := p.seq.toNat
  avail := p.avail.toNat
  producer := phase p.producer
  consumer := p.consumer
  published := p.published
  handled := p.handled

/-- What `Pipe.abs` forgets. -/
structure Shaped (N : UInt64) (p : Pipe) : Prop where
  mask : p.ring.mask = N - 1
  length : p.ring.buf.length = N.toNat
  slot : ∀ {slot}, p.producer = .writing slot → slot = p.ring.claimed

theorem shaped_new (N : UInt64) : Shaped N (new N) where
  mask := rfl
  length := List.length_replicate
  slot := by simp [new]

section

variable {N : UInt64} {k : ℕ} {stop : Event → Bool} {p p' : Pipe}

theorem Shaped.claimed_toNat (h : Shaped N p) (hN : N.toNat = 2 ^ k) :
    p.ring.claimed.toNat = (p.abs.prod + 1) % N.toNat := by
  rw [Ring.claimed, h.mask, Word.toNat_add_one_and_mask hN]
  rfl

theorem Shaped.next_toNat (h : Shaped N p) (hN : N.toNat = 2 ^ k) :
    ((p.seq + 1) &&& p.ring.mask).toNat = (p.abs.seq + 1) % N.toNat := by
  rw [h.mask, Word.toNat_add_one_and_mask hN]
  rfl

/-- Every slot a sequence number masks to is in bounds. -/
theorem Shaped.getElem?_slot (h : Shaped N p) (hN : N.toNat = 2 ^ k) (i : ℕ) :
    p.ring.buf[i % N.toNat]? = some (p.abs.buf (i % N.toNat)) := by
  have hlt : i % N.toNat < p.ring.buf.length := by
    rw [h.length, hN]
    exact Nat.mod_lt _ (Nat.two_pow_pos k)
  rw [List.getElem?_eq_getElem hlt]
  exact congrArg some (List.getElem_eq_getD ({} : Event))

/-- The test of `claim` decides whether there is room, as far as the producer knows. -/
theorem looksFull_iff (hN : N.toNat = 2 ^ k) {r : Ring} (hseen : r.consSeen.toNat ≤ r.prod.toNat)
    (hprod : r.prod.toNat ≤ r.consSeen.toNat + N.toNat) :
    r.looksFull N = true ↔ r.consSeen.toNat + N.toNat < r.prod.toNat + 1 := by
  have hk : 2 ^ k ≤ 2 ^ 63 :=
    Nat.pow_le_pow_right (by decide) (Nat.le_of_lt_succ (Word.exponent_lt hN))
  rw [Ring.looksFull, decide_eq_true_iff, gt_iff_lt, UInt64.lt_iff_toNat_lt,
    Word.toNat_add_one_sub hseen (by omega)]
  omega

theorem tryClaim_of_full (h : p.ring.looksFull N = true) :
    p.tryClaim N = { p with producer := .spinning } := by
  rw [tryClaim, if_pos h]

theorem tryClaim_of_room (h : p.ring.looksFull N = false) :
    p.tryClaim N = { p with producer := .writing p.ring.claimed } := by
  rw [tryClaim, if_neg (Bool.eq_false_iff.mp h)]

theorem shaped_tryClaim (h : Shaped N p) : Shaped N (p.tryClaim N) := by
  cases hf : p.ring.looksFull N with
  | true =>
    rw [tryClaim_of_full hf]
    exact { h with slot := by simp }
  | false =>
    rw [tryClaim_of_room hf]
    exact { h with slot := fun heq => (Producer.writing.inj heq).symm }

/-! ### One lemma per action -/

theorem claim_abs (hN : N.toNat = 2 ^ k) (hinv : Spsc.Inv N.toNat p.abs)
    (hp : p.producer = .idle) : Spsc.Step N.toNat stop p.abs (p.tryClaim N).abs := by
  have hphase : p.abs.producer = .idle := congrArg phase hp
  have hfull := looksFull_iff hN hinv.seen_le_prod hinv.prod_le
  cases hf : p.ring.looksFull N with
  | true =>
    rw [tryClaim_of_full hf]
    exact .full hphase (hfull.mp hf)
  | false =>
    have hroom := mt hfull.mpr (Bool.eq_false_iff.mp hf)
    rw [tryClaim_of_room hf]
    exact .claim hphase (Nat.le_of_not_lt hroom)

theorem reload_abs (hN : N.toNat = 2 ^ k) (hinv : Spsc.Inv N.toNat p.abs)
    (hp : p.producer = .spinning) :
    Spsc.Step N.toNat stop p.abs ({ p with ring := p.ring.reload }.tryClaim N).abs := by
  have hphase : p.abs.producer = .spinning := congrArg phase hp
  have hcons : p.ring.reload.consSeen.toNat ≤ p.ring.reload.prod.toNat := hinv.cons_le_prod
  have hprod : p.abs.prod ≤ p.abs.cons + N.toNat :=
    Nat.le_trans hinv.prod_le (Nat.add_le_add_right hinv.seen_le _)
  have hfull := looksFull_iff hN hcons hprod
  cases hf : p.ring.reload.looksFull N with
  | true =>
    rw [tryClaim_of_full (p := { p with ring := p.ring.reload }) hf]
    exact .spin hphase (hfull.mp hf)
  | false =>
    have hroom := mt hfull.mpr (Bool.eq_false_iff.mp hf)
    rw [tryClaim_of_room (p := { p with ring := p.ring.reload }) hf]
    exact .reclaim hphase (Nat.le_of_not_lt hroom)

theorem Shaped.claimed_getElem? (h : Shaped N p) (hN : N.toNat = 2 ^ k) {slot : UInt64}
    (hp : p.producer = .writing slot) :
    slot.toNat = (p.abs.prod + 1) % N.toNat ∧
      p.ring.buf[slot.toNat]? = some (p.abs.buf ((p.abs.prod + 1) % N.toNat)) := by
  have hslot : slot.toNat = (p.abs.prod + 1) % N.toNat := h.slot hp ▸ h.claimed_toNat hN
  rw [hslot]
  exact ⟨rfl, h.getElem?_slot hN _⟩

theorem write_abs (hN : N.toNat = 2 ^ k) (h : Shaped N p) {slot : UInt64}
    (hp : p.producer = .writing slot) (e : Event) :
    Spsc.Step N.toNat stop p.abs
      (abs { p with ring := { p.ring with buf := p.ring.buf.set slot.toNat e } }) := by
  have hphase : p.abs.producer = .writing := congrArg phase hp
  obtain ⟨hslot, hget⟩ := h.claimed_getElem? hN hp
  have hlt := (List.getElem?_eq_some_iff.mp hget).1
  have hbuf : (fun i => (p.ring.buf.set slot.toNat e).getD i {}) =
      Function.update p.abs.buf ((p.abs.prod + 1) % N.toNat) e := by
    ext i : 1
    rw [← hslot, Function.update_apply, List.getD_eq_getElem?_getD, List.getElem?_set]
    by_cases hi : i = slot.toNat
    · rw [if_pos hi.symm, if_pos hi, if_pos hlt]
      rfl
    · rw [if_neg (Ne.symm hi), if_neg hi]
      exact (List.getD_eq_getElem?_getD ..).symm
  have habs : abs { p with ring := { p.ring with buf := p.ring.buf.set slot.toNat e } } =
      { p.abs with buf := Function.update p.abs.buf ((p.abs.prod + 1) % N.toNat) e } := by
    rw [← hbuf]
    rfl
  rw [habs]
  exact .write e hphase

theorem publish_abs (hN : N.toNat = 2 ^ k) (h : Shaped N p) {slot : UInt64} {e : Event}
    (hp : p.producer = .writing slot) (hget : p.ring.buf[slot.toNat]? = some e)
    (hlt : p.ring.prod.toNat + 1 < 2 ^ 64) :
    Spsc.Step N.toNat stop p.abs
      (abs { p with ring := p.ring.publish, producer := .idle,
                    published := p.published ++ [e] }) := by
  have hphase : p.abs.producer = .writing := congrArg phase hp
  obtain rfl : p.abs.buf ((p.abs.prod + 1) % N.toNat) = e :=
    Option.some.inj ((h.claimed_getElem? hN hp).2.symm.trans hget)
  have hprod : p.ring.publish.prod.toNat = p.ring.prod.toNat + 1 := Word.toNat_add_one hlt
  have hstep : Spsc.Step N.toNat stop p.abs _ := .publish hphase
  simp only [abs, hprod]
  exact hstep

theorem load_abs (hp : p.consumer = .waiting) :
    Spsc.Step N.toNat stop p.abs
      (abs { p with avail := p.ring.prod,
                    consumer := if p.ring.prod = p.seq then .waiting else .draining }) := by
  by_cases heq : p.ring.prod = p.seq
  · rw [if_pos heq]
    exact .wait hp (congrArg UInt64.toNat heq)
  · rw [if_neg heq]
    exact .load hp fun hnat => heq (Word.eq_of_toNat hnat)

theorem handle_abs (hN : N.toNat = 2 ^ k) (h : Shaped N p) {e : Event}
    (hp : p.consumer = .draining) (hmore : p.seq < p.avail)
    (hget : p.next? = some e) :
    Spsc.Step N.toNat stop p.abs
      (abs { p with seq := p.seq + 1, consumer := if stop e then .stopped else .draining,
                    handled := p.handled ++ [e] }) := by
  have hlt := UInt64.lt_iff_toNat_lt.mp hmore
  have havail := p.avail.toNat_lt
  obtain rfl : p.abs.buf ((p.abs.seq + 1) % N.toNat) = e := by
    rw [next?, h.next_toNat hN, h.getElem?_slot hN] at hget
    exact Option.some.inj hget
  have hseq : (p.seq + 1).toNat = p.seq.toNat + 1 := Word.toNat_add_one (by omega)
  have hstep : Spsc.Step N.toNat stop p.abs _ := .handle hp hlt
  simp only [abs, hseq]
  exact hstep

/-! ### What an action did -/

theorem step_claim (hstep : p.step N stop .claim = some p') :
    p.producer = .idle ∧ p' = p.tryClaim N := by
  obtain ⟨hp, heq⟩ := Option.ite_none_right_eq_some.mp hstep
  exact ⟨hp, (Option.some.inj heq).symm⟩

theorem step_reload (hstep : p.step N stop .reload = some p') :
    p.producer = .spinning ∧ p' = { p with ring := p.ring.reload }.tryClaim N := by
  obtain ⟨hp, heq⟩ := Option.ite_none_right_eq_some.mp hstep
  exact ⟨hp, (Option.some.inj heq).symm⟩

/-- A store goes into the claimed slot. -/
theorem step_write {st : Store} (hstep : p.step N stop (.write st) = some p') :
    ∃ slot e, p.producer = .writing slot ∧ p.ring.buf[slot.toNat]? = some e ∧
      p' = { p with ring := { p.ring with buf := p.ring.buf.set slot.toNat (st.apply e) } } := by
  simp only [step] at hstep
  split at hstep
  case h_1 slot hp =>
    obtain ⟨e, hget, heq⟩ := Option.bind_eq_some_iff.mp hstep
    exact ⟨slot, e, hp, hget, (Option.some.inj heq).symm⟩
  case h_2 => simp at hstep

/-- What is published is what the claimed slot holds. -/
theorem step_publish (hstep : p.step N stop .publish = some p') :
    ∃ slot e, p.producer = .writing slot ∧ p.ring.buf[slot.toNat]? = some e ∧
      p' = { p with ring := p.ring.publish, producer := .idle,
                    published := p.published ++ [e] } := by
  simp only [step] at hstep
  split at hstep
  case h_1 slot hp =>
    obtain ⟨e, hget, heq⟩ := Option.bind_eq_some_iff.mp hstep
    exact ⟨slot, e, hp, hget, (Option.some.inj heq).symm⟩
  case h_2 => simp at hstep

theorem step_load (hstep : p.step N stop .load = some p') :
    p.consumer = .waiting ∧
      p' = { p with avail := p.ring.prod,
                    consumer := if p.ring.prod = p.seq then .waiting else .draining } := by
  obtain ⟨hp, heq⟩ := Option.ite_none_right_eq_some.mp hstep
  exact ⟨hp, (Option.some.inj heq).symm⟩

theorem step_handle (hstep : p.step N stop .handle = some p') :
    ∃ e, p.next? = some e ∧ p.consumer = .draining ∧ p.seq < p.avail ∧
      p' = { p with seq := p.seq + 1, consumer := if stop e then .stopped else .draining,
                    handled := p.handled ++ [e] } := by
  obtain ⟨⟨hp, hmore⟩, hbind⟩ := Option.ite_none_right_eq_some.mp hstep
  obtain ⟨e, hget, heq⟩ := Option.bind_eq_some_iff.mp hbind
  exact ⟨e, hget, hp, hmore, (Option.some.inj heq).symm⟩

theorem step_store (hstep : p.step N stop .store = some p') :
    p.consumer = .draining ∧ ¬ p.seq < p.avail ∧
      p' = { p with ring := { p.ring with cons := p.seq }, consumer := .waiting } := by
  obtain ⟨⟨hp, hdone⟩, heq⟩ := Option.ite_none_right_eq_some.mp hstep
  exact ⟨hp, hdone, (Option.some.inj heq).symm⟩

/-- The consumer can always take the action it is about to take, if its slot is in bounds. -/
theorem step_load_ready (hp : p.consumer = .waiting) : ∃ p', p.step N stop .load = some p' :=
  ⟨_, if_pos hp⟩

theorem step_handle_ready (hp : p.consumer = .draining) (hmore : p.seq < p.avail) {e : Event}
    (hnext : p.next? = some e) : ∃ p', p.step N stop .handle = some p' := by
  simp [step, hp, hmore, hnext]

theorem step_store_ready (hp : p.consumer = .draining) (hdone : ¬ p.seq < p.avail) :
    ∃ p', p.step N stop .store = some p' :=
  ⟨_, if_pos ⟨hp, hdone⟩⟩

/-- The producer leaves the consumer alone. -/
theorem producer_frame {a : Act} (ha : a.ofProducer = true) (hstep : p.step N stop a = some p') :
    p'.consumer = p.consumer ∧ p'.handled = p.handled ∧ p.published <+: p'.published := by
  cases a with
  | claim =>
    obtain ⟨-, rfl⟩ := step_claim hstep
    exact ⟨rfl, rfl, List.prefix_rfl⟩
  | reload =>
    obtain ⟨-, rfl⟩ := step_reload hstep
    exact ⟨rfl, rfl, List.prefix_rfl⟩
  | write st =>
    obtain ⟨slot, e, -, -, rfl⟩ := step_write hstep
    exact ⟨rfl, rfl, List.prefix_rfl⟩
  | publish =>
    obtain ⟨slot, e, -, -, rfl⟩ := step_publish hstep
    exact ⟨rfl, rfl, List.prefix_append ..⟩
  | load | handle | store => simp [Act.ofProducer] at ha

/-- The consumer leaves the producer and the slots alone. -/
theorem consumer_frame {a : Act} (ha : a.ofProducer = false) (hstep : p.step N stop a = some p') :
    p'.producer = p.producer ∧ p'.ring.buf = p.ring.buf ∧ p'.published = p.published := by
  cases a with
  | claim | reload | write | publish => simp [Act.ofProducer] at ha
  | load =>
    obtain ⟨-, rfl⟩ := step_load hstep
    exact ⟨rfl, rfl, rfl⟩
  | handle =>
    obtain ⟨e, -, -, -, rfl⟩ := step_handle hstep
    exact ⟨rfl, rfl, rfl⟩
  | store =>
    obtain ⟨-, -, rfl⟩ := step_store hstep
    exact ⟨rfl, rfl, rfl⟩

theorem published_grows {a : Act} (hstep : p.step N stop a = some p') :
    p.published <+: p'.published := by
  cases ha : a.ofProducer with
  | true => exact (producer_frame ha hstep).2.2
  | false => exact (consumer_frame ha hstep).2.2 ▸ List.prefix_rfl

/-! ### Runs -/

/-- An action keeps the shape of the ring, whatever its size. -/
theorem Shaped.step (h : Shaped N p) {a : Act} (hstep : p.step N stop a = some p') :
    Shaped N p' := by
  cases a with
  | claim =>
    obtain ⟨-, rfl⟩ := step_claim hstep
    exact shaped_tryClaim h
  | reload =>
    obtain ⟨-, rfl⟩ := step_reload hstep
    have hshaped : Shaped N { p with ring := p.ring.reload } :=
      { mask := h.mask, length := h.length, slot := fun hs => h.slot hs }
    exact shaped_tryClaim hshaped
  | write st =>
    obtain ⟨slot, e, -, -, rfl⟩ := step_write hstep
    exact { h with length := by simp [h.length] }
  | publish =>
    obtain ⟨slot, e, -, -, rfl⟩ := step_publish hstep
    exact { h with slot := by simp }
  | load =>
    obtain ⟨-, rfl⟩ := step_load hstep
    exact { h with }
  | handle =>
    obtain ⟨e, -, -, -, rfl⟩ := step_handle hstep
    exact { h with }
  | store =>
    obtain ⟨-, -, rfl⟩ := step_store hstep
    exact { h with }

/-- **One action of either thread is one step of the protocol.** -/
theorem step_abs (hN : N.toNat = 2 ^ k) (h : Shaped N p) (hinv : Spsc.Inv N.toNat p.abs) {a : Act}
    (hstep : p.step N stop a = some p') (hlen : p'.published.length < 2 ^ 64) :
    Spsc.Step N.toNat stop p.abs p'.abs := by
  cases a with
  | claim =>
    obtain ⟨hp, rfl⟩ := step_claim hstep
    exact claim_abs hN hinv hp
  | reload =>
    obtain ⟨hp, rfl⟩ := step_reload hstep
    exact reload_abs hN hinv hp
  | write st =>
    obtain ⟨slot, e, hp, -, rfl⟩ := step_write hstep
    exact write_abs hN h hp _
  | publish =>
    obtain ⟨slot, e, hp, hget, rfl⟩ := step_publish hstep
    have hprod : p.published.length = p.ring.prod.toNat := hinv.published_length
    have hlt : p.ring.prod.toNat + 1 < 2 ^ 64 := by
      rw [List.length_append, hprod] at hlen
      exact hlen
    exact publish_abs hN h hp hget hlt
  | load =>
    obtain ⟨hp, rfl⟩ := step_load hstep
    exact load_abs hp
  | handle =>
    obtain ⟨e, hget, hp, hmore, rfl⟩ := step_handle hstep
    exact handle_abs hN h hp hmore hget
  | store =>
    obtain ⟨hp, hdone, rfl⟩ := step_store hstep
    have hdone' : ¬ p.abs.seq < p.abs.avail := mt UInt64.lt_iff_toNat_lt.mpr hdone
    exact .store hp hdone'

/-- The refinement along a run. -/
structure Refines (N : UInt64) (stop : Event → Bool) (p : Pipe) : Prop where
  shaped : Shaped N p
  reachable : Spsc.Reachable N.toNat stop (fun i => (new N).ring.buf.getD i {}) p.abs

theorem refines_step (hN : N.toNat = 2 ^ k) (h : Refines N stop p) {a : Act}
    (hstep : p.step N stop a = some p') (hlen : p'.published.length < 2 ^ 64) :
    Refines N stop p' := by
  have habs := step_abs hN h.shaped h.reachable.inv hstep hlen
  exact ⟨h.shaped.step hstep, h.reachable.tail habs⟩

/-- **Every interleaving is one of the protocol**, while fewer than `2 ^ 64` events are
published. -/
theorem refines_run (hN : N.toNat = 2 ^ k) {acts : List Act} (hrun : run N stop acts = some p)
    (hlen : p.published.length < 2 ^ 64) : Refines N stop p := by
  refine Loop.foldlM_invariant (fun p => p.published.length < 2 ^ 64 → Refines N stop p) ?_ ?_
    hrun hlen
  · intro p a p' ih hstep hlen'
    exact refines_step hN (ih (Nat.lt_of_le_of_lt (published_grows hstep).length_le hlen'))
      hstep hlen'
  · intro _
    exact ⟨shaped_new N, .refl⟩

/-! ## Safety -/

/-- What the ring guarantees. A sequence number from `cons + 1` to `prod` is that of an event
which the consumer has yet to release. -/
structure Safe (N : UInt64) (p : Pipe) : Prop where
  seen_le : p.ring.consSeen ≤ p.ring.cons
  cons_le : p.ring.cons ≤ p.seq
  seq_le : p.seq ≤ p.avail
  avail_le : p.avail ≤ p.ring.prod
  prod_le : p.ring.prod.toNat ≤ p.ring.cons.toNat + N.toNat
  published_length : p.published.length = p.ring.prod.toNat
  /-- The slot that is written is in bounds, and no unreleased event is in it. -/
  claimed : ∀ {slot}, p.producer = .writing slot → slot.toNat < p.ring.buf.length ∧
    ∀ q, p.ring.cons < q → q ≤ p.ring.prod → q &&& p.ring.mask ≠ slot
  /-- An unreleased event is in its slot as it was published. -/
  unreleased : ∀ q, p.ring.cons < q → q ≤ p.ring.prod → ∃ e,
    p.ring.buf[(q &&& p.ring.mask).toNat]? = some e ∧ p.published[q.toNat - 1]? = some e
  /-- The events handled are the first `seq` ones, in order. -/
  handled : p.handled = p.published.take p.seq.toNat
  handled_length : p.handled.length = p.seq.toNat

/-- The slot of a positive sequence number. -/
theorem Shaped.slot_toNat (h : Shaped N p) (hN : N.toNat = 2 ^ k) {q : UInt64}
    (hq : 0 < q.toNat) : (q &&& p.ring.mask).toNat = (q.toNat - 1 + 1) % N.toNat := by
  rw [h.mask, Word.toNat_and_mask hN, Nat.sub_add_cancel hq]

theorem Refines.safe (hN : N.toNat = 2 ^ k) (h : Refines N stop p) : Safe N p := by
  have hinv := h.reachable.inv
  have hunreleased : ∀ q : UInt64, p.ring.cons < q → q ≤ p.ring.prod →
      0 < q.toNat ∧ p.abs.cons ≤ q.toNat - 1 ∧ q.toNat - 1 < p.abs.prod := by
    intro q hcons hprod
    rw [UInt64.lt_iff_toNat_lt] at hcons
    rw [UInt64.le_iff_toNat_le] at hprod
    simp only [abs]
    omega
  constructor
  case seen_le => exact UInt64.le_iff_toNat_le.mpr hinv.seen_le
  case cons_le => exact UInt64.le_iff_toNat_le.mpr hinv.cons_le
  case seq_le => exact UInt64.le_iff_toNat_le.mpr hinv.seq_le
  case avail_le => exact UInt64.le_iff_toNat_le.mpr hinv.avail_le
  case prod_le => exact Nat.le_trans hinv.prod_le (Nat.add_le_add_right hinv.seen_le _)
  case published_length => exact hinv.published_length
  case claimed =>
    intro slot hp
    obtain ⟨hslot, hget⟩ := h.shaped.claimed_getElem? hN hp
    refine ⟨(List.getElem?_eq_some_iff.mp hget).1, ?_⟩
    intro q hcons hprod heq
    obtain ⟨hpos, hlo, hhi⟩ := hunreleased q hcons hprod
    refine hinv.claimed_ne (congrArg phase hp) hlo hhi ?_
    rw [← hslot, ← h.shaped.slot_toNat hN hpos, heq]
  case unreleased =>
    intro q hcons hprod
    obtain ⟨hpos, hlo, hhi⟩ := hunreleased q hcons hprod
    refine ⟨_, ?_, hinv.unread _ hlo hhi⟩
    rw [h.shaped.slot_toNat hN hpos]
    exact h.shaped.getElem?_slot hN _
  case handled => exact hinv.handled_eq
  case handled_length => exact hinv.handled_length

/-- **The ring is safe** in every state an interleaving reaches, as long as fewer than
`2 ^ 64` events were published, whatever its size and whichever events end the consumer. -/
theorem safe_run (hN : N.toNat = 2 ^ k) {acts : List Act} (hrun : run N stop acts = some p)
    (hlen : p.published.length < 2 ^ 64) : p.Safe N :=
  (refines_run hN hrun hlen).safe hN

/-- The producer is held up by a full ring, then laps it. -/
theorem safe_run_lap :
    ∃ p, run 1 (fun _ => false)
        [.claim, .write (.id 7), .publish, .claim, .load, .reload, .handle, .store, .reload,
          .write (.id 8)] = some p ∧
      p.Safe 1 := by
  have hrun : run 1 (fun _ => false)
      [.claim, .write (.id 7), .publish, .claim, .load, .reload, .handle, .store, .reload,
        .write (.id 8)] =
      some
        { ring := { buf := [{ id := 8 }], mask := 0, prod := 1, cons := 1, consSeen := 1 }
          producer := .writing 0
          seq := 1
          avail := 1
          published := [{ id := 7 }]
          handled := [{ id := 7 }] } := by
    decide
  exact ⟨_, hrun, safe_run (k := 0) rfl hrun (by decide)⟩

end

end Pipe
end LmaxBench.Cpp
