import Mathlib.Data.List.TakeDrop
import Mathlib.Data.Nat.Basic
import Mathlib.Logic.Function.Basic
import Mathlib.Logic.Relation

/-!
# A single-producer, single-consumer ring

`N` slots shared by one producer and one consumer, which count their events in the
cursors `prod` and `cons`; the event with number `i` lives in slot `i % N`. The producer
compares with `seen`, the value of `cons` it read last, and reads `cons` again only when
the ring looks full. The consumer reads `prod` once for a whole batch, handles its events
one by one, and only then moves `cons`.

The cursors are natural numbers here. `published` and `handled` record the events of the
two sides; they are not part of the protocol.

## Main definitions

* `Spsc.State`, `Spsc.Step` — the protocol, for any interleaving of the two sides.
* `Spsc.Inv`, `Spsc.Reachable.inv` — its invariant.
* `Spsc.Inv.claimed_ne` — no unread slot is written; events arrive once and in order by the
  invariant.
-/

namespace LmaxBench.Spsc

/-- Where the producer is: between events, waiting for room, or with a claimed slot. -/
inductive Producer
  | idle
  | spinning
  | writing
  deriving DecidableEq, Repr

/-- Where the consumer is: waiting for events, in a batch, or done. -/
inductive Consumer
  | waiting
  | draining
  | stopped
  deriving DecidableEq, Repr

structure State (α : Type*) where
  buf : ℕ → α
  prod : ℕ
  cons : ℕ
  /-- The value of `cons` the producer read last. -/
  seen : ℕ
  /-- How many events the consumer took. -/
  seq : ℕ
  /-- The end of the batch. -/
  avail : ℕ
  producer : Producer
  consumer : Consumer
  published : List α
  handled : List α

/-- Both sides before their first step. -/
def init {α : Type*} (buf : ℕ → α) : State α where
  buf
  prod := 0
  cons := 0
  seen := 0
  seq := 0
  avail := 0
  producer := .idle
  consumer := .waiting
  published := []
  handled := []

variable {α : Type*} {N : ℕ} {stop : α → Bool}

/-- One step of either side. The consumer is done once it handles an event with `stop`. -/
inductive Step (N : ℕ) (stop : α → Bool) : State α → State α → Prop
  | claim {s : State α} (h : s.producer = .idle) (room : s.prod + 1 ≤ s.seen + N) :
      Step N stop s { s with producer := .writing }
  | full {s : State α} (h : s.producer = .idle) (full : s.seen + N < s.prod + 1) :
      Step N stop s { s with producer := .spinning }
  | reclaim {s : State α} (h : s.producer = .spinning) (room : s.prod + 1 ≤ s.cons + N) :
      Step N stop s { s with seen := s.cons, producer := .writing }
  | spin {s : State α} (h : s.producer = .spinning) (full : s.cons + N < s.prod + 1) :
      Step N stop s { s with seen := s.cons, producer := .spinning }
  | write {s : State α} (x : α) (h : s.producer = .writing) :
      Step N stop s { s with buf := Function.update s.buf ((s.prod + 1) % N) x }
  | publish {s : State α} (h : s.producer = .writing) :
      Step N stop s
        { s with
          prod := s.prod + 1
          producer := .idle
          published := s.published ++ [s.buf ((s.prod + 1) % N)] }
  | wait {s : State α} (h : s.consumer = .waiting) (none : s.prod = s.seq) :
      Step N stop s { s with avail := s.prod, consumer := .waiting }
  | load {s : State α} (h : s.consumer = .waiting) (some : s.prod ≠ s.seq) :
      Step N stop s { s with avail := s.prod, consumer := .draining }
  | handle {s : State α} (h : s.consumer = .draining) (more : s.seq < s.avail) :
      Step N stop s
        { s with
          seq := s.seq + 1
          consumer := if stop (s.buf ((s.seq + 1) % N)) then .stopped else .draining
          handled := s.handled ++ [s.buf ((s.seq + 1) % N)] }
  | store {s : State α} (h : s.consumer = .draining) (done : ¬ s.seq < s.avail) :
      Step N stop s { s with cons := s.seq, consumer := .waiting }

/-- What any interleaving from the initial state reaches. -/
def Reachable (N : ℕ) (stop : α → Bool) (buf : ℕ → α) : State α → Prop :=
  Relation.ReflTransGen (Step N stop) (init buf)

/-- The protocol's invariant. -/
structure Inv (N : ℕ) (s : State α) : Prop where
  seen_le : s.seen ≤ s.cons
  cons_le : s.cons ≤ s.seq
  seq_le : s.seq ≤ s.avail
  avail_le : s.avail ≤ s.prod
  prod_le : s.prod ≤ s.seen + N
  room : s.producer = .writing → s.prod + 1 ≤ s.seen + N
  published_length : s.published.length = s.prod
  /-- The slots from the consumer's cursor to the producer's hold what was published. -/
  unread : ∀ i, s.cons ≤ i → i < s.prod → s.published[i]? = some (s.buf ((i + 1) % N))
  handled_eq : s.handled = s.published.take s.seq

theorem inv_init (N : ℕ) (buf : ℕ → α) : Inv N (init buf) where
  seen_le := le_rfl
  cons_le := le_rfl
  seq_le := le_rfl
  avail_le := le_rfl
  prod_le := Nat.zero_le _
  room := by simp [init]
  published_length := rfl
  unread := by simp [init]
  handled_eq := rfl

theorem Inv.cons_le_prod {s : State α} (h : Inv N s) : s.cons ≤ s.prod :=
  calc
    s.cons ≤ s.seq := h.cons_le
    _ ≤ s.avail := h.seq_le
    _ ≤ s.prod := h.avail_le

theorem Inv.seen_le_prod {s : State α} (h : Inv N s) : s.seen ≤ s.prod :=
  Nat.le_trans h.seen_le h.cons_le_prod

/-- Fewer than `N` events apart, two events live in different slots. -/
theorem slot_ne {i j : ℕ} (hij : i < j) (hji : j < i + N) : i % N ≠ j % N := by
  intro heq
  have hmod := Nat.sub_mod_eq_zero_of_mod_eq heq.symm
  rw [Nat.mod_eq_of_lt (by omega)] at hmod
  omega

/-- **A claimed slot is not the slot of an event the consumer has yet to release.** -/
theorem Inv.claimed_ne {s : State α} (h : Inv N s) (hw : s.producer = .writing) {i : ℕ}
    (hcons : s.cons ≤ i) (hprod : i < s.prod) : (i + 1) % N ≠ (s.prod + 1) % N := by
  have hroom := h.room hw
  have hseen := h.seen_le
  exact slot_ne (by omega) (by omega)

/-- The event a batch takes next is the next one published. -/
theorem Inv.next_eq {s : State α} (h : Inv N s) (hmore : s.seq < s.avail) :
    s.published[s.seq]? = some (s.buf ((s.seq + 1) % N)) :=
  h.unread s.seq h.cons_le (Nat.lt_of_lt_of_le hmore h.avail_le)

theorem Inv.handled_length {s : State α} (h : Inv N s) : s.handled.length = s.seq := by
  have hseq := h.seq_le
  have havail := h.avail_le
  rw [h.handled_eq, List.length_take, h.published_length]
  omega

/-! ## One step -/

theorem Inv.write {s : State α} (h : Inv N s) (hw : s.producer = .writing) (x : α) :
    Inv N { s with buf := Function.update s.buf ((s.prod + 1) % N) x } where
  __ := h
  unread := by
    intro i hcons hprod
    dsimp only
    rw [Function.update_of_ne (h.claimed_ne hw hcons hprod)]
    exact h.unread i hcons hprod

theorem Inv.publish {s : State α} (h : Inv N s) (hw : s.producer = .writing) :
    Inv N
      { s with
        prod := s.prod + 1
        producer := .idle
        published := s.published ++ [s.buf ((s.prod + 1) % N)] } where
  seen_le := h.seen_le
  cons_le := h.cons_le
  seq_le := h.seq_le
  avail_le := Nat.le_succ_of_le h.avail_le
  prod_le := h.room hw
  room := by simp
  published_length := by simp [h.published_length]
  unread := by
    intro i hcons hprod
    rcases Nat.lt_succ_iff_lt_or_eq.mp hprod with hlt | rfl
    · rw [List.getElem?_append_left (by rw [h.published_length]; exact hlt)]
      exact h.unread i hcons hlt
    · rw [← h.published_length]
      exact List.getElem?_concat_length
  handled_eq := by
    have hseq := h.seq_le
    have havail := h.avail_le
    have hlen := h.published_length
    dsimp only
    rw [List.take_append_of_le_length (by omega)]
    exact h.handled_eq

theorem Inv.handle {s : State α} (h : Inv N s) (hmore : s.seq < s.avail) (consumer : Consumer) :
    Inv N
      { s with
        seq := s.seq + 1
        consumer
        handled := s.handled ++ [s.buf ((s.seq + 1) % N)] } where
  __ := h
  cons_le := Nat.le_succ_of_le h.cons_le
  seq_le := hmore
  handled_eq := by
    dsimp only
    rw [List.take_add_one, h.next_eq hmore, h.handled_eq]
    rfl

/-- **Every step keeps the invariant.** -/
theorem Step.inv {s s' : State α} (hstep : Step N stop s s') (h : Inv N s) : Inv N s' := by
  have hseen := h.seen_le
  have hprod := h.prod_le
  cases hstep with
  | claim _ room => exact { h with room := fun _ => room }
  | full => exact { h with room := by simp }
  | reclaim _ room =>
    exact { h with seen_le := le_rfl, prod_le := by dsimp only; omega, room := fun _ => room }
  | spin => exact { h with seen_le := le_rfl, prod_le := by dsimp only; omega, room := by simp }
  | write x hw => exact h.write hw x
  | publish hw => exact h.publish hw
  | wait _ _ => exact { h with seq_le := Nat.le_trans h.seq_le h.avail_le, avail_le := le_rfl }
  | load _ _ => exact { h with seq_le := Nat.le_trans h.seq_le h.avail_le, avail_le := le_rfl }
  | handle _ more => exact h.handle more _
  | store _ _ =>
    exact
      { h with
        seen_le := Nat.le_trans h.seen_le h.cons_le
        cons_le := le_rfl
        unread := fun i hi => h.unread i (Nat.le_trans h.cons_le hi) }

/-- **Every reachable state satisfies the invariant.** -/
theorem Reachable.inv {buf : ℕ → α} {s : State α} (h : Reachable N stop buf s) : Inv N s := by
  induction h with
  | refl => exact inv_init N buf
  | tail _ hstep ih => exact hstep.inv ih

end LmaxBench.Spsc
