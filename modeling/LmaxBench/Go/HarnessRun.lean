import LmaxBench.Conformance.Operations
import LmaxBench.Go.Harness
import LmaxBench.Lib.Pipeline

/-!
# Runs of the harness in Go

What the main goroutine has sent and what the other one has handled, at every point of every
interleaving: the sender's part follows the script of the operations and their stamps, whichever
stores of the event under way are already made, and the receiver's part is the sequential fold
over what it handled. The ring brings the one to the other, since its cursors may wrap around
without harm.

## Main definitions

* `Pipe.Carries`, `Pipe.Carries.send_spec` — sending one event.
* `Harness.Fed`, `Harness.Drained` — the two parts of the invariant.
* `Harness.Inv`, `Harness.inv_run` — what holds under every interleaving.
* `Harness.Delivered` — what was handled once there is a report.
-/

namespace LmaxBench.Go

open Pipeline (Sent Folded due stamp stamped storeAll)

/-! ## Events and operations -/

@[simp] theorem Event.stops_iff (e : Event) : e.stops = true ↔ e.request? = none := by
  simp only [stops, request?, op?, Option.map_eq_none_iff]
  by_cases hlimit : e.kind = kindLimit
  · simp [hlimit]
  · by_cases hcancel : e.kind = kindCancel
    · simp [hcancel, show kindCancel ≠ kindLimit by decide]
    · simp [hlimit, hcancel]

theorem Event.request?_eq_some_iff {e : Event} {op : Cpp.Op} {ts : UInt64} :
    e.request? = some (op, ts) ↔ e.op? = some op ∧ e.ts = ts := by
  rw [request?, Option.map_eq_some_iff]
  constructor
  · rintro ⟨op', hop, heq⟩
    obtain ⟨rfl, rfl⟩ := Prod.mk.inj heq
    exact ⟨hop, rfl⟩
  · rintro ⟨hop, rfl⟩
    exact ⟨op, hop, rfl⟩

theorem Gen.kind_nextOp (g : Gen) : g.nextOp.kind = kindLimit ∨ g.nextOp.kind = kindCancel := by
  simp only [Gen.nextOp]
  split
  · exact Or.inl rfl
  · exact Or.inr rfl

/-- Whatever the slot held, the event of an operation asks for this operation, if its price and
its quantity fit into a word. -/
theorem op?_opStores {g : Gen} (hkind : g.kind = kindLimit ∨ g.kind = kindCancel)
    (hfit : ∀ {side price qty id}, g.op = .limit side price qty id →
      480 ≤ price ∧ price ≤ 1520 ∧ 1 ≤ qty ∧ qty ≤ 100) (ts : UInt64) (e : Event) :
    (storeAll Store.apply (opStores g ts) e).request? = some (g.op, ts) := by
  have hevent : storeAll Store.apply (opStores g ts) e =
      ⟨g.kind, g.side, Int64.ofInt g.price, Int64.ofInt g.qty, g.id, ts⟩ := rfl
  rw [hevent, Event.request?_eq_some_iff, Event.op?]
  refine ⟨?_, rfl⟩
  rcases hkind with hlimit | hcancel
  · have hg : g.op = .limit g.side g.price g.qty g.id := by rw [Gen.op, if_pos hlimit]
    obtain ⟨hp0, hp1, hq0, hq1⟩ := hfit hg
    rw [if_pos hlimit, hg, Int64.toInt_ofInt_of_le (by omega) (by omega),
      Int64.toInt_ofInt_of_le (by omega) (by omega)]
  · have hne : g.kind ≠ kindLimit := by
      rw [hcancel]
      decide
    rw [if_neg hne, if_pos hcancel, Gen.op, if_neg hne]

@[simp] theorem request?_opStores (seed : UInt64) (n : ℕ) (ts : UInt64) (e : Event) :
    (storeAll Store.apply (opStores ((Gen.new seed).after (n + 1)) ts) e).request? =
      some (((Gen.new seed).after (n + 1)).op, ts) := by
  refine op?_opStores ?_ ?_ ts e
  · rw [Gen.after_succ]
    exact Gen.kind_nextOp _
  · intro side price qty id hop
    rw [Gen.op_after_eq] at hop
    exact Cpp.Gen.limit_bounds seed hop

/-! ## Sending one event -/

/-- Whether the action is one of the main goroutine. -/
def Act.ofProducer : Act → Bool
  | .claim | .test | .write _ | .publish => true
  | .load | .take | .handle | .store => false

namespace Pipe

variable {p p' : Pipe} {todo : List Store} {P : Event → Prop}

/-- The slot that is being filled in. -/
def underWay? (p : Pipe) : Option ℕ :=
  match p.producer with
  | .writing slot => some slot.toNat
  | .idle | .spinning _ => none

/-- The event under way will have the property `P`, once the stores that are left are made. -/
def Carries (p : Pipe) (todo : List Store) (P : Event → Prop) : Prop :=
  Pipeline.Carries Store.apply p.underWay? p.ring.buf todo P

theorem carries_of_forall (p : Pipe) (h : ∀ e, P (storeAll Store.apply todo e)) :
    p.Carries todo P := Pipeline.carries_of_forall h

@[simp] theorem underWay?_of_writing {slot : UInt64} (hp : p.producer = .writing slot) :
    p.underWay? = some slot.toNat := by simp [underWay?, hp]

@[simp] theorem underWay?_of_ne (hp : ∀ slot, p.producer ≠ .writing slot) : p.underWay? = none := by
  cases hproducer : p.producer with
  | idle | spinning => simp [underWay?, hproducer]
  | writing slot => exact absurd hproducer (hp slot)

theorem Carries.claimed (h : p.Carries todo P) (hp : ∀ slot, p.producer ≠ .writing slot) :
    p'.Carries todo P := by
  rw [Carries, underWay?_of_ne hp] at h
  exact Pipeline.Carries.claimed h

/-- The consumer does not touch the event under way. -/
theorem Carries.frame (h : p.Carries todo P) (hproducer : p'.producer = p.producer)
    (hbuf : p'.ring.buf = p.ring.buf) : p'.Carries todo P := by
  rw [Carries, underWay?, hproducer, hbuf]
  exact h

theorem Carries.write {slot : UInt64} {e : Event} {st : Store} (h : p.Carries (st :: todo) P)
    (hp : p.producer = .writing slot) (hget : p.ring.buf[slot.toNat]? = some e) :
    Carries { p with ring := { p.ring with buf := p.ring.buf.set slot.toNat (st.apply e) } }
      todo P := by
  have hslot := underWay?_of_writing hp
  rw [Carries, hslot] at h
  show Pipeline.Carries Store.apply p.underWay? (p.ring.buf.set slot.toNat (st.apply e)) todo P
  rw [hslot]
  exact Pipeline.Carries.write h hget

/-- What is published. -/
theorem Carries.done {slot : UInt64} {e : Event} (h : p.Carries [] P)
    (hp : p.producer = .writing slot) (hget : p.ring.buf[slot.toNat]? = some e) : P e := by
  rw [Carries, underWay?_of_writing hp] at h
  exact Pipeline.Carries.done h hget

/-- What one step of sending an event does: it is an action of the main goroutine, and either
the event is still under way, or it was published as it should. -/
theorem Carries.send_spec (h : p.Carries todo P) {left : Option (List Store)}
    (hsend : p.send todo = some (p', left)) :
    ∃ a : Act, a.ofProducer = true ∧ p.step a = some p' ∧
      ((∃ todo', left = some todo' ∧ p'.Carries todo' P ∧ p'.published = p.published) ∨
        (left = none ∧ p'.producer = .idle ∧
          ∃ e, P e ∧ p'.published = p.published ++ [e])) := by
  simp only [send] at hsend
  split at hsend
  case h_1 hp =>
    obtain ⟨q, hstep, heq⟩ := Option.map_eq_some_iff.mp hsend
    obtain ⟨rfl, rfl⟩ := Prod.mk.inj heq
    obtain ⟨-, hq⟩ := Option.ite_none_right_eq_some.mp hstep
    obtain rfl := Option.some.inj hq
    exact ⟨.claim, rfl, hstep, Or.inl ⟨_, rfl, h.claimed (by simp [hp]), rfl⟩⟩
  case h_2 hp =>
    obtain ⟨q, hstep, heq⟩ := Option.map_eq_some_iff.mp hsend
    obtain ⟨rfl, rfl⟩ := Prod.mk.inj heq
    obtain ⟨next, -, rfl⟩ := step_test hstep
    exact ⟨.test, rfl, hstep, Or.inl ⟨_, rfl, h.claimed (by simp [hp]), rfl⟩⟩
  case h_3 slot st todo hp =>
    obtain ⟨q, hstep, heq⟩ := Option.map_eq_some_iff.mp hsend
    obtain ⟨rfl, rfl⟩ := Prod.mk.inj heq
    obtain ⟨slot', e, hp', hget, rfl⟩ := step_write hstep
    exact ⟨.write st, rfl, hstep, Or.inl ⟨_, rfl, h.write hp' hget, rfl⟩⟩
  case h_4 slot hp =>
    obtain ⟨q, hstep, heq⟩ := Option.map_eq_some_iff.mp hsend
    obtain ⟨rfl, rfl⟩ := Prod.mk.inj heq
    obtain ⟨slot', e, hp', hget, rfl⟩ := step_publish hstep
    exact ⟨.publish, rfl, hstep, Or.inr ⟨rfl, rfl, e, h.done hp' hget, rfl⟩⟩

/-- The main goroutine leaves the other one alone. -/
theorem producer_frame {a : Act} (ha : a.ofProducer = true) (hstep : p.step a = some p') :
    p'.consumer = p.consumer ∧ p'.handled = p.handled := by
  cases a with
  | claim =>
    obtain ⟨-, heq⟩ := Option.ite_none_right_eq_some.mp hstep
    obtain rfl := Option.some.inj heq
    exact ⟨rfl, rfl⟩
  | test =>
    obtain ⟨next, -, rfl⟩ := step_test hstep
    exact ⟨rfl, rfl⟩
  | write st =>
    obtain ⟨slot, e, -, -, rfl⟩ := step_write hstep
    exact ⟨rfl, rfl⟩
  | publish =>
    obtain ⟨slot, e, -, -, rfl⟩ := step_publish hstep
    exact ⟨rfl, rfl⟩
  | load | take | handle | store => simp [Act.ofProducer] at ha

theorem step_handle (hstep : p.step .handle = some p') :
    ∃ e, p.consumer = .handling ∧ p.ring.buf[(p.ring.slot p.seq).toNat]? = some e ∧
      p' = { p with
        consumer := if e.stops then .stopped else .releasing
        handled := p.handled ++ [e] } := by
  obtain ⟨hp, hbind⟩ := Option.ite_none_right_eq_some.mp hstep
  obtain ⟨e, hget, heq⟩ := Option.bind_eq_some_iff.mp hbind
  exact ⟨e, hp, hget, (Option.some.inj heq).symm⟩

/-- The other goroutine leaves the slots and the main one alone. -/
theorem consumer_frame {a : Act} (ha : a.ofProducer = false) (hstep : p.step a = some p') :
    p'.producer = p.producer ∧ p'.ring.buf = p.ring.buf ∧ p'.published = p.published := by
  cases a with
  | claim | test | write | publish => simp [Act.ofProducer] at ha
  | load =>
    obtain ⟨-, heq⟩ := Option.ite_none_right_eq_some.mp hstep
    obtain rfl := Option.some.inj heq
    exact ⟨rfl, rfl, rfl⟩
  | take =>
    obtain ⟨-, heq⟩ := Option.ite_none_right_eq_some.mp hstep
    obtain rfl := Option.some.inj heq
    exact ⟨rfl, rfl, rfl⟩
  | handle =>
    obtain ⟨e, -, -, rfl⟩ := step_handle hstep
    exact ⟨rfl, rfl, rfl⟩
  | store =>
    obtain ⟨-, heq⟩ := Option.ite_none_right_eq_some.mp hstep
    obtain rfl := Option.some.inj heq
    exact ⟨rfl, rfl, rfl⟩

/-- The event the consumer handles next is the next one published. -/
theorem Inv.published_handled (h : Inv p) (hp : p.consumer = .handling) :
    p.published[p.handled.length]? = p.ring.buf[(p.ring.slot p.seq).toNat]? := by
  have hlen := h.handled_length
  rw [hp] at hlen
  rw [hlen]
  exact (h.next_eq (hp ▸ rfl)).symm

theorem Inv.prefix_handled (h : Inv p) : p.handled <+: p.published :=
  h.handled ▸ List.take_prefix ..

end Pipe

namespace Harness

variable {σ H : Type} {E : Engine σ} {R : Hdr H} {c : Params} {t₀ : UInt64}

/-! ## The sender -/

/-- The stamp of the operation with the index `i`, in a run that starts at the time `t₀`. -/
def stampOf (c : Params) (t₀ : UInt64) (i : ℕ) : UInt64 :=
  if 0 < c.interval then stamp t₀ c.interval c.warmupOps i else 0

/-- What is asked for: the operations of the stream, with their stamps. -/
def requests (c : Params) (t₀ : UInt64) : List (Cpp.Op × UInt64) :=
  stamped (stampOf c t₀) ((Gen.new 42).ops c.totalOps.toNat)

@[simp] theorem length_requests (c : Params) (t₀ : UInt64) :
    (requests c t₀).length = c.totalOps.toNat := by
  rw [requests, Pipeline.length_stamped, Gen.length_ops]

@[simp] theorem getElem?_requests {n : ℕ} (hn : n < c.totalOps.toNat) :
    (requests c t₀)[n]? = some (((Gen.new 42).after (n + 1)).op, stampOf c t₀ n) := by
  rw [requests, Pipeline.getElem?_stamped, Gen.getElem?_ops _ hn, Option.map_some]

/-- The first `n` requests were published. -/
abbrev SentUpTo (c : Params) (t₀ : UInt64) (p : Pipe) (n : ℕ) : Prop :=
  Sent Event.request? (requests c t₀) p.published n

/-- What the main goroutine has sent, by where it is. -/
inductive Fed (c : Params) (t₀ now : UInt64) : Stage → Pipe → UInt64 → Gen → UInt64 → Prop
  | next {p : Pipe} {i : UInt64} {n : ℕ} (hi : i.toNat = n) (hn : n ≤ c.totalOps.toNat)
      (h : SentUpTo c t₀ p n) (hp : p.producer = .idle) :
      Fed c t₀ now .next p i ((Gen.new 42).after n) (due t₀ c.interval n)
  | pace {p : Pipe} {i : UInt64} {n : ℕ} (hi : i.toNat = n) (hn : n < c.totalOps.toNat)
      (h : SentUpTo c t₀ p n) (hp : p.producer = .idle) (hpos : 0 < c.interval) :
      Fed c t₀ now .pace p i ((Gen.new 42).after (n + 1)) (due t₀ c.interval (n + 1))
  | send {p : Pipe} {i : UInt64} {n : ℕ} {todo : List Store} (hi : i.toNat = n)
      (hn : n < c.totalOps.toNat) (h : SentUpTo c t₀ p n) (hts : stampOf c t₀ n ≤ now)
      (carries : p.Carries todo fun e =>
        e.request? = some (((Gen.new 42).after (n + 1)).op, stampOf c t₀ n)) :
      Fed c t₀ now (.send todo) p i ((Gen.new 42).after (n + 1)) (due t₀ c.interval (n + 1))
  | request {p : Pipe} {i nextDue : UInt64} {wl : Gen} {todo : List Store}
      (h : SentUpTo c t₀ p c.totalOps.toNat)
      (carries : p.Carries todo fun e => e.request? = none ∧ e.ts = 0) :
      Fed c t₀ now (.request todo) p i wl nextDue
  | await {p : Pipe} {i nextDue : UInt64} {wl : Gen} (h : SentUpTo c t₀ p (c.totalOps.toNat + 1)) :
      Fed c t₀ now .await p i wl nextDue
  | returned {p : Pipe} {i nextDue : UInt64} {wl : Gen}
      (h : SentUpTo c t₀ p (c.totalOps.toNat + 1)) : Fed c t₀ now .returned p i wl nextDue

section Fed
variable {now now' i nextDue : UInt64} {stage : Stage} {p p' : Pipe} {wl : Gen}

theorem Fed.exists_sent (h : Fed c t₀ now stage p i wl nextDue) : ∃ n, SentUpTo c t₀ p n := by
  cases h with
  | next _ _ h | pace _ _ h | send _ _ h | request h | await h | returned h => exact ⟨_, h⟩

/-- Nothing here depends on the other goroutine, and the clock only moves forward. -/
theorem Fed.frame (h : Fed c t₀ now stage p i wl nextDue) (hnow : now ≤ now')
    (hproducer : p'.producer = p.producer) (hbuf : p'.ring.buf = p.ring.buf)
    (hpublished : p'.published = p.published) : Fed c t₀ now' stage p' i wl nextDue := by
  cases h with
  | next hi hn h hp => exact .next hi hn (by rwa [SentUpTo, hpublished]) (hproducer.trans hp)
  | pace hi hn h hp hpos =>
    exact .pace hi hn (by rwa [SentUpTo, hpublished]) (hproducer.trans hp) hpos
  | send hi hn h hts carries =>
    exact .send hi hn (by rwa [SentUpTo, hpublished]) (hts.trans hnow)
      (carries.frame hproducer hbuf)
  | request h carries =>
    exact .request (by rwa [SentUpTo, hpublished]) (carries.frame hproducer hbuf)
  | await h => exact .await (by rwa [SentUpTo, hpublished])
  | returned h => exact .returned (by rwa [SentUpTo, hpublished])

end Fed

/-- The pipe after a step of a goroutine: as it was, or one of its actions further. -/
def Moved (producer : Bool) (p p' : Pipe) : Prop :=
  p' = p ∨ ∃ a : Act, a.ofProducer = producer ∧ p.step a = some p'

/-- The time of an event has come; a request for the report has none. -/
abbrev Timely (now : UInt64) (e : Event) : Prop := Pipeline.Timely Event.request? Event.ts now e

/-- A step publishes nothing, or an event whose time has come. -/
def Publishes (now : UInt64) (p p' : Pipe) : Prop :=
  p'.published = p.published ∨ ∃ e, p'.published = p.published ++ [e] ∧ Timely now e

/-- The stamp of an operation that is not paced, and of one that is due. -/
@[simp] theorem stampOf_of_zero (hzero : ¬0 < c.interval) (n : ℕ) : stampOf c t₀ n = 0 :=
  if_neg hzero

theorem stampOf_of_due (hpos : 0 < c.interval) {i : UInt64} {n : ℕ} (hi : i.toNat = n) :
    stampOf c t₀ n = if c.warmupOps ≤ i then due t₀ c.interval (n + 1) else 0 := by
  rw [stampOf, if_pos hpos, stamp, ← hi, UInt64.ofNat_toNat]

theorem due_succ_of_zero (hzero : ¬0 < c.interval) (n : ℕ) :
    due t₀ c.interval (n + 1) = due t₀ c.interval n := by
  have hinterval : c.interval = 0 := by
    rw [← UInt64.toNat_inj]
    have := mt UInt64.lt_iff_toNat_lt.mpr hzero
    simpa using this
  rw [Pipeline.due_succ, hinterval, UInt64.add_zero]

/-- **One step of the main goroutine.** -/
theorem producerStep_spec {s s' : Harness σ H}
    (h : Fed c t₀ s.now s.stage s.pipe s.i s.wl s.nextDue) (hstep : s.producerStep c = some s') :
    Fed c t₀ s'.now s'.stage s'.pipe s'.i s'.wl s'.nextDue ∧ Moved true s.pipe s'.pipe ∧
      Publishes s.now s.pipe s'.pipe ∧ s'.now = s.now ∧ s'.book = s.book ∧ s'.hist = s.hist ∧
        s'.done = s.done ∧ s'.times = s.times := by
  obtain ⟨now, pipe, stage, i, wl, nextDue, book, hist, done, times⟩ := s
  dsimp only at h
  cases h with
  | @next _ _ n hi hn h hp =>
    simp only [producerStep] at hstep
    split at hstep
    case isTrue hlt =>
      have hlt' : n < c.totalOps.toNat := hi ▸ UInt64.lt_iff_toNat_lt.mp hlt
      obtain rfl := Option.some.inj hstep
      rw [← Gen.after_succ, ← Pipeline.due_succ]
      split
      case isTrue hpos =>
        exact ⟨.pace hi hlt' h hp hpos, Or.inl rfl, Or.inl rfl, rfl, rfl, rfl, rfl, rfl⟩
      case isFalse hzero =>
        have hstamp : stampOf c t₀ n = 0 := stampOf_of_zero hzero n
        have hfed : Fed c t₀ now (.send (opStores ((Gen.new 42).after (n + 1)) 0)) pipe i
            ((Gen.new 42).after (n + 1)) (due t₀ c.interval (n + 1)) := by
          refine .send hi hlt' h ?_ ?_
          · rw [hstamp]
            exact UInt64.zero_le
          · refine Pipe.carries_of_forall _ fun e => ?_
            rw [hstamp]
            exact request?_opStores 42 n 0 e
        rw [due_succ_of_zero hzero] at hfed
        exact ⟨hfed, Or.inl rfl, Or.inl rfl, rfl, rfl, rfl, rfl, rfl⟩
    case isFalse hge =>
      obtain rfl := Option.some.inj hstep
      have htotal : n = c.totalOps.toNat := by
        have := mt UInt64.lt_iff_toNat_lt.mpr hge
        omega
      rw [htotal] at h
      exact ⟨.request h (Pipe.carries_of_forall _ fun e => ⟨rfl, rfl⟩), Or.inl rfl, Or.inl rfl,
        rfl, rfl, rfl, rfl, rfl⟩
  | @pace _ _ n hi hn h hp hpos =>
    simp only [producerStep] at hstep
    split at hstep
    case isTrue hwait =>
      obtain rfl := Option.some.inj hstep
      exact ⟨.pace hi hn h hp hpos, Or.inl rfl, Or.inl rfl, rfl, rfl, rfl, rfl, rfl⟩
    case isFalse hdue =>
      obtain rfl := Option.some.inj hstep
      have hstamp : stampOf c t₀ n =
          if c.warmupOps ≤ i then due t₀ c.interval (n + 1) else 0 := stampOf_of_due hpos hi
      refine ⟨.send hi hn h ?_ ?_, Or.inl rfl, Or.inl rfl, rfl, rfl, rfl, rfl, rfl⟩
      · rw [hstamp]
        split
        · exact not_lt.mp hdue
        · exact UInt64.zero_le
      · refine Pipe.carries_of_forall _ fun e => ?_
        rw [hstamp]
        exact request?_opStores 42 n _ e
  | @send _ _ n todo hi hn h hts carries =>
    obtain ⟨⟨pipe', left⟩, hsend, hleft⟩ := Option.bind_eq_some_iff.mp hstep
    obtain ⟨a, ha, hact, hcase⟩ := carries.send_spec hsend
    have hmoved : Moved true pipe pipe' := Or.inr ⟨a, ha, hact⟩
    rcases hcase with ⟨todo', rfl, carries', hpub⟩ | ⟨rfl, hidle, e, he, hpub⟩
    · obtain rfl := Option.some.inj hleft
      exact ⟨.send hi hn (by rwa [SentUpTo, hpub]) hts carries', hmoved, Or.inl hpub, rfl, rfl, rfl,
        rfl, rfl⟩
    · obtain rfl := Option.some.inj hleft
      have hlt := c.totalOps.toNat_lt
      have hnat : (i + 1).toNat = n + 1 := hi ▸ Word.toNat_add_one (by omega)
      have hsent : SentUpTo c t₀ pipe' (n + 1) := by
        rw [SentUpTo, hpub]
        exact h.snoc_op (getElem?_requests hn) he
      have hets := (Event.request?_eq_some_iff.mp he).2
      have htimely : Timely now e := ⟨hets ▸ hts, fun hnone => by simp [he] at hnone⟩
      exact ⟨.next hnat hn hsent hidle, hmoved, Or.inr ⟨e, hpub, htimely⟩, rfl, rfl, rfl, rfl, rfl⟩
  | @request _ _ _ _ todo h carries =>
    obtain ⟨⟨pipe', left⟩, hsend, hleft⟩ := Option.bind_eq_some_iff.mp hstep
    obtain ⟨a, ha, hact, hcase⟩ := carries.send_spec hsend
    have hmoved : Moved true pipe pipe' := Or.inr ⟨a, ha, hact⟩
    rcases hcase with ⟨todo', rfl, carries', hpub⟩ | ⟨rfl, -, e, ⟨he, hets⟩, hpub⟩
    · obtain rfl := Option.some.inj hleft
      exact ⟨.request (by rwa [SentUpTo, hpub]) carries', hmoved, Or.inl hpub, rfl, rfl, rfl, rfl,
        rfl⟩
    · obtain rfl := Option.some.inj hleft
      have hsent : SentUpTo c t₀ pipe' (c.totalOps.toNat + 1) := by
        have hlen := length_requests c t₀
        rw [SentUpTo, hpub, ← hlen]
        exact Sent.snoc_request (hlen.symm ▸ h) he
      have htimely : Timely now e := ⟨hets ▸ UInt64.zero_le, fun _ => hets⟩
      exact ⟨.await hsent, hmoved, Or.inr ⟨e, hpub, htimely⟩, rfl, rfl, rfl, rfl, rfl⟩
  | await h =>
    obtain ⟨-, heq⟩ := Option.ite_none_right_eq_some.mp hstep
    obtain rfl := Option.some.inj heq
    exact ⟨.returned h, Or.inl rfl, Or.inl rfl, rfl, rfl, rfl, rfl, rfl⟩
  | returned h => simp [producerStep] at hstep

/-! ## The receiver -/

/-- The fold does not look at the stamps. -/
def applyRequest (E : Engine σ) (b : σ) (x : Cpp.Op × UInt64) : Option σ := E.apply b x.1

/-- The histogram after some events, each with the time at which it was handled. -/
abbrev recorded (R : Hdr H) (handled : List Event) (times : List UInt64) : H :=
  Pipeline.recorded R.measure Event.ts R.new handled times

/-- What the other goroutine has made of the events it handled. -/
structure Drained (E : Engine σ) (R : Hdr H) (c : Params) (s : Harness σ H) : Prop where
  folded : ∃ b₀, E.new c.totalOps = some b₀ ∧ Folded Event.request? (applyRequest E) b₀
    s.pipe.handled (decide (s.pipe.consumer = .stopped)) s.book
  hist_eq : s.hist = recorded R s.pipe.handled s.times
  /-- No event is handled before its time. -/
  timely : List.Forall₂ (fun e t => e.ts ≤ t) s.pipe.handled s.times
  /-- There is a report once the request for it is handled. -/
  reported : s.pipe.consumer = .stopped ↔ s.done.isSome = true
  done_eq : ∀ {rep}, s.done = some rep → E.stats s.book = some rep.stats ∧ rep.hist = s.hist

section Drained
variable {s s' : Harness σ H}

theorem Drained.congr (h : Drained E R c s) (hconsumer : s'.pipe.consumer = s.pipe.consumer)
    (hhandled : s'.pipe.handled = s.pipe.handled) (hbook : s'.book = s.book)
    (hhist : s'.hist = s.hist) (hdone : s'.done = s.done) (htimes : s'.times = s.times) :
    Drained E R c s' where
  folded := by
    rw [hconsumer, hhandled, hbook]
    exact h.folded
  hist_eq := by
    rw [hhist, hhandled, htimes]
    exact h.hist_eq
  timely := by
    rw [hhandled, htimes]
    exact h.timely
  reported := by
    rw [hconsumer, hdone]
    exact h.reported
  done_eq := by
    rw [hdone, hbook, hhist]
    exact h.done_eq

/-- Between two events, the consumer only changes where it is. -/
theorem Drained.move (h : Drained E R c s) {pipe : Pipe} (hold : s.pipe.consumer ≠ .stopped)
    (hnew : pipe.consumer ≠ .stopped) (hhandled : pipe.handled = s.pipe.handled) :
    Drained E R c { s with pipe } where
  folded := by
    have hfolded := h.folded
    rw [decide_eq_false hold] at hfolded
    rw [decide_eq_false hnew, hhandled]
    exact hfolded
  hist_eq := by
    rw [hhandled]
    exact h.hist_eq
  timely := by
    rw [hhandled]
    exact h.timely
  reported := iff_of_false hnew (mt h.reported.mpr hold)
  done_eq := h.done_eq

@[simp] theorem Hdr.measure_zero (hist : H) (now : UInt64) : R.measure hist now 0 = hist := rfl

/-- **One event** is handled. -/
theorem Drained.handle (h : Drained E R c s) (hp : s.pipe.consumer = .handling) {e : Event}
    (he : Timely s.now e) {pipe : Pipe}
    (hconsumer : pipe.consumer = if e.stops then .stopped else .releasing)
    (hhandled : pipe.handled = s.pipe.handled ++ [e])
    (hevent : handleEvent E R { s with pipe } e = some s') :
    Drained E R c s' ∧ s'.pipe = pipe ∧ s'.stage = s.stage ∧ s'.i = s.i ∧ s'.wl = s.wl ∧
      s'.nextDue = s.nextDue ∧ s'.now = s.now := by
  have hnot : s.pipe.consumer ≠ .stopped := by simp [hp]
  obtain ⟨b₀, hnew, hfolded⟩ := h.folded
  rw [decide_eq_false hnot] at hfolded
  have hsnoc : recorded R (s.pipe.handled ++ [e]) (s.times ++ [s.now]) =
      R.measure (recorded R s.pipe.handled s.times) s.now e.ts :=
    Pipeline.recorded_snoc h.timely.length_eq e s.now
  have htimely : List.Forall₂ (fun e t => e.ts ≤ t) pipe.handled (s.times ++ [s.now]) := by
    rw [hhandled]
    exact List.rel_append h.timely (.cons he.1 .nil)
  simp only [handleEvent] at hevent
  split at hevent
  case h_1 op hop =>
    obtain ⟨book, happly, heq⟩ := Option.bind_eq_some_iff.mp hevent
    obtain rfl := Option.some.inj heq
    have hreq : e.request? = some (op, e.ts) := Event.request?_eq_some_iff.mpr ⟨hop, rfl⟩
    have hgoes : e.stops ≠ true := by
      rw [ne_eq, Event.stops_iff, hreq]
      simp
    rw [if_neg hgoes] at hconsumer
    refine ⟨?_, rfl, rfl, rfl, rfl, rfl, rfl⟩
    constructor
    case folded =>
      rw [hconsumer, hhandled]
      exact ⟨b₀, hnew, hfolded.snoc_op hreq happly⟩
    case hist_eq =>
      dsimp only
      rw [hhandled, hsnoc, ← h.hist_eq]
    case timely => exact htimely
    case reported => exact iff_of_false (by simp [hconsumer]) (mt h.reported.mpr hnot)
    case done_eq =>
      intro rep hrep
      exact absurd (Option.isSome_of_eq_some hrep) (mt h.reported.mpr hnot)
  case h_2 hop =>
    obtain ⟨stats, hstats, heq⟩ := Option.bind_eq_some_iff.mp hevent
    obtain rfl := Option.some.inj heq
    have hreq : e.request? = none := Option.map_eq_none_iff.mpr hop
    rw [if_pos ((Event.stops_iff e).mpr hreq)] at hconsumer
    refine ⟨?_, rfl, rfl, rfl, rfl, rfl, rfl⟩
    constructor
    case folded =>
      rw [hconsumer, hhandled]
      exact ⟨b₀, hnew, hfolded.snoc_request hreq⟩
    case hist_eq =>
      dsimp only
      rw [hhandled, hsnoc, he.2 hreq, Hdr.measure_zero, ← h.hist_eq]
    case timely => exact htimely
    case reported => exact iff_of_true hconsumer rfl
    case done_eq =>
      intro rep hrep
      obtain rfl := Option.some.inj hrep
      exact ⟨hstats, rfl⟩

end Drained

/-! ## Runs -/

/-- What holds at every point of every interleaving. -/
structure Inv (E : Engine σ) (R : Hdr H) (c : Params) (t₀ : UInt64) (s : Harness σ H) : Prop where
  pipe : s.pipe.Inv
  fed : Fed c t₀ s.now s.stage s.pipe s.i s.wl s.nextDue
  timely : ∀ e ∈ s.pipe.published, Timely s.now e
  drained : Drained E R c s

/-- What it takes to start. -/
theorem start_eq_some_iff {s : Harness σ H} :
    start E R c t₀ = some s ↔ ∃ book, E.new c.totalOps = some book ∧
      some ({ now := t₀, pipe := Pipe.new, nextDue := t₀, book, hist := R.new } : Harness σ H) =
        some s :=
  Option.bind_eq_some_iff

/-- A run starts, and then takes its turns. -/
theorem exists_start {turns : List Turn} {s : Harness σ H} (hrun : run E R c t₀ turns = some s) :
    ∃ s₀, start E R c t₀ = some s₀ ∧ turns.foldlM (step E R c) s₀ = some s :=
  Option.bind_eq_some_iff.mp hrun

theorem exists_new_of_run {turns : List Turn} {s : Harness σ H}
    (hrun : run E R c t₀ turns = some s) : ∃ book, E.new c.totalOps = some book := by
  obtain ⟨s₀, hs₀, -⟩ := exists_start hrun
  obtain ⟨book, hnew, -⟩ := start_eq_some_iff.mp hs₀
  exact ⟨book, hnew⟩

/-- What the start has and every turn keeps holds of every run. -/
theorem run_invariant {turns : List Turn} {s : Harness σ H} (P : Harness σ H → Prop)
    (hstart : ∀ {s₀}, start E R c t₀ = some s₀ → P s₀)
    (hstep : ∀ s turn s', P s → s.step E R c turn = some s' → P s')
    (hrun : run E R c t₀ turns = some s) : P s := by
  obtain ⟨s₀, hs₀, hturns⟩ := exists_start hrun
  exact Loop.foldlM_invariant P hstep (hstart hs₀) hturns

theorem inv_start {s : Harness σ H} (hstart : start E R c t₀ = some s) : Inv E R c t₀ s := by
  obtain ⟨book, hnew, heq⟩ := start_eq_some_iff.mp hstart
  obtain rfl := Option.some.inj heq
  constructor
  case pipe => exact Pipe.inv_new
  case fed =>
    have hfed : Fed c t₀ t₀ .next Pipe.new 0 ((Gen.new 42).after 0) (due t₀ c.interval 0) :=
      .next rfl (Nat.zero_le _) .nil rfl
    rw [Pipeline.due_zero] at hfed
    exact hfed
  case timely => simp [Pipe.new]
  case drained =>
    exact
      { folded := ⟨book, hnew, .nil⟩
        hist_eq := rfl
        timely := .nil
        reported := by simp [Pipe.new]
        done_eq := by simp }

theorem Moved.inv {producer : Bool} {p p' : Pipe} (h : Moved producer p p') (hp : p.Inv) :
    p'.Inv := by
  rcases h with rfl | ⟨a, -, hstep⟩
  · exact hp
  · exact Pipe.inv_step hp hstep

/-- **One step of the other goroutine.** -/
theorem consumerStep_spec {s s' : Harness σ H} (h : Inv E R c t₀ s)
    (hstep : s.consumerStep E R = some s') :
    Drained E R c s' ∧ Moved false s.pipe s'.pipe ∧ s'.stage = s.stage ∧ s'.i = s.i ∧
      s'.wl = s.wl ∧ s'.nextDue = s.nextDue ∧ s'.now = s.now := by
  simp only [consumerStep] at hstep
  split at hstep
  case h_1 hp =>
    obtain ⟨pipe, hload, heq⟩ := Option.bind_eq_some_iff.mp hstep
    obtain rfl := Option.some.inj heq
    have hmoved : Moved false s.pipe pipe := Or.inr ⟨.load, rfl, hload⟩
    obtain ⟨-, hpipe⟩ := Option.ite_none_right_eq_some.mp hload
    obtain rfl := Option.some.inj hpipe
    refine ⟨h.drained.move (by simp [hp]) ?_ rfl, hmoved, rfl, rfl, rfl, rfl, rfl⟩
    dsimp only
    split <;> simp
  case h_2 hp =>
    obtain ⟨pipe, htake, heq⟩ := Option.bind_eq_some_iff.mp hstep
    obtain rfl := Option.some.inj heq
    have hmoved : Moved false s.pipe pipe := Or.inr ⟨.take, rfl, htake⟩
    obtain ⟨-, hpipe⟩ := Option.ite_none_right_eq_some.mp htake
    obtain rfl := Option.some.inj hpipe
    exact ⟨h.drained.move (by simp [hp]) (by simp) rfl, hmoved, rfl, rfl, rfl, rfl, rfl⟩
  case h_3 hp =>
    obtain ⟨e, hget, hbind⟩ := Option.bind_eq_some_iff.mp hstep
    obtain ⟨pipe, hhandle, hevent⟩ := Option.bind_eq_some_iff.mp hbind
    have hmoved : Moved false s.pipe pipe := Or.inr ⟨.handle, rfl, hhandle⟩
    obtain ⟨e', -, hget', hpipe⟩ := Pipe.step_handle hhandle
    obtain rfl := Option.some.inj (hget.symm.trans hget')
    have hmem : e ∈ s.pipe.published :=
      List.mem_of_getElem? ((h.pipe.published_handled hp).trans hget)
    obtain ⟨hdrained, rfl, hframe⟩ := h.drained.handle hp (h.timely e hmem)
      (congrArg Pipe.consumer hpipe) (congrArg Pipe.handled hpipe) hevent
    exact ⟨hdrained, hmoved, hframe⟩
  case h_4 hp =>
    obtain ⟨pipe, hstore, heq⟩ := Option.bind_eq_some_iff.mp hstep
    obtain rfl := Option.some.inj heq
    have hmoved : Moved false s.pipe pipe := Or.inr ⟨.store, rfl, hstore⟩
    obtain ⟨-, hpipe⟩ := Option.ite_none_right_eq_some.mp hstore
    obtain rfl := Option.some.inj hpipe
    exact ⟨h.drained.move (by simp [hp]) (by simp) rfl, hmoved, rfl, rfl, rfl, rfl, rfl⟩
  case h_5 hp => simp at hstep

/-- **Every turn keeps the invariant.** -/
theorem inv_step {s s' : Harness σ H} {turn : Turn} (h : Inv E R c t₀ s)
    (hstep : s.step E R c turn = some s') : Inv E R c t₀ s' := by
  cases turn with
  | tick now =>
    obtain ⟨hnow, heq⟩ := Option.ite_none_right_eq_some.mp hstep
    obtain rfl := Option.some.inj heq
    exact ⟨h.pipe, h.fed.frame hnow rfl rfl rfl, fun e he => (h.timely e he).mono hnow,
      h.drained.congr rfl rfl rfl rfl rfl rfl⟩
  | producer =>
    obtain ⟨hfed, hmoved, hpublishes, hnow, hbook, hhist, hdone, htimes⟩ :=
      producerStep_spec h.fed hstep
    refine ⟨hmoved.inv h.pipe, hfed, ?_, ?_⟩
    · rw [hnow]
      rcases hpublishes with hpub | ⟨e, hpub, he⟩
      · exact hpub ▸ h.timely
      · rw [hpub]
        intro e' he'
        rcases List.mem_append.mp he' with hold | hnew
        · exact h.timely e' hold
        · exact List.mem_singleton.mp hnew ▸ he
    · rcases hmoved with hsame | ⟨a, ha, hact⟩
      · exact h.drained.congr (hsame ▸ rfl) (hsame ▸ rfl) hbook hhist hdone htimes
      · obtain ⟨hconsumer, hhandled⟩ := Pipe.producer_frame ha hact
        exact h.drained.congr hconsumer hhandled hbook hhist hdone htimes
  | consumer =>
    obtain ⟨hdrained, hmoved, hstage, hi, hwl, hdue, hnow⟩ := consumerStep_spec h hstep
    have hframe : s'.pipe.producer = s.pipe.producer ∧ s'.pipe.ring.buf = s.pipe.ring.buf ∧
        s'.pipe.published = s.pipe.published := by
      rcases hmoved with hsame | ⟨a, ha, hact⟩
      · exact ⟨hsame ▸ rfl, hsame ▸ rfl, hsame ▸ rfl⟩
      · exact Pipe.consumer_frame ha hact
    obtain ⟨hproducer, hbuf, hpublished⟩ := hframe
    refine ⟨hmoved.inv h.pipe, ?_, ?_, hdrained⟩
    · rw [hstage, hi, hwl, hdue, hnow]
      exact h.fed.frame le_rfl hproducer hbuf hpublished
    · rw [hnow, hpublished]
      exact h.timely

theorem inv_run {turns : List Turn} {s : Harness σ H} (hrun : run E R c t₀ turns = some s) :
    Inv E R c t₀ s :=
  run_invariant (Inv E R c t₀) inv_start (fun _ _ _ h hstep => inv_step h hstep) hrun

/-! ## The report -/

/-- What there is once the report is. -/
structure Delivered (E : Engine σ) (R : Hdr H) (c : Params) (t₀ : UInt64) (s : Harness σ H)
    (rep : Report H) : Prop where
  /-- Every operation was handled, once and in order, with its stamp, and then the request. -/
  handled : s.pipe.handled.map Event.request? = Pipeline.script (requests c t₀)
  /-- The statistics are those of the sequential fold. -/
  stats : ∃ b, E.run c.totalOps ((Gen.new 42).ops c.totalOps.toNat) = some b ∧
    E.stats b = some rep.stats
  /-- The histogram has a recording for each stamp, made at the time of the handling. -/
  hist : rep.hist = recorded R s.pipe.handled s.times
  timely : List.Forall₂ (fun e t => e.ts ≤ t) s.pipe.handled s.times

@[simp] theorem foldlM_requests (E : Engine σ) (c : Params) (t₀ : UInt64) (b : σ) :
    (requests c t₀).foldlM (applyRequest E) b =
      ((Gen.new 42).ops c.totalOps.toNat).foldlM E.apply b :=
  Pipeline.foldlM_stamped _ _ E.apply b

theorem Inv.delivered {s : Harness σ H} (h : Inv E R c t₀ s) {rep : Report H}
    (hrep : s.done = some rep) : Delivered E R c t₀ s rep := by
  obtain ⟨n, hsent⟩ := h.fed.exists_sent
  have hstop := h.drained.reported.mpr (Option.isSome_of_eq_some hrep)
  obtain ⟨b₀, hnew, hfolded⟩ := h.drained.folded
  rw [decide_eq_true hstop] at hfolded
  obtain ⟨hhandled, hrun⟩ := hfolded.eq_run hsent h.pipe.prefix_handled
  obtain ⟨hstats, hhist⟩ := h.drained.done_eq hrep
  rw [foldlM_requests] at hrun
  have hb : E.run c.totalOps ((Gen.new 42).ops c.totalOps.toNat) = some s.book :=
    Option.bind_eq_some_iff.mpr ⟨b₀, hnew, hrun⟩
  exact ⟨hhandled, ⟨_, hb, hstats⟩, hhist.trans h.drained.hist_eq, h.drained.timely⟩

/-- The engine can be made, and does not fault on the stream. -/
def Serves (E : Engine σ) (c : Params) : Prop :=
  ∃ b₀, E.new c.totalOps = some b₀ ∧
    Pipeline.Serves E.apply E.stats b₀ ((Gen.new 42).ops c.totalOps.toNat)

/-- **Until it is done, the other goroutine can take its turn**: no slot is out of bounds, and no
call to the engine panics. -/
theorem Inv.consumer_ready {s : Harness σ H} (h : Inv E R c t₀ s) (hserves : Serves E c)
    (hp : s.pipe.consumer ≠ .stopped) : ∃ s', s.consumerStep E R = some s' := by
  obtain ⟨n, hsent⟩ := h.fed.exists_sent
  obtain ⟨b₀, hnew, hfolded⟩ := h.drained.folded
  obtain ⟨b₁, hnew₁, hserves⟩ := hserves
  obtain rfl : b₁ = b₀ := Option.some.inj (hnew₁.symm.trans hnew)
  rw [decide_eq_false hp] at hfolded
  cases hc : s.pipe.consumer with
  | stopped => exact absurd hc hp
  | waiting =>
    obtain ⟨pipe, hpipe⟩ : ∃ pipe, s.pipe.step .load = some pipe := ⟨_, if_pos hc⟩
    refine ⟨{ s with pipe }, ?_⟩
    simp only [consumerStep, hc, hpipe]
    rfl
  | ready =>
    obtain ⟨pipe, hpipe⟩ : ∃ pipe, s.pipe.step .take = some pipe := ⟨_, if_pos hc⟩
    refine ⟨{ s with pipe }, ?_⟩
    simp only [consumerStep, hc, hpipe]
    rfl
  | releasing =>
    obtain ⟨pipe, hpipe⟩ : ∃ pipe, s.pipe.step .store = some pipe := ⟨_, if_pos hc⟩
    refine ⟨{ s with pipe }, ?_⟩
    simp only [consumerStep, hc, hpipe]
    rfl
  | handling =>
    have hlt : s.pipe.handled.length < s.pipe.published.length := by
      have hlen := h.pipe.handled_length
      have hsaw := h.pipe.saw
      rw [hc] at hlen hsaw
      simp only [Consumer.gave, Consumer.saw] at hlen hsaw
      omega
    obtain ⟨e, he⟩ : ∃ e, s.pipe.published[s.pipe.handled.length]? = some e :=
      ⟨_, List.getElem?_eq_getElem hlt⟩
    have hget := (h.pipe.published_handled hc).symm.trans he
    have hhandle : ∃ pipe, s.pipe.step .handle = some pipe := by
      simp only [Pipe.step, hc, if_true, hget]
      exact ⟨_, rfl⟩
    obtain ⟨pipe, hpipe⟩ := hhandle
    have hevent : ∃ s', handleEvent E R { s with pipe } e = some s' := by
      cases hop : e.op? with
      | some op =>
        obtain ⟨b, hb⟩ := hfolded.exists_apply hsent h.pipe.prefix_handled hserves.stamped he
          (Event.request?_eq_some_iff.mpr ⟨hop, rfl⟩)
        have hb' : E.apply s.book op = some b := hb
        simp only [handleEvent, hop, hb']
        exact ⟨_, rfl⟩
      | none =>
        obtain ⟨stats, hstats⟩ := hfolded.exists_result hsent h.pipe.prefix_handled
          hserves.stamped he (Option.map_eq_none_iff.mpr hop)
        simp only [handleEvent, hop, hstats]
        exact ⟨_, rfl⟩
    obtain ⟨s', hs'⟩ := hevent
    refine ⟨s', ?_⟩
    simp only [consumerStep, hc, hget, hpipe]
    exact hs'

end Harness
end LmaxBench.Go
