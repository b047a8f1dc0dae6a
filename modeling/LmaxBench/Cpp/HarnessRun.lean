import LmaxBench.Cpp.Harness
import LmaxBench.Cpp.Stream
import LmaxBench.Lib.Pipeline

/-!
# Runs of the pipeline

What the producer has published and what the consumer has applied, at every point of every
interleaving. The events the producer publishes ask for the operations of the generated
stream, one after the other, and then for the report, whichever stores of the event under
way are already made. The consumer has handled a prefix of them, and its engine is the
sequential fold over that prefix.

## Main definitions

* `Harness.Fed`, `Harness.Drained` — the producer's and the consumer's part of the invariant.
* `Harness.Inv`, `Harness.inv_run` — what holds under every interleaving.
* `Harness.schedule_independent` — every interleaving reports the same.
-/

namespace LmaxBench.Cpp

open Pipeline (storeAll)

/-! ## The engine -/

section Engine
variable {σ : Type} {E : Engine σ} {n : UInt64} {ops : List Op} {op : Op} {book book' : σ}

@[simp] theorem Engine.run_nil (E : Engine σ) (n : UInt64) : E.run n [] = E.new n :=
  Option.bind_fun_some (E.new n)

@[simp] theorem Engine.run_append (E : Engine σ) (n : UInt64) (ops ops' : List Op) :
    E.run n (ops ++ ops') = (E.run n ops).bind fun book => ops'.foldlM E.apply book := by
  simp [run, List.foldlM_append, Option.bind_assoc]

theorem Engine.run_snoc (h : E.run n ops = some book) (happly : E.apply book op = some book') :
    E.run n (ops ++ [op]) = some book' := by
  simp [h, happly]

theorem Engine.exists_new (h : E.run n ops = some book) : ∃ book₀, E.new n = some book₀ := by
  obtain ⟨book₀, hnew, -⟩ := Option.bind_eq_some_iff.mp h
  exact ⟨book₀, hnew⟩

theorem TunedBook.new_engine (h : (n + 2).toNat ≤ maxSize 16) : engine.new n = some (new n) :=
  if_pos h

theorem TunedBook.le_of_new {t : TunedBook} (h : engine.new n = some t) :
    (n + 2).toNat ≤ maxSize 16 := (Option.ite_none_right_eq_some.mp h).1

end Engine

/-! ## Events and operations -/

theorem Gen.kind_nextOp (g : Gen) : g.nextOp.kind = kindLimit ∨ g.nextOp.kind = kindCancel := by
  simp only [Gen.nextOp]
  split
  · simp
  · simp

/-- Whatever the slot held, the event of an operation asks for this operation. -/
theorem op?_opStores {g : Gen} (hg : g.kind = kindLimit ∨ g.kind = kindCancel) (ts : UInt64)
    (e : Event) : (storeAll Store.apply (opStores g ts) e).op? = some g.op := by
  have hevent : storeAll Store.apply (opStores g ts) e =
      ⟨g.kind, g.side, g.price, g.qty, g.id, ts⟩ := rfl
  rw [hevent, Event.op?, Gen.op]
  rcases hg with hkind | hkind
  · rw [hkind]
    rfl
  · rw [hkind]
    rfl

@[simp] theorem op?_reportStores (e : Event) :
    (storeAll Store.apply reportStores e).op? = none := rfl

/-! ## Sending one event -/

/-- The slot that is being filled in. -/
def Pipe.underWay? (p : Pipe) : Option ℕ :=
  match p.producer with
  | .writing slot => some slot.toNat
  | .idle | .spinning => none

/-- The event under way will have the property `P`, once the stores that are left are made. -/
def Pipe.Carries (p : Pipe) (todo : List Store) (P : Event → Prop) : Prop :=
  Pipeline.Carries Store.apply p.underWay? p.ring.buf todo P

/-- The event under way will ask for `x`. -/
abbrev Pipe.Sends (p : Pipe) (todo : List Store) (x : Option Op) : Prop :=
  p.Carries todo fun e => e.op? = x

namespace Pipe

variable {N : UInt64} {p p' : Pipe} {todo : List Store} {x : Option Op} {P : Event → Prop}

theorem carries_of_forall (p : Pipe) (h : ∀ e, P (storeAll Store.apply todo e)) :
    p.Carries todo P := Pipeline.carries_of_forall h

theorem underWay?_of_writing {slot : UInt64} (hp : p.producer = .writing slot) :
    p.underWay? = some slot.toNat := by simp [underWay?, hp]

theorem underWay?_of_ne (hp : ∀ slot, p.producer ≠ .writing slot) : p.underWay? = none := by
  cases hproducer : p.producer with
  | idle | spinning => simp [underWay?, hproducer]
  | writing slot => exact absurd hproducer (hp slot)

theorem Carries.claimed (h : p.Carries todo P) (hp : ∀ slot, p.producer ≠ .writing slot) :
    p'.Carries todo P := by
  rw [Carries, underWay?_of_ne hp] at h
  exact Pipeline.Carries.claimed h

/-- The consumer does not touch the event under way. -/
theorem Carries.frame (h : p.Carries todo P) (hproducer : p'.producer = p.producer)
    (hbuf : p'.ring.buf = p.ring.buf) : p'.Carries todo P := by
  rw [Carries, underWay?, hproducer, hbuf]
  exact h

theorem Carries.write {slot : UInt64} {e : Event} {st : Store} (h : p.Carries (st :: todo) P)
    (hp : p.producer = .writing slot) (hget : p.ring.buf[slot.toNat]? = some e) :
    Carries { p with ring := { p.ring with buf := p.ring.buf.set slot.toNat (st.apply e) } }
      todo P := by
  have hslot := underWay?_of_writing hp
  rw [Carries, hslot] at h
  show Pipeline.Carries Store.apply p.underWay? (p.ring.buf.set slot.toNat (st.apply e)) todo P
  rw [hslot]
  exact Pipeline.Carries.write h hget

/-- What is published. -/
theorem Carries.done {slot : UInt64} {e : Event} (h : p.Carries [] P)
    (hp : p.producer = .writing slot) (hget : p.ring.buf[slot.toNat]? = some e) : P e := by
  rw [Carries, underWay?_of_writing hp] at h
  exact Pipeline.Carries.done h hget

/-- What one step of sending an event does: it is an action of the producer, and either
the event is still under way, or it was published as it should. -/
theorem Carries.send_spec (h : p.Carries todo P) {left : Option (List Store)}
    (hsend : p.send N todo = some (p', left)) :
    ∃ a : Act, a.ofProducer = true ∧ p.step N Event.isReport a = some p' ∧
      ((∃ todo', left = some todo' ∧ p'.Carries todo' P ∧ p'.published = p.published) ∨
        (left = none ∧ p'.producer = .idle ∧
          ∃ e, P e ∧ p'.published = p.published ++ [e])) := by
  simp only [send] at hsend
  split at hsend
  case h_1 hp =>
    obtain ⟨q, hstep, heq⟩ := Option.map_eq_some_iff.mp hsend
    obtain ⟨rfl, rfl⟩ := Prod.mk.inj heq
    obtain ⟨-, rfl⟩ := step_claim hstep
    exact ⟨.claim, rfl, hstep, Or.inl ⟨_, rfl, h.claimed (by simp [hp]), rfl⟩⟩
  case h_2 hp =>
    obtain ⟨q, hstep, heq⟩ := Option.map_eq_some_iff.mp hsend
    obtain ⟨rfl, rfl⟩ := Prod.mk.inj heq
    obtain ⟨-, rfl⟩ := step_reload hstep
    exact ⟨.reload, rfl, hstep, Or.inl ⟨_, rfl, h.claimed (by simp [hp]), rfl⟩⟩
  case h_3 slot st todo hp =>
    obtain ⟨q, hstep, heq⟩ := Option.map_eq_some_iff.mp hsend
    obtain ⟨rfl, rfl⟩ := Prod.mk.inj heq
    obtain ⟨slot', e, hp', hget, rfl⟩ := step_write hstep
    exact ⟨.write st, rfl, hstep, Or.inl ⟨_, rfl, h.write hp' hget, rfl⟩⟩
  case h_4 slot hp =>
    obtain ⟨q, hstep, heq⟩ := Option.map_eq_some_iff.mp hsend
    obtain ⟨rfl, rfl⟩ := Prod.mk.inj heq
    obtain ⟨slot', e, hp', hget, rfl⟩ := step_publish hstep
    exact ⟨.publish, rfl, hstep, Or.inr ⟨rfl, rfl, e, h.done hp' hget, rfl⟩⟩

end Pipe

/-! ## The producer -/

/-- What the events ask for in turn: the operations of the stream, then the report. -/
def script (c : Params) : List (Option Op) :=
  ((Gen.new 42).ops c.totalOps.toNat).map some ++ [none]

@[simp] theorem length_script (c : Params) : (script c).length = c.totalOps.toNat + 1 := by
  simp [script, Gen.ops]

theorem getElem?_script_of_lt {c : Params} {n : ℕ} (hn : n < c.totalOps.toNat) :
    (script c)[n]? = some (some ((Gen.new 42).after (n + 1)).op) := by
  rw [script, List.getElem?_append_left (by simpa [Gen.ops] using hn)]
  simp [Gen.ops, hn]

@[simp] theorem getElem?_script_total (c : Params) : (script c)[c.totalOps.toNat]? = some none := by
  rw [script, List.getElem?_append_right (by simp [Gen.ops])]
  simp [Gen.ops]

theorem take_script {c : Params} {n : ℕ} (hn : n ≤ c.totalOps.toNat) :
    (script c).take n = ((Gen.new 42).ops n).map some := by
  have hlen : n ≤ (((Gen.new 42).ops c.totalOps.toNat).map some).length := by
    simpa [Gen.ops] using hn
  rw [script, List.take_append_of_le_length hlen]
  simp only [Gen.ops, ← List.map_take, List.take_range, Nat.min_eq_left hn]

namespace Harness

variable {σ : Type} {E : Engine σ} {c : Params} {p p' : Pipe}

/-- The events published are the first `n` of the script. -/
def Published (c : Params) (p : Pipe) (n : ℕ) : Prop :=
  p.published.map Event.op? = (script c).take n

theorem Published.snoc {n : ℕ} {e : Event} (h : Published c p n)
    (he : (script c)[n]? = some e.op?) (hp : p'.published = p.published ++ [e]) :
    Published c p' (n + 1) := by
  rw [Published, hp, List.map_append, h, List.take_add_one, he]
  rfl

theorem Published.frame {n : ℕ} (h : Published c p n) (hp : p'.published = p.published) :
    Published c p' n := by
  rw [Published, hp]
  exact h

/-- Where the producer is, what it has published and what is under way. -/
inductive Fed (c : Params) : Stage → Pipe → UInt64 → Gen → Prop
  | next {p : Pipe} {i : UInt64} (idle : p.producer = .idle) (hi : i ≤ c.totalOps)
      (published : Published c p i.toNat) :
      Fed c .next p i ((Gen.new 42).after i.toNat)
  | pace {p : Pipe} {i : UInt64} (idle : p.producer = .idle) (hi : i < c.totalOps)
      (published : Published c p i.toNat) :
      Fed c .pace p i ((Gen.new 42).after (i.toNat + 1))
  | send {p : Pipe} {i : UInt64} {todo : List Store} (hi : i < c.totalOps)
      (published : Published c p i.toNat)
      (sends : p.Sends todo (some ((Gen.new 42).after (i.toNat + 1)).op)) :
      Fed c (.send todo) p i ((Gen.new 42).after (i.toNat + 1))
  | report {p : Pipe} {i : UInt64} {wl : Gen} {todo : List Store}
      (published : Published c p c.totalOps.toNat) (sends : p.Sends todo none) :
      Fed c (.report todo) p i wl
  | join {p : Pipe} {i : UInt64} {wl : Gen} (published : Published c p (c.totalOps.toNat + 1)) :
      Fed c .join p i wl

theorem Fed.exists_published {stage : Stage} {i : UInt64} {wl : Gen} (h : Fed c stage p i wl) :
    ∃ n, Published c p n := by
  cases h with
  | next _ _ hp | pace _ _ hp | send _ hp | report hp | join hp => exact ⟨_, hp⟩

theorem Fed.length_le {stage : Stage} {i : UInt64} {wl : Gen} (h : Fed c stage p i wl) :
    p.published.length ≤ c.totalOps.toNat + 1 := by
  obtain ⟨n, hn⟩ := h.exists_published
  have hlen := congrArg List.length hn
  rw [List.length_map, List.length_take, length_script] at hlen
  omega

/-- Nothing here depends on the consumer. -/
theorem Fed.frame {stage : Stage} {i : UInt64} {wl : Gen} (h : Fed c stage p i wl)
    (hproducer : p'.producer = p.producer) (hbuf : p'.ring.buf = p.ring.buf)
    (hpublished : p'.published = p.published) : Fed c stage p' i wl := by
  cases h with
  | next hp hi h => exact .next (hproducer.trans hp) hi (h.frame hpublished)
  | pace hp hi h => exact .pace (hproducer.trans hp) hi (h.frame hpublished)
  | send hi h hs => exact .send hi (h.frame hpublished) (hs.frame hproducer hbuf)
  | report h hs => exact .report (h.frame hpublished) (hs.frame hproducer hbuf)
  | join h => exact .join (h.frame hpublished)

/-- The pipe after a step of a thread: it is as it was, or one action of the thread further. -/
def Moved (c : Params) (producer : Bool) (p p' : Pipe) : Prop :=
  p' = p ∨ ∃ a : Act, a.ofProducer = producer ∧ p.step c.size Event.isReport a = some p'

/-- Before any of its stores, the event of an operation is on its way. -/
theorem sends_opStores (p : Pipe) (n : ℕ) (ts : UInt64) :
    p.Sends (opStores ((Gen.new 42).after (n + 1)) ts)
      (some ((Gen.new 42).after (n + 1)).op) := by
  refine p.carries_of_forall fun e => ?_
  rw [Gen.after_succ]
  exact op?_opStores (Gen.kind_nextOp _) ts e

/-- One step of sending event `n` of the script. -/
theorem send_published {n : ℕ} {x : Option Op} {todo : List Store} {left : Option (List Store)}
    (hpub : Published c p n) (hn : (script c)[n]? = some x) (hs : p.Sends todo x)
    (hsend : p.send c.size todo = some (p', left)) :
    Moved c true p p' ∧
      ((∃ todo', left = some todo' ∧ p'.Sends todo' x ∧ Published c p' n) ∨
        (left = none ∧ p'.producer = .idle ∧ Published c p' (n + 1))) := by
  obtain ⟨a, ha, hstep, hcase⟩ := Pipe.Carries.send_spec hs hsend
  refine ⟨Or.inr ⟨a, ha, hstep⟩, ?_⟩
  rcases hcase with ⟨todo', hleft, hs', hpub'⟩ | ⟨hleft, hidle, e, rfl, hpub'⟩
  · exact Or.inl ⟨todo', hleft, hs', hpub.frame hpub'⟩
  · exact Or.inr ⟨hleft, hidle, hpub.snoc hn hpub'⟩

/-- **One step of the producer.** -/
theorem producerStep_spec {s s' : Harness σ} (h : Fed c s.stage s.pipe s.i s.wl)
    (hstep : s.producerStep c = some s') :
    Fed c s'.stage s'.pipe s'.i s'.wl ∧ Moved c true s.pipe s'.pipe ∧ s'.book = s.book ∧
      s'.rep = s.rep := by
  obtain ⟨now, pipe, stage, i, wl, nextDue, book, rep⟩ := s
  dsimp only at h
  cases h with
  | next hp hi hpub =>
    simp only [producerStep] at hstep
    split at hstep
    case isTrue hlt =>
      obtain rfl := Option.some.inj hstep
      split
      · exact ⟨.pace hp hlt hpub, Or.inl rfl, rfl, rfl⟩
      · exact ⟨.send hlt hpub (sends_opStores _ _ 0), Or.inl rfl, rfl, rfl⟩
    case isFalse hge =>
      obtain rfl := Option.some.inj hstep
      obtain rfl : i = c.totalOps := le_antisymm hi (not_lt.mp hge)
      exact ⟨.report hpub (Pipe.carries_of_forall _ op?_reportStores), Or.inl rfl, rfl, rfl⟩
  | pace hp hi hpub =>
    simp only [producerStep] at hstep
    split at hstep
    case isTrue hwait =>
      obtain rfl := Option.some.inj hstep
      exact ⟨.pace hp hi hpub, Or.inl rfl, rfl, rfl⟩
    case isFalse hdue =>
      obtain rfl := Option.some.inj hstep
      exact ⟨.send hi hpub (sends_opStores _ _ _), Or.inl rfl, rfl, rfl⟩
  | send hi hpub hs =>
    obtain ⟨⟨pipe', left⟩, hsend, hleft⟩ := Option.bind_eq_some_iff.mp hstep
    have hlt := UInt64.lt_iff_toNat_lt.mp hi
    obtain ⟨hmoved, hcase⟩ := send_published hpub (getElem?_script_of_lt hlt) hs hsend
    rcases hcase with ⟨todo', rfl, hs', hpub'⟩ | ⟨rfl, hidle, hpub'⟩
    · obtain rfl := Option.some.inj hleft
      exact ⟨.send hi hpub' hs', hmoved, rfl, rfl⟩
    · obtain rfl := Option.some.inj hleft
      have htotal := c.totalOps.toNat_lt
      have hnat : (i + 1).toNat = i.toNat + 1 := Word.toNat_add_one (by omega)
      have hle : i + 1 ≤ c.totalOps := by
        rw [UInt64.le_iff_toNat_le, hnat]
        exact hlt
      have hnext : Fed c .next pipe' (i + 1) ((Gen.new 42).after (i + 1).toNat) :=
        .next hidle hle (hnat ▸ hpub')
      rw [hnat] at hnext
      exact ⟨hnext, hmoved, rfl, rfl⟩
  | report hpub hs =>
    obtain ⟨⟨pipe', left⟩, hsend, hleft⟩ := Option.bind_eq_some_iff.mp hstep
    obtain ⟨hmoved, hcase⟩ := send_published hpub (getElem?_script_total c) hs hsend
    rcases hcase with ⟨todo', rfl, hs', hpub'⟩ | ⟨rfl, hidle, hpub'⟩
    · obtain rfl := Option.some.inj hleft
      exact ⟨.report hpub' hs', hmoved, rfl, rfl⟩
    · obtain rfl := Option.some.inj hleft
      exact ⟨.join hpub', hmoved, rfl, rfl⟩
  | join hpub => simp [producerStep] at hstep

/-! ## The consumer -/

/-- The report of an engine in the state `book`. -/
structure Reports (E : Engine σ) (book : σ) (rep : Report) : Prop where
  fills : rep.fills = E.fills book
  volume : rep.volume = E.volume book
  resting : rep.resting = E.resting book
  checksum : E.checksum book = some rep.checksum

/-- The engine is the fold over what the consumer handled; the request for the report is
the last event it handles. -/
inductive Drained (E : Engine σ) (c : Params) : Spsc.Consumer → List Event → σ → Report → Prop
  | running {consumer : Spsc.Consumer} {handled : List Event} {ops : List Op} {book : σ}
      {rep : Report} (hc : consumer ≠ .stopped) (h : handled.map Event.op? = ops.map some)
      (hrun : E.run c.totalOps ops = some book) : Drained E c consumer handled book rep
  | stopped {handled : List Event} {ops : List Op} {book : σ} {rep : Report}
      (h : handled.map Event.op? = ops.map some ++ [none])
      (hrun : E.run c.totalOps ops = some book) (hrep : Reports E book rep) :
      Drained E c .stopped handled book rep

theorem Drained.running_of_ne {consumer : Spsc.Consumer} {handled : List Event} {book : σ}
    {rep : Report} (h : Drained E c consumer handled book rep) (hc : consumer ≠ .stopped) :
    ∃ ops, handled.map Event.op? = ops.map some ∧ E.run c.totalOps ops = some book := by
  cases h with
  | running _ h hrun => exact ⟨_, h, hrun⟩
  | stopped => exact absurd rfl hc

/-- One event, in the middle of a batch. -/
theorem drained_handleEvent {s s' : Harness σ} {pipe : Pipe} {e : Event}
    (h : Drained E c s.pipe.consumer s.pipe.handled s.book s.rep)
    (hp : s.pipe.consumer = .draining) (hnext : s.pipe.next? = some e)
    (hhandle : s.pipe.step c.size Event.isReport .handle = some pipe)
    (hevent : handleEvent E { s with pipe } e = some s') :
    Drained E c s'.pipe.consumer s'.pipe.handled s'.book s'.rep ∧ s'.pipe = pipe ∧
      s'.stage = s.stage ∧ s'.i = s.i ∧ s'.wl = s.wl := by
  obtain ⟨ops, hops, hrun⟩ := h.running_of_ne (by simp [hp])
  obtain ⟨e', hnext', -, -, rfl⟩ := Pipe.step_handle hhandle
  obtain rfl := Option.some.inj (hnext.symm.trans hnext')
  simp only [handleEvent] at hevent
  split at hevent
  case h_1 op hop =>
    obtain ⟨book, happly, heq⟩ := Option.bind_eq_some_iff.mp hevent
    obtain rfl := Option.some.inj heq
    refine ⟨.running ?_ ?_ (Engine.run_snoc hrun happly), rfl, rfl, rfl, rfl⟩
    · simp [Event.isReport, hop]
    · simp [hops, hop]
  case h_2 hop =>
    obtain ⟨checksum, hsum, heq⟩ := Option.bind_eq_some_iff.mp hevent
    obtain rfl := Option.some.inj heq
    refine ⟨?_, rfl, rfl, rfl, rfl⟩
    have hstop : (if e.isReport = true then Spsc.Consumer.stopped else .draining) = .stopped := by
      simp [Event.isReport, hop]
    rw [hstop]
    refine .stopped ?_ hrun ⟨rfl, rfl, rfl, hsum⟩
    simp [hops, hop]

/-- **One step of the consumer.** -/
theorem consumerStep_spec {s s' : Harness σ}
    (h : Drained E c s.pipe.consumer s.pipe.handled s.book s.rep)
    (hstep : s.consumerStep E c = some s') :
    Drained E c s'.pipe.consumer s'.pipe.handled s'.book s'.rep ∧ Moved c false s.pipe s'.pipe ∧
      s'.stage = s.stage ∧ s'.i = s.i ∧ s'.wl = s.wl := by
  simp only [consumerStep] at hstep
  split at hstep
  case h_1 hp =>
    obtain ⟨pipe, hload, heq⟩ := Option.bind_eq_some_iff.mp hstep
    obtain rfl := Option.some.inj heq
    obtain ⟨ops, hops, hrun⟩ := h.running_of_ne (by simp [hp])
    have hmoved : Moved c false s.pipe pipe := Or.inr ⟨.load, rfl, hload⟩
    obtain ⟨-, rfl⟩ := Pipe.step_load hload
    refine ⟨.running ?_ hops hrun, hmoved, rfl, rfl, rfl⟩
    dsimp only
    split <;> simp
  case h_2 hp =>
    split at hstep
    case isTrue hmore =>
      obtain ⟨e, hnext, hbind⟩ := Option.bind_eq_some_iff.mp hstep
      obtain ⟨pipe, hhandle, hevent⟩ := Option.bind_eq_some_iff.mp hbind
      obtain ⟨hdrained, rfl, hframe⟩ := drained_handleEvent h hp hnext hhandle hevent
      exact ⟨hdrained, Or.inr ⟨.handle, rfl, hhandle⟩, hframe⟩
    case isFalse hdone =>
      obtain ⟨pipe, hstore, heq⟩ := Option.bind_eq_some_iff.mp hstep
      obtain rfl := Option.some.inj heq
      obtain ⟨ops, hops, hrun⟩ := h.running_of_ne (by simp [hp])
      have hmoved : Moved c false s.pipe pipe := Or.inr ⟨.store, rfl, hstore⟩
      obtain ⟨-, -, rfl⟩ := Pipe.step_store hstore
      exact ⟨.running (by simp) hops hrun, hmoved, rfl, rfl, rfl⟩
  case h_3 hp => simp at hstep

/-! ## Runs -/

/-- What holds at every point of every interleaving. -/
structure Inv (E : Engine σ) (c : Params) (s : Harness σ) : Prop where
  refines : s.pipe.Refines c.size Event.isReport
  fed : Fed c s.stage s.pipe s.i s.wl
  drained : Drained E c s.pipe.consumer s.pipe.handled s.book s.rep

/-- What it takes to start. -/
theorem start_eq_some_iff {now : UInt64} {s : Harness σ} :
    start E c now = some s ↔ c.Reserves ∧ ∃ book, E.new c.totalOps = some book ∧
      some ({ now, pipe := Pipe.new c.size, nextDue := now, book } : Harness σ) = some s := by
  rw [start, Option.ite_none_right_eq_some, Option.bind_eq_bind, Option.bind_eq_some_iff]

theorem exists_start_iff {now : UInt64} :
    (∃ s, start E c now = some s) ↔ c.Reserves ∧ ∃ book, E.new c.totalOps = some book := by
  constructor
  · rintro ⟨s, hs⟩
    obtain ⟨hreserves, book, hnew, -⟩ := start_eq_some_iff.mp hs
    exact ⟨hreserves, book, hnew⟩
  · rintro ⟨hreserves, book, hnew⟩
    exact ⟨_, start_eq_some_iff.mpr ⟨hreserves, book, hnew, rfl⟩⟩

/-- A run starts, and then takes its turns. -/
theorem exists_start {now : UInt64} {turns : List Turn} {s : Harness σ}
    (hrun : run E c now turns = some s) :
    ∃ s₀, start E c now = some s₀ ∧ turns.foldlM (step E c) s₀ = some s :=
  Option.bind_eq_some_iff.mp hrun

theorem exists_new_of_run {now : UInt64} {turns : List Turn} {s : Harness σ}
    (hrun : run E c now turns = some s) : ∃ book, E.new c.totalOps = some book := by
  obtain ⟨s₀, hs₀, -⟩ := exists_start hrun
  exact (exists_start_iff.mp ⟨s₀, hs₀⟩).2

/-- What the start has and every turn keeps holds of every run. -/
theorem run_invariant {now : UInt64} {turns : List Turn} {s : Harness σ} (P : Harness σ → Prop)
    (hstart : ∀ {s₀}, start E c now = some s₀ → P s₀)
    (hstep : ∀ s turn s', P s → s.step E c turn = some s' → P s')
    (hrun : run E c now turns = some s) : P s := by
  obtain ⟨s₀, hs₀, hturns⟩ := exists_start hrun
  exact Loop.foldlM_invariant P hstep (hstart hs₀) hturns

theorem inv_start {now : UInt64} {s : Harness σ} (hstart : start E c now = some s) : Inv E c s := by
  obtain ⟨-, book, hnew, heq⟩ := start_eq_some_iff.mp hstart
  obtain rfl := Option.some.inj heq
  constructor
  case refines => exact ⟨Pipe.shaped_new c.size, .refl⟩
  case fed => exact .next rfl (UInt64.zero_le) rfl
  case drained =>
    have hrun : E.run c.totalOps [] = some book := (Engine.run_nil E c.totalOps).trans hnew
    exact .running (by simp [Pipe.new]) rfl hrun

theorem Moved.refines {k : ℕ} (hsize : c.size.toNat = 2 ^ k) {producer : Bool}
    (hmoved : Moved c producer p p') (h : p.Refines c.size Event.isReport)
    (hlen : p'.published.length < 2 ^ 64) : p'.Refines c.size Event.isReport := by
  rcases hmoved with rfl | ⟨a, -, hstep⟩
  · exact h
  · exact Pipe.refines_step hsize h hstep hlen

theorem Moved.producer_frame (h : Moved c true p p') :
    p'.consumer = p.consumer ∧ p'.handled = p.handled := by
  rcases h with rfl | ⟨a, ha, hstep⟩
  · exact ⟨rfl, rfl⟩
  · obtain ⟨hconsumer, hhandled, -⟩ := Pipe.producer_frame ha hstep
    exact ⟨hconsumer, hhandled⟩

theorem Moved.consumer_frame (h : Moved c false p p') :
    p'.producer = p.producer ∧ p'.ring.buf = p.ring.buf ∧ p'.published = p.published := by
  rcases h with rfl | ⟨a, ha, hstep⟩
  · exact ⟨rfl, rfl, rfl⟩
  · exact Pipe.consumer_frame ha hstep

/-- **Every turn keeps the invariant.** -/
theorem inv_step {k : ℕ} (hsize : c.size.toNat = 2 ^ k) (htotal : c.totalOps.toNat + 1 < 2 ^ 64)
    {s s' : Harness σ} {turn : Turn} (h : Inv E c s) (hstep : s.step E c turn = some s') :
    Inv E c s' := by
  cases turn with
  | tick now =>
    obtain ⟨-, heq⟩ := Option.ite_none_right_eq_some.mp hstep
    obtain rfl := Option.some.inj heq
    exact ⟨h.refines, h.fed, h.drained⟩
  | producer =>
    obtain ⟨hfed, hmoved, hbook, hrep⟩ := producerStep_spec h.fed hstep
    obtain ⟨hconsumer, hhandled⟩ := hmoved.producer_frame
    refine ⟨hmoved.refines hsize h.refines (Nat.lt_of_le_of_lt hfed.length_le htotal), hfed, ?_⟩
    rw [hconsumer, hhandled, hbook, hrep]
    exact h.drained
  | consumer =>
    obtain ⟨hdrained, hmoved, hstage, hi, hwl⟩ := consumerStep_spec h.drained hstep
    obtain ⟨hproducer, hbuf, hpublished⟩ := hmoved.consumer_frame
    have hfed : Fed c s'.stage s'.pipe s'.i s'.wl := by
      rw [hstage, hi, hwl]
      exact h.fed.frame hproducer hbuf hpublished
    exact ⟨hmoved.refines hsize h.refines (Nat.lt_of_le_of_lt hfed.length_le htotal), hfed,
      hdrained⟩

theorem inv_run {k : ℕ} (hsize : c.size.toNat = 2 ^ k) (htotal : c.totalOps.toNat + 1 < 2 ^ 64)
    {now : UInt64} {turns : List Turn} {s : Harness σ} (hrun : run E c now turns = some s) :
    Inv E c s :=
  run_invariant (Inv E c) inv_start (fun _ _ _ h hstep => inv_step hsize htotal h hstep) hrun

/-! ## What the consumer handled -/

/-- The events handled are the first ones of the script. -/
theorem Inv.handled_eq {k : ℕ} (hsize : c.size.toNat = 2 ^ k) {s : Harness σ} (h : Inv E c s) :
    s.pipe.handled.map Event.op? = (script c).take s.pipe.seq.toNat := by
  have hsafe := h.refines.safe hsize
  obtain ⟨n, hn⟩ := h.fed.exists_published
  have hlen := congrArg List.length hsafe.handled
  have hpub := congrArg List.length hn
  rw [List.length_take, hsafe.handled_length] at hlen
  rw [List.length_map, List.length_take] at hpub
  rw [hsafe.handled, List.map_take, hn, List.take_take, Nat.min_eq_left (by omega)]

/-- The event the consumer takes next is the next one of the script. -/
theorem Inv.next_eq {k : ℕ} (hsize : c.size.toNat = 2 ^ k) {s : Harness σ} (h : Inv E c s)
    (hmore : s.pipe.seq < s.pipe.avail) :
    ∃ e, s.pipe.next? = some e ∧ (script c)[s.pipe.seq.toNat]? = some e.op? := by
  have hsafe := h.refines.safe hsize
  obtain ⟨n, hn⟩ := h.fed.exists_published
  have hlt := UInt64.lt_iff_toNat_lt.mp hmore
  have havail := UInt64.le_iff_toNat_le.mp hsafe.avail_le
  have hcons := UInt64.le_iff_toNat_le.mp hsafe.cons_le
  have hprod := s.pipe.ring.prod.toNat_lt
  have hseq : (s.pipe.seq + 1).toNat = s.pipe.seq.toNat + 1 := Word.toNat_add_one (by omega)
  obtain ⟨e, hget, hpub⟩ := hsafe.unreleased (s.pipe.seq + 1)
    (UInt64.lt_iff_toNat_lt.mpr (by omega)) (UInt64.le_iff_toNat_le.mpr (by omega))
  rw [hseq, Nat.add_sub_cancel] at hpub
  refine ⟨e, hget, ?_⟩
  have hmap : (s.pipe.published.map Event.op?)[s.pipe.seq.toNat]? = some e.op? := by
    rw [List.getElem?_map, hpub]
    rfl
  rw [hn, List.getElem?_take] at hmap
  split at hmap
  · exact hmap
  · simp at hmap

theorem eq_of_map_prefix {l l' : List Op} (h : l.map some ++ [none] <+: l'.map some ++ [none]) :
    l = l' := by
  induction l generalizing l' with
  | nil =>
    cases l' with
    | nil => rfl
    | cons b l' => simp at h
  | cons a l ih =>
    cases l' with
    | nil => simp at h
    | cons b l' =>
      simp only [List.map_cons, List.cons_append, List.cons_prefix_cons, Option.some.injEq] at h
      rw [h.1, ih h.2]

/-- **Once the consumer is done, it has applied the whole stream and reports on it.** -/
theorem Inv.reports {k : ℕ} (hsize : c.size.toNat = 2 ^ k) {s : Harness σ} (h : Inv E c s)
    (hstop : s.pipe.consumer = .stopped) :
    s.pipe.handled.map Event.op? = script c ∧
      ∃ book, E.run c.totalOps ((Gen.new 42).ops c.totalOps.toNat) = some book ∧
        Reports E book s.rep := by
  have hhandled := h.handled_eq hsize
  have hdrained := h.drained
  rw [hstop] at hdrained
  cases hdrained with
  | running hc => exact absurd rfl hc
  | stopped hops hrun hrep =>
    have hprefix : (script c).take s.pipe.seq.toNat <+: script c := List.take_prefix ..
    rw [← hhandled, hops, script] at hprefix
    obtain rfl := eq_of_map_prefix hprefix
    exact ⟨hops, _, hrun, hrep⟩

/-! ## The consumer never faults -/

/-- The engine does not fault on the stream. -/
def Serves (E : Engine σ) (c : Params) : Prop :=
  ∀ n ≤ c.totalOps.toNat, ∃ book sum,
    E.run c.totalOps ((Gen.new 42).ops n) = some book ∧ E.checksum book = some sum

/-- What the engine is asked next does not fault. -/
theorem Serves.handleEvent (hserves : Serves E c) {s : Harness σ} {n : ℕ} {e : Event}
    (hn : (script c)[n]? = some e.op?)
    (hrun : E.run c.totalOps ((Gen.new 42).ops n) = some s.book) :
    ∃ s', handleEvent E s e = some s' := by
  have hlt := (List.getElem?_eq_some_iff.mp hn).1
  rw [length_script] at hlt
  rcases Nat.lt_succ_iff_lt_or_eq.mp hlt with hlt | rfl
  · rw [getElem?_script_of_lt hlt] at hn
    obtain ⟨book, -, hbook, -⟩ := hserves (n + 1) hlt
    rw [Gen.ops_succ, Engine.run_append, hrun, Option.bind_some, List.foldlM_cons] at hbook
    obtain ⟨book', happly, -⟩ := Option.bind_eq_some_iff.mp hbook
    rw [Harness.handleEvent, ← Option.some.inj hn]
    exact ⟨_, Option.bind_eq_some_iff.mpr ⟨book', happly, rfl⟩⟩
  · rw [getElem?_script_total] at hn
    obtain ⟨book, sum, hbook, hsum⟩ := hserves _ le_rfl
    obtain rfl := Option.some.inj (hrun.symm.trans hbook)
    rw [Harness.handleEvent, ← Option.some.inj hn]
    exact ⟨_, Option.bind_eq_some_iff.mpr ⟨sum, hsum, rfl⟩⟩

/-- **Until it is done, the consumer can take its turn**: no slot is out of bounds, and no
operation faults. -/
theorem Inv.consumer_ready {k : ℕ} (hsize : c.size.toNat = 2 ^ k) (hserves : Serves E c)
    {s : Harness σ} (h : Inv E c s) (hp : s.pipe.consumer ≠ .stopped) :
    ∃ s', s.consumerStep E c = some s' := by
  cases hc : s.pipe.consumer with
  | stopped => exact absurd hc hp
  | waiting =>
    obtain ⟨pipe, hload⟩ : ∃ pipe, s.pipe.step c.size Event.isReport .load = some pipe :=
      Pipe.step_load_ready hc
    refine ⟨{ s with pipe }, ?_⟩
    simp only [consumerStep, hc, hload]
    rfl
  | draining =>
    by_cases hmore : s.pipe.seq < s.pipe.avail
    · obtain ⟨e, hnext, hscript⟩ := h.next_eq hsize hmore
      obtain ⟨ops, hops, hrun⟩ := h.drained.running_of_ne hp
      have hle : s.pipe.seq.toNat ≤ c.totalOps.toNat := by
        have hlt := (List.getElem?_eq_some_iff.mp hscript).1
        rw [length_script] at hlt
        omega
      rw [h.handled_eq hsize, take_script hle] at hops
      obtain rfl := List.map_injective_iff.mpr (Option.some_injective _) hops
      obtain ⟨pipe, hhandle⟩ : ∃ pipe, s.pipe.step c.size Event.isReport .handle = some pipe :=
        Pipe.step_handle_ready hc hmore hnext
      obtain ⟨s', hevent⟩ := hserves.handleEvent (s := { s with pipe }) hscript hrun
      refine ⟨s', ?_⟩
      simp only [consumerStep, hc, if_pos hmore, hnext, hhandle]
      exact hevent
    · obtain ⟨pipe, hstore⟩ : ∃ pipe, s.pipe.step c.size Event.isReport .store = some pipe :=
        Pipe.step_store_ready hc hmore
      refine ⟨{ s with pipe }, ?_⟩
      simp only [consumerStep, hc, if_neg hmore, hstore]
      rfl

/-! ## Both engines -/

@[simp] theorem run_book (n : UInt64) (ops : List Op) :
    Book.engine.run n ops = some (Book.run ops) := by
  refine TunedBook.foldlM_eq_some ?_ _
  intro op _ b
  cases op with
  | limit side price qty id => rfl
  | cancel id => rfl

theorem run_tuned {n : UInt64} (h : (n + 2).toNat ≤ maxSize 16) (ops : List Op) :
    TunedBook.engine.run n ops = TunedBook.run n ops := by
  have happly : TunedBook.engine.apply = TunedBook.apply := by
    funext t op
    cases op with
    | limit side price qty id => rfl
    | cancel id => rfl
  rw [Engine.run, TunedBook.run, TunedBook.new_engine h, happly]
  rfl

theorem serves_book (c : Params) : Serves Book.engine c :=
  fun _ _ => ⟨_, _, run_book _ _, rfl⟩

theorem serves_tuned (h : c.totalOps.toNat < 2 ^ 64 - 2)
    (hsize : (c.totalOps + 2).toNat ≤ maxSize 16) : Serves TunedBook.engine c := by
  intro n hn
  have hn64 : n < 2 ^ 64 := by omega
  have hreuse := Book.noLiveReuse_of_neverReused (Gen.neverReused_ops 42 hn64)
  obtain ⟨t, ht, hholds, -⟩ := TunedBook.run_holds h (Gen.inRange_ops 42 hn) hreuse
  exact ⟨t, _, (run_tuned hsize _).trans ht, TunedBook.checksum_holds hholds⟩

/-- **Every interleaving reports the same**, on both engines. Once the consumer is done, it
handled the operations of the stream and then the request for the report, each once and in
order, and its report is that of the sequential fold; until then, it does not fault. -/
theorem schedule_independent {k : ℕ} (hsize : c.size.toNat = 2 ^ k)
    (htotal : c.totalOps.toNat < 2 ^ 64 - 2) (now : UInt64) (turns : List Turn) :
    (∀ s, run Book.engine c now turns = some s →
      (s.pipe.consumer ≠ .stopped → ∃ s', s.consumerStep Book.engine c = some s') ∧
        (s.pipe.consumer = .stopped →
          s.pipe.handled.map Event.op? =
              ((Gen.new 42).ops c.totalOps.toNat).map some ++ [none] ∧
            Reports Book.engine (Book.run ((Gen.new 42).ops c.totalOps.toNat)) s.rep)) ∧
      ∀ s, run TunedBook.engine c now turns = some s →
        (s.pipe.consumer ≠ .stopped → ∃ s', s.consumerStep TunedBook.engine c = some s') ∧
          (s.pipe.consumer = .stopped →
            s.pipe.handled.map Event.op? =
                ((Gen.new 42).ops c.totalOps.toNat).map some ++ [none] ∧
              ∃ t, TunedBook.run c.totalOps ((Gen.new 42).ops c.totalOps.toNat) = some t ∧
                Reports TunedBook.engine t s.rep) := by
  refine ⟨fun s hrun => ?_, fun s hrun => ?_⟩
  · have hinv := inv_run hsize (by omega) hrun
    refine ⟨hinv.consumer_ready hsize (serves_book c), fun hstop => ?_⟩
    obtain ⟨hhandled, book, hbook, hrep⟩ := hinv.reports hsize hstop
    rw [run_book] at hbook
    obtain rfl := Option.some.inj hbook
    exact ⟨hhandled, hrep⟩
  · have hinv := inv_run hsize (by omega) hrun
    obtain ⟨t₀, hnew⟩ := exists_new_of_run hrun
    have hfits := TunedBook.le_of_new hnew
    refine ⟨hinv.consumer_ready hsize (serves_tuned htotal hfits), fun hstop => ?_⟩
    obtain ⟨hhandled, t, ht, hrep⟩ := hinv.reports hsize hstop
    exact ⟨hhandled, t, (run_tuned hfits _).symm.trans ht, hrep⟩

/-- Two paced operations, on both engines. -/
theorem schedule_independent_paced :
    ∃ turns,
      (∃ s, run Book.engine { totalOps := 2, warmupOps := 1, rate := 500000000 } 5 turns = some s ∧
        s.pipe.handled.map Event.op? = ((Gen.new 42).ops 2).map some ++ [none] ∧
          Reports Book.engine (Book.run ((Gen.new 42).ops 2)) s.rep) ∧
      ∃ s, run TunedBook.engine { totalOps := 2, warmupOps := 1, rate := 500000000 } 5 turns =
          some s ∧
        s.pipe.handled.map Event.op? = ((Gen.new 42).ops 2).map some ++ [none] ∧
          ∃ t, TunedBook.run 2 ((Gen.new 42).ops 2) = some t ∧
            Reports TunedBook.engine t s.rep := by
  let c : Params := { totalOps := 2, warmupOps := 1, rate := 500000000 }
  let turns : List Turn :=
    List.flatten
      [[.producer, .tick 9], List.replicate 9 .producer, List.replicate 4 .consumer,
        [.producer, .tick 12], List.replicate 9 .producer, List.replicate 5 .consumer,
        List.replicate 5 .producer, List.replicate 2 .consumer]
  have hbook : (run Book.engine c 5 turns).map (fun s => s.pipe.consumer) = some .stopped := by
    decide +kernel
  have htuned : (run TunedBook.engine c 5 turns).map (fun s => s.pipe.consumer) =
      some .stopped := by
    decide +kernel
  obtain ⟨s, hs, hstop⟩ := Option.map_eq_some_iff.mp hbook
  obtain ⟨s', hs', hstop'⟩ := Option.map_eq_some_iff.mp htuned
  have htotal : c.totalOps.toNat = 2 := rfl
  obtain ⟨h, h'⟩ := schedule_independent (k := 16) (show c.size.toNat = 2 ^ 16 from rfl)
    (by decide) 5 turns
  rw [htotal] at h h'
  exact ⟨turns, ⟨s, hs, (h s hs).2 hstop⟩, s', hs', (h' s' hs').2 hstop'⟩

end Harness
end LmaxBench.Cpp
