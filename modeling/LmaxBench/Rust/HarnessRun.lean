import LmaxBench.Conformance.Operations
import LmaxBench.Lib.Pipeline
import LmaxBench.Lib.Word
import LmaxBench.Rust.Harness
import LmaxBench.Rust.TunedRefine

/-!
# Runs of the harness in Rust

What is in the ring of the crate, after what was handled, is what was published. So the sender's
part of the invariant speaks of the handled events followed by the pending ones, and follows the
script of the operations and their stamps; the receiver's part is the sequential fold over what
was handled.

## Main definitions

* `AnyBook.apply`, `AnyBook.run` — the sequential fold.
* `Harness.Fed`, `Harness.Drained` — the two parts of the invariant.
* `Harness.Inv`, `Harness.inv_run` — what holds under every interleaving.
* `Harness.Delivered` — what was handled once there is a report.
* `Harness.Outcome`, `Harness.any_disruptor` — what holds of every interleaving.
* `Disruptor.fifo` — a ring buffer.
-/

namespace LmaxBench.Rust

open Pipeline (Sent Folded due stamp stamped)

namespace AnyBook

/-- One operation. -/
def apply (b : AnyBook) : Cpp.Op → Option AnyBook
  | .limit side price qty id => b.limit side price qty id
  | .cancel id => some (b.cancel id)

/-- The sequential fold over the operations. -/
def run (b : AnyBook) (ops : List Cpp.Op) : Option AnyBook := ops.foldlM apply b

end AnyBook

/-! ## Events -/

/-- The operation an event asks for. In the last case of the `match`, the core reports. -/
def Event.op? (e : Event) : Option Cpp.Op :=
  if e.kind = kindLimit then some (.limit e.side e.price e.qty e.id)
  else if e.kind = kindCancel then some (.cancel e.id)
  else none

/-- What an event asks for, with its time stamp. -/
def Event.request? (e : Event) : Option (Cpp.Op × UInt64) := e.op?.map fun op => (op, e.ts)

theorem Event.request?_eq_some_iff {e : Event} {op : Cpp.Op} {ts : UInt64} :
    e.request? = some (op, ts) ↔ e.op? = some op ∧ e.ts = ts := by
  rw [request?, Option.map_eq_some_iff]
  constructor
  · rintro ⟨op', hop, heq⟩
    obtain ⟨rfl, rfl⟩ := Prod.mk.inj heq
    exact ⟨hop, rfl⟩
  · rintro ⟨hop, rfl⟩
    exact ⟨op, hop, rfl⟩

theorem Gen.kind_nextOp (g : Gen) : g.nextOp.1.kind = kindLimit ∨ g.nextOp.1.kind = kindCancel := by
  simp only [Gen.nextOp]
  split
  · exact Or.inl rfl
  · exact Or.inr rfl

/-- The closure overwrites every field. -/
@[simp] theorem request?_fillOp {op : Op} (h : op.kind = kindLimit ∨ op.kind = kindCancel)
    (ts : UInt64) (e : Event) :
    (fillOp op ts e).request? = some (op.op, ts) := by
  have hevent : fillOp op ts e = ⟨op.kind, op.side, op.price, op.qty, op.id, ts⟩ := rfl
  have hop : op.op = if op.kind = kindLimit then .limit op.side op.price op.qty op.id
      else .cancel op.id := rfl
  rw [hevent, Event.request?_eq_some_iff, Event.op?]
  refine ⟨?_, rfl⟩
  rcases h with hkind | hkind
  · rw [hop, if_pos hkind, if_pos hkind]
  · have hne : op.kind ≠ kindLimit := by
      rw [hkind]
      decide
    rw [hop, if_neg hne, if_neg hne, if_pos hkind]

@[simp] theorem request?_fillReport (e : Event) : (fillReport e).request? = none := rfl

/-! ## The core -/

/-- The recording of an event stamped `ts` that is handled at the time `now`. -/
def Hdr.measure {H : Type} (R : Hdr H) (hist : H) (now ts : UInt64) : H :=
  if ts ≠ 0 then (R.record hist (max (saturatingSub now ts) 1)).1 else hist

namespace Core

variable {H : Type} {R : Hdr H}

theorem measure_eq (c : Core H) (now ts : UInt64) :
    measure R c now ts = { c with hist := R.measure c.hist now ts } := by
  rw [measure, Hdr.measure]
  split <;> rfl

theorem onEvent_op (c : Core H) {e : Event} {op : Cpp.Op} (hop : e.op? = some op) (now : UInt64) :
    c.onEvent R e now =
      (c.book.apply op).map fun book => { c with book, hist := R.measure c.hist now e.ts } := by
  rw [Event.op?] at hop
  rw [onEvent]
  split at hop
  case isTrue hlimit =>
    obtain rfl := Option.some.inj hop
    rw [if_pos hlimit, AnyBook.apply]
    cases c.book.limit e.side e.price e.qty e.id with
    | none => rfl
    | some book => exact congrArg some (measure_eq _ now e.ts)
  case isFalse hlimit =>
    split at hop
    case isTrue hcancel =>
      obtain rfl := Option.some.inj hop
      rw [if_neg hlimit, if_pos hcancel, measure_eq]
      rfl
    case isFalse => simp at hop

theorem onEvent_report (c : Core H) {e : Event} (hop : e.op? = none) (now : UInt64) :
    c.onEvent R e now =
      c.book.stats.map fun stats => { c with report := some { stats, hist := c.hist } } := by
  rw [Event.op?] at hop
  split at hop
  case isTrue => simp at hop
  case isFalse hlimit =>
    split at hop
    case isTrue => simp at hop
    case isFalse hcancel =>
      rw [onEvent, if_neg hlimit, if_neg hcancel]
      cases c.book.stats with
      | none => rfl
      | some stats => rfl

end Core

namespace Harness

variable {ρ H : Type} {R : Hdr H} {D : Disruptor ρ} {pending : ρ → List Event} {c : Params}
  {interval : Option UInt64} {book : AnyBook} {hist : H} {t₀ : UInt64} {s s' : Harness ρ H}

/-! ## The sender -/

/-- The stamp of the operation with the index `i`, in a run that starts at the time `t₀`. -/
def stampOf (c : Params) (interval : Option UInt64) (t₀ : UInt64) (i : ℕ) : UInt64 :=
  match interval with
  | some iv => stamp t₀ iv c.warmupOps i
  | none => 0

/-- When the next operation is due, after `n` of them; without pacing, the start. -/
def dueOf (interval : Option UInt64) (t₀ : UInt64) (n : ℕ) : UInt64 := due t₀ (interval.getD 0) n

/-- What is asked for: the operations of the stream, with their stamps. -/
def requests (c : Params) (interval : Option UInt64) (t₀ : UInt64) : List (Cpp.Op × UInt64) :=
  stamped (stampOf c interval t₀) ((Gen.new 42).ops c.totalOps.toNat)

@[simp] theorem length_requests : (requests c interval t₀).length = c.totalOps.toNat := by
  rw [requests, Pipeline.length_stamped, Gen.length_ops]

@[simp] theorem getElem?_requests {n : ℕ} (hn : n < c.totalOps.toNat) :
    (requests c interval t₀)[n]? =
      some (((Gen.new 42).after n).nextOp.1.op, stampOf c interval t₀ n) := by
  rw [requests, Pipeline.getElem?_stamped, Gen.getElem?_ops _ hn, Option.map_some]

/-- The first `n` requests were sent. -/
abbrev SentUpTo (c : Params) (interval : Option UInt64) (t₀ : UInt64) (sent : List Event) (n : ℕ) :
    Prop :=
  Sent Event.request? (requests c interval t₀) sent n

/-- What the main thread has sent, by where it is. -/
inductive Fed (c : Params) (interval : Option UInt64) (t₀ now : UInt64) (sent : List Event) :
    Stage → UInt64 → Gen → UInt64 → Prop
  | next {i : UInt64} {n : ℕ} (hi : i.toNat = n) (hn : n ≤ c.totalOps.toNat)
      (h : SentUpTo c interval t₀ sent n) :
      Fed c interval t₀ now sent .next i ((Gen.new 42).after n) (dueOf interval t₀ n)
  | pace {i iv : UInt64} {n : ℕ} (hi : i.toNat = n) (hn : n < c.totalOps.toNat)
      (h : SentUpTo c interval t₀ sent n) (hiv : interval = some iv) :
      Fed c interval t₀ now sent (.pace ((Gen.new 42).after n).nextOp.1) i
        ((Gen.new 42).after (n + 1)) (dueOf interval t₀ (n + 1))
  | publish {i : UInt64} {n : ℕ} (hi : i.toNat = n) (hn : n < c.totalOps.toNat)
      (h : SentUpTo c interval t₀ sent n) (hts : stampOf c interval t₀ n ≤ now) :
      Fed c interval t₀ now sent
        (.publish ((Gen.new 42).after n).nextOp.1 (stampOf c interval t₀ n))
        i ((Gen.new 42).after (n + 1)) (dueOf interval t₀ (n + 1))
  | request {i nextDue : UInt64} {wl : Gen} (h : SentUpTo c interval t₀ sent c.totalOps.toNat) :
      Fed c interval t₀ now sent .request i wl nextDue
  | drop {i nextDue : UInt64} {wl : Gen} (h : SentUpTo c interval t₀ sent (c.totalOps.toNat + 1)) :
      Fed c interval t₀ now sent .drop i wl nextDue
  | joined {i nextDue : UInt64} {wl : Gen}
      (h : SentUpTo c interval t₀ sent (c.totalOps.toNat + 1)) :
      Fed c interval t₀ now sent .joined i wl nextDue

section Fed
variable {now now' i nextDue : UInt64} {stage : Stage} {sent : List Event} {wl : Gen}

theorem Fed.exists_sent (h : Fed c interval t₀ now sent stage i wl nextDue) :
    ∃ n, SentUpTo c interval t₀ sent n := by
  cases h with
  | next _ _ h | pace _ _ h _ | publish _ _ h _ | request h | drop h | joined h => exact ⟨_, h⟩

/-- The clock only moves forward. -/
theorem Fed.mono (h : Fed c interval t₀ now sent stage i wl nextDue) (hnow : now ≤ now') :
    Fed c interval t₀ now' sent stage i wl nextDue := by
  cases h with
  | next hi hn h => exact .next hi hn h
  | pace hi hn h hiv => exact .pace hi hn h hiv
  | publish hi hn h hts => exact .publish hi hn h (hts.trans hnow)
  | request h => exact .request h
  | drop h => exact .drop h
  | joined h => exact .joined h

end Fed

/-- The time of an event has come; a request for the report has none. -/
abbrev Timely (now : UInt64) (e : Event) : Prop := Pipeline.Timely Event.request? Event.ts now e

/-- All that was sent. -/
def sentOf (pending : ρ → List Event) (s : Harness ρ H) : List Event := s.handled ++ pending s.ring

/-- **One step of the main thread** sends nothing, or one event whose time has come. -/
theorem producerStep_spec (hD : D.Ordered pending)
    (h : Fed c interval t₀ s.now (sentOf pending s) s.stage s.i s.wl s.nextDue)
    (hstep : s.producerStep D c interval = some s') :
    Fed c interval t₀ s'.now (sentOf pending s') s'.stage s'.i s'.wl s'.nextDue ∧
      (pending s'.ring = pending s.ring ∨
        ∃ e, pending s'.ring = pending s.ring ++ [e] ∧ Timely s.now e) ∧
      s'.now = s.now ∧ s'.core = s.core ∧ s'.handled = s.handled ∧ s'.times = s.times ∧
        (s'.stage = .joined → pending s'.ring = []) := by
  obtain ⟨now, ring, stage, i, wl, nextDue, core, handled, times⟩ := s
  dsimp only [sentOf] at h ⊢
  cases h with
  | @next _ n hi hn h =>
    simp only [producerStep] at hstep
    split at hstep
    case isTrue hlt =>
      have hlt' : n < c.totalOps.toNat := hi ▸ UInt64.lt_iff_toNat_lt.mp hlt
      obtain rfl := Option.some.inj hstep
      have hafter : ((Gen.new 42).after n).nextOp.2 = (Gen.new 42).after (n + 1) := rfl
      rw [hafter]
      cases interval with
      | some iv =>
        have hdue : dueOf (some iv) t₀ n + iv = dueOf (some iv) t₀ (n + 1) := by
          rw [dueOf, dueOf, Pipeline.due_succ]
          rfl
        dsimp only
        rw [hdue]
        exact ⟨.pace hi hlt' h rfl, Or.inl rfl, rfl, rfl, rfl, rfl, by simp⟩
      | none =>
        have hdue : dueOf none t₀ (n + 1) = dueOf none t₀ n := by
          rw [dueOf, Pipeline.due_succ]
          exact UInt64.add_zero _
        exact ⟨hdue ▸ .publish hi hlt' h UInt64.zero_le, Or.inl rfl, rfl, rfl, rfl, rfl, by simp⟩
    case isFalse hge =>
      obtain rfl := Option.some.inj hstep
      have htotal : n = c.totalOps.toNat := by
        have := mt UInt64.lt_iff_toNat_lt.mpr hge
        omega
      rw [htotal] at h
      exact ⟨.request h, Or.inl rfl, rfl, rfl, rfl, rfl, by simp⟩
  | @pace _ iv n hi hn h hiv =>
    simp only [producerStep] at hstep
    split at hstep
    case isTrue hwait =>
      obtain rfl := Option.some.inj hstep
      exact ⟨.pace hi hn h hiv, Or.inl rfl, rfl, rfl, rfl, rfl, by simp⟩
    case isFalse hdue =>
      obtain rfl := Option.some.inj hstep
      have hstamp : (if c.warmupOps ≤ i then dueOf interval t₀ (n + 1) else 0) =
          stampOf c interval t₀ n := by
        subst hiv
        have hstampOf : stampOf c (some iv) t₀ n = stamp t₀ iv c.warmupOps n := rfl
        rw [hstampOf, stamp, ← hi, UInt64.ofNat_toNat]
        rfl
      have hle : stampOf c interval t₀ n ≤ now := by
        rw [← hstamp]
        split
        · exact not_lt.mp hdue
        · exact UInt64.zero_le
      rw [hstamp]
      exact ⟨.publish hi hn h hle, Or.inl rfl, rfl, rfl, rfl, rfl, by simp⟩
  | @publish _ n hi hn h hts =>
    obtain ⟨ring', hpublish, heq⟩ := Option.bind_eq_some_iff.mp hstep
    obtain rfl := Option.some.inj heq
    obtain ⟨e, hpending⟩ := hD.publish hpublish
    have he := request?_fillOp (Gen.kind_nextOp ((Gen.new 42).after n)) (stampOf c interval t₀ n) e
    have hlt := c.totalOps.toNat_lt
    have hnat : (i + 1).toNat = n + 1 := hi ▸ Word.toNat_add_one (by omega)
    have hsent : SentUpTo c interval t₀ (handled ++ pending ring') (n + 1) := by
      rw [hpending, ← List.append_assoc]
      exact h.snoc_op (getElem?_requests hn) he
    have htimely : Timely now
        (fillOp ((Gen.new 42).after n).nextOp.1 (stampOf c interval t₀ n) e) :=
      ⟨hts, fun hnone => by simp [he] at hnone⟩
    exact ⟨.next hnat hn hsent, Or.inr ⟨_, hpending, htimely⟩, rfl, rfl, rfl, rfl, by simp⟩
  | request h =>
    obtain ⟨ring', hpublish, heq⟩ := Option.bind_eq_some_iff.mp hstep
    obtain rfl := Option.some.inj heq
    obtain ⟨e, hpending⟩ := hD.publish hpublish
    have hsent : SentUpTo c interval t₀ (handled ++ pending ring') (c.totalOps.toNat + 1) := by
      have hlen : (requests c interval t₀).length = c.totalOps.toNat := length_requests
      rw [SentUpTo, hpending, ← List.append_assoc, ← hlen]
      exact Sent.snoc_request (hlen.symm ▸ h) (request?_fillReport e)
    exact ⟨.drop hsent, Or.inr ⟨_, hpending, UInt64.zero_le, fun _ => rfl⟩, rfl, rfl, rfl, rfl,
      by simp⟩
  | drop h =>
    obtain ⟨u, hdrop, heq⟩ := Option.bind_eq_some_iff.mp hstep
    obtain rfl := Option.some.inj heq
    exact ⟨.joined h, Or.inl rfl, rfl, rfl, rfl, rfl, fun _ => hD.drop hdrop⟩
  | joined h => simp [producerStep] at hstep

/-! ## The receiver -/

/-- The fold does not look at the stamps. -/
def applyRequest (b : AnyBook) (x : Cpp.Op × UInt64) : Option AnyBook := b.apply x.1

/-- The histogram after some events, each with the time at which it was handled. -/
abbrev recorded (R : Hdr H) (hist : H) (handled : List Event) (times : List UInt64) : H :=
  Pipeline.recorded R.measure Event.ts hist handled times

/-- What the crate's thread has made of the events it handled. -/
structure Drained (R : Hdr H) (book : AnyBook) (hist : H) (s : Harness ρ H) : Prop where
  folded : Folded Event.request? applyRequest book s.handled s.core.report.isSome s.core.book
  hist_eq : s.core.hist = recorded R hist s.handled s.times
  /-- No event is handled before its time. -/
  timely : List.Forall₂ (fun e t => e.ts ≤ t) s.handled s.times
  report_eq : ∀ {rep}, s.core.report = some rep →
    s.core.book.stats = some rep.stats ∧ rep.hist = s.core.hist

theorem Drained.congr (h : Drained R book hist s) (hcore : s'.core = s.core)
    (hhandled : s'.handled = s.handled) (htimes : s'.times = s.times) : Drained R book hist s' where
  folded := by
    rw [hcore, hhandled]
    exact h.folded
  hist_eq := by
    rw [hcore, hhandled, htimes]
    exact h.hist_eq
  timely := by
    rw [hhandled, htimes]
    exact h.timely
  report_eq := by
    rw [hcore]
    exact h.report_eq

/-- **One event** is handled. Since the request for the report comes last, there is no report
yet. -/
theorem Drained.handle (h : Drained R book hist s) (hreport : s.core.report = none) {e : Event}
    (he : Timely s.now e) {core : Core H} (hevent : s.core.onEvent R e s.now = some core)
    (ring : ρ) :
    Drained R book hist
      { s with ring, core, handled := s.handled ++ [e], times := s.times ++ [s.now] } := by
  have hfolded := h.folded
  rw [hreport] at hfolded
  have hsnoc : recorded R hist (s.handled ++ [e]) (s.times ++ [s.now]) =
      R.measure (recorded R hist s.handled s.times) s.now e.ts :=
    Pipeline.recorded_snoc h.timely.length_eq e s.now
  have htimely : List.Forall₂ (fun e t => e.ts ≤ t) (s.handled ++ [e]) (s.times ++ [s.now]) :=
    List.rel_append h.timely (.cons he.1 .nil)
  cases hop : e.op? with
  | some op =>
    rw [Core.onEvent_op _ hop] at hevent
    obtain ⟨b, happly, rfl⟩ := Option.map_eq_some_iff.mp hevent
    have hreq : e.request? = some (op, e.ts) := Event.request?_eq_some_iff.mpr ⟨hop, rfl⟩
    constructor
    case folded =>
      dsimp only
      rw [hreport]
      exact hfolded.snoc_op hreq happly
    case hist_eq =>
      dsimp only
      rw [hsnoc, ← h.hist_eq]
    case timely => exact htimely
    case report_eq =>
      intro rep hrep
      simp [hreport] at hrep
  | none =>
    rw [Core.onEvent_report _ hop] at hevent
    obtain ⟨stats, hstats, rfl⟩ := Option.map_eq_some_iff.mp hevent
    have hreq : e.request? = none := Option.map_eq_none_iff.mpr hop
    constructor
    case folded => exact hfolded.snoc_request hreq
    case hist_eq =>
      dsimp only
      rw [hsnoc, he.2 hreq, ← h.hist_eq]
      rfl
    case timely => exact htimely
    case report_eq =>
      intro rep hrep
      obtain rfl := Option.some.inj hrep
      exact ⟨hstats, rfl⟩

/-! ## Runs -/

/-- What holds at every point of every interleaving. -/
structure Inv (R : Hdr H) (pending : ρ → List Event) (c : Params) (interval : Option UInt64)
    (book : AnyBook) (hist : H) (t₀ : UInt64) (s : Harness ρ H) : Prop where
  fed : Fed c interval t₀ s.now (sentOf pending s) s.stage s.i s.wl s.nextDue
  timely : ∀ e ∈ pending s.ring, Timely s.now e
  drained : Drained R book hist s
  joined : s.stage = .joined → pending s.ring = []

theorem inv_start (R : Hdr H) {ring : ρ} (hring : pending ring = []) (c : Params)
    (interval : Option UInt64) (book : AnyBook) (hist : H) (t₀ : UInt64) :
    Inv R pending c interval book hist t₀ (start book hist ring t₀) where
  fed := by
    have hfed : Fed c interval t₀ t₀ [] .next 0 ((Gen.new 42).after 0) (dueOf interval t₀ 0) :=
      .next rfl (Nat.zero_le _) .nil
    rw [dueOf, Pipeline.due_zero] at hfed
    have hsent : sentOf pending (start book hist ring t₀) = [] := hring
    rw [hsent]
    exact hfed
  timely := by simp [start, hring]
  drained :=
    { folded := .nil
      hist_eq := rfl
      timely := .nil
      report_eq := by simp [start] }
  joined := by simp [start]

/-- The request for the report is the last event. -/
theorem Inv.report_none (h : Inv R pending c interval book hist t₀ s)
    (hpending : pending s.ring ≠ []) : s.core.report = none := by
  obtain ⟨n, hsent⟩ := h.fed.exists_sent
  cases hrep : s.core.report with
  | none => rfl
  | some rep =>
    have hfolded := h.drained.folded
    rw [hrep] at hfolded
    have hlen := congrArg List.length
      (hfolded.eq_run hsent (List.prefix_append s.handled (pending s.ring))).1
    rw [List.length_map, Pipeline.length_script] at hlen
    have hle := hsent.length_le
    have hpos := List.length_pos_iff.mpr hpending
    rw [sentOf, List.length_append] at hle
    omega

/-- **Every turn keeps the invariant.** -/
theorem inv_step (hD : D.Ordered pending) {turn : Turn}
    (h : Inv R pending c interval book hist t₀ s) (hstep : s.step R D c interval turn = some s') :
    Inv R pending c interval book hist t₀ s' := by
  cases turn with
  | tick now =>
    obtain ⟨hnow, heq⟩ := Option.ite_none_right_eq_some.mp hstep
    obtain rfl := Option.some.inj heq
    exact ⟨h.fed.mono hnow, fun e he => (h.timely e he).mono hnow, h.drained.congr rfl rfl rfl,
      h.joined⟩
  | producer =>
    obtain ⟨hfed, hsent, hnow, hcore, hhandled, htimes, hjoined⟩ := producerStep_spec hD h.fed hstep
    refine ⟨hfed, ?_, h.drained.congr hcore hhandled htimes, hjoined⟩
    rw [hnow]
    rcases hsent with hsame | ⟨e, hpending, he⟩
    · exact hsame ▸ h.timely
    · rw [hpending]
      intro e' he'
      rcases List.mem_append.mp he' with hold | hnew
      · exact h.timely e' hold
      · exact List.mem_singleton.mp hnew ▸ he
  | consumer =>
    obtain ⟨⟨e, ring⟩, htake, hbind⟩ := Option.bind_eq_some_iff.mp hstep
    obtain ⟨core, hevent, heq⟩ := Option.bind_eq_some_iff.mp hbind
    obtain rfl := Option.some.inj heq
    have hpending := hD.take htake
    have hreport := h.report_none (by simp [hpending])
    have htimely := h.timely
    rw [hpending] at htimely
    refine ⟨?_, fun e' he' => htimely e' (List.mem_cons_of_mem e he'),
      h.drained.handle hreport (htimely e List.mem_cons_self) hevent ring, ?_⟩
    · have hsent : sentOf pending
          { s with ring, core, handled := s.handled ++ [e], times := s.times ++ [s.now] } =
            sentOf pending s := by
        simp [sentOf, hpending]
      rw [hsent]
      exact h.fed
    · intro hjoined
      have hempty := h.joined hjoined
      simp [hpending] at hempty

theorem inv_run (hD : D.Ordered pending) {ring : ρ} (hring : pending ring = []) {turns : List Turn}
    (hrun : run R D c book hist ring t₀ turns = some s) :
    ∃ interval, c.interval = some interval ∧
      turns.foldlM (step R D c interval) (start book hist ring t₀) = some s ∧
        Inv R pending c interval book hist t₀ s := by
  obtain ⟨interval, hinterval, hfold⟩ := Option.bind_eq_some_iff.mp hrun
  exact ⟨interval, hinterval, hfold,
    Loop.foldlM_invariant (Inv R pending c interval book hist t₀)
      (fun _ _ _ h hstep => inv_step hD h hstep) (inv_start R hring c interval book hist t₀) hfold⟩

/-! ## The report -/

/-- What there is once the report is. -/
structure Delivered (R : Hdr H) (c : Params) (interval : Option UInt64) (book : AnyBook) (hist : H)
    (t₀ : UInt64) (s : Harness ρ H) (rep : Report H) : Prop where
  /-- Every operation was handled, once and in order, with its stamp, and then the request. -/
  handled : s.handled.map Event.request? = Pipeline.script (requests c interval t₀)
  /-- The statistics are those of the sequential fold. -/
  stats : ∃ b, book.run ((Gen.new 42).ops c.totalOps.toNat) = some b ∧ b.stats = some rep.stats
  /-- The histogram has a recording for each stamp, made at the time of the handling. -/
  hist : rep.hist = recorded R hist s.handled s.times
  timely : List.Forall₂ (fun e t => e.ts ≤ t) s.handled s.times

theorem prefix_handled (s : Harness ρ H) : s.handled <+: sentOf pending s := List.prefix_append ..

theorem Inv.delivered (h : Inv R pending c interval book hist t₀ s) {rep : Report H}
    (hrep : s.core.report = some rep) : Delivered R c interval book hist t₀ s rep := by
  obtain ⟨n, hsent⟩ := h.fed.exists_sent
  have hfolded := h.drained.folded
  rw [hrep] at hfolded
  obtain ⟨hhandled, hrun⟩ := hfolded.eq_run hsent (prefix_handled s)
  obtain ⟨hstats, hhist⟩ := h.drained.report_eq hrep
  have hfold : (requests c interval t₀).foldlM applyRequest book =
      ((Gen.new 42).ops c.totalOps.toNat).foldlM AnyBook.apply book :=
    Pipeline.foldlM_stamped _ _ AnyBook.apply book
  rw [hfold] at hrun
  exact ⟨hhandled, ⟨_, hrun, hstats⟩, hhist.trans h.drained.hist_eq, h.drained.timely⟩

/-- Once the producer is dropped, there is a report to take. -/
theorem Inv.exists_report (h : Inv R pending c interval book hist t₀ s)
    (hjoined : s.stage = .joined) : ∃ rep, s.core.report = some rep := by
  have hfed := h.fed
  have hempty := h.joined hjoined
  rw [hjoined] at hfed
  cases hfed with
  | joined hsent =>
    have hlen := hsent.length_eq (by rw [length_requests])
    rw [sentOf, hempty, List.append_nil] at hlen
    cases hrep : s.core.report with
    | some rep => exact ⟨rep, rfl⟩
    | none =>
      have hfolded := h.drained.folded
      rw [hrep] at hfolded
      have hle := (hfolded.eq_take hsent (prefix_handled s)).1
      rw [length_requests] at hle
      omega

/-- The book does not panic on the stream. -/
def Serves (book : AnyBook) (c : Params) : Prop :=
  Pipeline.Serves AnyBook.apply AnyBook.stats book ((Gen.new 42).ops c.totalOps.toNat)

/-- **The core does not panic** on what it is handed next. -/
theorem Inv.exists_onEvent (h : Inv R pending c interval book hist t₀ s) (hserves : Serves book c)
    {e : Event} {es : List Event} (hpending : pending s.ring = e :: es) :
    ∃ core, s.core.onEvent R e s.now = some core := by
  obtain ⟨n, hsent⟩ := h.fed.exists_sent
  have hfolded := h.drained.folded
  rw [h.report_none (by simp [hpending])] at hfolded
  have hnext : (sentOf pending s)[s.handled.length]? = some e := by
    rw [sentOf, hpending, List.getElem?_append_right le_rfl, Nat.sub_self]
    rfl
  cases hop : e.op? with
  | some op =>
    obtain ⟨b, hb⟩ := hfolded.exists_apply hsent (prefix_handled s) hserves.stamped hnext
      (Event.request?_eq_some_iff.mpr ⟨hop, rfl⟩)
    have hb' : s.core.book.apply op = some b := hb
    rw [Core.onEvent_op _ hop, hb']
    exact ⟨_, rfl⟩
  | none =>
    obtain ⟨stats, hstats⟩ := hfolded.exists_result hsent (prefix_handled s) hserves.stamped hnext
      (Option.map_eq_none_iff.mpr hop)
    rw [Core.onEvent_report _ hop, hstats]
    exact ⟨_, rfl⟩

/-! ## Both books -/

@[simp] theorem run_idio (b : Book) (ops : List Cpp.Op) :
    (AnyBook.idio b).run ops = some (.idio (ops.foldl Book.apply b)) := by
  induction ops generalizing b with
  | nil => rfl
  | cons op ops ih =>
    have happly : (AnyBook.idio b).apply op = some (.idio (b.apply op)) := by cases op <;> rfl
    rw [AnyBook.run, List.foldlM_cons, happly, List.foldl_cons]
    exact ih (b.apply op)

@[simp] theorem run_tuned (b : TunedBook) (ops : List Cpp.Op) :
    (AnyBook.tuned b).run ops = (ops.foldlM TunedBook.apply b).map AnyBook.tuned := by
  induction ops generalizing b with
  | nil => rfl
  | cons op ops ih =>
    have happly : (AnyBook.tuned b).apply op = (b.apply op).map AnyBook.tuned := by cases op <;> rfl
    rw [AnyBook.run, List.foldlM_cons, List.foldlM_cons, happly]
    cases b.apply op with
    | none => rfl
    | some b' => exact ih b'

theorem serves_idio (c : Params) : Serves (.idio {}) c where
  run n _ := ⟨_, run_idio {} _⟩
  result b hb := by
    obtain rfl := Option.some.inj (hb.symm.trans (run_idio {} _))
    exact ⟨_, rfl⟩

/-- The prices of the stream are on the ladder. -/
theorem onLadder_ops (n : ℕ) : ∀ op ∈ (Gen.new 42).ops n, TunedBook.OnLadder op := by
  intro op hop
  rw [Gen.ops_eq] at hop
  cases op with
  | limit side price qty id =>
    obtain ⟨h0, h1, -⟩ := Cpp.Gen.limit_bounds_of_mem hop
    simp only [TunedBook.OnLadder, Cpp.ladderBase, Cpp.ladderLen]
    omega
  | cancel id => trivial

theorem serves_tuned (c : Params) : Serves (.tuned {}) c where
  run n _ := by
    have hops : ∀ op ∈ ((Gen.new 42).ops c.totalOps.toNat).take n, TunedBook.OnLadder op :=
      fun op hop => onLadder_ops _ op (List.mem_of_mem_take hop)
    obtain ⟨t, ht, -⟩ := TunedBook.run_holds hops
    refine ⟨.tuned t, (run_tuned {} _).trans ?_⟩
    rw [TunedBook.run] at ht
    rw [ht, Option.map_some]
  result b hb := by
    obtain ⟨t, ht, h⟩ := TunedBook.run_holds (onLadder_ops c.totalOps.toNat)
    have hrun := run_tuned {} ((Gen.new 42).ops c.totalOps.toNat)
    rw [TunedBook.run] at ht
    rw [ht] at hrun
    obtain rfl := Option.some.inj (hb.symm.trans hrun)
    have hstats : (AnyBook.tuned t).stats =
        t.checksum.bind fun sum => some (t.fills, t.volume, t.orders.size, sum) := rfl
    rw [hstats, TunedBook.checksum_holds h]
    exact ⟨_, rfl⟩

/-- `engine_from_env`: the tuned book or the idiomatic one. -/
def engineFromEnv (tuned : Bool) : AnyBook := if tuned then .tuned {} else .idio {}

theorem serves_engine (tuned : Bool) (c : Params) : Serves (engineFromEnv tuned) c := by
  cases tuned with
  | true => exact serves_tuned c
  | false => exact serves_idio c

/-! ## Every interleaving -/

/-- What holds at a point of an interleaving. -/
structure Outcome (R : Hdr H) (D : Disruptor ρ) (c : Params) (interval : Option UInt64)
    (book : AnyBook) (hist : H) (t₀ : UInt64) (s : Harness ρ H) : Prop where
  /-- The core does not panic. -/
  ready : ∀ {e ring}, D.take s.ring = some (e, ring) → ∃ core, s.core.onEvent R e s.now = some core
  /-- A report is that of the sequential run, with a recording for each stamp. -/
  delivered : ∀ {rep}, s.core.report = some rep → Delivered R c interval book hist t₀ s rep
  /-- The consumer did report. -/
  reported : s.stage = .joined → ∃ rep, s.core.report = some rep

/-- **Any schedule does**, on both books. Under every interleaving, the core does not panic, what
it reports is the result of the sequential run, with one recording for each stamp, and once the
producer is dropped there is a report. -/
theorem any_disruptor (R : Hdr H) (hD : D.Ordered pending) {ring : ρ} (hring : pending ring = [])
    (c : Params) (tuned : Bool) (hist : H) (t₀ : UInt64) {turns : List Turn}
    (hrun : run R D c (engineFromEnv tuned) hist ring t₀ turns = some s) :
    ∃ interval, c.interval = some interval ∧
      Outcome R D c interval (engineFromEnv tuned) hist t₀ s := by
  obtain ⟨interval, hinterval, -, h⟩ := inv_run hD hring hrun
  exact ⟨interval, hinterval,
    fun htake => h.exists_onEvent (serves_engine tuned c) (hD.take htake), h.delivered,
    h.exists_report⟩

end Harness

/-! ## A ring buffer -/

/-- A ring buffer of `size` slots, as the events in it; a slot is used for the first time. -/
def Disruptor.fifo (size : ℕ) : Disruptor (List Event) where
  publish l f := if l.length < size then some (l ++ [f {}]) else none
  take
    | [] => none
    | e :: l => some (e, l)
  drop l := if l = [] then some () else none

theorem Disruptor.fifo_ordered (size : ℕ) : (Disruptor.fifo size).Ordered id where
  publish := by
    rintro l f l' h
    simp only [fifo, Option.ite_none_right_eq_some] at h
    exact ⟨{}, (Option.some.inj h.2).symm⟩
  take := by
    rintro l e l' h
    cases l with
    | nil => simp [fifo] at h
    | cons e' rest =>
      obtain ⟨rfl, rfl⟩ := Prod.mk.inj (Option.some.inj h)
      rfl
  drop := by
    rintro l h
    exact (Option.ite_none_right_eq_some.mp h).1

theorem Disruptor.fifo_live {size : ℕ} (h : 0 < size) : (Disruptor.fifo size).Live id where
  publish := by
    rintro l rfl f
    exact ⟨[f {}], if_pos h⟩
  take := by
    rintro l hne
    obtain ⟨e, rest, rfl⟩ := List.exists_cons_of_ne_nil hne
    exact ⟨e, rest, rfl⟩
  drop := fun h => if_pos h

namespace Harness

/-- A run with a histogram that keeps what is recorded. -/
def runKept (c : Params) (tuned : Bool) (t₀ : UInt64) (turns : List Turn) :
    Option (Harness (List Event) (List UInt64)) :=
  run ⟨fun l x => (l ++ [x], true)⟩ (Disruptor.fifo 65536) c (engineFromEnv tuned) [] [] t₀ turns

/-- One paced operation, recorded two ticks after it was due. -/
theorem any_disruptor_paced :
    ∃ s rep, runKept ⟨1, 0, some 500000000⟩ true 5
        [.producer, .tick 9, .producer, .producer, .consumer, .producer, .producer, .consumer,
          .producer] = some s ∧
      s.stage = .joined ∧ s.core.report = some rep ∧ rep.hist = [2] ∧
        Delivered ⟨fun l x => (l ++ [x], true)⟩ ⟨1, 0, some 500000000⟩ (some 2)
          (engineFromEnv true) [] 5 s rep := by
  have hrun : (runKept ⟨1, 0, some 500000000⟩ true 5
      [.producer, .tick 9, .producer, .producer, .consumer, .producer, .producer, .consumer,
        .producer]).map (fun s => (s.stage, s.core.report.map Report.hist)) =
      some (.joined, some [2]) := by
    decide +kernel
  obtain ⟨s, hs, heq⟩ := Option.map_eq_some_iff.mp hrun
  obtain ⟨hstage, hreport⟩ := Prod.mk.inj heq
  obtain ⟨rep, hrep, hhist⟩ := Option.map_eq_some_iff.mp hreport
  obtain ⟨interval, hinterval, h⟩ :=
    any_disruptor _ (Disruptor.fifo_ordered 65536) rfl _ true [] 5 hs
  obtain rfl : some 2 = interval := Option.some.inj hinterval
  exact ⟨s, rep, hs, hstage, hrep, hhist, h.delivered hrep⟩

end Harness
end LmaxBench.Rust
