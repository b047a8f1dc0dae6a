import LmaxBench.Conformance.Measurement
import LmaxBench.Java.BookRefine
import LmaxBench.Java.Pacing
import LmaxBench.Java.TunedRange
import LmaxBench.Lib.Pipeline

/-!
# Runs of the harness in Java

The order of the events, whatever the clock shows: what was handled, followed by what is pending
in the ring, is what was published, and the published events ask for the operations of the
workload and then for the report. The book of the handler is the sequential fold over what was
handled, whether measuring throws later or not.

## Main definitions

* `Engine.apply`, `Engine.run` — the sequential fold.
* `Harness.Fed`, `Harness.Drained` — the two parts of the invariant.
* `Harness.Inv`, `Harness.inv_run` — what holds under every interleaving.
* `Harness.Inv.exists_onEvent_iff` — when the handler throws.
* `Harness.Outcome`, `Harness.any_schedule` — what a report says.
-/

namespace LmaxBench.Java

open Pipeline (Sent Folded)

namespace Engine

variable {σ : Type}

/-- One operation; `byte` and `long` are signed readings of the same bits. -/
def apply (E : Engine σ) (b : σ) : Cpp.Op → Option σ
  | .limit side price qty id => E.limit b side.toInt8 price qty id.toInt64
  | .cancel id => E.cancel b id.toInt64

/-- The sequential fold of the engine over the operations. -/
def run (E : Engine σ) (b : σ) (ops : List Cpp.Op) : Option σ := ops.foldlM E.apply b

/-- What the engine reports. -/
def stats (E : Engine σ) (b : σ) : Option (Int64 × Int64 × Int32 × Int64) :=
  (E.checksum b).map fun checksum => (E.fills b, E.volume b, E.resting b, checksum)

end Engine

/-- The operation an event asks for. In the last case of the `switch`, the handler reports. -/
def Ev.op? (e : Ev) : Option Cpp.Op :=
  if e.kind = kindLimit then some (.limit e.side.toUInt8 e.price e.qty e.id.toUInt64)
  else if e.kind = kindCancel then some (.cancel e.id.toUInt64)
  else none

theorem Ev.kind_of_op? {e : Ev} {op : Cpp.Op} (h : e.op? = some op) :
    e.kind = kindLimit ∨ e.kind = kindCancel := by
  rw [op?] at h
  split at h
  case isTrue hlimit => exact Or.inl hlimit
  case isFalse =>
    split at h
    case isTrue hcancel => exact Or.inr hcancel
    case isFalse => simp at h

theorem Ev.kind_of_op?_none {e : Ev} (h : e.op? = none) :
    ¬(e.kind = kindLimit ∨ e.kind = kindCancel) := by
  rw [op?] at h
  rintro (hkind | hkind)
  · simp [hkind] at h
  · have hne : kindCancel ≠ kindLimit := by decide
    simp [hkind, hne] at h

theorem Engine.exec_eq {σ : Type} (E : Engine σ) (b : σ) {e : Ev} {op : Cpp.Op}
    (h : e.op? = some op) : E.exec b e = E.apply b op := by
  rw [Ev.op?] at h
  rw [exec]
  split at h
  case isTrue hlimit =>
    obtain rfl := Option.some.inj h
    rw [if_pos hlimit, apply, Int8.toInt8_toUInt8, Int64.toInt64_toUInt64]
  case isFalse hlimit =>
    split at h
    case isTrue =>
      obtain rfl := Option.some.inj h
      rw [if_neg hlimit, apply, Int64.toInt64_toUInt64]
    case isFalse => simp at h

/-- The event of the operation that was drawn asks for it. -/
@[simp] theorem Workload.op?_event {w : Workload} (h : w.kind = kindLimit ∨ w.kind = kindCancel)
    (ts : Int64) : (w.event ts).op? = some w.op := by
  have hevent : w.event ts = ⟨w.kind, w.side, w.price.toInt, w.qty.toInt, w.id, ts⟩ := rfl
  rw [hevent, Ev.op?, op]
  rcases h with hlimit | hcancel
  · rw [if_pos hlimit, if_pos hlimit]
  · have hne : w.kind ≠ kindLimit := by
      rw [hcancel]
      decide
    rw [if_neg hne, if_neg hne, if_pos hcancel]

namespace Workload

theorem after_succ (w : Workload) (n : ℕ) : w.after (n + 1) = (w.after n).nextOp := rfl

@[simp] theorem length_ops (w : Workload) (n : ℕ) : (w.ops n).length = n := by simp [ops]

@[simp] theorem getElem?_ops (w : Workload) {n i : ℕ} (hi : i < n) :
    (w.ops n)[i]? = some (w.after (i + 1)).op := by
  simp [ops, hi]

end Workload

/-- How many operations there are; a negative number of them is none. -/
def Params.count (c : Params) : ℕ := c.totalOps.toInt.toNat

namespace Harness

variable {ρ σ H : Type} {E : Engine σ} {R : Hdr H} {D : Disruptor ρ} {pending : ρ → List Ev}
  {c : Params} {origin : Int64} {s s' : Harness ρ σ H}

/-! ## The sender -/

/-- The first `n` operations of the workload were sent, or all and the request for the report. -/
abbrev SentUpTo (c : Params) (sent : List Ev) (n : ℕ) : Prop :=
  Sent Ev.op? ((Workload.new 42).ops c.count) sent n

/-- What the event under way asks for, when `n` were sent. -/
inductive Asks (c : Params) (i : Int64) (wl : Workload) (n : ℕ) (e : Ev) : Prop
  | op (hi : i.toInt = n) (hlt : n < c.totalOps.toInt) (hwl : wl = (Workload.new 42).after (n + 1))
      (h : e.op? = some ((Workload.new 42).after (n + 1)).op)
  | report (hn : n = c.count) (h : e.op? = none) (hkind : e.kind = kindReport)
      (hts : e.ts = 0)

/-- What the main thread has sent, by where it is. -/
inductive Fed (c : Params) (sent : List Ev) : Stage → Int64 → Workload → Prop
  | next {i : Int64} {n : ℕ} (hi : i.toInt = n) (hn : n ≤ c.count) (h : SentUpTo c sent n) :
      Fed c sent .next i ((Workload.new 42).after n)
  | pace {i : Int64} {n : ℕ} (hi : i.toInt = n) (hlt : n < c.totalOps.toInt)
      (h : SentUpTo c sent n) :
      Fed c sent .pace i ((Workload.new 42).after (n + 1))
  | claim {i : Int64} {wl : Workload} {n : ℕ} {e : Ev} (h : SentUpTo c sent n)
      (he : Asks c i wl n e) : Fed c sent (.claim e) i wl
  | publish {i : Int64} {wl : Workload} {n : ℕ} {e : Ev} (h : SentUpTo c sent n)
      (he : Asks c i wl n e) : Fed c sent (.publish e) i wl
  | shutdown {i : Int64} {wl : Workload} (h : SentUpTo c sent (c.count + 1)) :
      Fed c sent .shutdown i wl

theorem Fed.exists_sent {sent : List Ev} {stage : Stage} {i : Int64} {wl : Workload}
    (h : Fed c sent stage i wl) : ∃ n, SentUpTo c sent n := by
  cases h with
  | next _ _ h | pace _ _ h | claim h _ | publish h _ | shutdown h => exact ⟨_, h⟩

/-- All that was sent. -/
def sentOf (pending : ρ → List Ev) (s : Harness ρ σ H) : List Ev := s.handled ++ pending s.ring

/-- Without pacing, no event is measured. -/
def Unpaced (c : Params) (e : Ev) : Prop := ¬c.interval > 0 → e.ts = 0

/-- The event a stage is about to publish is not measured without pacing. -/
def StageUnpaced (c : Params) : Stage → Prop
  | .claim e | .publish e => Unpaced c e
  | .pace => c.interval > 0
  | .next | .shutdown => True

/-- **One step of the main thread** sends nothing, or the event under way. -/
theorem producerStep_spec (hD : D.Ordered pending) (h : Fed c (sentOf pending s) s.stage s.i s.wl)
    (hun : StageUnpaced c s.stage) (hstep : s.producerStep D c origin = some s') :
    Fed c (sentOf pending s') s'.stage s'.i s'.wl ∧ StageUnpaced c s'.stage ∧
      (pending s'.ring = pending s.ring ∨
        ∃ e, pending s'.ring = pending s.ring ++ [e] ∧ Unpaced c e) ∧
      s'.core = s.core ∧ s'.handled = s.handled := by
  obtain ⟨elapsed, ring, stage, i, wl, nextDue, core, published, handled⟩ := s
  dsimp only [sentOf] at h hun ⊢
  cases h with
  | @next _ n hi hn h =>
    obtain rfl := Option.some.inj hstep
    dsimp only
    by_cases hlt : i < c.totalOps
    · have hlt' : (n : ℤ) < c.totalOps.toInt := hi ▸ Int64.lt_iff_toInt_lt.mp hlt
      rw [if_pos hlt, ← Workload.after_succ]
      by_cases hpos : c.interval > 0
      · rw [if_pos hpos]
        exact ⟨.pace hi hlt' h, hpos, Or.inl rfl, rfl, rfl⟩
      · rw [if_neg hpos]
        have hkind := kind_nextOp ((Workload.new 42).after n)
        rw [← Workload.after_succ] at hkind
        exact ⟨.claim h (.op hi hlt' rfl (Workload.op?_event hkind 0)), fun _ => rfl,
          Or.inl rfl, rfl, rfl⟩
    · have hcount : n = c.count := by
        rw [Int64.lt_iff_toInt_lt, hi] at hlt
        rw [Params.count] at hn ⊢
        omega
      rw [if_neg hlt]
      exact ⟨.claim h (.report hcount rfl rfl rfl), fun _ => rfl, Or.inl rfl, rfl, rfl⟩
  | @pace _ n hi hlt h =>
    obtain rfl := Option.some.inj hstep
    dsimp only
    by_cases hwait : nanoTime origin elapsed < nextDue
    · rw [if_pos hwait]
      exact ⟨.pace hi hlt h, hun, Or.inl rfl, rfl, rfl⟩
    · rw [if_neg hwait]
      have hkind := kind_nextOp ((Workload.new 42).after n)
      rw [← Workload.after_succ] at hkind
      exact ⟨.claim h (.op hi hlt rfl (Workload.op?_event hkind _)), fun hnot => absurd hun hnot,
        Or.inl rfl, rfl, rfl⟩
  | claim h he =>
    obtain ⟨ring', hnext, heq⟩ := Option.bind_eq_some_iff.mp hstep
    obtain rfl := Option.some.inj heq
    have hpending := hD.next hnext
    dsimp only
    rw [hpending]
    exact ⟨.publish h he, hun, Or.inl rfl, rfl, rfl⟩
  | @publish _ _ n e h he =>
    obtain ⟨ring', hpublish, heq⟩ := Option.bind_eq_some_iff.mp hstep
    have hpending := hD.publish hpublish
    obtain rfl := Option.some.inj heq
    cases he with
    | op hi hlt hwl hop =>
      have hkind : e.kind ≠ kindReport := ne_kindReport (Ev.kind_of_op? hop)
      have hlen : n < c.count := by
        rw [Params.count]
        omega
      have hone : (i + 1).toInt = (n + 1 : ℕ) := by
        rw [Word.toInt_add_one_of_lt (hi ▸ hlt), hi]
        rfl
      rw [if_neg hkind]
      dsimp only
      rw [hpending, ← List.append_assoc, hwl]
      exact ⟨.next hone hlen (h.snoc_op (Workload.getElem?_ops _ hlen) hop), trivial,
        Or.inr ⟨e, rfl, hun⟩, rfl, rfl⟩
    | report hn hop hkind hts =>
      rw [if_pos hkind]
      dsimp only
      rw [hpending, ← List.append_assoc]
      have hlen := Workload.length_ops (Workload.new 42) c.count
      have hall : SentUpTo c (handled ++ pending ring)
          ((Workload.new 42).ops c.count).length := by
        rw [hlen, ← hn]
        exact h
      have hsent := Sent.snoc_request hall hop
      rw [hlen] at hsent
      exact ⟨.shutdown hsent, trivial, Or.inr ⟨e, rfl, hun⟩, rfl, rfl⟩
  | shutdown h => simp [producerStep] at hstep

/-! ## The receiver -/

/-- What the handler has made of the events it handled, from the book `b₀`. -/
structure Drained (E : Engine σ) (b₀ : σ) (s : Harness ρ σ H) : Prop where
  folded : Folded Ev.op? E.apply b₀ s.handled s.core.report.isSome s.core.book
  report_eq : ∀ {rep}, s.core.report = some rep → E.stats s.core.book = some rep.stats

theorem measure_frame {core core' : CoreHandler σ H} {now ts : Int64}
    (h : core.measure R now ts = some core') :
    core'.book = core.book ∧ core'.report = core.report := by
  rw [CoreHandler.measure] at h
  split at h
  · obtain ⟨hist, -, heq⟩ := Option.bind_eq_some_iff.mp h
    obtain rfl := Option.some.inj heq
    exact ⟨rfl, rfl⟩
  · obtain rfl := Option.some.inj h
    exact ⟨rfl, rfl⟩

/-- **One event** is handled. Since the request for the report comes last, there is no report
yet. -/
theorem Drained.handle {b₀ : σ} (h : Drained E b₀ s) (hreport : s.core.report = none) {e : Ev}
    {core : CoreHandler σ H} {now : Int64} (hevent : s.core.onEvent E R e now = some core)
    (ring : ρ) : Drained E b₀ { s with ring, core, handled := s.handled ++ [e] } := by
  have hfolded := h.folded
  rw [hreport] at hfolded
  cases hop : e.op? with
  | some op =>
    rw [CoreHandler.onEvent_op _ now (Ev.kind_of_op? hop), E.exec_eq _ hop] at hevent
    obtain ⟨b, happly, hmeasure⟩ := Option.bind_eq_some_iff.mp hevent
    obtain ⟨hbook, hsame⟩ := measure_frame hmeasure
    constructor
    case folded =>
      dsimp only at hbook hsame ⊢
      rw [hsame, hreport, hbook]
      exact hfolded.snoc_op hop happly
    case report_eq =>
      intro rep hrep
      dsimp only at hsame hrep
      rw [hsame, hreport] at hrep
      simp at hrep
  | none =>
    rw [CoreHandler.onEvent_other _ now (Ev.kind_of_op?_none hop)] at hevent
    obtain ⟨sum, hsum, heq⟩ := Option.bind_eq_some_iff.mp hevent
    obtain rfl := Option.some.inj heq
    constructor
    case folded => exact hfolded.snoc_request hop
    case report_eq =>
      intro rep hrep
      obtain rfl := Option.some.inj hrep
      rw [Engine.stats, hsum]
      rfl

/-! ## Runs -/

/-- What holds at every point of every interleaving. -/
structure Inv (E : Engine σ) (pending : ρ → List Ev) (c : Params) (b₀ : σ) (s : Harness ρ σ H) :
    Prop where
  fed : Fed c (sentOf pending s) s.stage s.i s.wl
  stage : StageUnpaced c s.stage
  unpaced : ∀ e ∈ pending s.ring, Unpaced c e
  drained : Drained E b₀ s

theorem inv_start (E : Engine σ) (c : Params) (origin : Int64) {ring : ρ}
    (hring : pending ring = []) {core : CoreHandler σ H} (hreport : core.report = none) :
    Inv E pending c core.book (start origin ring core) where
  fed := by
    have hsent : sentOf pending (start origin ring core) = [] := hring
    rw [hsent]
    exact .next rfl (Nat.zero_le _) .nil
  stage := trivial
  unpaced := by simp [start, hring]
  drained :=
    { folded := by
        have hsome : (start origin ring core).core.report.isSome = false := by simp [start, hreport]
        rw [hsome]
        exact .nil
      report_eq := by simp [start, hreport] }

theorem prefix_handled (s : Harness ρ σ H) : s.handled <+: sentOf pending s :=
  List.prefix_append ..

/-- The request for the report is the last event. -/
theorem Inv.report_none {b₀ : σ} (h : Inv E pending c b₀ s) (hpending : pending s.ring ≠ []) :
    s.core.report = none := by
  obtain ⟨n, hsent⟩ := h.fed.exists_sent
  cases hrep : s.core.report with
  | none => rfl
  | some rep =>
    have hfolded := h.drained.folded
    rw [hrep] at hfolded
    have hlen := congrArg List.length (hfolded.eq_run hsent (prefix_handled s)).1
    rw [List.length_map, Pipeline.length_script] at hlen
    have hle := hsent.length_le
    have hpos := List.length_pos_iff.mpr hpending
    rw [sentOf, List.length_append] at hle
    omega

/-- **Every turn keeps the invariant.** -/
theorem inv_step (hD : D.Ordered pending) {b₀ : σ} {turn : Turn} (h : Inv E pending c b₀ s)
    (hstep : s.step E R D c origin turn = some s') : Inv E pending c b₀ s' := by
  cases turn with
  | tick d =>
    obtain rfl := Option.some.inj hstep
    exact ⟨h.fed, h.stage, h.unpaced, h.drained.folded, h.drained.report_eq⟩
  | producer =>
    obtain ⟨hfed, hstage, hsent, hcore, hhandled⟩ := producerStep_spec hD h.fed h.stage hstep
    refine ⟨hfed, hstage, ?_, ?_, ?_⟩
    · rcases hsent with hsame | ⟨e, hpending, he⟩
      · exact hsame ▸ h.unpaced
      · rw [hpending]
        intro e' he'
        rcases List.mem_append.mp he' with hold | hnew
        · exact h.unpaced e' hold
        · exact List.mem_singleton.mp hnew ▸ he
    · rw [hcore, hhandled]
      exact h.drained.folded
    · rw [hcore]
      exact h.drained.report_eq
  | consumer =>
    obtain ⟨⟨e, ring⟩, htake, hbind⟩ := Option.bind_eq_some_iff.mp hstep
    obtain ⟨core, hevent, heq⟩ := Option.bind_eq_some_iff.mp hbind
    obtain rfl := Option.some.inj heq
    have hpending := hD.take htake
    have hreport := h.report_none (by simp [hpending])
    have hunpaced := h.unpaced
    rw [hpending] at hunpaced
    refine ⟨?_, h.stage, fun e' he' => hunpaced e' (List.mem_cons_of_mem e he'),
      h.drained.handle hreport hevent ring⟩
    have hsent : sentOf pending { s with ring, core, handled := s.handled ++ [e] } =
        sentOf pending s := by
      simp [sentOf, hpending]
    rw [hsent]
    exact h.fed

theorem inv_run (hD : D.Ordered pending) {ring : ρ} (hring : pending ring = [])
    {core : CoreHandler σ H} (hreport : core.report = none) {turns : List Turn}
    (hrun : run E R D c origin ring core turns = some s) : Inv E pending c core.book s :=
  Loop.foldlM_invariant (Inv E pending c core.book) (fun _ _ _ h hstep => inv_step hD h hstep)
    (inv_start E c origin hring hreport) hrun

/-! ## Every interleaving -/

/-- The engine throws neither on the workload nor for the report. -/
def Serves (E : Engine σ) (b₀ : σ) (c : Params) : Prop :=
  Pipeline.Serves E.apply E.stats b₀ ((Workload.new 42).ops c.count)

/-- What holds at a point of an interleaving that starts with the book `b₀`. -/
structure Outcome (E : Engine σ) (R : Hdr H) (D : Disruptor ρ) (c : Params) (origin : Int64)
    (b₀ : σ) (s : Harness ρ σ H) : Prop where
  /-- A report comes after every operation of the workload, once and in order, and is that of the
  sequential run. -/
  delivered : ∀ {rep}, s.core.report = some rep →
    s.handled.map Ev.op? = Pipeline.script ((Workload.new 42).ops c.count) ∧
      ∃ b, E.run b₀ ((Workload.new 42).ops c.count) = some b ∧
        E.stats b = some rep.stats
  /-- Without pacing, the handler does not throw. -/
  ready : ¬c.interval > 0 → ∀ {e ring}, D.take s.ring = some (e, ring) →
    ∃ core, s.core.onEvent E R e (nanoTime origin s.elapsed) = some core

theorem Inv.delivered {b₀ : σ} (h : Inv E pending c b₀ s) {rep : Report H}
    (hrep : s.core.report = some rep) :
    s.handled.map Ev.op? = Pipeline.script ((Workload.new 42).ops c.count) ∧
      ∃ b, E.run b₀ ((Workload.new 42).ops c.count) = some b ∧
        E.stats b = some rep.stats := by
  obtain ⟨n, hsent⟩ := h.fed.exists_sent
  have hfolded := h.drained.folded
  rw [hrep] at hfolded
  obtain ⟨hhandled, hrun⟩ := hfolded.eq_run hsent (prefix_handled s)
  exact ⟨hhandled, _, hrun, h.drained.report_eq hrep⟩

/-- **The engine does not throw** on the event that is handed over next. -/
theorem Inv.exists_exec (hD : D.Ordered pending) {b₀ : σ} (h : Inv E pending c b₀ s)
    (hserves : Serves E b₀ c) {e : Ev} {ring : ρ} (htake : D.take s.ring = some (e, ring)) :
    (e.kind = kindLimit ∨ e.kind = kindCancel) ∧ (∃ b, E.exec s.core.book e = some b) ∨
      ¬(e.kind = kindLimit ∨ e.kind = kindCancel) ∧ ∃ sum, E.checksum s.core.book = some sum := by
  have hpending := hD.take htake
  obtain ⟨n, hsent⟩ := h.fed.exists_sent
  have hfolded := h.drained.folded
  rw [h.report_none (by simp [hpending])] at hfolded
  have hnext : (sentOf pending s)[s.handled.length]? = some e := by
    rw [sentOf, hpending, List.getElem?_append_right le_rfl, Nat.sub_self]
    rfl
  cases hop : e.op? with
  | some op =>
    obtain ⟨b, hb⟩ := hfolded.exists_apply hsent (prefix_handled s) hserves hnext hop
    exact Or.inl ⟨Ev.kind_of_op? hop, b, (E.exec_eq _ hop).trans hb⟩
  | none =>
    obtain ⟨stats, hstats⟩ := hfolded.exists_result hsent (prefix_handled s) hserves hnext hop
    obtain ⟨sum, hsum, -⟩ := Option.map_eq_some_iff.mp hstats
    exact Or.inr ⟨Ev.kind_of_op?_none hop, sum, hsum⟩

/-- **When the handler throws**: if the latency of the next event is not covered. -/
theorem Inv.exists_onEvent_iff {top : Int64} (hR : R.FixedRange top) (hD : D.Ordered pending)
    {b₀ : σ} (h : Inv E pending c b₀ s) (hserves : Serves E b₀ c) {e : Ev} {ring : ρ}
    (htake : D.take s.ring = some (e, ring)) (now : Int64) :
    (∃ core, s.core.onEvent E R e now = some core) ↔ CoreHandler.Covered top (e, now) := by
  rcases h.exists_exec hD hserves htake with ⟨hkind, hexec⟩ | ⟨hkind, sum, hsum⟩
  · rw [CoreHandler.exists_onEvent_iff hR _ _ hkind]
    exact and_iff_right hexec
  · refine iff_of_true ?_ fun _ hop => absurd hop hkind
    rw [CoreHandler.onEvent_other _ _ hkind, hsum]
    exact ⟨_, rfl⟩

theorem Inv.outcome (hD : D.Ordered pending) {b₀ : σ} (h : Inv E pending c b₀ s)
    (hserves : Serves E b₀ c) : Outcome E R D c origin b₀ s where
  delivered := h.delivered
  ready := by
    intro hun e ring htake
    rcases h.exists_exec hD hserves htake with ⟨hkind, b, hb⟩ | ⟨hkind, sum, hsum⟩
    · have hts : e.ts = 0 := h.unpaced e (hD.take htake ▸ List.mem_cons_self) hun
      rw [CoreHandler.onEvent_op _ _ hkind, hb, hts]
      exact ⟨_, rfl⟩
    · rw [CoreHandler.onEvent_other _ _ hkind, hsum]
      exact ⟨_, rfl⟩

/-! ## Both engines -/

@[simp] theorem run_book (b : Book) (ops : List Cpp.Op) :
    Book.engine.run b ops = some (ops.foldl Book.apply b) := by
  induction ops generalizing b with
  | nil => rfl
  | cons op ops ih =>
    have happly : Book.engine.apply b op = some (b.apply op) := by cases op <;> rfl
    rw [Engine.run, List.foldlM_cons, happly, List.foldl_cons]
    exact ih (b.apply op)

@[simp] theorem apply_tuned : TunedBook.engine.apply = TunedBook.apply := by
  funext b op
  cases op with
  | limit side price qty id => rfl
  | cancel id => rfl

theorem serves_book (c : Params) : Serves Book.engine {} c where
  run _ _ := ⟨_, run_book {} _⟩
  result _ _ := ⟨_, rfl⟩

/-- The tuned book is built for as many orders as there are operations. -/
theorem exists_tuned {totalOps : Int64} (h0 : 0 ≤ totalOps.toInt)
    (hlt : totalOps.toInt + 2 < 2 ^ 30) {n : ℕ} (hn : n ≤ totalOps.toInt.toNat) :
    ∃ b sum, TunedBook.run totalOps ((Workload.new 42).ops n) = some b ∧ b.checksum = some sum := by
  obtain ⟨maxId, rfl⟩ : ∃ m : UInt64, totalOps = m.toInt64 :=
    ⟨totalOps.toUInt64, totalOps.toInt64_toUInt64.symm⟩
  have hnat := Word.toInt_eq_toNat_of_nonneg h0
  rw [UInt64.toUInt64_toInt64] at hnat
  have hseed : (42 : Int64) = (42 : UInt64).toInt64 := by decide
  have hops : ∀ op ∈ (Cpp.Gen.new 42).ops n, op.InRange maxId :=
    Cpp.Gen.inRange_ops 42 (by omega)
  have hlen : ((Cpp.Gen.new 42).ops n).length = n := by
    rw [Cpp.Gen.ops, List.length_map, List.length_range]
  rw [hseed, Workload.ops_eq 42 (by omega)]
  exact TunedBook.exists_run (by omega) (by omega) hops

@[simp] theorem take_ops (w : Workload) {n k : ℕ} (h : k ≤ n) : (w.ops n).take k = w.ops k := by
  rw [Workload.ops, Workload.ops, ← List.map_take, List.take_range, Nat.min_eq_left h]

theorem serves_tuned (h0 : 0 ≤ c.totalOps.toInt) (hlt : c.totalOps.toInt + 2 < 2 ^ 30)
    {b₀ : TunedBook} (hnew : TunedBook.new c.totalOps = some b₀) :
    Serves TunedBook.engine b₀ c where
  run n hn := by
    rw [Workload.length_ops] at hn
    obtain ⟨b, sum, hrun, -⟩ := exists_tuned h0 hlt hn
    rw [TunedBook.run, hnew] at hrun
    rw [take_ops _ hn, apply_tuned]
    exact ⟨b, hrun⟩
  result b hb := by
    obtain ⟨b', sum, hrun, hsum⟩ := exists_tuned h0 hlt le_rfl
    rw [TunedBook.run, hnew] at hrun
    rw [apply_tuned] at hb
    obtain rfl : b = b' := Option.some.inj (hb.symm.trans hrun)
    have hstats : TunedBook.engine.stats b =
        b.checksum.map fun sum => (b.fills, b.volume, b.live, sum) := rfl
    rw [hstats, hsum]
    exact ⟨_, rfl⟩

/-- The tuned book is built, and throws nowhere on the workload. -/
theorem exists_serves_tuned (h0 : 0 ≤ c.totalOps.toInt) (hlt : c.totalOps.toInt + 2 < 2 ^ 30) :
    ∃ b₀, TunedBook.new c.totalOps = some b₀ ∧ Serves TunedBook.engine b₀ c := by
  obtain ⟨b, sum, hrun, -⟩ := exists_tuned h0 hlt (Nat.zero_le _)
  obtain ⟨b₀, hnew, -⟩ := Option.bind_eq_some_iff.mp hrun
  exact ⟨b₀, hnew, serves_tuned h0 hlt hnew⟩

/-- **Any schedule does**, on both engines. Under every interleaving, whatever the clock shows, a
report is the result of the sequential run, and without pacing no exception escapes. -/
theorem any_schedule (hD : D.Ordered pending) {ring : ρ} (hring : pending ring = []) (R : Hdr H)
    (c : Params) (origin : Int64) (hist : H) (turns : List Turn) :
    (∀ s, run Book.engine R D c origin ring { book := {}, hist } turns = some s →
      Outcome Book.engine R D c origin {} s) ∧
    (0 ≤ c.totalOps.toInt → c.totalOps.toInt + 2 < 2 ^ 30 → ∃ b₀,
      TunedBook.new c.totalOps = some b₀ ∧
        ∀ s, run TunedBook.engine R D c origin ring { book := b₀, hist } turns = some s →
          Outcome TunedBook.engine R D c origin b₀ s) := by
  constructor
  · exact fun s hrun => (inv_run hD hring rfl hrun).outcome hD (serves_book c)
  · intro h0 hlt
    obtain ⟨b₀, hnew, hserves⟩ := exists_serves_tuned h0 hlt
    exact ⟨b₀, hnew, fun s hrun => (inv_run hD hring rfl hrun).outcome hD hserves⟩

/-- One operation without pacing, on the idiomatic book. -/
theorem any_schedule_unpaced :
    ∃ s rep, run Book.engine (boundedHdr hdrTop) (.fifo ringSize) ⟨1, 0, 0⟩ 7 []
        { book := {}, hist := [] }
        [.producer, .producer, .producer, .consumer, .producer, .producer, .producer, .tick 3,
          .consumer] = some s ∧
      s.core.report = some rep ∧
        ∃ b, Book.engine.run {} ((Workload.new 42).ops 1) = some b ∧
          Book.engine.stats b = some rep.stats := by
  have hrun : (run Book.engine (boundedHdr hdrTop) (.fifo ringSize) ⟨1, 0, 0⟩ 7 []
      { book := {}, hist := [] }
      [.producer, .producer, .producer, .consumer, .producer, .producer, .producer, .tick 3,
        .consumer]).map (fun s => s.core.report.isSome) = some true := by
    decide +kernel
  obtain ⟨s, hs, hreport⟩ := Option.map_eq_some_iff.mp hrun
  obtain ⟨rep, hrep⟩ := Option.isSome_iff_exists.mp hreport
  have h := (any_schedule (Disruptor.fifo_ordered ringSize) (rfl : id ([] : List Ev) = [])
    (boundedHdr hdrTop) ⟨1, 0, 0⟩ 7 [] _).1 s hs
  exact ⟨s, rep, hs, hrep, (h.delivered hrep).2⟩

end Harness
end LmaxBench.Java
