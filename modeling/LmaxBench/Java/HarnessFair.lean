import LmaxBench.Java.HarnessRun
import LmaxBench.Lib.Fair

/-!
# The harness in Java comes to its end

In throughput mode nothing is measured, so that the handler throws nothing, and nobody looks at the
clock. The main thread waits for a slot, and the Disruptor's thread for an event. A slot that was
claimed stays claimed while the other thread moves on; given that, the run ends under every schedule
that gives both threads a turn again and again.

## Main definitions

* `Harness.work`, `Harness.Thread` — the steps that are left, and the thread that can take one.
* `Harness.Scheduled` — the fair schedules.
* `Harness.reports_if_fair` — they end, on both engines, with the report of the sequential run.
-/

namespace LmaxBench.Java

/-- Without a rate, there is no pacing. -/
theorem Params.interval_of_rate {c : Params} (h : c.rate ≤ 0) : ¬c.interval > 0 := by
  rw [interval, if_neg (Int64.not_lt.mpr h)]
  decide

namespace Harness

variable {ρ σ H : Type} {E : Engine σ} {R : Hdr H} {D : Disruptor ρ} {pending : ρ → List Ev}
  {claimed : ρ → Prop} {c : Params} {origin : Int64} {b₀ : σ} {ring : ρ} {s s' : Harness ρ σ H}

/-! ## What is left to do -/

/-- The steps of the main thread before it is at the head of its loop again. -/
def stageWork : Stage → ℕ
  | .next => 5
  | .pace => 4
  | .claim _ => 3
  | .publish _ => 2
  | .shutdown => 0

/-- The steps that are left. -/
def work (pending : ρ → List Ev) (c : Params) (s : Harness ρ σ H) : ℕ :=
  8 * (c.count + 1 - (sentOf pending s).length) + stageWork s.stage + (pending s.ring).length

/-- What the main thread publishes was not sent before. -/
theorem Asks.lt_length {i : Int64} {wl : Workload} {n : ℕ} {e : Ev} (h : Asks c i wl n e) :
    n < c.count + 1 := by
  cases h with
  | op _ hlt =>
    rw [Params.count]
    omega
  | report hn => omega

theorem length_sent {sent : List Ev} {n : ℕ} (h : SentUpTo c sent n)
    (hn : n < c.count + 1) : sent.length = n :=
  h.length_eq (by rw [Workload.length_ops]; omega)

/-- **The main thread loses nothing**: without pacing, each of its steps brings the end closer. -/
theorem Inv.producer_work (hD : D.Ordered pending) (hun : ¬c.interval > 0)
    (h : Inv E pending c b₀ s) (hstep : s.producerStep D c origin = some s') :
    work pending c s' < work pending c s := by
  have hfed := h.fed
  have hstage := h.stage
  obtain ⟨elapsed, ring, stage, i, wl, nextDue, core, published, handled⟩ := s
  dsimp only at hfed hstage
  cases hfed with
  | next =>
    obtain rfl := Option.some.inj hstep
    by_cases hlt : i < c.totalOps
    · simp [hlt, hun, work, sentOf, stageWork]
    · simp [hlt, work, sentOf, stageWork]
  | pace => exact absurd hstage hun
  | claim =>
    obtain ⟨ring', hnext, heq⟩ := Option.bind_eq_some_iff.mp hstep
    obtain rfl := Option.some.inj heq
    simp [work, sentOf, stageWork, hD.next hnext]
  | publish hsent he =>
    obtain ⟨ring', hpublish, heq⟩ := Option.bind_eq_some_iff.mp hstep
    obtain rfl := Option.some.inj heq
    have hlt := he.lt_length
    have hlen := length_sent hsent hlt
    rw [sentOf, List.length_append] at hlen
    dsimp only at hlen
    split <;>
    · simp only [work, sentOf, stageWork, hD.publish hpublish, List.length_append,
        List.length_singleton]
      omega
  | shutdown => simp [producerStep] at hstep

/-- The Disruptor's thread has handed over an event. -/
theorem consumer_work (hD : D.Ordered pending) (hstep : s.consumerStep E R D origin = some s') :
    work pending c s' < work pending c s := by
  obtain ⟨⟨e, ring⟩, htake, hbind⟩ := Option.bind_eq_some_iff.mp hstep
  obtain ⟨core, -, heq⟩ := Option.bind_eq_some_iff.mp hbind
  obtain rfl := Option.some.inj heq
  simp [work, sentOf, hD.take htake]

/-! ## The claimed slot -/

/-- The slot that the main thread fills in is claimed. -/
def Claimed (claimed : ρ → Prop) (s : Harness ρ σ H) : Prop :=
  ∀ e, s.stage = .publish e → claimed s.ring

theorem claimed_step (hA : D.Alive pending claimed) {turn : Turn} (h : Claimed claimed s)
    (hstep : s.step E R D c origin turn = some s') : Claimed claimed s' := by
  intro e he
  cases turn with
  | tick d =>
    obtain rfl := Option.some.inj hstep
    exact h e he
  | producer =>
    replace hstep : s.producerStep D c origin = some s' := hstep
    simp only [producerStep] at hstep
    split at hstep
    case h_1 =>
      obtain rfl := Option.some.inj hstep
      split at he
      · split at he <;> simp at he
      · simp at he
    case h_2 hs =>
      obtain rfl := Option.some.inj hstep
      split at he
      · rw [hs] at he
        simp at he
      · simp at he
    case h_3 =>
      obtain ⟨ring', hnext, heq⟩ := Option.bind_eq_some_iff.mp hstep
      obtain rfl := Option.some.inj heq
      exact hA.claims hnext
    case h_4 =>
      obtain ⟨ring', -, heq⟩ := Option.bind_eq_some_iff.mp hstep
      obtain rfl := Option.some.inj heq
      split at he <;> simp at he
    case h_5 => simp at hstep
  | consumer =>
    obtain ⟨⟨e', ring⟩, htake, hbind⟩ := Option.bind_eq_some_iff.mp hstep
    obtain ⟨core, -, heq⟩ := Option.bind_eq_some_iff.mp hbind
    obtain rfl := Option.some.inj heq
    exact hA.keeps (h e he) htake

/-! ## Who helps -/

/-- With nothing pending, the main thread has a step to take, unless there is a report. -/
theorem Inv.exists_producerStep (hA : D.Alive pending claimed) (h : Inv E pending c b₀ s)
    (hclaimed : Claimed claimed s) (hempty : pending s.ring = [])
    (hreport : ¬s.core.report.isSome = true) : ∃ s', s.producerStep D c origin = some s' := by
  have hfed := h.fed
  have hfolded := h.drained.folded
  rw [Bool.eq_false_iff.mpr hreport] at hfolded
  cases hs : s.stage with
  | next | pace =>
    simp only [producerStep, hs]
    exact ⟨_, rfl⟩
  | claim e =>
    obtain ⟨ring', hnext⟩ := hA.next hempty
    refine ⟨{ s with ring := ring', stage := .publish e }, ?_⟩
    simp only [producerStep, hs, hnext, Option.bind_eq_bind, Option.bind_some]
  | publish e =>
    obtain ⟨ring', hpublish⟩ := hA.publish (hclaimed e hs) e
    simp only [producerStep, hs, hpublish, Option.bind_eq_bind, Option.bind_some]
    exact ⟨_, rfl⟩
  | shutdown =>
    -- everything was handled, the request for the report too
    rw [hs] at hfed
    cases hfed with
    | shutdown hsent =>
      have hlen := hsent.length_eq (by rw [Workload.length_ops])
      rw [sentOf, hempty, List.append_nil] at hlen
      have hle := (hfolded.eq_take hsent (prefix_handled s)).1
      rw [Workload.length_ops] at hle
      omega

/-- The two threads. -/
inductive Thread
  | main
  | handler
  deriving DecidableEq

namespace Thread

/-- The thread that has something to do. -/
def helper (pending : ρ → List Ev) (s : Harness ρ σ H) : Thread :=
  if (pending s.ring).isEmpty then .main else .handler

/-- What counts as a turn of a thread. -/
def HasTurn (turn : Turn) : Thread → Prop
  | .main => turn = .producer
  | .handler => turn = .consumer

end Thread

/-- A schedule under which both threads have their turn again and again. -/
def Scheduled (sched : ℕ → Turn) : Prop := ∀ (t : Thread) n, ∃ m, n ≤ m ∧ t.HasTurn (sched m)

theorem helpful (hD : D.Ordered pending) (hA : D.Alive pending claimed) (hun : ¬c.interval > 0)
    (hserves : Serves E b₀ c) :
    Fair.Helpful (step E R D c origin) (fun s => Inv E pending c b₀ s ∧ Claimed claimed s)
      (fun s => s.core.report.isSome = true) (work pending c) (Thread.helper pending)
      fun t _ turn => t.HasTurn turn where
  invariant _ _ _ h hstep := ⟨inv_step hD h.1 hstep, claimed_step hA h.2 hstep⟩
  keeps := by
    intro s turn s' h _ hstep
    refine Or.inr ?_
    cases turn with
    | tick d =>
      obtain rfl := Option.some.inj hstep
      exact Or.inr ⟨rfl, rfl⟩
    | producer => exact Or.inl (h.1.producer_work hD hun hstep)
    | consumer => exact Or.inl (consumer_work hD hstep)
  gains := by
    intro s turn h hreport hturn
    rw [Thread.helper] at hturn
    split at hturn
    case isTrue hempty =>
      obtain rfl : turn = .producer := hturn
      obtain ⟨s', hs'⟩ :=
        h.1.exists_producerStep hA h.2 (List.isEmpty_iff.mp hempty) hreport
      exact ⟨s', hs', Or.inr (h.1.producer_work hD hun hs')⟩
    case isFalse hne =>
      obtain rfl : turn = .consumer := hturn
      obtain ⟨e, ring, htake⟩ := hA.take (mt List.isEmpty_iff.mpr hne)
      have houtcome : Outcome E R D c origin b₀ s := h.1.outcome hD hserves
      obtain ⟨core, hevent⟩ := houtcome.ready hun htake
      have hs' : s.consumerStep E R D origin =
          some { s with ring, core, handled := s.handled ++ [e] } := by
        simp only [consumerStep, htake, Option.bind_eq_bind, Option.bind_some, hevent]
      exact ⟨_, hs', Or.inr (consumer_work hD hs')⟩

/-! ## The end -/

/-- The run comes to its end, with the report of the sequential run. -/
def Returns (E : Engine σ) (R : Hdr H) (D : Disruptor ρ) (c : Params) (origin : Int64) (ring : ρ)
    (core : CoreHandler σ H) (sched : ℕ → Turn) : Prop :=
  Fair.Eventually (step E R D c origin) (start origin ring core) sched fun s =>
    ∃ rep, s.core.report = some rep ∧
      s.handled.map Ev.op? = Pipeline.script ((Workload.new 42).ops c.count) ∧
      ∃ b, E.run core.book ((Workload.new 42).ops c.count) = some b ∧
        E.stats b = some rep.stats

theorem returns_of_scheduled (hD : D.Ordered pending) (hA : D.Alive pending claimed)
    (hring : pending ring = []) (hun : ¬c.interval > 0) {core : CoreHandler σ H}
    (hreport : core.report = none) (hserves : Serves E core.book c) {sched : ℕ → Turn}
    (h : Scheduled sched) : Returns E R D c origin ring core sched := by
  have hstart : Inv E pending c core.book (start origin ring core) ∧
      Claimed claimed (start origin ring core) :=
    ⟨inv_start E c origin hring hreport, by simp [Claimed, start]⟩
  refine ((helpful hD hA hun hserves).eventually hstart h).mono ?_
  intro turns s hrun hsome
  have hinv := inv_run hD hring hreport hrun
  obtain ⟨rep, hrep⟩ := Option.isSome_iff_exists.mp hsome
  exact ⟨rep, hrep, hinv.delivered hrep⟩

/-- **Every fair schedule ends** in throughput mode, on both engines, with the report of the
sequential run. -/
theorem reports_if_fair (hD : D.Ordered pending) (hA : D.Alive pending claimed)
    (hring : pending ring = []) (R : Hdr H) (hrate : c.rate ≤ 0) (origin : Int64) (hist : H)
    {sched : ℕ → Turn} (h : Scheduled sched) :
    Returns Book.engine R D c origin ring { book := {}, hist } sched ∧
      (0 ≤ c.totalOps.toInt → c.totalOps.toInt + 2 < 2 ^ 30 → ∃ b₀,
        TunedBook.new c.totalOps = some b₀ ∧
          Returns TunedBook.engine R D c origin ring { book := b₀, hist } sched) := by
  have hun := Params.interval_of_rate hrate
  refine ⟨returns_of_scheduled hD hA hring hun rfl (serves_book c) h, fun h0 hlt => ?_⟩
  obtain ⟨b₀, hnew, hserves⟩ := exists_serves_tuned h0 hlt
  exact ⟨b₀, hnew, returns_of_scheduled hD hA hring hun rfl hserves h⟩

/-- The two threads take turns over a million operations. -/
theorem reports_if_fair_in_turns :
    Returns Book.engine (boundedHdr hdrTop) (.fifo ringSize) ⟨1000000, 0, 0⟩ 7 []
        { book := {}, hist := [] } (fun n => if n % 2 = 0 then .producer else .consumer) ∧
      ∃ b₀, TunedBook.new 1000000 = some b₀ ∧
        Returns TunedBook.engine (boundedHdr hdrTop) (.fifo ringSize) ⟨1000000, 0, 0⟩ 7 []
          { book := b₀, hist := [] } fun n => if n % 2 = 0 then .producer else .consumer := by
  have hsched : Scheduled fun n => if n % 2 = 0 then .producer else .consumer := by
    rintro (_ | _) n
    · exact ⟨2 * n, by omega, if_pos (by omega)⟩
    · exact ⟨2 * n + 1, by omega, if_neg (by omega)⟩
  obtain ⟨hbook, htuned⟩ := reports_if_fair (c := ⟨1000000, 0, 0⟩)
    (Disruptor.fifo_ordered ringSize) (Disruptor.fifo_alive (by decide)) rfl (boundedHdr hdrTop)
    (by decide) 7 [] hsched
  exact ⟨hbook, htuned (by decide) (by decide)⟩

end Harness
end LmaxBench.Java
