import LmaxBench.Java.HarnessRun

/-!
# The origins that suit a schedule

The producer is on schedule in every run if and only if no due time passes the largest signed
word and none after the warmup is zero, where every operation is handled before its latency is
beyond the range of the histogram, and the engine does not throw on it. Where an origin does not
suit the schedule, the run in which every operation is published when it is due and handled at once
shows it.

## Main definitions

* `Harness.Ended` — the two ways in which a run ends.
* `Harness.OnSchedule` — what is asked of a run.
* `Harness.Covers`, `Harness.Executes` — what that takes.
* `Harness.Reaches` — some turns lead from one state to another.
* `Harness.Prompt`, `Harness.exists_prompt` — the prompt run.
* `Harness.on_schedule_iff` — the origins that suit a schedule.
* `Harness.runTuned` — the harness with the tuned engine.
-/

namespace LmaxBench.Java.Harness

variable {ρ σ H : Type} {E : Engine σ} {R : Hdr H} {top : Int64} {D : Disruptor ρ}
  {pending : ρ → List Ev} {c : Params} {origin : Int64} {b₀ : σ} {s s' s₀ : Harness ρ σ H}

/-! ## On schedule -/

/-- The end of a run: all that was published is handled, or the handler throws on the event that
is next, and handles no other. -/
inductive Ended (E : Engine σ) (R : Hdr H) (D : Disruptor ρ) (pending : ρ → List Ev)
    (origin : Int64) (s : Harness ρ σ H) : Prop
  | drained (hstage : s.stage = .shutdown) (hpending : pending s.ring = [])
  | threw {e : Ev} {ring : ρ} (htake : D.take s.ring = some (e, ring))
      (hthrows : s.core.onEvent E R e (nanoTime origin s.elapsed) = none)

/-- No operation was published before it was due, by the time that has elapsed since the first
reading of the clock, and at the end of the run there is a latency for every operation after the
warmup, which is what a report says. -/
structure OnSchedule (E : Engine σ) (R : Hdr H) (D : Disruptor ρ) (pending : ρ → List Ev)
    (c : Params) (origin : Int64) (s : Harness ρ σ H) : Prop where
  not_early : ∀ {i : ℕ} {e t}, s.published[i]? = some (e, t) → i < c.totalOps.toInt →
    (i + 1 : ℕ) * c.interval.toInt ≤ t
  recorded : Ended E R D pending origin s →
    R.getTotalCount s.core.hist = c.totalOps.toInt - c.warmupOps.toInt
  reported : ∀ hist, s.core.report.map Report.hist = some hist →
    R.getTotalCount hist = c.totalOps.toInt - c.warmupOps.toInt

/-- The clock is not yet so far past the stamp of the next event that its latency is beyond the
range of the histogram. -/
def Covers (D : Disruptor ρ) (top origin : Int64) (s : Harness ρ σ H) : Prop :=
  ∀ e ring, D.take s.ring = some (e, ring) → CoreHandler.Covered top (e, nanoTime origin s.elapsed)

/-- The engine does not throw on the operation that is next. -/
def Executes (E : Engine σ) (D : Disruptor ρ) (s : Harness ρ σ H) : Prop :=
  ∀ e ring, D.take s.ring = some (e, ring) → e.kind = kindLimit ∨ e.kind = kindCancel →
    ∃ book, E.exec s.core.book e = some book

/-- An engine that throws on no operation of the workload does not throw on the next one. -/
theorem Inv.executes (hD : D.Ordered pending) (h : Inv E pending c b₀ s) (hserves : Serves E b₀ c) :
    Executes E D s := by
  intro e ring htake hkind
  rcases h.exists_exec hD hserves htake with ⟨-, hexec⟩ | ⟨hother, -⟩
  · exact hexec
  · exact absurd hkind hother

/-- In a run on schedule, the handler takes the operation that is next, if any latency is to be
recorded. -/
theorem Timed.exists_onEvent (hD : D.Ordered pending) (h : Timed R pending c origin s)
    (h0 : 0 ≤ c.warmupOps.toInt) (hlt : c.warmupOps.toInt < c.totalOps.toInt)
    (hs : OnSchedule E R D pending c origin s) {e : Ev} {ring : ρ}
    (htake : D.take s.ring = some (e, ring)) (hkind : e.kind = kindLimit ∨ e.kind = kindCancel) :
    ∃ core, s.core.onEvent E R e (nanoTime origin s.elapsed) = some core := by
  obtain ⟨t, hdue⟩ := h.next_due (hD.take htake)
  cases hdue with
  | op hlast kind ts passed =>
    refine Option.ne_none_iff_exists'.mp ?_
    intro hthrows
    -- its latency, or a later one, is never recorded
    have hrecorded := hs.recorded (.threw htake hthrows)
    have hmissing := h.totalCount_lt h0 hlt hlast
    omega
  | report heq kind ts => exact absurd kind (ne_kindReport hkind)

/-- **What is recorded by the end**, if the handler has taken every operation: a latency for each
one after the warmup. -/
theorem Timed.recorded_of_ended (hR : R.FixedRange top) (hD : D.Ordered pending)
    (h : Timed R pending c origin s) (h0 : 0 ≤ c.warmupOps.toInt)
    (hle : c.warmupOps.toInt ≤ c.totalOps.toInt) (hzero : AvoidsZero c origin)
    (hcovers : Covers D top origin s)
    (hexecutes : c.warmupOps.toInt < c.totalOps.toInt → Executes E D s)
    (hended : Ended E R D pending origin s) :
    R.getTotalCount s.core.hist = c.totalOps.toInt - c.warmupOps.toInt := by
  cases hended with
  | drained hstage hpending =>
    have hlen := h.length_handled hstage hpending
    exact (h.recorded_iff h0 hle (by omega)).mpr hzero
  | threw htake hthrows =>
    obtain ⟨t, hdue⟩ := h.next_due (hD.take htake)
    cases hdue with
    | op hlast kind ts passed =>
      rcases hle.lt_or_eq with hlt | heq
      · obtain ⟨core, hcore⟩ := (CoreHandler.exists_onEvent_iff hR s.core _ kind).mpr
          ⟨hexecutes hlt _ _ htake kind, hcovers _ _ htake⟩
        simp [hthrows] at hcore
      · -- all operations belong to the warmup
        obtain ⟨w, hw⟩ := Int.eq_ofNat_of_zero_le h0
        have hnone := h.totalCount_le hw.symm
        omega
    | report heq kind ts => exact (h.recorded_iff h0 hle heq.ge).mpr hzero

/-- **The runs that are on schedule**, from an origin that suits it. -/
theorem Timed.onSchedule_iff (hR : R.FixedRange top) (hD : D.Ordered pending)
    (h : Timed R pending c origin s) (h0 : 0 ≤ c.warmupOps.toInt)
    (hle : c.warmupOps.toInt ≤ c.totalOps.toInt) (hend : EndsInTime c origin)
    (hzero : AvoidsZero c origin) :
    OnSchedule E R D pending c origin s ↔
      Covers D top origin s ∧ (c.warmupOps.toInt < c.totalOps.toInt → Executes E D s) := by
  constructor
  · intro hs
    refine ⟨fun e ring htake hts hkind => ?_, fun hlt e ring htake hkind => ?_⟩
    · obtain ⟨t, hdue⟩ := h.next_due (hD.take htake)
      cases hdue with
      | op hlast kind ts passed =>
        have hmeasured := of_stamp_ne_zero (ts ▸ hts)
        have htaken := h.exists_onEvent hD h0 (by omega) hs htake hkind
        exact ((CoreHandler.exists_onEvent_iff hR s.core _ hkind).mp htaken).2 hts hkind
      | report heq kind ts => exact absurd ts hts
    · have htaken := h.exists_onEvent hD h0 hlt hs htake hkind
      exact ((CoreHandler.exists_onEvent_iff hR s.core _ hkind).mp htaken).1
  · rintro ⟨hcovers, hexecutes⟩
    exact ⟨h.not_early hend, h.recorded_of_ended hR hD h0 hle hzero hcovers hexecutes,
      fun hist hhist => (h.reported_iff h0 hle hhist).mpr hzero⟩

/-! ## Reachable states -/

/-- Some turns lead from one state to another. -/
def Reaches (E : Engine σ) (R : Hdr H) (D : Disruptor ρ) (c : Params) (origin : Int64)
    (s s' : Harness ρ σ H) : Prop :=
  ∃ turns : List Turn, turns.foldlM (step E R D c origin) s = some s'

theorem Reaches.refl (s : Harness ρ σ H) : Reaches E R D c origin s s := ⟨[], rfl⟩

theorem Reaches.turn {s₁ : Harness ρ σ H} (h : Reaches E R D c origin s s₁) (turn : Turn)
    (hstep : s₁.step E R D c origin turn = some s') : Reaches E R D c origin s s' := by
  obtain ⟨turns, hturns⟩ := h
  exact ⟨turns ++ [turn], by simp [List.foldlM_append, hturns, hstep]⟩

theorem Reaches.wait (h : Reaches E R D c origin s₀ s) (d : ℕ) :
    Reaches E R D c origin s₀ { s with elapsed := s.elapsed + d } :=
  h.turn (.tick d) rfl

theorem Reaches.draw (h : Reaches E R D c origin s₀ s)
    (hstage : s.stage = .next) (hlt : s.i < c.totalOps) (hinterval : c.interval > 0) :
    ∃ wl : Workload, wl = s.wl.nextOp ∧
      Reaches E R D c origin s₀
        { s with wl, nextDue := s.nextDue + c.interval, stage := .pace } := by
  refine ⟨s.wl.nextOp, rfl, h.turn .producer ?_⟩
  simp [step, producerStep, hstage, hlt, hinterval]

theorem Reaches.pace (h : Reaches E R D c origin s₀ s)
    (hstage : s.stage = .pace) (hdue : ¬nanoTime origin s.elapsed < s.nextDue) :
    ∃ ts, (ts = s.nextDue ∨ ts = 0) ∧
      Reaches E R D c origin s₀ { s with stage := .claim (s.wl.event ts) } := by
  refine ⟨if s.i ≥ c.warmupOps then s.nextDue else 0, ite_eq_or_eq _ _ _,
    h.turn .producer ?_⟩
  simp [step, producerStep, hstage, hdue]

theorem Reaches.close (h : Reaches E R D c origin s₀ s)
    (hstage : s.stage = .next) (hge : ¬s.i < c.totalOps) :
    Reaches E R D c origin s₀ { s with stage := .claim reportEvent } := by
  refine h.turn .producer ?_
  simp [step, producerStep, hstage, hge]

/-- A turn claims a slot, where the ring is empty. -/
theorem Reaches.claim (hD : D.Ordered pending) (hL : D.Live pending) {s₀ : Harness ρ σ H}
    (h : Reaches E R D c origin s₀ s) {e : Ev} (hstage : s.stage = .claim e)
    (hring : pending s.ring = []) :
    ∃ ring ring', D.publish ring e = some ring' ∧ pending ring' = [e] ∧
      Reaches E R D c origin s₀ { s with ring, stage := .publish e } := by
  obtain ⟨r, hr⟩ := hL.next hring
  obtain ⟨r', hr'⟩ := hL.publish hr e
  refine ⟨r, r', hr', ?_, h.turn .producer ?_⟩
  · rw [hD.publish hr', hD.next hr, hring]
    rfl
  · simp [step, producerStep, hstage, hr]

theorem Reaches.sendOp (hD : D.Ordered pending) (hL : D.Live pending) {s₀ : Harness ρ σ H}
    (h : Reaches E R D c origin s₀ s) {e : Ev} (hop : e.kind ≠ kindReport)
    (hstage : s.stage = .claim e) (hring : pending s.ring = []) :
    ∃ ring, pending ring = [e] ∧ Reaches E R D c origin s₀
      { s with ring, published := s.published ++ [(e, s.elapsed)], i := s.i + 1,
               stage := .next } := by
  obtain ⟨r, r', hr', hpending, hclaim⟩ := h.claim hD hL hstage hring
  refine ⟨r', hpending, hclaim.turn .producer ?_⟩
  simp [step, producerStep, hr', hop]

theorem Reaches.sendReport (hD : D.Ordered pending) (hL : D.Live pending) {s₀ : Harness ρ σ H}
    (h : Reaches E R D c origin s₀ s) (hstage : s.stage = .claim reportEvent)
    (hring : pending s.ring = []) :
    ∃ ring, pending ring = [reportEvent] ∧ Reaches E R D c origin s₀
      { s with ring, published := s.published ++ [(reportEvent, s.elapsed)],
               stage := .shutdown } := by
  have hreport : reportEvent.kind = kindReport := rfl
  obtain ⟨r, r', hr', hpending, hclaim⟩ := h.claim hD hL hstage hring
  refine ⟨r', hpending, hclaim.turn .producer ?_⟩
  simp [step, producerStep, hr', hreport]

/-- A turn hands the event over, and the handler takes it if its latency is covered. -/
theorem Reaches.handle (hR : R.FixedRange top) (hD : D.Ordered pending) (hL : D.Live pending)
    (hserves : Serves E b₀ c) (hinv : Inv E pending c b₀ s) (h : Reaches E R D c origin s₀ s)
    {e : Ev} (hring : pending s.ring = [e])
    (hcovered : CoreHandler.Covered top (e, nanoTime origin s.elapsed)) :
    ∃ ring core, s.core.onEvent E R e (nanoTime origin s.elapsed) = some core ∧
      pending ring = [] ∧
      Reaches E R D c origin s₀ { s with ring, core, handled := s.handled ++ [e] } := by
  obtain ⟨e', r, hr⟩ := hL.take (r := s.ring) (by simp [hring])
  have hpending := hD.take hr
  rw [hring] at hpending
  obtain ⟨rfl, hempty⟩ := List.cons.inj hpending
  obtain ⟨core, hcore⟩ := (hinv.exists_onEvent_iff hR hD hserves hr _).mpr hcovered
  refine ⟨r, core, hcore, hempty.symm, h.turn .consumer ?_⟩
  simp [step, consumerStep, hr, hcore]

/-! ## The prompt run -/

/-- A state in which every operation so far was published when it was due, and handled at
once. -/
structure Prompt (pending : ρ → List Ev) (c : Params) (origin : Int64) (n : ℕ)
    (s : Harness ρ σ H) : Prop where
  stage : s.stage = .next
  i : s.i.toInt = n
  length : s.published.length = n
  elapsed : s.elapsed = n * c.interval.toInt
  nextDue : s.nextDue = origin + Int64.ofNat n * c.interval
  ring : pending s.ring = []

/-- The clock reads the due time when it has come, wrapped around or not. -/
theorem nanoTime_eq {n elapsed : ℕ} (h : elapsed = n * c.interval.toInt) :
    nanoTime origin elapsed = origin + Int64.ofNat n * c.interval := by
  have hword : Int64.ofNat elapsed = Int64.ofInt (n * c.interval.toInt) := by
    rw [← h, Int64.ofInt_eq_ofNat]
  rw [nanoTime, hword, Int64.ofInt_mul, Int64.ofInt_eq_ofNat, Int64.ofInt_toInt]

/-- The next operation is drawn. -/
theorem Prompt.draw (hpos : 0 < c.interval.toInt) {n : ℕ} (hreach : Reaches E R D c origin s₀ s)
    (h : Prompt pending c origin n s) (hn : n < c.totalOps.toInt) :
    ∃ wl : Workload, (wl.kind = kindLimit ∨ wl.kind = kindCancel) ∧
      Reaches E R D c origin s₀ { s with wl, nextDue := dueTime c origin n, stage := .pace } := by
  have hlt : s.i < c.totalOps := by
    rw [Int64.lt_iff_toInt_lt, h.i]
    exact hn
  obtain ⟨wl, hwl, hdraw⟩ := hreach.draw h.stage hlt (Int64.lt_iff_toInt_lt.mpr hpos)
  rw [h.nextDue, ← dueTime_eq] at hdraw
  refine ⟨wl, ?_, hdraw⟩
  rw [hwl]
  exact kind_nextOp s.wl

/-- And sent as soon as the clock permits, with its due time for a stamp, or none. -/
theorem Prompt.send (hpos : 0 < c.interval.toInt) (hD : D.Ordered pending) (hL : D.Live pending)
    {n : ℕ} (hreach : Reaches E R D c origin s₀ s) (h : Prompt pending c origin n s)
    (hn : n < c.totalOps.toInt) {d : ℕ}
    (hexit : ¬nanoTime origin (s.elapsed + d) < dueTime c origin n) :
    ∃ (wl : Workload) (ts : Int64) (ring : ρ), (ts = dueTime c origin n ∨ ts = 0) ∧
      pending ring = [wl.event ts] ∧ Reaches E R D c origin s₀
        { s with elapsed := s.elapsed + d, wl, ring, nextDue := dueTime c origin n,
                 published := s.published ++ [(wl.event ts, s.elapsed + d)], i := s.i + 1 } := by
  obtain ⟨wl, hkind, hdraw⟩ := h.draw hpos hreach hn
  obtain ⟨ts, hts, hclaim⟩ := (hdraw.wait d).pace rfl hexit
  obtain ⟨ring, hring, hsent⟩ := hclaim.sendOp hD hL (ne_kindReport hkind) rfl h.ring
  refine ⟨wl, ts, ring, hts, hring, ?_⟩
  rw [← h.stage] at hsent
  exact hsent

/-- One more operation, when it is due. -/
theorem Prompt.succ (hpos : 0 < c.interval.toInt) (hR : R.FixedRange top)
    (hD : D.Ordered pending) (hL : D.Live pending) (hserves : Serves E b₀ c)
    (hinv : ∀ s, Reaches E R D c origin s₀ s → Inv E pending c b₀ s) {n : ℕ}
    (hreach : Reaches E R D c origin s₀ s) (h : Prompt pending c origin n s)
    (hn : n < c.totalOps.toInt) :
    ∃ s', Reaches E R D c origin s₀ s' ∧ Prompt pending c origin (n + 1) s' := by
  have helapsed : (s.elapsed + c.interval.toInt.toNat : ℕ) = (n + 1 : ℕ) * c.interval.toInt := by
    have hadd : ((n + 1 : ℕ) : ℤ) * c.interval.toInt = n * c.interval.toInt + c.interval.toInt := by
      push_cast
      rw [Int.add_mul, Int.one_mul]
    rw [hadd, ← h.elapsed]
    omega
  have hnow : nanoTime origin (s.elapsed + c.interval.toInt.toNat) = dueTime c origin n :=
    nanoTime_eq helapsed
  have hexit : ¬nanoTime origin (s.elapsed + c.interval.toInt.toNat) < dueTime c origin n := by
    rw [hnow]
    exact Int64.lt_irrefl
  obtain ⟨wl, ts, r, hts, hr, hsent⟩ := h.send hpos hD hL hreach hn hexit
  -- the latency is zero
  have hcovered : CoreHandler.Covered top
      (wl.event ts, nanoTime origin (s.elapsed + c.interval.toInt.toNat)) := by
    rintro hne -
    have hdue : (wl.event ts).ts = dueTime c origin n := hts.resolve_right hne
    rw [hdue, hnow, Int64.sub_self]
    exact Int64.le_trans (by decide) hR.highest
  obtain ⟨r', core, -, hr', hhandled⟩ :=
    hsent.handle hR hD hL hserves (hinv _ hsent) hr hcovered
  refine ⟨_, hhandled, h.stage, ?_, ?_, helapsed, rfl, hr'⟩
  · show (s.i + 1).toInt = _
    rw [Word.toInt_add_one_of_lt (h.i ▸ hn), h.i]
    push_cast
    rfl
  · show (s.published ++ [_]).length = n + 1
    rw [List.length_append, List.length_singleton, h.length]

theorem exists_prompt (hpos : 0 < c.interval.toInt) (hR : R.FixedRange top)
    (hD : D.Ordered pending) (hL : D.Live pending) (hserves : Serves E b₀ c) {ring : ρ}
    {core : CoreHandler σ H} (hring : pending ring = [])
    (hinv : ∀ s, Reaches E R D c origin (start origin ring core) s → Inv E pending c b₀ s) {n : ℕ}
    (hn : n ≤ c.totalOps.toInt) :
    ∃ s, Reaches E R D c origin (start origin ring core) s ∧ Prompt pending c origin n s := by
  induction n with
  | zero =>
    have hzero : Int64.ofNat 0 = 0 := rfl
    refine ⟨start origin ring core, .refl _, rfl, rfl, rfl, ?_, ?_, hring⟩
    · simp [start]
    · simp [start, hzero]
  | succ n ih =>
    obtain ⟨s, hreach, h⟩ := ih (by omega)
    exact h.succ hpos hR hD hL hserves hinv hreach (by omega)

/-! ## The origins that do not suit a schedule -/

/-- An operation whose due time has wrapped around is published at once, and its latency is
covered. -/
theorem Prompt.early (hpos : 0 < c.interval.toInt) (hR : R.FixedRange top)
    (hD : D.Ordered pending) (hL : D.Live pending) {n : ℕ}
    (hreach : Reaches E R D c origin s₀ s) (h : Prompt pending c origin n s)
    (hn : n < c.totalOps.toInt) (hexit : ¬nanoTime origin s.elapsed < dueTime c origin n) :
    ∃ s' e, Reaches E R D c origin s₀ s' ∧ Covers D top origin s' ∧
      s'.published[n]? = some (e, s.elapsed) := by
  obtain ⟨wl, ts, ring, hts, hring, hsent⟩ := h.send hpos hD hL hreach hn (d := 0) hexit
  refine ⟨_, wl.event ts, hsent, ?_, ?_⟩
  · rintro e ring' htake
    have hpending := hD.take htake
    dsimp only at hpending ⊢
    rw [hring] at hpending
    obtain ⟨rfl, -⟩ := List.cons.inj hpending
    rintro hne -
    have hdue : (wl.event ts).ts = dueTime c origin n := hts.resolve_right hne
    have hnow : nanoTime origin (s.elapsed + 0) = origin + Int64.ofNat n * c.interval :=
      nanoTime_eq h.elapsed
    rw [hdue, hnow, sub_dueTime]
    exact Int64.le_trans (Word.neg_le_zero hpos.le) (Int64.le_trans (by decide) hR.highest)
  · show (s.published ++ [_])[n]? = _
    rw [← h.length, List.getElem?_append_right le_rfl, Nat.sub_self]
    rfl

/-- After the last operation comes the report. -/
theorem Prompt.report_handled (hR : R.FixedRange top) (hD : D.Ordered pending)
    (hL : D.Live pending) (hserves : Serves E b₀ c)
    (hinv : ∀ s, Reaches E R D c origin s₀ s → Inv E pending c b₀ s) {n : ℕ}
    (hreach : Reaches E R D c origin s₀ s) (h : Prompt pending c origin n s)
    (hn : c.totalOps.toInt = n) :
    ∃ s' hist, Reaches E R D c origin s₀ s' ∧ pending s'.ring = [] ∧
      s'.core.report.map Report.hist = some hist := by
  have hge : ¬s.i < c.totalOps := by
    rw [Int64.lt_iff_toInt_lt, h.i, hn]
    exact lt_irrefl _
  obtain ⟨r, hr, hsent⟩ := (hreach.close h.stage hge).sendReport hD hL rfl h.ring
  obtain ⟨r', core, hcore, hr', hhandled⟩ :=
    hsent.handle hR hD hL hserves (hinv _ hsent) hr fun hts => absurd rfl hts
  exact ⟨_, s.core.hist, hhandled, hr',
    (CoreHandler.onEvent_of_report (e := reportEvent) rfl hcore).2⟩

/-- The first due time that wraps around compares as long gone. -/
theorem exists_early (hpos : 0 < c.interval.toInt) (hlate : ¬EndsInTime c origin) :
    ∃ n : ℕ, n < c.totalOps.toInt ∧ ∀ elapsed : ℕ, elapsed = n * c.interval.toInt →
      ¬nanoTime origin elapsed < dueTime c origin n := by
  have horigin := origin.toInt_lt
  have hinterval := c.interval.toInt_lt
  have hlow := origin.le_toInt
  rw [EndsInTime, not_lt] at hlate
  have hex : ∃ n : ℕ, 2 ^ 63 ≤ origin.toInt + (n + 1 : ℕ) * c.interval.toInt := by
    refine ⟨c.totalOps.toInt.toNat, hlate.trans ?_⟩
    exact Int.add_le_add_left (Int.mul_le_mul_of_nonneg_right (by omega) hpos.le) _
  refine ⟨Nat.find hex, ?_, fun elapsed helapsed => ?_⟩
  · have htotal : 0 < c.totalOps.toInt := by
      by_contra hneg
      have hle : c.totalOps.toInt * c.interval.toInt ≤ 0 :=
        Int.mul_nonpos_of_nonpos_of_nonneg (by omega) hpos.le
      omega
    have hlast : Nat.find hex ≤ c.totalOps.toInt.toNat - 1 := by
      refine Nat.find_min' hex ?_
      have hcast : ((c.totalOps.toInt.toNat - 1 + 1 : ℕ) : ℤ) = c.totalOps.toInt := by omega
      rw [hcast]
      exact hlate
    omega
  · have hlate' := Nat.find_spec hex
    have hnow : origin.toInt + Nat.find hex * c.interval.toInt < 2 ^ 63 := by
      rcases hn : Nat.find hex with _ | m
      · simpa using horigin
      · exact not_le.mp (Nat.find_min hex (m := m) (by omega))
    generalize Nat.find hex = n at helapsed hlate' hnow
    have hnonneg : 0 ≤ (n : ℤ) * c.interval.toInt :=
      Int.mul_nonneg (Int.natCast_nonneg n) hpos.le
    have hsucc : ((n + 1 : ℕ) : ℤ) * c.interval.toInt =
        n * c.interval.toInt + c.interval.toInt := by
      push_cast
      rw [Int.add_mul, Int.one_mul]
    rw [Int64.lt_iff_toInt_lt, nanoTime_eq helapsed, dueTime,
      Word.toInt_add_mul_of_bounds (by omega) hnow]
    have hneg := Word.toInt_add_mul_neg (x := origin) (y := c.interval) hlate' (by omega)
    omega

/-- **The two conditions are needed**: in the prompt run, a schedule that does not end in time is
not kept, and one that does not avoid zero loses a latency. -/
theorem suits_of_onSchedule (hD : D.Ordered pending) (hL : D.Live pending) (hR : R.FixedRange top)
    {ring : ρ} (hring : pending ring = []) {core : CoreHandler σ H}
    (hcount : R.getTotalCount core.hist = 0) (hreport : core.report = none)
    (hpos : 0 < c.interval.toInt) (h0 : 0 ≤ c.warmupOps.toInt)
    (hle : c.warmupOps.toInt ≤ c.totalOps.toInt) (hserves : Serves E core.book c)
    (h : ∀ turns s, run E R D c origin ring core turns = some s → Covers D top origin s →
      (c.warmupOps.toInt < c.totalOps.toInt → Executes E D s) →
      OnSchedule E R D pending c origin s) :
    EndsInTime c origin ∧ AvoidsZero c origin := by
  have hinv : ∀ s, Reaches E R D c origin (start origin ring core) s →
      Inv E pending c core.book s :=
    fun s ⟨turns, hrun⟩ => inv_run hD hring hreport hrun
  constructor
  · by_contra hlate
    obtain ⟨n, hn, hexit⟩ := exists_early hpos hlate
    obtain ⟨s, hreach, hprompt⟩ := exists_prompt hpos hR hD hL hserves hring hinv hn.le
    obtain ⟨s', e, ⟨turns, hrun⟩, hcovers, hget⟩ :=
      hprompt.early hpos hR hD hL hreach hn (hexit s.elapsed hprompt.elapsed)
    have hexecutes := (hinv s' ⟨turns, hrun⟩).executes hD hserves
    have hdue := (h turns s' hrun hcovers fun _ => hexecutes).not_early hget hn
    rw [hprompt.elapsed] at hdue
    have hlt : (n : ℤ) * c.interval.toInt < (n + 1 : ℕ) * c.interval.toInt :=
      Int.mul_lt_mul_of_pos_right (by omega) hpos
    omega
  · obtain ⟨n, hn⟩ := Int.eq_ofNat_of_zero_le (h0.trans hle)
    obtain ⟨s, hreach, hprompt⟩ := exists_prompt hpos hR hD hL hserves hring hinv hn.ge
    obtain ⟨s', hist, ⟨turns, hrun⟩, hpending, hhist⟩ :=
      hprompt.report_handled hR hD hL hserves hinv hreach hn
    have hcovers : Covers D top origin s' := by
      rintro e ring' htake
      simp [hD.take htake] at hpending
    have hexecutes := (hinv s' ⟨turns, hrun⟩).executes hD hserves
    have htimed := timed_run hpos (h0.trans hle) hD hR hring hcount hreport hrun
    exact (htimed.reported_iff h0 hle hhist).mp
      ((h turns s' hrun hcovers fun _ => hexecutes).reported hist hhist)

/-- `Harness.run` with the tuned engine. -/
def runTuned (c : Params) (origin : Int64) (turns : List Turn) :
    Option (Harness (List Ev) TunedBook (List Int64)) := do
  let book ← TunedBook.new c.totalOps
  run TunedBook.engine (boundedHdr hdrTop) (.fifo ringSize) c origin []
    { book, hist := [] } turns

/-- Where the engine throws on nothing, the two conditions say whether a latency beyond the range
is all that can go wrong. -/
theorem onSchedule_iff_suits (hD : D.Ordered pending) (hL : D.Live pending)
    (hR : R.FixedRange top) {ring : ρ} (hring : pending ring = []) {core : CoreHandler σ H}
    (hcount : R.getTotalCount core.hist = 0) (hreport : core.report = none)
    (hserves : Serves E core.book c) (hrate : 1 ≤ c.rate.toInt) (hrate' : c.rate.toInt ≤ 1000000000)
    (h0 : 0 ≤ c.warmupOps.toInt) (hle : c.warmupOps.toInt ≤ c.totalOps.toInt) :
    (∀ turns s, run E R D c origin ring core turns = some s →
      (OnSchedule E R D pending c origin s ↔ Covers D top origin s)) ↔
        EndsInTime c origin ∧ AvoidsZero c origin := by
  have hpos := Params.interval_pos hrate hrate'
  constructor
  · intro h
    exact suits_of_onSchedule hD hL hR hring hcount hreport hpos h0 hle hserves
      fun turns s hrun hcovers _ => (h turns s hrun).mpr hcovers
  · rintro ⟨hend, hzero⟩ turns s hrun
    have htimed := timed_run hpos (h0.trans hle) hD hR hring hcount hreport hrun
    rw [htimed.onSchedule_iff hR hD h0 hle hend hzero]
    exact and_iff_left fun _ => (inv_run hD hring hreport hrun).executes hD hserves

/-- **The tuned engine** throws on no workload of fewer than `2 ^ 30` operations, and so the
origins that suit it are those of the schedule. -/
theorem runTuned_onSchedule_iff (c : Params) (hrate : 1 ≤ c.rate.toInt)
    (hrate' : c.rate.toInt ≤ 1000000000) (h0 : 0 ≤ c.warmupOps.toInt)
    (hle : c.warmupOps.toInt ≤ c.totalOps.toInt) (hshort : c.totalOps.toInt + 2 < 2 ^ 30)
    (origin : Int64) :
    (∀ turns s, runTuned c origin turns = some s →
      (OnSchedule TunedBook.engine (boundedHdr hdrTop) (.fifo ringSize) id c origin s ↔
        Covers (.fifo ringSize) hdrTop origin s)) ↔
      EndsInTime c origin ∧ AvoidsZero c origin := by
  have hD := Disruptor.fifo_ordered ringSize
  have hL := (Disruptor.fifo_alive ringSize_pos).live
  have hR : (boundedHdr hdrTop).FixedRange hdrTop := boundedHdr_fixedRange (by decide)
  obtain ⟨b, hb, hserves⟩ := exists_serves_tuned (h0.trans hle) hshort
  simp only [runTuned, hb, Option.bind_eq_bind, Option.bind_some]
  exact onSchedule_iff_suits hD hL hR rfl rfl rfl hserves hrate hrate' h0 hle

/-- **The idiomatic engine** throws on no workload. -/
theorem book_onSchedule_iff (c : Params) (hrate : 1 ≤ c.rate.toInt)
    (hrate' : c.rate.toInt ≤ 1000000000) (h0 : 0 ≤ c.warmupOps.toInt)
    (hle : c.warmupOps.toInt ≤ c.totalOps.toInt) (origin : Int64) :
    (∀ turns s, run Book.engine (boundedHdr hdrTop) (.fifo ringSize) c origin []
        { book := {}, hist := [] } turns = some s →
      (OnSchedule Book.engine (boundedHdr hdrTop) (.fifo ringSize) id c origin s ↔
        Covers (.fifo ringSize) hdrTop origin s)) ↔
      EndsInTime c origin ∧ AvoidsZero c origin :=
  onSchedule_iff_suits (Disruptor.fifo_ordered ringSize)
    (Disruptor.fifo_alive ringSize_pos).live (boundedHdr_fixedRange (by decide))
    rfl rfl rfl (serves_book c) hrate hrate' h0 hle

end LmaxBench.Java.Harness
