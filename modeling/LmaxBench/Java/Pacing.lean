import LmaxBench.Java.Harness
import LmaxBench.Lib.Window

/-!
# Pacing by a clock that wraps around

Due times are readings of a clock whose origin is arbitrary, and the producer compares them as
signed words. Up to the largest signed word, an operation is published no earlier than it is
due; a due time that has passed it compares as long gone. The stamp of an operation is its due
time, unless that is zero, which is the stamp of an operation that is not measured.

## Main definitions

* `Harness.dueTime`, `Harness.stamp` — the schedule, by the index of the operation.
* `Harness.EndsInTime`, `Harness.AvoidsZero` — the origins that suit a schedule.
* `Harness.Paced`, `Harness.Timed`, `Harness.timed_run` — the invariant.
* `Harness.Timed.recorded_iff`, `Harness.Timed.not_early` — what such an origin guarantees.
-/

namespace LmaxBench.Java

namespace CoreHandler

variable {σ H : Type} {E : Engine σ} {R : Hdr H} {top : Int64} {c c' : CoreHandler σ H} {e : Ev}
  {now : Int64}

/-- An operation is counted if it is stamped. -/
theorem onEvent_of_op (hR : R.FixedRange top) (hkind : e.kind = kindLimit ∨ e.kind = kindCancel)
    (h : c.onEvent E R e now = some c') :
    c'.report = c.report ∧
      R.getTotalCount c'.hist = R.getTotalCount c.hist + if e.ts ≠ 0 then 1 else 0 := by
  rw [onEvent_op c now hkind] at h
  obtain ⟨book, -, h⟩ := Option.bind_eq_some_iff.mp h
  rw [measure] at h
  split at h
  case isTrue hts =>
    obtain ⟨hist, hrecord, heq⟩ := Option.bind_eq_some_iff.mp h
    obtain rfl := Option.some.inj heq
    exact ⟨rfl, by rw [if_pos hts, hR.count _ _ _ hrecord]⟩
  case isFalse hts =>
    obtain rfl := Option.some.inj h
    exact ⟨rfl, by rw [if_neg hts, Nat.add_zero]⟩

/-- The report comes with the histogram as it is. -/
theorem onEvent_of_report (hkind : e.kind = kindReport) (h : c.onEvent E R e now = some c') :
    c'.hist = c.hist ∧ c'.report.map Report.hist = some c.hist := by
  have hother : ¬(e.kind = kindLimit ∨ e.kind = kindCancel) := by
    rw [hkind]
    decide
  rw [onEvent_other c now hother] at h
  obtain ⟨checksum, -, h⟩ := Option.bind_eq_some_iff.mp h
  obtain rfl := Option.some.inj h
  exact ⟨rfl, rfl⟩

end CoreHandler

theorem Params.toInt_interval {c : Params} (hrate : 1 ≤ c.rate.toInt) :
    c.interval.toInt = 1000000000 / c.rate.toInt := by
  have hpos : c.rate > 0 := Int64.lt_iff_toInt_lt.mpr hrate
  have hconst : (1000000000 : Int64).toInt = 1000000000 := by decide
  have hneg : c.rate ≠ -1 := by
    rintro heq
    rw [heq] at hrate
    exact absurd hrate (by decide)
  rw [Params.interval, if_pos hpos, Int64.toInt_div_of_ne_right _ _ hneg, hconst,
    Int.tdiv_eq_ediv_of_nonneg (by decide)]

theorem Params.interval_pos {c : Params} (hrate : 1 ≤ c.rate.toInt)
    (hrate' : c.rate.toInt ≤ 1000000000) : 0 < c.interval.toInt := by
  rw [Params.toInt_interval hrate]
  exact Int.le_ediv_of_mul_le (by omega) (by omega)

namespace Harness

variable {ρ σ H : Type} {E : Engine σ} {R : Hdr H} {top : Int64} {D : Disruptor ρ}
  {pending : ρ → List Ev} {c : Params} {origin : Int64} {s s' : Harness ρ σ H}

/-! ## The schedule -/

/-- The reading of the clock at which the operation `i` is due. -/
def dueTime (c : Params) (origin : Int64) (i : ℕ) : Int64 :=
  origin + Int64.ofNat (i + 1) * c.interval

/-- The stamp of the event number `i`: its due time, or zero for an event that is not
measured. -/
def stamp (c : Params) (origin : Int64) (i : ℕ) : Int64 :=
  if c.warmupOps.toInt ≤ i ∧ i < c.totalOps.toInt then dueTime c origin i else 0

/-- What is not an operation bears no stamp. -/
theorem stamp_of_le {i : ℕ} (h : c.totalOps.toInt ≤ i) : stamp c origin i = 0 :=
  if_neg fun hi => h.not_gt hi.2

/-- An operation with a stamp comes after the warmup. -/
theorem of_stamp_ne_zero {i : ℕ} (h : stamp c origin i ≠ 0) :
    c.warmupOps.toInt ≤ i ∧ i < c.totalOps.toInt :=
  (ite_ne_right_iff.mp h).1

/-- No due time is beyond the largest signed word. -/
def EndsInTime (c : Params) (origin : Int64) : Prop :=
  origin.toInt + c.totalOps.toInt * c.interval.toInt < 2 ^ 63

/-- No operation after the warmup is due at the reading zero. -/
def AvoidsZero (c : Params) (origin : Int64) : Prop :=
  ∀ i : ℕ, c.warmupOps.toInt ≤ i → i < c.totalOps.toInt → dueTime c origin i ≠ 0

theorem dueTime_eq (n : ℕ) :
    dueTime c origin n = origin + Int64.ofNat n * c.interval + c.interval := by
  rw [dueTime, Int64.ofNat_add, Int64.add_mul, Int64.add_assoc]
  congr 2
  exact Int64.one_mul _

/-- An operation that is published one interval early has a negative latency. -/
@[simp] theorem sub_dueTime (n : ℕ) :
    origin + Int64.ofNat n * c.interval - dueTime c origin n = -c.interval := by
  rw [dueTime_eq]
  grind

/-- A schedule that ends in time does not wrap around. -/
theorem EndsInTime.toInt_dueTime (h : EndsInTime c origin) (hpos : 0 < c.interval.toInt) {n : ℕ}
    (hn : n < c.totalOps.toInt) :
    (dueTime c origin n).toInt = origin.toInt + (n + 1 : ℕ) * c.interval.toInt := by
  have hlow := origin.le_toInt
  have hle : ((n + 1 : ℕ) : ℤ) * c.interval.toInt ≤ c.totalOps.toInt * c.interval.toInt :=
    Int.mul_le_mul_of_nonneg_right (by omega) (Int.le_of_lt hpos)
  have hnonneg : 0 ≤ ((n + 1 : ℕ) : ℤ) * c.interval.toInt :=
    Int.mul_nonneg (Int.natCast_nonneg (n + 1)) (Int.le_of_lt hpos)
  rw [EndsInTime] at h
  exact Word.toInt_add_mul_of_bounds (by omega) (by omega)

/-- **The wait ends when the time has come**, on a schedule that ends in time. -/
theorem EndsInTime.le_of_not_lt (h : EndsInTime c origin) (hpos : 0 < c.interval.toInt) {n : ℕ}
    (hn : n < c.totalOps.toInt) {elapsed : ℕ}
    (hexit : ¬nanoTime origin elapsed < dueTime c origin n) :
    (n + 1 : ℕ) * c.interval.toInt ≤ elapsed := by
  have hle : ((n + 1 : ℕ) : ℤ) * c.interval.toInt ≤ c.totalOps.toInt * c.interval.toInt :=
    Int.mul_le_mul_of_nonneg_right (by omega) (Int.le_of_lt hpos)
  by_contra hearly
  rw [Int64.lt_iff_toInt_lt, h.toInt_dueTime hpos hn, nanoTime] at hexit
  rw [EndsInTime] at h
  rw [Word.toInt_add_ofNat_of_bounds (by omega)] at hexit
  omega

/-! ## The producer -/

/-- The event number `n` may be published when `t` has elapsed. -/
inductive Due (c : Params) (origin : Int64) (n : ℕ) (e : Ev) (t : ℕ) : Prop
  | op (hlt : n < c.totalOps.toInt) (kind : e.kind = kindLimit ∨ e.kind = kindCancel)
      (ts : e.ts = stamp c origin n)
      (passed : EndsInTime c origin → (n + 1 : ℕ) * c.interval.toInt ≤ t)
  | report (heq : n = c.totalOps.toInt) (kind : e.kind = kindReport) (ts : e.ts = 0)

theorem Due.mono {n t t' : ℕ} {e : Ev} (h : Due c origin n e t) (ht : t ≤ t') :
    Due c origin n e t' := by
  cases h with
  | op hlt kind ts passed => exact .op hlt kind ts fun hend => (passed hend).trans (by omega)
  | report heq kind ts => exact .report heq kind ts

/-- Where the producer is against its schedule, with `n` events published. -/
inductive Paced (c : Params) (origin : Int64) (elapsed n : ℕ) (i nextDue : Int64) (wl : Workload) :
    Stage → Prop
  | next (hi : i.toInt = n) (hle : n ≤ c.totalOps.toInt)
      (due : nextDue = origin + Int64.ofNat n * c.interval) :
      Paced c origin elapsed n i nextDue wl .next
  | pace (hi : i.toInt = n) (hlt : n < c.totalOps.toInt) (due : nextDue = dueTime c origin n)
      (kind : wl.kind = kindLimit ∨ wl.kind = kindCancel) :
      Paced c origin elapsed n i nextDue wl .pace
  | claim {e : Ev} (h : Due c origin n e elapsed)
      (hnext : e.kind ≠ kindReport → i.toInt = n ∧ nextDue = dueTime c origin n) :
      Paced c origin elapsed n i nextDue wl (.claim e)
  | publish {e : Ev} (h : Due c origin n e elapsed)
      (hnext : e.kind ≠ kindReport → i.toInt = n ∧ nextDue = dueTime c origin n) :
      Paced c origin elapsed n i nextDue wl (.publish e)
  | shutdown (hn : n = c.totalOps.toInt + 1) : Paced c origin elapsed n i nextDue wl .shutdown

theorem Paced.mono {elapsed elapsed' n : ℕ} {i nextDue : Int64} {wl : Workload} {stage : Stage}
    (h : Paced c origin elapsed n i nextDue wl stage) (hle : elapsed ≤ elapsed') :
    Paced c origin elapsed' n i nextDue wl stage := by
  cases h with
  | next hi hle' due => exact .next hi hle' due
  | pace hi hlt due kind => exact .pace hi hlt due kind
  | claim h hnext => exact .claim (h.mono hle) hnext
  | publish h hnext => exact .publish (h.mono hle) hnext
  | shutdown hn => exact .shutdown hn

theorem ne_kindReport {k : Int8} (h : k = kindLimit ∨ k = kindCancel) : k ≠ kindReport := by
  rcases h with rfl | rfl
  · decide
  · decide

theorem kind_nextOp (wl : Workload) : wl.nextOp.kind = kindLimit ∨ wl.nextOp.kind = kindCancel := by
  simp only [Workload.nextOp]
  split
  · exact Or.inl rfl
  · exact Or.inr rfl

/-- **One step of the producer, on its schedule.** -/
theorem producerStep_paced (hpos : 0 < c.interval.toInt)
    (h : Paced c origin s.elapsed s.published.length s.i s.nextDue s.wl s.stage)
    (hstep : s.producerStep D c origin = some s') :
    Paced c origin s'.elapsed s'.published.length s'.i s'.nextDue s'.wl s'.stage ∧
      (s'.published = s.published ∨
        ∃ e, s'.published = s.published ++ [(e, s.elapsed)] ∧
          Due c origin s.published.length e s.elapsed) := by
  obtain ⟨elapsed, ring, stage, i, wl, nextDue, core, published, handled⟩ := s
  dsimp only at h
  cases h with
  | next hi hle due =>
    simp only [producerStep] at hstep
    have hinterval : c.interval > 0 := Int64.lt_iff_toInt_lt.mpr hpos
    split at hstep
    case isTrue hlt =>
      obtain rfl := Option.some.inj hstep
      rw [Int64.lt_iff_toInt_lt, hi] at hlt
      refine ⟨.pace hi hlt ?_ (kind_nextOp wl), Or.inl rfl⟩
      rw [due, dueTime_eq]
    case isFalse hge =>
      obtain rfl := Option.some.inj hstep
      rw [Int64.lt_iff_toInt_lt, hi] at hge
      have heq : (published.length : ℤ) = c.totalOps.toInt := by omega
      exact ⟨.claim (.report heq rfl rfl) fun hkind => absurd rfl hkind, Or.inl rfl⟩
  | pace hi hlt due kind =>
    simp only [producerStep] at hstep
    split at hstep
    case isTrue hwait =>
      obtain rfl := Option.some.inj hstep
      exact ⟨.pace hi hlt due kind, Or.inl rfl⟩
    case isFalse hexit =>
      obtain rfl := Option.some.inj hstep
      rw [due] at hexit
      refine ⟨.claim (.op hlt kind ?_ fun hend => hend.le_of_not_lt hpos hlt hexit)
        fun _ => ⟨hi, due⟩, Or.inl rfl⟩
      simp only [Workload.event, stamp, hlt, and_true, ge_iff_le, Int64.le_iff_toInt_le, hi, due]
  | claim h hnext =>
    obtain ⟨ring', -, heq⟩ := Option.bind_eq_some_iff.mp hstep
    obtain rfl := Option.some.inj heq
    exact ⟨.publish h hnext, Or.inl rfl⟩
  | @publish e h hnext =>
    obtain ⟨ring', -, heq⟩ := Option.bind_eq_some_iff.mp hstep
    cases h with
    | op hlt kind ts passed =>
      have hop := ne_kindReport kind
      obtain ⟨hi, due⟩ := hnext hop
      simp only [if_neg hop] at heq
      obtain rfl := Option.some.inj heq
      have hsucc : (i + 1).toInt = i.toInt + 1 := Word.toInt_add_one_of_lt (hi ▸ hlt)
      refine ⟨.next ?_ ?_ ?_, Or.inr ⟨e, rfl, .op hlt kind ts passed⟩⟩
      · rw [hsucc, hi, List.length_append, List.length_singleton]
        push_cast
        rfl
      · rw [List.length_append, List.length_singleton]
        omega
      · rw [List.length_append, List.length_singleton]
        exact due
    | report heq' kind ts =>
      simp only [if_pos kind] at heq
      obtain rfl := Option.some.inj heq
      refine ⟨.shutdown ?_, Or.inr ⟨e, rfl, .report heq' kind ts⟩⟩
      rw [List.length_append, List.length_singleton]
      omega
  | shutdown hn => simp [producerStep] at hstep

/-- What the producer leaves alone, and what it does to the backlog. -/
theorem producerStep_backlog (hD : D.Ordered pending)
    (h : s.published.map Prod.fst = s.handled ++ pending s.ring)
    (hstep : s.producerStep D c origin = some s') :
    s'.published.map Prod.fst = s'.handled ++ pending s'.ring ∧ s'.elapsed = s.elapsed ∧
      s'.core = s.core ∧ s'.handled = s.handled := by
  rw [producerStep] at hstep
  split at hstep
  case h_1 =>
    obtain rfl := Option.some.inj hstep
    split
    · split
      · exact ⟨h, rfl, rfl, rfl⟩
      · exact ⟨h, rfl, rfl, rfl⟩
    · exact ⟨h, rfl, rfl, rfl⟩
  case h_2 =>
    obtain rfl := Option.some.inj hstep
    split
    · exact ⟨h, rfl, rfl, rfl⟩
    · exact ⟨h, rfl, rfl, rfl⟩
  case h_3 e _ =>
    obtain ⟨ring', hring, heq⟩ := Option.bind_eq_some_iff.mp hstep
    obtain rfl := Option.some.inj heq
    exact ⟨by rw [h, hD.next hring], rfl, rfl, rfl⟩
  case h_4 e _ =>
    obtain ⟨ring', hring, heq⟩ := Option.bind_eq_some_iff.mp hstep
    obtain rfl := Option.some.inj heq
    have hbacklog : (s.published ++ [(e, s.elapsed)]).map Prod.fst =
        s.handled ++ pending ring' := by
      rw [List.map_append, h, hD.publish hring, List.append_assoc]
      rfl
    split
    · exact ⟨hbacklog, rfl, rfl, rfl⟩
    · exact ⟨hbacklog, rfl, rfl, rfl⟩
  case h_5 => simp at hstep

/-! ## The invariant -/

/-- The events were published when they were due, with the stamps of the schedule, and the
handler has recorded a latency for every event with a stamp that it handled. -/
structure Timed (R : Hdr H) (pending : ρ → List Ev) (c : Params) (origin : Int64)
    (s : Harness ρ σ H) : Prop where
  paced : Paced c origin s.elapsed s.published.length s.i s.nextDue s.wl s.stage
  backlog : s.published.map Prod.fst = s.handled ++ pending s.ring
  due : ∀ {j e t}, s.published[j]? = some (e, t) → Due c origin j e t
  counted : R.getTotalCount s.core.hist = s.handled.countP fun e => e.ts ≠ 0
  /-- A report comes after the last operation, with all that was recorded. -/
  reported : ∀ hist, s.core.report.map Report.hist = some hist →
    s.handled.length = c.totalOps.toInt + 1 ∧
      R.getTotalCount hist = s.handled.countP fun e => e.ts ≠ 0

theorem timed_start (c : Params) (h0 : 0 ≤ c.totalOps.toInt) (origin : Int64) {ring : ρ}
    (hring : pending ring = []) {core : CoreHandler σ H} (hcount : R.getTotalCount core.hist = 0)
    (hreport : core.report = none) : Timed R pending c origin (start origin ring core) where
  paced := by
    refine .next rfl (by simpa [start] using h0) ?_
    have hzero : Int64.ofNat 0 = 0 := rfl
    simp [start, hzero]
  backlog := by simp [start, hring]
  due := by simp [start]
  counted := hcount
  reported := by simp [start, hreport]

theorem Timed.producer (hpos : 0 < c.interval.toInt) (hD : D.Ordered pending)
    (h : Timed R pending c origin s) (hstep : s.producerStep D c origin = some s') :
    Timed R pending c origin s' := by
  obtain ⟨hpaced, hpublished⟩ := producerStep_paced hpos h.paced hstep
  obtain ⟨hbacklog, -, hcore, hhandled⟩ := producerStep_backlog hD h.backlog hstep
  refine ⟨hpaced, hbacklog, fun {j e t} he => ?_, ?_, ?_⟩
  · rcases hpublished with hsame | ⟨e', hsnoc, hdue⟩
    · exact h.due (hsame ▸ he)
    · rw [hsnoc] at he
      rcases Loop.log_snoc_cases he with hold | ⟨rfl, hnew⟩
      · exact h.due hold
      · obtain ⟨rfl, rfl⟩ := Prod.mk.inj hnew
        exact hdue
  · rw [hcore, hhandled]
    exact h.counted
  · rw [hcore, hhandled]
    exact h.reported

/-- The next event of the backlog is the one published after those that were handled. -/
theorem Timed.next_due (h : Timed R pending c origin s) {e : Ev} {rest : List Ev}
    (hpending : pending s.ring = e :: rest) : ∃ t, Due c origin s.handled.length e t := by
  have hget : (s.published.map Prod.fst)[s.handled.length]? = some e := by
    rw [h.backlog, hpending, List.getElem?_append_right le_rfl, Nat.sub_self]
    rfl
  rw [List.getElem?_map, Option.map_eq_some_iff] at hget
  obtain ⟨⟨e', t⟩, hget, rfl⟩ := hget
  exact ⟨t, h.due hget⟩

theorem Timed.consumer (hD : D.Ordered pending) (hR : R.FixedRange top)
    (h : Timed R pending c origin s) (hstep : s.consumerStep E R D origin = some s') :
    Timed R pending c origin s' := by
  obtain ⟨⟨e, ring⟩, htake, hstep⟩ := Option.bind_eq_some_iff.mp hstep
  obtain ⟨core, hevent, heq⟩ := Option.bind_eq_some_iff.mp hstep
  obtain rfl := Option.some.inj heq
  have hpending := hD.take htake
  obtain ⟨t, hdue⟩ := h.next_due hpending
  have hbacklog : s.published.map Prod.fst = (s.handled ++ [e]) ++ pending ring := by
    rw [h.backlog, hpending, List.append_assoc]
    rfl
  refine ⟨h.paced, hbacklog, h.due, ?_, fun hist hhist => ?_⟩
  · cases hdue with
    | op hlt kind ts passed =>
      rw [(CoreHandler.onEvent_of_op hR kind hevent).2, h.counted, List.countP_append,
        List.countP_singleton]
      simp
    | report heq kind ts =>
      rw [(CoreHandler.onEvent_of_report kind hevent).1, h.counted, List.countP_append]
      simp [ts]
  · cases hdue with
    | op hlt kind ts passed =>
      -- an operation is not handled after the report
      rw [(CoreHandler.onEvent_of_op hR kind hevent).1] at hhist
      have hlen := (h.reported hist hhist).1
      omega
    | report heq kind ts =>
      rw [(CoreHandler.onEvent_of_report kind hevent).2] at hhist
      obtain rfl := Option.some.inj hhist
      refine ⟨?_, ?_⟩
      · rw [List.length_append, List.length_singleton]
        push_cast
        omega
      · rw [h.counted, List.countP_append]
        simp [ts]

/-- **Every turn keeps the invariant.** -/
theorem timed_step (hpos : 0 < c.interval.toInt) (hD : D.Ordered pending) (hR : R.FixedRange top)
    {turn : Turn} (h : Timed R pending c origin s) (hstep : s.step E R D c origin turn = some s') :
    Timed R pending c origin s' := by
  cases turn with
  | tick d =>
    obtain rfl := Option.some.inj hstep
    exact ⟨h.paced.mono (Nat.le_add_right _ d), h.backlog, h.due, h.counted, h.reported⟩
  | producer => exact h.producer hpos hD hstep
  | consumer => exact h.consumer hD hR hstep

/-! ## The number of latencies -/

/-- The schedule stamps every operation after the warmup, if none of them is due at zero. -/
theorem countP_stamp_eq_iff {n w : ℕ} (hn : n = c.totalOps.toInt) (hw : w = c.warmupOps.toInt) :
    ((List.range n).countP fun i => stamp c origin i ≠ 0) = n - w ↔ AvoidsZero c origin := by
  have hstamped : ((List.range n).countP fun i => stamp c origin i ≠ 0) =
      ((List.range n).filter fun i => w ≤ i).countP fun i => dueTime c origin i ≠ 0 := by
    rw [List.countP_filter]
    refine List.countP_congr ?_
    intro i hi
    have hlt := List.mem_range.mp hi
    have htotal : (i : ℤ) < c.totalOps.toInt := by omega
    have hwarm : c.warmupOps.toInt ≤ i ↔ w ≤ i := by omega
    simp only [stamp, htotal, and_true, hwarm]
    by_cases hle : w ≤ i
    · simp [hle]
    · simp [hle]
  have hlength : n - w = ((List.range n).filter fun i => w ≤ i).length := by
    rw [← List.countP_eq_length_filter, Window.countP_range_le]
  rw [hstamped, hlength, List.countP_eq_length]
  constructor
  · intro h i hle hlt
    have hmem : i ∈ (List.range n).filter fun i => w ≤ i :=
      List.mem_filter.mpr ⟨List.mem_range.mpr (by omega), decide_eq_true (by omega)⟩
    exact of_decide_eq_true (h i hmem)
  · intro h i hi
    obtain ⟨hlt, hle⟩ := List.mem_filter.mp hi
    have hlt := List.mem_range.mp hlt
    have hle := of_decide_eq_true hle
    exact decide_eq_true (h i (by omega) (by omega))

theorem countP_stamp_le (n : ℕ) {w : ℕ} (hw : w = c.warmupOps.toInt) :
    ((List.range n).countP fun i => stamp c origin i ≠ 0) ≤ n - w := by
  rw [← Window.countP_range_le]
  refine List.countP_mono_left ?_
  intro i _ hi
  have hmeasured := of_stamp_ne_zero (of_decide_eq_true hi)
  exact decide_eq_true (by omega)

/-- The events that were handled bear the stamps of the schedule. -/
theorem Timed.countP_handled (h : Timed R pending c origin s) :
    (s.handled.countP fun e => e.ts ≠ 0) =
      (List.range s.handled.length).countP fun i => stamp c origin i ≠ 0 := by
  have hmap : s.handled.map Ev.ts = (List.range s.handled.length).map (stamp c origin) := by
    refine List.ext_getElem (by simp) ?_
    intro i hi hi'
    rw [List.length_map] at hi
    have hget : (s.published.map Prod.fst)[i]? = some s.handled[i] := by
      rw [h.backlog, List.getElem?_append_left hi, List.getElem?_eq_getElem]
    rw [List.getElem?_map, Option.map_eq_some_iff] at hget
    obtain ⟨⟨e, t⟩, hget, heq⟩ := hget
    rw [List.getElem_map, List.getElem_map, List.getElem_range, ← heq]
    cases h.due hget with
    | op hlt kind ts passed => exact ts
    | report heq kind ts =>
      rw [stamp_of_le heq.ge]
      exact ts
  have hcount : (s.handled.countP fun e => e.ts ≠ 0) =
      (s.handled.map Ev.ts).countP fun ts => ts ≠ 0 := by
    rw [List.countP_map]
    rfl
  rw [hcount, hmap, List.countP_map]
  rfl

/-- Once all operations are handled, the number of stamps tells whether the schedule avoids
zero. -/
theorem Timed.countP_eq_iff (h : Timed R pending c origin s) (h0 : 0 ≤ c.warmupOps.toInt)
    (hle : c.warmupOps.toInt ≤ c.totalOps.toInt) (hlen : c.totalOps.toInt ≤ s.handled.length) :
    (s.handled.countP fun e => e.ts ≠ 0) = c.totalOps.toInt - c.warmupOps.toInt ↔
      AvoidsZero c origin := by
  obtain ⟨n, hn⟩ := Int.eq_ofNat_of_zero_le (h0.trans hle)
  obtain ⟨w, hw⟩ := Int.eq_ofNat_of_zero_le h0
  obtain ⟨k, hk⟩ := Nat.exists_eq_add_of_le (show n ≤ s.handled.length by omega)
  have hlast : ((List.range k).map (n + ·)).countP (fun i => stamp c origin i ≠ 0) = 0 := by
    refine List.countP_eq_zero.mpr ?_
    intro i hi
    obtain ⟨j, -, rfl⟩ := List.mem_map.mp hi
    have hstamp : stamp c origin (n + j) = 0 := stamp_of_le (by omega)
    simp [hstamp]
  have hcount : (s.handled.countP fun e => e.ts ≠ 0) =
      (List.range n).countP fun i => stamp c origin i ≠ 0 := by
    rw [h.countP_handled, hk, List.range_add, List.countP_append, hlast, Nat.add_zero]
  rw [← countP_stamp_eq_iff hn.symm hw.symm, ← hcount]
  omega

/-- The same of the latencies that are recorded by then. -/
theorem Timed.recorded_iff (h : Timed R pending c origin s) (h0 : 0 ≤ c.warmupOps.toInt)
    (hle : c.warmupOps.toInt ≤ c.totalOps.toInt) (hlen : c.totalOps.toInt ≤ s.handled.length) :
    R.getTotalCount s.core.hist = c.totalOps.toInt - c.warmupOps.toInt ↔ AvoidsZero c origin := by
  rw [h.counted]
  exact h.countP_eq_iff h0 hle hlen

/-- And of those in a report. -/
theorem Timed.reported_iff (h : Timed R pending c origin s) (h0 : 0 ≤ c.warmupOps.toInt)
    (hle : c.warmupOps.toInt ≤ c.totalOps.toInt) {hist : H}
    (hhist : s.core.report.map Report.hist = some hist) :
    R.getTotalCount hist = c.totalOps.toInt - c.warmupOps.toInt ↔ AvoidsZero c origin := by
  obtain ⟨hlen, hcount⟩ := h.reported hist hhist
  rw [hcount]
  exact h.countP_eq_iff h0 hle (by omega)

/-- Everything that was published is handled in the end. -/
theorem Timed.length_handled (h : Timed R pending c origin s) (hstage : s.stage = .shutdown)
    (hpending : pending s.ring = []) : s.handled.length = c.totalOps.toInt + 1 := by
  have hlen : s.published.length = s.handled.length := by
    have hbacklog := congrArg List.length h.backlog
    simpa [hpending] using hbacklog
  have hpaced := h.paced
  rw [hstage] at hpaced
  cases hpaced with
  | shutdown hn => exact hlen ▸ hn

/-- None is recorded of an operation in the warmup. -/
theorem Timed.totalCount_le (h : Timed R pending c origin s) {w : ℕ} (hw : w = c.warmupOps.toInt) :
    R.getTotalCount s.core.hist ≤ s.handled.length - w := by
  rw [h.counted, h.countP_handled]
  exact countP_stamp_le _ hw

/-- **As long as an operation is pending**, a latency is missing, if any is to be recorded. -/
theorem Timed.totalCount_lt (h : Timed R pending c origin s) (h0 : 0 ≤ c.warmupOps.toInt)
    (hlt : c.warmupOps.toInt < c.totalOps.toInt) (hlen : s.handled.length < c.totalOps.toInt) :
    R.getTotalCount s.core.hist < c.totalOps.toInt - c.warmupOps.toInt := by
  obtain ⟨w, hw⟩ := Int.eq_ofNat_of_zero_le h0
  have hle := h.totalCount_le hw.symm
  omega

/-- On a schedule that ends in time, no operation is published before it is due. -/
theorem Timed.not_early (h : Timed R pending c origin s) (hend : EndsInTime c origin) {i : ℕ}
    {e : Ev} {t : ℕ} (he : s.published[i]? = some (e, t)) (hi : i < c.totalOps.toInt) :
    (i + 1 : ℕ) * c.interval.toInt ≤ t := by
  cases h.due he with
  | op hlt kind ts passed => exact passed hend
  | report heq kind ts => omega

theorem timed_run (hpos : 0 < c.interval.toInt) (h0 : 0 ≤ c.totalOps.toInt)
    (hD : D.Ordered pending) (hR : R.FixedRange top) {ring : ρ} (hring : pending ring = [])
    {core : CoreHandler σ H} (hcount : R.getTotalCount core.hist = 0) (hreport : core.report = none)
    {turns : List Turn} (hrun : run E R D c origin ring core turns = some s) :
    Timed R pending c origin s :=
  Loop.foldlM_invariant (Timed R pending c origin)
    (fun _ _ _ h hstep => timed_step hpos hD hR h hstep)
    (timed_start c h0 origin hring hcount hreport) hrun

end Harness
end LmaxBench.Java
