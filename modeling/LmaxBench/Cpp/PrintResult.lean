import LmaxBench.Cpp.Latency
import LmaxBench.Lib.Double

/-!
# The latency report

`print_result` of `main.cpp` sorts the samples and reads a few percentiles and the maximum.
It does not ask whether there are samples: of an empty vector, `s.size() - 1` is the largest
word, and there is no last element. Whether there are samples is decided by the pacing and
the warmup of `run_impl`, for which `main` passes on any `ops` and `rate`.

## Main definitions

* `percentileIdx`, `printResult` — the reads of `print_result`, with faults.
* `PrintsDefined` — nothing underflows, and nothing is read out of bounds.
* `latency_defined_iff` — for which command lines this is so.
-/

namespace LmaxBench.Cpp

/-- What `main` runs in latency mode. -/
def latencyParams (ops rate : UInt64) : Params := { totalOps := ops, warmupOps := ops / 5, rate }

/-- The percentiles that are printed. -/
def percentiles : List ℚ := [50 / 100, 90 / 100, 99 / 100, 999 / 1000, 9999 / 10000]

/-- `static_cast<size_t>(q * (s.size() - 1))`. -/
def percentileIdx (q : ℚ) (size : UInt64) : ℕ :=
  ⌊toDouble (toDouble q * toDouble (size - 1).toNat)⌋₊

/-- The nanoseconds `print_result` shows: the percentiles, and the maximum. A read that is out
of bounds is `none`. -/
def printResult (samples : List UInt32) : Option (List UInt32 × UInt32) := do
  let s := samples.mergeSort
  let read (q : ℚ) := s[percentileIdx q (UInt64.ofNat s.length)]?
  let shown ← percentiles.mapM read
  let back ← s.getLast?
  some (shown, back)

/-- Nothing in `print_result` underflows or is out of bounds. -/
structure PrintsDefined (samples : List UInt32) : Prop where
  nonempty : samples ≠ []
  /-- `s.size() - 1` does not underflow. -/
  size : (1 : UInt64) ≤ UInt64.ofNat samples.length
  idx : ∀ q ∈ percentiles, percentileIdx q (UInt64.ofNat samples.length) < samples.length

/-! ## The reads -/

theorem percentileIdx_le {q : ℚ} (h0 : 0 ≤ q) (hq : q ≤ 9999 / 10000) (size : UInt64) :
    percentileIdx q size ≤ (size - 1).toNat := by
  refine Nat.floor_le_of_le ?_
  have hn : (0 : ℚ) ≤ (size - 1).toNat := Nat.cast_nonneg _
  calc toDouble (toDouble q * toDouble (size - 1).toNat)
      ≤ q * (size - 1).toNat * (1 + 1 / 2 ^ 53) ^ 3 := toDouble_mul_le h0 hn
    _ = (size - 1).toNat * (q * (1 + 1 / 2 ^ 53) ^ 3) := by ring
    _ ≤ (size - 1).toNat * (9999 / 10000 * (1 + 1 / 2 ^ 53) ^ 3) := by gcongr
    _ ≤ (size - 1).toNat * 1 := by
      refine mul_le_mul_of_nonneg_left ?_ hn
      norm_num
    _ = (size - 1).toNat := mul_one _

/-- **One sample is enough**, for every percentile. -/
theorem printsDefined_iff {samples : List UInt32} (hlen : samples.length < 2 ^ 64) :
    PrintsDefined samples ↔ samples ≠ [] := by
  refine ⟨fun h => h.nonempty, fun hne => ?_⟩
  have hpos : 1 ≤ samples.length := List.length_pos_iff.mpr hne
  have hnat : (UInt64.ofNat samples.length).toNat = samples.length := Word.toNat_ofNat_of_lt hlen
  have hone : (1 : UInt64).toNat ≤ (UInt64.ofNat samples.length).toNat := by
    rw [hnat]
    exact hpos
  refine ⟨hne, UInt64.le_iff_toNat_le.mpr hone, fun q hq => ?_⟩
  have hrange : 0 ≤ q ∧ q ≤ 9999 / 10000 := by
    simp only [percentiles, List.mem_cons, List.not_mem_nil, or_false] at hq
    rcases hq with rfl | rfl | rfl | rfl | rfl <;> norm_num
  have hle := percentileIdx_le hrange.1 hrange.2 (UInt64.ofNat samples.length)
  rw [Word.toNat_sub_of_le hone, hnat, UInt64.toNat_one] at hle
  omega

/-- Then nothing is read out of bounds. -/
theorem PrintsDefined.exists_printed {samples : List UInt32} (h : PrintsDefined samples) :
    ∃ shown, printResult samples = some shown := by
  have hlen : samples.mergeSort.length = samples.length := List.length_mergeSort _
  have hread : ∀ qs : List ℚ, (∀ q ∈ qs, q ∈ percentiles) → ∃ shown,
      (qs.mapM fun q =>
        samples.mergeSort[percentileIdx q (UInt64.ofNat samples.mergeSort.length)]?) =
        some shown := by
    intro qs
    induction qs with
    | nil => exact fun _ => ⟨[], rfl⟩
    | cons q qs ih =>
      intro hqs
      obtain ⟨shown, hshown⟩ := ih fun q' hq' => hqs q' (List.mem_cons_of_mem q hq')
      have hlt : percentileIdx q (UInt64.ofNat samples.mergeSort.length) <
          samples.mergeSort.length := by
        rw [hlen]
        exact h.idx q (hqs q List.mem_cons_self)
      refine
        ⟨samples.mergeSort[percentileIdx q (UInt64.ofNat samples.mergeSort.length)] :: shown, ?_⟩
      rw [List.mapM_cons, hshown, List.getElem?_eq_getElem hlt]
      rfl
  obtain ⟨shown, hshown⟩ := hread percentiles fun _ => id
  have hne : samples.mergeSort ≠ [] := by
    rw [← List.length_pos_iff, hlen]
    exact List.length_pos_iff.mpr h.nonempty
  refine ⟨(shown, samples.mergeSort.getLast hne), ?_⟩
  simp only [printResult, hshown, List.getLast?_eq_some_getLast hne]
  rfl

@[simp] theorem Params.interval_pos_iff {c : Params} :
    0 < c.interval ↔ 1 ≤ c.rate ∧ c.rate ≤ 1000000000 := by
  refine ⟨fun h => ?_, fun h => Params.interval_pos h.1 h.2⟩
  rw [Params.interval] at h
  split at h
  case isFalse => simp at h
  case isTrue hrate =>
    rw [UInt64.lt_iff_toNat_lt, UInt64.toNat_div] at h
    simp only [UInt64.le_iff_toNat_le]
    exact Nat.div_pos_iff.mp h

namespace Harness

/-! ## The samples of a run -/

variable {σ : Type} {E : Engine σ} {c : Params} {start : UInt64} {s : Harness σ}

/-- There is a sample iff an operation after the warmup has a stamp. -/
theorem Timed.samples_ne_nil_iff (h : Timed E c start s) (hstop : s.pipe.consumer = .stopped) :
    s.rep.samples ≠ [] ↔ ∃ i < c.totalOps.toNat, stamp c start i ≠ 0 := by
  rw [← List.length_pos_iff, h.length_samples hstop, List.countP_pos_iff]
  simp

theorem Timed.length_samples_lt (h : Timed E c start s) (hstop : s.pipe.consumer = .stopped) :
    s.rep.samples.length < 2 ^ 64 := by
  have hle := List.countP_le_length (p := fun i => stamp c start i ≠ 0)
    (l := List.range c.totalOps.toNat)
  have htotal := c.totalOps.toNat_lt
  rw [h.length_samples hstop]
  rw [List.length_range] at hle
  omega

/-- Two stamps in a row are not both zero. -/
theorem stamp_succ_ne (hpos : 0 < c.interval) {i : ℕ} (hw : c.warmupOps.toNat ≤ i)
    (hi : i + 1 < c.totalOps.toNat) (hzero : stamp c start i = 0) : stamp c start (i + 1) ≠ 0 := by
  rw [stamp, if_pos ⟨hpos, hw, by omega⟩] at hzero
  rw [stamp, if_pos ⟨hpos, by omega, hi⟩]
  intro hnext
  rw [Word.ofNat_succ, UInt64.add_mul, UInt64.one_mul, ← UInt64.add_assoc, hzero, zero_add] at hnext
  rw [hnext] at hpos
  exact absurd hpos (by decide)

/-- After a warmup of a fifth of the operations, one of them has a stamp, if there are any and
they are paced; a single one may be due just when the clock wraps around. -/
theorem exists_stamp_iff (ops rate start : UInt64) :
    (∃ i < ops.toNat, stamp (latencyParams ops rate) start i ≠ 0) ↔
      1 ≤ ops ∧ 1 ≤ rate ∧ rate ≤ 1000000000 ∧ ¬(ops = 1 ∧ start + 1000000000 / rate = 0) := by
  have hwarmup : (ops / 5).toNat = ops.toNat / 5 := UInt64.toNat_div ..
  have hinterval : 1 ≤ rate → (latencyParams ops rate).interval = 1000000000 / rate :=
    fun hrate => if_pos (lt_of_lt_of_le (by decide) hrate)
  have hfirst : UInt64.ofNat (0 + 1) = 1 := rfl
  constructor
  · rintro ⟨i, hi, hne⟩
    rw [stamp] at hne
    split at hne
    case isFalse => exact absurd rfl hne
    case isTrue h =>
      obtain ⟨h1, h2⟩ := Params.interval_pos_iff.mp h.1
      refine ⟨?_, h1, h2, ?_⟩
      · rw [UInt64.le_iff_toNat_le, UInt64.toNat_one]
        omega
      · rintro ⟨rfl, hzero⟩
        obtain rfl : i = 0 := by simpa using hi
        rw [hinterval h1, hfirst, UInt64.one_mul] at hne
        exact hne hzero
  · rintro ⟨hops, h1, h2, hnot⟩
    have hpos : 0 < (latencyParams ops rate).interval := Params.interval_pos_iff.mpr ⟨h1, h2⟩
    rw [UInt64.le_iff_toNat_le, UInt64.toNat_one] at hops
    by_cases hone : ops.toNat = 1
    · refine ⟨0, hops, ?_⟩
      have hguard : (latencyParams ops rate).warmupOps.toNat ≤ 0 := by
        show (ops / 5).toNat ≤ 0
        omega
      rw [stamp, if_pos ⟨hpos, hguard, hops⟩, hinterval h1, hfirst, UInt64.one_mul]
      exact fun hzero => hnot ⟨UInt64.toNat_inj.mp hone, hzero⟩
    · by_cases hzero : stamp (latencyParams ops rate) start (ops.toNat - 2) = 0
      · refine ⟨ops.toNat - 2 + 1, by omega, stamp_succ_ne hpos ?_ ?_ hzero⟩
        · show (ops / 5).toNat ≤ _
          omega
        · show _ < ops.toNat
          omega
      · exact ⟨ops.toNat - 2, by omega, hzero⟩

/-- **When the latency report is defined**: after every run that ends, under every
interleaving and for every engine. -/
theorem latency_defined_iff {ops rate : UInt64} {turns : List Turn}
    (hrun : run E (latencyParams ops rate) start turns = some s)
    (hstop : s.pipe.consumer = .stopped) :
    PrintsDefined s.rep.samples ↔
      1 ≤ ops ∧ 1 ≤ rate ∧ rate ≤ 1000000000 ∧ ¬(ops = 1 ∧ start + 1000000000 / rate = 0) := by
  have h := timed_run (k := 16) rfl hrun
  rw [printsDefined_iff (h.length_samples_lt hstop), h.samples_ne_nil_iff hstop]
  exact exists_stamp_iff ops rate start

theorem latency_defined_iff_paced : ∃ turns s,
    run Book.engine (latencyParams 1 1000000000) 5 turns = some s ∧
      (PrintsDefined s.rep.samples ↔
        (1 : UInt64) ≤ 1 ∧ (1 : UInt64) ≤ 1000000000 ∧ (1000000000 : UInt64) ≤ 1000000000 ∧
          ¬((1 : UInt64) = 1 ∧ (5 : UInt64) + 1000000000 / 1000000000 = 0)) := by
  let turns : List Turn :=
    List.flatten
      [[.producer, .tick 9], List.replicate 14 .producer, List.replicate 3 .consumer]
  have hstop : (run Book.engine (latencyParams 1 1000000000) 5 turns).map
      (fun s => s.pipe.consumer) = some .stopped := by
    decide +kernel
  obtain ⟨s, hs, hstop⟩ := Option.map_eq_some_iff.mp hstop
  exact ⟨turns, s, hs, latency_defined_iff hs hstop⟩

/-- A rate of zero is accepted, and leaves no samples. -/
theorem latency_undefined : ∃ turns s,
    run Book.engine (latencyParams 1 0) 5 turns = some s ∧
      s.pipe.consumer = .stopped ∧ ¬ PrintsDefined s.rep.samples := by
  let turns : List Turn := List.replicate 14 .producer ++ List.replicate 3 .consumer
  have hstop : (run Book.engine (latencyParams 1 0) 5 turns).map
      (fun s => (s.pipe.consumer, s.rep.samples)) = some (.stopped, []) := by
    decide +kernel
  obtain ⟨s, hs, heq⟩ := Option.map_eq_some_iff.mp hstop
  obtain ⟨hstop, hnil⟩ := Prod.mk.inj heq
  exact ⟨turns, s, hs, hstop, fun h => h.nonempty hnil⟩

end Harness
end LmaxBench.Cpp
