import LmaxBench.Cpp.Slots
import LmaxBench.Lib.Window

/-!
# Latency stamps

The producer stamps an operation with the time at which it was due, not with the time at
which it got through to the ring, so a stalled ring shows up in the latencies. The due times
follow from the index alone. An event is published no earlier than its stamp, and handled
after that, by a clock that moves forward only.

## Main definitions

* `Harness.stamp` — the stamp of an event, by its index.
* `Harness.Paced`, `Harness.Timed`, `Harness.timed_run` — the invariant.
* `Harness.latency_exact` — stamps, latencies and samples under every interleaving.
-/

namespace LmaxBench.Cpp

theorem Params.interval_pos {c : Params} (hrate : 1 ≤ c.rate) (hrate' : c.rate ≤ 1000000000) :
    0 < c.interval := by
  rw [UInt64.le_iff_toNat_le] at hrate hrate'
  have hpos : 0 < c.rate := UInt64.lt_iff_toNat_lt.mpr hrate
  rw [Params.interval, if_pos hpos, UInt64.lt_iff_toNat_lt, UInt64.toNat_div]
  exact Nat.div_pos hrate' hrate

namespace Harness

variable {σ : Type} {E : Engine σ} {c : Params} {start : UInt64} {s s' : Harness σ}

/-! ## The schedule -/

/-- The stamp of the event number `i`: the time at which its operation is due, or zero for
an event that is not measured. -/
def stamp (c : Params) (start : UInt64) (i : ℕ) : UInt64 :=
  if 0 < c.interval ∧ c.warmupOps.toNat ≤ i ∧ i < c.totalOps.toNat then
    start + UInt64.ofNat (i + 1) * c.interval
  else 0

@[simp] theorem stamp_total (c : Params) (start : UInt64) : stamp c start c.totalOps.toNat = 0 :=
  if_neg fun h => Nat.lt_irrefl _ h.2.2

/-- What the producer computes for the operation `i`. -/
theorem stamp_of_lt (start : UInt64) {i : UInt64} (hpos : 0 < c.interval) (hi : i < c.totalOps) :
    stamp c start i.toNat =
      if c.warmupOps ≤ i then start + (i + 1) * c.interval else 0 := by
  have hnext : UInt64.ofNat (i.toNat + 1) = i + 1 := by
    rw [Word.ofNat_succ, UInt64.ofNat_toNat]
  simp only [stamp, hpos, true_and, UInt64.lt_iff_toNat_lt.mp hi, and_true,
    UInt64.le_iff_toNat_le, hnext]

/-! ## The producer -/

/-- Where the producer is against its schedule, at the time `now`. -/
inductive Paced (c : Params) (start now : UInt64) : Stage → Pipe → UInt64 → UInt64 → Prop
  | next {p : Pipe} {i nextDue : UInt64} (hlen : p.published.length = i.toNat)
      (hi : i ≤ c.totalOps) (due : nextDue = start + i * c.interval) :
      Paced c start now .next p i nextDue
  | pace {p : Pipe} {i nextDue : UInt64} (hlen : p.published.length = i.toNat)
      (hi : i < c.totalOps) (due : nextDue = start + (i + 1) * c.interval)
      (hpos : 0 < c.interval) : Paced c start now .pace p i nextDue
  | send {p : Pipe} {i nextDue : UInt64} {todo : List Store}
      (hlen : p.published.length = i.toNat) (hi : i < c.totalOps)
      (due : nextDue = start + (i + 1) * c.interval) (passed : stamp c start i.toNat ≤ now)
      (carries : p.Carries todo fun e => e.ts = stamp c start i.toNat) :
      Paced c start now (.send todo) p i nextDue
  | report {p : Pipe} {i nextDue : UInt64} {todo : List Store}
      (hlen : p.published.length = c.totalOps.toNat)
      (carries : p.Carries todo fun e => e.ts = 0) : Paced c start now (.report todo) p i nextDue
  | join {p : Pipe} {i nextDue : UInt64} : Paced c start now .join p i nextDue

/-- Nothing here depends on the consumer, and the clock only moves forward. -/
theorem Paced.frame {now now' : UInt64} {stage : Stage} {p p' : Pipe} {i nextDue : UInt64}
    (h : Paced c start now stage p i nextDue) (hnow : now ≤ now')
    (hproducer : p'.producer = p.producer) (hbuf : p'.ring.buf = p.ring.buf)
    (hpublished : p'.published = p.published) : Paced c start now' stage p' i nextDue := by
  cases h with
  | next hlen hi due => exact .next (hpublished ▸ hlen) hi due
  | pace hlen hi due hpos => exact .pace (hpublished ▸ hlen) hi due hpos
  | send hlen hi due passed carries =>
    exact .send (hpublished ▸ hlen) hi due (passed.trans hnow) (carries.frame hproducer hbuf)
  | report hlen carries => exact .report (hpublished ▸ hlen) (carries.frame hproducer hbuf)
  | join => exact .join

/-- A step of the producer publishes nothing, or the next event with its stamp, the time of
which has come. -/
def Stamps (c : Params) (start now : UInt64) (p p' : Pipe) : Prop :=
  p'.published = p.published ∨ ∃ e, p'.published = p.published ++ [e] ∧
    e.ts = stamp c start p.published.length ∧ e.ts ≤ now

theorem opStores_carries (p : Pipe) (g : Gen) (ts : UInt64) :
    p.Carries (opStores g ts) fun e => e.ts = ts :=
  p.carries_of_forall fun _ => rfl

theorem reportStores_carries (p : Pipe) : p.Carries reportStores fun e => e.ts = 0 :=
  p.carries_of_forall fun _ => rfl

/-- **One step of the producer, on its schedule.** -/
theorem producerStep_paced (h : Paced c start s.now s.stage s.pipe s.i s.nextDue)
    (hstep : s.producerStep c = some s') :
    Paced c start s'.now s'.stage s'.pipe s'.i s'.nextDue ∧
      Stamps c start s.now s.pipe s'.pipe ∧ s'.now = s.now := by
  obtain ⟨now, pipe, stage, i, wl, nextDue, book, rep⟩ := s
  dsimp only at h
  cases h with
  | next hlen hi due =>
    simp only [producerStep] at hstep
    split at hstep
    case isTrue hlt =>
      have hdue : nextDue + c.interval = start + (i + 1) * c.interval := by
        rw [due, UInt64.add_mul, UInt64.one_mul, UInt64.add_assoc]
      obtain rfl := Option.some.inj hstep
      split
      case isTrue hpos => exact ⟨.pace hlen hlt hdue hpos, Or.inl rfl, rfl⟩
      case isFalse hzero =>
        have hstamp : stamp c start i.toNat = 0 := if_neg fun h => hzero h.1
        have hinterval : c.interval = 0 := by
          rw [← UInt64.toNat_inj]
          have := mt UInt64.lt_iff_toNat_lt.mpr hzero
          simpa using this
        rw [hinterval, add_zero] at hdue
        refine ⟨.send hlen hlt (by rw [hinterval]; exact hdue) ?_ ?_, Or.inl rfl, rfl⟩
        · rw [hstamp]
          exact UInt64.zero_le
        · rw [hstamp]
          exact opStores_carries _ _ _
    case isFalse hge =>
      obtain rfl := Option.some.inj hstep
      obtain rfl : i = c.totalOps := le_antisymm hi (not_lt.mp hge)
      exact ⟨.report hlen (reportStores_carries _), Or.inl rfl, rfl⟩
  | pace hlen hi due hpos =>
    simp only [producerStep] at hstep
    split at hstep
    case isTrue hwait =>
      obtain rfl := Option.some.inj hstep
      exact ⟨.pace hlen hi due hpos, Or.inl rfl, rfl⟩
    case isFalse hdue =>
      obtain rfl := Option.some.inj hstep
      have hstamp := stamp_of_lt start hpos hi
      rw [← due] at hstamp
      refine ⟨.send hlen hi due ?_ ?_, Or.inl rfl, rfl⟩
      · rw [hstamp]
        split
        · exact not_lt.mp hdue
        · exact UInt64.zero_le
      · rw [hstamp]
        exact opStores_carries _ _ _
  | send hlen hi due passed carries =>
    obtain ⟨⟨pipe', left⟩, hsend, hleft⟩ := Option.bind_eq_some_iff.mp hstep
    obtain ⟨a, -, -, hcase⟩ := carries.send_spec hsend
    rcases hcase with ⟨todo', rfl, carries', hpub⟩ | ⟨rfl, -, e, hts, hpub⟩
    · obtain rfl := Option.some.inj hleft
      exact ⟨.send (hpub ▸ hlen) hi due passed carries', Or.inl hpub, rfl⟩
    · obtain rfl := Option.some.inj hleft
      have hlt := UInt64.lt_iff_toNat_lt.mp hi
      have htotal := c.totalOps.toNat_lt
      have hnat : (i + 1).toNat = i.toNat + 1 := Word.toNat_add_one (by omega)
      refine ⟨.next ?_ ?_ due, Or.inr ⟨e, hpub, ?_, hts ▸ passed⟩, rfl⟩
      · rw [hpub, List.length_append, List.length_singleton, hlen, hnat]
      · rw [UInt64.le_iff_toNat_le, hnat]
        exact hlt
      · rw [hts, hlen]
  | report hlen carries =>
    obtain ⟨⟨pipe', left⟩, hsend, hleft⟩ := Option.bind_eq_some_iff.mp hstep
    obtain ⟨a, -, -, hcase⟩ := carries.send_spec hsend
    rcases hcase with ⟨todo', rfl, carries', hpub⟩ | ⟨rfl, -, e, hts, hpub⟩
    · obtain rfl := Option.some.inj hleft
      exact ⟨.report (hpub ▸ hlen) carries', Or.inl hpub, rfl⟩
    · obtain rfl := Option.some.inj hleft
      refine ⟨.join, Or.inr ⟨e, hpub, ?_, ?_⟩, rfl⟩
      · simp [hts, hlen]
      · rw [hts]
        exact UInt64.zero_le
  | join => simp [producerStep] at hstep

/-! ## The consumer -/

/-- A step of the consumer handles nothing, or the next event, taking a sample of an
operation with a stamp. -/
def Samples (s s' : Harness σ) : Prop :=
  (s'.pipe.handled = s.pipe.handled ∧ s'.rep = s.rep) ∨
    ∃ e, s.pipe.published[s.pipe.handled.length]? = some e ∧
      s'.pipe.handled = s.pipe.handled ++ [e] ∧
      ((e.isReport = true ∧ s'.rep.samples = s.rep.samples) ∨
        (e.isReport = false ∧ s'.rep = s.rep.sample s.now e.ts))

/-- **One step of the consumer, by the clock.** -/
theorem consumerStep_samples {k : ℕ} (hsize : c.size.toNat = 2 ^ k)
    (h : s.pipe.Kept c.size) (hstep : s.consumerStep E c = some s') :
    Samples s s' ∧ s'.now = s.now ∧ s'.nextDue = s.nextDue := by
  simp only [consumerStep] at hstep
  split at hstep
  case h_1 hp =>
    obtain ⟨pipe, hload, heq⟩ := Option.bind_eq_some_iff.mp hstep
    obtain rfl := Option.some.inj heq
    obtain ⟨-, rfl⟩ := Pipe.step_load hload
    exact ⟨Or.inl ⟨rfl, rfl⟩, rfl, rfl⟩
  case h_2 hp =>
    split at hstep
    case isTrue hmore =>
      obtain ⟨e, hnext, hbind⟩ := Option.bind_eq_some_iff.mp hstep
      obtain ⟨pipe, hhandle, hevent⟩ := Option.bind_eq_some_iff.mp hbind
      obtain ⟨e', hnext', hpub, hhandled⟩ := h.handle_eq hsize hhandle
      obtain rfl := Option.some.inj (hnext.symm.trans hnext')
      simp only [handleEvent] at hevent
      split at hevent
      case h_1 op hop =>
        obtain ⟨book, -, heq⟩ := Option.bind_eq_some_iff.mp hevent
        obtain rfl := Option.some.inj heq
        exact ⟨Or.inr ⟨e, hpub, hhandled, Or.inr ⟨by rw [Event.isReport, hop]; rfl, rfl⟩⟩, rfl, rfl⟩
      case h_2 hop =>
        obtain ⟨checksum, -, heq⟩ := Option.bind_eq_some_iff.mp hevent
        obtain rfl := Option.some.inj heq
        exact ⟨Or.inr ⟨e, hpub, hhandled, Or.inl ⟨by rw [Event.isReport, hop]; rfl, rfl⟩⟩, rfl, rfl⟩
    case isFalse hdone =>
      obtain ⟨pipe, hstore, heq⟩ := Option.bind_eq_some_iff.mp hstep
      obtain rfl := Option.some.inj heq
      obtain ⟨-, -, rfl⟩ := Pipe.step_store hstore
      exact ⟨Or.inl ⟨rfl, rfl⟩, rfl, rfl⟩
  case h_3 hp => simp at hstep

/-! ## The invariant -/

/-- The published events bear the stamps of the schedule, the time of which has come, and
there is a sample for every event with a stamp that was handled. -/
structure Timed (E : Engine σ) (c : Params) (start : UInt64) (s : Harness σ) : Prop where
  kept : s.pipe.Kept c.size
  fed : Fed c s.stage s.pipe s.i s.wl
  drained : Drained E c s.pipe.consumer s.pipe.handled s.book s.rep
  paced : Paced c start s.now s.stage s.pipe s.i s.nextDue
  stamped : ∀ {i e}, s.pipe.published[i]? = some e → e.ts = stamp c start i ∧ e.ts ≤ s.now
  samples : s.rep.samples.length = s.pipe.handled.countP fun e => e.ts ≠ 0

theorem timed_start (hstart : Harness.start E c start = some s) : Timed E c start s := by
  have hinv := inv_start hstart
  obtain ⟨-, book, -, heq⟩ := start_eq_some_iff.mp hstart
  obtain rfl := Option.some.inj heq
  constructor
  case kept => exact Pipe.kept_new c.size
  case fed => exact hinv.fed
  case drained => exact hinv.drained
  case paced => exact .next rfl UInt64.zero_le (by simp)
  case stamped => simp [Pipe.new]
  case samples => rfl

theorem Moved.kept {k : ℕ} (hsize : c.size.toNat = 2 ^ k) {producer : Bool} {p p' : Pipe}
    (hmoved : Moved c producer p p') (h : p.Kept c.size) : p'.Kept c.size := by
  rcases hmoved with rfl | ⟨a, -, hstep⟩
  · exact h
  · exact h.step hsize hstep

/-- Only the last event asks for the report. -/
theorem Fed.eq_total {stage : Stage} {p : Pipe} {i : UInt64} {wl : Gen} (h : Fed c stage p i wl)
    {j : ℕ} {e : Event} (he : p.published[j]? = some e) (hreport : e.isReport = true) :
    j = c.totalOps.toNat := by
  obtain ⟨n, hn⟩ := h.exists_published
  have hop : e.op? = none := Option.isNone_iff_eq_none.mp hreport
  have hmap : (p.published.map Event.op?)[j]? = some none := by
    rw [List.getElem?_map, he, Option.map_some, hop]
  rw [hn, List.getElem?_take] at hmap
  split at hmap
  case isFalse => simp at hmap
  case isTrue =>
    have hlt := (List.getElem?_eq_some_iff.mp hmap).1
    rw [length_script] at hlt
    rcases Nat.lt_succ_iff_lt_or_eq.mp hlt with hlt | heq
    · rw [getElem?_script_of_lt hlt] at hmap
      simp at hmap
    · exact heq

theorem Timed.producer {k : ℕ} (hsize : c.size.toNat = 2 ^ k) (h : Timed E c start s)
    (hstep : s.producerStep c = some s') : Timed E c start s' := by
  obtain ⟨hfed, hmoved, hbook, hrep⟩ := producerStep_spec h.fed hstep
  obtain ⟨hpaced, hstamps, hnow⟩ := producerStep_paced h.paced hstep
  obtain ⟨hconsumer, hhandled⟩ := hmoved.producer_frame
  refine ⟨hmoved.kept hsize h.kept, hfed, ?_, hpaced, fun {i e} he => ?_, ?_⟩
  · rw [hconsumer, hhandled, hbook, hrep]
    exact h.drained
  · rw [hnow]
    rcases hstamps with hsame | ⟨e', hsnoc, hts, hle⟩
    · exact h.stamped (hsame ▸ he)
    · rw [hsnoc] at he
      rcases Loop.log_snoc_cases he with hold | ⟨rfl, rfl⟩
      · exact h.stamped hold
      · exact ⟨hts, hle⟩
  · rw [hrep, hhandled]
    exact h.samples

theorem Timed.consumer {k : ℕ} (hsize : c.size.toNat = 2 ^ k) (h : Timed E c start s)
    (hstep : s.consumerStep E c = some s') : Timed E c start s' := by
  obtain ⟨hdrained, hmoved, hstage, hi, hwl⟩ := consumerStep_spec h.drained hstep
  obtain ⟨hsamples, hnow, hdue⟩ := consumerStep_samples hsize h.kept hstep
  obtain ⟨hproducer, hbuf, hpublished⟩ := hmoved.consumer_frame
  refine ⟨hmoved.kept hsize h.kept, ?_, hdrained, ?_, fun he => ?_, ?_⟩
  · rw [hstage, hi, hwl]
    exact h.fed.frame hproducer hbuf hpublished
  · rw [hstage, hi, hdue]
    exact h.paced.frame hnow.ge hproducer hbuf hpublished
  · rw [hnow]
    exact h.stamped (hpublished ▸ he)
  · rcases hsamples with ⟨hhandled, hrep⟩ | ⟨e, he, hhandled, ⟨hreport, hrep⟩ | ⟨-, hrep⟩⟩
    · rw [hhandled, hrep]
      exact h.samples
    · -- the request for the report is not stamped
      have hts : e.ts = 0 := by
        simp [(h.stamped he).1, h.fed.eq_total he hreport]
      rw [hhandled, hrep, h.samples, List.countP_append]
      simp [hts]
    · rw [hhandled, hrep, List.countP_append, Report.sample]
      by_cases hts : e.ts = 0
      · simp [hts, h.samples]
      · simp [hts, h.samples]

/-- **Every turn keeps the invariant.** -/
theorem timed_step {k : ℕ} (hsize : c.size.toNat = 2 ^ k) {turn : Turn} (h : Timed E c start s)
    (hstep : s.step E c turn = some s') : Timed E c start s' := by
  cases turn with
  | tick now =>
    obtain ⟨hle, heq⟩ := Option.ite_none_right_eq_some.mp hstep
    obtain rfl := Option.some.inj heq
    exact ⟨h.kept, h.fed, h.drained, h.paced.frame hle rfl rfl rfl,
      fun he => ⟨(h.stamped he).1, (h.stamped he).2.trans hle⟩, h.samples⟩
  | producer => exact h.producer hsize hstep
  | consumer => exact h.consumer hsize hstep

theorem timed_run {k : ℕ} (hsize : c.size.toNat = 2 ^ k) {turns : List Turn}
    (hrun : run E c start turns = some s) : Timed E c start s :=
  run_invariant (Timed E c start) timed_start (fun _ _ _ h hstep => timed_step hsize h hstep) hrun

/-! ## The number of samples -/

/-- Once the consumer is done, it has handled every event. -/
theorem Timed.length_handled (h : Timed E c start s) (hstop : s.pipe.consumer = .stopped) :
    s.pipe.handled.length = c.totalOps.toNat + 1 := by
  have hdrained := h.drained
  rw [hstop] at hdrained
  cases hdrained with
  | running hc => exact absurd rfl hc
  | @stopped _ ops _ _ hops =>
    obtain ⟨n, hn⟩ := h.fed.exists_published
    have hprefix : s.pipe.handled.map Event.op? <+: script c := by
      rw [h.kept.handled, List.map_take, hn]
      exact (List.take_prefix ..).trans (List.take_prefix ..)
    rw [hops, script] at hprefix
    obtain rfl := eq_of_map_prefix hprefix
    have hlen := congrArg List.length hops
    rw [← script, length_script, List.length_map] at hlen
    exact hlen

/-- Then there is a sample for every operation whose stamp is not zero. -/
theorem Timed.length_samples (h : Timed E c start s) (hstop : s.pipe.consumer = .stopped) :
    s.rep.samples.length =
      (List.range c.totalOps.toNat).countP fun i => stamp c start i ≠ 0 := by
  have hlen := h.length_handled hstop
  have hmap : s.pipe.handled.map Event.ts =
      (List.range (c.totalOps.toNat + 1)).map (stamp c start) := by
    refine List.ext_getElem (by simp [hlen]) ?_
    intro i hi hi'
    rw [List.length_map] at hi
    have hget : s.pipe.published[i]? = some s.pipe.handled[i] := by
      rw [← List.getElem?_eq_getElem hi, h.kept.handled, List.getElem?_take, if_pos]
      exact h.kept.handled ▸ hi
    simp [(h.stamped hget).1]
  have hcount : (s.pipe.handled.countP fun e => e.ts ≠ 0) =
      (s.pipe.handled.map Event.ts).countP fun ts => ts ≠ 0 := by
    rw [List.countP_map]
    rfl
  rw [h.samples, hcount, hmap, List.countP_map, List.range_succ, List.countP_append]
  simp [Function.comp_def]

/-! ## The publishing turns -/

@[simp] theorem run_snoc_turn {turns : List Turn} {turn : Turn} :
    run E c start (turns ++ [turn]) = (run E c start turns).bind fun s => s.step E c turn := by
  simp [run, List.foldlM_append, Option.bind_assoc]

/-- The event number `i` is published by a turn that the producer takes in the state `s`. -/
def PublishedAt (E : Engine σ) (c : Params) (start : UInt64) (turns : List Turn) (i : ℕ)
    (s : Harness σ) : Prop :=
  ∃ pre post s', turns = pre ++ .producer :: post ∧ run E c start pre = some s ∧
    s.producerStep c = some s' ∧ s.pipe.published.length = i ∧ s'.pipe.published.length = i + 1

/-- The clock does not go back. -/
theorem step_now {turn : Turn} (h : Timed E c start s) {k : ℕ} (hsize : c.size.toNat = 2 ^ k)
    (hstep : s.step E c turn = some s') : s.now ≤ s'.now := by
  cases turn with
  | tick now =>
    obtain ⟨hle, heq⟩ := Option.ite_none_right_eq_some.mp hstep
    obtain rfl := Option.some.inj heq
    exact hle
  | producer => exact (producerStep_paced h.paced hstep).2.2.ge
  | consumer => exact (consumerStep_samples hsize h.kept hstep).2.1.ge

theorem run_now {k : ℕ} (hsize : c.size.toNat = 2 ^ k) {pre post : List Turn}
    (hpre : run E c start pre = some s) (hrun : run E c start (pre ++ post) = some s') :
    s.now ≤ s'.now := by
  obtain ⟨s₀, hs₀, hturns⟩ := exists_start hrun
  rw [List.foldlM_append] at hturns
  obtain ⟨s₁, hs₁, hpost⟩ := Option.bind_eq_some_iff.mp hturns
  have hrun₁ : run E c start pre = some s₁ := Option.bind_eq_some_iff.mpr ⟨s₀, hs₀, hs₁⟩
  obtain rfl := Option.some.inj (hpre.symm.trans hrun₁)
  have hinv := Loop.foldlM_invariant (fun t => Timed E c start t ∧ s.now ≤ t.now)
    (fun t turn t' h hstep => ⟨timed_step hsize h.1 hstep, h.2.trans (step_now h.1 hsize hstep)⟩)
    ⟨timed_run hsize hpre, le_refl s.now⟩ hpost
  exact hinv.2

/-- Every event was published at some turn. -/
theorem exists_publishedAt {k : ℕ} (hsize : c.size.toNat = 2 ^ k) {turns : List Turn}
    (hrun : run E c start turns = some s) {i : ℕ} (hi : i < s.pipe.published.length) :
    ∃ sp, PublishedAt E c start turns i sp := by
  induction turns using List.reverseRecOn generalizing s with
  | nil =>
    obtain ⟨s₀, hs₀, hturns⟩ := exists_start hrun
    obtain rfl := Option.some.inj hturns
    obtain ⟨-, book, -, heq⟩ := start_eq_some_iff.mp hs₀
    obtain rfl := Option.some.inj heq
    simp [Pipe.new] at hi
  | append_singleton turns turn ih =>
    rw [run_snoc_turn] at hrun
    obtain ⟨s₁, hs₁, hstep⟩ := Option.bind_eq_some_iff.mp hrun
    have htimed := timed_run hsize hs₁
    have hearlier : i < s₁.pipe.published.length →
        ∃ sp, PublishedAt E c start (turns ++ [turn]) i sp := by
      intro hlt
      obtain ⟨sp, pre, post, s', rfl, hsp⟩ := ih hs₁ hlt
      exact ⟨sp, pre, post ++ [turn], s', by simp, hsp⟩
    by_cases hlt : i < s₁.pipe.published.length
    · exact hearlier hlt
    · cases turn with
      | tick now =>
        obtain ⟨-, heq⟩ := Option.ite_none_right_eq_some.mp hstep
        obtain rfl := Option.some.inj heq
        exact hearlier hi
      | consumer =>
        obtain ⟨-, hmoved, -⟩ := consumerStep_spec htimed.drained hstep
        rw [hmoved.consumer_frame.2.2] at hi
        exact hearlier hi
      | producer =>
        obtain ⟨-, hstamps, -⟩ := producerStep_paced htimed.paced hstep
        rcases hstamps with hsame | ⟨e, hsnoc, -⟩
        · rw [hsame] at hi
          exact hearlier hi
        · have hlen : s.pipe.published.length = s₁.pipe.published.length + 1 := by
            rw [hsnoc, List.length_append, List.length_singleton]
          exact ⟨s₁, turns, [], s, rfl, hs₁, hstep, by omega, by omega⟩

/-- An event is published no earlier than its stamp, and the clock does not go back. -/
theorem PublishedAt.le_now {k : ℕ} (hsize : c.size.toNat = 2 ^ k) {turns : List Turn}
    (hrun : run E c start turns = some s) {i : ℕ} {sp : Harness σ}
    (h : PublishedAt E c start turns i sp) : stamp c start i ≤ sp.now ∧ sp.now ≤ s.now := by
  obtain ⟨pre, post, s', rfl, hpre, hstep, hlen, hlen'⟩ := h
  refine ⟨?_, run_now hsize hpre hrun⟩
  obtain ⟨-, hstamps, -⟩ := producerStep_paced (timed_run hsize hpre).paced hstep
  rcases hstamps with hsame | ⟨e, -, hts, hle⟩
  · rw [hsame] at hlen'
    omega
  · rwa [← hlen, ← hts]

/-! ## Exact latencies -/

/-- Where the schedule ends in time, the stamps do not wrap around. -/
theorem toNat_stamp (hpos : 0 < c.interval)
    (htime : start.toNat + c.totalOps.toNat * c.interval.toNat < 2 ^ 64) {i : ℕ}
    (hi : i < c.totalOps.toNat) :
    (stamp c start i).toNat =
      if c.warmupOps.toNat ≤ i then start.toNat + (i + 1) * c.interval.toNat else 0 := by
  have htotal := c.totalOps.toNat_lt
  have hle : (i + 1) * c.interval.toNat ≤ c.totalOps.toNat * c.interval.toNat :=
    Nat.mul_le_mul_right _ hi
  have hmul : (UInt64.ofNat (i + 1) * c.interval).toNat = (i + 1) * c.interval.toNat := by
    rw [UInt64.toNat_mul, Word.toNat_ofNat_of_lt (by omega), Nat.mod_eq_of_lt (by omega)]
  simp only [stamp, hpos, true_and, hi, and_true]
  split
  · rw [Word.toNat_add_of_lt (by omega), hmul]
  · rfl

/-- What holds of the stamps and the samples in the state `s` that `turns` lead to. -/
structure ExactLatency (E : Engine σ) (c : Params) (start : UInt64) (turns : List Turn)
    (s : Harness σ) : Prop where
  /-- The stamps follow the schedule, however long the producer was held up. -/
  stamped : ∀ {i e}, s.pipe.published[i]? = some e → i < c.totalOps.toNat →
    e.ts.toNat =
      if c.warmupOps.toNat ≤ i then start.toNat + (i + 1) * c.interval.toNat else 0
  /-- A stamped event is handled, and its sample taken, at a reading of the clock that is no
  earlier than its stamp. -/
  not_early : ∀ {s' e}, s.consumerStep E c = some s' →
    s'.pipe.handled = s.pipe.handled ++ [e] → e.ts ≠ 0 →
      e.ts ≤ s.now ∧ s'.rep = s.rep.sample s.now e.ts
  /-- The latency is at least the time since the event was published. -/
  delay : ∀ {s' e}, s.consumerStep E c = some s' →
    s'.pipe.handled = s.pipe.handled ++ [e] → e.ts ≠ 0 →
      (∃ sp, PublishedAt E c start turns s.pipe.handled.length sp) ∧
        ∀ sp, PublishedAt E c start turns s.pipe.handled.length sp →
          sp.now ≤ s.now ∧ s.now - sp.now ≤ s.now - e.ts
  /-- The report comes with a sample for every operation after the warmup. -/
  recorded : s.pipe.consumer = .stopped →
    s.rep.samples.length = c.totalOps.toNat - c.warmupOps.toNat

/-- The event a step of the consumer handles. -/
theorem Timed.handled_eq {k : ℕ} (hsize : c.size.toNat = 2 ^ k) (h : Timed E c start s)
    (hstep : s.consumerStep E c = some s') {e : Event}
    (hhandled : s'.pipe.handled = s.pipe.handled ++ [e]) :
    s.pipe.published[s.pipe.handled.length]? = some e ∧
      (e.ts ≠ 0 → s'.rep = s.rep.sample s.now e.ts) := by
  obtain ⟨hsame, -⟩ | ⟨e', he', hsnoc, hcase⟩ := (consumerStep_samples hsize h.kept hstep).1
  · simp [hsame] at hhandled
  · obtain rfl : e' = e := by simpa using hsnoc.symm.trans hhandled
    refine ⟨he', fun hts => ?_⟩
    rcases hcase with ⟨hreport, -⟩ | ⟨-, hrep⟩
    · refine absurd ?_ hts
      rw [(h.stamped he').1, h.fed.eq_total he' hreport, stamp_total]
    · exact hrep

/-- **Latency stamping is exact**, under every interleaving, for every engine and every ring
with a power of two of slots. -/
theorem latency_exact {k : ℕ} (hsize : c.size.toNat = 2 ^ k) (hrate : 1 ≤ c.rate)
    (hrate' : c.rate ≤ 1000000000)
    (htime : start.toNat + c.totalOps.toNat * c.interval.toNat < 2 ^ 64) {turns : List Turn}
    (hrun : run E c start turns = some s) : ExactLatency E c start turns s := by
  have hpos : 0 < c.interval := Params.interval_pos hrate hrate'
  have h := timed_run hsize hrun
  refine ⟨fun he hi => ?_, fun hstep hhandled hts => ?_, fun hstep hhandled hts => ?_,
    fun hstop => ?_⟩
  · rw [(h.stamped he).1, toNat_stamp hpos htime hi]
  · obtain ⟨he, hrep⟩ := h.handled_eq hsize hstep hhandled
    exact ⟨(h.stamped he).2, hrep hts⟩
  · obtain ⟨he, -⟩ := h.handled_eq hsize hstep hhandled
    have hstamp := h.stamped he
    refine ⟨exists_publishedAt hsize hrun (List.getElem?_eq_some_iff.mp he).1, fun sp hsp => ?_⟩
    obtain ⟨hdue, hnow⟩ := hsp.le_now hsize hrun
    rw [← hstamp.1] at hdue
    have hdue' := UInt64.le_iff_toNat_le.mp hdue
    have hnow' := UInt64.le_iff_toNat_le.mp hnow
    refine ⟨hnow, UInt64.le_iff_toNat_le.mpr ?_⟩
    rw [Word.toNat_sub_of_le hnow', Word.toNat_sub_of_le (hdue'.trans hnow')]
    omega
  · rw [h.length_samples hstop, ← Window.countP_range_le]
    refine List.countP_congr ?_
    intro i hi
    have hstamp := toNat_stamp hpos htime (List.mem_range.mp hi)
    have hstep : 0 < (i + 1) * c.interval.toNat :=
      Nat.mul_pos (Nat.succ_pos i) (UInt64.lt_iff_toNat_lt.mp hpos)
    simp only [ne_eq, decide_eq_true_eq, ← UInt64.toNat_inj, hstamp, UInt64.toNat_zero]
    split
    case isTrue hw =>
      simp only [hw, iff_true]
      omega
    case isFalse hw => simp [hw]

/-- With one slot, the second operation is held up from its due time 9 on, and published
at 50. -/
theorem latency_exact_stalled : ∃ turns s,
    run Book.engine { size := 1, totalOps := 2, warmupOps := 1, rate := 500000000 } 5 turns =
        some s ∧
      s.pipe.consumer = .stopped ∧
      ExactLatency Book.engine { size := 1, totalOps := 2, warmupOps := 1, rate := 500000000 } 5
        turns s := by
  let c : Params := { size := 1, totalOps := 2, warmupOps := 1, rate := 500000000 }
  let turns : List Turn :=
    List.flatten
      [[.producer, .tick 9], List.replicate 9 .producer, [.producer, .tick 12],
        List.replicate 3 .producer, [.tick 50], List.replicate 3 .consumer,
        List.replicate 10 .producer, List.replicate 3 .consumer, List.replicate 4 .producer,
        List.replicate 2 .consumer]
  have hstop : (run Book.engine c 5 turns).map (fun s => s.pipe.consumer) = some .stopped := by
    decide +kernel
  obtain ⟨s, hs, hstop⟩ := Option.map_eq_some_iff.mp hstop
  exact ⟨turns, s, hs, hstop,
    latency_exact (k := 0) (c := c) rfl (by decide) (by decide) (by decide) hs⟩

end Harness
end LmaxBench.Cpp
