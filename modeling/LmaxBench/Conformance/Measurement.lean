import LmaxBench.Java.CoreHandler
import LmaxBench.Rust.Core

/-!
# Measuring and matching

The cores in Java and Rust record latencies in a histogram of a fixed range. In Rust, a latency
beyond the range is dropped. In Java, it throws in the middle of the drain, which ends there,
without a report.

## Main definitions

* `Java.boundedHdr` — a histogram of a fixed range, as the values it has recorded.
* `measurement_inert_iff` — when the time stamps leave the reports as they are.
-/

namespace LmaxBench

/-- A histogram of the range up to `top`, as the values it has recorded. -/
def Java.boundedHdr (top : Int64) : Java.Hdr (List Int64) where
  recordValue h v := if top < v then none else some (v :: h)
  getTotalCount := List.length

theorem Java.boundedHdr_fixedRange {top : Int64} (htop : 60000000000 ≤ top) :
    (Java.boundedHdr top).FixedRange top where
  throws_iff h v _ := by simp [Java.boundedHdr]
  count h v h' hrecord := by
    simp only [Java.boundedHdr, Option.ite_none_left_eq_some] at hrecord
    rw [← Option.some.inj hrecord.2]
    rfl
  highest := htop

/-- The range of `new Histogram(60_000_000_000L, 3)`: its buckets reach up to a power of two. -/
def Java.hdrTop : Int64 := 68719476735

/-- **Measuring and matching.** In Java the time stamps change the report of a drain iff a latency
is beyond the range of the histogram; in Rust they never change it. -/
theorem measurement_inert_iff {σ H H' : Type} (E : Java.Engine σ) {R : Java.Hdr H} {top : Int64}
    (hR : R.FixedRange top) (R' : Rust.Hdr H') :
    (∀ (c : Java.CoreHandler σ H) (evs : List (Java.Ev × Int64)),
      ∀ stats, Java.CoreHandler.outcome E R c (evs.map Java.CoreHandler.unmeasured) = some stats →
        (Java.CoreHandler.Unaffected E R c evs ↔ ∀ i ∈ evs, Java.CoreHandler.Covered top i)) ∧
      ∀ (c : Rust.Core H') (evs : List (Rust.Event × UInt64)), Rust.Core.Unaffected R' c evs :=
  ⟨fun _ _ _ => Java.CoreHandler.unaffected_iff hR, Rust.Core.unaffected R'⟩

/-- An order that is handled late, but within the range. -/
theorem measurement_inert_iff_late : ∃ b, Java.TunedBook.new 2 = some b ∧
    Java.CoreHandler.Unaffected Java.TunedBook.engine (Java.boundedHdr Java.hdrTop) ⟨b, [], none⟩
      [({ kind := Java.kindLimit, price := 1000, qty := 3, id := 1, ts := 1 }, 60000000001),
        ({ kind := Java.kindReport }, 60000000002)] := by
  have hends : ((Java.TunedBook.new 2).bind fun b =>
      Java.CoreHandler.outcome Java.TunedBook.engine (Java.boundedHdr Java.hdrTop) ⟨b, [], none⟩
        [({ kind := Java.kindLimit, price := 1000, qty := 3, id := 1, ts := 0 }, 60000000001),
          ({ kind := Java.kindReport, ts := 0 }, 60000000002)]).isSome = true := by
    decide +kernel
  obtain ⟨stats, hbind⟩ := Option.isSome_iff_exists.mp hends
  obtain ⟨b, hb, hstats⟩ := Option.bind_eq_some_iff.mp hbind
  have htop : 60000000000 ≤ Java.hdrTop := by decide
  have h := measurement_inert_iff Java.TunedBook.engine (Java.boundedHdr_fixedRange htop)
    ⟨fun (h : Unit) _ => (h, true)⟩
  refine ⟨b, hb, (h.1 ⟨b, [], none⟩ _ stats ?_).mpr ?_⟩
  · exact hstats
  · decide

/-- An order that is handled 70 seconds after it was due ends the drain in Java. -/
theorem measurement_aborts : ∃ b, Java.TunedBook.new 2 = some b ∧
    ¬ Java.CoreHandler.Unaffected Java.TunedBook.engine (Java.boundedHdr Java.hdrTop) ⟨b, [], none⟩
      [({ kind := Java.kindLimit, price := 1000, qty := 3, id := 1, ts := 1 }, 70000000001),
        ({ kind := Java.kindReport }, 70000000002)] := by
  have hends : ((Java.TunedBook.new 2).bind fun b =>
      Java.CoreHandler.outcome Java.TunedBook.engine (Java.boundedHdr Java.hdrTop) ⟨b, [], none⟩
        [({ kind := Java.kindLimit, price := 1000, qty := 3, id := 1, ts := 0 }, 70000000001),
          ({ kind := Java.kindReport, ts := 0 }, 70000000002)]).isSome = true := by
    decide +kernel
  have haborts : ((Java.TunedBook.new 2).bind fun b =>
      Java.CoreHandler.outcome Java.TunedBook.engine (Java.boundedHdr Java.hdrTop) ⟨b, [], none⟩
        [({ kind := Java.kindLimit, price := 1000, qty := 3, id := 1, ts := 1 }, 70000000001),
          ({ kind := Java.kindReport }, 70000000002)]) = none := by
    decide +kernel
  obtain ⟨stats, hbind⟩ := Option.isSome_iff_exists.mp hends
  obtain ⟨b, hb, hstats⟩ := Option.bind_eq_some_iff.mp hbind
  refine ⟨b, hb, fun h => ?_⟩
  rw [hb, Option.bind_some, h stats hstats] at haborts
  simp at haborts

end LmaxBench
