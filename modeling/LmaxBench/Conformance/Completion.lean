import LmaxBench.Conformance.Suite
import LmaxBench.Cpp.HarnessFair
import LmaxBench.Go.HarnessFair
import LmaxBench.Java.HarnessFair
import LmaxBench.Rust.HarnessFair

/-!
# The suite completes

That a program reports the right statistics whenever it reports is one half; the other is that it
does report. Under a fair schedule, each of the eight programs does, and prints what the exchange
says about the generated stream. In Java that is so in throughput mode, where no recording of a
latency can throw; in C++, if the warmup is not longer than the run.

## Main definitions

* `Cpp.EventuallyReports`, `Go.EventuallyReports`, `Rust.EventuallyReports`,
  `Java.EventuallyReports` — the programs of one language, under every fair schedule.
* `suite_completes` — all of them.
-/

namespace LmaxBench

open Fair (Eventually)

variable {n : ℕ}

/-- A short tuned book has room for all operations. -/
theorem room_of_short (hn : n + 2 < 2 ^ 30) :
    n + 16 ≤ Cpp.maxSize 4 ∧ n + 2 ≤ Go.maxLen := by
  have hsize : 2 ^ 31 ≤ Cpp.maxSize 4 := by decide
  have hlen : 2 ^ 30 ≤ Go.maxLen := by decide
  omega

/-! ## C++ -/

namespace Cpp

/-- Under every fair schedule, both engines come to report `l` after `n` operations, for a warmup
that is not longer than that. -/
def EventuallyReports (n : ℕ) (l : Line) : Prop :=
  ∀ (c : Params) (k : ℕ) (now : UInt64) (sched : ℕ → Turn), c.totalOps.toNat = n →
    c.warmupOps ≤ c.totalOps → c.size.toNat = 2 ^ k →
    (Harness.Scheduled Book.engine c now sched →
      Harness.Ends Book.engine c now sched fun s =>
        s.pipe.consumer = .stopped ∧ s.rep.line = l) ∧
    (Harness.Scheduled TunedBook.engine c now sched →
      Harness.Ends TunedBook.engine c now sched fun s =>
        s.pipe.consumer = .stopped ∧ s.rep.line = l)

theorem eventuallyReports (hn : n + 2 < 2 ^ 30) : EventuallyReports n (reference n) := by
  intro c k now sched htotal hle hsize
  have halways := fun turns => alwaysReports (by omega) c k now turns htotal hsize
  have hreserves : c.Reserves :=
    Params.reserves_of_le hle (htotal ▸ (room_of_short hn).1)
  constructor
  · intro h
    refine (Harness.returns_of_scheduled hsize (by omega) (Harness.serves_book c) hreserves h).mono
      ?_
    exact fun turns s hrun hs => ⟨hs.2.1, (halways turns).1 s hrun hs.2.1⟩
  · intro h
    have hserves : Harness.Serves TunedBook.engine c :=
      Harness.serves_tuned (by omega) (fits_of_short (by omega)).1
    refine (Harness.returns_of_scheduled hsize (by omega) hserves hreserves h).mono ?_
    exact fun turns s hrun hs => ⟨hs.2.1, (halways turns).2 s hrun hs.2.1⟩

end Cpp

/-! ## Go -/

namespace Go

/-- Under every fair schedule, both engines come to report `l` after `n` operations. -/
def EventuallyReports (n : ℕ) (l : Line) : Prop :=
  ∀ {H : Type} (R : Hdr H) (c : Params) (t₀ : UInt64) (sched : ℕ → Turn), c.totalOps.toNat = n →
    (Harness.Scheduled Book.engine R c t₀ sched →
      Harness.Ends Book.engine R c t₀ sched fun s =>
        s.stage = .returned ∧ ∃ rep, s.done = some rep ∧ rep.line = l) ∧
    (Harness.Scheduled TunedBook.engine R c t₀ sched →
      Harness.Ends TunedBook.engine R c t₀ sched fun s =>
        s.stage = .returned ∧ ∃ rep, s.done = some rep ∧ rep.line = l)

theorem eventuallyReports (hn : n + 2 < 2 ^ 30) : EventuallyReports n (reference n) := by
  intro H R c t₀ sched htotal
  have halways := fun turns => alwaysReports (by omega) R c t₀ turns htotal
  constructor
  · intro h
    refine (Harness.returns_of_scheduled (Harness.serves_book c) h).mono ?_
    rintro turns s hrun ⟨hstage, rep, hrep, -⟩
    exact ⟨hstage, rep, hrep, (halways turns).1 s rep hrun hrep⟩
  · intro h
    have hserves : Harness.Serves TunedBook.engine c :=
      Harness.serves_tuned (htotal ▸ (room_of_short hn).2)
    refine (Harness.returns_of_scheduled hserves h).mono ?_
    rintro turns s hrun ⟨hstage, rep, hrep, -⟩
    exact ⟨hstage, rep, hrep, (halways turns).2 s rep hrun hrep⟩

end Go

/-! ## Rust -/

namespace Rust

/-- Under every fair schedule, on any ring that is alive and hands over its events in order, both
engines come to report `l` after `n` operations, unless the rate is zero. -/
def EventuallyReports (n : ℕ) (l : Line) : Prop :=
  ∀ {ρ H : Type} (R : Hdr H) (D : Disruptor ρ) (pending : ρ → List Event), D.Ordered pending →
    D.Live pending → ∀ (ring : ρ), pending ring = [] → ∀ (c : Params) (tuned : Bool) (hist : H)
      (t₀ : UInt64), c.totalOps.toNat = n → c.rate ≠ some 0 →
      ∃ interval, c.interval = some interval ∧ ∀ sched : ℕ → Turn,
        Harness.Scheduled R D c interval (Harness.engineFromEnv tuned) hist ring t₀ sched →
          Eventually (Harness.step R D c interval)
            (Harness.start (Harness.engineFromEnv tuned) hist ring t₀) sched fun s =>
              s.stage = .joined ∧ ∃ rep, s.core.report = some rep ∧ rep.line = l

theorem eventuallyReports (hn : n < 2 ^ 64) : EventuallyReports n (reference n) := by
  intro ρ H R D pending hD hL ring hring c tuned hist t₀ htotal hrate
  obtain ⟨interval, hinterval⟩ := Params.exists_interval hrate
  refine ⟨interval, hinterval, fun sched h => ?_⟩
  refine (Harness.returns_of_scheduled hD hL hring (Harness.serves_engine tuned c) h).mono ?_
  rintro turns s hfold ⟨hstage, rep, hrep, -⟩
  have hrun : Harness.run R D c (Harness.engineFromEnv tuned) hist ring t₀ turns = some s := by
    rw [Harness.run, hinterval]
    exact hfold
  exact ⟨hstage, rep, hrep,
    alwaysReports hn R D pending hD ring hring c tuned hist t₀ turns htotal s rep hrun hrep⟩

end Rust

/-! ## Java -/

namespace Java

/-- Under every fair schedule, on any ring that is alive and hands over its events in order, both
engines come to report `l` after `n` operations in throughput mode. -/
def EventuallyReports (n : ℕ) (l : Line) : Prop :=
  ∀ {ρ H : Type} (R : Hdr H) (D : Disruptor ρ) (pending : ρ → List Ev) (claimed : ρ → Prop),
    D.Ordered pending → D.Alive pending claimed → ∀ (ring : ρ), pending ring = [] →
    ∀ (c : Params) (origin : Int64) (hist : H) (sched : ℕ → Turn), c.totalOps.toInt = n →
      c.rate ≤ 0 → Harness.Scheduled sched →
      Eventually (Harness.step Book.engine R D c origin)
        (Harness.start origin ring { book := {}, hist }) sched
          (fun s => ∃ rep, s.core.report = some rep ∧ rep.line = l) ∧
      ∃ b₀, TunedBook.new c.totalOps = some b₀ ∧
        Eventually (Harness.step TunedBook.engine R D c origin)
          (Harness.start origin ring { book := b₀, hist }) sched
            fun s => ∃ rep, s.core.report = some rep ∧ rep.line = l

theorem eventuallyReports (hn : n + 2 < 2 ^ 30) : EventuallyReports n (reference n) := by
  intro ρ H R D pending claimed hD hA ring hring c origin hist sched htotal hrate hsched
  have halways := fun turns =>
    alwaysReports hn R D pending hD ring hring c origin hist turns htotal
  have hun := Params.interval_of_rate hrate
  constructor
  · refine (Harness.returns_of_scheduled hD hA hring hun rfl (Harness.serves_book c) hsched).mono ?_
    rintro turns s hrun ⟨rep, hrep, -⟩
    exact ⟨rep, hrep, (halways turns).1 s rep hrun hrep⟩
  · obtain ⟨b₀, hnew, hserves⟩ := Harness.exists_serves_tuned (c := c) (by omega) (by omega)
    refine ⟨b₀, hnew, (Harness.returns_of_scheduled hD hA hring hun rfl hserves hsched).mono ?_⟩
    rintro turns s hrun ⟨rep, hrep, -⟩
    exact ⟨rep, hrep, (halways turns).2 b₀ hnew s rep hrun hrep⟩

end Java

/-- **The suite completes.** Below `2 ^ 30` operations, all eight programs come to report what the
exchange says about the generated stream, under every fair schedule, with a warmup that is not
longer than the run in C++. -/
theorem suite_completes {n : ℕ} (hn : n + 2 < 2 ^ 30) :
    Cpp.EventuallyReports n (reference n) ∧ Go.EventuallyReports n (reference n) ∧
      Rust.EventuallyReports n (reference n) ∧ Java.EventuallyReports n (reference n) :=
  ⟨Cpp.eventuallyReports hn, Go.eventuallyReports hn, Rust.eventuallyReports (by omega),
    Java.eventuallyReports hn⟩

/-- The numbers of operations in the two modes of the programs. -/
theorem suite_completes_default :
    (Cpp.EventuallyReports 10000000 (reference 10000000) ∧
      Go.EventuallyReports 10000000 (reference 10000000) ∧
        Rust.EventuallyReports 10000000 (reference 10000000) ∧
          Java.EventuallyReports 10000000 (reference 10000000)) ∧
    Cpp.EventuallyReports 2000000 (reference 2000000) ∧
      Go.EventuallyReports 2000000 (reference 2000000) ∧
        Rust.EventuallyReports 2000000 (reference 2000000) ∧
          Java.EventuallyReports 2000000 (reference 2000000) :=
  ⟨suite_completes (by decide), suite_completes (by decide)⟩

end LmaxBench
