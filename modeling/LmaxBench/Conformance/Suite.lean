import LmaxBench.Conformance.Engines

/-!
# The suite reports the same

The eight programs, four harnesses with two engines each, print the same statistics for the same
number of operations, whatever the interleaving of their threads, the rate, the warmup and the
clock: those of the exchange on the generated stream.

## Main definitions

* `reference` — what should be printed.
* `Cpp.AlwaysReports`, `Go.AlwaysReports`, `Rust.AlwaysReports`, `Java.AlwaysReports` — the programs
  of one language, under every interleaving.
* `suite_agrees` — all of them.
-/

namespace LmaxBench

variable {n : ℕ}

/-- What `n` operations should lead to. -/
def reference (n : ℕ) : Line := (Cpp.Market.run ((Cpp.Gen.new 42).ops n)).line

@[simp] theorem Cpp.Gen.length_ops (n : ℕ) : ((Cpp.Gen.new 42).ops n).length = n := by simp [ops]

theorem Cpp.Gen.noLiveReuse_ops (hn : n < 2 ^ 64) :
    Cpp.Book.NoLiveReuse {} ((Cpp.Gen.new 42).ops n) :=
  Cpp.Book.noLiveReuse_of_neverReused (neverReused_ops 42 hn)

theorem Cpp.Book.line_ops (hn : n < 2 ^ 64) :
    (Cpp.Book.run ((Cpp.Gen.new 42).ops n)).line = reference n :=
  line_market (Gen.neverReused_ops 42 hn)

/-! ## C++ -/

namespace Cpp

def Report.line (r : Report) : Line := ⟨r.fills, r.volume, r.resting, r.checksum⟩

theorem Harness.Reports.line_eq {σ : Type} {E : Engine σ} {b : σ} {rep : Report} {l : Line}
    {maxId : UInt64} {ops : List Op} (h : Reports E b rep)
    (hline : (E.run maxId ops).bind E.line = some l) (hb : E.run maxId ops = some b) :
    rep.line = l := by
  rw [hb, Option.bind_some, Engine.line, h.checksum, Option.map_some] at hline
  rw [Report.line, h.fills, h.volume, h.resting]
  exact Option.some.inj hline

/-- Whatever the interleaving and the size of the ring, both engines report `l` after `n`
operations. -/
def AlwaysReports (n : ℕ) (l : Line) : Prop :=
  ∀ (c : Params) (k : ℕ) (now : UInt64) (turns : List Turn), c.totalOps.toNat = n →
    c.size.toNat = 2 ^ k →
    (∀ s, Harness.run Book.engine c now turns = some s → s.pipe.consumer = .stopped →
      s.rep.line = l) ∧
    ∀ s, Harness.run TunedBook.engine c now turns = some s → s.pipe.consumer = .stopped →
      s.rep.line = l

theorem alwaysReports (hn : n < 2 ^ 64 - 2) : AlwaysReports n (reference n) := by
  intro c k now turns htotal hsize
  rw [← Book.line_ops (by omega)]
  constructor
  · intro s hrun hstop
    obtain ⟨-, b, hb, hrep⟩ := (Harness.inv_run hsize (by omega) hrun).reports hsize hstop
    rw [htotal] at hb
    exact hrep.line_eq (Book.line_engine _ _) hb
  · intro s hrun hstop
    obtain ⟨t₀, hnew⟩ := Harness.exists_new_of_run hrun
    obtain ⟨-, t, ht, hrep⟩ := (Harness.inv_run hsize (by omega) hrun).reports hsize hstop
    rw [htotal] at ht
    exact hrep.line_eq (TunedBook.line_engine (by omega) (TunedBook.le_of_new hnew)
      (Gen.inRange_ops 42 htotal.ge) (Gen.noLiveReuse_ops (by omega))) ht

end Cpp

/-! ## Go -/

namespace Go

variable {H : Type}

def Report.line (r : Report H) : Line := r.stats.line

theorem Report.line_eq {σ : Type} {E : Engine σ} {b : σ} {rep : Report H} {l : Line}
    {maxId : UInt64} {ops : List Cpp.Op} (hstats : E.stats b = some rep.stats)
    (hline : (E.run maxId ops).bind E.line = some l) (hb : E.run maxId ops = some b) :
    rep.line = l := by
  rw [hb, Option.bind_some, Engine.line, hstats, Option.map_some] at hline
  exact Option.some.inj hline

/-- Whatever the interleaving and the histogram, both engines report `l` after `n` operations. -/
def AlwaysReports (n : ℕ) (l : Line) : Prop :=
  ∀ {H : Type} (R : Hdr H) (c : Params) (t₀ : UInt64) (turns : List Turn), c.totalOps.toNat = n →
    (∀ s rep, Harness.run Book.engine R c t₀ turns = some s → s.done = some rep → rep.line = l) ∧
    ∀ s rep, Harness.run TunedBook.engine R c t₀ turns = some s → s.done = some rep → rep.line = l

theorem alwaysReports (hn : n < 2 ^ 63) : AlwaysReports n (reference n) := by
  intro H R c t₀ turns htotal
  have hreuse := Cpp.Gen.noLiveReuse_ops (n := n) (by omega)
  rw [← Cpp.Book.line_ops (by omega)]
  constructor
  · intro s rep hrun hrep
    obtain ⟨b, hb, hstats⟩ := ((Harness.inv_run hrun).delivered hrep).stats
    rw [Gen.ops_eq, htotal] at hb
    exact Report.line_eq hstats (Book.line_engine _ hreuse) hb
  · intro s rep hrun hrep
    obtain ⟨b₀, hnew⟩ := Harness.exists_new_of_run hrun
    obtain ⟨b, hb, hstats⟩ := ((Harness.inv_run hrun).delivered hrep).stats
    rw [Gen.ops_eq, htotal] at hb
    have hlen := Cpp.Gen.length_ops n
    exact Report.line_eq hstats (TunedBook.line_engine (by omega) (Harness.le_of_new_tuned hnew)
      (by omega) (Cpp.Gen.inRange_ops 42 htotal.ge) hreuse) hb

end Go

/-! ## Rust -/

namespace Rust

variable {H : Type}

def Report.line (r : Report H) : Line := lineOf r.stats

theorem Report.line_eq {b₀ b : AnyBook} {rep : Report H} {l : Line} {ops : List Cpp.Op}
    (hstats : b.stats = some rep.stats) (hline : (b₀.run ops).bind AnyBook.line = some l)
    (hb : b₀.run ops = some b) : rep.line = l := by
  rw [hb, Option.bind_some, AnyBook.line, hstats, Option.map_some] at hline
  exact Option.some.inj hline

/-- Whatever the interleaving and the histogram, on any ring that hands over its events in order,
both engines report `l` after `n` operations. -/
def AlwaysReports (n : ℕ) (l : Line) : Prop :=
  ∀ {ρ H : Type} (R : Hdr H) (D : Disruptor ρ) (pending : ρ → List Event), D.Ordered pending →
    ∀ (ring : ρ), pending ring = [] → ∀ (c : Params) (tuned : Bool) (hist : H) (t₀ : UInt64)
      (turns : List Turn), c.totalOps.toNat = n →
      ∀ s rep, Harness.run R D c (Harness.engineFromEnv tuned) hist ring t₀ turns = some s →
        s.core.report = some rep → rep.line = l

theorem alwaysReports (hn : n < 2 ^ 64) : AlwaysReports n (reference n) := by
  intro ρ H R D pending hD ring hring c tuned hist t₀ turns htotal s rep hrun hrep
  have hreuse := Cpp.Gen.noLiveReuse_ops hn
  obtain ⟨interval, -, -, hinv⟩ := Harness.inv_run hD hring hrun
  obtain ⟨b, hb, hstats⟩ := (hinv.delivered hrep).stats
  rw [htotal, Gen.ops_eq] at hb
  rw [← Cpp.Book.line_ops hn]
  cases tuned with
  | false => exact Report.line_eq hstats (Book.line_engine hreuse) hb
  | true =>
    refine Report.line_eq hstats (TunedBook.line_engine ?_ hreuse) hb
    rw [← Gen.ops_eq]
    exact Harness.onLadder_ops n

end Rust

/-! ## Java -/

namespace Java

variable {H : Type}

def Report.line (r : Report H) : Line := lineOf r.stats

theorem Report.line_eq {σ : Type} {E : Engine σ} {b₀ b : σ} {rep : Report H} {l : Line}
    {ops : List Cpp.Op} (hstats : E.stats b = some rep.stats)
    (hline : (E.run b₀ ops).bind E.line = some l) (hb : E.run b₀ ops = some b) :
    rep.line = l := by
  rw [hb, Option.bind_some, Engine.line, hstats, Option.map_some] at hline
  exact Option.some.inj hline

theorem Workload.ops_eq_cpp (hn : n ≤ 2 ^ 63) :
    (Workload.new 42).ops n = (Cpp.Gen.new 42).ops n := by
  have hseed : (42 : Int64) = (42 : UInt64).toInt64 := by decide
  rw [hseed, Workload.ops_eq 42 hn]

/-- Whatever the interleaving, the clock and the histogram, on any ring that hands over its events
in order, both engines report `l` after `n` operations. -/
def AlwaysReports (n : ℕ) (l : Line) : Prop :=
  ∀ {ρ H : Type} (R : Hdr H) (D : Disruptor ρ) (pending : ρ → List Ev), D.Ordered pending →
    ∀ (ring : ρ), pending ring = [] → ∀ (c : Params) (origin : Int64) (hist : H)
      (turns : List Turn), c.totalOps.toInt = n →
      (∀ s rep, Harness.run Book.engine R D c origin ring { book := {}, hist } turns = some s →
        s.core.report = some rep → rep.line = l) ∧
      ∀ b₀, TunedBook.new c.totalOps = some b₀ →
        ∀ s rep,
          Harness.run TunedBook.engine R D c origin ring { book := b₀, hist } turns = some s →
          s.core.report = some rep → rep.line = l

theorem alwaysReports (hn : n + 2 < 2 ^ 30) : AlwaysReports n (reference n) := by
  intro ρ H R D pending hD ring hring c origin hist turns htotal
  have hcount : c.count = n := by
    rw [Params.count, htotal, Int.toNat_natCast]
  have hreuse := Cpp.Gen.noLiveReuse_ops (n := n) (by omega)
  have hlen := Cpp.Gen.length_ops n
  rw [← Cpp.Book.line_ops (by omega)]
  constructor
  · intro s rep hrun hrep
    obtain ⟨-, b, hb, hstats⟩ := (Harness.inv_run hD hring rfl hrun).delivered hrep
    rw [hcount, Workload.ops_eq_cpp (by omega)] at hb
    exact Report.line_eq hstats (Book.line_engine (by omega) hreuse) hb
  · intro b₀ hnew s rep hrun hrep
    obtain ⟨-, b, hb, hstats⟩ := (Harness.inv_run hD hring rfl hrun).delivered hrep
    rw [hcount, Workload.ops_eq_cpp (by omega)] at hb
    obtain ⟨maxId, hmaxId⟩ : ∃ m : UInt64, c.totalOps = m.toInt64 :=
      ⟨c.totalOps.toUInt64, c.totalOps.toInt64_toUInt64.symm⟩
    have hnat := Word.toInt_eq_toNat_of_nonneg (by omega : 0 ≤ c.totalOps.toInt)
    rw [hmaxId, UInt64.toUInt64_toInt64] at hnat
    rw [hmaxId] at htotal hnew
    have hmax : maxId.toNat = n := by omega
    have hline := TunedBook.line_engine (by omega) (by omega)
      (Cpp.Gen.inRange_ops 42 hmax.ge) hreuse
    rw [TunedBook.run, hnew, ← Harness.apply_tuned, Option.bind_eq_bind, Option.bind_some] at hline
    exact Report.line_eq hstats hline hb

end Java

/-- **The suite agrees.** Below `2 ^ 30` operations, all eight programs report what the exchange
says about the generated stream, under every interleaving of their threads, for every rate and
warmup, and whatever the clocks show. -/
theorem suite_agrees {n : ℕ} (hn : n + 2 < 2 ^ 30) :
    Cpp.AlwaysReports n (reference n) ∧ Go.AlwaysReports n (reference n) ∧
      Rust.AlwaysReports n (reference n) ∧ Java.AlwaysReports n (reference n) :=
  ⟨Cpp.alwaysReports (by omega), Go.alwaysReports (by omega), Rust.alwaysReports (by omega),
    Java.alwaysReports hn⟩

/-- The numbers of operations in the two modes of the programs. -/
theorem suite_agrees_default :
    (Cpp.AlwaysReports 10000000 (reference 10000000) ∧
      Go.AlwaysReports 10000000 (reference 10000000) ∧
        Rust.AlwaysReports 10000000 (reference 10000000) ∧
          Java.AlwaysReports 10000000 (reference 10000000)) ∧
    Cpp.AlwaysReports 2000000 (reference 2000000) ∧ Go.AlwaysReports 2000000 (reference 2000000) ∧
      Rust.AlwaysReports 2000000 (reference 2000000) ∧
        Java.AlwaysReports 2000000 (reference 2000000) :=
  ⟨suite_agrees (by decide), suite_agrees (by decide)⟩

end LmaxBench
