import LmaxBench.Conformance.Books
import LmaxBench.Cpp.HarnessRun
import LmaxBench.Cpp.MarketRun
import LmaxBench.Cpp.Reorder
import LmaxBench.Cpp.TunedBounds
import LmaxBench.Go.HarnessFinish
import LmaxBench.Java.HarnessRun
import LmaxBench.Rust.HarnessRun

/-!
# The engines conform

What an engine has to report is said without queues, ladders or stale entries: it is read off the
exchange, on which live orders wait in price-time priority. All eight engines, two in each of four
languages, report that after any operations that use no id twice.

## Main definitions

* `Line` — the statistics that are printed.
* `Cpp.Engine.line`, `Go.Engine.line`, `Rust.AnyBook.line`, `Java.Engine.line` — those of an engine.
* `Cpp.Market.line` — those of the exchange.
* `EnginesReport`, `engines_conform` — the eight engines.
* `engines_interleave` — buyers and sellers that do not cross, in any order.
-/

namespace LmaxBench

/-- The line `fills=.. volume=.. resting=.. checksum=..` of a report. -/
structure Line where
  fills : UInt64
  volume : UInt64
  resting : ℤ
  checksum : UInt64
  deriving DecidableEq

variable {σ : Type}

def Cpp.Market.line (m : Cpp.Market) : Line := ⟨m.fills, m.volume, m.resting, m.checksum⟩

def Cpp.Book.line (b : Cpp.Book) : Line := ⟨b.fills, b.volume, b.resting, b.checksum⟩

def Cpp.Engine.line (E : Cpp.Engine σ) (b : σ) : Option Line :=
  (E.checksum b).map fun checksum => ⟨E.fills b, E.volume b, E.resting b, checksum⟩

def Go.Stats.line (s : Go.Stats) : Line := ⟨s.1, s.2.1, s.2.2.1, s.2.2.2⟩

def Go.Engine.line (E : Go.Engine σ) (b : σ) : Option Line := (E.stats b).map Go.Stats.line

def Rust.lineOf (s : UInt64 × UInt64 × ℕ × UInt64) : Line := ⟨s.1, s.2.1, s.2.2.1, s.2.2.2⟩

def Rust.AnyBook.line (b : Rust.AnyBook) : Option Line := b.stats.map Rust.lineOf

/-- `%d` and `%016x` of the words; the counters are read as unsigned. -/
def Java.lineOf (s : Int64 × Int64 × Int32 × Int64) : Line :=
  ⟨s.1.toUInt64, s.2.1.toUInt64, s.2.2.1.toInt, s.2.2.2.toUInt64⟩

def Java.Engine.line (E : Java.Engine σ) (b : σ) : Option Line := (E.stats b).map Java.lineOf

/-! ## The book and the exchange -/

namespace Cpp

/-- A book has no more orders than were submitted. -/
theorem Book.Placed.size_le {ops : List Op} {b : Book} (h : b.Placed ops) :
    b.orders.size ≤ ops.length := by
  have hsub : b.orders.entries.map Prod.fst ⊆ limitIds ops := by
    intro id hid
    obtain ⟨⟨id, r⟩, he, rfl⟩ := List.mem_map.mp hid
    obtain ⟨side, qty, -, hop, -⟩ := h.record (OrdMap.mem_entries.mp he)
    exact mem_limitIds.mpr ⟨side, r.price, qty, hop⟩
  have hle := (b.orders.keys_nodup.subperm hsub).length_le
  rw [List.length_map] at hle
  exact hle.trans (List.length_filterMap_le _ _)

theorem Book.size_run_le {ops : List Op} (h : Book.NoLiveReuse {} ops) :
    (Book.run ops).orders.size ≤ ops.length :=
  (Book.placed_run h).size_le

/-- **The book reports what the exchange says.** -/
theorem Book.line_market {ops : List Op} (h : NeverReused ops) :
    (Book.run ops).line = (Market.run ops).line := by
  have hplaced := Book.placed_run (Book.noLiveReuse_of_neverReused h)
  have hresting := Book.market_resting h hplaced (Book.wellFormed_run ops)
  have hchecksum := Book.market_checksum h hplaced
  rw [Market.line, ← Book.market_run h, hresting, hchecksum]
  rfl

theorem Book.line_engine (maxId : UInt64) (ops : List Op) :
    (Book.engine.run maxId ops).bind Book.engine.line = some (Book.run ops).line := by
  rw [Harness.run_book]
  rfl

theorem TunedBook.line_engine {maxId : UInt64} (hmax : maxId.toNat < 2 ^ 64 - 2)
    (hfits : (maxId + 2).toNat ≤ maxSize 16) {ops : List Op} (hops : ∀ op ∈ ops, op.InRange maxId)
    (hreuse : Book.NoLiveReuse {} ops) :
    (TunedBook.engine.run maxId ops).bind TunedBook.engine.line = some (Book.run ops).line := by
  obtain ⟨t, ht, h, hlen⟩ := TunedBook.run_holds hmax hops hreuse
  have hline : TunedBook.engine.line t =
      t.checksum.map fun sum => ⟨t.fills, t.volume, t.resting, sum⟩ := rfl
  have hresting : t.resting = (Book.run ops).orders.size := (h.live_toNat hmax hlen).2
  rw [Harness.run_tuned hfits, ht, Option.bind_some, hline, checksum_holds h, Option.map_some,
    h.fills_eq, h.volume_eq, hresting]
  rfl

end Cpp

/-! ## The other engines -/

section

variable {maxId : UInt64} {ops : List Cpp.Op}

theorem Go.Book.line_engine (maxId : UInt64) (hreuse : Cpp.Book.NoLiveReuse {} ops) :
    (Go.Book.engine.run maxId ops).bind Go.Book.engine.line = some (Cpp.Book.run ops).line := by
  obtain ⟨g, hg, h⟩ := Go.Book.run_holds ops
  rw [Cpp.Book.foldl_applyAssign hreuse] at h
  rw [Harness.run_book, hg, Option.bind_some, Engine.line, Harness.stats_of_holds h]
  rfl

theorem Go.TunedBook.line_engine (hmax : maxId.toNat < 2 ^ 64 - 2)
    (hfits : (maxId + 2).toNat ≤ maxLen) (hlen : ops.length < 2 ^ 63)
    (hops : ∀ op ∈ ops, op.InRange maxId) (hreuse : Cpp.Book.NoLiveReuse {} ops) :
    (Go.TunedBook.engine.run maxId ops).bind Go.TunedBook.engine.line =
      some (Cpp.Book.run ops).line := by
  obtain ⟨t, ht, h, hslots⟩ := Cpp.TunedBook.run_holds hmax hops hreuse
  obtain ⟨g, hg, rfl, -⟩ := TunedBook.run_follows hops t ht
  obtain ⟨sum, hsum, rfl⟩ := TunedBook.checksum_follows (Cpp.TunedBook.head_le hmax hops ht) _
    (Cpp.TunedBook.checksum_holds h)
  have hsize := Cpp.Book.size_run_le hreuse
  have hlive := (h.live_toNat hmax hslots).2
  have hshort : t.live.toNat < 2 ^ 63 := by omega
  have hint : t.live.toInt64.toInt = t.live.toNat := Word.toInt_eq_toNat hshort
  have hline : TunedBook.engine.line (TunedBook.ofCpp t) = (TunedBook.ofCpp t).checksum.map
      fun sum => ⟨t.fills, t.volume, t.live.toInt64.toInt, sum⟩ := Option.map_map ..
  rw [Harness.run_tuned hfits, hg, Option.bind_some, hline, hsum, Option.map_some, hint, hlive,
    h.fills_eq, h.volume_eq]
  rfl

theorem Rust.Book.line_engine (hreuse : Cpp.Book.NoLiveReuse {} ops) :
    ((Harness.engineFromEnv false).run ops).bind AnyBook.line = some (Cpp.Book.run ops).line := by
  have hrun : ops.foldl Book.apply {} = Book.ofCpp (Cpp.Book.run ops) := by
    rw [Cpp.Book.run, ← Cpp.Book.foldl_applyAssign hreuse]
    exact Book.run_eq ops
  have hbook : (Harness.engineFromEnv false).run ops = some (.idio (ops.foldl Book.apply {})) :=
    Harness.run_idio {} ops
  rw [hbook, hrun, Option.bind_some, AnyBook.line, AnyBook.stats, Option.map_some,
    Book.checksum_ofCpp]
  rfl

theorem Rust.TunedBook.line_engine (hops : ∀ op ∈ ops, TunedBook.OnLadder op)
    (hreuse : Cpp.Book.NoLiveReuse {} ops) :
    ((Harness.engineFromEnv true).run ops).bind AnyBook.line = some (Cpp.Book.run ops).line := by
  obtain ⟨t, ht, h⟩ := TunedBook.run_holds hops
  rw [Cpp.Book.foldl_applyAssign hreuse] at h
  have hbook : (Harness.engineFromEnv true).run ops = (TunedBook.run ops).map AnyBook.tuned :=
    Harness.run_tuned {} ops
  have hstats : (AnyBook.tuned t).stats =
      t.checksum.bind fun sum => some (t.fills, t.volume, t.orders.size, sum) := rfl
  rw [hbook, ht, Option.map_some, Option.bind_some, AnyBook.line, hstats,
    TunedBook.checksum_holds h, h.fills_eq, h.volume_eq, h.orders_eq]
  rfl

/-- `size()` is exact as long as an `int` can hold it. -/
theorem Java.Book.line_engine (hlen : ops.length < 2 ^ 31) (hreuse : Cpp.Book.NoLiveReuse {} ops) :
    (Java.Book.engine.run {} ops).bind Java.Book.engine.line = some (Cpp.Book.run ops).line := by
  have hsize := Cpp.Book.size_run_le hreuse
  have hrun : ops.foldl Book.apply {} = Book.ofRust (Rust.Book.ofCpp (Cpp.Book.run ops)) := by
    rw [Cpp.Book.run, ← Cpp.Book.foldl_applyAssign hreuse]
    exact (Book.run_eq ops).trans (congrArg Book.ofRust (Rust.Book.run_eq ops))
  have hresting : (Book.ofRust (Rust.Book.ofCpp (Cpp.Book.run ops))).resting.toInt =
      ((Cpp.Book.run ops).orders.size : ℤ) :=
    (Book.toInt_resting _).trans (min_eq_left (by
      have horders : (Book.ofRust (Rust.Book.ofCpp (Cpp.Book.run ops))).orders =
          (Cpp.Book.run ops).orders := rfl
      rw [horders]
      omega))
  have hline : ∀ b : Book, Book.engine.line b =
      some ⟨b.fills.toUInt64, b.volume.toUInt64, b.resting.toInt, b.checksum.toUInt64⟩ :=
    fun _ => rfl
  rw [Harness.run_book, hrun, Option.bind_some, hline, hresting, Book.checksum_ofRust,
    Rust.Book.checksum_ofCpp, UInt64.toUInt64_toInt64]
  rfl

theorem Java.TunedBook.line_engine (hmax : maxId.toNat + 2 < 2 ^ 30) (hlen : ops.length < 2 ^ 30)
    (hops : ∀ op ∈ ops, op.InRange maxId) (hreuse : Cpp.Book.NoLiveReuse {} ops) :
    (Java.TunedBook.run maxId.toInt64 ops).bind Java.TunedBook.engine.line =
      some (Cpp.Book.run ops).line := by
  obtain ⟨t, ht, h, hslots⟩ := Cpp.TunedBook.run_holds (by omega) hops hreuse
  obtain ⟨g, hg, rfl, -⟩ := Go.TunedBook.run_follows hops t ht
  obtain ⟨b, hb, hfollows⟩ := TunedBook.run_follows hmax hlen hops _ hg
  obtain ⟨c, hc, rfl⟩ := Go.TunedBook.checksum_follows (Cpp.TunedBook.head_le (by omega) hops ht) _
    (Cpp.TunedBook.checksum_holds h)
  obtain ⟨sum, hsum, hbits⟩ := TunedBook.checksum_follows (by omega) hfollows _ hc
  have hsize := Cpp.Book.size_run_le hreuse
  have hlive := (h.live_toNat (by omega) hslots).2
  have hshort : t.live.toNat < 2 ^ 31 := by omega
  have hint : b.live.toInt = t.live.toNat := by
    rw [hfollows.live_eq]
    exact toInt_toInt32_id hshort
  have hline : TunedBook.engine.line b = b.checksum.map fun sum =>
      ⟨b.fills.toUInt64, b.volume.toUInt64, b.live.toInt, sum.toUInt64⟩ := by
    rw [Engine.line, Engine.stats, Option.map_map]
    rfl
  have hf : (Go.TunedBook.ofCpp t).fills = t.fills := rfl
  have hv : (Go.TunedBook.ofCpp t).volume = t.volume := rfl
  rw [hb, Option.bind_some, hline, hsum, Option.map_some, hint, hlive, hbits, hfollows.fills_eq,
    hfollows.volume_eq, hf, hv, h.fills_eq, h.volume_eq]
  rfl

end

/-! ## All eight -/

/-- After `ops`, built for ids up to `maxId`, all engines report `l`. -/
structure EnginesReport (maxId : UInt64) (ops : List Cpp.Op) (l : Line) : Prop where
  cpp : (Cpp.Book.engine.run maxId ops).bind Cpp.Book.engine.line = some l
  cpp_tuned : (Cpp.TunedBook.engine.run maxId ops).bind Cpp.TunedBook.engine.line = some l
  go : (Go.Book.engine.run maxId ops).bind Go.Book.engine.line = some l
  go_tuned : (Go.TunedBook.engine.run maxId ops).bind Go.TunedBook.engine.line = some l
  rust : ((Rust.Harness.engineFromEnv false).run ops).bind Rust.AnyBook.line = some l
  rust_tuned : ((Rust.Harness.engineFromEnv true).run ops).bind Rust.AnyBook.line = some l
  java : (Java.Book.engine.run {} ops).bind Java.Book.engine.line = some l
  java_tuned : (Java.TunedBook.run maxId.toInt64 ops).bind Java.TunedBook.engine.line = some l

theorem onLadder_of_inRange {maxId : UInt64} {op : Cpp.Op} (h : op.InRange maxId) :
    Rust.TunedBook.OnLadder op := by
  cases op with
  | limit side price qty id => exact h.1
  | cancel id => trivial

/-- A short tuned book can be constructed. -/
theorem fits_of_short {maxId : UInt64} (hmax : maxId.toNat + 2 < 2 ^ 30) :
    (maxId + 2).toNat ≤ Cpp.maxSize 16 ∧ (maxId + 2).toNat ≤ Go.maxLen := by
  have htwo : (2 : UInt64).toNat = 2 := rfl
  have hword : (maxId + 2).toNat = maxId.toNat + 2 := Word.toNat_add_of_lt (by omega)
  have hsize : 2 ^ 30 ≤ Cpp.maxSize 16 := by decide
  have hlen : 2 ^ 30 ≤ Go.maxLen := by decide
  omega

theorem enginesReport {maxId : UInt64} (hmax : maxId.toNat + 2 < 2 ^ 30) {ops : List Cpp.Op}
    (hlen : ops.length < 2 ^ 30) (hops : ∀ op ∈ ops, op.InRange maxId)
    (hreuse : Cpp.Book.NoLiveReuse {} ops) : EnginesReport maxId ops (Cpp.Book.run ops).line where
  cpp := Cpp.Book.line_engine maxId ops
  cpp_tuned := Cpp.TunedBook.line_engine (by omega) (fits_of_short hmax).1 hops hreuse
  go := Go.Book.line_engine maxId hreuse
  go_tuned := Go.TunedBook.line_engine (by omega) (fits_of_short hmax).2 (by omega) hops hreuse
  rust := Rust.Book.line_engine hreuse
  rust_tuned := Rust.TunedBook.line_engine (fun op hop => onLadder_of_inRange (hops op hop)) hreuse
  java := Java.Book.line_engine (by omega) hreuse
  java_tuned := Java.TunedBook.line_engine hmax hlen hops hreuse

/-- **The engines conform.** On every sequence of operations in range that uses no id twice, all
eight engines get through without a fault and report what the exchange says. -/
theorem engines_conform {maxId : UInt64} (hmax : maxId.toNat + 2 < 2 ^ 30) {ops : List Cpp.Op}
    (hlen : ops.length < 2 ^ 30) (hops : ∀ op ∈ ops, op.InRange maxId)
    (h : Cpp.NeverReused ops) : EnginesReport maxId ops (Cpp.Market.run ops).line :=
  Cpp.Book.line_market h ▸
    enginesReport hmax hlen hops (Cpp.Book.noLiveReuse_of_neverReused h)

/-- A partial fill, a stale entry that is passed over, and a residual. -/
theorem engines_conform_stale :
    EnginesReport 5
      [.limit 1 12 5 1, .limit 1 12 4 2, .limit 1 13 2 3, .cancel 2, .limit 0 13 6 4,
        .limit 0 9 2 5]
      (Cpp.Market.run [.limit 1 12 5 1, .limit 1 12 4 2, .limit 1 13 2 3, .cancel 2,
        .limit 0 13 6 4, .limit 0 9 2 5]).line :=
  engines_conform (by decide) (by decide) (by decide) (by decide)

/-- **Buyers and sellers that do not cross may come in any order.** If the limits of two sequences
are the same for the buyers, in their order, and for the sellers, in theirs, and no buyer crosses a
seller, then all eight engines report the same with either, whatever came before and comes after. -/
theorem engines_interleave {maxId : UInt64} (hmax : maxId.toNat + 2 < 2 ^ 30)
    {pre ops ops' post : List Cpp.Op} (hlen : (pre ++ (ops ++ post)).length < 2 ^ 30)
    (hops : ∀ op ∈ pre ++ (ops ++ post), op.InRange maxId)
    (h : Cpp.NeverReused (pre ++ (ops ++ post)))
    (hfar : ∀ op ∈ ops, ∀ op' ∈ ops, Cpp.Book.Far op op')
    (hbuys : ops.filter Cpp.Book.IsBuy = ops'.filter Cpp.Book.IsBuy)
    (hsells : ops.filter (fun op => ¬Cpp.Book.IsBuy op) =
      ops'.filter (fun op => ¬Cpp.Book.IsBuy op)) :
    ∃ l, EnginesReport maxId (pre ++ (ops ++ post)) l ∧
      EnginesReport maxId (pre ++ (ops' ++ post)) l := by
  have hperm : ops.Perm ops' := by
    have hsplit : ∀ l : List Cpp.Op,
        (l.filter Cpp.Book.IsBuy ++ l.filter (fun op => ¬Cpp.Book.IsBuy op)).Perm l := by
      intro l
      simpa using List.filter_append_perm (fun op => decide (Cpp.Book.IsBuy op)) l
    refine (hsplit ops).symm.trans ?_
    rw [hbuys, hsells]
    exact hsplit ops'
  have hfar' : ∀ op ∈ ops', ∀ op' ∈ ops', Cpp.Book.Far op op' := fun op hop op' hop' =>
    hfar op (hperm.mem_iff.mpr hop) op' (hperm.mem_iff.mpr hop')
  have hreordered := Cpp.Book.reordered_far hfar pre post
  rw [hbuys, hsells] at hreordered
  obtain ⟨h', hrun, -⟩ := Cpp.Book.market_reordered h
    (hreordered.trans (Cpp.Book.reordered_far hfar' pre post).symm)
  have hall : (pre ++ (ops ++ post)).Perm (pre ++ (ops' ++ post)) :=
    List.Perm.append_left pre (hperm.append_right post)
  have hline : (Cpp.Book.run (pre ++ (ops ++ post))).line =
      (Cpp.Book.run (pre ++ (ops' ++ post))).line := by
    rw [Cpp.Book.line_market h, Cpp.Book.line_market h', hrun]
  refine ⟨_, enginesReport hmax hlen hops (Cpp.Book.noLiveReuse_of_neverReused h), ?_⟩
  rw [hline]
  exact enginesReport hmax (hall.length_eq ▸ hlen) (fun op hop => hops op (hall.mem_iff.mpr hop))
    (Cpp.Book.noLiveReuse_of_neverReused h')

/-- Two buyers and two sellers after an order that one of the buyers trades with. -/
theorem engines_interleave_two :
    ∃ l, EnginesReport 6 ([.limit 1 12 5 1] ++ ([.limit 0 12 7 2, .limit 1 14 4 3, .limit 0 13 1 4,
        .limit 1 14 2 5] ++ [.cancel 3])) l ∧
      EnginesReport 6 ([.limit 1 12 5 1] ++ ([.limit 1 14 4 3, .limit 1 14 2 5, .limit 0 12 7 2,
        .limit 0 13 1 4] ++ [.cancel 3])) l :=
  engines_interleave (by decide) (by decide) (by decide) (by decide) (by decide) rfl rfl

end LmaxBench
