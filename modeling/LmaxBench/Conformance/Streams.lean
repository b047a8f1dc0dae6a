import LmaxBench.Lib.Signed
import LmaxBench.Cpp.Stream
import LmaxBench.Go.Workload
import LmaxBench.Rust.Workload
import LmaxBench.Java.Workload

/-!
# The four generators emit the same stream

The generators of the four suites, step by step against `Cpp.Gen`. The Go and the Rust
generator go in step from any state. The Java generator compares as signed what the
others compare as unsigned, so it is followed along the run: the mid price stays between
its clamps and the last id below `2 ^ 63`, where both readings are the same.

## Main definitions

* `Emission` — the out-parameters of one step.
* `Java.Workload.Tracks` — a Java generator in the state of the C++ one.
* `streams_agree` — the first `n < 2 ^ 63` emissions of the four are the same.
-/

namespace LmaxBench

/-- What a generator emits in one step. -/
structure Emission where
  kind : UInt8
  side : UInt8
  price : ℤ
  qty : ℤ
  id : UInt64
  deriving DecidableEq, Repr

namespace Cpp.Gen

def emission (g : Gen) : Emission := ⟨g.kind, g.side, g.price, g.qty, g.id⟩

/-- The first `n` emissions from a seed. -/
def emissions (seed : UInt64) (n : ℕ) : List Emission :=
  (List.range n).map fun i => ((new seed).after (i + 1)).emission

end Cpp.Gen

/-! ## Go -/

namespace Go.Gen

theorem sideBid_eq : sideBid = Cpp.sideBid := rfl

def emission (g : Gen) : Emission := ⟨g.kind, g.side, g.price, g.qty, g.id⟩

def emissions (seed : UInt64) (n : ℕ) : List Emission :=
  (List.range n).map fun i => ((new seed).after (i + 1)).emission

/-- The two generators are in the same state, but for the out-parameters. -/
structure Tracks (g : Gen) (c : Cpp.Gen) : Prop where
  rng : g.rng.state = c.rng.state
  mid : g.mid = c.mid
  lastId : g.lastID = c.lastId

theorem walk_eq (r : UInt64) (mid : ℤ) :
    (if r % 7 = 0 then min (max (mid + (((r >>> 40) % 3).toNat - 1)) 500) 1500 else mid) =
      Cpp.Gen.walk r mid := by
  rw [Cpp.Gen.walk]
  split <;> omega

/-- **One step**: the generators stay together and emit the same. -/
theorem Tracks.nextOp {g : Gen} {c : Cpp.Gen} (h : Tracks g c) :
    Tracks g.nextOp c.nextOp ∧ g.nextOp.emission = c.nextOp.emission := by
  have hr : g.rng.next.1 = c.rng.next.1 := by
    simp only [SplitMix64.next, Cpp.SplitMix64.next, h.rng]
  have hrng : g.rng.next.2.state = c.rng.next.2.state := by
    simp only [SplitMix64.next, Cpp.SplitMix64.next, h.rng]
  simp only [Gen.nextOp, Cpp.Gen.nextOp, walk_eq, hr, h.mid, h.lastId, sideBid_eq]
  generalize c.rng.next.1 = r
  by_cases hc : r % 100 < 85
  · simp only [if_pos hc]
    exact ⟨⟨hrng, rfl, rfl⟩, rfl⟩
  · simp only [if_neg hc]
    exact ⟨⟨hrng, rfl, rfl⟩, rfl⟩

theorem tracks_after (seed : UInt64) (n : ℕ) :
    Tracks ((new seed).after n) ((Cpp.Gen.new seed).after n) := by
  induction n with
  | zero => exact ⟨rfl, rfl, rfl⟩
  | succ n ih => exact ih.nextOp.1

end Go.Gen

/-! ## Rust -/

namespace Rust

theorem sideBid_eq : sideBid = Cpp.sideBid := rfl

def Op.emission (op : Op) : Emission := ⟨op.kind, op.side, op.price, op.qty, op.id⟩

theorem saturatingSub_eq (a b : UInt64) : saturatingSub a b = if a > b then a - b else 0 := by
  rw [saturatingSub]
  rcases lt_trichotomy a b with h | rfl | h
  · rw [if_neg (not_le.mpr h), if_neg (not_lt.mpr h.le)]
  · simp
  · rw [if_pos h.le, if_pos h]

namespace Gen

def emissions (seed : UInt64) (n : ℕ) : List Emission :=
  (List.range n).map fun i => ((new seed).after i).nextOp.1.emission

/-- The two generators are in the same state; only the out-parameters of the C++ one have
no counterpart. -/
structure Tracks (g : Gen) (c : Cpp.Gen) : Prop where
  rng : g.rng.state = c.rng.state
  mid : g.mid = c.mid
  lastId : g.lastId = c.lastId

theorem walk_eq (r : UInt64) (mid : ℤ) :
    (if r % 7 = 0 then clamp (mid + (((r >>> 40) % 3).toNat - 1)) 500 1500 else mid) =
      Cpp.Gen.walk r mid := by
  rw [Cpp.Gen.walk]
  split
  · rw [clamp]
    split
    · omega
    · split <;> omega
  · rfl

/-- **One step**: the generators stay together and emit the same. -/
theorem Tracks.nextOp {g : Gen} {c : Cpp.Gen} (h : Tracks g c) :
    Tracks g.nextOp.2 c.nextOp ∧ g.nextOp.1.emission = c.nextOp.emission := by
  have hr : g.rng.next.1 = c.rng.next.1 := by
    simp only [SplitMix64.next, Cpp.SplitMix64.next, h.rng]
  have hrng : g.rng.next.2.state = c.rng.next.2.state := by
    simp only [SplitMix64.next, Cpp.SplitMix64.next, h.rng]
  simp only [Gen.nextOp, Cpp.Gen.nextOp, walk_eq, saturatingSub_eq, hr, h.mid, h.lastId, sideBid_eq]
  generalize c.rng.next.1 = r
  by_cases hc : r % 100 < 85
  · simp only [if_pos hc]
    exact ⟨⟨hrng, rfl, rfl⟩, rfl⟩
  · simp only [if_neg hc]
    exact ⟨⟨hrng, rfl, rfl⟩, rfl⟩

theorem tracks_after (seed : UInt64) (n : ℕ) :
    Tracks ((new seed).after n) ((Cpp.Gen.new seed).after n) := by
  induction n with
  | zero => exact ⟨rfl, rfl, rfl⟩
  | succ n ih =>
    rw [after, Cpp.Gen.after]
    exact ih.nextOp.1

end Gen
end Rust

/-! ## Java -/

namespace Java

/-- The unsigned remainder by a small word, read as a signed word. -/
theorem toInt_remainderUnsigned (x : Int64) {y : Int64} (h0 : 0 < y.toUInt64.toNat)
    (h : y.toUInt64.toNat ≤ 2 ^ 63) :
    (remainderUnsigned x y).toInt = (x.toUInt64 % y.toUInt64).toNat := by
  refine Word.toInt_eq_toNat ?_
  have hmod : (x.toUInt64 % y.toUInt64).toNat < y.toUInt64.toNat := by
    rw [UInt64.toNat_mod]
    exact Nat.mod_lt _ h0
  show (x.toUInt64 % y.toUInt64).toNat < 2 ^ 63
  omega

@[simp] theorem toUInt64_ushr (x : Int64) (k : UInt64) :
    (ushr x k).toUInt64 = x.toUInt64 >>> k := by
  rw [ushr, UInt64.toUInt64_toInt64]

theorem toUInt64_next (s : SplitMix64) :
    s.next.1.toUInt64 = (Cpp.SplitMix64.mk s.state.toUInt64).next.1 ∧
      s.next.2.state.toUInt64 = (Cpp.SplitMix64.mk s.state.toUInt64).next.2.state := by
  have hgamma : (0x9E3779B97F4A7C15 : Int64).toUInt64 = 0x9E3779B97F4A7C15 := by decide
  have hfst : (0xBF58476D1CE4E5B9 : Int64).toUInt64 = 0xBF58476D1CE4E5B9 := by decide
  have hsnd : (0x94D049BB133111EB : Int64).toUInt64 = 0x94D049BB133111EB := by decide
  simp only [SplitMix64.next, Cpp.SplitMix64.next, Int64.toUInt64_mul, Int64.toUInt64_xor,
    Int64.toUInt64_add, toUInt64_ushr, hgamma, hfst, hsnd, and_self]

@[simp] theorem remainderUnsigned_eq_zero {x y : Int64} :
    remainderUnsigned x y = 0 ↔ x.toUInt64 % y.toUInt64 = 0 := by
  constructor
  · intro h
    have hzero : (0 : Int64).toUInt64 = 0 := by decide
    have hbits := congrArg Int64.toUInt64 h
    rwa [remainderUnsigned, UInt64.toUInt64_toInt64, hzero] at hbits
  · intro h
    rw [remainderUnsigned, h]
    rfl

/-- A small unsigned remainder compares with a constant as its unsigned reading does. -/
theorem remainderUnsigned_lt {x y z : Int64} (h0 : 0 < y.toUInt64.toNat)
    (h : y.toUInt64.toNat ≤ 2 ^ 63) (hz : z.toUInt64.toNat < 2 ^ 63) :
    remainderUnsigned x y < z ↔ x.toUInt64 % y.toUInt64 < z.toUInt64 := by
  rw [Int64.lt_iff_toInt_lt, toInt_remainderUnsigned x h0 h, Word.toInt_eq_toNat hz,
    UInt64.lt_iff_toNat_lt]
  omega

theorem le_remainderUnsigned {x y z : Int64} (h0 : 0 < y.toUInt64.toNat)
    (h : y.toUInt64.toNat ≤ 2 ^ 63) (hz : z.toUInt64.toNat < 2 ^ 63) :
    z ≤ remainderUnsigned x y ↔ z.toUInt64 ≤ x.toUInt64 % y.toUInt64 := by
  rw [Int64.le_iff_toInt_le, toInt_remainderUnsigned x h0 h, Word.toInt_eq_toNat hz,
    UInt64.le_iff_toNat_le]
  omega

theorem toInt_clamp {x : Int64} : ((clamp x 500 1500).toInt64).toInt =
    min 1500 (max x.toInt 500) := by
  have hlo : (500 : Int32).toInt64.toInt = 500 := by decide
  have hhi : (1500 : Int32).toInt64.toInt = 1500 := by decide
  have hval : (min (1500 : Int32).toInt64 (max x (500 : Int32).toInt64)).toInt =
      min 1500 (max x.toInt 500) := by
    simp
  rw [clamp, Int32.toInt_toInt64, Word.toInt_toInt32_of_bounds, hval]
  · rw [hval]
    omega
  · rw [hval]
    omega

/-- The walk of the mid price, as long as the sum before clamping is in range. -/
theorem toInt_walk (r : Int64) {mid : Int64} (h0 : 500 ≤ mid.toInt) (h1 : mid.toInt ≤ 1500) :
    (if remainderUnsigned r 7 = 0 then
        (clamp (mid + (remainderUnsigned (ushr r 40) 3 - 1)) 500 1500).toInt64
      else mid).toInt = Cpp.Gen.walk r.toUInt64 mid.toInt := by
  have h7 : (7 : Int64).toUInt64 = 7 := by decide
  have h3 : (3 : Int64).toUInt64 = 3 := by decide
  have hone : (1 : Int64).toInt = 1 := by decide
  have hstep := toInt_remainderUnsigned (ushr r 40) (y := 3) (by decide) (by decide)
  have hlt := Cpp.Gen.toNat_mod_lt (r.toUInt64 >>> 40) (n := 3) (by decide)
  rw [toUInt64_ushr, h3] at hstep
  simp only [UInt64.reduceToNat] at hlt
  have hsub : (remainderUnsigned (ushr r 40) 3 - 1).toInt =
      ((r.toUInt64 >>> 40 % 3).toNat : ℤ) - 1 := by
    rw [Word.toInt_sub_of_bounds, hstep, hone]
    · rw [hstep, hone]
      omega
    · rw [hstep, hone]
      omega
  simp only [remainderUnsigned_eq_zero, h7, Cpp.Gen.walk]
  by_cases hr : r.toUInt64 % 7 = 0
  · rw [if_pos hr, if_pos hr, toInt_clamp, Word.toInt_add_of_bounds, hsub]
    · omega
    · omega
    · omega
  · rw [if_neg hr, if_neg hr]

@[simp] theorem toUInt8_toInt8 (x : Int64) : x.toInt8.toUInt8 = x.toUInt64.toUInt8 := by
  apply UInt8.toBitVec_inj.mp
  have hle : x.toBitVec.signExtend 8 = x.toBitVec.setWidth 8 :=
    BitVec.signExtend_eq_setWidth_of_le _ (by omega)
  simpa using hle

theorem eq_sideBid_iff (side : Int8) : side = sideBid ↔ side.toUInt8 = Cpp.sideBid := by
  have hbid : sideBid.toUInt8 = Cpp.sideBid := by decide
  constructor
  · rintro rfl
    exact hbid
  · intro h
    rw [← hbid] at h
    exact Int8.toBitVec_inj.mp (congrArg UInt8.toBitVec h)

/-- The side drawn. -/
theorem toUInt8_side (r : Int64) :
    (ushr r 8 &&& 1).toInt8.toUInt8 = (r.toUInt64 >>> 8 &&& 1).toUInt8 := by
  have hone : (1 : Int64).toUInt64 = 1 := by decide
  rw [toUInt8_toInt8, Int64.toUInt64_and, toUInt64_ushr, hone]

/-- A draw from `n` consecutive values, starting at one. -/
theorem toInt_one_add_draw (r : Int64) (k : UInt64) {n : Int64} (h0 : 0 < n.toUInt64.toNat)
    (h : n.toUInt64.toNat ≤ 2 ^ 62) :
    (1 + remainderUnsigned (ushr r k) n).toInt =
      1 + (((r.toUInt64 >>> k) % n.toUInt64).toNat : ℤ) := by
  have hone : (1 : Int64).toInt = 1 := by decide
  have hdraw := toInt_remainderUnsigned (ushr r k) h0 (by omega)
  have hlt := Cpp.Gen.toNat_mod_lt (r.toUInt64 >>> k) h0
  rw [toUInt64_ushr] at hdraw
  rw [Word.toInt_add_of_bounds, hone, hdraw]
  · rw [hone, hdraw]
    omega
  · rw [hone, hdraw]
    omega

/-- The distance from the mid price drawn. -/
theorem toInt_offset (r : Int64) (aggressive : Bool) :
    (if aggressive then remainderUnsigned (ushr r 16) 10
      else 1 + remainderUnsigned (ushr r 16) 20).toInt =
      if aggressive then (((r.toUInt64 >>> 16) % 10).toNat : ℤ)
      else 1 + ((r.toUInt64 >>> 16) % 20).toNat := by
  have hten : (10 : Int64).toUInt64 = 10 := by decide
  have htwenty : (20 : Int64).toUInt64 = 20 := by decide
  cases aggressive with
  | true =>
    have hdraw := toInt_remainderUnsigned (ushr r 16) (y := 10) (by decide) (by decide)
    rwa [toUInt64_ushr, hten] at hdraw
  | false =>
    have hdraw := toInt_one_add_draw r 16 (n := 20) (by decide) (by decide)
    rwa [htwenty] at hdraw

/-- A price near the mid price. -/
theorem toInt_price {mid offset : Int64} {m o : ℤ} (hmid : mid.toInt = m)
    (hoffset : offset.toInt = o) (h0 : 500 ≤ m) (h1 : m ≤ 1500) (ho0 : 0 ≤ o) (ho1 : o ≤ 20)
    (below : Bool) :
    (if below then mid - offset else mid + offset).toInt = if below then m - o else m + o := by
  cases below with
  | true => exact hmid ▸ hoffset ▸ Word.toInt_sub_of_bounds (by omega) (by omega)
  | false => exact hmid ▸ hoffset ▸ Word.toInt_add_of_bounds (by omega) (by omega)

/-- The id of a cancel: signed and unsigned comparison agree below `2 ^ 63`. -/
theorem toUInt64_cancelId {lastId : Int64} {l : UInt64} (hl : lastId.toUInt64 = l)
    (hlt : l.toNat < 2 ^ 63) (r : Int64) :
    (if lastId > remainderUnsigned (ushr r 16) 5000 then
        lastId - remainderUnsigned (ushr r 16) 5000 else 0).toUInt64 =
      if l > (r.toUInt64 >>> 16) % 5000 then l - (r.toUInt64 >>> 16) % 5000 else 0 := by
  have h5000 : (5000 : Int64).toUInt64 = 5000 := by decide
  have hback : (remainderUnsigned (ushr r 16) 5000).toUInt64 = (r.toUInt64 >>> 16) % 5000 := by
    simp [remainderUnsigned, h5000]
  have hmod := Cpp.Gen.toNat_mod_lt (r.toUInt64 >>> 16) (n := 5000) (by decide)
  simp only [UInt64.reduceToNat] at hmod
  have hiff : lastId > remainderUnsigned (ushr r 16) 5000 ↔ l > (r.toUInt64 >>> 16) % 5000 := by
    rw [gt_iff_lt, gt_iff_lt, Word.slt_iff (by rw [hback]; omega) (by rw [hl]; exact hlt),
      hback, hl]
  by_cases h : l > (r.toUInt64 >>> 16) % 5000
  · rw [if_pos h, if_pos (hiff.mpr h), Int64.toUInt64_sub, hback, hl]
  · rw [if_neg h, if_neg (mt hiff.mp h)]
    rfl

/-- A Java generator in the state of the C++ one. -/
structure Workload.Tracks (w : Workload) (g : Cpp.Gen) : Prop where
  rng : w.rng.state.toUInt64 = g.rng.state
  mid : w.mid.toInt = g.mid
  lastId : w.lastId.toUInt64 = g.lastId

namespace Workload

def emission (w : Workload) : Emission :=
  ⟨w.kind.toUInt8, w.side.toUInt8, w.price.toInt, w.qty.toInt, w.id.toUInt64⟩

def emissions (seed : Int64) (n : ℕ) : List Emission :=
  (List.range n).map fun i => ((new seed).after (i + 1)).emission

/-- **One step**: within the bounds of the run, the generators stay together and emit the
same. -/
theorem Tracks.nextOp {w : Workload} {g : Cpp.Gen} (h : Tracks w g) (h0 : 500 ≤ g.mid)
    (h1 : g.mid ≤ 1500) (hlast : g.lastId.toNat < 2 ^ 63) :
    Tracks w.nextOp g.nextOp ∧ w.nextOp.emission = g.nextOp.emission := by
  obtain ⟨hr, hrng⟩ := toUInt64_next w.rng
  rw [h.rng] at hr hrng
  have hg : g.rng.next = (w.rng.next.1.toUInt64, ⟨w.rng.next.2.state.toUInt64⟩) := by
    rw [hr, hrng]
  rcases hw : w.rng.next with ⟨r, rng⟩
  rw [hw] at hg
  have h85 : (85 : Int64).toUInt64 = 85 := by decide
  have h100 : (100 : Int64).toUInt64 = 100 := by decide
  have h55 : (55 : Int64).toUInt64 = 55 := by decide
  have hone : (1 : Int64).toUInt64 = 1 := by decide
  have hmid0 : 500 ≤ w.mid.toInt := h.mid ▸ h0
  have hmid1 : w.mid.toInt ≤ 1500 := h.mid ▸ h1
  have hwalk := toInt_walk r hmid0 hmid1
  have hbounds := Cpp.Gen.walk_bounds r.toUInt64 h0 h1
  have hlimit : remainderUnsigned r 100 < 85 ↔ r.toUInt64 % 100 < 85 :=
    h85 ▸ h100 ▸ remainderUnsigned_lt (by decide) (by decide) (by decide)
  have haggressive : remainderUnsigned r 100 ≥ 55 ↔ r.toUInt64 % 100 ≥ 55 :=
    h55 ▸ h100 ▸ le_remainderUnsigned (by decide) (by decide) (by decide)
  rw [h.mid] at hwalk
  simp only [Workload.nextOp, Cpp.Gen.nextOp, hw, hg, hlimit, haggressive]
  generalize (if remainderUnsigned r 7 = 0 then
      (clamp (w.mid + (remainderUnsigned (ushr r 40) 3 - 1)) 500 1500).toInt64
    else w.mid) = mid at hwalk ⊢
  by_cases hc : r.toUInt64 % 100 < 85
  · simp only [if_pos hc]
    have hid : (w.lastId + 1).toUInt64 = g.lastId + 1 := by
      rw [Int64.toUInt64_add, h.lastId, hone]
    refine ⟨⟨rfl, hwalk, hid⟩, ?_⟩
    have hoffset := toInt_offset r (decide (r.toUInt64 % 100 ≥ 55))
    have h10 := Cpp.Gen.toNat_mod_lt (r.toUInt64 >>> 16) (n := 10) (by decide)
    have h20 := Cpp.Gen.toNat_mod_lt (r.toUInt64 >>> 16) (n := 20) (by decide)
    simp only [UInt64.reduceToNat] at h10 h20
    have hprice := toInt_price hwalk hoffset hbounds.1 hbounds.2 (by split <;> omega)
      (by split <;> omega)
    have hqty := toInt_one_add_draw r 32 (n := 100) (by decide) (by decide)
    rw [h100] at hqty
    simp only [emission, Cpp.Gen.emission, toUInt8_side, eq_sideBid_iff, hid, hprice, hqty]
    rfl
  · simp only [if_neg hc]
    refine ⟨⟨rfl, hwalk, h.lastId⟩, ?_⟩
    simp only [emission, Cpp.Gen.emission, toUInt64_cancelId h.lastId hlast]
    rfl

/-- One step along the run of a seed. -/
theorem Tracks.nextOp_after {seed : UInt64} {n : ℕ} (hn : n < 2 ^ 63) {w : Workload}
    (h : Tracks w ((Cpp.Gen.new seed).after n)) :
    Tracks w.nextOp ((Cpp.Gen.new seed).after (n + 1)) ∧
      w.nextOp.emission = ((Cpp.Gen.new seed).after (n + 1)).emission := by
  obtain ⟨h0, h1⟩ := Cpp.Gen.mid_after seed n
  have hle := (Cpp.Gen.issued_after seed (n := n) (by omega)).lastId_le
  exact h.nextOp h0 h1 (by omega)

theorem tracks_after (seed : UInt64) {n : ℕ} (hn : n < 2 ^ 63) :
    Tracks ((new seed.toInt64).after n) ((Cpp.Gen.new seed).after n) := by
  induction n with
  | zero => exact ⟨rfl, show (1000 : Int64).toInt = 1000 by decide, rfl⟩
  | succ n ih =>
    have hlt : n < 2 ^ 63 := by omega
    exact ((ih hlt).nextOp_after hlt).1

theorem emission_after (seed : UInt64) {n : ℕ} (hn : n < 2 ^ 63) :
    ((new seed.toInt64).after (n + 1)).emission = ((Cpp.Gen.new seed).after (n + 1)).emission :=
  ((tracks_after seed hn).nextOp_after hn).2

end Workload
end Java

/-- **The four generators emit the same stream**: from every seed, the first `n` emissions
agree in kind, side, price, quantity and id. -/
theorem streams_agree (seed : UInt64) {n : ℕ} (hn : n < 2 ^ 63) :
    Go.Gen.emissions seed n = Cpp.Gen.emissions seed n ∧
      Rust.Gen.emissions seed n = Cpp.Gen.emissions seed n ∧
      Java.Workload.emissions seed.toInt64 n = Cpp.Gen.emissions seed n := by
  refine ⟨?_, ?_, ?_⟩
  · exact List.map_congr_left fun i _ => (Go.Gen.tracks_after seed i).nextOp.2
  · exact List.map_congr_left fun i _ => (Rust.Gen.tracks_after seed i).nextOp.2
  · refine List.map_congr_left ?_
    intro i hi
    have hlt := List.mem_range.mp hi
    exact Java.Workload.emission_after seed (by omega)

theorem streams_agree_default :
    Go.Gen.emissions 42 20000000 = Cpp.Gen.emissions 42 20000000 ∧
      Rust.Gen.emissions 42 20000000 = Cpp.Gen.emissions 42 20000000 ∧
      Java.Workload.emissions (42 : UInt64).toInt64 20000000 = Cpp.Gen.emissions 42 20000000 :=
  streams_agree 42 (by decide)

end LmaxBench
