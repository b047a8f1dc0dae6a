import LmaxBench.Cpp.TunedConformance
import LmaxBench.Lib.Follow

/-!
# The two sides of the tuned book mirror each other

Swap the sides of all limits and turn the ladder around, and the tuned book does the same:
where it scanned the asks upwards it scans the bids downwards, and the sentinels of the
best pointers are exchanged. The sides are separate code in the source. Here the mirrored
run is followed step by step along the given one, on operations in range.

## Main definitions

* `mirrorPrice`, `Op.mirror` — prices and operations seen in the mirror.
* `TunedBook.Mirrors` — the state of one run is that of the other one in the mirror.
* `TunedBook.sweep_mirrors`, `TunedBook.apply_mirrors` — the loops and the operations.
* `TunedBook.mirror_run` — what both runs show after every prefix.
-/

namespace LmaxBench.Cpp

/-- The price as far from the top of the ladder as `p` is from its bottom. -/
def mirrorPrice (p : ℤ) : ℤ := 4095 - p

def Op.mirror : Op → Op
  | .limit side price qty id => .limit (otherSide side) (mirrorPrice price) qty id
  | .cancel id => .cancel id

@[simp] theorem mirrorPrice_mirrorPrice (p : ℤ) : mirrorPrice (mirrorPrice p) = p :=
  sub_sub_cancel 4095 p

theorem mirrorPrice_bounds {p : ℤ} (h0 : ladderBase ≤ p) (h1 : p < ladderBase + ladderLen) :
    ladderBase ≤ mirrorPrice p ∧ mirrorPrice p < ladderBase + ladderLen := by
  simp only [ladderBase, ladderLen, mirrorPrice] at *
  omega

namespace TunedBook

/-! ## The relation -/

/-- One ladder is the other one turned around. -/
structure LadderMirrors (l l' : List FlatLevel) : Prop where
  length_eq : l.length = ladderLen
  length_eq' : l'.length = ladderLen
  level_eq : ∀ {p}, ladderBase ≤ p → p < ladderBase + ladderLen →
    levelAt l' (mirrorPrice p) = levelAt l p

/-- The best pointers are at the two ends of a mirrored price, or both at their sentinels. -/
def BestMirrors (bestBid bestAsk : ℤ) : Prop :=
  (bestBid = ladderBase - 1 ∧ bestAsk = int64Max) ∨
    (ladderBase ≤ bestBid ∧ bestBid < ladderBase + ladderLen ∧ bestAsk = mirrorPrice bestBid)

/-- Two records of one id. A slot that was never used has price zero on both sides. -/
structure RecordMirrors (r r' : Resting) : Prop where
  qty_eq : r'.qty = r.qty
  price_eq : r.qty ≠ 0 → r'.price = mirrorPrice r.price

/-- The book `m` is the book `t` in the mirror. -/
structure Mirrors (t m : TunedBook) : Prop where
  bids : LadderMirrors t.bids m.asks
  asks : LadderMirrors t.asks m.bids
  bid : BestMirrors t.bestBid m.bestAsk
  ask : BestMirrors m.bestBid t.bestAsk
  orders : List.Forall₂ RecordMirrors t.orders m.orders
  live_eq : m.live = t.live
  fills_eq : m.fills = t.fills
  volume_eq : m.volume = t.volume

namespace LadderMirrors
variable {l l' : List FlatLevel}

theorem set (h : LadderMirrors l l') {p : ℤ} (h0 : ladderBase ≤ p)
    (h1 : p < ladderBase + ladderLen) (lvl : FlatLevel) :
    LadderMirrors (l.set (sizeT (p - ladderBase)) lvl)
      (l'.set (sizeT (mirrorPrice p - ladderBase)) lvl) where
  length_eq := by rw [List.length_set, h.length_eq]
  length_eq' := by rw [List.length_set, h.length_eq']
  level_eq := by
    intro q hq0 hq1
    obtain ⟨h0', h1'⟩ := mirrorPrice_bounds h0 h1
    obtain ⟨hq0', hq1'⟩ := mirrorPrice_bounds hq0 hq1
    rw [levelAt_set h.length_eq h0 h1 hq0 hq1, levelAt_set h.length_eq' h0' h1' hq0' hq1',
      h.level_eq hq0 hq1]
    have hiff : mirrorPrice q = mirrorPrice p ↔ q = p := sub_right_inj
    simp only [hiff]

/-- The access to a level and the one in the mirror. -/
theorem get (h : LadderMirrors l l') {p : ℤ} (h0 : ladderBase ≤ p)
    (h1 : p < ladderBase + ladderLen) :
    Follows Eq l[sizeT (p - ladderBase)]? l'[sizeT (mirrorPrice p - ladderBase)]? :=
  fun lvl hlvl => ⟨lvl, (h.level_eq h0 h1).trans hlvl, rfl⟩

end LadderMirrors

namespace BestMirrors
variable {bid ask : ℤ}

theorem bid_eq (h : BestMirrors bid ask) (h0 : ladderBase ≤ ask)
    (h1 : ask < ladderBase + ladderLen) : bid = mirrorPrice ask := by
  simp only [BestMirrors, ladderBase, ladderLen, int64Max, mirrorPrice] at *
  omega

theorem ask_eq (h : BestMirrors bid ask) (h0 : ladderBase ≤ bid) : ask = mirrorPrice bid := by
  simp only [BestMirrors, ladderBase, ladderLen, mirrorPrice] at *
  omega

/-- The pointers are on the ladder together, and there the comparisons with the limits mirror
each other. -/
theorem crossing_iff (h : BestMirrors bid ask) {buy sell : UInt8} (hbuy : buy = sideBid)
    (hsell : sell ≠ sideBid) (price : ℤ) :
    Crossing buy price ask ↔ Crossing sell (mirrorPrice price) bid := by
  simp only [Crossing, Book.crosses, if_pos hbuy, if_neg hsell]
  simp only [BestMirrors, ladderBase, ladderLen, int64Max, mirrorPrice] at *
  omega

/-- They have equally far to go. -/
theorem span_eq (h : BestMirrors bid ask) :
    (ladderBase + ladderLen - ask).toNat = (bid - ladderBase + 1).toNat := by
  simp only [BestMirrors, ladderBase, ladderLen, int64Max, mirrorPrice] at *
  omega

/-- An order comes to rest. -/
theorem push (h : BestMirrors bid ask) {p : ℤ} (h0 : ladderBase ≤ p)
    (h1 : p < ladderBase + ladderLen) : BestMirrors (max bid p) (min ask (mirrorPrice p)) := by
  simp only [BestMirrors, ladderBase, ladderLen, int64Max, mirrorPrice] at *
  omega

/-- Where a scan of the asks ends. -/
theorem of_scan {q : ℤ} (h0 : ladderBase ≤ q) (h1 : q ≤ ladderBase + ladderLen) :
    BestMirrors (mirrorPrice q) (if q < ladderBase + ladderLen then q else int64Max) := by
  simp only [BestMirrors, mirrorPrice_mirrorPrice]
  by_cases hq : q < ladderBase + ladderLen
  · rw [if_pos hq]
    have hbounds := mirrorPrice_bounds h0 hq
    exact Or.inr ⟨hbounds.1, hbounds.2, rfl⟩
  · rw [if_neg hq]
    simp only [ladderBase, ladderLen, mirrorPrice, and_true] at *
    omega

end BestMirrors

/-! ## The inner loop -/

structure DrainMirrors (d d' : Drain) : Prop where
  lvl_eq : d'.lvl = d.lvl
  orders : List.Forall₂ RecordMirrors d.orders d'.orders
  qty_eq : d'.qty = d.qty
  live_eq : d'.live = d.live
  fills_eq : d'.fills = d.fills
  volume_eq : d'.volume = d.volume
  log_eq : d'.log = d.log

theorem drainStep_mirrors {d d' : Drain} (h : DrainMirrors d d') :
    Follows (Option.Rel DrainMirrors) (drainStep d) (drainStep d') := by
  rw [drainStep, drainStep, h.qty_eq, h.lvl_eq]
  refine Follows.ite Iff.rfl (fun _ => ?_) fun _ => Follows.some .none
  refine Follows.ite Iff.rfl (fun _ => Follows.some .none) ?_
  intro _
  refine Follows.bind (R := Eq) (fun id hid => ⟨id, hid, rfl⟩) ?_
  rintro id _ - rfl
  refine Follows.bind (Follows.get h.orders id.toNat) ?_
  intro r r' _ hr
  rw [hr.qty_eq]
  refine Follows.ite Iff.rfl (fun _ => ?_) fun hz => ?_
  · exact Follows.some (.some { h with lvl_eq := rfl, qty_eq := rfl })
  · refine Follows.some (.some ?_)
    constructor
    case lvl_eq => rfl
    case orders => exact Follows.set h.orders id.toNat ⟨rfl, fun _ => hr.price_eq hz⟩
    case qty_eq => rfl
    case live_eq => simp only [h.live_eq]
    case fills_eq => simp only [h.fills_eq]
    case volume_eq => simp only [h.volume_eq]
    case log_eq => simp only [h.log_eq]

theorem drain_mirrors {d d' : Drain} (h : DrainMirrors d d') :
    Follows DrainMirrors (drain d) (drain d') := by
  refine (Follows.loop drain_variant ?_ (fun _ _ => drainStep_mirrors) h).mono fun _ _ h => h.1
  intro d d' h
  rw [Drain.variant, Drain.variant, h.lvl_eq, h.qty_eq]

/-! ## The scans -/

/-- **A scan up the asks is one down the bids of the mirror.** -/
theorem scanUp_mirrors {asks bids : List FlatLevel} (h : LadderMirrors asks bids) {p : ℤ}
    (h0 : ladderBase ≤ p) (h1 : p ≤ ladderBase + ladderLen) :
    Follows (fun q q' => q' = mirrorPrice q ∧ ladderBase ≤ q ∧ q ≤ ladderBase + ladderLen)
      (scanUp asks p) (scanDown bids (mirrorPrice p)) := by
  refine (Follows.loop (R := fun q q' => q' = mirrorPrice q ∧ ladderBase ≤ q ∧
    q ≤ ladderBase + ladderLen) (scanUp_variant asks) ?_ ?_ ⟨rfl, h0, h1⟩).mono fun _ _ h => h.1
  · rintro q _ ⟨rfl, -, -⟩
    simp only [ladderBase, ladderLen, mirrorPrice]
    omega
  · rintro q _ ⟨rfl, hq0, hq1⟩
    rw [scanUpStep, scanDownStep]
    have hiff : q < ladderBase + ladderLen ↔ ladderBase ≤ mirrorPrice q := by
      simp only [ladderBase, ladderLen, mirrorPrice] at *
      omega
    refine Follows.ite hiff (fun hlt => ?_) fun _ => Follows.some .none
    refine Follows.bind (h.get hq0 hlt) ?_
    rintro lvl _ - rfl
    by_cases he : lvl.empty = true
    · rw [if_pos he, if_pos he]
      have hnext : mirrorPrice q - 1 = mirrorPrice (q + 1) := sub_sub 4095 q 1
      exact Follows.some (.some ⟨hnext, by omega, by omega⟩)
    · rw [if_neg he, if_neg he]
      exact Follows.some .none

/-- **A scan down the bids is one up the asks of the mirror.** -/
theorem scanDown_mirrors {bids asks : List FlatLevel} (h : LadderMirrors bids asks) {p : ℤ}
    (h0 : ladderBase - 1 ≤ p) (h1 : p < ladderBase + ladderLen) :
    Follows (fun q q' => q' = mirrorPrice q ∧ ladderBase - 1 ≤ q ∧ q < ladderBase + ladderLen)
      (scanDown bids p) (scanUp asks (mirrorPrice p)) := by
  refine (Follows.loop (R := fun q q' => q' = mirrorPrice q ∧ ladderBase - 1 ≤ q ∧
    q < ladderBase + ladderLen) (scanDown_variant bids) ?_ ?_ ⟨rfl, h0, h1⟩).mono fun _ _ h => h.1
  · rintro q _ ⟨rfl, -, -⟩
    simp only [ladderBase, ladderLen, mirrorPrice]
    omega
  · rintro q _ ⟨rfl, hq0, hq1⟩
    rw [scanDownStep, scanUpStep]
    have hiff : ladderBase ≤ q ↔ mirrorPrice q < ladderBase + ladderLen := by
      simp only [ladderBase, ladderLen, mirrorPrice] at *
      omega
    refine Follows.ite hiff (fun hle => ?_) fun _ => Follows.some .none
    refine Follows.bind (h.get hle hq1) ?_
    rintro lvl _ - rfl
    by_cases he : lvl.empty = true
    · rw [if_pos he, if_pos he]
      have hnext : mirrorPrice q + 1 = mirrorPrice (q - 1) := by
        simp only [mirrorPrice]
        omega
      exact Follows.some (.some ⟨hnext, by omega, by omega⟩)
    · rw [if_neg he, if_neg he]
      exact Follows.some .none

/-! ## The outer loop -/

theorem otherSide_of_bid {side : UInt8} (h : side = sideBid) : otherSide side ≠ sideBid := by
  rw [otherSide, if_pos h]
  exact sideAsk_ne_sideBid

theorem otherSide_of_ask {side : UInt8} (h : side ≠ sideBid) : otherSide side = sideBid := by
  rw [otherSide, if_neg h]

namespace Mirrors
variable {t m : TunedBook}

/-- The ladders on which a taker and the taker in the mirror match. -/
theorem opposite (h : Mirrors t m) (side : UInt8) :
    LadderMirrors (t.opposite side) (m.opposite (otherSide side)) := by
  by_cases hs : side = sideBid
  · rw [TunedBook.opposite, TunedBook.opposite, if_pos hs, if_neg (otherSide_of_bid hs)]
    exact h.asks
  · rw [TunedBook.opposite, TunedBook.opposite, if_neg hs, if_pos (otherSide_of_ask hs)]
    exact h.bids

/-- **The guards agree.** -/
theorem crossing_iff (h : Mirrors t m) (side : UInt8) (price : ℤ) :
    Crossing side price (t.best side) ↔
      Crossing (otherSide side) (mirrorPrice price) (m.best (otherSide side)) := by
  by_cases hs : side = sideBid
  · have hother := otherSide_of_bid hs
    rw [best, best, if_pos hs, if_neg hother]
    exact h.ask.crossing_iff hs hother price
  · have hother := otherSide_of_ask hs
    have hiff := h.bid.crossing_iff hother hs (mirrorPrice price)
    rw [mirrorPrice_mirrorPrice] at hiff
    rw [best, best, if_neg hs, if_pos hother]
    exact hiff.symm

/-- On the ladder, the pointers are at the two ends of a mirrored price. -/
theorem best_eq (h : Mirrors t m) {side : UInt8} (h0 : ladderBase ≤ t.best side)
    (h1 : t.best side < ladderBase + ladderLen) :
    m.best (otherSide side) = mirrorPrice (t.best side) := by
  by_cases hs : side = sideBid
  · rw [best, if_pos hs] at h0 h1
    rw [best, best, if_pos hs, if_neg (otherSide_of_bid hs)]
    exact h.ask.bid_eq h0 h1
  · rw [best, if_neg hs] at h0
    rw [best, best, if_neg hs, if_pos (otherSide_of_ask hs)]
    exact h.bid.ask_eq h0

theorem writeBack (h : Mirrors t m) (side : UInt8) {p : ℤ} (h0 : ladderBase ≤ p)
    (h1 : p < ladderBase + ladderLen) {d d' : Drain} (hd : DrainMirrors d d') :
    Mirrors (t.writeBack side (sizeT (p - ladderBase)) d)
      (m.writeBack (otherSide side) (sizeT (mirrorPrice p - ladderBase)) d') := by
  by_cases hs : side = sideBid
  · simp only [TunedBook.writeBack, hd.lvl_eq]
    rw [if_pos hs, if_pos hs, if_neg (otherSide_of_bid hs), if_neg (otherSide_of_bid hs)]
    exact ⟨h.bids, h.asks.set h0 h1 d.lvl, h.bid, h.ask, hd.orders, hd.live_eq, hd.fills_eq,
      hd.volume_eq⟩
  · simp only [TunedBook.writeBack, hd.lvl_eq]
    rw [if_neg hs, if_neg hs, if_pos (otherSide_of_ask hs), if_pos (otherSide_of_ask hs)]
    exact ⟨h.bids.set h0 h1 d.lvl, h.asks, h.bid, h.ask, hd.orders, hd.live_eq, hd.fills_eq,
      hd.volume_eq⟩

/-- The pointers move on to mirrored levels, or to their sentinels together. -/
theorem advance (h : Mirrors t m) (side : UInt8) {p : ℤ} (h0 : ladderBase ≤ p)
    (h1 : p < ladderBase + ladderLen) :
    Follows Mirrors (t.advance side (sizeT (p - ladderBase)) p)
      (m.advance (otherSide side) (sizeT (mirrorPrice p - ladderBase)) (mirrorPrice p)) := by
  by_cases hs : side = sideBid
  · rw [TunedBook.advance, TunedBook.advance, if_pos hs, if_neg (otherSide_of_bid hs)]
    refine Follows.bind (h.asks.get h0 h1) ?_
    rintro lvl _ - rfl
    have hset := h.asks.set h0 h1 lvl.reset
    have hnext : mirrorPrice p - 1 = mirrorPrice (p + 1) := sub_sub 4095 p 1
    rw [hnext]
    refine Follows.bind (scanUp_mirrors hset (by omega) (by omega)) ?_
    rintro q _ - ⟨rfl, hq0, hq1⟩
    exact Follows.some { h with asks := hset, ask := .of_scan (by omega) hq1 }
  · rw [TunedBook.advance, TunedBook.advance, if_neg hs, if_pos (otherSide_of_ask hs)]
    refine Follows.bind (h.bids.get h0 h1) ?_
    rintro lvl _ - rfl
    have hset := h.bids.set h0 h1 lvl.reset
    have hnext : mirrorPrice p + 1 = mirrorPrice (p - 1) := by
      simp only [mirrorPrice]
      omega
    rw [hnext]
    refine Follows.bind (scanDown_mirrors hset (by omega) (by omega)) ?_
    rintro q _ - ⟨rfl, hq0, hq1⟩
    have hbest : BestMirrors (mirrorPrice (mirrorPrice q))
        (if mirrorPrice q < ladderBase + ladderLen then mirrorPrice q else int64Max) := by
      refine .of_scan ?_ ?_ <;>
      · simp only [ladderBase, ladderLen, mirrorPrice] at *
        omega
    rw [mirrorPrice_mirrorPrice] at hbest
    exact Follows.some { h with bids := hset, bid := hbest }

theorem settle (h : Mirrors t m) (side : UInt8) {p : ℤ} (h0 : ladderBase ≤ p)
    (h1 : p < ladderBase + ladderLen) {d d' : Drain} (hd : DrainMirrors d d') :
    Follows Mirrors (t.settle side p d) (m.settle (otherSide side) (mirrorPrice p) d') := by
  have hwrite := h.writeBack side h0 h1 hd
  rw [TunedBook.settle, TunedBook.settle, hd.lvl_eq]
  exact Follows.ite Iff.rfl (fun _ => hwrite.advance side h0 h1) fun _ => Follows.some hwrite

end Mirrors

/-- The outer loop and the one in the mirror. -/
structure SweepMirrors (s s' : Sweep) : Prop where
  book : Mirrors s.book s'.book
  qty_eq : s'.qty = s.qty
  log_eq : s'.log = s.log

theorem sweepStep_mirrors {side : UInt8} {price : ℤ} {s s' : Sweep} (h : SweepMirrors s s') :
    Follows (Option.Rel SweepMirrors) (sweepStep side price s)
      (sweepStep (otherSide side) (mirrorPrice price) s') := by
  have hiff := h.book.crossing_iff side price
  by_cases hexit : s.qty ≤ 0 ∨ ¬ Crossing side price (s.book.best side)
  · have hexit' := hexit
    rw [hiff, ← h.qty_eq] at hexit'
    rw [sweepStep_of_exit hexit, sweepStep_of_exit hexit']
    exact Follows.some .none
  · simp only [not_or, not_le, not_not] at hexit
    obtain ⟨hq, hc⟩ := hexit
    have h0 := hc.1
    have h1 := hc.2.1
    have hq' : 0 < s'.qty := by rwa [h.qty_eq]
    rw [sweepStep_of_crossing hq hc, sweepStep_of_crossing hq' (hiff.mp hc), h.book.best_eq h0 h1]
    refine Follows.bind ((h.book.opposite side).get h0 h1) ?_
    rintro lvl _ - rfl
    have hdrain : DrainMirrors
        ⟨lvl, s.book.orders, s.qty, s.book.live, s.book.fills, s.book.volume, s.log⟩
        ⟨lvl, s'.book.orders, s'.qty, s'.book.live, s'.book.fills, s'.book.volume, s'.log⟩ :=
      ⟨rfl, h.book.orders, h.qty_eq, h.book.live_eq, h.book.fills_eq, h.book.volume_eq, h.log_eq⟩
    refine Follows.bind (drain_mirrors hdrain) ?_
    intro d d' _ hd
    refine Follows.bind (h.book.settle side h0 h1 hd) ?_
    intro t m _ ht
    exact Follows.some (.some ⟨ht, hd.qty_eq, hd.log_eq⟩)

/-- **The outer loop matches the same makers by the same quantities** in the mirror. -/
theorem sweep_mirrors (side : UInt8) (price : ℤ) {s s' : Sweep} (h : SweepMirrors s s') :
    Follows SweepMirrors (sweep side price s) (sweep (otherSide side) (mirrorPrice price) s') := by
  refine (Follows.loop (sweep_variant side price) ?_ (fun _ _ => sweepStep_mirrors) h).mono
    fun _ _ h => h.1
  intro s s' h
  rw [Sweep.variant, Sweep.variant, h.qty_eq]
  congr 1
  by_cases hs : side = sideBid
  · rw [if_pos hs, if_neg (otherSide_of_bid hs)]
    exact h.book.ask.span_eq.symm
  · rw [if_neg hs, if_pos (otherSide_of_ask hs)]
    exact h.book.bid.span_eq

/-! ## The operations -/

/-- The record of a resting order. -/
theorem restRecord_mirrors {t m : TunedBook} (h : Mirrors t m) (price qty : ℤ) (id : UInt64) :
    Follows Mirrors
      (t.orders[id.toNat]?.bind fun _ =>
        some { t with orders := t.orders.set id.toNat ⟨price, qty⟩, live := t.live + 1 })
      (m.orders[id.toNat]?.bind fun _ =>
        some
          { m with
            orders := m.orders.set id.toNat ⟨mirrorPrice price, qty⟩
            live := m.live + 1 }) := by
  refine Follows.bind (Follows.get h.orders id.toNat) ?_
  intro r r' _ _
  refine Follows.some { h with orders := ?_, live_eq := ?_ }
  · exact Follows.set h.orders id.toNat ⟨rfl, fun _ => rfl⟩
  · simp only [h.live_eq]

theorem rest_mirrors {t m : TunedBook} (h : Mirrors t m) (side : UInt8) {price : ℤ} (qty : ℤ)
    (id : UInt64) (h0 : ladderBase ≤ price) (h1 : price < ladderBase + ladderLen) :
    Follows Mirrors (t.rest side price qty id)
      (m.rest (otherSide side) (mirrorPrice price) qty id) := by
  rw [rest, rest]
  by_cases hs : side = sideBid
  · rw [if_pos hs, if_neg (otherSide_of_bid hs)]
    refine Follows.bind (h.bids.get h0 h1) ?_
    rintro lvl _ - rfl
    have hbook : Mirrors
        { t with
          bids := t.bids.set (sizeT (price - ladderBase)) (lvl.push id)
          bestBid := max t.bestBid price }
        { m with
          asks := m.asks.set (sizeT (mirrorPrice price - ladderBase)) (lvl.push id)
          bestAsk := min m.bestAsk (mirrorPrice price) } :=
      { h with bids := h.bids.set h0 h1 (lvl.push id), bid := h.bid.push h0 h1 }
    exact restRecord_mirrors hbook price qty id
  · rw [if_neg hs, if_pos (otherSide_of_ask hs)]
    refine Follows.bind (h.asks.get h0 h1) ?_
    rintro lvl _ - rfl
    obtain ⟨h0', h1'⟩ := mirrorPrice_bounds h0 h1
    have hbest := h.ask.push h0' h1'
    rw [mirrorPrice_mirrorPrice] at hbest
    have hbook : Mirrors
        { t with
          asks := t.asks.set (sizeT (price - ladderBase)) (lvl.push id)
          bestAsk := min t.bestAsk price }
        { m with
          bids := m.bids.set (sizeT (mirrorPrice price - ladderBase)) (lvl.push id)
          bestBid := max m.bestBid (mirrorPrice price) } :=
      { h with asks := h.asks.set h0 h1 (lvl.push id), ask := hbest }
    exact restRecord_mirrors hbook price qty id

theorem limit_mirrors {t m : TunedBook} (h : Mirrors t m) (side : UInt8) {price : ℤ} (qty : ℤ)
    (id : UInt64) (h0 : ladderBase ≤ price) (h1 : price < ladderBase + ladderLen) :
    Follows Mirrors (t.limit side price qty id)
      (m.limit (otherSide side) (mirrorPrice price) qty id) := by
  rw [limit, limit]
  refine Follows.bind (sweep_mirrors side price ⟨h, rfl, rfl⟩) ?_
  intro s s' _ hs
  rw [hs.qty_eq]
  exact Follows.ite Iff.rfl (fun _ => rest_mirrors hs.book side s.qty id h0 h1)
    fun _ => Follows.some hs.book

theorem limitLog_mirrors {t m : TunedBook} (h : Mirrors t m) (side : UInt8) (price qty : ℤ) :
    Follows Eq (t.limitLog side price qty)
      (m.limitLog (otherSide side) (mirrorPrice price) qty) := by
  intro log hlog
  obtain ⟨s, hs, rfl⟩ := Option.map_eq_some_iff.mp hlog
  have hstart : SweepMirrors { book := t, qty } { book := m, qty } := ⟨h, rfl, rfl⟩
  obtain ⟨s', hs', hsweep⟩ := sweep_mirrors side price hstart s hs
  exact ⟨s'.log, Option.map_eq_some_iff.mpr ⟨s', hs', rfl⟩, hsweep.log_eq.symm⟩

theorem cancel_mirrors {t m : TunedBook} (h : Mirrors t m) (id : UInt64) :
    Follows Mirrors (t.cancel id) (m.cancel id) := by
  rw [cancel, cancel]
  refine Follows.bind (Follows.get h.orders id.toNat) ?_
  intro r r' _ hr
  rw [hr.qty_eq]
  by_cases hq : r.qty ≠ 0
  · rw [if_pos hq, if_pos hq]
    refine Follows.some { h with orders := ?_, live_eq := ?_ }
    · exact Follows.set h.orders id.toNat ⟨rfl, fun hz => absurd rfl hz⟩
    · simp only [h.live_eq]
  · rw [if_neg hq, if_neg hq]
    exact Follows.some h

/-- **An operation in range does in the mirror what it does on the book.** -/
theorem apply_mirrors {maxId : UInt64} {t m : TunedBook} (h : Mirrors t m) {op : Op}
    (hop : op.InRange maxId) : Follows Mirrors (t.apply op) (m.apply op.mirror) := by
  cases op with
  | limit side price qty id => exact limit_mirrors h side qty id hop.1.1 hop.1.2
  | cancel id => exact cancel_mirrors h id

/-! ## Runs -/

theorem mirrors_new (maxId : UInt64) : Mirrors (new maxId) (new maxId) := by
  have hladder : LadderMirrors (List.replicate ladderLen {}) (List.replicate ladderLen {}) := by
    refine ⟨List.length_replicate, List.length_replicate, ?_⟩
    intro p h0 h1
    obtain ⟨h0', h1'⟩ := mirrorPrice_bounds h0 h1
    obtain ⟨lvl, hlvl⟩ := levelAt_eq_some List.length_replicate h0 h1
    obtain ⟨lvl', hlvl'⟩ := levelAt_eq_some List.length_replicate h0' h1'
    rw [hlvl, hlvl', List.eq_of_mem_replicate (List.mem_of_getElem? hlvl),
      List.eq_of_mem_replicate (List.mem_of_getElem? hlvl')]
  have hrecord : RecordMirrors ⟨0, 0⟩ ⟨0, 0⟩ := ⟨rfl, fun hz => absurd rfl hz⟩
  exact ⟨hladder, hladder, .inl ⟨rfl, rfl⟩, .inl ⟨rfl, rfl⟩,
    List.forall₂_same.mpr fun r hr => List.eq_of_mem_replicate hr ▸ hrecord, rfl, rfl, rfl⟩

/-- **A run in range and the run of the mirrored operations mirror each other.** -/
theorem run_mirrors {maxId : UInt64} {ops : List Op} (hops : ∀ op ∈ ops, op.InRange maxId) :
    Follows Mirrors (run maxId ops) (run maxId (ops.map Op.mirror)) := by
  rw [run, run, List.foldlM_map]
  refine (Follows.run (R := fun l t m => (∀ op ∈ l, op.InRange maxId) ∧ Mirrors t m) ?_
    ⟨hops, mirrors_new maxId⟩).mono fun _ _ h => h.2
  rintro op l t m ⟨hops, h⟩
  exact (apply_mirrors h (hops op List.mem_cons_self)).mono fun _ _ h' =>
    ⟨fun op' hop' => hops op' (List.mem_cons_of_mem op hop'), h'⟩

/-- What two mirrored runs show. -/
structure Symmetric (t m : TunedBook) : Prop where
  fills_eq : m.fills = t.fills
  volume_eq : m.volume = t.volume
  resting_eq : m.resting = t.resting
  /-- The bids at a price are queued in the mirror as asks, in the same order. -/
  bids : ∀ p, ladderBase ≤ p → p < ladderBase + ladderLen → ∃ bid ask,
    levelAt t.bids p = some bid ∧ levelAt m.asks (mirrorPrice p) = some ask ∧
      ask.unread = bid.unread
  asks : ∀ p, ladderBase ≤ p → p < ladderBase + ladderLen → ∃ ask bid,
    levelAt t.asks p = some ask ∧ levelAt m.bids (mirrorPrice p) = some bid ∧
      bid.unread = ask.unread
  bestBid : BestMirrors t.bestBid m.bestAsk
  bestAsk : BestMirrors m.bestBid t.bestAsk

theorem LadderMirrors.unread {l l' : List FlatLevel} (h : LadderMirrors l l') (p : ℤ)
    (h0 : ladderBase ≤ p) (h1 : p < ladderBase + ladderLen) :
    ∃ lvl lvl', levelAt l p = some lvl ∧ levelAt l' (mirrorPrice p) = some lvl' ∧
      lvl'.unread = lvl.unread := by
  obtain ⟨lvl, hlvl⟩ := levelAt_eq_some h.length_eq h0 h1
  exact ⟨lvl, lvl, hlvl, (h.level_eq h0 h1).trans hlvl, rfl⟩

theorem Mirrors.symmetric {t m : TunedBook} (h : Mirrors t m) : Symmetric t m where
  fills_eq := h.fills_eq
  volume_eq := h.volume_eq
  resting_eq := congrArg UInt64.toNat h.live_eq
  bids := h.bids.unread
  asks := h.asks.unread
  bestBid := h.bid
  bestAsk := h.ask

/-- **Bid and ask mirror each other.** After every prefix, the run and the one of the mirrored
operations have the same counters, mirrored levels and mirrored best pointers, and the next
limit fills the same makers by the same quantities, whether or not ids are used again. -/
theorem mirror_run {maxId : UInt64} (hmax : maxId.toNat < 2 ^ 64 - 2) {ops : List Op}
    (hops : ∀ op ∈ ops, op.InRange maxId) {pre : List Op} (hpre : pre <+: ops) :
    ∃ t m, run maxId pre = some t ∧ run maxId (pre.map Op.mirror) = some m ∧ Symmetric t m ∧
      ∀ side price qty id, pre ++ [.limit side price qty id] <+: ops → ∃ log,
        t.limitLog side price qty = some log ∧
          m.limitLog (otherSide side) (mirrorPrice price) qty = some log := by
  have hops' : ∀ op ∈ pre, op.InRange maxId := fun op hop => hops op (hpre.subset hop)
  obtain ⟨t, excess, ht, -⟩ := run_holds_assign hmax hops'
  obtain ⟨m, hm, h⟩ := run_mirrors hops' t ht
  refine ⟨t, m, ht, hm, h.symmetric, ?_⟩
  intro side price qty id hnext
  obtain ⟨t', excess', ht', -⟩ := run_holds_assign hmax fun op hop => hops op (hnext.subset hop)
  rw [run, List.foldlM_append, ← run, ht] at ht'
  have happly : t.apply (.limit side price qty id) = some t' := by simpa using ht'
  have hlimit : t.limit side price qty id = some t' := happly
  obtain ⟨s, hs, -⟩ := Option.bind_eq_some_iff.mp hlimit
  have hlog : t.limitLog side price qty = some s.log := Option.map_eq_some_iff.mpr ⟨s, hs, rfl⟩
  obtain ⟨log, hlog', rfl⟩ := limitLog_mirrors h side price qty _ hlog
  exact ⟨_, hlog, hlog'⟩

/-- The last ask empties at the bottom of the ladder, and in the mirror the last bid at its top. -/
theorem mirror_run_boundary :
    ∃ t m, run 3 [.limit 1 0 4 1, .limit 0 0 6 2] = some t ∧
      run 3 [.limit 0 4095 4 1, .limit 1 4095 6 2] = some m ∧ Symmetric t m ∧
      ∀ side price qty id, [.limit 1 0 4 1, .limit 0 0 6 2, .limit side price qty id] <+:
          ([.limit 1 0 4 1, .limit 0 0 6 2, .limit 1 0 1 3] : List Op) → ∃ log,
        t.limitLog side price qty = some log ∧
          m.limitLog (otherSide side) (mirrorPrice price) qty = some log :=
  mirror_run (by decide) (by decide) ⟨[.limit 1 0 1 3], rfl⟩

end TunedBook
end LmaxBench.Cpp
