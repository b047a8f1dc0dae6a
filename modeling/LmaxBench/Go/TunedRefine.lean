import LmaxBench.Cpp.TunedBounds
import LmaxBench.Go.TunedBook
import LmaxBench.Lib.Follow

/-!
# The tuned book in Go follows the one in C++

A C++ tuned book and its image in Go: the records of the id-indexed array are split over two
slices, the counter of live orders is signed, and the sentinel of an empty ask side is cut
down to the length of the ladder. Every operation on the image is the image of the operation,
as long as the C++ book is within its bounds: then a pointer off the ladder is at its
sentinel, and the one comparison Go's guard makes on each side is the one that fails there.

## Main definitions

* `TunedBook.ofCpp` — the image of a C++ tuned book.
* `TunedBook.sweep_follows`, `TunedBook.limit_follows`, `TunedBook.cancel_follows`.
* `TunedBook.run_follows`, `TunedBook.checksum_follows` — runs, and the checksum at their end.
-/

namespace LmaxBench.Go
namespace TunedBook

open Cpp (Resting)
open Cpp.TunedBook (InBounds)

theorem sideBid_eq : sideBid = Cpp.sideBid := rfl

/-! ## The variants -/

theorem drain_variant : Loop.TryVariant drainStep Drain.variant := by
  intro s s' h
  rw [drainStep] at h
  split at h
  case isFalse => simp at h
  case isTrue hq =>
    split at h
    case isTrue => simp at h
    case isFalse =>
      simp only [Option.bind_eq_bind, Option.bind_eq_some_iff] at h
      obtain ⟨head, hfront, q, -, h⟩ := h
      have hlt := Cpp.FlatLevel.head_lt_of_front hfront
      split at h
      case isTrue =>
        obtain rfl := Option.some.inj (Option.some.inj h)
        simp only [Drain.variant, Cpp.FlatLevel.pop]
        omega
      case isFalse =>
        obtain rfl := Option.some.inj (Option.some.inj h)
        -- either the level moves on, or the incoming order is exhausted
        by_cases hz : q - min s.qty q = 0
        · simp only [Drain.variant, Cpp.FlatLevel.pop, hz, hq, if_true]
          split <;> omega
        · have hq' : ¬ 0 < s.qty - min s.qty q := by omega
          simp only [Drain.variant, hz, hq, hq', if_true, if_false]
          omega

theorem scanUp_variant (asks : List TunedLevel) :
    Loop.TryVariant (scanUpStep asks) fun p => (ladderLen - p).toNat := by
  intro p p' h
  rw [scanUpStep] at h
  split at h
  case isFalse => simp at h
  case isTrue hp =>
    simp only [Option.bind_eq_bind, Option.bind_eq_some_iff] at h
    obtain ⟨lvl, -, h⟩ := h
    split at h
    · obtain rfl : p + 1 = p' := by simpa using h
      simp only
      omega
    · simp at h

theorem scanDown_variant (bids : List TunedLevel) :
    Loop.TryVariant (scanDownStep bids) fun p => (p + 1).toNat := by
  intro p p' h
  rw [scanDownStep] at h
  split at h
  case isFalse => simp at h
  case isTrue hp =>
    simp only [Option.bind_eq_bind, Option.bind_eq_some_iff] at h
    obtain ⟨lvl, -, h⟩ := h
    split at h
    · obtain rfl : p - 1 = p' := by simpa using h
      simp only
      omega
    · simp at h

theorem le_scanUp {asks : List TunedLevel} {p q : ℤ} (h : scanUp asks p = some q) : p ≤ q := by
  refine Loop.tryExec_invariant (fun q => p ≤ q) ?_ le_rfl h
  intro r r' hr hstep
  have hlt : (ladderLen - r').toNat < (ladderLen - r).toNat := scanUp_variant asks r r' hstep
  omega

theorem scanDown_le {bids : List TunedLevel} {p q : ℤ} (h : scanDown bids p = some q) : q ≤ p := by
  refine Loop.tryExec_invariant (fun q => q ≤ p) ?_ le_rfl h
  intro r r' hr hstep
  have hlt : (r' + 1).toNat < (r + 1).toNat := scanDown_variant bids r r' hstep
  omega

/-- The inner loop ends with the taker exhausted or the level empty. -/
theorem drain_exit {s d : Drain} (h : drain s = some d) : d.qty ≤ 0 ∨ d.lvl.empty = true := by
  have hexit := Loop.step_tryExec drain_variant h
  by_contra hcon
  simp only [not_or, not_le, Bool.not_eq_true] at hcon
  rw [drainStep, if_pos hcon.1, hcon.2, if_neg Bool.false_ne_true] at hexit
  simp only [Option.bind_eq_bind, Option.bind_eq_some_iff] at hexit
  obtain ⟨head, -, q, -, hexit⟩ := hexit
  split at hexit <;> simp at hexit

theorem sweep_variant (side : UInt8) (price : ℤ) :
    Loop.TryVariant (sweepStep side price) (Sweep.variant side) := by
  intro s s' h
  rw [sweepStep] at h
  split at h
  case isFalse => simp at h
  case isTrue hq =>
    split at h
    case h_1 => simp at h
    case h_2 best hbest =>
      simp only [Option.bind_eq_bind, Option.bind_eq_some_iff] at h
      obtain ⟨lvl, -, d, hd, b, hb, h⟩ := h
      obtain rfl := Option.some.inj (Option.some.inj h)
      rw [settle] at hb
      split at hb
      case isTrue he =>
        rw [bestCrossing] at hbest
        rw [advance] at hb
        by_cases hs : side = sideBid
        · simp only [hs, if_true, Option.bind_eq_bind, Option.bind_eq_some_iff] at hb hbest
          obtain ⟨p, hp, hb⟩ := hb
          have hle := le_scanUp hp
          split at hbest
          case isTrue => simp at hbest
          case isFalse hc =>
            obtain rfl := Option.some.inj hbest
            obtain rfl := Option.some.inj hb
            simp only [Sweep.variant, hs, hq, if_true]
            split <;> omega
        · simp only [hs, if_false, Option.bind_eq_bind, Option.bind_eq_some_iff] at hb hbest
          obtain ⟨p, hp, hb⟩ := hb
          have hle := scanDown_le hp
          split at hbest
          case isTrue => simp at hbest
          case isFalse hc =>
            obtain rfl := Option.some.inj hbest
            obtain rfl := Option.some.inj hb
            simp only [Sweep.variant, hs, hq, if_true, if_false]
            split <;> omega
      case isFalse he =>
        have hqty : ¬ 0 < d.qty := not_lt.mpr ((drain_exit hd).resolve_right he)
        obtain rfl := Option.some.inj hb
        simp only [Sweep.variant, writeBack, hqty, hq, if_true, if_false]
        omega

/-! ## The image -/

/-- The image in Go of a C++ tuned book. -/
def ofCpp (t : Cpp.TunedBook) : TunedBook :=
  { bids := t.bids
    asks := t.asks
    bestBid := t.bestBid
    bestAsk := min t.bestAsk ladderLen
    price := t.orders.map Resting.price
    oqty := t.orders.map Resting.qty
    live := t.live.toInt64
    fills := t.fills
    volume := t.volume }

/-! ## The inner loop -/

/-- The image of a state of the inner loop. -/
def Drain.ofCpp (d : Cpp.TunedBook.Drain) : Drain :=
  { lvl := d.lvl
    oqty := d.orders.map Resting.qty
    qty := d.qty
    live := d.live.toInt64
    fills := d.fills
    volume := d.volume }

/-- The inner loop on the image, with the prices of the records fixed. -/
def DrainFollows (prices : List ℤ) (d : Cpp.TunedBook.Drain) (e : Drain) : Prop :=
  e = Drain.ofCpp d ∧ d.orders.map Resting.price = prices

/-- A record that changes its quantity leaves the prices as they are. -/
@[simp] theorem map_price_set {orders : List Resting} {i : ℕ} {r : Resting}
    (h : orders[i]? = some r) (qty : ℤ) :
    (orders.set i { r with qty }).map Resting.price = orders.map Resting.price := by
  obtain ⟨hi, rfl⟩ := List.getElem?_eq_some_iff.mp h
  have hlen : i < (orders.map Resting.price).length := by rwa [List.length_map]
  have hself := List.set_getElem_self hlen
  rw [List.getElem_map] at hself
  rw [List.map_set]
  exact hself

/-- **A round of the inner loop** on the image is the image of the round. -/
theorem drainStep_follows {prices : List ℤ} {d : Cpp.TunedBook.Drain} {e : Drain}
    (h : DrainFollows prices d e) :
    Follows (Option.Rel (DrainFollows prices)) (Cpp.TunedBook.drainStep d) (drainStep e) := by
  obtain ⟨rfl, hprices⟩ := h
  rw [Cpp.TunedBook.drainStep, drainStep]
  refine Follows.ite Iff.rfl (fun _ => ?_) (fun _ => Follows.some .none)
  refine Follows.ite Iff.rfl (fun _ => Follows.some .none) (fun _ => ?_)
  refine Follows.bind (R := Eq) (fun a ha => ⟨a, ha, rfl⟩) ?_
  rintro head _ - rfl
  refine Follows.bind (R := fun r q => q = r.qty) ?_ ?_
  · intro r hr
    exact ⟨r.qty, by simp only [Drain.ofCpp, List.getElem?_map, hr, Option.map_some], rfl⟩
  · rintro r _ hr rfl
    by_cases hq : r.qty = 0
    · rw [if_pos hq, if_pos hq]
      exact Follows.some (.some ⟨rfl, hprices⟩)
    · rw [if_neg hq, if_neg hq]
      refine Follows.some (.some ⟨?_, (map_price_set hr _).trans hprices⟩)
      by_cases hz : r.qty - min d.qty r.qty = 0
      · simp only [Drain.ofCpp, List.map_set, hz, if_true]
        rfl
      · simp only [Drain.ofCpp, List.map_set, hz, if_false]

theorem drain_follows {prices : List ℤ} {d : Cpp.TunedBook.Drain} {e : Drain}
    (h : DrainFollows prices d e) :
    Follows (DrainFollows prices) (Cpp.TunedBook.drain d) (drain e) := by
  refine (Follows.loop Cpp.TunedBook.drain_variant ?_ (fun d e => drainStep_follows) h).mono
    fun _ _ h => h.1
  rintro d _ ⟨rfl, -⟩
  rfl

/-! ## The scans -/

/-- The index of a price on the ladder, which C++ computes as a word. -/
theorem toNat_eq_sizeT {p : ℤ} (h0 : Cpp.ladderBase ≤ p)
    (h1 : p < Cpp.ladderBase + Cpp.ladderLen) :
    (p - ladderBase).toNat = Cpp.sizeT (p - Cpp.ladderBase) := by
  simp only [Cpp.ladderBase, Cpp.ladderLen, ladderBase] at *
  exact (Cpp.sizeT_of_nonneg (by omega) (by omega)).symm

theorem index_ladder {s : List TunedLevel} {p : ℤ} (h0 : Cpp.ladderBase ≤ p)
    (h1 : p < Cpp.ladderBase + Cpp.ladderLen) :
    index s (p - ladderBase) = s[Cpp.sizeT (p - Cpp.ladderBase)]? := by
  rw [← toNat_eq_sizeT h0 h1, index, if_pos]
  simp only [Cpp.ladderBase, ladderBase] at *
  omega

theorem scanUp_follows (asks : List TunedLevel) {p : ℤ} (hp : Cpp.ladderBase ≤ p) :
    Follows (fun q q' => q' = q) (Cpp.TunedBook.scanUp asks p) (scanUp asks p) := by
  refine (Follows.loop (R := fun q q' => q' = q ∧ Cpp.ladderBase ≤ q)
    (Cpp.TunedBook.scanUp_variant asks) ?_ ?_ ⟨rfl, hp⟩).mono fun _ _ h => h.1.1
  · rintro q _ ⟨rfl, -⟩
    rfl
  · rintro q _ ⟨rfl, hq⟩
    rw [Cpp.TunedBook.scanUpStep, scanUpStep]
    refine Follows.ite (by simp only [Cpp.ladderBase, Cpp.ladderLen, ladderLen]; omega)
      (fun hlt => ?_)
      fun _ => Follows.some .none
    refine Follows.bind (R := Eq) (fun lvl hlvl => ⟨lvl, by rwa [index_ladder hq hlt], rfl⟩) ?_
    rintro lvl _ - rfl
    by_cases he : lvl.empty = true
    · rw [if_pos he]
      exact Follows.some (.some ⟨rfl, by omega⟩)
    · rw [if_neg he]
      exact Follows.some .none

theorem scanDown_follows (bids : List TunedLevel) {p : ℤ}
    (hp : p < Cpp.ladderBase + Cpp.ladderLen) :
    Follows (fun q q' => q' = q) (Cpp.TunedBook.scanDown bids p) (scanDown bids p) := by
  refine (Follows.loop (R := fun q q' => q' = q ∧ q < Cpp.ladderBase + Cpp.ladderLen)
    (Cpp.TunedBook.scanDown_variant bids) ?_ ?_ ⟨rfl, hp⟩).mono fun _ _ h => h.1.1
  · rintro q _ ⟨rfl, -⟩
    simp only [Cpp.ladderBase, sub_zero]
  · rintro q _ ⟨rfl, hq⟩
    rw [Cpp.TunedBook.scanDownStep, scanDownStep]
    refine Follows.ite Iff.rfl (fun hle => ?_) fun _ => Follows.some .none
    refine Follows.bind (R := Eq) (fun lvl hlvl => ⟨lvl, by rwa [index_ladder hle hq], rfl⟩) ?_
    rintro lvl _ - rfl
    by_cases he : lvl.empty = true
    · rw [if_pos he]
      exact Follows.some (.some ⟨rfl, by omega⟩)
    · rw [if_neg he]
      exact Follows.some .none

/-! ## The outer loop -/

/-- The book after the inner loop is the image of the book after the inner loop. -/
theorem writeBack_ofCpp {t : Cpp.TunedBook} {side : UInt8} {best : ℤ} {d : Cpp.TunedBook.Drain}
    {e : Drain} (h0 : Cpp.ladderBase ≤ best) (h1 : best < Cpp.ladderBase + Cpp.ladderLen)
    (hd : d.orders.map Resting.price = t.orders.map Resting.price) (he : e = Drain.ofCpp d) :
    (ofCpp t).writeBack side best e =
      ofCpp (t.writeBack side (Cpp.sizeT (best - Cpp.ladderBase)) d) := by
  simp only [he, writeBack, ofCpp, Drain.ofCpp, Cpp.TunedBook.writeBack, toNat_eq_sizeT h0 h1, hd,
    sideBid_eq]

/-- **The pointer moves on alike**: with no asks left, the scan of C++ is cut off at the end of
the ladder and answered by the sentinel, which is that end in the image. -/
theorem advance_follows {t : Cpp.TunedBook} (h : t.InBounds) {side : UInt8} {i : ℕ} {best : ℤ}
    {d : Cpp.TunedBook.Drain} (h0 : Cpp.ladderBase ≤ best)
    (h1 : best < Cpp.ladderBase + Cpp.ladderLen) :
    Follows (fun t' b => b = ofCpp t') ((t.writeBack side i d).advance side i best)
      ((ofCpp (t.writeBack side i { d with lvl := d.lvl.reset })).advance side best) := by
  rw [Cpp.TunedBook.advance, advance]
  refine Follows.ite Iff.rfl (fun hs => Follows.skip fun lvl _ => ?_)
    fun hs => Follows.skip fun lvl _ => ?_
  · have hasks : (t.writeBack side i d).asks.set i lvl.reset =
        (t.writeBack side i { d with lvl := d.lvl.reset }).asks := by
      simp only [Cpp.TunedBook.writeBack, hs, if_true, List.set_set]
      rfl
    have hlen := (h.writeBack side i { d with lvl := d.lvl.reset }).asks_length
    rw [← hasks] at hlen
    simp only [hasks]
    refine Follows.bind (scanUp_follows _ (by omega)) ?_
    intro p q hp hpq
    obtain ⟨q', hq', -, hle, -⟩ :=
      Cpp.TunedBook.scanUp_spec hlen (p := best + 1) (by omega) (by omega)
    obtain rfl : p = q' := Option.some.inj (hp.symm.trans (hasks ▸ hq'))
    have hmin : q = min (if p < Cpp.ladderBase + Cpp.ladderLen then p else Cpp.int64Max)
        ladderLen := by
      subst hpq
      by_cases hp' : q < Cpp.ladderBase + Cpp.ladderLen
      · rw [if_pos hp']
        simp only [Cpp.ladderBase, Cpp.ladderLen, ladderLen] at *
        omega
      · rw [if_neg hp']
        simp only [Cpp.ladderBase, Cpp.ladderLen, ladderLen, Cpp.int64Max] at *
        omega
    refine Follows.some ?_
    rw [hmin]
    simp only [ofCpp, Cpp.TunedBook.writeBack, hs, if_true]
  · have hbids : (t.writeBack side i d).bids.set i lvl.reset =
        (t.writeBack side i { d with lvl := d.lvl.reset }).bids := by
      simp only [Cpp.TunedBook.writeBack, hs, if_false, List.set_set]
      rfl
    simp only [hbids]
    refine Follows.bind (scanDown_follows _ (by omega)) ?_
    rintro p _ - rfl
    refine Follows.some ?_
    simp only [ofCpp, Cpp.TunedBook.writeBack, hs, if_false]

theorem settle_follows {t : Cpp.TunedBook} (h : t.InBounds) {side : UInt8} {best : ℤ}
    {d : Cpp.TunedBook.Drain} (h0 : Cpp.ladderBase ≤ best)
    (h1 : best < Cpp.ladderBase + Cpp.ladderLen)
    (hd : d.orders.map Resting.price = t.orders.map Resting.price) :
    Follows (fun t' b => b = ofCpp t') (t.settle side best d)
      ((ofCpp t).settle side best (Drain.ofCpp d)) := by
  simp only [Cpp.TunedBook.settle, settle]
  refine Follows.ite Iff.rfl (fun _ => ?_) fun _ => Follows.some (writeBack_ofCpp h0 h1 hd rfl)
  have hreset : (ofCpp t).writeBack side best { Drain.ofCpp d with lvl := d.lvl.reset } =
      ofCpp (t.writeBack side (Cpp.sizeT (best - Cpp.ladderBase)) { d with lvl := d.lvl.reset }) :=
    writeBack_ofCpp h0 h1 hd rfl
  exact hreset ▸ advance_follows h h0 h1

/-- **The two guards agree** within the bounds: off the ladder, the pointer of a side is at the
sentinel that the one comparison of Go's guard excludes. -/
theorem bestCrossing_ofCpp {t : Cpp.TunedBook} (h : t.InBounds) (side : UInt8) (price : ℤ) :
    (ofCpp t).bestCrossing side price =
      if Cpp.TunedBook.Crossing side price (t.best side) then some (t.best side) else none := by
  have hb0 := h.bid_lower
  have ha0 := h.ask_lower
  have ha1 := h.ask_upper
  have hb1 := h.bid_upper
  have hask : (ofCpp t).bestAsk = min t.bestAsk ladderLen := rfl
  have hbid : (ofCpp t).bestBid = t.bestBid := rfl
  have hiff : Cpp.TunedBook.Crossing side price (t.best side) ↔
      if side = sideBid then t.bestAsk < ladderLen ∧ t.bestAsk ≤ price
        else 0 ≤ t.bestBid ∧ price ≤ t.bestBid := by
    by_cases hs : side = Cpp.sideBid <;>
      simp only [Cpp.TunedBook.Crossing, Cpp.TunedBook.best, Cpp.Book.crosses, sideBid_eq,
        Cpp.ladderBase, Cpp.ladderLen, ladderLen, hs, if_true, if_false] at * <;>
      omega
  simp only [bestCrossing]
  by_cases hs : side = sideBid
  · rw [if_pos hs] at hiff ⊢
    have hbest : t.best side = t.bestAsk := if_pos hs
    by_cases hc : t.bestAsk < ladderLen ∧ t.bestAsk ≤ price
    · rw [if_pos (hiff.mpr hc), if_neg (by omega), hask, hbest, min_eq_left hc.1.le]
    · rw [if_neg (hiff.not.mpr hc), if_pos (by omega)]
  · rw [if_neg hs] at hiff ⊢
    have hbest : t.best side = t.bestBid := if_neg hs
    by_cases hc : 0 ≤ t.bestBid ∧ price ≤ t.bestBid
    · rw [if_pos (hiff.mpr hc), if_neg (by omega), hbid, hbest]
    · rw [if_neg (hiff.not.mpr hc), if_pos (by omega)]

/-- The outer loop on the image. -/
def SweepFollows (s : Cpp.TunedBook.Sweep) (s' : Sweep) : Prop :=
  s' = { book := ofCpp s.book, qty := s.qty } ∧ s.book.InBounds

@[simp] theorem opposite_ofCpp (t : Cpp.TunedBook) (side : UInt8) :
    (ofCpp t).opposite side = t.opposite side := rfl

/-- **A round of the outer loop** on the image is the image of the round. -/
theorem sweepStep_follows {side : UInt8} {price : ℤ} {s : Cpp.TunedBook.Sweep} {s' : Sweep}
    (h : SweepFollows s s') :
    Follows (Option.Rel SweepFollows) (Cpp.TunedBook.sweepStep side price s)
      (sweepStep side price s') := by
  obtain ⟨rfl, hin⟩ := h
  rw [sweepStep, bestCrossing_ofCpp hin]
  by_cases hexit : s.qty ≤ 0 ∨ ¬ Cpp.TunedBook.Crossing side price (s.book.best side)
  · rw [Cpp.TunedBook.sweepStep_of_exit hexit]
    by_cases hq : 0 < s.qty
    · rw [if_pos hq, if_neg (hexit.resolve_left (not_le.mpr hq))]
      exact Follows.some .none
    · rw [if_neg hq]
      exact Follows.some .none
  · simp only [not_or, not_le, not_not] at hexit
    obtain ⟨hq, hc⟩ := hexit
    have h0 := hc.1
    have h1 := hc.2.1
    rw [Cpp.TunedBook.sweepStep_of_crossing hq hc, if_pos hq, if_pos hc]
    simp only [Option.bind_eq_bind, opposite_ofCpp, index_ladder h0 h1]
    refine Follows.bind (R := Eq) (fun lvl hlvl => ⟨lvl, hlvl, rfl⟩) ?_
    rintro lvl _ - rfl
    refine Follows.bind (drain_follows ⟨rfl, rfl⟩) ?_
    rintro d _ - ⟨rfl, hprices⟩
    refine Follows.bind (settle_follows hin h0 h1 hprices) ?_
    rintro t _ ht rfl
    exact Follows.some (.some ⟨rfl, hin.settle h0 h1 ht⟩)

theorem sweep_follows (side : UInt8) (price : ℤ) {s : Cpp.TunedBook.Sweep} {s' : Sweep}
    (h : SweepFollows s s') :
    Follows SweepFollows (Cpp.TunedBook.sweep side price s) (sweep side price s') := by
  refine (Follows.loop (Cpp.TunedBook.sweep_variant side price) ?_ (fun _ _ => sweepStep_follows)
    h).mono fun _ _ h => h.1
  rintro s _ ⟨rfl, -⟩
  simp only [Sweep.variant, Cpp.TunedBook.Sweep.variant, ofCpp, sideBid_eq, Cpp.ladderBase,
    Cpp.ladderLen, ladderLen, Nat.cast_ofNat]
  by_cases hs : side = Cpp.sideBid
  · simp only [hs, if_true]
    omega
  · simp only [hs, if_false]
    omega

/-! ## The operations -/

/-- A state of the C++ book within its bounds, and its image. -/
def Image (t : Cpp.TunedBook) (b : TunedBook) : Prop := b = ofCpp t ∧ t.InBounds

/-- The record of a resting order, in one array or in two. -/
theorem restRecord_follows {t : Cpp.TunedBook} {b : TunedBook} (h : b = ofCpp t) {price qty : ℤ}
    {id : UInt64} :
    Follows (fun t' b => b = ofCpp t')
      (t.orders[id.toNat]?.bind fun _ =>
        some { t with orders := t.orders.set id.toNat ⟨price, qty⟩, live := t.live + 1 })
      (b.price[id.toNat]?.bind fun _ => b.oqty[id.toNat]?.bind fun _ =>
        some { b with
          price := b.price.set id.toNat price
          oqty := b.oqty.set id.toNat qty
          live := b.live + 1 }) := by
  subst h
  refine Follows.skip ?_
  intro r hr
  have hp : (ofCpp t).price[id.toNat]? = some r.price := by
    simp only [ofCpp, List.getElem?_map, hr, Option.map_some]
  have hq : (ofCpp t).oqty[id.toNat]? = some r.qty := by
    simp only [ofCpp, List.getElem?_map, hr, Option.map_some]
  rw [hp, hq, Option.bind_some, Option.bind_some]
  refine Follows.some ?_
  simp only [ofCpp, List.map_set]
  rfl

theorem rest_follows {t : Cpp.TunedBook} (h : t.InBounds) (side : UInt8) {price : ℤ} (qty : ℤ)
    (id : UInt64) (h0 : Cpp.ladderBase ≤ price) (h1 : price < Cpp.ladderBase + Cpp.ladderLen) :
    Follows Image (t.rest side price qty id) ((ofCpp t).rest side price qty id) := by
  suffices hrest : Follows (fun t' b => b = ofCpp t') (t.rest side price qty id)
      ((ofCpp t).rest side price qty id) from
    fun t' ht' => (hrest t' ht').imp fun b hb => ⟨hb.1, hb.2, h.rest h0 h1 ht'⟩
  rw [Cpp.TunedBook.rest, rest]
  simp only [Option.bind_eq_bind, toNat_eq_sizeT h0 h1, index_ladder h0 h1]
  refine Follows.ite Iff.rfl (fun _ => ?_) fun _ => ?_
  · refine Follows.bind (R := Eq) (fun lvl hlvl => ⟨lvl, hlvl, rfl⟩) ?_
    rintro lvl _ - rfl
    exact restRecord_follows rfl
  · refine Follows.bind (R := Eq) (fun lvl hlvl => ⟨lvl, hlvl, rfl⟩) ?_
    rintro lvl _ - rfl
    refine restRecord_follows ?_
    simp only [ofCpp, min_right_comm]

theorem limit_follows {t : Cpp.TunedBook} (h : t.InBounds) (side : UInt8) {price : ℤ} (qty : ℤ)
    (id : UInt64) (h0 : Cpp.ladderBase ≤ price) (h1 : price < Cpp.ladderBase + Cpp.ladderLen) :
    Follows Image (t.limit side price qty id) ((ofCpp t).limit side price qty id) := by
  rw [Cpp.TunedBook.limit, limit]
  refine Follows.bind (sweep_follows side price ⟨rfl, h⟩) ?_
  rintro s _ - ⟨rfl, hin⟩
  exact Follows.ite Iff.rfl (fun _ => rest_follows hin side s.qty id h0 h1)
    fun _ => Follows.some ⟨rfl, hin⟩

theorem cancel_follows {t : Cpp.TunedBook} (h : t.InBounds) (id : UInt64) :
    Follows Image (t.cancel id) ((ofCpp t).cancel id) := by
  rw [Cpp.TunedBook.cancel, cancel]
  refine Follows.bind (R := fun r q => q = r.qty) ?_ ?_
  · intro r hr
    exact ⟨r.qty, by simp only [ofCpp, List.getElem?_map, hr, Option.map_some], rfl⟩
  · rintro r _ hr rfl
    by_cases hq : r.qty = 0
    · simp only [hq, ne_eq, not_true_eq_false, if_false]
      exact Follows.some ⟨rfl, h⟩
    · simp only [hq, ne_eq, not_false_eq_true, if_true]
      refine Follows.some ⟨?_, ⟨h.1, h.2, h.3, h.4, h.5, h.6⟩⟩
      simp only [ofCpp, map_price_set hr, List.map_set]
      rfl

/-! ## Runs -/

theorem apply_follows {maxId : UInt64} {t : Cpp.TunedBook} (h : t.InBounds) {op : Cpp.Op}
    (hop : op.InRange maxId) : Follows Image (t.apply op) ((ofCpp t).apply op) := by
  cases op with
  | limit side price qty id => exact limit_follows h side qty id hop.1.1 hop.1.2
  | cancel id => exact cancel_follows h id

@[simp] theorem ofCpp_new (maxId : UInt64) : ofCpp (Cpp.TunedBook.new maxId) = new maxId := by
  simp only [ofCpp, Cpp.TunedBook.new, new, List.map_replicate]
  rfl

/-- **Runs in range**: Go's tuned book is the image of the one in C++ after every sequence. -/
theorem run_follows {maxId : UInt64} {ops : List Cpp.Op} (hops : ∀ op ∈ ops, op.InRange maxId) :
    Follows Image (Cpp.TunedBook.run maxId ops) (run maxId ops) := by
  refine (Follows.run (R := fun l t b => (∀ op ∈ l, op.InRange maxId) ∧ Image t b) ?_
    ⟨hops, (ofCpp_new maxId).symm, Cpp.TunedBook.inBounds_new maxId⟩).mono fun _ _ h => h.2
  rintro op l t _ ⟨hops, rfl, hin⟩
  exact (apply_follows hin (hops op List.mem_cons_self)).mono fun _ _ h =>
    ⟨fun op' hop' => hops op' (List.mem_cons_of_mem op hop'), h⟩

/-- One more operation of a run. -/
@[simp] theorem run_concat (maxId : UInt64) (ops : List Cpp.Op) (op : Cpp.Op) :
    run maxId (ops ++ [op]) = (run maxId ops).bind fun b => b.apply op := by
  rw [run, run, List.foldlM_append]
  simp

/-! ## The checksum -/

@[simp] theorem mix_eq (acc id : UInt64) (r : Resting) :
    mix acc id r.price r.qty = Cpp.mix acc id r := rfl

theorem foldLevel_follows (orders : List Resting) (acc : UInt64) {lvl : TunedLevel}
    (h : lvl.head ≤ lvl.ids.length) :
    Follows Eq (Cpp.TunedBook.foldLevel orders acc lvl)
      (foldLevel (orders.map Resting.price) (orders.map Resting.qty) acc lvl) := by
  rw [Cpp.TunedBook.foldLevel, foldLevel, if_pos h]
  refine Follows.fold (P := Eq) ?_ (List.forall₂_same.mpr fun _ _ => rfl) rfl
  rintro id _ acc _ rfl rfl
  refine Follows.skip ?_
  intro r hr
  simp only [List.getElem?_map, hr, Option.map_some, Option.bind_eq_bind, Option.bind_some]
  by_cases hq : r.qty = 0
  · simp only [hq, ne_eq, not_true_eq_false, if_false]
    exact Follows.some rfl
  · simp only [hq, ne_eq, not_false_eq_true, if_true]
    exact Follows.some (mix_eq acc id r).symm

theorem foldSide_follows (orders : List Resting) {side : List TunedLevel}
    (h : ∀ lvl ∈ side, lvl.head ≤ lvl.ids.length) (acc : UInt64) :
    Follows Eq (Cpp.TunedBook.foldSide orders acc side)
      (side.foldlM (foldLevel (orders.map Resting.price) (orders.map Resting.qty)) acc) := by
  refine Follows.fold (P := fun lvl lvl' => lvl' = lvl ∧ lvl.head ≤ lvl.ids.length) ?_
    (List.forall₂_same.mpr fun lvl hlvl => ⟨rfl, h lvl hlvl⟩) rfl
  rintro lvl _ acc _ ⟨rfl, hle⟩ rfl
  exact foldLevel_follows orders acc hle

/-- **The checksum of the image** is the checksum. -/
theorem checksum_follows {t : Cpp.TunedBook}
    (h : ∀ lvl ∈ t.bids ++ t.asks, lvl.head ≤ lvl.ids.length) :
    Follows Eq t.checksum (ofCpp t).checksum := by
  rw [Cpp.TunedBook.checksum, checksum]
  refine Follows.bind (foldSide_follows t.orders (fun lvl hlvl =>
    h lvl (List.mem_append.mpr (Or.inl hlvl))) 0) ?_
  rintro acc _ - rfl
  exact foldSide_follows t.orders (fun lvl hlvl => h lvl (List.mem_append.mpr (Or.inr hlvl))) acc

end TunedBook
end LmaxBench.Go
