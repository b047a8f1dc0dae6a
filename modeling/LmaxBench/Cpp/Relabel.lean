import Mathlib.Algebra.BigOperators.Ring.List
import LmaxBench.Cpp.MarketRun

/-!
# Other prices, ids and units

A book cannot tell the units it trades in. Prices may be mapped by anything that keeps their order,
ids may be renamed, quantities may be counted in smaller units, and bids may be told as asks, with
the prices the other way round: the run on operations told in the new terms is the old run, told in
the new terms.

## Main definitions

* `Relabel` — the new terms, with what makes them as good as the old ones.
* `Relabel.op`, `Relabel.order`, `Relabel.fill` — operations, orders and fills in the new terms.
* `Relabel.apply_market` — the exchange in the new terms.
* `Book.Retells`, `Book.relabelled` — the book in the new terms.
-/

namespace LmaxBench.Cpp

/-- New terms: prices, ids, units of quantity, and which side is which. -/
structure Relabel where
  price : ℤ → ℤ
  id : UInt64 → UInt64
  /-- One old unit of quantity is `units` new ones. -/
  units : ℤ
  /-- Bids are told as asks, and asks as bids. -/
  flip : Bool
  price_lt_iff : ∀ p p', price p < price p' ↔ if flip then p' < p else p < p'
  id_injective : Function.Injective id
  units_pos : 0 < units

namespace Relabel

variable (φ : Relabel)

def side (s : UInt8) : UInt8 := if φ.flip then otherSide s else s

def op : Op → Op
  | .limit s p qty id => .limit (φ.side s) (φ.price p) (φ.units * qty) (φ.id id)
  | .cancel id => .cancel (φ.id id)

def order (o : LiveOrder) : LiveOrder := (φ.id o.1, ⟨φ.price o.price, φ.units * o.qty⟩)

def fill (f : Fill) : Fill := ⟨φ.id f.maker, φ.units * f.qty⟩

/-- The market in the new terms. -/
def market (m : Market) : Market :=
  { bids := (if φ.flip then m.asks else m.bids).map φ.order
    asks := (if φ.flip then m.bids else m.asks).map φ.order
    fills := m.fills
    volume := UInt64.ofInt φ.units * m.volume }

variable {φ}

theorem side_eq_bid (s : UInt8) :
    φ.side s = sideBid ↔ if φ.flip then s ≠ sideBid else s = sideBid := by
  rw [side]
  split
  · rw [otherSide]
    split <;> simp_all [sideAsk_ne_sideBid]
  · rfl

/-- **Better stays better.** -/
@[simp] theorem better_iff (s : UInt8) (p p' : ℤ) :
    Book.better (φ.side s) (φ.price p) (φ.price p') ↔ Book.better s p p' := by
  rw [Book.better, Book.better, φ.price_lt_iff, φ.price_lt_iff]
  simp only [side_eq_bid]
  cases φ.flip <;> by_cases hs : s = sideBid <;> simp [hs]

@[simp] theorem better_other_iff (s : UInt8) (p p' : ℤ) :
    Book.better (otherSide (φ.side s)) (φ.price p) (φ.price p') ↔
      Book.better (otherSide s) p p' := by
  rw [← better_iff (φ := φ) (otherSide s)]
  have hside : otherSide (φ.side s) = sideBid ↔ φ.side (otherSide s) = sideBid := by
    rw [side_eq_bid, otherSide]
    simp only [side_eq_bid]
    cases φ.flip <;> by_cases hs : s = sideBid <;> simp [hs, otherSide, sideAsk_ne_sideBid]
  simp only [Book.better, hside]

@[simp] theorem crosses_iff (s : UInt8) (p p' : ℤ) :
    Book.crosses (φ.side s) (φ.price p) (φ.price p') ↔ Book.crosses s p p' := by
  have hcrosses : ∀ (s : UInt8) (p p' : ℤ), Book.crosses s p p' ↔ ¬ Book.better s p p' := by
    intro s p p'
    rw [Book.crosses, Book.better]
    split <;> exact not_lt.symm
  rw [hcrosses, hcrosses, better_iff]

/-! ## The market -/

/-- The orders of the market in the new terms. -/
theorem mem_market {m : Market} {id : UInt64} {r' : Resting} :
    ((φ.id id, r') ∈ (φ.market m).bids ∨ (φ.id id, r') ∈ (φ.market m).asks) ↔
      ∃ r, ((id, r) ∈ m.bids ∨ (id, r) ∈ m.asks) ∧
        (⟨φ.price r.price, φ.units * r.qty⟩ : Resting) = r' := by
  have hmap : ∀ l : List LiveOrder, (φ.id id, r') ∈ l.map φ.order ↔
      ∃ r, (id, r) ∈ l ∧ (⟨φ.price r.price, φ.units * r.qty⟩ : Resting) = r' := by
    intro l
    rw [List.mem_map]
    constructor
    · rintro ⟨⟨id', r⟩, ho, heq⟩
      obtain ⟨hid, hr⟩ := Prod.mk.inj heq
      obtain rfl := φ.id_injective hid
      exact ⟨r, ho, hr⟩
    · rintro ⟨r, ho, rfl⟩
      exact ⟨(id, r), ho, rfl⟩
  rw [market]
  cases φ.flip <;> simp only [hmap, Bool.false_eq_true, if_true, if_false, or_and_right, exists_or]
  exact or_comm

variable (m : Market) (s : UInt8) (p qty : ℤ)

@[simp] theorem own_market : (φ.market m).own (φ.side s) = (m.own s).map φ.order := by
  rw [Market.own, Market.own, market]
  simp only [side_eq_bid]
  cases φ.flip <;> by_cases hs : s = sideBid <;> simp [hs]

@[simp] theorem opposite_market :
    (φ.market m).opposite (φ.side s) = (m.opposite s).map φ.order := by
  rw [Market.opposite, Market.opposite, market]
  simp only [side_eq_bid]
  cases φ.flip <;> by_cases hs : s = sideBid <;> simp [hs]

@[simp] theorem crossing_market :
    (φ.market m).crossing (φ.side s) (φ.price p) = (m.crossing s p).map φ.order := by
  rw [Market.crossing, Market.crossing, opposite_market, List.filter_map]
  congr 1
  refine List.filter_congr fun o _ => decide_eq_decide.mpr ?_
  exact crosses_iff s p o.price

@[simp] theorem beyond_market :
    (φ.market m).beyond (φ.side s) (φ.price p) = (m.beyond s p).map φ.order := by
  rw [Market.beyond, Market.beyond, opposite_market, List.filter_map]
  congr 1
  refine List.filter_congr fun o _ => decide_eq_decide.mpr ?_
  exact not_congr (crosses_iff s p o.price)

@[simp] theorem place_market (o : LiveOrder) (l : List LiveOrder) :
    Market.place (otherSide (φ.side s)) (φ.order o) (l.map φ.order) =
      (Market.place (otherSide s) o l).map φ.order := by
  have hbetter : ∀ o' : LiveOrder,
      Book.better (otherSide (φ.side s)) (φ.order o).price (φ.order o').price ↔
        Book.better (otherSide s) o.price o'.price :=
    fun o' => better_other_iff s o.price o'.price
  rw [Market.place, Market.place, List.filter_map, List.filter_map, List.map_append, List.map_cons]
  congr 2
  · refine List.filter_congr fun o' _ => decide_eq_decide.mpr ?_
    exact not_congr (hbetter o')
  · congr 1
    refine List.filter_congr fun o' _ => decide_eq_decide.mpr ?_
    exact hbetter o'

@[simp] theorem qty_order (o : LiveOrder) : (φ.order o).qty = φ.units * o.qty := rfl

@[simp] theorem reduce_order (o : LiveOrder) (x : ℤ) :
    (φ.order o).reduce (φ.units * x) = φ.order (o.reduce x) := by
  have hqty : φ.units * o.qty - φ.units * x = φ.units * (o.qty - x) := (mul_sub _ _ _).symm
  exact congrArg (fun q => (φ.id o.1, (⟨φ.price o.price, q⟩ : Resting))) hqty

@[simp] theorem limitLog_market :
    (φ.market m).limitLog (φ.side s) (φ.price p) (φ.units * qty) =
      (m.limitLog s p qty).map φ.fill := by
  rw [Market.limitLog, crossing_market, Greedy.fills_scale φ.units_pos qty_order, Market.limitLog,
    List.map_map, List.map_map]
  rfl

@[simp] theorem residual_market :
    (φ.market m).residual (φ.side s) (φ.price p) (φ.units * qty) =
      φ.units * m.residual s p qty := by
  simp [Market.residual, Greedy.residual_scale φ.units_pos qty_order]

@[simp] theorem sum_fill (log : List Fill) :
    ((log.map φ.fill).map Fill.qty).sum = φ.units * (log.map Fill.qty).sum := by
  rw [List.map_map, ← List.sum_map_mul_left]
  rfl

/-- **A limit in the new terms.** -/
@[simp] theorem limit_market (id : UInt64) :
    (φ.market m).limit (φ.side s) (φ.price p) (φ.units * qty) (φ.id id) =
      φ.market (m.limit s p qty id) := by
  have hres := residual_market (φ := φ) m s p qty
  refine Market.ext_sides (φ.side s) ?_ ?_ ?_ ?_
  · rw [own_market, Market.own_limit, Market.own_limit, hres, own_market]
    by_cases hpos : 0 < m.residual s p qty
    · rw [if_pos hpos, if_pos (mul_pos φ.units_pos hpos), ← place_market]
      rfl
    · rw [if_neg hpos, if_neg (fun h => hpos ((mul_pos_iff_of_pos_left φ.units_pos).mp h))]
  · rw [opposite_market, Market.opposite_limit, Market.opposite_limit, crossing_market,
      beyond_market, Greedy.left_scale φ.units_pos qty_order reduce_order, List.map_append]
  · show (φ.market m).fills + _ = m.fills + _
    rw [limitLog_market, List.length_map]
    rfl
  · show (φ.market m).volume + _ = UInt64.ofInt φ.units * (m.volume + _)
    rw [limitLog_market, sum_fill, UInt64.ofInt_mul, UInt64.mul_add]
    rfl

@[simp] theorem cancel_market (id : UInt64) :
    (φ.market m).cancel (φ.id id) = φ.market (m.cancel id) := by
  have hfilter : ∀ l : List LiveOrder, (l.map φ.order).filter (fun o => o.1 ≠ φ.id id) =
      (l.filter fun o => o.1 ≠ id).map φ.order := by
    intro l
    rw [List.filter_map]
    congr 1
    refine List.filter_congr fun o _ => decide_eq_decide.mpr ?_
    exact not_congr φ.id_injective.eq_iff
  rw [Market.cancel, Market.cancel, market, market]
  cases φ.flip <;> simp only [hfilter, Bool.false_eq_true, if_true, if_false]

@[simp] theorem apply_market (op : Op) : (φ.market m).apply (φ.op op) = φ.market (m.apply op) := by
  cases op with
  | limit s p qty id => exact limit_market m s p qty id
  | cancel id => exact cancel_market m id

/-- **A run in the new terms.** -/
@[simp] theorem run_market (ops : List Op) :
    Market.run (ops.map φ.op) = φ.market (Market.run ops) := by
  have hempty : φ.market Market.empty = Market.empty := by
    rw [market, Market.empty]
    cases φ.flip <;> simp
  have hfold : ∀ m : Market, (ops.map φ.op).foldl Market.apply (φ.market m) =
      φ.market (ops.foldl Market.apply m) := by
    induction ops with
    | nil => exact fun m => rfl
    | cons op ops ih =>
      intro m
      rw [List.map_cons, List.foldl_cons, apply_market]
      exact ih (m.apply op)
  rw [Market.run, ← hempty]
  exact hfold Market.empty

end Relabel

/-! ## The book -/

namespace Book

variable {φ : Relabel} {ops : List Op}

theorem neverReused_map (h : NeverReused ops) : NeverReused (ops.map φ.op) := by
  have hids : limitIds (ops.map φ.op) = (limitIds ops).map φ.id := by
    rw [limitIds, limitIds, List.filterMap_map, List.map_filterMap]
    refine List.filterMap_congr ?_
    intro op _
    cases op <;> rfl
  rw [NeverReused, hids]
  exact h.map φ.id_injective

/-- The book `c` tells in the terms `φ` what the book `b` tells. -/
structure Retells (φ : Relabel) (b c : Book) : Prop where
  fills : c.fills = b.fills
  volume : c.volume = UInt64.ofInt φ.units * b.volume
  resting : c.resting = b.resting
  record : ∀ id, c.orders.find? (φ.id id) =
    (b.orders.find? id).map fun r => ⟨φ.price r.price, φ.units * r.qty⟩
  queue : ∀ side, priority (otherSide (φ.side side)) c.orders (c.own (φ.side side)) =
    (priority (otherSide side) b.orders (b.own side)).map φ.order
  log : ∀ side price qty, c.limitLog (φ.side side) (φ.price price) (φ.units * qty) =
    (b.limitLog side price qty).map φ.fill

/-- **A book cannot tell the units it trades in.** -/
theorem relabelled (φ : Relabel) (h : NeverReused ops) :
    Retells φ (run ops) (run (ops.map φ.op)) := by
  have h' : NeverReused (ops.map φ.op) := neverReused_map h
  have hp := placed_run (noLiveReuse_of_neverReused h)
  have hp' := placed_run (noLiveReuse_of_neverReused h')
  have hmarket : (run (ops.map φ.op)).market = φ.market (run ops).market := by
    simp [market_run h', market_run h]
  refine ⟨congrArg Market.fills hmarket, congrArg Market.volume hmarket, ?_, ?_, ?_, ?_⟩
  · rw [← market_resting h' hp' (wellFormed_run _), ← market_resting h hp (wellFormed_run _),
      hmarket]
    rw [Market.resting, Market.resting, Relabel.market]
    cases φ.flip <;> simp [Nat.add_comm]
  · intro id
    refine Option.ext fun r' => ?_
    rw [find?_eq_some_iff_market (wellFormed_run _), hmarket, Relabel.mem_market,
      Option.map_eq_some_iff]
    simp only [find?_eq_some_iff_market (wellFormed_run ops)]
  · intro side
    rw [← market_own, ← market_own, hmarket, Relabel.own_market]
  · intro side price qty
    rw [market_limitLog h' hp', market_limitLog h hp, hmarket, Relabel.limitLog_market]

/-- Bids for asks, prices from the other end of the ladder, even and odd ids swapped, and
quantities in tenths. -/
def swapped : Relabel where
  price p := 4095 - p
  id id := id ^^^ 1
  units := 10
  flip := true
  price_lt_iff p p' := by
    rw [if_pos rfl]
    omega
  id_injective id id' h := (UInt64.xor_left_inj 1).mp h
  units_pos := by decide

theorem relabelled_swapped :
    Retells swapped (run [.limit 1 12 5 1, .limit 1 12 4 2, .cancel 1, .limit 0 13 6 3])
      (run ([.limit 1 12 5 1, .limit 1 12 4 2, .cancel 1, .limit 0 13 6 3].map swapped.op)) :=
  relabelled swapped (by decide)

end Book
end LmaxBench.Cpp
