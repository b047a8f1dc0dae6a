import LmaxBench.Cpp.MarketRun

/-!
# The past does not matter

All that a book remembers of its past is the live orders in their priority, and the counters:
submitting just these orders to an empty book, each for what is left of it, makes no fills and
leads to a book that goes on in the same way, whatever is submitted and cancelled from then on.
The stale entries, the emptied levels and the orders that are gone leave no trace.

## Main definitions

* `Market.Sound` — the orders wait in priority, do not cross and are not used up.
* `Market.relist`, `Market.run_relist` — the limits that put the orders of a market back.
* `Market.later`, `Market.foldl_later` — the counters go along.
* `Book.SameOrders`, `Book.relisted` — two books that go on in the same way.
-/

namespace LmaxBench.Cpp
namespace Market

/-- The orders wait in priority, do not cross and are not used up. -/
structure Sound (m : Market) : Prop where
  bids_sorted : m.bids.Pairwise fun o o' => ¬ Book.better sideAsk o'.price o.price
  asks_sorted : m.asks.Pairwise fun o o' => ¬ Book.better sideBid o'.price o.price
  uncrossed : ∀ o ∈ m.bids, ∀ o' ∈ m.asks, o.price < o'.price
  positive : ∀ o ∈ m.bids ++ m.asks, 0 < o.qty

/-! ## Putting orders back -/

/-- The limits on `side` that put orders back. -/
def relistSide (side : UInt8) (l : List LiveOrder) : List Op :=
  l.map fun o => .limit side o.price o.qty o.1

/-- The limits that put the orders of a market back. -/
def relist (m : Market) : List Op := relistSide sideBid m.bids ++ relistSide sideAsk m.asks

section Side
variable {m : Market} {side : UInt8} {o : LiveOrder} {l : List LiveOrder}

theorem crossing_eq_nil (h : ∀ o' ∈ m.opposite side, ¬ Book.crosses side o.price o'.price) :
    m.crossing side o.price = [] :=
  List.filter_eq_nil_iff.mpr fun o' ho' => by simpa using h o' ho'

theorem beyond_eq (h : ∀ o' ∈ m.opposite side, ¬ Book.crosses side o.price o'.price) :
    m.beyond side o.price = m.opposite side :=
  List.filter_eq_self.mpr fun o' ho' => by simpa using h o' ho'

/-- An order that crosses nothing and is no better than those of its side comes last. -/
theorem limit_last (hcross : ∀ o' ∈ m.opposite side, ¬ Book.crosses side o.price o'.price)
    (hlast : ∀ o' ∈ m.own side, ¬ Book.better (otherSide side) o.price o'.price)
    (hqty : 0 < o.qty) :
    (m.limit side o.price o.qty o.1).own side = m.own side ++ [o] ∧
      (m.limit side o.price o.qty o.1).opposite side = m.opposite side ∧
      (m.limit side o.price o.qty o.1).fills = m.fills ∧
      (m.limit side o.price o.qty o.1).volume = m.volume := by
  have hnil := crossing_eq_nil hcross
  have hres : m.residual side o.price o.qty = o.qty := by
    rw [residual, hnil]
    rfl
  have hlog : m.limitLog side o.price o.qty = [] := by
    rw [limitLog, hnil]
    rfl
  refine ⟨?_, ?_, ?_, ?_⟩
  · have hplace := place_append (Y := []) (o := o) hlast (by simp)
    rw [List.append_nil] at hplace
    rw [own_limit, hres, if_pos hqty]
    exact hplace
  · rw [opposite_limit, hnil, beyond_eq hcross]
    rfl
  · rw [limit, hlog]
    exact UInt64.add_zero _
  · rw [limit, hlog]
    exact UInt64.add_zero _

/-- **Orders that cross nothing are put back in their priority**, behind those that wait. -/
theorem foldl_relistSide
    (hcross : ∀ o ∈ l, ∀ o' ∈ m.opposite side, ¬ Book.crosses side o.price o'.price)
    (hsorted : (m.own side ++ l).Pairwise fun o o' =>
      ¬ Book.better (otherSide side) o'.price o.price)
    (hpos : ∀ o ∈ l, 0 < o.qty) :
    ((relistSide side l).foldl apply m).own side = m.own side ++ l ∧
      ((relistSide side l).foldl apply m).opposite side = m.opposite side ∧
      ((relistSide side l).foldl apply m).fills = m.fills ∧
      ((relistSide side l).foldl apply m).volume = m.volume := by
  induction l generalizing m with
  | nil => exact ⟨(List.append_nil _).symm, rfl, rfl, rfl⟩
  | cons o l ih =>
    have hlast : ∀ o' ∈ m.own side, ¬ Book.better (otherSide side) o.price o'.price :=
      fun o' ho' => (List.pairwise_append.mp hsorted).2.2 o' ho' o List.mem_cons_self
    obtain ⟨hown, hopp, hfills, hvolume⟩ :=
      limit_last (hcross o List.mem_cons_self) hlast (hpos o List.mem_cons_self)
    have hrest := @ih (m.limit side o.price o.qty o.1)
      (fun o₁ ho₁ o' ho' => hcross o₁ (List.mem_cons_of_mem o ho₁) o' (hopp ▸ ho'))
      (by rw [hown, List.append_assoc]; exact hsorted)
      (fun o₁ ho₁ => hpos o₁ (List.mem_cons_of_mem o ho₁))
    rw [hown, hopp, hfills, hvolume, List.append_assoc] at hrest
    exact hrest

end Side

/-- **The orders are put back**, and nothing is traded. -/
theorem run_relist {m : Market} (h : m.Sound) :
    run m.relist = { m with fills := 0, volume := 0 } := by
  have hbids := @foldl_relistSide empty sideBid m.bids (fun _ _ o' ho' => by cases ho')
    h.bids_sorted (fun o ho => h.positive o (List.mem_append_left _ ho))
  obtain ⟨hown, hopp, hfills, hvolume⟩ := hbids
  have hasks : ∀ m₁ : Market, m₁.bids = m.bids → m₁.asks = [] →
      (relistSide sideAsk m.asks).foldl apply m₁ = { m₁ with asks := m.asks } := by
    intro m₁ hb ha
    have hcross : ∀ o ∈ m.asks, ∀ o' ∈ m₁.opposite sideAsk,
        ¬ Book.crosses sideAsk o.price o'.price := by
      intro o ho o' ho'
      have hlt := h.uncrossed o' (hb ▸ ho') o ho
      exact not_le.mpr hlt
    obtain ⟨hown, hopp, hfills, hvolume⟩ := foldl_relistSide hcross
      (by
        have hnil : m₁.own sideAsk = [] := ha
        rw [hnil]
        exact h.asks_sorted)
      (fun o ho => h.positive o (List.mem_append_right _ ho))
    refine ext_sides sideAsk ?_ hopp hfills hvolume
    rw [hown]
    show m₁.asks ++ m.asks = m.asks
    rw [ha, List.nil_append]
  rw [run, relist, List.foldl_append, hasks _ hown hopp, hfills, hvolume]
  have hb : ((relistSide sideBid m.bids).foldl apply empty).bids = m.bids := hown
  rw [hb]
  rfl

/-! ## The counters -/

/-- A market whose counters have already seen some fills. -/
def later (m : Market) (fills volume : UInt64) : Market :=
  { m with fills := m.fills + fills, volume := m.volume + volume }

theorem add_right_comm (a b c : UInt64) : a + b + c = a + c + b := by
  rw [UInt64.add_assoc, UInt64.add_comm b, ← UInt64.add_assoc]

@[simp] theorem apply_later (m : Market) (fills volume : UInt64) (op : Op) :
    (m.later fills volume).apply op = (m.apply op).later fills volume := by
  cases op with
  | limit side price qty id =>
    refine ext_sides side rfl rfl ?_ ?_
    · exact add_right_comm _ _ _
    · exact add_right_comm _ _ _
  | cancel id => rfl

/-- **The counters go along**, whatever happens. -/
@[simp] theorem foldl_later (m : Market) (fills volume : UInt64) (ops : List Op) :
    ops.foldl apply (m.later fills volume) = (ops.foldl apply m).later fills volume := by
  induction ops generalizing m with
  | nil => rfl
  | cons op ops ih =>
    rw [List.foldl_cons, apply_later, List.foldl_cons]
    exact ih (m.apply op)

/-- **A run resumes** from the orders that wait. -/
theorem run_resume {ops : List Op} (h : (run ops).Sound) (post : List Op) :
    run (ops ++ post) =
      (run ((run ops).relist ++ post)).later (run ops).fills (run ops).volume := by
  have hlater : run ops = (run (run ops).relist).later (run ops).fills (run ops).volume := by
    rw [run_relist h, later]
    simp only [UInt64.zero_add]
  rw [run, List.foldl_append, run, List.foldl_append, ← foldl_later]
  exact congrArg (post.foldl apply) hlater

end Market

/-! ## The book -/

namespace Book

variable {ops post : List Op} {b : Book}

/-- What waits on the market of a book is sound. -/
theorem sound_market (hops : NeverReused ops) (hp : b.Placed ops) (hwf : b.WellFormed) :
    b.market.Sound where
  bids_sorted := priority_sorted (pricedBy_own hops hp sideBid) sideAsk
  asks_sorted := priority_sorted (pricedBy_own hops hp sideAsk) sideBid
  uncrossed := by
    intro o ho o' ho'
    have hbid : o ∈ liveOn b.orders b.bids := by
      rw [← ascending_bids (pricedBy_own hops hp sideBid)]
      exact (List.mem_insertionSort _).mpr ho
    exact price_lt hops hp hwf hbid ho'
  positive := by
    rintro ⟨id, r⟩ ho
    have hr : b.orders.find? id = some r :=
      (find?_eq_some_iff_market hwf).mpr (List.mem_append.mp ho)
    exact hwf.positive hr

/-- The ids that wait on the market of a book, in some order, are those of its records. -/
theorem map_fst_market_perm (hops : NeverReused ops) (hp : b.Placed ops) (hwf : b.WellFormed) :
    ((b.market.bids ++ b.market.asks).map Prod.fst).Perm (b.orders.entries.map Prod.fst) := by
  have hbids : b.market.bids.Perm (liveOn b.orders b.bids) := by
    rw [← ascending_bids (pricedBy_own hops hp sideBid)]
    exact (List.perm_insertionSort _ _).symm
  exact ((hbids.append_right b.market.asks).trans (hp.folded_perm hops hwf)).map Prod.fst

@[simp] theorem limitIds_relist (m : Market) :
    limitIds m.relist = (m.bids ++ m.asks).map Prod.fst := by
  have hside : ∀ (side : UInt8) (l : List LiveOrder),
      limitIds (Market.relistSide side l) = l.map Prod.fst := by
    intro side l
    rw [limitIds, Market.relistSide, List.filterMap_map, ← List.filterMap_eq_map]
    rfl
  rw [Market.relist, limitIds_append, hside, hside, List.map_append]

/-- What is put back uses no id twice, nor one that is used later. -/
theorem neverReused_relist (h : NeverReused (ops ++ post)) :
    NeverReused ((run ops).market.relist ++ post) := by
  have hops : NeverReused ops := h.of_prefix (List.prefix_append _ _)
  have hp := placed_run (noLiveReuse_of_neverReused hops)
  have hperm := map_fst_market_perm hops hp (wellFormed_run ops)
  rw [NeverReused, limitIds_append] at h ⊢
  obtain ⟨-, hpost, hdisjoint⟩ := List.nodup_append'.mp h
  rw [limitIds_relist]
  refine List.nodup_append'.mpr ⟨hperm.nodup_iff.mpr (run ops).orders.keys_nodup, hpost, ?_⟩
  intro id hid hid'
  obtain ⟨⟨id, r⟩, he, rfl⟩ := List.mem_map.mp (hperm.mem_iff.mp hid)
  obtain ⟨side, qty, -, hop, -⟩ := hp.record (OrdMap.mem_entries.mp he)
  exact hdisjoint (mem_limitIds.mpr ⟨side, r.price, qty, hop⟩) hid'

/-- Two books that hold the same orders: they report the same of them, and every limit makes the
same fills. -/
structure SameOrders (b e : Book) : Prop where
  resting : b.resting = e.resting
  checksum : b.checksum = e.checksum
  live : ∀ side, liveOn b.orders (b.own side) = liveOn e.orders (e.own side)
  log : ∀ side price qty, b.limitLog side price qty = e.limitLog side price qty

theorem sameOrders_of_market {ops' : List Op} {e : Book} (hops : NeverReused ops)
    (hops' : NeverReused ops') (hb : b.WellFormed) (he : e.WellFormed) (hbp : b.Placed ops)
    (hep : e.Placed ops') (hbids : b.market.bids = e.market.bids)
    (hasks : b.market.asks = e.market.asks) : b.SameOrders e where
  resting := by
    rw [← market_resting hops hbp hb, ← market_resting hops' hep he, Market.resting, Market.resting,
      hbids, hasks]
  checksum := by
    rw [← market_checksum hops hbp, ← market_checksum hops' hep, Market.checksum, Market.checksum,
      hbids, hasks]
  live := by
    intro side
    have hown : priority (otherSide side) b.orders (b.own side) =
        priority (otherSide side) e.orders (e.own side) := by
      rw [← market_own, ← market_own, Market.own, Market.own, hbids, hasks]
    exact liveOn_eq_of_priority (pricedBy_own hops hbp side) (pricedBy_own hops' hep side) hown
  log := by
    intro side price qty
    have hcross : b.market.crossing side price = e.market.crossing side price := by
      rw [Market.crossing, Market.crossing, Market.opposite, Market.opposite, hbids, hasks]
    rw [market_limitLog hops hbp, market_limitLog hops' hep, Market.limitLog,
      Market.limitLog, hcross]

/-- **The past does not matter.** Submitting the live orders of a book, for what is left of them,
to an empty book makes no fills; whatever follows, the two books hold the same orders, make the
same fills and count the same from there on. -/
theorem relisted (h : NeverReused (ops ++ post)) :
    (run (run ops).market.relist).fills = 0 ∧ (run (run ops).market.relist).volume = 0 ∧
      (run (ops ++ post)).SameOrders (run ((run ops).market.relist ++ post)) ∧
      (run (ops ++ post)).fills =
        (run ((run ops).market.relist ++ post)).fills + (run ops).fills ∧
      (run (ops ++ post)).volume =
        (run ((run ops).market.relist ++ post)).volume + (run ops).volume := by
  have hops : NeverReused ops := h.of_prefix (List.prefix_append _ _)
  have hrelist := neverReused_relist h
  have hsound := sound_market hops (placed_run (noLiveReuse_of_neverReused hops))
    (wellFormed_run ops)
  have hzero := market_run (hrelist.of_prefix (List.prefix_append _ _))
  rw [Market.run_relist hsound] at hzero
  have hresume : (run (ops ++ post)).market =
      (run ((run ops).market.relist ++ post)).market.later (run ops).fills (run ops).volume := by
    rw [market_run h, market_run hrelist, market_run hops]
    have hruns := Market.run_resume (market_run hops ▸ hsound) post
    rw [← market_run hops] at hruns ⊢
    exact hruns
  have hbids := congrArg Market.bids hresume
  have hasks := congrArg Market.asks hresume
  refine ⟨congrArg Market.fills hzero, congrArg Market.volume hzero, ?_,
    congrArg Market.fills hresume, congrArg Market.volume hresume⟩
  exact sameOrders_of_market h hrelist (wellFormed_run _) (wellFormed_run _)
    (placed_run (noLiveReuse_of_neverReused h)) (placed_run (noLiveReuse_of_neverReused hrelist))
    hbids hasks

/-- A partial fill and a stale entry are left behind. -/
theorem relisted_stale :
    (run (run [.limit 1 12 5 1, .limit 1 12 4 2, .limit 0 12 3 3,
        .cancel 2]).market.relist).fills = 0 ∧
      (run ([.limit 1 12 5 1, .limit 1 12 4 2, .limit 0 12 3 3, .cancel 2] ++
          [.limit 0 13 4 4])).SameOrders
        (run ((run [.limit 1 12 5 1, .limit 1 12 4 2, .limit 0 12 3 3, .cancel 2]).market.relist ++
          [.limit 0 13 4 4])) :=
  have hfresh : NeverReused ([.limit 1 12 5 1, .limit 1 12 4 2, .limit 0 12 3 3, .cancel 2] ++
      [.limit 0 13 4 4]) := by decide
  ⟨(relisted hfresh).1, (relisted hfresh).2.2.1⟩

end Book
end LmaxBench.Cpp
