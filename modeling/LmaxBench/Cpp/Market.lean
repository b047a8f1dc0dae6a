import LmaxBench.Lib.Greedy
import LmaxBench.Cpp.BookPlacement

/-!
# The market

What the book is for: on each side a list of live orders in priority, best price first
and in the order of submission within a price. There are no queues, levels or stale
entries here. A limit allocates its quantity greedily to the crossing orders of the other
side, and what is left is placed behind all orders of its own side that are no worse.

`market` reads this off a book. Matching, resting and cancelling commute with it as long
as no id is used twice, so that a book behaves as the market it stands for.

## Main definitions

* `Market`, `Market.limit`, `Market.cancel` — the abstract model.
* `Book.priority`, `Book.market` — the market a book stands for.
* `Book.drain_live`, `Book.sweep_live` — the loops allocate greedily.
* `Book.market_limit`, `Book.market_cancel` — the operations commute.
-/

namespace LmaxBench.Cpp

/-- A live order: its id, and its record. -/
abbrev LiveOrder := UInt64 × Resting

namespace LiveOrder

def qty (o : LiveOrder) : ℤ := o.2.qty

def price (o : LiveOrder) : ℤ := o.2.price

/-- The order after `m` of it was matched. -/
def reduce (o : LiveOrder) (m : ℤ) : LiveOrder := (o.1, { o.2 with qty := o.2.qty - m })

end LiveOrder

/-- The live orders of both sides, in priority, and the counters. -/
@[ext] structure Market where
  bids : List LiveOrder
  asks : List LiveOrder
  fills : UInt64
  volume : UInt64
  deriving DecidableEq

namespace Market

/-- The orders a taker on `side` matches against. -/
def opposite (m : Market) (side : UInt8) : List LiveOrder :=
  if side = sideBid then m.asks else m.bids

/-- The orders a residual of a taker on `side` joins. -/
def own (m : Market) (side : UInt8) : List LiveOrder := if side = sideBid then m.bids else m.asks

/-- The orders of the other side that a limit crosses, in priority. -/
def crossing (m : Market) (side : UInt8) (price : ℤ) : List LiveOrder :=
  (m.opposite side).filter fun o => Book.crosses side price o.price

/-- The orders of the other side that a limit does not cross. -/
def beyond (m : Market) (side : UInt8) (price : ℤ) : List LiveOrder :=
  (m.opposite side).filter fun o => ¬ Book.crosses side price o.price

/-- Place an order behind those that are no worse; `side` is that of a taker that meets
them. -/
def place (side : UInt8) (o : LiveOrder) (l : List LiveOrder) : List LiveOrder :=
  (l.filter fun o' => ¬ Book.better side o.price o'.price) ++
    o :: l.filter fun o' => Book.better side o.price o'.price

/-- The fills a limit makes, in order. -/
def limitLog (m : Market) (side : UInt8) (price qty : ℤ) : List Fill :=
  (Greedy.fills LiveOrder.qty qty (m.crossing side price)).map fun f => ⟨f.1.1, f.2⟩

/-- What is left of a limit after matching. -/
def residual (m : Market) (side : UInt8) (price qty : ℤ) : ℤ :=
  Greedy.residual LiveOrder.qty qty (m.crossing side price)

/-- A limit: greedy allocation, then the residual is placed. -/
def limit (m : Market) (side : UInt8) (price qty : ℤ) (id : UInt64) : Market :=
  let opp := Greedy.left LiveOrder.qty LiveOrder.reduce qty (m.crossing side price) ++
    m.beyond side price
  let left := m.residual side price qty
  let own :=
    if 0 < left then place (otherSide side) (id, ⟨price, left⟩) (m.own side) else m.own side
  { bids := if side = sideBid then own else opp
    asks := if side = sideBid then opp else own
    fills := m.fills + UInt64.ofNat (m.limitLog side price qty).length
    volume := m.volume + UInt64.ofInt ((m.limitLog side price qty).map Fill.qty).sum }

theorem place_append {side : UInt8} {o : LiveOrder} {X Y : List LiveOrder}
    (hX : ∀ x ∈ X, ¬ Book.better side o.price x.price)
    (hY : ∀ y ∈ Y, Book.better side o.price y.price) : place side o (X ++ Y) = X ++ o :: Y := by
  have hfX : (X.filter fun x => Book.better side o.price x.price) = [] :=
    List.filter_eq_nil_iff.mpr fun x hx => by simpa using hX x hx
  have hfX' : (X.filter fun x => ¬ Book.better side o.price x.price) = X :=
    List.filter_eq_self.mpr fun x hx => by simpa using hX x hx
  have hfY : (Y.filter fun y => Book.better side o.price y.price) = Y :=
    List.filter_eq_self.mpr fun y hy => by simpa using hY y hy
  have hfY' : (Y.filter fun y => ¬ Book.better side o.price y.price) = [] :=
    List.filter_eq_nil_iff.mpr fun y hy => by simpa using hY y hy
  rw [place]
  rw [List.filter_append, List.filter_append, hfX, hfX', hfY, hfY', List.append_nil,
    List.nil_append]

theorem ext_sides {m m' : Market} (side : UInt8) (hown : m.own side = m'.own side)
    (hopp : m.opposite side = m'.opposite side) (hfills : m.fills = m'.fills)
    (hvolume : m.volume = m'.volume) : m = m' := by
  simp only [own, opposite] at *
  split at hown <;> simp_all [Market.ext_iff]

theorem opposite_limit (m : Market) (side : UInt8) (price qty : ℤ) (id : UInt64) :
    (m.limit side price qty id).opposite side =
      Greedy.left LiveOrder.qty LiveOrder.reduce qty (m.crossing side price) ++
        m.beyond side price := by
  rw [opposite, limit]
  split <;> rfl

theorem own_limit (m : Market) (side : UInt8) (price qty : ℤ) (id : UInt64) :
    (m.limit side price qty id).own side =
      if 0 < m.residual side price qty then
        place (otherSide side) (id, ⟨price, m.residual side price qty⟩) (m.own side)
      else m.own side := by
  by_cases hs : side = sideBid <;> simp [own, limit, hs]

/-- A cancel removes the order. -/
def cancel (m : Market) (id : UInt64) : Market :=
  { m with bids := m.bids.filter (·.1 ≠ id), asks := m.asks.filter (·.1 ≠ id) }

end Market

namespace Book

/-! ## The market of a book -/

/-- The live orders of the levels `m`, in the order in which a taker on `side` meets
them. -/
def priority (side : UInt8) (orders : Orders) (m : Levels) : List LiveOrder :=
  liveIn orders ((bestFirst side m).flatMap Prod.snd)

/-- The market a book stands for. -/
def market (b : Book) : Market :=
  { bids := priority sideAsk b.orders b.bids
    asks := priority sideBid b.orders b.asks
    fills := b.fills
    volume := b.volume }

theorem bestFirst_congr {side side' : UInt8} (h : side = sideBid ↔ side' = sideBid) (m : Levels) :
    bestFirst side m = bestFirst side' m := by
  simp only [bestFirst]
  simp only [h]

@[simp] theorem market_opposite (b : Book) (side : UInt8) :
    b.market.opposite side = priority side b.orders (b.opposite side) := by
  simp only [Market.opposite, market, opposite, priority]
  split
  case isTrue hs => rw [hs]
  case isFalse hs =>
    rw [show bestFirst side b.bids = bestFirst sideAsk b.bids from
      bestFirst_congr (by simp [hs, sideAsk_ne_sideBid]) _]

@[simp] theorem market_own (b : Book) (side : UInt8) :
    b.market.own side = priority (otherSide side) b.orders (b.own side) := by
  rw [Market.own, market, own, otherSide]
  split <;> rfl

theorem liveIn_congr {orders orders' : Orders} {ids : List UInt64}
    (h : ∀ id ∈ ids, orders.find? id = orders'.find? id) : liveIn orders ids = liveIn orders' ids :=
  List.filterMap_congr fun id hid => by rw [h id hid]

@[simp] theorem liveIn_cons_of_none {orders : Orders} {id : UInt64} (h : orders.find? id = none)
    (ids : List UInt64) : liveIn orders (id :: ids) = liveIn orders ids := by
  simp [liveIn, h]

theorem liveIn_cons_of_some {orders : Orders} {id : UInt64} {r : Resting}
    (h : orders.find? id = some r) (ids : List UInt64) :
    liveIn orders (id :: ids) = (id, r) :: liveIn orders ids := by
  simp [liveIn, h]

@[simp] theorem liveIn_erase (orders : Orders) (id : UInt64) (ids : List UInt64) :
    liveIn (orders.erase id) ids = (liveIn orders ids).filter (·.1 ≠ id) := by
  induction ids with
  | nil => rfl
  | cons id' ids ih =>
    by_cases heq : id' = id
    · rw [liveIn_cons_of_none (by rw [OrdMap.find?_erase, if_pos heq]), ih]
      cases hf : orders.find? id' with
      | none => rw [liveIn_cons_of_none hf]
      | some r =>
        rw [liveIn_cons_of_some hf]
        simp [heq]
    · have hfind : (orders.erase id).find? id' = orders.find? id' := by
        simp [heq]
      cases hf : orders.find? id' with
      | none => rw [liveIn_cons_of_none (hfind.trans hf), liveIn_cons_of_none hf, ih]
      | some r =>
        rw [liveIn_cons_of_some (hfind.trans hf), liveIn_cons_of_some hf, ih]
        simp [heq]

/-- **Cancelling commutes**, whatever stays queued. -/
@[simp] theorem market_cancel (b : Book) (id : UInt64) :
    (b.cancel id).market = b.market.cancel id := by
  ext1
  · exact liveIn_erase _ _ _
  · exact liveIn_erase _ _ _
  · rfl
  · rfl

/-! ## The inner loop -/

theorem Tally.find?_fill_of_ne {t : Tally} {head : UInt64} (r : Resting) {id : UInt64}
    (h : id ≠ head) : (t.fill head r).orders.find? id = t.orders.find? id := by
  rw [Tally.fill]
  simp only
  split
  · simp [h]
  · simp [h]

/-- The fills of a greedy allocation to live orders. -/
def logOf (fs : List (LiveOrder × ℤ)) : List Fill := fs.map fun f => ⟨f.1.1, f.2⟩

/-- **The inner loop allocates greedily** to the live orders of the level; stale entries
are never seen, and no other order is touched. -/
theorem drain_live (d : Drain) (hnodup : d.lvl.Nodup) :
    (drain d).log = d.log ++ logOf (Greedy.fills LiveOrder.qty d.qty (liveIn d.orders d.lvl)) ∧
      (drain d).qty = Greedy.residual LiveOrder.qty d.qty (liveIn d.orders d.lvl) ∧
      liveIn (drain d).orders (drain d).lvl =
        Greedy.left LiveOrder.qty LiveOrder.reduce d.qty (liveIn d.orders d.lvl) ∧
      ∀ id, id ∉ d.lvl → (drain d).orders.find? id = d.orders.find? id := by
  induction d using Loop.exec_induction drain_variant with
  | exit d h =>
    rw [drain_of_exit (drainStep_eq_none.mp h)]
    rcases drainStep_eq_none.mp h with hq | hl
    · rw [Greedy.fills_of_nonpos hq, Greedy.residual_of_nonpos hq, Greedy.left_of_nonpos hq]
      exact ⟨(List.append_nil _).symm, rfl, rfl, fun _ _ => rfl⟩
    · rw [hl]
      exact ⟨(List.append_nil _).symm, rfl, rfl, fun _ _ => rfl⟩
  | round d d' h ih =>
    have hdrain : drain d = drain d' := Loop.exec_of_some drain_variant h
    rcases drainStep_cases h with ⟨hq, head, rest, hlvl, hcase⟩
    rw [hlvl] at hnodup
    rcases List.nodup_cons.mp hnodup with ⟨hhead, hrest⟩
    rcases hcase with ⟨hdead, rfl⟩ | ⟨r, hr, htally, hcase⟩
    · -- a stale entry
      rw [hdrain, hlvl, liveIn_cons_of_none hdead]
      rcases ih hrest with ⟨hlog, hqty, hleft, hframe⟩
      exact ⟨hlog, hqty, hleft,
        fun id hid => hframe id fun hmem => hid (List.mem_cons_of_mem _ hmem)⟩
    · have horders : d'.orders = (d.tally.fill head r).orders := congrArg Tally.orders htally
      have hqty : d'.qty = d.qty - min d.qty r.qty := congrArg Tally.qty htally
      have hlog : d'.log = d.log ++ [⟨head, min d.qty r.qty⟩] := congrArg Tally.log htally
      have hother : ∀ id, id ≠ head → d'.orders.find? id = d.orders.find? id := by
        intro id hid
        rw [horders]
        exact Tally.find?_fill_of_ne r hid
      have hlive : liveIn d'.orders rest = liveIn d.orders rest :=
        liveIn_congr fun id hid => hother id fun heq => hhead (heq ▸ hid)
      rw [hdrain, hlvl, liveIn_cons_of_some hr, Greedy.fills_cons hq, Greedy.residual_cons hq]
      have hamount : LiveOrder.qty (head, r) = r.qty := rfl
      rw [hamount, ← hqty]
      rcases hcase with ⟨hle, hlvl'⟩ | ⟨hlt, hzero, hlvl'⟩
      · -- the head is exhausted
        rcases ih (hlvl' ▸ hrest) with ⟨hlog', hqty', hleft', hframe'⟩
        rw [hlvl', hlive] at hlog' hqty' hleft'
        have hsub : d.qty - r.qty = d'.qty := by rw [hqty, min_eq_right hle]
        have hle' : LiveOrder.qty (head, r) ≤ d.qty := hle
        rw [Greedy.left_of_le hq hle', hamount, hsub]
        refine ⟨?_, hqty', hleft', fun id hid => ?_⟩
        · rw [hlog', hlog, List.append_assoc]
          rfl
        · rw [hframe' id fun hmem => hid (List.mem_cons_of_mem _ (hlvl' ▸ hmem)),
            hother id fun heq => hid (heq ▸ List.mem_cons_self)]
      · -- the taker is exhausted, the head stays
        have hexit : drain d' = d' := drain_of_exit (Or.inl hzero.le)
        have hhead' : d'.orders.find? head = some { r with qty := r.qty - d.qty } := by
          have hne : ¬ r.qty - d.qty = 0 := by omega
          rw [horders]
          simp [Tally.fill, Drain.tally, min_eq_left hlt.le, hne]
        rw [Greedy.left_of_lt hq (show d.qty < LiveOrder.qty (head, r) from hlt),
          Greedy.fills_of_nonpos hzero.le, Greedy.residual_of_nonpos hzero.le, hexit, hlvl', hlvl]
        refine ⟨hlog, rfl, ?_, fun id hid => ?_⟩
        · rw [liveIn_cons_of_some hhead', hlive]
          rfl
        · exact hother id fun heq => hid (heq ▸ List.mem_cons_self)

/-! ## The outer loop -/

@[simp] theorem mem_priority {side : UInt8} {orders : Orders} {m : Levels} {o : LiveOrder} :
    o ∈ priority side orders m ↔ Levels.Mem o.1 m ∧ orders.find? o.1 = some o.2 := by
  rw [priority, Levels.Mem]
  rw [mem_liveIn_pair]
  simp only [List.mem_flatMap, Prod.exists, mem_bestFirst]

/-- The live orders are in the levels of their prices. -/
def PricedBy (orders : Orders) (m : Levels) : Prop :=
  ∀ {p lvl id r}, m.find? p = some lvl → id ∈ lvl → orders.find? id = some r → r.price = p

theorem priority_eq_flatMap (side : UInt8) (orders : Orders) (m : Levels) :
    priority side orders m = (bestFirst side m).flatMap fun e => liveIn orders e.2 :=
  List.filterMap_flatMap ..

/-- The orders of a level are at its price. -/
theorem PricedBy.price_eq {orders : Orders} {m : Levels} (h : PricedBy orders m) {side : UInt8}
    {e : ℤ × List UInt64} (he : e ∈ bestFirst side m) {o : LiveOrder} (ho : o ∈ liveIn orders e.2) :
    o.price = e.1 := by
  obtain ⟨hid, hr⟩ := mem_liveIn_pair.mp ho
  exact h (mem_bestFirst.mp he) hid hr

/-- Nobody stands behind a strictly worse price. -/
theorem priority_sorted {orders : Orders} {m : Levels} (h : PricedBy orders m) (side : UInt8) :
    (priority side orders m).Pairwise fun o o' => ¬ better side o'.price o.price := by
  rw [priority_eq_flatMap, List.pairwise_flatMap]
  refine ⟨fun e he => ?_,
    (bestFirst_sorted side m).imp_of_mem fun {e e'} he he' hbetter o ho o' ho' => ?_⟩
  · refine List.pairwise_of_forall_mem_list ?_
    intro o ho o' ho'
    rw [h.price_eq he ho, h.price_eq he ho']
    rw [better]
    split <;> exact lt_irrefl _
  · rw [h.price_eq he ho, h.price_eq he' ho']
    rw [better] at hbetter ⊢
    split at hbetter <;> simp_all [hbetter.le]

theorem crosses_of_not_better {side : UInt8} {price p p' : ℤ} (h : crosses side price p')
    (hb : ¬ better side p' p) : crosses side price p := by
  simp only [crosses, better] at *
  split at h <;> simp_all <;> omega

theorem filter_append_filter_not {α : Type} {P : α → Prop} [DecidablePred P] {l : List α}
    (h : l.Pairwise fun a b => P b → P a) :
    (l.filter fun a => P a) ++ l.filter (fun a => ¬ P a) = l := by
  induction l with
  | nil => rfl
  | cons a l ih =>
    rcases List.pairwise_cons.mp h with ⟨hhead, htail⟩
    by_cases ha : P a
    · simpa [ha] using ih htail
    · have hnone : ∀ b ∈ l, ¬ P b := fun b hb hpb => ha (hhead b hb hpb)
      have hfilter : (l.filter fun a => P a) = [] :=
        List.filter_eq_nil_iff.mpr fun b hb => by simpa using hnone b hb
      simpa [ha, hfilter] using hnone

/-- The orders a limit crosses come first. -/
theorem crossing_append_beyond {b : Book} {side : UInt8}
    (h : PricedBy b.orders (b.opposite side)) (price : ℤ) :
    b.market.crossing side price ++ b.market.beyond side price = b.market.opposite side := by
  refine filter_append_filter_not ?_
  rw [market_opposite]
  exact (priority_sorted h side).imp fun hb hcross => crosses_of_not_better hcross hb

theorem mem_put {m : Levels} {p : ℤ} {lvl lvl' : List UInt64} (hp : m.find? p = some lvl)
    (hsub : lvl' ⊆ lvl) {id : UInt64} (h : Levels.Mem id (Levels.put m p lvl')) :
    Levels.Mem id m := by
  rcases h with ⟨p', q, hq, hid⟩
  rw [Levels.find?_put] at hq
  split at hq
  · split at hq
    · simp at hq
    · rw [← Option.some.inj hq] at hid
      exact ⟨p, lvl, hp, hsub hid⟩
  · exact ⟨p', q, hq, hid⟩

/-- Matching the best level leaves its greedy remainder in front of the other levels. -/
theorem priority_put {side : UInt8} {m : Levels} {p : ℤ} {lvl : List UInt64}
    {l : List (ℤ × List UInt64)} (hl : bestFirst side m = (p, lvl) :: l) (lvl' : List UInt64)
    {orders orders' : Orders}
    (hframe : ∀ id ∈ l.flatMap Prod.snd, orders'.find? id = orders.find? id) :
    priority side orders' (Levels.put m p lvl') =
      liveIn orders' lvl' ++ liveIn orders (l.flatMap Prod.snd) := by
  have htail : liveIn orders' (l.flatMap Prod.snd) = liveIn orders (l.flatMap Prod.snd) :=
    liveIn_congr hframe
  rw [priority]
  rw [bestFirst_put hl]
  split
  case isTrue hnil =>
    rw [htail, hnil]
    rfl
  case isFalse => rw [List.flatMap_cons, liveIn_append, htail]

theorem opposite_eq_own_otherSide (b : Book) (side : UInt8) :
    b.opposite side = b.own (otherSide side) := by
  rw [opposite, own, otherSide]
  split <;> simp [sideAsk_ne_sideBid]

theorem opposite_nodup {ops : List Op} (hops : NeverReused ops) {b : Book} (h : b.Placed ops)
    (side : UInt8) : ((bestFirst side (b.opposite side)).flatMap Prod.snd).Nodup := by
  have hown := opposite_eq_own_otherSide b side
  have hqueued := h.queued_nodup hops (otherSide side)
  rw [hown]
  rw [bestFirst]
  split
  · exact hqueued
  · refine (List.Perm.nodup_iff ?_).mpr hqueued
    exact ((b.own (otherSide side)).entries.reverse_perm).flatMap_right _

theorem pricedBy_opposite {ops : List Op} (hops : NeverReused ops) {b : Book} (h : b.Placed ops)
    (side : UInt8) : PricedBy b.orders (b.opposite side) := by
  intro p lvl id r hlvl hid hr
  have hown := opposite_eq_own_otherSide b side
  exact h.price_eq hops (hown ▸ hlvl) hid hr

/-- **One round of the outer loop** allocates greedily to the front `A` of the opposite
orders, all of which cross. -/
theorem sweepStep_live {ops : List Op} (hops : NeverReused ops) {side : UInt8} {price : ℤ}
    {s s' : Sweep} (hp : s.book.Placed ops) (h : sweepStep side price s = some s') :
    ∃ A B : List LiveOrder, (∀ o ∈ A, crosses side price o.price) ∧
      s.book.market.opposite side = A ++ B ∧
      s'.book.market.opposite side = Greedy.left LiveOrder.qty LiveOrder.reduce s.qty A ++ B ∧
      s'.qty = Greedy.residual LiveOrder.qty s.qty A ∧
      s'.log = s.log ++ logOf (Greedy.fills LiveOrder.qty s.qty A) ∧
      ∀ id, ¬ Levels.Mem id (s.book.opposite side) → ¬ Levels.Mem id (s'.book.opposite side) ∧
        s'.book.orders.find? id = s.book.orders.find? id := by
  rcases sweepStep_cases h with ⟨-, p, lvl, l, hl, hcross, rfl⟩
  have hlvl : (s.book.opposite side).find? p = some lvl :=
    mem_bestFirst.mp (hl ▸ List.mem_cons_self)
  have hnodup := opposite_nodup hops hp side
  rw [hl, List.flatMap_cons] at hnodup
  rcases drain_live ⟨lvl, s.book.orders, s.qty, s.book.fills, s.book.volume, s.log⟩
    hnodup.of_append_left with ⟨hlog, hqty, hleft, hframe⟩
  refine ⟨liveIn s.book.orders lvl, liveIn s.book.orders (l.flatMap Prod.snd), ?_, ?_, ?_, hqty,
    hlog, ?_⟩
  · intro o ho
    rcases mem_liveIn_pair.mp ho with ⟨hid, hr⟩
    have hprice : o.price = p := pricedBy_opposite hops hp side hlvl hid hr
    rwa [hprice]
  · simp [priority, hl]
  · rw [market_opposite, opposite_writeBack, ← hleft]
    exact priority_put hl _ fun id hid => hframe id fun hmem =>
      List.disjoint_of_nodup_append hnodup hmem hid
  · intro id hid
    refine ⟨fun hmem => hid ?_, hframe id fun hmem => hid ⟨p, lvl, hlvl, hmem⟩⟩
    rw [opposite_writeBack] at hmem
    exact mem_put hlvl (drain_suffix _).subset hmem

theorem filter_crosses {side : UInt8} {price : ℤ} {A : List LiveOrder}
    (h : ∀ o ∈ A, crosses side price o.price) (B : List LiveOrder) :
    ((A ++ B).filter fun o => crosses side price o.price) =
        A ++ B.filter (fun o => crosses side price o.price) ∧
      ((A ++ B).filter fun o => ¬ crosses side price o.price) =
        B.filter fun o => ¬ crosses side price o.price := by
  have hA : (A.filter fun o => crosses side price o.price) = A :=
    List.filter_eq_self.mpr fun o ho => by simpa using h o ho
  have hA' : (A.filter fun o => ¬ crosses side price o.price) = [] :=
    List.filter_eq_nil_iff.mpr fun o ho => by simpa using h o ho
  rw [List.filter_append, List.filter_append, hA, hA', List.nil_append]
  exact ⟨rfl, rfl⟩

/-- **The sweep allocates greedily** to the live orders that cross, best price first and
in order of submission; the others stay, and no order of the own side is touched. -/
theorem sweep_live {ops : List Op} (hops : NeverReused ops) (side : UInt8) (price : ℤ) (s : Sweep)
    (hp : s.book.Placed ops) :
    (sweep side price s).log = s.log ++
        logOf (Greedy.fills LiveOrder.qty s.qty (s.book.market.crossing side price)) ∧
      (sweep side price s).qty =
        Greedy.residual LiveOrder.qty s.qty (s.book.market.crossing side price) ∧
      (sweep side price s).book.market.opposite side =
        Greedy.left LiveOrder.qty LiveOrder.reduce s.qty (s.book.market.crossing side price) ++
          s.book.market.beyond side price ∧
      ∀ id, ¬ Levels.Mem id (s.book.opposite side) →
        (sweep side price s).book.orders.find? id = s.book.orders.find? id := by
  induction s using Loop.exec_induction (sweep_variant side price) with
  | exit s h =>
    have hsplit := crossing_append_beyond (pricedBy_opposite hops hp side) price
    rw [sweep_of_exit (sweepStep_eq_none.mp h)]
    rcases sweepStep_eq_none.mp h with hq | hno
    · rw [Greedy.fills_of_nonpos hq, Greedy.residual_of_nonpos hq, Greedy.left_of_nonpos hq]
      exact ⟨(List.append_nil _).symm, rfl, hsplit.symm, fun _ _ => rfl⟩
    · have hnil : s.book.market.crossing side price = [] := by
        refine List.filter_eq_nil_iff.mpr ?_
        intro o ho
        rw [market_opposite, mem_priority] at ho
        rcases ho with ⟨⟨p, lvl, hlvl, hid⟩, hr⟩
        have hnot := bestCrossing_eq_none.mp hno p lvl hlvl
        have hprice : o.price = p := pricedBy_opposite hops hp side hlvl hid hr
        simpa [hprice] using hnot
      rw [hnil] at hsplit ⊢
      exact ⟨(List.append_nil _).symm, rfl, hsplit.symm, fun _ _ => rfl⟩
  | round s s' h ih =>
    have hsweep : sweep side price s = sweep side price s' :=
      Loop.exec_of_some (sweep_variant side price) h
    rcases sweepStep_live hops hp h with ⟨A, B, hA, hbefore, hafter, hqty, hlog, hframe⟩
    rcases ih (placed_sweepStep hp h) with ⟨hlog', hqty', hleft', hframe'⟩
    have hA' : ∀ o ∈ Greedy.left LiveOrder.qty LiveOrder.reduce s.qty A,
        crosses side price o.price :=
      Greedy.left_forall (fun o m (h : crosses side price o.price) =>
        show crosses side price (o.reduce m).price from h) hA
    simp only [Market.crossing, Market.beyond] at *
    rw [hafter, (filter_crosses hA' B).1, hqty] at hlog' hqty' hleft'
    rw [(filter_crosses hA' B).2] at hleft'
    rw [Greedy.fills_resume] at hlog'
    rw [Greedy.residual_resume] at hqty'
    rw [Greedy.left_resume] at hleft'
    rw [hsweep, hbefore, (filter_crosses hA B).1, (filter_crosses hA B).2, Greedy.fills_append,
      Greedy.residual_append, Greedy.left_append]
    refine ⟨?_, hqty', hleft', fun id hid => ?_⟩
    · rw [hlog', hlog, List.append_assoc, logOf, logOf, logOf, List.map_append]
    · rw [hframe' id (hframe id hid).1, (hframe id hid).2]

/-! ## Resting, and the whole limit -/

theorem better_asymm {side : UInt8} {p p' : ℤ} (h : better side p p') : ¬ better side p' p := by
  simp only [better] at *
  split at h <;> simp_all [h.le]

/-- Where an update happens among the levels. -/
theorem bestFirst_alter (side : UInt8) (m : Levels) (p : ℤ)
    (f : Option (List UInt64) → Option (List UInt64)) :
    ∃ F B : List (ℤ × List UInt64), (∀ e ∈ F, better side e.1 p) ∧ (∀ e ∈ B, better side p e.1) ∧
      bestFirst side m = F ++ ((m.find? p).map (p, ·)).toList ++ B ∧
      bestFirst side (m.alter p f) = F ++ ((f (m.find? p)).map (p, ·)).toList ++ B := by
  have hbefore := m.entries_split p
  have hafter := m.entries_alter p f
  have hrev : ∀ o : Option (List UInt64),
      (o.map (p, ·)).toList.reverse = (o.map (p, ·)).toList := by
    intro o
    cases o <;> rfl
  simp only [bestFirst, better]
  by_cases hs : side = sideBid
  · refine ⟨m.entries.filter (·.1 < p), m.entries.filter (p < ·.1), ?_, ?_, ?_, ?_⟩
    · intro e he
      simpa [hs] using List.of_mem_filter he
    · intro e he
      simpa [hs] using List.of_mem_filter he
    · rw [if_pos hs]
      exact hbefore
    · rw [if_pos hs]
      exact hafter
  · refine ⟨(m.entries.filter (p < ·.1)).reverse, (m.entries.filter (·.1 < p)).reverse,
      ?_, ?_, ?_, ?_⟩
    · intro e he
      simpa [hs] using List.of_mem_filter (List.mem_reverse.mp he)
    · intro e he
      simpa [hs] using List.of_mem_filter (List.mem_reverse.mp he)
    · rw [if_neg hs]
      conv_lhs => rw [hbefore, List.reverse_append, List.reverse_append, hrev, ← List.append_assoc]
    · rw [if_neg hs, hafter, List.reverse_append, List.reverse_append, hrev, ← List.append_assoc]

/-- A live order of some levels has the price of its level. -/
theorem price_of_mem_liveIn {orders : Orders} {m : Levels} (h : PricedBy orders m)
    {ls : List (ℤ × List UInt64)} (hls : ∀ e ∈ ls, m.find? e.1 = some e.2) {o : LiveOrder}
    (ho : o ∈ liveIn orders (ls.flatMap Prod.snd)) : ∃ e ∈ ls, o.price = e.1 := by
  rcases mem_liveIn_pair.mp ho with ⟨hid, hr⟩
  rcases List.mem_flatMap.mp hid with ⟨e, he, hid⟩
  exact ⟨e, he, h (hls e he) hid hr⟩

/-- An order that is not queued in some levels does not show there. -/
theorem liveIn_insert {orders : Orders} {m : Levels} {id : UInt64} (hfresh : ¬ Levels.Mem id m)
    (r : Resting) {ls : List (ℤ × List UInt64)} (hls : ∀ e ∈ ls, m.find? e.1 = some e.2) :
    liveIn (orders.insert id r) (ls.flatMap Prod.snd) = liveIn orders (ls.flatMap Prod.snd) := by
  refine liveIn_congr ?_
  intro id' hid'
  rcases List.mem_flatMap.mp hid' with ⟨e, he, hid'⟩
  rw [OrdMap.find?_insert, if_neg]
  rintro rfl
  exact hfresh ⟨e.1, e.2, hls e he, hid'⟩

/-- **A residual is placed** behind the orders that are no worse. -/
theorem priority_pushBack {side : UInt8} {orders : Orders} {m : Levels} (h : PricedBy orders m)
    {id : UInt64} (hfresh : ¬ Levels.Mem id m) (r : Resting) :
    priority side (orders.insert id r) (Levels.pushBack m r.price id) =
      Market.place side (id, r) (priority side orders m) := by
  rcases bestFirst_alter side m r.price fun o => some (o.getD [] ++ [id]) with
    ⟨F, B, hF, hB, hbefore, hafter⟩
  change bestFirst side (Levels.pushBack m r.price id) = _ at hafter
  let lvl := (m.find? r.price).getD []
  let K := ((m.find? r.price).map (r.price, ·)).toList
  have hK : K.flatMap Prod.snd = lvl := by
    show (((m.find? r.price).map (r.price, ·)).toList).flatMap Prod.snd = (m.find? r.price).getD []
    cases m.find? r.price <;> simp
  have hmem : ∀ e ∈ (F ++ K) ++ B, m.find? e.1 = some e.2 := fun e he =>
    mem_bestFirst.mp (hbefore ▸ he)
  have hmemFK : ∀ e ∈ F ++ K, m.find? e.1 = some e.2 := fun e he =>
    hmem e (List.mem_append_left _ he)
  have hmemB : ∀ e ∈ B, m.find? e.1 = some e.2 := fun e he => hmem e (List.mem_append_right _ he)
  -- in front stand the better levels and the level of the price itself
  have hahead : ∀ o : LiveOrder, o ∈ liveIn orders ((F ++ K).flatMap Prod.snd) →
      ¬ better side r.price o.price := by
    intro o ho
    rcases price_of_mem_liveIn h hmemFK ho with ⟨e, he, heq⟩
    rw [heq]
    rcases List.mem_append.mp he with he | he
    · exact better_asymm (hF e he)
    · have hprice : e.1 = r.price := by
        rcases Option.map_eq_some_iff.mp (Option.mem_toList.mp he) with ⟨q, -, rfl⟩
        rfl
      rw [hprice]
      exact fun hb => better_asymm hb hb
  have hbehind : ∀ o : LiveOrder, o ∈ liveIn orders (B.flatMap Prod.snd) →
      better side r.price o.price := by
    intro o ho
    rcases price_of_mem_liveIn h hmemB ho with ⟨e, he, heq⟩
    rw [heq]
    exact hB e he
  have hold : priority side orders m =
      liveIn orders ((F ++ K).flatMap Prod.snd) ++ liveIn orders (B.flatMap Prod.snd) := by
    rw [priority, hbefore, List.flatMap_append, liveIn_append]
  have hids : (F ++ [(r.price, lvl ++ [id])] ++ B).flatMap Prod.snd =
      (F ++ K).flatMap Prod.snd ++ (id :: B.flatMap Prod.snd) := by
    simp [List.flatMap_append, hK]
  rw [hold, Market.place_append hahead hbehind, priority, hafter]
  rw [Option.map_some, Option.toList_some, hids, liveIn_append,
    liveIn_insert hfresh r hmemFK, liveIn_cons_of_some (by rw [OrdMap.find?_insert, if_pos rfl]),
    liveIn_insert hfresh r hmemB]

theorem not_mem_of_fresh {ops : List Op} {b : Book} (h : b.Placed ops) {id : UInt64}
    (hfresh : id ∉ limitIds ops) (side : UInt8) : ¬ Levels.Mem id (b.own side) := by
  rintro ⟨p, lvl, hlvl, hid⟩
  exact hfresh ((submitted_sublist _ _ _).subset ((h.queue side hlvl).subset hid))

/-- No id is queued on both sides. -/
theorem not_mem_opposite {ops : List Op} (hops : NeverReused ops) {b : Book} (h : b.Placed ops)
    {side : UInt8} {id : UInt64} (hid : Levels.Mem id (b.own side)) :
    ¬ Levels.Mem id (b.opposite side) := by
  rw [opposite_eq_own_otherSide]
  rintro ⟨p', lvl', hlvl', hid'⟩
  rcases hid with ⟨p, lvl, hlvl, hid⟩
  have hsides := (h.queue_unique hops hlvl hid hlvl' hid').1
  rw [otherSide] at hsides
  split at hsides <;> simp_all [sideAsk_ne_sideBid]

/-- The sweep leaves the orders of the own side as they are. -/
theorem sweep_own {ops : List Op} (hops : NeverReused ops) (side : UInt8) (price : ℤ) (s : Sweep)
    (hp : s.book.Placed ops) :
    (sweep side price s).book.market.own side = s.book.market.own side := by
  rcases sweep_live hops side price s hp with ⟨-, -, -, hframe⟩
  rw [market_own, market_own, own_sweep]
  refine liveIn_congr fun id hid => hframe id ?_
  rcases List.mem_flatMap.mp hid with ⟨e, he, hid⟩
  exact not_mem_opposite hops hp ⟨e.1, e.2, mem_bestFirst.mp he, hid⟩

theorem market_limitLog {ops : List Op} (hops : NeverReused ops) {b : Book} (hp : b.Placed ops)
    (side : UInt8) (price qty : ℤ) :
    b.limitLog side price qty = b.market.limitLog side price qty :=
  (sweep_live hops side price { book := b, qty } hp).1

/-- **Matching and resting commute**: a limit does to the market of a book what a limit of
the market does. -/
theorem market_limit {ops : List Op} (hops : NeverReused ops) {b : Book} (hp : b.Placed ops)
    (side : UInt8) (price qty : ℤ) {id : UInt64} (hfresh : id ∉ limitIds ops) :
    (b.limit side price qty id).market = b.market.limit side price qty id := by
  rcases sweep_live hops side price { book := b, qty } hp with
    ⟨-, hqty, hopp, -⟩
  have hown := sweep_own hops side price { book := b, qty } hp
  have hplaced : (sweep side price { book := b, qty }).book.Placed ops :=
    sweep_invariant (fun s => s.book.Placed ops) (fun _ _ h hstep => placed_sweepStep h hstep) hp
  rcases sweep_counters side price qty b with ⟨hfills, hvolume⟩
  have hnone : (sweep side price { book := b, qty }).book.orders.find? id = none := by
    cases hf : (sweep side price { book := b, qty }).book.orders.find? id with
    | none => rfl
    | some r =>
      rcases hplaced.record hf with ⟨s', q', lvl, hop, -⟩
      exact absurd (mem_limitIds.mpr ⟨_, _, _, hop⟩) hfresh
  have hlimit : (b.limit side price qty id).fills = b.market.fills +
        UInt64.ofNat (b.market.limitLog side price qty).length ∧
      (b.limit side price qty id).volume = b.market.volume +
        UInt64.ofInt ((b.market.limitLog side price qty).map Fill.qty).sum := by
    rw [← market_limitLog hops hp]
    unfold limit limitLog
    simp only
    split
    · exact ⟨hfills, hvolume⟩
    · exact ⟨hfills, hvolume⟩
  refine Market.ext_sides side ?_ ?_ hlimit.1 hlimit.2
  · rw [Market.own_limit, Market.residual, ← hqty, ← hown]
    unfold limit
    simp only
    generalize sweep side price { book := b, qty } = s at hplaced hnone
    split
    case isFalse => rfl
    case isTrue hq =>
      have hpriced : PricedBy s.book.orders (s.book.own side) := fun hlvl hid hr =>
        hplaced.price_eq hops hlvl hid hr
      rw [market_own, market_own, own_rest]
      show priority (otherSide side) (s.book.orders.emplace id ⟨price, s.qty⟩) _ = _
      rw [OrdMap.emplace_eq_insert hnone]
      exact priority_pushBack hpriced (not_mem_of_fresh hplaced hfresh side) ⟨price, s.qty⟩
  · rw [Market.opposite_limit, ← hopp]
    unfold limit
    simp only
    generalize sweep side price { book := b, qty } = s at hplaced hnone
    split
    case isFalse => rfl
    case isTrue hq =>
      rw [market_opposite, market_opposite, opposite_rest]
      show priority side (s.book.orders.emplace id ⟨price, s.qty⟩) _ = _
      rw [OrdMap.emplace_eq_insert hnone]
      refine liveIn_insert ?_ _ fun e he => mem_bestFirst.mp he
      rw [opposite_eq_own_otherSide]
      exact not_mem_of_fresh hplaced hfresh _

end Book
end LmaxBench.Cpp
