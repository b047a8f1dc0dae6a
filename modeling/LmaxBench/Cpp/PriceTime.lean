import LmaxBench.Cpp.Market

/-!
# Price-time priority

What one limit does to a book, in the terms of the operations that led to it. The orders
it can match are the live orders of the other side whose price crosses, best price first
and in order of submission within a price. It uses up a greedy prefix of them, perhaps
touches one more in part, and its residual goes to the end of the level of its own price.

## Main definitions

* `Book.PriceTime` — the orders a limit can match, in price-time priority.
* `Book.Executes`, `Book.executes` — what the limit does.
* `Book.sweep_head` — an order that is matched in part is at the head of its level.
-/

namespace LmaxBench.Cpp
namespace Book

/-! ## The orders a limit can match -/

/-- The order `id` was submitted on the side a taker on `side` matches against. -/
def SubmittedOpposite (ops : List Op) (side : UInt8) (id : UInt64) : Prop :=
  ∃ side' price qty, Op.limit side' price qty id ∈ ops ∧ ¬ (side' = sideBid ↔ side = sideBid)

/-- `C` are the live orders of the other side that a limit crosses, each once, in price-time
priority: better prices first, and earlier submissions first within a price. -/
structure PriceTime (ops : List Op) (b : Book) (side : UInt8) (price : ℤ) (C : List LiveOrder) :
    Prop where
  mem : ∀ {id r}, (id, r) ∈ C ↔
    b.orders.find? id = some r ∧ SubmittedOpposite ops side id ∧ crosses side price r.price
  once : (C.map Prod.fst).Nodup
  sorted : C.Pairwise fun o o' => better side o.price o'.price ∨
    (o.price = o'.price ∧ [o.1, o'.1].Sublist (limitIds ops))

/-- A live order is queued on the side it was submitted on. -/
theorem Placed.mem_own {ops : List Op} {b : Book} (h : b.Placed ops) (hops : NeverReused ops)
    {side : UInt8} {price qty : ℤ} {id : UInt64} (hop : Op.limit side price qty id ∈ ops)
    {r : Resting} (hr : b.orders.find? id = some r) : Levels.Mem id (b.own side) := by
  rcases h.record hr with ⟨side', qty', lvl, hop', -, hlvl, hid⟩
  rcases hops.eq_of_mem hop hop' with ⟨rfl, -, -⟩
  exact ⟨_, lvl, hlvl, hid⟩

theorem Placed.submittedOpposite {ops : List Op} {b : Book} (h : b.Placed ops) {side : UInt8}
    {id : UInt64} (hid : Levels.Mem id (b.opposite side)) : SubmittedOpposite ops side id := by
  rcases hid with ⟨p, lvl, hlvl, hid⟩
  rw [opposite_eq_own_otherSide] at hlvl
  rcases mem_submitted.mp ((h.queue _ hlvl).subset hid) with ⟨side', qty, hop, hside⟩
  refine ⟨side', p, qty, hop, fun hsame => ?_⟩
  rw [hsame] at hside
  by_cases hs : side = sideBid <;> simp [otherSide, hs, sideAsk_ne_sideBid] at hside

/-- The orders a taker meets are the live orders that were submitted on the other side. -/
theorem mem_market_opposite {ops : List Op} (hops : NeverReused ops) {b : Book}
    (h : b.Placed ops) {side : UInt8} {id : UInt64} {r : Resting} :
    (id, r) ∈ b.market.opposite side ↔
      b.orders.find? id = some r ∧ SubmittedOpposite ops side id := by
  rw [market_opposite, mem_priority]
  constructor
  · rintro ⟨hid, hr⟩
    exact ⟨hr, h.submittedOpposite hid⟩
  · rintro ⟨hr, side', price, qty, hop, hside⟩
    refine ⟨?_, hr⟩
    rw [opposite_eq_own hside b]
    exact h.mem_own hops hop hr

theorem map_fst_liveIn (orders : Orders) (ids : List UInt64) :
    ((liveIn orders ids).map Prod.fst).Sublist ids := by
  induction ids with
  | nil => exact List.Sublist.slnil
  | cons id ids ih =>
    cases hr : orders.find? id with
    | none => exact (liveIn_cons_of_none hr ids ▸ ih).cons id
    | some r =>
      rw [liveIn_cons_of_some hr]
      exact ih.cons_cons id

/-- The orders of a side are in price-time priority. -/
theorem priority_time {ops : List Op} {orders : Orders} {m : Levels} (h : PricedBy orders m)
    (hfifo : ∀ {p lvl}, m.find? p = some lvl → lvl.Sublist (limitIds ops)) (side : UInt8) :
    (priority side orders m).Pairwise fun o o' => better side o.price o'.price ∨
      (o.price = o'.price ∧ [o.1, o'.1].Sublist (limitIds ops)) := by
  rw [priority_eq_flatMap, List.pairwise_flatMap]
  refine ⟨fun e he => ?_,
    (bestFirst_sorted side m).imp_of_mem fun {e e'} he he' hb o ho o' ho' => ?_⟩
  · refine List.pairwise_iff_forall_sublist.mpr fun {o o'} hsub => Or.inr ⟨?_, ?_⟩
    · rw [h.price_eq he (hsub.subset (by simp)), h.price_eq he (hsub.subset (by simp))]
    · exact ((hsub.map Prod.fst).trans (map_fst_liveIn _ _)).trans (hfifo (mem_bestFirst.mp he))
  · rw [h.price_eq he ho, h.price_eq he' ho']
    exact Or.inl hb

/-- **The orders a limit matches against are in price-time priority.** -/
theorem priceTime_crossing {ops : List Op} (hops : NeverReused ops) {b : Book} (h : b.Placed ops)
    (side : UInt8) (price : ℤ) : PriceTime ops b side price (b.market.crossing side price) where
  mem := by
    intro id r
    simp only [Market.crossing, List.mem_filter, mem_market_opposite hops h, decide_eq_true_eq,
      and_assoc]
    rfl
  once := by
    refine List.Nodup.sublist ((List.filter_sublist).map Prod.fst) ?_
    rw [market_opposite]
    exact (opposite_nodup hops h side).sublist (map_fst_liveIn _ _)
  sorted := by
    simp only [Market.crossing, market_opposite]
    refine List.Pairwise.filter _ (priority_time (pricedBy_opposite hops h side) ?_ side)
    intro p lvl hlvl
    rw [opposite_eq_own_otherSide] at hlvl
    exact (h.queue _ hlvl).trans (submitted_sublist _ _ _)

/-! ## The order that is matched in part -/

/-- A maker that was hit and is still live exhausted the taker, and heads its level. -/
theorem drain_head {d : Drain} (h : ∀ f ∈ d.log, d.orders.find? f.maker = none) :
    ∀ f ∈ (drain d).log, (drain d).orders.find? f.maker = none ∨
      ((drain d).qty ≤ 0 ∧ (drain d).lvl.head? = some f.maker) := by
  refine drain_invariant (fun t => ∀ f ∈ t.log, t.orders.find? f.maker = none ∨
    (t.qty ≤ 0 ∧ t.lvl.head? = some f.maker)) ?_ fun f hf => Or.inl (h f hf)
  intro t t' ht hstep
  rcases drainStep_cases hstep with ⟨hq, head, rest, hlvl, ⟨hdead, rfl⟩ | ⟨r, hr, htally, hcase⟩⟩
  · -- a stale entry: the taker is not exhausted, so all hit makers are dead
    exact fun f hf => Or.inl ((ht f hf).resolve_right fun hno => absurd hq (not_lt.mpr hno.1))
  · have horders : t'.orders = (t.tally.fill head r).orders := congrArg Tally.orders htally
    have hlog : t'.log = t.log ++ [⟨head, min t.qty r.qty⟩] := congrArg Tally.log htally
    intro f hf
    rw [hlog, List.mem_append, List.mem_singleton] at hf
    rcases hf with hf | rfl
    · have hdead := (ht f hf).resolve_right fun hno => absurd hq (not_lt.mpr hno.1)
      have hne : f.maker ≠ head := by
        intro heq
        rw [heq, hr] at hdead
        simp at hdead
      rw [horders, Tally.find?_fill_of_ne r hne]
      exact Or.inl hdead
    · rcases hcase with ⟨hle, -⟩ | ⟨-, hzero, hlvl'⟩
      · refine Or.inl ?_
        have hle' : r.qty ≤ t.tally.qty := hle
        rw [horders]
        simp [Tally.fill, min_eq_right hle']
      · exact Or.inr ⟨hzero.le, by rw [hlvl', hlvl]; rfl⟩

/-- **An order that is matched in part heads its level.** -/
theorem sweep_head (side : UInt8) (price qty : ℤ) (b : Book) :
    ∀ f ∈ (sweep side price { book := b, qty }).log,
      (sweep side price { book := b, qty }).book.orders.find? f.maker = none ∨
        ∃ p tail, ((sweep side price { book := b, qty }).book.opposite side).find? p =
          some (f.maker :: tail) := by
  suffices hrun : ∀ f ∈ (sweep side price { book := b, qty }).log,
      (sweep side price { book := b, qty }).book.orders.find? f.maker = none ∨
        ((sweep side price { book := b, qty }).qty ≤ 0 ∧
          ∃ p tail, ((sweep side price { book := b, qty }).book.opposite side).find? p =
            some (f.maker :: tail)) from
    fun f hf => (hrun f hf).imp_right fun h => h.2
  refine sweep_invariant (fun s => ∀ f ∈ s.log, s.book.orders.find? f.maker = none ∨
    (s.qty ≤ 0 ∧ ∃ p tail, (s.book.opposite side).find? p = some (f.maker :: tail))) ?_ (by simp)
  intro s s' hs hstep
  rcases sweepStep_cases hstep with ⟨hq, p, lvl, l, -, -, rfl⟩
  have hdead : ∀ f ∈ s.log, s.book.orders.find? f.maker = none := fun f hf =>
    (hs f hf).resolve_right fun hno => absurd hq (not_lt.mpr hno.1)
  intro f hf
  refine (drain_head (d := ⟨lvl, s.book.orders, s.qty, s.book.fills, s.book.volume, s.log⟩) hdead f
    hf).imp_right fun h => ⟨h.1, p, (s.drainOf lvl).lvl.tail, ?_⟩
  have hcons : (s.drainOf lvl).lvl = f.maker :: (s.drainOf lvl).lvl.tail :=
    (List.cons_head?_tail h.2).symm
  rw [opposite_writeBack, Levels.find?_put, if_pos rfl, if_neg (by rw [hcons]; simp), ← hcons]

/-! ## What a limit does -/

/-- A limit of `qty` on the book `b`, which `ops` led to, executes against the crossing
orders `C`: `full` are filled completely, `part` in part, and `rest` not at all; `b'` is the
book after it. -/
structure Executes (ops : List Op) (b b' : Book) (side : UInt8) (price qty : ℤ) (id : UInt64)
    (C full : List LiveOrder) (part : Option LiveOrder) (rest : List LiveOrder) : Prop where
  priority : PriceTime ops b side price C
  /-- The orders touched are a prefix of `C`; the last one may be filled in part. -/
  divides : C = full ++ part.toList ++ rest
  log : b.limitLog side price qty = full.map (fun o => ⟨o.1, o.qty⟩) ++
    part.toList.map fun o => ⟨o.1, qty - Greedy.total LiveOrder.qty full⟩
  part_lt : ∀ o ∈ part, 0 < qty - Greedy.total LiveOrder.qty full ∧
    qty - Greedy.total LiveOrder.qty full < o.qty
  /-- Nothing is left untouched while there is demand. -/
  greedy : part = none → rest ≠ [] → Greedy.total LiveOrder.qty full = qty
  fills : b'.fills = b.fills + UInt64.ofNat (full ++ part.toList).length
  volume : b'.volume = b.volume + UInt64.ofInt (min qty (Greedy.total LiveOrder.qty C))
  filled : ∀ o ∈ full, b'.orders.find? o.1 = none
  /-- The order filled in part heads the level of its price. -/
  touched : ∀ o ∈ part,
    b'.orders.find? o.1 = some (o.reduce (qty - Greedy.total LiveOrder.qty full)).2 ∧
      ∃ tail, (b'.opposite side).find? o.price = some (o.1 :: tail)
  /-- The residual rests at the end of its level, and no order that crosses is left. -/
  residual : Greedy.total LiveOrder.qty C < qty →
    b'.orders.find? id = some ⟨price, qty - Greedy.total LiveOrder.qty C⟩ ∧
      (b'.own side).find? price = some (((b.own side).find? price).getD [] ++ [id]) ∧
      ∀ {id' r}, b'.orders.find? id' = some r → SubmittedOpposite ops side id' →
        ¬ crosses side price r.price
  no_residual : qty ≤ Greedy.total LiveOrder.qty C → b'.orders.find? id = none
  /-- Every other order keeps its record. -/
  others : ∀ id', id' ≠ id → id' ∉ (full ++ part.toList).map Prod.fst →
    b'.orders.find? id' = b.orders.find? id'
  /-- Every other order keeps its position. -/
  opposite : b.market.opposite side = full ++ part.toList ++ rest ++ b.market.beyond side price ∧
    b'.market.opposite side =
      part.toList.map (fun o => o.reduce (qty - Greedy.total LiveOrder.qty full)) ++ rest ++
        b.market.beyond side price
  own : b'.market.own side = if Greedy.total LiveOrder.qty C < qty then
    Market.place (otherSide side) (id, ⟨price, qty - Greedy.total LiveOrder.qty C⟩)
      (b.market.own side) else b.market.own side

theorem find?_limit_of_ne {id id' : UInt64} (hne : id' ≠ id) (b : Book) (side : UInt8)
    (price qty : ℤ) : (b.limit side price qty id).orders.find? id' =
      (sweep side price { book := b, qty }).book.orders.find? id' := by
  simp only [limit]
  split
  · simp only [rest, OrdMap.find?_emplace, if_neg hne]
  · rfl

theorem opposite_limit (b : Book) (side : UInt8) (price qty : ℤ) (id : UInt64) :
    (b.limit side price qty id).opposite side =
      (sweep side price { book := b, qty }).book.opposite side := by
  simp only [limit]
  split
  · exact opposite_rest _ _ _ _ _
  · rfl

theorem SubmittedOpposite.append {ops : List Op} {side : UInt8} {id : UInt64}
    (h : SubmittedOpposite ops side id) (ops' : List Op) :
    SubmittedOpposite (ops ++ ops') side id := by
  rcases h with ⟨side', price, qty, hop, hside⟩
  exact ⟨side', price, qty, List.mem_append_left _ hop, hside⟩

theorem SubmittedOpposite.mem_limitIds {ops : List Op} {side : UInt8} {id : UInt64}
    (h : SubmittedOpposite ops side id) : id ∈ limitIds ops := by
  rcases h with ⟨side', price, qty, hop, -⟩
  exact Cpp.mem_limitIds.mpr ⟨_, _, _, hop⟩

theorem own_level_limit {b : Book} {side : UInt8} {price qty : ℤ}
    (hq : 0 < (sweep side price { book := b, qty }).qty) (id : UInt64) :
    ((b.limit side price qty id).own side).find? price =
      some (((b.own side).find? price).getD [] ++ [id]) := by
  simp only [limit, hq, if_true, own_rest, own_sweep, Levels.find?_pushBack]

/-- A maker that was hit and is still live heads the level of its price. -/
theorem head_limit {ops : List Op} {b : Book} {side : UInt8} {price qty : ℤ} {id : UInt64}
    (hops : NeverReused (ops ++ [.limit side price qty id]))
    (hp : (b.limit side price qty id).Placed (ops ++ [.limit side price qty id])) {f : Fill}
    (hf : f ∈ b.limitLog side price qty) (hne : f.maker ≠ id) {r : Resting}
    (hr : (b.limit side price qty id).orders.find? f.maker = some r) :
    ∃ tail, ((b.limit side price qty id).opposite side).find? r.price = some (f.maker :: tail) := by
  rcases sweep_head side price qty b f hf with hdead | ⟨p, tail, hlvl⟩
  · rw [find?_limit_of_ne hne, hdead] at hr
    simp at hr
  · rw [← opposite_limit b side price qty id, opposite_eq_own_otherSide] at hlvl
    rw [opposite_eq_own_otherSide, hp.price_eq hops hlvl List.mem_cons_self hr]
    exact ⟨tail, hlvl⟩

section Split
variable {ops : List Op} {b : Book} {side : UInt8} {price qty : ℤ} {id : UInt64}
  {full rest : List LiveOrder} {part : Option LiveOrder}

/-- How a limit divides the orders it crosses. -/
abbrev Divides (b : Book) (side : UInt8) (price qty : ℤ) (full : List LiveOrder)
    (part : Option LiveOrder) (rest : List LiveOrder) : Prop :=
  Greedy.Split LiveOrder.qty LiveOrder.reduce qty (b.market.crossing side price) full part rest

theorem mem_before (hops : NeverReused ops) (hp : b.Placed ops)
    (h : Divides b side price qty full part rest) {id' : UInt64} {r : Resting} :
    (id', r) ∈ full ++ part.toList ++ rest ++ b.market.beyond side price ↔
      b.orders.find? id' = some r ∧ SubmittedOpposite ops side id' := by
  rw [← h.queue, crossing_append_beyond (pricedBy_opposite hops hp side) price]
  exact mem_market_opposite hops hp

theorem market_after (hops : NeverReused (ops ++ [.limit side price qty id])) (hp : b.Placed ops)
    (h : Divides b side price qty full part rest) :
    (b.limit side price qty id).market.opposite side =
      part.toList.map (fun o => o.reduce (qty - Greedy.total LiveOrder.qty full)) ++ rest ++
        b.market.beyond side price := by
  rw [market_limit (hops.of_prefix (List.prefix_append _ _)) hp side price qty
    hops.not_mem_of_append, Market.opposite_limit, h.left_eq]

theorem mem_after (hops : NeverReused (ops ++ [.limit side price qty id])) (hp : b.Placed ops)
    (hp' : (b.limit side price qty id).Placed (ops ++ [.limit side price qty id]))
    (h : Divides b side price qty full part rest) {id' : UInt64} {r : Resting} :
    (id', r) ∈ part.toList.map (fun o => o.reduce (qty - Greedy.total LiveOrder.qty full)) ++
        rest ++ b.market.beyond side price ↔
      (b.limit side price qty id).orders.find? id' = some r ∧
        SubmittedOpposite (ops ++ [.limit side price qty id]) side id' := by
  rw [← market_after hops hp h]
  exact mem_market_opposite hops hp'

theorem log_limit (hops : NeverReused ops) (hp : b.Placed ops)
    (h : Divides b side price qty full part rest) :
    b.limitLog side price qty = full.map (fun o => ⟨o.1, o.qty⟩) ++
      part.toList.map fun o => ⟨o.1, qty - Greedy.total LiveOrder.qty full⟩ := by
  rw [market_limitLog hops hp, Market.limitLog, h.fills_eq, List.map_append, List.map_map,
    List.map_map]
  rfl

@[simp] theorem map_fst_reduce (m : ℤ) (o : Option LiveOrder) :
    (o.toList.map fun o => o.reduce m).map Prod.fst = o.toList.map Prod.fst := by
  rw [List.map_map]
  rfl

/-- What is filled completely is dead. -/
theorem filled_limit (hops : NeverReused (ops ++ [.limit side price qty id])) (hp : b.Placed ops)
    (hp' : (b.limit side price qty id).Placed (ops ++ [.limit side price qty id]))
    (h : Divides b side price qty full part rest) {o : LiveOrder} (ho : o ∈ full) :
    (b.limit side price qty id).orders.find? o.1 = none := by
  have hops₀ : NeverReused ops := hops.of_prefix (List.prefix_append _ _)
  have hnodup : (full.map Prod.fst ++
      (part.toList ++ (rest ++ b.market.beyond side price)).map Prod.fst).Nodup := by
    rw [← List.map_append, ← List.append_assoc, ← List.append_assoc, ← h.queue,
      crossing_append_beyond (pricedBy_opposite hops₀ hp side) price, market_opposite]
    exact (opposite_nodup hops₀ hp side).sublist (map_fst_liveIn _ _)
  cases hr : (b.limit side price qty id).orders.find? o.1 with
  | none => rfl
  | some r =>
    have hsub : SubmittedOpposite ops side o.1 :=
      ((mem_before hops₀ hp h).mp (show (o.1, o.2) ∈ _ by simp [ho])).2
    have hstays := (mem_after hops hp hp' h).mpr ⟨hr, hsub.append _⟩
    have hid := List.mem_map_of_mem (f := Prod.fst) hstays
    rw [List.append_assoc, List.map_append, map_fst_reduce, ← List.map_append] at hid
    exact (List.disjoint_of_nodup_append hnodup (List.mem_map_of_mem ho) hid).elim

/-- What is filled in part keeps the rest, and heads the level of its price. -/
theorem touched_limit (hops : NeverReused (ops ++ [.limit side price qty id])) (hp : b.Placed ops)
    (hp' : (b.limit side price qty id).Placed (ops ++ [.limit side price qty id]))
    (h : Divides b side price qty full part rest) {o : LiveOrder} (ho : o ∈ part) :
    (b.limit side price qty id).orders.find? o.1 =
        some (o.reduce (qty - Greedy.total LiveOrder.qty full)).2 ∧
      ∃ tail, ((b.limit side price qty id).opposite side).find? o.price = some (o.1 :: tail) := by
  have hops₀ : NeverReused ops := hops.of_prefix (List.prefix_append _ _)
  have hmem : o ∈ part.toList := Option.mem_toList.mpr ho
  have hsub : SubmittedOpposite ops side o.1 :=
    ((mem_before hops₀ hp h).mp (show (o.1, o.2) ∈ _ by simp [hmem])).2
  have hr := ((mem_after hops hp hp' h).mp
    (show (o.1, (o.reduce (qty - Greedy.total LiveOrder.qty full)).2) ∈ _ from
      List.mem_append_left _ (List.mem_append_left _ (List.mem_map_of_mem hmem)))).1
  have hne : o.1 ≠ id := fun heq => hops.not_mem_of_append (heq ▸ hsub.mem_limitIds)
  have hf : (⟨o.1, qty - Greedy.total LiveOrder.qty full⟩ : Fill) ∈ b.limitLog side price qty := by
    rw [log_limit hops₀ hp h]
    exact List.mem_append_right _ (List.mem_map.mpr ⟨o, hmem, rfl⟩)
  exact ⟨hr, head_limit (r := (o.reduce _).2) hops hp' hf hne hr⟩

/-- What is not touched keeps its record. -/
theorem others_limit (hops : NeverReused (ops ++ [.limit side price qty id])) (hp : b.Placed ops)
    (hp' : (b.limit side price qty id).Placed (ops ++ [.limit side price qty id]))
    (h : Divides b side price qty full part rest) {id' : UInt64} (hne : id' ≠ id)
    (hid' : id' ∉ (full ++ part.toList).map Prod.fst) :
    (b.limit side price qty id).orders.find? id' = b.orders.find? id' := by
  have hops₀ : NeverReused ops := hops.of_prefix (List.prefix_append _ _)
  rw [List.map_append, List.mem_append, not_or] at hid'
  by_cases hsub : SubmittedOpposite ops side id'
  · refine Option.ext ?_
    intro r
    have hbefore : (id', r) ∈ _ ↔ _ := mem_before hops₀ hp h
    have hafter : (id', r) ∈ _ ↔ _ := mem_after hops hp hp' h
    rw [List.append_assoc, List.mem_append] at hbefore hafter
    constructor
    · intro hr
      rcases hafter.mpr ⟨hr, hsub.append _⟩ with hpart | hrest
      · exact absurd (map_fst_reduce _ part ▸ List.mem_map_of_mem (f := Prod.fst) hpart) hid'.2
      · exact (hbefore.mp (Or.inr hrest)).1
    · intro hr
      rcases hbefore.mpr ⟨hr, hsub⟩ with htouched | hrest
      · rcases List.mem_append.mp htouched with hfull | hpart
        · exact absurd (List.mem_map_of_mem (f := Prod.fst) hfull) hid'.1
        · exact absurd (List.mem_map_of_mem (f := Prod.fst) hpart) hid'.2
      · exact (hafter.mp (Or.inr hrest)).1
  · rw [find?_limit_of_ne hne]
    exact (sweep_live hops₀ side price { book := b, qty } hp).2.2.2 id' fun hmem =>
      hsub (hp.submittedOpposite hmem)

/-- The own side only gains the residual. -/
theorem own_limit (hops : NeverReused (ops ++ [.limit side price qty id])) (hp : b.Placed ops)
    (h : Divides b side price qty full part rest) :
    (b.limit side price qty id).market.own side =
      if Greedy.total LiveOrder.qty (b.market.crossing side price) < qty then
        Market.place (otherSide side)
          (id, ⟨price, qty - Greedy.total LiveOrder.qty (b.market.crossing side price)⟩)
          (b.market.own side)
      else b.market.own side := by
  have hres : b.market.residual side price qty =
      qty - min qty (Greedy.total LiveOrder.qty (b.market.crossing side price)) := h.residual_eq
  rw [market_limit (hops.of_prefix (List.prefix_append _ _)) hp side price qty
    hops.not_mem_of_append, Market.own_limit, hres]
  by_cases hlt : Greedy.total LiveOrder.qty (b.market.crossing side price) < qty
  · rw [if_pos hlt, if_pos (by omega), min_eq_right hlt.le]
  · rw [if_neg hlt, if_neg (by omega)]

/-- A residual rests at the end of its level, once nothing that crosses is left. -/
theorem residual_limit (hops : NeverReused (ops ++ [.limit side price qty id])) (hp : b.Placed ops)
    (hp' : (b.limit side price qty id).Placed (ops ++ [.limit side price qty id]))
    (h : Divides b side price qty full part rest)
    (hlt : Greedy.total LiveOrder.qty (b.market.crossing side price) < qty) :
    (b.limit side price qty id).orders.find? id =
        some ⟨price, qty - Greedy.total LiveOrder.qty (b.market.crossing side price)⟩ ∧
      ((b.limit side price qty id).own side).find? price =
        some (((b.own side).find? price).getD [] ++ [id]) ∧
      ∀ {id' r}, (b.limit side price qty id).orders.find? id' = some r →
        SubmittedOpposite ops side id' → ¬ crosses side price r.price := by
  have hops₀ : NeverReused ops := hops.of_prefix (List.prefix_append _ _)
  have hres : b.market.residual side price qty =
      qty - min qty (Greedy.total LiveOrder.qty (b.market.crossing side price)) := h.residual_eq
  have hleft : 0 < b.market.residual side price qty := by omega
  have hsweep := (sweep_live hops₀ side price { book := b, qty } hp).2.1
  have hlive : (id, (⟨price, qty - Greedy.total LiveOrder.qty (b.market.crossing side price)⟩ :
      Resting)) ∈ (b.limit side price qty id).market.own side := by
    rw [own_limit hops hp h, if_pos hlt]
    simp [Market.place]
  refine ⟨(mem_priority.mp (market_own _ side ▸ hlive)).2, own_level_limit (hsweep ▸ hleft) id, ?_⟩
  intro id' r hr hsub
  have hstays := (mem_after hops hp hp' h).mpr ⟨hr, hsub.append _⟩
  rw [← h.left_eq, Greedy.left_eq_nil hleft, List.nil_append] at hstays
  have hnot : ¬ crosses side price (LiveOrder.price (id', r)) := by
    simpa using (List.mem_filter.mp hstays).2
  exact hnot

/-- A limit that is filled completely does not rest. -/
theorem no_residual_limit (hops : NeverReused (ops ++ [.limit side price qty id]))
    (hp : b.Placed ops) (h : Divides b side price qty full part rest)
    (hle : qty ≤ Greedy.total LiveOrder.qty (b.market.crossing side price)) :
    (b.limit side price qty id).orders.find? id = none := by
  have hsweep : (sweep side price { book := b, qty }).qty = b.market.residual side price qty :=
    (sweep_live (hops.of_prefix (List.prefix_append _ _)) side price { book := b, qty } hp).2.1
  have hres : b.market.residual side price qty =
      qty - min qty (Greedy.total LiveOrder.qty (b.market.crossing side price)) := h.residual_eq
  have hzero : ¬ 0 < (sweep side price { book := b, qty }).qty := by omega
  simp only [limit, if_neg hzero]
  exact find?_sweep_none side price (hp.fresh hops)

end Split

/-- **What a limit does**: it executes against the crossing orders in price-time
priority. -/
theorem executes {ops : List Op} {b : Book} {side : UInt8} {price qty : ℤ} {id : UInt64}
    (hops : NeverReused (ops ++ [.limit side price qty id])) (hp : b.Placed ops)
    (hwf : b.WellFormed) (hq : 0 < qty) :
    ∃ C full part rest,
      Executes ops b (b.limit side price qty id) side price qty id C full part rest := by
  have hops₀ : NeverReused ops := hops.of_prefix (List.prefix_append _ _)
  have hp' : (b.limit side price qty id).Placed (ops ++ [.limit side price qty id]) :=
    placed_apply hp hwf (hp.fresh hops)
  have hC := priceTime_crossing hops₀ hp side price
  have hpos : ∀ o ∈ b.market.crossing side price, 0 < LiveOrder.qty o := fun o ho =>
    hwf.positive (hC.mem.mp (show (o.1, o.2) ∈ _ from ho)).1
  rcases Greedy.exists_split LiveOrder.reduce hq.le hpos with ⟨full, part, rest, h⟩
  have hmarket := market_limit hops₀ hp side price qty hops.not_mem_of_append
  refine ⟨b.market.crossing side price, full, part, rest, hC, h.queue, log_limit hops₀ hp h,
    h.part_lt, h.stop, (congrArg Market.fills hmarket).trans ?_,
    (congrArg Market.volume hmarket).trans ?_,
    fun o ho => filled_limit hops hp hp' h ho, fun o ho => touched_limit hops hp hp' h ho,
    fun hlt => residual_limit hops hp hp' h hlt, fun hle => no_residual_limit hops hp h hle,
    fun id' hne hid' => others_limit hops hp hp' h hne hid', ⟨?_, market_after hops hp h⟩,
    own_limit hops hp h⟩
  · simp only [Market.limit, ← market_limitLog hops₀ hp, log_limit hops₀ hp h, List.length_append,
      List.length_map]
    rfl
  · rw [← Greedy.sum_fills hq.le hpos]
    simp only [Market.limit, Market.limitLog, List.map_map]
    rfl
  · rw [← h.queue, crossing_append_beyond (pricedBy_opposite hops₀ hp side) price]

/-- **Price-time priority.** Every limit of a positive quantity, with an id that was never
used, on any book that limits with such ids and cancels lead to. -/
theorem executes_run {ops : List Op} {side : UInt8} {price qty : ℤ} {id : UInt64}
    (hops : NeverReused (ops ++ [.limit side price qty id])) (hq : 0 < qty) :
    ∃ C full part rest,
      Executes ops (run ops) ((run ops).limit side price qty id) side price qty id C full
        part rest :=
  executes hops (placed_run (noLiveReuse_of_neverReused (hops.of_prefix (List.prefix_append _ _))))
    (wellFormed_run ops) hq

theorem executes_run_partial :
    ∃ C full part rest,
      Executes [.limit 1 12 5 1, .limit 1 12 4 2, .limit 1 11 2 3, .cancel 2]
        (run [.limit 1 12 5 1, .limit 1 12 4 2, .limit 1 11 2 3, .cancel 2])
        ((run [.limit 1 12 5 1, .limit 1 12 4 2, .limit 1 11 2 3, .cancel 2]).limit 0 12 4 4)
        0 12 4 4 C full part rest :=
  executes_run (by decide) (by decide)

end Book
end LmaxBench.Cpp
