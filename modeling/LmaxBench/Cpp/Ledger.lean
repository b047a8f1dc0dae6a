import Mathlib.Algebra.BigOperators.Group.List.Basic
import Mathlib.Algebra.Order.Ring.Int
import Mathlib.Tactic.Linarith
import LmaxBench.Cpp.TunedConformance

/-!
# Conservation of quantity

Every movement of quantity in a run is an entry of its history: a fill moves a quantity
between a taker and a maker, an effective cancel removes what is left of an order. What
an order submitted is what its entries account for, plus what is still live.

One fill event takes the same quantity from the taker and from the maker; the sweep is
a sequence of fill events, and the residual and the cancel touch one order each.

## Main definitions

* `Entry`, `Book.history`, `TunedBook.history` — the movements of a run.
* `Book.Matched`, `Book.matched_sweep` — what matching conserves.
* `Conserved`, `conserved_run` — conservation per order and in total, for both books.
-/

namespace LmaxBench.Cpp

/-- One movement of quantity. -/
inductive Entry
  | traded (taker maker : UInt64) (qty : ℤ)
  | removed (id : UInt64) (qty : ℤ)
  deriving DecidableEq, Repr

namespace Entry

/-- The quantity the order `id` matched as taker. -/
def taken (id : UInt64) : Entry → ℤ
  | traded taker _ qty => if taker = id then qty else 0
  | removed _ _ => 0

/-- The quantity the order `id` matched as maker. -/
def made (id : UInt64) : Entry → ℤ
  | traded _ maker qty => if maker = id then qty else 0
  | removed _ _ => 0

/-- The quantity the cancel of the order `id` removed. -/
def removedOf (id : UInt64) : Entry → ℤ
  | traded _ _ _ => 0
  | removed id' qty => if id' = id then qty else 0

/-- The quantity traded. -/
def tradedQty : Entry → ℤ
  | traded _ _ qty => qty
  | removed _ _ => 0

/-- The quantity removed. -/
def removedQty : Entry → ℤ
  | traded _ _ _ => 0
  | removed _ qty => qty

end Entry

/-- The positive quantity an operation submits for the order `id`. -/
def Op.submittedOf (id : UInt64) : Op → ℤ
  | .limit _ _ qty id' => if id' = id then max qty 0 else 0
  | .cancel _ => 0

/-- The positive quantity an operation submits. -/
def Op.submittedQty : Op → ℤ
  | .limit _ _ qty _ => max qty 0
  | .cancel _ => 0

theorem sum_submittedOf {ops : List Op} (hops : NeverReused ops) {side : UInt8} {price qty : ℤ}
    {id : UInt64} (hop : Op.limit side price qty id ∈ ops) :
    (ops.map (Op.submittedOf id)).sum = max qty 0 := by
  have hnone : ∀ ops : List Op, id ∉ limitIds ops → (ops.map (Op.submittedOf id)).sum = 0 := by
    intro ops hid
    refine List.sum_eq_zero ?_
    intro x hx
    rcases List.mem_map.mp hx with ⟨op, hmem, rfl⟩
    cases op with
    | cancel => rfl
    | limit side price qty id' =>
      have hne : id' ≠ id := fun heq => hid (mem_limitIds.mpr ⟨side, price, qty, heq ▸ hmem⟩)
      simp [Op.submittedOf, hne]
  induction ops with
  | nil => simp at hop
  | cons op ops ih =>
    have hnodup : (limitIds [op] ++ limitIds ops).Nodup := limitIds_append [op] ops ▸ hops
    rw [List.map_cons, List.sum_cons]
    rcases List.mem_cons.mp hop with rfl | hmem
    · have hid : id ∉ limitIds ops := List.disjoint_of_nodup_append hnodup (by simp [limitIds])
      rw [hnone ops hid]
      simp [Op.submittedOf]
    · have hzero : op.submittedOf id = 0 := by
        cases op with
        | cancel => rfl
        | limit side' price' qty' id' =>
          have hne : id' ≠ id := by
            rintro rfl
            exact List.disjoint_of_nodup_append hnodup (by simp [limitIds])
              (mem_limitIds.mpr ⟨_, _, _, hmem⟩)
          simp [Op.submittedOf, hne]
      rw [hzero, zero_add, ih hnodup.of_append_right hmem]

namespace Book

/-- The live quantity of an order, zero if it is not live. -/
def liveQty (orders : Orders) (id : UInt64) : ℤ := ((orders.find? id).map Resting.qty).getD 0

/-- The movements of one operation. -/
def entries (b : Book) : Op → List Entry
  | .limit side price qty id => (b.limitLog side price qty).map fun f => .traded id f.maker f.qty
  | .cancel id =>
    match b.orders.find? id with
    | none => []
    | some r => [.removed id r.qty]

/-- The movements of a sequence of operations. -/
def history : Book → List Op → List Entry
  | _, [] => []
  | b, op :: ops => b.entries op ++ (b.apply op).history ops

/-! ## What matching conserves -/

/-- The quantity the fills take from the order `id`. -/
def makerQty (id : UInt64) (log : List Fill) : ℤ :=
  (log.map fun f => if f.maker = id then f.qty else 0).sum

/-- The quantity of all the fills. -/
def fillQty (log : List Fill) : ℤ := (log.map Fill.qty).sum

@[simp] theorem liveQty_eq_zero {orders : Orders} {id : UInt64} (h : orders.find? id = none) :
    liveQty orders id = 0 := by
  simp [liveQty, h]

@[simp] theorem liveQty_insert (orders : Orders) (id id' : UInt64) (r : Resting) :
    liveQty (orders.insert id r) id' = if id' = id then r.qty else liveQty orders id' := by
  rw [liveQty]
  rw [OrdMap.find?_insert]
  split <;> rfl

@[simp] theorem liveQty_erase (orders : Orders) (id id' : UInt64) :
    liveQty (orders.erase id) id' = if id' = id then 0 else liveQty orders id' := by
  rw [liveQty]
  rw [OrdMap.find?_erase]
  split <;> rfl

theorem liveQty_fill {t : Tally} {head : UInt64} {r : Resting}
    (hr : t.orders.find? head = some r) (id : UInt64) :
    liveQty (t.fill head r).orders id + (if head = id then min t.qty r.qty else 0) =
      liveQty t.orders id := by
  have hhead : liveQty t.orders head = r.qty := by simp [liveQty, hr]
  have hfill : liveQty (t.fill head r).orders id =
      if id = head then r.qty - min t.qty r.qty else liveQty t.orders id := by
    rw [Tally.fill]
    simp only
    split
    case isTrue hz => rw [liveQty_erase, hz]
    case isFalse => exact liveQty_insert _ _ _ _
  rw [hfill]
  by_cases hid : id = head
  · subst hid
    simp only [if_true, hhead]
    omega
  · have hne : ¬ head = id := fun heq => hid heq.symm
    rw [if_neg hid, if_neg hne, add_zero]

theorem sum_fill {t : Tally} {head : UInt64} {r : Resting} (hr : t.orders.find? head = some r) :
    (t.fill head r).orders.sum Resting.qty + min t.qty r.qty = t.orders.sum Resting.qty := by
  rw [Tally.fill]
  simp only
  split
  case isTrue hz =>
    have := OrdMap.sum_erase_add hr Resting.qty
    omega
  case isFalse =>
    have := OrdMap.sum_insert_add hr Resting.qty { r with qty := r.qty - min t.qty r.qty }
    simp only at this
    omega

/-- Between the book `b` and a state of the sweep for `qty`, the fills account for every
quantity that is gone. -/
structure Matched (b : Book) (qty : ℤ) (t : Tally) : Prop where
  positive : ∀ {id r}, t.orders.find? id = some r → 0 < r.qty
  taker_nonneg : 0 ≤ t.qty
  fills_nonneg : 0 ≤ fillQty t.log
  taker : t.qty + fillQty t.log = qty
  maker : ∀ id, liveQty t.orders id + makerQty id t.log = liveQty b.orders id
  live : t.orders.sum Resting.qty + fillQty t.log = b.orders.sum Resting.qty

/-- **One fill event** takes the same quantity from the taker and from the maker. -/
theorem Matched.fill {b : Book} {qty : ℤ} {t : Tally} (h : b.Matched qty t) (hq : 0 < t.qty)
    {head : UInt64} {r : Resting} (hr : t.orders.find? head = some r) :
    b.Matched qty (t.fill head r) := by
  have hrq := h.positive hr
  have hfill : fillQty (t.fill head r).log = fillQty t.log + min t.qty r.qty := by
    simp [fillQty, Tally.fill]
  constructor
  · intro id r' hr'
    rcases Tally.find?_fill hr' with hr' | ⟨-, hlt, rfl⟩
    · exact h.positive hr'
    · show 0 < r.qty - t.qty
      omega
  · show 0 ≤ t.qty - min t.qty r.qty
    omega
  · rw [hfill]
    have := h.fills_nonneg
    omega
  · rw [hfill]
    have := h.taker
    show t.qty - min t.qty r.qty + _ = qty
    omega
  · intro id
    have hmaker : makerQty id (t.fill head r).log =
        makerQty id t.log + if head = id then min t.qty r.qty else 0 := by
      simp [makerQty, Tally.fill]
    have hlive := liveQty_fill hr id
    have := h.maker id
    rw [hmaker]
    omega
  · rw [hfill]
    have hsum := sum_fill hr
    have := h.live
    omega

/-- **What the sweep conserves.** -/
theorem matched_sweep {b : Book} (hwf : b.WellFormed) (side : UInt8) (price : ℤ) {qty : ℤ}
    (hq : 0 ≤ qty) : b.Matched qty (sweep side price { book := b, qty }).tally := by
  refine sweep_tally (b.Matched qty) (fun t head r h hq hr => h.fill hq hr) ?_
  exact ⟨fun hr => hwf.positive hr, hq, le_rfl, add_zero qty, fun id => add_zero _, add_zero _⟩

/-! ## One operation, and a run -/

/-- Between the books `b` and `b'`, the movements account for what the operations submit. -/
structure Accounts (ops : List Op) (es : List Entry) (b b' : Book) : Prop where
  order : ∀ id, (ops.map (Op.submittedOf id)).sum + liveQty b.orders id =
    (es.map (Entry.taken id)).sum + (es.map (Entry.made id)).sum + liveQty b'.orders id +
      (es.map (Entry.removedOf id)).sum
  total : (ops.map Op.submittedQty).sum + b.orders.sum Resting.qty =
    2 * (es.map Entry.tradedQty).sum + b'.orders.sum Resting.qty + (es.map Entry.removedQty).sum
  traded_nonneg : 0 ≤ (es.map Entry.tradedQty).sum
  volume : b'.volume = b.volume + UInt64.ofInt (es.map Entry.tradedQty).sum

/-- Where nothing positive is submitted and nothing happens, there is nothing to account for. -/
theorem Accounts.of_nothing {ops : List Op} (b : Book)
    (horder : ∀ id, (ops.map (Op.submittedOf id)).sum = 0)
    (htotal : (ops.map Op.submittedQty).sum = 0) : Accounts ops [] b b where
  order := by simp [horder]
  total := by simp [htotal]
  traded_nonneg := le_rfl
  volume := (add_zero b.volume).symm

theorem Accounts.trans {ops ops' : List Op} {es es' : List Entry} {b b' b'' : Book}
    (h : Accounts ops es b b') (h' : Accounts ops' es' b' b'') :
    Accounts (ops ++ ops') (es ++ es') b b'' where
  order := by
    intro id
    have h₁ := h.order id
    have h₂ := h'.order id
    simp only [List.map_append, List.sum_append]
    omega
  total := by
    have h₁ := h.total
    have h₂ := h'.total
    simp only [List.map_append, List.sum_append]
    omega
  traded_nonneg := by
    rw [List.map_append, List.sum_append]
    exact add_nonneg h.traded_nonneg h'.traded_nonneg
  volume := by
    rw [List.map_append, List.sum_append, UInt64.ofInt_add, ← add_assoc, ← h.volume]
    exact h'.volume

theorem limit_of_nonpos {b : Book} {qty : ℤ} (hq : qty ≤ 0) (side : UInt8) (price : ℤ)
    (id : UInt64) :
    b.limit side price qty id = b ∧ b.limitLog side price qty = [] := by
  have hexit : sweep side price { book := b, qty } = { book := b, qty } :=
    sweep_of_exit (Or.inl hq)
  rw [limit, limitLog]
  simp [hexit, not_lt.mpr hq]

/-- The measures of the fills of one taker. -/
theorem sum_traded (id id' : UInt64) (log : List Fill) :
    ((log.map fun f => Entry.traded id f.maker f.qty).map (Entry.taken id')).sum =
        (if id = id' then fillQty log else 0) ∧
      ((log.map fun f => Entry.traded id f.maker f.qty).map (Entry.made id')).sum =
        makerQty id' log ∧
      ((log.map fun f => Entry.traded id f.maker f.qty).map (Entry.removedOf id')).sum = 0 ∧
      ((log.map fun f => Entry.traded id f.maker f.qty).map Entry.tradedQty).sum = fillQty log ∧
      ((log.map fun f => Entry.traded id f.maker f.qty).map Entry.removedQty).sum = 0 := by
  induction log with
  | nil => simp [fillQty, makerQty]
  | cons f log ih =>
    rcases ih with ⟨h₁, h₂, h₃, h₄, h₅⟩
    simp only [List.map_cons, List.sum_cons, h₁, h₂, h₃, h₄, h₅]
    simp only [Entry.taken, Entry.made, Entry.removedOf, Entry.tradedQty, Entry.removedQty, fillQty,
      makerQty, List.map_cons, List.sum_cons, add_zero, and_self, and_true]
    split <;> simp

theorem accounts_limit {b : Book} (hwf : b.WellFormed) {side : UInt8} {price qty : ℤ} {id : UInt64}
    (hfresh : b.orders.find? id = none) :
    Accounts [.limit side price qty id] (b.entries (.limit side price qty id)) b
      (b.limit side price qty id) := by
  rcases le_or_gt qty 0 with hq | hq
  · -- nothing is submitted, and nothing happens
    rcases limit_of_nonpos (b := b) hq side price id with ⟨hlimit, hlog⟩
    simp only [entries, hlog, hlimit, List.map_nil]
    exact Accounts.of_nothing b (by simp [Op.submittedOf, max_eq_right hq])
      (by simp [Op.submittedQty, max_eq_right hq])
  · have hm := matched_sweep hwf side price hq.le
    have hnone := find?_sweep_none side price (s := { book := b, qty }) hfresh
    have hcounters := (sweep_counters side price qty b).2
    unfold limit entries limitLog
    simp only
    generalize sweep side price { book := b, qty } = s at hm hnone hcounters
    have htaker : s.qty + fillQty s.log = qty := hm.taker
    have hlive : s.book.orders.sum Resting.qty + fillQty s.log = b.orders.sum Resting.qty := hm.live
    have hmaker : ∀ id', liveQty s.book.orders id' + makerQty id' s.log = liveQty b.orders id' :=
      hm.maker
    have hsq : 0 ≤ s.qty := hm.taker_nonneg
    have hzero := liveQty_eq_zero hnone
    have hafter : ∀ b' : Book, b'.volume = s.book.volume →
        b'.orders = (if 0 < s.qty then s.book.orders.insert id ⟨price, s.qty⟩ else s.book.orders) →
        Accounts [.limit side price qty id]
          (s.log.map fun f => Entry.traded id f.maker f.qty) b b' := by
      intro b' hvolume horders
      constructor
      · intro id'
        rcases sum_traded id id' s.log with ⟨h₁, h₂, h₃, -, -⟩
        have := hmaker id'
        have hlive' : liveQty b'.orders id' =
            if id' = id then s.qty else liveQty s.book.orders id' := by
          rw [horders]
          split
          · exact liveQty_insert _ _ _ _
          · split
            · rename_i hid
              rw [hid, hzero]
              omega
            · rfl
        rw [h₁, h₂, h₃, hlive']
        by_cases hid : id' = id
        · subst hid
          simp only [List.map_cons, List.map_nil, List.sum_cons, List.sum_nil, Op.submittedOf,
            if_true, max_eq_left hq.le]
          omega
        · have hne : ¬ id = id' := fun heq => hid heq.symm
          simp only [List.map_cons, List.map_nil, List.sum_cons, List.sum_nil, Op.submittedOf, hid,
            hne, if_false]
          omega
      · rcases sum_traded id id s.log with ⟨-, -, -, h₄, h₅⟩
        rw [h₄, h₅]
        have hsum : b'.orders.sum Resting.qty = s.book.orders.sum Resting.qty + s.qty := by
          rw [horders]
          split
          · rw [OrdMap.sum_insert_of_none hnone]
          · omega
        simp only [List.map_cons, List.map_nil, List.sum_cons, List.sum_nil, Op.submittedQty,
          max_eq_left hq.le]
        omega
      · rcases sum_traded id id s.log with ⟨-, -, -, h₄, -⟩
        rw [h₄]
        exact hm.fills_nonneg
      · rcases sum_traded id id s.log with ⟨-, -, -, h₄, -⟩
        rw [h₄, hvolume]
        exact hcounters
    split
    case isTrue hs =>
      refine hafter _ rfl ?_
      rw [if_pos hs]
      exact OrdMap.emplace_eq_insert hnone _
    case isFalse hs => exact hafter _ rfl (by rw [if_neg hs])

theorem accounts_cancel (b : Book) (id : UInt64) :
    Accounts [.cancel id] (b.entries (.cancel id)) b (b.cancel id) := by
  cases h : b.orders.find? id with
  | none =>
    have hes : b.entries (.cancel id) = [] := by simp [entries, h]
    have hcancel : b.cancel id = b := by simp [cancel, h]
    rw [hes, hcancel]
    exact Accounts.of_nothing b (by simp [Op.submittedOf]) (by simp [Op.submittedQty])
  | some r =>
    have hes : b.entries (.cancel id) = [.removed id r.qty] := by simp [entries, h]
    rw [hes]
    constructor
    · intro id'
      simp only [List.map_cons, List.map_nil, List.sum_cons, List.sum_nil, Op.submittedOf,
        Entry.taken, Entry.made, Entry.removedOf, cancel, liveQty_erase]
      by_cases hid : id' = id
      · subst hid
        simp [liveQty, h]
      · have hne : ¬ id = id' := fun heq => hid heq.symm
        simp [hid, hne]
    · have hsum := OrdMap.sum_erase_add h Resting.qty
      simp only [List.map_cons, List.map_nil, List.sum_cons, List.sum_nil, Op.submittedQty,
        Entry.tradedQty, Entry.removedQty, cancel]
      omega
    · simp [Entry.tradedQty]
    · exact (add_zero b.volume).symm

theorem accounts_apply {b : Book} (hwf : b.WellFormed) {op : Op} (hfresh : b.Fresh op) :
    Accounts [op] (b.entries op) b (b.apply op) := by
  cases op with
  | limit side price qty id => exact accounts_limit hwf hfresh
  | cancel id => exact accounts_cancel b id

/-- **The movements of a run** that uses no live id account for everything submitted. -/
theorem accounts_history {b : Book} (hwf : b.WellFormed) {ops : List Op} (h : b.NoLiveReuse ops) :
    Accounts ops (b.history ops) b (ops.foldl apply b) := by
  induction ops generalizing b with
  | nil => exact Accounts.of_nothing b (fun _ => rfl) rfl
  | cons op ops ih =>
    exact (accounts_apply hwf h.1).trans (ih (wellFormed_apply hwf op) h.2)

end Book

namespace TunedBook

/-- The movements of one operation. -/
def entries (t : TunedBook) : Op → Option (List Entry)
  | .limit side price qty id => do
    let log ← t.limitLog side price qty
    some (log.map fun f => .traded id f.maker f.qty)
  | .cancel id => do
    let r ← t.orders[id.toNat]?
    some (if r.qty ≠ 0 then [.removed id r.qty] else [])

/-- The movements of a sequence of operations. -/
def history : TunedBook → List Op → Option (List Entry)
  | _, [] => some []
  | t, op :: ops => do
    let es ← t.entries op
    let t' ← t.apply op
    let rest ← history t' ops
    some (es ++ rest)

/-- The quantity in the slot of an order; a dead slot holds zero. -/
def slotQty (t : TunedBook) (id : UInt64) : ℤ := ((t.orders[id.toNat]?).map Resting.qty).getD 0

theorem entries_holds {excess : UInt64} {t : TunedBook} {b : Book} (h : Holds excess t b)
    (hwf : b.WellFormed) {maxId : UInt64} (hlen : t.orders.length = maxId.toNat + 2) {op : Op}
    (hop : op.InRange maxId) : t.entries op = some (b.entries op) := by
  cases op with
  | limit side price qty id =>
    rcases hop with ⟨⟨h0, h1⟩, hid⟩
    have hslot : id.toNat < t.orders.length := by omega
    rcases limit_holds h hwf side qty h0 h1 hslot with ⟨-, -, -, -, -, hlog, -⟩
    simp only [entries, Book.entries, hlog, Option.bind_eq_bind, Option.bind_some]
  | cancel id =>
    have hid : id.toNat < t.orders.length := by
      have : id.toNat ≤ maxId.toNat + 1 := hop
      omega
    have hr : t.orders[id.toNat]? = some t.orders[id.toNat] := List.getElem?_eq_getElem hid
    simp only [entries, Book.entries, hr, Option.bind_eq_bind, Option.bind_some, ne_eq, ite_not]
    cases hf : b.orders.find? id with
    | none => rw [if_pos ((h.slots.find?_eq_none hr).mp hf)]
    | some r =>
      rcases (h.slots id r).mp hf with ⟨hslot, hne⟩
      rw [hr, Option.some.injEq] at hslot
      rw [hslot, if_neg hne]

theorem Holds.slotQty_eq {excess : UInt64} {t : TunedBook} {b : Book} (h : Holds excess t b)
    (id : UInt64) : t.slotQty id = Book.liveQty b.orders id := by
  rw [slotQty, Book.liveQty]
  cases hf : b.orders.find? id with
  | some r => rw [((h.slots id r).mp hf).1]
  | none =>
    cases hr : t.orders[id.toNat]? with
    | none => rfl
    | some r =>
      have hz : r.qty = 0 := (h.slots.find?_eq_none hr).mp hf
      simp [hz]

/-- **The movements of a run are those of the idiomatic book.** -/
theorem history_holds {maxId : UInt64} {ops : List Op} (hops : ∀ op ∈ ops, op.InRange maxId)
    {t : TunedBook} {b : Book} (h : Holds 0 t b) (hwf : b.WellFormed)
    (hlen : t.orders.length = maxId.toNat + 2) (hreuse : b.NoLiveReuse ops) :
    t.history ops = some (b.history ops) := by
  induction ops generalizing t b with
  | nil => rfl
  | cons op ops ih =>
    have hop := hops op List.mem_cons_self
    rcases apply_holds h hwf hlen hop with ⟨t', excess', ht', hholds, hlen', -, hexcess⟩
    rw [hexcess hreuse.1, Book.applyAssign_eq_apply hreuse.1] at hholds
    have hrest := ih (fun op' hop' => hops op' (List.mem_cons_of_mem _ hop')) hholds
      (Book.wellFormed_apply hwf op) (hlen'.trans hlen) hreuse.2
    simp only [history, Book.history, entries_holds h hwf hlen hop, ht', hrest,
      Option.bind_eq_bind, Option.bind_some]

end TunedBook

/-! ## Conservation -/

/-- The movements of a run account for every order, and for the run as a whole. -/
structure Conserved (ops : List Op) (history : List Entry) (liveQty : UInt64 → ℤ)
    (liveTotal : ℤ) (volume : UInt64) : Prop where
  /-- Submitted = matched as taker + matched as maker + live + removed by the cancel. -/
  order : ∀ {side price qty id}, Op.limit side price qty id ∈ ops → 0 < qty →
    qty = (history.map (Entry.taken id)).sum + (history.map (Entry.made id)).sum + liveQty id +
      (history.map (Entry.removedOf id)).sum
  /-- Submitted = twice traded + live + removed by cancels. -/
  total : (ops.map Op.submittedQty).sum =
    2 * (history.map Entry.tradedQty).sum + liveTotal + (history.map Entry.removedQty).sum
  /-- The volume counter is what was traded, as long as that fits in it. -/
  volume_eq : (history.map Entry.tradedQty).sum < 2 ^ 64 →
    (volume.toNat : ℤ) = (history.map Entry.tradedQty).sum

theorem Book.Accounts.conserved {ops : List Op} (hops : NeverReused ops) {es : List Entry}
    {b : Book} (h : Book.Accounts ops es {} b) :
    Conserved ops es (Book.liveQty b.orders) (b.orders.sum Resting.qty) b.volume where
  order := by
    intro side price qty id hop hq
    have horder := h.order id
    rw [sum_submittedOf hops hop, max_eq_left hq.le] at horder
    have hempty : Book.liveQty (∅ : Orders) id = 0 := rfl
    rw [hempty, add_zero] at horder
    exact horder
  total := by
    have htotal := h.total
    rw [OrdMap.sum_empty, add_zero] at htotal
    exact htotal
  volume_eq := by
    intro hlt
    have hvolume : b.volume = UInt64.ofInt (es.map Entry.tradedQty).sum := by
      rw [h.volume]
      exact zero_add _
    have hnonneg := h.traded_nonneg
    rw [hvolume, Word.toNat_ofInt hnonneg hlt, Int.toNat_of_nonneg hnonneg]

/-- **Quantity is conserved**, per order and in total, in both books. -/
theorem conserved_run {ops : List Op} (hops : NeverReused ops) :
    Conserved ops (Book.history {} ops) (Book.liveQty (Book.run ops).orders)
        ((Book.run ops).orders.sum Resting.qty) (Book.run ops).volume ∧
      ∀ maxId : UInt64, maxId.toNat < 2 ^ 64 - 2 → (∀ op ∈ ops, op.InRange maxId) →
        ∃ t es, TunedBook.run maxId ops = some t ∧
          (TunedBook.new maxId).history ops = some es ∧
          Conserved ops es t.slotQty (t.orders.map Resting.qty).sum t.volume := by
  have hreuse := Book.noLiveReuse_of_neverReused hops
  have hbook := (Book.accounts_history Book.wellFormed_empty hreuse).conserved hops
  refine ⟨hbook, fun maxId hmax hrange => ?_⟩
  rcases TunedBook.run_holds hmax hrange hreuse with ⟨t, ht, hholds, hlen⟩
  have hhistory := TunedBook.history_holds hrange (TunedBook.new_holds maxId)
    Book.wellFormed_empty (TunedBook.length_orders_new hmax) hreuse
  have hslots : t.slotQty = Book.liveQty (Book.run ops).orders := funext hholds.slotQty_eq
  have hsum := hholds.slots.sum_eq (by omega)
  refine ⟨t, _, ht, hhistory, ?_⟩
  rw [hslots, ← hsum, hholds.volume_eq]
  exact hbook

theorem conserved_run_cancelled :
    Conserved [.limit 0 10 5 1, .limit 1 9 3 2, .cancel 1, .limit 0 9 0 3]
        (Book.history {} [.limit 0 10 5 1, .limit 1 9 3 2, .cancel 1, .limit 0 9 0 3])
        (Book.liveQty (Book.run
          [.limit 0 10 5 1, .limit 1 9 3 2, .cancel 1, .limit 0 9 0 3]).orders)
        ((Book.run [.limit 0 10 5 1, .limit 1 9 3 2, .cancel 1, .limit 0 9 0 3]).orders.sum
          Resting.qty)
        (Book.run [.limit 0 10 5 1, .limit 1 9 3 2, .cancel 1, .limit 0 9 0 3]).volume ∧
      ∃ t es,
        TunedBook.run 3 [.limit 0 10 5 1, .limit 1 9 3 2, .cancel 1, .limit 0 9 0 3] = some t ∧
          (TunedBook.new 3).history [.limit 0 10 5 1, .limit 1 9 3 2, .cancel 1, .limit 0 9 0 3] =
            some es ∧
          Conserved [.limit 0 10 5 1, .limit 1 9 3 2, .cancel 1, .limit 0 9 0 3] es t.slotQty
            (t.orders.map Resting.qty).sum t.volume :=
  ⟨(conserved_run (by decide)).1, (conserved_run (by decide)).2 3 (by decide) (by decide)⟩

end LmaxBench.Cpp
