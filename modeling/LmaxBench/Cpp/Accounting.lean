import LmaxBench.Cpp.Ledger

/-!
# Accounting of fill events

Every fill event exhausts its taker, its maker, or both, and an order is exhausted at most
once. So the orders that were submitted are as many as the fill events, if the events that
exhaust both parties count twice, the orders still live, and the ones that were cancelled.

An order that was submitted is not lost without trace: it leaves a live order, a cancel or a
doubly exhausting fill behind, so that there are always fewer fills than orders.

## Main definitions

* `Book.doubles`, `Book.doubleFills` — the fill events in which both parties reach zero.
* `Book.cancelHits`, `positiveLimits` — the cancels that hit, the orders submitted.
* `Book.Exhausts` — what the fill events of one sweep exhaust.
* `fills_accounted` — the two counts, after every prefix of a run.
-/

namespace LmaxBench.Cpp

/-- The number of limits with a positive quantity. -/
def positiveLimits (ops : List Op) : ℕ :=
  ops.countP fun
    | .limit _ _ qty _ => decide (0 < qty)
    | .cancel _ => false

namespace Book

/-! ## The counts -/

/-- The last of these fills leaves both its parties at zero: the taker of `qty` and the maker
have been filled for all they had. -/
def bothExhausted (b : Book) (qty : ℤ) (log : List Fill) : Bool :=
  match log.getLast? with
  | none => false
  | some f => decide (fillQty log = qty ∧ makerQty f.maker log = liveQty b.orders f.maker)

/-- The number of fill events of a taker of `qty` in which both parties reach zero. -/
def doubles (b : Book) (qty : ℤ) (log : List Fill) : ℕ := log.inits.countP (b.bothExhausted qty)

/-- The number of fill events of one operation. -/
def fillsOf (b : Book) : Op → ℕ
  | .limit side price qty _ => (b.limitLog side price qty).length
  | .cancel _ => 0

/-- The number of fill events of one operation in which both parties reach zero. -/
def doublesOf (b : Book) : Op → ℕ
  | .limit side price qty _ => b.doubles qty (b.limitLog side price qty)
  | .cancel _ => 0

/-- Whether the operation is a cancel that hits a live id. -/
def hitsOf (b : Book) : Op → ℕ
  | .limit _ _ _ _ => 0
  | .cancel id => if b.orders.find? id = none then 0 else 1

/-- A count of each operation, added up over a run. -/
def total (count : Book → Op → ℕ) : Book → List Op → ℕ
  | _, [] => 0
  | b, op :: ops => count b op + total count (b.apply op) ops

/-- The number of fill events of a run. -/
def fillEvents : Book → List Op → ℕ := total fillsOf

/-- The number of fill events of a run in which maker and taker reach zero together. -/
def doubleFills : Book → List Op → ℕ := total doublesOf

/-- The number of cancels of a run that hit a live id. -/
def cancelHits : Book → List Op → ℕ := total hitsOf

/-! ## One sweep -/

@[simp] theorem doubles_nil (b : Book) (qty : ℤ) : b.doubles qty [] = 0 := rfl

@[simp] theorem doubles_append (b : Book) (qty : ℤ) (log : List Fill) (f : Fill) :
    b.doubles qty (log ++ [f]) =
      b.doubles qty log + if b.bothExhausted qty (log ++ [f]) then 1 else 0 := by
  have hinits : (log ++ [f]).inits = log.inits ++ [log ++ [f]] := by
    rw [List.inits_append]
    rfl
  rw [doubles, doubles, hinits, List.countP_append, List.countP_singleton]

/-- What the fill events of a sweep for `qty` exhaust: makers that are not live any more, the
taker, and the double events that count for both. -/
structure Exhausts (b : Book) (qty : ℤ) (t : Tally) : Prop where
  matched : b.Matched qty t
  count : b.orders.size + (if t.qty = 0 then 1 else 0) =
    t.orders.size + t.log.length + b.doubles qty t.log
  trace : t.qty = 0 → 1 ≤ t.orders.size + b.doubles qty t.log

/-- **One fill event** exhausts the maker if it is the smaller of the two, the taker if that
is, and is a double event if they are equal. -/
theorem Exhausts.fill {b : Book} {qty : ℤ} {t : Tally} (h : b.Exhausts qty t) (hq : 0 < t.qty)
    {head : UInt64} {r : Resting} (hr : t.orders.find? head = some r) :
    b.Exhausts qty (t.fill head r) := by
  have hrq := h.matched.positive hr
  have hm := h.matched.fill hq hr
  have hcount := h.count
  have hsize := OrdMap.size_erase_add_one hr
  rw [if_neg hq.ne'] at hcount
  have htaker : fillQty (t.fill head r).log = qty ↔ t.qty ≤ r.qty := by
    have hfill : t.qty - min t.qty r.qty + fillQty (t.fill head r).log = qty := hm.taker
    omega
  have hmaker : makerQty head (t.fill head r).log = liveQty b.orders head ↔ r.qty ≤ t.qty := by
    have hfill := hm.maker head
    have hleft := liveQty_fill hr head
    have hlive : liveQty t.orders head = r.qty := by
      simp only [liveQty, hr, Option.map_some, Option.getD_some]
    rw [if_pos rfl] at hleft
    omega
  have hdouble : b.doubles qty (t.fill head r).log =
      b.doubles qty t.log + if t.qty = r.qty then 1 else 0 := by
    have hlog : (t.fill head r).log = t.log ++ [⟨head, min t.qty r.qty⟩] := rfl
    have hiff : b.bothExhausted qty (t.fill head r).log = decide (t.qty = r.qty) := by
      rw [bothExhausted, hlog, List.getLast?_concat, ← hlog]
      simp only [htaker, hmaker]
      exact decide_eq_decide.mpr ⟨fun h => le_antisymm h.1 h.2, fun h => ⟨h.le, h.ge⟩⟩
    rw [hlog, doubles_append, ← hlog, hiff]
    simp only [decide_eq_true_eq]
  have hlen : (t.fill head r).log.length = t.log.length + 1 := by
    rw [Tally.fill, List.length_append, List.length_singleton]
  have horders : (t.fill head r).orders.size = if r.qty ≤ t.qty then t.orders.size - 1
      else t.orders.size := by
    simp only [Tally.fill]
    by_cases hle : r.qty ≤ t.qty
    · rw [if_pos (by omega), if_pos hle]
      omega
    · rw [if_neg (by omega), if_neg hle]
      exact OrdMap.size_insert_of_some hr _
  have hqty : (t.fill head r).qty = 0 ↔ t.qty ≤ r.qty := by
    show t.qty - min t.qty r.qty = 0 ↔ _
    omega
  refine ⟨hm, ?_, ?_⟩
  · simp only [hqty, hlen, hdouble, horders]
    split <;> split <;> split <;> omega
  · intro hz
    have hle := hqty.mp hz
    rw [hdouble, horders]
    split <;> split <;> omega

theorem exhausts_sweep {b : Book} (hwf : b.WellFormed) (side : UInt8) (price : ℤ) {qty : ℤ}
    (hq : 0 < qty) : b.Exhausts qty (sweep side price { book := b, qty }).tally := by
  refine sweep_tally (b.Exhausts qty) (fun t head r h hq hr => h.fill hq hr) ⟨?_, ?_, ?_⟩
  · exact ⟨fun hr => hwf.positive hr, hq.le, le_rfl, add_zero qty, fun id => add_zero _, add_zero _⟩
  · show b.orders.size + (if qty = 0 then 1 else 0) = b.orders.size + 0 + b.doubles qty []
    rw [if_neg hq.ne', doubles_nil]
  · exact fun hz => absurd hz hq.ne'

/-! ## One operation, and a run -/

/-- Between the books `b` and `b'`, the orders that operations submit are counted by what
becomes of them; `cancels` and `doubles` are what the operations add to those counts. -/
structure Counted (ops : List Op) (fills cancels doubles : ℕ) (b b' : Book) : Prop where
  count : positiveLimits ops + b.orders.size = fills + b'.orders.size + cancels + doubles
  trace : 1 ≤ positiveLimits ops + b.orders.size → 1 ≤ b'.orders.size + cancels + doubles

theorem counted_limit {b : Book} (hwf : b.WellFormed) (side : UInt8) (price qty : ℤ) {id : UInt64}
    (hfresh : b.orders.find? id = none) :
    Counted [.limit side price qty id] (b.fillsOf (.limit side price qty id))
      (b.hitsOf (.limit side price qty id)) (b.doublesOf (.limit side price qty id)) b
      (b.limit side price qty id) := by
  have hsubmitted : positiveLimits [.limit side price qty id] = if 0 < qty then 1 else 0 := by
    rw [positiveLimits, List.countP_singleton]
    simp only [decide_eq_true_eq]
  rcases le_or_gt qty 0 with hq | hq
  · -- nothing is submitted, and nothing happens
    obtain ⟨hlimit, hlog⟩ := limit_of_nonpos (b := b) hq side price id
    rw [if_neg (not_lt.mpr hq)] at hsubmitted
    simp only [fillsOf, hitsOf, doublesOf, hlog, hlimit, doubles_nil, List.length_nil]
    refine ⟨?_, fun hone => ?_⟩ <;> omega
  · have hexhausts := exhausts_sweep hwf side price hq
    have hnone := find?_sweep_none side price (s := { book := b, qty }) hfresh
    rw [if_pos hq] at hsubmitted
    rw [limit]
    simp only [fillsOf, hitsOf, doublesOf, limitLog]
    generalize sweep side price { book := b, qty } = s at hexhausts hnone
    have hnonneg : 0 ≤ s.qty := hexhausts.matched.taker_nonneg
    have hcount : b.orders.size + (if s.qty = 0 then 1 else 0) =
        s.book.orders.size + s.log.length + b.doubles qty s.log := hexhausts.count
    have htrace : s.qty = 0 → 1 ≤ s.book.orders.size + b.doubles qty s.log := hexhausts.trace
    by_cases hs : 0 < s.qty
    · have hrest : (s.book.rest side price s.qty id).orders.size = s.book.orders.size + 1 := by
        rw [rest, OrdMap.emplace_eq_insert hnone, OrdMap.size_insert_of_none hnone]
      rw [if_neg hs.ne'] at hcount
      rw [if_pos hs]
      refine ⟨?_, fun hone => ?_⟩ <;> omega
    · rw [if_pos (by omega)] at hcount
      rw [if_neg hs]
      refine ⟨?_, fun hone => ?_⟩ <;> omega

theorem counted_cancel (b : Book) (id : UInt64) :
    Counted [.cancel id] (b.fillsOf (.cancel id)) (b.hitsOf (.cancel id))
      (b.doublesOf (.cancel id)) b (b.cancel id) := by
  cases h : b.orders.find? id with
  | none =>
    have hcancel : b.cancel id = b := by simp [cancel, h]
    rw [hcancel, hitsOf, if_pos h]
    refine ⟨?_, fun hone => ?_⟩
    · show 0 + b.orders.size = 0 + b.orders.size + 0 + 0
      omega
    · have hone' : 1 ≤ 0 + b.orders.size := hone
      show 1 ≤ b.orders.size + 0 + 0
      omega
  | some r =>
    have hsize := OrdMap.size_erase_add_one h
    have hne : ¬ b.orders.find? id = none := by rw [h]; exact Option.some_ne_none r
    rw [hitsOf, if_neg hne]
    refine ⟨?_, fun _ => ?_⟩
    · show 0 + b.orders.size = 0 + (b.orders.erase id).size + 1 + 0
      omega
    · show 1 ≤ (b.orders.erase id).size + 1 + 0
      omega

theorem counted_apply {b : Book} (hwf : b.WellFormed) {op : Op} (hfresh : b.Fresh op) :
    Counted [op] (b.fillsOf op) (b.hitsOf op) (b.doublesOf op) b (b.apply op) := by
  cases op with
  | limit side price qty id => exact counted_limit hwf side price qty hfresh
  | cancel id => exact counted_cancel b id

/-- **The orders of a run** that uses no live id. -/
theorem counted_run {b : Book} (hwf : b.WellFormed) {ops : List Op} (h : b.NoLiveReuse ops) :
    Counted ops (b.fillEvents ops) (b.cancelHits ops) (b.doubleFills ops) b
      (ops.foldl apply b) := by
  induction ops generalizing b with
  | nil =>
    refine ⟨?_, fun hone => ?_⟩
    · show 0 + b.orders.size = 0 + b.orders.size + 0 + 0
      omega
    · have hone' : 1 ≤ 0 + b.orders.size := hone
      show 1 ≤ b.orders.size + 0 + 0
      omega
  | cons op ops ih =>
    have hop := counted_apply hwf h.1
    have hrest := ih (wellFormed_apply hwf op) h.2
    have hlimits : positiveLimits (op :: ops) = positiveLimits [op] + positiveLimits ops := by
      rw [positiveLimits, ← List.singleton_append, List.countP_append]
      rfl
    have hcount := hop.count
    have hcount' := hrest.count
    have htrace := hop.trace
    have htrace' := hrest.trace
    refine ⟨?_, fun hone => ?_⟩
    · simp only [fillEvents, cancelHits, doubleFills, total, List.foldl_cons] at *
      omega
    · simp only [fillEvents, cancelHits, doubleFills, total, List.foldl_cons] at *
      omega

/-- The counter of fills goes with the events. -/
@[simp] theorem fills_run (b : Book) (ops : List Op) :
    (ops.foldl apply b).fills = b.fills + UInt64.ofNat (b.fillEvents ops) := by
  induction ops generalizing b with
  | nil => exact (add_zero b.fills).symm
  | cons op ops ih =>
    have hop : (b.apply op).fills = b.fills + UInt64.ofNat (b.fillsOf op) := by
      cases op with
      | cancel id => exact (add_zero b.fills).symm
      | limit side price qty id =>
        rw [fillsOf, limitLog, ← (sweep_counters side price qty b).1]
        show (b.limit side price qty id).fills = _
        rw [limit]
        split <;> rfl
    rw [List.foldl_cons, ih, hop, fillEvents, total, UInt64.ofNat_add, add_assoc]

end Book

/-- Ids that are never reused are at most `2 ^ 64`. -/
theorem positiveLimits_le {ops : List Op} (h : NeverReused ops) : positiveLimits ops ≤ 2 ^ 64 := by
  have hle : positiveLimits ops ≤ (limitIds ops).length := by
    clear h
    induction ops with
    | nil => exact Nat.le_refl 0
    | cons op ops ih =>
      cases op with
      | cancel id => exact ih
      | limit side price qty id =>
        have hcons : (limitIds (.limit side price qty id :: ops)).length =
            (limitIds ops).length + 1 := rfl
        have hbit : (if decide (0 < qty) = true then 1 else 0) ≤ 1 := by split <;> omega
        rw [positiveLimits, List.countP_cons, hcons]
        exact Nat.add_le_add ih hbit
  have hnodup : ((limitIds ops).map UInt64.toNat).Nodup :=
    h.map fun _ _ => UInt64.toNat_inj.mp
  have hrange : (limitIds ops).map UInt64.toNat ⊆ List.range (2 ^ 64) := by
    intro n hn
    obtain ⟨id, -, rfl⟩ := List.mem_map.mp hn
    exact List.mem_range.mpr id.toNat_lt
  have hcard := (hnodup.subperm hrange).length_le
  rw [List.length_map, List.length_range] at hcard
  exact hle.trans hcard

/-- **Exact accounting of fill events.** After every prefix of a run that never reuses an id,
the orders submitted are the fills, the orders still live, the ones cancelled and the doubly
exhausting fills; and there are fewer fills than orders. -/
theorem fills_accounted {ops : List Op} (h : NeverReused ops) {pre : List Op} (hpre : pre <+: ops) :
    (Book.run pre).fills.toNat = Book.fillEvents {} pre ∧
      positiveLimits pre = (Book.run pre).fills.toNat + (Book.run pre).resting +
        Book.cancelHits {} pre + Book.doubleFills {} pre ∧
      (1 ≤ positiveLimits pre → (Book.run pre).fills.toNat < positiveLimits pre) := by
  have hpre' := h.of_prefix hpre
  have hcounted := Book.counted_run Book.wellFormed_empty (Book.noLiveReuse_of_neverReused hpre')
  have hcount : positiveLimits pre + 0 = Book.fillEvents {} pre + (Book.run pre).resting +
      Book.cancelHits {} pre + Book.doubleFills {} pre := hcounted.count
  have htrace : 1 ≤ positiveLimits pre + 0 → 1 ≤ (Book.run pre).resting +
      Book.cancelHits {} pre + Book.doubleFills {} pre := hcounted.trace
  have hle := positiveLimits_le hpre'
  have hfills : (Book.run pre).fills.toNat = Book.fillEvents {} pre := by
    rw [Book.run, Book.fills_run, zero_add, Word.toNat_ofNat_of_lt (by omega)]
  omega

theorem fills_accounted_double :
    (Book.run [.limit 0 10 5 1, .limit 1 10 5 2, .limit 0 11 4 3, .cancel 3,
      .limit 1 9 3 4]).fills.toNat =
        Book.fillEvents {}
          [.limit 0 10 5 1, .limit 1 10 5 2, .limit 0 11 4 3, .cancel 3, .limit 1 9 3 4] ∧
      positiveLimits
          [.limit 0 10 5 1, .limit 1 10 5 2, .limit 0 11 4 3, .cancel 3, .limit 1 9 3 4] =
        (Book.run [.limit 0 10 5 1, .limit 1 10 5 2, .limit 0 11 4 3, .cancel 3,
          .limit 1 9 3 4]).fills.toNat +
        (Book.run [.limit 0 10 5 1, .limit 1 10 5 2, .limit 0 11 4 3, .cancel 3,
          .limit 1 9 3 4]).resting +
        Book.cancelHits {}
          [.limit 0 10 5 1, .limit 1 10 5 2, .limit 0 11 4 3, .cancel 3, .limit 1 9 3 4] +
        Book.doubleFills {}
          [.limit 0 10 5 1, .limit 1 10 5 2, .limit 0 11 4 3, .cancel 3, .limit 1 9 3 4] ∧
      (1 ≤ positiveLimits
          [.limit 0 10 5 1, .limit 1 10 5 2, .limit 0 11 4 3, .cancel 3, .limit 1 9 3 4] →
        (Book.run [.limit 0 10 5 1, .limit 1 10 5 2, .limit 0 11 4 3, .cancel 3,
          .limit 1 9 3 4]).fills.toNat <
          positiveLimits
            [.limit 0 10 5 1, .limit 1 10 5 2, .limit 0 11 4 3, .cancel 3, .limit 1 9 3 4]) :=
  fills_accounted (by decide) (List.prefix_refl _)

end LmaxBench.Cpp
