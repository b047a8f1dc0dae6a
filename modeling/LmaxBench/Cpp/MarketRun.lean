import Mathlib.Data.List.Sort
import LmaxBench.Cpp.Checksum
import LmaxBench.Cpp.EagerCancel

/-!
# The market over whole runs

An exchange that is nothing but the orders which wait on it, and its run over a sequence of
operations. The statistics of an engine are functions of its state: the checksum folds the
orders of both sides in ascending price, and within a price in the order of submission.

A book that has run the same operations stands for the same market at every point, and reports
the same statistics.

## Main definitions

* `Market.apply`, `Market.run` — the exchange over whole runs.
* `Market.resting`, `Market.checksum` — its statistics.
* `Book.market_run` — the book runs as the exchange does.
* `Book.market_resting`, `Book.market_checksum` — and reports the same.
-/

namespace LmaxBench.Cpp
namespace Market

/-- One operation on the exchange. -/
def apply (m : Market) : Op → Market
  | .limit side price qty id => m.limit side price qty id
  | .cancel id => m.cancel id

/-- An exchange on which nobody waits. -/
def empty : Market := { bids := [], asks := [], fills := 0, volume := 0 }

/-- The run of `ops` on the exchange. -/
def run (ops : List Op) : Market := ops.foldl apply empty

@[simp] theorem run_append (ops : List Op) (op : Op) : run (ops ++ [op]) = (run ops).apply op := by
  simp [run]

/-- The orders in ascending price; those of one price stay as they were. -/
def ascending (l : List LiveOrder) : List LiveOrder :=
  l.insertionSort fun o o' => o.price ≤ o'.price

/-- How many orders wait. -/
def resting (m : Market) : ℕ := m.bids.length + m.asks.length

/-- The fold over the orders, bids before asks. -/
def checksum (m : Market) : UInt64 :=
  (ascending m.bids ++ m.asks).foldl (fun acc o => mix acc o.1 o.2) 0

theorem ascending_sorted (l : List LiveOrder) :
    (ascending l).Pairwise fun o o' => o.price ≤ o'.price := by
  have htotal : Std.Total fun o o' : LiveOrder => o.price ≤ o'.price :=
    ⟨fun o o' => le_total o.price o'.price⟩
  have htrans : IsTrans LiveOrder fun o o' => o.price ≤ o'.price := ⟨fun _ _ _ => le_trans⟩
  exact List.pairwise_insertionSort _ l

/-- **Ascending is stable.** -/
@[simp] theorem filter_ascending (l : List LiveOrder) (p : ℤ) :
    (ascending l).filter (fun o => o.price = p) = l.filter fun o => o.price = p := by
  have hsub : (l.filter fun o => o.price = p).Sublist (ascending l) := by
    refine List.sublist_insertionSort ?_ List.filter_sublist
    refine List.pairwise_of_forall_mem_list ?_
    intro o ho o' ho'
    have hprice : o.price = p := by simpa using List.of_mem_filter ho
    have hprice' : o'.price = p := by simpa using List.of_mem_filter ho'
    rw [hprice, hprice']
  have hfilter := hsub.filter fun o => o.price = p
  rw [List.filter_filter] at hfilter
  simp only [Bool.and_self] at hfilter
  refine (hfilter.eq_of_length ?_).symm
  exact ((List.perm_insertionSort _ l).filter _).length_eq.symm

end Market

namespace Book

/-- **The book runs as the exchange does.** -/
theorem market_run {ops : List Op} (h : NeverReused ops) : (run ops).market = Market.run ops := by
  induction ops using List.reverseRecOn with
  | nil => rfl
  | append_singleton ops op ih =>
    have hops := h.of_prefix (List.prefix_append _ _)
    rw [run_append, Market.run_append, ← ih hops]
    cases op with
    | limit side price qty id =>
      exact market_limit hops (placed_run (noLiveReuse_of_neverReused hops)) side price qty
        h.not_mem_of_append
    | cancel id => exact market_cancel (run ops) id

/-- The bids in the order of the checksum. -/
theorem ascending_bids {b : Book} (h : PricedBy b.orders b.bids) :
    Market.ascending b.market.bids = liveOn b.orders b.bids := by
  refine eq_of_filter_eq (Market.ascending_sorted _) ?_ ?_
  · refine (priority_sorted h sideBid).imp ?_
    intro o o' hb
    simpa [better] using hb
  · intro p
    rw [Market.filter_ascending]
    exact (filter_priority h sideAsk p).trans (filter_priority h sideBid p).symm

/-- The checksum is that of the market. -/
theorem market_checksum {ops : List Op} (hops : NeverReused ops) {b : Book} (hp : b.Placed ops) :
    b.market.checksum = b.checksum := by
  have hbids : PricedBy b.orders b.bids := pricedBy_own hops hp sideBid
  rw [Market.checksum, ascending_bids hbids, checksum_eq]
  rfl

/-- As many orders rest as wait on the market. -/
theorem market_resting {ops : List Op} (hops : NeverReused ops) {b : Book} (hp : b.Placed ops)
    (hwf : b.WellFormed) : b.market.resting = b.resting := by
  have hbids : PricedBy b.orders b.bids := pricedBy_own hops hp sideBid
  have hlen : b.market.bids.length = (liveOn b.orders b.bids).length := by
    rw [← ascending_bids hbids]
    exact (List.length_insertionSort _ _).symm
  have hfolded := (hp.folded_perm hops hwf).length_eq
  rw [folded, List.length_append] at hfolded
  rw [Market.resting, hlen]
  exact hfolded

end Book
end LmaxBench.Cpp
