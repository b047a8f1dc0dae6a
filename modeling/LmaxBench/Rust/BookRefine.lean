import LmaxBench.Cpp.TunedRun
import LmaxBench.Rust.Book

/-!
# The Rust book is the C++ book with an overwriting live map

Both loops of the Rust book commute with `Book.ofCpp`, which forgets the log of the fills.
The two books differ in one operation only: where a residual comes to rest, the Rust book
inserts into its live map, and the C++ book emplaces. So the Rust book is the C++ book
under `applyAssign`.

## Main definitions

* `Book.ofCpp` — the Rust book with the contents of a C++ book.
* `Book.run_eq` — a run of the Rust book.
-/

namespace LmaxBench.Rust

open Cpp (Resting Levels Orders)

namespace Book

/-- The Rust book with the contents of a C++ book. -/
def ofCpp (b : Cpp.Book) : Book := ⟨b.bids, b.asks, b.orders, b.fills, b.volume⟩

def Drain.ofCpp (d : Cpp.Book.Drain) : Drain := ⟨d.lvl, d.orders, d.qty, d.fills, d.volume⟩

def Sweep.ofCpp (s : Cpp.Book.Sweep) : Sweep := ⟨Book.ofCpp s.book, s.qty⟩

theorem sideBid_eq : sideBid = Cpp.sideBid := rfl

/-! ## The loops -/

@[simp] theorem drainStep_ofCpp (d : Cpp.Book.Drain) :
    drainStep (Drain.ofCpp d) = (Cpp.Book.drainStep d).map Drain.ofCpp := by
  simp only [drainStep, Cpp.Book.drainStep, Drain.ofCpp, OrdMap.erase_insert]
  by_cases hq : 0 < d.qty
  · rw [if_pos hq, if_pos hq]
    cases d.lvl with
    | nil => rfl
    | cons head rest =>
      cases h : d.orders.find? head with
      | none => simp only [h, Option.map_some, Drain.ofCpp]
      | some r =>
        simp only [h, Option.map_some, Drain.ofCpp]
        rfl
  · rw [if_neg hq, if_neg hq]
    rfl

@[simp] theorem drain_ofCpp (d : Cpp.Book.Drain) :
    drain (Drain.ofCpp d) = Drain.ofCpp (Cpp.Book.drain d) :=
  Loop.exec_map Drain.ofCpp drainStep_ofCpp (fun _ => rfl) d

@[simp] theorem putLevel_eq (m : Levels) (p : ℤ) (level : List UInt64) :
    putLevel m p level = m.put p level := by
  simp only [putLevel, Levels.put, OrdMap.erase_insert]

@[simp] theorem pushLevel_eq (m : Levels) (price : ℤ) (id : UInt64) :
    pushLevel m price id = m.pushBack price id := by
  apply OrdMap.ext_find?
  intro p
  rw [pushLevel, OrdMap.find?_insert, Levels.find?_pushBack]

@[simp] theorem bestCrossing_ofCpp (b : Cpp.Book) (side : UInt8) (price : ℤ) :
    (ofCpp b).bestCrossing side price = b.bestCrossing side price := by
  simp only [bestCrossing, Cpp.Book.bestCrossing, ofCpp, sideBid_eq]
  by_cases hs : side = Cpp.sideBid
  · simp only [hs, if_true]
    cases b.asks.first? with
    | none => rfl
    | some it =>
      by_cases h : it.1 ≤ price
      · simp [h, not_lt.mpr h]
      · simp [h, not_le.mp h]
  · simp only [hs, if_false]
    cases b.bids.last? with
    | none => rfl
    | some it =>
      by_cases h : price ≤ it.1
      · simp [h, not_lt.mpr h]
      · simp [h, not_le.mp h]

@[simp] theorem sweepStep_ofCpp (side : UInt8) (price : ℤ) (s : Cpp.Book.Sweep) :
    sweepStep side price (Sweep.ofCpp s) =
      (Cpp.Book.sweepStep side price s).map Sweep.ofCpp := by
  simp only [sweepStep, Cpp.Book.sweepStep, Sweep.ofCpp, bestCrossing_ofCpp]
  by_cases hq : 0 < s.qty
  · rw [if_pos hq, if_pos hq]
    cases s.book.bestCrossing side price with
    | none => rfl
    | some it =>
      have hdrain := drain_ofCpp
        ⟨it.2, s.book.orders, s.qty, s.book.fills, s.book.volume, s.log⟩
      simp only [Drain.ofCpp] at hdrain
      simp only [ofCpp, hdrain, putLevel_eq, sideBid_eq, Cpp.Book.writeBack, Option.map_some]
      rfl
  · rw [if_neg hq, if_neg hq]
    rfl

@[simp] theorem sweep_ofCpp (side : UInt8) (price : ℤ) (s : Cpp.Book.Sweep) :
    sweep side price (Sweep.ofCpp s) = Sweep.ofCpp (Cpp.Book.sweep side price s) :=
  Loop.exec_map Sweep.ofCpp (sweepStep_ofCpp side price) (fun _ => rfl) s

/-! ## The operations -/

@[simp] theorem limit_ofCpp (b : Cpp.Book) (side : UInt8) (price qty : ℤ) (id : UInt64) :
    (ofCpp b).limit side price qty id = ofCpp (b.limitAssign side price qty id) := by
  have hsweep := sweep_ofCpp side price { book := b, qty }
  simp only [Sweep.ofCpp] at hsweep
  rw [limit, Cpp.Book.limitAssign]
  simp only [hsweep, pushLevel_eq, sideBid_eq]
  split <;> rfl

@[simp] theorem apply_ofCpp (b : Cpp.Book) (op : Cpp.Op) :
    (ofCpp b).apply op = ofCpp (b.applyAssign op) := by
  cases op with
  | limit side price qty id => exact limit_ofCpp b side price qty id
  | cancel id => rfl

/-- **A run of the Rust book** is a run of the C++ book whose live map overwrites. -/
theorem run_eq (ops : List Cpp.Op) : run ops = ofCpp (ops.foldl Cpp.Book.applyAssign {}) := by
  rw [run]
  have hfold : ∀ b : Cpp.Book,
      ops.foldl apply (ofCpp b) = ofCpp (ops.foldl Cpp.Book.applyAssign b) := by
    induction ops with
    | nil => exact fun _ => rfl
    | cons op ops ih =>
      intro b
      rw [List.foldl_cons, List.foldl_cons, apply_ofCpp, ih]
  exact hfold {}

@[simp] theorem checksum_ofCpp (b : Cpp.Book) : (ofCpp b).checksum = b.checksum := by
  have hlevel : foldLevel b.orders = Cpp.Book.foldLevel b.orders := rfl
  simp only [checksum, Cpp.Book.checksum, Cpp.Book.foldSide, ofCpp, hlevel]

end Book
end LmaxBench.Rust
