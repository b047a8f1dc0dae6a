import LmaxBench.Go.BookRefine
import LmaxBench.Java.BookRefine

/-!
# The idiomatic books of the suite agree

The idiomatic books in Go, Rust and Java agree on every sequence of operations, also on those that
reuse the id of a live order: all three overwrite its record. The book in C++ keeps the record
that is there, so it joins them as long as no live id is reused.

## Main definitions

* `BookView` — what a book holds and reports, in the terms of none of the languages.
* `books_agree` — the views of the four books after any operations.
-/

namespace LmaxBench

open Cpp (Orders)

/-- What a book holds and reports. -/
structure BookView where
  bids : Cpp.Levels
  asks : Cpp.Levels
  orders : Orders
  fills : UInt64
  volume : UInt64
  checksum : UInt64
  deriving DecidableEq

def Cpp.Book.view (b : Cpp.Book) : BookView :=
  ⟨b.bids, b.asks, b.orders, b.fills, b.volume, b.checksum⟩

def Rust.Book.view (b : Rust.Book) : BookView :=
  ⟨b.bids, b.asks, b.orders, b.fills, b.volume, b.checksum⟩

/-- The queue of a level is what its head has not passed. -/
def Go.Book.view (b : Go.Book) : Option BookView :=
  b.checksum.map fun checksum =>
    ⟨b.bidLevels.mapVals Cpp.FlatLevel.unread, b.askLevels.mapVals Cpp.FlatLevel.unread, b.orders,
      b.fills, b.volume, checksum⟩

/-- The ids and the counters are read as unsigned. -/
def Java.Book.view (b : Java.Book) : BookView :=
  ⟨b.bids.mapVals (List.map Int64.toUInt64), b.asks.mapVals (List.map Int64.toUInt64), b.orders,
    b.fills.toUInt64, b.volume.toUInt64, b.checksum.toUInt64⟩

@[simp] theorem Rust.Book.view_ofCpp (b : Cpp.Book) : (Rust.Book.ofCpp b).view = b.view := by
  rw [view, checksum_ofCpp]
  rfl

theorem Go.Book.Holds.view_eq {g : Go.Book} {b : Cpp.Book} (h : Go.Book.Holds g b) :
    g.view = some b.view := by
  rw [view, checksum_holds h, h.bids.levels_eq, h.asks.levels_eq, h.orders_eq, h.fills_eq,
    h.volume_eq]
  rfl

@[simp] theorem Java.Book.mapVals_levelsOf (m : Cpp.Levels) :
    (Java.Book.levelsOf m).mapVals (List.map Int64.toUInt64) = m := by
  apply OrdMap.ext_find?
  intro p
  rw [OrdMap.find?_mapVals, levelsOf, OrdMap.find?_mapVals]
  cases m.find? p with
  | none => rfl
  | some level =>
    have hid : Int64.toUInt64 ∘ UInt64.toInt64 = id := funext UInt64.toUInt64_toInt64
    rw [Option.map_some, Option.map_some, List.map_map, hid, List.map_id]

@[simp] theorem Java.Book.view_ofRust (b : Rust.Book) : (Java.Book.ofRust b).view = b.view := by
  rw [view, checksum_ofRust, UInt64.toUInt64_toInt64]
  simp only [ofRust, mapVals_levelsOf, UInt64.toUInt64_toInt64]
  rfl

/-- A map of more records than an `int` can count has as many of them as an `int` can. -/
theorem Java.Book.toInt_resting (b : Java.Book) :
    b.resting.toInt = min (b.orders.size : ℤ) (2 ^ 31 - 1) := by
  have hlt : min b.orders.size (2 ^ 31 - 1) < 2 ^ 31 := by omega
  rw [resting, Int32.toInt_ofNat_of_lt hlt]
  omega

/-- **The idiomatic books agree.** No operations make the book in Go panic, and the books in Go,
Rust and Java hold the same queues and records and report the same, whatever ids are used; so
does the book in C++ where no live id is reused. -/
theorem books_agree (ops : List Cpp.Op) :
    (Go.Book.run ops).bind Go.Book.view = some (Rust.Book.run ops).view ∧
      (Java.Book.run ops).view = (Rust.Book.run ops).view ∧
      (Java.Book.run ops).resting.toInt = min ((Rust.Book.run ops).orders.size : ℤ) (2 ^ 31 - 1) ∧
      (Cpp.Book.NoLiveReuse {} ops → (Cpp.Book.run ops).view = (Rust.Book.run ops).view) := by
  obtain ⟨g, hg, h⟩ := Go.Book.run_holds ops
  have hrust := Rust.Book.run_eq ops
  refine ⟨?_, ?_, ?_, fun hreuse => ?_⟩
  · simp [hg, h.view_eq, hrust]
  · simp [Java.Book.run_eq]
  · rw [Java.Book.toInt_resting, Java.Book.run_eq]
    rfl
  · rw [hrust, Rust.Book.view_ofCpp, Cpp.Book.foldl_applyAssign hreuse]
    rfl

/-- An order is filled, and its id used again. -/
theorem books_agree_reused :
    (Java.Book.run [.limit 0 10 5 1, .limit 1 10 5 2, .limit 0 11 7 1]).view =
        (Rust.Book.run [.limit 0 10 5 1, .limit 1 10 5 2, .limit 0 11 7 1]).view ∧
      (Cpp.Book.run [.limit 0 10 5 1, .limit 1 10 5 2, .limit 0 11 7 1]).view =
        (Rust.Book.run [.limit 0 10 5 1, .limit 1 10 5 2, .limit 0 11 7 1]).view := by
  obtain ⟨-, hjava, -, hcpp⟩ := books_agree [.limit 0 10 5 1, .limit 1 10 5 2, .limit 0 11 7 1]
  exact ⟨hjava, hcpp (by decide +kernel)⟩

/-- On the id of a live order, the book in C++ goes its own way. -/
example :
    (Cpp.Book.run [.limit 0 10 5 1, .limit 0 10 7 1]).view ≠
      (Rust.Book.run [.limit 0 10 5 1, .limit 0 10 7 1]).view := by
  decide +kernel

end LmaxBench
