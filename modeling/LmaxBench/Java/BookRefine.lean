import LmaxBench.Java.Book
import LmaxBench.Java.TunedRefine
import LmaxBench.Rust.BookRefine

/-!
# The Java book is the Rust book, read as signed

Both loops of the Java book commute with `Book.ofRust`, which reads the queued ids and the
counters as signed words. No id is left out, so the two books agree on all operations, also on
those that reuse a live id.

## Main definitions

* `Book.ofRust` — the Java book with the contents of a Rust book.
* `Book.run_eq` — a run of the Java book.
-/

namespace LmaxBench.Java

open Cpp (Resting Orders)

namespace Book

/-- The same levels, with signed ids. -/
def levelsOf (m : Cpp.Levels) : Levels := m.mapVals (List.map UInt64.toInt64)

/-- The Java book with the contents of a Rust book. -/
def ofRust (b : Rust.Book) : Book :=
  ⟨levelsOf b.bids, levelsOf b.asks, b.orders, b.fills.toInt64, b.volume.toInt64⟩

def Drain.ofRust (d : Rust.Book.Drain) : Drain :=
  ⟨d.level.map UInt64.toInt64, d.orders, d.qty, d.fills.toInt64, d.volume.toInt64⟩

def Sweep.ofRust (s : Rust.Book.Sweep) : Sweep := ⟨Book.ofRust s.book, s.qty⟩

theorem sideBid_iff {side : UInt8} : side.toInt8 = sideBid ↔ side = Rust.sideBid :=
  TunedBook.toInt8_eq_sideBid.symm

/-! ## The loops -/

@[simp] theorem drainStep_ofRust (d : Rust.Book.Drain) :
    drainStep (Drain.ofRust d) = (Rust.Book.drainStep d).map Drain.ofRust := by
  rw [drainStep, Rust.Book.drainStep]
  by_cases hq : 0 < d.qty
  · rw [if_pos (show 0 < (Drain.ofRust d).qty from hq), if_pos hq, Drain.ofRust]
    cases d.level with
    | nil => rfl
    | cons head rest =>
      simp only [List.map_cons, UInt64.toUInt64_toInt64]
      cases h : d.orders.find? head with
      | none => rfl
      | some r =>
        have hvolume : ∀ m : ℤ, (d.volume + UInt64.ofInt m).toInt64 =
            d.volume.toInt64 + Int64.ofInt m := by
          intro m
          rw [UInt64.toInt64_add, ← Word.toUInt64_ofInt, Int64.toInt64_toUInt64]
        have hfills : (d.fills + 1).toInt64 = d.fills.toInt64 + 1 := rfl
        simp only [Option.map_some, Drain.ofRust, hvolume, hfills]
        split <;> rfl
  · rw [if_neg (show ¬0 < (Drain.ofRust d).qty from hq), if_neg hq]
    rfl

@[simp] theorem drain_ofRust (d : Rust.Book.Drain) :
    drain (Drain.ofRust d) = Drain.ofRust (Rust.Book.drain d) := by
  refine Loop.exec_map Drain.ofRust drainStep_ofRust (fun d => ?_) d
  rw [Drain.variant, Rust.Book.Drain.variant, Drain.ofRust, List.length_map]

@[simp] theorem putLevel_levelsOf (m : Cpp.Levels) (p : ℤ) (level : List UInt64) :
    putLevel (levelsOf m) p (level.map UInt64.toInt64) =
      levelsOf (Rust.Book.putLevel m p level) := by
  cases level with
  | nil =>
    show ((levelsOf m).insert p []).erase p = ((m.insert p []).erase p).mapVals _
    rw [OrdMap.mapVals_erase, OrdMap.mapVals_insert]
    rfl
  | cons id rest => exact (OrdMap.mapVals_insert _ m p (id :: rest)).symm

@[simp] theorem addLast_levelsOf (m : Cpp.Levels) (price : ℤ) (id : UInt64) :
    addLast (levelsOf m) price id.toInt64 = levelsOf (Rust.Book.pushLevel m price id) := by
  rw [addLast, Rust.Book.pushLevel, levelsOf, levelsOf, OrdMap.mapVals_insert, OrdMap.find?_mapVals]
  cases m.find? price with
  | none => rfl
  | some level => simp

@[simp] theorem bestCrossing_ofRust (b : Rust.Book) (side : UInt8) (price : ℤ) :
    (ofRust b).bestCrossing side.toInt8 price =
      (b.bestCrossing side price).map fun e => (e.1, e.2.map UInt64.toInt64) := by
  simp only [bestCrossing, Rust.Book.bestCrossing, ofRust, levelsOf, sideBid_iff]
  by_cases hs : side = Rust.sideBid
  · simp only [if_pos hs, OrdMap.first?_mapVals]
    cases b.asks.first? with
    | none => rfl
    | some e =>
      by_cases h : e.1 ≤ price
      · simp [h]
      · simp [h]
  · simp only [if_neg hs, OrdMap.last?_mapVals]
    cases b.bids.last? with
    | none => rfl
    | some e =>
      by_cases h : price ≤ e.1
      · simp [h]
      · simp [h]

@[simp] theorem sweepStep_ofRust (side : UInt8) (price : ℤ) (s : Rust.Book.Sweep) :
    sweepStep side.toInt8 price (Sweep.ofRust s) =
      (Rust.Book.sweepStep side price s).map Sweep.ofRust := by
  rw [sweepStep, Rust.Book.sweepStep]
  by_cases hq : 0 < s.qty
  · rw [if_pos (show 0 < (Sweep.ofRust s).qty from hq), if_pos hq, Sweep.ofRust,
      bestCrossing_ofRust]
    cases s.book.bestCrossing side price with
    | none => rfl
    | some it =>
      have hdrain := drain_ofRust ⟨it.2, s.book.orders, s.qty, s.book.fills, s.book.volume⟩
      simp only [Drain.ofRust] at hdrain
      simp only [ofRust, hdrain, sideBid_iff, putLevel_levelsOf, Option.map_some, Sweep.ofRust]
      split <;> rfl
  · rw [if_neg (show ¬0 < (Sweep.ofRust s).qty from hq), if_neg hq]
    rfl

@[simp] theorem sweep_ofRust (side : UInt8) (price : ℤ) (s : Rust.Book.Sweep) :
    sweep side.toInt8 price (Sweep.ofRust s) = Sweep.ofRust (Rust.Book.sweep side price s) := by
  refine Loop.exec_map Sweep.ofRust (sweepStep_ofRust side price) (fun s => ?_) s
  simp only [Sweep.variant, Rust.Book.Sweep.variant, Sweep.ofRust, ofRust, sideBid_iff, levelsOf]
  split
  · rw [OrdMap.size_mapVals]
    rfl
  · rw [OrdMap.size_mapVals]
    rfl

/-! ## The operations -/

@[simp] theorem limit_ofRust (b : Rust.Book) (side : UInt8) (price qty : ℤ) (id : UInt64) :
    (ofRust b).limit side.toInt8 price qty id.toInt64 = ofRust (b.limit side price qty id) := by
  have hsweep := sweep_ofRust side price { book := b, qty }
  simp only [Sweep.ofRust] at hsweep
  rw [limit, Rust.Book.limit]
  simp only [hsweep, sideBid_iff, UInt64.toUInt64_toInt64]
  split
  · simp only [ofRust, addLast_levelsOf]
    split <;> rfl
  · rfl

@[simp] theorem apply_ofRust (b : Rust.Book) (op : Cpp.Op) :
    (ofRust b).apply op = ofRust (b.apply op) := by
  cases op with
  | limit side price qty id => exact limit_ofRust b side price qty id
  | cancel id =>
    rw [apply, cancel, UInt64.toUInt64_toInt64]
    rfl

/-- **A run of the Java book** is a run of the Rust book. -/
theorem run_eq (ops : List Cpp.Op) : run ops = ofRust (Rust.Book.run ops) := by
  have hfold : ∀ b : Rust.Book,
      ops.foldl apply (ofRust b) = ofRust (ops.foldl Rust.Book.apply b) := by
    induction ops with
    | nil => exact fun _ => rfl
    | cons op ops ih =>
      intro b
      rw [List.foldl_cons, List.foldl_cons, apply_ofRust, ih]
  exact hfold {}

@[simp] theorem foldLevel_ofRust (orders : Orders) (acc : UInt64) (level : List UInt64) :
    foldLevel orders acc.toInt64 (level.map UInt64.toInt64) =
      (Rust.Book.foldLevel orders acc level).toInt64 := by
  induction level generalizing acc with
  | nil => rfl
  | cons id level ih =>
    simp only [foldLevel, Rust.Book.foldLevel, List.map_cons, List.foldl_cons,
      UInt64.toUInt64_toInt64] at ih ⊢
    cases orders.find? id with
    | none => exact ih acc
    | some r =>
      have hmix : TunedBook.mix acc.toInt64 id.toInt64 r.price r.qty =
          (Rust.Book.fold acc id r).toInt64 := by
        rw [← Int64.toInt64_toUInt64 (TunedBook.mix ..), TunedBook.toUInt64_mix]
        rfl
      rw [← ih, ← hmix]

@[simp] theorem checksum_ofRust (b : Rust.Book) : (ofRust b).checksum = b.checksum.toInt64 := by
  have hside : ∀ (m : Cpp.Levels) (acc : UInt64),
      (levelsOf m).entries.foldl (fun acc e => foldLevel b.orders acc e.2) acc.toInt64 =
        (m.entries.foldl (fun acc e => Rust.Book.foldLevel b.orders acc e.2) acc).toInt64 := by
    intro m acc
    rw [levelsOf, OrdMap.mapVals, List.foldl_map]
    generalize m.entries = es
    induction es generalizing acc with
    | nil => rfl
    | cons e es ih => rw [List.foldl_cons, List.foldl_cons, foldLevel_ofRust, ih]
  have hbids := hside b.bids 0
  rw [checksum, Rust.Book.checksum]
  exact hbids ▸ hside b.asks _

end Book
end LmaxBench.Java
