import LmaxBench.Cpp.TunedBook
import LmaxBench.Rust.Workload

/-!
# The tuned book in Rust

`TunedBook` of `rust/src/tuned.rs`: the ladder and the best pointers of the C++ tuned
book, with its constants and its `FlatLevel`, but with the resting records in a hash map.

Indexing a `Vec` out of range panics; as in the C++ model an operation is `none` then. The
queue of a level is read by `get`, which does not panic.

## Main definitions

* `TunedBook`, `TunedBook.limit`, `TunedBook.cancel`, `TunedBook.checksum`.
* `TunedBook.run` — a sequence of operations from the constructor's state.
-/

namespace LmaxBench.Rust

open Cpp (Resting Orders FlatLevel ladderBase ladderLen int64Max sizeT)

structure TunedBook where
  bids : List FlatLevel := List.replicate ladderLen {}
  asks : List FlatLevel := List.replicate ladderLen {}
  bestBid : ℤ := -1
  bestAsk : ℤ := int64Max
  orders : Orders := ∅
  fills : UInt64 := 0
  volume : UInt64 := 0
  deriving DecidableEq

namespace TunedBook

/-! ## The inner loop -/

/-- The state of the inner loop: the level it reads, and what it reads and writes. -/
structure Drain where
  level : FlatLevel
  orders : Orders
  qty : ℤ
  fills : UInt64
  volume : UInt64

/-- One round of the inner loop. -/
def drainStep (s : Drain) : Option Drain :=
  if 0 < s.qty then
    match s.level.front with
    | none => none
    | some head =>
      match s.orders.find? head with
      -- lazily-cancelled order
      | none => some { s with level := s.level.pop }
      | some rec =>
        let m := min s.qty rec.qty
        let rec' : Resting := { rec with qty := rec.qty - m }
        -- the record is changed in place, and removed if it is used up
        let orders := s.orders.insert head rec'
        some
          { level := if rec'.qty = 0 then s.level.pop else s.level
            orders := if rec'.qty = 0 then orders.erase head else orders
            qty := s.qty - m
            fills := s.fills + 1
            volume := s.volume + UInt64.ofInt m }
  else none

/-- Every round advances the head, but for the one that exhausts the incoming order. -/
def Drain.variant (s : Drain) : ℕ :=
  (s.level.ids.length - s.level.head) + if 0 < s.qty then 1 else 0

/-- The inner loop. -/
def drain : Drain → Drain := Loop.exec drainStep Drain.variant

/-! ## The next occupied level -/

/-- The range `lo..hi`. -/
def range (lo hi : ℤ) : List ℤ := (List.range (hi - lo).toNat).map fun i : ℕ => lo + i

/-- The closure given to `find`: the level at `p` is not empty. -/
def occupied (ladder : List FlatLevel) (p : ℤ) : Option Bool := do
  let level ← ladder[sizeT (p - ladderBase)]?
  some (!level.empty)

/-- `(best + 1..LADDER_BASE + LADDER_LEN).find(..).unwrap_or(i64::MAX)`. -/
def nextAsk (asks : List FlatLevel) (best : ℤ) : Option ℤ := do
  let found ← (range (best + 1) (ladderBase + ladderLen)).findM? (occupied asks)
  some (found.getD int64Max)

/-- `(LADDER_BASE..best).rev().find(..).unwrap_or(-1)`. -/
def nextBid (bids : List FlatLevel) (best : ℤ) : Option ℤ := do
  let found ← (range ladderBase best).reverse.findM? (occupied bids)
  some (found.getD (-1))

/-! ## The outer loop -/

/-- The state of the outer loop. -/
structure Sweep where
  book : TunedBook
  qty : ℤ

/-- The best price on the side a taker on `side` matches against. -/
def best (t : TunedBook) (side : UInt8) : ℤ := if side = sideBid then t.bestAsk else t.bestBid

/-- The ladder a taker on `side` matches against. -/
def opposite (t : TunedBook) (side : UInt8) : List FlatLevel :=
  if side = sideBid then t.asks else t.bids

/-- The book after the inner loop `d` on the opposite level at index `i`. -/
def writeBack (t : TunedBook) (side : UInt8) (i : ℕ) (d : Drain) : TunedBook :=
  { t with
    bids := if side = sideBid then t.bids else t.bids.set i d.level
    asks := if side = sideBid then t.asks.set i d.level else t.asks
    orders := d.orders
    fills := d.fills
    volume := d.volume }

/-- What follows the inner loop: an empty level is reset, and the best pointer advances to
the next occupied level. -/
def settle (t : TunedBook) (side : UInt8) (best : ℤ) (d : Drain) : Option TunedBook :=
  let i := sizeT (best - ladderBase)
  if d.level.empty then
    let t := t.writeBack side i { d with level := d.level.reset }
    if side = sideBid then do
      let bestAsk ← nextAsk t.asks best
      some { t with bestAsk }
    else do
      let bestBid ← nextBid t.bids best
      some { t with bestBid }
  else some (t.writeBack side i d)

/-- One round of the outer loop. -/
def sweepStep (side : UInt8) (price : ℤ) (s : Sweep) : Option (Option Sweep) :=
  if 0 < s.qty then
    let best := s.book.best side
    let crosses := if side = sideBid then best ≤ price else best ≥ price
    if best < ladderBase ∨ best ≥ ladderBase + ladderLen ∨ ¬crosses then some none
    else do
      let level ← (s.book.opposite side)[sizeT (best - ladderBase)]?
      let d := drain
        { level, orders := s.book.orders, qty := s.qty
          fills := s.book.fills, volume := s.book.volume }
      let t ← s.book.settle side best d
      some (some { book := t, qty := d.qty })
  else some none

/-- Every round moves the best pointer inwards, but for the one that exhausts the
incoming order. -/
def Sweep.variant (side : UInt8) (s : Sweep) : ℕ :=
  (if side = sideBid then (ladderBase + ladderLen - s.book.bestAsk).toNat
    else (s.book.bestBid - ladderBase + 1).toNat) + if 0 < s.qty then 1 else 0

/-- The outer loop. -/
def sweep (side : UInt8) (price : ℤ) : Sweep → Option Sweep :=
  Loop.tryExec (sweepStep side price) (Sweep.variant side)

/-! ## The operations -/

/-- `TunedBook::limit`. -/
def limit (t : TunedBook) (side : UInt8) (price qty : ℤ) (id : UInt64) : Option TunedBook := do
  let s ← sweep side price { book := t, qty }
  if 0 < s.qty then
    let idx := sizeT (price - ladderBase)
    let t ←
      if side = sideBid then do
        let level ← s.book.bids[idx]?
        some { s.book with
          bids := s.book.bids.set idx (level.push id), bestBid := max s.book.bestBid price }
      else do
        let level ← s.book.asks[idx]?
        some { s.book with
          asks := s.book.asks.set idx (level.push id), bestAsk := min s.book.bestAsk price }
    some { t with orders := t.orders.insert id ⟨price, s.qty⟩ }
  else some s.book

/-- `TunedBook::cancel`. -/
def cancel (t : TunedBook) (id : UInt64) : TunedBook := { t with orders := t.orders.erase id }

/-- The closure `fold` of `checksum`: one record of the fold. -/
def fold (acc id : UInt64) (r : Resting) : UInt64 :=
  (SplitMix64.mk (acc ^^^ id ^^^ (UInt64.ofInt r.price <<< 20) ^^^ UInt64.ofInt r.qty)).next.1

/-- The fold of the unread part of one level, a slice that panics if its start is beyond
the end. -/
def foldLevel (orders : Orders) (acc : UInt64) (level : FlatLevel) : Option UInt64 :=
  if level.head ≤ level.ids.length then
    some ((level.ids.drop level.head).foldl (fun acc id =>
      match orders.find? id with
      | none => acc
      | some r => fold acc id r) acc)
  else none

/-- `TunedBook::checksum`. -/
def checksum (t : TunedBook) : Option UInt64 := do
  let acc ← t.bids.foldlM (foldLevel t.orders) 0
  t.asks.foldlM (foldLevel t.orders) acc

/-- One operation. -/
def apply (t : TunedBook) : Cpp.Op → Option TunedBook
  | .limit side price qty id => t.limit side price qty id
  | .cancel id => some (t.cancel id)

/-- A sequence of operations, from the state of the constructor. -/
def run (ops : List Cpp.Op) : Option TunedBook := ops.foldlM apply {}

end TunedBook
end LmaxBench.Rust
