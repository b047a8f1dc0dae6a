import LmaxBench.Cpp.Book
import LmaxBench.Rust.Workload

/-!
# The idiomatic book in Rust

`Book` of `rust/src/book.rs`. The record of a resting order is the one of the C++ book;
so are the types of the levels and of the live map, which here are `BTreeMap`s of
`VecDeque`s and a `HashMap`. The best level is reached through a mutable reference into
its map, which is written back after the inner loop.

## Main definitions

* `Book`, `Book.limit`, `Book.cancel`, `Book.checksum`.
* `Book.run` — a sequence of operations from the empty book.
-/

namespace LmaxBench.Rust

open Cpp (Resting Levels Orders)

structure Book where
  bids : Levels := ∅
  asks : Levels := ∅
  orders : Orders := ∅
  fills : UInt64 := 0
  volume : UInt64 := 0
  deriving DecidableEq

namespace Book

/-! ## The inner loop -/

/-- The state of the inner loop: the level it empties, and what it reads and writes. -/
structure Drain where
  level : List UInt64
  orders : Orders
  qty : ℤ
  fills : UInt64
  volume : UInt64

/-- One round of the inner loop. -/
def drainStep (s : Drain) : Option Drain :=
  if 0 < s.qty then
    match s.level with
    | [] => none
    | head :: rest =>
      match s.orders.find? head with
      -- lazily-cancelled order
      | none => some { s with level := rest }
      | some rec =>
        let m := min s.qty rec.qty
        let rec' : Resting := { rec with qty := rec.qty - m }
        -- the record is changed in place, and removed if it is used up
        let orders := s.orders.insert head rec'
        some
          { level := if rec'.qty = 0 then rest else head :: rest
            orders := if rec'.qty = 0 then orders.erase head else orders
            qty := s.qty - m
            fills := s.fills + 1
            volume := s.volume + UInt64.ofInt m }
  else none

/-- Every round pops the queue, but for the one that exhausts the incoming order. -/
def Drain.variant (s : Drain) : ℕ := s.level.length + if 0 < s.qty then 1 else 0

/-- The inner loop. -/
def drain : Drain → Drain := Loop.exec drainStep Drain.variant

/-! ## The outer loop -/

/-- The state of the outer loop. -/
structure Sweep where
  book : Book
  qty : ℤ

/-- The best opposite level, if it crosses. -/
def bestCrossing (b : Book) (side : UInt8) (price : ℤ) : Option (ℤ × List UInt64) :=
  if side = sideBid then
    match b.asks.first? with
    | some (p, l) => if p ≤ price then some (p, l) else none
    | none => none
  else
    match b.bids.last? with
    | some (p, l) => if p ≥ price then some (p, l) else none
    | none => none

/-- A level after the inner loop: changed in place, and removed if it is empty. -/
def putLevel (m : Levels) (p : ℤ) (level : List UInt64) : Levels :=
  let m := m.insert p level
  if level = [] then m.erase p else m

/-- One round of the outer loop. -/
def sweepStep (side : UInt8) (price : ℤ) (s : Sweep) : Option Sweep :=
  if 0 < s.qty then
    match s.book.bestCrossing side price with
    | none => none
    | some (bestPrice, level) =>
      let d := drain
        { level, orders := s.book.orders, qty := s.qty
          fills := s.book.fills, volume := s.book.volume }
      some
        { book :=
            { bids := if side = sideBid then s.book.bids else putLevel s.book.bids bestPrice d.level
              asks := if side = sideBid then putLevel s.book.asks bestPrice d.level else s.book.asks
              orders := d.orders
              fills := d.fills
              volume := d.volume }
          qty := d.qty }
  else none

/-- Every round removes a level, but for the one that exhausts the incoming order. -/
def Sweep.variant (side : UInt8) (s : Sweep) : ℕ :=
  (if side = sideBid then s.book.asks else s.book.bids).size + if 0 < s.qty then 1 else 0

/-- The outer loop. -/
def sweep (side : UInt8) (price : ℤ) : Sweep → Sweep :=
  Loop.exec (sweepStep side price) (Sweep.variant side)

/-! ## The operations -/

/-- `entry(price).or_default().push_back(id)`. -/
def pushLevel (m : Levels) (price : ℤ) (id : UInt64) : Levels :=
  m.insert price ((m.find? price).getD [] ++ [id])

/-- `Book::limit`. -/
def limit (b : Book) (side : UInt8) (price qty : ℤ) (id : UInt64) : Book :=
  let s := sweep side price { book := b, qty }
  if 0 < s.qty then
    { s.book with
      bids := if side = sideBid then pushLevel s.book.bids price id else s.book.bids
      asks := if side = sideBid then s.book.asks else pushLevel s.book.asks price id
      orders := s.book.orders.insert id ⟨price, s.qty⟩ }
  else s.book

/-- `Book::cancel`. -/
def cancel (b : Book) (id : UInt64) : Book := { b with orders := b.orders.erase id }

/-- The closure `fold` of `checksum`: one record of the fold. -/
def fold (acc id : UInt64) (r : Resting) : UInt64 :=
  (SplitMix64.mk (acc ^^^ id ^^^ (UInt64.ofInt r.price <<< 20) ^^^ UInt64.ofInt r.qty)).next.1

/-- The fold of one level; stale entries are skipped. -/
def foldLevel (orders : Orders) (acc : UInt64) (level : List UInt64) : UInt64 :=
  level.foldl (fun acc id =>
    match orders.find? id with
    | none => acc
    | some r => fold acc id r) acc

/-- `Book::checksum`: the levels of the bids, then those of the asks. -/
def checksum (b : Book) : UInt64 :=
  let acc := b.bids.entries.foldl (fun acc e => foldLevel b.orders acc e.2) 0
  b.asks.entries.foldl (fun acc e => foldLevel b.orders acc e.2) acc

/-- One operation. -/
def apply (b : Book) : Cpp.Op → Book
  | .limit side price qty id => b.limit side price qty id
  | .cancel id => b.cancel id

/-- A sequence of operations, from the empty book. -/
def run (ops : List Cpp.Op) : Book := ops.foldl apply {}

end Book
end LmaxBench.Rust
