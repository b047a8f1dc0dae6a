import Mathlib.Data.Int.Order.Basic
import LmaxBench.Lib.Loop
import LmaxBench.Lib.OrdMap
import LmaxBench.Lib.Word
import LmaxBench.Cpp.Workload

/-!
# The idiomatic book

`Book` of `book.hpp`: price levels in two ordered maps of id queues, and a map from
live ids to their resting records. Cancellation is lazy: it only drops the id from
the live map, and matching skips the stale queue entries.

The two nested `while` loops of `limit` are `drainStep` and `sweepStep`, one round
each, run by `Loop.exec`. Their states carry the local variables of the loops, and a
`log` of the fills made, which the source only counts and sums.

## Main definitions

* `Book`, `Book.limit`, `Book.cancel`, `Book.resting`, `Book.checksum`.
* `Book.limitLog` — the fills one `limit` makes, in order.
* `Book.run` — a sequence of operations from the empty book.
-/

namespace LmaxBench.Cpp

/-- `struct Resting`. -/
structure Resting where
  price : ℤ
  qty : ℤ
  deriving DecidableEq, Repr

/-- One fill event: the resting order hit, and the quantity matched. -/
structure Fill where
  maker : UInt64
  qty : ℤ
  deriving DecidableEq, Repr

/-- `std::map<int64_t, std::deque<uint64_t>>`: the levels of one side. -/
abbrev Levels := OrdMap ℤ (List UInt64)

/-- `std::unordered_map<uint64_t, Resting>`. -/
abbrev Orders := OrdMap UInt64 Resting

/-- One record of the checksum fold. -/
def mix (acc id : UInt64) (r : Resting) : UInt64 :=
  (SplitMix64.mk (acc ^^^ id ^^^ (UInt64.ofInt r.price <<< 20) ^^^ UInt64.ofInt r.qty)).next.1

namespace Levels

/-- Write a level back after matching: an emptied level is erased from the map. -/
def put (m : Levels) (p : ℤ) (lvl : List UInt64) : Levels :=
  if lvl = [] then m.erase p else m.insert p lvl

/-- `m[p].push_back(id)`, which creates the level if needed. -/
def pushBack (m : Levels) (p : ℤ) (id : UInt64) : Levels :=
  m.alter p fun o => some (o.getD [] ++ [id])

end Levels

structure Book where
  bids : Levels := ∅
  asks : Levels := ∅
  orders : Orders := ∅
  fills : UInt64 := 0
  volume : UInt64 := 0
  deriving DecidableEq

namespace Book

/-! ## The inner loop: one level -/

/-- The state of the inner loop: the level it empties, and what it reads and writes. -/
structure Drain where
  lvl : List UInt64
  orders : Orders
  qty : ℤ
  fills : UInt64
  volume : UInt64
  log : List Fill

/-- One round of the inner loop. -/
def drainStep (s : Drain) : Option Drain :=
  if 0 < s.qty then
    match s.lvl with
    | [] => none
    | head :: rest =>
      match s.orders.find? head with
      -- lazily-cancelled order
      | none => some { s with lvl := rest }
      | some r =>
        let m := min s.qty r.qty
        let left := r.qty - m
        some
          { lvl := if left = 0 then rest else head :: rest
            orders := if left = 0 then s.orders.erase head
              else s.orders.insert head { r with qty := left }
            qty := s.qty - m
            fills := s.fills + 1
            volume := s.volume + UInt64.ofInt m
            log := s.log ++ [⟨head, m⟩] }
  else none

/-- Every round pops the queue, but for the one that exhausts the incoming order. -/
def Drain.variant (s : Drain) : ℕ := s.lvl.length + if 0 < s.qty then 1 else 0

/-- The inner loop. -/
def drain : Drain → Drain := Loop.exec drainStep Drain.variant

/-! ## The outer loop: level after level -/

/-- The state of the outer loop: the book, the taker's remaining quantity, the fills. -/
structure Sweep where
  book : Book
  qty : ℤ
  log : List Fill := []

/-- The best opposite level, if it crosses. -/
def bestCrossing (b : Book) (side : UInt8) (price : ℤ) : Option (ℤ × List UInt64) :=
  if side = sideBid then
    match b.asks.first? with
    | none => none
    | some it => if it.1 > price then none else some it
  else
    match b.bids.last? with
    | none => none
    | some it => if it.1 < price then none else some it

/-- The book after the inner loop `d` on the opposite level at `p`. -/
def writeBack (b : Book) (side : UInt8) (p : ℤ) (d : Drain) : Book :=
  { bids := if side = sideBid then b.bids else Levels.put b.bids p d.lvl
    asks := if side = sideBid then Levels.put b.asks p d.lvl else b.asks
    orders := d.orders
    fills := d.fills
    volume := d.volume }

/-- One round of the outer loop. -/
def sweepStep (side : UInt8) (price : ℤ) (s : Sweep) : Option Sweep :=
  if 0 < s.qty then
    match s.book.bestCrossing side price with
    | none => none
    | some (p, lvl) =>
      let d := drain
        { lvl, orders := s.book.orders, qty := s.qty
          fills := s.book.fills, volume := s.book.volume, log := s.log }
      some { book := s.book.writeBack side p d, qty := d.qty, log := d.log }
  else none

/-- The levels a taker on `side` matches against. -/
def opposite (b : Book) (side : UInt8) : Levels := if side = sideBid then b.asks else b.bids

/-- Every round removes a level, but for the one that exhausts the incoming order. -/
def Sweep.variant (side : UInt8) (s : Sweep) : ℕ :=
  (s.book.opposite side).size + if 0 < s.qty then 1 else 0

/-- The outer loop. -/
def sweep (side : UInt8) (price : ℤ) : Sweep → Sweep :=
  Loop.exec (sweepStep side price) (Sweep.variant side)

/-! ## The operations -/

/-- The residual of an incoming order comes to rest. -/
def rest (b : Book) (side : UInt8) (price qty : ℤ) (id : UInt64) : Book :=
  { b with
    bids := if side = sideBid then Levels.pushBack b.bids price id else b.bids
    asks := if side = sideBid then b.asks else Levels.pushBack b.asks price id
    orders := b.orders.emplace id ⟨price, qty⟩ }

/-- `Book::limit`. -/
def limit (b : Book) (side : UInt8) (price qty : ℤ) (id : UInt64) : Book :=
  let s := sweep side price { book := b, qty }
  if 0 < s.qty then s.book.rest side price s.qty id else s.book

/-- The fills `limit` makes, in order. -/
def limitLog (b : Book) (side : UInt8) (price qty : ℤ) : List Fill :=
  (sweep side price { book := b, qty }).log

/-- `Book::cancel`. -/
def cancel (b : Book) (id : UInt64) : Book := { b with orders := b.orders.erase id }

/-- `Book::resting`. -/
def resting (b : Book) : ℕ := b.orders.size

/-- The fold of one level into the checksum; stale entries are skipped. -/
def foldLevel (orders : Orders) (acc : UInt64) (lvl : List UInt64) : UInt64 :=
  lvl.foldl (fun acc id =>
    match orders.find? id with
    | none => acc
    | some r => mix acc id r) acc

/-- The fold of one side, in ascending price order. -/
def foldSide (orders : Orders) (acc : UInt64) (side : Levels) : UInt64 :=
  side.entries.foldl (fun acc e => foldLevel orders acc e.2) acc

/-- `Book::checksum`. -/
def checksum (b : Book) : UInt64 := foldSide b.orders (foldSide b.orders 0 b.bids) b.asks

/-- One operation. -/
def apply (b : Book) : Op → Book
  | .limit side price qty id => b.limit side price qty id
  | .cancel id => b.cancel id

/-- A sequence of operations, from the empty book. -/
def run (ops : List Op) : Book := ops.foldl apply {}

end Book
end LmaxBench.Cpp
