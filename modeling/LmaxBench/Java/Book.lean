import LmaxBench.Cpp.Book
import LmaxBench.Java.CoreHandler

/-!
# The idiomatic book in Java

`Book` of the Java suite: two `TreeMap`s of `ArrayDeque`s and a `HashMap` of records. A record
and a level are objects, which the matching changes in place; the maps here are written back
instead. A `HashMap` has no order, and is kept by the bits of its keys.

## Main definitions

* `Book`, `Book.limit`, `Book.cancel`, `Book.checksum`.
* `Book.engine` — the book behind the interface `Engine`.
* `Book.run` — a sequence of operations from the empty book.
-/

namespace LmaxBench.Java

open Cpp (Resting Orders)

/-- `TreeMap<Long, ArrayDeque<Long>>`. -/
abbrev Levels := OrdMap ℤ (List Int64)

structure Book where
  bids : Levels := ∅
  asks : Levels := ∅
  orders : Orders := ∅
  fills : Int64 := 0
  volume : Int64 := 0
  deriving DecidableEq

namespace Book

/-! ## The inner loop -/

/-- The state of the inner loop: the level it empties, and what it reads and writes. -/
structure Drain where
  level : List Int64
  orders : Orders
  qty : ℤ
  fills : Int64
  volume : Int64

/-- One round of the inner loop. -/
def drainStep (s : Drain) : Option Drain :=
  if 0 < s.qty then
    match s.level with
    | [] => none
    | head :: rest =>
      match s.orders.find? head.toUInt64 with
      -- lazily-cancelled order
      | none => some { s with level := rest }
      | some rec =>
        let m := min s.qty rec.qty
        let rec' : Resting := { rec with qty := rec.qty - m }
        let orders := s.orders.insert head.toUInt64 rec'
        some
          { level := if rec'.qty = 0 then rest else head :: rest
            orders := if rec'.qty = 0 then orders.erase head.toUInt64 else orders
            qty := s.qty - m
            fills := s.fills + 1
            volume := s.volume + Int64.ofInt m }
  else none

/-- Every round polls the queue, but for the one that exhausts the incoming order. -/
def Drain.variant (s : Drain) : ℕ := s.level.length + if 0 < s.qty then 1 else 0

/-- The inner loop. -/
def drain : Drain → Drain := Loop.exec drainStep Drain.variant

/-! ## The outer loop -/

/-- The state of the outer loop. -/
structure Sweep where
  book : Book
  qty : ℤ

/-- `asks.firstEntry()` or `bids.lastEntry()`, if it crosses. -/
def bestCrossing (b : Book) (side : Int8) (price : ℤ) : Option (ℤ × List Int64) :=
  match if side = sideBid then b.asks.first? else b.bids.last? with
  | none => none
  | some best =>
    let crosses := if side = sideBid then best.1 ≤ price else best.1 ≥ price
    if ¬crosses then none else some best

/-- A level after the inner loop: changed in place, and removed if it is empty. -/
def putLevel (m : Levels) (p : ℤ) (level : List Int64) : Levels :=
  let m := m.insert p level
  if level.isEmpty then m.erase p else m

/-- One round of the outer loop. -/
def sweepStep (side : Int8) (price : ℤ) (s : Sweep) : Option Sweep :=
  if 0 < s.qty then
    match s.book.bestCrossing side price with
    | none => none
    | some (bestPrice, level) =>
      let d := drain
        { level, orders := s.book.orders, qty := s.qty
          fills := s.book.fills, volume := s.book.volume }
      some
        { book :=
            { bids := if side = sideBid then s.book.bids else putLevel s.book.bids bestPrice d.level
              asks := if side = sideBid then putLevel s.book.asks bestPrice d.level else s.book.asks
              orders := d.orders
              fills := d.fills
              volume := d.volume }
          qty := d.qty }
  else none

/-- Every round removes a level, but for the one that exhausts the incoming order. -/
def Sweep.variant (side : Int8) (s : Sweep) : ℕ :=
  (if side = sideBid then s.book.asks else s.book.bids).size + if 0 < s.qty then 1 else 0

/-- The outer loop. -/
def sweep (side : Int8) (price : ℤ) : Sweep → Sweep :=
  Loop.exec (sweepStep side price) (Sweep.variant side)

/-! ## The operations -/

/-- `computeIfAbsent(price, ..).addLast(id)`. -/
def addLast (m : Levels) (price : ℤ) (id : Int64) : Levels :=
  m.insert price ((m.find? price).getD [] ++ [id])

/-- `Book.limit`. -/
def limit (b : Book) (side : Int8) (price qty : ℤ) (id : Int64) : Book :=
  let s := sweep side price { book := b, qty }
  if 0 < s.qty then
    { s.book with
      bids := if side = sideBid then addLast s.book.bids price id else s.book.bids
      asks := if side = sideBid then s.book.asks else addLast s.book.asks price id
      orders := s.book.orders.insert id.toUInt64 ⟨price, s.qty⟩ }
  else s.book

/-- `Book.cancel`. -/
def cancel (b : Book) (id : Int64) : Book := { b with orders := b.orders.erase id.toUInt64 }

/-- `Book.resting`. `HashMap.size` stops at the largest `int`. -/
def resting (b : Book) : Int32 := Int32.ofNat (min b.orders.size (2 ^ 31 - 1))

/-- `foldLevel`; stale entries are skipped. -/
def foldLevel (orders : Orders) (acc : Int64) (level : List Int64) : Int64 :=
  level.foldl (fun acc id =>
    match orders.find? id.toUInt64 with
    | none => acc
    | some r => TunedBook.mix acc id r.price r.qty) acc

/-- `Book.checksum`. -/
def checksum (b : Book) : Int64 :=
  let acc := b.bids.entries.foldl (fun acc e => foldLevel b.orders acc e.2) 0
  b.asks.entries.foldl (fun acc e => foldLevel b.orders acc e.2) acc

def engine : Engine Book where
  limit b side price qty id := some (b.limit side price qty id)
  cancel b id := some (b.cancel id)
  fills := Book.fills
  volume := Book.volume
  resting := Book.resting
  checksum b := some b.checksum

/-- One operation; `byte` and `long` are signed readings of the same bits. -/
def apply (b : Book) : Cpp.Op → Book
  | .limit side price qty id => b.limit side.toInt8 price qty id.toInt64
  | .cancel id => b.cancel id.toInt64

/-- A sequence of operations, from the empty book. -/
def run (ops : List Cpp.Op) : Book := ops.foldl apply {}

end Book
end LmaxBench.Java
