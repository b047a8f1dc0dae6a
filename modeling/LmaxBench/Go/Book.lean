import LmaxBench.Cpp.TunedBook
import LmaxBench.Go.Workload

/-!
# The idiomatic book in Go

`book` of `go/book.go`: the prices of a side in a B-tree and its levels in a map from price
to level, two containers that the operations keep in step by hand. A level is a slice of
ids with a head index, the same two fields and the same methods as the `FlatLevel` of the
C++ tuned book. Resting records are values: a partial fill writes the record back.

Looking up a level that is not in the map gives a nil pointer, and reading beyond the end
of a slice panics; an operation is `none` as soon as one of its reads does.

## Main definitions

* `Book`, `Book.limit`, `Book.cancel`, `Book.checksum`.
* `Book.run` — a sequence of operations from `newBook`.
-/

namespace LmaxBench.Go

open Cpp (Resting Orders)

/-- `level`. -/
abbrev Level := Cpp.FlatLevel

/-- `btree.BTreeG[int64]`, an ordered set of prices. -/
abbrev BTree := OrdMap ℤ Unit

/-- `map[int64]*level`; no two prices share a level. -/
abbrev LevelMap := OrdMap ℤ Level

structure Book where
  bidPrices : BTree := ∅
  askPrices : BTree := ∅
  bidLevels : LevelMap := ∅
  askLevels : LevelMap := ∅
  orders : Orders := ∅
  fills : UInt64 := 0
  volume : UInt64 := 0
  deriving DecidableEq

namespace Book

/-! ## The inner loop -/

/-- The state of the inner loop: the level it empties, and what it reads and writes. -/
structure Drain where
  lvl : Level
  orders : Orders
  qty : ℤ
  fills : UInt64
  volume : UInt64

/-- One round of the inner loop. -/
def drainStep (s : Drain) : Option (Option Drain) :=
  if 0 < s.qty then
    if s.lvl.empty then some none
    else do
      let head ← s.lvl.front
      match s.orders.find? head with
      -- lazily-cancelled order
      | none => some (some { s with lvl := s.lvl.pop })
      | some rec =>
        let m := min s.qty rec.qty
        let left := rec.qty - m
        some (some
          { lvl := if left = 0 then s.lvl.pop else s.lvl
            orders := if left = 0 then s.orders.erase head
              else s.orders.insert head { rec with qty := left }
            qty := s.qty - m
            fills := s.fills + 1
            volume := s.volume + UInt64.ofInt m })
  else some none

/-- Every round pops the queue, but for the one that exhausts the incoming order. -/
def Drain.variant (s : Drain) : ℕ := (s.lvl.ids.length - s.lvl.head) + if 0 < s.qty then 1 else 0

/-- The inner loop. -/
def drain : Drain → Option Drain := Loop.tryExec drainStep Drain.variant

/-! ## The outer loop -/

/-- The state of the outer loop. -/
structure Sweep where
  book : Book
  qty : ℤ

/-- The price of the best opposite level, if it crosses. -/
def bestCrossing (b : Book) (side : UInt8) (price : ℤ) : Option ℤ :=
  if side = sideBid then
    match b.askPrices.first? with
    | none => none
    | some (p, _) => if p > price then none else some p
  else
    match b.bidPrices.last? with
    | none => none
    | some (p, _) => if p < price then none else some p

/-- The prices of the side a taker on `side` matches against. -/
def oppositePrices (b : Book) (side : UInt8) : BTree :=
  if side = sideBid then b.askPrices else b.bidPrices

/-- The levels of the side a taker on `side` matches against. -/
def oppositeLevels (b : Book) (side : UInt8) : LevelMap :=
  if side = sideBid then b.askLevels else b.bidLevels

/-- The prices of a side after the inner loop left the level at `p` as `lvl`. -/
def putPrice (prices : BTree) (p : ℤ) (lvl : Level) : BTree :=
  if lvl.empty then prices.erase p else prices

/-- The levels of a side after the inner loop, which worked on the map's own level. -/
def putLevel (levels : LevelMap) (p : ℤ) (lvl : Level) : LevelMap :=
  let levels := levels.insert p lvl
  if lvl.empty then levels.erase p else levels

/-- The book after the inner loop `d` on the opposite level at `p`. -/
def writeBack (b : Book) (side : UInt8) (p : ℤ) (d : Drain) : Book :=
  { bidPrices := if side = sideBid then b.bidPrices else putPrice b.bidPrices p d.lvl
    askPrices := if side = sideBid then putPrice b.askPrices p d.lvl else b.askPrices
    bidLevels := if side = sideBid then b.bidLevels else putLevel b.bidLevels p d.lvl
    askLevels := if side = sideBid then putLevel b.askLevels p d.lvl else b.askLevels
    orders := d.orders
    fills := d.fills
    volume := d.volume }

/-- One round of the outer loop. -/
def sweepStep (side : UInt8) (price : ℤ) (s : Sweep) : Option (Option Sweep) :=
  if 0 < s.qty then
    match s.book.bestCrossing side price with
    | none => some none
    | some bestPrice => do
      let lvl ← (s.book.oppositeLevels side).find? bestPrice
      let d ← drain
        { lvl, orders := s.book.orders, qty := s.qty
          fills := s.book.fills, volume := s.book.volume }
      some (some { book := s.book.writeBack side bestPrice d, qty := d.qty })
  else some none

/-- Every round removes a price, but for the one that exhausts the incoming order. -/
def Sweep.variant (side : UInt8) (s : Sweep) : ℕ :=
  (s.book.oppositePrices side).size + if 0 < s.qty then 1 else 0

/-- The outer loop. -/
def sweep (side : UInt8) (price : ℤ) : Sweep → Option Sweep :=
  Loop.tryExec (sweepStep side price) (Sweep.variant side)

/-! ## The operations -/

/-- The prices of a side after a residual came to rest at `price`. -/
def addPrice (prices : BTree) (levels : LevelMap) (price : ℤ) : BTree :=
  match levels.find? price with
  | some _ => prices
  | none => prices.insert price ()

/-- The levels of a side after a residual came to rest at `price`. -/
def addLevel (levels : LevelMap) (price : ℤ) (id : UInt64) : LevelMap :=
  match levels.find? price with
  | some lvl => levels.insert price (lvl.push id)
  | none => levels.insert price (Cpp.FlatLevel.push {} id)

/-- `book.limit`. -/
def limit (b : Book) (side : UInt8) (price qty : ℤ) (id : UInt64) : Option Book := do
  let s ← sweep side price { book := b, qty }
  let b := s.book
  if 0 < s.qty then
    some { b with
      bidPrices := if side = sideBid then addPrice b.bidPrices b.bidLevels price else b.bidPrices
      askPrices := if side = sideBid then b.askPrices else addPrice b.askPrices b.askLevels price
      bidLevels := if side = sideBid then addLevel b.bidLevels price id else b.bidLevels
      askLevels := if side = sideBid then b.askLevels else addLevel b.askLevels price id
      orders := b.orders.insert id ⟨price, s.qty⟩ }
  else some b

/-- `book.cancel`. -/
def cancel (b : Book) (id : UInt64) : Book := { b with orders := b.orders.erase id }

/-- One record of the checksum fold. -/
def mix (acc id : UInt64) (r : Resting) : UInt64 :=
  (SplitMix64.mk (acc ^^^ id ^^^ (UInt64.ofInt r.price <<< 20) ^^^ UInt64.ofInt r.qty)).next.1

/-- The fold of the unread part of one level, a slice that panics if its start is beyond
the end. -/
def foldLevel (orders : Orders) (acc : UInt64) (lvl : Level) : Option UInt64 :=
  if lvl.head ≤ lvl.ids.length then
    some ((lvl.ids.drop lvl.head).foldl (fun acc id =>
      match orders.find? id with
      | none => acc
      | some r => mix acc id r) acc)
  else none

/-- The closure `fold` of `checksum`: the levels of one side, by ascending price. -/
def foldSide (orders : Orders) (prices : BTree) (levels : LevelMap) (acc : UInt64) :
    Option UInt64 :=
  prices.entries.foldlM (fun acc e => do
    let lvl ← levels.find? e.1
    foldLevel orders acc lvl) acc

/-- `book.checksum`. -/
def checksum (b : Book) : Option UInt64 := do
  let acc ← foldSide b.orders b.bidPrices b.bidLevels 0
  foldSide b.orders b.askPrices b.askLevels acc

/-- One operation. -/
def apply (b : Book) : Cpp.Op → Option Book
  | .limit side price qty id => b.limit side price qty id
  | .cancel id => some (b.cancel id)

/-- A sequence of operations, from `newBook`. -/
def run (ops : List Cpp.Op) : Option Book := ops.foldlM apply {}

end Book
end LmaxBench.Go
