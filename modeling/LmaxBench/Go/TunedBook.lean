import LmaxBench.Cpp.TunedBook
import LmaxBench.Go.Workload

/-!
# The tuned book in Go

`tunedBook` of `go/tuned.go`: the dense ladder of the C++ tuned book, with resting records
split over two slices indexed by order id, where quantity zero marks a dead slot. With no
asks, `bestAsk` is the length of the ladder; the guard of the sweep tests, on each side,
only the bound that the sentinel of that side violates.

A level has the two fields of the C++ `FlatLevel` and the same methods. Indexing a slice
out of range panics; an operation is `none` as soon as one of its accesses does.

## Main definitions

* `TunedBook`, `TunedBook.limit`, `TunedBook.cancel`, `TunedBook.checksum`.
* `TunedBook.run` — a sequence of operations from `newTunedBook`.
-/

namespace LmaxBench.Go

open Cpp (Resting)

def ladderBase : ℤ := 0
def ladderLen : ℤ := 4096

/-- `tunedLevel`. -/
abbrev TunedLevel := Cpp.FlatLevel

/-- `s[i]` for a signed index. -/
def index {α : Type} (s : List α) (i : ℤ) : Option α := if 0 ≤ i then s[i.toNat]? else none

structure TunedBook where
  bids : List TunedLevel
  asks : List TunedLevel
  bestBid : ℤ
  bestAsk : ℤ
  price : List ℤ
  oqty : List ℤ
  live : Int64 := 0
  fills : UInt64 := 0
  volume : UInt64 := 0
  deriving DecidableEq

namespace TunedBook

/-- `newTunedBook`. -/
def new (maxID : UInt64) : TunedBook :=
  { bids := List.replicate ladderLen.toNat {}
    asks := List.replicate ladderLen.toNat {}
    bestBid := -1
    bestAsk := ladderLen
    price := List.replicate (maxID + 2).toNat 0
    oqty := List.replicate (maxID + 2).toNat 0 }

/-! ## The inner loop -/

/-- The state of the inner loop. -/
structure Drain where
  lvl : TunedLevel
  oqty : List ℤ
  qty : ℤ
  live : Int64
  fills : UInt64
  volume : UInt64

/-- One round of the inner loop. -/
def drainStep (s : Drain) : Option (Option Drain) :=
  if 0 < s.qty then
    if s.lvl.empty then some none
    else do
      let head ← s.lvl.front
      let q ← s.oqty[head.toNat]?
      if q = 0 then
        -- lazily-cancelled order
        some (some { s with lvl := s.lvl.pop })
      else
        let m := min s.qty q
        let left := q - m
        some (some
          { lvl := if left = 0 then s.lvl.pop else s.lvl
            oqty := s.oqty.set head.toNat left
            qty := s.qty - m
            live := if left = 0 then s.live - 1 else s.live
            fills := s.fills + 1
            volume := s.volume + UInt64.ofInt m })
  else some none

/-- Every round advances the head, but for the one that exhausts the incoming order. -/
def Drain.variant (s : Drain) : ℕ := (s.lvl.ids.length - s.lvl.head) + if 0 < s.qty then 1 else 0

/-- The inner loop. -/
def drain : Drain → Option Drain := Loop.tryExec drainStep Drain.variant

/-! ## The scans for the next occupied level -/

/-- `for p < ladderLen && b.asks[p-ladderBase].empty() { p++ }` -/
def scanUpStep (asks : List TunedLevel) (p : ℤ) : Option (Option ℤ) :=
  if p < ladderLen then do
    let lvl ← index asks (p - ladderBase)
    some (if lvl.empty then some (p + 1) else none)
  else some none

def scanUp (asks : List TunedLevel) : ℤ → Option ℤ :=
  Loop.tryExec (scanUpStep asks) fun p => (ladderLen - p).toNat

/-- `for p >= 0 && b.bids[p-ladderBase].empty() { p-- }` -/
def scanDownStep (bids : List TunedLevel) (p : ℤ) : Option (Option ℤ) :=
  if 0 ≤ p then do
    let lvl ← index bids (p - ladderBase)
    some (if lvl.empty then some (p - 1) else none)
  else some none

def scanDown (bids : List TunedLevel) : ℤ → Option ℤ :=
  Loop.tryExec (scanDownStep bids) fun p => (p + 1).toNat

/-! ## The outer loop -/

/-- The state of the outer loop. -/
structure Sweep where
  book : TunedBook
  qty : ℤ

/-- The best opposite price, unless the sweep breaks off at it. -/
def bestCrossing (b : TunedBook) (side : UInt8) (price : ℤ) : Option ℤ :=
  if side = sideBid then
    let best := b.bestAsk
    if best ≥ ladderLen ∨ best > price then none else some best
  else
    let best := b.bestBid
    if best < 0 ∨ best < price then none else some best

/-- The ladder a taker on `side` matches against. -/
def opposite (b : TunedBook) (side : UInt8) : List TunedLevel :=
  if side = sideBid then b.asks else b.bids

/-- The book after the inner loop `d` on the opposite level at `best`. -/
def writeBack (b : TunedBook) (side : UInt8) (best : ℤ) (d : Drain) : TunedBook :=
  let i := (best - ladderBase).toNat
  { b with
    bids := if side = sideBid then b.bids else b.bids.set i d.lvl
    asks := if side = sideBid then b.asks.set i d.lvl else b.asks
    oqty := d.oqty
    live := d.live
    fills := d.fills
    volume := d.volume }

/-- The best pointer moves on from the emptied level at `best`. -/
def advance (b : TunedBook) (side : UInt8) (best : ℤ) : Option TunedBook :=
  if side = sideBid then do
    let p ← scanUp b.asks (best + 1)
    some { b with bestAsk := p }
  else do
    let p ← scanDown b.bids (best - 1)
    some { b with bestBid := p }

/-- What follows the inner loop: an empty level is reset, and the best pointer moves on. -/
def settle (b : TunedBook) (side : UInt8) (best : ℤ) (d : Drain) : Option TunedBook :=
  if d.lvl.empty then (b.writeBack side best { d with lvl := d.lvl.reset }).advance side best
  else some (b.writeBack side best d)

/-- One round of the outer loop. -/
def sweepStep (side : UInt8) (price : ℤ) (s : Sweep) : Option (Option Sweep) :=
  if 0 < s.qty then
    match s.book.bestCrossing side price with
    | none => some none
    | some best => do
      let lvl ← index (s.book.opposite side) (best - ladderBase)
      let d ← drain
        { lvl, oqty := s.book.oqty, qty := s.qty, live := s.book.live
          fills := s.book.fills, volume := s.book.volume }
      let b ← s.book.settle side best d
      some (some { book := b, qty := d.qty })
  else some none

/-- Every round moves the best pointer inwards, but for the one that exhausts the
incoming order. -/
def Sweep.variant (side : UInt8) (s : Sweep) : ℕ :=
  (if side = sideBid then (ladderLen - s.book.bestAsk).toNat else (s.book.bestBid + 1).toNat) +
    if 0 < s.qty then 1 else 0

/-- The outer loop. -/
def sweep (side : UInt8) (price : ℤ) : Sweep → Option Sweep :=
  Loop.tryExec (sweepStep side price) (Sweep.variant side)

/-! ## The operations -/

/-- The residual of an incoming order comes to rest. -/
def rest (b : TunedBook) (side : UInt8) (price qty : ℤ) (id : UInt64) : Option TunedBook := do
  let i := (price - ladderBase).toNat
  let b ←
    if side = sideBid then do
      let lvl ← index b.bids (price - ladderBase)
      some { b with bids := b.bids.set i (lvl.push id), bestBid := max b.bestBid price }
    else do
      let lvl ← index b.asks (price - ladderBase)
      some { b with asks := b.asks.set i (lvl.push id), bestAsk := min b.bestAsk price }
  let _ ← b.price[id.toNat]?
  let _ ← b.oqty[id.toNat]?
  some { b with
    price := b.price.set id.toNat price
    oqty := b.oqty.set id.toNat qty
    live := b.live + 1 }

/-- `tunedBook.limit`. -/
def limit (b : TunedBook) (side : UInt8) (price qty : ℤ) (id : UInt64) : Option TunedBook := do
  let s ← sweep side price { book := b, qty }
  if 0 < s.qty then s.book.rest side price s.qty id else some s.book

/-- `tunedBook.cancel`. -/
def cancel (b : TunedBook) (id : UInt64) : Option TunedBook := do
  let q ← b.oqty[id.toNat]?
  some (if q ≠ 0 then { b with oqty := b.oqty.set id.toNat 0, live := b.live - 1 } else b)

/-- One record of the checksum fold. -/
def mix (acc id : UInt64) (price qty : ℤ) : UInt64 :=
  (SplitMix64.mk (acc ^^^ id ^^^ (UInt64.ofInt price <<< 20) ^^^ UInt64.ofInt qty)).next.1

/-- The fold of the unread part of one level, a slice that panics if its start is beyond
the end. -/
def foldLevel (price oqty : List ℤ) (acc : UInt64) (lvl : TunedLevel) : Option UInt64 :=
  if lvl.head ≤ lvl.ids.length then
    (lvl.ids.drop lvl.head).foldlM (fun acc id => do
      let q ← oqty[id.toNat]?
      if q ≠ 0 then do
        let p ← price[id.toNat]?
        some (mix acc id p q)
      else some acc) acc
  else none

/-- The checksum of `tunedBook.stats`. -/
def checksum (b : TunedBook) : Option UInt64 := do
  let acc ← b.bids.foldlM (foldLevel b.price b.oqty) 0
  b.asks.foldlM (foldLevel b.price b.oqty) acc

/-- One operation. -/
def apply (b : TunedBook) : Cpp.Op → Option TunedBook
  | .limit side price qty id => b.limit side price qty id
  | .cancel id => b.cancel id

/-- A sequence of operations, from `newTunedBook`. -/
def run (maxID : UInt64) (ops : List Cpp.Op) : Option TunedBook := ops.foldlM apply (new maxID)

end TunedBook
end LmaxBench.Go
