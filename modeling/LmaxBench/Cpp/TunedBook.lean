import LmaxBench.Cpp.Book

/-!
# The tuned book

`TunedBook` of `tuned.hpp`: a dense ladder of FIFO levels with best-bid and best-ask
pointers, and resting records in an array indexed by order id, where quantity zero
marks a dead slot.

The source does no bounds checks. Here every access to a vector is an `Option`, and a
whole operation is `none` as soon as one of its accesses is out of range, so that
`some` is the statement that all of them were in range.

## Main definitions

* `FlatLevel` — a level: the ids ever pushed, and the index of the first unread one.
* `TunedBook`, `TunedBook.limit`, `TunedBook.cancel`, `TunedBook.checksum`.
* `TunedBook.run` — a sequence of operations from the constructor's state.
-/

namespace LmaxBench.Cpp

def ladderBase : ℤ := 0
def ladderLen : ℕ := 4096
def int64Max : ℤ := 2 ^ 63 - 1

/-- `size_t(x)`, which wraps. -/
def sizeT (x : ℤ) : ℕ := (UInt64.ofInt x).toNat

structure FlatLevel where
  ids : List UInt64 := []
  head : ℕ := 0
  deriving DecidableEq, Repr

namespace FlatLevel

def empty (l : FlatLevel) : Bool := l.head == l.ids.length

def reset (_ : FlatLevel) : FlatLevel := { ids := [], head := 0 }

/-- `lvl.ids[lvl.head]`. -/
def front (l : FlatLevel) : Option UInt64 := l.ids[l.head]?

/-- `lvl.head++`. -/
def pop (l : FlatLevel) : FlatLevel := { l with head := l.head + 1 }

/-- `lvl.ids.push_back(id)`. -/
def push (l : FlatLevel) (id : UInt64) : FlatLevel := { l with ids := l.ids ++ [id] }

end FlatLevel

structure TunedBook where
  bids : List FlatLevel := List.replicate ladderLen {}
  asks : List FlatLevel := List.replicate ladderLen {}
  bestBid : ℤ := -1
  bestAsk : ℤ := int64Max
  orders : List Resting
  live : UInt64 := 0
  fills : UInt64 := 0
  volume : UInt64 := 0
  deriving DecidableEq

namespace TunedBook

/-- The constructor; `maxId + 2` is a sum of words. -/
def new (maxId : UInt64) : TunedBook :=
  { orders := List.replicate (maxId + 2).toNat ⟨0, 0⟩ }

/-! ## The inner loop: one level -/

/-- The state of the inner loop. -/
structure Drain where
  lvl : FlatLevel
  orders : List Resting
  qty : ℤ
  live : UInt64
  fills : UInt64
  volume : UInt64
  log : List Fill

/-- One round of the inner loop. -/
def drainStep (s : Drain) : Option (Option Drain) :=
  if 0 < s.qty then
    if s.lvl.empty then some none
    else do
      let head ← s.lvl.front
      let r ← s.orders[head.toNat]?
      if r.qty = 0 then
        -- lazily-cancelled order
        some (some { s with lvl := s.lvl.pop })
      else
        let m := min s.qty r.qty
        let left := r.qty - m
        some (some
          { lvl := if left = 0 then s.lvl.pop else s.lvl
            orders := s.orders.set head.toNat { r with qty := left }
            qty := s.qty - m
            live := if left = 0 then s.live - 1 else s.live
            fills := s.fills + 1
            volume := s.volume + UInt64.ofInt m
            log := s.log ++ [⟨head, m⟩] })
  else some none

/-- Every round advances the head, but for the one that exhausts the incoming order. -/
def Drain.variant (s : Drain) : ℕ := (s.lvl.ids.length - s.lvl.head) + if 0 < s.qty then 1 else 0

/-- The inner loop. -/
def drain : Drain → Option Drain := Loop.tryExec drainStep Drain.variant

/-! ## The scans for the next occupied level -/

/-- `while (p < LADDER_BASE + LADDER_LEN && asks[p - LADDER_BASE].empty()) p++;` -/
def scanUpStep (asks : List FlatLevel) (p : ℤ) : Option (Option ℤ) :=
  if p < ladderBase + ladderLen then do
    let lvl ← asks[sizeT (p - ladderBase)]?
    some (if lvl.empty then some (p + 1) else none)
  else some none

def scanUp (asks : List FlatLevel) : ℤ → Option ℤ :=
  Loop.tryExec (scanUpStep asks) fun p => (ladderBase + ladderLen - p).toNat

/-- `while (p >= LADDER_BASE && bids[p - LADDER_BASE].empty()) p--;` -/
def scanDownStep (bids : List FlatLevel) (p : ℤ) : Option (Option ℤ) :=
  if ladderBase ≤ p then do
    let lvl ← bids[sizeT (p - ladderBase)]?
    some (if lvl.empty then some (p - 1) else none)
  else some none

def scanDown (bids : List FlatLevel) : ℤ → Option ℤ :=
  Loop.tryExec (scanDownStep bids) fun p => (p - ladderBase + 1).toNat

/-! ## The outer loop: level after level -/

/-- The state of the outer loop. -/
structure Sweep where
  book : TunedBook
  qty : ℤ
  log : List Fill := []

/-- The best price on the side a taker on `side` matches against. -/
def best (t : TunedBook) (side : UInt8) : ℤ := if side = sideBid then t.bestAsk else t.bestBid

/-- The ladder a taker on `side` matches against. -/
def opposite (t : TunedBook) (side : UInt8) : List FlatLevel :=
  if side = sideBid then t.asks else t.bids

/-- The book after the inner loop `d` on the opposite level at index `i`. -/
def writeBack (t : TunedBook) (side : UInt8) (i : ℕ) (d : Drain) : TunedBook :=
  { t with
    bids := if side = sideBid then t.bids else t.bids.set i d.lvl
    asks := if side = sideBid then t.asks.set i d.lvl else t.asks
    orders := d.orders
    live := d.live
    fills := d.fills
    volume := d.volume }

/-- The emptied level at index `i` is reset and the best pointer moves to the next
occupied level. -/
def advance (t : TunedBook) (side : UInt8) (i : ℕ) (best : ℤ) : Option TunedBook :=
  if side = sideBid then do
    let lvl ← t.asks[i]?
    let asks := t.asks.set i lvl.reset
    let p ← scanUp asks (best + 1)
    some { t with asks, bestAsk := if p < ladderBase + ladderLen then p else int64Max }
  else do
    let lvl ← t.bids[i]?
    let bids := t.bids.set i lvl.reset
    let p ← scanDown bids (best - 1)
    some { t with bids, bestBid := p }

/-- What follows the inner loop: if the level is empty, it is reset and the best
pointer moves on. -/
def settle (t : TunedBook) (side : UInt8) (best : ℤ) (d : Drain) : Option TunedBook :=
  let i := sizeT (best - ladderBase)
  let t := t.writeBack side i d
  if d.lvl.empty then t.advance side i best else some t

/-- One round of the outer loop. -/
def sweepStep (side : UInt8) (price : ℤ) (s : Sweep) : Option (Option Sweep) :=
  if 0 < s.qty then
    let best := s.book.best side
    let crosses := if side = sideBid then best ≤ price else best ≥ price
    if best < ladderBase ∨ best ≥ ladderBase + ladderLen ∨ ¬crosses then some none
    else do
      let lvl ← (s.book.opposite side)[sizeT (best - ladderBase)]?
      let d ← drain
        { lvl, orders := s.book.orders, qty := s.qty, live := s.book.live
          fills := s.book.fills, volume := s.book.volume, log := s.log }
      let t ← s.book.settle side best d
      some (some { book := t, qty := d.qty, log := d.log })
  else some none

/-- Every round moves the best pointer inwards, but for the one that exhausts the
incoming order. -/
def Sweep.variant (side : UInt8) (s : Sweep) : ℕ :=
  (if side = sideBid then (ladderBase + ladderLen - s.book.bestAsk).toNat
    else (s.book.bestBid - ladderBase + 1).toNat) + if 0 < s.qty then 1 else 0

/-- The outer loop. -/
def sweep (side : UInt8) (price : ℤ) : Sweep → Option Sweep :=
  Loop.tryExec (sweepStep side price) (Sweep.variant side)

/-! ## The operations -/

/-- The residual of an incoming order comes to rest. -/
def rest (t : TunedBook) (side : UInt8) (price qty : ℤ) (id : UInt64) : Option TunedBook := do
  let idx := sizeT (price - ladderBase)
  let t ←
    if side = sideBid then do
      let lvl ← t.bids[idx]?
      some { t with bids := t.bids.set idx (lvl.push id), bestBid := max t.bestBid price }
    else do
      let lvl ← t.asks[idx]?
      some { t with asks := t.asks.set idx (lvl.push id), bestAsk := min t.bestAsk price }
  let _ ← t.orders[id.toNat]?
  some { t with orders := t.orders.set id.toNat ⟨price, qty⟩, live := t.live + 1 }

/-- `TunedBook::limit`. -/
def limit (t : TunedBook) (side : UInt8) (price qty : ℤ) (id : UInt64) : Option TunedBook := do
  let s ← sweep side price { book := t, qty }
  if 0 < s.qty then s.book.rest side price s.qty id else some s.book

/-- The fills `limit` makes, in order. -/
def limitLog (t : TunedBook) (side : UInt8) (price qty : ℤ) : Option (List Fill) :=
  (sweep side price { book := t, qty }).map Sweep.log

/-- `TunedBook::cancel`. -/
def cancel (t : TunedBook) (id : UInt64) : Option TunedBook := do
  let r ← t.orders[id.toNat]?
  some (if r.qty ≠ 0 then
    { t with orders := t.orders.set id.toNat { r with qty := 0 }, live := t.live - 1 } else t)

/-- `TunedBook::resting`. -/
def resting (t : TunedBook) : ℕ := t.live.toNat

/-- The fold of the unread part of one level into the checksum. -/
def foldLevel (orders : List Resting) (acc : UInt64) (lvl : FlatLevel) : Option UInt64 :=
  (lvl.ids.drop lvl.head).foldlM (fun acc id => do
    let r ← orders[id.toNat]?
    some (if r.qty ≠ 0 then mix acc id r else acc)) acc

/-- The fold of one ladder. -/
def foldSide (orders : List Resting) (acc : UInt64) (side : List FlatLevel) : Option UInt64 :=
  side.foldlM (foldLevel orders) acc

/-- `TunedBook::checksum`. -/
def checksum (t : TunedBook) : Option UInt64 := do
  let acc ← foldSide t.orders 0 t.bids
  foldSide t.orders acc t.asks

/-- One operation. -/
def apply (t : TunedBook) : Op → Option TunedBook
  | .limit side price qty id => t.limit side price qty id
  | .cancel id => t.cancel id

/-- A sequence of operations, from the state of the constructor. -/
def run (maxId : UInt64) (ops : List Op) : Option TunedBook := ops.foldlM apply (new maxId)

end TunedBook
end LmaxBench.Cpp
