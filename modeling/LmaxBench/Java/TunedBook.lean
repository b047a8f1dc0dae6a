import LmaxBench.Cpp.TunedBook
import LmaxBench.Java.Workload

/-!
# The tuned book in Java

`FlatLevel` and `TunedBook` of the Java suite. A level is an array that `push` doubles when
it is full, with the indices of its first unread id and of the end of its ids; `reset` moves
both indices to the start and leaves the array as it is. With no asks, `bestAsk` is the
length of the ladder. Indices are of type `int`, the ids and prices they come from are cast
down from `long`; an operation is `none` as soon as one of its accesses throws.

## Main definitions

* `FlatLevel`, `FlatLevel.push`, `FlatLevel.reset`.
* `TunedBook`, `TunedBook.limit`, `TunedBook.cancel`, `TunedBook.checksum`.
* `TunedBook.run` — a sequence of operations from the constructor's state.
-/

namespace LmaxBench.Java

/-- `xs[i]`, which throws outside the array. -/
def index {α : Type} (xs : List α) (i : Int32) : Option α :=
  if 0 ≤ i then xs[i.toNatClampNeg]? else none

/-- `new long[n]`, which throws for a negative length. -/
def newLongs {α : Type} (zero : α) (n : Int32) : Option (List α) :=
  if 0 ≤ n then some (List.replicate n.toNatClampNeg zero) else none

/-- `Arrays.copyOf`: cut off or padded with zeros. -/
def copyOf (xs : List Int64) (n : Int32) : Option (List Int64) := do
  let new ← newLongs 0 n
  some (xs.take new.length ++ new.drop xs.length)

structure FlatLevel where
  ids : List Int64 := List.replicate 16 0
  head : Int32 := 0
  size : Int32 := 0
  deriving DecidableEq, Repr

namespace FlatLevel

def isEmpty (l : FlatLevel) : Bool := l.head == l.size

def reset (l : FlatLevel) : FlatLevel := { l with head := 0, size := 0 }

/-- `lvl.head++`. -/
def pop (l : FlatLevel) : FlatLevel := { l with head := l.head + 1 }

/-- The array `push` writes to, with room for one more id. -/
def grown (l : FlatLevel) : Option (List Int64) :=
  if l.size.toInt = l.ids.length then copyOf l.ids (l.size * 2) else some l.ids

def push (l : FlatLevel) (id : Int64) : Option FlatLevel := do
  let ids ← l.grown
  let _ ← index ids l.size
  some { l with ids := ids.set l.size.toNatClampNeg id, size := l.size + 1 }

end FlatLevel

def ladder : ℤ := 4096

structure TunedBook where
  bids : List FlatLevel := List.replicate ladder.toNat {}
  asks : List FlatLevel := List.replicate ladder.toNat {}
  bestBid : ℤ := -1
  bestAsk : ℤ := ladder
  price : List ℤ
  qty : List ℤ
  live : Int32 := 0
  fills : Int64 := 0
  volume : Int64 := 0
  deriving DecidableEq

namespace TunedBook

/-- The constructor. -/
def new (maxId : Int64) : Option TunedBook := do
  let price ← newLongs 0 (maxId.toInt32 + 2)
  let qty ← newLongs 0 (maxId.toInt32 + 2)
  some { price, qty }

/-! ## The inner loop -/

/-- The state of the inner loop. -/
structure Drain where
  lvl : FlatLevel
  qty : List ℤ
  q : ℤ
  live : Int32
  fills : Int64
  volume : Int64

/-- One round of the inner loop. -/
def drainStep (s : Drain) : Option (Option Drain) :=
  if 0 < s.q then
    if s.lvl.isEmpty then some none
    else do
      let head ← index s.lvl.ids s.lvl.head
      let r ← index s.qty head.toInt32
      if r = 0 then
        -- lazily-cancelled order
        some (some { s with lvl := s.lvl.pop })
      else
        let m := min s.q r
        let left := r - m
        some (some
          { lvl := if left = 0 then s.lvl.pop else s.lvl
            qty := s.qty.set head.toInt32.toNatClampNeg left
            q := s.q - m
            live := if left = 0 then s.live - 1 else s.live
            fills := s.fills + 1
            volume := s.volume + Int64.ofInt m })
  else some none

/-- Every round advances the head, but for the one that exhausts the incoming order. -/
def Drain.variant (s : Drain) : ℕ :=
  (s.lvl.size.toInt - s.lvl.head.toInt).toNat + if 0 < s.q then 1 else 0

/-- The inner loop. -/
def drain : Drain → Option Drain := Loop.tryExec drainStep Drain.variant

/-! ## The scans for the next occupied level -/

/-- `while (p < LADDER && asks[(int) p].isEmpty()) p++;` -/
def scanUpStep (asks : List FlatLevel) (p : ℤ) : Option (Option ℤ) :=
  if p < ladder then do
    let lvl ← index asks (Int32.ofInt p)
    some (if lvl.isEmpty then some (p + 1) else none)
  else some none

def scanUp (asks : List FlatLevel) : ℤ → Option ℤ :=
  Loop.tryExec (scanUpStep asks) fun p => (ladder - p).toNat

/-- `while (p >= 0 && bids[(int) p].isEmpty()) p--;` -/
def scanDownStep (bids : List FlatLevel) (p : ℤ) : Option (Option ℤ) :=
  if 0 ≤ p then do
    let lvl ← index bids (Int32.ofInt p)
    some (if lvl.isEmpty then some (p - 1) else none)
  else some none

def scanDown (bids : List FlatLevel) : ℤ → Option ℤ :=
  Loop.tryExec (scanDownStep bids) fun p => (p + 1).toNat

/-! ## The outer loop -/

/-- The state of the outer loop. -/
structure Sweep where
  book : TunedBook
  q : ℤ

/-- The ladder a taker on `side` matches against. -/
def opposite (b : TunedBook) (side : Int8) : List FlatLevel :=
  if side = sideBid then b.asks else b.bids

/-- The book after the inner loop `d` on the opposite level at `best`. -/
def writeBack (b : TunedBook) (side : Int8) (best : ℤ) (d : Drain) : TunedBook :=
  let i := (Int32.ofInt best).toNatClampNeg
  { b with
    bids := if side = sideBid then b.bids else b.bids.set i d.lvl
    asks := if side = sideBid then b.asks.set i d.lvl else b.asks
    qty := d.qty
    live := d.live
    fills := d.fills
    volume := d.volume }

/-- The best pointer moves on from the emptied level at `best`. -/
def advance (b : TunedBook) (side : Int8) (best : ℤ) : Option TunedBook :=
  if side = sideBid then do
    let p ← scanUp b.asks (best + 1)
    some { b with bestAsk := p }
  else do
    let p ← scanDown b.bids (best - 1)
    some { b with bestBid := p }

/-- What follows the inner loop: an empty level is reset, and the best pointer moves on. -/
def settle (b : TunedBook) (side : Int8) (best : ℤ) (d : Drain) : Option TunedBook :=
  if d.lvl.isEmpty then (b.writeBack side best { d with lvl := d.lvl.reset }).advance side best
  else some (b.writeBack side best d)

/-- One round of the outer loop. -/
def sweepStep (side : Int8) (px : ℤ) (s : Sweep) : Option (Option Sweep) :=
  if 0 < s.q then
    let best := if side = sideBid then s.book.bestAsk else s.book.bestBid
    let crosses := if side = sideBid then best ≤ px else best ≥ px
    if best < 0 ∨ best ≥ ladder ∨ ¬crosses then some none
    else do
      let lvl ← index (s.book.opposite side) (Int32.ofInt best)
      let d ← drain
        { lvl, qty := s.book.qty, q := s.q, live := s.book.live
          fills := s.book.fills, volume := s.book.volume }
      let b ← s.book.settle side best d
      some (some { book := b, q := d.q })
  else some none

/-- Every round moves the best pointer inwards, but for the one that exhausts the
incoming order. -/
def Sweep.variant (side : Int8) (s : Sweep) : ℕ :=
  (if side = sideBid then (ladder - s.book.bestAsk).toNat else (s.book.bestBid + 1).toNat) +
    if 0 < s.q then 1 else 0

/-- The outer loop. -/
def sweep (side : Int8) (px : ℤ) : Sweep → Option Sweep :=
  Loop.tryExec (sweepStep side px) (Sweep.variant side)

/-! ## The operations -/

/-- The residual of an incoming order comes to rest. -/
def rest (b : TunedBook) (side : Int8) (px q : ℤ) (id : Int64) : Option TunedBook := do
  let i := Int32.ofInt px
  let b ←
    if side = sideBid then do
      let lvl ← index b.bids i
      let lvl ← lvl.push id
      some { b with bids := b.bids.set i.toNatClampNeg lvl, bestBid := max b.bestBid px }
    else do
      let lvl ← index b.asks i
      let lvl ← lvl.push id
      some { b with asks := b.asks.set i.toNatClampNeg lvl, bestAsk := min b.bestAsk px }
  let _ ← index b.price id.toInt32
  let _ ← index b.qty id.toInt32
  some { b with
    price := b.price.set id.toInt32.toNatClampNeg px
    qty := b.qty.set id.toInt32.toNatClampNeg q
    live := b.live + 1 }

/-- `TunedBook.limit`. -/
def limit (b : TunedBook) (side : Int8) (px q : ℤ) (id : Int64) : Option TunedBook := do
  let s ← sweep side px { book := b, q }
  if 0 < s.q then s.book.rest side px s.q id else some s.book

/-- `TunedBook.cancel`. -/
def cancel (b : TunedBook) (id : Int64) : Option TunedBook := do
  let q ← index b.qty id.toInt32
  some (if q ≠ 0 then
    { b with qty := b.qty.set id.toInt32.toNatClampNeg 0, live := b.live - 1 } else b)

/-- One record of the checksum fold. -/
def mix (acc id : Int64) (price qty : ℤ) : Int64 :=
  (SplitMix64.mk (acc ^^^ id ^^^ (Int64.ofInt price <<< 20) ^^^ Int64.ofInt qty)).next.1

/-- The fold of the level's ids from `head` to `size`, read one by one. -/
def foldLevel (price qty : List ℤ) (acc : Int64) (lvl : FlatLevel) : Option Int64 :=
  (List.range (lvl.size.toInt - lvl.head.toInt).toNat).foldlM
    (fun acc k => do
      let id ← index lvl.ids (lvl.head + Int32.ofNat k)
      let q ← index qty id.toInt32
      if q ≠ 0 then do
        let p ← index price id.toInt32
        some (mix acc id p q)
      else some acc) acc

/-- `TunedBook.checksum`. -/
def checksum (b : TunedBook) : Option Int64 := do
  let acc ← b.bids.foldlM (foldLevel b.price b.qty) 0
  b.asks.foldlM (foldLevel b.price b.qty) acc

/-- One operation; `byte` and `long` are signed readings of the same bits. -/
def apply (b : TunedBook) : Cpp.Op → Option TunedBook
  | .limit side price qty id => b.limit side.toInt8 price qty id.toInt64
  | .cancel id => b.cancel id.toInt64

/-- A sequence of operations, from the constructor's state. -/
def run (maxId : Int64) (ops : List Cpp.Op) : Option TunedBook := do
  let b ← new maxId
  ops.foldlM apply b

end TunedBook
end LmaxBench.Java
