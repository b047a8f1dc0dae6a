import Mathlib.Data.Nat.Notation
import Mathlib.Data.Int.Notation
import Mathlib.Order.Defs.LinearOrder

/-!
# The workload generator

`SplitMix64` and the operation stream `Gen` of `workload.hpp`, and the operations a
matching engine consumes. Unsigned words are `UInt64`, with the wraparound of the
source; prices and quantities are `Int`, since no operation on them leaves the range
of `int64_t`.
-/

namespace LmaxBench.Cpp

/-- The splitmix64 state. -/
structure SplitMix64 where
  state : UInt64
  deriving DecidableEq, Repr

/-- `SplitMix64::next`: the word drawn and the advanced state. -/
def SplitMix64.next (s : SplitMix64) : UInt64 × SplitMix64 :=
  let state := s.state + 0x9E3779B97F4A7C15
  let z := state
  let z := (z ^^^ (z >>> 30)) * 0xBF58476D1CE4E5B9
  let z := (z ^^^ (z >>> 27)) * 0x94D049BB133111EB
  (z ^^^ (z >>> 31), ⟨state⟩)

def kindLimit : UInt8 := 0
def kindCancel : UInt8 := 1
def kindReport : UInt8 := 2
def sideBid : UInt8 := 0

/-- What a matching engine is asked to do. -/
inductive Op
  | limit (side : UInt8) (price qty : ℤ) (id : UInt64)
  | cancel (id : UInt64)
  deriving DecidableEq, Repr

/-- The generator, with the out-parameters of `next_op`. -/
structure Gen where
  rng : SplitMix64
  mid : ℤ := 1000
  lastId : UInt64 := 0
  kind : UInt8 := 0
  side : UInt8 := 0
  price : ℤ := 0
  qty : ℤ := 0
  id : UInt64 := 0
  deriving DecidableEq, Repr

namespace Gen

/-- `Gen::Gen`. -/
def new (seed : UInt64) : Gen := { rng := ⟨seed⟩ }

/-- The random walk of the mid price, from the draw `r`. -/
def walk (r : UInt64) (mid : ℤ) : ℤ :=
  if r % 7 = 0 then max 500 (min (mid + (((r >>> 40) % 3).toNat - 1)) 1500) else mid

/-- `Gen::next_op`. Everything is derived from the one draw `r`. -/
def nextOp (g : Gen) : Gen :=
  let (r, rng) := g.rng.next
  let mid := walk r g.mid
  let c := r % 100
  if c < 85 then
    let side := ((r >>> 8) &&& 1).toUInt8
    let aggressive := decide (c ≥ 55)
    let offset : ℤ :=
      if aggressive then ((r >>> 16) % 10).toNat else 1 + ((r >>> 16) % 20).toNat
    { rng, mid, lastId := g.lastId + 1
      kind := kindLimit
      side
      price := if decide (side = sideBid) != aggressive then mid - offset else mid + offset
      qty := 1 + ((r >>> 32) % 100).toNat
      id := g.lastId + 1 }
  else
    let back := (r >>> 16) % 5000
    { rng, mid, lastId := g.lastId
      kind := kindCancel
      side := 0
      price := 0
      qty := 0
      id := if g.lastId > back then g.lastId - back else 0 }

/-- The operation the out-parameters describe. -/
def op (g : Gen) : Op :=
  if g.kind = kindLimit then .limit g.side g.price g.qty g.id else .cancel g.id

/-- The generator after `n` operations. -/
def after (g : Gen) : ℕ → Gen
  | 0 => g
  | n + 1 => (g.after n).nextOp

/-- The first `n` operations of the stream. -/
def ops (g : Gen) (n : ℕ) : List Op := (List.range n).map fun i => (g.after (i + 1)).op

end Gen
end LmaxBench.Cpp
