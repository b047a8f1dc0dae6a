import LmaxBench.Cpp.Workload

/-!
# The workload generator in Go

`splitMix64` and `gen` of `go/workload.go`. The out-parameters of `nextOp` are fields
of the generator, as in the source.
-/

namespace LmaxBench.Go

structure SplitMix64 where
  state : UInt64
  deriving DecidableEq, Repr

/-- `splitMix64.next`: the word drawn and the advanced state. -/
def SplitMix64.next (s : SplitMix64) : UInt64 × SplitMix64 :=
  let state := s.state + 0x9E3779B97F4A7C15
  let z := state
  let z := (z ^^^ (z >>> 30)) * 0xBF58476D1CE4E5B9
  let z := (z ^^^ (z >>> 27)) * 0x94D049BB133111EB
  (z ^^^ (z >>> 31), ⟨state⟩)

def kindLimit : UInt8 := 0
def kindCancel : UInt8 := 1
def sideBid : UInt8 := 0

structure Gen where
  rng : SplitMix64
  mid : ℤ
  lastID : UInt64 := 0
  kind : UInt8 := 0
  side : UInt8 := 0
  price : ℤ := 0
  qty : ℤ := 0
  id : UInt64 := 0
  deriving DecidableEq, Repr

namespace Gen

/-- `newGen`. -/
def new (seed : UInt64) : Gen := { rng := ⟨seed⟩, mid := 1000 }

/-- `gen.nextOp`. -/
def nextOp (g : Gen) : Gen :=
  let (r, rng) := g.rng.next
  let mid := if r % 7 = 0 then min (max (g.mid + (((r >>> 40) % 3).toNat - 1)) 500) 1500 else g.mid
  let c := r % 100
  if c < 85 then
    let side := ((r >>> 8) &&& 1).toUInt8
    let aggressive := decide (c ≥ 55)
    let offset : ℤ :=
      if aggressive then ((r >>> 16) % 10).toNat else 1 + ((r >>> 16) % 20).toNat
    let lastID := g.lastID + 1
    { rng, mid, lastID
      side
      price := if decide (side = sideBid) != aggressive then mid - offset else mid + offset
      qty := 1 + ((r >>> 32) % 100).toNat
      id := lastID
      kind := kindLimit }
  else
    let back := (r >>> 16) % 5000
    { rng, mid, lastID := g.lastID
      -- saturating
      id := if g.lastID > back then g.lastID - back else 0
      kind := kindCancel
      side := 0
      price := 0
      qty := 0 }

/-- The generator after `n` operations. -/
def after (g : Gen) : ℕ → Gen
  | 0 => g
  | n + 1 => (g.after n).nextOp

end Gen
end LmaxBench.Go
