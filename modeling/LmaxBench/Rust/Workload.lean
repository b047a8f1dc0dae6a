import LmaxBench.Cpp.Workload

/-!
# The workload generator in Rust

`SplitMix64`, `Op` and `Gen` of `rust/src/workload.rs`. Here `next_op` answers with a
record, and the generator keeps no out-parameters.
-/

namespace LmaxBench.Rust

structure SplitMix64 where
  state : UInt64
  deriving DecidableEq, Repr

/-- `SplitMix64::next`: the word drawn and the advanced state. -/
def SplitMix64.next (s : SplitMix64) : UInt64 × SplitMix64 :=
  let state := s.state + 0x9E3779B97F4A7C15
  let z := state
  let z := (z ^^^ (z >>> 30)) * 0xBF58476D1CE4E5B9
  let z := (z ^^^ (z >>> 27)) * 0x94D049BB133111EB
  (z ^^^ (z >>> 31), ⟨state⟩)

def kindLimit : UInt8 := 0
def kindCancel : UInt8 := 1
def sideBid : UInt8 := 0

/-- `struct Op`, what the generator hands out. -/
structure Op where
  kind : UInt8
  side : UInt8
  price : ℤ
  qty : ℤ
  id : UInt64
  deriving DecidableEq, Repr

structure Gen where
  rng : SplitMix64
  mid : ℤ
  lastId : UInt64
  deriving DecidableEq, Repr

/-- `u64::saturating_sub`. -/
def saturatingSub (a b : UInt64) : UInt64 := if b ≤ a then a - b else 0

/-- `Ord::clamp`. -/
def clamp (x lo hi : ℤ) : ℤ := if x < lo then lo else if hi < x then hi else x

namespace Gen

/-- `Gen::new`. -/
def new (seed : UInt64) : Gen := { rng := ⟨seed⟩, mid := 1000, lastId := 0 }

/-- `Gen::next_op`: the operation and the advanced generator, which differs between the
two branches in `last_id` only. -/
def nextOp (g : Gen) : Op × Gen :=
  let (r, rng) := g.rng.next
  let mid := if r % 7 = 0 then clamp (g.mid + (((r >>> 40) % 3).toNat - 1)) 500 1500 else g.mid
  let c := r % 100
  let lastId := if c < 85 then g.lastId + 1 else g.lastId
  let op : Op :=
    if c < 85 then
      -- c < 55 passive (behind the touch), else aggressive
      let side := ((r >>> 8) &&& 1).toUInt8
      let aggressive := decide (c ≥ 55)
      let offset : ℤ :=
        if aggressive then ((r >>> 16) % 10).toNat else 1 + ((r >>> 16) % 20).toNat
      let price := if decide (side = sideBid) != aggressive then mid - offset else mid + offset
      { kind := kindLimit, side, price, qty := 1 + ((r >>> 32) % 100).toNat, id := lastId }
    else
      let back := (r >>> 16) % 5000
      { kind := kindCancel, side := 0, price := 0, qty := 0, id := saturatingSub g.lastId back }
  (op, { rng, mid, lastId })

/-- The generator after `n` operations. -/
def after (g : Gen) : ℕ → Gen
  | 0 => g
  | n + 1 => (g.after n).nextOp.2

end Gen
end LmaxBench.Rust
