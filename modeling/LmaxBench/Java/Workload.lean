import LmaxBench.Cpp.Workload

/-!
# The workload generator in Java

`SplitMix64` and `Workload` of the Java suite. Java has no unsigned words: a `long` is
an `Int64`, a `byte` an `Int8`, an `int` an `Int32`, and the source chooses between the
signed and the unsigned reading operation by operation. Comparisons are signed; `>>>`
and `Long.remainderUnsigned` read the bits as unsigned.
-/

namespace LmaxBench.Java

/-- `x >>> k`, the logical shift, for a shift distance below 64. -/
def ushr (x : Int64) (k : UInt64) : Int64 := (x.toUInt64 >>> k).toInt64

/-- `Long.remainderUnsigned`. -/
def remainderUnsigned (x y : Int64) : Int64 := (x.toUInt64 % y.toUInt64).toInt64

/-- `Math.clamp(long, int, int)`, which answers an `int`; the bounds are in order at the
one place where it is called. -/
def clamp (value : Int64) (lo hi : Int32) : Int32 := (min hi.toInt64 (max value lo.toInt64)).toInt32

structure SplitMix64 where
  state : Int64
  deriving DecidableEq, Repr

/-- `SplitMix64.next`: the word drawn and the advanced state. -/
def SplitMix64.next (s : SplitMix64) : Int64 × SplitMix64 :=
  let state := s.state + 0x9E3779B97F4A7C15
  let z := state
  let z := (z ^^^ ushr z 30) * 0xBF58476D1CE4E5B9
  let z := (z ^^^ ushr z 27) * 0x94D049BB133111EB
  (z ^^^ ushr z 31, ⟨state⟩)

def kindLimit : Int8 := 0
def kindCancel : Int8 := 1
def sideBid : Int8 := 0

structure Workload where
  rng : SplitMix64
  mid : Int64 := 1000
  lastId : Int64 := 0
  kind : Int8 := 0
  side : Int8 := 0
  price : Int64 := 0
  qty : Int64 := 0
  id : Int64 := 0
  deriving DecidableEq, Repr

namespace Workload

def new (seed : Int64) : Workload := { rng := ⟨seed⟩ }

/-- `Workload.nextOp`. -/
def nextOp (w : Workload) : Workload :=
  let (r, rng) := w.rng.next
  let mid :=
    if remainderUnsigned r 7 = 0 then
      (clamp (w.mid + (remainderUnsigned (ushr r 40) 3 - 1)) 500 1500).toInt64
    else w.mid
  let c := remainderUnsigned r 100
  if c < 85 then
    let side := (ushr r 8 &&& 1).toInt8
    let aggressive := decide (c ≥ 55)
    let offset :=
      if aggressive then remainderUnsigned (ushr r 16) 10
      else 1 + remainderUnsigned (ushr r 16) 20
    let lastId := w.lastId + 1
    { rng, mid, lastId
      side
      price := if decide (side = sideBid) != aggressive then mid - offset else mid + offset
      qty := 1 + remainderUnsigned (ushr r 32) 100
      id := lastId
      kind := kindLimit }
  else
    let back := remainderUnsigned (ushr r 16) 5000
    { rng, mid, lastId := w.lastId
      -- saturating
      id := if w.lastId > back then w.lastId - back else 0
      kind := kindCancel
      side := 0
      price := 0
      qty := 0 }

/-- The generator after `n` operations. -/
def after (w : Workload) : ℕ → Workload
  | 0 => w
  | n + 1 => (w.after n).nextOp

end Workload
end LmaxBench.Java
