import LmaxBench.Conformance.Streams

/-!
# The operations of the streams

What the generators of the suite emit, as operations on a book. The operations of the Go and of
the Rust generator are those of the C++ one, for any number of them.

## Main definitions

* `Go.Gen.ops`, `Rust.Gen.ops` — the first operations of a stream.
* `Go.Gen.ops_eq`, `Rust.Gen.ops_eq` — they are those of the stream in C++.
-/

namespace LmaxBench

/-- The operation an emission describes. -/
def Emission.op (e : Emission) : Cpp.Op :=
  if e.kind = Cpp.kindLimit then .limit e.side e.price e.qty e.id else .cancel e.id

@[simp] theorem Cpp.Gen.op_emission (g : Cpp.Gen) : g.emission.op = g.op := rfl

/-- Prices and quantities of the stream are small. -/
theorem Cpp.Gen.limit_bounds (seed : UInt64) {n : ℕ} {side : UInt8} {price qty : ℤ} {id : UInt64}
    (h : ((Cpp.Gen.new seed).after (n + 1)).op = .limit side price qty id) :
    480 ≤ price ∧ price ≤ 1520 ∧ 1 ≤ qty ∧ qty ≤ 100 := by
  have hmid := mid_after seed (n + 1)
  rw [after_succ] at h hmid
  rcases nextOp_cases ((new seed).after n) with ⟨s, p, q, hop, -, hbounds⟩ | ⟨i, hop, -⟩
  · rw [hop] at h
    injection h with _ hp hq
    omega
  · rw [hop] at h
    simp at h

theorem Cpp.Gen.limit_bounds_of_mem {seed : UInt64} {n : ℕ} {side : UInt8} {price qty : ℤ}
    {id : UInt64} (h : .limit side price qty id ∈ (Cpp.Gen.new seed).ops n) :
    480 ≤ price ∧ price ≤ 1520 ∧ 1 ≤ qty ∧ qty ≤ 100 := by
  obtain ⟨k, -, heq⟩ := mem_ops h
  rw [← after_succ] at heq
  exact limit_bounds seed heq.symm

namespace Go.Gen

/-- The operation the out-parameters describe. -/
def op (g : Gen) : Cpp.Op :=
  if g.kind = kindLimit then .limit g.side g.price g.qty g.id else .cancel g.id

/-- The first `n` operations of the stream. -/
def ops (g : Gen) (n : ℕ) : List Cpp.Op := (List.range n).map fun i => (g.after (i + 1)).op

@[simp] theorem op_emission (g : Gen) : g.emission.op = g.op := rfl

theorem after_succ (g : Gen) (n : ℕ) : g.after (n + 1) = (g.after n).nextOp := rfl

@[simp] theorem emission_after (seed : UInt64) (n : ℕ) :
    ((new seed).after (n + 1)).emission = ((Cpp.Gen.new seed).after (n + 1)).emission := by
  rw [after_succ, Cpp.Gen.after_succ]
  exact (tracks_after seed n).nextOp.2

@[simp] theorem op_after_eq (seed : UInt64) (n : ℕ) :
    ((new seed).after (n + 1)).op = ((Cpp.Gen.new seed).after (n + 1)).op := by
  rw [← op_emission, emission_after, Cpp.Gen.op_emission]

@[simp] theorem ops_eq (seed : UInt64) (n : ℕ) : (new seed).ops n = (Cpp.Gen.new seed).ops n :=
  List.map_congr_left fun i _ => op_after_eq seed i

@[simp] theorem length_ops (g : Gen) (n : ℕ) : (g.ops n).length = n := by simp [ops]

@[simp] theorem getElem?_ops (g : Gen) {n i : ℕ} (hi : i < n) :
    (g.ops n)[i]? = some (g.after (i + 1)).op := by
  simp [ops, hi]

end Go.Gen

namespace Rust

def Op.op (o : Op) : Cpp.Op := o.emission.op

namespace Gen

/-- The first `n` operations of the stream. -/
def ops (g : Gen) (n : ℕ) : List Cpp.Op := (List.range n).map fun i => (g.after i).nextOp.1.op

@[simp] theorem emission_after (seed : UInt64) (n : ℕ) :
    ((new seed).after n).nextOp.1.emission = ((Cpp.Gen.new seed).after (n + 1)).emission := by
  rw [Cpp.Gen.after_succ]
  exact (tracks_after seed n).nextOp.2

@[simp] theorem op_after_eq (seed : UInt64) (n : ℕ) :
    ((new seed).after n).nextOp.1.op = ((Cpp.Gen.new seed).after (n + 1)).op := by
  rw [Op.op, emission_after, Cpp.Gen.op_emission]

@[simp] theorem ops_eq (seed : UInt64) (n : ℕ) : (new seed).ops n = (Cpp.Gen.new seed).ops n :=
  List.map_congr_left fun i _ => op_after_eq seed i

@[simp] theorem length_ops (g : Gen) (n : ℕ) : (g.ops n).length = n := by simp [ops]

@[simp] theorem getElem?_ops (g : Gen) {n i : ℕ} (hi : i < n) :
    (g.ops n)[i]? = some (g.after i).nextOp.1.op := by
  simp [ops, hi]

end Gen
end Rust
end LmaxBench
