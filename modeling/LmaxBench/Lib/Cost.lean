import Mathlib.Algebra.BigOperators.Group.List.Basic
import Mathlib.Algebra.Ring.Nat
import LmaxBench.Lib.Loop

/-!
# What loops and runs cost

A loop pays for every round, and a run for every operation; what is paid may depend on the state.
Costs are bounded by potentials: a round that costs `w` lowers the potential by `w` at least, and
an operation may raise it by what is credited for it. Where nothing is lost, the accounts balance.

## Main definitions

* `cost` — the cost of a loop, round by round.
* `cost_add_le`, `cost_balance` — bounded by a potential, or balanced.
* `runCost`, `runCost_add_le` — the same for a run.
-/

namespace LmaxBench.Loop

variable {σ α : Type*}

/-- The cost of at most `fuel` rounds, where the round from `s` costs `w s`. -/
def costRounds (step : σ → Option σ) (w : σ → ℕ) : ℕ → σ → ℕ
  | 0, _ => 0
  | fuel + 1, s =>
    match step s with
    | none => 0
    | some s' => w s + costRounds step w fuel s'

/-- The cost of the loop. -/
def cost (step : σ → Option σ) (w : σ → ℕ) (μ : σ → ℕ) (s : σ) : ℕ := costRounds step w (μ s) s

section Loop
variable {step : σ → Option σ} {w : σ → ℕ} {μ : σ → ℕ}

@[simp] theorem costRounds_of_none {s : σ} (h : step s = none) (n : ℕ) :
    costRounds step w n s = 0 := by
  cases n with
  | zero => rfl
  | succ n => simp [costRounds, h]

theorem costRounds_of_some {s s' : σ} (h : step s = some s') (n : ℕ) :
    costRounds step w (n + 1) s = w s + costRounds step w n s' := by
  simp [costRounds, h]

/-- Nothing is paid for fuel that is not used. -/
theorem costRounds_eq (hv : Variant step μ) {n : ℕ} {s : σ} (hs : μ s ≤ n) :
    costRounds step w n s = cost step w μ s := by
  induction s using exec_induction hv generalizing n with
  | exit s h => rw [cost, costRounds_of_none h, costRounds_of_none h]
  | round s s' h ih =>
    have hlt : μ s' < μ s := hv s s' h
    obtain ⟨n, rfl⟩ : ∃ k, n = k + 1 := ⟨n - 1, by omega⟩
    obtain ⟨k, hk⟩ : ∃ k, μ s = k + 1 := ⟨μ s - 1, by omega⟩
    rw [cost, hk, costRounds_of_some h, costRounds_of_some h, ih (by omega), ih (by omega)]

@[simp] theorem cost_of_none {s : σ} (h : step s = none) : cost step w μ s = 0 :=
  costRounds_of_none h _

theorem cost_of_some (hv : Variant step μ) {s s' : σ} (h : step s = some s') :
    cost step w μ s = w s + cost step w μ s' := by
  have hlt : μ s' < μ s := hv s s' h
  obtain ⟨k, hk⟩ : ∃ k, μ s = k + 1 := ⟨μ s - 1, by omega⟩
  rw [cost, hk, costRounds_of_some h, costRounds_eq hv (by omega)]

/-- **A loop is paid for by its potential.** -/
theorem cost_add_le (hv : Variant step μ) {Φ : σ → ℕ}
    (h : ∀ s s', step s = some s' → w s + Φ s' ≤ Φ s) (s : σ) :
    cost step w μ s + Φ (exec step μ s) ≤ Φ s := by
  induction s using exec_induction hv with
  | exit s hs =>
    rw [cost_of_none hs, exec_of_none hs]
    omega
  | round s s' hs ih =>
    have hround := h s s' hs
    rw [cost_of_some hv hs, exec_of_some hv hs]
    omega

/-- **The accounts of a loop balance**, if those of its rounds do. -/
theorem cost_balance (hv : Variant step μ) {v Φ Ψ : σ → ℕ}
    (h : ∀ s s', step s = some s' → w s + Φ s' + Ψ s = v s + Φ s + Ψ s') (s : σ) :
    cost step w μ s + Φ (exec step μ s) + Ψ s =
      cost step v μ s + Φ s + Ψ (exec step μ s) := by
  induction s using exec_induction hv with
  | exit s hs => rw [cost_of_none hs, cost_of_none hs, exec_of_none hs]
  | round s s' hs ih =>
    have hround := h s s' hs
    rw [cost_of_some hv hs, cost_of_some hv hs, exec_of_some hv hs]
    omega

@[simp] theorem cost_zero (hv : Variant step μ) (s : σ) : cost step (fun _ => 0) μ s = 0 := by
  induction s using exec_induction hv with
  | exit s hs => exact cost_of_none hs
  | round s s' hs ih => rw [cost_of_some hv hs, ih]

end Loop

section Run
variable {step : σ → α → σ} {c : σ → α → ℕ}

/-- The cost of a run, where `a` costs `c s a` in the state `s`. -/
def runCost (step : σ → α → σ) (c : σ → α → ℕ) : σ → List α → ℕ
  | _, [] => 0
  | s, a :: l => c s a + runCost step c (step s a) l

/-- **A run is paid for by what is credited.** -/
theorem runCost_add_le {Φ : σ → ℕ} {credit : α → ℕ}
    (h : ∀ s a, c s a + Φ (step s a) ≤ Φ s + credit a) (s : σ) (l : List α) :
    runCost step c s l + Φ (l.foldl step s) ≤ Φ s + (l.map credit).sum := by
  induction l generalizing s with
  | nil => exact Nat.le_of_eq (Nat.zero_add _)
  | cons a l ih =>
    have hstep := h s a
    have hrest := ih (step s a)
    rw [runCost, List.foldl_cons, List.map_cons, List.sum_cons]
    omega

end Run

end LmaxBench.Loop
