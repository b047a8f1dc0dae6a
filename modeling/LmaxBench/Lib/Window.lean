import Mathlib.Data.Nat.Count

/-!
# Windows of a periodic sequence

How often a periodic predicate holds in a window. Some window of every length is as dense as
the period, and it can be moved up to the next place where the predicate fails.

## Main definitions

* `Window.hits p k w` — how often `p` holds from `k` on, in a window of length `w`.
* `Window.exists_dense` — a window as dense as the period.
* `Window.exists_before_miss` — a dense window right before a miss.
-/

namespace LmaxBench.Window
variable {p : ℕ → Prop} [DecidablePred p]

/-- How often `p` holds in the window of length `w` that starts at `k`. -/
def hits (p : ℕ → Prop) [DecidablePred p] (k w : ℕ) : ℕ := Nat.count (fun i => p (k + i)) w

@[simp] theorem hits_zero (w : ℕ) : hits p 0 w = Nat.count p w := by
  simp only [hits, Nat.zero_add]

theorem count_add (k w : ℕ) : Nat.count p (k + w) = Nat.count p k + hits p k w :=
  Nat.count_add p k w

/-- A window of a whole number of periods, from the start. -/
theorem count_mul_period {P : ℕ} (hp : ∀ i, p (i + P) ↔ p i) (n : ℕ) :
    Nat.count p (n * P) = n * Nat.count p P := by
  have hshift : ∀ n i, p (n * P + i) ↔ p i := by
    intro n
    induction n with
    | zero =>
      intro i
      rw [Nat.zero_mul, Nat.zero_add]
    | succ n ih =>
      intro i
      rw [Nat.succ_mul, Nat.add_right_comm, hp, ih]
  induction n with
  | zero => simp
  | succ n ih =>
    have hblock : hits p (n * P) P = Nat.count p P := by
      simp only [hits, hshift]
    rw [Nat.succ_mul, count_add, ih, hblock, Nat.succ_mul]

/-- Windows side by side that are all sparser than the period. -/
theorem count_blocks_lt {P c w : ℕ} (h : ∀ k, P * hits p k w < w * c) {n : ℕ} (hn : 0 < n) :
    P * Nat.count p (n * w) < n * (w * c) := by
  induction n, hn using Nat.le_induction with
  | base =>
    rw [Nat.one_mul, Nat.one_mul, ← hits_zero]
    exact h 0
  | succ n hn ih =>
    rw [Nat.succ_mul, count_add, Nat.mul_add, Nat.succ_mul]
    exact Nat.add_lt_add ih (h (n * w))

/-- **Averaging**: some window of length `w` is as dense as the period. -/
theorem exists_dense {P : ℕ} (hP : 0 < P) (hp : ∀ i, p (i + P) ↔ p i) (w : ℕ) :
    ∃ k, w * Nat.count p P ≤ P * hits p k w := by
  by_contra hno
  have hsparse : ∀ k, P * hits p k w < w * Nat.count p P := by
    simpa only [not_exists, not_le] using hno
  -- `P` windows fill `w` periods
  have hlt := count_blocks_lt hsparse hP
  rw [Nat.mul_comm P w, count_mul_period hp] at hlt
  exact lt_irrefl _ hlt

/-- Moving a window up by one, past a hit, loses nothing. -/
theorem hits_le_hits_succ {k w : ℕ} (h : p (k + w)) : hits p k w ≤ hits p (k + 1) w := by
  have hlast : hits p k (w + 1) = hits p k w + 1 := by
    rw [hits, Nat.count_succ, if_pos h, hits]
  have hfirst : hits p k (w + 1) = hits p (k + 1) w + if p k then 1 else 0 := by
    simp only [hits, Nat.count_succ', Nat.add_zero, Nat.add_right_comm k 1, Nat.add_assoc k]
  split at hfirst <;> omega

/-- A window moved up to the next miss is as dense as before. -/
theorem exists_before_miss {k w i : ℕ} (hi : k + w ≤ i) (hmiss : ¬p i) :
    ∃ k', hits p k w ≤ hits p k' w ∧ ¬p (k' + w) := by
  obtain ⟨d, rfl⟩ := Nat.exists_eq_add_of_le hi
  clear hi
  induction d generalizing k with
  | zero => exact ⟨k, le_rfl, hmiss⟩
  | succ d ih =>
    by_cases hk : p (k + w)
    case neg => exact ⟨k, le_rfl, hk⟩
    case pos =>
      have hplace : k + w + (d + 1) = k + 1 + w + d := by omega
      rw [hplace] at hmiss
      obtain ⟨k', hle, hmiss'⟩ := ih hmiss
      exact ⟨k', (hits_le_hits_succ hk).trans hle, hmiss'⟩

/-- The window from `w` up to `n`. -/
@[simp] theorem countP_range_le (n w : ℕ) : (List.range n).countP (fun i => w ≤ i) = n - w := by
  induction n with
  | zero => simp
  | succ n ih =>
    rw [List.range_succ, List.countP_append, ih]
    by_cases hw : w ≤ n
    · simp [hw]
      omega
    · simp [hw]
      omega

end LmaxBench.Window
