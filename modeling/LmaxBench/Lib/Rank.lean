import Mathlib.Data.List.Perm.Basic
import Mathlib.Data.Rat.Floor
import Mathlib.Order.Defs.LinearOrder

/-!
# Order statistics

Where an element would stand if a list were sorted: its places are as many as its copies, from the
number of smaller elements up to the number of elements that are not larger. A rank is a rational
number here; what has a rank between two places is the element at the lower one.

## Main definitions

* `HasRank` — the element of a rank.
* `HasRank.mono` — greater ranks have greater elements.
* `hasRank_getElem` — the places of a sorted list.
-/

namespace LmaxBench

variable {α : Type*} [LinearOrder α] {l l' : List α} {t t' : ℚ} {x x' : α}

/-- The rank `t` is among the places of `x` in `l`, counted from zero. -/
structure HasRank (l : List α) (t : ℚ) (x : α) : Prop where
  smaller : (l.countP (· < x) : ℚ) ≤ t
  larger : t < l.countP (· ≤ x)

theorem HasRank.mono (h : HasRank l t x) (h' : HasRank l t' x') (ht : t ≤ t') : x ≤ x' := by
  by_contra hlt
  have hle : l.countP (· ≤ x') ≤ l.countP (· < x) := by
    refine List.countP_mono_left fun y _ hy => ?_
    simp only [decide_eq_true_eq] at hy ⊢
    exact lt_of_le_of_lt hy (not_le.mp hlt)
  have hcount : (l.countP (· ≤ x') : ℚ) ≤ l.countP (· < x) := Nat.cast_le.mpr hle
  exact absurd ht (not_le.mpr (h'.larger.trans_le (hcount.trans h.smaller)))

theorem HasRank.perm (h : HasRank l t x) (hp : l.Perm l') : HasRank l' t x where
  smaller := hp.countP_eq (· < x) ▸ h.smaller
  larger := hp.countP_eq (· ≤ x) ▸ h.larger

/-- Elements in the order of their ranks. -/
theorem HasRank.pairwise {ts : List ℚ} {xs : List α} (h : List.Forall₂ (HasRank l) ts xs)
    (hts : ts.Pairwise (· ≤ ·)) : xs.Pairwise (· ≤ ·) := by
  induction h with
  | nil => exact .nil
  | @cons t x ts xs hx hxs ih =>
    obtain ⟨hle, hrest⟩ := List.pairwise_cons.mp hts
    refine List.pairwise_cons.mpr ⟨fun x' hx' => ?_, ih hrest⟩
    obtain ⟨i, hi, rfl⟩ := List.mem_iff_getElem.mp hx'
    have hlen := hxs.length_eq
    exact hx.mono (hxs.get (by omega) hi) (hle _ (List.getElem_mem _))

/-! ## Sorted lists -/

theorem getElem_le_getElem (h : l.Pairwise (· ≤ ·)) {i j : ℕ} (hij : i ≤ j) (hj : j < l.length) :
    l[i] ≤ l[j] := by
  rcases hij.eq_or_lt with rfl | hlt
  · exact le_rfl
  · exact List.pairwise_iff_getElem.mp h i j _ hj hlt

theorem le_getLast (h : l.Pairwise (· ≤ ·)) (hne : l ≠ []) (hx : x ∈ l) : x ≤ l.getLast hne := by
  obtain ⟨i, hi, rfl⟩ := List.mem_iff_getElem.mp hx
  rw [List.getLast_eq_getElem]
  exact getElem_le_getElem h (by omega) _

/-- At most `i` elements are smaller than the one at `i`. -/
theorem countP_lt_getElem (h : l.Pairwise (· ≤ ·)) {i : ℕ} (hi : i < l.length) :
    l.countP (· < l[i]) ≤ i := by
  have hdrop : (l.drop i).countP (· < l[i]) = 0 := by
    rw [List.countP_eq_zero]
    intro y hy
    obtain ⟨j, hj, rfl⟩ := List.mem_iff_getElem.mp hy
    rw [List.getElem_drop, decide_eq_true_eq, not_lt]
    exact getElem_le_getElem h (Nat.le_add_right i j) _
  calc l.countP (· < l[i]) = (l.take i ++ l.drop i).countP (· < l[i]) := by
        rw [List.take_append_drop]
    _ = (l.take i).countP (· < l[i]) := by rw [List.countP_append, hdrop, Nat.add_zero]
    _ ≤ (l.take i).length := List.countP_le_length
    _ ≤ i := List.length_take_le i l

/-- More than `i` elements are not larger than the one at `i`. -/
theorem lt_countP_le_getElem (h : l.Pairwise (· ≤ ·)) {i : ℕ} (hi : i < l.length) :
    i < l.countP (· ≤ l[i]) := by
  have htake : (l.take (i + 1)).countP (· ≤ l[i]) = (l.take (i + 1)).length := by
    rw [List.countP_eq_length]
    intro y hy
    obtain ⟨j, hj, rfl⟩ := List.mem_iff_getElem.mp hy
    rw [List.length_take] at hj
    rw [List.getElem_take, decide_eq_true_eq]
    exact getElem_le_getElem h (by omega) hi
  have hlen : (l.take (i + 1)).length = i + 1 := by
    rw [List.length_take]
    omega
  have hsub : (l.take (i + 1)).countP (· ≤ l[i]) ≤ l.countP (· ≤ l[i]) :=
    (List.take_sublist _ l).countP_le
  rw [htake, hlen] at hsub
  exact hsub

/-- **What is found at the place of a rank**, rounded down, in a sorted list. -/
theorem hasRank_getElem (h : l.Pairwise (· ≤ ·)) {i : ℕ} (hi : i < l.length) (hfloor : ⌊t⌋₊ = i)
    (ht : 0 ≤ t) : HasRank l t l[i] := by
  obtain ⟨hle, hlt⟩ := (Nat.floor_eq_iff ht).mp hfloor
  have hsmaller : (l.countP (· < l[i]) : ℚ) ≤ i := Nat.cast_le.mpr (countP_lt_getElem h hi)
  have hlarger : ((i + 1 : ℕ) : ℚ) ≤ l.countP (· ≤ l[i]) :=
    Nat.cast_le.mpr (lt_countP_le_getElem h hi)
  refine ⟨hsmaller.trans hle, hlt.trans_le ?_⟩
  rwa [Nat.cast_succ] at hlarger

end LmaxBench
