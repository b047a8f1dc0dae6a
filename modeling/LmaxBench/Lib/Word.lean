import Mathlib.Algebra.Group.Int.Defs
import Mathlib.Algebra.Group.Nat.Defs
import Mathlib.Order.Defs.LinearOrder

/-!
# 64-bit words

The order on `UInt64` as a linear order, for maps keyed by words, and what the
operations do to the represented natural numbers as long as nothing wraps.
-/

namespace LmaxBench

instance instLinearOrder : LinearOrder UInt64 where
  le_refl := UInt64.le_refl
  le_trans _ _ _ := UInt64.le_trans
  lt_iff_le_not_ge a b := by
    simp only [UInt64.lt_iff_toNat_lt, UInt64.le_iff_toNat_le]
    omega
  le_antisymm _ _ := UInt64.le_antisymm
  le_total := UInt64.le_total
  toDecidableLE := inferInstance
  min_def _ _ := rfl
  max_def _ _ := rfl

namespace Word

theorem toNat_add_of_lt {a b : UInt64} (h : a.toNat + b.toNat < 2 ^ 64) :
    (a + b).toNat = a.toNat + b.toNat := by
  rw [UInt64.toNat_add, Nat.mod_eq_of_lt h]

theorem toNat_add_one {a : UInt64} (h : a.toNat + 1 < 2 ^ 64) : (a + 1).toNat = a.toNat + 1 :=
  toNat_add_of_lt h

theorem toNat_sub_of_le {a b : UInt64} (h : b.toNat ≤ a.toNat) :
    (a - b).toNat = a.toNat - b.toNat :=
  UInt64.toNat_sub_of_le _ _ (UInt64.le_iff_toNat_le.mpr h)

theorem eq_of_toNat {a b : UInt64} (h : a.toNat = b.toNat) : a = b := UInt64.toNat_inj.mp h

theorem toNat_ofInt {x : Int} (h0 : 0 ≤ x) (h1 : x < 2 ^ 64) :
    (UInt64.ofInt x).toNat = x.toNat := by
  have hofInt : (UInt64.ofInt x).toNat = (x % 2 ^ 64).toNat % 2 ^ 64 := rfl
  rw [hofInt, Int.emod_eq_of_lt h0 h1]
  omega

@[simp] theorem toNat_ofNat_of_lt {n : ℕ} (h : n < 2 ^ 64) : (UInt64.ofNat n).toNat = n := by
  rw [UInt64.toNat_ofNat', Nat.mod_eq_of_lt h]

/-- A power of two less one masks out the remainder. -/
theorem toNat_and_mask {a n : UInt64} {k : ℕ} (hn : n.toNat = 2 ^ k) :
    (a &&& (n - 1)).toNat = a.toNat % n.toNat := by
  have hpos : 0 < 2 ^ k := Nat.two_pow_pos k
  have hmask : (n - 1).toNat = 2 ^ k - 1 := by
    rw [toNat_sub_of_le (by simp only [UInt64.toNat_one]; omega), hn]
    rfl
  rw [UInt64.toNat_and, hmask, Nat.and_two_pow_sub_one_eq_mod, hn]

theorem toNat_add_one_sub {a b : UInt64} (hle : b.toNat ≤ a.toNat)
    (hlt : a.toNat + 1 < b.toNat + 2 ^ 64) : (a + 1 - b).toNat = a.toNat + 1 - b.toNat := by
  have ha := a.toNat_lt
  have hb := b.toNat_lt
  simp only [UInt64.toNat_sub, UInt64.toNat_add, UInt64.toNat_one]
  omega

/-- A power of two that is a word. -/
theorem exponent_lt {n : UInt64} {k : ℕ} (hn : n.toNat = 2 ^ k) : k < 64 :=
  (Nat.pow_lt_pow_iff_right (by decide)).mp (hn ▸ n.toNat_lt)

/-- The slot after that of `a`, also where `a + 1` wraps around. -/
theorem toNat_add_one_and_mask {a n : UInt64} {k : ℕ} (hn : n.toNat = 2 ^ k) :
    ((a + 1) &&& (n - 1)).toNat = (a.toNat + 1) % n.toNat := by
  have hdvd : n.toNat ∣ 2 ^ 64 := by
    rw [hn]
    exact Nat.pow_dvd_pow 2 (Nat.le_of_lt (exponent_lt hn))
  rw [toNat_and_mask hn, UInt64.toNat_add, UInt64.toNat_one, Nat.mod_mod_of_dvd _ hdvd]

/-! ### Words that count

A counter that wraps around is read as the number of times it was incremented. Two such
counters are told apart, and their distance read off, as long as they are less than `2 ^ 64`
apart. -/

theorem ofNat_succ (n : ℕ) : UInt64.ofNat (n + 1) = UInt64.ofNat n + 1 := UInt64.ofNat_add n 1

theorem toNat_ofNat_sub {m n : ℕ} (hle : m ≤ n) (hlt : n < m + 2 ^ 64) :
    (UInt64.ofNat n - UInt64.ofNat m).toNat = n - m := by
  rw [← UInt64.ofNat_sub hle, toNat_ofNat_of_lt (by omega)]

theorem ofNat_inj_of_lt {m n : ℕ} (hle : m ≤ n) (hlt : n < m + 2 ^ 64) :
    UInt64.ofNat n = UInt64.ofNat m ↔ n = m := by
  constructor
  · intro heq
    have hdist := toNat_ofNat_sub hle hlt
    rw [heq, UInt64.sub_self, UInt64.toNat_zero] at hdist
    omega
  · rintro rfl
    rfl

theorem toNat_ofNat_and_mask {n : UInt64} {k : ℕ} (hn : n.toNat = 2 ^ k) (m : ℕ) :
    (UInt64.ofNat m &&& (n - 1)).toNat = m % n.toNat := by
  have hdvd : n.toNat ∣ 2 ^ 64 := by
    rw [hn]
    exact Nat.pow_dvd_pow 2 (Nat.le_of_lt (exponent_lt hn))
  rw [toNat_and_mask hn, UInt64.toNat_ofNat', Nat.mod_mod_of_dvd _ hdvd]

end Word
end LmaxBench
