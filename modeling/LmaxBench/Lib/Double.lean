import Mathlib.Algebra.Order.Round
import Mathlib.Data.Int.Log
import Mathlib.Data.Rat.Floor
import Mathlib.Tactic.Linarith
import Mathlib.Tactic.NormNum
import Mathlib.Tactic.Ring

/-!
# Rounding to double precision

The value of a double-precision operation is the exact value rounded to 53 significant bits,
to nearest and to even in a tie. Doubles are their values here, rationals of either sign in
the range of the normal numbers; overflow, underflow, infinities and NaNs are left out.

## Main definitions

* `roundEven` — the nearest integer, the even one in a tie.
* `toDouble` — the nearest double.
* `toDouble_le` — rounding adds at most one part in `2 ^ 53`.
* `abs_toDouble_sub_le`, `toDouble_eq_of_abs_lt` — half an ulp, and what is that close to an
  integer.
-/

namespace LmaxBench

/-- The nearest integer, the even one in a tie. -/
def roundEven (x : ℚ) : ℤ :=
  let below := ⌊x⌋
  if x - below < 1 / 2 then below
  else if 1 / 2 < x - below then below + 1
  else if below % 2 = 0 then below
  else below + 1

theorem roundEven_le (x : ℚ) : (roundEven x : ℚ) ≤ x + 1 / 2 := by
  have hfloor := Int.floor_le x
  simp only [roundEven]
  split
  · linarith
  · split
    · push_cast
      linarith
    · split
      · linarith
      · push_cast
        linarith

theorem roundEven_nonneg {x : ℚ} (h : 0 ≤ x) : 0 ≤ roundEven x := by
  have hfloor : 0 ≤ ⌊x⌋ := Int.floor_nonneg.mpr h
  simp only [roundEven]
  split
  · exact hfloor
  · split
    · omega
    · split
      · exact hfloor
      · omega

@[simp] theorem roundEven_intCast (n : ℤ) : roundEven (n : ℚ) = n := by
  have h : ((n : ℚ) - ⌊(n : ℚ)⌋) < 1 / 2 := by
    rw [Int.floor_intCast, sub_self]
    norm_num
  rw [roundEven]
  simp only [h, if_true]
  exact Int.floor_intCast n

/-- The distance of the doubles next to `x`. -/
def ulp (x : ℚ) : ℚ := 2 ^ (Int.log 2 x - 52)

/-- The nearest double. -/
def toDouble (x : ℚ) : ℚ := roundEven (x / ulp x) * ulp x

theorem ulp_pos (x : ℚ) : 0 < ulp x := by
  rw [ulp]
  exact zpow_pos two_pos _

theorem ulp_le {x : ℚ} (h : 0 < x) : ulp x ≤ x / 2 ^ 52 := by
  have hlog : ((2 : ℕ) : ℚ) ^ Int.log 2 x ≤ x := Int.zpow_log_le_self (by decide) h
  rw [Nat.cast_ofNat] at hlog
  rw [ulp, zpow_sub₀ two_ne_zero, zpow_ofNat]
  gcongr

@[simp] theorem toDouble_zero : toDouble 0 = 0 := by
  have h : roundEven 0 = 0 := by
    exact_mod_cast roundEven_intCast 0
  rw [toDouble, zero_div, h, Int.cast_zero, zero_mul]

theorem toDouble_nonneg {x : ℚ} (h : 0 ≤ x) : 0 ≤ toDouble x := by
  have hround : 0 ≤ roundEven (x / ulp x) := roundEven_nonneg (div_nonneg h (ulp_pos x).le)
  exact mul_nonneg (by exact_mod_cast hround) (ulp_pos x).le

/-- **Rounding adds at most one part in `2 ^ 53`.** -/
theorem toDouble_le {x : ℚ} (h : 0 ≤ x) : toDouble x ≤ x * (1 + 1 / 2 ^ 53) := by
  rcases h.eq_or_lt with rfl | hpos
  · simp
  · have hulp := ulp_pos x
    have hround := mul_le_mul_of_nonneg_right (roundEven_le (x / ulp x)) hulp.le
    have hle := ulp_le hpos
    calc toDouble x ≤ (x / ulp x + 1 / 2) * ulp x := hround
      _ = x + ulp x / 2 := by
        rw [add_mul, div_mul_cancel₀ _ hulp.ne']
        ring
      _ ≤ x + x / 2 ^ 52 / 2 := by linarith
      _ = x * (1 + 1 / 2 ^ 53) := by ring

/-- A product, computed with doubles. -/
theorem toDouble_mul_le {x y : ℚ} (hx : 0 ≤ x) (hy : 0 ≤ y) :
    toDouble (toDouble x * toDouble y) ≤ x * y * (1 + 1 / 2 ^ 53) ^ 3 := by
  have hmul : toDouble x * toDouble y ≤ x * (1 + 1 / 2 ^ 53) * (y * (1 + 1 / 2 ^ 53)) :=
    mul_le_mul (toDouble_le hx) (toDouble_le hy) (toDouble_nonneg hy) (by positivity)
  calc toDouble (toDouble x * toDouble y)
      ≤ toDouble x * toDouble y * (1 + 1 / 2 ^ 53) :=
        toDouble_le (mul_nonneg (toDouble_nonneg hx) (toDouble_nonneg hy))
    _ ≤ x * (1 + 1 / 2 ^ 53) * (y * (1 + 1 / 2 ^ 53)) * (1 + 1 / 2 ^ 53) := by gcongr
    _ = x * y * (1 + 1 / 2 ^ 53) ^ 3 := by ring

/-! ## Half an ulp -/

theorem abs_roundEven_sub_le (x : ℚ) : |(roundEven x : ℚ) - x| ≤ 1 / 2 := by
  have hfloor := Int.floor_le x
  have hlt := Int.lt_floor_add_one x
  rw [abs_le]
  simp only [roundEven]
  split
  · constructor <;> linarith
  · split
    · push_cast
      constructor <;> linarith
    · split
      · constructor <;> linarith
      · push_cast
        constructor <;> linarith

/-- The nearest integer, when there is no tie. -/
theorem roundEven_eq_of_abs_lt {x : ℚ} {m : ℤ} (h : |x - m| < 1 / 2) : roundEven x = m := by
  obtain ⟨hlo, hhi⟩ := abs_lt.mp h
  rcases le_or_gt (m : ℚ) x with hle | hgt
  · have hfloor : ⌊x⌋ = m := Int.floor_eq_iff.mpr ⟨hle, by linarith⟩
    simp only [roundEven, hfloor, hhi, if_true]
  · have hfloor : ⌊x⌋ = m - 1 := by
      rw [Int.floor_eq_iff]
      push_cast
      constructor <;> linarith
    have hnot : ¬x - ((m - 1 : ℤ) : ℚ) < 1 / 2 := by
      push_cast
      linarith
    have hup : 1 / 2 < x - ((m - 1 : ℤ) : ℚ) := by
      push_cast
      linarith
    simp only [roundEven, hfloor, if_neg hnot, if_pos hup]
    exact sub_add_cancel m 1

/-- **Rounding moves a number by half an ulp at most.** -/
theorem abs_toDouble_sub_le (x : ℚ) : |toDouble x - x| ≤ ulp x / 2 := by
  have hulp := ulp_pos x
  have hround := abs_roundEven_sub_le (x / ulp x)
  calc |toDouble x - x| = |(roundEven (x / ulp x) - x / ulp x) * ulp x| := by
        rw [sub_mul, div_mul_cancel₀ _ hulp.ne', toDouble]
    _ = |(roundEven (x / ulp x) : ℚ) - x / ulp x| * ulp x := by rw [abs_mul, abs_of_pos hulp]
    _ ≤ 1 / 2 * ulp x := mul_le_mul_of_nonneg_right hround hulp.le
    _ = ulp x / 2 := by ring

theorem ulp_eq_zpow {x : ℚ} {e : ℤ} (h : 2 ^ e ≤ x) (h' : x < 2 ^ (e + 1)) :
    ulp x = 2 ^ (e - 52) := by
  have hpos : 0 < x := lt_of_lt_of_le (zpow_pos two_pos e) h
  have hlog : Int.log 2 x = e := by
    apply le_antisymm
    · exact Int.lt_add_one_iff.mp
        ((Int.lt_zpow_iff_log_lt (by decide) hpos).mp (by exact_mod_cast h'))
    · exact (Int.zpow_le_iff_le_log (by decide) hpos).mp (by exact_mod_cast h)
  rw [ulp, hlog]

theorem lt_ulp (x : ℚ) : x / 2 ^ 53 < ulp x := by
  have hlog : x < ((2 : ℕ) : ℚ) ^ (Int.log 2 x + 1) := Int.lt_zpow_succ_log_self (by decide) x
  have hexp : ulp x = 2 ^ (Int.log 2 x + 1) / 2 ^ 53 := by
    rw [ulp, ← zpow_natCast, ← zpow_sub₀ two_ne_zero]
    congr 1
    push_cast
    ring
  rw [hexp]
  push_cast at hlog
  gcongr

/-- Below `2 ^ 53` every integer is a double. -/
theorem exists_mul_ulp {x : ℚ} (h : 0 < x) (hlt : x < 2 ^ 53) (n : ℕ) :
    ∃ m : ℤ, (m : ℚ) * ulp x = n := by
  have hlog : Int.log 2 x < 53 := by
    refine (Int.lt_zpow_iff_log_lt (by decide) h).mp ?_
    exact_mod_cast hlt
  obtain ⟨j, hj⟩ : ∃ j : ℕ, Int.log 2 x - 52 = -j := ⟨(52 - Int.log 2 x).toNat, by omega⟩
  refine ⟨n * 2 ^ j, ?_⟩
  rw [ulp, hj, zpow_neg, zpow_natCast]
  push_cast
  rw [mul_assoc, mul_inv_cancel₀ (by positivity), mul_one]

/-- **What is less than half an ulp away from an integer** is rounded to it. -/
theorem toDouble_eq_of_abs_lt {x : ℚ} {n : ℕ} (h : 0 < x) (hlt : x < 2 ^ 53)
    (hnear : |x - n| < ulp x / 2) : toDouble x = n := by
  have hulp := ulp_pos x
  obtain ⟨m, hm⟩ := exists_mul_ulp h hlt n
  have hclose : |x / ulp x - m| < 1 / 2 := by
    have heq : x / ulp x - m = (x - n) / ulp x := by
      rw [← hm, sub_div, mul_div_cancel_right₀ _ hulp.ne']
    rw [heq, abs_div, abs_of_pos hulp, div_lt_iff₀ hulp]
    linarith
  rw [toDouble, roundEven_eq_of_abs_lt hclose, hm]

@[simp] theorem toDouble_natCast {n : ℕ} (hn : n < 2 ^ 53) : toDouble n = n := by
  rcases Nat.eq_zero_or_pos n with rfl | hpos
  · simp
  · have hulp := ulp_pos (n : ℚ)
    refine toDouble_eq_of_abs_lt (by exact_mod_cast hpos) (by exact_mod_cast hn) ?_
    rw [sub_self, abs_zero]
    linarith

end LmaxBench
