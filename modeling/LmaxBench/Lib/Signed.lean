import LmaxBench.Lib.Word

/-!
# Signed words

A signed 64-bit word has the bits of its unsigned reading `toUInt64`, and below `2 ^ 63`
both readings have the same value, so that signed comparisons decide what unsigned ones
do. Arithmetic on signed words is integer arithmetic as long as it stays in range.
-/

namespace LmaxBench.Word

/-- Below `2 ^ 63` the signed and the unsigned reading are the same. -/
theorem toInt_eq_toNat {x : Int64} (h : x.toUInt64.toNat < 2 ^ 63) : x.toInt = x.toUInt64.toNat :=
  BitVec.toInt_eq_toNat_of_lt (x := x.toBitVec) (by
    have hx : x.toBitVec.toNat = x.toUInt64.toNat := rfl
    omega)

/-- So they are where the signed reading is not negative. -/
theorem toInt_eq_toNat_of_nonneg {x : Int64} (h : 0 ≤ x.toInt) : x.toInt = x.toUInt64.toNat := by
  have hlt := x.toUInt64.toNat_lt
  have hbits : x.toBitVec.toNat = x.toUInt64.toNat := rfl
  have hcond : x.toInt = x.toBitVec.toInt := rfl
  rw [BitVec.toInt_eq_toNat_cond, hbits] at hcond
  split at hcond <;> omega

theorem slt_iff {x y : Int64} (hx : x.toUInt64.toNat < 2 ^ 63) (hy : y.toUInt64.toNat < 2 ^ 63) :
    x < y ↔ x.toUInt64 < y.toUInt64 := by
  rw [Int64.lt_iff_toInt_lt, toInt_eq_toNat hx, toInt_eq_toNat hy, UInt64.lt_iff_toNat_lt]
  omega

theorem toInt_add_of_bounds {x y : Int64} (h0 : -2 ^ 63 ≤ x.toInt + y.toInt)
    (h1 : x.toInt + y.toInt < 2 ^ 63) : (x + y).toInt = x.toInt + y.toInt := by
  rw [Int64.toInt_add]
  exact Int.bmod_eq_of_le (by omega) (by omega)

theorem toInt_sub_of_bounds {x y : Int64} (h0 : -2 ^ 63 ≤ x.toInt - y.toInt)
    (h1 : x.toInt - y.toInt < 2 ^ 63) : (x - y).toInt = x.toInt - y.toInt := by
  rw [Int64.toInt_sub]
  exact Int.bmod_eq_of_le (by omega) (by omega)

/-- A counter below a bound does not overflow. -/
theorem toInt_add_one_of_lt {x y : Int64} (h : x.toInt < y.toInt) :
    (x + 1).toInt = x.toInt + 1 := by
  have hone : (1 : Int64).toInt = 1 := by decide
  have hlow := x.le_toInt
  have hhigh := y.toInt_lt
  rw [toInt_add_of_bounds] <;> rw [hone] <;> omega

/-- A sum in range is exact, also where the product alone is not. -/
theorem toInt_add_mul_of_bounds {x y : Int64} {n : ℕ} (h0 : -2 ^ 63 ≤ x.toInt + n * y.toInt)
    (h1 : x.toInt + n * y.toInt < 2 ^ 63) :
    (x + Int64.ofNat n * y).toInt = x.toInt + n * y.toInt := by
  have hsize : Int64.size = 2 ^ 64 := rfl
  rw [Int64.toInt_add, Int64.toInt_mul, Int64.toInt_ofNat', hsize, Int.bmod_mul_bmod,
    Int.add_bmod_bmod]
  exact Int.bmod_eq_of_le (by omega) (by omega)

/-- A sum just above the range wraps around to a negative word. -/
theorem toInt_add_mul_neg {x y : Int64} {n : ℕ} (h0 : 2 ^ 63 ≤ x.toInt + n * y.toInt)
    (h1 : x.toInt + n * y.toInt < 2 ^ 64) : (x + Int64.ofNat n * y).toInt < 0 := by
  have hsize : Int64.size = 2 ^ 64 := rfl
  rw [Int64.toInt_add, Int64.toInt_mul, Int64.toInt_ofNat', hsize, Int.bmod_mul_bmod,
    Int.add_bmod_bmod, Int.bmod_eq_emod]
  split <;> omega

theorem toInt_add_ofNat_of_bounds {x : Int64} {n : ℕ} (h : x.toInt + n < 2 ^ 63) :
    (x + Int64.ofNat n).toInt = x.toInt + n := by
  have hsize : Int64.size = 2 ^ 64 := rfl
  have hlow := x.le_toInt
  rw [Int64.toInt_add, Int64.toInt_ofNat', hsize, Int.add_bmod_bmod]
  exact Int.bmod_eq_of_le (by omega) (by omega)

theorem neg_le_zero {x : Int64} (h : 0 ≤ x.toInt) : -x ≤ 0 := by
  have hlt := x.toInt_lt
  rw [Int64.le_iff_toInt_le, Int64.toInt_neg, Int.bmod_eq_of_le (by omega) (by omega)]
  exact Int.neg_nonpos_of_nonneg h

@[simp] theorem toInt_min (x y : Int64) : (min x y).toInt = min x.toInt y.toInt := by
  have hmin : min x y = if x ≤ y then x else y := rfl
  rw [hmin]
  split
  case isTrue h =>
    have hle := Int64.le_iff_toInt_le.mp h
    omega
  case isFalse h =>
    rw [Int64.le_iff_toInt_le] at h
    omega

@[simp] theorem toInt_max (x y : Int64) : (max x y).toInt = max x.toInt y.toInt := by
  have hmax : max x y = if x ≤ y then y else x := rfl
  rw [hmax]
  split
  case isTrue h =>
    have hle := Int64.le_iff_toInt_le.mp h
    omega
  case isFalse h =>
    rw [Int64.le_iff_toInt_le] at h
    omega

/-- A narrowing cast keeps a value in range. -/
theorem toInt_toInt32_of_bounds {x : Int64} (h0 : -2 ^ 31 ≤ x.toInt) (h1 : x.toInt < 2 ^ 31) :
    x.toInt32.toInt = x.toInt := by
  rw [Int64.toInt_toInt32]
  exact Int.bmod_eq_of_le (by omega) (by omega)

@[simp] theorem toUInt64_ofInt (i : ℤ) : (Int64.ofInt i).toUInt64 = UInt64.ofInt i := by
  refine eq_of_toNat ?_
  have hbits : (Int64.ofInt i).toUInt64.toNat = (BitVec.ofInt 64 i).toNat := rfl
  have hofInt : (UInt64.ofInt i).toNat = (i % 2 ^ 64).toNat % 2 ^ 64 := rfl
  rw [hbits, hofInt, BitVec.toNat_ofInt]
  omega

/-- The bits of a signed word tell its value. -/
theorem ofInt_inj_of_bounds {x y : ℤ} (hx0 : -2 ^ 63 ≤ x) (hx1 : x < 2 ^ 63) (hy0 : -2 ^ 63 ≤ y)
    (hy1 : y < 2 ^ 63) (h : UInt64.ofInt x = UInt64.ofInt y) : x = y := by
  have hofInt : ∀ z : ℤ, (UInt64.ofInt z).toNat = (z % 2 ^ 64).toNat % 2 ^ 64 := fun _ => rfl
  have hnat := congrArg UInt64.toNat h
  rw [hofInt, hofInt] at hnat
  omega

/-- So do the bits shifted to the left, where the value has room. -/
theorem ofInt_shiftLeft_inj {x y : ℤ} (hx0 : 0 ≤ x) (hx1 : x < 2 ^ 44) (hy0 : 0 ≤ y)
    (hy1 : y < 2 ^ 44) (h : UInt64.ofInt x <<< 20 = UInt64.ofInt y <<< 20) : x = y := by
  have hshift : ∀ z : ℤ, 0 ≤ z → z < 2 ^ 44 →
      (UInt64.ofInt z <<< 20).toNat = z.toNat * 2 ^ 20 := by
    intro z hz0 hz1
    have hexp : (20 : UInt64).toNat % 64 = 20 := rfl
    rw [UInt64.toNat_shiftLeft, toNat_ofInt hz0 (by omega), hexp, Nat.shiftLeft_eq]
    exact Nat.mod_eq_of_lt (by omega)
  have hnat := congrArg UInt64.toNat h
  rw [hshift x hx0 hx1, hshift y hy0 hy1] at hnat
  omega

/-! ## 32-bit words -/

theorem toInt_add32_of_bounds {x y : Int32} (h0 : -2 ^ 31 ≤ x.toInt + y.toInt)
    (h1 : x.toInt + y.toInt < 2 ^ 31) : (x + y).toInt = x.toInt + y.toInt := by
  rw [Int32.toInt_add]
  exact Int.bmod_eq_of_le (by omega) (by omega)

theorem toInt_mul32_of_bounds {x y : Int32} (h0 : -2 ^ 31 ≤ x.toInt * y.toInt)
    (h1 : x.toInt * y.toInt < 2 ^ 31) : (x * y).toInt = x.toInt * y.toInt := by
  rw [Int32.toInt_mul]
  exact Int.bmod_eq_of_le (by omega) (by omega)

end LmaxBench.Word
