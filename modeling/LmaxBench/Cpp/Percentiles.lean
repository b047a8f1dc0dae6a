import LmaxBench.Cpp.PrintResult
import LmaxBench.Lib.Rank

/-!
# The latency percentiles are exact

`print_result` of `main.cpp` computes the place of a percentile with doubles: neither the percentage
nor the product with the number of samples need be exact, and the place is what is left of the
product when it is cut off. For up to `2 ^ 39` samples that makes no difference. Either the exact
product is an integer, and the errors are small enough to be rounded away, or it is a multiple of
`1 / 10000` between two integers, and the errors do not reach the next of them. The percentiles that
are shown are therefore the exact ones.

## Main definitions

* `percentileIdx_eq` — the place is the exact one.
* `PrintsExact`, `printResult_exact` — what is printed.
-/

namespace LmaxBench.Cpp

/-! ## The percentages -/

/-- A percentage, as it is written in the source and as a double. -/
structure Percentage (q : ℚ) : Prop where
  /-- At most four decimals. -/
  decimals : ∃ a : ℕ, q = a / 10000
  lt_one : q < 1
  half_le : 1 / 2 ≤ toDouble q
  near : |toDouble q - q| ≤ 1 / 2 ^ 55

theorem Percentage.nonneg {q : ℚ} (h : Percentage q) : 0 ≤ q := by
  obtain ⟨a, rfl⟩ := h.decimals
  positivity

theorem Percentage.toDouble_le_one {q : ℚ} (h : Percentage q) : toDouble q ≤ 1 := by
  obtain ⟨a, hq⟩ := h.decimals
  have hlt : a < 10000 := by
    have hone := h.lt_one
    rw [hq, div_lt_one (by norm_num)] at hone
    exact_mod_cast hone
  have hle : (a : ℚ) ≤ 9999 := by exact_mod_cast Nat.le_of_lt_succ hlt
  have hnear := (abs_le.mp h.near).2
  have hsmall : (1 : ℚ) / 2 ^ 55 ≤ 1 / 10000 := by norm_num
  rw [hq] at hnear ⊢
  linarith

/-- A percentage of at least a half is a double of `2 ^ 53` parts. -/
theorem percentage_of_near {q : ℚ} {a : ℕ} {m : ℤ} (hq : q = a / 10000) (h : 1 / 2 ≤ q) (h' : q < 1)
    (hm : (2 : ℤ) ^ 52 ≤ m) (hnear : |q * 2 ^ 53 - m| ≤ 1 / 4) : Percentage q := by
  have hulp : ulp q = 1 / 2 ^ 53 := by
    rw [ulp_eq_zpow (e := -1) (by norm_num; linarith) (by norm_num; linarith)]
    norm_num
  have hround : roundEven (q / ulp q) = m := by
    refine roundEven_eq_of_abs_lt ?_
    rw [hulp, div_div_eq_mul_div, div_one]
    linarith
  have hdouble : toDouble q = m / 2 ^ 53 := by
    rw [toDouble, hround, hulp]
    ring
  refine ⟨⟨a, hq⟩, h', ?_, ?_⟩
  · have hmQ : (2 : ℚ) ^ 52 ≤ m := by exact_mod_cast hm
    rw [hdouble]
    linarith
  · have heq : toDouble q - q = -(q * 2 ^ 53 - m) / 2 ^ 53 := by
      rw [hdouble]
      ring
    rw [heq, abs_div, abs_neg, abs_of_pos (by positivity : (0 : ℚ) < 2 ^ 53)]
    linarith

theorem percentage_of_mem {q : ℚ} (hq : q ∈ percentiles) : Percentage q := by
  simp only [percentiles, List.mem_cons, List.not_mem_nil, or_false] at hq
  rcases hq with rfl | rfl | rfl | rfl | rfl
  · exact percentage_of_near (a := 5000) (m := 4503599627370496) (by norm_num) (by norm_num)
      (by norm_num) (by norm_num) (by norm_num)
  · exact percentage_of_near (a := 9000) (m := 8106479329266893) (by norm_num) (by norm_num)
      (by norm_num) (by norm_num) (by norm_num)
  · exact percentage_of_near (a := 9900) (m := 8917127262193582) (by norm_num) (by norm_num)
      (by norm_num) (by norm_num) (by norm_num)
  · exact percentage_of_near (a := 9990) (m := 8998192055486251) (by norm_num) (by norm_num)
      (by norm_num) (by norm_num) (by norm_num)
  · exact percentage_of_near (a := 9999) (m := 9006298534815518) (by norm_num) (by norm_num)
      (by norm_num) (by norm_num) (by norm_num)

theorem pairwise_percentiles : percentiles.Pairwise (· ≤ ·) := by
  rw [percentiles]
  norm_num

/-! ## The places -/

/-- An integer product is found again. -/
theorem toDouble_product_of_eq {q : ℚ} {n k : ℕ} (h : Percentage q) (hn : 0 < n) (hlt : n < 2 ^ 53)
    (hk : q * n = k) : toDouble (toDouble q * n) = k := by
  have hnQ : (0 : ℚ) < n := by exact_mod_cast hn
  have hltQ : (n : ℚ) < 2 ^ 53 := by exact_mod_cast hlt
  have hhalf := h.half_le
  have hone : toDouble q ≤ 1 := h.toDouble_le_one
  have hpos : 0 < toDouble q * n := mul_pos (by linarith) hnQ
  refine toDouble_eq_of_abs_lt hpos ?_ ?_
  · calc toDouble q * n ≤ 1 * n := mul_le_mul_of_nonneg_right hone hnQ.le
      _ < 2 ^ 53 := by rwa [one_mul]
  · calc |toDouble q * n - k| = |toDouble q - q| * n := by
          rw [← hk, ← sub_mul, abs_mul, abs_of_pos hnQ]
      _ ≤ 1 / 2 ^ 55 * n := mul_le_mul_of_nonneg_right h.near hnQ.le
      _ = 1 / 2 * n / 2 ^ 53 / 2 := by ring
      _ ≤ toDouble q * n / 2 ^ 53 / 2 := by gcongr
      _ < ulp (toDouble q * n) / 2 := by
        have hulp := lt_ulp (toDouble q * n)
        linarith

/-- Otherwise, the errors are less than a ten-thousandth. -/
theorem abs_product_sub_lt {q : ℚ} {n : ℕ} (h : Percentage q) (hn : 0 < n) (hle : n ≤ 2 ^ 39) :
    |toDouble (toDouble q * n) - q * n| < 1 / 10000 := by
  have hnQ : (0 : ℚ) < n := by exact_mod_cast hn
  have hleQ : (n : ℚ) ≤ 2 ^ 39 := by exact_mod_cast hle
  have hhalf := h.half_le
  have hone : toDouble q ≤ 1 := h.toDouble_le_one
  have hpos : 0 < toDouble q * n := mul_pos (by linarith) hnQ
  have hround : |toDouble (toDouble q * n) - toDouble q * n| ≤ n / 2 ^ 53 :=
    calc |toDouble (toDouble q * n) - toDouble q * n| ≤ ulp (toDouble q * n) / 2 :=
          abs_toDouble_sub_le _
      _ ≤ toDouble q * n / 2 ^ 52 / 2 := by
        have hulp := ulp_le hpos
        linarith
      _ ≤ 1 * n / 2 ^ 52 / 2 := by gcongr
      _ = n / 2 ^ 53 := by ring
  have hnear : |toDouble q * n - q * n| ≤ n / 2 ^ 55 :=
    calc |toDouble q * n - q * n| = |toDouble q - q| * n := by
          rw [← sub_mul, abs_mul, abs_of_pos hnQ]
      _ ≤ 1 / 2 ^ 55 * n := mul_le_mul_of_nonneg_right h.near hnQ.le
      _ = n / 2 ^ 55 := by ring
  calc |toDouble (toDouble q * n) - q * n|
      ≤ |toDouble (toDouble q * n) - toDouble q * n| + |toDouble q * n - q * n| :=
        abs_sub_le _ _ _
    _ ≤ n / 2 ^ 53 + n / 2 ^ 55 := add_le_add hround hnear
    _ ≤ 2 ^ 39 / 2 ^ 53 + 2 ^ 39 / 2 ^ 55 := by gcongr
    _ < 1 / 10000 := by norm_num

/-- **The product is cut off at the exact place.** -/
theorem floor_product_eq {q : ℚ} {n : ℕ} (h : Percentage q) (hle : n ≤ 2 ^ 39) :
    ⌊toDouble (toDouble q * n)⌋₊ = ⌊q * n⌋₊ := by
  rcases Nat.eq_zero_or_pos n with rfl | hn
  · simp
  obtain ⟨a, hq⟩ := h.decimals
  have hprod : q * n = (a * n : ℕ) / 10000 := by
    rw [hq]
    push_cast
    ring
  have hsplit : ((a * n : ℕ) : ℚ) = 10000 * (a * n / 10000 : ℕ) + (a * n % 10000 : ℕ) := by
    exact_mod_cast (Nat.div_add_mod (a * n) 10000).symm
  have hdiv : q * n = (a * n / 10000 : ℕ) + (a * n % 10000 : ℕ) / 10000 := by
    rw [hprod, hsplit]
    ring
  rcases Nat.eq_zero_or_pos (a * n % 10000) with hzero | hpos
  · -- the exact product is an integer
    have hk : q * n = (a * n / 10000 : ℕ) := by
      rw [hdiv, hzero, Nat.cast_zero, zero_div, add_zero]
    rw [toDouble_product_of_eq h hn (by omega) hk, hk]
  · -- it is at least a ten-thousandth away from the integers on both sides
    have hlt : a * n % 10000 ≤ 9999 := by omega
    have hlo : (1 : ℚ) ≤ (a * n % 10000 : ℕ) := by exact_mod_cast hpos
    have hhi : ((a * n % 10000 : ℕ) : ℚ) ≤ 9999 := by exact_mod_cast hlt
    have habs := abs_lt.mp (abs_product_sub_lt h hn hle)
    rw [hdiv] at habs
    have hfloor : ⌊q * n⌋₊ = a * n / 10000 := by
      rw [Nat.floor_eq_iff (by rw [hdiv]; positivity), hdiv]
      constructor <;> linarith
    have hfloor' : ⌊toDouble (toDouble q * n)⌋₊ = a * n / 10000 := by
      rw [Nat.floor_eq_iff (by linarith [habs.1, (Nat.cast_nonneg (a * n / 10000) : (0 : ℚ) ≤ _)])]
      constructor <;> linarith
    rw [hfloor, hfloor']

/-- **The place of a percentile** is the exact one, for up to `2 ^ 39` samples. -/
theorem percentileIdx_eq {q : ℚ} (hq : q ∈ percentiles) {n : ℕ} (hn : 1 ≤ n) (hle : n ≤ 2 ^ 39) :
    percentileIdx q (UInt64.ofNat n) = ⌊q * (n - 1 : ℕ)⌋₊ := by
  have hnat : (UInt64.ofNat n - 1).toNat = n - 1 := by
    have hone : (1 : UInt64).toNat ≤ (UInt64.ofNat n).toNat := by
      rw [Word.toNat_ofNat_of_lt (by omega)]
      exact hn
    rw [Word.toNat_sub_of_le hone, Word.toNat_ofNat_of_lt (by omega)]
    rfl
  rw [percentileIdx, hnat, toDouble_natCast (by omega)]
  exact floor_product_eq (percentage_of_mem hq) (by omega)

/-! ## What is printed -/

instance instLinearOrderSample : LinearOrder UInt32 where
  le_refl := UInt32.le_refl
  le_trans _ _ _ := UInt32.le_trans
  lt_iff_le_not_ge a b := by
    simp only [UInt32.lt_iff_toNat_lt, UInt32.le_iff_toNat_le]
    omega
  le_antisymm _ _ := UInt32.le_antisymm
  le_total := UInt32.le_total
  toDecidableLE := inferInstance
  min_def _ _ := rfl
  max_def _ _ := rfl

/-- The rank of a percentile among `n` samples, counted from zero. -/
def rankOf (q : ℚ) (n : ℕ) : ℚ := q * (n - 1 : ℕ)

/-- The percentiles are exact: the place of each is that of its rank, where its sample is, none is
above the next one or above the maximum, which is the largest sample. -/
structure PrintsExact (samples : List UInt32) (shown : List UInt32) (back : UInt32) : Prop where
  places : ∀ q ∈ percentiles,
    percentileIdx q (UInt64.ofNat samples.length) = ⌊rankOf q samples.length⌋₊
  ranks : List.Forall₂ (fun q x => HasRank samples (rankOf q samples.length) x) percentiles shown
  mem : ∀ x ∈ shown, x ∈ samples
  ordered : shown.Pairwise (· ≤ ·)
  back_mem : back ∈ samples
  le_back : ∀ x ∈ samples, x ≤ back

theorem pairwise_mergeSort_samples (samples : List UInt32) :
    samples.mergeSort.Pairwise (· ≤ ·) :=
  List.pairwise_mergeSort' (· ≤ ·) samples

/-- Every read finds the sample of the rank. -/
theorem exists_reads {samples : List UInt32} (hne : samples ≠ []) (hlen : samples.length ≤ 2 ^ 39)
    {qs : List ℚ} (hqs : ∀ q ∈ qs, q ∈ percentiles) :
    ∃ shown, (qs.mapM fun q =>
        samples.mergeSort[percentileIdx q (UInt64.ofNat samples.mergeSort.length)]?) = some shown ∧
      List.Forall₂ (fun q x => HasRank samples (rankOf q samples.length) x) qs shown ∧
      ∀ x ∈ shown, x ∈ samples := by
  have hperm := List.mergeSort_perm samples fun a b => decide (a ≤ b)
  have hpos : 1 ≤ samples.length := List.length_pos_iff.mpr hne
  have hsorted := pairwise_mergeSort_samples samples
  induction qs with
  | nil => exact ⟨[], rfl, .nil, by simp⟩
  | cons q qs ih =>
    obtain ⟨shown, hshown, hranks, hmem⟩ := ih fun q' hq' => hqs q' (List.mem_cons_of_mem q hq')
    have hq : q ∈ percentiles := hqs q List.mem_cons_self
    have hidx : percentileIdx q (UInt64.ofNat samples.mergeSort.length) =
        ⌊rankOf q samples.length⌋₊ := by
      rw [List.length_mergeSort, percentileIdx_eq hq hpos hlen, rankOf]
    have hdefined := (printsDefined_iff (by omega)).mpr hne
    have hlt : ⌊rankOf q samples.length⌋₊ < samples.mergeSort.length := by
      rw [← hidx, List.length_mergeSort]
      exact hdefined.idx q hq
    have hrank : 0 ≤ rankOf q samples.length := by
      have hnonneg := (percentage_of_mem hq).nonneg
      exact mul_nonneg hnonneg (Nat.cast_nonneg _)
    refine ⟨samples.mergeSort[⌊rankOf q samples.length⌋₊] :: shown, ?_, ?_, ?_⟩
    · rw [List.mapM_cons, hshown, hidx, List.getElem?_eq_getElem hlt]
      rfl
    · exact .cons ((hasRank_getElem hsorted hlt rfl hrank).perm hperm) hranks
    · rintro x (_ | ⟨_, hx⟩)
      · exact hperm.mem_iff.mp (List.getElem_mem hlt)
      · exact hmem x hx

/-- **The percentiles that are printed are exact**, for up to `2 ^ 39` samples. -/
theorem printResult_exact {samples : List UInt32} (hne : samples ≠ [])
    (hlen : samples.length ≤ 2 ^ 39) :
    ∃ shown back, printResult samples = some (shown, back) ∧ PrintsExact samples shown back := by
  obtain ⟨shown, hshown, hranks, hmem⟩ := exists_reads hne hlen fun _ => id
  have hperm := List.mergeSort_perm samples fun a b => decide (a ≤ b)
  have hsorted := pairwise_mergeSort_samples samples
  have hne' : samples.mergeSort ≠ [] := by
    rw [← List.length_pos_iff, List.length_mergeSort]
    exact List.length_pos_iff.mpr hne
  have hpos : 1 ≤ samples.length := List.length_pos_iff.mpr hne
  refine ⟨shown, samples.mergeSort.getLast hne', ?_,
    fun q hq => percentileIdx_eq hq hpos hlen, hranks, hmem, ?_, ?_, ?_⟩
  · simp only [printResult, hshown, List.getLast?_eq_some_getLast hne']
    rfl
  · refine HasRank.pairwise (List.forall₂_map_left_iff.mpr hranks) ?_
    refine List.Pairwise.map _ (fun q q' h => ?_) pairwise_percentiles
    exact mul_le_mul_of_nonneg_right h (Nat.cast_nonneg _)
  · exact hperm.mem_iff.mp (List.getLast_mem hne')
  · exact fun x hx => le_getLast hsorted hne' (hperm.mem_iff.mpr hx)

/-- Seven samples: the median is the fourth, and the other percentiles are the last but one. -/
theorem printResult_exact_seven : ∃ shown back,
    printResult [120, 95, 3000, 101, 99, 100, 250] = some (shown, back) ∧
      PrintsExact [120, 95, 3000, 101, 99, 100, 250] shown back :=
  printResult_exact (by decide) (by decide)

end LmaxBench.Cpp
