import LmaxBench.Cpp.Checksum
import LmaxBench.Cpp.Stream
import LmaxBench.Lib.Window
import Mathlib.Data.Finset.Card

/-!
# The orbit of the generator

The state of the generator goes round all words, by an odd increment, so that the streams of
all seeds are one orbit that they enter at different places: the word drawn at step `k + n`
from one seed is drawn at step `n` from another. Over the orbit every word is drawn once, and
85 in 100 words make a limit. Hence some seed starts a stretch of any given length with at
least as many limits, and one that is followed by a cancel.

## Main definitions

* `Gen.draw`, `Gen.DrawsLimit` — the word drawn at a step, and whether it makes a limit.
* `Gen.draw_shift`, `Gen.draw_period` — the orbit.
* `Gen.Cycle`, `Gen.cycle` — its length, and where the seeds enter it.
* `Gen.lastId_after_eq` — the last id is the number of limits drawn.
* `Gen.exists_limits`, `Gen.exists_limits_cancel` — seeds with many limits early on.
-/

namespace LmaxBench.Cpp
namespace Gen

/-- The increment of the state. -/
def gamma : UInt64 := 0x9E3779B97F4A7C15

/-- The word drawn at step `n`. -/
def draw (seed : UInt64) (n : ℕ) : UInt64 := ((new seed).after n).rng.next.1

/-- The word drawn at step `n` makes a limit. -/
def DrawsLimit (seed : UInt64) (n : ℕ) : Prop := draw seed n % 100 < 85

instance (seed : UInt64) : DecidablePred (DrawsLimit seed) :=
  fun n => inferInstanceAs (Decidable (draw seed n % 100 < 85))

@[simp] theorem rng_nextOp (g : Gen) : g.nextOp.rng.state = g.rng.state + gamma := by
  simp only [nextOp]
  split <;> rfl

@[simp] theorem rng_after (seed : UInt64) (n : ℕ) :
    ((new seed).after n).rng.state = seed + UInt64.ofNat n * gamma := by
  induction n with
  | zero => simp [after, new]
  | succ n ih =>
    rw [after_succ, rng_nextOp, ih, Word.ofNat_succ, UInt64.add_mul, UInt64.one_mul,
      UInt64.add_assoc]

theorem draw_eq (seed : UInt64) (n : ℕ) :
    draw seed n = (SplitMix64.mk (seed + UInt64.ofNat n * gamma)).next.1 := by
  rw [draw, ← rng_after]

/-- The stream of another seed, from step `k` on. -/
@[simp] theorem draw_shift (seed : UInt64) (k n : ℕ) :
    draw (seed + UInt64.ofNat k * gamma) n = draw seed (k + n) := by
  rw [draw_eq, draw_eq, UInt64.ofNat_add, UInt64.add_mul, UInt64.add_assoc]

@[simp] theorem draw_period (seed : UInt64) (n : ℕ) : draw seed (n + 2 ^ 64) = draw seed n := by
  have hwrap : UInt64.ofNat (n + 2 ^ 64) = UInt64.ofNat n := by
    refine Word.eq_of_toNat ?_
    rw [UInt64.toNat_ofNat', UInt64.toNat_ofNat', Nat.add_mod_right]
  rw [draw_eq, draw_eq, hwrap]

/-- Every word is drawn within a period. -/
theorem exists_draw (seed w : UInt64) : ∃ n < 2 ^ 64, draw seed n = w := by
  obtain ⟨s, hs⟩ := SplitMix64.next_bijective.surjective w
  have hinv : (0xF1DE83E19937733D : UInt64) * gamma = 1 := by decide
  refine ⟨((s - seed) * 0xF1DE83E19937733D).toNat, UInt64.toNat_lt _, ?_⟩
  rw [draw_eq, UInt64.ofNat_toNat, UInt64.mul_assoc, hinv, UInt64.mul_one, UInt64.add_comm,
    UInt64.sub_add_cancel]
  exact hs

/-! ## The period -/

theorem ofNat_inj_mod {m n : ℕ} : UInt64.ofNat m = UInt64.ofNat n ↔ m % 2 ^ 64 = n % 2 ^ 64 := by
  rw [← UInt64.toNat_inj, UInt64.toNat_ofNat', UInt64.toNat_ofNat']

/-- Two steps draw the same word only if they are a number of periods apart. -/
@[simp] theorem draw_eq_iff (seed : UInt64) (m n : ℕ) :
    draw seed m = draw seed n ↔ m % 2 ^ 64 = n % 2 ^ 64 := by
  rw [← ofNat_inj_mod]
  constructor
  · intro h
    rw [draw_eq, draw_eq] at h
    have hstate := SplitMix64.next_bijective.injective h
    have hmul := (UInt64.add_right_inj seed).mp hstate
    exact Word.mul_injective gamma 0xF1DE83E19937733D (by decide) hmul
  · intro h
    rw [draw_eq, draw_eq, h]

/-- The draws of a seed. -/
structure Cycle (seed : UInt64) : Prop where
  /-- Within a period, every word is drawn at one step. -/
  once : ∀ w, ∃! n, n < 2 ^ 64 ∧ draw seed n = w
  /-- The period is not shorter. -/
  again : ∀ m n, draw seed m = draw seed n ↔ m % 2 ^ 64 = n % 2 ^ 64
  /-- Every other seed enters the same cycle, at one step of its own. -/
  enters : ∀ seed', ∃! k, k < 2 ^ 64 ∧ ∀ n, draw seed' n = draw seed (k + n)

/-- **The draws of all seeds are one cycle through all words.** -/
theorem cycle (seed : UInt64) : Cycle seed := by
  have hunique : ∀ {m n}, m < 2 ^ 64 → n < 2 ^ 64 → draw seed m = draw seed n → m = n := by
    intro m n hm hn h
    have hmod := (draw_eq_iff seed m n).mp h
    rwa [Nat.mod_eq_of_lt hm, Nat.mod_eq_of_lt hn] at hmod
  refine ⟨fun w => ?_, draw_eq_iff seed, fun seed' => ?_⟩
  · obtain ⟨n, hn, hw⟩ := exists_draw seed w
    exact ⟨n, ⟨hn, hw⟩, fun m hm => hunique hm.1 hn (hm.2.trans hw.symm)⟩
  · have hinv : (0xF1DE83E19937733D : UInt64) * gamma = 1 := by decide
    have hseed : seed' =
        seed + UInt64.ofNat ((seed' - seed) * 0xF1DE83E19937733D).toNat * gamma := by
      rw [UInt64.ofNat_toNat, UInt64.mul_assoc, hinv, UInt64.mul_one, UInt64.add_comm,
        UInt64.sub_add_cancel]
    have hshift : ∀ n, draw seed' n =
        draw seed (((seed' - seed) * 0xF1DE83E19937733D).toNat + n) := by
      intro n
      rw [← draw_shift, ← hseed]
    refine ⟨((seed' - seed) * 0xF1DE83E19937733D).toNat, ⟨UInt64.toNat_lt _, hshift⟩, ?_⟩
    intro k hk
    have hfirst := hk.2 0
    rw [hshift 0, Nat.add_zero, Nat.add_zero] at hfirst
    exact hunique hk.1 (UInt64.toNat_lt _) hfirst.symm

/-! ## Limits and cancels -/

theorem lastId_after_succ (seed : UInt64) (n : ℕ) :
    ((new seed).after (n + 1)).lastId =
      if DrawsLimit seed n then ((new seed).after n).lastId + 1
      else ((new seed).after n).lastId := by
  rw [after_succ, nextOp]
  by_cases h : DrawsLimit seed n
  · rw [if_pos h]
    simp only [DrawsLimit, draw] at h
    simp only [if_pos h]
  · rw [if_neg h]
    simp only [DrawsLimit, draw] at h
    simp only [if_neg h]

/-- **The last id is the number of limits drawn.** -/
theorem lastId_after_eq (seed : UInt64) {n : ℕ} (hn : n < 2 ^ 64) :
    ((new seed).after n).lastId.toNat = Nat.count (DrawsLimit seed) n := by
  induction n with
  | zero => simp [after, new]
  | succ n ih =>
    have hlast := ih (by omega)
    have hle := (issued_after seed (n := n) (by omega)).lastId_le
    rw [lastId_after_succ, Nat.count_succ, ← hlast]
    by_cases h : DrawsLimit seed n
    · rw [if_pos h, if_pos h, Word.toNat_add_one (by omega)]
    · rw [if_neg h, if_neg h, Nat.add_zero]

/-- A word that makes no limit makes a cancel of one of the last ids. -/
theorem op_of_not_drawsLimit {seed : UInt64} {n : ℕ} (h : ¬DrawsLimit seed n)
    (hlast : 5000 ≤ ((new seed).after n).lastId.toNat) :
    ∃ id, ((new seed).after (n + 1)).op = .cancel id ∧
      ((new seed).after n).lastId.toNat < id.toNat + 5000 ∧
      id.toNat ≤ ((new seed).after n).lastId.toNat := by
  have hback := toNat_mod_lt (draw seed n >>> 16) (n := 5000) (by decide)
  have hlt : ((new seed).after n).lastId > draw seed n >>> 16 % 5000 := by
    rw [gt_iff_lt, UInt64.lt_iff_toNat_lt]
    simp only [UInt64.reduceToNat] at hback
    omega
  refine ⟨((new seed).after n).lastId - draw seed n >>> 16 % 5000, ?_, ?_, ?_⟩
  · rw [after_succ, nextOp]
    rw [DrawsLimit, draw] at h
    rw [draw] at hlt ⊢
    simp only [if_neg h, if_pos hlt]
    rfl
  · rw [UInt64.toNat_sub_of_le _ _ hlt.le]
    simp only [UInt64.reduceToNat] at hback
    omega
  · rw [UInt64.toNat_sub_of_le _ _ hlt.le]
    omega

/-! ## Density -/

@[simp] theorem drawsLimit_shift (seed : UInt64) (k n : ℕ) :
    DrawsLimit (seed + UInt64.ofNat k * gamma) n ↔ DrawsLimit seed (k + n) := by
  simp [DrawsLimit]

@[simp] theorem drawsLimit_period (seed : UInt64) (n : ℕ) :
    DrawsLimit seed (n + 2 ^ 64) ↔ DrawsLimit seed n := by
  rw [DrawsLimit, DrawsLimit, draw_period]

@[simp] theorem count_shift (seed : UInt64) (k w : ℕ) :
    Nat.count (DrawsLimit (seed + UInt64.ofNat k * gamma)) w =
      Window.hits (DrawsLimit seed) k w := by
  simp only [Window.hits, ← drawsLimit_shift]

/-- The words below `2 ^ 64` that make a limit. -/
theorem count_residues : 85 * 2 ^ 64 ≤ 100 * Nat.count (fun x => x % 100 < 85) (2 ^ 64) := by
  have hperiod : ∀ i, (i + 100) % 100 < 85 ↔ i % 100 < 85 := by
    intro i
    rw [Nat.add_mod_right]
  have hblock : Nat.count (fun x => x % 100 < 85) 100 = 85 := by decide
  have hrest : Window.hits (fun x => x % 100 < 85) (184467440737095516 * 100) 16 = 16 := by
    rw [Window.hits, Nat.count_iff_forall]
    omega
  have hsplit : 2 ^ 64 = 184467440737095516 * 100 + 16 := by norm_num
  rw [hsplit, Window.count_add, Window.count_mul_period hperiod, hblock, hrest]
  decide

/-- Over a period, 85 in 100 draws make a limit. -/
theorem count_period (seed : UInt64) :
    85 * 2 ^ 64 ≤ 100 * Nat.count (DrawsLimit seed) (2 ^ 64) := by
  refine count_residues.trans (Nat.mul_le_mul_left 100 ?_)
  rw [Nat.count_eq_card_filter_range, Nat.count_eq_card_filter_range]
  refine Finset.card_le_card_of_surjOn (fun n => (draw seed n).toNat) ?_
  intro x hx
  obtain ⟨hlt, hlimit⟩ := Finset.mem_filter.mp hx
  have hword : (UInt64.ofNat x).toNat = x := Word.toNat_ofNat_of_lt (Finset.mem_range.mp hlt)
  obtain ⟨n, hn, hdraw⟩ := exists_draw seed (UInt64.ofNat x)
  refine ⟨n, Finset.mem_filter.mpr ⟨Finset.mem_range.mpr hn, ?_⟩, ?_⟩
  · rw [DrawsLimit, hdraw, UInt64.lt_iff_toNat_lt, UInt64.toNat_mod, hword]
    exact hlimit
  · simp only [hdraw, hword]

/-- **Some seed starts with as many limits as the orbit has on average.** -/
theorem exists_limits (w : ℕ) : ∃ seed, 85 * w ≤ 100 * Nat.count (DrawsLimit seed) w := by
  obtain ⟨k, hk⟩ := Window.exists_dense (Nat.two_pow_pos 64) (drawsLimit_period 0) w
  refine ⟨0 + UInt64.ofNat k * gamma, ?_⟩
  rw [count_shift]
  have hperiod := Nat.mul_le_mul_left w (count_period 0)
  refine Nat.le_of_mul_le_mul_left ?_ (Nat.two_pow_pos 64)
  calc 2 ^ 64 * (85 * w) = w * (85 * 2 ^ 64) := by ring
    _ ≤ w * (100 * Nat.count (DrawsLimit 0) (2 ^ 64)) := hperiod
    _ = 100 * (w * Nat.count (DrawsLimit 0) (2 ^ 64)) := by ring
    _ ≤ 100 * (2 ^ 64 * Window.hits (DrawsLimit 0) k w) := Nat.mul_le_mul_left 100 hk
    _ = 2 ^ 64 * (100 * Window.hits (DrawsLimit 0) k w) := by ring

/-- So does some seed whose next draw makes a cancel. -/
theorem exists_limits_cancel (w : ℕ) :
    ∃ seed, 85 * w ≤ 100 * Nat.count (DrawsLimit seed) w ∧ ¬DrawsLimit seed w := by
  obtain ⟨seed, hseed⟩ := exists_limits w
  obtain ⟨n, -, hn⟩ := exists_draw seed 99
  have hmiss : ∀ m, ¬DrawsLimit seed (n + m * 2 ^ 64) := by
    intro m
    induction m with
    | zero =>
      rw [Nat.zero_mul, Nat.add_zero, DrawsLimit, hn]
      decide
    | succ m ih => rwa [Nat.succ_mul, ← Nat.add_assoc, drawsLimit_period]
  have hafter : 0 + w ≤ n + w * 2 ^ 64 := by omega
  obtain ⟨k, hle, hk⟩ := Window.exists_before_miss hafter (hmiss w)
  rw [Window.hits_zero] at hle
  refine ⟨seed + UInt64.ofNat k * gamma, ?_, (drawsLimit_shift seed k w).not.mpr hk⟩
  rw [count_shift]
  exact hseed.trans (Nat.mul_le_mul_left 100 hle)

end Gen
end LmaxBench.Cpp
