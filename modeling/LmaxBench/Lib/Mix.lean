import Mathlib.Data.Finite.Defs
import Mathlib.Data.Fintype.EquivFin
import LmaxBench.Lib.Word

/-!
# Mixing words

The steps a mixing function of words is made of lose nothing: a right shift is undone from
the high bits down, a multiplier with an inverse by the inverse. A fold whose step loses
nothing of the accumulator keeps any difference between two accumulators.

## Main definitions

* `Word.xorShift_injective`, `Word.mul_injective` — the two steps.
* `Fold.injective`, `Fold.ne_of_set` — a difference lasts to the end of the fold.
-/

namespace LmaxBench

namespace Word

instance finite_uInt64 : Finite UInt64 :=
  Finite.of_injective UInt64.toFin fun _ _ h => UInt64.toFin_inj.mp h

/-- A word without a bit that a shift can move is zero. -/
theorem eq_zero_of_shiftRight_eq {d s : UInt64} (hs : 0 < s.toNat % 64) (h : d >>> s = d) :
    d = 0 := by
  have hnat : d.toNat / 2 ^ (s.toNat % 64) = d.toNat := by
    rw [← Nat.shiftRight_eq_div_pow, ← UInt64.toNat_shiftRight, h]
  have hpow : 1 < 2 ^ (s.toNat % 64) := Nat.one_lt_two_pow (by omega)
  rcases Nat.eq_zero_or_pos d.toNat with hzero | hpos
  · exact eq_of_toNat hzero
  · exact absurd hnat (Nat.div_lt_self hpos hpow).ne

theorem xorShift_injective {s : UInt64} (hs : 0 < s.toNat % 64) :
    Function.Injective fun z : UInt64 => z ^^^ (z >>> s) := by
  intro x y h
  -- the difference of `x` and `y` equals its own shift
  have hdiff : (x ^^^ y) >>> s = x ^^^ y := by
    rw [UInt64.shiftRight_xor, ← UInt64.xor_eq_zero_iff]
    have hzero := UInt64.xor_eq_zero_iff.mpr h
    dsimp only at hzero
    rw [← hzero]
    ac_rfl
  exact UInt64.xor_eq_zero_iff.mp (eq_zero_of_shiftRight_eq hs hdiff)

theorem mul_injective (m inv : UInt64) (h : m * inv = 1) :
    Function.Injective fun z : UInt64 => z * m := by
  intro x y heq
  have hmul : x * m * inv = y * m * inv := congrArg (· * inv) heq
  rw [UInt64.mul_assoc, UInt64.mul_assoc, h, UInt64.mul_one, UInt64.mul_one] at hmul
  exact hmul

end Word

namespace Fold
variable {α : Type*} {β : Type*} {f : β → α → β}

theorem injective (hf : ∀ a, Function.Injective fun b => f b a) (l : List α) :
    Function.Injective fun b => l.foldl f b := by
  induction l with
  | nil => exact Function.injective_id
  | cons a l ih => exact ih.comp (hf a)

/-- Two lists that agree but for one place. -/
theorem eq_set {l l' : List α} {i : ℕ} {a' : α} (ha' : l'[i]? = some a')
    (hlen : l.length = l'.length) (h : ∀ j, j ≠ i → l[j]? = l'[j]?) : l' = l.set i a' := by
  have hlt : i < l.length := by
    rw [hlen]
    exact (List.getElem?_eq_some_iff.mp ha').1
  refine List.ext_getElem? ?_
  intro j
  by_cases hj : j = i
  · rw [hj, ha', List.getElem?_set_self hlt]
  · rw [List.getElem?_set_ne (Ne.symm hj), h j hj]

/-- **A difference lasts**: what the fold reads after it cannot mask it. -/
theorem ne_of_set (hf : ∀ a, Function.Injective fun b => f b a) {l : List α} {i : ℕ} {a a' : α}
    (ha : l[i]? = some a) (hne : ∀ b, f b a ≠ f b a') (b : β) :
    l.foldl f b ≠ (l.set i a').foldl f b := by
  obtain ⟨hlt, rfl⟩ := List.getElem?_eq_some_iff.mp ha
  have hsplit : l = l.take i ++ l[i] :: l.drop (i + 1) := by simp
  have hset := List.set_eq_take_append_cons_drop (l := l) (i := i) (a := a')
  rw [if_pos hlt] at hset
  intro heq
  rw [hset] at heq
  nth_rewrite 1 [hsplit] at heq
  rw [List.foldl_append, List.foldl_append] at heq
  exact hne _ (injective hf _ heq)

end Fold
end LmaxBench
