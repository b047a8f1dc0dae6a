import Mathlib.Algebra.BigOperators.Group.List.Basic
import Mathlib.Algebra.Order.Ring.Int
import Mathlib.Algebra.Ring.Int.Defs
import Mathlib.Data.Int.Order.Basic
import Mathlib.Tactic.TypeStar

/-!
# Greedy allocation from a queue

A demand `q` is met from the front of a queue of items with integer amounts. Items are
used up in turn; the last one touched may be used in part, and then stays in front with
its amount reduced.

`fills`, `left` and `residual` are what is taken, what stays, and what part of the
demand is not met. Each of them passes over a concatenation: the second queue meets
what the first one leaves unmet.

## Main definitions

* `fills amount q l`, `left amount reduce q l`, `residual amount q l`.
* `fills_append`, `left_append`, `residual_append` — concatenation.
* `fills_resume`, `left_resume` — stopping anywhere and starting over changes nothing.
* `Split`, `exists_split` — the queue divides into used up, touched and untouched.
* `fills_scale`, `left_scale`, `residual_scale` — other items, in other units.
* `fills_filter`, `left_filter`, `residual_filter` — items that are not reached may be taken out.
-/

namespace LmaxBench.Greedy

variable {α : Type*} (amount : α → ℤ) (reduce : α → ℤ → α)

/-- The items taken from, each with the amount taken. -/
def fills (q : ℤ) : List α → List (α × ℤ)
  | [] => []
  | a :: l => if 0 < q then (a, min q (amount a)) :: fills (q - min q (amount a)) l else []

/-- What stays in the queue. -/
def left (q : ℤ) : List α → List α
  | [] => []
  | a :: l =>
    if 0 < q then if amount a ≤ q then left (q - amount a) l else reduce a q :: l else a :: l

/-- The part of the demand that is not met. -/
def residual (q : ℤ) : List α → ℤ
  | [] => q
  | a :: l => if 0 < q then residual (q - min q (amount a)) l else q

/-- The total of a queue. -/
def total (l : List α) : ℤ := (l.map amount).sum

@[simp] theorem total_nil : total amount [] = 0 := rfl

@[simp] theorem total_cons (a : α) (l : List α) :
    total amount (a :: l) = amount a + total amount l :=
  List.sum_cons

theorem total_nonneg {l : List α} (h : ∀ a ∈ l, 0 < amount a) : 0 ≤ total amount l := by
  induction l with
  | nil => exact le_rfl
  | cons a l ih =>
    have ha := h a List.mem_cons_self
    have hl := ih fun b hb => h b (List.mem_cons_of_mem _ hb)
    rw [total_cons]
    omega

variable {amount reduce}

/-! ## No demand -/

@[simp] theorem fills_of_nonpos {q : ℤ} (hq : q ≤ 0) (l : List α) : fills amount q l = [] := by
  cases l with
  | nil => rfl
  | cons a l => exact if_neg (not_lt.mpr hq)

@[simp] theorem left_of_nonpos {q : ℤ} (hq : q ≤ 0) (l : List α) : left amount reduce q l = l := by
  cases l with
  | nil => rfl
  | cons a l => exact if_neg (not_lt.mpr hq)

@[simp] theorem residual_of_nonpos {q : ℤ} (hq : q ≤ 0) (l : List α) : residual amount q l = q := by
  cases l with
  | nil => rfl
  | cons a l => exact if_neg (not_lt.mpr hq)

/-! ## The first item -/

theorem left_of_le {q : ℤ} (hq : 0 < q) {a : α} (h : amount a ≤ q) (l : List α) :
    left amount reduce q (a :: l) = left amount reduce (q - amount a) l := by
  simp only [left, hq, h, if_true]

theorem left_of_lt {q : ℤ} (hq : 0 < q) {a : α} (h : q < amount a) (l : List α) :
    left amount reduce q (a :: l) = reduce a q :: l := by
  simp only [left, hq, not_le.mpr h, if_true, if_false]

theorem fills_cons {q : ℤ} (hq : 0 < q) (a : α) (l : List α) :
    fills amount q (a :: l) = (a, min q (amount a)) :: fills amount (q - min q (amount a)) l :=
  if_pos hq

theorem residual_cons {q : ℤ} (hq : 0 < q) (a : α) (l : List α) :
    residual amount q (a :: l) = residual amount (q - min q (amount a)) l :=
  if_pos hq

/-! ## Concatenation -/

@[simp] theorem fills_append (q : ℤ) (l l' : List α) :
    fills amount q (l ++ l') = fills amount q l ++ fills amount (residual amount q l) l' := by
  induction l generalizing q with
  | nil => rfl
  | cons a l ih =>
    rcases le_or_gt q 0 with hq | hq
    · simp only [fills_of_nonpos hq, residual_of_nonpos hq, List.nil_append]
    · rw [List.cons_append, fills_cons hq, fills_cons hq, residual_cons hq, ih, List.cons_append]

@[simp] theorem residual_append (q : ℤ) (l l' : List α) :
    residual amount q (l ++ l') = residual amount (residual amount q l) l' := by
  induction l generalizing q with
  | nil => rfl
  | cons a l ih =>
    rcases le_or_gt q 0 with hq | hq
    · simp only [residual_of_nonpos hq]
    · rw [List.cons_append, residual_cons hq, residual_cons hq, ih]

@[simp] theorem left_append (q : ℤ) (l l' : List α) :
    left amount reduce q (l ++ l') =
      left amount reduce q l ++ left amount reduce (residual amount q l) l' := by
  induction l generalizing q with
  | nil => rfl
  | cons a l ih =>
    rcases le_or_gt q 0 with hq | hq
    · simp only [left_of_nonpos hq, residual_of_nonpos hq]
    · rw [List.cons_append, residual_cons hq]
      rcases le_or_gt (amount a) q with hle | hlt
      · rw [left_of_le hq hle, left_of_le hq hle, min_eq_right hle, ih]
      · have hz : q - min q (amount a) ≤ 0 := by rw [min_eq_left hlt.le, sub_self]
        rw [left_of_lt hq hlt, left_of_lt hq hlt, residual_of_nonpos hz, left_of_nonpos hz,
          List.cons_append]

/-- A demand that is not met uses the queue up. -/
theorem left_eq_nil {q : ℤ} {l : List α} (h : 0 < residual amount q l) :
    left amount reduce q l = [] := by
  induction l generalizing q with
  | nil => rfl
  | cons a l ih =>
    rcases le_or_gt q 0 with hq | hq
    · rw [residual_of_nonpos hq] at h
      omega
    · rw [residual_cons hq] at h
      rcases le_or_gt (amount a) q with hle | hlt
      · rw [min_eq_right hle] at h
        rw [left_of_le hq hle, ih h]
      · have hz : q - min q (amount a) ≤ 0 := by rw [min_eq_left hlt.le, sub_self]
        rw [residual_of_nonpos hz] at h
        omega

/-! ## Starting over -/

@[simp] theorem fills_resume (q : ℤ) (l l' : List α) :
    fills amount (residual amount q l) (left amount reduce q l ++ l') =
      fills amount (residual amount q l) l' := by
  rcases le_or_gt (residual amount q l) 0 with hq | hq
  · simp [hq]
  · rw [left_eq_nil hq, List.nil_append]

@[simp] theorem residual_resume (q : ℤ) (l l' : List α) :
    residual amount (residual amount q l) (left amount reduce q l ++ l') =
      residual amount (residual amount q l) l' := by
  rcases le_or_gt (residual amount q l) 0 with hq | hq
  · simp [hq]
  · rw [left_eq_nil hq, List.nil_append]

@[simp] theorem left_resume (q : ℤ) (l l' : List α) :
    left amount reduce (residual amount q l) (left amount reduce q l ++ l') =
      left amount reduce q l ++ left amount reduce (residual amount q l) l' := by
  rcases le_or_gt (residual amount q l) 0 with hq | hq
  · simp [hq]
  · rw [left_eq_nil hq, List.nil_append, List.nil_append]

/-- What stays is an item of the queue, or a reduced one. -/
theorem left_forall {P : α → Prop} (hreduce : ∀ a m, P a → P (reduce a m)) {q : ℤ} {l : List α}
    (h : ∀ a ∈ l, P a) : ∀ a ∈ left amount reduce q l, P a := by
  induction l generalizing q with
  | nil => exact h
  | cons b l ih =>
    have hl : ∀ a ∈ l, P a := fun a ha => h a (List.mem_cons_of_mem _ ha)
    rcases le_or_gt q 0 with hq | hq
    · rw [left_of_nonpos hq]
      exact h
    · rcases le_or_gt (amount b) q with hle | hlt
      · rw [left_of_le hq hle]
        exact ih hl
      · rw [left_of_lt hq hlt]
        intro a ha
        rcases List.mem_cons.mp ha with rfl | ha
        · exact hreduce _ _ (h _ List.mem_cons_self)
        · exact hl a ha

/-! ## Other units -/

section Scale
variable {β : Type*} {amount' : β → ℤ} {reduce' : β → ℤ → β} {f : α → β} {k : ℤ}

theorem fills_scale (hk : 0 < k) (hf : ∀ a, amount' (f a) = k * amount a) (q : ℤ) (l : List α) :
    fills amount' (k * q) (l.map f) = (fills amount q l).map fun e => (f e.1, k * e.2) := by
  induction l generalizing q with
  | nil => rfl
  | cons a l ih =>
    rcases le_or_gt q 0 with hq | hq
    · rw [fills_of_nonpos hq, fills_of_nonpos (mul_nonpos_of_nonneg_of_nonpos hk.le hq),
        List.map_nil]
    · rw [List.map_cons, fills_cons (mul_pos hk hq), fills_cons hq, hf,
        ← mul_min_of_nonneg _ _ hk.le, ← mul_sub, ih, List.map_cons]

theorem residual_scale (hk : 0 < k) (hf : ∀ a, amount' (f a) = k * amount a) (q : ℤ) (l : List α) :
    residual amount' (k * q) (l.map f) = k * residual amount q l := by
  induction l generalizing q with
  | nil => rfl
  | cons a l ih =>
    rcases le_or_gt q 0 with hq | hq
    · rw [residual_of_nonpos hq, residual_of_nonpos (mul_nonpos_of_nonneg_of_nonpos hk.le hq)]
    · rw [List.map_cons, residual_cons (mul_pos hk hq), residual_cons hq, hf,
        ← mul_min_of_nonneg _ _ hk.le, ← mul_sub, ih]

theorem left_scale (hk : 0 < k) (hf : ∀ a, amount' (f a) = k * amount a)
    (hreduce : ∀ a m, reduce' (f a) (k * m) = f (reduce a m)) (q : ℤ) (l : List α) :
    left amount' reduce' (k * q) (l.map f) = (left amount reduce q l).map f := by
  induction l generalizing q with
  | nil => rfl
  | cons a l ih =>
    rcases le_or_gt q 0 with hq | hq
    · rw [left_of_nonpos hq, left_of_nonpos (mul_nonpos_of_nonneg_of_nonpos hk.le hq)]
    rcases le_or_gt (amount a) q with hle | hlt
    · have hle' : amount' (f a) ≤ k * q := by
        rw [hf]
        exact mul_le_mul_of_nonneg_left hle hk.le
      rw [List.map_cons, left_of_le (mul_pos hk hq) hle', left_of_le hq hle, hf, ← mul_sub, ih]
    · have hlt' : k * q < amount' (f a) := by
        rw [hf]
        exact mul_lt_mul_of_pos_left hlt hk
      rw [List.map_cons, left_of_lt (mul_pos hk hq) hlt', left_of_lt hq hlt, hreduce, List.map_cons]

end Scale

/-! ## The greedy prefix -/

/-- How a demand `q > 0` divides the queue `l`: `full` is used up, `part` is the item
touched in part, if there is one, and `rest` is not touched. -/
structure Split (amount : α → ℤ) (reduce : α → ℤ → α) (q : ℤ) (l full : List α) (part : Option α)
    (rest : List α) : Prop where
  queue : l = full ++ part.toList ++ rest
  fills_eq : fills amount q l =
    full.map (fun a => (a, amount a)) ++ part.toList.map fun a => (a, q - total amount full)
  left_eq : left amount reduce q l =
    part.toList.map (fun a => reduce a (q - total amount full)) ++ rest
  residual_eq : residual amount q l = q - min q (total amount l)
  part_lt : ∀ a ∈ part, 0 < q - total amount full ∧ q - total amount full < amount a
  stop : part = none → rest ≠ [] → total amount full = q

/-- **Every queue of positive amounts divides so.** -/
theorem exists_split (reduce : α → ℤ → α) {q : ℤ} (hq : 0 ≤ q) {l : List α}
    (hl : ∀ a ∈ l, 0 < amount a) :
    ∃ full part rest, Split amount reduce q l full part rest := by
  induction l generalizing q with
  | nil =>
    exact ⟨[], none, [], rfl, rfl, rfl, by simp [residual, min_eq_right hq], by simp, by simp⟩
  | cons a l ih =>
    have ha := hl a List.mem_cons_self
    have htail : ∀ b ∈ l, 0 < amount b := fun b hb => hl b (List.mem_cons_of_mem _ hb)
    have hnonneg := total_nonneg amount htail
    rcases hq.eq_or_lt with rfl | hq
    · -- the demand is met, nothing more is touched
      refine ⟨[], none, a :: l, rfl, ?_, ?_, ?_, by simp, by simp⟩
      · rw [fills_of_nonpos le_rfl]
        rfl
      · rw [left_of_nonpos le_rfl]
        rfl
      · rw [residual_of_nonpos le_rfl, total_cons]
        omega
    rcases le_or_gt (amount a) q with hle | hlt
    · -- the first item is used up
      have hnext : 0 ≤ q - amount a := by omega
      rcases ih hnext htail with ⟨full, part, rest, h⟩
      refine ⟨a :: full, part, rest, ?_, ?_, ?_, ?_, ?_, ?_⟩
      · rw [h.queue]
        rfl
      · rw [fills_cons hq, min_eq_right hle, h.fills_eq, total_cons, sub_sub]
        rfl
      · simp [left_of_le hq hle, h.left_eq, sub_sub]
      · rw [residual_cons hq, min_eq_right hle, h.residual_eq, total_cons]
        omega
      · intro b hb
        have := h.part_lt b hb
        rw [total_cons]
        omega
      · intro hpart hrest
        have := h.stop hpart hrest
        rw [total_cons]
        omega
    · -- the first item meets the demand in part
      have hz : q - min q (amount a) ≤ 0 := by rw [min_eq_left hlt.le, sub_self]
      refine ⟨[], some a, l, rfl, ?_, ?_, ?_, ?_, by simp⟩
      · rw [fills_cons hq, fills_of_nonpos hz, min_eq_left hlt.le]
        simp
      · rw [left_of_lt hq hlt]
        simp
      · rw [residual_cons hq, residual_of_nonpos hz, total_cons]
        omega
      · intro b hb
        obtain rfl := Option.mem_some.mp hb
        simpa using ⟨hq, hlt⟩

/-- What is not met is what is not taken. -/
theorem residual_eq_sub (q : ℤ) (l : List α) :
    residual amount q l = q - ((fills amount q l).map Prod.snd).sum := by
  induction l generalizing q with
  | nil => simp [residual, fills]
  | cons a l ih =>
    rcases le_or_gt q 0 with hq | hq
    · simp [hq]
    · rw [residual_cons hq, fills_cons hq, ih, List.map_cons, List.sum_cons]
      omega

/-- The amounts taken add up to what the queue can give. -/
theorem sum_fills {q : ℤ} (hq : 0 ≤ q) {l : List α} (hl : ∀ a ∈ l, 0 < amount a) :
    ((fills amount q l).map Prod.snd).sum = min q (total amount l) := by
  induction l generalizing q with
  | nil => simp [fills, min_eq_right hq]
  | cons a l ih =>
    have ha := hl a List.mem_cons_self
    have htail : ∀ b ∈ l, 0 < amount b := fun b hb => hl b (List.mem_cons_of_mem _ hb)
    have hnonneg := total_nonneg amount htail
    rcases hq.eq_or_lt with rfl | hq
    · rw [fills_of_nonpos le_rfl, total_cons, List.map_nil, List.sum_nil]
      omega
    · rw [fills_cons hq, List.map_cons, List.sum_cons, ih (by omega) htail, total_cons]
      omega

/-! ## Items that are not reached -/

section Filter
variable {P : α → Prop}

theorem forall_fills_tail {q : ℤ} (hq : 0 < q) {a : α} {l : List α}
    (h : ∀ f ∈ fills amount q (a :: l), P f.1) :
    P a ∧ ∀ f ∈ fills amount (q - min q (amount a)) l, P f.1 := by
  rw [fills_cons hq] at h
  exact ⟨h _ List.mem_cons_self, fun f hf => h f (List.mem_cons_of_mem _ hf)⟩

variable [DecidablePred P]

theorem fills_filter {q : ℤ} {l : List α} (h : ∀ f ∈ fills amount q l, P f.1) :
    fills amount q (l.filter P) = fills amount q l := by
  induction l generalizing q with
  | nil => rfl
  | cons a l ih =>
    rcases le_or_gt q 0 with hq | hq
    · simp [hq]
    · obtain ⟨ha, hl⟩ := forall_fills_tail hq h
      rw [List.filter_cons_of_pos (by simpa using ha), fills_cons hq, fills_cons hq, ih hl]

theorem residual_filter {q : ℤ} {l : List α} (h : ∀ f ∈ fills amount q l, P f.1) :
    residual amount q (l.filter P) = residual amount q l := by
  rw [residual_eq_sub, residual_eq_sub, fills_filter h]

theorem left_filter (hreduce : ∀ a m, P (reduce a m) ↔ P a) {q : ℤ} {l : List α}
    (h : ∀ f ∈ fills amount q l, P f.1) :
    left amount reduce q (l.filter P) = (left amount reduce q l).filter P := by
  induction l generalizing q with
  | nil => rfl
  | cons a l ih =>
    rcases le_or_gt q 0 with hq | hq
    · simp [hq]
    · obtain ⟨ha, hl⟩ := forall_fills_tail hq h
      rw [List.filter_cons_of_pos (by simpa using ha)]
      rcases le_or_gt (amount a) q with hle | hlt
      · rw [min_eq_right hle] at hl
        rw [left_of_le hq hle, left_of_le hq hle, ih hl]
      · rw [left_of_lt hq hlt, left_of_lt hq hlt,
          List.filter_cons_of_pos (by simpa using (hreduce a q).mpr ha)]

end Filter

end LmaxBench.Greedy
