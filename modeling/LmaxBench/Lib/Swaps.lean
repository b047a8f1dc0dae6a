import Mathlib.Data.List.Perm.Basic
import Mathlib.Logic.Relation
import Mathlib.Tactic.TypeStar

/-!
# Runs that may be reordered

A run is the fold of a step function over a sequence of operations, each of which also puts
something out. Two neighbours that do not notice each other may change places: the state after both
is the same, and each puts out the same as before. Which operations do not notice each other may
depend on what came before them. Sequences that are reached from each other by such changes of place
lead to the same state, and put out the same up to the order.

## Main definitions

* `outputs` — what a run puts out.
* `Commutes` — two operations that do not notice each other in a state.
* `Reordered` — sequences that are reached from each other by changing places.
* `Reordered.outcome` — they come to the same.
* `reordered_filter` — two kinds of operations none of which notices one of the other kind.
-/

namespace LmaxBench.Swaps

variable {σ α β : Type*}

/-- What each operation of a run puts out. -/
def outputs (step : σ → α → σ) (out : σ → α → β) : σ → List α → List β
  | _, [] => []
  | s, a :: l => out s a :: outputs step out (step s a) l

/-- Whichever of the two comes first, the same state is reached, and each puts out the same. -/
structure Commutes (step : σ → α → σ) (out : σ → α → β) (s : σ) (a b : α) : Prop where
  comm : step (step s a) b = step (step s b) a
  first : out (step s b) a = out s a
  second : out (step s a) b = out s b

/-- Two neighbours change places; `R pre a b` says that they may, after `pre`. -/
inductive Swap (R : List α → α → α → Prop) : List α → List α → Prop
  | swap (pre : List α) (a b : α) (post : List α) (h : R pre a b) :
      Swap R (pre ++ a :: b :: post) (pre ++ b :: a :: post)

/-- Sequences that are reached from each other by changing places. -/
def Reordered (R : List α → α → α → Prop) : List α → List α → Prop := Relation.EqvGen (Swap R)

section Runs
variable {step : σ → α → σ} {out : σ → α → β} {s₀ s : σ} {a b : α}

theorem Commutes.symm (h : Commutes step out s a b) : Commutes step out s b a :=
  ⟨h.comm.symm, h.second, h.first⟩

@[simp] theorem outputs_append (s : σ) (l l' : List α) :
    outputs step out s (l ++ l') =
      outputs step out s l ++ outputs step out (l.foldl step s) l' := by
  induction l generalizing s with
  | nil => rfl
  | cons a l ih => rw [List.cons_append, outputs, outputs, ih, List.foldl_cons, List.cons_append]

/-- The outputs depend on what is put out at each prefix. -/
theorem outputs_congr {τ : Type*} {step' : τ → α → τ} {out' : τ → α → β} {t₀ : τ} {l : List α}
    (h : ∀ pre a post, l = pre ++ a :: post →
      out (pre.foldl step s₀) a = out' (pre.foldl step' t₀) a) :
    outputs step out s₀ l = outputs step' out' t₀ l := by
  induction l generalizing s₀ t₀ with
  | nil => rfl
  | cons a l ih =>
    have hhead : out s₀ a = out' t₀ a := h [] a l rfl
    have htail : outputs step out (step s₀ a) l = outputs step' out' (step' t₀ a) l :=
      ih fun pre b post hl => h (a :: pre) b post (by rw [hl, List.cons_append])
    rw [outputs, outputs, hhead, htail]

/-- Two that commute may change places. -/
theorem Commutes.swap {pre : List α} (h : Commutes step out (pre.foldl step s₀) a b)
    (post : List α) :
    (pre ++ a :: b :: post).foldl step s₀ = (pre ++ b :: a :: post).foldl step s₀ ∧
      (outputs step out s₀ (pre ++ a :: b :: post)).Perm
        (outputs step out s₀ (pre ++ b :: a :: post)) := by
  refine ⟨?_, ?_⟩
  · rw [List.foldl_append, List.foldl_append, List.foldl_cons, List.foldl_cons, List.foldl_cons,
      List.foldl_cons, h.comm]
  · rw [outputs_append, outputs_append, outputs, outputs, outputs, outputs, h.comm, h.first,
      h.second]
    exact List.Perm.append_left _ (List.Perm.swap _ _ _)

end Runs

section Reordering
variable {R : List α → α → α → Prop} {xs ys zs : List α}

theorem Reordered.refl (xs : List α) : Reordered R xs xs := Relation.EqvGen.refl xs

theorem Reordered.trans (h : Reordered R xs ys) (h' : Reordered R ys zs) : Reordered R xs zs :=
  Relation.EqvGen.trans _ _ _ h h'

theorem Reordered.symm (h : Reordered R xs ys) : Reordered R ys xs := Relation.EqvGen.symm _ _ h

theorem reordered_swap (pre : List α) {a b : α} (h : R pre a b) (post : List α) :
    Reordered R (pre ++ a :: b :: post) (pre ++ b :: a :: post) :=
  Relation.EqvGen.rel _ _ (Swap.swap pre a b post h)

theorem Swap.perm (h : Swap R xs ys) : xs.Perm ys := by
  cases h with
  | swap pre a b post => exact List.Perm.append_left pre (List.Perm.swap b a post)

theorem Reordered.perm (h : Reordered R xs ys) : xs.Perm ys := by
  induction h with
  | rel _ _ h => exact h.perm
  | refl _ => exact List.Perm.refl _
  | symm _ _ _ ih => exact ih.symm
  | trans _ _ _ _ _ ih ih' => exact ih.trans ih'

/-- **A reordered run comes to the same.** `P` is what is known of the sequence, in any order. -/
theorem Reordered.outcome {step : σ → α → σ} {out : σ → α → β} {s₀ : σ} {P : List α → Prop}
    (hP : ∀ xs ys : List α, xs.Perm ys → P xs → P ys)
    (hR : ∀ pre a b post, P (pre ++ a :: b :: post) → R pre a b →
      Commutes step out (pre.foldl step s₀) a b)
    (h : Reordered R xs ys) (hxs : P xs) :
    xs.foldl step s₀ = ys.foldl step s₀ ∧
      (outputs step out s₀ xs).Perm (outputs step out s₀ ys) := by
  induction h with
  | rel _ _ h =>
    cases h with
    | swap pre a b post h => exact (hR pre a b post hxs h).swap post
  | refl _ => exact ⟨rfl, List.Perm.refl _⟩
  | symm xs ys h ih =>
    obtain ⟨hstate, hout⟩ := ih (hP _ _ (Reordered.perm h).symm hxs)
    exact ⟨hstate.symm, hout.symm⟩
  | trans xs ys zs h _ ih ih' =>
    obtain ⟨hstate, hout⟩ := ih hxs
    obtain ⟨hstate', hout'⟩ := ih' (hP _ _ (Reordered.perm h) hxs)
    exact ⟨hstate.trans hstate', hout.trans hout'⟩

/-- An operation moves behind those that do not notice it. -/
theorem reordered_move {b : α} (h : ∀ pre, ∀ a ∈ xs, R pre b a) (pre post : List α) :
    Reordered R (pre ++ b :: (xs ++ post)) (pre ++ (xs ++ b :: post)) := by
  induction xs generalizing pre with
  | nil => exact Reordered.refl _
  | cons a xs ih =>
    have hfirst : Reordered R (pre ++ b :: a :: (xs ++ post)) (pre ++ a :: b :: (xs ++ post)) :=
      reordered_swap pre (h pre a List.mem_cons_self) _
    have hrest := ih (fun pre a' ha' => h pre a' (List.mem_cons_of_mem a ha')) (pre ++ [a])
    rw [List.append_assoc, List.append_assoc] at hrest
    exact hfirst.trans hrest

/-- **Two kinds of operations that do not notice each other may be taken apart.** -/
theorem reordered_filter (p : α → Prop) [DecidablePred p] {l : List α}
    (h : ∀ pre, ∀ a ∈ l, ∀ b ∈ l, p a → ¬p b → R pre b a) (pre post : List α) :
    Reordered R (pre ++ (l ++ post))
      (pre ++ (l.filter p ++ (l.filter (fun a => ¬p a) ++ post))) := by
  induction l generalizing pre with
  | nil => exact Reordered.refl _
  | cons c l ih =>
    have hl : ∀ pre, ∀ a ∈ l, ∀ b ∈ l, p a → ¬p b → R pre b a := fun pre a ha b hb =>
      h pre a (List.mem_cons_of_mem c ha) b (List.mem_cons_of_mem c hb)
    have hrest := ih hl (pre ++ [c])
    rw [List.append_assoc, List.append_assoc] at hrest
    by_cases hc : p c
    · rw [List.filter_cons_of_pos (by simpa using hc), List.filter_cons_of_neg (by simpa using hc)]
      exact hrest
    · rw [List.filter_cons_of_neg (by simpa using hc), List.filter_cons_of_pos (by simpa using hc)]
      have hmove : ∀ pre, ∀ a ∈ l.filter p, R pre c a := by
        intro pre a ha
        obtain ⟨hmem, hpa⟩ := List.mem_filter.mp ha
        exact h pre a (List.mem_cons_of_mem c hmem) c List.mem_cons_self (of_decide_eq_true hpa) hc
      exact hrest.trans (reordered_move hmove pre (l.filter (fun a => ¬p a) ++ post))

end Reordering

end LmaxBench.Swaps
