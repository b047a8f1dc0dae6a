import LmaxBench.Lib.Loop
import Mathlib.Data.List.Forall2

/-!
# Following a program that can fault

Two programs that answer in `Option`, where `none` is a fault. The second one follows the
first if, wherever the first ends without a fault, so does the second, in a related state.
The rules take two programs of the same shape apart side by side: a bind, a conditional, a
loop, a run.

The loop rule asks the variants to agree on related states, so that both loops are given the
same number of rounds; since the first one is left within them, the second is left as well,
by its own condition and not for want of rounds.

## Main definitions

* `Follows R x y` — wherever `x` ends, `y` ends in a state related to it by `R`.
* `Follows.bind`, `Follows.ite`, `Follows.loop`, `Follows.run` — the rules.
* `Follows.get`, `Follows.set`, `Follows.fold` — lists that are related entry by entry.
-/

namespace LmaxBench

universe u v
variable {α α' : Type u} {β β' : Type v}

/-- Wherever `x` ends without a fault, so does `y`, in a state related by `R`. -/
def Follows (R : α → β → Prop) (x : Option α) (y : Option β) : Prop :=
  ∀ a, x = some a → ∃ b, y = some b ∧ R a b

namespace Follows
variable {R : α → β → Prop} {S : α' → β' → Prop}

theorem some {a : α} {b : β} (h : R a b) : Follows R (some a) (some b) := by
  rintro a' ⟨⟩
  exact ⟨b, rfl, h⟩

theorem mono {R' : α → β → Prop} {x : Option α} {y : Option β} (hx : Follows R x y)
    (h : ∀ a b, R a b → R' a b) : Follows R' x y := by
  intro a ha
  obtain ⟨b, hb, hR⟩ := hx a ha
  exact ⟨b, hb, h a b hR⟩

/-- What the second program answered. -/
theorem answer {x : Option α} {y : Option β} (hx : Follows R x y) :
    Follows (fun a b => R a b ∧ y = Option.some b) x y := by
  intro a ha
  obtain ⟨b, hb, hR⟩ := hx a ha
  exact ⟨b, hb, hR, hb⟩

/-- One program after the other. -/
theorem bind {x : Option α} {y : Option β} {f : α → Option α'} {g : β → Option β'}
    (hx : Follows R x y) (hf : ∀ a b, x = Option.some a → R a b → Follows S (f a) (g b)) :
    Follows S (x.bind f) (y.bind g) := by
  intro c hc
  obtain ⟨a, ha, hfa⟩ := Option.bind_eq_some_iff.mp hc
  obtain ⟨b, hb, hR⟩ := hx a ha
  obtain ⟨d, hd, hS⟩ := hf a b ha hR c hfa
  exact ⟨d, by rw [hb, Option.bind_some, hd], hS⟩

/-- A step of the first program that the second one does without. -/
theorem skip {x : Option α} {f : α → Option α'} {y : Option β'}
    (hf : ∀ a, x = Option.some a → Follows S (f a) y) : Follows S (x.bind f) y := by
  intro c hc
  obtain ⟨a, ha, hfa⟩ := Option.bind_eq_some_iff.mp hc
  exact hf a ha c hfa

/-- A conditional on the same question. -/
theorem ite {p q : Prop} [Decidable p] [Decidable q] {x x' : Option α} {y y' : Option β}
    (hpq : p ↔ q) (ht : p → Follows R x y) (he : ¬p → Follows R x' y') :
    Follows R (if p then x else x') (if q then y else y') := by
  by_cases hp : p
  · rw [if_pos hp, if_pos (hpq.mp hp)]
    exact ht hp
  · rw [if_neg hp, if_neg (fun hq => hp (hpq.mpr hq))]
    exact he hp

/-- **Loops.** A loop follows another one if every round does: the two are left together,
and otherwise go on in related states. -/
theorem loop {base : α → Option (Option α)} {step : β → Option (Option β)} {ν : α → ℕ}
    {μ : β → ℕ} (hb : Loop.TryVariant base ν) (hμ : ∀ a b, R a b → μ b = ν a)
    (hstep : ∀ a b, R a b → Follows (Option.Rel R) (base a) (step b)) {a : α} {b : β}
    (hR : R a b) : Follows (fun a b => R a b ∧ step b = Option.some none)
      (Loop.tryExec base ν a) (Loop.tryExec step μ b) := by
  have hrounds : ∀ (n : ℕ) (a : α) (b : β), R a b →
      Follows R (Loop.rounds (Loop.guarded base) n (Option.some a))
        (Loop.rounds (Loop.guarded step) n (Option.some b)) := by
    intro n
    induction n with
    | zero => exact fun a b hR => some hR
    | succ n ih =>
      intro a b hR
      cases ha : base a with
      | none =>
        have hfault : Loop.guarded base (Option.some a) = Option.some none := by
          simp [Loop.guarded, ha]
        rw [Loop.rounds_succ_of_some hfault, Loop.rounds_of_none rfl]
        simp [Follows]
      | some o =>
        obtain ⟨o', hb, hrel⟩ := hstep a b hR o ha
        cases hrel with
        | none =>
          rw [Loop.rounds_of_none (by simp [Loop.guarded, ha]),
            Loop.rounds_of_none (by simp [Loop.guarded, hb])]
          exact some hR
        | @some a' b' hR' =>
          have hround : Loop.guarded base (Option.some a) = Option.some (Option.some a') := by
            simp [Loop.guarded, ha]
          have hround' : Loop.guarded step (Option.some b) = Option.some (Option.some b') := by
            simp [Loop.guarded, hb]
          rw [Loop.rounds_succ_of_some hround, Loop.rounds_succ_of_some hround']
          exact ih a' b' hR'
  have hfuel : Loop.tryExec step μ b =
      Loop.rounds (Loop.guarded step) (ν a + 1) (Option.some b) := by
    rw [← hμ a b hR]
    rfl
  intro a' ha'
  obtain ⟨b', hb', hR'⟩ := hrounds (ν a + 1) a b hR a' ha'
  obtain ⟨o, ho, hrel⟩ := hstep a' b' hR' none (Loop.step_tryExec hb ha')
  cases hrel
  exact ⟨b', hfuel.trans hb', hR', ho⟩

/-- **Runs.** A run follows another one if every step does; the relation may depend on what
of the word is left. -/
theorem run {ι : Type*} {R : List ι → α → β → Prop} {base : α → ι → Option α}
    {step : β → ι → Option β}
    (hstep : ∀ i l a b, R (i :: l) a b → Follows (R l) (base a i) (step b i)) {l : List ι} {a : α}
    {b : β} (hR : R l a b) : Follows (R []) (l.foldlM base a) (l.foldlM step b) := by
  induction l generalizing a b with
  | nil => exact some hR
  | cons i l ih =>
    rw [List.foldlM_cons, List.foldlM_cons]
    exact bind (hstep i l a b hR) fun a' b' _ hR' => ih hR'

/-! ## Lists related entry by entry -/

/-- An access that is in range in one list is so in the other. -/
theorem get {l : List α} {l' : List β} (h : List.Forall₂ R l l') (i : ℕ) :
    Follows R l[i]? l'[i]? := by
  induction h generalizing i with
  | nil => simp [Follows]
  | cons hR _ ih =>
    cases i with
    | zero => exact some hR
    | succ i => exact ih i

theorem set {l : List α} {l' : List β} (h : List.Forall₂ R l l') (i : ℕ) {a : α} {b : β}
    (hR : R a b) : List.Forall₂ R (l.set i a) (l'.set i b) := by
  induction h generalizing i with
  | nil => exact .nil
  | cons hR' h ih =>
    cases i with
    | zero => exact .cons hR h
    | succ i => exact .cons hR' (ih i)

/-- Folds over two lists. -/
theorem fold {ι κ : Type*} {P : ι → κ → Prop} {base : α → ι → Option α} {step : β → κ → Option β}
    (hstep : ∀ i k a b, P i k → R a b → Follows R (base a i) (step b k)) {l : List ι} {l' : List κ}
    (h : List.Forall₂ P l l') {a : α} {b : β} (hR : R a b) :
    Follows R (l.foldlM base a) (l'.foldlM step b) := by
  induction h generalizing a b with
  | nil => exact some hR
  | cons hP _ ih =>
    rw [List.foldlM_cons, List.foldlM_cons]
    exact bind (hstep _ _ a b hP hR) fun a' b' _ hR' => ih hR'

end Follows
end LmaxBench
