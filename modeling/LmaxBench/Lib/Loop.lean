import Mathlib.Data.Nat.Notation
import Mathlib.Tactic.TypeStar

/-!
# While loops with a variant

A loop is given by one round `step`: `none` leaves the loop, `some s'` goes round
again. `exec` runs the rounds a variant `μ` allows for, so a loop is an ordinary
total function that evaluates, and the only obligation a user has is that every
round decreases the variant. From that obligation come the unfolding equations,
the exit condition, and induction along the loop.

A loop body that can fault (an index out of range, say) answers in `Option`, and
`tryExec` is the same loop with the fault propagated.

## Main definitions

* `exec step μ s` — the state in which the loop started at `s` is left.
* `Variant step μ` — every round decreases `μ`.
* `tryExec step μ s` — the same for a body that can fault.
* `exec_induction`, `exec_invariant` — induction along a loop, loop invariants.
* `exec_map` — the loop of a body that commutes with a map of the states.
* `exec_sim` — two loops that go round in step.
* `tryExec_sim`, `tryExec_sim_of_lt` — a faultless loop simulated by one whose body can
  fault.
* `Ends`, `exists_ends` — a loop that ends, said without fuel, and the rule for it.
* `foldlM_invariant` — invariants of a run that takes one step per letter of a word.
* `log_snoc_cases` — the entries of what a run has logged, after one more step.
* `exists_run` — a run that can be continued so that a measure decreases can be finished.
-/

namespace LmaxBench.Loop

universe u v
variable {σ : Type u} {τ : Type v}

/-- At most `fuel` rounds of the loop. -/
def rounds (step : σ → Option σ) : ℕ → σ → σ
  | 0, s => s
  | fuel + 1, s =>
    match step s with
    | none => s
    | some s' => rounds step fuel s'

/-- The loop, cut off after as many rounds as the variant allows. -/
def exec (step : σ → Option σ) (μ : σ → ℕ) (s : σ) : σ := rounds step (μ s) s

/-- Every round of the loop decreases `μ`. -/
def Variant (step : σ → Option σ) (μ : σ → ℕ) : Prop :=
  ∀ s s', step s = some s' → μ s' < μ s

section Total
variable {step : σ → Option σ} {μ : σ → ℕ}

@[simp] theorem rounds_of_none {s : σ} (h : step s = none) (n : ℕ) : rounds step n s = s := by
  cases n with
  | zero => rfl
  | succ n => simp [rounds, h]

theorem rounds_succ_of_some {s s' : σ} (h : step s = some s') (n : ℕ) :
    rounds step (n + 1) s = rounds step n s' := by
  simp [rounds, h]

/-- **Fuel beyond the variant changes nothing**: the cut-off is never felt. -/
theorem rounds_eq_exec (hv : Variant step μ) :
    ∀ (n : ℕ) (s : σ), μ s ≤ n → rounds step n s = exec step μ s := by
  intro n
  induction n using Nat.strongRecOn with
  | _ n ih =>
    intro s hs
    cases h : step s with
    | none => rw [exec, rounds_of_none h, rounds_of_none h]
    | some s' =>
      have hlt : μ s' < μ s := hv s s' h
      obtain ⟨n', rfl⟩ : ∃ n', n = n' + 1 := ⟨n - 1, by omega⟩
      obtain ⟨k, hk⟩ : ∃ k, μ s = k + 1 := ⟨μ s - 1, by omega⟩
      rw [exec, hk, rounds_succ_of_some h, rounds_succ_of_some h, ih n' (by omega) s' (by omega)]
      rcases Nat.lt_or_ge k (n' + 1) with hkn | hkn
      · rw [ih k hkn s' (by omega)]
      · omega

@[simp] theorem exec_of_none {s : σ} (h : step s = none) : exec step μ s = s :=
  rounds_of_none h _

theorem exec_of_some (hv : Variant step μ) {s s' : σ} (h : step s = some s') :
    exec step μ s = exec step μ s' := by
  have hlt : μ s' < μ s := hv s s' h
  obtain ⟨k, hk⟩ : ∃ k, μ s = k + 1 := ⟨μ s - 1, by omega⟩
  rw [exec, hk, rounds_succ_of_some h]
  exact rounds_eq_exec hv k s' (by omega)

/-- **Induction along a loop.** What holds where the loop is left, and is carried
backwards over one round, holds of every state. -/
theorem exec_induction (hv : Variant step μ) {motive : σ → Prop}
    (exit : ∀ s, step s = none → motive s)
    (round : ∀ s s', step s = some s' → motive s' → motive s) (s : σ) : motive s := by
  generalize hn : μ s = n
  induction n using Nat.strongRecOn generalizing s with
  | _ n ih =>
    cases h : step s with
    | none => exact exit s h
    | some s' =>
      have hlt : μ s' < n := hn ▸ hv s s' h
      exact round s s' h (ih _ hlt s' rfl)

/-- **The exit condition**: the state a loop ends in has no further round. -/
theorem step_exec (hv : Variant step μ) (s : σ) : step (exec step μ s) = none := by
  induction s using exec_induction hv with
  | exit s h => rw [exec_of_none h, h]
  | round s s' h ih => rw [exec_of_some hv h, ih]

/-- **Loop invariants**: what every round preserves holds at the end. -/
theorem exec_invariant (hv : Variant step μ) (P : σ → Prop)
    (hP : ∀ s s', P s → step s = some s' → P s') {s : σ} (hs : P s) : P (exec step μ s) := by
  induction s using exec_induction hv with
  | exit s h => rwa [exec_of_none h]
  | round s s' h ih => rw [exec_of_some hv h]; exact ih (hP s s' hs h)

/-- **Loops along a map.** If each round commutes with `f`, so does the loop. -/
theorem exec_map {base : τ → Option τ} {ν : τ → ℕ} (f : τ → σ)
    (hstep : ∀ a, step (f a) = (base a).map f) (hμ : ∀ a, μ (f a) = ν a) (a : τ) :
    exec step μ (f a) = f (exec base ν a) := by
  rw [exec, exec, hμ]
  generalize ν a = n
  induction n generalizing a with
  | zero => rfl
  | succ n ih =>
    cases h : base a with
    | none =>
      have hnone : step (f a) = none := by rw [hstep, h]; rfl
      rw [rounds_of_none h, rounds_of_none hnone]
    | some a' =>
      have hsome : step (f a) = some (f a') := by rw [hstep, h]; rfl
      rw [rounds_succ_of_some h, rounds_succ_of_some hsome, ih]

/-- **Simulation.** If related states leave their loops together and otherwise take related
rounds, the loops end in related states. -/
theorem exec_sim {base : τ → Option τ} {ν : τ → ℕ} (hb : Variant base ν) (hv : Variant step μ)
    (R : τ → σ → Prop) (exit : ∀ a s, R a s → base a = none → step s = none)
    (round : ∀ a s a', R a s → base a = some a' → ∃ s', step s = some s' ∧ R a' s')
    {a : τ} {s : σ} (hR : R a s) : R (exec base ν a) (exec step μ s) := by
  induction a using exec_induction hb generalizing s with
  | exit a h => rwa [exec_of_none h, exec_of_none (exit a s hR h)]
  | round a a' h ih =>
    obtain ⟨s', hs', hR'⟩ := round a s a' hR h
    rw [exec_of_some hb h, exec_of_some hv hs']
    exact ih hR'

end Total

/-! ## Bodies that can fault -/

/-- A body that can fault, as a round on `Option σ`; a fault is the state `none`,
from which there is no further round. -/
def guarded (step : σ → Option (Option σ)) : Option σ → Option (Option σ)
  | none => none
  | some s =>
    match step s with
    | none => some none
    | some none => none
    | some (some s') => some (some s')

/-- The loop of a body that answers `none` on a fault and `some none` to leave. -/
def tryExec (step : σ → Option (Option σ)) (μ : σ → ℕ) (s : σ) : Option σ :=
  exec (guarded step) (fun o => o.elim 0 fun s => μ s + 1) (some s)

/-- Every round of the loop that does not fault decreases `μ`. -/
def TryVariant (step : σ → Option (Option σ)) (μ : σ → ℕ) : Prop :=
  ∀ s s', step s = some (some s') → μ s' < μ s

section Fallible
variable {step : σ → Option (Option σ)} {μ : σ → ℕ}

theorem TryVariant.guarded (hv : TryVariant step μ) :
    Variant (guarded step) (fun o => o.elim 0 fun s => μ s + 1) := by
  rintro (_ | s) o h
  · simp [Loop.guarded] at h
  · cases hs : step s with
    | none =>
      have : o = none := by simpa [Loop.guarded, hs] using h.symm
      simp [this]
    | some r =>
      cases r with
      | none => simp [Loop.guarded, hs] at h
      | some s' =>
        have : o = some s' := by simpa [Loop.guarded, hs] using h.symm
        subst this
        simpa using hv s s' hs

theorem tryExec_of_fault (hv : TryVariant step μ) {s : σ} (h : step s = none) :
    tryExec step μ s = none := by
  have hfault : Loop.guarded step (some s) = some none := by simp [Loop.guarded, h]
  rw [tryExec, exec_of_some hv.guarded hfault]
  exact exec_of_none rfl

theorem tryExec_of_exit {s : σ} (h : step s = some none) : tryExec step μ s = some s :=
  exec_of_none (by simp [Loop.guarded, h])

theorem tryExec_of_next (hv : TryVariant step μ) {s s' : σ} (h : step s = some (some s')) :
    tryExec step μ s = tryExec step μ s' :=
  exec_of_some hv.guarded (by simp [Loop.guarded, h])

/-- Induction along a loop whose body can fault. -/
theorem tryExec_induction (hv : TryVariant step μ) {motive : σ → Prop}
    (fault : ∀ s, step s = none → motive s)
    (exit : ∀ s, step s = some none → motive s)
    (round : ∀ s s', step s = some (some s') → motive s' → motive s) (s : σ) : motive s := by
  generalize hn : μ s = n
  induction n using Nat.strongRecOn generalizing s with
  | _ n ih =>
    cases h : step s with
    | none => exact fault s h
    | some r =>
      cases r with
      | none => exact exit s h
      | some s' =>
        have hlt : μ s' < n := hn ▸ hv s s' h
        exact round s s' h (ih _ hlt s' rfl)

/-- The exit condition of a body that can fault. -/
theorem step_tryExec (hv : TryVariant step μ) {s t : σ} (ht : tryExec step μ s = some t) :
    step t = some none := by
  induction s using tryExec_induction hv with
  | fault s h => simp [tryExec_of_fault hv h] at ht
  | exit s h =>
    obtain rfl : s = t := by simpa [tryExec_of_exit h] using ht
    exact h
  | round s s' h ih => exact ih (tryExec_of_next hv h ▸ ht)

/-- Loop invariants of a body that can fault: they hold where the loop is left. -/
theorem tryExec_invariant (P : σ → Prop)
    (hP : ∀ s s', P s → step s = some (some s') → P s') {s t : σ} (hs : P s)
    (ht : tryExec step μ s = some t) : P t := by
  have hrounds : ∀ (n : ℕ) (s : σ), P s → rounds (Loop.guarded step) n (some s) = some t → P t := by
    intro n
    induction n with
    | zero =>
      intro s hs h
      exact Option.some.inj h ▸ hs
    | succ n ih =>
      intro s hs h
      cases hstep : step s with
      | none =>
        have hfault : Loop.guarded step (some s) = some none := by simp [Loop.guarded, hstep]
        rw [rounds_succ_of_some hfault, rounds_of_none rfl] at h
        simp at h
      | some o =>
        cases o with
        | none =>
          rw [rounds_of_none (by simp [Loop.guarded, hstep])] at h
          exact Option.some.inj h ▸ hs
        | some s' =>
          have hround : Loop.guarded step (some s) = some (some s') := by simp [Loop.guarded, hstep]
          rw [rounds_succ_of_some hround] at h
          exact ih s' (hP s s' hs hstep) h
  exact hrounds (μ s + 1) s hs ht

/-- **Simulation.** If related states take related rounds, and the second body neither
faults nor stalls from a related state, then the second loop ends without a fault in a
state related to the end of the first. -/
theorem tryExec_sim_of_lt {base : τ → Option τ} {ν : τ → ℕ} (hb : Variant base ν)
    (R : τ → σ → Prop)
    (exit : ∀ a s, R a s → base a = none → step s = some none)
    (round : ∀ a s a', R a s → base a = some a' →
      ∃ s', step s = some (some s') ∧ R a' s' ∧ μ s' < μ s)
    {a : τ} {s : σ} (hR : R a s) :
    ∃ t, tryExec step μ s = some t ∧ R (exec base ν a) t := by
  -- more rounds than the variant allows for lead to the same end
  suffices h : ∃ t, (∀ n, μ s < n → rounds (Loop.guarded step) n (some s) = some t) ∧
      R (exec base ν a) t by
    obtain ⟨t, ht, hRt⟩ := h
    exact ⟨t, ht (μ s + 1) (Nat.lt_succ_self _), hRt⟩
  induction a using exec_induction hb generalizing s with
  | exit a h =>
    have hexit : Loop.guarded step (some s) = none := by simp [Loop.guarded, exit a s hR h]
    exact ⟨s, fun n _ => rounds_of_none hexit n, by rwa [exec_of_none h]⟩
  | round a a' h ih =>
    obtain ⟨s', hs', hR', hlt⟩ := round a s a' hR h
    obtain ⟨t, ht, hRt⟩ := ih hR'
    have hround : Loop.guarded step (some s) = some (some s') := by simp [Loop.guarded, hs']
    refine ⟨t, fun n hn => ?_, by rwa [exec_of_some hb h]⟩
    obtain ⟨n, rfl⟩ : ∃ n', n = n' + 1 := ⟨n - 1, by omega⟩
    rw [rounds_succ_of_some hround]
    exact ht n (by omega)

/-- The same, if no state of the second loop stalls. -/
theorem tryExec_sim {base : τ → Option τ} {ν : τ → ℕ} (hb : Variant base ν)
    (hv : TryVariant step μ) (R : τ → σ → Prop)
    (exit : ∀ a s, R a s → base a = none → step s = some none)
    (round : ∀ a s a', R a s → base a = some a' → ∃ s', step s = some (some s') ∧ R a' s')
    {a : τ} {s : σ} (hR : R a s) :
    ∃ t, tryExec step μ s = some t ∧ R (exec base ν a) t := by
  refine tryExec_sim_of_lt hb R exit (fun a s a' hR h => ?_) hR
  obtain ⟨s', hs', hR'⟩ := round a s a' hR h
  exact ⟨s', hs', hR', hv s s' hs'⟩

end Fallible

/-! ## Loops without a cut-off -/

/-- The loop started at `s` is left at `t` after finitely many rounds, each of them taken
from a state with `P`. There is no variant here, and no fuel. -/
inductive Ends (step : σ → Option (Option σ)) (P : σ → Prop) : σ → σ → Prop
  | exit {s : σ} (h : step s = some none) : Ends step P s s
  | round {s s' t : σ} (hs : P s) (h : step s = some (some s')) (ht : Ends step P s' t) :
    Ends step P s t

section Ends
variable {step : σ → Option (Option σ)} {μ : σ → ℕ} {P : σ → Prop}

/-- Where a loop is left, there is no further round. -/
theorem Ends.step_eq {s t : σ} (h : Ends step P s t) : step t = some none := by
  induction h with
  | exit h => exact h
  | round _ _ _ ih => exact ih

/-- **The cut-off is never felt**: a loop that ends is the one its variant bounds. -/
theorem Ends.tryExec_eq (hv : TryVariant step μ) {s t : σ} (h : Ends step P s t) :
    tryExec step μ s = some t := by
  induction h with
  | exit h => exact tryExec_of_exit h
  | round _ h _ ih => rw [tryExec_of_next hv h, ih]

/-- **Total correctness.** A loop with a variant ends, if its body does not fault from the
states of an invariant. -/
theorem exists_ends (hv : TryVariant step μ) (Q : σ → Prop)
    (hstep : ∀ s, Q s → step s = some none ∨ ∃ s', step s = some (some s') ∧ P s ∧ Q s') {s : σ}
    (hs : Q s) : ∃ t, Ends step P s t ∧ Q t := by
  induction s using tryExec_induction hv with
  | fault s h =>
    rcases hstep s hs with hexit | ⟨s', hs', -⟩
    · rw [h] at hexit
      simp at hexit
    · rw [h] at hs'
      simp at hs'
  | exit s h => exact ⟨s, .exit h, hs⟩
  | round s s' h ih =>
    rcases hstep s hs with hexit | ⟨r, hr, hP, hQ⟩
    · rw [h] at hexit
      simp at hexit
    · obtain rfl : s' = r := by simpa [h] using hr
      obtain ⟨t, ht, hQt⟩ := ih hQ
      exact ⟨t, .round hP h ht, hQt⟩

/-- A loop that cannot fault ends wherever its variant leads. -/
theorem exec_ends {step : σ → Option σ} (hv : Variant step μ) (hP : ∀ s, P s) (s : σ) :
    Ends (fun s => some (step s)) P s (exec step μ s) := by
  induction s using exec_induction hv with
  | exit s h =>
    rw [exec_of_none h]
    exact .exit (congrArg some h)
  | round s s' h ih =>
    rw [exec_of_some hv h]
    exact .round (hP s) (congrArg some h) ih

end Ends

/-! ## Runs: one step per letter of a word -/

/-- What every step of a run preserves holds at its end. -/
theorem foldlM_invariant {ι : Type*} {step : σ → ι → Option σ} (P : σ → Prop)
    (hP : ∀ s i s', P s → step s i = some s' → P s') {l : List ι} {s t : σ} (hs : P s)
    (ht : l.foldlM step s = some t) : P t := by
  induction l generalizing s with
  | nil =>
    obtain rfl : s = t := by simpa using ht
    exact hs
  | cons i l ih =>
    rw [List.foldlM_cons] at ht
    obtain ⟨s', hs', ht'⟩ := Option.bind_eq_some_iff.mp ht
    exact ih (hP s i s' hs hs') ht'

/-- A run that can always be continued by at most `k` letters so that `μ` decreases can be
finished. -/
theorem exists_run {ι : Type*} {step : σ → ι → Option σ} {P final : σ → Prop} {μ : σ → ℕ} {k : ℕ}
    (h : ∀ s, P s → ¬final s →
      ∃ (l : List ι) (s' : σ), l.length ≤ k ∧ l.foldlM step s = some s' ∧ P s' ∧ μ s' < μ s)
    {s : σ} (hs : P s) :
    ∃ (l : List ι) (s' : σ), l.length ≤ k * μ s ∧ l.foldlM step s = some s' ∧ final s' := by
  generalize hn : μ s = n
  induction n using Nat.strongRecOn generalizing s with
  | _ n ih =>
    subst hn
    by_cases hfinal : final s
    · exact ⟨[], s, Nat.zero_le _, rfl, hfinal⟩
    · obtain ⟨l, s', hl, hrun, hs', hlt⟩ := h s hs hfinal
      obtain ⟨l', t, hl', hrun', ht⟩ := ih (μ s') hlt hs' rfl
      refine ⟨l ++ l', t, ?_, ?_, ht⟩
      · rw [List.length_append]
        calc
          l.length + l'.length ≤ k + k * μ s' := Nat.add_le_add hl hl'
          _ = k * (μ s' + 1) := by rw [Nat.mul_succ, Nat.add_comm]
          _ ≤ k * μ s := Nat.mul_le_mul_left k hlt
      · rw [List.foldlM_append, hrun]
        exact hrun'

/-- An entry of a log that has grown by one is an old entry, or the new one. -/
theorem log_snoc_cases {l : List σ} {x y : σ} {i : ℕ} (h : (l ++ [x])[i]? = some y) :
    l[i]? = some y ∨ i = l.length ∧ y = x := by
  rw [List.getElem?_append] at h
  split at h
  case isTrue => exact Or.inl h
  case isFalse hle =>
    obtain ⟨hlt, heq⟩ := List.getElem?_eq_some_iff.mp h
    rw [List.length_singleton] at hlt
    rw [List.getElem_singleton] at heq
    exact Or.inr ⟨by omega, heq.symm⟩

end LmaxBench.Loop
