import LmaxBench.Lib.Loop

/-!
# Endless schedules that are fair

A schedule goes on forever; in each turn somebody tries to take a step, and a turn that cannot be
taken changes nothing. No turn has to bring a run any closer to its end: parties spin, and wait for
each other. What counts is who helps: as long as nothing is gained, it stays the same party, and
its next turn gains something. A schedule is fair if every party comes again and again.

## Main definitions

* `trace` — the states a schedule goes through.
* `Recurring` — every party has its turn again and again.
* `Eventually` — what a schedule comes to.
* `Helpful`, `Helpful.eventually` — the rule: a fair schedule comes to the end.
-/

namespace LmaxBench.Fair

variable {σ τ κ : Type*} {step : σ → τ → Option σ} {s₀ s s' : σ} {sched : ℕ → τ}

/-- The states that a schedule goes through. -/
def trace (step : σ → τ → Option σ) (s₀ : σ) (sched : ℕ → τ) : ℕ → σ
  | 0 => s₀
  | n + 1 => (step (trace step s₀ sched n) (sched n)).getD (trace step s₀ sched n)

theorem trace_succ_of_some {n : ℕ} (h : step (trace step s₀ sched n) (sched n) = some s) :
    trace step s₀ sched (n + 1) = s := by
  rw [trace, h, Option.getD_some]

theorem trace_succ_of_none {n : ℕ} (h : step (trace step s₀ sched n) (sched n) = none) :
    trace step s₀ sched (n + 1) = trace step s₀ sched n := by
  rw [trace, h, Option.getD_none]

variable (step s₀ sched) in
/-- What a schedule comes to is the result of finitely many turns. -/
theorem exists_foldlM_trace (n : ℕ) :
    ∃ turns : List τ, turns.foldlM step s₀ = some (trace step s₀ sched n) := by
  induction n with
  | zero => exact ⟨[], rfl⟩
  | succ n ih =>
    obtain ⟨turns, hturns⟩ := ih
    cases h : step (trace step s₀ sched n) (sched n) with
    | none =>
      rw [trace_succ_of_none h]
      exact ⟨turns, hturns⟩
    | some s =>
      refine ⟨turns ++ [sched n], ?_⟩
      rw [trace_succ_of_some h, List.foldlM_append, hturns]
      simp [h]

variable (sched) in
theorem trace_invariant {P : σ → Prop} (hstep : ∀ s a s', P s → step s a = some s' → P s')
    (h : P s₀) (n : ℕ) : P (trace step s₀ sched n) := by
  obtain ⟨turns, hturns⟩ := exists_foldlM_trace step s₀ sched n
  exact Loop.foldlM_invariant P hstep h hturns

/-- Every party has its turn again and again; which turns count as a turn of the party may depend
on the state. -/
def Recurring (turn : κ → σ → τ → Prop) (step : σ → τ → Option σ) (s₀ : σ) (sched : ℕ → τ) : Prop :=
  ∀ k n, ∃ m, n ≤ m ∧ turn k (trace step s₀ sched m) (sched m)

/-- The schedule comes to a state in which `P` holds. -/
def Eventually (step : σ → τ → Option σ) (s₀ : σ) (sched : ℕ → τ) (P : σ → Prop) : Prop :=
  ∃ n, P (trace step s₀ sched n)

/-- What follows of a state that finitely many turns lead to. -/
theorem Eventually.mono {P Q : σ → Prop} (h : Eventually step s₀ sched P)
    (hPQ : ∀ (turns : List τ) s, turns.foldlM step s₀ = some s → P s → Q s) :
    Eventually step s₀ sched Q := by
  obtain ⟨n, hn⟩ := h
  obtain ⟨turns, hturns⟩ := exists_foldlM_trace step s₀ sched n
  exact ⟨n, hPQ turns _ hturns hn⟩

/-- In each state before the end, some party helps. -/
structure Helpful (step : σ → τ → Option σ) (P final : σ → Prop) (work : σ → ℕ) (helper : σ → κ)
    (turn : κ → σ → τ → Prop) : Prop where
  invariant : ∀ s a s', P s → step s a = some s' → P s'
  /-- Nothing is lost, and unless something is gained, the same party helps. -/
  keeps : ∀ s a s', P s → ¬final s → step s a = some s' →
    final s' ∨ work s' < work s ∨ work s' = work s ∧ helper s' = helper s
  /-- Its turn gains something. -/
  gains : ∀ s a, P s → ¬final s → turn (helper s) s a →
    ∃ s', step s a = some s' ∧ (final s' ∨ work s' < work s)

variable {P final : σ → Prop} {work : σ → ℕ} {helper : σ → κ} {turn : κ → σ → τ → Prop}

variable (sched) in
/-- Until something is gained, the same party helps. -/
theorem Helpful.waits (h : Helpful step P final work helper turn) (h₀ : P s₀) {n : ℕ}
    (hn : ¬final (trace step s₀ sched n)) (d : ℕ) :
    (∃ m, n ≤ m ∧ (final (trace step s₀ sched m) ∨
      work (trace step s₀ sched m) < work (trace step s₀ sched n))) ∨
    (¬final (trace step s₀ sched (n + d)) ∧
      work (trace step s₀ sched (n + d)) = work (trace step s₀ sched n) ∧
      helper (trace step s₀ sched (n + d)) = helper (trace step s₀ sched n)) := by
  induction d with
  | zero => exact Or.inr ⟨hn, rfl, rfl⟩
  | succ d ih =>
    rcases ih with hgain | ⟨hfinal, hwork, hhelper⟩
    · exact Or.inl hgain
    have hP := trace_invariant sched h.invariant h₀ (n + d)
    cases hs : step (trace step s₀ sched (n + d)) (sched (n + d)) with
    | none =>
      rw [← Nat.add_assoc, trace_succ_of_none hs]
      exact Or.inr ⟨hfinal, hwork, hhelper⟩
    | some s =>
      have htrace := trace_succ_of_some hs
      rw [← Nat.add_assoc, htrace]
      by_cases hend : final s
      · exact Or.inl ⟨n + d + 1, by omega, Or.inl (htrace ▸ hend)⟩
      rcases h.keeps _ _ _ hP hfinal hs with hend' | hlt | ⟨heq, hsame⟩
      · exact absurd hend' hend
      · exact Or.inl ⟨n + d + 1, by omega, Or.inr (htrace ▸ hwork ▸ hlt)⟩
      · exact Or.inr ⟨hend, heq.trans hwork, hsame.trans hhelper⟩

/-- **A fair schedule comes to the end.** -/
theorem Helpful.eventually (h : Helpful step P final work helper turn) (h₀ : P s₀)
    (hfair : Recurring turn step s₀ sched) : Eventually step s₀ sched final := by
  have hgain : ∀ n, ¬final (trace step s₀ sched n) → ∃ m, final (trace step s₀ sched m) ∨
      work (trace step s₀ sched m) < work (trace step s₀ sched n) := by
    intro n hn
    obtain ⟨m, hnm, hturn⟩ := hfair (helper (trace step s₀ sched n)) n
    obtain ⟨d, rfl⟩ := Nat.exists_eq_add_of_le hnm
    rcases h.waits sched h₀ hn d with ⟨m, -, hm⟩ | ⟨hfinal, hwork, hhelper⟩
    · exact ⟨m, hm⟩
    · have hP := trace_invariant sched h.invariant h₀ (n + d)
      rw [← hhelper] at hturn
      obtain ⟨s, hs, hgains⟩ := h.gains _ _ hP hfinal hturn
      refine ⟨n + d + 1, ?_⟩
      rw [trace_succ_of_some hs, ← hwork]
      exact hgains
  -- by induction on what is left to do
  have hleft : ∀ w n, work (trace step s₀ sched n) = w → ∃ m, final (trace step s₀ sched m) := by
    intro w
    induction w using Nat.strongRecOn with
    | _ w ih =>
      rintro n rfl
      by_cases hn : final (trace step s₀ sched n)
      · exact ⟨n, hn⟩
      · obtain ⟨m, hm | hlt⟩ := hgain n hn
        · exact ⟨m, hm⟩
        · exact ih _ hlt m rfl
  exact hleft _ 0 rfl

end LmaxBench.Fair
