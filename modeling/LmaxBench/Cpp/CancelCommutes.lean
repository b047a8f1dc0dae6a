import LmaxBench.Cpp.BookPlacement

/-!
# Cancelling before or after a limit

A limit that does not trade with a live order `X` never sees it: if it reached `X` with a
quantity left, it would fill it. So the loops of the limit run in step whether `X` is live or
has been cancelled, and the cancel may be moved across the limit.

## Main definitions

* `Drain.without`, `Sweep.without` — the states of the loops on the book without `X`.
* `drain_without`, `sweep_without` — the loops run in step.
* `Book.cancel_limit` — the cancel moves across the limit.
-/

namespace LmaxBench.Cpp
namespace Book

/-! ## The log only grows -/

theorem drainStep_log {d d' : Drain} (h : drainStep d = some d') : d.log <+: d'.log := by
  obtain ⟨-, head, rest, -, ⟨-, rfl⟩ | ⟨r, -, htally, -⟩⟩ := drainStep_cases h
  · exact List.prefix_refl _
  · have hlog : d'.log = d.log ++ _ := congrArg Tally.log htally
    rw [hlog]
    exact List.prefix_append _ _

theorem drain_log (d : Drain) : d.log <+: (drain d).log :=
  drain_invariant (fun e => d.log <+: e.log) (fun _ _ h hstep => h.trans (drainStep_log hstep))
    (List.prefix_refl _)

theorem sweepStep_log {side : UInt8} {price : ℤ} {s s' : Sweep}
    (h : sweepStep side price s = some s') : s.log <+: s'.log := by
  obtain ⟨-, p, lvl, l, -, -, rfl⟩ := sweepStep_cases h
  exact drain_log ⟨lvl, _, _, _, _, _⟩

theorem sweep_log (side : UInt8) (price : ℤ) (s : Sweep) :
    s.log <+: (sweep side price s).log :=
  sweep_invariant (fun t => s.log <+: t.log) (fun _ _ h hstep => h.trans (sweepStep_log hstep))
    (List.prefix_refl _)

/-- The fills in `log` are not with `X`. -/
def Misses (X : UInt64) (log : List Fill) : Prop := ∀ f ∈ log, f.maker ≠ X

instance (X : UInt64) (log : List Fill) : Decidable (Misses X log) :=
  inferInstanceAs (Decidable (∀ f ∈ log, f.maker ≠ X))

theorem Misses.of_prefix {X : UInt64} {log log' : List Fill} (h : Misses X log')
    (hpre : log <+: log') : Misses X log := fun f hf => h f (hpre.subset hf)

/-! ## The inner loop -/

/-- The inner loop on the live map without `X`. -/
def Drain.without (d : Drain) (X : UInt64) : Drain := { d with orders := d.orders.erase X }

/-- A round that does not fill the live order `X` is the same round without it. -/
theorem drainStep_without {d d' : Drain} {X : UInt64} (hlive : d.orders.find? X ≠ none)
    (h : drainStep d = some d') (hmiss : Misses X d'.log) :
    drainStep (d.without X) = some (d'.without X) ∧ d'.orders.find? X ≠ none := by
  obtain ⟨hq, head, rest, hlvl, hcase⟩ := drainStep_cases h
  cases hr : d.orders.find? head with
  | none =>
    have hdead : (d.without X).orders.find? head = none := by
      simp only [Drain.without, OrdMap.find?_erase, hr, ite_self]
    rw [drainStep_of_dead hq hlvl hr] at h
    obtain rfl := Option.some.inj h
    exact ⟨drainStep_of_dead (d := d.without X) hq hlvl hdead, hlive⟩
  | some r =>
    rw [drainStep_of_live hq hlvl hr] at h
    obtain rfl := Option.some.inj h
    have hne : head ≠ X := hmiss ⟨head, min d.qty r.qty⟩ (by simp)
    have hr' : (d.without X).orders.find? head = some r := by
      simp only [Drain.without, OrdMap.find?_erase, if_neg hne, hr]
    have hstep := drainStep_of_live (d := d.without X) hq hlvl hr'
    by_cases hleft : r.qty - min d.qty r.qty = 0
    · have hleft' : r.qty - min (d.without X).qty r.qty = 0 := hleft
      rw [if_pos hleft', if_pos hleft'] at hstep
      have hcomm : (d.orders.erase X).erase head = (d.orders.erase head).erase X :=
        OrdMap.alter_comm _ hne.symm _ _
      simp only [if_pos hleft]
      refine ⟨hstep.trans ?_, ?_⟩
      · simp only [Drain.without, hcomm]
      · rwa [OrdMap.find?_erase, if_neg hne.symm]
    · have hleft' : ¬ r.qty - min (d.without X).qty r.qty = 0 := hleft
      rw [if_neg hleft', if_neg hleft'] at hstep
      have hcomm : ∀ r', (d.orders.erase X).insert head r' = (d.orders.insert head r').erase X :=
        fun _ => OrdMap.alter_comm _ hne.symm _ _
      simp only [if_neg hleft]
      refine ⟨hstep.trans ?_, ?_⟩
      · simp only [Drain.without, hcomm]
      · rwa [OrdMap.find?_insert, if_neg hne.symm]

theorem drain_without {d : Drain} {X : UInt64} (hlive : d.orders.find? X ≠ none)
    (hmiss : Misses X (drain d).log) :
    drain (d.without X) = (drain d).without X ∧ (drain d).orders.find? X ≠ none := by
  induction d using Loop.exec_induction drain_variant with
  | exit d h =>
    have hexit := drainStep_eq_none.mp h
    rw [drain_of_exit hexit, drain_of_exit (s := d.without X) hexit]
    exact ⟨rfl, hlive⟩
  | round d d' h ih =>
    rw [drain_of_step h] at hmiss ⊢
    obtain ⟨hstep, hlive'⟩ := drainStep_without hlive h (hmiss.of_prefix (drain_log d'))
    rw [drain_of_step hstep]
    exact ih hlive' hmiss

/-! ## The outer loop -/

/-- The outer loop on the book without `X`. -/
def Sweep.without (s : Sweep) (X : UInt64) : Sweep := { s with book := s.book.cancel X }

theorem sweepStep_without {side : UInt8} {price : ℤ} {s s' : Sweep} {X : UInt64}
    (hlive : s.book.orders.find? X ≠ none) (h : sweepStep side price s = some s')
    (hmiss : Misses X s'.log) :
    sweepStep side price (s.without X) = some (s'.without X) ∧
      s'.book.orders.find? X ≠ none := by
  obtain ⟨hq, p, lvl, l, hl, hcross, rfl⟩ := sweepStep_cases h
  have hbest : (s.without X).book.bestCrossing side price = some (p, lvl) :=
    bestCrossing_eq_some.mpr ⟨hcross, l, hl⟩
  obtain ⟨hdrain, hlive'⟩ := drain_without (d := ⟨lvl, _, _, _, _, _⟩) hlive hmiss
  have hdrain' : (s.without X).drainOf lvl = (s.drainOf lvl).without X := hdrain
  rw [sweepStep_of_some (s := s.without X) hq hbest, hdrain']
  exact ⟨rfl, hlive'⟩

theorem sweep_without {side : UInt8} {price : ℤ} {s : Sweep} {X : UInt64}
    (hlive : s.book.orders.find? X ≠ none) (hmiss : Misses X (sweep side price s).log) :
    sweep side price (s.without X) = (sweep side price s).without X := by
  induction s using Loop.exec_induction (sweep_variant side price) with
  | exit s h =>
    have hexit := sweepStep_eq_none.mp h
    rw [sweep_of_exit hexit, sweep_of_exit (s := s.without X) hexit]
  | round s s' h ih =>
    rw [sweep_of_step h] at hmiss ⊢
    obtain ⟨hstep, hlive'⟩ := sweepStep_without hlive h (hmiss.of_prefix (sweep_log side price s'))
    rw [sweep_of_step hstep]
    exact ih hlive' hmiss

/-! ## The operation -/

theorem rest_cancel (b : Book) (side : UInt8) (price qty : ℤ) {id X : UInt64} (hne : id ≠ X) :
    (b.cancel X).rest side price qty id = (b.rest side price qty id).cancel X := by
  simp only [rest, cancel, OrdMap.emplace, OrdMap.erase, OrdMap.alter_comm b.orders hne.symm]

/-- **A cancel moves across a limit** that does not trade with the order cancelled. -/
theorem cancel_limit {b : Book} {side : UInt8} {price qty : ℤ} {id X : UInt64} (hne : id ≠ X)
    (hlive : b.orders.find? X ≠ none) (hmiss : Misses X (b.limitLog side price qty)) :
    (b.cancel X).limit side price qty id = (b.limit side price qty id).cancel X := by
  have hsweep : sweep side price { book := b.cancel X, qty } =
      (sweep side price { book := b, qty }).without X :=
    sweep_without (s := { book := b, qty }) hlive hmiss
  simp only [limit, hsweep, Sweep.without]
  split
  · exact rest_cancel _ side price _ hne
  · rfl

/-- **A cancel commutes with a limit** that does not trade with the order cancelled, on every
book that orders with ids that are not used again lead to. -/
theorem cancel_limit_comm {ops : List Op} {side : UInt8} {price qty : ℤ} {id X : UInt64}
    (hops : NeverReused (ops ++ [.limit side price qty id]))
    (hlive : (run ops).orders.find? X ≠ none)
    (hmiss : Misses X ((run ops).limitLog side price qty)) :
    ((run ops).cancel X).limit side price qty id =
      ((run ops).limit side price qty id).cancel X := by
  have hp : (run ops).Placed ops :=
    placed_run (noLiveReuse_of_neverReused (hops.of_prefix (List.prefix_append _ _)))
  have hfresh : (run ops).orders.find? id = none := hp.fresh hops
  have hne : id ≠ X := by
    rintro rfl
    exact hlive hfresh
  exact cancel_limit hne hlive hmiss

/-- The order cancelled is next after an exact exhaustion, and the only one of its level. -/
theorem cancel_limit_comm_next :
    ((run [.limit 1 11 2 1, .limit 1 12 5 2]).cancel 2).limit 0 12 2 3 =
      ((run [.limit 1 11 2 1, .limit 1 12 5 2]).limit 0 12 2 3).cancel 2 :=
  cancel_limit_comm (by decide) (by decide) (by decide)

end Book
end LmaxBench.Cpp
