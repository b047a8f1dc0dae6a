import LmaxBench.Lib.Fair
import LmaxBench.Rust.HarnessFinish

/-!
# The harness in Rust comes to its end

The main thread waits while it is early, while the ring has no slot, and at the end until all is
handled; the crate's thread waits while there is nothing to hand over. Whatever waits of a
disruptor that is alive are in between, what is published is handed over at the next turn of the
crate's thread, and once nothing is left, the main thread goes on. So the run ends under every
schedule that gives both threads a turn again and again, and the main one not only when it is
early.

## Main definitions

* `Harness.Thread`, `Harness.Thread.helper` — the thread that has something to do.
* `Harness.Scheduled` — the fair schedules.
* `Harness.joins_if_fair` — they end, on both books, with the report of the sequential run.
-/

namespace LmaxBench.Rust

/-- A rate of zero is the only one that is divided by in vain. -/
theorem Params.exists_interval {c : Params} (h : c.rate ≠ some 0) :
    ∃ interval, c.interval = some interval := by
  rw [interval]
  cases hr : c.rate with
  | none => exact ⟨none, rfl⟩
  | some r =>
    have hne : r ≠ 0 := by
      rintro rfl
      exact h hr
    exact ⟨_, if_neg hne⟩

namespace Harness

variable {ρ H : Type} {R : Hdr H} {D : Disruptor ρ} {pending : ρ → List Event} {c : Params}
  {interval : Option UInt64} {book : AnyBook} {hist : H} {ring : ρ} {t₀ : UInt64}
  {s s' : Harness ρ H}

/-! ## A turn loses nothing -/

/-- **The main thread loses nothing**: it advances, or it is early. -/
theorem Inv.producer_work (hD : D.Ordered pending)
    (h : Inv R pending c interval book hist t₀ s) (hstep : s.producerStep D c interval = some s') :
    s' = s ∨ work pending c s' < work pending c s := by
  have hfed := h.fed
  obtain ⟨now, ring, stage, i, wl, nextDue, core, handled, times⟩ := s
  dsimp only at hfed
  cases hfed with
  | next =>
    refine Or.inr ?_
    simp only [producerStep] at hstep
    obtain rfl := Option.some.inj hstep
    by_cases hlt : i < c.totalOps
    · rw [if_pos hlt]
      cases interval with
      | some iv => simp [work, sentOf, stageWork]
      | none => simp [work, sentOf, stageWork]
    · rw [if_neg hlt]
      simp [work, sentOf, stageWork]
  | pace =>
    simp only [producerStep] at hstep
    split at hstep
    · exact Or.inl (Option.some.inj hstep).symm
    · obtain rfl := Option.some.inj hstep
      exact Or.inr (by simp [work, sentOf, stageWork])
  | @publish _ n _ hn hsent =>
    obtain ⟨ring', hring', heq⟩ := Option.bind_eq_some_iff.mp hstep
    obtain rfl := Option.some.inj heq
    obtain ⟨e, hpending⟩ := hD.publish hring'
    have hlen := hsent.length_eq (by rw [length_requests]; omega)
    exact Or.inr (work_sent (by simp [sentOf, hpending]) hpending hlen (by omega) le_rfl)
  | request hsent =>
    obtain ⟨ring', hring', heq⟩ := Option.bind_eq_some_iff.mp hstep
    obtain rfl := Option.some.inj heq
    obtain ⟨e, hpending⟩ := hD.publish hring'
    have hlen := hsent.length_eq (by rw [length_requests]; omega)
    exact Or.inr
      (work_sent (by simp [sentOf, hpending]) hpending hlen (by omega) (by simp [stageWork]))
  | drop =>
    obtain ⟨_, -, heq⟩ := Option.bind_eq_some_iff.mp hstep
    obtain rfl := Option.some.inj heq
    exact Or.inr (by simp [work, sentOf, stageWork])
  | joined => simp [producerStep] at hstep

/-- The crate's thread has handed over an event. -/
theorem consumer_work (hD : D.Ordered pending) (hstep : s.consumerStep R D = some s') :
    work pending c s' < work pending c s := by
  obtain ⟨⟨e, ring⟩, htake, hbind⟩ := Option.bind_eq_some_iff.mp hstep
  obtain ⟨core, -, heq⟩ := Option.bind_eq_some_iff.mp hbind
  obtain rfl := Option.some.inj heq
  have hpending := hD.take htake
  simp [work, sentOf, hpending]

/-! ## Who helps -/

/-- The two threads. -/
inductive Thread
  | main
  | core
  deriving DecidableEq

namespace Thread

/-- The thread that has something to do. -/
def helper (pending : ρ → List Event) (s : Harness ρ H) : Thread :=
  if (pending s.ring).isEmpty then .main else .core

/-- What counts as a turn of a thread: the main one must not be early. -/
def HasTurn (s : Harness ρ H) (turn : Turn) : Thread → Prop
  | .main => turn = .producer ∧ s.nextDue ≤ s.now
  | .core => turn = .consumer

end Thread

/-- A schedule under which both threads have their turn again and again. -/
def Scheduled (R : Hdr H) (D : Disruptor ρ) (c : Params) (interval : Option UInt64)
    (book : AnyBook) (hist : H) (ring : ρ) (t₀ : UInt64) (sched : ℕ → Turn) : Prop :=
  Fair.Recurring (fun t s turn => Thread.HasTurn s turn t) (step R D c interval)
    (start book hist ring t₀) sched

theorem helpful (hD : D.Ordered pending) (hL : D.Live pending) (hserves : Serves book c) :
    Fair.Helpful (step R D c interval) (Inv R pending c interval book hist t₀)
      (fun s => s.stage = .joined) (work pending c) (Thread.helper pending)
      fun t s turn => Thread.HasTurn s turn t where
  invariant _ _ _ h hstep := inv_step hD h hstep
  keeps := by
    intro s turn s' h _ hstep
    refine Or.inr ?_
    cases turn with
    | tick now =>
      obtain ⟨-, heq⟩ := Option.ite_none_right_eq_some.mp hstep
      obtain rfl := Option.some.inj heq
      exact Or.inr ⟨rfl, rfl⟩
    | producer =>
      rcases h.producer_work hD hstep with rfl | hlt
      · exact Or.inr ⟨rfl, rfl⟩
      · exact Or.inl hlt
    | consumer => exact Or.inl (consumer_work hD hstep)
  gains := by
    intro s turn h hjoined hturn
    rw [Thread.helper] at hturn
    split at hturn
    case isTrue hempty =>
      obtain ⟨rfl, hdue⟩ := hturn
      obtain ⟨s', hs', hlt⟩ := h.producer_advances hD hL (List.isEmpty_iff.mp hempty)
        (fun _ _ => hdue) hjoined
      exact ⟨s', hs', Or.inr hlt⟩
    case isFalse hne =>
      obtain rfl : turn = .consumer := hturn
      obtain ⟨e, ring, htake⟩ := hL.take (mt List.isEmpty_iff.mpr hne)
      obtain ⟨core, hevent⟩ := h.exists_onEvent hserves (hD.take htake)
      have hs' : s.consumerStep R D =
          some { s with ring, core, handled := s.handled ++ [e], times := s.times ++ [s.now] } := by
        simp only [consumerStep, htake, Option.bind_eq_bind, Option.bind_some, hevent]
      exact ⟨_, hs', Or.inr (consumer_work hD hs')⟩

/-! ## The end -/

/-- The run comes to its end, and returns the report of the sequential run. -/
def Returns (R : Hdr H) (D : Disruptor ρ) (c : Params) (interval : Option UInt64) (book : AnyBook)
    (hist : H) (ring : ρ) (t₀ : UInt64) (sched : ℕ → Turn) : Prop :=
  Fair.Eventually (step R D c interval) (start book hist ring t₀) sched fun s =>
    s.stage = .joined ∧ ∃ rep, s.core.report = some rep ∧ Delivered R c interval book hist t₀ s rep

theorem returns_of_scheduled (hD : D.Ordered pending) (hL : D.Live pending)
    (hring : pending ring = []) (hserves : Serves book c) {sched : ℕ → Turn}
    (h : Scheduled R D c interval book hist ring t₀ sched) :
    Returns R D c interval book hist ring t₀ sched := by
  have hstart := inv_start R hring c interval book hist t₀
  refine ((helpful hD hL hserves).eventually hstart h).mono ?_
  intro turns s hrun hjoined
  have hinv : Inv R pending c interval book hist t₀ s :=
    Loop.foldlM_invariant _ (fun _ _ _ h hstep => inv_step hD h hstep) hstart hrun
  obtain ⟨rep, hrep⟩ := hinv.exists_report hjoined
  exact ⟨hjoined, rep, hrep, hinv.delivered hrep⟩

/-- **Every fair schedule ends**, on both books and on every disruptor that is alive, with the
report of the sequential run; a rate of zero is the only one that does not get that far. -/
theorem joins_if_fair (R : Hdr H) (hD : D.Ordered pending) (hL : D.Live pending)
    (hring : pending ring = []) (hrate : c.rate ≠ some 0) (tuned : Bool) (hist : H)
    (t₀ : UInt64) :
    ∃ interval, c.interval = some interval ∧ ∀ sched : ℕ → Turn,
      Scheduled R D c interval (engineFromEnv tuned) hist ring t₀ sched →
        Returns R D c interval (engineFromEnv tuned) hist ring t₀ sched := by
  obtain ⟨interval, hinterval⟩ := Params.exists_interval hrate
  exact ⟨interval, hinterval, fun _ h =>
    returns_of_scheduled hD hL hring (serves_engine tuned c) h⟩

/-- Without pacing, no operation is due later than the run starts. -/
theorem producerStep_nextDue (hstep : s.producerStep D c none = some s') :
    s'.nextDue = s.nextDue ∧ s'.now = s.now := by
  simp only [producerStep] at hstep
  split at hstep
  case h_1 | h_2 =>
    obtain rfl := Option.some.inj hstep
    split <;> exact ⟨rfl, rfl⟩
  case h_3 | h_4 | h_5 =>
    obtain ⟨ring, -, heq⟩ := Option.bind_eq_some_iff.mp hstep
    obtain rfl := Option.some.inj heq
    exact ⟨rfl, rfl⟩
  case h_6 => simp at hstep

/-- Then any schedule will do that lets nobody starve. -/
theorem scheduled_of_unpaced {sched : ℕ → Turn} (hmain : ∀ n, ∃ m, n ≤ m ∧ sched m = .producer)
    (hcore : ∀ n, ∃ m, n ≤ m ∧ sched m = .consumer) :
    Scheduled R D c none book hist ring t₀ sched := by
  have hdue : ∀ n, (Fair.trace (step R D c none) (start book hist ring t₀) sched n).nextDue ≤
      (Fair.trace (step R D c none) (start book hist ring t₀) sched n).now := by
    refine Fair.trace_invariant sched (P := fun s : Harness ρ H => s.nextDue ≤ s.now) ?_ le_rfl
    intro s turn s' h hstep
    cases turn with
    | tick now =>
      obtain ⟨hnow, heq⟩ := Option.ite_none_right_eq_some.mp hstep
      obtain rfl := Option.some.inj heq
      exact h.trans hnow
    | producer =>
      obtain ⟨hnext, hnow⟩ := producerStep_nextDue hstep
      rw [hnext, hnow]
      exact h
    | consumer =>
      obtain ⟨⟨e, ring⟩, -, hbind⟩ := Option.bind_eq_some_iff.mp hstep
      obtain ⟨core, -, heq⟩ := Option.bind_eq_some_iff.mp hbind
      obtain rfl := Option.some.inj heq
      exact h
  rintro (_ | _) n
  · obtain ⟨m, hm, hturn⟩ := hmain n
    exact ⟨m, hm, hturn, hdue m⟩
  · exact hcore n

/-- The two threads take turns over a million operations. -/
theorem joins_if_fair_in_turns :
    Returns ⟨fun l x => (l ++ [x], true)⟩ (Disruptor.fifo 65536) ⟨1000000, 0, none⟩ none
      (engineFromEnv true) ([] : List UInt64) [] 5
      fun n => if n % 2 = 0 then .producer else .consumer := by
  have hmain : ∀ n, ∃ m, n ≤ m ∧ (if m % 2 = 0 then Turn.producer else .consumer) = .producer :=
    fun n => ⟨2 * n, by omega, if_pos (by omega)⟩
  have hcore : ∀ n, ∃ m, n ≤ m ∧ (if m % 2 = 0 then Turn.producer else .consumer) = .consumer :=
    fun n => ⟨2 * n + 1, by omega, if_neg (by omega)⟩
  obtain ⟨interval, hinterval, h⟩ := joins_if_fair (c := ⟨1000000, 0, none⟩)
    ⟨fun l x => (l ++ [x], true)⟩ (Disruptor.fifo_ordered 65536) (Disruptor.fifo_live (by decide))
    rfl (by simp) true ([] : List UInt64) 5
  obtain rfl : none = interval := Option.some.inj hinterval
  exact h _ (scheduled_of_unpaced hmain hcore)

end Harness
end LmaxBench.Rust
