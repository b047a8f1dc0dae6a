import LmaxBench.Rust.HarnessRun

/-!
# The harness in Rust can always be finished

From every point of every interleaving, few more turns end it: the crate's thread has something to
handle, or the main thread has room, or the clock brings the next operation closer.

## Main definitions

* `Harness.work` — the steps that are left.
* `Harness.Inv.exists_advance` — one of the threads can take one of them.
* `Harness.Finishes`, `Harness.can_finish` — the end of a run is never out of reach.
-/

namespace LmaxBench.Rust
namespace Harness

variable {ρ H : Type} {R : Hdr H} {D : Disruptor ρ} {pending : ρ → List Event} {c : Params}
  {interval : Option UInt64} {book : AnyBook} {hist : H} {t₀ : UInt64} {s s' : Harness ρ H}

/-! ## What is left to do -/

/-- The steps of the main thread before it is at the head of its loop again. -/
def stageWork : Stage → ℕ
  | .next => 4
  | .pace _ => 3
  | .publish .. | .request => 2
  | .drop => 1
  | .joined => 0

/-- The steps that are left. -/
def work (pending : ρ → List Event) (c : Params) (s : Harness ρ H) : ℕ :=
  8 * (c.totalOps.toNat + 1 - (sentOf pending s).length) + stageWork s.stage +
    (pending s.ring).length

/-- One event sent is one step less for each. -/
theorem work_sent {n : ℕ} {sent sent' pend pend' : List Event} {e : Event} {w w' total : ℕ}
    (hsent : sent' = sent ++ [e]) (hpend : pend' = pend ++ [e]) (hlen : sent.length = n)
    (hn : n < total + 1) (hw : w' ≤ w + 2) :
    8 * (total + 1 - sent'.length) + w' + pend'.length <
      8 * (total + 1 - sent.length) + w + pend.length := by
  rw [hsent, hpend, List.length_append, List.length_append, List.length_singleton]
  omega

/-- With nothing pending, the main thread advances, unless it is pacing and too early. -/
theorem Inv.producer_advances (hD : D.Ordered pending) (hL : D.Live pending)
    (h : Inv R pending c interval book hist t₀ s) (hempty : pending s.ring = [])
    (hdue : ∀ op, s.stage = .pace op → s.nextDue ≤ s.now) (hjoined : s.stage ≠ .joined) :
    ∃ s', s.producerStep D c interval = some s' ∧ work pending c s' < work pending c s := by
  have hfed := h.fed
  obtain ⟨now, ring, stage, i, wl, nextDue, core, handled, times⟩ := s
  dsimp only at hfed hempty hdue hjoined
  cases hfed with
  | next =>
    simp only [producerStep]
    by_cases hlt : i < c.totalOps
    · rw [if_pos hlt]
      cases interval with
      | some iv => exact ⟨_, rfl, by simp [work, sentOf, stageWork]⟩
      | none => exact ⟨_, rfl, by simp [work, sentOf, stageWork]⟩
    · rw [if_neg hlt]
      exact ⟨_, rfl, by simp [work, sentOf, stageWork]⟩
  | pace =>
    have hlate := not_lt.mpr (hdue _ rfl)
    simp only [producerStep, if_neg hlate]
    exact ⟨_, rfl, by simp [work, sentOf, stageWork]⟩
  | @publish _ n _ hn hsent =>
    obtain ⟨ring', hring'⟩ := hL.publish hempty
      (fillOp ((Gen.new 42).after n).nextOp.1 (stampOf c interval t₀ n))
    obtain ⟨e, hpending⟩ := hD.publish hring'
    simp only [producerStep, hring']
    refine ⟨_, rfl, ?_⟩
    have hlen := hsent.length_eq (by rw [length_requests]; omega)
    exact work_sent (by simp [sentOf, hpending]) hpending hlen (by omega) le_rfl
  | request hsent =>
    obtain ⟨ring', hring'⟩ := hL.publish hempty fillReport
    obtain ⟨e, hpending⟩ := hD.publish hring'
    simp only [producerStep, hring']
    refine ⟨_, rfl, ?_⟩
    have hlen := hsent.length_eq (by rw [length_requests]; omega)
    exact work_sent (by simp [sentOf, hpending]) hpending hlen (by omega) (by simp [stageWork])
  | drop =>
    simp only [producerStep, hL.drop hempty]
    exact ⟨_, rfl, by simp [work, sentOf, stageWork]⟩
  | joined => exact absurd rfl hjoined

/-- **From every point that is not the end**, one or two turns bring the run closer to it. -/
theorem Inv.exists_advance (hD : D.Ordered pending) (hL : D.Live pending) (hserves : Serves book c)
    (h : Inv R pending c interval book hist t₀ s) (hjoined : s.stage ≠ .joined) :
    ∃ (turns : List Turn) (s' : Harness ρ H), turns.length ≤ 2 ∧
      turns.foldlM (step R D c interval) s = some s' ∧
        Inv R pending c interval book hist t₀ s' ∧ work pending c s' < work pending c s := by
  have hone : ∀ turn {s'}, s.step R D c interval turn = some s' →
      work pending c s' < work pending c s → ∃ (turns : List Turn) (s' : Harness ρ H),
        turns.length ≤ 2 ∧ turns.foldlM (step R D c interval) s = some s' ∧
          Inv R pending c interval book hist t₀ s' ∧ work pending c s' < work pending c s := by
    intro turn s' hs' hlt
    refine ⟨[turn], s', by simp, ?_, inv_step hD h hs', hlt⟩
    rw [List.foldlM_cons, hs']
    rfl
  by_cases hempty : pending s.ring = []
  · by_cases hearly : (∃ op, s.stage = .pace op) ∧ s.now < s.nextDue
    · have htick : s.step R D c interval (.tick s.nextDue) = some { s with now := s.nextDue } :=
        if_pos hearly.2.le
      have hinv := inv_step hD h htick
      obtain ⟨s', hs', hlt⟩ := hinv.producer_advances hD hL hempty (fun _ _ => le_rfl) hjoined
      have hstep : step R D c interval { s with now := s.nextDue } .producer = some s' := hs'
      refine ⟨[.tick s.nextDue, .producer], s', le_rfl, ?_, inv_step hD hinv hstep, hlt⟩
      rw [List.foldlM_cons, htick]
      simp only [Option.bind_eq_bind, Option.bind_some, List.foldlM_cons, hstep]
      rfl
    · obtain ⟨s', hs', hlt⟩ := h.producer_advances hD hL hempty
        (fun op hop => not_lt.mp fun hlt => hearly ⟨⟨op, hop⟩, hlt⟩) hjoined
      exact hone .producer hs' hlt
  · obtain ⟨e, ring, htake⟩ := hL.take hempty
    have hpending := hD.take htake
    obtain ⟨core, hevent⟩ := h.exists_onEvent hserves hpending
    have hs' : s.step R D c interval .consumer =
        some { s with ring, core, handled := s.handled ++ [e], times := s.times ++ [s.now] } := by
      simp only [step, consumerStep, htake]
      simp only [Option.bind_eq_bind, Option.bind_some, hevent]
    refine hone _ hs' ?_
    simp [work, sentOf, hpending]

/-- From every point, the run can be finished. -/
theorem Inv.exists_finish (hD : D.Ordered pending) (hL : D.Live pending) (hserves : Serves book c)
    (h : Inv R pending c interval book hist t₀ s) :
    ∃ (turns : List Turn) (s' : Harness ρ H), turns.length ≤ 2 * work pending c s ∧
      turns.foldlM (step R D c interval) s = some s' ∧ s'.stage = .joined := by
  refine Loop.exists_run (P := Inv R pending c interval book hist t₀) ?_ h
  exact fun _ hs hnot => hs.exists_advance hD hL hserves hnot

/-! ## The end -/

/-- The run can be ended by a few turns for each operation. -/
def Finishes (R : Hdr H) (D : Disruptor ρ) (c : Params) (interval : Option UInt64)
    (s : Harness ρ H) : Prop :=
  ∃ (turns : List Turn) (s' : Harness ρ H), turns.length ≤ 16 * c.totalOps.toNat + 24 ∧
    turns.foldlM (step R D c interval) s = some s' ∧ s'.stage = .joined

theorem Inv.work_le (h : Inv R pending c interval book hist t₀ s) :
    work pending c s ≤ 8 * c.totalOps.toNat + 12 := by
  obtain ⟨n, hsent⟩ := h.fed.exists_sent
  have hle := hsent.length_le
  have hpending : (pending s.ring).length ≤ (sentOf pending s).length := by
    rw [sentOf, List.length_append]
    exact Nat.le_add_left ..
  have hstage : stageWork s.stage ≤ 4 := by cases s.stage <;> simp [stageWork]
  rw [length_requests] at hle
  rw [work]
  omega

/-- **No schedule gets stuck**, on both books: from every point of every interleaving, the run can
be finished, in a number of turns that is linear in the number of operations. -/
theorem can_finish (R : Hdr H) (hD : D.Ordered pending) (hL : D.Live pending) {ring : ρ}
    (hring : pending ring = []) (c : Params) (tuned : Bool) (hist : H) (t₀ : UInt64)
    {turns : List Turn}
    (hrun : run R D c (engineFromEnv tuned) hist ring t₀ turns = some s) :
    ∃ interval, c.interval = some interval ∧ Finishes R D c interval s := by
  obtain ⟨interval, hinterval, -, h⟩ := inv_run hD hring hrun
  obtain ⟨turns', s', hlen, hrun', hfinal⟩ :=
    h.exists_finish hD hL (serves_engine tuned c)
  have hwork := h.work_le
  exact ⟨interval, hinterval, turns', s', by omega, hrun', hfinal⟩

/-- With a million operations to go, the main thread is pacing the first of them. -/
theorem can_finish_early :
    ∃ s, runKept ⟨1000000, 0, some 1⟩ false 5 [.producer] = some s ∧
      Finishes ⟨fun l x => (l ++ [x], true)⟩ (Disruptor.fifo 65536) ⟨1000000, 0, some 1⟩
        (some 1000000000) s := by
  obtain ⟨s, hs⟩ : ∃ s, runKept ⟨1000000, 0, some 1⟩ false 5 [.producer] = some s := ⟨_, rfl⟩
  obtain ⟨interval, hinterval, h⟩ := can_finish _ (Disruptor.fifo_ordered 65536)
    (Disruptor.fifo_live (by decide)) rfl _ false [] 5 hs
  obtain rfl : some 1000000000 = interval := Option.some.inj hinterval
  exact ⟨s, hs, h⟩

end Harness
end LmaxBench.Rust
