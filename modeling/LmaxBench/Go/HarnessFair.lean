import LmaxBench.Go.HarnessFinish
import LmaxBench.Lib.Fair

/-!
# The harness in Go comes to its end

Both goroutines spin: the main one while it is early and while the ring is full, the other one
while the ring is empty. Turns are lost on that, as many as the scheduler likes, but none of them
undoes what was done, and whoever has something to do still has it afterwards. So the run ends
under every schedule that gives both of them a turn again and again, and the main one not only
when it is early.

## Main definitions

* `Harness.Goroutine`, `Harness.Goroutine.helper` — the goroutine that has something to do.
* `Harness.Scheduled` — the fair schedules.
* `Harness.returns_if_fair` — they end, on both engines, with the report of the sequential run.
-/

namespace LmaxBench.Go
namespace Harness

variable {σ H : Type} {E : Engine σ} {R : Hdr H} {c : Params} {t₀ : UInt64} {s s' : Harness σ H}

/-! ## A turn loses nothing -/

/-- Sending an event goes on, or the ring is full. -/
theorem send_cases {p p' : Pipe} {todo : List Store} {left : Option (List Store)}
    (h : p.send todo = some (p', left)) :
    p'.consumer = p.consumer ∧ p'.released = p.released ∧
      ((p' = p ∧ left = some todo) ∨
        (∃ todo', left = some todo' ∧ p'.published = p.published ∧
          sendWork p' todo' < sendWork p todo) ∨
        (left = none ∧ p'.published.length = p.published.length + 1)) := by
  simp only [Pipe.send] at h
  split at h
  all_goals
    obtain ⟨q, hstep, heq⟩ := Option.map_eq_some_iff.mp h
    obtain ⟨rfl, rfl⟩ := Prod.mk.inj heq
  case h_1 hp =>
    obtain ⟨-, heq⟩ := Option.ite_none_right_eq_some.mp hstep
    obtain rfl := Option.some.inj heq
    refine ⟨rfl, rfl, Or.inr (Or.inl ⟨_, rfl, rfl, ?_⟩)⟩
    simp [sendWork, hp]
  case h_2 next hp =>
    obtain ⟨next', hp', rfl⟩ := Pipe.step_test hstep
    obtain rfl : next = next' := Producer.spinning.inj (hp.symm.trans hp')
    cases hfull : p.ring.isFull next with
    | true =>
      -- busy-spin: the ring is full
      refine ⟨rfl, rfl, Or.inl ⟨?_, rfl⟩⟩
      rw [if_pos rfl, ← hp]
    | false =>
      refine ⟨rfl, rfl, Or.inr (Or.inl ⟨_, rfl, rfl, ?_⟩)⟩
      simp [sendWork, hp]
  case h_3 slot st todo hp =>
    obtain ⟨slot', e, -, -, rfl⟩ := Pipe.step_write hstep
    refine ⟨rfl, rfl, Or.inr (Or.inl ⟨todo, rfl, rfl, ?_⟩)⟩
    simp [sendWork, hp]
  case h_4 slot hp =>
    obtain ⟨slot', e, -, -, rfl⟩ := Pipe.step_publish hstep
    exact ⟨rfl, rfl, Or.inr (Or.inr ⟨rfl, List.length_append⟩)⟩

theorem drainWork_congr {p p' : Pipe} (hconsumer : p'.consumer = p.consumer)
    (hreleased : p'.released = p.released) (hpub : p'.published = p.published) :
    drainWork p' = drainWork p := by
  rw [drainWork, drainWork, hconsumer, hreleased, hpub]

theorem drainWork_publish {p p' : Pipe} (hconsumer : p'.consumer = p.consumer)
    (hreleased : p'.released = p.released)
    (hpub : p'.published.length = p.published.length + 1) : drainWork p' ≤ drainWork p + 4 := by
  rw [drainWork, drainWork, hconsumer, hreleased, hpub]
  cases p.consumer <;> dsimp only <;> omega

/-- The state after a step of sending an event: with stores left, the goroutine is still at it. -/
def Continues (p : Pipe) (s : Harness σ H) : Option (List Store) → Prop
  | some todo => s.pipe = p ∧ stageWork p s.stage = sendWork p todo
  | none => s.pipe = p ∧ stageWork p s.stage ≤ 12

variable (s s') in
/-- A step of sending an event brings the end closer, or the goroutine spins. -/
theorem send_work {p : Pipe} {todo : List Store} {left : Option (List Store)}
    (hlen : s.pipe.published.length ≤ c.totalOps.toNat)
    (hsend : s.pipe.send todo = some (p, left)) :
    (p = s.pipe ∧ left = some todo) ∨ (stageWork s.pipe s.stage = sendWork s.pipe todo →
      Continues p s' left → work c s' < work c s) := by
  have hpos := sendWork_pos s.pipe todo
  obtain ⟨hconsumer, hreleased, hspins | ⟨todo', rfl, hpub, hlt⟩ | ⟨rfl, hpub⟩⟩ := send_cases hsend
  · exact Or.inl hspins
  · have hdrain := drainWork_congr hconsumer hreleased hpub
    refine Or.inr ?_
    rintro hstage ⟨rfl, hnext⟩
    rw [work, work, hnext, hstage, hdrain, hpub]
    omega
  · have hdrain := drainWork_publish hconsumer hreleased hpub
    refine Or.inr ?_
    rintro hstage ⟨rfl, hnext⟩
    rw [work, work, hstage, hpub]
    omega

/-- **The main goroutine loses nothing**: it advances, or spins. -/
theorem Inv.producer_work (h : Inv E R c t₀ s) (hstep : s.producerStep c = some s') :
    s'.stage = .returned ∨ s' = s ∨ work c s' < work c s := by
  have hfed := h.fed
  obtain ⟨now, pipe, stage, i, wl, nextDue, book, hist, done, times⟩ := s
  dsimp only at hfed
  cases stage with
  | next =>
    refine Or.inr (Or.inr ?_)
    simp only [producerStep] at hstep
    split at hstep
    · obtain rfl := Option.some.inj hstep
      split
      · simp only [work, stageWork]
        omega
      · have hle := sendWork_le pipe (opStores wl.nextOp 0)
        simp only [opStores, List.length_cons, List.length_nil] at hle
        simp only [work, stageWork, opStores]
        omega
    · obtain rfl := Option.some.inj hstep
      have hle := sendWork_le pipe reportStores
      simp only [reportStores, List.length_cons, List.length_nil] at hle
      simp only [work, stageWork, reportStores]
      omega
  | pace =>
    simp only [producerStep] at hstep
    split at hstep
    · obtain rfl := Option.some.inj hstep
      exact Or.inr (Or.inl rfl)
    · obtain rfl := Option.some.inj hstep
      refine Or.inr (Or.inr ?_)
      generalize (if c.warmupOps ≤ i then nextDue else 0) = ts
      have hle := sendWork_le pipe (opStores wl ts)
      simp only [opStores, List.length_cons, List.length_nil] at hle
      simp only [work, stageWork, opStores]
      omega
  | send todo =>
    have hlen : pipe.published.length ≤ c.totalOps.toNat := by
      cases hfed with
      | send _ hn hsent =>
        rw [hsent.length_eq (by rw [length_requests]; omega)]
        exact hn.le
    obtain ⟨⟨p', left⟩, hsend, hleft⟩ := Option.bind_eq_some_iff.mp hstep
    replace hsend : pipe.send todo = some (p', left) := hsend
    rcases send_work ⟨now, pipe, .send todo, i, wl, nextDue, book, hist, done, times⟩ s' hlen hsend
      with ⟨rfl, rfl⟩ | hwork
    · exact Or.inr (Or.inl (Option.some.inj hleft).symm)
    · refine Or.inr (Or.inr (hwork rfl ?_))
      cases left with
      | some todo' =>
        obtain rfl := Option.some.inj hleft
        exact ⟨rfl, rfl⟩
      | none =>
        obtain rfl := Option.some.inj hleft
        exact ⟨rfl, le_rfl⟩
  | request todo =>
    have hlen : pipe.published.length ≤ c.totalOps.toNat := by
      cases hfed with
      | request hsent => exact (hsent.length_eq (by rw [length_requests]; omega)).le
    obtain ⟨⟨p', left⟩, hsend, hleft⟩ := Option.bind_eq_some_iff.mp hstep
    replace hsend : pipe.send todo = some (p', left) := hsend
    rcases send_work ⟨now, pipe, .request todo, i, wl, nextDue, book, hist, done, times⟩ s' hlen
      hsend with ⟨rfl, rfl⟩ | hwork
    · exact Or.inr (Or.inl (Option.some.inj hleft).symm)
    · refine Or.inr (Or.inr (hwork rfl ?_))
      cases left with
      | some todo' =>
        obtain rfl := Option.some.inj hleft
        exact ⟨rfl, rfl⟩
      | none =>
        obtain rfl := Option.some.inj hleft
        exact ⟨rfl, Nat.le_add_left 1 11⟩
  | await =>
    obtain ⟨-, heq⟩ := Option.ite_none_right_eq_some.mp hstep
    obtain rfl := Option.some.inj heq
    exact Or.inl rfl
  | returned => simp [producerStep] at hstep

/-- Where nothing is left for it, a turn of the other goroutine changes nothing. -/
theorem Inv.consumer_spins (h : Inv E R c t₀ s) (hquiet : Quiet s.pipe)
    (hstep : s.consumerStep E R = some s') : s' = s := by
  have hp := hquiet.waiting
  have heq : s.pipe.ring.prod = s.pipe.seq := (h.pipe.prod_eq_seq_iff hp).mpr hquiet.released.symm
  simp only [consumerStep, hp] at hstep
  obtain ⟨pipe, hload, hs⟩ := Option.bind_eq_some_iff.mp hstep
  obtain ⟨-, hpipe⟩ := Option.ite_none_right_eq_some.mp hload
  obtain rfl := Option.some.inj hpipe
  obtain rfl := Option.some.inj hs
  rw [if_pos heq, ← hp]

/-- **The other goroutine loses nothing**: it advances, or spins. -/
theorem Inv.consumer_work (h : Inv E R c t₀ s) (hserves : Serves E c)
    (hstep : s.consumerStep E R = some s') : s' = s ∨ work c s' < work c s := by
  by_cases hquiet : Quiet s.pipe
  · exact Or.inl (h.consumer_spins hquiet hstep)
  · have hstop : s.pipe.consumer ≠ .stopped := by
      intro hstop
      simp [consumerStep, hstop] at hstep
    obtain ⟨s'', hs'', hlt⟩ := h.consumer_advances hserves hstop fun hwaiting =>
      lt_of_le_of_ne h.pipe.released_le fun heq => hquiet ⟨hwaiting, heq⟩
    obtain rfl := Option.some.inj (hs''.symm.trans hstep)
    exact Or.inr hlt

/-! ## Who helps -/

/-- The two goroutines. -/
inductive Goroutine
  | main
  | consumer
  deriving DecidableEq

namespace Goroutine

instance (p : Pipe) : Decidable (Quiet p) :=
  decidable_of_iff (p.consumer = .waiting ∧ p.released = p.published.length)
    ⟨fun h => ⟨h.1, h.2⟩, fun h => ⟨h.waiting, h.released⟩⟩

/-- The goroutine that has something to do. -/
def helper (s : Harness σ H) : Goroutine :=
  if s.pipe.consumer = .stopped ∨ Quiet s.pipe then .main else .consumer

/-- What counts as a turn of a goroutine: the main one must not be early. -/
def HasTurn (s : Harness σ H) (turn : Turn) : Goroutine → Prop
  | .main => turn = .producer ∧ s.nextDue ≤ s.now
  | .consumer => turn = .consumer

end Goroutine

/-- A schedule under which both goroutines have their turn again and again. -/
def Scheduled (E : Engine σ) (R : Hdr H) (c : Params) (t₀ : UInt64) (sched : ℕ → Turn) : Prop :=
  ∀ {s₀}, start E R c t₀ = some s₀ →
    Fair.Recurring (fun g s turn => Goroutine.HasTurn s turn g) (step E R c) s₀ sched

theorem helpful (t₀ : UInt64) (hserves : Serves E c) :
    Fair.Helpful (step E R c) (Inv E R c t₀) (fun s => s.stage = .returned) (work c)
      Goroutine.helper fun g s turn => Goroutine.HasTurn s turn g where
  invariant _ _ _ h hstep := inv_step h hstep
  keeps := by
    intro s turn s' h _ hstep
    cases turn with
    | tick now =>
      obtain ⟨-, heq⟩ := Option.ite_none_right_eq_some.mp hstep
      obtain rfl := Option.some.inj heq
      exact Or.inr (Or.inr ⟨rfl, rfl⟩)
    | producer =>
      rcases h.producer_work hstep with hend | rfl | hlt
      · exact Or.inl hend
      · exact Or.inr (Or.inr ⟨rfl, rfl⟩)
      · exact Or.inr (Or.inl hlt)
    | consumer =>
      rcases h.consumer_work hserves hstep with rfl | hlt
      · exact Or.inr (Or.inr ⟨rfl, rfl⟩)
      · exact Or.inr (Or.inl hlt)
  gains := by
    intro s turn h hreturned hturn
    rw [Goroutine.helper] at hturn
    split at hturn
    case isTrue hmain =>
      obtain ⟨rfl, hdue⟩ := hturn
      by_cases hstop : s.pipe.consumer = .stopped
      · have hawait := h.await_of_stopped hstop hreturned
        have hdone := h.drained.reported.mp hstop
        refine ⟨{ s with stage := .returned }, ?_, Or.inl rfl⟩
        simp only [step, producerStep, hawait, hdone, if_true]
      · have hquiet := hmain.resolve_left hstop
        obtain ⟨s', hs', hlt⟩ := h.producer_advances hquiet (fun _ => hdue)
          (fun hawait => h.not_quiet_of_await hawait hquiet) hreturned
        exact ⟨s', hs', Or.inr hlt⟩
    case isFalse hnot =>
      obtain rfl : turn = .consumer := hturn
      obtain ⟨hstop, hquiet⟩ := not_or.mp hnot
      obtain ⟨s', hs', hlt⟩ := h.consumer_advances hserves hstop fun hwaiting =>
        lt_of_le_of_ne h.pipe.released_le fun heq => hquiet ⟨hwaiting, heq⟩
      exact ⟨s', hs', Or.inr hlt⟩

/-! ## The end -/

/-- The main goroutine returns with a report only. -/
def Answered (s : Harness σ H) : Prop := s.stage = .returned → s.done.isSome = true

theorem Inv.answered_step {turn : Turn} (h : Inv E R c t₀ s) (hs : Answered s)
    (hstep : s.step E R c turn = some s') : Answered s' := by
  intro hreturned
  cases turn with
  | tick now =>
    obtain ⟨-, heq⟩ := Option.ite_none_right_eq_some.mp hstep
    obtain rfl := Option.some.inj heq
    exact hs hreturned
  | producer =>
    replace hstep : s.producerStep c = some s' := hstep
    obtain ⟨-, -, -, -, -, -, hdone, -⟩ := producerStep_spec h.fed hstep
    rw [hdone]
    simp only [producerStep] at hstep
    split at hstep
    case h_1 =>
      split at hstep
      · obtain rfl := Option.some.inj hstep
        split at hreturned <;> simp at hreturned
      · obtain rfl := Option.some.inj hstep
        simp at hreturned
    case h_2 hstage =>
      split at hstep
      · obtain rfl := Option.some.inj hstep
        rw [hstage] at hreturned
        simp at hreturned
      · obtain rfl := Option.some.inj hstep
        simp at hreturned
    case h_3 | h_4 =>
      obtain ⟨⟨pipe, left⟩, -, hleft⟩ := Option.bind_eq_some_iff.mp hstep
      cases left <;>
      · obtain rfl := Option.some.inj hleft
        simp at hreturned
    case h_5 => exact (Option.ite_none_right_eq_some.mp hstep).1
    case h_6 => simp at hstep
  | consumer =>
    -- there is a report, so the other goroutine has returned
    replace hstep : s.consumerStep E R = some s' := hstep
    obtain ⟨-, -, hstage, -⟩ := consumerStep_spec h hstep
    have hstop := h.drained.reported.mpr (hs (hstage ▸ hreturned))
    simp [consumerStep, hstop] at hstep

/-- The run starts, and comes to the end `P`. -/
def Ends (E : Engine σ) (R : Hdr H) (c : Params) (t₀ : UInt64) (sched : ℕ → Turn)
    (P : Harness σ H → Prop) : Prop :=
  ∃ s₀, start E R c t₀ = some s₀ ∧ Fair.Eventually (step E R c) s₀ sched P

/-- The run comes to its end, and returns the report of the sequential run. -/
def Returns (E : Engine σ) (R : Hdr H) (c : Params) (t₀ : UInt64) (sched : ℕ → Turn) : Prop :=
  Ends E R c t₀ sched fun s =>
    s.stage = .returned ∧ ∃ rep, s.done = some rep ∧ Delivered E R c t₀ s rep

theorem Ends.mono {sched : ℕ → Turn} {P Q : Harness σ H → Prop} (h : Ends E R c t₀ sched P)
    (hmono : ∀ turns s, run E R c t₀ turns = some s → P s → Q s) : Ends E R c t₀ sched Q := by
  obtain ⟨s₀, hs₀, hends⟩ := h
  exact ⟨s₀, hs₀, hends.mono fun turns s hturns =>
    hmono turns s (Option.bind_eq_some_iff.mpr ⟨s₀, hs₀, hturns⟩)⟩

theorem answered_start (hstart : start E R c t₀ = some s) : Answered s := by
  obtain ⟨book, -, heq⟩ := start_eq_some_iff.mp hstart
  obtain rfl := Option.some.inj heq
  simp [Answered]

theorem returns_of_scheduled (hserves : Serves E c) {sched : ℕ → Turn}
    (h : Scheduled E R c t₀ sched) : Returns E R c t₀ sched := by
  obtain ⟨s₀, hs₀⟩ := exists_start_of_serves R t₀ hserves
  have hends : Ends E R c t₀ sched fun s => s.stage = .returned :=
    ⟨s₀, hs₀, (helpful t₀ hserves).eventually (inv_start hs₀) (h hs₀)⟩
  refine hends.mono fun turns s hrun hreturned => ?_
  obtain ⟨hinv, hanswered⟩ : Inv E R c t₀ s ∧ Answered s :=
    run_invariant (fun s => Inv E R c t₀ s ∧ Answered s)
      (fun hstart => ⟨inv_start hstart, answered_start hstart⟩)
      (fun _ _ _ h hstep => ⟨inv_step h.1 hstep, h.1.answered_step h.2 hstep⟩) hrun
  obtain ⟨rep, hrep⟩ := Option.isSome_iff_exists.mp (hanswered hreturned)
  exact ⟨hreturned, rep, hrep, hinv.delivered hrep⟩

/-- **Every fair schedule ends**, on both engines, the tuned one as long as its slices can be made,
with the report of the sequential run. -/
theorem returns_if_fair (R : Hdr H) (c : Params) (t₀ : UInt64) (sched : ℕ → Turn) :
    (Scheduled Book.engine R c t₀ sched → Returns Book.engine R c t₀ sched) ∧
      (c.totalOps.toNat + 2 ≤ maxLen →
        Scheduled TunedBook.engine R c t₀ sched → Returns TunedBook.engine R c t₀ sched) :=
  ⟨returns_of_scheduled (serves_book c), fun h => returns_of_scheduled (serves_tuned h)⟩

/-- Without pacing, no operation is due later than the run starts. -/
theorem producerStep_nextDue (hrate : c.rate = 0) (hstep : s.producerStep c = some s') :
    s'.nextDue = s.nextDue ∧ s'.now = s.now := by
  have hinterval : ¬0 < c.interval := by simp [Params.interval, hrate]
  simp only [producerStep, if_neg hinterval] at hstep
  split at hstep
  case h_1 | h_2 =>
    split at hstep
    all_goals
      obtain rfl := Option.some.inj hstep
      exact ⟨rfl, rfl⟩
  case h_3 | h_4 =>
    obtain ⟨⟨pipe, left⟩, -, hleft⟩ := Option.bind_eq_some_iff.mp hstep
    cases left <;>
    · obtain rfl := Option.some.inj hleft
      exact ⟨rfl, rfl⟩
  case h_5 =>
    obtain ⟨-, heq⟩ := Option.ite_none_right_eq_some.mp hstep
    obtain rfl := Option.some.inj heq
    exact ⟨rfl, rfl⟩
  case h_6 => simp at hstep

/-- Then any schedule will do that lets nobody starve. -/
theorem scheduled_of_unpaced (hrate : c.rate = 0) {sched : ℕ → Turn}
    (hmain : ∀ n, ∃ m, n ≤ m ∧ sched m = .producer)
    (hconsumer : ∀ n, ∃ m, n ≤ m ∧ sched m = .consumer) : Scheduled E R c t₀ sched := by
  intro s₀ hs₀
  have hstart : s₀.nextDue ≤ s₀.now := by
    obtain ⟨book, -, heq⟩ := start_eq_some_iff.mp hs₀
    obtain rfl := Option.some.inj heq
    exact le_rfl
  have hdue : ∀ n, Inv E R c t₀ (Fair.trace (step E R c) s₀ sched n) ∧
      (Fair.trace (step E R c) s₀ sched n).nextDue ≤
        (Fair.trace (step E R c) s₀ sched n).now := by
    refine Fair.trace_invariant sched
      (P := fun s : Harness σ H => Inv E R c t₀ s ∧ s.nextDue ≤ s.now) ?_
      ⟨inv_start hs₀, hstart⟩
    intro s turn s' h hstep
    refine ⟨inv_step h.1 hstep, ?_⟩
    cases turn with
    | tick now =>
      obtain ⟨hnow, heq⟩ := Option.ite_none_right_eq_some.mp hstep
      obtain rfl := Option.some.inj heq
      exact h.2.trans hnow
    | producer =>
      obtain ⟨hnext, hnow⟩ := producerStep_nextDue hrate hstep
      rw [hnext, hnow]
      exact h.2
    | consumer =>
      obtain ⟨-, -, -, -, -, hnext, hnow⟩ := consumerStep_spec h.1 hstep
      rw [hnext, hnow]
      exact h.2
  rintro (_ | _) n
  · obtain ⟨m, hm, hturn⟩ := hmain n
    exact ⟨m, hm, hturn, (hdue m).2⟩
  · exact hconsumer n

/-- The two goroutines take turns over a million operations. -/
theorem returns_if_fair_in_turns :
    Returns Book.engine ⟨[], fun l x => l ++ [x]⟩ ⟨1000000, 0, 0⟩ 5
        (fun n => if n % 2 = 0 then .producer else .consumer) ∧
      Returns TunedBook.engine ⟨[], fun l x => l ++ [x]⟩ ⟨1000000, 0, 0⟩ 5
        (fun n => if n % 2 = 0 then .producer else .consumer) := by
  have hmain : ∀ n, ∃ m, n ≤ m ∧ (if m % 2 = 0 then Turn.producer else .consumer) = .producer :=
    fun n => ⟨2 * n, by omega, if_pos (by omega)⟩
  have hconsumer : ∀ n, ∃ m, n ≤ m ∧ (if m % 2 = 0 then Turn.producer else .consumer) = .consumer :=
    fun n => ⟨2 * n + 1, by omega, if_neg (by omega)⟩
  obtain ⟨hbook, htuned⟩ := returns_if_fair (⟨[], fun l x => l ++ [x]⟩ : Hdr (List Int64))
    ⟨1000000, 0, 0⟩ 5 fun n => if n % 2 = 0 then .producer else .consumer
  exact ⟨hbook (scheduled_of_unpaced rfl hmain hconsumer),
    htuned (by decide) (scheduled_of_unpaced rfl hmain hconsumer)⟩

end Harness
end LmaxBench.Go
