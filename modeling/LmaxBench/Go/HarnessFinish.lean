import LmaxBench.Go.BookRefine
import LmaxBench.Go.HarnessRun
import LmaxBench.Go.TunedRefine

/-!
# The harness in Go can always be finished

From every point of every interleaving, few more turns end it: a goroutine that has nothing to
wait for brings the run closer to its end, and where the main one is pacing, so does the clock.

What is left is measured in steps: of each event not published yet, of each published event that
is not released, and of the event under way.

## Main definitions

* `Harness.work` — the steps that are left.
* `Harness.Inv.exists_advance` — some goroutine can take one of them.
* `Harness.Outcome`, `Harness.any_interleaving` — what holds of every interleaving, for both
  engines.
* `Harness.Finishes`, `Harness.never_stuck` — the end of a run is never out of reach.
-/

namespace LmaxBench.Go
namespace Harness

variable {σ H : Type} {E : Engine σ} {R : Hdr H} {c : Params} {t₀ : UInt64} {s : Harness σ H}

/-! ## What is left to do -/

/-- The steps that sending the event under way takes. -/
def sendWork (p : Pipe) (todo : List Store) : ℕ :=
  match p.producer with
  | .idle => todo.length + 3
  | .spinning _ => todo.length + 2
  | .writing _ => todo.length + 1

/-- The steps of the main goroutine before it is at the head of its loop again. -/
def stageWork (p : Pipe) : Stage → ℕ
  | .next => 12
  | .pace => 11
  | .send todo | .request todo => sendWork p todo
  | .await => 1
  | .returned => 0

/-- The steps of the other goroutine for what is published. -/
def drainWork (p : Pipe) : ℕ :=
  match p.consumer with
  | .waiting => 4 * (p.published.length - p.released)
  | .ready => 4 * (p.published.length - p.released) - 1
  | .handling => 4 * (p.published.length - p.released) - 2
  | .releasing => 4 * (p.published.length - p.released) - 3
  | .stopped => 0

/-- All steps that are left. -/
def work (c : Params) (s : Harness σ H) : ℕ :=
  16 * (c.totalOps.toNat + 1 - s.pipe.published.length) + stageWork s.pipe s.stage +
    drainWork s.pipe

/-- A goroutine took a step towards the end. -/
def Advances (E : Engine σ) (R : Hdr H) (c : Params) (s : Harness σ H) (turn : Turn) : Prop :=
  ∃ s', s.step E R c turn = some s' ∧ work c s' < work c s

/-! ## The other goroutine -/

/-- Unless all that is published is released, or the request is handled, the other goroutine
advances. -/
theorem Inv.consumer_advances (h : Inv E R c t₀ s) (hserves : Serves E c)
    (hp : s.pipe.consumer ≠ .stopped)
    (hleft : s.pipe.consumer = .waiting → s.pipe.released < s.pipe.published.length) :
    Advances E R c s .consumer := by
  obtain ⟨s', hs'⟩ := h.consumer_ready hserves hp
  refine ⟨s', hs', ?_⟩
  have hsaw := h.pipe.saw
  simp only [consumerStep] at hs'
  split at hs'
  case h_1 hc =>
    obtain ⟨pipe, hload, heq⟩ := Option.bind_eq_some_iff.mp hs'
    obtain rfl := Option.some.inj heq
    obtain ⟨-, hpipe⟩ := Option.ite_none_right_eq_some.mp hload
    have hlt := hleft hc
    have hne : s.pipe.ring.prod ≠ s.pipe.seq := by
      rw [ne_eq, h.pipe.prod_eq_seq_iff hc]
      omega
    rw [if_neg hne] at hpipe
    obtain rfl := Option.some.inj hpipe
    have hstage : stageWork { s.pipe with consumer := .ready } s.stage = stageWork s.pipe s.stage :=
      rfl
    simp only [work, drainWork, hc, hstage]
    omega
  case h_2 hc =>
    obtain ⟨pipe, htake, heq⟩ := Option.bind_eq_some_iff.mp hs'
    obtain rfl := Option.some.inj heq
    obtain ⟨-, hpipe⟩ := Option.ite_none_right_eq_some.mp htake
    obtain rfl := Option.some.inj hpipe
    rw [hc, Consumer.saw] at hsaw
    have hstage : stageWork { s.pipe with seq := s.pipe.seq + 1, consumer := .handling } s.stage =
        stageWork s.pipe s.stage := rfl
    simp only [work, drainWork, hc, hstage]
    omega
  case h_3 hc =>
    obtain ⟨e, hget, hbind⟩ := Option.bind_eq_some_iff.mp hs'
    obtain ⟨pipe, hhandle, hevent⟩ := Option.bind_eq_some_iff.mp hbind
    have hframe : s'.pipe = pipe ∧ s'.stage = s.stage := by
      simp only [handleEvent] at hevent
      split at hevent
      · obtain ⟨b, -, heq⟩ := Option.bind_eq_some_iff.mp hevent
        obtain rfl := Option.some.inj heq
        exact ⟨rfl, rfl⟩
      · obtain ⟨stats, -, heq⟩ := Option.bind_eq_some_iff.mp hevent
        obtain rfl := Option.some.inj heq
        exact ⟨rfl, rfl⟩
    obtain ⟨e', -, -, rfl⟩ := Pipe.step_handle hhandle
    rw [hc, Consumer.saw] at hsaw
    rw [work, work, hframe.1, hframe.2]
    have hstage : ∀ consumer handled, stageWork { s.pipe with consumer, handled } s.stage =
        stageWork s.pipe s.stage := fun _ _ => rfl
    rw [hstage]
    cases e'.stops with
    | true =>
      simp only [drainWork, hc, if_true]
      omega
    | false =>
      simp only [drainWork, hc, Bool.false_eq_true, if_false]
      omega
  case h_4 hc =>
    obtain ⟨pipe, hstore, heq⟩ := Option.bind_eq_some_iff.mp hs'
    obtain rfl := Option.some.inj heq
    obtain ⟨-, hpipe⟩ := Option.ite_none_right_eq_some.mp hstore
    obtain rfl := Option.some.inj hpipe
    rw [hc, Consumer.saw] at hsaw
    have hstage : stageWork
        { s.pipe with
          ring := { s.pipe.ring with cons := s.pipe.seq }
          consumer := .waiting
          released := s.pipe.released + 1 } s.stage = stageWork s.pipe s.stage := rfl
    simp only [work, drainWork, hc, hstage]
    omega
  case h_5 hc => exact absurd hc hp

/-! ## The main goroutine -/

/-- Where everything published is released, there is room: each step of sending an event brings
it closer to its publication. -/
theorem send_advances {p : Pipe} (h : p.Inv) (hdrained : p.released = p.published.length)
    (todo : List Store) :
    ∃ p' left, p.send todo = some (p', left) ∧ p'.consumer = p.consumer ∧
      p'.released = p.released ∧
        ((∃ todo', left = some todo' ∧ p'.published = p.published ∧
            sendWork p' todo' < sendWork p todo) ∨
          (left = none ∧ p'.published.length = p.published.length + 1)) := by
  cases hp : p.producer with
  | idle =>
    have hclaim : p.step .claim = some { p with producer := .spinning (p.ring.prod + 1) } :=
      if_pos hp
    refine ⟨{ p with producer := .spinning (p.ring.prod + 1) }, some todo, ?_, rfl, rfl,
      Or.inl ⟨todo, rfl, rfl, ?_⟩⟩
    · simp only [Pipe.send, hp, hclaim]
      rfl
    · simp [sendWork, hp]
  | spinning next =>
    have hroom : p.ring.isFull next = false := by
      rw [Bool.eq_false_iff, ne_eq, h.isFull_iff hp, hdrained, Pipe.ringSize_toNat]
      omega
    have htest : p.step .test = some { p with producer := .writing (p.ring.slot next) } := by
      simp only [Pipe.step, hp, hroom]
      rfl
    refine ⟨{ p with producer := .writing (p.ring.slot next) }, some todo, ?_, rfl, rfl,
      Or.inl ⟨todo, rfl, rfl, ?_⟩⟩
    · simp only [Pipe.send, hp, htest]
      rfl
    · simp [sendWork, hp]
  | writing slot =>
    have hlt : slot.toNat < p.ring.buf.length := h.slot hp ▸ h.slotOf_lt _
    obtain ⟨e, hget⟩ : ∃ e, p.ring.buf[slot.toNat]? = some e := ⟨_, List.getElem?_eq_getElem hlt⟩
    cases todo with
    | nil =>
      have hpublish : p.step .publish = some { p with
          ring := p.ring.publish
          producer := .idle
          published := p.published ++ [e] } := by
        simp only [Pipe.step, hp, hget]
        rfl
      refine ⟨{ p with
        ring := p.ring.publish
        producer := .idle
        published := p.published ++ [e] }, none, ?_, rfl, rfl, Or.inr ⟨rfl, ?_⟩⟩
      · simp only [Pipe.send, hp, hpublish]
        rfl
      · simp
    | cons st todo =>
      have hwrite : p.step (.write st) = some
          { p with ring := { p.ring with buf := p.ring.buf.set slot.toNat (st.apply e) } } := by
        simp only [Pipe.step, hp, hget]
        rfl
      refine ⟨{ p with
        ring := { p.ring with buf := p.ring.buf.set slot.toNat (st.apply e) } }, some todo, ?_, rfl,
        rfl, Or.inl ⟨todo, rfl, rfl, ?_⟩⟩
      · simp only [Pipe.send, hp, hwrite]
        rfl
      · simp [sendWork, hp]

theorem sendWork_pos (p : Pipe) (todo : List Store) : 0 < sendWork p todo := by
  rw [sendWork]
  split <;> omega

theorem sendWork_le (p : Pipe) (todo : List Store) : sendWork p todo ≤ todo.length + 3 := by
  rw [sendWork]
  split <;> omega

/-- Everything published is released, and the other goroutine waits for more. -/
structure Quiet (p : Pipe) : Prop where
  waiting : p.consumer = .waiting
  released : p.released = p.published.length

theorem Quiet.drainWork_eq {p : Pipe} (h : Quiet p) : drainWork p = 0 := by
  simp [drainWork, h.waiting, h.released]

/-- Sending one event, in the two stages that do. -/
theorem Quiet.send {p : Pipe} (h : Quiet p) (hinv : p.Inv) (todo : List Store) :
    ∃ p' left, p.send todo = some (p', left) ∧
      ((∃ todo', left = some todo' ∧ p'.published = p.published ∧ drainWork p' = 0 ∧
          sendWork p' todo' < sendWork p todo) ∨
        (left = none ∧ p'.published.length = p.published.length + 1 ∧ drainWork p' = 4)) := by
  obtain ⟨p', left, hsend, hconsumer, hreleased, hcase⟩ := send_advances hinv h.released todo
  refine ⟨p', left, hsend, ?_⟩
  rcases hcase with ⟨todo', hleft, hpub, hlt⟩ | ⟨hleft, hpub⟩
  · refine Or.inl ⟨todo', hleft, hpub, ?_, hlt⟩
    rw [drainWork, hconsumer, h.waiting, hreleased, hpub, h.released]
    simp
  · refine Or.inr ⟨hleft, hpub, ?_⟩
    rw [drainWork, hconsumer, h.waiting, hreleased, hpub, h.released]
    dsimp only
    omega

/-- Where everything published is released, the main goroutine advances, unless it is pacing and
too early, or waits for the report. -/
theorem Inv.producer_advances (h : Inv E R c t₀ s) (hquiet : Quiet s.pipe)
    (hdue : s.stage = .pace → s.nextDue ≤ s.now) (hawait : s.stage ≠ .await)
    (hreturned : s.stage ≠ .returned) : Advances E R c s .producer := by
  have hfed := h.fed
  have hquiet' := hquiet.drainWork_eq
  have hstep : s.step E R c .producer = s.producerStep c := rfl
  rw [Advances, hstep]
  obtain ⟨now, pipe, stage, i, wl, nextDue, book, hist, done, times⟩ := s
  dsimp only at hfed hquiet hquiet' hdue hawait hreturned
  cases stage with
  | next =>
    by_cases hlt : i < c.totalOps
    · simp only [producerStep, if_pos hlt]
      refine ⟨_, rfl, ?_⟩
      split
      · simp only [work, stageWork]
        omega
      · have hle := sendWork_le pipe (opStores wl.nextOp 0)
        simp only [opStores, List.length_cons, List.length_nil] at hle
        simp only [work, stageWork, opStores]
        omega
    · simp only [producerStep, if_neg hlt]
      refine ⟨_, rfl, ?_⟩
      have hle := sendWork_le pipe reportStores
      simp only [reportStores, List.length_cons, List.length_nil] at hle
      simp only [work, stageWork, reportStores]
      omega
  | pace =>
    have hlate : ¬now < nextDue := not_lt.mpr (hdue rfl)
    simp only [producerStep, if_neg hlate]
    refine ⟨_, rfl, ?_⟩
    generalize (if c.warmupOps ≤ i then nextDue else 0) = ts
    have hle := sendWork_le pipe (opStores wl ts)
    simp only [opStores, List.length_cons, List.length_nil] at hle
    simp only [work, stageWork, opStores]
    omega
  | send todo =>
    have hlen : pipe.published.length < c.totalOps.toNat := by
      cases hfed with
      | send _ hn hsent =>
        rw [hsent.length_eq (by rw [length_requests]; omega)]
        exact hn
    have hpos := sendWork_pos pipe todo
    obtain ⟨p', left, hsend, hcase⟩ := hquiet.send h.pipe todo
    rcases hcase with ⟨todo', rfl, hpub, hdrain, hlt⟩ | ⟨rfl, hpub, hdrain⟩
    · simp only [producerStep, hsend]
      refine ⟨_, rfl, ?_⟩
      simp only [work, stageWork, hdrain, hpub]
      omega
    · simp only [producerStep, hsend]
      refine ⟨_, rfl, ?_⟩
      simp only [work, stageWork, hdrain, hpub]
      omega
  | request todo =>
    have hlen : pipe.published.length = c.totalOps.toNat := by
      cases hfed with
      | request hsent => exact hsent.length_eq (by rw [length_requests]; omega)
    have hpos := sendWork_pos pipe todo
    obtain ⟨p', left, hsend, hcase⟩ := hquiet.send h.pipe todo
    rcases hcase with ⟨todo', rfl, hpub, hdrain, hlt⟩ | ⟨rfl, hpub, hdrain⟩
    · simp only [producerStep, hsend]
      refine ⟨_, rfl, ?_⟩
      simp only [work, stageWork, hdrain, hpub]
      omega
    · simp only [producerStep, hsend]
      refine ⟨_, rfl, ?_⟩
      simp only [work, stageWork, hdrain, hpub]
      omega
  | await => exact absurd rfl hawait
  | returned => exact absurd rfl hreturned

/-! ## Together -/

/-- Before the main goroutine waits for the report, the request for it is not published. -/
theorem Fed.length_published_le {now i nextDue : UInt64} {stage : Stage} {p : Pipe} {wl : Gen}
    (h : Fed c t₀ now stage p i wl nextDue) (hawait : stage ≠ .await)
    (hreturned : stage ≠ .returned) : p.published.length ≤ c.totalOps.toNat := by
  have hlen := length_requests c t₀
  cases h with
  | next _ hn hsent _ =>
    rw [hsent.length_eq (by omega)]
    exact hn
  | pace _ hn hsent _ _ | send _ hn hsent _ _ =>
    rw [hsent.length_eq (by omega)]
    exact hn.le
  | request hsent _ => exact (hsent.length_eq (by omega)).le
  | await => exact absurd rfl hawait
  | returned => exact absurd rfl hreturned

theorem Inv.length_published (h : Inv E R c t₀ s) (hawait : s.stage = .await) :
    s.pipe.published.length = c.totalOps.toNat + 1 := by
  have hfed := h.fed
  rw [hawait] at hfed
  cases hfed with
  | await hsent => exact hsent.length_eq (by rw [length_requests])

/-- Once the request is handled, the main goroutine waits for the report. -/
theorem Inv.await_of_stopped (h : Inv E R c t₀ s) (hstop : s.pipe.consumer = .stopped)
    (hreturned : s.stage ≠ .returned) : s.stage = .await := by
  by_contra hawait
  obtain ⟨n, hsent⟩ := h.fed.exists_sent
  obtain ⟨b₀, -, hfolded⟩ := h.drained.folded
  rw [decide_eq_true hstop] at hfolded
  have hlen := congrArg List.length (hfolded.eq_run hsent h.pipe.prefix_handled).1
  rw [List.length_map, Pipeline.length_script, length_requests] at hlen
  have hle := h.pipe.prefix_handled.length_le
  have hpub := h.fed.length_published_le hawait hreturned
  omega

/-- While the main goroutine waits for the report, the other one has something to handle. -/
theorem Inv.not_quiet_of_await (h : Inv E R c t₀ s) (hawait : s.stage = .await) :
    ¬Quiet s.pipe := by
  intro hquiet
  obtain ⟨n, hsent⟩ := h.fed.exists_sent
  obtain ⟨b₀, -, hfolded⟩ := h.drained.folded
  have hlen := h.pipe.handled_length
  rw [hquiet.waiting] at hfolded hlen
  have hle := (hfolded.eq_take hsent h.pipe.prefix_handled).1
  rw [length_requests] at hle
  rw [hquiet.released, h.length_published hawait, Consumer.gave] at hlen
  omega

/-- **From every point that is not the end**, one or two turns bring the run closer to it. -/
theorem Inv.exists_advance (h : Inv E R c t₀ s) (hserves : Serves E c)
    (hreturned : s.stage ≠ .returned) :
    ∃ (turns : List Turn) (s' : Harness σ H), turns.length ≤ 2 ∧
      turns.foldlM (step E R c) s = some s' ∧ Inv E R c t₀ s' ∧ work c s' < work c s := by
  have hone : ∀ turn, Advances E R c s turn →
      ∃ (turns : List Turn) (s' : Harness σ H), turns.length ≤ 2 ∧
        turns.foldlM (step E R c) s = some s' ∧ Inv E R c t₀ s' ∧ work c s' < work c s := by
    rintro turn ⟨s', hs', hlt⟩
    refine ⟨[turn], s', by simp, ?_, inv_step h hs', hlt⟩
    rw [List.foldlM_cons, hs']
    rfl
  by_cases hstop : s.pipe.consumer = .stopped
  · have hawait := h.await_of_stopped hstop hreturned
    have hdone := h.drained.reported.mp hstop
    refine hone .producer ⟨{ s with stage := .returned }, ?_, ?_⟩
    · simp only [step, producerStep, hawait, hdone, if_true]
    · simp only [work, hawait, stageWork]
      omega
  by_cases hquiet : Quiet s.pipe
  · have hawait : s.stage ≠ .await := fun hawait => h.not_quiet_of_await hawait hquiet
    by_cases hearly : s.stage = .pace ∧ s.now < s.nextDue
    · have htick : s.step E R c (.tick s.nextDue) = some { s with now := s.nextDue } :=
        if_pos hearly.2.le
      have hinv := inv_step h htick
      obtain ⟨s', hs', hlt⟩ := hinv.producer_advances hquiet (fun _ => le_rfl) hawait hreturned
      refine ⟨[.tick s.nextDue, .producer], s', le_rfl, ?_, inv_step hinv hs', hlt⟩
      rw [List.foldlM_cons, htick]
      simp only [Option.bind_eq_bind, Option.bind_some, List.foldlM_cons, hs']
      rfl
    · exact hone _ (h.producer_advances hquiet
        (fun hpace => not_lt.mp fun hlt => hearly ⟨hpace, hlt⟩) hawait hreturned)
  · refine hone _ (h.consumer_advances hserves hstop ?_)
    intro hwaiting
    refine lt_of_le_of_ne h.pipe.released_le ?_
    exact fun heq => hquiet ⟨hwaiting, heq⟩

/-- From every point, the run can be finished. -/
theorem Inv.exists_finish (h : Inv E R c t₀ s) (hserves : Serves E c) :
    ∃ (turns : List Turn) (s' : Harness σ H), turns.length ≤ 2 * work c s ∧
      turns.foldlM (step E R c) s = some s' ∧ s'.stage = .returned := by
  refine Loop.exists_run (P := Inv E R c t₀) ?_ h
  exact fun _ hs hnot => hs.exists_advance hserves hnot

/-! ## How much is left at most -/

/-- No event has more than six fields. -/
def Short : Stage → Prop
  | .send todo | .request todo => todo.length ≤ 6
  | .next | .pace | .await | .returned => True

theorem short_start (hstart : start E R c t₀ = some s) : Short s.stage := by
  obtain ⟨book, -, heq⟩ := start_eq_some_iff.mp hstart
  obtain rfl := Option.some.inj heq
  exact trivial

theorem length_of_send {p p' : Pipe} {todo todo' : List Store}
    (h : p.send todo = some (p', some todo')) : todo'.length ≤ todo.length := by
  simp only [Pipe.send] at h
  split at h
  all_goals
    obtain ⟨q, -, heq⟩ := Option.map_eq_some_iff.mp h
    obtain ⟨-, hleft⟩ := Prod.mk.inj heq
  case h_1 | h_2 => exact (congrArg List.length (Option.some.inj hleft)).ge
  case h_3 =>
    obtain rfl := Option.some.inj hleft
    exact Nat.le_succ _
  case h_4 => simp at hleft

theorem Inv.short_step {s' : Harness σ H} {turn : Turn} (hinv : Inv E R c t₀ s)
    (h : Short s.stage) (hstep : s.step E R c turn = some s') : Short s'.stage := by
  cases turn with
  | tick now =>
    obtain ⟨-, heq⟩ := Option.ite_none_right_eq_some.mp hstep
    obtain rfl := Option.some.inj heq
    exact h
  | producer =>
    have hstep : s.producerStep c = some s' := hstep
    simp only [producerStep] at hstep
    split at hstep
    case h_1 =>
      split at hstep
      · obtain rfl := Option.some.inj hstep
        by_cases hpos : 0 < c.interval
        · rw [if_pos hpos]
          trivial
        · rw [if_neg hpos]
          exact show 6 ≤ 6 by omega
      · obtain rfl := Option.some.inj hstep
        exact show 2 ≤ 6 by omega
    case h_2 hstage =>
      split at hstep
      · obtain rfl := Option.some.inj hstep
        exact h
      · obtain rfl := Option.some.inj hstep
        exact le_rfl
    case h_3 todo hstage =>
      rw [hstage] at h
      obtain ⟨⟨pipe, left⟩, hsend, hleft⟩ := Option.bind_eq_some_iff.mp hstep
      cases left with
      | none =>
        obtain rfl := Option.some.inj hleft
        trivial
      | some todo' =>
        obtain rfl := Option.some.inj hleft
        exact (length_of_send hsend).trans h
    case h_4 todo hstage =>
      rw [hstage] at h
      obtain ⟨⟨pipe, left⟩, hsend, hleft⟩ := Option.bind_eq_some_iff.mp hstep
      cases left with
      | none =>
        obtain rfl := Option.some.inj hleft
        trivial
      | some todo' =>
        obtain rfl := Option.some.inj hleft
        exact (length_of_send hsend).trans h
    case h_5 =>
      obtain ⟨-, heq⟩ := Option.ite_none_right_eq_some.mp hstep
      obtain rfl := Option.some.inj heq
      trivial
    case h_6 => simp at hstep
  | consumer =>
    obtain ⟨-, -, hstage, -⟩ := consumerStep_spec hinv hstep
    exact hstage ▸ h

/-- Publishing an event takes more steps than releasing it. -/
theorem Inv.work_le (h : Inv E R c t₀ s) (hshort : Short s.stage) :
    work c s ≤ 16 * c.totalOps.toNat + 28 := by
  obtain ⟨n, hsent⟩ := h.fed.exists_sent
  have hpub := hsent.length_le
  rw [length_requests] at hpub
  have hreleased := h.pipe.released_le
  have hdrain : drainWork s.pipe ≤ 4 * (s.pipe.published.length - s.pipe.released) := by
    rw [drainWork]
    split <;> omega
  have hstage : stageWork s.pipe s.stage ≤ 12 := by
    cases hs : s.stage with
    | next | pace | await | returned => simp [stageWork]
    | send todo | request todo =>
      rw [hs] at hshort
      have hle := sendWork_le s.pipe todo
      have hsix : todo.length ≤ 6 := hshort
      rw [stageWork]
      omega
  rw [work]
  omega

/-! ## Both engines -/

@[simp] theorem run_book (n : UInt64) (ops : List Cpp.Op) :
    Book.engine.run n ops = Book.run ops := by
  have happly : Book.engine.apply = Book.apply := by
    funext b op
    cases op with
    | limit side price qty id => rfl
    | cancel id => rfl
  rw [Engine.run, Book.run, happly]
  rfl

theorem new_tuned {n : UInt64} (h : (n + 2).toNat ≤ maxLen) :
    TunedBook.engine.new n = some (TunedBook.new n) := if_pos h

theorem le_of_new_tuned {n : UInt64} {b : TunedBook} (h : TunedBook.engine.new n = some b) :
    (n + 2).toNat ≤ maxLen := (Option.ite_none_right_eq_some.mp h).1

/-- A short tuned book is made, with ids that do not wrap around. -/
theorem toNat_add_two {n : UInt64} (h : n.toNat + 2 ≤ maxLen) : (n + 2).toNat = n.toNat + 2 := by
  have hmax : maxLen = 2 ^ 45 := rfl
  exact Word.toNat_add_of_lt (by
    have htwo : (2 : UInt64).toNat = 2 := rfl
    omega)

theorem run_tuned {n : UInt64} (h : (n + 2).toNat ≤ maxLen) (ops : List Cpp.Op) :
    TunedBook.engine.run n ops = TunedBook.run n ops := by
  have happly : TunedBook.engine.apply = TunedBook.apply := by
    funext b op
    cases op with
    | limit side price qty id => rfl
    | cancel id => rfl
  rw [Engine.run, TunedBook.run, new_tuned h, happly]
  rfl

theorem stats_of_holds {g : Book} {b : Cpp.Book} (h : g.Holds b) :
    Book.engine.stats g = some (b.fills, b.volume, (b.orders.size : ℤ), b.checksum) := by
  have hstats : Book.engine.stats g =
      g.checksum.map fun sum => (g.fills, g.volume, (g.orders.size : ℤ), sum) := rfl
  rw [hstats, Book.checksum_holds h, h.fills_eq, h.volume_eq, h.orders_eq]
  rfl

theorem serves_book (c : Params) : Serves Book.engine c := by
  refine ⟨{}, rfl, ?_, ?_⟩
  · intro n _
    obtain ⟨g, hg, -⟩ := Book.run_holds (((Gen.new 42).ops c.totalOps.toNat).take n)
    exact ⟨g, (run_book c.totalOps _).trans hg⟩
  · intro b hb
    obtain ⟨g, hg, h⟩ := Book.run_holds ((Gen.new 42).ops c.totalOps.toNat)
    obtain rfl : b = g := Option.some.inj (hb.symm.trans ((run_book c.totalOps _).trans hg))
    exact ⟨_, stats_of_holds h⟩

/-- The tuned book is built for as many orders as there are operations. -/
theorem exists_tuned (h : c.totalOps.toNat < 2 ^ 64 - 2) {ops : List Cpp.Op}
    (hops : ∀ op ∈ ops, op.InRange c.totalOps) :
    ∃ t g, Cpp.TunedBook.run c.totalOps ops = some t ∧ TunedBook.run c.totalOps ops = some g ∧
      TunedBook.Image t g ∧ ∀ lvl ∈ t.bids ++ t.asks, lvl.head ≤ lvl.ids.length := by
  obtain ⟨t, excess, ht, -⟩ := Cpp.TunedBook.run_holds_assign h hops
  obtain ⟨g, hg, himage⟩ := TunedBook.run_follows hops t ht
  exact ⟨t, g, ht, hg, himage, Cpp.TunedBook.head_le h hops ht⟩

theorem serves_tuned (hfits : c.totalOps.toNat + 2 ≤ maxLen) : Serves TunedBook.engine c := by
  have hword := toNat_add_two hfits
  have hmax : maxLen = 2 ^ 45 := rfl
  have h : c.totalOps.toNat < 2 ^ 64 - 2 := by omega
  have hnew := new_tuned (hword ▸ hfits)
  have hrun : ∀ ops, ops.foldlM TunedBook.engine.apply (TunedBook.new c.totalOps) =
      TunedBook.run c.totalOps ops := by
    intro ops
    rw [← run_tuned (hword ▸ hfits), Engine.run, hnew]
    rfl
  refine ⟨TunedBook.new c.totalOps, hnew, ?_, ?_⟩
  · intro n _
    have hops : ∀ op ∈ ((Gen.new 42).ops c.totalOps.toNat).take n, op.InRange c.totalOps := by
      intro op hop
      have hmem := List.mem_of_mem_take hop
      rw [Gen.ops_eq] at hmem
      exact Cpp.Gen.inRange_ops 42 le_rfl op hmem
    obtain ⟨t, g, -, hg, -⟩ := exists_tuned h hops
    exact ⟨g, (hrun _).trans hg⟩
  · intro b hb
    have hops : ∀ op ∈ (Gen.new 42).ops c.totalOps.toNat, op.InRange c.totalOps := by
      rw [Gen.ops_eq]
      exact Cpp.Gen.inRange_ops 42 le_rfl
    obtain ⟨t, g, ht, hg, ⟨himage, -⟩, hhead⟩ := exists_tuned h hops
    obtain rfl : b = g := Option.some.inj (hb.symm.trans ((hrun _).trans hg))
    obtain ⟨t', excess, ht', hholds, -⟩ := Cpp.TunedBook.run_holds_assign h hops
    obtain rfl := Option.some.inj (ht.symm.trans ht')
    obtain ⟨sum, hsum, -⟩ :=
      TunedBook.checksum_follows hhead _ (Cpp.TunedBook.checksum_holds hholds)
    have hstats : TunedBook.engine.stats b =
        b.checksum.map fun sum => (b.fills, b.volume, b.live.toInt, sum) := rfl
    rw [hstats, himage, hsum]
    exact ⟨_, rfl⟩

/-! ## Every interleaving -/

/-- What holds at a point of an interleaving. -/
structure Outcome (E : Engine σ) (R : Hdr H) (c : Params) (t₀ : UInt64) (s : Harness σ H) :
    Prop where
  /-- No goroutine panics: until it returns, the consumer has a step to take. -/
  ready : s.pipe.consumer ≠ .stopped → ∃ s', s.consumerStep E R = some s'
  /-- A report is that of the sequential run, with a recording for each stamp. -/
  delivered : ∀ {rep}, s.done = some rep → Delivered E R c t₀ s rep

theorem Inv.outcome (h : Inv E R c t₀ s) (hserves : Serves E c) : Outcome E R c t₀ s :=
  ⟨h.consumer_ready hserves, h.delivered⟩

theorem exists_start_of_serves (R : Hdr H) (t₀ : UInt64) (hserves : Serves E c) :
    ∃ s₀, start E R c t₀ = some s₀ := by
  obtain ⟨b₀, hnew, -⟩ := hserves
  exact ⟨_, start_eq_some_iff.mpr ⟨b₀, hnew, rfl⟩⟩

/-- **Any schedule does**, on both engines, the tuned one as long as its slices can be made. The
goroutines start, under every interleaving the consumer does not panic, and what it reports is the
result of the sequential run, with one recording for each stamp. -/
theorem any_interleaving (R : Hdr H) (c : Params) (t₀ : UInt64) (turns : List Turn) :
    ((∃ s₀, start Book.engine R c t₀ = some s₀) ∧
      ∀ s, run Book.engine R c t₀ turns = some s → Outcome Book.engine R c t₀ s) ∧
    (c.totalOps.toNat + 2 ≤ maxLen →
      (∃ s₀, start TunedBook.engine R c t₀ = some s₀) ∧
        ∀ s, run TunedBook.engine R c t₀ turns = some s → Outcome TunedBook.engine R c t₀ s) :=
  ⟨⟨exists_start_of_serves R t₀ (serves_book c),
      fun _ hrun => (inv_run hrun).outcome (serves_book c)⟩,
    fun h => ⟨exists_start_of_serves R t₀ (serves_tuned h),
      fun _ hrun => (inv_run hrun).outcome (serves_tuned h)⟩⟩

/-- One paced operation, recorded two ticks after it was due, on both engines. -/
theorem any_interleaving_paced :
    ∃ turns,
      (∃ s rep, run Book.engine ⟨[], fun l x => l ++ [x]⟩ ⟨1, 0, 500000000⟩ 5 turns = some s ∧
        s.stage = .returned ∧ s.done = some rep ∧ rep.hist = [2] ∧
          Delivered Book.engine ⟨[], fun l x => l ++ [x]⟩ ⟨1, 0, 500000000⟩ 5 s rep) ∧
      ∃ s rep, run TunedBook.engine ⟨[], fun l x => l ++ [x]⟩ ⟨1, 0, 500000000⟩ 5 turns = some s ∧
        s.stage = .returned ∧ s.done = some rep ∧ rep.hist = [2] ∧
          Delivered TunedBook.engine ⟨[], fun l x => l ++ [x]⟩ ⟨1, 0, 500000000⟩ 5 s rep := by
  let turns : List Turn :=
    List.flatten
      [[.producer, .tick 9], List.replicate 10 .producer, List.replicate 4 .consumer,
        List.replicate 6 .producer, List.replicate 3 .consumer, [.producer]]
  have hbook : ((run Book.engine ⟨[], fun l x => l ++ [x]⟩ ⟨1, 0, 500000000⟩ 5 turns).map
      fun s => (s.stage, s.done.map Report.hist)) = some (.returned, some [(2 : Int64)]) := by
    decide +kernel
  have htuned : ((run TunedBook.engine ⟨[], fun l x => l ++ [x]⟩ ⟨1, 0, 500000000⟩ 5 turns).map
      fun s => (s.stage, s.done.map Report.hist)) = some (.returned, some [(2 : Int64)]) := by
    decide +kernel
  obtain ⟨s, hs, heq⟩ := Option.map_eq_some_iff.mp hbook
  obtain ⟨hstage, hdone⟩ := Prod.mk.inj heq
  obtain ⟨rep, hrep, hhist⟩ := Option.map_eq_some_iff.mp hdone
  obtain ⟨s', hs', heq'⟩ := Option.map_eq_some_iff.mp htuned
  obtain ⟨hstage', hdone'⟩ := Prod.mk.inj heq'
  obtain ⟨rep', hrep', hhist'⟩ := Option.map_eq_some_iff.mp hdone'
  obtain ⟨⟨-, h⟩, h'⟩ := any_interleaving (⟨[], fun l x => l ++ [x]⟩ : Hdr (List Int64))
    ⟨1, 0, 500000000⟩ 5 turns
  exact ⟨turns, ⟨s, rep, hs, hstage, hrep, hhist, (h s hs).delivered hrep⟩, s', rep', hs', hstage',
    hrep', hhist', ((h' (by decide)).2 s' hs').delivered hrep'⟩

/-! ## The end -/

/-- The run can be ended by a few turns for each operation. -/
def Finishes (E : Engine σ) (R : Hdr H) (c : Params) (s : Harness σ H) : Prop :=
  ∃ (turns : List Turn) (s' : Harness σ H), turns.length ≤ 32 * c.totalOps.toNat + 56 ∧
    turns.foldlM (step E R c) s = some s' ∧ s'.stage = .returned

theorem finishes_of_run (hserves : Serves E c) {turns : List Turn}
    (hrun : run E R c t₀ turns = some s) : Finishes E R c s := by
  obtain ⟨hinv, hshort⟩ : Inv E R c t₀ s ∧ Short s.stage :=
    run_invariant (fun s => Inv E R c t₀ s ∧ Short s.stage)
      (fun hstart => ⟨inv_start hstart, short_start hstart⟩)
      (fun _ _ _ h hstep => ⟨inv_step h.1 hstep, h.1.short_step h.2 hstep⟩) hrun
  obtain ⟨turns', s', hlen, hrun', hreturned⟩ := hinv.exists_finish hserves
  have hwork := hinv.work_le hshort
  exact ⟨turns', s', by omega, hrun', hreturned⟩

/-- **No schedule gets stuck**, on both engines, the tuned one as long as its slices can be made:
the goroutines start, and from every point of every interleaving the run can be finished, in a
number of turns that is linear in the number of operations. -/
theorem never_stuck (R : Hdr H) (c : Params) (t₀ : UInt64) (turns : List Turn) :
    ((∃ s₀, start Book.engine R c t₀ = some s₀) ∧
      ∀ s, run Book.engine R c t₀ turns = some s → Finishes Book.engine R c s) ∧
    (c.totalOps.toNat + 2 ≤ maxLen →
      (∃ s₀, start TunedBook.engine R c t₀ = some s₀) ∧
        ∀ s, run TunedBook.engine R c t₀ turns = some s → Finishes TunedBook.engine R c s) :=
  ⟨⟨exists_start_of_serves R t₀ (serves_book c),
      fun _ hrun => finishes_of_run (serves_book c) hrun⟩,
    fun h => ⟨exists_start_of_serves R t₀ (serves_tuned h),
      fun _ hrun => finishes_of_run (serves_tuned h) hrun⟩⟩

/-- With a million operations to go, both goroutines have taken a step. -/
theorem never_stuck_early :
    ∃ s, run TunedBook.engine ⟨[], fun l x => l ++ [x]⟩ ⟨1000000, 0, 1⟩ 5 [.producer, .consumer] =
        some s ∧
      Finishes TunedBook.engine ⟨[], fun l x => l ++ [x]⟩ ⟨1000000, 0, 1⟩ s :=
  ⟨_, rfl, (never_stuck (⟨[], fun l x => l ++ [x]⟩ : Hdr (List Int64)) ⟨1000000, 0, 1⟩ 5
    [.producer, .consumer]).2 (by decide) |>.2 _ rfl⟩

end Harness
end LmaxBench.Go
