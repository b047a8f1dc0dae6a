import LmaxBench.Cpp.Progress
import LmaxBench.Lib.Fair

/-!
# The pipeline comes to its end

That the two threads never hold each other up leaves open whether they get anywhere: the producer
spins while it is early and while the ring is full, the consumer while the ring is empty, and it
goes round once more for every batch. Here the steps that are left are counted. No turn adds to
them, a spinning thread takes nothing away from the other one, and whoever has something to do
still has it afterwards. So the run ends under every schedule that gives both threads a turn again
and again, and the producer not only when it is early.

Whether it starts at all is another matter: the room for the samples has to be reserved, and the
tuned book has a record for every operation. With `2 ^ 64 - 1` operations, the last publish would
take the cursor of the producer back to zero, where the consumer does not look for an event.

## Main definitions

* `Harness.work` — the steps that are left.
* `Harness.Thread`, `Harness.Thread.helper` — the thread that has something to do.
* `Harness.Scheduled` — the fair schedules.
* `Harness.ends_if_fair` — when they end, on both engines, with the report of the sequential run.
-/

namespace LmaxBench.Cpp

/-- With a warmup that is no longer than the run, the room for the samples can be reserved. -/
theorem Params.reserves_of_le {c : Params} (hle : c.warmupOps ≤ c.totalOps)
    (hmax : c.totalOps.toNat + 16 ≤ maxSize 4) : c.Reserves := by
  intro _
  have hsub := Word.toNat_sub_of_le (UInt64.le_iff_toNat_le.mp hle)
  have hfour : maxSize 4 < 2 ^ 64 := by decide
  have hword : c.room.toNat = (c.totalOps - c.warmupOps).toNat + 16 := Word.toNat_add_of_lt (by
    have hsixteen : (16 : UInt64).toNat = 16 := rfl
    omega)
  omega

namespace Harness

variable {σ : Type} {E : Engine σ} {c : Params} {t₀ : UInt64} {s s' : Harness σ} {k : ℕ}

/-! ## What is left to do -/

/-- The steps that sending the event under way takes. -/
def sendWork (p : Pipe) (todo : List Store) : ℕ :=
  match p.producer with
  | .idle => todo.length + 3
  | .spinning => todo.length + 2
  | .writing _ => todo.length + 1

/-- The steps of the producer before it is at the head of its loop again. -/
def stageWork (p : Pipe) : Stage → ℕ
  | .next => 12
  | .pace => 11
  | .send todo | .report todo => sendWork p todo
  | .join => 0

/-- The steps of the consumer for what is published; it releases a batch before it looks for the
next one. -/
def drainWork (p : Pipe) : ℕ :=
  match p.consumer with
  | .waiting => 4 * (p.published.length - p.seq.toNat)
  | .draining =>
    if p.seq < p.avail then 4 * (p.published.length - p.seq.toNat) - 1
    else 4 * (p.published.length - p.seq.toNat) + 1
  | .stopped => 0

/-- All steps that are left. -/
def work (c : Params) (s : Harness σ) : ℕ :=
  16 * (c.totalOps.toNat + 1 - s.pipe.published.length) + stageWork s.pipe s.stage +
    drainWork s.pipe

theorem sendWork_pos (p : Pipe) (todo : List Store) : 0 < sendWork p todo := by
  rw [sendWork]
  split <;> omega

theorem sendWork_le (p : Pipe) (todo : List Store) : sendWork p todo ≤ todo.length + 3 := by
  rw [sendWork]
  split <;> omega

/-! ## The producer -/

/-- What the producer leaves alone when it sends. -/
structure Apart (p p' : Pipe) : Prop where
  consumer : p'.consumer = p.consumer
  seq : p'.seq = p.seq
  avail : p'.avail = p.avail

theorem Apart.drainWork_eq {p p' : Pipe} (h : Apart p p') (hpub : p'.published = p.published) :
    drainWork p' = drainWork p := by
  rw [drainWork, drainWork, h.consumer, h.seq, h.avail, hpub]

theorem Apart.drainWork_le {p p' : Pipe} (h : Apart p p')
    (hpub : p'.published.length = p.published.length + 1) : drainWork p' ≤ drainWork p + 4 := by
  rw [drainWork, drainWork, h.consumer, h.seq, h.avail, hpub]
  cases p.consumer with
  | waiting =>
    dsimp only
    omega
  | draining =>
    dsimp only
    split <;> omega
  | stopped => exact Nat.zero_le _

/-- The producer goes on spinning: it has looked at the cursor of the consumer once more. -/
structure Spins (p p' : Pipe) : Prop where
  before : p.producer = .spinning
  after : p'.producer = .spinning
  prod : p'.ring.prod = p.ring.prod
  published : p'.published = p.published

/-- Sending an event goes on, or the ring is full. -/
theorem send_cases {p p' : Pipe} {todo : List Store} {left : Option (List Store)}
    (h : p.send c.size todo = some (p', left)) :
    Apart p p' ∧
      ((Spins p p' ∧ left = some todo) ∨
        (∃ todo', left = some todo' ∧ p'.published = p.published ∧
          sendWork p' todo' < sendWork p todo) ∨
        (left = none ∧ p'.published.length = p.published.length + 1)) := by
  simp only [Pipe.send] at h
  split at h
  all_goals
    obtain ⟨q, hstep, heq⟩ := Option.map_eq_some_iff.mp h
    obtain ⟨rfl, rfl⟩ := Prod.mk.inj heq
  case h_1 hp =>
    obtain ⟨-, rfl⟩ := Pipe.step_claim hstep
    refine ⟨⟨rfl, rfl, rfl⟩, Or.inr (Or.inl ⟨_, rfl, rfl, ?_⟩)⟩
    cases hfull : p.ring.looksFull c.size with
    | true =>
      rw [Pipe.tryClaim_of_full hfull]
      simp [sendWork, hp]
    | false =>
      rw [Pipe.tryClaim_of_room hfull]
      simp [sendWork, hp]
  case h_2 hp =>
    obtain ⟨-, rfl⟩ := Pipe.step_reload hstep
    cases hfull : p.ring.reload.looksFull c.size with
    | true =>
      rw [Pipe.tryClaim_of_full (p := { p with ring := p.ring.reload }) hfull]
      exact ⟨⟨rfl, rfl, rfl⟩, Or.inl ⟨⟨hp, rfl, rfl, rfl⟩, rfl⟩⟩
    | false =>
      rw [Pipe.tryClaim_of_room (p := { p with ring := p.ring.reload }) hfull]
      refine ⟨⟨rfl, rfl, rfl⟩, Or.inr (Or.inl ⟨_, rfl, rfl, ?_⟩)⟩
      simp [sendWork, hp]
  case h_3 slot st todo hp =>
    obtain ⟨slot', e, -, -, rfl⟩ := Pipe.step_write hstep
    refine ⟨⟨rfl, rfl, rfl⟩, Or.inr (Or.inl ⟨todo, rfl, rfl, ?_⟩)⟩
    simp [sendWork, hp]
  case h_4 slot hp =>
    obtain ⟨slot', e, -, -, rfl⟩ := Pipe.step_publish hstep
    exact ⟨⟨rfl, rfl, rfl⟩, Or.inr (Or.inr ⟨rfl, List.length_append⟩)⟩

theorem Published.length_eq {p : Pipe} {n : ℕ} (h : Published c p n)
    (hn : n ≤ c.totalOps.toNat + 1) : p.published.length = n := by
  have hlen := congrArg List.length h
  rw [List.length_map, List.length_take, length_script] at hlen
  omega

/-- A turn of the producer that does not bring the end closer: it is early, or spins. -/
structure Lost (s s' : Harness σ) : Prop where
  apart : Apart s.pipe s'.pipe
  prod : s'.pipe.ring.prod = s.pipe.ring.prod
  waits : s.stage = .pace ∧ s.now < s.nextDue ∨
    s.pipe.producer = .spinning ∧ s'.pipe.producer = .spinning

/-- The stage after a step of sending an event: with stores left, the producer is still at it. -/
def Continues (p : Pipe) (stage : Stage) : Option (List Store) → Prop
  | some todo => stageWork p stage = sendWork p todo
  | none => stageWork p stage ≤ 12

/-- A step of sending an event brings the end closer, or the producer spins. -/
theorem send_work {p : Pipe} {todo : List Store} {left : Option (List Store)}
    (hlen : s.pipe.published.length ≤ c.totalOps.toNat)
    (hstage : stageWork s.pipe s.stage = sendWork s.pipe todo)
    (hsend : s.pipe.send c.size todo = some (p, left)) (hpipe : s'.pipe = p)
    (hnext : Continues p s'.stage left) :
    work c s' < work c s ∨ work c s' = work c s ∧ Lost s s' := by
  subst hpipe
  have hpos := sendWork_pos s.pipe todo
  obtain ⟨hapart, ⟨hspins, rfl⟩ | ⟨todo', rfl, hpub, hlt⟩ | ⟨rfl, hpub⟩⟩ := send_cases hsend
  · have hdrain := hapart.drainWork_eq hspins.published
    have hsame : sendWork s'.pipe todo = sendWork s.pipe todo := by
      rw [sendWork, sendWork, hspins.before, hspins.after]
    refine Or.inr ⟨?_, hapart, hspins.prod, Or.inr ⟨hspins.before, hspins.after⟩⟩
    rw [work, work, hnext, hstage, hsame, hdrain, hspins.published]
  · have hdrain := hapart.drainWork_eq hpub
    refine Or.inl ?_
    rw [work, work, hnext, hstage, hdrain, hpub]
    omega
  · have hdrain := hapart.drainWork_le hpub
    have hle : stageWork s'.pipe s'.stage ≤ 12 := hnext
    refine Or.inl ?_
    rw [work, work, hstage, hpub]
    omega

/-- **The producer loses nothing**: it advances, or waits. -/
theorem producer_work (h : Fed c s.stage s.pipe s.i s.wl) (hstep : s.producerStep c = some s') :
    work c s' < work c s ∨ work c s' = work c s ∧ Lost s s' := by
  obtain ⟨now, pipe, stage, i, wl, nextDue, book, rep⟩ := s
  dsimp only at h
  cases stage with
  | next =>
    refine Or.inl ?_
    simp only [producerStep] at hstep
    split at hstep
    · obtain rfl := Option.some.inj hstep
      split
      · simp only [work, stageWork]
        omega
      · have hle := sendWork_le pipe (opStores wl.nextOp 0)
        simp only [opStores, List.length_cons, List.length_nil] at hle
        simp only [work, stageWork, opStores]
        omega
    · obtain rfl := Option.some.inj hstep
      have hle := sendWork_le pipe reportStores
      simp only [reportStores, List.length_cons, List.length_nil] at hle
      simp only [work, stageWork, reportStores]
      omega
  | pace =>
    simp only [producerStep] at hstep
    split at hstep
    case isTrue hearly =>
      obtain rfl := Option.some.inj hstep
      exact Or.inr ⟨rfl, ⟨rfl, rfl, rfl⟩, rfl, Or.inl ⟨rfl, hearly⟩⟩
    case isFalse =>
      obtain rfl := Option.some.inj hstep
      refine Or.inl ?_
      generalize (if c.warmupOps ≤ i then nextDue else 0) = ts
      have hle := sendWork_le pipe (opStores wl ts)
      simp only [opStores, List.length_cons, List.length_nil] at hle
      simp only [work, stageWork, opStores]
      omega
  | send todo =>
    have hlen : pipe.published.length ≤ c.totalOps.toNat := by
      cases h with
      | send hi hpub =>
        have hlt := UInt64.lt_iff_toNat_lt.mp hi
        rw [Published.length_eq hpub (by omega)]
        exact hlt.le
    obtain ⟨⟨p', left⟩, hsend, hleft⟩ := Option.bind_eq_some_iff.mp hstep
    replace hsend : pipe.send c.size todo = some (p', left) := hsend
    obtain ⟨hpipe, hnext⟩ : s'.pipe = p' ∧ Continues p' s'.stage left := by
      cases left with
      | some todo' =>
        obtain rfl := Option.some.inj hleft
        exact ⟨rfl, rfl⟩
      | none =>
        obtain rfl := Option.some.inj hleft
        exact ⟨rfl, le_rfl⟩
    exact send_work hlen rfl hsend hpipe hnext
  | report todo =>
    have hlen : pipe.published.length ≤ c.totalOps.toNat := by
      cases h with
      | report hpub => exact (Published.length_eq hpub (by omega)).le
    obtain ⟨⟨p', left⟩, hsend, hleft⟩ := Option.bind_eq_some_iff.mp hstep
    replace hsend : pipe.send c.size todo = some (p', left) := hsend
    obtain ⟨hpipe, hnext⟩ : s'.pipe = p' ∧ Continues p' s'.stage left := by
      cases left with
      | some todo' =>
        obtain rfl := Option.some.inj hleft
        exact ⟨rfl, rfl⟩
      | none =>
        obtain rfl := Option.some.inj hleft
        exact ⟨rfl, Nat.zero_le _⟩
    exact send_work hlen rfl hsend hpipe hnext
  | join => simp [producerStep] at hstep

/-! ## The consumer -/

/-- A turn of the consumer that does not bring the end closer: it has looked at the cursor of the
producer once more. -/
structure Looks (s s' : Harness σ) : Prop where
  before : s.ConsumerStuck
  after : s'.ConsumerStuck

/-- **The consumer loses nothing**: it advances, or waits. -/
theorem Inv.consumer_work (hsize : c.size.toNat = 2 ^ k) (h : Inv E c s)
    (hstep : s.consumerStep E c = some s') :
    work c s' < work c s ∨ work c s' = work c s ∧ Looks s s' := by
  have hsafe := h.refines.safe hsize
  have hpub := hsafe.published_length
  have hseq := UInt64.le_iff_toNat_le.mp hsafe.seq_le
  have havail := UInt64.le_iff_toNat_le.mp hsafe.avail_le
  simp only [consumerStep] at hstep
  split at hstep
  case h_1 hp =>
    obtain ⟨pipe, hload, heq⟩ := Option.bind_eq_some_iff.mp hstep
    obtain rfl := Option.some.inj heq
    obtain ⟨-, rfl⟩ := Pipe.step_load hload
    have hstage : ∀ avail consumer, stageWork { s.pipe with avail, consumer } s.stage =
        stageWork s.pipe s.stage := fun _ _ => rfl
    by_cases hnone : s.pipe.ring.prod = s.pipe.seq
    · refine Or.inr ⟨?_, ⟨hp, hnone⟩, if_pos hnone, hnone⟩
      simp only [work, drainWork, hp, hnone, hstage, if_true]
    · have hlt : s.pipe.seq.toNat < s.pipe.published.length := by
        refine lt_of_le_of_ne (by omega) fun heq => hnone (UInt64.toNat_inj.mp ?_)
        rw [heq, hpub]
      have hmore : s.pipe.seq < s.pipe.ring.prod := by
        rw [UInt64.lt_iff_toNat_lt]
        omega
      refine Or.inl ?_
      simp only [work, drainWork, hp, if_neg hnone, if_pos hmore, hstage]
      omega
  case h_2 hp =>
    split at hstep
    case isTrue hmore =>
      have hlt := UInt64.lt_iff_toNat_lt.mp hmore
      obtain ⟨e, hnext, hbind⟩ := Option.bind_eq_some_iff.mp hstep
      obtain ⟨pipe, hhandle, hevent⟩ := Option.bind_eq_some_iff.mp hbind
      obtain ⟨-, hpipe, hstage, -⟩ := drained_handleEvent h.drained hp hnext hhandle hevent
      obtain ⟨e', -, -, -, rfl⟩ := Pipe.step_handle hhandle
      have hsucc : (s.pipe.seq + 1).toNat = s.pipe.seq.toNat + 1 :=
        Word.toNat_add_one (by have := s.pipe.ring.prod.toNat_lt; omega)
      have hwork : ∀ seq consumer handled,
          stageWork { s.pipe with seq, consumer, handled } s.stage = stageWork s.pipe s.stage :=
        fun _ _ _ => rfl
      refine Or.inl ?_
      rw [work, work, hpipe, hstage, hwork]
      cases e'.isReport with
      | true =>
        simp only [drainWork, hp, if_pos hmore, if_true]
        omega
      | false =>
        simp only [drainWork, hp, if_pos hmore, Bool.false_eq_true, if_false, hsucc]
        split <;> omega
    case isFalse hdone =>
      obtain ⟨pipe, hstore, heq⟩ := Option.bind_eq_some_iff.mp hstep
      obtain rfl := Option.some.inj heq
      obtain ⟨-, -, rfl⟩ := Pipe.step_store hstore
      have hstage : ∀ ring consumer, stageWork { s.pipe with ring, consumer } s.stage =
          stageWork s.pipe s.stage := fun _ _ => rfl
      refine Or.inl ?_
      simp only [work, drainWork, hp, if_neg hdone, hstage]
      omega
  case h_3 hp => simp at hstep

/-! ## Who helps -/

/-- The two threads. -/
inductive Thread
  | producer
  | consumer
  deriving DecidableEq

namespace Thread

instance (s : Harness σ) : Decidable s.ConsumerStuck :=
  inferInstanceAs (Decidable (s.pipe.consumer = .waiting ∧ s.pipe.ring.prod = s.pipe.seq))

/-- The thread that has something to do. -/
def helper (s : Harness σ) : Thread := if s.ConsumerStuck then .producer else .consumer

/-- What counts as a turn of a thread: the producer must not be early. -/
def HasTurn (s : Harness σ) (turn : Turn) : Thread → Prop
  | .producer => turn = .producer ∧ s.nextDue ≤ s.now
  | .consumer => turn = .consumer

theorem helper_congr (hconsumer : s'.pipe.consumer = s.pipe.consumer)
    (hseq : s'.pipe.seq = s.pipe.seq) (hprod : s'.pipe.ring.prod = s.pipe.ring.prod) :
    helper s' = helper s := by
  have hiff : s'.ConsumerStuck ↔ s.ConsumerStuck := by
    rw [ConsumerStuck, ConsumerStuck, hconsumer, hseq, hprod]
  rw [helper, helper, if_congr hiff rfl rfl]

end Thread

/-- A schedule under which both threads have their turn again and again, once they have
started. -/
def Scheduled (E : Engine σ) (c : Params) (t₀ : UInt64) (sched : ℕ → Turn) : Prop :=
  ∀ {s₀}, start E c t₀ = some s₀ →
    Fair.Recurring (fun t s turn => Thread.HasTurn s turn t) (step E c) s₀ sched

/-- Where the consumer finds nothing, the producer advances, unless it is early. -/
theorem producer_gains (hsize : c.size.toNat = 2 ^ k) (hinv : Inv E c s) (hlive : Live E c s)
    (hstop : s.pipe.consumer ≠ .stopped) (hstuck : s.ConsumerStuck) (hdue : s.nextDue ≤ s.now) :
    ∃ s', s.producerStep c = some s' ∧ work c s' < work c s := by
  have hk : 2 ^ k ≤ 2 ^ 63 :=
    Nat.pow_le_pow_right (by decide) (Nat.le_of_lt_succ (Word.exponent_lt hsize))
  have hone : 1 ≤ c.size.toNat := hsize ▸ Nat.one_le_two_pow
  obtain ⟨hall, hroom⟩ := hlive.hasRoom_of_consumerStuck hone (by omega) hstuck
  obtain ⟨s', hs', hno⟩ :=
    hlive.producerAdvances hone hroom fun hjoin => hstop (hlive.ended hjoin hall)
  refine ⟨s', hs', ?_⟩
  rcases producer_work hinv.fed hs' with hlt | ⟨-, -, -, ⟨-, hearly⟩ | hspins⟩
  · exact hlt
  · exact absurd hearly (not_lt.mpr hdue)
  · exact absurd hspins hno

theorem helpful (hsize : c.size.toNat = 2 ^ k) (htotal : c.totalOps.toNat + 1 < 2 ^ 64)
    (hserves : Serves E c) :
    Fair.Helpful (step E c) (fun s => Inv E c s ∧ Live E c s)
      (fun s => s.pipe.consumer = .stopped) (work c) Thread.helper
      fun t s turn => Thread.HasTurn s turn t where
  invariant _ _ _ h hstep := by
    have hk : 2 ^ k ≤ 2 ^ 63 :=
      Nat.pow_le_pow_right (by decide) (Nat.le_of_lt_succ (Word.exponent_lt hsize))
    exact ⟨inv_step hsize htotal h.1 hstep, live_step (by omega) h.2 hstep⟩
  keeps := by
    intro s turn s' h hstop hstep
    refine Or.inr ?_
    cases turn with
    | tick now =>
      obtain ⟨-, heq⟩ := Option.ite_none_right_eq_some.mp hstep
      obtain rfl := Option.some.inj heq
      exact Or.inr ⟨rfl, rfl⟩
    | producer =>
      rcases producer_work h.1.fed hstep with hlt | ⟨heq, hapart, hprod, -⟩
      · exact Or.inl hlt
      · exact Or.inr ⟨heq, Thread.helper_congr hapart.consumer hapart.seq hprod⟩
    | consumer =>
      rcases h.1.consumer_work hsize hstep with hlt | ⟨heq, hbefore, hafter⟩
      · exact Or.inl hlt
      · refine Or.inr ⟨heq, ?_⟩
        rw [Thread.helper, Thread.helper, if_pos hbefore, if_pos hafter]
  gains := by
    intro s turn h hstop hturn
    rw [Thread.helper] at hturn
    split at hturn
    case isTrue hstuck =>
      obtain ⟨rfl, hdue⟩ := hturn
      obtain ⟨s', hs', hlt⟩ := producer_gains hsize h.1 h.2 hstop hstuck hdue
      exact ⟨s', hs', Or.inr hlt⟩
    case isFalse hnot =>
      obtain rfl : turn = .consumer := hturn
      obtain ⟨s', hs'⟩ := h.1.consumer_ready hsize hserves hstop
      refine ⟨s', hs', Or.inr ?_⟩
      rcases h.1.consumer_work hsize hs' with hlt | ⟨-, hbefore, -⟩
      · exact hlt
      · exact absurd hbefore hnot

/-! ## The end -/

/-- Once the consumer is done, the producer waits for it. -/
theorem Inv.join_of_stopped (hsize : c.size.toNat = 2 ^ k) (h : Inv E c s)
    (hstop : s.pipe.consumer = .stopped) : s.stage = .join := by
  have hsafe := h.refines.safe hsize
  have hlen := congrArg List.length (h.reports hsize hstop).1
  rw [List.length_map, length_script, hsafe.handled, List.length_take] at hlen
  have hfed := h.fed
  generalize s.wl = wl at hfed
  generalize s.stage = stage at hfed ⊢
  cases hfed with
  | next _ hi hpub =>
    have hle := UInt64.le_iff_toNat_le.mp hi
    rw [Published.length_eq hpub (by omega)] at hlen
    omega
  | pace _ hi hpub | send hi hpub =>
    have hlt := UInt64.lt_iff_toNat_lt.mp hi
    rw [Published.length_eq hpub (by omega)] at hlen
    omega
  | report hpub =>
    rw [Published.length_eq hpub (by omega)] at hlen
    omega
  | join => rfl

/-- The run starts, and comes to the end `P`. -/
def Ends (E : Engine σ) (c : Params) (t₀ : UInt64) (sched : ℕ → Turn) (P : Harness σ → Prop) :
    Prop :=
  ∃ s₀, start E c t₀ = some s₀ ∧ Fair.Eventually (step E c) s₀ sched P

/-- The run comes to its end, with the report of the sequential run. -/
def Returns (E : Engine σ) (c : Params) (t₀ : UInt64) (sched : ℕ → Turn) : Prop :=
  Ends E c t₀ sched fun s =>
    s.stage = .join ∧ s.pipe.consumer = .stopped ∧ ∃ book,
      E.run c.totalOps ((Gen.new 42).ops c.totalOps.toNat) = some book ∧ Reports E book s.rep

theorem Ends.mono {sched : ℕ → Turn} {P Q : Harness σ → Prop} (h : Ends E c t₀ sched P)
    (hmono : ∀ turns s, run E c t₀ turns = some s → P s → Q s) : Ends E c t₀ sched Q := by
  obtain ⟨s₀, hs₀, hends⟩ := h
  exact ⟨s₀, hs₀, hends.mono fun turns s hturns =>
    hmono turns s (Option.bind_eq_some_iff.mpr ⟨s₀, hs₀, hturns⟩)⟩

theorem returns_of_scheduled (hsize : c.size.toNat = 2 ^ k) (htotal : c.totalOps.toNat + 1 < 2 ^ 64)
    (hserves : Serves E c) (hreserves : c.Reserves) {sched : ℕ → Turn}
    (h : Scheduled E c t₀ sched) : Returns E c t₀ sched := by
  obtain ⟨book, -, hbook, -⟩ := hserves 0 (Nat.zero_le _)
  obtain ⟨s₀, hs₀⟩ := exists_start_iff.mpr ⟨hreserves, Engine.exists_new hbook⟩
  have hends : Ends E c t₀ sched fun s => s.pipe.consumer = .stopped :=
    ⟨s₀, hs₀, (helpful hsize htotal hserves).eventually ⟨inv_start hs₀, live_start hs₀⟩ (h hs₀)⟩
  refine hends.mono fun turns s hrun hstop => ?_
  have hinv : Inv E c s := inv_run hsize htotal hrun
  exact ⟨hinv.join_of_stopped hsize hstop, hstop, (hinv.reports hsize hstop).2⟩

/-- **When a fair schedule ends**, on both engines and for every size of the ring, with the report
of the sequential run: if and only if nothing throws before the threads have started. -/
theorem ends_if_fair (hsize : c.size.toNat = 2 ^ k) (t₀ : UInt64) (sched : ℕ → Turn) :
    (c.totalOps.toNat < 2 ^ 64 - 1 → Scheduled Book.engine c t₀ sched →
      (Returns Book.engine c t₀ sched ↔ c.Reserves)) ∧
    (c.totalOps.toNat < 2 ^ 64 - 2 → Scheduled TunedBook.engine c t₀ sched →
      (Returns TunedBook.engine c t₀ sched ↔
        c.Reserves ∧ c.totalOps.toNat + 2 ≤ maxSize 16)) := by
  constructor
  · intro htotal h
    refine ⟨?_, fun hreserves => returns_of_scheduled hsize (by omega) (serves_book c) hreserves h⟩
    rintro ⟨s₀, hs₀, -⟩
    exact (exists_start_iff.mp ⟨s₀, hs₀⟩).1
  · intro htotal h
    have hword : (c.totalOps + 2).toNat = c.totalOps.toNat + 2 := Word.toNat_add_of_lt (by
      have htwo : (2 : UInt64).toNat = 2 := rfl
      omega)
    constructor
    · rintro ⟨s₀, hs₀, -⟩
      obtain ⟨hreserves, t, hnew⟩ := exists_start_iff.mp ⟨s₀, hs₀⟩
      exact ⟨hreserves, hword ▸ TunedBook.le_of_new hnew⟩
    · rintro ⟨hreserves, hfits⟩
      exact returns_of_scheduled hsize (by omega) (serves_tuned htotal (hword ▸ hfits)) hreserves h

/-- Without pacing, no operation is due later than the run starts. -/
theorem producerStep_nextDue (hrate : c.rate = 0) (hstep : s.producerStep c = some s') :
    s'.nextDue = s.nextDue ∧ s'.now = s.now := by
  have hinterval : ¬0 < c.interval := by simp [Params.interval, hrate]
  simp only [producerStep, if_neg hinterval] at hstep
  split at hstep
  case h_1 | h_2 =>
    split at hstep
    all_goals
      obtain rfl := Option.some.inj hstep
      exact ⟨rfl, rfl⟩
  case h_3 | h_4 =>
    obtain ⟨⟨pipe, left⟩, -, hleft⟩ := Option.bind_eq_some_iff.mp hstep
    cases left <;>
    · obtain rfl := Option.some.inj hleft
      exact ⟨rfl, rfl⟩
  case h_5 => simp at hstep

theorem consumerStep_nextDue (hstep : s.consumerStep E c = some s') :
    s'.nextDue = s.nextDue ∧ s'.now = s.now := by
  have hevent : ∀ {pipe e}, handleEvent E { s with pipe } e = some s' →
      s'.nextDue = s.nextDue ∧ s'.now = s.now := by
    intro pipe e h
    simp only [handleEvent] at h
    split at h
    all_goals
      obtain ⟨x, -, heq⟩ := Option.bind_eq_some_iff.mp h
      obtain rfl := Option.some.inj heq
      exact ⟨rfl, rfl⟩
  simp only [consumerStep] at hstep
  split at hstep
  case h_1 =>
    obtain ⟨pipe, -, heq⟩ := Option.bind_eq_some_iff.mp hstep
    obtain rfl := Option.some.inj heq
    exact ⟨rfl, rfl⟩
  case h_2 =>
    split at hstep
    · obtain ⟨e, -, hbind⟩ := Option.bind_eq_some_iff.mp hstep
      obtain ⟨pipe, -, h⟩ := Option.bind_eq_some_iff.mp hbind
      exact hevent h
    · obtain ⟨pipe, -, heq⟩ := Option.bind_eq_some_iff.mp hstep
      obtain rfl := Option.some.inj heq
      exact ⟨rfl, rfl⟩
  case h_3 => simp at hstep

/-- Then any schedule will do that lets nobody starve. -/
theorem scheduled_of_unpaced (hrate : c.rate = 0) {sched : ℕ → Turn}
    (hproducer : ∀ n, ∃ m, n ≤ m ∧ sched m = .producer)
    (hconsumer : ∀ n, ∃ m, n ≤ m ∧ sched m = .consumer) : Scheduled E c t₀ sched := by
  intro s₀ hs₀
  have hstart : s₀.nextDue ≤ s₀.now := by
    obtain ⟨-, book, -, heq⟩ := start_eq_some_iff.mp hs₀
    obtain rfl := Option.some.inj heq
    exact le_rfl
  have hdue : ∀ n, (Fair.trace (step E c) s₀ sched n).nextDue ≤
      (Fair.trace (step E c) s₀ sched n).now := by
    refine Fair.trace_invariant sched (P := fun s : Harness σ => s.nextDue ≤ s.now) ?_ hstart
    intro s turn s' h hstep
    cases turn with
    | tick now =>
      obtain ⟨hnow, heq⟩ := Option.ite_none_right_eq_some.mp hstep
      obtain rfl := Option.some.inj heq
      exact h.trans hnow
    | producer =>
      obtain ⟨hnext, hnow⟩ := producerStep_nextDue hrate hstep
      rw [hnext, hnow]
      exact h
    | consumer =>
      obtain ⟨hnext, hnow⟩ := consumerStep_nextDue hstep
      rw [hnext, hnow]
      exact h
  rintro (_ | _) n
  · obtain ⟨m, hm, hturn⟩ := hproducer n
    exact ⟨m, hm, hturn, hdue m⟩
  · exact hconsumer n

/-- The two threads take turns over a million operations. -/
theorem ends_if_fair_in_turns :
    Returns Book.engine { totalOps := 1000000, warmupOps := 0, rate := 0 } 5
        (fun n => if n % 2 = 0 then .producer else .consumer) ∧
      Returns TunedBook.engine { totalOps := 1000000, warmupOps := 0, rate := 0 } 5
        (fun n => if n % 2 = 0 then .producer else .consumer) := by
  have hproducer : ∀ n, ∃ m, n ≤ m ∧ (if m % 2 = 0 then Turn.producer else .consumer) = .producer :=
    fun n => ⟨2 * n, by omega, if_pos (by omega)⟩
  have hconsumer : ∀ n, ∃ m, n ≤ m ∧ (if m % 2 = 0 then Turn.producer else .consumer) = .consumer :=
    fun n => ⟨2 * n + 1, by omega, if_neg (by omega)⟩
  obtain ⟨hbook, htuned⟩ := ends_if_fair (c := { totalOps := 1000000, warmupOps := 0, rate := 0 })
    (k := 16) rfl 5 fun n => if n % 2 = 0 then .producer else .consumer
  exact ⟨(hbook (by decide) (scheduled_of_unpaced rfl hproducer hconsumer)).mpr (by decide),
    (htuned (by decide) (scheduled_of_unpaced rfl hproducer hconsumer)).mpr (by decide)⟩

end Harness
end LmaxBench.Cpp
