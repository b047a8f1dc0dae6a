import LmaxBench.Cpp.HarnessRun

/-!
# Progress of the pipeline

The two threads never hold each other up for good: until the consumer has processed the
request for the report, one of them has a step to take that is not another look at a cursor
in its spin loop. This holds for rings of every size and for every number of operations, also
where the last publish wraps the cursor around.

Only the counts matter here: what the cursors count, how far the cached and the stored
cursor lag behind, and that the last event published ends the consumer. The cursors are
words, read as the number of times they were incremented.

## Main definitions

* `Pipe.Cursors`, `Pipe.Counted` — what the cursors count.
* `Pipe.HasRoom` — the plain test of a claim, without the cache.
* `Harness.Live`, `Harness.live_run` — the invariant.
* `Harness.Progress`, `Harness.progress_run` — what holds under every interleaving.
-/

namespace LmaxBench.Cpp
namespace Pipe

/-! ## The cursors -/

/-- What the cursors count: `seen`, `cons` and `avail` are how far the producer's cache, the
stored cursor of the consumer and the end of its batch have come. -/
structure Cursors (N : UInt64) (p : Pipe) (seen cons avail : ℕ) : Prop where
  prod_eq : p.ring.prod = UInt64.ofNat p.published.length
  seq_eq : p.seq = UInt64.ofNat p.handled.length
  seen_eq : p.ring.consSeen = UInt64.ofNat seen
  cons_eq : p.ring.cons = UInt64.ofNat cons
  avail_eq : p.avail = UInt64.ofNat avail
  seen_le : seen ≤ cons
  cons_le : cons ≤ p.handled.length
  handled_le : p.handled.length ≤ p.published.length
  handled_lt : p.handled.length < 2 ^ 64
  avail_le : avail ≤ p.published.length
  prod_le : p.published.length ≤ seen + N.toNat
  room : ∀ {slot}, p.producer = .writing slot → p.published.length + 1 ≤ seen + N.toNat
  waiting : p.consumer = .waiting → cons = p.handled.length

def Counted (N : UInt64) (p : Pipe) : Prop := ∃ seen cons avail, Cursors N p seen cons avail

/-- The plain test of a claim, `next - cons <= N`. -/
def HasRoom (N : UInt64) (p : Pipe) : Prop := p.ring.prod + 1 - p.ring.cons ≤ N

variable {N : UInt64} {stop : Event → Bool} {p p' : Pipe} {seen cons avail : ℕ}

theorem counted_new (N : UInt64) : Counted N (new N) := by
  refine ⟨0, 0, 0, rfl, rfl, rfl, rfl, rfl, ?_, ?_, ?_, ?_, ?_, ?_, ?_, ?_⟩ <;> simp [new]

/-- The distance of the next event to a cursor, as `claim` computes it. -/
theorem toNat_next_sub (hN : N.toNat < 2 ^ 64 - 1) {n m : ℕ} (hle : m ≤ n)
    (hlt : n ≤ m + N.toNat) :
    (UInt64.ofNat n + 1 - UInt64.ofNat m).toNat = n + 1 - m := by
  rw [← Word.ofNat_succ, Word.toNat_ofNat_sub (by omega) (by omega)]

theorem Cursors.looksFull_iff (h : Cursors N p seen cons avail) (hN : N.toNat < 2 ^ 64 - 1) :
    p.ring.looksFull N = true ↔ seen + N.toNat < p.published.length + 1 := by
  have hseen := h.seen_le
  have hcons := h.cons_le
  have hhandled := h.handled_le
  rw [Ring.looksFull, decide_eq_true_iff, gt_iff_lt, UInt64.lt_iff_toNat_lt, h.prod_eq, h.seen_eq,
    toNat_next_sub hN (by omega) h.prod_le]
  omega

theorem Cursors.hasRoom_iff (h : Cursors N p seen cons avail) (hN : N.toNat < 2 ^ 64 - 1) :
    p.HasRoom N ↔ p.published.length + 1 ≤ cons + N.toNat := by
  have hseen := h.seen_le
  have hcons := h.cons_le
  have hhandled := h.handled_le
  have hprod := h.prod_le
  rw [HasRoom, UInt64.le_iff_toNat_le, h.prod_eq, h.cons_eq,
    toNat_next_sub hN (by omega) (by omega)]
  omega

/-- The cached claim gets through as soon as it looks at the stored cursor. -/
theorem Cursors.reload (h : Cursors N p seen cons avail) (hp : p.producer = .spinning) :
    Cursors N { p with ring := p.ring.reload } cons cons avail where
  __ := h
  seen_eq := h.cons_eq
  seen_le := le_rfl
  prod_le := Nat.le_trans h.prod_le (Nat.add_le_add_right h.seen_le _)
  room := by simp [hp]

theorem Cursors.tryClaim (h : Cursors N p seen cons avail) (hN : N.toNat < 2 ^ 64 - 1) :
    Cursors N (p.tryClaim N) seen cons avail := by
  cases hf : p.ring.looksFull N with
  | true =>
    rw [tryClaim_of_full hf]
    exact { h with room := by simp }
  | false =>
    rw [tryClaim_of_room hf]
    have hroom := mt (h.looksFull_iff hN).mpr (Bool.eq_false_iff.mp hf)
    exact { h with room := fun _ => Nat.le_of_not_lt hroom }

/-- **Every action keeps the cursors in order**, also where one wraps around. -/
theorem Counted.step (h : Counted N p) (hN : N.toNat < 2 ^ 64 - 1) {a : Act}
    (hstep : p.step N stop a = some p') : Counted N p' := by
  obtain ⟨seen, cons, avail, h⟩ := h
  cases a with
  | claim =>
    obtain ⟨-, rfl⟩ := step_claim hstep
    exact ⟨seen, cons, avail, h.tryClaim hN⟩
  | reload =>
    obtain ⟨hp, rfl⟩ := step_reload hstep
    exact ⟨cons, cons, avail, (h.reload hp).tryClaim hN⟩
  | write st =>
    obtain ⟨slot, e, -, -, rfl⟩ := step_write hstep
    exact ⟨seen, cons, avail, { h with }⟩
  | publish =>
    obtain ⟨slot, e, hp, -, rfl⟩ := step_publish hstep
    have hroom := h.room hp
    refine ⟨seen, cons, avail, { h with
      prod_eq := ?_, handled_le := ?_, avail_le := ?_, prod_le := ?_, room := by simp }⟩
    · rw [List.length_append, List.length_singleton, Word.ofNat_succ, ← h.prod_eq]
      rfl
    · rw [List.length_append]
      exact Nat.le_add_right_of_le h.handled_le
    · rw [List.length_append]
      exact Nat.le_add_right_of_le h.avail_le
    · rwa [List.length_append]
  | load =>
    obtain ⟨hp, rfl⟩ := step_load hstep
    exact ⟨seen, cons, p.published.length, { h with
      avail_eq := h.prod_eq, avail_le := le_rfl, waiting := fun _ => h.waiting hp }⟩
  | handle =>
    obtain ⟨e, -, hp, hmore, rfl⟩ := step_handle hstep
    have hlt := UInt64.lt_iff_toNat_lt.mp hmore
    have havail : p.avail.toNat ≤ avail := by
      rw [h.avail_eq, UInt64.toNat_ofNat']
      exact Nat.mod_le _ _
    have hword := p.avail.toNat_lt
    rw [h.seq_eq, Word.toNat_ofNat_of_lt h.handled_lt] at hlt
    have hle := h.avail_le
    have hcons := h.cons_le
    refine ⟨seen, cons, avail, { h with
      seq_eq := ?_, cons_le := ?_, handled_le := ?_, handled_lt := ?_, waiting := ?_ }⟩
    · rw [List.length_append, List.length_singleton, Word.ofNat_succ, ← h.seq_eq]
    · rw [List.length_append, List.length_singleton]
      omega
    · rw [List.length_append, List.length_singleton]
      dsimp only
      omega
    · rw [List.length_append, List.length_singleton]
      omega
    · intro hwait
      dsimp only at hwait
      split at hwait <;> simp at hwait
  | store =>
    obtain ⟨-, -, rfl⟩ := step_store hstep
    exact ⟨seen, p.handled.length, avail, { h with
      cons_eq := h.seq_eq, seen_le := Nat.le_trans h.seen_le h.cons_le, cons_le := le_rfl,
      waiting := fun _ => rfl }⟩

/-- The slot of any sequence number is in bounds. -/
theorem Shaped.masked_getElem? (h : Shaped N p) (hN : 1 ≤ N.toNat) (x : UInt64) :
    ∃ e, p.ring.buf[(x &&& p.ring.mask).toNat]? = some e := by
  have hmask : (N - 1).toNat = N.toNat - 1 := Word.toNat_sub_of_le (by simpa using hN)
  have hle : (x &&& p.ring.mask).toNat ≤ N.toNat - 1 := by
    rw [UInt64.toNat_and, h.mask, hmask]
    exact Nat.and_le_right
  have hlt : (x &&& p.ring.mask).toNat < p.ring.buf.length := by
    rw [h.length]
    omega
  exact ⟨_, List.getElem?_eq_getElem hlt⟩

/-- A consumer that moves on leaves the producer at least the room it had. -/
theorem Counted.hasRoom_step (h : Counted N p) (hN : N.toNat < 2 ^ 64 - 1) {a : Act}
    (ha : a.ofProducer = false) (hstep : p.step N stop a = some p') (hroom : p.HasRoom N) :
    p'.HasRoom N := by
  obtain ⟨seen, cons, avail, hp⟩ := h
  have hle := (hp.hasRoom_iff hN).mp hroom
  cases a with
  | claim | reload | write | publish => simp [Act.ofProducer] at ha
  | load =>
    obtain ⟨-, rfl⟩ := step_load hstep
    exact hroom
  | handle =>
    obtain ⟨e, -, -, -, rfl⟩ := step_handle hstep
    exact hroom
  | store =>
    obtain ⟨seen', cons', avail', hp'⟩ := Counted.step ⟨seen, cons, avail, hp⟩ hN hstep
    obtain ⟨-, -, rfl⟩ := step_store hstep
    have hcons := hp.cons_le
    have hcons' : cons' = p.handled.length := hp'.waiting rfl
    rw [hp'.hasRoom_iff hN, hcons']
    show p.published.length + 1 ≤ p.handled.length + N.toNat
    omega

end Pipe

namespace Harness

variable {σ : Type} {E : Engine σ} {c : Params} {s s' : Harness σ}

/-! ## The invariant -/

/-- What keeps the threads from holding each other up. -/
structure Live (E : Engine σ) (c : Params) (s : Harness σ) : Prop where
  fed : Fed c s.stage s.pipe s.i s.wl
  drained : Drained E c s.pipe.consumer s.pipe.handled s.book s.rep
  shaped : s.pipe.Shaped c.size
  counted : s.pipe.Counted c.size
  /-- Once the producer waits for the consumer, the last slot asks for the report. -/
  last : s.stage = .join → ∃ e,
    s.pipe.ring.buf[(s.pipe.ring.prod &&& s.pipe.ring.mask).toNat]? = some e ∧ e.isReport = true
  /-- The consumer is done once it handled the last event. -/
  ended : s.stage = .join → s.pipe.handled.length = s.pipe.published.length →
    s.pipe.consumer = .stopped

theorem live_start {now : UInt64} (hstart : start E c now = some s) : Live E c s := by
  have hinv := inv_start hstart
  obtain ⟨-, book, -, heq⟩ := start_eq_some_iff.mp hstart
  obtain rfl := Option.some.inj heq
  constructor
  case fed => exact hinv.fed
  case drained => exact hinv.drained
  case shaped => exact Pipe.shaped_new c.size
  case counted => exact Pipe.counted_new c.size
  case last => simp
  case ended => simp

theorem Moved.live {producer : Bool} {p p' : Pipe} (hmoved : Moved c producer p p')
    (hN : c.size.toNat < 2 ^ 64 - 1) (hshaped : p.Shaped c.size) (hcounted : p.Counted c.size) :
    p'.Shaped c.size ∧ p'.Counted c.size := by
  rcases hmoved with rfl | ⟨a, -, hstep⟩
  · exact ⟨hshaped, hcounted⟩
  · exact ⟨hshaped.step hstep, hcounted.step hN hstep⟩

/-- The producer comes to wait for the consumer by publishing the request for the report. -/
theorem producerStep_join (h : Fed c s.stage s.pipe s.i s.wl) (hstep : s.producerStep c = some s')
    (hjoin : s'.stage = .join) :
    ∃ slot e, s.pipe.producer = .writing slot ∧ s.pipe.ring.buf[slot.toNat]? = some e ∧
      e.isReport = true ∧ s'.pipe =
        { s.pipe with ring := s.pipe.ring.publish, producer := .idle,
                      published := s.pipe.published ++ [e] } := by
  obtain ⟨now, pipe, stage, i, wl, nextDue, book, rep⟩ := s
  dsimp only at h ⊢
  cases h with
  | next hp hi hpub =>
    simp only [producerStep] at hstep
    split at hstep
    case isTrue =>
      obtain rfl := Option.some.inj hstep
      split at hjoin <;> simp at hjoin
    case isFalse =>
      obtain rfl := Option.some.inj hstep
      simp at hjoin
  | pace hp hi hpub =>
    simp only [producerStep] at hstep
    split at hstep
    all_goals
      obtain rfl := Option.some.inj hstep
      simp at hjoin
  | send hi hpub hs =>
    obtain ⟨⟨pipe', left⟩, hsend, hleft⟩ := Option.bind_eq_some_iff.mp hstep
    cases left with
    | none =>
      obtain rfl := Option.some.inj hleft
      simp at hjoin
    | some todo =>
      obtain rfl := Option.some.inj hleft
      simp at hjoin
  | report hpub hs =>
    obtain ⟨⟨pipe', left⟩, hsend, hleft⟩ := Option.bind_eq_some_iff.mp hstep
    cases left with
    | some todo =>
      obtain rfl := Option.some.inj hleft
      simp at hjoin
    | none =>
      obtain rfl := Option.some.inj hleft
      simp only [Pipe.send] at hsend
      split at hsend
      case h_4 slot hp =>
        obtain ⟨q, hpublish, heq⟩ := Option.map_eq_some_iff.mp hsend
        obtain ⟨rfl, -⟩ := Prod.mk.inj heq
        obtain ⟨slot', e, hp', hget, rfl⟩ := Pipe.step_publish hpublish
        refine ⟨slot', e, hp', hget, ?_, rfl⟩
        have hop : e.op? = none := hs.done hp' hget
        rw [Event.isReport, hop, Option.isNone_none]
      all_goals
        obtain ⟨q, -, heq⟩ := Option.map_eq_some_iff.mp hsend
        simp at heq
  | join hpub => simp [producerStep] at hstep

theorem live_producer (hN : c.size.toNat < 2 ^ 64 - 1) (h : Live E c s)
    (hstep : s.producerStep c = some s') : Live E c s' := by
  obtain ⟨hfed, hmoved, hbook, hrep⟩ := producerStep_spec h.fed hstep
  obtain ⟨hconsumer, hhandled⟩ := hmoved.producer_frame
  obtain ⟨hshaped, hcounted⟩ := hmoved.live hN h.shaped h.counted
  refine ⟨hfed, ?_, hshaped, hcounted, fun hjoin => ?_, fun hjoin hall => ?_⟩
  · rw [hconsumer, hhandled, hbook, hrep]
    exact h.drained
  · obtain ⟨slot, e, hp, hget, hreport, hpipe⟩ := producerStep_join h.fed hstep hjoin
    refine ⟨e, ?_, hreport⟩
    rw [hpipe]
    rw [h.shaped.slot hp, Ring.claimed] at hget
    exact hget
  · -- the event that was just published is still to be handled
    obtain ⟨slot, e, -, -, -, hpipe⟩ := producerStep_join h.fed hstep hjoin
    obtain ⟨seen, cons, avail, hcursors⟩ := h.counted
    have hle := hcursors.handled_le
    rw [hpipe, List.length_append, List.length_singleton] at hall
    dsimp only at hall
    omega

theorem live_consumer (hN : c.size.toNat < 2 ^ 64 - 1) (h : Live E c s)
    (hstep : s.consumerStep E c = some s') : Live E c s' := by
  obtain ⟨hdrained, hmoved, hstage, hi, hwl⟩ := consumerStep_spec h.drained hstep
  obtain ⟨hproducer, hbuf, hpublished⟩ := hmoved.consumer_frame
  obtain ⟨hshaped, hcounted⟩ := hmoved.live hN h.shaped h.counted
  obtain ⟨seen, cons, avail, hcursors⟩ := h.counted
  obtain ⟨seen', cons', avail', hcursors'⟩ := hcounted
  refine ⟨?_, hdrained, hshaped, ⟨seen', cons', avail', hcursors'⟩, fun hjoin => ?_,
    fun hjoin hall => ?_⟩
  · rw [hstage, hi, hwl]
    exact h.fed.frame hproducer hbuf hpublished
  · rw [hbuf, hshaped.mask, ← h.shaped.mask, hcursors'.prod_eq, hpublished, ← hcursors.prod_eq]
    exact h.last (hstage ▸ hjoin)
  · rw [hstage] at hjoin
    rw [hpublished] at hall
    have hended := h.ended hjoin
    rcases hmoved with heq | ⟨a, ha, haction⟩
    · rw [heq] at hall ⊢
      exact hended hall
    · cases a with
      | claim | reload | write | publish => simp [Act.ofProducer] at ha
      | load =>
        obtain ⟨hp, hpipe⟩ := Pipe.step_load haction
        rw [hpipe] at hall
        rw [hended hall] at hp
        simp at hp
      | store =>
        obtain ⟨hp, -, hpipe⟩ := Pipe.step_store haction
        rw [hpipe] at hall
        rw [hended hall] at hp
        simp at hp
      | handle =>
        obtain ⟨e, hnext, -, -, hpipe⟩ := Pipe.step_handle haction
        obtain ⟨last, hlast, hreport⟩ := h.last hjoin
        -- the event that was handled is the last one published
        rw [hpipe, List.length_append, List.length_singleton] at hall
        have hseq : s.pipe.seq + 1 = s.pipe.ring.prod := by
          rw [hcursors.seq_eq, hcursors.prod_eq, ← hall, Word.ofNat_succ]
        rw [Pipe.next?, hseq, hlast] at hnext
        obtain rfl := Option.some.inj hnext
        rw [hpipe]
        simp only [hreport, if_true]

/-- **Every turn keeps the invariant.** -/
theorem live_step (hN : c.size.toNat < 2 ^ 64 - 1) {turn : Turn} (h : Live E c s)
    (hstep : s.step E c turn = some s') : Live E c s' := by
  cases turn with
  | tick now =>
    obtain ⟨-, heq⟩ := Option.ite_none_right_eq_some.mp hstep
    obtain rfl := Option.some.inj heq
    exact ⟨h.fed, h.drained, h.shaped, h.counted, h.last, h.ended⟩
  | producer => exact live_producer hN h hstep
  | consumer => exact live_consumer hN h hstep

theorem live_run (hN : c.size.toNat < 2 ^ 64 - 1) {now : UInt64} {turns : List Turn}
    (hrun : run E c now turns = some s) : Live E c s :=
  run_invariant (Live E c) live_start (fun _ _ _ h hstep => live_step hN h hstep) hrun

/-! ## Progress -/

/-- The producer has a step other than to read the consumer's cursor again in its spin loop. -/
def ProducerAdvances (c : Params) (s : Harness σ) : Prop :=
  ∃ s', s.producerStep c = some s' ∧
    ¬(s.pipe.producer = .spinning ∧ s'.pipe.producer = .spinning)

/-- The consumer has an action other than to read the producer's cursor again in its spin
loop, whatever the engine does with the event. -/
def ConsumerAdvances (c : Params) (s : Harness σ) : Prop :=
  ∃ a p', a.ofProducer = false ∧ s.pipe.step c.size Event.isReport a = some p' ∧
    ¬(s.pipe.consumer = .waiting ∧ p'.consumer = .waiting)

/-- The producer is about to claim a slot, or spins for one. -/
def Claiming (s : Harness σ) : Prop :=
  (∃ todo, s.stage = .send todo ∨ s.stage = .report todo) ∧
    ∀ slot, s.pipe.producer ≠ .writing slot

/-- The producer's claim cannot get through, however often it reads the cursor. -/
def ProducerStuck (c : Params) (s : Harness σ) : Prop := s.Claiming ∧ ¬ s.pipe.HasRoom c.size

/-- The consumer's wait cannot get through, however often it reads the cursor. -/
def ConsumerStuck (s : Harness σ) : Prop :=
  s.pipe.consumer = .waiting ∧ s.pipe.ring.prod = s.pipe.seq

/-- The two threads do not hold each other up. -/
structure Progress (E : Engine σ) (c : Params) (s : Harness σ) : Prop where
  advances : s.pipe.consumer ≠ .stopped → s.ProducerAdvances c ∨ s.ConsumerAdvances c
  not_both : ¬(s.ProducerStuck c ∧ s.ConsumerStuck)
  /-- Where the plain test holds, the cached claim gets its slot within two steps. -/
  claims : s.Claiming → s.pipe.HasRoom c.size → ∃ s',
    (s.producerStep c = some s' ∨ ∃ s₁, s.producerStep c = some s₁ ∧ s₁.producerStep c = some s') ∧
      ∃ slot, s'.pipe.producer = .writing slot
  /-- The consumer does not take away the room there is. -/
  room_stays : s.pipe.HasRoom c.size → ∀ s', s.consumerStep E c = some s' → s'.pipe.HasRoom c.size

/-- The producer finds the room there is when it reads the cursor. -/
theorem send_of_spinning {p : Pipe} (hp : p.producer = .spinning) (hroom : p.HasRoom c.size)
    (todo : List Store) :
    ∃ p', p.send c.size todo = some (p', some todo) ∧ ∃ slot, p'.producer = .writing slot := by
  have hfull : p.ring.reload.looksFull c.size = false :=
    decide_eq_false (UInt64.not_lt.mpr hroom)
  refine ⟨{ p with ring := p.ring.reload, producer := .writing p.ring.reload.claimed }, ?_, _, rfl⟩
  simp only [Pipe.send, hp, Pipe.step, if_true]
  rw [Pipe.tryClaim_of_room (p := { p with ring := p.ring.reload, producer := .spinning }) hfull]
  rfl

theorem send_of_idle {p : Pipe} (hp : p.producer = .idle) (todo : List Store) :
    p.send c.size todo = some (p.tryClaim c.size, some todo) := by
  simp only [Pipe.send, hp, Pipe.step, if_true, Option.map_some]

/-- Sending an event goes on, but for a producer that spins without room. -/
theorem send_advances {p : Pipe} (hN : 1 ≤ c.size.toNat) (hshaped : p.Shaped c.size)
    (hroom : p.HasRoom c.size) (todo : List Store) :
    ∃ r, p.send c.size todo = some r ∧
      ¬(p.producer = .spinning ∧ r.1.producer = .spinning) := by
  cases hp : p.producer with
  | idle => exact ⟨_, send_of_idle hp todo, by simp⟩
  | spinning =>
    obtain ⟨p', hsend, slot, hslot⟩ := send_of_spinning hp hroom todo
    exact ⟨_, hsend, by simp [hslot]⟩
  | writing slot =>
    obtain ⟨e, hget⟩ := hshaped.masked_getElem? hN (p.ring.prod + 1)
    rw [← Ring.claimed, ← hshaped.slot hp] at hget
    have hsend : ∃ r, p.send c.size todo = some r := by
      cases todo <;>
        simp only [Pipe.send, hp, Pipe.step, hget, Option.bind_eq_bind, Option.bind_some,
          Option.map_some] <;>
        exact ⟨_, rfl⟩
    obtain ⟨r, hr⟩ := hsend
    exact ⟨r, hr, by simp⟩

/-- A consumer that finds nothing has released everything, so that there is room. -/
theorem Live.hasRoom_of_consumerStuck (h : Live E c s) (hN : 1 ≤ c.size.toNat)
    (hN' : c.size.toNat < 2 ^ 64 - 1) (hstuck : s.ConsumerStuck) :
    s.pipe.handled.length = s.pipe.published.length ∧ s.pipe.HasRoom c.size := by
  obtain ⟨seen, cons, avail, hcursors⟩ := h.counted
  obtain ⟨hwait, heq⟩ := hstuck
  have hseen := hcursors.seen_le
  have hcons := hcursors.cons_le
  have hprod := hcursors.prod_le
  rw [hcursors.prod_eq, hcursors.seq_eq, Word.ofNat_inj_of_lt hcursors.handled_le (by omega)] at heq
  refine ⟨heq.symm, (hcursors.hasRoom_iff hN').mpr ?_⟩
  rw [hcursors.waiting hwait, heq]
  omega

theorem Live.producerAdvances (h : Live E c s) (hN : 1 ≤ c.size.toNat)
    (hroom : s.pipe.HasRoom c.size) (hjoin : s.stage ≠ .join) : s.ProducerAdvances c := by
  obtain ⟨now, pipe, stage, i, wl, nextDue, book, rep⟩ := s
  have hshaped : pipe.Shaped c.size := h.shaped
  have hfed : Fed c stage pipe i wl := h.fed
  cases hfed with
  | next hp hi hpub =>
    rw [ProducerAdvances]
    simp only [producerStep, hp]
    split
    · exact ⟨_, rfl, by simp⟩
    · exact ⟨_, rfl, by simp⟩
  | pace hp hi hpub =>
    rw [ProducerAdvances]
    simp only [producerStep, hp]
    split
    · exact ⟨_, rfl, by simp⟩
    · exact ⟨_, rfl, by simp⟩
  | @send _ _ todo =>
    obtain ⟨⟨p', left⟩, hsend, hno⟩ := send_advances hN hshaped hroom todo
    rw [ProducerAdvances]
    simp only [producerStep, hsend, Option.bind_eq_bind, Option.bind_some]
    cases left <;>
    · refine ⟨_, rfl, ?_⟩
      exact hno
  | @report _ _ _ todo =>
    obtain ⟨⟨p', left⟩, hsend, hno⟩ := send_advances hN hshaped hroom todo
    rw [ProducerAdvances]
    simp only [producerStep, hsend, Option.bind_eq_bind, Option.bind_some]
    cases left <;>
    · refine ⟨_, rfl, ?_⟩
      exact hno
  | join hpub => exact absurd rfl hjoin

theorem Live.advances (h : Live E c s) (hN : 1 ≤ c.size.toNat) (hN' : c.size.toNat < 2 ^ 64 - 1)
    (hc : s.pipe.consumer ≠ .stopped) : s.ProducerAdvances c ∨ s.ConsumerAdvances c := by
  cases hp : s.pipe.consumer with
  | stopped => exact absurd hp hc
  | draining =>
    refine Or.inr ?_
    by_cases hmore : s.pipe.seq < s.pipe.avail
    · obtain ⟨e, hnext⟩ := h.shaped.masked_getElem? hN (s.pipe.seq + 1)
      have hready : ∃ p', s.pipe.step c.size Event.isReport .handle = some p' :=
        Pipe.step_handle_ready hp hmore hnext
      obtain ⟨p', hstep⟩ := hready
      exact ⟨.handle, p', rfl, hstep, by simp [hp]⟩
    · have hready : ∃ p', s.pipe.step c.size Event.isReport .store = some p' :=
        Pipe.step_store_ready hp hmore
      obtain ⟨p', hstep⟩ := hready
      exact ⟨.store, p', rfl, hstep, by simp [hp]⟩
  | waiting =>
    by_cases heq : s.pipe.ring.prod = s.pipe.seq
    · -- nothing is left to handle, so the producer has events to send, and room for them
      obtain ⟨hall, hroom⟩ := h.hasRoom_of_consumerStuck hN hN' ⟨hp, heq⟩
      exact Or.inl (h.producerAdvances hN hroom fun hjoin => hc (h.ended hjoin hall))
    · refine Or.inr ⟨.load, _, rfl, if_pos hp, ?_⟩
      simp [heq]

theorem producerStep_of_send {todo : List Store} {p' : Pipe}
    (hstage : s.stage = .send todo ∨ s.stage = .report todo)
    (hsend : s.pipe.send c.size todo = some (p', some todo)) :
    s.producerStep c = some { s with pipe := p' } := by
  obtain ⟨now, pipe, stage, i, wl, nextDue, book, rep⟩ := s
  dsimp only at hstage hsend
  rcases hstage with rfl | rfl <;>
    simp only [producerStep, hsend, Option.bind_eq_bind, Option.bind_some]

/-- Where there is room, a producer that looks at its cache only is one step away from the
cursor that shows it. -/
theorem claims_of_hasRoom (hclaim : s.Claiming) (hroom : s.pipe.HasRoom c.size) : ∃ s',
    (s.producerStep c = some s' ∨ ∃ s₁, s.producerStep c = some s₁ ∧ s₁.producerStep c = some s') ∧
      ∃ slot, s'.pipe.producer = .writing slot := by
  obtain ⟨⟨todo, hstage⟩, hno⟩ := hclaim
  cases hp : s.pipe.producer with
  | writing slot => exact absurd hp (hno slot)
  | spinning =>
    obtain ⟨p', hsend, hslot⟩ := send_of_spinning hp hroom todo
    exact ⟨_, Or.inl (producerStep_of_send hstage hsend), hslot⟩
  | idle =>
    have hfirst := producerStep_of_send hstage (send_of_idle (c := c) hp todo)
    cases hf : s.pipe.ring.looksFull c.size with
    | false =>
      refine ⟨_, Or.inl hfirst, s.pipe.ring.claimed, ?_⟩
      rw [Pipe.tryClaim_of_room hf]
    | true =>
      rw [Pipe.tryClaim_of_full hf] at hfirst
      obtain ⟨p', hsend, hslot⟩ :=
        send_of_spinning (p := { s.pipe with producer := .spinning }) rfl hroom todo
      have hsecond : Harness.producerStep c
          { s with pipe := { s.pipe with producer := .spinning } } = some { s with pipe := p' } :=
        producerStep_of_send hstage hsend
      exact ⟨_, Or.inr ⟨_, hfirst, hsecond⟩, hslot⟩

theorem Live.roomStays (h : Live E c s) (hN : c.size.toNat < 2 ^ 64 - 1)
    (hroom : s.pipe.HasRoom c.size) (hstep : s.consumerStep E c = some s') :
    s'.pipe.HasRoom c.size := by
  obtain ⟨-, hmoved, -⟩ := consumerStep_spec h.drained hstep
  rcases hmoved with heq | ⟨a, ha, haction⟩
  · rwa [heq]
  · exact h.counted.hasRoom_step hN ha haction hroom

/-- **The pipeline never deadlocks**, under any interleaving, for a ring of any size that a
buffer can have and any number of operations. With `2 ^ 64 - 1` slots, no test of a claim
could fail. -/
theorem progress_run (hN : 1 ≤ c.size.toNat) (hN' : c.size.toNat < 2 ^ 64 - 1) {now : UInt64}
    {turns : List Turn} (hrun : run E c now turns = some s) : Progress E c s := by
  have h := live_run hN' hrun
  exact
    { advances := fun hc => h.advances hN hN' hc
      not_both := fun ⟨hproducer, hconsumer⟩ =>
        hproducer.2 (h.hasRoom_of_consumerStuck hN hN' hconsumer).2
      claims := claims_of_hasRoom
      room_stays := fun hroom _ hstep => h.roomStays hN' hroom hstep }

/-- The ring is full with the only operation, and the producer spins to send the request for
the report. -/
theorem progress_run_full : ∃ s, run Book.engine ⟨1, 1, 0, 0⟩ 0
      [.producer, .producer, .producer, .producer, .producer, .producer, .producer, .producer,
        .producer, .producer, .producer, .consumer] = some s ∧
    Progress Book.engine ⟨1, 1, 0, 0⟩ s := by
  have hrun : (run Book.engine ⟨1, 1, 0, 0⟩ 0
      [.producer, .producer, .producer, .producer, .producer, .producer, .producer, .producer,
        .producer, .producer, .producer, .consumer]).isSome = true := by
    decide +kernel
  obtain ⟨s, hs⟩ := Option.isSome_iff_exists.mp hrun
  exact ⟨s, hs, progress_run (by decide) (by decide) hs⟩

end Harness
end LmaxBench.Cpp
