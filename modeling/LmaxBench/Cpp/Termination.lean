import LmaxBench.Cpp.TunedLoops

/-!
# Termination of the matching loops

The loops of `limit` end from every state in which their accesses are in range, reachable or
not: best pointers may be stale and point at empty levels, levels of the ordered maps may be
empty, records may have any quantity, zero included, and ids may be queued any number of
times. `Loop.Ends` says this of the loops as they stand in the source, without the bound on
the rounds that makes them functions here.

## Main definitions

* `TunedBook.Sound` — the states in which the accesses of `limit` are in range.
* `TunedBook.InnerEnds`, `Book.InnerEnds` — the loops inside a round of the outer loop end.
* `limit_terminates` — the loops of both books.
-/

namespace LmaxBench.Cpp

/-- The level is not read past its end, and what is queued in it has one of `n` slots. -/
structure FlatLevel.Sound (n : ℕ) (l : FlatLevel) : Prop where
  head_le : l.head ≤ l.ids.length
  slot : ∀ id ∈ l.unread, id.toNat < n

namespace FlatLevel.Sound
variable {n : ℕ} {l : FlatLevel}

theorem pop (h : l.Sound n) {head : UInt64} (hfront : l.front = some head) : l.pop.Sound n where
  head_le := head_lt_of_front hfront
  slot := by
    intro id hid
    rw [unread_pop] at hid
    exact h.slot id (List.mem_of_mem_tail hid)

theorem reset (n : ℕ) (l : FlatLevel) : l.reset.Sound n where
  head_le := le_rfl
  slot := by simp [FlatLevel.reset, unread]

theorem front_eq_some (h : l.Sound n) (he : ¬ l.empty = true) :
    ∃ head, l.front = some head ∧ head.toNat < n := by
  have hne : l.unread ≠ [] := mt (empty_iff h.head_le).mpr he
  obtain ⟨head, rest, hunread⟩ := List.exists_cons_of_ne_nil hne
  refine ⟨head, ?_, h.slot head (hunread ▸ List.mem_cons_self)⟩
  rw [front_eq, hunread, List.head?_cons]

end FlatLevel.Sound

namespace TunedBook

/-- A ladder of its length, with levels that are sound. -/
structure LadderSound (n : ℕ) (ladder : List FlatLevel) : Prop where
  length : ladder.length = ladderLen
  level : ∀ lvl ∈ ladder, lvl.Sound n

theorem LadderSound.set {n : ℕ} {ladder : List FlatLevel} (h : LadderSound n ladder) (i : ℕ)
    {lvl : FlatLevel} (hlvl : lvl.Sound n) : LadderSound n (ladder.set i lvl) where
  length := by rw [List.length_set, h.length]
  level := by
    intro lvl' hmem
    rcases List.mem_or_eq_of_mem_set hmem with hmem | rfl
    · exact h.level lvl' hmem
    · exact hlvl

/-- The state is one in which the accesses of `limit` are in range. -/
structure Sound (t : TunedBook) : Prop where
  bids : LadderSound t.orders.length t.bids
  asks : LadderSound t.orders.length t.asks

theorem Sound.opposite {t : TunedBook} (h : t.Sound) (side : UInt8) :
    LadderSound t.orders.length (t.opposite side) := by
  rw [TunedBook.opposite]
  split
  · exact h.asks
  · exact h.bids

/-! ## The inner loop -/

theorem drainStep_sound {d : Drain} (h : d.lvl.Sound d.orders.length) :
    drainStep d = some none ∨ ∃ d', drainStep d = some (some d') ∧
      d'.lvl.Sound d'.orders.length ∧ d'.orders.length = d.orders.length := by
  cases hstep : drainStep d with
  | none =>
    rw [drainStep] at hstep
    split at hstep
    case isFalse => simp at hstep
    case isTrue =>
      split at hstep
      case isTrue => simp at hstep
      case isFalse he =>
        obtain ⟨head, hfront, hslot⟩ := h.front_eq_some he
        simp only [hfront, List.getElem?_eq_getElem hslot, Option.bind_eq_bind,
          Option.bind_some] at hstep
        split at hstep <;> simp at hstep
  | some o =>
    rcases drainStep_cases hstep with ⟨rfl, -⟩ | ⟨-, head, r, hfront, -, hcase⟩
    · exact Or.inl rfl
    · refine Or.inr ?_
      rcases hcase with ⟨-, rfl⟩ | ⟨-, d', rfl, horders, -, hlvl⟩
      · exact ⟨_, rfl, h.pop hfront, rfl⟩
      · have hlen : d'.orders.length = d.orders.length := by rw [horders, List.length_set]
        refine ⟨d', rfl, ?_, hlen⟩
        rw [hlen]
        rcases hlvl with ⟨-, hlvl⟩ | ⟨-, hlvl⟩
        · rw [hlvl]
          exact h.pop hfront
        · rw [hlvl]
          exact h

/-- **The inner loop ends.** -/
theorem drain_ends {d : Drain} (h : d.lvl.Sound d.orders.length) :
    ∃ d', Loop.Ends drainStep (fun _ => True) d d' ∧ d'.lvl.Sound d'.orders.length ∧
      d'.orders.length = d.orders.length := by
  refine Loop.exists_ends drain_variant
    (fun d' => d'.lvl.Sound d'.orders.length ∧ d'.orders.length = d.orders.length) ?_ ⟨h, rfl⟩
  intro s hs
  rcases drainStep_sound hs.1 with hexit | ⟨s', hs', hsound, hlen⟩
  · exact Or.inl hexit
  · exact Or.inr ⟨s', hs', trivial, hsound, hlen.trans hs.2⟩

/-! ## The scans -/

/-- The scan for the next occupied level ends. -/
def ScanEnds (side : UInt8) (ladder : List FlatLevel) (best : ℤ) : Prop :=
  if side = sideBid then ∃ p, Loop.Ends (scanUpStep ladder) (fun _ => True) (best + 1) p
  else ∃ p, Loop.Ends (scanDownStep ladder) (fun _ => True) (best - 1) p

theorem scanUp_ends {asks : List FlatLevel} (hlen : asks.length = ladderLen) {p : ℤ}
    (h0 : ladderBase ≤ p) : ∃ q, Loop.Ends (scanUpStep asks) (fun _ => True) p q := by
  obtain ⟨q, hq, -⟩ : ∃ q, Loop.Ends (scanUpStep asks) (fun _ => True) p q ∧ ladderBase ≤ q := by
    refine Loop.exists_ends (scanUp_variant asks) (fun q => ladderBase ≤ q) ?_ h0
    intro q hq
    rw [scanUpStep]
    by_cases hq' : q < ladderBase + ladderLen
    · obtain ⟨lvl, hlvl⟩ := levelAt_eq_some hlen hq hq'
      rw [levelAt] at hlvl
      rw [if_pos hq', hlvl, Option.bind_eq_bind, Option.bind_some]
      split
      · exact Or.inr ⟨q + 1, rfl, trivial, by omega⟩
      · exact Or.inl rfl
    · exact Or.inl (if_neg hq')
  exact ⟨q, hq⟩

theorem scanDown_ends {bids : List FlatLevel} (hlen : bids.length = ladderLen) {p : ℤ}
    (h1 : p < ladderBase + ladderLen) :
    ∃ q, Loop.Ends (scanDownStep bids) (fun _ => True) p q := by
  obtain ⟨q, hq, -⟩ : ∃ q, Loop.Ends (scanDownStep bids) (fun _ => True) p q ∧
      q < ladderBase + ladderLen := by
    refine Loop.exists_ends (scanDown_variant bids) (fun q => q < ladderBase + ladderLen) ?_ h1
    intro q hq
    rw [scanDownStep]
    by_cases hq' : ladderBase ≤ q
    · obtain ⟨lvl, hlvl⟩ := levelAt_eq_some hlen hq' hq
      rw [levelAt] at hlvl
      rw [if_pos hq', hlvl, Option.bind_eq_bind, Option.bind_some]
      split
      · exact Or.inr ⟨q - 1, rfl, trivial, by omega⟩
      · exact Or.inl rfl
    · exact Or.inl (if_neg hq')
  exact ⟨q, hq⟩

theorem scan_ends {ladder : List FlatLevel} (hlen : ladder.length = ladderLen) (side : UInt8)
    {best : ℤ} (h0 : ladderBase ≤ best) (h1 : best < ladderBase + ladderLen) :
    ScanEnds side ladder best := by
  rw [ScanEnds]
  split
  · exact scanUp_ends hlen (by omega)
  · exact scanDown_ends hlen (by omega)

/-! ## The outer loop -/

/-- The loops inside a round of the outer loop end: the inner loop on the best level and, if
it leaves the level empty, the scan for the next one. -/
def InnerEnds (side : UInt8) (s : Sweep) : Prop :=
  ∃ lvl d, levelAt (s.book.opposite side) (s.book.best side) = some lvl ∧
    Loop.Ends drainStep (fun _ => True)
      ⟨lvl, s.book.orders, s.qty, s.book.live, s.book.fills, s.book.volume, s.log⟩ d ∧
    (d.lvl.empty = true → ScanEnds side
      ((s.book.opposite side).set (sizeT (s.book.best side - ladderBase)) d.lvl.reset)
      (s.book.best side))

theorem writeBack_sound {t : TunedBook} (h : t.Sound) (side : UInt8) (i : ℕ) {d : Drain}
    (hd : d.lvl.Sound d.orders.length) (hlen : d.orders.length = t.orders.length) :
    (t.writeBack side i d).Sound := by
  have hbids : LadderSound d.orders.length t.bids := hlen ▸ h.bids
  have hasks : LadderSound d.orders.length t.asks := hlen ▸ h.asks
  simp only [writeBack]
  split
  · exact ⟨hbids, hasks.set i hd⟩
  · exact ⟨hbids.set i hd, hasks⟩

theorem advance_sound {t : TunedBook} (h : t.Sound) (side : UInt8) {best : ℤ}
    (h0 : ladderBase ≤ best) (h1 : best < ladderBase + ladderLen) :
    ∃ t', t.advance side (sizeT (best - ladderBase)) best = some t' ∧ t'.Sound ∧
      t'.orders.length = t.orders.length := by
  rw [advance]
  split
  · obtain ⟨lvl, hlvl⟩ := levelAt_eq_some h.asks.length h0 h1
    rw [levelAt] at hlvl
    have hset := h.asks.set (sizeT (best - ladderBase)) (.reset _ lvl)
    obtain ⟨p, hp⟩ := scanUp_ends hset.length (show ladderBase ≤ best + 1 by omega)
    have hscan : scanUp _ _ = some p := hp.tryExec_eq (scanUp_variant _)
    simp only [hlvl, hscan, Option.bind_eq_bind, Option.bind_some]
    exact ⟨_, rfl, ⟨h.bids, hset⟩, rfl⟩
  · obtain ⟨lvl, hlvl⟩ := levelAt_eq_some h.bids.length h0 h1
    rw [levelAt] at hlvl
    have hset := h.bids.set (sizeT (best - ladderBase)) (.reset _ lvl)
    obtain ⟨p, hp⟩ := scanDown_ends hset.length (show best - 1 < ladderBase + ladderLen by omega)
    have hscan : scanDown _ _ = some p := hp.tryExec_eq (scanDown_variant _)
    simp only [hlvl, hscan, Option.bind_eq_bind, Option.bind_some]
    exact ⟨_, rfl, ⟨hset, h.asks⟩, rfl⟩

theorem settle_sound {t : TunedBook} (h : t.Sound) (side : UInt8) {best : ℤ} {d : Drain}
    (hd : d.lvl.Sound d.orders.length) (hlen : d.orders.length = t.orders.length)
    (h0 : ladderBase ≤ best) (h1 : best < ladderBase + ladderLen) :
    ∃ t', t.settle side best d = some t' ∧ t'.Sound ∧ t'.orders.length = t.orders.length := by
  have hwrite := writeBack_sound h side (sizeT (best - ladderBase)) hd hlen
  simp only [settle]
  split
  · obtain ⟨t', ht', hsound, hlen'⟩ := advance_sound hwrite side h0 h1
    exact ⟨t', ht', hsound, hlen'.trans hlen⟩
  · exact ⟨_, rfl, hwrite, hlen⟩

/-- A round of the outer loop does not fault, and the loops inside it end. -/
theorem sweepStep_sound (side : UInt8) (price : ℤ) {s : Sweep} (h : s.book.Sound) :
    sweepStep side price s = some none ∨ ∃ s', sweepStep side price s = some (some s') ∧
      InnerEnds side s ∧ s'.book.Sound ∧ s'.book.orders.length = s.book.orders.length := by
  by_cases hexit : s.qty ≤ 0 ∨ ¬ Crossing side price (s.book.best side)
  · exact Or.inl (sweepStep_of_exit hexit)
  · simp only [not_or, not_le, not_not] at hexit
    obtain ⟨hq, hc⟩ := hexit
    have hladder := h.opposite side
    obtain ⟨lvl, hlvl⟩ := levelAt_eq_some hladder.length hc.1 hc.2.1
    have hsound : lvl.Sound s.book.orders.length := hladder.level lvl (List.mem_of_getElem? hlvl)
    obtain ⟨d, hd, hdsound, hlen⟩ := drain_ends
      (d := ⟨lvl, s.book.orders, s.qty, s.book.live, s.book.fills, s.book.volume, s.log⟩) hsound
    obtain ⟨t, ht, htsound, hlen'⟩ := settle_sound h side hdsound hlen hc.1 hc.2.1
    have hset := hladder.set (sizeT (s.book.best side - ladderBase)) (.reset _ d.lvl)
    refine Or.inr ⟨{ book := t, qty := d.qty, log := d.log }, ?_,
      ⟨lvl, d, hlvl, hd, fun _ => scan_ends hset.length side hc.1 hc.2.1⟩, htsound, hlen'⟩
    have hdrain : s.drainOf lvl = some d := hd.tryExec_eq drain_variant
    rw [levelAt] at hlvl
    simp only [sweepStep_of_crossing hq hc, hlvl, hdrain, ht, Option.bind_eq_bind,
      Option.bind_some]

/-- The residual comes to rest in a slot and at a level that exist. -/
theorem rest_sound {t : TunedBook} (h : t.Sound) (side : UInt8) {price : ℤ} (qty : ℤ) {id : UInt64}
    (h0 : ladderBase ≤ price) (h1 : price < ladderBase + ladderLen)
    (hid : id.toNat < t.orders.length) : ∃ t', t.rest side price qty id = some t' := by
  rw [rest]
  split
  · obtain ⟨lvl, hlvl⟩ := levelAt_eq_some h.bids.length h0 h1
    rw [levelAt] at hlvl
    simp only [hlvl, List.getElem?_eq_getElem hid, Option.bind_eq_bind, Option.bind_some]
    exact ⟨_, rfl⟩
  · obtain ⟨lvl, hlvl⟩ := levelAt_eq_some h.asks.length h0 h1
    rw [levelAt] at hlvl
    simp only [hlvl, List.getElem?_eq_getElem hid, Option.bind_eq_bind, Option.bind_some]
    exact ⟨_, rfl⟩

/-- **The loops of the tuned book end**, with the taker exhausted or no best level that
crosses. -/
theorem sweep_ends {t : TunedBook} (h : t.Sound) (side : UInt8) (price qty : ℤ) :
    ∃ s, Loop.Ends (sweepStep side price) (InnerEnds side) { book := t, qty } s ∧ s.book.Sound ∧
      s.book.orders.length = t.orders.length ∧
      (s.qty ≤ 0 ∨ ¬ Crossing side price (s.book.best side)) := by
  obtain ⟨s, hs, hsound, hlen⟩ := Loop.exists_ends (sweep_variant side price)
    (P := InnerEnds side)
    (fun s => s.book.Sound ∧ s.book.orders.length = t.orders.length)
    (fun s hs => (sweepStep_sound side price hs.1).imp_right
      fun ⟨s', hs', hinner, hsound, hlen⟩ => ⟨s', hs', hinner, hsound, hlen.trans hs.2⟩)
    (s := { book := t, qty }) ⟨h, rfl⟩
  refine ⟨s, hs, hsound, hlen, ?_⟩
  rcases sweepStep_cases hs.step_eq with ⟨-, hexit⟩ | ⟨-, -, lvl, d, t', -, -, -, ho⟩
  · exact hexit
  · simp at ho

theorem sound_new (maxId : UInt64) : (new maxId).Sound := by
  have hladder : LadderSound (new maxId).orders.length (List.replicate ladderLen {}) :=
    { length := List.length_replicate
      level := fun lvl hlvl => List.eq_of_mem_replicate hlvl ▸ FlatLevel.Sound.reset _ {} }
  exact ⟨hladder, hladder⟩

end TunedBook

/-! ## The idiomatic book -/

/-- The inner loop on the best level ends. -/
def Book.InnerEnds (side : UInt8) (price : ℤ) (s : Book.Sweep) : Prop :=
  ∀ p lvl, s.book.bestCrossing side price = some (p, lvl) →
    Loop.Ends (fun d => some (Book.drainStep d)) (fun _ => True)
      ⟨lvl, s.book.orders, s.qty, s.book.fills, s.book.volume, s.log⟩ (s.drainOf lvl)

theorem Book.innerEnds (side : UInt8) (price : ℤ) (s : Book.Sweep) :
    Book.InnerEnds side price s :=
  fun _ _ _ => Loop.exec_ends Book.drain_variant (fun _ => trivial) _

/-! ## Both books -/

/-- **The loops of `limit` end from every state**, with the taker exhausted, or with no best
opposite level, or one that does not cross. -/
theorem limit_terminates :
    (∀ t : TunedBook, t.Sound → ∀ (side : UInt8) (price qty : ℤ) (id : UInt64),
      ladderBase ≤ price → price < ladderBase + ladderLen → id.toNat < t.orders.length →
      ∃ s t', Loop.Ends (TunedBook.sweepStep side price) (TunedBook.InnerEnds side)
          { book := t, qty } s ∧
        (s.qty ≤ 0 ∨ ¬ TunedBook.Crossing side price (s.book.best side)) ∧
        (if 0 < s.qty then s.book.rest side price s.qty id else some s.book) = some t' ∧
        t.limit side price qty id = some t') ∧
      ∀ (b : Book) (side : UInt8) (price qty : ℤ), ∃ s,
        Loop.Ends (fun s => some (Book.sweepStep side price s)) (Book.InnerEnds side price)
          { book := b, qty } s ∧
        (s.qty ≤ 0 ∨ s.book.bestCrossing side price = none) ∧
        ∀ id, b.limit side price qty id =
          if 0 < s.qty then s.book.rest side price s.qty id else s.book := by
  constructor
  · intro t h side price qty id h0 h1 hid
    obtain ⟨s, hs, hsound, hlen, hexit⟩ := TunedBook.sweep_ends h side price qty
    have hsweep : TunedBook.sweep side price { book := t, qty } = some s :=
      hs.tryExec_eq (TunedBook.sweep_variant side price)
    have hlimit : t.limit side price qty id =
        if 0 < s.qty then s.book.rest side price s.qty id else some s.book := by
      rw [TunedBook.limit, hsweep, Option.bind_eq_bind, Option.bind_some]
    obtain ⟨t', ht'⟩ : ∃ t', (if 0 < s.qty then s.book.rest side price s.qty id
        else some s.book) = some t' := by
      split
      · exact TunedBook.rest_sound hsound side s.qty h0 h1 (hlen ▸ hid)
      · exact ⟨_, rfl⟩
    exact ⟨s, t', hs, hexit, ht', hlimit.trans ht'⟩
  · intro b side price qty
    exact ⟨_, Loop.exec_ends (Book.sweep_variant side price) (Book.innerEnds side price) _,
      Book.sweep_exit side price _, fun _ => rfl⟩

/-- The best ask is stale: its level is empty, and the next one queues an order without
quantity. -/
theorem limit_terminates_stale :
    ∃ s t', Loop.Ends (TunedBook.sweepStep 0 9) (TunedBook.InnerEnds 0)
        { book :=
            { TunedBook.new 3 with
              asks := (TunedBook.new 3).asks.set 8 { ids := [2], head := 0 }, bestAsk := 7 }
          qty := 5 } s ∧
      (s.qty ≤ 0 ∨ ¬ TunedBook.Crossing 0 9 (s.book.best 0)) ∧
      (if 0 < s.qty then s.book.rest 0 9 s.qty 1 else some s.book) = some t' ∧
      TunedBook.limit
        { TunedBook.new 3 with
          asks := (TunedBook.new 3).asks.set 8 { ids := [2], head := 0 }, bestAsk := 7 } 0 9 5 1 =
        some t' := by
  refine limit_terminates.1 _ ?_ 0 9 5 1 (by decide) (by decide) (by decide)
  have hnew := TunedBook.sound_new 3
  refine ⟨hnew.bids, hnew.asks.set 8 ⟨by decide, ?_⟩⟩
  intro id hid
  obtain rfl : id = 2 := List.mem_singleton.mp hid
  decide

end LmaxBench.Cpp
