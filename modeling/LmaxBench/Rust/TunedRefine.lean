import LmaxBench.Cpp.TunedConformance
import LmaxBench.Rust.BookRefine
import LmaxBench.Rust.TunedBook

/-!
# The two Rust books cannot be told apart

The tuned book keeps its records in a map, so that no id needs a slot and no id is special:
its live map is the live map of the idiomatic book, for whatever ids the operations use.
The ladder and the best pointers represent the levels as in the C++ tuned book.

## Main definitions

* `TunedBook.Holds` — the representation relation.
* `nextAsk_spec`, `nextBid_spec` — the search for the next occupied level.
* `TunedBook.observes` — whole runs, with any ids.
-/

namespace LmaxBench.Rust

open Cpp (Resting Orders Levels FlatLevel ladderBase ladderLen int64Max sizeT sideAsk)
open Cpp.TunedBook (LadderHolds IsBest SideHolds levelAt levelAt_eq_some noBest)

namespace TunedBook

theorem sideBid_eq : sideBid = Cpp.sideBid := rfl

/-! ## The inner loop -/

/-- The inner loop of the tuned book is in the state of the inner loop of the book. -/
structure DrainHolds (d : Cpp.Book.Drain) (f : Drain) : Prop where
  head_le : f.level.head ≤ f.level.ids.length
  unread_eq : f.level.unread = d.lvl
  orders_eq : f.orders = d.orders
  qty_eq : f.qty = d.qty
  fills_eq : f.fills = d.fills
  volume_eq : f.volume = d.volume

theorem drain_variant : Loop.Variant drainStep Drain.variant := by
  intro s s' h
  rw [drainStep] at h
  split at h
  case isFalse => simp at h
  case isTrue hq =>
    split at h
    case h_1 => simp at h
    case h_2 head hfront =>
      have hlt := FlatLevel.head_lt_of_front hfront
      split at h
      case h_1 =>
        obtain rfl := Option.some.inj h
        simp only [Drain.variant, FlatLevel.pop]
        omega
      case h_2 r hr =>
        obtain rfl := Option.some.inj h
        rcases le_or_gt r.qty s.qty with hle | hgt
        · simp only [Drain.variant, min_eq_right hle, sub_self, if_true, FlatLevel.pop, hq]
          split <;> omega
        · have hne : r.qty - s.qty ≠ 0 := by omega
          simp [Drain.variant, min_eq_left hgt.le, hne, hq]

/-- **The two inner loops go round in step.** -/
theorem drain_holds {d : Cpp.Book.Drain} {f : Drain} (h : DrainHolds d f) :
    DrainHolds (Cpp.Book.drain d) (drain f) := by
  refine Loop.exec_sim Cpp.Book.drain_variant drain_variant DrainHolds ?_ ?_ h
  · intro d f h hd
    rcases Cpp.Book.drainStep_eq_none.mp hd with hq | hl
    · simp [drainStep, h.qty_eq, not_lt.mpr hq]
    · have hfront : f.level.front = none := by
        rw [FlatLevel.front_eq, h.unread_eq, hl]
        rfl
      simp [drainStep, hfront]
  · intro d f d' h hd
    obtain ⟨hq, head, rest, hlvl, hcase⟩ := Cpp.Book.drainStep_cases hd
    have hstands : f.level.Stands (head :: rest) := ⟨h.head_le, h.unread_eq.trans hlvl⟩
    have hfront := hstands.front
    have hq' : 0 < f.qty := h.qty_eq ▸ hq
    rcases hcase with ⟨hdead, rfl⟩ | ⟨r, hr, htally, hcase⟩
    · -- a stale entry
      have hpop := hstands.pop
      refine ⟨{ f with level := f.level.pop }, ?_,
        { h with head_le := hpop.head_le, unread_eq := hpop.unread_eq }⟩
      simp [drainStep, hq', hfront, h.orders_eq, hdead]
    · -- a fill
      have hr' : f.orders.find? head = some r := h.orders_eq ▸ hr
      have horders : d'.orders = _ := congrArg Cpp.Book.Tally.orders htally
      have hqty : d'.qty = _ := congrArg Cpp.Book.Tally.qty htally
      have hfills : d'.fills = _ := congrArg Cpp.Book.Tally.fills htally
      have hvolume : d'.volume = _ := congrArg Cpp.Book.Tally.volume htally
      have hstep : drainStep f = some
          { level := if r.qty - min f.qty r.qty = 0 then f.level.pop else f.level
            orders := if r.qty - min f.qty r.qty = 0 then f.orders.erase head
              else f.orders.insert head { r with qty := r.qty - min f.qty r.qty }
            qty := f.qty - min f.qty r.qty
            fills := f.fills + 1
            volume := f.volume + UInt64.ofInt (min f.qty r.qty) } := by
        simp only [drainStep, hq', if_true, hfront, hr', OrdMap.erase_insert]
      refine ⟨_, hstep, ?_⟩
      simp only [Cpp.Book.Tally.fill, Cpp.Book.Drain.tally] at horders hqty hfills hvolume
      rw [h.qty_eq, h.orders_eq, h.fills_eq, h.volume_eq]
      have hfill := hstands.fill (hcase.imp_right fun hmaker => ⟨hmaker.1, hmaker.2.2.trans hlvl⟩)
      exact ⟨hfill.head_le, hfill.unread_eq, horders.symm, hqty.symm, hfills.symm, hvolume.symm⟩

/-! ## The next occupied level -/

@[simp] theorem mem_range {lo hi p : ℤ} : p ∈ range lo hi ↔ lo ≤ p ∧ p < hi := by
  simp only [range, List.mem_map, List.mem_range]
  constructor
  · rintro ⟨i, hi, rfl⟩
    omega
  · rintro ⟨h0, h1⟩
    exact ⟨(p - lo).toNat, by omega, by omega⟩

theorem range_sorted (lo hi : ℤ) : (range lo hi).Pairwise fun p q => p < q := by
  rw [range, List.pairwise_map]
  exact List.pairwise_lt_range.imp fun h => by omega

/-- **The search along a list of prices** ends at the first one whose level is occupied, if
there is one. -/
theorem findM?_occupied {ladder : List FlatLevel} (hlen : ladder.length = ladderLen) {l : List ℤ}
    (hl : ∀ p ∈ l, ladderBase ≤ p ∧ p < ladderBase + ladderLen) :
    (∃ pre q post, l = pre ++ q :: post ∧ l.findM? (occupied ladder) = some (some q) ∧
        (∀ p ∈ pre, ∀ lvl, levelAt ladder p = some lvl → lvl.empty = true) ∧
        ∀ lvl, levelAt ladder q = some lvl → lvl.empty = false) ∨
      l.findM? (occupied ladder) = some none ∧
        ∀ p ∈ l, ∀ lvl, levelAt ladder p = some lvl → lvl.empty = true := by
  induction l with
  | nil => exact Or.inr ⟨rfl, by simp⟩
  | cons p l ih =>
    obtain ⟨h0, h1⟩ := hl p List.mem_cons_self
    obtain ⟨lvl, hlvl⟩ := levelAt_eq_some hlen h0 h1
    have hocc : occupied ladder p = some (!lvl.empty) := by
      rw [levelAt] at hlvl
      simp only [occupied, Option.bind_eq_bind, hlvl, Option.bind_some]
    have hp : ∀ lvl', levelAt ladder p = some lvl' → lvl' = lvl := fun lvl' hlvl' =>
      Option.some.inj (hlvl'.symm.trans hlvl)
    cases he : lvl.empty with
    | false =>
      refine Or.inl ⟨[], p, l, rfl, ?_, by simp, fun lvl' hlvl' => hp lvl' hlvl' ▸ he⟩
      simp [List.findM?, hocc, he]
    | true =>
      have hnext : (p :: l).findM? (occupied ladder) = l.findM? (occupied ladder) := by
        simp [List.findM?, hocc, he]
      rw [hnext]
      rcases ih fun q hq => hl q (List.mem_cons_of_mem _ hq) with
        ⟨pre, q, post, rfl, hfound, hpre, hq⟩ | ⟨hfound, hall⟩
      · refine Or.inl ⟨p :: pre, q, post, rfl, hfound, ?_, hq⟩
        rintro p' (_ | ⟨_, hp'⟩) lvl' hlvl'
        · exact hp lvl' hlvl' ▸ he
        · exact hpre p' hp' lvl' hlvl'
      · refine Or.inr ⟨hfound, ?_⟩
        rintro p' (_ | ⟨_, hp'⟩) lvl' hlvl'
        · exact hp lvl' hlvl' ▸ he
        · exact hall p' hp' lvl' hlvl'

/-- What precedes an element of a strictly sorted list. -/
theorem mem_pre_of_sorted {R : ℤ → ℤ → Prop} (hasymm : ∀ p q, R p q → ¬ R q p) {pre post : List ℤ}
    {p q : ℤ} (hl : (pre ++ q :: post).Pairwise R) (hp : p ∈ pre ++ q :: post) (hR : R p q) :
    p ∈ pre := by
  rcases List.mem_append.mp hp with hp | hp
  · exact hp
  · have hpost := List.pairwise_cons.mp (List.pairwise_append.mp hl).2.1
    rcases List.mem_cons.mp hp with rfl | hp
    · exact absurd hR (hasymm p p hR)
    · exact absurd hR (hasymm q p (hpost.1 p hp))

/-- **The next ask** is the best pointer once the best level is gone. -/
theorem nextAsk_spec {asks : List FlatLevel} {m : Levels} (h : LadderHolds asks m)
    (hm : m.Nonempty) {best : ℤ} (h0 : ladderBase ≤ best)
    (hbound : ∀ p q, m.find? p = some q → Cpp.Book.better Cpp.sideBid best p) :
    ∃ p, nextAsk asks best = some p ∧ IsBest Cpp.sideBid p m := by
  have hon : ∀ p ∈ range (best + 1) (ladderBase + ladderLen),
      ladderBase ≤ p ∧ p < ladderBase + ladderLen := by
    intro p hp
    have := mem_range.mp hp
    omega
  have hsorted := range_sorted (best + 1) (ladderBase + ladderLen)
  rcases findM?_occupied h.length_eq hon with
    ⟨pre, q, post, hl, hfound, hpre, hq⟩ | ⟨hfound, hall⟩
  · have hmem : q ∈ range (best + 1) (ladderBase + ladderLen) := hl ▸ by simp
    refine ⟨q, by simp [nextAsk, hfound],
      IsBest.of_scan h hm hbound (fun p h0' h1' hb hb' => ?_) ?_⟩
    · simp only [Cpp.Book.better, if_true] at hb hb'
      refine hpre p (mem_pre_of_sorted (fun p q hpq => not_lt.mpr hpq.le) (hl ▸ hsorted) ?_ hb')
      rw [← hl, mem_range]
      omega
    · exact Or.inr ⟨(hon q hmem).1, (hon q hmem).2, hq⟩
  · refine ⟨int64Max, by simp [nextAsk, hfound], ?_⟩
    refine IsBest.of_scan h hm hbound (fun p h0' h1' hb _ => hall p ?_) (Or.inl rfl)
    simp only [Cpp.Book.better, if_true] at hb
    rw [mem_range]
    omega

/-- **The next bid**, likewise. -/
theorem nextBid_spec {bids : List FlatLevel} {m : Levels} (h : LadderHolds bids m)
    (hm : m.Nonempty) {best : ℤ} (h1 : best < ladderBase + ladderLen)
    (hbound : ∀ p q, m.find? p = some q → Cpp.Book.better sideAsk best p) :
    ∃ p, nextBid bids best = some p ∧ IsBest sideAsk p m := by
  have hon : ∀ p ∈ (range ladderBase best).reverse,
      ladderBase ≤ p ∧ p < ladderBase + ladderLen := by
    intro p hp
    have := mem_range.mp (List.mem_reverse.mp hp)
    omega
  have hsorted : (range ladderBase best).reverse.Pairwise fun p q => q < p := by
    rw [List.pairwise_reverse]
    exact range_sorted ladderBase best
  rcases findM?_occupied h.length_eq hon with
    ⟨pre, q, post, hl, hfound, hpre, hq⟩ | ⟨hfound, hall⟩
  · have hmem : q ∈ (range ladderBase best).reverse := hl ▸ by simp
    refine ⟨q, by simp [nextBid, hfound],
      IsBest.of_scan h hm hbound (fun p h0' h1' hb hb' => ?_) ?_⟩
    · simp only [Cpp.Book.better, Cpp.sideAsk_ne_sideBid, if_false] at hb hb'
      refine hpre p (mem_pre_of_sorted (fun p q hpq => not_lt.mpr hpq.le) (hl ▸ hsorted) ?_ hb')
      rw [← hl, List.mem_reverse, mem_range]
      omega
    · exact Or.inr ⟨(hon q hmem).1, (hon q hmem).2, hq⟩
  · refine ⟨-1, by simp [nextBid, hfound], ?_⟩
    refine IsBest.of_scan h hm hbound (fun p h0' h1' hb _ => hall p ?_) (Or.inl rfl)
    simp only [Cpp.Book.better, Cpp.sideAsk_ne_sideBid, if_false] at hb
    rw [List.mem_reverse, mem_range]
    omega

/-! ## The outer loop -/

/-- The tuned book `t` represents the book `b`. -/
structure Holds (t : TunedBook) (b : Cpp.Book) : Prop where
  bids : SideHolds sideAsk t.bids t.bestBid b.bids
  asks : SideHolds Cpp.sideBid t.asks t.bestAsk b.asks
  orders_eq : t.orders = b.orders
  fills_eq : t.fills = b.fills
  volume_eq : t.volume = b.volume

theorem Holds.opposite {t : TunedBook} {b : Cpp.Book} (h : Holds t b) (side : UInt8) :
    SideHolds side (t.opposite side) (t.best side) (b.opposite side) := by
  rw [TunedBook.opposite, best, Cpp.Book.opposite]
  by_cases hs : side = Cpp.sideBid
  · simp only [sideBid_eq, hs, if_true]
    exact h.asks
  · simp only [sideBid_eq, hs, if_false]
    exact h.bids.congr (by simp [hs, Cpp.sideAsk_ne_sideBid])

/-- Once the best level is written back, the best pointer is on it, or has moved on. -/
theorem span_of_put {side : UInt8} {m : Levels} {p : ℤ} {lvl : List UInt64}
    {l : List (ℤ × List UInt64)} (hl : Cpp.Book.bestFirst side m = (p, lvl) :: l)
    (h0 : ladderBase ≤ p) (h1 : p < ladderBase + ladderLen) {lvl' : List UInt64} {best : ℤ}
    (hbest : IsBest side best (Levels.put m p lvl')) :
    best = p ∧ lvl' ≠ [] ∨ Cpp.TunedBook.span side best < Cpp.TunedBook.span side p := by
  rcases hbest.attained with ⟨q, hq⟩ | ⟨hno, -⟩
  · refine (Cpp.TunedBook.eq_or_better_of_put hl lvl' hq).imp_right ?_
    intro hb
    rw [Cpp.Book.better] at hb
    simp only [Cpp.TunedBook.span]
    split at hb <;> rename_i hs
    · rw [if_pos hs, if_pos hs]
      omega
    · rw [if_neg hs, if_neg hs]
      omega
  · refine Or.inr ?_
    rw [hno, Cpp.TunedBook.span, Cpp.TunedBook.span, noBest]
    simp only [ladderBase, ladderLen, int64Max] at *
    split <;> omega

/-- **Settling the best level** after the inner loop. -/
theorem settle_spec {t : TunedBook} {b : Cpp.Book} (h : Holds t b) (hwf : b.WellFormed)
    {side : UInt8} {p : ℤ} {lvl : List UInt64} {l : List (ℤ × List UInt64)}
    (hl : Cpp.Book.bestFirst side (b.opposite side) = (p, lvl) :: l) {d : Cpp.Book.Drain}
    {f : Drain} (hd : DrainHolds d f) :
    ∃ t', t.settle side p f = some t' ∧ Holds t' (b.writeBack side p d) := by
  have hopp := h.opposite side
  have hp : (b.opposite side).find? p = some lvl :=
    Cpp.Book.mem_bestFirst.mp (hl ▸ List.mem_cons_self)
  have hbest : t.best side = p := hopp.best.eq_of_bestFirst hl
  obtain ⟨h0, h1⟩ := hopp.ladder.on_ladder hp
  have hnonempty := hwf.opposite_nonempty side
  rw [settle]
  cases he : f.level.empty with
  | true =>
    have hnil : d.lvl = [] := hd.unread_eq ▸ (FlatLevel.empty_iff hd.head_le).mp he
    have hput := hopp.ladder.put h0 h1 (FlatLevel.clean_reset f.level)
    rw [FlatLevel.unread_reset] at hput
    have hbound : ∀ p' q, (Levels.put (b.opposite side) p []).find? p' = some q →
        Cpp.Book.better side p p' := fun p' q hp' =>
      (Cpp.TunedBook.eq_or_better_of_put hl [] hp').resolve_left fun h => h.2 rfl
    by_cases hs : side = Cpp.sideBid
    · subst hs
      simp only [TunedBook.opposite, Cpp.Book.opposite, sideBid_eq, if_true]
        at hput hbound hnonempty
      obtain ⟨q, hq, hisBest⟩ := nextAsk_spec hput (hnonempty.put p []) h0 hbound
      simp only [writeBack, sideBid_eq, if_true, hq, Option.bind_eq_bind, Option.bind_some]
      refine ⟨_, rfl, ?_⟩
      simp only [Cpp.Book.writeBack, if_true, hnil]
      exact ⟨h.bids, ⟨hput, hisBest⟩, hd.orders_eq, hd.fills_eq, hd.volume_eq⟩
    · simp only [Cpp.Book.opposite, hs, if_false] at hnonempty
      simp only [TunedBook.opposite, Cpp.Book.opposite, sideBid_eq, hs, if_false] at hput hbound
      have hbound' : ∀ p' q, (Levels.put b.bids p []).find? p' = some q →
          Cpp.Book.better sideAsk p p' := by
        intro p' q hp'
        have hb := hbound p' q hp'
        rw [Cpp.Book.better, if_neg hs] at hb
        rwa [Cpp.Book.better, if_neg Cpp.sideAsk_ne_sideBid]
      obtain ⟨q, hq, hisBest⟩ := nextBid_spec hput (hnonempty.put p []) h1 hbound'
      simp only [writeBack, sideBid_eq, hs, if_true, if_false, hq, Option.bind_eq_bind,
        Option.bind_some]
      refine ⟨_, rfl, ?_⟩
      simp only [Cpp.Book.writeBack, hs, if_false, hnil]
      exact ⟨⟨hput, hisBest⟩, h.asks, hd.orders_eq, hd.fills_eq, hd.volume_eq⟩
  | false =>
    have hput := hopp.ladder.put h0 h1 (FlatLevel.clean_of_not_empty hd.head_le he)
    have hne : f.level.unread ≠ [] := fun hnil => by
      rw [(FlatLevel.empty_iff hd.head_le).mpr hnil] at he
      simp at he
    have hisBest := IsBest.put hl hne
    rw [hd.unread_eq] at hput hisBest
    refine ⟨_, rfl, ?_⟩
    by_cases hs : side = Cpp.sideBid
    · subst hs
      simp only [TunedBook.opposite, Cpp.Book.opposite, best, sideBid_eq, if_true]
        at hput hisBest hbest
      simp only [writeBack, Cpp.Book.writeBack, sideBid_eq, if_true]
      exact ⟨h.bids, ⟨hput, hbest ▸ hisBest⟩, hd.orders_eq, hd.fills_eq, hd.volume_eq⟩
    · simp only [best, sideBid_eq, hs, if_false] at hbest
      simp only [TunedBook.opposite, Cpp.Book.opposite, sideBid_eq, hs, if_false] at hput hisBest
      simp only [writeBack, Cpp.Book.writeBack, sideBid_eq, hs, if_false]
      have hbid : IsBest side t.bestBid (b.bids.put p d.lvl) := by
        rw [hbest]
        exact hisBest
      have hside : side = Cpp.sideBid ↔ Cpp.sideAsk = Cpp.sideBid := by
        simp [hs, Cpp.sideAsk_ne_sideBid]
      refine ⟨?_, h.asks, hd.orders_eq, hd.fills_eq, hd.volume_eq⟩
      exact SideHolds.congr hside ⟨hput, hbid⟩

/-- The two outer loops are in the same state. -/
structure SweepHolds (s : Cpp.Book.Sweep) (f : Sweep) : Prop where
  book : Holds f.book s.book
  wellFormed : s.book.WellFormed
  qty_eq : f.qty = s.qty

theorem variant_eq (side : UInt8) (s : Sweep) : Sweep.variant side s =
    Cpp.TunedBook.span side (s.book.best side) + if 0 < s.qty then 1 else 0 := by
  rw [Sweep.variant, Cpp.TunedBook.span, best]
  by_cases hs : side = Cpp.sideBid
  · simp only [sideBid_eq, hs, if_true]
  · simp only [sideBid_eq, hs, if_false]

/-- **The two outer loops go round in step.** -/
theorem sweep_holds (side : UInt8) (price : ℤ) {s : Cpp.Book.Sweep} {f : Sweep}
    (h : SweepHolds s f) :
    ∃ f', sweep side price f = some f' ∧ SweepHolds (Cpp.Book.sweep side price s) f' := by
  refine Loop.tryExec_sim_of_lt (Cpp.Book.sweep_variant side price) SweepHolds ?_ ?_ h
  · -- the book leaves its loop
    intro s f h hs
    have hno : f.qty ≤ 0 ∨ ¬ Cpp.TunedBook.Crossing side price (f.book.best side) := by
      rw [h.qty_eq]
      refine (Cpp.Book.sweepStep_eq_none.mp hs).imp_right ?_
      intro hno hc
      exact (h.book.opposite side).best.not_crossing hno hc
    rw [sweepStep]
    split
    case isFalse => rfl
    case isTrue hq =>
      rw [if_pos]
      by_contra hcon
      simp only [not_or, not_lt, not_le, not_not] at hcon
      refine hno.resolve_left (not_le.mpr hq) ⟨hcon.1, hcon.2.1, ?_⟩
      simpa [Cpp.Book.crosses, sideBid_eq] using hcon.2.2
  · -- the book goes round
    intro s f s' h hs
    obtain ⟨hq, p, lvl, l, hl, hx, rfl⟩ := Cpp.Book.sweepStep_cases hs
    have hopp := h.book.opposite side
    have hbest : f.book.best side = p := hopp.best.eq_of_bestFirst hl
    have hp : (s.book.opposite side).find? p = some lvl :=
      Cpp.Book.mem_bestFirst.mp (hl ▸ List.mem_cons_self)
    obtain ⟨h0, h1⟩ := hopp.ladder.on_ladder hp
    obtain ⟨flat, hflat⟩ := levelAt_eq_some hopp.ladder.length_eq h0 h1
    have hlevel := hopp.ladder.level h0 h1 hflat
    rw [hp] at hlevel
    have hD : DrainHolds (s.drainOf lvl)
        (drain ⟨flat, f.book.orders, f.qty, f.book.fills, f.book.volume⟩) :=
      drain_holds ⟨hlevel.1.1, hlevel.2, h.book.orders_eq, h.qty_eq, h.book.fills_eq,
        h.book.volume_eq⟩
    have hwf : (s.book.writeBack side p (s.drainOf lvl)).WellFormed :=
      Cpp.Book.wellFormed_sweepStep h.wellFormed hs
    generalize hd : drain ⟨flat, f.book.orders, f.qty, f.book.fills, f.book.volume⟩ = d at hD
    obtain ⟨t, ht, hholds⟩ := settle_spec h.book h.wellFormed hl hD
    refine ⟨⟨t, d.qty⟩, ?_, ⟨hholds, hwf, hD.qty_eq⟩, ?_⟩
    · rw [levelAt] at hflat
      have hcross : ¬ (p < ladderBase ∨ p ≥ ladderBase + ladderLen ∨
          ¬ if side = sideBid then p ≤ price else p ≥ price) := by
        simp only [not_or, not_lt, ge_iff_le, not_le, not_not]
        exact ⟨h0, h1, hx⟩
      have hq' : 0 < f.qty := h.qty_eq ▸ hq
      simp only [sweepStep, hq', if_true, hbest, hcross, if_false, hflat, hd, ht,
        Option.bind_eq_bind, Option.bind_some]
    · have hopp' := hholds.opposite side
      rw [Cpp.Book.opposite_writeBack] at hopp'
      rw [variant_eq, variant_eq, hbest, h.qty_eq, if_pos hq]
      simp only [hD.qty_eq]
      rcases span_of_put hl h0 h1 hopp'.best with ⟨heq, hne⟩ | hlt
      · have hdone : (s.drainOf lvl).qty ≤ 0 := (Cpp.Book.drain_exit
          ⟨lvl, s.book.orders, s.qty, s.book.fills, s.book.volume, s.log⟩).resolve_right hne
        rw [heq, if_neg (not_lt.mpr hdone)]
        omega
      · split <;> omega

/-! ## The operations -/

/-- **A residual comes to rest** in both books alike. -/
theorem limit_holds {t : TunedBook} {b : Cpp.Book} (h : Holds t b) (hwf : b.WellFormed)
    (side : UInt8) {price : ℤ} (qty : ℤ) (id : UInt64) (h0 : ladderBase ≤ price)
    (h1 : price < ladderBase + ladderLen) :
    ∃ t', t.limit side price qty id = some t' ∧ Holds t' (b.limitAssign side price qty id) := by
  obtain ⟨f, hf, hR⟩ := sweep_holds side price (s := { book := b, qty }) (f := { book := t, qty })
    ⟨h, hwf, rfl⟩
  rw [limit, Cpp.Book.limitAssign]
  simp only [hf, Option.bind_eq_bind, Option.bind_some, hR.qty_eq]
  split
  case isFalse => exact ⟨f.book, rfl, hR.book⟩
  case isTrue hq =>
    have hbook := hR.book
    by_cases hs : side = Cpp.sideBid
    · obtain ⟨lvl, hlvl⟩ := levelAt_eq_some hbook.bids.ladder.length_eq h0 h1
      have hpush := hbook.bids.ladder.pushBack h0 h1 hlvl id
      have hmax := hbook.bids.best.max_pushBack h0 id
      rw [levelAt] at hlvl
      simp only [sideBid_eq, hs, if_true, hlvl, Option.bind_some, Cpp.Book.rest]
      subst hs
      exact ⟨_, rfl, ⟨hpush, hmax⟩, hbook.asks, by rw [hbook.orders_eq], hbook.fills_eq,
        hbook.volume_eq⟩
    · obtain ⟨lvl, hlvl⟩ := levelAt_eq_some hbook.asks.ladder.length_eq h0 h1
      have hpush := hbook.asks.ladder.pushBack h0 h1 hlvl id
      have hmin := hbook.asks.best.min_pushBack h1 id
      rw [levelAt] at hlvl
      simp only [sideBid_eq, hs, if_false, hlvl, Option.bind_some, Cpp.Book.rest]
      exact ⟨_, rfl, hbook.bids, ⟨hpush, hmin⟩, by rw [hbook.orders_eq], hbook.fills_eq,
        hbook.volume_eq⟩

theorem cancel_holds {t : TunedBook} {b : Cpp.Book} (h : Holds t b) (id : UInt64) :
    Holds (t.cancel id) (b.cancel id) :=
  ⟨h.bids, h.asks, by rw [cancel, Cpp.Book.cancel, h.orders_eq], h.fills_eq, h.volume_eq⟩

/-- **The checksums agree**, and computing it does not panic. -/
theorem checksum_holds {t : TunedBook} {b : Cpp.Book} (h : Holds t b) :
    t.checksum = some b.checksum := by
  have hside : ∀ {ladder m}, LadderHolds ladder m → ∀ acc,
      ladder.foldlM (foldLevel t.orders) acc = some (Cpp.Book.foldSide b.orders acc m) := by
    intro ladder m hladder acc
    rw [Cpp.Book.foldSide, hladder.foldl_entries (Cpp.Book.foldLevel b.orders) (fun _ => rfl)]
    refine Cpp.TunedBook.foldlM_eq_some (fun lvl hlvl acc => ?_) acc
    rw [foldLevel, if_pos (hladder.level_of_mem hlvl).1.1, h.orders_eq]
    rfl
  rw [checksum, Cpp.Book.checksum, hside h.bids.ladder]
  exact hside h.asks.ladder _

/-! ## Runs -/

/-- The limit price of the operation is on the ladder. -/
def OnLadder : Cpp.Op → Prop
  | .limit _ price _ _ => ladderBase ≤ price ∧ price < ladderBase + ladderLen
  | .cancel _ => True

instance : (op : Cpp.Op) → Decidable (OnLadder op)
  | .limit _ price _ _ =>
    inferInstanceAs (Decidable (ladderBase ≤ price ∧ price < ladderBase + ladderLen))
  | .cancel _ => isTrue trivial

theorem new_holds : Holds {} {} where
  bids := ⟨Cpp.TunedBook.ladderHolds_new, Cpp.TunedBook.isBest_new sideAsk⟩
  asks := ⟨Cpp.TunedBook.ladderHolds_new, Cpp.TunedBook.isBest_new Cpp.sideBid⟩
  orders_eq := rfl
  fills_eq := rfl
  volume_eq := rfl

theorem apply_holds {t : TunedBook} {b : Cpp.Book} (h : Holds t b) (hwf : b.WellFormed)
    {op : Cpp.Op} (hop : OnLadder op) :
    ∃ t', t.apply op = some t' ∧ Holds t' (b.applyAssign op) := by
  cases op with
  | limit side price qty id => exact limit_holds h hwf side qty id hop.1 hop.2
  | cancel id => exact ⟨_, rfl, cancel_holds h id⟩

/-- **A run on the ladder** does not panic, and represents the book whose live map
overwrites, whatever ids it uses. -/
theorem run_holds {ops : List Cpp.Op} (hops : ∀ op ∈ ops, OnLadder op) :
    ∃ t, run ops = some t ∧ Holds t (ops.foldl Cpp.Book.applyAssign {}) := by
  have hfold : ∀ (ops : List Cpp.Op), (∀ op ∈ ops, OnLadder op) → ∀ t b, Holds t b →
      b.WellFormed →
      ∃ t', ops.foldlM apply t = some t' ∧ Holds t' (ops.foldl Cpp.Book.applyAssign b) := by
    intro ops
    induction ops with
    | nil => exact fun _ t b h _ => ⟨t, rfl, h⟩
    | cons op ops ih =>
      intro hops t b h hwf
      obtain ⟨t₁, ht₁, h₁⟩ := apply_holds h hwf (hops op List.mem_cons_self)
      rw [List.foldlM_cons, ht₁, List.foldl_cons]
      exact ih (fun op' hop' => hops op' (List.mem_cons_of_mem _ hop')) t₁ _ h₁
        (Cpp.Book.wellFormed_applyAssign hwf op)
  exact hfold ops hops {} {} new_holds Cpp.Book.wellFormed_empty

/-- **The two Rust books are observationally equal**: on any operations with prices on the
ladder, with ids reused dead or live, they have the same counters, the same number of live
orders and the same checksum after every prefix. -/
theorem observes {ops : List Cpp.Op} (hops : ∀ op ∈ ops, OnLadder op) {pre : List Cpp.Op}
    (hpre : pre <+: ops) :
    ∃ t, run pre = some t ∧ t.fills = (Book.run pre).fills ∧ t.volume = (Book.run pre).volume ∧
      t.orders.size = (Book.run pre).orders.size ∧ t.checksum = some (Book.run pre).checksum := by
  obtain ⟨t, ht, h⟩ := run_holds fun op hop => hops op (hpre.subset hop)
  rw [Book.run_eq, Book.checksum_ofCpp]
  refine ⟨t, ht, h.fills_eq, h.volume_eq, ?_, checksum_holds h⟩
  rw [h.orders_eq]
  rfl

theorem observes_revived_id :
    ∃ t,
      run [.limit 0 10 5 1, .cancel 1, .limit 1 30 4 1, .limit 0 12 3 1, .limit 1 9 7 2] = some t ∧
      t.fills = (Book.run
        [.limit 0 10 5 1, .cancel 1, .limit 1 30 4 1, .limit 0 12 3 1, .limit 1 9 7 2]).fills ∧
      t.volume = (Book.run
        [.limit 0 10 5 1, .cancel 1, .limit 1 30 4 1, .limit 0 12 3 1, .limit 1 9 7 2]).volume ∧
      t.orders.size = (Book.run
        [.limit 0 10 5 1, .cancel 1, .limit 1 30 4 1, .limit 0 12 3 1,
          .limit 1 9 7 2]).orders.size ∧
      t.checksum = some (Book.run
        [.limit 0 10 5 1, .cancel 1, .limit 1 30 4 1, .limit 0 12 3 1, .limit 1 9 7 2]).checksum :=
  observes (by decide) (List.prefix_refl _)

end TunedBook
end LmaxBench.Rust
