import Mathlib.Data.UInt
import Mathlib.Tactic.Ring
import LmaxBench.Cpp.Book

/-!
# The loops of `Book::limit`

What one round of each loop can do, once and for all: `drainStep_cases` and
`sweepStep_cases`. Everything later about the loops is derived from these two, by
`Loop.exec_induction` or by the two invariant rules at the end:

* `sweep_tally` — for what only concerns the live map, the quantity, the counters and
  the fills: an invariant of single fill events is an invariant of the whole sweep;
* `sweep_invariant` — for what also concerns the levels.

`bestFirst` lists the levels of the opposite side in the order in which the outer loop
takes them, `begin()` upwards for the asks and `prev(end())` downwards for the bids,
so that the two branches of the source are handled as one.
-/

namespace LmaxBench.Cpp

namespace Levels

@[simp] theorem find?_put (m : Levels) (p : ℤ) (lvl : List UInt64) (p' : ℤ) :
    (put m p lvl).find? p' =
      if p' = p then (if lvl = [] then none else some lvl) else m.find? p' := by
  rw [put]
  split
  · simp
  · simp

@[simp] theorem find?_pushBack (m : Levels) (p : ℤ) (id : UInt64) (p' : ℤ) :
    (pushBack m p id).find? p' =
      if p' = p then some ((m.find? p).getD [] ++ [id]) else m.find? p' :=
  OrdMap.find?_alter _ _ _ _

@[simp] theorem put_put (m : Levels) (p : ℤ) (lvl lvl' : List UInt64) :
    put (put m p lvl) p lvl' = put m p lvl' := by
  refine OrdMap.ext_find? ?_
  intro p'
  simp only [find?_put]
  split <;> rfl

theorem put_eq_alter (m : Levels) (p : ℤ) (lvl : List UInt64) :
    put m p lvl = m.alter p fun _ => if lvl = [] then none else some lvl := by
  rw [put]
  split
  · simp [OrdMap.erase]
  · simp [OrdMap.insert]

end Levels

/-- A side other than that of a bid. -/
def sideAsk : UInt8 := 1

theorem sideAsk_ne_sideBid : sideAsk ≠ sideBid := by decide

/-- The side of a taker that meets the levels a residual on `side` rests in. -/
def otherSide (side : UInt8) : UInt8 := if side = sideBid then sideAsk else sideBid

namespace Book

/-! ## One round of the inner loop -/

/-- What one fill event does to the live map, the taker and the counters. -/
structure Tally where
  orders : Orders
  qty : ℤ
  fills : UInt64
  volume : UInt64
  log : List Fill

/-- The state after the order `head` with record `r` was hit. -/
def Tally.fill (t : Tally) (head : UInt64) (r : Resting) : Tally :=
  { orders := if r.qty - min t.qty r.qty = 0 then t.orders.erase head
      else t.orders.insert head { r with qty := r.qty - min t.qty r.qty }
    qty := t.qty - min t.qty r.qty
    fills := t.fills + 1
    volume := t.volume + UInt64.ofInt (min t.qty r.qty)
    log := t.log ++ [⟨head, min t.qty r.qty⟩] }

def Drain.tally (s : Drain) : Tally := ⟨s.orders, s.qty, s.fills, s.volume, s.log⟩

def Sweep.tally (s : Sweep) : Tally :=
  ⟨s.book.orders, s.qty, s.book.fills, s.book.volume, s.log⟩

/-- **One round of the inner loop**: a stale entry is popped, or the head is hit; a
head that is exhausted is popped as well, and one that is not exhausts the taker. -/
theorem drainStep_cases {s s' : Drain} (h : drainStep s = some s') :
    0 < s.qty ∧ ∃ head rest, s.lvl = head :: rest ∧
      ((s.orders.find? head = none ∧ s' = { s with lvl := rest }) ∨
        ∃ r, s.orders.find? head = some r ∧ s'.tally = s.tally.fill head r ∧
          ((r.qty ≤ s.qty ∧ s'.lvl = rest) ∨ (s.qty < r.qty ∧ s'.qty = 0 ∧ s'.lvl = s.lvl))) := by
  rw [drainStep] at h
  split at h
  case isFalse => simp at h
  case isTrue hq =>
    refine ⟨hq, ?_⟩
    split at h
    case h_1 => simp at h
    case h_2 head rest hlvl =>
      refine ⟨head, rest, hlvl, ?_⟩
      split at h
      case h_1 hdead => exact Or.inl ⟨hdead, (Option.some.inj h).symm⟩
      case h_2 r hr =>
        have hs' := (Option.some.inj h).symm
        subst hs'
        refine Or.inr ⟨r, hr, rfl, ?_⟩
        rcases le_or_gt r.qty s.qty with hle | hlt
        · exact Or.inl ⟨hle, by simp [min_eq_right hle]⟩
        · have hne : r.qty - s.qty ≠ 0 := by omega
          exact Or.inr ⟨hlt, by simp [min_eq_left hlt.le], by simp [min_eq_left hlt.le, hne, hlvl]⟩

theorem drainStep_of_dead {d : Drain} (hq : 0 < d.qty) {head : UInt64} {rest : List UInt64}
    (hlvl : d.lvl = head :: rest) (hdead : d.orders.find? head = none) :
    drainStep d = some { d with lvl := rest } := by
  rw [drainStep, if_pos hq, hlvl]
  simp only [hdead]

theorem drainStep_of_live {d : Drain} (hq : 0 < d.qty) {head : UInt64} {rest : List UInt64}
    (hlvl : d.lvl = head :: rest) {r : Resting} (hr : d.orders.find? head = some r) :
    drainStep d = some
      { lvl := if r.qty - min d.qty r.qty = 0 then rest else head :: rest
        orders := if r.qty - min d.qty r.qty = 0 then d.orders.erase head
          else d.orders.insert head { r with qty := r.qty - min d.qty r.qty }
        qty := d.qty - min d.qty r.qty
        fills := d.fills + 1
        volume := d.volume + UInt64.ofInt (min d.qty r.qty)
        log := d.log ++ [⟨head, min d.qty r.qty⟩] } := by
  rw [drainStep, if_pos hq, hlvl]
  simp only [hr]

@[simp] theorem drainStep_eq_none {s : Drain} : drainStep s = none ↔ s.qty ≤ 0 ∨ s.lvl = [] := by
  rw [drainStep]
  rcases lt_or_ge 0 s.qty with hq | hq
  · rcases hl : s.lvl with _ | ⟨head, rest⟩
    · simp [hq]
    · have hq' : ¬ s.qty ≤ 0 := by omega
      simp only [hq, if_true, hq', false_or, reduceCtorEq, iff_false]
      cases s.orders.find? head <;> simp
  · simp [hq, not_lt.mpr hq]

theorem drain_variant : Loop.Variant drainStep Drain.variant := by
  intro s s' h
  obtain ⟨hq, head, rest, hlvl, hcase⟩ := drainStep_cases h
  have hs : s.variant = rest.length + 2 := by simp [Drain.variant, hq, hlvl]
  rcases hcase with ⟨-, rfl⟩ | ⟨r, -, htally, ⟨-, hlvl'⟩ | ⟨-, hq', hlvl'⟩⟩
  · rw [hs]
    simp [Drain.variant, hq]
  · rw [hs, Drain.variant, hlvl']
    split <;> omega
  · rw [hs, Drain.variant, hlvl', hq', hlvl]
    simp

theorem drain_of_step {d d' : Drain} (h : drainStep d = some d') : drain d = drain d' :=
  Loop.exec_of_some drain_variant h

@[simp] theorem drain_of_exit {s : Drain} (h : s.qty ≤ 0 ∨ s.lvl = []) : drain s = s :=
  Loop.exec_of_none (drainStep_eq_none.mpr h)

/-- The inner loop ends with the taker exhausted or the level empty. -/
theorem drain_exit (s : Drain) : (drain s).qty ≤ 0 ∨ (drain s).lvl = [] :=
  drainStep_eq_none.mp (Loop.step_exec drain_variant s)

/-- What every round of the inner loop preserves holds when it is left. -/
theorem drain_invariant (P : Drain → Prop) (hP : ∀ s s', P s → drainStep s = some s' → P s')
    {s : Drain} (hs : P s) : P (drain s) :=
  Loop.exec_invariant drain_variant P hP hs

/-- The inner loop only pops: the level it leaves is a suffix. -/
theorem drain_suffix (s : Drain) : (drain s).lvl <:+ s.lvl := by
  refine drain_invariant (fun t => t.lvl <:+ s.lvl) ?_ (List.suffix_refl _)
  intro t t' ht h
  obtain ⟨-, head, rest, hlvl, ⟨-, rfl⟩ | ⟨r, -, -, ⟨-, hlvl'⟩ | ⟨-, -, hlvl'⟩⟩⟩ :=
    drainStep_cases h
  · exact (List.suffix_cons head rest).trans (hlvl ▸ ht)
  · exact hlvl' ▸ (List.suffix_cons head rest).trans (hlvl ▸ ht)
  · exact hlvl' ▸ ht

/-! ## The side a taker matches against -/

/-- The levels a residual of a taker on `side` rests in. -/
def own (b : Book) (side : UInt8) : Levels := if side = sideBid then b.bids else b.asks

/-- The test of a level price against the taker's limit price. -/
def crosses (side : UInt8) (price p : ℤ) : Prop := if side = sideBid then p ≤ price else price ≤ p

instance (side : UInt8) (price p : ℤ) : Decidable (crosses side price p) :=
  inferInstanceAs (Decidable (if side = sideBid then p ≤ price else price ≤ p))

/-- The levels in the order in which a taker on `side` takes them. -/
def bestFirst (side : UInt8) (m : Levels) : List (ℤ × List UInt64) :=
  if side = sideBid then m.entries else m.entries.reverse

/-- `p` is strictly better than `p'` for a taker on `side`. -/
def better (side : UInt8) (p p' : ℤ) : Prop := if side = sideBid then p < p' else p' < p

instance (side : UInt8) (p p' : ℤ) : Decidable (better side p p') :=
  inferInstanceAs (Decidable (if side = sideBid then p < p' else p' < p))

@[simp] theorem mem_bestFirst {side : UInt8} {m : Levels} {p : ℤ} {lvl : List UInt64} :
    (p, lvl) ∈ bestFirst side m ↔ m.find? p = some lvl := by
  rw [bestFirst]
  split
  · exact OrdMap.mem_entries
  · rw [List.mem_reverse]
    exact OrdMap.mem_entries

theorem bestFirst_sorted (side : UInt8) (m : Levels) :
    (bestFirst side m).Pairwise fun a b => better side a.1 b.1 := by
  simp only [bestFirst, better]
  split
  · exact m.sorted
  · rw [List.pairwise_reverse]
    exact m.sorted

@[simp] theorem length_bestFirst (side : UInt8) (m : Levels) :
    (bestFirst side m).length = m.size := by
  rw [bestFirst]
  split
  · rfl
  · exact List.length_reverse

/-- Writing back the best level replaces or drops the head of the list. -/
theorem bestFirst_put {side : UInt8} {m : Levels} {p : ℤ} {lvl : List UInt64}
    {l : List (ℤ × List UInt64)} (h : bestFirst side m = (p, lvl) :: l) (lvl' : List UInt64) :
    bestFirst side (Levels.put m p lvl') = if lvl' = [] then l else (p, lvl') :: l := by
  rw [Levels.put_eq_alter]
  rw [bestFirst] at h ⊢
  split at h
  case isTrue hs =>
    rw [if_pos hs, OrdMap.entries_alter_head h]
    split <;> simp
  case isFalse hs =>
    have hrev : m.entries = l.reverse ++ [(p, lvl)] := by
      have := congrArg List.reverse h
      simpa using this
    rw [if_neg hs, OrdMap.entries_alter_last hrev]
    split <;> simp

theorem bestCrossing_eq (b : Book) (side : UInt8) (price : ℤ) :
    b.bestCrossing side price =
      (bestFirst side (b.opposite side)).head?.filter fun e => crosses side price e.1 := by
  simp only [bestCrossing, bestFirst, opposite, crosses]
  by_cases hs : side = sideBid
  · simp only [hs, if_true, OrdMap.first?]
    cases b.asks.entries with
    | nil => rfl
    | cons e l =>
      by_cases h : e.1 ≤ price
      · simp [Option.filter, h]
      · simp [Option.filter, h, not_le.mp h]
  · simp only [hs, if_false, OrdMap.last?, List.head?_reverse]
    cases b.bids.entries.getLast? with
    | none => rfl
    | some e =>
      by_cases h : price ≤ e.1
      · simp [Option.filter, h, not_lt.mpr h]
      · simp [Option.filter, h, not_le.mp h]

theorem bestCrossing_eq_some {b : Book} {side : UInt8} {price p : ℤ} {lvl : List UInt64} :
    b.bestCrossing side price = some (p, lvl) ↔
      crosses side price p ∧ ∃ l, bestFirst side (b.opposite side) = (p, lvl) :: l := by
  rw [bestCrossing_eq]
  cases bestFirst side (b.opposite side) with
  | nil => simp
  | cons e l =>
    simp only [List.head?_cons, Option.filter_eq_some_iff, Option.some.injEq, decide_eq_true_eq,
      List.cons.injEq, exists_and_left, exists_eq', and_true]
    constructor
    · rintro ⟨rfl, h⟩
      exact ⟨h, rfl⟩
    · rintro ⟨h, rfl⟩
      exact ⟨rfl, h⟩

/-- Past the first level that does not cross, no level crosses. -/
theorem not_crosses_of_better {side : UInt8} {price p p' : ℤ} (h : ¬ crosses side price p)
    (hb : better side p p') : ¬ crosses side price p' := by
  simp only [crosses, better] at *
  split at h <;> simp_all <;> omega

theorem bestCrossing_eq_none {b : Book} {side : UInt8} {price : ℤ} :
    b.bestCrossing side price = none ↔
      ∀ p lvl, (b.opposite side).find? p = some lvl → ¬ crosses side price p := by
  rw [bestCrossing_eq]
  have hsorted := bestFirst_sorted side (b.opposite side)
  constructor
  · intro h p lvl hp
    have hmem : (p, lvl) ∈ bestFirst side (b.opposite side) := mem_bestFirst.mpr hp
    cases hL : bestFirst side (b.opposite side) with
    | nil => simp [hL] at hmem
    | cons e l =>
      rw [hL] at h hmem hsorted
      have he : ¬ crosses side price e.1 := by simpa using h
      rcases List.mem_cons.mp hmem with heq | hmem
      · rw [← heq] at he
        exact he
      · exact not_crosses_of_better he ((List.pairwise_cons.mp hsorted).1 _ hmem)
  · intro h
    cases hL : bestFirst side (b.opposite side) with
    | nil => rfl
    | cons e l =>
      have he : (e.1, e.2) ∈ bestFirst side (b.opposite side) := hL ▸ List.mem_cons_self
      have hnot := h e.1 e.2 (mem_bestFirst.mp he)
      simpa using hnot

@[simp] theorem opposite_writeBack (b : Book) (side : UInt8) (p : ℤ) (d : Drain) :
    (b.writeBack side p d).opposite side = Levels.put (b.opposite side) p d.lvl := by
  simp only [opposite, writeBack]
  split <;> rfl

@[simp] theorem own_writeBack (b : Book) (side : UInt8) (p : ℤ) (d : Drain) :
    (b.writeBack side p d).own side = b.own side := by
  simp only [own, writeBack]
  split <;> rfl

/-! ## One round of the outer loop -/

/-- The inner loop as the outer loop starts it on the level `lvl`. -/
def Sweep.drainOf (s : Sweep) (lvl : List UInt64) : Drain :=
  drain ⟨lvl, s.book.orders, s.qty, s.book.fills, s.book.volume, s.log⟩

/-- **One round of the outer loop**: the best opposite level crosses, and is matched. -/
theorem sweepStep_cases {side : UInt8} {price : ℤ} {s s' : Sweep}
    (h : sweepStep side price s = some s') :
    0 < s.qty ∧ ∃ p lvl l, bestFirst side (s.book.opposite side) = (p, lvl) :: l ∧
      crosses side price p ∧
      s' = { book := s.book.writeBack side p (s.drainOf lvl)
             qty := (s.drainOf lvl).qty, log := (s.drainOf lvl).log } := by
  rw [sweepStep] at h
  split at h
  case isFalse => simp at h
  case isTrue hq =>
    split at h
    case h_1 => simp at h
    case h_2 p lvl hbest =>
      obtain ⟨hcross, l, hl⟩ := bestCrossing_eq_some.mp hbest
      exact ⟨hq, p, lvl, l, hl, hcross, (Option.some.inj h).symm⟩

/-- A round on the level at `p`, computed. -/
theorem sweepStep_of_some {side : UInt8} {price : ℤ} {s : Sweep} (hq : 0 < s.qty) {p : ℤ}
    {lvl : List UInt64} (hbest : s.book.bestCrossing side price = some (p, lvl)) :
    sweepStep side price s = some
      { book := s.book.writeBack side p (s.drainOf lvl)
        qty := (s.drainOf lvl).qty, log := (s.drainOf lvl).log } := by
  rw [sweepStep, if_pos hq, hbest]
  rfl

@[simp] theorem sweepStep_eq_none {side : UInt8} {price : ℤ} {s : Sweep} :
    sweepStep side price s = none ↔ s.qty ≤ 0 ∨ s.book.bestCrossing side price = none := by
  rw [sweepStep]
  rcases lt_or_ge 0 s.qty with hq | hq
  · have hq' : ¬ s.qty ≤ 0 := by omega
    cases hb : s.book.bestCrossing side price <;> simp [hq]
  · simp [hq, not_lt.mpr hq]

theorem sweep_variant (side : UInt8) (price : ℤ) :
    Loop.Variant (sweepStep side price) (Sweep.variant side) := by
  intro s s' h
  obtain ⟨hq, p, lvl, l, hl, -, rfl⟩ := sweepStep_cases h
  have hsize : (s.book.opposite side).size = l.length + 1 := by
    rw [← length_bestFirst side, hl, List.length_cons]
  have hsize' := length_bestFirst side (Levels.put (s.book.opposite side) p (s.drainOf lvl).lvl)
  rw [bestFirst_put hl] at hsize'
  simp only [Sweep.variant, opposite_writeBack, ← hsize', hsize, hq, if_true]
  rcases drain_exit ⟨lvl, s.book.orders, s.qty, s.book.fills, s.book.volume, s.log⟩ with hd | hd
  · have hd' : ¬ 0 < (s.drainOf lvl).qty := not_lt.mpr hd
    rw [if_neg hd']
    split
    · omega
    · simp
  · have hd' : (s.drainOf lvl).lvl = [] := hd
    rw [if_pos hd']
    split <;> omega

/-- The outer loop ends with the taker exhausted or no opposite level crossing. -/
theorem sweep_exit (side : UInt8) (price : ℤ) (s : Sweep) :
    (sweep side price s).qty ≤ 0 ∨ (sweep side price s).book.bestCrossing side price = none :=
  sweepStep_eq_none.mp (Loop.step_exec (sweep_variant side price) s)

theorem sweep_of_step {side : UInt8} {price : ℤ} {s s' : Sweep}
    (h : sweepStep side price s = some s') : sweep side price s = sweep side price s' :=
  Loop.exec_of_some (sweep_variant side price) h

@[simp] theorem sweep_of_exit {side : UInt8} {price : ℤ} {s : Sweep}
    (h : s.qty ≤ 0 ∨ s.book.bestCrossing side price = none) : sweep side price s = s :=
  Loop.exec_of_none (sweepStep_eq_none.mpr h)

/-! ## Invariants of the sweep -/

/-- What every round of the outer loop preserves holds when it is left. -/
theorem sweep_invariant {side : UInt8} {price : ℤ} (P : Sweep → Prop)
    (hP : ∀ s s', P s → sweepStep side price s = some s' → P s') {s : Sweep} (hs : P s) :
    P (sweep side price s) :=
  Loop.exec_invariant (sweep_variant side price) P hP hs

/-- **Invariants of fill events.** What every fill of a positive quantity preserves
holds after the sweep. -/
theorem sweep_tally (P : Tally → Prop)
    (hP : ∀ t head r, P t → 0 < t.qty → t.orders.find? head = some r → P (t.fill head r))
    {side : UInt8} {price : ℤ} {s : Sweep} (hs : P s.tally) : P (sweep side price s).tally := by
  refine sweep_invariant (fun s => P s.tally) ?_ hs
  intro s s' hs h
  obtain ⟨-, p, lvl, l, -, -, rfl⟩ := sweepStep_cases h
  refine drain_invariant (fun d => P d.tally) ?_ (s := ⟨lvl, _, _, _, _, _⟩) hs
  intro d d' hd h
  obtain ⟨hq, head, rest, -, ⟨-, rfl⟩ | ⟨r, hr, htally, -⟩⟩ := drainStep_cases h
  · exact hd
  · rw [htally]
    exact hP _ _ _ hd hq hr

/-- The counters go with the log. -/
theorem sweep_counters (side : UInt8) (price qty : ℤ) (b : Book) :
    (sweep side price { book := b, qty }).book.fills =
        b.fills + UInt64.ofNat (sweep side price { book := b, qty }).log.length ∧
      (sweep side price { book := b, qty }).book.volume =
        b.volume + UInt64.ofInt ((sweep side price { book := b, qty }).log.map Fill.qty).sum := by
  refine sweep_tally (fun t => t.fills = b.fills + UInt64.ofNat t.log.length ∧
    t.volume = b.volume + UInt64.ofInt (t.log.map Fill.qty).sum) ?_ ?_
  · intro t head r ht _ _
    rcases ht with ⟨hfills, hvolume⟩
    refine ⟨?_, ?_⟩
    · show t.fills + 1 = _
      rw [hfills, Tally.fill, List.length_append, UInt64.ofNat_add, ← add_assoc]
      rfl
    · show t.volume + UInt64.ofInt (min t.qty r.qty) = _
      rw [hvolume, Tally.fill, List.map_append, List.sum_append, UInt64.ofInt_add, ← add_assoc]
      simp
  · exact ⟨(add_zero b.fills).symm, (add_zero b.volume).symm⟩

/-- The own side is not touched by the sweep. -/
@[simp] theorem own_sweep (side : UInt8) (price : ℤ) (s : Sweep) :
    (sweep side price s).book.own side = s.book.own side := by
  refine sweep_invariant (fun t => t.book.own side = s.book.own side) ?_ rfl
  intro t t' ht h
  obtain ⟨-, p, lvl, l, -, -, rfl⟩ := sweepStep_cases h
  rw [own_writeBack, ht]

end Book
end LmaxBench.Cpp
