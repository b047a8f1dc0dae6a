import LmaxBench.Cpp.BookLoops
import LmaxBench.Cpp.TunedBook

/-!
# The loops of `TunedBook::limit`

What one round of each loop can do, that each loop decreases its variant from every
state, reachable or not, and what the two pointer scans find.

## Main definitions

* `FlatLevel.unread` — the ids from `head` on, the queue a level stands for.
* `drainStep_cases`, `sweepStep_cases` — one round of the loops.
* `scanUp_spec`, `scanDown_spec` — the next occupied level, if there is one.
-/

namespace LmaxBench.Cpp

@[simp] theorem sizeT_of_nonneg {x : ℤ} (h0 : 0 ≤ x) (h1 : x < 2 ^ 64) : sizeT x = x.toNat :=
  Word.toNat_ofInt h0 h1

namespace FlatLevel

/-- The queue a level stands for. -/
def unread (l : FlatLevel) : List UInt64 := l.ids.drop l.head

theorem empty_iff {l : FlatLevel} (h : l.head ≤ l.ids.length) :
    l.empty = true ↔ l.unread = [] := by
  simp only [empty, unread, beq_iff_eq, List.drop_eq_nil_iff]
  omega

theorem front_eq (l : FlatLevel) : l.front = l.unread.head? := by
  simp [front, unread]

@[simp] theorem unread_pop (l : FlatLevel) : l.pop.unread = l.unread.tail := by
  simp [pop, unread]

@[simp] theorem unread_push {l : FlatLevel} (h : l.head ≤ l.ids.length) (id : UInt64) :
    (l.push id).unread = l.unread ++ [id] := by
  simp [push, unread, List.drop_append_of_le_length h]

theorem head_lt_of_front {l : FlatLevel} {id : UInt64} (h : l.front = some id) :
    l.head < l.ids.length := by
  simp only [front, List.getElem?_eq_some_iff] at h
  exact h.1

/-- The level stands for the queue `q`. -/
structure Stands (l : FlatLevel) (q : List UInt64) : Prop where
  head_le : l.head ≤ l.ids.length
  unread_eq : l.unread = q

namespace Stands
variable {l : FlatLevel} {head : UInt64} {rest : List UInt64}

theorem front (h : l.Stands (head :: rest)) : l.front = some head := by
  rw [front_eq, h.unread_eq]
  rfl

theorem not_empty (h : l.Stands (head :: rest)) : l.empty = false := by
  have hlt := head_lt_of_front h.front
  simp only [empty, beq_eq_false_iff_ne, ne_eq]
  omega

theorem pop (h : l.Stands (head :: rest)) : l.pop.Stands rest where
  head_le := head_lt_of_front h.front
  unread_eq := by
    rw [unread_pop, h.unread_eq]
    rfl

/-- A fill of `q` against a maker of `m` at the head leaves the queue `lvl`. -/
theorem fill (h : l.Stands (head :: rest)) {q m : ℤ} {lvl : List UInt64}
    (hcase : (m ≤ q ∧ lvl = rest) ∨ (q < m ∧ lvl = head :: rest)) :
    (if m - min q m = 0 then l.pop else l).Stands lvl := by
  rcases hcase with ⟨hle, rfl⟩ | ⟨hlt, rfl⟩
  · rw [if_pos (by omega)]
    exact h.pop
  · rw [if_neg (by omega)]
    exact h

end Stands
end FlatLevel

namespace TunedBook

/-! ## The inner loop -/

/-- **One round of the inner loop**, when its two accesses are in range. -/
theorem drainStep_cases {s : Drain} {o : Option Drain} (h : drainStep s = some o) :
    (o = none ∧ (s.qty ≤ 0 ∨ s.lvl.empty = true)) ∨
      (0 < s.qty ∧ ∃ head r, s.lvl.front = some head ∧ s.orders[head.toNat]? = some r ∧
        ((r.qty = 0 ∧ o = some { s with lvl := s.lvl.pop }) ∨
          (r.qty ≠ 0 ∧ ∃ s', o = some s' ∧
            s'.orders = s.orders.set head.toNat { r with qty := r.qty - min s.qty r.qty } ∧
            s'.qty = s.qty - min s.qty r.qty ∧
            ((r.qty ≤ s.qty ∧ s'.lvl = s.lvl.pop) ∨
              (s.qty < r.qty ∧ s'.lvl = s.lvl))))) := by
  rw [drainStep] at h
  split at h
  case isFalse hq => exact Or.inl ⟨(Option.some.inj h).symm, Or.inl (not_lt.mp hq)⟩
  case isTrue hq =>
    split at h
    case isTrue he => exact Or.inl ⟨(Option.some.inj h).symm, Or.inr he⟩
    case isFalse he =>
      simp only [Option.bind_eq_bind, Option.bind_eq_some_iff] at h
      obtain ⟨head, hhead, r, hr, h⟩ := h
      refine Or.inr ⟨hq, head, r, hhead, hr, ?_⟩
      split at h
      case isTrue hz => exact Or.inl ⟨hz, (Option.some.inj h).symm⟩
      case isFalse hz =>
        refine Or.inr ⟨hz, _, (Option.some.inj h).symm, rfl, rfl, ?_⟩
        rcases le_or_gt r.qty s.qty with hle | hlt
        · exact Or.inl ⟨hle, by simp [min_eq_right hle]⟩
        · have hne : r.qty - s.qty ≠ 0 := by omega
          exact Or.inr ⟨hlt, by simp [min_eq_left hlt.le, hne]⟩

theorem drain_variant : Loop.TryVariant drainStep Drain.variant := by
  intro s s' h
  rcases drainStep_cases h with ⟨ho, -⟩ | ⟨hq, head, r, hfront, -, hcase⟩
  · simp at ho
  · have hlt := FlatLevel.head_lt_of_front hfront
    rcases hcase with ⟨-, ho⟩ | ⟨-, t, ho, -, hqty, ⟨-, hlvl⟩ | ⟨hlt', hlvl⟩⟩
    · rw [Option.some.inj ho]
      simp only [Drain.variant, FlatLevel.pop]
      omega
    · obtain rfl := Option.some.inj ho
      simp only [Drain.variant, hlvl, FlatLevel.pop, hq, if_true]
      split <;> omega
    · obtain rfl := Option.some.inj ho
      have hz : ¬ 0 < s'.qty := by rw [hqty, min_eq_left hlt'.le]; omega
      simp only [Drain.variant, hlvl, hq, hz, if_true, if_false]
      omega

/-- The inner loop ends with the taker exhausted or the level empty. -/
theorem drain_exit {s d : Drain} (h : drain s = some d) : d.qty ≤ 0 ∨ d.lvl.empty = true := by
  have hnone := Loop.step_tryExec drain_variant h
  rcases drainStep_cases hnone with ⟨-, hexit⟩ | ⟨-, head, r, -, -, ⟨-, ho⟩ | ⟨-, t, ho, -⟩⟩
  · exact hexit
  · simp at ho
  · simp at ho

/-! ## The scans -/

theorem scanUp_variant (asks : List FlatLevel) :
    Loop.TryVariant (scanUpStep asks) fun p => (ladderBase + ladderLen - p).toNat := by
  intro p p' h
  rw [scanUpStep] at h
  split at h
  case isFalse => simp at h
  case isTrue hp =>
    simp only [Option.bind_eq_bind, Option.bind_eq_some_iff] at h
    obtain ⟨lvl, -, h⟩ := h
    split at h
    · obtain rfl : p + 1 = p' := by simpa using h
      simp only
      omega
    · simp at h

theorem scanDown_variant (bids : List FlatLevel) :
    Loop.TryVariant (scanDownStep bids) fun p => (p - ladderBase + 1).toNat := by
  intro p p' h
  rw [scanDownStep] at h
  split at h
  case isFalse => simp at h
  case isTrue hp =>
    simp only [Option.bind_eq_bind, Option.bind_eq_some_iff] at h
    obtain ⟨lvl, -, h⟩ := h
    split at h
    · obtain rfl : p - 1 = p' := by simpa using h
      simp only
      omega
    · simp at h

theorem le_scanUp {asks : List FlatLevel} {p q : ℤ} (h : scanUp asks p = some q) : p ≤ q := by
  refine Loop.tryExec_invariant (fun q => p ≤ q) ?_ le_rfl h
  intro r r' hr hstep
  have hlt : (ladderBase + ladderLen - r').toNat < (ladderBase + ladderLen - r).toNat :=
    scanUp_variant asks r r' hstep
  omega

theorem scanDown_le {bids : List FlatLevel} {p q : ℤ} (h : scanDown bids p = some q) : q ≤ p := by
  refine Loop.tryExec_invariant (fun q => q ≤ p) ?_ le_rfl h
  intro r r' hr hstep
  have hlt : (r' - ladderBase + 1).toNat < (r - ladderBase + 1).toNat :=
    scanDown_variant bids r r' hstep
  omega

/-- The level at a price. -/
def levelAt (ladder : List FlatLevel) (p : ℤ) : Option FlatLevel := ladder[sizeT (p - ladderBase)]?

theorem levelAt_eq_some {ladder : List FlatLevel} (hlen : ladder.length = ladderLen) {p : ℤ}
    (h0 : ladderBase ≤ p) (h1 : p < ladderBase + ladderLen) :
    ∃ lvl, levelAt ladder p = some lvl := by
  rw [levelAt]
  simp only [ladderBase, ladderLen] at *
  rw [sizeT_of_nonneg (by omega) (by omega)]
  exact ⟨_, List.getElem?_eq_getElem (by omega)⟩

/-- **The upward scan finds the next occupied level**, or the end of the ladder. -/
theorem scanUp_spec {asks : List FlatLevel} (hlen : asks.length = ladderLen) {p : ℤ}
    (h0 : ladderBase ≤ p) (h1 : p ≤ ladderBase + ladderLen) :
    ∃ q, scanUp asks p = some q ∧ p ≤ q ∧ q ≤ ladderBase + ladderLen ∧
      (∀ j, p ≤ j → j < q → ∀ lvl, levelAt asks j = some lvl → lvl.empty = true) ∧
      (q < ladderBase + ladderLen → ∀ lvl, levelAt asks q = some lvl → lvl.empty = false) := by
  induction p using Loop.tryExec_induction (scanUp_variant asks) with
  | fault p h =>
    rw [scanUpStep] at h
    split at h
    case isFalse => simp at h
    case isTrue hp =>
      obtain ⟨lvl, hlvl⟩ := levelAt_eq_some hlen h0 hp
      rw [levelAt] at hlvl
      simp [hlvl] at h
  | exit p h =>
    refine ⟨p, Loop.tryExec_of_exit h, le_rfl, h1, fun j hj hj' => by omega, ?_⟩
    intro hp lvl hlvl
    rw [levelAt] at hlvl
    simpa [scanUpStep, hp, hlvl] using h
  | round p p' h ih =>
    rw [scanUpStep] at h
    split at h
    case isFalse => simp at h
    case isTrue hp =>
      have hstep : scanUpStep asks p = some (some p') := by simpa [scanUpStep, hp] using h
      simp only [Option.bind_eq_bind, Option.bind_eq_some_iff] at h
      obtain ⟨lvl, hlvl, h⟩ := h
      split at h
      case isFalse => simp at h
      case isTrue he =>
        obtain rfl : p + 1 = p' := by simpa using h
        obtain ⟨q, hq, hpq, hq', hempty, hocc⟩ := ih (by omega) (by omega)
        refine ⟨q, by rw [scanUp, Loop.tryExec_of_next (scanUp_variant asks) hstep]; exact hq,
          by omega, hq', ?_, hocc⟩
        intro j hj hj' lvl' hlvl'
        rcases eq_or_lt_of_le hj with rfl | hj
        · have heq : lvl' = lvl := Option.some.inj (hlvl'.symm.trans hlvl)
          exact heq ▸ he
        · exact hempty j (by omega) hj' lvl' hlvl'

/-- **The downward scan finds the next occupied level**, or runs off the ladder. -/
theorem scanDown_spec {bids : List FlatLevel} (hlen : bids.length = ladderLen) {p : ℤ}
    (h0 : ladderBase - 1 ≤ p) (h1 : p < ladderBase + ladderLen) :
    ∃ q, scanDown bids p = some q ∧ q ≤ p ∧ ladderBase - 1 ≤ q ∧
      (∀ j, q < j → j ≤ p → ∀ lvl, levelAt bids j = some lvl → lvl.empty = true) ∧
      (ladderBase ≤ q → ∀ lvl, levelAt bids q = some lvl → lvl.empty = false) := by
  induction p using Loop.tryExec_induction (scanDown_variant bids) with
  | fault p h =>
    rw [scanDownStep] at h
    split at h
    case isFalse => simp at h
    case isTrue hp =>
      obtain ⟨lvl, hlvl⟩ := levelAt_eq_some hlen hp h1
      rw [levelAt] at hlvl
      simp [hlvl] at h
  | exit p h =>
    refine ⟨p, Loop.tryExec_of_exit h, le_rfl, h0, fun j hj hj' => by omega, ?_⟩
    intro hp lvl hlvl
    rw [levelAt] at hlvl
    simpa [scanDownStep, hp, hlvl] using h
  | round p p' h ih =>
    rw [scanDownStep] at h
    split at h
    case isFalse => simp at h
    case isTrue hp =>
      have hstep : scanDownStep bids p = some (some p') := by simpa [scanDownStep, hp] using h
      simp only [Option.bind_eq_bind, Option.bind_eq_some_iff] at h
      obtain ⟨lvl, hlvl, h⟩ := h
      split at h
      case isFalse => simp at h
      case isTrue he =>
        obtain rfl : p - 1 = p' := by simpa using h
        obtain ⟨q, hq, hqp, hq', hempty, hocc⟩ := ih (by omega) (by omega)
        refine ⟨q, by rw [scanDown, Loop.tryExec_of_next (scanDown_variant bids) hstep]; exact hq,
          by omega, hq', ?_, hocc⟩
        intro j hj hj' lvl' hlvl'
        rcases eq_or_lt_of_le hj' with rfl | hj'
        · have heq : lvl' = lvl := Option.some.inj (hlvl'.symm.trans hlvl)
          exact heq ▸ he
        · exact hempty j hj (by omega) lvl' hlvl'

/-! ## The outer loop -/

/-- The inner loop as the outer loop starts it on the level `lvl`. -/
def Sweep.drainOf (s : Sweep) (lvl : FlatLevel) : Option Drain :=
  drain ⟨lvl, s.book.orders, s.qty, s.book.live, s.book.fills, s.book.volume, s.log⟩

/-- The best pointer is on the ladder, at a price that crosses. -/
def Crossing (side : UInt8) (price best : ℤ) : Prop :=
  ladderBase ≤ best ∧ best < ladderBase + ladderLen ∧ Book.crosses side price best

instance (side : UInt8) (price best : ℤ) : Decidable (Crossing side price best) :=
  inferInstanceAs (Decidable (ladderBase ≤ best ∧ best < ladderBase + ladderLen ∧
    Book.crosses side price best))

theorem sweepStep_of_exit {side : UInt8} {price : ℤ} {s : Sweep}
    (h : s.qty ≤ 0 ∨ ¬ Crossing side price (s.book.best side)) :
    sweepStep side price s = some none := by
  rw [sweepStep]
  split
  case isFalse => rfl
  case isTrue hq =>
    have hno := h.resolve_left (not_le.mpr hq)
    rw [if_pos]
    by_contra hcon
    simp only [not_or, not_lt, not_le, not_not] at hcon
    refine hno ⟨hcon.1, hcon.2.1, ?_⟩
    simpa [Book.crosses] using hcon.2.2

theorem sweepStep_of_crossing {side : UInt8} {price : ℤ} {s : Sweep} (hq : 0 < s.qty)
    (hc : Crossing side price (s.book.best side)) :
    sweepStep side price s = (do
      let lvl ← (s.book.opposite side)[sizeT (s.book.best side - ladderBase)]?
      let d ← s.drainOf lvl
      let t ← s.book.settle side (s.book.best side) d
      some (some { book := t, qty := d.qty, log := d.log })) := by
  obtain ⟨h0, h1, hx⟩ := hc
  rw [sweepStep]
  rw [if_pos hq, if_neg]
  · rfl
  · simp only [not_or, not_lt, ge_iff_le, not_le, not_not]
    exact ⟨h0, h1, by simpa [Book.crosses] using hx⟩

/-- **One round of the outer loop**, when its accesses are in range. -/
theorem sweepStep_cases {side : UInt8} {price : ℤ} {s : Sweep} {o : Option Sweep}
    (h : sweepStep side price s = some o) :
    (o = none ∧ (s.qty ≤ 0 ∨ ¬ Crossing side price (s.book.best side))) ∨
      (0 < s.qty ∧ Crossing side price (s.book.best side) ∧ ∃ lvl d t,
        (s.book.opposite side)[sizeT (s.book.best side - ladderBase)]? = some lvl ∧
        s.drainOf lvl = some d ∧ s.book.settle side (s.book.best side) d = some t ∧
        o = some { book := t, qty := d.qty, log := d.log }) := by
  by_cases hexit : s.qty ≤ 0 ∨ ¬ Crossing side price (s.book.best side)
  · rw [sweepStep_of_exit hexit] at h
    exact Or.inl ⟨(Option.some.inj h).symm, hexit⟩
  · simp only [not_or, not_le, not_not] at hexit
    rw [sweepStep_of_crossing hexit.1 hexit.2] at h
    simp only [Option.bind_eq_bind, Option.bind_eq_some_iff] at h
    obtain ⟨lvl, hlvl, d, hd, t, ht, h⟩ := h
    exact Or.inr ⟨hexit.1, hexit.2, lvl, d, t, hlvl, hd, ht, (Option.some.inj h).symm⟩

@[simp] theorem best_writeBack (t : TunedBook) (side : UInt8) (i : ℕ) (d : Drain) :
    (t.writeBack side i d).best side = t.best side := rfl

/-- The distance the best pointer has still to go. -/
def span (side : UInt8) (best : ℤ) : ℕ :=
  if side = sideBid then (ladderBase + ladderLen - best).toNat else (best - ladderBase + 1).toNat

theorem span_advance {t t' : TunedBook} {side : UInt8} {i : ℕ} {best : ℤ}
    (hb : ladderBase ≤ best ∧ best < ladderBase + ladderLen)
    (h : t.advance side i best = some t') : span side (t'.best side) < span side best := by
  rw [advance] at h
  split at h
  case isTrue hs =>
    simp only [Option.bind_eq_bind, Option.bind_eq_some_iff, Option.some.injEq] at h
    obtain ⟨lvl, -, p, hp, rfl⟩ := h
    have hle := le_scanUp hp
    simp only [span, TunedBook.best, hs, if_true]
    by_cases hp' : p < ladderBase + ladderLen
    · rw [if_pos hp']
      omega
    · rw [if_neg hp']
      simp only [int64Max, ladderBase, ladderLen] at *
      omega
  case isFalse hs =>
    simp only [Option.bind_eq_bind, Option.bind_eq_some_iff, Option.some.injEq] at h
    obtain ⟨lvl, -, p, hp, rfl⟩ := h
    have hle := scanDown_le hp
    simp only [span, TunedBook.best, hs, if_false, ladderBase, ladderLen] at *
    omega

theorem sweep_variant (side : UInt8) (price : ℤ) :
    Loop.TryVariant (sweepStep side price) (Sweep.variant side) := by
  have hspan : ∀ s : Sweep, Sweep.variant side s =
      span side (s.book.best side) + if 0 < s.qty then 1 else 0 := by
    intro s
    rw [Sweep.variant, span, TunedBook.best]
    split <;> rfl
  intro s s' h
  rcases sweepStep_cases h with ⟨ho, -⟩ | ⟨hq, hc, lvl, d, t, -, hd, ht, ho⟩
  · simp at ho
  · obtain rfl := Option.some.inj ho
    rw [hspan, hspan, if_pos hq]
    simp only [settle] at ht
    split at ht
    case isTrue he =>
      have hlt := span_advance ⟨hc.1, hc.2.1⟩ ht
      simp only
      split <;> omega
    case isFalse he =>
      have hqty : ¬ 0 < d.qty := not_lt.mpr ((drain_exit hd).resolve_right he)
      have hbest : t.best side = s.book.best side := by
        rw [← Option.some.inj ht, best_writeBack]
      simp only [hqty, if_false, hbest]
      omega

end TunedBook
end LmaxBench.Cpp
