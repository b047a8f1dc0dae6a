import Mathlib.Data.UInt
import Mathlib.Tactic.Abel
import LmaxBench.Cpp.BookInvariant
import LmaxBench.Cpp.TunedLoops

/-!
# The tuned book refines the idiomatic book

`TunedBook.Holds` relates a tuned book to the idiomatic book it represents: each ladder
slot holds the unread queue of the level of its price, the best pointers are the ends
of the two maps, and the order array holds the live map. Every operation whose prices
and ids are in range is free of faults and preserves the relation; in particular the
two inner loops, and then the two outer loops, go round by round in step.

An id may be used again. The tuned book overwrites its record, so its operations are
followed by `Book.limitAssign`, which assigns where `Book.limit` emplaces; while no live
id is used the two are the same. The live counter of the tuned book counts overwritten
records twice: `excess` is by how much it is ahead.

## Main definitions

* `LadderHolds`, `IsBest` — a ladder and its best pointer represent one side.
* `TunedBook.Holds` — the representation relation.
* `drain_holds`, `sweep_holds`, `limit_holds`, `cancel_holds` — the operations.
-/

namespace LmaxBench.Cpp

namespace FlatLevel

/-- The head is within the level, and an empty level is fully reset. -/
def Clean (l : FlatLevel) : Prop :=
  l.head ≤ l.ids.length ∧ (l.head = l.ids.length → l.ids = [] ∧ l.head = 0)

theorem clean_reset (l : FlatLevel) : l.reset.Clean := ⟨le_rfl, fun _ => ⟨rfl, rfl⟩⟩

@[simp] theorem unread_reset (l : FlatLevel) : l.reset.unread = [] := rfl

theorem Clean.push {l : FlatLevel} (h : l.Clean) (id : UInt64) : (l.push id).Clean := by
  have hle := h.1
  refine ⟨?_, fun heq => ?_⟩
  · simp only [FlatLevel.push, List.length_append, List.length_singleton]
    omega
  · simp only [FlatLevel.push, List.length_append, List.length_singleton] at heq
    omega

theorem clean_of_not_empty {l : FlatLevel} (h : l.head ≤ l.ids.length) (he : l.empty = false) :
    l.Clean := by
  refine ⟨h, fun heq => ?_⟩
  simp [empty, heq] at he

end FlatLevel

namespace TunedBook

/-! ## One side -/

/-- The ladder holds the queues of one side, level by level. -/
structure LadderHolds (ladder : List FlatLevel) (m : Levels) : Prop where
  length_eq : ladder.length = ladderLen
  on_ladder : ∀ {p q}, m.find? p = some q → ladderBase ≤ p ∧ p < ladderBase + ladderLen
  level : ∀ {p lvl}, ladderBase ≤ p → p < ladderBase + ladderLen → levelAt ladder p = some lvl →
    lvl.Clean ∧ lvl.unread = (m.find? p).getD []

theorem LadderHolds.levelAt_eq {ladder : List FlatLevel} {m : Levels} (h : LadderHolds ladder m)
    {i : ℕ} (hi : i < ladder.length) : levelAt ladder (ladderBase + i) = ladder[i]? := by
  have hlen := h.length_eq
  rw [levelAt, add_sub_cancel_left,
    sizeT_of_nonneg (by omega) (by simp only [ladderLen] at hlen; omega), Int.toNat_natCast]

/-- The sentinel of the best pointer that a taker on `side` reads. -/
def noBest (side : UInt8) : ℤ := if side = sideBid then int64Max else -1

/-- The pointer is the price of the best level for a taker on `side`, or the sentinel. -/
structure IsBest (side : UInt8) (best : ℤ) (m : Levels) : Prop where
  bound : ∀ {p q}, m.find? p = some q → ¬ Book.better side p best
  attained : (∃ q, m.find? best = some q) ∨ (best = noBest side ∧ ∀ p, m.find? p = none)

theorem levelAt_set {ladder : List FlatLevel} (hlen : ladder.length = ladderLen) {p p' : ℤ}
    (h0 : ladderBase ≤ p) (h1 : p < ladderBase + ladderLen) (h0' : ladderBase ≤ p')
    (h1' : p' < ladderBase + ladderLen) (lvl : FlatLevel) :
    levelAt (ladder.set (sizeT (p - ladderBase)) lvl) p' =
      if p' = p then some lvl else levelAt ladder p' := by
  simp only [levelAt]
  simp only [ladderBase, ladderLen] at *
  rw [sizeT_of_nonneg (by omega) (by omega), sizeT_of_nonneg (by omega) (by omega),
    List.getElem?_set]
  by_cases h : p' = p
  · subst h
    simp [hlen, show p'.toNat < 4096 by omega]
  · have hne : (p - 0).toNat ≠ (p' - 0).toNat := by omega
    rw [if_neg hne, if_neg h]

/-- Writing a level back. -/
theorem LadderHolds.put {ladder : List FlatLevel} {m : Levels} (h : LadderHolds ladder m) {p : ℤ}
    (h0 : ladderBase ≤ p) (h1 : p < ladderBase + ladderLen) {lvl : FlatLevel} (hc : lvl.Clean) :
    LadderHolds (ladder.set (sizeT (p - ladderBase)) lvl) (Levels.put m p lvl.unread) where
  length_eq := by rw [List.length_set, h.length_eq]
  on_ladder := by
    intro p' q hp'
    rw [Levels.find?_put] at hp'
    split at hp'
    · rename_i heq
      exact heq ▸ ⟨h0, h1⟩
    · exact h.on_ladder hp'
  level := by
    intro p' lvl' h0' h1' hlvl'
    rw [levelAt_set h.length_eq h0 h1 h0' h1'] at hlvl'
    rw [Levels.find?_put]
    split at hlvl'
    case isTrue heq =>
      obtain rfl := Option.some.inj hlvl'
      rw [if_pos heq]
      refine ⟨hc, ?_⟩
      split
      · rename_i hnil
        rw [hnil]
        rfl
      · rfl
    case isFalse hne =>
      rw [if_neg hne]
      exact h.level h0' h1' hlvl'

/-- A residual is appended to the level of its price. -/
theorem LadderHolds.pushBack {ladder : List FlatLevel} {m : Levels} (h : LadderHolds ladder m)
    {p : ℤ} (h0 : ladderBase ≤ p) (h1 : p < ladderBase + ladderLen) {lvl : FlatLevel}
    (hlvl : levelAt ladder p = some lvl) (id : UInt64) :
    LadderHolds (ladder.set (sizeT (p - ladderBase)) (lvl.push id)) (Levels.pushBack m p id) where
  length_eq := by rw [List.length_set, h.length_eq]
  on_ladder := by
    intro p' q hp'
    rw [Levels.find?_pushBack] at hp'
    split at hp'
    · rename_i heq
      exact heq ▸ ⟨h0, h1⟩
    · exact h.on_ladder hp'
  level := by
    intro p' lvl' h0' h1' hlvl'
    have hp := h.level h0 h1 hlvl
    rw [levelAt_set h.length_eq h0 h1 h0' h1'] at hlvl'
    rw [Levels.find?_pushBack]
    split at hlvl'
    case isTrue heq =>
      obtain rfl := Option.some.inj hlvl'
      rw [if_pos heq, FlatLevel.unread_push hp.1.1, hp.2]
      exact ⟨hp.1.push id, rfl⟩
    case isFalse hne =>
      rw [if_neg hne]
      exact h.level h0' h1' hlvl'

theorem LadderHolds.find?_of_empty {ladder : List FlatLevel} {m : Levels}
    (h : LadderHolds ladder m) (hm : m.Nonempty) {p : ℤ}
    (hempty : ∀ lvl, levelAt ladder p = some lvl → lvl.empty = true)
    (h0 : ladderBase ≤ p) (h1 : p < ladderBase + ladderLen) : m.find? p = none := by
  obtain ⟨lvl, hlvl⟩ := levelAt_eq_some h.length_eq h0 h1
  have hp := h.level h0 h1 hlvl
  have hunread : lvl.unread = [] := (FlatLevel.empty_iff hp.1.1).mp (hempty lvl hlvl)
  cases hf : m.find? p with
  | none => rfl
  | some q =>
    rw [hf, hunread] at hp
    exact absurd hp.2.symm (hm p q hf)

theorem LadderHolds.find?_of_occupied {ladder : List FlatLevel} {m : Levels}
    (h : LadderHolds ladder m) {p : ℤ}
    (hocc : ∀ lvl, levelAt ladder p = some lvl → lvl.empty = false)
    (h0 : ladderBase ≤ p) (h1 : p < ladderBase + ladderLen) : ∃ q, m.find? p = some q := by
  obtain ⟨lvl, hlvl⟩ := levelAt_eq_some h.length_eq h0 h1
  have hp := h.level h0 h1 hlvl
  cases hf : m.find? p with
  | none =>
    have hunread : lvl.unread = [] := by rw [hp.2, hf]; rfl
    have := hocc lvl hlvl
    rw [(FlatLevel.empty_iff hp.1.1).mpr hunread] at this
    simp at this
  | some q => exact ⟨q, rfl⟩

/-- The best pointer is the head of the levels in the order a taker takes them. -/
theorem IsBest.eq_of_bestFirst {side : UInt8} {best : ℤ} {m : Levels} (h : IsBest side best m)
    {p : ℤ} {lvl : List UInt64} {l : List (ℤ × List UInt64)}
    (hl : Book.bestFirst side m = (p, lvl) :: l) : best = p := by
  have hp : m.find? p = some lvl := Book.mem_bestFirst.mp (hl ▸ List.mem_cons_self)
  obtain ⟨q, hq⟩ := h.attained.resolve_right fun hno => by simp [hno.2 p] at hp
  have hmem : (best, q) ∈ (p, lvl) :: l := hl ▸ Book.mem_bestFirst.mpr hq
  rcases List.mem_cons.mp hmem with heq | hmem
  · exact congrArg Prod.fst heq
  · have hs := Book.bestFirst_sorted side m
    rw [hl, List.pairwise_cons] at hs
    exact absurd (hs.1 _ hmem) (h.bound hp)

/-- After the best level is written back, what is left is this level and worse ones. -/
theorem eq_or_better_of_put {side : UInt8} {m : Levels} {p : ℤ} {lvl : List UInt64}
    {l : List (ℤ × List UInt64)} (hl : Book.bestFirst side m = (p, lvl) :: l) (lvl' : List UInt64)
    {p' : ℤ} {q : List UInt64} (hp' : (Levels.put m p lvl').find? p' = some q) :
    p' = p ∧ lvl' ≠ [] ∨ Book.better side p p' := by
  rw [Levels.find?_put] at hp'
  split at hp'
  case isTrue heq =>
    refine Or.inl ⟨heq, fun hnil => ?_⟩
    simp [hnil] at hp'
  case isFalse heq =>
    have hmem : (p', q) ∈ (p, lvl) :: l := hl ▸ Book.mem_bestFirst.mpr hp'
    have hsorted := Book.bestFirst_sorted side m
    rw [hl, List.pairwise_cons] at hsorted
    rcases List.mem_cons.mp hmem with hmem | hmem
    · exact absurd (congrArg Prod.fst hmem) heq
    · exact Or.inr (hsorted.1 _ hmem)

/-- The best level stays the best as long as it is not used up. -/
theorem IsBest.put {side : UInt8} {m : Levels} {p : ℤ} {lvl : List UInt64}
    {l : List (ℤ × List UInt64)} (hl : Book.bestFirst side m = (p, lvl) :: l) {lvl' : List UInt64}
    (hne : lvl' ≠ []) : IsBest side p (Levels.put m p lvl') where
  bound := by
    intro p' q hp'
    rcases eq_or_better_of_put hl lvl' hp' with ⟨rfl, -⟩ | hb
    · rw [Book.better]
      split <;> omega
    · rw [Book.better] at hb ⊢
      split at hb <;> rename_i hs
      · rw [if_pos hs]
        omega
      · rw [if_neg hs]
        omega
  attained := Or.inl ⟨lvl', by rw [Levels.find?_put, if_pos rfl, if_neg hne]⟩

/-- **Where the next occupied level was looked for**: if all levels that are better than
`best'` and worse than the old best are empty, and `best'` is occupied or the sentinel,
then `best'` is the best pointer. -/
theorem IsBest.of_scan {side : UInt8} {ladder : List FlatLevel} {m : Levels}
    (h : LadderHolds ladder m) (hm : m.Nonempty) {best best' : ℤ}
    (hbound : ∀ p q, m.find? p = some q → Book.better side best p)
    (hgap : ∀ p, ladderBase ≤ p → p < ladderBase + ladderLen → Book.better side best p →
      Book.better side p best' → ∀ lvl, levelAt ladder p = some lvl → lvl.empty = true)
    (hend : best' = noBest side ∨ (ladderBase ≤ best' ∧ best' < ladderBase + ladderLen ∧
      ∀ lvl, levelAt ladder best' = some lvl → lvl.empty = false)) : IsBest side best' m := by
  have hbetter : ∀ {p q}, m.find? p = some q → ¬ Book.better side p best' := by
    intro p q hp hb
    obtain ⟨h0, h1⟩ := h.on_ladder hp
    rw [h.find?_of_empty hm (hgap p h0 h1 (hbound p q hp) hb) h0 h1] at hp
    simp at hp
  refine ⟨hbetter, ?_⟩
  rcases hend with hno | ⟨h0, h1, hocc⟩
  · -- every price of the ladder is better than the sentinel
    refine Or.inr ⟨hno, fun p => ?_⟩
    cases hp : m.find? p with
    | none => rfl
    | some q =>
      obtain ⟨h0, h1⟩ := h.on_ladder hp
      refine absurd ?_ (hbetter hp)
      rw [hno, Book.better, noBest]
      simp only [ladderBase, ladderLen, int64Max] at *
      split <;> omega
  · exact Or.inl (h.find?_of_occupied hocc h0 h1)

/-! ## The order array -/

/-- The array holds the live map: dead slots have quantity zero. -/
def SlotsHold (slots : List Resting) (orders : Orders) : Prop :=
  ∀ id r, orders.find? id = some r ↔ slots[id.toNat]? = some r ∧ r.qty ≠ 0

/-- The order of a slot is dead if and only if the slot has quantity zero. -/
theorem SlotsHold.find?_eq_none {slots : List Resting} {orders : Orders}
    (h : SlotsHold slots orders) {id : UInt64} {r : Resting} (hr : slots[id.toNat]? = some r) :
    orders.find? id = none ↔ r.qty = 0 := by
  constructor
  · intro hnone
    by_contra hne
    rw [(h id r).mpr ⟨hr, hne⟩] at hnone
    simp at hnone
  · intro hz
    cases hf : orders.find? id with
    | none => rfl
    | some r' =>
      obtain ⟨hr', hne⟩ := (h id r').mp hf
      rw [hr] at hr'
      exact absurd (Option.some.inj hr' ▸ hz) hne

/-- The id of a live slot. -/
theorem SlotsHold.find?_ofNat {slots : List Resting} {orders : Orders} (h : SlotsHold slots orders)
    (hlen : slots.length ≤ 2 ^ 64) {i : ℕ} {r : Resting} (hr : slots[i]? = some r)
    (hne : r.qty ≠ 0) : (UInt64.ofNat i).toNat = i ∧ orders.find? (UInt64.ofNat i) = some r := by
  have hlt := (List.getElem?_eq_some_iff.mp hr).1
  have hnat : (UInt64.ofNat i).toNat = i := Word.toNat_ofNat_of_lt (by omega)
  exact ⟨hnat, (h _ r).mpr ⟨hnat.symm ▸ hr, hne⟩⟩

/-- Overwriting a slot: with quantity zero the order is dropped. -/
theorem SlotsHold.set {slots : List Resting} {orders : Orders} (h : SlotsHold slots orders)
    {id : UInt64} (hid : id.toNat < slots.length) (r : Resting) :
    SlotsHold (slots.set id.toNat r)
      (if r.qty = 0 then orders.erase id else orders.insert id r) := by
  intro id' r'
  rw [List.getElem?_set]
  by_cases heq : id' = id
  · subst heq
    split
    case isTrue hz =>
      simp only [OrdMap.find?_erase, if_true]
      constructor
      · simp
      · rintro ⟨hr', hne⟩
        exact absurd (Option.some.inj hr' ▸ hz) hne
    case isFalse hz =>
      simp only [OrdMap.find?_insert, if_true]
      constructor
      · intro hr'
        exact ⟨hr', Option.some.inj hr' ▸ hz⟩
      · exact fun hr' => hr'.1
  · have hne : id.toNat ≠ id'.toNat := fun hh => heq (Word.eq_of_toNat hh.symm)
    rw [if_neg hne]
    split
    · rw [OrdMap.find?_erase, if_neg heq]
      exact h id' r'
    · rw [OrdMap.find?_insert, if_neg heq]
      exact h id' r'

theorem ofNat_size_erase {orders : Orders} {id : UInt64} {r : Resting}
    (h : orders.find? id = some r) :
    UInt64.ofNat orders.size = UInt64.ofNat (orders.erase id).size + 1 := by
  rw [← OrdMap.size_erase_add_one h, UInt64.ofNat_add]
  rfl

/-! ## The inner loop -/

/-- The inner loop of the tuned book is in the state of the inner loop of the book. -/
structure DrainHolds (excess : UInt64) (n : ℕ) (d : Book.Drain) (f : Drain) : Prop where
  head_le : f.lvl.head ≤ f.lvl.ids.length
  unread_eq : f.lvl.unread = d.lvl
  length_eq : f.orders.length = n
  slots : SlotsHold f.orders d.orders
  in_range : ∀ id ∈ d.lvl, id.toNat < n
  live_eq : f.live = excess + UInt64.ofNat d.orders.size
  qty_eq : f.qty = d.qty
  fills_eq : f.fills = d.fills
  volume_eq : f.volume = d.volume
  log_eq : f.log = d.log

theorem drainStep_of_front {s : Drain} {head : UInt64} {r : Resting} (hq : 0 < s.qty)
    (hfront : s.lvl.front = some head) (hr : s.orders[head.toNat]? = some r) :
    drainStep s = some (some (if r.qty = 0 then { s with lvl := s.lvl.pop } else
      { lvl := if r.qty - min s.qty r.qty = 0 then s.lvl.pop else s.lvl
        orders := s.orders.set head.toNat { r with qty := r.qty - min s.qty r.qty }
        qty := s.qty - min s.qty r.qty
        live := if r.qty - min s.qty r.qty = 0 then s.live - 1 else s.live
        fills := s.fills + 1
        volume := s.volume + UInt64.ofInt (min s.qty r.qty)
        log := s.log ++ [⟨head, min s.qty r.qty⟩] })) := by
  have hne : s.lvl.empty = false := by
    have := FlatLevel.head_lt_of_front hfront
    simp only [FlatLevel.empty, beq_eq_false_iff_ne, ne_eq]
    omega
  simp only [drainStep, hq, if_true, hne, Bool.false_eq_true, if_false, Option.bind_eq_bind, hfront,
    hr, Option.bind_some]
  split <;> rfl

/-- **The two inner loops go round in step.** -/
theorem drain_holds {excess : UInt64} {n : ℕ} {d : Book.Drain} {f : Drain}
    (h : DrainHolds excess n d f) :
    ∃ f', drain f = some f' ∧ DrainHolds excess n (Book.drain d) f' := by
  refine Loop.tryExec_sim Book.drain_variant drain_variant (DrainHolds excess n) ?_ ?_ h
  · intro d f h hd
    rcases Book.drainStep_eq_none.mp hd with hq | hl
    · simp [drainStep, h.qty_eq, not_lt.mpr hq]
    · have he : f.lvl.empty = true := (FlatLevel.empty_iff h.head_le).mpr (h.unread_eq.trans hl)
      simp [drainStep, he]
  · intro d f d' h hd
    obtain ⟨hq, head, rest, hlvl, hcase⟩ := Book.drainStep_cases hd
    have hstands : f.lvl.Stands (head :: rest) := ⟨h.head_le, h.unread_eq.trans hlvl⟩
    have hhead : head.toNat < n := h.in_range head (hlvl ▸ List.mem_cons_self)
    have hrange : ∀ id ∈ rest, id.toNat < n := fun id hid =>
      h.in_range id (hlvl ▸ List.mem_cons_of_mem _ hid)
    obtain ⟨r, hr⟩ : ∃ r, f.orders[head.toNat]? = some r :=
      ⟨_, List.getElem?_eq_getElem (h.length_eq ▸ hhead)⟩
    refine ⟨_, drainStep_of_front (h.qty_eq ▸ hq) hstands.front hr, ?_⟩
    rcases hcase with ⟨hdead, rfl⟩ | ⟨r', hr', htally, hcase⟩
    · -- a stale entry
      rw [if_pos ((h.slots.find?_eq_none hr).mp hdead)]
      exact { h with
        head_le := hstands.pop.head_le
        unread_eq := hstands.pop.unread_eq
        in_range := hrange }
    · -- a fill
      obtain ⟨hslot, hne⟩ := (h.slots head r').mp hr'
      obtain rfl : r = r' := Option.some.inj (hr.symm.trans hslot)
      have horders : d'.orders = if r.qty - min d.qty r.qty = 0 then d.orders.erase head
          else d.orders.insert head { r with qty := r.qty - min d.qty r.qty } :=
        congrArg Book.Tally.orders htally
      have hqty : d'.qty = d.qty - min d.qty r.qty := congrArg Book.Tally.qty htally
      have hfills : d'.fills = d.fills + 1 := congrArg Book.Tally.fills htally
      have hvolume : d'.volume = d.volume + UInt64.ofInt (min d.qty r.qty) :=
        congrArg Book.Tally.volume htally
      have hlog : d'.log = d.log ++ [⟨head, min d.qty r.qty⟩] := congrArg Book.Tally.log htally
      have hslots := h.slots.set (h.length_eq ▸ hhead) { r with qty := r.qty - min d.qty r.qty }
      have hfill := hstands.fill (hcase.imp_right fun hmaker => ⟨hmaker.1, hmaker.2.2.trans hlvl⟩)
      rw [if_neg hne, h.qty_eq]
      constructor
      · exact hfill.head_le
      · exact hfill.unread_eq
      · simp only [List.length_set, h.length_eq]
      · rw [horders]
        exact hslots
      · rcases hcase with ⟨-, hlvl'⟩ | ⟨-, -, hlvl'⟩
        · exact hlvl' ▸ hrange
        · exact hlvl' ▸ h.in_range
      · rw [horders]
        split
        · simp only [h.live_eq, ofNat_size_erase hr']
          rw [← add_assoc, add_sub_cancel_right]
        · simp only [h.live_eq, OrdMap.size_insert_of_some hr']
      · exact hqty.symm
      · exact hfills ▸ h.fills_eq ▸ rfl
      · exact hvolume ▸ h.volume_eq ▸ rfl
      · exact hlog ▸ h.log_eq ▸ rfl

/-! ## The representation relation -/

/-- One side of the tuned book represents one side of the book. -/
structure SideHolds (side : UInt8) (ladder : List FlatLevel) (best : ℤ) (m : Levels) : Prop where
  ladder : LadderHolds ladder m
  best : IsBest side best m

theorem SideHolds.congr {side side' : UInt8} (hs : side = sideBid ↔ side' = sideBid)
    {ladder : List FlatLevel} {best : ℤ} {m : Levels} (h : SideHolds side ladder best m) :
    SideHolds side' ladder best m := by
  refine ⟨h.ladder, ?_, ?_⟩
  · intro p q hp
    have := h.best.bound hp
    simpa only [Book.better, hs] using this
  · simpa only [noBest, hs] using h.best.attained

/-- The tuned book `t` represents the book `b`. -/
structure Holds (excess : UInt64) (t : TunedBook) (b : Book) : Prop where
  bids : SideHolds sideAsk t.bids t.bestBid b.bids
  asks : SideHolds sideBid t.asks t.bestAsk b.asks
  slots : SlotsHold t.orders b.orders
  queued_lt : ∀ {id}, b.Queued id → id.toNat < t.orders.length
  live_eq : t.live = excess + UInt64.ofNat b.orders.size
  fills_eq : t.fills = b.fills
  volume_eq : t.volume = b.volume

/-- The ladder a residual of a taker on `side` rests in. -/
def own (t : TunedBook) (side : UInt8) : List FlatLevel := if side = sideBid then t.bids else t.asks

/-- The best pointer of the ladder a residual of a taker on `side` rests in. -/
def ownBest (t : TunedBook) (side : UInt8) : ℤ := if side = sideBid then t.bestBid else t.bestAsk

theorem Holds.opposite {excess : UInt64} {t : TunedBook} {b : Book} (h : Holds excess t b)
    (side : UInt8) : SideHolds side (t.opposite side) (t.best side) (b.opposite side) := by
  rw [TunedBook.opposite, TunedBook.best, Book.opposite]
  split
  case isTrue hs => exact h.asks.congr (by simp [hs])
  case isFalse hs => exact h.bids.congr (by simp [hs, sideAsk_ne_sideBid])

theorem Holds.own {excess : UInt64} {t : TunedBook} {b : Book} (h : Holds excess t b)
    (side : UInt8) : SideHolds (otherSide side) (t.own side) (t.ownBest side) (b.own side) := by
  rw [TunedBook.own, TunedBook.ownBest, Book.own, otherSide]
  split
  case isTrue hs => exact h.bids
  case isFalse hs => exact h.asks

/-- The relation, seen from the side of a taker. -/
theorem Holds.of_sides {excess : UInt64} {t : TunedBook} {b : Book} (side : UInt8)
    (hopp : SideHolds side (t.opposite side) (t.best side) (b.opposite side))
    (hown : SideHolds (otherSide side) (t.own side) (t.ownBest side) (b.own side))
    (hslots : SlotsHold t.orders b.orders)
    (hqueued : ∀ {id}, b.Queued id → id.toNat < t.orders.length)
    (hlive : t.live = excess + UInt64.ofNat b.orders.size)
    (hfills : t.fills = b.fills) (hvolume : t.volume = b.volume) : Holds excess t b := by
  rw [TunedBook.opposite, TunedBook.best, Book.opposite] at hopp
  rw [TunedBook.own, TunedBook.ownBest, Book.own, otherSide] at hown
  by_cases hs : side = sideBid
  · simp only [hs, if_true] at hopp hown
    exact ⟨hown, hopp, hslots, hqueued, hlive, hfills, hvolume⟩
  · simp only [hs, if_false] at hopp hown
    refine ⟨hopp.congr ?_, hown, hslots, hqueued, hlive, hfills, hvolume⟩
    simp [hs, sideAsk_ne_sideBid]

/-! ## The outer loop -/

@[simp] theorem opposite_writeBack (t : TunedBook) (side : UInt8) (i : ℕ) (d : Drain) :
    (t.writeBack side i d).opposite side = (t.opposite side).set i d.lvl := by
  simp only [opposite, writeBack]
  split <;> rfl

/-- What the best pointer becomes once the level it points to is gone. -/
theorem advance_spec {t : TunedBook} {side : UInt8} {best : ℤ} {m : Levels}
    (hlen : (t.opposite side).length = ladderLen)
    (h : LadderHolds ((t.opposite side).set (sizeT (best - ladderBase)) {}) m)
    (hm : m.Nonempty) (h0 : ladderBase ≤ best) (h1 : best < ladderBase + ladderLen)
    (hbound : ∀ p q, m.find? p = some q → Book.better side best p) :
    ∃ t', t.advance side (sizeT (best - ladderBase)) best = some t' ∧
      SideHolds side (t'.opposite side) (t'.best side) m ∧
      t'.own side = t.own side ∧ t'.ownBest side = t.ownBest side ∧
      t'.orders = t.orders ∧ t'.live = t.live ∧ t'.fills = t.fills ∧ t'.volume = t.volume := by
  obtain ⟨lvl, hlvl⟩ := levelAt_eq_some hlen h0 h1
  rw [levelAt] at hlvl
  rw [advance]
  by_cases hs : side = sideBid
  · simp only [TunedBook.opposite, hs, if_true] at h hlvl
    obtain ⟨q, hq, hle, hq', hempty, hocc⟩ := scanUp_spec h.length_eq (p := best + 1) (by omega)
      (by omega)
    simp only [hs, if_true, Option.bind_eq_bind, hlvl, Option.bind_some, FlatLevel.reset, hq]
    refine ⟨_, rfl, ⟨?_, ?_⟩, ?_, ?_, rfl, rfl, rfl, rfl⟩
    · simpa [TunedBook.opposite] using h
    · refine IsBest.of_scan h hm (hs ▸ hbound) ?_ ?_
      · intro p _ hp1 hb hb'
        simp only [TunedBook.best, Book.better, if_true] at hb hb'
        refine hempty p (by omega) ?_
        split at hb' <;> omega
      · simp only [TunedBook.best, noBest, if_true]
        by_cases hend : q < ladderBase + ladderLen
        · rw [if_pos hend]
          exact Or.inr ⟨by omega, hend, hocc hend⟩
        · rw [if_neg hend]
          exact Or.inl rfl
    · simp [TunedBook.own]
    · simp [TunedBook.ownBest]
  · simp only [TunedBook.opposite, hs, if_false] at h hlvl
    obtain ⟨q, hq, hle, hq', hempty, hocc⟩ := scanDown_spec h.length_eq (p := best - 1) (by omega)
      (by omega)
    simp only [hs, if_false, Option.bind_eq_bind, hlvl, Option.bind_some, FlatLevel.reset, hq]
    refine ⟨_, rfl, ⟨?_, ?_⟩, ?_, ?_, rfl, rfl, rfl, rfl⟩
    · simpa [TunedBook.opposite, hs] using h
    · refine IsBest.of_scan h hm hbound ?_ ?_
      · intro p _ _ hb hb'
        simp only [TunedBook.best, Book.better, hs, if_false] at hb hb'
        exact hempty p (by omega) (by omega)
      · simp only [TunedBook.best, noBest, hs, if_false]
        by_cases hend : ladderBase ≤ q
        · exact Or.inr ⟨hend, by omega, hocc hend⟩
        · exact Or.inl (by simp only [ladderBase] at *; omega)
    · simp [TunedBook.own, hs]
    · simp [TunedBook.ownBest, hs]

@[simp] theorem own_writeBack (t : TunedBook) (side : UInt8) (i : ℕ) (d : Drain) :
    (t.writeBack side i d).own side = t.own side := by
  simp only [own, writeBack]
  split <;> rfl

@[simp] theorem ownBest_writeBack (t : TunedBook) (side : UInt8) (i : ℕ) (d : Drain) :
    (t.writeBack side i d).ownBest side = t.ownBest side := by
  unfold ownBest writeBack
  split <;> rfl

/-- **Settling the best level** after the inner loop `d`: the side then holds the level's
new queue, or no such level if the queue is empty. -/
theorem settle_spec {t : TunedBook} {side : UInt8} {m : Levels}
    (h : SideHolds side (t.opposite side) (t.best side) m) (hm : m.Nonempty) {p : ℤ}
    {lvl : List UInt64} {l : List (ℤ × List UInt64)} (hl : Book.bestFirst side m = (p, lvl) :: l)
    {d : Drain} (hd : d.lvl.head ≤ d.lvl.ids.length) :
    ∃ t', t.settle side p d = some t' ∧
      SideHolds side (t'.opposite side) (t'.best side) (Levels.put m p d.lvl.unread) ∧
      t'.own side = t.own side ∧ t'.ownBest side = t.ownBest side ∧
      t'.orders = d.orders ∧ t'.live = d.live ∧ t'.fills = d.fills ∧ t'.volume = d.volume := by
  have hp : m.find? p = some lvl := Book.mem_bestFirst.mp (hl ▸ List.mem_cons_self)
  have hbest : t.best side = p := h.best.eq_of_bestFirst hl
  obtain ⟨h0, h1⟩ := h.ladder.on_ladder hp
  rw [← own_writeBack t side (sizeT (p - ladderBase)) d,
    ← ownBest_writeBack t side (sizeT (p - ladderBase)) d]
  simp only [settle]
  split
  case isTrue he =>
    have hnil := (FlatLevel.empty_iff hd).mp he
    rw [hnil]
    have hput := h.ladder.put h0 h1 (FlatLevel.clean_reset {})
    rw [FlatLevel.unread_reset] at hput
    refine advance_spec ?_ ?_ (hm.put _ _) h0 h1 ?_
    · simp [h.ladder.length_eq]
    · rw [opposite_writeBack, List.set_set]
      exact hput
    · intro p' q hp'
      exact (eq_or_better_of_put hl [] hp').resolve_left fun h => h.2 rfl
  case isFalse he =>
    have hput := h.ladder.put h0 h1 (FlatLevel.clean_of_not_empty hd (by simpa using he))
    have hne : d.lvl.unread ≠ [] := fun hnil => he ((FlatLevel.empty_iff hd).mpr hnil)
    refine ⟨_, rfl, ⟨?_, ?_⟩, rfl, rfl, rfl, rfl, rfl, rfl⟩
    · rw [opposite_writeBack]
      exact hput
    · rw [best_writeBack, hbest]
      exact IsBest.put hl hne

/-- If no opposite level crosses, neither does the best pointer. -/
theorem IsBest.not_crossing {side : UInt8} {price best : ℤ} {b : Book}
    (h : IsBest side best (b.opposite side)) (hno : b.bestCrossing side price = none) :
    ¬ Crossing side price best := by
  rintro ⟨h0, h1, hx⟩
  rcases h.attained with ⟨q, hq⟩ | ⟨hbest, -⟩
  · exact Book.bestCrossing_eq_none.mp hno _ q hq hx
  · rw [hbest, noBest] at h0 h1
    simp only [int64Max, ladderBase, ladderLen] at h0 h1
    split at h0 <;> simp_all

/-- The two outer loops are in the same state. -/
structure SweepHolds (excess : UInt64) (s : Book.Sweep) (f : Sweep) : Prop where
  book : Holds excess f.book s.book
  wellFormed : s.book.WellFormed
  qty_eq : f.qty = s.qty
  log_eq : f.log = s.log

/-- **The two outer loops go round in step.** -/
theorem sweep_holds {excess : UInt64} (side : UInt8) (price : ℤ) {s : Book.Sweep} {f : Sweep}
    (h : SweepHolds excess s f) :
    ∃ f', sweep side price f = some f' ∧ SweepHolds excess (Book.sweep side price s) f' ∧
      f'.book.orders.length = f.book.orders.length := by
  have hsim := Loop.tryExec_sim (Book.sweep_variant side price) (sweep_variant side price)
    (fun s g => SweepHolds excess s g ∧ g.book.orders.length = f.book.orders.length) ?_ ?_ ⟨h, rfl⟩
  · obtain ⟨f', hf', hR, hlen⟩ := hsim
    exact ⟨f', hf', hR, hlen⟩
  · -- the book leaves its loop
    rintro s f ⟨h, -⟩ hs
    refine sweepStep_of_exit ?_
    rw [h.qty_eq]
    exact (Book.sweepStep_eq_none.mp hs).imp_right fun hno =>
      (h.book.opposite side).best.not_crossing hno
  · -- the book goes round
    rintro s f s' ⟨h, hlen⟩ hs
    obtain ⟨hq, p, lvl, l, hl, hx, rfl⟩ := Book.sweepStep_cases hs
    have hopp := h.book.opposite side
    have hbest : f.book.best side = p := hopp.best.eq_of_bestFirst hl
    have hp : (s.book.opposite side).find? p = some lvl :=
      Book.mem_bestFirst.mp (hl ▸ List.mem_cons_self)
    obtain ⟨h0, h1⟩ := hopp.ladder.on_ladder hp
    obtain ⟨flat, hflat⟩ := levelAt_eq_some hopp.ladder.length_eq h0 h1
    have hlevel := hopp.ladder.level h0 h1 hflat
    rw [hp] at hlevel
    have hin : ∀ id ∈ lvl, id.toNat < f.book.orders.length := fun id hid =>
      h.book.queued_lt ((Book.queued_iff s.book side id).mpr (Or.inr ⟨p, lvl, hp, hid⟩))
    have hstart : DrainHolds excess f.book.orders.length
        ⟨lvl, s.book.orders, s.qty, s.book.fills, s.book.volume, s.log⟩
        ⟨flat, f.book.orders, f.qty, f.book.live, f.book.fills, f.book.volume, f.log⟩ :=
      ⟨hlevel.1.1, hlevel.2, rfl, h.book.slots, hin, h.book.live_eq, h.qty_eq, h.book.fills_eq,
        h.book.volume_eq, h.log_eq⟩
    obtain ⟨d, hd, hD⟩ := drain_holds hstart
    have hwf : (s.book.writeBack side p (s.drainOf lvl)).WellFormed :=
      Book.wellFormed_sweepStep h.wellFormed hs
    have hD' : DrainHolds excess f.book.orders.length (s.drainOf lvl) d := hD
    obtain ⟨t, ht, hside, hown, hownBest, horders, hlive, hfills, hvolume⟩ :=
      settle_spec hopp (h.wellFormed.opposite_nonempty side) hl hD.head_le
    rw [hD'.unread_eq] at hside
    refine ⟨{ book := t, qty := d.qty, log := d.log }, ?_, ⟨?_, hwf, hD.qty_eq, hD.log_eq⟩, ?_⟩
    · rw [sweepStep_of_crossing (h.qty_eq ▸ hq) (hbest ▸ ⟨h0, h1, hx⟩)]
      rw [levelAt] at hflat
      have hdrain : f.drainOf flat = some d := hd
      simp only [hbest, Option.bind_eq_bind, hflat, Option.bind_some, hdrain, ht]
    · refine Holds.of_sides side ?_ ?_ ?_ ?_ ?_ ?_ ?_
      · rw [Book.opposite_writeBack]
        exact hside
      · rw [hown, hownBest, Book.own_writeBack]
        exact h.book.own side
      · rw [horders]
        exact hD.slots
      · intro id hid
        rw [horders, hD.length_eq]
        refine h.book.queued_lt ?_
        rw [Book.queued_iff _ side, Book.own_writeBack, Book.opposite_writeBack] at hid
        refine (Book.queued_iff _ side id).mpr (hid.imp_right ?_)
        rintro ⟨p', q, hp', hmem⟩
        rw [Levels.find?_put] at hp'
        split at hp'
        · split at hp'
          · simp at hp'
          · obtain rfl := Option.some.inj hp'
            exact ⟨p, lvl, hp, (Book.drain_suffix _).subset hmem⟩
        · exact ⟨p', q, hp', hmem⟩
      · exact hlive ▸ hD.live_eq
      · exact hfills ▸ hD.fills_eq
      · exact hvolume ▸ hD.volume_eq
    · rw [← hlen]
      exact horders ▸ hD.length_eq

end TunedBook
end LmaxBench.Cpp
