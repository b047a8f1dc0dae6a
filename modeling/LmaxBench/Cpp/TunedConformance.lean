import Mathlib.Order.Bounds.Defs
import LmaxBench.Cpp.BookPlacement
import LmaxBench.Cpp.TunedRun

/-!
# Conformance of the tuned book

Whole runs of the tuned book. A run whose operations are in range never faults. If it
uses no live id, it ends in a representation of the book that the same operations lead
to; otherwise it still represents the book whose live map overwrites, which is as well
formed. What holds of the idiomatic book is read back through the representation.

## Main definitions

* `TunedBook.run_holds`, `TunedBook.run_holds_assign` — the simulation of a run.
* `TunedBook.conforms` — the two books cannot be told apart.
* `TunedBook.Invariant`, `TunedBook.invariant_run` — the representation invariant.
* `uncrossed_run` — neither book is ever crossed or locked.
-/

namespace LmaxBench.Cpp
namespace TunedBook

/-! ## The constructor -/

theorem levelAt_replicate {p : ℤ} {lvl : FlatLevel}
    (h : levelAt (List.replicate ladderLen {}) p = some lvl) : lvl = {} := by
  rw [levelAt] at h
  rw [List.getElem?_replicate] at h
  split at h
  · exact (Option.some.inj h).symm
  · simp at h

theorem ladderHolds_new : LadderHolds (List.replicate ladderLen {}) ∅ where
  length_eq := List.length_replicate
  on_ladder := by simp
  level := by
    intro p lvl _ _ hlvl
    rw [levelAt_replicate hlvl]
    exact ⟨⟨le_rfl, fun _ => ⟨rfl, rfl⟩⟩, rfl⟩

theorem isBest_new (side : UInt8) : IsBest side (noBest side) ∅ where
  bound := by simp
  attained := Or.inr ⟨rfl, by simp⟩

@[simp] theorem length_orders_new {maxId : UInt64} (h : maxId.toNat < 2 ^ 64 - 2) :
    (new maxId).orders.length = maxId.toNat + 2 := by
  have hadd : (maxId + 2).toNat = maxId.toNat + 2 := Word.toNat_add_of_lt (by
    have : (2 : UInt64).toNat = 2 := rfl
    omega)
  simp only [new, List.length_replicate, hadd]

/-- **The constructor's state** represents the empty book. -/
theorem new_holds (maxId : UInt64) : Holds 0 (new maxId) {} where
  bids := ⟨ladderHolds_new, isBest_new sideAsk⟩
  asks := ⟨ladderHolds_new, isBest_new sideBid⟩
  slots := by
    intro id r
    simp only [new, OrdMap.find?_empty, List.getElem?_replicate]
    constructor
    · simp
    · rintro ⟨hr, hne⟩
      split at hr
      · exact absurd (Option.some.inj hr ▸ rfl) hne
      · simp at hr
  queued_lt := by
    intro id hid
    simp [Book.Queued, Levels.Mem] at hid
  live_eq := rfl
  fills_eq := rfl
  volume_eq := rfl

/-! ## Runs -/

theorem apply_holds {excess : UInt64} {t : TunedBook} {b : Book} (h : Holds excess t b)
    (hwf : b.WellFormed) {maxId : UInt64} (hlen : t.orders.length = maxId.toNat + 2) {op : Op}
    (hop : op.InRange maxId) :
    ∃ t' excess', t.apply op = some t' ∧ Holds excess' t' (b.applyAssign op) ∧
      t'.orders.length = t.orders.length ∧
      excess'.toNat + (b.applyAssign op).orders.size ≤ excess.toNat + b.orders.size + 1 ∧
      (b.Fresh op → excess' = excess) := by
  cases op with
  | limit side price qty id =>
    rcases hop with ⟨⟨h0, h1⟩, hid⟩
    have hslot : id.toNat < t.orders.length := by omega
    rcases limit_holds h hwf side qty h0 h1 hslot with
      ⟨t', excess', ht', hholds, hlen', -, hlive, hexcess⟩
    exact ⟨t', excess', ht', hholds, hlen', hlive, hexcess⟩
  | cancel id =>
    have hid : id.toNat ≤ maxId.toNat + 1 := hop
    have hslot : id.toNat < t.orders.length := by omega
    rcases cancel_holds h hslot with ⟨t', ht', hholds, hlen'⟩
    have hsize := b.orders.size_erase_le id
    refine ⟨t', excess, ht', hholds, hlen', ?_, fun _ => rfl⟩
    simp only [Book.applyAssign, Book.cancel]
    omega

/-- **Any run in range** represents a book whose live map overwrites. -/
theorem run_holds_assign {maxId : UInt64} (hmax : maxId.toNat < 2 ^ 64 - 2) {ops : List Op}
    (hops : ∀ op ∈ ops, op.InRange maxId) :
    ∃ t excess, run maxId ops = some t ∧ Holds excess t (ops.foldl Book.applyAssign {}) ∧
      (ops.foldl Book.applyAssign {}).WellFormed ∧ t.orders.length = maxId.toNat + 2 ∧
      excess.toNat + (ops.foldl Book.applyAssign {}).orders.size ≤ ops.length ∧
      (Book.NoLiveReuse {} ops → excess = 0) := by
  have hfold : ∀ (ops : List Op), (∀ op ∈ ops, op.InRange maxId) → ∀ (excess : UInt64)
      (t : TunedBook) (b : Book), Holds excess t b → b.WellFormed →
      t.orders.length = maxId.toNat + 2 → ∃ t' excess', ops.foldlM apply t = some t' ∧
        Holds excess' t' (ops.foldl Book.applyAssign b) ∧
        (ops.foldl Book.applyAssign b).WellFormed ∧ t'.orders.length = maxId.toNat + 2 ∧
        excess'.toNat + (ops.foldl Book.applyAssign b).orders.size ≤
          excess.toNat + b.orders.size + ops.length ∧
        (b.NoLiveReuse ops → excess' = excess) := by
    intro ops
    induction ops with
    | nil =>
      exact fun _ excess t b h hwf hlen => ⟨t, excess, rfl, h, hwf, hlen, le_rfl, fun _ => rfl⟩
    | cons op ops ih =>
      intro hops excess t b h hwf hlen
      rcases apply_holds h hwf hlen (hops op List.mem_cons_self) with
        ⟨t₁, excess₁, ht₁, hholds₁, hlen₁, hlive₁, hexcess₁⟩
      rcases ih (fun op' hop' => hops op' (List.mem_cons_of_mem _ hop')) excess₁ t₁ _ hholds₁
        (Book.wellFormed_applyAssign hwf op) (hlen₁.trans hlen) with
        ⟨t', excess', ht', hholds, hwf', hlen', hlive, hexcess⟩
      refine ⟨t', excess', ?_, hholds, hwf', hlen', ?_, fun hreuse => ?_⟩
      · rw [List.foldlM_cons, ht₁]
        exact ht'
      · rw [List.foldl_cons, List.length_cons]
        omega
      · rw [Book.applyAssign_eq_apply hreuse.1] at hexcess
        exact (hexcess hreuse.2).trans (hexcess₁ hreuse.1)
  rcases hfold ops hops 0 (new maxId) {} (new_holds maxId) Book.wellFormed_empty
    (length_orders_new hmax) with ⟨t, excess, ht, hholds, hwf, hlen, hlive, hexcess⟩
  have hempty : (({} : Book).orders).size = 0 := rfl
  refine ⟨t, excess, ht, hholds, hwf, hlen, ?_, hexcess⟩
  simpa [hempty] using hlive

/-- **A run in range that uses no live id** represents the idiomatic book. -/
theorem run_holds {maxId : UInt64} (hmax : maxId.toNat < 2 ^ 64 - 2) {ops : List Op}
    (hops : ∀ op ∈ ops, op.InRange maxId) (hreuse : Book.NoLiveReuse {} ops) :
    ∃ t, run maxId ops = some t ∧ Holds 0 t (Book.run ops) ∧
      t.orders.length = maxId.toNat + 2 := by
  rcases run_holds_assign hmax hops with
    ⟨t, excess, ht, hholds, -, hlen, -, hexcess⟩
  rw [hexcess hreuse, Book.foldl_applyAssign hreuse] at hholds
  exact ⟨t, ht, hholds, hlen⟩

/-- The live counter is the number of live slots, and of live orders. -/
theorem Holds.live_toNat {t : TunedBook} {b : Book} (h : Holds 0 t b) {maxId : UInt64}
    (hmax : maxId.toNat < 2 ^ 64 - 2) (hlen : t.orders.length = maxId.toNat + 2) :
    t.live.toNat = (t.orders.countP fun r => r.qty ≠ 0) ∧ t.live.toNat = b.orders.size := by
  have hsize := h.slots.size_eq (by omega)
  have hle := t.orders.countP_le_length (p := fun r => r.qty ≠ 0)
  have hlive : t.live.toNat = b.orders.size := by
    rw [h.live_eq, zero_add, Word.toNat_ofNat_of_lt (by omega)]
  exact ⟨hlive.trans hsize, hlive⟩

/-- **The two books cannot be told apart.** On operations in range that use no live id,
they have the same counters, the same live orders and the same checksum after every
prefix. -/
theorem conforms {maxId : UInt64} (hmax : maxId.toNat < 2 ^ 64 - 2) {ops : List Op}
    (hops : ∀ op ∈ ops, op.InRange maxId) (hreuse : Book.NoLiveReuse {} ops) {pre : List Op}
    (hpre : pre <+: ops) :
    ∃ t, run maxId pre = some t ∧ t.fills = (Book.run pre).fills ∧
      t.volume = (Book.run pre).volume ∧ t.resting = (Book.run pre).resting ∧
      t.checksum = some (Book.run pre).checksum := by
  rcases run_holds hmax (fun op hop => hops op (hpre.subset hop)) (hreuse.of_prefix hpre) with
    ⟨t, ht, hholds, hlen⟩
  exact ⟨t, ht, hholds.fills_eq, hholds.volume_eq, (hholds.live_toNat hmax hlen).2,
    checksum_holds hholds⟩

theorem conforms_reused_id :
    ∃ t, run 1 [.limit 0 10 5 1, .cancel 1, .limit 0 12 4 1, .limit 1 9 3 2] = some t ∧
      t.fills = (Book.run [.limit 0 10 5 1, .cancel 1, .limit 0 12 4 1, .limit 1 9 3 2]).fills ∧
      t.volume = (Book.run [.limit 0 10 5 1, .cancel 1, .limit 0 12 4 1, .limit 1 9 3 2]).volume ∧
      t.resting = (Book.run [.limit 0 10 5 1, .cancel 1, .limit 0 12 4 1, .limit 1 9 3 2]).resting ∧
      t.checksum =
        some (Book.run [.limit 0 10 5 1, .cancel 1, .limit 0 12 4 1, .limit 1 9 3 2]).checksum :=
  conforms (by decide) (by decide) (by decide +kernel) (List.prefix_refl _)

/-! ## The representation invariant -/

/-- The level at an index of a ladder has unread entries, live or stale. -/
def Occupied (ladder : List FlatLevel) (i : ℕ) : Prop :=
  ∃ lvl, ladder[i]? = some lvl ∧ lvl.head < lvl.ids.length

/-- What holds of every tuned book that uses no live id. -/
structure Invariant (t : TunedBook) : Prop where
  best_ask : (∃ i : ℕ, t.bestAsk = i ∧ IsLeast {j | Occupied t.asks j} i) ∨
    (t.bestAsk = int64Max ∧ ∀ j, ¬ Occupied t.asks j)
  best_bid : (∃ i : ℕ, t.bestBid = i ∧ IsGreatest {j | Occupied t.bids j} i) ∨
    (t.bestBid = -1 ∧ ∀ j, ¬ Occupied t.bids j)
  levels : ∀ lvl ∈ t.bids ++ t.asks, lvl.head ≤ lvl.ids.length ∧
    (lvl.empty = true → lvl.ids = [] ∧ lvl.head = 0)
  quantities : ∀ r ∈ t.orders, 0 ≤ r.qty
  live_count : t.live.toNat = t.orders.countP fun r => r.qty ≠ 0
  live_queued : ∀ {i r}, t.orders[i]? = some r → r.qty ≠ 0 →
    ∃ lvl ∈ t.bids ++ t.asks, ∃ id ∈ lvl.unread, id.toNat = i

/-- The occupied levels of a ladder are the levels of the side it represents. -/
theorem LadderHolds.occupied_iff {ladder : List FlatLevel} {m : Levels} (h : LadderHolds ladder m)
    (hm : m.Nonempty) {i : ℕ} : Occupied ladder i ↔ ∃ q, m.find? i = some q := by
  have hlen := h.length_eq
  have hbase : ladderBase + (i : ℤ) = i := zero_add _
  constructor
  · rintro ⟨lvl, hlvl, hlt⟩
    have hi := (List.getElem?_eq_some_iff.mp hlvl).1
    have hp := h.level (p := ladderBase + i) (by omega) (by omega) (h.levelAt_eq hi ▸ hlvl)
    rw [hbase] at hp
    cases hf : m.find? i with
    | some q => exact ⟨q, rfl⟩
    | none =>
      have hnil : lvl.unread = [] := by rw [hp.2, hf]; rfl
      rw [FlatLevel.unread, List.drop_eq_nil_iff] at hnil
      omega
  · rintro ⟨q, hq⟩
    have hon := h.on_ladder hq
    have hi : i < ladder.length := by simp only [ladderBase] at hon; omega
    have hget : ladder[i]? = some ladder[i] := List.getElem?_eq_getElem hi
    have hp := h.level (p := ladderBase + i) (by omega) (by omega) (h.levelAt_eq hi ▸ hget)
    rw [hbase, hq, Option.getD_some] at hp
    refine ⟨_, hget, ?_⟩
    have hne := hm i q hq
    rw [← hp.2, FlatLevel.unread, ne_eq, List.drop_eq_nil_iff] at hne
    omega

/-- A queue entry of a side is an unread entry of its ladder. -/
theorem LadderHolds.mem_unread {ladder : List FlatLevel} {m : Levels} (h : LadderHolds ladder m)
    {id : UInt64} (hid : Levels.Mem id m) : ∃ lvl ∈ ladder, id ∈ lvl.unread := by
  rcases hid with ⟨p, q, hq, hid⟩
  rcases h.on_ladder hq with ⟨h0, h1⟩
  rcases levelAt_eq_some h.length_eq h0 h1 with ⟨lvl, hlvl⟩
  have hp := h.level h0 h1 hlvl
  rw [hq, Option.getD_some] at hp
  exact ⟨lvl, List.mem_of_getElem? hlvl, hp.2 ▸ hid⟩

/-- The best pointer is the index of an occupied level that none betters, or the sentinel. -/
theorem SideHolds.best_cases {side : UInt8} {ladder : List FlatLevel} {best : ℤ} {m : Levels}
    (h : SideHolds side ladder best m) (hm : m.Nonempty) :
    (∃ i : ℕ, best = i ∧ Occupied ladder i ∧
        ∀ j : ℕ, Occupied ladder j → ¬ Book.better side j i) ∨
      (best = noBest side ∧ ∀ j, ¬ Occupied ladder j) := by
  rcases h.best.attained with ⟨q, hq⟩ | ⟨hbest, hnone⟩
  · have hi : best = (best.toNat : ℤ) := by
      have := (h.ladder.on_ladder hq).1
      simp only [ladderBase] at this
      omega
    refine Or.inl ⟨best.toNat, hi, (h.ladder.occupied_iff hm).mpr ⟨q, hi ▸ hq⟩, fun j hj => ?_⟩
    obtain ⟨q', hq'⟩ := (h.ladder.occupied_iff hm).mp hj
    rw [← hi]
    exact h.best.bound hq'
  · refine Or.inr ⟨hbest, fun j hj => ?_⟩
    obtain ⟨q', hq'⟩ := (h.ladder.occupied_iff hm).mp hj
    rw [hnone] at hq'
    simp at hq'

theorem SideHolds.isLeast {ladder : List FlatLevel} {best : ℤ} {m : Levels}
    (h : SideHolds sideBid ladder best m) (hm : m.Nonempty) :
    (∃ i : ℕ, best = i ∧ IsLeast {j | Occupied ladder j} i) ∨
      (best = int64Max ∧ ∀ j, ¬ Occupied ladder j) := by
  rcases h.best_cases hm with ⟨i, hbest, hi, hbound⟩ | hnone
  · refine Or.inl ⟨i, hbest, hi, fun j hj => ?_⟩
    have := hbound j hj
    simp only [Book.better, if_true] at this
    omega
  · exact Or.inr hnone

theorem SideHolds.isGreatest {ladder : List FlatLevel} {best : ℤ} {m : Levels}
    (h : SideHolds sideAsk ladder best m) (hm : m.Nonempty) :
    (∃ i : ℕ, best = i ∧ IsGreatest {j | Occupied ladder j} i) ∨
      (best = -1 ∧ ∀ j, ¬ Occupied ladder j) := by
  rcases h.best_cases hm with ⟨i, hbest, hi, hbound⟩ | hnone
  · refine Or.inl ⟨i, hbest, hi, fun j hj => ?_⟩
    have := hbound j hj
    simp only [Book.better, sideAsk_ne_sideBid, if_false] at this
    omega
  · exact Or.inr hnone

/-- **The invariant, read back** from the book that is represented. -/
theorem Holds.invariant {t : TunedBook} {b : Book} (h : Holds 0 t b) (hwf : b.WellFormed)
    {maxId : UInt64} (hmax : maxId.toNat < 2 ^ 64 - 2) (hlen : t.orders.length = maxId.toNat + 2) :
    t.Invariant where
  best_ask := h.asks.isLeast hwf.asks_nonempty
  best_bid := h.bids.isGreatest hwf.bids_nonempty
  levels := by
    intro lvl hlvl
    have hclean : lvl.Clean := by
      rcases List.mem_append.mp hlvl with hlvl | hlvl
      · exact (h.bids.ladder.level_of_mem hlvl).1
      · exact (h.asks.ladder.level_of_mem hlvl).1
    exact ⟨hclean.1, fun he => hclean.2 (by simpa [FlatLevel.empty] using he)⟩
  quantities := by
    intro r hr
    rcases List.mem_iff_getElem?.mp hr with ⟨i, hi⟩
    by_cases hz : r.qty = 0
    · omega
    · exact (hwf.positive (h.slots.find?_ofNat (by omega) hi hz).2).le
  live_count := (h.live_toNat hmax hlen).1
  live_queued := by
    intro i r hi hz
    obtain ⟨hnat, hr⟩ := h.slots.find?_ofNat (by omega) hi hz
    rcases hwf.queued hr with hid | hid
    · rcases h.bids.ladder.mem_unread hid with ⟨lvl, hlvl, hmem⟩
      exact ⟨lvl, List.mem_append_left _ hlvl, _, hmem, hnat⟩
    · rcases h.asks.ladder.mem_unread hid with ⟨lvl, hlvl, hmem⟩
      exact ⟨lvl, List.mem_append_right _ hlvl, _, hmem, hnat⟩

/-- **The representation invariant** after any run in range that uses no live id; the run
does not fault. -/
theorem invariant_run {maxId : UInt64} (hmax : maxId.toNat < 2 ^ 64 - 2) {ops : List Op}
    (hops : ∀ op ∈ ops, op.InRange maxId) (hreuse : Book.NoLiveReuse {} ops) :
    ∃ t, run maxId ops = some t ∧ t.Invariant := by
  rcases run_holds hmax hops hreuse with ⟨t, ht, hholds, hlen⟩
  exact ⟨t, ht, hholds.invariant (Book.wellFormed_run ops) hmax hlen⟩

theorem invariant_stale_best :
    ∃ t, run 2 [.limit 0 10 5 1, .limit 0 12 4 2, .cancel 2] = some t ∧ t.Invariant :=
  invariant_run (by decide) (by decide) (by decide)

end TunedBook

/-! ## Never crossed, never locked -/

theorem TunedBook.Holds.best_lt {excess : UInt64} {t : TunedBook} {b : Book}
    (h : TunedBook.Holds excess t b) (hwf : b.WellFormed) : t.bestBid < t.bestAsk := by
  rcases h.bids.best.attained with ⟨q, hq⟩ | ⟨hbid, -⟩ <;>
    rcases h.asks.best.attained with ⟨q', hq'⟩ | ⟨hask, -⟩
  · exact hwf.uncrossed hq hq'
  · have := (h.bids.ladder.on_ladder hq).2
    simp only [TunedBook.noBest, if_true, ladderBase, ladderLen, int64Max] at *
    omega
  · have := (h.asks.ladder.on_ladder hq').1
    simp only [TunedBook.noBest, sideAsk_ne_sideBid, if_false, ladderBase] at *
    omega
  · simp only [TunedBook.noBest, sideAsk_ne_sideBid, if_true, if_false, int64Max] at *
    omega

/-- Every price with a bid level is strictly below every price with an ask level; the
levels may hold stale entries only. -/
def Book.Uncrossed (b : Book) : Prop :=
  ∀ {p lvl p' lvl'}, b.bids.find? p = some lvl → b.asks.find? p' = some lvl' → p < p'

/-- The same for the ladders, and for the two best pointers. -/
def TunedBook.Uncrossed (t : TunedBook) : Prop :=
  t.bestBid < t.bestAsk ∧ ∀ {i j}, Occupied t.bids i → Occupied t.asks j → i < j

/-- The live record of an id in the order array. -/
def TunedBook.record? (t : TunedBook) (id : UInt64) : Option Resting :=
  (t.orders[id.toNat]?).filter fun r => r.qty ≠ 0

/-- Every live order that was submitted as a bid is priced strictly below every live order
that was submitted as an ask. -/
def LiveUncrossed (ops : List Op) (record? : UInt64 → Option Resting) : Prop :=
  ∀ {side side' p p' qty qty' id id' r r'}, side = sideBid → side' ≠ sideBid →
    Op.limit side p qty id ∈ ops → Op.limit side' p' qty' id' ∈ ops →
    record? id = some r → record? id' = some r' → r.price < r'.price

/-- While no id is used twice, the side of a live order is the side of its level. -/
theorem Book.Placed.liveUncrossed {ops : List Op} {b : Book} (h : b.Placed ops)
    (hwf : b.WellFormed) (hops : NeverReused ops) : LiveUncrossed ops b.orders.find? := by
  intro side side' p p' qty qty' id id' r r' hside hside' hop hop' hr hr'
  rcases h.record hr with ⟨s, q, lvl, hmem, -, hlvl, -⟩
  rcases h.record hr' with ⟨s', q', lvl', hmem', -, hlvl', -⟩
  rcases hops.eq_of_mem hop hmem with ⟨rfl, -, -⟩
  rcases hops.eq_of_mem hop' hmem' with ⟨rfl, -, -⟩
  rw [Book.own] at hlvl hlvl'
  rw [if_pos hside] at hlvl
  rw [if_neg hside'] at hlvl'
  exact hwf.uncrossed hlvl hlvl'

theorem TunedBook.Holds.record?_eq {excess : UInt64} {t : TunedBook} {b : Book}
    (h : TunedBook.Holds excess t b) : t.record? = b.orders.find? := by
  funext id
  refine Option.ext ?_
  intro r
  rw [TunedBook.record?, Option.filter_eq_some_iff, h.slots id r]
  simp

theorem TunedBook.Holds.uncrossed {excess : UInt64} {t : TunedBook} {b : Book}
    (h : TunedBook.Holds excess t b) (hwf : b.WellFormed) : t.Uncrossed := by
  refine ⟨h.best_lt hwf, fun {i j} hi hj => ?_⟩
  rcases (h.bids.ladder.occupied_iff hwf.bids_nonempty).mp hi with ⟨q, hq⟩
  rcases (h.asks.ladder.occupied_iff hwf.asks_nonempty).mp hj with ⟨q', hq'⟩
  have := hwf.uncrossed hq hq'
  omega

/-- **Neither book is ever crossed or locked**, whatever ids the operations use. While no
id is used twice, the live orders are not crossed either. -/
theorem uncrossed_run (ops : List Op) :
    (Book.run ops).Uncrossed ∧
      (NeverReused ops → LiveUncrossed ops (Book.run ops).orders.find?) ∧
      ∀ maxId : UInt64, maxId.toNat < 2 ^ 64 - 2 → (∀ op ∈ ops, op.InRange maxId) →
        ∃ t, TunedBook.run maxId ops = some t ∧ t.Uncrossed ∧
          (NeverReused ops → LiveUncrossed ops t.record?) := by
  have hlive : NeverReused ops → LiveUncrossed ops (Book.run ops).orders.find? := fun hops =>
    (Book.placed_run (Book.noLiveReuse_of_neverReused hops)).liveUncrossed
      (Book.wellFormed_run ops) hops
  refine ⟨(Book.wellFormed_run ops).uncrossed, hlive, fun maxId hmax hrange => ?_⟩
  rcases TunedBook.run_holds_assign hmax hrange with ⟨t, excess, ht, hholds, hwf, -, -⟩
  refine ⟨t, ht, hholds.uncrossed hwf, fun hops => ?_⟩
  rcases TunedBook.run_holds hmax hrange (Book.noLiveReuse_of_neverReused hops) with
    ⟨t', ht', hholds', -⟩
  obtain rfl : t = t' := Option.some.inj (ht.symm.trans ht')
  rw [hholds'.record?_eq]
  exact hlive hops

theorem uncrossed_run_stale :
    (Book.run [.limit 0 10 5 1, .limit 1 11 4 2, .cancel 2, .limit 1 12 2 3]).Uncrossed ∧
      LiveUncrossed [.limit 0 10 5 1, .limit 1 11 4 2, .cancel 2, .limit 1 12 2 3]
        (Book.run [.limit 0 10 5 1, .limit 1 11 4 2, .cancel 2, .limit 1 12 2 3]).orders.find? ∧
      ∃ t, TunedBook.run 2 [.limit 0 10 5 1, .limit 1 11 4 2, .cancel 2, .limit 1 12 2 3] = some t ∧
        t.Uncrossed ∧
        LiveUncrossed [.limit 0 10 5 1, .limit 1 11 4 2, .cancel 2, .limit 1 12 2 3] t.record? := by
  rcases uncrossed_run [.limit 0 10 5 1, .limit 1 11 4 2, .cancel 2, .limit 1 12 2 3] with
    ⟨hbook, hlive, htuned⟩
  rcases htuned 2 (by decide) (by decide) with ⟨t, ht, huncrossed, hlive'⟩
  exact ⟨hbook, hlive (by decide), t, ht, huncrossed, hlive' (by decide)⟩

end LmaxBench.Cpp
