import LmaxBench.Conformance.Streams
import LmaxBench.Go.TunedRefine
import LmaxBench.Java.TunedBook
import LmaxBench.Lib.Signed

/-!
# The tuned book in Java follows the one in Go

The two share the sentinel of an empty ask side and the arrays of prices and quantities.
They differ in the guard of the sweep, which in Java tests both bounds on each side, in the
casts of prices and ids to `int`, and in the queue of a level: a Go slice against an array
with two indices, which keeps its old contents when it is reset and is doubled when full.

## Main definitions

* `LevelFollows n l j` — the queue of a Java level is that of the Go level, and of at most
  `n` ids, so that none of its indices overflows.
* `LevelFollows.push`, `LevelFollows.pop`, `LevelFollows.reset`.
* `TunedBook.BookFollows`, `TunedBook.apply_follows`, `TunedBook.run_follows`.
-/

namespace LmaxBench.Java

theorem index_eq {α : Type} {xs : List α} {i : Int32} {n : ℕ} (h : i.toInt = n) :
    index xs i = xs[n]? := by
  have hle : 0 ≤ i := Int32.le_iff_toInt_le.mpr (by rw [h]; exact Int.natCast_nonneg n)
  have hn : i.toNatClampNeg = n := by
    rw [Int32.toNatClampNeg, h, Int.toNat_natCast]
  rw [index, if_pos hle, hn]

/-! ## Levels -/

/-- A level of fewer than `2 ^ 30` ids can be doubled. -/
theorem FlatLevel.grown_ne_none {l : FlatLevel} (h0 : 0 ≤ l.size.toInt)
    (h1 : l.size.toInt < 2 ^ 30) : l.grown ≠ none := by
  have htwo : (2 : Int32).toInt = 2 := by decide
  have hmul : (l.size * 2).toInt = l.size.toInt * 2 := by
    rw [Word.toInt_mul32_of_bounds] <;> rw [htwo] <;> omega
  have hnonneg : 0 ≤ l.size * 2 := by
    rw [Int32.le_iff_toInt_le, hmul, Int32.toInt_zero]
    omega
  rw [FlatLevel.grown, copyOf, newLongs, if_pos hnonneg]
  split <;> simp

/-- The queue of a Java level is that of the Go level `l`, and of at most `n` ids. -/
structure LevelFollows (n : ℕ) (l : Go.TunedLevel) (j : FlatLevel) : Prop where
  head_eq : j.head.toInt = l.head
  size_eq : j.size.toInt = l.ids.length
  head_le : l.head ≤ l.ids.length
  size_le : l.ids.length ≤ j.ids.length
  ids_eq : (j.ids.take l.ids.length).map Int64.toUInt64 = l.ids
  capacity_pos : 0 < j.ids.length
  length_le : l.ids.length ≤ n

namespace LevelFollows
variable {n : ℕ} {l : Go.TunedLevel} {j : FlatLevel}

theorem new : LevelFollows 0 {} {} := by
  constructor <;> decide

theorem mono (h : LevelFollows n l j) {m : ℕ} (hm : n ≤ m) : LevelFollows m l j :=
  { h with length_le := h.length_le.trans hm }

theorem isEmpty_eq (h : LevelFollows n l j) : j.isEmpty = l.empty := by
  rw [Bool.eq_iff_iff, FlatLevel.isEmpty, Cpp.FlatLevel.empty, beq_iff_eq, beq_iff_eq,
    ← Int32.toInt_inj, h.head_eq, h.size_eq]
  exact Int.natCast_inj

theorem reset (h : LevelFollows n l j) : LevelFollows n l.reset j.reset where
  head_eq := rfl
  size_eq := rfl
  head_le := le_rfl
  size_le := Nat.zero_le _
  ids_eq := rfl
  capacity_pos := h.capacity_pos
  length_le := Nat.zero_le _

/-- The first unread id, where there is one. -/
theorem index_head (h : LevelFollows n l j) {id : UInt64} (hid : l.front = some id) :
    ∃ id', index j.ids j.head = some id' ∧ id'.toUInt64 = id := by
  have hlt := Cpp.FlatLevel.head_lt_of_front hid
  have hget : ((j.ids.take l.ids.length).map Int64.toUInt64)[l.head]? = some id := by
    rw [h.ids_eq]
    exact hid
  rw [List.getElem?_map, List.getElem?_take_of_lt hlt, Option.map_eq_some_iff] at hget
  rw [index_eq h.head_eq]
  exact hget

theorem pop (h : LevelFollows n l j) (hn : n < 2 ^ 31) {id : UInt64} (hid : l.front = some id) :
    LevelFollows n l.pop j.pop := by
  have hlt := Cpp.FlatLevel.head_lt_of_front hid
  have hle := h.length_le
  have hhead := h.head_eq
  refine { h with head_eq := ?_, head_le := hlt }
  have hone : (1 : Int32).toInt = 1 := by decide
  rw [FlatLevel.pop, Word.toInt_add32_of_bounds, hhead, hone, Cpp.FlatLevel.pop]
  · push_cast
    rfl
  · omega
  · omega

/-- The doubled length of a full array, where `Arrays.copyOf` accepts it. -/
theorem toNatClampNeg_double (h : LevelFollows n l j) (hn : n < 2 ^ 31) (hnonneg : 0 ≤ j.size * 2) :
    (j.size * 2).toNatClampNeg = 2 * l.ids.length := by
  have htwo : (2 : Int32).toInt = 2 := by decide
  have hle := h.length_le
  have hmul := Int32.toInt_mul j.size 2
  rw [Int32.le_iff_toInt_le, Int32.toInt_zero] at hnonneg
  rw [h.size_eq, htwo, Int.bmod_eq_emod] at hmul
  rw [Int32.toNatClampNeg]
  -- in the wrapped case the length is negative
  split at hmul <;> omega

/-- **The array `push` writes to has room**, and the ids the level had, also where it had to
be reallocated. -/
theorem grown_spec (h : LevelFollows n l j) (hn : n < 2 ^ 31) {ids : List Int64}
    (hids : j.grown = some ids) :
    l.ids.length < ids.length ∧ ids.take l.ids.length = j.ids.take l.ids.length := by
  have hsize := h.size_eq
  have hcap := h.size_le
  have hpos := h.capacity_pos
  rw [FlatLevel.grown] at hids
  by_cases hfull : j.size.toInt = j.ids.length
  case pos =>
    have hlen : l.ids.length = j.ids.length := by omega
    rw [if_pos hfull, copyOf, newLongs] at hids
    by_cases hnonneg : 0 ≤ j.size * 2
    case pos =>
      rw [if_pos hnonneg, h.toNatClampNeg_double hn hnonneg] at hids
      obtain rfl := Option.some.inj hids
      refine ⟨?_, ?_⟩
      · rw [List.length_append, List.length_take, List.length_drop, List.length_replicate]
        omega
      · rw [List.length_replicate,
          List.take_of_length_le (by omega : j.ids.length ≤ 2 * l.ids.length), hlen,
          List.take_left' rfl, List.take_length]
    case neg =>
      rw [if_neg hnonneg] at hids
      simp at hids
  case neg =>
    rw [if_neg hfull] at hids
    obtain rfl := Option.some.inj hids
    exact ⟨by omega, rfl⟩

theorem grown_ne_none (h : LevelFollows n l j) (hn : n < 2 ^ 30) : j.grown ≠ none := by
  have hsize := h.size_eq
  have hle := h.length_le
  exact FlatLevel.grown_ne_none (by omega) (by omega)

/-- **`push` appends an id**: to the stale contents of a reset array or to a new array. -/
theorem push (h : LevelFollows n l j) (hn : n + 1 < 2 ^ 31) (hgrown : j.grown ≠ none)
    (id : UInt64) :
    ∃ j', j.push id.toInt64 = some j' ∧ LevelFollows (n + 1) (l.push id) j' := by
  have hsize := h.size_eq
  have hle := h.length_le
  have hnat : j.size.toNatClampNeg = l.ids.length := by
    rw [Int32.toNatClampNeg, hsize, Int.toNat_natCast]
  obtain ⟨ids, hids⟩ := Option.ne_none_iff_exists'.mp hgrown
  obtain ⟨hlt, htake⟩ := h.grown_spec (by omega) hids
  have hget : index ids j.size = some ids[l.ids.length] := by
    rw [index_eq hsize, List.getElem?_eq_getElem hlt]
  simp only [FlatLevel.push, hids, hget, hnat, Option.bind_eq_bind, Option.bind_some]
  refine ⟨_, rfl, ?_⟩
  have hlength : (l.push id).ids.length = l.ids.length + 1 := by
    rw [Cpp.FlatLevel.push, List.length_append, List.length_singleton]
  have hone : (1 : Int32).toInt = 1 := by decide
  constructor
  · exact h.head_eq
  · rw [hlength, Word.toInt_add32_of_bounds] <;> rw [hsize, hone]
    · push_cast
      rfl
    · omega
    · omega
  · have hhead := h.head_le
    rw [hlength]
    exact Nat.le_succ_of_le hhead
  · rw [hlength, List.length_set]
    exact hlt
  · rw [hlength, ← List.take_concat_get' _ _ (by rwa [List.length_set]), List.take_set_of_le le_rfl,
      htake, List.getElem_set_self, List.map_append, h.ids_eq, Cpp.FlatLevel.push]
    rfl
  · rw [List.length_set]
    omega
  · rw [hlength]
    omega

/-- The unread ids of a level, one by one. -/
theorem forall_unread (h : LevelFollows n l j) (hn : n < 2 ^ 31) :
    List.Forall₂ (fun id k => ∃ id', index j.ids (j.head + Int32.ofNat k) = some id' ∧
        id'.toUInt64 = id)
      (l.ids.drop l.head) (List.range (j.size.toInt - j.head.toInt).toNat) := by
  have hhead := h.head_eq
  have hsize := h.size_eq
  have hhle := h.head_le
  have hle := h.length_le
  rw [List.forall₂_iff_get]
  refine ⟨?_, fun k hk hk' => ?_⟩
  · rw [List.length_drop, List.length_range, hhead, hsize]
    omega
  · rw [List.length_drop] at hk
    have hcast : (Int32.ofNat k).toInt = k := Int32.toInt_ofNat_of_lt (by omega)
    have hadd : (j.head + Int32.ofNat k).toInt = (l.head + k : ℕ) := by
      rw [Word.toInt_add32_of_bounds] <;> rw [hhead, hcast] <;> omega
    have hget : ((j.ids.take l.ids.length).map Int64.toUInt64)[l.head + k]? =
        some (l.ids.drop l.head)[k] := by
      rw [h.ids_eq, List.getElem_drop, List.getElem?_eq_getElem]
    rw [List.getElem?_map, List.getElem?_take_of_lt (by omega), Option.map_eq_some_iff] at hget
    simp only [List.get_eq_getElem, List.getElem_range, index_eq hadd]
    exact hget

end LevelFollows
/-- The ladders, level by level. -/
def LadderFollows (n : ℕ) (ls : List Go.TunedLevel) (js : List FlatLevel) : Prop :=
  List.Forall₂ (LevelFollows n) ls js

theorem LadderFollows.mono {n m : ℕ} {ls : List Go.TunedLevel} {js : List FlatLevel}
    (h : LadderFollows n ls js) (hm : n ≤ m) : LadderFollows m ls js :=
  List.Forall₂.imp (fun _ _ hl => hl.mono hm) h

/-- A price on the ladder is cast down to itself. -/
theorem toInt_ofInt_price {p : ℤ} (h0 : 0 ≤ p) (h1 : p < Go.ladderLen) :
    (Int32.ofInt p).toInt = p.toNat := by
  simp only [Go.ladderLen] at h1
  rw [Int32.toInt_ofInt_of_le (by omega) (by omega), Int.toNat_of_nonneg h0]

/-- An id below the length of an array is cast down to itself. -/
theorem toInt_toInt32_id {id : Int64} (h : id.toUInt64.toNat < 2 ^ 31) :
    id.toInt32.toInt = id.toUInt64.toNat := by
  have hlong : id.toUInt64.toNat < 2 ^ 63 := by omega
  have hid := Word.toInt_eq_toNat hlong
  rw [Word.toInt_toInt32_of_bounds (by omega) (by omega), hid]

/-- A slot of an id-indexed array of `int` length. -/
theorem index_id {xs : List ℤ} (hxs : xs.length < 2 ^ 31) (id : Int64) {x : ℤ}
    (h : xs[id.toUInt64.toNat]? = some x) :
    index xs id.toInt32 = some x ∧ id.toInt32.toNatClampNeg = id.toUInt64.toNat := by
  have hlt := (List.getElem?_eq_some_iff.mp h).1
  have hid : id.toInt32.toInt = id.toUInt64.toNat := toInt_toInt32_id (by omega)
  exact ⟨by rw [index_eq hid, h], by rw [Int32.toNatClampNeg, hid, Int.toNat_natCast]⟩

namespace TunedBook

/-! ## The inner loop -/

/-- The inner loop on levels of at most `n` ids. -/
structure DrainFollows (n : ℕ) (e : Go.TunedBook.Drain) (d : Drain) : Prop where
  lvl : LevelFollows n e.lvl d.lvl
  qty_eq : d.qty = e.oqty
  qty_short : e.oqty.length < 2 ^ 31
  q_eq : d.q = e.qty
  live_eq : d.live = e.live.toInt32
  fills_eq : d.fills.toUInt64 = e.fills
  volume_eq : d.volume.toUInt64 = e.volume

theorem drainStep_follows {n : ℕ} (hn : n < 2 ^ 31) {e : Go.TunedBook.Drain} {d : Drain}
    (h : DrainFollows n e d) :
    Follows (Option.Rel (DrainFollows n)) (Go.TunedBook.drainStep e) (drainStep d) := by
  rw [Go.TunedBook.drainStep, drainStep, h.q_eq, h.lvl.isEmpty_eq, h.qty_eq]
  refine Follows.ite Iff.rfl (fun _ => ?_) fun _ => Follows.some .none
  refine Follows.ite Iff.rfl (fun _ => Follows.some .none) ?_
  intro _
  refine Follows.bind (R := fun id id' => id'.toUInt64 = id) (fun id hid => h.lvl.index_head hid) ?_
  rintro _ id hid rfl
  refine Follows.bind (R := fun q q' => q' = q ∧ id.toInt32.toNatClampNeg = id.toUInt64.toNat)
    (fun q hq => ⟨q, (index_id h.qty_short id hq).1, rfl, (index_id h.qty_short id hq).2⟩) ?_
  rintro _ q hq ⟨rfl, hslot⟩
  have hone : (1 : Int64).toInt32 = 1 := by decide
  by_cases hz : q = 0
  · rw [if_pos hz, if_pos hz]
    exact Follows.some (.some { h with lvl := h.lvl.pop hn hid, qty_eq := rfl, q_eq := rfl })
  · rw [if_neg hz, if_neg hz]
    refine Follows.some (.some ?_)
    constructor
    · simp only
      split
      · exact h.lvl.pop hn hid
      · exact h.lvl
    · simp only [hslot]
    · simp only [List.length_set]
      exact h.qty_short
    · rfl
    · simp only [h.live_eq]
      split
      · rw [Int64.toInt32_sub, hone]
      · rfl
    · simp only [Int64.toUInt64_add, h.fills_eq]
      rfl
    · simp only [Int64.toUInt64_add, h.volume_eq, Word.toUInt64_ofInt]

theorem drain_follows {n : ℕ} (hn : n < 2 ^ 31) {e : Go.TunedBook.Drain} {d : Drain}
    (h : DrainFollows n e d) : Follows (DrainFollows n) (Go.TunedBook.drain e) (drain d) := by
  refine (Follows.loop Go.TunedBook.drain_variant ?_ (fun _ _ => drainStep_follows hn) h).mono
    fun _ _ h => h.1
  intro e d h
  have hsize := h.lvl.size_eq
  have hhead := h.lvl.head_eq
  have hle := h.lvl.head_le
  rw [Drain.variant, Go.TunedBook.Drain.variant, h.q_eq, hsize, hhead]
  congr 1
  omega

/-! ## The scans -/

theorem index_ladder {n : ℕ} {ls : List Go.TunedLevel} {js : List FlatLevel}
    (h : LadderFollows n ls js) {p : ℤ} (h0 : 0 ≤ p) (h1 : p < Go.ladderLen) :
    Follows (LevelFollows n) (Go.index ls (p - Go.ladderBase)) (index js (Int32.ofInt p)) := by
  rw [index_eq (toInt_ofInt_price h0 h1), Go.index, Go.ladderBase, sub_zero, if_pos h0]
  exact Follows.get h p.toNat

theorem scanUp_follows {n : ℕ} {ls : List Go.TunedLevel} {js : List FlatLevel}
    (h : LadderFollows n ls js) {p : ℤ} (hp : 0 ≤ p) :
    Follows (fun q q' => q' = q) (Go.TunedBook.scanUp ls p) (scanUp js p) := by
  refine (Follows.loop (R := fun q q' => q' = q ∧ 0 ≤ q) (Go.TunedBook.scanUp_variant ls) ?_ ?_
    ⟨rfl, hp⟩).mono fun _ _ h => h.1.1
  · rintro q _ ⟨rfl, -⟩
    rfl
  · rintro q _ ⟨rfl, hq⟩
    rw [Go.TunedBook.scanUpStep, scanUpStep]
    refine Follows.ite Iff.rfl (fun hlt => ?_) fun _ => Follows.some .none
    refine Follows.bind (index_ladder h hq hlt) ?_
    intro l j _ hl
    rw [hl.isEmpty_eq]
    by_cases he : l.empty = true
    · rw [if_pos he]
      exact Follows.some (.some ⟨rfl, by omega⟩)
    · rw [if_neg he]
      exact Follows.some .none

theorem scanDown_follows {n : ℕ} {ls : List Go.TunedLevel} {js : List FlatLevel}
    (h : LadderFollows n ls js) {p : ℤ} (hp : p < Go.ladderLen) :
    Follows (fun q q' => q' = q) (Go.TunedBook.scanDown ls p) (scanDown js p) := by
  refine (Follows.loop (R := fun q q' => q' = q ∧ q < Go.ladderLen)
    (Go.TunedBook.scanDown_variant ls) ?_ ?_ ⟨rfl, hp⟩).mono fun _ _ h => h.1.1
  · rintro q _ ⟨rfl, -⟩
    rfl
  · rintro q _ ⟨rfl, hq⟩
    rw [Go.TunedBook.scanDownStep, scanDownStep]
    refine Follows.ite Iff.rfl (fun hle => ?_) fun _ => Follows.some .none
    refine Follows.bind (index_ladder h hle hq) ?_
    intro l j _ hl
    rw [hl.isEmpty_eq]
    by_cases he : l.empty = true
    · rw [if_pos he]
      exact Follows.some (.some ⟨rfl, by omega⟩)
    · rw [if_neg he]
      exact Follows.some .none

/-! ## The outer loop -/

/-- The two books, with levels of at most `n` ids. -/
structure BookFollows (n : ℕ) (g : Go.TunedBook) (b : TunedBook) : Prop where
  bids : LadderFollows n g.bids b.bids
  asks : LadderFollows n g.asks b.asks
  bestBid_eq : b.bestBid = g.bestBid
  bestAsk_eq : b.bestAsk = g.bestAsk
  bid_upper : g.bestBid < Go.ladderLen
  ask_lower : 0 ≤ g.bestAsk
  price_eq : b.price = g.price
  qty_eq : b.qty = g.oqty
  price_short : g.price.length < 2 ^ 31
  qty_short : g.oqty.length < 2 ^ 31
  live_eq : b.live = g.live.toInt32
  fills_eq : b.fills.toUInt64 = g.fills
  volume_eq : b.volume.toUInt64 = g.volume

/-- A `byte` is the bid side if its unsigned reading is. -/
theorem toInt8_eq_sideBid {side : UInt8} : side = Go.sideBid ↔ side.toInt8 = sideBid := by
  constructor
  · rintro rfl
    rfl
  · intro h
    have hbits := congrArg Int8.toUInt8 h
    rwa [UInt8.toUInt8_toInt8] at hbits

theorem BookFollows.mono {n m : ℕ} {g : Go.TunedBook} {b : TunedBook} (h : BookFollows n g b)
    (hm : n ≤ m) : BookFollows m g b :=
  { h with bids := h.bids.mono hm, asks := h.asks.mono hm }

theorem BookFollows.opposite {n : ℕ} {g : Go.TunedBook} {b : TunedBook} (h : BookFollows n g b)
    (side : UInt8) : LadderFollows n (g.opposite side) (b.opposite side.toInt8) := by
  rw [Go.TunedBook.opposite, TunedBook.opposite]
  by_cases hs : side = Go.sideBid
  · rw [if_pos hs, if_pos (toInt8_eq_sideBid.mp hs)]
    exact h.asks
  · rw [if_neg hs, if_neg (toInt8_eq_sideBid.not.mp hs)]
    exact h.bids

theorem BookFollows.writeBack {n : ℕ} {g : Go.TunedBook} {b : TunedBook} (h : BookFollows n g b)
    (side : UInt8) {best : ℤ} (h0 : 0 ≤ best) (h1 : best < Go.ladderLen)
    {e : Go.TunedBook.Drain} {d : Drain} (hd : DrainFollows n e d) :
    BookFollows n (g.writeBack side best e) (b.writeBack side.toInt8 best d) := by
  have hslot : (Int32.ofInt best).toNatClampNeg = (best - Go.ladderBase).toNat := by
    rw [Int32.toNatClampNeg, toInt_ofInt_price h0 h1, Int.toNat_natCast, Go.ladderBase, sub_zero]
  refine { h with
    bids := ?_
    asks := ?_
    qty_eq := hd.qty_eq
    qty_short := hd.qty_short
    live_eq := hd.live_eq
    fills_eq := hd.fills_eq
    volume_eq := hd.volume_eq }
  · simp only [Go.TunedBook.writeBack, TunedBook.writeBack, hslot]
    by_cases hs : side = Go.sideBid
    · rw [if_pos hs, if_pos (toInt8_eq_sideBid.mp hs)]
      exact h.bids
    · rw [if_neg hs, if_neg (toInt8_eq_sideBid.not.mp hs)]
      exact Follows.set h.bids _ hd.lvl
  · simp only [Go.TunedBook.writeBack, TunedBook.writeBack, hslot]
    by_cases hs : side = Go.sideBid
    · rw [if_pos hs, if_pos (toInt8_eq_sideBid.mp hs)]
      exact Follows.set h.asks _ hd.lvl
    · rw [if_neg hs, if_neg (toInt8_eq_sideBid.not.mp hs)]
      exact h.asks

theorem advance_follows {n : ℕ} {g : Go.TunedBook} {b : TunedBook} (h : BookFollows n g b)
    (side : UInt8) {best : ℤ} (h0 : 0 ≤ best) (h1 : best < Go.ladderLen) :
    Follows (BookFollows n) (g.advance side best) (b.advance side.toInt8 best) := by
  rw [Go.TunedBook.advance, advance]
  refine Follows.ite toInt8_eq_sideBid (fun _ => ?_) fun _ => ?_
  · refine Follows.bind (scanUp_follows h.asks (by omega)) ?_
    rintro p _ hp rfl
    have hle := Go.TunedBook.le_scanUp hp
    refine Follows.some { h with bestAsk_eq := rfl, ask_lower := ?_ }
    simp only
    omega
  · refine Follows.bind (scanDown_follows h.bids (by omega)) ?_
    rintro p _ hp rfl
    have hle := Go.TunedBook.scanDown_le hp
    refine Follows.some { h with bestBid_eq := rfl, bid_upper := ?_ }
    simp only
    omega

theorem settle_follows {n : ℕ} {g : Go.TunedBook} {b : TunedBook} (h : BookFollows n g b)
    (side : UInt8) {best : ℤ} (h0 : 0 ≤ best) (h1 : best < Go.ladderLen)
    {e : Go.TunedBook.Drain} {d : Drain} (hd : DrainFollows n e d) :
    Follows (BookFollows n) (g.settle side best e) (b.settle side.toInt8 best d) := by
  rw [Go.TunedBook.settle, settle, hd.lvl.isEmpty_eq]
  refine Follows.ite Iff.rfl (fun _ => ?_) fun _ => Follows.some (h.writeBack side h0 h1 hd)
  have hreset : DrainFollows n { e with lvl := e.lvl.reset } { d with lvl := d.lvl.reset } :=
    { hd with lvl := hd.lvl.reset }
  exact advance_follows (h.writeBack side h0 h1 hreset) side h0 h1

/-- **The two guards agree**: Java's second comparison on each side holds of every pointer. -/
theorem bestCrossing_eq {n : ℕ} {g : Go.TunedBook} {b : TunedBook} (h : BookFollows n g b)
    (side : UInt8) (px : ℤ) {best : ℤ} {crosses : Prop} [Decidable crosses]
    (hbest : best = if side.toInt8 = sideBid then b.bestAsk else b.bestBid)
    (hcrosses : crosses ↔ if side.toInt8 = sideBid then best ≤ px else best ≥ px) :
    g.bestCrossing side px = if best < 0 ∨ best ≥ ladder ∨ ¬crosses then none else some best := by
  have hask := h.ask_lower
  have hbid := h.bid_upper
  have hlen : ladder = Go.ladderLen := rfl
  simp only [Go.TunedBook.bestCrossing]
  by_cases hs : side = Go.sideBid
  · rw [if_pos (toInt8_eq_sideBid.mp hs)] at hbest hcrosses
    rw [h.bestAsk_eq] at hbest
    subst hbest
    rw [if_pos hs]
    congr 1
    rw [hcrosses]
    exact propext (by omega)
  · rw [if_neg (toInt8_eq_sideBid.not.mp hs)] at hbest hcrosses
    rw [h.bestBid_eq] at hbest
    subst hbest
    rw [if_neg hs]
    congr 1
    rw [hcrosses]
    exact propext (by omega)

/-- The outer loop on levels of at most `n` ids. -/
def SweepFollows (n : ℕ) (s : Go.TunedBook.Sweep) (s' : Sweep) : Prop :=
  BookFollows n s.book s'.book ∧ s'.q = s.qty

theorem sweepStep_follows {n : ℕ} (hn : n < 2 ^ 31) {side : UInt8} {px : ℤ}
    {s : Go.TunedBook.Sweep} {s' : Sweep} (h : SweepFollows n s s') :
    Follows (Option.Rel (SweepFollows n)) (Go.TunedBook.sweepStep side px s)
      (sweepStep side.toInt8 px s') := by
  obtain ⟨hbook, hq⟩ := h
  rw [Go.TunedBook.sweepStep, sweepStep, hq]
  refine Follows.ite Iff.rfl (fun _ => ?_) fun _ => Follows.some .none
  generalize hbest : (if side.toInt8 = sideBid then s'.book.bestAsk else s'.book.bestBid) = best
  simp only
  rw [bestCrossing_eq hbook side px hbest.symm Iff.rfl]
  split
  case h_1 heq =>
    rw [if_pos (by_contra fun hno => by simp [hno] at heq)]
    exact Follows.some .none
  case h_2 best' heq =>
    have hno : ¬(best < 0 ∨ best ≥ ladder ∨
        ¬if side.toInt8 = sideBid then best ≤ px else best ≥ px) := fun hex => by
      simp [hex] at heq
    rw [if_neg hno] at heq ⊢
    obtain rfl := Option.some.inj heq
    simp only [not_or, not_lt, ge_iff_le, not_le] at hno
    obtain ⟨h0, h1, -⟩ := hno
    refine Follows.bind (index_ladder (hbook.opposite side) h0 h1) ?_
    intro l j _ hl
    refine Follows.bind (drain_follows hn
      ⟨hl, hbook.qty_eq, hbook.qty_short, rfl, hbook.live_eq, hbook.fills_eq, hbook.volume_eq⟩)
      fun e d _ hd => ?_
    refine Follows.bind (settle_follows hbook side h0 h1 hd) ?_
    intro g b _ hb
    exact Follows.some (.some ⟨hb, hd.q_eq⟩)

theorem sweep_follows {n : ℕ} (hn : n < 2 ^ 31) (side : UInt8) (px : ℤ)
    {s : Go.TunedBook.Sweep} {s' : Sweep} (h : SweepFollows n s s') :
    Follows (SweepFollows n) (Go.TunedBook.sweep side px s) (sweep side.toInt8 px s') := by
  refine (Follows.loop (Go.TunedBook.sweep_variant side px) ?_
    (fun _ _ => sweepStep_follows hn) h).mono fun _ _ h => h.1
  rintro s s' ⟨hbook, hq⟩
  rw [Sweep.variant, Go.TunedBook.Sweep.variant, hq, hbook.bestAsk_eq, hbook.bestBid_eq]
  by_cases hs : side = Go.sideBid
  · rw [if_pos hs, if_pos (toInt8_eq_sideBid.mp hs)]
    rfl
  · rw [if_neg hs, if_neg (toInt8_eq_sideBid.not.mp hs)]

/-! ## The operations -/

/-- The record of a resting order. -/
theorem restRecord_follows {n : ℕ} {g : Go.TunedBook} {b : TunedBook} (h : BookFollows n g b)
    (px q : ℤ) (id : UInt64) :
    Follows (BookFollows n)
      (g.price[id.toNat]?.bind fun _ => g.oqty[id.toNat]?.bind fun _ =>
        some { g with
          price := g.price.set id.toNat px
          oqty := g.oqty.set id.toNat q
          live := g.live + 1 })
      ((index b.price id.toInt64.toInt32).bind fun _ =>
        (index b.qty id.toInt64.toInt32).bind fun _ => some { b with
          price := b.price.set id.toInt64.toInt32.toNatClampNeg px
          qty := b.qty.set id.toInt64.toInt32.toNatClampNeg q
          live := b.live + 1 }) := by
  refine Follows.skip fun p hp => Follows.skip ?_
  intro r hr
  have hslot := index_id h.price_short id.toInt64 hp
  rw [h.price_eq, h.qty_eq, hslot.1, (index_id h.qty_short id.toInt64 hr).1, Option.bind_some,
    Option.bind_some, hslot.2]
  have hone : (1 : Int64).toInt32 = 1 := by decide
  refine Follows.some { h with
    price_eq := rfl
    qty_eq := rfl
    price_short := by simpa only [List.length_set] using h.price_short
    qty_short := by simpa only [List.length_set] using h.qty_short
    live_eq := ?_ }
  simp only [h.live_eq, Int64.toInt32_add, hone]

/-- The ladder on which a residual of `side` comes to rest. -/
def own (b : TunedBook) (side : Int8) : List FlatLevel := if side = sideBid then b.bids else b.asks

/-- The level at `px` is full, and `Arrays.copyOf` cannot double it. -/
def FullAt (b : TunedBook) (side : Int8) (px : ℤ) : Prop :=
  ∃ lvl, index (b.own side) (Int32.ofInt px) = some lvl ∧ lvl.grown = none

/-- The operation comes to rest on a level that is full and cannot be doubled. -/
def CannotGrow (b : TunedBook) : Cpp.Op → Prop
  | .limit side price qty _ =>
    ∃ s, sweep side.toInt8 price { book := b, q := qty } = some s ∧ 0 < s.q ∧
      s.book.FullAt side.toInt8 price
  | .cancel _ => False

theorem rest_follows {n : ℕ} (hn : n + 1 < 2 ^ 31) {g : Go.TunedBook} {b : TunedBook}
    (h : BookFollows n g b) (side : UInt8) {px : ℤ} (q : ℤ) (id : UInt64) (h0 : 0 ≤ px)
    (h1 : px < Go.ladderLen) (hroom : ¬b.FullAt side.toInt8 px) :
    Follows (BookFollows (n + 1)) (g.rest side px q id) (b.rest side.toInt8 px q id.toInt64) := by
  have hslot : (Int32.ofInt px).toNatClampNeg = (px - Go.ladderBase).toNat := by
    rw [Int32.toNatClampNeg, toInt_ofInt_price h0 h1, Int.toNat_natCast, Go.ladderBase, sub_zero]
  have hmono := h.mono (Nat.le_succ n)
  rw [Go.TunedBook.rest, rest]
  simp only [Option.bind_eq_bind, hslot]
  refine Follows.ite toInt8_eq_sideBid (fun hs => ?_) fun hs => ?_
  · refine Follows.bind (index_ladder h.bids h0 h1).answer ?_
    rintro l j - ⟨hl, hj⟩
    have hgrown : j.grown ≠ none := fun hnone =>
      hroom ⟨j, by rw [own, if_pos (toInt8_eq_sideBid.mp hs), hj], hnone⟩
    obtain ⟨j', hj', hl'⟩ := hl.push hn hgrown id
    rw [hj', Option.bind_some]
    refine restRecord_follows ?_ px q id
    refine { hmono with
      bids := Follows.set hmono.bids _ hl'
      bestBid_eq := ?_
      bid_upper := ?_ }
    · simp only [h.bestBid_eq]
    · have hbid := h.bid_upper
      simp only
      omega
  · refine Follows.bind (index_ladder h.asks h0 h1).answer ?_
    rintro l j - ⟨hl, hj⟩
    have hgrown : j.grown ≠ none := fun hnone =>
      hroom ⟨j, by rw [own, if_neg (toInt8_eq_sideBid.not.mp hs), hj], hnone⟩
    obtain ⟨j', hj', hl'⟩ := hl.push hn hgrown id
    rw [hj', Option.bind_some]
    refine restRecord_follows ?_ px q id
    refine { hmono with
      asks := Follows.set hmono.asks _ hl'
      bestAsk_eq := ?_
      ask_lower := ?_ }
    · simp only [h.bestAsk_eq]
    · have hask := h.ask_lower
      simp only
      omega

theorem limit_follows {n : ℕ} (hn : n + 1 < 2 ^ 31) {g : Go.TunedBook} {b : TunedBook}
    (h : BookFollows n g b) {side : UInt8} {px q : ℤ} {id : UInt64} (h0 : 0 ≤ px)
    (h1 : px < Go.ladderLen) (hroom : ¬b.CannotGrow (.limit side px q id)) :
    Follows (BookFollows (n + 1)) (g.limit side px q id) (b.limit side.toInt8 px q id.toInt64) := by
  rw [Go.TunedBook.limit, limit]
  have hn31 : n < 2 ^ 31 := by omega
  refine Follows.bind (sweep_follows hn31 side px ⟨h, rfl⟩).answer ?_
  rintro s s' - ⟨⟨hbook, hq⟩, hs'⟩
  rw [hq]
  refine Follows.ite Iff.rfl (fun hpos => ?_) fun _ => Follows.some (hbook.mono (Nat.le_succ n))
  exact rest_follows hn hbook side s.qty id h0 h1 fun hfull => hroom ⟨s', hs', hq ▸ hpos, hfull⟩

theorem cancel_follows {n : ℕ} {g : Go.TunedBook} {b : TunedBook} (h : BookFollows n g b)
    (id : UInt64) : Follows (BookFollows n) (g.cancel id) (b.cancel id.toInt64) := by
  rw [Go.TunedBook.cancel, cancel, h.qty_eq]
  refine Follows.skip ?_
  intro q hq
  have hslot := index_id h.qty_short id.toInt64 hq
  have hone : (1 : Int64).toInt32 = 1 := by decide
  rw [hslot.1, hslot.2, Option.bind_eq_bind, Option.bind_some]
  refine Follows.some ?_
  by_cases hz : q = 0
  · simp only [hz, ne_eq, not_true_eq_false, if_false]
    exact h
  · simp only [hz, ne_eq, not_false_eq_true, if_true]
    refine { h with
      qty_eq := rfl
      qty_short := by simpa only [List.length_set] using h.qty_short
      live_eq := ?_ }
    simp only [h.live_eq, Int64.toInt32_sub, hone]

/-! ## Runs -/

theorem apply_follows {n : ℕ} (hn : n + 1 < 2 ^ 31) {maxId : UInt64} {g : Go.TunedBook}
    {b : TunedBook} (h : BookFollows n g b) {op : Cpp.Op} (hop : op.InRange maxId)
    (hroom : ¬b.CannotGrow op) :
    Follows (BookFollows (n + 1)) (g.apply op) (b.apply op) := by
  cases op with
  | limit side price qty id =>
    have h0 : 0 ≤ price := hop.1.1
    have h1 : price < Go.ladderLen := by
      have hlt := hop.1.2
      simp only [Cpp.ladderBase, Cpp.ladderLen, Go.ladderLen] at *
      omega
    exact limit_follows hn h h0 h1 hroom
  | cancel id => exact (cancel_follows h id).mono fun _ _ h => h.mono (Nat.le_succ n)

theorem BookFollows.not_fullAt {n : ℕ} {g : Go.TunedBook} {b : TunedBook} (h : BookFollows n g b)
    (hn : n < 2 ^ 30) (side : Int8) (px : ℤ) : ¬b.FullAt side px := by
  rintro ⟨lvl, hlvl, hfull⟩
  have hlevel : ∀ {ls js},
      LadderFollows n ls js → index js (Int32.ofInt px) = some lvl → False := by
    intro ls js hladder hindex
    rw [index] at hindex
    split at hindex
    case isTrue =>
      obtain ⟨l, -, hl⟩ := Follows.get hladder.flip _ lvl hindex
      exact hl.grown_ne_none hn hfull
    case isFalse => simp at hindex
  rw [own] at hlvl
  split at hlvl
  · exact hlevel h.bids hlvl
  · exact hlevel h.asks hlvl

/-- With levels of fewer than `2 ^ 30` ids, every level can be doubled. -/
theorem BookFollows.not_cannotGrow {n : ℕ} {g g' : Go.TunedBook} {b : TunedBook}
    (h : BookFollows n g b) (hn : n < 2 ^ 30) {op : Cpp.Op} (hg : g.apply op = some g') :
    ¬b.CannotGrow op := by
  cases op with
  | limit side price qty id =>
    rintro ⟨s', hs', -, hfull⟩
    obtain ⟨s, hs, -⟩ := Option.bind_eq_some_iff.mp hg
    have hn31 : n < 2 ^ 31 := by omega
    have hstart : SweepFollows n ⟨g, qty⟩ ⟨b, qty⟩ := ⟨h, rfl⟩
    obtain ⟨t, ht, hbook, -⟩ := sweep_follows hn31 side price hstart s hs
    obtain rfl : s' = t := Option.some.inj (hs'.symm.trans ht)
    exact hbook.not_fullAt hn side.toInt8 price hfull
  | cancel id => exact not_false

theorem ladderFollows_replicate (k : ℕ) :
    LadderFollows 0 (List.replicate k {}) (List.replicate k {}) := by
  induction k with
  | zero => exact .nil
  | succ k ih => exact .cons LevelFollows.new ih

theorem new_follows {maxId : UInt64} (hmax : maxId.toNat + 2 < 2 ^ 31) :
    ∃ b, new maxId.toInt64 = some b ∧ BookFollows 0 (Go.TunedBook.new maxId) b := by
  have hid : maxId.toInt64.toInt32.toInt = maxId.toNat :=
    toInt_toInt32_id (show maxId.toNat < 2 ^ 31 by omega)
  have htwo : (2 : Int32).toInt = 2 := by decide
  have hadd : (maxId.toInt64.toInt32 + 2).toInt = maxId.toNat + 2 := by
    rw [Word.toInt_add32_of_bounds] <;> rw [hid, htwo] <;> omega
  have hnonneg : 0 ≤ maxId.toInt64.toInt32 + 2 := Int32.le_iff_toInt_le.mpr (by
    rw [hadd]
    exact Int.natCast_nonneg (maxId.toNat + 2))
  have hlen : (maxId.toInt64.toInt32 + 2).toNatClampNeg = (maxId + 2).toNat := by
    rw [Int32.toNatClampNeg, hadd, UInt64.toNat_add]
    simp only [UInt64.toNat_ofNat]
    omega
  have hshort : (List.replicate (maxId + 2).toNat (0 : ℤ)).length < 2 ^ 31 := by
    rw [List.length_replicate, UInt64.toNat_add]
    simp only [UInt64.toNat_ofNat]
    omega
  rw [new, newLongs, if_pos hnonneg, hlen]
  exact ⟨_, rfl, ladderFollows_replicate _, ladderFollows_replicate _, rfl, rfl,
    show -1 < Go.ladderLen by decide, show 0 ≤ Go.ladderLen by decide, rfl, rfl, hshort, hshort,
    rfl, rfl, rfl⟩

/-- **Runs in range**: of fewer than `2 ^ 30` operations, so that no level overflows. -/
theorem run_follows {maxId : UInt64} (hmax : maxId.toNat + 2 < 2 ^ 30) {ops : List Cpp.Op}
    (hlen : ops.length < 2 ^ 30) (hops : ∀ op ∈ ops, op.InRange maxId) :
    Follows (BookFollows ops.length) (Go.TunedBook.run maxId ops) (run maxId.toInt64 ops) := by
  have hmax31 : maxId.toNat + 2 < 2 ^ 31 := by omega
  obtain ⟨b, hb, h⟩ := new_follows hmax31
  rw [run, hb, Option.bind_eq_bind, Option.bind_some, Go.TunedBook.run]
  refine (Follows.run (R := fun l g b => (∀ op ∈ l, op.InRange maxId) ∧ l.length ≤ ops.length ∧
    BookFollows (ops.length - l.length) g b) ?_ ⟨hops, le_rfl, by rwa [Nat.sub_self]⟩).mono
    fun _ _ h => h.2.2
  rintro op l g b ⟨hops, hle, h⟩
  rw [List.length_cons] at hle h
  intro g' hg'
  have hroom := h.not_cannotGrow (by omega) hg'
  obtain ⟨b', hb', h'⟩ := apply_follows (by omega) h (hops op List.mem_cons_self) hroom g' hg'
  refine ⟨b', hb', fun op' hop' => hops op' (List.mem_cons_of_mem op hop'), by omega, ?_⟩
  exact h'.mono (by omega)

/-! ## The checksum -/

@[simp] theorem toUInt64_mix (acc id : Int64) (price qty : ℤ) :
    (mix acc id price qty).toUInt64 = Go.TunedBook.mix acc.toUInt64 id.toUInt64 price qty := by
  have hshift : ∀ x : Int64, (x <<< 20).toUInt64 = x.toUInt64 <<< 20 := fun _ => rfl
  rw [mix, (toUInt64_next _).1]
  simp only [Int64.toUInt64_xor, hshift, Word.toUInt64_ofInt]
  rfl

theorem foldLevel_follows {n : ℕ} (hn : n < 2 ^ 31) {price qty : List ℤ}
    (hprice : price.length < 2 ^ 31) (hqty : qty.length < 2 ^ 31) {l : Go.TunedLevel}
    {j : FlatLevel} (h : LevelFollows n l j) (acc : Int64) :
    Follows (fun a b => b.toUInt64 = a) (Go.TunedBook.foldLevel price qty acc.toUInt64 l)
      (foldLevel price qty acc j) := by
  rw [Go.TunedBook.foldLevel, foldLevel, if_pos h.head_le]
  refine Follows.fold ?_ (h.forall_unread hn) rfl
  rintro _ k _ acc ⟨id, hid, rfl⟩ rfl
  rw [hid]
  simp only [Option.bind_eq_bind, Option.bind_some]
  refine Follows.bind (R := Eq) (fun q hq => ⟨q, (index_id hqty id hq).1, rfl⟩) ?_
  rintro q _ - rfl
  refine Follows.ite Iff.rfl (fun _ => ?_) fun _ => Follows.some rfl
  refine Follows.bind (R := Eq) (fun p hp => ⟨p, (index_id hprice id hp).1, rfl⟩) ?_
  rintro p _ - rfl
  exact Follows.some (toUInt64_mix acc id p q)

theorem checksum_follows {n : ℕ} (hn : n < 2 ^ 31) {g : Go.TunedBook} {b : TunedBook}
    (h : BookFollows n g b) : Follows (fun a b => b.toUInt64 = a) g.checksum b.checksum := by
  rw [Go.TunedBook.checksum, checksum, h.price_eq, h.qty_eq]
  have hside : ∀ {ls js}, LadderFollows n ls js → ∀ acc : Int64,
      Follows (fun a b => b.toUInt64 = a)
        (ls.foldlM (Go.TunedBook.foldLevel g.price g.oqty) acc.toUInt64)
        (js.foldlM (foldLevel g.price g.oqty) acc) := by
    intro ls js hladder acc
    refine Follows.fold ?_ hladder rfl
    rintro l j _ acc hl rfl
    exact foldLevel_follows hn h.price_short h.qty_short hl acc
  refine Follows.bind (hside h.bids 0) ?_
  rintro _ acc - rfl
  exact hside h.asks acc

end TunedBook
end LmaxBench.Java
