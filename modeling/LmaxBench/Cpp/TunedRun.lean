import Mathlib.Data.List.Nodup
import Mathlib.Data.List.Range
import LmaxBench.Cpp.TunedRefine

/-!
# Runs of the tuned book

The operations of the tuned book, and whole runs of it, against the idiomatic book.
`Op.InRange` is what the constructor's `max_id` and the ladder promise room for.

## Main definitions

* `Op.InRange` — the operations a tuned book has room for.
* `Book.limitAssign` — the limit of a book whose live map overwrites.
* `limit_holds`, `cancel_holds`, `checksum_holds` — one operation.
* `run_holds`, `run_holds_assign` — a whole run, without and with live ids used again.
-/

namespace LmaxBench.Cpp

/-! ## Operations in range -/

/-- The price is on the ladder and the id has a slot in the order array. -/
def Op.InRange (maxId : UInt64) : Op → Prop
  | .limit _ price _ id =>
    (ladderBase ≤ price ∧ price < ladderBase + ladderLen) ∧ id.toNat ≤ maxId.toNat + 1
  | .cancel id => id.toNat ≤ maxId.toNat + 1

instance (maxId : UInt64) : (op : Op) → Decidable (op.InRange maxId)
  | .limit _ price _ id =>
    inferInstanceAs (Decidable ((ladderBase ≤ price ∧ price < ladderBase + ladderLen) ∧
      id.toNat ≤ maxId.toNat + 1))
  | .cancel id => inferInstanceAs (Decidable (id.toNat ≤ maxId.toNat + 1))

namespace Book

/-- The limit of a book whose live map overwrites the record of a live id. -/
def limitAssign (b : Book) (side : UInt8) (price qty : ℤ) (id : UInt64) : Book :=
  let s := sweep side price { book := b, qty }
  if 0 < s.qty then
    { s.book.rest side price s.qty id with orders := s.book.orders.insert id ⟨price, s.qty⟩ }
  else s.book

def applyAssign (b : Book) : Op → Book
  | .limit side price qty id => b.limitAssign side price qty id
  | .cancel id => b.cancel id

theorem limitAssign_eq_limit {b : Book} {id : UInt64} (h : b.orders.find? id = none)
    (side : UInt8) (price qty : ℤ) :
    b.limitAssign side price qty id = b.limit side price qty id := by
  have hs := find?_sweep_none side price (s := { book := b, qty }) h
  rw [limitAssign, limit]
  simp only
  split
  · rw [← OrdMap.emplace_eq_insert hs]
    rfl
  · rfl

/-- Matching makes no order live. -/
theorem size_sweep_le (side : UInt8) (price : ℤ) (s : Sweep) :
    (sweep side price s).book.orders.size ≤ s.book.orders.size := by
  refine sweep_tally (fun t => t.orders.size ≤ s.book.orders.size) ?_ (Nat.le_refl _)
  intro t head r ht _ hr
  have herase := OrdMap.size_erase_add_one hr
  simp only [Tally.fill]
  split
  · omega
  · rwa [OrdMap.size_insert_of_some hr]

theorem wellFormed_limitAssign {b : Book} (h : b.WellFormed) (side : UInt8) (price qty : ℤ)
    (id : UInt64) : (b.limitAssign side price qty id).WellFormed := by
  rw [limitAssign]
  have hs := wellFormed_sweep side price (s := { book := b, qty }) h
  have hexit := sweep_exit side price { book := b, qty }
  generalize sweep side price { book := b, qty } = s at hs hexit
  simp only
  split
  case isTrue hq =>
    refine wellFormed_rest hs (hexit.resolve_left (not_le.mpr hq)) s.qty id ?_
    intro id' r hr
    rw [OrdMap.find?_insert] at hr
    split at hr
    case isTrue heq => exact ⟨by rw [← Option.some.inj hr]; exact hq, Or.inl heq⟩
    case isFalse => exact ⟨hs.positive hr, Or.inr ⟨r, hr⟩⟩
  case isFalse => exact hs

theorem wellFormed_applyAssign {b : Book} (h : b.WellFormed) (op : Op) :
    (b.applyAssign op).WellFormed := by
  cases op with
  | limit side price qty id => exact wellFormed_limitAssign h side price qty id
  | cancel id => exact wellFormed_cancel h id

theorem wellFormed_foldl_applyAssign {b : Book} (h : b.WellFormed) (ops : List Op) :
    (ops.foldl applyAssign b).WellFormed := by
  induction ops generalizing b with
  | nil => exact h
  | cons op ops ih => exact ih (wellFormed_applyAssign h op)

theorem applyAssign_eq_apply {b : Book} {op : Op} (h : b.Fresh op) :
    b.applyAssign op = b.apply op := by
  cases op with
  | limit side price qty id => exact limitAssign_eq_limit h side price qty
  | cancel id => rfl

/-- While no live id is used, overwriting and emplacing are the same. -/
theorem foldl_applyAssign {b : Book} {ops : List Op} (h : b.NoLiveReuse ops) :
    ops.foldl applyAssign b = ops.foldl apply b := by
  induction ops generalizing b with
  | nil => rfl
  | cons op ops ih =>
    rw [List.foldl_cons, List.foldl_cons, applyAssign_eq_apply h.1]
    exact ih h.2

end Book

namespace TunedBook

/-! ## The operations -/

/-- After a residual came to rest at `p`, the pointer is the old one or `p`. -/
theorem IsBest.pushBack {side : UInt8} {best best' p : ℤ} {m : Levels} (h : IsBest side best m)
    (hchoice : best' = p ∨ best' = best ∧ best ≠ noBest side) (hp : ¬ Book.better side p best')
    (hbest : ∀ p', ¬ Book.better side p' best → ¬ Book.better side p' best') (id : UInt64) :
    IsBest side best' (Levels.pushBack m p id) where
  bound := by
    intro p' q hp'
    rw [Levels.find?_pushBack] at hp'
    split at hp'
    case isTrue heq => exact heq ▸ hp
    case isFalse => exact hbest p' (h.bound hp')
  attained := by
    refine Or.inl ?_
    rw [Levels.find?_pushBack]
    split
    case isTrue => exact ⟨_, rfl⟩
    case isFalse hne =>
      obtain ⟨rfl, hreal⟩ := hchoice.resolve_left hne
      exact h.attained.resolve_right fun hnone => hreal hnone.1

theorem IsBest.max_pushBack {best : ℤ} {m : Levels} (h : IsBest sideAsk best m) {p : ℤ}
    (hp : ladderBase ≤ p) (id : UInt64) :
    IsBest sideAsk (max best p) (Levels.pushBack m p id) := by
  have hreal : max best p = p ∨ max best p = best ∧ best ≠ noBest sideAsk := by
    simp only [noBest, sideAsk_ne_sideBid, if_false, ladderBase] at *
    omega
  refine h.pushBack hreal ?_ (fun p' hp' => ?_) id
  · simp [Book.better, sideAsk_ne_sideBid]
  · simp only [Book.better, sideAsk_ne_sideBid, if_false] at *
    omega

theorem IsBest.min_pushBack {best : ℤ} {m : Levels} (h : IsBest sideBid best m) {p : ℤ}
    (hp : p < ladderBase + ladderLen) (id : UInt64) :
    IsBest sideBid (min best p) (Levels.pushBack m p id) := by
  have hreal : min best p = p ∨ min best p = best ∧ best ≠ noBest sideBid := by
    simp only [noBest, if_true, ladderBase, ladderLen, int64Max] at *
    omega
  refine h.pushBack hreal ?_ (fun p' hp' => ?_) id
  · simp [Book.better]
  · simp only [Book.better, if_true] at *
    omega

/-- By how much a limit puts the live counter ahead: by one if it overwrites a record. -/
def overwrites (b : Book) (id : UInt64) : UInt64 := if b.orders.find? id = none then 0 else 1

theorem live_insert (orders : Orders) (id : UInt64) (r : Resting) (excess : UInt64) :
    excess + UInt64.ofNat orders.size + 1 =
      (excess + if orders.find? id = none then 0 else 1) +
        UInt64.ofNat (orders.insert id r).size := by
  cases h : orders.find? id with
  | none =>
    rw [OrdMap.size_insert_of_none h, UInt64.ofNat_add]
    simp only [if_true, add_zero, ← add_assoc]
    rfl
  | some r' =>
    rw [OrdMap.size_insert_of_some h]
    simp only [reduceCtorEq, if_false]
    abel

/-- The live counter moves up by one at most. -/
theorem overwrites_add_size_le (b : Book) (id : UInt64) (r : Resting) :
    (overwrites b id).toNat + (b.orders.insert id r).size ≤ b.orders.size + 1 := by
  rw [overwrites]
  cases h : b.orders.find? id with
  | none => simp [OrdMap.size_insert_of_none h]
  | some r' =>
    rw [OrdMap.size_insert_of_some h, if_neg (by simp), UInt64.toNat_one]
    omega

/-- **A residual comes to rest** in both books alike. -/
theorem rest_holds {excess : UInt64} {t : TunedBook} {b : Book} (h : Holds excess t b)
    (side : UInt8) {price qty : ℤ} {id : UInt64} (hq : 0 < qty) (h0 : ladderBase ≤ price)
    (h1 : price < ladderBase + ladderLen) (hid : id.toNat < t.orders.length) :
    ∃ t', t.rest side price qty id = some t' ∧
      Holds (excess + overwrites b id) t'
        { b.rest side price qty id with orders := b.orders.insert id ⟨price, qty⟩ } ∧
      t'.orders.length = t.orders.length := by
  obtain ⟨r, hr⟩ : ∃ r, t.orders[id.toNat]? = some r := ⟨_, List.getElem?_eq_getElem hid⟩
  have hslots := h.slots.set hid ⟨price, qty⟩
  rw [if_neg (show ¬ qty = 0 by omega)] at hslots
  have hqueued : ∀ {id'}, (b.rest side price qty id).Queued id' →
      id'.toNat < (t.orders.set id.toNat ⟨price, qty⟩).length := by
    intro id' hq'
    rw [Book.queued_iff _ side, Book.own_rest, Book.opposite_rest, Levels.mem_pushBack] at hq'
    rw [List.length_set]
    rcases hq' with (rfl | hq') | hq'
    · exact hid
    · exact h.queued_lt ((Book.queued_iff b side id').mpr (Or.inl hq'))
    · exact h.queued_lt ((Book.queued_iff b side id').mpr (Or.inr hq'))
  have hlive : t.live + 1 = (excess + overwrites b id) +
      UInt64.ofNat (b.orders.insert id ⟨price, qty⟩).size := by
    rw [h.live_eq]
    exact live_insert b.orders id ⟨price, qty⟩ excess
  rw [rest]
  by_cases hs : side = sideBid
  · obtain ⟨lvl, hlvl⟩ := levelAt_eq_some h.bids.ladder.length_eq h0 h1
    have hpush := h.bids.ladder.pushBack h0 h1 hlvl id
    rw [levelAt] at hlvl
    simp only [hs, if_true, Option.bind_eq_bind, hlvl, Option.bind_some, hr]
    refine ⟨_, rfl, ⟨⟨?_, ?_⟩, ?_, hslots, hs ▸ hqueued, hlive, h.fills_eq, h.volume_eq⟩, by simp⟩
    · simpa only [Book.rest, if_true] using hpush
    · simpa only [Book.rest, if_true] using h.bids.best.max_pushBack h0 id
    · simpa only [Book.rest, if_true] using h.asks
  · obtain ⟨lvl, hlvl⟩ := levelAt_eq_some h.asks.ladder.length_eq h0 h1
    have hpush := h.asks.ladder.pushBack h0 h1 hlvl id
    rw [levelAt] at hlvl
    simp only [hs, if_false, Option.bind_eq_bind, hlvl, Option.bind_some, hr]
    refine ⟨_, rfl, ⟨?_, ⟨?_, ?_⟩, hslots, hqueued, hlive, h.fills_eq, h.volume_eq⟩, by simp⟩
    · simpa only [Book.rest, hs, if_false] using h.bids
    · simpa only [Book.rest, hs, if_false] using hpush
    · simpa only [Book.rest, hs, if_false] using h.asks.best.min_pushBack h1 id

/-- **`limit` refines.** In range, the tuned book does not fault, makes the same fills,
and represents the book after an assigning limit. -/
theorem limit_holds {excess : UInt64} {t : TunedBook} {b : Book} (h : Holds excess t b)
    (hwf : b.WellFormed) (side : UInt8) {price : ℤ} (qty : ℤ) {id : UInt64}
    (h0 : ladderBase ≤ price) (h1 : price < ladderBase + ladderLen)
    (hid : id.toNat < t.orders.length) :
    ∃ t' excess', t.limit side price qty id = some t' ∧
      Holds excess' t' (b.limitAssign side price qty id) ∧
      t'.orders.length = t.orders.length ∧
      t.limitLog side price qty = some (b.limitLog side price qty) ∧
      excess'.toNat + (b.limitAssign side price qty id).orders.size ≤
        excess.toNat + b.orders.size + 1 ∧
      (b.orders.find? id = none → excess' = excess) := by
  have hsize := Book.size_sweep_le side price { book := b, qty }
  simp only at hsize
  obtain ⟨f, hf, hR, hlen⟩ := sweep_holds side price
    (s := { book := b, qty }) (f := { book := t, qty }) ⟨h, hwf, rfl, rfl⟩
  have hlog : t.limitLog side price qty = some (b.limitLog side price qty) := by
    rw [limitLog, Book.limitLog]
    rw [hf, Option.map_some, hR.log_eq]
  rw [limit, Book.limitAssign]
  simp only [hf, Option.bind_eq_bind, Option.bind_some, hR.qty_eq]
  split
  case isTrue hq =>
    obtain ⟨t', ht', hrest, hlen'⟩ := rest_holds hR.book side hq h0 h1 (hlen ▸ hid)
    refine ⟨t', _, ht', hrest, hlen'.trans hlen, hlog, ?_, fun hnone => ?_⟩
    · have hle := overwrites_add_size_le (Book.sweep side price { book := b, qty }).book id
        ⟨price, (Book.sweep side price { book := b, qty }).qty⟩
      have hmod := Nat.mod_le (excess.toNat +
        (overwrites (Book.sweep side price { book := b, qty }).book id).toNat) (2 ^ 64)
      simp only [UInt64.toNat_add]
      omega
    have hnone' := Book.find?_sweep_none side price
      (s := { book := b, qty }) hnone
    simp [overwrites, hnone']
  case isFalse hq =>
    exact ⟨f.book, excess, rfl, hR.book, hlen, hlog, by omega, fun _ => rfl⟩

/-- **`cancel` refines.** -/
theorem cancel_holds {excess : UInt64} {t : TunedBook} {b : Book} (h : Holds excess t b)
    {id : UInt64} (hid : id.toNat < t.orders.length) :
    ∃ t', t.cancel id = some t' ∧ Holds excess t' (b.cancel id) ∧
      t'.orders.length = t.orders.length := by
  obtain ⟨r, hr⟩ : ∃ r, t.orders[id.toNat]? = some r := ⟨_, List.getElem?_eq_getElem hid⟩
  rw [cancel]
  simp only [hr, Option.bind_eq_bind, Option.bind_some, ne_eq, ite_not]
  by_cases hz : r.qty = 0
  · have hcancel : b.cancel id = b := by
      rw [Book.cancel, OrdMap.erase_of_none ((h.slots.find?_eq_none hr).mpr hz)]
    rw [if_pos hz, hcancel]
    exact ⟨t, rfl, h, rfl⟩
  · have hf : b.orders.find? id = some r := (h.slots id r).mpr ⟨hr, hz⟩
    rw [if_neg hz]
    have hslots := h.slots.set hid { r with qty := 0 }
    rw [if_pos rfl] at hslots
    refine ⟨_, rfl, ⟨h.bids, h.asks, hslots, ?_, ?_, h.fills_eq, h.volume_eq⟩, by simp⟩
    · intro id' hq'
      rw [List.length_set]
      exact h.queued_lt hq'
    · simp only [Book.cancel, h.live_eq, ofNat_size_erase hf, ← add_assoc, add_sub_cancel_right]

/-! ## The checksum -/

theorem foldlM_eq_some {α β : Type} {f : β → α → Option β} {g : β → α → β} {l : List α}
    (h : ∀ a ∈ l, ∀ acc, f acc a = some (g acc a)) (acc : β) :
    l.foldlM f acc = some (l.foldl g acc) := by
  induction l generalizing acc with
  | nil => rfl
  | cons a l ih =>
    rw [List.foldlM_cons, h a List.mem_cons_self acc]
    exact ih (fun a' ha' => h a' (List.mem_cons_of_mem _ ha')) _

theorem foldLevel_holds {slots : List Resting} {orders : Orders} (h : SlotsHold slots orders)
    {lvl : FlatLevel} (hlt : ∀ id ∈ lvl.unread, id.toNat < slots.length) (acc : UInt64) :
    foldLevel slots acc lvl = some (Book.foldLevel orders acc lvl.unread) := by
  rw [foldLevel, Book.foldLevel]
  refine foldlM_eq_some (l := lvl.unread) ?_ acc
  intro id hid acc
  obtain ⟨r, hr⟩ : ∃ r, slots[id.toNat]? = some r := ⟨_, List.getElem?_eq_getElem (hlt id hid)⟩
  simp only [hr, Option.bind_eq_bind, Option.bind_some, Option.some.injEq]
  by_cases hz : r.qty = 0
  · rw [(h.find?_eq_none hr).mpr hz]
    simp [hz]
  · rw [(h id r).mpr ⟨hr, hz⟩]
    simp [hz]

/-- The levels of a side, slot by slot of the ladder. -/
theorem LadderHolds.entries_eq {ladder : List FlatLevel} {m : Levels} (h : LadderHolds ladder m) :
    m.entries = (List.range ladder.length).filterMap fun i : ℕ =>
      (m.find? (ladderBase + i)).map (ladderBase + i, ·) := by
  have hmono : ∀ i j : ℕ, i < j → ladderBase + (i : ℤ) < ladderBase + j := by
    intro i j hij
    omega
  refine OrdMap.entries_eq_filterMap_range hmono ?_
  intro p q hp
  have hon := h.on_ladder hp
  have hlen := h.length_eq
  exact ⟨(p - ladderBase).toNat, by omega, by omega⟩

/-- What a level of a ladder stands for. -/
theorem LadderHolds.level_of_mem {ladder : List FlatLevel} {m : Levels} (h : LadderHolds ladder m)
    {lvl : FlatLevel} (hlvl : lvl ∈ ladder) :
    lvl.Clean ∧ ∃ p, lvl.unread = (m.find? p).getD [] := by
  rcases List.mem_iff_getElem.mp hlvl with ⟨i, hi, rfl⟩
  have hlen := h.length_eq
  have hlevel := h.level (p := ladderBase + i) (by omega) (by omega)
    ((h.levelAt_eq hi).trans (List.getElem?_eq_getElem hi))
  exact ⟨hlevel.1, _, hlevel.2⟩

theorem LadderHolds.mem_of_unread {ladder : List FlatLevel} {m : Levels} (h : LadderHolds ladder m)
    {lvl : FlatLevel} (hlvl : lvl ∈ ladder) {id : UInt64} (hid : id ∈ lvl.unread) :
    Levels.Mem id m := by
  rcases (h.level_of_mem hlvl).2 with ⟨p, hp⟩
  rw [hp] at hid
  cases hf : m.find? p with
  | none => simp [hf] at hid
  | some q => exact ⟨p, q, hf, by simpa [hf] using hid⟩

/-- **A fold over the levels of a side is a fold over the slots of its ladder**, if empty
levels do not count. -/
theorem LadderHolds.foldl_entries {ladder : List FlatLevel} {m : Levels} (h : LadderHolds ladder m)
    {β : Type*} (f : β → List UInt64 → β) (hf : ∀ acc, f acc [] = acc) (acc : β) :
    m.entries.foldl (fun acc e => f acc e.2) acc =
      ladder.foldl (fun acc lvl => f acc lvl.unread) acc := by
  have hladder : ladder.map FlatLevel.unread =
      (List.range ladder.length).map fun i : ℕ => (m.find? (ladderBase + i)).getD [] := by
    refine List.ext_getElem (by simp) ?_
    intro i hi _
    have hi' : i < ladder.length := by simpa using hi
    have hlen := h.length_eq
    have hlevel := h.level (p := ladderBase + i) (by omega) (by omega)
      ((h.levelAt_eq hi').trans (List.getElem?_eq_getElem hi'))
    simpa using hlevel.2
  calc m.entries.foldl (fun acc e => f acc e.2) acc
      = (List.range ladder.length).foldl
          (fun acc (i : ℕ) => f acc ((m.find? (ladderBase + i)).getD [])) acc := by
        rw [h.entries_eq, List.foldl_filterMap]
        congr 1
        funext acc i
        cases m.find? (ladderBase + i) with
        | none => exact (hf acc).symm
        | some q => rfl
    _ = (ladder.map FlatLevel.unread).foldl f acc := by rw [hladder, List.foldl_map]
    _ = ladder.foldl (fun acc lvl => f acc lvl.unread) acc := List.foldl_map

theorem foldSide_holds {slots : List Resting} {orders : Orders} (hslots : SlotsHold slots orders)
    {ladder : List FlatLevel} {m : Levels} (h : LadderHolds ladder m)
    (hlt : ∀ id, Levels.Mem id m → id.toNat < slots.length) (acc : UInt64) :
    foldSide slots acc ladder = some (Book.foldSide orders acc m) := by
  rw [foldSide, Book.foldSide, h.foldl_entries (Book.foldLevel orders) (fun _ => rfl)]
  refine foldlM_eq_some (fun lvl hlvl acc => ?_) acc
  exact foldLevel_holds hslots (fun id hid => hlt id (h.mem_of_unread hlvl hid)) acc

/-- **The checksums agree**, and computing it does not fault. -/
theorem checksum_holds {excess : UInt64} {t : TunedBook} {b : Book} (h : Holds excess t b) :
    t.checksum = some b.checksum := by
  rw [checksum, Book.checksum]
  rw [foldSide_holds h.slots h.bids.ladder (fun id hid => h.queued_lt (Or.inl hid))]
  exact foldSide_holds h.slots h.asks.ladder (fun id hid => h.queued_lt (Or.inr hid)) _

/-! ## The live slots -/

/-- **The records of the live map are the live slots**, up to order. -/
theorem SlotsHold.records_perm {slots : List Resting} {orders : Orders} (h : SlotsHold slots orders)
    (hlen : slots.length ≤ 2 ^ 64) :
    (orders.entries.map Prod.snd).Perm (slots.filter fun r => r.qty ≠ 0) := by
  let slotAt : ℕ → Resting := fun i => (slots[i]?).getD ⟨0, 0⟩
  have hslots : slots = (List.range slots.length).map slotAt := by
    refine List.ext_getElem (by simp) ?_
    intro i hi _
    simp [slotAt, hi]
  have hkeys : (orders.entries.map fun e => e.1.toNat).Perm
      ((List.range slots.length).filter fun i => (slotAt i).qty ≠ 0) := by
    have hinj : Function.Injective UInt64.toNat := fun a b hab => Word.eq_of_toNat hab
    have hnodup : (orders.entries.map fun e => e.1.toNat).Nodup := by
      have := orders.keys_nodup.map hinj
      rwa [List.map_map] at this
    rw [List.perm_ext_iff_of_nodup hnodup (List.nodup_range.filter _)]
    intro i
    simp only [List.mem_map, Prod.exists, List.mem_filter, List.mem_range,
      decide_eq_true_eq, slotAt]
    constructor
    · rintro ⟨id, r, hmem, rfl⟩
      obtain ⟨hr, hne⟩ := (h id r).mp (OrdMap.mem_entries.mp hmem)
      have hi := (List.getElem?_eq_some_iff.mp hr).1
      exact ⟨hi, by simp [hr, hne]⟩
    · rintro ⟨hi, hlive⟩
      have hr : slots[i]? = some slots[i] := List.getElem?_eq_getElem hi
      obtain ⟨hnat, hf⟩ := h.find?_ofNat hlen hr (by simpa [hr] using hlive)
      exact ⟨UInt64.ofNat i, slots[i], OrdMap.mem_entries.mpr hf, hnat⟩
  have hrecords : orders.entries.map Prod.snd =
      (orders.entries.map fun e => e.1.toNat).map slotAt := by
    rw [List.map_map]
    refine List.map_congr_left ?_
    intro e he
    have hr := ((h e.1 e.2).mp (OrdMap.mem_entries.mp he)).1
    simp [slotAt, hr]
  calc orders.entries.map Prod.snd
      = (orders.entries.map fun e => e.1.toNat).map slotAt := hrecords
    List.Perm _ (((List.range slots.length).filter fun i => (slotAt i).qty ≠ 0).map slotAt) :=
      hkeys.map slotAt
    _ = ((List.range slots.length).map slotAt).filter fun r => r.qty ≠ 0 := by
      rw [List.filter_map]
      rfl
    _ = slots.filter fun r => r.qty ≠ 0 := by rw [← hslots]

/-- **The live map has as many entries as there are live slots.** -/
theorem SlotsHold.size_eq {slots : List Resting} {orders : Orders} (h : SlotsHold slots orders)
    (hlen : slots.length ≤ 2 ^ 64) : orders.size = slots.countP fun r => r.qty ≠ 0 := by
  rw [List.countP_eq_length_filter, ← (h.records_perm hlen).length_eq, List.length_map]
  rfl

/-- The dead slots add nothing to the live quantity. -/
theorem SlotsHold.sum_eq {slots : List Resting} {orders : Orders} (h : SlotsHold slots orders)
    (hlen : slots.length ≤ 2 ^ 64) : orders.sum Resting.qty = (slots.map Resting.qty).sum := by
  have hdead : ∀ l : List Resting,
      ((l.filter fun r => r.qty ≠ 0).map Resting.qty).sum = (l.map Resting.qty).sum := by
    intro l
    induction l with
    | nil => rfl
    | cons r l ih => by_cases hz : r.qty = 0 <;> simp_all
  rw [← hdead slots, ← ((h.records_perm hlen).map Resting.qty).sum_eq, List.map_map]
  rfl

end TunedBook
end LmaxBench.Cpp
