import LmaxBench.Cpp.TunedRun
import LmaxBench.Go.Book

/-!
# The Go book refines the C++ book

`Book.Holds` relates a Go book to the C++ book it represents: of each side, the tree holds
the prices of the levels, the map holds a level for each of them, and the unread part of a
level is the queue. While the relation holds no lookup is nil and no read is beyond the end
of a slice. The live map is assigned to, not emplaced into, so the C++ book is followed
under `applyAssign`; while no live id is used this is the C++ book itself.

## Main definitions

* `SideHolds`, `Book.Holds` — the representation relation.
* `Book.InStep` — prices and levels are in step.
* `Book.run_holds`, `Book.refines_cpp` — whole runs.
-/

namespace LmaxBench.Go

open Cpp (Resting Orders Levels FlatLevel)

/-! ## One side -/

/-- A tree of prices and a map of levels represent one side of the book. -/
structure SideHolds (prices : BTree) (levels : LevelMap) (m : Levels) : Prop where
  prices_eq : prices = m.mapVals fun _ => ()
  levels_eq : levels.mapVals FlatLevel.unread = m
  head_le : ∀ {p lvl}, levels.find? p = some lvl → lvl.head ≤ lvl.ids.length

namespace SideHolds
variable {prices : BTree} {levels : LevelMap} {m : Levels}

theorem find?_eq (h : SideHolds prices levels m) (p : ℤ) :
    m.find? p = (levels.find? p).map FlatLevel.unread := by
  rw [← h.levels_eq, OrdMap.find?_mapVals]

/-- Every price of the side has its level. -/
theorem exists_level (h : SideHolds prices levels m) {p : ℤ} {q : List UInt64}
    (hp : m.find? p = some q) :
    ∃ lvl, levels.find? p = some lvl ∧ lvl.unread = q ∧ lvl.head ≤ lvl.ids.length := by
  rw [h.find?_eq, Option.map_eq_some_iff] at hp
  obtain ⟨lvl, hlvl, hq⟩ := hp
  exact ⟨lvl, hlvl, hq, h.head_le hlvl⟩

/-- A level is written back, and dropped from both containers if it is empty. -/
theorem put (h : SideHolds prices levels m) (p : ℤ) {lvl : Level}
    (hlvl : lvl.head ≤ lvl.ids.length) {q : List UInt64} (hp : m.find? p = some q) :
    SideHolds (Book.putPrice prices p lvl) (Book.putLevel levels p lvl)
      (m.put p lvl.unread) := by
  have hunit : (m.mapVals fun _ => ()).insert p () = m.mapVals fun _ => () := by
    apply OrdMap.ext_find?
    intro p'
    rw [OrdMap.find?_insert, OrdMap.find?_mapVals]
    split
    case isTrue heq => rw [heq, hp]; rfl
    case isFalse => rfl
  cases he : lvl.empty with
  | true =>
    have hnil := (FlatLevel.empty_iff hlvl).mp he
    simp only [Book.putPrice, Book.putLevel, he, if_true, hnil, Levels.put, OrdMap.erase_insert]
    refine ⟨?_, ?_, ?_⟩
    · simp [h.prices_eq]
    · simp [h.levels_eq]
    · intro p' lvl' hp'
      rw [OrdMap.find?_erase] at hp'
      split at hp'
      · simp at hp'
      · exact h.head_le hp'
  | false =>
    have hne : lvl.unread ≠ [] := fun hnil => by
      rw [(FlatLevel.empty_iff hlvl).mpr hnil] at he
      simp at he
    simp only [Book.putPrice, Book.putLevel, he, Bool.false_eq_true, if_false, hne, Levels.put]
    refine ⟨?_, ?_, ?_⟩
    · simp [h.prices_eq, hunit]
    · simp [h.levels_eq]
    · intro p' lvl' hp'
      rw [OrdMap.find?_insert] at hp'
      split at hp'
      · rwa [← Option.some.inj hp']
      · exact h.head_le hp'

/-- A residual is appended to its level, which is created in both containers if needed. -/
theorem add (h : SideHolds prices levels m) (price : ℤ) (id : UInt64) :
    SideHolds (Book.addPrice prices levels price) (Book.addLevel levels price id)
      (m.pushBack price id) := by
  have hfind := h.find?_eq price
  have hpush : m.pushBack price id = m.insert price ((m.find? price).getD [] ++ [id]) := by
    apply OrdMap.ext_find?
    intro p
    rw [Levels.find?_pushBack, OrdMap.find?_insert]
  cases hl : levels.find? price with
  | some lvl =>
    have hlvl := h.head_le hl
    rw [hl] at hfind
    simp only [Book.addPrice, Book.addLevel, hl]
    refine ⟨?_, ?_, ?_⟩
    · rw [h.prices_eq, hpush, OrdMap.mapVals_insert]
      apply OrdMap.ext_find?
      intro p
      rw [OrdMap.find?_insert, OrdMap.find?_mapVals]
      split
      case isTrue heq => rw [heq, hfind]; rfl
      case isFalse => rfl
    · rw [OrdMap.mapVals_insert, h.levels_eq, hpush, hfind, FlatLevel.unread_push hlvl]
      rfl
    · intro p lvl' hp
      rw [OrdMap.find?_insert] at hp
      split at hp
      · rw [← Option.some.inj hp]
        simp only [FlatLevel.push, List.length_append]
        omega
      · exact h.head_le hp
  | none =>
    rw [hl] at hfind
    simp only [Book.addPrice, Book.addLevel, hl]
    refine ⟨?_, ?_, ?_⟩
    · simp [h.prices_eq, hpush]
    · rw [OrdMap.mapVals_insert, h.levels_eq, hpush, hfind]
      rfl
    · intro p lvl' hp
      rw [OrdMap.find?_insert] at hp
      split at hp
      · rw [← Option.some.inj hp]
        exact Nat.zero_le _
      · exact h.head_le hp

theorem empty : SideHolds ∅ ∅ ∅ where
  prices_eq := rfl
  levels_eq := rfl
  head_le := by simp

end SideHolds

namespace Book

theorem sideBid_eq : sideBid = Cpp.sideBid := rfl

/-! ## The inner loop -/

/-- The inner loop is in the state of the inner loop of the C++ book. -/
structure DrainHolds (d : Cpp.Book.Drain) (f : Drain) : Prop where
  head_le : f.lvl.head ≤ f.lvl.ids.length
  unread_eq : f.lvl.unread = d.lvl
  orders_eq : f.orders = d.orders
  qty_eq : f.qty = d.qty
  fills_eq : f.fills = d.fills
  volume_eq : f.volume = d.volume

theorem DrainHolds.variant_eq {d : Cpp.Book.Drain} {f : Drain} (h : DrainHolds d f) :
    f.variant = d.variant := by
  rw [Drain.variant, Cpp.Book.Drain.variant, h.qty_eq, ← h.unread_eq, FlatLevel.unread,
    List.length_drop]

/-- **The two inner loops go round in step.** -/
theorem drain_holds {d : Cpp.Book.Drain} {f : Drain} (h : DrainHolds d f) :
    ∃ f', drain f = some f' ∧ DrainHolds (Cpp.Book.drain d) f' := by
  refine Loop.tryExec_sim_of_lt Cpp.Book.drain_variant DrainHolds ?_ ?_ h
  · intro d f h hd
    rcases Cpp.Book.drainStep_eq_none.mp hd with hq | hl
    · simp [drainStep, h.qty_eq, not_lt.mpr hq]
    · have he : f.lvl.empty = true := (FlatLevel.empty_iff h.head_le).mpr (h.unread_eq.trans hl)
      simp [drainStep, he]
  · intro d f d' h hd
    -- the variants of related states are the same
    suffices hnext : ∃ f', drainStep f = some (some f') ∧ DrainHolds d' f' by
      obtain ⟨f', hf', h'⟩ := hnext
      refine ⟨f', hf', h', ?_⟩
      rw [h.variant_eq, h'.variant_eq]
      exact Cpp.Book.drain_variant d d' hd
    obtain ⟨hq, head, rest, hlvl, hcase⟩ := Cpp.Book.drainStep_cases hd
    have hstands : f.lvl.Stands (head :: rest) := ⟨h.head_le, h.unread_eq.trans hlvl⟩
    have hfront := hstands.front
    have hne := hstands.not_empty
    have hq' : 0 < f.qty := h.qty_eq ▸ hq
    rcases hcase with ⟨hdead, rfl⟩ | ⟨r, hr, htally, hcase⟩
    · -- a stale entry
      have hpop := hstands.pop
      refine ⟨{ f with lvl := f.lvl.pop }, ?_,
        { h with head_le := hpop.head_le, unread_eq := hpop.unread_eq }⟩
      simp [drainStep, hq', hne, hfront, h.orders_eq, hdead]
    · -- a fill
      have hr' : f.orders.find? head = some r := h.orders_eq ▸ hr
      have horders : d'.orders = _ := congrArg Cpp.Book.Tally.orders htally
      have hqty : d'.qty = _ := congrArg Cpp.Book.Tally.qty htally
      have hfills : d'.fills = _ := congrArg Cpp.Book.Tally.fills htally
      have hvolume : d'.volume = _ := congrArg Cpp.Book.Tally.volume htally
      have hstep : drainStep f = some (some
          { lvl := if r.qty - min f.qty r.qty = 0 then f.lvl.pop else f.lvl
            orders := if r.qty - min f.qty r.qty = 0 then f.orders.erase head
              else f.orders.insert head { r with qty := r.qty - min f.qty r.qty }
            qty := f.qty - min f.qty r.qty
            fills := f.fills + 1
            volume := f.volume + UInt64.ofInt (min f.qty r.qty) }) := by
        simp only [drainStep, hq', if_true, hne, Bool.false_eq_true, if_false, hfront,
          Option.bind_eq_bind, Option.bind_some, hr']
      refine ⟨_, hstep, ?_⟩
      simp only [Cpp.Book.Tally.fill, Cpp.Book.Drain.tally] at horders hqty hfills hvolume
      rw [h.qty_eq, h.orders_eq, h.fills_eq, h.volume_eq]
      have hfill := hstands.fill (hcase.imp_right fun hmaker => ⟨hmaker.1, hmaker.2.2.trans hlvl⟩)
      exact ⟨hfill.head_le, hfill.unread_eq, horders.symm, hqty.symm, hfills.symm, hvolume.symm⟩

/-! ## The representation relation -/

/-- The Go book `g` represents the C++ book `b`. -/
structure Holds (g : Book) (b : Cpp.Book) : Prop where
  bids : SideHolds g.bidPrices g.bidLevels b.bids
  asks : SideHolds g.askPrices g.askLevels b.asks
  orders_eq : g.orders = b.orders
  fills_eq : g.fills = b.fills
  volume_eq : g.volume = b.volume

theorem Holds.opposite {g : Book} {b : Cpp.Book} (h : Holds g b) (side : UInt8) :
    SideHolds (g.oppositePrices side) (g.oppositeLevels side) (b.opposite side) := by
  rw [oppositePrices, oppositeLevels, Cpp.Book.opposite]
  by_cases hs : side = Cpp.sideBid
  · simp only [sideBid_eq, hs, if_true]
    exact h.asks
  · simp only [sideBid_eq, hs, if_false]
    exact h.bids

theorem Holds.bestCrossing {g : Book} {b : Cpp.Book} (h : Holds g b) (side : UInt8) (price : ℤ) :
    g.bestCrossing side price = (b.bestCrossing side price).map Prod.fst := by
  simp only [Book.bestCrossing, Cpp.Book.bestCrossing, sideBid_eq]
  by_cases hs : side = Cpp.sideBid
  · simp only [hs, if_true, h.asks.prices_eq, OrdMap.first?_mapVals]
    cases b.asks.first? with
    | none => rfl
    | some it => by_cases hp : it.1 > price <;> simp [hp]
  · simp only [hs, if_false, h.bids.prices_eq, OrdMap.last?_mapVals]
    cases b.bids.last? with
    | none => rfl
    | some it => by_cases hp : it.1 < price <;> simp [hp]

theorem Holds.writeBack {g : Book} {b : Cpp.Book} (h : Holds g b) {side : UInt8} {p : ℤ}
    {q : List UInt64} (hp : (b.opposite side).find? p = some q) {d : Cpp.Book.Drain} {f : Drain}
    (hd : DrainHolds d f) : Holds (g.writeBack side p f) (b.writeBack side p d) := by
  have hput := (h.opposite side).put p hd.head_le hp
  rw [hd.unread_eq] at hput
  rw [Book.writeBack, Cpp.Book.writeBack]
  by_cases hs : side = Cpp.sideBid
  · simp only [oppositePrices, oppositeLevels, Cpp.Book.opposite, sideBid_eq, hs, if_true] at hput ⊢
    exact ⟨h.bids, hput, hd.orders_eq, hd.fills_eq, hd.volume_eq⟩
  · simp only [oppositePrices, oppositeLevels, Cpp.Book.opposite, sideBid_eq, hs, if_false]
      at hput ⊢
    exact ⟨hput, h.asks, hd.orders_eq, hd.fills_eq, hd.volume_eq⟩

/-! ## The outer loop -/

/-- The two outer loops are in the same state. -/
structure SweepHolds (s : Cpp.Book.Sweep) (f : Sweep) : Prop where
  book : Holds f.book s.book
  qty_eq : f.qty = s.qty

theorem SweepHolds.variant_eq {s : Cpp.Book.Sweep} {f : Sweep} (h : SweepHolds s f) (side : UInt8) :
    Sweep.variant side f = Cpp.Book.Sweep.variant side s := by
  rw [Sweep.variant, Cpp.Book.Sweep.variant, h.qty_eq, (h.book.opposite side).prices_eq,
    OrdMap.size_mapVals]

/-- **The two outer loops go round in step.** -/
theorem sweep_holds (side : UInt8) (price : ℤ) {s : Cpp.Book.Sweep} {f : Sweep}
    (h : SweepHolds s f) :
    ∃ f', sweep side price f = some f' ∧ SweepHolds (Cpp.Book.sweep side price s) f' := by
  refine Loop.tryExec_sim_of_lt (Cpp.Book.sweep_variant side price) SweepHolds ?_ ?_ h
  · intro s f h hs
    rcases Cpp.Book.sweepStep_eq_none.mp hs with hq | hno
    · simp [sweepStep, h.qty_eq, not_lt.mpr hq]
    · simp [sweepStep, h.book.bestCrossing, hno]
  · intro s f s' h hs
    suffices hnext : ∃ f', sweepStep side price f = some (some f') ∧ SweepHolds s' f' by
      obtain ⟨f', hf', h'⟩ := hnext
      refine ⟨f', hf', h', ?_⟩
      rw [h.variant_eq, h'.variant_eq]
      exact Cpp.Book.sweep_variant side price s s' hs
    obtain ⟨hq, p, lvl, l, hl, hx, rfl⟩ := Cpp.Book.sweepStep_cases hs
    have hp : (s.book.opposite side).find? p = some lvl :=
      Cpp.Book.mem_bestFirst.mp (hl ▸ List.mem_cons_self)
    have hbest : f.book.bestCrossing side price = some p := by
      rw [h.book.bestCrossing, Cpp.Book.bestCrossing_eq_some.mpr ⟨hx, l, hl⟩]
      rfl
    obtain ⟨glvl, hglvl, hunread, hle⟩ := (h.book.opposite side).exists_level hp
    have hstart : DrainHolds ⟨lvl, s.book.orders, s.qty, s.book.fills, s.book.volume, s.log⟩
        ⟨glvl, f.book.orders, f.qty, f.book.fills, f.book.volume⟩ :=
      ⟨hle, hunread, h.book.orders_eq, h.qty_eq, h.book.fills_eq, h.book.volume_eq⟩
    obtain ⟨d, hd, hD⟩ := drain_holds hstart
    refine ⟨⟨f.book.writeBack side p d, d.qty⟩, ?_, ⟨h.book.writeBack hp hD, hD.qty_eq⟩⟩
    have hq' : 0 < f.qty := h.qty_eq ▸ hq
    simp only [sweepStep, hq', if_true, hbest, hglvl, hd, Option.bind_eq_bind, Option.bind_some]

/-! ## The operations -/

/-- **`limit` refines**, and neither looks up a missing level nor reads beyond a slice. -/
theorem limit_holds {g : Book} {b : Cpp.Book} (h : Holds g b) (side : UInt8) (price qty : ℤ)
    (id : UInt64) :
    ∃ g', g.limit side price qty id = some g' ∧ Holds g' (b.limitAssign side price qty id) := by
  obtain ⟨f, hf, hR⟩ := sweep_holds side price (s := { book := b, qty }) (f := { book := g, qty })
    ⟨h, rfl⟩
  rw [limit, Cpp.Book.limitAssign]
  generalize Cpp.Book.sweep side price { book := b, qty } = s at hR
  simp only [hf, Option.bind_eq_bind, Option.bind_some, hR.qty_eq]
  split
  case isFalse => exact ⟨f.book, rfl, hR.book⟩
  case isTrue hq =>
    refine ⟨_, rfl, ?_⟩
    rw [Cpp.Book.rest]
    by_cases hs : side = Cpp.sideBid
    · simp only [sideBid_eq, hs, if_true]
      exact ⟨hR.book.bids.add price id, hR.book.asks, by simp only [hR.book.orders_eq],
        hR.book.fills_eq, hR.book.volume_eq⟩
    · simp only [sideBid_eq, hs, if_false]
      exact ⟨hR.book.bids, hR.book.asks.add price id, by simp only [hR.book.orders_eq],
        hR.book.fills_eq, hR.book.volume_eq⟩

theorem cancel_holds {g : Book} {b : Cpp.Book} (h : Holds g b) (id : UInt64) :
    Holds (g.cancel id) (b.cancel id) :=
  ⟨h.bids, h.asks, by rw [cancel, Cpp.Book.cancel, h.orders_eq], h.fills_eq, h.volume_eq⟩

/-- **The checksums agree**, and computing it neither looks up a missing level nor reads
beyond a slice. -/
theorem checksum_holds {g : Book} {b : Cpp.Book} (h : Holds g b) :
    g.checksum = some b.checksum := by
  have hside : ∀ {prices levels m}, SideHolds prices levels m → ∀ acc,
      foldSide g.orders prices levels acc = some (Cpp.Book.foldSide b.orders acc m) := by
    intro prices levels m hm acc
    rw [foldSide, Cpp.Book.foldSide, hm.prices_eq, OrdMap.mapVals, List.foldlM_map]
    refine Cpp.TunedBook.foldlM_eq_some (fun e he acc => ?_) acc
    obtain ⟨lvl, hlvl, hunread, hle⟩ := hm.exists_level (OrdMap.mem_entries.mp he)
    simp only [hlvl, Option.bind_eq_bind, Option.bind_some, foldLevel, if_pos hle, ← hunread,
      h.orders_eq]
    rfl
  rw [checksum, Cpp.Book.checksum, hside h.bids]
  exact hside h.asks _

/-! ## Runs -/

theorem apply_holds {g : Book} {b : Cpp.Book} (h : Holds g b) (op : Cpp.Op) :
    ∃ g', g.apply op = some g' ∧ Holds g' (b.applyAssign op) := by
  cases op with
  | limit side price qty id => exact limit_holds h side price qty id
  | cancel id => exact ⟨_, rfl, cancel_holds h id⟩

/-- **No run of the Go book panics**, whatever ids it uses, and it represents the C++ book
whose live map overwrites. -/
theorem run_holds (ops : List Cpp.Op) :
    ∃ g, run ops = some g ∧ Holds g (ops.foldl Cpp.Book.applyAssign {}) := by
  have hfold : ∀ g b, Holds g b →
      ∃ g', ops.foldlM apply g = some g' ∧ Holds g' (ops.foldl Cpp.Book.applyAssign b) := by
    induction ops with
    | nil => exact fun g b h => ⟨g, rfl, h⟩
    | cons op ops ih =>
      intro g b h
      obtain ⟨g₁, hg₁, h₁⟩ := apply_holds h op
      rw [List.foldlM_cons, hg₁, List.foldl_cons]
      exact ih g₁ _ h₁
  exact hfold {} {} ⟨SideHolds.empty, SideHolds.empty, rfl, rfl, rfl⟩

/-- The tree and the map of a side have the same keys, and no level is empty. -/
structure SideInStep (prices : BTree) (levels : LevelMap) : Prop where
  keys_eq : ∀ p, prices.find? p = some () ↔ ∃ lvl, levels.find? p = some lvl
  nonempty : ∀ {p lvl}, levels.find? p = some lvl → lvl.head < lvl.ids.length

/-- Both sides are in step. -/
structure InStep (g : Book) : Prop where
  bids : SideInStep g.bidPrices g.bidLevels
  asks : SideInStep g.askPrices g.askLevels

theorem SideHolds.inStep {prices : BTree} {levels : LevelMap} {m : Levels}
    (h : SideHolds prices levels m) (hm : m.Nonempty) : SideInStep prices levels where
  keys_eq := by
    intro p
    rw [h.prices_eq, OrdMap.find?_mapVals, h.find?_eq]
    cases levels.find? p <;> simp
  nonempty := by
    intro p lvl hlvl
    have hne := hm p lvl.unread (by rw [h.find?_eq, hlvl]; rfl)
    rw [FlatLevel.unread, ne_eq, List.drop_eq_nil_iff] at hne
    omega

/-- **The Go book keeps its two structures in step and agrees with the C++ book.** Whatever
ids a run uses, it does not panic, prices and levels are in step, no level is empty, and
the checksum can be computed; and if no limit uses a live id, the statistics are those of
the C++ book after every prefix. -/
theorem refines_cpp (ops : List Cpp.Op) :
    (∃ g, run ops = some g ∧ g.InStep ∧ g.checksum.isSome) ∧
      (Cpp.Book.NoLiveReuse {} ops → ∀ pre, pre <+: ops →
        ∃ g, run pre = some g ∧ g.fills = (Cpp.Book.run pre).fills ∧
          g.volume = (Cpp.Book.run pre).volume ∧
          g.orders.size = (Cpp.Book.run pre).resting ∧
          g.checksum = some (Cpp.Book.run pre).checksum) := by
  constructor
  · obtain ⟨g, hg, h⟩ := run_holds ops
    have hwf := Cpp.Book.wellFormed_foldl_applyAssign Cpp.Book.wellFormed_empty ops
    refine ⟨g, hg, ⟨SideHolds.inStep h.bids hwf.bids_nonempty,
      SideHolds.inStep h.asks hwf.asks_nonempty⟩, ?_⟩
    rw [checksum_holds h]
    rfl
  · intro hreuse pre hpre
    obtain ⟨g, hg, h⟩ := run_holds pre
    rw [Cpp.Book.foldl_applyAssign (hreuse.of_prefix hpre)] at h
    exact ⟨g, hg, h.fills_eq, h.volume_eq, congrArg OrdMap.size h.orders_eq, checksum_holds h⟩

theorem refines_partial_fill :
    ∃ g, run [.limit 0 10 5 1, .limit 0 12 4 2, .limit 1 9 6 3, .cancel 1] = some g ∧
      g.fills = (Cpp.Book.run [.limit 0 10 5 1, .limit 0 12 4 2, .limit 1 9 6 3, .cancel 1]).fills ∧
      g.volume = (Cpp.Book.run
        [.limit 0 10 5 1, .limit 0 12 4 2, .limit 1 9 6 3, .cancel 1]).volume ∧
      g.orders.size =
        (Cpp.Book.run [.limit 0 10 5 1, .limit 0 12 4 2, .limit 1 9 6 3, .cancel 1]).resting ∧
      g.checksum =
        some (Cpp.Book.run
          [.limit 0 10 5 1, .limit 0 12 4 2, .limit 1 9 6 3, .cancel 1]).checksum :=
  (refines_cpp [.limit 0 10 5 1, .limit 0 12 4 2, .limit 1 9 6 3, .cancel 1]).2
    (by decide +kernel) _ (List.prefix_refl _)

end Book
end LmaxBench.Go
