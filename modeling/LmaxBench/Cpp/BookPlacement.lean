import Mathlib.Data.List.Induction
import Mathlib.Data.List.Nodup
import LmaxBench.Cpp.BookInvariant

/-!
# Where the orders of the idiomatic book are

The two halves of the book, the live map and the level queues, are updated by separate
statements. `Placed` ties both to the operations that led to the book: every queue lists
ids submitted on its side and at its price, in the order of their submission, and every
live record has its entry in the level of its own price.

While no id is used twice, this pins the two halves to each other: an id stands in one
queue only, once, and the checksum folds each live order once.

## Main definitions

* `limitIds`, `NeverReused`, `submitted` — what a sequence of operations submits.
* `Book.Placed`, `Book.placed_run` — the invariant.
* `Book.queueIds`, `Book.folded` — the queue entries, and the records of the checksum.
* `Book.Placed.queueIds_nodup`, `Book.Placed.folded_perm` — uniqueness.
-/

namespace LmaxBench.Cpp

/-- The ids the limits of a sequence use, in order. -/
def limitIds (ops : List Op) : List UInt64 :=
  ops.filterMap fun
    | .limit _ _ _ id => some id
    | .cancel _ => none

/-- No limit uses the id of an earlier limit. -/
def NeverReused (ops : List Op) : Prop := (limitIds ops).Nodup

instance (ops : List Op) : Decidable (NeverReused ops) :=
  inferInstanceAs (Decidable (limitIds ops).Nodup)

/-- The ids submitted on one side at one price, in order. -/
def submitted (side : UInt8) (p : ℤ) (ops : List Op) : List UInt64 :=
  ops.filterMap fun
    | .limit side' price _ id =>
      if (side' = sideBid ↔ side = sideBid) ∧ price = p then some id else none
    | .cancel _ => none

@[simp] theorem limitIds_append (ops ops' : List Op) :
    limitIds (ops ++ ops') = limitIds ops ++ limitIds ops' :=
  List.filterMap_append

@[simp] theorem submitted_append (side : UInt8) (p : ℤ) (ops ops' : List Op) :
    submitted side p (ops ++ ops') = submitted side p ops ++ submitted side p ops' :=
  List.filterMap_append

theorem NeverReused.of_prefix {pre ops : List Op} (h : NeverReused ops) (hpre : pre <+: ops) :
    NeverReused pre := by
  obtain ⟨post, rfl⟩ := hpre
  rw [NeverReused] at h ⊢
  rw [limitIds_append] at h
  exact h.of_append_left

theorem submitted_sublist (side : UInt8) (p : ℤ) (ops : List Op) :
    (submitted side p ops).Sublist (limitIds ops) := by
  induction ops with
  | nil => exact List.Sublist.slnil
  | cons op ops ih =>
    have happ : ∀ l : List Op,
        submitted side p (op :: l) = submitted side p [op] ++ submitted side p l :=
      fun l => submitted_append side p [op] l
    have happ' : ∀ l : List Op, limitIds (op :: l) = limitIds [op] ++ limitIds l :=
      fun l => limitIds_append [op] l
    rw [happ, happ']
    refine List.Sublist.append ?_ ih
    cases op with
    | cancel id => exact List.Sublist.slnil
    | limit side' price qty id =>
      by_cases h : (side' = sideBid ↔ side = sideBid) ∧ price = p
      · simp [submitted, limitIds, h]
      · simp [submitted, limitIds, h]

theorem mem_submitted {side : UInt8} {p : ℤ} {ops : List Op} {id : UInt64} :
    id ∈ submitted side p ops ↔
      ∃ side' qty, Op.limit side' p qty id ∈ ops ∧ (side' = sideBid ↔ side = sideBid) := by
  rw [submitted]
  rw [List.mem_filterMap]
  constructor
  · rintro ⟨op, hop, h⟩
    cases op with
    | cancel => simp at h
    | limit side' price qty id' =>
      simp only [Option.ite_none_right_eq_some, Option.some.injEq] at h
      obtain ⟨⟨hs, rfl⟩, rfl⟩ := h
      exact ⟨side', qty, hop, hs⟩
  · rintro ⟨side', qty, hop, hs⟩
    exact ⟨_, hop, by simp [hs]⟩

@[simp] theorem mem_limitIds {ops : List Op} {id : UInt64} :
    id ∈ limitIds ops ↔ ∃ side price qty, Op.limit side price qty id ∈ ops := by
  rw [limitIds]
  rw [List.mem_filterMap]
  constructor
  · rintro ⟨op, hop, h⟩
    cases op with
    | cancel => simp at h
    | limit side price qty id' =>
      obtain rfl : id' = id := by simpa using h
      exact ⟨side, price, qty, hop⟩
  · rintro ⟨side, price, qty, hop⟩
    exact ⟨_, hop, rfl⟩

/-- The id of a limit is not that of an earlier one. -/
theorem NeverReused.not_mem_of_append {ops : List Op} {side : UInt8} {price qty : ℤ} {id : UInt64}
    (h : NeverReused (ops ++ [.limit side price qty id])) : id ∉ limitIds ops := by
  simp only [NeverReused, limitIds_append] at h
  exact fun hmem => List.disjoint_of_nodup_append h hmem (by simp [limitIds])

/-- An id that is used once is submitted once. -/
theorem NeverReused.eq_of_mem {ops : List Op} (h : NeverReused ops) {id : UInt64}
    {side side' : UInt8} {price price' qty qty' : ℤ} (hop : Op.limit side price qty id ∈ ops)
    (hop' : Op.limit side' price' qty' id ∈ ops) :
    side = side' ∧ price = price' ∧ qty = qty' := by
  induction ops with
  | nil => simp at hop
  | cons op ops ih =>
    have hnodup : (limitIds [op] ++ limitIds ops).Nodup := by
      rw [← limitIds_append]
      exact h
    have hdisj := List.disjoint_of_nodup_append hnodup
    have hhead : ∀ {side price qty}, Op.limit side price qty id = op → id ∈ limitIds [op] := by
      intro side price qty heq
      simp [limitIds, ← heq]
    rcases List.mem_cons.mp hop with heq | hmem <;> rcases List.mem_cons.mp hop' with heq' | hmem'
    · simpa using heq.trans heq'.symm
    · exact (hdisj (hhead heq) (mem_limitIds.mpr ⟨_, _, _, hmem'⟩)).elim
    · exact (hdisj (hhead heq') (mem_limitIds.mpr ⟨_, _, _, hmem⟩)).elim
    · exact ih hnodup.of_append_right hmem hmem'

namespace Book

/-! ## The invariant -/

/-- The queues and the live map of `b`, against the operations that led to it. -/
structure Placed (ops : List Op) (b : Book) : Prop where
  queue : ∀ (side : UInt8) {p lvl}, (b.own side).find? p = some lvl →
    lvl.Sublist (submitted side p ops)
  record : ∀ {id r}, b.orders.find? id = some r → ∃ side qty lvl,
    Op.limit side r.price qty id ∈ ops ∧ r.qty ≤ qty ∧
      (b.own side).find? r.price = some lvl ∧ id ∈ lvl

theorem placed_empty : ({} : Book).Placed [] := by
  constructor <;> simp [own]

theorem own_writeBack_eq (b : Book) (side side' : UInt8) (p : ℤ) (d : Drain) :
    (b.writeBack side p d).own side' =
      if side' = sideBid ↔ side = sideBid then b.own side'
      else Levels.put (b.own side') p d.lvl := by
  simp only [own, writeBack]
  by_cases hs : side = sideBid <;> by_cases hs' : side' = sideBid <;> simp [hs, hs']

theorem opposite_eq_own {side side' : UInt8} (h : ¬ (side' = sideBid ↔ side = sideBid)) (b : Book) :
    b.opposite side = b.own side' := by
  rw [own, opposite]
  by_cases hs : side = sideBid <;> by_cases hs' : side' = sideBid <;> simp_all

theorem own_rest_eq (b : Book) (side side' : UInt8) (price qty : ℤ) (id : UInt64) :
    (b.rest side price qty id).own side' =
      if side' = sideBid ↔ side = sideBid then Levels.pushBack (b.own side') price id
      else b.own side' := by
  simp only [own, rest]
  by_cases hs : side = sideBid <;> by_cases hs' : side' = sideBid <;> simp [hs, hs']

theorem placed_sweepStep {ops : List Op} {side : UInt8} {price : ℤ} {s s' : Sweep}
    (h : s.book.Placed ops) (hstep : sweepStep side price s = some s') : s'.book.Placed ops := by
  obtain ⟨-, p, lvl, l, hl, -, rfl⟩ := sweepStep_cases hstep
  have hp : (s.book.opposite side).find? p = some lvl :=
    mem_bestFirst.mp (hl ▸ List.mem_cons_self)
  constructor
  · intro side' p' lvl' hp'
    rw [own_writeBack_eq] at hp'
    split at hp'
    case isTrue => exact h.queue side' hp'
    case isFalse hs =>
      rw [Levels.find?_put] at hp'
      split at hp'
      case isTrue heq =>
        split at hp'
        · simp at hp'
        · have hle := h.queue side' (opposite_eq_own hs s.book ▸ hp)
          rw [heq, ← Option.some.inj hp']
          exact (drain_suffix _).sublist.trans hle
      case isFalse => exact h.queue side' hp'
  · intro id r hr
    obtain ⟨⟨r₀, hr₀, hprice, hqty⟩, hmem⟩ := live_drain (s := ⟨lvl, _, _, _, _, _⟩) hr
    obtain ⟨side', qty, lvl', hop, hle, hlvl', hid⟩ := h.record hr₀
    refine ⟨side', qty, ?_⟩
    rw [own_writeBack_eq, hprice]
    split
    case isTrue => exact ⟨lvl', hop, hqty.trans hle, hlvl', hid⟩
    case isFalse hs =>
      rw [Levels.find?_put]
      split
      case isTrue heq =>
        rw [opposite_eq_own hs, ← heq, hlvl'] at hp
        have hid' : id ∈ (s.drainOf lvl).lvl := hmem (Option.some.inj hp ▸ hid)
        rw [if_neg (List.ne_nil_of_mem hid')]
        exact ⟨_, hop, hqty.trans hle, rfl, hid'⟩
      case isFalse => exact ⟨lvl', hop, hqty.trans hle, hlvl', hid⟩

theorem Placed.mono {ops : List Op} {b : Book} (h : b.Placed ops) (op : Op) :
    b.Placed (ops ++ [op]) where
  queue := by
    intro side p lvl hp
    rw [submitted_append]
    exact (h.queue side hp).trans (List.sublist_append_left _ _)
  record := by
    intro id r hr
    obtain ⟨side, qty, lvl, hop, h⟩ := h.record hr
    exact ⟨side, qty, lvl, List.mem_append_left _ hop, h⟩

/-- The taker's remaining quantity only falls. -/
theorem qty_sweep_le (side : UInt8) (price : ℤ) {s : Sweep} (hs : s.book.WellFormed) :
    (sweep side price s).qty ≤ s.qty := by
  have hpos : ∀ t : Sweep, t.book.WellFormed → t.qty ≤ s.qty →
      ∀ t', sweepStep side price t = some t' → t'.qty ≤ s.qty := by
    intro t ht hle t' hstep
    obtain ⟨-, p, lvl, l, -, -, rfl⟩ := sweepStep_cases hstep
    have hdrain := drain_invariant
      (fun d => (∀ id r, d.orders.find? id = some r → 0 < r.qty) ∧ d.qty ≤ s.qty) ?_
      (s := ⟨lvl, t.book.orders, t.qty, t.book.fills, t.book.volume, t.log⟩)
      ⟨fun _ _ hr => ht.positive hr, hle⟩
    · exact hdrain.2
    · rintro d d' ⟨hd, hle⟩ hdstep
      obtain ⟨hq, head, rest, -, ⟨-, rfl⟩ | ⟨r', hr', htally, -⟩⟩ := drainStep_cases hdstep
      · exact ⟨hd, hle⟩
      · have horders : d'.orders = (d.tally.fill head r').orders := congrArg Tally.orders htally
        have hqty : d'.qty = d.qty - min d.qty r'.qty := congrArg Tally.qty htally
        have hr0 := hd head r' hr'
        refine ⟨fun id r hr => ?_, by rw [hqty]; omega⟩
        rw [horders] at hr
        rcases Tally.find?_fill hr with hr | ⟨-, hlt, rfl⟩
        · exact hd id r hr
        · have hlt' : d.qty < r'.qty := hlt
          simp only [Drain.tally]
          omega
  exact (sweep_invariant (fun t => t.book.WellFormed ∧ t.qty ≤ s.qty)
    (fun t t' h hstep => ⟨wellFormed_sweepStep h.1 hstep, hpos t h.1 h.2 t' hstep⟩) ⟨hs, le_rfl⟩).2

theorem placed_apply {ops : List Op} {b : Book} (h : b.Placed ops) (hwf : b.WellFormed) {op : Op}
    (hfresh : b.Fresh op) : (b.apply op).Placed (ops ++ [op]) := by
  cases op with
  | cancel id =>
    refine ⟨fun side p lvl hp => (h.mono _).queue side hp, fun {id' r} hr => ?_⟩
    simp only [apply, cancel, OrdMap.find?_erase] at hr
    split at hr
    · simp at hr
    · exact (h.mono _).record hr
  | limit side price qty id =>
    have hs : (sweep side price { book := b, qty }).book.Placed ops :=
      sweep_invariant (fun s => s.book.Placed ops) (fun _ _ h hstep => placed_sweepStep h hstep) h
    have hnone := find?_sweep_none side price (s := { book := b, qty }) hfresh
    have hle := qty_sweep_le side price (s := { book := b, qty }) hwf
    simp only [apply, limit]
    generalize sweep side price { book := b, qty } = s at hs hnone hle
    split
    case isFalse => exact hs.mono _
    case isTrue hq =>
      have hmono := hs.mono (.limit side price qty id)
      constructor
      · intro side' p lvl hp
        rw [own_rest_eq] at hp
        split at hp
        case isFalse => exact hmono.queue side' hp
        case isTrue hside =>
          rw [Levels.find?_pushBack] at hp
          split at hp
          case isFalse => exact hmono.queue side' hp
          case isTrue heq =>
            have hsub : submitted side' p (ops ++ [.limit side price qty id]) =
                submitted side' p ops ++ [id] := by
              rw [submitted_append]
              simp [submitted, hside, heq]
            rw [hsub, ← Option.some.inj hp, heq]
            refine List.Sublist.append ?_ (List.Sublist.refl _)
            cases hf : (s.book.own side').find? price with
            | none => exact List.nil_sublist _
            | some lvl' => exact hs.queue side' hf
      · intro id' r hr
        simp only [rest] at hr
        rw [OrdMap.find?_emplace] at hr
        split at hr
        case isTrue heq =>
          rw [hnone] at hr
          obtain rfl : (⟨price, s.qty⟩ : Resting) = r := by simpa using hr
          refine ⟨side, qty, ((s.book.own side).find? price).getD [] ++ [id], ?_, hle, ?_, ?_⟩
          · rw [heq]
            exact List.mem_append_right _ List.mem_cons_self
          · simp
          · rw [heq]
            exact List.mem_append_right _ List.mem_cons_self
        case isFalse =>
          obtain ⟨side', qty', lvl, hop, hqty, hlvl, hid⟩ := hmono.record hr
          by_cases hside : (side' = sideBid ↔ side = sideBid) ∧ r.price = price
          · refine ⟨side', qty', lvl ++ [id], hop, hqty, ?_, List.mem_append_left _ hid⟩
            rw [own_rest_eq, if_pos hside.1, Levels.find?_pushBack, if_pos hside.2, ← hside.2, hlvl]
            rfl
          · refine ⟨side', qty', lvl, hop, hqty, ?_, hid⟩
            rw [own_rest_eq]
            split
            · rename_i hs'
              rw [Levels.find?_pushBack, if_neg fun heq => hside ⟨hs', heq⟩, hlvl]
            · exact hlvl

theorem NoLiveReuse.append {b : Book} {ops : List Op} {op : Op} (h : b.NoLiveReuse (ops ++ [op])) :
    b.NoLiveReuse ops ∧ (ops.foldl apply b).Fresh op := by
  induction ops generalizing b with
  | nil => exact ⟨trivial, h.1⟩
  | cons op' ops ih => exact ⟨⟨h.1, (ih h.2).1⟩, (ih h.2).2⟩

@[simp] theorem run_append (ops : List Op) (op : Op) : run (ops ++ [op]) = (run ops).apply op := by
  simp [run]

/-- **Where the orders are, after any run** that uses no live id. -/
theorem placed_run {ops : List Op} (h : NoLiveReuse {} ops) : (run ops).Placed ops := by
  induction ops using List.reverseRecOn with
  | nil => exact placed_empty
  | append_singleton ops op ih =>
    obtain ⟨hops, hop⟩ := h.append
    rw [run_append]
    exact placed_apply (ih hops) (wellFormed_run ops) hop

/-- An id that was never used is not live. -/
theorem Placed.fresh {ops : List Op} {b : Book} (h : b.Placed ops) {op : Op}
    (hops : NeverReused (ops ++ [op])) : b.Fresh op := by
  cases op with
  | cancel => trivial
  | limit side price qty id =>
    cases hf : b.orders.find? id with
    | none => exact hf
    | some r =>
      rcases h.record hf with ⟨side', qty', -, hop, -⟩
      exact absurd (mem_limitIds.mpr ⟨_, _, _, hop⟩) hops.not_mem_of_append

/-- Ids that are never used twice are in particular not used while live. -/
theorem noLiveReuse_of_neverReused {ops : List Op} (h : NeverReused ops) : NoLiveReuse {} ops := by
  induction ops using List.reverseRecOn with
  | nil => trivial
  | append_singleton ops op ih =>
    have hops := ih (h.of_prefix (List.prefix_append _ _))
    have hfresh : (run ops).Fresh op := (placed_run hops).fresh h
    have hall : ∀ (ops : List Op) (b : Book), b.NoLiveReuse ops → (ops.foldl apply b).Fresh op →
        b.NoLiveReuse (ops ++ [op]) := by
      intro ops
      induction ops with
      | nil => exact fun b _ hop => ⟨hop, trivial⟩
      | cons op' ops ih => exact fun b h hop => ⟨h.1, ih _ h.2 hop⟩
    exact hall ops {} hops hfresh

/-! ## The queue entries of a book -/

/-- The entries of one side, in ascending price order. -/
def queued (m : Levels) : List UInt64 := m.entries.flatMap Prod.snd

/-- Every queue entry of the book, in the order of the checksum. -/
def queueIds (b : Book) : List UInt64 := queued b.bids ++ queued b.asks

/-- The live orders among some ids, each with its record. -/
def liveIn (orders : Orders) (ids : List UInt64) : List (UInt64 × Resting) :=
  ids.filterMap fun id => (orders.find? id).map (id, ·)

/-- The live orders among the entries of one side. -/
def liveOn (orders : Orders) (m : Levels) : List (UInt64 × Resting) := liveIn orders (queued m)

/-- The records the checksum folds, in order. -/
def folded (b : Book) : List (UInt64 × Resting) := liveOn b.orders b.bids ++ liveOn b.orders b.asks

@[simp] theorem mem_queued {m : Levels} {id : UInt64} : id ∈ queued m ↔ Levels.Mem id m := by
  rw [queued, Levels.Mem]
  simp only [List.mem_flatMap, Prod.exists, OrdMap.mem_entries]

@[simp] theorem mem_queueIds {b : Book} {id : UInt64} : id ∈ b.queueIds ↔ b.Queued id := by
  rw [queueIds, Queued]
  rw [List.mem_append, mem_queued, mem_queued]

@[simp] theorem liveIn_append (orders : Orders) (ids ids' : List UInt64) :
    liveIn orders (ids ++ ids') = liveIn orders ids ++ liveIn orders ids' :=
  List.filterMap_append

@[simp] theorem mem_liveIn {orders : Orders} {ids : List UInt64} {id : UInt64} {r : Resting} :
    (id, r) ∈ liveIn orders ids ↔ id ∈ ids ∧ orders.find? id = some r := by
  rw [liveIn]
  simp only [List.mem_filterMap, Option.map_eq_some_iff, Prod.mk.injEq]
  constructor
  · rintro ⟨id', hid, r', hr, rfl, rfl⟩
    exact ⟨hid, hr⟩
  · intro h
    exact ⟨id, h.1, r, h.2, rfl, rfl⟩

theorem mem_liveIn_pair {orders : Orders} {ids : List UInt64} {o : UInt64 × Resting} :
    o ∈ liveIn orders ids ↔ o.1 ∈ ids ∧ orders.find? o.1 = some o.2 := mem_liveIn

theorem liveIn_nodup (orders : Orders) {ids : List UInt64} (h : ids.Nodup) :
    (liveIn orders ids).Nodup := by
  refine h.filterMap ?_
  intro id id' e he he'
  simp only [Option.mem_def, Option.map_eq_some_iff] at he he'
  rcases he with ⟨r, -, rfl⟩
  rcases he' with ⟨r', -, heq⟩
  exact (Prod.ext_iff.mp heq).1.symm

theorem foldLevel_eq (orders : Orders) (acc : UInt64) (lvl : List UInt64) :
    foldLevel orders acc lvl = (liveIn orders lvl).foldl (fun acc e => mix acc e.1 e.2) acc := by
  rw [foldLevel, liveIn]
  rw [List.foldl_filterMap]
  congr 1
  funext acc id
  cases orders.find? id <;> rfl

theorem foldSide_eq (orders : Orders) (acc : UInt64) (m : Levels) :
    foldSide orders acc m = (liveOn orders m).foldl (fun acc e => mix acc e.1 e.2) acc := by
  rw [foldSide, liveOn, queued]
  generalize m.entries = l
  induction l generalizing acc with
  | nil => rfl
  | cons e l ih =>
    rw [List.foldl_cons, ih, foldLevel_eq, List.flatMap_cons, liveIn_append, List.foldl_append]

/-- **What the checksum folds.** -/
theorem checksum_eq (b : Book) :
    b.checksum = b.folded.foldl (fun acc e => mix acc e.1 e.2) 0 := by
  rw [checksum, folded]
  rw [foldSide_eq, foldSide_eq, List.foldl_append]

namespace Placed
variable {ops : List Op} {b : Book}

/-- An entry is of one side and of one price. -/
theorem queue_unique (h : b.Placed ops) (hops : NeverReused ops) {side side' : UInt8} {p p' : ℤ}
    {lvl lvl' : List UInt64} {id : UInt64} (hlvl : (b.own side).find? p = some lvl)
    (hid : id ∈ lvl) (hlvl' : (b.own side').find? p' = some lvl') (hid' : id ∈ lvl') :
    (side = sideBid ↔ side' = sideBid) ∧ p = p' := by
  rcases mem_submitted.mp ((h.queue side hlvl).subset hid) with ⟨s, qty, hop, hs⟩
  rcases mem_submitted.mp ((h.queue side' hlvl').subset hid') with ⟨s', qty', hop', hs'⟩
  rcases hops.eq_of_mem hop hop' with ⟨rfl, rfl, -⟩
  exact ⟨hs.symm.trans hs', rfl⟩

theorem queued_nodup (h : b.Placed ops) (hops : NeverReused ops) (side : UInt8) :
    (queued (b.own side)).Nodup := by
  rw [queued]
  rw [List.nodup_flatMap]
  refine ⟨fun e he => ?_, ?_⟩
  · have hsub := h.queue side (OrdMap.mem_entries.mp he)
    exact (hsub.trans (submitted_sublist _ _ _)).nodup hops
  · refine (b.own side).sorted.imp_of_mem fun {e e'} he he' hlt id hid hid' => ?_
    have heq := (h.queue_unique hops (OrdMap.mem_entries.mp he) hid
      (OrdMap.mem_entries.mp he') hid').2
    exact absurd heq hlt.ne

/-- **An id that is used once is queued once.** -/
theorem queueIds_nodup (h : b.Placed ops) (hops : NeverReused ops) : b.queueIds.Nodup := by
  refine List.nodup_append'.mpr ⟨h.queued_nodup hops sideBid, h.queued_nodup hops sideAsk, ?_⟩
  intro id hid hid'
  rcases mem_queued.mp hid with ⟨p, lvl, hp, hmem⟩
  rcases mem_queued.mp hid' with ⟨p', lvl', hp', hmem'⟩
  have hbid : (b.own sideBid).find? p = some lvl := hp
  have hask : (b.own sideAsk).find? p' = some lvl' := hp'
  have hside := (h.queue_unique hops hbid hmem hask hmem').1
  exact absurd (hside.mp rfl) (by decide)

/-- **The checksum folds each live order once**, and nothing else. -/
theorem folded_perm (h : b.Placed ops) (hops : NeverReused ops) (hwf : b.WellFormed) :
    b.folded.Perm b.orders.entries := by
  have hfolded : b.folded = liveIn b.orders b.queueIds := (liveIn_append _ _ _).symm
  rw [hfolded, List.perm_ext_iff_of_nodup (liveIn_nodup _ (h.queueIds_nodup hops))
    b.orders.entries_nodup]
  rintro ⟨id, r⟩
  rw [mem_liveIn, mem_queueIds, OrdMap.mem_entries]
  exact ⟨fun he => he.2, fun hr => ⟨hwf.queued hr, hr⟩⟩

/-- A live order is queued in the level of its price. -/
theorem price_eq (h : b.Placed ops) (hops : NeverReused ops) {side : UInt8} {p : ℤ}
    {lvl : List UInt64} {id : UInt64} {r : Resting} (hlvl : (b.own side).find? p = some lvl)
    (hid : id ∈ lvl) (hr : b.orders.find? id = some r) : r.price = p := by
  rcases h.record hr with ⟨side', qty, lvl', -, -, hlvl', hid'⟩
  exact (h.queue_unique hops hlvl' hid' hlvl hid).2

theorem length_folded (h : b.Placed ops) (hops : NeverReused ops) (hwf : b.WellFormed) :
    b.folded.length = b.resting := (h.folded_perm hops hwf).length_eq

end Placed

/-! ## The two halves correspond -/

/-- The live map and the level queues of `b`, which `ops` led to, are one and the same set
of orders. -/
structure Corresponds (ops : List Op) (b : Book) : Prop where
  live_once : ∀ {id r}, b.orders.find? id = some r → b.queueIds.count id = 1
  live_placed : ∀ {id r}, b.orders.find? id = some r → ∃ side qty lvl,
    Op.limit side r.price qty id ∈ ops ∧ 1 ≤ r.qty ∧ r.qty ≤ qty ∧
      (b.own side).find? r.price = some lvl ∧ id ∈ lvl
  queued_once : b.queueIds.Nodup
  fifo : ∀ (side : UInt8) {p lvl}, (b.own side).find? p = some lvl →
    lvl.Sublist (submitted side p ops)
  bids_nonempty : b.bids.Nonempty
  asks_nonempty : b.asks.Nonempty
  checksum_eq : b.checksum = b.folded.foldl (fun acc e => mix acc e.1 e.2) 0
  folded_perm : b.folded.Perm b.orders.entries
  folded_length : b.folded.length = b.resting

/-- **The live map and the level queues correspond exactly** after any run that never uses
an id twice. -/
theorem corresponds_run {ops : List Op} (h : NeverReused ops) : (run ops).Corresponds ops := by
  have hplaced := placed_run (noLiveReuse_of_neverReused h)
  have hwf := wellFormed_run ops
  have hnodup := hplaced.queueIds_nodup h
  refine ⟨?_, ?_, hnodup, hplaced.queue, hwf.bids_nonempty, hwf.asks_nonempty, checksum_eq _,
    hplaced.folded_perm h hwf, hplaced.length_folded h hwf⟩
  · intro id r hr
    exact List.count_eq_one_of_mem hnodup (mem_queueIds.mpr (hwf.queued hr))
  · intro id r hr
    rcases hplaced.record hr with ⟨side, qty, lvl, hop, hle, hlvl, hid⟩
    exact ⟨side, qty, lvl, hop, hwf.positive hr, hle, hlvl, hid⟩

theorem corresponds_partial_fill :
    (run [.limit 1 12 5 1, .limit 1 12 4 2, .cancel 1, .limit 0 12 3 3, .limit 0 9 2 4]).Corresponds
      [.limit 1 12 5 1, .limit 1 12 4 2, .cancel 1, .limit 0 12 3 3, .limit 0 9 2 4] :=
  corresponds_run (by decide)

end Book
end LmaxBench.Cpp
