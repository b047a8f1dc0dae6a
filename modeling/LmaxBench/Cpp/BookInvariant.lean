import LmaxBench.Cpp.BookLoops

/-!
# The invariant of the idiomatic book

`WellFormed` is what holds of the book after any operations at all, with any ids, used
once or many times: neither map holds an empty level, the book is not crossed, and
every live record has a positive quantity and a queue entry that matching can find.

Nothing in it depends on which record wins when an id is used while it is live, so
`wellFormed_rest` leaves the live map after resting open.

## Main definitions

* `Levels.Mem`, `Book.Queued` — an id has a queue entry.
* `Book.WellFormed`, `Book.wellFormed_run`.
* `Book.Fresh`, `Book.NoLiveReuse` — no limit uses an id that is live at that moment; a
  dead id may be used again while its stale entry is still queued.
-/

namespace LmaxBench.Cpp

namespace Levels

/-- The id is queued at some level. -/
def Mem (id : UInt64) (m : Levels) : Prop := ∃ p lvl, m.find? p = some lvl ∧ id ∈ lvl

/-- No level is empty. -/
def Nonempty (m : Levels) : Prop := ∀ p lvl, m.find? p = some lvl → lvl ≠ []

theorem Nonempty.put {m : Levels} (h : m.Nonempty) (p : ℤ) (lvl : List UInt64) :
    (Levels.put m p lvl).Nonempty := by
  intro p' lvl' hp'
  rw [find?_put] at hp'
  split at hp'
  · split at hp'
    · simp at hp'
    · rename_i hne
      simpa [← Option.some.inj hp'] using hne
  · exact h p' lvl' hp'

theorem Nonempty.pushBack {m : Levels} (h : m.Nonempty) (p : ℤ) (id : UInt64) :
    (Levels.pushBack m p id).Nonempty := by
  intro p' lvl' hp'
  rw [find?_pushBack] at hp'
  split at hp'
  · simp [← Option.some.inj hp']
  · exact h p' lvl' hp'

@[simp] theorem mem_pushBack {m : Levels} {p : ℤ} {id id' : UInt64} :
    Mem id' (Levels.pushBack m p id) ↔ id' = id ∨ Mem id' m := by
  rw [Mem]
  constructor
  · rintro ⟨p', lvl', hp', hid⟩
    rw [find?_pushBack] at hp'
    split at hp'
    case isTrue heq =>
      rw [← Option.some.inj hp', List.mem_append, List.mem_singleton] at hid
      rcases hid with hid | hid
      · cases hm : m.find? p with
        | none => simp [hm] at hid
        | some lvl => exact Or.inr ⟨p, lvl, hm, by simpa [hm] using hid⟩
      · exact Or.inl hid
    case isFalse => exact Or.inr ⟨p', lvl', hp', hid⟩
  · rintro (rfl | ⟨p', lvl', hp', hid⟩)
    · exact ⟨p, _, by rw [find?_pushBack, if_pos rfl], by simp⟩
    · by_cases heq : p' = p
      · subst heq
        exact ⟨p', _, by rw [find?_pushBack, if_pos rfl], by simp [hp', hid]⟩
      · exact ⟨p', lvl', by rw [find?_pushBack, if_neg heq, hp'], hid⟩

end Levels

namespace Book

/-- The id has an entry in some queue, live or stale. -/
def Queued (b : Book) (id : UInt64) : Prop := Levels.Mem id b.bids ∨ Levels.Mem id b.asks

/-- What holds of every book, whatever ids its operations used. -/
structure WellFormed (b : Book) : Prop where
  bids_nonempty : b.bids.Nonempty
  asks_nonempty : b.asks.Nonempty
  uncrossed : ∀ {p lvl p' lvl'}, b.bids.find? p = some lvl → b.asks.find? p' = some lvl' → p < p'
  positive : ∀ {id r}, b.orders.find? id = some r → 0 < r.qty
  queued : ∀ {id r}, b.orders.find? id = some r → b.Queued id

theorem queued_iff (b : Book) (side : UInt8) (id : UInt64) :
    b.Queued id ↔ Levels.Mem id (b.own side) ∨ Levels.Mem id (b.opposite side) := by
  rw [Queued, own, opposite]
  split
  · rfl
  · exact or_comm

namespace WellFormed
variable {b : Book}

theorem own_nonempty (h : b.WellFormed) (side : UInt8) : (b.own side).Nonempty := by
  rw [own]
  split
  · exact h.bids_nonempty
  · exact h.asks_nonempty

theorem opposite_nonempty (h : b.WellFormed) (side : UInt8) : (b.opposite side).Nonempty := by
  rw [opposite]
  split
  · exact h.asks_nonempty
  · exact h.bids_nonempty

theorem better (h : b.WellFormed) {side : UInt8} {p p' : ℤ} {lvl lvl' : List UInt64}
    (hp : (b.own side).find? p = some lvl) (hp' : (b.opposite side).find? p' = some lvl') :
    Book.better side p p' := by
  simp only [own, opposite] at *
  rw [Book.better]
  split at hp
  case isTrue hs =>
    rw [if_pos hs] at hp' ⊢
    exact h.uncrossed hp hp'
  case isFalse hs =>
    rw [if_neg hs] at hp' ⊢
    exact h.uncrossed hp' hp

/-- The invariant, seen from the side of a taker. -/
theorem of_sides (side : UInt8) (hown : (b.own side).Nonempty)
    (hopp : (b.opposite side).Nonempty)
    (hbetter : ∀ {p lvl p' lvl'}, (b.own side).find? p = some lvl →
      (b.opposite side).find? p' = some lvl' → Book.better side p p')
    (hpos : ∀ {id r}, b.orders.find? id = some r → 0 < r.qty)
    (hqueued : ∀ {id r}, b.orders.find? id = some r →
      Levels.Mem id (b.own side) ∨ Levels.Mem id (b.opposite side)) : b.WellFormed := by
  have hq : ∀ {id r}, b.orders.find? id = some r → b.Queued id := fun hr =>
    (queued_iff b side _).mpr (hqueued hr)
  simp only [own, opposite] at *
  simp only [Book.better] at hbetter
  split at hown
  case isTrue hs =>
    simp only [hs, if_true] at *
    exact ⟨hown, hopp, hbetter, hpos, hq⟩
  case isFalse hs =>
    simp only [hs, if_false] at *
    exact ⟨hopp, hown, fun hp hp' => hbetter hp' hp, hpos, hq⟩

end WellFormed

theorem wellFormed_empty : ({} : Book).WellFormed := by
  constructor <;> simp [Levels.Nonempty]

/-! ## The sweep -/

/-- A fill leaves positive quantities, and no new live order. -/
theorem Tally.find?_fill {t : Tally} {head : UInt64} {r : Resting} {id : UInt64} {r' : Resting}
    (h : (t.fill head r).orders.find? id = some r') :
    t.orders.find? id = some r' ∨
      id = head ∧ t.qty < r.qty ∧ r' = { r with qty := r.qty - t.qty } := by
  rw [Tally.fill] at h
  simp only at h
  split at h
  case isTrue hz =>
    rw [OrdMap.find?_erase] at h
    split at h
    · simp at h
    · exact Or.inl h
  case isFalse hz =>
    rw [OrdMap.find?_insert] at h
    split at h
    case isTrue heq =>
      have hlt : t.qty < r.qty := by
        by_contra hle
        exact hz (by rw [min_eq_right (not_lt.mp hle)]; omega)
      rw [min_eq_left hlt.le] at h
      exact Or.inr ⟨heq, hlt, (Option.some.inj h).symm⟩
    case isFalse => exact Or.inl h

theorem positive_drain {s : Drain} (h : ∀ {id r}, s.orders.find? id = some r → 0 < r.qty)
    {id : UInt64} {r : Resting} (hr : (drain s).orders.find? id = some r) : 0 < r.qty := by
  refine drain_invariant (fun s => ∀ id r, s.orders.find? id = some r → 0 < r.qty) ?_
    (fun _ _ => h) id r hr
  intro s s' hs hstep id r hid
  obtain ⟨-, head, rest, -, ⟨-, rfl⟩ | ⟨r', hr', htally, -⟩⟩ := drainStep_cases hstep
  · exact hs id r hid
  · have horders : s'.orders = (s.tally.fill head r').orders := congrArg Tally.orders htally
    rw [horders] at hid
    rcases Tally.find?_fill hid with hid | ⟨-, hlt, rfl⟩
    · exact hs id r hid
    · have hlt' : s.qty < r'.qty := hlt
      simp only [Drain.tally]
      omega

/-- **What is live after the inner loop** was live before, at the same price and with at
least the quantity; and its entry is still there, since an entry is popped only once its
id is dead. -/
theorem live_drain {s : Drain} {id : UInt64} {r : Resting}
    (hr : (drain s).orders.find? id = some r) :
    (∃ r₀, s.orders.find? id = some r₀ ∧ r.price = r₀.price ∧ r.qty ≤ r₀.qty) ∧
      (id ∈ s.lvl → id ∈ (drain s).lvl) := by
  refine drain_invariant (fun t => ∀ id r, t.orders.find? id = some r →
    (∃ r₀, s.orders.find? id = some r₀ ∧ r.price = r₀.price ∧ r.qty ≤ r₀.qty) ∧
      (id ∈ s.lvl → id ∈ t.lvl)) ?_ (fun id r hr => ⟨⟨r, hr, rfl, le_rfl⟩, fun h => h⟩) id r hr
  intro t t' ht hstep id r hid
  obtain ⟨hq, head, rest, hlvl, ⟨hdead, rfl⟩ | ⟨r', hr', htally, hcase⟩⟩ := drainStep_cases hstep
  · -- the popped entry is stale
    have hne : id ≠ head := by
      rintro rfl
      rw [hdead] at hid
      simp at hid
    refine (ht id r hid).imp_right ?_
    intro h hmem
    simpa [hlvl, hne] using h hmem
  · have horders : t'.orders = (t.tally.fill head r').orders := congrArg Tally.orders htally
    rw [horders] at hid
    obtain ⟨r₁, hid₁, hprice, hqty⟩ : ∃ r₁, t.orders.find? id = some r₁ ∧ r.price = r₁.price ∧
        r.qty ≤ r₁.qty := by
      rcases Tally.find?_fill hid with hid | ⟨rfl, -, rfl⟩
      · exact ⟨r, hid, rfl, le_rfl⟩
      · refine ⟨r', hr', rfl, ?_⟩
        simp only [Drain.tally]
        omega
    obtain ⟨⟨r₀, hr₀, hprice₀, hqty₀⟩, hmem₀⟩ := ht id r₁ hid₁
    refine ⟨⟨r₀, hr₀, hprice.trans hprice₀, hqty.trans hqty₀⟩, fun hmem => ?_⟩
    rcases hcase with ⟨hle, hlvl'⟩ | ⟨-, -, hlvl'⟩
    · -- the popped entry was exhausted by this fill
      have hne : id ≠ head := by
        rintro rfl
        have hle' : r'.qty ≤ t.tally.qty := hle
        simp [Tally.fill, min_eq_right hle'] at hid
      rw [hlvl']
      simpa [hlvl, hne] using hmem₀ hmem
    · rw [hlvl']
      exact hmem₀ hmem

theorem wellFormed_sweepStep {side : UInt8} {price : ℤ} {s s' : Sweep} (h : s.book.WellFormed)
    (hstep : sweepStep side price s = some s') : s'.book.WellFormed := by
  obtain ⟨-, p, lvl, l, hl, -, rfl⟩ := sweepStep_cases hstep
  have hp : (s.book.opposite side).find? p = some lvl :=
    mem_bestFirst.mp (hl ▸ List.mem_cons_self)
  refine WellFormed.of_sides side ?_ ?_ ?_ ?_ ?_
  · rw [own_writeBack]
    exact h.own_nonempty side
  · rw [opposite_writeBack]
    exact (h.opposite_nonempty side).put _ _
  · intro q m q' m' hq hq'
    rw [own_writeBack] at hq
    rw [opposite_writeBack, Levels.find?_put] at hq'
    split at hq'
    · rename_i heq
      exact heq ▸ h.better hq hp
    · exact h.better hq hq'
  · intro id r hr
    exact positive_drain (fun hr => h.positive hr) hr
  · intro id r hr
    obtain ⟨⟨r₀, hr₀, -⟩, hmem⟩ := live_drain (s := ⟨lvl, _, _, _, _, _⟩) hr
    rw [own_writeBack, opposite_writeBack]
    rcases (queued_iff s.book side id).mp (h.queued hr₀) with hid | ⟨q, m, hq, hid⟩
    · exact Or.inl hid
    · refine Or.inr ?_
      by_cases heq : q = p
      · subst heq
        obtain rfl : lvl = m := Option.some.inj (hp.symm.trans hq)
        have hmem' : id ∈ (s.drainOf lvl).lvl := hmem hid
        exact ⟨q, _, by rw [Levels.find?_put, if_pos rfl, if_neg (List.ne_nil_of_mem hmem')], hmem'⟩
      · exact ⟨q, m, by rw [Levels.find?_put, if_neg heq, hq], hid⟩

theorem wellFormed_sweep (side : UInt8) (price : ℤ) {s : Sweep} (h : s.book.WellFormed) :
    (sweep side price s).book.WellFormed :=
  sweep_invariant (fun s => s.book.WellFormed) (fun _ _ h hstep => wellFormed_sweepStep h hstep) h

/-! ## The operations -/

@[simp] theorem own_rest (b : Book) (side : UInt8) (price qty : ℤ) (id : UInt64) :
    (b.rest side price qty id).own side = Levels.pushBack (b.own side) price id := by
  simp only [own, rest]
  split <;> rfl

@[simp] theorem opposite_rest (b : Book) (side : UInt8) (price qty : ℤ) (id : UInt64) :
    (b.rest side price qty id).opposite side = b.opposite side := by
  simp only [opposite, rest]
  split <;> rfl

/-- A residual may rest where no opposite level crosses, whatever happens to the live
map as long as only `id` is added. -/
theorem wellFormed_rest {b : Book} (h : b.WellFormed) {side : UInt8} {price : ℤ}
    (hno : b.bestCrossing side price = none) (qty : ℤ) (id : UInt64) {orders : Orders}
    (horders : ∀ {id' r}, orders.find? id' = some r →
      0 < r.qty ∧ (id' = id ∨ ∃ r', b.orders.find? id' = some r')) :
    ({ b.rest side price qty id with orders := orders } : Book).WellFormed := by
  have hown : ({ b.rest side price qty id with orders := orders } : Book).own side =
      Levels.pushBack (b.own side) price id := own_rest b side price qty id
  have hopp : ({ b.rest side price qty id with orders := orders } : Book).opposite side =
      b.opposite side := opposite_rest b side price qty id
  refine WellFormed.of_sides side ?_ ?_ ?_ ?_ ?_
  · rw [hown]
    exact (h.own_nonempty side).pushBack _ _
  · rw [hopp]
    exact h.opposite_nonempty side
  · intro q m q' m' hq hq'
    rw [hopp] at hq'
    rw [hown, Levels.find?_pushBack] at hq
    split at hq
    case isTrue heq =>
      have hnot := bestCrossing_eq_none.mp hno q' m' hq'
      subst heq
      rw [crosses] at hnot
      rw [Book.better]
      split <;> simp_all
    case isFalse => exact h.better hq hq'
  · intro id' r hr
    exact (horders hr).1
  · intro id' r hr
    rw [hown, hopp, Levels.mem_pushBack]
    rcases (horders hr).2 with rfl | ⟨r', hr'⟩
    · exact Or.inl (Or.inl rfl)
    · rcases (queued_iff b side id').mp (h.queued hr') with hid | hid
      · exact Or.inl (Or.inr hid)
      · exact Or.inr hid

theorem wellFormed_limit {b : Book} (h : b.WellFormed) (side : UInt8) (price qty : ℤ)
    (id : UInt64) : (b.limit side price qty id).WellFormed := by
  unfold limit
  have hs := wellFormed_sweep side price (s := { book := b, qty }) h
  have hexit := sweep_exit side price { book := b, qty }
  generalize sweep side price { book := b, qty } = s at hs hexit
  simp only
  split
  case isTrue hq =>
    have hno := hexit.resolve_left (not_le.mpr hq)
    refine wellFormed_rest hs hno s.qty id ?_
    intro id' r hr
    rw [OrdMap.find?_emplace] at hr
    split at hr
    case isTrue heq =>
      refine ⟨?_, Or.inl heq⟩
      cases hf : s.book.orders.find? id with
      | none => simpa [hf, ← Option.some.inj hr] using hq
      | some r' =>
        have hpos := hs.positive hf
        simpa [hf, ← Option.some.inj hr] using hpos
    case isFalse => exact ⟨hs.positive hr, Or.inr ⟨r, hr⟩⟩
  case isFalse => exact hs

theorem wellFormed_cancel {b : Book} (h : b.WellFormed) (id : UInt64) :
    (b.cancel id).WellFormed where
  bids_nonempty := h.bids_nonempty
  asks_nonempty := h.asks_nonempty
  uncrossed := h.uncrossed
  positive := by
    intro id' r hr
    simp only [cancel, OrdMap.find?_erase] at hr
    split at hr
    · simp at hr
    · exact h.positive hr
  queued := by
    intro id' r hr
    simp only [cancel, OrdMap.find?_erase] at hr
    split at hr
    · simp at hr
    · exact h.queued hr

theorem wellFormed_apply {b : Book} (h : b.WellFormed) (op : Op) : (b.apply op).WellFormed := by
  cases op with
  | limit side price qty id => exact wellFormed_limit h side price qty id
  | cancel id => exact wellFormed_cancel h id

/-- **Every book an operation sequence leads to is well formed.** -/
theorem wellFormed_run (ops : List Op) : (run ops).WellFormed := by
  rw [run]
  have hfold : ∀ (ops : List Op) (b : Book), b.WellFormed → (ops.foldl apply b).WellFormed := by
    intro ops
    induction ops with
    | nil => exact fun b h => h
    | cons op ops ih => exact fun b h => ih _ (wellFormed_apply h op)
  exact hfold ops {} wellFormed_empty

/-! ## Runs that do not use a live id -/

/-- The operation does not use an id that is live. -/
def Fresh (b : Book) : Op → Prop
  | .limit _ _ _ id => b.orders.find? id = none
  | .cancel _ => True

instance (b : Book) : (op : Op) → Decidable (b.Fresh op)
  | .limit _ _ _ id => inferInstanceAs (Decidable (b.orders.find? id = none))
  | .cancel _ => isTrue trivial

/-- From `b` on, no limit uses an id that is live at that moment. -/
def NoLiveReuse (b : Book) : List Op → Prop
  | [] => True
  | op :: ops => b.Fresh op ∧ NoLiveReuse (b.apply op) ops

instance decidableNoLiveReuse : (b : Book) → (ops : List Op) → Decidable (b.NoLiveReuse ops)
  | _, [] => isTrue trivial
  | b, op :: ops =>
    have := decidableNoLiveReuse (b.apply op) ops
    inferInstanceAs (Decidable (b.Fresh op ∧ (b.apply op).NoLiveReuse ops))

theorem NoLiveReuse.of_prefix {b : Book} {pre ops : List Op} (h : b.NoLiveReuse ops)
    (hpre : pre <+: ops) : b.NoLiveReuse pre := by
  obtain ⟨post, rfl⟩ := hpre
  induction pre generalizing b with
  | nil => trivial
  | cons op pre ih => exact ⟨h.1, ih h.2⟩

/-- Matching makes no order live. -/
theorem find?_sweep_none (side : UInt8) (price : ℤ) {s : Sweep} {id : UInt64}
    (h : s.book.orders.find? id = none) :
    (sweep side price s).book.orders.find? id = none := by
  refine sweep_tally (fun t => t.orders.find? id = none) ?_ h
  intro t head r ht _ hr
  cases hf : (t.fill head r).orders.find? id with
  | none => rfl
  | some r' =>
    rcases Tally.find?_fill hf with h | ⟨rfl, -⟩
    · rw [ht] at h
      simp at h
    · rw [ht] at hr
      simp at hr

end Book
end LmaxBench.Cpp
