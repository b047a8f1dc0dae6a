import LmaxBench.Cpp.CancelCommutes
import LmaxBench.Cpp.Relist
import LmaxBench.Lib.Swaps

/-!
# Operations that do not notice each other

The order of operations is not arbitrary, but it is not all significant either. A limit to buy and a
limit to sell do not notice each other unless they cross, and not even then if others fill both of
them; two limits on one side do not, if their prices differ and one of them trades with nobody; a
cancel notices only limits that trade with the order it takes out; cancels do not notice each other.
Neighbours of this kind may change places, again and again: in the end the same orders wait in the
same priority, the same is reported, and every operation has made the same fills.

## Main definitions

* `Independent` — two operations that do not notice each other.
* `Market.commutes` — they commute on the exchange.
* `Book.tape` — the operations of a run, with the fills of each.
* `Book.reordered` — the run of a reordered sequence.
-/

namespace LmaxBench.Cpp

/-- The limits are on opposite sides. -/
def Opposed (side side' : UInt8) : Prop := side = sideBid ↔ side' ≠ sideBid

instance (side side' : UInt8) : Decidable (Opposed side side') :=
  inferInstanceAs (Decidable (side = sideBid ↔ side' ≠ sideBid))

/-- All of the quantity is filled. -/
def Filled (log : List Fill) (qty : ℤ) : Prop := qty ≤ (log.map Fill.qty).sum

instance (log : List Fill) (qty : ℤ) : Decidable (Filled log qty) :=
  inferInstanceAs (Decidable (qty ≤ (log.map Fill.qty).sum))

/-- Two operations do not notice each other in a state in which limits make the fills `log`. -/
def Independent (log : UInt8 → ℤ → ℤ → List Fill) : Op → Op → Prop
  | .limit side price qty _, .limit side' price' qty' _ =>
    Opposed side side' ∧ (¬ Book.crosses side price price' ∨
      Filled (log side price qty) qty ∧ Filled (log side' price' qty') qty') ∨
    side = side' ∧ price ≠ price' ∧ (log side price qty = [] ∨ log side' price' qty' = [])
  | .limit side price qty id, .cancel id' => id ≠ id' ∧ Book.Misses id' (log side price qty)
  | .cancel id', .limit side price qty id => id ≠ id' ∧ Book.Misses id' (log side price qty)
  | .cancel _, .cancel _ => True

instance (log : UInt8 → ℤ → ℤ → List Fill) : (op op' : Op) → Decidable (Independent log op op')
  | .limit side price qty _, .limit side' price' qty' _ =>
    inferInstanceAs (Decidable (Opposed side side' ∧ (¬ Book.crosses side price price' ∨
      Filled (log side price qty) qty ∧ Filled (log side' price' qty') qty') ∨
    side = side' ∧ price ≠ price' ∧ (log side price qty = [] ∨ log side' price' qty' = [])))
  | .limit side price qty id, .cancel id' =>
    inferInstanceAs (Decidable (id ≠ id' ∧ Book.Misses id' (log side price qty)))
  | .cancel id', .limit side price qty id =>
    inferInstanceAs (Decidable (id ≠ id' ∧ Book.Misses id' (log side price qty)))
  | .cancel _, .cancel _ => inferInstanceAs (Decidable True)

theorem Opposed.symm {side side' : UInt8} (h : Opposed side side') : Opposed side' side := by
  simp only [Opposed] at *
  grind

theorem Opposed.crosses_iff {side side' : UInt8} (h : Opposed side side') (p p' : ℤ) :
    Book.crosses side p p' ↔ Book.crosses side' p' p := by
  simp only [Opposed, Book.crosses] at *
  grind

namespace Market

/-! ## Placing -/

section Place
variable {P : LiveOrder → Prop} [DecidablePred P] {side : UInt8} {o o' : LiveOrder}
  {X Y l : List LiveOrder}

/-- An order is placed behind orders that are no worse. -/
theorem place_append_left (h : ∀ x ∈ X, ¬ Book.better side o.price x.price) :
    place side o (X ++ Y) = X ++ place side o Y := by
  have hnil : (X.filter fun x => Book.better side o.price x.price) = [] :=
    List.filter_eq_nil_iff.mpr fun x hx => by simpa using h x hx
  have hself : (X.filter fun x => ¬ Book.better side o.price x.price) = X :=
    List.filter_eq_self.mpr fun x hx => by simpa using h x hx
  rw [place, List.filter_append, List.filter_append, hnil, hself, List.nil_append,
    List.append_assoc, ← place]

/-- An order is placed among those that are kept. -/
theorem filter_place_of_pos (h : P o) :
    (place side o l).filter P = place side o (l.filter P) := by
  rw [place, List.filter_append, List.filter_cons_of_pos (by simpa using h), List.filter_comm,
    List.filter_comm (P ·), ← place]

/-- Where it is not kept, the others are as before, if none of them is worse. -/
theorem filter_place_of_neg (h : ¬P o)
    (hP : ∀ x ∈ l, P x → ¬ Book.better side o.price x.price) :
    (place side o l).filter P = l.filter P := by
  rw [place, List.filter_append, List.filter_cons_of_neg (by simpa using h), List.filter_comm,
    List.filter_comm (P ·)]
  have hnil : ((l.filter P).filter fun x => Book.better side o.price x.price) = [] := by
    refine List.filter_eq_nil_iff.mpr fun x hx => ?_
    obtain ⟨hmem, hx⟩ := List.mem_filter.mp hx
    simpa using hP x hmem (of_decide_eq_true hx)
  have hself : ((l.filter P).filter fun x => ¬ Book.better side o.price x.price) = l.filter P := by
    refine List.filter_eq_self.mpr fun x hx => ?_
    obtain ⟨hmem, hx⟩ := List.mem_filter.mp hx
    simpa using hP x hmem (of_decide_eq_true hx)
  rw [hnil, hself, List.append_nil]

/-- At different prices, the order of placing does not matter. -/
theorem place_comm (h : o.price ≠ o'.price) :
    place side o (place side o' l) = place side o' (place side o l) := by
  wlog hb : Book.better side o.price o'.price generalizing o o'
  · have hb' : Book.better side o'.price o.price := by
      simp only [Book.better] at *
      grind
    exact (this h.symm hb').symm
  have hnot : ¬ Book.better side o'.price o.price := Book.better_asymm hb
  have htrans : ∀ p, Book.better side o'.price p → Book.better side o.price p := by
    intro p hp
    simp only [Book.better] at *
    grind
  -- those behind `o'` are behind `o`, those before `o` are before `o'`
  have hbehind : (l.filter fun x => Book.better side o'.price x.price).filter
      (fun x => Book.better side o.price x.price) =
      l.filter fun x => Book.better side o'.price x.price := by
    refine List.filter_eq_self.mpr fun x hx => decide_eq_true (htrans x.price ?_)
    simpa using (List.mem_filter.mp hx).2
  have hbefore : (l.filter fun x => ¬ Book.better side o.price x.price).filter
      (fun x => ¬ Book.better side o'.price x.price) =
      l.filter fun x => ¬ Book.better side o.price x.price := by
    refine List.filter_eq_self.mpr fun x hx => decide_eq_true (mt (htrans x.price) ?_)
    simpa using (List.mem_filter.mp hx).2
  have hnone : (l.filter fun x => Book.better side o'.price x.price).filter
      (fun x => ¬ Book.better side o.price x.price) = [] := by
    refine List.filter_eq_nil_iff.mpr fun x hx => ?_
    have hx : Book.better side o'.price x.price := by simpa using (List.mem_filter.mp hx).2
    simpa using htrans x.price hx
  rw [place, place, List.filter_append, List.filter_append,
    List.filter_cons_of_neg (by simpa using hb), List.filter_cons_of_pos (by simpa using hb),
    place, place, List.filter_append, List.filter_append,
    List.filter_cons_of_pos (by simpa using hnot), List.filter_cons_of_neg (by simpa using hnot)]
  have hcomm : ∀ p q : LiveOrder → Bool, (l.filter q).filter p = (l.filter p).filter q :=
    fun p q => List.filter_comm _ _ l
  rw [hcomm (fun x => decide ¬ Book.better side o.price x.price)
    (fun x => decide ¬ Book.better side o'.price x.price), hbefore, hnone, hbehind,
    hcomm (fun x => decide (Book.better side o'.price x.price))
    (fun x => decide ¬ Book.better side o.price x.price), hnone,
    hcomm (fun x => decide (Book.better side o'.price x.price))
    (fun x => decide (Book.better side o.price x.price)), hbehind,
    hcomm (fun x => decide (Book.better side o.price x.price))
    (fun x => decide ¬ Book.better side o'.price x.price)]
  simp

end Place

/-- The fills that an operation makes. -/
def fillsBy (m : Market) : Op → List Fill
  | .limit side price qty _ => m.limitLog side price qty
  | .cancel _ => []

section Limits
variable {m : Market} {side side' : UInt8} {price price' qty qty' : ℤ} {id id' : UInt64}

@[simp] theorem fills_limit : (m.limit side price qty id).fills =
    m.fills + UInt64.ofNat (m.limitLog side price qty).length := rfl

@[simp] theorem volume_limit : (m.limit side price qty id).volume =
    m.volume + UInt64.ofInt ((m.limitLog side price qty).map Fill.qty).sum := rfl

/-- Limits commute if both sides come to the same and their fills are the same. -/
theorem commutes_of_log
    (hown : ((m.limit side price qty id).limit side' price' qty' id').own side =
      ((m.limit side' price' qty' id').limit side price qty id).own side)
    (hopp : ((m.limit side price qty id).limit side' price' qty' id').opposite side =
      ((m.limit side' price' qty' id').limit side price qty id).opposite side)
    (hlog : (m.limit side' price' qty' id').limitLog side price qty = m.limitLog side price qty)
    (hlog' : (m.limit side price qty id).limitLog side' price' qty' =
      m.limitLog side' price' qty') :
    Swaps.Commutes apply (fun m op => (op, m.fillsBy op)) m (.limit side price qty id)
      (.limit side' price' qty' id') where
  comm := by
    refine ext_sides side hown hopp ?_ ?_
    · rw [apply, apply, apply, apply, fills_limit, fills_limit, fills_limit, fills_limit,
        hlog, hlog']
      exact add_right_comm _ _ _
    · rw [apply, apply, apply, apply, volume_limit, volume_limit, volume_limit, volume_limit, hlog,
        hlog']
      exact add_right_comm _ _ _
  first := congrArg (Prod.mk _) hlog
  second := congrArg (Prod.mk _) hlog'

end Limits

/-! ## Limits on opposite sides -/

section Opposed
variable {m : Market} {side side' : UInt8} {price price' qty qty' : ℤ} {id id' : UInt64}

/-- What is filled leaves no residual. -/
theorem residual_of_filled (h : Filled (m.limitLog side price qty) qty) :
    m.residual side price qty ≤ 0 := by
  rw [Filled, limitLog, List.map_map] at h
  rw [residual, Greedy.residual_eq_sub]
  exact Int.sub_nonpos_of_le h

theorem opposite_of_opposed (h : Opposed side side') : m.opposite side' = m.own side := by
  simp only [Opposed, opposite, own] at *
  grind

theorem own_of_opposed (h : Opposed side side') : m.own side' = m.opposite side :=
  (opposite_of_opposed h.symm).symm

/-- What a limit meets is not behind a limit that it does not cross. -/
theorem not_better_of_crosses (h : Opposed side side') (hfar : ¬ Book.crosses side price price')
    {p : ℤ} (hp : Book.crosses side' price' p) : ¬ Book.better (otherSide side) price p := by
  have hask : sideAsk ≠ sideBid := by decide
  simp only [Opposed, Book.crosses, Book.better, otherSide] at *
  grind

/-- A limit meets the same orders after the other one. -/
theorem crossing_limit_opposed (h : Opposed side side')
    (hfar : ¬ Book.crosses side price price' ∨ m.residual side' price' qty' ≤ 0) :
    (m.limit side' price' qty' id').crossing side price = m.crossing side price := by
  rw [crossing, opposite_of_opposed h.symm, own_limit, own_of_opposed h]
  by_cases hres : 0 < m.residual side' price' qty'
  · have hcross := hfar.resolve_right (not_le.mpr hres)
    rw [if_pos hres]
    refine filter_place_of_neg hcross fun x _ hx => ?_
    exact not_better_of_crosses h.symm (mt (h.crosses_iff price price').mpr hcross) hx
  · rw [if_neg hres, crossing]

theorem residual_limit_opposed (h : Opposed side side')
    (hfar : ¬ Book.crosses side price price' ∨ m.residual side' price' qty' ≤ 0) :
    (m.limit side' price' qty' id').residual side price qty = m.residual side price qty := by
  rw [residual, residual, crossing_limit_opposed h hfar]

theorem limitLog_limit_opposed (h : Opposed side side')
    (hfar : ¬ Book.crosses side price price' ∨ m.residual side' price' qty' ≤ 0) :
    (m.limit side' price' qty' id').limitLog side price qty = m.limitLog side price qty := by
  rw [limitLog, limitLog, crossing_limit_opposed h hfar]

/-- What a limit does not meet, the residual of the other one may join. -/
theorem beyond_limit_opposed (h : Opposed side side')
    (hfar : ¬ Book.crosses side price price' ∨ m.residual side' price' qty' ≤ 0) :
    (m.limit side' price' qty' id').beyond side price =
      if 0 < m.residual side' price' qty' then
        place (otherSide side') (id', ⟨price', m.residual side' price' qty'⟩) (m.beyond side price)
      else m.beyond side price := by
  rw [beyond, opposite_of_opposed h.symm, own_limit, own_of_opposed h]
  by_cases hres : 0 < m.residual side' price' qty'
  · rw [if_pos hres, if_pos hres]
    exact filter_place_of_pos (hfar.resolve_right (not_le.mpr hres))
  · rw [if_neg hres, if_neg hres, beyond]

/-- One side, after both. -/
theorem own_limit_limit_opposed (h : Opposed side side')
    (hfar : ¬ Book.crosses side price price' ∨
      m.residual side price qty ≤ 0 ∧ m.residual side' price' qty' ≤ 0) :
    ((m.limit side' price' qty' id').limit side price qty id).own side =
      ((m.limit side price qty id).limit side' price' qty' id').own side := by
  have hfirst := hfar.imp_right And.right
  have hsecond : ¬ Book.crosses side' price' price ∨ m.residual side price qty ≤ 0 :=
    hfar.imp (mt (h.crosses_iff price price').mpr) And.left
  rw [own_limit, residual_limit_opposed h hfirst, ← opposite_of_opposed h, opposite_limit,
    ← opposite_of_opposed h, opposite_limit, crossing_limit_opposed h.symm hsecond,
    beyond_limit_opposed h.symm hsecond]
  by_cases hres : 0 < m.residual side price qty
  · rw [if_pos hres, if_pos hres]
    have hcross := hfar.resolve_right fun hres' => not_le.mpr hres hres'.1
    have hahead : ∀ x ∈ m.crossing side' price', ¬ Book.better (otherSide side) price x.price := by
      intro x hx
      exact not_better_of_crosses h hcross (by simpa using (List.mem_filter.mp hx).2)
    exact place_append_left (Greedy.left_forall (fun _ _ hx => by exact hx) hahead)
  · rw [if_neg hres, if_neg hres]

/-- **Limits on opposite sides commute** if they do not cross or nothing is left of them. -/
theorem commutes_opposed (h : Opposed side side')
    (hfar : ¬ Book.crosses side price price' ∨
      m.residual side price qty ≤ 0 ∧ m.residual side' price' qty' ≤ 0) :
    Swaps.Commutes apply (fun m op => (op, m.fillsBy op)) m (.limit side price qty id)
      (.limit side' price' qty' id') := by
  have hfar' : ¬ Book.crosses side' price' price ∨
      m.residual side' price' qty' ≤ 0 ∧ m.residual side price qty ≤ 0 :=
    hfar.imp (mt (h.crosses_iff price price').mpr) And.symm
  refine commutes_of_log ?_ ?_
    (limitLog_limit_opposed h (hfar.imp_right And.right))
    (limitLog_limit_opposed h.symm (hfar'.imp_right And.right))
  · exact (own_limit_limit_opposed h hfar).symm
  · rw [← own_of_opposed h, ← own_of_opposed h]
    exact own_limit_limit_opposed h.symm hfar'

end Opposed

/-! ## Limits on one side -/

section Own
variable {m : Market} {side : UInt8} {price price' qty qty' : ℤ} {id id' : UInt64}

theorem Sound.opposite_sorted (h : m.Sound) (side : UInt8) :
    (m.opposite side).Pairwise fun o o' => ¬ Book.better side o'.price o.price := by
  by_cases hs : side = sideBid
  · rw [opposite, if_pos hs, hs]
    exact h.asks_sorted
  · rw [opposite, if_neg hs]
    have hask : sideAsk ≠ sideBid := by decide
    refine h.bids_sorted.imp fun hb => ?_
    simpa [Book.better, hs, hask] using hb

/-- Without a quantity, a limit does nothing. -/
@[simp] theorem limit_of_nonpos (h : m.Sound) (hqty : qty ≤ 0) : m.limit side price qty id = m := by
  have hlog : m.limitLog side price qty = [] := by
    simp [limitLog, hqty]
  refine ext_sides side ?_ ?_ ?_ ?_
  · simp [own_limit, residual, hqty]
  · rw [opposite_limit, Greedy.left_of_nonpos hqty]
    exact Book.filter_append_filter_not ((h.opposite_sorted side).imp fun hb hcross =>
      Book.crosses_of_not_better hcross hb)
  · rw [fills_limit, hlog]
    exact UInt64.add_zero _
  · rw [volume_limit, hlog]
    exact UInt64.add_zero _

/-- Who makes no fills meets nobody. -/
theorem not_crosses_of_limitLog_eq_nil (hqty : 0 < qty) (h : m.limitLog side price qty = []) :
    ∀ o ∈ m.opposite side, ¬ Book.crosses side price o.price := by
  intro o ho hcross
  have hmem : o ∈ m.crossing side price := List.mem_filter.mpr ⟨ho, decide_eq_true hcross⟩
  obtain ⟨o', l, hl⟩ := List.exists_cons_of_ne_nil (List.ne_nil_of_mem hmem)
  rw [limitLog, hl, Greedy.fills_cons hqty, List.map_cons] at h
  exact List.cons_ne_nil _ _ h

/-- What stays is priced as before. -/
theorem forall_opposite_limit {P : ℤ → Prop} (h : ∀ o ∈ m.opposite side, P o.price) :
    ∀ o ∈ (m.limit side price qty id).opposite side, P o.price := by
  intro o ho
  rw [opposite_limit] at ho
  rcases List.mem_append.mp ho with hleft | hbeyond
  · have hcrossing : ∀ x ∈ m.crossing side price, P x.price :=
      fun x hx => h x (List.mem_filter.mp hx).1
    exact Greedy.left_forall (fun _ _ hx => by exact hx) hcrossing o hleft
  · exact h o (List.mem_filter.mp hbeyond).1

/-- **Limits on one side commute** if their prices differ and the first trades with nobody. -/
theorem commutes_own (h : m.Sound) (h' : (m.limit side price' qty' id').Sound)
    (hne : price ≠ price') (hlog : m.limitLog side price qty = []) :
    Swaps.Commutes apply (fun m op => (op, m.fillsBy op)) m (.limit side price qty id)
      (.limit side price' qty' id') := by
  rcases le_or_gt qty 0 with hqty | hqty
  · have hnil : ∀ m : Market, m.limitLog side price qty = [] := fun m => by
      simp [limitLog, hqty]
    refine commutes_of_log ?_ ?_ ?_ ?_
    · rw [limit_of_nonpos h hqty, limit_of_nonpos h' hqty]
    · rw [limit_of_nonpos h hqty, limit_of_nonpos h' hqty]
    · rw [hnil, hnil]
    · simp [h, hqty]
  · -- the first one meets nobody, whether or not the second one has traded
    have hcross := not_crosses_of_limitLog_eq_nil hqty hlog
    have hcross' : ∀ o ∈ (m.limit side price' qty' id').opposite side,
        ¬ Book.crosses side price o.price :=
      forall_opposite_limit (P := fun p => ¬ Book.crosses side price p) hcross
    have hnil : m.crossing side price = [] := crossing_eq_nil (o := (id, ⟨price, qty⟩)) hcross
    have hnil' : (m.limit side price' qty' id').crossing side price = [] :=
      crossing_eq_nil (o := (id, ⟨price, qty⟩)) hcross'
    have hbeyond : m.beyond side price = m.opposite side :=
      beyond_eq (o := (id, ⟨price, qty⟩)) hcross
    have hbeyond' : (m.limit side price' qty' id').beyond side price =
        (m.limit side price' qty' id').opposite side := beyond_eq (o := (id, ⟨price, qty⟩)) hcross'
    have hopp : (m.limit side price qty id).opposite side = m.opposite side := by
      rw [opposite_limit, hnil, hbeyond]
      rfl
    have hmeets : (m.limit side price qty id).crossing side price' = m.crossing side price' := by
      rw [crossing, hopp, crossing]
    refine commutes_of_log ?_ ?_ ?_ ?_
    · rw [own_limit, own_limit, own_limit, own_limit, residual, residual, residual,
        residual, hmeets, hnil, hnil']
      simp only [Greedy.residual, hqty, if_true]
      split
      · exact place_comm (by exact hne.symm)
      · rfl
    · rw [opposite_limit, hmeets, beyond, hopp, opposite_limit, hnil', hbeyond',
        opposite_limit, beyond]
      rfl
    · rw [limitLog, limitLog, hnil', hnil]
    · rw [limitLog, limitLog, hmeets]

end Own

/-! ## Cancels -/

section Cancel
variable {m : Market} {side : UInt8} {price qty : ℤ} {id id' : UInt64}

@[simp] theorem opposite_cancel (m : Market) (side : UInt8) (id : UInt64) :
    (m.cancel id).opposite side = (m.opposite side).filter (·.1 ≠ id) := by
  rw [opposite, opposite, cancel]
  split <;> rfl

@[simp] theorem own_cancel (m : Market) (side : UInt8) (id : UInt64) :
    (m.cancel id).own side = (m.own side).filter (·.1 ≠ id) := by
  rw [own, own, cancel]
  split <;> rfl

@[simp] theorem crossing_cancel (m : Market) (side : UInt8) (price : ℤ) (id : UInt64) :
    (m.cancel id).crossing side price = (m.crossing side price).filter (·.1 ≠ id) := by
  rw [crossing, opposite_cancel, List.filter_comm, crossing]

@[simp] theorem beyond_cancel (m : Market) (side : UInt8) (price : ℤ) (id : UInt64) :
    (m.cancel id).beyond side price = (m.beyond side price).filter (·.1 ≠ id) := by
  rw [beyond, opposite_cancel, List.filter_comm, beyond]

theorem commutes_cancel : Swaps.Commutes apply (fun m op => (op, m.fillsBy op)) m (.cancel id)
    (.cancel id') where
  comm := by
    simp only [apply, cancel, Market.mk.injEq, and_true]
    exact ⟨List.filter_comm _ _ _, List.filter_comm _ _ _⟩
  first := rfl
  second := rfl

/-- **A cancel commutes with a limit** that makes no fill with the order it takes out. -/
theorem commutes_limit_cancel (hne : id ≠ id')
    (hmiss : Book.Misses id' (m.limitLog side price qty)) :
    Swaps.Commutes apply (fun m op => (op, m.fillsBy op)) m (.limit side price qty id)
      (.cancel id') := by
  have hkept : ∀ f ∈ Greedy.fills LiveOrder.qty qty (m.crossing side price), f.1.1 ≠ id' :=
    fun f hf => hmiss _ (List.mem_map_of_mem hf)
  have hlog : (m.cancel id').limitLog side price qty = m.limitLog side price qty := by
    rw [limitLog, crossing_cancel, Greedy.fills_filter hkept, limitLog]
  have hres : (m.cancel id').residual side price qty = m.residual side price qty := by
    rw [residual, crossing_cancel, Greedy.residual_filter hkept, residual]
  have hreduce : ∀ (o : LiveOrder) (taken : ℤ), (o.reduce taken).1 ≠ id' ↔ o.1 ≠ id' :=
    fun _ _ => Iff.rfl
  refine ⟨?_, congrArg (Prod.mk _) hlog, rfl⟩
  rw [apply, apply, apply, apply]
  refine ext_sides side ?_ ?_ ?_ ?_
  · rw [own_cancel, own_limit, own_limit, hres, own_cancel]
    split
    · exact filter_place_of_pos hne
    · rfl
  · rw [opposite_cancel, opposite_limit, opposite_limit, crossing_cancel, beyond_cancel,
      Greedy.left_filter hreduce hkept, List.filter_append]
  · rw [fills_limit, hlog]
    rfl
  · rw [volume_limit, hlog]
    rfl

end Cancel

/-- **Operations that do not notice each other commute.** -/
theorem commutes {m : Market} {op op' : Op} (h : Independent m.limitLog op op') (hm : m.Sound)
    (hop : (m.apply op).Sound) (hop' : (m.apply op').Sound) :
    Swaps.Commutes apply (fun m op => (op, m.fillsBy op)) m op op' := by
  cases op with
  | limit side price qty id =>
    cases op' with
    | limit side' price' qty' id' =>
      rcases h with ⟨hsides, hfar⟩ | ⟨rfl, hne, hlog | hlog⟩
      · exact commutes_opposed hsides
          (hfar.imp_right (And.imp residual_of_filled residual_of_filled))
      · exact commutes_own hm hop' hne hlog
      · exact (commutes_own hm hop hne.symm hlog).symm
    | cancel id' => exact commutes_limit_cancel h.1 h.2
  | cancel id =>
    cases op' with
    | limit side' price' qty' id' => exact (commutes_limit_cancel h.1 h.2).symm
    | cancel id' => exact commutes_cancel

end Market

/-! ## The book -/

theorem limitIds_perm {ops ops' : List Op} (h : ops.Perm ops') :
    (limitIds ops).Perm (limitIds ops') := h.filterMap _

namespace Book

/-- The fills that an operation makes. -/
def fillsBy (b : Book) : Op → List Fill
  | .limit side price qty _ => b.limitLog side price qty
  | .cancel _ => []

/-- The operations of a run, with the fills of each. -/
def tape (ops : List Op) : List (Op × List Fill) :=
  Swaps.outputs apply (fun b op => (op, b.fillsBy op)) {} ops

variable {ops ops' : List Op}

theorem sound_run (h : NeverReused ops) : (Market.run ops).Sound := by
  rw [← market_run h]
  exact sound_market h (placed_run (noLiveReuse_of_neverReused h)) (wellFormed_run ops)

theorem limitLog_run (h : NeverReused ops) : (run ops).limitLog = (Market.run ops).limitLog := by
  funext side price qty
  rw [← market_run h]
  exact market_limitLog h (placed_run (noLiveReuse_of_neverReused h)) side price qty

theorem fillsBy_run (h : NeverReused ops) (op : Op) :
    (run ops).fillsBy op = (Market.run ops).fillsBy op := by
  cases op with
  | limit side price qty id => exact congrFun (congrFun (congrFun (limitLog_run h) side) price) qty
  | cancel id => rfl

/-- The tape of the exchange. -/
theorem tape_eq (h : NeverReused ops) :
    tape ops = Swaps.outputs Market.apply (fun m op => (op, m.fillsBy op)) Market.empty ops := by
  refine Swaps.outputs_congr fun pre op post hops => ?_
  have hpre : NeverReused pre := h.of_prefix ⟨op :: post, hops.symm⟩
  exact congrArg (Prod.mk op) (fillsBy_run hpre op)

/-- A reordered sequence uses no id twice either, and comes to the same on the exchange. -/
theorem market_reordered (h : NeverReused ops)
    (hr : Swaps.Reordered (fun pre => Independent (run pre).limitLog) ops ops') :
    NeverReused ops' ∧ Market.run ops = Market.run ops' ∧ (tape ops).Perm (tape ops') := by
  have hperm : ∀ ops ops' : List Op, ops.Perm ops' → NeverReused ops → NeverReused ops' :=
    fun _ _ hp hn => (limitIds_perm hp).nodup_iff.mp hn
  have hops' : NeverReused ops' := hperm _ _ hr.perm h
  have hcommutes : ∀ pre op op' post, NeverReused (pre ++ op :: op' :: post) →
      Independent (run pre).limitLog op op' →
      Swaps.Commutes Market.apply (fun m op => (op, m.fillsBy op)) (Market.run pre) op op' := by
    intro pre op op' post hn hi
    have hn' : NeverReused (pre ++ op' :: op :: post) :=
      hperm _ _ (List.Perm.append_left pre (List.Perm.swap _ _ _)) hn
    have hpre : NeverReused pre := hn.of_prefix (List.prefix_append _ _)
    have hop : NeverReused (pre ++ [op]) := hn.of_prefix (by simp)
    have hop' : NeverReused (pre ++ [op']) := hn'.of_prefix (by simp)
    rw [limitLog_run hpre] at hi
    refine Market.commutes hi (sound_run hpre) ?_ ?_
    · rw [← Market.run_append]
      exact sound_run hop
    · rw [← Market.run_append]
      exact sound_run hop'
  obtain ⟨hmarket, htape⟩ := Swaps.Reordered.outcome hperm hcommutes hr h
  refine ⟨hops', hmarket, ?_⟩
  rw [tape_eq h, tape_eq hops']
  exact htape

/-- **Operations that do not notice each other may change places.** If no id is used twice, any
sequence that is reached by such changes of place leads to a book that holds the same orders in the
same priority, with the same counters, and every operation makes the same fills. -/
theorem reordered (h : NeverReused ops)
    (hr : Swaps.Reordered (fun pre => Independent (run pre).limitLog) ops ops') :
    (run ops).SameOrders (run ops') ∧ (run ops).fills = (run ops').fills ∧
      (run ops).volume = (run ops').volume ∧ (tape ops).Perm (tape ops') := by
  obtain ⟨hops', hrun, htape⟩ := market_reordered h hr
  have hmarket : (run ops).market = (run ops').market := by
    rw [market_run h, market_run hops', hrun]
  refine ⟨?_, congrArg Market.fills hmarket, congrArg Market.volume hmarket, htape⟩
  exact sameOrders_of_market h hops' (wellFormed_run ops) (wellFormed_run ops')
    (placed_run (noLiveReuse_of_neverReused h)) (placed_run (noLiveReuse_of_neverReused hops'))
    (congrArg Market.bids hmarket) (congrArg Market.asks hmarket)

/-- Limits to buy. -/
def IsBuy : Op → Prop
  | .limit side _ _ _ => side = sideBid
  | .cancel _ => False

instance : DecidablePred IsBuy
  | .limit side _ _ _ => inferInstanceAs (Decidable (side = sideBid))
  | .cancel _ => inferInstanceAs (Decidable False)

/-- Limits that do not cross. -/
def Far : Op → Op → Prop
  | .limit side price _ _, .limit side' price' _ _ =>
    side = sideBid → side' ≠ sideBid → price < price'
  | _, _ => False

instance : (op op' : Op) → Decidable (Far op op')
  | .limit side price _ _, .limit side' price' _ _ =>
    inferInstanceAs (Decidable (side = sideBid → side' ≠ sideBid → price < price'))
  | .limit _ _ _ _, .cancel _ => inferInstanceAs (Decidable False)
  | .cancel _, .limit _ _ _ _ => inferInstanceAs (Decidable False)
  | .cancel _, .cancel _ => inferInstanceAs (Decidable False)

/-- A seller does not notice a buyer that does not cross it. -/
theorem independent_of_far (log : UInt8 → ℤ → ℤ → List Fill) {op op' : Op} (h : Far op op')
    (hbuy : IsBuy op) (hsell : ¬IsBuy op') : Independent log op' op := by
  cases op with
  | cancel id => exact hbuy.elim
  | limit side price qty id =>
    cases op' with
    | cancel id' => exact h.elim
    | limit side' price' qty' id' =>
      have hlt : price < price' := h hbuy hsell
      simp only [IsBuy] at hbuy hsell
      refine Or.inl ⟨?_, Or.inl ?_⟩
      · simp [Opposed, hbuy, hsell]
      · simp [crosses, hsell, hlt]

/-- **Buyers and sellers that do not cross may be taken apart.** -/
theorem reordered_far {ops : List Op} (h : ∀ op ∈ ops, ∀ op' ∈ ops, Far op op')
    (pre post : List Op) :
    Swaps.Reordered (fun pre => Independent (run pre).limitLog) (pre ++ (ops ++ post))
      (pre ++ (ops.filter IsBuy ++ (ops.filter (fun op => ¬IsBuy op) ++ post))) :=
  Swaps.reordered_filter IsBuy
    (fun _ op hop op' hop' hbuy hsell => independent_of_far _ (h op hop op' hop') hbuy hsell) pre
    post

/-- A buyer that trades and rests moves behind a seller it does not cross, and behind the cancel of
an order it did not reach. -/
theorem reordered_buyer :
    (run [.limit 1 12 5 1, .limit 1 13 5 2, .limit 0 12 7 3, .limit 1 14 4 4, .cancel 2]).SameOrders
        (run [.limit 1 12 5 1, .limit 1 13 5 2, .limit 1 14 4 4, .cancel 2, .limit 0 12 7 3]) ∧
      (run [.limit 1 12 5 1, .limit 1 13 5 2, .limit 0 12 7 3, .limit 1 14 4 4, .cancel 2]).fills =
        (run [.limit 1 12 5 1, .limit 1 13 5 2, .limit 1 14 4 4, .cancel 2,
          .limit 0 12 7 3]).fills ∧
      (run [.limit 1 12 5 1, .limit 1 13 5 2, .limit 0 12 7 3, .limit 1 14 4 4, .cancel 2]).volume =
        (run [.limit 1 12 5 1, .limit 1 13 5 2, .limit 1 14 4 4, .cancel 2,
          .limit 0 12 7 3]).volume ∧
      (tape [.limit 1 12 5 1, .limit 1 13 5 2, .limit 0 12 7 3, .limit 1 14 4 4, .cancel 2]).Perm
        (tape [.limit 1 12 5 1, .limit 1 13 5 2, .limit 1 14 4 4, .cancel 2, .limit 0 12 7 3]) := by
  have hseller : Swaps.Reordered (fun pre => Independent (run pre).limitLog)
      [.limit 1 12 5 1, .limit 1 13 5 2, .limit 0 12 7 3, .limit 1 14 4 4, .cancel 2]
      [.limit 1 12 5 1, .limit 1 13 5 2, .limit 1 14 4 4, .limit 0 12 7 3, .cancel 2] :=
    Swaps.reordered_swap [Op.limit 1 12 5 1, .limit 1 13 5 2] (by decide) _
  have hcancel : Swaps.Reordered (fun pre => Independent (run pre).limitLog)
      [.limit 1 12 5 1, .limit 1 13 5 2, .limit 1 14 4 4, .limit 0 12 7 3, .cancel 2]
      [.limit 1 12 5 1, .limit 1 13 5 2, .limit 1 14 4 4, .cancel 2, .limit 0 12 7 3] :=
    Swaps.reordered_swap [Op.limit 1 12 5 1, .limit 1 13 5 2, .limit 1 14 4 4] (by decide) _
  exact reordered (by decide) (hseller.trans hcancel)

end Book
end LmaxBench.Cpp
