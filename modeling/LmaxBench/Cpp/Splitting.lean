import LmaxBench.Cpp.BookPlacement

/-!
# Splitting an order

A sweep may be stopped and taken up again: sweeping with a quantity and then with a further
one leads to the levels, the live map and the volume of sweeping with both at once. If the
first quantity runs out inside a maker, this maker is hit once more when the sweep goes on,
and that is the only difference.

## Main definitions

* `Drain.Ahead`, `Sweep.Ahead` — the same state, but for a number of further fills.
* `drain_resume`, `sweep_resume` — stopping and going on.
* `Book.SplitNeutral`, `Book.split_neutral` — one order against two.
-/

namespace LmaxBench.Cpp
namespace Book

/-! ## Further fills -/

/-- `d'` is where `d` is, with `k` fills more behind it. -/
structure Drain.Ahead (k : ℕ) (d d' : Drain) : Prop where
  lvl_eq : d'.lvl = d.lvl
  orders_eq : d'.orders = d.orders
  qty_eq : d'.qty = d.qty
  volume_eq : d'.volume = d.volume
  fills_eq : d'.fills = d.fills + UInt64.ofNat k

theorem Drain.Ahead.refl (d : Drain) : Drain.Ahead 0 d d :=
  ⟨rfl, rfl, rfl, rfl, (add_zero d.fills).symm⟩

theorem Drain.Ahead.step {k : ℕ} {d d' e : Drain} (h : Drain.Ahead k d d')
    (hstep : drainStep d = some e) : ∃ e', drainStep d' = some e' ∧ Drain.Ahead k e e' := by
  obtain ⟨hq, head, rest, hlvl, -⟩ := drainStep_cases hstep
  have hq' : 0 < d'.qty := h.qty_eq ▸ hq
  have hlvl' : d'.lvl = head :: rest := h.lvl_eq.trans hlvl
  cases hr : d.orders.find? head with
  | none =>
    rw [drainStep_of_dead hq hlvl hr] at hstep
    obtain rfl := Option.some.inj hstep
    exact ⟨_, drainStep_of_dead hq' hlvl' (h.orders_eq ▸ hr),
      rfl, h.orders_eq, h.qty_eq, h.volume_eq, h.fills_eq⟩
  | some r =>
    rw [drainStep_of_live hq hlvl hr] at hstep
    obtain rfl := Option.some.inj hstep
    refine ⟨_, drainStep_of_live hq' hlvl' (h.orders_eq ▸ hr), ?_, ?_, ?_, ?_, ?_⟩
    · rw [h.qty_eq]
    · rw [h.qty_eq, h.orders_eq]
    · rw [h.qty_eq]
    · rw [h.qty_eq, h.volume_eq]
    · simp only
      rw [h.fills_eq, add_right_comm]

theorem Drain.Ahead.drain {k : ℕ} {d d' : Drain} (h : Drain.Ahead k d d') :
    Drain.Ahead k (Book.drain d) (Book.drain d') := by
  refine Loop.exec_sim drain_variant drain_variant (Drain.Ahead k) ?_ ?_ h
  · intro d d' h hexit
    rw [drainStep_eq_none] at hexit ⊢
    rwa [h.qty_eq, h.lvl_eq]
  · intro d d' e h hstep
    exact h.step hstep

/-- `s'` is where `s` is, with `k` fills more behind it. -/
structure Sweep.Ahead (k : ℕ) (s s' : Sweep) : Prop where
  bids_eq : s'.book.bids = s.book.bids
  asks_eq : s'.book.asks = s.book.asks
  orders_eq : s'.book.orders = s.book.orders
  qty_eq : s'.qty = s.qty
  volume_eq : s'.book.volume = s.book.volume
  fills_eq : s'.book.fills = s.book.fills + UInt64.ofNat k

namespace Sweep.Ahead
variable {k : ℕ} {s s' : Sweep}

theorem refl (s : Sweep) : Sweep.Ahead 0 s s :=
  ⟨rfl, rfl, rfl, rfl, rfl, (add_zero s.book.fills).symm⟩

theorem trans {j : ℕ} {s'' : Sweep} (h : Sweep.Ahead j s s') (h' : Sweep.Ahead k s' s'') :
    Sweep.Ahead (j + k) s s'' where
  bids_eq := h'.bids_eq.trans h.bids_eq
  asks_eq := h'.asks_eq.trans h.asks_eq
  orders_eq := h'.orders_eq.trans h.orders_eq
  qty_eq := h'.qty_eq.trans h.qty_eq
  volume_eq := h'.volume_eq.trans h.volume_eq
  fills_eq := by rw [h'.fills_eq, h.fills_eq, UInt64.ofNat_add, add_assoc]

theorem bestCrossing_eq (h : Sweep.Ahead k s s') (side : UInt8) (price : ℤ) :
    s'.book.bestCrossing side price = s.book.bestCrossing side price := by
  simp only [Book.bestCrossing, h.bids_eq, h.asks_eq]

/-- The inner loops on the same level lead to the same round. -/
theorem of_drain (side : UInt8) (p : ℤ) {b b' : Book} (hbids : b'.bids = b.bids)
    (hasks : b'.asks = b.asks) {d d' : Drain} (h : Drain.Ahead k d d') :
    Sweep.Ahead k { book := b.writeBack side p d, qty := d.qty, log := d.log }
      { book := b'.writeBack side p d', qty := d'.qty, log := d'.log } where
  bids_eq := by simp only [writeBack, hbids, h.lvl_eq]
  asks_eq := by simp only [writeBack, hasks, h.lvl_eq]
  orders_eq := h.orders_eq
  qty_eq := h.qty_eq
  volume_eq := h.volume_eq
  fills_eq := h.fills_eq

end Sweep.Ahead

theorem Sweep.Ahead.sweep {k : ℕ} {s s' : Sweep} (h : Sweep.Ahead k s s') (side : UInt8)
    (price : ℤ) : Sweep.Ahead k (Book.sweep side price s) (Book.sweep side price s') := by
  refine Loop.exec_sim (sweep_variant side price) (sweep_variant side price) (Sweep.Ahead k) ?_ ?_ h
  · intro s s' h hexit
    rw [sweepStep_eq_none] at hexit ⊢
    rwa [h.qty_eq, h.bestCrossing_eq]
  · intro s s' t h hstep
    obtain ⟨hq, p, lvl, l, hl, hcross, rfl⟩ := sweepStep_cases hstep
    have hbest : s'.book.bestCrossing side price = some (p, lvl) := by
      rw [h.bestCrossing_eq, bestCrossing_eq_some]
      exact ⟨hcross, l, hl⟩
    refine ⟨_, sweepStep_of_some (h.qty_eq ▸ hq) hbest, .of_drain side _ h.bids_eq h.asks_eq ?_⟩
    exact Drain.Ahead.drain ⟨rfl, h.orders_eq, h.qty_eq, h.volume_eq, h.fills_eq⟩

/-! ## Stopping and going on: the inner loop -/

/-- The taker with `m` more. -/
def Drain.more (d : Drain) (m : ℤ) : Drain := { d with qty := d.qty + m }

theorem drain_qty_nonneg {d : Drain} (h : 0 ≤ d.qty) : 0 ≤ (drain d).qty := by
  refine drain_invariant (fun d => 0 ≤ d.qty) ?_ h
  intro d d' hd hstep
  obtain ⟨hq, head, rest, -, ⟨-, rfl⟩ | ⟨r, -, htally, -⟩⟩ := drainStep_cases hstep
  · exact hd
  · have hqty : d'.qty = d.qty - min d.qty r.qty := congrArg Tally.qty htally
    omega

/-- A maker that takes the rest of the taker is hit a second time, if there is more. -/
theorem drain_more_of_lt {d d' : Drain} {m : ℤ} (hm : 0 < m) (hq : 0 < d.qty) {head : UInt64}
    {rest : List UInt64} (hlvl : d.lvl = head :: rest) {r : Resting}
    (hr : d.orders.find? head = some r) (hlt : d.qty < r.qty) (hstep : drainStep d = some d') :
    Drain.Ahead 1 (drain (d.more m)) (drain (d'.more m)) := by
  rw [drainStep_of_live hq hlvl hr] at hstep
  have hne : ¬ r.qty - d.qty = 0 := by omega
  simp only [min_eq_left hlt.le, hne, if_false, sub_self] at hstep
  obtain rfl := Option.some.inj hstep
  have honce := drainStep_of_live (d := d.more m) (by simp only [Drain.more]; omega) hlvl hr
  have hhead : (d.orders.insert head { r with qty := r.qty - d.qty }).find? head =
      some { r with qty := r.qty - d.qty } := by
    simp
  have htwice := drainStep_of_live (d := Drain.more ⟨head :: rest,
    d.orders.insert head { r with qty := r.qty - d.qty }, 0, d.fills + 1,
    d.volume + UInt64.ofInt d.qty, d.log ++ [⟨head, d.qty⟩]⟩ m)
    (by simp only [Drain.more]; omega) rfl hhead
  -- the two hits take together what the one takes
  have hmin : min (d.qty + m) r.qty = d.qty + min (0 + m) (r.qty - d.qty) := by omega
  have hleft : r.qty - (d.qty + min (0 + m) (r.qty - d.qty)) =
      r.qty - d.qty - min (0 + m) (r.qty - d.qty) := by omega
  simp only [Drain.more, hmin, hleft] at honce
  simp only [Drain.more, OrdMap.insert_insert, OrdMap.erase_insert] at htwice
  simp only [Drain.more]
  rw [drain_of_step honce, drain_of_step htwice]
  refine Drain.Ahead.drain ⟨rfl, rfl, ?_, ?_, rfl⟩
  · simp only
    omega
  · simp only
    rw [UInt64.ofInt_add, add_assoc]

/-- **Stopping the inner loop and going on** leads where going on at once does, with one fill
more if a maker was left half-way. -/
theorem drain_resume {d : Drain} {m : ℤ} (hm : 0 < m) :
    Drain.Ahead 0 (drain (d.more m)) (drain ((drain d).more m)) ∨
      ((drain d).lvl ≠ [] ∧ Drain.Ahead 1 (drain (d.more m)) (drain ((drain d).more m))) := by
  induction d using Loop.exec_induction drain_variant with
  | exit d h =>
    rw [drain_of_exit (drainStep_eq_none.mp h)]
    exact Or.inl (.refl _)
  | round d d' h ih =>
    have hdrain : drain d = drain d' := drain_of_step h
    -- a round that does not exhaust the taker is the same round with more
    have hsame : drainStep (d.more m) = some (d'.more m) →
        drain (d.more m) = drain (d'.more m) := drain_of_step
    obtain ⟨hq, head, rest, hlvl, hcase⟩ := drainStep_cases h
    have hq' : 0 < (d.more m).qty := by
      simp only [Drain.more]
      omega
    rcases hcase with ⟨hdead, rfl⟩ | ⟨r, hr, -, ⟨hle, -⟩ | ⟨hlt, hzero, hlvl'⟩⟩
    · rw [hdrain, hsame (drainStep_of_dead hq' hlvl hdead)]
      exact ih
    · rw [drainStep_of_live hq hlvl hr] at h
      obtain rfl := Option.some.inj h
      have hmin : min (d.qty + m) r.qty = min d.qty r.qty := by omega
      have hqty : d.qty + m - min d.qty r.qty = d.qty - min d.qty r.qty + m := by omega
      have hstep := drainStep_of_live hq' hlvl hr
      simp only [Drain.more, hmin, hqty] at hstep
      rw [hdrain, hsame hstep]
      exact ih
    · have hexit : drain d' = d' := drain_of_exit (Or.inl hzero.le)
      rw [hdrain, hexit]
      refine Or.inr ⟨?_, drain_more_of_lt hm hq hlvl hr hlt h⟩
      rw [hlvl', hlvl]
      exact List.cons_ne_nil _ _

/-! ## Stopping and going on: the outer loop -/

/-- The taker with `m` more. -/
def Sweep.more (s : Sweep) (m : ℤ) : Sweep := { s with qty := s.qty + m }

@[simp] theorem writeBack_writeBack (b : Book) (side : UInt8) (p : ℤ) (d d' : Drain) :
    (b.writeBack side p d).writeBack side p d' = b.writeBack side p d' := by
  simp only [writeBack]
  split <;> simp only [Levels.put_put]

/-- **Stopping the outer loop and going on** leads where going on at once does, with at most
one fill more. -/
theorem sweep_resume (side : UInt8) (price : ℤ) {s : Sweep} {m : ℤ} (hm : 0 < m) :
    ∃ k ≤ 1, Sweep.Ahead k (sweep side price (s.more m))
      (sweep side price ((sweep side price s).more m)) := by
  induction s using Loop.exec_induction (sweep_variant side price) with
  | exit s h =>
    rw [sweep_of_exit (sweepStep_eq_none.mp h)]
    exact ⟨0, Nat.zero_le 1, .refl _⟩
  | round s s' h ih =>
    have hsweep : sweep side price s = sweep side price s' := sweep_of_step h
    obtain ⟨hq, p, lvl, l, hl, hcross, rfl⟩ := sweepStep_cases h
    have hbest : s.book.bestCrossing side price = some (p, lvl) :=
      bestCrossing_eq_some.mpr ⟨hcross, l, hl⟩
    have hq' : 0 < (s.more m).qty := by
      simp only [Sweep.more]
      omega
    have hjoint := sweep_of_step (sweepStep_of_some hq' hbest)
    have hresume := drain_resume (d := ⟨lvl, s.book.orders, s.qty, s.book.fills, s.book.volume,
      s.log⟩) hm
    by_cases hnil : (s.drainOf lvl).lvl = []
    · -- the level is used up, and the sweep goes on with what is left
      have hdrain : drain ((s.drainOf lvl).more m) = (s.drainOf lvl).more m :=
        drain_of_exit (Or.inr hnil)
      have hahead : Drain.Ahead 0 ((s.more m).drainOf lvl) ((s.drainOf lvl).more m) :=
        hdrain ▸ hresume.resolve_right fun hone => hone.1 hnil
      obtain ⟨k, hk, ih⟩ := ih
      rw [hsweep, hjoint]
      refine ⟨k, hk, ?_⟩
      have hround := (Sweep.Ahead.of_drain side p (b := s.book) rfl rfl hahead).sweep side price
      exact Nat.zero_add k ▸ hround.trans ih
    · -- a maker is left, so the taker is exhausted, and going on starts on the same level
      have hqty : (s.drainOf lvl).qty ≤ 0 := (drain_exit _).resolve_right hnil
      have hqty' : 0 ≤ (s.drainOf lvl).qty := drain_qty_nonneg (d := ⟨lvl, _, _, _, _, _⟩) hq.le
      have hstop : sweep side price s = { book := s.book.writeBack side p (s.drainOf lvl)
                                          qty := (s.drainOf lvl).qty
                                          log := (s.drainOf lvl).log } := by
        simp [hsweep, hqty]
      have hbest' : (s.book.writeBack side p (s.drainOf lvl)).bestCrossing side price =
          some (p, (s.drainOf lvl).lvl) := by
        rw [bestCrossing_eq_some, opposite_writeBack, bestFirst_put hl, if_neg hnil]
        exact ⟨hcross, l, rfl⟩
      have hsplit := sweep_of_step (sweepStep_of_some (s := (sweep side price s).more m)
        (by simp only [hstop, Sweep.more]; omega) (by rw [hstop]; exact hbest'))
      rw [hsplit, hjoint]
      simp only [hstop, Sweep.more, writeBack_writeBack]
      rcases hresume with hahead | ⟨-, hahead⟩
      · exact ⟨0, Nat.zero_le 1, (Sweep.Ahead.of_drain side p rfl rfl hahead).sweep side price⟩
      · exact ⟨1, le_refl 1, (Sweep.Ahead.of_drain side p rfl rfl hahead).sweep side price⟩

/-! ## One order against two -/

/-- The queue at `p` on the side of `side`; empty where there is no level. -/
def queueAt (b : Book) (side : UInt8) (p : ℤ) : List UInt64 := ((b.own side).find? p).getD []

/-- What `id` has resting at `p` on the side of `side`. -/
def restingAt (b : Book) (side : UInt8) (p : ℤ) (id : UInt64) : ℤ :=
  if id ∈ b.queueAt side p then (b.orders.find? id).elim 0 Resting.qty else 0

/-- `split` is the book after the orders `x` and `y` on `side` at `price`, and `joint` the book
after one order `x` with the quantity of both. -/
structure SplitNeutral (side : UInt8) (price : ℤ) (x y : UInt64) (joint split : Book) : Prop where
  volume_eq : split.volume = joint.volume
  fills_eq : split.fills = joint.fills ∨ split.fills = joint.fills + 1
  opposite_eq : split.opposite side = joint.opposite side
  orders_eq : ∀ id, id ≠ x → id ≠ y → split.orders.find? id = joint.orders.find? id
  own_eq : ∀ p, p ≠ price → (split.own side).find? p = (joint.own side).find? p
  queue_eq : (split.queueAt side price).filter (· ∉ [x, y]) =
    (joint.queueAt side price).filter (· ∉ [x, y])
  total_eq : split.restingAt side price x + split.restingAt side price y =
    joint.restingAt side price x + joint.restingAt side price y

section Rest
variable (b : Book) (side : UInt8) (price qty : ℤ) (id : UInt64)

@[simp] theorem orders_rest :
    (b.rest side price qty id).orders = b.orders.emplace id ⟨price, qty⟩ := rfl

@[simp] theorem queueAt_rest :
    (b.rest side price qty id).queueAt side price = b.queueAt side price ++ [id] := by
  rw [queueAt, own_rest, Levels.find?_pushBack, if_pos rfl]
  rfl

variable {b id}

@[simp] theorem find?_rest_of_ne {id' : UInt64} (hne : id' ≠ id) :
    (b.rest side price qty id).orders.find? id' = b.orders.find? id' := by
  simp [hne]

@[simp] theorem find?_own_rest_of_ne {p : ℤ} (hne : p ≠ price) :
    ((b.rest side price qty id).own side).find? p = (b.own side).find? p := by
  simp [hne]

@[simp] theorem restingAt_of_dead (hdead : b.orders.find? id = none) :
    b.restingAt side price id = 0 := by
  rw [restingAt, hdead]
  exact ite_self 0

theorem restingAt_rest_self (hdead : b.orders.find? id = none) :
    (b.rest side price qty id).restingAt side price id = qty := by
  have hmem : id ∈ b.queueAt side price ++ [id] := by simp
  rw [restingAt, queueAt_rest, if_pos hmem, orders_rest, OrdMap.find?_emplace, if_pos rfl, hdead]
  rfl

@[simp] theorem restingAt_rest_of_ne {id' : UInt64} (hne : id' ≠ id) :
    (b.rest side price qty id).restingAt side price id' = b.restingAt side price id' := by
  have hmem : id' ∈ b.queueAt side price ++ [id] ↔ id' ∈ b.queueAt side price := by simp [hne]
  simp only [restingAt, queueAt_rest, hmem, find?_rest_of_ne side price qty hne]

end Rest

theorem Sweep.Ahead.opposite_eq {k : ℕ} {s s' : Sweep} (h : Sweep.Ahead k s s') (side : UInt8) :
    s'.book.opposite side = s.book.opposite side := by
  simp only [opposite, h.bids_eq, h.asks_eq]

theorem Sweep.Ahead.own_eq {k : ℕ} {s s' : Sweep} (h : Sweep.Ahead k s s') (side : UInt8) :
    s'.book.own side = s.book.own side := by
  simp only [own, h.bids_eq, h.asks_eq]

theorem Sweep.Ahead.queueAt_eq {k : ℕ} {s s' : Sweep} (h : Sweep.Ahead k s s') (side : UInt8)
    (p : ℤ) : s'.book.queueAt side p = s.book.queueAt side p := by
  simp only [queueAt, h.own_eq]

theorem Sweep.Ahead.fills_eq_or {k : ℕ} {s s' : Sweep} (h : Sweep.Ahead k s s') (hk : k ≤ 1) :
    s'.book.fills = s.book.fills ∨ s'.book.fills = s.book.fills + 1 := by
  obtain rfl | rfl : k = 0 ∨ k = 1 := by omega
  · exact Or.inl (h.fills_eq.trans (add_zero _))
  · exact Or.inr h.fills_eq

section Neutral
variable {side : UInt8} {price : ℤ} {x y : UInt64} {k : ℕ} {s s' : Sweep}

/-- Neither sweep leaves a residual. -/
theorem Sweep.Ahead.neutral (h : Sweep.Ahead k s s') (hk : k ≤ 1) :
    SplitNeutral side price x y s.book s'.book where
  volume_eq := h.volume_eq
  fills_eq := h.fills_eq_or hk
  opposite_eq := h.opposite_eq side
  orders_eq id _ _ := by rw [h.orders_eq]
  own_eq p _ := by rw [h.own_eq]
  queue_eq := by rw [h.queueAt_eq]
  total_eq := by simp only [restingAt, h.queueAt_eq, h.orders_eq]

/-- The first order is used up, and the second leaves the residual of the joint order. -/
theorem Sweep.Ahead.neutral_second (h : Sweep.Ahead k s s') (hk : k ≤ 1) (hxy : x ≠ y)
    (hx : s.book.orders.find? x = none) (hy : s.book.orders.find? y = none) (qty : ℤ) :
    SplitNeutral side price x y (s.book.rest side price qty x) (s'.book.rest side price qty y) where
  volume_eq := h.volume_eq
  fills_eq := h.fills_eq_or hk
  opposite_eq := by simp [h.opposite_eq]
  orders_eq id hidx hidy := by
    simp [hidx, hidy, h.orders_eq]
  own_eq p hp := by
    simp [hp, h.own_eq]
  queue_eq := by simp [h.queueAt_eq]
  total_eq := by
    rw [restingAt_rest_self _ _ _ hx, restingAt_rest_self _ _ _ (h.orders_eq ▸ hy),
      restingAt_rest_of_ne _ _ _ hxy, restingAt_rest_of_ne _ _ _ hxy.symm,
      restingAt_of_dead _ _ hy, restingAt_of_dead _ _ (h.orders_eq ▸ hx), zero_add, add_zero]

/-- The first order rests, and the second with it. -/
theorem Sweep.Ahead.neutral_both (side : UInt8) (price : ℤ) (h : Sweep.Ahead k s s') (hk : k ≤ 1)
    (hxy : x ≠ y) (hx : s.book.orders.find? x = none) (hy : s.book.orders.find? y = none)
    (qty m : ℤ) :
    SplitNeutral side price x y (s.book.rest side price (qty + m) x)
      ((s'.book.rest side price qty x).rest side price m y) where
  volume_eq := h.volume_eq
  fills_eq := h.fills_eq_or hk
  opposite_eq := by simp [h.opposite_eq]
  orders_eq id hidx hidy := by
    rw [find?_rest_of_ne _ _ _ hidx, find?_rest_of_ne _ _ _ hidy, find?_rest_of_ne _ _ _ hidx,
      h.orders_eq]
  own_eq p hp := by
    rw [find?_own_rest_of_ne _ _ _ hp, find?_own_rest_of_ne _ _ _ hp,
      find?_own_rest_of_ne _ _ _ hp, h.own_eq]
  queue_eq := by simp [h.queueAt_eq]
  total_eq := by
    have hx' : s'.book.orders.find? x = none := h.orders_eq ▸ hx
    have hy' : (s'.book.rest side price qty x).orders.find? y = none := by
      rw [find?_rest_of_ne _ _ _ hxy.symm, h.orders_eq, hy]
    rw [restingAt_rest_of_ne _ _ _ hxy, restingAt_rest_self _ _ _ hx',
      restingAt_rest_self _ _ _ hy', restingAt_rest_self _ _ _ hx,
      restingAt_rest_of_ne _ _ _ hxy.symm, restingAt_of_dead _ _ hy, add_zero]

end Neutral

theorem sweep_qty_nonneg (side : UInt8) (price : ℤ) {s : Sweep} (h : 0 ≤ s.qty) :
    0 ≤ (sweep side price s).qty := by
  refine sweep_invariant (fun s => 0 ≤ s.qty) ?_ h
  intro s s' h hstep
  obtain ⟨-, p, lvl, l, -, -, rfl⟩ := sweepStep_cases hstep
  exact drain_qty_nonneg (d := ⟨lvl, _, _, _, _, _⟩) h

/-- **Splitting is neutral**: where the two ids are free. -/
theorem limit_split {b : Book} {x y : UInt64} (hx : b.orders.find? x = none)
    (hy : b.orders.find? y = none) (hxy : x ≠ y) (side : UInt8) (price : ℤ) {qty m : ℤ}
    (hqty : 0 < qty) (hm : 0 < m) :
    SplitNeutral side price x y (b.limit side price (qty + m) x)
      ((b.limit side price qty x).limit side price m y) := by
  obtain ⟨k, hk, hahead⟩ := sweep_resume side price (s := { book := b, qty }) hm
  have hx' : (sweep side price { book := b, qty := qty + m }).book.orders.find? x = none :=
    find?_sweep_none side price hx
  have hy' : (sweep side price { book := b, qty := qty + m }).book.orders.find? y = none :=
    find?_sweep_none side price hy
  have hnonneg : 0 ≤ (sweep side price { book := b, qty }).qty :=
    sweep_qty_nonneg side price hqty.le
  generalize hjoint : sweep side price { book := b, qty := qty + m } = joint at hx' hy'
  generalize hfirst : sweep side price { book := b, qty } = first at hnonneg
  rw [hfirst, Sweep.more, hjoint] at hahead
  rcases hnonneg.lt_or_eq with hpos | hzero
  · -- nothing crosses any more, so the second order rests as it is
    have hnone : first.book.bestCrossing side price = none := by
      rw [← hfirst] at hpos ⊢
      exact (sweep_exit side price _).resolve_left (not_le.mpr hpos)
    rw [sweep_of_exit (s := first.more m) (Or.inr hnone)] at hahead
    have hnone' : (first.book.rest side price first.qty x).bestCrossing side price = none := by
      rwa [bestCrossing_eq, opposite_rest, ← bestCrossing_eq]
    have hqtyJ : first.qty + m = joint.qty := hahead.qty_eq
    have hposJ : 0 < joint.qty := by omega
    have hneutral := hahead.neutral_both side price hk hxy hx' hy' first.qty m
    simp only [limit, hfirst, hjoint, if_pos hpos, if_pos hposJ]
    rw [sweep_of_exit (Or.inr hnone'), if_pos hm, ← hqtyJ]
    exact hneutral
  · -- the second sweep goes on where the first one stopped
    have hnot : ¬ 0 < first.qty := by omega
    have hstart : Sweep.Ahead 0 { first with qty := first.qty + m }
        { book := first.book, qty := m } :=
      ⟨rfl, rfl, rfl, by simp only [← hzero, zero_add], rfl, (add_zero _).symm⟩
    have hsecond := hahead.trans (hstart.sweep side price)
    have hqtyJ := hsecond.qty_eq
    simp only [limit, hfirst, hjoint, if_neg hnot, hqtyJ]
    split
    · exact hsecond.neutral_second hk hxy hx' hy' joint.qty
    · exact hsecond.neutral hk

/-- **Splitting an order is neutral**, on every book that orders with ids that are not used
again lead to. -/
theorem split_neutral {ops : List Op} {side : UInt8} {price qty m : ℤ} {x y : UInt64}
    (hops : NeverReused (ops ++ [.limit side price qty x, .limit side price m y]))
    (hqty : 0 < qty) (hm : 0 < m) :
    SplitNeutral side price x y ((run ops).limit side price (qty + m) x)
      (((run ops).limit side price qty x).limit side price m y) := by
  have hx : NeverReused (ops ++ [.limit side price qty x]) :=
    hops.of_prefix ⟨[.limit side price m y], by simp⟩
  have hy : NeverReused (ops ++ [.limit side price m y]) := by
    simp only [NeverReused, limitIds_append] at hops ⊢
    refine hops.sublist (List.Sublist.append_left ?_ _)
    simp [limitIds]
  have hp : (run ops).Placed ops :=
    placed_run (noLiveReuse_of_neverReused (hx.of_prefix (List.prefix_append _ _)))
  have hxy : x ≠ y := by
    simp only [NeverReused, limitIds_append] at hops
    have hpair : [x, y].Nodup := hops.of_append_right
    simpa using hpair
  exact limit_split (hp.fresh hx) (hp.fresh hy) hxy side price hqty hm

/-- Split inside a maker of the second level, with a stale entry before it and an own order at
the same price. -/
theorem split_neutral_partial :
    SplitNeutral 0 12 6 7
      ((run [.limit 1 11 2 1, .limit 1 12 5 2, .limit 1 12 4 3, .cancel 2, .limit 0 9 1 4]).limit
        0 12 (3 + 6) 6)
      (((run [.limit 1 11 2 1, .limit 1 12 5 2, .limit 1 12 4 3, .cancel 2,
        .limit 0 9 1 4]).limit 0 12 3 6).limit 0 12 6 7) :=
  split_neutral (by decide) (by decide) (by decide)

end Book
end LmaxBench.Cpp
