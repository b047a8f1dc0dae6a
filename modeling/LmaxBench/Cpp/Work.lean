import LmaxBench.Lib.Cost
import LmaxBench.Cpp.Accounting

/-!
# What matching costs

A single limit may pass over any number of stale entries and empty any number of levels, but over
a whole run matching is linear: every round of the inner loop pops a queue entry or is the last
one, every round of the outer loop removes a level or is the last one, and a limit adds one entry
to one level at most. So cancelling lazily is never paid for twice: each cancel of a live order
leaves one entry to be skipped, and it is skipped once or still there.

## Main definitions

* `Book.innerOf`, `Book.outerOf`, `Book.skipsOf` — the rounds of the two loops in one operation, and
  those of the inner one that pass over a stale entry.
* `Book.innerOf_add_le`, `Book.outerOf_add_le`, `Book.skipsOf_eq` — what pays for them.
* `Book.Costs`, `Book.costs_run` — over a whole run.
-/

namespace LmaxBench.Cpp

/-! ## Entries -/

namespace Levels

/-- The entries of the levels. -/
def entryCount (m : Levels) : ℕ := m.sum List.length

theorem entryCount_put {m : Levels} {p : ℤ} {lvl : List UInt64} (h : m.find? p = some lvl)
    (lvl' : List UInt64) : (put m p lvl').entryCount + lvl.length = m.entryCount + lvl'.length := by
  rw [put, entryCount, entryCount]
  split
  case isTrue hnil =>
    rw [hnil]
    exact OrdMap.sum_erase_add h List.length
  case isFalse => exact OrdMap.sum_insert_add h List.length lvl'

@[simp] theorem entryCount_pushBack (m : Levels) (p : ℤ) (id : UInt64) :
    (pushBack m p id).entryCount = m.entryCount + 1 := by
  have hsum := m.sum_alter List.length p fun o => some (o.getD [] ++ [id])
  have halter : m.alter p (fun o => some (o.getD [] ++ [id])) = pushBack m p id := rfl
  rw [halter] at hsum
  rw [entryCount, entryCount]
  cases hp : m.find? p <;> simp [hp] at hsum <;> omega

theorem size_pushBack_le (m : Levels) (p : ℤ) (id : UInt64) :
    (pushBack m p id).size ≤ m.size + 1 := by
  have hsize := m.size_alter p fun o => some (o.getD [] ++ [id])
  have halter : m.alter p (fun o => some (o.getD [] ++ [id])) = pushBack m p id := rfl
  rw [halter, Option.toList_some, List.length_singleton] at hsize
  omega

end Levels

namespace Book

/-! ## The inner loop -/

/-- The rounds of the inner loop. -/
def Drain.rounds (d : Drain) : ℕ := Loop.cost drainStep (fun _ => 1) Drain.variant d

/-- The round passes over the head of the queue: its order is gone. -/
def Drain.stale (d : Drain) : ℕ :=
  match d.lvl with
  | [] => 0
  | head :: _ => if d.orders.find? head = none then 1 else 0

/-- The rounds of the inner loop that pass over a stale entry. -/
def Drain.skips (d : Drain) : ℕ := Loop.cost drainStep Drain.stale Drain.variant d

/-- Every round pops an entry, or is the last one. -/
theorem Drain.rounds_add_le (d : Drain) : d.rounds + (drain d).variant ≤ d.variant := by
  refine Loop.cost_add_le drain_variant ?_ d
  intro d d' h
  have hlt := drain_variant d d' h
  omega

/-- Every round makes a fill, or passes over a stale entry. -/
theorem Drain.rounds_eq (d : Drain) :
    d.rounds + d.log.length = d.skips + (drain d).log.length := by
  refine Loop.cost_balance (Φ := fun _ => 0) (Ψ := fun d => d.log.length) drain_variant ?_ d
  intro d d' h
  obtain ⟨-, head, rest, hlvl, ⟨hdead, rfl⟩ | ⟨r, hr, htally, -⟩⟩ := drainStep_cases h
  · simp [stale, hlvl, hdead]
  · have hlog : d'.log = d.log ++ [⟨head, min d.qty r.qty⟩] := congrArg Tally.log htally
    simp [stale, hlvl, hr, hlog]
    omega

/-- A fill drops a record just if the maker is filled. -/
theorem size_fill {t : Tally} {head : UInt64} {r : Resting} (hr : t.orders.find? head = some r) :
    (t.fill head r).orders.size + (if r.qty ≤ t.qty then 1 else 0) = t.orders.size := by
  rw [Tally.fill]
  dsimp only
  rcases le_or_gt r.qty t.qty with hle | hlt
  · rw [min_eq_right hle, sub_self, if_pos rfl, if_pos hle]
    exact OrdMap.size_erase_add_one hr
  · have hne : r.qty - t.qty ≠ 0 := by omega
    rw [min_eq_left hlt.le, if_neg hne, if_neg (not_le.mpr hlt)]
    exact OrdMap.size_insert_of_some hr _

/-- Every entry popped goes with a record, but for the stale ones. -/
theorem Drain.skips_eq (d : Drain) :
    d.skips + (drain d).lvl.length + d.orders.size = d.lvl.length + (drain d).orders.size := by
  have hbalance := Loop.cost_balance (w := Drain.stale) (v := fun _ => 0)
    (Φ := fun d => d.lvl.length) (Ψ := fun d => d.orders.size) drain_variant ?_ d
  · rw [Loop.cost_zero drain_variant, Nat.zero_add] at hbalance
    exact hbalance
  · intro d d' h
    obtain ⟨-, head, rest, hlvl, ⟨hdead, rfl⟩ | ⟨r, hr, htally, hpop⟩⟩ := drainStep_cases h
    · simp [stale, hlvl, hdead]
      omega
    · have hsize := size_fill (t := d.tally) hr
      have horders : d'.orders = (d.tally.fill head r).orders := congrArg Tally.orders htally
      have hqty : d.tally.qty = d.qty := rfl
      rw [← horders, hqty] at hsize
      have htally' : d.tally.orders = d.orders := rfl
      rw [htally'] at hsize
      rcases hpop with ⟨hle, hrest⟩ | ⟨hlt, -, hsame⟩
      · rw [if_pos hle] at hsize
        simp [stale, hlvl, hr, hrest]
        omega
      · rw [if_neg (not_le.mpr hlt)] at hsize
        simp [stale, hlvl, hr, hsame]
        omega

/-! ## The outer loop -/

/-- The inner loop as the outer loop starts it on the level `lvl`. -/
def Sweep.start (s : Sweep) (lvl : List UInt64) : Drain :=
  ⟨lvl, s.book.orders, s.qty, s.book.fills, s.book.volume, s.log⟩

@[simp] theorem Sweep.drain_start (s : Sweep) (lvl : List UInt64) :
    drain (s.start lvl) = s.drainOf lvl := rfl

/-- What the inner loop costs in a round of the outer one, where it costs `w`. -/
def Sweep.inner (w : Drain → ℕ) (side : UInt8) (price : ℤ) (s : Sweep) : ℕ :=
  match s.book.bestCrossing side price with
  | none => 0
  | some (_, lvl) => w (s.start lvl)

/-- What the inner loops of a sweep cost. -/
def Sweep.innerCost (w : Drain → ℕ) (side : UInt8) (price : ℤ) (s : Sweep) : ℕ :=
  Loop.cost (sweepStep side price) (Sweep.inner w side price) (Sweep.variant side) s

/-- The rounds of the outer loop. -/
def Sweep.rounds (side : UInt8) (price : ℤ) (s : Sweep) : ℕ :=
  Loop.cost (sweepStep side price) (fun _ => 1) (Sweep.variant side) s

section Sweep
variable {side : UInt8} {price : ℤ}

theorem Sweep.inner_of_best {w : Drain → ℕ} {s : Sweep} {p : ℤ} {lvl : List UInt64}
    {l : List (ℤ × List UInt64)} (hl : bestFirst side (s.book.opposite side) = (p, lvl) :: l)
    (hcross : crosses side price p) :
    Sweep.inner w side price s = w (s.start lvl) := by
  rw [Sweep.inner, bestCrossing_eq_some.mpr ⟨hcross, l, hl⟩]

/-- The round on the level at `p` moves the entries by what the inner loop leaves of it. -/
theorem entryCount_writeBack {s : Sweep} {p : ℤ} {lvl : List UInt64}
    {l : List (ℤ × List UInt64)} (hl : bestFirst side (s.book.opposite side) = (p, lvl) :: l)
    (d : Drain) :
    ((s.book.writeBack side p d).opposite side).entryCount + lvl.length =
      (s.book.opposite side).entryCount + d.lvl.length := by
  have hp : (s.book.opposite side).find? p = some lvl :=
    mem_bestFirst.mp (hl ▸ List.mem_cons_self)
  rw [opposite_writeBack]
  exact Levels.entryCount_put hp d.lvl

variable (side price)

/-- **The inner loops of a sweep** pop entries, but for their last round. -/
theorem Sweep.inner_add_le (s : Sweep) :
    s.innerCost Drain.rounds side price + (((sweep side price s).book.opposite side).entryCount +
        if 0 < (sweep side price s).qty then 1 else 0) ≤
      (s.book.opposite side).entryCount + if 0 < s.qty then 1 else 0 := by
  refine Loop.cost_add_le (Φ := fun s => (s.book.opposite side).entryCount +
    if 0 < s.qty then 1 else 0) (sweep_variant side price) ?_ s
  intro s s' h
  obtain ⟨hq, p, lvl, l, hl, hcross, rfl⟩ := sweepStep_cases h
  have hdrain := Drain.rounds_add_le (s.start lvl)
  have hcount := entryCount_writeBack hl (s.drainOf lvl)
  have hvariant : (s.start lvl).variant = lvl.length + if 0 < s.qty then 1 else 0 := rfl
  rw [Sweep.drain_start, hvariant, Drain.variant] at hdrain
  rw [Sweep.inner_of_best hl hcross]
  dsimp only
  omega

/-- **The outer loop** removes levels, but for its last round. -/
theorem Sweep.rounds_add_le (s : Sweep) :
    s.rounds side price + (((sweep side price s).book.opposite side).size +
        if 0 < (sweep side price s).qty then 1 else 0) ≤
      (s.book.opposite side).size + if 0 < s.qty then 1 else 0 := by
  refine Loop.cost_add_le (Φ := Sweep.variant side) (sweep_variant side price) ?_ s
  intro s s' h
  have hlt := sweep_variant side price s s' h
  omega

/-- The rounds of the inner loops make fills, or pass over stale entries. -/
theorem Sweep.inner_eq (s : Sweep) :
    s.innerCost Drain.rounds side price + s.log.length =
      s.innerCost Drain.skips side price + (sweep side price s).log.length := by
  refine Loop.cost_balance (Φ := fun _ => 0) (Ψ := fun s => s.log.length)
    (sweep_variant side price) ?_ s
  intro s s' h
  obtain ⟨-, p, lvl, l, hl, hcross, rfl⟩ := sweepStep_cases h
  have hdrain := Drain.rounds_eq (s.start lvl)
  have hlog : (s.start lvl).log = s.log := rfl
  rw [Sweep.drain_start, hlog] at hdrain
  rw [Sweep.inner_of_best hl hcross, Sweep.inner_of_best hl hcross]
  exact hdrain

/-- Entries go with records, but for those that are passed over. -/
theorem Sweep.skips_eq (s : Sweep) :
    s.innerCost Drain.skips side price + ((sweep side price s).book.opposite side).entryCount +
        s.book.orders.size =
      (s.book.opposite side).entryCount + (sweep side price s).book.orders.size := by
  have hbalance := Loop.cost_balance (w := Sweep.inner Drain.skips side price) (v := fun _ => 0)
    (Φ := fun s => (s.book.opposite side).entryCount) (Ψ := fun s => s.book.orders.size)
    (sweep_variant side price) ?_ s
  · rw [Loop.cost_zero (sweep_variant side price), Nat.zero_add] at hbalance
    exact hbalance
  · intro s s' h
    obtain ⟨-, p, lvl, l, hl, hcross, rfl⟩ := sweepStep_cases h
    have hdrain := Drain.skips_eq (s.start lvl)
    have hcount := entryCount_writeBack hl (s.drainOf lvl)
    have hstart : (s.start lvl).lvl = lvl ∧ (s.start lvl).orders = s.book.orders := ⟨rfl, rfl⟩
    have horders : (s.book.writeBack side p (s.drainOf lvl)).orders = (s.drainOf lvl).orders := rfl
    rw [Sweep.drain_start, hstart.1, hstart.2] at hdrain
    rw [Sweep.inner_of_best hl hcross, horders]
    dsimp only
    omega

end Sweep

/-! ## One operation -/

/-- The entries of both sides. -/
def entryCount (b : Book) : ℕ := b.bids.entryCount + b.asks.entryCount

/-- The levels of both sides. -/
def levelCount (b : Book) : ℕ := b.bids.size + b.asks.size

/-- The rounds of the inner loop in one operation. -/
def innerOf (b : Book) : Op → ℕ
  | .limit side price qty _ => Sweep.innerCost Drain.rounds side price { book := b, qty }
  | .cancel _ => 0

/-- The rounds of the outer loop in one operation. -/
def outerOf (b : Book) : Op → ℕ
  | .limit side price qty _ => Sweep.rounds side price { book := b, qty }
  | .cancel _ => 0

/-- The stale entries that one operation passes over. -/
def skipsOf (b : Book) : Op → ℕ
  | .limit side price qty _ => Sweep.innerCost Drain.skips side price { book := b, qty }
  | .cancel _ => 0

/-- A limit of a positive quantity. -/
def isOrder : Op → ℕ
  | .limit _ _ qty _ => if 0 < qty then 1 else 0
  | .cancel _ => 0

section Op
variable (b : Book) (side : UInt8)

theorem entryCount_eq : b.entryCount = (b.own side).entryCount + (b.opposite side).entryCount := by
  rw [entryCount, own, opposite]
  split
  · rfl
  · exact Nat.add_comm ..

theorem levelCount_eq : b.levelCount = (b.own side).size + (b.opposite side).size := by
  rw [levelCount, own, opposite]
  split
  · rfl
  · exact Nat.add_comm ..

/-- The entries after a limit: those its sweep leaves, and one for a residual. -/
theorem entryCount_limit (price qty : ℤ) (id : UInt64) :
    (b.limit side price qty id).entryCount = (b.own side).entryCount +
      ((sweep side price { book := b, qty }).book.opposite side).entryCount +
        if 0 < (sweep side price { book := b, qty }).qty then 1 else 0 := by
  have hown : (sweep side price { book := b, qty }).book.own side = b.own side :=
    own_sweep side price { book := b, qty }
  rw [entryCount_eq _ side]
  unfold limit
  dsimp only
  split
  · rw [own_rest, opposite_rest, Levels.entryCount_pushBack, hown]
    omega
  · rw [hown, Nat.add_zero]

theorem levelCount_limit_le (price qty : ℤ) (id : UInt64) :
    (b.limit side price qty id).levelCount ≤ (b.own side).size +
      ((sweep side price { book := b, qty }).book.opposite side).size +
        if 0 < (sweep side price { book := b, qty }).qty then 1 else 0 := by
  have hown : (sweep side price { book := b, qty }).book.own side = b.own side :=
    own_sweep side price { book := b, qty }
  rw [levelCount_eq _ side]
  unfold limit
  dsimp only
  split
  · have hsize := Levels.size_pushBack_le (b.own side) price id
    rw [own_rest, opposite_rest, hown]
    omega
  · rw [hown, Nat.add_zero]

/-- **The inner loop is paid for**: an order pays one round or leaves one entry. -/
theorem innerOf_add_le (op : Op) : b.innerOf op + (b.apply op).entryCount ≤
    b.entryCount + isOrder op := by
  cases op with
  | limit side price qty id =>
    have hsweep := Sweep.inner_add_le side price { book := b, qty }
    have hlimit := b.entryCount_limit side price qty id
    have hentries := b.entryCount_eq side
    simp only [apply, innerOf, isOrder]
    dsimp only at hsweep
    omega
  | cancel id => exact (Nat.zero_add _).le

/-- **The outer loop is paid for**: an order pays one round or leaves one level. -/
theorem outerOf_add_le (op : Op) : b.outerOf op + (b.apply op).levelCount ≤
    b.levelCount + isOrder op := by
  cases op with
  | limit side price qty id =>
    have hsweep := Sweep.rounds_add_le side price { book := b, qty }
    have hlimit := b.levelCount_limit_le side price qty id
    have hlevels := b.levelCount_eq side
    simp only [apply, outerOf, isOrder]
    dsimp only at hsweep
    omega
  | cancel id => exact (Nat.zero_add _).le

theorem innerOf_eq (op : Op) : b.innerOf op = b.skipsOf op + b.fillsOf op := by
  cases op with
  | limit side price qty id =>
    exact Sweep.inner_eq side price { book := b, qty }
  | cancel id => rfl

/-- An operation that reuses no live id moves the entries without a record by the live order it
cancels and by the stale entries it passes over. -/
theorem skipsOf_eq {op : Op} (h : b.Fresh op) :
    b.skipsOf op + (b.apply op).entryCount + b.orders.size =
      b.entryCount + (b.apply op).orders.size + b.hitsOf op := by
  cases op with
  | limit side price qty id =>
    have hsweep := Sweep.skips_eq side price { book := b, qty }
    have hlimit := b.entryCount_limit side price qty id
    have hentries := b.entryCount_eq side
    have horders : (b.limit side price qty id).orders.size =
        (sweep side price { book := b, qty }).book.orders.size +
          if 0 < (sweep side price { book := b, qty }).qty then 1 else 0 := by
      have hnone : (sweep side price { book := b, qty }).book.orders.find? id = none :=
        find?_sweep_none side price h
      unfold limit
      dsimp only
      split
      · rw [rest, OrdMap.emplace_eq_insert hnone]
        exact OrdMap.size_insert_of_none hnone _
      · rfl
    simp only [apply, skipsOf, hitsOf]
    dsimp only at hsweep
    omega
  | cancel id =>
    simp only [apply, skipsOf, hitsOf, cancel]
    have hentries : ({ b with orders := b.orders.erase id } : Book).entryCount = b.entryCount := rfl
    rw [hentries]
    cases hid : b.orders.find? id with
    | none =>
      rw [OrdMap.erase_of_none hid, if_pos rfl]
      omega
    | some r =>
      have hsize := OrdMap.size_erase_add_one hid
      rw [if_neg (Option.some_ne_none r)]
      omega

end Op

/-! ## The run -/

theorem total_eq_runCost (count : Book → Op → ℕ) (b : Book) (ops : List Op) :
    total count b ops = Loop.runCost apply count b ops := by
  induction ops generalizing b with
  | nil => rfl
  | cons op ops ih => rw [total, Loop.runCost, ih]

@[simp] theorem sum_isOrder (ops : List Op) : (ops.map isOrder).sum = positiveLimits ops := by
  induction ops with
  | nil => rfl
  | cons op ops ih =>
    rw [List.map_cons, List.sum_cons, ih, positiveLimits, positiveLimits, List.countP_cons]
    cases op with
    | limit side price qty id => simp [isOrder, Nat.add_comm]
    | cancel id => simp [isOrder]

theorem total_add (count count' : Book → Op → ℕ) (b : Book) (ops : List Op) :
    total (fun b op => count b op + count' b op) b ops =
      total count b ops + total count' b ops := by
  induction ops generalizing b with
  | nil => rfl
  | cons op ops ih =>
    rw [total, total, total, ih]
    omega

theorem skips_total {b : Book} {ops : List Op} (h : b.NoLiveReuse ops) :
    total skipsOf b ops + (ops.foldl apply b).entryCount + b.orders.size =
      b.entryCount + (ops.foldl apply b).orders.size + total hitsOf b ops := by
  induction ops generalizing b with
  | nil => simp only [total, List.foldl_nil, Nat.zero_add, Nat.add_zero]
  | cons op ops ih =>
    have hop := b.skipsOf_eq h.1
    have hrest := ih h.2
    rw [total, total, List.foldl_cons]
    omega

/-- What a run costs. -/
structure Costs (ops : List Op) : Prop where
  /-- Every order pays for one round of the inner loop, or for the entry that is left. -/
  inner_le : total innerOf {} ops + (run ops).entryCount ≤ positiveLimits ops
  /-- Every order pays for one round of the outer loop, or for the level that is left. -/
  outer_le : total outerOf {} ops + (run ops).levelCount ≤ positiveLimits ops
  /-- A round makes a fill, or passes over a stale entry. -/
  inner_eq : total innerOf {} ops = total skipsOf {} ops + fillEvents {} ops
  /-- The entry of a cancelled order is passed over once, or is still there. -/
  skips_eq : NoLiveReuse {} ops →
    total skipsOf {} ops + (run ops).entryCount = (run ops).resting + cancelHits {} ops

/-- **Matching is linear**, over every run. -/
theorem costs_run (ops : List Op) : Costs ops where
  inner_le := by
    have hrun := Loop.runCost_add_le innerOf_add_le {} ops
    rw [← total_eq_runCost, sum_isOrder] at hrun
    exact hrun.trans (Nat.zero_add _).le
  outer_le := by
    have hrun := Loop.runCost_add_le outerOf_add_le {} ops
    rw [← total_eq_runCost, sum_isOrder] at hrun
    exact hrun.trans (Nat.zero_add _).le
  inner_eq := by
    have hcount : innerOf = fun b op => skipsOf b op + fillsOf b op :=
      funext fun b => funext fun op => b.innerOf_eq op
    rw [hcount]
    exact total_add skipsOf fillsOf {} ops
  skips_eq := by
    intro h
    have htotal := skips_total h
    have hentries : ({} : Book).entryCount = 0 := rfl
    have hsize : ({} : Book).orders.size = 0 := rfl
    rw [hentries, hsize, Nat.add_zero, Nat.zero_add] at htotal
    exact htotal

/-- Two orders are cancelled, and a third one is live: an entry is stale, or has been passed
over. -/
theorem costs_run_cancelled :
    total skipsOf {} [.limit 1 12 5 1, .limit 1 13 4 2, .cancel 1, .cancel 2, .limit 0 12 6 3] +
        (run [.limit 1 12 5 1, .limit 1 13 4 2, .cancel 1, .cancel 2, .limit 0 12 6 3]).entryCount =
      (run [.limit 1 12 5 1, .limit 1 13 4 2, .cancel 1, .cancel 2, .limit 0 12 6 3]).resting +
        cancelHits {} [.limit 1 12 5 1, .limit 1 13 4 2, .cancel 1, .cancel 2, .limit 0 12 6 3] :=
  (costs_run [.limit 1 12 5 1, .limit 1 13 4 2, .cancel 1, .cancel 2, .limit 0 12 6 3]).skips_eq
    (by decide +kernel)

/-- A limit that passes over two stale entries and two levels. -/
example : total innerOf {} [.limit 1 12 5 1, .limit 1 13 4 2, .cancel 1, .cancel 2,
    .limit 0 14 6 3] = 2 := by
  decide +kernel

end Book
end LmaxBench.Cpp
