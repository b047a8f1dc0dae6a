import LmaxBench.Cpp.TunedConformance

/-!
# The generated stream

What the generator can draw: the mid price stays between its clamps, limits carry the
next id, prices a few ticks around the mid price and small quantities, and cancels name
an id that was issued before, or zero.

So the stream uses no id twice, and the ids of its first `n` operations are at most `n`:
a tuned book that is built for `n` operations has room for all of them.

## Main definitions

* `Gen.nextOp_cases` — one step of the generator.
* `Gen.Issued`, `Gen.issued_after` — the ids issued so far.
* `Gen.InBounds`, `Gen.in_bounds` — the bounds of the stream, and a faultless run on it.
-/

namespace LmaxBench.Cpp
namespace Gen

/-! ## One step -/

theorem toNat_mod_lt (a : UInt64) {n : UInt64} (h : 0 < n.toNat) : (a % n).toNat < n.toNat := by
  rw [UInt64.toNat_mod]
  exact Nat.mod_lt _ h

theorem walk_bounds (r : UInt64) {mid : ℤ} (h0 : 500 ≤ mid) (h1 : mid ≤ 1500) :
    500 ≤ walk r mid ∧ walk r mid ≤ 1500 := by
  simp only [walk]
  split
  · omega
  · exact ⟨h0, h1⟩

@[simp] theorem mid_nextOp (g : Gen) : g.nextOp.mid = walk g.rng.next.1 g.mid := by
  simp only [nextOp]
  split <;> rfl

/-- **One step of the generator**: a limit with the next id near the mid price, or a cancel
of an id that is not ahead of the issued ones. -/
theorem nextOp_cases (g : Gen) :
    (∃ side price qty, g.nextOp.op = .limit side price qty (g.lastId + 1) ∧
        g.nextOp.lastId = g.lastId + 1 ∧ g.nextOp.mid - 20 ≤ price ∧ price ≤ g.nextOp.mid + 20 ∧
        1 ≤ qty ∧ qty ≤ 100) ∨
      ∃ id, g.nextOp.op = .cancel id ∧ g.nextOp.lastId = g.lastId ∧ id.toNat ≤ g.lastId.toNat := by
  rw [mid_nextOp]
  simp only [nextOp]
  split
  case isTrue =>
    refine Or.inl ⟨_, _, _, rfl, rfl, ?_⟩
    have h10 := toNat_mod_lt (g.rng.next.1 >>> 16) (n := 10) (by decide)
    have h20 := toNat_mod_lt (g.rng.next.1 >>> 16) (n := 20) (by decide)
    have h100 := toNat_mod_lt (g.rng.next.1 >>> 32) (n := 100) (by decide)
    simp only [UInt64.reduceToNat] at h10 h20 h100
    dsimp only
    refine ⟨?_, ?_, by omega, by omega⟩
    · split <;> split <;> omega
    · split <;> split <;> omega
  case isFalse =>
    refine Or.inr ⟨_, rfl, rfl, ?_⟩
    split
    case isTrue hback =>
      rw [UInt64.toNat_sub_of_le _ _ hback.le]
      omega
    case isFalse => exact Nat.zero_le _

/-! ## The stream -/

theorem ops_succ (g : Gen) (n : ℕ) : g.ops (n + 1) = g.ops n ++ [(g.after (n + 1)).op] := by
  simp [ops, List.range_succ]

theorem after_succ (g : Gen) (n : ℕ) : g.after (n + 1) = (g.after n).nextOp := rfl

theorem mid_after (seed : UInt64) (n : ℕ) :
    500 ≤ ((new seed).after n).mid ∧ ((new seed).after n).mid ≤ 1500 := by
  induction n with
  | zero => exact ⟨show (500 : ℤ) ≤ 1000 by omega, show (1000 : ℤ) ≤ 1500 by omega⟩
  | succ n ih =>
    rw [after_succ, mid_nextOp]
    exact walk_bounds _ ih.1 ih.2

/-- After `n` operations, the ids `1, 2, 3, …` were issued, in this order, up to the last. -/
structure Issued (seed : UInt64) (n : ℕ) : Prop where
  ids : limitIds ((new seed).ops n) =
    (List.range ((new seed).after n).lastId.toNat).map fun i => UInt64.ofNat (i + 1)
  lastId_le : ((new seed).after n).lastId.toNat ≤ n

theorem issued_after (seed : UInt64) {n : ℕ} (hn : n < 2 ^ 64) : Issued seed n := by
  induction n with
  | zero => exact ⟨rfl, le_rfl⟩
  | succ n ih =>
    have h := ih (by omega)
    have hle := h.lastId_le
    rcases nextOp_cases ((new seed).after n) with
      ⟨side, price, qty, hop, hlast, -⟩ | ⟨id, hop, hlast, -⟩
    · have hnat : (((new seed).after n).lastId + 1).toNat =
          ((new seed).after n).lastId.toNat + 1 := Word.toNat_add_one (by omega)
      constructor
      · rw [ops_succ, limitIds_append, h.ids, after_succ, hop, hlast, hnat, List.range_succ,
          List.map_append]
        have hid : ((new seed).after n).lastId + 1 =
            UInt64.ofNat (((new seed).after n).lastId.toNat + 1) := by
          rw [← hnat, UInt64.ofNat_toNat]
        simp only [limitIds, List.filterMap_cons, List.filterMap_nil, List.map_cons,
          List.map_nil, hid]
      · rw [after_succ, hlast, hnat]
        omega
    · constructor
      · rw [ops_succ, limitIds_append, h.ids, after_succ, hop, hlast]
        simp [limitIds]
      · rw [after_succ, hlast]
        omega

/-- What the stream of a seed stays within, over its first `n` operations. -/
structure InBounds (seed : UInt64) (n : ℕ) : Prop where
  mid : ∀ k ≤ n, 500 ≤ ((new seed).after k).mid ∧ ((new seed).after k).mid ≤ 1500
  ids : ∃ m, limitIds ((new seed).ops n) = (List.range m).map fun i => UInt64.ofNat (i + 1)
  never_reused : NeverReused ((new seed).ops n)
  limits : ∀ {side price qty id}, Op.limit side price qty id ∈ (new seed).ops n →
    480 ≤ price ∧ price ≤ 1520 ∧ 1 ≤ qty ∧ qty ≤ 100
  /-- A cancel names an id that was issued before it, or zero. -/
  cancels : ∀ k < n, ∀ id, ((new seed).after (k + 1)).op = Op.cancel id →
    id.toNat ≤ (limitIds ((new seed).ops k)).length

theorem mem_ops {g : Gen} {n : ℕ} {op : Op} (h : op ∈ g.ops n) :
    ∃ k < n, op = (g.after k).nextOp.op := by
  rcases List.mem_map.mp h with ⟨k, hk, rfl⟩
  exact ⟨k, List.mem_range.mp hk, rfl⟩

theorem neverReused_ops (seed : UInt64) {n : ℕ} (hn : n < 2 ^ 64) :
    NeverReused ((new seed).ops n) := by
  have h := issued_after seed hn
  have hle := h.lastId_le
  simp only [NeverReused, h.ids]
  refine List.Nodup.map_on ?_ List.nodup_range
  intro i hi j hj heq
  have hi' := List.mem_range.mp hi
  have hj' := List.mem_range.mp hj
  have := congrArg UInt64.toNat heq
  rw [Word.toNat_ofNat_of_lt (by omega), Word.toNat_ofNat_of_lt (by omega)] at this
  omega

theorem inBounds_ops (seed : UInt64) {n : ℕ} (hn : n < 2 ^ 64) : InBounds seed n where
  mid := fun k _ => mid_after seed k
  ids := ⟨_, (issued_after seed hn).ids⟩
  never_reused := neverReused_ops seed hn
  limits := by
    intro side price qty id hop
    rcases mem_ops hop with ⟨k, -, heq⟩
    have hmid := mid_after seed (k + 1)
    rw [after_succ] at hmid
    rcases nextOp_cases ((new seed).after k) with ⟨s, p, q, hop', -, h⟩ | ⟨i, hop', -⟩
    · rw [hop'] at heq
      injection heq with _ hp hq
      omega
    · rw [hop'] at heq
      simp at heq
  cancels := by
    intro k hk id hop
    have hk64 : k < 2 ^ 64 := by omega
    have h := issued_after seed hk64
    rw [h.ids, List.length_map, List.length_range]
    rw [after_succ] at hop
    rcases nextOp_cases ((new seed).after k) with ⟨s, p, q, hop', -⟩ | ⟨i, hop', -, hle⟩
    · rw [hop'] at hop
      simp at hop
    · rw [hop'] at hop
      injection hop with hid
      exact hid ▸ hle

/-- The operations of the stream have room in a tuned book built for them. -/
theorem inRange_ops (seed : UInt64) {maxId : UInt64} {n : ℕ} (hn : n ≤ maxId.toNat) :
    ∀ op ∈ (new seed).ops n, op.InRange maxId := by
  intro op hop
  have hlt := maxId.toNat_lt
  rcases mem_ops hop with ⟨k, hk, rfl⟩
  have hk64 : k < 2 ^ 64 := by omega
  have hle := (issued_after seed hk64).lastId_le
  have hmid := mid_after seed (k + 1)
  rw [after_succ] at hmid
  rcases nextOp_cases ((new seed).after k) with ⟨s, p, q, hop', -, h⟩ | ⟨i, hop', -, hi⟩
  · rw [hop']
    refine ⟨?_, ?_⟩
    · simp only [ladderBase, ladderLen]
      omega
    · rw [Word.toNat_add_one (by omega)]
      omega
  · rw [hop']
    show i.toNat ≤ maxId.toNat + 1
    omega

/-- Every id the stream uses is positive. -/
theorem zero_not_mem (seed : UInt64) {n : ℕ} (hn : n < 2 ^ 64) :
    (0 : UInt64) ∉ limitIds ((new seed).ops n) := by
  have h := issued_after seed hn
  have hle := h.lastId_le
  rw [h.ids]
  intro hmem
  rcases List.mem_map.mp hmem with ⟨i, hi, heq⟩
  have hi' := List.mem_range.mp hi
  have := congrArg UInt64.toNat heq
  rw [Word.toNat_ofNat_of_lt (by omega)] at this
  simp at this

/-- **The stream never drives the tuned book out of range.** For every seed, the first
`total` operations stay in their bounds, and on a book built for `total` orders none of
them, nor the checksum after any of them, faults; slot zero is never live. -/
theorem in_bounds (seed total : UInt64) (h : total.toNat < 2 ^ 64 - 2) :
    InBounds seed total.toNat ∧ ∀ n ≤ total.toNat,
      ∃ t c, TunedBook.run total ((new seed).ops n) = some t ∧ t.checksum = some c ∧
        ∀ r, t.orders[0]? = some r → r.qty = 0 := by
  refine ⟨inBounds_ops seed (by omega), fun n hn => ?_⟩
  have hlt : n < 2 ^ 64 := by omega
  have hreuse := Book.noLiveReuse_of_neverReused (neverReused_ops seed hlt)
  rcases TunedBook.run_holds h (inRange_ops seed hn) hreuse with ⟨t, ht, hholds, -⟩
  refine ⟨t, _, ht, TunedBook.checksum_holds hholds, fun r hr => ?_⟩
  by_contra hne
  rcases (Book.placed_run hreuse).record ((hholds.slots 0 r).mpr ⟨hr, hne⟩) with
    ⟨side, qty, lvl, hop, -⟩
  exact zero_not_mem seed hlt (mem_limitIds.mpr ⟨_, _, _, hop⟩)

theorem in_bounds_reference :
    InBounds 42 500000 ∧ ∀ n ≤ 500000,
      ∃ t c, TunedBook.run 500000 ((new 42).ops n) = some t ∧ t.checksum = some c ∧
        ∀ r, t.orders[0]? = some r → r.qty = 0 :=
  in_bounds 42 500000 (by decide)

end Gen
end LmaxBench.Cpp
