import LmaxBench.Cpp.Orbit
import LmaxBench.Java.TunedRefine

/-!
# The indices of the tuned book in Java

The tuned book, built for `totalOps` operations, on the first `totalOps` operations of the
generator. Its arrays have `(int) totalOps + 2` entries. Up to `2 ^ 31 - 3` operations this is
the number it is meant to be: the book follows the one in Go, and every access but the growth
of a level is in range. From `2 ^ 32 - 2` operations on the constructor returns again, with
arrays that are too short: either a cancel of a late id is out of range, or the ids wrap around
before the stream ends.

## Main definitions

* `Workload.op`, `Workload.ops` — the operations of the generator.
* `TunedBook.IndicesInRange` — no access out of range, and no slot shared by two ids.
* `TunedBook.indicesInRange_of_le` — the short streams.
* `TunedBook.Sized` — the lengths of the levels and of the arrays, along any run.
* `TunedBook.indicesInRange_iff` — the streams the arrays have room for.
-/

namespace LmaxBench.Java

namespace Workload

/-- The operation the out-parameters describe. -/
def op (w : Workload) : Cpp.Op :=
  if w.kind = kindLimit then .limit w.side.toUInt8 w.price.toInt w.qty.toInt w.id.toUInt64
  else .cancel w.id.toUInt64

/-- The first `n` operations of the stream. -/
def ops (w : Workload) (n : ℕ) : List Cpp.Op := (List.range n).map fun i => (w.after (i + 1)).op

theorem ops_succ (w : Workload) (n : ℕ) : w.ops (n + 1) = w.ops n ++ [(w.after (n + 1)).op] := by
  simp [ops, List.range_succ]

/-- The id of an operation. -/
theorem toUInt64_id_of_op {w : Workload} {side : UInt8} {price qty : ℤ} {id : UInt64}
    (h : w.op = .limit side price qty id) : w.id.toUInt64 = id := by
  rw [op] at h
  split at h
  · injection h
  · simp at h

/-- The Java generator emits the operations of the C++ one. -/
theorem op_after_eq (seed : UInt64) {n : ℕ} (hn : n < 2 ^ 63) :
    ((new seed.toInt64).after (n + 1)).op = ((Cpp.Gen.new seed).after (n + 1)).op := by
  have h := emission_after seed hn
  simp only [emission, Cpp.Gen.emission, Emission.mk.injEq] at h
  obtain ⟨hkind, hside, hprice, hqty, hid⟩ := h
  have hlimit : ((new seed.toInt64).after (n + 1)).kind = kindLimit ↔
      ((Cpp.Gen.new seed).after (n + 1)).kind = Cpp.kindLimit := by
    rw [← hkind]
    exact eq_sideBid_iff _
  rw [op, Cpp.Gen.op, hside, hprice, hqty, hid]
  by_cases hk : ((Cpp.Gen.new seed).after (n + 1)).kind = Cpp.kindLimit
  · rw [if_pos hk, if_pos (hlimit.mpr hk)]
  · rw [if_neg hk, if_neg (mt hlimit.mp hk)]

theorem ops_eq (seed : UInt64) {n : ℕ} (hn : n ≤ 2 ^ 63) :
    (new seed.toInt64).ops n = (Cpp.Gen.new seed).ops n := by
  rw [ops, Cpp.Gen.ops]
  refine List.map_congr_left ?_
  intro i hi
  exact op_after_eq seed (lt_of_lt_of_le (List.mem_range.mp hi) hn)

/-- The operations of the stream have room in a tuned book built for them. -/
theorem inRange_op (seed : UInt64) {maxId : UInt64} {n : ℕ} (hn : n < maxId.toNat)
    (hmax : maxId.toNat < 2 ^ 63) : ((new seed.toInt64).after (n + 1)).op.InRange maxId := by
  rw [op_after_eq seed (by omega)]
  refine Cpp.Gen.inRange_ops seed (n := n + 1) hn _ ?_
  rw [Cpp.Gen.ops_succ]
  exact List.mem_append_right _ List.mem_cons_self

theorem id_le_of_inRange {w : Workload} {maxId : UInt64} (h : w.op.InRange maxId) :
    w.id.toUInt64.toNat ≤ maxId.toNat + 1 := by
  rw [op] at h
  split at h
  · exact h.2
  · exact h

end Workload

/-- Ids below the length of an array are told apart by their slots. -/
theorem eq_of_toInt32_eq {x y : Int64} (hx : x.toUInt64.toNat < 2 ^ 31)
    (hy : y.toUInt64.toNat < 2 ^ 31) (h : x.toInt32 = y.toInt32) : x = y := by
  have hslot := congrArg Int32.toInt h
  rw [toInt_toInt32_id hx, toInt_toInt32_id hy, Int.natCast_inj] at hslot
  rw [← x.toInt64_toUInt64, Word.eq_of_toNat hslot, y.toInt64_toUInt64]

namespace TunedBook

/-- The first `totalOps` operations of the stream of `seed`, on the book that is built for
them. No operation faults, unless a level cannot be doubled, so that the indices `(int) id`,
`(int) head` and `(int) px` are in range; and distinct ids are not cast down to the same slot. -/
structure IndicesInRange (totalOps seed : Int64) : Prop where
  accesses : ∀ k : ℕ, k < totalOps.toInt → ∀ b,
    run totalOps ((Workload.new seed).ops k) = some b →
      ¬b.CannotGrow ((Workload.new seed).after (k + 1)).op →
        (b.apply ((Workload.new seed).after (k + 1)).op).isSome
  slots : ∀ i j : ℕ, i < totalOps.toInt → j < totalOps.toInt →
    ((Workload.new seed).after (i + 1)).id.toInt32 =
      ((Workload.new seed).after (j + 1)).id.toInt32 →
      ((Workload.new seed).after (i + 1)).id = ((Workload.new seed).after (j + 1)).id

/-- One more operation of a run. -/
@[simp] theorem run_concat (maxId : Int64) (ops : List Cpp.Op) (op : Cpp.Op) :
    run maxId (ops ++ [op]) = (run maxId ops).bind fun b => b.apply op := by
  rw [run, run]
  cases hnew : new maxId with
  | none => rfl
  | some b => simp [List.foldlM_append]

/-! ## Streams the arrays have room for -/

theorem apply_eq_none_of_cannotGrow {b : TunedBook} {op : Cpp.Op} (h : b.CannotGrow op) :
    b.apply op = none := by
  cases op with
  | limit side price qty id =>
    obtain ⟨s, hs, hq, lvl, hlvl, hgrown⟩ := h
    rw [apply, limit, hs, Option.bind_eq_bind, Option.bind_some, if_pos hq, rest]
    rw [own] at hlvl
    by_cases hside : side.toInt8 = sideBid
    · rw [if_pos hside] at hlvl
      simp [if_pos hside, hlvl, FlatLevel.push, hgrown]
    · rw [if_neg hside] at hlvl
      simp [if_neg hside, hlvl, FlatLevel.push, hgrown]
  | cancel id => exact h.elim

/-- The Go book has room for every run in range. -/
theorem exists_go_run {maxId : UInt64} (hmax : maxId.toNat + 2 < 2 ^ 31) {ops : List Cpp.Op}
    (hops : ∀ op ∈ ops, op.InRange maxId) : ∃ g, Go.TunedBook.run maxId ops = some g := by
  have hmax64 : maxId.toNat < 2 ^ 64 - 2 := by omega
  obtain ⟨t, -, ht, -⟩ := Cpp.TunedBook.run_holds_assign hmax64 hops
  obtain ⟨g, hg, -⟩ := Go.TunedBook.run_follows hops t ht
  exact ⟨g, hg⟩

/-- Short runs in range end, with a checksum. -/
theorem exists_run {maxId : UInt64} (hmax : maxId.toNat + 2 < 2 ^ 30) {ops : List Cpp.Op}
    (hlen : ops.length < 2 ^ 30) (hops : ∀ op ∈ ops, op.InRange maxId) :
    ∃ b sum, run maxId.toInt64 ops = some b ∧ b.checksum = some sum := by
  have hmax64 : maxId.toNat < 2 ^ 64 - 2 := by omega
  obtain ⟨t, excess, ht, hholds, -⟩ := Cpp.TunedBook.run_holds_assign hmax64 hops
  obtain ⟨g, hg, rfl, -⟩ := Go.TunedBook.run_follows hops t ht
  obtain ⟨b, hb, h⟩ := run_follows hmax hlen hops _ hg
  obtain ⟨c, hc, -⟩ := Go.TunedBook.checksum_follows (Cpp.TunedBook.head_le hmax64 hops ht) _
    (Cpp.TunedBook.checksum_holds hholds)
  obtain ⟨sum, hsum, -⟩ := checksum_follows (by omega) h _ hc
  exact ⟨b, sum, hb, hsum⟩

/-- One more operation, on books that went together so far. -/
theorem exists_apply {maxId : UInt64} (hmax : maxId.toNat + 2 < 2 ^ 31) {ops : List Cpp.Op}
    {op : Cpp.Op} (hlen : ops.length + 1 < 2 ^ 31)
    (hops : ∀ op' ∈ ops ++ [op], op'.InRange maxId) {g : Go.TunedBook} {b : TunedBook}
    (hg : Go.TunedBook.run maxId ops = some g) (h : BookFollows ops.length g b)
    (hroom : ¬b.CannotGrow op) :
    ∃ g' b', Go.TunedBook.run maxId (ops ++ [op]) = some g' ∧ b.apply op = some b' ∧
      BookFollows (ops ++ [op]).length g' b' := by
  obtain ⟨g', hg'⟩ := exists_go_run hmax hops
  have happly := hg'
  rw [Go.TunedBook.run_concat, hg, Option.bind_some] at happly
  have hop : op.InRange maxId := hops op (List.mem_append_right ops List.mem_cons_self)
  obtain ⟨b', hb', h'⟩ := apply_follows hlen h hop hroom g' happly
  refine ⟨g', b', hg', hb', ?_⟩
  rwa [List.length_append, List.length_singleton]

/-- **Long runs in range** follow the run in Go as long as no level has to be doubled that
cannot be. -/
theorem exists_go_follows {maxId : UInt64} (hmax : maxId.toNat + 2 < 2 ^ 31) {ops : List Cpp.Op}
    (hlen : ops.length < 2 ^ 31) (hops : ∀ op ∈ ops, op.InRange maxId) {b : TunedBook}
    (hb : run maxId.toInt64 ops = some b) :
    ∃ g, Go.TunedBook.run maxId ops = some g ∧ BookFollows ops.length g b := by
  induction ops using List.reverseRecOn generalizing b with
  | nil =>
    obtain ⟨b', hb', h⟩ := new_follows hmax
    obtain rfl : b' = b := by
      rw [run, hb'] at hb
      exact Option.some.inj hb
    exact ⟨_, rfl, h⟩
  | append_singleton ops op ih =>
    rw [run_concat] at hb
    obtain ⟨b₀, hb₀, happly⟩ := Option.bind_eq_some_iff.mp hb
    rw [List.length_append, List.length_singleton] at hlen
    have hpre : ∀ op' ∈ ops, op'.InRange maxId := fun op' hop' =>
      hops op' (List.mem_append_left [op] hop')
    obtain ⟨g₀, hg₀, h⟩ := ih (by omega) hpre hb₀
    have hroom : ¬b₀.CannotGrow op := by
      intro hfull
      rw [apply_eq_none_of_cannotGrow hfull] at happly
      simp at happly
    obtain ⟨g, b', hg, hb', h'⟩ := exists_apply hmax hlen hops hg₀ h hroom
    obtain rfl : b = b' := Option.some.inj (happly.symm.trans hb')
    exact ⟨g, hg, h'⟩

/-- A book with room for `totalOps` ids is in range on the first `totalOps` operations. -/
theorem indicesInRange_of_le {totalOps : Int64} (h0 : 0 ≤ totalOps.toInt)
    (hle : totalOps.toInt ≤ 2 ^ 31 - 3) (seed : Int64) : IndicesInRange totalOps seed := by
  obtain ⟨seed, rfl⟩ : ∃ s : UInt64, seed = s.toInt64 := ⟨seed.toUInt64, seed.toInt64_toUInt64.symm⟩
  obtain ⟨maxId, rfl⟩ : ∃ m : UInt64, totalOps = m.toInt64 :=
    ⟨totalOps.toUInt64, totalOps.toInt64_toUInt64.symm⟩
  have hnat := Word.toInt_eq_toNat_of_nonneg h0
  rw [UInt64.toUInt64_toInt64] at hnat
  have hmax : maxId.toNat + 2 < 2 ^ 31 := by omega
  have hid : ∀ i : ℕ, i < maxId.toInt64.toInt →
      ((Workload.new seed.toInt64).after (i + 1)).id.toUInt64.toNat < 2 ^ 31 := by
    intro i hi
    have hin : ((Workload.new seed.toInt64).after (i + 1)).op.InRange maxId :=
      Workload.inRange_op seed (by omega) (by omega)
    have hle := Workload.id_le_of_inRange hin
    omega
  constructor
  case slots => exact fun i j hi hj => eq_of_toInt32_eq (hid i hi) (hid j hj)
  case accesses =>
    intro k hk b hb hroom
    have hk63 : k < 2 ^ 63 := by omega
    have hlen : ((Cpp.Gen.new seed).ops k).length = k := by
      rw [Cpp.Gen.ops, List.length_map, List.length_range]
    have hops : ∀ op ∈ (Cpp.Gen.new seed).ops (k + 1), op.InRange maxId :=
      Cpp.Gen.inRange_ops seed (by omega)
    rw [Cpp.Gen.ops_succ] at hops
    rw [Workload.ops_eq seed hk63.le] at hb
    rw [Workload.op_after_eq seed hk63] at hroom ⊢
    have hpre : ∀ op ∈ (Cpp.Gen.new seed).ops k, op.InRange maxId := fun op hop =>
      hops op (List.mem_append_left _ hop)
    obtain ⟨g, hg, h⟩ := exists_go_follows hmax (by omega) hpre hb
    obtain ⟨-, b', -, hb', -⟩ := exists_apply hmax (by omega) hops hg h hroom
    rw [hb']
    rfl

end TunedBook

/-! ## The lengths of the levels -/

/-- A level of at most `n` ids. -/
def FlatLevel.AtMost (n : ℕ) (l : FlatLevel) : Prop := 0 ≤ l.size.toInt ∧ l.size.toInt ≤ n

namespace FlatLevel.AtMost
variable {n : ℕ} {l : FlatLevel}

theorem mono (h : l.AtMost n) {m : ℕ} (hm : n ≤ m) : l.AtMost m := ⟨h.1, by have := h.2; omega⟩

theorem reset (l : FlatLevel) (n : ℕ) : l.reset.AtMost n := ⟨le_rfl, Int.natCast_nonneg n⟩

theorem push (h : l.AtMost n) (hn : n + 1 < 2 ^ 31) {id : Int64} {l' : FlatLevel}
    (hl' : l.push id = some l') : l'.AtMost (n + 1) := by
  obtain ⟨ids, -, hl'⟩ := Option.bind_eq_some_iff.mp hl'
  obtain ⟨x, -, hl'⟩ := Option.bind_eq_some_iff.mp hl'
  obtain rfl := Option.some.inj hl'
  obtain ⟨h0, h1⟩ := h
  have hone : (1 : Int32).toInt = 1 := by decide
  have hsize : (l.size + 1).toInt = l.size.toInt + 1 := by
    rw [Word.toInt_add32_of_bounds] <;> rw [hone] <;> omega
  rw [AtMost, hsize]
  omega

end FlatLevel.AtMost

namespace TunedBook

/-- The levels have at most `n` ids each, the array of quantities `len` entries. -/
structure Sized (n len : ℕ) (b : TunedBook) : Prop where
  bids : ∀ l ∈ b.bids, l.AtMost n
  asks : ∀ l ∈ b.asks, l.AtMost n
  length_qty : b.qty.length = len

theorem mem_of_index {α : Type} {xs : List α} {i : Int32} {x : α} (h : index xs i = some x) :
    x ∈ xs := by
  rw [index] at h
  split at h
  · exact List.mem_of_getElem? h
  · simp at h

/-- A round of the outer loop: the inner loop on a level, and what follows it. -/
theorem exists_of_sweepStep {side : Int8} {px : ℤ} {s s' : Sweep}
    (h : sweepStep side px s = some (some s')) :
    ∃ best lvl d b, index (s.book.opposite side) (Int32.ofInt best) = some lvl ∧
      drain { lvl, qty := s.book.qty, q := s.q, live := s.book.live, fills := s.book.fills,
              volume := s.book.volume } = some d ∧
        s.book.settle side best d = some b ∧ s' = { book := b, q := d.q } := by
  rw [sweepStep] at h
  by_cases hq : 0 < s.q
  case neg =>
    rw [if_neg hq] at h
    simp at h
  case pos =>
    rw [if_pos hq] at h
    generalize (if side = sideBid then s.book.bestAsk else s.book.bestBid) = best at h
    by_cases hstop : best < 0 ∨ best ≥ ladder ∨ ¬if side = sideBid then best ≤ px else best ≥ px
    case pos =>
      simp only [if_pos hstop] at h
      simp at h
    case neg =>
      simp only [if_neg hstop] at h
      obtain ⟨lvl, hlvl, h⟩ := Option.bind_eq_some_iff.mp h
      obtain ⟨d, hd, h⟩ := Option.bind_eq_some_iff.mp h
      obtain ⟨b, hb, h⟩ := Option.bind_eq_some_iff.mp h
      exact ⟨best, lvl, d, b, hlvl, hd, hb, (Option.some.inj (Option.some.inj h)).symm⟩

namespace Sized
variable {n len : ℕ} {b b' : TunedBook}

theorem mono (h : b.Sized n len) {m : ℕ} (hm : n ≤ m) : b.Sized m len where
  bids := fun l hl => (h.bids l hl).mono hm
  asks := fun l hl => (h.asks l hl).mono hm
  length_qty := h.length_qty

theorem not_fullAt (h : b.Sized n len) (hn : n < 2 ^ 30) (side : Int8) (px : ℤ) :
    ¬b.FullAt side px := by
  rintro ⟨lvl, hlvl, hfull⟩
  have hmost : lvl.AtMost n := by
    rw [own] at hlvl
    split at hlvl
    · exact h.bids lvl (mem_of_index hlvl)
    · exact h.asks lvl (mem_of_index hlvl)
  obtain ⟨h0, h1⟩ := hmost
  exact FlatLevel.grown_ne_none h0 (by omega) hfull

theorem opposite (h : b.Sized n len) (side : Int8) : ∀ l ∈ b.opposite side, l.AtMost n := by
  rw [TunedBook.opposite]
  split
  · exact h.asks
  · exact h.bids

theorem drainStep {d d' : Drain} (hl : d.lvl.AtMost n ∧ d.qty.length = len)
    (hd : TunedBook.drainStep d = some (some d')) : d'.lvl.AtMost n ∧ d'.qty.length = len := by
  rw [TunedBook.drainStep] at hd
  split at hd
  case isTrue =>
    split at hd
    · simp at hd
    obtain ⟨head, -, hd⟩ := Option.bind_eq_some_iff.mp hd
    obtain ⟨r, -, hd⟩ := Option.bind_eq_some_iff.mp hd
    by_cases hr : r = 0
    · rw [if_pos hr] at hd
      obtain rfl := Option.some.inj (Option.some.inj hd)
      exact hl
    · rw [if_neg hr] at hd
      obtain rfl := Option.some.inj (Option.some.inj hd)
      refine ⟨?_, by rw [List.length_set, hl.2]⟩
      dsimp only
      split
      · exact hl.1
      · exact hl.1
  case isFalse => simp at hd

theorem writeBack (h : b.Sized n len) {d : Drain} (hl : d.lvl.AtMost n) (hqty : d.qty.length = len)
    (side : Int8) (best : ℤ) : (b.writeBack side best d).Sized n len where
  bids := by
    simp only [TunedBook.writeBack]
    split
    · exact h.bids
    · exact fun l hl' => (List.mem_or_eq_of_mem_set hl').elim (h.bids l) fun heq => heq ▸ hl
  asks := by
    simp only [TunedBook.writeBack]
    split
    · exact fun l hl' => (List.mem_or_eq_of_mem_set hl').elim (h.asks l) fun heq => heq ▸ hl
    · exact h.asks
  length_qty := hqty

theorem settle (h : b.Sized n len) {d : Drain} (hl : d.lvl.AtMost n) (hqty : d.qty.length = len)
    {side : Int8} {best : ℤ} (hb' : b.settle side best d = some b') : b'.Sized n len := by
  rw [TunedBook.settle] at hb'
  split at hb'
  case isTrue =>
    have hreset := h.writeBack (d := { d with lvl := d.lvl.reset }) (.reset d.lvl n) hqty side best
    rw [TunedBook.advance] at hb'
    split at hb'
    · obtain ⟨p, -, hb'⟩ := Option.bind_eq_some_iff.mp hb'
      obtain rfl := Option.some.inj hb'
      exact ⟨hreset.bids, hreset.asks, hreset.length_qty⟩
    · obtain ⟨p, -, hb'⟩ := Option.bind_eq_some_iff.mp hb'
      obtain rfl := Option.some.inj hb'
      exact ⟨hreset.bids, hreset.asks, hreset.length_qty⟩
  case isFalse =>
    obtain rfl := Option.some.inj hb'
    exact h.writeBack hl hqty side best

theorem sweep (h : b.Sized n len) {side : Int8} {px q : ℤ} {s : Sweep}
    (hs : TunedBook.sweep side px { book := b, q } = some s) : s.book.Sized n len := by
  refine Loop.tryExec_invariant (fun s : Sweep => s.book.Sized n len) ?_ h hs
  intro s s' h hs'
  obtain ⟨best, lvl, d, b', hlvl, hd, hb', rfl⟩ := exists_of_sweepStep hs'
  obtain ⟨hl, hqty⟩ := Loop.tryExec_invariant
    (fun d : Drain => d.lvl.AtMost n ∧ d.qty.length = len) (fun _ _ => drainStep)
    ⟨h.opposite side lvl (mem_of_index hlvl), h.length_qty⟩ hd
  exact h.settle hl hqty hb'

/-- The record of a resting order leaves the lengths as they are. -/
theorem record (h : b.Sized n len) {px q : ℤ} {id : Int64}
    (hb' : ((index b.price id.toInt32).bind fun _ => (index b.qty id.toInt32).bind fun _ =>
      some { b with
        price := b.price.set id.toInt32.toNatClampNeg px
        qty := b.qty.set id.toInt32.toNatClampNeg q
        live := b.live + 1 }) = some b') : b'.Sized n len := by
  obtain ⟨p, -, hb'⟩ := Option.bind_eq_some_iff.mp hb'
  obtain ⟨r, -, hb'⟩ := Option.bind_eq_some_iff.mp hb'
  obtain rfl := Option.some.inj hb'
  exact ⟨h.bids, h.asks, by simpa only [List.length_set] using h.length_qty⟩

theorem rest (h : b.Sized n len) (hn : n + 1 < 2 ^ 31) {side : Int8} {px q : ℤ} {id : Int64}
    (hb' : b.rest side px q id = some b') : b'.Sized (n + 1) len := by
  have hmono := h.mono (Nat.le_succ n)
  simp only [TunedBook.rest, Option.bind_eq_bind] at hb'
  split at hb'
  · obtain ⟨l, hl, hb'⟩ := Option.bind_eq_some_iff.mp hb'
    obtain ⟨l', hl', hb'⟩ := Option.bind_eq_some_iff.mp hb'
    rw [Option.bind_some] at hb'
    refine record ?_ hb'
    refine { hmono with bids := ?_ }
    intro k hk
    rcases List.mem_or_eq_of_mem_set hk with hk | rfl
    · exact hmono.bids k hk
    · exact (h.bids l (mem_of_index hl)).push hn hl'
  · obtain ⟨l, hl, hb'⟩ := Option.bind_eq_some_iff.mp hb'
    obtain ⟨l', hl', hb'⟩ := Option.bind_eq_some_iff.mp hb'
    rw [Option.bind_some] at hb'
    refine record ?_ hb'
    refine { hmono with asks := ?_ }
    intro k hk
    rcases List.mem_or_eq_of_mem_set hk with hk | rfl
    · exact hmono.asks k hk
    · exact (h.asks l (mem_of_index hl)).push hn hl'

/-- One operation makes a level longer by at most one id. -/
theorem apply (h : b.Sized n len) (hn : n + 1 < 2 ^ 31) {op : Cpp.Op} (hb' : b.apply op = some b') :
    b'.Sized (n + 1) len := by
  cases op with
  | limit side price qty id =>
    obtain ⟨s, hs, hb'⟩ := Option.bind_eq_some_iff.mp hb'
    have hsweep := h.sweep hs
    split at hb'
    · exact hsweep.rest hn hb'
    · obtain rfl := Option.some.inj hb'
      exact hsweep.mono (Nat.le_succ n)
  | cancel id =>
    obtain ⟨q, -, hb'⟩ := Option.bind_eq_some_iff.mp hb'
    obtain rfl := Option.some.inj hb'
    refine Sized.mono ?_ (Nat.le_succ n)
    split
    · exact ⟨h.bids, h.asks, by simpa only [List.length_set] using h.length_qty⟩
    · exact h

theorem new {maxId : Int64} (hb : TunedBook.new maxId = some b) :
    b.Sized 0 (maxId.toInt32 + 2).toNatClampNeg := by
  rw [TunedBook.new, newLongs] at hb
  split at hb
  · obtain rfl := Option.some.inj hb
    have hempty : ∀ l ∈ List.replicate ladder.toNat ({} : FlatLevel), l.AtMost 0 := by
      intro l hl
      rw [List.eq_of_mem_replicate hl]
      exact ⟨le_rfl, le_rfl⟩
    exact ⟨hempty, hempty, List.length_replicate⟩
  · simp at hb

/-- **The lengths along a run.** -/
theorem run {maxId : Int64} {ops : List Cpp.Op} (hlen : ops.length < 2 ^ 31)
    (hb : TunedBook.run maxId ops = some b) :
    b.Sized ops.length (maxId.toInt32 + 2).toNatClampNeg := by
  induction ops using List.reverseRecOn generalizing b with
  | nil =>
    obtain ⟨b₀, hb₀, hb⟩ := Option.bind_eq_some_iff.mp hb
    obtain rfl := Option.some.inj hb
    exact Sized.new hb₀
  | append_singleton ops op ih =>
    rw [run_concat] at hb
    obtain ⟨b₀, hb₀, happly⟩ := Option.bind_eq_some_iff.mp hb
    rw [List.length_append, List.length_singleton] at hlen ⊢
    exact (ih (by omega) hb₀).apply hlen happly

end Sized

/-! ## Streams that are too long -/

theorem Sized.not_cannotGrow {n len : ℕ} {b : TunedBook} (h : b.Sized n len) (hn : n < 2 ^ 30)
    (op : Cpp.Op) : ¬b.CannotGrow op := by
  cases op with
  | limit side price qty id =>
    rintro ⟨s, hs, -, hfull⟩
    exact (h.sweep hs).not_fullAt hn side.toInt8 price hfull
  | cancel id => exact not_false

/-- A run that faults does so at one of its operations. -/
theorem exists_fault {maxId : Int64} (hnew : (new maxId).isSome) (w : Workload) {n : ℕ}
    (h : run maxId (w.ops n) = none) :
    ∃ k < n, ∃ b, run maxId (w.ops k) = some b ∧ b.apply (w.after (k + 1)).op = none := by
  induction n with
  | zero =>
    obtain ⟨b, hb⟩ := Option.isSome_iff_exists.mp hnew
    rw [Workload.ops, run, hb] at h
    simp at h
  | succ n ih =>
    cases hrun : run maxId (w.ops n) with
    | none =>
      obtain ⟨k, hk, hfault⟩ := ih hrun
      exact ⟨k, by omega, hfault⟩
    | some b =>
      rw [Workload.ops_succ, run_concat, hrun, Option.bind_some] at h
      exact ⟨n, by omega, b, hrun, h⟩

theorem index_of_length_le {xs : List ℤ} {id : Int64} (hid : id.toUInt64.toNat < 2 ^ 31)
    (hle : xs.length ≤ id.toUInt64.toNat) : index xs id.toInt32 = none := by
  rw [index_eq (toInt_toInt32_id hid)]
  exact List.getElem?_eq_none hle

/-- A cancel of an id beyond the arrays faults, if nothing did before. -/
theorem not_indicesInRange_of_cancel {totalOps : Int64} (hnew : (new totalOps).isSome)
    {seed : Int64} {n : ℕ} (hn : n ≤ 2 ^ 30) (hlong : n < totalOps.toInt) {id : UInt64}
    (hop : ((Workload.new seed).after (n + 1)).op = .cancel id)
    (hid : (totalOps.toInt32 + 2).toNatClampNeg ≤ id.toNat) (hid31 : id.toNat < 2 ^ 31) :
    ¬IndicesInRange totalOps seed := by
  intro h
  have hlen : ∀ k, ((Workload.new seed).ops k).length = k := by
    intro k
    rw [Workload.ops, List.length_map, List.length_range]
  cases hrun : run totalOps ((Workload.new seed).ops n) with
  | some b =>
    have hsized := Sized.run (by rw [hlen]; omega) hrun
    have happly := h.accesses n hlong b hrun (by rw [hop]; exact not_false)
    have hnone : index b.qty id.toInt64.toInt32 = none :=
      index_of_length_le hid31 (by rw [hsized.length_qty]; exact hid)
    rw [hop, apply, cancel, hnone] at happly
    simp at happly
  | none =>
    obtain ⟨k, hk, b, hb, hfault⟩ := exists_fault hnew (Workload.new seed) hrun
    have hsized := Sized.run (by rw [hlen]; omega) hb
    have happly := h.accesses k (by omega) b hb (hsized.not_cannotGrow (by rw [hlen]; omega) _)
    rw [hfault] at happly
    simp at happly

/-- The generator issues every id up to the last. -/
theorem exists_issued (seed : UInt64) {n i : ℕ} (hn : n ≤ 2 ^ 63)
    (hi : i < ((Cpp.Gen.new seed).after n).lastId.toNat) :
    ∃ k < n, ((Workload.new seed.toInt64).after (k + 1)).id = (UInt64.ofNat (i + 1)).toInt64 := by
  have hissued := (Cpp.Gen.issued_after seed (n := n) (by omega)).ids
  have hmem : UInt64.ofNat (i + 1) ∈ Cpp.limitIds ((Cpp.Gen.new seed).ops n) := by
    rw [hissued]
    exact List.mem_map.mpr ⟨i, List.mem_range.mpr hi, rfl⟩
  obtain ⟨side, price, qty, hop⟩ := Cpp.mem_limitIds.mp hmem
  obtain ⟨k, hk, hop⟩ := Cpp.Gen.mem_ops hop
  rw [← Cpp.Gen.after_succ, ← Workload.op_after_eq seed (by omega)] at hop
  have hid := Workload.toUInt64_id_of_op hop.symm
  exact ⟨k, hk, (Int64.toInt64_toUInt64 _).symm.trans (congrArg UInt64.toInt64 hid)⟩

/-- The ids `1` and `2 ^ 32 + 1` share a slot. -/
theorem not_indicesInRange_of_wrap {totalOps : Int64} {seed : UInt64} {n : ℕ} (hn : n ≤ 2 ^ 63)
    (hlong : n ≤ totalOps.toInt) (hlast : 2 ^ 32 < ((Cpp.Gen.new seed).after n).lastId.toNat) :
    ¬IndicesInRange totalOps seed.toInt64 := by
  intro h
  obtain ⟨i, hi, hid⟩ := exists_issued seed (i := 0) hn (by omega)
  obtain ⟨j, hj, hid'⟩ := exists_issued seed hn hlast
  have hslot : (UInt64.ofNat (0 + 1)).toInt64.toInt32 =
      (UInt64.ofNat (2 ^ 32 + 1)).toInt64.toInt32 := by
    decide
  have heq := h.slots i j (by omega) (by omega) (by rw [hid, hid', hslot])
  rw [hid, hid'] at heq
  exact absurd heq (by decide)

/-- Where the constructor returns for more operations than an `int` counts, the length of its
arrays has lost a multiple of `2 ^ 32`. -/
theorem length_add_le_of_new {totalOps : Int64} (hnew : (new totalOps).isSome)
    (hlong : 2 ^ 31 - 3 < totalOps.toInt) :
    ((totalOps.toInt32 + 2).toNatClampNeg : ℤ) + 2 ^ 32 ≤ totalOps.toInt + 2 := by
  have hnonneg : 0 ≤ totalOps.toInt32 + 2 := by
    by_contra hneg
    rw [new, newLongs, if_neg hneg] at hnew
    simp at hnew
  have htwo : (2 : Int32).toInt = 2 := by decide
  have hadd := Int32.toInt_add totalOps.toInt32 2
  rw [Int32.le_iff_toInt_le, Int32.toInt_zero] at hnonneg
  rw [Int64.toInt_toInt32, htwo, Int.bmod_add_bmod, Int.bmod_eq_emod] at hadd
  rw [Int32.toNatClampNeg]
  split at hadd <;> omega

/-- **Beyond that the arrays are too short for some stream.** Up to a length of 912675552, a
cancel is out of range after `2 ^ 30` operations; and the streams are long enough for the ids
to wrap around where the arrays are longer. -/
theorem exists_not_indicesInRange {totalOps : Int64} (hnew : (new totalOps).isSome)
    (hlong : 2 ^ 31 - 3 < totalOps.toInt) : ∃ seed, ¬IndicesInRange totalOps seed := by
  have hle := length_add_le_of_new hnew hlong
  by_cases hshort : (totalOps.toInt32 + 2).toNatClampNeg ≤ 912675552
  case pos =>
    obtain ⟨n, hn⟩ : ∃ n : ℕ, n = 2 ^ 30 := ⟨_, rfl⟩
    obtain ⟨seed, hdense, hmiss⟩ := Cpp.Gen.exists_limits_cancel n
    have hlast := Cpp.Gen.lastId_after_eq seed (n := n) (by omega)
    have hcount := Nat.count_le (Cpp.Gen.DrawsLimit seed) (n := n)
    obtain ⟨id, hop, hid, hid'⟩ := Cpp.Gen.op_of_not_drawsLimit hmiss (by omega)
    rw [← Workload.op_after_eq seed (by omega)] at hop
    exact ⟨seed.toInt64, not_indicesInRange_of_cancel hnew (by omega) (by omega) hop (by omega)
      (by omega)⟩
  case neg =>
    obtain ⟨n, hn⟩ : ∃ n : ℕ, n = 5060000000 := ⟨_, rfl⟩
    obtain ⟨seed, hdense⟩ := Cpp.Gen.exists_limits n
    have hlast := Cpp.Gen.lastId_after_eq seed (n := n) (by omega)
    exact ⟨seed.toInt64, not_indicesInRange_of_wrap (n := n) (by omega) (by omega) (by omega)⟩

/-- **The streams the tuned book has room for.** Where the constructor returns, the first
`totalOps` operations of every seed are in range if and only if there are at most `2 ^ 31 - 3`
of them. -/
theorem indicesInRange_iff {totalOps : Int64} (h0 : 0 ≤ totalOps) (hnew : (new totalOps).isSome) :
    (∀ seed, IndicesInRange totalOps seed) ↔ totalOps.toInt ≤ 2 ^ 31 - 3 := by
  constructor
  · intro h
    by_contra hlong
    obtain ⟨seed, hseed⟩ := exists_not_indicesInRange hnew (not_le.mp hlong)
    exact hseed (h seed)
  · exact fun hle => indicesInRange_of_le (Int64.le_iff_toInt_le.mp h0) hle

theorem indicesInRange_iff_two :
    (∀ seed, IndicesInRange 2 seed) ↔ (2 : Int64).toInt ≤ 2 ^ 31 - 3 :=
  indicesInRange_iff (by decide) (by decide)

/-- Built for `4294967294` operations, the arrays are empty, and the first limit finds no slot. -/
theorem not_indicesInRange_empty : ¬IndicesInRange 4294967294 42 := by
  intro h
  obtain ⟨b, hb⟩ := Option.isSome_iff_exists.mp (show (new 4294967294).isSome by decide)
  have hfault : ((new 4294967294).bind fun b => b.apply ((Workload.new 42).after 1).op).isSome =
      false := by decide +kernel
  rw [hb, Option.bind_some] at hfault
  have hrun : run 4294967294 ((Workload.new 42).ops 0) = some b := by
    rw [run, hb]
    rfl
  have hroom := (Sized.new hb).not_cannotGrow (by decide) ((Workload.new 42).after 1).op
  have happly := h.accesses 0 (by decide) b hrun hroom
  rw [hfault] at happly
  simp at happly

end TunedBook
end LmaxBench.Java
