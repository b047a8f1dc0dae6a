import LmaxBench.Cpp.TunedConformance

/-!
# Bounds of the tuned book

What holds of the ladders and the best pointers in every state of a run in range, whether or
not ids are reused: the ladders keep their length, and the pointers are on the ladder or at
their sentinels. With these bounds alone another tuned engine can be followed step by step,
wherever it computes an index or compares with a sentinel of its own.

## Main definitions

* `TunedBook.InBounds` — the bounds, with a lemma for each operation that moves a pointer.
* `TunedBook.head_le` — the unread part of a level is a slice.
* `TunedBook.live_le` — the live counter does not exceed the number of operations.
-/

namespace LmaxBench.Cpp
namespace TunedBook

/-- The ladders have their length, and the best pointers are on them or at the sentinels. -/
structure InBounds (t : TunedBook) : Prop where
  bids_length : t.bids.length = ladderLen
  asks_length : t.asks.length = ladderLen
  bid_lower : ladderBase - 1 ≤ t.bestBid
  bid_upper : t.bestBid < ladderBase + ladderLen
  ask_lower : ladderBase ≤ t.bestAsk
  ask_upper : t.bestAsk < ladderBase + ladderLen ∨ t.bestAsk = int64Max

theorem inBounds_new (maxId : UInt64) : (new maxId).InBounds where
  bids_length := List.length_replicate
  asks_length := List.length_replicate
  bid_lower := show ladderBase - 1 ≤ -1 by decide
  bid_upper := show (-1 : ℤ) < ladderBase + ladderLen by decide
  ask_lower := show ladderBase ≤ int64Max by decide
  ask_upper := Or.inr rfl

namespace InBounds
variable {t t' : TunedBook}

theorem writeBack (h : t.InBounds) (side : UInt8) (i : ℕ) (d : Drain) :
    (t.writeBack side i d).InBounds where
  bids_length := by
    simp only [TunedBook.writeBack]
    split
    · exact h.bids_length
    · rw [List.length_set, h.bids_length]
  asks_length := by
    simp only [TunedBook.writeBack]
    split
    · rw [List.length_set, h.asks_length]
    · exact h.asks_length
  bid_lower := h.bid_lower
  bid_upper := h.bid_upper
  ask_lower := h.ask_lower
  ask_upper := h.ask_upper

/-- The pointer moves to an occupied level, or to its sentinel. -/
theorem advance (h : t.InBounds) {side : UInt8} {i : ℕ} {best : ℤ} (h0 : ladderBase ≤ best)
    (h1 : best < ladderBase + ladderLen) (ht : t.advance side i best = some t') : t'.InBounds := by
  rw [TunedBook.advance] at ht
  split at ht
  case isTrue hs =>
    simp only [Option.bind_eq_bind, Option.bind_eq_some_iff, Option.some.injEq] at ht
    obtain ⟨lvl, -, p, hp, rfl⟩ := ht
    have hlen : (t.asks.set i lvl.reset).length = ladderLen := by
      rw [List.length_set, h.asks_length]
    have hle := le_scanUp hp
    refine ⟨h.bids_length, hlen, h.bid_lower, h.bid_upper, ?_, ?_⟩ <;>
      by_cases hp' : p < ladderBase + ladderLen <;> simp only [hp', if_true, if_false]
    · omega
    · decide
    · exact Or.inl trivial
    · exact Or.inr trivial
  case isFalse hs =>
    simp only [Option.bind_eq_bind, Option.bind_eq_some_iff, Option.some.injEq] at ht
    obtain ⟨lvl, -, p, hp, rfl⟩ := ht
    have hlen : (t.bids.set i lvl.reset).length = ladderLen := by
      rw [List.length_set, h.bids_length]
    have hle := scanDown_le hp
    obtain ⟨q, hq, -, hq0, -⟩ := scanDown_spec hlen (p := best - 1) (by omega) (by omega)
    obtain rfl : p = q := Option.some.inj (hp.symm.trans hq)
    exact ⟨hlen, h.asks_length, hq0, show p < ladderBase + ladderLen by omega, h.ask_lower,
      h.ask_upper⟩

theorem settle (h : t.InBounds) {side : UInt8} {best : ℤ} {d : Drain} (h0 : ladderBase ≤ best)
    (h1 : best < ladderBase + ladderLen) (ht : t.settle side best d = some t') : t'.InBounds := by
  simp only [TunedBook.settle] at ht
  split at ht
  · exact (h.writeBack side _ d).advance h0 h1 ht
  · exact Option.some.inj ht ▸ h.writeBack side _ d

theorem rest (h : t.InBounds) {side : UInt8} {price qty : ℤ} {id : UInt64}
    (h0 : ladderBase ≤ price) (h1 : price < ladderBase + ladderLen)
    (ht : t.rest side price qty id = some t') : t'.InBounds := by
  rw [TunedBook.rest] at ht
  have hb0 := h.bid_lower
  have hb1 := h.bid_upper
  have ha0 := h.ask_lower
  have ha1 := h.ask_upper
  by_cases hs : side = sideBid
  · simp only [hs, if_true, Option.bind_eq_bind, Option.bind_eq_some_iff, Option.some.injEq] at ht
    obtain ⟨lvl, -, t₁, rfl, r, -, rfl⟩ := ht
    refine ⟨?_, h.asks_length, ?_, ?_, ha0, ha1⟩
    · rw [List.length_set, h.bids_length]
    · simp only; omega
    · simp only; omega
  · simp only [hs, if_false, Option.bind_eq_bind, Option.bind_eq_some_iff, Option.some.injEq] at ht
    obtain ⟨lvl, -, t₁, rfl, r, -, rfl⟩ := ht
    refine ⟨h.bids_length, ?_, hb0, hb1, ?_, ?_⟩
    · rw [List.length_set, h.asks_length]
    · simp only; omega
    · simp only [int64Max, ladderBase, ladderLen] at *; omega

end InBounds

/-- In a run in range, the unread part of a level is a slice of it. -/
theorem head_le {maxId : UInt64} (hmax : maxId.toNat < 2 ^ 64 - 2) {ops : List Op}
    (hops : ∀ op ∈ ops, op.InRange maxId) {t : TunedBook} (ht : run maxId ops = some t) :
    ∀ lvl ∈ t.bids ++ t.asks, lvl.head ≤ lvl.ids.length := by
  rcases run_holds_assign hmax hops with ⟨t', excess, ht', hholds, -⟩
  obtain rfl : t = t' := Option.some.inj (ht.symm.trans ht')
  intro lvl hlvl
  rcases List.mem_append.mp hlvl with hlvl | hlvl
  · exact (hholds.bids.ladder.level_of_mem hlvl).1.1
  · exact (hholds.asks.ladder.level_of_mem hlvl).1.1

/-- **The live counter does not exceed the number of operations**, even where records of
live ids are overwritten and counted twice. -/
theorem live_le {maxId : UInt64} (hmax : maxId.toNat < 2 ^ 64 - 2) {ops : List Op}
    (hops : ∀ op ∈ ops, op.InRange maxId) (hlen : ops.length < 2 ^ 64) {t : TunedBook}
    (ht : run maxId ops = some t) : t.live.toNat ≤ ops.length := by
  rcases run_holds_assign hmax hops with ⟨t', excess, ht', hholds, -, -, hlive, -⟩
  obtain rfl : t = t' := Option.some.inj (ht.symm.trans ht')
  rw [hholds.live_eq, Word.toNat_add_of_lt, Word.toNat_ofNat_of_lt (by omega)]
  · exact hlive
  · rw [Word.toNat_ofNat_of_lt (by omega)]
    omega

end TunedBook
end LmaxBench.Cpp
