import LmaxBench.Cpp.Market
import LmaxBench.Lib.Mix
import LmaxBench.Lib.Signed

/-!
# What the checksum detects

`SplitMix64::next` permutes the words, so that a record of the checksum fold loses nothing
of the accumulator before it. Two books whose live orders diverge in one field of one
order have different checksums. The side of an order is not part of its record: the fold
meets an order that rests on the wrong side in the same place.

## Main definitions

* `SplitMix64.next_bijective`, `mix_bijective` — one draw and one record of the fold.
* `OneFieldApart`, `DivergesOnce` — the divergences in question.
* `Book.checksum_detects` — the checksum differs.
* `Book.Misplaced`, `Book.statistics_misplaced` — the checksum stays the same.
-/

namespace LmaxBench.Cpp

/-! ## One draw -/

/-- The draw as a composition of its steps. -/
theorem SplitMix64.next_eq (w : UInt64) :
    (SplitMix64.mk w).next.1 =
      (fun z : UInt64 => z ^^^ (z >>> 31)) ((fun z : UInt64 => z * 0x94D049BB133111EB)
        ((fun z : UInt64 => z ^^^ (z >>> 27)) ((fun z : UInt64 => z * 0xBF58476D1CE4E5B9)
          ((fun z : UInt64 => z ^^^ (z >>> 30)) (w + 0x9E3779B97F4A7C15))))) := by
  simp only [SplitMix64.next]

theorem SplitMix64.next_injective :
    Function.Injective fun w : UInt64 => (SplitMix64.mk w).next.1 := by
  have hadd : Function.Injective fun w : UInt64 => w + 0x9E3779B97F4A7C15 :=
    fun _ _ h => (UInt64.add_left_inj _).mp h
  have hfirst : Function.Injective fun z : UInt64 => z * 0xBF58476D1CE4E5B9 :=
    Word.mul_injective _ 0x96DE1B173F119089 (by decide)
  have hsecond : Function.Injective fun z : UInt64 => z * 0x94D049BB133111EB :=
    Word.mul_injective _ 0x319642B2D24D8EC3 (by decide)
  have h30 := Word.xorShift_injective (s := 30) (by decide)
  have h27 := Word.xorShift_injective (s := 27) (by decide)
  have h31 := Word.xorShift_injective (s := 31) (by decide)
  intro x y heq
  dsimp only at heq
  rw [SplitMix64.next_eq, SplitMix64.next_eq] at heq
  exact hadd (h30 (hfirst (h27 (hsecond (h31 heq)))))

/-- **One draw permutes the words.** -/
theorem SplitMix64.next_bijective :
    Function.Bijective fun w : UInt64 => (SplitMix64.mk w).next.1 :=
  Finite.injective_iff_bijective.mp SplitMix64.next_injective

/-! ## One record -/

/-- What a record contributes to the seed of its draw. -/
theorem mix_inj {acc acc' id id' : UInt64} {r r' : Resting} :
    mix acc id r = mix acc' id' r' ↔
      acc ^^^ id ^^^ (UInt64.ofInt r.price <<< 20) ^^^ UInt64.ofInt r.qty =
        acc' ^^^ id' ^^^ (UInt64.ofInt r'.price <<< 20) ^^^ UInt64.ofInt r'.qty :=
  SplitMix64.next_injective.eq_iff

/-- **One record of the fold permutes the accumulators.** -/
theorem mix_bijective (id : UInt64) (r : Resting) :
    Function.Bijective fun acc => mix acc id r := by
  refine Finite.injective_iff_bijective.mp ?_
  intro acc acc' h
  have heq := mix_inj.mp h
  rw [UInt64.xor_left_inj, UInt64.xor_left_inj, UInt64.xor_left_inj] at heq
  exact heq

/-- Prices in the range that `price << 20` keeps apart, and quantities of the type of the
source. -/
structure Resting.InRange (r : Resting) : Prop where
  price_nonneg : 0 ≤ r.price
  price_lt : r.price < 2 ^ 44
  le_qty : -2 ^ 63 ≤ r.qty
  qty_lt : r.qty < 2 ^ 63

/-- Two records that differ in exactly one of their fields. -/
inductive OneFieldApart : UInt64 × Resting → UInt64 × Resting → Prop
  | id {id id' : UInt64} {r : Resting} (h : id ≠ id') : OneFieldApart (id, r) (id', r)
  | price {id : UInt64} {p p' qty : ℤ} (h : p ≠ p') : OneFieldApart (id, ⟨p, qty⟩) (id, ⟨p', qty⟩)
  | qty {id : UInt64} {price q q' : ℤ} (h : q ≠ q') :
    OneFieldApart (id, ⟨price, q⟩) (id, ⟨price, q'⟩)

/-- A record detects a difference in one of its fields. -/
theorem OneFieldApart.mix_ne {e e' : UInt64 × Resting} (h : OneFieldApart e e')
    (he : e.2.InRange) (he' : e'.2.InRange) (acc : UInt64) :
    mix acc e.1 e.2 ≠ mix acc e'.1 e'.2 := by
  rw [Ne, mix_inj]
  cases h with
  | id hne => simpa using hne
  | price hne =>
    intro heq
    rw [UInt64.xor_left_inj, UInt64.xor_right_inj] at heq
    exact hne (Word.ofInt_shiftLeft_inj he.price_nonneg he.price_lt he'.price_nonneg he'.price_lt
      heq)
  | qty hne =>
    intro heq
    rw [UInt64.xor_right_inj] at heq
    exact hne (Word.ofInt_inj_of_bounds he.le_qty he.qty_lt he'.le_qty he'.qty_lt heq)

/-! ## The fold -/

/-- The step of the fold. -/
def mixRecord (acc : UInt64) (e : UInt64 × Resting) : UInt64 := mix acc e.1 e.2

theorem mixRecord_injective (e : UInt64 × Resting) :
    Function.Injective fun acc => mixRecord acc e :=
  (mix_bijective e.1 e.2).injective

/-- Two sequences of live orders that differ in one field of the order at `i`. -/
structure DivergesOnce (l l' : List (UInt64 × Resting)) (i : ℕ) : Prop where
  length_eq : l.length = l'.length
  apart : ∃ e e', l[i]? = some e ∧ l'[i]? = some e' ∧ OneFieldApart e e'
  elsewhere : ∀ j, j ≠ i → l[j]? = l'[j]?

namespace Book

/-- **The checksum detects every divergence in a single field.** One draw is a permutation of
the words, and so is each record of the fold, so that no later record masks it. -/
theorem checksum_detects :
    Function.Bijective (fun w : UInt64 => (SplitMix64.mk w).next.1) ∧
      (∀ id r, Function.Bijective fun acc => mix acc id r) ∧
      ∀ {b c : Book} {i : ℕ}, DivergesOnce b.folded c.folded i →
        (∀ e ∈ b.folded, e.2.InRange) → (∀ e ∈ c.folded, e.2.InRange) →
        b.checksum ≠ c.checksum := by
  refine ⟨SplitMix64.next_bijective, mix_bijective, ?_⟩
  intro b c i h hb hc
  obtain ⟨e, e', he, he', happ⟩ := h.apart
  have hne := happ.mix_ne (hb e (List.mem_of_getElem? he)) (hc e' (List.mem_of_getElem? he'))
  have hset : c.folded = b.folded.set i e' := Fold.eq_set he' h.length_eq h.elsewhere
  rw [b.checksum_eq, c.checksum_eq, hset]
  exact Fold.ne_of_set mixRecord_injective he hne 0

/-- Two books that differ in the quantity of their second order. -/
theorem checksum_detects_qty :
    (run [.limit 0 5 10 1, .limit 1 7 3 2]).checksum ≠
      (run [.limit 0 5 10 1, .limit 1 7 4 2]).checksum := by
  have hb : (run [.limit 0 5 10 1, .limit 1 7 3 2]).folded = [(1, ⟨5, 10⟩), (2, ⟨7, 3⟩)] := by
    decide
  have hc : (run [.limit 0 5 10 1, .limit 1 7 4 2]).folded = [(1, ⟨5, 10⟩), (2, ⟨7, 4⟩)] := by
    decide
  refine checksum_detects.2.2 (i := 1) ?_ ?_ ?_
  · rw [hb, hc]
    refine ⟨rfl, ⟨_, _, rfl, rfl, .qty (by decide)⟩, ?_⟩
    rintro (_ | _ | j) hj
    · rfl
    · exact absurd rfl hj
    · rfl
  · rw [hb]
    simp only [List.forall_mem_cons]
    exact ⟨⟨by decide, by decide, by decide, by decide⟩,
      ⟨by decide, by decide, by decide, by decide⟩, by simp⟩
  · rw [hc]
    simp only [List.forall_mem_cons]
    exact ⟨⟨by decide, by decide, by decide, by decide⟩,
      ⟨by decide, by decide, by decide, by decide⟩, by simp⟩

/-! ## An order on the wrong side -/

/-- The statistics an engine reports. -/
def statistics (b : Book) : UInt64 × UInt64 × ℕ × UInt64 :=
  (b.fills, b.volume, b.resting, b.checksum)

/-- The order `e` rests as a bid in `b` and as an ask in `c`, and else the live orders are
the same, in the same price and time order. -/
structure Misplaced (e : LiveOrder) (b c : Book) : Prop where
  bid : e ∈ liveOn b.orders b.bids
  ask : e ∈ liveOn c.orders c.asks
  bids : (liveOn b.orders b.bids).erase e = liveOn c.orders c.bids
  asks : (liveOn c.orders c.asks).erase e = liveOn b.orders b.asks

section

variable {ops : List Op} {b : Book}

theorem pricedBy_own (hops : NeverReused ops) (h : b.Placed ops) (side : UInt8) :
    PricedBy b.orders (b.own side) :=
  fun hlvl hid hr => h.price_eq hops hlvl hid hr

/-- The fold of a side goes up the prices. -/
theorem liveOn_sorted (hops : NeverReused ops) (h : b.Placed ops) (side : UInt8) :
    (liveOn b.orders (b.own side)).Pairwise fun o o' => o.2.price ≤ o'.2.price :=
  (priority_sorted (pricedBy_own hops h side) sideBid).imp fun hbetter => Int.not_lt.mp hbetter

/-- A live bid is priced below every live ask. -/
theorem price_lt (hops : NeverReused ops) (h : b.Placed ops) (hwf : b.WellFormed)
    {o o' : LiveOrder} (ho : o ∈ liveOn b.orders b.bids) (ho' : o' ∈ liveOn b.orders b.asks) :
    o.2.price < o'.2.price := by
  obtain ⟨hid, hr⟩ := mem_liveIn_pair.mp ho
  obtain ⟨hid', hr'⟩ := mem_liveIn_pair.mp ho'
  obtain ⟨p, lvl, hlvl, hmem⟩ := mem_queued.mp hid
  obtain ⟨p', lvl', hlvl', hmem'⟩ := mem_queued.mp hid'
  rw [pricedBy_own hops h sideBid hlvl hmem hr, pricedBy_own hops h sideAsk hlvl' hmem' hr']
  exact hwf.uncrossed hlvl hlvl'

end

/-- Where all others are priced below it, an order comes last. -/
theorem eq_erase_concat {l : List LiveOrder} {e : LiveOrder} (he : e ∈ l)
    (hsorted : l.Pairwise fun o o' => o.2.price ≤ o'.2.price)
    (hlt : ∀ o ∈ l.erase e, o.2.price < e.2.price) : l = l.erase e ++ [e] := by
  obtain ⟨s, t, -, hl, herase⟩ := List.exists_erase_eq he
  rw [hl] at hsorted
  rw [herase] at hlt
  have ht : t = [] := by
    refine List.eq_nil_iff_forall_not_mem.mpr ?_
    intro o ho
    have hle := (List.pairwise_cons.mp (List.pairwise_append.mp hsorted).2.1).1 o ho
    exact absurd (hlt o (List.mem_append_right s ho)) (Int.not_lt.mpr hle)
  rw [herase, hl, ht, List.append_nil]

/-- Where all others are priced above it, an order comes first. -/
theorem eq_cons_erase {l : List LiveOrder} {e : LiveOrder} (he : e ∈ l)
    (hsorted : l.Pairwise fun o o' => o.2.price ≤ o'.2.price)
    (hlt : ∀ o ∈ l.erase e, e.2.price < o.2.price) : l = e :: l.erase e := by
  obtain ⟨s, t, -, hl, herase⟩ := List.exists_erase_eq he
  rw [hl] at hsorted
  rw [herase] at hlt
  have hs : s = [] := by
    refine List.eq_nil_iff_forall_not_mem.mpr ?_
    intro o ho
    have hle := (List.pairwise_append.mp hsorted).2.2 o ho e List.mem_cons_self
    exact absurd (hlt o (List.mem_append_left t ho)) (Int.not_lt.mpr hle)
  rw [herase, hl, hs, List.nil_append, List.nil_append]

/-- A misplaced order is the last of the bids: where it is an ask, the bids are below it. -/
theorem Misplaced.bids_eq {ops ops' : List Op} (hops : NeverReused ops)
    (hops' : NeverReused ops') {e : LiveOrder} (h : Misplaced e (run ops) (run ops')) :
    liveOn (run ops).orders (run ops).bids =
      liveOn (run ops').orders (run ops').bids ++ [e] := by
  have hplaced := placed_run (noLiveReuse_of_neverReused hops)
  have hplaced' := placed_run (noLiveReuse_of_neverReused hops')
  have hlt : ∀ o ∈ (liveOn (run ops).orders (run ops).bids).erase e, o.2.price < e.2.price := by
    intro o ho
    rw [h.bids] at ho
    exact price_lt hops' hplaced' (wellFormed_run ops') ho h.ask
  have hlast := eq_erase_concat h.bid (liveOn_sorted hops hplaced sideBid) hlt
  rw [h.bids] at hlast
  exact hlast

/-- And the first of the asks: where it is a bid, the asks are above it. -/
theorem Misplaced.asks_eq {ops ops' : List Op} (hops : NeverReused ops)
    (hops' : NeverReused ops') {e : LiveOrder} (h : Misplaced e (run ops) (run ops')) :
    liveOn (run ops').orders (run ops').asks =
      e :: liveOn (run ops).orders (run ops).asks := by
  have hplaced := placed_run (noLiveReuse_of_neverReused hops)
  have hplaced' := placed_run (noLiveReuse_of_neverReused hops')
  have hlt : ∀ o ∈ (liveOn (run ops').orders (run ops').asks).erase e, e.2.price < o.2.price := by
    intro o ho
    rw [h.asks] at ho
    exact price_lt hops hplaced (wellFormed_run ops) h.bid ho
  have hfirst := eq_cons_erase h.ask (liveOn_sorted hops' hplaced' sideAsk) hlt
  rw [h.asks] at hfirst
  exact hfirst

/-- **The fold meets a misplaced order in the same place.** Neither book is crossed, so the
order is above all bids and below all asks: the last of the bids, or the first of the asks. -/
theorem Misplaced.folded_eq {ops ops' : List Op} (hops : NeverReused ops)
    (hops' : NeverReused ops') {e : LiveOrder} (h : Misplaced e (run ops) (run ops')) :
    (run ops).folded = (run ops').folded := by
  rw [folded, folded, h.bids_eq hops hops', h.asks_eq hops hops', List.append_assoc,
    List.singleton_append]

/-- **The checksum is blind to the side of an order.** Whatever runs lead to them, a book and
one with an order misplaced report the same `resting` and `checksum`: the statistics tell
them apart just if the fills or the volume do. -/
theorem statistics_misplaced {ops ops' : List Op} (hops : NeverReused ops)
    (hops' : NeverReused ops') {e : LiveOrder} (h : Misplaced e (run ops) (run ops')) :
    (run ops).resting = (run ops').resting ∧ (run ops).checksum = (run ops').checksum ∧
      ((run ops).statistics ≠ (run ops').statistics ↔
        (run ops).fills ≠ (run ops').fills ∨ (run ops).volume ≠ (run ops').volume) := by
  have hfolded := h.folded_eq hops hops'
  have hresting : (run ops).resting = (run ops').resting := by
    have hplaced := placed_run (noLiveReuse_of_neverReused hops)
    have hplaced' := placed_run (noLiveReuse_of_neverReused hops')
    rw [← hplaced.length_folded hops (wellFormed_run ops),
      ← hplaced'.length_folded hops' (wellFormed_run ops'), hfolded]
  have hchecksum : (run ops).checksum = (run ops').checksum := by
    rw [checksum_eq, checksum_eq, hfolded]
  refine ⟨hresting, hchecksum, ?_⟩
  rw [statistics, statistics, hresting, hchecksum, Ne, Prod.mk.injEq, Prod.mk.injEq]
  tauto

/-- Order 3 rests between a bid and an ask, on either side. -/
theorem misplaced_undetected :
    NeverReused [.limit 0 3 1 1, .limit 1 9 2 2, .limit 0 5 4 3] ∧
      NeverReused [.limit 0 3 1 1, .limit 1 9 2 2, .limit 1 5 4 3] ∧
      Misplaced (3, ⟨5, 4⟩) (run [.limit 0 3 1 1, .limit 1 9 2 2, .limit 0 5 4 3])
        (run [.limit 0 3 1 1, .limit 1 9 2 2, .limit 1 5 4 3]) ∧
      (run [.limit 0 3 1 1, .limit 1 9 2 2, .limit 0 5 4 3]).statistics =
        (run [.limit 0 3 1 1, .limit 1 9 2 2, .limit 1 5 4 3]).statistics :=
  ⟨by decide, by decide, ⟨by decide, by decide, by decide, by decide⟩, by decide +kernel⟩

/-- The books differ in their fills as well if one of them traded before. -/
theorem statistics_misplaced_traded :
    (run [.limit 0 5 4 3]).statistics ≠
      (run [.limit 0 9 2 1, .limit 1 9 2 2, .limit 1 5 4 3]).statistics :=
  (statistics_misplaced (e := (3, ⟨5, 4⟩)) (by decide) (by decide)
    ⟨by decide, by decide, by decide, by decide⟩).2.2.mpr (.inl (by decide))

end Book
end LmaxBench.Cpp
