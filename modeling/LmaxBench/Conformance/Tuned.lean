import LmaxBench.Java.TunedRefine

/-!
# The tuned books of the suite agree

The tuned books in C++, Go and Java, run on the same operations: the C++ book is faultless on
operations in range, Go's follows it, and Java's follows Go's. Ids may be reused, dead or live.

## Main definitions

* `Java.FlatLevel.unread` — the queue of a Java level, a slice of its array.
* `Java.FlatLevel.Agrees` — the indices of a Java level are in order and its queue is that of
  a C++ level.
* `tuned_books_agree` — the statistics and the queues of the three books after every prefix.
-/

namespace LmaxBench

/-- `ids[head..size)`. -/
def Java.FlatLevel.unread (j : Java.FlatLevel) : List Int64 :=
  (j.ids.take j.size.toNatClampNeg).drop j.head.toNatClampNeg

/-- The indices of a Java level are in order, and its queue is that of the C++ level `l`. -/
structure Java.FlatLevel.Agrees (l : Cpp.FlatLevel) (j : Java.FlatLevel) : Prop where
  nonneg : 0 ≤ j.head
  head_le_size : j.head ≤ j.size
  size_le_length : j.size.toInt ≤ j.ids.length
  unread_eq : j.unread.map Int64.toUInt64 = l.unread

theorem Java.LevelFollows.agrees {n : ℕ} {l : Go.TunedLevel} {j : Java.FlatLevel}
    (h : Java.LevelFollows n l j) : Java.FlatLevel.Agrees l j := by
  have hhead := h.head_eq
  have hsize := h.size_eq
  have hhle := h.head_le
  have hsle := h.size_le
  constructor
  · rw [Int32.le_iff_toInt_le, hhead]
    exact Int.natCast_nonneg l.head
  · rw [Int32.le_iff_toInt_le, hhead, hsize]
    omega
  · omega
  · rw [Java.FlatLevel.unread, Int32.toNatClampNeg, Int32.toNatClampNeg, hhead, hsize,
      Int.toNat_natCast, Int.toNat_natCast, List.map_drop, h.ids_eq]
    rfl

/-- **The tuned books agree.** With room for fewer than `2 ^ 30` ids, and on fewer operations
than that, the books in C++, Go and Java end every prefix without a fault, with the same
counters, live count and checksum, and every Java level holds the queue of the C++ level. -/
theorem tuned_books_agree {maxId : UInt64} (hmax : maxId.toNat + 2 < 2 ^ 30) {ops : List Cpp.Op}
    (hlen : ops.length < 2 ^ 30) (hops : ∀ op ∈ ops, op.InRange maxId) {pre : List Cpp.Op}
    (hpre : pre <+: ops) :
    ∃ t g j, Cpp.TunedBook.run maxId pre = some t ∧ Go.TunedBook.run maxId pre = some g ∧
      Java.TunedBook.run maxId.toInt64 pre = some j ∧
      (g.fills = t.fills ∧ j.fills.toUInt64 = t.fills) ∧
      (g.volume = t.volume ∧ j.volume.toUInt64 = t.volume) ∧
      (g.live.toInt = t.resting ∧ j.live.toInt = t.resting) ∧
      (∃ c c', t.checksum = some c ∧ g.checksum = some c ∧ j.checksum = some c' ∧
        c'.toUInt64 = c) ∧
      List.Forall₂ Java.FlatLevel.Agrees t.bids j.bids ∧
      List.Forall₂ Java.FlatLevel.Agrees t.asks j.asks := by
  have hmax' : maxId.toNat < 2 ^ 64 - 2 := by omega
  have hpre' : pre.length < 2 ^ 30 := lt_of_le_of_lt hpre.length_le hlen
  have hops' : ∀ op ∈ pre, op.InRange maxId := fun op hop => hops op (hpre.subset hop)
  obtain ⟨t, excess, ht, hholds, -⟩ := Cpp.TunedBook.run_holds_assign hmax' hops'
  obtain ⟨g, hg, rfl, -⟩ := Go.TunedBook.run_follows hops' t ht
  obtain ⟨j, hj, h⟩ := Java.TunedBook.run_follows hmax hpre' hops' _ hg
  obtain ⟨c, hc, rfl⟩ := Go.TunedBook.checksum_follows (Cpp.TunedBook.head_le hmax' hops' ht) _
    (Cpp.TunedBook.checksum_holds hholds)
  obtain ⟨c', hc', hcc'⟩ := Java.TunedBook.checksum_follows (by omega) h _ hc
  have hlive := Cpp.TunedBook.live_le hmax' hops' (by omega) ht
  have hshort : t.live.toNat < 2 ^ 31 := by omega
  have hlong : t.live.toNat < 2 ^ 63 := by omega
  have hgo : t.live.toInt64.toInt = t.live.toNat := Word.toInt_eq_toNat hlong
  have hjava : t.live.toInt64.toInt32.toInt = t.live.toNat := Java.toInt_toInt32_id hshort
  refine ⟨t, _, j, ht, hg, hj, ⟨rfl, h.fills_eq⟩, ⟨rfl, h.volume_eq⟩, ⟨hgo, ?_⟩,
    ⟨_, c', Cpp.TunedBook.checksum_holds hholds, hc, hc', hcc'⟩,
    List.Forall₂.imp (fun _ _ hl => hl.agrees) h.bids,
      List.Forall₂.imp (fun _ _ hl => hl.agrees) h.asks⟩
  rw [h.live_eq]
  exact hjava

theorem tuned_books_agree_refill :
    ∃ t g j,
      Cpp.TunedBook.run 7
        [.limit 1 30 4 1, .cancel 1, .limit 0 4095 3 2, .limit 1 0 3 1, .limit 1 30 2 2] = some t ∧
      Go.TunedBook.run 7
        [.limit 1 30 4 1, .cancel 1, .limit 0 4095 3 2, .limit 1 0 3 1, .limit 1 30 2 2] = some g ∧
      Java.TunedBook.run (7 : UInt64).toInt64
        [.limit 1 30 4 1, .cancel 1, .limit 0 4095 3 2, .limit 1 0 3 1, .limit 1 30 2 2] = some j ∧
      (g.fills = t.fills ∧ j.fills.toUInt64 = t.fills) ∧
      (g.volume = t.volume ∧ j.volume.toUInt64 = t.volume) ∧
      (g.live.toInt = t.resting ∧ j.live.toInt = t.resting) ∧
      (∃ c c', t.checksum = some c ∧ g.checksum = some c ∧ j.checksum = some c' ∧
        c'.toUInt64 = c) ∧
      List.Forall₂ Java.FlatLevel.Agrees t.bids j.bids ∧
      List.Forall₂ Java.FlatLevel.Agrees t.asks j.asks :=
  tuned_books_agree (by decide) (by decide) (by decide) (List.prefix_refl _)

end LmaxBench
