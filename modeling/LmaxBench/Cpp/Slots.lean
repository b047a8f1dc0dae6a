import LmaxBench.Cpp.Progress

/-!
# The slots of the ring

What is in the slots, told by the counts alone: an event that is published and not yet
handled is still in its slot, so the consumer handles the events that were published, in
order and each once. Nothing is assumed about the number of events, so this also holds where
the cursor of the producer wraps around.

## Main definitions

* `Pipe.Kept`, `Pipe.Kept.step` — the invariant, and that every action keeps it.
-/

namespace LmaxBench.Cpp
namespace Pipe

variable {N : UInt64} {stop : Event → Bool} {p p' : Pipe} {k : ℕ}

/-- The slot of the event number `i`, `ring.buf[seq & ring.mask]` for its sequence number. -/
def slot? (p : Pipe) (i : ℕ) : Option Event :=
  p.ring.buf[(UInt64.ofNat (i + 1) &&& p.ring.mask).toNat]?

/-- What is published and not yet handled is in its slot. -/
structure Kept (N : UInt64) (p : Pipe) : Prop where
  shaped : p.Shaped N
  counted : p.Counted N
  handled : p.handled = p.published.take p.handled.length
  slots : ∀ i, p.handled.length ≤ i → i < p.published.length → p.slot? i = p.published[i]?

theorem kept_new (N : UInt64) : Kept N (new N) where
  shaped := shaped_new N
  counted := counted_new N
  handled := rfl
  slots i _ hi := absurd hi (Nat.not_lt_zero i)

theorem size_lt (hN : N.toNat = 2 ^ k) : N.toNat < 2 ^ 64 - 1 := by
  have hk : 2 ^ k ≤ 2 ^ 63 :=
    Nat.pow_le_pow_right (by decide) (Nat.le_of_lt_succ (Word.exponent_lt hN))
  omega

theorem Kept.handled_le (h : Kept N p) : p.handled.length ≤ p.published.length := by
  obtain ⟨seen, cons, avail, hcursors⟩ := h.counted
  exact hcursors.handled_le

/-- The next event to be handled. -/
theorem Kept.next?_eq (h : Kept N p) : p.next? = p.slot? p.handled.length := by
  obtain ⟨seen, cons, avail, hcursors⟩ := h.counted
  rw [next?, slot?, hcursors.seq_eq, Word.ofNat_succ]

/-- The slot that is claimed is that of the next event to be published. -/
theorem Kept.claimed_eq (h : Kept N p) {slot : UInt64} (hp : p.producer = .writing slot) :
    slot = UInt64.ofNat (p.published.length + 1) &&& p.ring.mask := by
  obtain ⟨seen, cons, avail, hcursors⟩ := h.counted
  rw [h.shaped.slot hp, Ring.claimed, hcursors.prod_eq, Word.ofNat_succ]

/-- The producer writes to no slot whose event is still to be handled. -/
theorem Kept.claimed_ne (h : Kept N p) (hN : N.toNat = 2 ^ k) {slot : UInt64}
    (hp : p.producer = .writing slot) {i : ℕ} (hle : p.handled.length ≤ i)
    (hlt : i < p.published.length) :
    (UInt64.ofNat (i + 1) &&& p.ring.mask).toNat ≠ slot.toNat := by
  obtain ⟨seen, cons, avail, hcursors⟩ := h.counted
  have hroom := hcursors.room hp
  have hseen := hcursors.seen_le
  have hcons := hcursors.cons_le
  rw [h.claimed_eq hp, h.shaped.mask, Word.toNat_ofNat_and_mask hN, Word.toNat_ofNat_and_mask hN]
  exact Spsc.slot_ne (by omega) (by omega)

/-- The actions that leave the slots and the two lists as they are. -/
theorem Kept.frame (h : Kept N p) (hshaped : p'.Shaped N) (hcounted : p'.Counted N)
    (hbuf : p'.ring.buf = p.ring.buf) (hpublished : p'.published = p.published)
    (hhandled : p'.handled = p.handled) : Kept N p' where
  shaped := hshaped
  counted := hcounted
  handled := by
    rw [hhandled, hpublished]
    exact h.handled
  slots i hle hlt := by
    rw [hhandled] at hle
    rw [hpublished] at hlt ⊢
    rw [slot?, hbuf, hshaped.mask, ← h.shaped.mask]
    exact h.slots i hle hlt

/-- **Every action keeps what is in the slots.** -/
theorem Kept.step (h : Kept N p) (hN : N.toNat = 2 ^ k) {a : Act}
    (hstep : p.step N stop a = some p') : Kept N p' := by
  have hshaped : p'.Shaped N := h.shaped.step hstep
  have hcounted : p'.Counted N := h.counted.step (size_lt hN) hstep
  cases a with
  | claim =>
    obtain ⟨-, rfl⟩ := step_claim hstep
    exact h.frame hshaped hcounted rfl rfl rfl
  | reload =>
    obtain ⟨-, rfl⟩ := step_reload hstep
    exact h.frame hshaped hcounted rfl rfl rfl
  | load =>
    obtain ⟨-, rfl⟩ := step_load hstep
    exact h.frame hshaped hcounted rfl rfl rfl
  | store =>
    obtain ⟨-, -, rfl⟩ := step_store hstep
    exact h.frame hshaped hcounted rfl rfl rfl
  | write st =>
    obtain ⟨slot, e, hp, -, rfl⟩ := step_write hstep
    refine ⟨hshaped, hcounted, h.handled, fun i hle hlt => ?_⟩
    refine Eq.trans ?_ (h.slots i hle hlt)
    exact List.getElem?_set_ne (h.claimed_ne hN hp hle hlt).symm
  | publish =>
    obtain ⟨slot, e, hp, hget, rfl⟩ := step_publish hstep
    refine ⟨hshaped, hcounted, ?_, fun i hle hlt => ?_⟩
    · exact h.handled.trans (List.take_append_of_le_length h.handled_le).symm
    · rw [List.length_append, List.length_singleton] at hlt
      rcases Nat.lt_succ_iff_lt_or_eq.mp hlt with hlt | rfl
      · exact (h.slots i hle hlt).trans (List.getElem?_append_left hlt).symm
      · rw [h.claimed_eq hp] at hget
        exact hget.trans List.getElem?_concat_length.symm
  | handle =>
    have hnext := h.next?_eq
    obtain ⟨e, he, -, -, rfl⟩ := step_handle hstep
    obtain ⟨seen, cons, avail, hcursors⟩ := hcounted
    have hle := hcursors.handled_le
    simp only [List.length_append, List.length_singleton] at hle
    refine ⟨hshaped, ⟨seen, cons, avail, hcursors⟩, ?_, fun i hi hlt => ?_⟩
    · have hpub : p.published[p.handled.length]? = some e := by
        rw [← h.slots _ le_rfl hle, ← hnext, he]
      simp only [List.length_append, List.length_singleton, List.take_add_one, hpub, ← h.handled]
      rfl
    · rw [List.length_append, List.length_singleton] at hi
      exact h.slots i (by omega) hlt

/-- The event that is handled is the one that was published. -/
theorem Kept.handle_eq (h : Kept N p) (hN : N.toNat = 2 ^ k)
    (hstep : p.step N stop .handle = some p') : ∃ e, p.next? = some e ∧
      p.published[p.handled.length]? = some e ∧ p'.handled = p.handled ++ [e] := by
  have h' : Kept N p' := h.step hN hstep
  obtain ⟨e, he, -, -, rfl⟩ := step_handle hstep
  have hle := h'.handled_le
  simp only [List.length_append, List.length_singleton] at hle
  refine ⟨e, he, ?_, rfl⟩
  rw [← h.slots _ le_rfl hle, ← h.next?_eq, he]

end Pipe
end LmaxBench.Cpp
