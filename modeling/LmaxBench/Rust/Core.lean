import LmaxBench.Rust.Book
import LmaxBench.Rust.TunedBook

/-!
# The core in Rust

`AnyBook` and `Core` of `rust/src/harness.rs`: the closure that applies the events of the ring
to either book and records a latency for every operation with a time stamp. The result of the
recording is dropped, so an error has no consequence, whatever the histogram does then.

## Main definitions

* `AnyBook` — the idiomatic and the tuned book.
* `Core`, `Core.onEvent`, `Core.drain`.
* `Core.unaffected` — measuring leaves the statistics as they are.
-/

namespace LmaxBench.Rust

/-- `enum AnyBook`. -/
inductive AnyBook
  | idio (b : Book)
  | tuned (b : TunedBook)

namespace AnyBook

/-- `AnyBook::limit`, which is `none` where it panics. -/
def limit (side : UInt8) (price qty : ℤ) (id : UInt64) : AnyBook → Option AnyBook
  | .idio b => some (.idio (b.limit side price qty id))
  | .tuned b => (b.limit side price qty id).map .tuned

/-- `AnyBook::cancel`. -/
def cancel (id : UInt64) : AnyBook → AnyBook
  | .idio b => .idio (b.cancel id)
  | .tuned b => .tuned (b.cancel id)

/-- `AnyBook::stats`: the fills, the volume, the number of live orders and the checksum. -/
def stats : AnyBook → Option (UInt64 × UInt64 × ℕ × UInt64)
  | .idio b => some (b.fills, b.volume, b.orders.size, b.checksum)
  | .tuned b => do
    let checksum ← b.checksum
    some (b.fills, b.volume, b.orders.size, checksum)

end AnyBook

/-- `struct Event`. -/
structure Event where
  kind : UInt8 := 0
  side : UInt8 := 0
  price : ℤ := 0
  qty : ℤ := 0
  id : UInt64 := 0
  /-- The scheduled time of the event; zero means it is not measured. -/
  ts : UInt64 := 0
  deriving DecidableEq, Repr

/-- What the core asks of the crate's `Histogram<u64>`: `record` changes it in place and
answers with a result, which is `false` for an error. -/
structure Hdr (H : Type) where
  record : H → UInt64 → H × Bool

/-- `struct Report`; `stats` is what it says of the matching. -/
structure Report (H : Type) where
  stats : UInt64 × UInt64 × ℕ × UInt64
  hist : H

/-- `struct Core`. -/
structure Core (H : Type) where
  book : AnyBook
  hist : H
  report : Option (Report H) := none

namespace Core

variable {H : Type}

/-- The recording of the latency of an event stamped `ts` at the time `now`. -/
def measure (R : Hdr H) (c : Core H) (now ts : UInt64) : Core H :=
  if ts ≠ 0 then { c with hist := (R.record c.hist (max (saturatingSub now ts) 1)).1 } else c

/-- `Core::on_event`, with `now` for what the clock shows. -/
def onEvent (R : Hdr H) (c : Core H) (e : Event) (now : UInt64) : Option (Core H) :=
  if e.kind = kindLimit then do
    let book ← c.book.limit e.side e.price e.qty e.id
    some (measure R { c with book } now e.ts)
  else if e.kind = kindCancel then
    some (measure R { c with book := c.book.cancel e.id } now e.ts)
  else do
    let stats ← c.book.stats
    some { c with report := some { stats, hist := c.hist } }

/-- The events one after the other, each with the time at which it is handled. -/
def drain (R : Hdr H) (c : Core H) (evs : List (Event × UInt64)) : Option (Core H) :=
  evs.foldlM (fun c i => c.onEvent R i.1 i.2) c

/-- The same event, not measured. -/
def unmeasured (i : Event × UInt64) : Event × UInt64 := ({ i.1 with ts := 0 }, i.2)

/-- What the last report of a drain that ends says of the matching. -/
def outcome (R : Hdr H) (c : Core H) (evs : List (Event × UInt64)) :
    Option (UInt64 × UInt64 × ℕ × UInt64) :=
  (c.drain R evs).bind fun c => c.report.map Report.stats

/-- The time stamps change nothing: where the drain of the unmeasured events ends, that of the
measured events ends with the same statistics. -/
def Unaffected (R : Hdr H) (c : Core H) (evs : List (Event × UInt64)) : Prop :=
  ∀ stats, outcome R c (evs.map unmeasured) = some stats → outcome R c evs = some stats

/-- What of the core does not depend on the measuring. -/
def matching (c : Core H) : AnyBook × Option (UInt64 × UInt64 × ℕ × UInt64) :=
  (c.book, c.report.map Report.stats)

variable {R : Hdr H}

@[simp] theorem matching_measure (c : Core H) (now ts : UInt64) :
    (measure R c now ts).matching = c.matching := by
  rw [measure]
  split <;> rfl

/-- **One event**: what it does to the matching depends on the matching only. -/
theorem onEvent_matching {c c' : Core H} (h : c.matching = c'.matching) (i : Event × UInt64) :
    (c.onEvent R (unmeasured i).1 (unmeasured i).2).map matching =
      (c'.onEvent R i.1 i.2).map matching := by
  obtain ⟨hbook, hreport⟩ := Prod.mk.inj h
  simp only [onEvent, unmeasured, hbook]
  split
  · cases c'.book.limit i.1.side i.1.price i.1.qty i.1.id with
    | none => rfl
    | some book =>
      simp only [Option.bind_eq_bind, Option.bind_some, Option.map_some, matching_measure]
      simp only [matching, hreport]
  · split
    · simp only [Option.map_some, matching_measure]
      simp only [matching, hreport]
    · cases c'.book.stats with
      | none => rfl
      | some stats => rfl

/-- **A drain**, event by event. -/
theorem drain_matching {evs : List (Event × UInt64)} {c c' : Core H}
    (h : c.matching = c'.matching) :
    (c.drain R (evs.map unmeasured)).map matching = (c'.drain R evs).map matching := by
  induction evs generalizing c c' with
  | nil => exact congrArg some h
  | cons i evs ih =>
    have hstep := onEvent_matching (R := R) h i
    rw [drain, drain, List.map_cons, List.foldlM_cons, List.foldlM_cons]
    cases h₁ : c.onEvent R (unmeasured i).1 (unmeasured i).2 with
    | none =>
      rw [h₁] at hstep
      rw [Option.map_eq_none_iff.mp hstep.symm]
      rfl
    | some c₁ =>
      rw [h₁] at hstep
      obtain ⟨c₂, h₂, hsame⟩ := Option.map_eq_some_iff.mp hstep.symm
      rw [h₂]
      exact ih hsame.symm

/-- **Measuring changes nothing.** -/
theorem unaffected (R : Hdr H) (c : Core H) (evs : List (Event × UInt64)) : Unaffected R c evs := by
  have hout : ∀ c' : Option (Core H), (c'.bind fun c => c.report.map Report.stats) =
      (c'.map matching).bind Prod.snd := by
    rintro (_ | c') <;> rfl
  intro stats h
  rw [outcome, hout] at h ⊢
  rwa [← drain_matching rfl]

end Core
end LmaxBench.Rust
