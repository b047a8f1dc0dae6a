import LmaxBench.Java.TunedBook
import LmaxBench.Lib.Follow
import LmaxBench.Lib.Signed

/-!
# The core handler in Java

`CoreHandler` of the Java suite: the handler that applies the events of the ring to an engine
and records a latency for every operation with a time stamp. The engine is any implementation
of the interface `Engine`. The histogram is a library class; what is used of it here is that a
histogram with a fixed range throws for a value above the range, and counts the others. An
exception that escapes from `onEvent` ends the drain.

## Main definitions

* `Engine`, `Hdr` — the interface of the engines, and of the histogram.
* `CoreHandler`, `CoreHandler.onEvent`, `CoreHandler.drain`.
* `CoreHandler.Covered` — the latencies that can be recorded.
* `CoreHandler.unaffected_iff` — when measuring leaves the statistics as they are.
-/

namespace LmaxBench.Java

/-! ## The parts of the handler -/

def kindReport : Int8 := 2

/-- `class Ev`. -/
structure Ev where
  kind : Int8 := 0
  side : Int8 := 0
  price : ℤ := 0
  qty : ℤ := 0
  id : Int64 := 0
  /-- The scheduled time of the event; zero means it is not measured. -/
  ts : Int64 := 0
  deriving DecidableEq, Repr

/-- `interface Engine`. A method that throws is `none`. -/
structure Engine (σ : Type) where
  limit : σ → Int8 → ℤ → ℤ → Int64 → Option σ
  cancel : σ → Int64 → Option σ
  fills : σ → Int64
  volume : σ → Int64
  resting : σ → Int32
  checksum : σ → Option Int64

/-- The call of the engine for an operation. -/
def Engine.exec {σ : Type} (E : Engine σ) (b : σ) (e : Ev) : Option σ :=
  if e.kind = kindLimit then E.limit b e.side e.price e.qty e.id else E.cancel b e.id

def TunedBook.engine : Engine TunedBook where
  limit := TunedBook.limit
  cancel := TunedBook.cancel
  fills := TunedBook.fills
  volume := TunedBook.volume
  resting := TunedBook.live
  checksum := TunedBook.checksum

/-- What the handler asks of the class `Histogram`. A call that throws is `none`. -/
structure Hdr (H : Type) where
  recordValue : H → Int64 → Option H
  getTotalCount : H → ℕ

/-- A histogram of the range up to `top`, which it does not extend; `new
Histogram(60_000_000_000L, 3)` is one. -/
structure Hdr.FixedRange {H : Type} (R : Hdr H) (top : Int64) : Prop where
  throws_iff : ∀ h v, 0 ≤ v → (R.recordValue h v = none ↔ top < v)
  count : ∀ h v h', R.recordValue h v = some h' → R.getTotalCount h' = R.getTotalCount h + 1
  highest : 60000000000 ≤ top

/-- `class Report`. -/
structure Report (H : Type) where
  fills : Int64
  volume : Int64
  resting : Int32
  checksum : Int64
  hist : H

/-- What a report says of the matching. -/
def Report.stats {H : Type} (r : Report H) : Int64 × Int64 × Int32 × Int64 :=
  (r.fills, r.volume, r.resting, r.checksum)

/-- `class CoreHandler`. -/
structure CoreHandler (σ H : Type) where
  book : σ
  hist : H
  report : Option (Report H) := none

namespace CoreHandler

variable {σ H : Type}

/-- The recording of the latency of an event stamped `ts` at the time `now`. -/
def measure (R : Hdr H) (c : CoreHandler σ H) (now ts : Int64) : Option (CoreHandler σ H) :=
  if ts ≠ 0 then do
    let hist ← R.recordValue c.hist (max 1 (now - ts))
    some { c with hist }
  else some c

/-- `CoreHandler.onEvent`, with `now` for what `System.nanoTime()` returns. -/
def onEvent (E : Engine σ) (R : Hdr H) (c : CoreHandler σ H) (e : Ev) (now : Int64) :
    Option (CoreHandler σ H) :=
  if e.kind = kindLimit then do
    let book ← E.limit c.book e.side e.price e.qty e.id
    measure R { c with book } now e.ts
  else if e.kind = kindCancel then do
    let book ← E.cancel c.book e.id
    measure R { c with book } now e.ts
  else do
    let checksum ← E.checksum c.book
    some
      { c with
        report := some
          { fills := E.fills c.book
            volume := E.volume c.book
            resting := E.resting c.book
            checksum
            hist := c.hist } }

/-- The events one after the other, each with the time at which it is handled. -/
def drain (E : Engine σ) (R : Hdr H) (c : CoreHandler σ H) (evs : List (Ev × Int64)) :
    Option (CoreHandler σ H) :=
  evs.foldlM (fun c i => c.onEvent E R i.1 i.2) c

/-- The same event, not measured. -/
def unmeasured (i : Ev × Int64) : Ev × Int64 := ({ i.1 with ts := 0 }, i.2)

/-- What the last report of a drain that ends says of the matching. -/
def outcome (E : Engine σ) (R : Hdr H) (c : CoreHandler σ H) (evs : List (Ev × Int64)) :
    Option (Int64 × Int64 × Int32 × Int64) :=
  (c.drain E R evs).bind fun c => c.report.map Report.stats

/-- The time stamps change nothing: where the drain of the unmeasured events ends, that of the
measured events ends with the same statistics. -/
def Unaffected (E : Engine σ) (R : Hdr H) (c : CoreHandler σ H) (evs : List (Ev × Int64)) : Prop :=
  ∀ stats, outcome E R c (evs.map unmeasured) = some stats → outcome E R c evs = some stats

/-! ## Measuring against not measuring -/

/-- The latency of the event, if it has one, is in the range of the histogram. -/
def Covered (top : Int64) (i : Ev × Int64) : Prop :=
  i.1.ts ≠ 0 → i.1.kind = kindLimit ∨ i.1.kind = kindCancel → i.2 - i.1.ts ≤ top

instance (top : Int64) (i : Ev × Int64) : Decidable (Covered top i) :=
  inferInstanceAs (Decidable (_ → _ → _))

/-- The same matching, whatever was recorded. -/
structure Same (c c' : CoreHandler σ H) : Prop where
  book : c'.book = c.book
  report : c'.report.map Report.stats = c.report.map Report.stats

variable {E : Engine σ} {R : Hdr H} {top : Int64}

@[simp] theorem measure_zero (c : CoreHandler σ H) (now : Int64) : c.measure R now 0 = some c := rfl

/-- An operation is executed, and then measured. -/
theorem onEvent_op (c : CoreHandler σ H) {e : Ev} (now : Int64)
    (hkind : e.kind = kindLimit ∨ e.kind = kindCancel) :
    c.onEvent E R e now =
      (E.exec c.book e).bind fun book => measure R { c with book } now e.ts := by
  rw [onEvent, Engine.exec]
  split
  case isTrue => rfl
  case isFalse hlimit => exact if_pos (hkind.resolve_left hlimit)

/-- Any other event asks for the report. -/
theorem onEvent_other (c : CoreHandler σ H) {e : Ev} (now : Int64)
    (hkind : ¬(e.kind = kindLimit ∨ e.kind = kindCancel)) :
    c.onEvent E R e now = (E.checksum c.book).bind fun checksum =>
      some
        { c with
          report := some
            { fills := E.fills c.book
              volume := E.volume c.book
              resting := E.resting c.book
              checksum
              hist := c.hist } } := by
  obtain ⟨hlimit, hcancel⟩ := not_or.mp hkind
  rw [onEvent, if_neg hlimit, if_neg hcancel]
  rfl

/-- A latency that is recorded is positive, and so never below the range. -/
theorem recordValue_eq_none_iff (hR : R.FixedRange top) (h : H) (x : Int64) :
    R.recordValue h (max 1 x) = none ↔ ¬ x ≤ top := by
  have hone : (1 : Int64).toInt = 1 := rfl
  have hhighest := Int64.le_iff_toInt_le.mp hR.highest
  have hconst : (60000000000 : Int64).toInt = 60000000000 := rfl
  rw [hR.throws_iff, Int64.lt_iff_toInt_lt, Int64.le_iff_toInt_le, Word.toInt_max, hone]
  · omega
  · rw [Int64.le_iff_toInt_le, Word.toInt_max, hone]
    exact le_trans (by decide) (le_max_left ..)

/-- A latency in the range is recorded, which changes the histogram only. -/
theorem measure_of_le (hR : R.FixedRange top) (c : CoreHandler σ H) {now ts : Int64}
    (hle : ts ≠ 0 → now - ts ≤ top) :
    ∃ c', c.measure R now ts = some c' ∧ c'.book = c.book ∧ c'.report = c.report := by
  rw [measure]
  split
  case isTrue hts =>
    cases hrecord : R.recordValue c.hist (max 1 (now - ts)) with
    | none => exact absurd (hle hts) ((recordValue_eq_none_iff hR _ _).mp hrecord)
    | some hist => exact ⟨{ c with hist }, rfl, rfl, rfl⟩
  case isFalse => exact ⟨c, rfl, rfl, rfl⟩

/-- One that is not ends the drain. -/
theorem le_of_measure (hR : R.FixedRange top) {c c' : CoreHandler σ H} {now ts : Int64}
    (h : c.measure R now ts = some c') (hts : ts ≠ 0) : now - ts ≤ top := by
  rw [measure, if_pos hts] at h
  obtain ⟨hist, hrecord, -⟩ := Option.bind_eq_some_iff.mp h
  by_contra hgt
  rw [(recordValue_eq_none_iff hR _ _).mpr hgt] at hrecord
  simp at hrecord

/-- One event, measured and not. -/
theorem onEvent_follows (hR : R.FixedRange top) {c c' : CoreHandler σ H} (h : Same c c')
    {i : Ev × Int64} (hcovered : Covered top i) :
    Follows Same (c.onEvent E R (unmeasured i).1 (unmeasured i).2) (c'.onEvent E R i.1 i.2) := by
  intro c₁ hc₁
  by_cases hkind : i.1.kind = kindLimit ∨ i.1.kind = kindCancel
  case pos =>
    rw [onEvent_op (e := (unmeasured i).1) c _ hkind] at hc₁
    obtain ⟨book, hbook, hrest⟩ := Option.bind_eq_some_iff.mp hc₁
    obtain rfl := Option.some.inj hrest
    obtain ⟨c₂, hc₂, hsame, hreport⟩ :=
      measure_of_le hR { c' with book } fun hts => hcovered hts hkind
    refine ⟨c₂, ?_, hsame, ?_⟩
    · rw [onEvent_op c' i.2 hkind, h.book]
      exact Option.bind_eq_some_iff.mpr ⟨book, hbook, hc₂⟩
    · rw [hreport]
      exact h.report
  case neg =>
    rw [onEvent_other (e := (unmeasured i).1) c _ hkind] at hc₁
    obtain ⟨checksum, hsum, hrest⟩ := Option.bind_eq_some_iff.mp hc₁
    obtain rfl := Option.some.inj hrest
    rw [onEvent_other c' i.2 hkind, h.book]
    exact ⟨_, Option.bind_eq_some_iff.mpr ⟨checksum, hsum, rfl⟩, rfl, rfl⟩

/-- **If all latencies are in range, the measured drain follows the unmeasured one.** -/
theorem drain_follows (hR : R.FixedRange top) {evs : List (Ev × Int64)} {c c' : CoreHandler σ H}
    (h : Same c c') (hcovered : ∀ i ∈ evs, Covered top i) :
    Follows Same (c.drain E R (evs.map unmeasured)) (c'.drain E R evs) := by
  rw [drain, drain, List.foldlM_map]
  refine (Follows.run (R := fun l c c' => Same c c' ∧ ∀ i ∈ l, Covered top i) ?_
    ⟨h, hcovered⟩).mono fun _ _ h => h.1
  intro i l c c' h
  refine (onEvent_follows hR h.1 (h.2 i List.mem_cons_self)).mono fun _ _ hsame => ?_
  exact ⟨hsame, fun j hj => h.2 j (List.mem_cons_of_mem i hj)⟩

/-- An event that does not end the drain is in range. -/
theorem covered_of_onEvent (hR : R.FixedRange top) {c c' : CoreHandler σ H} {i : Ev × Int64}
    (h : c.onEvent E R i.1 i.2 = some c') : Covered top i := by
  intro hts hkind
  rw [onEvent_op c i.2 hkind] at h
  obtain ⟨book, -, hmeasure⟩ := Option.bind_eq_some_iff.mp h
  exact le_of_measure hR hmeasure hts

/-- **When the handler takes an operation**: if the engine executes it, and its latency is in
range. -/
theorem exists_onEvent_iff (hR : R.FixedRange top) (c : CoreHandler σ H) {e : Ev} (now : Int64)
    (hkind : e.kind = kindLimit ∨ e.kind = kindCancel) :
    (∃ c', c.onEvent E R e now = some c') ↔
      (∃ book, E.exec c.book e = some book) ∧ Covered top (e, now) := by
  constructor
  · rintro ⟨c', h⟩
    refine ⟨?_, covered_of_onEvent (i := (e, now)) hR h⟩
    rw [onEvent_op c now hkind] at h
    obtain ⟨book, hbook, -⟩ := Option.bind_eq_some_iff.mp h
    exact ⟨book, hbook⟩
  · rintro ⟨⟨book, hbook⟩, hcovered⟩
    obtain ⟨c', hc', -⟩ := measure_of_le hR { c with book } fun hts => hcovered hts hkind
    rw [onEvent_op c now hkind, hbook]
    exact ⟨c', hc'⟩

theorem covered_of_drain (hR : R.FixedRange top) {evs : List (Ev × Int64)} {c c' : CoreHandler σ H}
    (h : c.drain E R evs = some c') : ∀ i ∈ evs, Covered top i := by
  induction evs generalizing c with
  | nil => simp
  | cons i evs ih =>
    rw [drain, List.foldlM_cons] at h
    obtain ⟨c₁, hc₁, hrest⟩ := Option.bind_eq_some_iff.mp h
    rintro j hj
    rcases List.mem_cons.mp hj with rfl | hj
    · exact covered_of_onEvent hR hc₁
    · exact ih hrest j hj

/-- **When measuring changes nothing.** On a stream with a report, the time stamps leave the
statistics as they are iff every latency is in the range of the histogram. -/
theorem unaffected_iff (hR : R.FixedRange top) {c : CoreHandler σ H} {evs : List (Ev × Int64)}
    {stats : Int64 × Int64 × Int32 × Int64}
    (hstats : outcome E R c (evs.map unmeasured) = some stats) :
    Unaffected E R c evs ↔ ∀ i ∈ evs, Covered top i := by
  constructor
  · intro h
    obtain ⟨c', hc', -⟩ := Option.bind_eq_some_iff.mp (h stats hstats)
    exact covered_of_drain hR hc'
  · intro hcovered stats hout
    obtain ⟨c₁, hc₁, hstats⟩ := Option.bind_eq_some_iff.mp hout
    obtain ⟨c₂, hc₂, hsame⟩ := drain_follows hR ⟨rfl, rfl⟩ hcovered c₁ hc₁
    exact Option.bind_eq_some_iff.mpr ⟨c₂, hc₂, hsame.report.trans hstats⟩

end CoreHandler
end LmaxBench.Java
