import Mathlib.Data.List.Infix
import Mathlib.Data.List.TakeDrop
import Mathlib.Data.Option.Basic

/-!
# Pipelines

One party sends a script, some operations followed by a request for the result; another party
handles what is sent in order, folds the operations into a state, and is done once it has
handled the request. What the events are and how they travel does not matter, as long as a
prefix of what was sent is handled.

## Main definitions

* `script` — what is asked for in turn.
* `Sent`, `Folded` — the two parties' parts of the invariant.
* `Folded.eq_run` — the result is that of the sequential fold.
* `Serves`, `Folded.exists_apply` — the fold does not fault.
* `Carries` — an event that is filled in store by store.
* `due`, `stamp`, `stamped` — the times at which a paced sender wants its operations sent.
* `Timely`, `recorded` — the times at which they are handled, and what is made of these.
-/

namespace LmaxBench.Pipeline

variable {ε ω σ : Type*} {decode : ε → Option ω} {apply : σ → ω → Option σ} {ops : List ω}
  {s₀ s s' : σ} {sent handled : List ε} {e : ε} {op : ω} {n : ℕ}

/-- The operations, and the request for the result. -/
def script (ops : List ω) : List (Option ω) := ops.map some ++ [none]

@[simp] theorem length_script (ops : List ω) :
    (script ops).length = ops.length + 1 := by simp [script]

theorem getElem?_script_of_lt (h : ops[n]? = some op) : (script ops)[n]? = some (some op) := by
  have hlt := (List.getElem?_eq_some_iff.mp h).1
  rw [script, List.getElem?_append_left (by simpa using hlt), List.getElem?_map, h, Option.map_some]

@[simp] theorem getElem?_script_length (ops : List ω) : (script ops)[ops.length]? = some none := by
  simp [script]

@[simp] theorem take_script (h : n ≤ ops.length) : (script ops).take n = (ops.take n).map some := by
  rw [script, List.take_append_of_le_length (by simpa using h), List.map_take]

/-! ## The sender -/

/-- The events sent are the first `n` of the script. -/
def Sent (decode : ε → Option ω) (ops : List ω) (sent : List ε) (n : ℕ) : Prop :=
  sent.map decode = (script ops).take n

theorem Sent.nil : Sent decode ops [] 0 := by simp [Sent]

theorem Sent.snoc (h : Sent decode ops sent n) (he : (script ops)[n]? = some (decode e)) :
    Sent decode ops (sent ++ [e]) (n + 1) := by
  rw [Sent, List.map_append, h, List.take_add_one, he]
  rfl

theorem Sent.snoc_op (h : Sent decode ops sent n) (hop : ops[n]? = some op)
    (he : decode e = some op) :
    Sent decode ops (sent ++ [e]) (n + 1) :=
  h.snoc (he ▸ getElem?_script_of_lt hop)

theorem Sent.snoc_request (h : Sent decode ops sent ops.length) (he : decode e = none) :
    Sent decode ops (sent ++ [e]) (ops.length + 1) :=
  h.snoc (he ▸ getElem?_script_length ops)

theorem Sent.length_eq (h : Sent decode ops sent n) (hn : n ≤ ops.length + 1) :
    sent.length = n := by
  have hlen := congrArg List.length h
  rw [List.length_map, List.length_take, length_script] at hlen
  omega

theorem Sent.length_le (h : Sent decode ops sent n) : sent.length ≤ ops.length + 1 := by
  have hlen := congrArg List.length h
  rw [List.length_map, List.length_take, length_script] at hlen
  omega

theorem Sent.getElem? (h : Sent decode ops sent n) {i : ℕ} (hi : sent[i]? = some e) :
    (script ops)[i]? = some (decode e) := by
  have hmap : (sent.map decode)[i]? = some (decode e) := by
    rw [List.getElem?_map, hi, Option.map_some]
  rw [h, List.getElem?_take] at hmap
  split at hmap
  · exact hmap
  · simp at hmap

/-- An operation is sent in its turn. -/
theorem Sent.getElem?_op (h : Sent decode ops sent n) {i : ℕ} (hi : sent[i]? = some e)
    (he : decode e = some op) : ops[i]? = some op := by
  have hscript := h.getElem? hi
  rw [he, script] at hscript
  rcases Nat.lt_or_ge i ops.length with hlt | hge
  · rw [List.getElem?_append_left (by simpa using hlt), List.getElem?_map] at hscript
    simpa using hscript
  · rw [List.getElem?_append_right (by simpa using hge), List.getElem?_singleton] at hscript
    split at hscript
    · simp at hscript
    · simp at hscript

/-- The request comes last. -/
theorem Sent.eq_length (h : Sent decode ops sent n) {i : ℕ} (hi : sent[i]? = some e)
    (he : decode e = none) : i = ops.length := by
  have hscript := h.getElem? hi
  rw [he, script] at hscript
  rcases Nat.lt_or_ge i ops.length with hlt | hge
  · rw [List.getElem?_append_left (by simpa using hlt), List.getElem?_map] at hscript
    simp [hlt] at hscript
  · have hlen := (List.getElem?_eq_some_iff.mp hscript).1
    simp only [List.length_append, List.length_map, List.length_singleton] at hlen
    omega

/-! ## The receiver -/

/-- What was handled, and whether the request was, with the state it led to. -/
def Folded (decode : ε → Option ω) (apply : σ → ω → Option σ) (s₀ : σ) (handled : List ε)
    (done : Bool) (s : σ) : Prop :=
  ∃ ops : List ω, handled.map decode = (if done then script ops else ops.map some) ∧
    ops.foldlM apply s₀ = some s

theorem Folded.nil : Folded decode apply s₀ [] false s₀ := ⟨[], rfl, rfl⟩

theorem Folded.snoc_op (h : Folded decode apply s₀ handled false s) (he : decode e = some op)
    (hs : apply s op = some s') : Folded decode apply s₀ (handled ++ [e]) false s' := by
  obtain ⟨ops, hops, hrun⟩ := h
  rw [if_neg Bool.false_ne_true] at hops
  refine ⟨ops ++ [op], ?_, ?_⟩
  · rw [if_neg Bool.false_ne_true, List.map_append, List.map_append, hops, List.map_singleton, he,
      List.map_singleton]
  · simp [List.foldlM_append, hrun, hs]

theorem Folded.snoc_request (h : Folded decode apply s₀ handled false s) (he : decode e = none) :
    Folded decode apply s₀ (handled ++ [e]) true s := by
  obtain ⟨ops, hops, hrun⟩ := h
  rw [if_neg Bool.false_ne_true] at hops
  refine ⟨ops, ?_, hrun⟩
  rw [if_pos rfl, List.map_append, hops, List.map_singleton, he, script]

/-! ## Together -/

theorem eq_of_script_prefix {ops ops' : List ω} (h : script ops <+: script ops') : ops = ops' := by
  induction ops generalizing ops' with
  | nil =>
    cases ops' with
    | nil => rfl
    | cons b ops' => simp [script] at h
  | cons a ops ih =>
    cases ops' with
    | nil => simp [script] at h
    | cons b ops' =>
      simp only [script, List.map_cons, List.cons_append, List.cons_prefix_cons,
        Option.some.injEq] at h ih
      rw [h.1, ih h.2]

theorem Sent.prefix_handled (h : Sent decode ops sent n) (hpre : handled <+: sent) :
    handled.map decode <+: script ops := by
  refine (hpre.map decode).trans ?_
  rw [h]
  exact List.take_prefix ..

/-- **Once the request is handled**, everything was, and the state is that of the sequential
fold. -/
theorem Folded.eq_run (h : Folded decode apply s₀ handled true s) (hsent : Sent decode ops sent n)
    (hpre : handled <+: sent) :
    handled.map decode = script ops ∧ ops.foldlM apply s₀ = some s := by
  obtain ⟨ops', hops, hrun⟩ := h
  rw [if_pos rfl] at hops
  have hprefix := hsent.prefix_handled hpre
  rw [hops] at hprefix
  obtain rfl := eq_of_script_prefix hprefix
  exact ⟨hops, hrun⟩

/-- Until then, a part of it was. -/
theorem Folded.eq_take (h : Folded decode apply s₀ handled false s)
    (hsent : Sent decode ops sent n) (hpre : handled <+: sent) :
    handled.length ≤ ops.length ∧ (ops.take handled.length).foldlM apply s₀ = some s := by
  obtain ⟨ops', hops, hrun⟩ := h
  rw [if_neg Bool.false_ne_true] at hops
  have hlen : handled.length = ops'.length := by simpa using congrArg List.length hops
  have hprefix := hsent.prefix_handled hpre
  rw [hops] at hprefix
  have hle : ops'.length ≤ ops.length := by
    -- the request would be among the operations
    by_contra hgt
    have hlast : (script ops)[ops.length]? = some none := getElem?_script_length ops
    have hget := List.prefix_iff_getElem?.mp hprefix ops.length (by simpa using hgt)
    rw [hlast] at hget
    simp at hget
  have htake := List.prefix_iff_eq_take.mp hprefix
  rw [List.length_map, take_script hle] at htake
  have heq := List.map_injective_iff.mpr (Option.some_injective ω) htake
  rw [hlen]
  exact ⟨hle, heq ▸ hrun⟩

/-- The fold faults nowhere on the operations, and the result can be read off. -/
structure Serves {ρ : Type*} (apply : σ → ω → Option σ) (result : σ → Option ρ) (s₀ : σ)
    (ops : List ω) : Prop where
  run : ∀ n ≤ ops.length, ∃ s, (ops.take n).foldlM apply s₀ = some s
  result : ∀ s, ops.foldlM apply s₀ = some s → ∃ r, result s = some r

variable {ρ : Type*} {result : σ → Option ρ}

/-- What is handled next does not fault: an operation can be applied. -/
theorem Folded.exists_apply (h : Folded decode apply s₀ handled false s)
    (hsent : Sent decode ops sent n) (hpre : handled <+: sent)
    (hserves : Serves apply result s₀ ops) (hnext : sent[handled.length]? = some e)
    (he : decode e = some op) : ∃ s', apply s op = some s' := by
  obtain ⟨-, hrun⟩ := h.eq_take hsent hpre
  have hop := hsent.getElem?_op hnext he
  have hlt := (List.getElem?_eq_some_iff.mp hop).1
  obtain ⟨s', hs'⟩ := hserves.run (handled.length + 1) hlt
  rw [List.take_add_one, hop, List.foldlM_append, hrun] at hs'
  simp only [Option.toList_some, Option.bind_eq_bind, Option.bind_some, List.foldlM_cons,
    List.foldlM_nil] at hs'
  obtain ⟨s'', hs'', -⟩ := Option.bind_eq_some_iff.mp hs'
  exact ⟨s'', hs''⟩

/-- When the request is next, there is a result. -/
theorem Folded.exists_result (h : Folded decode apply s₀ handled false s)
    (hsent : Sent decode ops sent n) (hpre : handled <+: sent)
    (hserves : Serves apply result s₀ ops) (hnext : sent[handled.length]? = some e)
    (he : decode e = none) : ∃ r, result s = some r := by
  obtain ⟨-, hrun⟩ := h.eq_take hsent hpre
  rw [hsent.eq_length hnext he, List.take_length] at hrun
  exact hserves.result s hrun

/-! ## Filling in a slot -/

section Carries
variable {τ : Type*} {store : τ → ε → ε} {slot : Option ℕ} {buf : List ε} {st : τ}
  {buf' : List ε} {todo : List τ} {P : ε → Prop} {i : ℕ}

/-- An event after some stores. -/
def storeAll (store : τ → ε → ε) (todo : List τ) (e : ε) : ε :=
  todo.foldl (fun e st => store st e) e

/-- The event under way will have the property `P`, once the stores that are left are made.
As long as no slot is claimed, this does not depend on what the slots hold. -/
def Carries (store : τ → ε → ε) (slot : Option ℕ) (buf : List ε) (todo : List τ)
    (P : ε → Prop) : Prop :=
  ∀ e, (∀ i, slot = some i → buf[i]? = some e) → P (storeAll store todo e)

theorem carries_of_forall (h : ∀ e, P (storeAll store todo e)) : Carries store slot buf todo P :=
  fun e _ => h e

/-- Claiming a slot changes nothing. -/
theorem Carries.claimed (h : Carries store none buf todo P) : Carries store slot buf' todo P :=
  fun e _ => h e (by simp)

theorem Carries.write (h : Carries store (some i) buf (st :: todo) P) (hget : buf[i]? = some e) :
    Carries store (some i) (buf.set i (store st e)) todo P := by
  have hlt := (List.getElem?_eq_some_iff.mp hget).1
  intro e' he'
  have hset := he' i rfl
  rw [List.getElem?_set_self hlt] at hset
  obtain rfl := Option.some.inj hset
  exact h e fun _ hi => Option.some.inj hi ▸ hget

/-- Once all stores are made, the slot holds the event. -/
theorem Carries.done (h : Carries store (some i) buf [] P) (hget : buf[i]? = some e) : P e :=
  h e fun _ hi => Option.some.inj hi ▸ hget

end Carries

/-! ## Pacing -/

/-- When the `n`-th operation is due, counted from one. -/
def due (start interval : UInt64) (n : ℕ) : UInt64 := start + UInt64.ofNat n * interval

@[simp] theorem due_zero (start interval : UInt64) : due start interval 0 = start := by simp [due]

theorem due_succ (start interval : UInt64) (n : ℕ) :
    due start interval (n + 1) = due start interval n + interval := by
  rw [due, due, UInt64.ofNat_add, UInt64.add_mul, ← UInt64.add_assoc]
  simp

/-- The stamp of the operation with the index `i`; those of the warmup have none. -/
def stamp (start interval warmup : UInt64) (i : ℕ) : UInt64 :=
  if warmup ≤ UInt64.ofNat i then due start interval (i + 1) else 0

/-- The operations, each with a stamp. -/
def stamped {τ : Type*} (stamps : ℕ → τ) (ops : List ω) : List (ω × τ) :=
  ops.zipIdx.map fun x => (x.1, stamps x.2)

section Stamped
variable {τ : Type*} (stamps : ℕ → τ) (ops : List ω)

@[simp] theorem length_stamped : (stamped stamps ops).length = ops.length := by simp [stamped]

@[simp] theorem getElem?_stamped (i : ℕ) :
    (stamped stamps ops)[i]? = ops[i]?.map fun x => (x, stamps i) := by
  rw [stamped, List.getElem?_map, List.getElem?_zipIdx]
  cases ops[i]? with
  | none => rfl
  | some x => simp

@[simp] theorem map_fst_stamped : (stamped stamps ops).map Prod.fst = ops := by
  simp [stamped, Function.comp_def]

/-- A fold that does not look at the stamps. -/
theorem foldlM_stamped (step : σ → ω → Option σ) (s : σ) :
    (stamped stamps ops).foldlM (fun s x => step s x.1) s = ops.foldlM step s := by
  conv_rhs => rw [← map_fst_stamped stamps ops]
  rw [List.foldlM_map]

@[simp] theorem take_stamped (n : ℕ) :
    (stamped stamps ops).take n = stamped stamps (ops.take n) := by
  apply List.ext_getElem?
  intro i
  simp only [List.getElem?_take, getElem?_stamped]
  split <;> rfl

variable {stamps ops} in
theorem Serves.stamped {step : σ → ω → Option σ} (h : Serves step result s₀ ops) :
    Serves (fun s (x : ω × τ) => step s x.1) result s₀ (stamped stamps ops) where
  run n hn := by
    rw [length_stamped] at hn
    rw [take_stamped, foldlM_stamped]
    exact h.run n hn
  result s hs := h.result s (foldlM_stamped stamps ops step s₀ ▸ hs)

end Stamped

/-! ## Measuring -/

section Timely
variable {ts : ε → UInt64} {now now' : UInt64}

/-- The time of an event has come; the request for the result has none. -/
def Timely (decode : ε → Option ω) (ts : ε → UInt64) (now : UInt64) (e : ε) : Prop :=
  ts e ≤ now ∧ (decode e = none → ts e = 0)

theorem Timely.mono (h : Timely decode ts now e) (hnow : now ≤ now') : Timely decode ts now' e :=
  ⟨UInt64.le_trans h.1 hnow, h.2⟩

end Timely

/-- What was recorded of some events, each with the time at which it was handled. -/
def recorded {μ : Type*} (measure : μ → UInt64 → UInt64 → μ) (ts : ε → UInt64) (m : μ)
    (handled : List ε) (times : List UInt64) : μ :=
  (handled.zip times).foldl (fun m x => measure m x.2 (ts x.1)) m

theorem recorded_snoc {μ : Type*} {measure : μ → UInt64 → UInt64 → μ} {ts : ε → UInt64} {m : μ}
    {times : List UInt64} (h : handled.length = times.length) (e : ε) (t : UInt64) :
    recorded measure ts m (handled ++ [e]) (times ++ [t]) =
      measure (recorded measure ts m handled times) t (ts e) := by
  rw [recorded, List.zip_append h, List.foldl_append]
  rfl

end LmaxBench.Pipeline
