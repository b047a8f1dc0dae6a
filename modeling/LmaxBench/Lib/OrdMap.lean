import Mathlib.Algebra.BigOperators.Group.List.Basic
import Mathlib.Data.List.Pairwise
import Mathlib.Data.List.Nodup
import Mathlib.Data.List.Perm.Basic
import Mathlib.Order.Lattice

/-!
# Finite maps as strictly sorted entry lists

`OrdMap κ ν` is a finite map kept as its list of entries in strictly increasing key
order. Order and uniqueness of keys are a field of the structure, so an ill-formed
map cannot be written down, and two maps with the same contents are equal
(`OrdMap.ext_find?`). Iteration is the entry list itself; the two ends are `first?`
and `last?`.

There is one update, `alter`; insertion, erasure and modification are instances of
it, and each law is proved once, for `alter`.

## Main definitions

* `OrdMap κ ν`, `OrdMap.find?`, `OrdMap.size`, `OrdMap.first?`, `OrdMap.last?`.
* `OrdMap.alter`, and its instances `erase`, `insert`, `emplace`.
* `OrdMap.mapVals` — the values under a function.
* `OrdMap.sum` — the total of a weight over the values.
* `OrdMap.find?_alter`, `OrdMap.sum_alter`, `OrdMap.size_alter` — what an update does.
* `OrdMap.entries_alter_head`, `OrdMap.entries_alter_last` — updates at the two ends.
-/

namespace LmaxBench

universe u v

/-- A finite map with its entries in strictly increasing key order. -/
structure OrdMap (κ : Type u) (ν : Type v) [LinearOrder κ] where
  entries : List (κ × ν)
  sorted : entries.Pairwise fun a b => a.1 < b.1

namespace OrdMap
variable {κ : Type u} {ν : Type v} [LinearOrder κ]

instance [DecidableEq ν] : DecidableEq (OrdMap κ ν) := fun m m' =>
  decidable_of_iff (m.entries = m'.entries) ⟨fun h => by cases m; cases m'; simpa using h,
    fun h => h ▸ rfl⟩

theorem ext {m m' : OrdMap κ ν} (h : m.entries = m'.entries) : m = m' := by
  cases m; cases m'
  congr

/-- The map without entries. -/
def empty : OrdMap κ ν := ⟨[], List.Pairwise.nil⟩

instance : EmptyCollection (OrdMap κ ν) := ⟨empty⟩

/-- The value stored under a key. -/
def find? (m : OrdMap κ ν) (k : κ) : Option ν := m.entries.lookup k

/-- The number of entries. -/
def size (m : OrdMap κ ν) : ℕ := m.entries.length

/-- The entry with the least key. -/
def first? (m : OrdMap κ ν) : Option (κ × ν) := m.entries.head?

/-- The entry with the greatest key. -/
def last? (m : OrdMap κ ν) : Option (κ × ν) := m.entries.getLast?

@[simp] theorem find?_empty (k : κ) : (∅ : OrdMap κ ν).find? k = none := rfl

/-! ## Lookup -/

theorem lookup_of_lt {l : List (κ × ν)} {k : κ} (h : ∀ e ∈ l, k < e.1) : l.lookup k = none := by
  rw [List.lookup_eq_none_iff]
  intro e he
  simpa using (h e he).ne

theorem mem_iff_lookup {l : List (κ × ν)} (hl : l.Pairwise fun a b => a.1 < b.1) {k : κ} {v : ν} :
    (k, v) ∈ l ↔ l.lookup k = some v := by
  induction l with
  | nil => simp
  | cons e l ih =>
      obtain ⟨a, w⟩ := e
      rw [List.pairwise_cons] at hl
      rw [List.lookup_cons]
      by_cases hk : k = a
      · subst hk
        have hno : (k, v) ∉ l := fun h => lt_irrefl k (hl.1 _ h)
        simp [hno, eq_comm]
      · simp [hk, beq_false_of_ne hk, ih hl.2]

@[simp] theorem mem_entries {m : OrdMap κ ν} {k : κ} {v : ν} :
    (k, v) ∈ m.entries ↔ m.find? k = some v :=
  mem_iff_lookup m.sorted

theorem keys_nodup (m : OrdMap κ ν) : (m.entries.map Prod.fst).Nodup := by
  rw [List.Nodup, List.pairwise_map]
  exact m.sorted.imp fun h => h.ne

theorem entries_nodup (m : OrdMap κ ν) : m.entries.Nodup :=
  m.keys_nodup.of_map _

/-- **A map is its contents**: equal lookups make equal maps. -/
theorem ext_find? {m m' : OrdMap κ ν} (h : ∀ k, m.find? k = m'.find? k) : m = m' := by
  apply ext
  have hperm : m.entries.Perm m'.entries := by
    rw [List.perm_ext_iff_of_nodup m.entries_nodup m'.entries_nodup]
    rintro ⟨k, v⟩
    rw [mem_entries, mem_entries, h k]
  refine hperm.eq_of_pairwise ?_ m.sorted m'.sorted
  intro a b _ _ hab hba
  exact absurd hab (lt_asymm hba)

/-- A map whose keys are among `f 0 < f 1 < … < f (n - 1)` is read off by lookups. -/
theorem entries_eq_filterMap_range {m : OrdMap κ ν} {f : ℕ → κ} (hf : ∀ i j, i < j → f i < f j)
    {n : ℕ} (hcover : ∀ k v, m.find? k = some v → ∃ i, i < n ∧ f i = k) :
    m.entries = (List.range n).filterMap fun i => (m.find? (f i)).map (f i, ·) := by
  have hsorted : ((List.range n).filterMap fun i => (m.find? (f i)).map (f i, ·)).Pairwise
      fun a b => a.1 < b.1 := by
    rw [List.pairwise_filterMap]
    refine List.pairwise_lt_range.imp ?_
    intro i j hij a ha b hb
    simp only [Option.map_eq_some_iff] at ha hb
    obtain ⟨v, -, rfl⟩ := ha
    obtain ⟨w, -, rfl⟩ := hb
    exact hf _ _ hij
  have hmem : ∀ e, e ∈ m.entries ↔
      e ∈ (List.range n).filterMap fun i => (m.find? (f i)).map (f i, ·) := by
    rintro ⟨k, v⟩
    rw [mem_entries, List.mem_filterMap]
    constructor
    · intro h
      obtain ⟨i, hi, rfl⟩ := hcover k v h
      exact ⟨i, List.mem_range.mpr hi, by rw [h]; rfl⟩
    · rintro ⟨i, -, h⟩
      simp only [Option.map_eq_some_iff, Prod.mk.injEq] at h
      obtain ⟨w, hw, rfl, rfl⟩ := h
      exact hw
  let m' : OrdMap κ ν := ⟨_, hsorted⟩
  have hext : m = m' := ext_find? fun k => by
    cases h : m.find? k with
    | some v =>
      have hv : (k, v) ∈ m'.entries := (hmem _).mp (mem_entries.mpr h)
      exact (mem_entries.mp hv).symm
    | none =>
      cases h' : m'.find? k with
      | none => rfl
      | some v =>
        have hv : (k, v) ∈ m.entries := (hmem _).mpr (mem_entries.mpr h')
        rw [mem_entries.mp hv] at h
        simp at h
  exact congrArg entries hext

/-! ## Updates -/

/-- `alter` on entry lists: the entry at `k`, if any, becomes what `f` makes of it. -/
def alterEntries (k : κ) (f : Option ν → Option ν) : List (κ × ν) → List (κ × ν)
  | [] => ((f none).map (k, ·)).toList
  | (a, w) :: l =>
    if k < a then ((f none).map (k, ·)).toList ++ (a, w) :: l
    else if k = a then ((f (some w)).map (k, ·)).toList ++ l
    else (a, w) :: alterEntries k f l

theorem mem_alterEntries {k : κ} {f : Option ν → Option ν} {l : List (κ × ν)} {e : κ × ν}
    (he : e ∈ alterEntries k f l) : e.1 = k ∨ e ∈ l := by
  induction l with
  | nil =>
      simp only [alterEntries, Option.mem_toList, Option.map_eq_some_iff] at he
      obtain ⟨v, -, rfl⟩ := he
      exact Or.inl rfl
  | cons c l ih =>
      obtain ⟨a, w⟩ := c
      simp only [alterEntries] at he
      split at he
      · rcases List.mem_append.mp he with he | he
        · simp only [Option.mem_toList, Option.map_eq_some_iff] at he
          obtain ⟨v, -, rfl⟩ := he
          exact Or.inl rfl
        · exact Or.inr he
      · split at he
        · rcases List.mem_append.mp he with he | he
          · simp only [Option.mem_toList, Option.map_eq_some_iff] at he
            obtain ⟨v, -, rfl⟩ := he
            exact Or.inl rfl
          · exact Or.inr (List.mem_cons_of_mem _ he)
        · rcases List.mem_cons.mp he with he | he
          · exact Or.inr (he ▸ List.mem_cons_self)
          · exact (ih he).imp_right (List.mem_cons_of_mem _)

theorem sorted_alterEntries (k : κ) (f : Option ν → Option ν) {l : List (κ × ν)}
    (hl : l.Pairwise fun a b => a.1 < b.1) :
    (alterEntries k f l).Pairwise fun a b => a.1 < b.1 := by
  have hone : ∀ o : Option ν, ∀ l' : List (κ × ν), (∀ e ∈ l', k < e.1) →
      l'.Pairwise (fun a b => a.1 < b.1) →
      ((o.map (k, ·)).toList ++ l').Pairwise fun a b => a.1 < b.1 := by
    intro o l' hk hl'
    cases o with
    | none => simpa using hl'
    | some v => simpa using ⟨fun a b h => hk (a, b) h, hl'⟩
  induction l with
  | nil => cases f none <;> simp [alterEntries]
  | cons c l ih =>
      obtain ⟨a, w⟩ := c
      have hcons := List.pairwise_cons.mp hl
      simp only [alterEntries]
      split
      case isTrue hka =>
        refine hone _ _ ?_ hl
        rintro e (_ | ⟨_, he⟩)
        · exact hka
        · exact hka.trans (hcons.1 e he)
      case isFalse hka =>
        split
        case isTrue hk =>
          subst hk
          exact hone _ _ hcons.1 hcons.2
        case isFalse hk =>
          rw [List.pairwise_cons]
          refine ⟨fun e he => ?_, ih hcons.2⟩
          rcases mem_alterEntries he with rfl | he
          · exact lt_of_le_of_ne (not_lt.mp hka) (Ne.symm hk)
          · exact hcons.1 e he

/-- Replace the entry at `k` by what `f` makes of it; `none` stands for no entry. -/
def alter (m : OrdMap κ ν) (k : κ) (f : Option ν → Option ν) : OrdMap κ ν :=
  ⟨alterEntries k f m.entries, sorted_alterEntries k f m.sorted⟩

/-- Drop the entry at `k`. -/
def erase (m : OrdMap κ ν) (k : κ) : OrdMap κ ν := m.alter k fun _ => none

/-- Store `v` under `k`, replacing what is there. -/
def insert (m : OrdMap κ ν) (k : κ) (v : ν) : OrdMap κ ν := m.alter k fun _ => some v

/-- Store `v` under `k` unless the key is taken. -/
def emplace (m : OrdMap κ ν) (k : κ) (v : ν) : OrdMap κ ν := m.alter k fun o => some (o.getD v)

private theorem lookup_toList_append (k k' : κ) (o : Option ν) (l : List (κ × ν)) :
    ((o.map (k, ·)).toList ++ l).lookup k' =
      if k' = k then o.or (l.lookup k') else l.lookup k' := by
  cases o with
  | none => simp
  | some v =>
    by_cases h : k' = k
    · simp [h]
    · simp [h, List.lookup_cons, beq_false_of_ne h]

theorem lookup_alterEntries (k : κ) (f : Option ν → Option ν) {l : List (κ × ν)}
    (hl : l.Pairwise fun a b => a.1 < b.1) (k' : κ) :
    (alterEntries k f l).lookup k' = if k' = k then f (l.lookup k) else l.lookup k' := by
  induction l with
  | nil =>
      have := lookup_toList_append k k' (f none) []
      simpa [alterEntries] using this
  | cons c l ih =>
      obtain ⟨a, w⟩ := c
      have hcons := List.pairwise_cons.mp hl
      simp only [alterEntries]
      split
      case isTrue hka =>
        have hnone : ((a, w) :: l).lookup k = none := lookup_of_lt (by
          rintro e (_ | ⟨_, he⟩)
          · exact hka
          · exact hka.trans (hcons.1 e he))
        rw [lookup_toList_append, hnone]
        by_cases h : k' = k
        · subst h; simp [hnone]
        · simp [h]
      case isFalse hka =>
        split
        case isTrue hk =>
          subst hk
          rw [lookup_toList_append]
          by_cases h : k' = k
          · subst h
            simp [lookup_of_lt hcons.1]
          · simp [h, List.lookup_cons, beq_false_of_ne h]
        case isFalse hk =>
          rw [List.lookup_cons, ih hcons.2]
          by_cases h : k' = a
          · subst h
            simp [Ne.symm hk]
          · simp [beq_false_of_ne h, List.lookup_cons, beq_false_of_ne hk]

/-- **What an update does**: `k` holds what `f` made of it, other keys are untouched. -/
theorem find?_alter (m : OrdMap κ ν) (k : κ) (f : Option ν → Option ν) (k' : κ) :
    (m.alter k f).find? k' = if k' = k then f (m.find? k) else m.find? k' :=
  lookup_alterEntries k f m.sorted k'

@[simp] theorem find?_erase (m : OrdMap κ ν) (k k' : κ) :
    (m.erase k).find? k' = if k' = k then none else m.find? k' := find?_alter _ _ _ _

@[simp] theorem find?_insert (m : OrdMap κ ν) (k : κ) (v : ν) (k' : κ) :
    (m.insert k v).find? k' = if k' = k then some v else m.find? k' := find?_alter _ _ _ _

@[simp] theorem find?_emplace (m : OrdMap κ ν) (k : κ) (v : ν) (k' : κ) :
    (m.emplace k v).find? k' = if k' = k then some ((m.find? k).getD v) else m.find? k' :=
  find?_alter _ _ _ _

/-- At a free key the two insertions agree. -/
theorem emplace_eq_insert {m : OrdMap κ ν} {k : κ} (h : m.find? k = none) (v : ν) :
    m.emplace k v = m.insert k v := by
  apply ext_find?
  intro k'
  simp [h]

/-- Erasing a key that is not there changes nothing. -/
@[simp] theorem erase_of_none {m : OrdMap κ ν} {k : κ} (h : m.find? k = none) : m.erase k = m := by
  apply ext_find?
  intro k'
  by_cases hk : k' = k
  · simp [hk, h]
  · simp [hk]

/-- Erasing forgets what was stored under the key. -/
@[simp] theorem erase_insert (m : OrdMap κ ν) (k : κ) (v : ν) :
    (m.insert k v).erase k = m.erase k := by
  apply ext_find?
  intro k'
  by_cases hk : k' = k
  · simp [hk]
  · simp [hk]

/-- The later insertion counts. -/
@[simp] theorem insert_insert (m : OrdMap κ ν) (k : κ) (v w : ν) :
    (m.insert k v).insert k w = m.insert k w := by
  apply ext_find?
  intro k'
  by_cases hk : k' = k
  · simp [hk]
  · simp [hk]

/-- Changes at two keys can be made in either order. -/
theorem alter_comm (m : OrdMap κ ν) {k j : κ} (hne : k ≠ j) (f g : Option ν → Option ν) :
    (m.alter k f).alter j g = (m.alter j g).alter k f := by
  apply ext_find?
  intro k'
  by_cases hk : k' = k
  · simp [find?_alter, hk, hne]
  · by_cases hj : k' = j
    · simp [find?_alter, hj, hne.symm]
    · simp [find?_alter, hk, hj]

/-! ## Values under a function -/

/-- The map with every value replaced by its image. -/
def mapVals {μ : Type*} (f : ν → μ) (m : OrdMap κ ν) : OrdMap κ μ :=
  ⟨m.entries.map fun e => (e.1, f e.2), by
    rw [List.pairwise_map]
    exact m.sorted⟩

section MapVals
variable {μ : Type*} (f : ν → μ) (m : OrdMap κ ν)

@[simp] theorem find?_mapVals (k : κ) : (m.mapVals f).find? k = (m.find? k).map f := by
  refine Option.ext ?_
  intro v
  rw [← mem_entries, Option.map_eq_some_iff, mapVals, List.mem_map]
  constructor
  · rintro ⟨⟨k', w⟩, hmem, heq⟩
    obtain ⟨rfl, rfl⟩ := Prod.mk.inj heq
    exact ⟨w, mem_entries.mp hmem, rfl⟩
  · rintro ⟨w, hw, rfl⟩
    exact ⟨(k, w), mem_entries.mpr hw, rfl⟩

@[simp] theorem first?_mapVals : (m.mapVals f).first? = m.first?.map fun e => (e.1, f e.2) := by
  rw [first?, first?, mapVals, List.head?_map]

@[simp] theorem last?_mapVals : (m.mapVals f).last? = m.last?.map fun e => (e.1, f e.2) := by
  rw [last?, last?, mapVals, List.getLast?_map]

@[simp] theorem size_mapVals : (m.mapVals f).size = m.size := by
  rw [size, size, mapVals, List.length_map]

@[simp] theorem mapVals_insert (k : κ) (v : ν) :
    (m.insert k v).mapVals f = (m.mapVals f).insert k (f v) := by
  apply ext_find?
  intro k'
  rw [find?_mapVals, find?_insert, find?_insert, find?_mapVals]
  split <;> rfl

@[simp] theorem mapVals_erase (k : κ) : (m.erase k).mapVals f = (m.mapVals f).erase k := by
  apply ext_find?
  intro k'
  rw [find?_mapVals, find?_erase, find?_erase, find?_mapVals]
  split <;> rfl

end MapVals

/-- The total of a weight over the values. -/
def sum {M : Type*} [AddCommMonoid M] (m : OrdMap κ ν) (w : ν → M) : M :=
  (m.entries.map fun e => w e.2).sum

@[simp] theorem sum_empty {M : Type*} [AddCommMonoid M] (w : ν → M) :
    (∅ : OrdMap κ ν).sum w = 0 := rfl

private theorem sum_alterEntries {M : Type*} [AddCommMonoid M] (w : ν → M) (k : κ)
    (f : Option ν → Option ν) {l : List (κ × ν)} (hl : l.Pairwise fun a b => a.1 < b.1) :
    ((alterEntries k f l).map fun e => w e.2).sum + ((l.lookup k).toList.map w).sum =
      (l.map fun e => w e.2).sum + ((f (l.lookup k)).toList.map w).sum := by
  induction l with
  | nil => cases h : f none <;> simp [alterEntries, h]
  | cons c l ih =>
      obtain ⟨a, v⟩ := c
      have hcons := List.pairwise_cons.mp hl
      simp only [alterEntries]
      split
      case isTrue hka =>
        have hnone : ((a, v) :: l).lookup k = none := lookup_of_lt (by
          rintro e (_ | ⟨_, he⟩)
          · exact hka
          · exact hka.trans (hcons.1 e he))
        rw [hnone]
        cases f none <;> simp [add_comm]
      case isFalse hka =>
        split
        case isTrue hk =>
          subst hk
          simp only [List.lookup_cons, beq_self_eq_true]
          cases f (some v) <;> simp [add_comm, add_left_comm]
        case isFalse hk =>
          simp only [List.lookup_cons, beq_false_of_ne hk, List.map_cons, List.sum_cons, add_assoc]
          rw [ih hcons.2]

/-- A total moves by the entry dropped and the entry stored. -/
theorem sum_alter {M : Type*} [AddCommMonoid M] (m : OrdMap κ ν) (w : ν → M) (k : κ)
    (f : Option ν → Option ν) :
    (m.alter k f).sum w + ((m.find? k).toList.map w).sum =
      m.sum w + ((f (m.find? k)).toList.map w).sum :=
  sum_alterEntries w k f m.sorted

theorem sum_erase_add {M : Type*} [AddCommMonoid M] {m : OrdMap κ ν} {k : κ} {v : ν}
    (h : m.find? k = some v) (w : ν → M) : (m.erase k).sum w + w v = m.sum w := by
  have := m.sum_alter w k fun _ => none
  rw [h] at this
  simpa [erase] using this

theorem sum_insert_add {M : Type*} [AddCommMonoid M] {m : OrdMap κ ν} {k : κ} {v : ν}
    (h : m.find? k = some v) (w : ν → M) (v' : ν) :
    (m.insert k v').sum w + w v = m.sum w + w v' := by
  have := m.sum_alter w k fun _ => some v'
  rw [h] at this
  simpa [insert] using this

theorem sum_insert_of_none {M : Type*} [AddCommMonoid M] {m : OrdMap κ ν} {k : κ}
    (h : m.find? k = none) (w : ν → M) (v : ν) : (m.insert k v).sum w = m.sum w + w v := by
  have := m.sum_alter w k fun _ => some v
  rw [h] at this
  simpa [insert] using this

theorem size_eq_sum (m : OrdMap κ ν) : m.size = m.sum fun _ => 1 := by
  simp [size, sum]

/-- The size moves by the entry dropped and the entry stored. -/
theorem size_alter (m : OrdMap κ ν) (k : κ) (f : Option ν → Option ν) :
    (m.alter k f).size + (m.find? k).toList.length =
      m.size + (f (m.find? k)).toList.length := by
  have := m.sum_alter (fun _ => 1) k f
  rw [size_eq_sum, size_eq_sum]
  simpa using this

theorem size_erase_add_one {m : OrdMap κ ν} {k : κ} {v : ν} (h : m.find? k = some v) :
    (m.erase k).size + 1 = m.size := by
  have := m.size_alter k fun _ => none
  rw [h] at this
  simpa [erase] using this

theorem size_erase_le (m : OrdMap κ ν) (k : κ) : (m.erase k).size ≤ m.size := by
  have := m.size_alter k fun _ => none
  simp only [Option.toList_none, List.length_nil] at this
  rw [erase]
  omega

theorem size_insert_of_none {m : OrdMap κ ν} {k : κ} (h : m.find? k = none) (v : ν) :
    (m.insert k v).size = m.size + 1 := by
  have := m.size_alter k fun _ => some v
  rw [h] at this
  simpa [insert] using this

theorem size_insert_of_some {m : OrdMap κ ν} {k : κ} {w : ν} (h : m.find? k = some w) (v : ν) :
    (m.insert k v).size = m.size := by
  have := m.size_alter k fun _ => some v
  rw [h] at this
  simpa [insert] using this

/-! ## Where an update happens -/

private theorem alterEntries_eq (k : κ) (f : Option ν → Option ν) {l : List (κ × ν)}
    (hl : l.Pairwise fun a b => a.1 < b.1) :
    alterEntries k f l = l.filter (·.1 < k) ++ ((f (l.lookup k)).map (k, ·)).toList ++
      l.filter (k < ·.1) := by
  have hbelow : ∀ l' : List (κ × ν), (∀ e ∈ l', k < e.1) →
      l'.filter (·.1 < k) = [] ∧ l'.filter (k < ·.1) = l' := by
    intro l' hl'
    refine ⟨List.filter_eq_nil_iff.mpr fun e he => ?_, List.filter_eq_self.mpr fun e he => ?_⟩
    · simpa using (hl' e he).le
    · simpa using hl' e he
  induction l with
  | nil => simp [alterEntries]
  | cons c l ih =>
      obtain ⟨a, w⟩ := c
      have hcons := List.pairwise_cons.mp hl
      simp only [alterEntries]
      split
      case isTrue hka =>
        have hall : ∀ e ∈ (a, w) :: l, k < e.1 := by
          intro e he
          rcases List.mem_cons.mp he with rfl | he
          · exact hka
          · exact hka.trans (hcons.1 e he)
        rw [lookup_of_lt hall, (hbelow _ hall).1, (hbelow _ hall).2, List.nil_append]
      case isFalse hka =>
        split
        case isTrue hk =>
          subst hk
          have hall : ∀ e ∈ l, k < e.1 := hcons.1
          simp [hbelow l hall]
        case isFalse hk =>
          have hak : a < k := lt_of_le_of_ne (not_lt.mp hka) (Ne.symm hk)
          simp [ih hcons.2, hak, hka, List.lookup_cons, beq_false_of_ne hk]

/-- An update splits the entries at its key. -/
theorem entries_alter (m : OrdMap κ ν) (k : κ) (f : Option ν → Option ν) :
    (m.alter k f).entries = m.entries.filter (·.1 < k) ++
      ((f (m.find? k)).map (k, ·)).toList ++ m.entries.filter (k < ·.1) :=
  alterEntries_eq k f m.sorted

theorem entries_split (m : OrdMap κ ν) (k : κ) :
    m.entries = m.entries.filter (·.1 < k) ++ ((m.find? k).map (k, ·)).toList ++
      m.entries.filter (k < ·.1) := by
  have hid : m.alter k id = m := ext_find? fun k' => by
    rw [find?_alter]
    split
    · rename_i heq
      rw [heq, id]
    · rfl
  conv_lhs => rw [← hid, entries_alter, id]

/-! ## The two ends -/

theorem entries_alter_head {m : OrdMap κ ν} {k : κ} {v : ν} {l : List (κ × ν)}
    (h : m.entries = (k, v) :: l) (f : Option ν → Option ν) :
    (m.alter k f).entries = ((f (some v)).map (k, ·)).toList ++ l := by
  simp [alter, h, alterEntries]

private theorem alterEntries_append {k : κ} {v : ν} {l : List (κ × ν)} (hl : ∀ e ∈ l, e.1 < k)
    (f : Option ν → Option ν) :
    alterEntries k f (l ++ [(k, v)]) = l ++ ((f (some v)).map (k, ·)).toList := by
  induction l with
  | nil => simp [alterEntries]
  | cons c l ih =>
      obtain ⟨a, w⟩ := c
      have ha : a < k := hl (a, w) List.mem_cons_self
      simp [alterEntries, not_lt_of_gt ha, ha.ne', ih fun e he => hl e (List.mem_cons_of_mem _ he)]

theorem entries_alter_last {m : OrdMap κ ν} {k : κ} {v : ν} {l : List (κ × ν)}
    (h : m.entries = l ++ [(k, v)]) (f : Option ν → Option ν) :
    (m.alter k f).entries = l ++ ((f (some v)).map (k, ·)).toList := by
  have hs := m.sorted
  rw [h, List.pairwise_append] at hs
  simp only [alter, h]
  exact alterEntries_append (fun e he => hs.2.2 e he _ List.mem_cons_self) f

end OrdMap
end LmaxBench
