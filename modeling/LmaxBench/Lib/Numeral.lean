import Mathlib.Data.Nat.Notation

/-!
# Decimal numerals

Readers of numbers differ in what they take for a digit, whether they allow a sign and whether they
stop at the first character that they do not know or reject the whole. What they have in common is
the value of a string of digits.

## Main definitions

* `ascii` — the digits `0` to `9`.
* `value digit l` — the value of a nonempty string of digits.
* `leading digit l` — the value of the longest such string in front.
* `sign` — a sign in front is taken off.
* `value_repr` — a printed number is read back.
* `value_eq_of_leading` — two readers, of which one knows more digits and the other stops.
-/

namespace LmaxBench.Numeral

/-- The value of a digit `0` to `9`. -/
def ascii (c : Char) : Option ℕ := if c.isDigit then some (c.toNat - 48) else none

variable (digit : Char → Option ℕ)

/-- The number that continues `n` by the digits of a string. -/
def extend (n : ℕ) : List Char → Option ℕ
  | [] => some n
  | c :: l => (digit c).bind fun d => extend (10 * n + d) l

/-- The value of a nonempty string of digits. -/
def value (l : List Char) : Option ℕ := if l = [] then none else extend digit 0 l

/-- The value of the digits in front. -/
def leading (l : List Char) : Option ℕ := value digit (l.takeWhile fun c => (digit c).isSome)

/-- Whether there is a minus in front, and the rest behind a sign. -/
def sign : List Char → Bool × List Char
  | '-' :: l => (true, l)
  | '+' :: l => (false, l)
  | l => (false, l)

variable {digit} {digit' : Char → Option ℕ} {n v : ℕ} {c : Char} {l : List Char}

theorem extend_cons {d : ℕ} (h : digit c = some d) (n : ℕ) (l : List Char) :
    extend digit n (c :: l) = extend digit (10 * n + d) l := by
  rw [extend, h, Option.bind_some]

theorem exists_digit_of_extend (h : extend digit n (c :: l) = some v) :
    ∃ d, digit c = some d ∧ extend digit (10 * n + d) l = some v :=
  Option.bind_eq_some_iff.mp h

/-- A number grows with its digits. -/
theorem le_of_extend (h : extend digit n l = some v) : n ≤ v := by
  induction l generalizing n with
  | nil =>
    obtain rfl := Option.some.inj h
    exact Nat.le_refl n
  | cons c l ih =>
    obtain ⟨d, -, hl⟩ := exists_digit_of_extend h
    have hle := ih hl
    omega

theorem takeWhile_of_extend (h : extend digit n l = some v) :
    l.takeWhile (fun c => (digit c).isSome) = l := by
  induction l generalizing n with
  | nil => rfl
  | cons c l ih =>
    obtain ⟨d, hd, hl⟩ := exists_digit_of_extend h
    rw [List.takeWhile_cons_of_pos (by rw [hd]; rfl), ih hl]

/-- A reader that knows more digits reads the same. -/
theorem extend_of_extends (hle : ∀ c d, digit c = some d → digit' c = some d)
    (h : extend digit n l = some v) : extend digit' n l = some v := by
  induction l generalizing n with
  | nil => exact h
  | cons c l ih =>
    obtain ⟨d, hd, hl⟩ := exists_digit_of_extend h
    rw [extend_cons (hle c d hd)]
    exact ih hl

/-- What a reader that stops has read by then, compared with one that goes on. -/
theorem exists_extend_takeWhile (hle : ∀ c d, digit c = some d → digit' c = some d)
    (h : extend digit' n l = some v) :
    ∃ w, extend digit n (l.takeWhile fun c => (digit c).isSome) = some w ∧
      (extend digit n l = some v ∨ 10 * w ≤ v) := by
  induction l generalizing n with
  | nil => exact ⟨n, rfl, Or.inl h⟩
  | cons c l ih =>
    obtain ⟨d', hd', hl⟩ := exists_digit_of_extend h
    cases hd : digit c with
    | none =>
      have hgrow := le_of_extend hl
      rw [List.takeWhile_cons_of_neg (by simp [hd])]
      exact ⟨n, rfl, Or.inr (by omega)⟩
    | some d =>
      obtain rfl : d = d' := Option.some.inj ((hle c d hd).symm.trans hd')
      obtain ⟨w, hw, hrest⟩ := ih hl
      rw [List.takeWhile_cons_of_pos (by simp [hd]), extend_cons hd, extend_cons hd]
      exact ⟨w, hw, hrest⟩

theorem value_eq_some : value digit l = some v ↔ l ≠ [] ∧ extend digit 0 l = some v := by
  rw [value]
  by_cases hl : l = []
  · simp [hl]
  · simp [hl]

theorem value_of_extends (hle : ∀ c d, digit c = some d → digit' c = some d)
    (h : value digit l = some v) : value digit' l = some v := by
  obtain ⟨hne, hl⟩ := value_eq_some.mp h
  exact value_eq_some.mpr ⟨hne, extend_of_extends hle hl⟩

theorem leading_of_value (h : value digit l = some v) : leading digit l = some v := by
  rw [leading, takeWhile_of_extend (value_eq_some.mp h).2]
  exact h

/-- The head of a numeral is a digit. -/
theorem exists_cons_of_value (h : value digit l = some v) :
    ∃ c d l', l = c :: l' ∧ digit c = some d := by
  obtain ⟨hne, hl⟩ := value_eq_some.mp h
  cases l with
  | nil => exact absurd rfl hne
  | cons c l =>
    obtain ⟨d, hd, -⟩ := exists_digit_of_extend hl
    exact ⟨c, d, l, rfl, hd⟩

/-- **A reader that stops reads a positive number in full**, if it reads the same as one that goes
on and knows more digits. -/
theorem value_eq_of_leading (hle : ∀ c d, digit c = some d → digit' c = some d)
    (h : value digit' l = some v) (hv : 0 < v) (hleading : leading digit l = some v) :
    value digit l = some v := by
  obtain ⟨hne, hl⟩ := value_eq_some.mp h
  obtain ⟨w, hw, hrest⟩ := exists_extend_takeWhile hle hl
  obtain ⟨-, hlead⟩ := value_eq_some.mp hleading
  obtain rfl : w = v := Option.some.inj (hw.symm.trans hlead)
  exact value_eq_some.mpr ⟨hne, hrest.resolve_right (by omega)⟩

/-! ## Numbers as they are printed -/

theorem extend_ascii (h : ∀ c ∈ l, c.isDigit = true) (n : ℕ) :
    extend ascii n l = some (Nat.ofDigitChars 10 l n) := by
  induction l generalizing n with
  | nil => rfl
  | cons c l ih =>
    have hc : ascii c = some (c.toNat - 48) := if_pos (h c List.mem_cons_self)
    rw [extend_cons hc, ih fun c hc => h c (List.mem_cons_of_mem _ hc), Nat.ofDigitChars_cons]
    rfl

/-- A printed number is read back. -/
@[simp] theorem value_repr (n : ℕ) : value ascii n.repr.toList = some n := by
  rw [Nat.toList_repr]
  refine value_eq_some.mpr ⟨Nat.toDigits_ne_nil, ?_⟩
  rw [extend_ascii fun c hc => Nat.isDigit_of_mem_toDigits (by decide) (by decide) hc,
    Nat.ofDigitChars_ten_toDigits]

end LmaxBench.Numeral
