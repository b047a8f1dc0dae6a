import LmaxBench.Cpp.Harness
import LmaxBench.Go.Harness
import LmaxBench.Java.Harness
import LmaxBench.Lib.Numeral
import LmaxBench.Lib.Signed
import LmaxBench.Rust.Harness

/-!
# The command lines

The programs of the four languages are to be run with the same arguments, `throughput <ops>`,
`latency <ops> <rate>` or `all`. But numbers are read by four different standard libraries. C++
reads as far as it can, wraps a negative number and stops at the largest one; Go and Rust reject
what is not a number and take the default, and differ in a leading plus; Java takes any sign and any
digit, and throws. This is where they agree, and what runs the programs then make.

## Main definitions

* `Cpp.strtoull`, `Go.parseUint`, `Rust.parseU64`, `Java.parseLong` — how an argument is read.
* `Cpp.main`, `Go.main`, `Rust.main`, `Java.main` — the runs of a program.
* `ReadAlike`, `readAlike_iff` — the arguments that all four read as the same number.
* `MainsAgree`, `mainsAgree_iff` — the command lines with which all four make the same runs.
-/

namespace LmaxBench

/-- `Character.digit` in base 10: other scripts have digits too. -/
structure CharacterDigit (digit : Char → Option ℕ) : Prop where
  ascii : ∀ c, c.toNat < 128 → digit c = Numeral.ascii c
  lt : ∀ c d, digit c = some d → d < 10

/-! ## Reading a number -/

namespace Cpp

/-- `isspace`. -/
def isSpace (c : Char) : Bool := c = ' ' || (9 ≤ c.toNat && c.toNat ≤ 13)

/-- `strtoull` in base 10. -/
def strtoull (s : String) : UInt64 :=
  let t := Numeral.sign (s.toList.dropWhile isSpace)
  match Numeral.leading Numeral.ascii t.2 with
  | none => 0
  | some n =>
    if n < 2 ^ 64 then if t.1 then 0 - UInt64.ofNat n else UInt64.ofNat n
    else UInt64.ofNat (2 ^ 64 - 1)

end Cpp

/-- `strconv.ParseUint` in base 10, for 64 bits. -/
def Go.parseUint (s : String) : Option UInt64 :=
  (Numeral.value Numeral.ascii s.toList).bind fun n =>
    if n < 2 ^ 64 then some (UInt64.ofNat n) else none

/-- `parse` of `str`, as a `u64`. -/
def Rust.parseU64 (s : String) : Option UInt64 :=
  (match s.toList with
    | '+' :: l => Numeral.value Numeral.ascii l
    | l => Numeral.value Numeral.ascii l).bind fun n =>
    if n < 2 ^ 64 then some (UInt64.ofNat n) else none

/-- `Long.parseLong`; `none` is the exception. -/
def Java.parseLong (digit : Char → Option ℕ) (s : String) : Option Int64 :=
  let t := Numeral.sign s.toList
  (Numeral.value digit t.2).bind fun n =>
    if t.1 then if n ≤ 2 ^ 63 then some (Int64.ofInt (-n)) else none
    else if n < 2 ^ 63 then some (Int64.ofInt n) else none

/-- All four read an argument as the same number; `d` is what Go and Rust take instead of one they
reject. -/
def ReadAlike (digit : Char → Option ℕ) (s : String) (d : UInt64) : Prop :=
  ∃ x, Java.parseLong digit s = some x ∧ ((Cpp.strtoull s).toNat : ℤ) = x.toInt ∧
    (((Go.parseUint s).getD d).toNat : ℤ) = x.toInt ∧
    (((Rust.parseU64 s).getD d).toNat : ℤ) = x.toInt

/-- A number that fits, or the default with a plus. -/
def Plain (s : String) (d : UInt64) : Prop :=
  (∃ n < 2 ^ 63, Numeral.value Numeral.ascii s.toList = some n) ∨
    ∃ l, s.toList = '+' :: l ∧ Numeral.value Numeral.ascii l = some d.toNat

section Reading
variable {digit : Char → Option ℕ} {s : String} {c : Char} {l : List Char} {n v k : ℕ} {d : UInt64}

theorem ascii_eq_some :
    Numeral.ascii c = some k ↔ 48 ≤ c.toNat ∧ c.toNat ≤ 57 ∧ c.toNat - 48 = k := by
  have hdigit : c.isDigit = true ↔ 48 ≤ c.toNat ∧ c.toNat ≤ 57 := by
    simp only [Char.isDigit, Bool.and_eq_true, decide_eq_true_eq]
    exact Iff.rfl
  rw [Numeral.ascii, Option.ite_none_right_eq_some, hdigit, Option.some.injEq, and_assoc]

theorem CharacterDigit.extends (h : CharacterDigit digit) (c : Char) (k : ℕ)
    (hc : Numeral.ascii c = some k) : digit c = some k := by
  obtain ⟨-, hle, -⟩ := ascii_eq_some.mp hc
  rw [h.ascii c (by omega), hc]

/-- A character that is read as a digit is none that the readers skip or take for a sign. -/
theorem CharacterDigit.plain (h : CharacterDigit digit) (hc : digit c = some k) :
    Cpp.isSpace c = false ∧ c ≠ '-' ∧ c ≠ '+' := by
  have hnone : c.toNat < 48 → False := by
    intro hlt
    rw [h.ascii c (by omega)] at hc
    have := ascii_eq_some.mp hc
    omega
  refine ⟨?_, ?_, ?_⟩
  · by_contra hspace
    simp only [Cpp.isSpace, Bool.not_eq_false, Bool.or_eq_true, Bool.and_eq_true,
      decide_eq_true_eq] at hspace
    rcases hspace with rfl | hspace
    · exact hnone (by decide)
    · exact hnone (by omega)
  · rintro rfl
    exact hnone (by decide)
  · rintro rfl
    exact hnone (by decide)

theorem sign_of_plain (h : c ≠ '-' ∧ c ≠ '+') : Numeral.sign (c :: l) = (false, c :: l) := by
  rw [Numeral.sign]
  · rintro l' ⟨⟩
    exact h.1 rfl
  · rintro l' ⟨⟩
    exact h.2 rfl

/-! ### With a sign, and without -/

theorem parseUint_of_value (hs : Numeral.value Numeral.ascii s.toList = some n) :
    Go.parseUint s = if n < 2 ^ 64 then some (UInt64.ofNat n) else none := by
  rw [Go.parseUint, hs, Option.bind_some]

theorem parseUint_of_none (hs : Numeral.value Numeral.ascii s.toList = none) :
    Go.parseUint s = none := by
  rw [Go.parseUint, hs, Option.bind_none]

theorem value_cons_of_none (hc : digit c = none) (l : List Char) :
    Numeral.value digit (c :: l) = none := by
  rw [Numeral.value, if_neg (List.cons_ne_nil c l), Numeral.extend, hc, Option.bind_none]

theorem parseU64_of_plus (hs : s.toList = '+' :: l) :
    Rust.parseU64 s = (Numeral.value Numeral.ascii l).bind fun n =>
      if n < 2 ^ 64 then some (UInt64.ofNat n) else none := by
  rw [Rust.parseU64, hs]
  rfl

theorem parseU64_of_plain (hs : s.toList = c :: l) (hc : c ≠ '+') :
    Rust.parseU64 s = Go.parseUint s := by
  rw [Rust.parseU64, Go.parseUint, hs]
  split
  · rename_i heq
    exact absurd (List.cons.inj heq).1 hc
  · rfl

theorem parseLong_of_sign {negative : Bool} (hs : Numeral.sign s.toList = (negative, l)) :
    Java.parseLong digit s = (Numeral.value digit l).bind fun n =>
      if negative then if n ≤ 2 ^ 63 then some (Int64.ofInt (-n)) else none
      else if n < 2 ^ 63 then some (Int64.ofInt n) else none := by
  rw [Java.parseLong, hs]

/-- What C++ makes of the digits that it finds. -/
theorem strtoull_of_sign (hs : Numeral.sign (s.toList.dropWhile Cpp.isSpace) = (false, l)) :
    Cpp.strtoull s = UInt64.ofNat
      (min ((Numeral.leading Numeral.ascii l).getD 0) (2 ^ 64 - 1)) := by
  rw [Cpp.strtoull, hs]
  cases Numeral.leading Numeral.ascii l with
  | none => rfl
  | some n =>
    simp only [Option.getD_some, Bool.false_eq_true, if_false]
    split
    · rw [min_eq_left (by omega)]
    · rw [min_eq_right (by omega)]

theorem leading_of_strtoull (hs : Numeral.sign (s.toList.dropWhile Cpp.isSpace) = (false, l))
    (hv : 0 < v) (hv' : v < 2 ^ 63) (h : (Cpp.strtoull s).toNat = v) :
    Numeral.leading Numeral.ascii l = some v := by
  rw [strtoull_of_sign hs, Word.toNat_ofNat_of_lt (by omega)] at h
  cases hl : Numeral.leading Numeral.ascii l with
  | none =>
    rw [hl, Option.getD_none] at h
    omega
  | some n =>
    rw [hl, Option.getD_some] at h
    rw [show n = v by omega]

theorem toInt_ofInt (hn : n < 2 ^ 63) : (Int64.ofInt n).toInt = n := by
  rw [Int64.toInt_ofInt_of_le]
  · omega
  · omega

theorem characterDigit_ascii : CharacterDigit Numeral.ascii where
  ascii _ _ := rfl
  lt c d hd := by
    have hascii := ascii_eq_some.mp hd
    omega

theorem sign_of_value (h : CharacterDigit digit) (hs : Numeral.value digit s.toList = some n) :
    Numeral.sign s.toList = (false, s.toList) ∧
      Numeral.sign (s.toList.dropWhile Cpp.isSpace) = (false, s.toList) := by
  obtain ⟨c, k, l, hl, hc⟩ := Numeral.exists_cons_of_value hs
  obtain ⟨hspace, hsign⟩ := h.plain hc
  rw [hl, List.dropWhile_cons_of_neg (by simp [hspace])]
  exact ⟨sign_of_plain hsign, sign_of_plain hsign⟩

theorem strtoull_of_value (hn : n < 2 ^ 63) (hs : Numeral.value Numeral.ascii s.toList = some n) :
    (Cpp.strtoull s).toNat = n := by
  rw [strtoull_of_sign (sign_of_value characterDigit_ascii hs).2, Numeral.leading_of_value hs,
    Option.getD_some, Word.toNat_ofNat_of_lt (by omega)]
  omega

theorem strtoull_of_plus (hn : n < 2 ^ 63) (hs : s.toList = '+' :: l)
    (hl : Numeral.value Numeral.ascii l = some n) : (Cpp.strtoull s).toNat = n := by
  have hcpp : Numeral.sign (s.toList.dropWhile Cpp.isSpace) = (false, l) := by
    rw [hs, List.dropWhile_cons_of_neg (by decide)]
    rfl
  rw [strtoull_of_sign hcpp, Numeral.leading_of_value hl, Option.getD_some,
    Word.toNat_ofNat_of_lt (by omega)]
  omega

/-! ### Where they agree -/

/-- All four read a numeral that fits. -/
theorem readAlike_of_value (h : CharacterDigit digit) (d : UInt64) (hn : n < 2 ^ 63)
    (hs : Numeral.value Numeral.ascii s.toList = some n) : ReadAlike digit s d := by
  obtain ⟨c, k, l, hl, hc⟩ := Numeral.exists_cons_of_value hs
  have hsign := (sign_of_value characterDigit_ascii hs).1
  have hgo : Go.parseUint s = some (UInt64.ofNat n) := by
    rw [parseUint_of_value hs, if_pos (by omega)]
  have hword : (UInt64.ofNat n).toNat = n := Word.toNat_ofNat_of_lt (by omega)
  have hint : (Int64.ofInt n).toInt = n := toInt_ofInt hn
  refine ⟨Int64.ofInt n, ?_, ?_, ?_, ?_⟩
  · rw [parseLong_of_sign hsign, Numeral.value_of_extends h.extends hs, Option.bind_some]
    simp only [Bool.false_eq_true, if_false, if_pos hn]
  · rw [strtoull_of_value hn hs, hint]
  · rw [hgo, Option.getD_some, hword, hint]
  · rw [parseU64_of_plain hl (h.plain (h.extends c k hc)).2.2, hgo, Option.getD_some, hword, hint]

/-- Go takes the default instead of a number behind a plus. -/
theorem readAlike_of_plus (h : CharacterDigit digit) (hd : d.toNat < 2 ^ 63)
    (hs : s.toList = '+' :: l) (hl : Numeral.value Numeral.ascii l = some d.toNat) :
    ReadAlike digit s d := by
  have hsign : Numeral.sign s.toList = (false, l) := congrArg Numeral.sign hs
  have hgo : Go.parseUint s = none := by
    refine parseUint_of_none ?_
    rw [hs]
    exact value_cons_of_none (by decide) l
  have hword : UInt64.ofNat d.toNat = d := UInt64.ofNat_toNat
  have hint : (Int64.ofInt d.toNat).toInt = d.toNat := toInt_ofInt hd
  refine ⟨Int64.ofInt d.toNat, ?_, ?_, ?_, ?_⟩
  · rw [parseLong_of_sign hsign, Numeral.value_of_extends h.extends hl, Option.bind_some]
    simp only [Bool.false_eq_true, if_false, if_pos hd]
  · rw [strtoull_of_plus hd hs hl, hint]
  · rw [hgo, Option.getD_none, hint]
  · rw [parseU64_of_plus hs, hl, Option.bind_some, if_pos (by omega), Option.getD_some, hword, hint]

/-- What a positive number is that Java reads behind no minus and C++ reads as well. -/
theorem value_of_read (h : CharacterDigit digit) {x : Int64}
    (hsign : Numeral.sign s.toList = (false, l))
    (hcpp : Numeral.sign (s.toList.dropWhile Cpp.isSpace) = (false, l))
    (hjava : Java.parseLong digit s = some x) (hx : 0 < x.toInt)
    (hread : ((Cpp.strtoull s).toNat : ℤ) = x.toInt) :
    ∃ n < 2 ^ 63, Numeral.value Numeral.ascii l = some n ∧ x.toInt = n := by
  rw [parseLong_of_sign hsign] at hjava
  obtain ⟨n, hn, hval⟩ := Option.bind_eq_some_iff.mp hjava
  simp only [Bool.false_eq_true, if_false, Option.ite_none_right_eq_some] at hval
  obtain ⟨hlt, heq⟩ := hval
  have hint : x.toInt = n := by
    rw [← Option.some.inj heq, toInt_ofInt hlt]
  have hpos : 0 < n := by omega
  have hlead := leading_of_strtoull hcpp hpos hlt (by omega)
  exact ⟨n, hlt, Numeral.value_eq_of_leading h.extends hn hpos hlead, hint⟩

theorem strtoull_ne_zero (h : Plain s d) (hd : 0 < d.toNat) (hd' : d.toNat < 2 ^ 63)
    (hs : Numeral.value Numeral.ascii s.toList ≠ some 0) : Cpp.strtoull s ≠ 0 := by
  intro hzero
  rcases h with ⟨n, hn, hval⟩ | ⟨l, hl, hval⟩
  · have hread := strtoull_of_value hn hval
    rw [hzero, UInt64.toNat_zero] at hread
    rw [← hread] at hval
    exact hs hval
  · have hread := strtoull_of_plus hd' hl hval
    rw [hzero, UInt64.toNat_zero] at hread
    omega

theorem toInt_nonpos_of_minus {x : Int64}
    (h : ((Numeral.value digit l).bind fun n =>
      if true then if n ≤ 2 ^ 63 then some (Int64.ofInt (-n)) else none
      else if n < 2 ^ 63 then some (Int64.ofInt n) else none) = some x) : x.toInt ≤ 0 := by
  obtain ⟨n, -, hval⟩ := Option.bind_eq_some_iff.mp h
  simp only [if_true, Option.ite_none_right_eq_some] at hval
  obtain ⟨hle, heq⟩ := hval
  rw [← Option.some.inj heq, Int64.toInt_ofInt_of_le (by omega) (by omega)]
  omega

/-- **What all four read as the same number** is a numeral that fits, or the default behind a
plus. -/
theorem readAlike_iff (h : CharacterDigit digit) (hd : 0 < d.toNat) (hd' : d.toNat < 2 ^ 63) :
    ReadAlike digit s d ↔ Plain s d := by
  constructor
  · rintro ⟨x, hjava, hread, hgo, -⟩
    have hdefault : Numeral.value Numeral.ascii s.toList = none → x.toInt = d.toNat := by
      intro hnone
      rw [← hgo, parseUint_of_none hnone, Option.getD_none]
    cases hl : s.toList with
    | nil =>
      have hsign : Numeral.sign s.toList = (false, []) := congrArg Numeral.sign hl
      rw [parseLong_of_sign hsign] at hjava
      cases hjava
    | cons c l =>
      by_cases hminus : c = '-'
      · -- Go and Rust take the default, which is positive
        subst hminus
        have hx := hdefault (by rw [hl]; exact value_cons_of_none (by decide) l)
        have hsign : Numeral.sign s.toList = (true, l) := congrArg Numeral.sign hl
        rw [parseLong_of_sign hsign] at hjava
        have hneg := toInt_nonpos_of_minus hjava
        omega
      by_cases hplus : c = '+'
      · subst hplus
        have hx := hdefault (by rw [hl]; exact value_cons_of_none (by decide) l)
        have hcpp : Numeral.sign (s.toList.dropWhile Cpp.isSpace) = (false, l) := by
          rw [hl, List.dropWhile_cons_of_neg (by decide)]
          rfl
        have hsign : Numeral.sign s.toList = (false, l) := congrArg Numeral.sign hl
        obtain ⟨n, -, hn, heq⟩ := value_of_read h hsign hcpp hjava (by omega) hread
        obtain rfl : n = d.toNat := by omega
        exact Or.inr ⟨l, hl, hn⟩
      · have hsign : Numeral.sign s.toList = (false, s.toList) := by
          rw [hl]
          exact sign_of_plain ⟨hminus, hplus⟩
        have hjava' := hjava
        rw [parseLong_of_sign hsign] at hjava'
        obtain ⟨n, hn, hval⟩ := Option.bind_eq_some_iff.mp hjava'
        simp only [Bool.false_eq_true, if_false, Option.ite_none_right_eq_some] at hval
        cases hs : Numeral.value Numeral.ascii s.toList with
        | some m =>
          obtain rfl : m = n :=
            Option.some.inj ((Numeral.value_of_extends h.extends hs).symm.trans hn)
          exact Or.inl ⟨m, hval.1, hs⟩
        | none =>
          -- Java knows a digit that C++ stops at
          have hx := hdefault hs
          have hcpp := (sign_of_value h hn).2
          obtain ⟨m, -, hm, -⟩ := value_of_read h hsign hcpp hjava (by omega) hread
          rw [hs] at hm
          cases hm
  · rintro (⟨n, hn, hs⟩ | ⟨l, hs, hl⟩)
    · exact readAlike_of_value h d hn hs
    · exact readAlike_of_plus h hd' hs hl

end Reading

/-! ## The runs of a program -/

/-- A call of `run`, and whether the latencies are printed; times between operations apart, it says
the same in all languages. `rate` is `none` where nothing is paced. -/
structure Job where
  totalOps : ℤ
  warmupOps : ℤ
  rate : Option ℤ
  quiet : Bool
  latency : Bool
  deriving DecidableEq

namespace Cpp

/-- A call `run(total_ops, warmup_ops, rate, quiet)`; its result goes to `print_result`. -/
structure Run where
  params : Params
  quiet : Bool
  latency : Bool

def Run.job (r : Run) : Job where
  totalOps := r.params.totalOps.toNat
  warmupOps := r.params.warmupOps.toNat
  rate := if 0 < r.params.rate then some r.params.rate.toNat else none
  quiet := r.quiet
  latency := r.latency

/-- The closure `arg_u` of `main`. -/
def argU (argv : List String) (i : ℕ) (d : UInt64) : UInt64 := (argv[i]?.map strtoull).getD d

/-- `main`. -/
def main (argv : List String) : List Run :=
  let mode := argv[1]?.getD "all"
  let warmup : Run :=
    { params := { totalOps := 1000000, warmupOps := 1000000, rate := 0 }, quiet := true
      latency := false }
  let throughput : List Run :=
    if mode = "throughput" ∨ mode = "all" then
      let ops := if mode = "throughput" then argU argv 2 10000000 else 10000000
      [{ params := { totalOps := ops, warmupOps := ops, rate := 0 }, quiet := false
         latency := false }]
    else []
  let latency : List Run :=
    if mode = "latency" ∨ mode = "all" then
      let ops := if mode = "latency" then argU argv 2 2000000 else 2000000
      let rate := if mode = "latency" then argU argv 3 250000 else 250000
      [{ params := { totalOps := ops, warmupOps := ops / 5, rate }, quiet := false
         latency := true }]
    else []
  warmup :: (throughput ++ latency)

end Cpp

namespace Go

/-- A call `run(totalOps, warmupOps, rate, quiet)`; its result goes to `printResult`. -/
structure Run where
  params : Params
  quiet : Bool
  latency : Bool

def Run.job (r : Run) : Job where
  totalOps := r.params.totalOps.toNat
  warmupOps := r.params.warmupOps.toNat
  rate := if 0 < r.params.rate then some r.params.rate.toNat else none
  quiet := r.quiet
  latency := r.latency

/-- The closure `argU` of `main`. -/
def argU (args : List String) (i : ℕ) (d : UInt64) : UInt64 := (args[i]?.bind parseUint).getD d

/-- `main`. -/
def main (args : List String) : List Run :=
  let mode := args[1]?.getD "all"
  let warmup : Run :=
    { params := { totalOps := 1000000, warmupOps := 1000000, rate := 0 }, quiet := true
      latency := false }
  let throughput : List Run :=
    if mode = "throughput" ∨ mode = "all" then
      let ops := if mode = "throughput" then argU args 2 10000000 else 10000000
      [{ params := { totalOps := ops, warmupOps := ops, rate := 0 }, quiet := false
         latency := false }]
    else []
  let latency : List Run :=
    if mode = "latency" ∨ mode = "all" then
      let ops := if mode = "latency" then argU args 2 2000000 else 2000000
      let rate := if mode = "latency" then argU args 3 250000 else 250000
      [{ params := { totalOps := ops, warmupOps := ops / 5, rate }, quiet := false
         latency := true }]
    else []
  warmup :: (throughput ++ latency)

end Go

namespace Rust

/-- A call `run(total_ops, warmup_ops, rate, quiet)`; its result goes to `print_report`. -/
structure Run where
  params : Params
  quiet : Bool
  latency : Bool

/-- A rate of zero is a rate here; the division by it panics. -/
def Run.job (r : Run) : Job where
  totalOps := r.params.totalOps.toNat
  warmupOps := r.params.warmupOps.toNat
  rate := r.params.rate.map fun rate => rate.toNat
  quiet := r.quiet
  latency := r.latency

/-- The closure `arg` of `main`. -/
def arg (args : List String) (i : ℕ) (d : UInt64) : UInt64 := (args[i]?.bind parseU64).getD d

/-- `main`. The mode `all` takes the number of operations from the command line too. -/
def main (args : List String) : List Run :=
  let mode := args[1]?.getD "all"
  let warmup : Run :=
    { params := { totalOps := 1000000, warmupOps := 1000000, rate := none }, quiet := true
      latency := false }
  let throughput : List Run :=
    if mode = "throughput" ∨ mode = "all" then
      let ops := arg args 2 10000000
      [{ params := { totalOps := ops, warmupOps := ops, rate := none }, quiet := false
         latency := false }]
    else []
  let latency : List Run :=
    if mode = "latency" ∨ mode = "all" then
      let (ops, rate) :=
        if mode = "latency" then (arg args 2 2000000, arg args 3 250000) else (2000000, 250000)
      [{ params := { totalOps := ops, warmupOps := ops / 5, rate := some rate }, quiet := false
         latency := true }]
    else []
  warmup :: (throughput ++ latency)

end Rust

namespace Java

/-- A call `run(totalOps, warmupOps, rate, quiet)`; its result goes to `printResult`. -/
structure Run where
  params : Params
  quiet : Bool
  latency : Bool

def Run.job (r : Run) : Job where
  totalOps := r.params.totalOps.toInt
  warmupOps := r.params.warmupOps.toInt
  rate := if 0 < r.params.rate then some r.params.rate.toInt else none
  quiet := r.quiet
  latency := r.latency

/-- The runs that are made, and whether an exception ends the program. -/
structure Session where
  runs : List Run
  threw : Bool

/-- An argument, or the default if there is none. -/
def argLong (digit : Char → Option ℕ) (args : List String) (i : ℕ) (d : Int64) : Option Int64 :=
  match args[i]? with
  | some s => parseLong digit s
  | none => some d

/-- `Main.main`. The program is not one of its arguments. -/
def main (digit : Char → Option ℕ) (args : List String) : Session :=
  let mode := args[0]?.getD "all"
  let warmup : Run :=
    { params := { totalOps := 1000000, warmupOps := 1000000, rate := 0 }, quiet := true
      latency := false }
  let throughput : Option (List Run) :=
    if mode = "throughput" ∨ mode = "all" then do
      let ops ← if mode = "throughput" then argLong digit args 1 10000000 else some 10000000
      some [{ params := { totalOps := ops, warmupOps := ops, rate := 0 }, quiet := false
              latency := false }]
    else some []
  let latency : Option (List Run) :=
    if mode = "latency" ∨ mode = "all" then do
      let ops ← if mode = "latency" then argLong digit args 1 2000000 else some 2000000
      let rate ← if mode = "latency" then argLong digit args 2 250000 else some 250000
      some [{ params := { totalOps := ops, warmupOps := ops / 5, rate }, quiet := false
              latency := true }]
    else some []
  match throughput, latency with
  | none, _ => ⟨[warmup], true⟩
  | some first, none => ⟨warmup :: first, true⟩
  | some first, some second => ⟨warmup :: (first ++ second), false⟩

end Java

/-! ## Where they agree -/

/-- With the arguments `argv`, the first of which is the program, all four make the same runs. -/
structure MainsAgree (digit : Char → Option ℕ) (argv : List String) : Prop where
  go : (Go.main argv).map Go.Run.job = (Cpp.main argv).map Cpp.Run.job
  rust : (Rust.main argv).map Rust.Run.job = (Cpp.main argv).map Cpp.Run.job
  java : (Java.main digit argv.tail).runs.map Java.Run.job = (Cpp.main argv).map Cpp.Run.job
  returns : (Java.main digit argv.tail).threw = false

/-- The jobs of a program: what was read as the number of operations in each mode, and the rate. -/
def jobsOf (mode : String) (ops ops' : ℤ) (rate : Option ℤ) : List Job :=
  ⟨1000000, 1000000, none, true, false⟩ ::
    ((if mode = "throughput" ∨ mode = "all" then [⟨ops, ops, none, false, false⟩] else []) ++
      if mode = "latency" ∨ mode = "all" then [⟨ops', ops'.tdiv 5, rate, false, true⟩] else [])

section Main
variable {digit : Char → Option ℕ} {argv : List String} {mode : String}

theorem Cpp.map_main (h : argv[1]?.getD "all" = mode) : (Cpp.main argv).map Cpp.Run.job =
    jobsOf mode (if mode = "throughput" then (Cpp.argU argv 2 10000000).toNat else 10000000)
      (if mode = "latency" then (Cpp.argU argv 2 2000000).toNat else 2000000)
      (if mode = "latency" then
        if 0 < Cpp.argU argv 3 250000 then some (Cpp.argU argv 3 250000).toNat else none
      else some 250000) := by
  rw [Cpp.main, jobsOf]
  simp only [h]
  by_cases ht : mode = "throughput"
  · subst ht
    simp [Cpp.Run.job]
  by_cases hl : mode = "latency"
  · subst hl
    simp [Cpp.Run.job]
  by_cases ha : mode = "all"
  · subst ha
    simp [Cpp.Run.job]
  simp [Cpp.Run.job, ht, hl, ha]

theorem Go.map_main (h : argv[1]?.getD "all" = mode) : (Go.main argv).map Go.Run.job =
    jobsOf mode (if mode = "throughput" then (Go.argU argv 2 10000000).toNat else 10000000)
      (if mode = "latency" then (Go.argU argv 2 2000000).toNat else 2000000)
      (if mode = "latency" then
        if 0 < Go.argU argv 3 250000 then some (Go.argU argv 3 250000).toNat else none
      else some 250000) := by
  rw [Go.main, jobsOf]
  simp only [h]
  by_cases ht : mode = "throughput"
  · subst ht
    simp [Go.Run.job]
  by_cases hl : mode = "latency"
  · subst hl
    simp [Go.Run.job]
  by_cases ha : mode = "all"
  · subst ha
    simp [Go.Run.job]
  simp [Go.Run.job, ht, hl, ha]

/-- In both modes the number of operations is read, and any rate is a rate. -/
theorem Rust.map_main (h : argv[1]?.getD "all" = mode) : (Rust.main argv).map Rust.Run.job =
    jobsOf mode (Rust.arg argv 2 10000000).toNat
      (if mode = "latency" then (Rust.arg argv 2 2000000).toNat else 2000000)
      (if mode = "latency" then some (Rust.arg argv 3 250000).toNat else some 250000) := by
  rw [Rust.main, jobsOf]
  simp only [h]
  by_cases ht : mode = "throughput"
  · subst ht
    simp [Rust.Run.job]
  by_cases hl : mode = "latency"
  · subst hl
    simp [Rust.Run.job]
  by_cases ha : mode = "all"
  · subst ha
    simp [Rust.Run.job]
  simp [Rust.Run.job, ht, hl, ha]

theorem toInt_div_five (ops : Int64) : (ops / 5).toInt = ops.toInt.tdiv 5 :=
  Int64.toInt_div_of_ne_right ops 5 (by decide)

/-- What Java reads, if it throws nothing. -/
structure Java.Reads (digit : Char → Option ℕ) (argv : List String) (mode : String)
    (ops ops' rate : Int64) : Prop where
  ops : (if mode = "throughput" then Java.argLong digit argv.tail 1 10000000
    else some 10000000) = some ops
  ops' : (if mode = "latency" then Java.argLong digit argv.tail 1 2000000
    else some 2000000) = some ops'
  rate : (if mode = "latency" then Java.argLong digit argv.tail 2 250000
    else some 250000) = some rate

theorem Java.map_main {ops ops' rate : Int64} (h : argv[1]?.getD "all" = mode)
    (hreads : Java.Reads digit argv mode ops ops' rate) :
    (Java.main digit argv.tail).threw = false ∧
      (Java.main digit argv.tail).runs.map Java.Run.job =
        jobsOf mode ops.toInt ops'.toInt (if 0 < rate then some rate.toInt else none) := by
  have hmode : argv.tail[0]?.getD "all" = mode := by
    rw [List.getElem?_tail]
    exact h
  simp only [Java.main, jobsOf, hmode]
  by_cases ht : mode = "throughput"
  · subst ht
    have hops : Java.argLong digit argv.tail 1 10000000 = some ops := by simpa using hreads.ops
    simp [Java.Run.job, hops]
  by_cases hl : mode = "latency"
  · subst hl
    have hops : Java.argLong digit argv.tail 1 2000000 = some ops' := by simpa using hreads.ops'
    have hrate : Java.argLong digit argv.tail 2 250000 = some rate := by simpa using hreads.rate
    simp [Java.Run.job, hops, hrate, toInt_div_five, -Int64.toInt_div]
  by_cases ha : mode = "all"
  · subst ha
    obtain rfl : 10000000 = ops := by simpa using hreads.ops
    obtain rfl : 2000000 = ops' := by simpa using hreads.ops'
    obtain rfl : 250000 = rate := by simpa using hreads.rate
    simp [Java.Run.job, -Int64.toInt_div]
  simp [Java.Run.job, ht, hl, ha]

theorem Java.exists_reads (h : argv[1]?.getD "all" = mode)
    (hreturns : (Java.main digit argv.tail).threw = false) :
    ∃ ops ops' rate, Java.Reads digit argv mode ops ops' rate := by
  have hmode : argv.tail[0]?.getD "all" = mode := by
    rw [List.getElem?_tail]
    exact h
  simp only [Java.main, hmode] at hreturns
  by_cases ht : mode = "throughput"
  · subst ht
    cases hops : Java.argLong digit argv.tail 1 10000000 with
    | none => simp [hops] at hreturns
    | some ops => exact ⟨ops, 2000000, 250000, by simp [hops], by simp, by simp⟩
  by_cases hl : mode = "latency"
  · subst hl
    cases hops : Java.argLong digit argv.tail 1 2000000 with
    | none => simp [hops] at hreturns
    | some ops =>
      cases hrate : Java.argLong digit argv.tail 2 250000 with
      | none => simp [hops, hrate] at hreturns
      | some rate => exact ⟨10000000, ops, rate, by simp, by simp [hops], by simp [hrate]⟩
  exact ⟨10000000, 2000000, 250000, by simp [ht], by simp [hl], by simp [hl]⟩

theorem jobsOf_inj {ops₁ ops₂ ops₁' ops₂' : ℤ} {rate₁ rate₂ : Option ℤ} :
    jobsOf mode ops₁ ops₁' rate₁ = jobsOf mode ops₂ ops₂' rate₂ ↔
      (mode = "throughput" ∨ mode = "all" → ops₁ = ops₂) ∧
        (mode = "latency" ∨ mode = "all" → ops₁' = ops₂' ∧ rate₁ = rate₂) := by
  by_cases ht : mode = "throughput"
  · subst ht
    simp [jobsOf]
  by_cases hl : mode = "latency"
  · subst hl
    simp only [jobsOf]
    grind
  by_cases ha : mode = "all"
  · subst ha
    simp only [jobsOf]
    grind
  simp [jobsOf, ht, hl, ha]

/-- The argument `i + 1` is the same number for all four. -/
def ArgAlike (digit : Char → Option ℕ) (argv : List String) (i : ℕ) (d : UInt64) : Prop :=
  ∃ x, Java.argLong digit argv.tail i d.toInt64 = some x ∧
    ((Cpp.argU argv (i + 1) d).toNat : ℤ) = x.toInt ∧
    ((Go.argU argv (i + 1) d).toNat : ℤ) = x.toInt ∧ ((Rust.arg argv (i + 1) d).toNat : ℤ) = x.toInt

theorem argAlike_iff (h : CharacterDigit digit) {i : ℕ} {d : UInt64} (hd : 0 < d.toNat)
    (hd' : d.toNat < 2 ^ 63) :
    ArgAlike digit argv i d ↔ ∀ s ∈ argv[i + 1]?, Plain s d := by
  rw [ArgAlike, Java.argLong, Cpp.argU, Go.argU, Rust.arg, List.getElem?_tail]
  cases argv[i + 1]? with
  | none =>
    have hint : d.toInt64.toInt = d.toNat := Word.toInt_eq_toNat (by simpa using hd')
    simp [hint]
  | some s => simpa [ReadAlike] using readAlike_iff h hd hd'

/-- The programs agree if all that is read is the same. -/
theorem mainsAgree_iff_reads (hmode : argv[1]?.getD "all" = mode) :
    MainsAgree digit argv ↔ ∃ ops ops' rate, Java.Reads digit argv mode ops ops' rate ∧
      (Cpp.main argv).map Cpp.Run.job =
        jobsOf mode ops.toInt ops'.toInt (if 0 < rate then some rate.toInt else none) ∧
      (Go.main argv).map Go.Run.job =
        jobsOf mode ops.toInt ops'.toInt (if 0 < rate then some rate.toInt else none) ∧
      (Rust.main argv).map Rust.Run.job =
        jobsOf mode ops.toInt ops'.toInt (if 0 < rate then some rate.toInt else none) := by
  constructor
  · rintro ⟨hgo, hrust, hjava, hreturns⟩
    obtain ⟨ops, ops', rate, hreads⟩ := Java.exists_reads hmode hreturns
    have hcpp := hjava.symm.trans (Java.map_main hmode hreads).2
    exact ⟨ops, ops', rate, hreads, hcpp, hgo.trans hcpp, hrust.trans hcpp⟩
  · rintro ⟨ops, ops', rate, hreads, hcpp, hgo, hrust⟩
    obtain ⟨hreturns, hjava⟩ := Java.map_main hmode hreads
    exact ⟨hgo.trans hcpp.symm, hrust.trans hcpp.symm, hjava.trans hcpp.symm, hreturns⟩

/-- In throughput mode, the number of operations has to be the same. -/
theorem mainsAgree_throughput (hmode : argv[1]?.getD "all" = "throughput") :
    MainsAgree digit argv ↔ ArgAlike digit argv 1 10000000 := by
  rw [mainsAgree_iff_reads hmode, Cpp.map_main hmode, Go.map_main hmode, Rust.map_main hmode]
  simp only [jobsOf_inj]
  constructor
  · rintro ⟨ops, ops', rate, hreads, ⟨hcpp, -⟩, ⟨hgo, -⟩, hrust, -⟩
    exact ⟨ops, hreads.ops, hcpp (Or.inl trivial), hgo (Or.inl trivial), hrust (Or.inl trivial)⟩
  · rintro ⟨ops, hops, hcpp, hgo, hrust⟩
    refine ⟨ops, 2000000, 250000, ⟨by simpa using hops, by simp, by simp⟩, ?_, ?_, ?_⟩
    · simpa using hcpp
    · simpa using hgo
    · simpa using hrust

/-- In latency mode, so has the rate, which must not be zero in Rust. -/
theorem mainsAgree_latency (hmode : argv[1]?.getD "all" = "latency") :
    MainsAgree digit argv ↔ ArgAlike digit argv 1 2000000 ∧ ArgAlike digit argv 2 250000 ∧
      Cpp.argU argv 3 250000 ≠ 0 := by
  rw [mainsAgree_iff_reads hmode, Cpp.map_main hmode, Go.map_main hmode, Rust.map_main hmode]
  simp only [jobsOf_inj]
  constructor
  · rintro ⟨ops, ops', rate, hreads, ⟨-, hcpp⟩, ⟨-, hgo⟩, -, hrust⟩
    obtain ⟨hcpp, hcpp'⟩ := hcpp (Or.inl trivial)
    obtain ⟨hgo, hgo'⟩ := hgo (Or.inl trivial)
    obtain ⟨hrust, hrust'⟩ := hrust (Or.inl trivial)
    have hrate : 0 < rate := by
      by_contra hnot
      rw [if_neg hnot] at hrust'
      exact absurd hrust' (Option.some_ne_none _)
    rw [if_pos hrate] at hcpp' hgo' hrust'
    obtain ⟨hpos, hcpp'⟩ := Option.ite_none_right_eq_some.mp hcpp'
    obtain ⟨-, hgo'⟩ := Option.ite_none_right_eq_some.mp hgo'
    refine ⟨⟨ops', by simpa using hreads.ops', hcpp, hgo, hrust⟩, ⟨rate, by simpa using hreads.rate,
      Option.some.inj hcpp', Option.some.inj hgo', Option.some.inj hrust'⟩, ?_⟩
    rintro hzero
    rw [hzero] at hpos
    exact absurd hpos (by decide)
  · rintro ⟨⟨ops, hops, hcpp, hgo, hrust⟩, ⟨rate, hrate, hcpp', hgo', hrust'⟩, hpos⟩
    have hcpp' : ((Cpp.argU argv 3 250000).toNat : ℤ) = rate.toInt := hcpp'
    have hgo' : ((Go.argU argv 3 250000).toNat : ℤ) = rate.toInt := hgo'
    have hword : 0 < (Cpp.argU argv 3 250000).toNat := by
      refine Nat.pos_of_ne_zero fun hzero => hpos (Word.eq_of_toNat ?_)
      rw [hzero]
      rfl
    have hjava : 0 < rate := by
      rw [Int64.lt_iff_toInt_lt, ← hcpp', Int64.toInt_zero]
      exact_mod_cast hword
    have hcppPos : 0 < Cpp.argU argv 3 250000 := UInt64.lt_iff_toNat_lt.mpr hword
    have hgoPos : 0 < Go.argU argv 3 250000 := by
      refine UInt64.lt_iff_toNat_lt.mpr ?_
      rw [UInt64.toNat_zero]
      omega
    refine ⟨10000000, ops, rate, ⟨by simp, by simpa using hops, by simpa using hrate⟩, ?_, ?_, ?_⟩
    · simp [hcpp, hcpp', hjava, hcppPos]
    · simp [hgo, hgo', hjava, hgoPos]
    · simp [hrust, hrust', hjava]

/-- With the defaults, only Rust reads a number of operations. -/
theorem mainsAgree_all (hmode : argv[1]?.getD "all" = "all") :
    MainsAgree digit argv ↔ Rust.arg argv 2 10000000 = 10000000 := by
  rw [mainsAgree_iff_reads hmode, Cpp.map_main hmode, Go.map_main hmode, Rust.map_main hmode]
  simp only [jobsOf_inj]
  constructor
  · rintro ⟨ops, ops', rate, hreads, -, -, hrust, -⟩
    obtain rfl : 10000000 = ops := by simpa using hreads.ops
    have hops : ((Rust.arg argv 2 10000000).toNat : ℤ) = 10000000 := hrust (Or.inr trivial)
    refine Word.eq_of_toNat ?_
    have hdefault : (10000000 : UInt64).toNat = 10000000 := by decide
    omega
  · intro hops
    refine ⟨10000000, 2000000, 250000, ⟨by simp, by simp, by simp⟩, ?_, ?_, ?_⟩
    · simp
    · simp
    · simp [hops]

/-- In any other mode, nothing is run but the warmup. -/
theorem mainsAgree_of_mode (ht : argv[1]?.getD "all" ≠ "throughput")
    (hl : argv[1]?.getD "all" ≠ "latency") (ha : argv[1]?.getD "all" ≠ "all") :
    MainsAgree digit argv := by
  rw [mainsAgree_iff_reads rfl, Cpp.map_main rfl, Go.map_main rfl, Rust.map_main rfl]
  simp only [jobsOf_inj]
  refine ⟨10000000, 2000000, 250000, ⟨if_neg ht, if_neg hl, if_neg hl⟩, ?_, ?_, ?_⟩
  · simp [ht, hl, ha]
  · simp [ht, hl, ha]
  · simp [ht, hl, ha]

/-- In each mode, what is on the command line means the same everywhere. -/
structure Portable (argv : List String) : Prop where
  throughput : argv[1]?.getD "all" = "throughput" → ∀ s ∈ argv[2]?, Plain s 10000000
  latency : argv[1]?.getD "all" = "latency" → (∀ s ∈ argv[2]?, Plain s 2000000) ∧
    ∀ s ∈ argv[3]?, Plain s 250000 ∧ Numeral.value Numeral.ascii s.toList ≠ some 0
  all : argv[1]?.getD "all" = "all" → ∀ s ∈ argv[2]?, ∀ n ∈ Rust.parseU64 s, n = 10000000

/-- **The command lines with which the four programs make the same runs.** Numbers have to be digits
only and fit into 63 bits, unless they repeat the default behind a plus; the rate must not be zero;
and nothing but the default may follow the mode `all`. -/
theorem mainsAgree_iff (h : CharacterDigit digit) : MainsAgree digit argv ↔ Portable argv := by
  constructor
  · intro hagree
    refine ⟨fun hmode => ?_, fun hmode => ?_, fun hmode => ?_⟩
    · exact (argAlike_iff h (by decide) (by decide)).mp ((mainsAgree_throughput hmode).mp hagree)
    · obtain ⟨hops, hrate, hne⟩ := (mainsAgree_latency hmode).mp hagree
      refine ⟨(argAlike_iff h (by decide) (by decide)).mp hops, fun s hs => ⟨?_, ?_⟩⟩
      · exact (argAlike_iff h (by decide) (by decide)).mp hrate s hs
      · rw [Cpp.argU, Option.mem_def.mp hs, Option.map_some, Option.getD_some] at hne
        exact fun hzero => hne (Word.eq_of_toNat (strtoull_of_value (by decide) hzero))
    · have hops := (mainsAgree_all hmode).mp hagree
      intro s hs n hn
      rwa [Rust.arg, Option.mem_def.mp hs, Option.bind_some, Option.mem_def.mp hn,
        Option.getD_some] at hops
  · intro hportable
    by_cases ht : argv[1]?.getD "all" = "throughput"
    · exact (mainsAgree_throughput ht).mpr
        ((argAlike_iff h (by decide) (by decide)).mpr (hportable.throughput ht))
    by_cases hl : argv[1]?.getD "all" = "latency"
    · obtain ⟨hops, hrate⟩ := hportable.latency hl
      refine (mainsAgree_latency hl).mpr ⟨?_, ?_, ?_⟩
      · exact (argAlike_iff h (by decide) (by decide)).mpr hops
      · exact (argAlike_iff h (by decide) (by decide)).mpr fun s hs => (hrate s hs).1
      · rw [Cpp.argU]
        cases hs : argv[3]? with
        | none => decide
        | some s => exact strtoull_ne_zero (hrate s hs).1 (by decide) (by decide) (hrate s hs).2
    by_cases ha : argv[1]?.getD "all" = "all"
    · refine (mainsAgree_all ha).mpr ?_
      rw [Rust.arg]
      cases hs : argv[2]? with
      | none => rfl
      | some s =>
        rw [Option.bind_some]
        cases hn : Rust.parseU64 s with
        | none => rfl
        | some n => exact hportable.all ha s hs n hn
    · exact mainsAgree_of_mode ht hl ha

/-! ## As documented -/

theorem plain_repr {n : ℕ} (hn : n < 2 ^ 63) (d : UInt64) : Plain n.repr d :=
  Or.inl ⟨n, hn, Numeral.value_repr n⟩

/-- `throughput <ops>`. -/
theorem portable_throughput (program : String) {ops : ℕ} (hops : ops < 2 ^ 63) :
    Portable [program, "throughput", ops.repr] where
  throughput := by
    rintro - s ⟨⟩
    exact plain_repr hops _
  latency h := absurd (show "throughput" = "latency" from h) (by decide)
  all h := absurd (show "throughput" = "all" from h) (by decide)

/-- `latency <ops> <rate>`. -/
theorem portable_latency (program : String) {ops rate : ℕ} (hops : ops < 2 ^ 63)
    (hrate : rate < 2 ^ 63) (hpos : 0 < rate) :
    Portable [program, "latency", ops.repr, rate.repr] where
  throughput h := absurd (show "latency" = "throughput" from h) (by decide)
  latency := by
    refine fun _ => ⟨?_, ?_⟩
    · rintro s ⟨⟩
      exact plain_repr hops _
    · rintro s ⟨⟩
      refine ⟨plain_repr hrate _, ?_⟩
      rw [Numeral.value_repr]
      exact fun h => hpos.ne' (Option.some.inj h)
  all h := absurd (show "latency" = "all" from h) (by decide)

/-- `all`. -/
theorem portable_all (program : String) : Portable [program, "all"] where
  throughput h := absurd (show "all" = "throughput" from h) (by decide)
  latency h := absurd (show "all" = "latency" from h) (by decide)
  all := by
    rintro - s ⟨⟩

/-- The digits of two scripts. -/
def arabicIndic (c : Char) : Option ℕ :=
  if 0x660 ≤ c.toNat ∧ c.toNat ≤ 0x669 then some (c.toNat - 0x660) else Numeral.ascii c

theorem characterDigit_arabicIndic : CharacterDigit arabicIndic where
  ascii c hc := if_neg (by omega)
  lt c d hd := by
    rw [arabicIndic] at hd
    split at hd
    · obtain rfl := Option.some.inj hd
      omega
    · have hascii := ascii_eq_some.mp hd
      omega

/-- A rate behind a plus is the default, and digits of another script are read in Java only. -/
theorem mainsAgree_iff_plus :
    MainsAgree arabicIndic ["clob-bench", "latency", "0300", "+250000"] ∧
      ¬MainsAgree arabicIndic ["clob-bench", "throughput", "٣٠٠"] := by
  constructor
  · refine (mainsAgree_iff characterDigit_arabicIndic).mpr
      ⟨fun h => ?_, fun _ => ⟨?_, ?_⟩, fun h => ?_⟩
    · exact absurd h (by decide)
    · rintro s ⟨⟩
      exact Or.inl ⟨300, by decide, by decide⟩
    · rintro s ⟨⟩
      exact ⟨Or.inr ⟨"250000".toList, by decide, by decide⟩, by decide⟩
    · exact absurd h (by decide)
  · intro hagree
    have hportable := (mainsAgree_iff characterDigit_arabicIndic).mp hagree
    rcases hportable.throughput rfl "٣٠٠" rfl with ⟨n, -, hn⟩ | ⟨l, hl, -⟩
    · exact absurd hn (by
        have hnone : Numeral.value Numeral.ascii "٣٠٠".toList = none := by decide
        rw [hnone]
        exact (Option.some_ne_none n).symm)
    · exact absurd (List.cons.inj hl).1 (by decide)

end Main

end LmaxBench
