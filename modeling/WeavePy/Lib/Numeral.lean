import Mathlib.Data.Nat.Log
import Mathlib.Algebra.Order.Field.Rat
import Mathlib.Algebra.Order.Field.Power
import Mathlib.Tactic.NormNum
import Mathlib.Tactic.FieldSimp
import Mathlib.Tactic.Ring

/-!
Decimal numerals: their texts, what they denote, and the digits that matter.
-/

namespace WeavePy

section Digits

variable {l m : List Char} {k : ℕ}

/-- The number that a string of digits denotes. -/
def digitsValue (l : List Char) : ℕ := Nat.ofDigitChars 10 l 0

theorem digitsValue_append (l m : List Char) :
    digitsValue (l ++ m) = digitsValue l * 10 ^ m.length + digitsValue m := by
  unfold digitsValue
  rw [Nat.ofDigitChars_append, Nat.ofDigitChars_eq_ofDigitChars_zero, mul_comm]

theorem digitsValue_cons (c : Char) (l : List Char) :
    digitsValue (c :: l) = (c.toNat - 48) * 10 ^ l.length + digitsValue l := by
  unfold digitsValue
  rw [Nat.ofDigitChars_cons, Nat.ofDigitChars_eq_ofDigitChars_zero, Nat.mul_zero, Nat.zero_add,
    mul_comm]
  rfl

theorem digitsValue_toDigits (n : ℕ) : digitsValue (Nat.toDigits 10 n) = n :=
  Nat.ofDigitChars_ten_toDigits

theorem digitsValue_replicate_zero (n : ℕ) : digitsValue (List.replicate n '0') = 0 := by
  rw [digitsValue, Nat.ofDigitChars_replicate_zero, Nat.mul_zero]

theorem isDigit_toNat {c : Char} (h : c.isDigit) : 48 ≤ c.toNat ∧ c.toNat ≤ 57 := by
  rw [Char.isDigit, Bool.and_eq_true, decide_eq_true_eq, decide_eq_true_eq] at h
  exact ⟨UInt32.le_iff_toNat_le.mp h.1, UInt32.le_iff_toNat_le.mp h.2⟩

theorem digitsValue_lt (h : ∀ c ∈ l, c.isDigit) : digitsValue l < 10 ^ l.length := by
  induction l with
  | nil => exact Nat.one_pos
  | cons c l ih =>
    have hc := isDigit_toNat (h c List.mem_cons_self)
    have hl := ih fun c hc => h c (List.mem_cons_of_mem _ hc)
    rw [digitsValue_cons, List.length_cons, pow_succ']
    calc (c.toNat - 48) * 10 ^ l.length + digitsValue l
        < (c.toNat - 48) * 10 ^ l.length + 10 ^ l.length := Nat.add_lt_add_left hl _
      _ = (c.toNat - 48 + 1) * 10 ^ l.length := by ring
      _ ≤ 10 * 10 ^ l.length := Nat.mul_le_mul_right _ (by omega)

/-- The digits without leading zeros. -/
def significant (l : List Char) : List Char := l.dropWhile (· == '0')

theorem digitsValue_significant (l : List Char) : digitsValue (significant l) = digitsValue l := by
  induction l with
  | nil => rfl
  | cons c l ih =>
    unfold significant at ih ⊢
    rw [List.dropWhile_cons]
    split
    next hc =>
      have hzero : '0'.toNat - 48 = 0 := rfl
      rw [beq_iff_eq.mp hc, ih, digitsValue_cons, hzero, Nat.zero_mul, Nat.zero_add]
    · rfl

theorem mem_significant {c : Char} (h : c ∈ significant l) : c ∈ l :=
  List.dropWhile_subset _ h

/-- The number of significant digits bounds the value, and the other way round. -/
theorem significant_length_le (h : ∀ c ∈ l, c.isDigit) :
    (significant l).length ≤ k ↔ digitsValue l < 10 ^ k := by
  rw [← digitsValue_significant]
  constructor
  · intro hk
    exact (digitsValue_lt fun c hc => h c (mem_significant hc)).trans_le
      (Nat.pow_le_pow_right (by decide) hk)
  · intro hlt
    by_contra hk
    cases hs : significant l with
    | nil => rw [hs] at hk; exact hk (Nat.zero_le _)
    | cons c s =>
      rw [hs, List.length_cons] at hk
      have hne : c ≠ '0' := by
        have := List.head?_dropWhile_not (· == '0') l
        unfold significant at hs
        rw [hs] at this
        simpa using this
      have hdigit := isDigit_toNat (h c (mem_significant (hs ▸ List.mem_cons_self)))
      have hpos : 1 ≤ c.toNat - 48 := by
        have : c.toNat ≠ 48 := fun heq => hne (Char.toNat_inj.mp heq)
        omega
      rw [hs, digitsValue_cons] at hlt
      have hpow : 10 ^ k ≤ 10 ^ s.length := Nat.pow_le_pow_right (by decide) (by omega)
      have hhead := Nat.mul_le_mul_right (10 ^ s.length) hpos
      omega

theorem isDigit_toDigits {n : ℕ} {c : Char} (h : c ∈ Nat.toDigits 10 n) : c.isDigit :=
  Nat.isDigit_of_mem_toDigits (by decide) (by decide) h

end Digits

/-- A sign as it is written: none, minus (`true`) or plus. -/
def signText : Option Bool → List Char
  | none => []
  | some true => ['-']
  | some false => ['+']

/-- The exponent of a numeral, as it is written. -/
structure NumeralExp where
  capital : Bool
  sign : Option Bool
  digits : List Char
  isDigit : ∀ c ∈ digits, c.isDigit
  nonempty : digits ≠ []

/-- A decimal numeral, as it is written. -/
structure Numeral where
  sign : Option Bool
  int : List Char
  frac : Option (List Char)
  exp : Option NumeralExp
  int_isDigit : ∀ c ∈ int, c.isDigit
  frac_isDigit : ∀ c ∈ frac.getD [], c.isDigit
  nonempty : ¬ (int = [] ∧ frac.getD [] = [])

namespace NumeralExp

def text (e : NumeralExp) : List Char :=
  (if e.capital then 'E' else 'e') :: (signText e.sign ++ e.digits)

def value (e : NumeralExp) : ℤ :=
  if e.sign = some true then -digitsValue e.digits else digitsValue e.digits

end NumeralExp

namespace Numeral

variable {n : Numeral}

def fracText (n : Numeral) : List Char := n.frac.elim [] ('.' :: ·)

def expText (n : Numeral) : List Char := n.exp.elim [] NumeralExp.text

def text (n : Numeral) : List Char :=
  signText n.sign ++ (n.int ++ (n.fracText ++ n.expText))

def negative (n : Numeral) : Bool := n.sign = some true

def fracDigits (n : Numeral) : List Char := n.frac.getD []

/-- The digits of the numeral, the point left out. -/
def digits (n : Numeral) : List Char := n.int ++ n.fracDigits

def expValue (n : Numeral) : ℤ := n.exp.elim 0 NumeralExp.value

/-- The exponent of the last digit. -/
def exponent (n : Numeral) : ℤ := n.expValue - n.fracDigits.length

/-- The number that the numeral denotes: integer part and fraction, scaled. -/
def value (n : Numeral) : ℚ :=
  (if n.negative then -1 else 1) *
    (digitsValue n.int + digitsValue n.fracDigits / 10 ^ n.fracDigits.length) * 10 ^ n.expValue

theorem digits_isDigit (n : Numeral) : ∀ c ∈ n.digits, c.isDigit := by
  intro c hc
  rcases List.mem_append.mp hc with h | h
  · exact n.int_isDigit c h
  · exact n.frac_isDigit c h

theorem digits_ne_nil (n : Numeral) : n.digits ≠ [] := fun h =>
  n.nonempty (List.append_eq_nil_iff.mp h)

/-- The same number from the digits and the exponent of the last one. -/
theorem value_eq (n : Numeral) :
    n.value = (if n.negative then -1 else 1) * (digitsValue n.digits * 10 ^ n.exponent) := by
  unfold value digits exponent
  rw [digitsValue_append, zpow_sub₀ (by norm_num), zpow_natCast]
  push_cast
  field_simp

end Numeral

end WeavePy
