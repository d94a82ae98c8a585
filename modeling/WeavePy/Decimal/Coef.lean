import WeavePy.Rust
import WeavePy.Lib.DigitCount
import Mathlib.Data.List.Iterate

/-!
Coefficients of the native decimals: the power table, digit counts and scaling.
-/

namespace WeavePy.Decimal

/-- `MAX_DIGITS` -/
def maxDigits : ℕ := 4000

/-- `POW10` -/
def pow10 : List ℕ := List.iterate (· * 10) 1 39

/-- A `u128` while it fits, else a big integer. -/
inductive Coef where
  | S (v : ℕ) (h : v < 2 ^ 128)
  | B (n : ℕ) (h : 2 ^ 128 ≤ n)

/-- `digits_u128` -/
def digitsU128 (v : ℕ) : Outcome ℕ :=
  if v < 2 ^ 64 then
    if v = 0 then .ok 1
    else do
      let t := (bitLength v * 1233) >>> 12
      let p ← index pow10 t
      .ok (if p % 2 ^ 64 ≤ v then t + 1 else t)
  else do
    let t := (bitLength v * 1233) >>> 12
    let p ← index pow10 t
    .ok (if p ≤ v then t + 1 else t)

/-- `digits_big` -/
def digitsBig (n : ℕ) : ℕ :=
  let t := (bitLength n * 1233) >>> 12
  if 10 ^ t ≤ n then t + 1 else t

namespace Coef

def fromBig (n : ℕ) : Coef := if h : n < 2 ^ 128 then .S n h else .B n (not_lt.mp h)

def toBig : Coef → ℕ
  | .S v _ => v
  | .B n _ => n

def isZero : Coef → Bool
  | .S v _ => v == 0
  | .B _ _ => false

/-- The number of decimal digits (1 for zero). -/
def ndigits : Coef → Outcome ℕ
  | .S v _ => digitsU128 v
  | .B n _ => .ok (digitsBig n)

/-- The part of `mul_pow10` that stays in a word. -/
def checkedPow10 : Coef → ℕ → Outcome (Option Coef)
  | .S v _, k =>
    if k < 39 then do
      let p ← index pow10 k
      .ok (if h : v * p < 2 ^ 128 then some (.S (v * p) h) else none)
    else .ok none
  | .B _ _, _ => .ok none

/-- `self * 10**k`, or `none` past the digit limit. -/
def mulPow10 (c : Coef) (k : ℕ) : Outcome (Option Coef) :=
  if k = 0 ∨ c.isZero then .ok (some c)
  else do
    match ← c.checkedPow10 k with
    | some r => .ok (some r)
    | none =>
      let n ← c.ndigits
      .ok (if maxDigits < min (n + k) (2 ^ 64 - 1) then none else some (fromBig (c.toBig * 10 ^ k)))

def cmp : Coef → Coef → Ordering
  | .S a _, .S b _ => compare a b
  | .S _ _, .B _ _ => .lt
  | .B _ _, .S _ _ => .gt
  | .B a _, .B b _ => compare a b

end Coef

theorem index_pow10 {k : ℕ} (hk : k < 39) : index pow10 k = .ok (10 ^ k) := by
  have hlen : k < (List.iterate (· * 10) 1 39).length := by rwa [List.length_iterate]
  rw [pow10, index_ok hlen, List.getElem_iterate, mul_right_iterate]
  dsimp only
  rw [one_mul]

theorem guess_shift (n : ℕ) : (bitLength n * 1233) >>> 12 = digitGuess n := by
  rw [Nat.shiftRight_eq_div_pow]
  rfl

/-- The guess is right for words, so the count is. -/
theorem guess_word {v : ℕ} (hv : v ≠ 0) (h : v < 2 ^ 128) :
    (if 10 ^ digitGuess v ≤ v then digitGuess v + 1 else digitGuess v) = Nat.log 10 v + 1 := by
  have hword := digitGuess_word h
  have hcount := digits_of_guess hv (digitGuess_low hv)
    (hword.trans (Nat.pow_lt_pow_right (by decide) (by omega)))
  rw [if_neg (not_le.mpr hword)] at hcount
  exact hcount.symm

theorem digitGuess_lt {v b : ℕ} (h : v < 2 ^ b) : digitGuess v ≤ b * 1233 / 4096 := by
  unfold digitGuess
  have := bitLength_le h
  gcongr

theorem digitsU128_eq {v : ℕ} (h : v < 2 ^ 128) : digitsU128 v = .ok (Nat.log 10 v + 1) := by
  unfold digitsU128
  simp only [guess_shift]
  split
  next hlow =>
    split
    next hv => rw [hv, Nat.log_zero_right]
    next hv =>
      have ht : digitGuess v ≤ 19 := digitGuess_lt hlow
      have hmod : 10 ^ digitGuess v % 2 ^ 64 = 10 ^ digitGuess v := by
        apply Nat.mod_eq_of_lt
        exact (Nat.pow_le_pow_right (by decide) ht).trans_lt (by decide)
      rw [index_pow10 (by omega), ok_bind, hmod, guess_word hv h]
  next hlow =>
    have hv : v ≠ 0 := by omega
    have ht : digitGuess v ≤ 38 := digitGuess_lt h
    rw [index_pow10 (by omega), ok_bind, guess_word hv h]

namespace Coef

variable {c d : Coef}

/-- The digits of a big coefficient are one short of two more than the guess from its bits. -/
def Undercounted : Coef → Prop
  | .S _ _ => False
  | .B n _ => 10 ^ (bitLength n * 1233 / 4096 + 1) ≤ n

instance : DecidablePred Undercounted
  | .S _ _ => inferInstanceAs (Decidable False)
  | .B n _ => inferInstanceAs (Decidable (10 ^ (bitLength n * 1233 / 4096 + 1) ≤ n))

@[simp] theorem toBig_fromBig (n : ℕ) : (fromBig n).toBig = n := by
  unfold fromBig
  split <;> rfl

@[simp] theorem fromBig_toBig (c : Coef) : fromBig c.toBig = c := by
  cases c with
  | S v h => exact dif_pos h
  | B n h => exact dif_neg (not_lt.mpr h)

theorem isZero_iff : c.isZero = true ↔ c.toBig = 0 := by
  cases c with
  | S v h => exact beq_iff_eq
  | B n h => simp only [isZero, toBig, Bool.false_eq_true, false_iff]; omega

/-- The digit count misses one digit of the undercounted coefficients. -/
theorem ndigits_eq (h : c.toBig < 10 ^ maxDigits) :
    ∃ n, c.ndigits = .ok n ∧ Nat.log 10 c.toBig + 1 = n + if c.Undercounted then 1 else 0 := by
  cases c with
  | S v hv =>
    refine ⟨_, digitsU128_eq hv, ?_⟩
    rw [if_neg (by exact id)]
    rfl
  | B n hn =>
    refine ⟨digitsBig n, rfl, ?_⟩
    have hn0 : n ≠ 0 := by omega
    unfold digitsBig
    rw [guess_shift]
    exact digits_of_guess hn0 (digitGuess_low hn0) (digitGuess_high h)

/-- The word-sized shortcut multiplies exactly. -/
theorem checkedPow10_eq (c : Coef) (k : ℕ) :
    ∃ r, c.checkedPow10 k = .ok r ∧ ∀ x ∈ r, x.toBig = c.toBig * 10 ^ k := by
  cases c with
  | S v hv =>
    unfold checkedPow10
    dsimp only
    split_ifs with hk
    · rw [index_pow10 hk, ok_bind]
      refine ⟨_, rfl, fun x hx => ?_⟩
      split at hx
      · rw [← Option.some.inj hx]
        rfl
      · nomatch hx
    · exact ⟨none, rfl, nofun⟩
  | B n hn => exact ⟨none, rfl, nofun⟩

/-- Scaling never leaves the table, and is exact when it answers. -/
theorem mulPow10_eq (h : c.toBig < 10 ^ maxDigits) (k : ℕ) :
    ∃ r, c.mulPow10 k = .ok r ∧ ∀ x ∈ r, x.toBig = c.toBig * 10 ^ k := by
  unfold mulPow10
  split
  next hk =>
    refine ⟨some c, rfl, fun x hx => ?_⟩
    rw [← Option.some.inj hx]
    rcases hk with rfl | hz
    · rw [pow_zero, mul_one]
    · rw [isZero_iff.mp hz, zero_mul]
  next hk =>
    obtain ⟨r, hr, hexact⟩ := c.checkedPow10_eq k
    rw [hr, ok_bind]
    cases r with
    | some r => exact ⟨some r, rfl, hexact⟩
    | none =>
      obtain ⟨n, hn, -⟩ := ndigits_eq h
      dsimp only
      rw [hn, ok_bind]
      refine ⟨_, rfl, fun x hx => ?_⟩
      split at hx
      · nomatch hx
      · rw [← Option.some.inj hx, toBig_fromBig]

theorem lt_maxDigits {v : ℕ} (hv : v < 2 ^ 128) : v < 10 ^ maxDigits := by
  have hdigits : 2 ^ 128 < 10 ^ 39 := by decide
  exact (hv.trans hdigits).trans (Nat.pow_lt_pow_right (by decide) (by decide))

theorem mul_pow_lt {v k : ℕ} (hv : v < 2 ^ 64) (hk : k < 20) : v * 10 ^ k < 2 ^ 128 := by
  have hpow : 10 ^ k ≤ 10 ^ 19 := Nat.pow_le_pow_right (by decide) (by omega)
  calc v * 10 ^ k ≤ v * 10 ^ 19 := Nat.mul_le_mul_left v hpow
    _ < 2 ^ 64 * 10 ^ 19 := Nat.mul_lt_mul_of_pos_right hv (by decide)
    _ < 2 ^ 128 := by decide

/-- A word times a small power of ten fits. -/
theorem mulPow10_word {v k : ℕ} {hv' : v < 2 ^ 128} (hc : c = .S v hv') (hv : v < 2 ^ 64)
    (hk : k < 20) : ∃ r, c.mulPow10 k = .ok (some r) ∧ r.toBig = v * 10 ^ k := by
  subst hc
  obtain ⟨r, hr, hexact⟩ := mulPow10_eq (c := .S v hv') (lt_maxDigits hv') k
  cases r with
  | some r => exact ⟨r, hr, hexact r rfl⟩
  | none =>
    exfalso
    unfold mulPow10 at hr
    split at hr
    · nomatch hr
    · rw [checkedPow10, if_pos (by omega), index_pow10 (by omega), ok_bind,
        dif_pos (mul_pow_lt hv hk)] at hr
      nomatch hr

theorem cmp_eq (c d : Coef) : c.cmp d = compare c.toBig d.toBig := by
  cases c with
  | S a ha =>
    cases d with
    | S b hb => rfl
    | B b hb => exact (compare_lt_iff_lt.mpr (ha.trans_le hb)).symm
  | B a ha =>
    cases d with
    | S b hb => exact (compare_gt_iff_gt.mpr (hb.trans_le ha)).symm
    | B b hb => rfl

end Coef

end WeavePy.Decimal
