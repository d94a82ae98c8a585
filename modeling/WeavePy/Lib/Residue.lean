import Mathlib.Data.ZMod.Basic
import Mathlib.Data.Rat.Lemmas
import Mathlib.Tactic.Linarith
import Mathlib.Tactic.Ring
import Mathlib.Algebra.Order.Field.Rat
import Mathlib.Tactic.Positivity

/-!
Residues: the folds that reduce modulo 2 ^ k - 1, powers by repeated squaring, and the residue of a
rational number.
-/

namespace WeavePy

section Fold

variable {k j x : ℕ}

/-- The low bits plus the high bits. -/
def mersenneFold (k x : ℕ) : ℕ := (x &&& (2 ^ k - 1)) + x >>> k

theorem mersenneFold_eq (k x : ℕ) : mersenneFold k x = x % 2 ^ k + x / 2 ^ k := by
  rw [mersenneFold, Nat.and_two_pow_sub_one_eq_mod, Nat.shiftRight_eq_div_pow]

theorem mersenneFold_modEq (k x : ℕ) : mersenneFold k x ≡ x [MOD 2 ^ k - 1] := by
  rw [mersenneFold_eq]
  have hunit : 2 ^ k ≡ 1 [MOD 2 ^ k - 1] := by
    have h : 2 ^ k = 1 + (2 ^ k - 1) := by have := Nat.two_pow_pos k; omega
    conv_lhs => rw [h]
    exact Nat.add_modEq_right
  calc x % 2 ^ k + x / 2 ^ k ≡ x % 2 ^ k + 2 ^ k * (x / 2 ^ k) [MOD 2 ^ k - 1] := by
        apply Nat.ModEq.add_left
        simpa using (hunit.mul_right (x / 2 ^ k)).symm
    _ = x := Nat.mod_add_div x (2 ^ k)

theorem mersenneFold_lt (h : x < 2 ^ (k + j)) : mersenneFold k x < 2 ^ k + 2 ^ j := by
  rw [mersenneFold_eq]
  have hlow := Nat.mod_lt x (Nat.two_pow_pos k)
  have hhigh : x / 2 ^ k < 2 ^ j := Nat.div_lt_of_lt_mul (by rwa [← pow_add])
  omega

end Fold

section Squaring

variable {α : Type}

/-- Multiply the bits' squarings into an accumulator. -/
def squareMultiply (mul : α → α → α) (b : α) (e : ℕ) (r : α) : α :=
  if e = 0 then r
  else squareMultiply mul (mul b b) (e / 2) (if e % 2 = 1 then mul r b else r)
termination_by e

theorem squareMultiply_map {M : Type} [CommMonoid M] {mul : α → α → α} (φ : α → M)
    (hmul : ∀ a b, φ (mul a b) = φ a * φ b) (b : α) (e : ℕ) (r : α) :
    φ (squareMultiply mul b e r) = φ r * φ b ^ e := by
  induction e using Nat.strong_induction_on generalizing b r with
  | _ e ih =>
    unfold squareMultiply
    split
    next he => simp [he]
    next he =>
      rw [ih (e / 2) (by omega), hmul, ← pow_two, ← pow_mul]
      rcases Nat.mod_two_eq_zero_or_one e with h | h
      · rw [if_neg (by omega), show 2 * (e / 2) = e by omega]
      · rw [if_pos h, hmul, mul_assoc, ← pow_succ', show 2 * (e / 2) + 1 = e by omega]

end Squaring

section Rational

variable {p : ℕ}

/-- The residue of a rational's absolute value. -/
def ratResidue (p : ℕ) (x : ℚ) : ZMod p := x.num.natAbs * (x.den : ZMod p)⁻¹

theorem ratResidue_neg (x : ℚ) : ratResidue p (-x) = ratResidue p x := by
  rw [ratResidue, Rat.neg_num, Int.natAbs_neg, Rat.neg_den, ratResidue]

theorem den_dvd_of_eq_div {x : ℚ} {n d : ℕ} (hx : x = n / d) : x.den ∣ d := by
  have h := Rat.den_dvd n d
  rw [Rat.divInt_eq_div, Int.cast_natCast, Int.cast_natCast, ← hx] at h
  exact Int.natCast_dvd_natCast.mp h

/-- The fraction need not be in lowest terms. -/
theorem ratResidue_div {x : ℚ} {n d : ℕ} (hx : x = n / d) (hd : d ≠ 0) (hcop : d.Coprime p) {i : ℕ}
    (hi : (d * i : ZMod p) = 1) : ratResidue p x = n * i := by
  have hden : (x.den : ZMod p) * (x.den : ZMod p)⁻¹ = 1 :=
    ZMod.coe_mul_inv_eq_one _ (hcop.coprime_dvd_left (den_dvd_of_eq_div hx))
  have hcross : (x.num.natAbs : ZMod p) * d = n * x.den := by
    have hnum : x.num * d = n * x.den := by
      have hden' : (x.den : ℚ) ≠ 0 := by exact_mod_cast x.den_ne_zero
      have hd' : (d : ℚ) ≠ 0 := by exact_mod_cast hd
      have h := (Rat.num_div_den x).trans hx
      rw [div_eq_div_iff hden' hd'] at h
      exact_mod_cast h
    have hnonneg : 0 ≤ x.num := by
      rw [Rat.num_nonneg, hx]
      positivity
    have habs : x.num.natAbs * d = n * x.den := by
      zify
      rwa [abs_of_nonneg hnonneg]
    exact_mod_cast congrArg (Nat.cast : ℕ → ZMod p) habs
  calc ratResidue p x = x.num.natAbs * d * i * (x.den : ZMod p)⁻¹ := by
        rw [ratResidue, mul_assoc (x.num.natAbs : ZMod p), hi, mul_one]
    _ = n * i * (x.den * (x.den : ZMod p)⁻¹) := by rw [hcross]; ring
    _ = n * i := by rw [hden, mul_one]

end Rational

end WeavePy
