import Mathlib.Algebra.Ring.Parity
import Mathlib.Data.Nat.Bitwise
import Mathlib.Data.Nat.Prime.Basic
import Mathlib.Tactic.Common
import Mathlib.Tactic.Ring

/-!
Greatest common divisors by removing powers of two: what the trailing zeros of a number say about
its divisors, and one round of the binary algorithm.
-/

namespace WeavePy.BinaryGcd

/-- The zero bits at the end of a number, among its `w` lowest. -/
def trailingZeros : ℕ → ℕ → ℕ
  | 0, _ => 0
  | w + 1, n => if n % 2 = 1 then 0 else trailingZeros w (n / 2) + 1

variable {w n a b : ℕ}

/-- What is left of a number without its trailing zeros is odd. -/
theorem exists_odd (hn : n ≠ 0) (hw : n < 2 ^ w) :
    ∃ m, m % 2 = 1 ∧ n >>> trailingZeros w n = m ∧ n = 2 ^ trailingZeros w n * m := by
  induction w generalizing n with
  | zero => omega
  | succ w ih =>
    unfold trailingZeros
    by_cases hodd : n % 2 = 1
    · rw [if_pos hodd]
      exact ⟨n, hodd, rfl, by simp⟩
    · rw [if_neg hodd]
      have hhalf : n / 2 < 2 ^ w := by
        rw [pow_succ] at hw
        omega
      obtain ⟨m, hm, hshift, heq⟩ := ih (by omega) hhalf
      refine ⟨m, hm, ?_, ?_⟩
      · rw [Nat.add_comm, Nat.shiftRight_add]
        exact hshift
      · rw [pow_succ, Nat.mul_right_comm, ← heq]
        omega

theorem trailingZeros_lor (a b : ℕ) :
    trailingZeros w (a ||| b) = min (trailingZeros w a) (trailingZeros w b) := by
  induction w generalizing a b with
  | zero => rfl
  | succ w ih =>
    have hmod : (a ||| b) % 2 = 1 ↔ a % 2 = 1 ∨ b % 2 = 1 := by
      have := Nat.testBit_or a b 0
      simp only [Nat.testBit_zero] at this
      rw [← decide_eq_true_iff (p := (a ||| b) % 2 = 1), this, Bool.or_eq_true, decide_eq_true_iff,
        decide_eq_true_iff]
    unfold trailingZeros
    rw [Nat.or_div_two, ih]
    by_cases ha : a % 2 = 1
    · rw [if_pos ha, if_pos (hmod.mpr (Or.inl ha))]
      exact (Nat.zero_min _).symm
    · by_cases hb : b % 2 = 1
      · rw [if_pos hb, if_pos (hmod.mpr (Or.inr hb))]
        exact (Nat.min_zero _).symm
      · rw [if_neg ha, if_neg hb, if_neg (by rw [hmod]; tauto)]
        omega

theorem coprime_two_pow (ha : a % 2 = 1) (k : ℕ) : Nat.Coprime (2 ^ k) a := by
  apply Nat.Coprime.pow_left
  exact Nat.coprime_two_left.mpr (Nat.odd_iff.mpr ha)

/-- A power of two has nothing in common with an odd number. -/
theorem gcd_two_pow_mul (ha : a % 2 = 1) (k : ℕ) : Nat.gcd a (2 ^ k * b) = Nat.gcd a b :=
  Nat.Coprime.gcd_mul_left_cancel_right b (coprime_two_pow ha k)

/-- The common power of two, and the divisors of the odd parts. -/
theorem gcd_odd_parts {i j : ℕ} (ha : a % 2 = 1) (hb : b % 2 = 1) :
    Nat.gcd (2 ^ i * a) (2 ^ j * b) = 2 ^ min i j * Nat.gcd a b := by
  rcases Nat.le_total i j with hij | hij
  · have hsplit : 2 ^ j * b = 2 ^ i * (2 ^ (j - i) * b) := by
      rw [← Nat.mul_assoc, ← pow_add, Nat.add_sub_cancel' hij]
    rw [Nat.min_eq_left hij, hsplit, Nat.gcd_mul_left, gcd_two_pow_mul ha]
  · have hsplit : 2 ^ i * a = 2 ^ j * (2 ^ (i - j) * a) := by
      rw [← Nat.mul_assoc, ← pow_add, Nat.add_sub_cancel' hij]
    rw [Nat.min_eq_right hij, hsplit, Nat.gcd_mul_left, Nat.gcd_comm, gcd_two_pow_mul hb,
      Nat.gcd_comm]

/-- One round: the smaller number and the difference. -/
theorem gcd_min_sub (a b : ℕ) : Nat.gcd (min a b) (max a b - min a b) = Nat.gcd a b := by
  rcases Nat.le_total a b with h | h
  · rw [Nat.min_eq_left h, Nat.max_eq_right h, Nat.gcd_sub_self_right h]
  · rw [Nat.min_eq_right h, Nat.max_eq_left h, Nat.gcd_sub_self_right h, Nat.gcd_comm]

end WeavePy.BinaryGcd
