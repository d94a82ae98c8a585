import Mathlib.Data.Nat.Log
import Mathlib.Data.Int.Log
import Mathlib.Data.Rat.Floor
import Mathlib.Algebra.Order.Field.Power
import Mathlib.Order.Compare
import Mathlib.Tactic.GCongr
import Mathlib.Tactic.Linarith
import Mathlib.Tactic.NormNum

/-!
Counting the digits of a natural number from the length of its binary form: the estimate, when it
is exact, and when it is one short.
-/

namespace WeavePy

/-- The length of a number's binary form. -/
def bitLength (n : ℕ) : ℕ := if n = 0 then 0 else n.log2 + 1

theorem lt_two_pow_bitLength (n : ℕ) : n < 2 ^ bitLength n := by
  unfold bitLength
  split
  next h => simp [h]
  · exact Nat.lt_log2_self

theorem two_pow_bitLength_le {n : ℕ} (h : n ≠ 0) : 2 ^ bitLength n ≤ 2 * n := by
  rw [bitLength, if_neg h, pow_succ']
  exact Nat.mul_le_mul_left 2 (Nat.log2_self_le h)

theorem bitLength_le {n k : ℕ} (h : n < 2 ^ k) : bitLength n ≤ k := by
  unfold bitLength
  split
  · exact Nat.zero_le k
  next hn => exact (Nat.log2_lt hn).mpr h

section Estimate

variable {n t k : ℕ}

/-- A first guess that is at most one short, after its comparison with the power, counts the
digits or misses one. -/
theorem digits_of_guess (hn : n ≠ 0) (hlow : 10 ^ t ≤ 10 * n) (hhigh : n < 10 ^ (t + 2)) :
    Nat.log 10 n + 1 = (if 10 ^ t ≤ n then t + 1 else t) + if 10 ^ (t + 1) ≤ n then 1 else 0 := by
  have hlog (k : ℕ) : k ≤ Nat.log 10 n ↔ 10 ^ k ≤ n :=
    Nat.le_log_iff_pow_le (by decide) hn
  have hlt : Nat.log 10 n < t + 2 := Nat.log_lt_of_lt_pow hn hhigh
  have hpred : t ≤ Nat.log 10 n + 1 := by
    rcases Nat.eq_zero_or_pos t with rfl | ht
    · exact Nat.zero_le _
    · obtain ⟨k, rfl⟩ := Nat.exists_eq_add_one.mpr ht
      rw [pow_succ'] at hlow
      have := (hlog k).mpr (Nat.le_of_mul_le_mul_left hlow (by decide))
      omega
  have ht := hlog t
  have ht' := hlog (t + 1)
  split_ifs <;> omega

/-- 1233 / 4096 is below the logarithm of two. -/
theorem guess_low {b : ℕ} (h : t * 4096 ≤ b * 1233) : 10 ^ t ≤ 2 ^ b := by
  rw [← Nat.pow_le_pow_iff_left (show 4096 ≠ 0 by decide), ← pow_mul, ← pow_mul]
  calc 10 ^ (t * 4096) ≤ 10 ^ (b * 1233) := Nat.pow_le_pow_right (by decide) h
    _ = (10 ^ 1233) ^ b := by rw [mul_comm, pow_mul]
    _ ≤ (2 ^ 4096) ^ b := Nat.pow_le_pow_left (by decide +kernel) b
    _ = 2 ^ (b * 4096) := by rw [← pow_mul, mul_comm]

/-- 28 / 93 is above it. -/
theorem guess_high {b : ℕ} (h : b * 28 ≤ t * 93) : 2 ^ b ≤ 10 ^ t := by
  rw [← Nat.pow_le_pow_iff_left (show 93 ≠ 0 by decide), ← pow_mul, ← pow_mul]
  calc 2 ^ (b * 93) = (2 ^ 93) ^ b := by rw [mul_comm, pow_mul]
    _ ≤ (10 ^ 28) ^ b := Nat.pow_le_pow_left (by decide +kernel) b
    _ = 10 ^ (b * 28) := by rw [← pow_mul, mul_comm]
    _ ≤ 10 ^ (t * 93) := Nat.pow_le_pow_right (by decide) h

/-- The guess from the binary length. -/
def digitGuess (n : ℕ) : ℕ := bitLength n * 1233 / 4096

theorem digitGuess_low (h : n ≠ 0) : 10 ^ digitGuess n ≤ 10 * n := by
  have hpow : 10 ^ digitGuess n ≤ 2 ^ bitLength n := guess_low (Nat.div_mul_le_self _ _)
  have := two_pow_bitLength_le h
  omega

/-- It is at most one short while the number stays below 10 ^ 4000. -/
theorem digitGuess_high (h : n < 10 ^ 4000) : n < 10 ^ (digitGuess n + 2) := by
  have hbits : bitLength n ≤ 13290 :=
    bitLength_le (h.trans_le (by decide +kernel))
  apply (lt_two_pow_bitLength n).trans_le
  apply guess_high
  unfold digitGuess
  omega

/-- It is exact on the numbers of up to 128 bits. -/
theorem digitGuess_word (h : n < 2 ^ 128) : n < 10 ^ (digitGuess n + 1) := by
  have hbits : bitLength n ≤ 128 := bitLength_le h
  apply (lt_two_pow_bitLength n).trans_le
  apply guess_high
  unfold digitGuess
  have hall : ∀ b ≤ 128, b * 28 ≤ (b * 1233 / 4096 + 1) * 93 := by decide
  exact hall _ hbits

end Estimate

section Scale

/-- The decimal exponent of a scaled number. -/
theorem log_scaled {n : ℕ} (hn : n ≠ 0) (e : ℤ) :
    Int.log 10 ((n : ℚ) * 10 ^ e) = Nat.log 10 n + e := by
  have hpos : (0 : ℚ) < n * 10 ^ e := by positivity
  have hlow : ((10 : ℕ) : ℚ) ^ ((Nat.log 10 n : ℤ) + e) ≤ n * 10 ^ e := by
    rw [Nat.cast_ofNat, zpow_add₀ (by norm_num), zpow_natCast]
    have : (10 : ℚ) ^ Nat.log 10 n ≤ n := by exact_mod_cast Nat.pow_log_le_self 10 hn
    gcongr
  have hhigh : (n : ℚ) * 10 ^ e < ((10 : ℕ) : ℚ) ^ ((Nat.log 10 n : ℤ) + e + 1) := by
    rw [Nat.cast_ofNat, add_right_comm, zpow_add₀ (by norm_num)]
    have : (n : ℚ) < (10 : ℚ) ^ ((Nat.log 10 n : ℤ) + 1) := by
      exact_mod_cast Nat.lt_pow_succ_log_self (by decide) n
    gcongr
  apply le_antisymm
  · have := (Int.lt_zpow_iff_log_lt (by decide) hpos).mp hhigh
    omega
  · exact (Int.zpow_le_iff_le_log (by decide) hpos).mp hlow

/-- The larger decimal exponent belongs to the larger number. -/
theorem scaled_lt {m n : ℕ} (hm : m ≠ 0) (hn : n ≠ 0) {e f : ℤ}
    (h : Nat.log 10 m + e < Nat.log 10 n + f) : (m : ℚ) * 10 ^ e < n * 10 ^ f := by
  rw [← log_scaled hm, ← log_scaled hn] at h
  by_contra hle
  exact absurd (Int.log_mono_right (by positivity) (not_lt.mp hle)) (not_le.mpr h)

/-- Aligned to the smaller exponent, scaled numbers compare as natural numbers. -/
theorem compare_scaled {m n : ℕ} {e f : ℤ} :
    compare ((m : ℚ) * 10 ^ e) (n * 10 ^ f) =
      compare (m * 10 ^ (e - f).toNat) (n * 10 ^ (f - e).toNat) := by
  have hscale (m : ℕ) (e f : ℤ) :
      ((m * 10 ^ (e - f).toNat : ℕ) : ℚ) * 10 ^ min e f = m * 10 ^ e := by
    push_cast
    rw [mul_assoc, ← zpow_natCast, ← zpow_add₀ (by norm_num)]
    congr 2
    omega
  rw [← hscale m e f, ← hscale n f e, min_comm f e]
  rw [← cmp_eq_compare, ← cmp_eq_compare, cmp_mul_pos_right (by positivity)]
  exact Nat.strictMono_cast.cmp_map_eq _ _

end Scale

end WeavePy
