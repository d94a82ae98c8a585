import WeavePy.Rust
import Mathlib.Algebra.Order.Ring.Abs
import Mathlib.Algebra.Order.Ring.Int

/-!
Signed machine arithmetic as the two kinds of build do it: with overflow checks a result out of
range is a panic, without them it wraps around.
-/

namespace WeavePy

inductive Build where
  | checked
  | wrapping
  deriving DecidableEq

/-- The values of a signed integer of `w` bits. -/
def Signed (w : ℕ) (x : ℤ) : Prop := -2 ^ (w - 1) ≤ x ∧ x < 2 ^ (w - 1)

instance (w : ℕ) (x : ℤ) : Decidable (Signed w x) := inferInstanceAs (Decidable (_ ∧ _))

/-- The result of an operation on signed integers of `w` bits whose exact value is `x`. -/
def Build.signed (b : Build) (w : ℕ) (x : ℤ) : Outcome ℤ :=
  if Signed w x then .ok x
  else match b with
    | .checked => .error .panic
    | .wrapping => .ok (x.bmod (2 ^ w))

variable {b : Build} {w : ℕ} {x y z : ℤ}

theorem Build.signed_of (h : Signed w x) : b.signed w x = .ok x := if_pos h

theorem Build.checked_eq_ok : Build.checked.signed w x = .ok y ↔ Signed w x ∧ x = y := by
  unfold Build.signed
  by_cases h : Signed w x
  · simp [h]
  · simp [h]

theorem Signed.of_abs {m : ℤ} (h : |x| ≤ m) (hm : m < 2 ^ (w - 1)) : Signed w x := by
  obtain ⟨hl, hr⟩ := abs_le.mp h
  exact ⟨by omega, by omega⟩

theorem Signed.abs_bound (h : Signed w x) : |x| ≤ 2 ^ (w - 1) := abs_le.mpr ⟨h.1, h.2.le⟩

/-- A product is bounded by the bounds of its factors. -/
theorem Signed.of_mul {m n : ℤ} (hx : |x| ≤ m) (hy : |y| ≤ n) (hm : m * n < 2 ^ (w - 1)) :
    Signed w (x * y) := by
  apply Signed.of_abs _ hm
  rw [abs_mul]
  exact mul_le_mul hx hy (abs_nonneg y) ((abs_nonneg x).trans hx)

/-- What lies between two values in range is in range. -/
theorem Signed.between (hx : Signed w x) (hz : Signed w z) (hxy : x ≤ y) (hyz : y ≤ z) :
    Signed w y := ⟨hx.1.trans hxy, hyz.trans_lt hz.2⟩

end WeavePy
