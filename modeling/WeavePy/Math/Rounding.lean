import WeavePy.Math.Gcd
import Mathlib.Data.Rat.Floor
import Mathlib.Algebra.Order.Field.Power
import Mathlib.Tactic.Linarith
import Mathlib.Tactic.NormNum

/-!
`math.floor`, `math.ceil` and `math.trunc` of floats: the general body and the fast halves.
-/

namespace WeavePy.Math

/-- The values of finite doubles: 53-bit numbers times powers of two. -/
def IsDouble (x : ℚ) : Prop :=
  ∃ m e : ℤ, |m| < 2 ^ 53 ∧ -1074 ≤ e ∧ e ≤ 971 ∧ x = m * (2 : ℚ) ^ e

/-- A double of 2 ^ 52 or more is an integer. -/
theorem IsDouble.integral {x : ℚ} (h : IsDouble x) (hx : 2 ^ 52 ≤ |x|) : ∃ n : ℤ, x = n := by
  obtain ⟨m, e, hm, -, -, rfl⟩ := h
  rcases Int.lt_or_le e 0 with he | he
  · exfalso
    have hpow : (2 : ℚ) ^ e ≤ 2 ^ (-1 : ℤ) := zpow_le_zpow_right₀ (by norm_num) (by omega)
    have hpos : (0 : ℚ) < 2 ^ e := zpow_pos (by norm_num) e
    have hm' : |(m : ℚ)| < 2 ^ 53 := by exact_mod_cast hm
    rw [abs_mul, abs_of_pos hpos] at hx
    have : |(m : ℚ)| * 2 ^ e ≤ |(m : ℚ)| * 2 ^ (-1 : ℤ) :=
      mul_le_mul_of_nonneg_left hpow (abs_nonneg _)
    norm_num at this hx hm'
    linarith
  · obtain ⟨k, rfl⟩ := Int.eq_ofNat_of_zero_le he
    exact ⟨m * 2 ^ k, by push_cast; rfl⟩

theorem isDouble_int {n : ℤ} (hn : |n| < 2 ^ 53) : IsDouble n :=
  ⟨n, 0, hn, by decide, by decide, by simp⟩

/-- A finite double, by its value. -/
structure Double where
  val : ℚ
  isDouble : IsDouble val

/-- A float; the signs of zeros and infinities are not read here. -/
inductive F64 where
  | nan
  | inf
  | finite (x : Double)

/-- The rounding functions of the standard library. -/
inductive Rounding where
  | floor
  | ceil
  | trunc
  deriving DecidableEq

/-- The integer that a rational rounds to. -/
def Rounding.toInt : Rounding → ℚ → ℤ
  | .floor, x => ⌊x⌋
  | .ceil, x => ⌈x⌉
  | .trunc, x => if 0 ≤ x then ⌊x⌋ else ⌈x⌉

theorem Rounding.toInt_trunc (x : ℚ) : Rounding.trunc.toInt x = if 0 ≤ x then ⌊x⌋ else ⌈x⌉ := rfl

theorem Rounding.toInt_intCast (op : Rounding) (n : ℤ) : op.toInt (n : ℚ) = n := by
  cases op with
  | floor => exact Int.floor_intCast n
  | ceil => exact Int.ceil_intCast n
  | trunc => rw [Rounding.toInt_trunc, Int.floor_intCast, Int.ceil_intCast, ite_self]

theorem Rounding.toInt_max (op : Rounding) : op.toInt (2 ^ 63) = 2 ^ 63 := by
  have h := op.toInt_intCast (2 ^ 63)
  rwa [Int.cast_pow, Int.cast_ofNat] at h

theorem Rounding.near (op : Rounding) (x : ℚ) : x - 1 < op.toInt x ∧ (op.toInt x : ℚ) < x + 1 := by
  have hfloor := Int.sub_one_lt_floor x
  have hfloor' := Int.floor_le x
  have hceil := Int.ceil_lt_add_one x
  have hceil' := Int.le_ceil x
  cases op with
  | floor => exact ⟨hfloor, by unfold Rounding.toInt; linarith⟩
  | ceil => exact ⟨by unfold Rounding.toInt; linarith, hceil⟩
  | trunc =>
    rw [Rounding.toInt_trunc]
    split
    · exact ⟨hfloor, by linarith⟩
    · exact ⟨by linarith, hceil⟩

/-- Rounding a double gives a double. -/
theorem Rounding.isDouble (op : Rounding) {x : ℚ} (h : IsDouble x) : IsDouble (op.toInt x) := by
  rcases le_or_gt (2 ^ 52) |x| with hx | hx
  · obtain ⟨n, rfl⟩ := h.integral hx
    rwa [op.toInt_intCast]
  · obtain ⟨hl, hr⟩ := abs_lt.mp hx
    obtain ⟨hl', hr'⟩ := op.near x
    apply isDouble_int
    have hlow : -(2 ^ 52 + 1 : ℤ) < op.toInt x := by
      have : (-(2 ^ 52 + 1) : ℚ) < op.toInt x := by linarith
      exact_mod_cast this
    have hhigh : op.toInt x < (2 ^ 52 + 1 : ℤ) := by
      have : (op.toInt x : ℚ) < 2 ^ 52 + 1 := by linarith
      exact_mod_cast this
    rw [abs_lt]
    omega

/-- `f64::floor`, `f64::ceil` and `f64::trunc`. -/
def Rounding.apply (op : Rounding) : F64 → F64
  | .nan => .nan
  | .inf => .inf
  | .finite x => .finite ⟨op.toInt x.val, op.isDouble x.isDouble⟩

/-- `f as i64`: towards zero, and saturating. -/
def asI64 (x : Double) : Int64 :=
  Int64.ofInt (max (-2 ^ 63) (min (2 ^ 63 - 1) (Rounding.trunc.toInt x.val)))

/-- `i64::MIN as f64`. -/
def i64Min : ℚ := -2 ^ 63

/-- `i64::MAX as f64`, which rounds up. -/
def i64Max : ℚ := 2 ^ 63

/-- The plain arguments; other objects go through their methods. -/
inductive Arg where
  | int (i : Int64)
  | bool (b : Bool)
  | long (n : ℤ)
  | float (f : F64)

inductive RoundError where
  | valueError (message : String)
  | overflowError (message : String)
  deriving DecidableEq

variable (fromF64 : ℚ → Option ℤ)

/-- Convert an integral float to a Python int; `fromF64` is `BigInt::from_f64`. -/
def floatToIntObj : F64 → Except RoundError PyInt
  | .nan => .error (.valueError "cannot convert float NaN to integer")
  | .inf => .error (.overflowError "cannot convert float infinity to integer")
  | .finite f =>
    if i64Min ≤ f.val ∧ f.val ≤ i64Max then .ok (.int (asI64 f))
    else match fromF64 f.val with
      | some big => .ok (intFromBigint big)
      | none => .error (.valueError "cannot convert float to integer")

/-- `floor_ceil_trunc` of a plain argument. -/
def floorCeilTrunc (op : Rounding) : Arg → Except RoundError PyInt
  | .int i => .ok (.int i)
  | .bool b => .ok (.int (if b then 1 else 0))
  | .long n => .ok (.long n)
  | .float f => floatToIntObj fromF64 (op.apply f)

/-- The fast half: a finite result strictly between the bounds. -/
def roundFast (op : Rounding) : Arg → Option PyInt
  | .int i => some (.int i)
  | .float f =>
    match op.apply f with
    | .finite r => if i64Min < r.val ∧ r.val < i64Max then some (.int (asI64 r)) else none
    | _ => none
  | _ => none

def floorFast : Arg → Option PyInt := roundFast .floor

def ceilFast : Arg → Option PyInt := roundFast .ceil

/-- The rounding functions of a finite float, and the fast halves, return the exact integers. -/
def Exact (x : Double) : Prop :=
  (∀ op, floorCeilTrunc fromF64 op (.float (.finite x)) = .ok (intFromBigint (op.toInt x.val))) ∧
  (∀ r, floorFast (.float (.finite x)) = some r →
    floorCeilTrunc fromF64 .floor (.float (.finite x)) = .ok r) ∧
  ∀ r, ceilFast (.float (.finite x)) = some r →
    floorCeilTrunc fromF64 .ceil (.float (.finite x)) = .ok r

variable {fromF64} {x : Double}

theorem asI64_of_int {f : Double} {n : ℤ} (hf : f.val = n) (hn : Signed 64 n) :
    asI64 f = Int64.ofInt n := by
  obtain ⟨hl, hr⟩ := hn
  unfold asI64
  rw [hf, Rounding.toInt_intCast, min_eq_right (by omega), max_eq_right (by omega)]

/-- Only one double rounds to the least power of two past the words. -/
theorem Rounding.eq_max {op : Rounding} (h : op.toInt x.val = 2 ^ 63) : x.val = 2 ^ 63 := by
  obtain ⟨hl, hr⟩ := op.near x.val
  rw [h] at hl hr
  push_cast at hl hr
  obtain ⟨n, hn⟩ := x.isDouble.integral (by
    rw [abs_of_nonneg (by linarith)]
    linarith)
  rw [hn, op.toInt_intCast] at h
  rw [hn, h]
  norm_num

theorem fast_agrees {op : Rounding} {r : PyInt} (h : roundFast op (.float (.finite x)) = some r) :
    floorCeilTrunc fromF64 op (.float (.finite x)) = .ok r := by
  unfold roundFast Rounding.apply at h
  unfold floorCeilTrunc Rounding.apply floatToIntObj
  dsimp only at h ⊢
  split_ifs at h with hin
  rw [if_pos ⟨hin.1.le, hin.2.le⟩, Option.some.inj h]

/-- The general body is exact unless the result is just past the greatest word. -/
theorem floorCeilTrunc_exact (hbig : ∀ n : ℤ, IsDouble n → fromF64 n = some n) {op : Rounding}
    (h : op.toInt x.val ≠ 2 ^ 63) :
    floorCeilTrunc fromF64 op (.float (.finite x)) = .ok (intFromBigint (op.toInt x.val)) := by
  unfold floorCeilTrunc Rounding.apply floatToIntObj
  dsimp only
  by_cases hin : i64Min ≤ (op.toInt x.val : ℚ) ∧ (op.toInt x.val : ℚ) ≤ i64Max
  · obtain ⟨hl, hr⟩ := hin
    have hl' : -2 ^ 63 ≤ op.toInt x.val := by
      unfold i64Min at hl
      exact_mod_cast hl
    have hr' : op.toInt x.val ≤ 2 ^ 63 := by
      unfold i64Max at hr
      exact_mod_cast hr
    have hsigned : Signed 64 (op.toInt x.val) := ⟨hl', lt_of_le_of_ne hr' h⟩
    rw [if_pos ⟨hl, hr⟩, asI64_of_int rfl hsigned, intFromBigint, if_pos hsigned]
  · rw [if_neg hin, hbig _ (op.isDouble x.isDouble)]

theorem isDouble_two_pow_63 : IsDouble (2 ^ 63) := ⟨1, 63, by decide, by decide, by decide, by norm_num⟩

/-- The bounds test admits 2 ^ 63, which the cast saturates. -/
theorem floor_past_max {op : Rounding} (h : x.val = 2 ^ 63) :
    floorCeilTrunc fromF64 op (.float (.finite x)) = .ok (.int (Int64.ofInt (2 ^ 63 - 1))) := by
  have hint : op.toInt x.val = 2 ^ 63 := by rw [h, op.toInt_max]
  have htrunc : Rounding.trunc.toInt ((2 ^ 63 : ℤ) : ℚ) = 2 ^ 63 := Rounding.toInt_intCast _ _
  unfold floorCeilTrunc Rounding.apply floatToIntObj asI64
  simp only [hint, htrunc]
  rw [if_pos (by unfold i64Min i64Max; norm_num)]
  rfl

/-- With the big-integer conversion exact, every finite float but 2 ^ 63 rounds exactly. -/
theorem rounding_exact (hbig : ∀ n : ℤ, IsDouble n → fromF64 n = some n) (x : Double) :
    Exact fromF64 x ↔ x.val ≠ 2 ^ 63 := by
  constructor
  · rintro ⟨hexact, -, -⟩ hx
    have h := hexact .floor
    rw [floor_past_max hx, hx, Rounding.toInt_max] at h
    have hvalue := congrArg PyInt.value (Except.ok.inj h)
    rw [value_intFromBigint, PyInt.value, toInt_of_signed (by decide)] at hvalue
    omega
  · intro hx
    refine ⟨fun op => floorCeilTrunc_exact hbig fun h => hx (Rounding.eq_max h), ?_, ?_⟩
    · exact fun r hr => fast_agrees hr
    · exact fun r hr => fast_agrees hr

/-- `BigInt::from_f64` of a finite double. -/
def bigFromF64 (x : ℚ) : Option ℤ := some (Rounding.trunc.toInt x)

def fiveHalves : Double := ⟨5 / 2, 5, -1, by decide, by decide, by decide, by norm_num⟩

theorem five_halves_rounds : Exact bigFromF64 fiveHalves :=
  (rounding_exact (fun n _ => congrArg some (Rounding.toInt_intCast _ n)) fiveHalves).mpr (by
    unfold fiveHalves
    norm_num)

/-- `math.floor(2.0 ** 63)` is the greatest machine word. -/
theorem max_saturates :
    floorCeilTrunc bigFromF64 .floor (.float (.finite ⟨2 ^ 63, isDouble_two_pow_63⟩)) =
        .ok (.int (Int64.ofInt (2 ^ 63 - 1))) ∧
      ¬ Exact bigFromF64 ⟨2 ^ 63, isDouble_two_pow_63⟩ := by
  have hsat : floorCeilTrunc bigFromF64 .floor (.float (.finite ⟨2 ^ 63, isDouble_two_pow_63⟩)) =
      .ok (.int (Int64.ofInt (2 ^ 63 - 1))) := floor_past_max rfl
  refine ⟨hsat, fun h => ?_⟩
  have hexact := hsat.symm.trans (h.1 .floor)
  rw [Rounding.toInt_max] at hexact
  have hvalue := congrArg PyInt.value (Except.ok.inj hexact)
  rw [value_intFromBigint, PyInt.value, toInt_of_signed (by decide)] at hvalue
  omega

end WeavePy.Math
