import WeavePy.Decimal.Compare
import WeavePy.Lib.Residue

/-!
The hash of a finite decimal, and what comparison and hashing see of it.
-/

namespace WeavePy.Decimal

/-- `M` -/
def hashModulus : ℕ := 2 ^ 61 - 1

/-- `INV10` -/
def inv10 : ℕ := 2075258708292324556

/-- `x mod (2**61 - 1)`, by two folds. -/
def reduce (x : ℕ) : UInt64 :=
  let x := UInt64.ofNat (mersenneFold 61 (mersenneFold 61 x))
  if UInt64.ofNat hashModulus ≤ x then x - UInt64.ofNat hashModulus else x

def mulmod (a b : UInt64) : UInt64 := reduce (a.toNat * b.toNat)

def powmod (b : UInt64) (e : ℕ) : UInt64 := squareMultiply mulmod b e 1

/-- `Decimal.__hash__` for a finite value. -/
def hash (d : FinDec) : ℤ :=
  let expHash :=
    if 0 ≤ d.exp.toInt then powmod 10 d.exp.toInt.toNat
    else powmod (UInt64.ofNat inv10) d.exp.toInt.natAbs
  let c := match d.coef with
    | .S v _ => reduce v
    | .B n _ => UInt64.ofNat (n % hashModulus)
  let h : ℤ := (mulmod c expHash).toNat
  let ans := if d.sign ∧ ¬ d.isZero then -h else h
  if ans = -1 then -2 else ans

/-- The numeric hash of the rational numbers that have one modulo 2 ^ 61 - 1. -/
def numericHash (x : ℚ) : ℤ :=
  let h : ℤ := (ratResidue hashModulus x).val
  let ans := if x < 0 then -h else h
  if ans = -1 then -2 else ans

instance : NeZero hashModulus := ⟨by decide⟩

theorem reduce_toNat {x : ℕ} (h : x < 2 ^ 128) : (reduce x).toNat = x % hashModulus := by
  have hfold : mersenneFold 61 x < 2 ^ 61 + 2 ^ 67 := mersenneFold_lt h
  have hfold' : mersenneFold 61 (mersenneFold 61 x) < 2 ^ 61 + 2 ^ 7 :=
    mersenneFold_lt (hfold.trans (by decide))
  have hmod : mersenneFold 61 (mersenneFold 61 x) % hashModulus = x % hashModulus :=
    (mersenneFold_modEq 61 _).trans (mersenneFold_modEq 61 x)
  have hword : (UInt64.ofNat (mersenneFold 61 (mersenneFold 61 x))).toNat =
      mersenneFold 61 (mersenneFold 61 x) :=
    UInt64.toNat_ofNat_of_lt' (hfold'.trans (by decide))
  have hm : (UInt64.ofNat hashModulus).toNat = hashModulus := rfl
  have hval : hashModulus = 2 ^ 61 - 1 := rfl
  unfold reduce
  dsimp only
  split
  next hle =>
    rw [UInt64.toNat_sub_of_le _ _ hle, hword, hm, ← hmod]
    rw [UInt64.le_iff_toNat_le, hword, hm] at hle
    rw [Nat.mod_eq_sub_mod hle, Nat.mod_eq_of_lt]
    omega
  next hlt =>
    rw [UInt64.le_iff_toNat_le, hword, hm] at hlt
    rw [hword, ← hmod, Nat.mod_eq_of_lt (not_le.mp hlt)]

theorem mulmod_toNat (a b : UInt64) : (mulmod a b).toNat = a.toNat * b.toNat % hashModulus := by
  apply reduce_toNat
  calc a.toNat * b.toNat < 2 ^ 64 * 2 ^ 64 := Nat.mul_lt_mul'' a.toNat_lt b.toNat_lt
    _ = 2 ^ 128 := by decide

/-- The residue that a word stands for. -/
def residue (a : UInt64) : ZMod hashModulus := a.toNat

theorem residue_mulmod (a b : UInt64) : residue (mulmod a b) = residue a * residue b := by
  rw [residue, mulmod_toNat, ZMod.natCast_mod, Nat.cast_mul]
  rfl

theorem residue_powmod (b : UInt64) (e : ℕ) : residue (powmod b e) = residue b ^ e := by
  rw [powmod, squareMultiply_map residue residue_mulmod]
  exact (congrArg (· * residue b ^ e) Nat.cast_one).trans (one_mul _)

theorem ten_inv10 : ((10 : ℕ) * (inv10 : ℕ) : ZMod hashModulus) = 1 := by
  rw [← Nat.cast_mul]
  exact (ZMod.natCast_eq_natCast_iff' _ 1 _).mpr (by decide) |>.trans Nat.cast_one

theorem coprime_ten (k : ℕ) : (10 ^ k).Coprime hashModulus :=
  Nat.Coprime.pow_left k (by decide)

theorem residue_coef (c : Coef) :
    residue (match c with
      | .S v _ => reduce v
      | .B n _ => UInt64.ofNat (n % hashModulus)) = (c.toBig : ZMod hashModulus) := by
  cases c with
  | S v h =>
    dsimp only
    rw [residue, reduce_toNat h, ZMod.natCast_mod]
    rfl
  | B n h =>
    have hlt : n % hashModulus < 2 ^ 64 :=
      (Nat.mod_lt n (by decide)).trans (by decide)
    dsimp only
    rw [residue, UInt64.toNat_ofNat_of_lt' hlt, ZMod.natCast_mod]
    rfl

/-- The residue of the magnitude. -/
theorem residue_magnitude (d : FinDec) :
    ratResidue hashModulus d.magnitude =
      d.coef.toBig * if 0 ≤ d.exp.toInt then (10 : ZMod hashModulus) ^ d.exp.toInt.toNat
        else (inv10 : ZMod hashModulus) ^ d.exp.toInt.natAbs := by
  split
  next h =>
    have hmag : d.magnitude = ((d.coef.toBig * 10 ^ d.exp.toInt.toNat : ℕ) : ℚ) / (1 : ℕ) := by
      have hexp : (10 : ℚ) ^ d.exp.toInt = 10 ^ d.exp.toInt.toNat := by
        rw [← zpow_natCast, Int.toNat_of_nonneg h]
      rw [FinDec.magnitude, hexp]
      push_cast
      rw [div_one]
    rw [ratResidue_div hmag one_ne_zero (Nat.coprime_one_left _) (i := 1) (by push_cast; rw [mul_one])]
    push_cast
    rw [mul_one]
  next h =>
    have hmag : d.magnitude = (d.coef.toBig : ℚ) / (10 ^ d.exp.toInt.natAbs : ℕ) := by
      have hexp : (10 : ℚ) ^ d.exp.toInt = (10 ^ d.exp.toInt.natAbs)⁻¹ := by
        rw [← zpow_natCast, ← zpow_neg]
        congr 1
        omega
      rw [FinDec.magnitude, hexp, ← div_eq_mul_inv]
      push_cast
      rfl
    have hinv : ((10 ^ d.exp.toInt.natAbs : ℕ) * (inv10 ^ d.exp.toInt.natAbs : ℕ) : ZMod hashModulus) = 1 := by
      rw [Nat.cast_pow, Nat.cast_pow, ← mul_pow, ten_inv10, one_pow]
    rw [ratResidue_div hmag (by positivity) (coprime_ten _) hinv, Nat.cast_pow]

theorem ratResidue_value (d : FinDec) :
    ratResidue hashModulus d.value = ratResidue hashModulus d.magnitude := by
  unfold FinDec.value
  split
  · exact ratResidue_neg _
  · rfl

theorem FinDec.value_neg_iff (d : FinDec) : d.value < 0 ↔ d.sign ∧ ¬ d.isZero := by
  cases hz : d.isZero with
  | true => simp [FinDec.isZero_iff.mp hz]
  | false =>
    have hpos := FinDec.magnitude_pos hz
    unfold FinDec.value
    cases d.sign with
    | false => simp [hpos.le]
    | true => simp [hpos]

/-- Hashing sees only the value. -/
theorem hash_eq (d : FinDec) : hash d = numericHash d.value := by
  have hword (a b : UInt64) : ((mulmod a b).toNat : ℤ) = (residue a * residue b).val := by
    have hlt : (mulmod a b).toNat < hashModulus := by
      rw [mulmod_toNat]
      exact Nat.mod_lt _ (by decide)
    rw [← residue_mulmod, residue, ZMod.val_natCast_of_lt hlt]
  have hten : residue 10 = 10 := rfl
  have hinv : residue (UInt64.ofNat inv10) = inv10 := rfl
  unfold hash numericHash
  simp only [hword, residue_coef, FinDec.value_neg_iff, ratResidue_value, residue_magnitude,
    apply_ite residue, residue_powmod, hten, hinv]

/-- Comparison and hashing see only the values of two decimals. -/
def SeesValues (a b : FinDec) : Prop :=
  (∃ r, cmp a b = .ok r ∧ cmpGeneral a b = .ok r ∧ ∀ o ∈ r, o = compare a.value b.value) ∧
  hash a = numericHash a.value ∧ hash b = numericHash b.value ∧
  (cmp a b = .ok (some .eq) → hash a = hash b)

/-- The comparison is by value, and the hash follows it, unless a digit count that misses a digit
decides between two equally long numbers. -/
theorem cmp_hash_sees_values {a b : FinDec} (ha : a.coef.toBig < 10 ^ maxDigits)
    (hb : b.coef.toBig < 10 ^ maxDigits) :
    SeesValues a b ↔ ¬ FinDec.Misordered a b := by
  obtain ⟨r, hr, hiff⟩ := cmpGeneral_eq ha hb
  have hcmp : cmp a b = .ok r := (cmp_eq_general a b).trans hr
  rw [← hiff]
  constructor
  · rintro ⟨⟨r', hr', -, hvalue⟩, -⟩
    rwa [Except.ok.inj (hcmp.symm.trans hr')]
  · intro h
    refine ⟨⟨r, hcmp, hr, h⟩, hash_eq a, hash_eq b, fun heq => ?_⟩
    have hvalue := h .eq (Except.ok.inj (hcmp.symm.trans heq))
    rw [hash_eq, hash_eq, compare_eq_iff_eq.mp hvalue.symm]

/-- 1 and 1.0 -/
theorem one_point_zero : SeesValues ⟨false, .S 1 (by decide), 0⟩ ⟨false, .S 10 (by decide), -1⟩ :=
  (cmp_hash_sees_values (Coef.lt_maxDigits (by decide)) (Coef.lt_maxDigits (by decide))).mpr (by
    rintro ⟨-, -, -, ⟨h, -⟩ | ⟨h, -⟩⟩
    · exact h
    · exact h)

def writtenOut : FinDec := ⟨false, .B (10 ^ 205) (by decide +kernel), 0⟩

def scientific : FinDec := ⟨false, .S 1 (by decide), 205⟩

theorem writtenOut_value : writtenOut.value = scientific.value := by
  have hone : ((1 : ℕ) : ℚ) = 1 := Nat.cast_one
  have hzero : (0 : Int64).toInt = 0 := rfl
  have hexp : (205 : Int64).toInt = ((205 : ℕ) : ℤ) := rfl
  change ((10 ^ 205 : ℕ) : ℚ) * 10 ^ (0 : Int64).toInt = ((1 : ℕ) : ℚ) * 10 ^ (205 : Int64).toInt
  rw [hone, hzero, hexp, zpow_zero, mul_one, one_mul, zpow_natCast, Nat.cast_pow, Nat.cast_ofNat]

/-- A power of ten written out is less than the same number in scientific notation. -/
theorem written_out_less :
    cmp writtenOut scientific = .ok (some .lt) ∧ ¬ SeesValues writtenOut scientific := by
  have hcmp : cmp writtenOut scientific = .ok (some .lt) := by decide +kernel
  refine ⟨hcmp, ?_⟩
  rintro ⟨⟨r, hr, -, hvalue⟩, -⟩
  have hlt := hvalue .lt (Except.ok.inj (hr.symm.trans hcmp))
  rw [writtenOut_value, compare_eq_iff_eq.mpr rfl] at hlt
  nomatch hlt

end WeavePy.Decimal
