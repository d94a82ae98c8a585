import WeavePy.Decimal.Coef

/-!
Comparison of finite decimals: the word-sized path and the general one.
-/

namespace WeavePy.Decimal

/-- A finite decimal; the sign is 1 for `true`. -/
structure FinDec where
  sign : Bool
  coef : Coef
  exp : Int64

namespace FinDec

def isZero (d : FinDec) : Bool := d.coef.isZero

def adjusted (d : FinDec) : Outcome ℤ := do
  let n ← d.coef.ndigits
  .ok (d.exp.toInt + n - 1)

/-- The magnitude of the rational number that a decimal stands for. -/
def magnitude (d : FinDec) : ℚ := d.coef.toBig * 10 ^ d.exp.toInt

def value (d : FinDec) : ℚ := if d.sign then -d.magnitude else d.magnitude

end FinDec

/-- `u128::from(x) * u128::from(y)` -/
def mulU128 (x y : ℕ) : Outcome ℕ := if x * y < 2 ^ 128 then .ok (x * y) else .error .panic

/-- The word-sized magnitudes: the adjusted exponents, then the aligned coefficients. -/
def wordMagnitude (a b : FinDec) (x y : ℕ) : Outcome Ordering := do
  let aa := a.exp.toInt + (← digitsU128 x)
  let ba := b.exp.toInt + (← digitsU128 y)
  if aa ≠ ba then .ok (compare aa ba)
  else do
    let d := a.exp.toInt - b.exp.toInt
    let (px, py) ← if 0 ≤ d then do
        let p ← index pow10 d.toNat
        .ok (p % 2 ^ 64, 1)
      else do
        let p ← index pow10 (-d).toNat
        .ok (1, p % 2 ^ 64)
    let xs ← mulU128 x px
    let ys ← mulU128 y py
    .ok (compare xs ys)

/-- The general magnitudes; `none` when an aligned coefficient is too long. -/
def generalMagnitude (a b : FinDec) : Outcome (Option Ordering) := do
  let aa ← a.adjusted
  let ba ← b.adjusted
  if aa = ba then
    let (ae, be) := (a.exp.toInt, b.exp.toInt)
    if 2 ^ 64 ≤ max (ae - be) 0 then .ok none
    else
      match ← a.coef.mulPow10 (max (ae - be) 0).toNat with
      | none => .ok none
      | some ap =>
        if 2 ^ 64 ≤ max (be - ae) 0 then .ok none
        else
          match ← b.coef.mulPow10 (max (be - ae) 0).toNat with
          | none => .ok none
          | some bp => .ok (some (ap.cmp bp))
  else .ok (some (compare aa ba))

def neg (sign : Bool) : Ordering := if sign then .lt else .gt

/-- The order of two magnitudes under a common sign. -/
def signed (sign : Bool) (mag : Ordering) : Ordering := if sign then mag.swap else mag

def cmpGeneral (a b : FinDec) : Outcome (Option Ordering) :=
  if a.isZero then .ok (some (if b.isZero then .eq else (neg b.sign).swap))
  else if b.isZero then .ok (some (neg a.sign))
  else if b.sign < a.sign then .ok (some .lt)
  else if a.sign < b.sign then .ok (some .gt)
  else do
    let mag ← generalMagnitude a b
    .ok (mag.map (signed a.sign))

/-- `Decimal._cmp` for finite values. -/
def cmp (a b : FinDec) : Outcome (Option Ordering) :=
  match a.coef, b.coef with
  | .S x _, .S y _ =>
    if x < 2 ^ 64 ∧ y < 2 ^ 64 ∧ x ≠ 0 ∧ y ≠ 0 ∧ a.sign = b.sign then do
      let mag ← wordMagnitude a b x y
      .ok (some (signed a.sign mag))
    else cmpGeneral a b
  | _, _ => cmpGeneral a b

namespace FinDec

variable {a b : FinDec}

/-- The number of digits that the count misses. -/
def missed (d : FinDec) : ℤ := if d.coef.Undercounted then 1 else 0

/-- The decimal exponent of a decimal. -/
def exponent (d : FinDec) : ℤ := d.exp.toInt + Nat.log 10 d.coef.toBig

theorem adjusted_eq (h : a.coef.toBig < 10 ^ maxDigits) :
    a.adjusted = .ok (a.exponent - a.missed) := by
  obtain ⟨n, hn, hcount⟩ := Coef.ndigits_eq h
  unfold adjusted
  rw [hn, ok_bind]
  congr 1
  unfold exponent missed
  split_ifs at hcount ⊢ <;> push_cast at * <;> omega

theorem magnitude_lt (ha : a.isZero = false) (hb : b.isZero = false)
    (h : a.exponent < b.exponent) : a.magnitude < b.magnitude := by
  have hza : a.coef.toBig ≠ 0 := fun hz => by
    rw [isZero, Coef.isZero_iff.mpr hz] at ha
    nomatch ha
  have hzb : b.coef.toBig ≠ 0 := fun hz => by
    rw [isZero, Coef.isZero_iff.mpr hz] at hb
    nomatch hb
  unfold exponent at h
  exact scaled_lt hza hzb (by omega)

/-- A magnitude that the digit count puts one power of ten too low, beside an equally long one. -/
def Misjudged (a b : FinDec) : Prop :=
  a.coef.Undercounted ∧ ¬ b.coef.Undercounted ∧ a.exponent = b.exponent ∧
    b.magnitude ≤ a.magnitude

/-- The counted exponents order the magnitudes unless one is misjudged. -/
theorem compare_exponents (ha : a.isZero = false) (hb : b.isZero = false)
    (hne : a.exponent - a.missed ≠ b.exponent - b.missed) :
    compare (a.exponent - a.missed) (b.exponent - b.missed) = compare a.magnitude b.magnitude ↔
      ¬ (Misjudged a b ∨ Misjudged b a) := by
  unfold Misjudged
  have hmissed (d : FinDec) : d.missed = if d.coef.Undercounted then 1 else 0 := rfl
  rcases lt_trichotomy a.exponent b.exponent with h | h | h
  · have hcount : a.exponent - a.missed < b.exponent - b.missed := by
      rw [hmissed, hmissed] at hne ⊢
      split_ifs at hne ⊢ <;> omega
    rw [compare_lt_iff_lt.mpr hcount, compare_lt_iff_lt.mpr (magnitude_lt ha hb h)]
    simp only [h.ne, h.ne', false_and, and_false, or_self, not_false_eq_true]
  · simp only [h, hmissed] at hne ⊢
    by_cases hua : a.coef.Undercounted <;> by_cases hub : b.coef.Undercounted
    · simp only [hua, hub, ne_eq, not_true_eq_false] at hne
    · have hcount : b.exponent - 1 < b.exponent - 0 := by omega
      simp only [hua, hub, ↓reduceIte, compare_lt_iff_lt.mpr hcount, not_true_eq_false,
        not_false_eq_true, true_and, false_and, or_false, not_le]
      rw [eq_comm, compare_lt_iff_lt]
    · have hcount : b.exponent - 1 < b.exponent - 0 := by omega
      simp only [hua, hub, ↓reduceIte, compare_gt_iff_gt.mpr hcount, not_true_eq_false,
        not_false_eq_true, true_and, false_and, false_or, not_le]
      rw [eq_comm, compare_gt_iff_gt]
    · simp only [hua, hub, ne_eq, not_true_eq_false] at hne
  · have hcount : b.exponent - b.missed < a.exponent - a.missed := by
      rw [hmissed, hmissed] at hne ⊢
      split_ifs at hne ⊢ <;> omega
    rw [compare_gt_iff_gt.mpr hcount, compare_gt_iff_gt.mpr (magnitude_lt hb ha h)]
    simp only [h.ne, h.ne', false_and, and_false, or_self, not_false_eq_true]

/-- A misjudged magnitude has a counted exponent of its own. -/
theorem Misjudged.ne (h : Misjudged a b) : a.exponent - a.missed ≠ b.exponent - b.missed := by
  obtain ⟨hua, hub, hexp, -⟩ := h
  unfold missed
  rw [if_pos hua, if_neg hub, hexp]
  omega

theorem magnitude_compare (a b : FinDec) :
    compare a.magnitude b.magnitude =
      compare (a.coef.toBig * 10 ^ (a.exp.toInt - b.exp.toInt).toNat)
        (b.coef.toBig * 10 ^ (b.exp.toInt - a.exp.toInt).toNat) :=
  compare_scaled

end FinDec

open FinDec

variable {a b : FinDec}

theorem toNat_max (z : ℤ) : (max z 0).toNat = z.toNat := by omega

/-- With equal counted exponents the coefficients decide, and exactly. -/
theorem generalMagnitude_aligned (ha : a.coef.toBig < 10 ^ maxDigits)
    (hb : b.coef.toBig < 10 ^ maxDigits)
    (heq : a.exponent - a.missed = b.exponent - b.missed) :
    ∃ r, generalMagnitude a b = .ok r ∧ ∀ o ∈ r, o = compare a.magnitude b.magnitude := by
  unfold generalMagnitude
  rw [adjusted_eq ha, adjusted_eq hb, ok_bind, ok_bind, if_pos heq]
  dsimp only
  split
  · exact ⟨none, rfl, nofun⟩
  · obtain ⟨ap, hap, hae⟩ := a.coef.mulPow10_eq ha (max (a.exp.toInt - b.exp.toInt) 0).toNat
    rw [hap, ok_bind]
    cases ap with
    | none => exact ⟨none, rfl, nofun⟩
    | some ap =>
      dsimp only
      split
      · exact ⟨none, rfl, nofun⟩
      · obtain ⟨bp, hbp, hbe⟩ := b.coef.mulPow10_eq hb (max (b.exp.toInt - a.exp.toInt) 0).toNat
        rw [hbp, ok_bind]
        cases bp with
        | none => exact ⟨none, rfl, nofun⟩
        | some bp =>
          refine ⟨some (ap.cmp bp), rfl, fun o ho => ?_⟩
          rw [← Option.some.inj ho, Coef.cmp_eq, hae ap rfl, hbe bp rfl, magnitude_compare,
            toNat_max, toNat_max]

theorem generalMagnitude_counted (ha : a.coef.toBig < 10 ^ maxDigits)
    (hb : b.coef.toBig < 10 ^ maxDigits)
    (hne : a.exponent - a.missed ≠ b.exponent - b.missed) :
    generalMagnitude a b =
      .ok (some (compare (a.exponent - a.missed) (b.exponent - b.missed))) := by
  unfold generalMagnitude
  rw [adjusted_eq ha, adjusted_eq hb, ok_bind, ok_bind, if_neg hne]

/-- The magnitudes are ordered as numbers, unless one of them is misjudged. -/
theorem generalMagnitude_eq (ha : a.coef.toBig < 10 ^ maxDigits)
    (hb : b.coef.toBig < 10 ^ maxDigits) (hza : a.isZero = false) (hzb : b.isZero = false) :
    ∃ r, generalMagnitude a b = .ok r ∧
      ((∀ o ∈ r, o = compare a.magnitude b.magnitude) ↔ ¬ (Misjudged a b ∨ Misjudged b a)) := by
  by_cases heq : a.exponent - a.missed = b.exponent - b.missed
  · obtain ⟨r, hr, hexact⟩ := generalMagnitude_aligned ha hb heq
    refine ⟨r, hr, iff_of_true hexact ?_⟩
    rintro (h | h)
    · exact h.ne heq
    · exact h.ne heq.symm
  · refine ⟨_, generalMagnitude_counted ha hb heq, ?_⟩
    rw [← compare_exponents hza hzb heq]
    exact ⟨fun h => h _ rfl, fun h o ho => (Option.some.inj ho).symm.trans h⟩

theorem pow10_mod {k : ℕ} (hk : k < 20) : 10 ^ k % 2 ^ 64 = 10 ^ k := by
  have hpow : 10 ^ k ≤ 10 ^ 19 := Nat.pow_le_pow_right (by decide) (by omega)
  exact Nat.mod_eq_of_lt (hpow.trans_lt (by decide))

theorem mulU128_pow {v k : ℕ} (hv : v < 2 ^ 64) (hk : k < 20) :
    mulU128 v (10 ^ k) = .ok (v * 10 ^ k) := if_pos (Coef.mul_pow_lt hv hk)

theorem mulU128_one {v : ℕ} (hv : v < 2 ^ 64) : mulU128 v 1 = .ok (v * 10 ^ 0) := by
  rw [← mulU128_pow hv (show 0 < 20 by decide), pow_zero]

theorem log_word {v : ℕ} (hv : v < 2 ^ 64) : Nat.log 10 v < 20 := by
  have hdigits : v < 10 ^ 20 := hv.trans (by decide)
  exact Nat.log_lt_of_lt_pow' (by decide) hdigits

/-- On words the two paths give the same order. -/
theorem wordMagnitude_eq {x y : ℕ} {hx : x < 2 ^ 128} {hy : y < 2 ^ 128} (hca : a.coef = .S x hx)
    (hcb : b.coef = .S y hy) (hx' : x < 2 ^ 64) (hy' : y < 2 ^ 64) :
    ∃ o, wordMagnitude a b x y = .ok o ∧ generalMagnitude a b = .ok (some o) := by
  have hma : a.coef.ndigits = .ok (Nat.log 10 x + 1) := by rw [hca]; exact digitsU128_eq hx
  have hmb : b.coef.ndigits = .ok (Nat.log 10 y + 1) := by rw [hcb]; exact digitsU128_eq hy
  have hlx := log_word hx'
  have hly := log_word hy'
  unfold wordMagnitude generalMagnitude adjusted
  simp only [digitsU128_eq hx, digitsU128_eq hy, hma, hmb, ok_bind]
  by_cases heq : a.exp.toInt + ((Nat.log 10 x + 1 : ℕ) : ℤ) =
      b.exp.toInt + ((Nat.log 10 y + 1 : ℕ) : ℤ)
  · rw [if_neg (not_not.mpr heq), if_pos (congrArg (· - 1) heq)]
    have hka : (max (a.exp.toInt - b.exp.toInt) 0).toNat < 20 := by omega
    have hkb : (max (b.exp.toInt - a.exp.toInt) 0).toNat < 20 := by omega
    obtain ⟨ap, hap, hae⟩ := Coef.mulPow10_word hca hx' hka
    obtain ⟨bp, hbp, hbe⟩ := Coef.mulPow10_word hcb hy' hkb
    have hna : ¬ 2 ^ 64 ≤ max (a.exp.toInt - b.exp.toInt) 0 := by omega
    have hnb : ¬ 2 ^ 64 ≤ max (b.exp.toInt - a.exp.toInt) 0 := by omega
    rw [hap, hbp, if_neg hna, ok_bind]
    dsimp only
    rw [if_neg hnb, ok_bind]
    refine ⟨ap.cmp bp, ?_, rfl⟩
    rw [Coef.cmp_eq, hae, hbe]
    split
    next hd =>
      have hd' : b.exp.toInt - a.exp.toInt ≤ 0 := by omega
      rw [max_eq_left hd] at hka ⊢
      rw [max_eq_right hd', index_pow10 (by omega), ok_bind,
        pow10_mod hka, mulU128_pow hx' hka, mulU128_one hy']
      rfl
    next hd =>
      have hd' : 0 ≤ b.exp.toInt - a.exp.toInt := by omega
      rw [max_eq_left hd'] at hkb ⊢
      rw [max_eq_right (not_le.mp hd).le, neg_sub, index_pow10 (by omega), ok_bind,
        pow10_mod hkb, mulU128_pow hy' hkb, mulU128_one hx']
      rfl
  · rw [if_pos heq, if_neg (fun h => heq (by omega))]
    refine ⟨_, rfl, ?_⟩
    congr 2
    rw [← cmp_eq_compare, ← cmp_eq_compare, sub_eq_add_neg, sub_eq_add_neg, cmp_add_right]

namespace FinDec

theorem isZero_iff : a.isZero = true ↔ a.value = 0 := by
  have hpow : (10 : ℚ) ^ a.exp.toInt ≠ 0 := zpow_ne_zero _ (by norm_num)
  have hmag : a.magnitude = 0 ↔ a.coef.toBig = 0 := by
    rw [magnitude, mul_eq_zero, or_iff_left hpow, Nat.cast_eq_zero]
  unfold isZero value
  rw [Coef.isZero_iff, ← hmag]
  split
  · exact neg_eq_zero.symm
  · exact Iff.rfl

theorem magnitude_pos (h : a.isZero = false) : 0 < a.magnitude := by
  have hcoef : a.coef.toBig ≠ 0 := fun hz => by
    rw [isZero, Coef.isZero_iff.mpr hz] at h
    nomatch h
  unfold magnitude
  positivity

/-- Under a common sign the magnitudes decide, in reverse when they are negated. -/
theorem compare_value (h : a.sign = b.sign) :
    compare a.value b.value = signed a.sign (compare a.magnitude b.magnitude) := by
  unfold value signed
  rw [h]
  cases b.sign with
  | false => rfl
  | true =>
    simp only [↓reduceIte]
    rw [← cmp_eq_compare, ← cmp_eq_compare, cmp_swap, ← cmp_sub_zero, ← cmp_sub_zero b.magnitude]
    congr 1
    ring

theorem signed_inj {s : Bool} {o o' : Ordering} : signed s o = signed s o' ↔ o = o' := by
  cases s with
  | false => exact Iff.rfl
  | true => exact Ordering.swap_inj

/-- The comparison goes wrong: nonzero decimals of one sign, one of them misjudged. -/
def Misordered (a b : FinDec) : Prop :=
  a.isZero = false ∧ b.isZero = false ∧ a.sign = b.sign ∧ (Misjudged a b ∨ Misjudged b a)

end FinDec

/-- Against zero, the sign of the other decimal decides. -/
theorem compare_zero_value (ha : a.isZero = false) :
    compare a.value 0 = neg a.sign ∧ compare 0 a.value = (neg a.sign).swap := by
  have hpos := magnitude_pos ha
  unfold value neg
  cases a.sign with
  | false => exact ⟨compare_gt_iff_gt.mpr hpos, compare_lt_iff_lt.mpr hpos⟩
  | true =>
    exact ⟨compare_lt_iff_lt.mpr (neg_neg_of_pos hpos), compare_gt_iff_gt.mpr (neg_neg_of_pos hpos)⟩

/-- The general comparison answers with the order of the numbers, unless it goes wrong. -/
theorem cmpGeneral_eq (ha : a.coef.toBig < 10 ^ maxDigits) (hb : b.coef.toBig < 10 ^ maxDigits) :
    ∃ r, cmpGeneral a b = .ok r ∧
      ((∀ o ∈ r, o = compare a.value b.value) ↔ ¬ Misordered a b) := by
  have hright {r : Option Ordering} (h : r = some (compare a.value b.value)) (hn : ¬ Misordered a b) :
      (∀ o ∈ r, o = compare a.value b.value) ↔ ¬ Misordered a b := by
    refine iff_of_true (fun o ho => ?_) hn
    rw [h] at ho
    exact (Option.some.inj ho).symm
  unfold cmpGeneral
  split
  next hza =>
    refine ⟨_, rfl, hright (congrArg some ?_) fun h => by rw [h.1] at hza; nomatch hza⟩
    rw [isZero_iff.mp hza]
    split
    next hzb => rw [isZero_iff.mp hzb, compare_eq_iff_eq.mpr rfl]
    next hzb => exact (compare_zero_value (Bool.not_eq_true _ ▸ hzb)).2.symm
  next hza =>
    rw [Bool.not_eq_true] at hza
    split
    next hzb =>
      refine ⟨_, rfl, hright (congrArg some ?_) fun h => by rw [h.2.1] at hzb; nomatch hzb⟩
      rw [isZero_iff.mp hzb]
      exact (compare_zero_value hza).1.symm
    next hzb =>
      rw [Bool.not_eq_true] at hzb
      have hposa := magnitude_pos hza
      have hposb := magnitude_pos hzb
      split
      next hlt =>
        obtain ⟨hsb, hsa⟩ := Bool.lt_iff.mp hlt
        refine ⟨_, rfl, hright (congrArg some ?_) fun h => by rw [h.2.2.1, hsb] at hsa; nomatch hsa⟩
        unfold value
        rw [hsa, hsb]
        exact (compare_lt_iff_lt.mpr ((neg_neg_of_pos hposa).trans hposb)).symm
      next hlt =>
        split
        next hlt' =>
          obtain ⟨hsa, hsb⟩ := Bool.lt_iff.mp hlt'
          refine ⟨_, rfl, hright (congrArg some ?_) fun h => by
            rw [h.2.2.1, hsb] at hsa; nomatch hsa⟩
          unfold value
          rw [hsa, hsb]
          exact (compare_gt_iff_gt.mpr ((neg_neg_of_pos hposb).trans hposa)).symm
        next hlt' =>
          have hsign : a.sign = b.sign := le_antisymm (not_lt.mp hlt) (not_lt.mp hlt')
          obtain ⟨r, hr, hiff⟩ := generalMagnitude_eq ha hb hza hzb
          rw [hr, ok_bind]
          refine ⟨_, rfl, ?_⟩
          rw [compare_value hsign, Misordered, and_iff_right hza, and_iff_right hzb,
            and_iff_right hsign, ← hiff]
          cases r with
          | none => exact iff_of_true nofun nofun
          | some o =>
            constructor
            · intro h o' ho'
              rw [← Option.some.inj ho']
              exact signed_inj.mp (h _ rfl)
            · intro h o' ho'
              rw [← Option.some.inj ho', h o rfl]

/-- The word-sized path answers as the general one. -/
theorem cmp_eq_general (a b : FinDec) : cmp a b = cmpGeneral a b := by
  unfold cmp
  split
  next x hx y hy hca hcb =>
    split
    next h =>
      obtain ⟨hx', hy', hx0, hy0, hsign⟩ := h
      obtain ⟨o, hword, hgeneral⟩ := wordMagnitude_eq hca hcb hx' hy'
      have hza : a.isZero = false := by
        rw [isZero, hca]
        exact beq_eq_false_iff_ne.mpr hx0
      have hzb : b.isZero = false := by
        rw [isZero, hcb]
        exact beq_eq_false_iff_ne.mpr hy0
      rw [cmpGeneral, hza, hzb, if_neg nofun, if_neg nofun, hsign, if_neg (lt_irrefl _),
        if_neg (lt_irrefl _), hword, hgeneral]
      rfl
    · rfl
  · rfl

end WeavePy.Decimal
