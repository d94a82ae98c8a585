import WeavePy.Decimal.Compare
import WeavePy.Lib.Numeral
import Mathlib.Data.List.Basic

/-!
The decimal text of a finite decimal.
-/

namespace WeavePy.Decimal

section Format

/-- The digits below 10 ^ 19: all nineteen of them in front of a high part. -/
def formatLow (pad : Bool) : ℕ → ℕ → List Char → Outcome (ℕ × List Char)
  | 0, _, _ => .error .panic
  | i + 1, lo, buf =>
    let buf := Nat.digitChar (lo % 10) :: buf
    let lo := lo / 10
    if lo = 0 ∧ (¬ pad ∨ 40 - i = 19) then .ok (i, buf) else formatLow pad i lo buf

/-- The zeros that pad the low part. -/
def formatPad (pad : Bool) : ℕ → List Char → Outcome (ℕ × List Char)
  | 0, buf => if pad ∧ 40 - 0 < 19 then .error .panic else .ok (0, buf)
  | i + 1, buf => if pad ∧ 40 - (i + 1) < 19 then formatPad pad i ('0' :: buf) else .ok (i + 1, buf)

def formatHigh : ℕ → ℕ → List Char → Outcome (List Char)
  | 0, hi, buf => if hi = 0 then .ok buf else .error .panic
  | i + 1, hi, buf =>
    if hi = 0 then .ok buf else formatHigh i (hi / 10) (Nat.digitChar (hi % 10) :: buf)

/-- `format_u128`: the digits written at the end of the forty bytes. -/
def formatU128 (v : ℕ) : Outcome (List Char) := do
  let (hi, lo) ← if 2 ^ 64 - 1 < v then do
      let p ← index pow10 19
      .ok (v / p, v % p % 2 ^ 64)
    else .ok (0, v)
  let pad : Bool := hi ≠ 0
  let (i, buf) ← formatLow pad 40 lo []
  let (i, buf) ← formatPad pad i buf
  formatHigh i hi buf

end Format

/-- `Coef::to_digits` -/
def Coef.toDigits : Coef → Outcome (List Char)
  | .S v _ => formatU128 v
  | .B n _ => .ok (Nat.toDigits 10 n)

/-- The decimal text of a machine integer. -/
def intText (e : ℤ) : List Char :=
  if e < 0 then '-' :: Nat.toDigits 10 e.natAbs else Nat.toDigits 10 e.natAbs

/-- `Decimal.__str__` for a finite value. -/
def toSci (d : FinDec) (eng capitals : Bool) : Outcome (List Char) := do
  let digits ← d.coef.toDigits
  let len : ℤ := digits.length
  let exp := d.exp.toInt
  let leftdigits := exp + len
  let dotplace :=
    if exp ≤ 0 ∧ -6 < leftdigits then leftdigits
    else if ¬ eng then 1
    else if d.coef.isZero then (leftdigits + 1) % 3 - 1
    else (leftdigits - 1) % 3 + 1
  let out := if d.sign then ['-'] else []
  let out := out ++
    if dotplace ≤ 0 then '0' :: '.' :: (List.replicate (-dotplace).toNat '0' ++ digits)
    else if len ≤ dotplace then digits ++ List.replicate (dotplace - len).toNat '0'
    else digits.take dotplace.toNat ++ '.' :: digits.drop dotplace.toNat
  .ok (if leftdigits ≠ dotplace then
      let e := leftdigits - dotplace
      out ++ (if capitals then 'E' else 'e') :: ((if 0 ≤ e then ['+'] else []) ++ intText e)
    else out)

section Format

/-- Printing the high part, with enough room. -/
theorem formatHigh_eq {i hi : ℕ} (h : hi < 10 ^ i) (buf : List Char) :
    formatHigh i hi buf = .ok ((if hi = 0 then [] else Nat.toDigits 10 hi) ++ buf) := by
  induction i generalizing hi buf with
  | zero =>
    have hz : hi = 0 := by simpa using h
    rw [formatHigh, if_pos hz, if_pos hz, List.nil_append]
  | succ i ih =>
    rw [formatHigh]
    split
    · rfl
    next hne =>
      have hdiv : hi / 10 < 10 ^ i := by
        apply Nat.div_lt_of_lt_mul
        rwa [← pow_succ']
      rw [ih hdiv]
      congr 1
      split
      next hz =>
        have hlt : hi < 10 := by omega
        rw [Nat.toDigits_of_lt_base hlt, Nat.mod_eq_of_lt hlt]
        rfl
      next hz =>
        rw [Nat.toDigits_of_base_le (by decide) (show 10 ≤ hi by omega), List.append_assoc]
        rfl

/-- Printing a part on its own. -/
theorem formatLow_plain {i lo : ℕ} (h : lo < 10 ^ i) (hi : 0 < i) (buf : List Char) :
    ∃ k, formatLow false i lo buf = .ok (k, Nat.toDigits 10 lo ++ buf) := by
  induction i generalizing lo buf with
  | zero => omega
  | succ i ih =>
    rw [formatLow]
    split
    next hz =>
      have hlt : lo < 10 := by omega
      refine ⟨i, ?_⟩
      rw [Nat.toDigits_of_lt_base hlt, Nat.mod_eq_of_lt hlt]
      rfl
    next hz =>
      have hge : 10 ≤ lo := by
        by_contra hlt
        exact hz ⟨by omega, .inl nofun⟩
      have hdiv : lo / 10 < 10 ^ i := by
        apply Nat.div_lt_of_lt_mul
        rwa [← pow_succ']
      have hroom : 0 < i := by
        rcases Nat.eq_zero_or_pos i with rfl | hpos
        · omega
        · exact hpos
      obtain ⟨k, hk⟩ := ih hdiv hroom (Nat.digitChar (lo % 10) :: buf)
      refine ⟨k, ?_⟩
      rw [hk, Nat.toDigits_of_base_le (by decide) hge, List.append_assoc]
      rfl

/-- The digits of a number, padded with zeros to a length. -/
def paddedDigits : ℕ → ℕ → List Char
  | 0, _ => []
  | k + 1, n => paddedDigits k (n / 10) ++ [Nat.digitChar (n % 10)]

/-- Printing the low part in front of a high one: all the digits that are missing to nineteen. -/
theorem formatLow_padded {k lo : ℕ} (h : lo < 10 ^ (k + 1)) (hk : k < 19) (buf : List Char) :
    formatLow true (22 + k) lo buf = .ok (21, paddedDigits (k + 1) lo ++ buf) := by
  induction k generalizing lo buf with
  | zero =>
    have hlt : lo < 10 := by simpa using h
    rw [formatLow, if_pos ⟨by omega, .inr rfl⟩, Nat.mod_eq_of_lt hlt, paddedDigits, Nat.mod_eq_of_lt hlt]
    rfl
  | succ k ih =>
    have hdiv : lo / 10 < 10 ^ (k + 1) := by
      apply Nat.div_lt_of_lt_mul
      rwa [← pow_succ']
    have hpadded : paddedDigits (k + 1 + 1) lo =
        paddedDigits (k + 1) (lo / 10) ++ [Nat.digitChar (lo % 10)] := rfl
    have hmore : ¬ (lo / 10 = 0 ∧ (¬ (true = true) ∨ 40 - (22 + k) = 19)) := by
      rintro ⟨-, hpad | hroom⟩
      · exact hpad rfl
      · omega
    rw [← Nat.add_assoc, formatLow, if_neg hmore, ih hdiv (by omega), hpadded, List.append_assoc]
    rfl

/-- A number's digits are those of its high part, then the low part's with its leading zeros. -/
theorem toDigits_split {hi lo k : ℕ} (hhi : hi ≠ 0) (hlo : lo < 10 ^ k) :
    Nat.toDigits 10 (hi * 10 ^ k + lo) = Nat.toDigits 10 hi ++ paddedDigits k lo := by
  induction k generalizing lo with
  | zero =>
    have hz : lo = 0 := by simpa using hlo
    rw [hz, pow_zero, mul_one, paddedDigits, List.append_nil, Nat.add_zero]
  | succ k ih =>
    have hdiv : lo / 10 < 10 ^ k := by
      apply Nat.div_lt_of_lt_mul
      rwa [← pow_succ']
    have hsplit : hi * 10 ^ (k + 1) + lo = 10 * (hi * 10 ^ k + lo / 10) + lo % 10 := by
      have hscale : hi * 10 ^ (k + 1) = 10 * (hi * 10 ^ k) := by ring
      omega
    have hpos : 0 < hi * 10 ^ k + lo / 10 := by positivity
    rw [hsplit, ← Nat.toDigits_append_toDigits (by decide) hpos (Nat.mod_lt _ (by decide)), ih hdiv,
      Nat.toDigits_of_lt_base (Nat.mod_lt _ (by decide)), paddedDigits, List.append_assoc]

theorem formatPad_done {pad : Bool} {i : ℕ} (h : i ≤ 21 ∨ pad = false) (buf : List Char) :
    formatPad pad i buf = .ok (i, buf) := by
  have hstop (i : ℕ) (h : i ≤ 21 ∨ pad = false) : ¬ (pad = true ∧ 40 - i < 19) := by
    rintro ⟨hp, hi⟩
    rcases h with h | h
    · omega
    · exact Bool.noConfusion (h.symm.trans hp)
  cases i with
  | zero => rw [formatPad, if_neg (hstop 0 h)]
  | succ i => rw [formatPad, if_neg (hstop (i + 1) h)]

/-- The two halves of a word print its digits. -/
theorem formatU128_eq {v : ℕ} (h : v < 2 ^ 128) : formatU128 v = .ok (Nat.toDigits 10 v) := by
  unfold formatU128
  split
  next hbig =>
    have hmod : v % 10 ^ 19 < 10 ^ 19 := Nat.mod_lt _ (by decide)
    have hhi : v / 10 ^ 19 ≠ 0 := by
      have : 10 ^ 19 ≤ v := (show 10 ^ 19 ≤ 2 ^ 64 by decide).trans (by omega)
      exact (Nat.div_pos this (by decide)).ne'
    have hroom : v / 10 ^ 19 < 10 ^ 21 := by
      apply Nat.div_lt_of_lt_mul
      exact h.trans (by decide)
    have hlow := formatLow_padded (k := 18) hmod (by decide) []
    rw [index_pow10 (by decide), ok_bind, ok_bind, Nat.mod_eq_of_lt (hmod.trans (by decide))]
    dsimp only
    rw [decide_eq_true hhi, hlow, ok_bind]
    dsimp only
    rw [formatPad_done (.inl le_rfl), ok_bind]
    dsimp only
    rw [formatHigh_eq hroom, if_neg hhi, List.append_nil, ← toDigits_split hhi hmod,
      Nat.div_add_mod']
  next hsmall =>
    obtain ⟨k, hk⟩ := formatLow_plain (i := 40) (show v < 10 ^ 40 from h.trans (by decide)) (by decide) []
    rw [ok_bind]
    dsimp only
    rw [decide_eq_false (not_not.mpr rfl), hk, ok_bind]
    dsimp only
    rw [formatPad_done (.inr rfl), ok_bind]
    dsimp only
    rw [formatHigh_eq (Nat.pow_pos (by decide)), if_pos rfl, List.append_nil, List.nil_append]

theorem Coef.toDigits_eq (c : Coef) : c.toDigits = .ok (Nat.toDigits 10 c.toBig) := by
  cases c with
  | S v h => exact formatU128_eq h
  | B n h => rfl

end Format

section Shape

/-- The exponent part that is printed for `e`. -/
def printedExp (capitals : Bool) (e : ℤ) : NumeralExp where
  capital := capitals
  sign := some (decide (e < 0))
  digits := Nat.toDigits 10 e.natAbs
  isDigit _ := isDigit_toDigits
  nonempty := Nat.toDigits_ne_nil

theorem printedExp_text (capitals : Bool) (e : ℤ) :
    (printedExp capitals e).text =
      (if capitals then 'E' else 'e') :: ((if 0 ≤ e then ['+'] else []) ++ intText e) := by
  unfold NumeralExp.text printedExp intText
  congr 1
  by_cases he : e < 0
  · rw [if_neg (not_le.mpr he), if_pos he, decide_eq_true he]
    rfl
  · rw [if_pos (not_lt.mp he), if_neg he, decide_eq_false he]
    rfl

theorem printedExp_value (capitals : Bool) (e : ℤ) : (printedExp capitals e).value = e := by
  unfold NumeralExp.value printedExp
  dsimp only
  rw [digitsValue_toDigits]
  by_cases he : e < 0
  · rw [decide_eq_true he, if_pos rfl]
    omega
  · rw [decide_eq_false he, if_neg nofun]
    omega

/-- A numeral as it is printed, from its digits around the point. -/
def printedNumeral (sign capitals : Bool) (int : List Char) (frac : Option (List Char)) (e : ℤ)
    (hint : ∀ c ∈ int, c.isDigit) (hfrac : ∀ c ∈ frac.getD [], c.isDigit) (hne : int ≠ []) :
    Numeral where
  sign := if sign then some true else none
  int := int
  frac := frac
  exp := if e ≠ 0 then some (printedExp capitals e) else none
  int_isDigit := hint
  frac_isDigit := hfrac
  nonempty h := hne h.1

variable {sign capitals : Bool} {int : List Char} {frac : Option (List Char)} {e : ℤ}
  {hint : ∀ c ∈ int, c.isDigit} {hfrac : ∀ c ∈ frac.getD [], c.isDigit} {hne : int ≠ []}

theorem printedNumeral_negative :
    (printedNumeral sign capitals int frac e hint hfrac hne).negative = sign := by
  unfold Numeral.negative printedNumeral
  cases sign <;> rfl

theorem printedNumeral_expValue :
    (printedNumeral sign capitals int frac e hint hfrac hne).expValue = e := by
  unfold Numeral.expValue printedNumeral
  dsimp only
  split
  · exact printedExp_value capitals e
  next h => exact (not_not.mp h).symm

theorem printedNumeral_text {l : ℤ} {p : ℤ} {body : List Char} (he : e = l - p)
    (hbody : body = int ++ frac.elim [] ('.' :: ·)) :
    (printedNumeral sign capitals int frac e hint hfrac hne).text =
      if l ≠ p then
        ((if sign then ['-'] else []) ++ body) ++
          (if capitals then 'E' else 'e') :: ((if 0 ≤ l - p then ['+'] else []) ++ intText (l - p))
      else (if sign then ['-'] else []) ++ body := by
  have hsign : signText (if sign then some true else none) = if sign then ['-'] else [] := by
    cases sign <;> rfl
  unfold Numeral.text Numeral.fracText Numeral.expText printedNumeral
  dsimp only
  rw [hsign, hbody]
  by_cases h : l = p
  · have hz : ¬ e ≠ 0 := by omega
    rw [if_neg (not_not.mpr h), if_neg hz, Option.elim_none, List.append_nil]
  · have hz : e ≠ 0 := by omega
    rw [if_pos h, if_pos hz, Option.elim_some, printedExp_text, he, List.append_assoc,
      List.append_assoc]

end Shape

variable {c : Coef}

theorem all_isDigit_replicate (k : ℕ) : ∀ c ∈ List.replicate k '0', c.isDigit := by
  intro c hc
  rw [List.eq_of_mem_replicate hc]
  rfl

theorem isDigit_append {l m : List Char} (hl : ∀ c ∈ l, c.isDigit) (hm : ∀ c ∈ m, c.isDigit) :
    ∀ c ∈ l ++ m, c.isDigit := by
  intro c hc
  rcases List.mem_append.mp hc with h | h
  · exact hl c h
  · exact hm c h

/-- What is printed is a numeral of the decimal's sign, with its coefficient and exponent, up to
the zeros that the engineering notation appends. -/
theorem toSci_numeral (d : FinDec) (eng capitals : Bool) :
    ∃ (n : Numeral) (z : ℕ), toSci d eng capitals = .ok n.text ∧ n.negative = d.sign ∧
      digitsValue n.digits = d.coef.toBig * 10 ^ z ∧ n.exponent = d.exp.toInt - z ∧
      (eng = false → z = 0) ∧
      n.fracDigits.length ≤ (Nat.toDigits 10 d.coef.toBig).length + 5 := by
  unfold toSci
  rw [Coef.toDigits_eq, ok_bind]
  dsimp only
  generalize hdigits : Nat.toDigits 10 d.coef.toBig = digits
  have hvalue : digitsValue digits = d.coef.toBig := by rw [← hdigits, digitsValue_toDigits]
  have hall : ∀ c ∈ digits, c.isDigit := by
    rw [← hdigits]
    exact fun c => isDigit_toDigits
  have hlen : 0 < digits.length := by
    rw [← hdigits]
    exact Nat.length_toDigits_pos
  generalize hp : (if d.exp.toInt ≤ 0 ∧ -6 < d.exp.toInt + (digits.length : ℤ) then
      d.exp.toInt + (digits.length : ℤ)
    else if ¬ eng = true then 1
    else if d.coef.isZero = true then (d.exp.toInt + (digits.length : ℤ) + 1) % 3 - 1
    else (d.exp.toInt + (digits.length : ℤ) - 1) % 3 + 1) = p
  have hplain : eng = false → p ≤ digits.length := by
    intro heng
    rw [heng] at hp
    split_ifs at hp <;> first | omega | contradiction
  have hlow : -6 < p := by
    split_ifs at hp <;> omega
  rcases le_or_gt p 0 with hneg | hpos
  · refine ⟨printedNumeral d.sign capitals ['0'] (some (List.replicate (-p).toNat '0' ++ digits))
      (d.exp.toInt + digits.length - p) (fun c hc => List.mem_singleton.mp hc ▸ rfl)
      (isDigit_append (all_isDigit_replicate _) hall) nofun, 0, ?_, printedNumeral_negative, ?_, ?_,
      fun _ => rfl, ?_⟩
    · rw [printedNumeral_text (l := d.exp.toInt + digits.length) (p := p) rfl rfl, if_pos hneg]
      rfl
    · change digitsValue (['0'] ++ (List.replicate (-p).toNat '0' ++ digits)) = _
      have hzero : digitsValue ['0'] = 0 := rfl
      rw [digitsValue_append, digitsValue_append, digitsValue_replicate_zero, hvalue, hzero,
        Nat.zero_mul, Nat.zero_mul, Nat.zero_add, Nat.zero_add, pow_zero, mul_one]
    · rw [Numeral.exponent, printedNumeral_expValue]
      change _ - ((List.replicate (-p).toNat '0' ++ digits).length : ℤ) = _
      rw [List.length_append, List.length_replicate]
      push_cast
      omega
    · change (List.replicate (-p).toNat '0' ++ digits).length ≤ _
      rw [List.length_append, List.length_replicate]
      omega
  · rcases le_or_gt (digits.length : ℤ) p with hlong | hshort
    · refine ⟨printedNumeral d.sign capitals (digits ++ List.replicate (p - digits.length).toNat '0')
        none (d.exp.toInt + digits.length - p) (isDigit_append hall (all_isDigit_replicate _)) nofun
        (List.append_ne_nil_of_left_ne_nil (List.ne_nil_of_length_pos hlen) _),
        (p - digits.length).toNat, ?_, printedNumeral_negative, ?_, ?_, ?_, ?_⟩
      · rw [printedNumeral_text (l := d.exp.toInt + digits.length) (p := p) rfl rfl,
          if_neg (not_le.mpr hpos), if_pos hlong]
        simp
      · change digitsValue ((digits ++ List.replicate (p - digits.length).toNat '0') ++ []) = _
        rw [List.append_nil, digitsValue_append, digitsValue_replicate_zero, hvalue,
          List.length_replicate, Nat.add_zero]
      · rw [Numeral.exponent, printedNumeral_expValue]
        change _ - ((0 : ℕ) : ℤ) = _
        omega
      · intro heng
        have := hplain heng
        omega
      · exact Nat.zero_le _
    · refine ⟨printedNumeral d.sign capitals (digits.take p.toNat) (some (digits.drop p.toNat))
        (d.exp.toInt + digits.length - p) (fun c hc => hall c (List.mem_of_mem_take hc))
        (fun c hc => hall c (List.mem_of_mem_drop hc)) ?_, 0, ?_, printedNumeral_negative, ?_, ?_,
        fun _ => rfl, ?_⟩
      · apply List.ne_nil_of_length_pos
        rw [List.length_take]
        omega
      · rw [printedNumeral_text (l := d.exp.toInt + digits.length) (p := p) rfl rfl,
          if_neg (not_le.mpr hpos), if_neg (not_le.mpr hshort)]
        rfl
      · change digitsValue (digits.take p.toNat ++ digits.drop p.toNat) = _
        rw [List.take_append_drop, hvalue, pow_zero, mul_one]
      · rw [Numeral.exponent, printedNumeral_expValue]
        change _ - ((digits.drop p.toNat).length : ℤ) = _
        rw [List.length_drop]
        omega
      · change (digits.drop p.toNat).length ≤ _
        rw [List.length_drop]
        omega

end WeavePy.Decimal
