import WeavePy.DateTime.Timedelta
import WeavePy.DateTime.Calendar

/-!
The word a datetime's fields are packed into.
-/

namespace WeavePy.DateTime

open Gregorian

/-- The `tzinfo` of a datetime: `None`, an instance, or any other object. -/
inductive TzInfo (τ : Type) where
  | none
  | instance_ (tz : τ)
  | other (o : τ)

structure Dt (τ : Type) where
  y : ℤ
  m : ℤ
  d : ℤ
  hh : ℤ
  mm : ℤ
  ss : ℤ
  us : ℤ
  tz : TzInfo τ
  fold : ℤ

def wFold : ℕ := 0
def wUs : ℕ := 1
def wSs : ℕ := 21
def wMm : ℕ := 27
def wHh : ℕ := 33
def wDay : ℕ := 38
def wMonth : ℕ := 43
def wYear : ℕ := 47

variable {τ : Type}

def packDt (f : Dt τ) : BitVec 64 :=
  BitVec.ofInt 64 f.y <<< wYear ||| BitVec.ofInt 64 f.m <<< wMonth |||
    BitVec.ofInt 64 f.d <<< wDay ||| BitVec.ofInt 64 f.hh <<< wHh |||
    BitVec.ofInt 64 f.mm <<< wMm ||| BitVec.ofInt 64 f.ss <<< wSs |||
    BitVec.ofInt 64 f.us <<< wUs ||| BitVec.ofInt 64 f.fold <<< wFold

def bits (word : BitVec 64) (shift width : ℕ) : ℤ := (word >>> shift &&& (1 <<< width - 1)).toInt

def wordYmd (w : BitVec 64) : ℤ × ℤ × ℤ := (bits w wYear 14, bits w wMonth 4, bits w wDay 5)

def wordTime (w : BitVec 64) : ℤ × ℤ × ℤ × ℤ × ℤ :=
  (bits w wHh 5, bits w wMm 6, bits w wSs 6, bits w wUs 20, bits w wFold 1)

/-- The checks of the constructors. -/
structure Dt.Valid (f : Dt τ) : Prop where
  date : Gregorian.Valid f.y f.m f.d
  year : f.y ≤ 9999
  hh : 0 ≤ f.hh ∧ f.hh < 24
  mm : 0 ≤ f.mm ∧ f.mm < 60
  ss : 0 ≤ f.ss ∧ f.ss < 60
  us : 0 ≤ f.us ∧ f.us < 1000000
  fold : 0 ≤ f.fold ∧ f.fold ≤ 1

/-- A word with `low` below bit `k` and `q` from there on. -/
theorem toNat_lor_shift {a b : BitVec 64} {k low : ℕ} (hb : b.toNat = low) (hlow : low < 2 ^ k)
    {q : ℕ} (ha : a.toNat = q * 2 ^ k) : (a ||| b).toNat = q * 2 ^ k + low := by
  rw [BitVec.toNat_or, ha, hb, ← Nat.shiftLeft_eq, Bytes.shiftLeft_lor hlow, Nat.shiftLeft_eq]

theorem toNat_field {x : ℤ} {k w : ℕ} (hx : 0 ≤ x) (hxw : x.toNat < 2 ^ w) (hk : w + k ≤ 64) :
    (BitVec.ofInt 64 x <<< k).toNat = x.toNat * 2 ^ k := by
  have hlt : x.toNat * 2 ^ k < 2 ^ 64 := by
    calc x.toNat * 2 ^ k < 2 ^ w * 2 ^ k := Nat.mul_lt_mul_of_pos_right hxw (Nat.two_pow_pos k)
      _ = 2 ^ (w + k) := (pow_add 2 w k).symm
      _ ≤ 2 ^ 64 := Nat.pow_le_pow_right (by decide) hk
  have hle : x.toNat ≤ x.toNat * 2 ^ k := Nat.le_mul_of_pos_right _ (Nat.two_pow_pos k)
  have hmod : x % 2 ^ 64 = x := Int.emod_eq_of_lt hx (by omega)
  have hnat : (BitVec.ofInt 64 x).toNat = x.toNat := by
    rw [BitVec.toNat_ofInt]
    exact congrArg Int.toNat hmod
  rw [BitVec.toNat_shiftLeft, hnat, Nat.shiftLeft_eq, Nat.mod_eq_of_lt hlt]

/-- The word of a date. -/
theorem toNat_date {y m d : ℤ} (hy : 0 ≤ y ∧ y < 2 ^ 14) (hm : 0 ≤ m ∧ m < 2 ^ 4)
    (hd : 0 ≤ d ∧ d < 2 ^ 5) :
    (BitVec.ofInt 64 y <<< 47 ||| BitVec.ofInt 64 m <<< 43 ||| BitVec.ofInt 64 d <<< 38).toNat
      = (y.toNat * 2 ^ 9 + m.toNat * 2 ^ 5 + d.toNat) * 2 ^ 38 := by
  have hy' := toNat_field (k := 47) (w := 14) hy.1 (by omega) (by decide)
  have hm' := toNat_field (k := 43) (w := 4) hm.1 (by omega) (by decide)
  have hd' := toNat_field (k := 38) (w := 5) hd.1 (by omega) (by decide)
  have hym := toNat_lor_shift (k := 47) hm' (by omega) hy'
  have hymd := toNat_lor_shift (k := 43) (q := y.toNat * 2 ^ 4 + m.toNat) hd' (by omega)
    (by rw [hym]; ring)
  rw [hymd]
  ring

/-- Clock fields go below the date. -/
theorem toNat_clock {w : BitVec 64} {date : ℕ} (hw : w.toNat = date * 2 ^ 38) {hh mm ss us : ℤ}
    (hhh : 0 ≤ hh ∧ hh < 2 ^ 5) (hmm : 0 ≤ mm ∧ mm < 2 ^ 6) (hss : 0 ≤ ss ∧ ss < 2 ^ 6)
    (hus : 0 ≤ us ∧ us < 2 ^ 20) :
    (w ||| BitVec.ofInt 64 hh <<< 33 ||| BitVec.ofInt 64 mm <<< 27 |||
      BitVec.ofInt 64 ss <<< 21 ||| BitVec.ofInt 64 us <<< 1).toNat
      = ((((date * 2 ^ 5 + hh.toNat) * 2 ^ 6 + mm.toNat) * 2 ^ 6 + ss.toNat) * 2 ^ 20 + us.toNat)
        * 2 ^ 1 := by
  have hh' := toNat_field (k := 33) (w := 5) hhh.1 (by omega) (by decide)
  have mm' := toNat_field (k := 27) (w := 6) hmm.1 (by omega) (by decide)
  have ss' := toNat_field (k := 21) (w := 6) hss.1 (by omega) (by decide)
  have us' := toNat_field (k := 1) (w := 20) hus.1 (by omega) (by decide)
  have h₁ := toNat_lor_shift (k := 38) hh' (by omega) hw
  have h₂ := toNat_lor_shift (k := 33) (q := date * 2 ^ 5 + hh.toNat) mm' (by omega)
    (by rw [h₁]; ring)
  have h₃ := toNat_lor_shift (k := 27) (q := (date * 2 ^ 5 + hh.toNat) * 2 ^ 6 + mm.toNat) ss'
    (by omega) (by rw [h₂]; ring)
  have h₄ := toNat_lor_shift (k := 21)
    (q := ((date * 2 ^ 5 + hh.toNat) * 2 ^ 6 + mm.toNat) * 2 ^ 6 + ss.toNat) us' (by omega)
    (by rw [h₃]; ring)
  rw [h₄]
  ring

/-- The date fields of a word, in order of significance. -/
def Dt.dateBits (f : Dt τ) : ℕ := f.y.toNat * 2 ^ 9 + f.m.toNat * 2 ^ 5 + f.d.toNat

def Dt.clockBits (f : Dt τ) : ℕ :=
  ((f.hh.toNat * 2 ^ 6 + f.mm.toNat) * 2 ^ 6 + f.ss.toNat) * 2 ^ 20 + f.us.toNat

theorem Dt.Valid.dateBounds {f : Dt τ} (h : f.Valid) : (0 ≤ f.y ∧ f.y < 2 ^ 14) ∧
    (0 ≤ f.m ∧ f.m < 2 ^ 4) ∧ (0 ≤ f.d ∧ f.d < 2 ^ 5) := by
  obtain ⟨⟨hy, hm, hd, hlen⟩, hy', -⟩ := h
  have := hlen.trans (monthLength_le (y := f.y) hm.1 hm.2)
  omega

theorem Dt.Valid.clockBounds {f : Dt τ} (h : f.Valid) : (0 ≤ f.hh ∧ f.hh < 2 ^ 5) ∧
    (0 ≤ f.mm ∧ f.mm < 2 ^ 6) ∧ (0 ≤ f.ss ∧ f.ss < 2 ^ 6) ∧ (0 ≤ f.us ∧ f.us < 2 ^ 20) := by
  obtain ⟨-, -, hhh, hmm, hss, hus, -⟩ := h
  omega

theorem Dt.Valid.clockBits_lt {f : Dt τ} (h : f.Valid) : f.clockBits < 2 ^ 37 := by
  have := h.clockBounds
  unfold Dt.clockBits
  omega

theorem packDt_toNat {f : Dt τ} (h : f.Valid) :
    (packDt f).toNat = (f.dateBits * 2 ^ 37 + f.clockBits) * 2 ^ 1 + f.fold.toNat := by
  obtain ⟨hy, hm, hd⟩ := h.dateBounds
  obtain ⟨hhh, hmm, hss, hus⟩ := h.clockBounds
  have hfold := h.fold
  have hfold' := toNat_field (x := f.fold) (k := 0) (w := 1) hfold.1 (by omega) (by decide)
  have hclock := toNat_clock (toNat_date hy hm hd) hhh hmm hss hus
  refine (toNat_lor_shift hfold' (by omega) hclock).trans ?_
  unfold Dt.dateBits Dt.clockBits
  ring

theorem bits_eq {word : BitVec 64} {shift width : ℕ} (hw : width < 63)
    (hmask : (1 <<< width - 1 : BitVec 64).toNat = 2 ^ width - 1) :
    bits word shift width = (word.toNat / 2 ^ shift % 2 ^ width : ℕ) := by
  have hnat : (word >>> shift &&& (1 <<< width - 1)).toNat = word.toNat / 2 ^ shift % 2 ^ width := by
    rw [BitVec.toNat_and, BitVec.toNat_ushiftRight, hmask, Nat.and_two_pow_sub_one_eq_mod,
      Nat.shiftRight_eq_div_pow]
  have hlt := Nat.mod_lt (word.toNat / 2 ^ shift) (Nat.two_pow_pos width)
  have hpow : 2 ^ width ≤ 2 ^ 62 := Nat.pow_le_pow_right (by decide) (by omega)
  unfold bits
  rw [BitVec.toInt_eq_toNat_of_lt (by omega), hnat]

/-- A field of a word, above and below which other fields lie. -/
theorem bits_of_sum {word : BitVec 64} {shift width q low : ℕ} {x : ℤ} (hw : width < 63)
    (hmask : (1 <<< width - 1 : BitVec 64).toNat = 2 ^ width - 1) (hx : 0 ≤ x ∧ x < 2 ^ width)
    (hlow : low < 2 ^ shift) (hword : word.toNat = (q * 2 ^ width + x.toNat) * 2 ^ shift + low) :
    bits word shift width = x := by
  have hx' : x.toNat < 2 ^ width := (Int.toNat_lt hx.1).mpr (by exact_mod_cast hx.2)
  rw [bits_eq hw hmask, hword, Nat.mul_comm _ (2 ^ shift),
    Nat.mul_add_div (Nat.two_pow_pos shift), Nat.div_eq_of_lt hlow, Nat.add_zero, Nat.mul_comm q,
    Nat.mul_add_mod, Nat.mod_eq_of_lt hx']
  exact Int.toNat_of_nonneg hx.1

theorem below {x low k w : ℕ} (hx : x < 2 ^ w) (hlow : low < 2 ^ k) :
    x * 2 ^ k + low < 2 ^ (k + w) := by
  have := Nat.mul_le_mul_right (2 ^ k) (show x + 1 ≤ 2 ^ w from hx)
  rw [Nat.succ_mul] at this
  rw [Nat.pow_add, Nat.mul_comm (2 ^ k)]
  omega

/-- Every field comes back out of the word. -/
theorem word_packDt {f : Dt τ} (h : f.Valid) : wordYmd (packDt f) = (f.y, f.m, f.d) ∧
    wordTime (packDt f) = (f.hh, f.mm, f.ss, f.us, f.fold) := by
  have hword := packDt_toNat h
  obtain ⟨hy, hm, hd⟩ := h.dateBounds
  obtain ⟨hhh, hmm, hss, hus⟩ := h.clockBounds
  have hfold := h.fold
  unfold Dt.dateBits Dt.clockBits at hword
  generalize hY : f.y.toNat = Y at hword
  generalize hM : f.m.toNat = M at hword
  generalize hD : f.d.toNat = D at hword
  generalize hH : f.hh.toNat = H at hword
  generalize hN : f.mm.toNat = N at hword
  generalize hS : f.ss.toNat = S at hword
  generalize hU : f.us.toNat = U at hword
  generalize hF : f.fold.toNat = F at hword
  have h₀ : F < 2 ^ 1 := by omega
  have h₁ : U * 2 ^ 1 + F < 2 ^ 21 := below (w := 20) (by omega) h₀
  have h₂ : S * 2 ^ 21 + (U * 2 ^ 1 + F) < 2 ^ 27 := below (w := 6) (by omega) h₁
  have h₃ : N * 2 ^ 27 + (S * 2 ^ 21 + (U * 2 ^ 1 + F)) < 2 ^ 33 := below (w := 6) (by omega) h₂
  have h₄ : H * 2 ^ 33 + (N * 2 ^ 27 + (S * 2 ^ 21 + (U * 2 ^ 1 + F))) < 2 ^ 38 :=
    below (w := 5) (by omega) h₃
  have h₅ : D * 2 ^ 38 + (H * 2 ^ 33 + (N * 2 ^ 27 + (S * 2 ^ 21 + (U * 2 ^ 1 + F)))) < 2 ^ 43 :=
    below (w := 5) (by omega) h₄
  have h₆ : M * 2 ^ 43 + (D * 2 ^ 38 + (H * 2 ^ 33 + (N * 2 ^ 27 + (S * 2 ^ 21 + (U * 2 ^ 1 + F)))))
      < 2 ^ 47 := below (w := 4) (by omega) h₅
  simp only [wordYmd, wordTime, Prod.mk.injEq]
  refine ⟨⟨?_, ?_, ?_⟩, ?_, ?_, ?_, ?_, ?_⟩
  · apply bits_of_sum (by decide) (by decide) hy h₆ (q := 0)
    rw [hword, hY]
    ring
  · apply bits_of_sum (by decide) (by decide) hm h₅ (q := Y)
    rw [hword, hM]
    ring
  · apply bits_of_sum (by decide) (by decide) hd h₄ (q := Y * 2 ^ 4 + M)
    rw [hword, hD]
    ring
  · apply bits_of_sum (by decide) (by decide) hhh h₃ (q := (Y * 2 ^ 4 + M) * 2 ^ 5 + D)
    rw [hword, hH]
    ring
  · apply bits_of_sum (by decide) (by decide) hmm h₂
      (q := ((Y * 2 ^ 4 + M) * 2 ^ 5 + D) * 2 ^ 5 + H)
    rw [hword, hN]
    ring
  · apply bits_of_sum (by decide) (by decide) hss h₁
      (q := (((Y * 2 ^ 4 + M) * 2 ^ 5 + D) * 2 ^ 5 + H) * 2 ^ 6 + N)
    rw [hword, hS]
    ring
  · apply bits_of_sum (by decide) (by decide) hus h₀
      (q := ((((Y * 2 ^ 4 + M) * 2 ^ 5 + D) * 2 ^ 5 + H) * 2 ^ 6 + N) * 2 ^ 6 + S)
    rw [hword, hU]
    ring
  · apply bits_of_sum (by decide) (by decide) (show 0 ≤ f.fold ∧ f.fold < 2 ^ 1 by omega)
      (Nat.two_pow_pos 0)
      (q := (((((Y * 2 ^ 4 + M) * 2 ^ 5 + D) * 2 ^ 5 + H) * 2 ^ 6 + N) * 2 ^ 6 + S) * 2 ^ 20 + U)
    rw [hword, hF]
    ring

end WeavePy.DateTime
