import Mathlib.Data.Nat.Notation
import Mathlib.Data.List.Basic
import Mathlib.Data.Nat.Size
import Mathlib.Data.Int.Basic
import Mathlib.Tactic.Positivity
import Mathlib.Tactic.Common

/-!
Bytes as numbers: shifts and masks that keep every bit are products, quotients and sums.
-/

namespace WeavePy.Bytes

theorem byte_cases {p : UInt8 → Prop} (h : ∀ n : Fin 256, p (UInt8.ofNat n)) (c : UInt8) : p c := by
  have hc := h ⟨c.toNat, UInt8.toNat_lt c⟩
  rwa [UInt8.ofNat_toNat] at hc

theorem lor_eq_add {k a b : ℕ} (hb : b < 2 ^ k) : a * 2 ^ k ||| b = a * 2 ^ k + b := by
  rw [Nat.mul_comm]
  exact (Nat.two_pow_add_eq_or_of_lt hb a).symm

theorem shiftLeft_lor {k a b : ℕ} (hb : b < 2 ^ k) : (a <<< k ||| b) = a * 2 ^ k + b := by
  rw [Nat.shiftLeft_eq]
  exact lor_eq_add hb

theorem toNat_mask {c mask : UInt8} {k : ℕ} (hmask : mask.toNat = 2 ^ k - 1) : (c &&& mask).toNat = c.toNat % 2 ^ k := by
  rw [UInt8.toNat_and, hmask, Nat.and_two_pow_sub_one_eq_mod]

theorem toNat_drop {c k : UInt8} (hk : k.toNat < 8) : (c >>> k).toNat = c.toNat / 2 ^ k.toNat := by
  rw [UInt8.toNat_shiftRight, Nat.mod_eq_of_lt hk, Nat.shiftRight_eq_div_pow]

theorem toNat_shift {c k : UInt8} (hk : k.toNat < 8) (hfits : c.toNat * 2 ^ k.toNat < 256) :
    (c <<< k).toNat = c.toNat * 2 ^ k.toNat := by
  rw [UInt8.toNat_shiftLeft, Nat.mod_eq_of_lt hk, Nat.shiftLeft_eq]
  exact Nat.mod_eq_of_lt hfits

theorem toNat_join {a b k : UInt8} (hk : k.toNat < 8) (hfits : a.toNat * 2 ^ k.toNat < 256) (hb : b.toNat < 2 ^ k.toNat) :
    (a <<< k ||| b).toNat = a.toNat * 2 ^ k.toNat + b.toNat := by
  rw [UInt8.toNat_or, toNat_shift hk hfits, lor_eq_add hb]

theorem toNat_shift32 {c : UInt8} {k : UInt32} (hk : k.toNat ≤ 24) : (c.toUInt32 <<< k).toNat = c.toNat * 2 ^ k.toNat := by
  rw [UInt32.toNat_shiftLeft, Nat.mod_eq_of_lt (Nat.lt_of_le_of_lt hk (by decide)), Nat.shiftLeft_eq, UInt8.toNat_toUInt32]
  apply Nat.mod_eq_of_lt
  calc c.toNat * 2 ^ k.toNat < 2 ^ 8 * 2 ^ k.toNat := Nat.mul_lt_mul_of_pos_right (UInt8.toNat_lt c) (Nat.two_pow_pos _)
    _ ≤ 2 ^ 8 * 2 ^ 24 := Nat.mul_le_mul_left _ (Nat.pow_le_pow_right (by decide) hk)

theorem toNat_drop32 {n k : UInt32} (hk : k.toNat < 32) : (n >>> k).toNat = n.toNat / 2 ^ k.toNat := by
  rw [UInt32.toNat_shiftRight, Nat.mod_eq_of_lt hk, Nat.shiftRight_eq_div_pow]

theorem toNat_mask32 {n mask : UInt32} {k : ℕ} (hmask : mask.toNat = 2 ^ k - 1) : (n &&& mask).toNat = n.toNat % 2 ^ k := by
  rw [UInt32.toNat_and, hmask, Nat.and_two_pow_sub_one_eq_mod]

end WeavePy.Bytes

/-!
Numbers as a fixed count of bytes, the lowest first.
-/

namespace WeavePy.LittleEndian

def toLe : ℕ → ℕ → List UInt8
  | 0, _ => []
  | n + 1, v => v.toUInt8 :: toLe n (v >>> 8)

def ofLe : List UInt8 → ℕ
  | [] => 0
  | b :: bs => b.toNat + 2 ^ 8 * ofLe bs

@[simp]
theorem length_toLe (n v : ℕ) : (toLe n v).length = n := by
  induction n generalizing v with
  | zero => rfl
  | succ n ih => simp [toLe, ih]

theorem ofLe_toLe {n v : ℕ} (hv : v < 2 ^ (8 * n)) : ofLe (toLe n v) = v := by
  induction n generalizing v with
  | zero =>
    have : v < 1 := hv
    simp only [toLe, ofLe]
    omega
  | succ n ih =>
    have hpow : 2 ^ (8 * (n + 1)) = 2 ^ 8 * 2 ^ (8 * n) := by
      rw [← Nat.pow_add]
      congr 1
      omega
    have hbyte : v.toUInt8.toNat = v % 256 := UInt8.toNat_ofNat'
    have hhigh : v >>> 8 < 2 ^ (8 * n) := by
      rw [Nat.shiftRight_eq_div_pow, Nat.div_lt_iff_lt_mul (by decide), Nat.mul_comm]
      omega
    rw [toLe, ofLe, ih hhigh, hbyte, Nat.shiftRight_eq_div_pow]
    omega

theorem ofLe_lt (bs : List UInt8) : ofLe bs < 2 ^ (8 * bs.length) := by
  induction bs with
  | nil => exact Nat.one_pos
  | cons b bs ih =>
    have hb := b.toNat_lt
    have hpow : 2 ^ (8 * (bs.length + 1)) = 2 ^ 8 * 2 ^ (8 * bs.length) := by
      rw [← Nat.pow_add]
      congr 1
      omega
    rw [ofLe, List.length_cons, hpow]
    omega

section Signed

/-- The bits of a signed number less its sign. -/
def magnitude (v : ℤ) : ℕ := if v < 0 then (-v - 1).toNat else v.toNat

/-- As few bytes as hold the number and its sign. -/
def signedLength (v : ℤ) : ℕ := (magnitude v).size / 8 + 1

def toSignedLe (v : ℤ) : List UInt8 := toLe (signedLength v) (v % 2 ^ (8 * signedLength v)).toNat

def ofSignedLe (bs : List UInt8) : ℤ :=
  if 2 ^ (8 * bs.length) ≤ 2 * ofLe bs then ofLe bs - 2 ^ (8 * bs.length) else ofLe bs

theorem magnitude_fits (v : ℤ) : 2 * magnitude v + 2 ≤ 2 ^ (8 * signedLength v) := by
  have hlt := Nat.lt_size_self (magnitude v)
  have hle : 2 ^ ((magnitude v).size + 1) ≤ 2 ^ (8 * signedLength v) := by
    refine Nat.pow_le_pow_right (by decide) ?_
    rw [signedLength]
    omega
  rw [Nat.pow_succ] at hle
  omega

theorem ofSignedLe_toLe {n : ℕ} {v : ℤ} (h : 2 * magnitude v + 2 ≤ 2 ^ (8 * n)) :
    ofSignedLe (toLe n (v % 2 ^ (8 * n)).toNat) = v := by
  have hpos : (0 : ℤ) < 2 ^ (8 * n) := by positivity
  have hcast : ((2 ^ (8 * n) : ℕ) : ℤ) = 2 ^ (8 * n) := Nat.cast_pow 2 _
  have hlo := Int.emod_nonneg v hpos.ne'
  have hhi := Int.emod_lt_of_pos v hpos
  have hread : ofLe (toLe n (v % 2 ^ (8 * n)).toNat) = (v % 2 ^ (8 * n)).toNat := ofLe_toLe (by omega)
  rw [ofSignedLe, hread, length_toLe]
  unfold magnitude at h
  split_ifs at h with hneg
  · have hmod : v % 2 ^ (8 * n) = v + 2 ^ (8 * n) := by
      rw [← Int.add_emod_right]
      exact Int.emod_eq_of_lt (by omega) (by omega)
    have hbig : 2 ^ (8 * n) ≤ 2 * (v + 2 ^ (8 * n)).toNat := by
      rw [← hcast]
      generalize 2 ^ (8 * n) = b at h
      omega
    rw [hmod, if_pos hbig]
    omega
  · have hmod : v % 2 ^ (8 * n) = v := Int.emod_eq_of_lt (by omega) (by omega)
    rw [hmod, if_neg (by omega)]
    omega

theorem ofSignedLe_toSignedLe (v : ℤ) : ofSignedLe (toSignedLe v) = v := ofSignedLe_toLe (magnitude_fits v)

end Signed

end WeavePy.LittleEndian

/-!
Integers of a fixed width in either byte order, unsigned or in two's complement.
-/

namespace WeavePy.LittleEndian

theorem toLe_ofLe (bs : List UInt8) : toLe bs.length (ofLe bs) = bs := by
  induction bs with
  | nil => rfl
  | cons b bs ih =>
    have hb := b.toNat_lt
    have hhead : (ofLe (b :: bs)).toUInt8 = b := by
      apply UInt8.toNat_inj.1
      rw [ofLe, UInt8.toNat_ofNat']
      omega
    have htail : ofLe (b :: bs) >>> 8 = ofLe bs := by
      rw [ofLe, Nat.shiftRight_eq_div_pow]
      omega
    rw [List.length_cons, toLe, hhead, htail, ih]

end WeavePy.LittleEndian

namespace WeavePy

open LittleEndian

inductive ByteOrder where
  | little
  | big
  deriving DecidableEq, Repr

namespace ByteOrder

variable {order : ByteOrder} {w : ℕ} {v : ℤ} {bs : List UInt8}

/-- The bytes in the order asked for, from or to the lowest byte first. -/
def arrange (order : ByteOrder) (bs : List UInt8) : List UInt8 :=
  match order with
  | .little => bs
  | .big => bs.reverse

@[simp]
theorem length_arrange : (arrange order bs).length = bs.length := by
  cases order
  · rfl
  · exact List.length_reverse

@[simp]
theorem arrange_arrange : arrange order (arrange order bs) = bs := by
  cases order
  · rfl
  · exact List.reverse_reverse bs

/-- The numbers that `w` bytes hold. -/
def InRange (signed : Bool) (w : ℕ) (v : ℤ) : Prop :=
  if signed then -2 ^ (8 * w) ≤ 2 * v ∧ 2 * v < 2 ^ (8 * w) else 0 ≤ v ∧ v < 2 ^ (8 * w)

instance (signed : Bool) (w : ℕ) (v : ℤ) : Decidable (InRange signed w v) := by
  unfold InRange
  infer_instance

/-- The low `w` bytes of `v`. -/
def put (order : ByteOrder) (w : ℕ) (v : ℤ) : List UInt8 :=
  arrange order (toLe w (v % 2 ^ (8 * w)).toNat)

def get (order : ByteOrder) (signed : Bool) (bs : List UInt8) : ℤ :=
  if signed then ofSignedLe (arrange order bs) else ofLe (arrange order bs)

@[simp]
theorem length_put : (put order w v).length = w := by
  simp [put]

theorem get_put {signed : Bool} (h : InRange signed w v) : get order signed (put order w v) = v := by
  have hpos : (0 : ℤ) < 2 ^ (8 * w) := by positivity
  have hcast : ((2 ^ (8 * w) : ℕ) : ℤ) = 2 ^ (8 * w) := Nat.cast_pow 2 _
  rw [get, put, arrange_arrange]
  cases signed with
  | true =>
    obtain ⟨hlo, hhi⟩ : -2 ^ (8 * w) ≤ 2 * v ∧ 2 * v < 2 ^ (8 * w) := h
    rcases w with _ | w
    · have hone : (2 : ℤ) ^ (8 * 0) = 1 := rfl
      have hv : v = 0 := by omega
      rw [hv]
      rfl
    · apply ofSignedLe_toLe
      -- a whole number of bytes has an even range
      have heven : (2 : ℤ) ^ (8 * (w + 1)) = 2 * 2 ^ (8 * w + 7) := by
        rw [show 8 * (w + 1) = (8 * w + 7) + 1 by omega, pow_succ, mul_comm]
      unfold magnitude
      split_ifs <;> omega
  | false =>
    obtain ⟨hlo, hhi⟩ : 0 ≤ v ∧ v < 2 ^ (8 * w) := h
    have hread : ofLe (toLe w (v % 2 ^ (8 * w)).toNat) = (v % 2 ^ (8 * w)).toNat := by
      apply ofLe_toLe
      rw [Int.emod_eq_of_lt hlo hhi]
      omega
    rw [if_neg (by decide), hread, Int.emod_eq_of_lt hlo hhi]
    omega

theorem get_inRange (signed : Bool) : InRange signed bs.length (get order signed bs) := by
  have hlt := ofLe_lt (arrange order bs)
  rw [length_arrange] at hlt
  have hcast : ((2 ^ (8 * bs.length) : ℕ) : ℤ) = 2 ^ (8 * bs.length) := Nat.cast_pow 2 _
  cases signed with
  | true =>
    change -2 ^ (8 * bs.length) ≤ 2 * ofSignedLe (arrange order bs) ∧ 2 * ofSignedLe (arrange order bs) < 2 ^ (8 * bs.length)
    unfold ofSignedLe
    rw [length_arrange]
    split_ifs <;> constructor <;> omega
  | false =>
    change 0 ≤ (ofLe (arrange order bs) : ℤ) ∧ (ofLe (arrange order bs) : ℤ) < 2 ^ (8 * bs.length)
    constructor <;> omega

theorem put_get (signed : Bool) : put order bs.length (get order signed bs) = bs := by
  have hlt := ofLe_lt (arrange order bs)
  rw [length_arrange] at hlt
  have hcast : ((2 ^ (8 * bs.length) : ℕ) : ℤ) = 2 ^ (8 * bs.length) := Nat.cast_pow 2 _
  -- either reading is the unsigned one up to a multiple of the modulus
  have hmod : get order signed bs % 2 ^ (8 * bs.length) = (ofLe (arrange order bs) : ℤ) := by
    have hsmall : (ofLe (arrange order bs) : ℤ) % 2 ^ (8 * bs.length) = (ofLe (arrange order bs) : ℤ) :=
      Int.emod_eq_of_lt (by omega) (by omega)
    unfold get ofSignedLe
    rw [length_arrange]
    split_ifs
    · rw [Int.sub_emod_right, hsmall]
    · exact hsmall
    · exact hsmall
  rw [put, hmod, Int.toNat_natCast]
  calc arrange order (toLe bs.length (ofLe (arrange order bs)))
      = arrange order (toLe (arrange order bs).length (ofLe (arrange order bs))) := by rw [length_arrange]
    _ = bs := by rw [toLe_ofLe, arrange_arrange]

end ByteOrder

end WeavePy
