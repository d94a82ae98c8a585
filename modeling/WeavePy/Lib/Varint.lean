import WeavePy.Lib.ByteReader
import Mathlib.Data.Int.Basic

/-!
Numbers of 64 bits as groups of seven bits, the lowest first, and signed ones folded onto them.
-/

namespace WeavePy.Varint

open ByteReader

/-- At most one group more than the count. -/
def groups : ℕ → ℕ → List UInt8
  | 0, v => [v.toUInt8]
  | n + 1, v => if 0x80 ≤ v then (v.toUInt8 ||| 0x80) :: groups n (v >>> 7) else [v.toUInt8]

/-- Ten groups hold 64 bits. -/
def encode (v : ℕ) : List UInt8 := groups 9 v

def readGroups : ℕ → ℕ → ℕ → ByteReader ℕ
  | 0, _, _ => lift none
  | n + 1, v, shift => do
    let b ← byte
    if 64 ≤ shift then lift none
    else
      let v := v ||| (b &&& 0x7f).toNat <<< shift % 2 ^ 64
      if b < 0x80 then pure v else readGroups n v (shift + 7)

def read : ByteReader ℕ := do
  let b ← byte
  if b < 0x80 then pure b.toNat else readGroups 10 (b &&& 0x7f).toNat 7

section Groups

variable {bytes : List UInt8} {n v m acc shift : ℕ}

theorem low_bits (b : UInt8) : (b &&& 0x7f).toNat = b.toNat % 128 := by
  rw [UInt8.toNat_and]
  exact Nat.and_two_pow_sub_one_eq_mod b.toNat 7

theorem toNat_marked (v : ℕ) : (v.toUInt8 ||| 0x80).toNat = v % 128 + 128 := by
  have hor : ∀ b : BitVec 8, (b ||| 128#8).toNat = b.toNat % 128 + 128 := by decide
  have hv : v.toUInt8.toNat = v % 256 := UInt8.toNat_ofNat'
  rw [show (v.toUInt8 ||| 0x80).toNat = _ from hor v.toUInt8.toBitVec]
  change v.toUInt8.toNat % 128 + 128 = _
  omega

theorem marked_not_lt (v : ℕ) : ¬ (v.toUInt8 ||| 0x80) < 0x80 := by
  rw [UInt8.lt_iff_toNat_lt, toNat_marked]
  simp

theorem plain_lt (hv : v < 128) : v.toUInt8 < 0x80 := by
  rw [UInt8.lt_iff_toNat_lt, UInt8.toNat_ofNat']
  simp
  omega

theorem toNat_plain (hv : v < 128) : v.toUInt8.toNat = v := by
  rw [UInt8.toNat_ofNat']
  omega

theorem or_shifted (hacc : acc < 2 ^ shift) (hv : v * 2 ^ shift < 2 ^ 64) :
    acc ||| v <<< shift % 2 ^ 64 = acc + v * 2 ^ shift := by
  rw [Nat.mod_eq_of_lt (by rwa [Nat.shiftLeft_eq]), Nat.or_comm, ← Nat.shiftLeft_add_eq_or_of_lt hacc,
    Nat.shiftLeft_eq, Nat.add_comm]

/-- Each group goes where the ones before it end. -/
theorem reads_groups (hv : v < 2 ^ (7 * (n + 1))) (hm : n < m) (hacc : acc < 2 ^ shift) (hshift : shift < 64)
    (hfit : v * 2 ^ shift < 2 ^ 64) :
    Reads bytes (groups n v) (readGroups m acc shift) (· = acc + v * 2 ^ shift) := by
  induction n generalizing v m acc shift with
  | zero =>
    obtain ⟨m, rfl⟩ := Nat.exists_eq_succ_of_ne_zero (by omega : m ≠ 0)
    have hv' : v < 128 := hv
    rw [groups, readGroups]
    refine (reads_byte _).bind_last fun b hb => ?_
    subst hb
    rw [if_neg (by omega), if_pos (plain_lt hv'), low_bits, toNat_plain hv', Nat.mod_eq_of_lt hv']
    exact Reads.pure (or_shifted hacc hfit)
  | succ n ih =>
    obtain ⟨m, rfl⟩ := Nat.exists_eq_succ_of_ne_zero (by omega : m ≠ 0)
    rw [groups]
    split_ifs with hbig
    · have hsplit : v * 2 ^ shift = (v % 128) * 2 ^ shift + (v >>> 7) * 2 ^ (shift + 7) := by
        rw [Nat.shiftRight_eq_div_pow, Nat.pow_add, Nat.mul_comm (2 ^ shift), ← Nat.mul_assoc, ← Nat.add_mul]
        congr 1
        omega
      have hrest : 1 ≤ v >>> 7 := by
        rw [Nat.shiftRight_eq_div_pow]
        omega
      have hlow : (v % 128) * 2 ^ shift < 2 ^ (shift + 7) := by
        rw [Nat.pow_add, Nat.mul_comm]
        exact Nat.mul_lt_mul_of_pos_left (Nat.mod_lt _ (by decide)) (Nat.two_pow_pos shift)
      have hnext : shift + 7 < 64 := by
        by_contra hge
        have hpow : 2 ^ 64 ≤ 2 ^ (shift + 7) := Nat.pow_le_pow_right (by decide) (by omega)
        have := Nat.mul_le_mul_right (2 ^ (shift + 7)) hrest
        omega
      have hacc' : acc + v % 128 * 2 ^ shift < 2 ^ (shift + 7) := by
        have : acc + v % 128 * 2 ^ shift < 2 ^ shift + v % 128 * 2 ^ shift := by omega
        have hle : (v % 128 + 1) * 2 ^ shift ≤ 128 * 2 ^ shift := Nat.mul_le_mul_right _ (by omega)
        rw [Nat.pow_add, Nat.mul_comm (2 ^ shift)]
        rw [Nat.add_mul] at hle
        omega
      rw [readGroups]
      refine (reads_byte _).bind fun b hb => ?_
      subst hb
      rw [if_neg (by omega), if_neg (marked_not_lt v), low_bits, toNat_marked,
        show (v % 128 + 128) % 128 = v % 128 by omega, or_shifted hacc (by omega)]
      have hv' : v >>> 7 < 2 ^ (7 * (n + 1)) := by
        rw [Nat.shiftRight_eq_div_pow, Nat.div_lt_iff_lt_mul (by decide), ← Nat.pow_add]
        exact hv
      exact (ih hv' (by omega) hacc' hnext (by omega)).mono fun a ha => by omega
    · have hv' : v < 128 := by omega
      rw [readGroups]
      refine (reads_byte _).bind_last fun b hb => ?_
      subst hb
      rw [if_neg (by omega), if_pos (plain_lt hv'), low_bits, toNat_plain hv', Nat.mod_eq_of_lt hv']
      exact Reads.pure (or_shifted hacc hfit)

theorem reads_encode (hv : v < 2 ^ 64) : Reads bytes (encode v) read (· = v) := by
  unfold encode
  rw [groups, read]
  split_ifs with hbig
  · have hhigh : v >>> 7 < 2 ^ (7 * (8 + 1)) := by
      rw [Nat.shiftRight_eq_div_pow]
      omega
    have hsplit : v % 128 + v >>> 7 * 2 ^ 7 = v := by
      rw [Nat.shiftRight_eq_div_pow]
      omega
    refine (reads_byte _).bind fun b hb => ?_
    subst hb
    rw [if_neg (marked_not_lt v), low_bits, toNat_marked, show (v % 128 + 128) % 128 = v % 128 by omega]
    have hrest : Reads bytes (groups 8 (v >>> 7)) (readGroups 10 (v % 128) 7) (· = v % 128 + v >>> 7 * 2 ^ 7) :=
      reads_groups hhigh (by decide) (Nat.mod_lt _ (by decide)) (by decide) (by omega)
    exact hrest.mono fun a ha => by omega
  · have hv' : v < 128 := by omega
    refine (reads_byte _).bind_last fun b hb => ?_
    subst hb
    rw [if_pos (plain_lt hv'), toNat_plain hv']
    exact Reads.pure rfl

theorem encode_pos (v : ℕ) : 0 < (encode v).length := by
  unfold encode groups
  split_ifs <;> simp

end Groups

section Signed

/-- The sign in the lowest bit. -/
def zigzag (v : Int64) : UInt64 := ((v <<< 1) ^^^ (v >>> 63)).toUInt64

def unzigzag (v : UInt64) : Int64 := (v >>> 1).toInt64 ^^^ -(v &&& 1).toInt64

def encodeInt (v : ℤ) : List UInt8 := encode (zigzag (Int64.ofInt v)).toNat

def readInt : ByteReader ℤ := do
  let v ← read
  return (unzigzag (UInt64.ofNat v)).toInt

theorem getLsbD_sshiftRight_top (x : BitVec 64) (i : ℕ) : (x.sshiftRight 63).getLsbD i = (decide (i < 64) && x.msb) := by
  rw [BitVec.getLsbD_sshiftRight, BitVec.msb_eq_getLsbD_last]
  rcases Nat.eq_zero_or_pos i with rfl | hi
  · simp
  · rw [if_neg (by omega)]
    by_cases h : i < 64
    · simp [h]
    · simp [h]

theorem getLsbD_neg_and_one (x : BitVec 64) (i : ℕ) : (-(x &&& 1#64)).getLsbD i = (decide (i < 64) && x.getLsbD 0) := by
  have hone : x &&& 1#64 = if x.getLsbD 0 then 1#64 else 0#64 := by
    ext j hj
    cases hx : x.getLsbD 0 <;> simp <;> grind
  have hall : -(1#64) = BitVec.allOnes 64 := by decide
  rw [hone]
  cases hx : x.getLsbD 0
  · simp
  · rw [if_pos rfl, hall, BitVec.getLsbD_allOnes, Bool.and_true]

@[simp]
theorem unzigzag_zigzag (v : Int64) : unzigzag (zigzag v) = v := by
  apply Int64.toBitVec_inj.mp
  have hunfold : (unzigzag (zigzag v)).toBitVec =
      ((v.toBitVec <<< 1 ^^^ v.toBitVec.sshiftRight 63) >>> 1) ^^^
        -((v.toBitVec <<< 1 ^^^ v.toBitVec.sshiftRight 63) &&& 1#64) := by
    simp [unzigzag, zigzag]
  rw [hunfold]
  apply BitVec.eq_of_getLsbD_eq
  intro i hi
  simp only [BitVec.getLsbD_xor, getLsbD_neg_and_one, BitVec.getLsbD_ushiftRight, getLsbD_sshiftRight_top,
    BitVec.getLsbD_shiftLeft, BitVec.msb_eq_getLsbD_last]
  rcases Nat.lt_or_ge i 63 with h | h
  · have h₁ : 1 + i < 64 := by omega
    simp [hi, h₁]
  · obtain rfl : i = 63 := by omega
    simp

theorem reads_encodeInt {bytes : List UInt8} {v : ℤ} (hlo : -2 ^ 63 ≤ v) (hhi : v < 2 ^ 63) :
    Reads bytes (encodeInt v) readInt (· = v) := by
  refine (reads_encode (zigzag (Int64.ofInt v)).toNat_lt).bind_pure fun a ha => ?_
  subst ha
  rw [UInt64.ofNat_toNat, unzigzag_zigzag, Int64.toInt_ofInt_of_le hlo hhi]

end Signed

end WeavePy.Varint
