import WeavePy.Base64.Transfer
import WeavePy.Lib.ByteOrder

/-!
Whole quads of digits: what the state machine writes for one is what the fast path and the
encoder's groups write.
-/

namespace WeavePy.Base64

open Bytes

section Arithmetic

/-- The bytes the state machine pushes for the values of a quad. -/
def pushedBytes (v0 v1 v2 v3 : UInt8) : List UInt8 :=
  [v0 <<< 2 ||| v1 >>> 4, (v1 &&& 0x0f) <<< 4 ||| v2 >>> 2, (v2 &&& 0x03) <<< 6 ||| v3]

variable {v0 v1 v2 v3 : UInt8}

theorem toNat_pushed0 (h0 : v0.toNat < 64) (h1 : v1.toNat < 64) : (v0 <<< 2 ||| v1 >>> 4).toNat = v0.toNat * 4 + v1.toNat / 16 := by
  have hdrop : (v1 >>> 4).toNat = v1.toNat / 16 := toNat_drop (by decide)
  rw [toNat_join (by decide) (by change v0.toNat * 4 < 256; omega) (by change (v1 >>> 4).toNat < 4; omega), hdrop]
  rfl

theorem toNat_pushed1 (h2 : v2.toNat < 64) :
    ((v1 &&& 0x0f) <<< 4 ||| v2 >>> 2).toNat = v1.toNat % 16 * 16 + v2.toNat / 4 := by
  have hmask : (v1 &&& 0x0f).toNat = v1.toNat % 16 := @toNat_mask v1 0x0f 4 rfl
  have hdrop : (v2 >>> 2).toNat = v2.toNat / 4 := toNat_drop (by decide)
  rw [toNat_join (by decide) (by change (v1 &&& 0x0f).toNat * 16 < 256; omega) (by change (v2 >>> 2).toNat < 16; omega),
    hmask, hdrop]
  rfl

theorem toNat_pushed2 (h3 : v3.toNat < 64) : ((v2 &&& 0x03) <<< 6 ||| v3).toNat = v2.toNat % 4 * 64 + v3.toNat := by
  have hmask : (v2 &&& 0x03).toNat = v2.toNat % 4 := @toNat_mask v2 0x03 2 rfl
  rw [toNat_join (by decide) (by change (v2 &&& 0x03).toNat * 64 < 256; omega) (by change v3.toNat < 64; exact h3), hmask]
  rfl

theorem quadBytes_eq (h0 : v0.toNat < 64) (h1 : v1.toNat < 64) (h2 : v2.toNat < 64) (h3 : v3.toNat < 64) :
    quadBytes v0 v1 v2 v3 = pushedBytes v0 v1 v2 v3 := by
  have hn : (v0.toUInt32 <<< 18 ||| v1.toUInt32 <<< 12 ||| v2.toUInt32 <<< 6 ||| v3.toUInt32).toNat =
      v0.toNat * 2 ^ 18 + v1.toNat * 2 ^ 12 + v2.toNat * 2 ^ 6 + v3.toNat := by
    rw [UInt32.toNat_or, UInt32.toNat_or, UInt32.toNat_or, toNat_shift32 (by decide), toNat_shift32 (by decide),
      toNat_shift32 (by decide), UInt8.toNat_toUInt32]
    change v0.toNat * 2 ^ 18 ||| v1.toNat * 2 ^ 12 ||| v2.toNat * 2 ^ 6 ||| v3.toNat = _
    have h01 : v0.toNat * 2 ^ 18 ||| v1.toNat * 2 ^ 12 = (v0.toNat * 64 + v1.toNat) * 2 ^ 12 := by
      rw [lor_eq_add (by omega)]
      omega
    have h012 : (v0.toNat * 64 + v1.toNat) * 2 ^ 12 ||| v2.toNat * 2 ^ 6 =
        ((v0.toNat * 64 + v1.toNat) * 64 + v2.toNat) * 2 ^ 6 := by
      rw [lor_eq_add (by omega)]
      omega
    rw [h01, h012, lor_eq_add (by omega)]
    omega
  unfold quadBytes pushedBytes
  dsimp only
  generalize (v0.toUInt32 <<< 18 ||| v1.toUInt32 <<< 12 ||| v2.toUInt32 <<< 6 ||| v3.toUInt32) = n at hn ⊢
  have hbyte : ∀ k : UInt32, k.toNat < 32 → (n >>> k).toUInt8.toNat = n.toNat / 2 ^ k.toNat % 256 := by
    intro k hk
    rw [UInt32.toNat_toUInt8, toNat_drop32 hk]
  have h16 := hbyte 16 (by decide)
  have h8 := hbyte 8 (by decide)
  have hlast : n.toUInt8.toNat = n.toNat % 256 := UInt32.toNat_toUInt8 n
  have e16 : (16 : UInt32).toNat = 16 := rfl
  have e8 : (8 : UInt32).toNat = 8 := rfl
  rw [e16] at h16
  rw [e8] at h8
  congr 1
  · apply UInt8.toNat_inj.1
    rw [toNat_pushed0 h0 h1, h16, hn]
    omega
  · congr 1
    · apply UInt8.toNat_inj.1
      rw [toNat_pushed1 h2, h8, hn]
      omega
    · congr 1
      apply UInt8.toNat_inj.1
      rw [toNat_pushed2 h3, hlast, hn]
      omega

end Arithmetic

section Machine

variable {strict : Bool} {i : ℕ} {out data : List UInt8} {left c c0 c1 c2 c3 : UInt8} {q : ℤ}

/-- What a digit with no pad before it does to the state. -/
def digitNext (out : List UInt8) (q : ℤ) (left val : UInt8) : DecodeState :=
  match q with
  | 0 => ⟨out, 1, val, 0⟩
  | 1 => ⟨out ++ [left <<< 2 ||| val >>> 4], 2, val &&& 0x0f, 0⟩
  | 2 => ⟨out ++ [left <<< 4 ||| val >>> 2], 3, val &&& 0x03, 0⟩
  | _ => ⟨out ++ [left <<< 6 ||| val], 0, 0, 0⟩

theorem charStep_digit (h : IsDigit c) : charStep strict i ⟨out, q, left, 0⟩ c = .next (digitNext out q left (b64Decode c)) := by
  unfold charStep
  rw [if_neg (digit_ne_pad h)]
  dsimp only
  rw [if_neg ((b64Decode_digit c).1 h)]
  unfold dataChar
  rw [if_neg fun hpads => hpads.1 rfl]
  rfl

theorem charLoop_digit (h : IsDigit c) : charLoop strict i ⟨out, q, left, 0⟩ (c :: data) =
    charLoop strict (i + 1) (digitNext out q left (b64Decode c)) data := by
  rw [charLoop, charStep_digit h]

theorem charLoop_quad (h0 : IsDigit c0) (h1 : IsDigit c1) (h2 : IsDigit c2) (h3 : IsDigit c3) :
    charLoop strict i ⟨out, 0, left, 0⟩ (c0 :: c1 :: c2 :: c3 :: data) =
      charLoop strict (i + 4) ⟨out ++ pushedBytes (b64Decode c0) (b64Decode c1) (b64Decode c2) (b64Decode c3), 0, 0, 0⟩ data := by
  rw [charLoop_digit h0]
  change charLoop strict _ ⟨_, 1, _, 0⟩ _ = _
  rw [charLoop_digit h1]
  change charLoop strict _ ⟨_, 2, _, 0⟩ _ = _
  rw [charLoop_digit h2]
  change charLoop strict _ ⟨_, 3, _, 0⟩ _ = _
  rw [charLoop_digit h3]
  change charLoop strict _ ⟨_, 0, _, 0⟩ _ = _
  rw [List.append_assoc, List.append_assoc]
  rfl

theorem test_or {a b : UInt8} (h : (a ||| b) &&& 0xC0 = 0) : a &&& 0xC0 = 0 ∧ b &&& 0xC0 = 0 := by
  have hnat : (a.toNat &&& 192) ||| (b.toNat &&& 192) = 0 := by
    rw [← Nat.and_or_distrib_right]
    exact congrArg UInt8.toNat h
  obtain ⟨ha, hb⟩ := Nat.or_eq_zero_iff.1 hnat
  exact ⟨UInt8.toNat_inj.1 ha, UInt8.toNat_inj.1 hb⟩

theorem digit_of_test (h : b64Decode c &&& 0xC0 = 0) : IsDigit c := by
  rw [b64Decode_digit]
  intro hinvalid
  rw [hinvalid] at h
  exact absurd h (by decide)

/-- The fast path's test takes digits only. -/
theorem digits_of_test (h : (b64Decode c0 ||| b64Decode c1 ||| b64Decode c2 ||| b64Decode c3) &&& 0xC0 = 0) :
    IsDigit c0 ∧ IsDigit c1 ∧ IsDigit c2 ∧ IsDigit c3 := by
  obtain ⟨h012, h3⟩ := test_or h
  obtain ⟨h01, h2⟩ := test_or h012
  obtain ⟨h0, h1⟩ := test_or h01
  exact ⟨digit_of_test h0, digit_of_test h1, digit_of_test h2, digit_of_test h3⟩

theorem charLoop_wholeQuads (data out : List UInt8) (i : ℕ) :
    charLoop strict i ⟨out, 0, 0, 0⟩ data =
      charLoop strict (i + (wholeQuads data).2) ⟨out ++ (wholeQuads data).1, 0, 0, 0⟩ (data.drop (wholeQuads data).2) := by
  induction data using wholeQuads.induct generalizing out i with
  | case1 c0 c1 c2 c3 data htest =>
    rw [wholeQuads, if_pos htest]
    simp
  | case2 c0 c1 c2 c3 data htest more done hmore ih =>
    obtain ⟨h0, h1, h2, h3⟩ := digits_of_test (not_not.1 htest)
    rw [charLoop_quad h0 h1 h2 h3, ih, wholeQuads, if_neg htest,
      ← quadBytes_eq (b64Decode_lt h0) (b64Decode_lt h1) (b64Decode_lt h2) (b64Decode_lt h3), List.append_assoc]
    dsimp only
    rw [Nat.add_assoc, Nat.add_comm 4]
    rfl
  | case3 data hshort =>
    have hnone : wholeQuads data = ([], 0) := by
      rw [wholeQuads]
      exact hshort
    rw [hnone]
    simp

theorem a2bBase64_eq_stateMachine (data : List UInt8) : a2bBase64 strict data = stateMachine strict data := by
  unfold a2bBase64 stateMachine
  rw [charLoop_wholeQuads data [] 0, Nat.zero_add]
  rfl

end Machine

end WeavePy.Base64
