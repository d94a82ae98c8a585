import Mathlib.Algebra.Ring.Int.Defs
import Mathlib.Algebra.Ring.Nat
import Mathlib.Data.Int.Order.Basic
import Mathlib.Data.List.Basic
import Mathlib.Data.List.GetD
import Mathlib.Data.List.Nodup

/-!
`binascii.b2a_base64` and `binascii.a2b_base64` over bytes already read from their arguments.
-/

namespace WeavePy.Base64

section Tables

/-- `B64_ENCODE` -/
def alphabet : List UInt8 := List.map Char.toUInt8 [
  'A', 'B', 'C', 'D', 'E', 'F', 'G', 'H', 'I', 'J', 'K', 'L', 'M', 'N', 'O', 'P',
  'Q', 'R', 'S', 'T', 'U', 'V', 'W', 'X', 'Y', 'Z', 'a', 'b', 'c', 'd', 'e', 'f',
  'g', 'h', 'i', 'j', 'k', 'l', 'm', 'n', 'o', 'p', 'q', 'r', 's', 't', 'u', 'v',
  'w', 'x', 'y', 'z', '0', '1', '2', '3', '4', '5', '6', '7', '8', '9', '+', '/']

def b64Invalid : UInt8 := 0xFF

/-- `B64_DECODE` -/
def decodeTable : List UInt8 :=
  (List.range 64).foldl (fun t i => t.set (alphabet.getD i 0).toNat i.toUInt8) (List.replicate 256 b64Invalid)

def b64Encode (i : ℕ) : UInt8 := alphabet.getD i 0

def b64Decode (c : UInt8) : UInt8 := decodeTable.getD c.toNat b64Invalid

def pad : UInt8 := '='.toUInt8

end Tables

section Encoding

def encodeGroup (b0 b1 b2 : UInt8) : List UInt8 :=
  let n : UInt32 := b0.toUInt32 <<< 16 ||| b1.toUInt32 <<< 8 ||| b2.toUInt32
  [b64Encode (n >>> 18).toNat, b64Encode (n >>> 12 &&& 0x3f).toNat, b64Encode (n >>> 6 &&& 0x3f).toNat,
    b64Encode (n &&& 0x3f).toNat]

/-- The one or two bytes left over, as a padded quad. -/
def encodeRest (b0 : UInt8) (rest : Option UInt8) : List UInt8 :=
  let b1 := rest.getD 0
  [b64Encode (b0 >>> 2).toNat, b64Encode ((b0 &&& 0x03) <<< 4 ||| b1 >>> 4).toNat,
    if rest.isSome then b64Encode ((b1 &&& 0x0f) <<< 2).toNat else pad, pad]

def encodeQuads : List UInt8 → List UInt8
  | b0 :: b1 :: b2 :: data => encodeGroup b0 b1 b2 ++ encodeQuads data
  | [b0, b1] => encodeRest b0 (some b1)
  | [b0] => encodeRest b0 none
  | [] => []

def b2aBase64 (newline : Bool) (data : List UInt8) : List UInt8 :=
  encodeQuads data ++ if newline then ['\n'.toUInt8] else []

end Encoding

section Decoding

def i32 (n : ℤ) : ℤ := n.bmod (2 ^ 32)

structure DecodeState where
  out : List UInt8
  quadPos : ℤ
  leftchar : UInt8
  pads : ℤ

/-- What becomes of the loop after one character. -/
inductive Flow where
  | next (st : DecodeState)
  | leave (st : DecodeState)
  | fail (message : String)

def padChar (strict : Bool) (i : ℕ) (st : DecodeState) : Flow :=
  let st := { st with pads := i32 (st.pads + 1) }
  if st.quadPos ≥ 2 ∧ i32 (st.quadPos + st.pads) ≤ 4 then .next st
  else if !strict then .next st
  else if st.quadPos = 1 then .leave st
  else .fail (if st.quadPos = 0 ∧ i = 0 then "Leading padding not allowed" else "Excess padding not allowed")

def dataChar (strict : Bool) (st : DecodeState) (val : UInt8) : Flow :=
  if st.pads ≠ 0 ∧ strict then
    .fail (if i32 (st.quadPos + st.pads) = 4 then "Excess data after padding" else "Discontinuous padding not allowed")
  else
    .next (match st.quadPos with
      | 0 => ⟨st.out, 1, val, 0⟩
      | 1 => ⟨st.out ++ [st.leftchar <<< 2 ||| val >>> 4], 2, val &&& 0x0f, 0⟩
      | 2 => ⟨st.out ++ [st.leftchar <<< 4 ||| val >>> 2], 3, val &&& 0x03, 0⟩
      | _ => ⟨st.out ++ [st.leftchar <<< 6 ||| val], 0, 0, 0⟩)

def charStep (strict : Bool) (i : ℕ) (st : DecodeState) (c : UInt8) : Flow :=
  if c = pad then padChar strict i st
  else
    let val := b64Decode c
    if val = b64Invalid then if strict then .fail "Only base64 data is allowed" else .next st
    else dataChar strict st val

/-- The characters from the `i`th on. -/
def charLoop (strict : Bool) : ℕ → DecodeState → List UInt8 → Except String DecodeState
  | _, st, [] => .ok st
  | i, st, c :: data =>
    match charStep strict i st c with
    | .next st' => charLoop strict (i + 1) st' data
    | .leave st' => .ok st'
    | .fail message => .error message

def finish (st : DecodeState) : Except String (List UInt8) :=
  if st.quadPos = 1 then
    let ndata := st.out.length / 3 * 4 + 1
    .error s!"Invalid base64-encoded string: number of data characters ({ndata}) cannot be 1 more than a multiple of 4"
  else if st.quadPos ≠ 0 ∧ i32 (st.quadPos + st.pads) < 4 then .error "Incorrect padding"
  else .ok st.out

def quadBytes (v0 v1 v2 v3 : UInt8) : List UInt8 :=
  let n : UInt32 := v0.toUInt32 <<< 18 ||| v1.toUInt32 <<< 12 ||| v2.toUInt32 <<< 6 ||| v3.toUInt32
  [(n >>> 16).toUInt8, (n >>> 8).toUInt8, n.toUInt8]

/-- The bytes of the leading whole quads of digits, and the characters read for them. -/
def wholeQuads : List UInt8 → List UInt8 × ℕ
  | c0 :: c1 :: c2 :: c3 :: data =>
    if (b64Decode c0 ||| b64Decode c1 ||| b64Decode c2 ||| b64Decode c3) &&& 0xC0 ≠ 0 then ([], 0)
    else
      let (out, done) := wholeQuads data
      (quadBytes (b64Decode c0) (b64Decode c1) (b64Decode c2) (b64Decode c3) ++ out, done + 4)
  | _ => ([], 0)

def a2bBase64 (strict : Bool) (data : List UInt8) : Except String (List UInt8) :=
  let (out, done) := wholeQuads data
  charLoop strict done ⟨out, 0, 0, 0⟩ (data.drop done) >>= finish

/-- The state machine alone, from the first character. -/
def stateMachine (strict : Bool) (data : List UInt8) : Except String (List UInt8) :=
  charLoop strict 0 ⟨[], 0, 0, 0⟩ data >>= finish

end Decoding

section Digits

def IsDigit (c : UInt8) : Prop := c ∈ alphabet

instance (c : UInt8) : Decidable (IsDigit c) := inferInstanceAs (Decidable (c ∈ alphabet))

theorem getD_set {t : List UInt8} {n m : ℕ} {v d : UInt8} (hn : n < t.length) :
    (t.set n v).getD m d = if n = m then v else t.getD m d := by
  rw [List.getD_eq_getElem?_getD, List.getD_eq_getElem?_getD, List.getElem?_set]
  split_ifs <;> rfl

/-- The table after the first `k` digits: their places, and nothing else. -/
theorem table_entries (k : ℕ) (c : UInt8) :
    let t := (List.range k).foldl (fun t i => t.set (alphabet.getD i 0).toNat i.toUInt8) (List.replicate 256 b64Invalid)
    t.length = 256 ∧ ((∃ i < k, b64Encode i = c ∧ t.getD c.toNat b64Invalid = i.toUInt8) ∨
      ((∀ i < k, b64Encode i ≠ c) ∧ t.getD c.toNat b64Invalid = b64Invalid)) := by
  induction k with
  | zero =>
    refine ⟨List.length_replicate, .inr ⟨fun i hi => absurd hi (Nat.not_lt_zero i), ?_⟩⟩
    exact List.getD_replicate _ (UInt8.toNat_lt c)
  | succ k ih =>
    obtain ⟨hlength, hentry⟩ := ih
    rw [List.range_succ, List.foldl_append]
    refine ⟨?_, ?_⟩
    · change (List.set _ _ _).length = 256
      rw [List.length_set, hlength]
    · change (∃ i < k + 1, b64Encode i = c ∧ (List.set _ (b64Encode k).toNat k.toUInt8).getD _ _ = _) ∨
        (_ ∧ (List.set _ (b64Encode k).toNat k.toUInt8).getD _ _ = _)
      rw [getD_set (hlength.symm ▸ UInt8.toNat_lt (b64Encode k))]
      by_cases hk : b64Encode k = c
      · exact .inl ⟨k, Nat.lt_succ_self k, hk, if_pos (congrArg UInt8.toNat hk)⟩
      · rw [if_neg fun h => hk (UInt8.toNat_inj.1 h)]
        rcases hentry with ⟨i, hi, hc, hvalue⟩ | ⟨hnone, hvalue⟩
        · exact .inl ⟨i, Nat.lt_succ_of_lt hi, hc, hvalue⟩
        · refine .inr ⟨fun i hi => ?_, hvalue⟩
          rcases Nat.lt_succ_iff_lt_or_eq.1 hi with hi | rfl
          · exact hnone i hi
          · exact hk

theorem b64Encode_mem {i : ℕ} (h : i < 64) : IsDigit (b64Encode i) := by
  unfold IsDigit
  rw [b64Encode, List.getD_eq_getElem _ _ h]
  exact List.getElem_mem _

theorem b64Decode_entry (c : UInt8) : (∃ i < 64, b64Encode i = c ∧ b64Decode c = i.toUInt8) ∨
    ((∀ i < 64, b64Encode i ≠ c) ∧ b64Decode c = b64Invalid) := (table_entries 64 c).2

theorem toNat_value {i : ℕ} (h : i < 64) : i.toUInt8.toNat = i := UInt8.toNat_ofNat_of_lt' (Nat.lt_trans h (by decide))

/-- The decode table reads a digit's value, and nothing else's. -/
theorem b64Decode_digit (c : UInt8) : IsDigit c ↔ b64Decode c ≠ b64Invalid := by
  rcases b64Decode_entry c with ⟨i, hi, rfl, hvalue⟩ | ⟨hnone, hvalue⟩
  · refine iff_of_true (b64Encode_mem hi) fun hinvalid => ?_
    have := congrArg UInt8.toNat (hvalue.symm.trans hinvalid)
    rw [toNat_value hi] at this
    exact absurd (this ▸ hi) (by decide)
  · refine iff_of_false (fun hdigit => ?_) (fun h => h hvalue)
    obtain ⟨i, hi, hc⟩ := List.mem_iff_getElem.1 hdigit
    exact hnone i hi (by rw [b64Encode, List.getD_eq_getElem _ _ hi, hc])

theorem b64Decode_lt {c : UInt8} (h : IsDigit c) : (b64Decode c).toNat < 64 := by
  rcases b64Decode_entry c with ⟨i, hi, -, hvalue⟩ | ⟨-, hvalue⟩
  · rw [hvalue, toNat_value hi]
    exact hi
  · exact absurd hvalue ((b64Decode_digit c).1 h)

theorem alphabet_nodup : alphabet.Nodup := by decide +kernel

theorem b64Decode_encode {i : ℕ} (h : i < 64) : (b64Decode (b64Encode i)).toNat = i := by
  rcases b64Decode_entry (b64Encode i) with ⟨j, hj, hsame, hvalue⟩ | ⟨hnone, -⟩
  · rw [hvalue, toNat_value hj]
    rw [b64Encode, b64Encode, List.getD_eq_getElem _ _ hj, List.getD_eq_getElem _ _ h] at hsame
    exact (List.Nodup.getElem_inj_iff alphabet_nodup).1 hsame
  · exact absurd rfl (hnone i h)

theorem digit_ne_pad {c : UInt8} (h : IsDigit c) : c ≠ pad := by
  rintro rfl
  exact absurd h (by decide)

end Digits

end WeavePy.Base64
