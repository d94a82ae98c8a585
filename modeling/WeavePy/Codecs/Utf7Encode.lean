import Mathlib.Data.List.Chain
import Mathlib.Data.List.GetD
import WeavePy.Codecs.Utf7
import WeavePy.Lib.ByteOrder

/-!
UTF-7, encoded; and the bits that a shift carries from the encoder to the decoder.
-/

namespace WeavePy.Codecs


section Encoding

/-- 0 = Set D (direct), 1 = Set O, 2 = whitespace, 3 = special. -/
def cat : List ℕ := [
  3, 3, 3, 3, 3, 3, 3, 3, 3, 2, 2, 3, 3, 2, 3, 3,
  3, 3, 3, 3, 3, 3, 3, 3, 3, 3, 3, 3, 3, 3, 3, 3,
  2, 1, 1, 1, 1, 1, 1, 0, 0, 0, 1, 3, 0, 0, 0, 0,
  0, 0, 0, 0, 0, 0, 0, 0, 0, 0, 0, 1, 1, 1, 1, 0,
  1, 0, 0, 0, 0, 0, 0, 0, 0, 0, 0, 0, 0, 0, 0, 0,
  0, 0, 0, 0, 0, 0, 0, 0, 0, 0, 0, 1, 3, 1, 1, 1,
  1, 0, 0, 0, 0, 0, 0, 0, 0, 0, 0, 0, 0, 0, 0, 0,
  0, 0, 0, 0, 0, 0, 0, 0, 0, 0, 0, 1, 1, 1, 3, 3]

def encodeDirect (cp : ℕ) : Bool := cp > 0 && cp < 128 && cat.getD cp 3 ≤ 2

def b64Chars : List UInt8 := "ABCDEFGHIJKLMNOPQRSTUVWXYZabcdefghijklmnopqrstuvwxyz0123456789+/".toList.map Char.toUInt8

def b64Char (v : ℕ) : UInt8 := b64Chars.getD v 0

/-- What the encoder carries from one code point to the next. -/
structure Utf7Writer where
  inShift : Bool
  base64bits : ℕ
  base64buffer : ℕ

/-- The base64 characters of the bits that fill one, and the bits left. -/
def drainBits (buffer : ℕ) (bits : ℕ) : List UInt8 × ℕ :=
  if bits ≥ 6 then
    let r := drainBits buffer (bits - 6)
    (b64Char ((buffer >>> (bits - 6)) &&& 0x3F) :: r.1, r.2)
  else ([], bits)
termination_by bits

def pushUnit (st : Utf7Writer) (u : ℕ) : Utf7Writer × List UInt8 :=
  let buffer := ((st.base64buffer <<< 16) ||| u) % 2 ^ 64
  let r := drainBits buffer (st.base64bits + 16)
  ({ st with base64bits := r.2, base64buffer := buffer }, r.1)

def encodeChar (st : Utf7Writer) (ch : ℕ) : Utf7Writer × List UInt8 :=
  if ch ≥ 0x10000 then
    let v := ch - 0x10000
    let hi := pushUnit st (0xD800 + (v >>> 10))
    let lo := pushUnit hi.1 (0xDC00 + (v &&& 0x3FF))
    (lo.1, hi.2 ++ lo.2)
  else pushUnit st ch

/-- The last bits of a shift, filled up to a character. -/
def padBits (st : Utf7Writer) : List UInt8 :=
  if st.base64bits > 0 then [b64Char ((st.base64buffer <<< (6 - st.base64bits)) &&& 0x3F)] else []

def leaveBits (st : Utf7Writer) : Utf7Writer :=
  if st.base64bits > 0 then ⟨false, 0, 0⟩ else { st with inShift := false }

/-- A shift is closed by a `-` only before a character that would go on with it. -/
def shiftEnd (ch : ℕ) : List UInt8 := if isBase64 ch.toUInt8 || ch == minus.toNat then [minus] else []

def utf7Put (st : Utf7Writer) (ch : ℕ) : Utf7Writer × List UInt8 :=
  if st.inShift then
    if encodeDirect ch then
      (leaveBits st, padBits st ++ shiftEnd ch ++ [ch.toUInt8])
    else encodeChar st ch
  else if ch = plus.toNat then (st, [plus, minus])
  else if encodeDirect ch then (st, [ch.toUInt8])
  else
    let r := encodeChar { st with inShift := true } ch
    (r.1, plus :: r.2)

def utf7Close (st : Utf7Writer) : List UInt8 := padBits st ++ if st.inShift then [minus] else []

/-- What is written from the state `st` on. -/
def utf7Write (st : Utf7Writer) : List ℕ → List UInt8
  | [] => utf7Close st
  | ch :: cps => (utf7Put st ch).2 ++ utf7Write (utf7Put st ch).1 cps

def utf7Encode (cps : List ℕ) : List UInt8 := utf7Write ⟨false, 0, 0⟩ cps

end Encoding

section Ascii

theorem b64Char_spec {v : ℕ} (h : v < 64) : isBase64 (b64Char v) = true ∧ fromBase64 (b64Char v) = v := by
  have hall : ∀ k : Fin 64, isBase64 (b64Char k) = true ∧ fromBase64 (b64Char k) = k := by decide +kernel
  exact hall ⟨v, h⟩

theorem encodeDirect_spec {cp : ℕ} (h : encodeDirect cp = true) : cp < 128 ∧ cp ≠ plus.toNat ∧ cp.toUInt8.toNat = cp := by
  have hlt : cp < 128 := by
    simp only [encodeDirect, Bool.and_eq_true, decide_eq_true_eq] at h
    exact h.1.2
  refine ⟨hlt, ?_, UInt8.toNat_ofNat_of_lt' (Nat.lt_trans hlt (by decide))⟩
  rintro rfl
  exact absurd h (by decide)

def Ascii (s : List UInt8) : Prop := ∀ c ∈ s, c.toNat ≤ 127

theorem Ascii.nil : Ascii [] := by
  intro c hc
  cases hc

theorem Ascii.cons {c : UInt8} {s : List UInt8} (hc : c.toNat ≤ 127) (hs : Ascii s) : Ascii (c :: s) := by
  intro d hd
  rcases List.mem_cons.1 hd with rfl | hd
  · exact hc
  · exact hs d hd

theorem Ascii.append {s t : List UInt8} (hs : Ascii s) (ht : Ascii t) : Ascii (s ++ t) := by
  intro c hc
  exact (List.mem_append.1 hc).elim (hs c) (ht c)

theorem b64Char_ascii (v : ℕ) : (b64Char v).toNat ≤ 127 := by
  by_cases hv : v < 64
  · have h := (b64Char_spec hv).1
    revert h
    apply Bytes.byte_cases (p := fun c => isBase64 c = true → c.toNat ≤ 127)
    decide +kernel
  · have : b64Char v = 0 := List.getD_eq_default _ _ (Nat.le_of_not_lt hv)
    rw [this]
    decide

theorem drainBits_ascii (buffer bits : ℕ) : Ascii (drainBits buffer bits).1 := by
  induction bits using Nat.strongRecOn with
  | ind bits ih =>
    rw [drainBits]
    split_ifs with hbits
    · intro c hc
      rcases List.mem_cons.1 hc with rfl | hc
      · exact b64Char_ascii _
      · exact ih (bits - 6) (by omega) c hc
    · exact fun c hc => absurd hc List.not_mem_nil

theorem encodeChar_ascii (st : Utf7Writer) (ch : ℕ) : Ascii (encodeChar st ch).2 := by
  unfold encodeChar pushUnit
  split_ifs
  · exact (drainBits_ascii _ _).append (drainBits_ascii _ _)
  · exact drainBits_ascii _ _

theorem padBits_ascii (st : Utf7Writer) : Ascii (padBits st) := by
  unfold padBits
  split_ifs
  · intro c hc
    obtain rfl := List.mem_singleton.1 hc
    exact b64Char_ascii _
  · exact fun c hc => absurd hc List.not_mem_nil

theorem utf7Put_ascii (st : Utf7Writer) (ch : ℕ) : Ascii (utf7Put st ch).2 := by
  have hdirect : ∀ cp, encodeDirect cp = true → Ascii [cp.toUInt8] := by
    intro cp hcp c hc
    obtain ⟨hlt, -, hval⟩ := encodeDirect_spec hcp
    obtain rfl := List.mem_singleton.1 hc
    rw [hval]
    omega
  have hend : Ascii (shiftEnd ch) := by
    unfold shiftEnd
    split_ifs
    · exact Ascii.nil.cons (by decide)
    · exact Ascii.nil
  unfold utf7Put
  by_cases hshift : st.inShift = true
  · rw [if_pos hshift]
    by_cases hd : encodeDirect ch = true
    · rw [if_pos hd]
      exact ((padBits_ascii st).append hend).append (hdirect ch hd)
    · rw [if_neg hd]
      exact encodeChar_ascii st ch
  · rw [if_neg hshift]
    by_cases hplus : ch = plus.toNat
    · rw [if_pos hplus]
      exact (Ascii.nil.cons (by decide)).cons (by decide)
    · rw [if_neg hplus]
      by_cases hd : encodeDirect ch = true
      · rw [if_pos hd]
        exact hdirect ch hd
      · rw [if_neg hd]
        intro c hc
        rcases List.mem_cons.1 hc with rfl | hc
        · decide
        · exact encodeChar_ascii _ ch c hc

theorem utf7Write_ascii (st : Utf7Writer) (cps : List ℕ) : Ascii (utf7Write st cps) := by
  induction cps generalizing st with
  | nil =>
    refine (padBits_ascii st).append ?_
    split_ifs
    · exact Ascii.nil.cons (by decide)
    · exact Ascii.nil
  | cons ch cps ih => exact (utf7Put_ascii st ch).append (ih _)

end Ascii

end WeavePy.Codecs
