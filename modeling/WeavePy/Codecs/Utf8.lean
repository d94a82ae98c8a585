import WeavePy.Codecs.Handlers

/-!
UTF-8, decoded and encoded.
-/

namespace WeavePy.Codecs

def bits2 (b0 b1 : UInt8) : ℕ := ((b0.toNat &&& 0x1F) <<< 6) ||| (b1.toNat &&& 0x3F)

def bits4 (b0 b1 b2 b3 : UInt8) : ℕ :=
  ((b0.toNat &&& 0x07) <<< 18) ||| ((b1.toNat &&& 0x3F) <<< 12) ||| ((b2.toNat &&& 0x3F) <<< 6) |||
    (b3.toNat &&& 0x3F)

def invalidStart : String := "invalid start byte"
def invalidCont : String := "invalid continuation byte"
def endOfData : String := "unexpected end of data"

/-- A sequence that `b` opens and one more byte ends. -/
def scan2 (b : UInt8) : List UInt8 → Scan
  | [] => .incomplete 1 endOfData
  | b1 :: _ => if ¬ isCont b1 then .err 1 invalidCont else .ok (bits2 b b1) 2

/-- A second byte that cannot follow: `low` admits none below `bound`, and `high` none from it on. -/
def badSecond (bound low high : ℕ) (b b1 : UInt8) : Prop :=
  ¬ isCont b1 ∨ if b1.toNat < bound then b.toNat = low else b.toNat = high

instance (bound low high : ℕ) (b b1 : UInt8) : Decidable (badSecond bound low high b b1) :=
  inferInstanceAs (Decidable (_ ∨ _))

def scan3 (b : UInt8) : List UInt8 → Scan
  | [] => .incomplete 1 endOfData
  | b1 :: s =>
    if badSecond 0xA0 0xE0 0xED b b1 then .err 1 invalidCont
    else
      match s with
      | [] => .incomplete 2 endOfData
      | b2 :: _ => if ¬ isCont b2 then .err 2 invalidCont else .ok (bits3 b b1 b2) 3

def scan4 (b : UInt8) : List UInt8 → Scan
  | [] => .incomplete 1 endOfData
  | b1 :: s =>
    if badSecond 0x90 0xF0 0xF4 b b1 then .err 1 invalidCont
    else
      match s with
      | [] => .incomplete 2 endOfData
      | b2 :: s =>
        if ¬ isCont b2 then .err 2 invalidCont
        else
          match s with
          | [] => .incomplete 3 endOfData
          | b3 :: _ => if ¬ isCont b3 then .err 3 invalidCont else .ok (bits4 b b1 b2 b3) 4

def utf8Scan : List UInt8 → Scan
  | [] => .incomplete 0 endOfData
  | b :: s =>
    if b.toNat < 0x80 then .ok b.toNat 1
    else if b.toNat < 0xC2 then .err 1 invalidStart
    else if b.toNat < 0xE0 then scan2 b s
    else if b.toNat < 0xF0 then scan3 b s
    else if b.toNat < 0xF5 then scan4 b s
    else .err 1 invalidStart

/-- The truncated surrogate that a call that is not final leaves for the next one. -/
def heldSurrogate : List UInt8 → Bool
  | [b, b1] => b.toNat = 0xED ∧ 0xA0 ≤ b1.toNat ∧ b1.toNat ≤ 0xBF
  | _ => false

def utf8Step (ctx : DecCtx) (isFinal : Bool) (i : ℕ) (s : List UInt8) :
    Except CodecError (Transducer.Step ℕ) :=
  if isFinal = false ∧ heldSurrogate s then .ok .hold else ctx.step utf8Scan isFinal i s

/-- The text and the count of bytes consumed. -/
def utf8Decode (errors : Handler) (isFinal : Bool) (data : List UInt8) :
    Except CodecError (List ℕ × ℕ) :=
  Transducer.decode (utf8Step ⟨.utf8, errors⟩ isFinal) .diverge 0 data

def IsScalar (cp : ℕ) : Prop := cp < 0x110000 ∧ ¬ IsSurrogate cp

instance (cp : ℕ) : Decidable (IsScalar cp) := inferInstanceAs (Decidable (_ ∧ _))

/-- `char::encode_utf8`. -/
def encodeUtf8 (cp : ℕ) : List UInt8 :=
  if cp < 0x80 then [cp.toUInt8]
  else if cp < 0x800 then [(0xC0 + cp / 64).toUInt8, (0x80 + cp % 64).toUInt8]
  else if cp < 0x10000 then
    [(0xE0 + cp / 4096).toUInt8, (0x80 + cp / 64 % 64).toUInt8, (0x80 + cp % 64).toUInt8]
  else
    [(0xF0 + cp / 262144).toUInt8, (0x80 + cp / 4096 % 64).toUInt8, (0x80 + cp / 64 % 64).toUInt8,
      (0x80 + cp % 64).toUInt8]

/-- `char::from_u32` decides which points are encoded. -/
def emitUtf8 (cp : ℕ) : Option (List UInt8) := if IsScalar cp then some (encodeUtf8 cp) else none

def notAllowed : String := "surrogates not allowed"

def utf8Encode (errors : Handler) (names : Names) (cps : List ℕ) : Except CodecError (List UInt8) :=
  EncCtx.encode ⟨.utf8, errors, names⟩ notAllowed emitUtf8 cps

theorem shiftLeft_or {a b k : ℕ} (h : b < 2 ^ k) : (a <<< k) ||| b = a * 2 ^ k + b := by
  rw [← Nat.shiftLeft_add_eq_or_of_lt h, Nat.shiftLeft_eq]

theorem bits2_eq (b0 b1 : UInt8) : bits2 b0 b1 = b0.toNat % 32 * 64 + b1.toNat % 64 := by
  have h0 : b0.toNat &&& 0x1F = b0.toNat % 2 ^ 5 := Nat.and_two_pow_sub_one_eq_mod _ 5
  have h1 : b1.toNat &&& 0x3F = b1.toNat % 2 ^ 6 := Nat.and_two_pow_sub_one_eq_mod _ 6
  rw [bits2, h0, h1, shiftLeft_or (Nat.mod_lt _ (by decide))]
  omega

theorem bits3_eq (b0 b1 b2 : UInt8) :
    bits3 b0 b1 b2 = b0.toNat % 16 * 4096 + b1.toNat % 64 * 64 + b2.toNat % 64 := by
  have h0 : b0.toNat &&& 0x0F = b0.toNat % 2 ^ 4 := Nat.and_two_pow_sub_one_eq_mod _ 4
  have h1 : b1.toNat &&& 0x3F = b1.toNat % 2 ^ 6 := Nat.and_two_pow_sub_one_eq_mod _ 6
  have h2 : b2.toNat &&& 0x3F = b2.toNat % 2 ^ 6 := Nat.and_two_pow_sub_one_eq_mod _ 6
  have hsplit : (b0.toNat % 2 ^ 4) <<< 12 = ((b0.toNat % 2 ^ 4) <<< 6) <<< 6 := by
    rw [← Nat.shiftLeft_add]
  rw [bits3, h0, h1, h2, hsplit, ← Nat.shiftLeft_or_distrib,
    shiftLeft_or (Nat.mod_lt _ (by decide)), shiftLeft_or (Nat.mod_lt _ (by decide))]
  omega

theorem bits4_eq (b0 b1 b2 b3 : UInt8) :
    bits4 b0 b1 b2 b3 =
      b0.toNat % 8 * 262144 + b1.toNat % 64 * 4096 + b2.toNat % 64 * 64 + b3.toNat % 64 := by
  have h0 : b0.toNat &&& 0x07 = b0.toNat % 2 ^ 3 := Nat.and_two_pow_sub_one_eq_mod _ 3
  have h1 : b1.toNat &&& 0x3F = b1.toNat % 2 ^ 6 := Nat.and_two_pow_sub_one_eq_mod _ 6
  have h2 : b2.toNat &&& 0x3F = b2.toNat % 2 ^ 6 := Nat.and_two_pow_sub_one_eq_mod _ 6
  have h3 : b3.toNat &&& 0x3F = b3.toNat % 2 ^ 6 := Nat.and_two_pow_sub_one_eq_mod _ 6
  have hsplit : (b0.toNat % 2 ^ 3) <<< 18 ||| (b1.toNat % 2 ^ 6) <<< 12 =
      (((b0.toNat % 2 ^ 3) <<< 6 ||| b1.toNat % 2 ^ 6) <<< 6) <<< 6 := by
    rw [← Nat.shiftLeft_add, Nat.shiftLeft_or_distrib, ← Nat.shiftLeft_add]
  rw [bits4, h0, h1, h2, h3, hsplit, ← Nat.shiftLeft_or_distrib,
    shiftLeft_or (Nat.mod_lt _ (by decide)), shiftLeft_or (Nat.mod_lt _ (by decide)),
    shiftLeft_or (Nat.mod_lt _ (by decide))]
  omega

@[simp]
theorem toNat_toUInt8 {n : ℕ} : n.toUInt8.toNat = n % 256 := UInt8.toNat_ofNat'

theorem not_badSecond {bound low high : ℕ} {b b1 : UInt8} :
    ¬ badSecond bound low high b b1 ↔ isCont b1 ∧ (b1.toNat < bound → b.toNat ≠ low) ∧
      (bound ≤ b1.toNat → b.toNat ≠ high) := by
  rw [badSecond, not_or, not_not]
  split_ifs <;> simp <;> omega

/-- The decoder finds what the encoder wrote. -/
theorem utf8Scan_encodeUtf8 {cp : ℕ} (h : IsScalar cp) (rest : List UInt8) :
    utf8Scan (encodeUtf8 cp ++ rest) = .ok cp (encodeUtf8 cp).length := by
  obtain ⟨hmax, hsur⟩ := h
  rw [IsSurrogate] at hsur
  rw [encodeUtf8]
  split_ifs with h1 h2 h3
  · simp only [List.cons_append, utf8Scan, toNat_toUInt8]
    rw [if_pos (by omega), Nat.mod_eq_of_lt (by omega)]
    rfl
  · simp only [List.cons_append, utf8Scan, scan2, toNat_toUInt8, isCont, bits2_eq]
    rw [if_neg (by omega), if_neg (by omega), if_pos (by omega), if_neg (by omega)]
    congr 1
    omega
  · simp only [List.cons_append, utf8Scan, scan3, toNat_toUInt8, isCont, bits3_eq]
    rw [if_neg (by omega), if_neg (by omega), if_neg (by omega), if_pos (by omega),
      if_neg (not_badSecond.mpr (by simp [isCont]; omega)), if_neg (by omega)]
    congr 1
    omega
  · simp only [List.cons_append, utf8Scan, scan4, toNat_toUInt8, isCont, bits4_eq]
    rw [if_neg (by omega), if_neg (by omega), if_neg (by omega), if_neg (by omega),
      if_pos (by omega), if_neg (not_badSecond.mpr (by simp [isCont]; omega)), if_neg (by omega), if_neg (by omega)]
    congr 1
    omega

theorem toUInt8_eq {b : UInt8} {n : ℕ} (h : n = b.toNat) : n.toUInt8 = b := by
  subst h
  exact UInt8.ofNat_toNat

/-- A point read as the first `len` bytes of `s`. -/
structure Reads (s : List UInt8) (cp len : ℕ) : Prop where
  scalar : IsScalar cp
  bytes : encodeUtf8 cp = s.take len
  le : len ≤ s.length

theorem scan2_ok {b : UInt8} {s : List UInt8} {cp len : ℕ} (hlo : 0xC2 ≤ b.toNat)
    (hhi : b.toNat < 0xE0) (h : scan2 b s = .ok cp len) : Reads (b :: s) cp len := by
  cases s with
  | nil => cases h
  | cons b1 s =>
    rw [scan2] at h
    split_ifs at h with h1
    rw [isCont] at h1
    obtain ⟨rfl, rfl⟩ := Scan.ok.inj h
    rw [bits2_eq]
    refine ⟨⟨by omega, by rw [IsSurrogate]; omega⟩, ?_, by simp⟩
    rw [encodeUtf8, if_neg (by omega), if_pos (by omega), toUInt8_eq (b := b) (by omega),
      toUInt8_eq (b := b1) (by omega)]
    rfl

theorem scan3_ok {b : UInt8} {s : List UInt8} {cp len : ℕ} (hlo : 0xE0 ≤ b.toNat)
    (hhi : b.toNat < 0xF0) (h : scan3 b s = .ok cp len) : Reads (b :: s) cp len := by
  rcases s with - | ⟨b1, - | ⟨b2, s⟩⟩
  · cases h
  · rw [scan3] at h
    split_ifs at h
  rw [scan3] at h
  split_ifs at h with h1 h2
  obtain ⟨rfl, rfl⟩ := Scan.ok.inj h
  rw [not_badSecond] at h1
  simp only [isCont] at h1 h2
  rw [bits3_eq]
  refine ⟨⟨by omega, by rw [IsSurrogate]; omega⟩, ?_, by simp⟩
  rw [encodeUtf8, if_neg (by omega), if_neg (by omega), if_pos (by omega),
    toUInt8_eq (b := b) (by omega), toUInt8_eq (b := b1) (by omega),
    toUInt8_eq (b := b2) (by omega)]
  rfl

theorem scan4_ok {b : UInt8} {s : List UInt8} {cp len : ℕ} (hlo : 0xF0 ≤ b.toNat)
    (hhi : b.toNat < 0xF5) (h : scan4 b s = .ok cp len) : Reads (b :: s) cp len := by
  rcases s with - | ⟨b1, - | ⟨b2, - | ⟨b3, s⟩⟩⟩
  · cases h
  · rw [scan4] at h
    split_ifs at h
  · rw [scan4] at h
    split_ifs at h
  rw [scan4] at h
  split_ifs at h with h1 h2 h3
  obtain ⟨rfl, rfl⟩ := Scan.ok.inj h
  rw [not_badSecond] at h1
  simp only [isCont] at h1 h2 h3
  rw [bits4_eq]
  refine ⟨⟨by omega, by rw [IsSurrogate]; omega⟩, ?_, by simp⟩
  rw [encodeUtf8, if_neg (by omega), if_neg (by omega), if_neg (by omega),
    toUInt8_eq (b := b) (by omega), toUInt8_eq (b := b1) (by omega),
    toUInt8_eq (b := b2) (by omega), toUInt8_eq (b := b3) (by omega)]
  rfl

/-- What the decoder accepts is the encoding of a scalar value. -/
theorem utf8Scan_ok {s : List UInt8} {cp len : ℕ} (h : utf8Scan s = .ok cp len) :
    Reads s cp len := by
  cases s with
  | nil => cases h
  | cons b s =>
    rw [utf8Scan] at h
    split_ifs at h with h1 h2 h3 h4 h5
    · obtain ⟨rfl, rfl⟩ := Scan.ok.inj h
      refine ⟨⟨by omega, by rw [IsSurrogate]; omega⟩, ?_, by simp⟩
      rw [encodeUtf8, if_pos h1, toUInt8_eq rfl]
      rfl
    · exact scan2_ok (by omega) h3 h
    · exact scan3_ok (by omega) h4 h
    · exact scan4_ok (by omega) h5 h

/-- The bytes `u` of `s` go on a sequence, and are what is read of it. -/
def Follows (u s : List UInt8) (count : ℕ) : Prop :=
  (∃ v, s = u ++ v) ∧ count = u.length + 1 ∧ u.length ≤ 2 ∧ ∀ x ∈ u, isCont x

theorem follows_nil (s : List UInt8) : Follows [] s 1 := ⟨⟨s, rfl⟩, rfl, by simp, by simp⟩

theorem follows_one {b1 : UInt8} (h1 : isCont b1) (s : List UInt8) : Follows [b1] (b1 :: s) 2 :=
  ⟨⟨s, rfl⟩, rfl, by simp, by simpa using h1⟩

theorem follows_two {b1 b2 : UInt8} (h1 : isCont b1) (h2 : isCont b2) (s : List UInt8) :
    Follows [b1, b2] (b1 :: b2 :: s) 3 :=
  ⟨⟨s, rfl⟩, rfl, by simp, by simp [h1, h2]⟩

theorem scan2_err {b : UInt8} {s : List UInt8} {span : ℕ} {reason : String}
    (h : scan2 b s = .err span reason) : ∃ u, Follows u s span := by
  cases s with
  | nil => cases h
  | cons b1 s =>
    rw [scan2] at h
    split_ifs at h
    obtain ⟨rfl, -⟩ := Scan.err.inj h
    exact ⟨[], follows_nil _⟩

theorem scan3_err {b : UInt8} {s : List UInt8} {span : ℕ} {reason : String}
    (h : scan3 b s = .err span reason) : ∃ u, Follows u s span := by
  rcases s with - | ⟨b1, - | ⟨b2, s⟩⟩
  · cases h
  · rw [scan3] at h
    split_ifs at h
    obtain ⟨rfl, -⟩ := Scan.err.inj h
    exact ⟨[], follows_nil _⟩
  · rw [scan3] at h
    split_ifs at h with h1 h2
    · obtain ⟨rfl, -⟩ := Scan.err.inj h
      exact ⟨[], follows_nil _⟩
    · obtain ⟨rfl, -⟩ := Scan.err.inj h
      exact ⟨[b1], follows_one (not_badSecond.mp h1).1 _⟩

theorem scan4_err {b : UInt8} {s : List UInt8} {span : ℕ} {reason : String}
    (h : scan4 b s = .err span reason) : ∃ u, Follows u s span := by
  rcases s with - | ⟨b1, - | ⟨b2, - | ⟨b3, s⟩⟩⟩
  · cases h
  · rw [scan4] at h
    split_ifs at h
    obtain ⟨rfl, -⟩ := Scan.err.inj h
    exact ⟨[], follows_nil _⟩
  · rw [scan4] at h
    split_ifs at h with h1 h2
    · obtain ⟨rfl, -⟩ := Scan.err.inj h
      exact ⟨[], follows_nil _⟩
    · obtain ⟨rfl, -⟩ := Scan.err.inj h
      exact ⟨[b1], follows_one (not_badSecond.mp h1).1 _⟩
  · rw [scan4] at h
    split_ifs at h with h1 h2 h3
    · obtain ⟨rfl, -⟩ := Scan.err.inj h
      exact ⟨[], follows_nil _⟩
    · obtain ⟨rfl, -⟩ := Scan.err.inj h
      exact ⟨[b1, b2], follows_two (not_badSecond.mp h1).1 h2 _⟩
    · obtain ⟨rfl, -⟩ := Scan.err.inj h
      exact ⟨[b1], follows_one (not_badSecond.mp h1).1 _⟩

/-- A part of the input that an error covers: up to three bytes, none of ASCII. -/
structure Spanned (s : List UInt8) (span : ℕ) : Prop where
  pos : 0 < span
  le : span ≤ s.length
  small : span ≤ 3
  high : ∀ b ∈ s.take span, 0x80 ≤ b.toNat

theorem Follows.spanned {b : UInt8} {u s : List UInt8} {span : ℕ} (h : Follows u s span)
    (hb : 0x80 ≤ b.toNat) : Spanned (b :: s) span := by
  obtain ⟨⟨v, rfl⟩, rfl, hsmall, hu⟩ := h
  refine ⟨by simp, by simp, by omega, ?_⟩
  rw [List.take_succ_cons, List.take_left]
  intro x hx
  rcases List.mem_cons.mp hx with rfl | hx
  · exact hb
  · exact (hu x hx).1

theorem utf8Scan_err {s : List UInt8} {span : ℕ} {reason : String}
    (h : utf8Scan s = .err span reason) : Spanned s span := by
  cases s with
  | nil => cases h
  | cons b s =>
    rw [utf8Scan] at h
    split_ifs at h with h1 h2 h3 h4 h5
    · obtain ⟨rfl, -⟩ := Scan.err.inj h
      exact (follows_nil s).spanned (by omega)
    · obtain ⟨u, hu⟩ := scan2_err h
      exact hu.spanned (by omega)
    · obtain ⟨u, hu⟩ := scan3_err h
      exact hu.spanned (by omega)
    · obtain ⟨u, hu⟩ := scan4_err h
      exact hu.spanned (by omega)
    · obtain ⟨rfl, -⟩ := Scan.err.inj h
      exact (follows_nil s).spanned (by omega)

theorem scan2_incomplete {b : UInt8} {s : List UInt8} {avail : ℕ} {reason : String}
    (h : scan2 b s = .incomplete avail reason) : Follows s s avail := by
  cases s with
  | nil =>
    obtain ⟨rfl, -⟩ := Scan.incomplete.inj h
    exact follows_nil _
  | cons b1 s =>
    rw [scan2] at h
    split_ifs at h

theorem scan3_incomplete {b : UInt8} {s : List UInt8} {avail : ℕ} {reason : String}
    (h : scan3 b s = .incomplete avail reason) : Follows s s avail := by
  rcases s with - | ⟨b1, - | ⟨b2, s⟩⟩
  · obtain ⟨rfl, -⟩ := Scan.incomplete.inj h
    exact follows_nil _
  · rw [scan3] at h
    split_ifs at h with h1
    obtain ⟨rfl, -⟩ := Scan.incomplete.inj h
    exact follows_one (not_badSecond.mp h1).1 _
  · rw [scan3] at h
    split_ifs at h

theorem scan4_incomplete {b : UInt8} {s : List UInt8} {avail : ℕ} {reason : String}
    (h : scan4 b s = .incomplete avail reason) : Follows s s avail := by
  rcases s with - | ⟨b1, - | ⟨b2, - | ⟨b3, s⟩⟩⟩
  · obtain ⟨rfl, -⟩ := Scan.incomplete.inj h
    exact follows_nil _
  · rw [scan4] at h
    split_ifs at h with h1
    obtain ⟨rfl, -⟩ := Scan.incomplete.inj h
    exact follows_one (not_badSecond.mp h1).1 _
  · rw [scan4] at h
    split_ifs at h with h1 h2
    obtain ⟨rfl, -⟩ := Scan.incomplete.inj h
    exact follows_two (not_badSecond.mp h1).1 h2 _
  · rw [scan4] at h
    split_ifs at h

theorem utf8Scan_incomplete {s : List UInt8} {avail : ℕ} {reason : String} (hs : s ≠ [])
    (h : utf8Scan s = .incomplete avail reason) : Spanned s avail ∧ avail = s.length := by
  cases s with
  | nil => exact absurd rfl hs
  | cons b s =>
    rw [utf8Scan] at h
    split_ifs at h with h1 h2 h3 h4 h5
    · have hf := scan2_incomplete h
      exact ⟨hf.spanned (by omega), hf.2.1⟩
    · have hf := scan3_incomplete h
      exact ⟨hf.spanned (by omega), hf.2.1⟩
    · have hf := scan4_incomplete h
      exact ⟨hf.spanned (by omega), hf.2.1⟩

end WeavePy.Codecs
