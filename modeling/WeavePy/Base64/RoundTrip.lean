import WeavePy.Base64.FastPath

/-!
Which inputs the decoder accepts in strict mode, and what lenient mode passes over.
-/

namespace WeavePy.Base64

section Strict

/-- Whole quads of digits, then nothing or one padded quad. -/
def StrictForm (data : List UInt8) : Prop :=
  ∃ quads last, data = quads ++ last ∧ quads.length % 4 = 0 ∧ (∀ c ∈ quads, IsDigit c) ∧
    (last = [] ∨ (∃ a b, IsDigit a ∧ IsDigit b ∧ last = [a, b, pad, pad]) ∨
      ∃ a b c, IsDigit a ∧ IsDigit b ∧ IsDigit c ∧ last = [a, b, c, pad])

/-- What may follow the first `q` digits of a quad. -/
inductive Follows : ℕ → List UInt8 → Prop where
  | done : Follows 0 []
  | digit {q : ℕ} {c : UInt8} {data : List UInt8} (hc : IsDigit c) (h : Follows ((q + 1) % 4) data) : Follows q (c :: data)
  | twoPads : Follows 2 [pad, pad]
  | onePad : Follows 3 [pad]

theorem Follows.strictForm {q : ℕ} {data : List UInt8} (h : Follows q data) (hq : q < 4) (front : List UInt8)
    (hfront : front.length = q) (hdigits : ∀ c ∈ front, IsDigit c) : StrictForm (front ++ data) := by
  induction h generalizing front with
  | done =>
    obtain rfl := List.eq_nil_of_length_eq_zero hfront
    exact ⟨[], [], rfl, rfl, hdigits, .inl rfl⟩
  | @digit q c data hc h ih =>
    have hmore : ∀ d ∈ front ++ [c], IsDigit d := by
      intro d hd
      rcases List.mem_append.1 hd with hd | hd
      · exact hdigits d hd
      · exact List.mem_singleton.1 hd ▸ hc
    have hlength : (front ++ [c]).length = q + 1 := by simp [hfront]
    rcases Nat.lt_or_ge (q + 1) 4 with hlt | hge
    · have := ih (Nat.mod_lt _ (by decide)) (front ++ [c]) (by rw [hlength, Nat.mod_eq_of_lt hlt]) hmore
      simpa using this
    · obtain rfl : q = 3 := by omega
      obtain ⟨quads, last, hdata, hmod, hall, hlast⟩ := ih (by decide) [] rfl (by simp)
      refine ⟨front ++ [c] ++ quads, last, ?_, ?_, ?_, hlast⟩
      · rw [List.nil_append] at hdata
        simp [hdata]
      · rw [List.length_append, hlength]
        omega
      · intro d hd
        exact (List.mem_append.1 hd).elim (hmore d) (hall d)
  | twoPads =>
    obtain ⟨a, b, rfl⟩ := List.length_eq_two.1 hfront
    exact ⟨[], _, rfl, rfl, by simp, .inr (.inl ⟨a, b, hdigits a (by simp), hdigits b (by simp), rfl⟩)⟩
  | onePad =>
    obtain ⟨a, b, c, rfl⟩ := List.length_eq_three.1 hfront
    exact ⟨[], _, rfl, rfl, by simp,
      .inr (.inr ⟨a, b, c, hdigits a (by simp), hdigits b (by simp), hdigits c (by simp), rfl⟩)⟩

theorem follows_quads (n : ℕ) {quads last : List UInt8} (hlength : quads.length = 4 * n) (hdigits : ∀ c ∈ quads, IsDigit c)
    (hlast : Follows 0 last) : Follows 0 (quads ++ last) := by
  induction n generalizing quads with
  | zero =>
    obtain rfl := List.eq_nil_of_length_eq_zero hlength
    exact hlast
  | succ n ih =>
    match quads with
    | a :: b :: c :: d :: quads =>
      have hrest := @ih quads (by simp only [List.length_cons] at hlength; omega) fun e he => hdigits e (by simp [he])
      exact .digit (hdigits a (by simp)) <| .digit (hdigits b (by simp)) <| .digit (hdigits c (by simp)) <|
        .digit (hdigits d (by simp)) hrest

theorem strictForm_iff (data : List UInt8) : StrictForm data ↔ Follows 0 data := by
  constructor
  · rintro ⟨quads, last, rfl, hmod, hdigits, hlast⟩
    apply follows_quads (quads.length / 4) (by omega) hdigits
    rcases hlast with rfl | ⟨a, b, ha, hb, rfl⟩ | ⟨a, b, c, ha, hb, hc, rfl⟩
    · exact .done
    · exact .digit ha (.digit hb .twoPads)
    · exact .digit ha (.digit hb (.digit hc .onePad))
  · intro h
    exact h.strictForm (by decide) [] rfl (by simp)

def Accepts (strict : Bool) (i : ℕ) (st : DecodeState) (data : List UInt8) : Prop :=
  ∃ out, (charLoop strict i st data >>= finish) = .ok out

variable {strict : Bool} {i : ℕ} {st st' : DecodeState} {c : UInt8} {data : List UInt8} {message : String}

theorem accepts_next (h : charStep strict i st c = .next st') : Accepts strict i st (c :: data) ↔ Accepts strict (i + 1) st' data := by
  unfold Accepts
  rw [charLoop, h]

theorem accepts_leave (h : charStep strict i st c = .leave st') : Accepts strict i st (c :: data) ↔ ∃ out, finish st' = .ok out := by
  unfold Accepts
  rw [charLoop, h]
  rfl

theorem not_accepts_fail (h : charStep strict i st c = .fail message) : ¬ Accepts strict i st (c :: data) := by
  unfold Accepts
  rw [charLoop, h]
  rintro ⟨out, hout⟩
  exact absurd hout (by rintro ⟨⟩)

theorem charStep_other (hpad : c ≠ pad) (hdigit : ¬ IsDigit c) : charStep true i st c = .fail "Only base64 data is allowed" := by
  rw [b64Decode_digit, not_not] at hdigit
  unfold charStep
  rw [if_neg hpad]
  dsimp only
  rw [if_pos hdigit]
  rfl

/-- After a pad, strict mode takes no digit. -/
theorem charStep_digit_after_pad (hpads : st.pads ≠ 0) (hdigit : IsDigit c) : ∃ message, charStep true i st c = .fail message := by
  unfold charStep
  rw [if_neg (digit_ne_pad hdigit)]
  dsimp only
  rw [if_neg ((b64Decode_digit c).1 hdigit)]
  unfold dataChar
  rw [if_pos ⟨hpads, rfl⟩]
  exact ⟨_, rfl⟩

theorem pad_of_accepts (hpads : st.pads ≠ 0) (h : Accepts true i st (c :: data)) : c = pad := by
  by_contra hpad
  by_cases hdigit : IsDigit c
  · obtain ⟨message, hfail⟩ := @charStep_digit_after_pad i st c hpads hdigit
    exact not_accepts_fail hfail h
  · exact not_accepts_fail (charStep_other hpad hdigit) h

variable {out : List UInt8} {left : UInt8} {q p : ℤ}

/-- A padded quad is the end. -/
theorem accepts_closed (hclosed : (q = 2 ∧ p = 2) ∨ (q = 3 ∧ p = 1)) : Accepts true i ⟨out, q, left, p⟩ data ↔ data = [] := by
  have hpads : p ≠ 0 := by omega
  cases data with
  | nil =>
    refine iff_of_true ⟨out, ?_⟩ rfl
    rcases hclosed with ⟨rfl, rfl⟩ | ⟨rfl, rfl⟩ <;> rfl
  | cons c data =>
    refine iff_of_false (fun h => ?_) (List.cons_ne_nil c data)
    obtain rfl := pad_of_accepts hpads h
    have hfail : charStep true i ⟨out, q, left, p⟩ pad = .fail "Excess padding not allowed" := by
      rcases hclosed with ⟨rfl, rfl⟩ | ⟨rfl, rfl⟩ <;> rfl
    exact not_accepts_fail hfail h

/-- Two digits and one pad want another pad. -/
theorem accepts_half : Accepts true i ⟨out, 2, left, 1⟩ data ↔ data = [pad] := by
  cases data with
  | nil =>
    refine iff_of_false ?_ (by simp)
    rintro ⟨out, hout⟩
    exact absurd hout (by rintro ⟨⟩)
  | cons c data =>
    by_cases hpad : c = pad
    · subst hpad
      have hnext : charStep true i ⟨out, 2, left, 1⟩ pad = .next ⟨out, 2, left, 2⟩ := rfl
      rw [accepts_next hnext, accepts_closed (.inl ⟨rfl, rfl⟩)]
      simp
    · refine iff_of_false (fun h => hpad (pad_of_accepts (by change (1 : ℤ) ≠ 0; decide) h)) ?_
      rintro ⟨⟩
      exact hpad rfl

theorem digitNext_position {n : ℕ} (hn : n < 4) (val : UInt8) :
    ∃ out' left', digitNext out n left val = ⟨out', ((n + 1) % 4 : ℕ), left', 0⟩ := by
  match n with
  | 0 => exact ⟨_, _, rfl⟩
  | 1 => exact ⟨_, _, rfl⟩
  | 2 => exact ⟨_, _, rfl⟩
  | 3 => exact ⟨_, _, rfl⟩

theorem accepts_iff_follows {n : ℕ} (hn : n < 4) : Accepts true i ⟨out, n, left, 0⟩ data ↔ Follows n data := by
  induction data generalizing n i out left with
  | nil =>
    match n with
    | 0 => exact iff_of_true ⟨out, rfl⟩ .done
    | 1 | 2 | 3 =>
      refine iff_of_false ?_ (by rintro ⟨⟩)
      rintro ⟨out, hout⟩
      exact absurd hout (by rintro ⟨⟩)
  | cons c data ih =>
    by_cases hdigit : IsDigit c
    · obtain ⟨out', left', hnext⟩ := @digitNext_position out left n hn (b64Decode c)
      rw [accepts_next (charStep_digit hdigit), hnext, ih (Nat.mod_lt _ (by decide))]
      constructor
      · exact .digit hdigit
      · intro h
        cases h with
        | digit hc h => exact h
        | twoPads => exact absurd hdigit (by decide)
        | onePad => exact absurd hdigit (by decide)
    · by_cases hpad : c = pad
      · subst hpad
        match n with
        | 0 =>
          refine iff_of_false ?_ ?_
          · exact not_accepts_fail rfl
          · rintro ⟨⟩
            contradiction
        | 1 =>
          rw [accepts_leave rfl]
          refine iff_of_false ?_ ?_
          · rintro ⟨out, hout⟩
            exact absurd hout (by rintro ⟨⟩)
          · rintro ⟨⟩
            contradiction
        | 2 =>
          have hnext : charStep true i ⟨out, 2, left, 0⟩ pad = .next ⟨out, 2, left, 1⟩ := rfl
          change Accepts true i ⟨out, 2, left, 0⟩ _ ↔ _
          rw [accepts_next hnext, accepts_half]
          constructor
          · rintro rfl
            exact .twoPads
          · intro h
            cases h with
            | digit hc h => exact absurd hc hdigit
            | twoPads => rfl
        | 3 =>
          have hnext : charStep true i ⟨out, 3, left, 0⟩ pad = .next ⟨out, 3, left, 1⟩ := rfl
          change Accepts true i ⟨out, 3, left, 0⟩ _ ↔ _
          rw [accepts_next hnext, accepts_closed (.inr ⟨rfl, rfl⟩)]
          constructor
          · rintro rfl
            exact .onePad
          · intro h
            cases h with
            | digit hc h => exact absurd hc hdigit
            | onePad => rfl
      · refine iff_of_false (not_accepts_fail (charStep_other hpad hdigit)) ?_
        intro h
        cases h with
        | digit hc h => exact hdigit hc
        | twoPads => exact hpad rfl
        | onePad => exact hpad rfl

end Strict

section Lenient

def significant (c : UInt8) : Bool := decide (IsDigit c) || c == pad

/-- The second input is the first with other bytes put in anywhere. -/
inductive Interspersed : List UInt8 → List UInt8 → Prop where
  | nil : Interspersed [] []
  | keep (c : UInt8) {data data' : List UInt8} (h : Interspersed data data') : Interspersed (c :: data) (c :: data')
  | insert {c : UInt8} (hc : ¬ IsDigit c ∧ c ≠ pad) {data data' : List UInt8} (h : Interspersed data data') :
      Interspersed data (c :: data')

theorem Interspersed.filter_eq {data data' : List UInt8} (h : Interspersed data data') :
    data'.filter significant = data.filter significant := by
  induction h with
  | nil => rfl
  | keep c h ih => rw [List.filter_cons, List.filter_cons, ih]
  | @insert c hc data data' h ih =>
    have hother : significant c = false := by simp [significant, hc.1, hc.2]
    rw [List.filter_cons, hother, ← ih]
    rfl

/-- Lenient mode goes on after every character, wherever it stands. -/
theorem charStep_lenient (i j : ℕ) (st : DecodeState) (c : UInt8) :
    ∃ st', charStep false i st c = .next st' ∧ charStep false j st c = .next st' ∧ (significant c = false → st' = st) := by
  unfold charStep
  by_cases hpad : c = pad
  · have hsignificant : significant c ≠ false := by simp [significant, hpad]
    rw [if_pos hpad, if_pos hpad]
    unfold padChar
    dsimp only
    split_ifs
    · exact ⟨_, rfl, rfl, fun h => absurd h hsignificant⟩
    · exact ⟨_, rfl, rfl, fun h => absurd h hsignificant⟩
    all_goals contradiction
  · rw [if_neg hpad, if_neg hpad]
    dsimp only
    by_cases hother : b64Decode c = b64Invalid
    · rw [if_pos hother]
      exact ⟨st, rfl, rfl, fun _ => rfl⟩
    · have hsignificant : significant c ≠ false := by simp [significant, (b64Decode_digit c).2 hother]
      rw [if_neg hother]
      unfold dataChar
      rw [if_neg (by simp)]
      exact ⟨_, rfl, rfl, fun h => absurd h hsignificant⟩

theorem charLoop_filter (i j : ℕ) (st : DecodeState) (data : List UInt8) :
    charLoop false i st data = charLoop false j st (data.filter significant) := by
  induction data generalizing i j st with
  | nil => rfl
  | cons c data ih =>
    obtain ⟨st', hi, hj, hsame⟩ := charStep_lenient i j st c
    rw [charLoop, hi]
    cases hc : significant c with
    | false =>
      rw [List.filter_cons, hc, hsame hc]
      exact ih (i + 1) j st
    | true =>
      rw [List.filter_cons, hc]
      change _ = charLoop false j st (c :: data.filter significant)
      rw [charLoop, hj]
      exact ih (i + 1) (j + 1) st'

end Lenient

end WeavePy.Base64

/-!
Decoding what the encoder writes.
-/

namespace WeavePy.Base64

open Bytes

section Digits

theorem encodeGroup_digits (b0 b1 b2 : UInt8) : encodeGroup b0 b1 b2 =
    [b64Encode (b0.toNat / 4), b64Encode (b0.toNat % 4 * 16 + b1.toNat / 16),
      b64Encode (b1.toNat % 16 * 4 + b2.toNat / 64), b64Encode (b2.toNat % 64)] := by
  have h0 := UInt8.toNat_lt b0
  have h1 := UInt8.toNat_lt b1
  have h2 := UInt8.toNat_lt b2
  have hn : (b0.toUInt32 <<< 16 ||| b1.toUInt32 <<< 8 ||| b2.toUInt32).toNat =
      b0.toNat * 2 ^ 16 + b1.toNat * 2 ^ 8 + b2.toNat := by
    rw [UInt32.toNat_or, UInt32.toNat_or, toNat_shift32 (by decide), toNat_shift32 (by decide), UInt8.toNat_toUInt32]
    change b0.toNat * 2 ^ 16 ||| b1.toNat * 2 ^ 8 ||| b2.toNat = _
    have h01 : b0.toNat * 2 ^ 16 ||| b1.toNat * 2 ^ 8 = (b0.toNat * 256 + b1.toNat) * 2 ^ 8 := by
      rw [lor_eq_add (by omega)]
      omega
    rw [h01, lor_eq_add h2]
    omega
  unfold encodeGroup
  dsimp only
  generalize (b0.toUInt32 <<< 16 ||| b1.toUInt32 <<< 8 ||| b2.toUInt32) = n at hn ⊢
  have hmask : ∀ m : UInt32, (m &&& 0x3f).toNat = m.toNat % 64 := fun m => @toNat_mask32 m 0x3f 6 rfl
  have h18 : (n >>> 18).toNat = n.toNat / 2 ^ 18 := @toNat_drop32 n 18 (by decide)
  have h12 : (n >>> 12).toNat = n.toNat / 2 ^ 12 := @toNat_drop32 n 12 (by decide)
  have h6 : (n >>> 6).toNat = n.toNat / 2 ^ 6 := @toNat_drop32 n 6 (by decide)
  rw [hmask, hmask, hmask, h18, h12, h6, hn]
  congr 1
  · congr 1
    omega
  · congr 1
    · congr 1
      omega
    · congr 1
      · congr 1
        omega
      · congr 2
        omega

/-- The values of the encoder's digits push the bytes they came from. -/
theorem pushedBytes_encode (b0 b1 b2 : UInt8) :
    pushedBytes (b64Decode (b64Encode (b0.toNat / 4))) (b64Decode (b64Encode (b0.toNat % 4 * 16 + b1.toNat / 16)))
      (b64Decode (b64Encode (b1.toNat % 16 * 4 + b2.toNat / 64))) (b64Decode (b64Encode (b2.toNat % 64))) = [b0, b1, b2] := by
  have h0 := UInt8.toNat_lt b0
  have h1 := UInt8.toNat_lt b1
  have h2 := UInt8.toNat_lt b2
  have v0 : (b64Decode (b64Encode (b0.toNat / 4))).toNat = _ := b64Decode_encode (by omega)
  have v1 : (b64Decode (b64Encode (b0.toNat % 4 * 16 + b1.toNat / 16))).toNat = _ := b64Decode_encode (by omega)
  have v2 : (b64Decode (b64Encode (b1.toNat % 16 * 4 + b2.toNat / 64))).toNat = _ := b64Decode_encode (by omega)
  have v3 : (b64Decode (b64Encode (b2.toNat % 64))).toNat = _ := b64Decode_encode (by omega)
  unfold pushedBytes
  congr 1
  · apply UInt8.toNat_inj.1
    rw [toNat_pushed0 (by omega) (by omega), v0, v1]
    omega
  · congr 1
    · apply UInt8.toNat_inj.1
      rw [toNat_pushed1 (by omega), v1, v2]
      omega
    · congr 1
      apply UInt8.toNat_inj.1
      rw [toNat_pushed2 (by omega), v2, v3]
      omega

theorem encodeRest_digits (b0 : UInt8) (rest : Option UInt8) : encodeRest b0 rest =
    [b64Encode (b0.toNat / 4), b64Encode (b0.toNat % 4 * 16 + (rest.getD 0).toNat / 16),
      if rest.isSome then b64Encode ((rest.getD 0).toNat % 16 * 4) else pad, pad] := by
  unfold encodeRest
  dsimp only
  generalize rest.getD 0 = b1
  have h1 := UInt8.toNat_lt b1
  have hdrop : (b0 >>> 2).toNat = b0.toNat / 4 := toNat_drop (by decide)
  have hdrop1 : (b1 >>> 4).toNat = b1.toNat / 16 := toNat_drop (by decide)
  have hmask : (b0 &&& 0x03).toNat = b0.toNat % 4 := @toNat_mask b0 0x03 2 rfl
  have hmask1 : (b1 &&& 0x0f).toNat = b1.toNat % 16 := @toNat_mask b1 0x0f 4 rfl
  have hjoin : ((b0 &&& 0x03) <<< 4 ||| b1 >>> 4).toNat = b0.toNat % 4 * 16 + b1.toNat / 16 := by
    rw [toNat_join (by decide) (by change (b0 &&& 0x03).toNat * 16 < 256; omega) (by change (b1 >>> 4).toNat < 16; omega),
      hmask, hdrop1]
    rfl
  have hshift : ((b1 &&& 0x0f) <<< 2).toNat = b1.toNat % 16 * 4 := by
    rw [toNat_shift (by decide) (by change (b1 &&& 0x0f).toNat * 4 < 256; omega), hmask1]
    rfl
  rw [hdrop, hjoin, hshift]

end Digits

section RoundTrip

variable {strict : Bool} {i : ℕ} {out data : List UInt8}

theorem finish_encodeRest (b0 : UInt8) (rest : Option UInt8) :
    (charLoop strict i ⟨out, 0, 0, 0⟩ (encodeRest b0 rest) >>= finish) = .ok (out ++ b0 :: rest.toList) := by
  have h0 := UInt8.toNat_lt b0
  have h1 := UInt8.toNat_lt (rest.getD 0)
  have hpush := pushedBytes_encode b0 (rest.getD 0) 0
  obtain ⟨hfirst, hmore⟩ := List.cons.inj hpush
  rw [encodeRest_digits, charLoop_digit (b64Encode_mem (by omega))]
  change (charLoop strict _ ⟨_, 1, _, 0⟩ _ >>= finish) = _
  rw [charLoop_digit (b64Encode_mem (by omega))]
  change (charLoop strict _ ⟨_, 2, _, 0⟩ _ >>= finish) = _
  rw [hfirst]
  cases rest with
  | none => rfl
  | some b1 =>
    obtain ⟨hsecond, -⟩ := List.cons.inj hmore
    change (charLoop strict _ ⟨_, 2, _, 0⟩ (b64Encode _ :: _) >>= finish) = _
    rw [charLoop_digit (b64Encode_mem (by omega))]
    change (charLoop strict _ ⟨(out ++ [b0]) ++ [_], 3, _, 0⟩ _ >>= finish) = _
    have hlast : (0 : UInt8).toNat / 64 = 0 := rfl
    rw [hlast, Nat.add_zero] at hsecond
    rw [hsecond, List.append_assoc]
    rfl

theorem finish_encodeQuads (data : List UInt8) (i : ℕ) (out : List UInt8) :
    (charLoop strict i ⟨out, 0, 0, 0⟩ (encodeQuads data) >>= finish) = .ok (out ++ data) := by
  induction data using encodeQuads.induct generalizing i out with
  | case1 b0 b1 b2 data ih =>
    have h0 := UInt8.toNat_lt b0
    have h1 := UInt8.toNat_lt b1
    have h2 := UInt8.toNat_lt b2
    rw [encodeQuads, encodeGroup_digits]
    change (charLoop strict i _ (b64Encode _ :: b64Encode _ :: b64Encode _ :: b64Encode _ :: encodeQuads data) >>= finish) = _
    rw [charLoop_quad (b64Encode_mem (by omega)) (b64Encode_mem (by omega)) (b64Encode_mem (by omega))
      (b64Encode_mem (by omega)), pushedBytes_encode, ih]
    simp
  | case2 b0 b1 => exact finish_encodeRest b0 (some b1)
  | case3 b0 => exact finish_encodeRest b0 none
  | case4 => simp [encodeQuads, charLoop, finish, bind, Except.bind]

theorem a2bBase64_b2aBase64 (data : List UInt8) : a2bBase64 strict (b2aBase64 false data) = .ok data := by
  rw [a2bBase64_eq_stateMachine]
  unfold b2aBase64 stateMachine
  simpa using @finish_encodeQuads strict data 0 []

theorem a2bBase64_interspersed {data data' : List UInt8} (h : Interspersed data data') :
    a2bBase64 false data' = a2bBase64 false data := by
  rw [a2bBase64_eq_stateMachine, a2bBase64_eq_stateMachine]
  unfold stateMachine
  rw [charLoop_filter 0 0, charLoop_filter 0 0 _ data, h.filter_eq]

theorem interspersed_newline (data : List UInt8) : Interspersed data (data ++ ['\n'.toUInt8]) := by
  induction data with
  | nil => exact .insert (by decide) .nil
  | cons c data ih => exact .keep c ih

end RoundTrip

theorem base64_codec :
    (∀ data, (∀ strict, a2bBase64 strict (b2aBase64 false data) = .ok data) ∧
      a2bBase64 false (b2aBase64 true data) = .ok data) ∧
    (∀ strict data, a2bBase64 strict data = stateMachine strict data) ∧
    (∀ data, (∃ out, a2bBase64 true data = .ok out) ↔ StrictForm data) ∧
    (∀ data data', Interspersed data data' → a2bBase64 false data' = a2bBase64 false data) := by
  refine ⟨fun data => ⟨fun strict => a2bBase64_b2aBase64 data, ?_⟩, fun strict data => a2bBase64_eq_stateMachine data, ?_,
    fun data data' h => a2bBase64_interspersed h⟩
  · have hplain : b2aBase64 true data = b2aBase64 false data ++ ['\n'.toUInt8] := by simp [b2aBase64]
    rw [hplain, a2bBase64_interspersed (interspersed_newline _)]
    exact a2bBase64_b2aBase64 data
  · intro data
    rw [a2bBase64_eq_stateMachine, strictForm_iff]
    exact @accepts_iff_follows 0 data [] 0 0 (by decide)

end WeavePy.Base64
