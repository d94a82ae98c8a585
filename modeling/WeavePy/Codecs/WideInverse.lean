import WeavePy.Codecs.Utf8Inverse

/-!
UTF-16 and UTF-32, and what holds of the codecs together.
-/

namespace WeavePy.Codecs

open LittleEndian (toLe ofLe)
variable {big : Bool} {cp : ℕ}

/-- What a decoder makes of the bytes of a lone surrogate, where it may not wait for more. -/
theorem step_passed {ctx : DecCtx} {scan : List UInt8 → Scan} {i len : ℕ} {s : List UInt8}
    (herr : ctx.errors = .surrogatePass)
    (hscan : (∃ span reason, scan s = .err span reason) ∨
      ∃ avail reason, scan s = .incomplete avail reason)
    (hdec : decodeEncodedSurrogate ctx.encoding s = some (cp, len)) :
    ctx.step scan true i s = .ok (.read [cp] len) := by
  have honerror (span : ℕ) (reason : String) :
      ctx.handled i s span reason = .ok (.read [cp] len) := by
    rw [DecCtx.handled, DecCtx.onError, herr]
    dsimp only
    rw [hdec]
    rfl
  rw [DecCtx.step]
  rcases hscan with ⟨span, reason, h⟩ | ⟨avail, reason, h⟩
  · rw [h]
    exact honerror span reason
  · rw [h]
    exact honerror avail reason

section Sixteen

def IsHigh (u : ℕ) : Prop := 0xD800 ≤ u ∧ u ≤ 0xDBFF

/-- The bytes of a code point, a lone surrogate under `surrogatepass` included. -/
def units16 (big : Bool) (cp : ℕ) : List UInt8 := (emit16 big cp).getD (push big 2 cp)

def encoding16 (big : Bool) : Encoding := if big then .utf16be else .utf16le

theorem units16_surrogate (h : IsSurrogate cp) : units16 big cp = push big 2 cp := by
  rw [units16, emit16, if_pos h, Option.getD_none]

theorem emit16_scalar (h : IsScalar cp) : emit16 big cp = some (units16 big cp) := by
  rw [units16, emit16, if_neg h.2]
  split_ifs <;> rfl

theorem utf16Scan_scalar (h : IsScalar cp) (rest : List UInt8) :
    utf16Scan big (units16 big cp ++ rest) = .ok cp (units16 big cp).length := by
  obtain ⟨hmax, hs⟩ := h
  rw [units16, emit16, if_neg hs]
  split_ifs with hsmall
  · obtain ⟨a, b, hpush, hread, -⟩ := exists_push2 big (v := cp) (by omega)
    rw [Option.getD_some, hpush]
    dsimp only [List.cons_append, utf16Scan]
    rw [hread, if_pos hs]
    rfl
  · have hand : cp - 0x10000 &&& 0x3FF = (cp - 0x10000) % 2 ^ 10 :=
      Nat.and_two_pow_sub_one_eq_mod _ 10
    have hshift : (cp - 0x10000) >>> 10 = (cp - 0x10000) / 2 ^ 10 := Nat.shiftRight_eq_div_pow _ _
    have hmod : (cp - 0x10000) % 2 ^ 10 < 2 ^ 10 := Nat.mod_lt _ (by decide)
    obtain ⟨a, b, hpush, hread, -⟩ := exists_push2 big
      (v := 0xD800 + (cp - 0x10000) >>> 10) (by rw [hshift]; omega)
    obtain ⟨c, d, hpush', hread', -⟩ := exists_push2 big
      (v := 0xDC00 + (cp - 0x10000 &&& 0x3FF)) (by rw [hand]; omega)
    dsimp only
    rw [Option.getD_some, hpush, hpush']
    dsimp only [List.cons_append, List.nil_append, utf16Scan, scanPair]
    rw [hread, hread', hand, hshift, if_neg (by rw [not_not, IsSurrogate]; omega),
      if_neg (by omega), if_pos (by rw [IsLow]; omega), Nat.shiftLeft_eq,
      show 0x10000 + (0xD800 + (cp - 0x10000) / 2 ^ 10 - 0xD800) * 2 ^ 10 +
        (0xDC00 + (cp - 0x10000) % 2 ^ 10 - 0xDC00) = cp by omega]
    rfl

theorem utf16Scan_surrogate (h : IsSurrogate cp) {rest : List UInt8}
    (hnext : IsHigh cp → ∀ c d s, rest = c :: d :: s → ¬ IsLow (read16 big c d)) :
    (∃ span reason, utf16Scan big (units16 big cp ++ rest) = .err span reason) ∨
      ∃ avail reason, utf16Scan big (units16 big cp ++ rest) = .incomplete avail reason := by
  have hs := h
  rw [IsSurrogate] at hs
  obtain ⟨a, b, hpush, hread, -⟩ := exists_push2 big (v := cp) (by omega)
  rw [units16_surrogate h, hpush]
  dsimp only [List.cons_append, List.nil_append]
  rw [utf16Scan, hread, if_neg (not_not.mpr h)]
  by_cases hlow : cp ≥ 0xDC00
  · exact .inl ⟨2, _, if_pos hlow⟩
  rw [if_neg hlow]
  rcases rest with - | ⟨c, - | ⟨d, rest⟩⟩
  · exact .inr ⟨_, _, rfl⟩
  · exact .inr ⟨_, _, rfl⟩
  · have := hnext ⟨by omega, by omega⟩ c d rest rfl
    exact .inl ⟨2, _, if_neg this⟩

theorem surrogateOf_self {len : ℕ} (h : IsSurrogate cp) : surrogateOf cp len = some (cp, len) :=
  if_pos h

theorem decodeEncodedSurrogate_units16 (h : IsSurrogate cp) (rest : List UInt8) :
    decodeEncodedSurrogate (encoding16 big) (units16 big cp ++ rest) = some (cp, 2) := by
  have hs := h
  rw [IsSurrogate] at hs
  obtain ⟨a, b, hpush, -, hval⟩ := exists_push2 big (v := cp) (by omega)
  rw [units16_surrogate h, hpush]
  cases big with
  | false =>
    change surrogateOf (ofLe [a, b]) 2 = _
    rw [show ofLe [a, b] = cp from hval]
    exact if_pos h
  | true =>
    change surrogateOf (ofLe [b, a]) 2 = _
    rw [show ofLe [b, a] = cp from hval]
    exact if_pos h

theorem units16_length_surrogate (h : IsSurrogate cp) : (units16 big cp).length = 2 := by
  rw [units16_surrogate h, push]
  split_ifs <;> rfl

theorem units16_ne_nil : units16 big cp ≠ [] := by
  have hpush (v : ℕ) : push big 2 v ≠ [] := by
    rw [push]
    split_ifs <;> simp [toLe]
  rw [units16, emit16]
  split_ifs
  · exact hpush cp
  · exact hpush cp
  · simp [hpush]

/-- The first unit of a code point is low only if the point is. -/
theorem first_unit {c d : UInt8} {s rest : List UInt8} (hcp : IsCodePoint cp)
    (h : units16 big cp ++ rest = c :: d :: s) (hlow : IsLow (read16 big c d)) : IsLow cp := by
  rw [IsCodePoint] at hcp
  have hfirst {v : ℕ} {tail : List UInt8} (hv : v < 2 ^ 16)
      (hunit : push big 2 v ++ tail = c :: d :: s) : IsLow v := by
    obtain ⟨a, b, hpush, hread, -⟩ := exists_push2 big hv
    simp only [hpush, List.cons_append, List.nil_append, List.cons.injEq] at hunit
    obtain ⟨rfl, rfl, -⟩ := hunit
    rwa [hread] at hlow
  rw [units16, emit16] at h
  split_ifs at h with hs hsmall
  · rw [IsSurrogate] at hs
    exact hfirst (by omega) h
  · exact hfirst (by omega) h
  · have hshift : (cp - 0x10000) >>> 10 = (cp - 0x10000) / 2 ^ 10 := Nat.shiftRight_eq_div_pow _ _
    dsimp only [Option.getD_some] at h
    rw [List.append_assoc] at h
    have hu := hfirst (by rw [hshift]; omega) h
    rw [hshift, IsLow] at hu
    omega

/-- No high surrogate stands before a low one. -/
def Unpaired (cps : List ℕ) : Prop := cps.IsChain fun a b => ¬ (IsHigh a ∧ IsLow b)

theorem utf16Step_passed (i : ℕ) {cps : List ℕ} (hcps : ∀ x ∈ cp :: cps, IsCodePoint x)
    (hpair : Unpaired (cp :: cps)) :
    DecCtx.step ⟨encoding16 big, .surrogatePass⟩ (utf16Scan big) true i
      (units16 big cp ++ cps.flatMap (units16 big)) =
        .ok (.read [cp] (units16 big cp).length) := by
  rcases surrogate_or_scalar (hcps cp (by simp)) with hs | hs
  · rw [units16_length_surrogate hs]
    refine step_passed rfl (utf16Scan_surrogate hs ?_) (decodeEncodedSurrogate_units16 hs _)
    intro hhigh c d s hrest hlow
    cases cps with
    | nil => cases hrest
    | cons y cps =>
      rw [List.flatMap_cons] at hrest
      have hy := first_unit (hcps y (by simp)) hrest hlow
      exact (List.isChain_cons_cons.mp hpair).1 ⟨hhigh, hy⟩
  · rw [DecCtx.step, utf16Scan_scalar hs]

end Sixteen

section ThirtyTwo

def encoding32 (big : Bool) : Encoding := if big then .utf32be else .utf32le

theorem utf32Scan_push (h : IsCodePoint cp) (rest : List UInt8) :
    utf32Scan big (push big 4 cp ++ rest) =
      if IsSurrogate cp then .err 4 "code point in surrogate code point range(0xd800, 0xe000)"
      else .ok cp 4 := by
  rw [IsCodePoint] at h
  obtain ⟨a, b, c, d, hpush, hread⟩ := exists_push4 big (v := cp) (by omega)
  rw [hpush]
  dsimp only [List.cons_append, List.nil_append, utf32Scan]
  rw [hread, if_pos (show cp < 0x110000 from h)]

theorem length_push (n v : ℕ) : (push big n v).length = n := by
  rw [push]
  split_ifs <;> simp

theorem decodeEncodedSurrogate_push4 (h : IsSurrogate cp) (rest : List UInt8) :
    decodeEncodedSurrogate (encoding32 big) (push big 4 cp ++ rest) = some (cp, 4) := by
  have hs := h
  rw [IsSurrogate] at hs
  obtain ⟨a, b, c, d, hpush, hread⟩ := exists_push4 big (v := cp) (by omega)
  rw [hpush]
  cases big with
  | false =>
    change surrogateOf (read32 false a b c d) 4 = _
    rw [hread]
    exact if_pos h
  | true =>
    change surrogateOf (read32 true a b c d) 4 = _
    rw [hread]
    exact if_pos h

theorem utf32Step_scalar (ctx : DecCtx) (isFinal : Bool) (i : ℕ) (h : IsScalar cp)
    (rest : List UInt8) :
    ctx.step (utf32Scan big) isFinal i (push big 4 cp ++ rest) = .ok (.read [cp] 4) := by
  rw [DecCtx.step, utf32Scan_push h.1, if_neg h.2]

theorem utf32Step_passed (i : ℕ) (h : IsCodePoint cp) (rest : List UInt8) :
    DecCtx.step ⟨encoding32 big, .surrogatePass⟩ (utf32Scan big) true i (push big 4 cp ++ rest) =
      .ok (.read [cp] 4) := by
  rcases surrogate_or_scalar h with hs | hs
  · refine step_passed rfl
      (.inl ⟨4, "code point in surrogate code point range(0xd800, 0xe000)", ?_⟩)
      (decodeEncodedSurrogate_push4 hs rest)
    rw [utf32Scan_push h, if_pos hs]
  · exact utf32Step_scalar _ _ i hs rest

end ThirtyTwo

section Orders

variable {byteorder : ℤ} {names : Names} {cps : List ℕ}

def bom16 (byteorder : ℤ) : List UInt8 := if byteorder = 0 then [0xFF, 0xFE] else []

def bom32 (byteorder : ℤ) : List UInt8 := if byteorder = 0 then [0xFF, 0xFE, 0x00, 0x00] else []

/-- The byte order an encoder takes, which is the little-endian one where none is asked for. -/
def isBig (byteorder : ℤ) : Bool := byteorder > 0

theorem utf16Encode_eq {errors : Handler} {g : ℕ → List UInt8}
    (h : ∀ encoding, standardKey encoding = standardKey (encoding16 (isBig byteorder)) →
      EncCtx.encode ⟨encoding, errors, names⟩ notAllowed (emit16 (isBig byteorder)) cps =
        .ok (cps.flatMap g)) :
    utf16Encode errors names byteorder cps = .ok (bom16 byteorder ++ cps.flatMap g) := by
  rw [utf16Encode, show (decide (byteorder > 0)) = isBig byteorder from rfl, h]
  · rw [bom16]
    by_cases h0 : byteorder = 0 <;> simp [h0, bind, Except.bind, pure, Except.pure]
  · by_cases h0 : byteorder = 0
    · simp [h0, isBig, encoding16, standardKey]
    · rw [if_neg h0, encoding16]

theorem utf32Encode_eq {errors : Handler} {g : ℕ → List UInt8}
    (h : ∀ encoding, standardKey encoding = standardKey (encoding32 (isBig byteorder)) →
      EncCtx.encode ⟨encoding, errors, names⟩ notAllowed (emit32 (isBig byteorder)) cps =
        .ok (cps.flatMap g)) :
    utf32Encode errors names byteorder cps = .ok (bom32 byteorder ++ cps.flatMap g) := by
  rw [utf32Encode, show (decide (byteorder > 0)) = isBig byteorder from rfl, h]
  · rw [bom32]
    by_cases h0 : byteorder = 0 <;> simp [h0, bind, Except.bind, pure, Except.pure]
  · by_cases h0 : byteorder = 0
    · simp [h0, isBig, encoding32, standardKey]
    · rw [if_neg h0, encoding32]

theorem utf16Decode_bom (errors : Handler) (isFinal : Bool) (body : List UInt8) :
    utf16Decode errors byteorder isFinal (bom16 byteorder ++ body) =
      (Transducer.decode (DecCtx.step ⟨encoding16 (isBig byteorder), errors⟩
        (utf16Scan (isBig byteorder)) isFinal) .diverge (bom16 byteorder).length body).map
        fun r => (r.1, r.2, if byteorder = 0 then -1 else byteorder) := by
  by_cases h0 : byteorder = 0
  · subst h0
    rfl
  · have hsniff (data : List UInt8) : sniff16 byteorder data = none := by
      rcases data with - | ⟨a, - | ⟨b, s⟩⟩
      · rfl
      · rfl
      · exact if_neg h0
    rw [utf16Decode, hsniff, bom16, if_neg h0, if_neg h0]
    rfl

theorem utf32Decode_bom (errors : Handler) (isFinal : Bool) (body : List UInt8) :
    utf32Decode errors byteorder isFinal (bom32 byteorder ++ body) =
      (Transducer.decode (DecCtx.step ⟨encoding32 (isBig byteorder), errors⟩
        (utf32Scan (isBig byteorder)) isFinal) .diverge (bom32 byteorder).length body).map
        fun r => (r.1, r.2, if byteorder = 0 then -1 else byteorder) := by
  by_cases h0 : byteorder = 0
  · subst h0
    rfl
  · have hsniff (data : List UInt8) : sniff32 byteorder data = none := if_neg h0
    rw [utf32Decode, hsniff, bom32, if_neg h0, if_neg h0]
    rfl

/-- Encoding succeeds, and decoding gives the text back and consumes every byte. -/
def Inverts (encode : List ℕ → Except CodecError (List UInt8))
    (decode : List UInt8 → Except CodecError (List ℕ × ℕ × ℤ)) (cps : List ℕ) : Prop :=
  ∃ b byteorder, encode cps = .ok b ∧ decode b = .ok (cps, b.length, byteorder)

/-- A class of texts that the encoder writes unit by unit and the decoder reads so. -/
theorem utf16_inverts {errors : Handler} {isFinal : Bool} (Good : List ℕ → Prop)
    (htail : ∀ u us, Good (u :: us) → Good us) (h : Good cps)
    (henc : ∀ encoding, standardKey encoding = standardKey (encoding16 (isBig byteorder)) →
      EncCtx.encode ⟨encoding, errors, names⟩ notAllowed (emit16 (isBig byteorder)) cps =
        .ok (cps.flatMap (units16 (isBig byteorder))))
    (hstep : ∀ i u us, Good (u :: us) →
      DecCtx.step ⟨encoding16 (isBig byteorder), errors⟩ (utf16Scan (isBig byteorder)) isFinal i
        (units16 (isBig byteorder) u ++ us.flatMap (units16 (isBig byteorder))) =
          .ok (.read [u] (units16 (isBig byteorder) u).length)) :
    Inverts (utf16Encode errors names byteorder) (utf16Decode errors byteorder isFinal) cps := by
  refine ⟨_, if byteorder = 0 then -1 else byteorder, utf16Encode_eq henc, ?_⟩
  have hrun := Transducer.decode_flatMap (step_advances (utf16Scan_within _) isFinal) .diverge
    (units16 (isBig byteorder)) (fun cp => [cp]) Good (fun _ _ _ => units16_ne_nil) hstep htail h
    (bom16 byteorder).length
  rw [utf16Decode_bom, hrun, flatMap_points, List.length_append]
  rfl

theorem utf32_inverts {errors : Handler} {isFinal : Bool} (Good : ℕ → Prop)
    (h : ∀ cp ∈ cps, Good cp)
    (henc : ∀ encoding, standardKey encoding = standardKey (encoding32 (isBig byteorder)) →
      EncCtx.encode ⟨encoding, errors, names⟩ notAllowed (emit32 (isBig byteorder)) cps =
        .ok (cps.flatMap (push (isBig byteorder) 4)))
    (hstep : ∀ i u rest, Good u →
      DecCtx.step ⟨encoding32 (isBig byteorder), errors⟩ (utf32Scan (isBig byteorder)) isFinal i
        (push (isBig byteorder) 4 u ++ rest) = .ok (.read [u] 4)) :
    Inverts (utf32Encode errors names byteorder) (utf32Decode errors byteorder isFinal) cps := by
  refine ⟨_, if byteorder = 0 then -1 else byteorder, utf32Encode_eq henc, ?_⟩
  have hne (v : ℕ) : push (isBig byteorder) 4 v ≠ [] := by
    rw [← List.length_pos_iff, length_push]
    decide
  have hrun := Transducer.decode_flatMap (step_advances (utf32Scan_within _) isFinal) .diverge
    (push (isBig byteorder) 4) (fun cp => [cp]) (fun us => ∀ cp ∈ us, Good cp)
    (fun u _ _ => hne u)
    (fun i u us hus => by rw [length_push]; exact hstep i u _ (hus u (by simp)))
    (fun u us hus cp hcp => hus cp (List.mem_cons_of_mem _ hcp)) h (bom32 byteorder).length
  rw [utf32Decode_bom, hrun, flatMap_points, List.length_append]
  rfl

theorem utf16_scalars (h : ∀ cp ∈ cps, IsScalar cp) (errors : Handler) (isFinal : Bool) :
    Inverts (utf16Encode errors names byteorder) (utf16Decode errors byteorder isFinal) cps := by
  apply utf16_inverts (fun us => ∀ cp ∈ us, IsScalar cp) _ h
  · intro encoding _
    exact encode_emitted fun cp hcp => emit16_scalar (h cp hcp)
  · intro i u us hus
    rw [DecCtx.step, utf16Scan_scalar (hus u (by simp))]
  · exact fun u us hus cp hcp => hus cp (List.mem_cons_of_mem _ hcp)

theorem utf32_scalars (h : ∀ cp ∈ cps, IsScalar cp) (errors : Handler) (isFinal : Bool) :
    Inverts (utf32Encode errors names byteorder) (utf32Decode errors byteorder isFinal) cps := by
  apply utf32_inverts IsScalar h
  · intro encoding _
    exact encode_emitted fun cp hcp => if_neg (h cp hcp).2
  · intro i u rest hu
    exact utf32Step_scalar _ _ i hu rest

theorem surrogate_of_emit16 (h : emit16 big cp = none) : IsSurrogate cp := by
  rw [emit16] at h
  split_ifs at h with hs
  exact hs

theorem utf16_passed (h : ∀ cp ∈ cps, IsCodePoint cp) (hpair : Unpaired cps) :
    Inverts (utf16Encode .surrogatePass names byteorder)
      (utf16Decode .surrogatePass byteorder true) cps := by
  apply utf16_inverts (fun us => (∀ cp ∈ us, IsCodePoint cp) ∧ Unpaired us) _ ⟨h, hpair⟩
  · intro encoding hkey
    refine encode_passed rfl fun cp _ hnone => ⟨surrogate_of_emit16 hnone, ?_⟩
    rw [hkey, encoding16, push]
    cases isBig byteorder <;> rfl
  · exact fun i u us hus => utf16Step_passed i hus.1 hus.2
  · exact fun u us hus => ⟨fun cp hcp => hus.1 cp (List.mem_cons_of_mem _ hcp), hus.2.tail⟩

theorem utf32_passed (h : ∀ cp ∈ cps, IsCodePoint cp) :
    Inverts (utf32Encode .surrogatePass names byteorder)
      (utf32Decode .surrogatePass byteorder true) cps := by
  apply utf32_inverts IsCodePoint h
  · intro encoding hkey
    have hbytes (cp : ℕ) : surrogateBytes (standardKey encoding) cp =
        some (push (isBig byteorder) 4 cp) := by
      rw [hkey, encoding32, push]
      cases isBig byteorder <;> rfl
    rw [encode_passed (g := push (isBig byteorder) 4) rfl]
    · refine congrArg _ (List.flatMap_congr fun cp _ => ?_)
      rw [emit32]
      split_ifs <;> rfl
    · intro cp _ hnone
      rw [emit32] at hnone
      split_ifs at hnone with hs
      exact ⟨hs, hbytes cp⟩
  · exact fun i u rest hu => utf32Step_passed i hu rest

end Orders

/-- Strict decoding of a strict encoding, the strings that UTF-8 accepts, and the handlers that
carry undecodable bytes and lone surrogates. -/
theorem codecs_invert (names : Names) :
    (∀ cps, (∀ cp ∈ cps, IsScalar cp) → ∀ isFinal,
      (∃ b, utf8Encode .strict names cps = .ok b ∧
        utf8Decode .strict isFinal b = .ok (cps, b.length)) ∧
      ∀ byteorder,
        Inverts (utf16Encode .strict names byteorder) (utf16Decode .strict byteorder isFinal) cps ∧
        Inverts (utf32Encode .strict names byteorder) (utf32Decode .strict byteorder isFinal)
          cps) ∧
    (∀ b, ((∃ r, utf8Decode .strict true b = .ok r) ↔
        ∃ cps, (∀ cp ∈ cps, IsScalar cp) ∧ utf8Encode .strict names cps = .ok b) ∧
      ∀ cps n, utf8Decode .strict true b = .ok (cps, n) →
        utf8Encode .strict names cps = .ok b) ∧
    (∀ b, ∃ cps, utf8Decode .surrogateEscape true b = .ok (cps, b.length) ∧
      utf8Encode .surrogateEscape names cps = .ok b) ∧
    ∀ cps, (∀ cp ∈ cps, IsCodePoint cp) →
      (∃ b, utf8Encode .surrogatePass names cps = .ok b ∧
        utf8Decode .surrogatePass true b = .ok (cps, b.length)) ∧
      ∀ byteorder,
        Inverts (utf32Encode .surrogatePass names byteorder)
          (utf32Decode .surrogatePass byteorder true) cps ∧
        (Unpaired cps → Inverts (utf16Encode .surrogatePass names byteorder)
          (utf16Decode .surrogatePass byteorder true) cps) := by
  refine ⟨fun cps h isFinal => ⟨⟨_, utf8Encode_scalars _ names h, utf8Decode_scalars _ isFinal h⟩,
    fun byteorder => ⟨utf16_scalars h _ isFinal, utf32_scalars h _ isFinal⟩⟩, fun b => ?_,
    fun b => ?_, fun cps h => ⟨⟨_, utf8Encode_passed names h, utf8Decode_passed h⟩,
      fun byteorder => ⟨utf32_passed h, utf16_passed h⟩⟩⟩
  · have hundo (cps : List ℕ) (n : ℕ) (h : utf8Decode .strict true b = .ok (cps, n)) :
        (∀ cp ∈ cps, IsScalar cp) ∧ utf8Encode .strict names cps = .ok b := by
      obtain ⟨hscal, hflat⟩ := utf8Decode_strict h
      exact ⟨hscal, by rw [utf8Encode_scalars _ names hscal, hflat]⟩
    refine ⟨⟨fun ⟨r, h⟩ => ⟨r.1, hundo r.1 r.2 h⟩, ?_⟩, fun cps n h => (hundo cps n h).2⟩
    rintro ⟨cps, hscal, henc⟩
    rw [utf8Encode_scalars _ names hscal] at henc
    obtain rfl := Except.ok.inj henc
    exact ⟨_, utf8Decode_scalars _ true hscal⟩
  · obtain ⟨cps, hdec, hesc, hflat⟩ := utf8Decode_escape b
    exact ⟨cps, hdec, by rw [utf8Encode_escaped names hesc, hflat]⟩

theorem codecs_invert_lone :
    (∃ b, utf8Encode .strict ⟨false, fun _ => none⟩ [0x41, 0x20AC, 0x1F600] = .ok b ∧
      utf8Decode .strict true b = .ok ([0x41, 0x20AC, 0x1F600], b.length)) ∧
    Inverts (utf16Encode .surrogatePass ⟨false, fun _ => none⟩ 0)
      (utf16Decode .surrogatePass 0 true) [0xDC00, 0xD800, 0x41] :=
  ⟨((codecs_invert ⟨false, fun _ => none⟩).1 [0x41, 0x20AC, 0x1F600] (by decide) true).1,
    (((codecs_invert ⟨false, fun _ => none⟩).2.2.2 [0xDC00, 0xD800, 0x41]
      (by simp [IsCodePoint])).2 0).2 (by simp [Unpaired, IsHigh, IsLow])⟩

end WeavePy.Codecs
