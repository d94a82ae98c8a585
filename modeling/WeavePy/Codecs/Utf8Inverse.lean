import WeavePy.Codecs.Inverse

/-!
UTF-8: the accepted language, and the two handlers that carry surrogates.
-/

namespace WeavePy.Codecs

section Strict

theorem utf8Encode_scalars (errors : Handler) (names : Names) {cps : List ℕ}
    (h : ∀ cp ∈ cps, IsScalar cp) :
    utf8Encode errors names cps = .ok (cps.flatMap encodeUtf8) :=
  encode_emitted fun cp hcp => if_pos (h cp hcp)

theorem utf8Scan_heldSurrogate {s : List UInt8} (h : heldSurrogate s = true) :
    utf8Scan s = .err 1 invalidCont := by
  rcases s with - | ⟨b, - | ⟨b1, - | ⟨b2, s⟩⟩⟩
  · cases h
  · cases h
  · have hb : b.toNat = 0xED ∧ 0xA0 ≤ b1.toNat ∧ b1.toNat ≤ 0xBF := of_decide_eq_true h
    have hbad : badSecond 0xA0 0xE0 0xED b b1 := .inr (by rw [if_neg (by omega)]; exact hb.1)
    rw [utf8Scan, if_neg (by omega), if_neg (by omega), if_neg (by omega), if_pos (by omega),
      scan3, if_pos hbad]
  · cases h

theorem utf8Step_eq {ctx : DecCtx} {isFinal : Bool} {i : ℕ} {s : List UInt8}
    (h : heldSurrogate s = false ∨ isFinal = true) :
    utf8Step ctx isFinal i s = ctx.step utf8Scan isFinal i s := by
  rw [utf8Step, if_neg]
  rcases h with h | h <;> simp [h]

theorem utf8Step_scalar (ctx : DecCtx) (isFinal : Bool) (i : ℕ) {cp : ℕ} (h : IsScalar cp)
    (rest : List UInt8) :
    utf8Step ctx isFinal i (encodeUtf8 cp ++ rest) = .ok (.read [cp] (encodeUtf8 cp).length) := by
  have hscan := utf8Scan_encodeUtf8 h rest
  rw [utf8Step_eq, DecCtx.step, hscan]
  cases hheld : heldSurrogate (encodeUtf8 cp ++ rest) with
  | false => exact .inl rfl
  | true =>
    rw [utf8Scan_heldSurrogate hheld] at hscan
    cases hscan

theorem encodeUtf8_ne_nil (cp : ℕ) : encodeUtf8 cp ≠ [] := by
  rw [encodeUtf8]
  split_ifs <;> simp

theorem flatMap_points (cps : List ℕ) : (cps.flatMap fun cp => [cp]) = cps := by simp

theorem utf8Decode_scalars (errors : Handler) (isFinal : Bool) {cps : List ℕ}
    (h : ∀ cp ∈ cps, IsScalar cp) :
    utf8Decode errors isFinal (cps.flatMap encodeUtf8) =
      .ok (cps, (cps.flatMap encodeUtf8).length) := by
  have hrun := Transducer.decode_flatMap (utf8Step_advances ⟨.utf8, errors⟩ isFinal) .diverge
    encodeUtf8 (fun cp => [cp]) (fun us => ∀ cp ∈ us, IsScalar cp)
    (fun u _ _ => encodeUtf8_ne_nil u)
    (fun i u us hus => utf8Step_scalar ⟨.utf8, errors⟩ isFinal i (hus u (by simp)) _)
    (fun u us hus cp hcp => hus cp (List.mem_cons_of_mem _ hcp)) h 0
  rw [utf8Decode, hrun, flatMap_points, Nat.zero_add]

theorem utf8Step_strict {i : ℕ} {s : List UInt8} {r : Transducer.Step ℕ}
    (h : utf8Step ⟨.utf8, .strict⟩ true i s = .ok r) :
    ∃ cp len, r = .read [cp] len ∧ Reads s cp len := by
  rw [utf8Step_eq (.inr rfl), DecCtx.step] at h
  cases hc : utf8Scan s with
  | ok cp len =>
    rw [hc] at h
    exact ⟨cp, len, (Except.ok.inj h).symm, utf8Scan_ok hc⟩
  | err span reason => rw [hc] at h; cases h
  | incomplete avail reason => rw [hc] at h; cases h

/-- Strict decoding to the end gives scalar values that encode to the input. -/
theorem utf8Decode_strict {data : List UInt8} {cps : List ℕ} {n : ℕ}
    (h : utf8Decode .strict true data = .ok (cps, n)) :
    (∀ cp ∈ cps, IsScalar cp) ∧ cps.flatMap encodeUtf8 = data := by
  have hall : ∀ (s : List UInt8) (i c : ℕ) (o : List ℕ),
      Transducer.decode (utf8Step ⟨.utf8, .strict⟩ true) .diverge i s = .ok (o, c) →
        (∀ cp ∈ o, IsScalar cp) ∧ o.flatMap encodeUtf8 = s := by
    intro s
    induction hn : s.length using Nat.strongRecOn generalizing s with
    | ind n ih =>
      intro i c o h
      by_cases hs : s = []
      · subst hs
        obtain ⟨rfl, -⟩ := Prod.mk.inj (Except.ok.inj h)
        simp
      rcases Transducer.decode_ok_cases (utf8Step_advances _ _) hs h with
        ⟨hstep, -⟩ | ⟨out, m, o', hstep, hm, hle, rfl, hrest⟩
      · obtain ⟨cp, len, hr, -⟩ := utf8Step_strict hstep
        cases hr
      · obtain ⟨cp, len, hr, hreads⟩ := utf8Step_strict hstep
        obtain ⟨rfl, rfl⟩ := Transducer.Step.read.inj hr
        obtain ⟨hscal, hflat⟩ := ih (s.drop m).length (by rw [List.length_drop]; omega) _ rfl _ _ _
          hrest
        constructor
        · simpa [hreads.scalar] using hscal
        · rw [List.flatMap_append, hflat, List.flatMap_cons, List.flatMap_nil, List.append_nil,
            hreads.bytes, List.take_append_drop]
  exact hall data 0 n cps h

end Strict

section Escape

/-- A byte smuggled as a low surrogate. -/
def IsEscaped (cp : ℕ) : Prop := 0xDC80 ≤ cp ∧ cp ≤ 0xDCFF

def escapedUtf8 (cp : ℕ) : List UInt8 := (emitUtf8 cp).getD [(cp - 0xDC00).toUInt8]

theorem escapedUtf8_scalar {cp : ℕ} (h : IsScalar cp) : escapedUtf8 cp = encodeUtf8 cp := by
  rw [escapedUtf8, emitUtf8, if_pos h, Option.getD_some]

theorem utf8Encode_escaped (names : Names) {cps : List ℕ}
    (h : ∀ cp ∈ cps, IsScalar cp ∨ IsEscaped cp) :
    utf8Encode .surrogateEscape names cps = .ok (cps.flatMap escapedUtf8) := by
  apply encode_handled
  intro i run _ hrun
  have hesc : ∀ cp ∈ run, 0xDC80 ≤ cp ∧ cp ≤ 0xDCFF := by
    intro cp hcp
    obtain ⟨hmem, hnone⟩ := hrun cp hcp
    refine (h cp hmem).resolve_left fun hs => ?_
    rw [emitUtf8, if_pos hs] at hnone
    cases hnone
  rw [EncCtx.onError, escapedBytes_ok hesc]

theorem escaped_bytes {s : List UInt8} (h : ∀ b ∈ s, 0x80 ≤ b.toNat) :
    (∀ cp ∈ s.map fun b => 0xDC00 + b.toNat, IsScalar cp ∨ IsEscaped cp) ∧
      (s.map fun b => 0xDC00 + b.toNat).flatMap escapedUtf8 = s := by
  induction s with
  | nil => simp
  | cons b s ih =>
    obtain ⟨hesc, hflat⟩ := ih fun x hx => h x (by simp [hx])
    have hb := b.toNat_lt
    have hlo := h b (by simp)
    have hnot : ¬ IsScalar (0xDC00 + b.toNat) := by
      rw [IsScalar, IsSurrogate]
      omega
    constructor
    · intro cp hcp
      rcases List.mem_cons.mp hcp with rfl | hcp
      · exact .inr ⟨by dsimp only; omega, by dsimp only; omega⟩
      · exact hesc cp hcp
    · rw [List.map_cons, List.flatMap_cons, hflat, escapedUtf8, emitUtf8, if_neg hnot,
        Option.getD_none, toUInt8_eq (b := b) (by omega)]
      rfl

/-- Each step of the decoder takes some bytes, and its text encodes to them. -/
theorem utf8Step_escape (i : ℕ) {s : List UInt8} (hs : s ≠ []) :
    ∃ out n, utf8Step ⟨.utf8, .surrogateEscape⟩ true i s = .ok (.read out n) ∧
      (∀ cp ∈ out, IsScalar cp ∨ IsEscaped cp) ∧ out.flatMap escapedUtf8 = s.take n := by
  have herr {span : ℕ} {reason : String} (h : Spanned s span) :
      DecCtx.handled ⟨.utf8, .surrogateEscape⟩ i s span reason =
        .ok (.read ((s.take span).map fun b => 0xDC00 + b.toNat) span) := by
    rw [DecCtx.handled, DecCtx.onError]
    dsimp only
    rw [if_neg]
    · rfl
    rw [List.any_eq_true]
    rintro ⟨b, hb, hlt⟩
    have := h.high b hb
    have := of_decide_eq_true hlt
    omega
  rw [utf8Step_eq (.inr rfl), DecCtx.step]
  cases hc : utf8Scan s with
  | ok cp len =>
    have hreads := utf8Scan_ok hc
    refine ⟨[cp], len, rfl, by simp [hreads.scalar], ?_⟩
    simp [escapedUtf8_scalar hreads.scalar, hreads.bytes]
  | err span reason =>
    have hspan := utf8Scan_err hc
    exact ⟨_, span, herr hspan, escaped_bytes hspan.high⟩
  | incomplete avail reason =>
    have hspan := (utf8Scan_incomplete hs hc).1
    exact ⟨_, avail, herr hspan, escaped_bytes hspan.high⟩

/-- Every byte string decodes, to a text that encodes to it. -/
theorem utf8Decode_escape (data : List UInt8) :
    ∃ cps, utf8Decode .surrogateEscape true data = .ok (cps, data.length) ∧
      (∀ cp ∈ cps, IsScalar cp ∨ IsEscaped cp) ∧ cps.flatMap escapedUtf8 = data := by
  have hall : ∀ (s : List UInt8) (i : ℕ), ∃ cps,
      Transducer.decode (utf8Step ⟨.utf8, .surrogateEscape⟩ true) .diverge i s =
        .ok (cps, i + s.length) ∧
      (∀ cp ∈ cps, IsScalar cp ∨ IsEscaped cp) ∧ cps.flatMap escapedUtf8 = s := by
    intro s
    induction hn : s.length using Nat.strongRecOn generalizing s with
    | ind n ih =>
      intro i
      by_cases hs : s = []
      · subst hs
        exact ⟨[], by simp [← hn], by simp, rfl⟩
      obtain ⟨out, m, hstep, hout, hflat⟩ := utf8Step_escape i hs
      obtain ⟨hm, hle⟩ := utf8Step_advances _ _ i s out m hs hstep
      have hlen : (s.drop m).length = n - m := by rw [List.length_drop, hn]
      obtain ⟨cps, hrun, hcps, hrest⟩ := ih (n - m) (by omega) _ hlen (i + m)
      refine ⟨out ++ cps, ?_, ?_, ?_⟩
      · rw [Transducer.decode_read (utf8Step_advances _ _) hs hstep, hrun]
        simp only [Except.map, Except.ok.injEq, Prod.mk.injEq, true_and]
        omega
      · intro cp hcp
        exact (List.mem_append.mp hcp).elim (hout cp) (hcps cp)
      · rw [List.flatMap_append, hflat, hrest, List.take_append_drop]
  obtain ⟨cps, hrun, hcps, hflat⟩ := hall data 0
  exact ⟨cps, by rw [utf8Decode, hrun, Nat.zero_add], hcps, hflat⟩

end Escape

section Pass

def IsCodePoint (cp : ℕ) : Prop := cp < 0x110000

/-- The bytes of a code point under `surrogatepass`. -/
def passedUtf8 (cp : ℕ) : List UInt8 :=
  (emitUtf8 cp).getD ((surrogateBytes .utf8 cp).getD [])

theorem surrogateBytes_utf8 {cp : ℕ} (h : IsSurrogate cp) :
    ∃ b0 b1 b2, surrogateBytes .utf8 cp = some [b0, b1, b2] ∧ b0.toNat = 0xED ∧
      (0xA0 ≤ b1.toNat ∧ b1.toNat ≤ 0xBF) ∧ isCont b2 ∧ bits3 b0 b1 b2 = cp := by
  rw [IsSurrogate] at h
  have hand (n : ℕ) : n &&& 0x3F = n % 2 ^ 6 := Nat.and_two_pow_sub_one_eq_mod n 6
  have hor (n : ℕ) : 0x80 ||| n % 2 ^ 6 = 0x80 + n % 2 ^ 6 :=
    shiftLeft_or (a := 2) (k := 6) (Nat.mod_lt _ (by decide))
  have hlead : 0xE0 ||| cp >>> 12 = 0xED := by
    rw [Nat.shiftRight_eq_div_pow, show cp / 2 ^ 12 = 0xD by omega]
    rfl
  refine ⟨_, _, _, rfl, ?_, ?_, ?_, ?_⟩
  · rw [hlead]
    rfl
  · rw [hand, hor, toNat_toUInt8, Nat.shiftRight_eq_div_pow]
    omega
  · rw [isCont, hand, hor, toNat_toUInt8]
    omega
  · rw [bits3_eq, hlead, hand, hand, hor, hor, toNat_toUInt8, toNat_toUInt8, toNat_toUInt8,
      Nat.shiftRight_eq_div_pow]
    omega

theorem surrogate_or_scalar {cp : ℕ} (h : IsCodePoint cp) : IsSurrogate cp ∨ IsScalar cp := by
  rw [IsCodePoint] at h
  by_cases hs : IsSurrogate cp
  · exact .inl hs
  · exact .inr ⟨h, hs⟩

theorem utf8Encode_passed (names : Names) {cps : List ℕ} (h : ∀ cp ∈ cps, IsCodePoint cp) :
    utf8Encode .surrogatePass names cps = .ok (cps.flatMap passedUtf8) := by
  refine encode_passed rfl fun cp hcp hnone => ⟨?_, rfl⟩
  refine (surrogate_or_scalar (h cp hcp)).resolve_right fun hs => ?_
  rw [emitUtf8, if_pos hs] at hnone
  cases hnone

theorem utf8Step_passed (i : ℕ) {cp : ℕ} (h : IsCodePoint cp) (rest : List UInt8) :
    utf8Step ⟨.utf8, .surrogatePass⟩ true i (passedUtf8 cp ++ rest) =
      .ok (.read [cp] (passedUtf8 cp).length) := by
  rcases surrogate_or_scalar h with hs | hs
  · obtain ⟨b0, b1, b2, hbytes, hb0, hb1, hb2, hbits⟩ := surrogateBytes_utf8 hs
    have hnone : ¬ IsScalar cp := fun h => h.2 hs
    have hbad : badSecond 0xA0 0xE0 0xED b0 b1 := .inr (by rw [if_neg (by omega)]; exact hb0)
    have hscan : utf8Scan (b0 :: b1 :: b2 :: rest) = .err 1 invalidCont := by
      rw [utf8Scan, if_neg (by omega), if_neg (by omega), if_neg (by omega), if_pos (by omega),
        scan3, if_pos hbad]
    have hdec : decodeEncodedSurrogate .utf8 (b0 :: b1 :: b2 :: rest) = some (cp, 3) := by
      rw [← hbits]
      exact if_pos ⟨hb0, hb1, hb2⟩
    rw [passedUtf8, emitUtf8, if_neg hnone, hbytes, Option.getD_none, Option.getD_some,
      utf8Step_eq (.inr rfl), DecCtx.step]
    dsimp only [List.cons_append, List.nil_append]
    rw [hscan]
    dsimp only [DecCtx.handled, DecCtx.onError]
    rw [hdec]
    rfl
  · rw [passedUtf8, emitUtf8, if_pos hs, Option.getD_some]
    exact utf8Step_scalar _ _ i hs rest

theorem passedUtf8_ne_nil {cp : ℕ} (h : IsCodePoint cp) : passedUtf8 cp ≠ [] := by
  rcases surrogate_or_scalar h with hs | hs
  · obtain ⟨b0, b1, b2, hbytes, -⟩ := surrogateBytes_utf8 hs
    rw [passedUtf8, emitUtf8, if_neg fun h => h.2 hs, hbytes]
    simp
  · rw [passedUtf8, emitUtf8, if_pos hs]
    exact encodeUtf8_ne_nil cp

theorem utf8Decode_passed {cps : List ℕ} (h : ∀ cp ∈ cps, IsCodePoint cp) :
    utf8Decode .surrogatePass true (cps.flatMap passedUtf8) =
      .ok (cps, (cps.flatMap passedUtf8).length) := by
  have hrun := Transducer.decode_flatMap (utf8Step_advances ⟨.utf8, .surrogatePass⟩ true) .diverge
    passedUtf8 (fun cp => [cp]) (fun us => ∀ cp ∈ us, IsCodePoint cp)
    (fun u us hus => passedUtf8_ne_nil (hus u (by simp)))
    (fun i u us hus => utf8Step_passed i (hus u (by simp)) _)
    (fun u us hus cp hcp => hus cp (List.mem_cons_of_mem _ hcp)) h 0
  rw [utf8Decode, hrun, flatMap_points, Nat.zero_add]

end Pass

end WeavePy.Codecs
