import WeavePy.Codecs.Chunks

/-!
Decoders that look for a byte order mark at the start of a call, and the byte order that the next
call is to be given.
-/

namespace WeavePy.Codecs

open Transducer (Advances Local Splits Chunkable text)

/-- The byte order for the next call: the one returned, and once bytes have been consumed without a
byte order mark the little-endian one that they were read in. -/
def carry (n : ℕ) (byteorder : ℤ) : ℤ := if byteorder = 0 ∧ n ≠ 0 then -1 else byteorder

section Sniffer

variable {u : ℕ} {sniff : ℤ → List UInt8 → Option ℤ}
  {steps : Bool → Bool → ℕ → List UInt8 → Except CodecError (Transducer.Step ℕ)}

def sniffing (u : ℕ) (sniff : ℤ → List UInt8 → Option ℤ)
    (steps : Bool → Bool → ℕ → List UInt8 → Except CodecError (Transducer.Step ℕ)) (byteorder : ℤ)
    (isFinal : Bool) (data : List UInt8) : Except CodecError (List ℕ × ℕ × ℤ) :=
  let start := if (sniff byteorder data).isSome then u else 0
  let byteorder := (sniff byteorder data).getD byteorder
  (Transducer.decode (steps (isBig byteorder) isFinal) .diverge start (data.drop start)).map
    fun r => (r.1, r.2, byteorder)

/-- The calls with the byte order that each hands to the next. -/
def carrying (decoder : ℤ → Bool → List UInt8 → Except CodecError (List ℕ × ℕ × ℤ))
    (byteorder : ℤ) (isFinal : Bool) (data : List UInt8) : Except CodecError (List ℕ × ℕ × ℤ) :=
  (decoder byteorder isFinal data).map fun r => (r.1, r.2.1, carry r.2.1 r.2.2)

/-- A mark of `u` bytes, and steps of whole units of `u` bytes. -/
structure Sniffer (u : ℕ) (sniff : ℤ → List UInt8 → Option ℤ)
    (steps : Bool → Bool → ℕ → List UInt8 → Except CodecError (Transducer.Step ℕ)) : Prop where
  pos : 0 < u
  fixed : ∀ st s, st ≠ 0 → sniff st s = none
  found : ∀ st s b, sniff st s = some b → b ≠ 0 ∧ u ≤ s.length
  grows : ∀ st s t, u ≤ s.length → sniff st (s ++ t) = sniff st s
  advances : ∀ big isFinal, Advances (steps big isFinal)
  growing : ∀ big, Local (steps big false) (steps big true)
  shifts : ∀ big i j s, s ≠ [] → (steps big true i s).toOption = (steps big true j s).toOption
  units : ∀ big i s out n, s ≠ [] → steps big false i s = .ok (.read out n) → u ∣ n
  takes : ∀ big i s out n m, s ≠ [] → steps big false i s = .ok (.read out n) → u ∣ m → n ≤ m →
    m ≤ s.length → steps big true i (s.take m) = .ok (.read out n)
  waits : ∀ big i s, s ≠ [] → s.length < u → steps big false i s = .ok .hold
  reads : ∀ big i s, steps big true i s ≠ .ok .hold

/-- What is decoded where no mark is found. -/
theorem sniffing_none {st : ℤ} {isFinal : Bool} {s : List UInt8} (h : sniff st s = none) :
    carrying (sniffing u sniff steps) st isFinal s =
      (Transducer.decode (steps (isBig st) isFinal) .diverge 0 s).map
        fun r => (r.1, r.2, carry r.2 st) := by
  rw [carrying, sniffing, h]
  cases hr : Transducer.decode (steps (isBig st) isFinal) .diverge 0 s with
  | error e => simp [hr, Except.map]
  | ok r => simp [hr, Except.map]

/-- What is decoded behind a mark. -/
theorem sniffing_some {st b : ℤ} {isFinal : Bool} {s : List UInt8} (hb : b ≠ 0)
    (h : sniff st s = some b) :
    carrying (sniffing u sniff steps) st isFinal s =
      (Transducer.decode (steps (isBig b) isFinal) .diverge u (s.drop u)).map
        fun r => (r.1, r.2, b) := by
  rw [carrying, sniffing, h]
  cases hr : Transducer.decode (steps (isBig b) isFinal) .diverge u (s.drop u) with
  | error e => simp [hr, Except.map]
  | ok r => simp [hr, Except.map, carry, hb]

theorem map_fst {r : Except CodecError (List ℕ × ℕ)} {f : List ℕ × ℕ → ℤ} :
    ((r.map fun r => (r.1, r.2, f r)).map Prod.fst).toOption = text r := by
  cases r <;> rfl

theorem map_ok {r : Except CodecError (List ℕ × ℕ)} {f : List ℕ × ℕ → ℤ} {out : List ℕ} {n : ℕ}
    {st : ℤ} (h : (r.map fun r => (r.1, r.2, f r)) = .ok (out, n, st)) :
    r = .ok (out, n) ∧ st = f (out, n) := by
  cases r with
  | error e => cases h
  | ok r =>
    obtain ⟨rfl, h'⟩ := Prod.mk.inj (Except.ok.inj h)
    obtain ⟨rfl, rfl⟩ := Prod.mk.inj h'
    exact ⟨rfl, rfl⟩

theorem map_error {r : Except CodecError (List ℕ × ℕ)} {f : List ℕ × ℕ → ℤ} {e : CodecError}
    (h : (r.map fun r => (r.1, r.2, f r)) = .error e) : r = .error e := by
  cases r with
  | error e' => exact congrArg _ (Except.error.inj h)
  | ok r => cases h

variable (hs : Sniffer u sniff steps)

include hs

theorem Sniffer.splits (big : Bool) {i : ℕ} {s : List UInt8} (t : List UInt8) :
    (∀ e, Transducer.decode (steps big false) .diverge i s = .error e →
      text (Transducer.decode (steps big true) .diverge i (s ++ t)) = none) ∧
      ∀ o c, Transducer.decode (steps big false) .diverge i s = .ok (o, c) → ∀ k,
        text (Transducer.decode (steps big true) .diverge i (s ++ t)) =
          (text (Transducer.decode (steps big true) .diverge k (s.drop (c - i) ++ t))).map
            (o ++ ·) :=
  Transducer.decode_splits (hs.advances big false) (hs.advances big true) (hs.growing big)
    (hs.shifts big) t

/-- A call that reads or fails has a whole unit before it. -/
theorem Sniffer.long_of_error {big : Bool} {s : List UInt8} {e : CodecError}
    (h : Transducer.decode (steps big false) .diverge 0 s = .error e) : u ≤ s.length := by
  by_contra hlt
  by_cases hnil : s = []
  · subst hnil
    cases h
  · rw [Transducer.decode_hold hnil (hs.waits big 0 s hnil (by omega))] at h
    cases h

theorem Sniffer.long_of_ok {big : Bool} {i n : ℕ} {s : List UInt8} {out : List ℕ}
    (h : Transducer.decode (steps big false) .diverge i s = .ok (out, n)) :
    u ∣ n - i ∧ Transducer.decode (steps big true) .diverge i (s.take (n - i)) = .ok (out, n) :=
  Transducer.decode_take u (hs.advances big false) (hs.advances big true) (hs.units big)
    (hs.takes big) h

theorem Sniffer.carrying_splits :
    Splits (carrying (sniffing u sniff steps)) fun _ _ => True where
  fails := by
    rintro st s t e - h
    cases hsn : sniff st s with
    | none =>
      rw [sniffing_none hsn] at h
      have hrun := map_error h
      have hsn' : sniff st (s ++ t) = none := by rw [hs.grows _ _ _ (hs.long_of_error hrun), hsn]
      rw [sniffing_none hsn', map_fst]
      exact (hs.splits _ t).1 e hrun
    | some b =>
      obtain ⟨hb, hu⟩ := hs.found _ _ _ hsn
      rw [sniffing_some hb hsn] at h
      have hrun := map_error h
      have hsn' : sniff st (s ++ t) = some b := by rw [hs.grows _ _ _ hu, hsn]
      rw [sniffing_some hb hsn', map_fst, List.drop_append_of_le_length hu]
      exact (hs.splits _ t).1 e hrun
  goes := by
    rintro st s t out n st' - h
    cases hsn : sniff st s with
    | none =>
      rw [sniffing_none hsn] at h
      obtain ⟨hrun, rfl⟩ := map_ok h
      have hbound := Transducer.decode_bounds (hs.advances _ _) hrun
      refine ⟨by omega, trivial, ?_⟩
      by_cases hn : n = 0
      · subst hn
        obtain rfl := Transducer.decode_eq_start (hs.advances _ _) hrun
        simp [carry]
      · have hu : u ≤ s.length := by
          have := Nat.le_of_dvd (by omega) (hs.long_of_ok hrun).1
          omega
        have hsn' : sniff st (s ++ t) = none := by rw [hs.grows _ _ _ hu, hsn]
        have hcarry : carry n st ≠ 0 ∧ isBig (carry n st) = isBig st := by
          rw [carry]
          split_ifs with h0
          · exact ⟨by decide, by rw [h0.1]; rfl⟩
          · exact ⟨fun h => h0 ⟨h, hn⟩, rfl⟩
        rw [sniffing_none hsn', sniffing_none (hs.fixed _ _ hcarry.1), map_fst, map_fst,
          hcarry.2]
        simpa using (hs.splits _ t).2 out n hrun 0
    | some b =>
      obtain ⟨hb, hu⟩ := hs.found _ _ _ hsn
      rw [sniffing_some hb hsn] at h
      obtain ⟨hrun, rfl⟩ := map_ok h
      have hbound := Transducer.decode_bounds (hs.advances _ _) hrun
      rw [List.length_drop] at hbound
      refine ⟨by omega, trivial, ?_⟩
      have hsn' : sniff st (s ++ t) = some st' := by rw [hs.grows _ _ _ hu, hsn]
      rw [sniffing_some hb hsn', sniffing_none (hs.fixed _ _ hb), map_fst, map_fst,
        List.drop_append_of_le_length hu, (hs.splits _ t).2 out n hrun 0, List.drop_drop,
        show u + (n - u) = n by omega]

theorem Sniffer.chunkable : Chunkable (carrying (sniffing u sniff steps)) where
  feeds := hs.carrying_splits.feeds
  consumed := by
    intro st s out n st' h
    cases hsn : sniff st s with
    | none =>
      rw [sniffing_none hsn] at h
      obtain ⟨hrun, rfl⟩ := map_ok h
      have hbound := Transducer.decode_bounds (hs.advances _ _) hrun
      obtain ⟨hdvd, htake⟩ := hs.long_of_ok hrun
      have hsn' : sniff st (s.take n) = none := by
        cases hsn' : sniff st (s.take n) with
        | none => rfl
        | some b =>
          have hgrow := hs.grows st _ (s.drop n) (hs.found _ _ _ hsn').2
          rw [List.take_append_drop, hsn, hsn'] at hgrow
          cases hgrow
      refine ⟨by omega, carry n st, ?_⟩
      rw [sniffing_none hsn', show s.take n = s.take (n - 0) from rfl, htake]
      rfl
    | some b =>
      obtain ⟨hb, hu⟩ := hs.found _ _ _ hsn
      rw [sniffing_some hb hsn] at h
      obtain ⟨hrun, rfl⟩ := map_ok h
      have hbound := Transducer.decode_bounds (hs.advances _ _) hrun
      rw [List.length_drop] at hbound
      have hlong : u ≤ (s.take n).length := by
        rw [List.length_take]
        omega
      have hsn' : sniff st (s.take n) = some st' := by
        rw [← hs.grows _ _ (s.drop n) hlong, List.take_append_drop, hsn]
      refine ⟨by omega, st', ?_⟩
      rw [sniffing_some hb hsn', List.drop_take, (hs.long_of_ok hrun).2]
      rfl
  whole := by
    intro st s out n st' h
    cases hsn : sniff st s with
    | none =>
      rw [sniffing_none hsn] at h
      have := Transducer.decode_consumes (hs.advances _ _) (fun i s _ => hs.reads _ i s)
        (map_ok h).1
      omega
    | some b =>
      obtain ⟨hb, hu⟩ := hs.found _ _ _ hsn
      rw [sniffing_some hb hsn] at h
      have := Transducer.decode_consumes (hs.advances _ _) (fun i s _ => hs.reads _ i s)
        (map_ok h).1
      rw [List.length_drop] at this
      omega

end Sniffer

section Instances

variable {ctx : DecCtx} {scan : List UInt8 → Scan} {i n : ℕ} {s : List UInt8} {out : List ℕ}

theorem step_ne_hold : ctx.step scan true i s ≠ .ok .hold := by
  have hhandled (span : ℕ) (reason : String) : ctx.handled i s span reason ≠ .ok .hold := by
    rw [DecCtx.handled]
    cases ctx.onError i s span reason <;> rintro ⟨⟩
  rw [DecCtx.step]
  cases scan s with
  | ok cp len => rintro ⟨⟩
  | err span reason => exact hhandled span reason
  | incomplete avail reason => exact hhandled avail reason

theorem step_shift (j : ℕ) :
    (ctx.step scan true i s).toOption = (ctx.step scan true j s).toOption := by
  rw [DecCtx.step, DecCtx.step]
  cases scan s with
  | ok cp len => rfl
  | err span reason => exact handled_congr rfl fun _ => rfl
  | incomplete avail reason => exact handled_congr rfl fun _ => rfl

theorem step_unit {u : ℕ} (h : ctx.step scan false i s = .ok (.read out n))
    (hok : ∀ cp len, scan s = .ok cp len → u ∣ len)
    (herr : ∀ span r, scan s = .err span r → u ∣ span) (hneed : u ∣ need ctx.encoding) :
    u ∣ n := by
  rw [DecCtx.step] at h
  cases hc : scan s with
  | ok cp len =>
    rw [hc] at h
    obtain ⟨-, rfl⟩ := Transducer.Step.read.inj (Except.ok.inj h)
    exact hok cp len hc
  | err span reason =>
    rw [hc] at h
    rcases onError_ok (handled_ok h) with ⟨rfl, -⟩ | ⟨-, rfl, -⟩
    · exact herr n reason hc
    · exact hneed
  | incomplete avail reason => rw [hc] at h; cases h

theorem need_encoding16 (big : Bool) : need (encoding16 big) = 2 := by
  cases big <;> rfl

theorem need_encoding32 (big : Bool) : need (encoding32 big) = 4 := by
  cases big <;> rfl

def steps16 (errors : Handler) (big isFinal : Bool) : ℕ → List UInt8 → Except CodecError (Transducer.Step ℕ) :=
  DecCtx.step ⟨encoding16 big, errors⟩ (utf16Scan big) isFinal

def steps32 (errors : Handler) (big isFinal : Bool) : ℕ → List UInt8 → Except CodecError (Transducer.Step ℕ) :=
  DecCtx.step ⟨encoding32 big, errors⟩ (utf32Scan big) isFinal

theorem utf16Decode_eq (errors : Handler) :
    utf16Decode errors = sniffing 2 sniff16 (steps16 errors) := rfl

theorem utf32Decode_eq (errors : Handler) :
    utf32Decode errors = sniffing 4 sniff32 (steps32 errors) := rfl

theorem utf16Scan_ok_even {big : Bool} {cp len : ℕ} (h : utf16Scan big s = .ok cp len) :
    2 ∣ len := by
  rcases s with - | ⟨a, - | ⟨b, s⟩⟩
  · cases h
  · cases h
  rw [utf16Scan] at h
  split_ifs at h
  · rw [(scanPair_ok h).1]
    decide
  · rw [← (Scan.ok.inj h).2]

theorem sniffer16 (errors : Handler) : Sniffer 2 sniff16 (steps16 errors) where
  pos := by decide
  fixed := by
    intro st s hst
    rcases s with - | ⟨a, - | ⟨b, s⟩⟩
    · rfl
    · rfl
    · exact if_neg hst
  found := by
    intro st s b h
    rcases s with - | ⟨a, - | ⟨c, s⟩⟩
    · cases h
    · cases h
    · rw [sniff16] at h
      split_ifs at h
      · obtain rfl := Option.some.inj h
        simp
      · obtain rfl := Option.some.inj h
        simp
  grows := by
    intro st s t hlen
    rcases s with - | ⟨a, - | ⟨b, s⟩⟩
    · simp at hlen
    · simp at hlen
    · rfl
  advances := fun big isFinal => step_advances (utf16Scan_within big) isFinal
  growing := by
    intro big i j s t hs hhold
    refine step_append (utf16Scan_within big) hs hhold (utf16Scan_append hs) fun span r h => ?_
    have hw := utf16Scan_within big s hs
    rw [h] at hw
    apply decodeEncodedSurrogate_append
    rw [need_encoding16, ← (utf16Scan_take_err (k := 0) h).1]
    exact hw.2
  shifts := fun big i j s _ => step_shift j
  units := by
    intro big i s out n _ h
    refine step_unit h (fun cp len => utf16Scan_ok_even) (fun span r hc => ?_) ?_
    · rw [(utf16Scan_take_err (k := 0) hc).1]
    · rw [need_encoding16]
  takes := by
    rintro big i s out n m - h ⟨k, rfl⟩ hn hm
    refine step_take h hn (fun cp len => utf16Scan_take_ok) (fun span r hc => ?_) hm
    obtain ⟨hspan, htake⟩ := utf16Scan_take_err hc
    exact ⟨by rw [need_encoding16, hspan], htake⟩
  waits := by
    intro big i s hs hlen
    rcases s with - | ⟨a, - | ⟨b, s⟩⟩
    · exact absurd rfl hs
    · rfl
    · simp only [List.length_cons] at hlen
      omega
  reads := fun big i s => step_ne_hold

theorem sniffer32 (errors : Handler) : Sniffer 4 sniff32 (steps32 errors) where
  pos := by decide
  fixed := fun st s hst => if_neg hst
  found := by
    intro st s b h
    rw [sniff32] at h
    split_ifs at h with h0 hle hbe
    · obtain rfl := Option.some.inj h
      have hlen := congrArg List.length hle
      rw [List.length_take, List.length_cons] at hlen
      simp at hlen
      exact ⟨by decide, by omega⟩
    · obtain rfl := Option.some.inj h
      have hlen := congrArg List.length hbe
      rw [List.length_take, List.length_cons] at hlen
      simp at hlen
      exact ⟨by decide, by omega⟩
  grows := by
    intro st s t hlen
    rw [sniff32, sniff32, List.take_append_of_le_length hlen]
  advances := fun big isFinal => step_advances (utf32Scan_within big) isFinal
  growing := by
    intro big i j s t hs hhold
    refine step_append (utf32Scan_within big) hs hhold utf32Scan_append fun span r h => ?_
    have hw := utf32Scan_within big s hs
    have hlen := utf32Scan_len big s
    rw [h] at hw hlen
    apply decodeEncodedSurrogate_append
    rw [need_encoding32]
    dsimp only at hw hlen
    omega
  shifts := fun big i j s _ => step_shift j
  units := by
    intro big i s out n _ h
    refine step_unit h (fun cp len hc => ?_) (fun span r hc => ?_) (by rw [need_encoding32])
    · have hlen := utf32Scan_len big s
      rw [hc] at hlen
      rw [hlen]
    · have hlen := utf32Scan_len big s
      rw [hc] at hlen
      rw [hlen]
  takes := by
    rintro big i s out n m - h - hn hm
    have hlen := utf32Scan_len big s
    refine step_take h hn (fun cp len hc hl => ?_) (fun span r hc => ?_) hm
    · rw [hc] at hlen
      rw [utf32Scan_take (by omega), hc]
    · rw [hc] at hlen
      refine ⟨by rw [need_encoding32, hlen], fun hl => ⟨r, .inl ?_⟩⟩
      rw [utf32Scan_take (by omega), hc]
  waits := by
    intro big i s hs hlen
    rcases s with - | ⟨a, - | ⟨b, - | ⟨c, - | ⟨d, s⟩⟩⟩⟩
    · exact absurd rfl hs
    · rfl
    · rfl
    · rfl
    · simp only [List.length_cons] at hlen
      omega
  reads := fun big i s => step_ne_hold

theorem utf8_chunkable (errors : Handler) :
    Chunkable (Transducer.plain (utf8Step ⟨.utf8, errors⟩) .diverge) := by
  apply Transducer.plain_chunkable (utf8Step_advances ⟨.utf8, errors⟩) (utf8Step_local errors)
  · intro i j s _
    rw [utf8Step_eq (.inr rfl), utf8Step_eq (.inr rfl)]
    exact step_shift j
  · intro i s out n m _ h hn hm
    exact utf8Step_take errors h hn hm
  · intro i s _
    rw [utf8Step_eq (.inr rfl)]
    exact step_ne_hold

end Instances

end WeavePy.Codecs
