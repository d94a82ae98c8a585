import WeavePy.Codecs.Utf7Units
import WeavePy.Codecs.Escapes
import WeavePy.Lib.ByteOrder

/-!
Decoding in chunks gives what decoding at once gives. Of the escapes, all forms but the octal one
wait for their end.
-/

namespace WeavePy.Codecs

open Transducer (feed final Chunkable Advances ReadsEarly)

section Stateless

/-- A decoder that returns no byte order. -/
def stateless (decode : Bool → List UInt8 → Except CodecError (List ℕ × ℕ)) (st : Unit)
    (isFinal : Bool) (data : List UInt8) : Except CodecError (List ℕ × ℕ × Unit) :=
  (decode isFinal data).map fun r => (r.1, r.2, st)

theorem stateless_utf7 (errors : Handler) :
    stateless (utf7Decode errors) =
      Transducer.plain (utf7Unit ⟨.utf7, errors⟩) .diverge := by
  funext st isFinal data
  rw [stateless, utf7Decode_eq]
  rfl

/-- Under every handler and every byte order, with the byte order that was read in handed on. -/
theorem chunked_decoding (errors : Handler) :
    Chunkable (stateless (utf8Decode errors)) ∧ Chunkable (stateless (utf7Decode errors)) ∧
      Chunkable (carrying (utf16Decode errors)) ∧ Chunkable (carrying (utf32Decode errors)) := by
  refine ⟨utf8_chunkable errors, ?_, ?_, ?_⟩
  · rw [stateless_utf7]
    exact utf7_chunkable errors
  · rw [utf16Decode_eq]
    exact (sniffer16 errors).chunkable
  · rw [utf32Decode_eq]
    exact (sniffer32 errors).chunkable

/-- Without a mark the byte order returned is still zero, and a call that is given it takes a later
U+FEFF at its start for a mark. -/
theorem returned_byteorder_sniffs_again :
    feed (utf16Decode .strict) 0 [] [[0x61, 0x00]] [0xFF, 0xFE] = .ok [0x61] ∧
      (utf16Decode .strict 0 true [0x61, 0x00, 0xFF, 0xFE]).map Prod.fst = .ok [0x61, 0xFEFF] := by
  exact ⟨rfl, rfl⟩

end Stateless

section Appending

variable {nameToChar : List UInt8 → Option ℕ} {s : List UInt8} {c : UInt8}

theorem hexRun_append (count ch k : ℕ) (s t : List UInt8) (h : ∀ k', hexRun count ch k s ≠ .short k') :
    hexRun count ch k (s ++ t) = hexRun count ch k s := by
  induction count generalizing ch k s with
  | zero => simp [hexRun]
  | succ count ih =>
    cases s with
    | nil => exact absurd rfl (h k)
    | cons c s =>
      rw [List.cons_append, hexRun, hexRun]
      rw [hexRun] at h
      cases hc : hexVal c with
      | none => rfl
      | some v =>
        rw [hc] at h
        exact ih _ _ s h

theorem hexEscape_append {count : ℕ} {message tooBig : String} (t : List UInt8)
    (h : (hexEscape count message tooBig s).waits = false) :
    hexEscape count message tooBig (s ++ t) = hexEscape count message tooBig s := by
  unfold hexEscape at h ⊢
  rw [hexRun_append]
  rintro k hk
  rw [hk] at h
  exact absurd h (by simp [Escape.waits])

theorem nameEscape_append (t : List UInt8) (h : (nameEscape nameToChar s).waits = false) :
    nameEscape nameToChar (s ++ t) = nameEscape nameToChar s := by
  cases s with
  | nil => exact absurd h (by simp [nameEscape, Escape.waits])
  | cons c s =>
    rw [List.cons_append]
    unfold nameEscape at h ⊢
    dsimp only at h ⊢
    by_cases hbrace : c = braceOpen
    · rw [if_pos hbrace] at h ⊢
      rw [if_pos hbrace]
      have hopen : ¬ (s.takeWhile fun b => decide (b ≠ braceClose)).length = s.length := by
        intro hall
        rw [if_pos hall] at h
        exact absurd h (by simp [Escape.waits])
      have hname : (s ++ t).takeWhile (fun b => decide (b ≠ braceClose)) = s.takeWhile fun b => decide (b ≠ braceClose) := by
        rw [List.takeWhile_append, if_neg hopen]
      have hlt : (s.takeWhile fun b => decide (b ≠ braceClose)).length < s.length :=
        Nat.lt_of_le_of_ne (List.takeWhile_sublist _).length_le hopen
      rw [hname, if_neg hopen, if_neg (by rw [List.length_append]; omega)]
    · rw [if_neg hbrace, if_neg hbrace]

/-- An octal escape that more digits could still go on. -/
def OctalOpen : List UInt8 → Prop
  | [b, d] => b = backslashByte ∧ isOctal d
  | [b, d, e] => b = backslashByte ∧ isOctal d ∧ isOctal e
  | _ => False

def startsOctal (t : List UInt8) : Prop := ∃ d ∈ t.head?, isOctal d

theorem octalRun_append (t : List UInt8) (h : ¬ OctalOpen (backslashByte :: c :: s)) (hc : isOctal c) :
    octalRun c (s ++ t) = octalRun c s := by
  rcases s with - | ⟨d, - | ⟨e, s⟩⟩
  · exact absurd ⟨rfl, hc⟩ h
  · have hd : ¬ isOctal d = true := fun hd => h ⟨rfl, hc, hd⟩
    simp [octalRun, hd]
  · rfl

theorem escapeBody_append (t : List UInt8) (hopen : ¬ OctalOpen (backslashByte :: c :: s))
    (h : (escapeBody nameToChar c s).waits = false) :
    escapeBody nameToChar c (s ++ t) = escapeBody nameToChar c s := by
  unfold escapeBody at h ⊢
  cases hsimple : simpleEscape c with
  | some out => rfl
  | none =>
    rw [hsimple] at h
    dsimp only at h ⊢
    by_cases hoctal : isOctal c = true
    · rw [if_pos hoctal, if_pos hoctal, octalEscape, octalEscape, octalRun_append t hopen hoctal]
    · rw [if_neg hoctal] at h ⊢
      rw [if_neg hoctal]
      split_ifs at h ⊢
      · exact hexEscape_append t h
      · exact hexEscape_append t h
      · exact hexEscape_append t h
      · exact nameEscape_append t h
      · rfl

theorem rawEscapeBody_append (t : List UInt8) (h : (rawEscapeBody c s).waits = false) :
    rawEscapeBody c (s ++ t) = rawEscapeBody c s := by
  unfold rawEscapeBody at h ⊢
  split_ifs at h ⊢
  · exact hexEscape_append t h
  · exact hexEscape_append t h
  · rfl

theorem unicodeEscapeScan_plain {b : UInt8} (hb : b ≠ backslashByte) (s : List UInt8) :
    unicodeEscapeScan nameToChar (b :: s) = .text [(b.toNat, none)] 1 := by
  cases s with
  | nil => exact if_pos hb
  | cons c s => exact if_pos hb

theorem rawUnicodeEscapeScan_plain {b : UInt8} (hb : b ≠ backslashByte) (s : List UInt8) :
    rawUnicodeEscapeScan (b :: s) = .text [(b.toNat, none)] 1 := by
  cases s with
  | nil => exact if_pos hb
  | cons c s => exact if_pos hb

theorem unicodeEscapeScan_append (t : List UInt8) (hs : s ≠ []) (hopen : ¬ OctalOpen s)
    (h : (unicodeEscapeScan nameToChar s).waits = false) :
    unicodeEscapeScan nameToChar (s ++ t) = unicodeEscapeScan nameToChar s := by
  cases s with
  | nil => exact absurd rfl hs
  | cons b s =>
    by_cases hb : b = backslashByte
    · subst hb
      cases s with
      | nil => exact absurd h (by simp [unicodeEscapeScan, Escape.waits])
      | cons c s => exact escapeBody_append t hopen h
    · rw [List.cons_append, unicodeEscapeScan_plain hb, unicodeEscapeScan_plain hb]

theorem rawUnicodeEscapeScan_append (t : List UInt8) (hs : s ≠ []) (h : (rawUnicodeEscapeScan s).waits = false) :
    rawUnicodeEscapeScan (s ++ t) = rawUnicodeEscapeScan s := by
  cases s with
  | nil => exact absurd rfl hs
  | cons b s =>
    by_cases hb : b = backslashByte
    · subst hb
      cases s with
      | nil => exact absurd h (by simp [rawUnicodeEscapeScan, Escape.waits])
      | cons c s => exact rawEscapeBody_append t h
    · rw [List.cons_append, rawUnicodeEscapeScan_plain hb, rawUnicodeEscapeScan_plain hb]

end Appending

section Steps

variable {ctx : DecCtx} {scan : List UInt8 → Escape} {s t : List UInt8} {i j span : ℕ} {reason : String}

/-- The encodings of the escapes have no surrogates of their own. -/
theorem escaped_congr (henc : standardKey ctx.encoding = .unknown) (htake : s.take span = t.take span) :
    (ctx.escaped i s span reason).toOption = (ctx.escaped j t span reason).toOption := by
  have hnone : ∀ r : List UInt8, decodeEncodedSurrogate ctx.encoding r = none := by
    intro r
    unfold decodeEncodedSurrogate
    rw [henc]
  rw [DecCtx.escaped, DecCtx.escaped, Transducer.toOption_map, Transducer.toOption_map,
    onError_congr htake fun _ => by rw [hnone, hnone]]

theorem escapeStep_advances (hspan : ∀ s, s ≠ [] → 0 < (scan s).span ∧ (scan s).span ≤ s.length) (isFinal : Bool) :
    Advances (escapeStep ctx scan isFinal) := by
  intro i s out n hs h
  have hbounds := hspan s hs
  have herror : ∀ span reason, 0 < span ∧ span ≤ s.length → ctx.escaped i s span reason = .ok (.read out n) →
      0 < n ∧ n ≤ s.length := by
    intro span reason hspan h
    unfold DecCtx.escaped at h
    cases hr : ctx.onError i s span reason with
    | error e => rw [hr] at h; cases h
    | ok r =>
      rw [hr] at h
      obtain ⟨-, rfl⟩ := Transducer.Step.read.inj (Except.ok.inj h)
      exact onError_bounds hspan hr
  unfold escapeStep at h
  cases hscan : scan s with
  | text o len =>
    rw [hscan] at h hbounds
    obtain ⟨-, rfl⟩ := Transducer.Step.read.inj (Except.ok.inj h)
    exact hbounds
  | err span reason =>
    rw [hscan] at h hbounds
    exact herror span reason hbounds h
  | incomplete span reason =>
    rw [hscan] at h hbounds
    dsimp only at h
    split_ifs at h
    · exact herror span reason hbounds h
    · cases h
  | atEnd o len =>
    rw [hscan] at h hbounds
    dsimp only at h
    split_ifs at h
    · obtain ⟨-, rfl⟩ := Transducer.Step.read.inj (Except.ok.inj h)
      exact hbounds
    · cases h

theorem escapeStep_shift (henc : standardKey ctx.encoding = .unknown) (isFinal : Bool) (i j : ℕ) (s : List UInt8) :
    (escapeStep ctx scan isFinal i s).toOption = (escapeStep ctx scan isFinal j s).toOption := by
  unfold escapeStep
  cases scan s with
  | text o len => rfl
  | err span reason => exact escaped_congr henc rfl
  | incomplete span reason =>
    dsimp only
    split_ifs
    · exact escaped_congr henc rfl
    · rfl
  | atEnd o len => rfl

theorem escapeStep_here (henc : standardKey ctx.encoding = .unknown)
    (hspan : ∀ s, s ≠ [] → 0 < (scan s).span ∧ (scan s).span ≤ s.length) (hs : s ≠ [])
    (happend : (scan s).waits = false → scan (s ++ t) = scan s) (i j : ℕ) (h : escapeStep ctx scan false i s ≠ .ok .hold) :
    (escapeStep ctx scan false i s).toOption = (escapeStep ctx scan true j (s ++ t)).toOption := by
  have hbounds := hspan s hs
  unfold escapeStep at h ⊢
  cases hscan : scan s with
  | text o len => rw [happend (by rw [hscan]; rfl), hscan]
  | err span reason =>
    rw [hscan] at hbounds
    rw [happend (by rw [hscan]; rfl), hscan]
    apply escaped_congr henc
    exact (List.take_append_of_le_length hbounds.2).symm
  | incomplete span reason => rw [hscan] at h; exact absurd rfl h
  | atEnd o len => rw [hscan] at h; exact absurd rfl h

end Steps

section Octal

variable {nameToChar : List UInt8 → Option ℕ} {errors : Handler} {d : UInt8} {more t : List UInt8}

/-- The step of `unicode_escape`. -/
abbrev unicodeStep (nameToChar : List UInt8 → Option ℕ) (errors : Handler) :=
  escapeStep ⟨.unicodeEscape, errors⟩ (unicodeEscapeScan nameToChar)

abbrev unicodeText (nameToChar : List UInt8 → Option ℕ) (errors : Handler) : List UInt8 → Option (List Emitted) :=
  final (unicodeStep nameToChar errors true) .diverge

theorem octal_simple (hd : isOctal d = true) : simpleEscape d = none := by
  revert hd
  apply Bytes.byte_cases (p := fun d => isOctal d = true → simpleEscape d = none)
  decide +kernel

theorem octal_plain (hd : isOctal d = true) : d ≠ backslashByte := by
  rintro rfl
  exact absurd hd (by decide)

theorem unicodeScan_octal (hd : isOctal d = true) (s : List UInt8) :
    unicodeEscapeScan nameToChar (backslashByte :: d :: s) = octalEscape d s := by
  rw [unicodeEscapeScan, if_neg (not_not.2 rfl), escapeBody, octal_simple hd]
  exact if_pos hd

/-- The digits of `t` that an octal escape open at its start takes. -/
theorem octalRun_more (hmore : OctalOpen (backslashByte :: d :: more)) (t : List UInt8) :
    ∃ m ≤ t.length, (octalRun d (more ++ t)).2 = more.length + m ∧ (∀ x ∈ t.take m, isOctal x = true) ∧
      (startsOctal t → 0 < m) ∧ (¬ startsOctal t → octalRun d (more ++ t) = octalRun d more) := by
  rcases more with - | ⟨e, - | ⟨f, more⟩⟩
  · rcases t with - | ⟨x, t⟩
    · refine ⟨0, Nat.le_refl _, rfl, by simp, ?_, fun _ => rfl⟩
      rintro ⟨x, hx, -⟩
      simp at hx
    · by_cases hx : isOctal x = true
      · have hstarts : startsOctal (x :: t) := ⟨x, rfl, hx⟩
        rcases t with - | ⟨y, t⟩
        · exact ⟨1, by simp, by simp [octalRun, hx], by simpa using hx, fun _ => Nat.one_pos, fun h => absurd hstarts h⟩
        · by_cases hy : isOctal y = true
          · exact ⟨2, by simp, by simp [octalRun, hx, hy], by simp [hx, hy], fun _ => Nat.two_pos, fun h => absurd hstarts h⟩
          · exact ⟨1, by simp, by simp [octalRun, hx, hy], by simpa using hx, fun _ => Nat.one_pos, fun h => absurd hstarts h⟩
      · refine ⟨0, Nat.zero_le _, by simp [octalRun, hx], by simp, ?_, fun _ => by simp [octalRun, hx]⟩
        rintro ⟨y, hy, hoctal⟩
        obtain rfl : x = y := by simpa using hy
        exact absurd hoctal hx
  · obtain ⟨-, -, he⟩ := hmore
    rcases t with - | ⟨x, t⟩
    · refine ⟨0, Nat.le_refl _, by simp [octalRun, he], by simp, ?_, fun _ => rfl⟩
      rintro ⟨x, hx, -⟩
      simp at hx
    · by_cases hx : isOctal x = true
      · exact ⟨1, by simp, by simp [octalRun, he, hx], by simpa using hx, fun _ => Nat.one_pos, fun h => absurd ⟨x, rfl, hx⟩ h⟩
      · refine ⟨0, Nat.zero_le _, by simp [octalRun, he, hx], by simp, ?_, fun _ => by simp [octalRun, he, hx]⟩
        rintro ⟨y, hy, hoctal⟩
        obtain rfl : x = y := by simpa using hy
        exact absurd hoctal hx
  · exact hmore.elim

theorem unicodeStep_advances (isFinal : Bool) : Advances (unicodeStep nameToChar errors isFinal) :=
  escapeStep_advances (fun _ hs => unicodeEscapeScan_span hs) isFinal

theorem unicodeStep_shift (i j : ℕ) (s : List UInt8) :
    (unicodeStep nameToChar errors true i s).toOption = (unicodeStep nameToChar errors true j s).toOption :=
  escapeStep_shift rfl true i j s

def octalOut (d : UInt8) (s : List UInt8) : Emitted :=
  ((octalRun d s).1, if (octalRun d s).1 > 0o377 then some (octalWarning (octalRun d s).1) else none)

theorem unicodeStep_octal (isFinal : Bool) (hd : isOctal d = true) (i : ℕ) (s : List UInt8) :
    unicodeStep nameToChar errors isFinal i (backslashByte :: d :: s) = .ok (.read [octalOut d s] (2 + (octalRun d s).2)) := by
  unfold unicodeStep escapeStep
  rw [unicodeScan_octal hd]
  rfl

theorem unicodeText_octal (hd : isOctal d = true) (s : List UInt8) : unicodeText nameToChar errors (backslashByte :: d :: s) =
    (unicodeText nameToChar errors (s.drop (octalRun d s).2)).map ([octalOut d s] ++ ·) := by
  have hread := @Transducer.final_read _ _ _ _ .diverge (unicodeStep_advances true) (fun i j s _ => unicodeStep_shift i j s) 0 _ _ _
    (List.cons_ne_nil _ _) (@unicodeStep_octal nameToChar errors d true hd 0 s)
  rw [Nat.add_comm, List.drop_succ_cons, List.drop_succ_cons] at hread
  exact hread

theorem unicodeText_digits {m : ℕ} (hm : m ≤ t.length) (hdigits : ∀ x ∈ t.take m, isOctal x = true) :
    unicodeText nameToChar errors t = (unicodeText nameToChar errors (t.drop m)).map (points ((t.take m).map UInt8.toNat) ++ ·) := by
  induction m generalizing t with
  | zero => simp [points]
  | succ m ih =>
    cases t with
    | nil => exact absurd hm (Nat.not_succ_le_zero m)
    | cons x t =>
      rw [List.take_succ_cons] at hdigits
      have hx : x ≠ backslashByte := octal_plain (hdigits x List.mem_cons_self)
      have hstep : unicodeStep nameToChar errors true 0 (x :: t) = .ok (.read [(x.toNat, none)] 1) := by
        unfold unicodeStep escapeStep
        rw [unicodeEscapeScan_plain hx]
      have hread := @Transducer.final_read _ _ _ _ .diverge (unicodeStep_advances true) (fun i j s _ => unicodeStep_shift i j s) 0 _ _ _
        (List.cons_ne_nil _ _) hstep
      have hnext := ih (Nat.le_of_succ_le_succ hm) fun y hy => hdigits y (List.mem_cons_of_mem x hy)
      change unicodeText nameToChar errors (x :: t) = (unicodeText nameToChar errors t).map _ at hread
      rw [hread, hnext, Option.map_map]
      rfl

/-- `unicode_escape` reads early at an open octal escape, and nowhere else. -/
theorem unicodeStep_readsEarly (nameToChar : List UInt8 → Option ℕ) (errors : Handler) :
    ReadsEarly (unicodeStep nameToChar errors false) (unicodeStep nameToChar errors true) .diverge OctalOpen startsOctal where
  advances := unicodeStep_advances false
  advances' := unicodeStep_advances true
  shift i j s _ := unicodeStep_shift i j s
  here i j s t hs hopen := escapeStep_here rfl (fun _ hs => unicodeEscapeScan_span hs) hs
    (unicodeEscapeScan_append t hs hopen) i j
  nonempty _ hopen := by
    rintro rfl
    exact hopen.elim
  reads s hopen := by
    rcases s with - | ⟨b, - | ⟨d, more⟩⟩
    · exact hopen.elim
    · exact hopen.elim
    obtain ⟨rfl, hd⟩ : b = backslashByte ∧ isOctal d = true := by
      rcases more with - | ⟨e, - | ⟨f, more⟩⟩
      · exact hopen
      · exact ⟨hopen.1, hopen.2.1⟩
      · exact hopen.elim
    have hall : (octalRun d more).2 = more.length := by
      obtain ⟨m, hm, hrun, -⟩ := octalRun_more hopen []
      rw [List.append_nil] at hrun
      simp only [List.length_nil, Nat.le_zero_eq] at hm
      omega
    refine ⟨[octalOut d more], fun i => ?_, fun t ht => ?_, fun t ht => ?_⟩
    · rw [unicodeStep_octal false hd, hall, Nat.add_comm]
      rfl
    · obtain ⟨-, -, -, -, -, hsame⟩ := octalRun_more hopen t
      have hout : octalOut d (more ++ t) = octalOut d more := by
        unfold octalOut
        rw [hsame ht]
      have htext := @unicodeText_octal nameToChar errors d hd (more ++ t)
      rw [hout, hsame ht, hall, List.drop_left] at htext
      exact htext
    · obtain ⟨m, hm, hrun, hdigits, hpos, -⟩ := octalRun_more hopen t
      have htext := @unicodeText_octal nameToChar errors d hd (more ++ t)
      rw [hrun, List.drop_append] at htext
      have hdrop : more.drop (more.length + m) = [] := List.drop_eq_nil_of_le (Nat.le_add_right _ _)
      rw [hdrop, List.nil_append, Nat.add_sub_cancel_left] at htext
      have hrest := @unicodeText_digits nameToChar errors t m hm hdigits
      change final _ _ (backslashByte :: d :: (more ++ t)) = _ at htext
      change final _ _ t = _ at hrest
      cases hend : unicodeText nameToChar errors (t.drop m) with
      | none =>
        rw [hend] at htext hrest
        exact .inl ⟨htext, hrest⟩
      | some a =>
        rw [hend] at htext hrest
        refine .inr ⟨_, _, htext, hrest, ?_⟩
        have := hpos ht
        simp only [points, List.length_append, List.length_map, List.length_take, List.length_cons, List.length_nil]
        omega

end Octal

section Feeding

variable (nameToChar : List UInt8 → Option ℕ) (errors : Handler)

theorem rawStep_readsEarly : ReadsEarly (escapeStep ⟨.rawUnicodeEscape, errors⟩ rawUnicodeEscapeScan false)
    (escapeStep ⟨.rawUnicodeEscape, errors⟩ rawUnicodeEscapeScan true) .diverge (fun _ => False) (fun _ => False) where
  advances := escapeStep_advances (fun _ hs => rawUnicodeEscapeScan_span hs) false
  advances' := escapeStep_advances (fun _ hs => rawUnicodeEscapeScan_span hs) true
  shift i j s _ := escapeStep_shift rfl true i j s
  here i j _ t hs _ := escapeStep_here rfl (fun _ hs => rawUnicodeEscapeScan_span hs) hs
    (rawUnicodeEscapeScan_append t hs) i j
  nonempty _ h := h.elim
  reads _ h := h.elim

/-- The text that `unicode_escape` gives, without its warning. -/
def unicodeEscapeText (st : Unit) (isFinal : Bool) (data : List UInt8) : Except CodecError (List ℕ × ℕ × Unit) :=
  (unicodeEscapeDecode nameToChar errors isFinal data).map fun r => (r.1, r.2.1, st)

/-- A chunk but the last ends in an octal escape of one or two digits, read at a turn of the loop,
and an octal digit comes next. -/
def OctalCut (chunks : List (List UInt8)) (last : List UInt8) : Prop :=
  Transducer.Cut (unicodeStep nameToChar errors false) .diverge OctalOpen startsOctal [] chunks last

/-- A turn of the loop finds an escape that the handler does not answer. -/
def IllFormed (data : List UInt8) : Prop :=
  ∃ i s e, Transducer.Reaches (unicodeStep nameToChar errors true) 0 data i s ∧ s ≠ [] ∧
    unicodeStep nameToChar errors true i s = .error e

theorem raw_feed (chunks : List (List UInt8)) (last : List UInt8) :
    (Transducer.feed (stateless (rawUnicodeEscapeDecode errors)) () [] chunks last).toOption =
      ((rawUnicodeEscapeDecode errors true (chunks.flatten ++ last)).map Prod.fst).toOption := by
  have hdecoder : stateless (rawUnicodeEscapeDecode errors) = fun st isFinal s =>
      (Transducer.plain (escapeStep ⟨.rawUnicodeEscape, errors⟩ rawUnicodeEscapeScan) .diverge st isFinal s).map
        fun r => (r.1.map Prod.fst, r.2) := by
    funext st isFinal s
    unfold stateless rawUnicodeEscapeDecode Transducer.plain
    cases Transducer.decode _ _ 0 s <;> rfl
  have hwhole : ∀ s, ((rawUnicodeEscapeDecode errors true s).map Prod.fst).toOption =
      (final (escapeStep ⟨.rawUnicodeEscape, errors⟩ rawUnicodeEscapeScan true) .diverge s).map (List.map Prod.fst) := by
    intro s
    unfold rawUnicodeEscapeDecode final Transducer.text
    cases Transducer.decode _ _ 0 s <;> rfl
  have hnocut : ∀ chunks tail, ¬ Transducer.Cut (escapeStep ⟨.rawUnicodeEscape, errors⟩ rawUnicodeEscapeScan false) .diverge
      (fun _ => False) (fun _ => False) tail chunks last := by
    intro chunks
    induction chunks with
    | nil => exact fun _ h => h
    | cons chunk chunks ih =>
      rintro tail (⟨-, h⟩ | ⟨out, n, -, h⟩)
      · exact h
      · exact ih _ h
  rw [hdecoder, Transducer.feed_map, Transducer.toOption_map, hwhole]
  rcases Transducer.feed_early (rawStep_readsEarly errors) [] chunks last with ⟨hnone, hfed⟩ | ⟨a, b, hsome, hfed, -, -, heq⟩
  · rw [List.nil_append] at hnone
    rw [hnone, hfed]
  · rw [List.nil_append] at hsome
    rw [hsome, hfed, heq (hnocut chunks [])]

theorem unicode_feed (chunks : List (List UInt8)) (last : List UInt8) :
    (Transducer.feed (unicodeEscapeText nameToChar errors) () [] chunks last).toOption =
        ((unicodeEscapeDecode nameToChar errors true (chunks.flatten ++ last)).map Prod.fst).toOption ↔
      (OctalCut nameToChar errors chunks last → IllFormed nameToChar errors (chunks.flatten ++ last)) := by
  have hdecoder : unicodeEscapeText nameToChar errors = fun st isFinal s =>
      (Transducer.plain (unicodeStep nameToChar errors) .diverge st isFinal s).map fun r => (r.1.map Prod.fst, r.2) := by
    funext st isFinal s
    unfold unicodeEscapeText unicodeEscapeDecode Transducer.plain
    cases Transducer.decode _ _ 0 s <;> rfl
  have hwhole : ∀ s, ((unicodeEscapeDecode nameToChar errors true s).map Prod.fst).toOption =
      (unicodeText nameToChar errors s).map (List.map Prod.fst) := by
    intro s
    unfold unicodeEscapeDecode unicodeText final Transducer.text
    cases Transducer.decode _ _ 0 s <;> rfl
  have hill : IllFormed nameToChar errors (chunks.flatten ++ last) ↔ unicodeText nameToChar errors (chunks.flatten ++ last) = none :=
    (Transducer.text_eq_none_iff (unicodeStep_advances true) 0 _).symm
  rw [hdecoder, Transducer.feed_map, Transducer.toOption_map, hwhole, hill]
  rcases Transducer.feed_early (unicodeStep_readsEarly nameToChar errors) [] chunks last with
    ⟨hnone, hfed⟩ | ⟨a, b, hsome, hfed, -, hlt, heq⟩
  · change unicodeText nameToChar errors (chunks.flatten ++ last) = none at hnone
    rw [hnone, hfed]
    exact iff_of_true rfl fun _ => rfl
  · change unicodeText nameToChar errors (chunks.flatten ++ last) = some a at hsome
    rw [hsome, hfed]
    by_cases hcut : OctalCut nameToChar errors chunks last
    · refine iff_of_false (fun h => ?_) fun h => nomatch h hcut
      have hlength := congrArg List.length (Option.some.inj h)
      rw [List.length_map, List.length_map] at hlength
      exact absurd hlength (Nat.ne_of_gt (hlt hcut))
    · rw [heq hcut]
      exact iff_of_true rfl fun h => absurd h hcut

end Feeding

end WeavePy.Codecs
