import WeavePy.Json.Agreement

/-!
Strings, containers and whole documents: the two scans end alike.
-/

namespace WeavePy.Json

open JsonChar

/-- The same failure, the index of a missing value translated. -/
inductive SameErr {ε : Type} (l : List Char) : ScanErr ε → ScanErr ε → Prop
  | noValue {k : ℕ} : k ≤ l.length → SameErr l (.noValue (byteOffset l k)) (.noValue k)
  | decode (msg : String) (pos : ℕ) : SameErr l (.decode msg pos) (.decode msg pos)
  | recursion : SameErr l .recursion .recursion
  | other (e : ε) : SameErr l (.other e) (.other e)

/-- The same value, and the end translated, past `k`. -/
def SameEnd {α : Type} (l : List Char) (k : ℕ) (x y : α × ℕ) : Prop :=
  x.1 = y.1 ∧ x.2 = byteOffset l y.2 ∧ k < y.2 ∧ y.2 ≤ l.length

variable {σ ε ω α β : Type} {l : List Char} {k i j : ℕ} {q : α → β → Prop}

theorem SameEnd.mono {x y : α × ℕ} (h : SameEnd l j x y) (hk : k ≤ j) : SameEnd l k x y :=
  ⟨h.1, h.2.1, hk.trans_lt h.2.2.1, h.2.2.2⟩

/-- Going on after a value that both scans read. -/
theorem bind_sameEnd {x y : Scan σ ε (α × ℕ)} (h : Related (SameErr l) (SameEnd l k) x y)
    {f g : α × ℕ → Scan σ ε β} {r : β → β → Prop}
    (hr : ∀ a i, k < i → i ≤ l.length → Related (SameErr l) r (f (a, byteOffset l i)) (g (a, i))) :
    Related (SameErr l) r (x >>= f) (y >>= g) := by
  apply related_bind h
  rintro ⟨a, n⟩ ⟨b, i⟩ ⟨hab, hn, hlow, hhigh⟩
  dsimp only at hab hn hlow hhigh
  subst hab hn
  exact hr a i hlow hhigh

section Escapes

theorem decodeError_related (hk : k ≤ l.length) (msg : String) :
    Related (SameErr l) q (decodeError (utf8Bytes l) msg (byteOffset l k) : Scan σ ε α)
      (decodeError (wide l) msg k : Scan σ ε β) := by
  apply related_throw
  rw [position_bytes hk]
  exact .decode msg k

/-- Hexadecimal digits, as many as are asked for. -/
def hexTake {C : Type} [JsonChar C] (n v : ℕ) (cps : List C) : Option ℕ :=
  if n ≤ cps.length then
    (cps.take n).foldlM (m := Option) (fun v c => (hexVal (code c)).map fun d => v <<< 4 ||| d) v
  else none

theorem hexTake_cons {C : Type} [JsonChar C] (n v : ℕ) (c : C) (cps : List C) :
    hexTake (n + 1) v (c :: cps) =
      (hexVal (code c)).bind fun d => hexTake n (v <<< 4 ||| d) cps := by
  unfold hexTake
  rw [List.length_cons, List.take_succ_cons, List.foldlM_cons]
  by_cases hn : n ≤ cps.length
  · rw [if_pos (Nat.succ_le_succ hn)]
    cases hexVal (code c) with
    | none => rfl
    | some d => exact (if_pos hn).symm
  · rw [if_neg fun h => hn (Nat.le_of_succ_le_succ h)]
    cases hexVal (code c) with
    | none => rfl
    | some d => exact (if_neg hn).symm

theorem hexVal_wide {c : ℕ} (h : 128 ≤ c) : hexVal c = none := by
  unfold hexVal
  rw [if_neg (by omega), if_neg (by omega), if_neg (by omega)]

theorem hexTake_same (n v : ℕ) (l : List Char) :
    hexTake n v (utf8Bytes l) = hexTake n v (wide l) := by
  induction n generalizing v l with
  | zero => rfl
  | succ n ih =>
    cases l with
    | nil => rfl
    | cons c l =>
      have hwide : wide (c :: l) = c.val :: wide l := rfl
      rw [utf8Bytes_cons, hwide, hexTake_cons]
      rcases Nat.lt_or_ge c.toNat 128 with h | h
      · have hbyte : code (UInt8.ofNat c.toNat) = c.toNat :=
          UInt8.toNat_ofNat_of_lt' (h.trans (by decide))
        rw [encodeChar_ascii h, List.singleton_append, hexTake_cons, hbyte]
        exact congrArg _ (funext fun d => ih _ l)
      · obtain ⟨b, t, heq, ⟨-, hb⟩, -⟩ := encodeChar_wide h
        have hnone : hexVal (code c.val) = none := hexVal_wide h
        have hnone' : hexVal (code b) = none := hexVal_wide hb
        rw [heq, List.cons_append, hexTake_cons, hnone, hnone']
        rfl

/-- Hexadecimal digits take as many bytes as characters. -/
theorem hexTake_offset {n v x : ℕ} {l : List Char} (h : hexTake n v (wide l) = some x) :
    byteOffset l n = n ∧ n ≤ l.length := by
  induction n generalizing v l with
  | zero => exact ⟨byteOffset_zero l, Nat.zero_le _⟩
  | succ n ih =>
    cases l with
    | nil => nomatch h
    | cons c l =>
      have hwide : wide (c :: l) = c.val :: wide l := rfl
      rw [hwide, hexTake_cons] at h
      obtain ⟨d, hd, hrest⟩ := Option.bind_eq_some_iff.mp h
      obtain ⟨hoff, hlen⟩ := ih hrest
      have hascii : c.toNat < 128 := by
        by_contra hc
        have hnone : hexVal (code c.val) = none := hexVal_wide (not_lt.mp hc)
        rw [hnone] at hd
        nomatch hd
      constructor
      · rw [byteOffset, List.take_succ_cons, utf8Bytes_cons, encodeChar_ascii hascii,
          List.singleton_append, List.length_cons]
        exact congrArg (· + 1) hoff
      · exact Nat.succ_le_succ hlen

theorem decodeUxxxx_eq {C : Type} [JsonChar C] (cps : List C) (pos : ℕ) :
    (decodeUxxxx cps pos : Scan σ ε ℕ) =
      match hexTake 4 0 (cps.drop (pos + 1)) with
      | some v => pure v
      | none => decodeError cps "Invalid \\uXXXX escape" pos := by
  have hlen : (4 ≤ (cps.drop (pos + 1)).length) ↔ pos + 4 < cps.length := by
    rw [List.length_drop]
    omega
  unfold decodeUxxxx hexTake
  by_cases h : pos + 4 < cps.length
  · simp only [if_pos h, if_pos (hlen.mpr h)] <;> rfl
  · rw [if_neg h, if_neg (mt hlen.mp h)]

theorem decodeUxxxx_related (h : peek (wide l) k = some 0x75) :
    Related (SameErr l)
      (fun a b => a = b ∧ byteOffset l (k + 5) = byteOffset l k + 5 ∧ k + 5 ≤ l.length)
      (decodeUxxxx (utf8Bytes l) (byteOffset l k) : Scan σ ε ℕ)
      (decodeUxxxx (wide l) k : Scan σ ε ℕ) := by
  obtain ⟨hnext, hlt⟩ := offset_succ h (by decide)
  have hdrop : (wide l).drop (k + 1) = wide (l.drop (k + 1)) := List.map_drop.symm
  rw [decodeUxxxx_eq, decodeUxxxx_eq, ← hnext, drop_byteOffset, hdrop, hexTake_same]
  cases hdigits : hexTake 4 0 (wide (l.drop (k + 1))) with
  | none => exact decodeError_related hlt.le _
  | some v =>
    obtain ⟨hoff, hlen⟩ := hexTake_offset hdigits
    rw [List.length_drop] at hlen
    have hfive : byteOffset l (k + 5) = byteOffset l (k + 1) + 4 := by
      have hadd := byteOffset_add l (k + 1) 4
      rwa [hoff] at hadd
    exact related_pure ⟨rfl, by omega, by omega⟩

end Escapes

section Strings

variable {cfg : ScannerCfg σ ε ω} {start : ℕ} {out : List ℕ}
  {next next' : ℕ → List ℕ → Scan σ ε (List ℕ × ℕ)}

/-- What an escape needs of the code that goes on after it. -/
def GoesOn (l : List Char) (i : ℕ) (next next' : ℕ → List ℕ → Scan σ ε (List ℕ × ℕ)) : Prop :=
  ∀ j out, i < j → j ≤ l.length →
    Related (SameErr l) (SameEnd l i) (next (byteOffset l j) out) (next' j out)

theorem simpleEscape_wide {c : ℕ} (h : 128 ≤ c) : simpleEscape c = none := by
  unfold simpleEscape
  simp only [show c ≠ 0x22 by omega, show c ≠ 0x5c by omega, show c ≠ 0x2f by omega,
    show c ≠ 0x62 by omega, show c ≠ 0x66 by omega, show c ≠ 0x6e by omega,
    show c ≠ 0x72 by omega, show c ≠ 0x74 by omega, if_false]

theorem opening_error (hq : peek (wide l) k = some 0x22) (msg : String) :
    Related (SameErr l) q
      (decodeError (utf8Bytes l) msg (opening (byteOffset l (k + 1))) : Scan σ ε α)
      (decodeError (wide l) msg (opening (k + 1)) : Scan σ ε β) := by
  obtain ⟨hnext, hlt⟩ := offset_succ hq (by decide)
  have hb : opening (byteOffset l (k + 1)) = byteOffset l k := by
    rw [hnext]
    rfl
  have hw : opening (k + 1) = k := rfl
  rw [hb, hw]
  exact decodeError_related hlt.le msg

theorem stringEscapeU_related (hi : peek (wide l) i = some 0x5c)
    (hu : peek (wide l) (i + 1) = some 0x75) (hnext : GoesOn l i next next') :
    Related (SameErr l) (SameEnd l i) (stringEscapeU (utf8Bytes l) next (byteOffset l i) out)
      (stringEscapeU (wide l) next' i out) := by
  have hone := (offset_succ hi (by decide)).1
  unfold stringEscapeU
  rw [← hone]
  apply related_bind (decodeUxxxx_related hu)
  rintro uni _ ⟨rfl, hfive, hlen⟩
  replace hfive : byteOffset l (i + 6) = byteOffset l (i + 1) + 5 := hfive
  have hsix : byteOffset l i + 6 = byteOffset l (i + 6) := by omega
  have hslash := peek_eq_iff (l := l) (k := i + 6) (show 0x5c < 128 by decide)
  rw [hsix]
  by_cases hs : peek (wide l) (i + 6) = some 0x5c
  · obtain ⟨hseven, hlt⟩ := offset_succ hs (by decide)
    replace hseven : byteOffset l (i + 7) = byteOffset l (i + 6) + 1 := hseven
    have hseven' : byteOffset l i + 7 = byteOffset l (i + 7) := by omega
    have hu' := peek_eq_iff (l := l) (k := i + 7) (show 0x75 < 128 by decide)
    rw [hseven']
    by_cases hcond : 0xd800 ≤ uni ∧ uni ≤ 0xdbff ∧ peek (wide l) (i + 7) = some 0x75
    · obtain ⟨hlow, hhigh, hpeek⟩ := hcond
      rw [if_pos ⟨hlow, hhigh, hslash.mpr hs, hu'.mpr hpeek⟩, if_pos ⟨hlow, hhigh, hs, hpeek⟩]
      apply related_bind (decodeUxxxx_related hpeek)
      rintro uni2 _ ⟨rfl, hfive', hlen'⟩
      replace hfive' : byteOffset l (i + 12) = byteOffset l (i + 7) + 5 := hfive'
      have htwelve : byteOffset l i + 12 = byteOffset l (i + 12) := by omega
      rw [htwelve]
      split
      · exact hnext _ _ (by omega) hlen'
      · exact hnext _ _ (by omega) hlen
    · rw [if_neg fun h => hcond ⟨h.1, h.2.1, hu'.mp h.2.2.2⟩,
        if_neg fun h => hcond ⟨h.1, h.2.1, h.2.2.2⟩]
      exact hnext _ _ (by omega) hlen
  · rw [if_neg fun h => hs (hslash.mp h.2.2.1), if_neg fun h => hs h.2.2.1]
    exact hnext _ _ (by omega) hlen

theorem stringEscape_related (hq : peek (wide l) k = some 0x22)
    (hi : peek (wide l) i = some 0x5c) (hnext : GoesOn l i next next') :
    Related (SameErr l) (SameEnd l i)
      (stringEscape cfg (utf8Bytes l) (byteOffset l (k + 1)) next (byteOffset l i) out)
      (stringEscape cfg (wide l) (k + 1) next' i out) := by
  obtain ⟨hone, hlt⟩ := offset_succ hi (by decide)
  have hfirst : Related (SameErr l) (SameEnd l i)
      (do
        let c ← Comp.lift (first ((utf8Bytes l).drop (byteOffset l (i + 1))))
        decodeError (utf8Bytes l) ("Invalid \\escape: " ++ shown cfg c) (byteOffset l i) :
        Scan σ ε (List ℕ × ℕ))
      (do
        let c ← Comp.lift (first ((wide l).drop (i + 1)))
        decodeError (wide l) ("Invalid \\escape: " ++ shown cfg c) i) := by
    have hdrop : (wide l).drop (i + 1) = wide (l.drop (i + 1)) := List.map_drop.symm
    rw [drop_byteOffset, hdrop]
    apply related_bind (related_lift (first_bytes _) (first_wide _) rfl)
    rintro c _ rfl
    exact decodeError_related hlt.le _
  have hsame := peek_same l (i + 1)
  have hstep (a : ℕ) (h : peek (wide l) (i + 1) = some a) (ha : a < 128) := offset_succ h ha
  have hu (h : peek (wide l) (i + 1) = some 0x75) :
      Related (SameErr l) (SameEnd l i) (stringEscapeU (utf8Bytes l) next (byteOffset l i) out)
        (stringEscapeU (wide l) next' i out) := stringEscapeU_related hi h hnext
  unfold stringEscape
  rw [← hone]
  generalize peek (utf8Bytes l) (byteOffset l (i + 1)) = x at hsame ⊢
  generalize peek (wide l) (i + 1) = y at hsame hstep hu ⊢
  cases hsame with
  | none => exact opening_error hq _
  | @ascii a ha =>
    dsimp only
    split_ifs with hesc
    · cases hch : simpleEscape a with
      | none => exact hfirst
      | some ch =>
        obtain ⟨htwo, hlt'⟩ := hstep a rfl ha
        have hoff : byteOffset l i + 2 = byteOffset l (i + 2) := by rw [htwo, hone]
        dsimp only
        rw [hoff]
        exact hnext _ _ (by omega) hlt'
    · exact hu (by rw [not_not.mp hesc])
  | @wide a b ha hb =>
    have hna : simpleEscape a = none := simpleEscape_wide ha
    have hnb : simpleEscape b = none := simpleEscape_wide hb
    have ha' : a ≠ 0x75 := by omega
    have hb' : b ≠ 0x75 := by omega
    dsimp only
    rw [if_pos ha', if_pos hb', hna, hnb]
    exact hfirst

theorem getElem?_takeWhile_length {γ : Type} (p : γ → Bool) (m : List γ) :
    m[(m.takeWhile p).length]? = (m.dropWhile p).head? := by
  induction m with
  | nil => rfl
  | cons a m ih =>
    rw [List.takeWhile_cons, List.dropWhile_cons]
    split
    · rw [List.length_cons, List.getElem?_cons_succ, ih]
    · rfl

/-- The scan of a chunk stops at a quote, a backslash or a control character. -/
theorem skipWhile_stop {p : ℕ → Bool} {a : ℕ} (h : peek (wide l) (skipWhile (wide l) p k) = some a) :
    p a = false := by
  rw [peek_wide, skipWhile_wide] at h
  have hhead := List.head?_dropWhile_not (fun c : Char => p c.toNat) (l.drop k)
  have hget : l[k + ((l.drop k).takeWhile fun c => p c.toNat).length]? =
      ((l.drop k).dropWhile fun c => p c.toNat).head? := by
    rw [← List.getElem?_drop, getElem?_takeWhile_length]
  rw [hget] at h
  obtain ⟨c, hc, rfl⟩ := Option.map_eq_some_iff.mp h
  rw [hc] at hhead
  simpa using hhead

/-- The chunks of a string, and its escapes, by induction on the code points that are left. -/
theorem stringLoop_related (hq : peek (wide l) k = some 0x22) {fuel fuel' : ℕ}
    (hfuel : (utf8Bytes l).length < fuel + byteOffset l i) (hfuel' : l.length < fuel' + i)
    (hki : k + 1 ≤ i) (hi : i ≤ l.length) (out : List ℕ) :
    Related (SameErr l) (SameEnd l i)
      (stringLoop cfg (utf8Bytes l) (byteOffset l (k + 1)) fuel (byteOffset l i) out)
      (stringLoop cfg (wide l) (k + 1) fuel' i out) := by
  induction fuel' generalizing fuel i out with
  | zero => omega
  | succ fuel' ih =>
    have hble := byteOffset_le l i
    obtain ⟨fuel, rfl⟩ : ∃ m, fuel = m + 1 := Nat.exists_eq_add_one.mpr (by omega)
    have hsame : skipWhile (utf8Bytes l) isPlain (byteOffset l i) =
        byteOffset l (skipWhile (wide l) isPlain i) :=
      skipWhile_same (fun _ _ ha hb => (isPlain_wide ha).trans (isPlain_wide hb).symm) l i
    have hle := le_skipWhile l isPlain i
    have hend := skipWhile_le isPlain hi
    have hstop (a : ℕ) (h : peek (wide l) (skipWhile (wide l) isPlain i) = some a) :
        isPlain a = false := skipWhile_stop h
    unfold stringLoop
    dsimp only
    rw [hsame]
    generalize skipWhile (wide l) isPlain i = n at hle hend hstop ⊢
    have hstart : byteOffset l i = byteOffset l (k + 1) ↔ i = k + 1 := by
      constructor
      · intro h
        by_contra hne
        have := byteOffset_lt (show k + 1 < i by omega) hi
        omega
      · rintro rfl
        rfl
    have hunit := peek_same l n
    have hstep (a : ℕ) (h : peek (wide l) n = some a) (ha : a < 128) := offset_succ h ha
    have hon : GoesOn l n (stringLoop cfg (utf8Bytes l) (byteOffset l (k + 1)) fuel)
        (stringLoop cfg (wide l) (k + 1) fuel') := by
      intro j out hnj hj
      have hlt := byteOffset_lt (show i < j by omega) hj
      exact related_mono (ih (by omega) (by omega) (by omega) hj out) fun _ _ h => h.mono (by omega)
    have hesc (out : List ℕ) (h : peek (wide l) n = some 0x5c) :=
      @stringEscape_related _ _ _ _ _ _ cfg out _ _ hq h hon
    cases hpeek : peek (wide l) n with
    | none =>
      rw [hpeek] at hunit
      generalize peek (utf8Bytes l) (byteOffset l n) = x at hunit
      cases hunit
      exact opening_error hq _
    | some a =>
      have ha : a < 128 := by
        by_contra hwide
        have := hstop a hpeek
        rw [isPlain_wide (not_lt.mp hwide)] at this
        nomatch this
      obtain ⟨hnext, hlt⟩ := hstep a hpeek ha
      rw [(peek_eq_iff ha).mpr hpeek]
      dsimp only
      rw [span_bytes hle, span_wide]
      by_cases hwhole : a = 0x22 ∧ out = [] ∧ i = k + 1
      · rw [if_pos ⟨hwhole.1, hwhole.2.1, hstart.mpr hwhole.2.2⟩, if_pos hwhole]
        apply related_bind (related_lift (string_bytes _) (string_wide _) rfl)
        rintro value _ rfl
        rw [← hnext]
        exact related_pure ⟨rfl, rfl, by omega, hlt⟩
      · rw [if_neg fun h => hwhole ⟨h.1, h.2.1, hstart.mp h.2.2⟩, if_neg hwhole]
        apply related_bind (related_lift (append_bytes _) (append_wide _) rfl)
        rintro chunk _ rfl
        split_ifs with hquote hslash hstrict
        · rw [← hnext]
          exact related_pure ⟨rfl, rfl, by omega, hlt⟩
        · exact decodeError_related hend _
        · rw [← hnext]
          exact related_mono (hon _ _ (Nat.lt_succ_self n) hlt) fun _ _ h => h.mono (by omega)
        · exact related_mono (hesc _ (by rw [hpeek, not_not.mp hslash])) fun _ _ h => h.mono (by omega)

/-- The scan of a string after its quote. -/
theorem scanString_related (hq : peek (wide l) k = some 0x22) :
    Related (SameErr l) (SameEnd l k) (scanString cfg (utf8Bytes l) (byteOffset l (k + 1)))
      (scanString cfg (wide l) (k + 1)) := by
  have hlt := (offset_succ hq (by decide)).2
  have hble := byteOffset_le l (k + 1)
  have hfuel : l.length < (wide l).length + 1 + (k + 1) := by
    rw [wide, List.length_map]
    omega
  exact related_mono (stringLoop_related hq (by omega) hfuel le_rfl hlt []) fun _ _ h =>
    h.mono (by omega)

end Strings

section Values

variable {cfg : ScannerCfg σ ε ω}

theorem callPy_related (f : Call σ ε ω) :
    Related (SameErr l) Eq (callPy f : Scan σ ε (Obj ω)) (callPy f) := by
  apply related_call
  intro s
  refine ⟨rfl, ?_⟩
  cases (f s).1 with
  | ok a => rfl
  | error e => exact .other e

theorem scanNumber_related (hki : k < i) (hi : i ≤ l.length) (isFloat : Bool) :
    Related (SameErr l) (SameEnd l k)
      (scanNumber cfg (utf8Bytes l) (byteOffset l k) (byteOffset l i) isFloat)
      (scanNumber cfg (wide l) k i isFloat) := by
  unfold scanNumber
  rw [span_bytes hki.le, span_wide]
  apply related_bind (related_lift (text_bytes _) (text_wide _) rfl)
  rintro numstr _ rfl
  dsimp only
  split
  · exact related_pure ⟨rfl, rfl, hki, hi⟩
  · apply related_bind (callPy_related _)
    rintro res _ rfl
    exact related_pure ⟨rfl, rfl, hki, hi⟩

/-- The ASCII keywords that are looked for. -/
def Keyword (kw : List ℕ) : Prop := kw ≠ [] ∧ ∀ a ∈ kw, a < 128

theorem keyword_end {kw : List ℕ} (hkw : Keyword kw) (h : matchesKw (wide l) k kw = true)
    (hk : k ≤ l.length) {γ : Type} (v : γ) :
    SameEnd l k (v, byteOffset l k + kw.length) (v, k + kw.length) := by
  obtain ⟨hoff, hlen⟩ := matchesKw_offset hkw.1 hkw.2 h hk
  have hpos := List.length_pos_of_ne_nil hkw.1
  exact ⟨rfl, hoff.symm, by dsimp only; omega, hlen⟩

theorem constant_related {kw : List ℕ} (hkw : Keyword kw) (h : matchesKw (wide l) k kw = true)
    (hk : k ≤ l.length) (name : String) :
    Related (SameErr l) (SameEnd l k)
      (do
        let r ← parseConstant cfg name
        pure (r, byteOffset l k + kw.length) : Scan σ ε (Obj ω × ℕ))
      (do
        let r ← parseConstant cfg name
        pure (r, k + kw.length)) := by
  apply related_bind (callPy_related _)
  rintro r _ rfl
  exact related_pure (keyword_end hkw h hk r)

theorem scanOther_related (hk : k ≤ l.length) :
    Related (SameErr l) (SameEnd l k) (scanOther cfg (utf8Bytes l) (byteOffset l k))
      (scanOther cfg (wide l) k) := by
  have hnan : Keyword (codes "NaN") := ⟨by decide, by decide⟩
  have hinf : Keyword (codes "Infinity") := ⟨by decide, by decide⟩
  have hneg : Keyword (codes "-Infinity") := ⟨by decide, by decide⟩
  unfold scanOther
  rw [matchNumber_same, matchesKw_same hnan.1 hnan.2, matchesKw_same hinf.1 hinf.2,
    matchesKw_same hneg.1 hneg.2]
  cases hnum : matchNumber (wide l) k with
  | some p =>
    obtain ⟨i, isFloat⟩ := p
    obtain ⟨hki, hi⟩ := matchNumber_bounds hnum
    exact scanNumber_related hki hi isFloat
  | none =>
    change Related _ _ (if _ then _ else _) (if _ then _ else _)
    split_ifs with h h' h''
    · exact constant_related hnan h hk "NaN"
    · exact constant_related hinf h' hk "Infinity"
    · exact constant_related hneg h'' hk "-Infinity"
    · exact related_throw (.noValue hk)

/-- What the parser of a container does after its opening unit. -/
def Opens (l : List Char) (a : ℕ) (x y : ℕ → Scan σ ε (Obj ω × ℕ)) : Prop :=
  ∀ k, peek (wide l) k = some a →
    Related (SameErr l) (SameEnd l k) (x (byteOffset l (k + 1))) (y (k + 1))

variable {object object' array array' : ℕ → Scan σ ε (Obj ω × ℕ)}

/-- One value, containers given. -/
theorem scanValue_related (hobject : Opens l 0x7b object object') (harray : Opens l 0x5b array array')
    (hk : k ≤ l.length) :
    Related (SameErr l) (SameEnd l k)
      (scanValue cfg (utf8Bytes l) object array (byteOffset l k))
      (scanValue cfg (wide l) object' array' k) := by
  have hnull : Keyword (codes "null") := ⟨by decide, by decide⟩
  have htrue : Keyword (codes "true") := ⟨by decide, by decide⟩
  have hfalse : Keyword (codes "false") := ⟨by decide, by decide⟩
  have hstring (h : peek (wide l) k = some 0x22) :
      Related (SameErr l) (SameEnd l k) (scanString cfg (utf8Bytes l) (byteOffset l (k + 1)))
        (scanString cfg (wide l) (k + 1)) := scanString_related h
  have hobject' := hobject k
  have harray' := harray k
  have hother : Related (SameErr l) (SameEnd l k) (scanOther cfg (utf8Bytes l) (byteOffset l k))
      (scanOther cfg (wide l) k) := scanOther_related hk
  have hunit := peek_same l k
  have hstep (a : ℕ) (h : peek (wide l) k = some a) (ha : a < 128) := (offset_succ h ha).1
  unfold scanValue
  rw [matchesKw_same hnull.1 hnull.2, matchesKw_same htrue.1 htrue.2,
    matchesKw_same hfalse.1 hfalse.2]
  generalize peek (utf8Bytes l) (byteOffset l k) = x at hunit ⊢
  generalize peek (wide l) k = y at hunit hstring hobject' harray' hstep ⊢
  cases hunit with
  | none => exact related_throw (.noValue hk)
  | @ascii a ha =>
    dsimp only
    split_ifs with hquote hbrace hbracket hn ht hf
    · subst hquote
      rw [← hstep _ rfl ha]
      apply bind_sameEnd (hstring rfl)
      exact fun s i hlow hhigh => related_pure ⟨rfl, rfl, hlow, hhigh⟩
    · subst hbrace
      rw [← hstep _ rfl ha]
      exact hobject' rfl
    · subst hbracket
      rw [← hstep _ rfl ha]
      exact harray' rfl
    · exact related_pure (keyword_end hnull hn.2 hk _)
    · exact related_pure (keyword_end htrue ht.2 hk _)
    · exact related_pure (keyword_end hfalse hf.2 hk _)
    · exact hother
  | @wide a b ha hb =>
    dsimp only
    rw [if_neg (by omega), if_neg (by omega), if_neg (by omega), if_neg (fun h => by omega),
      if_neg (fun h => by omega), if_neg (fun h => by omega), if_neg (by omega), if_neg (by omega),
      if_neg (by omega), if_neg (fun h => by omega), if_neg (fun h => by omega),
      if_neg (fun h => by omega)]
    exact hother

end Values

section Containers

variable {cfg : ScannerCfg σ ε ω} {scan scan' : ℕ → Scan σ ε (Obj ω × ℕ)}

theorem expectValue_related {x : Scan σ ε α} {y : Scan σ ε β} (h : Related (SameErr l) q x y) :
    Related (SameErr l) q (expectValue (utf8Bytes l) x) (expectValue (wide l) y) := by
  apply related_catch h
  intro e f hef
  cases hef with
  | noValue hk => exact decodeError_related hk _
  | decode msg pos => exact related_throw (.decode msg pos)
  | recursion => exact related_throw .recursion
  | other e => exact related_throw (.other e)

theorem insertField_related (key : List ℕ) (value : Obj ω) (object : DecodedObject ω) :
    Related (SameErr l) Eq (insertField cfg key value object : Scan σ ε (DecodedObject ω))
      (insertField cfg key value object) := by
  cases object with
  | pairs pairs => exact related_pure rfl
  | dict entries =>
    unfold insertField
    dsimp only
    cases entries.lookup key with
    | none => exact related_pure rfl
    | some previous => exact related_bind (related_modify _) fun _ _ _ => related_pure rfl

theorem finishObject_related (object : DecodedObject ω) :
    Related (SameErr l) Eq (finishObject cfg object : Scan σ ε (Obj ω))
      (finishObject cfg object) := by
  cases object with
  | pairs pairs =>
    unfold finishObject
    dsimp only
    cases cfg.objectPairsHook with
    | some hook => exact callPy_related _
    | none => exact related_pure rfl
  | dict entries =>
    unfold finishObject
    dsimp only
    cases cfg.objectHook with
    | some hook => exact callPy_related _
    | none => exact related_pure rfl

/-- The scans of values agree. -/
def ScansAlike (l : List Char) (scan scan' : ℕ → Scan σ ε (Obj ω × ℕ)) : Prop :=
  ∀ k ≤ l.length, Related (SameErr l) (SameEnd l k) (scan (byteOffset l k)) (scan' k)

theorem finish_related (object : DecodedObject ω) {a : ℕ} (ha : peek (wide l) i = some a)
    (hascii : a < 128) (hki : k ≤ i) :
    Related (SameErr l) (SameEnd l k)
      (do
        let result ← finishObject cfg object
        pure (result, byteOffset l i + 1) : Scan σ ε (Obj ω × ℕ))
      (do
        let result ← finishObject cfg object
        pure (result, i + 1)) := by
  obtain ⟨hnext, hlt⟩ := offset_succ ha hascii
  apply related_bind (finishObject_related object)
  rintro result _ rfl
  exact related_pure ⟨rfl, hnext.symm, by dsimp only; omega, hlt⟩

/-- The fields of an object, by induction on the code points that are left. -/
theorem objectLoop_related (hscan : ScansAlike l scan scan') {fuel fuel' : ℕ}
    (hk : peek (wide l) k = some 0x22)
    (hfuel : (utf8Bytes l).length < fuel + byteOffset l (k + 1))
    (hfuel' : l.length < fuel' + (k + 1)) (object : DecodedObject ω) :
    Related (SameErr l) (SameEnd l k)
      (objectLoop cfg (utf8Bytes l) scan fuel (byteOffset l (k + 1)) object)
      (objectLoop cfg (wide l) scan' fuel' (k + 1) object) := by
  induction fuel' generalizing fuel k object with
  | zero =>
    have := (offset_succ hk (by decide)).2
    omega
  | succ fuel' ih =>
    have hble := byteOffset_le l (k + 1)
    obtain ⟨fuel, rfl⟩ : ∃ m, fuel = m + 1 := Nat.exists_eq_add_one.mpr (by omega)
    unfold objectLoop
    apply bind_sameEnd (scanString_related hk)
    intro key i hki hi
    dsimp only
    have hcolon (n : ℕ) := peek_eq_iff (l := l) (k := n) (show 0x3a < 128 by decide)
    have hplace : (if peek (utf8Bytes l) (byteOffset l i) = some 0x3a then byteOffset l i
        else skipWs (utf8Bytes l) (byteOffset l i)) =
        byteOffset l (if peek (wide l) i = some 0x3a then i else skipWs (wide l) i) := by
      by_cases h : peek (wide l) i = some 0x3a
      · rw [if_pos ((hcolon i).mpr h), if_pos h]
      · rw [if_neg (mt (hcolon i).mp h), if_neg h, skipWs_same]
    have hbounds : i ≤ (if peek (wide l) i = some 0x3a then i else skipWs (wide l) i) ∧
        (if peek (wide l) i = some 0x3a then i else skipWs (wide l) i) ≤ l.length := by
      split_ifs
      · exact ⟨le_rfl, hi⟩
      · exact ⟨le_skipWhile l isWs i, skipWhile_le isWs hi⟩
    rw [hplace]
    generalize (if peek (wide l) i = some 0x3a then i else skipWs (wide l) i) = n at hbounds ⊢
    by_cases hpeek : peek (wide l) n = some 0x3a
    · rw [if_neg (not_not.mpr ((hcolon n).mpr hpeek)), if_neg (not_not.mpr hpeek)]
      obtain ⟨hnext, hlt⟩ := offset_succ hpeek (by decide)
      obtain ⟨hblank, hblank'⟩ := skipBlank_bounds hlt
      rw [← hnext, skipBlank_same]
      apply bind_sameEnd (expectValue_related (hscan _ hblank'))
      intro value e hlow hhigh
      dsimp only
      apply related_bind (insertField_related key value object)
      rintro object _ rfl
      obtain ⟨hdelim, hdelim'⟩ := skipDelim_bounds hhigh
      rw [skipDelim_same]
      generalize skipDelim (wide l) e = m at hdelim hdelim' ⊢
      have hbrace := peek_eq_iff (l := l) (k := m) (show 0x7d < 128 by decide)
      have hcomma := peek_eq_iff (l := l) (k := m) (show 0x2c < 128 by decide)
      by_cases hb : peek (wide l) m = some 0x7d
      · rw [if_pos (hbrace.mpr hb), if_pos hb]
        exact finish_related object hb (by decide) (by omega)
      · rw [if_neg (mt hbrace.mp hb), if_neg hb]
        by_cases hc : peek (wide l) m = some 0x2c
        · obtain ⟨hnext', hlt'⟩ := offset_succ hc (by decide)
          have hws := le_skipWhile l isWs (m + 1)
          have hws' := skipWhile_le (k := m + 1) isWs hlt'
          rw [if_pos (hcomma.mpr hc), if_pos hc, ← hnext', skipWs_same]
          change m + 1 ≤ skipWs (wide l) (m + 1) at hws
          change skipWs (wide l) (m + 1) ≤ l.length at hws'
          generalize skipWs (wide l) (m + 1) = j at hws hws' ⊢
          have hquote := peek_eq_iff (l := l) (k := j) (show 0x22 < 128 by decide)
          have hclose := peek_eq_iff (l := l) (k := j) (show 0x7d < 128 by decide)
          by_cases hq : peek (wide l) j = some 0x22
          · obtain ⟨hnext'', hlt''⟩ := offset_succ hq (by decide)
            rw [if_pos (hquote.mpr hq), if_pos hq, ← hnext'']
            have hless := byteOffset_lt (show k + 1 < j + 1 by omega) hlt''
            exact related_mono (ih hq (by omega) (by omega) object) fun _ _ h => h.mono (by omega)
          · rw [if_neg (mt hquote.mp hq), if_neg hq]
            by_cases hcl : peek (wide l) j = some 0x7d
            · rw [if_pos (hclose.mpr hcl), if_pos hcl]
              exact decodeError_related hdelim' _
            · rw [if_neg (mt hclose.mp hcl), if_neg hcl]
              exact decodeError_related hws' _
        · rw [if_neg (mt hcomma.mp hc), if_neg hc]
          exact decodeError_related hdelim' _
    · rw [if_pos (mt (hcolon n).mp hpeek), if_pos hpeek]
      exact decodeError_related hbounds.2 _

theorem parseObject_related (hscan : ScansAlike l scan scan') :
    Opens l 0x7b (parseObject cfg (utf8Bytes l) scan) (parseObject cfg (wide l) scan') := by
  intro k hk
  obtain ⟨hnext, hlt⟩ := offset_succ hk (by decide)
  unfold parseObject
  have hquote (n : ℕ) := peek_eq_iff (l := l) (k := n) (show 0x22 < 128 by decide)
  have hplace : (if peek (utf8Bytes l) (byteOffset l (k + 1)) ≠ some 0x22 ∧
      (peek (utf8Bytes l) (byteOffset l (k + 1))).any isWs then
        skipWs (utf8Bytes l) (byteOffset l (k + 1)) else byteOffset l (k + 1)) =
      byteOffset l (if peek (wide l) (k + 1) ≠ some 0x22 ∧ (peek (wide l) (k + 1)).any isWs then
        skipWs (wide l) (k + 1) else k + 1) := by
    rw [peek_any fun _ => isWs_wide]
    by_cases h : peek (wide l) (k + 1) ≠ some 0x22 ∧ (peek (wide l) (k + 1)).any isWs
    · rw [if_pos ⟨mt (hquote _).mp h.1, h.2⟩, if_pos h, skipWs_same]
    · rw [if_neg fun h' => h ⟨mt (hquote _).mpr h'.1, h'.2⟩, if_neg h]
  have hbounds : k + 1 ≤ (if peek (wide l) (k + 1) ≠ some 0x22 ∧
      (peek (wide l) (k + 1)).any isWs then skipWs (wide l) (k + 1) else k + 1) ∧
      (if peek (wide l) (k + 1) ≠ some 0x22 ∧ (peek (wide l) (k + 1)).any isWs then
        skipWs (wide l) (k + 1) else k + 1) ≤ l.length := by
    split_ifs
    · exact ⟨le_skipWhile l isWs _, skipWhile_le isWs hlt⟩
    · exact ⟨le_rfl, hlt⟩
  rw [hplace]
  generalize (if peek (wide l) (k + 1) ≠ some 0x22 ∧ (peek (wide l) (k + 1)).any isWs then
    skipWs (wide l) (k + 1) else k + 1) = n at hbounds ⊢
  dsimp only
  have hclose := peek_eq_iff (l := l) (k := n) (show 0x7d < 128 by decide)
  by_cases hq : peek (wide l) n = some 0x22
  · obtain ⟨hnext', hlt'⟩ := offset_succ hq (by decide)
    have hble := byteOffset_le l (n + 1)
    rw [if_pos ((hquote n).mpr hq), if_pos hq, ← hnext']
    have hfuel' : l.length < (wide l).length + 1 + (n + 1) := by
      rw [wide, List.length_map]
      omega
    exact related_mono (objectLoop_related hscan hq (by omega) hfuel' _) fun _ _ h => h.mono (by omega)
  · rw [if_neg (mt (hquote n).mp hq), if_neg hq]
    by_cases hc : peek (wide l) n = some 0x7d
    · rw [if_pos (hclose.mpr hc), if_pos hc]
      exact finish_related _ hc (by decide) (by omega)
    · rw [if_neg (mt hclose.mp hc), if_neg hc]
      exact decodeError_related hbounds.2 _

/-- The values of an array, by induction on the code points that are left. -/
theorem arrayLoop_related (hscan : ScansAlike l scan scan') {fuel fuel' : ℕ} (hk : k ≤ l.length)
    (hfuel : (utf8Bytes l).length < fuel + byteOffset l k) (hfuel' : l.length < fuel' + k)
    (values : List (Obj ω)) :
    Related (SameErr l) (SameEnd l k)
      (arrayLoop (utf8Bytes l) scan fuel (byteOffset l k) values)
      (arrayLoop (wide l) scan' fuel' k values) := by
  induction fuel' generalizing fuel k values with
  | zero => omega
  | succ fuel' ih =>
    have hble := byteOffset_le l k
    obtain ⟨fuel, rfl⟩ : ∃ m, fuel = m + 1 := Nat.exists_eq_add_one.mpr (by omega)
    unfold arrayLoop
    apply bind_sameEnd (expectValue_related (hscan k hk))
    intro value e hlow hhigh
    dsimp only
    obtain ⟨hdelim, hdelim'⟩ := skipDelim_bounds hhigh
    rw [skipDelim_same]
    generalize skipDelim (wide l) e = m at hdelim hdelim' ⊢
    have hclose := peek_eq_iff (l := l) (k := m) (show 0x5d < 128 by decide)
    have hcomma := peek_eq_iff (l := l) (k := m) (show 0x2c < 128 by decide)
    by_cases hb : peek (wide l) m = some 0x5d
    · obtain ⟨hnext, hlt⟩ := offset_succ hb (by decide)
      rw [if_pos (hclose.mpr hb), if_pos hb, ← hnext]
      exact related_pure ⟨rfl, rfl, by dsimp only; omega, hlt⟩
    · rw [if_neg (mt hclose.mp hb), if_neg hb]
      by_cases hc : peek (wide l) m = some 0x2c
      · obtain ⟨hnext, hlt⟩ := offset_succ hc (by decide)
        obtain ⟨hblank, hblank'⟩ := skipBlank_bounds hlt
        rw [if_pos (hcomma.mpr hc), if_pos hc, ← hnext, skipBlank_same]
        generalize skipBlank (wide l) (m + 1) = j at hblank hblank' ⊢
        have hclose' := peek_eq_iff (l := l) (k := j) (show 0x5d < 128 by decide)
        by_cases hcl : peek (wide l) j = some 0x5d
        · rw [if_pos (hclose'.mpr hcl), if_pos hcl]
          exact decodeError_related hdelim' _
        · rw [if_neg (mt hclose'.mp hcl), if_neg hcl]
          have hless := byteOffset_lt (show k < j by omega) hblank'
          exact related_mono (ih hblank' (by omega) (by omega) _) fun _ _ h => h.mono (by omega)
      · rw [if_neg (mt hcomma.mp hc), if_neg hc]
        exact decodeError_related hdelim' _

theorem parseArray_related (hscan : ScansAlike l scan scan') :
    Opens l 0x5b (parseArray (utf8Bytes l) scan) (parseArray (wide l) scan') := by
  intro k hk
  obtain ⟨hnext, hlt⟩ := offset_succ hk (by decide)
  unfold parseArray
  obtain ⟨hdelim, hdelim'⟩ := skipDelim_bounds hlt
  rw [skipDelim_same]
  generalize skipDelim (wide l) (k + 1) = n at hdelim hdelim' ⊢
  dsimp only
  have hclose := peek_eq_iff (l := l) (k := n) (show 0x5d < 128 by decide)
  by_cases hc : peek (wide l) n = some 0x5d
  · obtain ⟨hnext', hlt'⟩ := offset_succ hc (by decide)
    rw [if_pos (hclose.mpr hc), if_pos hc, ← hnext']
    exact related_pure ⟨rfl, rfl, by dsimp only; omega, hlt'⟩
  · have hble := byteOffset_le l n
    rw [if_neg (mt hclose.mp hc), if_neg hc]
    have hfuel' : l.length < (wide l).length + 1 + n := by
      rw [wide, List.length_map]
      omega
    exact related_mono (arrayLoop_related hscan hdelim' (by omega) hfuel' []) fun _ _ h => h.mono (by omega)

/-- `scan_once` over bytes and over code points, by induction on the nesting. -/
theorem scanOnce_related (cfg : ScannerCfg σ ε ω) (l : List Char) (depth : ℕ) :
    ScansAlike l (scanOnce cfg (utf8Bytes l) depth) (scanOnce cfg (wide l) depth) := by
  induction depth with
  | zero =>
    intro k hk
    have hover (a : ℕ) : Opens l a (fun _ => (throw .recursion : Scan σ ε (Obj ω × ℕ)))
        (fun _ => throw .recursion) := fun _ _ => related_throw .recursion
    exact scanValue_related (hover _) (hover _) hk
  | succ depth ih =>
    intro k hk
    exact scanValue_related (parseObject_related ih) (parseArray_related ih) hk

end Containers

section Calls

variable {cfg : ScannerCfg σ ε ω} {depth : ℕ}

theorem getElem?_charIndices (n k : ℕ) (l : List Char) :
    (charIndices n l)[k]? = if k ≤ l.length then some (n + byteOffset l k) else none := by
  induction l generalizing n k with
  | nil =>
    cases k with
    | zero => rfl
    | succ k => rfl
  | cons c l ih =>
    cases k with
    | zero => rfl
    | succ k =>
      have hoff : byteOffset (c :: l) (k + 1) =
          (String.utf8EncodeChar c).length + byteOffset l k := by
        rw [byteOffset, byteOffset, List.take_succ_cons, utf8Bytes_cons, List.length_append]
      rw [charIndices, List.getElem?_cons_succ, ih, hoff, Nat.add_assoc, List.length_cons]
      simp only [Nat.add_le_add_iff_right]

theorem byteOffset_of_ascii (h : ∀ c ∈ l, c.toNat < 128) (hk : k ≤ l.length) :
    byteOffset l k = k := by
  have hpre : (l.take k).map Char.toNat <+: l.map Char.toNat := (List.take_prefix k l).map _
  have hall : ∀ a ∈ (l.take k).map Char.toNat, a < 128 := by
    intro a ha
    obtain ⟨c, hc, rfl⟩ := List.mem_map.mp ha
    exact h c (List.mem_of_mem_take hc)
  have hoff := (byteOffset_word hall hpre).1
  rwa [List.length_map, List.length_take, Nat.min_eq_left hk] at hoff

/-- Past the end there is no value, whatever the form of the text. -/
theorem scanOnce_past {C : Type} [JsonChar C] (cps : List C) (h : cps.length ≤ k) :
    scanOnce cfg cps depth k = (throw (.noValue k) : Scan σ ε (Obj ω × ℕ)) := by
  have hpeek : peek cps k = none := by
    rw [peek, List.getElem?_eq_none h]
    rfl
  cases depth with
  | zero =>
    unfold scanOnce scanValue
    rw [hpeek]
  | succ depth =>
    unfold scanOnce scanValue
    rw [hpeek]

theorem bothEnd_same {u v : Outcome (Except ε α × σ)} (h : BothEnd Eq Eq u v) :
    ∃ r, u = .ok r ∧ v = .ok r := by
  rcases bothEnd_cases h with ⟨a, _, s, hu, hv, rfl⟩ | ⟨e, _, s, hu, hv, rfl⟩
  · exact ⟨_, hu, hv⟩
  · exact ⟨_, hu, hv⟩

theorem ascii_related (h : ∀ c ∈ l, c.toNat < 128) (k : ℕ) :
    Related Eq Eq (scanOnce cfg (utf8Bytes l) depth k) (scanOnce cfg (wide l) depth k) := by
  have hoff (i : ℕ) (hi : i ≤ l.length) : byteOffset l i = i := byteOffset_of_ascii h hi
  rcases Nat.lt_or_ge l.length k with hk | hk
  · have hbytes : (utf8Bytes l).length ≤ k := by
      rw [← byteOffset_length, hoff _ le_rfl]
      exact hk.le
    have hwide : (wide l).length ≤ k := by
      rw [wide, List.length_map]
      exact hk.le
    rw [scanOnce_past _ hbytes, scanOnce_past _ hwide]
    exact related_throw rfl
  · intro s
    have hrun := scanOnce_related cfg l depth k hk s
    rw [hoff k hk] at hrun
    rcases bothEnd_cases hrun with ⟨x, y, t, hx, hy, hval, hend, -, hle⟩ | ⟨e, f, t, hx, hy, hef⟩
    · rw [hx, hy]
      exact .value (Prod.ext hval (hend.trans (hoff _ hle)))
    · rw [hx, hy]
      apply BothEnd.error
      cases hef with
      | noValue hi => rw [hoff _ hi]
      | decode msg pos => rfl
      | recursion => rfl
      | other e => rfl

/-- The ends that a scan over bytes finds, as places of code points. -/
theorem translated_related (hk : k ≤ l.length) :
    Related Eq Eq
      (tryCatch (do
        let (obj, i) ← scanOnce cfg (utf8Bytes l) depth (byteOffset l k)
        pure (obj, position (utf8Bytes l) i)) fun
        | .noValue i => throw (.noValue (position (utf8Bytes l) i))
        | e => throw e : Scan σ ε (Obj ω × ℕ))
      (scanOnce cfg (wide l) depth k) := by
  intro s
  rcases bothEnd_cases (scanOnce_related cfg l depth k hk s) with
    ⟨x, y, t, hx, hy, hval, hend, -, hle⟩ | ⟨e, f, t, hx, hy, hef⟩
  · have hpair : (x.1, position (utf8Bytes l) x.2) = y := by
      rw [hend, position_bytes hle]
      exact Prod.ext hval rfl
    rw [comp_catch_value ((comp_bind_value hx).trans rfl), hy]
    exact .value hpair
  · rw [comp_catch_error (comp_bind_error hx), hy]
    cases hef with
    | noValue hi => exact .error (congrArg ScanErr.noValue (position_bytes hi))
    | decode msg pos => exact .error rfl
    | recursion => exact .error rfl
    | other e => exact .error rfl

theorem scannerCall_ends (cfg : ScannerCfg σ ε ω) (depth : ℕ) (text : String) (idx : ℤ) (s : σ) :
    BothEnd Eq Eq (scannerCall cfg depth text idx s) (scannerCallWide cfg depth (wide text.toList) idx s) := by
  have hbytes : utf8 text = utf8Bytes text.toList := by
    rw [← utf8_ofList, String.ofList_toList]
  unfold scannerCall scannerCallWide
  rw [hbytes]
  generalize (max idx 0).toNat = k
  generalize text.toList = l
  dsimp only
  by_cases hascii : (l.all fun c => decide (c.toNat < 128)) = true
  · have hall : ∀ c ∈ l, c.toNat < 128 := fun c hc =>
      of_decide_eq_true (List.all_eq_true.mp hascii c hc)
    rw [if_pos (.inl hascii)]
    dsimp only
    rw [if_pos hascii]
    exact ascii_related hall k s
  · have hplace : (if (l.all fun c => decide (c.toNat < 128)) = true ∨ k = 0 then some k
        else (charIndices 0 l)[k]?) = if k ≤ l.length then some (byteOffset l k) else none := by
      by_cases hk : k = 0
      · subst hk
        rw [if_pos (.inr rfl), if_pos (Nat.zero_le _), byteOffset_zero]
      · rw [if_neg (not_or.mpr ⟨hascii, hk⟩), getElem?_charIndices, Nat.zero_add]
    rw [hplace]
    by_cases hk : k ≤ l.length
    · rw [if_pos hk]
      dsimp only
      rw [if_neg hascii]
      exact translated_related hk s
    · rw [if_neg hk]
      dsimp only
      have hwide : (wide l).length ≤ k := by
        rw [wide, List.length_map]
        omega
      rw [scanOnce_past _ hwide]
      exact .error rfl

/-- The scanner called with a string stored as UTF-8 gives what the scan of its code points gives,
and always ends. -/
theorem scannerCall_agrees (cfg : ScannerCfg σ ε ω) (depth : ℕ) (text : String) (idx : ℤ) (s : σ) :
    ∃ r, scannerCall cfg depth text idx s = .ok r ∧
      scannerCallWide cfg depth (wide text.toList) idx s = .ok r :=
  bothEnd_same (scannerCall_ends cfg depth text idx s)

end Calls

end WeavePy.Json
