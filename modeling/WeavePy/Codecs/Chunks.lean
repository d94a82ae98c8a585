import WeavePy.Codecs.WideInverse

/-!
What a decoder that waits for more input reads is what the decoder of the whole input reads.
-/

namespace WeavePy.Codecs

open Transducer (Advances Local)

section Errors

/-- How many bytes `surrogatepass` looks at. -/
def need : Encoding → ℕ
  | .utf7 | .unicodeEscape | .rawUnicodeEscape => 0
  | .utf8 => 3
  | .utf16 | .utf16le | .utf16be => 2
  | .utf32 | .utf32le | .utf32be => 4

theorem decodeEncodedSurrogate_append {encoding : Encoding} {s : List UInt8}
    (h : need encoding ≤ s.length) (t : List UInt8) :
    decodeEncodedSurrogate encoding (s ++ t) = decodeEncodedSurrogate encoding s := by
  cases encoding with
  | utf7 | unicodeEscape | rawUnicodeEscape => rfl
  | utf8 =>
    rcases s with - | ⟨a, - | ⟨b, - | ⟨c, s⟩⟩⟩
    · exact absurd h (by simp [need])
    · exact absurd h (by simp [need])
    · exact absurd h (by simp [need])
    · rfl
  | utf16 | utf16le | utf16be =>
    rcases s with - | ⟨a, - | ⟨b, s⟩⟩
    · exact absurd h (by simp [need])
    · exact absurd h (by simp [need])
    · rfl
  | utf32 | utf32le | utf32be =>
    rcases s with - | ⟨a, - | ⟨b, - | ⟨c, - | ⟨d, s⟩⟩⟩⟩
    · exact absurd h (by simp [need])
    · exact absurd h (by simp [need])
    · exact absurd h (by simp [need])
    · exact absurd h (by simp [need])
    · rfl

theorem decodeEncodedSurrogate_len {encoding : Encoding} {s : List UInt8} {cp len : ℕ}
    (h : decodeEncodedSurrogate encoding s = some (cp, len)) : len = need encoding := by
  have hof {u n : ℕ} (h : surrogateOf u n = some (cp, len)) : len = n := by
    rw [surrogateOf] at h
    split_ifs at h
    exact (Prod.mk.inj (Option.some.inj h)).2.symm
  cases encoding with
  | utf7 | unicodeEscape | rawUnicodeEscape => cases h
  | utf8 =>
    rcases s with - | ⟨a, - | ⟨b, - | ⟨c, s⟩⟩⟩
    · cases h
    · cases h
    · cases h
    · simp only [decodeEncodedSurrogate, standardKey] at h
      split_ifs at h
      exact (Prod.mk.inj (Option.some.inj h)).2.symm
  | utf16 | utf16le | utf16be =>
    rcases s with - | ⟨a, - | ⟨b, s⟩⟩
    · cases h
    · cases h
    · exact hof h
  | utf32 | utf32le | utf32be =>
    rcases s with - | ⟨a, - | ⟨b, - | ⟨c, - | ⟨d, s⟩⟩⟩⟩
    · cases h
    · cases h
    · cases h
    · cases h
    · exact hof h

/-- The handlers see the bytes of the error, and `surrogatepass` those of the surrogate. -/
theorem onError_congr {ctx : DecCtx} {i j span : ℕ} {s t : List UInt8} {r r' : String}
    (htake : s.take span = t.take span)
    (hdec : ctx.errors = .surrogatePass →
      decodeEncodedSurrogate ctx.encoding s = decodeEncodedSurrogate ctx.encoding t) :
    (ctx.onError i s span r).toOption = (ctx.onError j t span r').toOption := by
  rw [DecCtx.onError, DecCtx.onError]
  cases he : ctx.errors
  case surrogatePass =>
    dsimp only
    rw [hdec he]
    cases decodeEncodedSurrogate ctx.encoding t <;> rfl
  case surrogateEscape =>
    dsimp only
    rw [htake]
    split_ifs <;> rfl
  case backslashReplace =>
    dsimp only
    rw [htake]
  all_goals rfl

theorem handled_congr {ctx : DecCtx} {i j span : ℕ} {s t : List UInt8} {r r' : String}
    (htake : s.take span = t.take span)
    (hdec : ctx.errors = .surrogatePass →
      decodeEncodedSurrogate ctx.encoding s = decodeEncodedSurrogate ctx.encoding t) :
    (ctx.handled i s span r).toOption = (ctx.handled j t span r').toOption := by
  rw [DecCtx.handled, DecCtx.handled, Transducer.toOption_map, Transducer.toOption_map,
    onError_congr htake hdec]

/-- A handler goes on behind the error, or behind the surrogate that `surrogatepass` has found. -/
theorem onError_ok {ctx : DecCtx} {i span n : ℕ} {s : List UInt8} {reason : String} {out : List ℕ}
    (h : ctx.onError i s span reason = .ok (out, n)) :
    n = span ∧ ctx.errors ≠ .surrogatePass ∨
      ctx.errors = .surrogatePass ∧ n = need ctx.encoding ∧
        ∃ cp, decodeEncodedSurrogate ctx.encoding s = some (cp, n) := by
  rw [DecCtx.onError] at h
  cases he : ctx.errors <;> rw [he] at h
  case strict | xmlCharRefReplace | nameReplace => cases h
  case ignore | replace | backslashReplace =>
    obtain ⟨-, rfl⟩ := Prod.mk.inj (Except.ok.inj h)
    exact .inl ⟨rfl, by decide⟩
  case surrogateEscape =>
    dsimp only at h
    split_ifs at h
    obtain ⟨-, rfl⟩ := Prod.mk.inj (Except.ok.inj h)
    exact .inl ⟨rfl, by decide⟩
  case surrogatePass =>
    dsimp only at h
    cases hd : decodeEncodedSurrogate ctx.encoding s with
    | none => rw [hd] at h; cases h
    | some r =>
      rw [hd] at h
      obtain ⟨-, rfl⟩ := Prod.mk.inj (Except.ok.inj h)
      exact .inr ⟨rfl, decodeEncodedSurrogate_len hd, r.1, rfl⟩

theorem handled_ok {ctx : DecCtx} {i span n : ℕ} {s : List UInt8} {reason : String} {out : List ℕ}
    (h : ctx.handled i s span reason = .ok (.read out n)) :
    ctx.onError i s span reason = .ok (out, n) := by
  rw [DecCtx.handled] at h
  cases hr : ctx.onError i s span reason with
  | error e => rw [hr] at h; cases h
  | ok r =>
    rw [hr] at h
    obtain ⟨rfl, rfl⟩ := Transducer.Step.read.inj (Except.ok.inj h)
    rfl

end Errors

section Steps

variable {ctx : DecCtx} {scan : List UInt8 → Scan} {i j n m : ℕ} {s t : List UInt8} {out : List ℕ}

/-- A turn that does not wait goes the same way on a longer input. -/
theorem step_append (hw : Within scan) (hs : s ≠ []) (hhold : ctx.step scan false i s ≠ .ok .hold)
    (happ : (∀ a r, scan s ≠ .incomplete a r) → scan (s ++ t) = scan s)
    (hdec : ∀ span r, scan s = .err span r →
      decodeEncodedSurrogate ctx.encoding (s ++ t) = decodeEncodedSurrogate ctx.encoding s) :
    (ctx.step scan false i s).toOption = (ctx.step scan true j (s ++ t)).toOption := by
  have hwithin := hw s hs
  cases hc : scan s with
  | ok cp len =>
    rw [DecCtx.step, DecCtx.step, happ (by simp [hc]), hc]
  | err span reason =>
    rw [hc] at hwithin
    rw [DecCtx.step, DecCtx.step, happ (by simp [hc]), hc]
    exact handled_congr (List.take_append_of_le_length hwithin.2).symm fun _ => (hdec _ _ hc).symm
  | incomplete avail reason =>
    rw [DecCtx.step, hc] at hhold
    exact absurd rfl hhold

/-- A turn that has read `n` bytes reads them where the input ends behind them. -/
theorem step_take (h : ctx.step scan false i s = .ok (.read out n)) (hnm : n ≤ m)
    (hok : ∀ cp len, scan s = .ok cp len → len ≤ m → scan (s.take m) = .ok cp len)
    (herr : ∀ span r, scan s = .err span r → span ≤ need ctx.encoding ∧
      (span ≤ m → ∃ r', scan (s.take m) = .err span r' ∨ scan (s.take m) = .incomplete span r'))
    (hm : m ≤ s.length) : ctx.step scan true i (s.take m) = .ok (.read out n) := by
  rw [DecCtx.step] at h
  cases hc : scan s with
  | ok cp len =>
    rw [hc] at h
    obtain ⟨rfl, rfl⟩ := Transducer.Step.read.inj (Except.ok.inj h)
    rw [DecCtx.step, hok cp len hc hnm]
  | err span reason =>
    rw [hc] at h
    dsimp only at h
    obtain ⟨hneed, hshort⟩ := herr span reason hc
    have hon := onError_ok (handled_ok h)
    have hspan : span ≤ m := by
      rcases hon with ⟨rfl, -⟩ | ⟨-, rfl, -⟩
      · exact hnm
      · omega
    have hsame (r' : String) : ctx.handled i (s.take m) span r' = .ok (.read out n) := by
      rw [← Transducer.toOption_eq_some, ← Transducer.toOption_eq_some.mpr h]
      refine handled_congr ?_ fun hpass => ?_
      · rw [List.take_take, Nat.min_eq_left hspan]
      · rcases hon with ⟨-, hne⟩ | ⟨-, hlen, -⟩
        · exact absurd hpass hne
        · have hlong : need ctx.encoding ≤ (s.take m).length := by
            rw [List.length_take]
            omega
          have happ := decodeEncodedSurrogate_append hlong (s.drop m)
          rw [List.take_append_drop] at happ
          exact happ.symm
    obtain ⟨r', hr' | hr'⟩ := hshort hspan
    · rw [DecCtx.step, hr']
      exact hsame r'
    · rw [DecCtx.step, hr']
      exact hsame r'
  | incomplete avail reason =>
    rw [hc] at h
    cases h

end Steps

section Utf8

variable {b : UInt8} {s t : List UInt8}

theorem scan2_append (h : ∀ a r, scan2 b s ≠ .incomplete a r) :
    scan2 b (s ++ t) = scan2 b s := by
  cases s with
  | nil => exact absurd rfl (h 1 _)
  | cons b1 s => rfl

theorem scan3_append (h : ∀ a r, scan3 b s ≠ .incomplete a r) :
    scan3 b (s ++ t) = scan3 b s := by
  rcases s with - | ⟨b1, - | ⟨b2, s⟩⟩
  · exact absurd rfl (h 1 _)
  · rw [scan3] at h
    split_ifs at h with h1
    · rw [List.cons_append, scan3.eq_def, scan3.eq_def]
      dsimp only
      rw [if_pos h1, if_pos h1]
    · exact absurd rfl (h 2 _)
  · rfl

theorem scan4_append (h : ∀ a r, scan4 b s ≠ .incomplete a r) :
    scan4 b (s ++ t) = scan4 b s := by
  rcases s with - | ⟨b1, - | ⟨b2, - | ⟨b3, s⟩⟩⟩
  · exact absurd rfl (h 1 _)
  · rw [scan4] at h
    split_ifs at h with h1
    · rw [List.cons_append, scan4.eq_def, scan4.eq_def]
      dsimp only
      rw [if_pos h1, if_pos h1]
    · exact absurd rfl (h 2 _)
  · rw [scan4] at h
    split_ifs at h with h1 h2
    · rw [List.cons_append, scan4.eq_def, scan4.eq_def]
      dsimp only
      rw [if_pos h1, if_pos h1]
    · exact absurd rfl (h 3 _)
    · rw [List.cons_append, List.cons_append, scan4.eq_def, scan4.eq_def]
      dsimp only
      rw [if_neg h1, if_neg h1, if_pos h2, if_pos h2]
  · rfl

theorem utf8Scan_append (hs : s ≠ []) (h : ∀ a r, utf8Scan s ≠ .incomplete a r) :
    utf8Scan (s ++ t) = utf8Scan s := by
  cases s with
  | nil => exact absurd rfl hs
  | cons b s =>
    rw [List.cons_append, utf8Scan, utf8Scan]
    rw [utf8Scan] at h
    split_ifs at h ⊢
    · rfl
    · rfl
    · exact scan2_append h
    · exact scan3_append h
    · exact scan4_append h
    · rfl

theorem scan2_take {span k : ℕ} {r : String} (h : scan2 b s = .err span r) (hk : span ≤ k + 1) :
    ∃ r', scan2 b (s.take k) = .err span r' ∨ scan2 b (s.take k) = .incomplete span r' := by
  cases s with
  | nil => cases h
  | cons b1 s =>
    cases k with
    | zero =>
      rw [scan2] at h
      split_ifs at h
      obtain ⟨rfl, -⟩ := Scan.err.inj h
      exact ⟨_, .inr rfl⟩
    | succ k => exact ⟨r, .inl h⟩

theorem scan3_take {span k : ℕ} {r : String} (h : scan3 b s = .err span r) (hk : span ≤ k + 1) :
    ∃ r', scan3 b (s.take k) = .err span r' ∨ scan3 b (s.take k) = .incomplete span r' := by
  obtain ⟨u, ⟨v, rfl⟩, hspan, -⟩ := scan3_err h
  rcases k with - | k
  · obtain rfl : span = 1 := by omega
    exact ⟨_, .inr rfl⟩
  cases hs : u ++ v with
  | nil =>
    rw [hs] at h
    cases h
  | cons b1 s =>
    rw [hs] at h
    rw [scan3.eq_def] at h
    dsimp only at h
    rw [List.take_succ_cons, scan3.eq_def]
    dsimp only
    split_ifs at h ⊢ with h1
    · exact ⟨r, .inl h⟩
    · rcases s with - | ⟨b2, s⟩
      · cases h
      dsimp only at h
      rcases k with - | k
      · split_ifs at h
        obtain ⟨rfl, -⟩ := Scan.err.inj h
        exact ⟨_, .inr rfl⟩
      · exact ⟨r, .inl h⟩

theorem scan4_take {span k : ℕ} {r : String} (h : scan4 b s = .err span r) (hk : span ≤ k + 1) :
    ∃ r', scan4 b (s.take k) = .err span r' ∨ scan4 b (s.take k) = .incomplete span r' := by
  obtain ⟨u, -, hspan, -⟩ := scan4_err h
  rcases k with - | k
  · obtain rfl : span = 1 := by omega
    exact ⟨_, .inr rfl⟩
  rcases s with - | ⟨b1, s⟩
  · cases h
  rw [scan4.eq_def] at h
  rw [List.take_succ_cons, scan4.eq_def]
  dsimp only at h ⊢
  by_cases h1 : badSecond 0x90 0xF0 0xF4 b b1
  · rw [if_pos h1] at h ⊢
    exact ⟨r, .inl h⟩
  rw [if_neg h1] at h ⊢
  rcases s with - | ⟨b2, s⟩
  · cases h
  dsimp only at h
  by_cases h2 : isCont b2
  · rw [if_neg (not_not.mpr h2)] at h
    rcases s with - | ⟨b3, s⟩
    · cases h
    dsimp only at h
    split_ifs at h with h3
    obtain ⟨rfl, -⟩ := Scan.err.inj h
    rcases k with - | - | k
    · omega
    · exact ⟨endOfData, .inr (by simp [h2])⟩
    · exact ⟨invalidCont, .inl (by simp [h2, h3])⟩
  · rw [if_pos h2] at h
    obtain ⟨rfl, -⟩ := Scan.err.inj h
    rcases k with - | k
    · exact ⟨endOfData, .inr rfl⟩
    · exact ⟨invalidCont, .inl (by simp [h2])⟩

theorem utf8Scan_take {span m : ℕ} {r : String} (h : utf8Scan s = .err span r) (hm : span ≤ m) :
    ∃ r', utf8Scan (s.take m) = .err span r' ∨ utf8Scan (s.take m) = .incomplete span r' := by
  have hpos := (utf8Scan_err h).pos
  rcases s with - | ⟨b, s⟩
  · cases h
  rcases m with - | k
  · omega
  rw [utf8Scan] at h
  rw [List.take_succ_cons, utf8Scan]
  split_ifs at h ⊢
  · exact ⟨r, .inl h⟩
  · exact scan2_take h hm
  · exact scan3_take h hm
  · exact scan4_take h hm
  · exact ⟨r, .inl h⟩

theorem utf8Scan_take_ok {cp len m : ℕ} (h : utf8Scan s = .ok cp len) (hm : len ≤ m) :
    utf8Scan (s.take m) = .ok cp len := by
  have hreads := utf8Scan_ok h
  have hlen : (encodeUtf8 cp).length = len := by
    rw [hreads.bytes, List.length_take, Nat.min_eq_left hreads.le]
  have hsplit : s.take m = encodeUtf8 cp ++ (s.take m).drop len := by
    rw [hreads.bytes, show s.take len = (s.take m).take len by
      rw [List.take_take, Nat.min_eq_left hm], List.take_append_drop]
  rw [hsplit, utf8Scan_encodeUtf8 hreads.scalar, hlen]

/-- The truncated surrogate apart, `surrogatepass` sees all it looks at. -/
theorem utf8Scan_need {span : ℕ} {r : String} (h : utf8Scan s = .err span r)
    (hheld : heldSurrogate s = false) :
    decodeEncodedSurrogate .utf8 (s ++ t) = decodeEncodedSurrogate .utf8 s := by
  have hno {b0 : UInt8} {rest : List UInt8} (hb : ∀ b1 b2 v, rest = b1 :: b2 :: v →
      ¬ (b0.toNat = 0xED ∧ (0xA0 ≤ b1.toNat ∧ b1.toNat ≤ 0xBF))) :
      decodeEncodedSurrogate .utf8 (b0 :: rest) = none := by
    rcases rest with - | ⟨b1, - | ⟨b2, v⟩⟩
    · rfl
    · rfl
    · exact if_neg fun h => hb b1 b2 v rfl ⟨h.1, h.2.1⟩
  rcases s with - | ⟨b0, - | ⟨b1, - | ⟨b2, v⟩⟩⟩
  · cases h
  · rw [utf8Scan] at h
    have hne : b0.toNat ≠ 0xED := by
      intro hb
      rw [hb] at h
      cases h
    exact (hno fun _ _ _ _ h => hne h.1).trans (hno fun _ _ _ _ h => hne h.1).symm
  · have hne : ¬ (b0.toNat = 0xED ∧ 0xA0 ≤ b1.toNat ∧ b1.toNat ≤ 0xBF) :=
      of_decide_eq_false hheld
    refine (hno fun c1 c2 w hw => ?_).trans (hno fun _ _ _ hw => ?_).symm
    · obtain ⟨rfl, -⟩ := List.cons.inj hw
      exact hne
    · cases hw
  · exact decodeEncodedSurrogate_append (by simp [need]) t

theorem utf8Step_local (errors : Handler) :
    Local (utf8Step ⟨.utf8, errors⟩ false) (utf8Step ⟨.utf8, errors⟩ true) := by
  intro i j s t hs hhold
  have hheld : heldSurrogate s = false := by
    rw [← Bool.not_eq_true]
    exact fun h => hhold (if_pos ⟨rfl, h⟩)
  rw [utf8Step_eq (.inl hheld)] at hhold ⊢
  rw [utf8Step_eq (.inr rfl)]
  exact step_append utf8Scan_within hs hhold (utf8Scan_append hs)
    fun span r h => utf8Scan_need h hheld

theorem utf8Step_take (errors : Handler) {i n m : ℕ} {out : List ℕ}
    (h : utf8Step ⟨.utf8, errors⟩ false i s = .ok (.read out n)) (hnm : n ≤ m)
    (hm : m ≤ s.length) :
    utf8Step ⟨.utf8, errors⟩ true i (s.take m) = .ok (.read out n) := by
  rw [utf8Step_eq (.inr rfl)]
  rw [utf8Step] at h
  split_ifs at h
  · cases h
  · exact step_take h hnm (fun cp len hc hl => utf8Scan_take_ok hc hl)
      (fun span r hc => ⟨(utf8Scan_err hc).small, utf8Scan_take hc⟩) hm

end Utf8

section Wide

variable {big : Bool} {s t : List UInt8}

theorem scanPair_append {u : ℕ} (h : ∀ a r, scanPair big u s ≠ .incomplete a r) :
    scanPair big u (s ++ t) = scanPair big u s := by
  rcases s with - | ⟨c, - | ⟨d, s⟩⟩
  · exact absurd rfl (h 2 _)
  · exact absurd rfl (h 3 _)
  · rfl

theorem utf16Scan_append (hs : s ≠ []) (h : ∀ a r, utf16Scan big s ≠ .incomplete a r) :
    utf16Scan big (s ++ t) = utf16Scan big s := by
  rcases s with - | ⟨a, - | ⟨b, s⟩⟩
  · exact absurd rfl hs
  · exact absurd rfl (h 1 _)
  rw [utf16Scan] at h
  rw [List.cons_append, List.cons_append, utf16Scan, utf16Scan]
  split_ifs at h ⊢
  · rfl
  · exact scanPair_append h
  · rfl

theorem scanPair_ok {u cp len : ℕ} (h : scanPair big u s = .ok cp len) :
    len = 4 ∧ ∀ m, 2 ≤ m → scanPair big u (s.take m) = .ok cp len := by
  rcases s with - | ⟨c, - | ⟨d, s⟩⟩
  · cases h
  · cases h
  refine ⟨?_, fun m hm => ?_⟩
  · rw [scanPair] at h
    split_ifs at h
    exact (Scan.ok.inj h).2.symm
  · obtain ⟨k, rfl⟩ := Nat.exists_eq_add_of_le' hm
    exact h

theorem scanPair_err {u span : ℕ} {r : String} (h : scanPair big u s = .err span r) :
    span = 2 ∧ ∀ k, ∃ r', scanPair big u (s.take (2 * k)) = .err span r' ∨
      scanPair big u (s.take (2 * k)) = .incomplete span r' := by
  rcases s with - | ⟨c, - | ⟨d, s⟩⟩
  · cases h
  · cases h
  have hspan : span = 2 := by
    rw [scanPair] at h
    split_ifs at h
    exact (Scan.err.inj h).1.symm
  refine ⟨hspan, fun k => ?_⟩
  cases k with
  | zero => exact ⟨_, .inr (by rw [hspan]; rfl)⟩
  | succ k => exact ⟨r, .inl h⟩

theorem utf16Scan_take_ok {cp len k : ℕ} (h : utf16Scan big s = .ok cp len) (hk : len ≤ 2 * k) :
    utf16Scan big (s.take (2 * k)) = .ok cp len := by
  rcases s with - | ⟨a, - | ⟨b, s⟩⟩
  · cases h
  · cases h
  rw [utf16Scan] at h
  cases k with
  | zero =>
    split_ifs at h
    · have := (scanPair_ok h).1
      omega
    · obtain ⟨-, rfl⟩ := Scan.ok.inj h
      omega
  | succ k =>
    rw [show 2 * (k + 1) = 2 * k + 1 + 1 by omega, List.take_succ_cons, List.take_succ_cons,
      utf16Scan]
    split_ifs at h ⊢
    · obtain ⟨rfl, hpair⟩ := scanPair_ok h
      exact hpair _ (by omega)
    · exact h

theorem utf16Scan_take_err {span k : ℕ} {r : String} (h : utf16Scan big s = .err span r) :
    span = 2 ∧ (span ≤ 2 * k → ∃ r', utf16Scan big (s.take (2 * k)) = .err span r' ∨
      utf16Scan big (s.take (2 * k)) = .incomplete span r') := by
  rcases s with - | ⟨a, - | ⟨b, s⟩⟩
  · cases h
  · cases h
  rw [utf16Scan] at h
  have hspan : span = 2 := by
    split_ifs at h
    · exact (Scan.err.inj h).1.symm
    · exact (scanPair_err h).1
  refine ⟨hspan, fun hk => ?_⟩
  cases k with
  | zero => omega
  | succ k =>
    rw [show 2 * (k + 1) = 2 * k + 1 + 1 by omega, List.take_succ_cons, List.take_succ_cons,
      utf16Scan]
    split_ifs at h ⊢
    · exact ⟨r, .inl h⟩
    · exact (scanPair_err h).2 k

theorem utf32Scan_append (h : ∀ a r, utf32Scan big s ≠ .incomplete a r) :
    utf32Scan big (s ++ t) = utf32Scan big s := by
  rcases s with - | ⟨a, - | ⟨b, - | ⟨c, - | ⟨d, s⟩⟩⟩⟩
  · exact absurd rfl (h 0 _)
  · exact absurd rfl (h 1 _)
  · exact absurd rfl (h 2 _)
  · exact absurd rfl (h 3 _)
  · rfl

theorem utf32Scan_len (big : Bool) (s : List UInt8) :
    match utf32Scan big s with
    | .ok _ len => len = 4
    | .err span _ => span = 4
    | .incomplete _ _ => s.length < 4 := by
  rcases s with - | ⟨a, - | ⟨b, - | ⟨c, - | ⟨d, s⟩⟩⟩⟩
  · simp [utf32Scan]
  · simp [utf32Scan]
  · simp [utf32Scan]
  · simp [utf32Scan]
  · rw [utf32Scan]
    split_ifs <;> rfl

theorem utf32Scan_take {m : ℕ} (hm : 4 ≤ m) :
    utf32Scan big (s.take m) = utf32Scan big s := by
  obtain ⟨k, rfl⟩ := Nat.exists_eq_add_of_le' hm
  rcases s with - | ⟨a, - | ⟨b, - | ⟨c, - | ⟨d, s⟩⟩⟩⟩ <;> rfl

end Wide

end WeavePy.Codecs
