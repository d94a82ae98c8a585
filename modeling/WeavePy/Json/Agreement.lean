import WeavePy.Json.Scanner

/-!
Scanning the bytes of a document agrees with scanning its code points.
-/

namespace WeavePy.Json

open JsonChar

/-- The code points of a text. -/
def wide (l : List Char) : List UInt32 := l.map Char.val

section Units

variable {l m : List Char} {k a : ℕ} {p : ℕ → Bool}

theorem peek_wide (l : List Char) (k : ℕ) : peek (wide l) k = l[k]?.map Char.toNat := by
  rw [peek, wide, List.getElem?_map, Option.map_map]
  rfl

theorem peek_same (l : List Char) (k : ℕ) :
    SameUnit (peek (utf8Bytes l) (byteOffset l k)) (peek (wide l) k) := by
  rw [peek_wide]
  exact sameUnit_at l k

theorem peek_eq_iff (ha : a < 128) :
    peek (utf8Bytes l) (byteOffset l k) = some a ↔ peek (wide l) k = some a := by
  have h := peek_same l k
  generalize peek (utf8Bytes l) (byteOffset l k) = x at h
  generalize peek (wide l) k = y at h
  cases h with
  | none => exact Iff.rfl
  | ascii h => exact Iff.rfl
  | wide h h' =>
    simp only [Option.some.injEq]
    omega

theorem peek_any (hp : ∀ b, 128 ≤ b → p b = false) :
    (peek (utf8Bytes l) (byteOffset l k)).any p = (peek (wide l) k).any p := by
  have h := peek_same l k
  generalize peek (utf8Bytes l) (byteOffset l k) = x at h
  generalize peek (wide l) k = y at h
  cases h with
  | none => rfl
  | ascii h => rfl
  | wide h h' => exact (hp _ h).trans (hp _ h').symm

/-- After an ASCII unit both forms go on at the next one. -/
theorem offset_succ (h : peek (wide l) k = some a) (ha : a < 128) :
    byteOffset l (k + 1) = byteOffset l k + 1 ∧ k < l.length := by
  rw [peek_wide] at h
  obtain ⟨c, hc, rfl⟩ := Option.map_eq_some_iff.mp h
  exact ⟨byteOffset_ascii hc ha, (List.getElem?_eq_some_iff.mp hc).1⟩

theorem lt_of_peek (h : peek (wide l) k = some a) : k < l.length := by
  rw [peek_wide] at h
  obtain ⟨c, hc, -⟩ := Option.map_eq_some_iff.mp h
  exact (List.getElem?_eq_some_iff.mp hc).1

theorem lt_of_peek_any (h : (peek (wide l) k).any p = true) :
    ∃ a, peek (wide l) k = some a ∧ p a = true := by
  cases hpeek : peek (wide l) k with
  | none =>
    rw [hpeek] at h
    nomatch h
  | some a =>
    rw [hpeek] at h
    exact ⟨a, rfl, h⟩

theorem skipWhile_wide (l : List Char) (p : ℕ → Bool) (k : ℕ) :
    skipWhile (wide l) p k = k + ((l.drop k).takeWhile fun c => p c.toNat).length := by
  rw [skipWhile, wide, ← List.map_drop, List.takeWhile_map, List.length_map]
  rfl

theorem skipWhile_same (hp : ∀ a b, 128 ≤ a → 128 ≤ b → p a = p b) (l : List Char) (k : ℕ) :
    skipWhile (utf8Bytes l) p (byteOffset l k) = byteOffset l (skipWhile (wide l) p k) := by
  rw [skipWhile_wide]
  exact byteOffset_takeWhile hp l k

theorem le_skipWhile (l : List Char) (p : ℕ → Bool) (k : ℕ) : k ≤ skipWhile (wide l) p k :=
  Nat.le_add_right _ _

theorem skipWhile_le (p : ℕ → Bool) (hk : k ≤ l.length) : skipWhile (wide l) p k ≤ l.length := by
  rw [skipWhile_wide]
  have h := (List.takeWhile_prefix (l := l.drop k) fun c : Char => p c.toNat).length_le
  rw [List.length_drop] at h
  omega

theorem isWs_wide {b : ℕ} (h : 128 ≤ b) : isWs b = false := by
  rw [isWs, List.contains_eq_mem, decide_eq_false_iff_not]
  intro hmem
  simp only [List.mem_cons, List.not_mem_nil, or_false] at hmem
  omega

theorem isDigit_wide {b : ℕ} (h : 128 ≤ b) : isDigit b = false := by
  rw [isDigit, Bool.and_eq_false_iff, decide_eq_false_iff_not, decide_eq_false_iff_not]
  omega

theorem isPlain_wide {b : ℕ} (h : 128 ≤ b) : isPlain b = true := by
  rw [isPlain, decide_eq_true_eq]
  omega

theorem const_of_false (hp : ∀ b, 128 ≤ b → p b = false) (a b : ℕ) (ha : 128 ≤ a) (hb : 128 ≤ b) :
    p a = p b := (hp a ha).trans (hp b hb).symm

theorem skipWs_same (l : List Char) (k : ℕ) :
    skipWs (utf8Bytes l) (byteOffset l k) = byteOffset l (skipWs (wide l) k) :=
  skipWhile_same (const_of_false fun _ => isWs_wide) l k

theorem isWs_ascii {b : ℕ} (h : isWs b = true) : b < 128 := by
  by_contra hb
  rw [isWs_wide (not_lt.mp hb)] at h
  nomatch h

theorem isDigit_ascii {b : ℕ} (h : isDigit b = true) : b < 128 := by
  by_contra hb
  rw [isDigit_wide (not_lt.mp hb)] at h
  nomatch h

/-- A unit that satisfies an ASCII predicate is followed alike in both forms. -/
theorem offset_succ_any (hp : ∀ b, p b = true → b < 128) (h : (peek (wide l) k).any p = true) :
    byteOffset l (k + 1) = byteOffset l k + 1 ∧ k < l.length := by
  obtain ⟨a, ha, hpa⟩ := lt_of_peek_any h
  exact offset_succ ha (hp a hpa)

theorem skipDelim_same (l : List Char) (k : ℕ) :
    skipDelim (utf8Bytes l) (byteOffset l k) = byteOffset l (skipDelim (wide l) k) := by
  unfold skipDelim
  rw [peek_any fun _ => isWs_wide]
  split
  next h => rw [← (offset_succ_any (fun _ => isWs_ascii) h).1, skipWs_same]
  · rfl

theorem skipDelim_bounds (hk : k ≤ l.length) :
    k ≤ skipDelim (wide l) k ∧ skipDelim (wide l) k ≤ l.length := by
  unfold skipDelim
  split
  next h =>
    have hlt := (offset_succ_any (fun _ => isWs_ascii) h).2
    exact ⟨(Nat.le_succ k).trans (le_skipWhile l isWs (k + 1)), skipWhile_le isWs hlt⟩
  · exact ⟨le_rfl, hk⟩

theorem skipBlank_same (l : List Char) (k : ℕ) :
    skipBlank (utf8Bytes l) (byteOffset l k) = byteOffset l (skipBlank (wide l) k) := by
  unfold skipBlank
  rw [peek_any fun _ => isWs_wide]
  split
  next h =>
    rw [← (offset_succ_any (fun _ => isWs_ascii) h).1, peek_any fun _ => isWs_wide]
    split
    next h' =>
      have hnext : byteOffset l k + 2 = byteOffset l (k + 2) := by
        rw [(offset_succ_any (fun _ => isWs_ascii) h').1,
          (offset_succ_any (fun _ => isWs_ascii) h).1]
      rw [hnext, skipWs_same]
    · rfl
  · rfl

theorem skipBlank_bounds (hk : k ≤ l.length) :
    k ≤ skipBlank (wide l) k ∧ skipBlank (wide l) k ≤ l.length := by
  unfold skipBlank
  split
  next h =>
    have hlt := (offset_succ_any (fun _ => isWs_ascii) h).2
    split
    next h' =>
      have hlt' := (offset_succ_any (fun _ => isWs_ascii) h').2
      have hle := le_skipWhile l isWs (k + 2)
      exact ⟨by unfold skipWs; omega, skipWhile_le isWs hlt'⟩
    · exact ⟨Nat.le_succ k, hlt⟩
  · exact ⟨le_rfl, hk⟩

/-- A keyword is matched where it begins the rest of the text. -/
theorem matchesKw_iff {C : Type} [JsonChar C] (cps : List C) (idx : ℕ) {kw : List ℕ}
    (hkw : kw ≠ []) : matchesKw cps idx kw = true ↔ kw <+: (cps.drop idx).map code := by
  have hget (i : ℕ) : ((cps.drop idx).map code)[i]? = peek cps (idx + i) := by
    rw [List.getElem?_map, List.getElem?_drop]
    rfl
  have hall : (kw.zipIdx.all fun p => peek cps (idx + p.2) == some p.1) = true ↔
      ∀ i, (hi : i < kw.length) → ((cps.drop idx).map code)[i]? = some kw[i] := by
    rw [List.all_eq_true]
    constructor
    · intro h i hi
      have hmem : (kw[i], i) ∈ kw.zipIdx := by
        rw [List.mem_zipIdx_iff_getElem?, List.getElem?_eq_getElem hi]
      rw [hget]
      exact beq_iff_eq.mp (h _ hmem)
    · rintro h ⟨a, i⟩ hmem
      rw [List.mem_zipIdx_iff_getElem?] at hmem
      obtain ⟨hi, ha⟩ := List.getElem?_eq_some_iff.mp hmem
      rw [beq_iff_eq, ← hget, h i hi, ha]
  unfold matchesKw
  rw [List.prefix_iff_getElem?]
  split
  next hshort =>
    refine iff_of_false nofun fun h => ?_
    have hpos := List.length_pos_of_ne_nil hkw
    have hlast := h (kw.length - 1) (by omega)
    have hn := (List.getElem?_eq_some_iff.mp hlast).1
    rw [List.length_map, List.length_drop] at hn
    omega
  · exact hall

theorem matchesKw_same {kw : List ℕ} (hne : kw ≠ []) (hkw : ∀ a ∈ kw, a < 128) (l : List Char)
    (k : ℕ) : matchesKw (utf8Bytes l) (byteOffset l k) kw = matchesKw (wide l) k kw := by
  rw [Bool.eq_iff_iff, matchesKw_iff _ _ hne, matchesKw_iff _ _ hne, drop_byteOffset, wide, ← List.map_drop,
    List.map_map]
  exact prefix_utf8Bytes hkw (l.drop k)

/-- Past an ASCII prefix the offsets grow alike. -/
theorem byteOffset_word {w : List ℕ} (hw : ∀ a ∈ w, a < 128) {l : List Char}
    (h : w <+: l.map Char.toNat) : byteOffset l w.length = w.length ∧ w.length ≤ l.length := by
  have hlen := h.length_le
  rw [List.length_map] at hlen
  refine ⟨?_, hlen⟩
  have hlt (n : ℕ) (hn : n ≤ w.length) : byteOffset l n = n := by
    induction n with
    | zero => exact byteOffset_zero l
    | succ n ih =>
      have hget := (List.prefix_iff_getElem?.mp h) n (by omega)
      rw [List.getElem?_map] at hget
      obtain ⟨c, hc, hcode⟩ := Option.map_eq_some_iff.mp hget
      have hascii : c.toNat < 128 := by
        rw [hcode]
        exact hw _ (List.getElem_mem _)
      rw [byteOffset_ascii hc hascii, ih (by omega)]
  exact hlt _ le_rfl

theorem matchesKw_offset {kw : List ℕ} (hne : kw ≠ []) (hkw : ∀ a ∈ kw, a < 128)
    (h : matchesKw (wide l) k kw = true) (hk : k ≤ l.length) :
    byteOffset l (k + kw.length) = byteOffset l k + kw.length ∧ k + kw.length ≤ l.length := by
  rw [matchesKw_iff _ _ hne, wide, ← List.map_drop, List.map_map] at h
  obtain ⟨hoff, hlen⟩ := byteOffset_word hkw h
  rw [List.length_drop] at hlen
  rw [byteOffset_add, hoff]
  exact ⟨rfl, by omega⟩

end Units

section Numbers

variable {l : List Char} {k i j : ℕ} {isFloat : Bool}

theorem digits_same (l : List Char) (k : ℕ) :
    skipWhile (utf8Bytes l) isDigit (byteOffset l k) =
      byteOffset l (skipWhile (wide l) isDigit k) :=
  skipWhile_same (const_of_false fun _ => isDigit_wide) l k

/-- The offset after one of the ASCII units `a`, and elsewhere where it was. -/
theorem offset_step {q : Prop} [Decidable q] {q' : Prop} [Decidable q'] (h : q ↔ q')
    (hstep : q' → byteOffset l (k + 1) = byteOffset l k + 1) :
    (if q then byteOffset l k + 1 else byteOffset l k) =
      byteOffset l (if q' then k + 1 else k) := by
  by_cases hq : q'
  · rw [if_pos (h.mpr hq), if_pos hq, hstep hq]
  · rw [if_neg (mt h.mp hq), if_neg hq]

theorem matchInteger_same (l : List Char) (k : ℕ) :
    matchInteger (utf8Bytes l) (byteOffset l k) =
      (matchInteger (wide l) k).map (byteOffset l) := by
  unfold matchInteger
  rw [offset_step (peek_eq_iff (by decide)) fun h => (offset_succ h (by decide)).1]
  generalize (if peek (wide l) k = some 0x2d then k + 1 else k) = i
  have hsame := peek_same l i
  have hnext (a : ℕ) : peek (wide l) i = some a → a < 128 →
      byteOffset l (i + 1) = byteOffset l i + 1 := fun h ha => (offset_succ h ha).1
  dsimp only
  generalize peek (utf8Bytes l) (byteOffset l i) = x at hsame ⊢
  generalize peek (wide l) i = y at hsame hnext ⊢
  cases hsame with
  | none => rfl
  | @ascii a ha =>
    dsimp only
    rw [← hnext a rfl ha, digits_same]
    split_ifs <;> rfl
  | @wide a b ha hb =>
    have hza : a ≠ 0x30 := by omega
    have hzb : b ≠ 0x30 := by omega
    have hda : ¬ (0x31 ≤ a ∧ a ≤ 0x39) := by omega
    have hdb : ¬ (0x31 ≤ b ∧ b ≤ 0x39) := by omega
    dsimp only
    rw [if_neg hza, if_neg hda, if_neg hzb, if_neg hdb]
    rfl

theorem matchInteger_bounds (h : matchInteger (wide l) k = some i) : k < i ∧ i ≤ l.length := by
  unfold matchInteger at h
  have hle : k ≤ if peek (wide l) k = some 0x2d then k + 1 else k := by
    split_ifs
    · exact Nat.le_succ k
    · exact le_rfl
  generalize (if peek (wide l) k = some 0x2d then k + 1 else k) = n at h hle
  dsimp only at h
  cases hpeek : peek (wide l) n with
  | none =>
    rw [hpeek] at h
    nomatch h
  | some c =>
    have hlt := lt_of_peek hpeek
    have hdigits := le_skipWhile l isDigit (n + 1)
    have hdigits' := skipWhile_le (k := n + 1) isDigit hlt
    rw [hpeek] at h
    dsimp only at h
    split_ifs at h
    · have := Option.some.inj h
      omega
    · have := Option.some.inj h
      omega

theorem matchFraction_same (l : List Char) (k : ℕ) :
    matchFraction (utf8Bytes l) (byteOffset l k) =
      Prod.map (byteOffset l) id (matchFraction (wide l) k) := by
  unfold matchFraction
  by_cases hpoint : peek (wide l) k = some 0x2e
  · have hnext := (offset_succ hpoint (by decide)).1
    rw [(peek_eq_iff (by decide)).mpr hpoint, hpoint, ← hnext, peek_any fun _ => isDigit_wide]
    by_cases hdigit : (peek (wide l) (k + 1)).any isDigit = true
    · have hnext' := (offset_succ_any (fun _ => isDigit_ascii) hdigit).1
      have hstep : byteOffset l k + 2 = byteOffset l (k + 2) := by rw [hnext', hnext]
      rw [if_pos ⟨rfl, hdigit⟩, if_pos ⟨rfl, hdigit⟩, hstep, digits_same]
      rfl
    · rw [if_neg fun h => hdigit h.2, if_neg fun h => hdigit h.2]
      rfl
  · rw [if_neg fun h => hpoint ((peek_eq_iff (by decide)).mp h.1), if_neg fun h => hpoint h.1]
    rfl

theorem matchFraction_bounds (hk : k ≤ l.length) :
    k ≤ (matchFraction (wide l) k).1 ∧ (matchFraction (wide l) k).1 ≤ l.length := by
  unfold matchFraction
  split
  next h =>
    have hlt := (offset_succ_any (fun _ => isDigit_ascii) h.2).2
    have hdigits := le_skipWhile l isDigit (k + 2)
    exact ⟨by dsimp only; omega, skipWhile_le isDigit hlt⟩
  · exact ⟨le_rfl, hk⟩

theorem matchExponent_same (l : List Char) (k : ℕ) (isFloat : Bool) :
    matchExponent (utf8Bytes l) (byteOffset l k) isFloat =
      Prod.map (byteOffset l) id (matchExponent (wide l) k isFloat) := by
  unfold matchExponent
  have hexp : (peek (utf8Bytes l) (byteOffset l k) = some 0x65 ∨
      peek (utf8Bytes l) (byteOffset l k) = some 0x45) ↔
      (peek (wide l) k = some 0x65 ∨ peek (wide l) k = some 0x45) :=
    or_congr (peek_eq_iff (by decide)) (peek_eq_iff (by decide))
  by_cases he : peek (wide l) k = some 0x65 ∨ peek (wide l) k = some 0x45
  · have hnext : byteOffset l (k + 1) = byteOffset l k + 1 := by
      rcases he with he | he
      · exact (offset_succ he (by decide)).1
      · exact (offset_succ he (by decide)).1
    have hsign : (peek (utf8Bytes l) (byteOffset l (k + 1)) = some 0x2b ∨
        peek (utf8Bytes l) (byteOffset l (k + 1)) = some 0x2d) ↔
        (peek (wide l) (k + 1) = some 0x2b ∨ peek (wide l) (k + 1) = some 0x2d) :=
      or_congr (peek_eq_iff (by decide)) (peek_eq_iff (by decide))
    have hj := offset_step (k := k + 1) hsign fun h => by
      rcases h with h | h
      · exact (offset_succ h (by decide)).1
      · exact (offset_succ h (by decide)).1
    rw [if_pos (hexp.mpr he), if_pos he]
    dsimp only
    have htwo : byteOffset l k + 2 = byteOffset l (k + 1) + 1 := by rw [hnext]
    rw [htwo, ← hnext, hj]
    generalize (if peek (wide l) (k + 1) = some 0x2b ∨ peek (wide l) (k + 1) = some 0x2d then
      k + 1 + 1 else k + 1) = n
    rw [peek_any fun _ => isDigit_wide]
    split
    next hdigit =>
      rw [← (offset_succ_any (fun _ => isDigit_ascii) hdigit).1, digits_same]
      rfl
    · rfl
  · rw [if_neg (mt hexp.mp he), if_neg he]
    rfl

theorem matchExponent_bounds (hk : k ≤ l.length) (isFloat : Bool) :
    k ≤ (matchExponent (wide l) k isFloat).1 ∧
      (matchExponent (wide l) k isFloat).1 ≤ l.length := by
  unfold matchExponent
  split
  · have hle : k ≤ if peek (wide l) (k + 1) = some 0x2b ∨ peek (wide l) (k + 1) = some 0x2d then
        k + 2 else k + 1 := by
      split_ifs <;> omega
    generalize (if peek (wide l) (k + 1) = some 0x2b ∨ peek (wide l) (k + 1) = some 0x2d then
      k + 2 else k + 1) = n at hle
    dsimp only
    split
    next hdigit =>
      have hlt := (offset_succ_any (fun _ => isDigit_ascii) hdigit).2
      have hdigits := le_skipWhile l isDigit (n + 1)
      exact ⟨by dsimp only; omega, skipWhile_le isDigit hlt⟩
    · exact ⟨le_rfl, hk⟩
  · exact ⟨le_rfl, hk⟩

theorem matchNumber_same (l : List Char) (k : ℕ) :
    matchNumber (utf8Bytes l) (byteOffset l k) =
      (matchNumber (wide l) k).map (Prod.map (byteOffset l) id) := by
  unfold matchNumber
  rw [matchInteger_same, Option.map_map, Option.map_map]
  congr 1
  funext i
  simp only [Function.comp_apply, matchFraction_same, Prod.map_fst, Prod.map_snd, id_eq,
    matchExponent_same]

theorem matchNumber_bounds (h : matchNumber (wide l) k = some (i, isFloat)) :
    k < i ∧ i ≤ l.length := by
  unfold matchNumber at h
  obtain ⟨n, hn, hrest⟩ := Option.map_eq_some_iff.mp h
  obtain ⟨hlow, hhigh⟩ := matchInteger_bounds hn
  obtain ⟨hfrac, hfrac'⟩ := matchFraction_bounds hhigh
  obtain ⟨hexp, hexp'⟩ := matchExponent_bounds hfrac' (matchFraction (wide l) n).2
  dsimp only at hrest
  rw [hrest] at hexp hexp'
  exact ⟨by dsimp only at hexp; omega, hexp'⟩

end Numbers

section Spans

variable {l : List Char} {i j k : ℕ}

theorem span_bytes (hij : i ≤ j) :
    span (utf8Bytes l) (byteOffset l i) (byteOffset l j) = utf8Bytes ((l.drop i).take (j - i)) :=
  slice_byteOffset hij

theorem span_wide (l : List Char) (i j : ℕ) :
    span (wide l) i j = wide ((l.drop i).take (j - i)) := by
  rw [span, wide, wide, List.map_take, List.map_drop]

theorem expectUtf8_utf8Bytes (l : List Char) : expectUtf8 (utf8Bytes l) = .ok l := by
  rw [expectUtf8, fromUtf8_utf8Bytes]
  exact congrArg Except.ok String.toList_ofList

theorem map_code_wide (l : List Char) : (wide l).map UInt32.toNat = l.map Char.toNat := by
  rw [wide, List.map_map]
  rfl

/-- The bytes between two characters make the string of the code points between them. -/
theorem string_bytes (l : List Char) : string (utf8Bytes l) = .ok (l.map Char.toNat) :=
  (congrArg (Except.map _) (expectUtf8_utf8Bytes l)).trans rfl

theorem string_wide (l : List Char) : string (wide l) = .ok (l.map Char.toNat) :=
  congrArg Except.ok (map_code_wide l)

theorem append_bytes (l : List Char) : append (utf8Bytes l) = .ok (l.map Char.toNat) :=
  (congrArg (Except.map _) (expectUtf8_utf8Bytes l)).trans rfl

theorem append_wide (l : List Char) : append (wide l) = .ok (l.map Char.toNat) :=
  congrArg Except.ok (map_code_wide l)

theorem text_bytes (l : List Char) : text (utf8Bytes l) = .ok l := expectUtf8_utf8Bytes l

theorem text_wide (l : List Char) : text (wide l) = .ok l := by
  have hid : ∀ c : Char, fromU32 c.val = some c := fun c => dif_pos c.valid
  change Except.ok ((wide l).filterMap fromU32) = _
  rw [wide, List.filterMap_map]
  congr 1
  exact (List.filterMap_congr fun c _ => hid c).trans List.filterMap_some

theorem first_bytes (l : List Char) :
    first (utf8Bytes l) = .ok ((l.head?.map Char.toNat).getD 0) :=
  (congrArg (Except.map _) (expectUtf8_utf8Bytes l)).trans rfl

theorem first_wide (l : List Char) : first (wide l) = .ok ((l.head?.map Char.toNat).getD 0) := by
  change Except.ok (((wide l).head?.map UInt32.toNat).getD 0) = _
  rw [wide, List.head?_map, Option.map_map]
  rfl

theorem position_bytes (hk : k ≤ l.length) : position (utf8Bytes l) (byteOffset l k) = k := by
  change (((utf8Bytes l).take (min (byteOffset l k) (utf8Bytes l).length)).countP
    fun c => ¬ Utf8Tail c) + (byteOffset l k - min (byteOffset l k) (utf8Bytes l).length) = k
  rw [min_eq_left (byteOffset_le l k), Nat.sub_self, Nat.add_zero, countP_take_byteOffset hk]

end Spans

end WeavePy.Json
