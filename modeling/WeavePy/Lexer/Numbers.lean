import WeavePy.Lexer.Numerals

/-!
Numbers are scanned as the longest literal there is, or refused where no number may end.
-/

namespace WeavePy.Lexer

open SeparatedRuns Prog

/-! ### What may follow -/

def isIdentByte (b : UInt8) : Bool := isIdentStart b || isDigit b || 0x80 ≤ b

/-- The identifier bytes that a text starts with. -/
def word (u : List UInt8) : List UInt8 := u.takeWhile isIdentByte

/-- No identifier character of ASCII, or one of the words that may follow a number. -/
def Follows (u : List UInt8) : Prop :=
  (∀ b ∈ u.head?, isIdentStart b = false ∧ isDigit b = false) ∨ ∃ w ∈ allowedAfterNumber, word u = utf8 w

/-- The same, but `or` not directly behind a lone zero. -/
def MayFollow (text u : List UInt8) : Prop := Follows u ∧ ¬ (text = [ascii '0'] ∧ word u = utf8 "or")

/-- An imaginary literal with a digit directly behind it. -/
def ImaginaryThenDigit (rest : List UInt8) : Prop :=
  ∃ text, Longest text rest ∧ (text.getLast? = some (ascii 'j') ∨ text.getLast? = some (ascii 'J')) ∧
    (rest.drop text.length).head?.any isDigit = true

/-- Where no number may end: an underscore, a digit, or the start of an exponent that has a sign but no digits. -/
def Blocked (u : List UInt8) : Prop :=
  u.head? = some underscore ∨ u.head?.any isDigit = true ∨ startsExponent u ∧ signLen (u.drop 1) = 1

section Words

variable {u : List UInt8} {b : UInt8}

/-- A word that may follow is more than one letter, and the first of them is one of six. -/
theorem allowed_head {w : String} (hw : w ∈ allowedAfterNumber) :
    ∃ a b t, utf8 w = a :: b :: t ∧ a ∈ "aefino".toList.map ascii ∧ isIdentByte b = true ∧ (a = ascii 'o' → w = "or") := by
  unfold allowedAfterNumber at hw
  simp only [List.mem_cons, List.not_mem_nil, or_false] at hw
  obtain rfl | rfl | rfl | rfl | rfl | rfl | rfl | rfl := hw
  all_goals exact ⟨_, _, _, rfl, by decide, by decide, by decide⟩

theorem word_head {a : UInt8} {t : List UInt8} (h : word (b :: u) = a :: t) : a = b := by
  unfold word at h
  rw [List.takeWhile_cons] at h
  split_ifs at h
  exact (List.cons.inj h).1.symm

theorem word_second {a c : UInt8} {t : List UInt8} (h : word (b :: u) = a :: c :: t) : u.head? = some c := by
  unfold word at h
  rw [List.takeWhile_cons] at h
  split_ifs at h
  have htail := (List.cons.inj h).2
  cases u with
  | nil => cases htail
  | cons d u =>
    rw [List.takeWhile_cons] at htail
    split_ifs at htail
    exact congrArg some (List.cons.inj htail).1

theorem not_follows_of_head (hb : isIdentStart b = true ∨ isDigit b = true) (hnot : b ∉ "aefino".toList.map ascii) :
    ¬ Follows (b :: u) := by
  rintro (h | ⟨w, hw, hword⟩)
  · obtain ⟨hstart, hdigit⟩ := h b rfl
    obtain hb | hb := hb
    · rw [hstart] at hb
      cases hb
    · rw [hdigit] at hb
      cases hb
  · obtain ⟨a, c, t, heq, ha, -, -⟩ := allowed_head hw
    rw [heq] at hword
    rw [word_head hword] at ha
    exact hnot ha

theorem not_follows_of_blocked (h : Blocked u) : ¬ Follows u := by
  cases u with
  | nil =>
    obtain h | h | h := h
    · cases h
    · cases h
    · obtain ⟨h | h, -⟩ := h <;> cases h
  | cons b u =>
    obtain h | h | ⟨hstart, hsign⟩ := h
    · obtain rfl := Option.some.inj h
      exact not_follows_of_head (.inl (by decide)) (by decide)
    · have hb : isDigit b = true := h
      apply not_follows_of_head (.inr hb)
      have hall : ∀ b ∈ "aefino".toList.map ascii, isDigit b = false := by decide +kernel
      intro hmem
      rw [hall b hmem] at hb
      cases hb
    · rintro (hnone | ⟨w, hw, hword⟩)
      · have hb := (hnone b rfl).1
        obtain h | h := hstart
        · obtain rfl := Option.some.inj h
          cases hb
        · obtain rfl := Option.some.inj h
          cases hb
      · obtain ⟨a, c, t, heq, -, hc, -⟩ := allowed_head hw
        rw [heq] at hword
        have hnext := word_second hword
        have hsigned : u.head? = some (ascii '+') ∨ u.head? = some (ascii '-') := by
          by_contra hno
          have hzero : signLen u = 0 := if_neg hno
          rw [List.drop_one, List.tail_cons, hzero] at hsign
          cases hsign
        rw [hnext] at hsigned
        obtain h | h := hsigned
        · rw [Option.some.inj h] at hc
          cases hc
        · rw [Option.some.inj h] at hc
          cases hc

/-- No word that may follow, but `or`, starts with a letter of a radix. -/
theorem not_mayFollow_letter (h : b ∈ radixLetters) : ¬ MayFollow [ascii '0'] (b :: u) := by
  have hall : ∀ b ∈ radixLetters, isIdentStart b = true ∧ (b ∈ "aefino".toList.map ascii → b = ascii 'o') := by decide +kernel
  obtain ⟨hstart, hletter⟩ := hall b h
  rintro ⟨hnone | ⟨w, hw, hword⟩, hor⟩
  · rw [(hnone b rfl).1] at hstart
    cases hstart
  · obtain ⟨a, c, t, heq, ha, -, hw'⟩ := allowed_head hw
    have hhead := word_head (heq ▸ hword)
    rw [hhead] at ha
    rw [hw' (hhead.trans (hletter ha))] at hword
    exact hor ⟨rfl, hword⟩

end Words

/-! ### The scanner's steps -/

section Steps

variable {src : List UInt8} {st t : Scanner} {message : String}

/-- An error of a number, placed inside the source. -/
def Misplaced (src : List UInt8) (e : LexError) : Prop :=
  ∃ (pos : ℕ) (message : String), e = .invalidNumber pos.toUInt32 message ∧ pos < src.length

theorem drop_cons {n : ℕ} {b : UInt8} {u : List UInt8} (h : src.drop n = b :: u) :
    src[n]? = some b ∧ src.drop (n + 1) = u ∧ n < src.length := by
  have hget : src[n]? = some b := by
    rw [← List.head?_drop, h]
    rfl
  refine ⟨hget, ?_, (List.getElem?_eq_some_iff.mp hget).1⟩
  rw [← List.drop_drop, h]
  rfl

theorem getElem?_of_drop {n : ℕ} (u : List UInt8) (h : src.drop n = u) : src[n]? = u.head? := by
  rw [← List.head?_drop, h]

theorem wp_invalidNumber {α : Type} {Q : α → Scanner → Prop} {R : LexError → Scanner → Prop}
    (h : R (.invalidNumber (t.pos - 1).toUInt32 message) t) : wp (invalidNumber message : Scan α) Q R t := h

theorem wp_peek {Q : Option UInt8 → Scanner → Prop} {R : LexError → Scanner → Prop}
    (h : Q (src.drop t.pos).head? t) : wp (peek src) Q R t := by
  rw [List.head?_drop] at h
  exact h

/-- A run of digits is read to its end; it fails where an underscore dangles. -/
theorem wp_consumeDigitRun :
    wp (consumeDigitRun src)
      (fun any t => t.pos = st.pos + runLen isDigit underscore (src.drop st.pos) ∧
        any = (src.drop st.pos).head?.any isDigit ∧ (any = true → (src.drop t.pos).head? ≠ some underscore))
      (fun e _ => (src.drop st.pos).head?.any isDigit = true ∧
        (src.drop (st.pos + runLen isDigit underscore (src.drop st.pos))).head? = some underscore ∧ Misplaced src e)
      st := by
  unfold consumeDigitRun scanLoop
  apply wp_loop (fun any t => (any = false → t.pos = st.pos) ∧ (any = true →
      (src.drop st.pos).head?.any isDigit = true ∧
        t.pos + more isDigit underscore (src.drop t.pos) = st.pos + runLen isDigit underscore (src.drop st.pos)))
    (fun _ t => src.length - t.pos)
  · rintro any t ⟨hnone, hsome⟩
    have hdone (hstop : more isDigit underscore (src.drop t.pos) = 0)
        (hhead : any = false → (src.drop t.pos).head?.any isDigit = false)
        (hunder : any = true → (src.drop t.pos).head? ≠ some underscore) :
        t.pos = st.pos + runLen isDigit underscore (src.drop st.pos) ∧ any = (src.drop st.pos).head?.any isDigit ∧
          (any = true → (src.drop t.pos).head? ≠ some underscore) := by
      cases any with
      | false =>
        have hpos := hnone rfl
        have hfalse := hhead rfl
        rw [hpos] at hfalse
        rw [runLen_zero hfalse]
        exact ⟨hpos, hfalse.symm, by rintro ⟨⟩⟩
      | true =>
        obtain ⟨hfirst, hlen⟩ := hsome rfl
        rw [hstop, Nat.add_zero] at hlen
        exact ⟨hlen, hfirst.symm, hunder⟩
    apply wp_bind
    apply wp_peek
    cases hrest : src.drop t.pos with
    | nil =>
      apply wp_pure
      exact hdone (by rw [hrest]; rfl) (fun _ => by rw [hrest]; rfl) (fun _ => by rw [hrest]; rintro ⟨⟩)
    | cons b u =>
      obtain ⟨-, hnext, hlt⟩ := drop_cons hrest
      apply wp_ite
      · intro hb
        apply wp_bind
        apply wp_modify
        apply wp_pure
        refine ⟨⟨by rintro ⟨⟩, fun _ => ?_⟩, ?_⟩
        · have hmore : t.pos + 1 + more isDigit underscore (src.drop (t.pos + 1)) =
              t.pos + more isDigit underscore (src.drop t.pos) := by
            rw [hnext, hrest, more_cons hb]
            omega
          cases any with
          | false =>
            have hpos := hnone rfl
            rw [hpos] at hrest hmore ⊢
            rw [hrest] at hmore ⊢
            refine ⟨hb, hmore.trans ?_⟩
            rw [runLen, if_pos (show (b :: u).head?.any isDigit = true from hb)]
          | true =>
            obtain ⟨hfirst, hlen⟩ := hsome rfl
            exact ⟨hfirst, hmore.trans hlen⟩
        · change src.length - (t.pos + 1) < src.length - t.pos
          omega
      · intro hb
        rw [Bool.not_eq_true] at hb
        apply wp_ite
        · rintro ⟨rfl, rfl⟩
          obtain ⟨hfirst, hlen⟩ := hsome rfl
          have hfail (hu : u.head?.any isDigit = false) : (src.drop st.pos).head?.any isDigit = true ∧
              (src.drop (st.pos + runLen isDigit underscore (src.drop st.pos))).head? = some underscore ∧
                Misplaced src (.invalidNumber (t.pos + 1 - 1).toUInt32 "invalid decimal literal") := by
            have hzero : more isDigit underscore (src.drop t.pos) = 0 := by
              rw [hrest]
              apply if_neg
              rintro (h | ⟨-, h⟩)
              · rw [hb] at h
                cases h
              · rw [hu] at h
                cases h
            rw [hzero, Nat.add_zero] at hlen
            refine ⟨hfirst, ?_, t.pos, _, rfl, hlt⟩
            rw [← hlen, hrest]
            rfl
          apply wp_bind
          apply wp_modify
          apply wp_bind
          apply wp_peek
          dsimp only
          rw [hnext]
          cases u with
          | nil => exact wp_invalidNumber (hfail rfl)
          | cons c u =>
            apply wp_ite
            · intro hc
              apply wp_pure
              refine ⟨⟨by rintro ⟨⟩, fun _ => ⟨hfirst, ?_⟩⟩, ?_⟩
              · change t.pos + 1 + more isDigit underscore (src.drop (t.pos + 1)) = _
                rw [← hlen, hnext, hrest]
                change _ = t.pos + more isDigit underscore (underscore :: c :: u)
                rw [more_sep (show (c :: u).head?.any isDigit = true from hc)]
                omega
              · change src.length - (t.pos + 1) < src.length - t.pos
                omega
            · intro hc
              rw [Bool.not_eq_true] at hc
              exact wp_invalidNumber (hfail hc)
        · intro hunder
          apply wp_pure
          have hne (hany : any = true) : (b :: u).head? ≠ some underscore := fun heq =>
            hunder ⟨Option.some.inj heq, hany⟩
          cases any with
          | false =>
            have hpos := hnone rfl
            rw [hpos] at hrest ⊢
            have hfalse : (src.drop st.pos).head?.any isDigit = false := by
              rw [hrest]
              exact hb
            rw [runLen_zero hfalse]
            exact ⟨rfl, hfalse.symm, by rintro ⟨⟩⟩
          | true =>
            have hstop : more isDigit underscore (b :: u) = 0 := more_stop hb fun heq => hunder ⟨heq, rfl⟩
            rw [← hrest] at hstop hne
            exact hdone hstop (by rintro ⟨⟩) hne
  · omega
  · exact ⟨fun _ => rfl, by rintro ⟨⟩⟩

theorem allowed_iff (u : List UInt8) : (fromUtf8 (u.take (runLength isIdentByte u))).getD "" ∈ allowedAfterNumber ↔
    ∃ w ∈ allowedAfterNumber, word u = utf8 w := by
  have htake : u.take (runLength isIdentByte u) = word u := by
    have hsplit := List.takeWhile_append_dropWhile (p := isIdentByte) (l := u)
    calc u.take (runLength isIdentByte u)
        = (u.takeWhile isIdentByte ++ u.dropWhile isIdentByte).take (runLength isIdentByte u) := by rw [hsplit]
      _ = word u := List.take_left' rfl
  rw [htake]
  constructor
  · intro hmem
    cases hword : fromUtf8 (word u) with
    | none =>
      rw [hword] at hmem
      exact absurd hmem (by decide)
    | some w =>
      rw [hword] at hmem
      exact ⟨w, hmem, (utf8_of_fromUtf8 hword).symm⟩
  · rintro ⟨w, hw, hword⟩
    rw [hword, fromUtf8_utf8]
    exact hw

theorem wp_verifyEndOfNumber (hpos : 0 < t.pos) (hle : t.pos ≤ src.length) :
    wp (verifyEndOfNumber src message)
      (fun _ t' => t'.pos = t.pos ∧ (Follows (src.drop t.pos) ∨ (src.drop t.pos).head?.any isDigit = true))
      (fun e _ => ¬ Follows (src.drop t.pos) ∧ Misplaced src e) t := by
  unfold verifyEndOfNumber
  apply wp_bind
  apply wp_peek
  cases hrest : src.drop t.pos with
  | nil =>
    apply wp_pure
    exact ⟨rfl, .inl (.inl nofun)⟩
  | cons b u =>
    apply wp_ite
    · intro hb
      apply wp_pure
      refine ⟨rfl, ?_⟩
      rw [Bool.not_eq_true] at hb
      cases hdigit : isDigit b with
      | true => exact .inr hdigit
      | false =>
        apply Or.inl
        apply Or.inl
        intro b' hb'
        obtain rfl := Option.some.inj hb'
        exact ⟨hb, hdigit⟩
    · intro hb
      rw [not_not] at hb
      apply wp_bind
      apply wp_gets
      dsimp only
      rw [hrest]
      change wp (if (fromUtf8 ((b :: u).take (runLength isIdentByte (b :: u)))).getD "" ∈ allowedAfterNumber then _
        else _) _ _ _
      apply wp_ite
      · intro hmem
        apply wp_modify
        exact ⟨rfl, .inl (.inr ((allowed_iff _).mp hmem))⟩
      · intro hmem
        apply wp_invalidNumber
        refine ⟨?_, t.pos - 1, _, rfl, by omega⟩
        rintro (hnone | hword)
        · rw [(hnone b rfl).1] at hb
          cases hb
        · exact hmem ((allowed_iff _).mpr hword)

theorem wp_scanImaginary :
    wp (scanImaginary src) (fun imaginary t => t.pos = st.pos + suffixLen (src.drop st.pos) ∧
      (imaginary = true ↔ suffixLen (src.drop st.pos) = 1)) (fun _ _ => False) st := by
  unfold scanImaginary
  apply wp_bind
  apply wp_peek
  cases hrest : src.drop st.pos with
  | nil =>
    apply wp_pure
    exact ⟨rfl, by decide⟩
  | cons b u =>
    apply wp_ite
    · intro hj
      apply wp_bind
      apply wp_modify
      apply wp_pure
      rw [suffixLen_suffix hj]
      exact ⟨rfl, by decide⟩
    · intro hj
      apply wp_pure
      have hzero : suffixLen (b :: u) = 0 := if_neg fun h => hj (h.imp Option.some.inj Option.some.inj)
      rw [hzero]
      exact ⟨rfl, by decide⟩

/-- Nothing is behind a dangling underscore that could make the number longer. -/
theorem tail_underscore {u : List UInt8} (h : u.head? = some underscore) :
    pointLen u = 0 ∧ exponentLen u = 0 ∧ suffixLen u = 0 := by
  refine ⟨?_, ?_, ?_⟩
  · apply pointLen_none
    rw [h]
    decide
  · apply exponentLen_none
    unfold startsExponent
    rw [h]
    decide
  · unfold suffixLen
    rw [h]
    decide

theorem tail_exponent {u : List UInt8} (h : startsExponent u) : pointLen u = 0 ∧ suffixLen u = 0 := by
  constructor
  · apply pointLen_none
    obtain h | h := h <;> rw [h] <;> decide
  · unfold suffixLen
    obtain h | h := h <;> rw [h] <;> decide

theorem wp_scanFraction :
    wp (scanFraction src) (fun fraction t => t.pos = st.pos + pointLen (src.drop st.pos) ∧
        (fraction = true ↔ pointLen (src.drop st.pos) ≠ 0))
      (fun e _ => (src.drop (st.pos + pointLen (src.drop st.pos))).head? = some underscore ∧ Misplaced src e) st := by
  unfold scanFraction
  apply wp_bind
  apply wp_peek
  cases hrest : src.drop st.pos with
  | nil =>
    apply wp_pure
    exact ⟨rfl, by decide⟩
  | cons b u =>
    obtain ⟨-, hnext, -⟩ := drop_cons hrest
    apply wp_ite
    · rintro rfl
      rw [pointLen_point]
      apply wp_bind
      apply wp_modify
      apply wp_seq
      · apply wp_mono (wp_consumeDigitRun)
        · intro any t h
          exact h.1
        · rintro e t ⟨-, hunder, he⟩
          dsimp only at hunder
          rw [hnext, Nat.add_assoc, Nat.add_comm 1] at hunder
          exact ⟨hunder, he⟩
      · intro any t ht
        apply wp_pure
        dsimp only at ht
        rw [hnext] at ht
        exact ⟨by omega, iff_of_true rfl (Nat.succ_ne_zero _)⟩
    · intro hb
      apply wp_pure
      have hzero : pointLen (b :: u) = 0 := pointLen_none fun h => hb (Option.some.inj h)
      rw [hzero]
      exact ⟨rfl, by decide⟩

/-- An exponent is read, a bare `e` left; it fails behind a sign without digits and where an underscore dangles. -/
theorem wp_scanExponent :
    wp (scanExponent src) (fun exponent t => t.pos = st.pos + exponentLen (src.drop st.pos) ∧
        (exponent = true ↔ exponentLen (src.drop st.pos) ≠ 0))
      (fun e _ => Blocked (src.drop (st.pos + exponentLen (src.drop st.pos))) ∧
        suffixLen (src.drop (st.pos + exponentLen (src.drop st.pos))) = 0 ∧ Misplaced src e) st := by
  unfold scanExponent
  apply wp_bind
  apply wp_peek
  cases hrest : src.drop st.pos with
  | nil =>
    apply wp_pure
    exact ⟨rfl, by decide⟩
  | cons b u =>
    obtain ⟨-, hnext, hlt⟩ := drop_cons hrest
    apply wp_ite
    · intro hb
      have hstart : startsExponent (b :: u) := startsExponent_cons hb
      have hdigits : src.drop (st.pos + 1 + signLen u) = exponentDigits (b :: u) := by
        unfold exponentDigits
        rw [List.drop_one, List.tail_cons, ← hrest, List.drop_drop, Nat.add_assoc]
      have hrun (t : Scanner) (ht : t.pos = st.pos + 1 + signLen u) :
          wp (peek src >>= fun digit =>
              if digit.any isDigit = true then consumeDigitRun src >>= fun _ => pure true
              else if u.head? = some (ascii '+') ∨ u.head? = some (ascii '-') then
                invalidNumber "invalid decimal literal"
              else Prog.modify (fun s => { s with pos := st.pos }) >>= fun _ => pure false)
            (fun exponent t => t.pos = st.pos + exponentLen (b :: u) ∧ (exponent = true ↔ exponentLen (b :: u) ≠ 0))
            (fun e _ => Blocked (src.drop (st.pos + exponentLen (b :: u))) ∧
              suffixLen (src.drop (st.pos + exponentLen (b :: u))) = 0 ∧ Misplaced src e) t := by
        apply wp_bind
        apply wp_peek
        rw [ht, hdigits]
        apply wp_ite
        · intro hany
          have hlen : exponentLen (b :: u) =
              1 + signLen u + runLen isDigit underscore (exponentDigits (b :: u)) := if_pos ⟨hstart, hany⟩
          apply wp_seq
          · apply wp_mono (wp_consumeDigitRun)
            · intro any t' h
              rw [ht, hdigits] at h
              exact h.1
            · rintro e t' ⟨-, hunder, he⟩
              rw [ht, hdigits] at hunder
              have hpos : st.pos + exponentLen (b :: u) =
                  st.pos + 1 + signLen u + runLen isDigit underscore (exponentDigits (b :: u)) := by omega
              rw [hpos]
              exact ⟨.inl hunder, (tail_underscore hunder).2.2, he⟩
          · intro _ t' ht'
            apply wp_pure
            exact ⟨by omega, iff_of_true rfl (by omega)⟩
        · intro hany
          have hzero : exponentLen (b :: u) = 0 := if_neg fun h => hany h.2
          rw [hzero, Nat.add_zero, hrest]
          apply wp_ite
          · intro hsigned
            apply wp_invalidNumber
            have hsign : signLen u = 1 := if_pos hsigned
            have hle : st.pos + 1 < src.length := by
              cases u with
              | nil => obtain h | h := hsigned <;> cases h
              | cons c u => exact (drop_cons hnext).2.2
            exact ⟨.inr (.inr ⟨hstart, hsign⟩), (tail_exponent hstart).2, t.pos - 1, _, rfl, by omega⟩
          · intro _
            apply wp_bind
            apply wp_modify
            apply wp_pure
            exact ⟨rfl, by decide⟩
      apply wp_bind
      apply wp_gets
      apply wp_bind
      apply wp_modify
      apply wp_bind
      apply wp_peek
      dsimp only
      rw [hnext]
      apply wp_ite
      · intro hsigned
        apply wp_bind
        apply wp_modify
        apply hrun
        rw [signLen, if_pos hsigned]
      · intro hsigned
        apply hrun
        rw [signLen, if_neg hsigned]
    · intro hb
      apply wp_pure
      have hzero : exponentLen (b :: u) = 0 :=
        exponentLen_none fun h => hb (h.imp Option.some.inj Option.some.inj)
      rw [hzero]
      exact ⟨rfl, by decide⟩

end Steps

/-! ### Decimal numbers -/

section Decimal

variable {rest : List UInt8}

/-- One of the digits that an integer with a leading zero must not have. -/
def isNonzero (b : UInt8) : Bool := ascii '1' ≤ b && b ≤ ascii '9'

theorem isZero_of_isDigit {b : UInt8} (h : isDigit b = true) (h' : isNonzero b = false) : isZero b = true := by
  have hascii : (ascii '0').toNat = 48 ∧ (ascii '1').toNat = 49 ∧ (ascii '9').toNat = 57 := ⟨rfl, rfl, rfl⟩
  obtain ⟨hzero, hone, hnine⟩ := hascii
  apply decide_eq_true
  apply UInt8.toNat_inj.mp
  simp only [isDigit, isNonzero, Bool.and_eq_true, Bool.and_eq_false_iff, decide_eq_true_eq, decide_eq_false_iff_not,
    UInt8.le_iff_toNat_le] at h h'
  omega

/-- Either the zeros are all the digits there are, or no number may end behind them. -/
theorem zeros_blocked (l : List UInt8) :
    more isZero underscore l = more isDigit underscore l ∨ Blocked (l.drop (more isZero underscore l)) := by
  induction l with
  | nil => exact .inl rfl
  | cons a l ih =>
    by_cases hzero : isZero a = true ∨ a = underscore ∧ l.head?.any isZero = true
    · have hdigit : isDigit a = true ∨ a = underscore ∧ l.head?.any isDigit = true := by
        obtain h | ⟨h, h'⟩ := hzero
        · exact .inl (isDigit_of_isZero a h)
        · apply Or.inr
          cases l with
          | nil => cases h'
          | cons b l => exact ⟨h, isDigit_of_isZero b h'⟩
      rw [more, if_pos hzero, more, if_pos hdigit, List.drop_succ_cons]
      exact ih.imp_left (congrArg Nat.succ)
    · rw [more, if_neg hzero, more]
      split_ifs with hdigit
      · apply Or.inr
        obtain h | ⟨rfl, -⟩ := hdigit
        · exact .inr (.inl h)
        · exact .inl rfl
      · exact .inl rfl

theorem zeros_eq (l : List UInt8)
    (h : (l.take (more isDigit underscore l)).any isNonzero = false) :
    more isZero underscore l = more isDigit underscore l := by
  induction l with
  | nil => rfl
  | cons a l ih =>
    by_cases hdigit : isDigit a = true ∨ a = underscore ∧ l.head?.any isDigit = true
    · rw [more, if_pos hdigit, List.take_succ_cons, List.any_cons, Bool.or_eq_false_iff] at h
      have hzero : isZero a = true ∨ a = underscore ∧ l.head?.any isZero = true := by
        obtain hd | ⟨hunder, hnext⟩ := hdigit
        · exact .inl (isZero_of_isDigit hd h.1)
        · apply Or.inr
          cases l with
          | nil => cases hnext
          | cons b l =>
            have hb : isDigit b = true := hnext
            have hrest := h.2
            rw [more_cons hb, List.take_succ_cons, List.any_cons, Bool.or_eq_false_iff] at hrest
            exact ⟨hunder, isZero_of_isDigit hb hrest.1⟩
      rw [more, if_pos hzero, more, if_pos hdigit, ih h.2]
    · have hzero : ¬ (isZero a = true ∨ a = underscore ∧ l.head?.any isZero = true) := by
        rintro (hz | ⟨hunder, hnext⟩)
        · exact hdigit (.inl (isDigit_of_isZero a hz))
        · cases l with
          | nil => cases hnext
          | cons b l => exact hdigit (.inr ⟨hunder, isDigit_of_isZero b hnext⟩)
      rw [more, if_neg hzero, more, if_neg hdigit]

theorem runLen_leading {p : UInt8 → Bool} (h : rest.head? = some (ascii '0')) (hp : p (ascii '0') = true) :
    runLen p underscore rest = more p underscore rest := by
  apply if_pos
  rw [h]
  exact hp

/-- Where a tail ends that no number may end at, neither may the whole. -/
theorem decimal_blocked
    (h : Blocked (rest.drop (runLen isDigit underscore rest + tailLen (rest.drop (runLen isDigit underscore rest))))) :
    Blocked (rest.drop (decimalLen rest)) := by
  unfold decimalLen
  dsimp only
  split_ifs with hzero
  · rw [hzero.1, Nat.add_zero, runLen_leading hzero.2 rfl] at h
    rw [runLen_leading hzero.2 rfl]
    obtain heq | hblocked := zeros_blocked rest
    · rw [heq]
      exact h
    · exact hblocked
  · exact h

/-- A leading zero and another digit. -/
theorem decimal_leading (htail : tailLen (rest.drop (runLen isDigit underscore rest)) = 0)
    (hhead : rest.head? = some (ascii '0'))
    (hany : (rest.take (runLen isDigit underscore rest)).any isNonzero = true) :
    Blocked (rest.drop (decimalLen rest)) := by
  unfold decimalLen
  dsimp only
  rw [if_pos ⟨htail, hhead⟩, runLen_leading hhead rfl]
  rw [runLen_leading hhead rfl] at hany
  obtain heq | hblocked := zeros_blocked rest
  · rw [← heq] at hany
    obtain ⟨b, hb, hnonzero⟩ := List.any_eq_true.mp hany
    obtain h | rfl := mem_take_more hb
    · rw [of_decide_eq_true h] at hnonzero
      cases hnonzero
    · cases hnonzero
  · exact hblocked

theorem decimal_consumed (h : ¬ (tailLen (rest.drop (runLen isDigit underscore rest)) = 0 ∧
      rest.head? = some (ascii '0') ∧ (rest.take (runLen isDigit underscore rest)).any isNonzero = true)) :
    decimalLen rest =
      runLen isDigit underscore rest + tailLen (rest.drop (runLen isDigit underscore rest)) := by
  unfold decimalLen
  dsimp only
  split_ifs with hzero
  · have hnone : (rest.take (runLen isDigit underscore rest)).any isNonzero = false := by
      rw [← Bool.not_eq_true]
      exact fun hany => h ⟨hzero.1, hzero.2, hany⟩
    rw [runLen_leading hzero.2 rfl] at hnone
    rw [hzero.1, Nat.add_zero, runLen_leading hzero.2 rfl, runLen_leading hzero.2 rfl, zeros_eq rest hnone]
  · rfl

/-- Where the suffix may stand. -/
def beforeSuffix (rest : List UInt8) : List UInt8 :=
  let tail := rest.drop (runLen isDigit underscore rest)
  tail.drop (pointLen tail + exponentLen (tail.drop (pointLen tail)))

theorem head_beforeSuffix (rest : List UInt8) : (beforeSuffix rest).head?.any isDigit = false := by
  unfold beforeSuffix
  dsimp only
  have hint : (rest.drop (runLen isDigit underscore rest)).head?.any isDigit = false := head_drop_runLen rest
  generalize rest.drop (runLen isDigit underscore rest) = tail at hint ⊢
  rw [← List.drop_drop]
  have hpoint : (tail.drop (pointLen tail)).head?.any isDigit = false := by
    unfold pointLen
    split_ifs with h
    · cases tail with
      | nil => rfl
      | cons b tail => exact head_drop_runLen tail
    · exact hint
  generalize tail.drop (pointLen tail) = tail' at hpoint ⊢
  unfold exponentLen
  split_ifs with h
  · have hdigits : ((exponentDigits tail').drop (runLen isDigit underscore (exponentDigits tail'))).head?.any isDigit = false :=
      head_drop_runLen (exponentDigits tail')
    rw [← List.drop_drop]
    exact hdigits
  · exact hpoint

theorem drop_tail (rest : List UInt8) : rest.drop (runLen isDigit underscore rest +
    tailLen (rest.drop (runLen isDigit underscore rest))) = (beforeSuffix rest).drop (suffixLen (beforeSuffix rest)) := by
  rw [← List.drop_drop]
  unfold beforeSuffix tailLen
  dsimp only
  rw [← List.drop_drop]

/-- A digit behind a decimal number is behind its suffix. -/
theorem suffix_of_digit (h : (rest.drop (runLen isDigit underscore rest +
    tailLen (rest.drop (runLen isDigit underscore rest)))).head?.any isDigit = true) :
    (rest.take (runLen isDigit underscore rest + tailLen (rest.drop (runLen isDigit underscore rest)))).getLast? =
        some (ascii 'j') ∨
      (rest.take (runLen isDigit underscore rest + tailLen (rest.drop (runLen isDigit underscore rest)))).getLast? =
        some (ascii 'J') := by
  rw [drop_tail] at h
  rw [List.take_add, take_tailLen]
  change (_ ++ (_ ++ (beforeSuffix rest).take (suffixLen (beforeSuffix rest)))).getLast? = _ ∨
    (_ ++ (_ ++ (beforeSuffix rest).take (suffixLen (beforeSuffix rest)))).getLast? = _
  obtain hnone | ⟨j, hj, hletter⟩ := suffix_take (beforeSuffix rest)
  · exfalso
    have hlen := congrArg List.length hnone
    rw [List.length_take, Nat.min_eq_left (suffixLen_le_length _)] at hlen
    change suffixLen (beforeSuffix rest) = 0 at hlen
    rw [hlen, List.drop_zero, head_beforeSuffix] at h
    cases h
  · rw [hj, ← List.append_assoc, List.getLast?_concat]
    exact hletter.imp (congrArg some) (congrArg some)

end Decimal

section Scanning

variable {src : List UInt8} {st t : Scanner}

/-- The token of `n` bytes, with the cursor behind them. -/
def Scanned (st : Scanner) (n : ℕ) (tok : Token) (t : Scanner) : Prop :=
  tok = token .Number st.pos (st.pos + n) ∧ t.pos = st.pos + n

theorem wp_emit {n : ℕ} {R : LexError → Scanner → Prop} {P : Prop} (ht : t.pos = st.pos + n) (hP : P) :
    wp (emit .Number st.pos) (fun tok t => Scanned st n tok t ∧ P) R t := by
  apply wp_gets
  rw [ht]
  exact ⟨⟨rfl, ht⟩, hP⟩

/-- Verified at the end of a number, and taken. -/
theorem wp_verified {n : ℕ} (message : String) (ht : t.pos = st.pos + n) (hpos : 0 < n)
    (hle : n ≤ (src.drop st.pos).length) :
    wp (verifyEndOfNumber src message >>= fun _ => emit .Number st.pos)
      (fun tok t => Scanned st n tok t ∧
        (Follows ((src.drop st.pos).drop n) ∨ ((src.drop st.pos).drop n).head?.any isDigit = true))
      (fun e _ => ¬ Follows ((src.drop st.pos).drop n) ∧ Misplaced src e) t := by
  rw [List.length_drop] at hle
  rw [List.drop_drop, ← ht]
  apply wp_seq (wp_verifyEndOfNumber (by omega) (by omega))
  rintro _ t' ⟨hsame, hfollows⟩
  exact wp_emit (hsame.trans ht) hfollows

theorem wp_scanDecimal (hstart : StartsNumber (src.drop st.pos)) :
    wp (scanDecimal src st.pos)
      (fun tok t => Scanned st (decimalLen (src.drop st.pos)) tok t ∧
        (Follows ((src.drop st.pos).drop (decimalLen (src.drop st.pos))) ∨
          (((src.drop st.pos).take (decimalLen (src.drop st.pos))).getLast? = some (ascii 'j') ∨
            ((src.drop st.pos).take (decimalLen (src.drop st.pos))).getLast? = some (ascii 'J')) ∧
            ((src.drop st.pos).drop (decimalLen (src.drop st.pos))).head?.any isDigit = true))
      (fun e _ => ¬ Follows ((src.drop st.pos).drop (decimalLen (src.drop st.pos))) ∧ Misplaced src e) st := by
  obtain ⟨rest, hrest⟩ : ∃ rest, rest = src.drop st.pos := ⟨_, rfl⟩
  have hdrop (n : ℕ) : src.drop (st.pos + n) = rest.drop n := by rw [hrest, List.drop_drop]
  have hlt : st.pos < src.length := by
    by_contra hge
    rw [List.drop_eq_nil_of_le (Nat.le_of_not_lt hge)] at hstart
    obtain h | ⟨h, -⟩ := hstart <;> cases h
  have hfail {e : LexError} (hblocked : Blocked (rest.drop (runLen isDigit underscore rest +
      tailLen (rest.drop (runLen isDigit underscore rest))))) (he : Misplaced src e) :
      ¬ Follows (rest.drop (decimalLen rest)) ∧ Misplaced src e :=
    ⟨not_follows_of_blocked (decimal_blocked hblocked), he⟩
  rw [← hrest] at hstart ⊢
  unfold scanDecimal
  apply wp_seq
  · apply wp_mono (wp_consumeDigitRun)
    · intro _ t h
      exact h.1
    · rintro e t ⟨-, hunder, he⟩
      rw [hdrop, ← hrest] at hunder
      obtain ⟨hpoint, hexponent, hsuffix⟩ := tail_underscore hunder
      have htail : tailLen (rest.drop (runLen isDigit underscore rest)) = 0 := by
        unfold tailLen
        dsimp only
        rw [hpoint, List.drop_zero, hexponent, Nat.add_zero, List.drop_zero, hsuffix]
      apply hfail _ he
      rw [htail]
      exact .inl hunder
  intro _ t₁ h₁
  rw [← hrest] at h₁
  apply wp_bind
  apply wp_gets
  have htail₁ : src.drop t₁.pos = rest.drop (runLen isDigit underscore rest) := by rw [h₁, hdrop]
  generalize hTail : rest.drop (runLen isDigit underscore rest) = tail at htail₁ hfail ⊢
  apply wp_seq
  · apply wp_mono (wp_scanFraction)
    · intro fraction t h
      exact h
    · rintro e t ⟨hunder, he⟩
      rw [← List.drop_drop, htail₁] at hunder
      obtain ⟨-, hexponent, hsuffix⟩ := tail_underscore hunder
      have htail : tailLen tail = pointLen tail := by
        unfold tailLen
        dsimp only
        rw [hexponent, Nat.add_zero, hsuffix, Nat.add_zero]
      apply hfail _ he
      rw [htail, ← List.drop_drop, hTail]
      exact .inl hunder
  rintro fraction t₂ ⟨h₂, hfraction⟩
  rw [htail₁] at h₂ hfraction
  have htail₂ : src.drop t₂.pos = tail.drop (pointLen tail) := by rw [h₂, ← List.drop_drop, htail₁]
  apply wp_seq
  · apply wp_mono (wp_scanExponent)
    · intro exponent t h
      exact h
    · rintro e t ⟨hblocked, hsuffix, he⟩
      rw [← List.drop_drop, htail₂, List.drop_drop] at hblocked hsuffix
      have htail : tailLen tail = pointLen tail + exponentLen (tail.drop (pointLen tail)) := by
        unfold tailLen
        dsimp only
        rw [hsuffix, Nat.add_zero]
      apply hfail _ he
      rw [htail, ← List.drop_drop, hTail]
      exact hblocked
  rintro exponent t₃ ⟨h₃, hexponent⟩
  rw [htail₂] at h₃ hexponent
  have htail₃ : src.drop t₃.pos = tail.drop (pointLen tail + exponentLen (tail.drop (pointLen tail))) := by
    rw [h₃, ← List.drop_drop, htail₂, List.drop_drop]
  apply wp_seq
  · apply wp_mono (wp_scanImaginary)
    · intro imaginary t h
      exact h
    · intro e t h
      exact h.elim
  rintro imaginary t₄ ⟨h₄, himaginary⟩
  rw [htail₃] at h₄ himaginary
  have hlen : t₄.pos = st.pos + (runLen isDigit underscore rest + tailLen tail) := by
    unfold tailLen
    dsimp only
    omega
  have hnone : tailLen tail = 0 ↔ ¬ (fraction = true ∨ exponent = true) ∧ ¬ imaginary = true := by
    rw [hfraction, hexponent, himaginary]
    have hone : suffixLen (tail.drop (pointLen tail + exponentLen (tail.drop (pointLen tail)))) ≤ 1 := by
      unfold suffixLen
      split_ifs <;> decide
    unfold tailLen
    dsimp only
    omega
  dsimp only
  rw [← hrest, h₁, Nat.add_sub_cancel_left]
  have hhead : (rest.take (runLen isDigit underscore rest)).head? = some (ascii '0') → rest.head? = some (ascii '0') := by
    intro h
    rw [List.head?_take] at h
    split_ifs at h
    exact h
  apply wp_ite
  · rintro ⟨hfloat, himag, hzero, hany⟩
    refine ⟨?_, st.pos, _, rfl, hlt⟩
    apply not_follows_of_blocked
    apply decimal_leading _ (hhead hzero) hany
    rw [hTail]
    exact hnone.mpr ⟨hfloat, himag⟩
  · intro hleading
    have hconsumed : decimalLen rest = runLen isDigit underscore rest + tailLen tail := by
      rw [← hTail]
      apply decimal_consumed
      rw [hTail]
      rintro ⟨htail, hzero, hany⟩
      obtain ⟨hfloat, himag⟩ := hnone.mp htail
      refine hleading ⟨hfloat, himag, ?_, hany⟩
      cases hrun : rest.take (runLen isDigit underscore rest) with
      | nil =>
        rw [hrun] at hany
        cases hany
      | cons b l =>
        rw [← hrun, List.head?_take, if_neg _]
        · exact hzero
        · intro h
          rw [h, List.take_zero] at hrun
          cases hrun
    have hpos : 0 < decimalLen rest := by
      have hnumeral := numeral_take_decimal hstart
      by_contra hzero
      rw [Nat.eq_zero_of_not_pos hzero] at hnumeral
      exact numeral_ne_nil hnumeral List.take_zero
    rw [← hconsumed] at hlen
    have hdecimal := wp_verified (if imaginary = true then "invalid imaginary literal" else
      "invalid decimal literal") hlen hpos (by rw [← hrest]; exact decimalLen_le_length rest)
    rw [← hrest] at hdecimal
    apply wp_mono hdecimal
    · rintro tok t ⟨hscanned, hfollows⟩
      refine ⟨hscanned, hfollows.imp_right fun hdigit => ⟨?_, hdigit⟩⟩
      rw [hconsumed, ← hTail] at hdigit ⊢
      exact suffix_of_digit hdigit
    · intro e t h
      exact h

/-- The digits of a radix are read to their end; they fail where an underscore dangles. -/
theorem wp_radixDigits {radix : Radix} (hvalid : radix.valid underscore = false) :
    wp (radixDigits src radix)
      (fun any t => t.pos = st.pos + more radix.valid underscore (src.drop st.pos) ∧
        (any = true ↔ 0 < more radix.valid underscore (src.drop st.pos)) ∧
        ∀ b ∈ (src.drop t.pos).head?, radix.valid b = false)
      (fun e _ => (src.drop (st.pos + more radix.valid underscore (src.drop st.pos))).head? = some underscore ∧
        Misplaced src e) st := by
  unfold radixDigits scanLoop
  apply wp_loop (fun any t => st.pos ≤ t.pos ∧ t.pos + more radix.valid underscore (src.drop t.pos) =
      st.pos + more radix.valid underscore (src.drop st.pos) ∧ (any = true → st.pos < t.pos) ∧
      (any = false → t.pos = st.pos ∨ (src.drop t.pos).head?.any radix.valid = true))
    (fun _ t => src.length - t.pos)
  · rintro any t ⟨hle, hlen, hsome, hnone⟩
    have hdone (hstop : more radix.valid underscore (src.drop t.pos) = 0)
        (hhead : (src.drop t.pos).head?.any radix.valid = false) :
        t.pos = st.pos + more radix.valid underscore (src.drop st.pos) ∧
          (any = true ↔ 0 < more radix.valid underscore (src.drop st.pos)) ∧
          ∀ b ∈ (src.drop t.pos).head?, radix.valid b = false := by
      rw [hstop, Nat.add_zero] at hlen
      refine ⟨hlen, ?_, ?_⟩
      · cases any with
        | true =>
          have := hsome rfl
          exact iff_of_true rfl (by omega)
        | false =>
          obtain h | h := hnone rfl
          · exact iff_of_false Bool.false_ne_true (by omega)
          · rw [hhead] at h
            cases h
      · intro b hb
        rw [Option.mem_def.mp hb] at hhead
        exact hhead
    apply wp_bind
    apply wp_peek
    cases hrest : src.drop t.pos with
    | nil =>
      apply wp_pure
      exact hdone (by rw [hrest]; rfl) (by rw [hrest]; rfl)
    | cons b u =>
      obtain ⟨-, hnext, hlt⟩ := drop_cons hrest
      apply wp_ite
      · rintro rfl
        have hfail (hu : u.head?.any radix.valid = false) :
            (src.drop (st.pos + more radix.valid underscore (src.drop st.pos))).head? = some underscore := by
          have hzero : more radix.valid underscore (src.drop t.pos) = 0 := by
            rw [hrest]
            apply if_neg
            rintro (h | ⟨-, h⟩)
            · exact Bool.false_ne_true (hvalid.symm.trans h)
            · rw [hu] at h
              cases h
          rw [hzero, Nat.add_zero] at hlen
          rw [← hlen, hrest]
          rfl
        apply wp_bind
        apply wp_modify
        apply wp_bind
        apply wp_peek
        dsimp only
        rw [hnext]
        cases u with
        | nil =>
          apply wp_invalidNumber
          exact ⟨hfail rfl, t.pos, _, rfl, hlt⟩
        | cons c u =>
          obtain ⟨-, -, hlt'⟩ := drop_cons hnext
          apply wp_ite
          · intro hc
            apply wp_pure
            refine ⟨⟨Nat.le_succ_of_le hle, ?_, fun hany => ?_, fun _ => .inr ?_⟩, ?_⟩
            · change t.pos + 1 + more radix.valid underscore (src.drop (t.pos + 1)) = _
              rw [← hlen, hnext, hrest]
              change _ = t.pos + more radix.valid underscore (underscore :: c :: u)
              rw [more_sep (show (c :: u).head?.any radix.valid = true from hc)]
              omega
            · have := hsome hany
              change st.pos < t.pos + 1
              omega
            · change (src.drop (t.pos + 1)).head?.any radix.valid = true
              rw [hnext]
              exact hc
            · change src.length - (t.pos + 1) < src.length - t.pos
              omega
          · intro hc
            rw [Bool.not_eq_true] at hc
            apply wp_ite
            · intro _
              apply wp_bind
              apply wp_modify
              apply wp_invalidNumber
              exact ⟨hfail hc, t.pos + 1, _, rfl, hlt'⟩
            · intro _
              apply wp_invalidNumber
              exact ⟨hfail hc, t.pos, _, rfl, hlt⟩
      · intro hunder
        apply wp_ite
        · intro hb
          apply wp_bind
          apply wp_modify
          apply wp_pure
          refine ⟨⟨Nat.le_succ_of_le hle, ?_, fun _ => Nat.lt_succ_of_le hle, by rintro ⟨⟩⟩, ?_⟩
          · change t.pos + 1 + more radix.valid underscore (src.drop (t.pos + 1)) = _
            rw [← hlen, hnext, hrest, more_cons hb]
            omega
          · change src.length - (t.pos + 1) < src.length - t.pos
            omega
        · intro hb
          rw [Bool.not_eq_true] at hb
          apply wp_pure
          exact hdone (by rw [hrest]; exact more_stop hb hunder) (by rw [hrest]; exact hb)
  · omega
  · exact ⟨Nat.le_refl _, rfl, by rintro ⟨⟩, fun _ => .inl rfl⟩

theorem radix_facts {x : UInt8} (hx : x ∈ radixLetters) : (radixOf x).valid underscore = false ∧
    ((radixOf x).radixName = "hexadecimal" → ∀ b, isDigit b = true → (radixOf x).valid b = true) := by
  obtain h | h | h := radixLetters_cases hx
  · have hhex : (radixOf x).valid = isHex := (radixOf_hex h).2
    rw [hhex]
    refine ⟨by decide, fun _ b hb => ?_⟩
    unfold isHex
    rw [hb]
    rfl
  · obtain rfl | rfl := h
    · exact ⟨by decide, fun hname => absurd hname (by decide)⟩
    · exact ⟨by decide, fun hname => absurd hname (by decide)⟩
  · obtain rfl | rfl := h
    · exact ⟨by decide, fun hname => absurd hname (by decide)⟩
    · exact ⟨by decide, fun hname => absurd hname (by decide)⟩

theorem wp_scanRadixNumber {x : UInt8} {body : List UInt8} (hrest : src.drop st.pos = ascii '0' :: x :: body)
    (hx : x ∈ radixLetters) :
    wp (scanRadixNumber src st.pos (radixOf x))
      (fun tok t => 0 < more (radixOf x).valid underscore body ∧
        Scanned st (more (radixOf x).valid underscore body + 2) tok t ∧
        Follows (body.drop (more (radixOf x).valid underscore body)))
      (fun e _ => (0 < more (radixOf x).valid underscore body →
        ¬ Follows (body.drop (more (radixOf x).valid underscore body))) ∧ Misplaced src e) st := by
  obtain ⟨hunder, hhex⟩ := radix_facts hx
  obtain ⟨-, hnext, hlt⟩ := drop_cons hrest
  obtain ⟨-, hbody, hlt'⟩ := drop_cons hnext
  have hbehind (n : ℕ) : src.drop (st.pos + 2 + n) = body.drop n := by rw [← List.drop_drop, ← hbody]
  unfold scanRadixNumber
  apply wp_bind
  apply wp_modify
  apply wp_seq
  · apply wp_mono (wp_radixDigits hunder)
    · intro any t h
      exact h
    · rintro e t ⟨hdangling, he⟩
      change (src.drop (st.pos + 2 + more (radixOf x).valid underscore (src.drop (st.pos + 2)))).head? = _ at hdangling
      rw [hbody, hbehind] at hdangling
      exact ⟨fun _ => not_follows_of_blocked (.inl hdangling), he⟩
  rintro any t ⟨ht, hany, hstop⟩
  change t.pos = st.pos + 2 + more (radixOf x).valid underscore (src.drop (st.pos + 2)) at ht
  change any = true ↔ 0 < more (radixOf x).valid underscore (src.drop (st.pos + 2)) at hany
  rw [hbody] at ht hany
  have hdrop : src.drop t.pos = body.drop (more (radixOf x).valid underscore body) := by rw [ht, hbehind]
  apply wp_bind
  apply wp_peek
  rw [hdrop] at hstop ⊢
  apply wp_ite
  · rintro ⟨-, hdigit⟩
    apply wp_bind
    apply wp_modify
    apply wp_invalidNumber
    refine ⟨fun _ => not_follows_of_blocked (.inr (.inl hdigit)), t.pos, _, rfl, ?_⟩
    cases hlast : body.drop (more (radixOf x).valid underscore body) with
    | nil =>
      rw [hlast] at hdigit
      cases hdigit
    | cons b u => exact (drop_cons (hdrop.trans hlast)).2.2
  · intro hno
    apply wp_ite
    · intro hempty
      exact ⟨fun hpos => absurd (hany.mpr hpos) hempty, st.pos + 1, _, rfl, hlt'⟩
    · intro hsome
      rw [not_not] at hsome
      have hpos := hany.mp hsome
      have hskip : (src.drop st.pos).drop (more (radixOf x).valid underscore body + 2) =
          body.drop (more (radixOf x).valid underscore body) := by rw [hrest]; rfl
      have hle : more (radixOf x).valid underscore body + 2 ≤ (src.drop st.pos).length := by
        rw [hrest]
        exact Nat.add_le_add_right (more_le_length body) 2
      have ht' : t.pos = st.pos + (more (radixOf x).valid underscore body + 2) := by omega
      have hverified := wp_verified (radixOf x).literalMsg ht' (Nat.succ_pos _) hle
      rw [hskip] at hverified
      apply wp_mono hverified
      · rintro tok t' ⟨hscanned, hfollows⟩
        refine ⟨hpos, hscanned, hfollows.resolve_right fun hdigit => ?_⟩
        cases hlast : (body.drop (more (radixOf x).valid underscore body)).head? with
        | none =>
          rw [hlast] at hdigit
          cases hdigit
        | some b =>
          rw [hlast] at hdigit
          have hb := hstop b hlast
          have hname : (radixOf x).radixName = "hexadecimal" := by
            by_contra hname
            rw [hlast] at hno
            exact hno ⟨hname, hdigit⟩
          rw [hhex hname b hdigit] at hb
          cases hb
      · rintro e t' ⟨hnot, he⟩
        exact ⟨fun _ => hnot, he⟩

/-- The longest literal is taken, or refused where none may end. -/
theorem wp_scanNumber (hstart : StartsNumber (src.drop st.pos)) :
    wp (scanNumber src)
      (fun tok t => Scanned st (numeralLen (src.drop st.pos)) tok t ∧
        (MayFollow ((src.drop st.pos).take (numeralLen (src.drop st.pos)))
            ((src.drop st.pos).drop (numeralLen (src.drop st.pos))) ∨ ImaginaryThenDigit (src.drop st.pos)))
      (fun e _ => ¬ MayFollow ((src.drop st.pos).take (numeralLen (src.drop st.pos)))
          ((src.drop st.pos).drop (numeralLen (src.drop st.pos))) ∧ Misplaced src e) st := by
  obtain ⟨rest, hrest⟩ : ∃ rest, rest = src.drop st.pos := ⟨_, rfl⟩
  have hdecimal (hlen : numeralLen rest = decimalLen rest)
      (hor : ¬ (rest.head? = some (ascii '0') ∧ (rest.drop 1).head? = some (ascii 'o'))) :
      wp (scanDecimal src st.pos)
        (fun tok t => Scanned st (numeralLen rest) tok t ∧
          (MayFollow (rest.take (numeralLen rest)) (rest.drop (numeralLen rest)) ∨ ImaginaryThenDigit rest))
        (fun e _ => ¬ MayFollow (rest.take (numeralLen rest)) (rest.drop (numeralLen rest)) ∧ Misplaced src e) st := by
    have hscan := wp_scanDecimal hstart
    rw [← hrest, ← hlen] at hscan
    apply wp_mono hscan
    · rintro tok t ⟨hscanned, hfollows | ⟨hsuffix, hdigit⟩⟩
      · refine ⟨hscanned, .inl ⟨hfollows, ?_⟩⟩
        rintro ⟨htext, hword⟩
        apply hor
        have hsplit := List.take_append_drop (numeralLen rest) rest
        rw [htext] at hsplit
        rw [← hsplit]
        refine ⟨rfl, ?_⟩
        change (rest.drop (numeralLen rest)).head? = _
        cases hbehind : rest.drop (numeralLen rest) with
        | nil =>
          rw [hbehind] at hword
          cases hword
        | cons b u =>
          rw [hbehind] at hword
          have ho : utf8 "or" = [ascii 'o', ascii 'r'] := rfl
          rw [ho] at hword
          exact congrArg some (word_head hword).symm
      · refine ⟨hscanned, .inr ⟨rest.take (numeralLen rest), ?_, hsuffix, ?_⟩⟩
        · rw [← hrest] at hstart
          exact (longest_iff hstart _).mpr rfl
        · rw [List.length_take, Nat.min_eq_left (numeralLen_le_length rest)]
          exact hdigit
    · rintro e t ⟨hnot, he⟩
      exact ⟨fun h => hnot h.1, he⟩
  rw [← hrest] at hstart ⊢
  unfold scanNumber
  apply wp_bind
  apply wp_gets
  cases hfirst : src.drop st.pos with
  | nil =>
    rw [hrest, hfirst] at hstart
    obtain h | ⟨h, -⟩ := hstart <;> cases h
  | cons first u =>
    obtain ⟨hget, hnext, -⟩ := drop_cons hfirst
    have hexpect : wp (expectPeek src) (fun b t => b = first ∧ t = st) (fun _ _ => False) st := by
      unfold expectPeek
      apply wp_bind
      apply wp_gets
      unfold wp byteAt
      dsimp only
      rw [hget]
      exact ⟨rfl, rfl⟩
    apply wp_seq (wp_mono hexpect (fun _ _ h => h) fun _ _ h => h.elim)
    rintro _ _ ⟨rfl, rfl⟩
    apply wp_bind
    apply wp_gets
    rw [getElem?_of_drop u hnext]
    rw [hfirst] at hrest
    subst hrest
    cases u with
    | nil => exact hdecimal rfl fun h => by cases h.2
    | cons x body =>
      apply wp_ite
      · rintro ⟨rfl, hx⟩
        have hscan := wp_scanRadixNumber hfirst hx
        apply wp_mono hscan
        · rintro tok t ⟨hpos, hscanned, hfollows⟩
          rw [numeralLen_radix hx hpos]
          refine ⟨hscanned, .inl ⟨hfollows, ?_⟩⟩
          rintro ⟨htext, -⟩
          cases htext
        · rintro e t ⟨hnot, he⟩
          refine ⟨?_, he⟩
          by_cases hpos : 0 < more (radixOf x).valid underscore body
          · rw [numeralLen_radix hx hpos]
            exact fun h => hnot hpos h.1
          · have hlen : numeralLen (ascii '0' :: x :: body) = 1 :=
              (if_neg fun h => hpos h.2.2).trans (decimalLen_radix hx body)
            rw [hlen]
            exact not_mayFollow_letter hx
      · intro hradix
        apply hdecimal
        · apply if_neg
          exact fun h => hradix ⟨h.1, h.2.1⟩
        · rintro ⟨hzero, ho⟩
          apply hradix
          have ho' : x = ascii 'o' := Option.some.inj ho
          rw [ho']
          exact ⟨Option.some.inj hzero, by decide⟩

/-- A result that is a token for `text`, which the source has at the cursor. -/
def Takes (src : List UInt8) (st : Scanner) (text : List UInt8) (r : Except LexError Token) (t : Scanner) : Prop :=
  text <+: src.drop st.pos ∧ ∃ tok, r = .ok tok ∧ Scanned st text.length tok t

theorem takes_iff {n : ℕ} {tok : Token} (hn : n ≤ (src.drop st.pos).length) (hscanned : Scanned st n tok t)
    (text : List UInt8) : Takes src st text (.ok tok) t ↔ text = (src.drop st.pos).take n := by
  constructor
  · rintro ⟨hpre, tok', -, hscanned'⟩
    have hlen : text.length = n := by
      have := hscanned.2.symm.trans hscanned'.2
      omega
    rw [← hlen]
    exact List.prefix_iff_eq_take.mp hpre
  · rintro rfl
    refine ⟨List.take_prefix _ _, tok, rfl, ?_⟩
    rw [List.length_take, Nat.min_eq_left hn]
    exact hscanned

/-- Unless a digit follows its suffix directly, a number is taken with `text` exactly when that is the longest literal and
what follows may follow; an error is placed inside the source. -/
theorem number_scanned (hstart : StartsNumber (src.drop st.pos)) :
    ∃ r t, scanNumber src st = .ok (r, t) ∧
      (¬ ImaginaryThenDigit (src.drop st.pos) → ∀ text, Takes src st text r t ↔
        Longest text (src.drop st.pos) ∧ MayFollow text ((src.drop st.pos).drop text.length)) ∧
      ∀ e, r = .error e → ∃ pos message, e = .invalidNumber pos message ∧ pos.toNat < src.length := by
  obtain ⟨r, t, hrun, hok, herror⟩ := exists_of_wp (wp_scanNumber hstart)
  have hlen := numeralLen_le_length (src.drop st.pos)
  have hbehind (text : List UInt8) (h : Longest text (src.drop st.pos)) :
      text = (src.drop st.pos).take (numeralLen (src.drop st.pos)) ∧ text.length = numeralLen (src.drop st.pos) := by
    have htext := (longest_iff hstart text).mp h
    refine ⟨htext, ?_⟩
    rw [htext, List.length_take, Nat.min_eq_left hlen]
  refine ⟨r, t, hrun, ?_, ?_⟩
  · intro hslip text
    cases r with
    | ok tok =>
      obtain ⟨hscanned, hfollows⟩ := hok tok rfl
      rw [takes_iff hlen hscanned, longest_iff hstart]
      constructor
      · rintro rfl
        rw [List.length_take, Nat.min_eq_left hlen]
        exact ⟨rfl, hfollows.resolve_right hslip⟩
      · exact fun h => h.1
    | error e =>
      apply iff_of_false
      · rintro ⟨-, tok, htok, -⟩
        cases htok
      · rintro ⟨hlongest, hfollows⟩
        obtain ⟨htext, hlength⟩ := hbehind text hlongest
        rw [hlength] at hfollows
        rw [htext] at hfollows
        exact (herror e rfl).1 hfollows
  · rintro e rfl
    obtain ⟨-, pos, message, he, hpos⟩ := herror e rfl
    refine ⟨_, message, he, ?_⟩
    have hcut : pos.toUInt32.toNat = pos % 2 ^ 32 := UInt32.toNat_ofNat'
    have := Nat.mod_le pos (2 ^ 32)
    omega

end Scanning

/-- A float that a word follows. -/
theorem float_scanned : ∃ r t, scanNumber (utf8 "1e5if") Scanner.new = .ok (r, t) ∧
    Takes (utf8 "1e5if") Scanner.new (utf8 "1e5") r t := by
  have hstart : StartsNumber ((utf8 "1e5if").drop Scanner.new.pos) := .inl (by decide)
  obtain ⟨r, t, hrun, hiff, -⟩ := number_scanned hstart
  refine ⟨r, t, hrun, (hiff ?_ _).mpr ⟨(longest_iff hstart _).mpr (by decide), .inr ⟨"if", by decide, by decide⟩, ?_⟩⟩
  · rintro ⟨text, hlongest, hsuffix, -⟩
    rw [(longest_iff hstart text).mp hlongest] at hsuffix
    exact absurd hsuffix (by decide)
  · exact fun h => absurd h.1 (by decide)

/-- A number is taken with `text` exactly when that is the longest literal and any of the words follows. -/
def TakenByGrammar (src : List UInt8) (st : Scanner) : Prop :=
  StartsNumber (src.drop st.pos) → ∃ r t, scanNumber src st = .ok (r, t) ∧
    ∀ text, Takes src st text r t ↔ Longest text (src.drop st.pos) ∧ Follows ((src.drop st.pos).drop text.length)

/-- A lone zero and `or` are the start of an octal literal. -/
theorem zero_or_refused : ¬ TakenByGrammar (utf8 "0or 1") Scanner.new := by
  intro h
  have hstart : StartsNumber ((utf8 "0or 1").drop Scanner.new.pos) := .inl (by decide)
  have hlongest : Longest [ascii '0'] ((utf8 "0or 1").drop Scanner.new.pos) := (longest_iff hstart _).mpr (by decide)
  obtain ⟨r, t, hrun, hiff⟩ := h hstart
  obtain ⟨r', t', hrun', hok, -⟩ := exists_of_wp (wp_scanNumber hstart)
  obtain ⟨-, tok, htok, -⟩ := (hiff _).mpr ⟨hlongest, .inr ⟨"or", by decide, by decide⟩⟩
  have hsame := Except.ok.inj (hrun.symm.trans hrun')
  obtain ⟨-, hfollows | ⟨text, htext, hsuffix, -⟩⟩ := hok tok ((congrArg Prod.fst hsame).symm.trans htok)
  · exact hfollows.2 (by decide)
  · rw [(longest_iff hstart text).mp htext] at hsuffix
    exact absurd hsuffix (by decide)

end WeavePy.Lexer
