import WeavePy.Lexer.Literals
import WeavePy.Lib.Separated

/-!
The grammar of numeric literals, and the longest literal that a text starts with.
-/

namespace WeavePy.Lexer

open SeparatedRuns

/-! ### The grammar -/

def underscore : UInt8 := ascii '_'

/-- Digits, underscores only between two. -/
abbrev Digits (digit : UInt8 → Bool) : List UInt8 → Prop := Separated digit underscore

def isZero (b : UInt8) : Bool := b = ascii '0'

def isBinary (b : UInt8) : Bool := b = ascii '0' || b = ascii '1'

inductive DecInteger : List UInt8 → Prop
  | nonzero {d : UInt8} {t : List UInt8} (h : Digits isDigit (d :: t)) (hd : d ≠ ascii '0') : DecInteger (d :: t)
  | zeros {t : List UInt8} (h : Digits isZero t) : DecInteger t

/-- Digits, an underscore before the first or not. -/
def Body (digit : UInt8 → Bool) (t : List UInt8) : Prop := Digits digit t ∨ ∃ t', t = underscore :: t' ∧ Digits digit t'

inductive RadixInteger : List UInt8 → Prop
  | hex {x : UInt8} {t : List UInt8} (hx : x = ascii 'x' ∨ x = ascii 'X') (h : Body isHex t) :
    RadixInteger (ascii '0' :: x :: t)
  | octal {o : UInt8} {t : List UInt8} (ho : o = ascii 'o' ∨ o = ascii 'O') (h : Body isOctal t) :
    RadixInteger (ascii '0' :: o :: t)
  | binary {b : UInt8} {t : List UInt8} (hb : b = ascii 'b' ∨ b = ascii 'B') (h : Body isBinary t) :
    RadixInteger (ascii '0' :: b :: t)

inductive Exponent : List UInt8 → Prop
  | mk {e : UInt8} {sign t : List UInt8} (he : e = ascii 'e' ∨ e = ascii 'E')
    (hsign : sign = [] ∨ sign = [ascii '+'] ∨ sign = [ascii '-']) (h : Digits isDigit t) : Exponent (e :: (sign ++ t))

inductive PointFloat : List UInt8 → Prop
  | fraction {t t' : List UInt8} (h : t = [] ∨ Digits isDigit t) (h' : Digits isDigit t') :
    PointFloat (t ++ ascii '.' :: t')
  | point {t : List UInt8} (h : Digits isDigit t) : PointFloat (t ++ [ascii '.'])

inductive FloatNumber : List UInt8 → Prop
  | point {t : List UInt8} (h : PointFloat t) : FloatNumber t
  | exponent {t x : List UInt8} (h : Digits isDigit t ∨ PointFloat t) (hx : Exponent x) : FloatNumber (t ++ x)

inductive ImagNumber : List UInt8 → Prop
  | mk {t : List UInt8} {j : UInt8} (h : FloatNumber t ∨ Digits isDigit t) (hj : j = ascii 'j' ∨ j = ascii 'J') :
    ImagNumber (t ++ [j])

def Numeral (t : List UInt8) : Prop := DecInteger t ∨ RadixInteger t ∨ FloatNumber t ∨ ImagNumber t

/-- The longest numeral that `rest` starts with. -/
def Longest (text rest : List UInt8) : Prop :=
  text <+: rest ∧ Numeral text ∧ ∀ t, t <+: rest → Numeral t → t.length ≤ text.length

/-- A digit, or a point and a digit. -/
def StartsNumber (rest : List UInt8) : Prop :=
  rest.head?.any isDigit = true ∨ rest.head? = some (ascii '.') ∧ (rest.drop 1).head?.any isDigit = true

/-! ### How long the longest one is -/

def pointLen (rest : List UInt8) : ℕ :=
  if rest.head? = some (ascii '.') then runLen isDigit underscore (rest.drop 1) + 1 else 0

def signLen (rest : List UInt8) : ℕ :=
  if rest.head? = some (ascii '+') ∨ rest.head? = some (ascii '-') then 1 else 0

def startsExponent (rest : List UInt8) : Prop := rest.head? = some (ascii 'e') ∨ rest.head? = some (ascii 'E')

instance (rest : List UInt8) : Decidable (startsExponent rest) := inferInstanceAs (Decidable (_ ∨ _))

/-- The digits of an exponent start here. -/
def exponentDigits (rest : List UInt8) : List UInt8 := rest.drop (1 + signLen (rest.drop 1))

def exponentLen (rest : List UInt8) : ℕ :=
  if startsExponent rest ∧ (exponentDigits rest).head?.any isDigit then
    1 + signLen (rest.drop 1) + runLen isDigit underscore (exponentDigits rest)
  else 0

def suffixLen (rest : List UInt8) : ℕ :=
  if rest.head? = some (ascii 'j') ∨ rest.head? = some (ascii 'J') then 1 else 0

/-- What makes a number more than an integer. -/
def tailLen (rest : List UInt8) : ℕ :=
  let point := pointLen rest
  let exponent := exponentLen (rest.drop point)
  point + exponent + suffixLen (rest.drop (point + exponent))

def decimalLen (rest : List UInt8) : ℕ :=
  let int := runLen isDigit underscore rest
  let tail := tailLen (rest.drop int)
  if tail = 0 ∧ rest.head? = some (ascii '0') then runLen isZero underscore rest else int + tail

def radixLetters : List UInt8 := "xXoObB".toList.map ascii

def numeralLen (rest : List UInt8) : ℕ :=
  match rest with
  | zero :: letter :: body =>
    if zero = ascii '0' ∧ letter ∈ radixLetters ∧ 0 < more (radixOf letter).valid underscore body then
      more (radixOf letter).valid underscore body + 2
    else decimalLen rest
  | _ => decimalLen rest

section Stops

variable {c : UInt8} {t u rest : List UInt8}

/-- Neither a digit nor an underscore. -/
def Stop (u : List UInt8) : Prop := more isDigit underscore u = 0

theorem stop_cons (h : isDigit c = false) (hc : c ≠ underscore) : Stop (c :: u) := more_stop h hc

theorem stop_point : Stop (ascii '.' :: u) := stop_cons (by decide) (by decide)

theorem stop_exponent (h : c = ascii 'e' ∨ c = ascii 'E') : Stop (c :: u) := by
  obtain rfl | rfl := h
  · exact stop_cons (by decide) (by decide)
  · exact stop_cons (by decide) (by decide)

theorem stop_suffix (h : c = ascii 'j' ∨ c = ascii 'J') : Stop (c :: u) := by
  obtain rfl | rfl := h
  · exact stop_cons (by decide) (by decide)
  · exact stop_cons (by decide) (by decide)

theorem digit_not_point (h : isDigit c = true) : c ≠ ascii '.' := by
  rintro rfl
  cases h

theorem digit_not_sign (h : isDigit c = true) : c ≠ ascii '+' ∧ c ≠ ascii '-' := by
  constructor
  · rintro rfl
    cases h
  · rintro rfl
    cases h

theorem isDigit_of_isZero (b : UInt8) (h : isZero b = true) : isDigit b = true := by
  rw [of_decide_eq_true h]
  decide

end Stops

/-! ### No literal is longer -/

section Upper

variable {t x u rest : List UInt8} {c : UInt8}

/-- A fraction, possibly without digits, or none. -/
def Point (t : List UInt8) : Prop := t = [] ∨ ∃ t', t = ascii '.' :: t' ∧ (t' = [] ∨ Digits isDigit t')

theorem pointLen_point (u : List UInt8) : pointLen (ascii '.' :: u) = runLen isDigit underscore u + 1 := if_pos rfl

theorem pointLen_none (h : rest.head? ≠ some (ascii '.')) : pointLen rest = 0 := if_neg h

theorem Point.le (h : Point t) (u : List UInt8) : t.length ≤ pointLen (t ++ u) := by
  obtain rfl | ⟨t', rfl, ht'⟩ := h
  · exact Nat.zero_le _
  · rw [List.cons_append, pointLen_point]
    exact Nat.succ_le_succ (length_le_runLen ht' u)

theorem Point.exact (h : Point t) (hstop : Stop u) (hu : u.head? ≠ some (ascii '.')) :
    pointLen (t ++ u) = t.length := by
  obtain rfl | ⟨t', rfl, ht'⟩ := h
  · exact pointLen_none hu
  · rw [List.cons_append, pointLen_point, runLen_exact ht' hstop]
    rfl

theorem Exponent.head (h : Exponent x) : ∃ e x', x = e :: x' ∧ (e = ascii 'e' ∨ e = ascii 'E') := by
  obtain ⟨he, -, -⟩ := h
  exact ⟨_, _, rfl, he⟩

theorem startsExponent_cons (h : c = ascii 'e' ∨ c = ascii 'E') : startsExponent (c :: u) :=
  h.imp (congrArg some) (congrArg some)

theorem signLen_sign {sign : List UInt8} (hsign : sign = [] ∨ sign = [ascii '+'] ∨ sign = [ascii '-'])
    (h : Digits isDigit t) : signLen (sign ++ (t ++ u)) = sign.length := by
  obtain rfl | rfl | rfl := hsign
  · apply if_neg
    have hdigit := h.append_head u
    rw [List.nil_append]
    rintro (heq | heq)
    · rw [heq] at hdigit
      cases hdigit
    · rw [heq] at hdigit
      cases hdigit
  · exact if_pos (.inl rfl)
  · exact if_pos (.inr rfl)

theorem exponentLen_exponent (h : Exponent x) (u : List UInt8) :
    exponentLen (x ++ u) = x.length + more isDigit underscore u := by
  obtain ⟨he, hsign, ht⟩ := h
  rename_i e sign t
  have hlen := signLen_sign (u := u) hsign ht
  have hdigits : exponentDigits (e :: (sign ++ t) ++ u) = t ++ u := by
    unfold exponentDigits
    rw [List.cons_append, List.drop_one, List.tail_cons, List.append_assoc, hlen, Nat.add_comm, List.drop_succ_cons,
      List.drop_left' rfl]
  unfold exponentLen
  rw [hdigits, if_pos ⟨startsExponent_cons he, ht.append_head u⟩, List.cons_append, List.drop_one, List.tail_cons,
    List.append_assoc, hlen, runLen_append ht, List.length_cons, List.length_append]
  omega

theorem exponentLen_none (h : ¬ startsExponent rest) : exponentLen rest = 0 := if_neg fun h' => h h'.1

/-- An exponent or none. -/
theorem exponent_le (h : x = [] ∨ Exponent x) (u : List UInt8) : x.length ≤ exponentLen (x ++ u) := by
  obtain rfl | h := h
  · exact Nat.zero_le _
  · rw [exponentLen_exponent h]
    exact Nat.le_add_right _ _

theorem exponent_exact (h : x = [] ∨ Exponent x) (hstop : Stop u) (hu : ¬ startsExponent u) :
    exponentLen (x ++ u) = x.length := by
  obtain rfl | h := h
  · exact exponentLen_none hu
  · rw [exponentLen_exponent h, hstop, Nat.add_zero]

theorem exponent_stop (h : Exponent x) (u : List UInt8) : Stop (x ++ u) ∧ (x ++ u).head? ≠ some (ascii '.') := by
  obtain ⟨e, x', rfl, he⟩ := h.head
  refine ⟨stop_exponent he, ?_⟩
  obtain rfl | rfl := he
  · nofun
  · nofun

theorem suffix_stop (h : c = ascii 'j' ∨ c = ascii 'J') (u : List UInt8) :
    Stop (c :: u) ∧ (c :: u).head? ≠ some (ascii '.') ∧ ¬ startsExponent (c :: u) := by
  refine ⟨stop_suffix h, ?_⟩
  obtain rfl | rfl := h
  · exact ⟨nofun, fun h => h.elim nofun nofun⟩
  · exact ⟨nofun, fun h => h.elim nofun nofun⟩

theorem suffixLen_suffix (h : c = ascii 'j' ∨ c = ascii 'J') (u : List UInt8) : suffixLen (c :: u) = 1 :=
  if_pos (h.imp (congrArg some) (congrArg some))

/-- A fraction and an exponent are not longer than the tail. -/
theorem tail_le (ht : Point t) (hx : x = [] ∨ Exponent x) (u : List UInt8) :
    (t ++ x).length ≤ tailLen (t ++ x ++ u) := by
  unfold tailLen
  dsimp only
  obtain rfl | hx := hx
  · rw [List.append_nil]
    have := ht.le u
    omega
  · obtain ⟨hstop, hpoint⟩ := exponent_stop hx u
    rw [List.append_assoc, ht.exact hstop hpoint, List.drop_left' rfl, exponentLen_exponent hx, List.length_append]
    omega

theorem tail_suffix (ht : Point t) (hx : x = [] ∨ Exponent x) (hc : c = ascii 'j' ∨ c = ascii 'J') (u : List UInt8) :
    (t ++ x).length + 1 ≤ tailLen (t ++ x ++ c :: u) := by
  obtain ⟨hstop, hpoint, hexponent⟩ := suffix_stop hc u
  have hpoints : pointLen (t ++ (x ++ c :: u)) = t.length := by
    obtain rfl | hx := hx
    · exact ht.exact hstop hpoint
    · obtain ⟨hstop', hpoint'⟩ := exponent_stop hx (c :: u)
      exact ht.exact hstop' hpoint'
  apply Nat.le_of_eq
  unfold tailLen
  dsimp only
  rw [List.append_assoc, hpoints, List.drop_left' rfl, exponent_exact hx hstop hexponent, ← List.append_assoc,
    ← List.length_append, List.drop_left' rfl, suffixLen_suffix hc]

/-- Digits before a tail that is not empty are counted, and the tail with them. -/
theorem decimal_tail {tail : List UInt8} (ht : t = [] ∨ Digits isDigit t) (hstop : Stop (tail ++ u))
    (htail : tail.length ≤ tailLen (tail ++ u)) (hpos : 0 < tailLen (tail ++ u)) :
    (t ++ tail).length ≤ decimalLen (t ++ tail ++ u) := by
  unfold decimalLen
  dsimp only
  rw [List.append_assoc, runLen_exact ht hstop, List.drop_left' rfl, if_neg fun h => Nat.ne_of_gt hpos h.1, List.length_append]
  omega

/-- An integer is counted even where a tail follows. -/
theorem decimal_integer (h : DecInteger t) (u : List UInt8) : t.length ≤ decimalLen (t ++ u) := by
  unfold decimalLen
  dsimp only
  cases h with
  | nonzero h hd =>
    have hrun := length_le_runLen (.inr h) u
    rw [if_neg fun hzero => hd (Option.some.inj hzero.2)]
    omega
  | zeros h =>
    have hrun := length_le_runLen (.inr h) u
    have hrun' := length_le_runLen (.inr (h.mono isDigit_of_isZero)) u
    split_ifs
    · exact hrun
    · omega

theorem point_parts (h : PointFloat t) :
    ∃ d f, t = d ++ f ∧ (d = [] ∨ Digits isDigit d) ∧ Point f ∧ f.head? = some (ascii '.') := by
  cases h with
  | fraction h h' => exact ⟨_, _, rfl, h, .inr ⟨_, rfl, .inr h'⟩, rfl⟩
  | point h => exact ⟨_, _, rfl, .inr h, .inr ⟨_, rfl, .inl rfl⟩, rfl⟩

theorem stop_of_point (h : t.head? = some (ascii '.')) (u : List UInt8) : Stop (t ++ u) := by
  cases t with
  | nil => cases h
  | cons c t =>
    obtain rfl := Option.some.inj h
    exact stop_point

/-- Digits, a fraction and an exponent, of which the last two are not both missing. -/
theorem float_parts (h : FloatNumber t) :
    ∃ d f x, t = d ++ (f ++ x) ∧ (d = [] ∨ Digits isDigit d) ∧ Point f ∧ (x = [] ∨ Exponent x) ∧ 0 < (f ++ x).length ∧
      ∀ u, Stop (f ++ x ++ u) := by
  cases h with
  | point h =>
    obtain ⟨d, f, rfl, hd, hf, hhead⟩ := point_parts h
    refine ⟨d, f, [], by rw [List.append_nil], hd, hf, .inl rfl, ?_, ?_⟩
    · cases f with
      | nil => cases hhead
      | cons c f => exact Nat.succ_pos _
    · intro u
      rw [List.append_nil]
      exact stop_of_point hhead u
  | exponent h hx =>
    obtain ⟨e, x', rfl, -⟩ := hx.head
    obtain h | h := h
    · exact ⟨_, [], _, rfl, .inr h, .inl rfl, .inr hx, Nat.succ_pos _, fun u => (exponent_stop hx u).1⟩
    · obtain ⟨d, f, rfl, hd, hf, hhead⟩ := point_parts h
      refine ⟨d, f, _, List.append_assoc _ _ _, hd, hf, .inr hx, ?_, ?_⟩
      · rw [List.length_append]
        exact Nat.add_pos_right _ (Nat.succ_pos _)
      · intro u
        rw [List.append_assoc]
        exact stop_of_point hhead _

theorem decimal_float (h : FloatNumber t) (u : List UInt8) : t.length ≤ decimalLen (t ++ u) := by
  obtain ⟨d, f, x, rfl, hd, hf, hx, hpos, hstop⟩ := float_parts h
  have hle := tail_le hf hx u
  exact decimal_tail hd (hstop u) hle (Nat.lt_of_lt_of_le hpos hle)

theorem decimal_imag (h : ImagNumber t) (u : List UInt8) : t.length ≤ decimalLen (t ++ u) := by
  obtain ⟨h, hj⟩ := h
  rename_i t j
  obtain h | h := h
  · obtain ⟨d, f, x, rfl, hd, hf, hx, -, hstop⟩ := float_parts h
    have hle := tail_suffix hf hx hj u
    have hlen : (f ++ x ++ [j]).length ≤ tailLen (f ++ x ++ [j] ++ u) := by
      rw [List.append_assoc _ [j], List.length_append]
      exact hle
    have hstop' : Stop (f ++ x ++ [j] ++ u) := by
      rw [List.append_assoc]
      exact hstop _
    have hdecimal := decimal_tail hd hstop' hlen (by rw [List.append_assoc _ [j]]; exact Nat.lt_of_lt_of_le (Nat.succ_pos _) hle)
    rw [List.append_assoc d]
    exact hdecimal
  · have hle := tail_suffix (t := []) (x := []) (.inl rfl) (.inl rfl) hj u
    exact decimal_tail (.inr h) (stop_suffix hj) hle (Nat.lt_of_lt_of_le (Nat.succ_pos _) hle)

theorem radixOf_hex (h : c = ascii 'x' ∨ c = ascii 'X') : c ∈ radixLetters ∧ (radixOf c).valid = isHex := by
  obtain rfl | rfl := h
  · exact ⟨by decide, rfl⟩
  · exact ⟨by decide, rfl⟩

theorem radixOf_octal (h : c = ascii 'o' ∨ c = ascii 'O') : c ∈ radixLetters ∧ (radixOf c).valid = isOctal := by
  obtain rfl | rfl := h
  · exact ⟨by decide, rfl⟩
  · exact ⟨by decide, rfl⟩

theorem radixOf_binary (h : c = ascii 'b' ∨ c = ascii 'B') : c ∈ radixLetters ∧ (radixOf c).valid = isBinary := by
  obtain rfl | rfl := h
  · exact ⟨by decide, rfl⟩
  · exact ⟨by decide, rfl⟩

theorem radixLetters_cases (h : c ∈ radixLetters) :
    (c = ascii 'x' ∨ c = ascii 'X') ∨ (c = ascii 'o' ∨ c = ascii 'O') ∨ c = ascii 'b' ∨ c = ascii 'B' := by
  have hmem : c ∈ [ascii 'x', ascii 'X', ascii 'o', ascii 'O', ascii 'b', ascii 'B'] := h
  simp only [List.mem_cons, List.not_mem_nil, or_false] at hmem
  tauto

theorem RadixInteger.parts (h : RadixInteger t) :
    ∃ x body, t = ascii '0' :: x :: body ∧ x ∈ radixLetters ∧ Body (radixOf x).valid body := by
  cases h with
  | hex hx h =>
    obtain ⟨hmem, hvalid⟩ := radixOf_hex hx
    exact ⟨_, _, rfl, hmem, hvalid ▸ h⟩
  | octal hx h =>
    obtain ⟨hmem, hvalid⟩ := radixOf_octal hx
    exact ⟨_, _, rfl, hmem, hvalid ▸ h⟩
  | binary hx h =>
    obtain ⟨hmem, hvalid⟩ := radixOf_binary hx
    exact ⟨_, _, rfl, hmem, hvalid ▸ h⟩

theorem radixInteger_mk (hx : c ∈ radixLetters) (h : Body (radixOf c).valid t) : RadixInteger (ascii '0' :: c :: t) := by
  obtain hx | hx | hx := radixLetters_cases hx
  · exact .hex hx ((radixOf_hex hx).2 ▸ h)
  · exact .octal hx ((radixOf_octal hx).2 ▸ h)
  · exact .binary hx ((radixOf_binary hx).2 ▸ h)

theorem body_more {p : UInt8 → Bool} (h : Body p t) (u : List UInt8) :
    t.length ≤ more p underscore (t ++ u) ∧ 0 < more p underscore (t ++ u) := by
  obtain h | ⟨t', rfl, h⟩ := h
  · have hpos : 0 < t.length := by
      cases h <;> exact Nat.succ_pos _
    rw [more_append h]
    omega
  · rw [List.cons_append, more_sep (h.append_head u), more_append h, List.length_cons]
    omega

/-- Before a radix letter there is only a zero. -/
theorem decimalLen_radix (h : c ∈ radixLetters) (u : List UInt8) : decimalLen (ascii '0' :: c :: u) = 1 := by
  have hall : ∀ c ∈ radixLetters, isDigit c = false ∧ c ≠ underscore ∧ isZero c = false ∧ c ≠ ascii '.' ∧ c ≠ ascii 'e' ∧
      c ≠ ascii 'E' ∧ c ≠ ascii 'j' ∧ c ≠ ascii 'J' := by decide +kernel
  obtain ⟨hdigit, hunder, hzero, hpoint, he, he', hj, hj'⟩ := hall c h
  have hhead {d : UInt8} (hd : c ≠ d) : (c :: u).head? ≠ some d := fun heq => hd (Option.some.inj heq)
  have hint : runLen isDigit underscore (ascii '0' :: c :: u) = 1 := by
    rw [runLen_cons (p := isDigit) rfl, more_stop hdigit hunder]
  have hzeros : runLen isZero underscore (ascii '0' :: c :: u) = 1 := by
    rw [runLen_cons (p := isZero) rfl, more_stop hzero hunder]
  have htail : tailLen (c :: u) = 0 := by
    unfold tailLen
    dsimp only
    have hexponent : ¬ startsExponent (c :: u) := fun h => h.elim (hhead he) (hhead he')
    rw [pointLen_none (hhead hpoint), List.drop_zero, exponentLen_none hexponent]
    have hsuffix : suffixLen (c :: u) = 0 := if_neg fun h => h.elim (hhead hj) (hhead hj')
    rw [Nat.add_zero, List.drop_zero, hsuffix]
  unfold decimalLen
  dsimp only
  rw [hint, List.drop_succ_cons, List.drop_zero, htail, if_pos ⟨rfl, rfl⟩, hzeros]

theorem numeralLen_radix (h : c ∈ radixLetters) (hpos : 0 < more (radixOf c).valid underscore u) :
    numeralLen (ascii '0' :: c :: u) = more (radixOf c).valid underscore u + 2 := by
  unfold numeralLen
  exact if_pos ⟨rfl, h, hpos⟩

theorem decimalLen_le (rest : List UInt8) : decimalLen rest ≤ numeralLen rest := by
  unfold numeralLen
  split
  · split_ifs with h
    · obtain ⟨rfl, hletter, -⟩ := h
      rw [decimalLen_radix hletter]
      omega
    · exact Nat.le_refl _
  · exact Nat.le_refl _

theorem numeral_le (h : Numeral t) (u : List UInt8) : t.length ≤ numeralLen (t ++ u) := by
  obtain h | h | h | h := h
  · exact Nat.le_trans (decimal_integer h u) (decimalLen_le _)
  · obtain ⟨x, body, rfl, hx, hbody⟩ := h.parts
    obtain ⟨hle, hpos⟩ := body_more hbody u
    rw [List.cons_append, List.cons_append, numeralLen_radix hx hpos]
    exact Nat.add_le_add_right hle 2
  · exact Nat.le_trans (decimal_float h u) (decimalLen_le _)
  · exact Nat.le_trans (decimal_imag h u) (decimalLen_le _)

end Upper

/-! ### The longest is a literal -/

section Member

variable {rest : List UInt8}

theorem point_take (rest : List UInt8) :
    Point (rest.take (pointLen rest)) ∧ (rest.take (pointLen rest) ≠ [] → rest.head? = some (ascii '.')) := by
  by_cases h : rest.head? = some (ascii '.')
  · cases rest with
    | nil => cases h
    | cons c rest =>
      obtain rfl := Option.some.inj h
      rw [pointLen_point, List.take_succ_cons]
      exact ⟨.inr ⟨_, rfl, take_runLen rest⟩, fun _ => rfl⟩
  · rw [pointLen_none h]
    exact ⟨.inl rfl, fun hne => absurd rfl hne⟩

theorem exponent_take (rest : List UInt8) :
    rest.take (exponentLen rest) = [] ∨ Exponent (rest.take (exponentLen rest)) := by
  by_cases h : startsExponent rest ∧ (exponentDigits rest).head?.any isDigit = true
  · obtain ⟨hstart, hdigits⟩ := h
    have hlen : exponentLen rest = 1 + signLen (rest.drop 1) + runLen isDigit underscore (exponentDigits rest) :=
      if_pos ⟨hstart, hdigits⟩
    cases rest with
    | nil => exact .inl (List.take_nil)
    | cons e rest =>
      have he : e = ascii 'e' ∨ e = ascii 'E' := hstart.imp Option.some.inj Option.some.inj
      have hdrop : exponentDigits (e :: rest) = rest.drop (signLen rest) := by
        unfold exponentDigits
        rw [List.drop_one, List.tail_cons, Nat.add_comm, List.drop_succ_cons]
      have hsign : rest.take (signLen rest) = [] ∨ rest.take (signLen rest) = [ascii '+'] ∨
          rest.take (signLen rest) = [ascii '-'] := by
        unfold signLen
        split_ifs with hsigned
        · cases rest with
          | nil => exact .inl rfl
          | cons s rest =>
            obtain h | h := hsigned
            · exact .inr (.inl (congrArg (fun s => [s]) (Option.some.inj h)))
            · exact .inr (.inr (congrArg (fun s => [s]) (Option.some.inj h)))
        · exact .inl rfl
      rw [hdrop] at hdigits hlen
      have htake : (e :: rest).take (exponentLen (e :: rest)) =
          e :: (rest.take (signLen rest) ++ (rest.drop (signLen rest)).take
            (runLen isDigit underscore (rest.drop (signLen rest)))) := by
        rw [hlen, List.drop_one, List.tail_cons, Nat.add_assoc, Nat.add_comm 1, List.take_succ_cons, List.take_add]
      rw [htake]
      exact .inr ⟨he, hsign, separated_take_runLen hdigits⟩
  · have hzero : exponentLen rest = 0 := if_neg h
    rw [hzero]
    exact .inl rfl

theorem suffix_take (rest : List UInt8) :
    rest.take (suffixLen rest) = [] ∨ ∃ j, rest.take (suffixLen rest) = [j] ∧ (j = ascii 'j' ∨ j = ascii 'J') := by
  unfold suffixLen
  split_ifs with h
  · cases rest with
    | nil => exact .inl rfl
    | cons j rest => exact .inr ⟨j, rfl, h.imp Option.some.inj Option.some.inj⟩
  · exact .inl rfl

theorem take_tailLen (rest : List UInt8) : rest.take (tailLen rest) =
    rest.take (pointLen rest) ++ (rest.drop (pointLen rest)).take (exponentLen (rest.drop (pointLen rest))) ++
      (rest.drop (pointLen rest + exponentLen (rest.drop (pointLen rest)))).take
        (suffixLen (rest.drop (pointLen rest + exponentLen (rest.drop (pointLen rest))))) := by
  unfold tailLen
  rw [List.take_add, List.take_add]

/-- Digits, a fraction and an exponent that make a number are one. -/
theorem float_of_parts {d f x : List UInt8} (hd : d = [] ∨ Digits isDigit d) (hf : Point f)
    (hx : x = [] ∨ Exponent x) (hnone : f ≠ [] ∨ x ≠ []) (hdigits : d ≠ [] ∨ ∃ c t, f = ascii '.' :: c :: t) :
    FloatNumber (d ++ f ++ x) := by
  have hpoint (hne : f ≠ []) : PointFloat (d ++ f) := by
    obtain rfl | ⟨t, rfl, ht⟩ := hf
    · exact absurd rfl hne
    · obtain rfl | ht := ht
      · obtain rfl | hd := hd
        · obtain h | ⟨c, t, h⟩ := hdigits
          · exact absurd rfl h
          · cases h
        · exact .point hd
      · exact .fraction hd ht
  by_cases hne : f = []
  · subst hne
    rw [List.append_nil]
    obtain rfl | hx := hx
    · exact (hnone.elim (fun h => h rfl) fun h => h rfl).elim
    · obtain rfl | hd := hd
      · obtain h | ⟨c, t, h⟩ := hdigits
        · exact absurd rfl h
        · cases h
      · exact .exponent (.inl hd) hx
  · obtain rfl | hx := hx
    · rw [List.append_nil]
      exact .point (hpoint hne)
    · exact .exponent (.inr (hpoint hne)) hx

theorem numeral_of_parts {d f x s : List UInt8} (hd : d = [] ∨ Digits isDigit d) (hf : Point f)
    (hx : x = [] ∨ Exponent x) (hs : s = [] ∨ ∃ j, s = [j] ∧ (j = ascii 'j' ∨ j = ascii 'J')) (hne : f ++ x ++ s ≠ [])
    (hdigits : d ≠ [] ∨ ∃ c t, f = ascii '.' :: c :: t) : Numeral (d ++ (f ++ x ++ s)) := by
  have hfloat (hnone : f ≠ [] ∨ x ≠ []) : FloatNumber (d ++ (f ++ x)) := by
    rw [← List.append_assoc]
    exact float_of_parts hd hf hx hnone hdigits
  have hboth : (f ≠ [] ∨ x ≠ []) ∨ f = [] ∧ x = [] := by
    by_cases h : f = [] ∧ x = []
    · exact .inr h
    · exact .inl (not_and_or.mp h)
  obtain rfl | ⟨j, rfl, hj⟩ := hs
  · rw [List.append_nil] at hne ⊢
    obtain hnone | ⟨rfl, rfl⟩ := hboth
    · exact .inr (.inr (.inl (hfloat hnone)))
    · exact absurd rfl hne
  · rw [← List.append_assoc]
    apply Or.inr
    apply Or.inr
    apply Or.inr
    apply ImagNumber.mk _ hj
    obtain hnone | ⟨rfl, rfl⟩ := hboth
    · exact .inl (hfloat hnone)
    · rw [List.append_nil, List.append_nil]
      obtain rfl | hd := hd
      · obtain h | ⟨c, t, h⟩ := hdigits
        · exact absurd rfl h
        · cases h
      · exact .inr hd

theorem take_ne_nil {n : ℕ} (hn : 0 < n) (h : rest ≠ []) : rest.take n ≠ [] := by
  intro htake
  obtain hzero | hnil := List.take_eq_nil_iff.mp htake
  · omega
  · exact h hnil

/-- A number that starts with its point has a digit behind it. -/
theorem starts_cases (hstart : StartsNumber rest) : rest.head?.any isDigit = true ∨
    ∃ c rest', rest = ascii '.' :: c :: rest' ∧ isDigit c = true := by
  obtain h | ⟨hpoint, hnext⟩ := hstart
  · exact .inl h
  · cases rest with
    | nil => cases hpoint
    | cons b rest =>
      obtain rfl := Option.some.inj hpoint
      cases rest with
      | nil => cases hnext
      | cons c rest => exact .inr ⟨c, rest, rfl, hnext⟩

theorem numeral_take_tail (hstart : StartsNumber rest)
    (htail : tailLen (rest.drop (runLen isDigit underscore rest)) ≠ 0) :
    Numeral (rest.take (runLen isDigit underscore rest + tailLen (rest.drop (runLen isDigit underscore rest)))) := by
  rw [List.take_add, take_tailLen]
  apply numeral_of_parts (take_runLen rest) (point_take _).1 (exponent_take _) (suffix_take _)
  · rw [← take_tailLen]
    apply take_ne_nil (Nat.pos_of_ne_zero htail)
    intro hnil
    rw [hnil] at htail
    exact htail rfl
  · obtain hdigit | ⟨c, rest', rfl, hc⟩ := starts_cases hstart
    · apply Or.inl
      apply take_ne_nil (runLen_pos hdigit)
      rintro rfl
      cases hdigit
    · have hint : runLen isDigit underscore (ascii '.' :: c :: rest') = 0 := runLen_zero rfl
      rw [hint, List.drop_zero, pointLen_point, runLen_cons hc, List.take_succ_cons, List.take_succ_cons]
      exact .inr ⟨_, _, rfl⟩

theorem numeral_take_decimal (hstart : StartsNumber rest) : Numeral (rest.take (decimalLen rest)) := by
  unfold decimalLen
  dsimp only
  by_cases htail : tailLen (rest.drop (runLen isDigit underscore rest)) = 0
  · obtain hdigit | ⟨c, rest', rfl, hc⟩ := starts_cases hstart
    · split_ifs with hzero
      · have hzeros : rest.head?.any isZero = true := by
          rw [hzero.2]
          rfl
        exact .inl (.zeros (separated_take_runLen hzeros))
      · rw [htail, Nat.add_zero]
        cases rest with
        | nil => cases hdigit
        | cons c rest =>
          have hint : Separated isDigit underscore _ := separated_take_runLen hdigit
          have hc : isDigit c = true := hdigit
          rw [runLen_cons hc, List.take_succ_cons] at hint ⊢
          apply Or.inl
          apply DecInteger.nonzero hint
          rintro rfl
          exact hzero ⟨htail, rfl⟩
    · have hint : runLen isDigit underscore (ascii '.' :: c :: rest') = 0 := runLen_zero rfl
      rw [hint, List.drop_zero] at htail
      have hpoint : pointLen (ascii '.' :: c :: rest') = _ := pointLen_point _
      unfold tailLen at htail
      dsimp only at htail
      omega
  · rw [if_neg fun h => htail h.1]
    exact numeral_take_tail hstart htail

theorem numeral_take (hstart : StartsNumber rest) : Numeral (rest.take (numeralLen rest)) := by
  unfold numeralLen
  split
  · split_ifs with h
    · obtain ⟨rfl, hletter, hpos⟩ := h
      rename_i letter body
      rw [List.take_succ_cons, List.take_succ_cons]
      apply Or.inr
      apply Or.inl
      apply radixInteger_mk hletter
      cases hhead : body.head?.any (radixOf letter).valid with
      | true => exact .inl (separated_take hhead)
      | false =>
        cases body with
        | nil => exact absurd hpos (Nat.lt_irrefl 0)
        | cons b body =>
          have hb : (radixOf letter).valid b = false := hhead
          by_cases hsep : b = underscore ∧ body.head?.any (radixOf letter).valid = true
          · obtain ⟨rfl, hnext⟩ := hsep
            rw [more_sep hnext, List.take_succ_cons]
            exact .inr ⟨_, rfl, separated_take hnext⟩
          · have hzero : more (radixOf letter).valid underscore (b :: body) = 0 := by
              apply if_neg
              rintro (h | h)
              · rw [hb] at h
                cases h
              · exact hsep h
            omega
    · exact numeral_take_decimal hstart
  · exact numeral_take_decimal hstart

theorem numeral_ne_nil {t : List UInt8} (h : Numeral t) : t ≠ [] := by
  obtain h | h | h | h := h
  · cases h with
    | nonzero h hd => exact List.cons_ne_nil _ _
    | zeros h => cases h <;> exact List.cons_ne_nil _ _
  · obtain ⟨x, body, rfl, -⟩ := h.parts
    exact List.cons_ne_nil _ _
  · obtain ⟨d, f, x, rfl, -, -, -, hpos, -⟩ := float_parts h
    intro hnil
    rw [(List.append_eq_nil_iff.mp hnil).2] at hpos
    cases hpos
  · obtain ⟨h, hj⟩ := h
    exact List.append_ne_nil_of_right_ne_nil _ (List.cons_ne_nil _ _)

theorem pointLen_le_length (rest : List UInt8) : pointLen rest ≤ rest.length := by
  unfold pointLen
  split_ifs with h
  · cases rest with
    | nil => cases h
    | cons c rest => exact Nat.succ_le_succ (runLen_le_length rest)
  · exact Nat.zero_le _

theorem exponentLen_le_length (rest : List UInt8) : exponentLen rest ≤ rest.length := by
  unfold exponentLen
  split_ifs with h
  · have hrun : runLen isDigit underscore _ ≤ _ := runLen_le_length (exponentDigits rest)
    have hpos : 0 < (exponentDigits rest).length := by
      cases hdigits : exponentDigits rest with
      | nil =>
        rw [hdigits] at h
        cases h.2
      | cons c l => exact Nat.succ_pos _
    unfold exponentDigits at hrun hpos ⊢
    rw [List.length_drop] at hrun hpos
    omega
  · exact Nat.zero_le _

theorem suffixLen_le_length (rest : List UInt8) : suffixLen rest ≤ rest.length := by
  unfold suffixLen
  split_ifs with h
  · cases rest with
    | nil => cases h <;> contradiction
    | cons c rest => exact Nat.succ_le_succ (Nat.zero_le _)
  · exact Nat.zero_le _

theorem tailLen_le_length (rest : List UInt8) : tailLen rest ≤ rest.length := by
  unfold tailLen
  dsimp only
  have hpoint := pointLen_le_length rest
  have hexponent := exponentLen_le_length (rest.drop (pointLen rest))
  have hsuffix := suffixLen_le_length (rest.drop (pointLen rest + exponentLen (rest.drop (pointLen rest))))
  rw [List.length_drop] at hexponent hsuffix
  omega

theorem decimalLen_le_length (rest : List UInt8) : decimalLen rest ≤ rest.length := by
  unfold decimalLen
  dsimp only
  have hint : runLen isDigit underscore rest ≤ _ := runLen_le_length rest
  have htail := tailLen_le_length (rest.drop (runLen isDigit underscore rest))
  rw [List.length_drop] at htail
  split_ifs
  · exact runLen_le_length rest
  · omega

theorem numeralLen_le_length (rest : List UInt8) : numeralLen rest ≤ rest.length := by
  unfold numeralLen
  split
  · split_ifs
    · exact Nat.add_le_add_right (more_le_length _) 2
    · exact decimalLen_le_length _
  · exact decimalLen_le_length _

theorem longest_iff (hstart : StartsNumber rest) (text : List UInt8) :
    Longest text rest ↔ text = rest.take (numeralLen rest) := by
  have hall (t : List UInt8) (ht : t <+: rest) (h : Numeral t) : t.length ≤ numeralLen rest := by
    obtain ⟨u, rfl⟩ := ht
    exact numeral_le h u
  have hlen : (rest.take (numeralLen rest)).length = numeralLen rest := by
    rw [List.length_take, Nat.min_eq_left (numeralLen_le_length rest)]
  constructor
  · rintro ⟨⟨u, rfl⟩, hnumeral, hmax⟩
    have hle := hmax _ (List.take_prefix _ _) (numeral_take hstart)
    have hge := numeral_le hnumeral u
    rw [hlen] at hle
    rw [Nat.le_antisymm hle hge, List.take_left' rfl]
  · rintro rfl
    refine ⟨List.take_prefix _ _, numeral_take hstart, ?_⟩
    intro t ht h
    rw [hlen]
    exact hall t ht h

end Member

end WeavePy.Lexer
