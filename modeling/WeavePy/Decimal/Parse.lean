import WeavePy.Decimal.Print
import WeavePy.Lib.Wrapping
import Mathlib.Data.List.TakeWhile

/-!
Reading a finite decimal from its text.
-/

namespace WeavePy.Decimal

/-- A `u128` result, its overflow detected. -/
def checkU128 (n : ℕ) : Outcome {v : ℕ // v < 2 ^ 128} :=
  if h : n < 2 ^ 128 then .ok ⟨n, h⟩ else .error .panic

/-- An `i128` result, its overflow detected. -/
def checkI128 (z : ℤ) : Outcome ℤ := if Signed 128 z then .ok z else .error .panic

/-- The digits of a word. -/
def parseWord (v : {v : ℕ // v < 2 ^ 128}) : List Char → Outcome (Option Coef)
  | [] => .ok (some (.S v v.2))
  | c :: cs =>
    if c.isDigit then do
      let t ← checkU128 (v * 10)
      let v ← checkU128 (t + (c.toNat - 48))
      parseWord v cs
    else .ok none

/-- The value of the ASCII digits `d`, or `none` past the digit limit. -/
def Coef.parse (d : List Char) : Outcome (Option Coef) :=
  let d := d.dropWhile (· == '0')
  if d.length ≤ 38 then parseWord ⟨0, by decide⟩ d
  else if maxDigits < d.length ∨ ¬ d.all Char.isDigit then .ok none
  else .ok (some (fromBig (digitsValue d)))

def FinDec.new (sign : Bool) (coef : Coef) (exp : ℤ) : Option FinDec :=
  if Signed 64 exp then some ⟨sign, coef, Int64.ofInt exp⟩ else none

/-- The ASCII whitespace of `str.strip()`. -/
def isWs (c : Char) : Bool :=
  c == ' ' || (9 ≤ c.toNat && c.toNat ≤ 13) || (28 ≤ c.toNat && c.toNat ≤ 31)

def stripWs (s : List Char) : List Char :=
  ((s.dropWhile isWs).reverse.dropWhile isWs).reverse

/-- An optional sign, and whether it is a minus. -/
def parseSign : List Char → Bool × List Char
  | '-' :: b => (true, b)
  | '+' :: b => (false, b)
  | b => (false, b)

/-- The point and the digits after it. -/
def parseFrac : List Char → List Char × List Char
  | '.' :: b => b.span Char.isDigit
  | b => ([], b)

/-- The digits of the exponent; `none` once it is too large for any decimal. -/
def parseExpDigits (exp : ℤ) : List Char → Outcome (Option (ℤ × List Char))
  | [] => .ok (some (exp, []))
  | c :: b =>
    if c.isDigit then
      if 1000000000000000000000 < exp then .ok none
      else do
        let t ← checkI128 (exp * 10)
        let exp ← checkI128 (t + (c.toNat - 48))
        parseExpDigits exp b
    else .ok (some (exp, c :: b))

/-- The exponent part after its letter. -/
def parseExpBody (b : List Char) : Outcome (Option (ℤ × List Char)) :=
  let (eneg, b) := parseSign b
  do
    match ← parseExpDigits 0 b with
    | none => .ok none
    | some (exp, rest) =>
      .ok (if rest.length = b.length then none else some (if eneg then -exp else exp, rest))

/-- An optional exponent. -/
def parseExp : List Char → Outcome (Option (ℤ × List Char))
  | 'e' :: b => parseExpBody b
  | 'E' :: b => parseExpBody b
  | b => .ok (some (0, b))

/-- The coefficient of the two digit parts. -/
def parseDigits (int frac : List Char) : Outcome (Option Coef) :=
  if frac = [] then Coef.parse int
  else if int = [] then Coef.parse frac
  else Coef.parse (int ++ frac)

/-- A numeric string's finite value. -/
def parseStr (s : List Char) (strip : Bool) : Outcome (Option FinDec) :=
  if ¬ s.all (fun c => c.toNat < 128) ∨ '_' ∈ s then .ok none
  else
    let (sign, b) := parseSign (if strip then stripWs s else s)
    let (int, b) := b.span Char.isDigit
    let (frac, b) := parseFrac b
    if int = [] ∧ frac = [] then .ok none
    else do
      match ← parseExp b with
      | none => .ok none
      | some (exp, b) =>
        if b ≠ [] then .ok none
        else
          match ← parseDigits int frac with
          | none => .ok none
          | some coef =>
            let exp ← checkI128 (exp - frac.length)
            .ok (FinDec.new sign coef exp)

/-- The decimal that a numeral is read as. -/
def ofNumeral (n : Numeral) : Option FinDec :=
  if (significant n.digits).length ≤ maxDigits then
    FinDec.new n.negative (Coef.fromBig (digitsValue n.digits)) n.exponent
  else none

section Coefficient

variable {l : List Char}

/-- Reading a word never overflows while the digits leave room. -/
theorem parseWord_eq {v : {v : ℕ // v < 2 ^ 128}} (hl : ∀ c ∈ l, c.isDigit)
    (hroom : (v.1 + 1) * 10 ^ l.length ≤ 10 ^ 38) :
    parseWord v l = .ok (some (Coef.fromBig (v.1 * 10 ^ l.length + digitsValue l))) := by
  induction l generalizing v with
  | nil =>
    have hv : v.1 * 10 ^ 0 + 0 = v := by omega
    rw [parseWord, List.length_nil, digitsValue, Nat.ofDigitChars_nil, hv, Coef.fromBig, dif_pos v.2]
  | cons c l ih =>
    have hc := hl c List.mem_cons_self
    obtain ⟨hlow, hhigh⟩ := isDigit_toNat hc
    have hpos := Nat.pow_pos (n := l.length) (show 0 < 10 by decide)
    have hscale : (v.1 + 1) * 10 * 10 ^ l.length = (v.1 + 1) * 10 ^ (c :: l).length := by
      rw [List.length_cons, pow_succ' 10 l.length, mul_assoc]
    have hsmall : (v.1 + 1) * 10 ≤ 10 ^ 38 :=
      (Nat.le_mul_of_pos_right _ hpos).trans (hscale.trans_le hroom)
    have hlimit : 10 ^ 38 < 2 ^ 128 := by decide
    have ht : v.1 * 10 < 2 ^ 128 := by omega
    have hv' : v.1 * 10 + (c.toNat - 48) < 2 ^ 128 := by omega
    rw [parseWord, if_pos hc, checkU128, dif_pos ht, ok_bind, checkU128, dif_pos hv', ok_bind,
      ih (fun c hc => hl c (List.mem_cons_of_mem _ hc)), digitsValue_cons, List.length_cons]
    · dsimp only
      congr 3
      ring
    · calc (v.1 * 10 + (c.toNat - 48) + 1) * 10 ^ l.length
          ≤ (v.1 + 1) * 10 * 10 ^ l.length := Nat.mul_le_mul_right _ (by omega)
        _ = (v.1 + 1) * 10 ^ (c :: l).length := hscale
        _ ≤ 10 ^ 38 := hroom

theorem Coef.parse_eq (hl : ∀ c ∈ l, c.isDigit) :
    Coef.parse l = .ok (if (significant l).length ≤ maxDigits then some (fromBig (digitsValue l))
      else none) := by
  have hs : ∀ c ∈ significant l, c.isDigit := fun c hc => hl c (mem_significant hc)
  change (if (significant l).length ≤ 38 then parseWord ⟨0, _⟩ (significant l)
    else if maxDigits < (significant l).length ∨ ¬ (significant l).all Char.isDigit then .ok none
    else .ok (some (fromBig (digitsValue (significant l))))) = _
  rw [digitsValue_significant]
  split
  next hshort =>
    have hpow : 10 ^ (significant l).length ≤ 10 ^ 38 := Nat.pow_le_pow_right (by decide) hshort
    rw [parseWord_eq hs (by simpa using hpow), digitsValue_significant, Nat.zero_mul, Nat.zero_add,
      if_pos (hshort.trans (by decide))]
  next hlong =>
    have hdigits : (significant l).all Char.isDigit = true := List.all_eq_true.mpr hs
    by_cases hmax : (significant l).length ≤ maxDigits
    · have hfits : ¬ (maxDigits < (significant l).length ∨ ¬ (significant l).all Char.isDigit = true) := by
        rintro (h | h)
        · omega
        · exact h hdigits
      rw [if_neg hfits, if_pos hmax]
    · rw [if_pos (.inl (not_le.mp hmax)), if_neg hmax]

theorem parseDigits_eq {int frac : List Char} (hint : ∀ c ∈ int, c.isDigit)
    (hfrac : ∀ c ∈ frac, c.isDigit) :
    parseDigits int frac = .ok (if (significant (int ++ frac)).length ≤ maxDigits then
      some (Coef.fromBig (digitsValue (int ++ frac))) else none) := by
  have hall := isDigit_append hint hfrac
  unfold parseDigits
  split
  next h => rw [h, List.append_nil, Coef.parse_eq hint]
  next h =>
    split
    next h' => rw [h', List.nil_append, Coef.parse_eq hfrac]
    · exact Coef.parse_eq hall

end Coefficient

section Scan

variable {b l r : List Char}

/-- The text ends or goes on with something that is no digit. -/
def EndsDigits (r : List Char) : Prop := ∀ c ∈ r.head?, c.isDigit = false

theorem endsDigits_cons {c : Char} (h : c.isDigit = false) : EndsDigits (c :: r) := by
  intro x hx
  rwa [← Option.some.inj hx]

theorem span_isDigit (hl : ∀ c ∈ l, c.isDigit) (hr : EndsDigits r) :
    (l ++ r).span Char.isDigit = (l, r) := by
  rw [List.span_eq_takeWhile_dropWhile, List.takeWhile_append_of_pos hl,
    List.dropWhile_append_of_pos hl]
  cases r with
  | nil => simp
  | cons c r =>
    have hc : ¬ c.isDigit = true := by rw [hr c rfl]; exact nofun
    rw [List.takeWhile_cons_of_neg hc, List.dropWhile_cons_of_neg hc, List.append_nil]

theorem span_cases (b : List Char) :
    ∃ l r, b.span Char.isDigit = (l, r) ∧ b = l ++ r ∧ (∀ c ∈ l, c.isDigit) ∧ EndsDigits r := by
  refine ⟨b.takeWhile Char.isDigit, b.dropWhile Char.isDigit, List.span_eq_takeWhile_dropWhile _ _,
    List.takeWhile_append_dropWhile.symm, fun c hc => List.mem_takeWhile_imp hc, fun c hc => ?_⟩
  have := List.head?_dropWhile_not Char.isDigit b
  rw [Option.mem_def.mp hc] at this
  simpa using this

theorem parseSign_signText (sg : Option Bool) (hb : ∀ c ∈ b.head?, c ≠ '-' ∧ c ≠ '+') :
    parseSign (signText sg ++ b) = (decide (sg = some true), b) := by
  rcases sg with _ | _ | _
  · cases b with
    | nil => rfl
    | cons c b =>
      obtain ⟨hminus, hplus⟩ := hb c rfl
      change parseSign (c :: b) = _
      unfold parseSign
      split
      next heq => exact absurd (List.cons.inj heq).1 hminus
      next heq => exact absurd (List.cons.inj heq).1 hplus
      · rfl
  · rfl
  · rfl

theorem parseSign_cases (b : List Char) :
    ∃ sg r, parseSign b = (decide (sg = some true), r) ∧ b = signText sg ++ r := by
  unfold parseSign
  split
  next r => exact ⟨some true, r, rfl, rfl⟩
  next r => exact ⟨some false, r, rfl, rfl⟩
  next r => exact ⟨none, b, rfl, rfl⟩

theorem parseFrac_fracText {frac : Option (List Char)} (hfrac : ∀ c ∈ frac.getD [], c.isDigit)
    (hr : EndsDigits r) (hpoint : ∀ c ∈ r.head?, c ≠ '.') :
    parseFrac (frac.elim [] ('.' :: ·) ++ r) = (frac.getD [], r) := by
  cases frac with
  | some l => exact span_isDigit hfrac hr
  | none =>
    change parseFrac r = ([], r)
    unfold parseFrac
    split
    next r' => exact absurd rfl (hpoint '.' rfl)
    · rfl

theorem parseFrac_cases (b : List Char) :
    ∃ (frac : Option (List Char)) (r : List Char), parseFrac b = (frac.getD [], r) ∧ b = frac.elim [] ('.' :: ·) ++ r ∧
      ∀ c ∈ frac.getD [], c.isDigit := by
  unfold parseFrac
  split
  next b' =>
    obtain ⟨l, r, hspan, hb, hl, -⟩ := span_cases b'
    refine ⟨some l, r, hspan, ?_, hl⟩
    rw [hb]
    rfl
  · exact ⟨none, b, rfl, rfl, nofun⟩

/-- Reading the exponent's digits: either they are too many, or their number is read. -/
theorem parseExpDigits_eq {exp : ℤ} (h0 : 0 ≤ exp) (h : exp ≤ 10 ^ 23) (hl : ∀ c ∈ l, c.isDigit)
    (hr : EndsDigits r) :
    (parseExpDigits exp (l ++ r) = .ok none ∧ 10 ^ 21 < exp * 10 ^ l.length + digitsValue l) ∨
      (parseExpDigits exp (l ++ r) = .ok (some (exp * 10 ^ l.length + digitsValue l, r)) ∧
        exp * 10 ^ l.length + digitsValue l ≤ 10 ^ 23) := by
  induction l generalizing exp with
  | nil =>
    have hexp : exp * 10 ^ ([] : List Char).length + digitsValue [] = exp := by
      simp [digitsValue]
    rw [hexp]
    refine .inr ⟨?_, h⟩
    cases r with
    | nil => rfl
    | cons c r =>
      have hc : ¬ c.isDigit = true := by rw [hr c rfl]; exact Bool.false_ne_true
      rw [List.nil_append, parseExpDigits, if_neg hc]
  | cons c l ih =>
    have hc := hl c List.mem_cons_self
    obtain ⟨hlow, hhigh⟩ := isDigit_toNat hc
    have hvalue : exp * 10 ^ (c :: l).length + digitsValue (c :: l) =
        (exp * 10 + (c.toNat - 48)) * 10 ^ l.length + digitsValue l := by
      rw [digitsValue_cons, List.length_cons, pow_succ']
      push_cast [hlow]
      ring
    rw [hvalue, List.cons_append, parseExpDigits, if_pos hc]
    split
    next hbig =>
      refine .inl ⟨rfl, ?_⟩
      have hpos : (1 : ℤ) ≤ 10 ^ l.length := one_le_pow₀ (by norm_num)
      have hgrow : exp ≤ (exp * 10 + (c.toNat - 48)) * 10 ^ l.length := by nlinarith
      omega
    next hsmall =>
      have ht : Signed 128 (exp * 10) := ⟨by omega, by omega⟩
      have hv : Signed 128 (exp * 10 + (c.toNat - 48)) := ⟨by omega, by omega⟩
      rw [checkI128, if_pos ht, ok_bind, checkI128, if_pos hv, ok_bind]
      exact ih (by omega) (by omega) fun c hc => hl c (List.mem_cons_of_mem _ hc)

theorem isDigit_not_sign {c : Char} (h : c.isDigit) : c ≠ '-' ∧ c ≠ '+' := by
  constructor
  · rintro rfl
    exact absurd h (by decide)
  · rintro rfl
    exact absurd h (by decide)

/-- The exponent of a numeral is read, unless it is too large. -/
theorem parseExpBody_text (x : NumeralExp) :
    (parseExpBody (signText x.sign ++ x.digits) = .ok none ∧ 10 ^ 21 < |x.value|) ∨
      (parseExpBody (signText x.sign ++ x.digits) = .ok (some (x.value, [])) ∧
        |x.value| ≤ 10 ^ 23) := by
  have habs : |x.value| = digitsValue x.digits := by
    unfold NumeralExp.value
    split
    · rw [abs_neg, Nat.abs_cast]
    · exact Nat.abs_cast _
  have hhead : ∀ c ∈ x.digits.head?, c ≠ '-' ∧ c ≠ '+' := fun c hc =>
    isDigit_not_sign (x.isDigit c (List.mem_of_mem_head? hc))
  have hrun := parseExpDigits_eq (r := []) le_rfl (by norm_num) x.isDigit nofun
  rw [List.append_nil, zero_mul, zero_add] at hrun
  unfold parseExpBody
  rw [parseSign_signText _ hhead, habs]
  dsimp only
  rcases hrun with ⟨hrun, hbig⟩ | ⟨hrun, hsmall⟩
  · rw [hrun]
    exact .inl ⟨rfl, hbig⟩
  · rw [hrun, ok_bind]
    have hlen : ¬ ([] : List Char).length = x.digits.length := fun h =>
      x.nonempty (List.eq_nil_of_length_eq_zero h.symm)
    refine .inr ⟨?_, hsmall⟩
    dsimp only
    rw [if_neg hlen]
    simp only [decide_eq_true_eq, NumeralExp.value]

theorem parseExp_text (x : Option NumeralExp) :
    (parseExp (x.elim [] NumeralExp.text) = .ok none ∧ 10 ^ 21 < |x.elim 0 NumeralExp.value|) ∨
      (parseExp (x.elim [] NumeralExp.text) = .ok (some (x.elim 0 NumeralExp.value, [])) ∧
        |x.elim 0 NumeralExp.value| ≤ 10 ^ 23) := by
  cases x with
  | none => exact .inr ⟨rfl, by simp⟩
  | some x =>
    have hbody := parseExpBody_text x
    simp only [Option.elim_some]
    unfold NumeralExp.text
    cases x.capital with
    | false => exact hbody
    | true => exact hbody

/-- Whatever is read as an exponent is the text of one. -/
theorem parseExpBody_cases (capital : Bool) (b : List Char) :
    ∃ o, parseExpBody b = .ok o ∧ ∀ p ∈ o, |p.1| ≤ 10 ^ 23 ∧
      ∃ x : NumeralExp, x.capital = capital ∧ b = signText x.sign ++ x.digits ++ p.2 := by
  obtain ⟨sg, b', hsign, hb⟩ := parseSign_cases b
  obtain ⟨l, r, -, hb', hl, hr⟩ := span_cases b'
  have hrun := parseExpDigits_eq le_rfl (by norm_num) hl hr
  rw [← hb', zero_mul, zero_add] at hrun
  unfold parseExpBody
  rw [hsign]
  dsimp only
  rcases hrun with ⟨hrun, -⟩ | ⟨hrun, hsmall⟩
  · rw [hrun]
    exact ⟨none, rfl, nofun⟩
  · rw [hrun, ok_bind]
    refine ⟨_, rfl, fun p hp => ?_⟩
    split at hp
    · nomatch hp
    next hlen =>
      rw [← Option.some.inj hp]
      have hne : l ≠ [] := by
        rintro rfl
        exact hlen (by rw [hb', List.nil_append])
      refine ⟨?_, ⟨capital, sg, l, hl, hne⟩, rfl, ?_⟩
      · dsimp only
        split
        · rwa [abs_neg, Nat.abs_cast]
        · rwa [Nat.abs_cast]
      · rw [hb, hb', List.append_assoc]

theorem parseExp_cases (b : List Char) :
    ∃ o, parseExp b = .ok o ∧ ∀ p ∈ o, |p.1| ≤ 10 ^ 23 ∧
      ∃ x : Option NumeralExp, b = x.elim [] NumeralExp.text ++ p.2 := by
  unfold parseExp
  split
  next b' =>
    obtain ⟨o, ho, hall⟩ := parseExpBody_cases false b'
    refine ⟨o, ho, fun p hp => ?_⟩
    obtain ⟨hsmall, x, hx, hb⟩ := hall p hp
    refine ⟨hsmall, some x, ?_⟩
    rw [Option.elim_some, NumeralExp.text, hx, hb]
    rfl
  next b' =>
    obtain ⟨o, ho, hall⟩ := parseExpBody_cases true b'
    refine ⟨o, ho, fun p hp => ?_⟩
    obtain ⟨hsmall, x, hx, hb⟩ := hall p hp
    refine ⟨hsmall, some x, ?_⟩
    rw [Option.elim_some, NumeralExp.text, hx, hb]
    rfl
  · refine ⟨_, rfl, fun p hp => ?_⟩
    rw [← Option.some.inj hp]
    exact ⟨by simp, none, rfl⟩

end Scan

section Numerals

variable {n : Numeral} {s : List Char}

theorem expText_head (n : Numeral) : ∀ c ∈ n.expText.head?, c = 'e' ∨ c = 'E' := by
  unfold Numeral.expText
  cases n.exp with
  | none => exact nofun
  | some x =>
    rw [Option.elim_some, NumeralExp.text]
    intro c hc
    rw [← Option.some.inj hc]
    cases x.capital with
    | false => exact .inl rfl
    | true => exact .inr rfl

theorem expText_ends (n : Numeral) : EndsDigits n.expText := by
  intro c hc
  rcases expText_head n c hc with rfl | rfl <;> rfl

theorem fracText_ends (n : Numeral) : EndsDigits (n.fracText ++ n.expText) := by
  unfold Numeral.fracText
  cases n.frac with
  | none => exact expText_ends n
  | some l => exact endsDigits_cons rfl

theorem unsigned_head (n : Numeral) :
    ∀ c ∈ (n.int ++ (n.fracText ++ n.expText)).head?, c ≠ '-' ∧ c ≠ '+' := by
  intro c hc
  cases hint : n.int with
  | cons c' l =>
    rw [hint] at hc
    rw [← Option.some.inj hc]
    exact isDigit_not_sign (n.int_isDigit c' (hint ▸ List.mem_cons_self))
  | nil =>
    rw [hint, List.nil_append] at hc
    unfold Numeral.fracText at hc
    cases hfrac : n.frac with
    | some l =>
      rw [hfrac] at hc
      rw [← Option.some.inj hc]
      decide
    | none =>
      rw [hfrac] at hc
      rcases expText_head n c hc with rfl | rfl <;> decide

/-- A numeral's text is plain ASCII without underscores. -/
theorem text_plain (n : Numeral) : ∀ c ∈ n.text, c.toNat < 128 ∧ c ≠ '_' := by
  have hdigit (c : Char) (h : c.isDigit) : c.toNat < 128 ∧ c ≠ '_' := by
    refine ⟨by have := isDigit_toNat h; omega, ?_⟩
    rintro rfl
    exact absurd h (by decide)
  have hsign (sg : Option Bool) : ∀ c ∈ signText sg, c.toNat < 128 ∧ c ≠ '_' := by
    intro c hc
    rcases sg with _ | _ | _
    · nomatch hc
    · obtain rfl := List.mem_singleton.mp hc
      decide
    · obtain rfl := List.mem_singleton.mp hc
      decide
  intro c hc
  simp only [Numeral.text, List.mem_append] at hc
  rcases hc with hc | hc | hc | hc
  · exact hsign _ c hc
  · exact hdigit c (n.int_isDigit c hc)
  · unfold Numeral.fracText at hc
    cases hfrac : n.frac with
    | none => rw [hfrac] at hc; nomatch hc
    | some l =>
      rw [hfrac] at hc
      rcases List.mem_cons.mp hc with rfl | hc
      · decide
      · exact hdigit c (n.frac_isDigit c (by rwa [hfrac]))
  · unfold Numeral.expText at hc
    cases hexp : n.exp with
    | none => rw [hexp] at hc; nomatch hc
    | some x =>
      rw [hexp] at hc
      rcases List.mem_cons.mp hc with rfl | hc
      · cases x.capital <;> decide
      · rcases List.mem_append.mp hc with hc | hc
        · exact hsign _ c hc
        · exact hdigit c (x.isDigit c hc)

theorem exponent_checked {e : ℤ} {k : ℕ} (he : |e| ≤ 10 ^ 23) (hk : k < 2 ^ 63) :
    checkI128 (e - k) = .ok (e - k) := by
  obtain ⟨hl, hr⟩ := abs_le.mp he
  exact if_pos ⟨by norm_num at *; omega, by norm_num at *; omega⟩

/-- A numeral is read as the decimal it spells, if that is one. -/
theorem parseStr_text (n : Numeral) (hfrac : n.fracDigits.length < 2 ^ 63) :
    parseStr n.text false = .ok (ofNumeral n) := by
  have hplain : ¬ (¬ n.text.all (fun c => c.toNat < 128) = true ∨ '_' ∈ n.text) := by
    rintro (h | h)
    · exact h (List.all_eq_true.mpr fun c hc => decide_eq_true (text_plain n c hc).1)
    · exact (text_plain n '_' h).2 rfl
  have hpoint : ∀ c ∈ n.expText.head?, c ≠ '.' := fun c hc => by
    rcases expText_head n c hc with rfl | rfl <;> decide
  have hsome : ¬ (n.int = [] ∧ n.frac.getD [] = []) := n.nonempty
  unfold parseStr
  rw [if_neg hplain, if_neg nofun, Numeral.text, parseSign_signText _ (unsigned_head n)]
  dsimp only
  rw [span_isDigit n.int_isDigit (fracText_ends n)]
  dsimp only
  rw [Numeral.fracText, parseFrac_fracText n.frac_isDigit (expText_ends n) hpoint]
  dsimp only
  rw [if_neg hsome]
  rcases parseExp_text n.exp with ⟨hrun, hbig⟩ | ⟨hrun, hsmall⟩
  · -- The exponent stays out of range whatever the fraction's length takes off.
    have hfits : ¬ Signed 64 n.exponent := by
      rintro ⟨hl, hr⟩
      rw [Numeral.exponent] at hl hr
      change -2 ^ 63 ≤ n.exp.elim 0 NumeralExp.value - (n.fracDigits.length : ℤ) at hl
      change n.exp.elim 0 NumeralExp.value - (n.fracDigits.length : ℤ) < 2 ^ 63 at hr
      rcases lt_abs.mp hbig with h | h <;> omega
    rw [Numeral.expText, hrun, ofNumeral, FinDec.new, if_neg hfits, ite_self]
    rfl
  · rw [Numeral.expText, hrun, ok_bind]
    dsimp only
    rw [if_neg (not_not.mpr rfl), parseDigits_eq n.int_isDigit n.frac_isDigit, ok_bind, ofNumeral]
    change (match (if (significant n.digits).length ≤ maxDigits then
      some (Coef.fromBig (digitsValue n.digits)) else none) with
        | none => _
        | some coef => _) = _
    have hcheck := exponent_checked hsmall hfrac
    rw [Numeral.fracDigits] at hcheck
    split_ifs
    · dsimp only
      rw [hcheck, ok_bind]
      rfl
    · rfl

/-- Nothing panics, and only numerals are read. -/
theorem parseStr_cases (hs : s.length < 2 ^ 63) :
    ∃ r, parseStr s false = .ok r ∧ ∀ d ∈ r, ∃ n : Numeral, n.text = s := by
  unfold parseStr
  split
  · exact ⟨none, rfl, nofun⟩
  · rw [if_neg nofun]
    obtain ⟨sg, b, hsign, hb⟩ := parseSign_cases s
    obtain ⟨int, b', hspan, hb', hint, -⟩ := span_cases b
    obtain ⟨frac, b'', hfrac, hb'', hfracd⟩ := parseFrac_cases b'
    obtain ⟨o, hexp, hcases⟩ := parseExp_cases b''
    rw [hsign]
    dsimp only
    rw [hspan]
    dsimp only
    rw [hfrac]
    dsimp only
    split
    · exact ⟨none, rfl, nofun⟩
    next hsome =>
      rw [hexp, ok_bind]
      cases o with
      | none => exact ⟨none, rfl, nofun⟩
      | some p =>
        obtain ⟨hsmall, x, hx⟩ := hcases p rfl
        obtain ⟨exp, rest⟩ := p
        dsimp only at hsmall hx ⊢
        split
        · exact ⟨none, rfl, nofun⟩
        next hrest =>
          have hlen : (frac.getD []).length < 2 ^ 63 := by
            have hcount : (frac.getD []).length ≤ (frac.elim [] ('.' :: ·)).length := by
              cases frac with
              | none => exact le_rfl
              | some l => exact Nat.le_succ _
            rw [hb, hb', hb''] at hs
            simp only [List.length_append] at hs
            omega
          rw [parseDigits_eq hint hfracd, ok_bind]
          have htext : ∃ n : Numeral, n.text = s := by
            refine ⟨⟨sg, int, frac, x, hint, hfracd, hsome⟩, ?_⟩
            change signText sg ++ (int ++ (frac.elim [] ('.' :: ·) ++ x.elim [] NumeralExp.text)) = s
            rw [hb, hb', hb'', hx, not_not.mp hrest, List.append_nil]
          split
          · exact ⟨none, rfl, nofun⟩
          · rw [exponent_checked hsmall hlen, ok_bind]
            exact ⟨_, rfl, fun _ _ => htext⟩

/-- A numeral within the limits: its significant digits and the exponent of the last one. -/
def Fits (n : Numeral) : Prop :=
  (significant n.digits).length ≤ maxDigits ∧ Signed 64 n.exponent

theorem ofNumeral_of_fits (h : Fits n) :
    ofNumeral n =
      some ⟨n.negative, Coef.fromBig (digitsValue n.digits), Int64.ofInt n.exponent⟩ := by
  rw [ofNumeral, if_pos h.1, FinDec.new, if_pos h.2]

theorem isSome_ofNumeral : (ofNumeral n).isSome ↔ Fits n := by
  constructor
  · intro h
    unfold ofNumeral FinDec.new at h
    split_ifs at h with hdigits hexp
    · exact ⟨hdigits, hexp⟩
    · nomatch h
    · nomatch h
  · intro h
    rw [ofNumeral_of_fits h]
    rfl

/-- The decimal read has the sign and the value that the numeral denotes. -/
theorem ofNumeral_value {d : FinDec} (h : d ∈ ofNumeral n) :
    d.sign = n.negative ∧ d.value = n.value := by
  have hfits : Fits n := isSome_ofNumeral.mp (Option.isSome_of_mem h)
  rw [ofNumeral_of_fits hfits] at h
  rw [← Option.some.inj h, n.value_eq]
  refine ⟨rfl, ?_⟩
  unfold FinDec.value FinDec.magnitude
  rw [Coef.toBig_fromBig, Int64.toInt_ofInt_of_le hfits.2.1 hfits.2.2]
  cases n.negative with
  | false => exact (one_mul _).symm
  | true => exact (neg_one_mul _).symm

end Numerals

section RoundTrip

variable {d : FinDec} {n : Numeral}

theorem printed_frac_length (hd : d.coef.toBig < 10 ^ maxDigits)
    (h : n.fracDigits.length ≤ (Nat.toDigits 10 d.coef.toBig).length + 5) :
    n.fracDigits.length < 2 ^ 63 := by
  have hlen : (Nat.toDigits 10 d.coef.toBig).length ≤ maxDigits :=
    (Nat.length_toDigits_le_iff (by decide) (by decide)).mpr hd
  have hmax : maxDigits + 5 < 2 ^ 63 := by decide
  omega

theorem exp_signed (d : FinDec) : Signed 64 d.exp.toInt := ⟨d.exp.le_toInt, d.exp.toInt_lt⟩

/-- Scientific text reads back as exactly the decimal. -/
theorem parse_toSci (hd : d.coef.toBig < 10 ^ maxDigits) (capitals : Bool) :
    ∃ t, toSci d false capitals = .ok t ∧ parseStr t false = .ok (some d) := by
  obtain ⟨n, z, htext, hsign, hdigits, hexp, hz, hfrac⟩ := toSci_numeral d false capitals
  obtain rfl := hz rfl
  have hcoef : digitsValue n.digits = d.coef.toBig := by rw [hdigits, pow_zero, mul_one]
  have hexp' : n.exponent = d.exp.toInt := by rw [hexp, Nat.cast_zero, sub_zero]
  have hfits : Fits n := by
    refine ⟨(significant_length_le n.digits_isDigit).mpr (by rwa [hcoef]), ?_⟩
    rw [hexp']
    exact exp_signed d
  refine ⟨n.text, htext, ?_⟩
  rw [parseStr_text n (printed_frac_length hd hfrac), ofNumeral_of_fits hfits, hsign, hcoef, hexp',
    Coef.fromBig_toBig, Int64.ofInt_toInt]

/-- Engineering text denotes the value of the decimal. -/
theorem eng_value (hsign : n.negative = d.sign) {z : ℕ}
    (hdigits : digitsValue n.digits = d.coef.toBig * 10 ^ z) (hexp : n.exponent = d.exp.toInt - z) :
    n.value = d.value := by
  have hscale : (digitsValue n.digits : ℚ) * 10 ^ n.exponent = d.magnitude := by
    rw [hdigits, hexp, zpow_sub₀ (by norm_num), zpow_natCast, FinDec.magnitude]
    push_cast
    field_simp
  rw [n.value_eq, hscale, hsign, FinDec.value]
  cases d.sign with
  | false => exact one_mul _
  | true => exact neg_one_mul _

theorem parse_toSci_eng (hd : d.coef.toBig < 10 ^ maxDigits) (capitals : Bool) :
    ∃ n : Numeral, toSci d true capitals = .ok n.text ∧
      (Fits n → ∃ d', parseStr n.text false = .ok (some d') ∧ d'.sign = d.sign ∧
        d'.value = d.value) := by
  obtain ⟨n, z, htext, hsign, hdigits, hexp, -, hfrac⟩ := toSci_numeral d true capitals
  refine ⟨n, htext, fun hfits => ?_⟩
  obtain ⟨hs, hv⟩ := ofNumeral_value (Option.mem_def.mpr (ofNumeral_of_fits hfits))
  refine ⟨_, ?_, hs.trans hsign, hv.trans (eng_value hsign hdigits hexp)⟩
  rw [parseStr_text n (printed_frac_length hd hfrac), ofNumeral_of_fits hfits]

theorem frac_length_le (n : Numeral) : n.fracDigits.length ≤ n.text.length := by
  have hcount : n.fracDigits.length ≤ n.fracText.length := by
    unfold Numeral.fracDigits Numeral.fracText
    cases n.frac with
    | none => exact le_rfl
    | some l => exact Nat.le_succ _
  simp only [Numeral.text, List.length_append]
  omega

/-- A text is read exactly when it is a numeral within the limits, and as the number it denotes. -/
theorem parseStr_iff {s : List Char} (hs : s.length < 2 ^ 63) :
    ∃ r, parseStr s false = .ok r ∧ (r.isSome ↔ ∃ n : Numeral, n.text = s ∧ Fits n) ∧
      ∀ d ∈ r, ∀ n : Numeral, n.text = s → d.sign = n.negative ∧ d.value = n.value := by
  have hread (n : Numeral) (hn : n.text = s) : parseStr s false = .ok (ofNumeral n) := by
    rw [← hn]
    exact parseStr_text n ((frac_length_le n).trans_lt (hn ▸ hs))
  obtain ⟨r, hr, hnumeral⟩ := parseStr_cases hs
  refine ⟨r, hr, ⟨fun hsome => ?_, ?_⟩, ?_⟩
  · obtain ⟨d, hd⟩ := Option.isSome_iff_exists.mp hsome
    obtain ⟨n, hn⟩ := hnumeral d hd
    have hrn : r = ofNumeral n := Except.ok.inj (hr.symm.trans (hread n hn))
    exact ⟨n, hn, isSome_ofNumeral.mp (hrn ▸ hsome)⟩
  · rintro ⟨n, hn, hfits⟩
    have hrn : r = ofNumeral n := Except.ok.inj (hr.symm.trans (hread n hn))
    rw [hrn]
    exact isSome_ofNumeral.mpr hfits
  · intro d hd n hn
    have hrn : r = ofNumeral n := Except.ok.inj (hr.symm.trans (hread n hn))
    exact ofNumeral_value (hrn ▸ hd)

/-- Printing and reading are inverse up to the numeral's form, and reading accepts the numerals
within the limits and nothing else. -/
theorem text_round_trip (d : FinDec) (hd : d.coef.toBig < 10 ^ maxDigits) (capitals : Bool)
    (s : List Char) (hs : s.length < 2 ^ 63) :
    (∃ t, toSci d false capitals = .ok t ∧ parseStr t false = .ok (some d)) ∧
      (∃ n : Numeral, toSci d true capitals = .ok n.text ∧
        (Fits n → ∃ d', parseStr n.text false = .ok (some d') ∧ d'.sign = d.sign ∧
          d'.value = d.value)) ∧
      ∃ r, parseStr s false = .ok r ∧ (r.isSome ↔ ∃ n : Numeral, n.text = s ∧ Fits n) ∧
        ∀ d' ∈ r, ∀ n : Numeral, n.text = s → d'.sign = n.negative ∧ d'.value = n.value :=
  ⟨parse_toSci hd capitals, parse_toSci_eng hd capitals, parseStr_iff hs⟩

def minusHalf : FinDec := ⟨true, .S 5 (by decide), -1⟩

/-- -0.5 -/
theorem minus_half_reads_back :
    toSci minusHalf false true = .ok ['-', '0', '.', '5'] ∧
      ∃ t, toSci minusHalf false true = .ok t ∧ parseStr t false = .ok (some minusHalf) :=
  ⟨by decide +kernel,
    (text_round_trip minusHalf (Coef.lt_maxDigits (by decide)) true ['1'] (by decide)).1⟩

end RoundTrip

end WeavePy.Decimal
