import Mathlib.Data.List.TakeWhile
import WeavePy.PercentFormat.Language

/-!
The f-string that replaces `fmt % tuple` gives its text.
-/

namespace WeavePy.PercentFormat

section Joined

variable {E V ε : Type} (conv : Conversions V ε) (value : E → V)

/-- `!s`, `!r` and `!a`. -/
def convertBy (conversion : ℤ) (v : V) : Except (Error ε) (List Char) :=
  if conversion = ('s'.toNat : ℤ) then raising (conv.str v)
  else if conversion = ('r'.toNat : ℤ) then raising (conv.repr v)
  else if conversion = ('a'.toNat : ℤ) then raising (conv.ascii v)
  else .error .badSpec

def ExprKind.text : ExprKind E → Except (Error ε) (List Char)
  | .constant text => .ok text.toList
  | .formattedValue v conversion formatSpec => do
    let text ← convertBy conv conversion (value v.kind)
    formatString ((formatSpec.map fun spec => spec.kind.toList).getD []) text

/-- What an f-string of these parts evaluates to. -/
def joinedStr : List (Expr (ExprKind E)) → Except (Error ε) (List Char)
  | [] => .ok []
  | part :: parts => do
    let text ← part.kind.text conv value
    (joinedStr parts).map (text ++ ·)

variable {conv value}

theorem joinedStr_append (parts parts' : List (Expr (ExprKind E))) :
    joinedStr conv value (parts ++ parts') =
      (joinedStr conv value parts).bind fun text => (joinedStr conv value parts').map (text ++ ·) := by
  induction parts with
  | nil =>
    rw [List.nil_append, joinedStr]
    cases joinedStr conv value parts' <;> rfl
  | cons part parts ih =>
    rw [List.cons_append, joinedStr, joinedStr, ih]
    cases part.kind.text conv value with
    | error e => rfl
    | ok text =>
      cases joinedStr conv value parts with
      | error e => rfl
      | ok text' =>
        cases joinedStr conv value parts' with
        | error e => rfl
        | ok text'' => exact congrArg Except.ok (List.append_assoc text text' text'').symm

end Joined

section Literals

/-- Text of a format string, and what it stands for. -/
inductive Literal : List Char → List Char → Prop where
  | nil : Literal [] []
  | char {s t : List Char} {c : Char} (hc : c ≠ '%') (h : Literal s t) : Literal (c :: s) (c :: t)
  | percent {s t : List Char} (h : Literal s t) : Literal ('%' :: '%' :: s) ('%' :: t)

variable {V ε : Type} {conv : Conversions V ε} {s t rest : List Char}

theorem replacePercents_cons {c : Char} (hc : c ≠ '%') (t : List Char) :
    replacePercents (c :: t) = c :: replacePercents t := by
  rw [replacePercents]
  rintro u rfl
  exact absurd rfl hc

theorem Literal.replace (h : Literal s t) : replacePercents s = t := by
  induction h with
  | nil => rfl
  | char hc h ih => rw [replacePercents_cons hc, ih]
  | percent h ih => rw [replacePercents, ih]

/-- What is left after a literal: nothing, or a unit. -/
def Stops (rest : List Char) : Prop := rest = [] ∨ ∃ u, rest = '%' :: u ∧ u.head? ≠ some '%'

theorem scanLiteral_char {c : Char} (hc : c ≠ '%') (t : List Char) (p : ℕ) (hasPercents : Bool) :
    scanLiteral (c :: t) p hasPercents = scanLiteral t (p + 1) hasPercents := by
  cases t with
  | nil => exact if_pos hc
  | cons d t => rw [scanLiteral, if_pos hc]

/-- The scan goes over a literal, and marks it when it is not its own text. -/
theorem scanLiteral_literal (chars : List Char) (p : ℕ) (hasPercents : Bool) :
    ∃ s t rest marked, chars = s ++ rest ∧ Literal s t ∧ Stops rest ∧ (marked = false → t = s) ∧
      scanLiteral chars p hasPercents = (p + s.length, hasPercents || marked) := by
  induction chars, p, hasPercents using scanLiteral.induct with
  | case1 p hasPercents => exact ⟨[], [], [], false, rfl, .nil, .inl rfl, fun _ => rfl, by rw [Bool.or_false]; rfl⟩
  | case2 c chars p hasPercents hc ih =>
    obtain ⟨s, t, rest, marked, hchars, hliteral, hstops, hself, hscan⟩ := ih
    refine ⟨c :: s, c :: t, rest, marked, by rw [hchars]; rfl, .char hc hliteral, hstops, ?_, ?_⟩
    · intro hmarked
      rw [hself hmarked]
    · rw [scanLiteral_char hc, hscan, List.length_cons, Nat.add_assoc, Nat.add_comm 1]
  | case3 c p hasPercents hc =>
    obtain rfl := not_not.mp hc
    exact ⟨[], [], ['%'], false, rfl, .nil, .inr ⟨[], rfl, nofun⟩, fun _ => rfl, by rw [Bool.or_false]; rfl⟩
  | case4 c p hasPercents hc chars ih =>
    obtain rfl := not_not.mp hc
    obtain ⟨s, t, rest, marked, hchars, hliteral, hstops, -, hscan⟩ := ih
    refine ⟨'%' :: '%' :: s, '%' :: t, rest, true, by rw [hchars]; rfl, .percent hliteral, hstops, nofun, ?_⟩
    rw [scanLiteral, if_neg hc, if_pos rfl, hscan, List.length_cons, List.length_cons, Bool.true_or, Bool.or_true, Nat.add_assoc,
      Nat.add_comm 2]
  | case5 c p hasPercents hc d chars hd =>
    obtain rfl := not_not.mp hc
    refine ⟨[], [], '%' :: d :: chars, false, rfl, .nil, .inr ⟨d :: chars, rfl, ?_⟩, fun _ => rfl, ?_⟩
    · intro h
      exact hd (Option.some.inj h)
    · rw [scanLiteral, if_neg hc, if_neg hd, Bool.or_false]
      rfl

theorem readSpec_percent (t : List Char) : readSpec ('%' :: t) = (.unit ⟨[], none, none, none, '%'⟩, t) := rfl

theorem pieces_char {c : Char} (hc : c ≠ '%') (t : List Char) : pieces (c :: t) = .char c :: pieces t := by
  rw [pieces, if_neg hc]

theorem pieces_percent (t : List Char) : pieces ('%' :: t) = (readSpec t).1 :: pieces (readSpec t).2 := by
  rw [pieces, if_pos rfl]

theorem Literal.render (h : Literal s t) (rest : List Char) (args : List V) :
    render conv (pieces (s ++ rest)) args = (render conv (pieces rest) args).map (t ++ ·) := by
  induction h with
  | nil =>
    rw [List.nil_append]
    cases PercentFormat.render conv (pieces rest) args <;> rfl
  | char hc h ih =>
    rw [List.cons_append, pieces_char hc, PercentFormat.render, ih]
    cases PercentFormat.render conv (pieces rest) args <;> rfl
  | percent h ih =>
    rw [List.cons_append, List.cons_append, pieces_percent, readSpec_percent, PercentFormat.render]
    change (PercentFormat.render conv (pieces _) args).map (['%'] ++ ·) = _
    rw [ih]
    cases PercentFormat.render conv (pieces rest) args <;> rfl

theorem Literal.plain (h : Literal s t) (hrest : ∀ p ∈ pieces rest, p.Plain) : ∀ p ∈ pieces (s ++ rest), p.Plain := by
  induction h with
  | nil => exact hrest
  | char hc h ih =>
    rw [List.cons_append, pieces_char hc]
    exact List.forall_mem_cons.mpr ⟨trivial, ih⟩
  | percent h ih =>
    rw [List.cons_append, List.cons_append, pieces_percent, readSpec_percent]
    exact List.forall_mem_cons.mpr ⟨.inl rfl, ih⟩

end Literals

section Units

variable {ch c : Char} {t u : List Char} {ljust : Bool} {width prec : Option ℕ}

theorem scanFlags_flags (t : List Char) (b : Bool) (h : scanFlags t b = some (ch, ljust, u)) :
    ∃ flags, t = flags ++ ch :: u ∧ (∀ x ∈ flags, isFlag x = true) ∧ isFlag ch = false ∧
      (ljust = true ↔ b = true ∨ '-' ∈ flags) := by
  induction t generalizing b with
  | nil => cases h
  | cons x t ih =>
    unfold scanFlags at h
    split_ifs at h with hminus hflag
    · obtain ⟨flags, ht, hflags, hch, hljust⟩ := ih true h
      refine ⟨x :: flags, by rw [ht]; rfl, List.forall_mem_cons.mpr ⟨?_, hflags⟩, hch, ?_⟩
      · rw [hminus]
        rfl
      · rw [hljust, hminus]
        exact iff_of_true (.inl rfl) (.inr List.mem_cons_self)
    · obtain ⟨flags, ht, hflags, hch, hljust⟩ := ih b h
      refine ⟨x :: flags, by rw [ht]; rfl, List.forall_mem_cons.mpr ⟨?_, hflags⟩, hch, ?_⟩
      · obtain rfl | rfl | rfl | rfl := hflag <;> rfl
      · have hne : '-' ≠ x := fun heq => hminus heq.symm
        rw [hljust, List.mem_cons, or_iff_right hne]
    · cases h
      refine ⟨[], rfl, nofun, ?_, (or_iff_left nofun).symm⟩
      apply decide_eq_false
      intro hmem
      rw [List.mem_cons] at hmem
      obtain heq | hmem := hmem
      · exact hminus heq
      · apply hflag
        simpa using hmem

theorem digit_le (hc : c.isDigit = true) : c.toNat - '0'.toNat ≤ 9 := by
  have := (Char.isDigit_iff_toNat.mp hc).2
  change c.toNat ≤ 57 at this
  change c.toNat - 48 ≤ 9
  omega

theorem ofDigitChars_lt (ds : List Char) (hds : ∀ x ∈ ds, x.isDigit = true) (v : ℕ) :
    Nat.ofDigitChars 10 ds v < (v + 1) * 10 ^ ds.length := by
  induction ds generalizing v with
  | nil => rw [Nat.ofDigitChars_nil, List.length_nil, Nat.pow_zero, Nat.mul_one]; exact Nat.lt_succ_self v
  | cons c ds ih =>
    obtain ⟨hc, hds⟩ := List.forall_mem_cons.mp hds
    have hdigit := digit_le hc
    rw [Nat.ofDigitChars_cons, List.length_cons, Nat.pow_succ, Nat.mul_comm (10 ^ _), ← Nat.mul_assoc]
    apply Nat.lt_of_lt_of_le (ih hds _)
    apply Nat.mul_le_mul_right
    omega

/-- The digits are read to their end, two at most. -/
theorem scanDigits_digits (t : List Char) (ch : Char) (v digits n : ℕ) (hdigits : digits ≤ 2)
    (h : scanDigits t ch v digits = some (n, c, u)) :
    ∃ ds, ch :: t = ds ++ c :: u ∧ (∀ x ∈ ds, x.isDigit = true) ∧ c.isDigit = false ∧ digits + ds.length ≤ 2 ∧
      n = Nat.ofDigitChars 10 ds v := by
  induction t generalizing ch v digits with
  | nil =>
    unfold scanDigits at h
    split_ifs at h with hch
    cases h
    exact ⟨[], rfl, nofun, eq_false_of_ne_true hch, hdigits, rfl⟩
  | cons d t ih =>
    unfold scanDigits at h
    split_ifs at h with hch hmax
    · have hmore : digits + 1 ≤ 2 := Nat.le_of_lt_succ (Nat.lt_of_not_le hmax)
      obtain ⟨ds, ht, hds, hc, hlen, hn⟩ := ih d _ _ hmore h
      refine ⟨ch :: ds, by rw [ht]; rfl, List.forall_mem_cons.mpr ⟨hch, hds⟩, hc, ?_, ?_⟩
      · rw [List.length_cons]
        omega
      · rw [hn, Nat.ofDigitChars_cons, Nat.mul_comm]
    · cases h
      exact ⟨[], rfl, nofun, eq_false_of_ne_true hch, hdigits, rfl⟩

theorem takeWhile_run {p : Char → Bool} {l : List Char} (h : ∀ x ∈ l, p x = true) (hc : p c = false) (u : List Char) :
    (l ++ c :: u).takeWhile p = l ∧ (l ++ c :: u).dropWhile p = c :: u := by
  constructor
  · rw [List.takeWhile_append_of_pos h, List.takeWhile_cons_of_neg (Bool.eq_false_iff.mp hc), List.append_nil]
  · rw [List.dropWhile_append_of_pos h, List.dropWhile_cons_of_neg (Bool.eq_false_iff.mp hc)]

/-- A run of digits, two at most, is read as one amount. -/
theorem readAmount_digits {n : ℕ} (hch : ch.isDigit = true) (h : scanDigits t ch 0 0 = some (n, c, u)) :
    readAmount (ch :: t) = (some (.digits n), c :: u) ∧ n < 100 ∧ (ch ≠ '0' → 0 < n) := by
  obtain ⟨ds, ht, hds, hc, hlen, hn⟩ := scanDigits_digits t ch 0 0 n (Nat.zero_le _) h
  have hstar : ch ≠ '*' := by
    rintro rfl
    cases hch
  obtain ⟨htake, hdrop⟩ := takeWhile_run hds hc u
  refine ⟨?_, ?_, ?_⟩
  · unfold readAmount
    dsimp only
    rw [if_neg hstar, if_pos hch, ht, htake, hdrop, hn]
  · have hlt := ofDigitChars_lt ds hds 0
    have hpow : 10 ^ ds.length ≤ 10 ^ 2 := Nat.pow_le_pow_right (by decide) (by omega)
    rw [← hn] at hlt
    omega
  · intro hzero
    cases ds with
    | nil =>
      rw [(List.cons.inj ht).1, hc] at hch
      cases hch
    | cons d ds =>
      obtain ⟨rfl, -⟩ := List.cons.inj ht
      have hdigit := (Char.isDigit_iff_toNat.mp hch).1
      have hne : ch.toNat ≠ '0'.toNat := fun heq => hzero (Char.toNat_inj.mp heq)
      rw [hn, Nat.ofDigitChars_cons, Nat.ofDigitChars_eq_ofDigitChars_zero]
      have hpow : 0 < 10 ^ ds.length := Nat.pow_pos (by decide)
      have hpos : 0 < 10 * 0 + (ch.toNat - '0'.toNat) := by omega
      exact Nat.lt_of_lt_of_le (Nat.mul_pos hpow hpos) (Nat.le_add_right _ _)

theorem readAmount_other (hch : ch.isDigit = false) (hstar : ch ≠ '*') (t : List Char) :
    readAmount (ch :: t) = (none, ch :: t) := by
  unfold readAmount
  dsimp only
  rw [if_neg hstar, if_neg (Bool.eq_false_iff.mp hch)]

/-- What `scanWidth` reads is the amount there, and none if there is none. -/
theorem readAmount_width (h : scanWidth ch t = some (width, c, u)) (hc : c ≠ '*') :
    readAmount (ch :: t) = (width.map .digits, c :: u) ∧ ∀ n ∈ width, n < 100 ∧ (ch ≠ '0' → 0 < n) := by
  unfold scanWidth at h
  split_ifs at h with hch
  · obtain ⟨⟨n, d, v⟩, hscan, heq⟩ := Option.map_eq_some_iff.mp h
    cases heq
    obtain ⟨hread, hbounds⟩ := readAmount_digits hch hscan
    exact ⟨hread, fun m hm => Option.some.inj hm ▸ hbounds⟩
  · cases h
    exact ⟨readAmount_other (Bool.eq_false_iff.mpr hch) hc t, nofun⟩

theorem readPrecision_scan (h : scanPrecision ch t = some (prec, c, u)) (hc : c ≠ '*') (hpoint : c ≠ '.') :
    readPrecision (ch :: t) = (prec.map .digits, c :: u) ∧ ∀ n ∈ prec, n < 100 := by
  unfold scanPrecision at h
  split_ifs at h with hch
  · cases t with
    | nil => cases h
    | cons d t =>
      dsimp only at h
      unfold readPrecision
      dsimp only
      rw [if_pos hch]
      split_ifs at h with hd
      · obtain ⟨⟨n, d, v⟩, hscan, heq⟩ := Option.map_eq_some_iff.mp h
        cases heq
        obtain ⟨hread, hlt, -⟩ := readAmount_digits hd hscan
        rw [hread]
        exact ⟨rfl, fun m hm => Option.some.inj hm ▸ hlt⟩
      · cases h
        rw [readAmount_other (Bool.eq_false_iff.mpr hd) hc]
        exact ⟨rfl, fun m hm => Option.some.inj hm ▸ by decide⟩
  · cases h
    unfold readPrecision
    dsimp only
    rw [if_neg hch]
    exact ⟨rfl, nofun⟩

/-- What the unit reader accepts is the unit that is there. -/
theorem readSpec_unit (h : simpleFormatArgParse t = some (ch, ljust, width, prec, u))
    (hch : ch = 's' ∨ ch = 'r' ∨ ch = 'a') :
    ∃ flags, readSpec t = (.unit ⟨flags, width.map .digits, prec.map .digits, none, ch⟩, u) ∧
      (ljust = true ↔ '-' ∈ flags) ∧ (∀ n ∈ width, n < 100 ∧ 0 < n) ∧ ∀ n ∈ prec, n < 100 := by
  unfold simpleFormatArgParse at h
  obtain ⟨⟨ch₁, ljust₁, t₁⟩, hflags, h⟩ := Option.bind_eq_some_iff.mp h
  obtain ⟨⟨width₁, ch₂, t₂⟩, hwidth, h⟩ := Option.bind_eq_some_iff.mp h
  obtain ⟨⟨prec₁, ch₃, t₃⟩, hprec, h⟩ := Option.bind_eq_some_iff.mp h
  cases h
  have hne {x : Char} (hx : x ≠ 's' ∧ x ≠ 'r' ∧ x ≠ 'a') : ch ≠ x := by
    rintro rfl
    obtain rfl | rfl | rfl := hch
    · exact hx.1 rfl
    · exact hx.2.1 rfl
    · exact hx.2.2 rfl
  -- a star or a parenthesis would have been the conversion
  have hthrough {x : Char} (hx : x ≠ 's' ∧ x ≠ 'r' ∧ x ≠ 'a') (hpoint : x ≠ '.') : ch₂ ≠ x := by
    rintro rfl
    unfold scanPrecision at hprec
    rw [if_neg hpoint] at hprec
    cases hprec
    exact hne hx rfl
  obtain ⟨flags, ht, hflag, hch₁, hljust⟩ := scanFlags_flags t false hflags
  obtain ⟨hreadWidth, hwidthBounds⟩ := readAmount_width hwidth (hthrough (by decide) (by decide))
  obtain ⟨hreadPrec, hprecBounds⟩ := readPrecision_scan hprec (hne (by decide)) (hne (by decide))
  obtain ⟨htake, hdrop⟩ := takeWhile_run hflag hch₁ t₁
  have hkey : t.head? ≠ some '(' := by
    rw [ht]
    cases flags with
    | nil =>
      intro h
      obtain rfl := Option.some.inj h
      unfold scanWidth at hwidth
      cases hwidth
      exact hthrough (by decide) (by decide) rfl
    | cons x flags =>
      intro h
      obtain rfl := Option.some.inj h
      cases hflag '(' List.mem_cons_self
  have hsmall {bound : ℕ} {amount : Option ℕ} (h : ∀ n ∈ amount, n < 100) (hbound : 100 ≤ bound) :
      (amount.map Amount.digits).any (Amount.isBeyond bound) = false := by
    cases amount with
    | none => rfl
    | some n =>
      have := h n rfl
      exact decide_eq_false (by omega)
  have hlength : readLength (ch :: u) = (none, ch :: u) := by
    obtain rfl | rfl | rfl := hch <;> rfl
  refine ⟨flags, ?_, ?_, ?_, hprecBounds⟩
  · unfold readSpec
    dsimp only
    rw [if_neg hkey, ht, htake, hdrop, hreadWidth, hreadPrec, hlength, hsmall (fun n hn => (hwidthBounds n hn).1) (by decide),
      hsmall hprecBounds (by decide)]
    rfl
  · rw [hljust, or_iff_right nofun]
  · intro n hn
    obtain ⟨hlt, hpos⟩ := hwidthBounds n hn
    apply And.intro hlt
    apply hpos
    rintro rfl
    cases hch₁

end Units

section Specs

variable {ljust : Bool} {width prec : Option ℕ} {body : List Char}

theorem readAlign_body (h : ∀ c ∈ body, isAlign c = false) : readAlign body = (none, none, body) := by
  match body with
  | [] => rfl
  | [c] => exact if_neg (Bool.eq_false_iff.mp (h c List.mem_cons_self))
  | c :: d :: t =>
    rw [readAlign, if_neg (Bool.eq_false_iff.mp (h d (List.mem_cons_of_mem _ List.mem_cons_self))),
      if_neg (Bool.eq_false_iff.mp (h c List.mem_cons_self))]

theorem readAlign_arrow (h : ∀ c ∈ body, isAlign c = false) : readAlign ('>' :: body) = (none, some '>', body) := by
  cases body with
  | nil => rfl
  | cons c t =>
    rw [readAlign, if_neg (Bool.eq_false_iff.mp (h c List.mem_cons_self))]
    exact if_pos rfl

theorem readZero_body (h : body.head? ≠ some '0') : readZero body = (false, body) := by
  cases body with
  | nil => rfl
  | cons c t => exact if_neg fun hc => h (congrArg some hc)

theorem isAlign_of_isDigit {c : Char} (h : c.isDigit = true) : isAlign c = false := by
  apply decide_eq_false
  intro hmem
  simp only [List.mem_cons, List.not_mem_nil, or_false] at hmem
  obtain rfl | rfl | rfl | rfl := hmem <;> cases h

/-- The digits of a width, and the point and the digits of a precision. -/
def widthDigits (width : Option ℕ) : List Char := (width.map fun n => Nat.toDigits 10 n).getD []

def precDigits (prec : Option ℕ) : List Char := (prec.map fun n => '.' :: Nat.toDigits 10 n).getD []

theorem isDigit_of_mem_widthDigits {c : Char} (h : c ∈ widthDigits width) : c.isDigit = true := by
  cases width with
  | none => cases h
  | some n => exact Nat.isDigit_of_mem_toDigits (by decide) (by decide) h

theorem isAlign_of_mem_precDigits {c : Char} (h : c ∈ precDigits prec) : isAlign c = false := by
  cases prec with
  | none => cases h
  | some n =>
    obtain rfl | h := List.mem_cons.mp h
    · rfl
    · exact isAlign_of_isDigit (Nat.isDigit_of_mem_toDigits (by decide) (by decide) h)

theorem readPoint_precDigits (prec : Option ℕ) : readPoint (precDigits prec) = some (prec, []) := by
  cases prec with
  | none => rfl
  | some n =>
    have hall : ∀ c ∈ Nat.toDigits 10 n, c.isDigit = true := fun c hc =>
      Nat.isDigit_of_mem_toDigits (by decide) (by decide) hc
    have hhead : (Nat.toDigits 10 n).head?.any Char.isDigit = true := by
      cases hdigits : Nat.toDigits 10 n with
      | nil => exact absurd hdigits Nat.toDigits_ne_nil
      | cons c t => exact hall c (by rw [hdigits]; exact List.mem_cons_self)
    change readPoint ('.' :: Nat.toDigits 10 n) = _
    unfold readPoint
    dsimp only
    rw [if_pos rfl, if_pos hhead, List.takeWhile_eq_self_iff.mpr hall, List.dropWhile_eq_nil_iff.mpr hall,
      Nat.ofDigitChars_ten_toDigits]

theorem head_toDigits {n : ℕ} (hlt : n < 100) (hpos : 0 < n) : (Nat.toDigits 10 n).head? ≠ some '0' := by
  have hall : ∀ n < 100, 0 < n → (Nat.toDigits 10 n).head? ≠ some '0' := by decide +kernel
  exact hall n hlt hpos

/-- A right-justified width is announced by an arrow. -/
def arrow (ljust : Bool) (width : Option ℕ) : List Char := if ljust = false ∧ width.isSome then ['>'] else []

theorem specText_toList (hwidth : ∀ n ∈ width, 0 < n) :
    (specText ljust width prec).toList = arrow ljust width ++ (widthDigits width ++ precDigits prec) := by
  have hany : width.any (0 < ·) = width.isSome := by
    cases width with
    | none => rfl
    | some n => exact decide_eq_true (hwidth n rfl)
  unfold specText arrow widthDigits precDigits
  rw [hany]
  cases width with
  | none => cases prec <;> cases ljust <;> simp
  | some w => cases prec <;> cases ljust <;> simp

theorem readStringSpec_specText (hwidth : ∀ n ∈ width, n < 100 ∧ 0 < n) :
    readStringSpec (specText ljust width prec).toList =
      some ⟨' ', if ljust = false ∧ width.isSome then '>' else '<', width.getD 0, prec⟩ := by
  have hdigits : ∀ c ∈ widthDigits width, c.isDigit = true := fun c => isDigit_of_mem_widthDigits
  have halign : ∀ c ∈ widthDigits width ++ precDigits prec, isAlign c = false := by
    intro c hc
    obtain hc | hc := List.mem_append.mp hc
    · exact isAlign_of_isDigit (hdigits c hc)
    · exact isAlign_of_mem_precDigits hc
  have hzero : (widthDigits width ++ precDigits prec).head? ≠ some '0' := by
    cases width with
    | none =>
      cases prec with
      | none => nofun
      | some p => exact fun h => absurd (Option.some.inj h) (by decide)
    | some n =>
      obtain ⟨hlt, hpos⟩ := hwidth n rfl
      change (Nat.toDigits 10 n ++ precDigits prec).head? ≠ some '0'
      rw [List.head?_append]
      cases hdigits : (Nat.toDigits 10 n).head? with
      | none => exact absurd (List.head?_eq_none_iff.mp hdigits) Nat.toDigits_ne_nil
      | some c =>
        have hhead := head_toDigits hlt hpos
        rw [hdigits] at hhead
        exact hhead
  have hspan : (widthDigits width ++ precDigits prec).takeWhile Char.isDigit = widthDigits width ∧
      (widthDigits width ++ precDigits prec).dropWhile Char.isDigit = precDigits prec := by
    cases prec with
    | none =>
      change (_ ++ []).takeWhile _ = _ ∧ (_ ++ []).dropWhile _ = []
      rw [List.append_nil]
      exact ⟨List.takeWhile_eq_self_iff.mpr hdigits, List.dropWhile_eq_nil_iff.mpr hdigits⟩
    | some p => exact takeWhile_run hdigits rfl (Nat.toDigits 10 p)
  have hvalue : Nat.ofDigitChars 10 (widthDigits width) 0 = width.getD 0 := by
    cases width with
    | none => rfl
    | some n => exact Nat.ofDigitChars_ten_toDigits
  have hread : readAlign (arrow ljust width ++ (widthDigits width ++ precDigits prec)) =
      (none, (arrow ljust width).head?, widthDigits width ++ precDigits prec) := by
    unfold arrow
    split_ifs
    · exact readAlign_arrow halign
    · exact readAlign_body halign
  have harrow : (arrow ljust width).head? ≠ some '=' := by
    unfold arrow
    split_ifs
    · exact fun h => absurd (Option.some.inj h) (by decide)
    · nofun
  rw [specText_toList fun n hn => (hwidth n hn).2]
  unfold readStringSpec
  dsimp only
  rw [hread]
  dsimp only
  rw [readZero_body hzero]
  dsimp only
  rw [hspan.1, hspan.2, readPoint_precDigits]
  dsimp only
  rw [if_pos ⟨.inl rfl, harrow⟩, hvalue, if_neg Bool.false_ne_true]
  unfold arrow
  split <;> rfl

variable {ε : Type}

/-- The format spec asks for what the unit asks for. -/
theorem formatString_specText {ch : Char} {flags : List Char} (hljust : ljust = true ↔ '-' ∈ flags)
    (hwidth : ∀ n ∈ width, n < 100 ∧ 0 < n) (text : List Char) :
    formatString (specText ljust width prec).toList text = (.ok (justify
      ⟨flags, width.map .digits, prec.map .digits, none, ch⟩ (width.map fun n : ℕ => (n : ℤ)) (prec.map fun n : ℕ => (n : ℤ)) text) :
        Except (Error ε) (List Char)) := by
  have hprec : (prec.map fun n : ℕ => (n : ℤ)).map Int.toNat = prec := by cases prec <;> rfl
  have hsize : ((width.map fun n : ℕ => (n : ℤ)).getD 0).natAbs = width.getD 0 := by cases width <;> rfl
  have hsign : ¬ (width.map fun n : ℕ => (n : ℤ)).getD 0 < 0 := by
    cases width with
    | none => decide
    | some n => exact Int.not_lt.mpr (Int.natCast_nonneg n)
  unfold formatString
  rw [readStringSpec_specText hwidth]
  apply congrArg Except.ok
  unfold StringSpec.apply justify
  dsimp only
  rw [hprec, hsize]
  cases ljust with
  | true =>
    have hleft : (if true = false ∧ width.isSome = true then '>' else '<') = '<' := if_neg fun h => Bool.noConfusion h.1
    rw [hleft, if_neg (by decide), if_neg (by decide), if_pos (.inl (hljust.mp rfl))]
  | false =>
    have hright : ¬ ('-' ∈ flags ∨ (width.map fun n : ℕ => (n : ℤ)).getD 0 < 0) := fun h =>
      h.elim (fun hmem => Bool.noConfusion (hljust.mpr hmem)) hsign
    rw [if_neg hright]
    cases width with
    | none =>
      have hnone : padding ((none : Option ℕ).getD 0) ' ' (cut prec text) = [] := by
        unfold padding
        rw [Option.getD_none, Nat.zero_sub]
        rfl
      rw [hnone, List.append_nil]
      rfl
    | some n => rfl

end Specs

section Main

variable {E V ε : Type} (conv : Conversions V ε) (value : E → V) {chars rest : List Char} {arg : Expr E}
  {part : Expr (ExprKind E)}

theorem sizeOf_digits (amount : Option ℕ) (args : List V) :
    sizeOf conv (amount.map .digits) args = .ok (amount.map fun n : ℕ => (n : ℤ), args) := by
  cases amount <;> rfl

/-- An accepted unit takes one value, and its part gives the text it gives. -/
theorem parseFormat_unit (h : parseFormat chars arg = some (part, rest)) :
    ∃ spec r, readSpec chars = (.unit spec, rest) ∧ (Piece.unit spec).Plain ∧ part.kind.text conv value = raising r ∧
      ∀ args, spec.output conv (value arg.kind :: args) = (raising r).map fun text => (text, args) := by
  unfold parseFormat at h
  cases hparse : simpleFormatArgParse chars with
  | none =>
    rw [hparse] at h
    cases h
  | some parsed =>
    obtain ⟨ch, ljust, width, prec, u⟩ := parsed
    rw [hparse] at h
    dsimp only at h
    have hch : ch = 's' ∨ ch = 'r' ∨ ch = 'a' := by
      by_contra hch
      rw [if_neg hch] at h
      cases h
    rw [if_pos hch] at h
    cases h
    obtain ⟨flags, hread, hljust, hwidth, -⟩ := readSpec_unit hparse hch
    have hspec : ((if (specText ljust width prec).isEmpty = true then none
        else some (⟨specText ljust width prec, .NO_LOCATION⟩ : Expr String)).map fun spec => spec.kind.toList).getD [] =
          (specText ljust width prec).toList := by
      split_ifs with hempty
      · rw [String.isEmpty_iff.mp hempty]
        rfl
      · rfl
    have hconverted (r : Except ε (List Char)) :
        ((raising r).bind fun text => formatString (specText ljust width prec).toList text) =
          raising (r.map (justify ⟨flags, width.map .digits, prec.map .digits, none, ch⟩
            (width.map fun n : ℕ => (n : ℤ)) (prec.map fun n : ℕ => (n : ℤ)))) := by
      cases r with
      | error e => rfl
      | ok text => exact formatString_specText hljust hwidth text
    refine ⟨_, Spec.convert conv ⟨flags, width.map .digits, prec.map .digits, none, ch⟩ (width.map fun n : ℕ => (n : ℤ)) (prec.map fun n : ℕ => (n : ℤ)) (value arg.kind),
      hread, .inr ⟨?_, rfl, ?_, ?_⟩, ?_, ?_⟩
    · simpa using hch
    · cases width with
      | none => nofun
      | some n => exact fun a ha => Option.some.inj ha ▸ nofun
    · cases prec with
      | none => nofun
      | some n => exact fun a ha => Option.some.inj ha ▸ nofun
    · unfold ExprKind.text Spec.convert convertBy
      dsimp only
      rw [hspec]
      obtain rfl | rfl | rfl := hch
      · rw [if_pos rfl, if_pos rfl]
        exact hconverted _
      · rw [if_neg (by decide), if_pos rfl, if_neg (by decide), if_pos rfl]
        exact hconverted _
      · rw [if_neg (by decide), if_neg (by decide), if_pos rfl, if_neg (by decide), if_neg (by decide), if_pos rfl]
        exact hconverted _
    · intro args
      have hpercent : ch ≠ '%' := by
        rintro rfl
        revert hch
        decide
      unfold Spec.output
      rw [sizeOf_digits]
      change Except.bind (sizeOf conv (prec.map .digits) _) _ = _
      rw [sizeOf_digits]
      exact if_neg hpercent

/-- What the literal scan hands over, and what it stands for. -/
theorem parseLiteral_literal (chars : List Char) :
    ∃ s t rest, chars = s ++ rest ∧ Literal s t ∧ Stops rest ∧ (parseLiteral (E := E) chars).2 = rest ∧
      joinedStr conv value (parseLiteral chars).1.toList = .ok t := by
  obtain ⟨s, t, rest, marked, hchars, hliteral, hstops, hself, hscan⟩ := scanLiteral_literal chars 0 false
  rw [Nat.zero_add, Bool.false_or] at hscan
  have hdrop : chars.drop s.length = rest := by rw [hchars, List.drop_left]
  have htake : chars.take s.length = s := by rw [hchars, List.take_left]
  refine ⟨s, t, rest, hchars, hliteral, hstops, ?_, ?_⟩
  · unfold parseLiteral
    rw [hscan]
    dsimp only
    split_ifs <;> exact hdrop
  · unfold parseLiteral
    rw [hscan]
    dsimp only
    split_ifs with hzero hmarked
    · obtain rfl := List.length_eq_zero_iff.mp hzero
      cases hliteral
      rfl
    · rw [htake, hliteral.replace]
      change Except.ok ((String.ofList t).toList ++ []) = _
      rw [String.toList_ofList, List.append_nil]
    · rw [htake, ← hself (Bool.eq_false_iff.mpr hmarked)]
      change Except.ok ((String.ofList t).toList ++ []) = _
      rw [String.toList_ofList, List.append_nil]

variable {conv value}

/-- One unit of `optimize_format`'s loop, and then the rest of it. -/
theorem optimizeUnits_refines (elts : List (Expr E)) (chars : List Char) (seq parts : List (Expr (ExprKind E)))
    (h : optimizeUnits seq chars elts = some parts) :
    ∃ tail r, parts = seq ++ tail ∧ (∀ p ∈ pieces chars, p.Plain) ∧ joinedStr conv value tail = raising r ∧
      percent conv chars (elts.map fun arg => value arg.kind) = raising r := by
  obtain ⟨s, t, rest, hchars, hliteral, hstops, hrest, hlit⟩ := parseLiteral_literal conv value chars
  unfold percent
  induction elts generalizing chars seq s t rest with
  | nil =>
    unfold optimizeUnits at h
    dsimp only at h
    rw [hrest] at h
    cases rest with
    | nil =>
      cases h
      refine ⟨_, .ok t, rfl, ?_, hlit, ?_⟩
      · rw [hchars]
        apply hliteral.plain
        rw [pieces]
        nofun
      · rw [hchars, hliteral.render, pieces]
        exact congrArg Except.ok (List.append_nil t)
    | cons c rest => cases h
  | cons arg elts ih =>
    unfold optimizeUnits at h
    dsimp only at h
    rw [hrest] at h
    cases rest with
    | nil => cases h
    | cons c rest =>
      dsimp only at h
      obtain hnil | ⟨u, hu, -⟩ := hstops
      · cases hnil
      obtain ⟨rfl, rfl⟩ := List.cons.inj hu
      cases hunit : parseFormat rest arg with
      | none =>
        rw [hunit] at h
        cases h
      | some parsed =>
        obtain ⟨part, after⟩ := parsed
        rw [hunit] at h
        dsimp only at h
        obtain ⟨spec, r, hread, hplain, htext, houtput⟩ := parseFormat_unit conv value hunit
        obtain ⟨s', t', rest', hchars', hliteral', hstops', hrest', hlit'⟩ := parseLiteral_literal conv value after
        obtain ⟨tail, r', rfl, htailPlain, htail, hpercent⟩ := ih after _ h s' t' rest' hchars' hliteral' hstops' hrest' hlit'
        refine ⟨(parseLiteral chars).1.toList ++ part :: tail,
          r.bind fun text => r'.map fun text' => t ++ (text ++ text'), ?_, ?_, ?_, ?_⟩
        · rw [List.append_assoc, List.append_assoc]
          rfl
        · rw [hchars]
          apply hliteral.plain
          rw [pieces_percent, hread]
          exact List.forall_mem_cons.mpr ⟨hplain, htailPlain⟩
        · rw [joinedStr_append, hlit, joinedStr, htext, htail]
          cases r with
          | error e => rfl
          | ok text => cases r' <;> rfl
        · rw [hchars, hliteral.render, pieces_percent, hread]
          change (Except.bind (spec.output conv (value arg.kind :: elts.map fun arg => value arg.kind)) _).map _ = _
          rw [houtput]
          cases r with
          | error e => rfl
          | ok text =>
            change ((render conv (pieces after) _).map _).map _ = _
            rw [hpercent]
            cases r' <;> rfl

variable (conv value)

/-- What is rewritten gives the text of `fmt % tuple`, and raises what it raises; nothing is rewritten that the
format string makes fail, or that asks for more than `str`, `repr` and `ascii`. -/
theorem optimizeFormat_preserves (fmt : String) (elts : List (Expr E)) :
    (∀ parts, optimizeFormat fmt elts = some parts →
      joinedStr conv value parts = percent conv fmt.toList (elts.map fun arg => value arg.kind)) ∧
    (((∃ e, e.OfFormat ∧ percent conv fmt.toList (elts.map fun arg => value arg.kind) = .error e) ∨
        ¬ ∀ p ∈ pieces fmt.toList, p.Plain) →
      optimizeFormat fmt elts = none) := by
  have hrefines {parts : List (Expr (ExprKind E))} (h : optimizeFormat fmt elts = some parts) :=
    @optimizeUnits_refines E V ε conv value elts fmt.toList [] parts h
  constructor
  · intro parts h
    obtain ⟨tail, r, rfl, -, htail, hpercent⟩ := hrefines h
    rw [htail, hpercent]
  · intro hfails
    cases h : optimizeFormat fmt elts with
    | none => rfl
    | some parts =>
      obtain ⟨tail, r, -, hplain, -, hpercent⟩ := hrefines h
      obtain ⟨e, he, herror⟩ | hnot := hfails
      · rw [hpercent] at herror
        cases r with
        | error e' =>
          cases herror
          exact he.elim
        | ok text => cases herror
      · exact absurd hplain hnot

end Main

/-- Values that are their own text. -/
def plainText : Conversions (List Char) Unit :=
  { str := .ok
    repr := fun v => .ok ('"' :: v ++ ['"'])
    ascii := fun v => .ok ('"' :: v ++ ['"'])
    other := fun _ _ _ _ => .error ()
    star := fun _ => .error () }

theorem greeting_preserves :
    (∃ parts, optimizeFormat "%%s: %5s%-4.2r%%" [⟨['x'], .NO_LOCATION⟩, ⟨['y'], .NO_LOCATION⟩] = some parts ∧
      joinedStr plainText id parts = percent plainText "%%s: %5s%-4.2r%%".toList [['x'], ['y']]) ∧
    optimizeFormat "%d" [⟨['x'], .NO_LOCATION⟩] = none := by
  constructor
  · have hsome : (optimizeFormat "%%s: %5s%-4.2r%%" [(⟨['x'], .NO_LOCATION⟩ : Expr (List Char)),
        ⟨['y'], .NO_LOCATION⟩]).isSome = true := by decide +kernel
    obtain ⟨parts, hparts⟩ := Option.isSome_iff_exists.mp hsome
    exact ⟨parts, hparts, (optimizeFormat_preserves plainText id _ _).1 _ hparts⟩
  · apply (optimizeFormat_preserves plainText id _ _).2
    apply Or.inr
    intro hplain
    have hpieces : pieces "%d".toList = (readSpec ['d']).1 :: pieces (readSpec ['d']).2 := pieces_percent ['d']
    rw [hpieces] at hplain
    obtain h | ⟨h, -⟩ := hplain _ List.mem_cons_self
    · cases h
    · revert h
      decide

end WeavePy.PercentFormat
