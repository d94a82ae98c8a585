import WeavePy.Csv.Operations

/-!
A field as the writer joins it leads the reader's automaton from the start of a field to its end.
-/

namespace WeavePy.Csv

variable {Num : Type} {cfg : Config Num} {p p' : Parser Num} {fs : List (Cell Num)}
  {f g : List Char}

/-- The saved cells, the field so far, and its count. -/
structure Holds (p : Parser Num) (fs : List (Cell Num)) (f : List Char) : Prop where
  fields : p.fields = fs
  field : p.field = f
  len : p.fieldLen = f.length

/-- The states that the end of an input item leaves as they are. -/
def Inside (p : Parser Num) : Prop := p.state = .inQuotedField ∨ p.state = .afterEscapedCrnl

/-- A run over characters that stands inside a field after each line break. -/
inductive Glides (cfg : Config Num) : Parser Num → List Char → Parser Num → Prop
  | nil (p : Parser Num) : Glides cfg p [] p
  | cons {p q r : Parser Num} {c : Char} {cs : List Char} (h : p.process cfg (some c) = .ok q)
      (hc : isNewline (some c) = true → Inside q) (ht : Glides cfg q cs r) :
      Glides cfg p (c :: cs) r

theorem Glides.append {q r : Parser Num} {s t : List Char} (h₁ : Glides cfg p s q)
    (h₂ : Glides cfg q t r) : Glides cfg p (s ++ t) r := by
  induction h₁ with
  | nil p => exact h₂
  | cons h hc _ ih => exact .cons h hc (ih h₂)

theorem Glides.processAll {s : List Char} (h : Glides cfg p s p') :
    Parser.processAll cfg p s = .ok p' := by
  induction h with
  | nil p => rfl
  | cons h _ _ ih =>
    rw [Parser.processAll, h]
    exact ih

theorem processAll_append (p : Parser Num) (s t : List Char) :
    Parser.processAll cfg p (s ++ t) = Parser.processAll cfg p s >>= fun q => q.processAll cfg t := by
  induction s generalizing p with
  | nil => rfl
  | cons c s ih =>
    rw [List.cons_append, Parser.processAll, Parser.processAll]
    cases p.process cfg (some c) with
    | error e => rfl
    | ok q => exact ih q

theorem process_none_inside (h : Inside p) : p.process cfg none = .ok p := by
  rcases h with h | h <;> simp [Parser.process, h]

/-- Unquoted fields are read as strings. -/
def Bare (d : Dialect) : Prop := d.quoting = QUOTE_MINIMAL ∨ d.quoting = QUOTE_NONE

theorem saveField_str (h : p.unquoted = true → Bare cfg.dialect) :
    p.saveField cfg =
      .ok { p with fields := p.fields ++ [.str p.field], field := [], fieldLen := 0 } := by
  have hnone : ¬ (p.unquoted = true ∧ p.fieldLen = 0 ∧
      (cfg.dialect.quoting = QUOTE_NOTNULL ∨ cfg.dialect.quoting = QUOTE_STRINGS)) := by
    rintro ⟨hu, -, hq⟩
    rcases h hu with hb | hb <;> rcases hq with hq | hq <;> rw [hb] at hq <;> exact absurd hq (by decide)
  have hnum : ¬ (p.unquoted = true ∧ p.fieldLen ≠ 0 ∧
      (cfg.dialect.quoting = QUOTE_NONNUMERIC ∨ cfg.dialect.quoting = QUOTE_STRINGS)) := by
    rintro ⟨hu, -, hq⟩
    rcases h hu with hb | hb <;> rcases hq with hq | hq <;> rw [hb] at hq <;> exact absurd hq (by decide)
  rw [Parser.saveField, if_neg hnone, if_neg hnum]
  rfl

theorem Holds.addChar (h : Holds p fs f) (hlim : (f.length : ℤ) < cfg.limit) (c : Char) :
    ∃ q, p.addChar cfg c = .ok q ∧ Holds q fs (f ++ [c]) ∧ q.state = p.state ∧
      q.unquoted = p.unquoted := by
  have hlen : ¬ p.fieldLen ≥ cfg.limit := by
    rw [h.len]
    omega
  exact ⟨_, if_neg hlen, ⟨h.fields, by rw [h.field], by simp [h.len]⟩, rfl, rfl⟩

theorem Holds.addSome (h : Holds p fs f) (hlim : (f.length : ℤ) < cfg.limit) (c : Char) (st : St) :
    ∃ q, p.addSome cfg (some c) st = .ok q ∧ Holds q fs (f ++ [c]) ∧ q.state = st ∧
      q.unquoted = p.unquoted := by
  obtain ⟨q, hq, hh, -, hu⟩ := h.addChar hlim c
  refine ⟨{ q with state := st }, ?_, ⟨hh.fields, hh.field, hh.len⟩, rfl, hu⟩
  rw [Parser.addSome, Option.getD_some, hq]
  rfl

theorem isQuote_iff {c : Char} : isQuote cfg (some c) = true ↔ cfg.dialect.quotechar = some c := by
  rw [isQuote]
  cases cfg.dialect.quotechar <;> simp [eq_comm]

theorem isEscape_iff {c : Char} :
    isEscape cfg (some c) = true ↔ cfg.dialect.escapechar = some c := by
  rw [isEscape]
  cases cfg.dialect.escapechar <;> simp [eq_comm]

theorem isNewline_iff {c : Char} : isNewline (some c) = true ↔ c = '\n' ∨ c = '\r' := by
  simp [isNewline]

/-- What the writer makes of one character, and whether that character calls for quotes. -/
inductive Piece (d : Dialect) (c : Char) : List Char → Bool → Prop
  | plain (h : d.special c = false) : Piece d c [c] false
  | escaped {e : Char} (he : d.escapechar = some e)
      (hc : d.quoting = QUOTE_NONE ∨ d.quotechar = some c ∧ d.doublequote = false ∨
        d.escapechar = some c) : Piece d c [e, c] false
  | doubled (hn : d.quoting ≠ QUOTE_NONE) (hq : d.quotechar = some c)
      (hd : d.doublequote = true) : Piece d c [c, c] true
  | quoted (hn : d.quoting ≠ QUOTE_NONE) (hq : d.quotechar ≠ some c) (he : d.escapechar ≠ some c) :
      Piece d c [c] true

theorem joinBody_cons {d : Dialect} {body b : List Char} {q q' : Bool} {c : Char} {cs : List Char}
    (h : d.joinBody body q (c :: cs) = .ok (b, q')) :
    ∃ piece qc, Piece d c piece qc ∧ d.joinBody (body ++ piece) (q || qc) cs = .ok (b, q') := by
  rw [Dialect.joinBody] at h
  by_cases hs : d.special c = false
  · rw [if_pos hs] at h
    exact ⟨[c], false, .plain hs, by rw [Bool.or_false]; exact h⟩
  rw [if_neg hs] at h
  have hescape (hc : d.quoting = QUOTE_NONE ∨ d.quotechar = some c ∧ d.doublequote = false ∨
        d.escapechar = some c) (hnone : d.escapechar ≠ none)
      (h : ∀ e, d.escapechar = some e → d.joinBody (body ++ [e] ++ [c]) q cs = .ok (b, q')) :
      ∃ piece qc, Piece d c piece qc ∧
        d.joinBody (body ++ piece) (q || qc) cs = .ok (b, q') := by
    obtain ⟨e, he⟩ := Option.ne_none_iff_exists'.mp hnone
    refine ⟨[e, c], false, .escaped he hc, ?_⟩
    rw [Bool.or_false, show body ++ [e, c] = body ++ [e] ++ [c] by simp]
    exact h e he
  by_cases hn : d.quoting = QUOTE_NONE
  · rw [if_pos hn] at h
    exact hescape (.inl hn) (fun he => by rw [he] at h; cases h) fun e he => by rw [he] at h; exact h
  rw [if_neg hn] at h
  by_cases hq : d.quotechar = some c
  · rw [if_pos hq] at h
    by_cases hd : d.doublequote = true
    · rw [if_pos hd] at h
      refine ⟨[c, c], true, .doubled hn hq hd, ?_⟩
      rw [Bool.or_true, show body ++ [c, c] = body ++ [c] ++ [c] by simp]
      exact h
    · rw [if_neg hd] at h
      exact hescape (.inr (.inl ⟨hq, by simpa using hd⟩)) (fun he => by rw [he] at h; cases h)
        fun e he => by rw [he] at h; exact h
  rw [if_neg hq] at h
  by_cases he : d.escapechar = some c
  · rw [if_pos he] at h
    exact hescape (.inr (.inr he)) (fun hn => by rw [hn] at h; cases h) fun e he => by rw [he] at h; exact h
  · rw [if_neg he] at h
    exact ⟨[c], true, .quoted hn hq he, by rw [Bool.or_true]; exact h⟩

section Reading

variable (hd : cfg.dialect.Accepted)

/-- Past the first character of an unquoted field. -/
def Live (p : Parser Num) : Prop := p.state = .inField ∨ p.state = .afterEscapedCrnl

theorem special_eq_false {d : Dialect} {c : Char} (h : d.special c = false) :
    c ≠ d.delimiter ∧ d.escapechar ≠ some c ∧ d.quotechar ≠ some c ∧ c ≠ '\n' ∧ c ≠ '\r' := by
  simp only [Dialect.special, Bool.or_eq_false_iff, beq_eq_false_iff_ne] at h
  exact ⟨h.1.1.1.1.1, h.1.1.1.1.2, h.1.1.1.2, h.1.1.2, h.1.2⟩

/-- At the start of a field a character that is no line break, quote, delimiter, or space to skip,
either begins an escape or is the first character of the field. -/
theorem processStartField_char {c : Char} (hn : isNewline (some c) = false)
    (hq : cfg.dialect.quotechar ≠ some c)
    (hs : cfg.dialect.escapechar ≠ some c → ¬ (c = ' ' ∧ cfg.dialect.skipinitialspace = true))
    (hdelim : cfg.dialect.escapechar ≠ some c → c ≠ cfg.dialect.delimiter) :
    p.processStartField cfg (some c) =
      if cfg.dialect.escapechar = some c then .ok { p with unquoted := true, state := .escapedChar }
      else Parser.addSome cfg { p with unquoted := true } (some c) .inField := by
  have hquote : ¬ (isQuote cfg (some c) = true ∧ cfg.dialect.quoting ≠ QUOTE_NONE) :=
    fun h => hq (isQuote_iff.mp h.1)
  rw [Parser.processStartField]
  dsimp only
  rw [if_neg (by simp [hn]), if_neg hquote]
  by_cases he : cfg.dialect.escapechar = some c
  · rw [if_pos (isEscape_iff.mpr he), if_pos he]
  · rw [if_neg fun h => he (isEscape_iff.mp h), if_neg fun h => hs he (by simpa using h),
      if_neg fun h => hdelim he (by simpa using h), if_neg he]

theorem processInField_char {c : Char} (hn : isNewline (some c) = false)
    (hdelim : cfg.dialect.escapechar ≠ some c → c ≠ cfg.dialect.delimiter) :
    p.processInField cfg (some c) =
      if cfg.dialect.escapechar = some c then .ok { p with state := .escapedChar }
      else p.addChar cfg c := by
  rw [Parser.processInField, if_neg (by simp [hn])]
  by_cases he : cfg.dialect.escapechar = some c
  · rw [if_pos (isEscape_iff.mpr he), if_pos he]
  · rw [if_neg fun h => he (isEscape_iff.mp h), if_neg fun h => hdelim he (by simpa using h),
      if_neg he, Option.getD_some]

/-- Where the next piece of an unquoted field is read. -/
def Ready (cfg : Config Num) (p : Parser Num) (f : List Char) : Prop :=
  Live p ∨ p.state = .startField ∧
    (cfg.dialect.skipinitialspace = true → f.head? ≠ some ' ')

include hd in
theorem Ready.escape {e : Char} (h : Ready cfg p f) (hh : Holds p fs g)
    (he : cfg.dialect.escapechar = some e) :
    ∃ q, p.process cfg (some e) = .ok q ∧ Holds q fs g ∧ q.state = .escapedChar := by
  obtain ⟨her, hen, hed, heq⟩ := hd.escape e he
  have hn : isNewline (some e) = false := by
    rw [← Bool.not_eq_true, isNewline_iff]
    exact fun h => h.elim hen her
  rcases h with (h | h) | ⟨h, -⟩
  · refine ⟨{ p with state := .escapedChar }, ?_, ⟨hh.fields, hh.field, hh.len⟩, rfl⟩
    rw [Parser.process, h]
    dsimp only
    rw [processInField_char hn (by simp [he]), if_pos he]
  · refine ⟨{ p with state := .escapedChar }, ?_, ⟨hh.fields, hh.field, hh.len⟩, rfl⟩
    rw [Parser.process, h]
    dsimp only
    rw [if_neg (by simp), processInField_char hn (by simp [he]), if_pos he]
  · refine ⟨{ p with unquoted := true, state := .escapedChar }, ?_,
      ⟨hh.fields, hh.field, hh.len⟩, rfl⟩
    rw [Parser.process, h]
    dsimp only
    rw [processStartField_char hn heq (by simp [he]) (by simp [he]), if_pos he]

theorem Ready.plain {c : Char} {cs : List Char} (h : Ready cfg p (c :: cs)) (hh : Holds p fs g)
    (hlim : (g.length : ℤ) < cfg.limit) (hs : cfg.dialect.special c = false) :
    ∃ q, p.process cfg (some c) = .ok q ∧ Holds q fs (g ++ [c]) ∧ Live q := by
  obtain ⟨hdel, he, hq, hlf, hcr⟩ := special_eq_false hs
  have hn : isNewline (some c) = false := by
    rw [← Bool.not_eq_true, isNewline_iff]
    exact fun h => h.elim hlf hcr
  rcases h with (h | h) | ⟨h, hsp⟩
  · obtain ⟨q, hrun, hq', hst, -⟩ := hh.addChar hlim c
    refine ⟨q, ?_, hq', .inl (hst.trans h)⟩
    rw [Parser.process, h]
    dsimp only
    rw [processInField_char hn fun _ => hdel, if_neg he, hrun]
  · obtain ⟨q, hrun, hq', hst, -⟩ := hh.addChar hlim c
    refine ⟨q, ?_, hq', .inr (hst.trans h)⟩
    rw [Parser.process, h]
    dsimp only
    rw [if_neg (by simp), processInField_char hn fun _ => hdel, if_neg he, hrun]
  · have hh' : Holds { p with unquoted := true } fs g := ⟨hh.fields, hh.field, hh.len⟩
    obtain ⟨q, hrun, hq', hst, -⟩ := hh'.addSome hlim c .inField
    refine ⟨q, ?_, hq', .inl hst⟩
    rw [Parser.process, h]
    dsimp only
    rw [processStartField_char hn hq (fun _ hc => hsp hc.2 (by simp [hc.1])) fun _ => hdel,
      if_neg he, hrun]

theorem escaped_char {c : Char} (h : p.state = .escapedChar) (hh : Holds p fs g)
    (hlim : (g.length : ℤ) < cfg.limit) :
    ∃ q, p.process cfg (some c) = .ok q ∧ Holds q fs (g ++ [c]) ∧ Live q ∧
      (isNewline (some c) = true → Inside q) := by
  rw [Parser.process, h]
  dsimp only
  by_cases hn : isNewline (some c) = true
  · obtain ⟨q, hrun, hq', hst, -⟩ := hh.addSome hlim c .afterEscapedCrnl
    exact ⟨q, by rw [if_pos hn, hrun], hq', .inr hst, fun _ => .inr hst⟩
  · obtain ⟨q, hrun, hq', hst, -⟩ := hh.addSome hlim c .inField
    exact ⟨q, by rw [if_neg hn, hrun], hq', .inl hst, fun h => absurd h hn⟩

include hd in
/-- A piece of an unquoted field puts its character in the field. -/
theorem Ready.piece {c : Char} {cs piece : List Char} (h : Ready cfg p (c :: cs))
    (hh : Holds p fs g) (hlim : (g.length : ℤ) < cfg.limit)
    (hp : Piece cfg.dialect c piece false) :
    ∃ q, Glides cfg p piece q ∧ Holds q fs (g ++ [c]) ∧ Live q := by
  cases hp with
  | plain hs =>
    obtain ⟨q, hrun, hq, hl⟩ := h.plain hh hlim hs
    obtain ⟨-, -, -, hlf, hcr⟩ := special_eq_false hs
    exact ⟨q, .cons hrun (fun hn => absurd (isNewline_iff.mp hn) (by simp [hlf, hcr])) (.nil q),
      hq, hl⟩
  | escaped he hc =>
    obtain ⟨q, hrun, hq, hst⟩ := h.escape hd hh he
    obtain ⟨r, hrun', hr, hl, hin⟩ := escaped_char hst hq hlim
    obtain ⟨her, hen, -⟩ := hd.escape _ he
    exact ⟨r, .cons hrun (fun hn => absurd (isNewline_iff.mp hn) (by simp [her, hen]))
      (.cons hrun' hin (.nil r)), hr, hl⟩

theorem joinBody_true {d : Dialect} {body b : List Char} {q : Bool} {f : List Char}
    (h : d.joinBody body true f = .ok (b, q)) : q = true := by
  induction f generalizing body with
  | nil => exact (Prod.mk.inj (Except.ok.inj h)).2.symm
  | cons c cs ih =>
    obtain ⟨piece, qc, -, h⟩ := joinBody_cons h
    exact ih h

include hd in
/-- An unquoted field, read from its start. -/
theorem unquoted_glides {body b : List Char} {q : Bool}
    (h : cfg.dialect.joinBody body q f = .ok (b, false)) :
    ∃ t, b = body ++ t ∧ ∀ (p : Parser Num) (g : List Char), Ready cfg p f → Holds p fs g →
      (g.length + f.length : ℤ) ≤ cfg.limit →
      ∃ r, Glides cfg p t r ∧ Holds r fs (g ++ f) ∧ (f = [] ∧ r = p ∨ Live r) := by
  induction f generalizing body q with
  | nil =>
    obtain ⟨rfl, -⟩ := Prod.mk.inj (Except.ok.inj h)
    exact ⟨[], by simp, fun p g _ hh _ => ⟨p, .nil p, by simpa using hh, .inl ⟨rfl, rfl⟩⟩⟩
  | cons c cs ih =>
    obtain ⟨piece, qc, hp, h⟩ := joinBody_cons h
    obtain ⟨rfl, rfl⟩ : q = false ∧ qc = false := by
      cases q <;> cases qc <;> first | exact ⟨rfl, rfl⟩ | exact absurd (joinBody_true h) (by simp)
    obtain ⟨t, rfl, hread⟩ := ih h
    refine ⟨piece ++ t, by simp, fun p g hr hh hlim => ?_⟩
    rw [List.length_cons] at hlim
    obtain ⟨r, hgl, hr', hl⟩ := hr.piece hd hh (by omega) hp
    obtain ⟨r', hgl', hr'', hl'⟩ := hread r (g ++ [c]) (.inl hl) hr' (by simp; omega)
    refine ⟨r', hgl.append hgl', by simpa using hr'', .inr ?_⟩
    rcases hl' with ⟨-, rfl⟩ | hl'
    · exact hl
    · exact hl'

/-- Reading between the quotes of a quoted field. -/
structure Quoted (cfg : Config Num) (p : Parser Num) (fs : List (Cell Num)) (f : List Char) : Prop
    extends Holds p fs f where
  state : p.state = .inQuotedField
  unquoted : p.unquoted = false

theorem Quoted.char {c : Char} (h : Quoted cfg p fs g) (hlim : (g.length : ℤ) < cfg.limit)
    (he : cfg.dialect.escapechar ≠ some c) (hq : cfg.dialect.quotechar ≠ some c) :
    ∃ q, p.process cfg (some c) = .ok q ∧ Quoted cfg q fs (g ++ [c]) := by
  obtain ⟨q, hrun, hq', hst, hu⟩ := h.toHolds.addChar hlim c
  refine ⟨q, ?_, ⟨hq', hst.trans h.state, hu.trans h.unquoted⟩⟩
  have hquote : ¬ (isQuote cfg (some c) = true ∧ cfg.dialect.quoting ≠ QUOTE_NONE) :=
    fun h => hq (isQuote_iff.mp h.1)
  rw [Parser.process, h.state]
  dsimp only
  rw [if_neg (by simp), if_neg fun h => he (isEscape_iff.mp h), if_neg hquote, Option.getD_some,
    hrun]

include hd in
theorem Quoted.escaped {e c : Char} (h : Quoted cfg p fs g) (hlim : (g.length : ℤ) < cfg.limit)
    (he : cfg.dialect.escapechar = some e) :
    ∃ q, Glides cfg p [e, c] q ∧ Quoted cfg q fs (g ++ [c]) := by
  obtain ⟨her, hen, -⟩ := hd.escape e he
  have hfirst : p.process cfg (some e) = .ok { p with state := .escapeInQuoted } := by
    rw [Parser.process, h.state]
    dsimp only
    rw [if_neg (by simp), if_pos (isEscape_iff.mpr he)]
  have hh : Holds { p with state := .escapeInQuoted } fs g := ⟨h.fields, h.field, h.len⟩
  obtain ⟨q, hrun, hq, hst, hu⟩ := hh.addSome hlim c .inQuotedField
  exact ⟨q, .cons hfirst (fun hn => absurd (isNewline_iff.mp hn) (by simp [her, hen]))
    (.cons hrun (fun _ => .inl hst) (.nil q)), hq, hst, hu.trans h.unquoted⟩

/-- The state in which a quote has just ended, or is about to double. -/
def quoteEnd (d : Dialect) : St := if d.doublequote then .quoteInQuoted else .inField

include hd in
theorem Quoted.close {q : Char} (h : Quoted cfg p fs g) (hn : cfg.dialect.quoting ≠ QUOTE_NONE)
    (hq : cfg.dialect.quotechar = some q) :
    p.process cfg (some q) = .ok { p with state := quoteEnd cfg.dialect } := by
  have he : ¬ isEscape cfg (some q) = true := fun h =>
    (hd.escape q (isEscape_iff.mp h)).2.2.2 hq
  rw [Parser.process, h.state]
  dsimp only
  rw [if_neg (by simp), if_neg he, if_pos ⟨isQuote_iff.mpr hq, hn⟩]
  rfl

include hd in
theorem Quoted.piece {c : Char} {piece : List Char} {qc : Bool} (h : Quoted cfg p fs g)
    (hlim : (g.length : ℤ) < cfg.limit) (hp : Piece cfg.dialect c piece qc) :
    ∃ q, Glides cfg p piece q ∧ Quoted cfg q fs (g ++ [c]) := by
  cases hp with
  | plain hs =>
    obtain ⟨-, he, hq, -⟩ := special_eq_false hs
    obtain ⟨q, hrun, hq'⟩ := h.char hlim he hq
    exact ⟨q, .cons hrun (fun _ => .inl hq'.state) (.nil q), hq'⟩
  | escaped he hc => exact h.escaped hd hlim he
  | doubled hn hq hdq =>
    have hclose := h.close hd hn hq
    rw [quoteEnd, if_pos hdq] at hclose
    have hh : Holds { p with state := .quoteInQuoted } fs g := ⟨h.fields, h.field, h.len⟩
    obtain ⟨q, hrun, hq', hst, hu⟩ := hh.addSome hlim c .inQuotedField
    have hsecond : Parser.process cfg { p with state := .quoteInQuoted } (some c) = .ok q := by
      rw [Parser.process]
      dsimp only
      rw [if_pos ⟨hn, isQuote_iff.mpr hq⟩, hrun]
    obtain ⟨hcr, hlf, -⟩ := hd.quote c hq
    exact ⟨q, .cons hclose (fun hn => absurd (isNewline_iff.mp hn) (by simp [hlf, hcr]))
      (.cons hsecond (fun _ => .inl hst) (.nil q)), hq', hst, hu.trans h.unquoted⟩
  | quoted hn hq he =>
    obtain ⟨q, hrun, hq'⟩ := h.char hlim he hq
    exact ⟨q, .cons hrun (fun _ => .inl hq'.state) (.nil q), hq'⟩

include hd in
/-- The text between the quotes of a quoted field. -/
theorem quoted_glides {body b : List Char} {q q' : Bool}
    (h : cfg.dialect.joinBody body q f = .ok (b, q')) :
    ∃ t, b = body ++ t ∧ ∀ (p : Parser Num) (g : List Char), Quoted cfg p fs g →
      (g.length + f.length : ℤ) ≤ cfg.limit →
      ∃ r, Glides cfg p t r ∧ Quoted cfg r fs (g ++ f) := by
  induction f generalizing body q with
  | nil =>
    obtain ⟨rfl, -⟩ := Prod.mk.inj (Except.ok.inj h)
    exact ⟨[], by simp, fun p g hp _ => ⟨p, .nil p, by simpa using hp⟩⟩
  | cons c cs ih =>
    obtain ⟨piece, qc, hp, h⟩ := joinBody_cons h
    obtain ⟨t, rfl, hread⟩ := ih h
    refine ⟨piece ++ t, by simp, fun p g hq hlim => ?_⟩
    rw [List.length_cons] at hlim
    obtain ⟨r, hgl, hr⟩ := hq.piece hd (by omega) hp
    obtain ⟨r', hgl', hr'⟩ := hread r (g ++ [c]) hr (by simp; omega)
    exact ⟨r', hgl.append hgl', by simpa using hr'⟩

/-- A field read to its end, which the next delimiter or line break saves as a string. -/
structure Done (cfg : Config Num) (p : Parser Num) (fs : List (Cell Num)) (f : List Char) : Prop
    extends Holds p fs f where
  state : Live p ∨ p.state = .quoteInQuoted ∨ p.state = .startField ∧
    ¬ (cfg.dialect.delimiter = ' ' ∧ cfg.dialect.skipinitialspace = true)
  bare : p.unquoted = true ∨ p.state = .startField → Bare cfg.dialect

theorem Done.save (h : Done cfg p fs f) :
    p.saveField cfg = .ok ⟨p.state, [], 0, fs ++ [.str f], p.unquoted⟩ := by
  rw [saveField_str fun hu => h.bare (.inl hu), h.fields, h.field]

include hd in
theorem Done.delimiter (h : Done cfg p fs f) :
    ∃ u, p.process cfg (some cfg.dialect.delimiter) =
      .ok ⟨.startField, [], 0, fs ++ [.str f], u⟩ := by
  obtain ⟨hcr, hlf⟩ := hd.delimiter
  have hn : ¬ isNewline (some cfg.dialect.delimiter) = true := by
    rw [isNewline_iff]
    exact fun h => h.elim hlf hcr
  have hq : ¬ isQuote cfg (some cfg.dialect.delimiter) = true := fun h =>
    (hd.quote _ (isQuote_iff.mp h)).2.2 rfl
  have he : ¬ isEscape cfg (some cfg.dialect.delimiter) = true := fun h =>
    (hd.escape _ (isEscape_iff.mp h)).2.2.1 rfl
  have hfield : p.processInField cfg (some cfg.dialect.delimiter) =
      .ok ⟨.startField, [], 0, fs ++ [.str f], p.unquoted⟩ := by
    rw [Parser.processInField, if_neg (by simp [hn]), if_neg he, if_pos rfl, h.save]
    rfl
  rcases h.state with (hst | hst) | hst | ⟨hst, hsp⟩
  · exact ⟨p.unquoted, by rw [Parser.process, hst]; exact hfield⟩
  · refine ⟨p.unquoted, ?_⟩
    rw [Parser.process, hst]
    dsimp only
    rw [if_neg (by simp), hfield]
  · refine ⟨p.unquoted, ?_⟩
    rw [Parser.process, hst]
    dsimp only
    rw [if_neg fun h => hq h.2, if_pos rfl, h.save]
    rfl
  · refine ⟨true, ?_⟩
    rw [Parser.process, hst]
    dsimp only [Parser.processStartField]
    rw [if_neg (by simp [hn]), if_neg fun h => hq h.1, if_neg he,
      if_neg fun hs => hsp ⟨Option.some.inj hs.1, hs.2⟩, if_pos rfl,
      saveField_str fun _ => h.bare (.inr hst)]
    simp [h.fields, h.field, hst]

include hd in
theorem Done.newline (h : Done cfg p fs f) {c : Char} (hc : isNewline (some c) = true) :
    ∃ u, p.process cfg (some c) = .ok ⟨.eatCrnl, [], 0, fs ++ [.str f], u⟩ := by
  have hlr := isNewline_iff.mp hc
  have hq : ¬ isQuote cfg (some c) = true := fun h => by
    obtain ⟨hcr, hlf, -⟩ := hd.quote _ (isQuote_iff.mp h)
    exact hlr.elim hlf hcr
  have hdel : ¬ some c = some cfg.dialect.delimiter := fun h => by
    rw [Option.some.inj h] at hlr
    exact hlr.elim hd.delimiter.2 hd.delimiter.1
  have hend : p.endLine cfg (some c) = .ok ⟨.eatCrnl, [], 0, fs ++ [.str f], p.unquoted⟩ := by
    rw [Parser.endLine, h.save]
    rfl
  have hfield : p.processInField cfg (some c) =
      .ok ⟨.eatCrnl, [], 0, fs ++ [.str f], p.unquoted⟩ := by
    rw [Parser.processInField, if_pos (.inr hc), hend]
  rcases h.state with (hst | hst) | hst | ⟨hst, -⟩
  · exact ⟨p.unquoted, by rw [Parser.process, hst]; exact hfield⟩
  · refine ⟨p.unquoted, ?_⟩
    rw [Parser.process, hst]
    dsimp only
    rw [if_neg (by simp), hfield]
  · refine ⟨p.unquoted, ?_⟩
    rw [Parser.process, hst]
    dsimp only
    rw [if_neg fun h => hq h.2, if_neg hdel, if_pos (.inr hc), hend]
  · refine ⟨true, ?_⟩
    rw [Parser.process, hst]
    dsimp only [Parser.processStartField]
    rw [if_pos (.inr hc), Parser.endLine, saveField_str fun _ => h.bare (.inr hst)]
    simp [h.fields, h.field]

/-- The text of a field leads from the start of a field to its end. -/
def Text (cfg : Config Num) (f t : List Char) : Prop :=
  ∀ (p : Parser Num) (fs : List (Cell Num)), p.state = .startField → Holds p fs [] →
    ∃ r, Glides cfg p t r ∧ Done cfg r fs f

theorem joinBody_quoted {d : Dialect} {body b : List Char} {q : Bool} {f : List Char}
    (h : d.joinBody body q f = .ok (b, true)) : q = true ∨ d.quoting ≠ QUOTE_NONE := by
  induction f generalizing body q with
  | nil => exact .inl (Prod.mk.inj (Except.ok.inj h)).2
  | cons c cs ih =>
    obtain ⟨piece, qc, hp, h⟩ := joinBody_cons h
    cases hp with
    | plain => simpa using ih h
    | escaped => simpa using ih h
    | doubled hn => exact .inr hn
    | quoted hn => exact .inr hn

include hd in
theorem text_unquoted {body : List Char} {q : Bool}
    (h : cfg.dialect.joinBody [] q f = .ok (body, false)) (hbare : Bare cfg.dialect)
    (hempty : f = [] → ¬ (cfg.dialect.delimiter = ' ' ∧ cfg.dialect.skipinitialspace = true))
    (hskip : cfg.dialect.skipinitialspace = true → f.head? ≠ some ' ')
    (hlim : (f.length : ℤ) ≤ cfg.limit) : Text cfg f body := by
  intro p fs hst hh
  obtain ⟨t, rfl, hread⟩ := @unquoted_glides _ cfg fs f hd _ _ _ h
  obtain ⟨r, hgl, hr, hend⟩ := hread p [] (.inr ⟨hst, hskip⟩) hh (by simpa using hlim)
  refine ⟨r, hgl, hr, ?_, fun _ => hbare⟩
  rcases hend with ⟨hf, rfl⟩ | hl
  · exact .inr (.inr ⟨hst, hempty hf⟩)
  · exact .inl hl

include hd in
theorem text_quoted {body : List Char} {q q' : Bool} {c : Char}
    (h : cfg.dialect.joinBody [] q f = .ok (body, q')) (hn : cfg.dialect.quoting ≠ QUOTE_NONE)
    (hc : cfg.dialect.quotechar = some c) (hlim : (f.length : ℤ) ≤ cfg.limit) :
    Text cfg f (c :: (body ++ [c])) := by
  intro p fs hst hh
  obtain ⟨hcr, hlf, -⟩ := hd.quote c hc
  have hline : ¬ isNewline (some c) = true := by
    rw [isNewline_iff]
    exact fun h => h.elim hlf hcr
  have hopen : p.process cfg (some c) =
      .ok { p with unquoted := false, state := .inQuotedField } := by
    rw [Parser.process, hst]
    dsimp only [Parser.processStartField]
    rw [if_neg (by simp [hline]), if_pos ⟨isQuote_iff.mpr hc, hn⟩]
  obtain ⟨t, rfl, hread⟩ := @quoted_glides _ cfg fs f hd _ _ _ _ h
  obtain ⟨r, hgl, hr⟩ := hread { p with unquoted := false, state := .inQuotedField } []
    ⟨⟨hh.fields, hh.field, hh.len⟩, rfl, rfl⟩ (by simpa using hlim)
  refine ⟨{ r with state := quoteEnd cfg.dialect }, ?_, ⟨hr.fields, hr.field, hr.len⟩, ?_, ?_⟩
  · exact .cons hopen (fun h => absurd h hline)
      (hgl.append (.cons (hr.close hd hn hc) (fun h => absurd h hline) (.nil _)))
  · rw [quoteEnd]
    split_ifs
    · exact .inr (.inl rfl)
    · exact .inl (.inl rfl)
  · have hend : quoteEnd cfg.dialect ≠ .startField := by
      rw [quoteEnd]
      split_ifs <;> decide
    rintro (hu | hs)
    · exact absurd (hr.unquoted.symm.trans hu) (by decide)
    · exact absurd hs hend

include hd in
/-- `join_append` appends a delimiter, unless the field is the first, and the field's text. -/
theorem joinAppend_text {record out : List Char} {n : ℕ} {field : Option (List Char)}
    {quoted : Bool} (h : cfg.dialect.joinAppend record n field quoted = .ok out)
    (hf : field.getD [] = f) (hbare : quoted = false → Bare cfg.dialect)
    (hnone : quoted = true → cfg.dialect.quoting ≠ QUOTE_NONE)
    (hskip : cfg.dialect.skipinitialspace = true → f.head? ≠ some ' ')
    (hlim : (f.length : ℤ) ≤ cfg.limit) :
    ∃ t, out = (if n > 0 then record ++ [cfg.dialect.delimiter] else record) ++ t ∧
      Text cfg f t := by
  rw [Dialect.joinAppend] at h
  obtain ⟨q, hforce, h⟩ := except_bind_eq_ok.mp h
  obtain ⟨⟨body, q'⟩, hbody, h⟩ := except_bind_eq_ok.mp h
  rw [hf] at hbody
  have hlen : (field.map List.length).getD 0 = f.length := by
    rw [← hf]
    cases field <;> rfl
  rw [hlen] at hforce
  -- an empty field that the reader would skip over is quoted in any case
  have hq : (q = true → cfg.dialect.quoting ≠ QUOTE_NONE) ∧ (q = false → Bare cfg.dialect ∧
      (f = [] → ¬ (cfg.dialect.delimiter = ' ' ∧ cfg.dialect.skipinitialspace = true))) := by
    split_ifs at hforce with hempty hno
    · obtain rfl := Except.ok.inj hforce
      exact ⟨fun _ hn => hno (.inl hn), fun hq => absurd hq (by decide)⟩
    · obtain rfl := Except.ok.inj hforce
      refine ⟨hnone, fun hq => ⟨hbare hq, fun hf hsp => hempty ⟨?_, hsp⟩⟩⟩
      simp [hf]
  obtain rfl := Except.ok.inj h
  cases q' with
  | false =>
    have hqf : q = false := by
      cases q with
      | false => rfl
      | true => exact absurd (joinBody_true hbody) (by decide)
    exact ⟨body, by simp, text_unquoted hd hbody (hq.2 hqf).1 (hq.2 hqf).2 hskip hlim⟩
  | true =>
    have hn : cfg.dialect.quoting ≠ QUOTE_NONE := (joinBody_quoted hbody).elim hq.1 id
    obtain ⟨c, hc⟩ := hd.quotechar hn
    refine ⟨c :: (body ++ [c]), ?_, text_quoted hd hbody hn hc hlim⟩
    simp [Dialect.quote, hc]

end Reading

end WeavePy.Csv
