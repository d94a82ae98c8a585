import WeavePy.Json.Documents

/-!
The numerals and strings of documents over their code points, and what the scanner reads of them: a numeral as far as
it goes, a string up to its closing quote.
-/

namespace WeavePy.Json

section Yields

variable {σ ε α β : Type} {s t u : σ} {a b : α}

/-- The computation ends with a value. -/
def Yields (x : Comp σ ε α) (s : σ) (a : α) (t : σ) : Prop := x s = .ok (.ok a, t)

theorem yields_pure : Yields (pure a : Comp σ ε α) s b t ↔ b = a ∧ t = s := by
  constructor
  · rintro ⟨⟩
    exact ⟨rfl, rfl⟩
  · rintro ⟨rfl, rfl⟩
    rfl

theorem not_yields_throw (e : ε) : ¬ Yields (throw e : Comp σ ε α) s a t := by
  rintro ⟨⟩

theorem yields_lift {x : Outcome α} (hx : x = .ok b) : Yields (Comp.lift x : Comp σ ε α) s a t ↔ a = b ∧ t = s := by
  subst hx
  constructor
  · rintro ⟨⟩
    exact ⟨rfl, rfl⟩
  · rintro ⟨rfl, rfl⟩
    rfl

theorem yields_bind {x : Comp σ ε β} {k : β → Comp σ ε α} :
    Yields (x >>= k) s a u ↔ ∃ b t, Yields x s b t ∧ Yields (k b) t a u := by
  constructor
  · intro h
    rcases hx : x s with f | ⟨e | b, t⟩
    · have hrun : (x >>= k) s = .error f := by
        change Except.bind (x s) _ = _
        rw [hx]
        rfl
      rw [Yields, hrun] at h
      cases h
    · rw [Yields, comp_bind_error hx] at h
      cases h
    · rw [Yields, comp_bind_value hx] at h
      exact ⟨b, t, hx, h⟩
  · rintro ⟨b, t, hx, hk⟩
    rw [Yields, comp_bind_value hx]
    exact hk

theorem yields_catch {x : Comp σ ε α} {h : ε → Comp σ ε α} (hfail : ∀ e s a t, ¬ Yields (h e) s a t) :
    Yields (tryCatch x h) s a t ↔ Yields x s a t := by
  constructor
  · intro hrun
    rcases hx : x s with f | ⟨e | b, t'⟩
    · have hf : tryCatch x h s = .error f := by
        change Except.bind (x s) _ = _
        rw [hx]
        rfl
      rw [Yields, hf] at hrun
      cases hrun
    · rw [Yields, comp_catch_error hx] at hrun
      exact (hfail e t' a t hrun).elim
    · rw [Yields, comp_catch_value hx] at hrun
      rw [Yields, hx, hrun]
  · exact fun hx => comp_catch_value hx

end Yields

section Units

variable {cps : List UInt32} {i j k c : ℕ} {l m w : List ℕ} {p : ℕ → Bool}

/-- The code points from an index on. -/
def rest (cps : List UInt32) (i : ℕ) : List ℕ := (cps.drop i).map UInt32.toNat

theorem rest_add (cps : List UInt32) (i k : ℕ) : rest cps (i + k) = (rest cps i).drop k := by
  rw [rest, rest, ← List.map_drop, List.drop_drop]

theorem rest_skip (h : rest cps i = l ++ m) : rest cps (i + l.length) = m := by
  rw [rest_add, h, List.drop_left]

theorem rest_next (h : rest cps i = c :: l) : rest cps (i + 1) = l := by
  rw [rest_add, h, List.drop_one, List.tail_cons]

theorem peek_rest (cps : List UInt32) (i : ℕ) : peek cps i = (rest cps i).head? := by
  rw [rest, List.head?_map, List.head?_drop]
  rfl

theorem peek_eq (h : rest cps i = l) : peek cps i = l.head? := by
  rw [peek_rest, h]

theorem rest_of_peek (h : peek cps i = some c) : rest cps i = c :: rest cps (i + 1) := by
  rw [peek_rest] at h
  obtain ⟨l, hl⟩ : ∃ l, rest cps i = c :: l := by
    cases hr : rest cps i with
    | nil =>
      rw [hr] at h
      cases h
    | cons d l =>
      rw [hr] at h
      cases h
      exact ⟨l, rfl⟩
  rw [hl, rest_next hl]

theorem rest_length (cps : List UInt32) (i : ℕ) : (rest cps i).length = cps.length - i := by
  rw [rest, List.length_map, List.length_drop]

theorem skipWhile_rest (cps : List UInt32) (p : ℕ → Bool) (i : ℕ) :
    skipWhile cps p i = i + ((rest cps i).takeWhile p).length := by
  rw [skipWhile, rest, List.takeWhile_map, List.length_map]
  rfl

theorem rest_skipWhile (cps : List UInt32) (p : ℕ → Bool) (i : ℕ) :
    rest cps (skipWhile cps p i) = (rest cps i).dropWhile p := by
  rw [skipWhile_rest]
  exact rest_skip List.takeWhile_append_dropWhile.symm

theorem skipWhile_of_not (h : (peek cps i).any p = false) : skipWhile cps p i = i := by
  rw [peek_rest] at h
  rw [skipWhile_rest]
  cases hr : rest cps i with
  | nil => rfl
  | cons c l =>
    rw [hr, List.head?_cons, Option.any_some] at h
    rw [List.takeWhile_cons_of_neg (by rw [h]; decide)]
    rfl

theorem skipWhile_of_any (h : (peek cps i).any p = true) : skipWhile cps p i = skipWhile cps p (i + 1) := by
  obtain ⟨c, hc, hp⟩ : ∃ c, peek cps i = some c ∧ p c = true := by simpa [Option.any_eq_true] using h
  have hr := rest_of_peek hc
  rw [skipWhile_rest, skipWhile_rest, hr, List.takeWhile_cons_of_pos hp, List.length_cons]
  omega

theorem skipDelim_eq (cps : List UInt32) (i : ℕ) : skipDelim cps i = skipWs cps i := by
  by_cases h : (peek cps i).any isWs = true
  · rw [skipDelim, if_pos h, skipWs, skipWs, skipWhile_of_any h]
  · rw [skipDelim, if_neg h, skipWs, skipWhile_of_not (by simpa using h)]

theorem skipBlank_eq (cps : List UInt32) (i : ℕ) : skipBlank cps i = skipWs cps i := by
  by_cases h : (peek cps i).any isWs = true
  · have hws : skipWs cps i = skipWs cps (i + 1) := skipWhile_of_any h
    rw [skipBlank, if_pos h, hws]
    by_cases h' : (peek cps (i + 1)).any isWs = true
    · rw [if_pos h', skipWs, skipWs, skipWhile_of_any h']
    · rw [if_neg h', skipWs, skipWhile_of_not (by simpa using h')]
  · rw [skipBlank, if_neg h, skipWs, skipWhile_of_not (by simpa using h)]

/-- Whitespace between tokens. -/
def Blank (w : List ℕ) : Prop := ∀ c ∈ w, isWs c = true

/-- The whitespace goes as far as it can. -/
def Trimmed (l : List ℕ) : Prop := ∀ c, l.head? = some c → isWs c = false

theorem skipWs_blank (h : rest cps i = w ++ l) (hw : Blank w) (hl : Trimmed l) : skipWs cps i = i + w.length := by
  have hnone : l.takeWhile isWs = [] := by
    cases l with
    | nil => rfl
    | cons c l => exact List.takeWhile_cons_of_neg (by rw [hl c rfl]; decide)
  rw [skipWs, skipWhile_rest, h, List.takeWhile_append_of_pos hw, hnone, List.append_nil]

theorem exists_skip (cps : List UInt32) (p : ℕ → Bool) (i : ℕ) : ∃ w, (∀ c ∈ w, p c = true) ∧
    rest cps i = w ++ rest cps (skipWhile cps p i) ∧ skipWhile cps p i = i + w.length := by
  refine ⟨(rest cps i).takeWhile p, fun c hc => List.mem_takeWhile_imp hc, ?_, skipWhile_rest ..⟩
  rw [rest_skipWhile, List.takeWhile_append_dropWhile]

theorem peek_skip (h : peek cps (skipWhile cps p i) = some c) : p c = false := by
  rw [peek_rest, rest_skipWhile] at h
  have hhead := List.head?_dropWhile_not p (rest cps i)
  rw [h] at hhead
  simpa using hhead

theorem exists_blank (cps : List UInt32) (i : ℕ) :
    ∃ w, Blank w ∧ rest cps i = w ++ rest cps (skipWs cps i) ∧ skipWs cps i = i + w.length :=
  exists_skip cps isWs i

end Units

section Numerals

variable {cps : List UInt32} {i j k : ℕ} {l m sign a b c text tail : List ℕ} {f g : Bool}

/-- The integer part of a numeral. -/
inductive IntPart : List ℕ → Prop
  | zero : IntPart [0x30]
  | digits {d : ℕ} {ds : List ℕ} : 0x31 ≤ d → d ≤ 0x39 → (∀ e ∈ ds, isDigit e = true) → IntPart (d :: ds)

inductive FracPart : List ℕ → Bool → Prop
  | none : FracPart [] false
  | some {d : ℕ} {ds : List ℕ} : isDigit d = true → (∀ e ∈ ds, isDigit e = true) → FracPart (0x2e :: d :: ds) true

inductive ExpPart : List ℕ → Bool → Prop
  | none : ExpPart [] false
  | some {e d : ℕ} {sign ds : List ℕ} : e = 0x65 ∨ e = 0x45 → sign = [] ∨ sign = [0x2b] ∨ sign = [0x2d] →
      isDigit d = true → (∀ e ∈ ds, isDigit e = true) → ExpPart (e :: (sign ++ d :: ds)) true

/-- A numeral, and whether it is of a float. -/
inductive Numeral : List ℕ → Bool → Prop
  | mk {sign a b c : List ℕ} {f g : Bool} : sign = [] ∨ sign = [0x2d] → IntPart a → FracPart b f → ExpPart c g →
      Numeral (sign ++ (a ++ (b ++ c))) (f || g)

/-- No longer text is a numeral. -/
def Ends (text tail : List ℕ) : Prop := ∀ more, more ≠ [] → more <+: tail → ∀ f, ¬ Numeral (text ++ more) f

theorem skipDigits (h : rest cps i = a ++ m) (ha : ∀ e ∈ a, isDigit e = true) :
    skipWhile cps isDigit i = i + a.length + (m.takeWhile isDigit).length := by
  rw [skipWhile_rest, h, List.takeWhile_append_of_pos ha, List.length_append, Nat.add_assoc]

/-- The scan of the integer part goes at least as far as a numeral, and no farther if that goes on after it. -/
theorem matchInteger_max (hs : sign = [] ∨ sign = [0x2d]) (ha : IntPart a) (h : rest cps i = sign ++ (a ++ m)) :
    ∃ n, matchInteger cps i = some (i + sign.length + a.length + n) ∧ (m.takeWhile isDigit = [] → n = 0) := by
  have hstart : (if peek cps i = some 0x2d then i + 1 else i) = i + sign.length := by
    rcases hs with rfl | rfl
    · have hne : peek cps i ≠ some 0x2d := by
        rw [peek_eq h]
        cases ha with
        | zero => simp
        | digits hlow hhigh hds =>
          simp only [List.nil_append, List.cons_append, List.head?_cons, ne_eq, Option.some.injEq]
          omega
      rw [if_neg hne]
      rfl
    · rw [if_pos (show peek cps i = some 0x2d from peek_eq h)]
      rfl
  have hrest := rest_skip h
  unfold matchInteger
  rw [hstart]
  dsimp only
  rw [peek_eq hrest]
  cases ha with
  | zero => exact ⟨0, by simp, fun _ => rfl⟩
  | @digits d ds hlow hhigh hds =>
    refine ⟨(m.takeWhile isDigit).length, ?_, fun hm => by rw [hm]; rfl⟩
    have hskip := skipDigits (rest_next hrest) hds
    simp only [List.cons_append, List.head?_cons, List.length_cons]
    rw [if_neg (by omega), if_pos ⟨hlow, hhigh⟩, hskip]
    exact congrArg some (by omega)

theorem le_skipDigits (cps : List UInt32) (i : ℕ) : i ≤ skipWhile cps isDigit i := Nat.le_add_right ..

theorem le_matchFraction (cps : List UInt32) (i : ℕ) : i ≤ (matchFraction cps i).1 := by
  unfold matchFraction
  split
  · exact (Nat.le_add_right i 2).trans (le_skipDigits ..)
  · exact le_rfl

theorem le_matchExponent (cps : List UInt32) (i : ℕ) (f : Bool) : i ≤ (matchExponent cps i f).1 := by
  unfold matchExponent
  split
  · have hle : i ≤ if peek cps (i + 1) = some 0x2b ∨ peek cps (i + 1) = some 0x2d then i + 2 else i + 1 := by
      split <;> omega
    dsimp only
    generalize (if peek cps (i + 1) = some 0x2b ∨ peek cps (i + 1) = some 0x2d then i + 2 else i + 1) = j at hle ⊢
    split
    · exact hle.trans ((Nat.le_succ _).trans (le_skipDigits ..))
    · exact le_rfl
  · exact le_rfl

theorem matchFraction_max (hb : FracPart b f) (h : rest cps i = b ++ m) :
    i + b.length ≤ (matchFraction cps i).1 ∧
      (m.takeWhile isDigit = [] → m.head? ≠ some 0x2e → matchFraction cps i = (i + b.length, f)) := by
  cases hb with
  | none =>
    refine ⟨le_matchFraction cps i, fun _ hm => ?_⟩
    rw [matchFraction, if_neg fun hp => hm (by rw [← peek_eq (l := m) h]; exact hp.1)]
    rfl
  | @some d ds hd hds =>
    have hdot : peek cps i = some 0x2e := peek_eq h
    have hnext : rest cps (i + 1) = d :: (ds ++ m) := rest_next h
    have hdigit : (peek cps (i + 1)).any isDigit = true := by
      rw [peek_eq hnext]
      exact hd
    have hskip := skipDigits (rest_next hnext) hds
    rw [matchFraction, if_pos ⟨hdot, hdigit⟩, hskip]
    simp only [List.length_cons]
    refine ⟨by omega, fun hm _ => ?_⟩
    rw [hm]
    exact Prod.ext (by simp only [List.length_nil]; omega) rfl

theorem matchExponent_max (hc : ExpPart c g) (h : rest cps i = c ++ m) (f : Bool) :
    i + c.length ≤ (matchExponent cps i f).1 := by
  cases hc with
  | none => exact le_matchExponent cps i f
  | @some e d sign ds he hsign hd hds =>
    have hletter : peek cps i = some 0x65 ∨ peek cps i = some 0x45 := by
      rw [peek_eq h]
      rcases he with rfl | rfl <;> simp
    have hnext : rest cps (i + 1) = sign ++ (d :: (ds ++ m)) := by
      have hn : rest cps (i + 1) = sign ++ d :: ds ++ m := rest_next h
      simpa using hn
    have hj : (if peek cps (i + 1) = some 0x2b ∨ peek cps (i + 1) = some 0x2d then i + 2 else i + 1) =
        i + 1 + sign.length := by
      rw [peek_eq hnext]
      rcases hsign with rfl | rfl | rfl
      · rw [if_neg]
        · rfl
        · rintro (hx | hx) <;>
            · simp only [List.nil_append, List.head?_cons, Option.some.injEq] at hx
              subst hx
              exact absurd hd (by decide)
      · rw [if_pos (by simp)]
        rfl
      · rw [if_pos (by simp)]
        rfl
    have hdigits : rest cps (i + 1 + sign.length) = d :: (ds ++ m) := rest_skip hnext
    have hdigit : (peek cps (i + 1 + sign.length)).any isDigit = true := by
      rw [peek_eq hdigits]
      exact hd
    have hskip := skipDigits (rest_next hdigits) hds
    unfold matchExponent
    rw [if_pos hletter, hj]
    dsimp only
    rw [if_pos hdigit, hskip]
    simp only [List.length_cons, List.length_append]
    omega

theorem matchNumber_of_integer (h : matchInteger cps i = some j) : matchNumber cps i =
    some (matchExponent cps (matchFraction cps j).1 (matchFraction cps j).2) := by
  rw [matchNumber, h]
  rfl

theorem takeWhile_letter {d : ℕ} (hd : isDigit d = false) : (d :: m).takeWhile isDigit = [] :=
  List.takeWhile_cons_of_neg (by rw [hd]; decide)

/-- A numeral is matched to its end or beyond. -/
theorem matchNumber_max (hn : Numeral text f) (h : rest cps i = text ++ tail) :
    ∃ e g, matchNumber cps i = some (e, g) ∧ i + text.length ≤ e := by
  cases hn with
  | @mk sign a b c f g hs ha hb hc =>
    have h' : rest cps i = sign ++ (a ++ (b ++ (c ++ tail))) := by
      simpa only [List.append_assoc] using h
    obtain ⟨n, hint, hexact⟩ := matchInteger_max hs ha h'
    have hrest : rest cps (i + sign.length + a.length) = b ++ (c ++ tail) := rest_skip (rest_skip h')
    suffices hle : i + (sign ++ (a ++ (b ++ c))).length ≤ (matchExponent cps
        (matchFraction cps (i + sign.length + a.length + n)).1
        (matchFraction cps (i + sign.length + a.length + n)).2).1 from ⟨_, _, matchNumber_of_integer hint, hle⟩
    have hlen : (sign ++ (a ++ (b ++ c))).length = sign.length + a.length + b.length + c.length := by
      simp only [List.length_append]
      omega
    rw [hlen]
    cases hc with
    | none =>
      have hexp := le_matchExponent cps (matchFraction cps (i + sign.length + a.length + n)).1
        (matchFraction cps (i + sign.length + a.length + n)).2
      cases hb with
      | none =>
        have hfrac := le_matchFraction cps (i + sign.length + a.length + n)
        simp only [List.length_nil]
        omega
      | some hd hds =>
        obtain rfl := hexact (takeWhile_letter (by decide))
        have hfrac := (matchFraction_max (.some hd hds) hrest).1
        simp only [List.length_nil]
        simp only [Nat.add_zero] at hfrac hexp ⊢
        omega
    | @some e d esign ds he hesign hd hds =>
      have hletter : isDigit e = false ∧ e ≠ 0x2e := by
        rcases he with rfl | rfl <;> decide
      have hstop : (b ++ (e :: (esign ++ d :: ds) ++ tail)).takeWhile isDigit = [] := by
        cases hb with
        | none => exact takeWhile_letter hletter.1
        | some hd' hds' => exact takeWhile_letter (by decide)
      obtain rfl := hexact hstop
      have hfrac := (matchFraction_max hb hrest).2 (takeWhile_letter hletter.1) (by simpa using hletter.2)
      rw [Nat.add_zero, hfrac]
      dsimp only
      have hexp := matchExponent_max (.some he hesign hd hds) (rest_skip hrest) f
      omega

theorem matchInteger_sound (h : matchInteger cps i = some j) : ∃ sign a, (sign = [] ∨ sign = [0x2d]) ∧ IntPart a ∧
    rest cps i = sign ++ (a ++ rest cps j) ∧ j = i + sign.length + a.length := by
  obtain ⟨sign, hs, hrest, hstart⟩ : ∃ sign, (sign = [] ∨ sign = [0x2d]) ∧
      rest cps i = sign ++ rest cps (i + sign.length) ∧
      (if peek cps i = some 0x2d then i + 1 else i) = i + sign.length := by
    by_cases hp : peek cps i = some 0x2d
    · exact ⟨[0x2d], .inr rfl, rest_of_peek hp, if_pos hp⟩
    · exact ⟨[], .inl rfl, rfl, if_neg hp⟩
  unfold matchInteger at h
  rw [hstart] at h
  dsimp only at h
  rcases hp : peek cps (i + sign.length) with _ | d
  · rw [hp] at h
    cases h
  · rw [hp] at h
    dsimp only at h
    have hnext := rest_of_peek hp
    by_cases hzero : d = 0x30
    · rw [if_pos hzero] at h
      subst hzero
      cases h
      exact ⟨sign, [0x30], hs, .zero, by rw [hrest, hnext]; rfl, rfl⟩
    · rw [if_neg hzero] at h
      by_cases hdigit : 0x31 ≤ d ∧ d ≤ 0x39
      · rw [if_pos hdigit] at h
        cases h
        obtain ⟨ds, hds, hskip, hlen⟩ := exists_skip cps isDigit (i + sign.length + 1)
        refine ⟨sign, d :: ds, hs, .digits hdigit.1 hdigit.2 hds, ?_, ?_⟩
        · rw [hrest, hnext, List.cons_append, ← hskip]
        · rw [hlen, List.length_cons]
          omega
      · rw [if_neg hdigit] at h
        cases h

theorem matchFraction_sound (cps : List UInt32) (i : ℕ) : ∃ b, FracPart b (matchFraction cps i).2 ∧
    rest cps i = b ++ rest cps (matchFraction cps i).1 ∧ (matchFraction cps i).1 = i + b.length := by
  unfold matchFraction
  split
  · rename_i h
    obtain ⟨d, hd, hdigit⟩ : ∃ d, peek cps (i + 1) = some d ∧ isDigit d = true := by
      simpa [Option.any_eq_true] using h.2
    obtain ⟨ds, hds, hskip, hlen⟩ := exists_skip cps isDigit (i + 2)
    refine ⟨0x2e :: d :: ds, .some hdigit hds, ?_, ?_⟩
    · rw [rest_of_peek h.1, rest_of_peek hd, List.cons_append, List.cons_append, ← hskip]
    · rw [hlen, List.length_cons, List.length_cons]
      omega
  · exact ⟨[], .none, rfl, rfl⟩

theorem matchExponent_sound (cps : List UInt32) (i : ℕ) (f : Bool) : ∃ c g, ExpPart c g ∧
    (matchExponent cps i f).2 = (f || g) ∧ rest cps i = c ++ rest cps (matchExponent cps i f).1 ∧
    (matchExponent cps i f).1 = i + c.length := by
  by_cases hletter : peek cps i = some 0x65 ∨ peek cps i = some 0x45
  · obtain ⟨e, he, hpe⟩ : ∃ e, (e = 0x65 ∨ e = 0x45) ∧ peek cps i = some e := by
      rcases hletter with h | h
      · exact ⟨_, .inl rfl, h⟩
      · exact ⟨_, .inr rfl, h⟩
    obtain ⟨sign, hs, hrest, hstart⟩ : ∃ sign, (sign = [] ∨ sign = [0x2b] ∨ sign = [0x2d]) ∧
        rest cps (i + 1) = sign ++ rest cps (i + 1 + sign.length) ∧
        (if peek cps (i + 1) = some 0x2b ∨ peek cps (i + 1) = some 0x2d then i + 2 else i + 1) =
          i + 1 + sign.length := by
      by_cases hp : peek cps (i + 1) = some 0x2b ∨ peek cps (i + 1) = some 0x2d
      · rcases hp with h | h
        · exact ⟨[0x2b], .inr (.inl rfl), rest_of_peek h, if_pos (.inl h)⟩
        · exact ⟨[0x2d], .inr (.inr rfl), rest_of_peek h, if_pos (.inr h)⟩
      · exact ⟨[], .inl rfl, rfl, if_neg hp⟩
    unfold matchExponent
    rw [if_pos hletter, hstart]
    dsimp only
    by_cases hdigit : (peek cps (i + 1 + sign.length)).any isDigit = true
    · rw [if_pos hdigit]
      obtain ⟨d, hd, hisd⟩ : ∃ d, peek cps (i + 1 + sign.length) = some d ∧ isDigit d = true := by
        simpa [Option.any_eq_true] using hdigit
      obtain ⟨ds, hds, hskip, hlen⟩ := exists_skip cps isDigit (i + 1 + sign.length + 1)
      refine ⟨e :: (sign ++ d :: ds), true, .some he hs hisd hds, (Bool.or_true f).symm, ?_, ?_⟩
      · rw [rest_of_peek hpe, hrest, rest_of_peek hd, hskip]
        simp only [List.cons_append, List.append_assoc]
      · dsimp only
        rw [hlen]
        simp only [List.length_cons, List.length_append]
        omega
    · rw [if_neg hdigit]
      exact ⟨[], false, .none, (Bool.or_false f).symm, rfl, rfl⟩
  · unfold matchExponent
    rw [if_neg hletter]
    exact ⟨[], false, .none, (Bool.or_false f).symm, rfl, rfl⟩

theorem matchNumber_sound (h : matchNumber cps i = some (j, f)) :
    ∃ text, Numeral text f ∧ rest cps i = text ++ rest cps j ∧ j = i + text.length := by
  obtain ⟨k, hk, hrun⟩ : ∃ k, matchInteger cps i = some k ∧
      matchExponent cps (matchFraction cps k).1 (matchFraction cps k).2 = (j, f) := by
    rcases hk : matchInteger cps i with _ | k
    · rw [matchNumber, hk] at h
      cases h
    · rw [matchNumber_of_integer hk] at h
      exact ⟨k, rfl, Option.some.inj h⟩
  obtain ⟨sign, a, hs, ha, hrest, hlen⟩ := matchInteger_sound hk
  obtain ⟨b, hb, hrest', hlen'⟩ := matchFraction_sound cps k
  obtain ⟨c, g, hc, hf, hrest'', hlen''⟩ := matchExponent_sound cps (matchFraction cps k).1 (matchFraction cps k).2
  rw [hrun] at hf hrest'' hlen''
  dsimp only at hf hrest'' hlen''
  subst hf
  refine ⟨sign ++ (a ++ (b ++ c)), .mk hs ha hb hc, ?_, ?_⟩
  · rw [hrest, hrest', hrest'']
    simp only [List.append_assoc]
  · simp only [List.length_append]
    omega

def isMark (c : ℕ) : Bool := c = 0x2e || c = 0x65 || c = 0x45

theorem isMark_of_isDigit {d : ℕ} (h : isDigit d = true) : isMark d = false := by
  simp only [isDigit, Bool.and_eq_true, decide_eq_true_eq] at h
  simp only [isMark, Bool.or_eq_false_iff, decide_eq_false_iff_not]
  omega

theorem any_isMark_digits (h : ∀ e ∈ l, isDigit e = true) : l.any isMark = false := by
  simp only [List.any_eq_false, Bool.not_eq_true]
  exact fun e he => isMark_of_isDigit (h e he)

/-- The text of a numeral tells whether it is of a float. -/
theorem Numeral.isFloat_eq (h : Numeral text f) : f = text.any isMark := by
  cases h with
  | @mk sign a b c f g hs ha hb hc =>
    have hsign : sign.any isMark = false := by
      rcases hs with rfl | rfl <;> rfl
    have hint : a.any isMark = false := by
      cases ha with
      | zero => rfl
      | @digits d ds hlow hhigh hds =>
        have hd : isDigit d = true := by
          simp only [isDigit, Bool.and_eq_true, decide_eq_true_eq]
          omega
        rw [List.any_cons, isMark_of_isDigit hd, any_isMark_digits hds, Bool.or_false]
    have hfrac : b.any isMark = f := by
      cases hb with
      | none => rfl
      | some hd hds => rfl
    have hexp : c.any isMark = g := by
      cases hc with
      | none => rfl
      | some he hsign hd hds => rcases he with rfl | rfl <;> rfl
    rw [List.any_append, List.any_append, List.any_append, hsign, hint, hfrac, hexp, Bool.false_or, Bool.false_or]

theorem matchNumber_iff : matchNumber cps i = some (j, f) ↔
    ∃ text tail, rest cps i = text ++ tail ∧ Numeral text f ∧ Ends text tail ∧ j = i + text.length := by
  constructor
  · intro h
    obtain ⟨text, hn, hrest, hlen⟩ := matchNumber_sound h
    refine ⟨text, rest cps j, hrest, hn, fun more hne hmore g hlong => ?_, hlen⟩
    obtain ⟨tail, htail⟩ := hmore
    have hrest' : rest cps i = text ++ more ++ tail := by
      rw [hrest, ← htail, List.append_assoc]
    obtain ⟨e, g', hmatch, hle⟩ := matchNumber_max hlong hrest'
    rw [h] at hmatch
    cases hmatch
    have hpos := List.length_pos_of_ne_nil hne
    rw [List.length_append] at hle
    omega
  · rintro ⟨text, tail, hrest, hn, hends, rfl⟩
    obtain ⟨e, g, hmatch, hle⟩ := matchNumber_max hn hrest
    obtain ⟨text', hn', hrest', hlen'⟩ := matchNumber_sound hmatch
    obtain ⟨more, rfl⟩ : ∃ more, text' = text ++ more := by
      have htext : text <+: rest cps i := ⟨tail, hrest.symm⟩
      have hprefix : text <+: text' := List.prefix_of_prefix_length_le htext ⟨rest cps e, hrest'.symm⟩ (by omega)
      exact ⟨_, (List.prefix_iff_eq_append.mp hprefix).symm⟩
    have hmore : more = [] := by
      by_contra hne
      have htail : tail = more ++ rest cps e := by
        rw [hrest, List.append_assoc] at hrest'
        exact List.append_cancel_left hrest'
      exact hends more hne ⟨_, htail.symm⟩ g hn'
    subst hmore
    rw [List.append_nil] at hn' hlen'
    rw [hmatch, hn.isFloat_eq, hn'.isFloat_eq, hlen']

def isNumberChar (c : ℕ) : Bool := isDigit c || isMark c || c = 0x2b || c = 0x2d

theorem isNumberChar_of_isDigit {d : ℕ} (h : isDigit d = true) : isNumberChar d = true := by
  rw [isNumberChar, h]
  rfl

theorem Numeral.isNumberChar (h : Numeral text f) : ∀ c ∈ text, Json.isNumberChar c = true := by
  cases h with
  | @mk sign a b c f g hs ha hb hc =>
    intro x hx
    simp only [List.mem_append] at hx
    rcases hx with hx | hx | hx | hx
    · rcases hs with rfl | rfl
      · cases hx
      · rw [List.mem_singleton.mp hx]
        rfl
    · cases ha with
      | zero =>
        rw [List.mem_singleton.mp hx]
        rfl
      | digits hlow hhigh hds =>
        rcases List.mem_cons.mp hx with rfl | hx
        · apply isNumberChar_of_isDigit
          simp only [isDigit, Bool.and_eq_true, decide_eq_true_eq]
          omega
        · exact isNumberChar_of_isDigit (hds x hx)
    · cases hb with
      | none => cases hx
      | some hd hds =>
        rcases List.mem_cons.mp hx with rfl | hx
        · rfl
        rcases List.mem_cons.mp hx with rfl | hx
        · exact isNumberChar_of_isDigit hd
        · exact isNumberChar_of_isDigit (hds x hx)
    · cases hc with
      | none => cases hx
      | some he hsign hd hds =>
        rcases List.mem_cons.mp hx with rfl | hx
        · rcases he with rfl | rfl <;> rfl
        rcases List.mem_append.mp hx with hx | hx
        · rcases hsign with rfl | rfl | rfl
          · cases hx
          · rw [List.mem_singleton.mp hx]
            rfl
          · rw [List.mem_singleton.mp hx]
            rfl
        rcases List.mem_cons.mp hx with rfl | hx
        · exact isNumberChar_of_isDigit hd
        · exact isNumberChar_of_isDigit (hds x hx)

/-- A text that another character follows is not the beginning of a numeral. -/
theorem ends_of_head (h : ∀ c, tail.head? = some c → isNumberChar c = false) : Ends text tail := by
  rintro more hne ⟨m, rfl⟩ f hn
  cases more with
  | nil => exact hne rfl
  | cons c more =>
    have htrue := hn.isNumberChar c (by simp)
    rw [h c rfl] at htrue
    cases htrue

end Numerals

section Strings

variable {cps : List UInt32} {i j k n c e a b : ℕ} {strict : Bool} {l m u w v body tail out : List ℕ}

/-- Four hexadecimal digits. -/
def Hex (u : List ℕ) (n : ℕ) : Prop :=
  u.length = 4 ∧ u.foldlM (m := Option) (fun v c => (hexVal c).map fun d => v <<< 4 ||| d) 0 = some n

def IsHigh (n : ℕ) : Prop := 0xd800 ≤ n ∧ n ≤ 0xdbff

def IsLow (n : ℕ) : Prop := 0xdc00 ≤ n ∧ n ≤ 0xdfff

/-- The low half of a pair is escaped next. -/
def LowNext (l : List ℕ) : Prop := ∃ u n m, l = 0x5c :: 0x75 :: (u ++ m) ∧ Hex u n ∧ IsLow n

/-- The characters between the quotes, and the string that they denote. -/
inductive Chars (strict : Bool) : List ℕ → List ℕ → Prop
  | nil : Chars strict [] []
  | plain {c : ℕ} {l v : List ℕ} : isPlain c = true → Chars strict l v → Chars strict (c :: l) (c :: v)
  | control {c : ℕ} {l v : List ℕ} : strict = false → c < 0x20 → Chars strict l v → Chars strict (c :: l) (c :: v)
  | escape {e c : ℕ} {l v : List ℕ} : simpleEscape e = some c → Chars strict l v →
      Chars strict (0x5c :: e :: l) (c :: v)
  | unicode {n : ℕ} {u l v : List ℕ} : Hex u n → ¬ (IsHigh n ∧ LowNext l) → Chars strict l v →
      Chars strict (0x5c :: 0x75 :: (u ++ l)) (n :: v)
  | pair {a b : ℕ} {u u' l v : List ℕ} : Hex u a → IsHigh a → Hex u' b → IsLow b → Chars strict l v →
      Chars strict (0x5c :: 0x75 :: (u ++ 0x5c :: 0x75 :: (u' ++ l)))
        ((0x10000 + ((a - 0xd800) <<< 10 ||| (b - 0xdc00))) :: v)

/-- A text that begins with `n` units for the string `w` and its closing quote. -/
def Closes (strict : Bool) (l w : List ℕ) (n : ℕ) : Prop :=
  ∃ body tail, l = body ++ 0x22 :: tail ∧ Chars strict body w ∧ n = body.length + 1

theorem not_closes_nil : ¬ Closes strict [] w n := by
  rintro ⟨body, tail, heq, -⟩
  simp at heq

theorem isPlain_quote : isPlain 0x22 = false := by decide

theorem isPlain_backslash : isPlain 0x5c = false := by decide

theorem isPlain_control (h : c < 0x20) : isPlain c = false := by
  rw [isPlain, decide_eq_false_iff_not, not_not]
  exact .inr (.inr h)

theorem closes_quote : Closes strict (0x22 :: l) w n ↔ w = [] ∧ n = 1 := by
  constructor
  · rintro ⟨body, tail, heq, hchars, rfl⟩
    cases hchars with
    | nil => exact ⟨rfl, rfl⟩
    | plain hp h =>
      cases heq
      rw [isPlain_quote] at hp
      cases hp
    | control hs hc h =>
      cases heq
      omega
    | escape he h => cases heq
    | unicode hu hn h => cases heq
    | pair hu ha hu' hb h => cases heq
  · rintro ⟨rfl, rfl⟩
    exact ⟨[], l, rfl, .nil, rfl⟩

theorem closes_plain (hp : isPlain c = true) :
    Closes strict (c :: l) w n ↔ ∃ w' n', Closes strict l w' n' ∧ w = c :: w' ∧ n = n' + 1 := by
  constructor
  · rintro ⟨body, tail, heq, hchars, rfl⟩
    cases hchars with
    | nil =>
      cases heq
      rw [isPlain_quote] at hp
      cases hp
    | plain hp' h =>
      cases heq
      exact ⟨_, _, ⟨_, tail, rfl, h, rfl⟩, rfl, rfl⟩
    | control hs hc h =>
      cases heq
      rw [isPlain_control hc] at hp
      cases hp
    | escape he h =>
      cases heq
      rw [isPlain_backslash] at hp
      cases hp
    | unicode hu hn h =>
      cases heq
      rw [isPlain_backslash] at hp
      cases hp
    | pair hu ha hu' hb h =>
      cases heq
      rw [isPlain_backslash] at hp
      cases hp
  · rintro ⟨w', n', ⟨body, tail, rfl, h, rfl⟩, rfl, rfl⟩
    exact ⟨c :: body, tail, rfl, .plain hp h, rfl⟩

theorem closes_plains (hu : ∀ c ∈ u, isPlain c = true) :
    Closes strict (u ++ l) w n ↔ ∃ w' n', Closes strict l w' n' ∧ w = u ++ w' ∧ n = u.length + n' := by
  induction u generalizing w n with
  | nil => simp
  | cons c u ih =>
    rw [List.cons_append, closes_plain (hu c (List.mem_cons_self ..))]
    constructor
    · rintro ⟨w', n', h, rfl, rfl⟩
      obtain ⟨w'', n'', h', rfl, rfl⟩ := (ih fun c hc => hu c (List.mem_cons_of_mem _ hc)).mp h
      exact ⟨w'', n'', h', rfl, by simp only [List.length_cons]; omega⟩
    · rintro ⟨w', n', h, rfl, rfl⟩
      exact ⟨_, _, (ih fun c hc => hu c (List.mem_cons_of_mem _ hc)).mpr ⟨w', n', h, rfl, rfl⟩, rfl,
        by simp only [List.length_cons]; omega⟩

theorem closes_control (hc : c < 0x20) : Closes strict (c :: l) w n ↔
    strict = false ∧ ∃ w' n', Closes strict l w' n' ∧ w = c :: w' ∧ n = n' + 1 := by
  constructor
  · rintro ⟨body, tail, heq, hchars, rfl⟩
    cases hchars with
    | nil =>
      cases heq
      omega
    | plain hp h =>
      cases heq
      rw [isPlain_control hc] at hp
      cases hp
    | control hs hc' h =>
      cases heq
      exact ⟨hs, _, _, ⟨_, tail, rfl, h, rfl⟩, rfl, rfl⟩
    | escape he h =>
      cases heq
      omega
    | unicode hu hn h =>
      cases heq
      omega
    | pair hu ha hu' hb h =>
      cases heq
      omega
  · rintro ⟨hs, w', n', ⟨body, tail, rfl, h, rfl⟩, rfl, rfl⟩
    exact ⟨c :: body, tail, rfl, .control hs hc h, rfl⟩

theorem not_closes_backslash : ¬ Closes strict [0x5c] w n := by
  rintro ⟨body, tail, heq, hchars, -⟩
  have hlen := congrArg List.length heq
  simp only [List.length_append, List.length_cons, List.length_nil] at hlen
  obtain rfl : body = [] := List.length_eq_zero_iff.mp (by omega)
  cases heq

theorem simpleEscape_u : simpleEscape 0x75 = none := by decide

/-- What a backslash begins. -/
theorem Chars.escaped (h : Chars strict body w) (heq : 0x5c :: l = body ++ 0x22 :: tail) :
    (∃ e c l' v, l = e :: (l' ++ 0x22 :: tail) ∧ simpleEscape e = some c ∧ Chars strict l' v ∧ w = c :: v ∧
      body.length = l'.length + 2) ∨
    (∃ u a l' v, l = 0x75 :: (u ++ (l' ++ 0x22 :: tail)) ∧ Hex u a ∧ ¬ (IsHigh a ∧ LowNext l') ∧ Chars strict l' v ∧
      w = a :: v ∧ body.length = l'.length + 6) ∨
    ∃ u a u' b l' v, l = 0x75 :: (u ++ 0x5c :: 0x75 :: (u' ++ (l' ++ 0x22 :: tail))) ∧ Hex u a ∧ IsHigh a ∧
      Hex u' b ∧ IsLow b ∧ Chars strict l' v ∧ w = (0x10000 + ((a - 0xd800) <<< 10 ||| (b - 0xdc00))) :: v ∧
      body.length = l'.length + 12 := by
  cases h with
  | nil => cases heq
  | plain hp h =>
    rw [List.cons_append, List.cons.injEq] at heq
    rw [← heq.1, isPlain_backslash] at hp
    cases hp
  | control hs hc h =>
    rw [List.cons_append, List.cons.injEq] at heq
    omega
  | escape hc h => exact .inl ⟨_, _, _, _, (List.cons.inj heq).2, hc, h, rfl, rfl⟩
  | unicode hu hn h =>
    refine .inr (.inl ⟨_, _, _, _, ?_, hu, hn, h, rfl, ?_⟩)
    · simpa using heq
    · simp only [List.length_cons, List.length_append, hu.1]
      omega
  | pair hu ha hv hb h =>
    refine .inr (.inr ⟨_, _, _, _, _, _, ?_, hu, ha, hv, hb, h, rfl, ?_⟩)
    · simpa using heq
    · simp only [List.length_cons, List.length_append, hu.1, hv.1]
      omega

theorem closes_escape (he : e ≠ 0x75) : Closes strict (0x5c :: e :: l) w n ↔
    ∃ c w' n', simpleEscape e = some c ∧ Closes strict l w' n' ∧ w = c :: w' ∧ n = n' + 2 := by
  constructor
  · rintro ⟨body, tail, heq, hchars, rfl⟩
    rcases hchars.escaped heq with ⟨e', c, l', v, hl, hc, h, rfl, hlen⟩ | ⟨u, a, l', v, hl, -⟩ |
      ⟨u, a, u', b, l', v, hl, -⟩
    · obtain ⟨rfl, rfl⟩ := List.cons.inj hl
      exact ⟨c, v, _, hc, ⟨l', tail, rfl, h, rfl⟩, rfl, by rw [hlen]⟩
    · exact absurd (List.cons.inj hl).1 he
    · exact absurd (List.cons.inj hl).1 he
  · rintro ⟨c, w', n', hc, ⟨body, tail, rfl, h, rfl⟩, rfl, rfl⟩
    exact ⟨0x5c :: e :: body, tail, rfl, .escape hc h, rfl⟩

theorem hexVal_quote : hexVal 0x22 = none := by decide

theorem mem_hexDigits (h : u.foldlM (m := Option) (fun v c => (hexVal c).map fun d => v <<< 4 ||| d) a = some n) :
    ∀ c ∈ u, (hexVal c).isSome = true := by
  induction u generalizing a with
  | nil =>
    intro c hc
    cases hc
  | cons c u ih =>
    rw [List.foldlM_cons] at h
    obtain ⟨d, hd, hrest⟩ := Option.bind_eq_some_iff.mp h
    obtain ⟨x, hx, -⟩ := Option.map_eq_some_iff.mp hd
    intro e he
    rcases List.mem_cons.mp he with rfl | he
    · rw [hx]
      rfl
    · exact ih hrest e he

theorem Hex.quote_not_mem (h : Hex u n) : 0x22 ∉ u := by
  intro hmem
  have hsome := mem_hexDigits h.2 _ hmem
  rw [hexVal_quote] at hsome
  cases hsome

theorem Hex.unique (h : Hex u a) (h' : Hex v b) (heq : u ++ l = v ++ m) : u = v ∧ a = b ∧ l = m := by
  obtain ⟨rfl, rfl⟩ := List.append_inj heq (h.1.trans h'.1.symm)
  exact ⟨rfl, Option.some.inj (h.2.symm.trans h'.2), rfl⟩

/-- What comes after the closing quote does not count as the low half. -/
theorem lowNext_append (h : LowNext (body ++ 0x22 :: tail)) : LowNext body := by
  obtain ⟨u, n, m, heq, hu, hn⟩ := h
  have heq' : body ++ 0x22 :: tail = (0x5c :: 0x75 :: u) ++ m := heq
  rcases List.append_eq_append_iff.mp heq' with ⟨x, hx, hy⟩ | ⟨x, hx, hy⟩
  · cases x with
    | nil => exact ⟨u, n, [], by rw [List.append_nil] at hx ⊢; exact hx.symm, hu, hn⟩
    | cons c x =>
      cases hy
      have hmem : 0x22 ∈ 0x5c :: 0x75 :: u := by rw [hx]; simp
      simp only [List.mem_cons] at hmem
      rcases hmem with hmem | hmem | hmem
      · omega
      · omega
      · exact absurd hmem hu.quote_not_mem
  · exact ⟨u, n, x, hx, hu, hn⟩

theorem lowNext_right (h : LowNext l) (m : List ℕ) : LowNext (l ++ m) := by
  obtain ⟨u, n, x, rfl, hu, hn⟩ := h
  exact ⟨u, n, x ++ m, by simp, hu, hn⟩

theorem closes_pair (hu : Hex u a) (ha : IsHigh a) (hv : Hex v b) (hb : IsLow b) :
    Closes strict (0x5c :: 0x75 :: (u ++ 0x5c :: 0x75 :: (v ++ l))) w n ↔ ∃ w' n', Closes strict l w' n' ∧
      w = (0x10000 + ((a - 0xd800) <<< 10 ||| (b - 0xdc00))) :: w' ∧ n = n' + 12 := by
  constructor
  · rintro ⟨body, tail, heq, hchars, rfl⟩
    rcases hchars.escaped heq with ⟨e', c, l', w', hl, hc, -⟩ | ⟨u', a', l', w', hl, hu', hn, -⟩ |
      ⟨u', a', v', b', l', w', hl, hu', -, hv', -, h, rfl, hlen⟩
    · rw [← (List.cons.inj hl).1, simpleEscape_u] at hc
      cases hc
    · obtain ⟨rfl, rfl, hl'⟩ := hu.unique hu' (List.cons.inj hl).2
      have hlow : LowNext (l' ++ 0x22 :: tail) := ⟨v, b, l, hl'.symm, hv, hb⟩
      exact absurd ⟨ha, lowNext_append hlow⟩ hn
    · obtain ⟨rfl, rfl, hl'⟩ := hu.unique hu' (List.cons.inj hl).2
      obtain ⟨rfl, rfl, rfl⟩ := hv.unique hv' (List.cons.inj (List.cons.inj hl').2).2
      exact ⟨w', _, ⟨l', tail, rfl, h, rfl⟩, rfl, by rw [hlen]⟩
  · rintro ⟨w', n', ⟨body, tail, rfl, h, rfl⟩, rfl, rfl⟩
    refine ⟨0x5c :: 0x75 :: (u ++ 0x5c :: 0x75 :: (v ++ body)), tail, by simp, .pair hu ha hv hb h, ?_⟩
    simp only [List.length_cons, List.length_append, hu.1, hv.1]
    omega

theorem closes_unicode (hu : Hex u a) (hlow : ¬ (IsHigh a ∧ LowNext l)) :
    Closes strict (0x5c :: 0x75 :: (u ++ l)) w n ↔
      ∃ w' n', Closes strict l w' n' ∧ w = a :: w' ∧ n = n' + 6 := by
  constructor
  · rintro ⟨body, tail, heq, hchars, rfl⟩
    rcases hchars.escaped heq with ⟨e', c, l', w', hl, hc, -⟩ | ⟨u', a', l', w', hl, hu', -, h, rfl, hlen⟩ |
      ⟨u', a', v', b', l', w', hl, hu', ha', hv', hb', -⟩
    · rw [← (List.cons.inj hl).1, simpleEscape_u] at hc
      cases hc
    · obtain ⟨rfl, rfl, rfl⟩ := hu.unique hu' (List.cons.inj hl).2
      exact ⟨w', _, ⟨l', tail, rfl, h, rfl⟩, rfl, by rw [hlen]⟩
    · obtain ⟨rfl, rfl, rfl⟩ := hu.unique hu' (List.cons.inj hl).2
      exact absurd ⟨ha', v', b', l' ++ 0x22 :: tail, rfl, hv', hb'⟩ hlow
  · rintro ⟨w', n', ⟨body, tail, rfl, h, rfl⟩, rfl, rfl⟩
    refine ⟨0x5c :: 0x75 :: (u ++ body), tail, by simp, .unicode hu ?_ h, ?_⟩
    · exact fun hjoin => hlow ⟨hjoin.1, lowNext_right hjoin.2 _⟩
    · simp only [List.length_cons, List.length_append, hu.1]
      omega

/-- Without four digits the text is no string. -/
theorem not_closes_unicode (h : ∀ u a m, Hex u a → l ≠ u ++ m) : ¬ Closes strict (0x5c :: 0x75 :: l) w n := by
  rintro ⟨body, tail, heq, hchars, -⟩
  rcases hchars.escaped heq with ⟨e', c, l', w', hl, hc, -⟩ | ⟨u', a', l', w', hl, hu', -⟩ |
    ⟨u', a', v', b', l', w', hl, hu', -⟩
  · rw [← (List.cons.inj hl).1, simpleEscape_u] at hc
    cases hc
  · exact h _ _ _ hu' (List.cons.inj hl).2
  · exact h _ _ _ hu' (List.cons.inj hl).2

variable {σ ε ω : Type} {cfg : ScannerCfg σ ε ω} {s t : σ} {next : ℕ → List ℕ → Scan σ ε (List ℕ × ℕ)}
  {start fuel : ℕ}

theorem not_yields_decodeError {α : Type} {x : α} (msg : String) (pos : ℕ) :
    ¬ Yields (decodeError cps msg pos : Scan σ ε α) s x t := not_yields_throw _

theorem yields_decodeUxxxx : Yields (decodeUxxxx cps i : Scan σ ε ℕ) s n t ↔
    t = s ∧ ∃ u, Hex u n ∧ rest cps (i + 1) = u ++ rest cps (i + 5) := by
  have htake : ((cps.drop (i + 1)).take 4).map UInt32.toNat = (rest cps (i + 1)).take 4 := by
    rw [rest, List.map_take]
  have hsplit : rest cps (i + 1) = (rest cps (i + 1)).take 4 ++ rest cps (i + 5) := by
    rw [rest_add cps (i + 1) 4, List.take_append_drop]
  have hhex : hexTake 4 0 (cps.drop (i + 1)) = some n ↔ Hex ((rest cps (i + 1)).take 4) n := by
    have hfold : ((cps.drop (i + 1)).take 4).foldlM (m := Option)
        (fun v c => (hexVal (JsonChar.code c)).map fun d => v <<< 4 ||| d) 0 =
        ((rest cps (i + 1)).take 4).foldlM (m := Option) (fun v c => (hexVal c).map fun d => v <<< 4 ||| d) 0 := by
      rw [← htake, List.foldlM_map]
      rfl
    have hlen : ((rest cps (i + 1)).take 4).length = 4 ↔ 4 ≤ (cps.drop (i + 1)).length := by
      rw [List.length_take, rest_length, List.length_drop]
      omega
    rw [hexTake, hfold, Hex, hlen]
    by_cases h4 : 4 ≤ (cps.drop (i + 1)).length
    · rw [if_pos h4]
      exact ⟨fun h => ⟨h4, h⟩, fun h => h.2⟩
    · rw [if_neg h4]
      constructor
      · rintro ⟨⟩
      · exact fun h => absurd h.1 h4
  rw [decodeUxxxx_eq]
  constructor
  · intro h
    rcases hd : hexTake 4 0 (cps.drop (i + 1)) with _ | x
    · rw [hd] at h
      exact (not_yields_decodeError _ _ h).elim
    · rw [hd] at h
      obtain ⟨rfl, rfl⟩ := yields_pure.mp h
      exact ⟨rfl, _, hhex.mp hd, hsplit⟩
  · rintro ⟨rfl, u, hu, hrest⟩
    have hu4 : (rest cps (i + 1)).take 4 = u := by rw [hrest, List.take_left' hu.1]
    rw [hhex.mpr (by rwa [hu4])]
    exact yields_pure.mpr ⟨rfl, rfl⟩

theorem rest_hex (hu : Hex u a) (h : rest cps i = u ++ m) : rest cps i = u ++ rest cps (i + 4) := by
  have hskip := rest_skip h
  rw [hu.1] at hskip
  rw [hskip, h]

theorem yields_decodeUxxxx_of (hu : Hex u a) (h : rest cps (i + 1) = u ++ m) :
    Yields (decodeUxxxx cps i : Scan σ ε ℕ) s n t ↔ n = a ∧ t = s := by
  rw [yields_decodeUxxxx]
  constructor
  · rintro ⟨rfl, u', hu', h'⟩
    exact ⟨(hu.unique hu' (h.symm.trans h')).2.1.symm, rfl⟩
  · rintro ⟨rfl, rfl⟩
    exact ⟨rfl, u, hu, rest_hex hu h⟩

/-- `next` reads the string on from `j`. -/
def Goes (strict : Bool) (cps : List UInt32) (next : ℕ → List ℕ → Scan σ ε (List ℕ × ℕ)) (j : ℕ) : Prop :=
  ∀ out s v e t, Yields (next j out) s (v, e) t ↔
    t = s ∧ ∃ w n, Closes strict (rest cps j) w n ∧ v = out ++ w ∧ e = j + n

theorem Goes.push (h : Goes strict cps next (i + k)) : Yields (next (i + k) (out ++ [a])) s (v, e) t ↔
    t = s ∧ ∃ w n, (∃ w' n', Closes strict (rest cps (i + k)) w' n' ∧ w = a :: w' ∧ n = n' + k) ∧ v = out ++ w ∧
      e = i + n := by
  rw [h]
  constructor
  · rintro ⟨rfl, w, n, hw, rfl, rfl⟩
    exact ⟨rfl, a :: w, n + k, ⟨w, n, hw, rfl, rfl⟩, by simp, by omega⟩
  · rintro ⟨rfl, w, n, ⟨w', n', hw, rfl, rfl⟩, rfl, rfl⟩
    exact ⟨rfl, w', n', hw, by simp, by omega⟩

/-- An escape that is not the high half of a pair stands for itself. -/
theorem yields_alone (hnext : Goes strict cps next (i + 6)) (hu : Hex u a)
    (hlow : ¬ (IsHigh a ∧ LowNext (rest cps (i + 6)))) : Yields (next (i + 6) (out ++ [a])) s (v, e) t ↔
      t = s ∧ ∃ w n, Closes strict (0x5c :: 0x75 :: (u ++ rest cps (i + 6))) w n ∧ v = out ++ w ∧ e = i + n := by
  rw [hnext.push]
  simp only [closes_unicode hu hlow]

/-- After a high half another escape is read, which goes with it if it is a low half. -/
theorem yields_secondHalf (hnext : ∀ j, i < j → Goes strict cps next j) (hu : Hex u a) (ha : IsHigh a)
    (hback : rest cps (i + 6) = 0x5c :: 0x75 :: rest cps (i + 8)) :
    (∃ b t', Yields (decodeUxxxx cps (i + 7) : Scan σ ε ℕ) s b t' ∧ Yields (if 0xdc00 ≤ b ∧ b ≤ 0xdfff then
        next (i + 12) (out ++ [0x10000 + ((a - 0xd800) <<< 10 ||| (b - 0xdc00))])
      else next (i + 6) (out ++ [a])) t' (v, e) t) ↔
      t = s ∧ ∃ w n, Closes strict (0x5c :: 0x75 :: (u ++ rest cps (i + 6))) w n ∧ v = out ++ w ∧ e = i + n := by
  by_cases hsecond : ∃ u' b, Hex u' b ∧ rest cps (i + 8) = u' ++ rest cps (i + 12)
  · obtain ⟨u', b, hu', hrest'⟩ := hsecond
    simp only [yields_decodeUxxxx_of hu' hrest']
    have hbranch : (∃ x t', (x = b ∧ t' = s) ∧ Yields (if 0xdc00 ≤ x ∧ x ≤ 0xdfff then
          next (i + 12) (out ++ [0x10000 + ((a - 0xd800) <<< 10 ||| (x - 0xdc00))])
        else next (i + 6) (out ++ [a])) t' (v, e) t) ↔ Yields (if 0xdc00 ≤ b ∧ b ≤ 0xdfff then
          next (i + 12) (out ++ [0x10000 + ((a - 0xd800) <<< 10 ||| (b - 0xdc00))])
        else next (i + 6) (out ++ [a])) s (v, e) t := by
      constructor
      · rintro ⟨x, t', ⟨rfl, rfl⟩, h⟩
        exact h
      · exact fun h => ⟨b, s, ⟨rfl, rfl⟩, h⟩
    rw [hbranch]
    by_cases hb : IsLow b
    · rw [if_pos (show 0xdc00 ≤ b ∧ b ≤ 0xdfff from hb), (hnext (i + 12) (by omega)).push, hback, hrest']
      simp only [closes_pair hu ha hu' hb]
    · rw [if_neg (show ¬ (0xdc00 ≤ b ∧ b ≤ 0xdfff) from hb)]
      apply yields_alone (hnext (i + 6) (by omega)) hu
      rintro ⟨-, u'', x, m, heq, hu'', hx⟩
      rw [hback, hrest'] at heq
      obtain ⟨-, rfl, -⟩ := hu'.unique hu'' (List.cons.inj (List.cons.inj heq).2).2
      exact hb hx
  · constructor
    · rintro ⟨b, t', hb, -⟩
      obtain ⟨-, u', hu', hrest'⟩ := yields_decodeUxxxx.mp hb
      exact absurd ⟨u', b, hu', hrest'⟩ hsecond
    · rintro ⟨-, w, n, hw, -⟩
      have hnone : ∀ u' b m, Hex u' b → rest cps (i + 8) ≠ u' ++ m := fun u' b m hu' heq =>
        hsecond ⟨u', b, hu', rest_hex hu' heq⟩
      have hlow : ¬ (IsHigh a ∧ LowNext (rest cps (i + 6))) := by
        rintro ⟨-, u', b, m, heq, hu', -⟩
        rw [hback] at heq
        exact hnone u' b m hu' (List.cons.inj (List.cons.inj heq).2).2
      obtain ⟨w', n', hw', -⟩ := (closes_unicode hu hlow).mp hw
      rw [hback] at hw'
      exact (not_closes_unicode hnone hw').elim

theorem yields_stringEscapeU (hrest : rest cps i = 0x5c :: 0x75 :: l) (hnext : ∀ j, i < j → Goes strict cps next j) :
    Yields (stringEscapeU cps next i out) s (v, e) t ↔
      t = s ∧ ∃ w n, Closes strict (0x5c :: 0x75 :: l) w n ∧ v = out ++ w ∧ e = i + n := by
  have hl : rest cps (i + 2) = l := rest_next (rest_next hrest)
  unfold stringEscapeU
  rw [yields_bind]
  by_cases hdigits : ∃ u a, Hex u a ∧ l = u ++ rest cps (i + 6)
  · obtain ⟨u, a, hu, hlu⟩ := hdigits
    simp only [yields_decodeUxxxx_of hu (hl.trans hlu)]
    rw [hlu]
    by_cases hcond : 0xd800 ≤ a ∧ a ≤ 0xdbff ∧ peek cps (i + 6) = some 0x5c ∧ peek cps (i + 7) = some 0x75
    · have hback : rest cps (i + 6) = 0x5c :: 0x75 :: rest cps (i + 8) := by
        rw [rest_of_peek hcond.2.2.1, rest_of_peek hcond.2.2.2]
      rw [← yields_secondHalf hnext hu ⟨hcond.1, hcond.2.1⟩ hback]
      constructor
      · rintro ⟨x, t', ⟨rfl, rfl⟩, h⟩
        rw [if_pos hcond, yields_bind] at h
        exact h
      · intro h
        refine ⟨a, s, ⟨rfl, rfl⟩, ?_⟩
        rw [if_pos hcond, yields_bind]
        exact h
    · rw [← yields_alone (hnext (i + 6) (by omega)) hu]
      · constructor
        · rintro ⟨x, t', ⟨rfl, rfl⟩, h⟩
          rwa [if_neg hcond] at h
        · intro h
          refine ⟨a, s, ⟨rfl, rfl⟩, ?_⟩
          rwa [if_neg hcond]
      · rintro ⟨ha, u', b, m, heq, -⟩
        exact hcond ⟨ha.1, ha.2, peek_eq heq, peek_eq (rest_next heq)⟩
  · constructor
    · rintro ⟨x, t', hx, -⟩
      obtain ⟨-, u, hu, hrest'⟩ := yields_decodeUxxxx.mp hx
      exact absurd ⟨u, x, hu, hl.symm.trans hrest'⟩ hdigits
    · rintro ⟨-, w, n, hw, -⟩
      refine (not_closes_unicode ?_ hw).elim
      exact fun u a m hu heq => hdigits ⟨u, a, hu, hl.symm.trans (rest_hex hu (hl.trans heq))⟩

theorem yields_stringEscape (hrest : rest cps i = 0x5c :: l) (hnext : ∀ j, i < j → Goes cfg.strict cps next j) :
    Yields (stringEscape cfg cps start next i out) s (v, e) t ↔
      t = s ∧ ∃ w n, Closes cfg.strict (0x5c :: l) w n ∧ v = out ++ w ∧ e = i + n := by
  have hl : rest cps (i + 1) = l := rest_next hrest
  unfold stringEscape
  rw [peek_eq hl]
  cases l with
  | nil =>
    refine iff_of_false (not_yields_decodeError _ _) ?_
    rintro ⟨-, w, n, hw, -⟩
    exact not_closes_backslash hw
  | cons d l =>
    have hl' : rest cps (i + 2) = l := rest_next hl
    rw [List.head?_cons]
    dsimp only
    by_cases hd : d = 0x75
    · subst hd
      rw [if_neg (by simp)]
      exact yields_stringEscapeU hrest hnext
    · rw [if_pos hd]
      simp only [closes_escape hd]
      cases hc : simpleEscape d with
      | none =>
        refine iff_of_false (fun h => ?_) ?_
        · obtain ⟨x, t', -, h'⟩ := yields_bind.mp h
          exact not_yields_decodeError _ _ h'
        · rintro ⟨-, w, n, ⟨c, w', n', hsome, -⟩, -⟩
          cases hsome
      | some c =>
        rw [hnext (i + 2) (by omega), hl']
        constructor
        · rintro ⟨rfl, w, n, hw, rfl, rfl⟩
          exact ⟨rfl, c :: w, n + 2, ⟨c, w, n, rfl, hw, rfl, rfl⟩, List.append_assoc .., by omega⟩
        · rintro ⟨rfl, w, n, ⟨c', w', n', hsome, hw, rfl, rfl⟩, rfl, rfl⟩
          cases hsome
          exact ⟨rfl, w', n', hw, List.append_cons .., by omega⟩

/-- By induction on the fuel, which covers the text that is left. -/
theorem yields_stringLoop (hfuel : (rest cps i).length < fuel) :
    Goes cfg.strict cps (stringLoop cfg cps start fuel) i := by
  induction fuel generalizing i with
  | zero => omega
  | succ fuel ih =>
    intro out s v e t
    obtain ⟨chunk, hchunk, hrest, hj⟩ := exists_skip cps isPlain i
    have hcodes : (span cps i (skipWhile cps isPlain i)).map UInt32.toNat = chunk := by
      rw [span, hj, Nat.add_sub_cancel_left, List.map_take]
      change (rest cps i).take chunk.length = chunk
      rw [hrest, List.take_left]
    have happend : JsonChar.append (span cps i (skipWhile cps isPlain i)) = .ok chunk := congrArg Except.ok hcodes
    have hstring : JsonChar.string (span cps i (skipWhile cps isPlain i)) = .ok chunk := congrArg Except.ok hcodes
    have hstop (c : ℕ) (h : peek cps (skipWhile cps isPlain i) = some c) : isPlain c = false := peek_skip h
    have hleft : (rest cps i).length = chunk.length + (rest cps (skipWhile cps isPlain i)).length := by
      rw [hrest, List.length_append]
    rw [hrest]
    simp only [closes_plains hchunk]
    rw [stringLoop]
    generalize skipWhile cps isPlain i = j at *
    cases hl : rest cps j with
    | nil =>
      rw [peek_eq hl]
      refine iff_of_false (not_yields_decodeError _ _) ?_
      rintro ⟨-, w, n, ⟨w', n', hw, -⟩, -⟩
      exact not_closes_nil hw
    | cons c l =>
      have hpeek : peek cps j = some c := peek_eq hl
      have hplain : isPlain c = false := hstop c hpeek
      have hless (k : ℕ) (hk : j < k) : (rest cps k).length < fuel := by
        have hpos := congrArg List.length hl
        rw [List.length_cons] at hpos
        simp only [rest_length] at hleft hfuel hpos ⊢
        omega
      rw [hpeek]
      dsimp only
      by_cases hquote : c = 0x22
      · subst hquote
        simp only [closes_quote]
        have hdone : Yields (do
            let chunk ← Comp.lift (JsonChar.append (span cps i j))
            pure (out ++ chunk, j + 1) : Scan σ ε (List ℕ × ℕ)) s (v, e) t ↔
            t = s ∧ ∃ w n, (∃ w' n', (w' = [] ∧ n' = 1) ∧ w = chunk ++ w' ∧ n = chunk.length + n') ∧
              v = out ++ w ∧ e = i + n := by
          rw [yields_bind]
          simp only [yields_lift happend]
          constructor
          · rintro ⟨b, t', ⟨rfl, rfl⟩, h⟩
            obtain ⟨hve, rfl⟩ := yields_pure.mp h
            obtain ⟨rfl, rfl⟩ := Prod.mk.inj hve
            exact ⟨rfl, _, _, ⟨[], 1, ⟨rfl, rfl⟩, rfl, rfl⟩, by rw [List.append_nil], by omega⟩
          · rintro ⟨rfl, w, n, ⟨w', n', ⟨rfl, rfl⟩, rfl, rfl⟩, rfl, rfl⟩
            exact ⟨chunk, t, ⟨rfl, rfl⟩, yields_pure.mpr ⟨by rw [List.append_nil, hj, Nat.add_assoc], rfl⟩⟩
        by_cases hfirst : out = [] ∧ i = start
        · rw [if_pos ⟨trivial, hfirst⟩, ← hdone, yields_bind, yields_bind]
          simp only [yields_lift happend, yields_lift hstring, hfirst.1, List.nil_append]
        · rw [if_neg fun h => hfirst h.2, ← hdone, yields_bind, yields_bind]
          rfl
      · rw [if_neg fun h => hquote h.1, yields_bind]
        simp only [yields_lift happend, if_neg hquote]
        by_cases hback : c = 0x5c
        · subst hback
          have hgo : ∀ k, j < k → Goes cfg.strict cps (stringLoop cfg cps start fuel) k := fun k hk => ih (hless k hk)
          constructor
          · rintro ⟨b, t', ⟨rfl, rfl⟩, h⟩
            rw [if_neg (by simp), yields_stringEscape hl hgo] at h
            obtain ⟨rfl, w, n, hw, rfl, rfl⟩ := h
            exact ⟨rfl, _, _, ⟨w, n, hw, rfl, rfl⟩, List.append_assoc .., by omega⟩
          · rintro ⟨rfl, w, n, ⟨w', n', hw, rfl, rfl⟩, rfl, rfl⟩
            refine ⟨chunk, t, ⟨rfl, rfl⟩, ?_⟩
            rw [if_neg (by simp), yields_stringEscape hl hgo]
            exact ⟨rfl, w', n', hw, (List.append_assoc ..).symm, by omega⟩
        · have hcontrol : c < 0x20 := by
            rw [isPlain, decide_eq_false_iff_not, not_not] at hplain
            omega
          simp only [ne_eq, hback, not_false_eq_true, ↓reduceIte, closes_control hcontrol]
          by_cases hstrict : cfg.strict = true
          · refine iff_of_false ?_ ?_
            · rintro ⟨b, t', -, h⟩
              rw [if_pos hstrict] at h
              exact not_yields_decodeError _ _ h
            · rintro ⟨-, w, n, ⟨w', n', ⟨hf, -⟩, -⟩, -⟩
              rw [hstrict] at hf
              cases hf
          · have hgo := ih (hless (j + 1) (Nat.lt_succ_self j))
            rw [Goes, rest_next hl] at hgo
            constructor
            · rintro ⟨b, t', ⟨rfl, rfl⟩, h⟩
              rw [if_neg hstrict, hgo] at h
              obtain ⟨rfl, w, n, hw, rfl, rfl⟩ := h
              refine ⟨rfl, _, _, ⟨_, _, ⟨by simpa using hstrict, w, n, hw, rfl, rfl⟩, rfl, rfl⟩, ?_, by omega⟩
              simp only [List.append_assoc, List.singleton_append]
            · rintro ⟨rfl, w, n, ⟨w', n', ⟨-, w'', n'', hw, rfl, rfl⟩, rfl, rfl⟩, rfl, rfl⟩
              refine ⟨chunk, t, ⟨rfl, rfl⟩, ?_⟩
              rw [if_neg hstrict, hgo]
              exact ⟨rfl, w'', n'', hw, by simp only [List.append_assoc, List.singleton_append], by omega⟩

theorem yields_scanString : Yields (scanString cfg cps i : Scan σ ε (List ℕ × ℕ)) s (v, e) t ↔
    t = s ∧ ∃ n, Closes cfg.strict (rest cps i) v n ∧ e = i + n := by
  have hfuel : (rest cps i).length < cps.length + 1 := by
    rw [rest_length]
    omega
  rw [scanString, yields_stringLoop hfuel]
  constructor
  · rintro ⟨rfl, w, n, hw, rfl, rfl⟩
    exact ⟨rfl, n, hw, rfl⟩
  · rintro ⟨rfl, n, hw, rfl⟩
    exact ⟨rfl, v, n, hw, rfl, rfl⟩

end Strings

end WeavePy.Json
