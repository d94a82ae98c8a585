import WeavePy.Json.Literals

/-!
The grammar of documents over their code points, and what the scanner accepts: a value is read exactly where the
grammar has one, numbers as far as they go, and the result is what the grammar says that the text denotes.
-/

namespace WeavePy.Json

section Values

variable {σ ε ω : Type} (cfg : ScannerCfg σ ε ω)

/-- The value of a numeral: the native one, or what the parser that was given makes of it. -/
def numeral (numstr : List Char) (isFloat : Bool) : Scan σ ε (Obj ω) :=
  let native : Option (Obj ω) :=
    if isFloat then if cfg.nativeFloat then cfg.parseF64 numstr else none
    else if cfg.nativeInt then (cfg.parseI64 numstr).map .int else none
  match native with
  | some value => pure value
  | none => callPy ((if isFloat then cfg.parseFloat else cfg.parseInt) numstr)

def chars (text : List ℕ) : List Char := text.filterMap fun c => fromU32 (.ofNat c)

/-- The values without parts; what a text denotes is a computation, as numerals and constants may call Python. -/
inductive Scalar : List ℕ → Scan σ ε (Obj ω) → Prop
  | null : Scalar (codes "null") (pure .none)
  | true : Scalar (codes "true") (pure (.bool true))
  | false : Scalar (codes "false") (pure (.bool false))
  | constant {name : String} : name ∈ ["NaN", "Infinity", "-Infinity"] → Scalar (codes name) (parseConstant cfg name)
  | numeral {text : List ℕ} {f : Bool} : Numeral text f → Scalar text (numeral cfg (chars text) f)
  | string {body w : List ℕ} : Chars cfg.strict body w → Scalar (0x22 :: (body ++ [0x22])) (pure (.str w))

section Parts

variable (V : List ℕ → Scan σ ε (Obj ω) → Prop)

/-- The items of an array: values with commas between them. -/
inductive Items : List ℕ → Scan σ ε (List (Obj ω)) → Prop
  | last {l w : List ℕ} {x : Scan σ ε (Obj ω)} : V l x → Blank w → Items (l ++ w) (do
      let value ← x
      pure [value])
  | more {l w w' m : List ℕ} {x : Scan σ ε (Obj ω)} {xs : Scan σ ε (List (Obj ω))} : V l x → Blank w → Blank w' →
      Items m xs → Items (l ++ (w ++ 0x2c :: (w' ++ m))) (do
        let value ← x
        let values ← xs
        pure (value :: values))

/-- The members of an object; they denote what they do to the fields that are already there. -/
inductive Members : List ℕ → (DecodedObject ω → Scan σ ε (DecodedObject ω)) → Prop
  | last {k key w₁ w₂ l w₃ : List ℕ} {x : Scan σ ε (Obj ω)} : Chars cfg.strict k key → Blank w₁ → Blank w₂ → V l x →
      Blank w₃ → Members (0x22 :: (k ++ 0x22 :: (w₁ ++ 0x3a :: (w₂ ++ (l ++ w₃))))) (fun object => do
        let value ← x
        insertField cfg key value object)
  | more {k key w₁ w₂ l w₃ w₄ m : List ℕ} {x : Scan σ ε (Obj ω)}
      {f : DecodedObject ω → Scan σ ε (DecodedObject ω)} : Chars cfg.strict k key → Blank w₁ → Blank w₂ → V l x →
      Blank w₃ → Blank w₄ → Members m f →
      Members (0x22 :: (k ++ 0x22 :: (w₁ ++ 0x3a :: (w₂ ++ (l ++ (w₃ ++ 0x2c :: (w₄ ++ m))))))) (fun object => do
        let value ← x
        let object ← insertField cfg key value object
        f object)

inductive Container : List ℕ → Scan σ ε (Obj ω) → Prop
  | emptyArray {w : List ℕ} : Blank w → Container (0x5b :: (w ++ [0x5d])) (pure (.list []))
  | array {w l : List ℕ} {xs : Scan σ ε (List (Obj ω))} : Blank w → Items V l xs →
      Container (0x5b :: (w ++ (l ++ [0x5d]))) (do
        let values ← xs
        pure (.list values))
  | emptyObject {w : List ℕ} : Blank w → Container (0x7b :: (w ++ [0x7d])) (finishObject cfg (newObject cfg))
  | object {w l : List ℕ} {f : DecodedObject ω → Scan σ ε (DecodedObject ω)} : Blank w → Members cfg V l f →
      Container (0x7b :: (w ++ (l ++ [0x7d]))) (do
        let object ← f (newObject cfg)
        finishObject cfg object)

end Parts

/-- A value of the grammar with at most `depth` containers inside each other, and what it denotes. -/
def Value : ℕ → List ℕ → Scan σ ε (Obj ω) → Prop
  | 0, text, x => Scalar cfg text x
  | depth + 1, text, x => Scalar cfg text x ∨ Container cfg (Value depth) text x

end Values

section Reading

variable {σ ε ω : Type} {cfg : ScannerCfg σ ε ω} {cps : List UInt32} {V C : List ℕ → Scan σ ε (Obj ω) → Prop}
  {scan object array : ℕ → Scan σ ε (Obj ω × ℕ)} {i j e a c d fuel : ℕ} {f : Bool} {text tail l w : List ℕ} {s t : σ}
  {v : Obj ω}
  {x : Scan σ ε (Obj ω)} {values : List (Obj ω)}

/-- The scan reads the values of `V`, numerals as far as they go. -/
def Reads (cps : List UInt32) (V : List ℕ → Scan σ ε (Obj ω) → Prop) (scan : ℕ → Scan σ ε (Obj ω × ℕ)) : Prop :=
  ∀ i s v e t, Yields (scan i) s (v, e) t ↔ ∃ text x tail, rest cps i = text ++ tail ∧ V text x ∧ Ends text tail ∧
    Yields x s v t ∧ e = i + text.length

/-- The values begin with a character that is neither blank nor a closing bracket. -/
def Begins (V : List ℕ → Scan σ ε (Obj ω) → Prop) : Prop :=
  ∀ text x, V text x → ∃ c l, text = c :: l ∧ isWs c = false ∧ c ≠ 0x5d

theorem Numeral.head (h : Numeral text f) : ∃ d m, isDigit d = true ∧ (text = d :: m ∨ text = 0x2d :: d :: m) := by
  cases h with
  | @mk sign a b c f g hs ha hb hc =>
    obtain ⟨d, m, rfl, hd⟩ : ∃ d m, a = d :: m ∧ isDigit d = true := by
      cases ha with
      | zero => exact ⟨_, _, rfl, rfl⟩
      | digits hlow hhigh hds =>
        refine ⟨_, _, rfl, ?_⟩
        simp only [isDigit, Bool.and_eq_true, decide_eq_true_eq]
        omega
    rcases hs with rfl | rfl
    · exact ⟨d, _, hd, .inl rfl⟩
    · exact ⟨d, _, hd, .inr rfl⟩

theorem ends_of_mem (hc : c ∈ text) (h : isNumberChar c = false) : Ends text tail := by
  intro more _ _ f hn
  have htrue := hn.isNumberChar c (List.mem_append_left _ hc)
  rw [h] at htrue
  cases htrue

theorem isNumberChar_of_isWs (h : isWs c = true) : isNumberChar c = false := by
  rw [isWs, List.contains_eq_mem, decide_eq_true_eq] at h
  simp only [List.mem_cons, List.not_mem_nil, or_false] at h
  rcases h with rfl | rfl | rfl | rfl <;> rfl

theorem ends_blank (hw : Blank w) (hd : isNumberChar d = false) : Ends text (w ++ d :: tail) := by
  apply ends_of_head
  intro c hc
  cases w with
  | nil =>
    cases hc
    exact hd
  | cons a w =>
    cases hc
    exact isNumberChar_of_isWs (hw c (List.mem_cons_self ..))

theorem isWs_of_isDigit (h : isDigit c = true) : isWs c = false ∧ c ≠ 0x5d := by
  simp only [isDigit, Bool.and_eq_true, decide_eq_true_eq] at h
  simp only [isWs, List.contains_eq_mem, List.mem_cons, List.not_mem_nil, or_false, decide_eq_false_iff_not]
  omega

theorem opens_scalar : Begins (Scalar cfg) := by
  intro text x h
  cases h with
  | null => exact ⟨_, _, rfl, by decide, by decide⟩
  | true => exact ⟨_, _, rfl, by decide, by decide⟩
  | false => exact ⟨_, _, rfl, by decide, by decide⟩
  | constant hname =>
    simp only [List.mem_cons, List.not_mem_nil, or_false] at hname
    rcases hname with rfl | rfl | rfl <;> exact ⟨_, _, rfl, by decide, by decide⟩
  | numeral hn =>
    obtain ⟨d, m, hd, rfl | rfl⟩ := hn.head
    · exact ⟨d, m, rfl, isWs_of_isDigit hd⟩
    · exact ⟨_, _, rfl, by decide, by decide⟩
  | string hchars => exact ⟨_, _, rfl, by decide, by decide⟩

theorem opens_container : Begins (Container cfg V) := by
  intro text x h
  cases h <;> exact ⟨_, _, rfl, by decide, by decide⟩

theorem opens_value (depth : ℕ) : Begins (Value cfg depth) := by
  intro text x h
  cases depth with
  | zero => exact opens_scalar text x h
  | succ depth => exact h.elim (opens_scalar text x) (opens_container text x)

theorem not_matchNumber (h : ∀ d m, isDigit d = true → rest cps i ≠ d :: m ∧ rest cps i ≠ 0x2d :: d :: m) :
    matchNumber cps i = none := by
  rcases hm : matchNumber cps i with _ | ⟨j, f⟩
  · rfl
  · obtain ⟨text, hn, hrest, -⟩ := matchNumber_sound hm
    obtain ⟨d, m, hd, rfl | rfl⟩ := hn.head
    · exact absurd hrest (h d _ hd).1
    · exact absurd hrest (h d _ hd).2

theorem yields_scanNumber (h : rest cps i = text ++ tail) :
    Yields (scanNumber cfg cps i (i + text.length) f) s (v, e) t ↔
    Yields (numeral cfg (chars text) f) s v t ∧ e = i + text.length := by
  have hspan : (span cps i (i + text.length)).map UInt32.toNat = text := by
    rw [span, Nat.add_sub_cancel_left, List.map_take]
    change (rest cps i).take text.length = text
    rw [h, List.take_left]
  have htext : JsonChar.text (span cps i (i + text.length)) = .ok (chars text) := by
    generalize span cps i (i + text.length) = units at hspan
    subst hspan
    refine congrArg Except.ok ?_
    rw [chars, List.filterMap_map]
    exact List.filterMap_congr fun c _ => by simp only [Function.comp_apply, UInt32.ofNat_toNat]
  rw [scanNumber, yields_bind, numeral]
  constructor
  · rintro ⟨b, t', hb, h⟩
    obtain ⟨rfl, rfl⟩ := (yields_lift htext).mp hb
    dsimp only at h ⊢
    generalize (if f = true then if cfg.nativeFloat = true then cfg.parseF64 (chars text) else none
      else if cfg.nativeInt = true then (cfg.parseI64 (chars text)).map Obj.int else none) = native at h ⊢
    cases native with
    | none =>
      obtain ⟨r, t'', hr, h⟩ := yields_bind.mp h
      obtain ⟨hve, rfl⟩ := yields_pure.mp h
      obtain ⟨rfl, rfl⟩ := Prod.mk.inj hve
      exact ⟨hr, rfl⟩
    | some value =>
      obtain ⟨hve, rfl⟩ := yields_pure.mp h
      obtain ⟨rfl, rfl⟩ := Prod.mk.inj hve
      exact ⟨yields_pure.mpr ⟨rfl, rfl⟩, rfl⟩
  · rintro ⟨h, rfl⟩
    refine ⟨_, s, (yields_lift htext).mpr ⟨rfl, rfl⟩, ?_⟩
    dsimp only at h ⊢
    generalize (if f = true then if cfg.nativeFloat = true then cfg.parseF64 (chars text) else none
      else if cfg.nativeInt = true then (cfg.parseI64 (chars text)).map Obj.int else none) = native at h ⊢
    cases native with
    | none => exact yields_bind.mpr ⟨v, t, h, yields_pure.mpr ⟨rfl, rfl⟩⟩
    | some value =>
      obtain ⟨rfl, rfl⟩ := yields_pure.mp h
      exact yields_pure.mpr ⟨rfl, rfl⟩

theorem matchesKw_rest {kw : List ℕ} (hkw : kw ≠ []) :
    matchesKw cps i kw = true ↔ ∃ tail, rest cps i = kw ++ tail := by
  rw [matchesKw_iff cps i hkw]
  constructor
  · rintro ⟨tail, h⟩
    exact ⟨tail, h.symm⟩
  · rintro ⟨tail, h⟩
    exact ⟨tail, h.symm⟩

theorem matchesKw_of_head {kw : List ℕ} (hne : c ≠ d) (h : rest cps i = c :: l) :
    matchesKw cps i (d :: kw) = false := by
  rw [Bool.eq_false_iff, ne_eq, matchesKw_rest (List.cons_ne_nil d kw)]
  rintro ⟨tail, heq⟩
  rw [h] at heq
  exact hne (List.cons.inj heq).1

theorem codes_nan : codes "NaN" = [0x4e, 0x61, 0x4e] := by decide

theorem codes_infinity : codes "Infinity" = [0x49, 0x6e, 0x66, 0x69, 0x6e, 0x69, 0x74, 0x79] := by decide

theorem codes_minus_infinity :
    codes "-Infinity" = [0x2d, 0x49, 0x6e, 0x66, 0x69, 0x6e, 0x69, 0x74, 0x79] := by decide

theorem yields_constant {name : String} {n : ℕ} : Yields (do
      let r ← parseConstant cfg name
      pure (r, i + n) : Scan σ ε (Obj ω × ℕ)) s (v, e) t ↔ Yields (parseConstant cfg name) s v t ∧ e = i + n := by
  rw [yields_bind]
  constructor
  · rintro ⟨r, t', hr, h⟩
    obtain ⟨hve, rfl⟩ := yields_pure.mp h
    obtain ⟨rfl, rfl⟩ := Prod.mk.inj hve
    exact ⟨hr, rfl⟩
  · rintro ⟨h, rfl⟩
    exact ⟨v, t, h, yields_pure.mpr ⟨rfl, rfl⟩⟩

theorem yields_scanOther : Yields (scanOther cfg cps i) s (v, e) t ↔
    (∃ text f tail, rest cps i = text ++ tail ∧ Numeral text f ∧ Ends text tail ∧
      Yields (numeral cfg (chars text) f) s v t ∧ e = i + text.length) ∨
    ∃ name ∈ ["NaN", "Infinity", "-Infinity"], ∃ tail, rest cps i = codes name ++ tail ∧
      Yields (parseConstant cfg name) s v t ∧ e = i + (codes name).length := by
  constructor
  · intro h
    unfold scanOther at h
    rcases hm : matchNumber cps i with _ | ⟨j, f⟩
    · rw [hm] at h
      dsimp only at h
      right
      by_cases hnan : matchesKw cps i (codes "NaN") = true
      · rw [if_pos hnan, yields_constant] at h
        obtain ⟨tail, hrest⟩ := (matchesKw_rest (by decide)).mp hnan
        exact ⟨"NaN", by simp, tail, hrest, h⟩
      rw [if_neg hnan] at h
      by_cases hinf : matchesKw cps i (codes "Infinity") = true
      · rw [if_pos hinf, yields_constant] at h
        obtain ⟨tail, hrest⟩ := (matchesKw_rest (by decide)).mp hinf
        exact ⟨"Infinity", by simp, tail, hrest, h⟩
      rw [if_neg hinf] at h
      by_cases hminus : matchesKw cps i (codes "-Infinity") = true
      · rw [if_pos hminus, yields_constant] at h
        obtain ⟨tail, hrest⟩ := (matchesKw_rest (by decide)).mp hminus
        exact ⟨"-Infinity", by simp, tail, hrest, h⟩
      rw [if_neg hminus] at h
      exact (not_yields_throw _ h).elim
    · rw [hm] at h
      dsimp only at h
      obtain ⟨text, tail, hrest, hn, hends, rfl⟩ := matchNumber_iff.mp hm
      rw [yields_scanNumber hrest] at h
      exact .inl ⟨text, f, tail, hrest, hn, hends, h⟩
  · rintro (⟨text, f, tail, hrest, hn, hends, h⟩ | ⟨name, hname, tail, hrest, h⟩)
    · have hm : matchNumber cps i = some (i + text.length, f) :=
        matchNumber_iff.mpr ⟨text, tail, hrest, hn, hends, rfl⟩
      unfold scanOther
      rw [hm]
      exact (yields_scanNumber hrest).mpr h
    · have hnone : matchNumber cps i = none := by
        apply not_matchNumber
        intro d m hd
        simp only [List.mem_cons, List.not_mem_nil, or_false] at hname
        rcases hname with rfl | rfl | rfl
        · rw [hrest, codes_nan]
          refine ⟨fun heq => ?_, fun heq => ?_⟩
          · rw [← (List.cons.inj heq).1] at hd
            cases hd
          · cases (List.cons.inj heq).1
        · rw [hrest, codes_infinity]
          refine ⟨fun heq => ?_, fun heq => ?_⟩
          · rw [← (List.cons.inj heq).1] at hd
            cases hd
          · cases (List.cons.inj heq).1
        · rw [hrest, codes_minus_infinity]
          refine ⟨fun heq => ?_, fun heq => ?_⟩
          · rw [← (List.cons.inj heq).1] at hd
            cases hd
          · rw [← (List.cons.inj (List.cons.inj heq).2).1] at hd
            cases hd
      unfold scanOther
      rw [hnone]
      dsimp only
      have hkw : matchesKw cps i (codes name) = true := by
        refine (matchesKw_rest ?_).mpr ⟨tail, hrest⟩
        intro hnil
        simp only [List.mem_cons, List.not_mem_nil, or_false] at hname
        rcases hname with rfl | rfl | rfl
        · rw [codes_nan] at hnil
          cases hnil
        · rw [codes_infinity] at hnil
          cases hnil
        · rw [codes_minus_infinity] at hnil
          cases hnil
      simp only [List.mem_cons, List.not_mem_nil, or_false] at hname
      rcases hname with rfl | rfl | rfl
      · rw [if_pos hkw]
        exact yields_constant.mpr h
      · have hrest' := hrest
        rw [codes_infinity, List.cons_append] at hrest'
        rw [if_neg (by rw [codes_nan, matchesKw_of_head (by decide) hrest']; decide), if_pos hkw]
        exact yields_constant.mpr h
      · have hrest' := hrest
        rw [codes_minus_infinity, List.cons_append] at hrest'
        rw [if_neg (by rw [codes_nan, matchesKw_of_head (by decide) hrest']; decide),
          if_neg (by rw [codes_infinity, matchesKw_of_head (by decide) hrest']; decide), if_pos hkw]
        exact yields_constant.mpr h

/-- `parse_object` and `parse_array` read the containers that begin with `c`. -/
def ReadsAfter (cps : List UInt32) (C : List ℕ → Scan σ ε (Obj ω) → Prop) (c : ℕ)
    (parse : ℕ → Scan σ ε (Obj ω × ℕ)) : Prop :=
  ∀ i s v e t, Yields (parse i) s (v, e) t ↔ ∃ l x tail, rest cps i = l ++ tail ∧ C (c :: l) x ∧
    Yields x s v t ∧ e = i + l.length

theorem yields_value {n : ℕ} {u : Obj ω} : Yields (pure (u, i + n) : Scan σ ε (Obj ω × ℕ)) s (v, e) t ↔
    Yields (pure u : Scan σ ε (Obj ω)) s v t ∧ e = i + n := by
  rw [yields_pure, yields_pure, Prod.mk.injEq]
  constructor
  · rintro ⟨⟨rfl, rfl⟩, rfl⟩
    exact ⟨⟨rfl, rfl⟩, rfl⟩
  · rintro ⟨⟨rfl, rfl⟩, rfl⟩
    exact ⟨⟨rfl, rfl⟩, rfl⟩

theorem codes_null : codes "null" = [0x6e, 0x75, 0x6c, 0x6c] := by decide

theorem codes_true : codes "true" = [0x74, 0x72, 0x75, 0x65] := by decide

theorem codes_false : codes "false" = [0x66, 0x61, 0x6c, 0x73, 0x65] := by decide

theorem scanValue_brace (h : peek cps i = some 0x7b) : scanValue cfg cps object array i = object (i + 1) := by
  rw [scanValue, h]
  dsimp only
  rw [if_neg (by decide), if_pos rfl]

theorem scanValue_bracket (h : peek cps i = some 0x5b) : scanValue cfg cps object array i = array (i + 1) := by
  rw [scanValue, h]
  dsimp only
  rw [if_neg (by decide), if_neg (by decide), if_pos rfl]

theorem yields_scanValue_quote (h : peek cps i = some 0x22) : Yields (scanValue cfg cps object array i) s (v, e) t ↔
    t = s ∧ ∃ w n, Closes cfg.strict (rest cps (i + 1)) w n ∧ v = .str w ∧ e = i + 1 + n := by
  rw [scanValue, h]
  dsimp only
  rw [if_pos rfl, yields_bind]
  constructor
  · rintro ⟨⟨w, j⟩, t', hw, h⟩
    obtain ⟨rfl, n, hn, rfl⟩ := yields_scanString.mp hw
    obtain ⟨hve, rfl⟩ := yields_pure.mp h
    obtain ⟨rfl, rfl⟩ := Prod.mk.inj hve
    exact ⟨rfl, w, n, hn, rfl, rfl⟩
  · rintro ⟨rfl, w, n, hn, rfl, rfl⟩
    exact ⟨(w, i + 1 + n), t, yields_scanString.mpr ⟨rfl, n, hn, rfl⟩, yields_pure.mpr ⟨rfl, rfl⟩⟩

theorem yields_scanValue_null (h : rest cps i = codes "null" ++ tail) :
    Yields (scanValue cfg cps object array i) s (v, e) t ↔
      Yields (pure .none : Scan σ ε (Obj ω)) s v t ∧ e = i + (codes "null").length := by
  have hkw := (matchesKw_rest (by decide)).mpr ⟨tail, h⟩
  rw [codes_null] at h
  rw [scanValue, show peek cps i = some 0x6e from peek_eq h]
  dsimp only
  rw [if_neg (by decide), if_neg (by decide), if_neg (by decide), if_pos ⟨rfl, hkw⟩, codes_null]
  exact yields_value

theorem yields_scanValue_true (h : rest cps i = codes "true" ++ tail) :
    Yields (scanValue cfg cps object array i) s (v, e) t ↔
      Yields (pure (.bool true) : Scan σ ε (Obj ω)) s v t ∧ e = i + (codes "true").length := by
  have hkw := (matchesKw_rest (by decide)).mpr ⟨tail, h⟩
  rw [codes_true] at h
  rw [scanValue, show peek cps i = some 0x74 from peek_eq h]
  dsimp only
  rw [if_neg (by decide), if_neg (by decide), if_neg (by decide), if_neg fun hc => absurd hc.1 (by decide),
    if_pos ⟨rfl, hkw⟩, codes_true]
  exact yields_value

theorem yields_scanValue_false (h : rest cps i = codes "false" ++ tail) :
    Yields (scanValue cfg cps object array i) s (v, e) t ↔
      Yields (pure (.bool false) : Scan σ ε (Obj ω)) s v t ∧ e = i + (codes "false").length := by
  have hkw := (matchesKw_rest (by decide)).mpr ⟨tail, h⟩
  rw [codes_false] at h
  rw [scanValue, show peek cps i = some 0x66 from peek_eq h]
  dsimp only
  rw [if_neg (by decide), if_neg (by decide), if_neg (by decide), if_neg fun hc => absurd hc.1 (by decide),
    if_neg fun hc => absurd hc.1 (by decide), if_pos ⟨rfl, hkw⟩, codes_false]
  exact yields_value

/-- A keyword that is not complete goes to `scan_other` too. -/
theorem scanValue_other (h : peek cps i = some c) (hquote : c ≠ 0x22) (hbrace : c ≠ 0x7b) (hbracket : c ≠ 0x5b)
    (hnull : ¬ ∃ tail, rest cps i = codes "null" ++ tail) (htrue : ¬ ∃ tail, rest cps i = codes "true" ++ tail)
    (hfalse : ¬ ∃ tail, rest cps i = codes "false" ++ tail) :
    scanValue cfg cps object array i = scanOther cfg cps i := by
  rw [← matchesKw_rest (by decide)] at hnull htrue hfalse
  rw [scanValue, h]
  dsimp only
  rw [if_neg hquote, if_neg hbrace, if_neg hbracket, if_neg fun hc => hnull hc.2, if_neg fun hc => htrue hc.2,
    if_neg fun hc => hfalse hc.2]

/-- What `scan_other` reads begins with a character that `scan_once` does not look for. -/
theorem yields_scanValue_other (h : (∃ text f tail, rest cps i = text ++ tail ∧ Numeral text f ∧ Ends text tail ∧
      Yields (numeral cfg (chars text) f) s v t ∧ e = i + text.length) ∨
    ∃ name ∈ ["NaN", "Infinity", "-Infinity"], ∃ tail, rest cps i = codes name ++ tail ∧
      Yields (parseConstant cfg name) s v t ∧ e = i + (codes name).length) :
    Yields (scanValue cfg cps object array i) s (v, e) t := by
  obtain ⟨c, l, hr, hhead⟩ : ∃ c l, rest cps i = c :: l ∧ (isDigit c = true ∨ c = 0x2d ∨ c = 0x4e ∨ c = 0x49) := by
    rcases h with ⟨text, f, tail, hrest, hn, -⟩ | ⟨name, hname, tail, hrest, -⟩
    · obtain ⟨d, m, hd, rfl | rfl⟩ := hn.head
      · exact ⟨d, _, hrest, .inl hd⟩
      · exact ⟨_, _, hrest, .inr (.inl rfl)⟩
    · simp only [List.mem_cons, List.not_mem_nil, or_false] at hname
      rcases hname with rfl | rfl | rfl
      · exact ⟨_, _, hrest, .inr (.inr (.inl rfl))⟩
      · exact ⟨_, _, hrest, .inr (.inr (.inr rfl))⟩
      · exact ⟨_, _, hrest, .inr (.inl rfl)⟩
  simp only [isDigit, Bool.and_eq_true, decide_eq_true_eq] at hhead
  have hkw {d : ℕ} {kw : List ℕ} (hd : d = 0x6e ∨ d = 0x74 ∨ d = 0x66) : ¬ ∃ tail, rest cps i = d :: kw ++ tail := by
    rintro ⟨tail, hrest⟩
    obtain ⟨rfl, -⟩ := List.cons.inj (hr.symm.trans hrest)
    omega
  rw [scanValue_other (peek_eq hr) (by omega) (by omega) (by omega)
    (by rw [codes_null]; exact hkw (.inl rfl)) (by rw [codes_true]; exact hkw (.inr (.inl rfl)))
    (by rw [codes_false]; exact hkw (.inr (.inr rfl)))]
  exact yields_scanOther.mpr h

theorem scanValue_sound (hobject : ReadsAfter cps C 0x7b object) (harray : ReadsAfter cps C 0x5b array)
    (h : Yields (scanValue cfg cps object array i) s (v, e) t) :
    ∃ text x tail, rest cps i = text ++ tail ∧ (Scalar cfg text x ∨ C text x) ∧ Ends text tail ∧ Yields x s v t ∧
      e = i + text.length := by
  rcases hpeek : peek cps i with _ | c
  · rw [scanValue, hpeek] at h
    exact (not_yields_throw _ h).elim
  have hr := rest_of_peek hpeek
  by_cases hquote : c = 0x22
  · subst hquote
    obtain ⟨rfl, w, n, ⟨body, tail, hrest, hchars, rfl⟩, rfl, rfl⟩ := (yields_scanValue_quote hpeek).mp h
    refine ⟨0x22 :: (body ++ [0x22]), _, tail, ?_, .inl (.string hchars), ?_, yields_pure.mpr ⟨rfl, rfl⟩, ?_⟩
    · rw [hr, hrest]
      simp
    · exact ends_of_mem (List.mem_cons_self ..) (by decide)
    · simp only [List.length_cons, List.length_append, List.length_nil]
      omega
  by_cases hbrace : c = 0x7b
  · subst hbrace
    rw [scanValue_brace hpeek, hobject] at h
    obtain ⟨m, x, tail, hrest, hx, hrun, rfl⟩ := h
    rw [hrest] at hr
    refine ⟨0x7b :: m, x, tail, hr, .inr hx, ends_of_mem (List.mem_cons_self ..) (by decide), hrun, ?_⟩
    rw [List.length_cons]
    omega
  by_cases hbracket : c = 0x5b
  · subst hbracket
    rw [scanValue_bracket hpeek, harray] at h
    obtain ⟨m, x, tail, hrest, hx, hrun, rfl⟩ := h
    rw [hrest] at hr
    refine ⟨0x5b :: m, x, tail, hr, .inr hx, ends_of_mem (List.mem_cons_self ..) (by decide), hrun, ?_⟩
    rw [List.length_cons]
    omega
  by_cases hnull : ∃ tail, rest cps i = codes "null" ++ tail
  · obtain ⟨tail, hrest⟩ := hnull
    exact ⟨_, _, tail, hrest, .inl .null, ends_of_mem (c := 0x6e) (by rw [codes_null]; simp) (by decide),
      (yields_scanValue_null hrest).mp h⟩
  by_cases htrue : ∃ tail, rest cps i = codes "true" ++ tail
  · obtain ⟨tail, hrest⟩ := htrue
    exact ⟨_, _, tail, hrest, .inl .true, ends_of_mem (c := 0x74) (by rw [codes_true]; simp) (by decide),
      (yields_scanValue_true hrest).mp h⟩
  by_cases hfalse : ∃ tail, rest cps i = codes "false" ++ tail
  · obtain ⟨tail, hrest⟩ := hfalse
    exact ⟨_, _, tail, hrest, .inl .false, ends_of_mem (c := 0x66) (by rw [codes_false]; simp) (by decide),
      (yields_scanValue_false hrest).mp h⟩
  rw [scanValue_other hpeek hquote hbrace hbracket hnull htrue hfalse, yields_scanOther] at h
  rcases h with ⟨text, f, tail, hrest, hn, hends, h⟩ | ⟨name, hname, tail, hrest, h⟩
  · exact ⟨text, _, tail, hrest, .inl (.numeral hn), hends, h⟩
  · refine ⟨codes name, _, tail, hrest, .inl (.constant hname), ?_, h⟩
    simp only [List.mem_cons, List.not_mem_nil, or_false] at hname
    rcases hname with rfl | rfl | rfl
    · exact ends_of_mem (c := 0x4e) (by rw [codes_nan]; simp) (by decide)
    · exact ends_of_mem (c := 0x49) (by rw [codes_infinity]; simp) (by decide)
    · exact ends_of_mem (c := 0x49) (by rw [codes_minus_infinity]; simp) (by decide)

theorem scanValue_complete (hobject : ReadsAfter cps C 0x7b object) (harray : ReadsAfter cps C 0x5b array)
    (hC : ∀ l x, C l x → ∃ m, l = 0x7b :: m ∨ l = 0x5b :: m) (hrest : rest cps i = text ++ tail)
    (hV : Scalar cfg text x ∨ C text x) (hends : Ends text tail) (hrun : Yields x s v t) :
    Yields (scanValue cfg cps object array i) s (v, i + text.length) t := by
  rcases hV with hV | hV
  · cases hV with
    | null => exact (yields_scanValue_null hrest).mpr ⟨hrun, rfl⟩
    | true => exact (yields_scanValue_true hrest).mpr ⟨hrun, rfl⟩
    | false => exact (yields_scanValue_false hrest).mpr ⟨hrun, rfl⟩
    | constant hname => exact yields_scanValue_other (.inr ⟨_, hname, tail, hrest, hrun, rfl⟩)
    | numeral hn => exact yields_scanValue_other (.inl ⟨_, _, tail, hrest, hn, hends, hrun, rfl⟩)
    | @string body w hchars =>
      obtain ⟨rfl, rfl⟩ := yields_pure.mp hrun
      have hnext : rest cps (i + 1) = body ++ 0x22 :: tail := by
        rw [List.cons_append, List.append_assoc] at hrest
        exact rest_next hrest
      refine (yields_scanValue_quote (peek_eq hrest)).mpr ⟨rfl, w, body.length + 1, ?_, rfl, ?_⟩
      · exact ⟨body, tail, hnext, hchars, rfl⟩
      · simp only [List.length_cons, List.length_append, List.length_nil]
        omega
  · obtain ⟨m, rfl | rfl⟩ := hC _ _ hV
    · rw [scanValue_brace (peek_eq hrest), hobject]
      refine ⟨m, x, tail, rest_next hrest, hV, hrun, ?_⟩
      rw [List.length_cons]
      omega
    · rw [scanValue_bracket (peek_eq hrest), harray]
      refine ⟨m, x, tail, rest_next hrest, hV, hrun, ?_⟩
      rw [List.length_cons]
      omega

theorem reads_scanValue (hobject : ReadsAfter cps C 0x7b object) (harray : ReadsAfter cps C 0x5b array)
    (hC : ∀ l x, C l x → ∃ m, l = 0x7b :: m ∨ l = 0x5b :: m) :
    Reads cps (fun l x => Scalar cfg l x ∨ C l x) (scanValue cfg cps object array) := by
  intro i s v e t
  constructor
  · exact scanValue_sound hobject harray
  · rintro ⟨text, x, tail, hrest, hV, hends, hrun, rfl⟩
    exact scanValue_complete hobject harray hC hrest hV hends hrun

theorem yields_expectValue {α : Type} {x : Scan σ ε α} {a : α} :
    Yields (expectValue cps x) s a t ↔ Yields x s a t := by
  rw [expectValue]
  apply yields_catch
  intro e s a t
  cases e with
  | noValue i => exact not_yields_decodeError _ _
  | decode msg pos => exact not_yields_throw _
  | recursion => exact not_yields_throw _
  | other e => exact not_yields_throw _

theorem trimmed_cons (h : isWs c = false) : Trimmed (c :: l) := by
  rintro d hd
  cases hd
  exact h

theorem Items.begins (hV : Begins V) {xs : Scan σ ε (List (Obj ω))} (h : Items V l xs) :
    ∃ c m, l = c :: m ∧ isWs c = false ∧ c ≠ 0x5d := by
  cases h with
  | last hx hw =>
    obtain ⟨c, m, rfl, hc⟩ := hV _ _ hx
    exact ⟨c, _, rfl, hc⟩
  | more hx hw hw' hxs =>
    obtain ⟨c, m, rfl, hc⟩ := hV _ _ hx
    exact ⟨c, _, rfl, hc⟩

/-- By induction on the fuel, which covers the text that is left. -/
theorem arrayLoop_sound (hscan : Reads cps V scan) (hV : Begins V) (hfuel : (rest cps i).length < fuel)
    (h : Yields (arrayLoop cps scan fuel i values) s (v, e) t) : ∃ l xs tail vs, rest cps i = l ++ 0x5d :: tail ∧
      Items V l xs ∧ Yields xs s vs t ∧ v = .list (values ++ vs) ∧ e = i + l.length + 1 := by
  induction fuel generalizing i s values with
  | zero => omega
  | succ fuel ih =>
    rw [arrayLoop, yields_bind] at h
    simp only [yields_expectValue, skipDelim_eq, skipBlank_eq] at h
    obtain ⟨⟨value, j⟩, s', hvalue, h⟩ := h
    obtain ⟨text, x, tail, hrest, hx, hends, hrun, rfl⟩ := (hscan ..).mp hvalue
    obtain ⟨w, hw, hblank, hj⟩ := exists_blank cps (i + text.length)
    rw [rest_skip hrest] at hblank
    dsimp only at h
    generalize skipWs cps (i + text.length) = j at h hblank hj
    by_cases hclose : peek cps j = some 0x5d
    · rw [if_pos hclose] at h
      obtain ⟨hve, rfl⟩ := yields_pure.mp h
      obtain ⟨rfl, rfl⟩ := Prod.mk.inj hve
      refine ⟨text ++ w, _, rest cps (j + 1), [value], ?_, .last hx hw, ?_, rfl, ?_⟩
      · rw [hrest, hblank, rest_of_peek hclose, List.append_assoc]
      · exact yields_bind.mpr ⟨value, t, hrun, yields_pure.mpr ⟨rfl, rfl⟩⟩
      · rw [hj, List.length_append]
        omega
    rw [if_neg hclose] at h
    by_cases hcomma : peek cps j = some 0x2c
    · rw [if_pos hcomma] at h
      obtain ⟨w', hw', hblank', hk⟩ := exists_blank cps (j + 1)
      generalize skipWs cps (j + 1) = k at h hblank' hk
      by_cases hend : peek cps k = some 0x5d
      · rw [if_pos hend] at h
        exact (not_yields_decodeError _ _ h).elim
      rw [if_neg hend] at h
      have hlen : (rest cps k).length < fuel := by
        obtain ⟨c, m, rfl, -⟩ := hV _ _ hx
        simp only [rest_length] at hfuel ⊢
        have hpos : i < cps.length := by
          have hlen := congrArg List.length hrest
          rw [rest_length, List.cons_append, List.length_cons] at hlen
          omega
        rw [List.length_cons] at hj
        omega
      obtain ⟨l, xs, tail', vs, hl, hxs, hrun', rfl, rfl⟩ := ih hlen h
      refine ⟨text ++ (w ++ 0x2c :: (w' ++ l)), _, tail', value :: vs, ?_, .more hx hw hw' hxs, ?_, ?_, ?_⟩
      · rw [hrest, hblank, rest_of_peek hcomma, hblank', hl]
        simp only [List.append_assoc, List.cons_append]
      · exact yields_bind.mpr ⟨value, s', hrun, yields_bind.mpr ⟨vs, t, hrun', yields_pure.mpr ⟨rfl, rfl⟩⟩⟩
      · rw [List.append_assoc]
        rfl
      · simp only [List.length_append, List.length_cons]
        omega
    · rw [if_neg hcomma] at h
      exact (not_yields_decodeError _ _ h).elim

theorem arrayLoop_complete (hscan : Reads cps V scan) (hV : Begins V) (hfuel : (rest cps i).length < fuel)
    {xs : Scan σ ε (List (Obj ω))} {vs : List (Obj ω)} (hrest : rest cps i = l ++ 0x5d :: tail) (hxs : Items V l xs)
    (hrun : Yields xs s vs t) :
    Yields (arrayLoop cps scan fuel i values) s (.list (values ++ vs), i + l.length + 1) t := by
  induction fuel generalizing i s values l xs vs with
  | zero => omega
  | succ fuel ih =>
    rw [arrayLoop, yields_bind]
    simp only [yields_expectValue, skipDelim_eq, skipBlank_eq]
    cases hxs with
    | @last text w x hx hw =>
      obtain ⟨value, s', hvalue, h⟩ := yields_bind.mp hrun
      obtain ⟨rfl, rfl⟩ := yields_pure.mp h
      rw [List.append_assoc] at hrest
      refine ⟨(value, i + text.length), t,
        (hscan ..).mpr ⟨text, x, _, hrest, hx, ends_blank hw (by decide), hvalue, rfl⟩, ?_⟩
      have hj := skipWs_blank (rest_skip hrest) hw (trimmed_cons (by decide))
      have hclose : rest cps (i + text.length + w.length) = 0x5d :: tail := rest_skip (rest_skip hrest)
      dsimp only
      rw [hj, if_pos (show peek cps _ = some 0x5d from peek_eq hclose)]
      refine yields_pure.mpr ⟨?_, rfl⟩
      rw [List.length_append, ← Nat.add_assoc]
    | @more text w w' m x xs hx hw hw' hxs =>
      obtain ⟨value, s', hvalue, h⟩ := yields_bind.mp hrun
      obtain ⟨vs', s'', hvs, h⟩ := yields_bind.mp h
      obtain ⟨rfl, rfl⟩ := yields_pure.mp h
      simp only [List.append_assoc, List.cons_append] at hrest
      refine ⟨(value, i + text.length), s',
        (hscan ..).mpr ⟨text, x, _, hrest, hx, ends_blank hw (by decide), hvalue, rfl⟩, ?_⟩
      have hj := skipWs_blank (rest_skip hrest) hw (trimmed_cons (by decide))
      have hcomma : rest cps (i + text.length + w.length) = 0x2c :: (w' ++ (m ++ 0x5d :: tail)) :=
        rest_skip (rest_skip hrest)
      obtain ⟨c, m', hm, hc, hne⟩ := hxs.begins hV
      have hk := skipWs_blank (rest_next hcomma) hw' (by rw [hm]; exact trimmed_cons hc)
      have hnext : rest cps (i + text.length + w.length + 1 + w'.length) = m ++ 0x5d :: tail :=
        rest_skip (rest_next hcomma)
      have hhead : peek cps (i + text.length + w.length + 1 + w'.length) ≠ some 0x5d := by
        rw [peek_eq hnext, hm]
        exact fun heq => hne (Option.some.inj heq)
      have hlen : (rest cps (i + text.length + w.length + 1 + w'.length)).length < fuel := by
        have hsum := congrArg List.length hrest
        rw [hnext]
        simp only [List.length_append, List.length_cons] at hsum ⊢
        omega
      dsimp only
      rw [hj, if_neg (by rw [peek_eq hcomma]; simp), if_pos (show peek cps _ = some 0x2c from peek_eq hcomma), hk,
        if_neg hhead]
      have hvalues : values ++ value :: vs' = values ++ [value] ++ vs' := by
        rw [List.append_assoc]
        rfl
      have hend : i + (text ++ (w ++ 0x2c :: (w' ++ m))).length + 1 =
          i + text.length + w.length + 1 + w'.length + m.length + 1 := by
        simp only [List.length_append, List.length_cons]
        omega
      rw [hvalues, hend]
      exact ih hlen hnext hxs hvs

theorem rest_length_lt (cps : List UInt32) (i : ℕ) : (rest cps i).length < cps.length + 1 := by
  rw [rest_length]
  omega

theorem yields_parseArray (hscan : Reads cps V scan) (hV : Begins V) :
    ReadsAfter cps (Container cfg V) 0x5b (parseArray cps scan) := by
  intro i s v e t
  rw [parseArray, skipDelim_eq]
  obtain ⟨w, hw, hblank, hj⟩ := exists_blank cps i
  constructor
  · intro h
    generalize skipWs cps i = j at h hblank hj
    by_cases hclose : peek cps j = some 0x5d
    · rw [if_pos hclose] at h
      obtain ⟨hve, rfl⟩ := yields_pure.mp h
      obtain ⟨rfl, rfl⟩ := Prod.mk.inj hve
      refine ⟨w ++ [0x5d], _, rest cps (j + 1), ?_, .emptyArray hw, yields_pure.mpr ⟨rfl, rfl⟩, ?_⟩
      · rw [hblank, rest_of_peek hclose, List.append_assoc]
        rfl
      · rw [hj, List.length_append]
        rfl
    · rw [if_neg hclose] at h
      obtain ⟨l, xs, tail, vs, hrest, hxs, hrun, rfl, rfl⟩ := arrayLoop_sound hscan hV (rest_length_lt cps j) h
      refine ⟨w ++ (l ++ [0x5d]), _, tail, ?_, .array hw hxs, ?_, ?_⟩
      · rw [hblank, hrest]
        simp only [List.append_assoc, List.singleton_append]
      · exact yields_bind.mpr ⟨vs, t, hrun, yields_pure.mpr ⟨rfl, rfl⟩⟩
      · simp only [List.length_append, List.length_cons, List.length_nil]
        omega
  · rintro ⟨l, x, tail, hrest, hx, hrun, rfl⟩
    cases hx with
    | @emptyArray w' hw' =>
      obtain ⟨rfl, rfl⟩ := yields_pure.mp hrun
      rw [List.append_assoc] at hrest
      have hskip := skipWs_blank hrest hw' (trimmed_cons (by decide))
      have hclose : rest cps (i + w'.length) = 0x5d :: tail := rest_skip hrest
      rw [hskip, if_pos (show peek cps _ = some 0x5d from peek_eq hclose)]
      refine yields_pure.mpr ⟨?_, rfl⟩
      rw [List.length_append]
      rfl
    | @array w' l xs hw' hxs =>
      obtain ⟨vs, t', hvs, h⟩ := yields_bind.mp hrun
      obtain ⟨rfl, rfl⟩ := yields_pure.mp h
      simp only [List.append_assoc, List.singleton_append] at hrest
      obtain ⟨c, m, hm, hc, hne⟩ := hxs.begins hV
      have hskip := skipWs_blank hrest hw' (by rw [hm]; exact trimmed_cons hc)
      have hopen : rest cps (i + w'.length) = l ++ 0x5d :: tail := rest_skip hrest
      have hhead : peek cps (i + w'.length) ≠ some 0x5d := by
        rw [peek_eq hopen, hm]
        exact fun heq => hne (Option.some.inj heq)
      have hend : i + (w' ++ (l ++ [0x5d])).length = i + w'.length + l.length + 1 := by
        simp only [List.length_append, List.length_cons, List.length_nil]
        omega
      rw [hskip, if_neg hhead, hend]
      exact arrayLoop_complete hscan hV (rest_length_lt cps _) hopen hxs hvs

theorem skip_colon (cps : List UInt32) (i : ℕ) :
    (if peek cps i = some 0x3a then i else skipWs cps i) = skipWs cps i := by
  split
  · rename_i h
    exact (skipWhile_of_not (by rw [h]; decide)).symm
  · rfl

theorem skip_quote (cps : List UInt32) (i : ℕ) :
    (if peek cps i ≠ some 0x22 ∧ (peek cps i).any isWs = true then skipWs cps i else i) = skipWs cps i := by
  split
  · rfl
  · rename_i h
    refine (skipWhile_of_not ?_).symm
    by_cases hq : peek cps i = some 0x22
    · rw [hq]
      decide
    · exact Bool.eq_false_iff.mpr fun hws => h ⟨hq, hws⟩

theorem Members.begins {f : DecodedObject ω → Scan σ ε (DecodedObject ω)} (h : Members cfg V l f) :
    ∃ m, l = 0x22 :: m := by
  cases h with
  | last => exact ⟨_, rfl⟩
  | more => exact ⟨_, rfl⟩

/-- Where the parts of one member lie in the text that follows its opening quote. -/
theorem member_places {body w₁ w₂ text w₃ after : List ℕ} {i : ℕ}
    (h : rest cps i = body ++ 0x22 :: (w₁ ++ 0x3a :: (w₂ ++ (text ++ (w₃ ++ after))))) :
    rest cps (i + (body.length + 1)) = w₁ ++ 0x3a :: (w₂ ++ (text ++ (w₃ ++ after))) ∧
      rest cps (i + (body.length + 1) + w₁.length) = 0x3a :: (w₂ ++ (text ++ (w₃ ++ after))) ∧
      rest cps (i + (body.length + 1) + w₁.length + 1) = w₂ ++ (text ++ (w₃ ++ after)) ∧
      rest cps (i + (body.length + 1) + w₁.length + 1 + w₂.length) = text ++ (w₃ ++ after) ∧
      rest cps (i + (body.length + 1) + w₁.length + 1 + w₂.length + text.length) = w₃ ++ after ∧
      rest cps (i + (body.length + 1) + w₁.length + 1 + w₂.length + text.length + w₃.length) = after := by
  have hkey : rest cps (i + (body.length + 1)) = w₁ ++ 0x3a :: (w₂ ++ (text ++ (w₃ ++ after))) := by
    rw [← Nat.add_assoc]
    exact rest_next (rest_skip h)
  have hcolon := rest_skip hkey
  have hblank := rest_next hcolon
  have hvalue := rest_skip hblank
  have hend := rest_skip hvalue
  exact ⟨hkey, hcolon, hblank, hvalue, hend, rest_skip hend⟩

/-- By induction on the fuel, which covers the text that is left; the text of the members begins before `i`. -/
theorem objectLoop_sound {fields : DecodedObject ω} (hscan : Reads cps V scan) (hfuel : (rest cps i).length < fuel)
    (h : Yields (objectLoop cfg cps scan fuel i fields) s (v, e) t) :
    ∃ l f tail o u, 0x22 :: rest cps i = l ++ 0x7d :: tail ∧ Members cfg V l f ∧ Yields (f fields) s o u ∧
      Yields (finishObject cfg o) u v t ∧ e = i + l.length := by
  induction fuel generalizing i s fields with
  | zero => omega
  | succ fuel ih =>
    rw [objectLoop, yields_bind] at h
    simp only [skipDelim_eq, skipBlank_eq, skip_colon] at h
    obtain ⟨⟨key, j⟩, s', hkey, h⟩ := h
    obtain ⟨rfl, n, ⟨body, tail, hrest, hchars, rfl⟩, rfl⟩ := yields_scanString.mp hkey
    have hafter : rest cps (i + (body.length + 1)) = tail := by
      have hskip := rest_skip hrest
      rw [← Nat.add_assoc]
      exact rest_next hskip
    obtain ⟨w₁, hw₁, hblank₁, hj₁⟩ := exists_blank cps (i + (body.length + 1))
    rw [hafter] at hblank₁
    dsimp only at h
    generalize skipWs cps (i + (body.length + 1)) = j₁ at h hblank₁ hj₁
    by_cases hcolon : peek cps j₁ = some 0x3a
    swap
    · rw [if_pos hcolon] at h
      exact (not_yields_decodeError _ _ h).elim
    rw [if_neg (not_not.mpr hcolon)] at h
    simp only [yields_bind, yields_expectValue] at h
    obtain ⟨w₂, hw₂, hblank₂, hj₂⟩ := exists_blank cps (j₁ + 1)
    generalize skipWs cps (j₁ + 1) = j₂ at h hblank₂ hj₂
    obtain ⟨⟨value, j₃⟩, u₁, hvalue, fields', u₂, hinsert, h⟩ := h
    obtain ⟨text, x, tail₃, hrest₃, hx, hends, hrun, rfl⟩ := (hscan ..).mp hvalue
    obtain ⟨w₃, hw₃, hblank₃, hj₃⟩ := exists_blank cps (j₂ + text.length)
    rw [rest_skip hrest₃] at hblank₃
    dsimp only at h hinsert
    generalize skipWs cps (j₂ + text.length) = j₃ at h hblank₃ hj₃
    have htext : 0x22 :: rest cps i =
        0x22 :: (body ++ 0x22 :: (w₁ ++ 0x3a :: (w₂ ++ (text ++ (w₃ ++ rest cps j₃))))) := by
      rw [hrest, hblank₁, rest_of_peek hcolon, hblank₂, hrest₃, hblank₃]
    by_cases hclose : peek cps j₃ = some 0x7d
    · rw [if_pos hclose] at h
      obtain ⟨result, u₃, hfinish, h⟩ := yields_bind.mp h
      obtain ⟨hve, rfl⟩ := yields_pure.mp h
      obtain ⟨rfl, rfl⟩ := Prod.mk.inj hve
      refine ⟨_, _, rest cps (j₃ + 1), fields', u₂, ?_, .last hchars hw₁ hw₂ hx hw₃, ?_, hfinish, ?_⟩
      · rw [htext, rest_of_peek hclose]
        simp only [List.append_assoc, List.cons_append]
      · exact yields_bind.mpr ⟨value, u₁, hrun, hinsert⟩
      · simp only [List.length_append, List.length_cons]
        omega
    rw [if_neg hclose] at h
    by_cases hcomma : peek cps j₃ = some 0x2c
    swap
    · rw [if_neg hcomma] at h
      exact (not_yields_decodeError _ _ h).elim
    rw [if_pos hcomma] at h
    obtain ⟨w₄, hw₄, hblank₄, hj₄⟩ := exists_blank cps (j₃ + 1)
    generalize skipWs cps (j₃ + 1) = j₄ at h hblank₄ hj₄
    by_cases hquote : peek cps j₄ = some 0x22
    swap
    · rw [if_neg hquote] at h
      by_cases hbrace : peek cps j₄ = some 0x7d
      · rw [if_pos hbrace] at h
        exact (not_yields_decodeError _ _ h).elim
      · rw [if_neg hbrace] at h
        exact (not_yields_decodeError _ _ h).elim
    rw [if_pos hquote] at h
    have hlen : (rest cps (j₄ + 1)).length < fuel := by
      have hpos := congrArg List.length hrest
      simp only [rest_length, List.length_append, List.length_cons] at hfuel hpos ⊢
      omega
    obtain ⟨l, f, tail', o, u, hl, hf, hrun', hfinish, rfl⟩ := ih hlen h
    refine ⟨_, _, tail', o, u, ?_, .more hchars hw₁ hw₂ hx hw₃ hw₄ hf, ?_, hfinish, ?_⟩
    · rw [htext, rest_of_peek hcomma, hblank₄, rest_of_peek hquote, hl]
      simp only [List.append_assoc, List.cons_append]
    · exact yields_bind.mpr ⟨value, u₁, hrun, yields_bind.mpr ⟨fields', u₂, hinsert, hrun'⟩⟩
    · simp only [List.length_append, List.length_cons]
      omega

theorem objectLoop_complete {fields o : DecodedObject ω} {f : DecodedObject ω → Scan σ ε (DecodedObject ω)} {u : σ}
    (hscan : Reads cps V scan) (hV : Begins V) (hfuel : (rest cps i).length < fuel)
    (hrest : 0x22 :: rest cps i = l ++ 0x7d :: tail) (hf : Members cfg V l f) (hrun : Yields (f fields) s o u)
    (hfinish : Yields (finishObject cfg o) u v t) :
    Yields (objectLoop cfg cps scan fuel i fields) s (v, i + l.length) t := by
  induction fuel generalizing i s l f fields with
  | zero => omega
  | succ fuel ih =>
    rw [objectLoop, yields_bind]
    simp only [skipDelim_eq, skipBlank_eq, skip_colon]
    cases hf with
    | @last body name w₁ w₂ text w₃ x hchars hw₁ hw₂ hx hw₃ =>
      obtain ⟨value, u₁, hvalue, hinsert⟩ := yields_bind.mp hrun
      simp only [List.append_assoc, List.cons_append] at hrest
      obtain ⟨-, hrest⟩ := List.cons.inj hrest
      obtain ⟨hkey, hcolon, hblank, hplace, hend, hclose⟩ := member_places hrest
      obtain ⟨c, r, hr, hc⟩ := hV _ _ hx
      have hj₁ := skipWs_blank hkey hw₁ (trimmed_cons (by decide))
      have hj₂ := skipWs_blank hblank hw₂ (by rw [hr]; exact trimmed_cons hc.1)
      have hj₃ := skipWs_blank hend hw₃ (trimmed_cons (by decide))
      refine ⟨_, s, yields_scanString.mpr ⟨rfl, _, ⟨body, _, hrest, hchars, rfl⟩, rfl⟩, ?_⟩
      dsimp only
      rw [hj₁, if_neg (not_not.mpr (show peek cps _ = some 0x3a from peek_eq hcolon)), hj₂]
      simp only [yields_bind, yields_expectValue]
      refine ⟨_, u₁, (hscan ..).mpr ⟨text, x, _, hplace, hx, ends_blank hw₃ (by decide), hvalue, rfl⟩, _, u,
        hinsert, ?_⟩
      dsimp only
      rw [hj₃, if_pos (show peek cps _ = some 0x7d from peek_eq hclose)]
      refine yields_bind.mpr ⟨v, t, hfinish, yields_pure.mpr ⟨?_, rfl⟩⟩
      simp only [List.length_append, List.length_cons, Prod.mk.injEq, true_and]
      omega
    | @more body name w₁ w₂ text w₃ w₄ m x f hchars hw₁ hw₂ hx hw₃ hw₄ hf =>
      obtain ⟨value, u₁, hvalue, h⟩ := yields_bind.mp hrun
      obtain ⟨fields', u₂, hinsert, hrun'⟩ := yields_bind.mp h
      obtain ⟨m', rfl⟩ := hf.begins
      simp only [List.append_assoc, List.cons_append] at hrest
      obtain ⟨-, hrest⟩ := List.cons.inj hrest
      obtain ⟨hkey, hcolon, hblank, hplace, hend, hcomma⟩ := member_places hrest
      obtain ⟨c, r, hr, hc⟩ := hV _ _ hx
      have hj₁ := skipWs_blank hkey hw₁ (trimmed_cons (by decide))
      have hj₂ := skipWs_blank hblank hw₂ (by rw [hr]; exact trimmed_cons hc.1)
      have hj₃ := skipWs_blank hend hw₃ (trimmed_cons (by decide))
      have hnext := rest_next hcomma
      have hj₄ := skipWs_blank hnext hw₄ (trimmed_cons (by decide))
      have hquote := rest_skip hnext
      have hmembers := rest_next hquote
      have hlen := congrArg List.length hrest
      rw [List.length_append, List.length_cons] at hlen
      refine ⟨_, s, yields_scanString.mpr ⟨rfl, _, ⟨body, _, hrest, hchars, rfl⟩, rfl⟩, ?_⟩
      dsimp only
      rw [hj₁, if_neg (not_not.mpr (show peek cps _ = some 0x3a from peek_eq hcolon)), hj₂]
      simp only [yields_bind, yields_expectValue]
      refine ⟨_, u₁, (hscan ..).mpr ⟨text, x, _, hplace, hx, ends_blank hw₃ (by decide), hvalue, rfl⟩, _, u₂,
        hinsert, ?_⟩
      dsimp only
      rw [hj₃, if_neg (by rw [peek_eq hcomma]; simp), if_pos (show peek cps _ = some 0x2c from peek_eq hcomma),
        hj₄, if_pos (show peek cps _ = some 0x22 from peek_eq hquote)]
      have hend : i + (0x22 :: (body ++ 0x22 :: (w₁ ++ 0x3a :: (w₂ ++ (text ++ (w₃ ++ 0x2c ::
            (w₄ ++ 0x22 :: m'))))))).length =
          i + (body.length + 1) + w₁.length + 1 + w₂.length + text.length + w₃.length + 1 + w₄.length + 1 +
            (0x22 :: m').length := by
        simp only [List.length_append, List.length_cons]
        omega
      rw [hend]
      refine ih ?_ ?_ hf hrun'
      · rw [hmembers]
        simp only [List.length_append, List.length_cons] at hlen ⊢
        omega
      · rw [hmembers]
        rfl

theorem yields_parseObject (hscan : Reads cps V scan) (hV : Begins V) :
    ReadsAfter cps (Container cfg V) 0x7b (parseObject cfg cps scan) := by
  intro i s v e t
  rw [parseObject, skip_quote]
  obtain ⟨w, hw, hblank, hj⟩ := exists_blank cps i
  constructor
  · intro h
    generalize skipWs cps i = j at h hblank hj
    by_cases hquote : peek cps j = some 0x22
    · rw [if_pos hquote] at h
      obtain ⟨l, f, tail, o, u, hrest, hf, hrun, hfinish, he⟩ := objectLoop_sound hscan (rest_length_lt cps (j + 1)) h
      rw [← rest_of_peek hquote] at hrest
      obtain ⟨m, rfl⟩ := hf.begins
      refine ⟨w ++ (0x22 :: m ++ [0x7d]), _, tail, ?_, .object hw hf, ?_, ?_⟩
      · rw [hblank, hrest]
        simp only [List.append_assoc, List.cons_append, List.nil_append]
      · exact yields_bind.mpr ⟨o, u, hrun, hfinish⟩
      · simp only [List.length_append, List.length_cons, List.length_nil] at he ⊢
        omega
    rw [if_neg hquote] at h
    by_cases hclose : peek cps j = some 0x7d
    · rw [if_pos hclose] at h
      obtain ⟨result, u, hfinish, h⟩ := yields_bind.mp h
      obtain ⟨hve, rfl⟩ := yields_pure.mp h
      obtain ⟨rfl, rfl⟩ := Prod.mk.inj hve
      refine ⟨w ++ [0x7d], _, rest cps (j + 1), ?_, .emptyObject hw, hfinish, ?_⟩
      · rw [hblank, rest_of_peek hclose, List.append_assoc]
        rfl
      · rw [hj, List.length_append]
        rfl
    · rw [if_neg hclose] at h
      exact (not_yields_decodeError _ _ h).elim
  · rintro ⟨l, x, tail, hrest, hx, hrun, rfl⟩
    cases hx with
    | @emptyObject w' hw' =>
      rw [List.append_assoc] at hrest
      have hskip := skipWs_blank hrest hw' (trimmed_cons (by decide))
      have hclose : rest cps (i + w'.length) = 0x7d :: tail := rest_skip hrest
      rw [hskip, if_neg (by rw [peek_eq hclose]; simp), if_pos (show peek cps _ = some 0x7d from peek_eq hclose)]
      refine yields_bind.mpr ⟨v, t, hrun, yields_pure.mpr ⟨?_, rfl⟩⟩
      rw [List.length_append]
      rfl
    | @object w' l f hw' hf =>
      obtain ⟨o, u, hfields, hfinish⟩ := yields_bind.mp hrun
      obtain ⟨m, rfl⟩ := hf.begins
      simp only [List.append_assoc, List.cons_append, List.nil_append] at hrest
      have hskip := skipWs_blank hrest hw' (trimmed_cons (by decide))
      have hopen : rest cps (i + w'.length) = 0x22 :: (m ++ 0x7d :: tail) := rest_skip hrest
      have hquote : peek cps (i + w'.length) = some 0x22 := peek_eq hopen
      have hend : i + (w' ++ (0x22 :: m ++ [0x7d])).length = i + w'.length + 1 + (0x22 :: m).length := by
        simp only [List.length_append, List.length_cons, List.length_nil]
        omega
      rw [hskip, if_pos hquote, hend]
      have hmembers : 0x22 :: rest cps (i + w'.length + 1) = 0x22 :: m ++ 0x7d :: tail := by
        rw [← rest_of_peek hquote, hopen]
        rfl
      exact objectLoop_complete hscan hV (rest_length_lt cps _) hmembers hf hfields hfinish

/-- At every depth the scanner reads the values of that depth. -/
theorem scanOnce_reads (cfg : ScannerCfg σ ε ω) (cps : List UInt32) (depth : ℕ) :
    Reads cps (Value cfg depth) (scanOnce cfg cps depth) := by
  induction depth with
  | zero =>
    have hnone (c : ℕ) : ReadsAfter cps (fun (_ : List ℕ) (_ : Scan σ ε (Obj ω)) => False) c
        (fun _ => throw .recursion) := by
      intro i s v e t
      refine iff_of_false (not_yields_throw _) ?_
      rintro ⟨l, x, tail, hrest, hx, -⟩
      exact hx
    have hreads : Reads cps (fun l x => Scalar cfg l x ∨ False) (scanOnce cfg cps 0) :=
      reads_scanValue (hnone 0x7b) (hnone 0x5b) (fun _ _ h => h.elim)
    simp only [or_false] at hreads
    exact hreads
  | succ depth ih =>
    apply reads_scanValue (yields_parseObject ih (opens_value depth)) (yields_parseArray ih (opens_value depth))
    intro l x h
    cases h with
    | emptyArray => exact ⟨_, .inr rfl⟩
    | array => exact ⟨_, .inr rfl⟩
    | emptyObject => exact ⟨_, .inl rfl⟩
    | object => exact ⟨_, .inl rfl⟩

/-- A document is read from an index on exactly where the grammar has a value there, and what is read is what the
text of the value denotes. -/
theorem scan_once_grammar (cfg : ScannerCfg σ ε ω) (cps : List UInt32) (depth idx : ℕ) (s t : σ) (v : Obj ω) (e : ℕ) :
    scanOnce cfg cps depth idx s = .ok (.ok (v, e), t) ↔
      ∃ text x tail, rest cps idx = text ++ tail ∧ Value cfg depth text x ∧ Ends text tail ∧
        x s = .ok (.ok v, t) ∧ e = idx + text.length :=
  scanOnce_reads cfg cps depth idx s v e t

theorem rest_wide (l : List Char) (k : ℕ) : rest (wide l) k = (l.drop k).map Char.toNat := by
  rw [rest, wide, ← List.map_drop, List.map_map]
  rfl

/-- A call with a string that is stored as UTF-8 ends, and it returns a value exactly where the grammar has one in the
characters of the string. -/
theorem scanner_call_grammar (cfg : ScannerCfg σ ε ω) (depth : ℕ) (text : String) (idx : ℤ) (s : σ) :
    ∃ r, scannerCall cfg depth text idx s = .ok r ∧ ∀ v e t, r = (.ok (v, e), t) ↔
      ∃ l x tail, (text.toList.drop (max idx 0).toNat).map Char.toNat = l ++ tail ∧ Value cfg depth l x ∧ Ends l tail ∧
        x s = .ok (.ok v, t) ∧ e = (max idx 0).toNat + l.length := by
  obtain ⟨r, hcall, hwide⟩ := bothEnd_same (scannerCall_ends cfg depth text idx s)
  rw [scannerCallWide] at hwide
  refine ⟨r, hcall, ?_⟩
  intro v e t
  have hreads := scanOnce_reads cfg (wide text.toList) depth (max idx 0).toNat s v e t
  rw [rest_wide, Yields, hwide] at hreads
  constructor
  · rintro rfl
    exact hreads.mp rfl
  · intro h
    exact Except.ok.inj (hreads.mpr h)

end Reading

end WeavePy.Json
