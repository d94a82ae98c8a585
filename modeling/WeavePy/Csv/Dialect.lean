import Mathlib.Data.Int.Basic

/-!
`_csv.Dialect.__new__`: the parameters a dialect is made from, and the checks they pass.
-/

namespace WeavePy.Csv

inductive PyError where
  | csvError (msg : String)
  | typeError (msg : String)
  | valueError (msg : String)
  | stopIteration
  deriving DecidableEq, Repr

/-- A parameter as Python gives it; any kind not named is `other`, with the name of its type. -/
inductive Arg where
  | none
  | bool (b : Bool)
  | int (n : ℤ)
  | str (s : List Char)
  | other (type : String)
  deriving DecidableEq, Repr

def QUOTE_MINIMAL : ℤ := 0
def QUOTE_ALL : ℤ := 1
def QUOTE_NONNUMERIC : ℤ := 2
def QUOTE_NONE : ℤ := 3
def QUOTE_STRINGS : ℤ := 4
def QUOTE_NOTNULL : ℤ := 5

/-- The keyword parameters, each given or not. -/
structure Params where
  delimiter : Option Arg
  doublequote : Option Arg
  escapechar : Option Arg
  lineterminator : Option Arg
  quotechar : Option Arg
  quoting : Option Arg
  skipinitialspace : Option Arg
  strict : Option Arg
  deriving DecidableEq, Repr

/-- A dialect as `read_cfg` reads it back. -/
structure Dialect where
  delimiter : Char
  quotechar : Option Char
  escapechar : Option Char
  lineterminator : List Char
  quoting : ℤ
  doublequote : Bool
  skipinitialspace : Bool
  strict : Bool
  deriving DecidableEq, Repr

def Arg.truthy : Arg → Bool
  | .bool b => b
  | .none => false
  | .int n => n != 0
  | .str s => !s.isEmpty
  | .other _ => true

def Arg.typeName : Arg → String
  | .none => "NoneType"
  | .bool _ => "bool"
  | .int _ => "int"
  | .str _ => "str"
  | .other type => type

def setBool (src : Option Arg) (dflt : Bool) : Bool := (src.map Arg.truthy).getD dflt

def setInt (name : String) (src : Option Arg) (dflt : ℤ) : Except PyError ℤ :=
  match src with
  | none => .ok dflt
  | some (.int n) => .ok n
  | some _ => .error (.typeError ("\"" ++ name ++ "\" must be an integer"))

def oneChar : List Char → Option Char
  | [c] => some c
  | _ => none

def setChar (name : String) (src : Option Arg) (dflt : Char) : Except PyError Char :=
  match src with
  | none => .ok dflt
  | some (.str s) =>
    match oneChar s with
    | some c => .ok c
    | none => .error (.typeError ("\"" ++ name ++
        "\" must be a unicode character, not a string of length " ++ toString s.length))
  | some other =>
    .error (.typeError ("\"" ++ name ++ "\" must be a unicode character, not " ++ other.typeName))

def setCharOrNone (name : String) (src : Option Arg) (dflt : Option Char) :
    Except PyError (Option Char) :=
  match src with
  | none => .ok dflt
  | some .none => .ok none
  | some (.str s) =>
    match oneChar s with
    | some c => .ok (some c)
    | none => .error (.typeError ("\"" ++ name ++
        "\" must be a unicode character or None, not a string of length " ++ toString s.length))
  | some other => .error (.typeError ("\"" ++ name ++
      "\" must be a unicode character or None, not " ++ other.typeName))

def setStr (name : String) (src : Option Arg) (dflt : List Char) : Except PyError (List Char) :=
  match src with
  | none => .ok dflt
  | some (.str s) => .ok s
  | some other =>
    .error (.typeError ("\"" ++ name ++ "\" must be a string, not " ++ other.typeName))

def checkQuoting (quoting : ℤ) : Except PyError Unit :=
  if QUOTE_MINIMAL ≤ quoting ∧ quoting ≤ QUOTE_NOTNULL then .ok ()
  else .error (.typeError "bad \"quoting\" value")

def checkChar (name : String) (c : Option Char) (allowspace : Bool) (lineterminator : List Char) :
    Except PyError Unit :=
  match c with
  | some c =>
    if c = '\r' ∨ c = '\n' ∨ c = ' ' ∧ allowspace = false then
      .error (.valueError ("bad " ++ name ++ " value"))
    else if c ∈ lineterminator then
      .error (.valueError ("bad " ++ name ++ " or lineterminator value"))
    else .ok ()
  | none => .ok ()

def checkChars (name1 name2 : String) (c1 c2 : Option Char) : Except PyError Unit :=
  if c1.isSome ∧ c1 = c2 then
    .error (.valueError ("bad " ++ name1 ++ " or " ++ name2 ++ " value"))
  else .ok ()

/-- `fill!`: what is not given is taken from the attributes of a dialect object. -/
def Params.fill (p src : Params) : Params where
  delimiter := p.delimiter <|> src.delimiter
  doublequote := p.doublequote <|> src.doublequote
  escapechar := p.escapechar <|> src.escapechar
  lineterminator := p.lineterminator <|> src.lineterminator
  quotechar := p.quotechar <|> src.quotechar
  quoting := p.quoting <|> src.quoting
  skipinitialspace := p.skipinitialspace <|> src.skipinitialspace
  strict := p.strict <|> src.strict

/-- `Dialect.__new__` on its parameters, once filled. -/
def dialectNew (p : Params) : Except PyError Dialect := do
  let delim ← setChar "delimiter" p.delimiter ','
  let dq := setBool p.doublequote true
  let esc ← setCharOrNone "escapechar" p.escapechar none
  let lineterm ← setStr "lineterminator" p.lineterminator ['\r', '\n']
  let qc ← setCharOrNone "quotechar" p.quotechar (some '"')
  let quot ← setInt "quoting" p.quoting QUOTE_MINIMAL
  let sis := setBool p.skipinitialspace false
  let strict := setBool p.strict false
  checkQuoting quot
  let quot := if p.quotechar = some .none ∧ p.quoting = none then QUOTE_NONE else quot
  if quot ≠ QUOTE_NONE ∧ qc = none then
    throw (.typeError "quotechar must be set if quoting enabled")
  checkChar "delimiter" (some delim) true lineterm
  checkChar "escapechar" esc (!sis) lineterm
  checkChar "quotechar" qc (!sis) lineterm
  checkChars "delimiter" "escapechar" (some delim) esc
  checkChars "delimiter" "quotechar" (some delim) qc
  checkChars "escapechar" "quotechar" esc qc
  return ⟨delim, qc, esc, lineterm, quot, dq, sis, strict⟩

/-- What a dialect has passed. -/
structure Dialect.Accepted (d : Dialect) : Prop where
  quoting : QUOTE_MINIMAL ≤ d.quoting ∧ d.quoting ≤ QUOTE_NOTNULL
  quotechar : d.quoting ≠ QUOTE_NONE → ∃ q, d.quotechar = some q
  delimiter : d.delimiter ≠ '\r' ∧ d.delimiter ≠ '\n'
  escape : ∀ e, d.escapechar = some e → e ≠ '\r' ∧ e ≠ '\n' ∧ e ≠ d.delimiter ∧
    d.quotechar ≠ some e
  quote : ∀ q, d.quotechar = some q → q ≠ '\r' ∧ q ≠ '\n' ∧ q ≠ d.delimiter

theorem checkChar_ok {name : String} {c : Char} {allowspace : Bool} {lt : List Char}
    (h : checkChar name (some c) allowspace lt = .ok ()) : c ≠ '\r' ∧ c ≠ '\n' := by
  simp only [checkChar] at h
  split_ifs at h with h₁ h₂
  simp only [not_or] at h₁
  exact ⟨h₁.1, h₁.2.1⟩

theorem checkChars_ok {name1 name2 : String} {c1 c2 : Option Char}
    (h : checkChars name1 name2 c1 c2 = .ok ()) (hc : c1.isSome) : c1 ≠ c2 := by
  simp only [checkChars] at h
  split_ifs at h with h₁
  exact fun he => h₁ ⟨hc, he⟩

theorem except_bind_eq_ok {ε α β : Type} {x : Except ε α} {f : α → Except ε β} {b : β} :
    (x >>= f) = .ok b ↔ ∃ a, x = .ok a ∧ f a = .ok b := by
  cases x <;> simp [bind, Except.bind]

theorem accepted_of_dialectNew {p : Params} {d : Dialect} (h : dialectNew p = .ok d) :
    d.Accepted := by
  unfold dialectNew at h
  obtain ⟨delim, -, h⟩ := except_bind_eq_ok.mp h
  obtain ⟨esc, -, h⟩ := except_bind_eq_ok.mp h
  obtain ⟨lineterm, -, h⟩ := except_bind_eq_ok.mp h
  obtain ⟨qc, -, h⟩ := except_bind_eq_ok.mp h
  obtain ⟨quot, -, h⟩ := except_bind_eq_ok.mp h
  obtain ⟨_, hquot, h⟩ := except_bind_eq_ok.mp h
  dsimp only at h
  generalize hq : (if p.quotechar = some Arg.none ∧ p.quoting = none then QUOTE_NONE else quot) = q
    at h
  by_cases hset : q ≠ QUOTE_NONE ∧ qc = none
  · rw [if_pos hset] at h
    cases h
  rw [if_neg hset] at h
  obtain ⟨_, hd, h⟩ := except_bind_eq_ok.mp h
  obtain ⟨_, he, h⟩ := except_bind_eq_ok.mp h
  obtain ⟨_, hqc, h⟩ := except_bind_eq_ok.mp h
  obtain ⟨_, hde, h⟩ := except_bind_eq_ok.mp h
  obtain ⟨_, hdq, h⟩ := except_bind_eq_ok.mp h
  obtain ⟨_, heq, h⟩ := except_bind_eq_ok.mp h
  obtain rfl := Except.ok.inj h
  constructor
  · simp only [checkQuoting] at hquot
    split_ifs at hquot with hrange
    subst hq
    dsimp only
    split_ifs
    · exact ⟨by decide, by decide⟩
    · exact hrange
  · intro hn
    exact Option.ne_none_iff_exists'.mp fun hnone => hset ⟨hn, hnone⟩
  · exact checkChar_ok hd
  · rintro e rfl
    have := checkChar_ok he
    exact ⟨this.1, this.2, fun h => checkChars_ok hde rfl (by rw [h]),
      fun h => checkChars_ok heq rfl h.symm⟩
  · rintro q rfl
    have := checkChar_ok hqc
    exact ⟨this.1, this.2, fun h => checkChars_ok hdq rfl (by rw [h])⟩

end WeavePy.Csv
