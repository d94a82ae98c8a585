import Mathlib.Algebra.Ring.Int.Defs
import Mathlib.Algebra.Ring.Nat
import Mathlib.Data.Int.Notation
import Mathlib.Data.List.TakeWhile
import Mathlib.Data.Nat.Notation

/-!
The compiler's rewriting of `fmt % tuple` into an f-string.
-/

namespace WeavePy.PercentFormat

/-- `none` is `NO_LOCATION`. -/
structure Span where
  bounds : Option (UInt32 × UInt32)

def Span.NO_LOCATION : Span := ⟨none⟩

/-- A node and its place. -/
structure Expr (K : Type) where
  kind : K
  span : Span

/-- The parts of an f-string over elements `E`. -/
inductive ExprKind (E : Type) where
  | constant (text : String)
  | formattedValue (value : Expr E) (conversion : ℤ) (formatSpec : Option (Expr String))

/-- `str::replace("%%", "%")`. -/
def replacePercents : List Char → List Char
  | '%' :: '%' :: t => '%' :: replacePercents t
  | c :: t => c :: replacePercents t
  | [] => []

/-- The `while` of `parse_literal`: `p` and `has_percents` where it stops. -/
def scanLiteral : List Char → ℕ → Bool → ℕ × Bool
  | [], p, hasPercents => (p, hasPercents)
  | c :: t, p, hasPercents =>
    if c ≠ '%' then scanLiteral t (p + 1) hasPercents
    else
      match t with
      | [] => (p, hasPercents)
      | d :: t => if d = '%' then scanLiteral t (p + 2) true else (p, hasPercents)

variable {E : Type}

/-- The run of text that is no unit, and what is left after it. -/
def parseLiteral (chars : List Char) : Option (Expr (ExprKind E)) × List Char :=
  let (p, hasPercents) := scanLiteral chars 0 false
  if p = 0 then (none, chars.drop p)
  else
    let text := if hasPercents then replacePercents (chars.take p) else chars.take p
    (some ⟨.constant (String.ofList text), .NO_LOCATION⟩, chars.drop p)

def MAXDIGITS : ℕ := 3

/-- The loop over the flags: the character after them, and whether there was a `-`. -/
def scanFlags : List Char → Bool → Option (Char × Bool × List Char)
  | [], _ => none
  | ch :: t, ljust =>
    if ch = '-' then scanFlags t true
    else if ch = '+' ∨ ch = ' ' ∨ ch = '#' ∨ ch = '0' then scanFlags t ljust
    else some (ch, ljust, t)

/-- A loop over digits, its first one read already: their value, and the character after them. -/
def scanDigits : List Char → Char → ℕ → ℕ → Option (ℕ × Char × List Char)
  | [], ch, value, _ => if ch.isDigit then none else some (value, ch, [])
  | c :: t, ch, value, digits =>
    if ch.isDigit then
      if digits + 1 ≥ MAXDIGITS then none
      else scanDigits t c (value * 10 + (ch.toNat - '0'.toNat)) (digits + 1)
    else some (value, ch, c :: t)

def scanWidth (ch : Char) (t : List Char) : Option (Option ℕ × Char × List Char) :=
  if ch.isDigit then (scanDigits t ch 0 0).map fun (w, ch, t) => (some w, ch, t) else some (none, ch, t)

def scanPrecision (ch : Char) (t : List Char) : Option (Option ℕ × Char × List Char) :=
  if ch = '.' then
    match t with
    | [] => none
    | ch :: t =>
      if ch.isDigit then (scanDigits t ch 0 0).map fun (pr, ch, t) => (some pr, ch, t) else some (some 0, ch, t)
  else some (none, ch, t)

/-- Flags, width, precision and the conversion character of one unit, and what is left after it. -/
def simpleFormatArgParse (chars : List Char) : Option (Char × Bool × Option ℕ × Option ℕ × List Char) := do
  let (ch, ljust, t) ← scanFlags chars false
  let (width, ch, t) ← scanWidth ch t
  let (prec, ch, t) ← scanPrecision ch t
  some (ch, ljust, width, prec, t)

/-- The format spec that is handed over. -/
def specText (ljust : Bool) (width prec : Option ℕ) : String :=
  let buf := if ljust = false ∧ width.any (0 < ·) then ">" else ""
  let buf := match width with
    | some w => buf ++ toString w
    | none => buf
  match prec with
  | some p => buf ++ "." ++ toString p
  | none => buf

/-- One `%s`, `%r` or `%a`. -/
def parseFormat (chars : List Char) (arg : Expr E) : Option (Expr (ExprKind E) × List Char) :=
  match simpleFormatArgParse chars with
  | none => none
  | some (spec, ljust, width, prec, rest) =>
    if spec = 's' ∨ spec = 'r' ∨ spec = 'a' then
      let buf := specText ljust width prec
      let formatSpec := if buf.isEmpty then none else some ⟨buf, .NO_LOCATION⟩
      some (⟨.formattedValue arg spec.toNat formatSpec, arg.span⟩, rest)
    else none

/-- The loop of `optimize_format`, over the elements that no unit has taken yet. -/
def optimizeUnits (seq : List (Expr (ExprKind E))) : List Char → List (Expr E) → Option (List (Expr (ExprKind E)))
  | chars, [] =>
    let (lit, rest) := parseLiteral chars
    match rest with
    | [] => some (seq ++ lit.toList)
    | _ :: _ => none
  | chars, arg :: elts =>
    let (lit, rest) := parseLiteral chars
    match rest with
    | [] => none
    | _ :: rest =>
      match parseFormat rest arg with
      | none => none
      | some (expr, rest) => optimizeUnits (seq ++ lit.toList ++ [expr]) rest elts

def optimizeFormat (fmt : String) (elts : List (Expr E)) : Option (List (Expr (ExprKind E))) :=
  optimizeUnits [] fmt.toList elts

end WeavePy.PercentFormat

/-!
What Python makes of `fmt % tuple`, and of a string with a format spec. Nothing here is read off the compiler.
-/

namespace WeavePy.PercentFormat

inductive Error (ε : Type) where
  | raised (e : ε)
  | notEnough
  | notAll
  | mapping
  | incomplete
  | tooBig
  | badSpec

/-- The format string is at fault, not a conversion of a value. -/
def Error.OfFormat {ε : Type} : Error ε → Prop
  | .raised _ => False
  | _ => True

section Percent

inductive Amount where
  | digits (n : ℕ)
  | star

structure Spec where
  flags : List Char
  width : Option Amount
  prec : Option Amount
  length : Option Char
  conv : Char

inductive Piece where
  | char (c : Char)
  | unit (spec : Spec)
  | mapping
  | incomplete
  | tooBig

def isFlag (c : Char) : Bool := c ∈ ['-', '+', ' ', '#', '0']

def readAmount : List Char → Option Amount × List Char
  | [] => (none, [])
  | c :: t =>
    if c = '*' then (some .star, t)
    else if c.isDigit then
      (some (.digits (Nat.ofDigitChars 10 ((c :: t).takeWhile Char.isDigit) 0)), (c :: t).dropWhile Char.isDigit)
    else (none, c :: t)

/-- A point alone asks for no characters. -/
def readPrecision : List Char → Option Amount × List Char
  | [] => (none, [])
  | c :: t => if c = '.' then (some ((readAmount t).1.getD (.digits 0)), (readAmount t).2) else (none, c :: t)

def readLength : List Char → Option Char × List Char
  | [] => (none, [])
  | c :: t => if c ∈ ['h', 'l', 'L'] then (some c, t) else (none, c :: t)

def Amount.isBeyond (bound : ℕ) : Amount → Bool
  | .digits n => bound < n
  | .star => false

/-- The text is what follows a percent sign. -/
def readSpec (t : List Char) : Piece × List Char :=
  let width := readAmount (t.dropWhile isFlag)
  let prec := readPrecision width.2
  let length := readLength prec.2
  if t.head? = some '(' then (.mapping, [])
  else if width.1.any (Amount.isBeyond (2 ^ 63 - 1)) || prec.1.any (Amount.isBeyond (2 ^ 31 - 1)) then (.tooBig, [])
  else
    match length.2 with
    | [] => (.incomplete, [])
    | conv :: rest => (.unit ⟨t.takeWhile isFlag, width.1, prec.1, length.1, conv⟩, rest)

theorem readAmount_length_le (t : List Char) : (readAmount t).2.length ≤ t.length := by
  cases t with
  | nil => exact Nat.le_refl _
  | cons c t =>
    unfold readAmount
    dsimp only
    split_ifs
    · exact Nat.le_succ _
    · exact (List.dropWhile_suffix _).length_le
    · exact Nat.le_refl _

theorem readPrecision_length_le (t : List Char) : (readPrecision t).2.length ≤ t.length := by
  cases t with
  | nil => exact Nat.le_refl _
  | cons c t =>
    unfold readPrecision
    dsimp only
    split_ifs
    · exact Nat.le_succ_of_le (readAmount_length_le t)
    · exact Nat.le_refl _

theorem readLength_length_le (t : List Char) : (readLength t).2.length ≤ t.length := by
  cases t with
  | nil => exact Nat.le_refl _
  | cons c t =>
    unfold readLength
    dsimp only
    split_ifs
    · exact Nat.le_succ _
    · exact Nat.le_refl _

theorem readSpec_length_le (t : List Char) : (readSpec t).2.length ≤ t.length := by
  have hflags := (List.dropWhile_suffix (l := t) isFlag).length_le
  have hwidth := readAmount_length_le (t.dropWhile isFlag)
  have hprec := readPrecision_length_le (readAmount (t.dropWhile isFlag)).2
  have hlength := readLength_length_le (readPrecision (readAmount (t.dropWhile isFlag)).2).2
  unfold readSpec
  dsimp only
  split_ifs
  · exact Nat.zero_le _
  · exact Nat.zero_le _
  · split
    · exact Nat.zero_le _
    · next hrest =>
      rw [hrest, List.length_cons] at hlength
      dsimp only
      omega

def pieces : List Char → List Piece
  | [] => []
  | c :: t => if c = '%' then (readSpec t).1 :: pieces (readSpec t).2 else .char c :: pieces t
termination_by t => t.length
decreasing_by
  · exact Nat.lt_succ_of_le (readSpec_length_le t)
  · exact Nat.lt_succ_self _

/-- How values become text: `other` stands for the conversions to numbers and characters, and `star` reads an
amount. -/
structure Conversions (V ε : Type) where
  str : V → Except ε (List Char)
  repr : V → Except ε (List Char)
  ascii : V → Except ε (List Char)
  other : Spec → ℤ → Option ℤ → V → Except ε (List Char)
  star : V → Except ε ℤ

variable {V ε : Type} (conv : Conversions V ε)

def raising {α : Type} : Except ε α → Except (Error ε) α
  | .error e => .error (.raised e)
  | .ok a => .ok a

def Amount.size : Amount → List V → Except (Error ε) (ℤ × List V)
  | .digits n, args => .ok (n, args)
  | .star, [] => .error .notEnough
  | .star, v :: args => (raising (conv.star v)).map fun n => (n, args)

/-- `none` for what is not there. -/
def sizeOf (amount : Option Amount) (args : List V) : Except (Error ε) (Option ℤ × List V) :=
  match amount with
  | none => .ok (none, args)
  | some a => (a.size conv args).map fun (n, args) => (some n, args)

def cut (prec : Option ℕ) (text : List Char) : List Char :=
  match prec with
  | none => text
  | some n => text.take n

def padding (width : ℕ) (c : Char) (text : List Char) : List Char := List.replicate (width - text.length) c

/-- A width below zero asks for the text to be put on the left. -/
def justify (spec : Spec) (width prec : Option ℤ) (text : List Char) : List Char :=
  let text := cut (prec.map Int.toNat) text
  let pad := padding (width.getD 0).natAbs ' ' text
  if '-' ∈ spec.flags ∨ width.getD 0 < 0 then text ++ pad else pad ++ text

def Spec.convert (spec : Spec) (width prec : Option ℤ) (v : V) : Except ε (List Char) :=
  if spec.conv = 's' then (conv.str v).map (justify spec width prec)
  else if spec.conv = 'r' then (conv.repr v).map (justify spec width prec)
  else if spec.conv = 'a' then (conv.ascii v).map (justify spec width prec)
  else conv.other spec (width.getD 0) prec v

def Spec.output (spec : Spec) (args : List V) : Except (Error ε) (List Char × List V) := do
  let (width, args) ← sizeOf conv spec.width args
  let (prec, args) ← sizeOf conv spec.prec args
  if spec.conv = '%' then .ok (['%'], args)
  else
    match args with
    | [] => .error .notEnough
    | v :: args => (raising (spec.convert conv width prec v)).map fun text => (text, args)

def render : List Piece → List V → Except (Error ε) (List Char)
  | [], [] => .ok []
  | [], _ :: _ => .error .notAll
  | .char c :: ps, args => (render ps args).map (c :: ·)
  | .unit spec :: ps, args => do
    let (text, args) ← spec.output conv args
    (render ps args).map (text ++ ·)
  | .mapping :: _, _ => .error .mapping
  | .incomplete :: _, _ => .error .incomplete
  | .tooBig :: _, _ => .error .tooBig

/-- `fmt % args`. -/
def percent (fmt : List Char) (args : List V) : Except (Error ε) (List Char) := render conv (pieces fmt) args

/-- Text, `%%`, and what asks for `str`, `repr` or `ascii`, the amounts written out. -/
def Piece.Plain : Piece → Prop
  | .char _ => True
  | .unit spec => spec = ⟨[], none, none, none, '%'⟩ ∨
    spec.conv ∈ ['s', 'r', 'a'] ∧ spec.length = none ∧ (∀ a ∈ spec.width, a ≠ .star) ∧ ∀ a ∈ spec.prec, a ≠ .star
  | .mapping => False
  | .incomplete => False
  | .tooBig => False

end Percent

section Spec

structure StringSpec where
  fill : Char
  align : Char
  width : ℕ
  prec : Option ℕ

def isAlign (c : Char) : Bool := c ∈ ['<', '>', '^', '=']

def readAlign : List Char → Option Char × Option Char × List Char
  | c :: d :: t =>
    if isAlign d then (some c, some d, t) else if isAlign c then (none, some c, d :: t) else (none, none, c :: d :: t)
  | [c] => if isAlign c then (none, some c, []) else (none, none, [c])
  | [] => (none, none, [])

def readZero : List Char → Bool × List Char
  | [] => (false, [])
  | c :: t => if c = '0' then (true, t) else (false, c :: t)

/-- A point needs digits. -/
def readPoint : List Char → Option (Option ℕ × List Char)
  | [] => some (none, [])
  | c :: t =>
    if c = '.' then
      if t.head?.any Char.isDigit then
        some (some (Nat.ofDigitChars 10 (t.takeWhile Char.isDigit) 0), t.dropWhile Char.isDigit)
      else none
    else some (none, c :: t)

/-- `[[fill]align]["0"][width]["." precision]["s"]`: strings take no sign, `z`, `#`, grouping or other type, and
are not aligned by `=`. -/
def readStringSpec (spec : List Char) : Option StringSpec :=
  let align := readAlign spec
  let zero := readZero align.2.2
  let digits := zero.2.takeWhile Char.isDigit
  match readPoint (zero.2.dropWhile Char.isDigit) with
  | none => none
  | some (prec, rest) =>
    if (rest = [] ∨ rest = ['s']) ∧ align.2.1 ≠ some '=' then
      some ⟨align.1.getD (if zero.1 then '0' else ' '), align.2.1.getD '<', Nat.ofDigitChars 10 digits 0, prec⟩
    else none

def StringSpec.apply (spec : StringSpec) (text : List Char) : List Char :=
  let text := cut spec.prec text
  let pad := padding spec.width spec.fill text
  if spec.align = '>' then pad ++ text
  else if spec.align = '^' then pad.take (pad.length / 2) ++ text ++ pad.drop (pad.length / 2)
  else text ++ pad

/-- `format(text, spec)`. -/
def formatString {ε : Type} (spec text : List Char) : Except (Error ε) (List Char) :=
  match readStringSpec spec with
  | none => .error .badSpec
  | some spec => .ok (spec.apply text)

end Spec

end WeavePy.PercentFormat
