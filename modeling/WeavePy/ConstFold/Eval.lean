import WeavePy.Rust
import Mathlib

/-!
The constants of a syntax tree, and what folding makes of an operator on them.
-/

namespace WeavePy.ConstFold

inductive Constant (F : Type) where
  | none
  | bool (b : Bool)
  | int (v : Int64)
  /-- Decimal digits. -/
  | bigInt (s : String)
  | float (x : F)
  | complex (re im : F)
  | str (s : String)
  | wstr (points : List UInt32)
  | bytes (b : List UInt8)
  | tuple (items : List (Constant F))
  | frozenSet (items : List (Constant F))
  | ellipsis

inductive BinOp where
  | add | sub | mult | div | floorDiv | mod | pow | lShift | rShift | bitOr | bitXor | bitAnd | matMult
  deriving DecidableEq

inductive UnaryOp where
  | invert | not | uAdd | uSub
  deriving DecidableEq

/-- Doubles. `mixed` is the arithmetic of operands of which one is a float or complex. -/
structure Floats (F : Type) where
  toF64 : ℤ → F
  isFinite : F → Bool
  isZero : F → Bool
  neg : F → F
  div : F → F → F
  powf : F → F → F
  mixed : BinOp → Constant F → Constant F → Option (Constant F)

def MAX_INT_SIZE : ℕ := 128

def MAX_COLLECTION_SIZE : ℕ := 256

def MAX_STR_SIZE : ℕ := 4096

def MAX_TOTAL_ITEMS : ℤ := 1024

section Domain

variable {F : Type} (fl : Floats F)

def intOf : Constant F → Option ℤ
  | .bool b => some b.toNat
  | .int v => some v.toInt
  | .bigInt s => s.toInt?
  | _ => none

def toI64 (v : ℤ) : Option ℤ := if -2 ^ 63 ≤ v ∧ v < 2 ^ 63 then some v else none

def toU64 (v : ℤ) : Option ℕ := if 0 ≤ v ∧ v < 2 ^ 64 then some v.toNat else none

def intConst (v : ℤ) : Constant F :=
  match toI64 v with
  | some i => .int (Int64.ofInt i)
  | none => .bigInt v.repr

def intToF64 (v : ℤ) : Option F := if fl.isFinite (fl.toF64 v) then some (fl.toF64 v) else none

def truthy : Constant F → Bool
  | .none => false
  | .bool b => b
  | .int v => v ≠ 0
  | .bigInt s => s.toInt?.elim true (· ≠ 0)
  | .float x => !fl.isZero x
  | .complex re im => !fl.isZero re || !fl.isZero im
  | .str s => s ≠ ""
  | .wstr p => p ≠ []
  | .bytes b => b ≠ []
  | .tuple items => !items.isEmpty
  | .frozenSet items => !items.isEmpty
  | .ellipsis => true

def isIntKind : Constant F → Bool
  | .bool _ | .int _ | .bigInt _ => true
  | _ => false

def isNumeric : Constant F → Bool
  | .bool _ | .int _ | .bigInt _ | .float _ | .complex _ _ => true
  | _ => false

def strPoints : Constant F → Option (List UInt32)
  | .str s => some (s.toList.map Char.val)
  | .wstr points => some points
  | _ => none

def makeStr (points : List UInt32) : Constant F :=
  if h : points.all (fun p => p.isValidChar) then
    .str (String.ofList (points.attach.map fun p => ⟨p.1, of_decide_eq_true (List.all_eq_true.mp h p.1 p.2)⟩))
  else .wstr points

mutual

/-- Items in nested containers, against a limit. -/
def checkComplexity : Constant F → ℤ → ℤ
  | .tuple items, limit => checkItems items (limit - items.length)
  | .frozenSet items, limit => checkItems items (limit - items.length)
  | _, limit => limit

def checkItems : List (Constant F) → ℤ → ℤ
  | [], limit => limit
  | item :: items, limit => if limit < 0 then limit else checkItems items (checkComplexity item limit)

end

end Domain

/-- What is folded, if anything, and the rounds of the folder's own loops. -/
abbrev Fold (F : Type) := Outcome (Option (Constant F × ℕ))

section Eval

variable {F : Type} (fl : Floats F)

def declined : Fold F := .ok none

def folded (c : Constant F) : Fold F := .ok (some (c, 0))

/-- The operator `?`. -/
def given {α : Type} (x : Option α) (f : α → Fold F) : Fold F :=
  match x with
  | some a => f a
  | none => declined

/-- The number of bits of the magnitude. -/
def bits (a : ℤ) : ℕ := a.natAbs.size

/-- A sum of two `u64`, which a check for overflow sees. -/
def addU64 (a b : ℕ) : Outcome ℕ := if a + b < 2 ^ 64 then .ok (a + b) else .error .panic

def evalNumeric (op : BinOp) (intOp : ℤ → ℤ → ℤ) (lv rv : Constant F) : Fold F :=
  if !isNumeric lv || !isNumeric rv then declined
  else if !isIntKind lv || !isIntKind rv then given (fl.mixed op lv rv) folded
  else given (intOf lv) fun a => given (intOf rv) fun b => folded (intConst (intOp a b))

def evalAdd (lv rv : Constant F) : Fold F :=
  if isNumeric lv && isNumeric rv then evalNumeric fl .add (· + ·) lv rv
  else
    match strPoints lv, strPoints rv, lv, rv with
    | some a, some b, _, _ => folded (makeStr (a ++ b))
    | _, _, .bytes a, .bytes b => folded (.bytes (a ++ b))
    | _, _, .tuple a, .tuple b => folded (.tuple (a ++ b))
    | _, _, _, _ => declined

def checkedMul (n : ℤ) (size : ℕ) : Option ℤ := toI64 (n * size)

/-- A sequence that is empty, or repeated no more than the cap lets it be. -/
def fits (n : ℤ) (size cap : ℕ) : Bool := size = 0 ∨ 0 ≤ n ∧ (checkedMul n size).any (· ≤ (cap : ℤ))

def repeated {α : Type} (l : List α) (n : ℕ) : List α := (List.replicate n l).flatten

/-- `for _ in 0..reps { out.extend(items) }`, and its rounds. -/
def extendLoop {α : Type} (items : List α) : ℕ → List α → ℕ → List α × ℕ
  | 0, out, rounds => (out, rounds)
  | reps + 1, out, rounds => extendLoop items reps (out ++ items) (rounds + 1)

def repeatSeq (n : ℤ) (seq : Constant F) : Fold F :=
  match seq with
  | .str _ | .wstr _ =>
    given (strPoints seq) fun points =>
      if fits n points.length MAX_STR_SIZE then folded (makeStr (repeated points n.toNat)) else declined
  | .bytes b => if fits n b.length MAX_STR_SIZE then folded (.bytes (repeated b n.toNat)) else declined
  | .tuple items =>
    if !fits n items.length MAX_COLLECTION_SIZE then declined
    else if 0 < items.length ∧ 0 < n ∧ checkComplexity seq (MAX_TOTAL_ITEMS / n) < 0 then declined
    else
      let (out, rounds) := extendLoop items n.toNat [] 0
      .ok (some (.tuple out, rounds))
  | _ => declined

def evalMult (lv rv : Constant F) : Fold F :=
  if isNumeric lv && isNumeric rv then
    if isIntKind lv && isIntKind rv then
      given (intOf lv) fun a => given (intOf rv) fun b =>
        if a ≠ 0 ∧ b ≠ 0 then
          (addU64 (bits a) (bits b)).bind fun sum =>
            if sum > MAX_INT_SIZE then declined else folded (intConst (a * b))
        else folded (intConst (a * b))
    else evalNumeric fl .mult (· * ·) lv rv
  else if isIntKind lv then given (intOf lv) fun n => given (toI64 n) fun n => repeatSeq n rv
  else if isIntKind rv then given (intOf rv) fun n => given (toI64 n) fun n => repeatSeq n lv
  else declined

def evalDiv (lv rv : Constant F) : Fold F :=
  if !isNumeric lv || !isNumeric rv then declined
  else if !isIntKind lv || !isIntKind rv then given (fl.mixed .div lv rv) folded
  else
    given (intOf lv) fun a => given (intOf rv) fun b =>
      if b = 0 then declined
      else
        given (intToF64 fl a) fun af => given (intToF64 fl b) fun bf =>
          -- a conversion would round
          if bits a > 53 ∨ bits b > 53 then declined else folded (.float (fl.div af bf))

/-- `a.div_floor(&b)` and `a.mod_floor(&b)`. -/
def evalFloored (op : BinOp) (intOp : ℤ → ℤ → ℤ) (lv rv : Constant F) : Fold F :=
  if isIntKind lv && isIntKind rv then
    given (intOf lv) fun a => given (intOf rv) fun b => if b = 0 then declined else folded (intConst (intOp a b))
  else if isNumeric lv && isNumeric rv then given (fl.mixed op lv rv) folded
  else declined

def evalFloordiv (lv rv : Constant F) : Fold F := evalFloored fl .floorDiv Int.fdiv lv rv

def evalMod (lv rv : Constant F) : Fold F :=
  match lv with
  | .str _ | .wstr _ | .bytes _ => declined
  | _ => evalFloored fl .mod Int.fmod lv rv

def evalPow (lv rv : Constant F) : Fold F :=
  if isIntKind lv && isIntKind rv then
    given (intOf lv) fun a => given (intOf rv) fun b =>
      if b < 0 then
        if a = 0 ∨ bits a > 53 ∨ bits b > 53 then declined
        else given (intToF64 fl a) fun af => given (intToF64 fl b) fun bf => folded (.float (fl.powf af bf))
      else
        given (toU64 b) fun exp =>
          if a ≠ 0 ∧ b ≠ 0 ∧ bits a > MAX_INT_SIZE / max exp 1 then declined else folded (intConst (a ^ exp))
  else if isNumeric lv && isNumeric rv then given (fl.mixed .pow lv rv) folded
  else declined

def evalLShift (lv rv : Constant F) : Fold F :=
  given (intOf lv) fun a => given (intOf rv) fun b =>
    if b < 0 then declined
    else if a ≠ 0 then
      given (toU64 b) fun shift =>
        (addU64 (bits a) shift).bind fun sum =>
          if sum > MAX_INT_SIZE then declined else folded (intConst (a <<< shift))
    else given (toU64 b) fun shift => folded (intConst (a <<< shift))

def evalRShift (lv rv : Constant F) : Fold F :=
  given (intOf lv) fun a => given (intOf rv) fun b =>
    if b < 0 then declined
    else
      let shift := (toU64 b).getD (2 ^ 64 - 1)
      if shift > 1000000 then folded (intConst (if a < 0 then -1 else 0)) else folded (intConst (a >>> shift))

/-- `|`, `^` and `&`: two booleans stay one. -/
def evalBits (boolOp : Bool → Bool → Bool) (intOp : ℤ → ℤ → ℤ) (lv rv : Constant F) : Fold F :=
  match lv, rv with
  | .bool a, .bool b => folded (.bool (boolOp a b))
  | _, _ => given (intOf lv) fun a => given (intOf rv) fun b => folded (intConst (intOp a b))

def evalBinop (lv : Constant F) (op : BinOp) (rv : Constant F) : Fold F :=
  match op with
  | .add => evalAdd fl lv rv
  | .sub => evalNumeric fl .sub (· - ·) lv rv
  | .mult => evalMult fl lv rv
  | .div => evalDiv fl lv rv
  | .floorDiv => evalFloordiv fl lv rv
  | .mod => evalMod fl lv rv
  | .pow => evalPow fl lv rv
  | .lShift => evalLShift lv rv
  | .rShift => evalRShift lv rv
  | .bitOr => evalBits or Int.lor lv rv
  | .bitXor => evalBits xor Int.xor lv rv
  | .bitAnd => evalBits and Int.land lv rv
  | .matMult => declined

def evalUnaryopConst (op : UnaryOp) (c : Constant F) : Option (Constant F) :=
  match op, c with
  | .not, _ => some (.bool (!truthy fl c))
  | .invert, .bool _ => none
  | .invert, _ => (intOf c).map fun v => intConst (Int.not v)
  | .uAdd, .int _ | .uAdd, .bigInt _ | .uAdd, .float _ | .uAdd, .complex _ _ => some c
  | .uAdd, .bool b => some (.int (Int64.ofNat b.toNat))
  | .uAdd, _ => none
  | .uSub, .bool b => some (.int (-Int64.ofNat b.toNat))
  | .uSub, .int v => some (if v = Int64.minValue then intConst (-v.toInt) else .int (-v))
  | .uSub, .bigInt _ => (intOf c).map fun v => intConst (-v)
  | .uSub, .float x => some (.float (fl.neg x))
  | .uSub, .complex re im => some (.complex (fl.neg re) (fl.neg im))
  | .uSub, _ => none

end Eval

end WeavePy.ConstFold
