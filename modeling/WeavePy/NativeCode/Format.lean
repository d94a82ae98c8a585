import WeavePy.Bytecode
import WeavePy.Rust
import WeavePy.Lib.Varint
import WeavePy.Lib.ByteOrder
import Mathlib.Data.List.SplitBy
import Mathlib.Logic.Function.Basic

/-!
The native serialization of code objects.
-/

namespace WeavePy.NativeCode

open ByteReader LittleEndian

structure ColSpan where
  endLineno : UInt32
  col : Int32
  endCol : Int32
  deriving DecidableEq

/-- The unknown span. -/
def ColSpan.default : ColSpan := ⟨0, -1, -1⟩

structure ExcHandler where
  start : UInt32
  stop : UInt32
  handler : UInt32
  depth : UInt32
  pushLasti : Bool
  deriving DecidableEq

/-- What a function made from a code object needs. -/
structure Header where
  name : String
  qualname : String
  filename : String
  argCount : UInt32
  posonlyCount : UInt32
  kwonlyCount : UInt32
  hasVarargs : Bool
  hasVarkeywords : Bool
  isClassBody : Bool
  isGenerator : Bool
  isCoroutine : Bool
  isAsyncGenerator : Bool
  isIterableCoroutine : Bool
  hasDocstring : Bool
  isMethod : Bool
  isNested : Bool
  annotateScope : Bool
  futureFlags : UInt32
  stacksize : Option UInt32
  deriving DecidableEq

/-- A body less its constants, over what holds its line, column and wire-mark tables. -/
structure Info (L C W : Type) where
  instructions : List Instruction
  names : List String
  varnames : List String
  freevars : List String
  cellvars : List String
  exceptionTable : List ExcHandler
  linetable : L
  coltable : C
  wireMarks : W
  noInterruptJumps : List UInt32
  hiddenLocals : List String
  constIdentifiers : List String
  /-- Whether raw CPython wire overrides are set. -/
  wire : Bool

/-- Floats are their bits. -/
inductive Scalar where
  | none
  | bool (b : Bool)
  | int (i : Int64)
  | bigInt (b : ℤ)
  | float (x : UInt64)
  | complex (re im : UInt64)
  | str (s : String)
  | wstr (cps : List UInt32)
  | bytes (b : List UInt8)
  | ellipsis
  | unmarshallable
  deriving DecidableEq

/-- A code constant has its body, or only where the body is encoded. -/
inductive Constant (I E : Type) where
  | scalar (s : Scalar)
  | tuple (items : List (Constant I E))
  | frozenSet (items : List (Constant I E))
  | code (header : Header) (info : I) (constants : List (Constant I E))
  | encoded (header : Header) (source : E)
  | slice (lower upper step : Constant I E)

structure CodeObject (I E : Type) where
  header : Header
  info : I
  constants : List (Constant I E)

/-- A table still encoded: its range of the input. -/
structure Encoded where
  start : ℕ
  stop : ℕ
  deriving DecidableEq

abbrev FullInfo := Info (List UInt32) (List ColSpan) (List UInt8)

/-- No wire-mark range for code without marks. -/
abbrev LazyInfo := Info Encoded Encoded (Option Encoded)

/-- Arbitrary-precision integers as bytes, which another crate provides. -/
structure BigIntBytes where
  toSignedBytesLe : ℤ → List UInt8
  fromSignedBytesLe : List UInt8 → ℤ

def VERSION : UInt8 := 8

def PREAMBLE : ℕ := 9

def MAX_TABLE_LEN : ℕ := 1 <<< 24

def MAX_NESTING : ℕ := 200

namespace Writer

/-- The identifiers written so far, in order and by number, and the table section. -/
structure Pool where
  numbers : String → Option UInt32
  tables : List UInt8
  names : List String

def Pool.new : Pool := ⟨fun _ => none, [], []⟩

/-- A method of the writer, as the bytes it appends. -/
abbrev Write := StateT Pool Option (List UInt8)

def seq : List Write → Write
  | [] => pure []
  | x :: xs => do
    let a ← x
    let b ← seq xs
    return a ++ b

def uint (v : ℕ) : List UInt8 := Varint.encode v

def int (v : ℤ) : List UInt8 := Varint.encodeInt v

def bytes (b : List UInt8) : List UInt8 := uint b.length ++ b

/-- A count, then the items. -/
def list {α : Type} (item : α → List UInt8) (v : List α) : List UInt8 := uint v.length ++ (v.map item).flatten

def strs (v : List String) : List UInt8 := list (fun s => bytes (utf8 s)) v

def u32s (v : List UInt32) : List UInt8 := list (fun x => uint x.toNat) v

/-- An identifier's number; a new one takes the next. -/
def name (s : String) : Write := fun p =>
  match p.numbers s with
  | some i => some (uint i.toNat, p)
  | none =>
    let i := p.names.length.toUInt32
    some (uint i.toNat, { p with numbers := Function.update p.numbers s (some i), names := p.names ++ [s] })

def names (v : List String) : Write := seq [pure (uint v.length), seq (v.map name)]

/-- Moves a table into the table section. -/
def table (t : List UInt8) : Write := fun p =>
  some (uint p.tables.length ++ uint t.length, { p with tables := p.tables ++ t })

def lineRunsFrom : ℤ → List (List UInt32) → List UInt8
  | _, [] => []
  | prev, run :: runs =>
    let line := ((run.headD 0).toNat : ℤ)
    int (line - prev) ++ uint run.length ++ lineRunsFrom line runs

def lineRuns (lines : List UInt32) : List UInt8 := uint lines.length ++ lineRunsFrom 0 (lines.splitBy (· == ·))

def colRunsFrom : ℤ → List (List ColSpan) → Option (List UInt8)
  | _, [] => some []
  | endLineno, run :: runs =>
    let repeat_ := (run.length - 1) <<< 1
    let s := run.headD .default
    if s = .default then (colRunsFrom endLineno runs).map (uint repeat_ ++ ·)
    else if s.col.toInt + 1 < 0 then none
    else
      (colRunsFrom s.endLineno.toNat runs).map
        (uint (repeat_ ||| 1) ++ int (s.endLineno.toNat - endLineno) ++ uint (s.col.toInt + 1).toNat ++
          int (s.endCol.toInt - s.col.toInt) ++ ·)

/-- `none` for a column below `-1`. -/
def colRuns (spans : List ColSpan) : Option (List UInt8) :=
  (colRunsFrom 0 (spans.splitBy (· == ·))).map (uint spans.length ++ ·)

def markPairs : List UInt8 → Option (List UInt8)
  | [] => some []
  | [lo] => if lo > 0x0f then none else some [lo]
  | lo :: hi :: marks =>
    if lo > 0x0f ∨ hi > 0x0f then none else (markPairs marks).map ((lo ||| hi <<< 4) :: ·)

/-- Two to a byte; `none` for a mark that needs more than four bits. -/
def wireMarks (marks : List UInt8) : Option (List UInt8) := (markPairs marks).map (uint marks.length ++ ·)

def flags (h : Header) : List Bool :=
  [h.hasVarargs, h.hasVarkeywords, h.isClassBody, h.isGenerator, h.isCoroutine, h.isAsyncGenerator,
    h.isIterableCoroutine, h.hasDocstring, h.isMethod, h.isNested, h.annotateScope]

def packFrom : ℕ → ℕ → List Bool → ℕ
  | _, acc, [] => acc
  | i, acc, f :: fs => packFrom (i + 1) (acc ||| f.toNat <<< i) fs

def packFlags (fs : List Bool) : ℕ := packFrom 0 0 fs

def instruction (ins : Instruction) : List UInt8 := ins.op.toU8 :: uint ins.arg.toNat

def handler (h : ExcHandler) : List UInt8 :=
  uint h.start.toNat ++ uint h.stop.toNat ++ uint h.handler.toNat ++ uint h.depth.toNat ++ [h.pushLasti.toUInt8]

/-- The body of a code object with `n` constants, which `constants` writes. -/
def body (c : FullInfo) (n : ℕ) (constants : Write) : Write :=
  seq [
    pure (list instruction c.instructions),
    seq [pure (uint n), constants],
    names c.names, names c.varnames, names c.freevars, names c.cellvars,
    pure (list handler c.exceptionTable),
    table (lineRuns c.linetable),
    StateT.lift (colRuns c.coltable) >>= table,
    pure (u32s c.noInterruptJumps),
    StateT.lift (if c.wireMarks = [] then some [] else wireMarks c.wireMarks) >>= table,
    pure (strs c.hiddenLocals), pure (strs c.constIdentifiers)]

/-- A header, then the body with its length first. -/
def code (h : Header) (c : FullInfo) (n : ℕ) (constants : Write) : Write :=
  if c.wire then StateT.lift none
  else
    seq [
      name h.name, name h.qualname,
      pure (uint h.argCount.toNat), pure (uint h.posonlyCount.toNat), pure (uint h.kwonlyCount.toNat),
      pure (uint (packFlags (flags h))), pure (uint h.futureFlags.toNat),
      pure (uint (h.stacksize.elim 0 fun s => s.toNat + 1)),
      bytes <$> body c n constants]

variable (big : BigIntBytes)

def scalar : Scalar → Option (List UInt8)
  | .none => some [0]
  | .bool b => some [1 + b.toUInt8]
  | .int i => some (3 :: int i.toInt)
  | .bigInt b => some (4 :: bytes (big.toSignedBytesLe b))
  | .float x => some (5 :: toLe 8 x.toNat)
  | .complex re im => some (6 :: (toLe 8 re.toNat ++ toLe 8 im.toNat))
  | .str s => some (7 :: bytes (utf8 s))
  | .wstr cps => some (8 :: u32s cps)
  | .bytes b => some (9 :: bytes b)
  | .ellipsis => some [13]
  | .unmarshallable => none

mutual

def constant : Constant FullInfo Empty → Write
  | .scalar s => StateT.lift (scalar big s)
  | .tuple items => seq [pure [10], seq [pure (uint items.length), constants items]]
  | .frozenSet items => seq [pure [11], seq [pure (uint items.length), constants items]]
  | .code h c ks => seq [pure [12], code h c ks.length (constants ks)]
  | .encoded _ e => nomatch e
  | .slice lower upper step => seq [pure [14], constant lower, constant upper, constant step]
termination_by structural k => k

def constants : List (Constant FullInfo Empty) → Write
  | [] => pure []
  | k :: ks => seq [constant k, constants ks]
termination_by structural ks => ks

end

/-- The running ends of the identifiers' texts. -/
def nameEnds : ℕ → List String → Option (List UInt8)
  | _, [] => some []
  | start, s :: names =>
    let stop := start + (utf8 s).length
    if stop < 2 ^ 32 then (nameEnds stop names).map (toLe 4 stop ++ ·) else none

def nameSection (names : List String) : Option (List UInt8) :=
  if names.length < 2 ^ 32 then
    (nameEnds 0 names).map fun ends => toLe 4 names.length ++ ends ++ (names.map utf8).flatten
  else none

def encode (c : CodeObject FullInfo Empty) : Option (List UInt8) := do
  let (root, p) ← code c.header c.info c.constants.length (constants big c.constants) .new
  let namesAt := PREAMBLE + root.length
  if namesAt < 2 ^ 32 then
    let names ← nameSection p.names
    let tablesAt := namesAt + names.length
    if tablesAt < 2 ^ 32 then
      return VERSION :: (toLe 4 tablesAt ++ toLe 4 namesAt ++ root ++ names ++ p.tables)
    else none
  else none

end Writer

end WeavePy.NativeCode
