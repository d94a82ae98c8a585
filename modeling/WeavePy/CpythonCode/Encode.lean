import WeavePy.CpythonCode.Wire

/-!
Code objects written for CPython: their code units and the table of their locations. Arithmetic on
`i32` and `u32` wraps, as it does in release builds.
-/

namespace WeavePy.CpythonCode

open NativeCode

variable {E : Type}

/-! ### Positions -/

/-- A column that was not tracked is absent. -/
structure Position where
  lineno : Int32
  endLineno : Int32
  col : Option UInt32
  endCol : Option UInt32
  deriving DecidableEq

/-- `flowgraph::MODULE_RESUME_LOCATION.col`. -/
def MODULE_RESUME_COL : ColSpan := ⟨1, 0, 0⟩

section Positions

variable (code : CodeObject FullInfo E)

def codeFirstlineno : UInt32 :=
  if code.header.name = "<module>" then 1 else (code.info.linetable.find? (0 < ·)).getD 1

def moduleResumeAt (i : ℕ) : Bool :=
  if code.header.name ≠ "<module>" ∨ code.info.linetable[i]?.getD 1 ≠ 0 then false
  else if code.info.coltable[i]? = some MODULE_RESUME_COL then true
  else code.info.instructions[i]?.map Instruction.op = some .Resume ∧
    (code.info.instructions.take i).all fun x => x.op ∈ [.MakeCell, .CopyFreeVars, .ReturnGenerator, .PopTop]

def positionAt (i : ℕ) (firstlineno : UInt32) : Position :=
  if moduleResumeAt code i then ⟨0, 1, some 0, some 0⟩
  else
    let raw := (code.info.linetable[i]?.getD firstlineno).toInt32
    let line := if raw = 0 then -1 else raw
    let cs := code.info.coltable[i]?.getD ColSpan.default
    { lineno := line
      endLineno := if cs.endLineno ≠ 0 then cs.endLineno.toInt32 else line
      col := if 0 ≤ cs.col then some cs.col.toUInt32 else none
      endCol := if 0 ≤ cs.endCol then some cs.endCol.toUInt32 else none }

end Positions

/-! ### The location table -/

/-- Groups of six bits, the lowest first; a `u32` has at most five after the first. -/
def locGroups : ℕ → UInt32 → List UInt8
  | 0, val => [(val &&& 0x3F).toUInt8]
  | n + 1, val =>
    if val >>> 6 ≠ 0 then ((val &&& 0x3F).toUInt8 ||| 0x40) :: locGroups n (val >>> 6) else [(val &&& 0x3F).toUInt8]

/-- The first byte is also marked with the mask. -/
def pushLocVarint (out : List UInt8) (val : UInt32) (firstMask : UInt8) : List UInt8 :=
  out ++ (locGroups 5 val).modifyHead (· ||| firstMask)

/-- The sign in the lowest bit. -/
def zigzag (val : Int32) : UInt32 :=
  if val < 0 then ((-val).toUInt32 <<< 1) ||| 1 else val.toUInt32 <<< 1

def pushLocSvarint (out : List UInt8) (val : Int32) (firstMask : UInt8) : List UInt8 :=
  pushLocVarint out (zigzag val) firstMask

structure LocationEncoder where
  out : List UInt8
  lineno : Int32

namespace LocationEncoder

def CODE_SHORT0 : UInt8 := 0

def CODE_ONE_LINE0 : UInt8 := 10

def CODE_NO_COLUMNS : UInt8 := 13

def CODE_LONG : UInt8 := 14

def CODE_NONE : UInt8 := 15

def entryByte (code : UInt8) (length : ℕ) : UInt8 := (0x80 : UInt8) ||| (code <<< 3) ||| (length - 1).toUInt8

def firstByte (enc : LocationEncoder) (code : UInt8) (length : ℕ) : LocationEncoder :=
  { enc with out := enc.out ++ [entryByte code length] }

/-- The form with every field; columns are stored with one added, so that 0 is none. -/
def emitLong (enc : LocationEncoder) (loc : Position) (isize : ℕ) (column endColumn : Int32) : LocationEncoder :=
  let out := (enc.firstByte CODE_LONG isize).out
  let out := pushLocSvarint out (loc.lineno - enc.lineno) 0
  let out := pushLocVarint out (max (loc.endLineno - loc.lineno) 0).toUInt32 0
  let out := pushLocVarint out (column + 1).toUInt32 0
  let out := pushLocVarint out (endColumn + 1).toUInt32 0
  ⟨out, loc.lineno⟩

def emitEntry (enc : LocationEncoder) (loc : Position) (isize : ℕ) : LocationEncoder :=
  if loc.lineno < 0 then enc.firstByte CODE_NONE isize
  else
    let lineDelta := loc.lineno - enc.lineno
    let column : Int32 := loc.col.elim (-1) UInt32.toInt32
    let endColumn : Int32 := loc.endCol.elim (-1) UInt32.toInt32
    if column < 0 ∨ endColumn < 0 then
      if loc.endLineno = loc.lineno ∨ loc.endLineno = -1 then
        ⟨pushLocSvarint (enc.firstByte CODE_NO_COLUMNS isize).out lineDelta 0, loc.lineno⟩
      else enc.emitLong loc isize column endColumn
    else if loc.endLineno = loc.lineno then
      if lineDelta = 0 ∧ column < 80 ∧ endColumn - column < 16 ∧ column ≤ endColumn then
        let columnLowBits := (column &&& 7).toUInt32.toUInt8
        let columnGroup := (column >>> 3).toUInt32.toUInt8
        let enc := enc.firstByte (CODE_SHORT0 + columnGroup) isize
        { enc with out := enc.out ++ [(columnLowBits <<< 4) ||| (endColumn - column).toUInt32.toUInt8] }
      else if (0 ≤ lineDelta ∧ lineDelta < 3) ∧ column < 128 ∧ endColumn < 128 then
        let enc' := enc.firstByte (CODE_ONE_LINE0 + lineDelta.toUInt32.toUInt8) isize
        ⟨enc'.out ++ [column.toUInt32.toUInt8, endColumn.toUInt32.toUInt8], loc.lineno⟩
      else enc.emitLong loc isize column endColumn
    else enc.emitLong loc isize column endColumn

/-- Entries of at most eight units. -/
def emitPieces (enc : LocationEncoder) (loc : Position) (isize : ℕ) : LocationEncoder :=
  if 8 < isize then (enc.emitEntry loc 8).emitPieces loc (isize - 8) else enc.emitEntry loc isize
termination_by isize

def emitLocation (enc : LocationEncoder) (loc : Position) (isize : ℕ) : LocationEncoder :=
  if isize = 0 then enc else enc.emitPieces loc isize

end LocationEncoder

/-! ### Code units -/

namespace Mark

def PLAIN : UInt8 := 0

def BORROW : UInt8 := 1

def CHECK : UInt8 := 2

def FUSE_HEAD : UInt8 := 4

def FUSE_TAIL : UInt8 := 8

end Mark

section Mapping

variable (code : CodeObject FullInfo E)

def mark (i : ℕ) : UInt8 := code.info.wireMarks[i]?.getD Mark.PLAIN

/-- The superinstruction that a fusion head makes with the instruction after it. -/
def fused (i : ℕ) : Option MappedOp :=
  if mark code i &&& Mark.FUSE_HEAD = 0 then none
  else
    match code.info.instructions[i]?, code.info.instructions[i + 1]? with
    | some ⟨.LoadGlobal, a⟩, some ⟨.PushNull, _⟩ => some ⟨Op.LOAD_GLOBAL, (a <<< 1) ||| 1⟩
    | some ⟨.LoadFast, a⟩, some ⟨.LoadFast, b⟩ =>
      if a < 16 ∧ b < 16 then
        some ⟨if mark code i &&& Mark.BORROW ≠ 0 then Op.LOAD_FAST_BORROW_LOAD_FAST_BORROW else Op.LOAD_FAST_LOAD_FAST,
          (a <<< 4) ||| b⟩
      else none
    | some ⟨.StoreFast, a⟩, some ⟨.LoadFast, b⟩ =>
      if a < 16 ∧ b < 16 then some ⟨Op.STORE_FAST_LOAD_FAST, (a <<< 4) ||| b⟩ else none
    | some ⟨.StoreFast, a⟩, some ⟨.StoreFast, b⟩ =>
      if a < 16 ∧ b < 16 then some ⟨Op.STORE_FAST_STORE_FAST, (a <<< 4) ||| b⟩ else none
    | _, _ => none

/-- Whether the instruction is the tail of a fusion. -/
def zeroWidth : ℕ → Bool
  | 0 => false
  | i + 1 => (fused code i).isSome

/-- Fusions, and loads that borrow or check. -/
def applyMark (i : ℕ) (m : MappedOp) : MappedOp :=
  match fused code i with
  | some f => f
  | none =>
    if mark code i &&& Mark.FUSE_HEAD = 0 ∧ mark code i &&& Mark.FUSE_TAIL = 0 ∧
        (code.info.instructions[i]?.map Instruction.op ∈ [some .LoadFast, some .LoadClosure]) then
      if mark code i &&& Mark.BORROW ≠ 0 then { m with cpOp := Op.LOAD_FAST_BORROW }
      else if mark code i &&& Mark.CHECK ≠ 0 then { m with cpOp := Op.LOAD_FAST_CHECK }
      else m
    else m

def applyNoInterrupt (i : ℕ) (m : MappedOp) : MappedOp :=
  if i ∈ code.info.noInterruptJumps.map UInt32.toNat ∧ m.cpOp = Op.JUMP_BACKWARD then
    { m with cpOp := Op.JUMP_BACKWARD_NO_INTERRUPT }
  else m

/-- The names that the constant before a keyword call holds. -/
def kwnames : ℕ → UInt32
  | 0 => 0
  | i + 1 =>
    match code.info.instructions[i]?, code.info.instructions[i + 1]? with
    | some ⟨.LoadConst, k⟩, some ⟨.CallKw, _⟩ =>
      match code.constants[k.toNat]? with
      | some (.tuple names) => names.length.toUInt32
      | _ => 0
    | _, _ => 0

def mappedOps : Outcome (List MappedOp) := do
  let mapped ← code.info.instructions.mapM fun ins => mapToCpython ins (.fromCode code.info)
  return mapped.mapIdx fun i m =>
    let m := applyNoInterrupt code i (applyMark code i m)
    { m with arg := m.arg + kwnames code i }

end Mapping

/-- How many `EXTENDED_ARG` units the argument needs. -/
def extCount (arg : UInt32) : ℕ :=
  if arg ≤ 0xFF then 0 else if arg ≤ 0xFFFF then 1 else if arg ≤ 0x00FFFFFF then 2 else 3

section Layout

variable (code : CodeObject FullInfo E) (mapped : List MappedOp)

def cpOpAt (i : ℕ) : UInt8 := (mapped[i]?.map MappedOp.cpOp).getD Op.CACHE

/-- The first `SEND` of the range that the instruction handles. -/
def eafSend (i : ℕ) : Option ℕ :=
  if cpOpAt mapped i ≠ Op.END_ASYNC_FOR then none
  else (code.info.exceptionTable.filter (·.handler.toNat = i)).findSome? fun h =>
    (List.range' h.start.toNat (min h.stop.toNat code.info.instructions.length - h.start.toNat)).find? fun k =>
      code.info.instructions[k]?.map Instruction.op = some .Send

/-- The instruction's index on the wire, where tails do not count. -/
def cpIndex (i : ℕ) : ℕ := ((List.range i).filter (!zeroWidth code ·)).length

def targetIdx (i : ℕ) : ℕ :=
  let delta := (code.info.instructions[i]?.map (·.arg.toNat)).getD 0
  min (if isBackwardJump (cpOpAt mapped i) then i + 1 - delta else i + 1 + delta) code.info.instructions.length

/-- Jumps are first sized as though their targets' indices were their arguments. -/
def seedExt : List ℕ :=
  mapped.mapIdx fun i m =>
    if zeroWidth code i then 0
    else if m.cpOp = Op.END_ASYNC_FOR then extCount ((eafSend code mapped i).elim 0 (cpIndex code)).toUInt32
    else if isRelJump m.cpOp then extCount (cpIndex code (targetIdx code mapped i)).toUInt32
    else extCount m.arg

/-- Widened arguments, the unit itself and its caches. -/
def unitsAt (ext : List ℕ) (i : ℕ) : ℕ := ext[i]?.getD 0 + 1 + cacheEntries (cpOpAt mapped i)

def startUnit (ext : List ℕ) (i : ℕ) : ℕ :=
  ((List.range i).map fun j => if zeroWidth code j then 0 else unitsAt mapped ext j).sum

/-- The argument of a jump where the units start as `ext` says. -/
def jumpArg (ext : List ℕ) (i : ℕ) : Option UInt32 :=
  let start := startUnit code mapped ext
  if cpOpAt mapped i = Op.END_ASYNC_FOR then
    let nextUnit := start i + ext[i]?.getD 0 + 1
    some ((eafSend code mapped i).elim 0 fun send => nextUnit - start send - END_SEND_OFFSET).toUInt32
  else if isRelJump (cpOpAt mapped i) = false ∨ zeroWidth code i = true then none
  else
    let nextUnit := start i + unitsAt mapped ext i
    let targetUnit := start (targetIdx code mapped i)
    some (if isBackwardJump (cpOpAt mapped i) then nextUnit - targetUnit else targetUnit - nextUnit).toUInt32

/-- Rounds until no jump changes its width. -/
def resolveJumps : ℕ → List ℕ → List UInt32 → List ℕ × List UInt32
  | 0, ext, args => (ext, args)
  | fuel + 1, ext, args =>
    let args' := args.mapIdx fun i arg => (jumpArg code mapped ext i).getD arg
    let ext' := ext.mapIdx fun i e => (jumpArg code mapped ext i).elim e extCount
    if ext' = ext then (ext, args') else resolveJumps fuel ext' args'

def emitUnits (m : MappedOp) (arg : UInt32) (ext : ℕ) : List UInt8 :=
  ((List.range' 1 ext).reverse.flatMap fun k => [Op.EXTENDED_ARG, ((arg >>> (8 * k).toUInt32) &&& 0xFF).toUInt8]) ++
    [m.cpOp, (arg &&& 0xFF).toUInt8] ++ (List.replicate (cacheEntries m.cpOp) [Op.CACHE, 0]).flatten

def emitCode (ext : List ℕ) (args : List UInt32) : List UInt8 :=
  (List.range code.info.instructions.length).flatMap fun i =>
    if zeroWidth code i then [] else emitUnits (mapped[i]?.getD ⟨Op.CACHE, 0⟩) (args[i]?.getD 0) (ext[i]?.getD 0)

/-- Consecutive instructions at one position, not yet written. -/
structure PendingRun where
  enc : LocationEncoder
  run : Option Position
  size : ℕ

def PendingRun.flush (s : PendingRun) : LocationEncoder := s.run.elim s.enc fun loc => s.enc.emitLocation loc s.size

def PendingRun.push (s : PendingRun) (pos : Position) (size : ℕ) : PendingRun :=
  if s.run = some pos then { s with size := s.size + size } else ⟨s.flush, some pos, size⟩

def encodeLinetable (ext : List ℕ) (firstlineno : UInt32) : List UInt8 :=
  ((List.range code.info.instructions.length).foldl (fun s i =>
    if zeroWidth code i then s else s.push (positionAt code i firstlineno) (unitsAt mapped ext i))
    ⟨⟨[], firstlineno.toInt32⟩, none, 0⟩ : PendingRun).flush.out

end Layout

/-- Of the code's wire form, what the locations need. -/
structure Wire where
  coCode : List UInt8
  coLinetable : List UInt8
  firstlineno : UInt32
  deriving DecidableEq

def encode (code : CodeObject FullInfo E) : Outcome Wire := do
  let mapped ← mappedOps code
  let (ext, args) := resolveJumps code mapped 16 (seedExt code mapped) (mapped.map MappedOp.arg)
  let firstlineno := codeFirstlineno code
  return ⟨emitCode code mapped ext args, encodeLinetable code mapped ext firstlineno, firstlineno⟩

end WeavePy.CpythonCode
