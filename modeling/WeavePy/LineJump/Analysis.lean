import WeavePy.LineJump.KindStack
import WeavePy.Lib.Rounds
import WeavePy.NativeCode.Format

/-!
The analyses behind a frame jump, and the jump they allow.
-/

namespace WeavePy.LineJump

open NativeCode (FullInfo ExcHandler Scalar Constant)
open Rounds (Change still both sweep rounds)

abbrev Code := NativeCode.CodeObject FullInfo Empty

def Code.instructions (code : Code) : List Instruction := code.info.instructions

/-! Which `with` exits are bound. -/

/-- Bound nowhere yet: unreached. -/
def TOP : Word := BitVec.allOnes 64

def isExitSlot (name : String) : Bool :=
  ".with_exit".toList.isPrefixOf name.toList || ".aexit".toList.isPrefixOf name.toList

/-- Each name's bit from `nextBit` on; `none` when there is no bit left. -/
def slotBits : ℕ → List String → Option (List Word)
  | _, [] => some []
  | nextBit, name :: names =>
    if isExitSlot name then
      if 64 ≤ nextBit then none else (slotBits (nextBit + 1) names).map ((1 : Word) <<< nextBit :: ·)
    else (slotBits nextBit names).map (0 :: ·)

def meet (idx : ℕ) (v : Word) : Change (List Word) Fault := fun bound =>
  match bound[idx]? with
  | some b => .ok (if b &&& v = b then (bound, false) else (bound.set idx (b &&& v), true))
  | none => .ok (bound, false)

/-- Where an instruction that is reached with `cur` bound goes, and with what. -/
def exitEdges (slotBits : List Word) (ins : Instruction) (i : ℕ) (cur : Word) : List (ℕ × Word) :=
  let arg := ins.arg.toNat
  match ins.op with
  | .StoreFast => [(i + 1, cur ||| slotBits.getD arg 0)]
  | .DeleteFast => [(i + 1, cur &&& ~~~slotBits.getD arg 0)]
  | .PopJumpIfFalse | .PopJumpIfTrue | .PopJumpIfNone | .PopJumpIfNotNone | .ForIter | .Send =>
    [(i + 1 + arg, cur), (i + 1, cur)]
  | .JumpForward => [(i + 1 + arg, cur)]
  | .JumpBackward => [(i + 1 - arg, cur)]
  | .ReturnValue | .RaiseVarargs | .Reraise => []
  | _ => [(i + 1, cur)]

def exitStep (slotBits : List Word) (i : ℕ) (ins : Instruction) : Change (List Word) Fault :=
  fun bound =>
    let cur := bound.getD i TOP
    if cur = TOP then still bound
    else sweep ((exitEdges slotBits ins i cur).map fun e => meet e.1 e.2) bound

def exitHandlerStep (handler i : ℕ) : Change (List Word) Fault := fun bound =>
  let cur := bound.getD i TOP
  if cur = TOP then still bound else meet handler cur bound

/-- The instructions `h` covers. -/
def covered (n : ℕ) (h : ExcHandler) : List ℕ :=
  (List.range (min h.stop.toNat n)).filter (h.start.toNat ≤ ·)

def exitRound (code : Code) (slotBits : List Word) : Change (List Word) Fault :=
  both (sweep (code.instructions.zipIdx.map fun e => exitStep slotBits e.2 e.1))
    (sweep (code.info.exceptionTable.map fun h =>
      sweep ((covered code.instructions.length h).map (exitHandlerStep h.handler.toNat))))

def markBoundExits (fuel : ℕ) (code : Code) : Outcome (Option (List Word)) :=
  match slotBits 0 code.info.varnames with
  | none => .ok none
  | some bits =>
    if code.info.varnames.any isExitSlot then
      some <$> rounds .diverge (exitRound code bits) fuel
        (0 :: List.replicate code.instructions.length TOP)
    else .ok none

/-! Which instructions start a line. -/

def lineOf (code : Code) (i : ℕ) : ℤ := (code.info.linetable.getD i 0).toNat

def opAt (code : Code) (i : ℕ) : Option OpCode := code.instructions[i]?.map (·.op)

/-- The implicit `return None` copied after another block's end. -/
def isReturnStub (code : Code) (i : ℕ) : Bool :=
  0 < i ∧ opAt code i = some .LoadConst ∧ opAt code (i + 1) = some .ReturnValue ∧
    (opAt code (i - 1) = some .ReturnValue ∨ opAt code (i - 1) = some .Reraise)

def marklinesFrom (code : Code) : ℕ → List Instruction → ℤ → List ℤ
  | _, [], _ => []
  | i, _ :: rest, lastLine =>
    let line := lineOf code i
    if line ≠ 0 then
      (if line ≠ lastLine ∧ ¬isReturnStub code i then line else -1) ::
        marklinesFrom code (i + 1) rest line
    else -1 :: marklinesFrom code (i + 1) rest lastLine

def marklines (code : Code) : List ℤ := marklinesFrom code 0 code.instructions (-1)

/-! The kinds on the stack at every instruction. -/

/-- `a + b` on `u32`, in a build with or without overflow checks. -/
def addU32 (checks : Bool) (a b : ℕ) : Outcome ℕ :=
  if a + b < 2 ^ 32 then .ok (a + b) else if checks then .error .panic else .ok ((a + b) % 2 ^ 32)

def mulU32 (checks : Bool) (a b : ℕ) : Outcome ℕ :=
  if a * b < 2 ^ 32 then .ok (a * b) else if checks then .error .panic else .ok (a * b % 2 ^ 32)

def countOnes (n : ℕ) : ℕ := ((List.range 32).filter n.testBit).length

def callkwNamesLen (code : Code) (i : ℕ) : Option ℕ :=
  if i = 0 then none
  else match code.instructions[i - 1]? with
    | some ⟨.LoadConst, arg⟩ =>
      match code.constants[arg.toNat]? with
      | some (.tuple items) => some items.length
      | _ => none
    | _ => none

def plainEffect (checks : Bool) (code : Code) (i : ℕ) (ins : Instruction) :
    Outcome (Option (ℕ × ℕ)) :=
  let arg := ins.arg.toNat
  match ins.op with
  | .Nop | .Resume | .MakeCell | .CopyFreeVars | .SetupAnnotations => .ok (some (0, 0))
  | .EndFor => .ok (some (1, 0))
  | .SetFunctionAttribute => .ok (some (2, 1))
  | .ReturnGenerator => .ok (some (0, 1))
  | .CleanupThrow => .ok (some (3, 2))
  | .StopIterationError | .AsyncGenWrap | .CallIntrinsic1 => .ok (some (1, 1))
  | .CallIntrinsic2 => .ok (some (2, 1))
  | .BuildInterpolation => .ok (some (if arg % 2 ≠ 0 then 3 else 2, 1))
  | .BuildTemplate => .ok (some (2, 1))
  | .DeleteFast | .DeleteGlobal | .DeleteName | .DeleteDeref => .ok (some (0, 0))
  | .LoadConst | .LoadName | .LoadGlobal | .LoadFast | .LoadFastBorrow | .LoadFastCheck
  | .LoadFastAndClear | .LoadDeref | .LoadClosure | .LoadClosureBorrow | .LoadLocals
  | .LoadBuildClass | .LoadCommonConstant | .LoadSmallInt => .ok (some (0, 1))
  | .LoadFastLoadFast | .LoadFastBorrowLoadFastBorrow => .ok (some (0, 2))
  | .StoreFastLoadFast => .ok (some (1, 1))
  | .StoreFastStoreFast => .ok (some (2, 0))
  | .NotTaken => .ok (some (0, 0))
  | .PopIter => .ok (some (1, 0))
  | .BinarySlice => .ok (some (3, 1))
  | .StoreSlice => .ok (some (4, 0))
  | .StoreFast | .StoreGlobal | .StoreName | .StoreDeref => .ok (some (1, 0))
  | .LoadClassdictOrDeref | .LoadClassdictOrGlobal => .ok (some (1, 1))
  | .LoadAttr | .UnaryOp => .ok (some (1, 1))
  | .StoreAttr => .ok (some (2, 0))
  | .DeleteAttr => .ok (some (1, 0))
  | .BinarySubscr | .BinaryOp | .CompareOp | .IsOp | .ContainsOp => .ok (some (2, 1))
  | .StoreSubscr => .ok (some (3, 0))
  | .DeleteSubscr => .ok (some (2, 0))
  | .PopTop | .PrintExpr | .DictUpdate => .ok (some (1, 0))
  | .ImportStar => .ok (some (1, 1))
  | .Call => do return some (← addU32 checks arg 2, 1)
  | .CallSelf => do return some (← addU32 checks arg 1, 1)
  | .CallKw =>
    match callkwNamesLen code i with
    | none => .ok none
    | some kwc =>
      if kwc < 2 ^ 32 then do
        let both ← addU32 checks arg kwc
        return some (← addU32 checks both 3, 1)
      else .ok none
  | .CallEx => .ok (some (4, 1))
  | .BuildList | .BuildTuple | .BuildSet | .BuildString => .ok (some (arg, 1))
  | .BuildMap => do return some (← mulU32 checks 2 arg, 1)
  | .ListAppend | .ListExtend | .SetAdd | .SetUpdate => .ok (some (1, 0))
  | .ListToTuple => .ok (some (1, 1))
  | .MapAdd => .ok (some (2, 0))
  | .UnpackSequence => .ok (some (1, arg))
  | .UnpackEx => .ok (some (1, arg / 256 + 1 + arg % 256))
  | .MakeFunction => .ok (some (1 + countOnes (arg % 16), 1))
  | .BuildSlice => .ok (some (arg, 1))
  | .CheckExcMatch => .ok (some (1, 1))
  | .CheckEGMatch => .ok (some (2, 2))
  | .PrepReraiseStar => .ok (some (2, 1))
  | .ImportName => .ok (some (2, 1))
  | .ImportFrom => .ok (some (0, 1))
  | .FormatValue => .ok (some (if arg / 4 % 2 ≠ 0 then 2 else 1, 1))
  | .ConvertValue => .ok (some (1, 1))
  | .ToBool => .ok (some (1, 1))
  | .YieldValue => .ok (some (1, 1))
  | .EndSend => .ok (some (2, 1))
  | .GetAnext => .ok (some (0, 1))
  | .EndAsyncFor => .ok (some (2, 0))
  | .MatchSequence | .MatchMapping | .GetLen => .ok (some (0, 1))
  | .MatchClass => .ok (some (3, 1))
  | .MatchKeys => .ok (some (1, 1))
  | .PopJumpIfFalse | .PopJumpIfTrue | .PopJumpIfNone | .PopJumpIfNotNone | .JumpForward
  | .JumpBackward | .GetIter | .GetAiter | .GetYieldFromIter | .GetAwaitable | .ForIter | .Send
  | .CopyTop | .Swap | .PushNull | .LoadGlobalPushNull | .LoadSpecial | .LoadMethodAttr
  | .LoadSuperAttr | .PushExcInfo | .PopExcept | .WithExceptStart | .ReturnValue | .RaiseVarargs
  | .Reraise => .ok none
  | .Jump | .JumpNoInterrupt | .JumpIfFalse | .JumpIfTrue | .SetupFinally | .SetupCleanup
  | .SetupWith | .PopBlock | .StoreFastMaybeNull => .ok none

structure Marks where
  kindStacks : List Word
  excDepths : List ℤ

/-- The stack kept at an offset where `stack` arrives. -/
def mergeStack (old stack : Word) : Outcome Word :=
  if old = UNINITIALIZED then .ok stack
  else if old ≠ stack ∧ old ≠ OVERFLOWED then joinStacks old stack
  else .ok old

def merge (idx : ℕ) (stack : Word) (exc : ℤ) : Change Marks Fault := fun marks =>
  match marks.kindStacks[idx]?, marks.excDepths[idx]? with
  | some old, some depth => do
    let new ← mergeStack old stack
    let depth' := if depth = -1 then exc else depth
    return (⟨marks.kindStacks.set idx new, marks.excDepths.set idx depth'⟩,
      old = UNINITIALIZED ∨ new ≠ old ∨ depth = -1)
  | _, _ => .ok (marks, false)

/-- An arrival at an offset. -/
structure Edge where
  idx : ℕ
  stack : Word
  exc : ℤ

/-- Where an instruction that is reached with stack `cur` goes, and with what. -/
def transfer (checks : Bool) (code : Code) (i : ℕ) (ins : Instruction) (cur : Word) (exc : ℤ) :
    Outcome (List Edge) :=
  let arg := ins.arg.toNat
  match ins.op with
  | .PopJumpIfFalse | .PopJumpIfTrue | .PopJumpIfNone | .PopJumpIfNotNone =>
    .ok [⟨i + 1 + arg, popKind cur, exc⟩, ⟨i + 1, popKind cur, exc⟩]
  | .JumpForward => .ok [⟨i + 1 + arg, cur, exc⟩]
  | .JumpBackward => .ok [⟨i + 1 - arg, cur, exc⟩]
  | .GetIter | .GetAiter | .GetYieldFromIter | .GetAwaitable =>
    .ok [⟨i + 1, pushKind (popKind cur) .Iterator, exc⟩]
  | .ForIter => .ok [⟨i + 1, pushKind cur .Object, exc⟩, ⟨i + 1 + arg, pushKind cur .Object, exc⟩]
  | .Send => .ok [⟨i + 1 + arg, cur, exc⟩, ⟨i + 1, cur, exc⟩]
  | .CopyTop => .ok [⟨i + 1, pushKind cur (kindOf (topKind cur)), exc⟩]
  | .Swap => do return [⟨i + 1, ← swapKinds checks cur (max arg 2), exc⟩]
  | .PushNull => .ok [⟨i + 1, pushKind cur .Null, exc⟩]
  | .LoadGlobalPushNull => .ok [⟨i + 1, pushKind (pushKind cur .Object) .Null, exc⟩]
  | .LoadMethodAttr | .LoadSpecial =>
    .ok [⟨i + 1, pushKind (pushKind (popKind cur) .Object) .Null, exc⟩]
  | .LoadSuperAttr =>
    let after := pushKind (popKind (popKind (popKind cur))) .Object
    .ok [⟨i + 1, if arg % 2 ≠ 0 then pushKind after .Null else after, exc⟩]
  | .PushExcInfo =>
    .ok [⟨i + 1, pushKind (pushKind (popKind cur) .Except) (kindOf (topKind cur)), exc + 1⟩]
  | .PopExcept => .ok [⟨i + 1, popKind cur, max (exc - 1) 0⟩]
  | .WithExceptStart => .ok [⟨i + 1, pushKind cur .Object, exc⟩]
  | .ReturnValue | .RaiseVarargs | .Reraise => .ok []
  | _ => do
    match ← plainEffect checks code i ins with
    | some (pops, pushes) =>
      return [⟨i + 1, (pushKind · .Object)^[pushes] (popKind^[pops] cur), exc⟩]
    | none => return [⟨i + 1, OVERFLOWED, exc⟩]

def markStep (checks : Bool) (code : Code) (i : ℕ) (ins : Instruction) : Change Marks Fault :=
  fun marks =>
    let cur := marks.kindStacks.getD i UNINITIALIZED
    if cur = UNINITIALIZED then still marks
    else do
      let edges ← transfer checks code i ins cur (max (marks.excDepths.getD i (-1)) 0)
      sweep (edges.map fun e => merge e.idx e.stack e.exc) marks

/-- What a handler starts with: the protected stack cut to its depth, and the exception. -/
def handlerStack (checks : Bool) (h : ExcHandler) (start : Word) : Outcome Word := do
  let target ← popToLevel checks start h.depth.toNat
  return pushKind (if h.pushLasti then pushKind target .Lasti else target) .Except

def handlerStep (checks : Bool) (h : ExcHandler) : Change Marks Fault := fun marks =>
  let start := marks.kindStacks.getD h.start.toNat UNINITIALIZED
  if start ≠ UNINITIALIZED ∧ marks.kindStacks[h.handler.toNat]? = some UNINITIALIZED then do
    let target ← handlerStack checks h start
    return (⟨marks.kindStacks.set h.handler.toNat target, marks.excDepths.set h.handler.toNat
      (max (marks.excDepths.getD h.start.toNat (-1)) 0)⟩, true)
  else still marks

def markRound (checks : Bool) (code : Code) : Change Marks Fault :=
  both (sweep (code.instructions.zipIdx.map fun e => markStep checks code e.2 e.1))
    (sweep (code.info.exceptionTable.map (handlerStep checks)))

def markStart (code : Code) : Marks :=
  ⟨EMPTY_STACK :: List.replicate code.instructions.length UNINITIALIZED,
    0 :: List.replicate code.instructions.length (-1)⟩

def markStacks (checks : Bool) (fuel : ℕ) (code : Code) : Outcome Marks :=
  rounds .diverge (markRound checks code) fuel (markStart code)

/-! The jump. -/

structure PendingJump where
  targetPc : ℕ
  targetDepth : ℕ
  excPops : ℕ
  deriving DecidableEq

def explainIncompatibleStack (target : Word) : String :=
  if target = OVERFLOWED then "stack is too deep to analyze"
  else if target = UNINITIALIZED then
    "can't jump into an exception handler, or code may be unreachable"
  else if topKind target = Kind.Except.word then
    "can't jump into an 'except' block as there's no exception"
  else if topKind target = Kind.Iterator.word then "can't jump into the body of a for loop"
  else "incompatible stacks"

/-- Where the frame is: what is bound there, its stack and its exception depth. -/
structure Source where
  bound : Word
  stack : Word
  exc : ℤ

structure Best where
  stack : Word
  addr : Option ℕ
  errMsg : Option String

def Best.refuse (best : Best) (msg : String) : Best :=
  { best with errMsg := best.errMsg.or (some msg) }

/-- The target relies on no exit the source has not bound. -/
def exitsOk (boundExits : Option (List Word)) (bound : Word) (i : ℕ) : Bool :=
  match boundExits.bind (·[i]?) with
  | none => true
  | some tb => tb = TOP ∨ tb &&& ~~~bound = 0

def Best.accept (best : Best) (target : Word) (i : ℕ) : Best :=
  if best.addr = none ∨ best.stack.toInt < target.toInt then
    { best with stack := target, addr := some i }
  else best

def accepts (source : Source) (target : Word) (targetExc : ℤ) : Outcome Bool :=
  if targetExc ≤ source.exc then compatibleStack source.stack target else .ok false

def refusal (source : Source) (target : Word) (targetExc : ℤ) : String :=
  if source.stack = OVERFLOWED then "stack to deep to analyze"
  else if source.stack = UNINITIALIZED then "can't jump from unreachable code"
  else if source.exc < targetExc then "can't jump into an 'except' block as there's no exception"
  else explainIncompatibleStack target

def considerTarget (marks : Marks) (boundExits : Option (List Word)) (source : Source)
    (best : Best) (i : ℕ) : Outcome Best :=
  let target := marks.kindStacks.getD i UNINITIALIZED
  let targetExc := max (marks.excDepths.getD i (-1)) 0
  if exitsOk boundExits source.bound i then do
    let ok ← accepts source target targetExc
    return if ok then best.accept target i else best.refuse (refusal source target targetExc)
  else .ok (best.refuse "incompatible stacks")

def firstLineno (code : Code) : ℤ :=
  if code.header.name = "<module>" then 1
  else ((code.info.linetable.find? (0 < ·)).getD 1).toNat

/-- The starts of reached lines. -/
def reachedLines (code : Code) (marks : Marks) : List (ℤ × ℕ) :=
  (marklines code).zipIdx.filter fun e => marks.kindStacks.getD e.2 UNINITIALIZED ≠ UNINITIALIZED

/-- The least line from `newLineno` on, `none` when there is none. -/
def resolveLine (newLineno : ℤ) (lines : List (ℤ × ℕ)) : Option ℤ :=
  lines.foldl (fun resolved e =>
    if newLineno ≤ e.1 ∧ resolved.all (e.1 < ·) then some e.1 else resolved) none

def computeJump (checks : Bool) (fuel : ℕ) (code : Code) (curPc : ℕ) (newLineno : ℤ)
    (suspended : Bool) : Outcome (Except String (PendingJump × ℕ)) :=
  if newLineno < firstLineno code then
    .ok (.error s!"line {newLineno} comes before the current code block")
  else do
    let marks ← markStacks checks fuel code
    match resolveLine newLineno (reachedLines code marks) with
    | none => return .error s!"line {newLineno} comes after the current code block"
    | some resolved => do
      let boundExits ← markBoundExits fuel code
      let bound := (boundExits.bind (·[curPc]?)).getD 0
      let stack := marks.kindStacks.getD curPc UNINITIALIZED
      let source : Source := ⟨bound, if suspended then popKind stack else stack,
        max (marks.excDepths.getD curPc (-1)) 0⟩
      let targets := (reachedLines code marks).filter (·.1 = resolved)
      let best ← targets.foldlM (fun best e => considerTarget marks boundExits source best e.2)
        ⟨OVERFLOWED, none, none⟩
      match best.addr with
      | none => return .error (best.errMsg.getD "cannot find bytecode for specified line")
      | some addr =>
        let targetExc := max (marks.excDepths.getD addr (-1)) 0
        return .ok (⟨addr, ← stackDepth best.stack, (source.exc - targetExc).toNat⟩,
          resolved.toNat)

end WeavePy.LineJump
