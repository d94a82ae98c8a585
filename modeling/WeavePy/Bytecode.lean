import Mathlib.Data.Int.Basic

/-!
The compiler's instructions.
-/

namespace WeavePy

/-- Numbered from zero in this order. -/
inductive OpCode where
  | Nop | Resume | LoadConst | LoadName | LoadGlobal | LoadFast | LoadFastAndClear | StoreFast | StoreGlobal
  | StoreName | DeleteFast | DeleteGlobal | DeleteName | LoadDeref | StoreDeref | MakeCell | LoadClosure
  | CopyFreeVars | PushNull | LoadAttr | LoadMethodAttr | LoadSuperAttr | StoreAttr | DeleteAttr | BinarySubscr
  | StoreSubscr | DeleteSubscr | BinaryOp | UnaryOp | CompareOp | IsOp | ContainsOp | PopTop | CopyTop | Swap
  | Call | CallSelf | CallKw | CallEx | ReturnValue | PopJumpIfFalse | PopJumpIfTrue | PopJumpIfNone
  | PopJumpIfNotNone | JumpForward | JumpBackward | GetIter | ForIter | EndFor | BuildList | BuildTuple
  | BuildSet | BuildMap | BuildString | ListAppend | ListExtend | ListToTuple | SetAdd | SetUpdate | MapAdd
  | UnpackSequence | UnpackEx | DictUpdate | SetupAnnotations | MakeFunction | SetFunctionAttribute
  | BuildSlice | LoadBuildClass | LoadLocals | LoadClassdictOrDeref | LoadClassdictOrGlobal | RaiseVarargs
  | CheckExcMatch | CheckEGMatch | PushExcInfo | PopExcept | Reraise | PrepReraiseStar | LoadCommonConstant
  | LoadSpecial | WithExceptStart | ImportName | ImportFrom | ImportStar | FormatValue | ConvertValue | ToBool
  | YieldValue | GetYieldFromIter | ReturnGenerator | Send | EndSend | GetAwaitable | GetAiter | GetAnext
  | EndAsyncFor | MatchSequence | MatchMapping | MatchClass | MatchKeys | GetLen | PrintExpr | DeleteDeref
  | CleanupThrow | StopIterationError | AsyncGenWrap | CallIntrinsic1 | CallIntrinsic2 | BuildInterpolation
  | BuildTemplate | LoadSmallInt | NotTaken | PopIter | BinarySlice | StoreSlice | LoadFastBorrow
  | LoadFastCheck | LoadGlobalPushNull | LoadFastLoadFast | LoadFastBorrowLoadFastBorrow | LoadClosureBorrow
  | StoreFastLoadFast | StoreFastStoreFast | Jump | JumpNoInterrupt | JumpIfFalse | JumpIfTrue | SetupFinally
  | SetupCleanup | SetupWith | PopBlock | StoreFastMaybeNull
  deriving DecidableEq

structure Instruction where
  op : OpCode
  arg : UInt32
  deriving DecidableEq

/-- The opcode numbered `b`, if there is one. -/
def OpCode.fromU8 (b : UInt8) : Option OpCode :=
  if b.toNat ≤ OpCode.StoreFastMaybeNull.ctorIdx then some (OpCode.ofNat b.toNat) else none

/-- `op as u8`. -/
def OpCode.toU8 (op : OpCode) : UInt8 := op.ctorIdx.toUInt8

@[simp]
theorem OpCode.fromU8_toU8 (op : OpCode) : OpCode.fromU8 op.toU8 = some op := by
  cases op <;> rfl

end WeavePy
