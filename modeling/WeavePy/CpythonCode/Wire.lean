import WeavePy.NativeCode.Format

/-!
CPython's opcodes, and the one that stands for each of the compiler's instructions.
-/

namespace WeavePy.CpythonCode

namespace Op

def CACHE : UInt8 := 0

def BINARY_SLICE : UInt8 := 1

def BUILD_TEMPLATE : UInt8 := 2

def CALL_FUNCTION_EX : UInt8 := 4

def CHECK_EG_MATCH : UInt8 := 5

def CHECK_EXC_MATCH : UInt8 := 6

def CLEANUP_THROW : UInt8 := 7

def DELETE_SUBSCR : UInt8 := 8

def END_FOR : UInt8 := 9

def END_SEND : UInt8 := 10

def FORMAT_SIMPLE : UInt8 := 12

def FORMAT_WITH_SPEC : UInt8 := 13

def GET_AITER : UInt8 := 14

def GET_ANEXT : UInt8 := 15

def GET_ITER : UInt8 := 16

def GET_LEN : UInt8 := 18

def GET_YIELD_FROM_ITER : UInt8 := 19

def LOAD_BUILD_CLASS : UInt8 := 21

def LOAD_LOCALS : UInt8 := 22

def MAKE_FUNCTION : UInt8 := 23

def MATCH_KEYS : UInt8 := 24

def MATCH_MAPPING : UInt8 := 25

def MATCH_SEQUENCE : UInt8 := 26

def NOP : UInt8 := 27

def NOT_TAKEN : UInt8 := 28

def POP_EXCEPT : UInt8 := 29

def POP_ITER : UInt8 := 30

def POP_TOP : UInt8 := 31

def PUSH_EXC_INFO : UInt8 := 32

def PUSH_NULL : UInt8 := 33

def RETURN_GENERATOR : UInt8 := 34

def RETURN_VALUE : UInt8 := 35

def SETUP_ANNOTATIONS : UInt8 := 36

def STORE_SLICE : UInt8 := 37

def STORE_SUBSCR : UInt8 := 38

def TO_BOOL : UInt8 := 39

def UNARY_INVERT : UInt8 := 40

def UNARY_NEGATIVE : UInt8 := 41

def UNARY_NOT : UInt8 := 42

def WITH_EXCEPT_START : UInt8 := 43

def BINARY_OP : UInt8 := 44

def BUILD_INTERPOLATION : UInt8 := 45

def BUILD_LIST : UInt8 := 46

def BUILD_MAP : UInt8 := 47

def BUILD_SET : UInt8 := 48

def BUILD_SLICE : UInt8 := 49

def BUILD_STRING : UInt8 := 50

def BUILD_TUPLE : UInt8 := 51

def CALL : UInt8 := 52

def CALL_INTRINSIC_1 : UInt8 := 53

def CALL_INTRINSIC_2 : UInt8 := 54

def CALL_KW : UInt8 := 55

def COMPARE_OP : UInt8 := 56

def CONTAINS_OP : UInt8 := 57

def CONVERT_VALUE : UInt8 := 58

def COPY : UInt8 := 59

def COPY_FREE_VARS : UInt8 := 60

def DELETE_ATTR : UInt8 := 61

def DELETE_DEREF : UInt8 := 62

def DELETE_FAST : UInt8 := 63

def DELETE_GLOBAL : UInt8 := 64

def DELETE_NAME : UInt8 := 65

def DICT_MERGE : UInt8 := 66

def DICT_UPDATE : UInt8 := 67

def END_ASYNC_FOR : UInt8 := 68

def EXTENDED_ARG : UInt8 := 69

def FOR_ITER : UInt8 := 70

def GET_AWAITABLE : UInt8 := 71

def IMPORT_FROM : UInt8 := 72

def IMPORT_NAME : UInt8 := 73

def IS_OP : UInt8 := 74

def JUMP_BACKWARD : UInt8 := 75

def JUMP_BACKWARD_NO_INTERRUPT : UInt8 := 76

def JUMP_FORWARD : UInt8 := 77

def LIST_APPEND : UInt8 := 78

def LIST_EXTEND : UInt8 := 79

def LOAD_ATTR : UInt8 := 80

def LOAD_COMMON_CONSTANT : UInt8 := 81

def LOAD_CONST : UInt8 := 82

def LOAD_DEREF : UInt8 := 83

def LOAD_FAST : UInt8 := 84

def LOAD_FAST_AND_CLEAR : UInt8 := 85

def LOAD_FAST_BORROW : UInt8 := 86

def LOAD_FAST_BORROW_LOAD_FAST_BORROW : UInt8 := 87

def LOAD_FAST_CHECK : UInt8 := 88

def LOAD_FAST_LOAD_FAST : UInt8 := 89

def LOAD_FROM_DICT_OR_DEREF : UInt8 := 90

def LOAD_FROM_DICT_OR_GLOBALS : UInt8 := 91

def LOAD_GLOBAL : UInt8 := 92

def LOAD_NAME : UInt8 := 93

def LOAD_SMALL_INT : UInt8 := 94

def LOAD_SPECIAL : UInt8 := 95

def LOAD_SUPER_ATTR : UInt8 := 96

def MAKE_CELL : UInt8 := 97

def MAP_ADD : UInt8 := 98

def MATCH_CLASS : UInt8 := 99

def POP_JUMP_IF_FALSE : UInt8 := 100

def POP_JUMP_IF_NONE : UInt8 := 101

def POP_JUMP_IF_NOT_NONE : UInt8 := 102

def POP_JUMP_IF_TRUE : UInt8 := 103

def RAISE_VARARGS : UInt8 := 104

def RERAISE : UInt8 := 105

def SEND : UInt8 := 106

def SET_ADD : UInt8 := 107

def SET_FUNCTION_ATTRIBUTE : UInt8 := 108

def SET_UPDATE : UInt8 := 109

def STORE_ATTR : UInt8 := 110

def STORE_DEREF : UInt8 := 111

def STORE_FAST : UInt8 := 112

def STORE_FAST_LOAD_FAST : UInt8 := 113

def STORE_FAST_STORE_FAST : UInt8 := 114

def STORE_GLOBAL : UInt8 := 115

def STORE_NAME : UInt8 := 116

def SWAP : UInt8 := 117

def UNPACK_EX : UInt8 := 118

def UNPACK_SEQUENCE : UInt8 := 119

def YIELD_VALUE : UInt8 := 120

def RESUME : UInt8 := 128

end Op

def NB_SUBSCR : UInt32 := 26

def NB_INPLACE_OFFSET : UInt32 := 13

def BINARY_OP_INPLACE_FLAG : UInt32 := 0x100

def COMPARE_OP_TO_BOOL_FLAG : UInt32 := 0x10

def INTRINSIC_IMPORT_STAR : UInt32 := 2

def INTRINSIC_STOPITERATION_ERROR : UInt32 := 3

def INTRINSIC_ASYNC_GEN_WRAP : UInt32 := 4

def INTRINSIC_UNARY_POSITIVE : UInt32 := 5

def INTRINSIC_LIST_TO_TUPLE : UInt32 := 6

def INTRINSIC_PREP_RERAISE_STAR : UInt32 := 1

def END_SEND_OFFSET : ℕ := 5

/-- How many `CACHE` units follow the opcode. -/
def cacheEntries (cpOp : UInt8) : ℕ :=
  if cpOp = Op.LOAD_ATTR then 9
  else if cpOp = Op.BINARY_OP then 5
  else if cpOp ∈ [Op.LOAD_GLOBAL, Op.STORE_ATTR] then 4
  else if cpOp ∈ [Op.CALL, Op.CALL_KW, Op.TO_BOOL] then 3
  else if cpOp ∈ [Op.UNPACK_SEQUENCE, Op.COMPARE_OP, Op.CONTAINS_OP, Op.FOR_ITER, Op.STORE_SUBSCR, Op.SEND,
    Op.JUMP_BACKWARD, Op.POP_JUMP_IF_TRUE, Op.POP_JUMP_IF_FALSE, Op.POP_JUMP_IF_NONE, Op.POP_JUMP_IF_NOT_NONE,
    Op.LOAD_SUPER_ATTR] then 1
  else 0

def isRelJump (cpOp : UInt8) : Bool :=
  cpOp ∈ [Op.FOR_ITER, Op.JUMP_BACKWARD, Op.JUMP_BACKWARD_NO_INTERRUPT, Op.JUMP_FORWARD, Op.POP_JUMP_IF_FALSE,
    Op.POP_JUMP_IF_TRUE, Op.POP_JUMP_IF_NONE, Op.POP_JUMP_IF_NOT_NONE, Op.SEND]

def isBackwardJump (cpOp : UInt8) : Bool := cpOp ∈ [Op.JUMP_BACKWARD, Op.JUMP_BACKWARD_NO_INTERRUPT]

/-- How many instructions a unit with this opcode and argument stands for. -/
def rawExpansion (cpOp : UInt8) (arg : UInt32) : ℕ :=
  if cpOp ∈ [Op.LOAD_FAST_LOAD_FAST, Op.LOAD_FAST_BORROW_LOAD_FAST_BORROW, Op.STORE_FAST_LOAD_FAST,
    Op.STORE_FAST_STORE_FAST] then 2
  else if cpOp = Op.LOAD_GLOBAL ∧ arg &&& 1 ≠ 0 then 2
  else 1

inductive BinOpKind where
  | Add | Sub | Mult | Div | FloorDiv | Mod | Pow | LShift | RShift | BitOr | BitXor | BitAnd | MatMult

def BinOpKind.fromArg (arg : UInt32) : Option BinOpKind :=
  [Add, Sub, Mult, Div, FloorDiv, Mod, Pow, LShift, RShift, BitOr, BitXor, BitAnd, MatMult][arg.toNat]?

def binopToNb : BinOpKind → UInt32
  | .Add => 0
  | .BitAnd => 1
  | .FloorDiv => 2
  | .LShift => 3
  | .MatMult => 4
  | .Mult => 5
  | .Mod => 6
  | .BitOr => 7
  | .Pow => 8
  | .RShift => 9
  | .Sub => 10
  | .Div => 11
  | .BitXor => 12

structure MappedOp where
  cpOp : UInt8
  arg : UInt32
  deriving DecidableEq

/-- Where the deref indices live among the locals on the wire. -/
structure DerefSlots where
  slots : List UInt32

/-- A cell that is also a local keeps its slot; `next` is the next fresh one. -/
def DerefSlots.cells (varnames : List String) : List String → UInt32 → List UInt32 × UInt32
  | [], next => ([], next)
  | c :: cellvars, next =>
    match varnames.idxOf? c with
    | some p =>
      let (rest, stop) := cells varnames cellvars next
      (p.toUInt32 :: rest, stop)
    | none =>
      let (rest, stop) := cells varnames cellvars (next + 1)
      (next :: rest, stop)

def DerefSlots.fromCode {L C W : Type} (code : NativeCode.Info L C W) : DerefSlots :=
  let (cells, next) := cells code.varnames code.cellvars code.varnames.length.toUInt32
  ⟨cells ++ (List.range code.freevars.length).map fun i => next + i.toUInt32⟩

def DerefSlots.slot (s : DerefSlots) (deref : UInt32) : UInt32 :=
  s.slots[deref.toNat]?.getD (s.slots.length.toUInt32 + deref)

/-- Pseudo-instructions have no opcode: they are lowered before. -/
def mapToCpython (ins : Instruction) (slots : DerefSlots) : Outcome MappedOp :=
  match ins.op with
  | .Nop => .ok ⟨Op.NOP, 0⟩
  | .Resume => .ok ⟨Op.RESUME, ins.arg⟩
  | .LoadConst => .ok ⟨Op.LOAD_CONST, ins.arg⟩
  | .LoadName => .ok ⟨Op.LOAD_NAME, ins.arg⟩
  | .LoadGlobal => .ok ⟨Op.LOAD_GLOBAL, ins.arg <<< 1⟩
  | .LoadFast => .ok ⟨Op.LOAD_FAST, ins.arg⟩
  | .LoadFastBorrow => .ok ⟨Op.LOAD_FAST_BORROW, ins.arg⟩
  | .LoadClosureBorrow => .ok ⟨Op.LOAD_FAST_BORROW, slots.slot ins.arg⟩
  | .LoadFastCheck => .ok ⟨Op.LOAD_FAST_CHECK, ins.arg⟩
  | .LoadFastLoadFast => .ok ⟨Op.LOAD_FAST_LOAD_FAST, ins.arg⟩
  | .LoadFastBorrowLoadFastBorrow => .ok ⟨Op.LOAD_FAST_BORROW_LOAD_FAST_BORROW, ins.arg⟩
  | .StoreFastLoadFast => .ok ⟨Op.STORE_FAST_LOAD_FAST, ins.arg⟩
  | .StoreFastStoreFast => .ok ⟨Op.STORE_FAST_STORE_FAST, ins.arg⟩
  | .LoadGlobalPushNull => .ok ⟨Op.LOAD_GLOBAL, (ins.arg <<< 1) ||| 1⟩
  | .LoadLocals => .ok ⟨Op.LOAD_LOCALS, 0⟩
  | .LoadFastAndClear => .ok ⟨Op.LOAD_FAST_AND_CLEAR, ins.arg⟩
  | .StoreFast => .ok ⟨Op.STORE_FAST, ins.arg⟩
  | .StoreGlobal => .ok ⟨Op.STORE_GLOBAL, ins.arg⟩
  | .StoreName => .ok ⟨Op.STORE_NAME, ins.arg⟩
  | .DeleteFast => .ok ⟨Op.DELETE_FAST, ins.arg⟩
  | .DeleteGlobal => .ok ⟨Op.DELETE_GLOBAL, ins.arg⟩
  | .DeleteName => .ok ⟨Op.DELETE_NAME, ins.arg⟩
  | .LoadDeref => .ok ⟨Op.LOAD_DEREF, slots.slot ins.arg⟩
  | .StoreDeref => .ok ⟨Op.STORE_DEREF, slots.slot ins.arg⟩
  | .DeleteDeref => .ok ⟨Op.DELETE_DEREF, slots.slot ins.arg⟩
  | .MakeCell => .ok ⟨Op.MAKE_CELL, slots.slot ins.arg⟩
  | .CopyFreeVars => .ok ⟨Op.COPY_FREE_VARS, ins.arg⟩
  | .LoadClosure => .ok ⟨Op.LOAD_FAST, slots.slot ins.arg⟩
  | .LoadAttr => .ok ⟨Op.LOAD_ATTR, ins.arg <<< 1⟩
  | .LoadMethodAttr => .ok ⟨Op.LOAD_ATTR, (ins.arg <<< 1) ||| 1⟩
  | .LoadSuperAttr => .ok ⟨Op.LOAD_SUPER_ATTR, ins.arg⟩
  | .PushNull => .ok ⟨Op.PUSH_NULL, 0⟩
  | .StoreAttr => .ok ⟨Op.STORE_ATTR, ins.arg⟩
  | .DeleteAttr => .ok ⟨Op.DELETE_ATTR, ins.arg⟩
  | .BinarySubscr => .ok ⟨Op.BINARY_OP, NB_SUBSCR⟩
  | .BinarySlice => .ok ⟨Op.BINARY_SLICE, 0⟩
  | .StoreSubscr => .ok ⟨Op.STORE_SUBSCR, 0⟩
  | .StoreSlice => .ok ⟨Op.STORE_SLICE, 0⟩
  | .DeleteSubscr => .ok ⟨Op.DELETE_SUBSCR, 0⟩
  | .BinaryOp =>
    let inplace := ins.arg &&& BINARY_OP_INPLACE_FLAG ≠ 0
    let nb := match BinOpKind.fromArg (ins.arg &&& 0xFF) with
      | none => ins.arg
      | some k => binopToNb k + if inplace then NB_INPLACE_OFFSET else 0
    .ok ⟨Op.BINARY_OP, nb⟩
  | .UnaryOp =>
    .ok (if ins.arg = 1 then ⟨Op.UNARY_NEGATIVE, 0⟩
      else if ins.arg = 2 then ⟨Op.UNARY_NOT, 0⟩
      else if ins.arg = 3 then ⟨Op.UNARY_INVERT, 0⟩
      else ⟨Op.CALL_INTRINSIC_1, INTRINSIC_UNARY_POSITIVE⟩)
  | .CompareOp =>
    let kind := ins.arg &&& ~~~COMPARE_OP_TO_BOOL_FLAG
    let toBool := ins.arg &&& COMPARE_OP_TO_BOOL_FLAG
    let mask : UInt32 := ([2, 2 ||| 8, 8, 1 ||| 2 ||| 4, 4, 4 ||| 8] : List UInt32)[kind.toNat]?.getD 0
    .ok ⟨Op.COMPARE_OP, (kind <<< 5) ||| toBool ||| mask⟩
  | .IsOp => .ok ⟨Op.IS_OP, ins.arg⟩
  | .ContainsOp => .ok ⟨Op.CONTAINS_OP, ins.arg⟩
  | .PopTop => .ok ⟨Op.POP_TOP, 0⟩
  | .CopyTop => .ok ⟨Op.COPY, max ins.arg 1⟩
  | .Swap => .ok ⟨Op.SWAP, ins.arg⟩
  | .Call => .ok ⟨Op.CALL, ins.arg⟩
  | .CallSelf => .ok ⟨Op.CALL, if ins.arg = 0 then 0 else ins.arg - 1⟩
  | .CallKw => .ok ⟨Op.CALL_KW, ins.arg⟩
  | .CallEx => .ok ⟨Op.CALL_FUNCTION_EX, 0⟩
  | .ReturnValue => .ok ⟨Op.RETURN_VALUE, 0⟩
  | .PopJumpIfFalse => .ok ⟨Op.POP_JUMP_IF_FALSE, ins.arg⟩
  | .PopJumpIfTrue => .ok ⟨Op.POP_JUMP_IF_TRUE, ins.arg⟩
  | .PopJumpIfNone => .ok ⟨Op.POP_JUMP_IF_NONE, ins.arg⟩
  | .PopJumpIfNotNone => .ok ⟨Op.POP_JUMP_IF_NOT_NONE, ins.arg⟩
  | .JumpForward => .ok ⟨Op.JUMP_FORWARD, ins.arg⟩
  | .JumpBackward => .ok ⟨Op.JUMP_BACKWARD, ins.arg⟩
  | .GetIter => .ok ⟨Op.GET_ITER, 0⟩
  | .ForIter => .ok ⟨Op.FOR_ITER, ins.arg⟩
  | .EndFor => .ok ⟨Op.END_FOR, 0⟩
  | .BuildList => .ok ⟨Op.BUILD_LIST, ins.arg⟩
  | .BuildTuple => .ok ⟨Op.BUILD_TUPLE, ins.arg⟩
  | .BuildSet => .ok ⟨Op.BUILD_SET, ins.arg⟩
  | .BuildMap => .ok ⟨Op.BUILD_MAP, ins.arg⟩
  | .BuildString => .ok ⟨Op.BUILD_STRING, ins.arg⟩
  | .ListAppend => .ok ⟨Op.LIST_APPEND, ins.arg⟩
  | .ListExtend => .ok ⟨Op.LIST_EXTEND, ins.arg⟩
  | .ListToTuple => .ok ⟨Op.CALL_INTRINSIC_1, INTRINSIC_LIST_TO_TUPLE⟩
  | .SetAdd => .ok ⟨Op.SET_ADD, ins.arg⟩
  | .SetUpdate => .ok ⟨Op.SET_UPDATE, ins.arg⟩
  | .MapAdd => .ok ⟨Op.MAP_ADD, ins.arg⟩
  | .UnpackSequence => .ok ⟨Op.UNPACK_SEQUENCE, ins.arg⟩
  | .UnpackEx => .ok ⟨Op.UNPACK_EX, ((ins.arg >>> 8) &&& (0xFF : UInt32)) ||| ((ins.arg &&& 0xFF) <<< 8)⟩
  | .DictUpdate =>
    .ok (if ins.arg &&& 1 ≠ 0 then ⟨Op.DICT_MERGE, (ins.arg >>> 1) + 1⟩ else ⟨Op.DICT_UPDATE, (ins.arg >>> 1) + 1⟩)
  | .SetupAnnotations => .ok ⟨Op.SETUP_ANNOTATIONS, 0⟩
  | .MakeFunction => .ok ⟨Op.MAKE_FUNCTION, ins.arg⟩
  | .SetFunctionAttribute => .ok ⟨Op.SET_FUNCTION_ATTRIBUTE, ins.arg⟩
  | .BuildSlice => .ok ⟨Op.BUILD_SLICE, ins.arg⟩
  | .LoadBuildClass => .ok ⟨Op.LOAD_BUILD_CLASS, 0⟩
  | .LoadClassdictOrDeref => .ok ⟨Op.LOAD_FROM_DICT_OR_DEREF, slots.slot ins.arg⟩
  | .LoadClassdictOrGlobal => .ok ⟨Op.LOAD_FROM_DICT_OR_GLOBALS, ins.arg⟩
  | .RaiseVarargs => .ok ⟨Op.RAISE_VARARGS, ins.arg⟩
  | .CheckExcMatch => .ok ⟨Op.CHECK_EXC_MATCH, 0⟩
  | .CheckEGMatch => .ok ⟨Op.CHECK_EG_MATCH, 0⟩
  | .PushExcInfo => .ok ⟨Op.PUSH_EXC_INFO, 0⟩
  | .PopExcept => .ok ⟨Op.POP_EXCEPT, 0⟩
  | .Reraise => .ok ⟨Op.RERAISE, ins.arg⟩
  | .LoadSpecial => .ok ⟨Op.LOAD_SPECIAL, ins.arg⟩
  | .LoadCommonConstant => .ok ⟨Op.LOAD_COMMON_CONSTANT, ins.arg⟩
  | .WithExceptStart => .ok ⟨Op.WITH_EXCEPT_START, 0⟩
  | .ImportName => .ok ⟨Op.IMPORT_NAME, ins.arg⟩
  | .ImportFrom => .ok ⟨Op.IMPORT_FROM, ins.arg⟩
  | .ImportStar => .ok ⟨Op.CALL_INTRINSIC_1, INTRINSIC_IMPORT_STAR⟩
  | .PrepReraiseStar => .ok ⟨Op.CALL_INTRINSIC_2, INTRINSIC_PREP_RERAISE_STAR⟩
  | .CleanupThrow => .ok ⟨Op.CLEANUP_THROW, 0⟩
  | .StopIterationError => .ok ⟨Op.CALL_INTRINSIC_1, INTRINSIC_STOPITERATION_ERROR⟩
  | .AsyncGenWrap => .ok ⟨Op.CALL_INTRINSIC_1, INTRINSIC_ASYNC_GEN_WRAP⟩
  | .CallIntrinsic1 => .ok ⟨Op.CALL_INTRINSIC_1, ins.arg⟩
  | .CallIntrinsic2 => .ok ⟨Op.CALL_INTRINSIC_2, ins.arg⟩
  | .BuildInterpolation => .ok ⟨Op.BUILD_INTERPOLATION, ins.arg⟩
  | .BuildTemplate => .ok ⟨Op.BUILD_TEMPLATE, 0⟩
  | .LoadSmallInt => .ok ⟨Op.LOAD_SMALL_INT, ins.arg⟩
  | .NotTaken => .ok ⟨Op.NOT_TAKEN, 0⟩
  | .PopIter => .ok ⟨Op.POP_ITER, 0⟩
  | .FormatValue => .ok (if ins.arg &&& 0x04 ≠ 0 then ⟨Op.FORMAT_WITH_SPEC, 0⟩ else ⟨Op.FORMAT_SIMPLE, 0⟩)
  | .ConvertValue => .ok ⟨Op.CONVERT_VALUE, ins.arg⟩
  | .ToBool => .ok ⟨Op.TO_BOOL, 0⟩
  | .YieldValue => .ok ⟨Op.YIELD_VALUE, ins.arg⟩
  | .GetYieldFromIter => .ok ⟨Op.GET_YIELD_FROM_ITER, 0⟩
  | .ReturnGenerator => .ok ⟨Op.RETURN_GENERATOR, 0⟩
  | .Send => .ok ⟨Op.SEND, ins.arg⟩
  | .EndSend => .ok ⟨Op.END_SEND, 0⟩
  | .GetAwaitable => .ok ⟨Op.GET_AWAITABLE, ins.arg⟩
  | .GetAiter => .ok ⟨Op.GET_AITER, 0⟩
  | .GetAnext => .ok ⟨Op.GET_ANEXT, 0⟩
  | .EndAsyncFor => .ok ⟨Op.END_ASYNC_FOR, 0⟩
  | .MatchSequence => .ok ⟨Op.MATCH_SEQUENCE, 0⟩
  | .MatchMapping => .ok ⟨Op.MATCH_MAPPING, 0⟩
  | .MatchClass => .ok ⟨Op.MATCH_CLASS, ins.arg⟩
  | .MatchKeys => .ok ⟨Op.MATCH_KEYS, 0⟩
  | .GetLen => .ok ⟨Op.GET_LEN, 0⟩
  | .PrintExpr => .ok ⟨Op.NOP, 0⟩
  | .Jump | .JumpNoInterrupt | .JumpIfFalse | .JumpIfTrue | .SetupFinally | .SetupCleanup | .SetupWith | .PopBlock
  | .StoreFastMaybeNull => .error .panic

/-- The forms that the flowgraph lowers are the last of the enumeration. -/
def isRuntime (op : OpCode) : Bool := op.ctorIdx < OpCode.LoadFastBorrow.ctorIdx

/-- The opcode of one instruction: neither a cache or a widened argument nor a fused pair. -/
structure MappedOp.Plain (m : MappedOp) : Prop where
  notCache : m.cpOp ≠ Op.CACHE
  notExtended : m.cpOp ≠ Op.EXTENDED_ARG
  notFused : m.cpOp ∉ [Op.LOAD_FAST_LOAD_FAST, Op.LOAD_FAST_BORROW_LOAD_FAST_BORROW, Op.STORE_FAST_LOAD_FAST,
    Op.STORE_FAST_STORE_FAST]
  notCallable : m.cpOp = Op.LOAD_GLOBAL → m.arg &&& 1 = 0

theorem MappedOp.plain {cpOp : UInt8} {arg : UInt32}
    (h : cpOp ∉ [Op.CACHE, Op.EXTENDED_ARG, Op.LOAD_GLOBAL, Op.LOAD_FAST_LOAD_FAST,
      Op.LOAD_FAST_BORROW_LOAD_FAST_BORROW, Op.STORE_FAST_LOAD_FAST, Op.STORE_FAST_STORE_FAST]) :
    MappedOp.Plain ⟨cpOp, arg⟩ := by
  simp only [List.mem_cons, List.not_mem_nil, or_false, not_or] at h
  obtain ⟨hcache, hextended, hglobal, hfused⟩ := h
  constructor
  · exact hcache
  · exact hextended
  · simpa using hfused
  · exact fun hg => absurd hg hglobal

theorem even_arg (arg : UInt32) : (arg <<< 1) &&& 1 = 0 := by
  apply UInt32.toNat_inj.mp
  rw [UInt32.toNat_and, UInt32.toNat_shiftLeft]
  change arg.toNat <<< 1 % 2 ^ 32 &&& 1 = 0
  rw [Nat.and_one_is_mod, Nat.shiftLeft_eq]
  omega

theorem odd_arg (arg : UInt32) : ((arg <<< 1) ||| 1) &&& 1 ≠ 0 := by
  intro h
  have h' := congrArg UInt32.toNat h
  rw [UInt32.toNat_and, UInt32.toNat_or] at h'
  change (_ ||| 1) &&& 1 = 0 at h'
  rw [Nat.and_or_distrib_right, Nat.or_eq_zero_iff] at h'
  exact absurd h'.2 (by decide)

theorem mapToCpython_runtime {ins : Instruction} (slots : DerefSlots) (h : isRuntime ins.op = true) :
    ∃ m, mapToCpython ins slots = .ok m ∧ m.Plain := by
  obtain ⟨op, arg⟩ := ins
  change isRuntime op = true at h
  cases op
  case LoadGlobal =>
    refine ⟨_, rfl, ?_⟩
    constructor
    · exact (by decide : Op.LOAD_GLOBAL ≠ Op.CACHE)
    · exact (by decide : Op.LOAD_GLOBAL ≠ Op.EXTENDED_ARG)
    · exact (by decide : Op.LOAD_GLOBAL ∉ [Op.LOAD_FAST_LOAD_FAST, Op.LOAD_FAST_BORROW_LOAD_FAST_BORROW,
        Op.STORE_FAST_LOAD_FAST, Op.STORE_FAST_STORE_FAST])
    · exact fun _ => even_arg arg
  case UnaryOp =>
    refine ⟨_, rfl, ?_⟩
    dsimp only
    split_ifs <;> exact MappedOp.plain (by decide)
  case DictUpdate =>
    refine ⟨_, rfl, ?_⟩
    dsimp only
    split_ifs <;> exact MappedOp.plain (by decide)
  case FormatValue =>
    refine ⟨_, rfl, ?_⟩
    dsimp only
    split_ifs <;> exact MappedOp.plain (by decide)
  all_goals first
    | exact ⟨_, rfl, MappedOp.plain (by decide)⟩
    | exact absurd h (by decide)

end WeavePy.CpythonCode
