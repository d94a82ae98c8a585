import WeavePy.NativeCode.Format
import Mathlib.Logic.Function.Basic

/-!
The optimizer's graph of basic blocks.
-/

namespace WeavePy.Flowgraph

open NativeCode (ColSpan)

/-- A negative line is no location. -/
structure Loc where
  line : ℤ
  col : ColSpan
  deriving DecidableEq

def NO_LOCATION : Loc := ⟨-1, ColSpan.default⟩

/-- An instruction of a graph with `n` blocks and `m` handlers. -/
structure CfgInstr (n m : ℕ) where
  op : OpCode
  arg : UInt32
  loc : Loc
  target : Option (Fin n)
  except : Option (Fin m)
  deriving DecidableEq

structure HandlerInfo (n : ℕ) where
  block : Fin n
  depth : UInt32
  lasti : Bool

/-- The slots in use, and the ones past them with what they still hold. -/
structure Block (n m : ℕ) where
  instrs : List (CfgInstr n m)
  stale : List (CfgInstr n m)
  next : Option (Fin n)
  label : Bool
  predecessors : ℤ
  visited : Bool
  unsafeLocalsMask : BitVec 64

structure Cfg (n m : ℕ) where
  blocks : Fin n → Block n m
  entry : Fin n
  handlers : Fin m → HandlerInfo n

def isJump : OpCode → Bool
  | .Jump | .JumpNoInterrupt | .JumpIfFalse | .JumpIfTrue | .JumpForward | .JumpBackward
  | .PopJumpIfFalse | .PopJumpIfTrue | .PopJumpIfNone | .PopJumpIfNotNone | .ForIter | .Send
  | .EndAsyncFor => true
  | _ => false

def isBlockPush : OpCode → Bool
  | .SetupFinally | .SetupCleanup | .SetupWith => true
  | _ => false

def isScopeExit : OpCode → Bool
  | .ReturnValue | .RaiseVarargs | .Reraise => true
  | _ => false

def isUnconditionalJump : OpCode → Bool
  | .Jump | .JumpNoInterrupt | .JumpForward | .JumpBackward => true
  | _ => false

variable {n m : ℕ}

/-- `INSTR_SET_OP0(i, NOP)`. -/
def setNop (i : CfgInstr n m) : CfgInstr n m := { i with op := .Nop, arg := 0 }

def Block.last (b : Block n m) : Option (CfgInstr n m) := b.instrs.getLast?

def Block.noFallthrough (b : Block n m) : Bool :=
  b.last.any fun l => isScopeExit l.op || isUnconditionalJump l.op

def Block.hasFallthrough (b : Block n m) : Bool := !b.noFallthrough

namespace Cfg

/-- What the passes do to one block. -/
def update (cfg : Cfg n m) (b : Fin n) (f : Block n m → Block n m) : Cfg n m :=
  { cfg with blocks := Function.update cfg.blocks b (f (cfg.blocks b)) }

def chainFrom (cfg : Cfg n m) : ℕ → Option (Fin n) → Outcome (List (Fin n))
  | 0, _ => .error .diverge
  | _ + 1, none => .ok []
  | k + 1, some b => do return b :: (← cfg.chainFrom k (cfg.blocks b).next)

/-- The blocks along `next`. A walk over more blocks than there are never ends. -/
def chain (cfg : Cfg n m) : Outcome (List (Fin n)) := cfg.chainFrom (n + 1) (some cfg.entry)

def clearVisited (cfg : Cfg n m) : Outcome (Cfg n m) := do
  return (← cfg.chain).foldl (fun cfg b => cfg.update b ({ · with visited := false })) cfg

variable {cfg cfg' : Cfg n m} {b c : Fin n} {f : Block n m → Block n m}

@[simp] theorem update_entry : (cfg.update b f).entry = cfg.entry := rfl

@[simp] theorem update_handlers : (cfg.update b f).handlers = cfg.handlers := rfl

@[simp] theorem update_self : (cfg.update b f).blocks b = f (cfg.blocks b) :=
  Function.update_self _ _ _

@[simp] theorem update_of_ne (h : c ≠ b) : (cfg.update b f).blocks c = cfg.blocks c :=
  Function.update_of_ne h _ _

theorem chainFrom_congr (h : ∀ b, (cfg'.blocks b).next = (cfg.blocks b).next) (k : ℕ)
    (o : Option (Fin n)) : cfg'.chainFrom k o = cfg.chainFrom k o := by
  induction k generalizing o with
  | zero => rfl
  | succ k ih =>
    cases o with
    | none => rfl
    | some b => rw [chainFrom, chainFrom, h, ih]

theorem chainFrom_ok {k : ℕ} {o : Option (Fin n)} {blocks : List (Fin n)}
    (h : cfg.chainFrom k o = .ok blocks) :
    (∀ b, o = some b → b ∈ blocks) ∧
      ∀ b ∈ blocks, ∀ t, (cfg.blocks b).next = some t → t ∈ blocks := by
  induction k generalizing o blocks with
  | zero => cases h
  | succ k ih =>
    cases o with
    | none =>
      obtain rfl := Except.ok.inj h
      exact ⟨by simp, by simp⟩
    | some b =>
      obtain ⟨rest, hrest, h⟩ := bind_eq_ok.mp h
      obtain rfl := Except.ok.inj h
      obtain ⟨hfirst, hclosed⟩ := ih hrest
      constructor
      · intro c hc
        obtain rfl := Option.some.inj hc
        exact List.mem_cons_self
      · intro c hc t ht
        rcases List.mem_cons.mp hc with rfl | hc
        · exact List.mem_cons_of_mem _ (hfirst t ht)
        · exact List.mem_cons_of_mem _ (hclosed c hc t ht)

end Cfg

end WeavePy.Flowgraph
