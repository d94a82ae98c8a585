import WeavePy.Flowgraph.Blocks
import WeavePy.Lib.Rounds
import Mathlib.Algebra.BigOperators.Group.Finset.Basic
import Mathlib.Algebra.Order.BigOperators.Group.Finset

/-!
The pass that checks the loads of locals that may be unbound.
-/

namespace WeavePy.Flowgraph

open Rounds (Change)

/-- The first 64 locals that may be unbound. -/
abbrev Mask := BitVec 64

variable {n m : ℕ}

/-- The graph and the blocks to scan again, the next one first. -/
structure Scan (n m : ℕ) where
  cfg : Cfg n m
  sp : List (Fin n)

namespace Scan

def maybePush (S : Scan n m) (b : Fin n) (unsafeMask : Mask) : Scan n m :=
  let block := S.cfg.blocks b
  let both := block.unsafeLocalsMask ||| unsafeMask
  if block.unsafeLocalsMask ≠ both then
    ⟨S.cfg.update b ({ · with unsafeLocalsMask := both, visited := true }),
      if block.visited then S.sp else b :: S.sp⟩
  else S

def pushAll (S : Scan n m) (edges : List (Fin n × Mask)) : Scan n m :=
  edges.foldl (fun S e => S.maybePush e.1 e.2) S

end Scan

/-- An instruction reached with `unsafeMask`, and what may be unbound after it. -/
def scanInstr (unsafeMask : Mask) (instr : CfgInstr n m) : CfgInstr n m × Mask :=
  if 64 ≤ instr.arg.toNat then (instr, unsafeMask)
  else
    let bit := (1 : Mask) <<< instr.arg.toNat
    match instr.op with
    | .DeleteFast | .LoadFastAndClear | .StoreFastMaybeNull => (instr, unsafeMask ||| bit)
    | .StoreFast => (instr, unsafeMask &&& ~~~bit)
    | .LoadFastCheck => (instr, unsafeMask &&& ~~~bit)
    | .LoadFast =>
      (if unsafeMask &&& bit ≠ 0 then { instr with op := .LoadFastCheck } else instr,
        unsafeMask &&& ~~~bit)
    | _ => (instr, unsafeMask)

def scanInstrs : Mask → List (CfgInstr n m) → List (CfgInstr n m) × Mask
  | unsafeMask, [] => ([], unsafeMask)
  | unsafeMask, instr :: rest =>
    let r := scanInstr unsafeMask instr
    let s := scanInstrs r.2 rest
    (r.1 :: s.1, s.2)

/-- The handlers that cover an instruction are entered with what may be unbound before it. -/
def handlerEdges (cfg : Cfg n m) : Mask → List (CfgInstr n m) → List (Fin n × Mask)
  | _, [] => []
  | unsafeMask, instr :: rest =>
    (instr.except.map fun h => ((cfg.handlers h).block, unsafeMask)).toList ++
      handlerEdges cfg (scanInstr unsafeMask instr).2 rest

/-- Where control leaves the end of a block. -/
def Block.exits (block : Block n m) : List (Fin n) :=
  (if block.hasFallthrough then block.next.toList else []) ++
    match block.last with
    | some last => if isJump last.op then last.target.toList else []
    | none => []

def scanEdges (cfg : Cfg n m) (b : Fin n) : List (Fin n × Mask) :=
  let block := cfg.blocks b
  handlerEdges cfg block.unsafeLocalsMask block.instrs ++
    block.exits.map (·, (scanInstrs block.unsafeLocalsMask block.instrs).2)

/-- The scan writes instructions and pushes edges, and neither reads what the other wrote. -/
def scanBlockForLocals (S : Scan n m) (b : Fin n) : Scan n m :=
  { S with cfg := S.cfg.update b fun block =>
    { block with instrs := (scanInstrs block.unsafeLocalsMask block.instrs).1 } }.pushAll
      (scanEdges S.cfg b)

/-- One instruction of the block `blocknum`, with the last block known to bind each local past the
first 64. -/
def fastScanInstr (blocknum : ℤ) (states : List ℤ) (instr : CfgInstr n m) :
    CfgInstr n m × List ℤ :=
  if instr.arg.toNat < 64 then (instr, states)
  else
    let k := instr.arg.toNat - 64
    match states[k]? with
    | none => (instr, states)
    | some state =>
      match instr.op with
      | .DeleteFast | .LoadFastAndClear | .StoreFastMaybeNull =>
        (instr, states.set k (blocknum - 1))
      | .StoreFast => (instr, states.set k blocknum)
      | .LoadFast =>
        (if state ≠ blocknum then { instr with op := .LoadFastCheck } else instr,
          states.set k blocknum)
      | _ => (instr, states)

def fastScanInstrs (blocknum : ℤ) :
    List ℤ → List (CfgInstr n m) → List (CfgInstr n m) × List ℤ
  | states, [] => ([], states)
  | states, instr :: rest =>
    let r := fastScanInstr blocknum states instr
    let s := fastScanInstrs blocknum r.2 rest
    (r.1 :: s.1, s.2)

def fastScanBlocks : ℤ → List ℤ → Cfg n m → List (Fin n) → Cfg n m
  | _, _, cfg, [] => cfg
  | blocknum, states, cfg, b :: rest =>
    let r := fastScanInstrs (blocknum + 1) states (cfg.blocks b).instrs
    fastScanBlocks (blocknum + 1) r.2 (cfg.update b ({ · with instrs := r.1 })) rest

def fastScanManyLocals (cfg : Cfg n m) (nlocals : ℕ) : Outcome (Cfg n m) := do
  return fastScanBlocks 0 (List.replicate (nlocals - 64) 0) cfg (← cfg.chain)

/-- The masks have no bits for the locals past the first 64. -/
def scanPastMask (cfg : Cfg n m) (nlocals : ℕ) : Outcome (Cfg n m) :=
  if 64 < nlocals then fastScanManyLocals cfg nlocals else .ok cfg

/-- `while let Some(b) = sp.pop()` -/
def rescan : Change (Scan n m) Fault := fun S =>
  match S.sp with
  | [] => .ok (S, false)
  | b :: sp => .ok (scanBlockForLocals ⟨S.cfg.update b ({ · with visited := false }), sp⟩ b, true)

def startMask (nparams nlocals : ℕ) : Mask :=
  (List.range' nparams (nlocals - nparams)).foldl (fun mask i => mask ||| (1 : Mask) <<< i) 0

def addChecksForLoadsOfUninitializedVariables (fuel : ℕ) (cfg : Cfg n m) (nlocals nparams : ℕ) :
    Outcome (Cfg n m) :=
  if nlocals = 0 then .ok cfg
  else do
    let cfg ← (← scanPastMask cfg nlocals).clearVisited
    let S := (⟨cfg, []⟩ : Scan n m).maybePush cfg.entry (startMask nparams (min nlocals 64))
    let S := (← S.cfg.chain).foldl scanBlockForLocals S
    let S ← Rounds.rounds .diverge rescan fuel S
    return S.cfg

end WeavePy.Flowgraph
