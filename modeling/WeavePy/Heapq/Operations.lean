import Mathlib.Data.List.Basic
import WeavePy.Lib.Hoare
import WeavePy.Rust

/-!
The heap operations, over comparisons that run any code.
-/

namespace WeavePy.Heapq

inductive HeapError (ε : Type) where
  | index (message : String)
  | runtime (message : String)
  | raised (e : ε)

/-- The list, and whatever else comparisons read and write. -/
structure Heap (α σ : Type) where
  list : List α
  world : σ

abbrev Comparison (α σ ε : Type) := α → α → Heap α σ → Except ε Bool × Heap α σ

abbrev Heaper (α σ ε β : Type) := Prog Fault (Heap α σ) (HeapError ε) β

variable {α σ ε : Type}

section Steps

def size : Heaper α σ ε ℕ := Prog.gets fun s => s.list.length

def push (item : α) : Heaper α σ ε Unit := Prog.modify fun s => { s with list := s.list ++ [item] }

def pop : Heaper α σ ε α := fun s =>
  match s.list.getLast? with
  | none => .ok (.error (.index "index out of range"), s)
  | some x => .ok (.ok x, { s with list := s.list.dropLast })

/-- `std::mem::replace(&mut h[0], item)` -/
def replaceRoot (item : α) : Heaper α σ ε α := fun s =>
  match s.list with
  | [] => .error .panic
  | x :: rest => .ok (.ok x, { s with list := item :: rest })

def swap (i j : ℕ) : Heaper α σ ε Unit := fun s =>
  if i < s.list.length ∧ j < s.list.length then .ok (.ok (), { s with list := s.list.swap i j }) else .error .panic

def checkSize (expected : ℕ) : Heaper α σ ε Unit := do
  let n ← size
  if n ≠ expected then Prog.raise (.runtime "list changed size during iteration") else pure ()

end Steps

variable (cmp : Comparison α σ ε) (maxHeap : Bool)

def opLt (a b : α) : Heaper α σ ε Bool := fun s => .ok ((cmp a b s).1.mapError .raised, (cmp a b s).2)

/-- `heap[i] < heap[j]` -/
def heapLt (i j : ℕ) : Heaper α σ ε Bool := fun s =>
  match s.list[i]?, s.list[j]? with
  | some a, some b => opLt cmp a b s
  | _, _ => .error .panic

/-- The comparison of `heap[i]` with `heap[j]`, turned round for a max-heap. -/
def heapLtIn (i j : ℕ) : Heaper α σ ε Bool := if maxHeap then heapLt cmp j i else heapLt cmp i j

def opLtIn (a b : α) : Heaper α σ ε Bool := if maxHeap then opLt cmp b a else opLt cmp a b

def siftdownStep (startpos size pos : ℕ) : Heaper α σ ε (Step ℕ Unit) :=
  if startpos < pos then do
    let parentpos := (pos - 1) >>> 1
    let lt ← heapLtIn cmp maxHeap pos parentpos
    checkSize size
    if !lt then pure (.done ())
    else do
      swap pos parentpos
      pure (.next parentpos)
  else pure (.done ())

/-- Towards the root. -/
def siftdown (startpos pos : ℕ) : Heaper α σ ε Unit := do
  let n ← size
  if n ≤ pos then Prog.raise (.index "index out of range")
  else Prog.loop .diverge (pos + 1) (siftdownStep cmp maxHeap startpos n) pos

/-- The child to move up: ties go right. -/
def chooseChild (endpos childpos : ℕ) : Heaper α σ ε ℕ :=
  if childpos + 1 < endpos then do
    let lt ← heapLtIn cmp maxHeap childpos (childpos + 1)
    checkSize endpos
    pure (childpos + if !lt then 1 else 0)
  else pure childpos

def siftupStep (endpos pos : ℕ) : Heaper α σ ε (Step ℕ ℕ) :=
  if pos < endpos >>> 1 then do
    let childpos ← chooseChild cmp maxHeap endpos (2 * pos + 1)
    swap pos childpos
    pure (.next childpos)
  else pure (.done pos)

/-- Towards the leaves, and back up. -/
def siftup (pos : ℕ) : Heaper α σ ε Unit := do
  let endpos ← size
  if endpos ≤ pos then Prog.raise (.index "index out of range")
  else do
    let leaf ← Prog.loop .diverge (endpos + 1) (siftupStep cmp maxHeap endpos) pos
    siftdown cmp maxHeap pos leaf

def heappush (item : α) : Heaper α σ ε Unit := do
  push item
  let n ← size
  siftdown cmp maxHeap 0 (n - 1)

def heappop : Heaper α σ ε α := do
  let lastelt ← pop
  let n ← size
  if n = 0 then pure lastelt
  else do
    let returnitem ← replaceRoot lastelt
    siftup cmp maxHeap 0
    pure returnitem

def heapreplace (item : α) : Heaper α σ ε α := do
  let n ← size
  if n = 0 then Prog.raise (.index "index out of range")
  else do
    let returnitem ← replaceRoot item
    siftup cmp maxHeap 0
    pure returnitem

/-- What follows the comparison with the root. -/
def replaceIf (item : α) (replace : Bool) : Heaper α σ ε α :=
  if !replace then pure item
  else do
    let n ← size
    if n = 0 then Prog.raise (.index "list index out of range")
    else do
      let returnitem ← replaceRoot item
      siftup cmp maxHeap 0
      pure returnitem

def heappushpop (item : α) : Heaper α σ ε α := do
  let top ← Prog.gets fun s => s.list.head?
  match top with
  | none => pure item
  | some top => do
    let replace ← opLtIn cmp maxHeap top item
    replaceIf cmp maxHeap item replace

/-- `siftup` at `i - 1`, and so on down to 0. -/
def siftAll : ℕ → Heaper α σ ε Unit
  | 0 => pure ()
  | i + 1 => do
    siftup cmp maxHeap i
    siftAll i

def heapify : Heaper α σ ε Unit := do
  let n ← size
  siftAll cmp maxHeap (n / 2)

end WeavePy.Heapq
