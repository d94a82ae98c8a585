import Mathlib.Algebra.Ring.Int.Defs
import Mathlib.Algebra.Ring.Nat
import Mathlib.Data.Int.Basic
import WeavePy.Rust

/-!
The native operations of `_collections.deque`: a backing list with a dead prefix, each operation
with its unguarded fast path and its locked path.
-/

namespace WeavePy.Deque

inductive PyError where
  | typeError (msg : String)
  | indexError (msg : String)
  | runtimeError (msg : String)
  | stopIteration
  deriving DecidableEq, Repr

/-- What an operation returns to Python; `iter` names a new iterator. -/
inductive Value (Obj : Type) where
  | none
  | elem (x : Obj)
  | int (n : ℤ)
  | bool (b : Bool)
  | iter (k : ℕ)
  deriving DecidableEq, Repr

/-- The slots of a deque. Its `_maxlen` is `None` or an `int`; one past the machine ints, which no
list reaches, bounds nothing. -/
structure DequeState (Obj : Type) where
  data : List Obj
  head : ℤ
  maxlen : Option ℤ
  state : Int64
  deriving DecidableEq, Repr

/-- The slots of an iterator: whether `_deq` still holds the deque, `_index` and `_deq_state`. -/
structure Iter where
  live : Bool
  index : ℤ
  deqState : Int64
  reverse : Bool
  deriving DecidableEq, Repr

/-- The subtraction of two `usize` that the code takes not to wrap. -/
def usub (a b : ℕ) : Outcome ℕ := if b ≤ a then pure (a - b) else .error .panic

/-- `slice::swap`. -/
def swap {α : Type} (l : List α) (a b : ℕ) : Outcome (List α) := do
  let x ← index l a
  let y ← index l b
  let l ← setIndex l a y
  setIndex l b x

/-- `for i in 0..n { d.swap(a + i, b + i) }`. -/
def swapEach {α : Type} (d : List α) (a b : ℕ) : ℕ → Outcome (List α)
  | 0 => pure d
  | n + 1 => do
    let d ← swap d a b
    swapEach d (a + 1) (b + 1) n

/-- `for i in 0..n { d.push(std::mem::replace(&mut d[i + h], Object::None)) }`. -/
def moveEach {α : Type} [Inhabited α] (d : List α) (h : ℕ) : ℕ → Outcome (List α)
  | 0 => pure d
  | n + 1 => do
    let x ← index d h
    let d ← setIndex d h default
    moveEach (d ++ [x]) (h + 1) n

namespace DequeState

variable {Obj : Type} [Inhabited Obj]

def empty (maxlen : Option ℤ) : DequeState Obj := ⟨[], 0, maxlen, 0⟩

/-- `head()`, which reads a negative `_head` as `0`. -/
def headOf (q : DequeState Obj) : ℕ := q.head.toNat

def setHead (q : DequeState Obj) (h : ℕ) : DequeState Obj := { q with head := h }

def maxlenOf (q : DequeState Obj) : Option ℕ :=
  match q.maxlen with
  | some m => if 0 ≤ m then some m.toNat else none
  | none => none

/-- The counter wraps. -/
def bumpState (q : DequeState Obj) : DequeState Obj := { q with state := q.state + 1 }

/-- What both `popleft`s do: take the item at the head and give back a long dead prefix. -/
def takeLeft (q : DequeState Obj) : Outcome (Option (Obj × DequeState Obj)) :=
  let h := q.headOf
  if h ≥ q.data.length then pure none
  else do
    let x ← index q.data h
    let d ← setIndex q.data h default
    let h := h + 1
    let q := q.bumpState
    if h ≥ d.length then pure (some (x, { q with data := [] }.setHead 0))
    else if h ≥ 32 ∧ h * 2 ≥ d.length then pure (some (x, { q with data := d.drop h }.setHead 0))
    else pure (some (x, { q with data := d }.setHead h))

/-- What both `appendleft`s do from head `h`: write in the dead prefix, made when there is none. -/
def putLeft (q : DequeState Obj) (h : ℕ) (x : Obj) : Outcome (DequeState Obj) := do
  let (q, h) :=
    if h = 0 then
      let h := max 8 (q.data.length / 2)
      ({ q with data := List.replicate h default ++ q.data }, h)
    else (q, h)
  let h ← usub h 1
  let d ← setIndex q.data h x
  let q := { q with data := d }.setHead h
  match q.maxlenOf with
  | some m =>
    if (← usub q.data.length h) > m then pure { q with data := q.data.dropLast } else pure q
  | none => pure q

namespace Fast

def popleft (q : DequeState Obj) : Outcome (Option (Obj × DequeState Obj)) := q.takeLeft

def append (q : DequeState Obj) (x : Obj) : Outcome (DequeState Obj) := do
  let q := q.bumpState
  let q := { q with data := q.data ++ [x] }
  match q.maxlenOf with
  | some m =>
    if (← usub q.data.length q.headOf) > m then
      match ← popleft q with
      | some (_, q) => pure q
      | none => pure q
    else pure q
  | none => pure q

def appendleft (q : DequeState Obj) (x : Obj) : Outcome (DequeState Obj) :=
  let q := q.bumpState
  q.putLeft (min q.headOf q.data.length) x

/-- An emptied deque keeps a short dead prefix. -/
def pop (q : DequeState Obj) : Outcome (Option (Obj × DequeState Obj)) :=
  let h := q.headOf
  if q.data.length ≤ h then pure none
  else
    let q := q.bumpState
    match q.data.getLast? with
    | none => .error .panic
    | some x =>
      let q := { q with data := q.data.dropLast }
      if q.data.length = h ∧ h > 32 then pure (some (x, { q with data := [] }.setHead 0))
      else pure (some (x, q))

def getitem (q : DequeState Obj) (i : ℤ) : Outcome (Option Obj) :=
  let h := q.headOf
  let n : ℤ := (q.data.length - h : ℕ)
  let index := if i < 0 then i + n else i
  if 0 ≤ index ∧ index < n then do
    let x ← WeavePy.index q.data (h + index.toNat)
    pure (some x)
  else pure none

end Fast

def popleftLocked (q : DequeState Obj) : Outcome (Except PyError (Obj × DequeState Obj)) := do
  match ← q.takeLeft with
  | some r => pure (.ok r)
  | none => pure (.error (.indexError "pop from an empty deque"))

def append (q : DequeState Obj) (x : Obj) : Outcome (Except PyError (DequeState Obj)) := do
  let q := q.bumpState
  let q := { q with data := q.data ++ [x] }
  match q.maxlenOf with
  | some m =>
    if (← usub q.data.length q.headOf) > m then
      match ← q.popleftLocked with
      | .ok (_, q) => pure (.ok q)
      | .error e => pure (.error e)
    else pure (.ok q)
  | none => pure (.ok q)

def appendleft (q : DequeState Obj) (x : Obj) : Outcome (DequeState Obj) :=
  let q := q.bumpState
  q.putLeft q.headOf x

def pop (q : DequeState Obj) : Outcome (Except PyError (Obj × DequeState Obj)) :=
  let h := q.headOf
  if q.data.length ≤ h then pure (.error (.indexError "pop from an empty deque"))
  else
    let q := q.bumpState
    match q.data.getLast? with
    | none => .error .panic
    | some x =>
      let q := { q with data := q.data.dropLast }
      if q.data.length = h ∧ h ≠ 0 then pure (.ok (x, { q with data := [] }.setHead 0))
      else pure (.ok (x, q))

def len (q : DequeState Obj) : ℤ := (q.data.length - q.headOf : ℕ)

def bool (q : DequeState Obj) : Bool := q.data.length > q.headOf

def getitem (q : DequeState Obj) (i : ℤ) : Outcome (Except PyError Obj) :=
  if -2 ^ 63 ≤ i ∧ i < 2 ^ 63 then
    let h := q.headOf
    let n : ℤ := (q.data.length - h : ℕ)
    let index := if i < 0 then i + n else i
    if index < 0 ∨ index ≥ n then pure (.error (.indexError "deque index out of range"))
    else do
      let x ← WeavePy.index q.data (h + index.toNat)
      pure (.ok x)
  else pure (.error (.indexError "deque index out of range"))

def rotate (q : DequeState Obj) (n : Int64) : Outcome (DequeState Obj) :=
  let h := min q.headOf q.data.length
  let len := q.data.length - h
  if len ≤ 1 then pure q
  else
    let q := q.bumpState
    let right := (n.toInt % len).toNat
    if right = 0 then pure q
    else if right ≤ len / 2 then do
      let slack := max (max right (len / 2)) 8
      let (d, h) :=
        if h < right then (List.replicate slack default ++ q.data, h + slack) else (q.data, h)
      let at_ ← usub h right
      let end_ ← usub d.length right
      let d ← swapEach d at_ end_ right
      pure ({ q with data := d.take end_ }.setHead at_)
    else do
      let left := len - right
      let d ← moveEach q.data h left
      let h := h + left
      if h ≥ 32 ∧ h * 2 ≥ d.length then pure ({ q with data := d.drop h }.setHead 0)
      else pure ({ q with data := d }.setHead h)

def makeIter (q : DequeState Obj) (reverse : Bool) : Iter := ⟨true, 0, q.state, reverse⟩

def nextSlot (d : List Obj) (h : ℕ) (index : ℤ) (reverse : Bool) : Outcome ℕ :=
  if reverse then do
    let last ← usub d.length 1
    usub last index.toNat
  else pure (h + index.toNat)

/-- `deque_next_fast`. -/
def nextFast (q : DequeState Obj) (it : Iter) : Outcome (Option (Obj × Iter)) :=
  if it.live = false then pure none
  else if q.state ≠ it.deqState then pure none
  else
    let h := min q.headOf q.data.length
    if it.index < 0 ∨ it.index ≥ (q.data.length - h : ℕ) then pure none
    else do
      let slot ← nextSlot q.data h it.index it.reverse
      let v ← index q.data slot
      pure (some (v, { it with index := it.index + 1 }))

/-- The locked path of `deque_next`. -/
def next (q : DequeState Obj) (it : Iter) : Outcome (Except PyError Obj × Iter) :=
  if it.live = false then pure (.error .stopIteration, it)
  else if q.state ≠ it.deqState then
    pure (.error (.runtimeError "deque mutated during iteration"), { it with live := false })
  else
    let h := min q.headOf q.data.length
    if it.index < 0 ∨ it.index ≥ (q.data.length - h : ℕ) then
      pure (.error .stopIteration, { it with live := false })
    else do
      let it := { it with index := it.index + 1 }
      let slot ← nextSlot q.data h (it.index - 1) it.reverse
      let v ← index q.data slot
      pure (.ok v, it)

end DequeState

/-- The operations of a run; `next k` advances the `k`-th iterator made. -/
inductive Op (Obj : Type) where
  | append (x : Obj)
  | appendleft (x : Obj)
  | pop
  | popleft
  | rotate (n : Int64)
  | getitem (i : ℤ)
  | len
  | bool
  | iter (reverse : Bool)
  | next (k : ℕ)
  deriving DecidableEq, Repr

/-- A deque and the iterators made over it. -/
structure World (Obj : Type) where
  deque : DequeState Obj
  iters : List Iter
  deriving DecidableEq, Repr

variable {Obj : Type} [Inhabited Obj]

abbrev Answer (Obj : Type) := Except PyError (Value Obj)

/-- The unguarded path of an operation; `none` leaves it to the locked path. -/
def fastOp (w : World Obj) : Op Obj → Outcome (Option (World Obj × Answer Obj))
  | .append x => do
    let q ← DequeState.Fast.append w.deque x
    pure (some ({ w with deque := q }, .ok .none))
  | .appendleft x => do
    let q ← DequeState.Fast.appendleft w.deque x
    pure (some ({ w with deque := q }, .ok .none))
  | .pop => do
    match ← DequeState.Fast.pop w.deque with
    | some (x, q) => pure (some ({ w with deque := q }, .ok (.elem x)))
    | none => pure none
  | .popleft => do
    match ← DequeState.Fast.popleft w.deque with
    | some (x, q) => pure (some ({ w with deque := q }, .ok (.elem x)))
    | none => pure none
  | .getitem i =>
    if -2 ^ 63 ≤ i ∧ i < 2 ^ 63 then do
      match ← DequeState.Fast.getitem w.deque i with
      | some x => pure (some (w, .ok (.elem x)))
      | none => pure none
    else pure none
  | .len => pure (some (w, .ok (.int w.deque.len)))
  | .bool => pure (some (w, .ok (.bool w.deque.bool)))
  | .next k =>
    match w.iters[k]? with
    | none => pure none
    | some it => do
      match ← w.deque.nextFast it with
      | some (v, it) => pure (some ({ w with iters := w.iters.set k it }, .ok (.elem v)))
      | none => pure none
  | .rotate _ => pure none
  | .iter _ => pure none

/-- The locked path of an operation. -/
def lockedOp (w : World Obj) : Op Obj → Outcome (World Obj × Answer Obj)
  | .append x => do
    match ← w.deque.append x with
    | .ok q => pure ({ w with deque := q }, .ok .none)
    | .error e => pure (w, .error e)
  | .appendleft x => do
    let q ← w.deque.appendleft x
    pure ({ w with deque := q }, .ok .none)
  | .pop => do
    match ← w.deque.pop with
    | .ok (x, q) => pure ({ w with deque := q }, .ok (.elem x))
    | .error e => pure (w, .error e)
  | .popleft => do
    match ← w.deque.popleftLocked with
    | .ok (x, q) => pure ({ w with deque := q }, .ok (.elem x))
    | .error e => pure (w, .error e)
  | .rotate n => do
    let q ← w.deque.rotate n
    pure ({ w with deque := q }, .ok .none)
  | .getitem i => do
    match ← w.deque.getitem i with
    | .ok x => pure (w, .ok (.elem x))
    | .error e => pure (w, .error e)
  | .len => pure (w, .ok (.int w.deque.len))
  | .bool => pure (w, .ok (.bool w.deque.bool))
  | .iter reverse =>
    pure ({ w with iters := w.iters ++ [w.deque.makeIter reverse] }, .ok (.iter w.iters.length))
  | .next k =>
    match w.iters[k]? with
    | none => pure (w, .error (.typeError "deque iterator __next__ requires one iterator"))
    | some it => do
      let (r, it) ← w.deque.next it
      pure ({ w with iters := w.iters.set k it }, r.map .elem)

/-- One step, tried on the unguarded path first when `fast`. -/
def step (w : World Obj) (op : Op Obj) (fast : Bool) : Outcome (World Obj × Answer Obj) :=
  if fast then do
    match ← fastOp w op with
    | some r => pure r
    | none => lockedOp w op
  else lockedOp w op

/-- A run of operations, each with the path that serves it: the world it ends in, and the answers. -/
def run (w : World Obj) : List (Op Obj × Bool) → Outcome (World Obj × List (Answer Obj))
  | [] => pure (w, [])
  | (op, fast) :: ops => do
    let (w, a) ← step w op fast
    let (w, as) ← run w ops
    pure (w, a :: as)

end WeavePy.Deque
