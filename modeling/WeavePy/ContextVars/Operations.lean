import WeavePy.Lib.CountedCells
import WeavePy.Lib.OrderedMap

/-!
The native `contextvars`: a context's mapping is a counted dict that copies share, copied on the first
write while shared.
-/

namespace WeavePy.ContextVars

open CountedCells

/-- A Python value, of which `Token.MISSING` is one. -/
inductive Value (V : Type) where
  | missing
  | obj (v : V)
  deriving DecidableEq

/-- What a reset makes of a token's old value. -/
def Value.restored {V : Type} : Value V → Option (Value V)
  | .missing => none
  | old => some old

abbrev Dict (Var V : Type) := OrderedMap Var (Value V)

structure Context where
  data : ℕ
  entered : Bool

structure Token (Var V : Type) where
  var : Var
  old : Value V
  used : Bool
  ctx : ℕ

/-- One thread. The frames are the `Context.run` calls in progress, innermost first, each with its
context and the one it replaced; what was dropped leaves a gap. -/
structure State (Var V : Type) where
  heap : Heap (Dict Var V)
  contexts : List (Option Context)
  current : Option ℕ
  snapshots : List (Option ℕ)
  tokens : List (Option (Token Var V))
  frames : List (ℕ × Option ℕ)

inductive Reply (Var V : Type) where
  | none
  | value (v : Value V)
  | lookupError (var : Var)
  | token (t : ℕ)
  | context (c : ℕ)
  | snapshot (s : ℕ)
  /-- `RuntimeError`: the token has already been used once. -/
  | usedError
  /-- `ValueError`: the token was created by a different variable. -/
  | variableError
  /-- `ValueError`: the token was created in a different context. -/
  | contextError
  /-- `RuntimeError`: the context is already entered. -/
  | enteredError
  deriving DecidableEq

inductive Op (Var V : Type) where
  | get (var : Var) (default : Option (Value V))
  | set (var : Var) (value : Value V)
  | reset (var : Var) (token : ℕ)
  | newContext
  | copy (c : ℕ)
  | copyContext
  | currentData
  | contextOver (s : ℕ)
  /-- A `Context.run` begins. -/
  | run (c : ℕ)
  /-- The innermost run's callable has returned or raised. -/
  | leave
  | dropContext (c : ℕ)
  | dropSnapshot (s : ℕ)
  | dropToken (t : ℕ)

variable {Var V : Type}

/-- What is not there is a fault of the caller. -/
def entry {α : Type} (l : List (Option α)) (i : ℕ) : Outcome α := l[i]?.join.elim (.error .panic) .ok

namespace State

def new : State Var V := ⟨[], [], none, [], [], []⟩

variable (st : State Var V)

/-- A context over `data`, whose reference it takes over. -/
def newContext (data : ℕ) : State Var V × ℕ :=
  ({ st with contexts := st.contexts ++ [some ⟨data, false⟩] }, st.contexts.length)

def newDict : State Var V × ℕ :=
  ({ st with heap := (alloc st.heap []).1 }, (alloc st.heap []).2)

/-- The current context, created on first use. -/
def currentContext : State Var V × ℕ :=
  match st.current with
  | some c => (st, c)
  | none =>
    let (st, data) := st.newDict
    let (st, c) := st.newContext data
    ({ st with current := some c }, c)

/-- The context's mapping, with a reference to it. -/
def dataOf (c : ℕ) : Outcome (State Var V × ℕ) := do
  let ctx ← entry st.contexts c
  return ({ st with heap := ← clone st.heap ctx.data }, ctx.data)

def currentData : Outcome (State Var V × ℕ) :=
  let (st, c) := st.currentContext
  st.dataOf c

def ctxCopy (c : ℕ) : Outcome (State Var V × ℕ) := do
  let (st, data) ← st.dataOf c
  return st.newContext data

def copyCurrent : Outcome (State Var V × ℕ) := do
  let (st, data) ← st.currentData
  return st.newContext data

def keepSnapshot (data : ℕ) : State Var V × ℕ :=
  ({ st with snapshots := st.snapshots ++ [some data] }, st.snapshots.length)

def contextOver (s : ℕ) : Outcome (State Var V × ℕ) := do
  let data ← entry st.snapshots s
  return { st with snapshots := st.snapshots.set s none }.newContext data

variable [DecidableEq Var] (defaultOf : Var → Value V)

def varGet (var : Var) (default : Option (Value V)) : Outcome (Reply Var V) := do
  let found ← match st.current with
    | none => pure none
    | some c => do
      let ctx ← entry st.contexts c
      let cell ← deref st.heap ctx.data
      pure (cell.val.lookup var)
  match found with
  | some v => return .value v
  | none =>
    match default with
    | some d => return .value d
    | none =>
      match defaultOf var with
      | .missing => return .lookupError var
      | d => return .value d

/-- Stores or removes a binding, in a copy when the mapping is shared; the value it had, or `missing`. -/
def ctxStore (c : ℕ) (var : Var) (value : Option (Value V)) : Outcome (State Var V × Value V) := do
  let ctx ← entry st.contexts c
  let (heap, data, held) ← update st.heap ctx.data fun d => value.elim (d.remove var) (d.store var)
  return ({ st with heap, contexts := st.contexts.set c (some { ctx with data }) }, (held.lookup var).getD .missing)

def varSet (var : Var) (value : Value V) : Outcome (State Var V × Reply Var V) := do
  let (st, c) := st.currentContext
  let (st, old) ← st.ctxStore c var (some value)
  return ({ st with tokens := st.tokens ++ [some ⟨var, old, false, c⟩] }, .token st.tokens.length)

def varReset (var : Var) (t : ℕ) : Outcome (State Var V × Reply Var V) := do
  let token ← entry st.tokens t
  if token.used then return (st, .usedError)
  else if token.var ≠ var then return (st, .variableError)
  else
    let (st, c) := st.currentContext
    if token.ctx ≠ c then return (st, .contextError)
    else
      let st := { st with tokens := st.tokens.set t (some { token with used := true }) }
      let (st, _) ← st.ctxStore c var token.old.restored
      return (st, .none)

/-- Makes the context current; the reply is an error if it is already entered. -/
def enter (c : ℕ) : Outcome (State Var V × Reply Var V) := do
  let ctx ← entry st.contexts c
  if ctx.entered then return (st, .enteredError)
  else
    return ({ st with
      contexts := st.contexts.set c (some { ctx with entered := true })
      current := some c
      frames := (c, st.current) :: st.frames }, .none)

def exit : Outcome (State Var V × Reply Var V) :=
  match st.frames with
  | [] => .error .panic
  | (c, prev) :: frames => do
    let ctx ← entry st.contexts c
    return ({ st with
      contexts := st.contexts.set c (some { ctx with entered := false })
      current := prev
      frames := frames }, .none)

def dropContext (c : ℕ) : Outcome (State Var V × Reply Var V) := do
  let ctx ← entry st.contexts c
  return ({ st with heap := ← release st.heap ctx.data, contexts := st.contexts.set c none }, .none)

def dropSnapshot (s : ℕ) : Outcome (State Var V × Reply Var V) := do
  let data ← entry st.snapshots s
  return ({ st with heap := ← release st.heap data, snapshots := st.snapshots.set s none }, .none)

def step : Op Var V → Outcome (State Var V × Reply Var V)
  | .get var default => do return (st, ← st.varGet defaultOf var default)
  | .set var value => st.varSet var value
  | .reset var t => st.varReset var t
  | .newContext => pure ((st.newDict.1.newContext st.newDict.2).map id .context)
  | .copy c => (fun r => r.map id .context) <$> st.ctxCopy c
  | .copyContext => (fun r => r.map id .context) <$> st.copyCurrent
  | .currentData => do
    let (st, data) ← st.currentData
    return (st.keepSnapshot data).map id .snapshot
  | .contextOver s => (fun r => r.map id .context) <$> st.contextOver s
  | .run c => st.enter c
  | .leave => st.exit
  | .dropContext c => st.dropContext c
  | .dropSnapshot s => st.dropSnapshot s
  | .dropToken t => do
    let _ ← entry st.tokens t
    return ({ st with tokens := st.tokens.set t none }, .none)

/-- The callers hold what they name, and drop only what nothing else refers to. -/
def Allowed : Op Var V → Prop
  | .get _ _ | .set _ _ | .newContext | .copyContext | .currentData => True
  | .reset _ t | .dropToken t => ∃ token, st.tokens[t]? = some (some token)
  | .copy c | .run c => ∃ ctx, st.contexts[c]? = some (some ctx)
  | .contextOver s | .dropSnapshot s => ∃ data, st.snapshots[s]? = some (some data)
  | .leave => st.frames ≠ []
  | .dropContext c => (∃ ctx, st.contexts[c]? = some (some ctx)) ∧ st.current ≠ some c ∧
      (∀ f ∈ st.frames, f.1 ≠ c ∧ f.2 ≠ some c) ∧ ∀ (t : ℕ) token, st.tokens[t]? = some (some token) → token.ctx ≠ c

end State

end WeavePy.ContextVars
