import WeavePy.Odict.DictOps

/-!
An ordered dict keeps its mapping in a dict and its order in a second, keys-only one. The frequent
operations exist twice: in full, and as a leaf half that runs no Python or declines.
-/

namespace WeavePy.Odict

open DictMap

variable {Ω V : Type}

/-- The order is created on first use. -/
structure OrderedDict (Ω V : Type) where
  main : Table Ω V
  order : Option (Table Ω Unit)

/-- A key as a caller passes it; `same` tells the stored keys that are the same object. -/
structure KeyRef (Ω : Type) where
  obj : Object Ω
  same : Object Ω → Bool
  same_eq : ∀ k, same k = true → k = obj

inductive Error (Ω : Type) where
  | keyError (key : Object Ω)
  /-- `KeyError("dictionary is empty")`. -/
  | emptyError
  /-- `RuntimeError("OrderedDict mutated during iteration")`. -/
  | mutatedError

inductive Value (Ω V : Type) where
  | noneObject
  | value (v : V)
  | item (key : Object Ω) (v : V)
  | bool (b : Bool)

abbrev Result (Ω V : Type) := Except (Error Ω) (Value Ω V)

variable [KeyOps Ω] [LeafOps Ω]

namespace OrderedDict

def orderOf (od : OrderedDict Ω V) : Table Ω Unit := od.order.getD .new

def setitem (watched : Bool) (od : OrderedDict Ω V) (key : Object Ω) (value : V) :
    Outcome (OrderedDict Ω V × Result Ω V) := do
  let order := od.orderOf
  let (main, old) ← dictInsert watched od.main key value
  let fresh ← if old.isNone then pure true else (fun i => i.isNone) <$> indexOf order key
  let order ← if fresh then (fun r => r.1) <$> dictInsert watched order key () else pure order
  return (⟨main, some order⟩, .ok .noneObject)

/-- The node goes first, then the payload's entry. -/
def delitem (od : OrderedDict Ω V) (key : Object Ω) : Outcome (OrderedDict Ω V × Result Ω V) := do
  let order ← od.order.elim (pure none) fun order => (fun r => some r.1) <$> dictRemove order key
  let (main, removed) ← dictRemove od.main key
  return (⟨main, order⟩, removed.elim (.error (.keyError key)) fun _ => .ok .noneObject)

/-- The position to move to: `len.wrapping_sub(1)`, or the first. -/
def endOf (order : Table Ω Unit) (last : Bool) : ℕ := if last then order.entries.length - 1 else 0

def moveToEnd (od : OrderedDict Ω V) (key : KeyRef Ω) (last : Bool) : Outcome (OrderedDict Ω V × Result Ω V) := do
  let order := od.orderOf
  let len := order.entries.length
  let atEnd := order.entries[endOf order last]?.any fun b => key.same b.key
  let od : OrderedDict Ω V := ⟨od.main, some order⟩
  if len = 0 then return (od, .error (.keyError key.obj))
  else if atEnd then return (od, .ok .noneObject)
  else
    match ← indexOf order key.obj with
    | none => return (od, .error (.keyError key.obj))
    | some i =>
      if i < len ∧ i ≠ endOf order last then
        let order ← order.moveIndex i (endOf order last)
        return (⟨od.main, some order⟩, .ok .noneObject)
      else return (od, .ok .noneObject)

def popNode (main : Table Ω V) (order : Table Ω Unit) (index : ℕ) :
    Outcome (OrderedDict Ω V × Except (Error Ω) (Object Ω × V)) := do
  let (order, node) ← order.shiftRemoveIndex index
  match node with
  | none => return (⟨main, some order⟩, .error .mutatedError)
  | some (key, _) =>
    let (main, removed) ← dictRemove main key
    return (⟨main, some order⟩, removed.elim (.error (.keyError key)) fun e => .ok (key, e.2))

def popitem (od : OrderedDict Ω V) (last : Bool) : Outcome (OrderedDict Ω V × Result Ω V) := do
  let order := od.orderOf
  if order.entries.length = 0 then return (⟨od.main, some order⟩, .error .emptyError)
  else
    let (od, r) ← popNode od.main order (endOf order last)
    return (od, r.map fun e => .item e.1 e.2)

def pop (od : OrderedDict Ω V) (key : Object Ω) (default : Option V) : Outcome (OrderedDict Ω V × Result Ω V) := do
  let missing : Result Ω V := default.elim (.error (.keyError key)) fun v => .ok (.value v)
  match od.order with
  | none => return (od, missing)
  | some order =>
    let (order, node) ← dictRemove order key
    if node.isNone then return (⟨od.main, some order⟩, missing)
    else
      let (main, removed) ← dictRemove od.main key
      return (⟨main, some order⟩, removed.elim missing fun e => .ok (.value e.2))

def clear (od : OrderedDict Ω V) : Outcome (OrderedDict Ω V × Result Ω V) := do
  let main ← dictClear od.main
  let order ← od.order.elim (pure none) fun order => some <$> dictClear order
  return (⟨main, order⟩, .ok .noneObject)

def setdefault (watched : Bool) (od : OrderedDict Ω V) (key : Object Ω) (default : V) :
    Outcome (OrderedDict Ω V × Result Ω V) := do
  match ← dictLookup od.main key with
  | some v => return (od, .ok (.value v))
  | none =>
    let (od, _) ← od.setitem watched key default
    return (od, .ok (.value default))

/-- The pairs of another ordered dict in its order; none when a key is not plain or not in its payload. -/
def orderedPairs (main : Table Ω V) : List (Object Ω) → Outcome (Option (List (Object Ω × V)))
  | [] => pure (some [])
  | k :: ks => do
    match LeafProbe.new k with
    | none => return none
    | some probe =>
      match ← main.get probe with
      | none => return none
      | some v => return (← orderedPairs main ks).map ((k, v) :: ·)

/-- Each pair stored in turn. -/
def update (watched : Bool) (od : OrderedDict Ω V) (pairs : List (Object Ω × V)) : Outcome (OrderedDict Ω V) :=
  pairs.foldlM (fun od e => (fun r => r.1) <$> od.setitem watched e.1 e.2) od

/-- What `update_fast` does with the pairs it gathered, or with none. -/
def updateFast (watched : Bool) (od : OrderedDict Ω V) (pairs : Option (List (Object Ω × V))) :
    Outcome (OrderedDict Ω V × Result Ω V) :=
  match pairs with
  | none => pure (od, .ok (.bool false))
  | some pairs => do
    let od ← od.update watched pairs
    return (od, .ok (.bool true))

section LeafHalves

variable (watched : Bool) (od : OrderedDict Ω V)

/-- A leaf half answers, or declines with the ordered dict as it finds it. -/
abbrev Half (Ω V : Type) := OrderedDict Ω V × Option (Result Ω V)

def setitemLeaf (key : Object Ω) (value : V) : Outcome (Half Ω V) :=
  if watched then pure (od, none)
  else
    match od.order, LeafProbe.new key with
    | some order, some probe => do
      let inMain ← od.main.probeEntry probe
      let inOrder ← order.probeEntry probe
      let seen := (← foreign od.main probe) || (← foreign order probe)
      let fresh := match inMain, inOrder with
        | .occupied _, .occupied _ => false
        | _, _ => true
      if fresh && seen then return (od, none)
      else
        let main ← match inMain with
          | .occupied i => (fun r => r.1) <$> od.main.replaceValue i value
          | .vacant hash pos => (fun r => r.1) <$> od.main.pushAt pos hash key value
        let order ← match inOrder with
          | .occupied _ => pure order
          | .vacant hash pos => (fun r => r.1) <$> order.pushAt pos hash key ()
        return (⟨main, some order⟩, some (.ok .noneObject))
    | _, _ => pure (od, none)

def moveToEndLeaf (key : Object Ω) (last : Bool) : Outcome (Half Ω V) :=
  if watched then pure (od, none)
  else
    match od.order, LeafProbe.new key with
    | some order, some probe => do
      match ← order.getIndexOf probe with
      | none =>
        if ← foreign order probe then return (od, none)
        else return (od, some (.error (.keyError key)))
      | some i =>
        if i ≠ endOf order last then
          let order ← order.moveIndex i (endOf order last)
          return (⟨od.main, some order⟩, some (.ok .noneObject))
        else return (od, some (.ok .noneObject))
    | _, _ => pure (od, none)

/-- Removes the key, at `index` of the order, from both dicts; nothing when the payload lacks it. -/
def leafUnlink (order : Table Ω Unit) (index : ℕ) (probe : LeafProbe Ω) :
    Outcome (OrderedDict Ω V × Option V) := do
  match ← od.main.getIndexOf probe with
  | none => return (od, none)
  | some at_ =>
    let (main, removed) ← od.main.shiftRemoveIndex at_
    match removed with
    | none => return (od, none)
    | some (_, v) =>
      let (order, _) ← order.shiftRemoveIndex index
      return (⟨main, some order⟩, some v)

def popitemLeaf (last : Bool) : Outcome (Half Ω V) :=
  if watched then pure (od, none)
  else
    match od.order with
    | none => pure (od, none)
    | some order =>
      if order.entries.length = 0 then pure (od, some (.error .emptyError))
      else
        match order.entries[endOf order last]? with
        | none => pure (od, none)
        | some b =>
          match LeafProbe.new b.key with
          | none => pure (od, none)
          | some probe => do
            let (od, v) ← od.leafUnlink order (endOf order last) probe
            return (od, v.map fun v => .ok (.item b.key v))

def popLeaf (key : Object Ω) (default : Option V) : Outcome (Half Ω V) :=
  if watched then pure (od, none)
  else
    match od.order, LeafProbe.new key with
    | some order, some probe => do
      match ← order.getIndexOf probe with
      | none =>
        if ← foreign order probe then return (od, none)
        else return (od, some (default.elim (.error (.keyError key)) fun v => .ok (.value v)))
      | some index =>
        let (od, v) ← od.leafUnlink order index probe
        return (od, v.map fun v => .ok (.value v))
    | _, _ => pure (od, none)

end LeafHalves

end OrderedDict

end WeavePy.Odict
