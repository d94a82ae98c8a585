import WeavePy.DictMap.Runs
import WeavePy.InstDict.SharedKeys

/-!
Instances that keep their attribute values in a plain vector over a shared table of names, until
something materializes their dictionary.
-/

namespace WeavePy.InstDict

open DictMap

variable {Ω V : Type}

/-- The values of the first names of table `keys`, if the block has adopted one. -/
structure SplitBlock (V : Type) where
  keys : Option TableId
  values : List V
  cap : ℕ
  fits : values.length ≤ cap

theorem SplitBlock.fits_set (b : SplitBlock V) (i : ℕ) (value : V) : (b.values.set i value).length ≤ b.cap :=
  (List.length_set ..).trans_le b.fits

abbrev SplitValues (V : Type) := Option (SplitBlock V)

namespace SplitValues

def keysId (s : SplitValues V) : Option TableId := s.bind SplitBlock.keys

def values (s : SplitValues V) : List V := s.elim [] SplitBlock.values

def len (s : SplitValues V) : ℕ := s.values.length

end SplitValues

structure Instance (Ω V : Type) where
  lazy : Option (Table Ω V)
  split : SplitValues V

/-- `classes` are the classes' shared tables, none before the first use or after the class is gone. -/
structure State (Ω V : Type) where
  tables : List (Option SharedKeys)
  classes : List (Option TableId)
  insts : List (Instance Ω V)

namespace State

def new : State Ω V := ⟨[], [], []⟩

def table (st : State Ω V) (id : TableId) : Option SharedKeys := st.tables[id]?.join

/-- The names of a block's values, if it has adopted any. -/
def tableOf (st : State Ω V) (s : SplitValues V) : Option SharedKeys := s.keysId.bind st.table

def inst (st : State Ω V) (j : ℕ) : Outcome (Instance Ω V) := index st.insts j

def keys (st : State Ω V) (id : TableId) : Outcome SharedKeys := (st.table id).elim (.error .unchecked) .ok

/-- The names a class has shared so far. -/
def classNames (st : State Ω V) (c : ℕ) : List (List UInt8) :=
  (st.classes[c]?.join.bind st.table).elim [] SharedKeys.texts

def setTable (st : State Ω V) (id : TableId) (t : SharedKeys) : State Ω V :=
  { st with tables := st.tables.set id (some t) }

def setSplit (st : State Ω V) (j : ℕ) (s : SplitValues V) : State Ω V :=
  { st with insts := st.insts.modify j fun x => { x with split := s } }

/-- How many references there are to a table: classes, instances and the tables it derives from. -/
def strongCount (st : State Ω V) (id : TableId) : ℕ :=
  st.classes.count (some id) + st.insts.countP (fun x => x.split.keysId == some id) +
    (st.tables.map fun t => t.elim 0 fun t => t.derived.countP fun d => d.2.2 == id).sum

def dropTable (st : State Ω V) (id : TableId) : State Ω V :=
  if st.strongCount id = 0 then { st with tables := st.tables.set id none } else st

/-- Drops the tables without owners; a table only refers to later ones. -/
def release (st : State Ω V) : State Ω V := (List.range st.tables.length).foldl dropTable st

/-- A class's table, created on first use. -/
def share (st : State Ω V) (c : ℕ) : Outcome (State Ω V × TableId) := do
  match ← index st.classes c with
  | some id => return (st, id)
  | none => return ({ st with
      tables := st.tables ++ [some .new], classes := st.classes.set c (some st.tables.length) }, st.tables.length)

def without (st : State Ω V) (id : TableId) (n i : ℕ) : Outcome (State Ω V × TableId) := do
  let t ← st.keys id
  match t.derived.find? fun d => d.1 == n && d.2.1 == i with
  | some d => return (st, d.2.2)
  | none =>
    let fresh ← t.fresh n i
    let id' := st.tables.length
    let st' : State Ω V := { st with tables := st.tables ++ [some fresh] }
    if t.derived.length < DERIVED_CAP then
      return (st'.setTable id { t with derived := t.derived ++ [(n, i, id')] }, id')
    else return (st', id')

end State

namespace SplitValues

def empty : SplitBlock V := ⟨none, [], 0, by simp⟩

/-- Appends a value, growing the block to at least `want` slots; the first append adopts `id`. -/
def push (s : SplitValues V) (id : TableId) (want : ℕ) (value : V) : SplitBlock V :=
  let b := s.getD empty
  let len := b.values.length
  let cap := if len = b.cap then max (max (max want (len + 1)) (b.cap * 2)) 2 else b.cap
  ⟨some (b.keys.getD id), b.values ++ [value], cap, by
    have := b.fits
    simp only [cap, len, List.length_append, List.length_singleton]
    split_ifs <;> omega⟩

def firstPush (s : SplitValues V) (id : TableId) (want : ℕ) (value : V) : SplitBlock V :=
  push (s.filter fun b => decide (want ≤ b.cap)) id want value

def appendOver (s : SplitValues V) (id : TableId) (t : SharedKeys) (i : ℕ) (value : V) :
    Except V (SplitBlock V) :=
  let adopt := if i ≠ 0 ∨ t.len = 0 then .error value else .ok (firstPush s id t.len value)
  match s with
  | none => adopt
  | some b =>
    if h : b.keys = some id ∧ i = b.values.length ∧ b.values.length < b.cap then
      .ok { b with
        values := b.values ++ [value]
        fits := by
          rw [List.length_append, List.length_singleton]
          exact h.2.2 }
    else if b.keys.isSome ∨ b.values.length ≠ 0 then .error value
    else adopt

def reserveFor (s : SplitValues V) (id : TableId) (cap : ℕ) : SplitValues V :=
  if s.isSome ∨ cap = 0 then s else some ⟨some id, [], cap, by simp⟩

/-- The block with the given values, if it can take them all at once. -/
def fillFresh (s : SplitValues V) (id : TableId) (t : SharedKeys) (vs : List V) : Option (SplitBlock V) :=
  if t.len < vs.length then none
  else
    match s with
    | none => none
    | some b =>
      if h : b.values.length ≠ 0 ∨ b.cap < vs.length then none
      else if b.keys = none ∨ b.keys = some id then
        some ⟨some id, vs, b.cap, by
          rw [not_or, not_lt] at h
          exact h.2⟩
      else none

/-- Whether `appendOver` of position `i` succeeds once the positions before it are appended. -/
def canAppendAt (s : SplitValues V) (id : TableId) (t : SharedKeys) (i : ℕ) : Bool :=
  if t.len ≤ i then false
  else
    match s with
    | none => true
    | some b =>
      if b.keys = some id then b.values.length ≤ i ∧ i < b.cap
      else b.keys.isNone ∧ b.values.length = 0

section Lookup

variable (s : SplitValues V) (t : SharedKeys)

def getIndex (i : ℕ) : Option (SharedStr × V) := do
  let v ← s.values[i]?
  let k ← t.get i
  return (k, v)

def position (name : NameRef) : Option ℕ :=
  if (t.get s.len).any (keyNames · name) then none
  else (List.range s.len).find? fun i => (t.get i).any (keyNames · name)

def positionHashed (name : NameRef) (hash : Int64) : Option ℕ := t.positionHashed s.len name hash

/-- A name's own text first, then an equal one. -/
def positionStr (name : NameRef) : Option ℕ :=
  match (List.range s.len).find? fun i => (t.get i).any name.same with
  | some i => some i
  | none => (List.range s.len).find? fun i => (t.get i).any (keyNamesStr · name)

def get (name : NameRef) : Option V := (position s t name).bind (s.values[·]?)

def iter : List (SharedStr × V) :=
  s.values.zipIdx.filterMap fun v => (t.get v.2).map fun k => (k, v.1)

/-- The entries of the dictionary the values move into. -/
def entries : List (Bucket Ω V) := (t.names.zip s.values).map fun e => ⟨e.1.2, .str e.1.1, e.2⟩

end Lookup

end SplitValues

namespace State

def store [KeyOps Ω] (st : State Ω V) (j c : ℕ) (name : NameRef) (value : V) :
    Outcome (State Ω V × Except V (Option V)) := do
  let x ← st.inst j
  let n := x.split.len
  let (st, id) ← x.split.keysId.elim (st.share c) fun id => .ok (st, id)
  let t ← st.keys id
  if (t.get n).any (keyNames · name) then
    return (st.setSplit j (some (x.split.push id t.len value)), .ok none)
  else
    match (List.range n).find? fun i => (t.get i).any (keyNames · name), x.split with
    | some i, some b =>
      let b' := { b with
        values := b.values.set i value
        fits := b.fits_set i value }
      return (st.setSplit j (some b'), .ok b.values[i]?)
    | some _, none => .error .unchecked
    | none, _ =>
      if (t.get n).isSome ∨ t.len ≠ n then return (st, .error value)
      else
        match t.push Ω name.str with
        | none => return (st, .error value)
        | some t' =>
          return ((st.setTable id t').setSplit j (some (x.split.push id t'.len value)), .ok none)

/-- A store at a position of the class's names. -/
def append (st : State Ω V) (j c i : ℕ) (value : V) : Outcome (State Ω V × Except V Unit) := do
  let x ← st.inst j
  match ← index st.classes c with
  | none => return (st, .error value)
  | some id =>
    let t ← st.keys id
    match x.split.appendOver id t i value with
    | .error value => return (st, .error value)
    | .ok b => return (st.setSplit j (some b), .ok ())

def reserve (st : State Ω V) (j c cap : ℕ) : Outcome (State Ω V) := do
  let x ← st.inst j
  if x.split.isSome ∨ cap = 0 then return st
  else
    let (st, id) ← st.share c
    return st.setSplit j (x.split.reserveFor id cap)

def fill (st : State Ω V) (j c : ℕ) (vs : List V) : Outcome (State Ω V × Bool) := do
  let x ← st.inst j
  match ← index st.classes c with
  | none => return (st, false)
  | some id =>
    let t ← st.keys id
    match x.split.fillFresh id t vs with
    | none => return (st, false)
    | some b => return (st.setSplit j (some b), true)

def replaceIndex (st : State Ω V) (j i : ℕ) (value : V) : Outcome (State Ω V × Except V V) := do
  let x ← st.inst j
  match x.split with
  | none => return (st, .error value)
  | some b =>
    match b.keys, b.values[i]? with
    | some id, some old =>
      let t ← st.keys id
      if (t.get i).isNone then return (st, .error value)
      else
        let b' := { b with
          values := b.values.set i value
          fits := b.fits_set i value }
        return (st.setSplit j (some b'), .ok old)
    | _, _ => return (st, .error value)

/-- Removes a name: the last value simply leaves, any other moves the rest to a table of their names,
which closes up in place when no one else holds it. -/
def removeStr (st : State Ω V) (j : ℕ) (name : NameRef) : Outcome (State Ω V × Option V) := do
  let x ← st.inst j
  match x.split with
  | none => return (st, none)
  | some b =>
    match b.keys with
    | none => return (st, none)
    | some id =>
      let t ← st.keys id
      match x.split.positionStr t name with
      | none => return (st, none)
      | some i =>
        let rest : List V := b.values.eraseIdx i
        have hrest : rest.length ≤ b.cap := (List.length_eraseIdx_le _ _).trans b.fits
        if i + 1 < b.values.length then
          if st.strongCount id = 1 then
            let st := st.setTable id (t.removeAt i)
            return ((st.setSplit j (some ⟨some id, rest, b.cap, hrest⟩)).release, b.values[i]?)
          else
            let (st, id') ← st.without id b.values.length i
            return ((st.setSplit j (some ⟨some id', rest, b.cap, hrest⟩)).release, b.values[i]?)
        else return (st.setSplit j (some ⟨some id, rest, b.cap, hrest⟩), b.values[i]?)

/-- Moves the values out and forgets the names. -/
def take (st : State Ω V) (j : ℕ) : Outcome (State Ω V × List V) := do
  let x ← st.inst j
  match x.split with
  | none => return (st, [])
  | some b => return ((st.setSplit j (some ⟨none, [], b.cap, by simp⟩)).release, b.values)

/-- Few values wait on the stack for their drop, more in a vector. -/
def reset (st : State Ω V) (j : ℕ) : Outcome (State Ω V) := do
  let x ← st.inst j
  match x.split with
  | none => return st
  | some b =>
    if 8 < b.values.length then return (← st.take j).1
    else return (st.setSplit j (some ⟨none, [], b.cap, by simp⟩)).release

/-- The values in a dictionary under their names. -/
def dictOf (st : State Ω V) (s : SplitValues V) : Outcome (Table Ω V) :=
  match s.keysId with
  | none => .ok .new
  | some id => do
    let t ← st.keys id
    Table.fromUniqueHashed (s.entries t)

/-- A live view of the values (`busy`) leaves them behind. -/
def moveOut (st : State Ω V) (j : ℕ) (busy : Bool) : Outcome (State Ω V) :=
  if busy then .ok st else (fun r => r.1) <$> st.take j

def materialize (st : State Ω V) (j : ℕ) (busy : Bool) : Outcome (State Ω V) := do
  let x ← st.inst j
  let map ← st.dictOf x.split
  let st' ← st.moveOut j busy
  return { st' with insts := st'.insts.modify j fun y => { y with lazy := y.lazy <|> some map } }

end State

end WeavePy.InstDict
