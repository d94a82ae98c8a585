import WeavePy.Lib.OrderedMap

/-!
The storage of an instance's slots: one entry, a few, an ordered table, or the values of a layout that
many instances share, plain or packed.
-/

namespace WeavePy.Slots

/-- The bytes of a slot's name. -/
abbrev Name := List UInt8

inductive Object (V : Type) where
  /-- The mark of an unset slot. -/
  | unbound
  | none
  | other (o : V)
  deriving DecidableEq, Repr

def Object.isBound {V : Type} : Object V → Bool
  | .unbound => false
  | _ => true

variable {V : Type}

/-- The word of `n` bytes at `at`. -/
def wordAt (n : ℕ) (s : Name) (at' : ℕ) : List UInt8 := (s.drop at').take n

def slotNameEq (stored name : Name) : Bool :=
  if stored.length ≠ name.length then false
  else if 17 ≤ stored.length then stored == name
  else if 8 ≤ stored.length then
    wordAt 8 stored 0 == wordAt 8 name 0 && wordAt 8 stored (stored.length - 8) == wordAt 8 name (stored.length - 8)
  else if 4 ≤ stored.length then
    wordAt 4 stored 0 == wordAt 4 name 0 && wordAt 4 stored (stored.length - 4) == wordAt 4 name (stored.length - 4)
  else (List.range stored.length).all fun i => stored[i]? == name[i]?

/-- A native value with the objects of its fields, all of them set. -/
structure PackedSlots (V : Type) where
  layout : List Name
  values : List (Object V)
  nodup : layout.Nodup
  length_eq : layout.length = values.length
  bound : ∀ v ∈ values, v.isBound = true

/-- The forms of `SlotData`. -/
inductive SlotStorage (V : Type) where
  | single (key : Option Name) (value : Object V)
  | small (entries : List (Name × Object V))
  | many (table : OrderedMap Name (Object V))
  | fixed (layout : List Name) (values : List (Object V))
  | packed (p : PackedSlots V)

namespace SlotStorage

def default : SlotStorage V := .single none .none

/-- The table of `entries`, put in one after the other. -/
def tableOf (entries : List (Name × Object V)) : OrderedMap Name (Object V) :=
  entries.foldl (fun table e => OrderedMap.store table e.1 e.2) []

def fromEntries (entries : List (Name × Object V)) : SlotStorage V :=
  if entries.length = 0 then .single none .none
  else if entries.length ≤ 16 then .small entries
  else .many (tableOf entries)

def fromLayout (layout : List Name) (values : List (Object V)) : SlotStorage V :=
  if layout.length ≠ values.length then fromEntries (layout.zip values) else .fixed layout values

def unsetOver (layout : List Name) : SlotStorage V := .fixed layout (layout.map fun _ => .unbound)

def fromPacked (p : PackedSlots V) : SlotStorage V := .packed p

section Readers

/-- Where `name` stands in a layout. -/
def position (layout : List Name) (name : Name) : Option ℕ := layout.findIdx? fun key => slotNameEq key name

def get (s : SlotStorage V) (name : Name) : Option (Object V) :=
  match s with
  | .single (some stored) value => if slotNameEq stored name then some value else none
  | .single none _ => none
  | .small entries => entries.findSome? fun e => if slotNameEq e.1 name then some e.2 else none
  | .many table => OrderedMap.lookup table name
  | .fixed layout values => ((position layout name).bind fun i => values[i]?).filter Object.isBound
  | .packed p => (position p.layout name).bind fun i => p.values[i]?

def indexOf (s : SlotStorage V) (name : Name) : Option ℕ :=
  match s with
  | .single _ _ => (s.get name).map fun _ => 0
  | .small entries => entries.findIdx? fun e => slotNameEq e.1 name
  | .many table => OrderedMap.position table name
  | .fixed layout values => (position layout name).filter fun i => (values.getD i .unbound).isBound
  | .packed p => position p.layout name

/-- An entry of a layout. -/
def zipIndex (layout : List Name) (values : List (Object V)) (index : ℕ) : Option (Name × Object V) :=
  layout[index]?.bind fun key => values[index]?.map fun value => (key, value)

def getIndex (s : SlotStorage V) (index : ℕ) : Option (Name × Object V) :=
  match s with
  | .single key value => if index = 0 then key.map fun key => (key, value) else none
  | .small entries => entries[index]?
  | .many table => table[index]?
  | .fixed layout values => (zipIndex layout values index).filter fun e => e.2.isBound
  | .packed p => zipIndex p.layout p.values index

def getHinted (s : SlotStorage V) (index : ℕ) (name : Name) : Option (Object V) :=
  match s.getIndex index with
  | some (stored, value) => if slotNameEq stored name then some value else s.get name
  | none => s.get name

def iter (s : SlotStorage V) : List (Name × Object V) :=
  let single : List (Name × Object V) :=
    match s with
    | .single (some key) value => [(key, value)]
    | _ => []
  let small : List (Name × Object V) :=
    match s with
    | .small entries => entries
    | _ => []
  let many : List (Name × Object V) :=
    match s with
    | .many table => table
    | _ => []
  let fixed : List (Name × Object V) :=
    match s with
    | .fixed layout values => layout.zip values
    | .packed p => p.layout.zip p.values
    | _ => []
  (single ++ small ++ many ++ fixed).filter fun e => e.2.isBound

/-- `f` called on each entry, over a state. -/
def forEachEntry {σ : Type} (s : SlotStorage V) (f : σ → Name → Object V → σ) (init : σ) : σ :=
  let each (state : σ) (e : Name × Object V) : σ := if e.2.isBound then f state e.1 e.2 else state
  match s with
  | .single none _ => init
  | .single (some key) value => each init (key, value)
  | .small entries => entries.foldl each init
  | .many table => table.foldl each init
  | .fixed layout values => (layout.zip values).foldl each init
  | .packed p => (p.layout.zip p.values).foldl each init

end Readers

end SlotStorage

inductive SlotValues (V : Type) where
  | values (vs : List (Object V))
  | pairs (entries : List (Name × Object V))
  | table (t : OrderedMap Name (Object V))

/-- The objects of a view, the unset ones passed over. -/
def SlotValues.objects : SlotValues V → List (Object V)
  | .values vs => vs.filter Object.isBound
  | .pairs entries => (entries.map Prod.snd).filter Object.isBound
  | .table t => (t.map Prod.snd).filter Object.isBound

namespace SlotStorage

def valuesView : SlotStorage V → SlotValues V
  | .single (some _) value => .values [value]
  | .single none _ => .values []
  | .small entries => .pairs entries
  | .many table => .table table
  | .fixed _ values => .values values
  | .packed p => .values p.values

section Conversions

def unpack : SlotStorage V → SlotStorage V
  | .packed p => .fixed p.layout p.values
  | s => s

def unfix (s : SlotStorage V) : SlotStorage V :=
  match s.unpack with
  | .fixed layout values => fromEntries ((layout.zip values).filter fun e => e.2.isBound)
  | s => s

def isEmptyDefault : SlotStorage V → Bool
  | .single none .none => true
  | _ => false

def retire : SlotStorage V → SlotStorage V
  | .fixed layout values => .fixed layout (values.map fun _ => .unbound)
  | s => if s.isEmptyDefault then s else default

def reuseUnsetOver (s : SlotStorage V) (layout : List Name) : SlotStorage V × Bool :=
  match s with
  | .fixed _ values => if values.length ≠ layout.length then (s, false) else (.fixed layout values, true)
  | _ => (s, false)

end Conversions

section Writers

/-- A mutable reference to a slot: its value, and the storage once `v` is written through it. -/
structure Place (V : Type) where
  value : Object V
  set : Object V → SlotStorage V

/-- The value at `index` of a layout, in place. -/
def fixedPlace (layout : List Name) (values : List (Object V)) (index : ℕ) : Option (Place V) :=
  values[index]?.map fun value => ⟨value, fun v => .fixed layout (values.set index v)⟩

def smallPlace (entries : List (Name × Object V)) (index : ℕ) : Option (Place V) :=
  entries[index]?.map fun e => ⟨e.2, fun v => .small (entries.set index (e.1, v))⟩

def manyPlace (table : OrderedMap Name (Object V)) (index : ℕ) : Option (Place V) :=
  table[index]?.map fun e => ⟨e.2, fun v => .many (table.set index (e.1, v))⟩

def getMut (s : SlotStorage V) (name : Name) : SlotStorage V × Option (Place V) :=
  match s.unpack with
  | .single key value =>
    (.single key value, match key with
      | some stored => if slotNameEq stored name then some ⟨value, fun v => .single (some stored) v⟩ else none
      | none => none)
  | .small entries => (.small entries, (entries.findIdx? fun e => slotNameEq e.1 name).bind (smallPlace entries))
  | .many table => (.many table, (OrderedMap.position table name).bind (manyPlace table))
  | .fixed layout values =>
    (.fixed layout values, ((position layout name).bind (fixedPlace layout values)).filter fun p => p.value.isBound)
  | s => (s, none)

def getIndexMut (s : SlotStorage V) (index : ℕ) : SlotStorage V × Option (Name × Place V) :=
  match s.unpack with
  | .single key value =>
    (.single key value, if index = 0 then key.map fun key => (key, ⟨value, fun v => .single (some key) v⟩) else none)
  | .small entries => (.small entries, entries[index]?.bind fun e => (smallPlace entries index).map fun p => (e.1, p))
  | .many table => (.many table, table[index]?.bind fun e => (manyPlace table index).map fun p => (e.1, p))
  | .fixed layout values =>
    (.fixed layout values,
      (layout[index]?.bind fun key => (fixedPlace layout values index).map fun p => (key, p)).filter fun e => e.2.value.isBound)
  | s => (s, none)

def getHintedMut (s : SlotStorage V) (index : ℕ) (name : Name) : SlotStorage V × Option (Place V) :=
  match s.getIndexMut index with
  | (s, some (stored, place)) => if slotNameEq stored name then (s, some place) else s.getMut name
  | (s, none) => s.getMut name

def placeMut (s : SlotStorage V) (name : Name) : SlotStorage V × Option (Place V) :=
  match s.unpack with
  | .fixed layout values => (.fixed layout values, (position layout name).bind (fixedPlace layout values))
  | s => s.getMut name

/-- The storage once `v` is written through the reference, where there is one. -/
def write (r : SlotStorage V × Option (Place V)) (v : Object V) : SlotStorage V :=
  match r.2 with
  | some place => place.set v
  | none => r.1

/-- `insert_with_key` on a form without a shared layout. -/
def insertEntry (s : SlotStorage V) (name : Name) (value : Object V) : SlotStorage V × Option (Object V) :=
  match s with
  | .single none _ => (.single (some name) value, none)
  | .single (some stored) slot =>
    if slotNameEq stored name then (.single (some stored) value, some slot)
    else (.small [(stored, slot), (name, value)], none)
  | .small entries =>
    match entries.findIdx? fun e => slotNameEq e.1 name with
    | some i =>
      match entries[i]? with
      | some (key, slot) => (.small (entries.set i (key, value)), some slot)
      | none => (s, none)
    | none =>
      if entries.length < 16 then (.small (entries ++ [(name, value)]), none)
      else (.many (OrderedMap.store (tableOf entries) name value), none)
  | .many table =>
    match OrderedMap.position table name with
    | some i =>
      match table[i]? with
      | some (key, slot) => (.many (table.set i (key, value)), some slot)
      | none => (s, none)
    | none => (.many (OrderedMap.store table name value), none)
  -- never reached: the layout is given up first
  | s => (s, none)

def insert (s : SlotStorage V) (name : Name) (value : Object V) : SlotStorage V × Option (Object V) :=
  match s.unpack with
  | .fixed layout values =>
    match position layout name with
    | some i => (.fixed layout (values.set i value), values[i]?.filter Object.isBound)
    | none => (unfix (.fixed layout values)).insertEntry name value
  | s => s.insertEntry name value

/-- `remove` on a form without a shared layout. -/
def removeEntry (s : SlotStorage V) (name : Name) : SlotStorage V × Option (Object V) :=
  match s with
  | .single (some stored) value => if slotNameEq stored name then (.single none .none, some value) else (s, none)
  | .small entries =>
    match entries.findIdx? fun e => slotNameEq e.1 name with
    | some i => (.small (entries.eraseIdx i), entries[i]?.map Prod.snd)
    | none => (s, none)
  | .many table => (.many (OrderedMap.remove table name), OrderedMap.lookup table name)
  | s => (s, none)

def remove (s : SlotStorage V) (name : Name) : SlotStorage V × Option (Object V) :=
  match s.unpack with
  | .fixed layout values =>
    match position layout name with
    | some i => (.fixed layout (values.set i .unbound), values[i]?.filter Object.isBound)
    | none => (unfix (.fixed layout values)).removeEntry name
  | s => s.unfix.removeEntry name

end Writers

end SlotStorage

end WeavePy.Slots
