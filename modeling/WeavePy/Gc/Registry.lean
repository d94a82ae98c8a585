import Mathlib.Algebra.Ring.Int.Defs
import Mathlib.Algebra.Ring.Nat
import Mathlib.Data.Fin.Basic
import Mathlib.Logic.Function.Basic
import Mathlib.Tactic.Common
import Std.Data.HashMap
import WeavePy.Lib.Slab

/-!
The filter in front of the collector's index: two bits for each id, never cleared except by a rebuild
that fills the idle one of two buffers.
-/

namespace WeavePy.Gc

abbrev ObjectId := ℕ

def words : ℕ := 1024

structure AtomicBloom where
  bits : ℕ → BitVec 64

namespace AtomicBloom

def new : AtomicBloom := ⟨fun _ => 0⟩

/-- Two words with one bit each, from one Fibonacci mix of the id. -/
def probes (id : ObjectId) : (ℕ × BitVec 64) × (ℕ × BitVec 64) :=
  let h : BitVec 64 := BitVec.ofNat 64 id * 0x9E3779B97F4A7C15#64
  let p₁ := (h >>> 48).toNat &&& (words * 64 - 1)
  let p₂ := (h >>> 32).toNat &&& (words * 64 - 1)
  ((p₁ / 64, 1#64 <<< (p₁ % 64)), (p₂ / 64, 1#64 <<< (p₂ % 64)))

def setBit (f : AtomicBloom) (p : ℕ × BitVec 64) : AtomicBloom :=
  if f.bits p.1 &&& p.2 = 0 then ⟨Function.update f.bits p.1 (f.bits p.1 ||| p.2)⟩ else f

def insert (f : AtomicBloom) (id : ObjectId) : AtomicBloom :=
  (f.setBit (probes id).1).setBit (probes id).2

def mayContain (f : AtomicBloom) (id : ObjectId) : Bool :=
  f.bits (probes id).1.1 &&& (probes id).1.2 != 0 && f.bits (probes id).2.1 &&& (probes id).2.2 != 0

variable {f : AtomicBloom} {id id' : ObjectId} {p q : ℕ × BitVec 64}

theorem mayContain_iff : f.mayContain id = true ↔
    f.bits (probes id).1.1 &&& (probes id).1.2 ≠ 0 ∧ f.bits (probes id).2.1 &&& (probes id).2.2 ≠ 0 := by
  simp [mayContain]

theorem probes_lt (id : ObjectId) : (probes id).1.1 < words ∧ (probes id).2.1 < words := by
  have hmask (n : ℕ) : (n &&& (words * 64 - 1)) / 64 < words := by
    have : n &&& (words * 64 - 1) ≤ words * 64 - 1 := Nat.and_le_right
    unfold words at *
    omega
  exact ⟨hmask _, hmask _⟩

theorem bit_ne_zero (n : ℕ) : 1#64 <<< (n % 64) ≠ 0 := by
  intro h
  have hbit := congrArg (fun b => b.getLsbD (n % 64)) h
  have hlt : n % 64 < 64 := Nat.mod_lt _ (by omega)
  simp [hlt] at hbit

theorem probes_ne_zero (id : ObjectId) : (probes id).1.2 ≠ 0 ∧ (probes id).2.2 ≠ 0 :=
  ⟨bit_ne_zero _, bit_ne_zero _⟩

theorem setBit_self (hp : p.2 ≠ 0) : (f.setBit p).bits p.1 &&& p.2 ≠ 0 := by
  unfold setBit
  split_ifs with hz
  · dsimp only
    rw [Function.update_self, BitVec.and_comm, BitVec.and_or_distrib_left, BitVec.and_self]
    intro h
    exact hp (BitVec.or_eq_zero_iff.mp h).2
  · exact hz

theorem setBit_mono (hq : f.bits q.1 &&& q.2 ≠ 0) : (f.setBit p).bits q.1 &&& q.2 ≠ 0 := by
  unfold setBit
  split_ifs with hz
  · by_cases heq : q.1 = p.1
    · rw [heq] at hq ⊢
      dsimp only
      rw [Function.update_self, BitVec.and_comm, BitVec.and_or_distrib_left]
      intro h
      rw [BitVec.and_comm] at hq
      exact hq (BitVec.or_eq_zero_iff.mp h).1
    · dsimp only
      rwa [Function.update_of_ne heq]
  · exact hq

theorem mayContain_insert_self : (f.insert id).mayContain id = true := by
  obtain ⟨h₁, h₂⟩ := probes_ne_zero id
  exact mayContain_iff.mpr ⟨setBit_mono (setBit_self h₁), setBit_self h₂⟩

theorem mayContain_insert (h : f.mayContain id' = true) : (f.insert id).mayContain id' = true := by
  obtain ⟨h₁, h₂⟩ := mayContain_iff.mp h
  exact mayContain_iff.mpr ⟨setBit_mono (setBit_mono h₁), setBit_mono (setBit_mono h₂)⟩

theorem mayContain_fill {live : List ObjectId} (h : id ∈ live ∨ f.mayContain id = true) :
    (live.foldl insert f).mayContain id = true := by
  induction live generalizing f with
  | nil => simpa using h
  | cons a live ih =>
    apply ih
    rcases h with h | h
    · rcases List.mem_cons.mp h with rfl | h
      · exact .inr mayContain_insert_self
      · exact .inl h
    · exact .inr (mayContain_insert h)

end AtomicBloom

/-- `inserts` counts the inserts since the last rebuild. -/
structure RebuildableBloom where
  filters : Fin 2 → AtomicBloom
  active : ℕ
  inserts : ℕ

namespace RebuildableBloom

def new : RebuildableBloom := ⟨fun _ => .new, 0, 0⟩

def insert (f : RebuildableBloom) (id : ObjectId) : RebuildableBloom :=
  { f with filters := fun k => (f.filters k).insert id, inserts := (f.inserts + 1) % 2 ^ 64 }

def mayContain (f : RebuildableBloom) (id : ObjectId) : Bool :=
  (f.filters (Fin.ofNat 2 f.active)).mayContain id

def rebuild (f : RebuildableBloom) (live : List ObjectId) : RebuildableBloom where
  filters := Function.update f.filters (Fin.ofNat 2 (f.active + 1)) (live.foldl .insert .new)
  active := (f.active + 1) % 2
  inserts := 0

/-- Both buffers answer for `id`. -/
def Covers (f : RebuildableBloom) (id : ObjectId) : Prop := ∀ k, (f.filters k).mayContain id = true

variable {f : RebuildableBloom} {id id' : ObjectId}

theorem Covers.mayContain (h : f.Covers id) : f.mayContain id = true := h _

theorem covers_insert_self : (f.insert id).Covers id := fun _ => AtomicBloom.mayContain_insert_self

theorem Covers.insert (h : f.Covers id') : (f.insert id).Covers id' :=
  fun k => AtomicBloom.mayContain_insert (h k)

theorem Covers.rebuild {live : List ObjectId} (h : f.Covers id) (hlive : id ∈ live) :
    (f.rebuild live).Covers id := by
  intro k
  unfold RebuildableBloom.rebuild
  dsimp only
  by_cases hk : k = Fin.ofNat 2 (f.active + 1)
  · rw [hk, Function.update_self]
    exact AtomicBloom.mayContain_fill (.inl hlive)
  · rw [Function.update_of_ne hk]
    exact h k

end RebuildableBloom

end WeavePy.Gc

/-!
The collector's registry: a slab of entries, a list of slots for each generation and for the frozen
objects, and the ways objects enter it, leave it and move between its lists.
-/

namespace WeavePy.Gc

/-- No slot. -/
def noSlot : ℕ := 2 ^ 32 - 1

/-- From here on an object's own slot is a position in its young set. -/
def youngBit : ℕ := 2 ^ 31

/-- The first slot number the slab never hands out. -/
def tempBit : ℕ := 2 ^ 31

abbrev nGenerations : ℕ := 3

def genFrozen : ℕ := 0xfe

def genFree : ℕ := 0xff

def fFinalized : BitVec 8 := 1

def fQueued : BitVec 8 := 2

def fCand : BitVec 8 := 4

def fReached : BitVec 8 := 8

/-- `as u32`. -/
def asU32 (n : ℕ) : ℕ := n % 2 ^ 32

inductive Kind where
  | instance_
  | type
  | function
  | generator
  | coroutine
  | asyncGenerator
  | other
  deriving DecidableEq, Repr

structure WeakObject where
  kind : Kind
  addr : ObjectId
  deriving DecidableEq, Repr

def Kind.isIntrusive : Kind → Bool
  | .other => false
  | _ => true

def slotIsIntrusive (w : WeakObject) : Bool := w.kind.isIntrusive

/-- An allocation: the object is alive while `strong` is positive. -/
structure Obj where
  kind : Kind
  strong : ℕ
  gcSlot : ℕ
  finalizeRan : Bool
  gcDeferred : Bool
  deriving DecidableEq, Repr

abbrev Heap := ObjectId → Option Obj

def Heap.set (heap : Heap) (a : ObjectId) (o : Obj) : Heap := Function.update heap a (some o)

def isDead (heap : Heap) (w : WeakObject) : Bool := (heap w.addr).elim true fun o => o.strong = 0

def clearIntrusiveSlot (heap : Heap) (w : WeakObject) : Heap :=
  match heap w.addr with
  | some o => if 0 < o.strong then heap.set w.addr { o with gcSlot := noSlot } else heap
  | none => heap

structure Entry where
  obj : Option WeakObject
  pos : ℕ
  gcRefs : BitVec 32
  node : ℕ
  gen : ℕ
  flags : BitVec 8
  deriving DecidableEq, Repr

def Entry.has (e : Entry) (flag : BitVec 8) : Bool := e.flags &&& flag != 0

def Entry.set (e : Entry) (flag : BitVec 8) (on : Bool) : Entry :=
  { e with flags := if on then e.flags ||| flag else e.flags &&& ~~~flag }

structure Registry where
  slab : List Entry
  free : ℕ
  gens : Fin nGenerations → List ℕ
  frozen : List ℕ
  index : Std.HashMap ObjectId ℕ

namespace Registry

def new : Registry := ⟨[], noSlot, fun _ => [], [], ∅⟩

def entry (r : Registry) (slot : ℕ) : Outcome Entry := WeavePy.index r.slab slot

/-- The entry of a slot that a generation's list holds. -/
def listEntry (r : Registry) (slot : ℕ) : Outcome Entry := getUnchecked r.slab slot

/-- The list an entry of generation `gen` is in. -/
def list (r : Registry) (gen : ℕ) : List ℕ :=
  if gen = genFrozen then r.frozen else if h : gen < nGenerations then r.gens ⟨gen, h⟩ else []

def listMut (r : Registry) (gen : ℕ) : Outcome (List ℕ) :=
  if gen = genFrozen ∨ gen < nGenerations then .ok (r.list gen) else .error .panic

def setList (r : Registry) (gen : ℕ) (l : List ℕ) : Registry :=
  if gen = genFrozen then { r with frozen := l }
  else if h : gen < nGenerations then { r with gens := Function.update r.gens ⟨gen, h⟩ l } else r

def setEntry (r : Registry) (slot : ℕ) (e : Entry) : Registry := { r with slab := r.slab.set slot e }

def insert (r : Registry) (obj : WeakObject) (gen : ℕ) (flags : BitVec 8) : Outcome (Registry × ℕ) := do
  let list ← r.listMut gen
  let entry := ⟨some obj, asU32 list.length, 0, 0, gen, flags⟩
  if r.free ≠ noSlot then
    let e ← r.entry r.free
    return ({ (r.setEntry r.free entry).setList gen (list ++ [r.free]) with free := e.pos }, r.free)
  else if r.slab.length < tempBit then
    return ({ r.setList gen (list ++ [r.slab.length]) with slab := r.slab ++ [entry] }, r.slab.length)
  else .error .panic

/-- Takes `slot` out of its list by a swap with the last member. -/
def unlink (r : Registry) (slot : ℕ) : Outcome Registry := do
  let e ← r.entry slot
  let list ← r.listMut e.gen
  if e.pos < list.length then
    let list := swapRemove list e.pos
    match list[e.pos]? with
    | none => return r.setList e.gen list
    | some moved =>
      let m ← r.entry moved
      return (r.setList e.gen list).setEntry moved { m with pos := asU32 e.pos }
  else .error .panic

/-- Puts `slot` on the free list; its handle is the result. -/
def release (r : Registry) (slot : ℕ) : Outcome (Registry × Option WeakObject) := do
  let e ← r.entry slot
  let freed := { e with obj := none, pos := r.free, gen := genFree, flags := 0 }
  return ({ r.setEntry slot freed with free := slot }, e.obj)

/-- Puts a slot that is in no list at the end of list `gen`. -/
def join (gen : ℕ) (r : Registry) (slot : ℕ) : Outcome Registry := do
  let list ← r.listMut gen
  let e ← r.entry slot
  return (r.setEntry slot { e with pos := asU32 list.length, gen := gen }).setList gen (list ++ [slot])

end Registry

/-- `collecting` is the oldest generation of the collection in progress. -/
structure GcState where
  reg : Registry
  trackedFilter : RebuildableBloom
  heap : Heap
  collecting : Option (Fin nGenerations)

namespace GcState

def new : GcState := ⟨.new, .new, fun _ => none, none⟩

def slotOf (t : GcState) (a : ObjectId) (o : Obj) : Option ℕ :=
  if o.kind.isIntrusive then if o.gcSlot < youngBit then some o.gcSlot else none
  else if t.trackedFilter.mayContain a then t.reg.index[a]? else none

/-- Drops the index entry, or a live object's own record, that names `slot`. -/
def forgetKey (t : GcState) (slot : ℕ) : Outcome GcState := do
  let e ← t.reg.entry slot
  match e.obj with
  | none => return t
  | some w =>
    if slotIsIntrusive w then return { t with heap := clearIntrusiveSlot t.heap w }
    else if t.reg.index[w.addr]? = some slot then
      return { t with reg := { t.reg with index := t.reg.index.erase w.addr } }
    else return t

/-- Drops an entry that is in no list. -/
def drop (t : GcState) (slot : ℕ) : Outcome GcState := do
  let t ← t.forgetKey slot
  let (reg, _) ← t.reg.release slot
  return { t with reg := reg }

def remove (t : GcState) (slot : ℕ) : Outcome GcState := do
  let reg ← t.reg.unlink slot
  drop { t with reg := reg } slot

def finalizedFlag (kind : Kind) (o : Obj) : BitVec 8 :=
  match kind with
  | .instance_ | .generator | .coroutine | .asyncGenerator => if o.finalizeRan then fFinalized else 0
  | _ => 0

/-- Enters the live, unregistered object `weak` names in generation 0. -/
def enter (t : GcState) (weak : WeakObject) : Outcome GcState :=
  match t.heap weak.addr with
  | none => .error .unchecked
  | some o => do
    let (reg, slot) ← t.reg.insert weak 0 (finalizedFlag weak.kind o)
    if slotIsIntrusive weak then
      let deferred := if weak.kind = .instance_ then false else o.gcDeferred
      return { t with reg := reg, heap := t.heap.set weak.addr { o with gcSlot := slot, gcDeferred := deferred } }
    else
      return { t with
        reg := { reg with index := reg.index.insert weak.addr slot }
        trackedFilter := t.trackedFilter.insert weak.addr }

/-- The hook of a dying instance that recorded `slot`. -/
def forgetInstanceIn (t : GcState) (slot : ℕ) (a : ObjectId) : Outcome GcState :=
  match t.reg.slab[slot]? with
  | none => .ok t
  | some e =>
    match e.obj with
    | none => .ok t
    | some w =>
      if w.kind = .instance_ ∧ w.addr = a ∧ e.gen ≠ genFrozen then t.remove slot else .ok t

def untrack (t : GcState) (a : ObjectId) (o : Obj) : Outcome GcState :=
  if o.kind.isIntrusive ∧ youngBit ≤ o.gcSlot ∧ o.gcSlot ≠ noSlot then
    .ok { t with heap := t.heap.set a { o with gcSlot := noSlot } }
  else
    match t.slotOf a o with
    | some slot => t.remove slot
    | none => .ok t

def untrackId (t : GcState) (id : ObjectId) : Outcome GcState :=
  if t.trackedFilter.mayContain id then
    match t.reg.index[id]? with
    | some slot => t.remove slot
    | none => .ok t
  else .ok t

def deadEntry (t : GcState) (e : Entry) : Bool := e.obj.elim true (isDead t.heap)

/-- The loop of `prune_dead_in`, over the position `i` and the examined and removed counts. -/
def pruneFrom (gen : Fin nGenerations) (budget : ℕ) :
    ℕ → GcState → ℕ → ℕ → ℕ → Outcome (GcState × ℕ × ℕ)
  | 0, _, _, _, _ => .error .diverge
  | fuel + 1, t, i, examined, removed =>
    if examined < budget then
      match (t.reg.gens gen)[i]? with
      | none => .ok (t, removed, i)
      | some slot => do
        let e ← t.reg.listEntry slot
        if t.deadEntry e then
          let t ← t.remove slot
          pruneFrom gen budget fuel t i (examined + 1) (removed + 1)
        else pruneFrom gen budget fuel t (i + 1) (examined + 1) removed
    else .ok (t, removed, i)

def pruneDeadIn (t : GcState) (gen : Fin nGenerations) (start budget : ℕ) : Outcome (GcState × ℕ × ℕ) :=
  let len := (t.reg.gens gen).length
  pruneFrom gen budget (len + 1) t (if start < len then start else 0) 0 0

def freezeAll (t : GcState) : Outcome GcState := do
  let reg ← (List.finRange nGenerations).foldlM (fun r g =>
    (r.gens g).foldlM (Registry.join genFrozen) (r.setList g [])) t.reg
  return { t with reg := reg }

def unfreezeAll (t : GcState) : Outcome GcState := do
  let reg ← t.reg.frozen.foldlM (Registry.join 0) (t.reg.setList genFrozen [])
  return { t with reg := reg }

def rebuildTrackedFilter (t : GcState) : GcState :=
  { t with trackedFilter := t.trackedFilter.rebuild t.reg.index.keys }

/-- The generations `0..=upto`. -/
def generations (upto : Fin nGenerations) : List (Fin nGenerations) :=
  (List.finRange nGenerations).filter (· ≤ upto)

def markEntry (e : Entry) : Entry :=
  { e with gcRefs := 0, flags := e.flags &&& ~~~fReached ||| fCand }

def markFrom (g : Fin nGenerations) : ℕ → GcState → ℕ → Outcome GcState
  | 0, _, _ => .error .diverge
  | fuel + 1, t, i =>
    match (t.reg.gens g)[i]? with
    | none => .ok t
    | some slot => do
      let e ← t.reg.listEntry slot
      if t.deadEntry e then
        let t ← t.remove slot
        markFrom g fuel t i
      else markFrom g fuel { t with reg := t.reg.setEntry slot (markEntry e) } (i + 1)

/-- Marks the live entries of generations `0..=upto` and counts them. -/
def markCandidates (t : GcState) (upto : Fin nGenerations) : Outcome (GcState × ℕ) :=
  (generations upto).foldlM (fun (t, n) g => do
    let t ← markFrom g ((t.reg.gens g).length + 1) t 0
    return (t, n + (t.reg.gens g).length)) (t, 0)

/-- The end of a collection that only looked for dead weak referents. -/
def unmarkCandidates (t : GcState) (upto : Fin nGenerations) : Outcome GcState := do
  let reg ← (generations upto).foldlM (fun r g =>
    (t.reg.gens g).foldlM (fun r slot => do
      let e ← r.entry slot
      return r.setEntry slot (e.set (fCand ||| fReached) false)) r) t.reg
  return { t with reg := reg }

/-- The lists a rebuild sorts the slots it took apart into. -/
abbrev Lists := Fin nGenerations → List ℕ

def Lists.push (lists : Lists) (g : Fin nGenerations) (slot : ℕ) : Lists :=
  Function.update lists g (lists g ++ [slot])

def olderOf (g : Fin nGenerations) : Fin nGenerations :=
  if h : g.val + 1 < nGenerations then ⟨g + 1, h⟩ else g

def rehome (g : Fin nGenerations) : GcState × Lists → ℕ → Outcome (GcState × Lists)
  | (t, lists), slot => do
    let e ← t.reg.listEntry slot
    if e.has fCand then
      let e' := e.set (fCand ||| fReached) false
      if e.has fReached then
        return ({ t with reg := t.reg.setEntry slot { e' with gen := olderOf g } }, lists.push (olderOf g) slot)
      else
        let t ← drop { t with reg := t.reg.setEntry slot e' } slot
        return (t, lists)
    else return (t, lists.push g slot)

def takeApart : GcState × Lists → Fin nGenerations → Outcome (GcState × Lists)
  | (t, lists), g =>
    (t.reg.gens g).foldlM (rehome g) ({ t with reg := t.reg.setList g [] }, lists)

def setPositions (start : ℕ) : List ℕ → Registry → Outcome Registry
  | [], r => .ok r
  | slot :: rest, r => do
    let e ← r.entry slot
    setPositions (start + 1) rest (r.setEntry slot { e with pos := asU32 start })

def extend (upto : Fin nGenerations) (lists : Lists) (r : Registry) (g : Fin nGenerations) : Outcome Registry :=
  if upto < g ∧ lists g = [] then .ok r
  else do
    let r' ← setPositions (r.gens g).length (lists g) r
    return r'.setList g (r'.gens g ++ lists g)

/-- Moves the reached candidates up a generation and drops the others. -/
def rebuildGenerations (t : GcState) (upto : Fin nGenerations) : Outcome GcState := do
  let (t, lists) ← (generations upto).foldlM takeApart (t, fun _ => [])
  let reg ← (List.finRange nGenerations).foldlM (extend upto lists) t.reg
  return { t with reg := reg }

end GcState

end WeavePy.Gc
