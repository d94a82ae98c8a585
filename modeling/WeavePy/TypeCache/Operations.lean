import WeavePy.Lib.Worklist
import Mathlib.Data.List.Basic
import Mathlib.Data.Nat.Bitwise
import Mathlib.Tactic.Common
import Mathlib.Logic.Function.Basic

/-!
Attribute names: the hash that places them, and their comparison by whole words.
-/

namespace WeavePy.TypeCache

/-- The bytes of a `str`. -/
abbrev Name := List UInt8

/-- `from_le_bytes`. -/
def leWord : List UInt8 → ℕ
  | [] => 0
  | b :: bs => b.toNat + 2 ^ 8 * leWord bs

/-- Of fewer than eight bytes. -/
def shortWord (b : Name) : ℕ :=
  let n := b.length
  if n ≥ 4 then leWord (b.take 4) ||| leWord (b.drop (n - 4)) <<< 32
  else if n ≥ 2 then leWord (b.take 2) ||| leWord (b.drop (n - 2)) <<< 16
  else b.head?.elim 0 UInt8.toNat

/-- `u64::wrapping_mul`. -/
def wrappingMul (a b : ℕ) : ℕ := a * b % 2 ^ 64

/-- `u64::rotate_left`. -/
def rotateLeft (a k : ℕ) : ℕ := (a <<< k ||| a >>> (64 - k)) % 2 ^ 64

def goldenRatio : ℕ := 0x9E3779B97F4A7C15

def nameHash (name : Name) : ℕ :=
  let n := name.length
  let head := if n ≥ 8 then leWord (name.take 8) else shortWord name
  let tail := if n ≥ 8 then leWord (name.drop (n - 8)) else 0
  let x := wrappingMul (head ^^^ rotateLeft tail 29 ^^^ n) goldenRatio
  x ^^^ x >>> 29

def nameEq (a b : Name) : Bool :=
  let n := a.length
  if n ≠ b.length then false
  else if n > 16 then a == b
  else if n ≥ 8 then
    leWord (a.take 8) == leWord (b.take 8) && leWord (a.drop (n - 8)) == leWord (b.drop (n - 8))
  else shortWord a == shortWord b

theorem leWord_lt (b : List UInt8) : leWord b < 2 ^ (8 * b.length) := by
  induction b with
  | nil => simp [leWord]
  | cons x b ih =>
    have hx := x.toNat_lt
    have hpow : 2 ^ (8 * (x :: b).length) = 2 ^ 8 * 2 ^ (8 * b.length) := by
      rw [← Nat.pow_add, List.length_cons]
      congr 1
      omega
    rw [hpow, leWord]
    omega

theorem leWord_inj {a b : List UInt8} (hlen : a.length = b.length) (h : leWord a = leWord b) : a = b := by
  induction a generalizing b with
  | nil => exact (List.length_eq_zero_iff.mp hlen.symm).symm
  | cons x a ih =>
    cases b with
    | nil => simp at hlen
    | cons y b =>
      have hx := x.toNat_lt
      have hy := y.toNat_lt
      simp only [leWord] at h
      have hxy : x = y := UInt8.toNat_inj.mp (by omega)
      rw [hxy, ih (Nat.succ.inj hlen) (by omega)]

/-- Two overlapping words that cover a name determine it. -/
theorem eq_of_take_drop {α : Type} {a b : List α} {k : ℕ} (hlen : a.length = b.length) (hk : a.length ≤ 2 * k)
    (htake : a.take k = b.take k) (hdrop : a.drop (a.length - k) = b.drop (a.length - k)) : a = b := by
  apply List.ext_getElem? fun i => ?_
  rcases Nat.lt_or_ge i k with hi | hi
  · have h := congrArg (·[i]?) htake
    simpa [List.getElem?_take, hi] using h
  · have h := congrArg (·[i - (a.length - k)]?) hdrop
    simp only [List.getElem?_drop] at h
    rwa [show a.length - k + (i - (a.length - k)) = i by omega] at h

theorem words_inj {a b : Name} {k : ℕ} (hlen : a.length = b.length) (hhi : a.length ≤ 2 * k)
    (htake : leWord (a.take k) = leWord (b.take k))
    (hdrop : leWord (a.drop (a.length - k)) = leWord (b.drop (a.length - k))) : a = b := by
  refine eq_of_take_drop hlen hhi (leWord_inj ?_ htake) (leWord_inj ?_ hdrop)
  · simp [hlen]
  · simp [hlen]

theorem or_shift_inj {lo hi lo' hi' k : ℕ} (hlo : lo < 2 ^ k) (hlo' : lo' < 2 ^ k)
    (h : lo ||| hi <<< k = lo' ||| hi' <<< k) : lo = lo' ∧ hi = hi' := by
  rw [Nat.or_comm lo, Nat.or_comm lo', ← Nat.shiftLeft_add_eq_or_of_lt hlo, ← Nat.shiftLeft_add_eq_or_of_lt hlo',
    Nat.shiftLeft_eq, Nat.shiftLeft_eq] at h
  have hmod := congrArg (· % 2 ^ k) h
  simp only [Nat.mul_add_mod_self_right, Nat.mod_eq_of_lt hlo, Nat.mod_eq_of_lt hlo'] at hmod
  subst hmod
  exact ⟨rfl, Nat.eq_of_mul_eq_mul_right (Nat.two_pow_pos k) (Nat.add_right_cancel h)⟩

theorem shortWord_inj {a b : Name} (hlen : a.length = b.length) (hn : a.length < 8)
    (h : shortWord a = shortWord b) : a = b := by
  have hlo (k : ℕ) (c : Name) : leWord (c.take k) < 2 ^ (8 * k) :=
    (leWord_lt _).trans_le (Nat.pow_le_pow_right (by omega) (Nat.mul_le_mul_left 8 (List.length_take_le k c)))
  simp only [shortWord, ← hlen] at h
  split_ifs at h with h4 h2
  · obtain ⟨htake, hdrop⟩ := or_shift_inj (hlo 4 a) (hlo 4 b) h
    exact words_inj hlen (by omega) htake hdrop
  · obtain ⟨htake, hdrop⟩ := or_shift_inj (hlo 2 a) (hlo 2 b) h
    exact words_inj hlen (by omega) htake hdrop
  · cases a with
    | nil => exact (List.length_eq_zero_iff.mp hlen.symm).symm
    | cons x a =>
      obtain rfl : a = [] := List.length_eq_zero_iff.mp (by simp only [List.length_cons] at h2; omega)
      obtain ⟨y, rfl⟩ := List.length_eq_one_iff.mp hlen.symm
      exact congrArg (fun x => [x]) (UInt8.toNat_inj.mp h)

/-- The comparison is exact for names of every length. -/
@[simp]
theorem nameEq_iff (a b : Name) : nameEq a b = true ↔ a = b := by
  constructor
  · intro h
    simp only [nameEq] at h
    split_ifs at h with hlen h16 h8
    · exact beq_iff_eq.mp h
    · obtain ⟨htake, hdrop⟩ := Bool.and_eq_true_iff.mp h
      exact words_inj (not_not.mp hlen) (by omega) (beq_iff_eq.mp htake) (beq_iff_eq.mp hdrop)
    · exact shortWord_inj (not_not.mp hlen) (by omega) (beq_iff_eq.mp h)
  · rintro rfl
    simp [nameEq]

end WeavePy.TypeCache

/-!
Classes, the per-thread type attribute cache in front of their MRO walk, and the versions that keep it
current.
-/

namespace WeavePy.TypeCache

open Function

inductive Key where
  | str (s : Name)
  /-- A key that is not a plain `str`. -/
  | other (o : ℕ)
  deriving DecidableEq

inductive Object where
  | none
  | function (o : ℕ)
  | boundMethod (o : ℕ)
  | other (o : ℕ)
  deriving DecidableEq

/-- What the rest of the VM supplies: the hashes and equality of class-dict keys, the introspection-only
values, and the classes `object`, `type` and `dict`. -/
structure Env where
  pyStrHash : Name → ℤ
  otherHash : ℕ → ℤ
  otherEq : ℕ → Name → Bool
  isSurfaceOnly : Object → Bool
  object_ : ℕ
  type_ : ℕ
  dict_ : ℕ

inductive Dunder where
  | Eq | Hash | GetAttr | GetAttribute | GetItem | SetItem | Missing | Iter | Call | Set | Delete | Class | Ne
  deriving DecidableEq

def utf8 (s : String) : Name := s.toList.map fun c => c.toNat.toUInt8

def Dunder.name : Dunder → Name
  | .Eq => utf8 "__eq__"
  | .Hash => utf8 "__hash__"
  | .GetAttr => utf8 "__getattr__"
  | .GetAttribute => utf8 "__getattribute__"
  | .GetItem => utf8 "__getitem__"
  | .SetItem => utf8 "__setitem__"
  | .Missing => utf8 "__missing__"
  | .Iter => utf8 "__iter__"
  | .Call => utf8 "__call__"
  | .Set => utf8 "__set__"
  | .Delete => utf8 "__delete__"
  | .Class => utf8 "__class__"
  | .Ne => utf8 "__ne__"

inductive Verdict where
  | AttrMissing | PlainNewobj | NoNativeClassMethod | NoSlotWrapper | PlainStore | TypeAttrMissing
  | ValueAttrMissing | NativeFinalizer | NativeFutureLike
  deriving DecidableEq

def Verdict.code : Verdict → ℕ
  | .AttrMissing => 1
  | .PlainNewobj => 2
  | .NoNativeClassMethod => 3
  | .NoSlotWrapper => 4
  | .PlainStore => 5
  | .TypeAttrMissing => 6
  | .ValueAttrMissing => 7
  | .NativeFinalizer => 8
  | .NativeFutureLike => 9

abbrev Dict := List (Key × Object)

/-- A `TypeObject`; its subclass links are weak. -/
structure Class where
  addr : ℕ
  alive : Bool
  isBuiltin : Bool
  dict : Dict
  bases : List ℕ
  mro : List ℕ
  subclasses : List ℕ
  attrVersion : ℕ
  dunderMemo : Dunder → ℕ

def Class.unborn : Class := ⟨0, false, false, [], [], [], [], 0, fun _ => 0⟩

structure Entry where
  name : Option Name
  ver : ℕ
  mroIdx : ℕ
  dictIdx : ℕ

structure NameHash where
  name : Option Name
  hash : ℤ

/-- One thread's `TABLE` and `HASH_MEMO`, null until their first use. -/
structure Thread where
  table : Option (ℕ → Entry)
  hashMemo : Option (ℕ → NameHash)

inductive Hit where
  | at (mroIdx dictIdx : ℕ)
  | absent
  deriving DecidableEq

/-- Classes are named by the order of their creation, so a name is never used again; an address may be. -/
structure State where
  cls : ℕ → Class
  size : ℕ
  threads : ℕ → Thread
  nextTypeVersion : ℕ
  exoticKeys : Bool

def State.new : State := ⟨fun _ => .unborn, 0, fun _ => ⟨none, none⟩, 1, false⟩

section Cache

def SIZE : ℕ := 1 <<< 12

def MASK : ℕ := SIZE - 1

def ABSENT : ℕ := 2 ^ 32 - 1

def HASHES : ℕ := 1 <<< 9

def slot (ty ver nameHash : ℕ) : ℕ :=
  (nameHash ^^^ wrappingMul (ty >>> 4) goldenRatio ^^^ ver) &&& MASK

variable (th : Thread) (ty ver : ℕ) (name : Name) (nameHash : ℕ)

def probe : Option Hit :=
  match th.table with
  | none => none
  | some table =>
    let e := table (slot ty ver nameHash)
    if e.ver == ver && e.name.any fun n => nameEq n name then
      some (if e.mroIdx = ABSENT then .absent else .at e.mroIdx e.dictIdx)
    else none

def Hit.entry (name : Name) (ver : ℕ) : Hit → Entry
  | .at mroIdx dictIdx => ⟨some name, ver, mroIdx, dictIdx⟩
  | .absent => ⟨some name, ver, ABSENT, 0⟩

def fill (hit : Hit) : Thread :=
  let table := th.table.getD fun _ => ⟨none, 0, ABSENT, 0⟩
  { th with table := some (update table (slot ty ver nameHash) (hit.entry name ver)) }

def pyHashOf (env : Env) : Thread × ℤ :=
  let memo := th.hashMemo.getD fun _ => ⟨none, 0⟩
  let i := nameHash >>> 7 &&& (HASHES - 1)
  let e := memo i
  if e.name.any fun n => nameEq n name then ({ th with hashMemo := some memo }, e.hash)
  else
    let hash := env.pyStrHash name
    ({ th with hashMemo := some (update memo i ⟨some name, hash⟩) }, hash)

end Cache

section Dicts

variable (env : Env)

def Key.hash : Key → ℤ
  | .str s => env.pyStrHash s
  | .other o => env.otherHash o

def Key.eqName : Key → Name → Bool
  | .str s, name => s == name
  | .other o, name => env.otherEq o name

def Dict.getFull (d : Dict) (name : Name) (hash : ℤ) : Option (ℕ × Object) :=
  (d.findIdx? fun e => e.1.hash env == hash && e.1.eqName env name).bind fun i => d[i]?.map fun e => (i, e.2)

def Dict.get (d : Dict) (name : Name) : Option Object := (d.getFull env name (env.pyStrHash name)).map Prod.snd

def Dict.insert (d : Dict) (name : Name) (v : Object) : Dict :=
  match d.getFull env name (env.pyStrHash name) with
  | some (i, _) => d.modify i fun e => (e.1, v)
  | none => d ++ [(.str name, v)]

def Dict.delete (d : Dict) (name : Name) : Dict :=
  match d.getFull env name (env.pyStrHash name) with
  | some (i, _) => d.eraseIdx i
  | none => d

end Dicts

namespace State

variable (env : Env) (s : State)

def modify (c : ℕ) (f : Class → Class) : State := { s with cls := update s.cls c (f (s.cls c)) }

def setThread (t : ℕ) (th : Thread) : State := { s with threads := update s.threads t th }

section Versions

def allocateTypeVersion (counter : ℕ) : Option (ℕ × ℕ) :=
  if counter = 0 then none else if counter + 1 < 2 ^ 64 then some (counter, counter + 1) else none

def bump (c : ℕ) : Option State :=
  (allocateTypeVersion s.nextTypeVersion).map fun (v, next) =>
    { s.modify c fun ty => { ty with attrVersion := v } with nextTypeVersion := next }

def isAlive (c : ℕ) : Bool := (s.cls c).alive

def liveSubclasses (c : ℕ) : List ℕ := (s.cls c).subclasses.filter s.isAlive

/-- The live direct subclasses; dead links are dropped. -/
def subclasses (c : ℕ) : State × List ℕ :=
  (s.modify c fun ty => { ty with subclasses := s.liveSubclasses c }, s.liveSubclasses c)

/-- The queue has its end first, where the loop pops. -/
def bumpWalk : ℕ → State → List ℕ → List ℕ → Option State
  | 0, s, _, _ => some s
  | _ + 1, s, _, [] => some s
  | n + 1, s, visited, t :: queue =>
    if t ∈ visited then bumpWalk n s visited queue
    else (s.bump t).bind fun s =>
      let (s, subs) := s.subclasses t
      bumpWalk n s (visited ++ [t]) (subs.reverse ++ queue)

/-- More than the subclass links there are. -/
def walkFuel : ℕ := ((List.range s.size).map fun c => (s.cls c).subclasses.length).sum + 1

def bumpAttrVersion (c : ℕ) : Option State :=
  (s.bump c).bind fun s =>
    if (s.cls c).subclasses.all fun d => !s.isAlive d then some s
    else
      let (s, subs) := s.subclasses c
      bumpWalk s.walkFuel s [c] subs.reverse

end Versions

section Lookups

/-- The walk for a name already hashed: where it ends and on what. -/
def walkFrom (name : Name) (hash : ℤ) : ℕ → List ℕ → Option (ℕ × ℕ × Object)
  | _, [] => none
  | i, o :: mro =>
    match (s.cls o).dict.getFull env name hash with
    | some (dictIdx, v) =>
      if (s.cls o).isBuiltin && env.isSurfaceOnly v then walkFrom name hash (i + 1) mro else some (i, dictIdx, v)
    | none => walkFrom name hash (i + 1) mro

/-- The value recorded at a position, if the key there is still the name. -/
def readAt (eq : Name → Name → Bool) (c mroIdx dictIdx : ℕ) (name : Name) : Option Object :=
  (s.cls c).mro[mroIdx]?.bind fun owner =>
    (s.cls owner).dict[dictIdx]?.bind fun (k, v) =>
      match k with
      | .str n => if eq n name then some v else none
      | .other _ => none

/-- The walk, with its outcome recorded. -/
def walkAndFill (t c : ℕ) (name : Name) (ver h : ℕ) : State × Option (Object × ℕ) :=
  let (th, hash) := pyHashOf (s.threads t) name h env
  match s.walkFrom env name hash 0 (s.cls c).mro with
  | some (i, dictIdx, v) =>
    (s.setThread t (fill th (s.cls c).addr ver name h (.at (i % 2 ^ 32) (dictIdx % 2 ^ 32))), some (v, i))
  | none => (s.setThread t (fill th (s.cls c).addr ver name h .absent), none)

def lookupCached (t c : ℕ) (name : Name) : State × Option (Object × ℕ) :=
  let ver := (s.cls c).attrVersion
  let h := nameHash name
  match probe (s.threads t) (s.cls c).addr ver name h with
  | some .absent => (s, none)
  | some (.at mroIdx dictIdx) =>
    match (s.readAt nameEq c mroIdx dictIdx name).or (s.readAt (· == ·) c mroIdx dictIdx name) with
    | some v => (s, some (v, mroIdx))
    | none => s.walkAndFill env t c name ver h
  | none => s.walkAndFill env t c name ver h

/-- The uncached walk, which also serves once a class dict holds an exotic key. -/
def mroWalk (name : Name) : List ℕ → Option (Object × ℕ)
  | [] => none
  | o :: mro =>
    match (s.cls o).dict.get env name with
    | some v => if (s.cls o).isBuiltin && env.isSurfaceOnly v then mroWalk name mro else some (v, o)
    | none => mroWalk name mro

def uncached (c : ℕ) (name : Name) : Option (Object × ℕ) := s.mroWalk env name (s.cls c).mro

def lookup (t c : ℕ) (name : Name) : State × Option Object :=
  if s.exoticKeys then (s, (s.uncached env c name).map Prod.fst)
  else
    let (s, found) := s.lookupCached env t c name
    (s, found.map Prod.fst)

def lookupWithOwner (t c : ℕ) (name : Name) : State × Option (Object × ℕ) :=
  if s.exoticKeys then (s, s.uncached env c name)
  else
    let (s, found) := s.lookupCached env t c name
    (s, found.bind fun (v, idx) => (s.cls c).mro[idx]?.map fun owner => (v, owner))

end Lookups

section Dunders

def VALID : ℕ := 1
def PRESENT : ℕ := 1 <<< 1
def NONE : ℕ := 1 <<< 2
def FUNCTION : ℕ := 1 <<< 3
def BUILTIN_OWNER : ℕ := 1 <<< 4
def OBJECT_OWNER : ℕ := 1 <<< 5
def TYPE_OWNER : ℕ := 1 <<< 6
def DICT_OWNER : ℕ := 1 <<< 7

/-- `DunderInfo::resolve`. -/
def resolve : Option (Object × ℕ) → ℕ
  | none => VALID
  | some (value, owner) =>
    VALID ||| PRESENT |||
      (match value with
        | .none => NONE
        | .function _ | .boundMethod _ => FUNCTION
        | .other _ => 0) |||
      (if (s.cls owner).isBuiltin then BUILTIN_OWNER else 0) |||
      (if owner = env.object_ then OBJECT_OWNER
        else if owner = env.type_ then TYPE_OWNER
        else if owner = env.dict_ then DICT_OWNER
        else 0)

def dunder (t c : ℕ) (d : Dunder) : State × ℕ :=
  let version := (s.cls c).attrVersion
  let memo := (s.cls c).dunderMemo d
  if memo &&& VALID ≠ 0 ∧ memo >>> 8 = version then (s, memo % 2 ^ 8)
  else
    let (s, found) := s.lookupWithOwner env t c d.name
    let info := s.resolve env found
    (s.modify c fun ty =>
      { ty with dunderMemo := update ty.dunderMemo d (version <<< 8 % 2 ^ 64 ||| info) }, info)

end Dunders

section Verdicts

def verdictVer (c : ℕ) (family : Verdict) : ℕ := (s.cls c).attrVersion ||| family.code <<< 56

def verdictHash (family : Verdict) (name : Name) : ℕ := nameHash name ^^^ wrappingMul family.code goldenRatio

def verdictCached (t c : ℕ) (family : Verdict) (name : Name) : Option Bool :=
  (probe (s.threads t) (s.cls c).addr (s.verdictVer c family) name (verdictHash family name)).map (· == .absent)

def verdictRecord (t c : ℕ) (family : Verdict) (name : Name) (verdict : Bool) : State :=
  s.setThread t (fill (s.threads t) (s.cls c).addr (s.verdictVer c family) name (verdictHash family name)
    (if verdict then .absent else .at 0 0))

def memoVerdict (t c : ℕ) (family : Verdict) (name : Name) (compute : Bool) : State × Bool :=
  match s.verdictCached t c family name with
  | some verdict => (s, verdict)
  | none => (s.verdictRecord t c family name compute, compute)

end Verdicts

section Classes

/-- A new class over the `mro` its bases linearise to. -/
def newClass (addr : ℕ) (isBuiltin : Bool) (dict : Dict) (bases mro : List ℕ) : Option State :=
  (allocateTypeVersion s.nextTypeVersion).map fun (v, next) =>
    let ty := ⟨addr, true, isBuiltin, dict, bases, mro, [], v, fun _ => 0⟩
    let exotic := dict.any fun e => match e.1 with
      | .str _ => false
      | .other _ => true
    bases.foldl (fun s' b => s'.modify b fun ty => { ty with subclasses := ty.subclasses ++ [s.size] })
      { s with cls := update s.cls s.size ty, size := s.size + 1, nextTypeVersion := next,
               exoticKeys := s.exoticKeys || exotic }

/-- The class and its transitive subclasses, parents first. -/
def affected : ℕ → ℕ → List ℕ → List ℕ
  | 0, _, found => found
  | n + 1, i, found =>
    match found[i]? with
    | none => found
    | some t =>
      affected n (i + 1)
        ((s.liveSubclasses t).foldl (fun found d => if d ∈ found then found else found ++ [d]) found)

/-- The class takes new bases and the affected classes what they now linearise to, and the class moves to
its new bases' links. -/
def rebased (c : ℕ) (bases : List ℕ) (mroOf : ℕ → List ℕ) : State :=
  let s₁ := s.modify c fun ty => { ty with bases := bases }
  let s₂ := (s.affected (s.size + 1) 0 [c]).foldl (fun s' d => s'.modify d fun ty => { ty with mro := mroOf d }) s₁
  let s₃ := (s.cls c).bases.foldl
    (fun s' b => s'.modify b fun ty => { ty with subclasses := ty.subclasses.filter fun d => !s.isAlive d || d ≠ c }) s₂
  bases.foldl (fun s' b => s'.modify b fun ty => { ty with subclasses := ty.subclasses ++ [c] }) s₃

/-- `__bases__` assignment. -/
def setBases (c : ℕ) (bases : List ℕ) (mroOf : ℕ → List ℕ) : Option State :=
  (s.rebased c bases mroOf).bumpAttrVersion c

end Classes

end State

inductive Op where
  | newClass (addr : ℕ) (isBuiltin : Bool) (dict : Dict) (bases mro : List ℕ)
  /-- The last strong reference to a class goes. -/
  | die (c : ℕ)
  | setAttr (c : ℕ) (name : Name) (v : Object)
  | delAttr (c : ℕ) (name : Name)
  /-- A metaclass's own `mro()` is installed. -/
  | setMro (c : ℕ) (mro : List ℕ)
  | setBases (c : ℕ) (bases : List ℕ) (mroOf : ℕ → List ℕ)
  /-- A `__bases__` assignment fails and is rolled back. -/
  | bump (c : ℕ)
  | lookup (t c : ℕ) (name : Name)
  | lookupWithOwner (t c : ℕ) (name : Name)
  | dunder (t c : ℕ) (d : Dunder)
  | memoVerdict (t c : ℕ) (family : Verdict) (name : Name) (compute : Bool)
  | verdictRecord (t c : ℕ) (family : Verdict) (name : Name) (verdict : Bool)
  | threadExit (t : ℕ)

/-- `none` when the version space is exhausted, which is a panic. -/
def State.step (env : Env) (s : State) : Op → Option State
  | .newClass addr isBuiltin dict bases mro => s.newClass addr isBuiltin dict bases mro
  | .die c => some (s.modify c fun ty => { ty with alive := false })
  | .setAttr c name v => (s.modify c fun ty => { ty with dict := ty.dict.insert env name v }).bumpAttrVersion c
  | .delAttr c name => (s.modify c fun ty => { ty with dict := ty.dict.delete env name }).bumpAttrVersion c
  | .setMro c mro => (s.modify c fun ty => { ty with mro := mro }).bumpAttrVersion c
  | .setBases c bases mroOf => s.setBases c bases mroOf
  | .bump c => s.bumpAttrVersion c
  | .lookup t c name => some (s.lookup env t c name).1
  | .lookupWithOwner t c name => some (s.lookupWithOwner env t c name).1
  | .dunder t c d => some (s.dunder env t c d).1
  | .memoVerdict t c family name compute => some (s.memoVerdict t c family name compute).1
  | .verdictRecord t c family name verdict => some (s.verdictRecord t c family name verdict)
  | .threadExit t => some (s.setThread t ⟨none, none⟩)

end WeavePy.TypeCache
