import WeavePy.Rust
import WeavePy.DictMap.Key
import Mathlib.Data.Nat.Bitwise
import Mathlib.Tactic.Linarith
import Mathlib.Data.Nat.Log
import Mathlib.Data.List.Sort

namespace WeavePy.DictMap

/-- The Fibonacci multiplier that mixes a Python hash into slot bits. -/
def MIX : UInt64 := 0x9E3779B97F4A7C15

/-- The low half of a slot: the entry index plus one. -/
def IX_MASK : UInt64 := 0xFFFFFFFF

def mix (hash : Int64) : UInt64 := hash.toUInt64 * MIX

/-- `(m & !IX_MASK) | (i as u64 + 1)`, the word of entry `i` whose mixed hash is `m`. -/
def slotWord (m : UInt64) (i : ℕ) : UInt64 := (m &&& ~~~IX_MASK) ||| (UInt64.ofNat i + 1)

/-- `s & IX_MASK`. -/
def lowHalf (s : UInt64) : ℕ := (s &&& IX_MASK).toNat

/-- `(s >> shift) as usize`. -/
def homeOf (shift : ℕ) (s : UInt64) : ℕ := s.toNat >>> shift

theorem ixMask_toNat : IX_MASK.toNat = 2 ^ 32 - 1 := rfl

theorem lowHalf_eq (s : UInt64) : lowHalf s = s.toNat % 2 ^ 32 := by
  rw [lowHalf, UInt64.toNat_and, ixMask_toNat, Nat.and_two_pow_sub_one_eq_mod]

theorem homeOf_eq (shift : ℕ) (s : UInt64) : homeOf shift s = s.toNat / 2 ^ shift :=
  Nat.shiftRight_eq_div_pow _ _

theorem highHalf_toNat (m : UInt64) : (m &&& ~~~IX_MASK).toNat = 2 ^ 32 * (m.toNat / 2 ^ 32) := by
  rw [UInt64.toNat_and, show (~~~IX_MASK).toNat = (2 ^ 32 - 1) <<< 32 from rfl]
  rw [Nat.mul_comm, ← Nat.shiftRight_eq_div_pow, ← Nat.shiftLeft_eq]
  apply Nat.eq_of_testBit_eq
  intro i
  simp only [Nat.testBit_and, Nat.testBit_shiftLeft, Nat.testBit_shiftRight,
    Nat.testBit_two_pow_sub_one]
  by_cases hi : 32 ≤ i
  · by_cases hi' : i < 64
    · simp [hi, show i - 32 < 32 by omega, show 32 + (i - 32) = i by omega]
    · have hm : m.toNat < 2 ^ i :=
        lt_of_lt_of_le m.toNat_lt (Nat.pow_le_pow_right (by norm_num) (by omega))
      simp [hi, show 32 + (i - 32) = i by omega, Nat.testBit_lt_two_pow hm]
  · simp [hi]

theorem slotWord_toNat (m : UInt64) {i : ℕ} (hi : i + 1 < 2 ^ 32) :
    (slotWord m i).toNat = 2 ^ 32 * (m.toNat / 2 ^ 32) + (i + 1) := by
  have hlow : (UInt64.ofNat i + 1).toNat = i + 1 := by
    rw [UInt64.toNat_add, UInt64.toNat_ofNat']
    have h1 : (1 : UInt64).toNat = 1 := rfl
    rw [h1]
    omega
  rw [slotWord, UInt64.toNat_or, highHalf_toNat, hlow]
  exact (Nat.two_pow_add_eq_or_of_lt hi _).symm

theorem slotWord_ne_zero (m : UInt64) {i : ℕ} (hi : i + 1 < 2 ^ 32) : slotWord m i ≠ 0 := by
  intro h
  have ht := slotWord_toNat m hi
  rw [h] at ht
  simp at ht

theorem lowHalf_slotWord (m : UInt64) {i : ℕ} (hi : i + 1 < 2 ^ 32) :
    lowHalf (slotWord m i) = i + 1 := by
  rw [lowHalf_eq, slotWord_toNat m hi]
  omega

theorem homeOf_slotWord (m : UInt64) {i shift : ℕ} (hi : i + 1 < 2 ^ 32) (hs : 32 ≤ shift) :
    homeOf shift (slotWord m i) = homeOf shift m := by
  obtain ⟨k, rfl⟩ := Nat.exists_eq_add_of_le hs
  rw [homeOf_eq, homeOf_eq, slotWord_toNat m hi, pow_add, ← Nat.div_div_eq_div_mul,
    ← Nat.div_div_eq_div_mul]
  congr 1
  omega

/-- Writing another index in a slot word keeps its high half. -/
theorem retag_slotWord (m : UInt64) {i : ℕ} (j : ℕ) (hi : i + 1 < 2 ^ 32) :
    (slotWord m i &&& ~~~IX_MASK) ||| (UInt64.ofNat j + 1) = slotWord m j := by
  have h : slotWord m i &&& ~~~IX_MASK = m &&& ~~~IX_MASK := by
    apply UInt64.toNat_inj.mp
    rw [highHalf_toNat, highHalf_toNat, slotWord_toNat m hi]
    omega
  rw [h, slotWord]

theorem slotWord_pred (m : UInt64) {i : ℕ} (hi : i + 2 < 2 ^ 32) :
    slotWord m (i + 1) - 1 = slotWord m i := by
  apply UInt64.toNat_inj.mp
  have h1 : (1 : UInt64).toNat = 1 := rfl
  rw [UInt64.toNat_sub_of_le _ _ (by
    rw [UInt64.le_iff_toNat_le, slotWord_toNat m (by omega), h1]; omega),
    slotWord_toNat m (by omega), slotWord_toNat m (by omega), h1]
  omega

/-- `(s ^ m) <= IX_MASK` compares the high halves. -/
theorem xor_le_ixMask (s m : UInt64) :
    s ^^^ m ≤ IX_MASK ↔ s.toNat / 2 ^ 32 = m.toNat / 2 ^ 32 := by
  rw [UInt64.le_iff_toNat_le, UInt64.toNat_xor, ixMask_toNat, ← Nat.shiftRight_eq_div_pow,
    ← Nat.shiftRight_eq_div_pow, ← Nat.xor_eq_zero_iff, ← Nat.shiftRight_xor_distrib,
    Nat.shiftRight_eq_div_pow]
  omega

end WeavePy.DictMap

namespace WeavePy.DictMap

/-- The most entries a table keeps without slots. -/
def SMALL : ℕ := 8

structure Bucket (Ω V : Type) where
  hash : Int64
  key : Object Ω
  value : V

/-- Dense entries in insertion order, and the slot table that points into them. -/
structure Table (Ω V : Type) where
  entries : List (Bucket Ω V)
  slots : List UInt64
  shift : ℕ

/-- `(n.max(SMALL + 1) * 3 / 2 + 1).next_power_of_two()`. -/
def slotsFor (n : ℕ) : ℕ := 2 ^ Nat.clog 2 (max n (SMALL + 1) * 3 / 2 + 1)

def trailingZeros (n : ℕ) : ℕ := ((List.range 64).takeWhile fun i => !n.testBit i).length

/-- `(pos + 1) & mask`. -/
def nextPos (slots : List UInt64) (pos : ℕ) : ℕ := (pos + 1) &&& (slots.length - 1)

/-- A linear probe from `pos`: `visit` sees each slot's position and word until it answers. A probe
that has seen every slot without an answer goes round for ever. -/
def probe {β : Type} (slots : List UInt64) (visit : ℕ → UInt64 → Outcome (Option β)) :
    ℕ → ℕ → Outcome β
  | 0, _ => .error .diverge
  | fuel + 1, pos => do
    let s ← getUnchecked slots pos
    match ← visit pos s with
    | some r => pure r
    | none => probe slots visit fuel (nextPos slots pos)

/-- The walk `while slots[pos] != 0` from the home of `m`. -/
def vacantSlot (slots : List UInt64) (shift : ℕ) (m : UInt64) : Outcome ℕ :=
  probe slots (fun pos s => pure (if s = 0 then some pos else none)) slots.length (homeOf shift m)

/-- The backward shift of `erase_slot`: slot `pos` is the hole and `next` the slot looked at. -/
def shiftBack (shift : ℕ) : ℕ → List UInt64 → ℕ → ℕ → Outcome (List UInt64)
  | 0, _, _, _ => .error .diverge
  | fuel + 1, slots, pos, next => do
    let mask := slots.length - 1
    let s ← index slots next
    if s = 0 then
      setIndex slots pos 0
    else
      let home := homeOf (64 - (64 - shift)) s
      if ((next + 2 ^ 64 - home) % 2 ^ 64) &&& mask ≥ ((next + 2 ^ 64 - pos) % 2 ^ 64) &&& mask then
        let slots ← setIndex slots pos s
        shiftBack shift fuel slots next (nextPos slots next)
      else
        shiftBack shift fuel slots pos (nextPos slots next)

/-- The entries with the one at `from_` moved to `to_`: a rotation of the part between. -/
def moveEntry {α : Type} (l : List α) (from_ to_ : ℕ) : List α :=
  if from_ < to_ then
    l.take from_ ++ ((l.take (to_ + 1)).drop from_).rotateLeft 1 ++ l.drop (to_ + 1)
  else
    l.take to_ ++ ((l.take (from_ + 1)).drop to_).rotateRight 1 ++ l.drop (from_ + 1)

/-- The position entry `k` goes to when `from_` moves to `to_`. -/
def movedIndex (from_ to_ k : ℕ) : ℕ :=
  if k = from_ then to_ else if from_ < to_ then k - 1 else k + 1

/-- `slice::swap`. -/
def swapEntries {α : Type} (l : List α) (a b : ℕ) : Outcome (List α) := do
  let x ← index l a
  let y ← index l b
  pure ((l.set a y).set b x)

namespace Table

variable {Ω V : Type} [KeyOps Ω]

def new : Table Ω V := ⟨[], [], 64⟩

def rebuildSlots (t : Table Ω V) (n : ℕ) : Outcome (Table Ω V) :=
  if n ≤ 2 ^ 32 ∧ t.entries.length < IX_MASK.toNat then do
    let shift := 64 - trailingZeros n
    let slots ← t.entries.zipIdx.foldlM (fun slots e => do
      let pos ← vacantSlot slots shift (mix e.1.hash)
      setUnchecked slots pos (slotWord (mix e.1.hash) e.2)) (List.replicate n 0)
    pure { t with slots, shift }
  else .error .panic

def withCapacity (n : ℕ) : Outcome (Table Ω V) :=
  if n > SMALL then rebuildSlots new (slotsFor n) else pure new

/-- `from_unique_hashed`, given the entries its closure yields. -/
def fromUniqueHashed (entries : List (Bucket Ω V)) : Outcome (Table Ω V) :=
  if entries.length > SMALL then rebuildSlots ⟨entries, [], 64⟩ (slotsFor entries.length)
  else pure ⟨entries, [], 64⟩

/-- `reserve_slots`; the entry vector's own reservation is not observable. -/
def reserve (t : Table Ω V) (additional : ℕ) : Outcome (Table Ω V) :=
  let want := t.entries.length + additional
  if want > SMALL ∧ want * 3 > t.slots.length * 2 then t.rebuildSlots (slotsFor want) else pure t

def shrinkToFit (t : Table Ω V) : Outcome (Table Ω V) :=
  if t.entries.length ≤ SMALL then pure { t with slots := [], shift := 64 }
  else if slotsFor t.entries.length < t.slots.length then t.rebuildSlots (slotsFor t.entries.length)
  else pure t

def clear (t : Table Ω V) : Table Ω V :=
  { t with entries := [], slots := List.replicate t.slots.length 0 }

def reindex (t : Table Ω V) : Outcome (Table Ω V) :=
  if t.slots = [] then pure t else t.rebuildSlots t.slots.length

/-- The probe of `find_hashed` and `find_native` for hash `hash`: `miss` at the first empty slot,
and at each slot of the same half-hash what `look` says of its entry. -/
def probeEntries {γ : Type} (t : Table Ω V) (hash : Int64) (miss : ℕ → γ)
    (look : ℕ → Bucket Ω V → Option γ) : Outcome γ :=
  let m := mix hash
  probe t.slots (fun pos s =>
    if s = 0 then pure (some (miss pos))
    else if s ^^^ m ≤ IX_MASK then do
      let ix := lowHalf s - 1
      let b ← getUnchecked t.entries ix
      pure (look ix b)
    else pure none) t.slots.length (homeOf t.shift m)

/-- `Ok` the position of the entry equal to `key`, or `Err` with the empty slot it would take. -/
def findHashed {Q : Type} [Probe Q Ω] (t : Table Ω V) (hash : Int64) (key : Q) :
    Outcome (Except ℕ ℕ) :=
  if t.slots = [] then
    match t.entries.findIdx? fun b => b.hash == hash && Probe.probeEq key b.key with
    | some i => pure (.ok i)
    | none => pure (.error 0)
  else
    t.probeEntries hash .error fun ix b =>
      if b.hash == hash && Probe.probeEq key b.key then some (.ok ix) else none

/-- The scan of a slotless table in `find_native`. -/
def scanNative (hash : Int64) (eq : Object Ω → Option Bool) :
    List (Bucket Ω V) → ℕ → Option (Except ℕ ℕ)
  | [], _ => some (.error 0)
  | b :: rest, i =>
    if b.hash = hash then
      match eq b.key with
      | none => none
      | some true => some (.ok i)
      | some false => scanNative hash eq rest (i + 1)
    else scanNative hash eq rest (i + 1)

def findNative (t : Table Ω V) (hash : Int64) (eq : Object Ω → Option Bool) :
    Outcome (Option (Except ℕ ℕ)) :=
  if t.slots = [] then pure (scanNative hash eq t.entries 0)
  else
    t.probeEntries hash (fun pos => some (.error pos)) fun ix b =>
      if b.hash = hash then
        match eq b.key with
        | none => some none
        | some true => some (some (.ok ix))
        | some false => none
      else none

def findObjectNative (t : Table Ω V) (key : Object Ω) : Outcome (Option (Int64 × Except ℕ ℕ)) :=
  match key with
  | .str s =>
    match knownHash Ω s with
    | none => pure none
    | some hash => return (← t.findNative hash (strNativeEq s)).map (hash, ·)
  | .int i =>
    if i.toUInt64.toNat < 2 ^ 61 - 1 then return (← t.findNative i (intNativeEq i)).map (i, ·)
    else pure none
  | _ => pure none

/-- `find_object_native`, hashing a `str` key first. -/
def findObjectHashing (t : Table Ω V) (key : Object Ω) :
    Outcome (Option (Int64 × Except ℕ ℕ)) :=
  match key with
  | .str s => t.findObjectNative (.str { s with hashed := true })
  | key => t.findObjectNative key

/-- A small table's lookup without hashing the probe; `none` when some entry needs the hash. -/
def scanUnhashed {Q : Type} [Probe Q Ω] (key : Q) : List (Bucket Ω V) → ℕ → Option (Option ℕ)
  | [], _ => some none
  | b :: rest, i =>
    match Probe.probeEqUnhashed key b.key with
    | none => none
    | some true => some (some i)
    | some false => scanUnhashed key rest (i + 1)

def getIndexOf {Q : Type} [Probe Q Ω] (t : Table Ω V) (key : Q) : Outcome (Option ℕ) :=
  if t.slots = [] ∧ t.entries = [] then pure none
  else
    match if t.slots = [] then scanUnhashed key t.entries 0 else none with
    | some found => pure found
    | none => do
      match ← t.findHashed (Probe.probeHash key) key with
      | .ok i => pure (some i)
      | .error _ => pure none

def get {Q : Type} [Probe Q Ω] (t : Table Ω V) (key : Q) : Outcome (Option V) := do
  match ← t.getIndexOf key with
  | none => pure none
  | some i => return some (← getUnchecked t.entries i).value

def slotOf (t : Table Ω V) (hash : Int64) (ix : ℕ) : Outcome ℕ :=
  probe t.slots (fun pos s => pure (if lowHalf s = ix + 1 then some pos else none)) t.slots.length
    (homeOf t.shift (mix hash))

def eraseSlot (t : Table Ω V) (pos : ℕ) : Outcome (Table Ω V) := do
  let slots ← shiftBack t.shift t.slots.length t.slots pos (nextPos t.slots pos)
  pure { t with slots }

/-- `slots[pos] = (slots[pos] & !IX_MASK) | (to_ + 1)`. -/
def retag (t : Table Ω V) (pos to_ : ℕ) : Outcome (Table Ω V) := do
  let s ← index t.slots pos
  let slots ← setIndex t.slots pos ((s &&& ~~~IX_MASK) ||| (UInt64.ofNat to_ + 1))
  pure { t with slots }

def repoint (t : Table Ω V) (hash : Int64) (from_ to_ : ℕ) : Outcome (Table Ω V) := do
  let pos ← t.slotOf hash from_
  t.retag pos to_

def pushGrowing (t : Table Ω V) (bucket : Bucket Ω V) : Outcome (Table Ω V × ℕ) :=
  let i := t.entries.length
  if i < IX_MASK.toNat - 1 then do
    let n := if t.slots = [] then slotsFor (i + 1) else t.slots.length * 2
    let t ← rebuildSlots { t with entries := t.entries ++ [bucket] } n
    pure (t, i)
  else .error .panic

def pushAt (t : Table Ω V) (pos : ℕ) (hash : Int64) (key : Object Ω) (value : V) :
    Outcome (Table Ω V × ℕ) :=
  let i := t.entries.length
  if t.slots = [] then
    if i < SMALL then pure ({ t with entries := t.entries ++ [⟨hash, key, value⟩] }, i)
    else t.pushGrowing ⟨hash, key, value⟩
  else if (i + 1) * 3 ≤ t.slots.length * 2 ∧ i < IX_MASK.toNat - 1 then do
    let slots ← setUnchecked t.slots pos (slotWord (mix hash) i)
    pure ({ t with slots, entries := t.entries ++ [⟨hash, key, value⟩] }, i)
  else t.pushGrowing ⟨hash, key, value⟩

/-- `push_native`; `capacity` is the entry vector's, which only decides whether it answers. -/
def pushNative (t : Table Ω V) (capacity pos : ℕ) (hash : Int64) (key : Object Ω) (value : V) :
    Outcome (Table Ω V × Bool) :=
  let i := t.entries.length
  if i = capacity then pure (t, false)
  else if t.slots = [] then
    if i ≥ SMALL then pure (t, false)
    else pure ({ t with entries := t.entries ++ [⟨hash, key, value⟩] }, true)
  else if (i + 1) * 3 > t.slots.length * 2 ∨ i ≥ IX_MASK.toNat - 1 then pure (t, false)
  else do
    let slots ← setUnchecked t.slots pos (slotWord (mix hash) i)
    pure ({ t with slots, entries := t.entries ++ [⟨hash, key, value⟩] }, true)

/-- Replace the value of entry `i`, giving back the old one. -/
def replaceValue (t : Table Ω V) (i : ℕ) (value : V) : Outcome (Table Ω V × V) := do
  let b ← getUnchecked t.entries i
  let entries ← setUnchecked t.entries i { b with value }
  pure ({ t with entries }, b.value)

/-- What follows a lookup in the inserting operations: replace a hit's value, push a miss. -/
def insertFound (t : Table Ω V) (r : Except ℕ ℕ) (hash : Int64) (key : Object Ω) (value : V) :
    Outcome (Table Ω V × ℕ × Option V) :=
  match r with
  | .ok i => do
    let (t, old) ← t.replaceValue i value
    pure (t, i, some old)
  | .error pos => do
    let (t, i) ← t.pushAt pos hash key value
    pure (t, i, none)

def insertHashed (t : Table Ω V) (hash : Int64) (key : Object Ω) (value : V) :
    Outcome (Table Ω V × ℕ × Option V) := do
  let r ← t.findHashed hash key
  t.insertFound r hash key value

def insertFull (t : Table Ω V) (key : Object Ω) (value : V) :
    Outcome (Table Ω V × ℕ × Option V) := do
  match ← t.findObjectHashing key with
  | some (hash, r) => t.insertFound r hash key value
  | none => t.insertHashed (dictKeyHash key) key value

def insertUniqueHashed (t : Table Ω V) (hash : Int64) (key : Object Ω) (value : V) :
    Outcome (Table Ω V × ℕ) :=
  if t.slots = [] then t.pushAt 0 hash key value
  else do
    let pos ← vacantSlot t.slots t.shift (mix hash)
    t.pushAt pos hash key value

/-- An entry of `entry` or `probe_entry`. -/
inductive Entry where
  | occupied (index : ℕ)
  | vacant (hash : Int64) (pos : ℕ)

/-- `entry` and `probe_entry`. -/
def probeEntry {Q : Type} [Probe Q Ω] (t : Table Ω V) (key : Q) : Outcome Entry := do
  let hash := Probe.probeHash key
  match ← t.findHashed hash key with
  | .ok index => pure (.occupied index)
  | .error pos => pure (.vacant hash pos)

/-- `entry(key).or_insert(default)`, and `probe_entry` with its vacancy filled. -/
def entryOrInsert {Q : Type} [Probe Q Ω] (t : Table Ω V) (probe : Q) (key : Object Ω)
    (default : V) : Outcome (Table Ω V) := do
  match ← t.probeEntry probe with
  | .occupied _ => pure t
  | .vacant hash pos => return (← t.pushAt pos hash key default).1

/-- `entry(key)` with `OccupiedEntry::insert` on a present key. -/
def entryInsert {Q : Type} [Probe Q Ω] (t : Table Ω V) (probe : Q) (key : Object Ω)
    (value : V) : Outcome (Table Ω V) := do
  match ← t.probeEntry probe with
  | .occupied i => return (← t.replaceValue i value).1
  | .vacant hash pos => return (← t.pushAt pos hash key value).1

/-- Renumber the entries that moved down one by one: `repoint(entries[j].hash, j + 1, j)`. -/
def repointDown (t : Table Ω V) : List ℕ → Outcome (Table Ω V)
  | [] => pure t
  | j :: js => do
    let b ← index t.entries j
    let t ← t.repoint b.hash (j + 1) j
    t.repointDown js

def shiftRemoveIndex (t : Table Ω V) (i : ℕ) : Outcome (Table Ω V × Option (Object Ω × V)) :=
  match t.entries[i]? with
  | none => pure (t, none)
  | some b =>
    if t.slots = [] then pure ({ t with entries := t.entries.eraseIdx i }, some (b.key, b.value))
    else do
      let n := t.entries.length
      let pos ← t.slotOf b.hash i
      let t ← t.eraseSlot pos
      let t := { t with entries := t.entries.eraseIdx i }
      let moved := n - 1 - i
      if moved * 4 ≤ t.slots.length then
        let t ← t.repointDown (List.range' i (n - 1 - i))
        pure (t, some (b.key, b.value))
      else
        let above := i + 1
        let slots := t.slots.map fun s => if lowHalf s > above then s - 1 else s
        pure ({ t with slots }, some (b.key, b.value))

def swapRemoveIndex (t : Table Ω V) (i : ℕ) : Outcome (Table Ω V × Option (Object Ω × V)) :=
  match t.entries[i]? with
  | none => pure (t, none)
  | some b => do
    let n := t.entries.length
    let t ← if t.slots = [] then pure t else do
      let pos ← t.slotOf b.hash i
      let t ← t.eraseSlot pos
      if i ≠ n - 1 then
        let last ← index t.entries (n - 1)
        t.repoint last.hash (n - 1) i
      else pure t
    pure ({ t with entries := swapRemove t.entries i }, some (b.key, b.value))

def replaceIndexUnique (t : Table Ω V) (i : ℕ) (hash : Int64) (key : Object Ω) (value : V) :
    Outcome (Table Ω V × Option (Object Ω × V)) :=
  match t.entries[i]? with
  | none => pure (t, none)
  | some b => do
    let t ← if t.slots = [] then pure t else do
      let pos ← t.slotOf b.hash i
      let t ← t.eraseSlot pos
      let m := mix hash
      let pos ← vacantSlot t.slots t.shift m
      let slots ← setIndex t.slots pos (slotWord m i)
      pure { t with slots }
    pure ({ t with entries := t.entries.set i ⟨hash, key, value⟩ }, some (b.key, b.value))

def pop (t : Table Ω V) : Outcome (Table Ω V × Option (Object Ω × V)) :=
  match t.entries.getLast? with
  | none => pure (t, none)
  | some b => do
    let n := t.entries.length
    let t ← if t.slots = [] then pure t else do
      let pos ← t.slotOf b.hash (n - 1)
      t.eraseSlot pos
    pure ({ t with entries := t.entries.dropLast }, some (b.key, b.value))

/-- `retain`; `keep` may also change the value it is shown. -/
def retain (t : Table Ω V) (keep : Object Ω → V → Bool × V) : Outcome (Table Ω V) :=
  let n := t.entries.length
  let kept := t.entries.filterMap fun b =>
    let r := keep b.key b.value
    if r.1 then some { b with value := r.2 } else none
  if kept.length ≠ n then reindex { t with entries := kept } else pure { t with entries := kept }

def truncate (t : Table Ω V) (len : ℕ) : Outcome (Table Ω V) :=
  if len < t.entries.length then reindex { t with entries := t.entries.take len } else pure t

def splitOff (t : Table Ω V) (at_ : ℕ) : Outcome (Table Ω V × Table Ω V) :=
  if at_ ≤ t.entries.length then do
    let tail := t.entries.drop at_
    let t ← reindex { t with entries := t.entries.take at_ }
    let out ← fromUniqueHashed tail
    pure (t, out)
  else .error .panic

/-- `drain(lo..hi)`. -/
def drain (t : Table Ω V) (lo hi : ℕ) : Outcome (Table Ω V × List (Object Ω × V)) :=
  if lo ≤ hi ∧ hi ≤ t.entries.length then do
    let out := ((t.entries.take hi).drop lo).map fun b => (b.key, b.value)
    let t ← reindex { t with entries := t.entries.take lo ++ t.entries.drop hi }
    pure (t, out)
  else .error .panic

/-- The slots of the entries `ks`, located before any is renumbered. -/
def locate (t : Table Ω V) : List ℕ → Outcome (List ℕ)
  | [] => pure []
  | k :: ks => do
    let b ← index t.entries k
    let pos ← t.slotOf b.hash k
    return pos :: (← t.locate ks)

def retagAll (t : Table Ω V) : List (ℕ × ℕ) → Outcome (Table Ω V)
  | [] => pure t
  | (pos, to_) :: rest => do
    let t ← t.retag pos to_
    t.retagAll rest

def moveIndex (t : Table Ω V) (from_ to_ : ℕ) : Outcome (Table Ω V) :=
  let n := t.entries.length
  if from_ < n ∧ to_ < n then
    if from_ = to_ then pure t
    else if t.slots = [] then pure { t with entries := moveEntry t.entries from_ to_ }
    else do
      let lo := min from_ to_
      let hi := max from_ to_
      let ks := List.range' lo (hi + 1 - lo)
      let at_ ← t.locate ks
      let t ← t.retagAll (at_.zip (ks.map (movedIndex from_ to_)))
      pure { t with entries := moveEntry t.entries from_ to_ }
  else .error .panic

def swapIndices (t : Table Ω V) (a b : ℕ) : Outcome (Table Ω V) :=
  if a = b then pure t
  else do
    let t ← if t.slots = [] then pure t else do
      let x ← index t.entries a
      let pa ← t.slotOf x.hash a
      let y ← index t.entries b
      let pb ← t.slotOf y.hash b
      t.retagAll [(pa, b), (pb, a)]
    let entries ← swapEntries t.entries a b
    pure { t with entries }

def reverse (t : Table Ω V) : Outcome (Table Ω V) :=
  reindex { t with entries := t.entries.reverse }

/-- `sort_by` and `sort_by_key_with`, with `cmp(a, b) != Greater` as `le`. -/
def sortBy (t : Table Ω V) (le : Object Ω × V → Object Ω × V → Bool) : Outcome (Table Ω V) :=
  reindex { t with entries := t.entries.mergeSort fun a b => le (a.key, a.value) (b.key, b.value) }

end Table

end WeavePy.DictMap
