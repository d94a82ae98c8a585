import WeavePy.DictMap.Pairs

/-!
The dict operations behind an ordered dict: a lookup by native equality settles most keys, and whatever
it cannot settle is left to the interpreter's own equality.
-/

namespace WeavePy.Odict

open DictMap

variable {Ω V : Type}

/-- The keys besides strings and machine ints that hash and compare without running Python. -/
class LeafOps (Ω : Type) where
  otherHash : Ω → Option Int64
  otherEq : Ω → Ω → Option Bool

/-- The native comparison of a probe with a stored key; none for a key of another kind. -/
def leafCompare [LeafOps Ω] : Object Ω → Object Ω → Option Bool
  | .str a, .str b => some (a.bytes == b.bytes)
  | .int a, .int b => some (a == b)
  | .other a, .other b => LeafOps.otherEq a b
  | _, _ => none

structure LeafProbe (Ω : Type) where
  key : Object Ω
  hash : Int64

/-- The keys at which a walk for a probe ends or notes that it met one of another kind. -/
structure LeafStop (Ω : Type) where
  probe : LeafProbe Ω

section Probes

variable [LeafOps Ω]

instance : Probe (LeafProbe Ω) Ω where
  probeHash p := p.hash
  probeEq p k := leafCompare p.key k == some true

instance : Probe (LeafStop Ω) Ω where
  probeHash s := s.probe.hash
  probeEq s k := leafCompare s.probe.key k != some false

/-- Whether the lookup compared the probe with a key of another kind before it ended. -/
def foreign (t : Table Ω V) (p : LeafProbe Ω) : Outcome Bool := do
  match ← t.findHashed p.hash (LeafStop.mk p) with
  | .ok i => return (← getUnchecked t.entries i).key |> leafCompare p.key |>.isNone
  | .error _ => return false

variable [KeyOps Ω]

def LeafProbe.new : Object Ω → Option (LeafProbe Ω)
  | .str s => some ⟨.str s, KeyOps.pyStrHash Ω s.bytes⟩
  | .int i => some ⟨.int i, pyHashLongI64 i⟩
  | .wstr _ => none
  | .other o => (LeafOps.otherHash o).map fun hash => ⟨.other o, hash⟩

/-- The new table with the value replaced, or nothing when native equality does not settle the key. -/
def dictInsertExact (watched : Bool) (t : Table Ω V) (key : Object Ω) (value : V) :
    Outcome (Option (Table Ω V × Option V)) :=
  if watched then pure none
  else
    match LeafProbe.new key with
    | none => pure none
    | some probe => do
      match ← t.probeEntry probe with
      | .occupied i => do
        let (t, old) ← t.replaceValue i value
        return some (t, some old)
      | .vacant hash pos =>
        if ← foreign t probe then return none
        else return some ((← t.pushAt pos hash key value).1, none)

def dictInsert (watched : Bool) (t : Table Ω V) (key : Object Ω) (value : V) : Outcome (Table Ω V × Option V) := do
  match ← dictInsertExact watched t key value with
  | some r => return r
  | none => do
    let (t, _, old) ← t.insertFull key value
    return (t, old)

/-- Where native equality finds the key, if it settles it. -/
def leafIndex (t : Table Ω V) (key : Object Ω) : Outcome (Option (Option ℕ)) :=
  match LeafProbe.new key with
  | none => pure none
  | some probe => do
    match ← t.getIndexOf probe with
    | some i => return some (some i)
    | none => if ← foreign t probe then return none else return some none

def indexOf (t : Table Ω V) (key : Object Ω) : Outcome (Option ℕ) := do
  match ← leafIndex t key with
  | some found => return found
  | none => t.getIndexOf key

def dictLookup (t : Table Ω V) (key : Object Ω) : Outcome (Option V) := do
  match ← indexOf t key with
  | none => return none
  | some i => return some (← getUnchecked t.entries i).value

def dictRemove (t : Table Ω V) (key : Object Ω) : Outcome (Table Ω V × Option (Object Ω × V)) := do
  match ← indexOf t key with
  | none => return (t, none)
  | some i => t.shiftRemoveIndex i

def dictClear (t : Table Ω V) : Outcome (Table Ω V) := do
  let (t, _) ← t.drain 0 t.entries.length
  return t

end Probes

theorem foreign_ok [LeafOps Ω] {t : Table Ω V} (h : SlotsOk t) (p : LeafProbe Ω) : ∃ f, foreign t p = .ok f ∧
    (f = false → (∀ b ∈ t.entries, b.hash = p.hash → leafCompare p.key b.key = some false) ∨
      ∃ b ∈ t.entries, b.hash = p.hash ∧ leafCompare p.key b.key = some true) := by
  obtain ⟨r, hr, hf⟩ := h.findHashed p.hash (LeafStop.mk p)
  unfold foreign
  rw [hr, ok_bind]
  cases r with
  | error pos =>
    refine ⟨false, rfl, fun _ => .inl fun b hb hh => ?_⟩
    have := hf.1 b hb hh
    simpa [Probe.probeEq] using this
  | ok i =>
    obtain ⟨b, hb, hh, he⟩ := hf
    have hget : getUnchecked t.entries i = .ok b := by simp [getUnchecked, hb]
    dsimp only
    rw [hget]
    refine ⟨_, rfl, fun hf => .inr ⟨b, List.mem_of_getElem? hb, hh, ?_⟩⟩
    cases hc : leafCompare p.key b.key with
    | none =>
      rw [hc] at hf
      cases hf
    | some v =>
      cases v with
      | true => rfl
      | false => simp [Probe.probeEq, hc] at he

section Found

variable [LeafOps Ω] {t : Table Ω V} {p : LeafProbe Ω}

theorem getIndexOf_eq {r : Except ℕ ℕ} (hr : t.findHashed p.hash p = .ok r) : t.getIndexOf p = .ok r.toOption := by
  have hhash : Probe.probeHash p = p.hash := rfl
  have hunhashed : ∀ k : Object Ω, Probe.probeEqUnhashed p k = none := fun _ => rfl
  unfold Table.getIndexOf
  split_ifs with hempty hsmall
  · rw [Table.findHashed, if_pos hempty.1, hempty.2] at hr
    cases hr
    rfl
  · cases hl : t.entries with
    | nil => exact absurd ⟨hsmall, hl⟩ hempty
    | cons b l =>
      rw [Table.scanUnhashed, hunhashed]
      dsimp only
      rw [hhash, hr]
      cases r <;> rfl
  · rw [hhash, hr]
    cases r <;> rfl

def entryOf (hash : Int64) : Except ℕ ℕ → Table.Entry
  | .ok i => .occupied i
  | .error pos => .vacant hash pos

theorem probeEntry_eq {r : Except ℕ ℕ} (hr : t.findHashed p.hash p = .ok r) :
    t.probeEntry p = .ok (entryOf p.hash r) := by
  have hhash : Probe.probeHash p = p.hash := rfl
  unfold Table.probeEntry
  dsimp only
  rw [hhash, hr]
  cases r <;> rfl

end Found

/-- The native comparisons agree with the interpreter's. -/
class LawfulLeaf (Ω : Type) [KeyOps Ω] [LeafOps Ω] : Prop where
  hash_eq : ∀ (o : Ω) (hash : Int64), LeafOps.otherHash o = some hash → hash = dictKeyHash (.other o)
  eq_eq : ∀ (a b : Ω) (v : Bool), LeafOps.otherEq a b = some v → v = dictKeyEq (.other a) (.other b)
  self_eq : ∀ o : Ω, (LeafOps.otherHash o).isSome = true → LeafOps.otherEq o o = some true

theorem dictClear_ok [KeyOps Ω] {t : Table Ω V} (h : SlotsOk t) : ∃ t', dictClear t = .ok t' ∧ Holds t' [] := by
  obtain ⟨t', hrun, hslots, hentries⟩ := h.drain (Nat.zero_le _) le_rfl
  have hnil : t'.entries = [] := by rw [hentries, List.take_zero, List.drop_length]; rfl
  unfold dictClear
  rw [hrun, ok_bind]
  exact ⟨t', rfl, hslots, by rw [hnil]; exact keysOk_nil, by unfold pairs; rw [hnil]; rfl⟩

variable [KeyOps Ω] [LeafOps Ω] {t : Table Ω V} {key : Object Ω} {p : LeafProbe Ω} {i : ℕ} {value : V}

theorem leafCompare_eq [LawfulLeaf Ω] {a b : Object Ω} {v : Bool} (h : leafCompare a b = some v) :
    v = dictKeyEq a b := by
  cases a <;> cases b <;> simp only [leafCompare, Option.some.injEq, reduceCtorEq] at h
  · exact h.symm
  · exact h.symm
  · exact LawfulLeaf.eq_eq _ _ _ h

theorem LeafProbe.new_some [LawfulLeaf Ω] (h : LeafProbe.new key = some p) :
    p.key = key ∧ p.hash = dictKeyHash key := by
  cases key with
  | str s =>
    rw [LeafProbe.new, Option.some_inj] at h
    subst h
    exact ⟨rfl, rfl⟩
  | wstr cps => simp [LeafProbe.new] at h
  | int i =>
    rw [LeafProbe.new, Option.some_inj] at h
    subst h
    exact ⟨rfl, rfl⟩
  | other o =>
    obtain ⟨hash, hh, rfl⟩ := Option.map_eq_some_iff.mp h
    exact ⟨rfl, LawfulLeaf.hash_eq o hash hh⟩

/-- A probe matches its own key. -/
theorem leafCompare_self [LawfulLeaf Ω] (h : LeafProbe.new key = some p) : leafCompare key key = some true := by
  cases key with
  | str s => simp [leafCompare]
  | wstr cps => simp [LeafProbe.new] at h
  | int i => simp [leafCompare]
  | other o =>
    obtain ⟨hash, hh, rfl⟩ := Option.map_eq_some_iff.mp h
    exact LawfulLeaf.self_eq o (by rw [hh]; rfl)

variable [LawfulKeys Ω] [LawfulLeaf Ω]

/-- A native lookup that settles the key has it where a scan has it. -/
theorem leaf_find (h : SlotsOk t) (hk : KeysOk t.entries) (hp : LeafProbe.new key = some p) :
    ∃ r f, t.findHashed p.hash p = .ok r ∧ foreign t p = .ok f ∧
      match r with
      | .ok i => place t key = some i
      | .error pos => (t.slots ≠ [] → Vacant t.slots t.shift (mix (dictKeyHash key)) pos) ∧
          (f = false → place t key = none) := by
  obtain ⟨hkey, hhash⟩ := LeafProbe.new_some hp
  obtain ⟨r, hr, hfound⟩ := h.findHashed p.hash p
  obtain ⟨f, hf, hexact⟩ := foreign_ok h p
  refine ⟨r, f, hr, hf, ?_⟩
  rw [hkey, hhash] at hexact
  rw [hhash] at hfound
  cases r with
  | ok i =>
    obtain ⟨b, hb, hh, he⟩ := hfound
    have he' : leafCompare key b.key = some true := by
      rw [← hkey]
      exact beq_iff_eq.mp he
    have : Found t (Probe.probeHash key) (Probe.probeEq key) (.ok i) := ⟨b, hb, hh, (leafCompare_eq he').symm⟩
    exact this.findIdx? hk
  | error pos =>
    refine ⟨hfound.2, fun hf => ?_⟩
    have hnone : ∀ b ∈ t.entries, b.hash = dictKeyHash key → dictKeyEq key b.key = false := by
      intro b hb hh
      rcases hexact hf with hall | ⟨c, hc, hch, htrue⟩
      · exact (leafCompare_eq (hall b hb hh)).symm
      · have hmiss : Probe.probeEq p c.key = false := hfound.1 c hc hch
        rw [← hkey] at htrue
        simp [Probe.probeEq, htrue] at hmiss
    have : Found t (Probe.probeHash key) (Probe.probeEq key) (.error pos) := ⟨hnone, hfound.2⟩
    exact this.findIdx? hk

theorem dictInsertExact_ensures (h : SlotsOk t) (hk : KeysOk t.entries) (watched : Bool) (value : V) :
    Ensures (dictInsertExact watched t key value) (fun r => ∀ x, r = some x →
      Holds x.1 (AssocList.store dictKeyEq (pairs t) key value) ∧
        x.2 = (AssocList.find dictKeyEq (pairs t) key).map Prod.snd) (2 ^ 31 ≤ t.entries.length + 1) := by
  unfold dictInsertExact
  split_ifs
  · exact nofun
  · cases hp : LeafProbe.new key with
    | none => exact nofun
    | some p =>
      obtain ⟨r, f, hr, hf, hcase⟩ := leaf_find h hk hp
      dsimp only
      rw [probeEntry_eq hr, ok_bind]
      cases r with
      | ok i =>
        obtain ⟨t', b, hrun, hb, hholds⟩ := replaceValue_holds h hk hcase value
        dsimp only [entryOf]
        rw [hrun, ok_bind]
        rintro _ ⟨⟩
        exact ⟨hholds, by rw [find_of_place hk hcase hb]; rfl⟩
      | error pos =>
        dsimp only [entryOf]
        rw [hf, ok_bind]
        cases f with
        | true => exact nofun
        | false =>
          have hnone := hcase.2 rfl
          rw [if_neg Bool.false_ne_true, (LeafProbe.new_some hp).2]
          apply (pushAt_holds h hk hnone hcase.1 value).bind
          rintro ⟨t', i⟩ hholds _ ⟨⟩
          exact ⟨hholds, by rw [find_of_place_none hnone]; rfl⟩

theorem dictInsert_ensures (h : SlotsOk t) (hk : KeysOk t.entries) (watched : Bool) (key : Object Ω) (value : V) :
    Ensures (dictInsert watched t key value) (fun x =>
      Holds x.1 (AssocList.store dictKeyEq (pairs t) key value) ∧
        x.2 = (AssocList.find dictKeyEq (pairs t) key).map Prod.snd) (2 ^ 31 ≤ t.entries.length + 1) := by
  apply (dictInsertExact_ensures h hk watched value).bind
  intro r hr
  cases r with
  | some x => exact hr x rfl
  | none =>
    apply (insertFull_holds h hk key value).bind
    rintro ⟨t', i, old⟩ hx
    exact hx

theorem indexOf_ok (h : SlotsOk t) (hk : KeysOk t.entries) (key : Object Ω) : indexOf t key = .ok (place t key) := by
  have hgeneral := getIndexOf_eq_place h hk key
  unfold indexOf leafIndex
  cases hp : LeafProbe.new key with
  | none => exact hgeneral
  | some p =>
    obtain ⟨r, f, hr, hf, hcase⟩ := leaf_find h hk hp
    dsimp only
    rw [getIndexOf_eq hr, ok_bind]
    cases r with
    | ok i =>
      rw [hcase]
      rfl
    | error pos =>
      dsimp only [Except.toOption]
      rw [hf, ok_bind]
      cases f with
      | true => exact hgeneral
      | false =>
        rw [hcase.2 rfl]
        rfl

theorem dictLookup_ok (h : SlotsOk t) (hk : KeysOk t.entries) (key : Object Ω) :
    dictLookup t key = .ok ((AssocList.find dictKeyEq (pairs t) key).map Prod.snd) := by
  unfold dictLookup
  rw [indexOf_ok h hk, ok_bind]
  cases hi : place t key with
  | none =>
    rw [find_of_place_none hi]
    rfl
  | some i =>
    have hb := List.getElem?_eq_getElem (place_lt hi)
    dsimp only
    rw [getUnchecked_ok (place_lt hi), find_of_place hk hi hb]
    rfl

/-- The entry leaves, if it is there. -/
theorem dictRemove_ok (h : SlotsOk t) (hk : KeysOk t.entries) (key : Object Ω) :
    ∃ t', dictRemove t key = .ok (t', AssocList.find dictKeyEq (pairs t) key) ∧
      Holds t' (AssocList.remove dictKeyEq (pairs t) key) := by
  unfold dictRemove
  rw [indexOf_ok h hk, ok_bind]
  cases hi : place t key with
  | none =>
    rw [find_of_place_none hi, AssocList.remove_of_none (find_of_place_none hi)]
    exact ⟨t, rfl, h, hk, rfl⟩
  | some i =>
    obtain ⟨t', b, hrun, hb, hholds⟩ := remove_holds h hk hi
    rw [find_of_place hk hi hb]
    exact ⟨t', hrun, hholds⟩

end WeavePy.Odict
