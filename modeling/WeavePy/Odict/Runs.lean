import WeavePy.Odict.Tables

/-!
Runs over any number of ordered dicts, whose payloads may also be changed behind their orders' backs.
-/

namespace WeavePy.Odict

open DictMap AssocList

variable {Ω V : Type}

/-- What one call asks of its receiver; an update has already gathered its pairs, or given up. -/
inductive Call (Ω V : Type) where
  /-- An iteration, which creates the order. -/
  | orderOf
  | setitem (key : Object Ω) (value : V)
  | delitem (key : Object Ω)
  | moveToEnd (key : KeyRef Ω) (last : Bool)
  | popitem (last : Bool)
  | pop (key : Object Ω) (default : Option V)
  | clear
  | setdefault (key : Object Ω) (default : V)
  | updateFast (pairs : Option (List (Object Ω × V)))

inductive Op (Ω V : Type) where
  | newInst
  | call (i : ℕ) (c : Call Ω V)
  /-- `update_fast` from another ordered dict. -/
  | updateFrom (i j : ℕ)
  /-- The dict's own methods, called on the payload. -/
  | direct (i : ℕ) (main : Table Ω V)

section Model

variable [KeyOps Ω]

def Call.effect (m : List (Object Ω × V)) : Call Ω V → List (Object Ω × V)
  | .orderOf => m
  | .setitem key value => store dictKeyEq m key value
  | .delitem key => remove dictKeyEq m key
  | .moveToEnd key last => AssocList.moveToEnd dictKeyEq m key.obj last
  | .popitem last => m.eraseIdx (if last then m.length - 1 else 0)
  | .pop key _ => remove dictKeyEq m key
  | .clear => []
  | .setdefault key default => (find dictKeyEq m key).elim (store dictKeyEq m key default) fun _ => m
  | .updateFast pairs => (pairs.getD []).foldl (fun m e => store dictKeyEq m e.1 e.2) m

def Call.reply (m : List (Object Ω × V)) : Call Ω V → Result Ω V
  | .orderOf => .ok .noneObject
  | .setitem _ _ => .ok .noneObject
  | .delitem key => (find dictKeyEq m key).elim (.error (.keyError key)) fun _ => .ok .noneObject
  | .moveToEnd key _ => (find dictKeyEq m key.obj).elim (.error (.keyError key.obj)) fun _ => .ok .noneObject
  | .popitem last => (atEnd m last).elim (.error .emptyError) fun e => .ok (.item e.1 e.2)
  | .pop key default => (find dictKeyEq m key).elim
      (default.elim (.error (.keyError key)) fun v => .ok (.value v)) fun e => .ok (.value e.2)
  | .clear => .ok .noneObject
  | .setdefault key default => .ok (.value ((find dictKeyEq m key).elim default fun e => e.2))
  | .updateFast pairs => .ok (.bool pairs.isSome)

end Model

variable [KeyOps Ω] [LeafOps Ω]

namespace OrderedDict

def full (watched : Bool) (od : OrderedDict Ω V) : Call Ω V → Outcome (OrderedDict Ω V × Result Ω V)
  | .orderOf => pure (⟨od.main, some od.orderOf⟩, .ok .noneObject)
  | .setitem key value => od.setitem watched key value
  | .delitem key => od.delitem key
  | .moveToEnd key last => od.moveToEnd key last
  | .popitem last => od.popitem last
  | .pop key default => od.pop key default
  | .clear => od.clear
  | .setdefault key default => od.setdefault watched key default
  | .updateFast pairs => od.updateFast watched pairs

def half (watched : Bool) (od : OrderedDict Ω V) : Call Ω V → Outcome (Half Ω V)
  | .setitem key value => od.setitemLeaf watched key value
  | .moveToEnd key last => od.moveToEndLeaf watched key.obj last
  | .popitem last => od.popitemLeaf watched last
  | .pop key default => od.popLeaf watched key default
  | _ => pure (od, none)

/-- The leaf half first, if it is tried at all; what it declines is left to the full operation. -/
def run (leaf watched : Bool) (od : OrderedDict Ω V) (c : Call Ω V) : Outcome (OrderedDict Ω V × Result Ω V) :=
  if leaf then do
    let (od, r) ← od.half watched c
    match r with
    | some r => return (od, r)
    | none => od.full watched c
  else od.full watched c

end OrderedDict

def step (leaf watched : Bool) (heap : List (OrderedDict Ω V)) : Op Ω V → Outcome (List (OrderedDict Ω V) × Result Ω V)
  | .newInst => pure (heap ++ [⟨.new, none⟩], .ok .noneObject)
  | .call i c => do
    let od ← index heap i
    let (od, r) ← od.run leaf watched c
    return (heap.set i od, r)
  | .updateFrom i j => do
    let other ← index heap j
    let heap := heap.set j ⟨other.main, some other.orderOf⟩
    let pairs ← OrderedDict.orderedPairs other.main (other.orderOf.entries.map fun b => b.key)
    let od ← index heap i
    let (od, r) ← od.updateFast watched pairs
    return (heap.set i od, r)
  | .direct i main => do
    let od ← index heap i
    return (heap.set i ⟨main, od.order⟩, .ok .noneObject)

/-- What an instance holds by the list model; nothing is said once its payload was changed directly. -/
abbrev Model (Ω V : Type) := Option (List (Object Ω × V))

/-- What an update from `od` reads: its entries in its order, unless a key needs the interpreter. Out of
step, whatever the order's keys find in the payload. -/
def sourcePairs (od : OrderedDict Ω V) : Model Ω V → Option (List (Object Ω × V))
  | some m => if m.all fun e => (LeafProbe.new e.1).isSome then some m else none
  | none => (OrderedDict.orderedPairs od.main (od.orderOf.entries.map fun b => b.key)).toOption.join

def pairsAt (heap : List (OrderedDict Ω V)) (models : List (Model Ω V)) (j : ℕ) : Option (List (Object Ω × V)) :=
  heap[j]?.bind fun od => models[j]?.bind fun m => sourcePairs od m

def effect (heap : List (OrderedDict Ω V)) (models : List (Model Ω V)) : Op Ω V → List (Model Ω V)
  | .newInst => models ++ [some []]
  | .call i c => models.modify i (Option.map c.effect)
  | .updateFrom i j => models.modify i (Option.map (Call.updateFast (pairsAt heap models j)).effect)
  | .direct i _ => models.modify i fun _ => none

/-- The reply the list model gives. -/
def expected (heap : List (OrderedDict Ω V)) (models : List (Model Ω V)) : Op Ω V → Option (Result Ω V)
  | .newInst => some (.ok .noneObject)
  | .call i c => models[i]?.join.map c.reply
  | .updateFrom _ j => some (.ok (.bool (pairsAt heap models j).isSome))
  | .direct _ _ => some (.ok .noneObject)

/-- The instances are there, and a payload changed directly is still a table. -/
def Allowed (heap : List (OrderedDict Ω V)) : Op Ω V → Prop
  | .newInst => True
  | .call i _ => i < heap.length
  | .updateFrom i j => i < heap.length ∧ j < heap.length
  | .direct i main => i < heap.length ∧ SlotsOk main ∧ KeysOk main.entries

inductive Reachable : List (OrderedDict Ω V) → List (Model Ω V) → Prop
  | nil : Reachable [] []
  | step {heap heap' : List (OrderedDict Ω V)} {models : List (Model Ω V)} {r : Result Ω V}
      (h : Reachable heap models) (leaf watched : Bool) (op : Op Ω V) (ha : Allowed heap op)
      (hrun : Odict.step leaf watched heap op = .ok (heap', r)) : Reachable heap' (effect heap models op)

/-- How large a table may have to become. -/
def Call.bound (od : OrderedDict Ω V) : Call Ω V → ℕ
  | .setitem _ _ | .setdefault _ _ => od.size + 1
  | .updateFast (some pairs) => od.size + pairs.length
  | _ => 0

def bound (heap : List (OrderedDict Ω V)) : Op Ω V → ℕ
  | .call i c => heap[i]?.elim 0 c.bound
  | .updateFrom i j => (heap[i]?.elim 0 fun od => od.size) + heap[j]?.elim 0 fun od => od.size
  | _ => 0

/-- In step with its list, or just two tables. -/
def Shows (od : OrderedDict Ω V) : Model Ω V → Prop
  | some m => InStep od m
  | none => Tables od

variable {od : OrderedDict Ω V} {m : List (Object Ω × V)} {model : Model Ω V} {heap heap' : List (OrderedDict Ω V)}
  {models : List (Model Ω V)} {op : Op Ω V} {i : ℕ}

omit [LeafOps Ω] in
theorem Shows.tables (h : Shows od model) : Tables od := by
  cases model with
  | some m => exact InStep.tables h
  | none => exact h

omit [LeafOps Ω] in
theorem length_eq (h : ∀ j : ℕ, Option.Rel Shows heap[j]? models[j]?) : heap.length = models.length := by
  apply Nat.le_antisymm
  · by_contra hlt
    have hrel := h models.length
    rw [List.getElem?_eq_getElem (Nat.lt_of_not_le hlt), List.getElem?_eq_none le_rfl] at hrel
    cases hrel
  · by_contra hlt
    have hrel := h heap.length
    rw [List.getElem?_eq_getElem (Nat.lt_of_not_le hlt), List.getElem?_eq_none le_rfl] at hrel
    cases hrel

omit [LeafOps Ω] in
theorem instep_new : InStep (⟨.new, none⟩ : OrderedDict Ω V) [] :=
  ⟨SlotsOk.new, keysOk_nil, List.Perm.refl _, ⟨SlotsOk.new, keysOk_nil, rfl⟩, fun _ => rfl⟩

omit [LeafOps Ω] in
theorem Shows.touch (h : Shows od model) : Shows ⟨od.main, some od.orderOf⟩ model := by
  cases model with
  | some m => exact InStep.touch h
  | none => exact Tables.touch h

omit [LeafOps Ω] in
theorem set_shows {od' : OrderedDict Ω V} {f : Model Ω V → Model Ω V}
    (h : ∀ j : ℕ, Option.Rel Shows heap[j]? models[j]?) (hod : heap[i]? = some od)
    (hf : ∀ model, models[i]? = some model → Shows od' (f model)) (j : ℕ) :
    Option.Rel Shows (heap.set i od')[j]? (models.modify i f)[j]? := by
  have hj := h j
  rw [List.getElem?_set, List.getElem?_modify]
  split_ifs with hij hlt
  · subst hij
    rw [hod] at hj
    cases hm : models[i]? with
    | none =>
      rw [hm] at hj
      cases hj
    | some model => exact .some (hf model hm)
  · subst hij
    exact absurd (List.getElem?_eq_some_iff.mp hod).1 hlt
  · rw [id_map']
    exact hj

omit [LeafOps Ω] in
theorem exists_model (h : ∀ j : ℕ, Option.Rel Shows heap[j]? models[j]?) (hi : i < heap.length) :
    ∃ od model, heap[i]? = some od ∧ models[i]? = some model ∧ Shows od model := by
  have hod := List.getElem?_eq_getElem hi
  have hrel := h i
  rw [hod] at hrel
  cases hm : models[i]? with
  | none =>
    rw [hm] at hrel
    cases hrel
  | some model =>
    rw [hm] at hrel
    cases hrel with
    | some hshows => exact ⟨_, model, hod, rfl, hshows⟩

variable [LawfulKeys Ω] [LawfulLeaf Ω]

section Sources

theorem get_ok {t : Table Ω V} (hslots : SlotsOk t) (hkeys : KeysOk t.entries) {key : Object Ω} {p : LeafProbe Ω}
    (hp : LeafProbe.new key = some p) : ∃ v, t.get p = .ok v := by
  obtain ⟨r, f, -, hr, -, hcase⟩ := Tables.probes_ok hslots hkeys hp
  unfold Table.get
  rw [hr, ok_bind]
  cases r with
  | error pos => exact ⟨_, rfl⟩
  | ok i =>
    dsimp only [Except.toOption]
    rw [getUnchecked_ok hcase]
    exact ⟨_, rfl⟩

theorem orderedPairs_ok {t : Table Ω V} (hslots : SlotsOk t) (hkeys : KeysOk t.entries) (keys : List (Object Ω)) :
    ∃ pairs, OrderedDict.orderedPairs t keys = .ok pairs ∧ ∀ l, pairs = some l → l.length = keys.length := by
  induction keys with
  | nil => exact ⟨some [], rfl, by rintro _ ⟨⟩; rfl⟩
  | cons k keys ih =>
    obtain ⟨pairs, hpairs, hlen⟩ := ih
    unfold OrderedDict.orderedPairs
    cases hp : LeafProbe.new k with
    | none => exact ⟨none, rfl, nofun⟩
    | some p =>
      obtain ⟨v, hv⟩ := get_ok hslots hkeys hp
      dsimp only
      rw [hv, ok_bind]
      cases v with
      | none => exact ⟨none, rfl, nofun⟩
      | some v =>
        dsimp only
        rw [hpairs]
        refine ⟨_, rfl, fun l hl => ?_⟩
        obtain ⟨l', hl', rfl⟩ := Option.map_eq_some_iff.mp hl
        rw [List.length_cons, List.length_cons, hlen l' hl']

theorem InStep.get (h : InStep od m) {e : Object Ω × V} (he : e ∈ m) {p : LeafProbe Ω} (hp : LeafProbe.new e.1 = some p) :
    od.main.get p = .ok (some e.2) := by
  obtain ⟨hkey, hhash⟩ := LeafProbe.new_some hp
  obtain ⟨r, f, hr, -, hcase⟩ := leaf_find h.slots h.keys hp
  have hindex := getIndexOf_eq hr
  have hfound := OrderedDict.getIndexOf_found h.slots hindex
  unfold Table.get
  rw [hindex, ok_bind]
  cases r with
  | error pos =>
    have hmem : e ∈ pairs od.main := h.payload.mem_iff.mpr he
    obtain ⟨b, hb, hbe⟩ := List.mem_map.mp hmem
    have hbkey : b.key = e.1 := congrArg Prod.fst hbe
    have hmiss := hfound b hb (by rw [hhash, h.keys.hashed b hb, hbkey])
    rw [hkey, hbkey] at hmiss
    exact absurd (leafCompare_self hp) hmiss
  | ok i =>
    have hb := List.getElem?_eq_getElem (place_lt hcase)
    have hfind := find_of_place h.keys hcase hb
    rw [h.find_main, (h.distinct.find_iff LawfulKeys.equiv).mpr ⟨he, LawfulKeys.equiv.refl _⟩, Option.some_inj] at hfind
    dsimp only [Except.toOption]
    have hlt := place_lt hcase
    have hvalue : od.main.entries[i].value = e.2 := (congrArg Prod.snd hfind).symm
    rw [getUnchecked_ok (place_lt hcase), ok_bind, hvalue]
    rfl

theorem InStep.orderedPairs (h : InStep od m) :
    OrderedDict.orderedPairs od.main (od.orderOf.entries.map fun b => b.key) = .ok (sourcePairs od (some m)) := by
  have hkeys : (od.orderOf.entries.map fun b => b.key) = m.map Prod.fst := by
    have hpairs := congrArg (List.map Prod.fst) h.order.pairs_eq
    unfold pairs nodes at hpairs
    rw [List.map_map, List.map_map] at hpairs
    exact hpairs
  have hsub : ∀ l, (∀ e ∈ l, e ∈ m) → OrderedDict.orderedPairs od.main (l.map Prod.fst) =
      .ok (if l.all fun e => (LeafProbe.new e.1).isSome then some l else none) := by
    intro l hl
    induction l with
    | nil => rfl
    | cons e l ih =>
      rw [List.map_cons, List.all_cons]
      unfold OrderedDict.orderedPairs
      cases hp : LeafProbe.new e.1 with
      | none => rfl
      | some p =>
        have hget := h.get (hl e List.mem_cons_self) hp
        dsimp only
        rw [hget, ok_bind]
        dsimp only
        rw [ih fun e he => hl e (List.mem_cons_of_mem _ he), Option.isSome_some, Bool.true_and, ok_bind]
        split_ifs <;> rfl
  rw [hkeys]
  exact hsub m fun _ => id

/-- What an update reads from an instance, in step or not. -/
theorem Shows.orderedPairs (h : Shows od model) :
    OrderedDict.orderedPairs od.main (od.orderOf.entries.map fun b => b.key) = .ok (sourcePairs od model) := by
  cases model with
  | some m => exact InStep.orderedPairs h
  | none =>
    obtain ⟨pairs, hpairs, -⟩ := orderedPairs_ok h.slots h.keys (od.orderOf.entries.map fun b => b.key)
    unfold sourcePairs
    dsimp only
    rw [hpairs]
    rfl

theorem Shows.length_sourcePairs (h : Shows od model) {l : List (Object Ω × V)} (hl : sourcePairs od model = some l) :
    l.length ≤ od.size := by
  obtain ⟨pairs, hpairs, hlen⟩ := orderedPairs_ok h.tables.slots h.tables.keys (od.orderOf.entries.map fun b => b.key)
  rw [h.orderedPairs, hl, Except.ok.injEq] at hpairs
  rw [hlen l hpairs.symm, List.length_map]
  exact le_max_right _ _

end Sources

section Calls

theorem Tables.full (h : Tables od) (watched : Bool) (c : Call Ω V) :
    Ensures (od.full watched c) (fun r => Tables r.1) (2 ^ 31 ≤ c.bound od) := by
  have hok : ∀ {x : Outcome (OrderedDict Ω V × Result Ω V)}, (∃ od' r, x = .ok (od', r) ∧ Tables od') →
      Ensures x (fun r => Tables r.1) (2 ^ 31 ≤ c.bound od) := by
    rintro x ⟨od', r, hrun, htables⟩
    exact ensures_of_eq hrun htables
  cases c with
  | orderOf => exact h.touch
  | setitem key value => exact (h.setitem watched key value).mono (fun _ hr => hr.1) id
  | delitem key => exact hok (h.delitem key)
  | moveToEnd key last => exact hok (h.moveToEnd key last)
  | popitem last => exact hok (h.popitem last)
  | pop key default => exact hok (h.pop key default)
  | clear => exact hok h.clear
  | setdefault key default => exact h.setdefault watched key default
  | updateFast pairs =>
    cases pairs with
    | none => exact h
    | some pairs => exact (h.update watched pairs).bind fun _ => id

theorem InStep.full (h : InStep od m) (watched : Bool) (c : Call Ω V) :
    Ensures (od.full watched c) (fun r => InStep r.1 (c.effect m) ∧ r.2 = c.reply m) (2 ^ 31 ≤ c.bound od) := by
  have hok : ∀ {x : Outcome (OrderedDict Ω V × Result Ω V)}, (∃ od', x = .ok (od', c.reply m) ∧ InStep od' (c.effect m)) →
      Ensures x (fun r => InStep r.1 (c.effect m) ∧ r.2 = c.reply m) (2 ^ 31 ≤ c.bound od) := by
    rintro x ⟨od', hrun, hstep⟩
    exact ensures_of_eq hrun ⟨hstep, rfl⟩
  have hsize := h.size
  have hone : 2 ^ 31 ≤ m.length + 1 → 2 ^ 31 ≤ od.size + 1 := by
    rw [hsize]
    exact id
  cases c with
  | orderOf => exact ⟨h.touch, rfl⟩
  | setitem key value => exact (h.setitem watched key value).mono (fun _ => id) hone
  | delitem key => exact hok (h.delitem key)
  | moveToEnd key last => exact hok (h.moveToEnd key last)
  | popitem last => exact hok (h.popitem last)
  | pop key default => exact hok (h.pop key default)
  | clear => exact hok h.clear
  | setdefault key default => exact (h.setdefault watched key default).mono (fun _ => id) hone
  | updateFast pairs =>
    cases pairs with
    | none => exact ⟨h, rfl⟩
    | some pairs =>
      unfold Call.bound
      rw [hsize]
      apply (h.update watched pairs).bind
      exact fun od' hod' => ⟨hod', rfl⟩

theorem Shows.full (h : Shows od model) (watched : Bool) (c : Call Ω V) :
    Ensures (od.full watched c) (fun r => Shows r.1 (model.map c.effect) ∧ ∀ reply, model.map c.reply = some reply →
      r.2 = reply) (2 ^ 31 ≤ c.bound od) := by
  cases model with
  | some m =>
    apply (InStep.full h watched c).mono _ id
    rintro r ⟨hstep, hreply⟩
    refine ⟨hstep, ?_⟩
    rintro _ ⟨⟩
    exact hreply
  | none => exact (Tables.full h watched c).mono (fun _ hr => ⟨hr, nofun⟩) id

theorem Tables.half (h : Tables od) (watched : Bool) (c : Call Ω V) :
    Agrees od (od.half watched c) (od.full watched c) ∧
      Ensures (od.half watched c) (fun _ => True) (2 ^ 31 ≤ c.bound od) := by
  have horder : ∀ order, od.order = some order → SlotsOk order := fun order ho => orderOf_some ho ▸ h.orderSlots
  have hkeys : ∀ order, od.order = some order → KeysOk order.entries := fun order ho => orderOf_some ho ▸ h.orderKeys
  have hok : ∀ {x : Outcome (OrderedDict.Half Ω V)}, (∃ r, x = .ok r) →
      Ensures x (fun _ => True) (2 ^ 31 ≤ c.bound od) := by
    rintro x ⟨r, hrun⟩
    exact ensures_of_eq hrun trivial
  cases c with
  | setitem key value => exact ⟨OrderedDict.setitemLeaf_agrees watched horder key value, h.setitemLeaf watched key value⟩
  | moveToEnd key last =>
    exact ⟨OrderedDict.moveToEndLeaf_agrees watched horder hkeys key last, hok (h.moveToEndLeaf watched key.obj last)⟩
  | popitem last => exact ⟨OrderedDict.popitemLeaf_agrees watched horder last, hok (h.popitemLeaf watched last)⟩
  | pop key default => exact ⟨OrderedDict.popLeaf_agrees watched horder key default, hok (h.popLeaf watched key default)⟩
  | orderOf | delitem | clear | setdefault | updateFast => exact ⟨agrees_declined, trivial⟩

/-- A leaf half tried first changes nothing. -/
theorem Shows.run (h : Shows od model) (leaf watched : Bool) (c : Call Ω V) :
    Ensures (od.run leaf watched c) (fun r => Shows r.1 (model.map c.effect) ∧ ∀ reply, model.map c.reply = some reply →
      r.2 = reply) (2 ^ 31 ≤ c.bound od) := by
  have hfull := h.full watched c
  unfold OrderedDict.run
  cases leaf with
  | false => exact hfull
  | true =>
    obtain ⟨hagrees, hreturns⟩ := h.tables.half watched c
    rw [if_pos rfl]
    cases hrun : od.half watched c with
    | error e =>
      rw [hrun] at hreturns
      exact hreturns
    | ok r =>
      obtain ⟨od', r⟩ := r
      have hr := hagrees od' r hrun
      cases r with
      | some r =>
        change od.full watched c = .ok (od', r) at hr
        rw [hr] at hfull
        exact hfull
      | none =>
        change od' = od at hr
        subst hr
        exact hfull

end Calls

section Steps

omit [LawfulKeys Ω] [LawfulLeaf Ω] in
theorem updateFast_reply {watched : Bool} {pairs : Option (List (Object Ω × V))} {r : OrderedDict Ω V × Result Ω V}
    (h : od.updateFast watched pairs = .ok r) : r.2 = .ok (.bool pairs.isSome) := by
  cases pairs with
  | none =>
    cases h
    rfl
  | some pairs =>
    obtain ⟨od', -, h⟩ := bind_eq_ok.mp h
    cases h
    rfl

/-- One step. -/
theorem step_shows (h : ∀ j : ℕ, Option.Rel Shows heap[j]? models[j]?) (leaf watched : Bool) (ha : Allowed heap op) :
    Ensures (step leaf watched heap op) (fun r => (∀ j : ℕ, Option.Rel Shows r.1[j]? (effect heap models op)[j]?) ∧
      ∀ reply, expected heap models op = some reply → r.2 = reply) (2 ^ 31 ≤ bound heap op) := by
  cases op with
  | newInst =>
    refine ⟨fun j => ?_, ?_⟩
    · show Option.Rel Shows (heap ++ [⟨.new, none⟩])[j]? (models ++ [some []])[j]?
      rw [List.getElem?_append, List.getElem?_append, length_eq h]
      split_ifs
      · exact h j
      · rw [List.getElem?_singleton, List.getElem?_singleton]
        split_ifs
        · exact .some instep_new
        · exact .none
    · rintro _ ⟨⟩
      rfl
  | call i c =>
    obtain ⟨od, model, hod, hm, hshows⟩ := exists_model h ha
    unfold step bound effect expected
    dsimp only
    rw [hod, hm]
    unfold index
    rw [hod]
    apply (hshows.run leaf watched c).bind
    rintro ⟨od', r⟩ ⟨hshows', hreply⟩
    refine ⟨set_shows h hod fun model' hm' => ?_, hreply⟩
    rw [hm, Option.some_inj] at hm'
    subst hm'
    exact hshows'
  | updateFrom i j =>
    obtain ⟨other, source, hother, hsource, hshows⟩ := exists_model h ha.2
    have htouched := set_shows (f := id) h hother fun model' hm' => by
      rw [hsource, Option.some_inj] at hm'
      subst hm'
      exact hshows.touch
    rw [List.modify_id] at htouched
    have hi : i < (heap.set j ⟨other.main, some other.orderOf⟩).length := by
      rw [List.length_set]
      exact ha.1
    obtain ⟨od, model, hod, hm, hshows'⟩ := exists_model htouched hi
    have hpairs : pairsAt heap models j = sourcePairs other source := by
      unfold pairsAt
      rw [hother, hsource]
      rfl
    unfold step bound effect expected
    dsimp only
    rw [hother, hpairs]
    have hindex : index heap j = .ok other := by
      unfold index
      rw [hother]
      rfl
    have hindex' : index (heap.set j ⟨other.main, some other.orderOf⟩) i = .ok od := by
      unfold index
      rw [hod]
      rfl
    rw [hindex, ok_bind, hshows.orderedPairs, ok_bind, hindex', ok_bind]
    have hsize : (heap[i]?.elim 0 fun od => od.size) = od.size := by
      rw [List.getElem?_set] at hod
      split_ifs at hod with hij
      · subst hij
        rw [hother]
        cases hod
        rfl
      · rw [hod]
        rfl
    have hbound : 2 ^ 31 ≤ (Call.updateFast (sourcePairs other source)).bound od → 2 ^ 31 ≤ od.size + other.size := by
      cases hl : sourcePairs other source with
      | none =>
        intro hr
        change 2 ^ 31 ≤ 0 at hr
        omega
      | some l =>
        have hle := hshows.length_sourcePairs hl
        exact fun hr => le_trans hr (Nat.add_le_add_left hle _)
    have hfull := hshows'.full watched (.updateFast (sourcePairs other source))
    rw [hsize]
    cases hrun : od.updateFast watched (sourcePairs other source) with
    | error e =>
      unfold OrderedDict.full at hfull
      dsimp only at hfull
      rw [hrun] at hfull
      exact ⟨hfull.1, hbound hfull.2⟩
    | ok r =>
      unfold OrderedDict.full at hfull
      dsimp only at hfull
      rw [hrun] at hfull
      refine ⟨set_shows htouched hod fun model' hm' => ?_, ?_⟩
      · rw [hm, Option.some_inj] at hm'
        subst hm'
        exact hfull.1
      · rintro _ ⟨⟩
        exact updateFast_reply hrun
  | direct i main =>
    obtain ⟨hi, hslots, hkeys⟩ := ha
    obtain ⟨od, model, hod, hm, hshows⟩ := exists_model h hi
    unfold step
    dsimp only
    have hindex : index heap i = .ok od := by
      unfold index
      rw [hod]
      rfl
    rw [hindex]
    refine ⟨set_shows h hod fun model' hm' => ?_, ?_⟩
    · exact ⟨hslots, hkeys, hshows.tables.orderSlots, hshows.tables.orderKeys⟩
    · rintro _ ⟨⟩
      rfl

theorem Reachable.shows (h : Reachable heap models) (j : ℕ) : Option.Rel Shows heap[j]? models[j]? := by
  induction h generalizing j with
  | nil => exact .none
  | step _ _ _ _ ha hrun ih => exact ((step_shows ih _ _ ha).of_ok hrun).1 j

end Steps

/-- In every state a run reaches, an instance whose payload was changed through its own operations alone is
in step with its list, and the next operation does and replies as the list says. In step or not, a leaf half
that answers is the full operation, and one that declines changes nothing. -/
theorem reachable_in_step (h : Reachable heap models) :
    (∀ j : ℕ, Option.Rel Shows heap[j]? models[j]?) ∧
    (∀ (leaf watched : Bool) (op : Op Ω V), Allowed heap op → Ensures (step leaf watched heap op)
      (fun r => Reachable r.1 (effect heap models op) ∧ ∀ reply, expected heap models op = some reply → r.2 = reply)
      (2 ^ 31 ≤ bound heap op)) ∧
    ∀ od ∈ heap, ∀ (watched : Bool) (c : Call Ω V), Agrees od (od.half watched c) (od.full watched c) ∧
      Ensures (od.half watched c) (fun _ => True) (2 ^ 31 ≤ c.bound od) := by
  refine ⟨h.shows, fun leaf watched op ha => ?_, fun od hod watched c => ?_⟩
  · have hstep := step_shows h.shows leaf watched ha
    cases hrun : step leaf watched heap op with
    | error e =>
      rw [hrun] at hstep
      exact hstep
    | ok r => exact ⟨h.step leaf watched op ha hrun, (hstep.of_ok hrun).2⟩
  · obtain ⟨i, hi, rfl⟩ := List.mem_iff_getElem.mp hod
    obtain ⟨od, model, hod, -, hshows⟩ := exists_model h.shows hi
    rw [List.getElem?_eq_getElem hi, Option.some_inj] at hod
    subst hod
    exact hshows.tables.half watched c

instance : LeafOps Empty := ⟨nofun, nofun⟩

instance : LawfulLeaf Empty := ⟨nofun, nofun, nofun⟩

def intRef (i : Int64) : KeyRef Empty :=
  ⟨.int i, fun k => match k with | .int j => j == i | _ => false, by
    intro k hk
    cases k <;> simp_all⟩

/-- Two keys are stored, the first moves to the end, and a second dict is updated from the first. -/
theorem reachable_in_step_moved : ∃ od od' : OrderedDict Empty ℕ,
    InStep od [(.int 2, 20), (.int 1, 10)] ∧ InStep od' [(.int 2, 20), (.int 1, 10)] ∧
      Agrees od (od.half false (.popitem false)) (od.full false (.popitem false)) := by
  have h₁ := (Reachable.nil : Reachable ([] : List (OrderedDict Empty ℕ)) []).step false false .newInst trivial rfl
  have h₂ := h₁.step true false (.call 0 (.setitem (.int 1) 10)) (Nat.zero_lt_succ _) rfl
  have h₃ := h₂.step true false (.call 0 (.setitem (.int 2) 20)) (Nat.zero_lt_succ _) rfl
  have h₄ := h₃.step true false (.call 0 (.moveToEnd (intRef 1) true)) (Nat.zero_lt_succ _) rfl
  have h₅ := h₄.step false false .newInst trivial rfl
  have h₆ := h₅.step false false (.updateFrom 1 0) ⟨Nat.one_lt_two, Nat.zero_lt_two⟩ rfl
  obtain ⟨hshows, -, hhalf⟩ := reachable_in_step h₆
  have h₀ := hshows 0
  have h₁ := hshows 1
  cases h₀ with
  | some h₀ =>
    cases h₁ with
    | some h₁ => exact ⟨_, _, h₀, h₁, (hhalf _ (by simp) false (.popitem false)).1⟩

end WeavePy.Odict
