import WeavePy.Slots.Writers

/-!
Runs over many instances: each storage is a map in whatever form it is, and one instance's map is no
other's.
-/

namespace WeavePy.Slots

open OrderedMap

variable {V : Type} {s t : SlotStorage V} {name k : Name} {v : Object V}

namespace SlotStorage

section Effects

/-- A name stored in its layout, or beside the names that a form without one holds. -/
theorem lookup_stored (hs : s.WellFormed) (ht : t.WellFormed) (hv : v.isBound = true)
    (h : (t.laidOut = true ∧ t.rows = store s.rows name v) ∨ (t.laidOut = false ∧ t.rows = store s.iter name v)) :
    lookup t.iter k = if k = name then some v else lookup s.iter k := by
  rcases h with ⟨-, hrows⟩ | ⟨hlaid, hrows⟩
  · rw [ht.lookup_iter, hs.lookup_iter, hrows, lookup_store]
    split_ifs
    · rw [Option.filter_some, if_pos hv]
    · rfl
  · rw [ht.iter_eq_rows hlaid, hrows, lookup_store]

theorem lookup_unset (hs : s.WellFormed) (ht : t.WellFormed)
    (h : (t.laidOut = true ∧ t.rows = store s.rows name .unbound) ∨ (t.laidOut = false ∧ t.rows = OrderedMap.remove s.iter name)) :
    lookup t.iter k = if k = name then none else lookup s.iter k := by
  rcases h with ⟨-, hrows⟩ | ⟨hlaid, hrows⟩
  · rw [ht.lookup_iter, hs.lookup_iter, hrows, lookup_store]
    split_ifs
    · rfl
    · rfl
  · rw [ht.iter_eq_rows hlaid, hrows, lookup_remove]

theorem IsPlace.stored {p : Place V} (hs : s.WellFormed) (hp : IsPlace s name p) (hv : v.isBound = true) :
    (p.set v).WellFormed ∧ ∀ k, lookup (p.set v).iter k = if k = name then some v else lookup s.iter k := by
  have hwf := hp.wellFormed v hv
  refine ⟨hwf, fun k => ?_⟩
  rw [hwf.lookup_iter, hs.lookup_iter, hp.rows v hv, lookup_store]
  split_ifs
  · rw [Option.filter_some, if_pos hv]
  · rfl

/-- Without a layout, storing through a reference moves no name. -/
theorem IsPlace.keys {p : Place V} (hs : s.WellFormed) (hp : IsPlace s name p) (hv : v.isBound = true)
    (hlaid : (p.set v).laidOut = false) : keys (p.set v).iter = keys s.iter := by
  rw [hp.laidOut v] at hlaid
  have hmem : name ∈ OrderedMap.keys s.rows := by
    rw [← lookup_isSome, hp.value]
    rfl
  rw [(hp.wellFormed v hv).iter_eq_rows (by rw [hp.laidOut v, hlaid]), hs.iter_eq_rows hlaid, hp.rows v hv, keys_store, if_pos hmem]

theorem filter_unbound {α : Type} (layout : List Name) (values : List α) :
    (layout.zip (values.map fun _ => (Object.unbound : Object V))).filter (fun e => e.2.isBound) = [] := by
  rw [List.filter_eq_nil_iff]
  intro e he
  obtain ⟨-, hmem⟩ := List.of_mem_zip he
  obtain ⟨_, -, heq⟩ := List.mem_map.1 hmem
  rw [← heq]
  exact Bool.false_ne_true

theorem retire_spec (h : s.WellFormed) : s.retire.WellFormed ∧ s.retire.iter = [] ∧
    ∀ layout values, s.retire = .fixed layout values → ∃ before : List (Object V), values = before.map fun _ => .unbound := by
  have hother : (∀ layout values, s ≠ .fixed layout values) → s.retire.WellFormed ∧ s.retire.iter = [] ∧
      ∀ layout values, s.retire = .fixed layout values → ∃ before : List (Object V), values = before.map fun _ => .unbound := by
    intro hne
    have hretire : s.retire = s ∧ s.isEmptyDefault = true ∨ s.retire = default := by
      unfold retire
      cases s with
      | fixed layout values => exact absurd rfl (hne layout values)
      | _ =>
        dsimp only
        split_ifs with hempty
        · exact Or.inl ⟨rfl, hempty⟩
        · exact Or.inr rfl
    rcases hretire with ⟨heq, hempty⟩ | heq
    · rw [heq]
      unfold isEmptyDefault at hempty
      split at hempty
      · refine ⟨h, rfl, fun layout values hf => ?_⟩
        cases hf
      · cases hempty
    · rw [heq]
      refine ⟨wellFormed_empty, rfl, fun layout values hf => ?_⟩
      cases hf
  cases s with
  | fixed layout values =>
    refine ⟨wellFormed_fixed h.layout_nodup ?_, ?_, fun layout' values' hf => ?_⟩
    · rw [List.length_map]
      exact h.length_eq _ _ rfl
    · rw [retire, iter_eq]
      exact filter_unbound layout values
    · cases hf
      exact ⟨values, rfl⟩
  | single key value => exact hother fun _ _ hne => by cases hne
  | small entries => exact hother fun _ _ hne => by cases hne
  | many table => exact hother fun _ _ hne => by cases hne
  | packed p => exact hother fun _ _ hne => by cases hne

/-- A retired storage laid out anew holds nothing. -/
theorem reuse_spec {layout : List Name} (h : s.WellFormed) (hn : layout.Nodup) :
    (s.retire.reuseUnsetOver layout).1.WellFormed ∧ (s.retire.reuseUnsetOver layout).1.iter = [] := by
  obtain ⟨hwf, hiter, hunset⟩ := retire_spec h
  unfold reuseUnsetOver
  cases hr : s.retire with
  | fixed own values =>
    obtain ⟨before, rfl⟩ := hunset own values hr
    dsimp only
    split_ifs with hlen
    · rw [hr] at hwf hiter
      exact ⟨hwf, hiter⟩
    · refine ⟨wellFormed_fixed hn (Classical.not_not.1 hlen).symm, ?_⟩
      rw [iter_eq]
      exact filter_unbound layout before
  | single key value =>
    rw [hr] at hwf hiter
    exact ⟨hwf, hiter⟩
  | small entries =>
    rw [hr] at hwf hiter
    exact ⟨hwf, hiter⟩
  | many table =>
    rw [hr] at hwf hiter
    exact ⟨hwf, hiter⟩
  | packed p =>
    rw [hr] at hwf hiter
    exact ⟨hwf, hiter⟩

theorem keys_zip_sublist (layout : List Name) (values : List (Object V)) :
    List.Sublist (keys (layout.zip values)) layout := by
  induction layout generalizing values with
  | nil => exact List.Sublist.refl _
  | cons key layout ih =>
    cases values with
    | nil => exact List.nil_sublist _
    | cons value values => exact (ih values).cons_cons key

theorem fromLayout_wellFormed {layout : List Name} {values : List (Object V)} (hn : layout.Nodup)
    (h : layout.length = values.length ∨ ∀ v ∈ values, v.isBound = true) : (fromLayout layout values).WellFormed := by
  unfold fromLayout
  split_ifs with hlen
  · have hbound := h.resolve_left hlen
    refine (fromEntries_spec ?_ fun e he => hbound e.2 (List.of_mem_zip he).2).1
    exact hn.sublist (keys_zip_sublist layout values)
  · exact wellFormed_fixed hn (Classical.not_not.1 hlen)

end Effects

end SlotStorage

section Operations

/-- What is done to one storage. -/
inductive Op (V : Type) where
  /-- `insert` or `insert_shared`: the two make equal keys. -/
  | insert (name : Name) (v : Object V)
  | remove (name : Name)
  | storeGet (name : Name) (v : Object V)
  | storePlace (name : Name) (v : Object V)
  | storeHinted (index : ℕ) (name : Name) (v : Object V)
  | unpack
  | unfix
  /-- An instance is retired, and its storage reused over `layout`. -/
  | recycle (layout : List Name)

/-- Values are stored, never the mark of an unset slot; a layout's names are distinct. -/
def Op.Allowed : Op V → Prop
  | .insert _ v => v.isBound = true
  | .storeGet _ v => v.isBound = true
  | .storePlace _ v => v.isBound = true
  | .storeHinted _ _ v => v.isBound = true
  | .recycle layout => layout.Nodup
  | _ => True

/-- The storage after an operation, and the value it returns. -/
def SlotStorage.step (s : SlotStorage V) : Op V → SlotStorage V × Option (Object V)
  | .insert name v => s.insert name v
  | .remove name => s.remove name
  | .storeGet name v => (SlotStorage.write (s.getMut name) v, none)
  | .storePlace name v => (SlotStorage.write (s.placeMut name) v, none)
  | .storeHinted index name v => (SlotStorage.write (s.getHintedMut index name) v, none)
  | .unpack => (s.unpack, none)
  | .unfix => (s.unfix, none)
  | .recycle layout => ((s.retire.reuseUnsetOver layout).1, none)

/-- New storage. -/
inductive Init : SlotStorage V → Prop where
  | default : Init SlotStorage.default
  | fromEntries {entries : List (Name × Object V)} (hn : (keys entries).Nodup) (hb : ∀ e ∈ entries, e.2.isBound = true) :
    Init (SlotStorage.fromEntries entries)
  | fromLayout {layout : List Name} {values : List (Object V)} (hn : layout.Nodup)
    (hv : layout.length = values.length ∨ ∀ v ∈ values, v.isBound = true) : Init (SlotStorage.fromLayout layout values)
  | unsetOver {layout : List Name} (hn : layout.Nodup) : Init (SlotStorage.unsetOver layout)
  | fromPacked (p : PackedSlots V) : Init (SlotStorage.fromPacked p)

theorem Init.wellFormed (h : Init s) : s.WellFormed := by
  cases h with
  | default => exact SlotStorage.wellFormed_empty
  | fromEntries hn hb => exact (SlotStorage.fromEntries_spec hn hb).1
  | fromLayout hn hv => exact SlotStorage.fromLayout_wellFormed hn hv
  | unsetOver hn => exact SlotStorage.wellFormed_fixed hn (List.length_map _).symm
  | fromPacked p => exact SlotStorage.wellFormed_packed p

/-- The storages of all instances, in any run. -/
inductive Reaches : List (SlotStorage V) → Prop where
  | nil : Reaches []
  | create {w : List (SlotStorage V)} {s : SlotStorage V} (h : Reaches w) (hs : Init s) : Reaches (w ++ [s])
  | clone {w : List (SlotStorage V)} {s : SlotStorage V} {i : ℕ} (h : Reaches w) (hs : w[i]? = some s) : Reaches (w ++ [s])
  | step {w : List (SlotStorage V)} {s : SlotStorage V} {i : ℕ} {op : Op V} (h : Reaches w) (hs : w[i]? = some s)
    (hop : op.Allowed) : Reaches (w.set i (s.step op).1)

/-- Every reader reads the map `s.iter`, which has each name once and no unset slot. -/
structure Reads (s : SlotStorage V) : Prop where
  nodup : (keys s.iter).Nodup
  bound : ∀ e ∈ s.iter, e.2.isBound = true
  get : ∀ name, s.get name = lookup s.iter name
  hinted : ∀ i name, s.getHinted i name = lookup s.iter name
  index : ∀ name, (s.indexOf name).bind s.getIndex = (lookup s.iter name).map fun v => (name, v)
  forEach : ∀ (σ : Type) (f : σ → Name → Object V → σ) (init : σ),
    s.forEachEntry f init = s.iter.foldl (fun state e => f state e.1 e.2) init
  view : s.valuesView.objects = s.iter.map Prod.snd

/-- What the operation does to the map and what it returns; where a form without a shared layout
comes out, also in what order the names stand. -/
def Effect (s : SlotStorage V) : Op V → Prop
  | .insert name v =>
    (s.insert name v).2 = lookup s.iter name ∧
      (∀ k, lookup (s.insert name v).1.iter k = if k = name then some v else lookup s.iter k) ∧
      ((s.insert name v).1.laidOut = false → (s.insert name v).1.iter = store s.iter name v)
  | .remove name =>
    (s.remove name).2 = lookup s.iter name ∧
      (∀ k, lookup (s.remove name).1.iter k = if k = name then none else lookup s.iter k) ∧
      ((s.remove name).1.laidOut = false → (s.remove name).1.iter = OrderedMap.remove s.iter name)
  | .storeGet name v =>
    (∀ k, lookup (SlotStorage.write (s.getMut name) v).iter k =
        if k = name ∧ (lookup s.iter name).isSome = true then some v else lookup s.iter k) ∧
      ((SlotStorage.write (s.getMut name) v).laidOut = false → keys (SlotStorage.write (s.getMut name) v).iter = keys s.iter)
  | .storeHinted index name v =>
    (∀ k, lookup (SlotStorage.write (s.getHintedMut index name) v).iter k =
        if k = name ∧ (lookup s.iter name).isSome = true then some v else lookup s.iter k) ∧
      ((SlotStorage.write (s.getHintedMut index name) v).laidOut = false →
        keys (SlotStorage.write (s.getHintedMut index name) v).iter = keys s.iter)
  | .storePlace name v =>
    (∀ k, lookup (SlotStorage.write (s.placeMut name) v).iter k =
        if k = name ∧ (s.placeMut name).2.isSome = true then some v else lookup s.iter k) ∧
      ((s.placeMut name).2.isSome = false → lookup s.iter name = none) ∧
      ((SlotStorage.write (s.placeMut name) v).laidOut = false → keys (SlotStorage.write (s.placeMut name) v).iter = keys s.iter)
  | .unpack => s.unpack.iter = s.iter
  | .unfix => s.unfix.iter = s.iter
  | .recycle layout => (s.retire.reuseUnsetOver layout).1.iter = []

theorem reads_of_wellFormed (h : s.WellFormed) : Reads s := by
  constructor
  · exact h.nodup_iter
  · intro e he
    rw [SlotStorage.iter_eq] at he
    exact (List.mem_filter.1 he).2
  · exact h.get_eq
  · intro i name
    rw [h.getHinted_eq, h.get_eq]
  · intro name
    rw [h.getIndex_indexOf, h.get_eq]
  · intro σ f init
    exact SlotStorage.forEachEntry_eq s f init
  · exact h.valuesView_eq

open SlotStorage in
/-- A store through a reference that is there exactly for a populated name. -/
theorem write_spec {r : SlotStorage V × Option (Place V)} (h : s.WellFormed) (hv : v.isBound = true) (hkept : Kept s r.1)
    (hplace : ∀ p, r.2 = some p → IsPlace s name p) : (write r v).WellFormed ∧
      (∀ k, lookup (write r v).iter k = if k = name ∧ r.2.isSome = true then some v else lookup s.iter k) ∧
      ((write r v).laidOut = false → keys (write r v).iter = keys s.iter) := by
  unfold write
  cases hr : r.2 with
  | none =>
    refine ⟨hkept.wellFormed, fun k => ?_, fun _ => by dsimp only; rw [hkept.iter]⟩
    dsimp only
    rw [hkept.iter, if_neg (fun hk => by cases hk.2)]
  | some p =>
    have hp := hplace p hr
    obtain ⟨hwf, hlook⟩ := hp.stored h hv
    refine ⟨hwf, fun k => ?_, fun hlaid => hp.keys h hv hlaid⟩
    rw [hlook k]
    simp

open SlotStorage in
/-- A search for a set name finds it exactly when it is there. -/
theorem found_iff {r : Option (Place V)} (h : s.WellFormed)
    (hplace : ∀ p, r = some p → IsPlace s name p ∧ p.value.isBound = true) (hnone : r = none → lookup s.iter name = none) :
    r.isSome = (lookup s.iter name).isSome := by
  cases r with
  | none => rw [hnone rfl]; rfl
  | some p =>
    obtain ⟨hp, hbound⟩ := hplace p rfl
    rw [h.lookup_iter, hp.value, Option.filter_some, if_pos hbound]
    rfl

open SlotStorage in
theorem step_spec {op : Op V} (h : s.WellFormed) (hop : op.Allowed) : (s.step op).1.WellFormed ∧ Effect s op := by
  cases op with
  | insert name v =>
    obtain ⟨hwf, hret, hrows⟩ := @insert_spec V s name v h hop
    refine ⟨hwf, hret, fun k => lookup_stored h hwf hop hrows, fun hlaid => ?_⟩
    rcases hrows with ⟨hlaid', -⟩ | ⟨-, hrows⟩
    · rw [hlaid] at hlaid'
      cases hlaid'
    · rw [hwf.iter_eq_rows hlaid, hrows]
  | remove name =>
    obtain ⟨hwf, hret, hrows⟩ := @remove_spec V s name h
    refine ⟨hwf, hret, fun k => lookup_unset h hwf hrows, fun hlaid => ?_⟩
    rcases hrows with ⟨hlaid', -⟩ | ⟨-, hrows⟩
    · rw [hlaid] at hlaid'
      cases hlaid'
    · rw [hwf.iter_eq_rows hlaid, hrows]
  | storeGet name v =>
    obtain ⟨hkept, hplace, hnone⟩ := getMut_spec h name
    obtain ⟨hwf, hlook, hkeys⟩ := write_spec h hop hkept fun p hp => (hplace p hp).1
    rw [found_iff h hplace hnone] at hlook
    exact ⟨hwf, hlook, hkeys⟩
  | storePlace name v =>
    obtain ⟨hkept, hplace, hnone⟩ := placeMut_spec h name
    obtain ⟨hwf, hlook, hkeys⟩ := write_spec h hop hkept hplace
    refine ⟨hwf, hlook, fun hsome => hnone ?_, hkeys⟩
    exact Option.isSome_eq_false_iff.1 hsome |> Option.isNone_iff_eq_none.1
  | storeHinted index name v =>
    obtain ⟨hkept, hplace, hnone⟩ := getHintedMut_spec h index name
    obtain ⟨hwf, hlook, hkeys⟩ := write_spec h hop hkept fun p hp => (hplace p hp).1
    rw [found_iff h hplace hnone] at hlook
    exact ⟨hwf, hlook, hkeys⟩
  | unpack => exact ⟨(unpack_spec h).1, iter_unpack h⟩
  | unfix =>
    obtain ⟨hwf, hrows, hlaid⟩ := unfix_spec h
    refine ⟨hwf, ?_⟩
    change s.unfix.iter = s.iter
    rw [hwf.iter_eq_rows hlaid, hrows]
  | recycle layout => exact reuse_spec h hop

theorem Reaches.wellFormed {w : List (SlotStorage V)} (h : Reaches w) : ∀ s ∈ w, s.WellFormed := by
  induction h with
  | nil =>
    intro s hs
    cases hs
  | create _ hinit ih =>
    intro s hs
    rcases List.mem_append.1 hs with hs | hs
    · exact ih s hs
    · rw [List.mem_singleton.1 hs]
      exact hinit.wellFormed
  | clone _ hget ih =>
    intro s hs
    rcases List.mem_append.1 hs with hs | hs
    · exact ih s hs
    · rw [List.mem_singleton.1 hs]
      exact ih _ (List.mem_of_getElem? hget)
  | step _ hget hop ih =>
    intro s hs
    rcases List.mem_or_eq_of_mem_set hs with hs | rfl
    · exact ih s hs
    · exact (step_spec (ih _ (List.mem_of_getElem? hget)) hop).1

/-- In every run, every storage is one map to all of its readers, an operation changes that map in its
own name alone, and no other instance's. -/
theorem slots_are_maps {w : List (SlotStorage V)} (h : Reaches w) :
    (∀ s ∈ w, Reads s) ∧ ∀ (i : ℕ) (s : SlotStorage V) (op : Op V), w[i]? = some s → op.Allowed →
      Effect s op ∧ ∀ j, j ≠ i → (w.set i (s.step op).1)[j]? = w[j]? := by
  refine ⟨fun s hs => reads_of_wellFormed (h.wellFormed s hs), fun i s op hget hop => ?_⟩
  refine ⟨(step_spec (h.wellFormed s (List.mem_of_getElem? hget)) hop).2, fun j hj => ?_⟩
  exact List.getElem?_set_ne (Ne.symm hj)

/-- Two names of a layout, the first of them unset. -/
def unsetFirst : SlotStorage Unit := ((SlotStorage.fromLayout [[1], [2]] [.none, .none]).remove [1]).1

theorem reaches_unsetFirst : Reaches [unsetFirst] := by
  have hn : [[1], [2]].Nodup (α := Name) := by decide
  have hstart : Reaches [SlotStorage.fromLayout [[1], [2]] [Object.none (V := Unit), .none]] :=
    Reaches.nil.create (.fromLayout hn (Or.inl rfl))
  exact @Reaches.step _ _ _ 0 (.remove [1]) hstart rfl trivial

theorem reads_unsetFirst : Reads unsetFirst := (slots_are_maps reaches_unsetFirst).1 _ List.mem_cons_self

/-- A name stored again, then one that the layout lacks: the names stand as the layout had them, not
in the order in which they were stored. -/
theorem layout_order_kept : keys unsetFirst.iter = [[2]] ∧
    ((unsetFirst.insert [1] .none).1.insert [3] .none).1.laidOut = false ∧
    keys ((unsetFirst.insert [1] .none).1.insert [3] .none).1.iter ≠ keys unsetFirst.iter ++ [[1], [3]] := by decide

end Operations

end WeavePy.Slots
