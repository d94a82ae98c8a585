import WeavePy.Slots.Readers

/-!
What each operation does to the map, and that it keeps a storage well formed.
-/

namespace WeavePy.Slots

open OrderedMap

variable {V : Type} {s t : SlotStorage V} {name : Name} {value : Object V} {i : ℕ}

namespace SlotStorage

section Forms

theorem wellFormed_small {entries : List (Name × Object V)} (hn : (keys entries).Nodup) (hb : ∀ e ∈ entries, e.2.isBound = true) :
    (SlotStorage.small entries).WellFormed := by
  constructor
  · exact hn
  · intro _
    exact hb
  · intro layout values h
    cases h

theorem wellFormed_many {table : OrderedMap Name (Object V)} (hn : table.keys.Nodup) (hb : ∀ e ∈ table, e.2.isBound = true) :
    (SlotStorage.many table).WellFormed := by
  constructor
  · exact hn
  · intro _
    exact hb
  · intro layout values h
    cases h

theorem wellFormed_fixed {layout : List Name} {values : List (Object V)} (hn : layout.Nodup) (hlen : layout.length = values.length) :
    (SlotStorage.fixed layout values).WellFormed := by
  constructor
  · rw [rows, keys_zip hlen]
    exact hn
  · intro h
    cases h
  · intro layout values h
    cases h
    exact hlen

theorem wellFormed_empty : (SlotStorage.single none value).WellFormed := by
  constructor
  · exact List.nodup_nil
  · intro _ e he
    cases he
  · intro layout values h
    cases h

theorem wellFormed_single {key : Name} (hb : value.isBound = true) : (SlotStorage.single (some key) value).WellFormed := by
  constructor
  · exact List.nodup_singleton key
  · intro _ e he
    rw [List.mem_singleton.1 he]
    exact hb
  · intro layout values h
    cases h

theorem wellFormed_packed (p : PackedSlots V) : (SlotStorage.packed p).WellFormed := by
  constructor
  · rw [rows, keys_zip p.length_eq]
    exact p.nodup
  · intro h
    cases h
  · intro layout values h
    cases h

theorem WellFormed.layout_nodup {layout : List Name} {values : List (Object V)} (h : (SlotStorage.fixed layout values).WellFormed) :
    layout.Nodup := by
  have hn := h.nodup
  rwa [rows, keys_zip (h.length_eq _ _ rfl)] at hn

end Forms

section Conversions

/-- Distinct names put in one after the other stand in their order. -/
theorem tableOf_eq {entries : List (Name × Object V)} (hn : (keys entries).Nodup) : tableOf entries = entries := by
  have hgen : ∀ before : List (Name × Object V), (keys (before ++ entries)).Nodup →
      entries.foldl (fun table e => store table e.1 e.2) before = before ++ entries := by
    clear hn
    induction entries with
    | nil => exact fun before _ => (List.append_nil before).symm
    | cons e entries ih =>
      intro before hn
      have hnew : e.1 ∉ keys before := by
        unfold keys at hn ⊢
        rw [List.map_append, List.nodup_append] at hn
        intro hmem
        exact hn.2.2 e.1 hmem e.1 List.mem_cons_self rfl
      rw [List.foldl_cons, store_of_not_mem hnew, ih (before ++ [(e.1, e.2)]) (by simpa using hn)]
      simp
  exact hgen [] hn

theorem fromEntries_spec {entries : List (Name × Object V)} (hn : (keys entries).Nodup) (hb : ∀ e ∈ entries, e.2.isBound = true) :
    (fromEntries entries).WellFormed ∧ (fromEntries entries).rows = entries ∧ (fromEntries entries).laidOut = false := by
  unfold fromEntries
  split_ifs with hzero hfew
  · obtain rfl := List.eq_nil_of_length_eq_zero hzero
    exact ⟨wellFormed_empty, rfl, rfl⟩
  · exact ⟨wellFormed_small hn hb, rfl, rfl⟩
  · rw [tableOf_eq hn]
    exact ⟨wellFormed_many hn hb, rfl, rfl⟩

theorem unpack_spec (h : s.WellFormed) : s.unpack.WellFormed ∧ s.unpack.rows = s.rows ∧ ∀ p, s.unpack ≠ .packed p := by
  cases s with
  | packed p =>
    refine ⟨wellFormed_fixed p.nodup p.length_eq, rfl, fun q hq => ?_⟩
    cases hq
  | single key value =>
    refine ⟨h, rfl, fun q hq => ?_⟩
    cases hq
  | small entries =>
    refine ⟨h, rfl, fun q hq => ?_⟩
    cases hq
  | many table =>
    refine ⟨h, rfl, fun q hq => ?_⟩
    cases hq
  | fixed layout values =>
    refine ⟨h, rfl, fun q hq => ?_⟩
    cases hq

theorem iter_unpack (h : s.WellFormed) : s.unpack.iter = s.iter := by
  rw [iter_eq, iter_eq, (unpack_spec h).2.1]

/-- Giving up the layout keeps the set names, in its order. -/
theorem unfix_spec (h : s.WellFormed) : s.unfix.WellFormed ∧ s.unfix.rows = s.iter ∧ s.unfix.laidOut = false := by
  obtain ⟨hwf, hrows, hpacked⟩ := unpack_spec h
  unfold unfix
  rw [iter_eq, ← hrows]
  cases hu : s.unpack with
  | packed p => exact absurd hu (hpacked p)
  | fixed layout values =>
    rw [hu] at hwf
    refine fromEntries_spec (nodup_filter hwf.nodup) fun e he => ?_
    exact (List.mem_filter.1 he).2
  | single key value =>
    rw [hu] at hwf
    rw [← iter_eq, hwf.iter_eq_rows rfl]
    exact ⟨hwf, rfl, rfl⟩
  | small entries =>
    rw [hu] at hwf
    rw [← iter_eq, hwf.iter_eq_rows rfl]
    exact ⟨hwf, rfl, rfl⟩
  | many table =>
    rw [hu] at hwf
    rw [← iter_eq, hwf.iter_eq_rows rfl]
    exact ⟨hwf, rfl, rfl⟩

end Conversions

section Inserting

variable {m : OrderedMap Name (Object V)} {key : Name} {slot : Object V}

theorem position_getElem (hn : m.keys.Nodup) (hp : OrderedMap.position m name = some i) :
    ∃ slot, m[i]? = some (name, slot) ∧ lookup m name = some slot := by
  have hkey := (position_eq_some hn).1 hp
  rw [getElem?_keys] at hkey
  obtain ⟨⟨key, slot⟩, he, rfl⟩ := Option.map_eq_some_iff.1 hkey
  exact ⟨slot, he, lookup_of_getElem? hn he⟩

theorem set_eq_store (hn : m.keys.Nodup) (he : m[i]? = some (name, slot)) (v : Object V) :
    m.set i (name, v) = store m name v := by
  have hkey : m.keys[i]? = some name := by rw [getElem?_keys, he]; rfl
  exact (store_of_getElem? hn hkey).symm

theorem bound_store (hb : ∀ e ∈ m, e.2.isBound = true) (hv : value.isBound = true) :
    ∀ e ∈ store m name value, e.2.isBound = true := by
  intro e he
  rcases mem_store he with rfl | he
  · exact hv
  · exact hb e he

/-- Storing beside every name of a form without a layout. -/
theorem insertEntry_spec (h : s.WellFormed) (hlaid : s.laidOut = false) (hv : value.isBound = true) :
    (s.insertEntry name value).1.WellFormed ∧ (s.insertEntry name value).1.laidOut = false ∧
      (s.insertEntry name value).1.rows = store s.rows name value ∧ (s.insertEntry name value).2 = lookup s.rows name := by
  have hbound : ∀ e ∈ store s.rows name value, e.2.isBound = true := bound_store (h.bound hlaid) hv
  have hnodup := @nodup_store _ _ _ s.rows name value h.nodup
  cases s with
  | single key slot =>
    cases key with
    | none => exact ⟨wellFormed_single hv, rfl, rfl, rfl⟩
    | some stored =>
      rw [insertEntry, slotNameEq_eq]
      rw [rows] at hbound hnodup ⊢
      by_cases hs : stored = name
      · subst hs
        rw [if_pos (decide_eq_true rfl)]
        have hstore : store [(stored, slot)] stored value = [(stored, value)] := by simp [store, keys]
        refine ⟨wellFormed_single hv, rfl, hstore.symm, ?_⟩
        rw [lookup_cons, if_pos rfl]
      · have hnot : name ∉ keys [(stored, slot)] := by
          intro hmem
          exact hs (List.mem_singleton.1 hmem).symm
        rw [decide_eq_false hs]
        rw [store_of_not_mem hnot] at hbound hnodup ⊢
        exact ⟨wellFormed_small hnodup hbound, rfl, rfl, (lookup_of_not_mem hnot).symm⟩
  | small entries =>
    have hn : (keys entries).Nodup := h.nodup
    rw [insertEntry, position_small]
    rw [rows] at hbound hnodup ⊢
    cases hp : OrderedMap.position entries name with
    | some i =>
      obtain ⟨slot, he, hlook⟩ := position_getElem hn hp
      simp only [he]
      rw [set_eq_store hn he, hlook]
      exact ⟨wellFormed_small hnodup hbound, rfl, rfl, rfl⟩
    | none =>
      have hnot := position_eq_none.1 hp
      rw [lookup_of_not_mem hnot]
      dsimp only
      split_ifs
      · rw [store_of_not_mem hnot] at hbound hnodup ⊢
        exact ⟨wellFormed_small hnodup hbound, rfl, rfl, rfl⟩
      · rw [tableOf_eq hn]
        exact ⟨wellFormed_many hnodup hbound, rfl, rfl, rfl⟩
  | many table =>
    have hn : table.keys.Nodup := h.nodup
    rw [insertEntry]
    rw [rows] at hbound hnodup ⊢
    cases hp : OrderedMap.position table name with
    | some i =>
      obtain ⟨slot, he, hlook⟩ := position_getElem hn hp
      simp only [he]
      rw [set_eq_store hn he, hlook]
      exact ⟨wellFormed_many hnodup hbound, rfl, rfl, rfl⟩
    | none =>
      rw [lookup_of_not_mem (position_eq_none.1 hp)]
      exact ⟨wellFormed_many hnodup hbound, rfl, rfl, rfl⟩
  | fixed layout values => cases hlaid
  | packed p => cases hlaid

variable {layout : List Name} {values : List (Object V)}

theorem position_layout (hp : position layout name = some i) : layout[i]? = some name := by
  unfold position at hp
  obtain ⟨hi, hname, -⟩ := List.findIdx?_eq_some_iff_getElem.1 hp
  rw [slotNameEq_iff] at hname
  rw [List.getElem?_eq_getElem hi, hname]

theorem position_none (hp : position layout name = none) : name ∉ layout := by
  unfold position at hp
  rw [List.findIdx?_eq_none_iff] at hp
  intro hmem
  have := hp name hmem
  rw [slotNameEq_eq, decide_eq_false_iff_not] at this
  exact this rfl

/-- A value stored in its place of a layout. -/
theorem zip_set (h : (SlotStorage.fixed layout values).WellFormed) (hp : position layout name = some i) (v : Object V) :
    (SlotStorage.fixed layout (values.set i v)).WellFormed ∧ layout.zip (values.set i v) = store (layout.zip values) name v ∧
      lookup (layout.zip values) name = values[i]? := by
  have hlen := h.length_eq _ _ rfl
  have hkey := position_layout hp
  have hn : (keys (layout.zip values)).Nodup := h.nodup
  obtain ⟨slot, he, hlook⟩ := position_getElem hn ((position_zip hlen).trans hp)
  refine ⟨wellFormed_fixed h.layout_nodup (by rw [List.length_set]; exact hlen), ?_, ?_⟩
  · rw [← set_eq_store hn he]
    apply List.ext_getElem?
    intro j
    rw [getElem?_zip, List.getElem?_set, getElem?_zip, zipIndex, zipIndex, List.getElem?_set]
    by_cases hij : i = j
    · subst hij
      have hi : i < layout.length := (List.getElem?_eq_some_iff.1 hkey).1
      rw [hkey, if_pos rfl, if_pos rfl, if_pos (hlen ▸ hi), if_pos (by rw [List.length_zip]; omega)]
      rfl
    · rw [if_neg hij, if_neg hij]
  · rw [lookup_zip hlen, hp, Option.bind_some]

/-- `insert` on each form: the name's place in the layout, or a form without one. -/
theorem insert_spec (h : s.WellFormed) (hv : value.isBound = true) :
    (s.insert name value).1.WellFormed ∧ (s.insert name value).2 = lookup s.iter name ∧
      (((s.insert name value).1.laidOut = true ∧ (s.insert name value).1.rows = store s.rows name value) ∨
        ((s.insert name value).1.laidOut = false ∧ (s.insert name value).1.rows = store s.iter name value)) := by
  obtain ⟨hwf, hrows, hpacked⟩ := unpack_spec h
  rw [h.lookup_iter, ← hrows, ← iter_unpack h]
  unfold insert
  cases hu : s.unpack with
  | packed p => exact absurd hu (hpacked p)
  | fixed layout values =>
    rw [hu] at hwf
    dsimp only
    cases hp : position layout name with
    | some i =>
      obtain ⟨hset, hstore, hlook⟩ := zip_set hwf hp value
      refine ⟨hset, ?_, Or.inl ⟨rfl, hstore⟩⟩
      rw [rows, hlook]
    | none =>
      obtain ⟨hun, hunrows, hunlaid⟩ := unfix_spec hwf
      obtain ⟨hins, hlaid, hstore, hold⟩ := @insertEntry_spec _ _ name _ hun hunlaid hv
      rw [hunrows] at hstore hold
      refine ⟨hins, ?_, Or.inr ⟨hlaid, hstore⟩⟩
      rw [← hwf.lookup_iter]
      exact hold
  | single key slot =>
    rw [hu] at hwf
    obtain ⟨hins, hlaid, hstore, hold⟩ := @insertEntry_spec _ _ name _ hwf rfl hv
    rw [← hwf.iter_eq_rows rfl] at hstore hold
    rw [← hwf.lookup_iter]
    exact ⟨hins, hold, Or.inr ⟨hlaid, hstore⟩⟩
  | small entries =>
    rw [hu] at hwf
    obtain ⟨hins, hlaid, hstore, hold⟩ := @insertEntry_spec _ _ name _ hwf rfl hv
    rw [← hwf.iter_eq_rows rfl] at hstore hold
    rw [← hwf.lookup_iter]
    exact ⟨hins, hold, Or.inr ⟨hlaid, hstore⟩⟩
  | many table =>
    rw [hu] at hwf
    obtain ⟨hins, hlaid, hstore, hold⟩ := @insertEntry_spec _ _ name _ hwf rfl hv
    rw [← hwf.iter_eq_rows rfl] at hstore hold
    rw [← hwf.lookup_iter]
    exact ⟨hins, hold, Or.inr ⟨hlaid, hstore⟩⟩

end Inserting

section Removing

variable {m : OrderedMap Name (Object V)} {layout : List Name} {values : List (Object V)}

theorem bound_remove (hb : ∀ e ∈ m, e.2.isBound = true) : ∀ e ∈ OrderedMap.remove m name, e.2.isBound = true := by
  intro e he
  exact hb e (List.mem_filter.1 he).1

theorem removeEntry_spec (h : s.WellFormed) (hlaid : s.laidOut = false) :
    (s.removeEntry name).1.WellFormed ∧ (s.removeEntry name).1.laidOut = false ∧
      (s.removeEntry name).1.rows = OrderedMap.remove s.rows name ∧ (s.removeEntry name).2 = lookup s.rows name := by
  have hbound : ∀ e ∈ OrderedMap.remove s.rows name, e.2.isBound = true := bound_remove (h.bound hlaid)
  have hnodup := @nodup_remove _ _ _ s.rows name h.nodup
  cases s with
  | single key slot =>
    cases key with
    | none => exact ⟨wellFormed_empty, rfl, rfl, rfl⟩
    | some stored =>
      rw [removeEntry, slotNameEq_eq, rows, lookup_cons]
      by_cases hs : stored = name
      · rw [if_pos (decide_eq_true hs), if_pos hs]
        refine ⟨wellFormed_empty, rfl, ?_, rfl⟩
        rw [OrderedMap.remove, List.filter_cons_of_neg (by simp [hs])]
        rfl
      · rw [decide_eq_false hs, if_neg hs]
        refine ⟨h, rfl, ?_, rfl⟩
        have hnot : name ∉ keys [(stored, slot)] := by
          intro hmem
          exact hs (List.mem_singleton.1 hmem).symm
        rw [remove_of_not_mem hnot]
        rfl
  | small entries =>
    have hn : (keys entries).Nodup := h.nodup
    rw [removeEntry, position_small]
    rw [rows] at hbound hnodup ⊢
    cases hp : OrderedMap.position entries name with
    | some i =>
      obtain ⟨slot, he, hlook⟩ := position_getElem hn hp
      dsimp only
      rw [← remove_of_getElem? hn ((position_eq_some hn).1 hp), he, hlook]
      exact ⟨wellFormed_small hnodup hbound, rfl, rfl, rfl⟩
    | none =>
      have hnot := position_eq_none.1 hp
      rw [remove_of_not_mem hnot, lookup_of_not_mem hnot]
      exact ⟨h, rfl, rfl, rfl⟩
  | many table => exact ⟨wellFormed_many hnodup hbound, rfl, rfl, rfl⟩
  | fixed layout values => cases hlaid
  | packed p => cases hlaid

/-- `remove` on each form: the name is unset in its layout, or goes from a form without one. -/
theorem remove_spec (h : s.WellFormed) :
    (s.remove name).1.WellFormed ∧ (s.remove name).2 = lookup s.iter name ∧
      (((s.remove name).1.laidOut = true ∧ (s.remove name).1.rows = store s.rows name .unbound) ∨
        ((s.remove name).1.laidOut = false ∧ (s.remove name).1.rows = OrderedMap.remove s.iter name)) := by
  obtain ⟨hwf, hrows, hpacked⟩ := unpack_spec h
  -- a form without the name in a layout gives up its layout first
  have hentry : ∀ t : SlotStorage V, t.WellFormed → t.iter = s.iter →
      (t.unfix.removeEntry name).1.WellFormed ∧ (t.unfix.removeEntry name).2 = lookup s.iter name ∧
        (((t.unfix.removeEntry name).1.laidOut = true ∧ (t.unfix.removeEntry name).1.rows = store s.rows name .unbound) ∨
          ((t.unfix.removeEntry name).1.laidOut = false ∧ (t.unfix.removeEntry name).1.rows = OrderedMap.remove s.iter name)) := by
    intro t ht hiter
    obtain ⟨hun, hunrows, hunlaid⟩ := unfix_spec ht
    obtain ⟨hrem, hlaid, hleft, hold⟩ := @removeEntry_spec _ _ name hun hunlaid
    rw [hunrows, hiter] at hleft hold
    exact ⟨hrem, hold, Or.inr ⟨hlaid, hleft⟩⟩
  have hiter := iter_unpack h
  unfold remove
  cases hu : s.unpack with
  | packed p => exact absurd hu (hpacked p)
  | fixed layout values =>
    rw [hu] at hwf hrows hiter
    dsimp only
    cases hp : position layout name with
    | some i =>
      obtain ⟨hset, hstore, hlook⟩ := zip_set hwf hp .unbound
      rw [← hrows, h.lookup_iter, ← hrows]
      refine ⟨hset, ?_, Or.inl ⟨rfl, hstore⟩⟩
      rw [rows, hlook]
    | none => exact hentry _ hwf hiter
  | single key slot =>
    rw [hu] at hwf hiter
    exact hentry _ hwf hiter
  | small entries =>
    rw [hu] at hwf hiter
    exact hentry _ hwf hiter
  | many table =>
    rw [hu] at hwf hiter
    exact hentry _ hwf hiter

end Removing

section Places

variable {layout : List Name} {values : List (Object V)} {key : Name} {p : Place V}

/-- A reference to the slot `name` of `s`, set or laid out. -/
structure IsPlace (s : SlotStorage V) (name : Name) (p : Place V) : Prop where
  value : lookup s.rows name = some p.value
  wellFormed : ∀ v : Object V, v.isBound = true → (p.set v).WellFormed
  rows : ∀ v : Object V, v.isBound = true → (p.set v).rows = store s.rows name v
  laidOut : ∀ v : Object V, (p.set v).laidOut = s.laidOut

theorem isPlace_single {slot : Object V} : IsPlace (.single (some name) slot) name ⟨slot, fun v => .single (some name) v⟩ := by
  constructor
  · rw [rows, lookup_cons, if_pos rfl]
  · intro v hv
    exact wellFormed_single hv
  · intro v _
    simp [rows, store, keys]
  · intro v
    rfl

theorem isPlace_small {entries : List (Name × Object V)} (h : (SlotStorage.small entries).WellFormed) {slot : Object V}
    (he : entries[i]? = some (key, slot)) : ∃ p, smallPlace entries i = some p ∧ IsPlace (.small entries) key p := by
  have hn : (keys entries).Nodup := h.nodup
  refine ⟨_, by rw [smallPlace, he]; rfl, ?_⟩
  constructor
  · exact lookup_of_getElem? hn he
  · intro v hv
    dsimp only
    rw [set_eq_store hn he]
    exact wellFormed_small (nodup_store hn) (bound_store (h.bound rfl) hv)
  · intro v _
    exact set_eq_store hn he v
  · intro v
    rfl

theorem isPlace_many {table : OrderedMap Name (Object V)} (h : (SlotStorage.many table).WellFormed) {slot : Object V}
    (he : table[i]? = some (key, slot)) : ∃ p, manyPlace table i = some p ∧ IsPlace (.many table) key p := by
  have hn : table.keys.Nodup := h.nodup
  refine ⟨_, by rw [manyPlace, he]; rfl, ?_⟩
  constructor
  · exact lookup_of_getElem? hn he
  · intro v hv
    dsimp only
    rw [set_eq_store hn he]
    exact wellFormed_many (nodup_store hn) (bound_store (h.bound rfl) hv)
  · intro v _
    exact set_eq_store hn he v
  · intro v
    rfl

theorem position_of_layout (h : layout.Nodup) (hi : layout[i]? = some key) : position layout key = some i := by
  cases hp : position layout key with
  | none => exact absurd (List.mem_of_getElem? hi) (position_none hp)
  | some j =>
    have hj := position_layout hp
    obtain ⟨hilt, hi⟩ := List.getElem?_eq_some_iff.1 hi
    obtain ⟨hjlt, hj⟩ := List.getElem?_eq_some_iff.1 hj
    rw [(List.Nodup.getElem_inj_iff h).1 (hj.trans hi.symm)]

theorem isPlace_fixed (h : (SlotStorage.fixed layout values).WellFormed) (hi : layout[i]? = some key) :
    ∃ p, fixedPlace layout values i = some p ∧ IsPlace (.fixed layout values) key p := by
  have hlen := h.length_eq _ _ rfl
  have hlt : i < values.length := hlen ▸ (List.getElem?_eq_some_iff.1 hi).1
  have hp := position_of_layout h.layout_nodup hi
  refine ⟨_, by rw [fixedPlace, List.getElem?_eq_getElem hlt]; rfl, ?_⟩
  constructor
  · rw [rows, (zip_set h hp .unbound).2.2, List.getElem?_eq_getElem hlt]
  · intro v _
    exact (zip_set h hp v).1
  · intro v _
    exact (zip_set h hp v).2.1
  · intro v
    rfl

/-- The same names and values, in the same kind of form. -/
structure Kept (s t : SlotStorage V) : Prop where
  wellFormed : t.WellFormed
  rows : t.rows = s.rows
  laidOut : t.laidOut = s.laidOut

theorem Kept.iter (h : Kept s t) : t.iter = s.iter := by
  rw [iter_eq, iter_eq, h.rows]

theorem Kept.isPlace (h : Kept s t) (hp : IsPlace t name p) : IsPlace s name p := by
  obtain ⟨hvalue, hwf, hrows, hlaid⟩ := hp
  rw [h.rows] at hvalue
  constructor
  · exact hvalue
  · exact hwf
  · intro v hv
    rw [hrows v hv, h.rows]
  · intro v
    rw [hlaid v, h.laidOut]

theorem Kept.trans {u : SlotStorage V} (h : Kept s t) (h' : Kept t u) : Kept s u :=
  ⟨h'.wellFormed, h'.rows.trans h.rows, h'.laidOut.trans h.laidOut⟩

theorem unpack_kept (h : s.WellFormed) : Kept s s.unpack := by
  obtain ⟨hwf, hrows, -⟩ := unpack_spec h
  refine ⟨hwf, hrows, ?_⟩
  cases s <;> rfl

theorem getMut_spec (h : s.WellFormed) (name : Name) : Kept s (s.getMut name).1 ∧
    (∀ p, (s.getMut name).2 = some p → IsPlace s name p ∧ p.value.isBound = true) ∧
    ((s.getMut name).2 = none → lookup s.iter name = none) := by
  have hkept := unpack_kept h
  have hpacked := (unpack_spec h).2.2
  rw [← hkept.iter]
  unfold getMut
  cases hu : s.unpack with
  | packed p => exact absurd hu (hpacked p)
  | single key slot =>
    rw [hu] at hkept
    refine ⟨hkept, ?_⟩
    rw [hkept.wellFormed.iter_eq_rows rfl]
    cases key with
    | none =>
      refine ⟨fun p hp => ?_, fun _ => rfl⟩
      cases hp
    | some stored =>
      dsimp only
      rw [slotNameEq_eq, rows, lookup_cons]
      by_cases hs : stored = name
      · subst hs
        rw [if_pos (decide_eq_true rfl)]
        refine ⟨fun p hp => ?_, fun hp => ?_⟩
        · cases hp
          exact ⟨hkept.isPlace isPlace_single, hkept.wellFormed.bound rfl _ List.mem_cons_self⟩
        · cases hp
      · rw [decide_eq_false hs, if_neg hs]
        refine ⟨fun p hp => ?_, fun _ => rfl⟩
        cases hp
  | small entries =>
    rw [hu] at hkept
    have hn : (keys entries).Nodup := hkept.wellFormed.nodup
    refine ⟨hkept, ?_⟩
    rw [hkept.wellFormed.iter_eq_rows rfl]
    dsimp only
    rw [position_small]
    cases hp : OrderedMap.position entries name with
    | none =>
      refine ⟨fun p hp => ?_, fun _ => lookup_of_not_mem (position_eq_none.1 hp)⟩
      cases hp
    | some i =>
      obtain ⟨slot, he, hlook⟩ := position_getElem hn hp
      obtain ⟨p, hplace, hisPlace⟩ := isPlace_small hkept.wellFormed he
      rw [Option.bind_some, hplace]
      refine ⟨fun q hq => ?_, fun hq => ?_⟩
      · cases hq
        exact ⟨hkept.isPlace hisPlace, hkept.wellFormed.bound rfl _ (mem_of_lookup hisPlace.value)⟩
      · cases hq
  | many table =>
    rw [hu] at hkept
    have hn : table.keys.Nodup := hkept.wellFormed.nodup
    refine ⟨hkept, ?_⟩
    rw [hkept.wellFormed.iter_eq_rows rfl]
    dsimp only
    cases hp : OrderedMap.position table name with
    | none =>
      refine ⟨fun p hp => ?_, fun _ => lookup_of_not_mem (position_eq_none.1 hp)⟩
      cases hp
    | some i =>
      obtain ⟨slot, he, hlook⟩ := position_getElem hn hp
      obtain ⟨p, hplace, hisPlace⟩ := isPlace_many hkept.wellFormed he
      rw [Option.bind_some, hplace]
      refine ⟨fun q hq => ?_, fun hq => ?_⟩
      · cases hq
        exact ⟨hkept.isPlace hisPlace, hkept.wellFormed.bound rfl _ (mem_of_lookup hisPlace.value)⟩
      · cases hq
  | fixed layout values =>
    rw [hu] at hkept
    refine ⟨hkept, ?_⟩
    rw [hkept.wellFormed.lookup_iter]
    dsimp only
    cases hp : position layout name with
    | none =>
      refine ⟨fun p hp => ?_, fun _ => ?_⟩
      · cases hp
      · rw [rows, lookup_zip (hkept.wellFormed.length_eq _ _ rfl), hp]
        rfl
    | some i =>
      obtain ⟨p, hplace, hisPlace⟩ := isPlace_fixed hkept.wellFormed (position_layout hp)
      rw [Option.bind_some, hplace, hisPlace.value, Option.filter_some, Option.filter_some]
      split_ifs with hbound
      · refine ⟨fun q hq => ?_, fun hq => ?_⟩
        · cases hq
          exact ⟨hkept.isPlace hisPlace, hbound⟩
        · cases hq
      · refine ⟨fun q hq => ?_, fun _ => rfl⟩
        cases hq

theorem getIndexMut_spec (h : s.WellFormed) (index : ℕ) : Kept s (s.getIndexMut index).1 ∧
    ∀ key p, (s.getIndexMut index).2 = some (key, p) → IsPlace s key p ∧ p.value.isBound = true := by
  have hkept := unpack_kept h
  have hpacked := (unpack_spec h).2.2
  unfold getIndexMut
  cases hu : s.unpack with
  | packed p => exact absurd hu (hpacked p)
  | single key slot =>
    rw [hu] at hkept
    refine ⟨hkept, fun key' p hp => ?_⟩
    dsimp only at hp
    split_ifs at hp
    obtain ⟨stored, rfl, hp⟩ := Option.map_eq_some_iff.1 hp
    cases hp
    exact ⟨hkept.isPlace isPlace_single, hkept.wellFormed.bound rfl _ List.mem_cons_self⟩
  | small entries =>
    rw [hu] at hkept
    refine ⟨hkept, fun key p hp => ?_⟩
    obtain ⟨⟨stored, slot⟩, he, hp⟩ := Option.bind_eq_some_iff.1 hp
    obtain ⟨q, hplace, hisPlace⟩ := isPlace_small hkept.wellFormed he
    rw [hplace] at hp
    cases hp
    exact ⟨hkept.isPlace hisPlace, hkept.wellFormed.bound rfl _ (mem_of_lookup hisPlace.value)⟩
  | many table =>
    rw [hu] at hkept
    refine ⟨hkept, fun key p hp => ?_⟩
    obtain ⟨⟨stored, slot⟩, he, hp⟩ := Option.bind_eq_some_iff.1 hp
    obtain ⟨q, hplace, hisPlace⟩ := isPlace_many hkept.wellFormed he
    rw [hplace] at hp
    cases hp
    exact ⟨hkept.isPlace hisPlace, hkept.wellFormed.bound rfl _ (mem_of_lookup hisPlace.value)⟩
  | fixed layout values =>
    rw [hu] at hkept
    refine ⟨hkept, fun key p hp => ?_⟩
    obtain ⟨hp, hbound⟩ := Option.filter_eq_some_iff.1 hp
    obtain ⟨stored, hi, hp⟩ := Option.bind_eq_some_iff.1 hp
    obtain ⟨q, hplace, hisPlace⟩ := isPlace_fixed hkept.wellFormed hi
    rw [hplace] at hp
    cases hp
    exact ⟨hkept.isPlace hisPlace, hbound⟩

theorem getHintedMut_spec (h : s.WellFormed) (index : ℕ) (name : Name) : Kept s (s.getHintedMut index name).1 ∧
    (∀ p, (s.getHintedMut index name).2 = some p → IsPlace s name p ∧ p.value.isBound = true) ∧
    ((s.getHintedMut index name).2 = none → lookup s.iter name = none) := by
  obtain ⟨hkept, hplace⟩ := getIndexMut_spec h index
  -- the search by name, on the storage that the hint has left
  obtain ⟨hkept', hplace', hnone⟩ := getMut_spec hkept.wellFormed name
  have hsearch : Kept s ((s.getIndexMut index).1.getMut name).1 ∧
      (∀ p, ((s.getIndexMut index).1.getMut name).2 = some p → IsPlace s name p ∧ p.value.isBound = true) ∧
      (((s.getIndexMut index).1.getMut name).2 = none → lookup s.iter name = none) := by
    refine ⟨hkept.trans hkept', fun p hp => ?_, fun hp => ?_⟩
    · exact ⟨hkept.isPlace (hplace' p hp).1, (hplace' p hp).2⟩
    · rw [← hkept.iter]
      exact hnone hp
  unfold getHintedMut
  rcases hr : s.getIndexMut index with ⟨t, _ | ⟨stored, q⟩⟩
  · rw [hr] at hsearch
    exact hsearch
  · rw [hr] at hsearch hkept hplace
    dsimp only
    split_ifs with hname
    · rw [slotNameEq_iff] at hname
      subst hname
      refine ⟨hkept, fun p hp => ?_, fun hp => ?_⟩
      · cases hp
        exact hplace stored q rfl
      · cases hp
    · exact hsearch

theorem placeMut_spec (h : s.WellFormed) (name : Name) : Kept s (s.placeMut name).1 ∧
    (∀ p, (s.placeMut name).2 = some p → IsPlace s name p) ∧
    ((s.placeMut name).2 = none → lookup s.iter name = none) := by
  have hkept := unpack_kept h
  have hpacked := (unpack_spec h).2.2
  -- without a layout it is the search by name
  have hsearch : Kept s (s.unpack.getMut name).1 ∧ (∀ p, (s.unpack.getMut name).2 = some p → IsPlace s name p) ∧
      ((s.unpack.getMut name).2 = none → lookup s.iter name = none) := by
    obtain ⟨hkept', hplace', hnone⟩ := getMut_spec hkept.wellFormed name
    refine ⟨hkept.trans hkept', fun p hp => hkept.isPlace (hplace' p hp).1, fun hp => ?_⟩
    rw [← hkept.iter]
    exact hnone hp
  unfold placeMut
  cases hu : s.unpack with
  | packed p => exact absurd hu (hpacked p)
  | fixed layout values =>
    rw [hu] at hkept
    refine ⟨hkept, ?_⟩
    rw [← hkept.iter, hkept.wellFormed.lookup_iter]
    dsimp only
    cases hp : position layout name with
    | none =>
      refine ⟨fun p hp => ?_, fun _ => ?_⟩
      · cases hp
      · rw [rows, lookup_zip (hkept.wellFormed.length_eq _ _ rfl), hp]
        rfl
    | some i =>
      obtain ⟨p, hplace, hisPlace⟩ := isPlace_fixed hkept.wellFormed (position_layout hp)
      rw [Option.bind_some, hplace]
      refine ⟨fun q hq => ?_, fun hq => ?_⟩
      · cases hq
        exact hkept.isPlace hisPlace
      · cases hq
  | single key slot =>
    rw [hu] at hsearch
    exact hsearch
  | small entries =>
    rw [hu] at hsearch
    exact hsearch
  | many table =>
    rw [hu] at hsearch
    exact hsearch

end Places

end SlotStorage

end WeavePy.Slots
