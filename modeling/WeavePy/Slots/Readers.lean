import WeavePy.Slots.Storage

/-!
Every reader of a storage reads the one map, whatever its form.
-/

namespace WeavePy.Slots

open OrderedMap

variable {V : Type} {s : SlotStorage V} {name : Name} {i : ℕ}

section Names

variable {stored : Name}

theorem eq_of_words {n : ℕ} (hlen : stored.length = name.length) (hn : n ≤ stored.length) (hshort : stored.length ≤ 2 * n)
    (hfirst : wordAt n stored 0 = wordAt n name 0)
    (hlast : wordAt n stored (stored.length - n) = wordAt n name (stored.length - n)) : stored = name := by
  unfold wordAt at hfirst hlast
  rw [List.drop_zero, List.drop_zero] at hfirst
  rw [List.take_of_length_le (by rw [List.length_drop]; omega), List.take_of_length_le (by rw [List.length_drop]; omega)] at hlast
  -- the two words overlap or meet
  have hrest : stored.drop n = name.drop n := by
    have hsplit : n = (stored.length - n) + (n - (stored.length - n)) := by omega
    rw [hsplit, ← List.drop_drop, ← List.drop_drop, hlast]
  rw [← List.take_append_drop n stored, hfirst, hrest, List.take_append_drop]

/-- Comparing by words is comparing. -/
theorem slotNameEq_iff : slotNameEq stored name = true ↔ stored = name := by
  constructor
  · intro h
    unfold slotNameEq at h
    split_ifs at h with hlen hlong hword hhalf
    · exact eq_of_beq h
    · rw [Bool.and_eq_true, beq_iff_eq, beq_iff_eq] at h
      exact eq_of_words (Classical.not_not.1 hlen) hword (by omega) h.1 h.2
    · rw [Bool.and_eq_true, beq_iff_eq, beq_iff_eq] at h
      exact eq_of_words (Classical.not_not.1 hlen) hhalf (by omega) h.1 h.2
    · rw [List.all_eq_true] at h
      apply List.ext_getElem? 
      intro i
      by_cases hi : i < stored.length
      · exact eq_of_beq (h i (List.mem_range.2 hi))
      · rw [List.getElem?_eq_none (by omega), List.getElem?_eq_none (by omega)]
  · rintro rfl
    unfold slotNameEq
    split_ifs with hlen
    · exact absurd rfl hlen
    · exact beq_self_eq_true _
    · rw [beq_self_eq_true, beq_self_eq_true]
      rfl
    · rw [beq_self_eq_true, beq_self_eq_true]
      rfl
    · rw [List.all_eq_true]
      intro i hi
      exact beq_self_eq_true _

@[simp]
theorem slotNameEq_eq (stored name : Name) : slotNameEq stored name = decide (stored = name) := by
  rw [Bool.eq_iff_iff, slotNameEq_iff, decide_eq_true_iff]

end Names

namespace SlotStorage

/-- The names of a form with the values they stand beside, unset ones too. -/
def rows : SlotStorage V → OrderedMap Name (Object V)
  | .single (some key) value => [(key, value)]
  | .single none _ => []
  | .small entries => entries
  | .many table => table
  | .fixed layout values => layout.zip values
  | .packed p => p.layout.zip p.values

/-- The form is laid out over names that it shares with others. -/
def laidOut : SlotStorage V → Bool
  | .fixed _ _ => true
  | .packed _ => true
  | _ => false

/-- Distinct names, and only a layout's are unset. -/
structure WellFormed (s : SlotStorage V) : Prop where
  nodup : s.rows.keys.Nodup
  bound : s.laidOut = false → ∀ e ∈ s.rows, e.2.isBound = true
  length_eq : ∀ layout values, s = .fixed layout values → layout.length = values.length

section Layouts

variable {layout : List Name} {values : List (Object V)}

theorem keys_zip (h : layout.length = values.length) : keys (layout.zip values) = layout :=
  List.map_fst_zip (Nat.le_of_eq h)

theorem position_zip (h : layout.length = values.length) : OrderedMap.position (layout.zip values) name = position layout name := by
  unfold OrderedMap.position position
  rw [keys_zip h]
  simp only [slotNameEq_eq]

theorem getElem?_zip (layout : List Name) (values : List (Object V)) (i : ℕ) :
    (layout.zip values)[i]? = zipIndex layout values i := by
  unfold zipIndex List.zip
  rw [List.getElem?_zipWith]
  cases layout[i]? with
  | none => rfl
  | some key => cases values[i]? <;> rfl

theorem lookup_zip (h : layout.length = values.length) :
    lookup (layout.zip values) name = (position layout name).bind fun i => values[i]? := by
  rw [lookup_eq_position, position_zip h]
  cases hp : position layout name with
  | none => rfl
  | some i =>
    have hi : i < layout.length := by
      unfold position at hp
      obtain ⟨hi, -⟩ := List.findIdx?_eq_some_iff_getElem.1 hp
      exact hi
    rw [Option.bind_some, Option.bind_some, getElem?_zip, zipIndex, List.getElem?_eq_getElem hi, List.getElem?_eq_getElem (h ▸ hi)]
    rfl

end Layouts

section Reading

variable {value : Object V}

theorem iter_eq (s : SlotStorage V) : s.iter = s.rows.filter fun e => e.2.isBound := by
  unfold iter rows
  cases s with
  | single key value =>
    cases key with
    | none => rfl
    | some key => rfl
  | small entries => simp
  | many table => simp
  | fixed layout values => simp
  | packed p => simp

theorem WellFormed.iter_eq_rows (h : s.WellFormed) (hlaid : s.laidOut = false) : s.iter = s.rows := by
  rw [iter_eq, List.filter_eq_self]
  exact h.bound hlaid

theorem WellFormed.nodup_iter (h : s.WellFormed) : (keys s.iter).Nodup := by
  rw [iter_eq]
  exact nodup_filter h.nodup

theorem WellFormed.lookup_iter (h : s.WellFormed) (name : Name) :
    lookup s.iter name = (lookup s.rows name).filter Object.isBound := by
  rw [iter_eq]
  exact lookup_filter h.nodup

/-- Where every name is set, looking one up finds a set value. -/
theorem WellFormed.lookup_bound (h : s.WellFormed) (hlaid : s.laidOut = false) (name : Name) :
    (lookup s.rows name).filter Object.isBound = lookup s.rows name := by
  cases hl : lookup s.rows name with
  | none => rfl
  | some v => rw [Option.filter_some, if_pos (h.bound hlaid _ (mem_of_lookup hl))]

theorem packed_bound (p : PackedSlots V) : ∀ e ∈ p.layout.zip p.values, e.2.isBound = true := by
  intro e he
  exact p.bound e.2 (List.of_mem_zip he).2

theorem findSome_eq_lookup (entries : List (Name × Object V)) :
    (entries.findSome? fun e => if slotNameEq e.1 name then some e.2 else none) = lookup entries name := by
  induction entries with
  | nil => rfl
  | cons e entries ih =>
    rw [List.findSome?_cons, lookup_cons, slotNameEq_eq, ih]
    by_cases h : e.1 = name
    · rw [if_pos h, if_pos (decide_eq_true h)]
    · rw [if_neg h, decide_eq_false h]
      rfl

theorem WellFormed.get_eq (h : s.WellFormed) (name : Name) : s.get name = lookup s.iter name := by
  rw [h.lookup_iter]
  cases s with
  | single key value =>
    rw [h.lookup_bound rfl]
    cases key with
    | none => rfl
    | some stored =>
      rw [get, slotNameEq_eq, rows, lookup_cons]
      by_cases hs : stored = name
      · rw [if_pos hs, if_pos (decide_eq_true hs)]
      · rw [if_neg hs, decide_eq_false hs]
        rfl
  | small entries =>
    rw [h.lookup_bound rfl]
    exact findSome_eq_lookup entries
  | many table =>
    rw [h.lookup_bound rfl]
    rfl
  | fixed layout values => rw [get, rows, lookup_zip (h.length_eq _ _ rfl)]
  | packed p =>
    have hfilter : (p.layout.zip p.values).filter (fun e => e.2.isBound) = p.layout.zip p.values :=
      List.filter_eq_self.2 (packed_bound p)
    rw [get, ← lookup_zip p.length_eq, ← h.lookup_iter, iter_eq, rows, hfilter]

theorem WellFormed.getIndex_eq (h : s.WellFormed) (i : ℕ) : s.getIndex i = (s.rows[i]?).filter fun e => e.2.isBound := by
  -- without a layout, and in a packed value, the filter lets everything pass
  have hall : (∀ e ∈ s.rows, e.2.isBound = true) → (s.rows[i]?).filter (fun e => e.2.isBound) = s.rows[i]? := by
    intro hbound
    cases hi : s.rows[i]? with
    | none => rfl
    | some e => rw [Option.filter_some, if_pos (hbound e (List.mem_of_getElem? hi))]
  cases s with
  | single key value =>
    rw [hall (h.bound rfl)]
    cases key with
    | none =>
      rw [getIndex, rows, Option.map_none, ite_self]
      rfl
    | some stored =>
      rw [getIndex, rows]
      cases i with
      | zero => rfl
      | succ i => rfl
  | small entries =>
    rw [hall (h.bound rfl)]
    rfl
  | many table =>
    rw [hall (h.bound rfl)]
    rfl
  | fixed layout values => rw [getIndex, rows, getElem?_zip]
  | packed p =>
    rw [hall (packed_bound p), getIndex, rows, getElem?_zip]

theorem WellFormed.getIndex_get (h : s.WellFormed) {stored : Name} (hi : s.getIndex i = some (stored, value)) :
    s.get stored = some value := by
  rw [h.getIndex_eq] at hi
  obtain ⟨hrow, hbound⟩ := Option.filter_eq_some_iff.1 hi
  rw [h.get_eq, h.lookup_iter, lookup_of_getElem? h.nodup hrow, Option.filter_some, if_pos hbound]

/-- A wrong hint costs a search, no more. -/
theorem WellFormed.getHinted_eq (h : s.WellFormed) (i : ℕ) (name : Name) : s.getHinted i name = s.get name := by
  unfold getHinted
  cases hi : s.getIndex i with
  | none => rfl
  | some e =>
    obtain ⟨stored, value⟩ := e
    dsimp only
    split_ifs with hname
    · rw [slotNameEq_iff] at hname
      rw [← hname, h.getIndex_get hi]
    · rfl

theorem position_small (entries : List (Name × Object V)) :
    (entries.findIdx? fun e => slotNameEq e.1 name) = OrderedMap.position entries name := by
  unfold OrderedMap.position keys
  rw [List.findIdx?_map]
  congr 1
  funext e
  exact slotNameEq_eq e.1 name

/-- Without unset names, a name has a position exactly when it has a value. -/
theorem WellFormed.position_eq (h : s.WellFormed) (hbound : ∀ e ∈ s.rows, e.2.isBound = true) (name : Name) :
    OrderedMap.position s.rows name = if (s.get name).isSome then OrderedMap.position s.rows name else none := by
  have hfilter : s.iter = s.rows := by
    rw [iter_eq]
    exact List.filter_eq_self.2 hbound
  rw [h.get_eq, hfilter]
  split_ifs with hsome
  · rfl
  · rw [lookup_isSome] at hsome
    exact position_eq_none.2 hsome

theorem WellFormed.indexOf_eq (h : s.WellFormed) (name : Name) :
    s.indexOf name = if (s.get name).isSome then OrderedMap.position s.rows name else none := by
  cases s with
  | single key value =>
    rw [← h.position_eq (h.bound rfl)]
    cases key with
    | none => rfl
    | some stored =>
      rw [indexOf, get, slotNameEq_eq, rows, position_cons]
      by_cases hs : stored = name
      · rw [if_pos hs, if_pos (decide_eq_true hs)]
        rfl
      · rw [if_neg hs, decide_eq_false hs]
        rfl
  | small entries =>
    rw [← h.position_eq (h.bound rfl)]
    exact position_small entries
  | many table => exact h.position_eq (h.bound rfl) name
  | fixed layout values =>
    have hlen := h.length_eq _ _ rfl
    rw [indexOf, get, rows, position_zip hlen]
    cases hp : position layout name with
    | none => rfl
    | some i =>
      rw [Option.bind_some, Option.filter_some]
      cases hv : values[i]? with
      | none =>
        have hget : values.getD i .unbound = .unbound := by rw [List.getD_eq_getElem?_getD, hv]; rfl
        rw [hget]
        rfl
      | some v =>
        have hget : values.getD i .unbound = v := by rw [List.getD_eq_getElem?_getD, hv]; rfl
        rw [hget, Option.filter_some]
        cases v.isBound <;> rfl
  | packed p =>
    rw [← h.position_eq (packed_bound p), rows, position_zip p.length_eq]
    rfl

theorem WellFormed.getIndex_indexOf (h : s.WellFormed) (name : Name) :
    (s.indexOf name).bind s.getIndex = (s.get name).map fun value => (name, value) := by
  rw [h.indexOf_eq]
  cases hget : s.get name with
  | none => rfl
  | some value =>
    rw [h.get_eq, h.lookup_iter] at hget
    obtain ⟨hlook, hbound⟩ := Option.filter_eq_some_iff.1 hget
    cases hp : OrderedMap.position s.rows name with
    | none =>
      rw [lookup_of_not_mem (position_eq_none.1 hp)] at hlook
      cases hlook
    | some i =>
      rw [lookup_eq_position, hp, Option.bind_some] at hlook
      obtain ⟨e, he, rfl⟩ := Option.map_eq_some_iff.1 hlook
      have hkey := (position_eq_some h.nodup).1 hp
      rw [getElem?_keys, he] at hkey
      cases hkey
      change s.getIndex i = some (e.1, e.2)
      rw [h.getIndex_eq, he, Option.filter_some, if_pos hbound]

theorem forEachEntry_eq {σ : Type} (s : SlotStorage V) (f : σ → Name → Object V → σ) (init : σ) :
    s.forEachEntry f init = s.iter.foldl (fun state e => f state e.1 e.2) init := by
  rw [iter_eq, List.foldl_filter]
  cases s with
  | single key value =>
    cases key with
    | none => rfl
    | some key => rfl
  | small entries => rfl
  | many table => rfl
  | fixed layout values => rfl
  | packed p => rfl

theorem objects_eq (entries : List (Name × Object V)) :
    (entries.map Prod.snd).filter Object.isBound = (entries.filter fun e => e.2.isBound).map Prod.snd := by
  rw [List.filter_map]
  rfl

theorem WellFormed.valuesView_eq (h : s.WellFormed) : s.valuesView.objects = s.iter.map Prod.snd := by
  rw [iter_eq, ← objects_eq]
  cases s with
  | single key value =>
    cases key with
    | none => rfl
    | some key => rfl
  | small entries => rfl
  | many table => rfl
  | fixed layout values => rw [rows, List.map_snd_zip (Nat.le_of_eq (h.length_eq _ _ rfl).symm)]; rfl
  | packed p => rw [rows, List.map_snd_zip (Nat.le_of_eq p.length_eq.symm)]; rfl

end Reading

end SlotStorage

end WeavePy.Slots
