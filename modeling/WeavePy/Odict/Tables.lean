import WeavePy.Odict.InStep

/-!
What an ordered dict keeps even out of step: its payload and its order are tables, so every operation
returns unless a table must grow past its limit.
-/

namespace WeavePy.Odict

open DictMap AssocList

variable {Ω V : Type}

/-- The longer of payload and order. -/
def OrderedDict.size (od : OrderedDict Ω V) : ℕ := max od.main.entries.length od.orderOf.entries.length

variable [KeyOps Ω] {od : OrderedDict Ω V} {m : List (Object Ω × V)} {key : Object Ω} {value : V} {last : Bool}

structure Tables (od : OrderedDict Ω V) : Prop where
  slots : SlotsOk od.main
  keys : KeysOk od.main.entries
  orderSlots : SlotsOk od.orderOf
  orderKeys : KeysOk od.orderOf.entries

theorem InStep.tables (h : InStep od m) : Tables od := ⟨h.slots, h.keys, h.order.slots, h.order.keys⟩

theorem InStep.size (h : InStep od m) : od.size = m.length := by
  unfold OrderedDict.size
  rw [h.length_main, h.length_order, max_self]

theorem tables_of {main : Table Ω V} {order : Table Ω Unit} {m₀ : List (Object Ω × V)} {m₁ : List (Object Ω × Unit)}
    (hmain : Holds main m₀) (horder : Holds order m₁) : Tables ⟨main, some order⟩ :=
  ⟨hmain.slots, hmain.keys, horder.slots, horder.keys⟩

theorem Holds.length {U : Type} {t : Table Ω U} {m : List (Object Ω × U)} (h : Holds t m) : t.entries.length = m.length := by
  rw [← length_pairs, h.pairs_eq]

namespace Tables

theorem touch (h : Tables od) : Tables ⟨od.main, some od.orderOf⟩ := ⟨h.slots, h.keys, h.orderSlots, h.orderKeys⟩

theorem order_holds (h : Tables od) : Holds od.orderOf (pairs od.orderOf) := ⟨h.orderSlots, h.orderKeys, rfl⟩

theorem main_holds (h : Tables od) : Holds od.main (pairs od.main) := ⟨h.slots, h.keys, rfl⟩

theorem clear (h : Tables od) : ∃ od' r, od.clear = .ok (od', r) ∧ Tables od' := by
  obtain ⟨main, hmain, hholds⟩ := dictClear_ok h.slots
  unfold OrderedDict.clear
  rw [hmain, ok_bind]
  cases ho : od.order with
  | none => exact ⟨_, _, rfl, hholds.slots, hholds.keys, SlotsOk.new, keysOk_nil⟩
  | some o =>
    have hslots := h.orderSlots
    rw [orderOf_some ho] at hslots
    obtain ⟨order, horder, hnodes⟩ := dictClear_ok hslots
    dsimp only [Option.elim_some]
    rw [horder]
    exact ⟨_, _, rfl, tables_of hholds hnodes⟩

variable [LawfulKeys Ω]

theorem moveIndex {order : Table Ω Unit} {i : ℕ} (hslots : SlotsOk order) (hkeys : KeysOk order.entries)
    (hi : i < order.entries.length) (last : Bool) :
    ∃ order', order.moveIndex i (OrderedDict.endOf order last) = .ok order' ∧ SlotsOk order' ∧ KeysOk order'.entries := by
  have hend : OrderedDict.endOf order last < order.entries.length := by
    unfold OrderedDict.endOf
    split_ifs <;> omega
  obtain ⟨order', hmove, hslots', hentries⟩ := hslots.moveIndex hi hend
  refine ⟨order', hmove, hslots', ?_⟩
  have hb := List.getElem?_eq_getElem hi
  have hto := moveEntry_end hb last
  have herase := List.getElem_cons_eraseIdx_perm hi
  unfold OrderedDict.endOf at hentries
  rw [hentries, hto]
  apply hkeys.perm
  split_ifs
  · exact List.perm_append_comm.trans herase
  · exact herase

variable [LeafOps Ω] [LawfulLeaf Ω]

theorem setitem (h : Tables od) (watched : Bool) (key : Object Ω) (value : V) :
    Ensures (od.setitem watched key value) (fun r => Tables r.1 ∧ r.1.size ≤ od.size + 1) (2 ^ 31 ≤ od.size + 1) := by
  have hmain := dictInsert_ensures h.slots h.keys watched key value
  have horder := dictInsert_ensures h.orderSlots h.orderKeys watched key ()
  have hstore : ∀ {U : Type} {t t' : Table Ω U} {u : U}, Holds t' (store dictKeyEq (pairs t) key u) →
      t'.entries.length ≤ t.entries.length + 1 := by
    intro U t t' u ht
    rw [Holds.length ht, ← length_pairs]
    exact length_store key u
  cases hrun : dictInsert watched od.main key value with
  | error e =>
    rw [hrun] at hmain
    unfold OrderedDict.setitem
    dsimp only
    rw [hrun]
    exact ⟨hmain.1, le_trans hmain.2 (Nat.add_le_add_right (le_max_left _ _) 1)⟩
  | ok r =>
    obtain ⟨main, old⟩ := r
    rw [hrun] at hmain
    have hlen := hstore hmain.1
    have hfresh : old = none ∨ indexOf od.orderOf key = .ok none → Ensures (od.setitem watched key value)
        (fun r => Tables r.1 ∧ r.1.size ≤ od.size + 1) (2 ^ 31 ≤ od.size + 1) := by
      intro hnew
      rw [OrderedDict.setitem_fresh hrun hnew]
      have hle := le_max_right od.main.entries.length od.orderOf.entries.length
      apply (horder.mono (fun _ => id) fun hr => le_trans hr (Nat.add_le_add_right hle 1)).bind
      rintro ⟨order, x⟩ ⟨hnodes, -⟩
      exact ⟨tables_of hmain.1 hnodes, max_le_max hlen (hstore hnodes) |>.trans (by rw [Nat.add_max_add_right]; rfl)⟩
    cases hold : old with
    | none => exact hfresh (.inl hold)
    | some v =>
      cases hp : place od.orderOf key with
      | none => exact hfresh (.inr (by rw [indexOf_ok h.orderSlots h.orderKeys, hp]))
      | some i =>
        subst hold
        apply ensures_of_eq (OrderedDict.setitem_present hrun (by rw [indexOf_ok h.orderSlots h.orderKeys, hp]))
        refine ⟨tables_of hmain.1 h.order_holds, ?_⟩
        exact max_le_max hlen (Nat.le_succ _) |>.trans (by rw [Nat.add_max_add_right]; rfl)

theorem delitem (h : Tables od) (key : Object Ω) : ∃ od' r, od.delitem key = .ok (od', r) ∧ Tables od' := by
  obtain ⟨main, hmain, hholds⟩ := dictRemove_ok h.slots h.keys key
  unfold OrderedDict.delitem
  cases ho : od.order with
  | none =>
    dsimp only [Option.elim_none]
    rw [pure_bind, hmain]
    exact ⟨_, _, rfl, hholds.slots, hholds.keys, SlotsOk.new, keysOk_nil⟩
  | some o =>
    have hslots := h.orderSlots
    have hkeys := h.orderKeys
    rw [orderOf_some ho] at hslots hkeys
    obtain ⟨order, horder, hnodes⟩ := dictRemove_ok hslots hkeys key
    dsimp only [Option.elim_some]
    rw [horder]
    dsimp only [Functor.map, Except.map]
    rw [ok_bind, hmain]
    exact ⟨_, _, rfl, tables_of hholds hnodes⟩

theorem pop (h : Tables od) (key : Object Ω) (default : Option V) :
    ∃ od' r, od.pop key default = .ok (od', r) ∧ Tables od' := by
  obtain ⟨main, hmain, hholds⟩ := dictRemove_ok h.slots h.keys key
  unfold OrderedDict.pop
  dsimp only
  cases ho : od.order with
  | none => exact ⟨_, _, rfl, h⟩
  | some o =>
    have hslots := h.orderSlots
    have hkeys := h.orderKeys
    rw [orderOf_some ho] at hslots hkeys
    obtain ⟨order, horder, hnodes⟩ := dictRemove_ok hslots hkeys key
    dsimp only
    rw [horder, ok_bind]
    dsimp only
    split_ifs
    · exact ⟨_, _, rfl, tables_of h.main_holds hnodes⟩
    · rw [hmain]
      exact ⟨_, _, rfl, tables_of hholds hnodes⟩

theorem popitem (h : Tables od) (last : Bool) : ∃ od' r, od.popitem last = .ok (od', r) ∧ Tables od' := by
  unfold OrderedDict.popitem
  dsimp only
  split_ifs with hempty
  · exact ⟨_, _, rfl, h.touch⟩
  · obtain ⟨order, hshift, hslots, hentries⟩ := h.orderSlots.shiftRemoveIndex (OrderedDict.endOf od.orderOf last)
    have hkeys : KeysOk order.entries := by
      rw [hentries]
      exact h.orderKeys.sublist (List.eraseIdx_sublist _ _)
    unfold OrderedDict.popNode
    rw [hshift, ok_bind]
    cases od.orderOf.entries[OrderedDict.endOf od.orderOf last]? with
    | none => exact ⟨_, _, rfl, tables_of h.main_holds ⟨hslots, hkeys, rfl⟩⟩
    | some b =>
      obtain ⟨main, hmain, hholds⟩ := dictRemove_ok h.slots h.keys b.key
      dsimp only [Option.map_some]
      rw [hmain]
      exact ⟨_, _, rfl, tables_of hholds ⟨hslots, hkeys, rfl⟩⟩

theorem moveToEnd (h : Tables od) (key : KeyRef Ω) (last : Bool) :
    ∃ od' r, od.moveToEnd key last = .ok (od', r) ∧ Tables od' := by
  unfold OrderedDict.moveToEnd
  dsimp only
  split_ifs
  · exact ⟨_, _, rfl, h.touch⟩
  · exact ⟨_, _, rfl, h.touch⟩
  · rw [indexOf_ok h.orderSlots h.orderKeys, ok_bind]
    cases place od.orderOf key.obj with
    | none => exact ⟨_, _, rfl, h.touch⟩
    | some i =>
      dsimp only
      split_ifs with hi
      · obtain ⟨order, hmove, hslots, hkeys⟩ := moveIndex h.orderSlots h.orderKeys hi.1 last
        rw [hmove]
        exact ⟨_, _, rfl, tables_of h.main_holds ⟨hslots, hkeys, rfl⟩⟩
      · exact ⟨_, _, rfl, h.touch⟩

theorem setdefault (h : Tables od) (watched : Bool) (key : Object Ω) (default : V) :
    Ensures (od.setdefault watched key default) (fun r => Tables r.1) (2 ^ 31 ≤ od.size + 1) := by
  unfold OrderedDict.setdefault
  rw [dictLookup_ok h.slots h.keys, ok_bind]
  cases (find dictKeyEq (pairs od.main) key).map Prod.snd with
  | some v => exact h
  | none =>
    apply (h.setitem watched key default).bind
    rintro ⟨od', r⟩ ⟨htables, -⟩
    exact htables

theorem update (h : Tables od) (watched : Bool) (l : List (Object Ω × V)) :
    Ensures (od.update watched l) Tables (2 ^ 31 ≤ od.size + l.length) := by
  unfold OrderedDict.update
  induction l generalizing od with
  | nil => exact h
  | cons e l ih =>
    rw [List.foldlM_cons, List.length_cons]
    apply Ensures.bind
    · apply Ensures.fst (P := fun od' => Tables od' ∧ od'.size ≤ od.size + 1)
      exact (h.setitem watched e.1 e.2).mono (fun _ => id) fun hr => by omega
    · rintro od' ⟨htables, hsize⟩
      exact (ih htables).mono (fun _ => id) fun hr => by omega

section LeafHalves

theorem probes_ok {U : Type} {t : Table Ω U} {p : LeafProbe Ω} (hslots : SlotsOk t) (hkeys : KeysOk t.entries)
    (hp : LeafProbe.new key = some p) : ∃ r f, t.probeEntry p = .ok (entryOf p.hash r) ∧ t.getIndexOf p = .ok r.toOption ∧
      foreign t p = .ok f ∧
      match r with
      | .ok i => i < t.entries.length
      | .error pos => t.slots ≠ [] → Vacant t.slots t.shift (mix p.hash) pos := by
  obtain ⟨r, f, hr, hf, hcase⟩ := leaf_find hslots hkeys hp
  refine ⟨r, f, probeEntry_eq hr, getIndexOf_eq hr, hf, ?_⟩
  cases r with
  | ok i => exact place_lt hcase
  | error pos =>
    rw [(LeafProbe.new_some hp).2]
    exact hcase.1

theorem setitemLeaf (h : Tables od) (watched : Bool) (key : Object Ω) (value : V) :
    Ensures (od.setitemLeaf watched key value) (fun _ => True) (2 ^ 31 ≤ od.size + 1) := by
  unfold OrderedDict.setitemLeaf
  cases watched with
  | true => trivial
  | false =>
    rw [if_neg Bool.false_ne_true]
    cases ho : od.order with
    | none => trivial
    | some order =>
      cases hp : LeafProbe.new key with
      | none => trivial
      | some p =>
        have hslots := h.orderSlots
        have hkeys := h.orderKeys
        rw [orderOf_some ho] at hslots hkeys
        have hmain' : od.main.entries.length + 1 ≤ od.size + 1 := Nat.add_le_add_right (le_max_left _ _) 1
        have horder' : order.entries.length + 1 ≤ od.size + 1 := by
          rw [← orderOf_some ho]
          exact Nat.add_le_add_right (le_max_right _ _) 1
        obtain ⟨r, f, hr, -, hf, hcase⟩ := probes_ok h.slots h.keys hp
        obtain ⟨r', f', hr', -, hf', hcase'⟩ := probes_ok hslots hkeys hp
        dsimp only
        rw [hr, ok_bind, hr', ok_bind, hf, ok_bind, hf', ok_bind]
        split_ifs with hseen
        · trivial
        · have hnode {pos : ℕ} (hv : order.slots ≠ [] → Vacant order.slots order.shift (mix p.hash) pos)
              (main : Table Ω V) : Ensures (do
                let order ← (fun r => r.1) <$> order.pushAt pos p.hash key ()
                return (⟨main, some order⟩, some (.ok .noneObject)) : Outcome (OrderedDict.Half Ω V))
                (fun _ => True) (2 ^ 31 ≤ od.size + 1) := by
            apply Ensures.bind (P := fun _ => True)
            · apply Ensures.fst (P := fun _ => True)
              exact (hslots.pushAt hv key ()).mono (fun _ _ => trivial) fun hr => le_trans hr horder'
            · exact fun _ _ => trivial
          cases r with
          | ok i =>
            obtain ⟨main, hrep, -⟩ := h.slots.replaceValue (List.getElem?_eq_getElem hcase) value
            dsimp only [entryOf]
            rw [hrep]
            cases r' with
            | ok j => trivial
            | error pos => exact hnode hcase' main
          | error pos =>
            dsimp only [entryOf]
            apply Ensures.bind (P := fun _ => True)
            · apply Ensures.fst (P := fun _ => True)
              exact (h.slots.pushAt hcase key value).mono (fun _ _ => trivial) fun hr => le_trans hr hmain'
            · intro main _
              cases r' with
              | ok j => trivial
              | error pos => exact hnode hcase' main

theorem leafUnlink {order : Table Ω Unit} (h : Tables od) (hslots : SlotsOk order) (i : ℕ) {p : LeafProbe Ω}
    (hp : LeafProbe.new key = some p) : ∃ r, od.leafUnlink order i p = .ok r := by
  obtain ⟨r, f, -, hr, -, hcase⟩ := probes_ok h.slots h.keys hp
  unfold OrderedDict.leafUnlink
  rw [hr, ok_bind]
  cases r with
  | error pos => exact ⟨_, rfl⟩
  | ok j =>
    obtain ⟨main, hmain, -⟩ := h.slots.shiftRemoveIndex j
    obtain ⟨order', horder, -⟩ := hslots.shiftRemoveIndex i
    dsimp only [Except.toOption]
    rw [hmain, ok_bind]
    cases od.main.entries[j]? with
    | none => exact ⟨_, rfl⟩
    | some b =>
      dsimp only [Option.map_some]
      rw [horder]
      exact ⟨_, rfl⟩

theorem popLeaf (h : Tables od) (watched : Bool) (key : Object Ω) (default : Option V) :
    ∃ r, od.popLeaf watched key default = .ok r := by
  unfold OrderedDict.popLeaf
  cases watched with
  | true => exact ⟨_, rfl⟩
  | false =>
    rw [if_neg Bool.false_ne_true]
    cases ho : od.order with
    | none => exact ⟨_, rfl⟩
    | some order =>
      have hslots := h.orderSlots
      have hkeys := h.orderKeys
      rw [orderOf_some ho] at hslots hkeys
      cases hp : LeafProbe.new key with
      | none => exact ⟨_, rfl⟩
      | some p =>
        obtain ⟨r, f, -, hr, hf, -⟩ := probes_ok hslots hkeys hp
        dsimp only
        rw [hr, ok_bind]
        cases r with
        | error pos =>
          dsimp only [Except.toOption]
          rw [hf]
          cases f <;> exact ⟨_, rfl⟩
        | ok i =>
          obtain ⟨⟨od', v⟩, hunlink⟩ := h.leafUnlink hslots i hp
          dsimp only [Except.toOption]
          rw [hunlink]
          exact ⟨_, rfl⟩

theorem popitemLeaf (h : Tables od) (watched : Bool) (last : Bool) : ∃ r, od.popitemLeaf watched last = .ok r := by
  unfold OrderedDict.popitemLeaf
  cases watched with
  | true => exact ⟨_, rfl⟩
  | false =>
    rw [if_neg Bool.false_ne_true]
    cases ho : od.order with
    | none => exact ⟨_, rfl⟩
    | some order =>
      have hslots := h.orderSlots
      rw [orderOf_some ho] at hslots
      dsimp only
      split_ifs
      · exact ⟨_, rfl⟩
      · cases order.entries[OrderedDict.endOf order last]? with
        | none => exact ⟨_, rfl⟩
        | some b =>
          dsimp only
          cases hp : LeafProbe.new b.key with
          | none => exact ⟨_, rfl⟩
          | some p =>
            obtain ⟨⟨od', v⟩, hunlink⟩ := h.leafUnlink hslots (OrderedDict.endOf order last) hp
            dsimp only
            rw [hunlink]
            exact ⟨_, rfl⟩

theorem moveToEndLeaf (h : Tables od) (watched : Bool) (key : Object Ω) (last : Bool) :
    ∃ r, od.moveToEndLeaf watched key last = .ok r := by
  unfold OrderedDict.moveToEndLeaf
  cases watched with
  | true => exact ⟨_, rfl⟩
  | false =>
    rw [if_neg Bool.false_ne_true]
    cases ho : od.order with
    | none => exact ⟨_, rfl⟩
    | some order =>
      have hslots := h.orderSlots
      have hkeys := h.orderKeys
      rw [orderOf_some ho] at hslots hkeys
      cases hp : LeafProbe.new key with
      | none => exact ⟨_, rfl⟩
      | some p =>
        obtain ⟨r, f, -, hr, hf, hcase⟩ := probes_ok hslots hkeys hp
        dsimp only
        rw [hr, ok_bind]
        cases r with
        | error pos =>
          dsimp only [Except.toOption]
          rw [hf]
          cases f <;> exact ⟨_, rfl⟩
        | ok i =>
          dsimp only [Except.toOption]
          split_ifs
          · obtain ⟨order', hmove, -⟩ := moveIndex hslots hkeys hcase last
            rw [hmove]
            exact ⟨_, rfl⟩
          · exact ⟨_, rfl⟩

end LeafHalves

end Tables

end WeavePy.Odict
