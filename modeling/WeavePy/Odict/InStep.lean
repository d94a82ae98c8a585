import WeavePy.Odict.Halves

/-!
An ordered dict in step: its order lists the keys of its payload, as an association list that can move an
entry to either end.
-/

namespace WeavePy.Odict

open DictMap AssocList

theorem moveEntry_end {α : Type} {l : List α} {i : ℕ} {a : α} (hi : l[i]? = some a) (last : Bool) :
    (if i = (if last then l.length - 1 else 0) then l
      else moveEntry l i (if last then l.length - 1 else 0)) =
      if last then l.eraseIdx i ++ [a] else a :: l.eraseIdx i := by
  obtain ⟨hlt, rfl⟩ := List.getElem?_eq_some_iff.mp hi
  apply List.ext_getElem?
  intro n
  cases last with
  | true =>
    simp only [if_true]
    split_ifs with hend
    · simp only [List.getElem?_append, List.getElem?_eraseIdx, List.length_eraseIdx, List.getElem?_singleton]
      split_ifs <;> grind
    · rw [moveEntry_down (by omega) (by omega)]
      simp only [List.getElem?_append, List.getElem?_eraseIdx, List.length_eraseIdx, List.getElem?_singleton]
      split_ifs <;> grind
  | false =>
    simp only [Bool.false_eq_true, if_false]
    split_ifs with hend
    · subst hend
      simp only [List.getElem?_cons, List.getElem?_eraseIdx]
      split_ifs <;> grind
    · rw [moveEntry_up (by omega) hlt]
      simp only [List.getElem?_cons, List.getElem?_eraseIdx]
      split_ifs <;> grind

variable {Ω V : Type} [KeyOps Ω]

/-- The keys with nothing stored under them. -/
def nodes (m : List (Object Ω × V)) : List (Object Ω × Unit) := m.map fun e => (e.1, ())

section Nodes

variable {m : List (Object Ω × V)} {k : Object Ω}

theorem find_nodes : find dictKeyEq (nodes m) k = (find dictKeyEq m k).map fun e => (e.1, ()) := by
  unfold find nodes
  rw [List.find?_map]
  rfl

theorem remove_nodes : remove dictKeyEq (nodes m) k = nodes (remove dictKeyEq m k) := by
  unfold remove nodes
  rw [List.filter_map]
  rfl

theorem store_nodes (v : V) : store dictKeyEq (nodes m) k () = nodes (store dictKeyEq m k v) := by
  have hfind := find_nodes (m := m) (k := k)
  cases hf : find dictKeyEq m k with
  | none =>
    rw [hf] at hfind
    rw [store_of_none hf, store_of_none hfind]
    unfold nodes
    rw [List.map_append]
    rfl
  | some e =>
    rw [hf] at hfind
    rw [store_of_some hf, store_of_some hfind]
    unfold nodes
    rw [List.map_map, List.map_map]
    apply List.map_congr_left
    intro a _
    dsimp only [Function.comp]
    split_ifs <;> rfl

theorem moveToEnd_nodes (last : Bool) : moveToEnd dictKeyEq (nodes m) k last = nodes (moveToEnd dictKeyEq m k last) := by
  unfold moveToEnd
  rw [find_nodes, remove_nodes]
  cases find dictKeyEq m k with
  | none => rfl
  | some e =>
    cases last with
    | true =>
      unfold nodes
      dsimp only [Option.map_some]
      rw [if_pos rfl, if_pos rfl, List.map_append]
      rfl
    | false => rfl

end Nodes

/-- The payload holds the entries of `m` in some order, and the order dict holds its keys in theirs. -/
structure InStep (od : OrderedDict Ω V) (m : List (Object Ω × V)) : Prop where
  slots : SlotsOk od.main
  keys : KeysOk od.main.entries
  payload : (pairs od.main).Perm m
  order : Holds od.orderOf (nodes m)
  unordered : od.order = none → m = []

variable {od : OrderedDict Ω V} {m : List (Object Ω × V)} {key : Object Ω} {value : V} {last : Bool}

theorem InStep.length_main (h : InStep od m) : od.main.entries.length = m.length := by
  rw [← length_pairs, h.payload.length_eq]

theorem InStep.length_order (h : InStep od m) : od.orderOf.entries.length = m.length := by
  rw [← length_pairs, h.order.pairs_eq]
  exact List.length_map _

theorem instep_of {main : Table Ω V} {order : Table Ω Unit} {m₀ m₁ : List (Object Ω × V)} (hmain : Holds main m₀)
    (hperm : m₀.Perm m₁) (horder : Holds order (nodes m₁)) : InStep ⟨main, some order⟩ m₁ :=
  ⟨hmain.slots, hmain.keys, hmain.pairs_eq ▸ hperm, horder, nofun⟩

/-- The order is there, if only just created. -/
theorem InStep.touch (h : InStep od m) : InStep ⟨od.main, some od.orderOf⟩ m :=
  ⟨h.slots, h.keys, h.payload, h.order, nofun⟩

omit [KeyOps Ω] in
theorem orderOf_some {order : Table Ω Unit} (ho : od.order = some order) : od.orderOf = order := by
  unfold OrderedDict.orderOf
  rw [ho]
  rfl

theorem InStep.find_unordered (h : InStep od m) (ho : od.order = none) : find dictKeyEq m key = none := by
  rw [h.unordered ho]
  rfl

theorem length_store (k : Object Ω) (v : V) : (store dictKeyEq m k v).length ≤ m.length + 1 := by
  unfold store
  split_ifs
  · rw [List.length_map]
    omega
  · rw [List.length_append]
    exact le_rfl

/-- The order has the key where the model has it. -/
theorem InStep.place_order (h : InStep od m) (key : Object Ω) :
    place od.orderOf key = m.findIdx? fun e => dictKeyEq key e.1 := by
  rw [← findIdx?_pairs, h.order.pairs_eq]
  unfold nodes
  rw [List.findIdx?_map]
  rfl

theorem InStep.clear (h : InStep od m) : ∃ od', od.clear = .ok (od', .ok .noneObject) ∧ InStep od' [] := by
  obtain ⟨main, hmain, hholds⟩ := dictClear_ok h.slots
  unfold OrderedDict.clear
  rw [hmain, ok_bind]
  cases ho : od.order with
  | none =>
    refine ⟨_, rfl, hholds.slots, hholds.keys, by rw [hholds.pairs_eq], ?_, fun _ => rfl⟩
    exact ⟨SlotsOk.new, keysOk_nil, rfl⟩
  | some o =>
    have hslots := h.order.slots
    rw [orderOf_some ho] at hslots
    obtain ⟨order, horder, hnodes⟩ := dictClear_ok hslots
    dsimp only [Option.elim_some]
    rw [horder]
    exact ⟨_, rfl, instep_of hholds (List.Perm.refl _) hnodes⟩

variable [LawfulKeys Ω]

theorem InStep.distinct (h : InStep od m) : Distinct dictKeyEq m :=
  (pairs_distinct h.keys).perm LawfulKeys.equiv h.payload

theorem InStep.find_main (h : InStep od m) (key : Object Ω) :
    find dictKeyEq (pairs od.main) key = find dictKeyEq m key :=
  (pairs_distinct h.keys).find_perm LawfulKeys.equiv h.payload key

theorem InStep.moved (h : InStep od m) {order : Table Ω Unit} {i : ℕ} {e : Object Ω × V} {b : Bucket Ω Unit}
    (hplace : place od.orderOf key = some i) (he : m[i]? = some e) (hb : od.orderOf.entries[i]? = some b)
    (hslots : SlotsOk order)
    (hentries : order.entries = if last then od.orderOf.entries.eraseIdx i ++ [b] else b :: od.orderOf.entries.eraseIdx i) :
    InStep ⟨od.main, some order⟩ (moveToEnd dictKeyEq m key last) := by
  have hpayload := h.payload.trans (h.distinct.moveToEnd_perm LawfulKeys.equiv key last).symm
  rw [h.place_order] at hplace
  have hpairs : pairs od.orderOf = nodes m := h.order.pairs_eq
  have hnode : (b.key, b.value) = (e.1, ()) := by
    have hget : (pairs od.orderOf)[i]? = (nodes m)[i]? := by rw [hpairs]
    unfold pairs nodes at hget
    rw [List.getElem?_map, List.getElem?_map, hb, he] at hget
    exact Option.some_inj.mp hget
  refine ⟨h.slots, h.keys, hpayload, ⟨hslots, ?_, ?_⟩, nofun⟩
  · show KeysOk order.entries
    apply h.order.keys.perm
    have herase := List.getElem_cons_eraseIdx_perm (List.getElem?_eq_some_iff.mp hb).1
    rw [(List.getElem?_eq_some_iff.mp hb).2] at herase
    rw [hentries]
    split_ifs
    · exact List.perm_append_comm.trans herase
    · exact herase
  · show pairs order = _
    have herase : (od.orderOf.entries.eraseIdx i).map (fun b => (b.key, b.value)) = (nodes m).eraseIdx i := by
      rw [← hpairs]
      unfold pairs
      rw [List.eraseIdx_map]
    have hmodel : nodes (m.eraseIdx i) = (nodes m).eraseIdx i := by
      unfold nodes
      rw [List.eraseIdx_map]
    rw [h.distinct.moveToEnd_at LawfulKeys.equiv hplace he]
    unfold pairs
    rw [hentries]
    split_ifs
    · rw [List.map_append, herase, ← hmodel]
      unfold nodes
      rw [List.map_append, List.map_singleton, List.map_singleton, hnode]
    · rw [List.map_cons, herase, ← hmodel, hnode]
      rfl

variable [LeafOps Ω] [LawfulLeaf Ω]

section Operations

theorem InStep.setitem (h : InStep od m) (watched : Bool) (key : Object Ω) (value : V) :
    Ensures (od.setitem watched key value)
      (fun r => InStep r.1 (store dictKeyEq m key value) ∧ r.2 = .ok .noneObject) (2 ^ 31 ≤ m.length + 1) := by
  have hmain := dictInsert_ensures h.slots h.keys watched key value
  have horder := dictInsert_ensures h.order.slots h.order.keys watched key ()
  have hindex := indexOf_ok h.order.slots h.order.keys key
  have hnode := find_nodes (m := m) (k := key)
  rw [h.length_main] at hmain
  rw [h.length_order, h.order.pairs_eq, store_nodes value] at horder
  cases hrun : dictInsert watched od.main key value with
  | error e =>
    rw [hrun] at hmain
    unfold OrderedDict.setitem
    dsimp only
    rw [hrun]
    exact hmain
  | ok r =>
    obtain ⟨main, old⟩ := r
    rw [hrun] at hmain
    obtain ⟨hholds, hold⟩ := hmain
    dsimp only at hholds hold
    rw [h.find_main] at hold
    have hperm : (store dictKeyEq (pairs od.main) key value).Perm (store dictKeyEq m key value) :=
      store_perm h.payload key value
    cases hf : find dictKeyEq m key with
    | none =>
      rw [hf] at hold
      rw [OrderedDict.setitem_fresh hrun (.inl hold)]
      apply horder.bind
      rintro ⟨order, x⟩ ⟨hnodes, -⟩
      exact ⟨instep_of hholds hperm hnodes, rfl⟩
    | some e =>
      rw [hf] at hold hnode
      rw [← h.order.pairs_eq] at hnode
      obtain ⟨i, hi⟩ := place_of_find hnode
      rw [hi] at hindex
      rw [hold] at hrun
      apply ensures_of_eq (OrderedDict.setitem_present hrun hindex)
      refine ⟨instep_of hholds hperm ?_, rfl⟩
      rw [← store_nodes value, store_of_some (h.order.pairs_eq ▸ hnode)]
      have hunit : (nodes m).map (fun e => if dictKeyEq key e.1 = true then (e.1, ()) else e) = nodes m := by
        conv_rhs => rw [← List.map_id (nodes m)]
        apply List.map_congr_left
        intro a _
        split_ifs <;> rfl
      rw [hunit]
      exact h.order

/-- The key's node and its entry, once removed. -/
theorem InStep.removed (h : InStep od m) (key : Object Ω) :
    ∃ order main, dictRemove od.orderOf key = .ok (order, (find dictKeyEq m key).map fun e => (e.1, ())) ∧
      dictRemove od.main key = .ok (main, find dictKeyEq m key) ∧
      InStep ⟨main, some order⟩ (remove dictKeyEq m key) := by
  obtain ⟨order, horder, hnodes⟩ := dictRemove_ok h.order.slots h.order.keys key
  obtain ⟨main, hmain, hholds⟩ := dictRemove_ok h.slots h.keys key
  rw [h.order.pairs_eq, find_nodes] at horder
  rw [h.order.pairs_eq, remove_nodes] at hnodes
  rw [h.find_main] at hmain
  exact ⟨order, main, horder, hmain, instep_of hholds (remove_perm h.payload key) hnodes⟩

theorem InStep.delitem (h : InStep od m) (key : Object Ω) :
    ∃ od', od.delitem key =
        .ok (od', (find dictKeyEq m key).elim (.error (.keyError key)) fun _ => .ok .noneObject) ∧
      InStep od' (remove dictKeyEq m key) := by
  obtain ⟨order, main, horder, hmain, hstep⟩ := h.removed key
  unfold OrderedDict.delitem
  cases ho : od.order with
  | none =>
    have hnone : find dictKeyEq m key = none := h.find_unordered ho
    have hm := hmain
    rw [hnone] at hm
    dsimp only [Option.elim_none]
    rw [pure_bind, hmain, ok_bind, hnone]
    refine ⟨_, rfl, ?_⟩
    have hnil := h.unordered ho
    subst hnil
    refine ⟨hstep.slots, hstep.keys, hstep.payload, ?_, fun _ => rfl⟩
    have := h.order
    unfold OrderedDict.orderOf at this ⊢
    rw [ho] at this
    exact this
  | some o =>
    rw [orderOf_some ho] at horder
    dsimp only [Option.elim_some]
    rw [horder]
    dsimp only [Functor.map, Except.map]
    rw [ok_bind, hmain, ok_bind]
    exact ⟨_, rfl, hstep⟩

theorem InStep.pop (h : InStep od m) (key : Object Ω) (default : Option V) :
    ∃ od', od.pop key default = .ok (od', (find dictKeyEq m key).elim
        (default.elim (.error (.keyError key)) fun v => .ok (.value v)) fun e => .ok (.value e.2)) ∧
      InStep od' (remove dictKeyEq m key) := by
  obtain ⟨order, main, horder, hmain, hstep⟩ := h.removed key
  unfold OrderedDict.pop
  dsimp only
  cases ho : od.order with
  | none =>
    have hnone : find dictKeyEq m key = none := h.find_unordered ho
    rw [hnone]
    refine ⟨od, rfl, ?_⟩
    rw [remove_of_none hnone]
    exact h
  | some o =>
    rw [orderOf_some ho] at horder
    dsimp only
    rw [horder, ok_bind]
    cases hf : find dictKeyEq m key with
    | none =>
      have hnodes := hstep.order
      rw [remove_of_none hf] at hnodes ⊢
      exact ⟨_, rfl, h.slots, h.keys, h.payload, hnodes, nofun⟩
    | some e =>
      rw [hf] at hmain
      dsimp only [Option.map_some, Option.isNone_some]
      rw [if_neg Bool.false_ne_true, hmain]
      exact ⟨_, rfl, hstep⟩

/-- The first or the last entry. -/
def atEnd (m : List (Object Ω × V)) (last : Bool) : Option (Object Ω × V) := m[if last then m.length - 1 else 0]?

theorem InStep.popitem (h : InStep od m) (last : Bool) :
    ∃ od', od.popitem last =
        .ok (od', (atEnd m last).elim (.error .emptyError) fun e => .ok (.item e.1 e.2)) ∧
      InStep od' (m.eraseIdx (if last then m.length - 1 else 0)) := by
  have hend : OrderedDict.endOf od.orderOf last = if last then m.length - 1 else 0 := by
    unfold OrderedDict.endOf
    rw [h.length_order]
  unfold OrderedDict.popitem atEnd
  dsimp only
  rw [h.length_order, hend]
  generalize hi : (if last then m.length - 1 else 0) = i
  by_cases hempty : m.length = 0
  · rw [if_pos hempty]
    rw [List.length_eq_zero_iff] at hempty
    subst hempty
    exact ⟨_, rfl, h.touch⟩
  · have hlt : i < m.length := by
      subst hi
      split_ifs <;> omega
    have he : m[i]? = some m[i] := List.getElem?_eq_getElem hlt
    rw [if_neg hempty, he]
    obtain ⟨hfind, hremove⟩ := h.distinct.at_place LawfulKeys.equiv he
    have hlen : i < od.orderOf.entries.length := by
      rw [h.length_order]
      exact hlt
    have hb : od.orderOf.entries[i]? = some od.orderOf.entries[i] :=
      List.getElem?_eq_getElem hlen
    have hkey : od.orderOf.entries[i].key = m[i].1 := by
      have hpair : (pairs od.orderOf)[i]? = (nodes m)[i]? := by rw [h.order.pairs_eq]
      unfold pairs nodes at hpair
      rw [List.getElem?_map, List.getElem?_map, hb, he, Option.map_some, Option.map_some, Option.some_inj] at hpair
      exact congrArg Prod.fst hpair
    obtain ⟨order, hshift, hslots, hentries⟩ := h.order.slots.shiftRemoveIndex i
    rw [hb, Option.map_some, hkey] at hshift
    obtain ⟨_, main, _, hmain, hstep⟩ := h.removed m[i].1
    rw [hfind] at hmain
    unfold OrderedDict.popNode
    rw [hshift, ok_bind]
    dsimp only
    rw [hmain]
    refine ⟨_, rfl, hstep.slots, hstep.keys, hremove ▸ hstep.payload, ⟨hslots, ?_, ?_⟩, nofun⟩
    · show KeysOk order.entries
      rw [hentries]
      exact h.order.keys.sublist (List.eraseIdx_sublist _ _)
    · show pairs order = _
      unfold nodes
      rw [← List.eraseIdx_map]
      have hnodes := h.order.pairs_eq
      unfold nodes at hnodes
      rw [← hnodes]
      unfold pairs
      rw [hentries, List.eraseIdx_map]

theorem InStep.moveToEnd (h : InStep od m) (key : KeyRef Ω) (last : Bool) :
    ∃ od', od.moveToEnd key last = .ok (od', (find dictKeyEq m key.obj).elim (.error (.keyError key.obj))
        fun _ => .ok .noneObject) ∧
      InStep od' (AssocList.moveToEnd dictKeyEq m key.obj last) := by
  have hlen := h.length_order
  have hindex := indexOf_ok h.order.slots h.order.keys key.obj
  unfold OrderedDict.moveToEnd
  dsimp only
  cases hp : place od.orderOf key.obj with
  | none =>
    have hnone : find dictKeyEq m key.obj = none := by
      rw [h.place_order, List.findIdx?_eq_none_iff] at hp
      exact find_none_iff.mpr hp
    have hne : ¬ (od.orderOf.entries[OrderedDict.endOf od.orderOf last]?.any fun b => key.same b.key) = true := by
      rw [Option.any_eq_true]
      rintro ⟨b, hb, hs⟩
      unfold place at hp
      rw [List.findIdx?_eq_none_iff] at hp
      have hself := hp b (List.mem_of_getElem? hb)
      rw [key.same_eq _ hs, LawfulKeys.equiv.refl key.obj] at hself
      cases hself
    have hend : AssocList.moveToEnd dictKeyEq m key.obj last = m := by
      unfold AssocList.moveToEnd
      rw [hnone]
    rw [hnone, hend, hindex, hp, if_neg hne]
    refine ⟨_, ?_, h.touch⟩
    split_ifs <;> rfl
  | some i =>
    have hlt := place_lt hp
    have hlt' : i < m.length := by omega
    have hb := List.getElem?_eq_getElem hlt
    have he := List.getElem?_eq_getElem hlt'
    obtain ⟨e, hfind⟩ : ∃ e, find dictKeyEq m key.obj = some e := by
      rw [← Option.isSome_iff_exists, Option.isSome_iff_ne_none]
      intro hnone
      rw [h.place_order] at hp
      rw [find_none_iff] at hnone
      rw [List.findIdx?_eq_none_iff.mpr hnone] at hp
      cases hp
    have hto := moveEntry_end hb last
    have hstay : i = OrderedDict.endOf od.orderOf last →
        InStep ⟨od.main, some od.orderOf⟩ (AssocList.moveToEnd dictKeyEq m key.obj last) := by
      intro hi
      unfold OrderedDict.endOf at hi
      rw [if_pos hi] at hto
      exact h.moved hp he hb h.order.slots hto
    rw [hfind, if_neg (by omega)]
    split_ifs with hat
    · obtain ⟨b, hb', hs⟩ := (Option.any_eq_true _ _).mp hat
      refine ⟨_, rfl, hstay ?_⟩
      obtain ⟨_, hpi, -⟩ := List.findIdx?_eq_some_iff_getElem.mp hp
      rw [← key.same_eq _ hs] at hpi
      exact (h.order.keys.eq_of_eq hb' hb hpi).symm
    · rw [hindex, hp, ok_bind]
      dsimp only
      split_ifs with hne
      · have hlast : OrderedDict.endOf od.orderOf last < od.orderOf.entries.length := by
          unfold OrderedDict.endOf
          split_ifs <;> omega
        obtain ⟨order, hmove, hslots, hentries⟩ := h.order.slots.moveIndex hlt hlast
        rw [hmove]
        exact ⟨_, rfl, h.moved hp he hb hslots (hentries.trans hto)⟩
      · exact ⟨_, rfl, hstay (by tauto)⟩

theorem InStep.setdefault (h : InStep od m) (watched : Bool) (key : Object Ω) (default : V) :
    Ensures (od.setdefault watched key default) (fun r =>
      InStep r.1 ((find dictKeyEq m key).elim (store dictKeyEq m key default) fun _ => m) ∧
        r.2 = .ok (.value ((find dictKeyEq m key).elim default fun e => e.2))) (2 ^ 31 ≤ m.length + 1) := by
  have hlookup := dictLookup_ok h.slots h.keys key
  rw [h.find_main] at hlookup
  unfold OrderedDict.setdefault
  rw [hlookup, ok_bind]
  cases find dictKeyEq m key with
  | some e => exact ⟨h, rfl⟩
  | none =>
    apply (h.setitem watched key default).bind
    rintro ⟨od', r⟩ ⟨hstep, -⟩
    exact ⟨hstep, rfl⟩

theorem InStep.update (h : InStep od m) (watched : Bool) (l : List (Object Ω × V)) :
    Ensures (od.update watched l) (fun od' => InStep od' (l.foldl (fun m e => store dictKeyEq m e.1 e.2) m))
      (2 ^ 31 ≤ m.length + l.length) := by
  unfold OrderedDict.update
  induction l generalizing od m with
  | nil => exact h
  | cons e l ih =>
    rw [List.foldlM_cons]
    have hset := (h.setitem watched e.1 e.2).mono (fun r hr => hr.1) id
    have hlen := length_store (m := m) e.1 e.2
    rw [List.length_cons]
    apply Ensures.bind
    · apply Ensures.fst (P := fun od' => InStep od' (store dictKeyEq m e.1 e.2))
      exact hset.mono (fun _ => id) fun hr => by omega
    intro od' hod'
    exact (ih hod').mono (fun _ => id) fun hr => by omega

end Operations

end WeavePy.Odict
