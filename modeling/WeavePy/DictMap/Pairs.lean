import WeavePy.DictMap.Runs
import WeavePy.Lib.AssocList

/-!
A table as an association list.
-/

namespace WeavePy.DictMap

variable {Ω V : Type} {t : Table Ω V} {key : Object Ω} {i : ℕ} {value : V}

/-- The entries without their hashes. -/
def pairs (t : Table Ω V) : List (Object Ω × V) := t.entries.map fun b => (b.key, b.value)

theorem length_pairs : (pairs t).length = t.entries.length := List.length_map _

variable [KeyOps Ω]

/-- Where the key is, as a scan with the interpreter's equality finds it. -/
def place (t : Table Ω V) (key : Object Ω) : Option ℕ := t.entries.findIdx? fun b => dictKeyEq key b.key

theorem pairs_distinct (hk : KeysOk t.entries) : AssocList.Distinct dictKeyEq (pairs t) :=
  List.pairwise_map.mpr hk.distinct

theorem findIdx?_pairs : (pairs t).findIdx? (fun e => dictKeyEq key e.1) = place t key := by
  unfold pairs place
  rw [List.findIdx?_map]
  rfl

theorem find_of_place_none (h : place t key = none) : AssocList.find dictKeyEq (pairs t) key = none := by
  rw [AssocList.find_none_iff]
  rw [← findIdx?_pairs, List.findIdx?_eq_none_iff] at h
  exact h

theorem place_of_find {e : Object Ω × V} (h : AssocList.find dictKeyEq (pairs t) key = some e) :
    ∃ i, place t key = some i := by
  cases hi : place t key with
  | none =>
    rw [find_of_place_none hi] at h
    cases h
  | some i => exact ⟨i, rfl⟩

theorem place_lt (h : place t key = some i) : i < t.entries.length :=
  (List.findIdx?_eq_some_iff_getElem.mp h).1

theorem pairs_push (h : place t key = none) {t' : Table Ω V} {hash : Int64}
    (he : t'.entries = t.entries ++ [⟨hash, key, value⟩]) :
    pairs t' = AssocList.store dictKeyEq (pairs t) key value := by
  rw [AssocList.store_of_none (find_of_place_none h)]
  unfold pairs
  rw [he, List.map_append]
  rfl

/-- The table answers as an association list, and stays a table. -/
structure Holds (t : Table Ω V) (m : List (Object Ω × V)) : Prop where
  slots : SlotsOk t
  keys : KeysOk t.entries
  pairs_eq : pairs t = m

variable [LawfulKeys Ω]

theorem find_of_place {b : Bucket Ω V} (hk : KeysOk t.entries) (h : place t key = some i) (hb : t.entries[i]? = some b) :
    AssocList.find dictKeyEq (pairs t) key = some (b.key, b.value) := by
  rw [(pairs_distinct hk).find_iff LawfulKeys.equiv]
  obtain ⟨hi, hp, -⟩ := List.findIdx?_eq_some_iff_getElem.mp h
  obtain ⟨_, heq⟩ := List.getElem?_eq_some_iff.mp hb
  rw [heq] at hp
  exact ⟨List.mem_map.mpr ⟨b, List.mem_of_getElem? hb, rfl⟩, hp⟩

theorem pairs_eraseIdx (hk : KeysOk t.entries) (h : place t key = some i) {t' : Table Ω V}
    (he : t'.entries = t.entries.eraseIdx i) : pairs t' = AssocList.remove dictKeyEq (pairs t) key := by
  have hmap : pairs t' = (pairs t).eraseIdx i := by
    unfold pairs
    rw [he, List.eraseIdx_map]
  rw [hmap]
  rw [← findIdx?_pairs] at h
  exact ((pairs_distinct hk).single LawfulKeys.equiv key).eraseIdx h

theorem pairs_set {b : Bucket Ω V} (hk : KeysOk t.entries) (h : place t key = some i) (hb : t.entries[i]? = some b)
    {t' : Table Ω V} (he : t'.entries = t.entries.set i { b with value := value }) :
    pairs t' = AssocList.store dictKeyEq (pairs t) key value := by
  have hmap : pairs t' = (pairs t).modify i fun e => (e.1, value) := by
    unfold pairs
    rw [he, List.map_set]
    apply List.ext_getElem?
    intro m
    rw [List.getElem?_set, List.getElem?_modify, List.getElem?_map]
    split_ifs with hm hlt
    · subst hm
      rw [hb]
      rfl
    · subst hm
      rw [List.length_map] at hlt
      exact absurd (place_lt h) hlt
    · cases t.entries[m]? <;> rfl
  rw [hmap, AssocList.store_of_some (find_of_place hk h hb)]
  rw [← findIdx?_pairs] at h
  exact ((pairs_distinct hk).single LawfulKeys.equiv key).modify h

theorem replaceValue_holds (h : SlotsOk t) (hk : KeysOk t.entries) (hi : place t key = some i) (value : V) :
    ∃ t' b, t.replaceValue i value = .ok (t', b.value) ∧ t.entries[i]? = some b ∧
      Holds t' (AssocList.store dictKeyEq (pairs t) key value) := by
  have hb := List.getElem?_eq_getElem (place_lt hi)
  obtain ⟨t', hrun, hslots, hentries⟩ := h.replaceValue hb value
  refine ⟨t', _, hrun, hb, hslots, ?_, pairs_set hk hi hb hentries⟩
  apply hk.map_values
  rw [hentries, List.map_set]
  apply List.ext_getElem?
  intro m
  rw [List.getElem?_set, List.getElem?_map]
  split_ifs with hm hlt
  · subst hm
    rw [hb]
    rfl
  · subst hm
    rw [List.length_map] at hlt
    exact absurd (place_lt hi) hlt
  · rfl

theorem pushAt_holds (h : SlotsOk t) (hk : KeysOk t.entries) (hnone : place t key = none) {pos : ℕ}
    (hpos : t.slots ≠ [] → Vacant t.slots t.shift (mix (dictKeyHash key)) pos) (value : V) :
    Ensures (t.pushAt pos (dictKeyHash key) key value)
      (fun r => Holds r.1 (AssocList.store dictKeyEq (pairs t) key value)) (2 ^ 31 ≤ t.entries.length + 1) := by
  apply (h.pushAt hpos key value).mono _ id
  rintro r ⟨_, hentries, hslots⟩
  refine ⟨hslots, ?_, pairs_push hnone hentries⟩
  rw [hentries]
  exact hk.append (absent_of_findIdx? hnone) value

theorem insertFound_holds (h : SlotsOk t) (hk : KeysOk t.entries) {r : Except ℕ ℕ}
    (hr : Found t (dictKeyHash key) (dictKeyEq key) r) (value : V) :
    Ensures (t.insertFound r (dictKeyHash key) key value)
      (fun x => Holds x.1 (AssocList.store dictKeyEq (pairs t) key value) ∧
        x.2.2 = (AssocList.find dictKeyEq (pairs t) key).map Prod.snd) (2 ^ 31 ≤ t.entries.length + 1) := by
  cases r with
  | ok i =>
    have hplace : place t key = some i := Found.findIdx? (q := key) hk hr
    obtain ⟨t', b, hrun, hb, hholds⟩ := replaceValue_holds h hk hplace value
    apply ensures_of_eq (by rw [Table.insertFound, hrun, ok_bind]; rfl)
    exact ⟨hholds, by rw [find_of_place hk hplace hb]; rfl⟩
  | error pos =>
    have hplace : place t key = none := Found.findIdx? (q := key) hk hr
    apply (pushAt_holds h hk hplace hr.2 value).bind
    rintro ⟨t', i⟩ hholds
    exact ⟨hholds, by rw [find_of_place_none hplace]; rfl⟩

theorem insertFull_holds (h : SlotsOk t) (hk : KeysOk t.entries) (key : Object Ω) (value : V) :
    Ensures (t.insertFull key value)
      (fun x => Holds x.1 (AssocList.store dictKeyEq (pairs t) key value) ∧
        x.2.2 = (AssocList.find dictKeyEq (pairs t) key).map Prod.snd) (2 ^ 31 ≤ t.entries.length + 1) := by
  obtain ⟨r, hr, hf⟩ := h.findObjectHashing key
  rw [Table.insertFull, hr, ok_bind]
  rcases r with _ | ⟨hash, x⟩
  · obtain ⟨r, hr, hf⟩ := h.findHashed (dictKeyHash key) key
    dsimp only
    rw [Table.insertHashed, hr, ok_bind]
    exact insertFound_holds h hk hf value
  · obtain ⟨rfl, hx⟩ := hf hash x rfl
    exact insertFound_holds h hk hx value

theorem remove_holds (h : SlotsOk t) (hk : KeysOk t.entries) (hi : place t key = some i) :
    ∃ t' b, t.shiftRemoveIndex i = .ok (t', some (b.key, b.value)) ∧ t.entries[i]? = some b ∧
      Holds t' (AssocList.remove dictKeyEq (pairs t) key) := by
  have hb := List.getElem?_eq_getElem (place_lt hi)
  obtain ⟨t', hrun, hslots, hentries⟩ := h.shiftRemoveIndex i
  rw [hb] at hrun
  exact ⟨t', _, hrun, hb, hslots, hentries ▸ hk.sublist (List.eraseIdx_sublist _ _), pairs_eraseIdx hk hi hentries⟩

theorem getIndexOf_eq_place (h : SlotsOk t) (hk : KeysOk t.entries) (key : Object Ω) :
    t.getIndexOf key = .ok (place t key) := h.getIndexOf hk key

end WeavePy.DictMap
