import Mathlib.Data.List.Nodup
import Mathlib.Tactic.Common

/-!
Maps that list their keys in the order they were first stored.
-/

namespace WeavePy

abbrev OrderedMap (κ ν : Type) := List (κ × ν)

namespace OrderedMap

variable {κ ν : Type} [DecidableEq κ]

def keys (m : OrderedMap κ ν) : List κ := m.map Prod.fst

def position (m : OrderedMap κ ν) (k : κ) : Option ℕ := m.keys.findIdx? fun k' => k' = k

def lookup (m : OrderedMap κ ν) (k : κ) : Option ν := (m.find? fun e => e.1 = k).map Prod.snd

/-- A present key keeps its place. -/
def store (m : OrderedMap κ ν) (k : κ) (v : ν) : OrderedMap κ ν :=
  if k ∈ m.keys then m.map fun e => if e.1 = k then (k, v) else e else m ++ [(k, v)]

def remove (m : OrderedMap κ ν) (k : κ) : OrderedMap κ ν := m.filter fun e => e.1 ≠ k

variable {m : OrderedMap κ ν} {k : κ} {v : ν} {i : ℕ}

omit [DecidableEq κ] in
theorem getElem?_keys : m.keys[i]? = m[i]?.map Prod.fst := List.getElem?_map

theorem position_eq_none : m.position k = none ↔ k ∉ m.keys := by
  unfold position
  rw [List.findIdx?_eq_none_iff]
  simp only [decide_eq_false_iff_not]
  exact ⟨fun h hk => h k hk rfl, fun h k' hk' heq => h (heq ▸ hk')⟩

theorem position_eq_some (hn : m.keys.Nodup) : m.position k = some i ↔ m.keys[i]? = some k := by
  unfold position
  rw [List.findIdx?_eq_some_iff_getElem]
  constructor
  · rintro ⟨hi, hk, _⟩
    rw [List.getElem?_eq_getElem hi, of_decide_eq_true hk]
  · intro h
    obtain ⟨hi, hk⟩ := List.getElem?_eq_some_iff.mp h
    refine ⟨hi, decide_eq_true hk, fun j hj => ?_⟩
    simp only [decide_eq_true_eq]
    intro heq
    have := (List.Nodup.getElem_inj_iff hn).mp (heq.trans hk.symm)
    omega

theorem lookup_of_not_mem (h : k ∉ m.keys) : m.lookup k = none := by
  unfold lookup
  rw [List.find?_eq_none.mpr]
  · rfl
  · intro e he heq
    exact h (List.mem_map.mpr ⟨e, he, of_decide_eq_true heq⟩)

theorem lookup_of_getElem? (hn : m.keys.Nodup) (h : m[i]? = some (k, v)) : m.lookup k = some v := by
  induction m generalizing i with
  | nil => simp at h
  | cons e m ih =>
    unfold keys at hn
    rw [List.map_cons, List.nodup_cons] at hn
    unfold lookup
    rw [List.find?_cons]
    cases i with
    | zero =>
      rw [List.getElem?_cons_zero, Option.some_inj] at h
      subst h
      simp
    | succ i =>
      rw [List.getElem?_cons_succ] at h
      have hne : e.1 ≠ k := by
        rintro rfl
        exact hn.1 (List.mem_map.mpr ⟨_, List.mem_of_getElem? h, rfl⟩)
      rw [decide_eq_false hne]
      exact ih hn.2 h

theorem store_of_not_mem (h : k ∉ m.keys) : m.store k v = m ++ [(k, v)] := if_neg h

theorem store_of_getElem? (hn : m.keys.Nodup) (h : m.keys[i]? = some k) :
    m.store k v = m.set i (k, v) := by
  obtain ⟨hi, hk⟩ := List.getElem?_eq_some_iff.mp h
  unfold store
  rw [if_pos (List.mem_of_getElem? h)]
  apply List.ext_getElem?
  intro j
  rw [List.getElem?_map, List.getElem?_set]
  have hlen : m.keys.length = m.length := List.length_map _
  split_ifs with hij hlt
  · subst hij
    rw [List.getElem?_eq_getElem hlt, Option.map_some, if_pos]
    rw [← hk]
    exact (List.getElem_map _).symm
  · omega
  · cases hj : m[j]? with
    | none => rfl
    | some e =>
      rw [Option.map_some, if_neg]
      rintro rfl
      have hj' : m.keys[j]? = some e.1 := by rw [getElem?_keys, hj, Option.map_some]
      obtain ⟨hlt, hje⟩ := List.getElem?_eq_some_iff.mp hj'
      exact hij ((List.Nodup.getElem_inj_iff hn).mp (hk.trans hje.symm))

theorem remove_of_not_mem (h : k ∉ m.keys) : m.remove k = m := by
  unfold remove
  rw [List.filter_eq_self]
  intro e he
  apply decide_eq_true
  rintro rfl
  exact h (List.mem_map.mpr ⟨e, he, rfl⟩)

theorem remove_of_getElem? (hn : m.keys.Nodup) (h : m.keys[i]? = some k) : m.remove k = m.eraseIdx i := by
  induction m generalizing i with
  | nil => simp [keys] at h
  | cons e m ih =>
    unfold keys at hn h
    rw [List.map_cons] at hn h
    rw [List.nodup_cons] at hn
    cases i with
    | zero =>
      rw [List.getElem?_cons_zero, Option.some_inj] at h
      subst h
      have hrest : OrderedMap.remove m e.1 = m := remove_of_not_mem hn.1
      rw [List.eraseIdx_cons_zero, ← hrest]
      unfold remove
      rw [List.filter_cons_of_neg (by simp), List.filter_filter]
      simp
    | succ i =>
      rw [List.getElem?_cons_succ] at h
      have hne : e.1 ≠ k := by
        rintro rfl
        exact hn.1 (List.mem_of_getElem? h)
      rw [List.eraseIdx_cons_succ, ← ih hn.2 h]
      unfold remove
      rw [List.filter_cons_of_pos (by simpa using hne)]

theorem lookup_cons (e : κ × ν) (m : OrderedMap κ ν) (k : κ) :
    lookup (e :: m) k = if e.1 = k then some e.2 else m.lookup k := by
  unfold lookup
  rw [List.find?_cons]
  split_ifs with h <;> simp [h]

theorem lookup_remove (m : OrderedMap κ ν) (k k' : κ) : (m.remove k).lookup k' = if k' = k then none else m.lookup k' := by
  unfold remove
  induction m with
  | nil =>
    split_ifs <;> rfl
  | cons e m ih =>
    rw [List.filter_cons, lookup_cons]
    by_cases he : e.1 = k
    · rw [if_neg (by simp [he]), ih]
      split_ifs with hk hk' <;> first | rfl | (subst he; exact absurd hk'.symm hk)
    · rw [if_pos (by simp [he]), lookup_cons, ih]
      split_ifs with hk hk' <;> first | rfl | exact absurd (hk.trans hk') he

theorem lookup_store (m : OrderedMap κ ν) (k k' : κ) (v : ν) :
    (m.store k v).lookup k' = if k' = k then some v else m.lookup k' := by
  unfold store
  split_ifs with hmem hk hk
  · subst hk
    induction m with
    | nil => cases hmem
    | cons e m ih =>
      rw [List.map_cons, lookup_cons]
      split_ifs with he he'
      · rfl
      · exact absurd rfl he'
      · exact ih ((List.mem_cons.mp hmem).resolve_left (Ne.symm he))
  · clear hmem
    induction m with
    | nil => rfl
    | cons e m ih =>
      rw [List.map_cons, lookup_cons, lookup_cons, ih]
      by_cases he : e.1 = k
      · subst he
        rw [if_pos rfl, if_neg (Ne.symm hk), if_neg (Ne.symm hk)]
      · rw [if_neg he]
  · subst hk
    have hnone := lookup_of_not_mem hmem
    unfold lookup at *
    rw [List.find?_append, Option.map_eq_none_iff.mp hnone]
    simp
  · unfold lookup
    rw [List.find?_append]
    cases m.find? fun e => e.1 = k' with
    | some e => rfl
    | none => simp [Ne.symm hk]

theorem position_cons (e : κ × ν) (m : OrderedMap κ ν) (k : κ) :
    position (e :: m) k = if e.1 = k then some 0 else (m.position k).map (· + 1) := by
  unfold position keys
  rw [List.map_cons, List.findIdx?_cons]
  by_cases h : e.1 = k
  · rw [if_pos h, if_pos (decide_eq_true h)]
  · rw [if_neg h, decide_eq_false h]
    rfl

theorem lookup_eq_position (m : OrderedMap κ ν) (k : κ) :
    m.lookup k = (m.position k).bind fun i => m[i]?.map Prod.snd := by
  induction m with
  | nil => rfl
  | cons e m ih =>
    rw [lookup_cons, position_cons]
    split_ifs with h
    · rfl
    · rw [ih]
      cases position m k <;> rfl

/-- Entries whose values fail `p` left out. -/
theorem lookup_filter {p : ν → Bool} (hn : m.keys.Nodup) :
    lookup (m.filter fun e => p e.2) k = (m.lookup k).filter p := by
  induction m with
  | nil => rfl
  | cons e m ih =>
    obtain ⟨hnot, hn⟩ := List.nodup_cons.1 hn
    rw [lookup_cons]
    by_cases hk : e.1 = k
    · rw [if_pos hk]
      cases hp : p e.2 with
      | true =>
        rw [List.filter_cons_of_pos (by exact hp), lookup_cons, if_pos hk, Option.filter_some, if_pos hp]
      | false =>
        have hnone : lookup m k = none := lookup_of_not_mem (hk ▸ hnot)
        rw [List.filter_cons_of_neg (by simp [hp]), ih hn, hnone, Option.filter_some, hp]
        rfl
    · rw [if_neg hk, ← ih hn]
      cases hp : p e.2 with
      | true => rw [List.filter_cons_of_pos (by exact hp), lookup_cons, if_neg hk]
      | false => rw [List.filter_cons_of_neg (by simp [hp])]

omit [DecidableEq κ] in
theorem nodup_filter {p : κ × ν → Bool} (hn : m.keys.Nodup) : (keys (m.filter p)).Nodup :=
  List.Nodup.sublist (List.filter_sublist.map Prod.fst) hn

theorem nodup_remove (hn : m.keys.Nodup) : (m.remove k).keys.Nodup := nodup_filter hn

theorem keys_store : (m.store k v).keys = if k ∈ m.keys then m.keys else m.keys ++ [k] := by
  unfold store keys
  split_ifs with h
  · rw [List.map_map]
    apply List.map_congr_left
    intro e he
    rw [Function.comp_apply]
    split_ifs with hk
    · exact hk.symm
    · rfl
  · rw [List.map_append]
    rfl

theorem nodup_store (hn : m.keys.Nodup) : (m.store k v).keys.Nodup := by
  rw [keys_store]
  split_ifs with h
  · exact hn
  · rw [List.nodup_append]
    refine ⟨hn, List.nodup_singleton k, fun a ha b hb => ?_⟩
    rw [List.mem_singleton.1 hb]
    exact fun heq => h (heq ▸ ha)

theorem mem_store {e : κ × ν} (h : e ∈ m.store k v) : e = (k, v) ∨ e ∈ m := by
  unfold store at h
  split_ifs at h
  · obtain ⟨e', he', rfl⟩ := List.mem_map.1 h
    split_ifs
    · exact Or.inl rfl
    · exact Or.inr he'
  · rcases List.mem_append.1 h with h | h
    · exact Or.inr h
    · exact Or.inl (List.mem_singleton.1 h)

theorem mem_of_lookup (h : m.lookup k = some v) : (k, v) ∈ m := by
  unfold lookup at h
  obtain ⟨e, he, rfl⟩ := Option.map_eq_some_iff.1 h
  have hk : decide (e.1 = k) = true := List.find?_some (p := fun e : κ × ν => decide (e.1 = k)) he
  obtain rfl := of_decide_eq_true hk
  exact List.mem_of_find?_eq_some he

theorem lookup_isSome : (m.lookup k).isSome = true ↔ k ∈ m.keys := by
  constructor
  · intro h
    by_contra hne
    rw [lookup_of_not_mem hne] at h
    cases h
  · intro h
    cases hp : m.position k with
    | none => exact absurd h (position_eq_none.1 hp)
    | some i =>
      have hlt : i < m.length := by
        unfold position keys at hp
        rw [List.findIdx?_eq_some_iff_getElem] at hp
        obtain ⟨hi, -⟩ := hp
        rwa [List.length_map] at hi
      rw [lookup_eq_position, hp, Option.bind_some, List.getElem?_eq_getElem hlt]
      rfl

end OrderedMap

end WeavePy
