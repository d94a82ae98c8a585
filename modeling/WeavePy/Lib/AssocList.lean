import Mathlib.Data.List.Perm.Basic
import Mathlib.Data.List.Perm.Subperm
import Mathlib.Tactic.Common

/-!
Insertion-ordered association lists whose keys are compared by an equivalence.
-/

namespace WeavePy.AssocList

section Single

variable {α : Type} {p : α → Bool} {f : α → α} {l : List α} {i : ℕ}

/-- At most one member satisfies `p`. -/
def Single (p : α → Bool) (l : List α) : Prop := l.Pairwise fun a b => ¬ (p a = true ∧ p b = true)

theorem Single.none_of_head {a : α} (h : Single p (a :: l)) (ha : p a = true) : ∀ b ∈ l, p b = false := by
  intro b hb
  rw [← Bool.not_eq_true]
  exact fun hpb => (List.pairwise_cons.mp h).1 b hb ⟨ha, hpb⟩

theorem filter_not_of_none (h : ∀ a ∈ l, p a = false) : l.filter (fun a => !p a) = l :=
  List.filter_eq_self.mpr fun a ha => by rw [h a ha, Bool.not_false]

theorem map_of_none (h : ∀ a ∈ l, p a = false) : l.map (fun a => if p a then f a else a) = l := by
  conv_rhs => rw [← List.map_id l]
  exact List.map_congr_left fun a ha => if_neg (by rw [h a ha]; exact Bool.false_ne_true)

theorem Single.eraseIdx (h : Single p l) (hi : l.findIdx? p = some i) : l.eraseIdx i = l.filter fun a => !p a := by
  induction l generalizing i with
  | nil => simp at hi
  | cons a l ih =>
    rw [List.findIdx?_cons] at hi
    cases ha : p a with
    | true =>
      rw [ha, if_pos rfl, Option.some_inj] at hi
      subst hi
      rw [List.eraseIdx_cons_zero, List.filter_cons_of_neg (by rw [ha]; decide), filter_not_of_none (h.none_of_head ha)]
    | false =>
      rw [ha, if_neg Bool.false_ne_true, Option.map_eq_some_iff] at hi
      obtain ⟨k, hk, rfl⟩ := hi
      rw [List.eraseIdx_cons_succ, List.filter_cons_of_pos (by rw [ha]; rfl), ih (List.pairwise_cons.mp h).2 hk]

theorem Single.filter {a : α} (h : Single p l) (ha : a ∈ l) (hp : p a = true) : l.filter p = [a] := by
  induction l with
  | nil => cases ha
  | cons b l ih =>
    cases hb : p b with
    | true =>
      have hrest := h.none_of_head hb
      have hnil : l.filter p = [] := List.filter_eq_nil_iff.mpr fun c hc => by rw [hrest c hc]; exact Bool.false_ne_true
      rcases List.mem_cons.mp ha with rfl | ha
      · rw [List.filter_cons_of_pos hb, hnil]
      · rw [hrest a ha] at hp
        cases hp
    | false =>
      rw [List.filter_cons_of_neg (by rw [hb]; exact Bool.false_ne_true)]
      rcases List.mem_cons.mp ha with rfl | ha
      · rw [hb] at hp
        cases hp
      · exact ih (List.pairwise_cons.mp h).2 ha

theorem Single.modify (h : Single p l) (hi : l.findIdx? p = some i) :
    l.modify i f = l.map fun a => if p a then f a else a := by
  induction l generalizing i with
  | nil => simp at hi
  | cons a l ih =>
    rw [List.findIdx?_cons] at hi
    cases ha : p a with
    | true =>
      rw [ha, if_pos rfl, Option.some_inj] at hi
      subst hi
      rw [List.modify_zero_cons, List.map_cons, ha, if_pos rfl, map_of_none (h.none_of_head ha)]
    | false =>
      rw [ha, if_neg Bool.false_ne_true, Option.map_eq_some_iff] at hi
      obtain ⟨k, hk, rfl⟩ := hi
      rw [List.modify_succ_cons, List.map_cons, ha, if_neg Bool.false_ne_true, ih (List.pairwise_cons.mp h).2 hk]

end Single

variable {κ ν : Type} (same : κ → κ → Bool)

def find (m : List (κ × ν)) (k : κ) : Option (κ × ν) := m.find? fun e => same k e.1

/-- A present key keeps its place. -/
def store (m : List (κ × ν)) (k : κ) (v : ν) : List (κ × ν) :=
  if m.any fun e => same k e.1 then m.map fun e => if same k e.1 then (e.1, v) else e else m ++ [(k, v)]

def remove (m : List (κ × ν)) (k : κ) : List (κ × ν) := m.filter fun e => !same k e.1

/-- The entry of `k` behind or before all others. -/
def moveToEnd (m : List (κ × ν)) (k : κ) (last : Bool) : List (κ × ν) :=
  match find same m k with
  | none => m
  | some e => if last then remove same m k ++ [e] else e :: remove same m k

def Distinct (m : List (κ × ν)) : Prop := m.Pairwise fun a b => same a.1 b.1 = false

section Laws

variable {same} {m m' : List (κ × ν)} {k : κ} {v : ν} {e : κ × ν}

theorem find_none_iff : find same m k = none ↔ ∀ e ∈ m, same k e.1 = false := by
  unfold find
  rw [List.find?_eq_none]
  simp only [Bool.not_eq_true]

theorem store_of_none (h : find same m k = none) : store same m k v = m ++ [(k, v)] := by
  unfold store
  rw [if_neg]
  rw [List.any_eq_true]
  rintro ⟨e, he, hk⟩
  rw [find_none_iff.mp h e he] at hk
  cases hk

theorem find_some (h : find same m k = some e) : e ∈ m ∧ same k e.1 = true := by
  have hk := List.find?_some h
  exact ⟨List.mem_of_find?_eq_some h, hk⟩

theorem store_of_some (h : find same m k = some e) :
    store same m k v = m.map fun e => if same k e.1 then (e.1, v) else e := by
  obtain ⟨hmem, hk⟩ := find_some h
  unfold store
  rw [if_pos]
  exact List.any_eq_true.mpr ⟨e, hmem, hk⟩

theorem remove_of_none (h : find same m k = none) : remove same m k = m := filter_not_of_none (find_none_iff.mp h)

theorem keys_store_of_some (h : find same m k = some e) : (store same m k v).map Prod.fst = m.map Prod.fst := by
  rw [store_of_some h, List.map_map]
  apply List.map_congr_left
  intro a _
  dsimp only [Function.comp]
  split_ifs <;> rfl

theorem Distinct.remove (h : Distinct same m) (k : κ) : Distinct same (remove same m k) :=
  h.sublist List.filter_sublist

theorem remove_perm (h : m.Perm m') (k : κ) : (remove same m k).Perm (remove same m' k) := h.filter _

theorem store_perm (h : m.Perm m') (k : κ) (v : ν) : (store same m k v).Perm (store same m' k v) := by
  have hany : (m.any fun e => same k e.1) = m'.any fun e => same k e.1 := by
    rw [Bool.eq_iff_iff, List.any_eq_true, List.any_eq_true]
    simp only [h.mem_iff]
  unfold store
  rw [hany]
  split_ifs
  · exact h.map _
  · exact h.append_right _

variable (heq : Equivalence fun a b => same a b = true)

include heq

theorem same_comm (a b : κ) : same a b = same b a := Bool.eq_iff_iff.mpr ⟨heq.symm, heq.symm⟩

theorem Distinct.single (h : Distinct same m) (k : κ) : Single (fun e => same k e.1) m := by
  apply List.Pairwise.imp _ h
  rintro a b hab ⟨ha, hb⟩
  rw [heq.trans (heq.symm ha) hb] at hab
  cases hab

theorem Distinct.perm (h : Distinct same m) (hp : m.Perm m') : Distinct same m' := by
  apply (hp.pairwise_iff _).mp h
  intro a b hab
  rw [same_comm heq, hab]

theorem Distinct.find_iff (h : Distinct same m) : find same m k = some e ↔ e ∈ m ∧ same k e.1 = true := by
  refine ⟨find_some, fun ⟨hmem, hk⟩ => ?_⟩
  cases hf : find same m k with
  | none =>
    rw [find_none_iff.mp hf e hmem] at hk
    cases hk
  | some e' =>
    obtain ⟨hmem', hk'⟩ := find_some hf
    have hsingle := (h.single heq k).filter hmem' hk'
    rw [(h.single heq k).filter hmem hk] at hsingle
    rw [List.head_eq_of_cons_eq hsingle]

theorem Distinct.find_perm (h : Distinct same m) (hp : m.Perm m') (k : κ) : find same m k = find same m' k := by
  apply Option.ext
  intro e
  rw [h.find_iff heq, (h.perm heq hp).find_iff heq, hp.mem_iff]

theorem Distinct.store (h : Distinct same m) (k : κ) (v : ν) : Distinct same (store same m k v) := by
  cases hf : find same m k with
  | none =>
    rw [store_of_none hf]
    refine List.pairwise_append.mpr ⟨h, List.pairwise_singleton _ _, fun a ha b hb => ?_⟩
    rw [List.mem_singleton] at hb
    subst hb
    rw [same_comm heq]
    exact find_none_iff.mp hf a ha
  | some e =>
    have hk : ((AssocList.store same m k v).map Prod.fst).Pairwise fun a b => same a b = false := by
      rw [keys_store_of_some hf]
      exact List.pairwise_map.mpr h
    exact List.pairwise_map.mp hk

theorem Distinct.findIdx?_self (h : Distinct same m) {i : ℕ} (hi : m[i]? = some e) :
    m.findIdx? (fun x => same e.1 x.1) = some i := by
  obtain ⟨hlt, rfl⟩ := List.getElem?_eq_some_iff.mp hi
  rw [List.findIdx?_eq_some_iff_getElem]
  refine ⟨hlt, heq.refl _, fun j hj hs => ?_⟩
  have hne := List.pairwise_iff_getElem.mp h j i (by omega) hlt hj
  rw [same_comm heq, hs] at hne
  cases hne

/-- The entry in a place is found, and removed, by its key. -/
theorem Distinct.at_place (h : Distinct same m) {i : ℕ} (hi : m[i]? = some e) :
    find same m e.1 = some e ∧ AssocList.remove same m e.1 = m.eraseIdx i := by
  refine ⟨?_, ((h.single heq e.1).eraseIdx (h.findIdx?_self heq hi)).symm⟩
  rw [h.find_iff heq]
  exact ⟨List.mem_of_getElem? hi, heq.refl _⟩

theorem Distinct.moveToEnd_at (h : Distinct same m) {i : ℕ} (hi : m.findIdx? (fun e => same k e.1) = some i)
    (he : m[i]? = some e) (last : Bool) :
    moveToEnd same m k last = if last then m.eraseIdx i ++ [e] else e :: m.eraseIdx i := by
  have hfind : find same m k = some e := by
    obtain ⟨_, hk, -⟩ := List.findIdx?_eq_some_iff_getElem.mp hi
    obtain ⟨_, rfl⟩ := List.getElem?_eq_some_iff.mp he
    exact (h.find_iff heq).mpr ⟨List.getElem_mem _, hk⟩
  have hremove : AssocList.remove same m k = m.eraseIdx i := ((h.single heq k).eraseIdx hi).symm
  unfold moveToEnd
  rw [hfind, hremove]

theorem Distinct.moveToEnd_perm (h : Distinct same m) (k : κ) (last : Bool) : (moveToEnd same m k last).Perm m := by
  unfold moveToEnd
  cases hf : find same m k with
  | none => exact List.Perm.refl _
  | some e =>
    obtain ⟨hmem, hk⟩ := find_some hf
    have hfilter : m.filter (fun e => same k e.1) = [e] := (h.single heq k).filter hmem hk
    have hsplit := List.filter_append_perm (fun e => same k e.1) m
    rw [hfilter] at hsplit
    dsimp only
    split_ifs
    · exact List.perm_append_comm.trans hsplit
    · exact hsplit

end Laws

end WeavePy.AssocList
