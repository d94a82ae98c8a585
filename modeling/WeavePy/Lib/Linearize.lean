import Mathlib.Algebra.Order.BigOperators.Group.List
import Mathlib.Algebra.Order.Group.Nat
import Mathlib.Algebra.Ring.Int.Defs
import Mathlib.Algebra.Ring.Nat
import Mathlib.Data.List.Basic
import Mathlib.Data.List.Nodup
import Mathlib.Data.Set.Finite.List
import Mathlib.Logic.Relation
import Mathlib.Order.WellFoundedSet
import Mathlib.Tactic.Common

/-!
Merging lists into one order that keeps the order of each, by taking again and again the first list head
that no list has further back.
-/

namespace WeavePy.Linearize

open Relation

variable {α : Type}

def heads (lists : List (List α)) : List α := lists.filterMap List.head?

/-- No list has `c` behind its head. -/
def Free (lists : List (List α)) (c : α) : Prop := ∀ l ∈ lists, c ∉ l.tail

/-- Some list has `a` before `b`. -/
def Precedes (lists : List (List α)) (a b : α) : Prop := ∃ l ∈ lists, [a, b].Sublist l

def Acyclic (lists : List (List α)) : Prop := ∀ a, ¬ TransGen (Precedes lists) a a

/-- The members of the lists, once each, in an order that keeps the order of each list. -/
structure Linearizes (lists : List (List α)) (m : List α) : Prop where
  nodup : m.Nodup
  mem : ∀ c, c ∈ m ↔ ∃ l ∈ lists, c ∈ l
  sublist : ∀ l ∈ lists, l.Sublist m

variable {lists : List (List α)} {l m p q : List α} {a b c : α}

section Heads

theorem mem_heads : c ∈ heads lists ↔ ∃ l ∈ lists, l.head? = some c := List.mem_filterMap

theorem heads_of_free (hc : ∃ l ∈ lists, c ∈ l) (h : Free lists c) : c ∈ heads lists := by
  obtain ⟨l, hl, hcl⟩ := hc
  apply mem_heads.mpr
  refine ⟨l, hl, ?_⟩
  cases l with
  | nil => simp at hcl
  | cons d l =>
    rcases List.mem_cons.mp hcl with rfl | hcl
    · rfl
    · exact absurd hcl (h _ hl)

theorem heads_filter : heads (lists.filter (!·.isEmpty)) = heads lists := by
  unfold heads
  rw [List.filterMap_filter]
  apply List.filterMap_congr
  intro l _
  cases l <;> simp

theorem free_filter : Free (lists.filter (!·.isEmpty)) c ↔ Free lists c := by
  constructor
  · intro h l hl hc
    cases l with
    | nil => exact List.not_mem_nil hc
    | cons d l => exact h _ (List.mem_filter.mpr ⟨hl, rfl⟩) hc
  · exact fun h l hl => h l (List.mem_of_mem_filter hl)

end Heads

variable [DecidableEq α]

instance (lists : List (List α)) (c : α) : Decidable (Free lists c) :=
  inferInstanceAs (Decidable (∀ l ∈ lists, c ∉ l.tail))

def next (lists : List (List α)) : Option α := (heads lists).find? fun c => decide (Free lists c)

/-- What is left of the lists once the members of `p` are gone. -/
def beyond (p : List α) (lists : List (List α)) : List (List α) := lists.map (·.filter (· ∉ p))

/-- The order in which the members of the lists are taken. -/
inductive Merges : List (List α) → List α → Prop where
  | done {lists : List (List α)} : (∀ l ∈ lists, l = []) → Merges lists []
  | take {lists : List (List α)} {c : α} {m : List α} :
    next lists = some c → Merges (beyond [c] lists) m → Merges lists (c :: m)

section Next

theorem next_free (h : next lists = some c) : c ∈ heads lists ∧ Free lists c := by
  unfold next at h
  have hfree := List.find?_some h
  exact ⟨List.mem_of_find?_eq_some h, of_decide_eq_true hfree⟩

theorem exists_next (hc : c ∈ heads lists) (h : Free lists c) : ∃ d, next lists = some d := by
  apply Option.isSome_iff_exists.mp
  exact List.find?_isSome.mpr ⟨c, hc, decide_eq_true h⟩

theorem next_filter : next (lists.filter (!·.isEmpty)) = next lists := by
  unfold next
  simp only [heads_filter, free_filter]

/-- A list with `c` at its head alone loses its head. -/
theorem filter_of_free (h : c ∉ l.tail) : l.filter (· ∉ [c]) = if l.head? = some c then l.tail else l := by
  have hkeep (l : List α) (hl : c ∉ l) : l.filter (· ∉ [c]) = l := by
    apply List.filter_eq_self.mpr
    intro d hd
    simp only [List.mem_singleton, decide_not, Bool.not_eq_true', decide_eq_false_iff_not]
    rintro rfl
    exact hl hd
  cases l with
  | nil => simp
  | cons d l =>
    rw [List.filter_cons, hkeep l h]
    by_cases hd : d = c
    · simp [hd]
    · simp [hd]

end Next

section Beyond

theorem beyond_nil : beyond [] lists = lists := by
  simp [beyond]

theorem beyond_cons : beyond p (beyond [c] lists) = beyond (c :: p) lists := by
  unfold beyond
  rw [List.map_map]
  apply List.map_congr_left
  intro l _
  rw [Function.comp_apply, List.filter_filter]
  apply List.filter_congr
  intro d _
  simp [Bool.and_comm]

theorem mem_beyond : (∃ l ∈ beyond p lists, c ∈ l) ↔ c ∉ p ∧ ∃ l ∈ lists, c ∈ l := by
  unfold beyond
  constructor
  · rintro ⟨l, hl, hc⟩
    obtain ⟨o, ho, rfl⟩ := List.mem_map.mp hl
    obtain ⟨hco, hcp⟩ := List.mem_filter.mp hc
    exact ⟨of_decide_eq_true hcp, o, ho, hco⟩
  · rintro ⟨hcp, o, ho, hco⟩
    exact ⟨_, List.mem_map_of_mem ho, List.mem_filter.mpr ⟨hco, decide_eq_true hcp⟩⟩

theorem Precedes.of_beyond (h : Precedes (beyond p lists) a b) : Precedes lists a b := by
  obtain ⟨l, hl, hab⟩ := h
  obtain ⟨o, ho, rfl⟩ := List.mem_map.mp hl
  exact ⟨o, ho, hab.trans List.filter_sublist⟩

theorem Acyclic.beyond (h : Acyclic lists) (p : List α) : Acyclic (beyond p lists) := by
  intro a ha
  apply h a
  exact TransGen.mono (fun _ _ hab => Precedes.of_beyond hab) _ _ ha

theorem length_beyond_lt (h : c ∈ heads lists) :
    ((beyond [c] lists).map List.length).sum < (lists.map List.length).sum := by
  obtain ⟨l, hl, hc⟩ := mem_heads.mp h
  unfold Linearize.beyond
  rw [List.map_map]
  apply List.sum_lt_sum
  · exact fun l _ => List.length_filter_le _ _
  · refine ⟨l, hl, ?_⟩
    rw [Function.comp_apply, List.length_filter_lt_length_iff_exists]
    exact ⟨c, List.mem_of_mem_head? hc, by simp⟩

end Beyond

section Order

theorem Merges.linearizes (h : Merges lists m) : Linearizes lists m := by
  induction h with
  | @done lists h =>
    constructor
    · exact List.nodup_nil
    · intro c
      constructor
      · exact fun hc => absurd hc List.not_mem_nil
      · rintro ⟨l, hl, hc⟩
        rwa [h l hl] at hc
    · intro l hl
      rw [h l hl]
  | @take lists c m hnext _ ih =>
    obtain ⟨hhead, hfree⟩ := next_free hnext
    have hmem (d : α) : d ∈ m ↔ d ≠ c ∧ ∃ l ∈ lists, d ∈ l := by
      rw [ih.mem, mem_beyond, List.mem_singleton]
    constructor
    · exact List.nodup_cons.mpr ⟨fun hc => ((hmem c).mp hc).1 rfl, ih.nodup⟩
    · intro d
      rw [List.mem_cons, hmem]
      constructor
      · rintro (rfl | ⟨-, h⟩)
        · obtain ⟨l, hl, hd⟩ := mem_heads.mp hhead
          exact ⟨l, hl, List.mem_of_mem_head? hd⟩
        · exact h
      · intro h
        by_cases hd : d = c
        · exact .inl hd
        · exact .inr ⟨hd, h⟩
    · intro l hl
      have hrest := ih.sublist _ (List.mem_map_of_mem hl)
      rw [filter_of_free (hfree l hl)] at hrest
      split_ifs at hrest with hc
      · cases l with
        | nil => exact List.nil_sublist _
        | cons d l =>
          rw [List.head?_cons, Option.some_inj] at hc
          exact hc ▸ hrest.cons_cons d
      · exact hrest.cons c

theorem idxOf_lt (hm : m.Nodup) (h : [a, b].Sublist m) : m.idxOf a < m.idxOf b := by
  apply List.pairwise_iff_forall_sublist.mp _ h
  apply List.pairwise_iff_getElem.mpr
  intro i j hi hj hij
  rw [hm.idxOf_getElem, hm.idxOf_getElem]
  exact hij

/-- Lists that have a common order have no cycle. -/
theorem Linearizes.acyclic (h : Linearizes lists m) : Acyclic lists := by
  have hstep {a b : α} (hab : Precedes lists a b) : m.idxOf a < m.idxOf b := by
    obtain ⟨l, hl, hab⟩ := hab
    exact idxOf_lt h.nodup (hab.trans (h.sublist l hl))
  have hpath {a b : α} (hab : TransGen (Precedes lists) a b) : m.idxOf a < m.idxOf b := by
    induction hab with
    | single hab => exact hstep hab
    | tail _ hbc ih => exact ih.trans (hstep hbc)
  exact fun a ha => lt_irrefl _ (hpath ha)

omit [DecidableEq α] in
/-- Among the members of lists without a cycle one is before all the others. -/
theorem Acyclic.exists_free (h : Acyclic lists) (hne : ∃ l ∈ lists, l ≠ []) : ∃ c ∈ heads lists, Free lists c := by
  have hfinite : {c | c ∈ lists.flatten}.Finite := List.finite_toSet lists.flatten
  have hstrict : IsStrictOrder α (TransGen (Precedes lists)) :=
    { irrefl := h, trans := fun _ _ _ => TransGen.trans }
  have hmin := hfinite.wellFoundedOn (r := TransGen (Precedes lists))
  obtain ⟨l, hl, hnil⟩ := hne
  obtain ⟨a, ha⟩ := List.exists_mem_of_ne_nil l hnil
  obtain ⟨⟨c, hc⟩, -, hleast⟩ := WellFounded.has_min hmin Set.univ
    ⟨⟨a, List.mem_flatten.mpr ⟨l, hl, ha⟩⟩, Set.mem_univ _⟩
  have hfree : Free lists c := by
    intro l hl hct
    cases l with
    | nil => exact absurd hct List.not_mem_nil
    | cons d l =>
      apply hleast ⟨d, List.mem_flatten.mpr ⟨_, hl, List.mem_cons_self⟩⟩ (Set.mem_univ _)
      exact .single ⟨_, hl, (List.singleton_sublist.mpr hct).cons_cons d⟩
  exact ⟨c, heads_of_free (List.mem_flatten.mp hc) hfree, hfree⟩

theorem Acyclic.exists_merges (h : Acyclic lists) : ∃ m, Merges lists m := by
  induction hn : (lists.map List.length).sum using Nat.strong_induction_on generalizing lists with
  | _ n ih =>
    by_cases hne : ∃ l ∈ lists, l ≠ []
    · obtain ⟨d, hd, hfree⟩ := h.exists_free hne
      obtain ⟨c, hc⟩ := exists_next hd hfree
      have hlt := length_beyond_lt (next_free hc).1
      rw [hn] at hlt
      obtain ⟨m, hm⟩ := ih _ hlt (h.beyond [c]) rfl
      exact ⟨c :: m, .take hc hm⟩
    · refine ⟨[], .done fun l hl => ?_⟩
      by_contra hl'
      exact hne ⟨l, hl, hl'⟩

theorem exists_merges_iff : (∃ m, Merges lists m) ↔ Acyclic lists :=
  ⟨fun ⟨_, h⟩ => h.linearizes.acyclic, Acyclic.exists_merges⟩

/-- After any beginning the merge goes on with the first head that is free. -/
theorem Merges.next_eq (h : Merges lists (p ++ c :: q)) : next (beyond p lists) = some c := by
  induction p generalizing lists with
  | nil =>
    rw [beyond_nil]
    cases h with
    | take h _ => exact h
  | cons d p ih =>
    cases h with
    | take _ h =>
      have := ih h
      rwa [beyond_cons] at this

/-- In any order of the lists each member comes when it is a free head. -/
theorem Linearizes.free (h : Linearizes lists (p ++ c :: q)) :
    c ∈ heads (beyond p lists) ∧ Free (beyond p lists) c := by
  have hnodup := h.nodup
  rw [List.nodup_append, List.nodup_cons] at hnodup
  obtain ⟨-, ⟨hcq, -⟩, hapart⟩ := hnodup
  have hcp : c ∉ p := fun hc => hapart c hc c List.mem_cons_self rfl
  have hrest : (p ++ c :: q).filter (· ∉ p) = c :: q := by
    rw [List.filter_append, List.filter_eq_nil_iff.mpr (by simp), List.nil_append]
    apply List.filter_eq_self.mpr
    intro d hd
    exact decide_eq_true fun hdp => hapart d hdp d hd rfl
  have hfree : Free (beyond p lists) c := by
    intro l hl hc
    obtain ⟨o, ho, rfl⟩ := List.mem_map.mp hl
    have hsub := ((h.sublist o ho).filter (· ∉ p)).tail
    rw [hrest] at hsub
    exact hcq (hsub.subset hc)
  refine ⟨heads_of_free (mem_beyond.mpr ⟨hcp, (h.mem c).mp ?_⟩) hfree, hfree⟩
  exact List.mem_append_right p List.mem_cons_self

end Order

section Empty

theorem beyond_filter :
    (beyond [c] (lists.filter (!·.isEmpty))).filter (!·.isEmpty) = (beyond [c] lists).filter (!·.isEmpty) := by
  unfold beyond
  induction lists with
  | nil => rfl
  | cons l lists ih =>
    cases l with
    | nil => simpa using ih
    | cons d l =>
      rw [List.filter_cons_of_pos (by simp), List.map_cons, List.map_cons]
      generalize (d :: l).filter (· ∉ [c]) = o
      rw [List.filter_cons, List.filter_cons, ih]

theorem merges_cons : Merges lists (c :: m) ↔ next lists = some c ∧ Merges (beyond [c] lists) m := by
  constructor
  · intro h
    cases h with
    | take hc hm => exact ⟨hc, hm⟩
  · exact fun h => .take h.1 h.2

/-- Empty lists have no part in a merge. -/
theorem merges_filter : Merges (lists.filter (!·.isEmpty)) m ↔ Merges lists m := by
  induction m generalizing lists with
  | nil =>
    constructor
    · intro h
      cases h with
      | done h =>
        refine .done fun l hl => ?_
        cases l with
        | nil => rfl
        | cons d l => exact h _ (List.mem_filter.mpr ⟨hl, rfl⟩)
    · intro h
      cases h with
      | done h => exact .done fun l hl => h l (List.mem_of_mem_filter hl)
  | cons c m ih => rw [merges_cons, merges_cons, next_filter, ← ih, beyond_filter, ih]

end Empty

end WeavePy.Linearize
