import Mathlib.Data.List.Basic

/-!
Elements with at most one separator between two of them, and how far a list goes on with such.
-/

namespace WeavePy.SeparatedRuns

variable {α : Type} {p q : α → Bool} {sep a : α} {l t u : List α}

/-- One element or more, any two with one separator between them or none. -/
inductive Separated (p : α → Bool) (sep : α) : List α → Prop
  | single {a : α} (h : p a = true) : Separated p sep [a]
  | cons {a : α} {l : List α} (h : p a = true) (hl : Separated p sep l) : Separated p sep (a :: l)
  | apart {a : α} {l : List α} (h : p a = true) (hl : Separated p sep l) : Separated p sep (a :: sep :: l)

theorem Separated.head (h : Separated p sep l) : l.head?.any p = true := by
  cases h with
  | single h => exact h
  | cons h hl => exact h
  | apart h hl => exact h

theorem Separated.append_head (h : Separated p sep t) (u : List α) : (t ++ u).head?.any p = true := by
  cases h with
  | single h => exact h
  | cons h hl => exact h
  | apart h hl => exact h

theorem Separated.mono (h : Separated p sep l) (hpq : ∀ a, p a = true → q a = true) : Separated q sep l := by
  induction h with
  | single h => exact .single (hpq _ h)
  | cons h _ ih => exact .cons (hpq _ h) ih
  | apart h _ ih => exact .apart (hpq _ h) ih

variable [DecidableEq α]

/-- How far a list goes on with elements, and separators that an element follows. -/
def more (p : α → Bool) (sep : α) : List α → ℕ
  | [] => 0
  | a :: l => if p a ∨ a = sep ∧ l.head?.any p then more p sep l + 1 else 0

/-- The same, but not from a separator. -/
def runLen (p : α → Bool) (sep : α) (l : List α) : ℕ := if l.head?.any p then more p sep l else 0

theorem more_cons (h : p a = true) : more p sep (a :: l) = more p sep l + 1 := if_pos (.inl h)

theorem more_sep (h : l.head?.any p = true) : more p sep (sep :: l) = more p sep l + 1 := if_pos (.inr ⟨rfl, h⟩)

theorem more_stop (h : p a = false) (hsep : a ≠ sep) : more p sep (a :: l) = 0 := by
  apply if_neg
  rintro (hp | ⟨heq, -⟩)
  · rw [h] at hp
    cases hp
  · exact hsep heq

/-- What is separated is gone through, and then what goes on behind it. -/
theorem more_append (h : Separated p sep t) (u : List α) : more p sep (t ++ u) = t.length + more p sep u := by
  induction h with
  | single h =>
    rw [List.singleton_append, more_cons h, List.length_singleton, Nat.add_comm]
  | cons h hl ih =>
    rw [List.cons_append, more_cons h, ih, List.length_cons]
    omega
  | apart h hl ih =>
    rw [List.cons_append, List.cons_append, more_cons h, more_sep (hl.append_head u), ih, List.length_cons,
      List.length_cons]
    omega

theorem runLen_append (h : Separated p sep t) (u : List α) : runLen p sep (t ++ u) = t.length + more p sep u := by
  rw [runLen, if_pos (h.append_head u), more_append h]

theorem more_le_length (l : List α) : more p sep l ≤ l.length := by
  induction l with
  | nil => exact Nat.le_refl 0
  | cons a l ih =>
    rw [more]
    split_ifs
    · exact Nat.succ_le_succ ih
    · exact Nat.zero_le _

/-- Nothing goes on behind the longest. -/
theorem more_drop (l : List α) : more p sep (l.drop (more p sep l)) = 0 := by
  induction l with
  | nil => rfl
  | cons a l ih =>
    by_cases h : p a ∨ a = sep ∧ l.head?.any p
    · rw [more, if_pos h, List.drop_succ_cons]
      exact ih
    · have hzero : more p sep (a :: l) = 0 := if_neg h
      rw [hzero]
      exact hzero

theorem separated_take (h : l.head?.any p = true) : Separated p sep (l.take (more p sep l)) := by
  induction hn : l.length using Nat.strongRecOn generalizing l with
  | ind n ih =>
    cases l with
    | nil => cases h
    | cons a l =>
      have ha : p a = true := h
      rw [more_cons ha, List.take_succ_cons]
      cases l with
      | nil => exact .single ha
      | cons b l =>
        by_cases hb : p b = true
        · apply Separated.cons ha
          exact ih (b :: l).length (by rw [← hn]; exact Nat.lt_succ_self _) hb rfl
        · by_cases hsep : b = sep ∧ l.head?.any p = true
          · obtain ⟨rfl, hl⟩ := hsep
            rw [more_sep hl, List.take_succ_cons]
            apply Separated.apart ha
            exact ih l.length (by rw [← hn]; exact Nat.lt_succ_of_lt (Nat.lt_succ_self _)) hl rfl
          · have hzero : more p sep (b :: l) = 0 := if_neg fun h => h.elim hb hsep
            rw [hzero]
            exact .single ha

theorem runLen_le_length (l : List α) : runLen p sep l ≤ l.length := by
  unfold runLen
  split_ifs
  · exact more_le_length l
  · exact Nat.zero_le _

theorem runLen_cons (h : p a = true) : runLen p sep (a :: l) = more p sep l + 1 := by
  rw [runLen, List.head?_cons, Option.any_some, if_pos h, more_cons h]

theorem runLen_pos (h : l.head?.any p = true) : 0 < runLen p sep l := by
  cases l with
  | nil => cases h
  | cons a l =>
    have ha : p a = true := h
    rw [runLen_cons ha]
    exact Nat.succ_pos _

theorem runLen_zero (h : l.head?.any p = false) : runLen p sep l = 0 := if_neg (by rw [h]; exact Bool.false_ne_true)

theorem separated_take_runLen (h : l.head?.any p = true) : Separated p sep (l.take (runLen p sep l)) := by
  rw [runLen, if_pos h]
  exact separated_take h

/-- A run that is over is as long as what it goes through. -/
theorem runLen_exact (h : t = [] ∨ Separated p sep t) (hu : more p sep u = 0) : runLen p sep (t ++ u) = t.length := by
  obtain rfl | h := h
  · rw [List.nil_append, runLen, hu, ite_self]
    rfl
  · rw [runLen_append h, hu, Nat.add_zero]

theorem length_le_runLen (h : t = [] ∨ Separated p sep t) (u : List α) : t.length ≤ runLen p sep (t ++ u) := by
  obtain rfl | h := h
  · exact Nat.zero_le _
  · rw [runLen_append h]
    exact Nat.le_add_right _ _

/-- The list is its run and what is behind. -/
theorem take_runLen (l : List α) : l.take (runLen p sep l) = [] ∨ Separated p sep (l.take (runLen p sep l)) := by
  cases h : l.head?.any p with
  | true => exact .inr (separated_take_runLen h)
  | false =>
    rw [runLen_zero h]
    exact .inl rfl

/-- A run ends before no element. -/
theorem head_drop_runLen (l : List α) : (l.drop (runLen p sep l)).head?.any p = false := by
  have hhead {u : List α} (h : more p sep u = 0) : u.head?.any p = false := by
    cases u with
    | nil => rfl
    | cons a u =>
      cases ha : p a with
      | true =>
        rw [more_cons ha] at h
        cases h
      | false => exact ha
  cases h : l.head?.any p with
  | true =>
    rw [runLen, if_pos h]
    exact hhead (more_drop l)
  | false =>
    rw [runLen_zero h]
    exact h

theorem mem_take_more (h : a ∈ l.take (more p sep l)) : p a = true ∨ a = sep := by
  induction l with
  | nil => cases h
  | cons b l ih =>
    rw [more] at h
    split_ifs at h with hb
    · rw [List.take_succ_cons] at h
      obtain rfl | h := List.mem_cons.mp h
      · exact hb.imp_right And.left
      · exact ih h
    · cases h

end WeavePy.SeparatedRuns
