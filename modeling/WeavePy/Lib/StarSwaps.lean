import Mathlib.Algebra.BigOperators.Group.Finset.Basic
import Mathlib.Algebra.BigOperators.Group.Finset.Piecewise
import Mathlib.Algebra.Order.BigOperators.Group.Finset
import Mathlib.GroupTheory.Perm.Basic
import Mathlib.Logic.Equiv.Basic

/-!
Exchanges of one fixed place with others, and how many of them a permutation needs.
-/

namespace WeavePy.StarSwaps

/-- What lies where after the exchanges of place 0 with the places of `w`, one after another. -/
def arranged (w : List ℕ) : Equiv.Perm ℕ := (w.map (Equiv.swap 0)).prod

variable {w v : List ℕ} {e p : ℕ} {C : Finset ℕ}

@[simp] theorem arranged_nil : arranged [] = 1 := rfl

theorem arranged_cons : arranged (e :: w) = Equiv.swap 0 e * arranged w := List.prod_cons

theorem arranged_append : arranged (w ++ v) = arranged w * arranged v := by
  rw [arranged, List.map_append, List.prod_append]
  rfl

theorem arranged_reverse : arranged w.reverse = (arranged w)⁻¹ := by
  induction w with
  | nil => rfl
  | cons e w ih =>
    rw [List.reverse_cons, arranged_append, ih, arranged_cons, arranged_cons, arranged_nil, mul_one,
      mul_inv_rev, Equiv.swap_inv]

/-- Exchanging place 0 with itself does nothing. -/
theorem arranged_filter : arranged (w.filter (· ≠ 0)) = arranged w := by
  induction w with
  | nil => rfl
  | cons e w ih =>
    by_cases he : e = 0
    · subst he
      rw [List.filter_cons_of_neg (by simp), ih, arranged_cons, Equiv.swap_self]
      rfl
    · rw [List.filter_cons_of_pos (by simpa using he), arranged_cons, arranged_cons, ih]

theorem arranged_of_not_mem (hp : p ∉ w) (h0 : p ≠ 0) : arranged w p = p := by
  induction w with
  | nil => rfl
  | cons e w ih =>
    rw [List.mem_cons, not_or] at hp
    rw [arranged_cons, Equiv.Perm.mul_apply, ih hp.2, Equiv.swap_apply_of_ne_of_ne h0 hp.1]

theorem count_pos (h0 : p ≠ 0) (hmoved : arranged w p ≠ p) : 1 ≤ w.count p := by
  rw [Nat.one_le_iff_ne_zero, ne_eq, List.count_eq_zero]
  exact fun hp => hmoved (arranged_of_not_mem hp h0)

theorem exists_first (h : ∃ c ∈ w, c ∈ C) : ∃ u c v, w = u ++ c :: v ∧ c ∈ C ∧ ∀ e ∈ u, e ∉ C := by
  induction w with
  | nil => simp at h
  | cons e w ih =>
    by_cases he : e ∈ C
    · exact ⟨[], e, w, rfl, he, by simp⟩
    · obtain ⟨c, hc, hC⟩ := h
      have hw : c ∈ w := by
        rcases List.mem_cons.mp hc with rfl | hc
        · exact absurd hC he
        · exact hc
      obtain ⟨u, d, v, rfl, hd, hu⟩ := ih ⟨c, hw, hC⟩
      refine ⟨e :: u, d, v, rfl, hd, ?_⟩
      intro x hx
      rcases List.mem_cons.mp hx with rfl | hx
      · exact he
      · exact hu x hx

/-- Places that end up permuted among themselves, without place 0, lose one of them to place 0 first,
and that one is exchanged again to get something back. -/
theorem exists_count_two (h0 : 0 ∉ C) (hclosed : ∀ c ∈ C, arranged w c ∈ C) (h : ∃ c ∈ w, c ∈ C) :
    ∃ c ∈ C, 2 ≤ w.count c := by
  obtain ⟨u, c, v, rfl, hc, hu⟩ := exists_first h
  refine ⟨c, hc, ?_⟩
  have hc0 : c ≠ 0 := fun heq => h0 (heq ▸ hc)
  have hcu : c ∉ u := fun hmem => hu c hmem hc
  by_contra hcount
  have hcv : c ∉ v := by
    intro hmem
    have hpos := List.count_pos_iff.mpr hmem
    rw [List.count_append, List.count_cons_self] at hcount
    omega
  have hend : arranged (u ++ c :: v) c = arranged u 0 := by
    rw [arranged_append, arranged_cons, Equiv.Perm.mul_apply, Equiv.Perm.mul_apply,
      arranged_of_not_mem hcv hc0, Equiv.swap_apply_right]
  have hback : arranged u 0 ∈ C := hend ▸ hclosed c hc
  have hstill := arranged_of_not_mem (fun hmem => hu _ hmem hback) fun heq => h0 (heq ▸ hback)
  exact h0 ((arranged u).injective hstill ▸ hback)

theorem card_le_sum_count (h0 : 0 ∉ C) (hmoved : ∀ c ∈ C, arranged w c ≠ c) :
    C.card ≤ ∑ c ∈ C, w.count c := by
  rw [Finset.card_eq_sum_ones]
  apply Finset.sum_le_sum
  exact fun c hc => count_pos (fun heq => h0 (heq ▸ hc)) (hmoved c hc)

/-- One exchange more than there are places. -/
theorem card_lt_sum_count (h0 : 0 ∉ C) (hmoved : ∀ c ∈ C, arranged w c ≠ c)
    (hclosed : ∀ c ∈ C, arranged w c ∈ C) (hne : C.Nonempty) : C.card + 1 ≤ ∑ c ∈ C, w.count c := by
  have htouched : ∀ c ∈ C, 1 ≤ w.count c :=
    fun c hc => count_pos (fun heq => h0 (heq ▸ hc)) (hmoved c hc)
  obtain ⟨b, hb⟩ := hne
  obtain ⟨c, hc, htwo⟩ := exists_count_two h0 hclosed
    ⟨b, List.count_pos_iff.mp (htouched b hb), hb⟩
  rw [Nat.succ_le_iff, Finset.card_eq_sum_ones]
  exact Finset.sum_lt_sum htouched ⟨c, hc, htwo⟩

theorem sum_count_le (C : Finset ℕ) (w : List ℕ) : ∑ c ∈ C, w.count c ≤ w.length := by
  induction w with
  | nil => simp
  | cons e w ih =>
    simp only [List.count_cons, Finset.sum_add_distrib, List.length_cons]
    have hone : ∑ c ∈ C, (if e == c then 1 else 0) ≤ 1 := by
      simp only [beq_iff_eq, Finset.sum_ite_eq]
      split_ifs <;> omega
    omega

end WeavePy.StarSwaps
