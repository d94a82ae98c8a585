import Mathlib.Algebra.BigOperators.Group.Finset.Basic
import Mathlib.Algebra.Order.BigOperators.Group.Finset
import Mathlib.Logic.Relation
import Mathlib.Tactic.Common

/-!
Walking a graph with a stack of vertices to visit and a list of those visited.
-/

namespace WeavePy.Worklist

open Relation

variable {α : Type} [DecidableEq α] (next : α → List α)

def Edge (v w : α) : Prop := w ∈ next v

/-- The vertices visited, in order, when `stack` is still to be seen. -/
def walk : ℕ → List α → List α → List α
  | 0, visited, _ => visited
  | _ + 1, visited, [] => visited
  | n + 1, visited, v :: stack =>
    if v ∈ visited then walk n visited stack else walk n (visited ++ [v]) (next v ++ stack)

/-- The edges a walk has still to follow. -/
def work (U : Finset α) (visited stack : List α) : ℕ :=
  stack.length + ∑ v ∈ U.filter (· ∉ visited), (next v).length

variable {next} {U : Finset α} {visited stack : List α} {n : ℕ} {v w : α}

theorem walk_nil : walk next n visited [] = visited := by
  cases n <;> rfl

theorem prefix_walk : visited <+: walk next n visited stack := by
  induction n generalizing visited stack with
  | zero => simp [walk]
  | succ n ih =>
    cases stack with
    | nil => simp [walk]
    | cons v stack =>
      simp only [walk]
      split_ifs
      · exact ih
      · exact (List.prefix_append visited [v]).trans ih

theorem work_visited : work next U visited stack < work next U visited (v :: stack) := by
  simp [work]

theorem work_visit (hU : ∀ v, v ∉ U → next v = []) (hv : v ∉ visited) :
    work next U (visited ++ [v]) (next v ++ stack) < work next U visited (v :: stack) := by
  have hsum : (next v).length + ∑ w ∈ U.filter (· ∉ visited ++ [v]), (next w).length ≤
      ∑ w ∈ U.filter (· ∉ visited), (next w).length := by
    by_cases hvU : v ∈ U
    · have hsplit : U.filter (· ∉ visited) = insert v (U.filter (· ∉ visited ++ [v])) := by
        ext w
        simp only [Finset.mem_filter, Finset.mem_insert, List.mem_append, List.mem_singleton, not_or]
        constructor
        · rintro ⟨hw, hwv⟩
          by_cases h : w = v
          · exact .inl h
          · exact .inr ⟨hw, hwv, h⟩
        · rintro (rfl | ⟨hw, hwv, _⟩)
          · exact ⟨hvU, hv⟩
          · exact ⟨hw, hwv⟩
      rw [hsplit, Finset.sum_insert (by simp)]
    · rw [hU v hvU, List.length_nil, Nat.zero_add]
      apply Finset.sum_le_sum_of_subset
      intro w
      simp only [Finset.mem_filter, List.mem_append, not_or]
      rintro ⟨hw, hwv, _⟩
      exact ⟨hw, hwv⟩
  simp only [work, List.length_append, List.length_cons]
  omega

theorem work_start (hU : ∀ v, v ∉ U → next v = []) :
    work next U [v] (next v) = ∑ w ∈ U, (next w).length := by
  have hrest : ∑ w ∈ U.filter (· ∉ [v]), (next w).length = ∑ w ∈ U.erase v, (next w).length := by
    congr 1
    ext w
    simp [and_comm]
  rw [work, hrest]
  by_cases hv : v ∈ U
  · exact Finset.add_sum_erase U (fun w => (next w).length) hv
  · rw [hU v hv, Finset.erase_eq_of_notMem hv, List.length_nil, Nat.zero_add]

/-- With enough fuel the walk sees all that the stack and the visited lead to. -/
theorem walk_closed (hU : ∀ v, v ∉ U → next v = []) (hn : work next U visited stack < n)
    (hclosed : ∀ v ∈ visited, ∀ w ∈ next v, w ∈ visited ∨ w ∈ stack) :
    (∀ v ∈ stack, v ∈ walk next n visited stack) ∧
      ∀ v ∈ walk next n visited stack, ∀ w ∈ next v, w ∈ walk next n visited stack := by
  induction n generalizing visited stack with
  | zero => omega
  | succ n ih =>
    cases stack with
    | nil =>
      simp only [walk]
      refine ⟨by simp, fun v hv w hw => ?_⟩
      simpa using hclosed v hv w hw
    | cons v stack =>
      simp only [walk]
      split_ifs with hv
      · have hless : work next U visited stack < work next U visited (v :: stack) := work_visited
        obtain ⟨hstack, hnext⟩ := @ih visited stack (by omega) fun u hu w hw => by
          rcases hclosed u hu w hw with h | h
          · exact .inl h
          · rcases List.mem_cons.mp h with rfl | h
            · exact .inl hv
            · exact .inr h
        refine ⟨fun w hw => ?_, hnext⟩
        rcases List.mem_cons.mp hw with rfl | hw
        · exact prefix_walk.subset hv
        · exact hstack w hw
      · have hless : work next U (visited ++ [v]) (next v ++ stack) < work next U visited (v :: stack) := work_visit hU hv
        obtain ⟨hstack, hnext⟩ := @ih (visited ++ [v]) (next v ++ stack) (by omega)
            fun u hu w hw => by
          simp only [List.mem_append, List.mem_singleton] at hu ⊢
          rcases hu with hu | rfl
          · rcases hclosed u hu w hw with h | h
            · exact .inl (.inl h)
            · rcases List.mem_cons.mp h with rfl | h
              · exact .inl (.inr rfl)
              · exact .inr (.inr h)
          · exact .inr (.inl hw)
        refine ⟨fun w hw => ?_, hnext⟩
        rcases List.mem_cons.mp hw with rfl | hw
        · exact prefix_walk.subset (by simp)
        · exact hstack w (List.mem_append_right _ hw)

theorem mem_walk_of_reach (hU : ∀ v, v ∉ U → next v = []) (hn : work next U [v] (next v) < n)
    (hreach : ReflTransGen (Edge next) v w) : w ∈ walk next n [v] (next v) := by
  obtain ⟨_, hnext⟩ := walk_closed hU hn fun u hu w hw => by
    rw [List.mem_singleton] at hu
    subst hu
    exact .inr hw
  induction hreach with
  | refl => exact prefix_walk.subset (by simp)
  | tail _ hedge ih => exact hnext _ ih _ hedge

end WeavePy.Worklist
