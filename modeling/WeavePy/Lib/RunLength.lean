import Mathlib.Algebra.Ring.Int.Defs
import Mathlib.Algebra.Ring.Nat
import Mathlib.Data.List.Basic
import Mathlib.Data.List.TakeWhile

/-!
Sequences written as runs, and what is read from them at given places.
-/

namespace WeavePy.RunLength

variable {α β : Type}

def expand (runs : List (α × ℕ)) : List α := runs.flatMap fun p => List.replicate p.2 p.1

@[simp]
theorem expand_nil : expand ([] : List (α × ℕ)) = [] := rfl

@[simp]
theorem expand_cons (p : α × ℕ) (runs : List (α × ℕ)) :
    expand (p :: runs) = List.replicate p.2 p.1 ++ expand runs := rfl

@[simp]
theorem expand_append (runs runs' : List (α × ℕ)) : expand (runs ++ runs') = expand runs ++ expand runs' :=
  List.flatMap_append

theorem expand_map (f : α → β) (runs : List (α × ℕ)) :
    expand (runs.map fun p => (f p.1, p.2)) = (expand runs).map f := by
  induction runs with
  | nil => rfl
  | cons p runs ih => simp [ih]

theorem length_expand (runs : List (α × ℕ)) : (expand runs).length = (runs.map Prod.snd).sum := by
  induction runs with
  | nil => rfl
  | cons p runs ih => simp [ih]

/-- Each item takes the run that holds its key; nothing is past the last run. -/
def assign (key : β → ℕ) : List (α × ℕ) → ℕ → List β → List (β × Option α)
  | [], _, items => items.map fun b => (b, none)
  | (a, n) :: runs, start, items =>
    (items.takeWhile fun b => key b < start + n).map (fun b => (b, some a)) ++
      assign key runs (start + n) (items.dropWhile fun b => key b < start + n)

variable {key : β → ℕ} {start : ℕ} {items : List β} {k : ℕ}

/-- In rising order, the first item that is not below `k` has none after it that is. -/
theorem le_of_mem_dropWhile (hsorted : items.Pairwise fun b c => key b ≤ key c) {b : β}
    (hb : b ∈ items.dropWhile fun b => key b < k) : k ≤ key b := by
  induction items with
  | nil => exact absurd hb List.not_mem_nil
  | cons c items ih =>
    obtain ⟨hc, hsorted⟩ := List.pairwise_cons.mp hsorted
    by_cases hk : key c < k
    · rw [List.dropWhile_cons_of_pos (by simpa using hk)] at hb
      exact ih hsorted hb
    · rw [List.dropWhile_cons_of_neg (by simpa using hk)] at hb
      rcases List.mem_cons.mp hb with rfl | hb
      · omega
      · have := hc b hb
        omega

theorem assign_eq (runs : List (α × ℕ)) (hsorted : items.Pairwise fun b c => key b ≤ key c)
    (hstart : ∀ b ∈ items, start ≤ key b) :
    assign key runs start items = items.map fun b => (b, (expand runs)[key b - start]?) := by
  induction runs generalizing start items with
  | nil => rfl
  | cons p runs ih =>
    obtain ⟨a, n⟩ := p
    have hdrop : ∀ b ∈ items.dropWhile fun b => key b < start + n, start + n ≤ key b :=
      fun b hb => le_of_mem_dropWhile hsorted hb
    rw [assign, ih (hsorted.sublist (List.dropWhile_sublist _)) hdrop]
    conv_rhs => rw [← List.takeWhile_append_dropWhile (p := fun b => decide (key b < start + n)) (l := items)]
    rw [List.map_append]
    congr 1
    · apply List.map_congr_left
      intro b hb
      have hlt : key b < start + n := by simpa using List.mem_takeWhile_imp hb
      have hge := hstart b ((List.takeWhile_sublist _).mem hb)
      rw [expand_cons, List.getElem?_append_left (by simp; omega), List.getElem?_replicate]
      rw [if_pos (by omega)]
    · apply List.map_congr_left
      intro b hb
      have hge := hdrop b hb
      rw [expand_cons, List.getElem?_append_right (by simp; omega), List.length_replicate]
      congr 2
      omega

end WeavePy.RunLength
