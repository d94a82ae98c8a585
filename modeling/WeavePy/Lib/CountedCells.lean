import WeavePy.Rust
import Mathlib.Data.Multiset.AddSub
import Mathlib.Data.Multiset.Count

/-!
Reference-counted cells: each cell counts the handles that name it.
-/

namespace WeavePy.CountedCells

structure Cell (α : Type) where
  strong : ℕ
  val : α

abbrev Heap (α : Type) := List (Cell α)

section Operations

variable {α : Type} (heap : Heap α)

def alloc (a : α) : Heap α × ℕ := (heap ++ [⟨1, a⟩], heap.length)

/-- A freed cell must not be touched. -/
def deref (d : ℕ) : Outcome (Cell α) :=
  match heap[d]? with
  | some c => if c.strong = 0 then .error .unchecked else .ok c
  | none => .error .unchecked

def clone (d : ℕ) : Outcome (Heap α) := do
  let c ← deref heap d
  return heap.set d { c with strong := c.strong + 1 }

def release (d : ℕ) : Outcome (Heap α) := do
  let c ← deref heap d
  return heap.set d { c with strong := c.strong - 1 }

def write (d : ℕ) (a : α) : Outcome (Heap α) := do
  let c ← deref heap d
  return heap.set d { c with val := a }

/-- A write through a handle, into a copy of its own when the cell is shared: the heap, the handle it
goes on with, and what the cell held. -/
def update (d : ℕ) (f : α → α) : Outcome (Heap α × ℕ × α) := do
  let cell ← deref heap d
  let shared := decide (1 < cell.strong)
  let (heap, d') := if shared then alloc heap cell.val else (heap, d)
  let fresh ← deref heap d'
  let heap ← write heap d' (f fresh.val)
  let heap ← if shared then release heap d else pure heap
  return (heap, d', fresh.val)

def view (d : ℕ) : Option α := heap[d]?.map Cell.val

def strong (d : ℕ) : ℕ := heap[d]?.elim 0 Cell.strong

end Operations

/-- Every handle is counted, in the cell it names. -/
def Counted {α : Type} (heap : Heap α) (handles : Multiset ℕ) : Prop := ∀ d, strong heap d = handles.count d

section Rules

variable {α : Type} {heap : Heap α} {handles : Multiset ℕ} {d : ℕ} {c : Cell α}

theorem strong_set (h : heap[d]? = some c) (c' : Cell α) (e : ℕ) :
    strong (heap.set d c') e = if d = e then c'.strong else strong heap e := by
  unfold strong
  rw [List.getElem?_set, if_pos (List.getElem?_eq_some_iff.mp h).1]
  split_ifs <;> rfl

theorem view_set (h : heap[d]? = some c) (c' : Cell α) (e : ℕ) :
    view (heap.set d c') e = if d = e then some c'.val else view heap e := by
  unfold view
  rw [List.getElem?_set, if_pos (List.getElem?_eq_some_iff.mp h).1]
  split_ifs <;> rfl

theorem counted_nil : Counted ([] : Heap α) 0 := fun _ => rfl

theorem Counted.deref (h : Counted heap handles) (hd : d ∈ handles) :
    ∃ c, CountedCells.deref heap d = .ok c ∧ heap[d]? = some c ∧ c.strong = handles.count d := by
  have hcount := h d
  have hpos := Multiset.count_pos.mpr hd
  unfold strong at hcount
  unfold CountedCells.deref
  cases hc : heap[d]? with
  | none =>
    rw [hc] at hcount
    simp at hcount
    omega
  | some c =>
    rw [hc] at hcount
    change c.strong = _ at hcount
    exact ⟨c, if_neg (by omega), rfl, hcount⟩

theorem Counted.lt (h : Counted heap handles) (hd : d ∈ handles) : d < heap.length := by
  obtain ⟨c, -, hc, -⟩ := h.deref hd
  exact (List.getElem?_eq_some_iff.mp hc).1

theorem Counted.alloc (h : Counted heap handles) (a : α) :
    Counted (CountedCells.alloc heap a).1 (heap.length ::ₘ handles) := by
  intro e
  have he := h e
  have hfresh : heap.length ∉ handles := fun hmem => Nat.lt_irrefl _ (h.lt hmem)
  unfold strong CountedCells.alloc at *
  dsimp only
  rw [List.getElem?_append]
  split_ifs with hlt
  · rw [Multiset.count_cons_of_ne (by omega), he]
  · rw [List.getElem?_singleton]
    split_ifs with hzero
    · have heq : e = heap.length := by omega
      subst heq
      rw [Multiset.count_cons_self, Multiset.count_eq_zero.mpr hfresh]
      rfl
    · rw [List.getElem?_eq_none (by omega)] at he
      rw [Multiset.count_cons_of_ne (by omega), ← he]

theorem view_alloc (a : α) (e : ℕ) :
    view (CountedCells.alloc heap a).1 e = if e = heap.length then some a else view heap e := by
  unfold view CountedCells.alloc
  dsimp only
  rw [List.getElem?_append]
  split_ifs with h₁ h₂ h₂
  · omega
  · rfl
  · subst h₂
    simp
  · rw [List.getElem?_eq_none (by simp; omega), List.getElem?_eq_none (by omega)]

theorem Counted.clone (h : Counted heap handles) (hd : d ∈ handles) :
    ∃ heap', CountedCells.clone heap d = .ok heap' ∧ Counted heap' (d ::ₘ handles) ∧ ∀ e, view heap' e = view heap e := by
  obtain ⟨c, hrun, hc, hstrong⟩ := h.deref hd
  unfold CountedCells.clone
  rw [hrun]
  refine ⟨_, rfl, fun e => ?_, fun e => ?_⟩
  · rw [strong_set hc]
    split_ifs with he
    · subst he
      rw [Multiset.count_cons_self, hstrong]
    · rw [Multiset.count_cons_of_ne (Ne.symm he), h e]
  · rw [view_set hc]
    split_ifs with he
    · subst he
      unfold view
      rw [hc]
      rfl
    · rfl

theorem Counted.release (h : Counted heap (d ::ₘ handles)) :
    ∃ heap', CountedCells.release heap d = .ok heap' ∧ Counted heap' handles ∧ ∀ e, view heap' e = view heap e := by
  obtain ⟨c, hrun, hc, hstrong⟩ := h.deref (Multiset.mem_cons_self d handles)
  rw [Multiset.count_cons_self] at hstrong
  unfold CountedCells.release
  rw [hrun]
  refine ⟨_, rfl, fun e => ?_, fun e => ?_⟩
  · rw [strong_set hc]
    split_ifs with he
    · subst he
      exact Nat.sub_eq_of_eq_add hstrong
    · rw [h e, Multiset.count_cons_of_ne (Ne.symm he)]
  · rw [view_set hc]
    split_ifs with he
    · subst he
      unfold view
      rw [hc]
      rfl
    · rfl

theorem Counted.write (h : Counted heap handles) (hd : d ∈ handles) (a : α) :
    ∃ heap', CountedCells.write heap d a = .ok heap' ∧ Counted heap' handles ∧
      ∀ e, view heap' e = if d = e then some a else view heap e := by
  obtain ⟨c, hrun, hc, hstrong⟩ := h.deref hd
  unfold CountedCells.write
  rw [hrun]
  refine ⟨_, rfl, fun e => ?_, view_set hc _⟩
  rw [strong_set hc]
  split_ifs with he
  · subst he
    exact hstrong
  · exact h e

/-- A cell counted once has no second handle. -/
theorem Counted.sole (h : Counted heap (d ::ₘ handles)) (hc : heap[d]? = some c) (hone : ¬ 1 < c.strong) :
    d ∉ handles := by
  have hcount := h d
  unfold strong at hcount
  rw [hc, Multiset.count_cons_self] at hcount
  change c.strong = _ at hcount
  rw [← Multiset.count_eq_zero]
  omega

/-- Only the handle written through sees the write. -/
theorem Counted.update {a : α} (h : Counted heap (d ::ₘ handles)) (ha : view heap d = some a) (f : α → α) :
    ∃ heap' d', CountedCells.update heap d f = .ok (heap', d', a) ∧ Counted heap' (d' ::ₘ handles) ∧
      view heap' d' = some (f a) ∧ ∀ e ∈ handles, view heap' e = view heap e := by
  have hd := Multiset.mem_cons_self d handles
  obtain ⟨c, hrun, hc, -⟩ := h.deref hd
  have hval : c.val = a := by
    unfold view at ha
    rw [hc] at ha
    exact Option.some_inj.mp ha
  unfold CountedCells.update
  rw [hrun, ok_bind]
  by_cases hshared : 1 < c.strong
  · have halloc := h.alloc a
    have hfresh : heap.length ∈ heap.length ::ₘ d ::ₘ handles := Multiset.mem_cons_self _ _
    obtain ⟨fresh, hrun₁, hc₁, -⟩ := halloc.deref hfresh
    have hval₁ : fresh.val = a := by
      have hview : view (CountedCells.alloc heap a).1 heap.length = some a := by rw [view_alloc, if_pos rfl]
      unfold view at hview
      rw [hc₁] at hview
      exact Option.some_inj.mp hview
    obtain ⟨heap₂, hrun₂, hcounted₂, hview₂⟩ := halloc.write hfresh (f a)
    rw [Multiset.cons_swap] at hcounted₂
    obtain ⟨heap₃, hrun₃, hcounted₃, hview₃⟩ := hcounted₂.release
    simp only [decide_eq_true hshared, if_true, hval]
    refine ⟨heap₃, heap.length, ?_, hcounted₃, ?_, fun e he => ?_⟩
    · change (CountedCells.deref (CountedCells.alloc heap a).1 heap.length >>= _) = _
      rw [hrun₁, ok_bind, hval₁]
      change (CountedCells.write (CountedCells.alloc heap a).1 heap.length (f a) >>= _) = _
      rw [hrun₂, ok_bind, hrun₃]
      rfl
    · rw [hview₃, hview₂, if_pos rfl]
    · have hlt := h.lt (Multiset.mem_cons_of_mem he)
      rw [hview₃, hview₂, if_neg (by omega), view_alloc, if_neg (by omega)]
  · have hsole := h.sole hc hshared
    obtain ⟨heap', hrun', hcounted, hview⟩ := h.write hd (f a)
    simp only [decide_eq_false hshared, Bool.false_eq_true, if_false]
    refine ⟨heap', d, ?_, hcounted, ?_, fun e he => ?_⟩
    · rw [hrun, ok_bind, hval, hrun']
      rfl
    · rw [hview, if_pos rfl]
    · have hne : d ≠ e := fun heq => hsole (heq ▸ he)
      rw [hview, if_neg hne]

theorem Counted.exists_view (h : Counted heap handles) (hd : d ∈ handles) : ∃ a, view heap d = some a := by
  obtain ⟨c, -, hc, -⟩ := h.deref hd
  unfold view
  rw [hc]
  exact ⟨_, rfl⟩

end Rules

end WeavePy.CountedCells
