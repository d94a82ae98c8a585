import Mathlib.Data.List.Perm.Basic
import Mathlib.Order.Basic

/-!
Lists read as binary heaps: order along parents, and what an exchange of a place with its parent leaves of it.
-/

namespace WeavePy.HeapOrder

variable {α : Type}

structure TotalPreorder (le : α → α → Prop) : Prop where
  total : ∀ x y, le x y ∨ le y x
  trans : ∀ {x y z}, le x y → le y z → le x z

theorem TotalPreorder.refl {le : α → α → Prop} (h : TotalPreorder le) (x : α) : le x x := (h.total x x).elim id id

theorem TotalPreorder.flip {le : α → α → Prop} (h : TotalPreorder le) : TotalPreorder fun x y => le y x :=
  ⟨fun x y => h.total y x, fun hxy hyz => h.trans hyz hxy⟩

def parent (i : ℕ) : ℕ := (i - 1) / 2

/-- The place is in the tree below `s`. -/
inductive Under (s : ℕ) : ℕ → Prop where
  | root : Under s s
  | child {i : ℕ} (h : 0 < i) (hs : s < i) (hp : Under s (parent i)) : Under s i

theorem Under.le {s i : ℕ} (h : Under s i) : s ≤ i := by
  cases h with
  | root => exact Nat.le_refl s
  | child _ hs _ => exact Nat.le_of_lt hs

theorem Under.parent_le {s i : ℕ} (h : Under s i) (hi : s < i) : s ≤ parent i := by
  cases h with
  | root => exact absurd hi (Nat.lt_irrefl s)
  | child _ _ hp => exact hp.le

theorem Under.parent {s i : ℕ} (h : Under s i) (hi : s < i) : Under s (parent i) := by
  cases h with
  | root => exact absurd hi (Nat.lt_irrefl s)
  | child _ _ hp => exact hp

theorem under_zero (i : ℕ) : Under 0 i := by
  induction i using Nat.strongRecOn with
  | ind i ih =>
    by_cases hi : i = 0
    · rw [hi]
      exact .root
    · exact .child (by omega) (by omega) (ih _ (by unfold HeapOrder.parent; omega))

variable (le : α → α → Prop)

/-- What stands at `i` is not above what stands at `j`. -/
def Below (l : List α) (i j : ℕ) : Prop := ∀ x ∈ l[i]?, ∀ y ∈ l[j]?, le x y

/-- Order along the parents from `s` on. -/
def HeapFrom (l : List α) (s : ℕ) : Prop := ∀ i, 0 < i → s ≤ parent i → Below le l (parent i) i

/-- A heap below `s` but for what stands at `p` and its parent. -/
structure Rising (l : List α) (s p : ℕ) : Prop where
  off : ∀ i, 0 < i → s ≤ parent i → i ≠ p → Below le l (parent i) i
  grand : s < p → ∀ i, 0 < i → parent i = p → Below le l (parent p) i

/-- A heap below `s` but for what stands at `p`, its parent and its children. -/
structure Sinking (l : List α) (s p : ℕ) : Prop where
  off : ∀ i, 0 < i → s ≤ parent i → i ≠ p → parent i ≠ p → Below le l (parent i) i
  grand : s < p → ∀ i, 0 < i → parent i = p → Below le l (parent p) i

variable {le} {l : List α} {s p c i j k : ℕ}

theorem getElem?_swap (hi : i < l.length) (hj : j < l.length) (k : ℕ) :
    (l.swap i j)[k]? = if k = j then l[i]? else if k = i then l[j]? else l[k]? := by
  rw [List.swap_eq_of_lt hi hj, List.getElem?_set, List.length_set, List.getElem?_set, List.getElem?_eq_getElem hi,
    List.getElem?_eq_getElem hj]
  by_cases hkj : k = j
  · rw [if_pos hkj.symm, if_pos hj, if_pos hkj]
  · rw [if_neg fun h => hkj h.symm, if_neg hkj]
    by_cases hki : k = i
    · rw [if_pos hki.symm, if_pos hi, if_pos hki]
    · rw [if_neg fun h => hki h.symm, if_neg hki]

section Exchange

variable (hi : i < l.length) (hj : j < l.length)

include hi hj

theorem below_swap_ne (hki : k ≠ i) (hkj : k ≠ j) (hci : c ≠ i) (hcj : c ≠ j) (h : Below le l k c) :
    Below le (l.swap i j) k c := by
  unfold Below
  rw [getElem?_swap hi hj, getElem?_swap hi hj, if_neg hkj, if_neg hki, if_neg hcj, if_neg hci]
  exact h

theorem below_swap_left (hij : i ≠ j) (hki : k ≠ i) (hkj : k ≠ j) (h : Below le l j k) : Below le (l.swap i j) i k := by
  unfold Below
  rw [getElem?_swap hi hj, getElem?_swap hi hj, if_neg hij, if_pos rfl, if_neg hkj, if_neg hki]
  exact h

theorem below_swap_right (hki : k ≠ i) (hkj : k ≠ j) (h : Below le l i k) : Below le (l.swap i j) j k := by
  unfold Below
  rw [getElem?_swap hi hj, getElem?_swap hi hj, if_pos rfl, if_neg hkj, if_neg hki]
  exact h

theorem below_swap_of_left (hij : i ≠ j) (hki : k ≠ i) (hkj : k ≠ j) (h : Below le l k j) :
    Below le (l.swap i j) k i := by
  unfold Below
  rw [getElem?_swap hi hj, getElem?_swap hi hj, if_neg hkj, if_neg hki, if_neg hij, if_pos rfl]
  exact h

theorem below_swap_of_right (hki : k ≠ i) (hkj : k ≠ j) (h : Below le l k i) : Below le (l.swap i j) k j := by
  unfold Below
  rw [getElem?_swap hi hj, getElem?_swap hi hj, if_neg hkj, if_neg hki, if_pos rfl]
  exact h

theorem below_swap_swap (hij : i ≠ j) (h : Below le l i j) : Below le (l.swap i j) j i := by
  unfold Below
  rw [getElem?_swap hi hj, getElem?_swap hi hj, if_pos rfl, if_neg hij, if_pos rfl]
  exact h

end Exchange

section Steps

variable (hle : TotalPreorder le)

include hle

theorem Below.through (hj : j < l.length) (h : Below le l i j) (h' : Below le l j k) : Below le l i k := fun x hx y hy =>
  hle.trans (h x hx _ (List.getElem?_eq_getElem hj)) (h' _ (List.getElem?_eq_getElem hj) y hy)

/-- The parent takes the place of what is not above it. -/
theorem Rising.step (h : Rising le l s p) (hp : p < l.length) (hunder : Under s p) (hs : s < p)
    (hlt : Below le l p (parent p)) : Rising le (l.swap p (parent p)) s (parent p) := by
  have hparent : parent p < p := by
    unfold parent
    omega
  have hq : parent p < l.length := Nat.lt_trans hparent hp
  have hsq := hunder.parent_le hs
  constructor
  · intro i hi hsi hne
    by_cases hip : i = p
    · rw [hip]
      exact below_swap_swap hp hq (Nat.ne_of_gt hparent) hlt
    · by_cases hpi : parent i = p
      · rw [hpi]
        exact below_swap_left hp hq (Nat.ne_of_gt hparent) hip hne (h.grand hs i hi hpi)
      · by_cases hqi : parent i = parent p
        · rw [hqi]
          have hsibling : Below le l (parent p) i := hqi ▸ h.off i hi hsi hip
          exact below_swap_right hp hq hip hne (hlt.through hle hq hsibling)
        · exact below_swap_ne hp hq hpi hqi hip hne (h.off i hi hsi hip)
  · intro hsq' i hi hpi
    have hgp : parent (parent p) < parent p := by
      unfold parent
      unfold parent at hsq'
      omega
    have hgq : s ≤ parent (parent p) := (hunder.parent hs).parent_le hsq'
    have hup : Below le l (parent (parent p)) (parent p) :=
      h.off (parent p) (by omega) hgq (Nat.ne_of_lt hparent)
    by_cases hip : i = p
    · rw [hip]
      exact below_swap_of_left hp hq (Nat.ne_of_gt hparent) (by omega) (Nat.ne_of_lt hgp) hup
    · have hiq : i ≠ parent p := by
        intro heq
        rw [heq] at hpi
        omega
      have hsibling : Below le l (parent p) i := hpi ▸ h.off i hi (by rw [hpi]; exact hsq) hip
      exact below_swap_ne hp hq (by omega) (Nat.ne_of_lt hgp) hip hiq (hup.through hle hq hsibling)

end Steps

theorem Rising.heapFrom_root (h : Rising le l s s) : HeapFrom le l s := by
  intro i hi hsi
  apply h.off i hi hsi
  unfold parent at hsi
  omega

theorem Rising.heapFrom (h : Rising le l s p) (hp : Below le l (parent p) p) : HeapFrom le l s := by
  intro i hi hsi
  by_cases hip : i = p
  · rw [hip]
    exact hp
  · exact h.off i hi hsi hip

theorem HeapFrom.sinking (h : HeapFrom le l (s + 1)) : Sinking le l s s :=
  ⟨fun i hi hsi _ hne => h i hi (by omega), fun hs => absurd hs (Nat.lt_irrefl s)⟩

/-- A child that is not below its sibling moves up. -/
theorem Sinking.step (h : Sinking le l s p) (hp : Under s p) (hc : 0 < c) (hpc : parent c = p) (hlt : c < l.length)
    (hsibling : ∀ i, 0 < i → parent i = p → i ≠ c → Below le l c i) : Sinking le (l.swap p c) s c := by
  have hpos : p < c := by
    rw [← hpc]
    unfold parent
    omega
  have hpl : p < l.length := Nat.lt_trans hpos hlt
  have hne : p ≠ c := Nat.ne_of_lt hpos
  have hsp := hp.le
  constructor
  · intro i hi hsi hic hparent
    by_cases hip : i = p
    · rw [hip] at hsi hi ⊢
      have hup : parent p < p := by
        unfold parent
        omega
      have hsp' : s < p := by omega
      exact below_swap_of_left hpl hlt hne (by omega) (by omega) (h.grand hsp' c hc hpc)
    · by_cases hpi : parent i = p
      · rw [hpi]
        exact below_swap_left hpl hlt hne hip hic (hsibling i hi hpi hic)
      · exact below_swap_ne hpl hlt hpi hparent hip hic (h.off i hi hsi hip hpi)
  · intro _ i hi hpi
    rw [hpc]
    have hci : c < i := by
      rw [← hpi]
      unfold parent
      omega
    have hchild : Below le l c i := hpi ▸ h.off i hi (by rw [hpi]; omega) (by omega) (by rw [hpi]; exact hne.symm)
    exact below_swap_left hpl hlt hne (by omega) (by omega) hchild

theorem Sinking.rising (h : Sinking le l s p) (hp : l.length ≤ 2 * p + 1) : Rising le l s p := by
  have hleaf {i : ℕ} (hpi : parent i = p) (hi : 0 < i) : l[i]? = none := by
    apply List.getElem?_eq_none
    unfold parent at hpi
    omega
  constructor
  · intro i hi hsi hip
    by_cases hpi : parent i = p
    · intro x _ y hy
      rw [hleaf hpi hi] at hy
      cases hy
    · exact h.off i hi hsi hip hpi
  · intro _ i hi hpi x _ y hy
    rw [hleaf hpi hi] at hy
    cases hy

theorem heapFrom_half (l : List α) : HeapFrom le l (l.length / 2) := by
  intro i hi hsi x _ y hy
  have hlt := (List.getElem?_eq_some_iff.mp hy).1
  unfold parent at hsi
  omega

/-- Nothing in a heap is above its root. -/
theorem HeapFrom.root_le (hle : TotalPreorder le) (h : HeapFrom le l 0) (i : ℕ) : Below le l 0 i := by
  induction i using Nat.strongRecOn with
  | ind i ih =>
    by_cases hi : i = 0
    · rw [hi]
      intro x hx y hy
      rw [hx] at hy
      rw [Option.some.inj hy]
      exact hle.refl y
    · have hparent : parent i < i := by
        unfold parent
        omega
      intro x hx y hy
      have hlt := (List.getElem?_eq_some_iff.mp hy).1
      exact (ih (parent i) hparent).through hle (Nat.lt_trans hparent hlt) (h i (by omega) (Nat.zero_le _)) x hx y hy

end WeavePy.HeapOrder
