import WeavePy.Lib.HeapOrder
import WeavePy.Heapq.Operations

/-!
Under comparisons that answer by a total preorder, the operations keep the heap and its contents.
-/

namespace WeavePy.Heapq

open Prog HeapOrder

variable {α σ ε : Type} {cmp : Comparison α σ ε} {le : α → α → Prop} {maxHeap : Bool}

/-- The comparison answers by the order, and leaves the list alone. -/
def Honest (cmp : Comparison α σ ε) (le : α → α → Prop) : Prop :=
  ∀ a b s, ∃ r w, cmp a b s = (.ok r, ⟨s.list, w⟩) ∧ (r = true ↔ ¬ le b a)

/-- The order of a heap, from its root down. -/
def order (le : α → α → Prop) (maxHeap : Bool) (x y : α) : Prop := if maxHeap then le y x else le x y

theorem order_preorder (h : TotalPreorder le) (maxHeap : Bool) : TotalPreorder (order le maxHeap) := by
  cases maxHeap with
  | false => exact h
  | true => exact h.flip

section Rules

variable {β : Type} {s : Heap α σ} {i j n pos startpos : ℕ} {R : HeapError ε → Heap α σ → Prop}

theorem wp_size {Q : ℕ → Heap α σ → Prop} (h : Q s.list.length s) : wp (size : Heaper α σ ε ℕ) Q R s := h

theorem wp_checkSize {Q : Unit → Heap α σ → Prop} (h : s.list.length = n) (hQ : Q () s) :
    wp (checkSize n : Heaper α σ ε Unit) Q R s := by
  unfold checkSize
  apply wp_bind
  apply wp_size
  rw [if_neg fun hne => hne h]
  exact wp_pure hQ

theorem wp_swap {Q : Unit → Heap α σ → Prop} (hi : i < s.list.length) (hj : j < s.list.length)
    (hQ : Q () { s with list := s.list.swap i j }) : wp (swap i j : Heaper α σ ε Unit) Q R s := by
  unfold wp swap
  rw [if_pos ⟨hi, hj⟩]
  exact hQ

theorem wp_heapLtIn {Q : Bool → Heap α σ → Prop} (hle : TotalPreorder le) (hcmp : Honest cmp le)
    (hi : i < s.list.length) (hj : j < s.list.length)
    (hQ : ∀ r w, (r = false → Below (order le maxHeap) s.list j i) → (r = true → Below (order le maxHeap) s.list i j) →
      Q r ⟨s.list, w⟩) : wp (heapLtIn cmp maxHeap i j) Q R s := by
  have htested {i j : ℕ} (hi : i < s.list.length) (hj : j < s.list.length)
      (h : ∀ r w, (r = true ↔ ¬ le s.list[j] s.list[i]) → Q r ⟨s.list, w⟩) : wp (heapLt cmp i j) Q R s := by
    obtain ⟨r, w, hr, hiff⟩ := hcmp s.list[i] s.list[j] s
    unfold wp heapLt
    rw [List.getElem?_eq_getElem hi, List.getElem?_eq_getElem hj]
    unfold opLt
    dsimp only
    rw [hr]
    exact h r w hiff
  have hbelow {i j : ℕ} (hi : i < s.list.length) (hj : j < s.list.length)
      (h : order le maxHeap s.list[i] s.list[j]) : Below (order le maxHeap) s.list i j := by
    intro x hx y hy
    rw [List.getElem?_eq_getElem hi] at hx
    rw [List.getElem?_eq_getElem hj] at hy
    cases hx
    cases hy
    exact h
  cases maxHeap with
  | false =>
    apply htested hi hj
    intro r w hiff
    apply hQ r w
    · intro hr
      apply hbelow hj hi
      by_contra hnot
      rw [hiff.mpr hnot] at hr
      cases hr
    · intro hr
      exact hbelow hi hj ((hle.total _ _).resolve_right (hiff.mp hr))
  | true =>
    apply htested hj hi
    intro r w hiff
    apply hQ r w
    · intro hr
      apply hbelow hj hi
      by_contra hnot
      rw [hiff.mpr hnot] at hr
      cases hr
    · intro hr
      exact hbelow hi hj ((hle.total _ _).resolve_right (hiff.mp hr))

end Rules

section Sifts

variable {s : Heap α σ} {i n pos startpos : ℕ}

theorem wp_siftdown (hle : TotalPreorder le) (hcmp : Honest cmp le) (hpos : pos < s.list.length)
    (hunder : Under startpos pos) (h : Rising (order le maxHeap) s.list startpos pos) :
    wp (siftdown cmp maxHeap startpos pos)
      (fun _ t => HeapFrom (order le maxHeap) t.list startpos ∧ t.list.Perm s.list) (fun _ _ => False) s := by
  unfold siftdown
  apply wp_bind
  apply wp_size
  rw [if_neg (Nat.not_le_of_lt hpos)]
  apply wp_loop
    (fun pos t => Rising (order le maxHeap) t.list startpos pos ∧ Under startpos pos ∧ pos < t.list.length ∧
      t.list.Perm s.list)
    (fun pos _ => pos) _ (Nat.lt_succ_self pos) ⟨h, hunder, hpos, .refl _⟩
  rintro pos t ⟨hrising, hunder, hlt, hperm⟩
  unfold siftdownStep
  apply wp_ite
  · intro hstart
    have hparent : (pos - 1) >>> 1 = parent pos := Nat.shiftRight_eq_div_pow _ 1
    have hparentLt : parent pos < pos := by
      unfold parent
      omega
    dsimp only
    rw [hparent]
    apply wp_bind
    apply wp_heapLtIn hle hcmp hlt (Nat.lt_trans hparentLt hlt)
    intro r w hfalse htrue
    apply wp_bind
    apply wp_checkSize (s := ⟨t.list, w⟩) hperm.length_eq
    cases r with
    | false => exact wp_pure ⟨hrising.heapFrom (hfalse rfl), hperm⟩
    | true =>
      apply wp_bind
      apply wp_swap (s := ⟨t.list, w⟩) hlt (Nat.lt_trans hparentLt hlt)
      apply wp_pure
      refine ⟨⟨?_, hunder.parent hstart, ?_, ?_⟩, hparentLt⟩
      · exact hrising.step (order_preorder hle maxHeap) hlt hunder hstart (htrue rfl)
      · rw [List.length_swap]
        exact Nat.lt_trans hparentLt hlt
      · exact (List.swap_perm _ _ _).trans hperm
  · intro hstart
    obtain rfl : pos = startpos := Nat.le_antisymm (Nat.le_of_not_lt hstart) hunder.le
    exact wp_pure ⟨hrising.heapFrom_root, hperm⟩

theorem wp_chooseChild {Q : ℕ → Heap α σ → Prop} {R : HeapError ε → Heap α σ → Prop} (hle : TotalPreorder le)
    (hcmp : Honest cmp le) (hpos : 2 * pos + 1 < s.list.length)
    (hQ : ∀ c w, 0 < c → parent c = pos → c < s.list.length →
      (∀ i, 0 < i → parent i = pos → i ≠ c → Below (order le maxHeap) s.list c i) → Q c ⟨s.list, w⟩) :
    wp (chooseChild cmp maxHeap s.list.length (2 * pos + 1)) Q R s := by
  have hchild {i : ℕ} (hi : 0 < i) (hp : parent i = pos) : i = 2 * pos + 1 ∨ i = 2 * pos + 1 + 1 := by
    unfold parent at hp
    omega
  unfold chooseChild
  apply wp_ite
  · intro hboth
    apply wp_bind
    apply wp_heapLtIn hle hcmp hpos hboth
    intro r w hfalse htrue
    apply wp_bind
    apply wp_checkSize (s := ⟨s.list, w⟩) rfl
    apply wp_pure
    cases r with
    | false =>
      apply hQ (2 * pos + 1 + 1) w (Nat.succ_pos _) (by unfold parent; omega) hboth
      intro i hi hp hne
      obtain rfl := (hchild hi hp).resolve_right hne
      exact hfalse rfl
    | true =>
      apply hQ (2 * pos + 1) w (Nat.succ_pos _) (by unfold parent; omega) hpos
      intro i hi hp hne
      obtain rfl := (hchild hi hp).resolve_left hne
      exact htrue rfl
  · intro hone
    apply wp_pure
    apply hQ (2 * pos + 1) s.world (Nat.succ_pos _) (by unfold parent; omega) hpos
    intro i hi hp hne x _ y hy
    have hlt := (List.getElem?_eq_some_iff.mp hy).1
    have := hchild hi hp
    omega

theorem wp_siftup (hle : TotalPreorder le) (hcmp : Honest cmp le) (hpos : pos < s.list.length)
    (h : HeapFrom (order le maxHeap) s.list (pos + 1)) :
    wp (siftup cmp maxHeap pos)
      (fun _ t => HeapFrom (order le maxHeap) t.list pos ∧ t.list.Perm s.list) (fun _ _ => False) s := by
  unfold siftup
  apply wp_bind
  apply wp_size
  rw [if_neg (Nat.not_le_of_lt hpos)]
  apply wp_seq
  · apply wp_loop (Q := fun p t => Rising (order le maxHeap) t.list pos p ∧ Under pos p ∧ p < t.list.length ∧
        t.list.Perm s.list)
      (fun p t => Sinking (order le maxHeap) t.list pos p ∧ Under pos p ∧ p < t.list.length ∧ t.list.Perm s.list)
      (fun p _ => s.list.length - p) _ (by omega) ⟨h.sinking, .root, hpos, .refl _⟩
    rintro p t ⟨hsinking, hunder, hlt, hperm⟩
    have hlen := hperm.length_eq
    have hlimit : s.list.length >>> 1 = s.list.length / 2 := Nat.shiftRight_eq_div_pow _ 1
    unfold siftupStep
    rw [hlimit, ← hlen]
    apply wp_ite
    · intro hchild
      apply wp_bind
      apply wp_chooseChild hle hcmp (by omega)
      intro c w hc hpc hclt hsibling
      have hpc' : p < c := by
        unfold parent at hpc
        omega
      apply wp_bind
      apply wp_swap (s := ⟨t.list, w⟩) hlt hclt
      apply wp_pure
      refine ⟨⟨?_, ?_, ?_, ?_⟩, ?_⟩
      · exact hsinking.step hunder hc hpc hclt hsibling
      · exact .child hc (Nat.lt_of_le_of_lt hunder.le hpc') (hpc ▸ hunder)
      · rw [List.length_swap]
        exact hclt
      · exact (List.swap_perm _ _ _).trans hperm
      · omega
    · intro hleaf
      exact wp_pure ⟨hsinking.rising (by omega), hunder, hlt, hperm⟩
  · rintro leaf t ⟨hrising, hunder, hlt, hperm⟩
    apply wp_mono (wp_siftdown hle hcmp hlt hunder hrising)
    · rintro _ u ⟨hheap, hperm'⟩
      exact ⟨hheap, hperm'.trans hperm⟩
    · intro _ _ h
      exact h

end Sifts

section Operations

variable {s : Heap α σ} {l l' : List α} {item x : α}

def IsHeap (le : α → α → Prop) (maxHeap : Bool) (l : List α) : Prop := HeapFrom (order le maxHeap) l 0

theorem isHeap_nil : IsHeap le maxHeap [] := by
  intro i _ _ x hx
  cases hx

/-- Past its root, a list that keeps what stands in a heap is one. -/
theorem IsHeap.past_root (h : IsHeap le maxHeap l) (hl : ∀ i : ℕ, 0 < i → ∀ x ∈ l'[i]?, x ∈ l[i]?) :
    HeapFrom (order le maxHeap) l' 1 := by
  intro i hi hparent x hx y hy
  exact h i hi (Nat.zero_le _) x (hl _ hparent x hx) y (hl i hi y hy)

theorem IsHeap.head_le (hle : TotalPreorder le) (h : IsHeap le maxHeap (x :: l)) :
    ∀ y ∈ x :: l, order le maxHeap x y := by
  intro y hy
  obtain ⟨i, hi, rfl⟩ := List.getElem_of_mem hy
  exact h.root_le (order_preorder hle maxHeap) i x rfl _ (List.getElem?_eq_getElem hi)

theorem wp_replaceRoot {Q : α → Heap α σ → Prop} {R : HeapError ε → Heap α σ → Prop} (hs : s.list = x :: l)
    (hQ : Q x { s with list := item :: l }) : wp (replaceRoot item : Heaper α σ ε α) Q R s := by
  unfold wp replaceRoot
  rw [hs]
  exact hQ

theorem wp_pop {Q : α → Heap α σ → Prop} {R : HeapError ε → Heap α σ → Prop} (hs : s.list = l ++ [x])
    (hQ : Q x { s with list := l }) : wp (pop : Heaper α σ ε α) Q R s := by
  unfold wp pop
  rw [hs, List.getLast?_concat, List.dropLast_concat]
  exact hQ

theorem wp_heapify (hle : TotalPreorder le) (hcmp : Honest cmp le) (s : Heap α σ) :
    wp (heapify cmp maxHeap) (fun _ t => IsHeap le maxHeap t.list ∧ t.list.Perm s.list) (fun _ _ => False) s := by
  have hall (n : ℕ) (t : Heap α σ) (hn : n ≤ t.list.length) (ht : HeapFrom (order le maxHeap) t.list n)
      (hperm : t.list.Perm s.list) :
      wp (siftAll cmp maxHeap n) (fun _ t => IsHeap le maxHeap t.list ∧ t.list.Perm s.list) (fun _ _ => False) t := by
    induction n generalizing t with
    | zero => exact wp_pure ⟨ht, hperm⟩
    | succ n ih =>
      apply wp_seq (wp_siftup hle hcmp hn ht)
      rintro _ u ⟨hu, hperm'⟩
      exact ih u (by rw [hperm'.length_eq]; exact Nat.le_of_succ_le hn) hu (hperm'.trans hperm)
  unfold heapify
  apply wp_bind
  apply wp_size
  exact hall _ s (Nat.div_le_self _ _) (heapFrom_half s.list) (.refl _)

theorem wp_heappush (hle : TotalPreorder le) (hcmp : Honest cmp le) (h : IsHeap le maxHeap s.list) (item : α) :
    wp (heappush cmp maxHeap item) (fun _ t => IsHeap le maxHeap t.list ∧ t.list.Perm (item :: s.list))
      (fun _ _ => False) s := by
  have hinside {i : ℕ} (hi : i ≠ s.list.length) : ∀ x ∈ (s.list ++ [item])[i]?, x ∈ s.list[i]? := by
    intro x hx
    by_cases hlt : i < s.list.length
    · rw [List.getElem?_append_left hlt] at hx
      exact hx
    · rw [List.getElem?_eq_none (by rw [List.length_append, List.length_singleton]; omega)] at hx
      cases hx
  unfold heappush
  apply wp_bind
  apply wp_modify
  apply wp_bind
  apply wp_size
  dsimp only
  rw [List.length_append, List.length_singleton, Nat.add_sub_cancel]
  apply wp_mono (wp_siftdown hle hcmp _ (under_zero _) _)
  · rintro _ t ⟨hheap, hperm⟩
    exact ⟨hheap, hperm.trans (List.perm_append_singleton item s.list)⟩
  · intro _ _ h
    exact h
  · dsimp only
    rw [List.length_append]
    exact Nat.lt_succ_self _
  · constructor
    · intro i hi _ hne x hx y hy
      have hlt := (List.getElem?_eq_some_iff.mp hy).1
      have hparent : parent i ≠ s.list.length := by
        dsimp only at hlt
        rw [List.length_append, List.length_singleton] at hlt
        unfold parent
        omega
      exact h i hi (Nat.zero_le _) x (hinside hparent x hx) y (hinside hne y hy)
    · intro _ i hi hp x _ y hy
      have hlt := (List.getElem?_eq_some_iff.mp hy).1
      dsimp only at hlt
      rw [List.length_append, List.length_singleton] at hlt
      unfold parent at hp
      omega

/-- A new root is sifted in below the rest of a heap. -/
theorem wp_siftup_root (hle : TotalPreorder le) (hcmp : Honest cmp le) (h : IsHeap le maxHeap (x :: l))
    (hl : ∀ i : ℕ, ∀ y ∈ l'[i]?, y ∈ l[i]?) {w : σ} {Q : Unit → Heap α σ → Prop}
    (hQ : ∀ t : Heap α σ, IsHeap le maxHeap t.list → t.list.Perm (item :: l') → Q () t) :
    wp (siftup cmp maxHeap 0) Q (fun _ _ => False) ⟨item :: l', w⟩ := by
  apply wp_mono (wp_siftup hle hcmp (Nat.succ_pos _) _)
  · rintro _ t ⟨hheap, hperm⟩
    exact hQ t hheap hperm
  · intro _ _ h
    exact h
  · apply h.past_root
    intro i hi
    obtain ⟨j, rfl⟩ := Nat.exists_eq_succ_of_ne_zero (Nat.ne_of_gt hi)
    exact hl j

theorem wp_heappop (hle : TotalPreorder le) (hcmp : Honest cmp le) (h : IsHeap le maxHeap s.list) (hne : s.list ≠ []) :
    wp (heappop cmp maxHeap) (fun r t => IsHeap le maxHeap t.list ∧ (r :: t.list).Perm s.list ∧
      ∀ y ∈ s.list, order le maxHeap r y) (fun _ _ => False) s := by
  obtain ⟨front, last, hlist⟩ := (List.eq_nil_or_concat' s.list).resolve_left hne
  rw [hlist] at h ⊢
  unfold heappop
  apply wp_bind
  apply wp_pop hlist
  apply wp_bind
  apply wp_size
  dsimp only
  cases front with
  | nil =>
    apply wp_pure
    refine ⟨isHeap_nil, .refl _, ?_⟩
    intro y hy
    rw [List.nil_append, List.mem_singleton] at hy
    rw [hy]
    exact (order_preorder hle maxHeap).refl _
  | cons x l =>
    rw [List.length_cons, if_neg (Nat.succ_ne_zero _)]
    apply wp_bind
    apply wp_replaceRoot (s := ⟨x :: l, s.world⟩) rfl
    apply wp_bind
    apply wp_siftup_root hle hcmp h
    · intro i y hy
      rw [List.append_eq, List.getElem?_append_left (List.getElem?_eq_some_iff.mp hy).1]
      exact hy
    · intro t hheap hperm
      apply wp_pure
      exact ⟨hheap, (hperm.trans (List.perm_append_singleton _ l).symm).cons x, h.head_le hle⟩

theorem wp_heapreplace (hle : TotalPreorder le) (hcmp : Honest cmp le) (h : IsHeap le maxHeap s.list)
    (hne : s.list ≠ []) (item : α) :
    wp (heapreplace cmp maxHeap item) (fun r t => IsHeap le maxHeap t.list ∧ (r :: t.list).Perm (item :: s.list) ∧
      ∀ y ∈ s.list, order le maxHeap r y) (fun _ _ => False) s := by
  cases hl : s.list with
  | nil => exact absurd hl hne
  | cons x l =>
    rw [hl] at h
    unfold heapreplace
    apply wp_bind
    apply wp_size
    rw [hl, List.length_cons, if_neg (Nat.succ_ne_zero _)]
    apply wp_bind
    apply wp_replaceRoot hl
    apply wp_bind
    apply wp_siftup_root hle hcmp h (fun _ _ hy => hy)
    intro t hheap hperm
    exact wp_pure ⟨hheap, (hperm.cons x).trans (.swap _ _ _), h.head_le hle⟩

theorem wp_opLtIn {Q : Bool → Heap α σ → Prop} {R : HeapError ε → Heap α σ → Prop} (hle : TotalPreorder le)
    (hcmp : Honest cmp le) (a b : α)
    (hQ : ∀ r w, (r = false → order le maxHeap b a) → (r = true → order le maxHeap a b) → Q r ⟨s.list, w⟩) :
    wp (opLtIn cmp maxHeap a b) Q R s := by
  have htested (a b : α) (h : ∀ r w, (r = true ↔ ¬ le b a) → Q r ⟨s.list, w⟩) : wp (opLt cmp a b) Q R s := by
    obtain ⟨r, w, hr, hiff⟩ := hcmp a b s
    unfold wp opLt
    rw [hr]
    exact h r w hiff
  cases maxHeap with
  | false =>
    apply htested a b
    intro r w hiff
    apply hQ r w
    · intro hr
      by_contra hnot
      rw [hiff.mpr hnot] at hr
      cases hr
    · intro hr
      exact (hle.total a b).resolve_right (hiff.mp hr)
  | true =>
    apply htested b a
    intro r w hiff
    apply hQ r w
    · intro hr
      by_contra hnot
      rw [hiff.mpr hnot] at hr
      cases hr
    · intro hr
      exact (hle.total b a).resolve_right (hiff.mp hr)

theorem wp_heappushpop (hle : TotalPreorder le) (hcmp : Honest cmp le) (h : IsHeap le maxHeap s.list) (item : α) :
    wp (heappushpop cmp maxHeap item) (fun r t => IsHeap le maxHeap t.list ∧ (r :: t.list).Perm (item :: s.list) ∧
      ∀ y ∈ item :: s.list, order le maxHeap r y) (fun _ _ => False) s := by
  have hord := order_preorder hle maxHeap
  unfold heappushpop
  apply wp_bind
  apply wp_gets
  cases hl : s.list with
  | nil =>
    apply wp_pure
    rw [hl]
    refine ⟨isHeap_nil, .refl _, ?_⟩
    intro y hy
    rw [List.mem_singleton] at hy
    rw [hy]
    exact hord.refl item
  | cons x l =>
    rw [hl] at h
    have hroot := h.head_le hle
    dsimp only [List.head?_cons]
    apply wp_bind
    apply wp_opLtIn hle hcmp x item
    intro r w hfalse htrue
    rw [hl]
    unfold replaceIf
    cases r with
    | false =>
      apply wp_pure
      refine ⟨h, .refl _, List.forall_mem_cons.mpr ⟨hord.refl item, ?_⟩⟩
      intro y hy
      exact hord.trans (hfalse rfl) (hroot y hy)
    | true =>
      apply wp_bind
      apply wp_size
      rw [List.length_cons, if_neg (Nat.succ_ne_zero _)]
      apply wp_bind
      apply wp_replaceRoot (s := ⟨x :: l, w⟩) rfl
      apply wp_bind
      apply wp_siftup_root hle hcmp h (fun _ _ hy => hy)
      intro t hheap hperm
      apply wp_pure
      exact ⟨hheap, (hperm.cons x).trans (.swap _ _ _), List.forall_mem_cons.mpr ⟨htrue rfl, hroot⟩⟩

end Operations

section Runs

variable (cmp maxHeap)

inductive Op (α : Type) where
  | heapify
  | heappush (item : α)
  | heappop
  | heapreplace (item : α)
  | heappushpop (item : α)

/-- An operation, its item or its error handed on. -/
def perform : Op α → Heaper α σ ε (Except (HeapError ε) (Option α))
  | .heapify => Prog.attempt (do heapify cmp maxHeap; pure none)
  | .heappush item => Prog.attempt (do heappush cmp maxHeap item; pure none)
  | .heappop => Prog.attempt (do let r ← heappop cmp maxHeap; pure (some r))
  | .heapreplace item => Prog.attempt (do let r ← heapreplace cmp maxHeap item; pure (some r))
  | .heappushpop item => Prog.attempt (do let r ← heappushpop cmp maxHeap item; pure (some r))

def performAll : List (Op α) → Heaper α σ ε Unit
  | [] => pure ()
  | op :: ops => do
    let _ ← perform cmp maxHeap op
    performAll ops

/-- So many items are popped. -/
def popEach : ℕ → Heaper α σ ε (List α)
  | 0 => pure []
  | n + 1 => do
    let x ← heappop cmp maxHeap
    let xs ← popEach n
    pure (x :: xs)

def popAll : Heaper α σ ε (List α) := do
  let n ← size
  popEach cmp maxHeap n

variable {cmp maxHeap} {s : Heap α σ} {R : HeapError ε → Heap α σ → Prop}

theorem wp_attempt {β E' : Type} {m : Heaper α σ ε β} {Q : Except (HeapError ε) β → Heap α σ → Prop}
    {R : E' → Heap α σ → Prop} (h : wp m (fun a => Q (.ok a)) (fun e => Q (.error e)) s) :
    wp (Prog.attempt m) Q R s := by
  unfold wp Prog.attempt at *
  cases hr : m s with
  | error x =>
    rw [hr] at h
    exact h
  | ok p =>
    obtain ⟨r, t⟩ := p
    rw [hr] at h
    cases r with
    | error e => exact h
    | ok a => exact h

theorem wp_perform (hle : TotalPreorder le) (hcmp : Honest cmp le) (h : IsHeap le maxHeap s.list) (op : Op α) :
    wp (perform cmp maxHeap op) (fun _ t => IsHeap le maxHeap t.list) R s := by
  -- without a root, the two operations that take it fail at once
  have hempty (hnil : s.list = []) :
      wp (heappop cmp maxHeap) (fun _ t => IsHeap le maxHeap t.list) (fun _ t => IsHeap le maxHeap t.list) s := by
    unfold heappop
    apply wp_bind
    unfold wp pop
    rw [hnil]
    exact h
  have hempty' (hnil : s.list = []) (item : α) :
      wp (heapreplace cmp maxHeap item) (fun _ t => IsHeap le maxHeap t.list) (fun _ t => IsHeap le maxHeap t.list)
        s := by
    unfold heapreplace
    apply wp_bind
    apply wp_size
    rw [hnil]
    exact h
  cases op with
  | heapify =>
    apply wp_attempt
    apply wp_seq (wp_mono (wp_heapify hle hcmp s) (fun _ _ h => h) fun _ _ h => h.elim)
    exact fun _ t ht => wp_pure ht.1
  | heappush item =>
    apply wp_attempt
    apply wp_seq (wp_mono (wp_heappush hle hcmp h item) (fun _ _ h => h) fun _ _ h => h.elim)
    exact fun _ t ht => wp_pure ht.1
  | heappop =>
    apply wp_attempt
    by_cases hnil : s.list = []
    · apply wp_seq (hempty hnil)
      exact fun _ t ht => wp_pure ht
    · apply wp_seq (wp_mono (wp_heappop hle hcmp h hnil) (fun _ _ h => h) fun _ _ h => h.elim)
      exact fun _ t ht => wp_pure ht.1
  | heapreplace item =>
    apply wp_attempt
    by_cases hnil : s.list = []
    · apply wp_seq (hempty' hnil item)
      exact fun _ t ht => wp_pure ht
    · apply wp_seq (wp_mono (wp_heapreplace hle hcmp h hnil item) (fun _ _ h => h) fun _ _ h => h.elim)
      exact fun _ t ht => wp_pure ht.1
  | heappushpop item =>
    apply wp_attempt
    apply wp_seq (wp_mono (wp_heappushpop hle hcmp h item) (fun _ _ h => h) fun _ _ h => h.elim)
    exact fun _ t ht => wp_pure ht.1

theorem wp_performAll (hle : TotalPreorder le) (hcmp : Honest cmp le) (ops : List (Op α)) (s : Heap α σ)
    (h : IsHeap le maxHeap s.list) :
    wp (performAll cmp maxHeap ops) (fun _ t => IsHeap le maxHeap t.list) R s := by
  induction ops generalizing s with
  | nil => exact wp_pure h
  | cons op ops ih =>
    apply wp_seq (wp_perform hle hcmp h op)
    intro _ t ht
    exact ih t ht

theorem wp_popEach (hle : TotalPreorder le) (hcmp : Honest cmp le) (n : ℕ) (s : Heap α σ) (hn : s.list.length = n)
    (h : IsHeap le maxHeap s.list) :
    wp (popEach cmp maxHeap n) (fun xs t => t.list = [] ∧ xs.Perm s.list ∧ xs.Pairwise (order le maxHeap))
      (fun _ _ => False) s := by
  induction n generalizing s with
  | zero =>
    have hnil := List.length_eq_zero_iff.mp hn
    apply wp_pure
    rw [hnil]
    exact ⟨rfl, .refl _, .nil⟩
  | succ n ih =>
    have hne : s.list ≠ [] := by
      intro hnil
      rw [hnil] at hn
      cases hn
    apply wp_seq (wp_heappop hle hcmp h hne)
    rintro x t ⟨hheap, hperm, hleast⟩
    have hlen := hperm.length_eq
    rw [List.length_cons, hn] at hlen
    apply wp_seq (ih t (Nat.succ.inj hlen) hheap)
    rintro xs u ⟨hnil, hxs, hsorted⟩
    apply wp_pure
    refine ⟨hnil, (hxs.cons x).trans hperm, List.pairwise_cons.mpr ⟨?_, hsorted⟩⟩
    intro y hy
    exact hleast y (hperm.mem_iff.mp (List.mem_cons_of_mem x (hxs.mem_iff.mp hy)))

/-- `heapify` makes a heap of any list; the other operations keep it, and give back an extreme of it; and popping
until it is empty gives its contents in order, whatever was done to it before. -/
theorem heap_operations (hle : TotalPreorder le) (hcmp : Honest cmp le) (maxHeap : Bool) (s : Heap α σ) :
    wp (heapify cmp maxHeap) (fun _ t => IsHeap le maxHeap t.list ∧ t.list.Perm s.list) (fun _ _ => False) s ∧
    (IsHeap le maxHeap s.list →
      (∀ item, wp (heappush cmp maxHeap item) (fun _ t => IsHeap le maxHeap t.list ∧ t.list.Perm (item :: s.list))
        (fun _ _ => False) s) ∧
      (s.list ≠ [] → wp (heappop cmp maxHeap) (fun r t => IsHeap le maxHeap t.list ∧ (r :: t.list).Perm s.list ∧
        ∀ y ∈ s.list, order le maxHeap r y) (fun _ _ => False) s) ∧
      (s.list ≠ [] → ∀ item, wp (heapreplace cmp maxHeap item) (fun r t => IsHeap le maxHeap t.list ∧
        (r :: t.list).Perm (item :: s.list) ∧ ∀ y ∈ s.list, order le maxHeap r y) (fun _ _ => False) s) ∧
      (∀ item, wp (heappushpop cmp maxHeap item) (fun r t => IsHeap le maxHeap t.list ∧
        (r :: t.list).Perm (item :: s.list) ∧ ∀ y ∈ item :: s.list, order le maxHeap r y) (fun _ _ => False) s) ∧
      ∀ ops, wp (performAll cmp maxHeap ops) (fun _ t => IsHeap le maxHeap t.list ∧
        wp (popAll cmp maxHeap) (fun xs u => u.list = [] ∧ xs.Perm t.list ∧ xs.Pairwise (order le maxHeap))
          (fun _ _ => False) t) (fun _ _ => False) s) := by
  refine ⟨wp_heapify hle hcmp s, fun h => ⟨wp_heappush hle hcmp h, wp_heappop hle hcmp h, wp_heapreplace hle hcmp h,
    wp_heappushpop hle hcmp h, ?_⟩⟩
  intro ops
  apply wp_mono (wp_performAll hle hcmp ops s h)
  · intro _ t ht
    apply And.intro ht
    unfold popAll
    apply wp_bind
    apply wp_size
    exact wp_popEach hle hcmp t.list.length t rfl ht
  · intro _ _ h
    exact h

end Runs

def natLess : Comparison ℕ Unit Unit := fun a b s => (.ok (a < b), s)

theorem three_operations :
    wp (heapify natLess true) (fun _ t => IsHeap (· ≤ ·) true t.list ∧ t.list.Perm [1, 3, 2]) (fun _ _ => False)
      ⟨[1, 3, 2], ()⟩ ∧
    wp (heappop natLess false) (fun r t => IsHeap (· ≤ ·) false t.list ∧ (r :: t.list).Perm [1, 3, 2] ∧
      ∀ y ∈ [1, 3, 2], order (· ≤ ·) false r y) (fun _ _ => False) ⟨[1, 3, 2], ()⟩ := by
  have hle : TotalPreorder ((· ≤ ·) : ℕ → ℕ → Prop) := ⟨Nat.le_total, Nat.le_trans⟩
  have hcmp : Honest natLess (· ≤ ·) := by
    intro a b s
    refine ⟨_, _, rfl, ?_⟩
    rw [decide_eq_true_iff, Nat.not_le]
  have hheap : IsHeap (· ≤ ·) false [1, 3, 2] := by
    intro i hi _ x hx y hy
    have hlt : i < 3 := (List.getElem?_eq_some_iff.mp hy).1
    obtain rfl | rfl : i = 1 ∨ i = 2 := by omega
    · cases hx
      cases hy
      exact (by decide : 1 ≤ 3)
    · cases hx
      cases hy
      exact (by decide : 1 ≤ 2)
  exact ⟨(heap_operations hle hcmp true ⟨[1, 3, 2], ()⟩).1,
    ((heap_operations hle hcmp false ⟨[1, 3, 2], ()⟩).2 hheap).2.1 nofun⟩

end WeavePy.Heapq
