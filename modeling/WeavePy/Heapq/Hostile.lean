import Mathlib.Data.List.Perm.Basic
import WeavePy.Heapq.Operations

/-!
Under comparisons that do as they please, no step is out of range, a changed length ends a sift, and elements are
only moved.
-/

namespace WeavePy.Heapq

open Prog

variable {α σ ε : Type} {cmp : Comparison α σ ε} {maxHeap : Bool} {inv bad : Heap α σ → Prop}

/-- What a sift keeps: `inv` past comparisons that leave the length and past exchanges, and `bad` where it fails. -/
structure Stable (cmp : Comparison α σ ε) (inv bad : Heap α σ → Prop) : Prop where
  compare : ∀ a b s, inv s → ((cmp a b s).2.list.length = s.list.length → inv (cmp a b s).2) ∧ bad (cmp a b s).2
  swap : ∀ s i j, inv s → inv { s with list := s.list.swap i j }
  weaken : ∀ s, inv s → bad s

section Sifts

variable {s : Heap α σ} {i j n pos startpos : ℕ}

theorem wp_heapLtIn_stable (h : Stable cmp inv bad) (hs : inv s) (hi : i < s.list.length) (hj : j < s.list.length)
    {Q : Bool → Heap α σ → Prop} (hQ : ∀ r t, (t.list.length = s.list.length → inv t) → bad t → Q r t) :
    wp (heapLtIn cmp maxHeap i j) Q (fun _ t => bad t) s := by
  have hone {i j : ℕ} (hi : i < s.list.length) (hj : j < s.list.length) :
      wp (heapLt cmp i j) Q (fun _ t => bad t) s := by
    obtain ⟨hinv, hbad⟩ := h.compare s.list[i] s.list[j] s hs
    unfold wp heapLt
    rw [List.getElem?_eq_getElem hi, List.getElem?_eq_getElem hj]
    unfold opLt
    dsimp only
    cases (cmp s.list[i] s.list[j] s).1 with
    | error e => exact hbad
    | ok r => exact hQ r _ hinv hbad
  cases maxHeap with
  | false => exact hone hi hj
  | true => exact hone hj hi

theorem wp_checkSize_stable {Q : Unit → Heap α σ → Prop} (hbad : bad s) (hQ : s.list.length = n → Q () s) :
    wp (checkSize n : Heaper α σ ε Unit) Q (fun _ t => bad t) s := by
  unfold checkSize
  apply wp_bind
  apply wp_gets
  apply wp_ite
  · intro _
    exact hbad
  · intro hsame
    exact wp_pure (hQ (not_not.mp hsame))

theorem wp_swap_stable (h : Stable cmp inv bad) (hs : inv s) (hi : i < s.list.length) (hj : j < s.list.length)
    {Q : Unit → Heap α σ → Prop} {R : HeapError ε → Heap α σ → Prop}
    (hQ : ∀ t, inv t → t.list.length = s.list.length → Q () t) : wp (Heapq.swap i j) Q R s := by
  unfold wp Heapq.swap
  rw [if_pos ⟨hi, hj⟩]
  exact hQ _ (h.swap s i j hs) List.length_swap

theorem wp_siftdown_stable (h : Stable cmp inv bad) (hs : inv s) :
    wp (siftdown cmp maxHeap startpos pos) (fun _ t => inv t ∧ t.list.length = s.list.length) (fun _ t => bad t) s := by
  unfold siftdown
  apply wp_bind
  apply wp_gets
  apply wp_ite
  · intro _
    exact h.weaken s hs
  · intro hpos
    apply wp_loop (fun pos t => inv t ∧ pos < s.list.length ∧ t.list.length = s.list.length) (fun pos _ => pos) _
      (Nat.lt_succ_self pos) ⟨hs, Nat.lt_of_not_le hpos, rfl⟩
    rintro pos t ⟨ht, hlt, hlen⟩
    have hparent : (pos - 1) >>> 1 = (pos - 1) / 2 := Nat.shiftRight_eq_div_pow _ 1
    unfold siftdownStep
    apply wp_ite
    · intro hstart
      dsimp only
      rw [hparent]
      apply wp_bind
      apply wp_heapLtIn_stable h ht (by omega) (by omega)
      intro r u hu hbad
      apply wp_bind
      apply wp_checkSize_stable hbad
      intro hlen'
      have hu' := hu (by omega)
      cases r with
      | false => exact wp_pure ⟨hu', hlen'⟩
      | true =>
        apply wp_bind
        apply wp_swap_stable h hu' (by omega) (by omega)
        intro v hv hlen''
        apply wp_pure
        exact ⟨⟨hv, by omega, by omega⟩, by omega⟩
    · intro _
      exact wp_pure ⟨ht, hlen⟩

theorem wp_chooseChild_stable (h : Stable cmp inv bad) (hs : inv s) (hn : s.list.length = n) (hpos : pos < n)
    {Q : ℕ → Heap α σ → Prop}
    (hQ : ∀ c t, inv t → t.list.length = n → pos ≤ c → c < n → Q c t) :
    wp (chooseChild cmp maxHeap n pos) Q (fun _ t => bad t) s := by
  unfold chooseChild
  apply wp_ite
  · intro hboth
    apply wp_bind
    apply wp_heapLtIn_stable h hs (by omega) (by omega)
    intro r t ht hbad
    apply wp_bind
    apply wp_checkSize_stable hbad
    intro hlen
    apply wp_pure
    cases r with
    | false => exact hQ _ t (ht (by omega)) hlen (Nat.le_succ pos) hboth
    | true => exact hQ _ t (ht (by omega)) hlen (Nat.le_refl pos) hpos
  · intro _
    exact wp_pure (hQ pos s hs hn (Nat.le_refl pos) hpos)

theorem wp_siftup_stable (h : Stable cmp inv bad) (hs : inv s) :
    wp (siftup cmp maxHeap pos) (fun _ t => inv t ∧ t.list.length = s.list.length) (fun _ t => bad t) s := by
  unfold siftup
  apply wp_bind
  apply wp_gets
  apply wp_ite
  · intro _
    exact h.weaken s hs
  · intro hpos
    apply wp_seq
    · apply wp_loop (Q := fun _ t => inv t ∧ t.list.length = s.list.length)
        (fun p t => inv t ∧ p < s.list.length ∧ t.list.length = s.list.length) (fun p _ => s.list.length - p) _
        (by omega) ⟨hs, Nat.lt_of_not_le hpos, rfl⟩
      rintro p t ⟨ht, hlt, hlen⟩
      have hlimit : s.list.length >>> 1 = s.list.length / 2 := Nat.shiftRight_eq_div_pow _ 1
      unfold siftupStep
      rw [hlimit]
      apply wp_ite
      · intro hchild
        apply wp_bind
        apply wp_chooseChild_stable h ht hlen (by omega)
        intro c u hu hlen' hle hc
        apply wp_bind
        apply wp_swap_stable h hu (by omega) (by omega)
        intro v hv hlen''
        apply wp_pure
        exact ⟨⟨hv, hc, by omega⟩, by omega⟩
      · intro _
        exact wp_pure ⟨ht, hlen⟩
    · rintro leaf t ⟨ht, hlen⟩
      apply wp_mono (wp_siftdown_stable h ht)
      · rintro _ u ⟨hu, hlen'⟩
        exact ⟨hu, hlen'.trans hlen⟩
      · intro _ _ hbad
        exact hbad

end Sifts

section Operations

variable {s : Heap α σ} {item : α}

theorem wp_heapify_stable (h : Stable cmp inv bad) (hs : inv s) :
    wp (heapify cmp maxHeap) (fun _ t => inv t) (fun _ t => bad t) s := by
  have hall (n : ℕ) (t : Heap α σ) (ht : inv t) :
      wp (siftAll cmp maxHeap n) (fun _ t => inv t) (fun _ t => bad t) t := by
    induction n generalizing t with
    | zero => exact wp_pure ht
    | succ n ih =>
      apply wp_seq (wp_siftup_stable h ht)
      intro _ u hu
      exact ih u hu.1
  unfold heapify
  apply wp_bind
  apply wp_gets
  exact hall _ s hs

theorem wp_heappush_stable (h : Stable cmp inv bad) (hs : inv { s with list := s.list ++ [item] }) :
    wp (heappush cmp maxHeap item) (fun _ t => inv t) (fun _ t => bad t) s := by
  unfold heappush
  apply wp_bind
  apply wp_modify
  apply wp_bind
  apply wp_gets
  apply wp_mono (wp_siftdown_stable h hs)
  · intro _ t ht
    exact ht.1
  · intro _ _ hbad
    exact hbad

/-- A new root is put in, and sifted. -/
theorem wp_replace_stable (h : Stable cmp inv bad)
    (hs : ∀ x l, s.list = x :: l → inv { s with list := item :: l }) (hne : s.list ≠ []) :
    wp (do let returnitem ← replaceRoot item; siftup cmp maxHeap 0; pure returnitem)
      (fun r t => s.list.head? = some r ∧ inv t) (fun _ t => bad t) s := by
  cases hl : s.list with
  | nil => exact absurd hl hne
  | cons x l =>
    apply wp_bind
    unfold wp replaceRoot
    rw [hl]
    change wp (siftup cmp maxHeap 0 >>= fun _ => pure x) _ _ _
    apply wp_seq (wp_siftup_stable h (hs x l hl))
    intro _ t ht
    exact wp_pure ⟨rfl, ht.1⟩

theorem wp_heappop_stable (h : Stable cmp inv bad)
    (hs : ∀ x l last, s.list = x :: l ++ [last] → inv { s with list := last :: l }) :
    wp (heappop cmp maxHeap)
      (fun r t => s.list = [r] ∧ t = { s with list := [] } ∨ s.list.head? = some r ∧ inv t)
      (fun _ t => t = s ∨ bad t) s := by
  unfold heappop
  apply wp_bind
  unfold wp pop
  obtain hnil | ⟨front, last, hlist⟩ := List.eq_nil_or_concat' s.list
  · rw [hnil]
    exact .inl rfl
  · rw [hlist, List.getLast?_concat, List.dropLast_concat]
    change wp (size >>= _) _ _ _
    apply wp_bind
    apply wp_gets
    cases front with
    | nil => exact wp_pure (.inl ⟨rfl, rfl⟩)
    | cons x l =>
      dsimp only
      rw [List.length_cons, if_neg (Nat.succ_ne_zero _)]
      have hreplaced : ∀ y l', x :: l = y :: l' → inv { s with list := last :: l' } := by
        intro y l' heq
        apply hs y l' last
        rw [hlist, heq]
      apply wp_mono (wp_replace_stable (s := ⟨x :: l, s.world⟩) h hreplaced nofun)
      · rintro r t ⟨hr, ht⟩
        exact .inr ⟨hr, ht⟩
      · intro _ _ hbad
        exact .inr hbad

theorem wp_heapreplace_stable (h : Stable cmp inv bad)
    (hs : ∀ x l, s.list = x :: l → inv { s with list := item :: l }) :
    wp (heapreplace cmp maxHeap item) (fun r t => s.list.head? = some r ∧ inv t) (fun _ t => t = s ∨ bad t) s := by
  unfold heapreplace
  apply wp_bind
  apply wp_gets
  apply wp_ite
  · intro _
    exact .inl rfl
  · intro hlen
    apply wp_mono (wp_replace_stable h hs fun hnil => hlen (by rw [hnil]; rfl))
    · intro _ _ ht
      exact ht
    · intro _ _ hbad
      exact .inr hbad

/-- Past its first comparison, which left `s`. -/
theorem wp_replaceIf_stable (h : Stable cmp inv bad)
    (hs : ∀ x l, s.list = x :: l → inv { s with list := item :: l }) (replace : Bool) :
    wp (replaceIf cmp maxHeap item replace) (fun r t => r = item ∧ t = s ∨ s.list.head? = some r ∧ inv t)
      (fun _ t => t = s ∨ bad t) s := by
  unfold replaceIf
  apply wp_ite
  · intro _
    exact wp_pure (.inl ⟨rfl, rfl⟩)
  · intro _
    apply wp_bind
    apply wp_gets
    apply wp_ite
    · intro _
      exact .inl rfl
    · intro hlen
      apply wp_mono (wp_replace_stable h hs fun hnil => hlen (by rw [hnil]; rfl))
      · intro _ _ ht
        exact .inr ht
      · intro _ _ hbad
        exact .inr hbad

theorem wp_heappushpop_stable {Q : α → Heap α σ → Prop} {R : HeapError ε → Heap α σ → Prop}
    (hnil : s.list = [] → Q item s)
    (hcompared : ∀ a b, (∀ e, (cmp a b s).1 = .error e → R (.raised e) (cmp a b s).2) ∧
      ∀ replace, wp (replaceIf cmp maxHeap item replace) Q R (cmp a b s).2) :
    wp (heappushpop cmp maxHeap item) Q R s := by
  have hone (a b : α) : wp (opLt cmp a b) (fun replace t => wp (replaceIf cmp maxHeap item replace) Q R t) R s := by
    obtain ⟨herror, hok⟩ := hcompared a b
    unfold wp opLt
    dsimp only
    cases hr : (cmp a b s).1 with
    | error e => exact herror e hr
    | ok r => exact hok r
  unfold heappushpop
  apply wp_bind
  apply wp_gets
  cases hl : s.list with
  | nil => exact wp_pure (hnil hl)
  | cons x l =>
    apply wp_bind
    cases maxHeap with
    | false => exact hone x item
    | true => exact hone item x

end Operations

section Safety

variable (cmp) (maxHeap) (s : Heap α σ) (item : α)

theorem stable_true : Stable cmp (fun _ => True) (fun _ => True) :=
  ⟨fun _ _ _ _ => ⟨fun _ => trivial, trivial⟩, fun _ _ _ _ => trivial, fun _ _ => trivial⟩

/-- No operation indexes the list out of range, or goes on for ever. -/
def Safe {β : Type} (m : Heaper α σ ε β) : Prop := ∀ s, wp m (fun _ _ => True) (fun _ _ => True) s

variable {cmp maxHeap item}

theorem safe_heapify : Safe (heapify cmp maxHeap) := fun _ => wp_heapify_stable (stable_true cmp) trivial

theorem safe_heappush : Safe (heappush cmp maxHeap item) := fun _ => wp_heappush_stable (stable_true cmp) trivial

theorem safe_heappop : Safe (heappop cmp maxHeap) := fun s =>
  wp_mono (wp_heappop_stable (s := s) (stable_true cmp) fun _ _ _ _ => trivial) (fun _ _ _ => trivial)
    fun _ _ _ => trivial

theorem safe_heapreplace : Safe (heapreplace cmp maxHeap item) := fun s =>
  wp_mono (wp_heapreplace_stable (s := s) (stable_true cmp) fun _ _ _ => trivial) (fun _ _ _ => trivial)
    fun _ _ _ => trivial

theorem safe_heappushpop : Safe (heappushpop cmp maxHeap item) := by
  intro s
  apply wp_heappushpop_stable
  · intro _
    trivial
  · intro a b
    refine ⟨fun _ _ => trivial, fun replace => ?_⟩
    exact wp_mono (wp_replaceIf_stable (stable_true cmp) (fun _ _ _ => trivial) replace) (fun _ _ _ => trivial)
      fun _ _ _ => trivial

end Safety

section Watch

/-- What was seen of a comparison's calls: their number, and the list one of them left with another length. -/
structure Watch (α : Type) where
  calls : ℕ
  changed : Option (List α)

/-- The comparison under a watch that begins after `skip` calls: the list is recorded the first time that its
length changes. -/
def watched (skip : ℕ) (cmp : Comparison α σ ε) : Comparison α (σ × Watch α) ε := fun a b s =>
  let (r, t) := cmp a b ⟨s.list, s.world.1⟩
  let changed := if skip ≤ s.world.2.calls ∧ s.world.2.changed = none ∧ t.list.length ≠ s.list.length then some t.list
    else s.world.2.changed
  (r, ⟨t.list, t.world, s.world.2.calls + 1, changed⟩)

/-- A watch that has seen nothing. -/
def Heap.watch (s : Heap α σ) : Heap α (σ × Watch α) := ⟨s.list, s.world, 0, none⟩

/-- No comparison changed the length. -/
def Quiet (s : Heap α (σ × Watch α)) : Prop := s.world.2.changed = none

/-- The list is as it was left when its length changed. -/
def Kept (s : Heap α (σ × Watch α)) : Prop := ∀ l ∈ s.world.2.changed, s.list = l

variable {skip : ℕ} {s : Heap α σ} {item : α}

theorem Quiet.kept {t : Heap α (σ × Watch α)} (h : Quiet t) : Kept t := by
  intro l hl
  rw [h] at hl
  cases hl

theorem stable_watched (skip : ℕ) (cmp : Comparison α σ ε) :
    Stable (watched skip cmp) (fun t => Quiet t ∧ skip ≤ t.world.2.calls) Kept := by
  constructor
  · rintro a b t ⟨hquiet, hskip⟩
    constructor
    · intro hlen
      refine ⟨?_, Nat.le_succ_of_le hskip⟩
      unfold Quiet watched
      dsimp only
      rw [if_neg fun h => h.2.2 hlen]
      exact hquiet
    · intro l hl
      unfold watched at hl
      dsimp only at hl
      split_ifs at hl
      · exact Option.some.inj hl
      · rw [hquiet] at hl
        cases hl
  · intro t i j h
    exact h
  · intro t h
    exact h.1.kept

/-- A comparison that is not watched yet. -/
theorem quiet_first (a b : α) : Quiet (watched 1 cmp a b s.watch).2 ∧ 1 ≤ (watched 1 cmp a b s.watch).2.world.2.calls := by
  constructor
  · unfold Quiet watched
    dsimp only
    apply if_neg
    rintro ⟨hskip, -⟩
    exact absurd hskip (by decide : ¬ 1 ≤ 0)
  · exact Nat.le_refl 1

/-- After a change of the length the sift failed, and the list is as the comparison left it. -/
def Stops {β : Type} (m : Heaper α (σ × Watch α) ε β) (s : Heap α σ) : Prop :=
  wp m (fun _ t => Quiet t) (fun _ t => Kept t) s.watch

theorem stops_heapify : Stops (heapify (watched 0 cmp) maxHeap) s :=
  wp_mono (wp_heapify_stable (s := s.watch) (stable_watched 0 cmp) ⟨rfl, Nat.le_refl 0⟩) (fun _ _ h => h.1)
    fun _ _ h => h

theorem stops_heappush : Stops (heappush (watched 0 cmp) maxHeap item) s :=
  wp_mono (wp_heappush_stable (s := s.watch) (stable_watched 0 cmp) ⟨rfl, Nat.le_refl 0⟩) (fun _ _ h => h.1)
    fun _ _ h => h

theorem quiet_watch (s : Heap α σ) : Quiet s.watch := rfl

theorem stops_heappop : Stops (heappop (watched 0 cmp) maxHeap) s := by
  apply wp_mono (wp_heappop_stable (s := s.watch) (stable_watched 0 cmp) fun _ _ _ _ => ⟨rfl, Nat.le_refl 0⟩)
  · rintro r t (⟨-, rfl⟩ | ⟨-, ht⟩)
    · exact rfl
    · exact ht.1
  · rintro e t (rfl | ht)
    · exact (quiet_watch s).kept
    · exact ht

theorem stops_heapreplace : Stops (heapreplace (watched 0 cmp) maxHeap item) s := by
  apply wp_mono (wp_heapreplace_stable (s := s.watch) (stable_watched 0 cmp) fun _ _ _ => ⟨rfl, Nat.le_refl 0⟩)
  · rintro r t ⟨-, ht⟩
    exact ht.1
  · rintro e t (rfl | ht)
    · exact (quiet_watch s).kept
    · exact ht

theorem stops_heappushpop : Stops (heappushpop (watched 1 cmp) maxHeap item) s := by
  apply wp_heappushpop_stable
  · intro _
    exact quiet_watch s
  · intro a b
    have hfirst : Quiet (watched 1 cmp a b s.watch).2 ∧ 1 ≤ (watched 1 cmp a b s.watch).2.world.2.calls :=
      quiet_first a b
    refine ⟨fun _ _ => hfirst.1.kept, fun replace => ?_⟩
    apply wp_mono (wp_replaceIf_stable (s := (watched 1 cmp a b s.watch).2) (stable_watched 1 cmp) (fun _ _ _ => hfirst) replace)
    · rintro r t (⟨-, rfl⟩ | ⟨-, ht⟩)
      · exact hfirst.1
      · exact ht.1
    · rintro e t (rfl | ht)
      · exact hfirst.1.kept
      · exact ht

end Watch

section Contents

variable {s : Heap α σ} {item : α}

/-- The comparison never touches the list. -/
def Untouching (cmp : Comparison α σ ε) : Prop := ∀ a b s, (cmp a b s).2.list = s.list

theorem stable_perm (h : Untouching cmp) {p : List α → Prop} (hp : ∀ l l', p l → l'.Perm l → p l') :
    Stable cmp (fun t => p t.list) fun t => p t.list := by
  constructor
  · intro a b t ht
    rw [h a b t]
    exact ⟨fun _ => ht, ht⟩
  · intro t i j ht
    exact hp _ _ ht (List.swap_perm _ _ _)
  · intro t ht
    exact ht

theorem stable_contents (h : Untouching cmp) (l : List α) :
    Stable cmp (fun t => t.list.Perm l) fun t => t.list.Perm l :=
  stable_perm h fun _ _ hl hl' => hl'.trans hl

/-- The root was taken out of `l`. -/
theorem stable_rest (h : Untouching cmp) (root : Option α) (l : List α) :
    Stable cmp (fun t => ∃ x ∈ root, (x :: t.list).Perm l) fun t => ∃ x ∈ root, (x :: t.list).Perm l :=
  stable_perm (p := fun t => ∃ x ∈ root, (x :: t).Perm l) h fun _ _ ⟨x, hx, hl⟩ hl' => ⟨x, hx, (hl'.cons x).trans hl⟩

theorem contents_heappop (h : Untouching cmp) :
    wp (heappop cmp maxHeap) (fun r t => (r :: t.list).Perm s.list)
      (fun _ t => t = s ∨ ∃ x ∈ s.list.head?, (x :: t.list).Perm s.list) s := by
  apply wp_mono (wp_heappop_stable (stable_rest h s.list.head? s.list) _)
  · rintro r t (⟨hs, rfl⟩ | ⟨hr, x, hx, hperm⟩)
    · rw [hs]
    · rw [hr] at hx
      rw [Option.some.inj hx]
      exact hperm
  · intro _ _ h
    exact h
  · intro x l last hs
    refine ⟨x, by rw [hs]; rfl, ?_⟩
    rw [hs]
    exact (List.perm_append_singleton last l).symm.cons x

theorem contents_heapreplace (h : Untouching cmp) :
    wp (heapreplace cmp maxHeap item) (fun r t => (r :: t.list).Perm (item :: s.list))
      (fun _ t => t = s ∨ ∃ x ∈ s.list.head?, (x :: t.list).Perm (item :: s.list)) s := by
  apply wp_mono (wp_heapreplace_stable (stable_rest h s.list.head? (item :: s.list)) _)
  · rintro r t ⟨hr, x, hx, hperm⟩
    rw [hr] at hx
    rw [Option.some.inj hx]
    exact hperm
  · intro _ _ h
    exact h
  · intro x l hs
    refine ⟨x, by rw [hs]; rfl, ?_⟩
    rw [hs]
    exact .swap _ _ _

theorem contents_heappushpop (h : Untouching cmp) :
    wp (heappushpop cmp maxHeap item) (fun r t => (r :: t.list).Perm (item :: s.list))
      (fun _ t => t.list = s.list ∨ ∃ x ∈ s.list.head?, (x :: t.list).Perm (item :: s.list)) s := by
  apply wp_heappushpop_stable
  · intro _
    exact .refl _
  · intro a b
    refine ⟨fun _ _ => .inl (h a b s), fun replace => ?_⟩
    apply wp_mono (wp_replaceIf_stable (stable_rest h s.list.head? (item :: s.list)) _ replace)
    · rintro r t (⟨rfl, rfl⟩ | ⟨hr, x, hx, hperm⟩)
      · rw [h a b s]
      · rw [h a b s] at hr
        rw [hr] at hx
        rw [Option.some.inj hx]
        exact hperm
    · rintro e t (rfl | ht)
      · exact .inl (h a b s)
      · exact .inr ht
    · intro x l hs
      rw [h a b s] at hs
      refine ⟨x, by rw [hs]; rfl, ?_⟩
      rw [hs]
      exact .swap _ _ _

end Contents

/-- Whatever comparisons do, no operation is out of range; one that changes the length during a sift ends the
operation with an error, the list as it was left; and ones that leave the list alone have its elements moved only,
but for the root that was taken out. -/
theorem hostile_comparisons (cmp : Comparison α σ ε) (maxHeap : Bool) (s : Heap α σ) (item : α) :
    (Safe (heapify cmp maxHeap) ∧ Safe (heappush cmp maxHeap item) ∧ Safe (heappop cmp maxHeap) ∧
      Safe (heapreplace cmp maxHeap item) ∧ Safe (heappushpop cmp maxHeap item)) ∧
    (Stops (heapify (watched 0 cmp) maxHeap) s ∧ Stops (heappush (watched 0 cmp) maxHeap item) s ∧
      Stops (heappop (watched 0 cmp) maxHeap) s ∧ Stops (heapreplace (watched 0 cmp) maxHeap item) s ∧
      Stops (heappushpop (watched 1 cmp) maxHeap item) s) ∧
    (Untouching cmp →
      wp (heapify cmp maxHeap) (fun _ t => t.list.Perm s.list) (fun _ t => t.list.Perm s.list) s ∧
      wp (heappush cmp maxHeap item) (fun _ t => t.list.Perm (item :: s.list))
        (fun _ t => t.list.Perm (item :: s.list)) s ∧
      wp (heappop cmp maxHeap) (fun r t => (r :: t.list).Perm s.list)
        (fun _ t => t = s ∨ ∃ x ∈ s.list.head?, (x :: t.list).Perm s.list) s ∧
      wp (heapreplace cmp maxHeap item) (fun r t => (r :: t.list).Perm (item :: s.list))
        (fun _ t => t = s ∨ ∃ x ∈ s.list.head?, (x :: t.list).Perm (item :: s.list)) s ∧
      wp (heappushpop cmp maxHeap item) (fun r t => (r :: t.list).Perm (item :: s.list))
        (fun _ t => t.list = s.list ∨ ∃ x ∈ s.list.head?, (x :: t.list).Perm (item :: s.list)) s) := by
  refine ⟨⟨safe_heapify, safe_heappush, safe_heappop, safe_heapreplace, safe_heappushpop⟩,
    ⟨stops_heapify, stops_heappush, stops_heappop, stops_heapreplace, stops_heappushpop⟩, ?_⟩
  intro h
  refine ⟨?_, ?_, contents_heappop h, contents_heapreplace h, contents_heappushpop h⟩
  · exact wp_heapify_stable (stable_contents h s.list) (.refl _)
  · exact wp_heappush_stable (stable_contents h (item :: s.list)) (List.perm_append_singleton item s.list)

/-- A comparison that raises at once. -/
def refusing : Comparison ℕ Unit Unit := fun _ _ s => (.error (), s)

theorem refused_push :
    wp (heappush refusing false 1) (fun _ t => t.list.Perm [1, 3, 2]) (fun _ t => t.list.Perm [1, 3, 2]) ⟨[3, 2], ()⟩ :=
  ((hostile_comparisons refusing false ⟨[3, 2], ()⟩ 1).2.2 fun _ _ _ => rfl).2.1

end WeavePy.Heapq
