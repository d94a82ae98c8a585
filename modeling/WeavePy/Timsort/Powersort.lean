import WeavePy.Timsort.Frame
import WeavePy.Timsort.Pending

/-!
The sort makes no other changes to its stack than the moves, so what holds of every reachable stack
holds whenever the comparator is called and when the sort ends.
-/

namespace WeavePy.Timsort

open Prog

variable {T σ E α β : Type} {cmp : σ → T → T → Except E Bool × σ} {s : MergeState T σ}
  {R : E → MergeState T σ → Prop}

theorem wlp_sub {a b : ℕ} {Q : ℕ → MergeState T σ → Prop} (hQ : b ≤ a → Q (a - b) s) :
    wlp (sub a b) Q R s := wlp_ite (fun h => wlp_pure (hQ h)) fun _ => wlp_fault

theorem wlp_pendingAt {i : ℕ} {Q : Run → MergeState T σ → Prop}
    (hQ : ∀ run, s.pending[i]? = some run → Q run s) : wlp (E := E) (pendingAt i) Q R s := by
  intro r t hr
  unfold pendingAt at hr
  split at hr
  next run hrun =>
    cases hr
    exact hQ run hrun
  · cases hr

section Runs

variable {lo nremaining : ℕ}

/-- A program that keeps the outline and returns a number of elements from 1 to `nremaining`. -/
def Counts (nremaining : ℕ) (m : Sorter T σ E ℕ) : Prop :=
  ∀ s, wlp m (fun n t => 0 < n ∧ n ≤ nremaining ∧ t.outline = s.outline)
    (fun _ t => t.outline = s.outline) s

theorem Counts.bind {m : Sorter T σ E α} {f : α → Sorter T σ E ℕ} (hm : KeepsOutline m)
    (hf : ∀ a, Counts nremaining (f a)) : Counts nremaining (m >>= f) := by
  intro s
  apply Keeps.wlp_bind hm
  · intro a t ht
    have := hf a t
    rwa [ht] at this
  · exact fun _ _ h => h

theorem Counts.pure {n : ℕ} (hpos : 0 < n) (hn : n ≤ nremaining) :
    Counts nremaining (Pure.pure n : Sorter T σ E ℕ) := fun _ => wlp_pure ⟨hpos, hn, rfl⟩

theorem climb_counts {n : ℕ} (hpos : 0 < n) (hn : n ≤ nremaining) :
    Counts nremaining (climb cmp lo nremaining n) := by
  intro s
  apply wlp_loop (fun n t => 0 < n ∧ n ≤ nremaining ∧ t.outline = s.outline)
  · rintro n t ⟨hpos, hn, ht⟩
    apply wlp_ite
    · intro hlt
      apply Keeps.wlp_bind keeps_nextSmaller
      · intro b u hu
        apply wlp_ite
        · intro _
          exact wlp_pure ⟨hpos, hn, hu.trans ht⟩
        · intro _
          exact wlp_pure ⟨Nat.succ_pos n, hlt, hu.trans ht⟩
      · exact fun _ u hu => hu.trans ht
    · intro _
      exact wlp_pure ⟨hpos, hn, ht⟩
  · exact ⟨hpos, hn, rfl⟩

theorem wlp_descend {n : ℕ} (hpos : 0 < n) (hn : n ≤ nremaining) :
    wlp (descend cmp lo nremaining n)
      (fun x t => 0 < x.1 ∧ x.1 ≤ nremaining ∧ t.outline = s.outline)
      (fun _ t => t.outline = s.outline) s := by
  apply wlp_loop (fun x t => 0 < x.1 ∧ x.1 ≤ nremaining ∧ t.outline = s.outline)
  · rintro ⟨n, neq⟩ t ⟨hpos, hn, ht⟩
    dsimp only at hpos hn ⊢
    apply wlp_ite
    · intro hlt
      apply Keeps.wlp_bind keeps_nextSmaller _ fun _ u hu => hu.trans ht
      intro b u hu
      apply wlp_ite
      · intro _
        apply Keeps.wlp_bind keeps_reverseEqual _ fun _ w hw => hw.trans (hu.trans ht)
        intro _ w hw
        exact wlp_pure ⟨Nat.succ_pos n, hlt, hw.trans (hu.trans ht)⟩
      · intro _
        apply Keeps.wlp_bind keeps_nextLarger _ fun _ w hw => hw.trans (hu.trans ht)
        intro b w hw
        apply wlp_ite
        · intro _
          exact wlp_pure ⟨hpos, hn, hw.trans (hu.trans ht)⟩
        · intro _
          exact wlp_pure ⟨Nat.succ_pos n, hlt, hw.trans (hu.trans ht)⟩
    · intro _
      exact wlp_pure ⟨hpos, hn, ht⟩
  · exact ⟨hpos, hn, rfl⟩

theorem countDown_counts {n : ℕ} (hn : n < nremaining) :
    Counts nremaining (countDown cmp lo nremaining n) := by
  intro s
  apply wlp_seq (wlp_descend (Nat.succ_pos n) hn)
  rintro ⟨m, neq⟩ t ⟨hpos, hm, ht⟩
  have : Counts nremaining (do
      reverseEqual lo m neq
      reverse lo m
      climb cmp lo nremaining m) :=
    Counts.bind keeps_reverseEqual fun _ => Counts.bind keeps_reverse fun _ => climb_counts hpos hm
  have := this t
  rwa [ht] at this

theorem countRun_counts (hpos : 0 < nremaining) : Counts nremaining (countRun cmp lo nremaining) := by
  intro s
  apply wlp_seq (climb_counts Nat.one_pos hpos s)
  rintro n t ⟨hn, hle, ht⟩
  rw [← ht]
  apply wlp_ite
  · intro _
    exact Counts.pure hn hle t
  · intro hne
    have hlt : n < nremaining := by omega
    apply wlp_ite
    · intro _
      refine Counts.bind keeps_sub (fun last => Counts.bind keeps_lt fun b => ?_) t
      split
      · exact Counts.pure hn hle
      · exact Counts.bind keeps_reverse fun _ => countDown_counts hlt
    · intro _
      exact countDown_counts hlt t

theorem fillRun_counts {minrun run : ℕ} (hpos : 0 < run) (hrun : run ≤ nremaining) :
    Counts nremaining (fillRun cmp minrun lo nremaining run) := by
  unfold fillRun
  split
  · apply Counts.bind keeps_binarysort
    intro _
    apply Counts.pure
    · omega
    · omega
  · exact Counts.pure hpos hrun

end Runs

/-- The sort's stack is reachable, at some point of the sort. -/
def Passes (n : ℕ) (s : MergeState T σ) : Prop := ∃ lo point, Reachable n ⟨lo, point, s.pending⟩

theorem exists_top {pending : List Run} (h : 0 < pending.length) :
    ∃ l top, pending = l ++ [top] ∧ l.length = pending.length - 1 := by
  have hne := List.length_pos_iff.mp h
  exact ⟨pending.dropLast, pending.getLast hne, (List.dropLast_append_getLast hne).symm, by simp⟩

theorem exists_top_two {pending : List Run} (h : 1 < pending.length) :
    ∃ l a b, pending = l ++ [a, b] ∧ l.length = pending.length - 2 := by
  obtain ⟨l, b, rfl, hl⟩ := exists_top (Nat.lt_of_succ_lt h)
  rw [List.length_append, List.length_singleton] at h
  obtain ⟨l, a, rfl, hl'⟩ := exists_top (by omega : 0 < l.length)
  refine ⟨l, a, b, by simp, ?_⟩
  simp

theorem wlp_mergeAt {l m : List Run} {a b : Run} {Q : Unit → MergeState T σ → Prop}
    (hs : s.pending = l ++ a :: b :: m)
    (hQ : ∀ t, t.outline = (s.list.length, l ++ a.join b :: m) → Q () t)
    (hR : ∀ e t, t.outline = (s.list.length, l ++ a.join b :: m) → R e t) :
    wlp (mergeAt cmp l.length) Q R s := by
  have hmerged : (s.pending.set l.length (a.join b)).eraseIdx (l.length + 1)
      = l ++ a.join b :: m := by
    rw [hs, List.set_append_right _ _ (Nat.le_refl _), Nat.sub_self, List.set_cons_zero,
      List.eraseIdx_append_of_length_le (Nat.le_add_right _ 1), Nat.add_sub_cancel_left]
    rfl
  unfold mergeAt
  apply wlp_bind
  apply wlp_pendingAt
  intro a' ha
  obtain rfl : a = a' := by
    rw [hs, List.getElem?_append_right (Nat.le_refl _), Nat.sub_self] at ha
    exact Option.some.inj ha
  apply wlp_bind
  apply wlp_pendingAt
  intro b' hb
  obtain rfl : b = b' := by
    rw [hs, List.getElem?_append_right (Nat.le_add_right _ 1), Nat.add_sub_cancel_left] at hb
    exact Option.some.inj hb
  apply wlp_bind
  apply wlp_gets
  apply wlp_bind
  apply wlp_modify
  have houtline : MergeState.outline { s with
      pending := (s.pending.set l.length (a.join b)).eraseIdx (l.length + 1) }
      = (s.list.length, l ++ a.join b :: m) := by
    unfold MergeState.outline
    rw [hmerged]
  exact wlp_mono (keeps_mergeRuns _) (fun _ t ht => hQ t (ht.trans houtline))
    fun e t ht => hR e t (ht.trans houtline)

section Boundaries

variable {n lo n2 power : ℕ}

theorem wlp_mergeDeeper {Q : Unit → MergeState T σ → Prop} (hlist : s.list.length = n)
    (hs : Reachable n ⟨lo, .merging n2 power, s.pending⟩) (hne : 0 < s.pending.length)
    (hQ : ∀ l top t, t.outline = (n, l ++ [top]) →
      Reachable n ⟨lo, .merging n2 power, l ++ [top]⟩ → (∀ a ∈ l.getLast?, a.power ≤ power) →
      Q () t) :
    wlp (mergeDeeper cmp power) Q (fun _ => Passes n) s := by
  unfold mergeDeeper
  apply wlp_bind
  apply wlp_gets
  apply wlp_loop (fun _ t => t.list.length = n ∧
    Reachable n ⟨lo, .merging n2 power, t.pending⟩ ∧ 0 < t.pending.length)
  · rintro ⟨⟩ t ⟨htl, ht, htne⟩
    apply wlp_bind
    apply wlp_gets
    apply wlp_ite
    · intro hlong
      obtain ⟨l, a, b, hp, hl⟩ := exists_top_two hlong
      rw [hp] at ht
      apply wlp_bind
      apply wlp_sub
      intro _
      apply wlp_bind
      apply wlp_pendingAt
      intro a' ha
      obtain rfl : a = a' := by
        rw [← hl, hp, List.getElem?_append_right (Nat.le_refl _), Nat.sub_self] at ha
        exact Option.some.inj ha
      apply wlp_ite
      · intro hpower
        have hmerged := ht.tail (Move.merge hpower)
        rw [← hl]
        apply wlp_bind
        apply wlp_mergeAt hp
        · intro u hu
          obtain ⟨hul, hup⟩ := Prod.mk.inj hu
          apply wlp_pure
          rw [hup]
          exact ⟨hul.trans htl, hmerged, by simp⟩
        · intro e u hu
          exact ⟨lo, _, (Prod.mk.inj hu).2 ▸ hmerged⟩
      · intro hpower
        apply wlp_pure
        have hsplit : l ++ [a, b] = (l ++ [a]) ++ [b] := by simp
        rw [hsplit] at hp ht
        apply hQ _ _ t (by rw [MergeState.outline, htl, hp]) ht
        intro z hz
        rw [List.getLast?_concat, Option.mem_some_iff] at hz
        rw [← hz]
        exact Nat.le_of_not_lt hpower
    · intro hshort
      obtain ⟨l, top, hp, hl⟩ := exists_top htne
      obtain rfl : l = [] := List.length_eq_zero_iff.mp (by omega)
      rw [hp] at ht
      apply wlp_pure
      exact hQ _ _ t (by rw [MergeState.outline, htl, hp]) ht (by simp)
  · exact ⟨hlist, hs, hne⟩

theorem wlp_foundNewRun {Q : Unit → MergeState T σ → Prop} (hn : n < 2 ^ 63)
    (hlist : s.list.length = n) (hs : Reachable n ⟨lo, .scanning, s.pending⟩) (hpos : 0 < n2)
    (hle : lo + n2 ≤ n)
    (hQ : ∀ t, t.list.length = n → Reachable n ⟨lo, .found n2, t.pending⟩ → Q () t) :
    wlp (foundNewRun cmp n2) Q (fun _ => Passes n) s := by
  unfold foundNewRun
  apply wlp_bind
  apply wlp_gets
  rcases htop : s.pending.getLast? with _ | top
  · apply wlp_pure
    apply hQ s hlist
    rw [List.getLast?_eq_none_iff.mp htop] at hs ⊢
    exact hs.tail (Move.first hpos hle)
  · obtain ⟨l, hl⟩ := List.getLast?_eq_some_iff.mp htop
    rw [hl] at hs
    obtain ⟨hlen, hend⟩ := (hs.balanced hn).fills.top
    dsimp only at hend
    have htotal : top.base + top.len + n2 ≤ n := by omega
    obtain ⟨power, hpower, -⟩ := powerloopWords_spec hn hlen hpos htotal
    apply wlp_bind
    apply wlp_gets
    rw [hlist]
    apply wlp_seq (Q := fun p t => p = power ∧ t = s)
    · exact wlp_of_wp (wp_powerloop_words hpower)
    rintro _ _ ⟨rfl, rfl⟩
    have hboundary := hs.tail (Move.boundary hpos hle hpower)
    rw [← hl] at hboundary
    apply wlp_bind
    apply wlp_mergeDeeper hlist hboundary (by rw [hl]; simp)
    intro l' top' t ht hreach hbelow
    obtain ⟨htl, htp⟩ := Prod.mk.inj ht
    apply wlp_bind
    apply wlp_gets
    apply wlp_bind
    apply wlp_sub
    intro _
    apply wlp_bind
    apply wlp_pendingAt
    intro run hrun
    have hlast : t.pending.length - 1 = l'.length := by
      rw [htp, List.length_append, List.length_singleton, Nat.add_sub_cancel]
    obtain rfl : top' = run := by
      rw [hlast, htp, List.getElem?_append_right (Nat.le_refl _), Nat.sub_self] at hrun
      exact Option.some.inj hrun
    apply wlp_modify
    apply hQ
    · exact htl
    · rw [hlast, htp, List.set_append_right _ _ (Nat.le_refl _), Nat.sub_self]
      exact hreach.tail (Move.record hbelow)

theorem wlp_pushRuns {minrun : ℕ} {Q : Unit → MergeState T σ → Prop} (hn : n < 2 ^ 63)
    (hlist : s.list.length = n) (hs : s.pending = [])
    (hQ : ∀ t, Reachable n ⟨n, .collapsing, t.pending⟩ → Q () t) :
    wlp (pushRuns cmp minrun n) Q (fun _ => Passes n) s := by
  apply wlp_loop (fun x t => t.list.length = n ∧ Reachable n ⟨x.1, .scanning, t.pending⟩ ∧
    x.1 + x.2 = n)
  · rintro ⟨lo, nremaining⟩ t ⟨htl, ht, htotal⟩
    dsimp only at ht htotal ⊢
    have hpasses : ∀ (e : E) (u : MergeState T σ), u.outline = t.outline → Passes n u := by
      intro e u hu
      exact ⟨lo, .scanning, (Prod.mk.inj hu).2 ▸ ht⟩
    apply wlp_ite
    · intro hpos
      apply wlp_seq (wlp_mono (countRun_counts hpos t) (fun _ _ h => h) hpasses)
      rintro run u ⟨hrun, hrunle, hu⟩
      rw [← hu] at hpasses
      apply wlp_seq (wlp_mono (fillRun_counts hrun hrunle u) (fun _ _ h => h) hpasses)
      rintro run' w ⟨hrun', hrunle', hw⟩
      obtain ⟨hwl, hwp⟩ := Prod.mk.inj (hw.trans hu)
      rw [← hwp] at ht
      apply wlp_bind
      apply wlp_foundNewRun hn (hwl.trans htl) ht hrun' (by omega)
      intro x hxl hx
      apply wlp_bind
      apply wlp_gets
      apply wlp_bind
      apply wlp_modify
      apply wlp_bind
      apply wlp_sub
      intro _
      apply wlp_pure
      refine ⟨hxl, hx.tail Move.push, ?_⟩
      dsimp only
      omega
    · intro hzero
      obtain rfl : lo = n := by omega
      exact wlp_pure (hQ t (ht.tail Move.finish))
  · refine ⟨hlist, ?_, Nat.zero_add n⟩
    rw [hs]
    exact Relation.ReflTransGen.refl

/-- Which of the two topmost pairs is merged. -/
theorem wlp_collapseAt {l : List Run} {a b : Run} {Q : ℕ → MergeState T σ → Prop}
    (hs : s.pending = l ++ [a, b])
    (htop : (∀ z ∈ l.getLast?, b.len ≤ z.len) → Q l.length s)
    (hbelow : ∀ l' z, l = l' ++ [z] → z.len < b.len → Q l'.length s) :
    wlp (E := E) (collapseAt l.length) Q R s := by
  unfold collapseAt
  apply wlp_ite
  · intro hpos
    obtain ⟨l', z, rfl, -⟩ := exists_top hpos
    have hlen : (l' ++ [z]).length - 1 = l'.length := by simp
    apply wlp_bind
    apply wlp_sub
    intro _
    apply wlp_bind
    apply wlp_pendingAt
    intro z' hz
    obtain rfl : z = z' := by
      rw [hlen, hs, List.append_assoc, List.getElem?_append_right (Nat.le_refl _),
        Nat.sub_self] at hz
      exact Option.some.inj hz
    apply wlp_bind
    apply wlp_pendingAt
    intro b' hb
    obtain rfl : b = b' := by
      rw [hs, List.getElem?_append_right (Nat.le_add_right _ 1), Nat.add_sub_cancel_left] at hb
      exact Option.some.inj hb
    apply wlp_ite
    · intro hlt
      apply wlp_pure
      rw [hlen]
      exact hbelow l' z rfl hlt
    · intro hge
      apply wlp_pure
      apply htop
      intro y hy
      rw [List.getLast?_concat, Option.mem_some_iff] at hy
      rw [← hy]
      exact Nat.le_of_not_lt hge
  · intro hzero
    obtain rfl : l = [] := List.length_eq_zero_iff.mp (by omega)
    exact wlp_pure (htop (by simp))

theorem wlp_mergeForceCollapse (hs : Reachable n ⟨lo, .collapsing, s.pending⟩) :
    wlp (mergeForceCollapse cmp) (fun _ => Passes n) (fun _ => Passes n) s := by
  unfold mergeForceCollapse
  apply wlp_bind
  apply wlp_gets
  apply wlp_loop (fun _ t => Reachable n ⟨lo, .collapsing, t.pending⟩)
  · rintro ⟨⟩ t ht
    apply wlp_bind
    apply wlp_gets
    apply wlp_ite
    · intro hlong
      obtain ⟨l, a, b, hp, hl⟩ := exists_top_two hlong
      rw [hp] at ht
      apply wlp_bind
      apply wlp_sub
      intro _
      rw [← hl]
      apply wlp_bind
      apply wlp_collapseAt hp
      · intro hlen
        have hmerged := ht.tail (Move.collapseTop hlen)
        apply wlp_bind
        apply wlp_mergeAt hp
        · intro u hu
          apply wlp_pure
          exact (Prod.mk.inj hu).2 ▸ hmerged
        · intro e u hu
          exact ⟨lo, _, (Prod.mk.inj hu).2 ▸ hmerged⟩
      · rintro l' z rfl hlt
        have hsplit : (l' ++ [z]) ++ [a, b] = l' ++ [z, a, b] := by simp
        rw [hsplit] at hp ht
        have hmerged := ht.tail (Move.collapseBelow hlt)
        apply wlp_bind
        apply wlp_mergeAt hp
        · intro u hu
          apply wlp_pure
          exact (Prod.mk.inj hu).2 ▸ hmerged
        · intro e u hu
          exact ⟨lo, _, (Prod.mk.inj hu).2 ▸ hmerged⟩
    · intro _
      exact wlp_pure ⟨lo, _, ht⟩
  · exact hs

end Boundaries

/-- However a sort ends, also by an error of the comparator at any call, its stack is reachable. -/
theorem sortRuns_passes {n : ℕ} (hn : n < 2 ^ 63) (hlist : s.list.length = n)
    (hs : s.pending = []) : wlp (sortRuns cmp) (fun _ => Passes n) (fun _ => Passes n) s := by
  unfold sortRuns
  apply wlp_bind
  apply wlp_gets
  rw [hlist]
  apply wlp_bind
  apply wlp_pushRuns hn hlist hs
  intro t ht
  exact wlp_mergeForceCollapse ht

/-- The length of a slice of elements that take up space is below `2 ^ 63`. -/
theorem powersort_stack (n : ℕ) (hn : n < 2 ^ 63) :
    (∀ s1 n1 n2, 0 < n1 → 0 < n2 → s1 + n1 + n2 ≤ n →
      ∃ power, powerloopWords s1 n1 n2 n = some power) ∧
    (∀ k, Reachable n k → Fills 0 k.pending k.lo ∧ k.lo ≤ n ∧
      (powers k.pending.dropLast).Pairwise (· < ·) ∧
      (∀ n2, k.point = .found n2 → (powers k.pending).Pairwise (· < ·)) ∧
      k.pending.length ≤ Nat.log 2 n + 2) ∧
    ∀ (T σ E : Type) (cmp : σ → T → T → Except E Bool × σ) (c : σ) (v : List T), v.length = n →
      ∀ result t, sortRuns cmp ⟨v, minGallopDefault, 0, [], ⟨0, 0, 0⟩, [], c⟩ = .ok (result, t) →
        ∃ lo point, Reachable n ⟨lo, point, t.pending⟩ := by
  refine ⟨?_, ?_, ?_⟩
  · intro s1 n1 n2 h1 h2 hle
    obtain ⟨power, hpower, -⟩ := powerloopWords_spec hn h1 h2 hle
    exact ⟨power, hpower⟩
  · intro k hk
    have hbalanced := hk.balanced hn
    obtain ⟨hinc, hlen⟩ := hbalanced.below
    refine ⟨hbalanced.fills, hbalanced.le, hinc, ?_, ?_⟩
    · intro n2 hpoint
      obtain ⟨lo, point, pending⟩ := k
      obtain rfl : point = .found n2 := hpoint
      exact hbalanced.found
    · have hclog : Nat.clog 2 n ≤ Nat.log 2 n + 1 :=
        Nat.clog_le_of_le_pow (Nat.lt_pow_succ_log_self (by omega) n).le
      omega
  · rintro T σ E cmp c v hv result t ht
    have hpasses : wlp (sortRuns cmp) (fun _ => Passes n) (fun _ => Passes n)
        ⟨v, minGallopDefault, 0, [], ⟨0, 0, 0⟩, [], c⟩ := sortRuns_passes hn hv rfl
    have := hpasses result t ht
    cases result with
    | ok u => exact this
    | error e => exact this

theorem powersort_stack_five : (∃ power, powerloopWords 0 2 3 5 = some power) ∧
    ∀ k, Reachable 5 k → k.pending.length ≤ 4 := by
  obtain ⟨hpower, hstack, -⟩ := powersort_stack 5 (by decide)
  refine ⟨hpower 0 2 3 (by decide) (by decide) (by decide), fun k hk => ?_⟩
  obtain ⟨-, -, -, -, hlen⟩ := hstack k hk
  have hlog : Nat.log 2 5 = 2 := by decide
  rwa [hlog] at hlen

end WeavePy.Timsort
