import WeavePy.Flowgraph.StaticSwaps
import WeavePy.Lib.StarSwaps

/-!
The exchanges that replace a run are no more than the run's and permute the stack as they do.
-/

namespace WeavePy.Flowgraph

open StarSwaps

variable {α : Type} {n m fuel d i j p a b : ℕ} {s t : Equiv.Perm ℕ} {V : Finset ℕ} {w : List ℕ}
  {stack : List (Option ℕ)} {run : List (CfgInstr n m)}

theorem index_eq {l : List α} {x : α} (h : l[i]? = some x) : index l i = .ok x := by
  rw [index, h]
  rfl

theorem set_set_getElem? {l : List α} {x y : α} (ha : l[a]? = some x) (hb : l[b]? = some y) (p : ℕ) :
    ((l.set a y).set b x)[p]? = l[Equiv.swap a b p]? := by
  have hla := (List.getElem?_eq_some_iff.mp ha).1
  have hlb := (List.getElem?_eq_some_iff.mp hb).1
  rw [List.getElem?_set, List.getElem?_set, List.length_set]
  by_cases hpb : b = p
  · subst hpb
    rw [if_pos rfl, if_pos hlb, Equiv.swap_apply_right, ha]
  · rw [if_neg hpb]
    by_cases hpa : a = p
    · subst hpa
      rw [if_pos rfl, if_pos hla, Equiv.swap_apply_left, hb]
    · rw [if_neg hpa, Equiv.swap_apply_of_ne_of_ne (Ne.symm hpa) (Ne.symm hpb)]

/-- The places that the run exchanges with the top. -/
def places (run : List (CfgInstr n m)) : List ℕ :=
  (run.filter fun i => i.op = .Swap).map fun i => i.arg.toNat - 1

theorem places_cons_swap {i : CfgInstr n m} (h : i.op = .Swap) :
    places (i :: run) = (i.arg.toNat - 1) :: places run := by
  rw [places, List.filter_cons_of_pos (by simpa using h)]
  rfl

theorem places_cons_of_ne {i : CfgInstr n m} (h : i.op ≠ .Swap) : places (i :: run) = places run := by
  rw [places, List.filter_cons_of_neg (by simpa using h)]
  rfl

theorem permute_ok {l : List ℕ} (hlen : l.length = d) (hl : ∀ p < d, l[p]? = some (t p))
    (hw : ∀ e ∈ places run, e < d) : ∃ l', permute run l = .ok l' ∧ l'.length = d ∧
      ∀ p < d, l'[p]? = some ((t * arranged (places run)) p) := by
  induction run generalizing l t with
  | nil => exact ⟨l, rfl, hlen, hl⟩
  | cons i run ih =>
    by_cases hop : i.op = .Swap
    · rw [places_cons_swap hop] at hw ⊢
      have hk := hw _ List.mem_cons_self
      have h0 := hl 0 (by omega)
      have hdeep := hl _ hk
      obtain ⟨l', hrun, hlen', hl'⟩ := ih (t := t * Equiv.swap 0 (i.arg.toNat - 1))
        (l := (l.set 0 _).set (i.arg.toNat - 1) _) (by simpa using hlen)
        (fun p hp => by
          rw [set_set_getElem? h0 hdeep, Equiv.Perm.mul_apply]
          apply hl
          rw [Equiv.swap_apply_def]
          split_ifs <;> omega)
        fun e he => hw e (List.mem_cons_of_mem _ he)
      refine ⟨l', ?_, hlen', ?_⟩
      · rw [permute, List.foldlM_cons, if_pos hop, swapIndex, index_eq h0, index_eq hdeep]
        exact hrun
      · intro p hp
        rw [hl' p hp, arranged_cons, mul_assoc]
    · rw [places_cons_of_ne hop] at hw ⊢
      obtain ⟨l', hrun, hlen', hl'⟩ := ih hlen hl hw
      refine ⟨l', ?_, hlen', hl'⟩
      rw [permute, List.foldlM_cons, if_neg hop]
      exact hrun

/-! The cycles. -/

/-- The places of `V` are visited, the others hold what `s` put there. -/
structure Marked (s : Equiv.Perm ℕ) (d : ℕ) (V : Finset ℕ) (stack : List (Option ℕ)) : Prop where
  length : stack.length = d
  inside : V ⊆ Finset.range d
  get : ∀ p < d, stack[p]? = some (if p ∈ V then none else some (s p))

theorem Marked.set (h : Marked s d V stack) (hj : j < d) :
    Marked s d (insert j V) (stack.set j none) := by
  constructor
  · rw [List.length_set, h.length]
  · exact Finset.insert_subset (Finset.mem_range.mpr hj) h.inside
  · intro p hp
    rw [List.getElem?_set]
    by_cases hjp : j = p
    · subst hjp
      rw [if_pos rfl, if_pos (by rw [h.length]; exact hp), if_pos (Finset.mem_insert_self _ _)]
    · rw [if_neg hjp, h.get p hp]
      simp only [Finset.mem_insert, Ne.symm hjp, false_or]

/-- Inside the cycle that began at `i`: `j` lies on top, and the rest of the visited places but `i`
hold what they should. -/
structure Cycling (s : Equiv.Perm ℕ) (V : Finset ℕ) (i j : ℕ) (t : Equiv.Perm ℕ) : Prop where
  first : i ∈ V
  top : t 0 = j
  fixed : ∀ p ∈ V, p ≠ i → p ≠ 0 → t p = p
  rest : ∀ p ∉ V, p ≠ 0 → t p = s p
  hole : i ≠ 0 → t i = 0
  zero : 0 ∉ V → s 0 = 0

theorem Cycling.mem (h : Cycling s V i j t) (hj : j ∈ V) : j = i := by
  by_contra hne
  by_cases h0 : j = 0
  · have hi : i ≠ 0 := fun hi => hne (h0.trans hi.symm)
    have := (h.hole hi).trans (h0 ▸ h.top).symm
    exact hi (t.injective this)
  · have := (h.fixed j hj hne h0).trans h.top.symm
    exact h0 (t.injective this)

theorem Cycling.ne_zero (h : Cycling s V i j t) (hj : j ∉ V) : j ≠ 0 := by
  rintro rfl
  have hi : i ≠ 0 := fun hi => hj (hi ▸ h.first)
  exact hi (t.injective ((h.hole hi).trans h.top.symm))

theorem Cycling.moved (h : Cycling s V i j t) (hj : j ∉ V) : s j ≠ j := by
  intro heq
  have hback := (h.rest j hj (h.ne_zero hj)).trans (heq.trans h.top.symm)
  exact h.ne_zero hj (t.injective hback)

theorem Cycling.step (h : Cycling s V i j t) (hj : j ∉ V) :
    Cycling s (insert j V) i (s j) (t * Equiv.swap 0 j) := by
  have h0 := h.ne_zero hj
  have hother : ∀ p, p ≠ 0 → p ≠ j → (t * Equiv.swap 0 j) p = t p := by
    intro p hp hpj
    rw [Equiv.Perm.mul_apply, Equiv.swap_apply_of_ne_of_ne hp hpj]
  have hij : i ≠ j := fun hij => hj (hij ▸ h.first)
  constructor
  · exact Finset.mem_insert_of_mem h.first
  · rw [Equiv.Perm.mul_apply, Equiv.swap_apply_left, h.rest j hj h0]
  · intro p hp hpi hp0
    rcases Finset.mem_insert.mp hp with rfl | hp
    · rw [Equiv.Perm.mul_apply, Equiv.swap_apply_right, h.top]
    · rw [hother p hp0 (fun hpj => hj (hpj ▸ hp)), h.fixed p hp hpi hp0]
  · intro p hp hp0
    rw [Finset.mem_insert, not_or] at hp
    rw [hother p hp0 hp.1, h.rest p hp.2 hp0]
  · intro hi
    rw [hother i hi hij, h.hole hi]
  · exact fun hzero => h.zero fun hmem => hzero (Finset.mem_insert_of_mem hmem)

/-- Every visited place holds what it should, every other what `s` put there. -/
structure Sorted (s : Equiv.Perm ℕ) (V : Finset ℕ) (t : Equiv.Perm ℕ) : Prop where
  fixed : ∀ p ∈ V, t p = p
  rest : ∀ p ∉ V, t p = s p

theorem Cycling.finish (h : Cycling s V i i t) : Sorted s V (t * arranged ([i].filter (· ≠ 0))) := by
  rw [arranged_filter, arranged_cons, arranged_nil, mul_one]
  by_cases hi : i = 0
  · subst hi
    rw [Equiv.swap_self]
    constructor
    · intro p hp
      by_cases hp0 : p = 0
      · subst hp0
        exact h.top
      · exact h.fixed p hp hp0 hp0
    · intro p hp
      exact h.rest p hp fun hp0 => hp (hp0 ▸ h.first)
  · have hother : ∀ p, p ≠ 0 → p ≠ i → (t * Equiv.swap 0 i) p = t p := by
      intro p hp hpi
      rw [Equiv.Perm.mul_apply, Equiv.swap_apply_of_ne_of_ne hp hpi]
    have hzero : (t * Equiv.swap 0 i) 0 = 0 := by
      rw [Equiv.Perm.mul_apply, Equiv.swap_apply_left, h.hole hi]
    constructor
    · intro p hp
      by_cases hp0 : p = 0
      · subst hp0
        exact hzero
      · by_cases hpi : p = i
        · subst hpi
          rw [Equiv.Perm.mul_apply, Equiv.swap_apply_right, h.top]
        · rw [hother p hp0 hpi, h.fixed p hp hpi hp0]
    · intro p hp
      by_cases hp0 : p = 0
      · subst hp0
        rw [hzero, h.zero hp]
      · rw [hother p hp0 (fun hpi => hp (hpi ▸ h.first)), h.rest p hp hp0]

/-- The places a cycle goes through after its first, and what it emits. -/
structure CycleEnd (s : Equiv.Perm ℕ) (d : ℕ) (V : Finset ℕ) (i j : ℕ) (t : Equiv.Perm ℕ)
    (js : List ℕ) (stack : List (Option ℕ)) : Prop where
  nodup : js.Nodup
  fresh : ∀ q ∈ js, q ∉ V ∧ q ≠ 0 ∧ q < d
  moved : ∀ q ∈ js, s q ≠ q
  closed : ∀ q ∈ js, s q ∈ js ∨ s q = i
  next : j ∈ js ∨ j = i
  marked : Marked s d (V ∪ js.toFinset) stack
  sorted : Sorted s (V ∪ js.toFinset) (t * arranged ((js ++ [i]).filter (· ≠ 0)))

theorem cycleFrom_ok (hs : ∀ p, d ≤ p → s p = p) (hm : Marked s d V stack) (hc : Cycling s V i j t)
    (hfuel : d < V.card + fuel) : ∃ js stack', cycleFrom i fuel stack j =
      .ok ((js ++ [i]).filter (· ≠ 0), stack') ∧ CycleEnd s d V i j t js stack' := by
  have hcard : V.card ≤ d := by simpa using Finset.card_le_card hm.inside
  induction fuel generalizing V j t stack with
  | zero => omega
  | succ fuel ih =>
    have hjd : j < d := by
      by_contra hge
      have hj : j ∉ V := fun hj => hge (Finset.mem_range.mp (hm.inside hj))
      exact hc.moved hj (hs j (by omega))
    rw [cycleFrom, index_eq (hm.get j hjd), ok_bind]
    by_cases hj : j ∈ V
    · obtain rfl := hc.mem hj
      rw [if_pos hj]
      refine ⟨[], stack, ?_, ?_⟩
      · dsimp only
        rw [if_pos rfl]
        by_cases h0 : j = 0
        · rw [if_pos h0, List.nil_append, List.filter_cons_of_neg (by simpa using h0)]
          rfl
        · rw [if_neg h0, List.nil_append, List.filter_cons_of_pos (by simpa using h0)]
          rfl
      · constructor
        · exact List.nodup_nil
        · simp
        · simp
        · simp
        · exact .inr rfl
        · simpa using hm
        · simpa using hc.finish
    · rw [if_neg hj]
      have h0 := hc.ne_zero hj
      obtain ⟨js, stack', hrun, hend⟩ := ih (hm.set hjd) (hc.step hj)
        (by rw [Finset.card_insert_of_notMem hj]; omega)
        (by simpa using Finset.card_le_card (hm.set hjd).inside)
      refine ⟨j :: js, stack', ?_, ?_⟩
      · dsimp only
        rw [hrun, ok_bind, if_neg h0, show j :: js ++ [i] = j :: (js ++ [i]) from rfl,
          List.filter_cons_of_pos (by simpa using h0)]
        rfl
      · have hunion : V ∪ (j :: js).toFinset = insert j V ∪ js.toFinset := by
          rw [List.toFinset_cons, Finset.union_insert, Finset.insert_union]
        constructor
        · rw [List.nodup_cons]
          exact ⟨fun hmem => (hend.fresh j hmem).1 (Finset.mem_insert_self _ _), hend.nodup⟩
        · intro q hq
          rcases List.mem_cons.mp hq with rfl | hq
          · exact ⟨hj, h0, hjd⟩
          · obtain ⟨hV, hq⟩ := hend.fresh q hq
            exact ⟨fun hmem => hV (Finset.mem_insert_of_mem hmem), hq⟩
        · intro q hq
          rcases List.mem_cons.mp hq with rfl | hq
          · exact hc.moved hj
          · exact hend.moved q hq
        · intro q hq
          rcases List.mem_cons.mp hq with rfl | hq
          · exact hend.next.imp_left (List.mem_cons_of_mem _)
          · exact (hend.closed q hq).imp_left (List.mem_cons_of_mem _)
        · exact .inl List.mem_cons_self
        · rw [hunion]
          exact hend.marked
        · rw [hunion, List.cons_append, List.filter_cons_of_pos (by simpa using h0), arranged_cons,
            ← mul_assoc]
          exact hend.sorted

theorem Sorted.cycling (ht : Sorted s V t) (hV : i ∉ V) (hzero : i ≠ 0 → t 0 = 0) :
    Cycling s (insert i V) i (s i) (t * arranged ([i].filter (· ≠ 0))) := by
  rw [arranged_filter, arranged_cons, arranged_nil, mul_one]
  have hother : ∀ p, p ≠ 0 → p ≠ i → (t * Equiv.swap 0 i) p = t p := by
    intro p hp hpi
    rw [Equiv.Perm.mul_apply, Equiv.swap_apply_of_ne_of_ne hp hpi]
  constructor
  · exact Finset.mem_insert_self _ _
  · rw [Equiv.Perm.mul_apply, Equiv.swap_apply_left, ht.rest i hV]
  · intro p hp hpi hp0
    rw [hother p hp0 hpi, ht.fixed p ((Finset.mem_insert.mp hp).resolve_left hpi)]
  · intro p hp hp0
    rw [Finset.mem_insert, not_or] at hp
    rw [hother p hp0 hp.1, ht.rest p hp.2]
  · intro hi
    rw [Equiv.Perm.mul_apply, Equiv.swap_apply_right, hzero hi]
  · intro h0
    rw [Finset.mem_insert, not_or] at h0
    rw [← ht.rest 0 h0.2, hzero (Ne.symm h0.1)]

/-- One cycle from its first place on: what is visited after it, and how many exchanges it took. -/
theorem cycle_ok (hs : ∀ p, d ≤ p → s p = p) (hsw : s = arranged w) (hm : Marked s d V stack)
    (ht : Sorted s V t) (hV : i ∉ V) (hi : s i ≠ i) (hid : i < d) (hzero : i ≠ 0 → t 0 = 0) :
    ∃ emitted stack' C, cycleFrom i (d + 1) stack i = .ok (emitted, stack') ∧ i ∈ C ∧
      Disjoint V C ∧ Marked s d (V ∪ C) stack' ∧ Sorted s (V ∪ C) (t * arranged emitted) ∧
        (∀ e ∈ emitted, e ≠ 0 ∧ e < d) ∧ emitted.length ≤ ∑ c ∈ C.erase 0, w.count c := by
  obtain ⟨js, stack', hrun, hend⟩ := @cycleFrom_ok d _ _ _ _ _ _ _ hs (hm.set hid)
    (ht.cycling hV hzero)
    (by rw [Finset.card_insert_of_notMem hV]; omega)
  have hunion : V ∪ insert i js.toFinset = insert i V ∪ js.toFinset := by
    rw [Finset.union_insert, Finset.insert_union]
  have hne : i ∉ js.toFinset := by
    rw [List.mem_toFinset]
    exact fun hmem => (hend.fresh i hmem).1 (Finset.mem_insert_self _ _)
  have hclosed : ∀ c ∈ insert i js.toFinset, s c ∈ insert i js.toFinset := by
    intro c hc
    rw [Finset.mem_insert, List.mem_toFinset] at hc ⊢
    rcases hc with rfl | hc
    · exact hend.next.symm
    · exact (hend.closed c hc).symm
  have hmoved : ∀ c ∈ insert i js.toFinset, s c ≠ c := by
    intro c hc
    rw [Finset.mem_insert, List.mem_toFinset] at hc
    rcases hc with rfl | hc
    · exact hi
    · exact hend.moved c hc
  refine ⟨[i].filter (· ≠ 0) ++ (js ++ [i]).filter (· ≠ 0), stack', insert i js.toFinset, ?_,
    Finset.mem_insert_self _ _, ?_, ?_, ?_, ?_, ?_⟩
  · rw [cycleFrom, index_eq (hm.get i hid), ok_bind, if_neg hV]
    dsimp only
    rw [hrun, ok_bind]
    by_cases h0 : i = 0
    · rw [if_pos h0, List.filter_cons_of_neg (by simpa using h0)]
      rfl
    · rw [if_neg h0, List.filter_cons_of_pos (by simpa using h0)]
      rfl
  · rw [Finset.disjoint_left]
    intro q hq hmem
    rcases Finset.mem_insert.mp hmem with rfl | hmem
    · exact hV hq
    · exact (hend.fresh q (List.mem_toFinset.mp hmem)).1 (Finset.mem_insert_of_mem hq)
  · rw [hunion]
    exact hend.marked
  · rw [hunion, arranged_append, ← mul_assoc]
    exact hend.sorted
  · intro e he
    simp only [List.mem_append, List.mem_filter, List.mem_singleton, decide_eq_true_eq] at he
    rcases he with ⟨rfl, h0⟩ | ⟨he | rfl, h0⟩
    · exact ⟨h0, hid⟩
    · exact ⟨h0, (hend.fresh e he).2.2⟩
    · exact ⟨h0, hid⟩
  · have hjs : js.filter (· ≠ 0) = js := by
      rw [List.filter_eq_self]
      intro q hq
      simpa using (hend.fresh q hq).2.1
    have hcard : js.toFinset.card = js.length := List.toFinset_card_of_nodup hend.nodup
    have hzeroJs : 0 ∉ js.toFinset := by
      rw [List.mem_toFinset]
      exact fun hmem => (hend.fresh 0 hmem).2.1 rfl
    subst hsw
    rw [List.filter_append, hjs]
    by_cases h0 : i = 0
    · subst h0
      have hcount := card_le_sum_count (w := w) hzeroJs fun c hc =>
        hmoved c (Finset.mem_insert_of_mem hc)
      rw [Finset.erase_insert hne]
      simpa [hcard] using hcount
    · have hzeroC : 0 ∉ insert i js.toFinset := by
        rw [Finset.mem_insert, not_or]
        exact ⟨Ne.symm h0, hzeroJs⟩
      have hcount := card_lt_sum_count (w := w) hzeroC hmoved hclosed ⟨i, Finset.mem_insert_self _ _⟩
      rw [Finset.erase_eq_of_notMem hzeroC]
      rw [Finset.card_insert_of_notMem hne, hcard] at hcount
      rw [List.filter_cons_of_pos (by simpa using h0)]
      simp only [List.filter_nil, List.length_append, List.length_singleton]
      omega

/-- The places below `a` are visited or stay where they are; what is left to do sorts the rest, with
no more exchanges than `w` has for it. -/
theorem cyclesFrom_ok (hs : ∀ p, d ≤ p → s p = p) (hsw : s = arranged w) {k : ℕ} (ha : a + k = d)
    (hm : Marked s d V stack) (ht : Sorted s V t) (hdone : ∀ p < a, p ∈ V ∨ s p = p) :
    ∃ emitted, cyclesFrom (List.range' a k) stack = .ok emitted ∧ t * arranged emitted = 1 ∧
      (∀ e ∈ emitted, e ≠ 0 ∧ e < d) ∧
        emitted.length ≤ ∑ c ∈ (Finset.range d \ V).erase 0, w.count c := by
  induction k generalizing a V t stack with
  | zero =>
    refine ⟨[], rfl, ?_, by simp, by simp⟩
    ext p
    rw [arranged_nil, mul_one, Equiv.Perm.one_apply]
    by_cases hp : p ∈ V
    · exact ht.fixed p hp
    · rw [ht.rest p hp]
      by_cases hpd : p < d
      · exact (hdone p (by omega)).resolve_left hp
      · exact hs p (by omega)
  | succ k ih =>
    rw [List.range'_succ, cyclesFrom, index_eq (hm.get a (by omega)), ok_bind]
    have hskip : (a ∈ V ∨ s a = a) → ∀ p < a + 1, p ∈ V ∨ s p = p := by
      intro h p hp
      by_cases hpa : p = a
      · exact hpa ▸ h
      · exact hdone p (by omega)
    by_cases hV : a ∈ V
    · rw [if_pos hV]
      exact ih (by omega) hm ht (hskip (.inl hV))
    · rw [if_neg hV]
      dsimp only
      by_cases hfix : s a = a
      · rw [if_pos hfix]
        exact ih (by omega) hm ht (hskip (.inr hfix))
      · rw [if_neg hfix]
        have hzero : a ≠ 0 → t 0 = 0 := by
          intro ha0
          by_cases h0 : 0 ∈ V
          · exact ht.fixed 0 h0
          · rw [ht.rest 0 h0]
            exact (hdone 0 (by omega)).resolve_left h0
        obtain ⟨emitted, stack', C, hrun, hmem, hdisj, hm', ht', hes, hcount⟩ :=
          cycle_ok hs hsw hm ht hV hfix (by omega) hzero
        obtain ⟨rest, hrest, hone, hes', hcount'⟩ := ih (a := a + 1) (by omega) hm' ht' (by
          intro p hp
          by_cases hpa : p = a
          · exact .inl (hpa ▸ Finset.mem_union_right _ hmem)
          · exact (hdone p (by omega)).imp_left (Finset.mem_union_left _))
        refine ⟨emitted ++ rest, ?_, ?_, ?_, ?_⟩
        · rw [hm.length, hrun, ok_bind, hrest]
          rfl
        · rw [arranged_append, ← mul_assoc, hone]
        · intro e he
          exact (List.mem_append.mp he).elim (hes e) (hes' e)
        · have hapart : Disjoint (C.erase 0) ((Finset.range d \ (V ∪ C)).erase 0) := by
            rw [Finset.disjoint_left]
            intro c hc hc'
            simp only [Finset.mem_erase, Finset.mem_sdiff, Finset.mem_union, not_or] at hc hc'
            exact hc'.2.2.2 hc.2
          have hsub : C.erase 0 ∪ (Finset.range d \ (V ∪ C)).erase 0 ⊆
              (Finset.range d \ V).erase 0 := by
            intro c hc
            simp only [Finset.mem_union, Finset.mem_erase, Finset.mem_sdiff, not_or] at hc ⊢
            rcases hc with ⟨h0, hC⟩ | ⟨h0, hd, hcV, -⟩
            · exact ⟨h0, hm'.inside (Finset.mem_union_right _ hC),
                fun hcV => Finset.disjoint_left.mp hdisj hcV hC⟩
            · exact ⟨h0, hd, hcV⟩
          rw [List.length_append]
          calc emitted.length + rest.length
              ≤ ∑ c ∈ C.erase 0 ∪ (Finset.range d \ (V ∪ C)).erase 0, w.count c := by
                rw [Finset.sum_union hapart]
                omega
            _ ≤ ∑ c ∈ (Finset.range d \ V).erase 0, w.count c :=
                Finset.sum_le_sum_of_subset hsub

/-! The run that is written. -/

/-- Exchanges of entries and slots left free. -/
def IsRun (run : List (CfgInstr n m)) : Prop :=
  ∀ i ∈ run, i.op = .Nop ∨ i.op = .Swap ∧ 1 ≤ i.arg.toNat

theorem places_append {run' : List (CfgInstr n m)} :
    places (run ++ run') = places run ++ places run' := by
  rw [places, List.filter_append, List.map_append]
  rfl

theorem written_ok {emitted : List ℕ} (hlen : emitted.length = run.length)
    (he : ∀ e ∈ emitted, e < 2 ^ 32 - 1) :
    let out := List.zipWith (fun j slot => { slot with op := .Swap, arg := UInt32.ofNat (j + 1) })
      emitted run
    IsRun out ∧ places out = emitted := by
  induction emitted generalizing run with
  | nil => exact ⟨by simp [IsRun], rfl⟩
  | cons e emitted ih =>
    cases run with
    | nil => cases hlen
    | cons slot run =>
      obtain ⟨hrun, hplaces⟩ := ih (Nat.succ.inj hlen) fun e he' => he e (List.mem_cons_of_mem _ he')
      have harg : (UInt32.ofNat (e + 1)).toNat = e + 1 := by
        have := he e List.mem_cons_self
        rw [UInt32.toNat_ofNat']
        omega
      constructor
      · intro i hi
        rcases List.mem_cons.mp hi with rfl | hi
        · exact .inr ⟨rfl, by dsimp only; omega⟩
        · exact hrun i hi
      · rw [List.zipWith_cons_cons, places_cons_swap rfl, hplaces, harg]
        rfl

theorem writeBack_ok {emitted : List ℕ} (hlen : emitted.length ≤ run.length)
    (he : ∀ e ∈ emitted, e < 2 ^ 32 - 1) : ∃ out, writeBack emitted run = .ok out ∧
      out.length = run.length ∧ IsRun out ∧ places out = emitted.reverse := by
  obtain ⟨hrun, hplaces⟩ := @written_ok _ _ (run.drop (run.length - emitted.length))
    emitted.reverse (by rw [List.length_reverse, List.length_drop]; omega)
    fun e hmem => he e (List.mem_reverse.mp hmem)
  have hfree : places ((run.take (run.length - emitted.length)).map setNop) = [] := by
    rw [places, List.filter_eq_nil_iff.mpr, List.map_nil]
    intro i hi
    obtain ⟨slot, -, rfl⟩ := List.mem_map.mp hi
    simp [setNop]
  rw [writeBack, if_neg (by omega)]
  refine ⟨_, rfl, ?_, ?_, ?_⟩
  · simp only [List.length_append, List.length_map, List.length_take, List.length_zipWith,
      List.length_reverse, List.length_drop]
    omega
  · intro i hi
    rcases List.mem_append.mp hi with hi | hi
    · obtain ⟨slot, -, rfl⟩ := List.mem_map.mp hi
      exact .inl rfl
    · exact hrun i hi
  · rw [places_append, hfree, hplaces, List.nil_append]

section Exec

variable {V : Type} {other : CfgInstr n m → Frame V → Option (Frame V)} {frame frame' : Frame V}
  {st : List V} {k : ℕ}

theorem swapTop_some {st' : List V} (h : swapTop st k = some st') : k < st.length ∧
    st'.length = st.length ∧ ∀ p : ℕ, st'[p]? = st[Equiv.swap 0 k p]? := by
  obtain ⟨top, htop, h⟩ := Option.bind_eq_some_iff.mp h
  obtain ⟨deep, hdeep, h⟩ := Option.bind_eq_some_iff.mp h
  obtain rfl := Option.some.inj h
  exact ⟨(List.getElem?_eq_some_iff.mp hdeep).1, by simp, set_set_getElem? htop hdeep⟩

theorem swapTop_isSome (h : k < st.length) : ∃ st', swapTop st k = some st' := by
  rw [swapTop, List.getElem?_eq_getElem h, List.getElem?_eq_getElem (show 0 < st.length by omega)]
  exact ⟨_, rfl⟩

theorem exec_swap {i : CfgInstr n m} (h : i.op = .Swap) : exec other (i :: run) frame =
    (swapTop frame.stack (i.arg.toNat - 1)).bind fun stack =>
      exec other run { frame with stack := stack } := by
  rw [exec, execInstr, if_neg (by rw [h]; decide), if_pos h]
  cases swapTop frame.stack (i.arg.toNat - 1) <;> rfl

/-- What a run did to the stack. -/
theorem exec_run_some (hrun : IsRun run) (h : exec other run frame = some frame') :
    frame'.locals = frame.locals ∧ frame'.stack.length = frame.stack.length ∧
      (∀ e ∈ places run, e < frame.stack.length) ∧
        ∀ p : ℕ, frame'.stack[p]? = frame.stack[arranged (places run) p]? := by
  induction run generalizing frame with
  | nil =>
    obtain rfl := Option.some.inj h
    exact ⟨rfl, rfl, by simp [places], fun _ => rfl⟩
  | cons i run ih =>
    have hrest : IsRun run := fun e he => hrun e (List.mem_cons_of_mem _ he)
    rcases hrun i List.mem_cons_self with hop | ⟨hop, -⟩
    · rw [exec_nop hop] at h
      rw [places_cons_of_ne (by rw [hop]; decide)]
      exact ih hrest h
    · rw [exec_swap hop] at h
      obtain ⟨st, hst, h⟩ := Option.bind_eq_some_iff.mp h
      obtain ⟨hk, hlen, hget⟩ := swapTop_some hst
      obtain ⟨hlocals, hlen', hall, hperm⟩ := ih hrest h
      rw [places_cons_swap hop]
      refine ⟨hlocals, hlen'.trans hlen, ?_, ?_⟩
      · intro e he
        rcases List.mem_cons.mp he with rfl | he
        · exact hk
        · exact hlen ▸ hall e he
      · intro p
        rw [hperm, hget, arranged_cons, Equiv.Perm.mul_apply]

theorem exec_run_isSome (hrun : IsRun run) (h : ∀ e ∈ places run, e < frame.stack.length) :
    ∃ frame', exec other run frame = some frame' := by
  induction run generalizing frame with
  | nil => exact ⟨frame, rfl⟩
  | cons i run ih =>
    have hrest : IsRun run := fun e he => hrun e (List.mem_cons_of_mem _ he)
    rcases hrun i List.mem_cons_self with hop | ⟨hop, -⟩
    · rw [places_cons_of_ne (by rw [hop]; decide)] at h
      rw [exec_nop hop]
      exact ih hrest h
    · rw [places_cons_swap hop] at h
      obtain ⟨st, hst⟩ := swapTop_isSome (h _ List.mem_cons_self)
      obtain ⟨-, hlen, -⟩ := swapTop_some hst
      rw [exec_swap hop, hst, Option.bind_some]
      apply ih hrest
      intro e he
      dsimp only
      rw [hlen]
      exact h e (List.mem_cons_of_mem _ he)

/-- Runs that put the same places where they were do the same, where both can run. -/
theorem exec_run_congr {out : List (CfgInstr n m)} (hrun : IsRun run) (hout : IsRun out)
    (hperm : arranged (places out) = arranged (places run))
    (hdepth : ∀ l, (∀ e ∈ places run, e < l) → ∀ e ∈ places out, e < l)
    (h : exec other run frame = some frame') : exec other out frame = some frame' := by
  obtain ⟨hlocals, hlen, hall, hget⟩ := exec_run_some hrun h
  obtain ⟨frame'', hexec⟩ := @exec_run_isSome _ _ _ _ other _ hout (hdepth _ hall)
  obtain ⟨hlocals', hlen', -, hget'⟩ := exec_run_some hout hexec
  obtain ⟨stack, locals⟩ := frame'
  obtain ⟨stack', locals'⟩ := frame''
  rw [hexec]
  congr 2
  · apply List.ext_getElem?
    intro p
    rw [hget p, hget' p, hperm]
  · exact hlocals'.trans hlocals.symm

end Exec

theorem maxDepth_ok {first : CfgInstr n m} (hswap : first.op = .Swap) :
    (∀ i ∈ first :: run, i.op = .Swap → i.arg.toNat ≤ maxDepth first run) ∧
      ∃ i ∈ first :: run, i.op = .Swap ∧ i.arg.toNat = maxDepth first run := by
  have hfold : ∀ (l : List (CfgInstr n m)) (d : ℕ),
      let depth := l.foldl (fun depth i => if i.op = .Swap then max depth i.arg.toNat else depth) d
      d ≤ depth ∧ (∀ i ∈ l, i.op = .Swap → i.arg.toNat ≤ depth) ∧
        (depth = d ∨ ∃ i ∈ l, i.op = .Swap ∧ i.arg.toNat = depth) := by
    intro l
    induction l with
    | nil => simp
    | cons i l ih =>
      intro d
      obtain ⟨hle, hall, hex⟩ := ih (if i.op = .Swap then max d i.arg.toNat else d)
      refine ⟨?_, ?_, ?_⟩
      · apply le_trans _ hle
        split_ifs
        · exact le_max_left _ _
        · exact le_rfl
      · intro e he hop
        rcases List.mem_cons.mp he with rfl | he
        · rw [if_pos hop] at hle
          simp only [List.foldl_cons, if_pos hop]
          exact (le_max_right _ _).trans hle
        · exact hall e he hop
      · rcases hex with heq | ⟨e, he, hop, heq⟩
        · by_cases hop : i.op = .Swap
          · rw [if_pos hop] at heq
            rcases le_total i.arg.toNat d with hd | hd
            · left
              rw [List.foldl_cons, if_pos hop]
              omega
            · right
              refine ⟨i, List.mem_cons_self, hop, ?_⟩
              rw [List.foldl_cons, if_pos hop]
              omega
          · left
            rw [if_neg hop] at heq
            rw [List.foldl_cons, if_neg hop]
            exact heq
        · exact .inr ⟨e, List.mem_cons_of_mem _ he, hop, heq⟩
  obtain ⟨hle, hall, hex⟩ := hfold run first.arg.toNat
  constructor
  · intro i hi hop
    rcases List.mem_cons.mp hi with rfl | hi
    · exact hle
    · exact hall i hi hop
  · rcases hex with heq | ⟨i, hi, hop, heq⟩
    · exact ⟨first, List.mem_cons_self, hswap, heq.symm⟩
    · exact ⟨i, List.mem_cons_of_mem _ hi, hop, heq⟩

theorem mem_places {i : CfgInstr n m} (hi : i ∈ run) (h : i.op = .Swap) :
    i.arg.toNat - 1 ∈ places run :=
  List.mem_map_of_mem (List.mem_filter.mpr ⟨hi, by simpa using h⟩)

/-- The exchanges for a run fit in its slots and permute as it does. -/
theorem emitted_ok {first : CfgInstr n m} (hswap : first.op = .Swap) (hrun : IsRun (first :: run)) :
    let d := maxDepth first run
    ∃ stack emitted out, permute (first :: run) (List.range d) = .ok stack ∧
      cyclesFrom (List.range d) (stack.map some) = .ok emitted ∧
        writeBack emitted (first :: run) = .ok out ∧ out.length = run.length + 1 ∧ IsRun out ∧
          arranged (places out) = arranged (places (first :: run)) ∧ ∀ e ∈ places out, e < d := by
  intro d
  obtain ⟨hmax, i, hi, hop, hd⟩ := @maxDepth_ok _ _ run _ hswap
  have hnamed : ∀ e ∈ places (first :: run), e < d := by
    intro e he
    obtain ⟨j, hj, rfl⟩ := List.mem_map.mp he
    obtain ⟨hj, hjop⟩ := List.mem_filter.mp hj
    have hjop' : j.op = .Swap := by simpa using hjop
    have hle := hmax j hj hjop'
    have hpos : 1 ≤ j.arg.toNat := by
      rcases hrun j hj with hnop | ⟨-, hpos⟩
      · rw [hnop] at hjop'
        cases hjop'
      · exact hpos
    omega
  obtain ⟨stack, hpermute, hlen, hstack⟩ := @permute_ok _ _ d 1 (first :: run)
    (List.range d) List.length_range (fun p hp => by rw [List.getElem?_range hp]; rfl) hnamed
  rw [one_mul] at hstack
  have hfixed : ∀ p, d ≤ p → arranged (places (first :: run)) p = p := by
    intro p hp
    apply arranged_of_not_mem
    · intro hmem
      have := hnamed p hmem
      omega
    · have := hnamed _ (mem_places List.mem_cons_self hswap)
      omega
  obtain ⟨emitted, hcycles, hone, hes, hcount⟩ := @cyclesFrom_ok d 0 (arranged (places (first :: run)))
    (arranged (places (first :: run))) ∅ (places (first :: run)) (stack.map some) hfixed rfl d (by omega)
    ⟨by rw [List.length_map, hlen], by simp, fun p hp => by simp [hstack p hp]⟩ ⟨by simp, by simp⟩
    (by simp)
  have hfew := hcount.trans (sum_count_le _ _)
  have hslots : (places (first :: run)).length ≤ (first :: run).length := by
    rw [places, List.length_map]
    exact List.length_filter_le _ _
  obtain ⟨out, hwrite, hout, houtRun, hplaces⟩ := writeBack_ok (hfew.trans hslots) (fun e he => by
    have := (hes e he).2
    have := i.arg.toNat_lt
    omega)
  refine ⟨stack, emitted, out, hpermute, ?_, hwrite, hout, houtRun, ?_, ?_⟩
  · rw [List.range_eq_range']
    exact hcycles
  · rw [hplaces, arranged_reverse]
    exact (eq_inv_of_mul_eq_one_left hone).symm
  · intro e he
    rw [hplaces, List.mem_reverse] at he
    exact (hes e he).2

/-- A run between instructions that are none of it. -/
theorem swaptimize_ok {first : CfgInstr n m} {pre post : List (CfgInstr n m)}
    (hswap : first.op = .Swap) (hrun : IsRun (first :: run))
    (hpost : ∀ i ∈ post.head?, i.op ≠ .Swap ∧ i.op ≠ .Nop) : ∃ out ix,
      swaptimize (pre ++ (first :: run) ++ post) pre.length = .ok (pre ++ out ++ post, ix) ∧
        out.length = run.length + 1 ∧ IsRun out ∧ ∀ (V : Type) (other : CfgInstr n m → Frame V →
          Option (Frame V)) frame frame', exec other (first :: run) frame = some frame' →
            exec other out frame = some frame' := by
  have hdrop : (pre ++ (first :: run) ++ post).drop pre.length = first :: (run ++ post) := by
    rw [List.append_assoc, List.drop_left]
    rfl
  have htail : runTail (run ++ post) = run := by
    rw [runTail, List.takeWhile_append_of_pos]
    · cases post with
      | nil => simp
      | cons i post =>
        rw [List.takeWhile_cons_of_neg, List.append_nil]
        simpa using hpost i rfl
    · intro i hi
      rcases hrun i (List.mem_cons_of_mem _ hi) with hop | ⟨hop, -⟩
      · simp [hop]
      · simp [hop]
  rw [swaptimize, hdrop]
  dsimp only
  rw [if_neg (not_not.mpr hswap), htail]
  by_cases hone : run.all (·.op ≠ .Swap) = true
  · rw [if_pos hone]
    exact ⟨first :: run, _, rfl, rfl, hrun, fun _ _ _ _ h => h⟩
  · obtain ⟨stack, emitted, out, hpermute, hcycles, hwrite, hlen, hout, hperm, hdepth⟩ :=
      emitted_ok hswap hrun
    refine ⟨out, pre.length + run.length, ?_, hlen, hout, ?_⟩
    · have htake : (pre ++ first :: run ++ post).take pre.length = pre := by simp
      rw [if_neg hone, hpermute, ok_bind, hcycles, ok_bind, hwrite, ok_bind, htake, List.drop_left]
      rfl
    · intro V other frame frame' h
      apply exec_run_congr hrun hout hperm _ h
      intro l hl e he
      obtain ⟨-, i, hi, hop, hd⟩ := @maxDepth_ok _ _ run _ hswap
      have hlast := hl _ (mem_places hi hop)
      have hlt := hdepth e he
      omega

/-- A run of exchanges is rewritten in its own slots to one that does the same, and the exchanges that
are pushed into stores leave what a block does as it is. -/
theorem swap_reduction_exact (n m : ℕ) :
    (∀ (pre post run : List (CfgInstr n m)) (first : CfgInstr n m), first.op = .Swap →
      IsRun (first :: run) → (∀ i ∈ post.head?, i.op ≠ .Swap ∧ i.op ≠ .Nop) → ∃ out ix,
        swaptimize (pre ++ (first :: run) ++ post) pre.length = .ok (pre ++ out ++ post, ix) ∧
          out.length = run.length + 1 ∧ IsRun out ∧ ∀ (V : Type) (other : CfgInstr n m → Frame V →
            Option (Frame V)) frame frame', exec other (first :: run) frame = some frame' →
              exec other out frame = some frame') ∧
      ∀ (instrs : List (CfgInstr n m)) (i : ℕ), SwapsNamed instrs → ∀ (V : Type)
        (other : CfgInstr n m → Frame V → Option (Frame V)) frame,
          exec other (applyStaticSwaps instrs i) frame = exec other instrs frame :=
  ⟨fun _ _ _ _ hswap hrun hpost => swaptimize_ok hswap hrun hpost,
    fun _ _ hnamed _ _ frame => applyStaticSwaps_exec hnamed frame⟩

def bareInstr (op : OpCode) (arg : UInt32) : CfgInstr 1 0 := ⟨op, arg, NO_LOCATION, none, none⟩

theorem swap_reduction_run : ∃ out ix,
    swaptimize [bareInstr .Swap 2, bareInstr .Nop 0, bareInstr .Swap 3, bareInstr .Swap 2,
      bareInstr .StoreFast 0] 0 = .ok (out ++ [bareInstr .StoreFast 0], ix) ∧ out.length = 4 ∧
        exec (fun _ frame => some frame) (applyStaticSwaps [bareInstr .Swap 2, bareInstr .StoreFast 0,
          bareInstr .StoreFast 1] 0) ⟨["a", "b"], fun _ => ""⟩ =
        exec (fun _ frame => some frame) [bareInstr .Swap 2, bareInstr .StoreFast 0,
          bareInstr .StoreFast 1] ⟨["a", "b"], fun _ => ""⟩ := by
  obtain ⟨hrun, hstatic⟩ := swap_reduction_exact 1 0
  obtain ⟨out, ix, hout, hlen, -⟩ := hrun [] [bareInstr .StoreFast 0]
    [bareInstr .Nop 0, bareInstr .Swap 3, bareInstr .Swap 2] (bareInstr .Swap 2) rfl
    (by unfold IsRun; decide) (by simp [bareInstr])
  refine ⟨out, ix, hout, hlen, hstatic _ 0 ?_ String _ _⟩
  unfold SwapsNamed
  decide

end WeavePy.Flowgraph
