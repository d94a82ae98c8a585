import WeavePy.Gc.Sweeps

/-!
The rebuild at the end of a collection: the generations are taken apart, the slots sorted into the lists
they go to while unreached candidates are dropped, and the lists put back.
-/

namespace WeavePy.Gc

open GcState

namespace GcState

/-- The slots of the given generations' new lists. -/
def Lists.flat (lists : Lists) (gs : List (Fin nGenerations)) : List ℕ := gs.flatMap lists

theorem Lists.push_perm (lists : Lists) {g : Fin nGenerations} (s : ℕ) {gs : List (Fin nGenerations)}
    (hnodup : gs.Nodup) (hg : g ∈ gs) : (s :: lists.flat gs).Perm ((lists.push g s).flat gs) := by
  unfold Lists.flat Lists.push
  induction gs with
  | nil => simp at hg
  | cons g' gs ih =>
    rw [List.nodup_cons] at hnodup
    rw [List.flatMap_cons, List.flatMap_cons]
    by_cases heq : g' = g
    · subst heq
      have hsame : gs.flatMap (Function.update lists g' (lists g' ++ [s])) = gs.flatMap lists := by
        apply List.flatMap_congr
        rintro u hu
        apply Function.update_of_ne
        rintro rfl
        exact hnodup.1 hu
      rw [hsame, Function.update_self, List.append_assoc]
      exact List.perm_middle.symm
    · have hmem : g ∈ gs := List.mem_of_ne_of_mem (Ne.symm heq) hg
      rw [Function.update_of_ne heq]
      exact List.perm_middle.symm.trans ((ih hnodup.2 hmem).append_left _)

theorem Lists.mem_flat {lists : Lists} {g : Fin nGenerations} {s : ℕ} (h : s ∈ lists g) :
    s ∈ lists.flat (List.finRange nGenerations) :=
  List.mem_flatMap.mpr ⟨g, List.mem_finRange g, h⟩

end GcState

namespace Sound

/-- An unmarked entry in hand that names generation `gen`. -/
def Sorted (r : Registry) (gen s : ℕ) : Prop :=
  ∃ e, r.slab[s]? = some e ∧ e.obj ≠ none ∧ e.gen = gen ∧ ¬ e.has fCand

/-- A rebuild in the middle of generation `g`, with the slots `rest` of it to come. -/
structure Apart (g : Fin nGenerations) (gs : List (Fin nGenerations)) (rest : List ℕ)
    (x : GcState × Lists) : Prop where
  sound : Sound (Remaining rest gs) x.1 (rest ++ x.2.flat (List.finRange nGenerations))
  sorted : ∀ g s, s ∈ x.2 g → Sorted x.1.reg g s
  inHand : ∀ s ∈ rest, ∃ e, x.1.reg.slab[s]? = some e ∧ e.obj ≠ none ∧ e.gen = g

variable {P : ℕ → ℕ → Prop} {t : GcState} {loose l l₀ : List ℕ} {s gen : ℕ} {e : Entry}
  {g target : Fin nGenerations} {gs : List (Fin nGenerations)} {rest : List ℕ} {lists : Lists}

theorem loose_nodup (h : Sound P t loose) : loose.Nodup := by
  obtain ⟨freed, hf⟩ := h.placed
  exact hf.loose_nodup

theorem Apart.not_mem (h : Apart g gs (s :: rest) (t, lists)) :
    s ∉ rest ∧ ∀ g, s ∉ lists g := by
  have hnodup := h.sound.loose_nodup
  rw [List.cons_append, List.nodup_cons, List.mem_append, not_or] at hnodup
  exact ⟨hnodup.1.1, fun g hg => hnodup.1.2 (Lists.mem_flat hg)⟩

/-- A slot whose entry names generation `target` by now goes to the end of its list. -/
theorem Apart.push {t' : GcState} (h : Apart g gs (s :: rest) (t, lists))
    (hsound : Sound (Remaining (s :: rest) gs) t' ((s :: rest) ++ lists.flat (List.finRange nGenerations)))
    (hs : Sorted t'.reg target s) (hsame : ∀ u, u ≠ s → t'.reg.slab[u]? = t.reg.slab[u]?) :
    Apart g gs rest (t', lists.push target s) := by
  obtain ⟨hrest, hlists⟩ := h.not_mem
  obtain ⟨e, he, hobj, hgen, hcand⟩ := hs
  constructor
  · apply (hsound.remaining_of_clear ⟨e, he, hcand⟩).perm
    rw [List.cons_append]
    exact List.perm_middle.symm.trans ((lists.push_perm s (List.nodup_finRange _) (List.mem_finRange target)).append_left rest)
  · intro g' u hu
    dsimp only [Lists.push] at hu ⊢
    have hold : ∀ u ∈ lists g', Sorted t'.reg g' u := by
      clear hu
      intro u hu
      obtain ⟨e', he', hrest'⟩ := h.sorted g' u hu
      have hne : u ≠ s := by
        rintro rfl
        exact hlists g' hu
      exact ⟨e', by rw [hsame u hne, he'], hrest'⟩
    by_cases hg : g' = target
    · subst hg
      rw [Function.update_self, List.mem_append, List.mem_singleton] at hu
      rcases hu with hu | rfl
      · exact hold u hu
      · exact ⟨e, he, hobj, hgen, hcand⟩
    · rw [Function.update_of_ne hg] at hu
      exact hold u hu
  · intro u hu
    obtain ⟨e', he', hrest'⟩ := h.inHand u (by simp [hu])
    have hne : u ≠ s := by
      rintro rfl
      exact hrest hu
    exact ⟨e', by rw [hsame u hne, he'], hrest'⟩

theorem Apart.rehome (h : Apart g gs (s :: rest) (t, lists)) :
    ∃ x, GcState.rehome g (t, lists) s = .ok x ∧ Apart g gs rest x ∧ x.1.collecting = t.collecting := by
  obtain ⟨hrest, hlists⟩ := h.not_mem
  obtain ⟨e, he, hobj, hgen⟩ := h.inHand s (by simp)
  dsimp only at he
  have hsame : ∀ (e' : Entry) (u : ℕ), u ≠ s → (t.reg.setEntry s e').slab[u]? = t.reg.slab[u]? := by
    intro e' u hu
    rw [Registry.slab_setEntry, List.getElem?_set_ne hu.symm]
  have hget : ∀ e' : Entry, (t.reg.setEntry s e').slab[s]? = some e' := by
    intro e'
    rw [Registry.slab_setEntry, Layout.getElem?_set_of_some he, if_pos rfl]
  unfold GcState.rehome
  dsimp only
  rw [Registry.listEntry_ok he, ok_bind]
  split_ifs with hcand hreached
  · refine ⟨_, rfl, h.push ?_ ⟨_, hget _, hobj, rfl, clear_has e⟩ (hsame _), rfl⟩
    exact h.sound.setLoose (by simp) he rfl (clear_has e)
  · obtain ⟨w, hw⟩ := Option.ne_none_iff_exists'.mp hobj
    have hset := h.sound.setLoose (by simp) he (show (e.set (fCand ||| fReached) false).obj = e.obj from rfl) (clear_has e)
    have hheld : (t.reg.setEntry s (e.set (fCand ||| fReached) false)).held s = some w := by
      rw [Registry.held_of_some (hget _)]
      exact hw
    obtain ⟨t', hrun, ht', _, hcoll, hslab⟩ :=
      (hset.remaining_of_clear ⟨_, hget _, clear_has e⟩).drop hheld
    have hslab' : ∀ u, u ≠ s → t'.reg.slab[u]? = t.reg.slab[u]? :=
      fun u hu => (hslab u hu).trans (hsame _ u hu)
    rw [hrun, ok_bind]
    refine ⟨_, rfl, ⟨ht', ?_, ?_⟩, hcoll⟩
    · intro g' u hu
      obtain ⟨e', he', hrest'⟩ := h.sorted g' u hu
      have hne : u ≠ s := by
        rintro rfl
        exact hlists g' hu
      exact ⟨e', by rw [← he']; exact hslab' u hne, hrest'⟩
    · intro u hu
      obtain ⟨e', he', hrest'⟩ := h.inHand u (by simp [hu])
      have hne : u ≠ s := by
        rintro rfl
        exact hrest hu
      exact ⟨e', by rw [← he']; exact hslab' u hne, hrest'⟩
  · exact ⟨_, rfl, h.push h.sound ⟨e, he, hobj, hgen, hcand⟩ fun _ _ => rfl, rfl⟩

theorem takeApart (h : Sound (Remaining [] (g :: gs)) t (lists.flat (List.finRange nGenerations)))
    (hsorted : ∀ g s, s ∈ lists g → Sorted t.reg g s) :
    ∃ x, GcState.takeApart (t, lists) g = .ok x ∧ x.1.collecting = t.collecting ∧
      Sound (Remaining [] gs) x.1 (x.2.flat (List.finRange nGenerations)) ∧
      ∀ g s, s ∈ x.2 g → Sorted x.1.reg g s := by
  have hplain : ∀ s ∈ lists.flat (List.finRange nGenerations), Plain t.reg s := by
    intro s hs
    obtain ⟨g', _, hg'⟩ := List.mem_flatMap.mp hs
    obtain ⟨e, he, hobj, _, hcand⟩ := hsorted g' s hg'
    exact ⟨e, he, hobj, hcand⟩
  have htake := (h.remaining_of_take hplain).take (isList_gen g)
  rw [Registry.list_gens] at htake
  have hapart : Apart g gs (t.reg.gens g) ({ t with reg := t.reg.setList g [] }, lists) := by
    refine ⟨htake, ?_, ?_⟩
    · intro g' s hs
      obtain ⟨e, he, hrest⟩ := hsorted g' s hs
      exact ⟨e, by rw [Registry.slab_setList, he], hrest⟩
    · intro s hs
      rw [← Registry.list_gens] at hs
      obtain ⟨e, he, hobj, hgen, _⟩ := h.listed_of_mem hs
      exact ⟨e, by rw [Registry.slab_setList, he], hobj, hgen⟩
  obtain ⟨x, hrun, hx, hcoll⟩ := foldlM_ok
    (fun rest x => Apart g gs rest x ∧ x.1.collecting = t.collecting)
    (fun s rest x hx => by
      obtain ⟨x', hrun, hx', hcoll⟩ := hx.1.rehome
      exact ⟨x', hrun, hx', hcoll.trans hx.2⟩) ⟨hapart, rfl⟩
  exact ⟨x, hrun, hcoll, hx.sound, hx.sorted⟩

theorem setPositions {r : Registry} (h : Sound P { t with reg := r.setList gen l₀ } (l ++ loose))
    (hgen : IsList gen) (hl : ∀ s ∈ l, Sorted r gen s) :
    ∃ r', GcState.setPositions l₀.length l r = .ok r' ∧
      Sound P { t with reg := r'.setList gen (l₀ ++ l) } loose ∧ r'.list = r.list ∧
      ∀ u, u ∉ l → r'.slab[u]? = r.slab[u]? := by
  induction l generalizing r l₀ with
  | nil =>
    rw [List.append_nil]
    exact ⟨r, rfl, h, rfl, fun _ _ => rfl⟩
  | cons s l ih =>
    obtain ⟨e, he, hobj, hg, hcand⟩ := hl s (by simp)
    have hlen := h.list_length gen
    dsimp only at hlen
    rw [Registry.list_setList hgen, Function.update_self] at hlen
    have hnodup := h.loose_nodup
    rw [List.cons_append, List.nodup_cons, List.mem_append, not_or] at hnodup
    have hset := h.setLoose (s := s) (e := e) (by simp) (by rw [Registry.slab_setList, he])
      (show ({ e with pos := l₀.length } : Entry).obj = e.obj from rfl) hcand
    dsimp only at hset
    rw [Registry.setEntry_setList] at hset
    have hget : (r.setEntry s { e with pos := l₀.length }).slab[s]? = some { e with pos := l₀.length } := by
      rw [Registry.slab_setEntry, Layout.getElem?_set_of_some he, if_pos rfl]
    have hpush := hset.push (e := { e with pos := l₀.length }) (by rw [Registry.slab_setList, hget]) hobj hgen hg
      (by rw [Registry.list_setList hgen, Function.update_self])
    dsimp only at hpush
    rw [Registry.list_setList hgen, Function.update_self, Registry.setList_setList] at hpush
    obtain ⟨r', hrun, hr', hlist, hslab⟩ := ih hpush fun u hu => by
      obtain ⟨e', he', hrest⟩ := hl u (by simp [hu])
      refine ⟨e', ?_, hrest⟩
      rw [Registry.slab_setEntry, List.getElem?_set_ne, he']
      rintro rfl
      exact hnodup.1.1 hu
    unfold GcState.setPositions
    rw [Registry.entry_ok he, ok_bind, asU32_of_le hlen]
    rw [List.length_append, List.length_singleton] at hrun
    rw [List.append_assoc] at hr'
    refine ⟨r', hrun, hr', hlist, fun u hu => ?_⟩
    rw [List.mem_cons, not_or] at hu
    rw [hslab u hu.2, Registry.slab_setEntry, List.getElem?_set_ne (Ne.symm hu.1)]

theorem setList_list (r : Registry) (g : Fin nGenerations) : r.setList g (r.gens g) = r := by
  have hne : g.val ≠ genFrozen := by
    have := g.isLt
    unfold genFrozen nGenerations at *
    omega
  unfold Registry.setList
  rw [if_neg hne, dif_pos g.isLt]
  simp

theorem extend {r : Registry} (upto : Fin nGenerations)
    (h : Sound P { t with reg := r } (lists.flat (g :: gs)))
    (hsorted : ∀ g' ∈ g :: gs, ∀ s ∈ lists g', Sorted r g' s) :
    ∃ r', GcState.extend upto lists r g = .ok r' ∧ Sound P { t with reg := r' } (lists.flat gs) ∧
      ∀ g' ∈ gs, ∀ s ∈ lists g', Sorted r' g' s := by
  have hflat : lists.flat (g :: gs) = lists g ++ lists.flat gs := List.flatMap_cons
  rw [hflat] at h
  unfold GcState.extend
  split_ifs with hskip
  · rw [hskip.2] at h
    exact ⟨r, rfl, h, fun g' hg' => hsorted g' (by simp [hg'])⟩
  · have h' : Sound P { t with reg := r.setList g (r.gens g) } (lists g ++ lists.flat gs) := by
      rw [setList_list]
      exact h
    obtain ⟨r', hrun, hr', hlist, hslab⟩ := h'.setPositions (isList_gen g) (hsorted g (by simp))
    rw [hrun, ok_bind]
    rw [← Registry.list_gens, ← hlist, Registry.list_gens] at hr'
    refine ⟨_, rfl, hr', fun g' hg' s hs => ?_⟩
    obtain ⟨e, he, hrest⟩ := hsorted g' (by simp [hg']) s hs
    refine ⟨e, ?_, hrest⟩
    rw [Registry.slab_setList, hslab, he]
    intro hmem
    have hdisj := (List.nodup_append.mp h.loose_nodup).2.2
    exact hdisj s hmem s (List.mem_flatMap.mpr ⟨g', hg', hs⟩) rfl

theorem rebuildGenerations {upto : Fin nGenerations} (h : Sound (fun _ gen => gen ≤ upto) t []) :
    ∃ t', t.rebuildGenerations upto = .ok t' ∧ Sound (fun _ _ => False) t' [] ∧
      t'.collecting = t.collecting := by
  have hstart : Sound (Remaining [] (generations upto)) t
      (Lists.flat (fun _ => []) (List.finRange nGenerations)) := by
    have hflat : Lists.flat (fun _ => []) (List.finRange nGenerations) = [] := by decide
    rw [hflat]
    exact h.mono fun s e _ _ hgen => .inr
      ⟨⟨e.gen, Nat.lt_of_le_of_lt hgen upto.isLt⟩, mem_generations.mpr hgen, rfl⟩
  obtain ⟨⟨t', lists⟩, hrun, hcoll, ht', hsorted⟩ := foldlM_ok
    (fun gs (x : GcState × Lists) => x.1.collecting = t.collecting ∧
      Sound (Remaining [] gs) x.1 (x.2.flat (List.finRange nGenerations)) ∧
      ∀ g s, s ∈ x.2 g → Sorted x.1.reg g s)
    (fun g gs x hx => by
      obtain ⟨x', hrun, hcoll, hx'⟩ := hx.2.1.takeApart hx.2.2
      exact ⟨x', hrun, hcoll.trans hx.1, hx'⟩)
    (l := generations upto) (b := (t, fun _ => [])) ⟨rfl, hstart, by simp⟩
  obtain ⟨r, hrun', hr, _⟩ := foldlM_ok
    (fun gs r => Sound (Remaining [] []) { t' with reg := r } (lists.flat gs) ∧
      ∀ g ∈ gs, ∀ s ∈ lists g, Sorted r g s)
    (fun g gs r hr => hr.1.extend upto hr.2)
    (l := List.finRange nGenerations) (b := t'.reg) ⟨ht', fun g _ => hsorted g⟩
  unfold GcState.rebuildGenerations
  rw [hrun, ok_bind]
  dsimp only
  rw [hrun']
  exact ⟨_, rfl, hr.mono (by simp [Remaining]), hcoll⟩

end Sound

end WeavePy.Gc
