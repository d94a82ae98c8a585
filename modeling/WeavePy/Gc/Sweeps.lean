import WeavePy.Gc.Operations

/-!
The operations on whole lists keep the registry's invariant: pruning, freezing, marking the candidates
of a collection and rebuilding its generations.
-/

namespace WeavePy.Gc

namespace Sound

variable {P P' : ℕ → ℕ → Prop} {t : GcState} {loose l : List ℕ} {s gen i : ℕ} {e e' : Entry}
  {g : Fin nGenerations}

/-- Entries in hand that no collection has marked. -/
def Plain (r : Registry) (s : ℕ) : Prop :=
  ∃ e, r.slab[s]? = some e ∧ e.obj ≠ none ∧ ¬ e.has fCand

theorem isList_gen (g : Fin nGenerations) : IsList g := .inr g.isLt

theorem join (h : Sound P t (s :: loose)) (hs : Plain t.reg s) (hgen : IsList gen) :
    ∃ r, Registry.join gen t.reg s = .ok r ∧ Sound P { t with reg := r } loose ∧
      ∀ u, u ≠ s → r.slab[u]? = t.reg.slab[u]? := by
  obtain ⟨e, he, hobj, hcand⟩ := hs
  unfold Registry.join
  rw [Registry.listMut_ok hgen, ok_bind, Registry.entry_ok he, ok_bind, asU32_of_le (h.list_length gen)]
  refine ⟨_, rfl, ?_, ?_⟩
  · have hset := h.setLoose (by simp) he
      (show ({ e with pos := (t.reg.list gen).length, gen := gen } : Entry).obj = e.obj from rfl) hcand
    have hget : (t.reg.slab.set s { e with pos := (t.reg.list gen).length, gen := gen })[s]? =
        some { e with pos := (t.reg.list gen).length, gen := gen } := by
      rw [Layout.getElem?_set_of_some he, if_pos rfl]
    exact hset.push hget hobj hgen rfl rfl
  · intro u hu
    rw [Registry.slab_setList, Registry.slab_setEntry, List.getElem?_set_ne hu.symm]

theorem joinAll (h : Sound P t (l ++ loose)) (hl : ∀ s ∈ l, Plain t.reg s) (hgen : IsList gen) :
    ∃ r, l.foldlM (Registry.join gen) t.reg = .ok r ∧ Sound P { t with reg := r } loose := by
  have hstep : ∀ (s : ℕ) (l : List ℕ) (r : Registry),
      Sound P { t with reg := r } (s :: l ++ loose) ∧ (∀ u ∈ s :: l, Plain r u) →
      ∃ r', Registry.join gen r s = .ok r' ∧ Sound P { t with reg := r' } (l ++ loose) ∧
        ∀ u ∈ l, Plain r' u := by
    rintro s l r ⟨hr, hl⟩
    obtain ⟨r', hrun, hsound, hsame⟩ := Sound.join (t := { t with reg := r }) hr (hl s (by simp)) hgen
    obtain ⟨freed, hf⟩ := hr.placed
    have hnodup := hf.loose_nodup
    rw [List.cons_append, List.nodup_cons] at hnodup
    refine ⟨r', hrun, hsound, fun u hu => ?_⟩
    obtain ⟨e, he, hrest⟩ := hl u (by simp [hu])
    refine ⟨e, ?_, hrest⟩
    rw [← he]
    apply hsame
    rintro rfl
    exact hnodup.1 (by simp [hu])
  obtain ⟨r, hrun, hr, _⟩ := foldlM_ok
    (fun l r => Sound P { t with reg := r } (l ++ loose) ∧ ∀ u ∈ l, Plain r u) hstep ⟨h, hl⟩
  exact ⟨r, hrun, hr⟩

theorem plain_of_listed (h : Sound P t loose) (hP : ∀ s, ¬ P s gen) (hs : s ∈ t.reg.list gen) :
    Plain t.reg s := by
  obtain ⟨e, he, hobj, hg, _⟩ := h.listed_of_mem hs
  exact ⟨e, he, hobj, fun hc => hP s (hg ▸ (h.marked s e he hc).2)⟩

/-- Moves the members of one list to the end of another. -/
theorem transfer {from_ : ℕ} (h : Sound P t []) (hP : ∀ s, ¬ P s from_) (hfrom : IsList from_)
    (hgen : IsList gen) :
    ∃ r, (t.reg.list from_).foldlM (Registry.join gen) (t.reg.setList from_ []) = .ok r ∧
      Sound P { t with reg := r } [] := by
  apply (h.take hfrom).joinAll _ hgen
  intro s hs
  obtain ⟨e, he, hrest⟩ := h.plain_of_listed hP hs
  exact ⟨e, by rw [Registry.slab_setList, he], hrest⟩

theorem freezeAll (h : Sound (fun _ _ => False) t []) :
    ∃ t', t.freezeAll = .ok t' ∧ Sound (fun _ _ => False) t' [] ∧ t'.collecting = t.collecting := by
  have hstep : ∀ (g : Fin nGenerations) (gs : List (Fin nGenerations)) (r : Registry),
      Sound (fun _ _ => False) { t with reg := r } [] →
      ∃ r', (r.gens g).foldlM (Registry.join genFrozen) (r.setList g []) = .ok r' ∧
        Sound (fun _ _ => False) { t with reg := r' } [] := by
    intro g _ r hr
    have htransfer := hr.transfer (fun _ hf => hf) (isList_gen g) (show IsList genFrozen from .inl rfl)
    dsimp only at htransfer
    rwa [Registry.list_gens] at htransfer
  obtain ⟨r, hrun, hr⟩ := foldlM_ok (fun _ r => Sound (fun _ _ => False) { t with reg := r } []) hstep h
  unfold GcState.freezeAll
  rw [hrun]
  exact ⟨_, rfl, hr, rfl⟩

theorem unfreezeAll (h : Sound P t []) (hP : ∀ s, ¬ P s genFrozen) :
    ∃ t', t.unfreezeAll = .ok t' ∧ Sound P t' [] ∧ t'.collecting = t.collecting := by
  obtain ⟨r, hrun, hr⟩ := h.transfer hP (.inl rfl) (show IsList 0 from .inr (by decide))
  rw [Registry.list_frozen] at hrun
  unfold GcState.unfreezeAll
  rw [hrun]
  exact ⟨_, rfl, hr, rfl⟩

theorem update_swapRemove_length {members : ℕ → List ℕ} (hs : i < (members gen).length) :
    (Function.update members gen (swapRemove (members gen) i) gen).length + 1 = (members gen).length := by
  rw [Function.update_self, swapRemove_length]
  omega

theorem pruneFrom {budget fuel examined removed : ℕ} (h : Sound P t [])
    (hi : i ≤ (t.reg.gens g).length) (hfuel : (t.reg.gens g).length < fuel + i) :
    ∃ t' k j, GcState.pruneFrom g budget fuel t i examined removed = .ok (t', k, j) ∧ Sound P t' [] ∧
      t'.collecting = t.collecting := by
  induction fuel generalizing t i examined removed with
  | zero => omega
  | succ fuel ih =>
    unfold GcState.pruneFrom
    split_ifs with hb
    · cases hget : (t.reg.gens g)[i]? with
      | none => exact ⟨t, _, _, rfl, h, rfl⟩
      | some s =>
        have hlt := Layout.lt_of_some hget
        rw [← Registry.list_gens] at hget
        obtain ⟨e, he, hobj, hg, hpos, hs⟩ := h.listed hget
        dsimp only
        rw [Registry.listEntry_ok he, ok_bind]
        split_ifs with hd
        · obtain ⟨t', hrun, ht', hcoll, hlist⟩ := h.remove he hobj hs
          have hlen : (t'.reg.gens g).length + 1 = (t.reg.gens g).length := by
            rw [← Registry.list_gens, ← Registry.list_gens, hlist, hg, hpos]
            exact update_swapRemove_length (Layout.lt_of_some hget)
          rw [hrun, ok_bind, ← hcoll]
          exact ih ht' (by omega) (by omega)
        · exact ih h (by omega) (by omega)
    · exact ⟨t, _, _, rfl, h, rfl⟩

theorem pruneDeadIn (h : Sound P t []) (g : Fin nGenerations) (start budget : ℕ) :
    ∃ t' k j, t.pruneDeadIn g start budget = .ok (t', k, j) ∧ Sound P t' [] ∧
      t'.collecting = t.collecting := by
  unfold GcState.pruneDeadIn
  apply h.pruneFrom
  · split_ifs with hs <;> omega
  · split_ifs <;> omega

theorem markFrom {fuel : ℕ} (h : Sound P t []) (hP : ∀ s, P s g) (hi : i ≤ (t.reg.gens g).length)
    (hfuel : (t.reg.gens g).length < fuel + i) :
    ∃ t', GcState.markFrom g fuel t i = .ok t' ∧ Sound P t' [] ∧ t'.collecting = t.collecting ∧
      ∀ g' : Fin nGenerations, g' ≠ g → t'.reg.gens g' = t.reg.gens g' := by
  induction fuel generalizing t i with
  | zero => omega
  | succ fuel ih =>
    unfold GcState.markFrom
    cases hget : (t.reg.gens g)[i]? with
    | none => exact ⟨t, rfl, h, rfl, fun _ _ => rfl⟩
    | some s =>
      have hlt := Layout.lt_of_some hget
      rw [← Registry.list_gens] at hget
      obtain ⟨e, he, hobj, hg, hpos, hs⟩ := h.listed hget
      dsimp only
      rw [Registry.listEntry_ok he, ok_bind]
      split_ifs with hd
      · obtain ⟨t', hrun, ht', hcoll, hlist⟩ := h.remove he hobj hs
        have hlen : (t'.reg.gens g).length + 1 = (t.reg.gens g).length := by
          rw [← Registry.list_gens, ← Registry.list_gens, hlist, hg, hpos]
          exact update_swapRemove_length (Layout.lt_of_some hget)
        obtain ⟨t'', hrun', ht'', hcoll', hsame⟩ := ih ht' (i := i) (by omega) (by omega)
        rw [hrun, ok_bind]
        refine ⟨t'', hrun', ht'', hcoll'.trans hcoll, fun g' hg' => ?_⟩
        have hne : (g' : ℕ) ≠ g := fun heq => hg' (Fin.ext heq)
        rw [hsame g' hg', ← Registry.list_gens, hlist, hg, Function.update_of_ne hne, Registry.list_gens]
      · have hset := h.setEntry he (show (GcState.markEntry e).gen = e.gen from rfl) rfl rfl fun _ => ⟨hobj, hg ▸ hP s⟩
        exact ih hset hlt (by dsimp only [Registry.setEntry]; omega)

theorem mem_generations {upto : Fin nGenerations} : g ∈ GcState.generations upto ↔ g ≤ upto := by
  simp [GcState.generations]

theorem unmarked_of_empty {upto : Fin nGenerations} (h : Sound (fun _ gen => gen ≤ upto) t [])
    (hempty : ∀ g ≤ upto, t.reg.gens g = []) : Sound (fun _ _ => False) t [] := by
  apply h.mono
  intro s e he hc hgen
  obtain ⟨hobj, _⟩ := h.marked s e he hc
  have hplace := h.placed_at he hobj (by simp)
  have hlt : e.gen < nGenerations := Nat.lt_of_le_of_lt hgen upto.isLt
  rw [show e.gen = (⟨e.gen, hlt⟩ : Fin nGenerations) from rfl, Registry.list_gens,
    hempty _ (Fin.le_def.mpr hgen)] at hplace
  simp at hplace

theorem markCandidates (h : Sound (fun _ _ => False) t []) (upto : Fin nGenerations) :
    ∃ t' n, t.markCandidates upto = .ok (t', n) ∧ Sound (fun _ gen => gen ≤ upto) t' [] ∧
      t'.collecting = t.collecting ∧ (n = 0 → Sound (fun _ _ => False) t' []) := by
  let inv : List (Fin nGenerations) → GcState × ℕ → Prop := fun gs x =>
    Sound (fun _ gen => gen ≤ upto) x.1 [] ∧ x.1.collecting = t.collecting ∧ (∀ g ∈ gs, g ≤ upto) ∧
      (x.2 = 0 → ∀ g ≤ upto, g ∈ gs ∨ x.1.reg.gens g = [])
  have hstep : ∀ (g : Fin nGenerations) gs x, inv (g :: gs) x → ∃ x', (do
      let t ← GcState.markFrom g ((x.1.reg.gens g).length + 1) x.1 0
      return (t, x.2 + (t.reg.gens g).length)) = (.ok x' : Outcome (GcState × ℕ)) ∧ inv gs x' := by
    rintro g gs ⟨t₁, n⟩ ⟨hsound, hcoll, hgs, hzero⟩
    obtain ⟨t₂, hrun, hsound₂, hcoll₂, hsame⟩ := hsound.markFrom (g := g) (i := 0)
      (fun _ => hgs g (by simp)) (by omega) (show _ < (t₁.reg.gens g).length + 1 + 0 by dsimp only; omega)
    dsimp only
    rw [hrun, ok_bind]
    refine ⟨_, rfl, hsound₂, hcoll₂.trans hcoll, fun g' hg' => hgs g' (by simp [hg']), fun hn g' hg' => ?_⟩
    dsimp only at hn ⊢
    by_cases heq : g' = g
    · rw [heq]
      exact .inr (List.length_eq_zero_iff.mp (by omega))
    · rcases hzero (by dsimp only; omega) g' hg' with hmem | hempty
      · exact .inl (List.mem_of_ne_of_mem heq hmem)
      · exact .inr ((hsame g' heq).trans hempty)
  obtain ⟨⟨t', n⟩, hrun, hsound, hcoll, _, hzero⟩ := foldlM_ok inv hstep
    (l := GcState.generations upto) (b := (t, 0))
    ⟨h.mono fun _ _ _ _ hf => hf.elim, rfl, fun _ => mem_generations.mp,
      fun _ g hg => .inl (mem_generations.mpr hg)⟩
  refine ⟨t', n, hrun, hsound, hcoll, fun hn => hsound.unmarked_of_empty fun g hg => ?_⟩
  simpa using hzero hn g hg

theorem clear_has (e : Entry) : ¬ (e.set (fCand ||| fReached) false).has fCand := by
  have hmask : ~~~(fCand ||| fReached) &&& fCand = 0#8 := by decide
  unfold Entry.has Entry.set
  rw [if_neg Bool.false_ne_true, BitVec.and_assoc, hmask, BitVec.and_zero]
  decide

/-- Candidates may be left in the slots `rest` and in the generations `gs`. -/
def Remaining (rest : List ℕ) (gs : List (Fin nGenerations)) (s gen : ℕ) : Prop :=
  s ∈ rest ∨ ∃ g ∈ gs, gen = g

theorem remaining_of_clear {rest : List ℕ} {gs : List (Fin nGenerations)}
    (h : Sound (Remaining (s :: rest) gs) t loose) (hs : ∃ e, t.reg.slab[s]? = some e ∧ ¬ e.has fCand) :
    Sound (Remaining rest gs) t loose := by
  obtain ⟨e, he, hcand⟩ := hs
  apply h.mono
  rintro u e' he' hc (hu | hu)
  · rcases List.mem_cons.mp hu with rfl | hu
    · rw [he, Option.some_inj] at he'
      exact absurd (he' ▸ hc) hcand
    · exact .inl hu
  · exact .inr hu

/-- Candidates of generation `g` are members of its list, or in hand. -/
theorem remaining_of_take {gs : List (Fin nGenerations)} (h : Sound (Remaining [] (g :: gs)) t loose)
    (hloose : ∀ s ∈ loose, Plain t.reg s) : Sound (Remaining (t.reg.gens g) gs) t loose := by
  apply h.mono
  rintro s e he hc (hs | ⟨g', hg', hgen⟩)
  · simp at hs
  · rcases List.mem_cons.mp hg' with rfl | hg'
    · left
      have hplace := h.placed_at he (h.marked s e he hc).1 fun hs => by
        obtain ⟨e', he', _, hcand⟩ := hloose s hs
        rw [he, Option.some_inj] at he'
        exact hcand (he' ▸ hc)
      rw [hgen, Registry.list_gens] at hplace
      exact List.mem_of_getElem? hplace
    · exact .inr ⟨g', hg', hgen⟩

theorem unmarkCandidates {upto : Fin nGenerations} (h : Sound (fun _ gen => gen ≤ upto) t []) :
    ∃ t', t.unmarkCandidates upto = .ok t' ∧ Sound (fun _ _ => False) t' [] ∧
      t'.collecting = t.collecting := by
  have hentry : ∀ (gs : List (Fin nGenerations)) (s : ℕ) (rest : List ℕ) (r : Registry),
      Sound (Remaining (s :: rest) gs) { t with reg := r } [] ∧ r.gens = t.reg.gens ∧
        (∀ u ∈ s :: rest, ∃ e, r.slab[u]? = some e) →
      ∃ r', (do
        let e ← r.entry s
        return r.setEntry s (e.set (fCand ||| fReached) false)) = (.ok r' : Outcome Registry) ∧
        Sound (Remaining rest gs) { t with reg := r' } [] ∧ r'.gens = t.reg.gens ∧
        (∀ u ∈ rest, ∃ e, r'.slab[u]? = some e) := by
    rintro gs s rest r ⟨hr, hgens, hrest⟩
    obtain ⟨e, he⟩ := hrest s (by simp)
    rw [Registry.entry_ok he, ok_bind]
    have hset := hr.setEntry he (show (e.set (fCand ||| fReached) false).gen = e.gen from rfl) rfl rfl
      fun hc => absurd hc (clear_has e)
    refine ⟨_, rfl, hset.remaining_of_clear ⟨_, ?_, clear_has e⟩, hgens, fun u hu => ?_⟩
    · rw [Registry.slab_setEntry, Layout.getElem?_set_of_some he, if_pos rfl]
    · rw [Registry.slab_setEntry, Layout.getElem?_set_of_some he]
      split_ifs
      · exact ⟨_, rfl⟩
      · exact hrest u (by simp [hu])
  have hstep : ∀ (g : Fin nGenerations) (gs : List (Fin nGenerations)) (r : Registry),
      Sound (Remaining [] (g :: gs)) { t with reg := r } [] ∧ r.gens = t.reg.gens →
      ∃ r', (t.reg.gens g).foldlM (fun r slot => do
        let e ← r.entry slot
        return r.setEntry slot (e.set (fCand ||| fReached) false)) r = (.ok r' : Outcome Registry) ∧
        Sound (Remaining [] gs) { t with reg := r' } [] ∧ r'.gens = t.reg.gens := by
    rintro g gs r ⟨hr, hgens⟩
    have htake := hr.remaining_of_take (by simp)
    dsimp only at htake
    rw [hgens] at htake
    obtain ⟨r', hrun, hr', hgens', _⟩ := foldlM_ok
      (fun rest r => Sound (Remaining rest gs) { t with reg := r } [] ∧ r.gens = t.reg.gens ∧
        ∀ u ∈ rest, ∃ e, r.slab[u]? = some e) (hentry gs) (l := t.reg.gens g) ⟨htake, hgens, fun u hu => by
          rw [← hgens, ← Registry.list_gens] at hu
          obtain ⟨e, he, _⟩ := hr.listed_of_mem hu
          exact ⟨e, he⟩⟩
    exact ⟨r', hrun, hr', hgens'⟩
  obtain ⟨r, hrun, hr, _⟩ := foldlM_ok
    (fun gs r => Sound (Remaining [] gs) { t with reg := r } [] ∧ r.gens = t.reg.gens) hstep
    (l := GcState.generations upto) (b := t.reg) ⟨h.mono fun s e _ _ hgen => .inr
      ⟨⟨e.gen, Nat.lt_of_le_of_lt hgen upto.isLt⟩, mem_generations.mpr hgen, rfl⟩, rfl⟩
  unfold GcState.unmarkCandidates
  rw [hrun]
  exact ⟨_, rfl, hr.mono (by simp [Remaining]), rfl⟩

end Sound

end WeavePy.Gc
