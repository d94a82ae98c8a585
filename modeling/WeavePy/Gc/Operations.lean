import WeavePy.Gc.Placement

/-!
Each operation on one slot keeps the registry's invariant: unlinking, dropping and joining, and the
entries and removals made of them.
-/

namespace WeavePy.Gc

/-- What holds apart from the lists; only entries satisfying `P` (slot and generation) may be marked. -/
structure Tracked (P : ℕ → ℕ → Prop) (t : GcState) : Prop where
  keyed : Keyed t.reg.held t.reg.index t.heap
  covered : ∀ a s, t.reg.index[a]? = some s → t.trackedFilter.Covers a
  small : t.reg.slab.length ≤ tempBit
  marked : ∀ s e, t.reg.slab[s]? = some e → e.has fCand → e.obj ≠ none ∧ P s e.gen

/-- `loose` are the slots in no list. -/
structure Sound (P : ℕ → ℕ → Prop) (t : GcState) (loose : List ℕ) : Prop extends Tracked P t where
  placed : ∃ freed, layout.Placed t.reg.slab t.reg.list noSlot t.reg.free freed loose

namespace Tracked

variable {P : ℕ → ℕ → Prop} {t : GcState} {s gen : ℕ} {e e' : Entry}

theorem setList (h : Tracked P t) (l : List ℕ) : Tracked P { t with reg := t.reg.setList gen l } where
  keyed := by
    rw [Registry.held_setList, Registry.index_setList]
    exact h.keyed
  covered := by
    rw [Registry.index_setList]
    exact h.covered
  small := by
    rw [Registry.slab_setList]
    exact h.small
  marked := by
    rw [Registry.slab_setList]
    exact h.marked

theorem setEntry (h : Tracked P t) (he : t.reg.slab[s]? = some e) (hobj : e'.obj = e.obj)
    (hcand : e'.has fCand → e'.obj ≠ none ∧ P s e'.gen) :
    Tracked P { t with reg := t.reg.setEntry s e' } where
  keyed := by
    rw [Registry.held_set_same he Registry.slab_setEntry hobj]
    exact h.keyed
  covered := h.covered
  small := by
    rw [Registry.slab_setEntry, List.length_set]
    exact h.small
  marked u e₁ he₁ hc := by
    rw [Registry.slab_setEntry, Layout.getElem?_set_of_some he] at he₁
    split_ifs at he₁ with hu
    · rw [Option.some_inj] at he₁
      subst he₁ hu
      exact hcand hc
    · exact h.marked u e₁ he₁ hc

end Tracked

namespace Sound

variable {P P' : ℕ → ℕ → Prop} {t : GcState} {loose : List ℕ} {s gen : ℕ} {e e' : Entry}
  {w : WeakObject} {o : Obj} {a : ObjectId}

theorem asU32_of_le {n : ℕ} (h : n ≤ tempBit) : asU32 n = n := by
  unfold asU32 tempBit at *
  omega

theorem perm {loose' : List ℕ} (h : Sound P t loose) (hp : loose.Perm loose') : Sound P t loose' :=
  ⟨h.toTracked, h.placed.imp fun _ hf => hf.perm hp⟩

theorem mono (h : Sound P t loose)
    (hP : ∀ s e, t.reg.slab[s]? = some e → e.has fCand → P s e.gen → P' s e.gen) : Sound P' t loose :=
  ⟨⟨h.keyed, h.covered, h.small, fun s e he hc =>
    ⟨(h.marked s e he hc).1, hP s e he hc (h.marked s e he hc).2⟩⟩, h.placed⟩

theorem held_lt (h : Sound P t loose) (hs : t.reg.held s = some w) : s < youngBit := by
  obtain ⟨e, he, _⟩ := Registry.exists_of_held hs
  have := Layout.lt_of_some he
  have := h.small
  unfold tempBit youngBit at *
  omega

theorem placed_at (h : Sound P t loose) (he : t.reg.slab[s]? = some e) (hobj : e.obj ≠ none)
    (hs : s ∉ loose) : (t.reg.list e.gen)[e.pos]? = some s := by
  obtain ⟨freed, hf⟩ := h.placed
  rcases hf.placed s e he with hl | hl | hl
  · exact absurd hl hs
  · obtain ⟨e', he', hv⟩ := hf.chain.vacant_of_mem hl
    rw [he, Option.some_inj] at he'
    subst he'
    exact absurd hv hobj
  · exact hl

theorem list_length (h : Sound P t loose) (gen : ℕ) : (t.reg.list gen).length ≤ tempBit := by
  obtain ⟨freed, hf⟩ := h.placed
  exact (hf.members_length gen).trans h.small

theorem listed (h : Sound P t loose) {i : ℕ} (hs : (t.reg.list gen)[i]? = some s) :
    ∃ e, t.reg.slab[s]? = some e ∧ e.obj ≠ none ∧ e.gen = gen ∧ e.pos = i ∧ s ∉ loose := by
  obtain ⟨freed, hf⟩ := h.placed
  obtain ⟨e, he, hg, hi, hv⟩ := hf.listed gen i s hs
  exact ⟨e, he, hv, hg, hi, fun hl => hf.loose_listed s hl gen (List.mem_of_getElem? hs)⟩

theorem listed_of_mem (h : Sound P t loose) (hs : s ∈ t.reg.list gen) :
    ∃ e, t.reg.slab[s]? = some e ∧ e.obj ≠ none ∧ e.gen = gen ∧ s ∉ loose := by
  obtain ⟨i, hi⟩ := List.getElem?_of_mem hs
  obtain ⟨e, he, hobj, hg, _, hl⟩ := h.listed hi
  exact ⟨e, he, hobj, hg, hl⟩

/-- A change of an entry's flags and marking state. -/
theorem setEntry (h : Sound P t loose) (he : t.reg.slab[s]? = some e) (hgen : e'.gen = e.gen)
    (hpos : e'.pos = e.pos) (hobj : e'.obj = e.obj) (hcand : e'.has fCand → e.obj ≠ none ∧ P s e.gen) :
    Sound P { t with reg := t.reg.setEntry s e' } loose where
  toTracked := by
    apply h.toTracked.setEntry he hobj
    rw [hobj, hgen]
    exact hcand
  placed := h.placed.imp fun _ hf => hf.keep he hgen hpos (Iff.of_eq (congrArg (· = none) hobj))

/-- A change of a slot in hand, which may move it to another generation. -/
theorem setLoose (h : Sound P t loose) (hs : s ∈ loose) (he : t.reg.slab[s]? = some e)
    (hobj : e'.obj = e.obj) (hcand : ¬ e'.has fCand) :
    Sound P { t with reg := t.reg.setEntry s e' } loose where
  toTracked := h.toTracked.setEntry he hobj fun hc => absurd hc hcand
  placed := h.placed.imp fun _ hf => hf.edit hs e'

theorem take (h : Sound P t loose) (hgen : IsList gen) :
    Sound P { t with reg := t.reg.setList gen [] } (t.reg.list gen ++ loose) where
  toTracked := h.toTracked.setList []
  placed := by
    rw [Registry.slab_setList, Registry.list_setList hgen, Registry.free_setList]
    exact h.placed.imp fun _ hf => hf.take gen

/-- Appends a slot in hand to the list its entry already names. -/
theorem push (h : Sound P t (s :: loose)) (he : t.reg.slab[s]? = some e) (hobj : e.obj ≠ none)
    (hgen : IsList gen) (hg : e.gen = gen) (hpos : e.pos = (t.reg.list gen).length) :
    Sound P { t with reg := t.reg.setList gen (t.reg.list gen ++ [s]) } loose where
  toTracked := h.toTracked.setList _
  placed := by
    rw [Registry.slab_setList, Registry.list_setList hgen, Registry.free_setList]
    exact h.placed.imp fun _ hf => hf.push he hg hpos hobj

theorem unlink (h : Sound P t loose) (he : t.reg.slab[s]? = some e) (hobj : e.obj ≠ none)
    (hs : s ∉ loose) :
    ∃ r, t.reg.unlink s = .ok r ∧ Sound P { t with reg := r } (s :: loose) ∧
      r.list = Function.update t.reg.list e.gen (swapRemove (t.reg.list e.gen) e.pos) ∧
      r.held = t.reg.held := by
  have hin := h.placed_at he hobj hs
  have hgen : IsList e.gen := Registry.isList_of_mem (List.mem_of_getElem? hin)
  have hlt := Layout.lt_of_some hin
  have hlen := h.list_length e.gen
  obtain ⟨freed, hf⟩ := h.placed
  unfold Registry.unlink
  rw [Registry.entry_ok he, ok_bind, Registry.listMut_ok hgen, ok_bind, if_pos hlt]
  have hlast : (t.reg.list e.gen).getLast? = some ((t.reg.list e.gen)[(t.reg.list e.gen).length - 1]) := by
    rw [List.getLast?_eq_getElem?, List.getElem?_eq_getElem]
  have hget := swapRemove_getElem? hlast (i := e.pos) e.pos
  rcases Nat.lt_or_ge (e.pos + 1) (t.reg.list e.gen).length with hp | hp
  · rw [if_pos (by omega), if_pos rfl] at hget
    generalize hmoved : (t.reg.list e.gen)[(t.reg.list e.gen).length - 1] = moved at hget hlast
    have hend : (t.reg.list e.gen)[(t.reg.list e.gen).length - 1]? = some moved := by
      rw [← List.getLast?_eq_getElem?, hlast]
    obtain ⟨m, hm, hm_obj, _⟩ := h.listed hend
    dsimp only
    rw [hget]
    dsimp only
    rw [Registry.entry_ok hm, ok_bind]
    refine ⟨_, rfl, ?_, ?_, ?_⟩
    · have hpos : asU32 e.pos = e.pos := asU32_of_le (by omega)
      rw [hpos, Registry.setEntry_setList]
      have hmoved : Tracked P { t with reg := t.reg.setEntry moved { m with pos := e.pos } } :=
        h.toTracked.setEntry hm rfl (h.marked moved m hm)
      refine ⟨hmoved.setList _, freed, ?_⟩
      rw [Registry.slab_setList, Registry.list_setList hgen, Registry.free_setList]
      exact hf.unlink_swap hin hp hlast hm rfl rfl Iff.rfl
    · rw [Registry.list_setEntry, Registry.list_setList hgen]
    · rw [Registry.setEntry_setList, Registry.held_setList]
      exact Registry.held_set_same hm Registry.slab_setEntry rfl
  · rw [if_neg (by omega)] at hget
    dsimp only
    rw [hget]
    refine ⟨_, rfl, ⟨h.toTracked.setList _, freed, ?_⟩, Registry.list_setList hgen, Registry.held_setList⟩
    rw [Registry.slab_setList, Registry.list_setList hgen, Registry.free_setList]
    exact hf.unlink_last hin (by omega)

theorem forgetKey_held (h : Sound P t loose) (hw : t.reg.held s = some w) :
    ∃ t', t.forgetKey s = .ok t' ∧ t'.reg.slab = t.reg.slab ∧ t'.reg.list = t.reg.list ∧
      t'.reg.free = t.reg.free ∧ t'.trackedFilter = t.trackedFilter ∧ t'.collecting = t.collecting ∧
      (∀ a u : ℕ, t'.reg.index[a]? = some u → t.reg.index[a]? = some u) ∧
      Keyed (Function.update t.reg.held s none) t'.reg.index t'.heap := by
  obtain ⟨e, he, hobj⟩ := Registry.exists_of_held hw
  unfold GcState.forgetKey
  rw [Registry.entry_ok he, ok_bind, hobj]
  dsimp only
  by_cases hi : w.kind.isIntrusive
  · rw [slotIsIntrusive, if_pos hi]
    exact ⟨_, rfl, rfl, rfl, rfl, rfl, rfl, fun _ _ ha => ha, h.keyed.forget_intrusive hw hi⟩
  · rw [slotIsIntrusive, if_neg hi, if_pos (h.keyed.indexed s w hw hi)]
    refine ⟨_, rfl, rfl, rfl, rfl, rfl, rfl, ?_, h.keyed.forget_indexed hw hi⟩
    intro a u ha
    dsimp only at ha
    rw [Std.HashMap.getElem?_erase] at ha
    split_ifs at ha
    exact ha

theorem drop (h : Sound P t (s :: loose)) (hw : t.reg.held s = some w) :
    ∃ t', t.drop s = .ok t' ∧ Sound P t' loose ∧ t'.reg.list = t.reg.list ∧
      t'.collecting = t.collecting ∧ ∀ u, u ≠ s → t'.reg.slab[u]? = t.reg.slab[u]? := by
  obtain ⟨t₁, hrun, hslab, hlist, hfree, hfilter, hcoll, hindex, hkeyed⟩ := h.forgetKey_held hw
  obtain ⟨e, he, hobj⟩ := Registry.exists_of_held hw
  have he₁ : t₁.reg.slab[s]? = some e := by rw [hslab, he]
  obtain ⟨freed, hf⟩ := h.placed
  unfold GcState.drop Registry.release
  rw [hrun, ok_bind, Registry.entry_ok he₁]
  simp only [ok_bind, pure_bind]
  refine ⟨_, rfl, ⟨⟨?_, ?_, ?_, ?_⟩, s :: freed, ?_⟩, hlist, hcoll, ?_⟩
  · have hheld : t₁.reg.held = t.reg.held := Registry.held_of_slab hslab
    dsimp only
    rw [Registry.held_set he₁ rfl, hheld]
    exact hkeyed
  · intro a u ha
    dsimp only at ha ⊢
    rw [hfilter]
    exact h.covered a u (hindex a u ha)
  · dsimp only
    rw [Registry.slab_setEntry, List.length_set, hslab]
    exact h.small
  · intro u e' he' hc
    dsimp only at he'
    rw [Registry.slab_setEntry, Layout.getElem?_set_of_some he₁] at he'
    split_ifs at he' with hu
    · rw [Option.some_inj] at he'
      subst he'
      simp [Entry.has] at hc
    · rw [hslab] at he'
      exact h.marked u e' he' hc
  · have hedit := hf.edit (s := s) (by simp)
      { e with obj := none, pos := t₁.reg.free, gen := genFree, flags := 0 }
    have hget : (t.reg.slab.set s { e with obj := none, pos := t₁.reg.free, gen := genFree, flags := 0 })[s]? =
        some { e with obj := none, pos := t₁.reg.free, gen := genFree, flags := 0 } := by
      rw [Layout.getElem?_set_of_some he, if_pos rfl]
    have hvac := hedit.vacate hget rfl hfree
    rw [← hslab, ← hlist] at hvac
    exact hvac
  · intro u hu
    dsimp only
    rw [Registry.slab_setEntry, List.getElem?_set_ne hu.symm, hslab]

theorem remove (h : Sound P t loose) (he : t.reg.slab[s]? = some e) (hobj : e.obj ≠ none)
    (hs : s ∉ loose) :
    ∃ t', t.remove s = .ok t' ∧ Sound P t' loose ∧ t'.collecting = t.collecting ∧
      t'.reg.list = Function.update t.reg.list e.gen (swapRemove (t.reg.list e.gen) e.pos) := by
  obtain ⟨w, hw⟩ := Option.ne_none_iff_exists'.mp hobj
  obtain ⟨r, hr, hsound, hlist, hheld⟩ := h.unlink he hobj hs
  have hw' : t.reg.held s = some w := by rw [Registry.held_of_some he, hw]
  rw [← hheld] at hw'
  obtain ⟨t', hrun, hsound', hlist', hcoll, _⟩ := hsound.drop hw'
  refine ⟨t', ?_, hsound', hcoll, hlist'.trans hlist⟩
  unfold GcState.remove
  rw [hr, ok_bind, hrun]

/-- What `insert` gives: a slot below the young mark that held nothing, listed in generation `gen`. -/
structure Inserted (P : ℕ → ℕ → Prop) (r : Registry) (w : WeakObject) (loose : List ℕ) (r' : Registry)
    (s : ℕ) : Prop where
  vacant : r.held s = none
  slot_lt : s < youngBit
  held_eq : r'.held = Function.update r.held s (some w)
  index_eq : r'.index = r.index
  small : r'.slab.length ≤ tempBit
  marked : ∀ u e, r'.slab[u]? = some e → e.has fCand → e.obj ≠ none ∧ P u e.gen
  placed : ∃ freed, layout.Placed r'.slab r'.list noSlot r'.free freed loose

theorem insert (h : Sound P t loose) (w : WeakObject) {flags : BitVec 8} (hgen : IsList gen)
    (hflags : flags &&& fCand = 0) :
    Ensures (t.reg.insert w gen flags) (fun r => Inserted P t.reg w loose r.1 r.2)
      (t.reg.free = noSlot ∧ t.reg.slab.length = tempBit) := by
  obtain ⟨freed, hf⟩ := h.placed
  have hlen := asU32_of_le (h.list_length gen)
  have hsmall := h.small
  unfold Registry.insert
  rw [Registry.listMut_ok hgen]
  simp only [ok_bind, hlen]
  split_ifs with hfree hlt
  · cases freed with
    | nil => exact absurd hf.chain hfree
    | cons s rest =>
      obtain ⟨rfl, e, he, hv, _⟩ := hf.chain
      rw [Registry.entry_ok he]
      simp only [ok_bind, ensures_pure]
      have hlt := Layout.lt_of_some he
      set entry : Entry := ⟨some w, (t.reg.list gen).length, 0, 0, gen, flags⟩ with hentry
      have hget : (t.reg.slab.set t.reg.free entry)[t.reg.free]? = some entry := by
        rw [Layout.getElem?_set_of_some he, if_pos rfl]
      constructor
      · rw [Registry.held_of_some he]
        exact hv
      · unfold youngBit tempBit at *
        omega
      · exact Registry.held_set he (Registry.slab_setList (r := t.reg.setEntry t.reg.free entry))
      · exact Registry.index_setList
      · simpa using hsmall
      · intro u e' he' hc
        dsimp only at he'
        rw [Registry.slab_setList, Registry.slab_setEntry, Layout.getElem?_set_of_some he] at he'
        split_ifs at he' with hu
        · rw [Option.some_inj] at he'
          subst he'
          simp [Entry.has, hflags, hentry] at hc
        · exact h.marked u e' he' hc
      · refine ⟨rest, ?_⟩
        have hpush := ((hf.pop he).edit (by simp) entry).push hget rfl rfl (by simp [layout, hentry])
        rw [← Registry.list_setEntry (s := t.reg.free) (e := entry)] at hpush
        dsimp only
        rw [Registry.slab_setList, Registry.slab_setEntry]
        show layout.Placed _ (Registry.list (Registry.setList _ _ _)) _ _ _ _
        rw [Registry.list_setList hgen]
        exact hpush
  · simp only [ensures_pure]
    set entry : Entry := ⟨some w, (t.reg.list gen).length, 0, 0, gen, flags⟩ with hentry
    have hget : (t.reg.slab ++ [entry])[t.reg.slab.length]? = some entry := by simp
    constructor
    · simp [Registry.held]
    · exact hlt
    · funext u
      rw [Registry.held, Function.update_apply]
      split_ifs with hu
      · rw [hu, hget, hentry, Option.bind_some]
      · rw [Registry.held]
        rcases Nat.lt_or_ge u t.reg.slab.length with hlt' | hge
        · rw [List.getElem?_append_left hlt']
        · rw [List.getElem?_eq_none hge, List.getElem?_eq_none]
          rw [List.length_append, List.length_singleton]
          omega
    · exact Registry.index_setList
    · dsimp only
      rw [List.length_append, List.length_singleton]
      omega
    · intro u e' he' hc
      dsimp only at he'
      rcases Nat.lt_or_ge u t.reg.slab.length with hlt' | hge
      · rw [List.getElem?_append_left hlt'] at he'
        exact h.marked u e' he' hc
      · have hu := Layout.lt_of_some he'
        rw [List.length_append, List.length_singleton] at hu
        rw [show u = t.reg.slab.length by omega, hget, Option.some_inj] at he'
        subst he'
        simp [Entry.has, hflags, hentry] at hc
    · refine ⟨freed, ?_⟩
      have hpush := (hf.grow entry).push (g := gen) hget rfl rfl (by simp [layout, hentry])
      rw [← Registry.list_setList hgen] at hpush
      dsimp only
      rw [Registry.free_setList]
      exact hpush
  · exact ⟨rfl, by simpa using hfree, by omega⟩

theorem not_held_of_slotOf (h : Sound P t loose) (ho : t.heap a = some o) (hlive : 0 < o.strong)
    (hnone : t.slotOf a o = none) : ∀ u v, t.reg.held u = some v → v.addr ≠ a := by
  rintro u v hv rfl
  obtain ⟨o', ho', hk⟩ := h.keyed.allocated u v hv
  rw [ho, Option.some_inj] at ho'
  subst ho'
  unfold GcState.slotOf at hnone
  by_cases hi : o.kind.isIntrusive
  · have hslot := h.keyed.own u v o hv ho hi hlive
    rw [if_pos hi, if_pos (hslot ▸ h.held_lt hv)] at hnone
    simp at hnone
  · have hindex := h.keyed.indexed u v hv (hk ▸ hi)
    rw [if_neg hi, if_pos (h.covered _ _ hindex).mayContain, hindex] at hnone
    simp at hnone

theorem finalizedFlag_and (kind : Kind) (o : Obj) : GcState.finalizedFlag kind o &&& fCand = 0 := by
  have hflag : (if o.finalizeRan then fFinalized else 0) &&& fCand = 0 := by
    split_ifs <;> rfl
  cases kind <;> first | exact hflag | exact BitVec.zero_and

theorem enter (h : Sound P t []) (ho : t.heap w.addr = some o) (hkind : o.kind = w.kind)
    (hlive : 0 < o.strong) (hnone : t.slotOf w.addr o = none) :
    Ensures (t.enter w) (fun t' => Sound P t' [] ∧ t'.collecting = t.collecting)
      (t.reg.free = noSlot ∧ t.reg.slab.length = tempBit) := by
  have hnew := h.not_held_of_slotOf ho hlive hnone
  unfold GcState.enter
  rw [ho]
  apply (h.insert w (.inr (by decide)) (finalizedFlag_and w.kind o)).bind
  rintro ⟨r, s⟩ hr
  dsimp only at hr ⊢
  by_cases hi : w.kind.isIntrusive
  · rw [slotIsIntrusive, if_pos hi]
    refine ⟨⟨⟨?_, ?_, hr.small, hr.marked⟩, hr.placed⟩, rfl⟩
    · dsimp only
      rw [hr.held_eq, hr.index_eq]
      exact h.keyed.insert_intrusive hr.vacant ho hkind hnew hi hkind rfl
    · dsimp only
      rw [hr.index_eq]
      exact h.covered
  · rw [slotIsIntrusive, if_neg hi]
    refine ⟨⟨⟨?_, ?_, hr.small, hr.marked⟩, hr.placed⟩, rfl⟩
    · dsimp only
      rw [hr.index_eq]
      show Keyed r.held _ _
      rw [hr.held_eq]
      exact h.keyed.insert_indexed hr.vacant ho hkind hnew hi
    · intro a u ha
      dsimp only at ha ⊢
      rw [hr.index_eq, Std.HashMap.getElem?_insert] at ha
      split_ifs at ha with heq
      · rw [← eq_of_beq heq]
        exact RebuildableBloom.covers_insert_self
      · exact (h.covered a u ha).insert

theorem remove_held (h : Sound P t []) (hw : t.reg.held s = some w) :
    ∃ t', t.remove s = .ok t' ∧ Sound P t' [] ∧ t'.collecting = t.collecting := by
  obtain ⟨e, he, hobj⟩ := Registry.exists_of_held hw
  obtain ⟨t', hrun, hsound, hcoll, _⟩ := h.remove he (by simp [hobj]) (by simp)
  exact ⟨t', hrun, hsound, hcoll⟩

theorem forgetInstanceIn (h : Sound P t []) (s a : ℕ) :
    ∃ t', t.forgetInstanceIn s a = .ok t' ∧ Sound P t' [] ∧ t'.collecting = t.collecting := by
  unfold GcState.forgetInstanceIn
  cases he : t.reg.slab[s]? with
  | none => exact ⟨t, rfl, h, rfl⟩
  | some e =>
    dsimp only
    cases hobj : e.obj with
    | none => exact ⟨t, rfl, h, rfl⟩
    | some w =>
      dsimp only
      split_ifs with hc
      · exact h.remove_held (by rw [Registry.held_of_some he, hobj])
      · exact ⟨t, rfl, h, rfl⟩

theorem held_of_slotOf (h : Sound P t loose) (ho : t.heap a = some o) (hlive : 0 < o.strong)
    (hs : t.slotOf a o = some s) : ∃ w, t.reg.held s = some w ∧ w.addr = a := by
  unfold GcState.slotOf at hs
  split_ifs at hs with hi hy hm
  · rw [Option.some_inj] at hs
    exact hs ▸ h.keyed.registered a o ho hi hlive hy
  · obtain ⟨w, hw, hwa, _⟩ := h.keyed.index_held a s hs
    exact ⟨w, hw, hwa⟩

theorem setObj (h : Sound P t loose) (ho : t.heap a = some o) {o' : Obj} (hkind : o'.kind = o.kind)
    (hstrong : 0 < o'.strong → 0 < o.strong)
    (hslot : o'.gcSlot = o.gcSlot ∨ youngBit ≤ o.gcSlot ∧ youngBit ≤ o'.gcSlot) :
    Sound P { t with heap := t.heap.set a o' } loose :=
  ⟨⟨h.keyed.set ho hkind hstrong hslot fun _ _ => h.held_lt, h.covered, h.small, h.marked⟩, h.placed⟩

theorem untrack (h : Sound P t []) (ho : t.heap a = some o) (hlive : 0 < o.strong) :
    ∃ t', t.untrack a o = .ok t' ∧ Sound P t' [] ∧ t'.collecting = t.collecting := by
  unfold GcState.untrack
  split_ifs with hy
  · exact ⟨_, rfl, h.setObj ho rfl id (.inr ⟨hy.2.1, show youngBit ≤ noSlot by decide⟩), rfl⟩
  · cases hs : t.slotOf a o with
    | none => exact ⟨t, rfl, h, rfl⟩
    | some s =>
      obtain ⟨w, hw, _⟩ := h.held_of_slotOf ho hlive hs
      exact h.remove_held hw

theorem untrackId (h : Sound P t []) (id : ObjectId) :
    ∃ t', t.untrackId id = .ok t' ∧ Sound P t' [] ∧ t'.collecting = t.collecting := by
  unfold GcState.untrackId
  split_ifs
  · cases hs : t.reg.index[id]? with
    | none => exact ⟨t, rfl, h, rfl⟩
    | some s =>
      obtain ⟨w, hw, _⟩ := h.keyed.index_held id s hs
      exact h.remove_held hw
  · exact ⟨t, rfl, h, rfl⟩

theorem rebuildTrackedFilter (h : Sound P t loose) : Sound P t.rebuildTrackedFilter loose := by
  refine ⟨⟨h.keyed, ?_, h.small, h.marked⟩, h.placed⟩
  intro a s ha
  apply (h.covered a s ha).rebuild
  rw [Std.HashMap.mem_keys]
  exact Std.HashMap.mem_iff_isSome_getElem?.mpr (by
    rw [show t.reg.index[a]? = some s from ha]
    rfl)

end Sound

end WeavePy.Gc
