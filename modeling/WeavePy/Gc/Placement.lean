import WeavePy.Gc.Registry

/-!
The invariant of the registry (every slot has its place, every handle its key) and what each single
operation on a slot does to it.
-/

namespace WeavePy.Gc

def layout : Layout Entry ℕ := ⟨Entry.gen, Entry.pos, fun e => e.obj = none⟩

def IsList (gen : ℕ) : Prop := gen = genFrozen ∨ gen < nGenerations

namespace Registry

variable {r : Registry} {s gen : ℕ} {l : List ℕ} {e e' : Entry} {w : WeakObject}

@[simp] theorem slab_setList : (r.setList gen l).slab = r.slab := by
  unfold setList
  split_ifs <;> rfl

@[simp] theorem free_setList : (r.setList gen l).free = r.free := by
  unfold setList
  split_ifs <;> rfl

@[simp] theorem index_setList : (r.setList gen l).index = r.index := by
  unfold setList
  split_ifs <;> rfl

theorem list_setList (h : IsList gen) : (r.setList gen l).list = Function.update r.list gen l := by
  funext g
  by_cases hg : g = gen
  · subst hg
    rw [Function.update_self]
    unfold setList list
    rcases h with rfl | h
    · simp
    · have hne : g ≠ genFrozen := by
        unfold genFrozen nGenerations at *
        omega
      simp [hne, h]
  · rw [Function.update_of_ne hg]
    unfold setList list
    split_ifs with h₁ h₂ h₃ h₄ <;> simp_all [Fin.ext_iff]

theorem list_eq_nil (h : ¬ IsList gen) : r.list gen = [] := by
  unfold list
  rw [if_neg fun hf => h (.inl hf), dif_neg fun hf => h (.inr hf)]

theorem isList_of_mem (h : s ∈ r.list gen) : IsList gen := by
  by_contra hn
  simp [list_eq_nil hn] at h

theorem listMut_ok (h : IsList gen) : r.listMut gen = .ok (r.list gen) := if_pos h

theorem list_gens (g : Fin nGenerations) : r.list g = r.gens g := by
  have hne : g.val ≠ genFrozen := by
    have := g.isLt
    unfold genFrozen nGenerations at *
    omega
  simp [list, hne]

theorem list_frozen : r.list genFrozen = r.frozen := if_pos rfl

theorem setList_setList (l' : List ℕ) : (r.setList gen l).setList gen l' = r.setList gen l' := by
  unfold setList
  split_ifs <;> simp

theorem setEntry_setList : (r.setList gen l).setEntry s e = (r.setEntry s e).setList gen l := by
  unfold setEntry setList
  split_ifs <;> rfl

@[simp] theorem list_setEntry : (r.setEntry s e).list = r.list := rfl

@[simp] theorem slab_setEntry : (r.setEntry s e).slab = r.slab.set s e := rfl

@[simp] theorem free_setEntry : (r.setEntry s e).free = r.free := rfl

@[simp] theorem index_setEntry : (r.setEntry s e).index = r.index := rfl

/-- The handle at each slot. -/
def held (r : Registry) (s : ℕ) : Option WeakObject := r.slab[s]?.bind Entry.obj

theorem held_of_slab {r' : Registry} (h : r'.slab = r.slab) : r'.held = r.held := by
  funext s
  rw [held, held, h]

@[simp] theorem held_setList : (r.setList gen l).held = r.held := held_of_slab slab_setList

theorem held_of_some (he : r.slab[s]? = some e) : r.held s = e.obj := by
  rw [held, he, Option.bind_some]

theorem exists_of_held (h : r.held s = some w) : ∃ e, r.slab[s]? = some e ∧ e.obj = some w :=
  Option.bind_eq_some_iff.mp h

theorem held_set {r' : Registry} (he : r.slab[s]? = some e) (hr : r'.slab = r.slab.set s e') :
    r'.held = Function.update r.held s e'.obj := by
  funext u
  rw [held, hr, Layout.getElem?_set_of_some he, Function.update_apply]
  split_ifs with h₁ h₂ h₂
  · rfl
  · exact absurd h₁.symm h₂
  · exact absurd h₂.symm h₁
  · rfl

theorem held_set_same {r' : Registry} (he : r.slab[s]? = some e) (hr : r'.slab = r.slab.set s e')
    (hobj : e'.obj = e.obj) : r'.held = r.held := by
  rw [held_set he hr, hobj, ← held_of_some he, Function.update_eq_self]

theorem entry_ok (he : r.slab[s]? = some e) : r.entry s = .ok e := by
  unfold entry WeavePy.index
  rw [he]
  rfl

theorem listEntry_ok (he : r.slab[s]? = some e) : r.listEntry s = .ok e := by
  unfold listEntry getUnchecked
  rw [he]
  rfl

end Registry

/-- Every handle is found under its object's key, and nothing else is. -/
structure Keyed (held : ℕ → Option WeakObject) (index : Std.HashMap ObjectId ℕ) (heap : Heap) : Prop where
  allocated : ∀ s w, held s = some w → ∃ o, heap w.addr = some o ∧ o.kind = w.kind
  own : ∀ s w o, held s = some w → heap w.addr = some o → o.kind.isIntrusive → 0 < o.strong → o.gcSlot = s
  indexed : ∀ s w, held s = some w → ¬ w.kind.isIntrusive → index[w.addr]? = some s
  unique : ∀ s s' w w', held s = some w → held s' = some w' → w.addr = w'.addr → s = s'
  index_held : ∀ a s, index[a]? = some s → ∃ w, held s = some w ∧ w.addr = a ∧ ¬ w.kind.isIntrusive
  registered : ∀ a o, heap a = some o → o.kind.isIntrusive → 0 < o.strong → o.gcSlot < youngBit →
    ∃ w, held o.gcSlot = some w ∧ w.addr = a

namespace Keyed

variable {held : ℕ → Option WeakObject} {index : Std.HashMap ObjectId ℕ} {heap : Heap} {a : ObjectId}
  {o o' : Obj} {s : ℕ} {w : WeakObject}

/-- A change to an object that revives nothing and keeps its slot, or moves it among the young. -/
theorem set (h : Keyed held index heap) (ho : heap a = some o) (hkind : o'.kind = o.kind)
    (hstrong : 0 < o'.strong → 0 < o.strong)
    (hslot : o'.gcSlot = o.gcSlot ∨ youngBit ≤ o.gcSlot ∧ youngBit ≤ o'.gcSlot)
    (hsmall : ∀ s w, held s = some w → s < youngBit) : Keyed held index (heap.set a o') where
  allocated s w hs := by
    obtain ⟨o₁, ho₁, hk⟩ := h.allocated s w hs
    by_cases ha : w.addr = a
    · rw [ha, ho, Option.some_inj] at ho₁
      subst ho₁
      exact ⟨o', by rw [ha, Heap.set, Function.update_self], hkind.trans hk⟩
    · exact ⟨o₁, by rw [Heap.set, Function.update_of_ne ha, ho₁], hk⟩
  own s w o₁ hs ho₁ hi hpos := by
    by_cases ha : w.addr = a
    · rw [ha, Heap.set, Function.update_self, Option.some_inj] at ho₁
      subst ho₁
      have hold := h.own s w o hs (ha ▸ ho) (hkind ▸ hi) (hstrong hpos)
      rcases hslot with hslot | ⟨hslot, _⟩
      · exact hslot.trans hold
      · have := hsmall s w hs
        omega
    · rw [Heap.set, Function.update_of_ne ha] at ho₁
      exact h.own s w o₁ hs ho₁ hi hpos
  indexed := h.indexed
  unique := h.unique
  index_held := h.index_held
  registered b o₁ ho₁ hi hpos hlt := by
    by_cases hb : b = a
    · rw [hb, Heap.set, Function.update_self, Option.some_inj] at ho₁
      subst ho₁
      rcases hslot with hslot | ⟨_, hslot⟩
      · rw [hslot, hb]
        exact h.registered a o ho (hkind ▸ hi) (hstrong hpos) (hslot ▸ hlt)
      · omega
    · rw [Heap.set, Function.update_of_ne hb] at ho₁
      exact h.registered b o₁ ho₁ hi hpos hlt

theorem alloc (h : Keyed held index heap) (ha : heap a = none) (hslot : o.gcSlot = noSlot) :
    Keyed held index (heap.set a o) where
  allocated s w hs := by
    obtain ⟨o₁, ho₁, hk⟩ := h.allocated s w hs
    have hne : w.addr ≠ a := by
      rintro rfl
      simp [ha] at ho₁
    exact ⟨o₁, by rw [Heap.set, Function.update_of_ne hne, ho₁], hk⟩
  own s w o₁ hs ho₁ hi hpos := by
    obtain ⟨o₂, ho₂, hk⟩ := h.allocated s w hs
    have hne : w.addr ≠ a := by
      rintro rfl
      simp [ha] at ho₂
    rw [Heap.set, Function.update_of_ne hne] at ho₁
    exact h.own s w o₁ hs ho₁ hi hpos
  indexed := h.indexed
  unique := h.unique
  index_held := h.index_held
  registered b o₁ ho₁ hi hpos hlt := by
    by_cases hb : b = a
    · rw [hb, Heap.set, Function.update_self, Option.some_inj] at ho₁
      subst ho₁
      rw [hslot] at hlt
      exact absurd hlt (by decide)
    · rw [Heap.set, Function.update_of_ne hb] at ho₁
      exact h.registered b o₁ ho₁ hi hpos hlt

theorem dealloc (h : Keyed held index heap) (hnone : ∀ s w, held s = some w → w.addr ≠ a) :
    Keyed held index (Function.update heap a none) where
  allocated s w hs := by
    obtain ⟨o, ho, hk⟩ := h.allocated s w hs
    exact ⟨o, by rw [Function.update_of_ne (hnone s w hs), ho], hk⟩
  own s w o hs ho hi hpos := by
    rw [Function.update_of_ne (hnone s w hs)] at ho
    exact h.own s w o hs ho hi hpos
  indexed := h.indexed
  unique := h.unique
  index_held := h.index_held
  registered b o ho hi hpos hlt := by
    by_cases hb : b = a
    · simp [hb] at ho
    · rw [Function.update_of_ne hb] at ho
      exact h.registered b o ho hi hpos hlt

section Forget

theorem held_of_update {s u : ℕ} (h : Function.update held s none u = some w) : u ≠ s ∧ held u = some w := by
  by_cases hu : u = s
  · simp [hu] at h
  · rw [Function.update_of_ne hu] at h
    exact ⟨hu, h⟩

theorem forget_intrusive (h : Keyed held index heap) (hs : held s = some w) (hi : w.kind.isIntrusive) :
    Keyed (Function.update held s none) index (clearIntrusiveSlot heap w) := by
  obtain ⟨o, ho, hk⟩ := h.allocated s w hs
  have hheap : ∀ b, b ≠ w.addr → clearIntrusiveSlot heap w b = heap b := by
    intro b hb
    unfold clearIntrusiveSlot
    rw [ho]
    dsimp only
    split_ifs
    · rw [Heap.set, Function.update_of_ne hb]
    · rfl
  have hother : ∀ u v, Function.update held s none u = some v → v.addr ≠ w.addr := by
    intro u v hu heq
    obtain ⟨hne, hu⟩ := held_of_update hu
    exact hne (h.unique u s v w hu hs heq)
  constructor
  · intro u v hu
    rw [hheap _ (hother u v hu)]
    exact h.allocated u v (held_of_update hu).2
  · intro u v o₁ hu ho₁ hi₁ hpos
    rw [hheap _ (hother u v hu)] at ho₁
    exact h.own u v o₁ (held_of_update hu).2 ho₁ hi₁ hpos
  · exact fun u v hu => h.indexed u v (held_of_update hu).2
  · exact fun u u' v v' hu hu' => h.unique u u' v v' (held_of_update hu).2 (held_of_update hu').2
  · intro b u hb
    obtain ⟨v, hv, hva, hvi⟩ := h.index_held b u hb
    refine ⟨v, ?_, hva, hvi⟩
    rw [Function.update_of_ne, hv]
    rintro rfl
    rw [hs, Option.some_inj] at hv
    exact hvi (hv ▸ hi)
  · intro b o₁ ho₁ hi₁ hpos hlt
    by_cases hb : b = w.addr
    · subst hb
      unfold clearIntrusiveSlot at ho₁
      rw [ho] at ho₁
      dsimp only at ho₁
      split_ifs at ho₁ with hlive
      · rw [Heap.set, Function.update_self, Option.some_inj] at ho₁
        subst ho₁
        exact absurd (show noSlot < youngBit from hlt) (by decide)
      · rw [ho, Option.some_inj] at ho₁
        subst ho₁
        exact absurd hpos hlive
    · rw [hheap b hb] at ho₁
      obtain ⟨v, hv, hva⟩ := h.registered b o₁ ho₁ hi₁ hpos hlt
      refine ⟨v, ?_, hva⟩
      rw [Function.update_of_ne, hv]
      intro heq
      rw [heq, hs, Option.some_inj] at hv
      exact hb (hv ▸ hva.symm)

theorem forget_indexed (h : Keyed held index heap) (hs : held s = some w) (hi : ¬ w.kind.isIntrusive) :
    Keyed (Function.update held s none) (index.erase w.addr) heap := by
  constructor
  · exact fun u v hu => h.allocated u v (held_of_update hu).2
  · exact fun u v o hu => h.own u v o (held_of_update hu).2
  · intro u v hu hv
    obtain ⟨hne, hu⟩ := held_of_update hu
    rw [Std.HashMap.getElem?_erase, if_neg, h.indexed u v hu hv]
    intro heq
    exact hne (h.unique u s v w hu hs (eq_of_beq heq).symm)
  · exact fun u u' v v' hu hu' => h.unique u u' v v' (held_of_update hu).2 (held_of_update hu').2
  · intro b u hb
    rw [Std.HashMap.getElem?_erase] at hb
    split_ifs at hb with heq
    obtain ⟨v, hv, hva, hvi⟩ := h.index_held b u hb
    refine ⟨v, ?_, hva, hvi⟩
    rw [Function.update_of_ne, hv]
    rintro rfl
    rw [hs, Option.some_inj] at hv
    exact heq (by simp [hv, hva])
  · intro b o ho hio hpos hlt
    obtain ⟨v, hv, hva⟩ := h.registered b o ho hio hpos hlt
    refine ⟨v, ?_, hva⟩
    rw [Function.update_of_ne, hv]
    intro heq
    rw [heq, hs, Option.some_inj] at hv
    subst hv
    obtain ⟨o', ho', hk⟩ := h.allocated s w hs
    rw [hva, ho, Option.some_inj] at ho'
    subst ho'
    exact hi (hk ▸ hio)

end Forget

section Insert

theorem held_update_cases {u : ℕ} {v : WeakObject} (hnew : ∀ u v, held u = some v → v.addr ≠ w.addr)
    (hu : Function.update held s (some w) u = some v) :
    u = s ∧ v = w ∨ u ≠ s ∧ held u = some v ∧ v.addr ≠ w.addr := by
  by_cases hus : u = s
  · rw [hus, Function.update_self, Option.some_inj] at hu
    exact .inl ⟨hus, hu.symm⟩
  · rw [Function.update_of_ne hus] at hu
    exact .inr ⟨hus, hu, hnew u v hu⟩

theorem held_update_of_held {u : ℕ} {v : WeakObject} (hs : held s = none) (hu : held u = some v) :
    Function.update held s (some w) u = some v := by
  rw [Function.update_of_ne, hu]
  rintro rfl
  simp [hs] at hu

variable (h : Keyed held index heap) (hs : held s = none) (ho : heap w.addr = some o)
  (hkind : o.kind = w.kind) (hnew : ∀ u v, held u = some v → v.addr ≠ w.addr)
include h hs ho hkind hnew

theorem insert_intrusive (hi : w.kind.isIntrusive) (hk : o'.kind = w.kind) (hslot : o'.gcSlot = s) :
    Keyed (Function.update held s (some w)) index (heap.set w.addr o') := by
  have hkeep : ∀ u v, held u = some v → Function.update held s (some w) u = some v :=
    fun u v => held_update_of_held hs
  constructor
  · intro u v hu
    rcases held_update_cases hnew hu with ⟨_, rfl⟩ | ⟨_, hu, hne⟩
    · exact ⟨o', by rw [Heap.set, Function.update_self], hk⟩
    · rw [Heap.set, Function.update_of_ne hne]
      exact h.allocated u v hu
  · intro u v o₁ hu ho₁ hi₁ hpos
    rcases held_update_cases hnew hu with ⟨rfl, rfl⟩ | ⟨_, hu, hne⟩
    · rw [Heap.set, Function.update_self, Option.some_inj] at ho₁
      exact ho₁ ▸ hslot
    · rw [Heap.set, Function.update_of_ne hne] at ho₁
      exact h.own u v o₁ hu ho₁ hi₁ hpos
  · intro u v hu hv
    rcases held_update_cases hnew hu with ⟨_, rfl⟩ | ⟨_, hu, _⟩
    · exact absurd hi hv
    · exact h.indexed u v hu hv
  · intro u u' v v' hu hu' heq
    rcases held_update_cases hnew hu with ⟨rfl, rfl⟩ | ⟨_, hu, hne⟩ <;>
      rcases held_update_cases hnew hu' with ⟨rfl, rfl⟩ | ⟨_, hu', hne'⟩
    · rfl
    · exact absurd heq.symm hne'
    · exact absurd heq hne
    · exact h.unique u u' v v' hu hu' heq
  · intro b u hb
    obtain ⟨v, hv, hrest⟩ := h.index_held b u hb
    exact ⟨v, hkeep u v hv, hrest⟩
  · intro b o₁ ho₁ hi₁ hpos hlt
    by_cases hb : b = w.addr
    · rw [hb, Heap.set, Function.update_self, Option.some_inj] at ho₁
      subst ho₁
      exact ⟨w, by rw [hslot, Function.update_self], hb.symm⟩
    · rw [Heap.set, Function.update_of_ne hb] at ho₁
      obtain ⟨v, hv, hva⟩ := h.registered b o₁ ho₁ hi₁ hpos hlt
      exact ⟨v, hkeep _ v hv, hva⟩

theorem insert_indexed (hi : ¬ w.kind.isIntrusive) :
    Keyed (Function.update held s (some w)) (index.insert w.addr s) heap := by
  have hkeep : ∀ u v, held u = some v → Function.update held s (some w) u = some v :=
    fun u v => held_update_of_held hs
  constructor
  · intro u v hu
    rcases held_update_cases hnew hu with ⟨_, rfl⟩ | ⟨_, hu, _⟩
    · exact ⟨o, ho, hkind⟩
    · exact h.allocated u v hu
  · intro u v o₁ hu ho₁ hi₁ hpos
    rcases held_update_cases hnew hu with ⟨_, rfl⟩ | ⟨_, hu, _⟩
    · rw [ho, Option.some_inj] at ho₁
      subst ho₁
      exact absurd (hkind ▸ hi₁) hi
    · exact h.own u v o₁ hu ho₁ hi₁ hpos
  · intro u v hu hv
    rw [Std.HashMap.getElem?_insert]
    rcases held_update_cases hnew hu with ⟨rfl, rfl⟩ | ⟨_, hu, hne⟩
    · simp
    · rw [if_neg (by simpa using hne.symm), h.indexed u v hu hv]
  · intro u u' v v' hu hu' heq
    rcases held_update_cases hnew hu with ⟨rfl, rfl⟩ | ⟨_, hu, hne⟩ <;>
      rcases held_update_cases hnew hu' with ⟨rfl, rfl⟩ | ⟨_, hu', hne'⟩
    · rfl
    · exact absurd heq.symm hne'
    · exact absurd heq hne
    · exact h.unique u u' v v' hu hu' heq
  · intro b u hb
    rw [Std.HashMap.getElem?_insert] at hb
    split_ifs at hb with heq
    · rw [Option.some_inj] at hb
      subst hb
      exact ⟨w, by rw [Function.update_self], eq_of_beq heq, hi⟩
    · obtain ⟨v, hv, hrest⟩ := h.index_held b u hb
      exact ⟨v, hkeep u v hv, hrest⟩
  · intro b o₁ ho₁ hi₁ hpos hlt
    obtain ⟨v, hv, hva⟩ := h.registered b o₁ ho₁ hi₁ hpos hlt
    exact ⟨v, hkeep _ v hv, hva⟩

end Insert

end Keyed

end WeavePy.Gc
