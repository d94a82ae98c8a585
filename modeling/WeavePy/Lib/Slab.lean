import Mathlib.Data.List.Nodup
import Mathlib.Data.List.Perm.Subperm
import WeavePy.Rust

/-!
Slabs of entries that record their own place: every slot is a member of one of several lists, at the
position its entry names, or vacant and threaded on a list of vacant slots through that same field.
-/

namespace WeavePy

/-- `pos` is the position in list `tag`, or, in a vacant entry, the next vacant slot. -/
structure Layout (ε τ : Type) where
  tag : ε → τ
  pos : ε → ℕ
  vacant : ε → Prop

namespace Layout

variable {ε τ : Type} (L : Layout ε τ)

/-- The vacant slots in the order they are threaded from `head`. -/
def Chain (slab : List ε) (stop : ℕ) : ℕ → List ℕ → Prop
  | head, [] => head = stop
  | head, s :: rest => head = s ∧ ∃ e, slab[s]? = some e ∧ L.vacant e ∧ Chain slab stop (L.pos e) rest

/-- `loose` are the slots in hand: taken off their list and not put on another one yet. -/
structure Placed (slab : List ε) (members : τ → List ℕ) (stop free : ℕ) (freed loose : List ℕ) :
    Prop where
  listed : ∀ g i s, (members g)[i]? = some s →
    ∃ e, slab[s]? = some e ∧ L.tag e = g ∧ L.pos e = i ∧ ¬ L.vacant e
  chain : L.Chain slab stop free freed
  freed_nodup : freed.Nodup
  placed : ∀ s e, slab[s]? = some e → s ∈ loose ∨ s ∈ freed ∨ (members (L.tag e))[L.pos e]? = some s
  loose_nodup : loose.Nodup
  loose_lt : ∀ s ∈ loose, s < slab.length
  loose_freed : ∀ s ∈ loose, s ∉ freed
  loose_listed : ∀ s ∈ loose, ∀ g, s ∉ members g

variable {L} {slab slab' : List ε} {members : τ → List ℕ} {stop free s : ℕ} {freed loose : List ℕ}
  {e e' : ε} {g : τ}

theorem getElem?_set_of_some {l : List ε} (h : l[s]? = some e) (t : ℕ) :
    (l.set s e')[t]? = if s = t then some e' else l[t]? := by
  obtain ⟨hs, _⟩ := List.getElem?_eq_some_iff.mp h
  rw [List.getElem?_set, if_pos hs]

theorem lt_of_some {l : List ε} (h : l[s]? = some e) : s < l.length :=
  (List.getElem?_eq_some_iff.mp h).1

theorem Chain.congr {head : ℕ} (h : L.Chain slab stop head freed)
    (hsame : ∀ t ∈ freed, slab'[t]? = slab[t]?) : L.Chain slab' stop head freed := by
  induction freed generalizing head with
  | nil => exact h
  | cons t rest ih =>
    obtain ⟨rfl, e, he, hv, hrest⟩ := h
    refine ⟨rfl, e, ?_, hv, ih hrest fun u hu => hsame u (by simp [hu])⟩
    rw [hsame _ (by simp), he]

theorem Chain.vacant_of_mem {head : ℕ} (h : L.Chain slab stop head freed) (hs : s ∈ freed) :
    ∃ e, slab[s]? = some e ∧ L.vacant e := by
  induction freed generalizing head with
  | nil => simp at hs
  | cons t rest ih =>
    obtain ⟨rfl, e, he, hv, hrest⟩ := h
    rcases List.mem_cons.mp hs with rfl | hs
    · exact ⟨e, he, hv⟩
    · exact ih hrest hs

namespace Placed

theorem not_listed_of_freed (h : L.Placed slab members stop free freed loose) (hs : s ∈ freed) (g : τ) :
    s ∉ members g := by
  intro hmem
  obtain ⟨i, hi⟩ := List.getElem?_of_mem hmem
  obtain ⟨e, he, _, _, hv⟩ := h.listed g i s hi
  obtain ⟨e', he', hv'⟩ := h.chain.vacant_of_mem hs
  rw [he, Option.some_inj] at he'
  exact hv (he' ▸ hv')

theorem place_unique (h : L.Placed slab members stop free freed loose) {i j : ℕ} {g' : τ}
    (hi : (members g)[i]? = some s) (hj : (members g')[j]? = some s) : g = g' ∧ i = j := by
  obtain ⟨e, he, hg, hpos, _⟩ := h.listed g i s hi
  obtain ⟨e', he', hg', hpos', _⟩ := h.listed g' j s hj
  rw [he, Option.some_inj] at he'
  subst he'
  exact ⟨hg.symm.trans hg', hpos.symm.trans hpos'⟩

theorem members_nodup (h : L.Placed slab members stop free freed loose) (g : τ) : (members g).Nodup := by
  apply List.nodup_iff_getElem?_ne_getElem?.mpr
  intro i j hij hj heq
  have hj' := List.getElem?_eq_getElem hj
  have := (h.place_unique (heq.trans hj') hj').2
  omega

theorem members_lt (h : L.Placed slab members stop free freed loose) (hs : s ∈ members g) :
    s < slab.length := by
  obtain ⟨i, hi⟩ := List.getElem?_of_mem hs
  obtain ⟨e, he, _⟩ := h.listed g i s hi
  exact lt_of_some he

theorem members_length (h : L.Placed slab members stop free freed loose) (g : τ) :
    (members g).length ≤ slab.length := by
  have hsub : members g ⊆ List.range slab.length := fun s hs => List.mem_range.mpr (h.members_lt hs)
  have hle := ((h.members_nodup g).subperm hsub).length_le
  rwa [List.length_range] at hle

theorem perm {loose' : List ℕ} (h : L.Placed slab members stop free freed loose) (hp : loose.Perm loose') :
    L.Placed slab members stop free freed loose' where
  listed := h.listed
  chain := h.chain
  freed_nodup := h.freed_nodup
  placed s e he := by
    rw [← hp.mem_iff]
    exact h.placed s e he
  loose_nodup := hp.nodup_iff.mp h.loose_nodup
  loose_lt s hs := h.loose_lt s (hp.mem_iff.mpr hs)
  loose_freed s hs := h.loose_freed s (hp.mem_iff.mpr hs)
  loose_listed s hs := h.loose_listed s (hp.mem_iff.mpr hs)

/-- What the entry of a slot in hand says does not matter. -/
theorem edit (h : L.Placed slab members stop free freed loose) (hs : s ∈ loose) (e' : ε) :
    L.Placed (slab.set s e') members stop free freed loose where
  listed g i t ht := by
    obtain ⟨e, he, hrest⟩ := h.listed g i t ht
    have hne : s ≠ t := by
      rintro rfl
      exact h.loose_listed s hs g (List.mem_of_getElem? ht)
    exact ⟨e, by rw [List.getElem?_set_ne hne, he], hrest⟩
  chain := by
    apply h.chain.congr
    intro t ht
    apply List.getElem?_set_ne
    rintro rfl
    exact h.loose_freed s hs ht
  freed_nodup := h.freed_nodup
  placed t e he := by
    by_cases hne : s = t
    · exact .inl (hne ▸ hs)
    · rw [List.getElem?_set_ne hne] at he
      exact h.placed t e he
  loose_nodup := h.loose_nodup
  loose_lt t ht := by
    rw [List.length_set]
    exact h.loose_lt t ht
  loose_freed := h.loose_freed
  loose_listed := h.loose_listed

/-- An entry that keeps its place. -/
theorem keep (h : L.Placed slab members stop free freed loose) (he : slab[s]? = some e)
    (htag : L.tag e' = L.tag e) (hpos : L.pos e' = L.pos e) (hvacant : L.vacant e' ↔ L.vacant e) :
    L.Placed (slab.set s e') members stop free freed loose where
  listed g i t ht := by
    obtain ⟨e₁, he₁, hg, hi, hv⟩ := h.listed g i t ht
    rw [getElem?_set_of_some he]
    split_ifs with hst
    · subst hst
      rw [he, Option.some_inj] at he₁
      subst he₁
      exact ⟨e', rfl, htag.trans hg, hpos.trans hi, hvacant.not.mpr hv⟩
    · exact ⟨e₁, he₁, hg, hi, hv⟩
  chain := by
    have hchain := h.chain
    clear h
    induction freed generalizing free with
    | nil => exact hchain
    | cons t rest ih =>
      obtain ⟨rfl, e₁, he₁, hv, hrest⟩ := hchain
      refine ⟨rfl, ?_⟩
      rw [getElem?_set_of_some he]
      split_ifs with hst
      · subst hst
        rw [he, Option.some_inj] at he₁
        subst he₁
        exact ⟨e', rfl, hvacant.mpr hv, hpos ▸ ih hrest⟩
      · exact ⟨e₁, he₁, hv, ih hrest⟩
  freed_nodup := h.freed_nodup
  placed t e₁ he₁ := by
    rw [getElem?_set_of_some he] at he₁
    split_ifs at he₁ with hst
    · subst hst
      rw [Option.some_inj] at he₁
      subst he₁
      rw [htag, hpos]
      exact h.placed s e he
    · exact h.placed t e₁ he₁
  loose_nodup := h.loose_nodup
  loose_lt t ht := by
    rw [List.length_set]
    exact h.loose_lt t ht
  loose_freed := h.loose_freed
  loose_listed := h.loose_listed

/-- Takes the first vacant slot. -/
theorem pop (h : L.Placed slab members stop free (s :: freed) loose) (he : slab[s]? = some e) :
    L.Placed slab members stop (L.pos e) freed (s :: loose) where
  listed := h.listed
  chain := by
    obtain ⟨_, e', he', _, hrest⟩ := h.chain
    rw [he, Option.some_inj] at he'
    exact he' ▸ hrest
  freed_nodup := (List.nodup_cons.mp h.freed_nodup).2
  placed t e' he' := by
    rcases h.placed t e' he' with ht | ht | ht
    · exact .inl (by simp [ht])
    · rcases List.mem_cons.mp ht with rfl | ht
      · exact .inl (by simp)
      · exact .inr (.inl ht)
    · exact .inr (.inr ht)
  loose_nodup := List.nodup_cons.mpr ⟨fun hs => h.loose_freed s hs (by simp), h.loose_nodup⟩
  loose_lt t ht := by
    rcases List.mem_cons.mp ht with rfl | ht
    · exact lt_of_some he
    · exact h.loose_lt t ht
  loose_freed t ht hf := by
    rcases List.mem_cons.mp ht with rfl | ht
    · exact (List.nodup_cons.mp h.freed_nodup).1 hf
    · exact h.loose_freed t ht (by simp [hf])
  loose_listed t ht g := by
    rcases List.mem_cons.mp ht with rfl | ht
    · exact h.not_listed_of_freed (by simp) g
    · exact h.loose_listed t ht g

/-- Adds a slot at the end of the slab. -/
theorem grow (h : L.Placed slab members stop free freed loose) (e : ε) :
    L.Placed (slab ++ [e]) members stop free freed (slab.length :: loose) where
  listed g i t ht := by
    obtain ⟨e', he', hrest⟩ := h.listed g i t ht
    exact ⟨e', by rw [List.getElem?_append_left (lt_of_some he'), he'], hrest⟩
  chain := by
    apply h.chain.congr
    intro t ht
    obtain ⟨e', he', _⟩ := h.chain.vacant_of_mem ht
    exact List.getElem?_append_left (lt_of_some he')
  freed_nodup := h.freed_nodup
  placed t e' he' := by
    rcases Nat.lt_or_ge t slab.length with ht | ht
    · rw [List.getElem?_append_left ht] at he'
      rcases h.placed t e' he' with h₁ | h₁
      · exact .inl (by simp [h₁])
      · exact .inr h₁
    · have hlt := lt_of_some he'
      rw [List.length_append, List.length_singleton] at hlt
      exact .inl (by simp [show t = slab.length by omega])
  loose_nodup := List.nodup_cons.mpr ⟨fun hs => by have := h.loose_lt _ hs; omega, h.loose_nodup⟩
  loose_lt t ht := by
    rw [List.length_append, List.length_singleton]
    rcases List.mem_cons.mp ht with rfl | ht
    · omega
    · have := h.loose_lt t ht
      omega
  loose_freed t ht hf := by
    rcases List.mem_cons.mp ht with rfl | ht
    · obtain ⟨e', he', _⟩ := h.chain.vacant_of_mem hf
      have := lt_of_some he'
      omega
    · exact h.loose_freed t ht hf
  loose_listed t ht g := by
    rcases List.mem_cons.mp ht with rfl | ht
    · intro hmem
      have := h.members_lt hmem
      omega
    · exact h.loose_listed t ht g

/-- Threads a slot in hand on the vacant ones. -/
theorem vacate (h : L.Placed slab members stop free freed (s :: loose)) (he : slab[s]? = some e)
    (hvacant : L.vacant e) (hpos : L.pos e = free) : L.Placed slab members stop s (s :: freed) loose where
  listed := h.listed
  chain := ⟨rfl, e, he, hvacant, hpos ▸ h.chain⟩
  freed_nodup := List.nodup_cons.mpr ⟨h.loose_freed s (by simp), h.freed_nodup⟩
  placed t e' he' := by
    rcases h.placed t e' he' with ht | ht | ht
    · rcases List.mem_cons.mp ht with rfl | ht
      · exact .inr (.inl (by simp))
      · exact .inl ht
    · exact .inr (.inl (by simp [ht]))
    · exact .inr (.inr ht)
  loose_nodup := (List.nodup_cons.mp h.loose_nodup).2
  loose_lt t ht := h.loose_lt t (by simp [ht])
  loose_freed t ht hf := by
    rcases List.mem_cons.mp hf with rfl | hf
    · exact (List.nodup_cons.mp h.loose_nodup).1 ht
    · exact h.loose_freed t (by simp [ht]) hf
  loose_listed t ht := h.loose_listed t (by simp [ht])

variable [DecidableEq τ]

/-- Puts a slot in hand at the end of the list its entry names. -/
theorem push (h : L.Placed slab members stop free freed (s :: loose)) (he : slab[s]? = some e)
    (htag : L.tag e = g) (hpos : L.pos e = (members g).length) (hvacant : ¬ L.vacant e) :
    L.Placed slab (Function.update members g (members g ++ [s])) stop free freed loose where
  listed g' i t ht := by
    by_cases hg : g' = g
    · subst hg
      rw [Function.update_self, List.getElem?_append] at ht
      split_ifs at ht with hi
      · exact h.listed g' i t ht
      · rw [List.getElem?_singleton] at ht
        split_ifs at ht with hz
        rw [Option.some_inj] at ht
        subst ht
        exact ⟨e, he, htag, by omega, hvacant⟩
    · rw [Function.update_of_ne hg] at ht
      exact h.listed g' i t ht
  chain := h.chain
  freed_nodup := h.freed_nodup
  placed t e' he' := by
    rcases h.placed t e' he' with ht | ht | ht
    · rcases List.mem_cons.mp ht with rfl | ht
      · rw [he, Option.some_inj] at he'
        subst he'
        refine .inr (.inr ?_)
        rw [htag, Function.update_self, hpos]
        simp
      · exact .inl ht
    · exact .inr (.inl ht)
    · refine .inr (.inr ?_)
      by_cases hg : L.tag e' = g
      · rw [hg] at ht ⊢
        rw [Function.update_self, List.getElem?_append_left (lt_of_some ht), ht]
      · rw [Function.update_of_ne hg, ht]
  loose_nodup := (List.nodup_cons.mp h.loose_nodup).2
  loose_lt t ht := h.loose_lt t (by simp [ht])
  loose_freed t ht := h.loose_freed t (by simp [ht])
  loose_listed t ht g' := by
    by_cases hg : g' = g
    · subst hg
      rw [Function.update_self, List.mem_append, List.mem_singleton, not_or]
      refine ⟨h.loose_listed t (by simp [ht]) g', ?_⟩
      rintro rfl
      exact (List.nodup_cons.mp h.loose_nodup).1 ht
    · rw [Function.update_of_ne hg]
      exact h.loose_listed t (by simp [ht]) g'

/-- Takes a whole list in hand. -/
theorem take (h : L.Placed slab members stop free freed loose) (g : τ) :
    L.Placed slab (Function.update members g []) stop free freed (members g ++ loose) where
  listed g' i t ht := by
    by_cases hg : g' = g
    · subst hg
      simp [Function.update_self] at ht
    · rw [Function.update_of_ne hg] at ht
      exact h.listed g' i t ht
  chain := h.chain
  freed_nodup := h.freed_nodup
  placed t e' he' := by
    rw [List.mem_append]
    rcases h.placed t e' he' with ht | ht | ht
    · exact .inl (.inr ht)
    · exact .inr (.inl ht)
    · by_cases hg : L.tag e' = g
      · exact .inl (.inl (List.mem_of_getElem? (hg ▸ ht)))
      · rw [Function.update_of_ne hg]
        exact .inr (.inr ht)
  loose_nodup := by
    apply List.nodup_append.mpr
    refine ⟨h.members_nodup g, h.loose_nodup, ?_⟩
    rintro t ht _ hl rfl
    exact h.loose_listed t hl g ht
  loose_lt t ht := by
    rcases List.mem_append.mp ht with ht | ht
    · exact h.members_lt ht
    · exact h.loose_lt t ht
  loose_freed t ht hf := by
    rcases List.mem_append.mp ht with ht | ht
    · exact h.not_listed_of_freed hf g ht
    · exact h.loose_freed t ht hf
  loose_listed t ht g' := by
    by_cases hg : g' = g
    · simp [hg]
    · rw [Function.update_of_ne hg]
      rcases List.mem_append.mp ht with ht | ht
      · intro hmem
        obtain ⟨i, hi⟩ := List.getElem?_of_mem ht
        obtain ⟨j, hj⟩ := List.getElem?_of_mem hmem
        exact hg (h.place_unique hj hi).1
      · exact h.loose_listed t ht g'

section Unlink

variable {p : ℕ}

/-- Takes the last member of a list in hand. -/
theorem unlink_last (h : L.Placed slab members stop free freed loose)
    (hs : (members g)[p]? = some s) (hp : p + 1 = (members g).length) :
    L.Placed slab (Function.update members g (swapRemove (members g) p)) stop free freed (s :: loose) := by
  have hlast : (members g).getLast? = some s := by
    rw [List.getLast?_eq_getElem?, ← hp, Nat.add_sub_cancel, hs]
  have hget := swapRemove_getElem? hlast (i := p)
  refine ⟨?_, h.chain, h.freed_nodup, ?_, List.nodup_cons.mpr ⟨?_, h.loose_nodup⟩, ?_, ?_, ?_⟩
  · intro g' i t ht
    by_cases hg : g' = g
    · subst hg
      rw [Function.update_self, hget] at ht
      split_ifs at ht
      · omega
      · exact h.listed g' i t ht
    · rw [Function.update_of_ne hg] at ht
      exact h.listed g' i t ht
  · intro t e' he'
    rcases h.placed t e' he' with ht | ht | ht
    · exact .inl (by simp [ht])
    · exact .inr (.inl ht)
    · by_cases hg : L.tag e' = g
      · rw [hg, Function.update_self, hget]
        rw [hg] at ht
        have hlt := lt_of_some ht
        by_cases hpos : L.pos e' = p
        · rw [hpos, hs, Option.some_inj] at ht
          exact .inl (by simp [ht])
        · refine .inr (.inr ?_)
          rw [if_pos (by omega), if_neg hpos, ht]
      · rw [Function.update_of_ne hg]
        exact .inr (.inr ht)
  · exact fun hmem => h.loose_listed s hmem g (List.mem_of_getElem? hs)
  · intro t ht
    rcases List.mem_cons.mp ht with rfl | ht
    · exact h.members_lt (List.mem_of_getElem? hs)
    · exact h.loose_lt t ht
  · intro t ht hf
    rcases List.mem_cons.mp ht with rfl | ht
    · exact h.not_listed_of_freed hf g (List.mem_of_getElem? hs)
    · exact h.loose_freed t ht hf
  · intro t ht g' hmem
    obtain ⟨i, hi⟩ := List.getElem?_of_mem hmem
    by_cases hg : g' = g
    · subst hg
      rw [Function.update_self, hget] at hi
      split_ifs at hi
      · omega
      · rcases List.mem_cons.mp ht with rfl | ht
        · have := (h.place_unique hi hs).2
          omega
        · exact h.loose_listed t ht g' (List.mem_of_getElem? hi)
    · rw [Function.update_of_ne hg] at hi
      rcases List.mem_cons.mp ht with rfl | ht
      · exact hg (h.place_unique hi hs).1
      · exact h.loose_listed t ht g' (List.mem_of_getElem? hi)

/-- Takes a member in hand and moves the last member of its list to its place. -/
theorem unlink_swap (h : L.Placed slab members stop free freed loose) {moved : ℕ} {m m' : ε}
    (hs : (members g)[p]? = some s) (hp : p + 1 < (members g).length)
    (hlast : (members g).getLast? = some moved) (hm : slab[moved]? = some m)
    (htag : L.tag m' = L.tag m) (hpos : L.pos m' = p) (hvacant : L.vacant m' ↔ L.vacant m) :
    L.Placed (slab.set moved m') (Function.update members g (swapRemove (members g) p)) stop free freed
      (s :: loose) := by
  have hget := swapRemove_getElem? hlast (i := p)
  have hend : (members g)[(members g).length - 1]? = some moved := by
    rw [← List.getLast?_eq_getElem?, hlast]
  obtain ⟨m₁, hm₁, hm_tag, _, hm_vacant⟩ := h.listed g _ moved hend
  rw [hm, Option.some_inj] at hm₁
  subst hm₁
  refine ⟨?_, ?_, h.freed_nodup, ?_, List.nodup_cons.mpr ⟨?_, h.loose_nodup⟩, ?_, ?_, ?_⟩
  · intro g' i t ht
    rw [getElem?_set_of_some hm]
    by_cases hg : g' = g
    · subst hg
      rw [Function.update_self, hget] at ht
      split_ifs at ht with hi hip
      · rw [Option.some_inj] at ht
        rw [if_pos ht]
        exact ⟨m', rfl, htag.trans hm_tag, hpos.trans hip.symm, hvacant.not.mpr hm_vacant⟩
      · rw [if_neg]
        · exact h.listed g' i t ht
        · rintro rfl
          have := (h.place_unique ht hend).2
          omega
    · rw [Function.update_of_ne hg] at ht
      rw [if_neg]
      · exact h.listed g' i t ht
      · rintro rfl
        exact hg (h.place_unique ht hend).1
  · apply h.chain.congr
    intro t ht
    apply List.getElem?_set_ne
    rintro rfl
    exact h.not_listed_of_freed ht g (List.mem_of_getElem? hend)
  · intro t e' he'
    rw [getElem?_set_of_some hm] at he'
    split_ifs at he' with hmt
    · rw [Option.some_inj] at he'
      subst he' hmt
      refine .inr (.inr ?_)
      rw [htag, hm_tag, Function.update_self, hget, hpos, if_pos (by omega), if_pos rfl]
    · rcases h.placed t e' he' with ht | ht | ht
      · exact .inl (by simp [ht])
      · exact .inr (.inl ht)
      · by_cases hg : L.tag e' = g
        · rw [hg, Function.update_self, hget]
          rw [hg] at ht
          have hlt := lt_of_some ht
          by_cases hpos : L.pos e' = p
          · rw [hpos, hs, Option.some_inj] at ht
            exact .inl (by simp [ht])
          · refine .inr (.inr ?_)
            rw [if_pos, if_neg hpos, ht]
            by_contra hge
            rw [show L.pos e' = (members g).length - 1 by omega, hend, Option.some_inj] at ht
            exact hmt ht
        · rw [Function.update_of_ne hg]
          exact .inr (.inr ht)
  · exact fun hmem => h.loose_listed s hmem g (List.mem_of_getElem? hs)
  · intro t ht
    rw [List.length_set]
    rcases List.mem_cons.mp ht with rfl | ht
    · exact h.members_lt (List.mem_of_getElem? hs)
    · exact h.loose_lt t ht
  · intro t ht hf
    rcases List.mem_cons.mp ht with rfl | ht
    · exact h.not_listed_of_freed hf g (List.mem_of_getElem? hs)
    · exact h.loose_freed t ht hf
  · intro t ht g' hmem
    obtain ⟨i, hi⟩ := List.getElem?_of_mem hmem
    by_cases hg : g' = g
    · subst hg
      rw [Function.update_self, hget] at hi
      split_ifs at hi with hlt hip
      · rw [Option.some_inj] at hi
        subst hi
        rcases List.mem_cons.mp ht with rfl | ht
        · have := (h.place_unique hend hs).2
          omega
        · exact h.loose_listed moved ht g' (List.mem_of_getElem? hend)
      · rcases List.mem_cons.mp ht with rfl | ht
        · exact hip (h.place_unique hi hs).2
        · exact h.loose_listed t ht g' (List.mem_of_getElem? hi)
    · rw [Function.update_of_ne hg] at hi
      rcases List.mem_cons.mp ht with rfl | ht
      · exact hg (h.place_unique hi hs).1
      · exact h.loose_listed t ht g' (List.mem_of_getElem? hi)

end Unlink

end Placed

end Layout

end WeavePy
