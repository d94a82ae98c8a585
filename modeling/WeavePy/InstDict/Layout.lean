import WeavePy.InstDict.SplitValues

/-!
What the tables and the instances over them keep to: names stay distinct, a table that others use only
grows, and no instance holds more values than its table has names.
-/

namespace WeavePy.InstDict

open DictMap

variable {Ω V : Type}

/-- An instance's names with their values, in the order of its table. -/
def content (st : State Ω V) (s : SplitValues V) : OrderedMap (List UInt8) V :=
  ((s.keysId.bind st.table).elim [] SharedKeys.texts).zip s.values

/-- The table of a block has a name for each of its values. -/
def Backed (st : State Ω V) (s : SplitValues V) : Prop :=
  match s.keysId with
  | none => s.values = []
  | some id => ∃ t, st.table id = some t ∧ s.len ≤ t.len

/-- Every table is still there with its names where they were. -/
def Grows (st st' : State Ω V) : Prop :=
  ∀ id t, st.table id = some t → ∃ t', st'.table id = some t' ∧ t.names <+: t'.names

variable {st st' st'' : State Ω V} {s : SplitValues V} {id : ℕ} {t t' : SharedKeys} {j n i : ℕ}

theorem len_le_of_grown (h : t.names <+: t'.names) : t.len ≤ t'.len := h.length_le

theorem texts_grown (h : t.names <+: t'.names) : t.texts <+: t'.texts := h.map _

theorem Backed.of_kept (h : Backed st s)
    (hkept : ∀ id t, s.keysId = some id → st.table id = some t → ∃ t', st'.table id = some t' ∧ t.names <+: t'.names) :
    Backed st' s := by
  unfold Backed at h ⊢
  cases hid : s.keysId with
  | none =>
    rw [hid] at h
    exact h
  | some id =>
    rw [hid] at h
    obtain ⟨t, ht, hlen⟩ := h
    obtain ⟨t', ht', hpre⟩ := hkept id t hid ht
    exact ⟨t', ht', hlen.trans (len_le_of_grown hpre)⟩

theorem zip_of_grown {α β : Type} {l l' : List α} {m : List β} (h : l <+: l') (hlen : m.length ≤ l.length) :
    l'.zip m = l.zip m := by
  obtain ⟨r, rfl⟩ := h
  induction m generalizing l with
  | nil => simp
  | cons b m ih =>
    cases l with
    | nil => simp at hlen
    | cons a l => simp [ih (by simpa using hlen)]

theorem content_of_kept (h : Backed st s)
    (hkept : ∀ id t, s.keysId = some id → st.table id = some t → ∃ t', st'.table id = some t' ∧ t.names <+: t'.names) :
    content st' s = content st s := by
  unfold Backed at h
  unfold content
  cases hid : s.keysId with
  | none =>
    rw [hid] at h
    simp
  | some id =>
    rw [hid] at h
    obtain ⟨t, ht, hlen⟩ := h
    obtain ⟨t', ht', hpre⟩ := hkept id t hid ht
    rw [Option.bind_some, Option.bind_some, ht, ht']
    apply zip_of_grown (texts_grown hpre)
    rw [SharedKeys.length_texts]
    exact hlen

theorem take_grown {α : Type} {l l' : List α} (h : l <+: l') (hn : n ≤ l.length) : l'.take n = l.take n := by
  obtain ⟨r, rfl⟩ := h
  rw [List.take_append_of_le_length hn]

section Tables

theorem table_some_iff : st.table id = some t ↔ st.tables[id]? = some (some t) := by
  unfold State.table
  cases st.tables[id]? <;> simp

theorem keys_ok (h : st.table id = some t) : st.keys id = .ok t := by
  unfold State.keys
  rw [h]
  rfl

theorem table_lt (h : st.table id = some t) : id < st.tables.length :=
  (List.getElem?_eq_some_iff.mp (table_some_iff.mp h)).1

theorem table_setTable (h : st.table id = some t) (u : ℕ) :
    (st.setTable id t').table u = if u = id then some t' else st.table u := by
  have hlt := table_lt h
  unfold State.table State.setTable
  dsimp only
  rw [List.getElem?_set]
  split_ifs with h₁ h₂ h₂
  · rfl
  · exact absurd h₁.symm h₂
  · exact absurd h₂.symm h₁
  · rfl

theorem table_append (u : ℕ) {x : SharedKeys} (h : st'.tables = st.tables ++ [some x]) :
    st'.table u = if u = st.tables.length then some x else st.table u := by
  unfold State.table
  rw [h, List.getElem?_append]
  split_ifs with h₁ h₂ h₂
  · omega
  · rfl
  · rw [h₂, Nat.sub_self]
    rfl
  · rw [List.getElem?_eq_none (by simp; omega), List.getElem?_eq_none (by omega)]

theorem grows_append {x : SharedKeys} (h : st'.tables = st.tables ++ [some x]) : Grows st st' := by
  intro id t ht
  refine ⟨t, ?_, List.prefix_refl _⟩
  rw [table_append id h, if_neg, ht]
  have := table_lt ht
  omega

/-- A table with a new name at its end, or a new table in its list. -/
theorem grows_setTable (h : st.table id = some t) (hpre : t.names <+: t'.names) : Grows st (st.setTable id t') := by
  intro u x hx
  rw [table_setTable h]
  split_ifs with hu
  · subst hu
    rw [h, Option.some_inj] at hx
    subst hx
    exact ⟨t', rfl, hpre⟩
  · exact ⟨x, hx, List.prefix_refl _⟩

end Tables

theorem inst_ok {x : Instance Ω V} (h : st.insts[j]? = some x) : st.inst j = .ok x := by
  unfold State.inst index
  rw [h]
  rfl

theorem getElem?_setSplit (k : ℕ) : (st.setSplit j s).insts[k]? =
    if j = k then st.insts[k]?.map fun x => { x with split := s } else st.insts[k]? :=
  (List.getElem?_modify _ _ _ _).trans (by split_ifs <;> simp)

section Owners

/-- An instance, a class or a table that refers to `id`. -/
theorem strongCount_pos {k : ℕ} {x : Instance Ω V} (hx : st.insts[k]? = some x) (hid : x.split.keysId = some id) :
    0 < st.insts.countP (fun x => x.split.keysId == some id) :=
  List.countP_pos_iff.mpr ⟨x, List.mem_of_getElem? hx, by simp [hid]⟩

theorem derived_count_pos {u : ℕ} {d : ℕ × ℕ × ℕ} (hu : st.table u = some t) (hd : d ∈ t.derived)
    (hid : d.2.2 = id) :
    0 < (st.tables.map fun t => t.elim 0 fun t => t.derived.countP fun d => d.2.2 == id).sum := by
  apply Nat.lt_of_lt_of_le _ (List.le_sum_of_mem (List.mem_map.mpr
    ⟨some t, List.mem_of_getElem? (table_some_iff.mp hu), rfl⟩))
  exact List.countP_pos_iff.mpr ⟨d, hd, by simp [hid]⟩

theorem not_adopted_of_count {c : ℕ} (h : st.classes.count (some id) = 0) : st.classes[c]? ≠ some (some id) :=
  fun hc => List.count_eq_zero.mp h (List.mem_of_getElem? hc)

theorem two_le_countP {α : Type} {p : α → Bool} {l : List α} {i j : ℕ} {x y : α} (hij : i < j)
    (hx : l[i]? = some x) (hy : l[j]? = some y) (px : p x = true) (py : p y = true) : 2 ≤ l.countP p := by
  rw [← List.take_append_drop j l, List.countP_append]
  have hleft : 0 < (l.take j).countP p :=
    List.countP_pos_iff.mpr ⟨x, List.mem_of_getElem? (by rw [List.getElem?_take, if_pos hij, hx]), px⟩
  have hright : 0 < (l.drop j).countP p :=
    List.countP_pos_iff.mpr ⟨y, List.mem_of_getElem? (i := 0) (by rw [List.getElem?_drop, Nat.add_zero, hy]), py⟩
  omega

/-- The instance that holds a table's only reference is the only one to use it. -/
theorem other_of_sole {k : ℕ} {x y : Instance Ω V} (h : st.strongCount id = 1) (hx : st.insts[j]? = some x)
    (hid : x.split.keysId = some id) (hk : k ≠ j) (hy : st.insts[k]? = some y) : y.split.keysId ≠ some id := by
  intro hyid
  have htwo : 2 ≤ st.insts.countP (fun x => x.split.keysId == some id) := by
    rcases Nat.lt_or_gt_of_ne hk with hlt | hlt
    · exact two_le_countP hlt hy hx (by simp [hyid]) (by simp [hid])
    · exact two_le_countP hlt hx hy (by simp [hid]) (by simp [hyid])
  unfold State.strongCount at h
  omega

end Owners

variable [KeyOps Ω]

structure Laid (st : State Ω V) : Prop where
  proper : ∀ id t, st.table id = some t → Proper Ω t
  backed : ∀ (j : ℕ) x, st.insts[j]? = some x → Backed st x.split
  adopted : ∀ (c : ℕ) id, st.classes[c]? = some (some id) → ∃ t, st.table id = some t
  derived : ∀ id t, st.table id = some t → ∀ d ∈ t.derived, d.1 ≤ t.len ∧
    ∃ t', st.table d.2.2 = some t' ∧ (t.names.take d.1).eraseIdx d.2.1 <+: t'.names

/-- What an operation on instance `j` leaves alone: the other instances, and the names in their tables. -/
structure Follows (st st' : State Ω V) (j : ℕ) : Prop where
  laid : Laid st'
  others : ∀ k, k ≠ j → st'.insts[k]? = st.insts[k]?
  kept : ∀ (k : ℕ) x id t, k ≠ j → st.insts[k]? = some x → x.split.keysId = some id → st.table id = some t →
    ∃ t', st'.table id = some t' ∧ t.names <+: t'.names

theorem Follows.trans (h : Follows st st' j) (h' : Follows st' st'' j) : Follows st st'' j where
  laid := h'.laid
  others k hk := (h'.others k hk).trans (h.others k hk)
  kept k x id t hk hx hid ht := by
    obtain ⟨t₁, ht₁, hpre⟩ := h.kept k x id t hk hx hid ht
    obtain ⟨t₂, ht₂, hpre'⟩ := h'.kept k x id t₁ hk ((h.others k hk).trans hx) hid ht₁
    exact ⟨t₂, ht₂, hpre.trans hpre'⟩

theorem Follows.refl (h : Laid st) : Follows st st j :=
  ⟨h, fun _ _ => rfl, fun _ _ _ t _ _ _ ht => ⟨t, ht, List.prefix_refl _⟩⟩

theorem Grows.follows (h : Grows st st') (hlaid : Laid st') (hinsts : st'.insts = st.insts) : Follows st st' j :=
  ⟨hlaid, fun k _ => by rw [hinsts], fun _ _ id t _ _ _ ht => h id t ht⟩

/-- Growing tables keep what was derived from them right. -/
theorem Laid.grow (h : Laid st) (hgrows : Grows st st') (hinsts : st'.insts = st.insts)
    (hproper : ∀ id t, st'.table id = some t → Proper Ω t)
    (hadopted : ∀ (c : ℕ) id, st'.classes[c]? = some (some id) → ∃ t, st'.table id = some t)
    (hderived : ∀ id t, st'.table id = some t → ∀ d ∈ t.derived, (∃ t₀, st.table id = some t₀ ∧ d ∈ t₀.derived) ∨
      (d.1 ≤ t.len ∧ ∃ t', st'.table d.2.2 = some t' ∧ (t.names.take d.1).eraseIdx d.2.1 <+: t'.names)) :
    Laid st' where
  proper := hproper
  backed j x hx := by
    rw [hinsts] at hx
    exact (h.backed j x hx).of_kept fun id t _ ht => hgrows id t ht
  adopted := hadopted
  derived id t ht d hd := by
    rcases hderived id t ht d hd with ⟨t₀, ht₀, hd₀⟩ | hnew
    · obtain ⟨hle, t', ht', hpre⟩ := h.derived id t₀ ht₀ d hd₀
      obtain ⟨t₁, ht₁, hgrow⟩ := hgrows id t₀ ht₀
      rw [ht, Option.some_inj] at ht₁
      subst ht₁
      obtain ⟨t₂, ht₂, hgrow'⟩ := hgrows d.2.2 t' ht'
      refine ⟨hle.trans (len_le_of_grown hgrow), t₂, ht₂, ?_⟩
      rw [take_grown hgrow hle]
      exact hpre.trans hgrow'
    · exact hnew

theorem Laid.setSplit (h : Laid st) (hb : Backed st s) (j : ℕ) : Follows st (st.setSplit j s) j where
  laid := by
    refine ⟨h.proper, fun k x hx => ?_, h.adopted, h.derived⟩
    rw [getElem?_setSplit] at hx
    split_ifs at hx with hk
    · obtain ⟨y, _, rfl⟩ := Option.map_eq_some_iff.mp hx
      exact hb
    · exact h.backed k x hx
  others k hk := by rw [getElem?_setSplit, if_neg hk.symm]
  kept _ _ _ t _ _ _ ht := ⟨t, ht, List.prefix_refl _⟩

theorem Laid.share (h : Laid st) {c : ℕ} (hc : c < st.classes.length) :
    ∃ st' id t, st.share c = .ok (st', id) ∧ Laid st' ∧ Grows st st' ∧ st'.insts = st.insts ∧
      st'.table id = some t := by
  unfold State.share
  rw [index_ok hc, ok_bind]
  cases hid : st.classes[c] with
  | some id =>
    obtain ⟨t, ht⟩ := h.adopted c id (by rw [List.getElem?_eq_getElem hc, hid])
    exact ⟨st, id, t, rfl, h, fun _ t ht => ⟨t, ht, List.prefix_refl _⟩, rfl, ht⟩
  | none =>
    refine ⟨_, _, .new, rfl, ?_, grows_append rfl, rfl, by rw [table_append _ rfl, if_pos rfl]⟩
    refine h.grow (grows_append (x := .new) rfl) rfl ?_ ?_ ?_
    · intro id t ht
      rw [table_append id rfl] at ht
      split_ifs at ht
      · rw [Option.some_inj] at ht
        exact ht ▸ SharedKeys.proper_new
      · exact h.proper id t ht
    · intro c' id hc'
      dsimp only at hc'
      rw [List.getElem?_set] at hc'
      rw [table_append id rfl]
      by_cases hnew : id = st.tables.length
      · rw [if_pos hnew]
        exact ⟨_, rfl⟩
      · rw [if_neg hnew]
        split_ifs at hc'
        · rw [Option.some_inj, Option.some_inj] at hc'
          exact absurd hc'.symm hnew
        · exact h.adopted c' id hc'
    · intro id t ht d hd
      rw [table_append id rfl] at ht
      split_ifs at ht
      · rw [Option.some_inj] at ht
        subst ht
        simp [SharedKeys.new] at hd
      · exact .inl ⟨t, ht, hd⟩

theorem Laid.pushKey (h : Laid st) (ht : st.table id = some t) {key : DictMap.SharedStr} {hash : Int64}
    (hp : t.pushKey key hash = some t') (hproper : Proper Ω t') :
    Laid (st.setTable id t') ∧ Grows st (st.setTable id t') := by
  obtain ⟨hnames, _, hder⟩ := SharedKeys.pushKey_some hp
  have hgrows : Grows st (st.setTable id t') := grows_setTable ht (by rw [hnames]; exact List.prefix_append _ _)
  refine ⟨h.grow hgrows rfl ?_ ?_ ?_, hgrows⟩
  · intro u x hx
    rw [table_setTable ht] at hx
    split_ifs at hx
    · rw [Option.some_inj] at hx
      exact hx ▸ hproper
    · exact h.proper u x hx
  · intro c u hc
    obtain ⟨x, hx⟩ := h.adopted c u hc
    obtain ⟨x', hx', _⟩ := hgrows u x hx
    exact ⟨x', hx'⟩
  · intro u x hx d hd
    rw [table_setTable ht] at hx
    split_ifs at hx with hu
    · rw [Option.some_inj] at hx
      subst hx hu
      exact .inl ⟨t, ht, hder ▸ hd⟩
    · exact .inl ⟨x, hx, hd⟩

theorem Laid.without (h : Laid st) (ht : st.table id = some t) (hn : n ≤ t.len) (i : ℕ) :
    ∃ st' id' t', st.without id n i = .ok (st', id') ∧ Laid st' ∧ Grows st st' ∧ st'.insts = st.insts ∧
      st'.table id' = some t' ∧ (t.names.take n).eraseIdx i <+: t'.names := by
  unfold State.without
  rw [keys_ok ht, ok_bind]
  cases hfind : t.derived.find? fun d => d.1 == n && d.2.1 == i with
  | some d =>
    have hd := List.find?_some hfind
    simp only [Bool.and_eq_true, beq_iff_eq] at hd
    obtain ⟨_, t', ht', hpre⟩ := h.derived id t ht d (List.mem_of_find?_eq_some hfind)
    rw [hd.1, hd.2] at hpre
    exact ⟨st, d.2.2, t', rfl, h, fun _ t ht => ⟨t, ht, List.prefix_refl _⟩, rfl, ht', hpre⟩
  | none =>
    obtain ⟨f, hf, hnames, hder, _⟩ := SharedKeys.fresh_ok (i := i) hn
    have hfresh := (h.proper id t ht).fresh hn hf
    dsimp only
    rw [hf, ok_bind]
    have hne : id ≠ st.tables.length := by
      have := table_lt ht
      omega
    set st₁ : State Ω V := { st with tables := st.tables ++ [some f] } with hst₁
    have hgrows₁ : Grows st st₁ := grows_append rfl
    have htable₁ : ∀ u, st₁.table u = if u = st.tables.length then some f else st.table u :=
      fun u => table_append u rfl
    have ht₁ : st₁.table id = some t := by rw [htable₁, if_neg hne, ht]
    have hlaid₁ : Laid st₁ := by
      apply h.grow hgrows₁ rfl
      · intro u x hx
        rw [htable₁] at hx
        split_ifs at hx
        · rw [Option.some_inj] at hx
          exact hx ▸ hfresh
        · exact h.proper u x hx
      · intro c u hc
        obtain ⟨x, hx⟩ := h.adopted c u hc
        obtain ⟨x', hx', _⟩ := hgrows₁ u x hx
        exact ⟨x', hx'⟩
      · intro u x hx d hd
        rw [htable₁] at hx
        split_ifs at hx
        · rw [Option.some_inj] at hx
          subst hx
          simp [hder] at hd
        · exact .inl ⟨x, hx, hd⟩
    split_ifs with hcap
    · have hgrows₂ : Grows st₁ (st₁.setTable id { t with derived := t.derived ++ [(n, i, st.tables.length)] }) :=
        grows_setTable ht₁ (List.prefix_refl _)
      have htable₂ : ∀ u, (st₁.setTable id { t with derived := t.derived ++ [(n, i, st.tables.length)] }).table u =
          if u = id then some { t with derived := t.derived ++ [(n, i, st.tables.length)] } else st₁.table u :=
        table_setTable ht₁
      have hnew : (st₁.setTable id { t with derived := t.derived ++ [(n, i, st.tables.length)] }).table
          st.tables.length = some f := by
        rw [htable₂, if_neg hne.symm, htable₁, if_pos rfl]
      refine ⟨_, _, f, rfl, ?_, fun u x hx => ?_, rfl, hnew, by rw [hnames]⟩
      · apply hlaid₁.grow hgrows₂ rfl
        · intro u x hx
          rw [htable₂] at hx
          split_ifs at hx
          · rw [Option.some_inj] at hx
            subst hx
            have hp := h.proper id t ht
            exact ⟨hp.distinct, hp.hashed, hp.filtered⟩
          · exact hlaid₁.proper u x hx
        · intro c u hc
          obtain ⟨x, hx⟩ := hlaid₁.adopted c u hc
          obtain ⟨x', hx', _⟩ := hgrows₂ u x hx
          exact ⟨x', hx'⟩
        · intro u x hx d hd
          rw [htable₂] at hx
          split_ifs at hx with hu
          · rw [Option.some_inj] at hx
            subst hx hu
            dsimp only at hd
            rw [List.mem_append, List.mem_singleton] at hd
            rcases hd with hd | rfl
            · exact .inl ⟨t, ht₁, hd⟩
            · exact .inr ⟨hn, f, hnew, by rw [hnames]⟩
          · exact .inl ⟨x, hx, hd⟩
      · obtain ⟨x₁, hx₁, hpre₁⟩ := hgrows₁ u x hx
        obtain ⟨x₂, hx₂, hpre₂⟩ := hgrows₂ u x₁ hx₁
        exact ⟨x₂, hx₂, hpre₁.trans hpre₂⟩
    · exact ⟨st₁, _, f, rfl, hlaid₁, hgrows₁, rfl, by rw [htable₁, if_pos rfl], by rw [hnames]⟩

theorem Laid.closeUp (h : Laid st) {b : SplitBlock V} {x : Instance Ω V} (hx : st.insts[j]? = some x)
    (hid : x.split.keysId = some id) (ht : st.table id = some t) (hsole : st.strongCount id = 1)
    (hb : b.keys = some id) (hi : i < t.len) (hlen : b.values.length + 1 ≤ t.len) :
    Follows st ((st.setTable id (t.removeAt i)).setSplit j (some b)) j := by
  have hpos := strongCount_pos hx hid
  have hcount := hsole
  unfold State.strongCount at hcount
  have hother : ∀ k y, k ≠ j → st.insts[k]? = some y → y.split.keysId ≠ some id :=
    fun k y hk hy => other_of_sole hsole hx hid hk hy
  have htable : ∀ u, (st.setTable id (t.removeAt i)).table u = if u = id then some (t.removeAt i) else st.table u :=
    table_setTable ht
  have hrem : t.removeAt i = ⟨t.names.eraseIdx i, SharedKeys.filterOf (t.names.eraseIdx i), [],
      Nat.le_trans (List.length_eraseIdx_le t.names i) t.fits⟩ := if_neg (Nat.not_le.mpr hi)
  have hkeep : ∀ u x, u ≠ id → st.table u = some x → (st.setTable id (t.removeAt i)).table u = some x := by
    intro u x hu hx
    rw [htable, if_neg hu, hx]
  refine ⟨⟨?_, ?_, ?_, ?_⟩, ?_, ?_⟩
  · intro u y hy
    change (st.setTable id (t.removeAt i)).table u = some y at hy
    rw [htable] at hy
    split_ifs at hy
    · rw [Option.some_inj] at hy
      exact hy ▸ (h.proper id t ht).removeAt
    · exact h.proper u y hy
  · intro k y hy
    rw [getElem?_setSplit] at hy
    split_ifs at hy with hk
    · obtain ⟨z, _, rfl⟩ := Option.map_eq_some_iff.mp hy
      unfold Backed SplitValues.keysId
      dsimp only [Option.bind_some]
      rw [hb]
      refine ⟨_, (htable id).trans (if_pos rfl), ?_⟩
      rw [hrem]
      unfold SharedKeys.len at hi hlen ⊢
      dsimp only [SplitValues.len, SplitValues.values, Option.elim_some]
      rw [List.length_eraseIdx_of_lt hi]
      omega
    · have hy' : st.insts[k]? = some y := hy
      refine (h.backed k y hy').of_kept fun u z hu hz => ⟨z, ?_, List.prefix_refl _⟩
      apply hkeep u z _ hz
      rintro rfl
      exact hother k y (Ne.symm hk) hy' hu
  · intro c u hc
    obtain ⟨y, hy⟩ := h.adopted c u hc
    refine ⟨y, hkeep u y ?_ hy⟩
    rintro rfl
    have hc' : st.classes[c]? = some (some u) := hc
    exact not_adopted_of_count (by omega) hc'
  · intro u y hy d hd
    change (st.setTable id (t.removeAt i)).table u = some y at hy
    rw [htable] at hy
    split_ifs at hy with hu
    · rw [Option.some_inj] at hy
      subst hy
      rw [hrem] at hd
      simp at hd
    · obtain ⟨hle, z, hz, hpre⟩ := h.derived u y hy d hd
      refine ⟨hle, z, hkeep _ z ?_ hz, hpre⟩
      intro hd'
      have := derived_count_pos hy hd hd'
      omega
  · intro k hk
    rw [getElem?_setSplit, if_neg hk.symm]
    rfl
  · intro k y u z hk hy hyu hz
    refine ⟨z, hkeep u z ?_ hz, List.prefix_refl _⟩
    rintro rfl
    exact hother k y hk hy hyu

/-- What a pass over the tables may drop: nothing that an instance, a class or a table it keeps refers to. -/
structure Released (st st' : State Ω V) : Prop where
  laid : Laid st'
  insts : st'.insts = st.insts
  classes : st'.classes = st.classes
  used : ∀ (k : ℕ) x id t, st.insts[k]? = some x → x.split.keysId = some id → st.table id = some t →
    st'.table id = some t

theorem Laid.dropTable (h : Laid st) (id : ℕ) : Released st (st.dropTable id) := by
  unfold State.dropTable
  split_ifs with hzero
  · have hcount := hzero
    unfold State.strongCount at hcount
    have hkeep : ∀ u y, u ≠ id → st.table u = some y →
        ({ st with tables := st.tables.set id none } : State Ω V).table u = some y := by
      intro u y hu hy
      unfold State.table at hy ⊢
      dsimp only
      rw [List.getElem?_set_ne hu.symm, hy]
    have hsub : ∀ u y, ({ st with tables := st.tables.set id none } : State Ω V).table u = some y →
        st.table u = some y := by
      intro u y hy
      rw [table_some_iff] at hy ⊢
      dsimp only at hy
      rw [List.getElem?_set] at hy
      split_ifs at hy
      · simp at hy
      · exact hy
    have hused : ∀ (k : ℕ) x u, st.insts[k]? = some x → x.split.keysId = some u → u ≠ id := by
      rintro k x u hx hu rfl
      have := strongCount_pos hx hu
      omega
    refine ⟨⟨fun u y hy => h.proper u y (hsub u y hy), fun k x hx => ?_, fun c u hc => ?_, fun u y hy d hd => ?_⟩,
      rfl, rfl, fun k x u y hx hu hy => hkeep u y (hused k x u hx hu) hy⟩
    · have hx' : st.insts[k]? = some x := hx
      exact (h.backed k x hx').of_kept fun u z hu hz =>
        ⟨z, hkeep u z (hused k x u hx' hu) hz, List.prefix_refl _⟩
    · have hc' : st.classes[c]? = some (some u) := hc
      obtain ⟨y, hy⟩ := h.adopted c u hc'
      refine ⟨y, hkeep u y ?_ hy⟩
      rintro rfl
      exact not_adopted_of_count (by omega) hc'
    · obtain ⟨hle, z, hz, hpre⟩ := h.derived u y (hsub u y hy) d hd
      refine ⟨hle, z, hkeep _ z ?_ hz, hpre⟩
      intro hd'
      have := derived_count_pos (hsub u y hy) hd hd'
      omega
  · exact ⟨h, rfl, rfl, fun _ _ _ _ _ _ ht => ht⟩

theorem Laid.release (h : Laid st) : Released st st.release := by
  unfold State.release
  generalize List.range st.tables.length = ids
  induction ids generalizing st with
  | nil => exact ⟨h, rfl, rfl, fun _ _ _ _ _ _ ht => ht⟩
  | cons id ids ih =>
    have hdrop := h.dropTable id
    have hrest := ih hdrop.laid
    refine ⟨hrest.laid, hrest.insts.trans hdrop.insts, hrest.classes.trans hdrop.classes, fun k x u t hx hu ht => ?_⟩
    exact hrest.used k x u t (by rw [hdrop.insts, hx]) hu (hdrop.used k x u t hx hu ht)

theorem Released.follows (h : Released st st') : Follows st st' j :=
  ⟨h.laid, fun k _ => by rw [h.insts], fun k x id t _ hx hid ht =>
    ⟨t, h.used k x id t hx hid ht, List.prefix_refl _⟩⟩

end WeavePy.InstDict
