import WeavePy.InstDict.Operations

/-!
The operations of a split layout, each with what it does to its instance's mapping.
-/

namespace WeavePy.InstDict

open DictMap

variable {Ω V : Type} {st st' : State Ω V} {s : SplitValues V} {id : ℕ} {t : SharedKeys} {j n i c : ℕ}
  {x : Instance Ω V} {m : OrderedMap (List UInt8) V} {name : NameRef} {v : V}

section Push

theorem push_keys (hid : s.keysId = none ∨ s.keysId = some id) (want : ℕ) :
    (s.push id want v).keys = some id := by
  cases s with
  | none => rfl
  | some b =>
    show some (b.keys.getD id) = some id
    rcases hid with hid | hid
    · rw [show b.keys = none from hid]
      rfl
    · rw [show b.keys = some id from hid]
      rfl

theorem push_values (want : ℕ) : (s.push id want v).values = s.values ++ [v] := by
  cases s <;> rfl

theorem firstPush_keys (hid : s.keysId = none) (want : ℕ) : (s.firstPush id want v).keys = some id := by
  apply push_keys
  left
  cases s with
  | none => rfl
  | some b =>
    rw [Option.filter_some]
    split_ifs
    · exact hid
    · rfl

theorem firstPush_values (hv : s.values = []) (want : ℕ) : (s.firstPush id want v).values = [v] := by
  unfold SplitValues.firstPush
  rw [push_values]
  cases s with
  | none => rfl
  | some b =>
    rw [Option.filter_some]
    split_ifs
    · rw [hv]
      rfl
    · rfl

/-- Appending takes effect only as the next position of the same names, or as the first of a block
without any. -/
theorem appendOver_ok {b' : SplitBlock V} (h : s.appendOver id t i v = .ok b') :
    i = s.len ∧ (s.keysId = none ∧ s.values = [] ∧ t.len ≠ 0 ∨ s.keysId = some id) ∧ b'.keys = some id ∧
      b'.values = s.values ++ [v] := by
  have hadopt : ∀ b', s.keysId = none → s.values = [] →
      (if i ≠ 0 ∨ t.len = 0 then (.error v : Except V (SplitBlock V)) else .ok (s.firstPush id t.len v)) = .ok b' →
      i = s.len ∧ (s.keysId = none ∧ s.values = [] ∧ t.len ≠ 0 ∨ s.keysId = some id) ∧ b'.keys = some id ∧
        b'.values = s.values ++ [v] := by
    intro b' hid hv h
    split_ifs at h with hc
    rw [Except.ok.injEq] at h
    subst h
    rw [not_or, not_not] at hc
    refine ⟨?_, .inl ⟨hid, hv, hc.2⟩, firstPush_keys hid _, ?_⟩
    · unfold SplitValues.len
      rw [hv, hc.1]
      rfl
    · rw [firstPush_values hv, hv]
      rfl
  unfold SplitValues.appendOver at h
  cases s with
  | none => exact hadopt b' rfl rfl h
  | some b =>
    dsimp only at h
    split_ifs at h with hsame hused hc
    · rw [Except.ok.injEq] at h
      subst h
      exact ⟨hsame.2.1, .inr hsame.1, hsame.1, rfl⟩
    · rw [not_or, not_not] at hused
      apply hadopt b' (Option.not_isSome_iff_eq_none.mp hused.1) (List.eq_nil_of_length_eq_zero hused.2)
      rw [if_neg hc, h]

theorem appendOver_error {v' : V} (h : s.appendOver id t i v = .error v') : v' = v := by
  unfold SplitValues.appendOver at h
  cases s <;> dsimp only at h <;> split_ifs at h <;> exact (Except.error.inj h).symm

/-- The next position appends whenever `canAppendAt` says so. -/
theorem canAppendAt_append (h : s.canAppendAt id t s.len = true) (v : V) :
    ∃ b, s.appendOver id t s.len v = .ok b := by
  unfold SplitValues.canAppendAt at h
  unfold SplitValues.appendOver
  cases s with
  | none =>
    have hlen : t.len ≠ 0 := by
      intro h0
      rw [if_pos (by rw [h0]; exact Nat.zero_le _)] at h
      exact Bool.false_ne_true h
    exact ⟨_, if_neg (by rw [not_or, not_not]; exact ⟨rfl, hlen⟩)⟩
  | some b =>
    have hb : SplitValues.len (some b) = b.values.length := rfl
    dsimp only at h ⊢
    rw [hb] at h ⊢
    split_ifs at h with hlt hid
    · have hroom := of_decide_eq_true h
      exact ⟨_, dif_pos ⟨hid, rfl, hroom.2⟩⟩
    · have hfree := of_decide_eq_true h
      have hnone : b.keys = none := Option.isNone_iff_eq_none.mp hfree.1
      rw [dif_neg (fun h' => hid h'.1), if_neg (by simp [hnone, hfree.2]), if_neg]
      · exact ⟨_, rfl⟩
      · omega

theorem fillFresh_some {vs : List V} {b' : SplitBlock V} (h : s.fillFresh id t vs = some b') :
    vs.length ≤ t.len ∧ s.values = [] ∧ b'.keys = some id ∧ b'.values = vs := by
  unfold SplitValues.fillFresh at h
  split_ifs at h with hlen
  cases s with
  | none => simp at h
  | some b =>
    dsimp only at h
    split_ifs at h with hc hid
    rw [Option.some_inj] at h
    subst h
    rw [not_or, not_not] at hc
    exact ⟨Nat.not_lt.mp hlen, List.eq_nil_of_length_eq_zero hc.1, rfl, rfl⟩

end Push

theorem getElem?_content (hid : s.keysId = some id) (ht : st.table id = some t) {k : List UInt8}
    (hk : t.texts[i]? = some k) : (content st s)[i]? = s.values[i]?.map fun v => (k, v) := by
  rw [content_eq hid ht, List.zip, List.getElem?_zipWith, hk]
  cases s.values[i]? <;> rfl

theorem not_mem_of_find_none (hid : s.keysId = none ∧ s.values = [] ∨ s.keysId = some id) (ht : st.table id = some t)
    (hlen : s.len ≤ t.len)
    (h : ((List.range s.len).find? fun i => (t.get i).any (keyNames · name)) = none) :
    name.str.bytes ∉ t.texts.take s.len ∧ name.str.bytes ∉ (content st s).keys := by
  have hnot : name.str.bytes ∉ t.texts.take s.len := by
    intro hmem
    obtain ⟨i, hi⟩ := List.getElem?_of_mem hmem
    rw [List.getElem?_take] at hi
    split_ifs at hi with hlt
    have := List.find?_eq_none.mp h i (List.mem_range.mpr hlt)
    exact this (SharedKeys.any_keyNames.mpr hi)
  refine ⟨hnot, ?_⟩
  rcases hid with ⟨_, hv⟩ | hid
  · rw [content_eq_nil hv]
    exact List.not_mem_nil
  · rw [content_keys hid ht hlen]
    exact hnot

theorem classNames_eq (hc : st.classes[c]? = some (some id)) (ht : st.table id = some t) :
    st.classNames c = t.texts := by
  unfold State.classNames
  rw [hc, Option.join_some, Option.bind_some, ht]
  rfl

theorem length_rest {b : SplitBlock V} (hi : i < x.split.len) (hv : b.values = x.split.values.eraseIdx i) :
    b.values.length + 1 = x.split.len := by
  rw [hv, List.length_eraseIdx_of_lt hi]
  unfold SplitValues.len at hi ⊢
  omega

/-- An entry under a string, by the string's text. -/
def named (b : Bucket Ω V) : Option (List UInt8 × V) :=
  match b.key with
  | .str s => some (s.bytes, b.value)
  | _ => none

theorem entries_named : (s.entries t : List (Bucket Ω V)).map named = (t.texts.zip s.values).map some := by
  unfold SplitValues.entries SharedKeys.texts
  rw [List.zip_map_left, List.map_map, List.map_map]
  rfl

variable [KeyOps Ω]

/-- The table an instance's names are looked up in, its class's when it has none yet. -/
theorem adopt (h : Laid st) (hx : st.insts[j]? = some x) (hc : c < st.classes.length) :
    ∃ st₁ id t, x.split.keysId.elim (st.share c) (fun id => .ok (st, id)) = .ok (st₁, id) ∧
      Follows st st₁ j ∧ st₁.insts = st.insts ∧ st₁.table id = some t ∧ x.split.len ≤ t.len ∧
      (x.split.keysId = none ∨ x.split.keysId = some id) ∧ content st₁ x.split = content st x.split := by
  cases hid : x.split.keysId with
  | none =>
    obtain ⟨st₁, id, t, hrun, hlaid, hgrows, hinsts, ht⟩ := h.share hc
    have hnil := backed_nil (h.backed j x hx) hid
    refine ⟨st₁, id, t, hrun, hgrows.follows hlaid hinsts, hinsts, ht, ?_, .inl rfl, ?_⟩
    · unfold SplitValues.len
      rw [hnil]
      exact Nat.zero_le _
    · rw [content_eq_nil hnil, content_eq_nil hnil]
  | some id =>
    obtain ⟨t, ht, hlen⟩ := backed_table (h.backed j x hx) hid
    exact ⟨st, id, t, rfl, .refl h, rfl, ht, hlen, .inr rfl, rfl⟩

theorem Laid.lookup (h : Laid st) (hb : Backed st s) (hid : s.keysId = some id) (ht : st.table id = some t)
    {k : List UInt8} (hk : t.texts[i]? = some k) (hi : i < s.len) : (content st s).lookup k = s.values[i]? := by
  have hv : s.values[i]? = some s.values[i] := List.getElem?_eq_getElem hi
  rw [hv]
  apply OrderedMap.lookup_of_getElem? (h.content_nodup hb)
  rw [getElem?_content hid ht hk, hv]
  rfl

theorem find_keyNames (h : Laid st) (ht : st.table id = some t) :
    ((List.range n).find? fun i => (t.get i).any (keyNames · name)) = some i ↔
      i < n ∧ t.texts[i]? = some name.str.bytes :=
  SharedKeys.find_position (h.proper id t ht).distinct fun _ => SharedKeys.any_keyNames

/-- A store gives the name the value, or fails without a trace. -/
def Stores (st st' : State Ω V) (j : ℕ) (x : Instance Ω V) (name : NameRef) (value : V) :
    Except V (Option V) → Prop
  | .ok old => old = (content st x.split).lookup name.str.bytes ∧
      Acts st st' j x ((content st x.split).store name.str.bytes value)
  | .error back => back = value ∧ Acts st st' j x (content st x.split)

theorem store_spec (h : Laid st) (hx : st.insts[j]? = some x) (hc : c < st.classes.length) (name : NameRef)
    (value : V) : ∃ st' r, st.store j c name value = .ok (st', r) ∧ Stores st st' j x name value r := by
  obtain ⟨st₁, id, t, hrun, hfollows, hinsts, ht, hlen, hid, hcontent⟩ := adopt h hx hc
  have hx₁ : st₁.insts[j]? = some x := by rw [hinsts, hx]
  have h₁ := hfollows.laid
  have hproper := h₁.proper id t ht
  have hback := h₁.backed j x hx₁
  have hid' : x.split.keysId = none ∧ x.split.values = [] ∨ x.split.keysId = some id :=
    hid.imp_left fun hid => ⟨hid, backed_nil hback hid⟩
  unfold State.store
  rw [inst_ok hx, ok_bind]
  dsimp only
  rw [hrun, ok_bind]
  dsimp only
  rw [keys_ok ht, ok_bind]
  unfold Stores
  rw [← hcontent]
  by_cases hnext : (t.get x.split.len).any (keyNames · name) = true
  · rw [if_pos hnext]
    have hk := SharedKeys.any_keyNames.mp hnext
    refine ⟨_, _, rfl, ?_, .of_follows hfollows (.append h₁ hx₁ hid ht hk (push_keys hid _) (push_values _))⟩
    rw [OrderedMap.lookup_of_not_mem]
    rcases hid' with ⟨_, hv⟩ | hid
    · rw [content_eq_nil hv]
      exact List.not_mem_nil
    · exact not_mem_content_keys hproper hid ht hlen hk
  · rw [if_neg hnext]
    cases hfind : (List.range x.split.len).find? fun i => (t.get i).any (keyNames · name) with
    | some i =>
      obtain ⟨hi, hk⟩ := (find_keyNames h₁ ht).mp hfind
      cases hb : x.split with
      | none =>
        rw [hb] at hi
        exact absurd hi (Nat.not_lt_zero i)
      | some b =>
        have hkeys : b.keys = some id := by
          rw [hb] at hid' hi
          rcases hid' with ⟨_, hv⟩ | hid
          · unfold SplitValues.len at hi
            rw [hv] at hi
            exact absurd hi (Nat.not_lt_zero i)
          · exact hid
        dsimp only
        rw [← hb]
        have hold : b.values[i]? = (content st₁ x.split).lookup name.str.bytes := by
          rw [h₁.lookup hback (by rw [hb]; exact hkeys) ht hk hi, hb]
          rfl
        refine ⟨_, _, rfl, hold, .of_follows hfollows ?_⟩
        exact .overwrite h₁ hx₁ hb hkeys ht (by rw [hb] at hi; exact hi) hk hkeys rfl
    | none =>
      obtain ⟨hnot, hnot'⟩ := not_mem_of_find_none hid' ht hlen hfind
      dsimp only
      split_ifs with hfull
      · exact ⟨_, _, rfl, rfl, .of_follows hfollows (.refl h₁ hx₁)⟩
      · rw [not_or, not_not] at hfull
        unfold SharedKeys.push
        cases hpush : t.pushKey name.str (KeyOps.pyStrHash Ω name.str.bytes) with
        | none => exact ⟨_, _, rfl, rfl, .of_follows hfollows (.refl h₁ hx₁)⟩
        | some t' =>
          have hnew : name.str.bytes ∉ t.texts := by
            rwa [List.take_of_length_le (by rw [SharedKeys.length_texts, hfull.2])] at hnot
          have hnames := (SharedKeys.pushKey_some hpush).1
          obtain ⟨h₂, hgrows⟩ := h₁.pushKey ht hpush (hproper.pushKey hnew rfl hpush)
          have ht' : (st₁.setTable id t').table id = some t' := by
            rw [table_setTable ht, if_pos rfl]
          have hk : t'.texts[x.split.len]? = some name.str.bytes := by
            unfold SharedKeys.texts
            rw [hnames, List.map_append, List.getElem?_append_right (by rw [List.length_map]; exact hfull.2.le),
              List.length_map, ← hfull.2]
            unfold SharedKeys.len
            rw [Nat.sub_self]
            rfl
          refine ⟨_, _, rfl, ?_, .of_follows hfollows ?_⟩
          · rw [OrderedMap.lookup_of_not_mem hnot']
          · have hgrown := content_of_kept hback fun id t _ ht => hgrows id t ht
            rw [← hgrown]
            apply Acts.of_follows (hgrows.follows h₂ rfl)
            exact .append h₂ hx₁ hid ht' hk (push_keys hid _) (push_values _)

section InPlace

/-- An append at a position gives the class's name there the value. -/
theorem append_spec (h : Laid st) (hx : st.insts[j]? = some x) (hi : i < (st.classNames c).length) (value : V) :
    ∃ st' r, st.append j c i value = .ok (st', r) ∧
      ((r = .error value ∧ st' = st) ∨
        r = .ok () ∧ ∃ k, (st.classNames c)[i]? = some k ∧ Acts st st' j x ((content st x.split).store k value)) := by
  have hcl : ∃ id t, st.classes[c]? = some (some id) ∧ st.table id = some t := by
    unfold State.classNames at hi
    cases hc : st.classes[c]? with
    | none => simp [hc] at hi
    | some o =>
      cases o with
      | none => simp [hc] at hi
      | some id =>
        obtain ⟨t, ht⟩ := h.adopted c id hc
        exact ⟨id, t, rfl, ht⟩
  obtain ⟨id, t, hc, ht⟩ := hcl
  rw [classNames_eq hc ht] at hi ⊢
  have hk : t.texts[i]? = some t.texts[i] := List.getElem?_eq_getElem hi
  unfold State.append
  obtain ⟨hclt, hcl⟩ := List.getElem?_eq_some_iff.mp hc
  rw [inst_ok hx, ok_bind, index_ok hclt, ok_bind, hcl]
  dsimp only
  rw [keys_ok ht, ok_bind]
  cases happ : x.split.appendOver id t i value with
  | error back =>
    rw [appendOver_error happ]
    exact ⟨_, _, rfl, .inl ⟨rfl, rfl⟩⟩
  | ok b =>
    obtain ⟨rfl, hid, hb, hv⟩ := appendOver_ok happ
    exact ⟨_, _, rfl, .inr ⟨rfl, _, hk, .append h hx (hid.imp_left And.left) ht hk hb hv⟩⟩

/-- A fill gives the class's first names the values, in an instance without any. -/
theorem fill_spec (h : Laid st) (hx : st.insts[j]? = some x) (hc : c < st.classes.length) (vs : List V) :
    ∃ st' r, st.fill j c vs = .ok (st', r) ∧ ((r = false ∧ st' = st) ∨
      r = true ∧ content st x.split = [] ∧ (st.classNames c).Nodup ∧ Acts st st' j x ((st.classNames c).zip vs)) := by
  unfold State.fill
  rw [inst_ok hx, ok_bind, index_ok hc, ok_bind]
  cases hid : st.classes[c] with
  | none => exact ⟨_, _, rfl, .inl ⟨rfl, rfl⟩⟩
  | some id =>
    have hcl : st.classes[c]? = some (some id) := by rw [List.getElem?_eq_getElem hc, hid]
    obtain ⟨t, ht⟩ := h.adopted c id hcl
    rw [classNames_eq hcl ht]
    dsimp only
    rw [keys_ok ht, ok_bind]
    cases hfill : x.split.fillFresh id t vs with
    | none => exact ⟨_, _, rfl, .inl ⟨rfl, rfl⟩⟩
    | some b =>
      obtain ⟨hlen, hv, hb, hbv⟩ := fillFresh_some hfill
      refine ⟨_, _, rfl, .inr ⟨rfl, content_eq_nil hv, (h.proper id t ht).distinct, ?_⟩⟩
      apply Acts.setSplit h hx
      · apply backed_block hb ht
        rw [hbv]
        exact hlen
      · rw [content_block hb ht, hbv]

theorem reserve_spec (h : Laid st) (hx : st.insts[j]? = some x) (hc : c < st.classes.length) (cap : ℕ) :
    ∃ st', st.reserve j c cap = .ok st' ∧ Acts st st' j x (content st x.split) := by
  unfold State.reserve
  rw [inst_ok hx, ok_bind]
  dsimp only
  split_ifs with hused
  · exact ⟨_, rfl, .refl h hx⟩
  · obtain ⟨st₁, id, t, hrun, h₁, hgrows, hinsts, ht⟩ := h.share hc
    rw [not_or, Option.not_isSome_iff_eq_none] at hused
    have hnil : x.split.values = [] := by
      rw [hused.1]
      rfl
    rw [hrun, ok_bind]
    refine ⟨_, rfl, .of_follows (hgrows.follows h₁ hinsts) (.setSplit h₁ (by rw [hinsts, hx]) ?_ ?_)⟩
    · unfold SplitValues.reserveFor
      rw [if_neg (by simp [hused.1, hused.2])]
      exact backed_block rfl ht (Nat.zero_le _)
    · unfold SplitValues.reserveFor
      rw [if_neg (by simp [hused.1, hused.2]), content_eq_nil hnil]
      exact content_eq_nil rfl

/-- A value replaced at a position takes the old one's name. -/
theorem replaceIndex_spec (h : Laid st) (hx : st.insts[j]? = some x) (i : ℕ) (value : V) :
    ∃ st' r, st.replaceIndex j i value = .ok (st', r) ∧ ((r = .error value ∧ st' = st) ∨
      ∃ k old, (content st x.split)[i]? = some (k, old) ∧ r = .ok old ∧
        Acts st st' j x ((content st x.split).store k value)) := by
  unfold State.replaceIndex
  rw [inst_ok hx, ok_bind]
  cases hb : x.split with
  | none => exact ⟨_, _, rfl, .inl ⟨rfl, rfl⟩⟩
  | some b =>
    dsimp only
    cases hkeys : b.keys with
    | none => exact ⟨_, _, rfl, .inl ⟨rfl, rfl⟩⟩
    | some id =>
      cases hold : b.values[i]? with
      | none => exact ⟨_, _, rfl, .inl ⟨rfl, rfl⟩⟩
      | some old =>
        have hback := h.backed j x hx
        have hid : x.split.keysId = some id := by
          rw [hb]
          exact hkeys
        obtain ⟨t, ht, hlen⟩ := backed_table hback hid
        dsimp only
        rw [keys_ok ht, ok_bind]
        split_ifs
        · exact ⟨_, _, rfl, .inl ⟨rfl, rfl⟩⟩
        · obtain ⟨hi, _⟩ := List.getElem?_eq_some_iff.mp hold
          have hi' : i < t.texts.length := by
            rw [SharedKeys.length_texts]
            rw [hb] at hlen
            exact Nat.lt_of_lt_of_le hi hlen
          have hk : t.texts[i]? = some t.texts[i] := List.getElem?_eq_getElem hi'
          refine ⟨_, _, rfl, .inr ⟨t.texts[i], old, ?_, rfl, ?_⟩⟩
          · rw [← hb, getElem?_content hid ht hk, hb]
            show b.values[i]?.map _ = _
            rw [hold]
            rfl
          · rw [← hb]
            exact .overwrite h hx hb hkeys ht hi hk rfl rfl

end InPlace

section Deletion

theorem positionStr_eq (h : Laid st) (ht : st.table id = some t) :
    s.positionStr t name = some i ↔ i < s.len ∧ t.texts[i]? = some name.str.bytes := by
  have hd := (h.proper id t ht).distinct
  have hfind := SharedKeys.find_position (n := s.len) (i := i) hd
    fun i => show (t.get i).any (keyNamesStr · name) = true ↔ _ from SharedKeys.any_keyNamesStr
  unfold SplitValues.positionStr
  cases hsame : (List.range s.len).find? fun i => (t.get i).any name.same with
  | none => exact hfind
  | some k =>
    have hk := List.find?_range_eq_some.mp hsame
    have hkt : t.texts[k]? = some name.str.bytes := by
      rw [SharedKeys.getElem?_texts]
      obtain ⟨key, hkey, hs⟩ := (Option.any_eq_true _ _).mp hk.1
      rw [hkey, Option.map_some, name.same_bytes key hs]
    have hkl : k < s.len := List.mem_range.mp hk.2.1
    constructor
    · rintro hki
      rw [Option.some_inj] at hki
      exact hki ▸ ⟨hkl, hkt⟩
    · rintro ⟨_, hit⟩
      obtain ⟨hk', hkt'⟩ := List.getElem?_eq_some_iff.mp hkt
      obtain ⟨hi', hit'⟩ := List.getElem?_eq_some_iff.mp hit
      rw [(List.Nodup.getElem_inj_iff hd).mp (hkt'.trans hit'.symm)]

section Rest

variable {k : List UInt8} {b : SplitBlock V}

theorem Acts.remove_last (h : Laid st) (hx : st.insts[j]? = some x) (hid : x.split.keysId = some id)
    (ht : st.table id = some t) (hlen : x.split.len ≤ t.len) (hk : t.texts[i]? = some k)
    (hi : i + 1 = x.split.len) (hb : b.keys = some id) (hv : b.values = x.split.values.eraseIdx i) :
    Acts st (st.setSplit j (some b)) j x ((content st x.split).remove k) := by
  have hrest := length_rest (by omega) hv
  have hback : Backed st (some b) := backed_block hb ht (by omega)
  refine .remove h hx hid ht hlen (by omega) hk (h.setSplit hback j) ?_ hb ht hv ?_
  · rw [getElem?_setSplit, if_pos rfl, hx]
    rfl
  · rw [← take_eraseIdx (by omega)]
    apply List.ext_getElem?
    intro m
    simp only [List.getElem?_take, List.getElem?_eraseIdx]
    split_ifs <;> first | rfl | omega

theorem Acts.remove_private (h : Laid st) (hx : st.insts[j]? = some x) (hid : x.split.keysId = some id)
    (ht : st.table id = some t) (hlen : x.split.len ≤ t.len) (hk : t.texts[i]? = some k) (hi : i < x.split.len)
    (hsole : st.strongCount id = 1) (hb : b.keys = some id) (hv : b.values = x.split.values.eraseIdx i) :
    Acts st ((st.setTable id (t.removeAt i)).setSplit j (some b)) j x ((content st x.split).remove k) := by
  have hrest := length_rest hi hv
  have hit : i < t.len := Nat.lt_of_lt_of_le hi hlen
  have hfollows := h.closeUp hx hid ht hsole hb hit (by omega)
  refine .remove h hx hid ht hlen hi hk hfollows ?_ hb ((table_setTable ht id).trans (if_pos rfl)) hv ?_
  · rw [getElem?_setSplit, if_pos rfl]
    show st.insts[j]?.map _ = _
    rw [hx]
    rfl
  · have hlt : ¬ t.names.length ≤ i := Nat.not_le.mpr hit
    have hrem : (t.removeAt i).names = t.names.eraseIdx i := by
      unfold SharedKeys.removeAt
      rw [if_neg hlt]
    unfold SharedKeys.texts
    rw [hrem, ← take_eraseIdx hi, List.eraseIdx_map]

theorem Acts.remove_shared (h : Laid st) (hx : st.insts[j]? = some x) (hid : x.split.keysId = some id)
    (ht : st.table id = some t) (hlen : x.split.len ≤ t.len) (hk : t.texts[i]? = some k) (hi : i < x.split.len)
    (h' : Laid st') (hgrows : Grows st st') (hinsts : st'.insts = st.insts) {id' : ℕ} {t' : SharedKeys}
    (ht' : st'.table id' = some t') (hpre : (t.names.take x.split.len).eraseIdx i <+: t'.names)
    (hb : b.keys = some id') (hv : b.values = x.split.values.eraseIdx i) :
    Acts st (st'.setSplit j (some b)) j x ((content st x.split).remove k) := by
  have hrest := length_rest hi hv
  have hnames : ((t.names.take x.split.len).eraseIdx i).length = x.split.len - 1 := by
    unfold SharedKeys.len at hlen
    rw [List.length_eraseIdx_of_lt (by rw [List.length_take]; omega), List.length_take]
    omega
  have hback : Backed st' (some b) := by
    apply backed_block hb ht'
    have := hpre.length_le
    unfold SharedKeys.len
    omega
  refine .remove h hx hid ht hlen hi hk ((hgrows.follows h' hinsts).trans (h'.setSplit hback j)) ?_ hb ht' hv ?_
  · rw [getElem?_setSplit, if_pos rfl, hinsts, hx]
    rfl
  · unfold SharedKeys.texts
    rw [← List.map_take, ← List.map_take, List.eraseIdx_map, ← hnames, take_grown hpre le_rfl, List.take_length]

end Rest

/-- A removal takes the name away, and answers with its value. -/
theorem removeStr_spec (h : Laid st) (hx : st.insts[j]? = some x) (name : NameRef) :
    ∃ st' r, st.removeStr j name = .ok (st', r) ∧ r = (content st x.split).lookup name.str.bytes ∧
      Acts st st' j x ((content st x.split).remove name.str.bytes) := by
  have hback := h.backed j x hx
  have habsent : name.str.bytes ∉ (content st x.split).keys →
      none = (content st x.split).lookup name.str.bytes ∧
        Acts st st j x ((content st x.split).remove name.str.bytes) := by
    intro hk
    rw [OrderedMap.lookup_of_not_mem hk, OrderedMap.remove_of_not_mem hk]
    exact ⟨rfl, .refl h hx⟩
  have hempty : x.split.keysId = none → name.str.bytes ∉ (content st x.split).keys := by
    intro hid
    rw [content_eq_nil (backed_nil hback hid)]
    exact List.not_mem_nil
  unfold State.removeStr
  rw [inst_ok hx, ok_bind]
  cases hb : x.split with
  | none =>
    rw [hb] at habsent hempty
    exact ⟨_, _, rfl, habsent (hempty rfl)⟩
  | some b =>
    dsimp only
    cases hkeys : b.keys with
    | none =>
      rw [hb] at habsent hempty
      exact ⟨_, _, rfl, habsent (hempty hkeys)⟩
    | some id =>
      have hid : x.split.keysId = some id := by
        rw [hb]
        exact hkeys
      obtain ⟨t, ht, hlen⟩ := backed_table hback hid
      dsimp only
      rw [keys_ok ht, ok_bind, ← hb]
      cases hpos : x.split.positionStr t name with
      | none =>
        refine ⟨_, _, rfl, habsent fun hmem => ?_⟩
        obtain ⟨i, hi⟩ := List.getElem?_of_mem hmem
        have := (positionStr_eq h ht).mpr ((getElem?_content_keys hid ht hlen).mp hi)
        rw [hpos] at this
        simp at this
      | some i =>
        obtain ⟨hi, hk⟩ := (positionStr_eq h ht).mp hpos
        have hval : x.split.values = b.values := by
          rw [hb]
          rfl
        have hold : b.values[i]? = (content st x.split).lookup name.str.bytes := by
          rw [h.lookup hback hid ht hk hi, hval]
        have hlenb : x.split.len = b.values.length := by
          unfold SplitValues.len
          rw [hval]
        have hv : b.values.eraseIdx i = x.split.values.eraseIdx i := by rw [hval]
        dsimp only
        split_ifs with hmid hsole
        · exact ⟨_, _, rfl, hold, .release (.remove_private h hx hid ht hlen hk hi hsole rfl hv)⟩
        · obtain ⟨st₁, id', t', hrun, h₁, hgrows, hinsts, ht', hpre⟩ := h.without ht hlen i
          rw [← hlenb, hrun, ok_bind]
          exact ⟨_, _, rfl, hold, .release
            (.remove_shared h hx hid ht hlen hk hi h₁ hgrows hinsts ht' hpre rfl hv)⟩
        · exact ⟨_, _, rfl, hold, .remove_last h hx hid ht hlen hk (by omega) rfl hv⟩

end Deletion

section Emptied

variable {b : SplitBlock V}

theorem Acts.clear (h : Laid st) (hx : st.insts[j]? = some x) (hb : b.keys = none) (hv : b.values = []) :
    Acts st (st.setSplit j (some b)).release j x [] := by
  apply Acts.release
  apply Acts.setSplit h hx
  · unfold Backed SplitValues.keysId
    rw [Option.bind_some, hb]
    exact hv
  · exact content_eq_nil hv

theorem take_spec (h : Laid st) (hx : st.insts[j]? = some x) :
    ∃ st', st.take j = .ok (st', x.split.values) ∧ Acts st st' j x [] := by
  unfold State.take
  rw [inst_ok hx, ok_bind]
  cases hb : x.split with
  | none =>
    refine ⟨_, rfl, ?_⟩
    have := Acts.refl h hx
    rwa [content_eq_nil (by rw [hb]; rfl)] at this
  | some b => exact ⟨_, rfl, .clear h hx rfl rfl⟩

theorem reset_spec (h : Laid st) (hx : st.insts[j]? = some x) : ∃ st', st.reset j = .ok st' ∧ Acts st st' j x [] := by
  unfold State.reset
  rw [inst_ok hx, ok_bind]
  cases hb : x.split with
  | none =>
    refine ⟨_, rfl, ?_⟩
    have := Acts.refl h hx
    rwa [content_eq_nil (by rw [hb]; rfl)] at this
  | some b =>
    dsimp only
    split_ifs
    · obtain ⟨st', hrun, hacts⟩ := take_spec h hx
      rw [hrun]
      exact ⟨_, rfl, hacts⟩
    · exact ⟨_, rfl, .clear h hx rfl rfl⟩

end Emptied

section Materialize

theorem entries_keysOk (hp : Proper Ω t) (hlen : s.len ≤ t.len) : KeysOk (s.entries t : List (Bucket Ω V)) := by
  have hfst : (t.names.zip s.values).map Prod.fst = t.names.take s.values.length := keys_zip hlen
  have hdistinct : t.names.Pairwise fun k l => k.1.bytes ≠ l.1.bytes := List.pairwise_map.mp hp.distinct
  have hpairs : (t.names.zip s.values).Pairwise fun e f => e.1.1.bytes ≠ f.1.1.bytes := by
    have hsub := hdistinct.sublist (List.take_sublist s.values.length _)
    rw [← hfst, List.pairwise_map] at hsub
    exact hsub
  constructor
  · intro b hb
    obtain ⟨e, he, rfl⟩ := List.mem_map.mp hb
    exact hp.hashed e.1 (List.of_mem_zip he).1
  · apply List.pairwise_map.mpr
    exact hpairs.imp fun hne => beq_false_of_ne hne

theorem Laid.modifyLazy (h : Laid st) (f : Option (Table Ω V) → Option (Table Ω V)) :
    Follows st { st with insts := st.insts.modify j fun y => { y with lazy := f y.lazy } } j := by
  refine ⟨⟨h.proper, fun k y hy => ?_, h.adopted, h.derived⟩, fun k hk => ?_,
    fun _ _ _ t _ _ _ ht => ⟨t, ht, List.prefix_refl _⟩⟩
  · dsimp only at hy
    rw [List.getElem?_modify] at hy
    split_ifs at hy with hk
    · obtain ⟨z, hz, rfl⟩ := Option.map_eq_some_iff.mp hy
      exact h.backed k z hz
    · rw [Option.map_eq_map, Option.map_id'] at hy
      exact h.backed k y hy
  · simp only [List.getElem?_modify, if_neg hk.symm, Option.map_eq_map, Option.map_id']

theorem dictOf_spec (h : Laid st) (hb : Backed st s) : ∃ d : Table Ω V, st.dictOf s = .ok d ∧ d.WellFormed ∧
    d.entries.map named = (content st s).map some := by
  unfold State.dictOf
  cases hid : s.keysId with
  | none =>
    refine ⟨Table.new, rfl, SlotsOk.new.wellFormed keysOk_nil, ?_⟩
    rw [content_eq_nil (backed_nil hb hid)]
    rfl
  | some id =>
    obtain ⟨t, ht, hlen⟩ := backed_table hb hid
    have hk : KeysOk (s.entries t : List (Bucket Ω V)) := entries_keysOk (h.proper id t ht) hlen
    dsimp only
    rw [keys_ok ht, ok_bind]
    have hens := fromUniqueHashed_ensures (s.entries t : List (Bucket Ω V))
    cases hrun : Table.fromUniqueHashed (s.entries t : List (Bucket Ω V)) with
    | ok d =>
      rw [hrun] at hens
      obtain ⟨hslots, hentries⟩ := hens
      refine ⟨d, rfl, hslots.wellFormed (by rw [hentries]; exact hk), ?_⟩
      rw [hentries, entries_named, content_eq hid ht]
    | error e =>
      rw [hrun] at hens
      have hfew : (s.entries t : List (Bucket Ω V)).length ≤ SHARED_KEYS_CAP := by
        unfold SplitValues.entries
        rw [List.length_map, List.length_zip]
        exact (Nat.min_le_left _ _).trans t.fits
      have := hens.2
      unfold SHARED_KEYS_CAP at hfew
      omega

theorem moveOut_spec (h : Laid st) (hx : st.insts[j]? = some x) (busy : Bool) : ∃ st' s, st.moveOut j busy = .ok st' ∧
    Follows st st' j ∧ st'.insts[j]? = some { x with split := s } := by
  unfold State.moveOut
  cases busy with
  | true => exact ⟨st, x.split, rfl, .refl h, hx⟩
  | false =>
    obtain ⟨st', htake, hacts⟩ := take_spec h hx
    obtain ⟨s, hs, _⟩ := hacts.own
    rw [htake]
    exact ⟨st', s, rfl, hacts.toFollows, hs⟩

/-- The dictionary has the mapping's entries, whether the values move into it or are copied. -/
theorem materialize_spec (h : Laid st) (hx : st.insts[j]? = some x) (hlazy : x.lazy = none) (busy : Bool) :
    ∃ st' d s, st.materialize j busy = .ok st' ∧ Follows st st' j ∧ st'.insts[j]? = some ⟨some d, s⟩ ∧
      d.WellFormed ∧ d.entries.map named = (content st x.split).map some := by
  obtain ⟨d, hrun, hwell, hentries⟩ := dictOf_spec h (h.backed j x hx)
  obtain ⟨st', s, hmove, hfollows, hj⟩ := moveOut_spec h hx busy
  unfold State.materialize
  rw [inst_ok hx, ok_bind, hrun, ok_bind, hmove, ok_bind]
  refine ⟨_, d, s, rfl, hfollows.trans (hfollows.laid.modifyLazy (· <|> some d)), ?_, hwell, hentries⟩
  dsimp only
  rw [List.getElem?_modify, hj, hlazy]
  simp

end Materialize

end WeavePy.InstDict
