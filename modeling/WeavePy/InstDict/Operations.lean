import WeavePy.InstDict.Layout

/-!
Each operation on one instance does to its mapping what it would do to an insertion-ordered map, and
what it reads of the mapping is what such a map would answer.
-/

namespace WeavePy.InstDict

open DictMap

variable {Ω V : Type} {st st' : State Ω V} {s : SplitValues V} {id : ℕ} {t : SharedKeys} {j n i : ℕ}
  {x : Instance Ω V} {m : OrderedMap (List UInt8) V} {name : NameRef} {v : V}

section Zip

variable {α β : Type} {l : List α} {m : List β}

theorem keys_zip (h : m.length ≤ l.length) : OrderedMap.keys (l.zip m) = l.take m.length := by
  have hlen : (l.take m.length).length = m.length := by
    rw [List.length_take]
    exact Nat.min_eq_left h
  unfold OrderedMap.keys
  rw [zip_of_grown ( List.take_prefix m.length l) hlen.ge, List.map_fst_zip hlen.le]

theorem zip_concat {a : α} {b : β} (h : l[m.length]? = some a) : l.zip (m ++ [b]) = l.zip m ++ [(a, b)] := by
  induction m generalizing l with
  | nil =>
    cases l with
    | nil => simp at h
    | cons c l => simpa using h
  | cons d m ih =>
    cases l with
    | nil => simp at h
    | cons c l => simp [ih (by simpa using h)]

theorem zip_set {b : β} : l.zip (m.set i b) = (match l[i]? with
    | some a => (l.zip m).set i (a, b)
    | none => l.zip m) := by
  induction m generalizing l i with
  | nil => cases l[i]? <;> simp
  | cons d m ih =>
    cases l with
    | nil => simp
    | cons c l =>
      cases i with
      | zero => simp
      | succ i =>
        simp only [List.set_cons_succ, List.zip_cons_cons, List.getElem?_cons_succ, ih]
        cases l[i]? <;> rfl

theorem zip_eraseIdx (h : l.length = m.length) : (l.eraseIdx i).zip (m.eraseIdx i) = (l.zip m).eraseIdx i := by
  induction m generalizing l i with
  | nil => simp
  | cons d m ih =>
    cases l with
    | nil => simp at h
    | cons c l =>
      cases i with
      | zero => simp
      | succ i => simp [ih (by simpa using h)]

theorem take_eraseIdx (h : i < n) : (l.eraseIdx i).take (n - 1) = (l.take n).eraseIdx i := by
  apply List.ext_getElem?
  intro k
  simp only [List.getElem?_take, List.getElem?_eraseIdx]
  split_ifs <;> first | rfl | omega

end Zip

section Content

theorem content_eq (hid : s.keysId = some id) (ht : st.table id = some t) :
    content st s = t.texts.zip s.values := by
  unfold content
  rw [hid, Option.bind_some, ht]
  rfl

theorem content_eq_nil (h : s.values = []) : content st s = [] := by
  unfold content
  rw [h, List.zip_nil_right]

theorem backed_table (h : Backed st s) (hid : s.keysId = some id) : ∃ t, st.table id = some t ∧ s.len ≤ t.len := by
  unfold Backed at h
  rw [hid] at h
  exact h

theorem backed_nil (h : Backed st s) (hid : s.keysId = none) : s.values = [] := by
  unfold Backed at h
  rw [hid] at h
  exact h

theorem content_keys (hid : s.keysId = some id) (ht : st.table id = some t) (hlen : s.len ≤ t.len) :
    (content st s).keys = t.texts.take s.len := by
  rw [content_eq hid ht, keys_zip]
  · rfl
  · rw [SharedKeys.length_texts]
    exact hlen

theorem getElem?_content_keys (hid : s.keysId = some id) (ht : st.table id = some t) (hlen : s.len ≤ t.len)
    {k : List UInt8} : (content st s).keys[i]? = some k ↔ i < s.len ∧ t.texts[i]? = some k := by
  rw [content_keys hid ht hlen, List.getElem?_take]
  split_ifs with hi
  · exact ⟨fun h => ⟨hi, h⟩, fun h => h.2⟩
  · exact ⟨fun h => by simp at h, fun h => absurd h.1 hi⟩

theorem length_content (hb : Backed st s) : (content st s).length = s.len := by
  cases hid : s.keysId with
  | none =>
    unfold SplitValues.len
    rw [content_eq_nil (backed_nil hb hid), backed_nil hb hid]
    rfl
  | some id =>
    obtain ⟨t, ht, hlen⟩ := backed_table hb hid
    rw [content_eq hid ht, List.length_zip, SharedKeys.length_texts]
    exact Nat.min_eq_right hlen

theorem content_values (hb : Backed st s) : (content st s).map Prod.snd = s.values := by
  cases hid : s.keysId with
  | none =>
    rw [content_eq_nil (backed_nil hb hid), backed_nil hb hid]
    rfl
  | some id =>
    obtain ⟨t, ht, hlen⟩ := backed_table hb hid
    rw [content_eq hid ht, List.map_snd_zip]
    rw [SharedKeys.length_texts]
    exact hlen

theorem backed_block {b : SplitBlock V} (hb : b.keys = some id) (ht : st.table id = some t)
    (hlen : b.values.length ≤ t.len) : Backed st (some b) := by
  unfold Backed SplitValues.keysId
  rw [Option.bind_some, hb]
  exact ⟨t, ht, hlen⟩

theorem content_block {b : SplitBlock V} (hb : b.keys = some id) (ht : st.table id = some t) :
    content st (some b) = t.texts.zip b.values := content_eq hb ht

end Content

variable [KeyOps Ω]

theorem Laid.content_nodup (h : Laid st) (hb : Backed st s) : (content st s).keys.Nodup := by
  cases hid : s.keysId with
  | none =>
    rw [content_eq_nil (backed_nil hb hid)]
    exact List.nodup_nil
  | some id =>
    obtain ⟨t, ht, hlen⟩ := backed_table hb hid
    rw [content_keys hid ht hlen]
    exact (h.proper id t ht).distinct.sublist (List.take_sublist _ _)

theorem not_mem_content_keys (hp : Proper Ω t) (hid : s.keysId = some id) (ht : st.table id = some t)
    (hlen : s.len ≤ t.len) {k : List UInt8} (hk : t.texts[s.len]? = some k) : k ∉ (content st s).keys := by
  intro hmem
  obtain ⟨i, hi⟩ := List.getElem?_of_mem hmem
  obtain ⟨hlt, hi'⟩ := (getElem?_content_keys hid ht hlen).mp hi
  obtain ⟨h₁, h₁'⟩ := List.getElem?_eq_some_iff.mp hi'
  obtain ⟨h₂, h₂'⟩ := List.getElem?_eq_some_iff.mp hk
  have := (List.Nodup.getElem_inj_iff hp.distinct).mp (h₁'.trans h₂'.symm)
  omega

/-- An operation on instance `j` that leaves it with the mapping `m`. -/
structure Acts (st st' : State Ω V) (j : ℕ) (x : Instance Ω V) (m : OrderedMap (List UInt8) V) : Prop
    extends Follows st st' j where
  own : ∃ s, st'.insts[j]? = some { x with split := s } ∧ content st' s = m

theorem Acts.of_follows (h : Follows st st' j) {st'' : State Ω V} (h' : Acts st' st'' j x m) : Acts st st'' j x m :=
  ⟨h.trans h'.toFollows, h'.own⟩

theorem Acts.refl (h : Laid st) (hx : st.insts[j]? = some x) : Acts st st j x (content st x.split) :=
  ⟨.refl h, x.split, hx, rfl⟩

/-- Tables that only grew. -/
theorem Acts.grow (hlaid : Laid st') (hgrows : Grows st st') (hinsts : st'.insts = st.insts) (h : Laid st)
    (hx : st.insts[j]? = some x) : Acts st st' j x (content st x.split) :=
  ⟨hgrows.follows hlaid hinsts, x.split, by rw [hinsts, hx],
    content_of_kept (h.backed j x hx) fun id t _ ht => hgrows id t ht⟩

theorem Acts.release (h : Acts st st' j x m) : Acts st st'.release j x m := by
  have hrel := h.laid.release
  obtain ⟨s, hs, hm⟩ := h.own
  refine ⟨h.toFollows.trans hrel.follows, s, by rw [hrel.insts, hs], ?_⟩
  rw [← hm]
  exact content_of_kept (h.laid.backed j _ hs) fun id t hid ht =>
    ⟨t, hrel.used j _ id t hs hid ht, List.prefix_refl _⟩

theorem Acts.setSplit (h : Laid st) (hx : st.insts[j]? = some x) (hb : Backed st s) (hm : content st s = m) :
    Acts st (st.setSplit j s) j x m :=
  ⟨h.setSplit hb j, s, by rw [getElem?_setSplit, if_pos rfl, hx]; rfl, hm⟩

/-- A value after the others, under the next name. -/
theorem Acts.append (h : Laid st) (hx : st.insts[j]? = some x) (hid : x.split.keysId = none ∨ x.split.keysId = some id)
    (ht : st.table id = some t) {k : List UInt8} (hk : t.texts[x.split.len]? = some k) {b : SplitBlock V}
    (hb : b.keys = some id) (hv : b.values = x.split.values ++ [v]) :
    Acts st (st.setSplit j (some b)) j x ((content st x.split).store k v) := by
  have hlt : x.split.len < t.len := by
    rw [← SharedKeys.length_texts]
    exact (List.getElem?_eq_some_iff.mp hk).1
  apply Acts.setSplit h hx
  · apply backed_block hb ht
    rw [hv, List.length_append, List.length_singleton]
    exact hlt
  · rw [content_block hb ht, hv, zip_concat hk]
    rcases hid with hid | hid
    · have hnil := backed_nil (h.backed j x hx) hid
      rw [content_eq_nil hnil, hnil]
      simp [OrderedMap.store, OrderedMap.keys]
    · rw [OrderedMap.store_of_not_mem (not_mem_content_keys (h.proper id t ht) hid ht hlt.le hk), content_eq hid ht]

theorem Acts.overwrite (h : Laid st) (hx : st.insts[j]? = some x) {b b' : SplitBlock V} (hsplit : x.split = some b)
    (hb : b.keys = some id) (ht : st.table id = some t) {k : List UInt8} (hi : i < b.values.length)
    (hk : t.texts[i]? = some k) (hb' : b'.keys = some id) (hv : b'.values = b.values.set i v) :
    Acts st (st.setSplit j (some b')) j x ((content st x.split).store k v) := by
  have hbacked := h.backed j x hx
  have hid : x.split.keysId = some id := by
    rw [hsplit]
    exact hb
  have hlen : x.split.len ≤ t.len := by
    obtain ⟨t', ht', hle⟩ := backed_table hbacked hid
    rw [ht, Option.some_inj] at ht'
    exact ht' ▸ hle
  have hval : x.split.values = b.values := by
    rw [hsplit]
    rfl
  apply Acts.setSplit h hx
  · apply backed_block hb' ht
    rw [hv, List.length_set, ← hval]
    exact hlen
  · have hpos : (content st x.split).keys[i]? = some k :=
      (getElem?_content_keys hid ht hlen).mpr ⟨by unfold SplitValues.len; rw [hval]; exact hi, hk⟩
    rw [OrderedMap.store_of_getElem? (h.content_nodup hbacked) hpos, content_block hb' ht, hv, zip_set, hk,
      content_eq hid ht, hval]

/-- The rest of the values over a table that begins with the rest of the names. -/
theorem Acts.remove (h : Laid st) (hx : st.insts[j]? = some x) (hid : x.split.keysId = some id)
    (ht : st.table id = some t) (hlen : x.split.len ≤ t.len) {k : List UInt8} (hi : i < x.split.len)
    (hk : t.texts[i]? = some k) (hf : Follows st st' j) {b : SplitBlock V} {id' : ℕ} {t' : SharedKeys}
    (hj : st'.insts[j]? = some { x with split := some b }) (hb : b.keys = some id') (ht' : st'.table id' = some t')
    (hv : b.values = x.split.values.eraseIdx i)
    (hnames : t'.texts.take (x.split.len - 1) = (t.texts.take x.split.len).eraseIdx i) :
    Acts st st' j x ((content st x.split).remove k) := by
  refine ⟨hf, some b, hj, ?_⟩
  have hvlen : b.values.length = x.split.len - 1 := by
    rw [hv, List.length_eraseIdx_of_lt hi]
    rfl
  have htexts : (t.texts.take x.split.len).length = x.split.values.length := by
    rw [List.length_take, SharedKeys.length_texts]
    exact Nat.min_eq_left hlen
  have hzip : t.texts.zip x.split.values = (t.texts.take x.split.len).zip x.split.values :=
    zip_of_grown ( List.take_prefix _ _) htexts.ge
  have hzip' : t'.texts.zip b.values = (t'.texts.take (x.split.len - 1)).zip b.values := by
    apply zip_of_grown ( List.take_prefix _ _)
    rw [hvlen, hnames, List.length_eraseIdx_of_lt (by rw [htexts]; exact hi), htexts]
    exact le_rfl
  have hpos : (content st x.split).keys[i]? = some k := (getElem?_content_keys hid ht hlen).mpr ⟨hi, hk⟩
  rw [OrderedMap.remove_of_getElem? (h.content_nodup (h.backed j x hx)) hpos, content_block hb ht', hzip', hnames,
    hv, zip_eraseIdx htexts, content_eq hid ht, hzip]

end WeavePy.InstDict
