import WeavePy.DictMap.Rebuild

namespace WeavePy.DictMap

open Lib.LinearProbing

variable {Ω V : Type} {k : ℕ} {t : Table Ω V}

theorem filed_congr {l l' : List (Bucket Ω V)} (h : l'.map Bucket.hash = l.map Bucket.hash)
    (s : UInt64) : Filed l s ↔ Filed l' s := by
  have key : ∀ {l l' : List (Bucket Ω V)}, l'.map Bucket.hash = l.map Bucket.hash →
      Filed l s → Filed l' s := by
    rintro l l' h ⟨i, b, hb, rfl⟩
    have hi := congrArg (·[i]?) h
    simp only [List.getElem?_map, hb, Option.map_some] at hi
    obtain ⟨b', hb', he⟩ := Option.map_eq_some_iff.mp hi
    exact ⟨i, b', hb', by rw [he]⟩
  exact ⟨key h, key h.symm⟩

/-- The slots see only the entries' hashes. -/
theorem SlotsOk.of_hashes (h : SlotsOk t) {entries : List (Bucket Ω V)}
    (he : entries.map Bucket.hash = t.entries.map Bucket.hash) :
    SlotsOk { t with entries } := by
  have hlen : entries.length = t.entries.length := by simpa using congrArg List.length he
  refine ⟨?_, ?_, h.shaped, ?_, fun hne => (h.keeps hne).congr (filed_congr he)⟩
  · dsimp only
    rw [hlen]
    exact h.bound
  · dsimp only
    rw [hlen]
    exact h.slotless
  · dsimp only
    rw [hlen]
    exact h.load

theorem SlotsOk.replaceValue (h : SlotsOk t) {i : ℕ} {b : Bucket Ω V}
    (hb : t.entries[i]? = some b) (value : V) :
    ∃ t', t.replaceValue i value = .ok (t', b.value) ∧ SlotsOk t' ∧
      t'.entries = t.entries.set i { b with value } := by
  obtain ⟨hi, hbi⟩ := List.getElem?_eq_some_iff.mp hb
  refine ⟨{ t with entries := t.entries.set i { b with value } }, ?_, h.of_hashes ?_, rfl⟩
  · simp [Table.replaceValue, getUnchecked, hb, setUnchecked_ok hi]
  · rw [List.map_set]
    exact List.set_getElem_self (by simpa using hi) ▸ by simp [hbi]

theorem SlotsOk.pushAt (h : SlotsOk t) {pos : ℕ} {hash : Int64}
    (hpos : t.slots ≠ [] → Vacant t.slots t.shift (mix hash) pos) (key : Object Ω) (value : V) :
    Ensures (t.pushAt pos hash key value)
      (fun r => r.2 = t.entries.length ∧ r.1.entries = t.entries ++ [⟨hash, key, value⟩] ∧
        SlotsOk r.1) (2 ^ 31 ≤ t.entries.length + 1) := by
  have hb := h.bound
  rw [Table.pushAt]
  split_ifs with hne hsmall hroom
  · refine ⟨rfl, rfl, ?_⟩
    simp only [SMALL] at hsmall
    exact ⟨by simp; omega, fun _ => ⟨by simp [SMALL]; omega, (h.slotless hne).2⟩,
      fun h => absurd hne h, fun h => absurd hne h, fun h => absurd hne h⟩
  · exact pushGrowing_ensures h _ fun hn => absurd hne hn
  · obtain ⟨k, hs⟩ := h.shaped hne
    obtain ⟨hload, hi⟩ := hroom
    rw [ixMask_toNat] at hi
    have hi32 : t.entries.length + 1 < 2 ^ 32 := by omega
    have hv := hpos hne
    rw [setUnchecked_ok hv.1, ok_bind]
    refine ⟨rfl, rfl, ⟨by simp; omega, ?_, fun _ => ⟨k, hs.set _ _⟩, ?_, fun _ => ?_⟩⟩
    · simp [hne]
    · intro _
      simp only [List.length_append, List.length_singleton, List.length_set]
      exact hload
    · exact ((h.keeps hne).set hs (slotWord_ne_zero _ hi32) (hv.slotWord hs hi32) fun a ha => by
        obtain ⟨-, -, -, -, hle⟩ := ha.index hb
        rw [lowHalf_slotWord _ hi32]
        omega).congr fun a => (filed_append_singleton (⟨hash, key, value⟩ : Bucket Ω V) a).symm
  · refine pushGrowing_ensures h _ fun _ => ?_
    by_contra hc
    push Not at hc
    exact hroom ⟨hc.1, hc.2⟩

theorem SlotsOk.pushNative (h : SlotsOk t) (capacity : ℕ) {pos : ℕ} {hash : Int64}
    (hpos : t.slots ≠ [] → Vacant t.slots t.shift (mix hash) pos) (key : Object Ω) (value : V) :
    ∃ r, t.pushNative capacity pos hash key value = .ok r ∧ SlotsOk r.1 ∧
      r.1.entries = if r.2 then t.entries ++ [⟨hash, key, value⟩] else t.entries := by
  rw [Table.pushNative]
  split_ifs with hcap hne hsmall hfull
  · exact ⟨_, rfl, h, by simp⟩
  · exact ⟨_, rfl, h, by simp⟩
  · refine ⟨_, rfl, ?_, by simp⟩
    simp only [SMALL, ge_iff_le, not_le] at hsmall
    exact ⟨by simp; omega, fun _ => ⟨by simp [SMALL]; omega, (h.slotless hne).2⟩,
      fun h => absurd hne h, fun h => absurd hne h, fun h => absurd hne h⟩
  · exact ⟨_, rfl, h, by simp⟩
  · -- With room to spare this is `push_at`.
    have hens := h.pushAt hpos key value
    push Not at hfull
    rw [Table.pushAt] at hens
    rw [if_neg hne, if_pos hfull] at hens
    rw [setUnchecked_ok (hpos hne).1, ok_bind] at hens ⊢
    exact ⟨_, rfl, hens.2.2, by simp⟩

theorem SlotsOk.vacantSlot (h : SlotsOk t) (hne : t.slots ≠ []) (m : UInt64) :
    ∃ pos, vacantSlot t.slots t.shift m = .ok pos ∧ Vacant t.slots t.shift m pos := by
  obtain ⟨k, hs⟩ := h.shaped hne
  obtain ⟨e, -, he⟩ := h.exists_empty hne
  exact vacantSlot_ok hs m he

theorem SlotsOk.insertUniqueHashed (h : SlotsOk t) (hash : Int64) (key : Object Ω) (value : V) :
    Ensures (t.insertUniqueHashed hash key value)
      (fun r => r.2 = t.entries.length ∧ r.1.entries = t.entries ++ [⟨hash, key, value⟩] ∧
        SlotsOk r.1) (2 ^ 31 ≤ t.entries.length + 1) := by
  rw [Table.insertUniqueHashed]
  split_ifs with hne
  · exact h.pushAt (fun h => absurd hne h) key value
  · obtain ⟨pos, hpos, hv⟩ := h.vacantSlot hne (mix hash)
    rw [hpos, ok_bind]
    exact h.pushAt (fun _ => hv) key value

/-- The slot of entry `i` is found and freed; the other entries keep theirs. -/
theorem SlotsOk.freeSlot (h : SlotsOk t) (hne : t.slots ≠ []) {i : ℕ} {b : Bucket Ω V}
    (hb : t.entries[i]? = some b) :
    ∃ k pos slots', t.slotOf b.hash i = .ok pos ∧
      t.eraseSlot pos = .ok { t with slots := slots' } ∧ Shaped slots' t.shift k ∧
      slots'.length = t.slots.length ∧
      Keeps slots' t.shift fun a => Filed t.entries a ∧ lowHalf a ≠ i + 1 := by
  obtain ⟨k, hs⟩ := h.shaped hne
  obtain ⟨e, -, he⟩ := h.exists_empty hne
  have hi : i + 1 < 2 ^ 32 := by
    have := (List.getElem?_eq_some_iff.mp hb).1
    have := h.bound
    omega
  obtain ⟨pos, hp, hslot, hat⟩ := (h.keeps hne).slotOf hs b.hash hi ⟨i, b, hb, rfl⟩
  obtain ⟨slots', hes, hs', hk⟩ := (h.keeps hne).eraseSlot hs hp
    (hat ▸ slotWord_ne_zero _ hi) he
  rw [hat, lowHalf_slotWord _ hi] at hk
  exact ⟨k, pos, slots', hslot, hes, hs', by rw [hs'.length, hs.length], hk⟩

theorem getElem?_eraseIdx_up {α : Type} (l : List α) (i j : ℕ) :
    (l.eraseIdx i)[j]? = l[if j < i then j else j + 1]? := by
  rw [List.getElem?_eraseIdx]
  split_ifs <;> rfl

/-- The words left when entry `i` is freed, with the numbers the entries below `j` have after it
goes and the numbers the others have before. -/
def Closing (l : List (Bucket Ω V)) (j : ℕ) (s : UInt64) : Prop :=
  ∃ m b, l[m]? = some b ∧ s = slotWord (mix b.hash) (if m < j then m else m + 1)

theorem closing_eraseIdx {l : List (Bucket Ω V)} {i : ℕ} (hb : l.length + 1 < 2 ^ 32)
    (s : UInt64) : Filed l s ∧ lowHalf s ≠ i + 1 ↔ Closing (l.eraseIdx i) i s := by
  constructor
  · rintro ⟨⟨m, b, hm, rfl⟩, hne⟩
    have hml := (List.getElem?_eq_some_iff.mp hm).1
    rw [lowHalf_slotWord _ (by omega)] at hne
    rcases Nat.lt_or_ge m i with hlt | hge
    · exact ⟨m, b, by rw [getElem?_eraseIdx_up, if_pos hlt, hm], by rw [if_pos hlt]⟩
    · obtain ⟨m, rfl⟩ : ∃ m', m = m' + 1 := ⟨m - 1, by omega⟩
      have hnl : ¬ m < i := by omega
      exact ⟨m, b, by rw [getElem?_eraseIdx_up, if_neg hnl, hm], by rw [if_neg hnl]⟩
  · rintro ⟨m, b, hm, rfl⟩
    rw [getElem?_eraseIdx_up] at hm
    refine ⟨⟨_, b, hm, rfl⟩, ?_⟩
    have hml := (List.getElem?_eq_some_iff.mp hm).1
    rw [lowHalf_slotWord _ (by omega)]
    split_ifs with h <;> omega

theorem closing_length {l : List (Bucket Ω V)} {j : ℕ} (hj : l.length ≤ j) (s : UInt64) :
    Closing l j s ↔ Filed l s := by
  constructor
  · rintro ⟨m, b, hm, rfl⟩
    have := (List.getElem?_eq_some_iff.mp hm).1
    exact ⟨m, b, hm, by rw [if_pos (by omega)]⟩
  · rintro ⟨m, b, hm, rfl⟩
    have := (List.getElem?_eq_some_iff.mp hm).1
    exact ⟨m, b, hm, by rw [if_pos (by omega)]⟩

theorem Closing.lowHalf {l : List (Bucket Ω V)} {j : ℕ} {s : UInt64} (h : Closing l j s)
    (hb : l.length + 2 < 2 ^ 32) : lowHalf s ≠ j + 1 := by
  obtain ⟨m, b, hm, rfl⟩ := h
  have := (List.getElem?_eq_some_iff.mp hm).1
  rw [lowHalf_slotWord _ (by split_ifs <;> omega)]
  split_ifs <;> omega

theorem repointDown_ok (cnt : ℕ) : ∀ (t : Table Ω V) (j : ℕ), j + cnt = t.entries.length →
    t.entries.length + 2 < 2 ^ 32 → Shaped t.slots t.shift k →
    Keeps t.slots t.shift (Closing t.entries j) →
    ∃ slots', t.repointDown (List.range' j cnt) = .ok { t with slots := slots' } ∧
      Shaped slots' t.shift k ∧ Keeps slots' t.shift (Filed t.entries) := by
  induction cnt with
  | zero =>
    intro t j hj _ hs hk
    exact ⟨t.slots, rfl, hs, hk.congr (closing_length (by omega))⟩
  | succ cnt ih =>
    intro t j hj hb hs hk
    have hjl : j < t.entries.length := by omega
    have hword : Closing t.entries j (slotWord (mix t.entries[j].hash) (j + 1)) :=
      ⟨j, _, List.getElem?_eq_getElem hjl, by simp⟩
    obtain ⟨p, hp, hslot, hat⟩ := hk.slotOf hs _ (by omega) hword
    obtain ⟨slots', hr, hs', -, hk'⟩ := hk.retag hs hp hat (i := j + 1) (j := j) (by omega)
      (by omega) fun a ha _ => ha.lowHalf hb
    have hk'' : Keeps slots' t.shift (Closing t.entries (j + 1)) := by
      refine hk'.congr fun a => ?_
      constructor
      · rintro (⟨⟨m, b, hm, rfl⟩, hne⟩ | rfl)
        · have hml := (List.getElem?_eq_some_iff.mp hm).1
          rw [lowHalf_slotWord _ (by split_ifs <;> omega)] at hne
          have hmj : m ≠ j := by
            rintro rfl
            simp at hne
          refine ⟨m, b, hm, ?_⟩
          congr 1
          split_ifs <;> omega
        · exact ⟨j, _, List.getElem?_eq_getElem hjl, by simp⟩
      · rintro ⟨m, b, hm, rfl⟩
        have hml := (List.getElem?_eq_some_iff.mp hm).1
        by_cases hmj : m = j
        · subst hmj
          rw [List.getElem?_eq_getElem hjl] at hm
          obtain rfl := Option.some.inj hm
          exact Or.inr (by simp)
        · refine Or.inl ⟨⟨m, b, hm, ?_⟩, ?_⟩
          · congr 1
            split_ifs <;> omega
          · rw [lowHalf_slotWord _ (by split_ifs <;> omega)]
            split_ifs <;> omega
    obtain ⟨slots'', h₁, h₂, h₃⟩ := ih { t with slots := slots' } (j + 1) (by dsimp only; omega) hb
      hs' hk''
    refine ⟨slots'', ?_, h₂, h₃⟩
    rw [List.range'_succ, Table.repointDown, index_ok hjl, ok_bind, Table.repoint, hslot, ok_bind,
      hr, ok_bind, h₁]

/-- Decrementing every number above the freed one renumbers all the moved entries at once. -/
theorem keeps_map_pred {slots : List UInt64} {shift i : ℕ} {l : List (Bucket Ω V)}
    (hb : l.length + 2 < 2 ^ 32) (hs : Shaped slots shift k)
    (hk : Keeps slots shift (Closing l i)) :
    Keeps (slots.map fun s => if lowHalf s > i + 1 then s - 1 else s) shift (Filed l) := by
  have hword : ∀ m (b : Bucket Ω V), l[m]? = some b →
      (if lowHalf (slotWord (mix b.hash) (if m < i then m else m + 1)) > i + 1 then
        slotWord (mix b.hash) (if m < i then m else m + 1) - 1 else
        slotWord (mix b.hash) (if m < i then m else m + 1)) = slotWord (mix b.hash) m := by
    intro m b hm
    have := (List.getElem?_eq_some_iff.mp hm).1
    rw [lowHalf_slotWord _ (by split_ifs <;> omega)]
    by_cases hmi : m < i
    · rw [if_pos hmi, if_neg (by omega)]
    · rw [if_neg hmi, if_pos (by omega), slotWord_pred _ (by omega)]
  refine (hk.map hs (by simp [lowHalf]) ?_ ?_ ?_).congr fun a => ?_
  · rintro a ⟨m, b, hm, rfl⟩
    have := (List.getElem?_eq_some_iff.mp hm).1
    rw [hword m b hm]
    exact slotWord_ne_zero _ (by omega)
  · rintro a ⟨m, b, hm, rfl⟩
    have := (List.getElem?_eq_some_iff.mp hm).1
    rw [hword m b hm, hs.homeOf_slotWord _ (by omega),
      hs.homeOf_slotWord _ (by split_ifs <;> omega)]
  · rintro a a' ⟨m, b, hm, rfl⟩ ⟨m', b', hm', rfl⟩ he
    have := (List.getElem?_eq_some_iff.mp hm).1
    have := (List.getElem?_eq_some_iff.mp hm').1
    rw [hword m b hm, hword m' b' hm', lowHalf_slotWord _ (by omega),
      lowHalf_slotWord _ (by omega)] at he
    rw [lowHalf_slotWord _ (by split_ifs <;> omega), lowHalf_slotWord _ (by split_ifs <;> omega),
      Nat.succ_injective he]
  · constructor
    · rintro ⟨-, ⟨m, b, hm, rfl⟩, rfl⟩
      exact ⟨m, b, hm, hword m b hm⟩
    · rintro ⟨m, b, hm, rfl⟩
      exact ⟨_, ⟨m, b, hm, rfl⟩, hword m b hm⟩

/-- `SlotsOk` of a table with slots, from its parts. -/
theorem SlotsOk.of_keeps {entries : List (Bucket Ω V)} {slots : List UInt64} {shift : ℕ}
    (hs : Shaped slots shift k) (hb : entries.length + 1 < 2 ^ 32)
    (hload : entries.length * 3 ≤ slots.length * 2) (hk : Keeps slots shift (Filed entries)) :
    SlotsOk ⟨entries, slots, shift⟩ := by
  have hne : slots ≠ [] := List.ne_nil_of_length_pos hs.length_pos
  exact ⟨hb, fun h => absurd h hne, fun _ => ⟨k, hs⟩, fun _ => hload, fun _ => hk⟩

/-- `SlotsOk` of a table without slots, after its entries changed without growing. -/
theorem SlotsOk.of_slotless (h : SlotsOk t) (hne : t.slots = []) {entries : List (Bucket Ω V)}
    (hle : entries.length ≤ t.entries.length) : SlotsOk { t with entries } := by
  have := h.slotless hne
  have := h.bound
  exact ⟨by dsimp only; omega, fun _ => ⟨by dsimp only; omega, by tauto⟩, fun h => absurd hne h,
    fun h => absurd hne h, fun h => absurd hne h⟩

theorem SlotsOk.shiftRemoveIndex (h : SlotsOk t) (i : ℕ) :
    ∃ t', t.shiftRemoveIndex i = .ok (t', t.entries[i]?.map fun b => (b.key, b.value)) ∧
      SlotsOk t' ∧ t'.entries = t.entries.eraseIdx i := by
  rw [Table.shiftRemoveIndex]
  cases hb : t.entries[i]? with
  | none =>
    have := List.getElem?_eq_none_iff.mp hb
    exact ⟨t, rfl, h, (List.eraseIdx_of_length_le this).symm⟩
  | some b =>
    have hi := (List.getElem?_eq_some_iff.mp hb).1
    have hlen : (t.entries.eraseIdx i).length = t.entries.length - 1 := List.length_eraseIdx_of_lt hi
    dsimp only
    split_ifs with hne
    · exact ⟨_, rfl, h.of_slotless hne (by omega), rfl⟩
    · obtain ⟨k, pos, slots', hslot, hes, hs', hl', hk⟩ := h.freeSlot hne hb
      have hbound := h.bound
      have hload := h.load hne
      have hk' := hk.congr (closing_eraseIdx hbound)
      rw [hslot, ok_bind, hes, ok_bind]
      dsimp only
      split_ifs
      · obtain ⟨slots'', h₁, h₂, h₃⟩ := repointDown_ok (t.entries.length - 1 - i)
          { t with slots := slots', entries := t.entries.eraseIdx i } i
          (by dsimp only; omega) (by dsimp only; omega) hs' hk'
        rw [h₁, ok_bind]
        have hl'' : slots''.length = t.slots.length := by rw [h₂.length, ← hs'.length, hl']
        exact ⟨_, rfl, SlotsOk.of_keeps h₂ (by dsimp only; omega) (by dsimp only; omega) h₃, rfl⟩
      · refine ⟨_, rfl, SlotsOk.of_keeps (k := k) ?_ (by omega) ?_
          (keeps_map_pred (by omega) hs' hk'), rfl⟩
        · exact ⟨hs'.large, hs'.small, by rw [List.length_map, hs'.length], hs'.shift⟩
        · rw [List.length_map]
          omega

end WeavePy.DictMap
