import WeavePy.DictMap.Mutate

namespace WeavePy.DictMap

open Lib.LinearProbing

variable {Ω V : Type} {k : ℕ} {t : Table Ω V}

theorem SlotsOk.swapRemoveIndex (h : SlotsOk t) (i : ℕ) :
    ∃ t', t.swapRemoveIndex i = .ok (t', t.entries[i]?.map fun b => (b.key, b.value)) ∧
      SlotsOk t' ∧
      t'.entries = if i < t.entries.length then swapRemove t.entries i else t.entries := by
  rw [Table.swapRemoveIndex]
  cases hb : t.entries[i]? with
  | none =>
    have := List.getElem?_eq_none_iff.mp hb
    exact ⟨t, rfl, h, (if_neg (by omega)).symm⟩
  | some b =>
    have hi := (List.getElem?_eq_some_iff.mp hb).1
    have hlen := swapRemove_length t.entries i
    have hbound := h.bound
    rw [if_pos hi]
    dsimp only
    split_ifs with hne hin
    · exact ⟨_, rfl, h.of_slotless hne (by omega), rfl⟩
    · obtain ⟨last, hlast⟩ : ∃ last, t.entries.getLast? = some last :=
        ⟨_, List.getLast?_eq_some_getLast (List.ne_nil_of_length_pos (by omega))⟩
      have hlast' : t.entries[t.entries.length - 1]? = some last := by
        rw [← hlast, List.getLast?_eq_getElem?]
      obtain ⟨k, pos, slots', hslot, hes, hs', hl', hk⟩ := h.freeSlot hne hb
      have hload := h.load hne
      have hn1 : t.entries.length - 1 + 1 < 2 ^ 32 := by omega
      obtain ⟨p, hp, hslot', hat⟩ := Keeps.slotOf (t := { t with slots := slots' }) hk hs' last.hash
        hn1 ⟨⟨_, last, hlast', rfl⟩, by rw [lowHalf_slotWord _ hn1]; omega⟩
      obtain ⟨slots'', hr, hs'', -, hk'⟩ := Keeps.retag (t := { t with slots := slots' }) hk hs' hp
        hat hn1 (j := i) (by omega) fun a ha _ => ha.2
      have hlast_ok : index t.entries (t.entries.length - 1) = .ok last := by
        simp [index, hlast']
      rw [hslot, ok_bind, hes, ok_bind]
      simp only [hlast_ok, ok_bind, Table.repoint, hslot', hr]
      have hl'' : slots''.length = t.slots.length := by rw [hs''.length, ← hs'.length, hl']
      refine ⟨⟨swapRemove t.entries i, slots'', t.shift⟩, rfl,
        SlotsOk.of_keeps hs'' (by omega) (by omega) (hk'.congr fun a => ?_), rfl⟩
      constructor
      · rintro (⟨⟨⟨m, c, hm, rfl⟩, h₁⟩, h₂⟩ | rfl)
        · have hml := (List.getElem?_eq_some_iff.mp hm).1
          rw [lowHalf_slotWord _ (by omega)] at h₁ h₂
          exact ⟨m, c, by
            rw [swapRemove_getElem? hlast, if_pos (by omega), if_neg (by omega), hm], rfl⟩
        · exact ⟨i, last, by
            rw [swapRemove_getElem? hlast, if_pos (by omega), if_pos rfl], rfl⟩
      · rintro ⟨m, c, hm, rfl⟩
        rw [swapRemove_getElem? hlast] at hm
        split_ifs at hm with h₁ h₂
        · obtain rfl := Option.some.inj hm
          exact Or.inr (by rw [h₂])
        · refine Or.inl ⟨⟨⟨m, c, hm, rfl⟩, ?_⟩, ?_⟩ <;> rw [lowHalf_slotWord _ (by omega)] <;> omega
    · obtain ⟨k, pos, slots', hslot, hes, hs', hl', hk⟩ := h.freeSlot hne hb
      have hload := h.load hne
      obtain ⟨last, hlast⟩ : ∃ last, t.entries.getLast? = some last :=
        ⟨_, List.getLast?_eq_some_getLast (List.ne_nil_of_length_pos (by omega))⟩
      rw [hslot, ok_bind, hes, ok_bind]
      refine ⟨⟨swapRemove t.entries i, slots', t.shift⟩, rfl,
        SlotsOk.of_keeps hs' (by omega) (by omega) (hk.congr fun a => ?_), rfl⟩
      constructor
      · rintro ⟨⟨m, c, hm, rfl⟩, h₁⟩
        have hml := (List.getElem?_eq_some_iff.mp hm).1
        rw [lowHalf_slotWord _ (by omega)] at h₁
        exact ⟨m, c, by
          rw [swapRemove_getElem? hlast, if_pos (by omega), if_neg (by omega), hm], rfl⟩
      · rintro ⟨m, c, hm, rfl⟩
        rw [swapRemove_getElem? hlast] at hm
        split_ifs at hm with h₁ h₂
        · omega
        · exact ⟨⟨m, c, hm, rfl⟩, by rw [lowHalf_slotWord _ (by omega)]; omega⟩

theorem SlotsOk.pop (h : SlotsOk t) :
    ∃ t', t.pop = .ok (t', t.entries.getLast?.map fun b => (b.key, b.value)) ∧ SlotsOk t' ∧
      t'.entries = t.entries.dropLast := by
  rw [Table.pop]
  cases hlast : t.entries.getLast? with
  | none =>
    exact ⟨t, rfl, h, by simp [List.getLast?_eq_none_iff.mp hlast]⟩
  | some b =>
    have hpos : 0 < t.entries.length := List.length_pos_of_mem (List.mem_of_getLast? hlast)
    have hb : t.entries[t.entries.length - 1]? = some b := by
      rw [← hlast, List.getLast?_eq_getElem?]
    have hlen : t.entries.dropLast.length = t.entries.length - 1 := List.length_dropLast
    have hbound := h.bound
    dsimp only
    split_ifs with hne
    · exact ⟨_, rfl, h.of_slotless hne (by omega), rfl⟩
    · obtain ⟨k, pos, slots', hslot, hes, hs', hl', hk⟩ := h.freeSlot hne hb
      have hload := h.load hne
      rw [hslot, ok_bind, hes, ok_bind]
      refine ⟨⟨t.entries.dropLast, slots', t.shift⟩, rfl,
        SlotsOk.of_keeps hs' (by omega) (by omega) (hk.congr fun a => ?_), rfl⟩
      constructor
      · rintro ⟨⟨m, c, hm, rfl⟩, h₁⟩
        have hml := (List.getElem?_eq_some_iff.mp hm).1
        rw [lowHalf_slotWord _ (by omega)] at h₁
        exact ⟨m, c, by rw [List.getElem?_dropLast, if_pos (by omega), hm], rfl⟩
      · rintro ⟨m, c, hm, rfl⟩
        rw [List.getElem?_dropLast] at hm
        split_ifs at hm with h₁
        exact ⟨⟨m, c, hm, rfl⟩, by rw [lowHalf_slotWord _ (by omega)]; omega⟩

theorem SlotsOk.replaceIndexUnique (h : SlotsOk t) (i : ℕ) (hash : Int64) (key : Object Ω)
    (value : V) :
    ∃ t', t.replaceIndexUnique i hash key value =
        .ok (t', t.entries[i]?.map fun b => (b.key, b.value)) ∧
      SlotsOk t' ∧ t'.entries = t.entries.set i ⟨hash, key, value⟩ := by
  rw [Table.replaceIndexUnique]
  cases hb : t.entries[i]? with
  | none =>
    have := List.getElem?_eq_none_iff.mp hb
    exact ⟨t, rfl, h, (List.set_eq_of_length_le this).symm⟩
  | some b =>
    have hi := (List.getElem?_eq_some_iff.mp hb).1
    have hlen : (t.entries.set i ⟨hash, key, value⟩).length = t.entries.length := List.length_set
    have hbound := h.bound
    dsimp only
    split_ifs with hne
    · exact ⟨_, rfl, h.of_slotless hne (by omega), rfl⟩
    · obtain ⟨k, pos, slots', hslot, hes, hs', hl', hk⟩ := h.freeSlot hne hb
      have hload := h.load hne
      have hi32 : i + 1 < 2 ^ 32 := by omega
      -- The freed slot itself is empty or refilled, so some slot is empty.
      obtain ⟨e, -, he⟩ : ∃ e < slots'.length, slotAt slots' e = 0 := by
        have hpos := hs'.length_pos
        obtain ⟨q, hq, hnone⟩ := Stores.exists_empty hk (Finset.Icc 1 t.entries.length)
          (fun a ha => by
            obtain ⟨-, -, -, h₁, h₂⟩ := ha.1.index hbound
            exact Finset.mem_Icc.mpr ⟨h₁, h₂⟩) (by simp; omega)
        exact ⟨q, hq, view_eq_none.mp hnone⟩
      obtain ⟨p, hp, hv⟩ := vacantSlot_ok hs' (mix hash) he
      rw [hslot, ok_bind, hes, ok_bind]
      simp only [hp, ok_bind, setIndex_ok hv.1]
      refine ⟨⟨t.entries.set i ⟨hash, key, value⟩, slots'.set p (slotWord (mix hash) i), t.shift⟩,
        rfl, SlotsOk.of_keeps (hs'.set _ _) (by omega)
        (by simp only [List.length_set]; omega)
        ((hk.set hs' (slotWord_ne_zero _ hi32) (hv.slotWord hs' hi32) fun a ha => by
          rw [lowHalf_slotWord _ hi32]; exact ha.2).congr fun a => ?_), rfl⟩
      constructor
      · rintro (⟨⟨m, c, hm, rfl⟩, h₁⟩ | rfl)
        · have hml := (List.getElem?_eq_some_iff.mp hm).1
          rw [lowHalf_slotWord _ (by omega)] at h₁
          exact ⟨m, c, by rw [List.getElem?_set_ne (by omega), hm], rfl⟩
        · exact ⟨i, _, List.getElem?_set_self hi, rfl⟩
      · rintro ⟨m, c, hm, rfl⟩
        have hml := (List.getElem?_eq_some_iff.mp hm).1
        rw [hlen] at hml
        by_cases hmi : m = i
        · subst hmi
          rw [List.getElem?_set_self hi] at hm
          obtain rfl := Option.some.inj hm
          exact Or.inr rfl
        · rw [List.getElem?_set_ne (Ne.symm hmi)] at hm
          exact Or.inl ⟨⟨m, c, hm, rfl⟩, by rw [lowHalf_slotWord _ (by omega)]; omega⟩

theorem SlotsOk.retain (h : SlotsOk t) (keep : Object Ω → V → Bool × V) :
    ∃ t', t.retain keep = .ok t' ∧ SlotsOk t' ∧
      t'.entries = t.entries.filterMap fun b =>
        let r := keep b.key b.value
        if r.1 then some { b with value := r.2 } else none := by
  rw [Table.retain]
  dsimp only
  generalize hkept : (t.entries.filterMap fun b =>
    if (keep b.key b.value).1 = true then some { b with value := (keep b.key b.value).2 }
    else none) = kept
  split_ifs with hne
  · exact reindex_ok h _ (hkept ▸ List.length_filterMap_le _ _)
  · push Not at hne
    refine ⟨_, rfl, h.of_hashes ?_, rfl⟩
    have hall : ∀ b ∈ t.entries, (keep b.key b.value).1 = true := by
      intro b hb
      have := List.filterMap_length_eq_length.mp (hkept ▸ hne) b hb
      by_contra hf
      simp [hf] at this
    rw [← hkept, List.map_filterMap]
    rw [← List.filterMap_eq_map]
    apply List.filterMap_congr
    intro b hb
    simp [hall b hb]

theorem SlotsOk.truncate (h : SlotsOk t) (len : ℕ) :
    ∃ t', t.truncate len = .ok t' ∧ SlotsOk t' ∧ t'.entries = t.entries.take len := by
  rw [Table.truncate]
  split_ifs with hlt
  · exact reindex_ok h _ (by simp)
  · exact ⟨t, rfl, h, (List.take_of_length_le (by omega)).symm⟩

theorem SlotsOk.splitOff (h : SlotsOk t) {at_ : ℕ} (hat : at_ ≤ t.entries.length) :
    Ensures (t.splitOff at_)
      (fun r => SlotsOk r.1 ∧ SlotsOk r.2 ∧ r.1.entries = t.entries.take at_ ∧
        r.2.entries = t.entries.drop at_) (2 ^ 31 ≤ t.entries.length) := by
  rw [Table.splitOff, if_pos hat]
  obtain ⟨t', h₁, h₂, h₃⟩ := reindex_ok h (t.entries.take at_) (by simp)
  dsimp only
  rw [h₁, ok_bind]
  have hout := fromUniqueHashed_ensures (t.entries.drop at_)
  refine (hout.mono (fun _ => id) fun hbig => ?_).bind fun out hout => ⟨h₂, hout.1, h₃, hout.2⟩
  rw [List.length_drop] at hbig
  omega

theorem SlotsOk.drain (h : SlotsOk t) {lo hi : ℕ} (hle : lo ≤ hi) (hhi : hi ≤ t.entries.length) :
    ∃ t', t.drain lo hi =
        .ok (t', ((t.entries.take hi).drop lo).map fun b => (b.key, b.value)) ∧
      SlotsOk t' ∧ t'.entries = t.entries.take lo ++ t.entries.drop hi := by
  rw [Table.drain, if_pos ⟨hle, hhi⟩]
  obtain ⟨t', h₁, h₂, h₃⟩ := reindex_ok h (t.entries.take lo ++ t.entries.drop hi)
    (by simp; omega)
  dsimp only
  rw [h₁, ok_bind]
  exact ⟨t', rfl, h₂, h₃⟩

theorem SlotsOk.reverse (h : SlotsOk t) :
    ∃ t', t.reverse = .ok t' ∧ SlotsOk t' ∧ t'.entries = t.entries.reverse :=
  reindex_ok h _ (by simp)

theorem SlotsOk.sortBy (h : SlotsOk t) (le : Object Ω × V → Object Ω × V → Bool) :
    ∃ t', t.sortBy le = .ok t' ∧ SlotsOk t' ∧
      t'.entries = t.entries.mergeSort fun a b => le (a.key, a.value) (b.key, b.value) :=
  reindex_ok h _ (by simp)

/-- `slots[p] = (slots[p] & !IX_MASK) | (to + 1)` as a function of the word. -/
def retagWord (s : UInt64) (to_ : ℕ) : UInt64 := (s &&& ~~~IX_MASK) ||| (UInt64.ofNat to_ + 1)

theorem retagAll_ok (l : List (ℕ × ℕ)) : ∀ t : Table Ω V, (∀ e ∈ l, e.1 < t.slots.length) →
    (l.map Prod.fst).Nodup → ∃ slots', t.retagAll l = .ok { t with slots := slots' } ∧
      slots'.length = t.slots.length ∧
      (∀ e ∈ l, slotAt slots' e.1 = retagWord (slotAt t.slots e.1) e.2) ∧
      ∀ q < t.slots.length, q ∉ l.map Prod.fst → slotAt slots' q = slotAt t.slots q := by
  induction l with
  | nil => exact fun t _ _ => ⟨t.slots, rfl, rfl, by simp, by simp⟩
  | cons e l ih =>
    intro t hlt hnd
    obtain ⟨pos, to_⟩ := e
    have hpos : pos < t.slots.length := hlt (pos, to_) (by simp)
    rw [List.map_cons, List.nodup_cons] at hnd
    have hset : ∀ q < t.slots.length, q ≠ pos →
        slotAt (t.slots.set pos (retagWord (slotAt t.slots pos) to_)) q = slotAt t.slots q := by
      intro q hq hne
      rw [slotAt_of_lt (by simpa), slotAt_of_lt hq, List.getElem_set_ne (Ne.symm hne)]
    obtain ⟨slots', h₁, h₂, h₃, h₄⟩ := ih
      { t with slots := t.slots.set pos (retagWord (slotAt t.slots pos) to_) }
      (fun e he => by simpa using hlt e (by simp [he])) hnd.2
    rw [List.length_set] at h₂ h₄
    refine ⟨slots', ?_, h₂, ?_, ?_⟩
    · rw [Table.retagAll, Table.retag, index_ok hpos, ok_bind, ← slotAt_of_lt hpos]
      rw [retagWord] at h₁
      rw [setIndex_ok hpos, ok_bind]
      exact h₁
    · intro e he
      rcases List.mem_cons.mp he with rfl | he
      · rw [h₄ pos hpos hnd.1, slotAt_of_lt (by simpa), List.getElem_set_self]
      · have hne : e.1 ≠ pos := fun hep => hnd.1 (List.mem_map.mpr ⟨e, he, hep⟩)
        rw [h₃ e he, hset _ (hlt e (by simp [he])) hne]
    · intro q hq hmem
      rw [List.map_cons, List.mem_cons, not_or] at hmem
      rw [h₄ q hq hmem.2, hset q hq hmem.1]

/-- Renumbering the entries `ks`, all located first, by `ν`: every other entry keeps its number,
and the slots index the entries in their new order. -/
theorem SlotsOk.renumber (h : SlotsOk t) (hne : t.slots ≠ []) {ks ps : List ℕ} (ν : ℕ → ℕ)
    {entries : List (Bucket Ω V)} (hnd : ks.Nodup)
    (hloc : List.Forall₂ (fun m p => p < t.slots.length ∧
      ∃ b, t.entries[m]? = some b ∧ slotAt t.slots p = slotWord (mix b.hash) m) ks ps)
    (hlen : entries.length = t.entries.length)
    (hfix : ∀ m, m ∉ ks → ν m = m)
    (hν : ∀ m < t.entries.length, ν m < t.entries.length ∧ entries[ν m]? = t.entries[m]?)
    (hinj : ∀ m < t.entries.length, ∀ m' < t.entries.length, ν m = ν m' → m = m') :
    ∃ slots', t.retagAll (ps.zip (ks.map ν)) = .ok { t with slots := slots' } ∧
      SlotsOk { t with entries, slots := slots' } := by
  obtain ⟨k, hs⟩ := h.shaped hne
  have hkeeps := h.keeps hne
  have hb := h.bound
  have hks : ks.length = ps.length := hloc.length_eq
  have hat : ∀ j (hj : j < ks.length) (hp : j < ps.length), ps[j] < t.slots.length ∧
      ∃ b, t.entries[ks[j]]? = some b ∧ slotAt t.slots ps[j] = slotWord (mix b.hash) ks[j] :=
    fun j hj hp => (List.forall₂_iff_get.mp hloc).2 j hj hp
  have hlow : ∀ j (hj : j < ks.length) (hp : j < ps.length),
      lowHalf (slotAt t.slots ps[j]) = ks[j] + 1 := by
    intro j hj hp
    obtain ⟨-, b, hbj, he⟩ := hat j hj hp
    have := (List.getElem?_eq_some_iff.mp hbj).1
    rw [he, lowHalf_slotWord _ (by omega)]
  have hzip : (ps.zip (ks.map ν)).map Prod.fst = ps := List.map_fst_zip (by simp [hks])
  have hpsnd : ps.Nodup := by
    rw [List.nodup_iff_injective_get]
    intro i j hij
    have hi : i.1 < ks.length := by omega
    have hj : j.1 < ks.length := by omega
    have he : ks[i.1] = ks[j.1] := by
      have h₁ := hlow i.1 hi i.2
      have h₂ := hlow j.1 hj j.2
      simp only [List.get_eq_getElem] at hij
      rw [hij, h₂] at h₁
      omega
    exact Fin.ext ((List.Nodup.getElem_inj_iff hnd).mp he)
  obtain ⟨slots', hr, hl', hin, hout⟩ := retagAll_ok (ps.zip (ks.map ν)) t (by
    intro e he
    obtain ⟨j, hj, rfl⟩ := List.mem_iff_getElem.mp he
    rw [List.getElem_zip]
    exact (hat j (by simp at hj; omega) (by simp at hj; omega)).1) (by rw [hzip]; exact hpsnd)
  rw [hzip] at hout
  refine ⟨slots', hr, ?_⟩
  have hs' : Shaped slots' t.shift k := ⟨hs.large, hs.small, by rw [hl', hs.length], hs.shift⟩
  let f : UInt64 → UInt64 := fun s =>
    if s ≠ 0 ∧ lowHalf s - 1 ∈ ks then retagWord s (ν (lowHalf s - 1)) else s
  have hf : ∀ m (b : Bucket Ω V), t.entries[m]? = some b →
      f (slotWord (mix b.hash) m) = slotWord (mix b.hash) (ν m) := by
    intro m b hm
    have := (List.getElem?_eq_some_iff.mp hm).1
    have hw := slotWord_ne_zero (mix b.hash) (i := m) (by omega)
    simp only [f, hw, ne_eq, not_false_iff, true_and, lowHalf_slotWord (mix b.hash) (i := m)
      (by omega), Nat.add_sub_cancel]
    split_ifs with hmem
    · exact retag_slotWord _ _ (by omega)
    · rw [hfix m hmem]
  have hmap : slots' = t.slots.map f := by
    apply List.ext_getElem (by simp [hl'])
    intro q hq hq'
    have hqt : q < t.slots.length := by omega
    rw [List.getElem_map, ← slotAt_of_lt hq, ← slotAt_of_lt hqt]
    by_cases hz : slotAt t.slots q = 0
    · have hmem : q ∉ ps := by
        intro hmem
        obtain ⟨j, hj, rfl⟩ := List.mem_iff_getElem.mp hmem
        have := hlow j (by omega) hj
        rw [hz] at this
        simp [lowHalf] at this
      rw [hout q hqt hmem, hz]
      simp [f]
    · obtain ⟨m, b, hm, hw⟩ := hkeeps.slotAt_mem hz
      have hml := (List.getElem?_eq_some_iff.mp hm).1
      by_cases hmem : q ∈ ps
      · obtain ⟨j, hj, rfl⟩ := List.mem_iff_getElem.mp hmem
        have hjk : j < ks.length := by omega
        have hlj := hlow j hjk hj
        have hzip' : (ps[j], ν ks[j]) ∈ ps.zip (ks.map ν) := by
          refine List.mem_iff_getElem.mpr ⟨j, by simp; omega, ?_⟩
          rw [List.getElem_zip, List.getElem_map]
        rw [hin _ hzip', show f (slotAt t.slots ps[j]) = retagWord (slotAt t.slots ps[j])
          (ν (lowHalf (slotAt t.slots ps[j]) - 1)) from if_pos ⟨hz, by
            rw [hlj]; exact List.getElem_mem _⟩, hlj]
        rfl
      · rw [hout q hqt hmem]
        have hnot : lowHalf (slotAt t.slots q) - 1 ∉ ks := by
          intro hk
          obtain ⟨j, hj, he⟩ := List.mem_iff_getElem.mp hk
          refine hmem (List.mem_iff_getElem.mpr ⟨j, by omega, ?_⟩)
          have hlj := hlow j hj (by omega)
          have hmw : lowHalf (slotAt t.slots q) = m + 1 := by
            rw [hw, lowHalf_slotWord _ (by omega)]
          refine hkeeps.slot_unique (hat j hj (by omega)).1 hqt ?_ hz (by omega)
          intro hz'
          rw [hz'] at hlj
          simp [lowHalf] at hlj
        simp [f, hnot]
  have hsurj : ∀ m < t.entries.length, ∃ m' < t.entries.length, ν m' = m := by
    have hinj' : Function.Injective fun m : Fin t.entries.length =>
        (⟨ν m, (hν m m.isLt).1⟩ : Fin t.entries.length) := fun a b hab =>
      Fin.ext (hinj a a.isLt b b.isLt (Fin.mk.inj hab))
    intro m hm
    obtain ⟨m', hm'⟩ := Finite.surjective_of_injective hinj' ⟨m, hm⟩
    exact ⟨m', m'.isLt, Fin.mk.inj hm'⟩
  refine SlotsOk.of_keeps hs' (by omega) (by rw [hlen, hl']; exact h.load hne) ?_
  rw [hmap]
  refine (hkeeps.map hs (f := f) (by simp [f]) ?_ ?_ ?_).congr fun a => ?_
  · rintro a ⟨m, b, hm, rfl⟩
    have hml := (List.getElem?_eq_some_iff.mp hm).1
    have := (hν m hml).1
    rw [hf m b hm]
    exact slotWord_ne_zero _ (by omega)
  · rintro a ⟨m, b, hm, rfl⟩
    have hml := (List.getElem?_eq_some_iff.mp hm).1
    have := (hν m hml).1
    rw [hf m b hm, hs.homeOf_slotWord _ (by omega), hs.homeOf_slotWord _ (by omega)]
  · rintro a a' ⟨m, b, hm, rfl⟩ ⟨m', b', hm', rfl⟩ he
    have hml := (List.getElem?_eq_some_iff.mp hm).1
    have hml' := (List.getElem?_eq_some_iff.mp hm').1
    have := (hν m hml).1
    have := (hν m' hml').1
    rw [hf m b hm, hf m' b' hm', lowHalf_slotWord _ (by omega), lowHalf_slotWord _ (by omega)] at he
    rw [hinj m hml m' hml' (by omega), lowHalf_slotWord _ (by omega),
      lowHalf_slotWord _ (by omega)]
  · constructor
    · rintro ⟨-, ⟨m, b, hm, rfl⟩, rfl⟩
      have hml := (List.getElem?_eq_some_iff.mp hm).1
      exact ⟨ν m, b, by rw [(hν m hml).2, hm], hf m b hm⟩
    · rintro ⟨m, b, hm, rfl⟩
      have hml := (List.getElem?_eq_some_iff.mp hm).1
      obtain ⟨m', hm', rfl⟩ := hsurj m (by omega)
      rw [(hν m' hm').2] at hm
      exact ⟨_, ⟨m', b, hm, rfl⟩, hf m' b hm⟩

theorem SlotsOk.locate (h : SlotsOk t) (hne : t.slots ≠ []) (ks : List ℕ)
    (hks : ∀ m ∈ ks, m < t.entries.length) :
    ∃ ps, t.locate ks = .ok ps ∧ List.Forall₂ (fun m p => p < t.slots.length ∧
      ∃ b, t.entries[m]? = some b ∧ slotAt t.slots p = slotWord (mix b.hash) m) ks ps := by
  obtain ⟨k, hs⟩ := h.shaped hne
  induction ks with
  | nil => exact ⟨[], rfl, .nil⟩
  | cons m ks ih =>
    have hm := hks m (by simp)
    have hb := h.bound
    have hget : t.entries[m]? = some t.entries[m] := List.getElem?_eq_getElem hm
    obtain ⟨p, hp, hslot, hat⟩ := (h.keeps hne).slotOf hs _ (i := m) (by omega) ⟨m, _, hget, rfl⟩
    obtain ⟨ps, hps, hall⟩ := ih fun m hm => hks m (by simp [hm])
    refine ⟨p :: ps, ?_, .cons ⟨hp, _, hget, hat⟩ hall⟩
    rw [Table.locate, index_ok hm, ok_bind, hslot, ok_bind, hps, ok_bind]
    rfl

theorem rotateLeft_one {α : Type} (x : α) (l : List α) : (x :: l).rotateLeft 1 = l ++ [x] := by
  cases l with
  | nil => rfl
  | cons y l => simp [List.rotateLeft, Nat.mod_eq_of_lt]

theorem rotateRight_one {α : Type} (x : α) (l : List α) : (l ++ [x]).rotateRight 1 = x :: l := by
  cases l with
  | nil => rfl
  | cons y l => simp [List.rotateRight, Nat.mod_eq_of_lt]

theorem moveEntry_down {α : Type} {l : List α} {from_ to_ : ℕ} (hlt : from_ < to_)
    (hto : to_ < l.length) (m : ℕ) : (moveEntry l from_ to_)[m]? =
      if m = to_ then l[from_]? else if from_ ≤ m ∧ m < to_ then l[m + 1]? else l[m]? := by
  have hpart : (l.take (to_ + 1)).drop from_ =
      l[from_] :: (l.take (to_ + 1)).drop (from_ + 1) := by
    rw [List.drop_eq_getElem_cons (by simp; omega), List.getElem_take]
  have hget : l[from_]? = some l[from_] := List.getElem?_eq_getElem _
  rw [moveEntry, if_pos hlt, hpart, rotateLeft_one, hget]
  simp only [List.getElem?_append, List.getElem?_take, List.getElem?_drop, List.length_append,
    List.length_take, List.length_drop, List.length_cons, List.length_nil, List.getElem?_singleton]
  split_ifs <;> first | omega | rfl | (congr 1; omega)

theorem moveEntry_up {α : Type} {l : List α} {from_ to_ : ℕ} (hlt : to_ < from_)
    (hfrom : from_ < l.length) (m : ℕ) : (moveEntry l from_ to_)[m]? =
      if m = to_ then l[from_]? else if to_ < m ∧ m ≤ from_ then l[m - 1]? else l[m]? := by
  have hpart : (l.take (from_ + 1)).drop to_ = (l.take from_).drop to_ ++ [l[from_]] := by
    rw [List.take_succ_eq_append_getElem hfrom, List.drop_append_of_le_length (by simp; omega)]
  have hget : l[from_]? = some l[from_] := List.getElem?_eq_getElem _
  rw [moveEntry, if_neg (by omega), hpart, rotateRight_one, hget]
  simp only [List.getElem?_append, List.getElem?_cons, List.getElem?_take, List.getElem?_drop,
    List.length_append, List.length_take, List.length_drop, List.length_cons]
  split_ifs <;> first | omega | rfl | (congr 1; omega)

theorem moveEntry_length {α : Type} {l : List α} {from_ to_ : ℕ} (hfrom : from_ < l.length)
    (hto : to_ < l.length) : (moveEntry l from_ to_).length = l.length := by
  have hleft : ∀ l : List α, (l.rotateLeft 1).length = l.length := by
    intro l
    cases l <;> simp [rotateLeft_one]
  have hright : ∀ l : List α, (l.rotateRight 1).length = l.length := by
    intro l
    rcases List.eq_nil_or_concat l with rfl | ⟨l, x, rfl⟩
    · rfl
    · simp [rotateRight_one]
  rw [moveEntry]
  split_ifs <;> simp [hleft, hright] <;> omega

theorem SlotsOk.moveIndex (h : SlotsOk t) {from_ to_ : ℕ} (hfrom : from_ < t.entries.length)
    (hto : to_ < t.entries.length) :
    ∃ t', t.moveIndex from_ to_ = .ok t' ∧ SlotsOk t' ∧
      t'.entries = if from_ = to_ then t.entries else moveEntry t.entries from_ to_ := by
  rw [Table.moveIndex, if_pos ⟨hfrom, hto⟩]
  have hlen := moveEntry_length hfrom hto
  split_ifs with heq hne
  · exact ⟨t, rfl, h, rfl⟩
  · exact ⟨_, rfl, h.of_slotless hne (by omega), rfl⟩
  · have hmem : ∀ m, m ∈ List.range' (min from_ to_) (max from_ to_ + 1 - min from_ to_) ↔
        min from_ to_ ≤ m ∧ m ≤ max from_ to_ := by
      intro m
      rw [List.mem_range'_1]
      omega
    obtain ⟨ps, hps, hloc⟩ := h.locate hne
      (List.range' (min from_ to_) (max from_ to_ + 1 - min from_ to_))
      (fun m hm => by have := (hmem m).mp hm; omega)
    -- Outside the moved part an entry keeps its number.
    let ν : ℕ → ℕ := fun m =>
      if min from_ to_ ≤ m ∧ m ≤ max from_ to_ then movedIndex from_ to_ m else m
    have hmap : (List.range' (min from_ to_) (max from_ to_ + 1 - min from_ to_)).map
        (movedIndex from_ to_) =
        (List.range' (min from_ to_) (max from_ to_ + 1 - min from_ to_)).map ν :=
      List.map_congr_left fun m hm => (if_pos ((hmem m).mp hm)).symm
    obtain ⟨slots', hr, hok⟩ := h.renumber hne ν List.nodup_range' hloc hlen
      (fun m hm => if_neg fun hc => hm ((hmem m).mpr hc))
      (by
        intro m hm
        rcases Nat.lt_or_gt_of_ne heq with hlt | hgt
        · simp only [ν, movedIndex, moveEntry_down hlt hto, min_eq_left hlt.le,
            max_eq_right hlt.le, if_pos hlt]
          refine ⟨by split_ifs <;> omega, ?_⟩
          split_ifs <;> first | omega | rfl | (congr 1; omega)
        · simp only [ν, movedIndex, moveEntry_up hgt hfrom, min_eq_right hgt.le,
            max_eq_left hgt.le, if_neg (Nat.lt_asymm hgt)]
          refine ⟨by split_ifs <;> omega, ?_⟩
          split_ifs <;> first | omega | rfl | (congr 1; omega))
      (by
        intro m hm m' hm' he
        simp only [ν, movedIndex] at he
        split_ifs at he <;> omega)
    dsimp only
    rw [hps, ok_bind, hmap, hr, ok_bind]
    exact ⟨_, rfl, hok, rfl⟩

theorem swapEntries_ok {α : Type} {l : List α} {a b : ℕ} (ha : a < l.length) (hb : b < l.length) :
    swapEntries l a b = .ok ((l.set a l[b]).set b l[a]) := by
  rw [swapEntries, index_ok ha, ok_bind, index_ok hb, ok_bind]
  rfl

theorem SlotsOk.swapIndices (h : SlotsOk t) {a b : ℕ} (ha : a < t.entries.length)
    (hb : b < t.entries.length) :
    ∃ t', t.swapIndices a b = .ok t' ∧ SlotsOk t' ∧
      t'.entries = (t.entries.set a t.entries[b]).set b t.entries[a] := by
  rw [Table.swapIndices]
  split_ifs with heq hne
  · subst heq
    exact ⟨t, rfl, h, by simp⟩
  · refine ⟨⟨(t.entries.set a t.entries[b]).set b t.entries[a], t.slots, t.shift⟩, ?_,
      h.of_slotless hne (by simp), rfl⟩
    rw [show (pure t : Outcome (Table Ω V)) = .ok t from rfl, ok_bind]
    dsimp only
    rw [swapEntries_ok ha hb, ok_bind]
    rfl
  · obtain ⟨ps, hps, hloc⟩ := h.locate hne [a, b] (by simp [ha, hb])
    rcases hloc with _ | ⟨hpa, _ | ⟨hpb, _ | _⟩⟩
    rename_i pa pb
    rw [Table.locate, index_ok ha, ok_bind] at hps
    obtain ⟨pa', hpa', hps⟩ := bind_eq_ok.mp hps
    obtain ⟨l₁, hl₁, hps⟩ := bind_eq_ok.mp hps
    rw [Table.locate, index_ok hb, ok_bind] at hl₁
    obtain ⟨pb', hpb', hl₁⟩ := bind_eq_ok.mp hl₁
    obtain ⟨l₂, hl₂, hl₁⟩ := bind_eq_ok.mp hl₁
    obtain rfl := Except.ok.inj hl₁
    obtain ⟨rfl, hrest⟩ := List.cons.inj (Except.ok.inj hps)
    obtain ⟨rfl, -⟩ := List.cons.inj hrest
    let ν : ℕ → ℕ := fun m => if m = a then b else if m = b then a else m
    obtain ⟨slots', hr, hok⟩ := h.renumber hne ν (show [a, b].Nodup by simp [heq])
      (.cons hpa (.cons hpb .nil))
      (show ((t.entries.set a t.entries[b]).set b t.entries[a]).length = t.entries.length by simp)
      (fun m hm => by
        simp only [List.mem_cons, List.not_mem_nil, or_false, not_or] at hm
        simp [ν, hm.1, hm.2])
      (by
        intro m hm
        simp only [ν, List.getElem?_set, List.length_set]
        refine ⟨by split_ifs <;> omega, ?_⟩
        split_ifs <;> first | omega | rfl | (subst_vars; simp [*]))
      (by
        intro m hm m' hm' he
        simp only [ν] at he
        split_ifs at he <;> omega)
    have hzip : [pa', pb'].zip ([a, b].map ν) = [(pa', b), (pb', a)] := by
      have : ¬ b = a := fun h => heq h.symm
      simp [ν, this]
    rw [hzip] at hr
    refine ⟨_, ?_, hok, rfl⟩
    rw [index_ok ha, ok_bind, hpa', ok_bind, index_ok hb, ok_bind, hpb', ok_bind, hr, ok_bind]
    dsimp only
    rw [swapEntries_ok ha hb, ok_bind]
    rfl

end WeavePy.DictMap
