import WeavePy.DictMap.Lookup

namespace WeavePy.DictMap

open Lib.LinearProbing

variable {Ω V : Type} {slots : List UInt64} {shift k : ℕ} {t : Table Ω V}

theorem slotsFor_spec (n : ℕ) : ∃ k, 4 ≤ k ∧ slotsFor n = 2 ^ k ∧ n * 3 ≤ 2 ^ k * 2 ∧
    (32 < k → 2 ^ 31 ≤ n) := by
  have hle := Nat.le_pow_clog (b := 2) (by norm_num) (max n (SMALL + 1) * 3 / 2 + 1)
  have h9 : 9 ≤ max n (SMALL + 1) := le_max_right _ _
  have hn : n ≤ max n (SMALL + 1) := le_max_left _ _
  refine ⟨_, ?_, rfl, by omega, fun h => ?_⟩
  · by_contra hlt
    have : 2 ^ Nat.clog 2 (max n (SMALL + 1) * 3 / 2 + 1) ≤ 2 ^ 3 :=
      Nat.pow_le_pow_right (by norm_num) (by omega)
    omega
  · by_contra hlt
    have hsmall : max n (SMALL + 1) * 3 / 2 + 1 ≤ 2 ^ 32 := by
      have : max n (SMALL + 1) < 2 ^ 31 := by
        simp only [SMALL, max_lt_iff]
        omega
      omega
    have := Nat.clog_le_of_le_pow hsmall
    omega

theorem trailingZeros_two_pow : ∀ k ≤ 32, trailingZeros (2 ^ k) = k := by decide

theorem Vacant.slotWord {m : UInt64} {pos i : ℕ} (h : Vacant slots shift m pos)
    (hs : Shaped slots shift k) (hi : i + 1 < 2 ^ 32) :
    Vacant slots shift (slotWord m i) pos := by
  rw [Vacant, hs.homeOf_slotWord _ hi]
  exact h

/-- Filing the entries `l` after `pre`, in order. -/
theorem place_all (l : List (Bucket Ω V)) : ∀ (pre : List (Bucket Ω V)) (slots : List UInt64),
    Shaped slots shift k → Keeps slots shift (Filed pre) →
    (pre ++ l).length < slots.length → (pre ++ l).length + 1 < 2 ^ 32 →
    ∃ slots', (l.zipIdx pre.length).foldlM (fun slots e => do
        let pos ← vacantSlot slots shift (mix e.1.hash)
        setUnchecked slots pos (slotWord (mix e.1.hash) e.2)) slots = (.ok slots' : Outcome _) ∧
      Shaped slots' shift k ∧ Keeps slots' shift (Filed (pre ++ l)) := by
  induction l with
  | nil =>
    intro pre slots hs hk _ _
    exact ⟨slots, rfl, hs, by simpa using hk⟩
  | cons b l ih =>
    intro pre slots hs hk hlen hb
    simp only [List.length_append, List.length_cons] at hlen hb
    obtain ⟨e, -, he⟩ := hk.exists_empty (by omega) (by omega)
    obtain ⟨pos, hpos, hv⟩ := vacantSlot_ok hs (mix b.hash) he
    have hi : pre.length + 1 < 2 ^ 32 := by omega
    have hset := (hk.set hs (slotWord_ne_zero (mix b.hash) hi) (hv.slotWord hs hi)
      fun a ha => by
        obtain ⟨-, -, -, -, hle⟩ := ha.index (by omega)
        rw [lowHalf_slotWord _ hi]
        omega).congr fun a => (filed_append_singleton b a).symm
    obtain ⟨slots', h₁, h₂, h₃⟩ := ih (pre ++ [b]) _ (hs.set pos _) hset
      (by simp; omega) (by simp; omega)
    refine ⟨slots', ?_, h₂, by simpa using h₃⟩
    rw [List.zipIdx_cons, List.foldlM_cons, hpos, ok_bind, setUnchecked_ok hv.1, ok_bind]
    simpa using h₁

/-- The only failure of a rebuild is the assertion on the table's size. -/
theorem rebuildSlots_ensures (t : Table Ω V) (hk : 4 ≤ k)
    (hload : t.entries.length * 3 ≤ 2 ^ k * 2) :
    Ensures (t.rebuildSlots (2 ^ k))
      (fun t' => SlotsOk t' ∧ t'.entries = t.entries ∧ t'.slots.length = 2 ^ k)
      (32 < k ∨ 2 ^ 32 - 1 ≤ t.entries.length) := by
  rw [Table.rebuildSlots]
  split_ifs with h
  · obtain ⟨hle, hb⟩ := h
    have hk32 : k ≤ 32 := (Nat.pow_le_pow_iff_right (by norm_num)).mp hle
    rw [ixMask_toNat] at hb
    have h16 : 2 ^ 4 ≤ 2 ^ k := Nat.pow_le_pow_right (by norm_num) hk
    rw [trailingZeros_two_pow k hk32]
    have hs : Shaped (List.replicate (2 ^ k) 0) (64 - k) k :=
      ⟨hk, hk32, List.length_replicate, rfl⟩
    have hempty : Keeps (List.replicate (2 ^ k) 0) (64 - k) (Filed ([] : List (Bucket Ω V))) :=
      (keeps_empty hs.length_pos (fun s hs => (List.mem_replicate.mp hs).2)).congr
        fun a => ⟨False.elim, fun ⟨_, _, h, _⟩ => by simp at h⟩
    obtain ⟨slots', h₁, h₂, h₃⟩ := place_all t.entries [] _ hs hempty
      (by simp; omega) (by simp; omega)
    have hne : slots' ≠ [] := List.ne_nil_of_length_pos h₂.length_pos
    refine ensures_of_eq (a := { t with slots := slots', shift := 64 - k }) ?_ ⟨?_, rfl, h₂.length⟩
    · simp only [List.length_nil] at h₁
      dsimp only
      rw [h₁, ok_bind]
      rfl
    · exact ⟨by dsimp only; omega, fun h => absurd h hne, fun _ => ⟨k, h₂⟩,
        fun _ => by rw [h₂.length]; exact hload, fun _ => by simpa using h₃⟩
  · refine ⟨rfl, ?_⟩
    rw [ixMask_toNat] at h
    by_contra hn
    exact h ⟨Nat.pow_le_pow_right (by norm_num) (by omega), by omega⟩

theorem rebuildSlots_slotsFor (t : Table Ω V) {n : ℕ} (hn : t.entries.length ≤ n) :
    Ensures (t.rebuildSlots (slotsFor n))
      (fun t' => SlotsOk t' ∧ t'.entries = t.entries) (2 ^ 31 ≤ n) := by
  obtain ⟨k, hk, he, hload, hbig⟩ := slotsFor_spec n
  rw [he]
  exact (rebuildSlots_ensures t hk (by omega)).mono (fun t' h => ⟨h.1, h.2.1⟩) fun h => by
    rcases h with h | h
    · exact hbig h
    · omega

/-- Reindexing after the entries changed in bulk without growing cannot fail. -/
theorem reindex_ok (h : SlotsOk t) (entries : List (Bucket Ω V))
    (hle : entries.length ≤ t.entries.length) :
    ∃ t', Table.reindex { t with entries } = .ok t' ∧ SlotsOk t' ∧ t'.entries = entries := by
  have hb := h.bound
  by_cases hne : t.slots = []
  · have hsl := h.slotless hne
    refine ⟨{ t with entries }, by simp [Table.reindex, hne]; rfl, ?_, rfl⟩
    exact ⟨by dsimp only; omega, fun _ => ⟨by dsimp only; omega, hsl.2⟩, fun h => absurd hne h,
      fun h => absurd hne h, fun h => absurd hne h⟩
  · obtain ⟨k, hs⟩ := h.shaped hne
    have hload := h.load hne
    have hens := rebuildSlots_ensures { t with entries } hs.large
      (by rw [← hs.length]; dsimp only; omega)
    rw [← hs.length] at hens
    have heq : Table.reindex { t with entries } =
        Table.rebuildSlots { t with entries } t.slots.length := by
      simp [Table.reindex, hne]
    rw [heq]
    cases hr : Table.rebuildSlots { t with entries } t.slots.length with
    | ok t' => exact ⟨t', rfl, (hens.of_ok hr).1, (hens.of_ok hr).2.1⟩
    | error e =>
      rw [hr] at hens
      have := hs.small
      dsimp only [Ensures] at hens
      omega

theorem SlotsOk.new : SlotsOk (Table.new : Table Ω V) :=
  ⟨by simp [Table.new], fun _ => ⟨by simp [Table.new], rfl⟩, fun h => absurd rfl h,
    fun h => absurd rfl h, fun h => absurd rfl h⟩

theorem withCapacity_ensures (n : ℕ) :
    Ensures (Table.withCapacity n : Outcome (Table Ω V))
      (fun t => SlotsOk t ∧ t.entries = []) (2 ^ 31 ≤ n) := by
  rw [Table.withCapacity]
  split_ifs
  · exact rebuildSlots_slotsFor _ (Nat.zero_le n)
  · exact ⟨SlotsOk.new, rfl⟩

theorem fromUniqueHashed_ensures (entries : List (Bucket Ω V)) :
    Ensures (Table.fromUniqueHashed entries) (fun t => SlotsOk t ∧ t.entries = entries)
      (2 ^ 31 ≤ entries.length) := by
  rw [Table.fromUniqueHashed]
  split_ifs with h
  · exact rebuildSlots_slotsFor ⟨entries, [], 64⟩ le_rfl
  · simp only [SMALL, not_lt] at h
    exact ⟨⟨by dsimp only; omega, fun _ => ⟨h, rfl⟩, fun h => absurd rfl h, fun h => absurd rfl h,
      fun h => absurd rfl h⟩, rfl⟩

theorem SlotsOk.reserve (h : SlotsOk t) (additional : ℕ) :
    Ensures (t.reserve additional) (fun t' => SlotsOk t' ∧ t'.entries = t.entries)
      (2 ^ 31 ≤ t.entries.length + additional) := by
  rw [Table.reserve]
  split_ifs
  · exact rebuildSlots_slotsFor t (Nat.le_add_right _ _)
  · exact ⟨h, rfl⟩

theorem SlotsOk.shrinkToFit (h : SlotsOk t) :
    ∃ t', t.shrinkToFit = .ok t' ∧ SlotsOk t' ∧ t'.entries = t.entries := by
  have hb := h.bound
  rw [Table.shrinkToFit]
  split_ifs with hsmall hlt
  · exact ⟨_, rfl, ⟨hb, fun _ => ⟨hsmall, rfl⟩, fun h => absurd rfl h, fun h => absurd rfl h,
      fun h => absurd rfl h⟩, rfl⟩
  · have hne : t.slots ≠ [] := by
      intro he
      rw [he] at hlt
      simp at hlt
    obtain ⟨k, hs⟩ := h.shaped hne
    obtain ⟨k', hk', he, hload, -⟩ := slotsFor_spec t.entries.length
    have hk32 : k' ≤ 32 := by
      rw [he, hs.length] at hlt
      have := (Nat.pow_lt_pow_iff_right (by norm_num)).mp hlt
      have := hs.small
      omega
    have hens := rebuildSlots_ensures t hk' hload
    rw [he]
    cases hr : t.rebuildSlots (2 ^ k') with
    | ok t' => exact ⟨t', rfl, (hens.of_ok hr).1, (hens.of_ok hr).2.1⟩
    | error e =>
      rw [hr] at hens
      dsimp only [Ensures] at hens
      omega
  · exact ⟨t, rfl, h, rfl⟩

theorem SlotsOk.clear (h : SlotsOk t) : SlotsOk t.clear := by
  have hne : t.clear.slots ≠ [] → t.slots ≠ [] := by
    intro hc he
    simp [Table.clear, he] at hc
  refine ⟨by simp [Table.clear], ?_, ?_, by simp [Table.clear], ?_⟩
  · intro he
    have : t.slots = [] := by simpa [Table.clear] using he
    exact ⟨by simp [Table.clear], (h.slotless this).2⟩
  · intro hc
    obtain ⟨k, hs⟩ := h.shaped (hne hc)
    exact ⟨k, hs.large, hs.small, by simp [Table.clear, hs.length], hs.shift⟩
  · intro hc
    have hpos : 0 < t.slots.length := List.length_pos_iff.mpr (hne hc)
    refine (keeps_empty (by simpa [Table.clear] using hpos) ?_).congr fun a =>
      ⟨False.elim, fun ⟨_, _, h, _⟩ => by simp [Table.clear] at h⟩
    intro s hs
    exact (List.mem_replicate.mp hs).2

theorem pushGrowing_ensures (h : SlotsOk t) (b : Bucket Ω V)
    (hfull : t.slots ≠ [] → t.slots.length * 2 < (t.entries.length + 1) * 3 ∨
      IX_MASK.toNat - 1 ≤ t.entries.length) :
    Ensures (t.pushGrowing b)
      (fun r => r.2 = t.entries.length ∧ r.1.entries = t.entries ++ [b] ∧ SlotsOk r.1)
      (2 ^ 31 ≤ t.entries.length + 1) := by
  have hb := h.bound
  rw [Table.pushGrowing]
  dsimp only
  split_ifs with hi hne
  · refine (rebuildSlots_slotsFor { t with entries := t.entries ++ [b] } (by simp)).bind ?_
    rintro t' ⟨h₁, h₂⟩
    exact ⟨rfl, h₂, h₁⟩
  · obtain ⟨k, hs⟩ := h.shaped hne
    have hload := h.load hne
    have h16 := hs.sixteen_le
    have hens := rebuildSlots_ensures { t with entries := t.entries ++ [b] } (k := k + 1)
      (by have := hs.large; omega) (by
        rw [pow_succ, ← hs.length, List.length_append, List.length_singleton]; omega)
    rw [pow_succ, ← hs.length] at hens
    have hgrown : Ensures (Table.rebuildSlots { t with entries := t.entries ++ [b] }
        (t.slots.length * 2)) (fun t' => SlotsOk t' ∧ t'.entries = t.entries ++ [b])
        (2 ^ 31 ≤ t.entries.length + 1) := by
      refine hens.mono (fun t' h => ⟨h.1, h.2.1⟩) fun hbig => ?_
      rw [List.length_append, List.length_singleton] at hbig
      rcases hbig with hbig | hbig
      · have := hs.small
        obtain rfl : k = 32 := by omega
        have := hs.length
        have := (hfull hne).resolve_right hi.not_ge
        omega
      · omega
    refine hgrown.bind ?_
    rintro t' ⟨h₁, h₂⟩
    exact ⟨rfl, h₂, h₁⟩
  · rw [ixMask_toNat] at hi
    exact ⟨rfl, by omega⟩

end WeavePy.DictMap
