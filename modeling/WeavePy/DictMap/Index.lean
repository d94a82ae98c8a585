import WeavePy.DictMap.Probe

namespace WeavePy.DictMap

open Lib.LinearProbing

variable {Ω V : Type}

/-- The word of some entry of the table. -/
def Filed (entries : List (Bucket Ω V)) (s : UInt64) : Prop :=
  ∃ i b, entries[i]? = some b ∧ s = slotWord (mix b.hash) i

/-- The slots store exactly the words of `C`, each reachable from its home. -/
def Keeps (slots : List UInt64) (shift : ℕ) (C : UInt64 → Prop) : Prop :=
  Stores slots.length (fun s => (homeOf shift s : ℤ)) lowHalf (view slots) C

variable {slots : List UInt64} {shift k : ℕ} {C : UInt64 → Prop} {entries : List (Bucket Ω V)}

theorem Keeps.congr {C' : UInt64 → Prop} (h : Keeps slots shift C) (hC : ∀ a, C a ↔ C' a) :
    Keeps slots shift C' := Stores.congr_content h hC

theorem Keeps.slotAt_mem {q : ℕ} (h : Keeps slots shift C) (hq : slotAt slots q ≠ 0) :
    C (slotAt slots q) := Stores.mem h (view_eq_some.mpr ⟨rfl, hq⟩)

theorem Keeps.exists_slot (h : Keeps slots shift C) (hs : Shaped slots shift k) {s : UInt64}
    (hC : C s) : ∃ p < slots.length, slotAt slots p = s ∧ s ≠ 0 ∧ Walked slots (homeOf shift s) p := by
  obtain ⟨q, hq⟩ := (h.content s).mp hC
  obtain ⟨p, hp, hv, -⟩ := exists_natCast hs.length_pos q
  rw [hq] at hv
  obtain ⟨hat, hne⟩ := view_eq_some.mp hv.symm
  exact ⟨p, hp, hat, hne, (reaches_iff_walked hs hp).mp (h.reaches _ _ hv.symm)⟩

theorem Keeps.slot_unique (h : Keeps slots shift C) {p q : ℕ} (hp : p < slots.length)
    (hq : q < slots.length) (hp0 : slotAt slots p ≠ 0) (hq0 : slotAt slots q ≠ 0)
    (ht : lowHalf (slotAt slots p) = lowHalf (slotAt slots q)) : p = q := by
  have hd := h.unique p q _ _ (view_eq_some.mpr ⟨rfl, hp0⟩) (view_eq_some.mpr ⟨rfl, hq0⟩) ht
  rcases lt_trichotomy p q with hlt | heq | hgt
  · exact absurd (by simpa using dvd_neg.mpr hd)
      (not_dvd_of_window (n := slots.length) (p := p) (q := q) (by omega) (by omega))
  · exact heq
  · exact absurd hd (not_dvd_of_window (n := slots.length) (p := q) (q := p) (by omega) (by omega))

theorem Filed.index {s : UInt64} (h : Filed entries s) (hlen : entries.length + 1 < 2 ^ 32) :
    ∃ b, entries[lowHalf s - 1]? = some b ∧ s = slotWord (mix b.hash) (lowHalf s - 1) ∧
      1 ≤ lowHalf s ∧ lowHalf s ≤ entries.length := by
  obtain ⟨i, b, hb, rfl⟩ := h
  have hi : i < entries.length := (List.getElem?_eq_some_iff.mp hb).1
  rw [lowHalf_slotWord _ (by omega)]
  exact ⟨b, by simpa using hb, by simp, by omega, by omega⟩

theorem filed_append_singleton (b : Bucket Ω V) (s : UInt64) :
    Filed (entries ++ [b]) s ↔ Filed entries s ∨ s = slotWord (mix b.hash) entries.length := by
  constructor
  · rintro ⟨i, c, hc, rfl⟩
    rcases Nat.lt_or_ge i entries.length with hi | hi
    · rw [List.getElem?_append_left hi] at hc
      exact Or.inl ⟨i, c, hc, rfl⟩
    · rw [List.getElem?_append_right hi] at hc
      obtain ⟨hlt, hbc⟩ := List.getElem?_eq_some_iff.mp hc
      obtain rfl : i = entries.length := by simp at hlt; omega
      simp only [List.getElem_singleton] at hbc
      exact Or.inr (by rw [hbc])
  · rintro (⟨i, c, hc, rfl⟩ | rfl)
    · have hi := (List.getElem?_eq_some_iff.mp hc).1
      exact ⟨i, c, by rw [List.getElem?_append_left hi, hc], rfl⟩
    · exact ⟨entries.length, b, by simp, rfl⟩

theorem Keeps.exists_empty (h : Keeps slots shift (Filed entries))
    (hlen : entries.length < slots.length) (hb : entries.length + 1 < 2 ^ 32) :
    ∃ e < slots.length, slotAt slots e = 0 := by
  obtain ⟨q, hq, he⟩ := Stores.exists_empty h (Finset.Icc 1 entries.length)
    (fun a ha => by
      obtain ⟨-, -, -, h₁, h₂⟩ := ha.index hb
      exact Finset.mem_Icc.mpr ⟨h₁, h₂⟩) (by simpa using hlen)
  exact ⟨q, hq, view_eq_none.mp he⟩

theorem keeps_empty (hs : 0 < slots.length) (h0 : ∀ s ∈ slots, s = 0) :
    Keeps slots shift fun _ => False := by
  have hv : view slots = fun _ => none := by
    funext q
    obtain ⟨p, hp, hpq, -⟩ := exists_natCast hs q
    rw [hpq, view_eq_none, slotAt_of_lt hp]
    exact h0 _ (List.getElem_mem hp)
  rw [Keeps, hv]
  exact Stores.empty

/-- Writing a fresh word in the slot its probe ends at. -/
theorem Keeps.set (h : Keeps slots shift C) (hs : Shaped slots shift k) {s : UInt64} {p : ℕ}
    (hs0 : s ≠ 0) (hp : Vacant slots shift s p) (hfresh : ∀ a, C a → lowHalf a ≠ lowHalf s) :
    Keeps (slots.set p s) shift fun a => C a ∨ a = s := by
  obtain ⟨hlt, hz, hw⟩ := hp
  rw [Keeps, List.length_set, view_set s hlt, if_neg hs0]
  exact Stores.insert h (view_eq_none.mpr hz) ((reaches_iff_walked hs hlt).mpr hw) hfresh

/-- Rewriting the words of the slots, each to one of the same home, without confusing two tags. -/
theorem Keeps.map (h : Keeps slots shift C) (hs : Shaped slots shift k) {f : UInt64 → UInt64}
    (h0 : f 0 = 0) (hne : ∀ a, C a → f a ≠ 0)
    (hhome : ∀ a, C a → homeOf shift (f a) = homeOf shift a)
    (htag : ∀ a b, C a → C b → lowHalf (f a) = lowHalf (f b) → lowHalf a = lowHalf b) :
    Keeps (slots.map f) shift fun b => ∃ a, C a ∧ f a = b := by
  rw [Keeps, List.length_map, view_map hs.length_pos h0]
  · exact Stores.relabel h f (fun a ha => by rw [hhome a ha]) htag
  · intro s hmem hs0
    obtain ⟨p, hp, rfl⟩ := List.mem_iff_getElem.mp hmem
    rw [← slotAt_of_lt hp] at hs0 ⊢
    exact hne _ (h.slotAt_mem hs0)

theorem Keeps.slotOf {t : Table Ω V} (h : Keeps t.slots t.shift C)
    (hs : Shaped t.slots t.shift k) (hash : Int64) {i : ℕ} (hi : i + 1 < 2 ^ 32)
    (hC : C (slotWord (mix hash) i)) :
    ∃ p < t.slots.length, t.slotOf hash i = .ok p ∧
      slotAt t.slots p = slotWord (mix hash) i := by
  obtain ⟨p, hp, hat, hne, d, hd, hpd, hwalk⟩ := h.exists_slot hs hC
  rw [hs.homeOf_slotWord _ hi] at hpd hwalk
  refine ⟨p, hp, ?_, hat⟩
  have hn := hs.length_pos
  refine probe_ok hs.length d _ _ (hs.homeOf_lt _) hd (fun j hj => ?_) ?_
  · have hj0 := hwalk j hj
    have hlow : lowHalf (slotAt t.slots (homeOf t.shift (mix hash) + j)) ≠ i + 1 := by
      intro he
      rw [← slotAt_mod] at hj0 he
      have hpj := h.slot_unique hp (Nat.mod_lt _ hn) (hat ▸ hne) hj0
        (by rw [hat, he, lowHalf_slotWord _ hi])
      have hdj := (Nat.ModEq.add_left_cancel' _ (hpd.symm.trans hpj)).symm
      rw [Nat.ModEq, Nat.mod_eq_of_lt hd, Nat.mod_eq_of_lt (by omega)] at hdj
      omega
    simp [hlow]
    rfl
  · rw [← slotAt_mod, ← hpd, hat, lowHalf_slotWord _ hi, if_pos rfl]
    rfl

/-- `(a.wrapping_sub(b)) & mask` is the distance from `b` to `a` around the table. -/
theorem Shaped.wrapping_sub_mask (hs : Shaped slots shift k) {a b : ℕ} (ha : a < slots.length)
    (hb : b < slots.length) :
    ((a + 2 ^ 64 - b) % 2 ^ 64) &&& (slots.length - 1) =
      (((a : ℤ) - b) % slots.length).toNat := by
  have hk := hs.small
  have hle : slots.length ≤ 2 ^ 64 := hs.le_two_pow.trans (by norm_num)
  rw [hs.length] at ha hb hle ⊢
  rw [Nat.and_two_pow_sub_one_eq_mod, Nat.mod_mod_of_dvd _ (pow_dvd_pow 2 (by omega))]
  have hz : (((a + 2 ^ 64 - b) % 2 ^ k : ℕ) : ℤ) = ((a : ℤ) - b) % (2 ^ k : ℕ) := by
    rw [Int.natCast_mod, Nat.cast_sub (by omega)]
    have he : ((2 : ℤ) ^ 64) = (2 ^ k : ℕ) * 2 ^ (64 - k) := by
      rw [Nat.cast_pow, Nat.cast_ofNat, ← pow_add, show k + (64 - k) = 64 by omega]
    push_cast at he ⊢
    rw [he, show (a : ℤ) + 2 ^ k * 2 ^ (64 - k) - b = a - b + 2 ^ k * 2 ^ (64 - k) by ring,
      Int.add_mul_emod_self_left]
  rw [← hz, Int.toNat_natCast]

theorem put_residue {p : ℕ} (v : Option UInt64) :
    put slots.length (view slots) (p % slots.length : ℕ) v =
      put slots.length (view slots) p v := by
  funext q
  have hd : (slots.length : ℤ) ∣ (p : ℤ) - (p % slots.length : ℕ) := by
    push_cast
    exact Int.dvd_self_sub_emod
  have hiff : (slots.length : ℤ) ∣ q - (p % slots.length : ℕ) ↔ (slots.length : ℤ) ∣ q - p := by
    rw [show q - (p % slots.length : ℕ) = q - p + (p - (p % slots.length : ℕ)) by ring]
    exact dvd_add_left hd
  simp only [put, hiff]

/-- The backward shift ends at the first empty slot `e` after the hole. -/
theorem shiftBack_ok (fuel : ℕ) : ∀ (slots : List UInt64) (p q e : ℕ), Shaped slots shift k →
    Shifting slots.length (fun s => (homeOf shift s : ℤ)) lowHalf (view slots) C p q →
    slotAt slots e = 0 → q ≤ e → e < p + slots.length → e < q + fuel →
    ∃ slots', shiftBack shift fuel slots (p % slots.length) (q % slots.length) = .ok slots' ∧
      slots'.length = slots.length ∧ Keeps slots' shift C := by
  induction fuel with
  | zero => intro slots p q e _ _ _ h₁ _ h₂; omega
  | succ fuel ih =>
    intro slots p q e hs hsh he hqe hep hfuel
    have hn := hs.length_pos
    have hpl := Nat.mod_lt p hn
    have hql := Nat.mod_lt q hn
    have horder := hsh.order
    have hwin := hsh.window
    have hat : slots[q % slots.length] = slotAt slots q := by
      rw [← slotAt_of_lt hql, slotAt_mod]
    by_cases hz : slotAt slots q = 0
    · refine ⟨slots.set (p % slots.length) 0, ?_, by simp, ?_⟩
      · simp [shiftBack, index_ok hql, hat, hz, setIndex_ok hpl]
      · rw [Keeps, List.length_set, view_set _ hpl, if_pos rfl, put_residue]
        exact hsh.finish (view_eq_none.mpr hz)
    · have hshift : 64 - (64 - shift) = shift := by have := hs.shift; omega
      have hview : view slots q = some (slotAt slots q) := view_eq_some.mpr ⟨rfl, hz⟩
      have hqne : q ≠ e := fun h => hz (h ▸ he)
      have hnext : nextPos slots (q % slots.length) = (q + 1) % slots.length := by
        rw [nextPos_eq hs.length, Nat.mod_add_mod]
      have hhome := hs.homeOf_lt (slotAt slots q)
      -- The home of the item at `q`, unrolled to the turn that ends at `q`.
      generalize hdist : ((q % slots.length : ℕ) - (homeOf shift (slotAt slots q) : ℤ)) %
        slots.length = dist
      have hd0 : 0 ≤ dist := hdist ▸ Int.emod_nonneg _ (by omega)
      have hdn : dist < slots.length := hdist ▸ Int.emod_lt_of_pos _ (by omega)
      have hdvd : (slots.length : ℤ) ∣ (q - dist) - homeOf shift (slotAt slots q) := by
        have h₁ : (slots.length : ℤ) ∣ (q : ℤ) - (q % slots.length : ℕ) := by
          push_cast
          exact Int.dvd_self_sub_emod
        have h₂ : (slots.length : ℤ) ∣
            ((q % slots.length : ℕ) - (homeOf shift (slotAt slots q) : ℤ)) - dist :=
          hdist ▸ Int.dvd_self_sub_emod
        rw [show (q - dist : ℤ) - homeOf shift (slotAt slots q) = (q - (q % slots.length : ℕ)) +
          (((q % slots.length : ℕ) - (homeOf shift (slotAt slots q) : ℤ)) - dist) by ring]
        exact dvd_add h₁ h₂
      have hgap : (((q % slots.length : ℕ) : ℤ) - (p % slots.length : ℕ)) % slots.length = q - p := by
        push_cast
        rw [← Int.sub_emod, Int.emod_eq_of_lt (by omega) (by omega)]
      have hcond : ((q % slots.length + 2 ^ 64 - homeOf shift (slotAt slots q)) % 2 ^ 64 &&&
            (slots.length - 1)) ≥
          ((q % slots.length + 2 ^ 64 - p % slots.length) % 2 ^ 64 &&& (slots.length - 1)) ↔
          q - dist ≤ (p : ℤ) := by
        rw [hs.wrapping_sub_mask hql hhome, hs.wrapping_sub_mask hql hpl, hdist, hgap]
        omega
      simp only [shiftBack, index_ok hql, ok_bind, hat, hz, if_false, hshift, hcond, hnext]
      by_cases hc : q - dist ≤ (p : ℤ)
      · rw [if_pos hc, setIndex_ok hpl, ok_bind]
        have hv : view (slots.set (p % slots.length) (slotAt slots q)) =
            put slots.length (view slots) p (some (slotAt slots q)) := by
          rw [view_set _ hpl, if_neg hz, put_residue]
        have hmove := hsh.move hview hc (by omega) hdvd
        have hez : slotAt (slots.set (p % slots.length) (slotAt slots q)) e = 0 := by
          rw [← view_eq_none, hv, put_window _ (by omega) (by omega), view_eq_none]
          exact he
        have hnext' : nextPos (slots.set (p % slots.length) (slotAt slots q)) (q % slots.length) =
            (q + 1) % slots.length := by
          rw [← hnext, nextPos, nextPos, List.length_set]
        obtain ⟨slots', h₁, h₂, h₃⟩ := ih _ q (q + 1) e (hs.set (p % slots.length) (slotAt slots q))
          (by rw [List.length_set, hv]; exact_mod_cast hmove)
          hez (by omega) (by rw [List.length_set]; omega) (by omega)
        rw [List.length_set] at h₁ h₂
        exact ⟨slots', by rw [hnext', h₁], h₂, h₃⟩
      · rw [if_neg hc]
        have hskip := hsh.skip hview (k := q - dist) (by omega) (by omega) hdvd (by omega)
        exact ih slots p (q + 1) e hs (by exact_mod_cast hskip) he (by omega) hep (by omega)

theorem Keeps.eraseSlot {t : Table Ω V} (h : Keeps t.slots t.shift C)
    (hs : Shaped t.slots t.shift k) {p e : ℕ} (hp : p < t.slots.length)
    (hp0 : slotAt t.slots p ≠ 0) (he : slotAt t.slots e = 0) :
    ∃ slots', t.eraseSlot p = .ok { t with slots := slots' } ∧ Shaped slots' t.shift k ∧
      Keeps slots' t.shift fun a => C a ∧ lowHalf a ≠ lowHalf (slotAt t.slots p) := by
  have hn := hs.length_pos
  have h16 := hs.sixteen_le
  obtain ⟨d, hd, hz, -⟩ := exists_first hn p (· = 0) he
  have hstart := Shifting.start h (p := p) (view_eq_some.mpr ⟨rfl, hp0⟩) (by omega)
  have hd0 : d ≠ 0 := by
    rintro rfl
    exact hp0 hz
  obtain ⟨slots', h₁, h₂, h₃⟩ := shiftBack_ok t.slots.length t.slots p (p + 1) (p + d) hs
    (by exact_mod_cast hstart) hz (by omega) (by omega) (by omega)
  refine ⟨slots', ?_, ⟨hs.large, hs.small, h₂.trans hs.length, hs.shift⟩, h₃⟩
  rw [Nat.mod_eq_of_lt hp, ← nextPos_eq hs.length] at h₁
  rw [Table.eraseSlot, h₁]
  rfl

/-- `slots[pos] = (slots[pos] & !IX_MASK) | (to + 1)` gives an item a free index. -/
theorem Keeps.retag {t : Table Ω V} (h : Keeps t.slots t.shift C)
    (hs : Shaped t.slots t.shift k) {m : UInt64} {p i j : ℕ} (hp : p < t.slots.length)
    (hat : slotAt t.slots p = slotWord m i) (hi : i + 1 < 2 ^ 32) (hj : j + 1 < 2 ^ 32)
    (hfree : ∀ a, C a → lowHalf a ≠ i + 1 → lowHalf a ≠ j + 1) :
    ∃ slots', t.retag p j = .ok { t with slots := slots' } ∧ Shaped slots' t.shift k ∧
      (∀ q < t.slots.length, q ≠ p → slotAt slots' q = slotAt t.slots q) ∧
      Keeps slots' t.shift fun a =>
        (C a ∧ lowHalf a ≠ i + 1) ∨ a = slotWord m j := by
  refine ⟨t.slots.set p (slotWord m j), ?_, hs.set _ _, ?_, ?_⟩
  · rw [slotAt_of_lt hp] at hat
    simp [Table.retag, index_ok hp, hat, retag_slotWord _ _ hi, setIndex_ok hp]
  · intro q hq hqp
    rw [slotAt_of_lt (by simpa), slotAt_of_lt hq, List.getElem_set_ne (Ne.symm hqp)]
  have hw0 : slotWord m i ≠ 0 := slotWord_ne_zero m hi
  have hCw : C (slotWord m i) := hat ▸ h.slotAt_mem (hat ▸ hw0)
  let f : UInt64 → UInt64 := fun a => if lowHalf a = i + 1 then slotWord m j else a
  have hset : t.slots.set p (slotWord m j) = t.slots.map f := by
    apply List.ext_getElem (by simp)
    intro q hq hq'
    have hql : q < t.slots.length := by simpa using hq
    rw [List.getElem_map]
    by_cases hqp : q = p
    · subst hqp
      rw [List.getElem_set_self, ← slotAt_of_lt hql, hat]
      simp [f, lowHalf_slotWord m hi]
    · rw [List.getElem_set_ne (Ne.symm hqp)]
      have hne : lowHalf t.slots[q] ≠ i + 1 := by
        intro he
        rw [← slotAt_of_lt hql] at he
        have hq0 : slotAt t.slots q ≠ 0 := by
          intro hz
          rw [hz] at he
          simp [lowHalf] at he
        exact hqp (h.slot_unique hql hp hq0 (hat ▸ hw0) (by rw [he, hat, lowHalf_slotWord m hi]))
      simp [f, hne]
  rw [hset]
  have huniq : ∀ a, C a → lowHalf a = i + 1 → a = slotWord m i := fun a ha he =>
    Stores.eq_of_tag h ha hCw (he.trans (lowHalf_slotWord m hi).symm)
  have hmap := h.map hs (f := f) (by simp [f, lowHalf]) ?_ ?_ ?_
  · refine hmap.congr fun b => ?_
    constructor
    · rintro ⟨a, ha, rfl⟩
      by_cases hl : lowHalf a = i + 1
      · exact Or.inr (by simp [f, hl])
      · exact Or.inl (by simpa [f, hl] using ha)
    · rintro (⟨hb, hl⟩ | rfl)
      · exact ⟨b, hb, by simp [f, hl]⟩
      · exact ⟨_, hCw, by simp [f, lowHalf_slotWord m hi]⟩
  · intro a ha
    by_cases hl : lowHalf a = i + 1
    · simpa [f, hl] using slotWord_ne_zero m hj
    · simp only [f, hl, if_false]
      obtain ⟨-, -, -, hne, -⟩ := h.exists_slot hs ha
      exact hne
  · intro a ha
    by_cases hl : lowHalf a = i + 1
    · rw [huniq a ha hl]
      simp [f, lowHalf_slotWord m hi, hs.homeOf_slotWord _ hi, hs.homeOf_slotWord _ hj]
    · simp [f, hl]
  · intro a b ha hb he
    by_cases hla : lowHalf a = i + 1 <;> by_cases hlb : lowHalf b = i + 1
    · rw [hla, hlb]
    · simp only [f, hla, hlb, if_true, if_false, lowHalf_slotWord m hj] at he
      exact absurd he.symm (hfree b hb hlb)
    · simp only [f, hla, hlb, if_true, if_false, lowHalf_slotWord m hj] at he
      exact absurd he (hfree a ha hla)
    · simpa [f, hla, hlb] using he

end WeavePy.DictMap
