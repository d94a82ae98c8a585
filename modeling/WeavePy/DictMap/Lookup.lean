import WeavePy.DictMap.Index

namespace WeavePy.DictMap

open Lib.LinearProbing

/-- The slots of `t` index its entries, or it is small and has none. -/
structure SlotsOk {Ω V : Type} (t : Table Ω V) : Prop where
  bound : t.entries.length + 1 < 2 ^ 32
  slotless : t.slots = [] → t.entries.length ≤ SMALL ∧ t.shift = 64
  shaped : t.slots ≠ [] → ∃ k, Shaped t.slots t.shift k
  load : t.slots ≠ [] → t.entries.length * 3 ≤ t.slots.length * 2
  keeps : t.slots ≠ [] → Keeps t.slots t.shift (Filed t.entries)

section Slots

variable {Ω V : Type} {t : Table Ω V}

theorem SlotsOk.exists_empty (h : SlotsOk t) (hne : t.slots ≠ []) :
    ∃ e < t.slots.length, slotAt t.slots e = 0 := by
  obtain ⟨k, hs⟩ := h.shaped hne
  have := h.load hne
  have := hs.length_pos
  exact (h.keeps hne).exists_empty (by omega) h.bound

/-- A probe over the entries of one hash ends, at an entry `look` accepts or at the empty slot
after all the entries of that hash. -/
theorem SlotsOk.probeEntries {γ : Type} (h : SlotsOk t) (hne : t.slots ≠ []) (hash : Int64)
    (miss : ℕ → γ) (look : ℕ → Bucket Ω V → Option γ) :
    ∃ r, t.probeEntries hash miss look = .ok r ∧
      ((∃ i b, t.entries[i]? = some b ∧ look i b = some r) ∨
        ∃ pos, r = miss pos ∧ Vacant t.slots t.shift (mix hash) pos ∧
          ∀ i b, t.entries[i]? = some b → b.hash = hash → look i b = none) := by
  obtain ⟨k, hs⟩ := h.shaped hne
  have hkeeps := h.keeps hne
  have hn := hs.length_pos
  obtain ⟨e, -, he⟩ := h.exists_empty hne
  classical
  let stops : UInt64 → Prop := fun s => s = 0 ∨ (s ^^^ mix hash ≤ IX_MASK ∧
    ∃ b r, t.entries[lowHalf s - 1]? = some b ∧ look (lowHalf s - 1) b = some r)
  obtain ⟨d, hd, hstop, hmin⟩ := exists_first hn (homeOf t.shift (mix hash)) stops (Or.inl he)
  have hentry : ∀ q, slotAt t.slots q ≠ 0 → ∃ b,
      t.entries[lowHalf (slotAt t.slots q) - 1]? = some b ∧
      getUnchecked t.entries (lowHalf (slotAt t.slots q) - 1) = .ok b := by
    intro q hq
    obtain ⟨b, hb, -⟩ := (hkeeps.slotAt_mem hq).index h.bound
    exact ⟨b, hb, by simp [getUnchecked, hb]⟩
  have hskip : ∀ j < d, (if slotAt t.slots (homeOf t.shift (mix hash) + j) = 0
      then pure (some (miss ((homeOf t.shift (mix hash) + j) % t.slots.length)))
      else if slotAt t.slots (homeOf t.shift (mix hash) + j) ^^^ mix hash ≤ IX_MASK then do
        let b ← getUnchecked t.entries
          (lowHalf (slotAt t.slots (homeOf t.shift (mix hash) + j)) - 1)
        pure (look (lowHalf (slotAt t.slots (homeOf t.shift (mix hash) + j)) - 1) b)
      else pure none : Outcome (Option γ)) = .ok none := by
    intro j hj
    have hns := hmin j hj
    have hz : slotAt t.slots (homeOf t.shift (mix hash) + j) ≠ 0 := fun hz => hns (Or.inl hz)
    rw [if_neg hz]
    split_ifs with hx
    · obtain ⟨b, hb, hg⟩ := hentry _ hz
      rw [hg, ok_bind]
      cases hl : look (lowHalf (slotAt t.slots (homeOf t.shift (mix hash) + j)) - 1) b with
      | none => rfl
      | some r => exact absurd (Or.inr ⟨hx, b, r, hb, hl⟩) hns
    · rfl
  by_cases hz : slotAt t.slots (homeOf t.shift (mix hash) + d) = 0
  · refine ⟨miss ((homeOf t.shift (mix hash) + d) % t.slots.length), ?_, Or.inr
      ⟨_, rfl, ⟨Nat.mod_lt _ hn, by rwa [slotAt_mod], d, hd, rfl, fun j hj hz' =>
        hmin j hj (Or.inl hz')⟩, ?_⟩⟩
    · refine probe_ok hs.length d _ _ (hs.homeOf_lt _) hd hskip ?_
      simp [hz]
      rfl
    · intro i b hb hbh
      by_contra hsome
      obtain ⟨r, hl⟩ := Option.ne_none_iff_exists'.mp hsome
      have hi : i < t.entries.length := (List.getElem?_eq_some_iff.mp hb).1
      have hi32 : i + 1 < 2 ^ 32 := by have := h.bound; omega
      obtain ⟨p, hp, hat, hne0, d', hd', hpd, hwalk⟩ :=
        hkeeps.exists_slot hs ⟨i, b, hb, rfl⟩
      rw [hs.homeOf_slotWord _ hi32, hbh] at hpd hwalk
      have hat' : slotAt t.slots (homeOf t.shift (mix hash) + d') = slotWord (mix hash) i := by
        rw [← slotAt_mod, ← hpd, hat, hbh]
      rcases Nat.lt_trichotomy d' d with hlt | rfl | hgt
      · refine hmin d' hlt (Or.inr ?_)
        rw [hat', lowHalf_slotWord _ hi32]
        refine ⟨?_, b, r, by simpa using hb, by simpa using hl⟩
        rw [xor_le_ixMask, slotWord_toNat _ hi32]
        omega
      · rw [hz] at hat'
        exact slotWord_ne_zero _ hi32 hat'.symm
      · exact hwalk d hgt hz
  · obtain ⟨hx, b, r, hb, hl⟩ := hstop.resolve_left hz
    refine ⟨r, probe_ok hs.length d _ _ (hs.homeOf_lt _) hd hskip ?_, Or.inl ⟨_, b, hb, hl⟩⟩
    obtain ⟨b', hb', hg⟩ := hentry _ hz
    obtain rfl := Option.some.inj (hb.symm.trans hb')
    simp [hz, hx, hg, hl]

/-- What a lookup of hash `hash` and equality `eq` answers: a matching entry, or a miss with the
empty slot a new entry of that hash takes. -/
def Found (t : Table Ω V) (hash : Int64) (eq : Object Ω → Bool) : Except ℕ ℕ → Prop
  | .ok i => ∃ b, t.entries[i]? = some b ∧ b.hash = hash ∧ eq b.key = true
  | .error pos => (∀ b ∈ t.entries, b.hash = hash → eq b.key = false) ∧
      (t.slots ≠ [] → Vacant t.slots t.shift (mix hash) pos)

theorem forall_mem_of_getElem? {α : Type} {l : List α} {P : α → Prop}
    (h : ∀ (i : ℕ) a, l[i]? = some a → P a) : ∀ a ∈ l, P a := by
  intro a ha
  obtain ⟨i, hi⟩ := List.mem_iff_getElem?.mp ha
  exact h i a hi

end Slots

section Lookups

variable {Ω V Q : Type} [Probe Q Ω] {t : Table Ω V}

theorem SlotsOk.findHashed (h : SlotsOk t) (hash : Int64) (key : Q) :
    ∃ r, t.findHashed hash key = .ok r ∧ Found t hash (Probe.probeEq key) r := by
  rw [Table.findHashed]
  split_ifs with hne
  · cases hf : t.entries.findIdx? fun b => b.hash == hash && Probe.probeEq key b.key with
    | none =>
      refine ⟨_, rfl, ?_, fun h => absurd hne h⟩
      intro b hb hbh
      simpa [hbh] using List.findIdx?_eq_none_iff.mp hf b hb
    | some i =>
      obtain ⟨hi, hp, -⟩ := List.findIdx?_eq_some_iff_getElem.mp hf
      refine ⟨_, rfl, t.entries[i], by simp, ?_⟩
      simpa using hp
  · obtain ⟨r, hr, ⟨i, b, hb, hl⟩ | ⟨pos, rfl, hv, hmiss⟩⟩ := h.probeEntries hne hash .error
      fun ix b => if b.hash == hash && Probe.probeEq key b.key then some (Except.ok ix) else none
    · refine ⟨r, hr, ?_⟩
      simp only [Bool.and_eq_true, beq_iff_eq, Option.ite_none_right_eq_some,
        Option.some.injEq] at hl
      obtain ⟨hm, rfl⟩ := hl
      exact ⟨b, hb, hm⟩
    · refine ⟨_, hr, forall_mem_of_getElem? fun i b hb hbh => ?_, fun _ => hv⟩
      simpa [hbh] using hmiss i b hb hbh

/-- A native lookup that decides answers as the general equality does. -/
theorem SlotsOk.findNative (h : SlotsOk t) (hash : Int64) (native : Object Ω → Option Bool)
    (eq : Object Ω → Bool)
    (heq : ∀ b ∈ t.entries, b.hash = hash → ∀ v, native b.key = some v → v = eq b.key) :
    ∃ r, t.findNative hash native = .ok r ∧ ∀ x, r = some x → Found t hash eq x := by
  rw [Table.findNative]
  split_ifs with hne
  · refine ⟨_, rfl, ?_⟩
    have hscan : ∀ (l pre : List (Bucket Ω V)), t.entries = pre ++ l →
        (∀ b ∈ pre, b.hash = hash → eq b.key = false) →
        ∀ x, Table.scanNative hash native l pre.length = some x → Found t hash eq x := by
      intro l
      induction l with
      | nil =>
        rintro pre hpre hmiss x hx
        obtain rfl := Option.some.inj hx
        refine ⟨fun b hb => hmiss b (by simpa [hpre] using hb), fun h => absurd hne h⟩
      | cons b l ih =>
        intro pre hpre hmiss x hx
        have hb : b ∈ t.entries := by simp [hpre]
        have hnext := ih (pre ++ [b]) (by simp [hpre])
        rw [List.length_append, List.length_singleton] at hnext
        rw [Table.scanNative] at hx
        split_ifs at hx with hbh
        · cases hn : native b.key with
          | none => rw [hn] at hx; cases hx
          | some v =>
            have hv := heq b hb hbh v hn
            cases v with
            | true =>
              rw [hn] at hx
              obtain rfl := Option.some.inj hx
              exact ⟨b, by simp [hpre], hbh, hv.symm⟩
            | false =>
              rw [hn] at hx
              refine hnext (fun c hc => ?_) x hx
              rcases List.mem_append.mp hc with hc | hc
              · exact hmiss c hc
              · rw [List.mem_singleton.mp hc]
                exact fun _ => hv.symm
        · refine hnext (fun c hc => ?_) x hx
          rcases List.mem_append.mp hc with hc | hc
          · exact hmiss c hc
          · rw [List.mem_singleton.mp hc]
            exact fun h => absurd h hbh
    exact hscan t.entries [] rfl (by simp)
  · refine (h.probeEntries hne hash _ _).imp fun r hr => ⟨hr.1, ?_⟩
    obtain ⟨-, ⟨i, b, hb, hl⟩ | ⟨pos, rfl, hv, hmiss⟩⟩ := hr
    · rintro x rfl
      split_ifs at hl with hbh
      cases hn : native b.key with
      | none => rw [hn] at hl; cases hl
      | some v =>
        cases v with
        | true =>
          rw [hn] at hl
          simp only [Option.some.injEq] at hl
          subst hl
          exact ⟨b, hb, hbh, (heq b (List.mem_of_getElem? hb) hbh _ hn).symm⟩
        | false => rw [hn] at hl; cases hl
    · rintro x hx
      obtain rfl := Option.some.inj hx
      refine ⟨forall_mem_of_getElem? fun i b hb hbh => ?_, fun _ => hv⟩
      have hnone := hmiss i b hb hbh
      rw [if_pos hbh] at hnone
      cases hn : native b.key with
      | none => rw [hn] at hnone; cases hnone
      | some v =>
        cases v with
        | true => rw [hn] at hnone; cases hnone
        | false => exact (heq b (List.mem_of_getElem? hb) hbh _ hn).symm

variable [KeyOps Ω]

theorem strNativeEq_agrees (s : SharedStr) (k : Object Ω) (v : Bool)
    (h : strNativeEq s k = some v) : v = dictKeyEq (.str s) k := by
  cases k with
  | str b => exact (Option.some.inj h).symm
  | wstr _ => cases h
  | int _ => cases h
  | other _ => cases h

theorem intNativeEq_agrees (i : Int64) (k : Object Ω) (v : Bool)
    (h : intNativeEq i k = some v) : v = dictKeyEq (.int i) k := by
  cases k with
  | int j => exact (Option.some.inj h).symm.trans (Bool.beq_comm ..)
  | str _ => cases h
  | wstr _ => cases h
  | other _ => cases h

/-- The native lookup of a key, when it decides, gives the key's Python hash and the answer of
the general lookup. -/
theorem SlotsOk.findObjectHashing (h : SlotsOk t) (key : Object Ω) :
    ∃ r, t.findObjectHashing key = .ok r ∧
      ∀ hash x, r = some (hash, x) → hash = dictKeyHash key ∧ Found t hash (dictKeyEq key) x := by
  have hnone : ∀ (hash : Int64) (x : Except ℕ ℕ), (none : Option (Int64 × Except ℕ ℕ)) =
      some (hash, x) → hash = dictKeyHash key ∧ Found t hash (dictKeyEq key) x := by simp
  cases key with
  | str s =>
    rw [Table.findObjectHashing, Table.findObjectNative, knownHash]
    split_ifs with hk
    · obtain ⟨r, hr, hfound⟩ := h.findNative (KeyOps.pyStrHash Ω s.bytes)
        (strNativeEq { s with hashed := true }) (dictKeyEq (.str s)) fun b _ _ v hv => strNativeEq_agrees _ b.key v hv
      refine ⟨_, by simp only [hr, ok_bind]; rfl, ?_⟩
      intro hash x hx
      obtain ⟨y, rfl, hy⟩ := Option.map_eq_some_iff.mp hx
      obtain ⟨rfl, rfl⟩ := Prod.mk.inj hy
      exact ⟨rfl, hfound y rfl⟩
    · exact ⟨none, rfl, hnone⟩
  | int i =>
    rw [Table.findObjectHashing, Table.findObjectNative]
    · split_ifs with hi
      · obtain ⟨r, hr, hfound⟩ := h.findNative i (intNativeEq i) (dictKeyEq (.int i))
          fun b _ _ v hv => intNativeEq_agrees i b.key v hv
        refine ⟨_, by rw [hr]; rfl, ?_⟩
        intro hash x hx
        obtain ⟨y, rfl, hy⟩ := Option.map_eq_some_iff.mp hx
        obtain ⟨rfl, rfl⟩ := Prod.mk.inj hy
        exact ⟨(pyHashLongI64_of_lt hi).symm, hfound y rfl⟩
      · exact ⟨none, rfl, hnone⟩
    · simp
  | wstr cps => exact ⟨none, rfl, hnone⟩
  | other o => exact ⟨none, rfl, hnone⟩

end Lookups

end WeavePy.DictMap
