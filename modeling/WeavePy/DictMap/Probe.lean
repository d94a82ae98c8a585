import WeavePy.Lib.LinearProbing
import WeavePy.DictMap.Table

namespace WeavePy.DictMap

open Lib.LinearProbing

/-- The slot array as an unrolled circular table; a zero word is an empty slot. -/
def view (slots : List UInt64) (q : ℤ) : Option UInt64 :=
  let s := slots.getD (q % slots.length).toNat 0
  if s = 0 then none else some s

/-- The word met at step `q` of a walk that wraps around. -/
def slotAt (slots : List UInt64) (q : ℕ) : UInt64 := slots.getD (q % slots.length) 0

/-- The geometry of a non-empty slot array. -/
structure Shaped (slots : List UInt64) (shift : ℕ) (k : ℕ) : Prop where
  large : 4 ≤ k
  small : k ≤ 32
  length : slots.length = 2 ^ k
  shift : shift = 64 - k

/-- Slot `p` is reached from slot `h` over occupied slots. -/
def Walked (slots : List UInt64) (h p : ℕ) : Prop :=
  ∃ d < slots.length, p = (h + d) % slots.length ∧ ∀ j < d, slotAt slots (h + j) ≠ 0

variable {slots : List UInt64} {shift k : ℕ}

theorem Shaped.length_pos (hs : Shaped slots shift k) : 0 < slots.length := by
  rw [hs.length]
  exact Nat.two_pow_pos k

theorem Shaped.sixteen_le (hs : Shaped slots shift k) : 16 ≤ slots.length := by
  rw [hs.length]
  change 2 ^ 4 ≤ 2 ^ k
  exact Nat.pow_le_pow_right (by norm_num) hs.large

theorem Shaped.le_two_pow (hs : Shaped slots shift k) : slots.length ≤ 2 ^ 32 := by
  rw [hs.length]
  exact Nat.pow_le_pow_right (by norm_num) hs.small

theorem Shaped.set (hs : Shaped slots shift k) (p : ℕ) (s : UInt64) :
    Shaped (slots.set p s) shift k :=
  ⟨hs.large, hs.small, by rw [List.length_set, hs.length], hs.shift⟩

theorem Shaped.homeOf_lt (hs : Shaped slots shift k) (m : UInt64) :
    homeOf shift m < slots.length := by
  have hk := hs.small
  rw [homeOf_eq, hs.length, hs.shift, Nat.div_lt_iff_lt_mul (Nat.two_pow_pos _), ← pow_add,
    show k + (64 - k) = 64 by omega]
  exact m.toNat_lt

theorem Shaped.homeOf_slotWord (hs : Shaped slots shift k) (m : UInt64) {i : ℕ}
    (hi : i + 1 < 2 ^ 32) : homeOf shift (slotWord m i) = homeOf shift m := by
  have hk := hs.small
  have hshift := hs.shift
  exact DictMap.homeOf_slotWord m hi (by omega)

theorem slotAt_of_lt {p : ℕ} (hp : p < slots.length) : slotAt slots p = slots[p] := by
  simp [slotAt, Nat.mod_eq_of_lt hp, hp]

theorem slotAt_mod (q : ℕ) : slotAt slots (q % slots.length) = slotAt slots q := by
  simp [slotAt]

theorem view_natCast (q : ℕ) :
    view slots q = if slotAt slots q = 0 then none else some (slotAt slots q) := by
  simp only [view, slotAt]
  norm_cast

theorem view_periodic : Function.Periodic (view slots) slots.length := by
  intro q
  simp [view]

theorem view_eq_none {q : ℕ} : view slots q = none ↔ slotAt slots q = 0 := by
  simp [view_natCast]

theorem view_eq_some {q : ℕ} {s : UInt64} :
    view slots q = some s ↔ slotAt slots q = s ∧ s ≠ 0 := by
  rw [view_natCast]
  by_cases h : slotAt slots q = 0
  · rw [if_pos h]
    constructor
    · simp
    · rintro ⟨rfl, hne⟩
      exact absurd h hne
  · rw [if_neg h, Option.some.injEq]
    constructor
    · rintro rfl
      exact ⟨rfl, h⟩
    · exact fun hq => hq.1

theorem exists_natCast (hn : 0 < slots.length) (q : ℤ) :
    ∃ p < slots.length, view slots q = view slots p ∧ (slots.length : ℤ) ∣ (p : ℤ) - q := by
  have hpos : (0 : ℤ) < slots.length := by exact_mod_cast hn
  have hnn := Int.emod_nonneg q hpos.ne'
  have hlt := Int.emod_lt_of_pos q hpos
  refine ⟨(q % slots.length).toNat, by omega, ?_, ?_⟩
  · rw [Int.toNat_of_nonneg hnn]
    simp [view]
  · rw [Int.toNat_of_nonneg hnn]
    exact ⟨-(q / slots.length), by have := Int.emod_add_mul_ediv q slots.length; linarith⟩

theorem view_set {p : ℕ} (s : UInt64) (hp : p < slots.length) :
    view (slots.set p s) = put slots.length (view slots) p (if s = 0 then none else some s) := by
  funext q
  have hn : 0 < slots.length := by omega
  obtain ⟨r, hr, hv, hd⟩ := exists_natCast hn q
  obtain ⟨r', hr', hv', hd'⟩ := exists_natCast (by simpa using hn : 0 < (slots.set p s).length) q
  rw [List.length_set] at hr' hd'
  have hrr : r' = r := by
    have hdiff : (slots.length : ℤ) ∣ (r' : ℤ) - r := by simpa using dvd_sub hd' hd
    rcases lt_trichotomy r' r with hlt | heq | hgt
    · exact absurd (by simpa using dvd_neg.mpr hdiff)
        (not_dvd_of_window (n := slots.length) (p := r') (q := r) (by omega) (by omega))
    · exact heq
    · exact absurd hdiff
        (not_dvd_of_window (n := slots.length) (p := r) (q := r') (by omega) (by omega))
  subst hrr
  by_cases hpr : r' = p
  · subst hpr
    rw [hv', put_dvd _ (by simpa using dvd_neg.mpr hd), view_natCast, slotAt_of_lt (by simpa),
      List.getElem_set_self]
  · have hnd : ¬ (slots.length : ℤ) ∣ q - p := by
      intro h
      have hdiff : (slots.length : ℤ) ∣ (r' : ℤ) - p := by simpa using dvd_add hd h
      rcases lt_or_gt_of_ne hpr with hlt | hgt
      · exact absurd (by simpa using dvd_neg.mpr hdiff)
          (not_dvd_of_window (n := slots.length) (p := r') (q := p) (by omega) (by omega))
      · exact absurd hdiff
          (not_dvd_of_window (n := slots.length) (p := p) (q := r') (by omega) (by omega))
    rw [put_not_dvd _ hnd, hv', hv, view_natCast, view_natCast, slotAt_of_lt (by simpa),
      slotAt_of_lt hr', List.getElem_set_ne (Ne.symm hpr)]

theorem view_map {f : UInt64 → UInt64} (hn : 0 < slots.length) (h0 : f 0 = 0)
    (hne : ∀ s ∈ slots, s ≠ 0 → f s ≠ 0) :
    view (slots.map f) = fun q => (view slots q).map f := by
  funext q
  have hpos : (0 : ℤ) < slots.length := by exact_mod_cast hn
  have hnn := Int.emod_nonneg q hpos.ne'
  have hlt := Int.emod_lt_of_pos q hpos
  have hb : (q % slots.length).toNat < slots.length := by omega
  simp only [view, List.length_map, List.getD_eq_getElem?_getD, List.getElem?_map,
    List.getElem?_eq_getElem hb, Option.map_some, Option.getD_some]
  by_cases hz : slots[(q % slots.length).toNat] = 0
  · simp [hz, h0]
  · simp [hz, hne _ (List.getElem_mem hb) hz]

theorem reaches_iff_walked (hs : Shaped slots shift k) {a : UInt64} {p : ℕ}
    (hp : p < slots.length) :
    Reaches slots.length (fun s => (homeOf shift s : ℤ)) (view slots) a p ↔
      Walked slots (homeOf shift a) p := by
  have hn := hs.length_pos
  constructor
  · rintro ⟨h, h₁, h₂, ⟨c, hc⟩, h₄⟩
    refine ⟨(p - h).toNat, by omega, ?_, ?_⟩
    · have he : ((homeOf shift a + (p - h).toNat : ℕ) : ℤ) = p - slots.length * c := by
        push_cast
        rw [Int.toNat_of_nonneg (by omega)]
        linarith
      have hm : (((homeOf shift a + (p - h).toNat) % slots.length : ℕ) : ℤ) = p := by
        push_cast at he ⊢
        rw [he, Int.sub_mul_emod_self_left]
        exact Int.emod_eq_of_lt (by omega) (by exact_mod_cast hp)
      exact_mod_cast hm.symm
    · intro j hj hz
      have hne := h₄ (h + j) (by omega) (by omega)
      have he : view slots (h + j) = view slots ((homeOf shift a + j : ℕ) : ℤ) :=
        periodic_of_dvd view_periodic ⟨c, by push_cast; linarith⟩
      rw [he, view_eq_none.mpr hz] at hne
      exact hne rfl
  · rintro ⟨d, hd, hp', hwalk⟩
    have hdvd : (slots.length : ℤ) ∣ (homeOf shift a + d : ℕ) - (p : ℤ) :=
      ⟨((homeOf shift a + d) / slots.length : ℕ), by
        rw [hp']; have := Nat.div_add_mod (homeOf shift a + d) slots.length; push_cast; zify at this
        linarith⟩
    refine ⟨p - d, by omega, by omega, ?_, ?_⟩
    · rw [show (p : ℤ) - d - homeOf shift a = -((homeOf shift a + d : ℕ) - (p : ℤ)) by
        push_cast; ring]
      exact dvd_neg.mpr hdvd
    · intro q hq hq'
      obtain ⟨j, hj⟩ : ∃ j : ℕ, q = p - d + j := ⟨(q - (p - d)).toNat, by omega⟩
      have he : view slots q = view slots ((homeOf shift a + j : ℕ) : ℤ) := by
        apply periodic_of_dvd view_periodic
        rw [hj, show (p : ℤ) - d + j - (homeOf shift a + j : ℕ) =
          -((homeOf shift a + d : ℕ) - (p : ℤ)) by push_cast; ring]
        exact dvd_neg.mpr hdvd
      rw [he, Ne, view_eq_none]
      exact hwalk j (by omega)

section Loops

variable {β : Type} {visit : ℕ → UInt64 → Outcome (Option β)}

theorem nextPos_eq (hs : slots.length = 2 ^ k) (p : ℕ) :
    nextPos slots p = (p + 1) % slots.length := by
  rw [DictMap.nextPos, hs, Nat.and_two_pow_sub_one_eq_mod]

/-- A probe whose visits pass over `d` slots and answer at the next one returns that answer. -/
theorem probe_ok (hs : slots.length = 2 ^ k) {r : β} (d pos fuel : ℕ) (hpos : pos < slots.length)
    (hfuel : d < fuel)
    (hskip : ∀ j < d, visit ((pos + j) % slots.length) (slotAt slots (pos + j)) = .ok none)
    (hstop : visit ((pos + d) % slots.length) (slotAt slots (pos + d)) = .ok (some r)) :
    probe slots visit fuel pos = .ok r := by
  induction d generalizing pos fuel with
  | zero =>
    obtain ⟨fuel, rfl⟩ : ∃ f, fuel = f + 1 := ⟨fuel - 1, by omega⟩
    rw [Nat.add_zero, Nat.mod_eq_of_lt hpos, slotAt_of_lt hpos] at hstop
    simp [probe, getUnchecked_ok hpos, hstop]
    rfl
  | succ d ih =>
    obtain ⟨fuel, rfl⟩ : ∃ f, fuel = f + 1 := ⟨fuel - 1, by omega⟩
    have h0 := hskip 0 (by omega)
    rw [Nat.add_zero, Nat.mod_eq_of_lt hpos, slotAt_of_lt hpos] at h0
    have hn : 0 < slots.length := by omega
    have hmod : ∀ j, ((pos + 1) % slots.length + j) % slots.length =
        (pos + (j + 1)) % slots.length := by
      intro j
      rw [Nat.mod_add_mod, show pos + 1 + j = pos + (j + 1) by omega]
    have hat : ∀ j, slotAt slots ((pos + 1) % slots.length + j) = slotAt slots (pos + (j + 1)) := by
      intro j
      rw [← slotAt_mod, hmod, slotAt_mod]
    simp only [probe, getUnchecked_ok hpos, ok_bind, h0]
    rw [nextPos_eq hs]
    apply ih _ _ (Nat.mod_lt _ hn) (by omega)
    · intro j hj
      rw [hmod, hat]
      exact hskip (j + 1) (by omega)
    · rw [hmod, hat]
      exact hstop

/-- The first slot of a turn from `h` that satisfies a predicate some slot satisfies. -/
theorem exists_first (hn : 0 < slots.length) (h : ℕ) (P : UInt64 → Prop) [DecidablePred P]
    {q : ℕ} (hq : P (slotAt slots q)) :
    ∃ d < slots.length, P (slotAt slots (h + d)) ∧ ∀ j < d, ¬ P (slotAt slots (h + j)) := by
  have hex : ∃ d, d < slots.length ∧ P (slotAt slots (h + d)) := by
    refine ⟨(q + (slots.length - h % slots.length)) % slots.length, Nat.mod_lt _ hn, ?_⟩
    have hlt := Nat.mod_lt h hn
    have he : (h + (q + (slots.length - h % slots.length)) % slots.length) % slots.length =
        q % slots.length := by
      rw [Nat.add_mod_mod]
      have := Nat.div_add_mod h slots.length
      rw [show h + (q + (slots.length - h % slots.length)) =
        q + slots.length * (h / slots.length + 1) by rw [Nat.mul_add]; omega]
      exact Nat.add_mul_mod_self_left _ _ _
    rw [← slotAt_mod, he, slotAt_mod]
    exact hq
  refine ⟨Nat.find hex, (Nat.find_spec hex).1, (Nat.find_spec hex).2, fun j hj hp => ?_⟩
  exact Nat.find_min hex hj ⟨by have := (Nat.find_spec hex).1; omega, hp⟩

/-- The empty slot a probe from the home of `m` ends at. -/
def Vacant (slots : List UInt64) (shift : ℕ) (m : UInt64) (pos : ℕ) : Prop :=
  pos < slots.length ∧ slotAt slots pos = 0 ∧ Walked slots (homeOf shift m) pos

theorem vacantSlot_ok (hs : Shaped slots shift k) (m : UInt64) {e : ℕ} (he : slotAt slots e = 0) :
    ∃ pos, vacantSlot slots shift m = .ok pos ∧ Vacant slots shift m pos := by
  have hn := hs.length_pos
  obtain ⟨d, hd, hz, hmin⟩ := exists_first hn (homeOf shift m) (· = 0) he
  refine ⟨(homeOf shift m + d) % slots.length, ?_, Nat.mod_lt _ hn, by rwa [slotAt_mod],
    d, hd, rfl, hmin⟩
  exact probe_ok hs.length d _ _ (hs.homeOf_lt m) hd (fun j hj => by simp [hmin j hj]; rfl)
    (by simp [hz]; rfl)

end Loops

end WeavePy.DictMap
