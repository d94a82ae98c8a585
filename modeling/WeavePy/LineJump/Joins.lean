import WeavePy.LineJump.Analysis

/-!
Joining kind stacks moves down: an iterator becomes an object, or the stack is given up.
-/

namespace WeavePy.LineJump

variable {a b w stack old : Word} {kind : Kind} {n k : ℕ} {checks : Bool} {js : List Word}

/-- No entry of the word is six, as the last one of the unreached mark is. -/
def Sound (w : Word) : Prop :=
  ∀ k < 21, ¬(w.getLsbD (3 * k) = false ∧ w.getLsbD (3 * k + 1) = true ∧
    w.getLsbD (3 * k + 2) = true)

theorem Sound.ne_uninitialized (h : Sound w) : w ≠ UNINITIALIZED := by
  rintro rfl
  exact h 0 (by decide) (by decide)

theorem sound_overflowed : Sound OVERFLOWED := by
  rintro k hk ⟨h, -⟩
  rw [show OVERFLOWED = BitVec.allOnes 64 from rfl, BitVec.getLsbD_allOnes,
    decide_eq_true (show 3 * k < 64 by omega)] at h
  cases h

theorem sound_empty : Sound EMPTY_STACK := by
  rintro k hk ⟨-, h, -⟩
  simp [EMPTY_STACK] at h

theorem popKind_getLsbD (h : k + 3 < 64) : (popKind w).getLsbD k = w.getLsbD (k + 3) := by
  rw [popKind, BitVec.getLsbD_sshiftRight, decide_eq_false (show ¬64 ≤ k by omega), Bool.not_false,
    Bool.true_and, if_pos (show BITS_PER_BLOCK + k < 64 by rw [BITS_PER_BLOCK]; omega),
    BITS_PER_BLOCK, Nat.add_comm]

theorem popKind_getLsbD_top (h : 61 ≤ k) (hk : k < 64) : (popKind w).getLsbD k = w.msb := by
  rw [popKind, BitVec.getLsbD_sshiftRight, decide_eq_false (show ¬64 ≤ k by omega), Bool.not_false,
    Bool.true_and, if_neg (show ¬BITS_PER_BLOCK + k < 64 by rw [BITS_PER_BLOCK]; omega)]

theorem Sound.pop (h : Sound w) : Sound (popKind w) := by
  rintro k hk ⟨h0, h1, h2⟩
  by_cases hlast : k = 20
  · rw [popKind_getLsbD (by omega), hlast] at h0
    rw [popKind_getLsbD_top (by omega) (by omega), BitVec.msb_eq_getLsbD_last] at h1
    exact Bool.false_ne_true (h0.symm.trans h1)
  · rw [popKind_getLsbD (by omega)] at h0 h1 h2
    exact h (k + 1) (by omega) ⟨h0, h1, h2⟩

theorem word_lt : kind.word.toNat < 8 := by
  cases kind <;> decide

theorem word_getLsbD : kind.word.getLsbD (k + 3) = false := by
  rw [← BitVec.testBit_toNat]
  apply Nat.testBit_lt_two_pow
  calc kind.word.toNat < 2 ^ 3 := word_lt
    _ ≤ 2 ^ (k + 3) := Nat.pow_le_pow_right (by omega) (by omega)

theorem word_sound : ¬(kind.word.getLsbD 0 = false ∧ kind.word.getLsbD 1 = true ∧
    kind.word.getLsbD 2 = true) := by
  cases kind <;> decide

theorem pushed_getLsbD (h : k + 3 < 64) :
    ((w <<< BITS_PER_BLOCK) ||| kind.word).getLsbD (k + 3) = w.getLsbD k := by
  rw [BitVec.getLsbD_or, word_getLsbD, Bool.or_false, BitVec.getLsbD_shiftLeft, decide_eq_true h,
    decide_eq_false (show ¬k + 3 < BITS_PER_BLOCK by rw [BITS_PER_BLOCK]; omega)]
  rfl

theorem pushed_getLsbD_low (h : k < 3) :
    ((w <<< BITS_PER_BLOCK) ||| kind.word).getLsbD k = kind.word.getLsbD k := by
  rw [BitVec.getLsbD_or, BitVec.getLsbD_shiftLeft, decide_eq_true (show k < BITS_PER_BLOCK from h),
    Bool.not_true, Bool.and_false, Bool.false_and, Bool.false_or]

theorem Sound.push (h : Sound w) : Sound (pushKind w kind) := by
  rw [pushKind]
  split_ifs
  · exact sound_overflowed
  · rintro k hk ⟨h0, h1, h2⟩
    cases k with
    | zero =>
      rw [pushed_getLsbD_low (by omega)] at h0 h1 h2
      exact word_sound ⟨h0, h1, h2⟩
    | succ k =>
      rw [show 3 * (k + 1) = 3 * k + 3 by ring, pushed_getLsbD (by omega)] at h0
      rw [show 3 * (k + 1) + 1 = 3 * k + 1 + 3 by ring, pushed_getLsbD (by omega)] at h1
      rw [show 3 * (k + 1) + 2 = 3 * k + 2 + 3 by ring, pushed_getLsbD (by omega)] at h2
      exact h k (by omega) ⟨h0, h1, h2⟩

theorem mask_getLsbD : MASK.getLsbD k = decide (k < 3) := by
  rw [← BitVec.testBit_toNat]
  exact Nat.testBit_two_pow_sub_one 3 k

/-- The word with the entry at `shift` and the one on top exchanged. -/
def swapped (stack : Word) (shift : ℕ) : Word :=
  ((((stack &&& ~~~(MASK <<< shift)) ||| (topKind stack <<< shift)) &&& ~~~MASK) |||
    (stack.sshiftRight shift &&& MASK))

theorem swapped_getLsbD (shift : ℕ) (hk : k < 64) : (swapped stack shift).getLsbD k =
    if k < 3 then (if shift + k < 64 then stack.getLsbD (shift + k) else stack.msb)
    else if shift ≤ k ∧ k < shift + 3 then stack.getLsbD (k - shift) else stack.getLsbD k := by
  have hlow : k - shift < 3 ↔ k < shift + 3 := by omega
  simp only [swapped, topKind, BitVec.getLsbD_or, BitVec.getLsbD_and, BitVec.getLsbD_not,
    BitVec.getLsbD_shiftLeft, BitVec.getLsbD_sshiftRight, mask_getLsbD, hk, decide_true,
    Bool.true_and, show ¬64 ≤ k by omega, decide_false, Bool.not_false]
  by_cases hk3 : k < 3
  · simp [hk3]
  · by_cases hs : shift ≤ k
    · by_cases hi : k < shift + 3
      · simp [hk3, hs, hi, hlow, show ¬k < shift by omega]
      · simp [hk3, hs, hi, hlow, show ¬k < shift by omega]
    · simp [hk3, hs, show k < shift by omega]

theorem Sound.swap (h : Sound stack) {m : ℕ} (hm : 1 ≤ m) (hm' : m ≤ 21) :
    Sound (swapped stack (3 * m)) := by
  rintro k hk ⟨h0, h1, h2⟩
  rw [swapped_getLsbD _ (by omega)] at h0 h1 h2
  cases k with
  | zero =>
    by_cases hlast : m = 21
    · subst hlast
      simp only [Nat.mul_zero, zero_add] at h0 h1
      rw [if_pos (by omega), if_pos (by omega)] at h0
      rw [if_pos (by omega), if_neg (by omega), BitVec.msb_eq_getLsbD_last] at h1
      exact Bool.false_ne_true (h0.symm.trans h1)
    · rw [if_pos (by omega), if_pos (by omega)] at h0 h1 h2
      exact h m (by omega) ⟨h0, h1, h2⟩
  | succ k =>
    rw [if_neg (by omega)] at h0 h1 h2
    by_cases hkm : k + 1 = m
    · subst hkm
      rw [if_pos (by omega)] at h0 h1 h2
      exact h 0 (by omega) ⟨by convert h0 using 2; omega, by convert h1 using 2; omega,
        by convert h2 using 2; omega⟩
    · rw [if_neg (by omega)] at h0 h1 h2
      exact h (k + 1) hk ⟨h0, h1, h2⟩

theorem swapKinds_ok (h : Sound stack) (hn : n ≤ 22) :
    ∃ out, swapKinds checks stack n = .ok out ∧ Sound out := by
  rw [swapKinds]
  split_ifs with h2
  · exact ⟨stack, rfl, h⟩
  · have hshift : shiftAmount checks (BITS_PER_BLOCK * (n - 1)) = .ok (3 * (n - 1)) :=
      if_pos (by rw [BITS_PER_BLOCK]; omega)
    exact ⟨swapped stack (3 * (n - 1)), by rw [peekKind, hshift]; rfl,
      h.swap (by omega) (by omega)⟩

theorem pushed_toNat (h : w.toNat < 2 ^ 60) :
    ((w <<< BITS_PER_BLOCK) ||| kind.word).toNat = 8 * w.toNat + kind.word.toNat := by
  have hshift : (w <<< BITS_PER_BLOCK).toNat = 2 ^ 3 * w.toNat := by
    rw [BitVec.toNat_shiftLeft, BITS_PER_BLOCK, Nat.shiftLeft_eq, Nat.mod_eq_of_lt (by omega)]
    ring
  rw [BitVec.toNat_or, hshift, ← Nat.two_pow_add_eq_or_of_lt word_lt]

theorem word_pos : 0 < kind.word.toNat := by
  cases kind <;> decide

theorem pushKind_slots (h0 : 0 ≤ w.toInt) (h : w.toNat < 2 ^ 60) :
    0 ≤ (pushKind w kind).toInt ∧ (pushKind w kind).toNat = 8 * w.toNat + kind.word.toNat ∧
      slots (pushKind w kind) = kind.word :: slots w := by
  have hpush : pushKind w kind = (w <<< BITS_PER_BLOCK) ||| kind.word := by
    rw [pushKind, if_neg]
    rw [not_or]
    exact ⟨not_lt.mpr h0, not_le.mpr h⟩
  have hnat := @pushed_toNat w kind h
  rw [← hpush] at hnat
  have hword := @word_lt kind
  have hpos := @word_pos kind
  have hint : 0 ≤ (pushKind w kind).toInt := toInt_nonneg (by omega)
  refine ⟨hint, hnat, ?_⟩
  rw [slots_eq hint (by rintro hz; rw [hz] at hnat; simp at hnat; omega)]
  congr 1
  · apply BitVec.eq_of_toNat_eq
    rw [topKind_toNat, hnat]
    omega
  · congr 1
    apply BitVec.eq_of_toNat_eq
    rw [popKind_toNat hint, hnat]
    omega

/-- The stack rebuilt from at most as many entries as fit. -/
theorem rebuild_ok (h : js.length ≤ 21) :
    let out := js.reverse.foldl (fun out k => pushKind out (kindOf k)) EMPTY_STACK
    0 ≤ out.toInt ∧ out.toNat < 8 ^ js.length ∧ slots out = js.map fun k => (kindOf k).word := by
  rw [List.foldl_reverse]
  induction js with
  | nil => exact ⟨by decide, by decide, rfl⟩
  | cons j js ih =>
    rw [List.length_cons] at h
    obtain ⟨hpos, hlt, hslots⟩ := ih (by omega)
    have hsmall : (js.foldr (fun k out => pushKind out (kindOf k)) EMPTY_STACK).toNat < 2 ^ 60 := by
      apply hlt.trans_le
      calc 8 ^ js.length ≤ 8 ^ 20 := Nat.pow_le_pow_right (by omega) (by omega)
        _ = 2 ^ 60 := by norm_num
    obtain ⟨hpos', hnat, hslots'⟩ := @pushKind_slots _ (kindOf j) hpos hsmall
    have hword := @word_lt (kindOf j)
    refine ⟨hpos', ?_, ?_⟩
    · rw [List.foldr_cons, hnat, List.length_cons, pow_succ]
      omega
    · rw [List.foldr_cons, hslots', hslots, List.map_cons]

theorem rebuild_sound : Sound (js.reverse.foldl (fun out k => pushKind out (kindOf k)) EMPTY_STACK) := by
  rw [List.foldl_reverse]
  induction js with
  | nil => exact sound_empty
  | cons j js ih => exact ih.push

theorem kindOf_word (k : Word) : (kindOf k).word = k ∨ (kindOf k).word = Kind.Object.word := by
  rw [kindOf]
  split_ifs with h1 h2 h3 h4
  · exact .inl h1.symm
  · exact .inl h2.symm
  · exact .inl h3.symm
  · exact .inl h4.symm
  · exact .inr rfl

theorem joinKind_some {j : Word} (h : joinKind a b = some j) : j = a ∨ j = Kind.Object.word := by
  rw [joinKind] at h
  split_ifs at h
  · exact .inl (Option.some.inj h).symm
  · exact .inr (Option.some.inj h).symm

theorem joinLoop_ok (ha : 0 ≤ a.toInt) (hn : (slots a).length < n) :
    ∃ r, joinLoop n a b = .ok r ∧ ∀ js, r = some js →
      List.Forall₂ (fun s j => j = s ∨ j = Kind.Object.word) (slots a) js := by
  induction n generalizing a b with
  | zero => omega
  | succ n ih =>
    rw [joinLoop]
    by_cases h0 : a = 0
    · subst h0
      exact ⟨some [], rfl, fun js h => by obtain rfl := Option.some.inj h; exact .nil⟩
    · rw [slots_eq ha h0, List.length_cons] at hn
      rw [if_pos h0]
      cases hj : joinKind (topKind a) (topKind b) with
      | none => exact ⟨none, rfl, by rintro js h; cases h⟩
      | some j =>
        obtain ⟨r, hr, hall⟩ := ih (b := popKind b) (popKind_nonneg ha) (by omega)
        refine ⟨r.map (j :: ·), by dsimp only; rw [hr]; rfl, ?_⟩
        intro js h
        obtain ⟨rest, hrest, rfl⟩ := Option.map_eq_some_iff.mp h
        rw [slots_eq ha h0]
        exact .cons (joinKind_some hj) (hall rest hrest)

/-- The join gives the stack up, or turns some of the first stack's entries to objects. -/
theorem joinStacks_ok : ∃ out, joinStacks a b = .ok out ∧ Sound out ∧
    (out = OVERFLOWED ∨ 0 ≤ a.toInt ∧ 0 ≤ out.toInt ∧
      List.Forall₂ (fun s r => r = s ∨ r = Kind.Object.word) (slots a) (slots out)) := by
  rw [joinStacks]
  split_ifs with hneg
  · exact ⟨_, rfl, sound_overflowed, .inl rfl⟩
  · rw [not_or, not_lt, not_lt] at hneg
    rw [stackDepth_ok hneg.1, stackDepth_ok hneg.2, ok_bind, ok_bind]
    by_cases hlen : (slots a).length = (slots b).length
    · rw [if_neg (not_not.mpr hlen)]
      have hmany := slots_length hneg.1
      obtain ⟨r, hr, hall⟩ := joinLoop_ok (b := b) (n := popFuel) hneg.1 (by rw [popFuel]; omega)
      rw [hr, ok_bind]
      cases r with
      | none => exact ⟨_, rfl, sound_overflowed, .inl rfl⟩
      | some js =>
        have hfit := hall js rfl
        obtain ⟨hpos, -, hslots⟩ := @rebuild_ok js (by rw [← hfit.length_eq]; exact hmany)
        refine ⟨_, rfl, rebuild_sound, .inr ⟨hneg.1, hpos, ?_⟩⟩
        rw [hslots, List.forall₂_map_right_iff]
        apply hfit.imp
        intro s j hj
        rcases kindOf_word j with hk | hk
        · rw [hk]
          exact hj
        · exact .inr hk
    · rw [if_pos hlen]
      exact ⟨_, rfl, sound_overflowed, .inl rfl⟩

theorem ofDigits_slots : Nat.ofDigits 8 ((slots w).map BitVec.toNat) = w.toNat := by
  have hmap : (slots w).map BitVec.toNat = Nat.digits 8 w.toNat := by
    rw [slots, List.map_map]
    rw [List.map_congr_left (g := id), List.map_id]
    intro d hd
    have hlt := Nat.digits_lt_base (by omega) hd
    simp only [Function.comp_apply, BitVec.toNat_ofNat, id]
    omega
  rw [hmap, Nat.ofDigits_digits]

theorem eq_of_slots_eq (h : slots a = slots b) : a = b := by
  apply BitVec.eq_of_toNat_eq
  rw [← ofDigits_slots, h, ofDigits_slots]

/-- Turning entries to objects leaves fewer that are not, or nothing is changed. -/
theorem countP_lt_or_eq {l r : List Word}
    (h : List.Forall₂ (fun s r => r = s ∨ r = Kind.Object.word) l r) :
    r.countP (· ≠ Kind.Object.word) < l.countP (· ≠ Kind.Object.word) ∨ r = l := by
  induction h with
  | nil => exact .inr rfl
  | @cons s t l r hst _ ih =>
    simp only [List.countP_cons]
    rcases hst with rfl | rfl
    · rcases ih with hlt | rfl
      · exact .inl (by omega)
      · exact .inr rfl
    · by_cases hs : s = Kind.Object.word
      · subst hs
        rcases ih with hlt | rfl
        · exact .inl (by omega)
        · exact .inr rfl
      · left
        rw [if_neg (by simp), if_pos (by simpa using hs)]
        rcases ih with hlt | rfl
        · omega
        · omega

/-- How many more times the word at an offset can change. -/
def wordRank (w : Word) : ℕ :=
  if w = UNINITIALIZED then 24
  else if w = OVERFLOWED then 0
  else if w.toInt < 0 then 1
  else 2 + (slots w).countP (· ≠ Kind.Object.word)

theorem wordRank_lt (h : w ≠ UNINITIALIZED) : wordRank w < 24 := by
  rw [wordRank, if_neg h]
  split_ifs with h1 h2
  · omega
  · omega
  · have hcount := List.countP_le_length (p := (· ≠ Kind.Object.word)) (l := slots w)
    have hlen := slots_length (not_lt.mp h2)
    omega

theorem mergeStack_ok (hs : Sound stack) : ∃ new, mergeStack old stack = .ok new ∧
    (new = old ∧ old ≠ UNINITIALIZED ∨ Sound new ∧ wordRank new < wordRank old) := by
  rw [mergeStack]
  split_ifs with h1 h2
  · refine ⟨stack, rfl, .inr ⟨hs, ?_⟩⟩
    have hlt := wordRank_lt hs.ne_uninitialized
    rw [h1]
    exact hlt
  · obtain ⟨out, hout, hsound, hcase⟩ := joinStacks_ok (a := old) (b := stack)
    refine ⟨out, hout, ?_⟩
    rcases hcase with rfl | ⟨hold, hpos, hall⟩
    · right
      refine ⟨sound_overflowed, ?_⟩
      rw [wordRank, if_neg (by decide), if_pos rfl, wordRank, if_neg h1, if_neg h2.2]
      split_ifs <;> omega
    · rcases countP_lt_or_eq hall with hlt | heq
      · right
        refine ⟨hsound, ?_⟩
        have hover : out ≠ OVERFLOWED := by
          rintro rfl
          exact absurd hpos (by decide)
        rw [wordRank, if_neg hsound.ne_uninitialized, if_neg hover, if_neg (not_lt.mpr hpos),
          wordRank, if_neg h1, if_neg h2.2, if_neg (not_lt.mpr hold)]
        omega
      · exact .inl ⟨eq_of_slots_eq heq, h1⟩
  · exact ⟨old, rfl, .inl ⟨rfl, h1⟩⟩

end WeavePy.LineJump
