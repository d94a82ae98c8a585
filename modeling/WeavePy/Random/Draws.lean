import WeavePy.Random.Seeding

/-!
What the generator's methods make of the words they draw: a float of 53 bits, an integer of any number
of bits, and bytes.
-/

namespace WeavePy.Random

open LittleEndian

/-- The integers drawn into a float: `a * 2^26 + b` of the `2^53` in the unit interval. -/
def randomFrom (b : List UInt8) : Outcome (ℕ × List UInt8) := do
  let (a, b) ← genrandU32 b
  let (c, b) ← genrandU32 b
  return ((a >>> 5).toNat * 67108864 + (c >>> 6).toNat, b)

def drawBits : ℕ → List UInt8 → ℕ → Outcome (List UInt32 × List UInt8)
  | 0, b, _ => .ok ([], b)
  | n + 1, b, remaining => do
    let (r, b) ← genrandU32 b
    let (out, b) ← drawBits n b (remaining - 32)
    return ((if remaining < 32 then r >>> UInt32.ofNat (32 - remaining) else r) :: out, b)

/-- The words until `n` bytes are there, only the first bytes of the last one used. -/
def drawBytes (n : ℕ) (b : List UInt8) : Outcome (List UInt8 × List UInt8) :=
  if n = 0 then .ok ([], b)
  else do
    let (w, b) ← genrandU32 b
    let (rest, b) ← drawBytes (n - min n 4) b
    return ((toLe 4 w.toNat).take (min n 4) ++ rest, b)
termination_by n

section Reference

def wordsFor (k : ℕ) : ℕ := (k + 31) / 32

/-- The first words, the last one cut to its top bits. -/
def bitWords (s : ℕ → UInt32) (k : ℕ) : List ℕ :=
  (List.range (wordsFor k)).map fun i => (s i).toNat / 2 ^ (32 * (i + 1) - k)

/-- Words as an integer, the lowest first. -/
def assemble (ws : List ℕ) : ℕ := ws.foldr (fun w v => w + 2 ^ 32 * v) 0

/-- `k` random bits of a stream of words. -/
def refBits (s : ℕ → UInt32) (k : ℕ) : ℕ := assemble (bitWords s k)

def refBytes (s : ℕ → UInt32) (n : ℕ) : List UInt8 := toLe n (refBits s (8 * n))

/-- The word that a count of bytes ends in has the same bytes in its low and in its top part. -/
def EvenEnd (s : ℕ → UInt32) (n : ℕ) : Prop :=
  (s (n / 4)).toNat % 2 ^ (8 * (n % 4)) = (s (n / 4)).toNat / 2 ^ (32 - 8 * (n % 4))

end Reference

variable {b : List UInt8} {s : ℕ → UInt32} {n k : ℕ}

section Bits

theorem wordsFor_sub (h : 0 < k) : wordsFor k = wordsFor (k - 32) + 1 := by
  unfold wordsFor
  omega

theorem bitWords_zero (s : ℕ → UInt32) : bitWords s 0 = [] := rfl

theorem bitWords_pos (h : 0 < k) :
    bitWords s k = (s 0).toNat / 2 ^ (32 - k) :: bitWords (fun n => s (n + 1)) (k - 32) := by
  unfold bitWords
  rw [wordsFor_sub h, List.range_succ_eq_map, List.map_cons, List.map_map]
  apply congrArg
  apply List.map_congr_left
  intro i hi
  have hlt := List.mem_range.mp hi
  have hcut : 32 * (i + 1 + 1) - k = 32 * (i + 1) - (k - 32) := by
    unfold wordsFor at hlt
    omega
  rw [Function.comp_apply, Nat.succ_eq_add_one, hcut]

theorem refBits_zero (s : ℕ → UInt32) : refBits s 0 = 0 := rfl

theorem refBits_pos (h : 0 < k) :
    refBits s k = (s 0).toNat / 2 ^ (32 - k) + 2 ^ 32 * refBits (fun n => s (n + 1)) (k - 32) := by
  unfold refBits
  rw [bitWords_pos h]
  rfl

/-- `k` bits make an integer below `2^k`. -/
theorem refBits_lt (s : ℕ → UInt32) (k : ℕ) : refBits s k < 2 ^ k := by
  induction k using Nat.strong_induction_on generalizing s with
  | _ k ih =>
    by_cases hk : k = 0
    · subst hk
      rw [refBits_zero]
      exact Nat.one_pos
    · have hword := (s 0).toNat_lt
      rw [refBits_pos (Nat.pos_of_ne_zero hk)]
      by_cases hlong : 32 ≤ k
      · have hrest := ih (k - 32) (by omega) fun n => s (n + 1)
        have hpow : 2 ^ k = 2 ^ 32 * 2 ^ (k - 32) := by
          rw [← Nat.pow_add, Nat.add_sub_of_le hlong]
        rw [show 32 - k = 0 by omega, Nat.pow_zero, Nat.div_one, hpow]
        omega
      · have hpow : 2 ^ 32 = 2 ^ k * 2 ^ (32 - k) := by
          rw [← Nat.pow_add, Nat.add_sub_of_le (by omega)]
        rw [show k - 32 = 0 by omega, refBits_zero, Nat.mul_zero, Nat.add_zero]
        apply Nat.div_lt_of_lt_mul
        rw [Nat.mul_comm, ← hpow]
        exact hword

theorem ofLe_append (l r : List UInt8) : ofLe (l ++ r) = ofLe l + 2 ^ (8 * l.length) * ofLe r := by
  induction l with
  | nil => simp [ofLe]
  | cons c l ih =>
    have hpow : 2 ^ (8 * (l.length + 1)) = 2 ^ 8 * 2 ^ (8 * l.length) := by
      rw [← Nat.pow_add]
      congr 1
      omega
    rw [List.cons_append, ofLe, ih, ofLe, List.length_cons, hpow, Nat.mul_add, Nat.mul_assoc, Nat.add_assoc]

theorem ofLe_flat (ks : List UInt32) : ofLe (flat ks) = assemble (ks.map UInt32.toNat) := by
  induction ks with
  | nil => rfl
  | cons k ks ih =>
    rw [flat_cons, ofLe_append, length_toLe, ofLe_toLe k.toNat_lt, ih]
    rfl

theorem toNat_shift {r : UInt32} (h : k ≤ 32) (hk : 0 < k) :
    (r >>> UInt32.ofNat (32 - k)).toNat = r.toNat / 2 ^ (32 - k) := by
  have hshift : (UInt32.ofNat (32 - k)).toNat = 32 - k := toNat_pos (by omega)
  rw [UInt32.toNat_shiftRight, hshift, Nat.mod_eq_of_lt (by omega), Nat.shiftRight_eq_div_pow]

theorem drawBits_ok (h : Draws b s) (hk : n = wordsFor k) : ∃ ws b', drawBits n b k = .ok (ws, b') ∧
    ws.map UInt32.toNat = bitWords s k ∧ Draws b' fun i => s (i + n) := by
  induction n generalizing b s k with
  | zero =>
    have hzero : k = 0 := by
      unfold wordsFor at hk
      omega
    subst hzero
    exact ⟨[], b, rfl, rfl, h⟩
  | succ n ih =>
    have hpos : 0 < k := by
      unfold wordsFor at hk
      omega
    obtain ⟨b₁, hdraw, h₁⟩ := h.genrand
    obtain ⟨ws, b₂, hrest, hws, h₂⟩ := ih (k := k - 32) h₁ (by rw [wordsFor_sub hpos] at hk; omega)
    refine ⟨(if k < 32 then s 0 >>> UInt32.ofNat (32 - k) else s 0) :: ws, b₂, ?_, ?_, ?_⟩
    · rw [drawBits, hdraw, ok_bind]
      dsimp only
      rw [hrest]
      rfl
    · rw [List.map_cons, hws, bitWords_pos hpos]
      apply congrArg (· :: _)
      split_ifs with hlt
      · exact toNat_shift (by omega) hpos
      · rw [show 32 - k = 0 by omega, Nat.pow_zero, Nat.div_one]
    · have hshift : (fun i => s (i + (n + 1))) = fun i => s (i + n + 1) := rfl
      rw [hshift]
      exact h₂

theorem randomFrom_ok (h : Draws b s) : ∃ b', randomFrom b =
    .ok ((s 0).toNat / 2 ^ 5 * 2 ^ 26 + (s 1).toNat / 2 ^ 6, b') ∧ Draws b' fun i => s (i + 2) := by
  obtain ⟨b₁, hdraw₁, h₁⟩ := h.genrand
  obtain ⟨b₂, hdraw₂, h₂⟩ := h₁.genrand
  refine ⟨b₂, ?_, h₂⟩
  unfold randomFrom
  rw [hdraw₁, ok_bind]
  dsimp only
  rw [hdraw₂, ok_bind]
  dsimp only
  rw [UInt32.toNat_shiftRight, UInt32.toNat_shiftRight, Nat.shiftRight_eq_div_pow, Nat.shiftRight_eq_div_pow]
  rfl

end Bits

section Bytes

/-- The bytes that `drawBytes` makes of the words. -/
def lowBytes (s : ℕ → UInt32) (n : ℕ) : List UInt8 :=
  if n = 0 then [] else (toLe 4 (s 0).toNat).take (min n 4) ++ lowBytes (fun i => s (i + 1)) (n - min n 4)
termination_by n

theorem drawBytes_ok (h : Draws b s) (n : ℕ) : ∃ b', drawBytes n b = .ok (lowBytes s n, b') ∧
    Draws b' fun i => s (i + wordsFor (8 * n)) := by
  induction n using Nat.strong_induction_on generalizing b s with
  | _ n ih =>
    rw [drawBytes, lowBytes]
    by_cases hn : n = 0
    · subst hn
      exact ⟨b, rfl, h⟩
    · rw [if_neg hn, if_neg hn]
      obtain ⟨b₁, hdraw, h₁⟩ := h.genrand
      obtain ⟨b₂, hrest, h₂⟩ := ih (n - min n 4) (by omega) h₁
      refine ⟨b₂, ?_, ?_⟩
      · rw [hdraw, ok_bind]
        dsimp only
        rw [hrest]
        rfl
      · have hwords : wordsFor (8 * n) = wordsFor (8 * (n - min n 4)) + 1 := by
          unfold wordsFor
          omega
        rw [hwords]
        exact h₂

theorem toLe_add (m v : ℕ) : toLe (n + m) v = toLe n v ++ toLe m (v / 2 ^ (8 * n)) := by
  induction n generalizing v with
  | zero => simp [toLe]
  | succ n ih =>
    rw [Nat.succ_add, toLe, toLe, ih, List.cons_append, Nat.shiftRight_eq_div_pow, Nat.div_div_eq_div_mul,
      ← Nat.pow_add, show 8 + 8 * n = 8 * (n + 1) by omega]

theorem toLe_mod (n v : ℕ) : toLe n (v % 2 ^ (8 * n)) = toLe n v := by
  induction n generalizing v with
  | zero => rfl
  | succ n ih =>
    have hpow : 2 ^ (8 * (n + 1)) = 2 ^ 8 * 2 ^ (8 * n) := by
      rw [← Nat.pow_add]
      congr 1
      omega
    have hbyte : (v % 2 ^ (8 * (n + 1))).toUInt8 = v.toUInt8 := by
      apply UInt8.toNat_inj.mp
      rw [Nat.toUInt8_eq, Nat.toUInt8_eq, UInt8.toNat_ofNat', UInt8.toNat_ofNat', hpow]
      exact Nat.mod_mul_right_mod _ _ _
    rw [toLe, toLe, hbyte, Nat.shiftRight_eq_div_pow, Nat.shiftRight_eq_div_pow, hpow, Nat.mod_mul_right_div_self, ih]

theorem toLe_inj {v w : ℕ} (hw : w < 2 ^ (8 * n)) : toLe n v = toLe n w ↔ v % 2 ^ (8 * n) = w := by
  constructor
  · intro h
    rw [← toLe_mod n v] at h
    have := congrArg ofLe h
    rwa [ofLe_toLe (Nat.mod_lt _ (Nat.two_pow_pos _)), ofLe_toLe hw] at this
  · rintro rfl
    exact (toLe_mod n v).symm

theorem evenEnd_add_four (s : ℕ → UInt32) (n : ℕ) : EvenEnd s (n + 4) ↔ EvenEnd (fun i => s (i + 1)) n := by
  unfold EvenEnd
  rw [Nat.add_mod_right, Nat.add_div_right _ (by omega)]

/-- The bytes are those of as many random bits just when the word they end in has them on both sides. -/
theorem lowBytes_eq_iff (s : ℕ → UInt32) (n : ℕ) : lowBytes s n = refBytes s n ↔ EvenEnd s n := by
  induction n using Nat.strong_induction_on generalizing s with
  | _ n ih =>
    have hword := (s 0).toNat_lt
    rw [lowBytes]
    unfold refBytes
    split_ifs with hn
    · subst hn
      unfold EvenEnd
      rw [Nat.zero_mod, Nat.mul_zero, Nat.pow_zero, Nat.mod_one, Nat.zero_div, Nat.div_eq_of_lt hword]
      exact ⟨fun _ => rfl, fun _ => rfl⟩
    · rw [refBits_pos (by omega)]
      by_cases hlong : 4 ≤ n
      · obtain ⟨m, rfl⟩ : ∃ m, n = m + 4 := ⟨n - 4, by omega⟩
        have hhead : toLe 4 ((s 0).toNat + 2 ^ 32 * refBits (fun i => s (i + 1)) (8 * m)) = toLe 4 (s 0).toNat := by
          rw [← toLe_mod, Nat.add_mul_mod_self_left, toLe_mod]
        have htail : ((s 0).toNat + 2 ^ 32 * refBits (fun i => s (i + 1)) (8 * m)) / 2 ^ (8 * 4) =
            refBits (fun i => s (i + 1)) (8 * m) := by
          rw [Nat.add_mul_div_left _ _ (Nat.two_pow_pos 32), Nat.div_eq_of_lt hword, Nat.zero_add]
        have hfour : (toLe 4 (s 0).toNat).take 4 = toLe 4 (s 0).toNat := List.take_of_length_le (length_toLe _ _).le
        rw [show min (m + 4) 4 = 4 by omega, show m + 4 - 4 = m by omega, show 32 - 8 * (m + 4) = 0 by omega,
          show 8 * (m + 4) - 32 = 8 * m by omega, Nat.pow_zero, Nat.div_one, Nat.add_comm m 4, toLe_add, hhead, htail,
          hfour, List.append_cancel_left_eq, Nat.add_comm 4 m, evenEnd_add_four]
        exact ih m (by omega) _
      · have hempty : lowBytes (fun i => s (i + 1)) 0 = [] := by
          rw [lowBytes, if_pos rfl]
        have hlow : (toLe 4 (s 0).toNat).take n = toLe n (s 0).toNat := by
          rw [show 4 = n + (4 - n) by omega, toLe_add, List.take_left' (length_toLe _ _)]
        have hpow : 2 ^ 32 = 2 ^ (8 * n) * 2 ^ (32 - 8 * n) := by
          rw [← Nat.pow_add, Nat.add_sub_of_le (by omega)]
        have htop : (s 0).toNat / 2 ^ (32 - 8 * n) < 2 ^ (8 * n) := by
          apply Nat.div_lt_of_lt_mul
          rw [Nat.mul_comm, ← hpow]
          exact hword
        rw [show min n 4 = n by omega, Nat.sub_self, hempty, List.append_nil, hlow, show 8 * n - 32 = 0 by omega,
          refBits_zero, Nat.mul_zero, Nat.add_zero, toLe_inj htop]
        unfold EvenEnd
        rw [show n / 4 = 0 by omega, show n % 4 = n by omega]

end Bytes

end WeavePy.Random
