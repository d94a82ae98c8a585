import Mathlib.Logic.Function.Basic
import WeavePy.Random.StateBytes

/-!
Seeding from a key of any length: the loops over the block, and the words they leave in it.
-/

namespace WeavePy.Random

open LittleEndian Function

section Code

def genrandWord (key : List UInt32) (i : ℕ) : Outcome (List UInt32) := do
  let w ← index key (i - 1)
  setIndex key i ((1812433253 : UInt32) * (w ^^^ (w >>> 30)) + UInt32.ofNat i)

/-- A block from one word. -/
def initGenrand (s : UInt32) : Outcome Mt := do
  let key ← setIndex (List.replicate N 0) 0 s
  let key ← (List.range' 1 (N - 1)).foldlM genrandWord key
  return ⟨key, N⟩

/-- From the end of the block on to its second word, the last word copied to the front. -/
def wrapped (key : List UInt32) (i : ℕ) : Outcome (List UInt32 × ℕ) :=
  if N ≤ i then do
    let w ← index key (N - 1)
    let key ← setIndex key 0 w
    return (key, 1)
  else .ok (key, i)

def mixKey (initKey : List UInt32) : ℕ → List UInt32 → ℕ → ℕ → Outcome (List UInt32 × ℕ)
  | 0, key, i, _ => .ok (key, i)
  | k + 1, key, i, j => do
    let w ← index key i
    let v ← index key (i - 1)
    let a ← index initKey j
    let key ← setIndex key i ((w ^^^ ((v ^^^ (v >>> 30)) * 1664525)) + a + UInt32.ofNat j)
    let (key, i) ← wrapped key (i + 1)
    mixKey initKey k key i (if initKey.length ≤ j + 1 then 0 else j + 1)

def stirKey : ℕ → List UInt32 → ℕ → Outcome (List UInt32)
  | 0, key, _ => .ok key
  | k + 1, key, i => do
    let w ← index key i
    let v ← index key (i - 1)
    let key ← setIndex key i ((w ^^^ ((v ^^^ (v >>> 30)) * 1566083941)) - UInt32.ofNat i)
    let (key, i) ← wrapped key (i + 1)
    stirKey k key i

def initByArray (initKey : List UInt32) : Outcome Mt := do
  let mt ← initGenrand 19650218
  let (key, i) ← mixKey initKey (max N initKey.length) mt.key 1 0
  let key ← stirKey (N - 1) key i
  let key ← setIndex key 0 0x80000000
  return ⟨key, mt.pos⟩

/-- The bytes a seeded instance gets. -/
def storeMt (mt : Mt) : Outcome (List UInt8) := write (List.replicate STATE_LEN 0) mt

end Code

section Reference

/-- The words of `init_genrand`. -/
def genrandWords (s : UInt32) : ℕ → UInt32
  | 0 => s
  | n + 1 => (1812433253 : UInt32) * (genrandWords s n ^^^ (genrandWords s n >>> 30)) + UInt32.ofNat (n + 1)

/-- A word of the block changes, and the first with the last. -/
def place (m : ℕ → UInt32) (i : ℕ) (v : UInt32) : ℕ → UInt32 :=
  if i = 623 then update (update m i v) 0 v else update m i v

def mixRound (key : List UInt32) (m : ℕ → UInt32) (s : ℕ) : ℕ → UInt32 :=
  let i := s % 623 + 1
  let j := s % key.length
  place m i ((m i ^^^ ((m (i - 1) ^^^ (m (i - 1) >>> 30)) * 1664525)) + key.getD j 0 + UInt32.ofNat j)

def stirRound (m : ℕ → UInt32) (s : ℕ) : ℕ → UInt32 :=
  let i := s % 623 + 1
  place m i ((m i ^^^ ((m (i - 1) ^^^ (m (i - 1) >>> 30)) * 1566083941)) - UInt32.ofNat i)

/-- The block that a key seeds: as many rounds with the key as it or the block is long, then 623 without. -/
def seedWords (key : List UInt32) : ℕ → UInt32 :=
  let rounds := max 624 key.length
  let m := (List.range' 0 rounds).foldl (mixRound key) (genrandWords 19650218)
  let m := (List.range' rounds 623).foldl stirRound m
  update m 0 0x80000000

/-- The words drawn after seeding with a key. -/
def keyStream (key : List UInt32) (n : ℕ) : UInt32 := temper (sequence (seedWords key) (624 + n))

end Reference

variable {m : ℕ → UInt32} {i j k s : ℕ} {v : UInt32} {key : List UInt32}

section Blocks

theorem index_block (h : i < 624) : index (block m) i = .ok (m i) := index_eq_ok (getElem?_block h)

theorem setIndex_block (h : i < 624) : setIndex (block m) i v = .ok (block (update m i v)) := by
  rw [setIndex_ok (by rw [length_block]; exact h)]
  apply congrArg
  apply List.ext_getElem?
  intro l
  rw [List.getElem?_set]
  by_cases hl : l < 624
  · rw [length_block]
    by_cases hil : i = l
    · subst hil
      rw [if_pos rfl, if_pos h, getElem?_block hl, update_self]
    · rw [if_neg hil, getElem?_block hl, getElem?_block hl, update_of_ne (Ne.symm hil)]
  · rw [if_neg (by omega), List.getElem?_eq_none, List.getElem?_eq_none]
    · rw [length_block]
      omega
    · rw [length_block]
      omega

theorem block_congr {m' : ℕ → UInt32} (h : ∀ l < 624, m l = m' l) : block m = block m' :=
  List.map_congr_left fun l hl => h l (List.mem_range.mp hl)

theorem replicate_eq_block : List.replicate N (0 : UInt32) = block fun _ => 0 := by
  unfold block
  rw [List.map_const', List.length_range]
  rfl

end Blocks

section Rounds

theorem genrand_rounds (seed : UInt32) (n : ℕ) (hk : k + n ≤ 623) (hm : ∀ l ≤ k, m l = genrandWords seed l) :
    ∃ m', (List.range' (k + 1) n).foldlM genrandWord (block m) = .ok (block m') ∧
      ∀ l ≤ k + n, m' l = genrandWords seed l := by
  induction n generalizing k m with
  | zero => exact ⟨m, rfl, hm⟩
  | succ n ih =>
    have hnext : ∀ l ≤ k + 1,
        update m (k + 1) ((1812433253 : UInt32) * (m k ^^^ (m k >>> 30)) + UInt32.ofNat (k + 1)) l = genrandWords seed l := by
      intro l hl
      by_cases hlk : l = k + 1
      · subst hlk
        rw [update_self, hm k le_rfl]
        rfl
      · rw [update_of_ne hlk]
        exact hm l (by omega)
    obtain ⟨m', hrun, hm'⟩ := ih (by omega) hnext
    refine ⟨m', ?_, fun l hl => hm' l (by omega)⟩
    rw [List.range'_succ, List.foldlM_cons, genrandWord, Nat.add_sub_cancel, index_block (by omega), ok_bind,
      setIndex_block (by omega), ok_bind]
    exact hrun

theorem initGenrand_ok (seed : UInt32) : initGenrand seed = .ok ⟨block (genrandWords seed), 624⟩ := by
  have hfirst : ∀ l ≤ 0, update (fun _ => (0 : UInt32)) 0 seed l = genrandWords seed l := by
    intro l hl
    obtain rfl : l = 0 := by omega
    rw [update_self]
    rfl
  obtain ⟨m, hrun, hm⟩ := genrand_rounds seed 623 (by omega) hfirst
  have hblock : block m = block (genrandWords seed) := block_congr fun l hl => hm l (by omega)
  unfold initGenrand
  rw [replicate_eq_block, setIndex_block (by omega), ok_bind]
  change ((List.range' (0 + 1) 623).foldlM genrandWord _ >>= _) = _
  rw [hrun, hblock]
  rfl

theorem succ_mod (hj : j = s % k) (hk : 0 < k) : (if k ≤ j + 1 then 0 else j + 1) = (s + 1) % k := by
  have hlt := Nat.mod_lt s hk
  rw [← Nat.mod_add_mod, ← hj]
  split_ifs with h
  · obtain rfl : k = j + 1 := by omega
    rw [Nat.mod_self]
  · rw [Nat.mod_eq_of_lt (by omega)]

/-- After a word is set the cursor moves on, round the block. -/
theorem wrapped_ok (hi : i = s % 623 + 1) :
    wrapped (block (update m i v)) (i + 1) = .ok (block (place m i v), (s + 1) % 623 + 1) := by
  unfold wrapped place
  by_cases hend : i = 623
  · have hs : (s + 1) % 623 = 0 := by omega
    rw [if_pos hend, hs, hend, if_pos (show N ≤ 623 + 1 from le_rfl)]
    change (index (block _) 623 >>= _) = _
    rw [index_block (by omega), ok_bind, setIndex_block (by omega), update_self]
    rfl
  · have hs : (s + 1) % 623 + 1 = i + 1 := by omega
    have hlt : ¬ N ≤ i + 1 := by
      unfold N
      omega
    rw [if_neg hend, if_neg hlt, hs]

theorem mixKey_ok (hkey : key ≠ []) (hi : i = s % 623 + 1) (hj : j = s % key.length) :
    mixKey key k (block m) i j = .ok (block ((List.range' s k).foldl (mixRound key) m), (s + k) % 623 + 1) := by
  induction k generalizing m i j s with
  | zero =>
    rw [hi]
    rfl
  | succ k ih =>
    have hlen : 0 < key.length := List.length_pos_of_ne_nil hkey
    have hj' : j < key.length := hj ▸ Nat.mod_lt s hlen
    have ha : index key j = .ok (key.getD j 0) := by
      rw [index_ok hj', List.getD_eq_getElem?_getD, List.getElem?_eq_getElem hj']
      rfl
    rw [mixKey, index_block (by omega), ok_bind, index_block (by omega), ok_bind, ha, ok_bind,
      setIndex_block (by omega), ok_bind, wrapped_ok hi, ok_bind]
    dsimp only
    rw [ih rfl (succ_mod hj hlen), List.range'_succ, List.foldl_cons, Nat.add_assoc s 1 k, Nat.add_comm 1 k]
    unfold mixRound
    rw [← hi, ← hj]

theorem stirKey_ok (hi : i = s % 623 + 1) :
    stirKey k (block m) i = .ok (block ((List.range' s k).foldl stirRound m)) := by
  induction k generalizing m i s with
  | zero => rfl
  | succ k ih =>
    rw [stirKey, index_block (by omega), ok_bind, index_block (by omega), ok_bind, setIndex_block (by omega), ok_bind,
      wrapped_ok hi, ok_bind]
    dsimp only
    rw [ih rfl, List.range'_succ, List.foldl_cons]
    unfold stirRound
    rw [← hi]

theorem initByArray_ok (hkey : key ≠ []) : initByArray key = .ok ⟨block (seedWords key), 624⟩ := by
  unfold initByArray
  rw [initGenrand_ok, ok_bind]
  dsimp only
  have hmix := mixKey_ok (k := max N key.length) (m := genrandWords 19650218) (s := 0) hkey rfl rfl
  have hstir := stirKey_ok (k := N - 1) (s := 0 + max N key.length)
    (m := (List.range' 0 (max N key.length)).foldl (mixRound key) (genrandWords 19650218)) rfl
  rw [Nat.zero_mod, Nat.zero_mod, Nat.zero_add 1] at hmix
  rw [hmix, ok_bind]
  dsimp only
  rw [hstir, ok_bind, setIndex_block (by omega), Nat.zero_add]
  rfl

end Rounds

section Seeded

theorem replicate_flat : List.replicate STATE_LEN (0 : UInt8) = flat (List.replicate 625 0) := by
  have h (n : ℕ) : List.replicate (n * 4) (0 : UInt8) = flat (List.replicate n 0) := by
    induction n with
    | zero => rfl
    | succ n ih =>
      rw [List.replicate_succ, flat_cons, ← ih, Nat.succ_mul, Nat.add_comm, List.replicate_add]
      rfl
  exact h 625

theorem storeMt_ok {pos : ℕ} (key : List UInt32) (h : key.length = 624) :
    storeMt ⟨key, pos⟩ = .ok (flat (key ++ [UInt32.ofNat pos])) := by
  unfold storeMt
  rw [replicate_flat]
  apply write_flat
  · exact List.length_replicate
  · exact h

/-- Bytes written from a block and a cursor draw the words of the block's sequence. -/
theorem storeMt_draws {pos : ℕ} (hpos : pos ≤ 624) (m : ℕ → UInt32) : ∃ b, storeMt ⟨block m, pos⟩ = .ok b ∧
    Draws b fun n => temper (sequence m (pos + n)) := by
  refine ⟨_, storeMt_ok _ (length_block m), sequence m, pos, ⟨twisted_sequence m, ?_, hpos⟩, rfl⟩
  rw [block_congr fun l hl => (sequence_of_lt hl).symm]

theorem seed_draws (hkey : key ≠ []) : ∃ mt b, initByArray key = .ok mt ∧ storeMt mt = .ok b ∧ Draws b (keyStream key) := by
  obtain ⟨b, hb, hdraws⟩ := storeMt_draws le_rfl (seedWords key)
  exact ⟨_, b, initByArray_ok hkey, hb, hdraws⟩

end Seeded

end WeavePy.Random
