import WeavePy.Lib.ByteOrder
import WeavePy.Rust

/-!
The twister's block of words and its refill, against the sequence that the recurrence defines.
-/

namespace WeavePy.Random

def N : ℕ := 624

def M : ℕ := 397

def MATRIX_A : UInt32 := 0x9908b0df

def UPPER_MASK : UInt32 := 0x80000000

def LOWER_MASK : UInt32 := 0x7fffffff

structure Mt where
  key : List UInt32
  pos : ℕ

/-- The word that follows `u` and `v` with `far` ahead of them. -/
def mixed (u v far : UInt32) : UInt32 :=
  let y := (u &&& UPPER_MASK) ||| (v &&& LOWER_MASK)
  far ^^^ (y >>> 1) ^^^ if y &&& 1 ≠ 0 then MATRIX_A else 0

def refresh (key : List UInt32) (kk next far : ℕ) : Outcome (List UInt32) := do
  let u ← index key kk
  let v ← index key next
  let w ← index key far
  setIndex key kk (mixed u v w)

def Mt.regenerate (mt : Mt) : Outcome Mt := do
  let key ← (List.range (N - M)).foldlM (fun key kk => refresh key kk (kk + 1) (kk + M)) mt.key
  let key ← (List.range' (N - M) (M - 1)).foldlM (fun key kk => refresh key kk (kk + 1) (kk + M - N)) key
  let key ← refresh key (N - 1) 0 (M - 1)
  return ⟨key, 0⟩

def temper (y : UInt32) : UInt32 :=
  let y := y ^^^ (y >>> 11)
  let y := y ^^^ ((y <<< 7) &&& 0x9d2c5680)
  let y := y ^^^ ((y <<< 15) &&& 0xefc60000)
  y ^^^ (y >>> 18)

/-- The words of a Mersenne Twister from the first 624 on. -/
def sequence (key : ℕ → UInt32) (n : ℕ) : UInt32 :=
  if n < 624 then key n
  else mixed (sequence key (n - 624)) (sequence key (n - 624 + 1)) (sequence key (n - 624 + 397))

/-- The recurrence of the words. -/
def Twisted (x : ℕ → UInt32) : Prop := ∀ n, x (n + 624) = mixed (x n) (x (n + 1)) (x (n + 397))

theorem sequence_of_lt {key : ℕ → UInt32} {n : ℕ} (h : n < 624) : sequence key n = key n := by
  rw [sequence, if_pos h]

theorem sequence_of_le {key : ℕ → UInt32} {n : ℕ} (h : 624 ≤ n) : sequence key n =
    mixed (sequence key (n - 624)) (sequence key (n - 624 + 1)) (sequence key (n - 624 + 397)) := by
  rw [sequence, if_neg (Nat.not_lt.mpr h)]

theorem twisted_sequence (key : ℕ → UInt32) : Twisted (sequence key) := by
  intro n
  have hn : n + 624 - 624 = n := Nat.add_sub_cancel n 624
  have h : sequence key (n + 624) = _ := sequence_of_le (Nat.le_add_left 624 n)
  rwa [hn] at h

theorem Twisted.shift {x : ℕ → UInt32} (h : Twisted x) (k : ℕ) : Twisted fun n => x (k + n) := by
  intro n
  dsimp only
  rw [← Nat.add_assoc, ← Nat.add_assoc, ← Nat.add_assoc]
  exact h (k + n)

/-- The first 624 words decide the rest. -/
theorem Twisted.ext {x y : ℕ → UInt32} (hx : Twisted x) (hy : Twisted y) (h : ∀ n < 624, x n = y n) : x = y := by
  funext n
  induction n using Nat.strong_induction_on with
  | _ n ih =>
    by_cases hn : n < 624
    · exact h n hn
    · obtain ⟨k, rfl⟩ : ∃ k, n = k + 624 := ⟨n - 624, by omega⟩
      rw [hx, hy, ih k (by omega), ih (k + 1) (by omega), ih (k + 397) (by omega)]

/-- A block whose first `s` words are those of the next block. -/
structure Refreshed (x : ℕ → UInt32) (s : ℕ) (key : List UInt32) : Prop where
  length : key.length = 624
  word : ∀ i < 624, key[i]? = some (if i < s then x (624 + i) else x i)

section Refill

variable {x : ℕ → UInt32} {key : List UInt32} {s next far : ℕ}

theorem index_eq_ok {α : Type} {l : List α} {i : ℕ} {a : α} (h : l[i]? = some a) : index l i = .ok a := by
  unfold index
  rw [h]
  rfl

/-- The word `d` ahead, round the block. -/
theorem Refreshed.ahead (h : Refreshed x s key) (hs : s < 624) {d : ℕ} (hd : d < 624) :
    key[(s + d) % 624]? = some (x (s + d)) := by
  have hlt : (s + d) % 624 < 624 := Nat.mod_lt _ (by omega)
  rw [h.word _ hlt]
  apply congrArg some
  by_cases hwrap : s + d < 624
  · rw [Nat.mod_eq_of_lt hwrap, if_neg (by omega)]
  · have hmod : (s + d) % 624 = s + d - 624 := by omega
    rw [hmod, if_pos (by omega)]
    apply congrArg x
    omega

/-- One word more, from the two beside it and the one 397 ahead, round the block. -/
theorem Refreshed.step (h : Refreshed x s key) (hx : Twisted x) (hs : s < 624) (hnext : next = (s + 1) % 624)
    (hfar : far = (s + 397) % 624) : ∃ key', refresh key s next far = .ok key' ∧ Refreshed x (s + 1) key' := by
  have hu : key[s]? = some (x s) := by
    rw [h.word s hs, if_neg (lt_irrefl s)]
  have hv : key[next]? = some (x (s + 1)) := by
    rw [hnext]
    exact h.ahead hs (by decide)
  have hw : key[far]? = some (x (s + 397)) := by
    rw [hfar]
    exact h.ahead hs (by decide)
  have hlen := h.length
  refine ⟨key.set s (x (624 + s)), ?_, ?_⟩
  · unfold refresh
    rw [index_eq_ok hu, ok_bind, index_eq_ok hv, ok_bind, index_eq_ok hw, ok_bind, ← hx s,
      setIndex_ok (by omega), Nat.add_comm s]
  · constructor
    · rw [List.length_set]
      exact hlen
    · intro i hi
      rw [List.getElem?_set]
      by_cases his : s = i
      · subst his
        rw [if_pos rfl, if_pos (by omega), if_pos (by omega)]
      · rw [if_neg his, h.word i hi]
        congr 1
        split_ifs <;> first | rfl | omega

theorem Refreshed.steps (hx : Twisted x) (next far : ℕ → ℕ) (n : ℕ) (h : Refreshed x s key)
    (hn : s + n ≤ 624) (hnext : ∀ k, s ≤ k → k < s + n → next k = (k + 1) % 624)
    (hfar : ∀ k, s ≤ k → k < s + n → far k = (k + 397) % 624) :
    ∃ key', (List.range' s n).foldlM (fun key kk => refresh key kk (next kk) (far kk)) key = .ok key' ∧
      Refreshed x (s + n) key' := by
  induction n generalizing s key with
  | zero => exact ⟨key, rfl, h⟩
  | succ n ih =>
    obtain ⟨key₁, hrun, h₁⟩ := h.step hx (by omega) (hnext s le_rfl (by omega)) (hfar s le_rfl (by omega))
    obtain ⟨key₂, hrest, h₂⟩ := ih h₁ (by omega) (fun k hk hk' => hnext k (by omega) (by omega))
      fun k hk hk' => hfar k (by omega) (by omega)
    refine ⟨key₂, ?_, ?_⟩
    · rw [List.range'_succ, List.foldlM_cons, hrun, ok_bind]
      exact hrest
    · rw [show s + (n + 1) = s + 1 + n by omega]
      exact h₂

/-- A refill leaves the next block. -/
theorem regenerate_ok (hx : Twisted x) (h : Refreshed x 0 key) (pos : ℕ) :
    ∃ key', Mt.regenerate ⟨key, pos⟩ = .ok ⟨key', 0⟩ ∧ Refreshed (fun n => x (624 + n)) 0 key' := by
  obtain ⟨key₁, hrun₁, h₁⟩ := h.steps hx (· + 1) (· + 397) 227 (by omega)
    (fun k _ hk => by omega) (fun k _ hk => by omega)
  obtain ⟨key₂, hrun₂, h₂⟩ := h₁.steps hx (· + 1) (· + 397 - 624) 396 (by omega)
    (fun k hk hk' => by omega) (fun k hk hk' => by omega)
  obtain ⟨key₃, hrun₃, h₃⟩ : ∃ key₃, refresh key₂ 623 0 396 = .ok key₃ ∧ Refreshed x 624 key₃ :=
    h₂.step hx (by omega) (by omega) (by omega)
  refine ⟨key₃, ?_, h₃.length, fun i hi => ?_⟩
  · unfold Mt.regenerate N M
    rw [List.range_eq_range', hrun₁, ok_bind]
    change ((List.range' (0 + 227) 396).foldlM (fun key kk => refresh key kk (kk + 1) (kk + 397 - 624)) key₁ >>= _) = _
    rw [hrun₂, ok_bind]
    change (refresh key₂ 623 0 396 >>= _) = _
    rw [hrun₃]
    rfl
  · rw [h₃.word i hi, if_pos (by omega), if_neg (Nat.not_lt_zero i)]

end Refill

end WeavePy.Random

/-!
The twister's state as the bytes that Python keeps: the words of the block and the cursor, each
little-endian, drawn from in place.
-/

namespace WeavePy.Random

open LittleEndian

def STATE_LEN : ℕ := (N + 1) * 4

def word (b : List UInt8) (i : ℕ) : Outcome UInt32 :=
  if 4 * i + 4 ≤ b.length then .ok (UInt32.ofNat (ofLe ((b.drop (4 * i)).take 4))) else .error .panic

def setWord (b : List UInt8) (i : ℕ) (v : UInt32) : Outcome (List UInt8) :=
  if 4 * i + 4 ≤ b.length then .ok (b.take (4 * i) ++ (toLe 4 v.toNat ++ b.drop (4 * i + 4))) else .error .panic

def toMt (b : List UInt8) : Outcome Mt := do
  let key ← (List.range N).mapM (word b)
  let pos ← word b N
  return ⟨key, min pos.toNat N⟩

def write (b : List UInt8) (mt : Mt) : Outcome (List UInt8) := do
  let b ← mt.key.zipIdx.foldlM (fun b k => setWord b k.2 k.1) b
  setWord b N (UInt32.ofNat mt.pos)

/-- The cursor and the bytes a word is drawn at, after a refill when the block is used up. -/
def refilled (b : List UInt8) : Outcome (ℕ × List UInt8) := do
  let pos ← word b N
  if N ≤ pos.toNat then
    let mt ← toMt b
    let mt ← mt.regenerate
    let b ← write b mt
    return (0, b)
  else return (pos.toNat, b)

def genrandU32 (b : List UInt8) : Outcome (UInt32 × List UInt8) := do
  let (pos, b) ← refilled b
  let y ← word b pos
  let b ← setWord b N (UInt32.ofNat pos + 1)
  return (temper y, b)

/-- Words as bytes. -/
def flat (ks : List UInt32) : List UInt8 := ks.flatMap fun k => toLe 4 k.toNat

def block (x : ℕ → UInt32) : List UInt32 := (List.range 624).map x

/-- The bytes of a twister that has come to `pos` in the block where `x` begins. -/
structure Holds (b : List UInt8) (x : ℕ → UInt32) (pos : ℕ) : Prop where
  twisted : Twisted x
  bytes : b = flat (block x ++ [UInt32.ofNat pos])
  pos_le : pos ≤ 624

/-- The bytes from which the words `s` will be drawn. -/
def Draws (b : List UInt8) (s : ℕ → UInt32) : Prop := ∃ x pos, Holds b x pos ∧ s = fun n => temper (x (pos + n))

variable {b : List UInt8} {x : ℕ → UInt32} {s : ℕ → UInt32} {ks : List UInt32} {i pos : ℕ} {v w : UInt32}

section Words

theorem length_flat (ks : List UInt32) : (flat ks).length = 4 * ks.length := by
  unfold flat
  induction ks with
  | nil => rfl
  | cons k ks ih =>
    rw [List.flatMap_cons, List.length_append, ih, length_toLe, List.length_cons]
    omega

theorem flat_append (ks ls : List UInt32) : flat (ks ++ ls) = flat ks ++ flat ls := List.flatMap_append

theorem flat_cons (k : UInt32) (ks : List UInt32) : flat (k :: ks) = toLe 4 k.toNat ++ flat ks := List.flatMap_cons

theorem length_block (x : ℕ → UInt32) : (block x).length = 624 := by
  unfold block
  rw [List.length_map, List.length_range]

theorem exists_split (h : ks[i]? = some w) : ∃ l r, ks = l ++ w :: r ∧ l.length = i := by
  obtain ⟨hi, rfl⟩ := List.getElem?_eq_some_iff.mp h
  refine ⟨ks.take i, ks.drop (i + 1), ?_, ?_⟩
  · rw [List.cons_getElem_drop_succ, List.take_append_drop]
  · rw [List.length_take]
    omega

theorem word_flat (h : ks[i]? = some w) : word (flat ks) i = .ok w := by
  obtain ⟨l, r, rfl, rfl⟩ := exists_split h
  have hlen := length_flat l
  have hw : (toLe 4 w.toNat).length = 4 := length_toLe _ _
  unfold word
  rw [if_pos, flat_append, flat_cons, List.drop_left' hlen, List.take_left' hw, ofLe_toLe]
  · rw [UInt32.ofNat_toNat]
  · exact w.toNat_lt
  · rw [length_flat, List.length_append, List.length_cons]
    omega

theorem setWord_split {l r : List UInt32} (h : l.length = i) (v w : UInt32) :
    setWord (flat (l ++ w :: r)) i v = .ok (flat (l ++ v :: r)) := by
  subst h
  have hlen := length_flat l
  have hw : (flat l ++ toLe 4 w.toNat).length = 4 * l.length + 4 := by
    rw [List.length_append, hlen, length_toLe]
  have hflat (v : UInt32) : flat (l ++ v :: r) = flat l ++ (toLe 4 v.toNat ++ flat r) := by
    rw [flat_append, flat_cons]
  have hdrop : (flat (l ++ w :: r)).drop (4 * l.length + 4) = flat r := by
    rw [hflat, ← List.append_assoc, List.drop_left' hw]
  unfold setWord
  rw [if_pos, hdrop, hflat w, List.take_left' hlen, hflat v]
  rw [length_flat, List.length_append, List.length_cons]
  omega

theorem mapM_range' {α : Type} {f : ℕ → Outcome α} {l : List α} (d : ℕ)
    (h : ∀ (i : ℕ) a, l[i]? = some a → f (d + i) = .ok a) : (List.range' d l.length).mapM f = .ok l := by
  induction l generalizing d with
  | nil => rfl
  | cons a l ih =>
    have hrest := ih (d + 1) fun i b hi => by
      rw [show d + 1 + i = d + (i + 1) by omega]
      exact h (i + 1) b hi
    have hfirst : f d = .ok a := h 0 a rfl
    rw [List.length_cons, List.range'_succ, List.mapM_cons, hfirst, hrest]
    rfl

theorem foldlM_setWord {l old done : List UInt32} (h : l.length ≤ old.length) :
    (l.zipIdx done.length).foldlM (fun b k => setWord b k.2 k.1) (flat (done ++ old)) =
      .ok (flat (done ++ (l ++ old.drop l.length))) := by
  induction l generalizing done old with
  | nil => rfl
  | cons k l ih =>
    cases old with
    | nil => simp at h
    | cons w old =>
      rw [List.zipIdx_cons, List.foldlM_cons, setWord_split rfl, ok_bind]
      have hdone : done ++ k :: old = (done ++ [k]) ++ old := by simp
      have hlen : done.length + 1 = (done ++ [k]).length := by simp
      rw [hdone, hlen, ih (by simpa using h)]
      simp

theorem toMt_flat {key : List UInt32} (h : key.length = 624) (v : UInt32) :
    toMt (flat (key ++ [v])) = .ok ⟨key, min v.toNat 624⟩ := by
  have hkey : (List.range N).mapM (word (flat (key ++ [v]))) = .ok key := by
    unfold N
    rw [← h, List.range_eq_range']
    apply mapM_range'
    intro i a hi
    rw [Nat.zero_add]
    apply word_flat
    rw [List.getElem?_append_left (List.getElem?_eq_some_iff.mp hi).1]
    exact hi
  have hpos : word (flat (key ++ [v])) N = .ok v := by
    apply word_flat
    unfold N
    rw [← h]
    exact List.getElem?_concat_length
  unfold toMt
  rw [hkey, ok_bind, hpos, ok_bind]
  rfl

theorem write_flat {mt : Mt} (hks : ks.length = 625) (h : mt.key.length = 624) :
    write (flat ks) mt = .ok (flat (mt.key ++ [UInt32.ofNat mt.pos])) := by
  have hfold : (mt.key.zipIdx (List.length [])).foldlM (fun b k => setWord b k.2 k.1) (flat ([] ++ ks)) = _ :=
    foldlM_setWord (by omega)
  obtain ⟨w, hw⟩ : ∃ w, ks.drop mt.key.length = [w] := by
    apply List.length_eq_one_iff.mp
    rw [List.length_drop]
    omega
  rw [hw, List.nil_append, List.nil_append, List.length_nil] at hfold
  unfold write
  rw [hfold, ok_bind]
  exact setWord_split h (UInt32.ofNat mt.pos) w

end Words

section Drawing

theorem getElem?_block (h : i < 624) : (block x)[i]? = some (x i) := by
  unfold block
  rw [List.getElem?_map, List.getElem?_range h]
  rfl

theorem refreshed_block (x : ℕ → UInt32) : Refreshed x 0 (block x) := by
  constructor
  · exact length_block x
  · intro i hi
    rw [getElem?_block hi, if_neg (Nat.not_lt_zero i)]

theorem Refreshed.eq_block {key : List UInt32} (h : Refreshed x 0 key) : key = block x := by
  apply List.ext_getElem?
  intro i
  by_cases hi : i < 624
  · rw [h.word i hi, getElem?_block hi, if_neg (Nat.not_lt_zero i)]
  · rw [List.getElem?_eq_none, List.getElem?_eq_none]
    · rw [length_block]
      omega
    · rw [h.length]
      omega

theorem toNat_pos (h : pos ≤ 624) : (UInt32.ofNat pos).toNat = pos := by
  apply UInt32.toNat_ofNat_of_lt'
  apply Nat.lt_of_le_of_lt h
  decide

theorem Holds.cursor (h : Holds b x pos) : word b N = .ok (UInt32.ofNat pos) := by
  rw [h.bytes]
  apply word_flat
  have hlen := length_block x
  unfold N
  rw [← hlen]
  exact List.getElem?_concat_length

theorem Holds.word (h : Holds b x pos) (hi : i < 624) : word b i = .ok (x i) := by
  rw [h.bytes]
  apply word_flat
  rw [List.getElem?_append_left (by rw [length_block]; exact hi)]
  exact getElem?_block hi

theorem Holds.setCursor (h : Holds b x pos) {p : ℕ} (hp : p ≤ 624) :
    ∃ b', setWord b N (UInt32.ofNat p) = .ok b' ∧ Holds b' x p := by
  refine ⟨_, ?_, h.twisted, rfl, hp⟩
  rw [h.bytes]
  exact setWord_split (length_block x) _ _

theorem Holds.toMt (h : Holds b x pos) : toMt b = .ok ⟨block x, pos⟩ := by
  rw [h.bytes, toMt_flat (length_block x), toNat_pos h.pos_le, Nat.min_eq_left h.pos_le]

/-- A used-up block gives way to the next one. -/
theorem Holds.refilled (h : Holds b x pos) : ∃ b' x' p, refilled b = .ok (p, b') ∧ Holds b' x' p ∧ p < 624 ∧
    ∀ n, x' (p + n) = x (pos + n) := by
  unfold Random.refilled
  rw [h.cursor, ok_bind, toNat_pos h.pos_le]
  by_cases hused : N ≤ pos
  · obtain rfl : pos = 624 := Nat.le_antisymm h.pos_le hused
    obtain ⟨key, hrun, hnext⟩ := regenerate_ok h.twisted (refreshed_block x) 624
    have hwrite : write b ⟨key, 0⟩ = .ok (flat (key ++ [UInt32.ofNat 0])) := by
      rw [h.bytes]
      apply write_flat
      · rw [List.length_append, length_block, List.length_singleton]
      · exact hnext.length
    refine ⟨flat (key ++ [UInt32.ofNat 0]), fun n => x (624 + n), 0, ?_, ?_, by omega, fun n => ?_⟩
    · rw [if_pos hused, h.toMt, ok_bind, hrun, ok_bind, hwrite]
      rfl
    · constructor
      · exact h.twisted.shift 624
      · rw [hnext.eq_block]
      · omega
    · dsimp only
      rw [Nat.zero_add]
  · exact ⟨b, x, pos, if_neg hused, h, Nat.lt_of_not_le hused, fun _ => rfl⟩

/-- A word drawn is the next one, and the bytes go on with the words after it. -/
theorem Draws.genrand (h : Draws b s) : ∃ b', genrandU32 b = .ok (s 0, b') ∧ Draws b' fun n => s (n + 1) := by
  obtain ⟨x, pos, hold, rfl⟩ := h
  obtain ⟨b₁, x₁, p, hrun, h₁, hp, hsame⟩ := hold.refilled
  obtain ⟨b₂, hset, h₂⟩ := h₁.setCursor (p := p + 1) (by omega)
  have hsucc : UInt32.ofNat p + 1 = UInt32.ofNat (p + 1) := (UInt32.ofNat_add p 1).symm
  refine ⟨b₂, ?_, x₁, p + 1, h₂, ?_⟩
  · unfold genrandU32
    rw [hrun, ok_bind]
    dsimp only
    rw [h₁.word hp, ok_bind, hsucc, hset, ok_bind]
    have h0 := hsame 0
    rw [Nat.add_zero] at h0
    rw [h0]
    rfl
  · funext n
    dsimp only
    rw [Nat.add_right_comm p, Nat.add_assoc p, hsame]

end Drawing

end WeavePy.Random
