import WeavePy.Lib.Halving
import WeavePy.Timsort.Sort

/-!
The power of a boundary between two runs is the depth at which halving the list first separates
their midpoints. The stack of pending runs by itself: the moves a sort makes on it, and what holds of
it at every point of a sort.
-/

namespace WeavePy.Timsort

open Halving

section Powers

variable {T σ E : Type}

/-- An unsigned result of `w` bits. -/
def word (w x : ℕ) : Option ℕ := if x < 2 ^ w then some x else none

def wordSub (a b : ℕ) : Option ℕ := if b ≤ a then some (a - b) else none

/-- The loop of `powerloop` on words, `result` of 32 bits and the others of 64; `none` is an
overflow, or no end within `fuel` rounds. -/
def powerWords (n : ℕ) : ℕ → ℕ → ℕ → ℕ → Option ℕ
  | 0, _, _, _ => none
  | fuel + 1, result, a, b => do
    let result ← word 32 (result + 1)
    if n ≤ a then do
      let a ← wordSub a n
      let b ← wordSub b n
      let a ← word 64 (2 * a)
      let b ← word 64 (2 * b)
      powerWords n fuel result a b
    else if n ≤ b then return result
    else do
      let a ← word 64 (2 * a)
      let b ← word 64 (2 * b)
      powerWords n fuel result a b

/-- `powerloop` with every operation checked. -/
def powerloopWords (s1 n1 n2 n : ℕ) : Option ℕ := do
  let a ← word 64 (2 * s1)
  let a ← word 64 (a + n1)
  let b ← word 64 (a + n1)
  let b ← word 64 (b + n2)
  powerWords n (2 * n + 1) 0 a b

theorem word_eq_some {w x y : ℕ} : word w x = some y ↔ x < 2 ^ w ∧ x = y := by
  unfold word
  split <;> simp_all

theorem wordSub_eq_some {a b c : ℕ} : wordSub a b = some c ↔ b ≤ a ∧ a - b = c := by
  unfold wordSub
  split <;> simp_all

theorem word_of_lt {w x : ℕ} (h : x < 2 ^ w) : word w x = some x := if_pos h

theorem wordSub_of_le {a b : ℕ} (h : b ≤ a) : wordSub a b = some (a - b) := if_pos h

/-- Where no word overflows, the sort's loop ends on the same power. -/
theorem wp_powerSteps {n power fuel result a b : ℕ} {s : MergeState T σ}
    {R : E → MergeState T σ → Prop} (h : powerWords n fuel result a b = some power) :
    Prog.wp (loop fuel (fun ⟨result, a, b⟩ =>
      if n ≤ a then do
        let a ← sub a n
        let b ← sub b n
        return .next (result + 1, 2 * a, 2 * b)
      else if n ≤ b then return .done (result + 1)
      else return .next (result + 1, 2 * a, 2 * b)) (result, a, b))
      (fun p t => p = power ∧ t = s) R s := by
  induction fuel generalizing result a b with
  | zero => cases h
  | succ fuel ih =>
    simp only [powerWords, Option.bind_eq_bind, Option.bind_eq_some_iff, word_eq_some] at h
    obtain ⟨_, ⟨-, rfl⟩, h⟩ := h
    apply Prog.wp_seq (Q := fun r t => t = s ∧ match r with
      | .next c => powerWords n fuel c.1 c.2.1 c.2.2 = some power
      | .done p => p = power)
    · dsimp only
      apply Prog.wp_ite
      · intro ha
        rw [if_pos ha] at h
        simp only [Option.bind_eq_some_iff, word_eq_some, wordSub_eq_some] at h
        obtain ⟨_, ⟨-, rfl⟩, _, ⟨hb, rfl⟩, _, ⟨-, rfl⟩, _, ⟨-, rfl⟩, h⟩ := h
        apply Prog.wp_bind
        apply wp_sub ha
        apply Prog.wp_bind
        apply wp_sub hb
        exact Prog.wp_pure ⟨rfl, h⟩
      · intro ha
        rw [if_neg ha] at h
        apply Prog.wp_ite
        · intro hb
          rw [if_pos hb] at h
          exact Prog.wp_pure ⟨rfl, Option.some.inj h⟩
        · intro hb
          rw [if_neg hb] at h
          simp only [Option.bind_eq_some_iff, word_eq_some] at h
          obtain ⟨_, ⟨-, rfl⟩, _, ⟨-, rfl⟩, h⟩ := h
          exact Prog.wp_pure ⟨rfl, h⟩
    · rintro (⟨result, a, b⟩ | p) t ⟨rfl, hr⟩
      · exact ih hr
      · exact Prog.wp_pure ⟨hr, rfl⟩

theorem wp_powerloop_words {s1 n1 n2 n power : ℕ} {s : MergeState T σ}
    {R : E → MergeState T σ → Prop} (h : powerloopWords s1 n1 n2 n = some power) :
    Prog.wp (powerloop s1 n1 n2 n) (fun p t => p = power ∧ t = s) R s := by
  simp only [powerloopWords, Option.bind_eq_bind, Option.bind_eq_some_iff, word_eq_some] at h
  obtain ⟨_, ⟨-, rfl⟩, _, ⟨-, rfl⟩, _, ⟨-, rfl⟩, _, ⟨-, rfl⟩, h⟩ := h
  exact wp_powerSteps h

/-- Two points in one cell of a level are not separated there. -/
theorem not_cut_of_cell {w k x y a b q : ℕ} (hx : a + q * w = 2 ^ k * x)
    (hy : b + q * w = 2 ^ k * y) (hb : b < w) : ¬ Cut w k x y := by
  rintro ⟨c, hc, hc'⟩
  rw [← hx] at hc
  rw [← hy] at hc'
  have hqc : q < c := by
    have : q * w < c * w := by omega
    exact Nat.lt_of_mul_lt_mul_right this
  have := Nat.mul_le_mul_right w hqc
  rw [Nat.succ_mul] at this
  omega

/-- Midpoints `x` and `y` in the cell `q` of level `k`, with offsets `a` and `b` there: the loop
ends on the first level that separates them. -/
theorem powerWords_spec {n x y fuel k a b q : ℕ} (hn : n < 2 ^ 63) (hgap : x + 2 ≤ y)
    (hx : a + q * (2 * n) = 2 ^ k * x) (hy : b + q * (2 * n) = 2 ^ k * y) (hb : b < 2 * n)
    (hcut : ∀ j < k, ¬ Cut (2 * n) j x y) (hfuel : 2 * n - (b - a) < fuel) :
    ∃ p, powerWords n fuel k a b = some p ∧ IsDepth (2 * n) p x y := by
  induction fuel generalizing k a b q with
  | zero => omega
  | succ fuel ih =>
    have hcell := not_cut_of_cell hx hy hb
    have hcut' : ∀ j < k + 1, ¬ Cut (2 * n) j x y := by
      intro j hj
      rcases Nat.lt_succ_iff_lt_or_eq.mp hj with hj | rfl
      · exact hcut j hj
      · exact hcell
    have hwide : 2 ^ k * (y - x) < 2 * n := by
      by_contra hwide
      exact hcell (Cut.of_wide (by omega) (by omega) (by omega))
    have hab : a + 2 ^ k * (y - x) = b := by
      rw [Nat.mul_sub]
      have := Nat.mul_le_mul_left (2 ^ k) (show x ≤ y by omega)
      omega
    have hk2 : 2 ^ k * 2 ≤ 2 ^ k * (y - x) := Nat.mul_le_mul_left _ (by omega)
    have hpos : 0 < 2 ^ k := Nat.two_pow_pos k
    have hk : k < 63 := (Nat.pow_lt_pow_iff_right (by omega : 1 < 2)).mp (by omega)
    have hx2 : 2 ^ (k + 1) * x = 2 * (2 ^ k * x) := by ring
    have hy2 : 2 ^ (k + 1) * y = 2 * (2 ^ k * y) := by ring
    have hq : (2 * q + 1) * (2 * n) = 2 * (q * (2 * n)) + 2 * n := by ring
    have hq' : 2 * q * (2 * n) = 2 * (q * (2 * n)) := by ring
    unfold powerWords
    rw [word_of_lt (by omega), Option.bind_eq_bind, Option.bind_some]
    by_cases ha : n ≤ a
    · have ha2 : 2 * (a - n) < 2 ^ 64 := by omega
      have hb2 : 2 * (b - n) < 2 ^ 64 := by omega
      have hnb : n ≤ b := by omega
      simp only [if_pos ha, wordSub_of_le ha, wordSub_of_le hnb, word_of_lt ha2, word_of_lt hb2,
        Option.bind_some]
      apply ih _ _ _ hcut'
      · omega
      · exact 2 * q + 1
      · omega
      · omega
      · omega
    · rw [if_neg ha]
      by_cases hbn : n ≤ b
      · rw [if_pos hbn]
        refine ⟨k + 1, rfl, ⟨2 * q + 1, ?_, ?_⟩, hcut'⟩
        · omega
        · omega
      · have ha2 : 2 * a < 2 ^ 64 := by omega
        have hb2 : 2 * b < 2 ^ 64 := by omega
        simp only [if_neg hbn, word_of_lt ha2, word_of_lt hb2, Option.bind_some]
        apply ih _ _ _ hcut'
        · omega
        · exact 2 * q
        · omega
        · omega
        · omega

/-- No operation of `powerloop` overflows, and it ends. -/
theorem powerloopWords_spec {s1 n1 n2 n : ℕ} (hn : n < 2 ^ 63) (h1 : 0 < n1) (h2 : 0 < n2)
    (hle : s1 + n1 + n2 ≤ n) : ∃ p, powerloopWords s1 n1 n2 n = some p ∧
      IsDepth (2 * n) p (2 * s1 + n1) (2 * (s1 + n1) + n2) := by
  have hb : 2 * s1 + n1 + n1 + n2 = 2 * (s1 + n1) + n2 := by ring
  have hword : ∀ z ≤ 2 * n, word 64 z = some z := fun z hz => word_of_lt (by omega)
  simp only [powerloopWords, Option.bind_eq_bind, hword (2 * s1) (by omega), Option.bind_some,
    hword (2 * s1 + n1) (by omega), hword (2 * s1 + n1 + n1) (by omega),
    hb, hword (2 * (s1 + n1) + n2) (by omega)]
  apply powerWords_spec hn _ _ _ _ (by simp)
  · omega
  · exact 0
  · omega
  · omega
  · omega
  · omega

end Powers

/-- Where the sort stands: in front of the next run, merging before the run of length `n2` that was
found is pushed, about to push it, or merging what is left. -/
inductive Point where
  | scanning
  | merging (n2 power : ℕ)
  | found (n2 : ℕ)
  | collapsing

/-- The part before `lo` is sorted. -/
structure Stack where
  lo : ℕ
  point : Point
  pending : List Run

def Run.join (a b : Run) : Run := { a with len := a.len + b.len }

/-- One change of the stack in the sort of a list of length `n`. -/
inductive Move (n : ℕ) : Stack → Stack → Prop where
  | first {lo n2 : ℕ} (hpos : 0 < n2) (hle : lo + n2 ≤ n) :
      Move n ⟨lo, .scanning, []⟩ ⟨lo, .found n2, []⟩
  | boundary {lo n2 power : ℕ} {l : List Run} {top : Run} (hpos : 0 < n2) (hle : lo + n2 ≤ n)
      (hpower : powerloopWords top.base top.len n2 n = some power) :
      Move n ⟨lo, .scanning, l ++ [top]⟩ ⟨lo, .merging n2 power, l ++ [top]⟩
  | merge {lo n2 power : ℕ} {l : List Run} {a b : Run} (hpower : power < a.power) :
      Move n ⟨lo, .merging n2 power, l ++ [a, b]⟩ ⟨lo, .merging n2 power, l ++ [a.join b]⟩
  | record {lo n2 power : ℕ} {l : List Run} {top : Run}
      (hpower : ∀ a ∈ l.getLast?, a.power ≤ power) :
      Move n ⟨lo, .merging n2 power, l ++ [top]⟩ ⟨lo, .found n2, l ++ [{ top with power := power }]⟩
  | push {lo n2 : ℕ} {pending : List Run} :
      Move n ⟨lo, .found n2, pending⟩ ⟨lo + n2, .scanning, pending ++ [⟨lo, n2, 0⟩]⟩
  | finish {pending : List Run} : Move n ⟨n, .scanning, pending⟩ ⟨n, .collapsing, pending⟩
  | collapseTop {lo : ℕ} {l : List Run} {a b : Run} (hlen : ∀ z ∈ l.getLast?, b.len ≤ z.len) :
      Move n ⟨lo, .collapsing, l ++ [a, b]⟩ ⟨lo, .collapsing, l ++ [a.join b]⟩
  | collapseBelow {lo : ℕ} {l : List Run} {a b c : Run} (hlen : a.len < c.len) :
      Move n ⟨lo, .collapsing, l ++ [a, b, c]⟩ ⟨lo, .collapsing, l ++ [a.join b, c]⟩

/-- The stack at some point of the sort of a list of length `n`. -/
def Reachable (n : ℕ) : Stack → Prop := Relation.ReflTransGen (Move n) ⟨0, .scanning, []⟩

/-- The runs are adjacent and non-empty and fill the part from `base` to `top`. -/
def Fills : ℕ → List Run → ℕ → Prop
  | base, [], top => base = top
  | base, run :: runs, top => run.base = base ∧ 0 < run.len ∧ Fills (base + run.len) runs top

def powers (pending : List Run) : List ℕ := pending.map Run.power

theorem fills_append {base top : ℕ} {l m : List Run} :
    Fills base (l ++ m) top ↔ ∃ mid, Fills base l mid ∧ Fills mid m top := by
  induction l generalizing base with
  | nil => simp [Fills]
  | cons run l ih => simp [Fills, ih, and_assoc]

theorem fills_pair {base top : ℕ} {a b : Run} {m : List Run} (h : Fills base (a :: b :: m) top) :
    Fills base (a.join b :: m) top := by
  obtain ⟨ha, hla, hb, hlb, hm⟩ := h
  refine ⟨ha, Nat.add_pos_left hla _, ?_⟩
  rwa [Run.join, ← Nat.add_assoc]

theorem fills_merge {base top : ℕ} {l m : List Run} {a b : Run}
    (h : Fills base (l ++ a :: b :: m) top) : Fills base (l ++ a.join b :: m) top := by
  obtain ⟨mid, hl, hm⟩ := fills_append.mp h
  exact fills_append.mpr ⟨mid, hl, fills_pair hm⟩

/-- What the recorded powers are, as depths of the boundaries, at each point of the sort. -/
def Powered (n : ℕ) : Stack → Prop
  | ⟨_, .scanning, pending⟩ => pending = [] ∨ ∃ l top, pending = l ++ [top] ∧
      2 * top.base + top.len < 2 * n ∧
      ∀ q, Nested (2 * n) 2 q (2 * top.base + top.len) (powers l).reverse
  | ⟨lo, .merging n2 power, pending⟩ => 0 < n2 ∧ lo + n2 ≤ n ∧ ∃ l top m, pending = l ++ [top] ∧
      m + 2 ≤ 2 * lo + n2 ∧ IsDepth (2 * n) power m (2 * lo + n2) ∧
      Nested (2 * n) 2 power m (powers l).reverse
  | ⟨lo, .found n2, pending⟩ => 0 < n2 ∧ lo + n2 ≤ n ∧
      ∀ q, Nested (2 * n) 2 q (2 * lo + n2) (powers pending).reverse
  | ⟨_, .collapsing, pending⟩ => (powers pending.dropLast).Pairwise (· < ·) ∧
      pending.length ≤ Nat.clog 2 n + 1

structure Balanced (n : ℕ) (k : Stack) : Prop where
  le : k.lo ≤ n
  fills : Fills 0 k.pending k.lo
  powered : Powered n k

theorem nested_powers {n q m : ℕ} {l : List Run} (h : Nested (2 * n) 2 q m (powers l).reverse)
    (hm : m < 2 * n) : (powers l).Pairwise (· < ·) ∧ l.length ≤ Nat.clog 2 n := by
  constructor
  · exact List.pairwise_reverse.mp h.pairwise
  · have hwide : 2 * n ≤ 2 ^ Nat.clog 2 n * 2 := by
      have := Nat.le_pow_clog (by omega : 1 < 2) n
      omega
    have := h.length_le_of_wide hm hwide
    rwa [List.length_reverse, powers, List.length_map] at this

theorem powers_append {l m : List Run} : powers (l ++ m) = powers l ++ powers m := List.map_append

theorem Fills.top {base lo : ℕ} {l : List Run} {run : Run} (h : Fills base (l ++ [run]) lo) :
    0 < run.len ∧ run.base + run.len = lo := by
  obtain ⟨mid, -, hbase, hpos, htop⟩ := fills_append.mp h
  rw [hbase]
  exact ⟨hpos, htop⟩

theorem Move.balanced {n : ℕ} {k k' : Stack} (hn : n < 2 ^ 63) (h : Move n k k')
    (hk : Balanced n k) : Balanced n k' := by
  obtain ⟨hlo, hfills, hpow⟩ := hk
  cases h with
  | first hpos hle => exact ⟨hlo, hfills, hpos, hle, fun _ => trivial⟩
  | @boundary lo n2 power l top hpos hle hpower =>
    obtain hnil | ⟨l', top', heq, -, hnested⟩ := hpow
    · simp at hnil
    · obtain ⟨rfl, rfl⟩ : l = l' ∧ top = top' := by simpa using List.append_inj' heq rfl
      obtain ⟨hlen, hend⟩ := hfills.top
      dsimp only at hend
      have htotal : top.base + top.len + n2 ≤ n := by omega
      obtain ⟨p, hp, hdepth⟩ := powerloopWords_spec hn hlen hpos htotal
      obtain rfl := Option.some.inj (hpower.symm.trans hp)
      rw [hend] at hdepth
      exact ⟨hlo, hfills, hpos, hle, l, top, _, rfl, by omega, hdepth, hnested _⟩
  | @merge lo n2 power l a b hpower =>
    obtain ⟨hpos, hle, l', top, m, heq, hm, hdepth, hnested⟩ := hpow
    have heq' : (l ++ [a]) ++ [b] = l' ++ [top] := by simpa using heq
    obtain ⟨rfl, rfl⟩ : l ++ [a] = l' ∧ b = top := by simpa using List.append_inj' heq' rfl
    refine ⟨hlo, fills_merge hfills, hpos, hle, l, a.join b, m, rfl, hm, hdepth, ?_⟩
    rw [powers_append, List.reverse_append] at hnested
    exact hnested.pop hpower
  | @record lo n2 power l top hpower =>
    obtain ⟨hpos, hle, l', top', m, heq, hm, hdepth, hnested⟩ := hpow
    obtain ⟨rfl, rfl⟩ : l = l' ∧ top = top' := by simpa using List.append_inj' heq rfl
    refine ⟨hlo, ?_, hpos, hle, fun q => ?_⟩
    · obtain ⟨mid, hl, htop⟩ := fills_append.mp hfills
      exact fills_append.mpr ⟨mid, hl, htop⟩
    · rw [powers_append, List.reverse_append]
      apply hnested.push hdepth (by omega) hm
      intro p hp
      rw [powers, ← List.map_reverse, List.head?_map, List.head?_reverse, Option.mem_def,
        Option.map_eq_some_iff] at hp
      obtain ⟨a, ha, rfl⟩ := hp
      exact hpower a ha
  | @push lo n2 pending =>
    obtain ⟨hpos, hle, hnested⟩ := hpow
    refine ⟨hle, fills_append.mpr ⟨lo, hfills, rfl, hpos, rfl⟩, Or.inr ⟨pending, _, rfl, ?_, hnested⟩⟩
    dsimp only
    omega
  | @finish pending =>
    refine ⟨hlo, hfills, ?_⟩
    obtain rfl | ⟨l, top, rfl, hlt, hnested⟩ := hpow
    · simp [Powered, powers]
    · obtain ⟨hinc, hlen⟩ := nested_powers (hnested 0) hlt
      simpa [Powered] using ⟨hinc, hlen⟩
  | @collapseTop lo l a b hlen =>
    obtain ⟨hinc, hlen⟩ := hpow
    refine ⟨hlo, fills_merge hfills, ?_, ?_⟩
    · have hdrop : (l ++ [a, b]).dropLast = l ++ [a] := by simp
      rw [hdrop, powers_append] at hinc
      rw [List.dropLast_concat]
      exact (List.pairwise_append.mp hinc).1
    · simp only [List.length_append, List.length_cons] at hlen ⊢
      omega
  | @collapseBelow lo l a b c hlen =>
    obtain ⟨hinc, hlen⟩ := hpow
    refine ⟨hlo, fills_merge hfills, ?_, ?_⟩
    · have hdrop : (l ++ [a, b, c]).dropLast = (l ++ [a]) ++ [b] := by simp
      have hdrop' : (l ++ [a.join b, c]).dropLast = l ++ [a.join b] := by simp
      rw [hdrop, powers_append, powers_append] at hinc
      rw [hdrop', powers_append]
      exact (List.pairwise_append.mp hinc).1
    · simp only [List.length_append, List.length_cons] at hlen ⊢
      omega

theorem Reachable.balanced {n : ℕ} {k : Stack} (hn : n < 2 ^ 63) (h : Reachable n k) :
    Balanced n k := by
  induction h with
  | refl => exact ⟨Nat.zero_le n, rfl, Or.inl rfl⟩
  | tail _ hmove ih => exact hmove.balanced hn ih

theorem Balanced.below {n : ℕ} {k : Stack} (h : Balanced n k) :
    (powers k.pending.dropLast).Pairwise (· < ·) ∧ k.pending.length ≤ Nat.clog 2 n + 1 := by
  obtain ⟨-, -, hpow⟩ := h
  obtain ⟨lo, point, pending⟩ := k
  cases point with
  | scanning =>
    obtain rfl | ⟨l, top, rfl, hlt, hnested⟩ := hpow
    · simp [powers]
    · simpa using nested_powers (hnested 0) hlt
  | merging n2 power =>
    obtain ⟨hpos, hle, l, top, m, rfl, hm, -, hnested⟩ := hpow
    simpa using nested_powers hnested (by omega)
  | found n2 =>
    obtain ⟨hpos, hle, hnested⟩ := hpow
    obtain ⟨hinc, hlen⟩ := nested_powers (hnested 0) (by omega)
    refine ⟨hinc.sublist ?_, Nat.le_succ_of_le hlen⟩
    exact (List.dropLast_sublist _).map _
  | collapsing => exact hpow

theorem Balanced.found {n n2 lo : ℕ} {pending : List Run} (h : Balanced n ⟨lo, .found n2, pending⟩) :
    (powers pending).Pairwise (· < ·) := by
  obtain ⟨-, -, hpos, hle, hnested⟩ := h
  exact (nested_powers (hnested 0) (by omega)).1

end WeavePy.Timsort
