import WeavePy.Lib.Wrapping
import WeavePy.Lib.BinaryGcd
import Mathlib.Algebra.EuclideanDomain.Int
import Mathlib.Algebra.GCDMonoid.Nat
import Mathlib.RingTheory.PrincipalIdealDomain

/-!
Python integers as the interpreter stores them, and `math.gcd`: the binary algorithm on machine
words, the shortcuts of the big-integer case, and the fold over the arguments.
-/

namespace WeavePy.Math

open BinaryGcd

/-- A machine word, a `bool` or a big integer. -/
inductive PyInt where
  | int (i : Int64)
  | bool (b : Bool)
  | long (n : ℤ)

def PyInt.value : PyInt → ℤ
  | .int i => i.toInt
  | .bool b => if b then 1 else 0
  | .long n => n

/-- `Object::int_from_bigint`. -/
def intFromBigint (n : ℤ) : PyInt := if Signed 64 n then .int (Int64.ofInt n) else .long n

theorem toInt_of_signed {n : ℤ} (h : Signed 64 n) : (Int64.ofInt n).toInt = n :=
  Int64.toInt_ofInt_of_le h.1 h.2

theorem value_intFromBigint (n : ℤ) : (intFromBigint n).value = n := by
  unfold intFromBigint
  split
  next h => exact toInt_of_signed h
  · rfl

/-- The loop of `gcd_u128`, with `a` odd and `b` not zero. -/
def gcdLoop (shift : ℕ) : ℕ → ℕ → ℕ → Outcome ℕ
  | 0, _, _ => .error .diverge
  | fuel + 1, a, b =>
    let b := b >>> trailingZeros 128 b
    let (a, b) := if b < a then (b, a) else (a, b)
    let b := b - a
    if b = 0 then .ok (a <<< shift % 2 ^ 128) else gcdLoop shift fuel a b

/-- Binary GCD of two machine words. -/
def gcdU128 (a b : ℕ) : Outcome ℕ :=
  if a = 0 then .ok b
  else if b = 0 then .ok a
  else
    let shift := trailingZeros 128 (a ||| b)
    let a := a >>> trailingZeros 128 a
    gcdLoop shift (a + b + 1) a b

/-- `BigUint::trailing_zeros`; a number has fewer bits than it has units. -/
def bigTrailingZeros (n : ℕ) : Option ℕ := if n = 0 then none else some (trailingZeros n n)

section

variable (bigGcd : ℕ → ℕ → ℕ)

/-- The odd parts' GCD, with `bigGcd` the library's. -/
def gcdOdd (a b : ℕ) : Outcome ℕ :=
  if a = 1 ∨ b = 1 then .ok 1
  else if a < 2 ^ 128 ∧ b < 2 ^ 128 then gcdU128 a b
  else if b < 2 ^ 64 then gcdU128 (a % b) b
  else if a < 2 ^ 64 then gcdU128 (b % a) a
  else .ok (bigGcd a b)

def gcdBigint (a b : ℤ) : Outcome ℤ :=
  let a := a.natAbs
  let b := b.natAbs
  if a = 0 then .ok b
  else if b = 0 then .ok a
  else do
    let za := (bigTrailingZeros a).getD 0
    let zb := (bigTrailingZeros b).getD 0
    let odd ← gcdOdd bigGcd (a >>> za) (b >>> zb)
    return (odd <<< min za zb : ℕ)

/-- The magnitude of a machine-word argument. -/
def small : PyInt → Option ℕ
  | .int i => some i.toInt.natAbs
  | .bool b => some (if b then 1 else 0)
  | .long _ => none

def mathGcd (args : List PyInt) : Outcome PyInt :=
  match args.mapM small with
  | some words => do
    let g ← words.foldlM (fun a b => do
      let g ← gcdU128 a b
      return g % 2 ^ 64) 0
    return intFromBigint g
  | none => do
    let acc ← args.foldlM (fun acc a => gcdBigint bigGcd acc a.value) 0
    return intFromBigint acc

end

theorem gcdLoop_spec {shift fuel a b : ℕ} (ha : a % 2 = 1) (hb : b ≠ 0) (ha128 : a < 2 ^ 128)
    (hb128 : b < 2 ^ 128) (hfuel : a + b < fuel) :
    gcdLoop shift fuel a b = .ok (Nat.gcd a b <<< shift % 2 ^ 128) := by
  induction fuel generalizing a b with
  | zero => omega
  | succ fuel ih =>
    obtain ⟨m, hm, hshift, heq⟩ := exists_odd hb hb128
    have hle : m ≤ b := by
      rw [heq]
      exact Nat.le_mul_of_pos_left m (Nat.two_pow_pos _)
    have hgcd : Nat.gcd a b = Nat.gcd a m := by
      rw [heq, gcd_two_pow_mul ha]
    have hround := gcd_min_sub a m
    unfold gcdLoop
    dsimp only
    rw [hshift, hgcd, ← hround]
    by_cases hlt : m < a
    · rw [if_pos hlt, Nat.min_eq_right hlt.le, Nat.max_eq_left hlt.le]
      dsimp only
      rw [if_neg (by omega)]
      exact ih hm (by omega) (by omega) (by omega) (by omega)
    · have hge := Nat.le_of_not_lt hlt
      rw [if_neg hlt, Nat.min_eq_left hge, Nat.max_eq_right hge]
      dsimp only
      by_cases hzero : m - a = 0
      · rw [if_pos hzero, hzero, Nat.gcd_zero_right]
      · rw [if_neg hzero]
        exact ih ha hzero ha128 (by omega) (by omega)

/-- The binary algorithm ends on every pair of words, with their GCD. -/
theorem gcdU128_spec {a b : ℕ} (ha : a < 2 ^ 128) (hb : b < 2 ^ 128) :
    gcdU128 a b = .ok (Nat.gcd a b) := by
  unfold gcdU128
  by_cases ha0 : a = 0
  · rw [if_pos ha0, ha0, Nat.gcd_zero_left]
  · rw [if_neg ha0]
    by_cases hb0 : b = 0
    · rw [if_pos hb0, hb0, Nat.gcd_zero_right]
    · rw [if_neg hb0]
      obtain ⟨m, hm, hshift, heq⟩ := exists_odd ha0 ha
      obtain ⟨k, hk, -, heq'⟩ := exists_odd hb0 hb
      have hle : m ≤ a := by
        conv_rhs => rw [heq]
        exact Nat.le_mul_of_pos_left m (Nat.two_pow_pos _)
      have hodd : Nat.gcd m b = Nat.gcd m k := by
        rw [heq', gcd_two_pow_mul hm]
      have hgcd : Nat.gcd a b = 2 ^ min (trailingZeros 128 a) (trailingZeros 128 b) * Nat.gcd m k := by
        conv_lhs => rw [heq, heq']
        exact gcd_odd_parts hm hk
      have hlt : Nat.gcd a b < 2 ^ 128 :=
        (Nat.gcd_le_left b (Nat.pos_of_ne_zero ha0)).trans_lt ha
      dsimp only
      rw [hshift, gcdLoop_spec hm hb0 (by omega) hb (Nat.lt_succ_self _), trailingZeros_lor, hodd,
        Nat.shiftLeft_eq, Nat.mul_comm, ← hgcd, Nat.mod_eq_of_lt hlt]

section

variable {bigGcd : ℕ → ℕ → ℕ}

theorem gcdOdd_spec (hbig : ∀ a b, bigGcd a b = Nat.gcd a b) {a b : ℕ} (ha : a ≠ 0) (hb : b ≠ 0) :
    gcdOdd bigGcd a b = .ok (Nat.gcd a b) := by
  have hpow : 2 ^ 64 ≤ 2 ^ 128 := Nat.pow_le_pow_right (by decide) (by decide)
  unfold gcdOdd
  split_ifs with hone hboth hb64 ha64
  · rcases hone with rfl | rfl
    · rw [Nat.gcd_one_left]
    · rw [Nat.gcd_one_right]
  · exact gcdU128_spec hboth.1 hboth.2
  · have hmod := (Nat.mod_lt a (Nat.pos_of_ne_zero hb)).trans (hb64.trans_le hpow)
    rw [gcdU128_spec hmod (hb64.trans_le hpow), ← Nat.gcd_rec, Nat.gcd_comm]
  · have hmod := (Nat.mod_lt b (Nat.pos_of_ne_zero ha)).trans (ha64.trans_le hpow)
    rw [gcdU128_spec hmod (ha64.trans_le hpow), ← Nat.gcd_rec]
  · rw [hbig]

theorem bigTrailingZeros_spec {n : ℕ} (hn : n ≠ 0) : ∃ z m, bigTrailingZeros n = some z ∧
    m % 2 = 1 ∧ n >>> z = m ∧ n = 2 ^ z * m := by
  obtain ⟨m, hm, hshift, heq⟩ := exists_odd hn Nat.lt_two_pow_self
  exact ⟨_, m, if_neg hn, hm, hshift, heq⟩

theorem gcdBigint_spec (hbig : ∀ a b, bigGcd a b = Nat.gcd a b) (a b : ℤ) :
    gcdBigint bigGcd a b = .ok (Int.gcd a b : ℤ) := by
  unfold gcdBigint Int.gcd
  dsimp only
  generalize a.natAbs = a
  generalize b.natAbs = b
  by_cases ha : a = 0
  · rw [if_pos ha, ha, Nat.gcd_zero_left]
  · rw [if_neg ha]
    by_cases hb : b = 0
    · rw [if_pos hb, hb, Nat.gcd_zero_right]
    · rw [if_neg hb]
      obtain ⟨i, m, hi, hm, hshift, heq⟩ := bigTrailingZeros_spec ha
      obtain ⟨j, k, hj, hk, hshift', heq'⟩ := bigTrailingZeros_spec hb
      have hgcd : Nat.gcd a b = 2 ^ min i j * Nat.gcd m k := by
        rw [heq, heq', gcd_odd_parts hm hk]
      rw [hi, hj, Option.getD_some, Option.getD_some, hshift, hshift',
        gcdOdd_spec hbig (by omega) (by omega)]
      change Except.ok _ = Except.ok _
      rw [Nat.shiftLeft_eq, Nat.mul_comm, ← hgcd]

/-- The generator of the ideal that integers span. -/
def Generates (g : ℤ) (values : List ℤ) : Prop :=
  0 ≤ g ∧ Ideal.span {x | x ∈ values} = Ideal.span {g}

theorem generates_nil : Generates 0 [] := by
  refine ⟨Int.le_refl 0, ?_⟩
  simp

/-- Another number, by its GCD with the generator so far. -/
theorem Generates.snoc {g a : ℤ} {values : List ℤ} (h : Generates g values) :
    Generates (Int.gcd g a) (values ++ [a]) := by
  obtain ⟨-, hspan⟩ := h
  refine ⟨Int.natCast_nonneg _, ?_⟩
  have hset : {x | x ∈ values ++ [a]} = {x | x ∈ values} ∪ {a} := by
    ext x
    simp [or_comm]
  rw [hset, Ideal.span_union, hspan, ← Ideal.span_union, Int.coe_gcd]
  exact (span_gcd g a).symm

/-- A fold that takes the GCD at every step. -/
theorem foldlM_generates {α γ : Type} {f : γ → α → Outcome γ} {v : γ → ℤ} {w : α → ℤ}
    {p : γ → Prop} {l : List α}
    (hf : ∀ acc, p acc → ∀ a ∈ l, ∃ acc', f acc a = .ok acc' ∧ p acc' ∧
      v acc' = Int.gcd (v acc) (w a)) {acc : γ} {done : List ℤ} (hgood : p acc)
    (hacc : Generates (v acc) done) :
    ∃ g, l.foldlM f acc = .ok g ∧ Generates (v g) (done ++ l.map w) := by
  induction l generalizing acc done with
  | nil => exact ⟨acc, rfl, by simpa using hacc⟩
  | cons a l ih =>
    obtain ⟨acc', hstep, hgood', hval⟩ := hf acc hgood a (by simp)
    have hnext := hacc.snoc (a := w a)
    rw [← hval] at hnext
    obtain ⟨g, hg, hgen⟩ := ih (fun acc h b hb => hf acc h b (by simp [hb])) hgood' hnext
    refine ⟨g, ?_, by simpa using hgen⟩
    rw [List.foldlM_cons, hstep]
    exact hg

theorem small_spec {a : PyInt} {n : ℕ} (h : small a = some n) : n = a.value.natAbs ∧ n < 2 ^ 64 := by
  cases a with
  | int i =>
    obtain rfl := Option.some.inj h
    have := i.toInt_lt
    have := i.le_toInt
    exact ⟨rfl, by omega⟩
  | bool b =>
    obtain rfl := Option.some.inj h
    cases b
    · exact ⟨rfl, by decide⟩
    · exact ⟨rfl, by decide⟩
  | long n => cases h

theorem mapM_small {args : List PyInt} {words : List ℕ} (h : args.mapM small = some words) :
    words = args.map (fun a => a.value.natAbs) ∧ ∀ a ∈ args, a.value.natAbs < 2 ^ 64 := by
  induction args generalizing words with
  | nil =>
    obtain rfl := Option.some.inj h
    simp
  | cons a args ih =>
    rw [List.mapM_cons] at h
    obtain ⟨n, hn, h⟩ := Option.bind_eq_some_iff.mp h
    obtain ⟨rest, hrest, h⟩ := Option.bind_eq_some_iff.mp h
    obtain rfl := Option.some.inj h
    obtain ⟨rfl, hlt⟩ := small_spec hn
    obtain ⟨rfl, hall⟩ := ih hrest
    exact ⟨rfl, by simpa using ⟨hlt, hall⟩⟩

theorem mathGcd_spec (hbig : ∀ a b, bigGcd a b = Nat.gcd a b) (args : List PyInt) :
    ∃ g, mathGcd bigGcd args = .ok (intFromBigint g) ∧ Generates g (args.map PyInt.value) := by
  unfold mathGcd
  rcases hwords : args.mapM small with _ | words
  · have hfold := foldlM_generates (f := fun acc a => gcdBigint bigGcd acc a.value) (v := id)
      (w := PyInt.value) (p := fun _ => True) (l := args)
      (fun acc _ a _ => ⟨_, gcdBigint_spec hbig acc a.value, trivial, rfl⟩) trivial generates_nil
    obtain ⟨g, hg, hgen⟩ := hfold
    dsimp only
    rw [hg]
    exact ⟨g, rfl, hgen⟩
  · obtain ⟨rfl, hall⟩ := mapM_small hwords
    have hpow : 2 ^ 64 ≤ 2 ^ 128 := Nat.pow_le_pow_right (by decide) (by decide)
    have hfold := foldlM_generates (f := fun (acc : ℕ) (a : PyInt) => do
        let g ← gcdU128 acc a.value.natAbs
        return g % 2 ^ 64) (v := Int.ofNat) (w := PyInt.value) (p := fun acc => acc < 2 ^ 64)
      (l := args) ?_ (Nat.two_pow_pos 64) generates_nil
    · obtain ⟨g, hg, hgen⟩ := hfold
      dsimp only
      rw [List.foldlM_map, hg]
      exact ⟨g, rfl, hgen⟩
    · intro acc hacc a ha
      have hlt := hall a ha
      have hgcd : Nat.gcd acc a.value.natAbs < 2 ^ 64 := by
        rcases Nat.eq_zero_or_pos acc with rfl | hpos
        · rwa [Nat.gcd_zero_left]
        · exact (Nat.gcd_le_left _ hpos).trans_lt hacc
      refine ⟨Nat.gcd acc a.value.natAbs, ?_, hgcd, rfl⟩
      rw [gcdU128_spec (hacc.trans_le hpow) (hlt.trans_le hpow)]
      change Except.ok _ = Except.ok _
      rw [Nat.mod_eq_of_lt hgcd]

/-- With the library's GCD right, `math.gcd` of any integers is the non-negative generator of the
ideal they span, and the word algorithm ends on every pair of words. -/
theorem gcd_generates (hbig : ∀ a b, bigGcd a b = Nat.gcd a b) :
    (∀ args : List PyInt, ∃ r, mathGcd bigGcd args = .ok r ∧
      Generates r.value (args.map PyInt.value)) ∧
    ∀ a b, a < 2 ^ 128 → b < 2 ^ 128 → gcdU128 a b = .ok (Nat.gcd a b) := by
  constructor
  · intro args
    obtain ⟨g, hg, hgen⟩ := mathGcd_spec hbig args
    refine ⟨_, hg, ?_⟩
    rwa [value_intFromBigint]
  · exact fun a b ha hb => gcdU128_spec ha hb

end

/-- The greatest magnitude of a word is not one itself. -/
theorem gcd_least_word : ∃ r, mathGcd Nat.gcd [.int Int64.minValue, .long 0, .bool false] = .ok r ∧
    Generates r.value [-2 ^ 63, 0, 0] :=
  (gcd_generates fun a b => (rfl : Nat.gcd a b = Nat.gcd a b)).1
    [.int Int64.minValue, .long 0, .bool false]

end WeavePy.Math
