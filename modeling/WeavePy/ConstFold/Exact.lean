import WeavePy.ConstFold.Eval

/-!
What Python computes of integers, and where folding gives just that.
-/

namespace WeavePy.ConstFold

variable {F : Type}

/-- Of Python's values, the ones that integer operators take and give. -/
inductive Value (F : Type) where
  | bool (b : Bool)
  | int (z : ℤ)
  | float (x : F)
  | str (points : List UInt32)
  | bytes (b : List UInt8)
  | tuple (items : List (Constant F))

def value : Constant F → Option (Value F)
  | .bool b => some (.bool b)
  | .int v => some (.int v.toInt)
  | .bigInt s => s.toInt?.map .int
  | .float x => some (.float x)
  | .str s => some (.str (s.toList.map Char.val))
  | .wstr points => some (.str points)
  | .bytes b => some (.bytes b)
  | .tuple items => some (.tuple items)
  | _ => none

def Value.asInt : Value F → Option ℤ
  | .bool b => some b.toNat
  | .int z => some z
  | _ => none

/-! ### Python's operators -/

section Python

variable (fl : Floats F) (trueDivide : ℤ → ℤ → F)

/-- A quotient rounded down, and the remainder, which has the divisor's sign. -/
def Floored (a b q r : ℤ) : Prop := a = b * q + r ∧ (0 ≤ r ∧ r < b ∨ b < r ∧ r ≤ 0)

/-- Booleans stay one; integers are taken bit by bit in two's complement. -/
def Bitwise (f : Bool → Bool → Bool) (x y v : Value F) (a b : ℤ) : Prop :=
  match x, y with
  | .bool p, .bool q => v = .bool (f p q)
  | _, _ => ∃ z : ℤ, v = .int z ∧ ∀ k, z.testBit k = f (a.testBit k) (b.testBit k)

/-- `x op y` is `v`; no value where Python raises. -/
def Computes (op : BinOp) (x y v : Value F) : Prop :=
  ∃ a b, x.asInt = some a ∧ y.asInt = some b ∧
    match op with
    | .add => v = .int (a + b)
    | .sub => v = .int (a - b)
    | .mult => v = .int (a * b)
    | .div => b ≠ 0 ∧ v = .float (trueDivide a b)
    | .floorDiv => ∃ q r, Floored a b q r ∧ v = .int q
    | .mod => ∃ q r, Floored a b q r ∧ v = .int r
    | .pow =>
      (∃ n : ℕ, b = n ∧ v = .int (a ^ n)) ∨ b < 0 ∧ a ≠ 0 ∧ v = .float (fl.powf (fl.toF64 a) (fl.toF64 b))
    | .lShift => ∃ n : ℕ, b = n ∧ v = .int (a * 2 ^ n)
    | .rShift => ∃ n : ℕ, b = n ∧ ∃ q r, Floored a (2 ^ n) q r ∧ v = .int q
    | .bitOr => Bitwise or x y v a b
    | .bitXor => Bitwise xor x y v a b
    | .bitAnd => Bitwise and x y v a b
    | .matMult => False

def UnaryComputes (op : UnaryOp) (x v : Value F) : Prop :=
  ∃ a, x.asInt = some a ∧
    match op with
    | .invert => v = .int (-a - 1)
    | .not => v = .bool (a = 0)
    | .uAdd => v = .int a
    | .uSub => v = .int (-a)

def Repeats (n : ℤ) (x v : Value F) : Prop :=
  match x with
  | .str points => v = .str (List.replicate n.toNat points).flatten
  | .bytes b => v = .bytes (List.replicate n.toNat b).flatten
  | .tuple items => v = .tuple (List.replicate n.toNat items).flatten
  | _ => False

end Python

mutual

/-- Items of a constant, those of nested containers with them. -/
def total : Constant F → ℕ
  | .tuple items => items.length + totals items
  | .frozenSet items => items.length + totals items
  | _ => 0

def totals : List (Constant F) → ℕ
  | [] => 0
  | item :: items => total item + totals items

end

/-! ### What a fold promises -/

/-- It declines, or gives a constant at once; it never faults. -/
def Folds (P : Constant F → Prop) (x : Fold F) : Prop := x = declined ∨ ∃ c, x = folded c ∧ P c

def Sized (op : BinOp) (c : Constant F) : Prop :=
  op ∈ [.lShift, .mult, .pow] → ∀ z, intOf c = some z → bits z ≤ MAX_INT_SIZE

/-- Nothing, or the value that Python computes, within the bits that it may have. -/
def Exact (fl : Floats F) (trueDivide : ℤ → ℤ → F) (lv : Constant F) (op : BinOp) (rv : Constant F) : Prop :=
  Folds (fun c => (∃ x y v, value lv = some x ∧ value rv = some y ∧ value c = some v ∧ Computes fl trueDivide op x y v) ∧
    Sized op c) (evalBinop fl lv op rv)

/-- No sum of bits past `u64`, and no long shift that leaves more than the sign. -/
def Safe (op : BinOp) (a b : ℤ) : Prop :=
  match op with
  | .lShift => a ≠ 0 → 0 ≤ b → b < 2 ^ 64 → bits a + b < 2 ^ 64
  | .mult => a ≠ 0 → b ≠ 0 → bits a + bits b < 2 ^ 64
  | .rShift => 1000000 < b → -2 ^ b.toNat ≤ a ∧ a < 2 ^ b.toNat
  | _ => True

def Within : Value F → Prop
  | .str points => points.length ≤ MAX_STR_SIZE
  | .bytes b => b.length ≤ MAX_STR_SIZE
  | .tuple items => items.length ≤ MAX_COLLECTION_SIZE ∧ total (.tuple items) ≤ MAX_TOTAL_ITEMS
  | _ => True

/-- Nothing, or the sequence repeated, within the caps and in no more rounds than a sequence may have items. -/
def Capped (n : ℤ) (seq : Constant F) (x : Fold F) : Prop :=
  x = declined ∨ ∃ c rounds s v, x = .ok (some (c, rounds)) ∧ value seq = some s ∧ value c = some v ∧ Repeats n s v ∧
    Within v ∧ rounds ≤ MAX_COLLECTION_SIZE

section Constants

@[simp] theorem value_intConst (v : ℤ) : value (intConst v : Constant F) = some (.int v) := by
  unfold intConst toI64
  split_ifs with h
  · exact congrArg (fun z => some (Value.int z)) (Int64.toInt_ofInt_of_le h.1 h.2)
  · change v.repr.toInt?.map Value.int = _
    rw [Int.toInt?_repr]
    rfl

@[simp] theorem intOf_intConst (v : ℤ) : intOf (intConst v : Constant F) = some v := by
  unfold intConst toI64
  split_ifs with h
  · exact congrArg some (Int64.toInt_ofInt_of_le h.1 h.2)
  · exact Int.toInt?_repr v

variable {c lv rv : Constant F} {a b : ℤ}

theorem isIntKind_of_intOf (h : intOf c = some a) : isIntKind c = true := by
  cases c <;> first | rfl | cases h

theorem isNumeric_of_intOf (h : intOf c = some a) : isNumeric c = true := by
  cases c <;> first | rfl | cases h

theorem value_of_intOf (h : intOf c = some a) : ∃ x, value c = some x ∧ x.asInt = some a := by
  cases c with
  | bool p => exact ⟨_, rfl, h⟩
  | int v => exact ⟨_, rfl, h⟩
  | bigInt s =>
    refine ⟨.int a, ?_, rfl⟩
    change s.toInt?.map Value.int = _
    rw [show s.toInt? = some a from h]
    rfl
  | _ => cases h

theorem toU64_of_le (h : 0 ≤ b) (hb : b < 2 ^ 64) : toU64 b = some b.toNat := if_pos ⟨h, hb⟩

theorem makeStr_value (points : List UInt32) : value (makeStr points : Constant F) = some (.str points) := by
  unfold makeStr
  split_ifs with h
  · change some (Value.str _) = _
    rw [String.toList_ofList, List.map_map]
    have hval : (Char.val ∘ fun p : { x // x ∈ points } =>
        (⟨p.1, of_decide_eq_true (List.all_eq_true.mp h p.1 p.2)⟩ : Char)) = Subtype.val := rfl
    rw [hval, List.attach_map_subtype_val]
  · rfl

end Constants

section Bits

variable {a b : ℤ}

theorem lt_two_pow_bits (a : ℤ) : a.natAbs < 2 ^ bits a := Nat.lt_size_self _

theorem bits_mul_le (a b : ℤ) : bits (a * b) ≤ bits a + bits b := by
  apply Nat.size_le.mpr
  rw [Int.natAbs_mul, Nat.pow_add]
  exact Nat.mul_lt_mul'' (lt_two_pow_bits a) (lt_two_pow_bits b)

theorem bits_shiftLeft_le (a : ℤ) (n : ℕ) : bits (a * 2 ^ n) ≤ bits a + n := by
  apply Nat.size_le.mpr
  have htwo : ((2 : ℤ) ^ n).natAbs = 2 ^ n := by rw [Int.natAbs_pow]; rfl
  rw [Int.natAbs_mul, htwo, Nat.pow_add]
  exact Nat.mul_lt_mul_of_pos_right (lt_two_pow_bits a) (Nat.two_pow_pos n)

theorem bits_pow_le (a : ℤ) {n : ℕ} (hn : n ≠ 0) : bits (a ^ n) ≤ bits a * n := by
  apply Nat.size_le.mpr
  rw [Int.natAbs_pow, Nat.pow_mul]
  exact Nat.pow_lt_pow_left (lt_two_pow_bits a) hn

theorem floored_fdiv (a : ℤ) (hb : b ≠ 0) : Floored a b (a.fdiv b) (a.fmod b) := by
  refine ⟨(Int.mul_fdiv_add_fmod a b).symm, ?_⟩
  obtain hpos | hneg := lt_or_gt_of_ne hb.symm
  · exact .inl ⟨Int.fmod_nonneg_of_pos a hpos, Int.fmod_lt_of_pos a hpos⟩
  · have hflip := Int.neg_fmod_neg (-a) (-b)
    rw [neg_neg, neg_neg] at hflip
    have hlow := Int.fmod_nonneg_of_pos (-a) (b := -b) (by omega)
    have hhigh := Int.fmod_lt_of_pos (-a) (b := -b) (by omega)
    exact .inr (by omega)

theorem floored_shiftRight (a : ℤ) (n : ℕ) : Floored a (2 ^ n) (a >>> n) (a % 2 ^ n) := by
  have hpos : (0 : ℤ) < 2 ^ n := by positivity
  rw [Int.shiftRight_eq_div_pow]
  push_cast
  exact ⟨(Int.mul_ediv_add_emod a _).symm, .inl ⟨Int.emod_nonneg a hpos.ne', Int.emod_lt_of_pos a hpos⟩⟩

/-- Only the sign is left. -/
theorem floored_sign {n : ℕ} {q r : ℤ} (hq : q = if a < 0 then -1 else 0) (h : Floored a (2 ^ n) q r) :
    -2 ^ n ≤ a ∧ a < 2 ^ n := by
  have hpos : (0 : ℤ) < 2 ^ n := by positivity
  obtain ⟨heq, hr⟩ := h
  split_ifs at hq with hneg
  · rw [hq] at heq
    omega
  · rw [hq, mul_zero] at heq
    omega

theorem sign_floored {n : ℕ} (h : -2 ^ n ≤ a ∧ a < 2 ^ n) : ∃ r, Floored a (2 ^ n) (if a < 0 then -1 else 0) r := by
  split_ifs with hneg
  · exact ⟨a + 2 ^ n, by omega, .inl (by omega)⟩
  · exact ⟨a, by omega, .inl (by omega)⟩

end Bits

section Operators

variable {fl : Floats F} {trueDivide : ℤ → ℤ → F} {lv rv c : Constant F} {op : BinOp} {a b : ℤ}
  (hl : intOf lv = some a) (hr : intOf rv = some b)

include hl hr

theorem exact_of_folded (heval : evalBinop fl lv op rv = folded c) (hsized : Sized op c)
    (hc : ∀ x y, value lv = some x → value rv = some y → x.asInt = some a → y.asInt = some b →
      ∃ v, value c = some v ∧ Computes fl trueDivide op x y v) : Exact fl trueDivide lv op rv := by
  obtain ⟨x, hx, hxa⟩ := value_of_intOf hl
  obtain ⟨y, hy, hyb⟩ := value_of_intOf hr
  obtain ⟨v, hv, hcomputes⟩ := hc x y hx hy hxa hyb
  exact .inr ⟨c, heval, ⟨x, y, v, hx, hy, hv, hcomputes⟩, hsized⟩

/-- An integer is folded. -/
theorem exact_of_int {z : ℤ} (heval : evalBinop fl lv op rv = folded (intConst z))
    (hsized : op ∈ [.lShift, .mult, .pow] → bits z ≤ MAX_INT_SIZE)
    (hz : ∀ x y, value lv = some x → value rv = some y → x.asInt = some a → y.asInt = some b →
      Computes fl trueDivide op x y (.int z)) : Exact fl trueDivide lv op rv := by
  apply exact_of_folded hl hr heval
  · intro hop z' hz'
    rw [intOf_intConst] at hz'
    rw [← Option.some.inj hz']
    exact hsized hop
  · intro x y hx hy hxa hyb
    exact ⟨_, value_intConst z, hz x y hx hy hxa hyb⟩

theorem evalNumeric_int (intOp : ℤ → ℤ → ℤ) : evalNumeric fl op intOp lv rv = folded (intConst (intOp a b)) := by
  unfold evalNumeric
  rw [isNumeric_of_intOf hl, isNumeric_of_intOf hr, isIntKind_of_intOf hl, isIntKind_of_intOf hr, hl, hr]
  rfl

theorem exact_add : Exact fl trueDivide lv .add rv := by
  have heval : evalBinop fl lv .add rv = folded (intConst (a + b)) := by
    unfold evalBinop evalAdd
    dsimp only
    rw [isNumeric_of_intOf hl, isNumeric_of_intOf hr, evalNumeric_int hl hr]
    rfl
  apply exact_of_int hl hr heval (fun hop => absurd hop (by decide))
  intro x y _ _ hx hy
  exact ⟨a, b, hx, hy, rfl⟩

theorem exact_sub : Exact fl trueDivide lv .sub rv := by
  have heval : evalBinop fl lv .sub rv = folded (intConst (a - b)) := evalNumeric_int hl hr _
  apply exact_of_int hl hr heval (fun hop => absurd hop (by decide))
  intro x y _ _ hx hy
  exact ⟨a, b, hx, hy, rfl⟩

theorem evalMult_int : evalMult fl lv rv =
    if a ≠ 0 ∧ b ≠ 0 then
      (addU64 (bits a) (bits b)).bind fun sum => if sum > MAX_INT_SIZE then declined else folded (intConst (a * b))
    else folded (intConst (a * b)) := by
  unfold evalMult
  rw [isNumeric_of_intOf hl, isNumeric_of_intOf hr, isIntKind_of_intOf hl, isIntKind_of_intOf hr, hl, hr]
  rfl

theorem exact_mult_iff : Exact fl trueDivide lv .mult rv ↔ Safe .mult a b := by
  have hcomputes (x y : Value F) (_ : value lv = some x) (_ : value rv = some y) (hx : x.asInt = some a)
      (hy : y.asInt = some b) : Computes fl trueDivide .mult x y (.int (a * b)) := ⟨a, b, hx, hy, rfl⟩
  have heval : evalBinop fl lv .mult rv = _ := evalMult_int hl hr
  by_cases hzero : a ≠ 0 ∧ b ≠ 0
  · rw [if_pos hzero] at heval
    by_cases hsum : bits a + bits b < 2 ^ 64
    · rw [addU64, if_pos hsum] at heval
      apply iff_of_true _ fun _ _ => hsum
      by_cases hbig : bits a + bits b > MAX_INT_SIZE
      · exact .inl (heval.trans (if_pos hbig))
      · apply exact_of_int hl hr (heval.trans (if_neg hbig)) _ hcomputes
        intro _
        exact (bits_mul_le a b).trans (Nat.le_of_not_lt hbig)
    · rw [addU64, if_neg hsum] at heval
      apply iff_of_false _ fun hsafe => hsum (hsafe hzero.1 hzero.2)
      rintro (hdeclined | ⟨c, hfolded, -⟩)
      · cases heval.symm.trans hdeclined
      · cases heval.symm.trans hfolded
  · rw [if_neg hzero] at heval
    apply iff_of_true _ fun ha hb => absurd ⟨ha, hb⟩ hzero
    apply exact_of_int hl hr heval _ hcomputes
    intro _
    have hprod : a * b = 0 := by
      by_contra hne
      exact hzero ⟨left_ne_zero_of_mul hne, right_ne_zero_of_mul hne⟩
    rw [hprod]
    exact Nat.zero_le _

theorem exact_div (hdiv : ∀ a b : ℤ, bits a ≤ 53 → bits b ≤ 53 → b ≠ 0 →
      fl.div (fl.toF64 a) (fl.toF64 b) = trueDivide a b) : Exact fl trueDivide lv .div rv := by
  have heval : evalBinop fl lv .div rv = if b = 0 then declined
      else given (intToF64 fl a) fun af => given (intToF64 fl b) fun bf =>
        if bits a > 53 ∨ bits b > 53 then declined else folded (.float (fl.div af bf)) := by
    unfold evalBinop evalDiv
    dsimp only
    rw [isNumeric_of_intOf hl, isNumeric_of_intOf hr, isIntKind_of_intOf hl, isIntKind_of_intOf hr, hl, hr]
    rfl
  unfold intToF64 at heval
  by_cases hzero : b = 0
  · exact .inl (heval.trans (if_pos hzero))
  rw [if_neg hzero] at heval
  by_cases ha : fl.isFinite (fl.toF64 a) = true
  · rw [if_pos ha] at heval
    by_cases hb : fl.isFinite (fl.toF64 b) = true
    · rw [if_pos hb] at heval
      by_cases hround : bits a > 53 ∨ bits b > 53
      · exact .inl (heval.trans (if_pos hround))
      · apply exact_of_folded hl hr (heval.trans (if_neg hround)) (fun hop => absurd hop (by decide))
        intro x y _ _ hx hy
        refine ⟨_, rfl, a, b, hx, hy, hzero, ?_⟩
        rw [hdiv a b (by omega) (by omega) hzero]
    · rw [if_neg hb] at heval
      exact .inl heval
  · rw [if_neg ha] at heval
    exact .inl heval

theorem evalFloored_int (intOp : ℤ → ℤ → ℤ) :
    evalFloored fl op intOp lv rv = if b = 0 then declined else folded (intConst (intOp a b)) := by
  unfold evalFloored
  rw [isIntKind_of_intOf hl, isIntKind_of_intOf hr, hl, hr]
  rfl

theorem exact_floorDiv : Exact fl trueDivide lv .floorDiv rv := by
  have heval : evalBinop fl lv .floorDiv rv = _ := evalFloored_int hl hr _
  by_cases hzero : b = 0
  · exact .inl (heval.trans (if_pos hzero))
  · apply exact_of_int hl hr (heval.trans (if_neg hzero)) (fun hop => absurd hop (by decide))
    intro x y _ _ hx hy
    exact ⟨a, b, hx, hy, _, _, floored_fdiv a hzero, rfl⟩

theorem exact_mod : Exact fl trueDivide lv .mod rv := by
  have heval : evalBinop fl lv .mod rv = if b = 0 then declined else folded (intConst (a.fmod b)) := by
    have hint : evalFloored fl .mod Int.fmod lv rv = _ := evalFloored_int hl hr Int.fmod
    cases lv with
    | bool _ => exact hint
    | int _ => exact hint
    | bigInt _ => exact hint
    | _ => cases hl
  by_cases hzero : b = 0
  · exact .inl (heval.trans (if_pos hzero))
  · apply exact_of_int hl hr (heval.trans (if_neg hzero)) (fun hop => absurd hop (by decide))
    intro x y _ _ hx hy
    exact ⟨a, b, hx, hy, _, _, floored_fdiv a hzero, rfl⟩

theorem evalPow_int : evalPow fl lv rv =
    if b < 0 then
      if a = 0 ∨ bits a > 53 ∨ bits b > 53 then declined
      else given (intToF64 fl a) fun af => given (intToF64 fl b) fun bf => folded (.float (fl.powf af bf))
    else
      given (toU64 b) fun exp =>
        if a ≠ 0 ∧ b ≠ 0 ∧ bits a > MAX_INT_SIZE / max exp 1 then declined else folded (intConst (a ^ exp)) := by
  unfold evalPow
  rw [isIntKind_of_intOf hl, isIntKind_of_intOf hr, hl, hr]
  rfl

theorem exact_pow : Exact fl trueDivide lv .pow rv := by
  have heval : evalBinop fl lv .pow rv = _ := evalPow_int hl hr
  by_cases hneg : b < 0
  · rw [if_pos hneg] at heval
    by_cases hround : a = 0 ∨ bits a > 53 ∨ bits b > 53
    · exact .inl (heval.trans (if_pos hround))
    rw [if_neg hround] at heval
    unfold intToF64 at heval
    by_cases ha : fl.isFinite (fl.toF64 a) = true
    · rw [if_pos ha] at heval
      by_cases hb : fl.isFinite (fl.toF64 b) = true
      · rw [if_pos hb] at heval
        apply exact_of_folded hl hr heval
        · intro _ z hz
          cases hz
        · intro x y _ _ hx hy
          exact ⟨_, rfl, a, b, hx, hy, .inr ⟨hneg, fun h => hround (.inl h), rfl⟩⟩
      · rw [if_neg hb] at heval
        exact .inl heval
    · rw [if_neg ha] at heval
      exact .inl heval
  · rw [if_neg hneg] at heval
    by_cases hlarge : b < 2 ^ 64
    · rw [toU64_of_le (by omega) hlarge] at heval
      have hexp : ((b.toNat : ℕ) : ℤ) = b := Int.toNat_of_nonneg (by omega)
      by_cases hbig : a ≠ 0 ∧ b ≠ 0 ∧ bits a > MAX_INT_SIZE / max b.toNat 1
      · exact .inl (heval.trans (if_pos hbig))
      · apply exact_of_int hl hr (heval.trans (if_neg hbig))
        · intro _
          by_cases hpow : b.toNat = 0
          · rw [hpow, pow_zero]
            decide
          · by_cases hbase : a = 0
            · rw [hbase, zero_pow hpow]
              exact Nat.zero_le _
            · have hle : bits a ≤ MAX_INT_SIZE / max b.toNat 1 := by
                by_contra hgt
                exact hbig ⟨hbase, by omega, by omega⟩
              rw [Nat.max_eq_left (by omega)] at hle
              calc bits (a ^ b.toNat) ≤ bits a * b.toNat := bits_pow_le a hpow
                _ ≤ MAX_INT_SIZE / b.toNat * b.toNat := Nat.mul_le_mul_right _ hle
                _ ≤ MAX_INT_SIZE := Nat.div_mul_le_self _ _
        · intro x y _ _ hx hy
          exact ⟨a, b, hx, hy, .inl ⟨b.toNat, hexp.symm, rfl⟩⟩
    · have hnone : toU64 b = none := if_neg fun h => hlarge h.2
      rw [hnone] at heval
      exact .inl heval

theorem exact_lShift_iff : Exact fl trueDivide lv .lShift rv ↔ Safe .lShift a b := by
  have heval : evalBinop fl lv .lShift rv = if b < 0 then declined
      else if a ≠ 0 then given (toU64 b) fun shift =>
        (addU64 (bits a) shift).bind fun sum => if sum > MAX_INT_SIZE then declined else folded (intConst (a <<< shift))
      else given (toU64 b) fun shift => folded (intConst (a <<< shift)) := by
    change evalLShift lv rv = _
    unfold evalLShift
    rw [hl, hr]
    rfl
  by_cases hneg : b < 0
  · rw [if_pos hneg] at heval
    exact iff_of_true (.inl heval) fun _ hpos => by omega
  rw [if_neg hneg] at heval
  have hshift : ((b.toNat : ℕ) : ℤ) = b := Int.toNat_of_nonneg (by omega)
  have hcomputes (x y : Value F) (_ : value lv = some x) (_ : value rv = some y) (hx : x.asInt = some a)
      (hy : y.asInt = some b) : Computes fl trueDivide .lShift x y (.int (a <<< b.toNat)) := by
    rw [Int.shiftLeft_eq]
    exact ⟨a, b, hx, hy, b.toNat, hshift.symm, rfl⟩
  by_cases hlarge : b < 2 ^ 64
  · rw [toU64_of_le (by omega) hlarge] at heval
    by_cases hzero : a = 0
    · rw [if_neg (not_not.mpr hzero)] at heval
      apply iff_of_true _ fun h => absurd hzero h
      apply exact_of_int hl hr heval _ hcomputes
      intro _
      rw [hzero, Int.zero_shiftLeft]
      exact Nat.zero_le _
    · rw [if_pos hzero] at heval
      change _ = (addU64 (bits a) b.toNat).bind _ at heval
      by_cases hsum : bits a + b.toNat < 2 ^ 64
      · rw [addU64, if_pos hsum] at heval
        apply iff_of_true _ fun _ _ _ => by omega
        by_cases hbig : bits a + b.toNat > MAX_INT_SIZE
        · exact .inl (heval.trans (if_pos hbig))
        · apply exact_of_int hl hr (heval.trans (if_neg hbig)) _ hcomputes
          intro _
          rw [Int.shiftLeft_eq]
          exact (bits_shiftLeft_le a b.toNat).trans (Nat.le_of_not_lt hbig)
      · rw [addU64, if_neg hsum] at heval
        apply iff_of_false _ fun hsafe => hsum (by have := hsafe hzero (by omega) hlarge; omega)
        rintro (hdeclined | ⟨c, hfolded, -⟩)
        · cases heval.symm.trans hdeclined
        · cases heval.symm.trans hfolded
  · have hnone : toU64 b = none := if_neg fun h => hlarge h.2
    rw [hnone] at heval
    apply iff_of_true _ fun _ _ h => absurd h hlarge
    by_cases hzero : a = 0
    · exact .inl (heval.trans (if_neg (not_not.mpr hzero)))
    · exact .inl (heval.trans (if_pos hzero))

theorem exact_rShift_iff : Exact fl trueDivide lv .rShift rv ↔ Safe .rShift a b := by
  have heval : evalBinop fl lv .rShift rv = if b < 0 then declined
      else if (toU64 b).getD (2 ^ 64 - 1) > 1000000 then folded (intConst (if a < 0 then -1 else 0))
      else folded (intConst (a >>> (toU64 b).getD (2 ^ 64 - 1))) := by
    change evalRShift lv rv = _
    unfold evalRShift
    rw [hl, hr]
    rfl
  by_cases hneg : b < 0
  · rw [if_pos hneg] at heval
    exact iff_of_true (.inl heval) fun _ => by omega
  rw [if_neg hneg] at heval
  have hshift : ((b.toNat : ℕ) : ℤ) = b := Int.toNat_of_nonneg (by omega)
  have hlong : (toU64 b).getD (2 ^ 64 - 1) > 1000000 ↔ 1000000 < b := by
    unfold toU64
    split_ifs with h
    · rw [Option.getD_some]
      omega
    · rw [Option.getD_none]
      omega
  by_cases hb : 1000000 < b
  · rw [if_pos (hlong.mpr hb)] at heval
    constructor
    · intro hexact _
      obtain hdeclined | ⟨c, hfolded, ⟨x, y, v, hx, hy, hv, a', b', hxa, hyb, n, hn, q, r, hfloor, hq⟩, -⟩ := hexact
      · cases heval.symm.trans hdeclined
      · obtain ⟨x', hx', hxa'⟩ := value_of_intOf hl
        obtain ⟨y', hy', hyb'⟩ := value_of_intOf hr
        rw [hx] at hx'
        rw [hy] at hy'
        obtain rfl := Option.some.inj hx'
        obtain rfl := Option.some.inj hy'
        obtain rfl := Option.some.inj (hxa.symm.trans hxa')
        obtain rfl := Option.some.inj (hyb.symm.trans hyb')
        obtain rfl := congrArg Prod.fst (Option.some.inj (Except.ok.inj (hfolded.symm.trans heval)))
        rw [value_intConst, hq] at hv
        have hsign : (if a' < 0 then -1 else 0) = q := Value.int.inj (Option.some.inj hv)
        have hnat : b'.toNat = n := by omega
        rw [hnat]
        exact floored_sign hsign.symm hfloor
    · intro hsafe
      obtain ⟨r, hr'⟩ := sign_floored (hsafe hb)
      apply exact_of_int hl hr heval (fun hop => absurd hop (by decide))
      intro x y _ _ hx hy
      exact ⟨a, b, hx, hy, b.toNat, hshift.symm, _, r, hr', rfl⟩
  · rw [if_neg fun h => hb (hlong.mp h), toU64_of_le (by omega) (by omega)] at heval
    apply iff_of_true _ fun h => absurd h hb
    apply exact_of_int hl hr heval (fun hop => absurd hop (by decide))
    intro x y _ _ hx hy
    exact ⟨a, b, hx, hy, b.toNat, hshift.symm, _, _, floored_shiftRight a b.toNat, rfl⟩

/-- Booleans give one, whichever the operator; other operands are taken bit by bit. -/
theorem exact_bits {boolOp : Bool → Bool → Bool} {intOp : ℤ → ℤ → ℤ}
    (hbits : ∀ a b k, (intOp a b).testBit k = boolOp (a.testBit k) (b.testBit k))
    (heval : evalBinop fl lv op rv = evalBits boolOp intOp lv rv) (hop : op ∉ [.lShift, .mult, .pow])
    (hcomputes : ∀ x y v : Value F, x.asInt = some a → y.asInt = some b → Bitwise boolOp x y v a b →
      Computes fl trueDivide op x y v) : Exact fl trueDivide lv op rv := by
  by_cases hbool : ∃ p q, lv = .bool p ∧ rv = .bool q
  · obtain ⟨p, q, rfl, rfl⟩ := hbool
    apply exact_of_folded hl hr (c := .bool (boolOp p q)) heval (fun h => absurd h hop)
    intro x y hx hy hxa hyb
    obtain rfl := Option.some.inj hx
    obtain rfl := Option.some.inj hy
    exact ⟨_, rfl, hcomputes _ _ _ hxa hyb rfl⟩
  · have hint : evalBits boolOp intOp lv rv = folded (intConst (intOp a b)) := by
      unfold evalBits
      split
      · exact absurd ⟨_, _, rfl, rfl⟩ hbool
      · rw [hl, hr]
        rfl
    apply exact_of_int hl hr (heval.trans hint) (fun h => absurd h hop)
    intro x y hx hy hxa hyb
    apply hcomputes _ _ _ hxa hyb
    unfold Bitwise
    split
    · rename_i p q
      have hkind {c : Constant F} {p : Bool} (h : value c = some (.bool p)) : c = .bool p := by
        cases c with
        | bool p' => rw [Value.bool.inj (Option.some.inj h)]
        | bigInt s =>
          obtain ⟨z, -, hz⟩ := Option.map_eq_some_iff.mp h
          cases hz
        | _ => cases h
      exact absurd ⟨p, q, hkind hx, hkind hy⟩ hbool
    · exact ⟨_, rfl, hbits a b⟩

/-- Where an integer fold is exact. -/
theorem exact_iff (hdiv : ∀ a b : ℤ, bits a ≤ 53 → bits b ≤ 53 → b ≠ 0 →
      fl.div (fl.toF64 a) (fl.toF64 b) = trueDivide a b) (op : BinOp) :
    Exact fl trueDivide lv op rv ↔ Safe op a b := by
  cases op with
  | add => exact iff_of_true (exact_add hl hr) trivial
  | sub => exact iff_of_true (exact_sub hl hr) trivial
  | mult => exact exact_mult_iff hl hr
  | div => exact iff_of_true (exact_div hl hr hdiv) trivial
  | floorDiv => exact iff_of_true (exact_floorDiv hl hr) trivial
  | mod => exact iff_of_true (exact_mod hl hr) trivial
  | pow => exact iff_of_true (exact_pow hl hr) trivial
  | lShift => exact exact_lShift_iff hl hr
  | rShift => exact exact_rShift_iff hl hr
  | bitOr =>
    apply iff_of_true _ trivial
    exact exact_bits hl hr Int.testBit_lor rfl (by decide) fun x y v hx hy h => ⟨a, b, hx, hy, h⟩
  | bitXor =>
    apply iff_of_true _ trivial
    exact exact_bits hl hr Int.testBit_lxor rfl (by decide) fun x y v hx hy h => ⟨a, b, hx, hy, h⟩
  | bitAnd =>
    apply iff_of_true _ trivial
    exact exact_bits hl hr Int.testBit_land rfl (by decide) fun x y v hx hy h => ⟨a, b, hx, hy, h⟩
  | matMult => exact iff_of_true (.inl rfl) trivial

end Operators

section Unary

variable {fl : Floats F} {c r : Constant F} {a : ℤ}

theorem toInt_neg_of_ne {v : Int64} (h : v ≠ Int64.minValue) : (-v).toInt = -v.toInt := by
  have hne : v.toInt ≠ -2 ^ 63 := fun heq => h (Int64.toInt_inj.mp (heq.trans Int64.toInt_minValue.symm))
  have hlow := v.le_toInt
  have hhigh := v.toInt_lt
  rw [Int64.toInt_neg]
  apply Int.bmod_eq_of_le
  · norm_num
    omega
  · norm_num
    omega

theorem not_eq_sub (a : ℤ) : Int.not a = -a - 1 := by
  cases a with
  | ofNat n => rw [Int.not, Int.negSucc_eq, Int.ofNat_eq_natCast]; omega
  | negSucc n => rw [Int.not, Int.negSucc_eq, Int.ofNat_eq_natCast]; omega

theorem truthy_int (h : intOf c = some a) : truthy fl c = decide (a ≠ 0) := by
  cases c with
  | bool p =>
    cases Option.some.inj h
    cases p <;> rfl
  | int v =>
    cases Option.some.inj h
    apply decide_eq_decide.mpr
    exact not_congr Int64.toInt_inj.symm
  | bigInt s =>
    change s.toInt?.elim true (fun v => decide (v ≠ 0)) = _
    rw [show s.toInt? = some a from h]
    rfl
  | _ => cases h

/-- A unary operator that folds gives what Python computes. -/
theorem unary_exact (op : UnaryOp) (h : intOf c = some a) (hr : evalUnaryopConst fl op c = some r) :
    ∃ x v, value c = some x ∧ value r = some v ∧ UnaryComputes op x v := by
  obtain ⟨x, hx, hxa⟩ := value_of_intOf h
  refine ⟨x, ?_⟩
  cases op with
  | not =>
    cases hr
    refine ⟨_, hx, rfl, a, hxa, ?_⟩
    rw [truthy_int h, decide_not, Bool.not_not]
  | invert =>
    cases c with
    | bool _ => cases hr
    | int _ =>
      cases Option.some.inj h
      cases hr
      exact ⟨_, hx, value_intConst _, _, hxa, congrArg Value.int (not_eq_sub _)⟩
    | bigInt s =>
      change (intOf (Constant.bigInt s)).map _ = some r at hr
      rw [h] at hr
      cases hr
      exact ⟨_, hx, value_intConst _, _, hxa, congrArg Value.int (not_eq_sub _)⟩
    | _ => cases h
  | uAdd =>
    cases c with
    | bool p =>
      cases Option.some.inj h
      cases hr
      refine ⟨_, hx, rfl, _, hxa, ?_⟩
      cases p <;> rfl
    | int v =>
      cases Option.some.inj h
      cases hr
      exact ⟨_, hx, rfl, _, hxa, rfl⟩
    | bigInt s =>
      cases hr
      refine ⟨.int a, hx, ?_, a, hxa, rfl⟩
      change s.toInt?.map Value.int = _
      rw [show s.toInt? = some a from h]
      rfl
    | _ => cases h
  | uSub =>
    cases c with
    | bool p =>
      cases Option.some.inj h
      cases hr
      refine ⟨_, hx, rfl, _, hxa, ?_⟩
      cases p <;> rfl
    | int v =>
      cases Option.some.inj h
      change some (if v = Int64.minValue then intConst (-v.toInt) else Constant.int (-v)) = some r at hr
      rw [← Option.some.inj hr]
      split_ifs with hmin
      · exact ⟨_, hx, value_intConst _, _, hxa, rfl⟩
      · refine ⟨_, hx, rfl, _, hxa, ?_⟩
        rw [toInt_neg_of_ne hmin]
    | bigInt s =>
      change (intOf (Constant.bigInt s)).map _ = some r at hr
      rw [h] at hr
      cases hr
      exact ⟨_, hx, value_intConst _, _, hxa, rfl⟩
    | _ => cases h

end Unary

end WeavePy.ConstFold
