import WeavePy.ConstFold.Exact

/-!
Repetition within the caps, and the three ways in which folding goes wrong.
-/

namespace WeavePy.ConstFold

variable {F : Type}

section Repetition

variable {α : Type}

theorem extendLoop_eq (items : List α) (reps : ℕ) (out : List α) (rounds : ℕ) :
    extendLoop items reps out rounds = (out ++ repeated items reps, rounds + reps) := by
  induction reps generalizing out rounds with
  | zero => exact Prod.ext (List.append_nil out).symm rfl
  | succ reps ih =>
    rw [extendLoop, ih]
    apply Prod.ext
    · change out ++ items ++ repeated items reps = out ++ (List.replicate (reps + 1) items).flatten
      rw [List.replicate_succ, List.flatten_cons, List.append_assoc]
      rfl
    · change rounds + 1 + reps = rounds + (reps + 1)
      omega

theorem length_repeated (l : List α) (n : ℕ) : (repeated l n).length = n * l.length := by
  unfold repeated
  rw [List.length_flatten, List.map_replicate, List.sum_replicate, smul_eq_mul]

theorem totals_append (l l' : List (Constant F)) : totals (l ++ l') = totals l + totals l' := by
  induction l with
  | nil => exact (Nat.zero_add _).symm
  | cons c l ih => rw [List.cons_append, totals, totals, ih, Nat.add_assoc]

theorem totals_repeated (l : List (Constant F)) (n : ℕ) : totals (repeated l n) = n * totals l := by
  unfold repeated
  induction n with
  | zero => exact (Nat.zero_mul _).symm
  | succ n ih => rw [List.replicate_succ, List.flatten_cons, totals_append, ih, Nat.succ_mul, Nat.add_comm]

mutual

/-- A limit that is kept is lowered by the items. -/
theorem checkComplexity_eq (c : Constant F) (limit : ℤ) (h : 0 ≤ checkComplexity c limit) :
    checkComplexity c limit = limit - total c := by
  cases c with
  | tuple items =>
    have heq := checkItems_eq items (limit - items.length) h
    rw [checkComplexity, total, heq]
    push_cast
    ring
  | frozenSet items =>
    have heq := checkItems_eq items (limit - items.length) h
    rw [checkComplexity, total, heq]
    push_cast
    ring
  | _ => exact (sub_zero limit).symm

theorem checkItems_eq (items : List (Constant F)) (limit : ℤ) (h : 0 ≤ checkItems items limit) :
    checkItems items limit = limit - totals items := by
  cases items with
  | nil => exact (sub_zero limit).symm
  | cons item items =>
    rw [checkItems] at h ⊢
    split_ifs at h ⊢ with hneg
    · omega
    · have hrest := checkItems_eq items (checkComplexity item limit) h
      have hitem := checkComplexity_eq item limit (by omega)
      rw [hrest, hitem, totals]
      push_cast
      ring

end

theorem fits_iff {n : ℤ} {size cap : ℕ} (hcap : cap < 2 ^ 63) :
    fits n size cap = true ↔ size = 0 ∨ 0 ≤ n ∧ n * size ≤ cap := by
  unfold fits
  rw [decide_eq_true_iff]
  apply or_congr_right
  apply and_congr_right
  intro hn
  unfold checkedMul toI64
  have hpos : 0 ≤ n * size := by positivity
  split_ifs with h
  · exact decide_eq_true_iff
  · apply iff_of_false Bool.false_ne_true
    omega

theorem length_within {l : List α} {n : ℤ} {cap : ℕ} (h : l.length = 0 ∨ 0 ≤ n ∧ n * l.length ≤ cap) :
    (repeated l n.toNat).length ≤ cap := by
  rw [length_repeated]
  obtain hzero | ⟨hn, hle⟩ := h
  · rw [hzero]
    exact Nat.zero_le _
  · have hcast : ((n.toNat : ℕ) : ℤ) = n := Int.toNat_of_nonneg hn
    rw [← hcast] at hle
    exact_mod_cast hle

theorem total_within {items : List (Constant F)} {n : ℤ} (hn : 0 ≤ n)
    (h : ¬ (0 < items.length ∧ 0 < n ∧ checkComplexity (.tuple items) (MAX_TOTAL_ITEMS / n) < 0)) :
    (total (.tuple (repeated items n.toNat)) : ℤ) ≤ MAX_TOTAL_ITEMS := by
  have hcast : ((n.toNat : ℕ) : ℤ) = n := Int.toNat_of_nonneg hn
  have htotal : total (.tuple (repeated items n.toNat)) = n.toNat * total (.tuple items) := by
    rw [total, total, length_repeated, totals_repeated, Nat.mul_add]
  rw [htotal]
  push_cast
  rw [hcast]
  obtain hzero | hpos := hn.eq_or_lt
  · rw [← hzero, zero_mul]
    decide
  cases items with
  | nil =>
    change n * ((0 : ℕ) : ℤ) ≤ _
    rw [Nat.cast_zero, mul_zero]
    decide
  | cons item items =>
    have hkept : 0 ≤ checkComplexity (.tuple (item :: items)) (MAX_TOTAL_ITEMS / n) := by
      by_contra hneg
      exact h ⟨Nat.succ_pos _, hpos, by omega⟩
    have heq := checkComplexity_eq _ _ hkept
    calc n * (total (.tuple (item :: items)) : ℤ) ≤ n * (MAX_TOTAL_ITEMS / n) := by
          apply mul_le_mul_of_nonneg_left _ hn
          omega
      _ ≤ MAX_TOTAL_ITEMS := Int.mul_ediv_self_le hpos.ne'

end Repetition

/-- Strings, bytes and tuples. -/
def Value.IsSequence : Value F → Prop
  | .str _ | .bytes _ | .tuple _ => True
  | _ => False

section Capping

variable {seq : Constant F} {n : ℤ}

theorem repeatSeq_str {points : List UInt32} (h : strPoints seq = some points) : repeatSeq n seq =
    if fits n points.length MAX_STR_SIZE then folded (makeStr (repeated points n.toNat)) else declined := by
  cases seq with
  | str s =>
    obtain rfl := Option.some.inj h
    rfl
  | wstr p =>
    obtain rfl := Option.some.inj h
    rfl
  | _ => cases h

theorem capped_str {points : List UInt32} (h : strPoints seq = some points) (hv : value seq = some (.str points)) :
    Capped n seq (repeatSeq n seq) := by
  rw [repeatSeq_str h]
  split_ifs with hfits
  · refine .inr ⟨_, 0, _, _, rfl, hv, makeStr_value _, rfl, ?_, Nat.zero_le _⟩
    exact length_within ((fits_iff (by decide)).mp hfits)
  · exact .inl rfl

theorem capped_bytes (b : List UInt8) : Capped n (Constant.bytes b : Constant F) (repeatSeq n (.bytes b)) := by
  change Capped n _ (if fits n b.length MAX_STR_SIZE then folded (.bytes (repeated b n.toNat)) else declined)
  split_ifs with hfits
  · refine .inr ⟨_, 0, _, _, rfl, rfl, rfl, rfl, ?_, Nat.zero_le _⟩
    exact length_within ((fits_iff (by decide)).mp hfits)
  · exact .inl rfl

/-- Only the empty tuple takes more rounds than a tuple may have items. -/
theorem capped_tuple_iff (items : List (Constant F)) :
    Capped n (.tuple items) (repeatSeq n (.tuple items)) ↔ ¬ (items = [] ∧ 256 < n) := by
  have heval : repeatSeq n (.tuple items) =
      if !fits n items.length MAX_COLLECTION_SIZE then declined
      else if 0 < items.length ∧ 0 < n ∧ checkComplexity (.tuple items) (MAX_TOTAL_ITEMS / n) < 0 then declined
      else .ok (some (.tuple (repeated items n.toNat), n.toNat)) := by
    unfold repeatSeq
    dsimp only
    rw [extendLoop_eq, Nat.zero_add, List.nil_append]
  by_cases hfits : fits n items.length MAX_COLLECTION_SIZE = true
  swap
  · rw [Bool.not_eq_true] at hfits
    rw [hfits] at heval
    apply iff_of_true (.inl heval)
    rintro ⟨rfl, -⟩
    cases hfits
  rw [if_neg (by rw [hfits]; decide)] at heval
  have hcap := (fits_iff (by decide)).mp hfits
  by_cases hcomplex : 0 < items.length ∧ 0 < n ∧ checkComplexity (.tuple items) (MAX_TOTAL_ITEMS / n) < 0
  · apply iff_of_true (.inl (heval.trans (if_pos hcomplex)))
    rintro ⟨rfl, -⟩
    exact absurd hcomplex.1 (Nat.lt_irrefl 0)
  rw [if_neg hcomplex] at heval
  constructor
  · rintro (hdeclined | ⟨c, rounds, s, v, hok, -, -, -, -, hrounds⟩) ⟨-, hlarge⟩
    · cases heval.symm.trans hdeclined
    · have hsame := congrArg Prod.snd (Option.some.inj (Except.ok.inj (heval.symm.trans hok)))
      change n.toNat = rounds at hsame
      unfold MAX_COLLECTION_SIZE at hrounds
      omega
  · intro hsmall
    refine .inr ⟨_, _, _, _, heval, rfl, rfl, rfl, ⟨length_within hcap, ?_⟩, ?_⟩
    · obtain hn | hn := le_or_gt 0 n
      · exact total_within hn hcomplex
      · rw [Int.toNat_of_nonpos hn.le]
        exact (by decide : ((0 : ℕ) : ℤ) ≤ MAX_TOTAL_ITEMS)
    · cases items with
      | nil =>
        have : ¬ 256 < n := fun h => hsmall ⟨rfl, h⟩
        unfold MAX_COLLECTION_SIZE
        omega
      | cons item items =>
        obtain hzero | ⟨hn, hle⟩ := hcap
        · cases hzero
        · have hone : (1 : ℤ) ≤ ((item :: items).length : ℤ) := by
            rw [List.length_cons]
            push_cast
            omega
          have hbound : n ≤ n * ((item :: items).length : ℤ) := le_mul_of_one_le_right hn hone
          unfold MAX_COLLECTION_SIZE at hle ⊢
          omega

variable {fl : Floats F} {num : Constant F} {s : Value F}

theorem sequence_kinds (hv : value seq = some s) (hs : s.IsSequence) :
    (∃ points, strPoints seq = some points ∧ value seq = some (.str points)) ∨ (∃ b, seq = .bytes b) ∨
      ∃ items, seq = .tuple items := by
  cases seq with
  | str text => exact .inl ⟨_, rfl, rfl⟩
  | wstr points => exact .inl ⟨_, rfl, rfl⟩
  | bytes b => exact .inr (.inl ⟨b, rfl⟩)
  | tuple items => exact .inr (.inr ⟨items, rfl⟩)
  | bigInt text =>
    obtain ⟨z, -, rfl⟩ := Option.map_eq_some_iff.mp hv
    exact hs.elim
  | bool p =>
    obtain rfl := Option.some.inj hv
    exact hs.elim
  | int v =>
    obtain rfl := Option.some.inj hv
    exact hs.elim
  | float x =>
    obtain rfl := Option.some.inj hv
    exact hs.elim
  | _ => cases hv

theorem isNumeric_of_sequence (hv : value seq = some s) (hs : s.IsSequence) : isNumeric seq = false := by
  obtain ⟨points, hpoints, -⟩ | ⟨b, rfl⟩ | ⟨items, rfl⟩ := sequence_kinds hv hs
  · cases seq <;> first | rfl | cases hpoints
  · rfl
  · rfl

theorem evalMult_sequence (hn : intOf num = some n) (hseq : isNumeric seq = false) :
    evalBinop fl num .mult seq = given (toI64 n) (repeatSeq · seq) ∧
      evalBinop fl seq .mult num = given (toI64 n) (repeatSeq · seq) := by
  have hkind : isIntKind seq = false := by
    cases seq <;> first | rfl | cases hseq
  constructor
  · change evalMult fl num seq = _
    unfold evalMult
    rw [isNumeric_of_intOf hn, isIntKind_of_intOf hn, hseq, hn]
    rfl
  · change evalMult fl seq num = _
    unfold evalMult
    rw [isNumeric_of_intOf hn, isIntKind_of_intOf hn, hseq, hkind, hn]
    rfl

theorem capped_iff (hv : value seq = some s) (hs : s.IsSequence) :
    Capped n seq (given (toI64 n) (repeatSeq · seq)) ↔ ¬ (s = .tuple [] ∧ 256 < n ∧ n < 2 ^ 63) := by
  by_cases hsmall : -2 ^ 63 ≤ n ∧ n < 2 ^ 63
  swap
  · have hnone : toI64 n = none := if_neg hsmall
    rw [hnone]
    apply iff_of_true (.inl rfl)
    rintro ⟨-, hlow, hhigh⟩
    exact hsmall ⟨by omega, hhigh⟩
  have hsome : toI64 n = some n := if_pos hsmall
  rw [hsome]
  change Capped n seq (repeatSeq n seq) ↔ _
  obtain ⟨points, hpoints, hv'⟩ | ⟨b, rfl⟩ | ⟨items, rfl⟩ := sequence_kinds hv hs
  · apply iff_of_true (capped_str hpoints hv')
    rintro ⟨rfl, -⟩
    cases Option.some.inj (hv.symm.trans hv')
  · apply iff_of_true (capped_bytes b)
    rintro ⟨rfl, -⟩
    cases Option.some.inj hv
  · obtain rfl := Option.some.inj hv
    rw [capped_tuple_iff]
    apply not_congr
    constructor
    · rintro ⟨rfl, hlarge⟩
      exact ⟨rfl, hlarge, hsmall.2⟩
    · rintro ⟨hnil, hlarge, -⟩
      exact ⟨Value.tuple.inj hnil, hlarge⟩

end Capping

section Main

variable {fl : Floats F} {trueDivide : ℤ → ℤ → F}

/-- An operator on integers folds to what Python computes, within its bits, exactly where it is safe; a unary one always;
a repetition is capped unless it repeats the empty tuple. -/
theorem folds_exactly (hdiv : ∀ a b : ℤ, bits a ≤ 53 → bits b ≤ 53 → b ≠ 0 →
      fl.div (fl.toF64 a) (fl.toF64 b) = trueDivide a b) :
    (∀ lv op rv a b, intOf lv = some a → intOf rv = some b → (Exact fl trueDivide lv op rv ↔ Safe op a b)) ∧
      (∀ op c r a, intOf c = some a → evalUnaryopConst fl op c = some r →
        ∃ x v, value c = some x ∧ value r = some v ∧ UnaryComputes op x v) ∧
      ∀ num seq n s, intOf num = some n → value seq = some s → s.IsSequence →
        (Capped n seq (evalBinop fl num .mult seq) ∧ Capped n seq (evalBinop fl seq .mult num) ↔
          ¬ (s = .tuple [] ∧ 256 < n ∧ n < 2 ^ 63)) := by
  refine ⟨?_, ?_, ?_⟩
  · intro lv op rv a b hl hr
    exact exact_iff hl hr hdiv op
  · intro op c r a h hr
    exact unary_exact op h hr
  · intro num seq n s hn hv hs
    obtain ⟨hleft, hright⟩ : evalBinop fl num .mult seq = _ ∧ evalBinop fl seq .mult num = _ :=
      evalMult_sequence hn (isNumeric_of_sequence hv hs)
    rw [hleft, hright, and_self]
    exact capped_iff hv hs

end Main

/-- Exact fractions in place of doubles. -/
def fractions : Floats ℚ :=
  { toF64 := fun n => n
    isFinite := fun _ => true
    isZero := fun x => x = 0
    neg := fun x => -x
    div := fun x y => x / y
    powf := fun x y => x ^ y.num
    mixed := fun _ _ _ => none }

theorem fractions_fold_exactly :
    (∀ lv op rv a b, intOf lv = some a → intOf rv = some b →
        (Exact fractions (fun a b => (a : ℚ) / b) lv op rv ↔ Safe op a b)) ∧
      (∀ op c r a, intOf c = some a → evalUnaryopConst fractions op c = some r →
        ∃ x v, value c = some x ∧ value r = some v ∧ UnaryComputes op x v) ∧
      ∀ num seq n s, intOf num = some n → value seq = some s → s.IsSequence →
        (Capped n seq (evalBinop fractions num .mult seq) ∧ Capped n seq (evalBinop fractions seq .mult num) ↔
          ¬ (s = .tuple [] ∧ 256 < n ∧ n < 2 ^ 63)) :=
  folds_exactly fun _ _ _ _ _ => rfl

/-- A shift whose sum of bits wraps, a long shift of a longer number, and the empty tuple repeated without end. -/
theorem folds_wrongly :
    ¬ Exact fractions (fun a b => (a : ℚ) / b) (.int 1) .lShift (.bigInt (2 ^ 64 - 1 : ℤ).repr) ∧
      ¬ Exact fractions (fun a b => (a : ℚ) / b) (.bigInt (2 ^ 1000001 : ℤ).repr) .rShift (.int 1000001) ∧
      ¬ Capped (2 ^ 63 - 1) (.tuple []) (evalBinop fractions (.int Int64.maxValue) .mult (.tuple [])) := by
  refine ⟨?_, ?_, ?_⟩
  · have hone : intOf (Constant.int 1 : Constant ℚ) = some 1 := rfl
    have hshift : intOf (Constant.bigInt (2 ^ 64 - 1 : ℤ).repr : Constant ℚ) = some (2 ^ 64 - 1) := Int.toInt?_repr _
    rw [exact_lShift_iff hone hshift]
    intro hsafe
    have hsum := hsafe (by decide) (by decide) (by decide)
    exact absurd hsum (by decide)
  · have hshift : intOf (Constant.int 1000001 : Constant ℚ) = some 1000001 := rfl
    have hlong : intOf (Constant.bigInt (2 ^ 1000001 : ℤ).repr : Constant ℚ) = some (2 ^ 1000001) := Int.toInt?_repr _
    rw [exact_rShift_iff hlong hshift]
    intro hsafe
    exact absurd (hsafe (by decide)).2 (lt_irrefl _)
  · have hmax : intOf (Constant.int Int64.maxValue : Constant ℚ) = some (2 ^ 63 - 1) := rfl
    have hempty : value (Constant.tuple [] : Constant ℚ) = some (.tuple []) := rfl
    rw [(evalMult_sequence hmax rfl).1, capped_iff hempty trivial]
    intro hsafe
    exact hsafe ⟨rfl, by decide, by decide⟩

end WeavePy.ConstFold
