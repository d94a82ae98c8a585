import WeavePy.Rust
import Mathlib.Data.Nat.Digits.Lemmas
import Mathlib.Data.Nat.Bitwise

/-!
Stacks of kinds packed three bits an entry into a signed word.
-/

namespace WeavePy.LineJump

abbrev Word := BitVec 64

inductive Kind where
  | Iterator
  | Except
  | Object
  | Null
  | Lasti
  deriving DecidableEq

def Kind.word : Kind → Word
  | .Iterator => 1
  | .Except => 2
  | .Object => 3
  | .Null => 4
  | .Lasti => 5

def BITS_PER_BLOCK : ℕ := 3

def MASK : Word := 7

def UNINITIALIZED : Word := -2

def OVERFLOWED : Word := -1

def EMPTY_STACK : Word := 0

def WILL_OVERFLOW : Word := (1 : Word) <<< 60

/-- A shift past the word panics in a build with overflow checks and is masked in one without. -/
def shiftAmount (checks : Bool) (n : ℕ) : Outcome ℕ :=
  if n < 64 then .ok n else if checks then .error .panic else .ok (n % 64)

def pushKind (stack : Word) (kind : Kind) : Word :=
  if stack.toInt < 0 ∨ WILL_OVERFLOW.toNat ≤ stack.toNat then OVERFLOWED
  else (stack <<< BITS_PER_BLOCK) ||| kind.word

def popKind (stack : Word) : Word := stack.sshiftRight BITS_PER_BLOCK

def topKind (stack : Word) : Word := stack &&& MASK

def peekKind (checks : Bool) (stack : Word) (n : ℕ) : Outcome Word := do
  return stack.sshiftRight (← shiftAmount checks (BITS_PER_BLOCK * (n - 1))) &&& MASK

/-- The entries a word can hold are all popped after this many, and then it stays what it is: a loop
of pops that has not ended by then never does. -/
def popFuel : ℕ := 64

/-- `while p(stack) { stack = pop_kind(stack) }` -/
def popWhile (p : Word → Prop) [DecidablePred p] : ℕ → Word → Outcome Word
  | 0, _ => .error .diverge
  | n + 1, stack => if p stack then popWhile p n (popKind stack) else .ok stack

def depthLoop : ℕ → Word → Outcome ℕ
  | 0, _ => .error .diverge
  | n + 1, stack => if 0 < stack.toInt then do return (← depthLoop n (popKind stack)) + 1 else .ok 0

def stackDepth (stack : Word) : Outcome ℕ := depthLoop popFuel stack

def swapKinds (checks : Bool) (stack : Word) (n : ℕ) : Outcome Word :=
  if n < 2 then .ok stack else do
    let toSwap ← peekKind checks stack n
    let top := topKind stack
    let shift ← shiftAmount checks (BITS_PER_BLOCK * (n - 1))
    let replacedLow := (stack &&& ~~~(MASK <<< shift)) ||| (top <<< shift)
    return (replacedLow &&& ~~~MASK) ||| toSwap

def popToLevel (checks : Bool) (stack : Word) (level : ℕ) : Outcome Word :=
  if level = 0 then .ok EMPTY_STACK else do
    let shift ← shiftAmount checks ((level - 1) * BITS_PER_BLOCK)
    let levelMaxStack := MASK <<< shift
    popWhile (fun stack => levelMaxStack.toInt < stack.toInt) popFuel stack

def compatibleKind (source target : Word) : Bool :=
  if target = 0 then false
  else if target = Kind.Object.word then source ≠ Kind.Null.word
  else if target = Kind.Null.word then true
  else source = target

/-- The second loop of `compatible_stack`. -/
def compatibleLoop : ℕ → Word → Word → Outcome Bool
  | 0, _, _ => .error .diverge
  | n + 1, source, target =>
    if source ≠ 0 then
      if compatibleKind (topKind source) (topKind target) then
        compatibleLoop n (popKind source) (popKind target)
      else .ok false
    else .ok (target = 0)

def compatibleStack (source target : Word) : Outcome Bool :=
  if source.toInt < 0 ∨ target.toInt < 0 then .ok false else do
    let source ← popWhile (fun stack => target.toInt < stack.toInt) popFuel source
    compatibleLoop popFuel source target

def kindOf (raw : Word) : Kind :=
  if raw = Kind.Iterator.word then .Iterator
  else if raw = Kind.Except.word then .Except
  else if raw = Kind.Null.word then .Null
  else if raw = Kind.Lasti.word then .Lasti
  else .Object

/-- Slots that agree, or that are an iterator and an object. -/
def joinKind (a b : Word) : Option Word :=
  if a = b then some a
  else if (a = Kind.Iterator.word ∨ a = Kind.Object.word) ∧
      (b = Kind.Iterator.word ∨ b = Kind.Object.word) then some Kind.Object.word
  else none

/-- The joined slots from the top down, or `none` where two conflict. -/
def joinLoop : ℕ → Word → Word → Outcome (Option (List Word))
  | 0, _, _ => .error .diverge
  | n + 1, a, b =>
    if a ≠ 0 then
      match joinKind (topKind a) (topKind b) with
      | none => .ok none
      | some j => do return (← joinLoop n (popKind a) (popKind b)).map (j :: ·)
    else .ok (some [])

def joinStacks (a b : Word) : Outcome Word :=
  if a.toInt < 0 ∨ b.toInt < 0 then .ok OVERFLOWED else do
    if (← stackDepth a) ≠ (← stackDepth b) then return OVERFLOWED
    match ← joinLoop popFuel a b with
    | none => return OVERFLOWED
    | some slots => return slots.reverse.foldl (fun out k => pushKind out (kindOf k)) EMPTY_STACK

/-! A word that is not negative is a list of entries. -/

/-- The entries, the top one first. -/
def slots (stack : Word) : List Word := (Nat.digits 8 stack.toNat).map (BitVec.ofNat 64)

variable {stack source target : Word} {n : ℕ} {checks : Bool}

theorem toInt_eq_toNat (h : 0 ≤ stack.toInt) : stack.toInt = stack.toNat := by
  rw [BitVec.toInt_eq_toNat_of_msb]
  rw [BitVec.msb_eq_toInt]
  simpa using h

theorem toNat_lt (h : 0 ≤ stack.toInt) : stack.toNat < 2 ^ 63 := by
  have heq := toInt_eq_toNat h
  have hlt := stack.toInt_lt
  omega

theorem toInt_nonneg (h : stack.toNat < 2 ^ 63) : 0 ≤ stack.toInt := by
  rw [BitVec.toInt_eq_toNat_of_lt (by omega)]
  omega

@[simp] theorem popKind_toInt : (popKind stack).toInt = stack.toInt / 8 := by
  rw [popKind, BitVec.toInt_sshiftRight, Int.shiftRight_eq_div_pow]
  rfl

theorem popKind_nonneg (h : 0 ≤ stack.toInt) : 0 ≤ (popKind stack).toInt := by
  rw [popKind_toInt]
  omega

theorem popKind_toNat (h : 0 ≤ stack.toInt) : (popKind stack).toNat = stack.toNat / 8 := by
  have hpop := toInt_eq_toNat (popKind_nonneg h)
  have heq := toInt_eq_toNat h
  rw [popKind_toInt] at hpop
  omega

theorem topKind_toNat : (topKind stack).toNat = stack.toNat % 8 := by
  rw [topKind, BitVec.toNat_and]
  exact Nat.and_two_pow_sub_one_eq_mod _ 3

@[simp] theorem slots_zero : slots 0 = [] := rfl

theorem slots_eq (h : 0 ≤ stack.toInt) (h0 : stack ≠ 0) :
    slots stack = topKind stack :: slots (popKind stack) := by
  have hpos : 0 < stack.toNat := by
    rw [Nat.pos_iff_ne_zero]
    intro hz
    exact h0 (BitVec.eq_of_toNat_eq hz)
  rw [slots, Nat.digits_def' (by omega) hpos, List.map_cons, slots, popKind_toNat h]
  congr 1
  apply BitVec.eq_of_toNat_eq
  rw [topKind_toNat, BitVec.toNat_ofNat]
  omega

theorem slots_popKind (h : 0 ≤ stack.toInt) : slots (popKind stack) = (slots stack).tail := by
  by_cases h0 : stack = 0
  · subst h0
    rfl
  · rw [slots_eq h h0]
    rfl

theorem slots_length_le (h : stack.toNat < 8 ^ n) : (slots stack).length ≤ n := by
  rw [slots, List.length_map]
  exact (Nat.digits_length_le_iff (by omega) _).mpr h

theorem toInt_pos (h : 0 ≤ stack.toInt) (h0 : stack ≠ 0) : 0 < stack.toInt := by
  have heq := toInt_eq_toNat h
  have hne : stack.toNat ≠ 0 := fun hz => h0 (BitVec.eq_of_toNat_eq hz)
  omega

theorem depthLoop_ok (h : 0 ≤ stack.toInt) (hn : (slots stack).length < n) :
    depthLoop n stack = .ok (slots stack).length := by
  induction n generalizing stack with
  | zero => omega
  | succ n ih =>
    rw [depthLoop]
    by_cases h0 : stack = 0
    · subst h0
      rfl
    · have hslots := slots_eq h h0
      rw [hslots, List.length_cons] at hn ⊢
      rw [if_pos (toInt_pos h h0), ih (popKind_nonneg h) (by omega)]
      rfl

theorem slots_length (h : 0 ≤ stack.toInt) : (slots stack).length ≤ 21 := by
  apply slots_length_le
  have hlt := toNat_lt h
  norm_num at *
  exact hlt

theorem stackDepth_ok (h : 0 ≤ stack.toInt) : stackDepth stack = .ok (slots stack).length := by
  apply depthLoop_ok h
  have hlen := slots_length h
  rw [popFuel]
  omega

theorem iterate_popKind (h : 0 ≤ stack.toInt) (k : ℕ) :
    0 ≤ (popKind^[k] stack).toInt ∧ slots (popKind^[k] stack) = (slots stack).drop k := by
  induction k generalizing stack with
  | zero => exact ⟨h, rfl⟩
  | succ k ih =>
    obtain ⟨hpos, hslots⟩ := ih (popKind_nonneg h)
    rw [Function.iterate_succ_apply]
    exact ⟨hpos, by rw [hslots, slots_popKind h, List.drop_tail]⟩

theorem popWhile_ok {p : Word → Prop} [DecidablePred p] {out : Word}
    (h : popWhile p n stack = .ok out) : ∃ k, out = popKind^[k] stack ∧ ¬p out := by
  induction n generalizing stack with
  | zero => cases h
  | succ n ih =>
    rw [popWhile] at h
    split_ifs at h with hp
    · obtain ⟨k, hk, hout⟩ := ih h
      exact ⟨k + 1, hk, hout⟩
    · obtain rfl := Except.ok.inj h
      exact ⟨0, rfl, hp⟩

theorem compatibleLoop_true (hs : 0 ≤ source.toInt) (ht : 0 ≤ target.toInt)
    (h : compatibleLoop n source target = .ok true) :
    List.Forall₂ (fun s t => compatibleKind s t = true) (slots source) (slots target) := by
  induction n generalizing source target with
  | zero => cases h
  | succ n ih =>
    rw [compatibleLoop] at h
    by_cases h0 : source = 0
    · rw [if_neg (not_not.mpr h0)] at h
      obtain rfl : target = 0 := by simpa using h
      subst h0
      exact .nil
    · rw [if_pos h0] at h
      split_ifs at h with hk
      · have ht0 : target ≠ 0 := by
          rintro rfl
          rw [show topKind 0 = 0 from rfl, compatibleKind, if_pos rfl] at hk
          cases hk
        rw [slots_eq hs h0, slots_eq ht ht0]
        exact .cons hk (ih (popKind_nonneg hs) (popKind_nonneg ht) h)
      · cases h

/-- A stack is compatible when the entries left after some pops are, one by one. -/
theorem compatibleStack_true (h : compatibleStack source target = .ok true) :
    0 ≤ source.toInt ∧ 0 ≤ target.toInt ∧ ∃ k,
      List.Forall₂ (fun s t => compatibleKind s t = true) ((slots source).drop k) (slots target) := by
  rw [compatibleStack] at h
  split_ifs at h with hneg
  · cases h
  · rw [not_or, not_lt, not_lt] at hneg
    obtain ⟨left, hleft, h⟩ := bind_eq_ok.mp h
    obtain ⟨k, rfl, -⟩ := popWhile_ok hleft
    obtain ⟨hpos, hslots⟩ := iterate_popKind hneg.1 k
    refine ⟨hneg.1, hneg.2, k, ?_⟩
    rw [← hslots]
    exact compatibleLoop_true hpos hneg.2 h

end WeavePy.LineJump
