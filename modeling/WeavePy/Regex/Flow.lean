import WeavePy.Regex.Matcher
import Mathlib.Logic.Relation
import Mathlib.Order.Nat
import Mathlib.Data.Nat.Notation

/-!
Where control can go in compiled code, and what makes the code well formed.
-/

namespace WeavePy.Regex

section Code

variable (code : List ℕ)

def opAt (p : ℕ) : Option Op := code[p]?.bind Op.ofCode

def arg (p : ℕ) : ℕ := code.getD p 0

/-- The alternatives of the `BRANCH` at `p`, by their skip words. -/
inductive Alternative (p : ℕ) : ℕ → Prop
  | first : Alternative p (p + 1)
  | next {a : ℕ} : Alternative p a → arg code a ≠ 0 → Alternative p (a + arg code a)

/-- The op after the one at `p`, on the same level: past the bodies of repeats and assertions. -/
def Next (p p' : ℕ) : Prop :=
  match opAt code p with
  | some .ANY | some .ANY_ALL => p' = p + 1
  | some .MARK | some .AT | some .CATEGORY | some .LITERAL | some .NOT_LITERAL
  | some .LITERAL_IGNORE | some .NOT_LITERAL_IGNORE | some .LITERAL_LOC_IGNORE
  | some .NOT_LITERAL_LOC_IGNORE | some .LITERAL_UNI_IGNORE | some .NOT_LITERAL_UNI_IGNORE
  | some .GROUPREF | some .GROUPREF_IGNORE | some .GROUPREF_LOC_IGNORE
  | some .GROUPREF_UNI_IGNORE => p' = p + 2
  | some .IN | some .IN_IGNORE | some .IN_LOC_IGNORE | some .IN_UNI_IGNORE | some .JUMP
  | some .INFO | some .ASSERT | some .ASSERT_NOT | some .ATOMIC_GROUP | some .REPEAT_ONE
  | some .MIN_REPEAT_ONE | some .POSSESSIVE_REPEAT_ONE => p' = p + 1 + arg code (p + 1)
  | some .REPEAT | some .POSSESSIVE_REPEAT => p' = p + 1 + arg code (p + 1) + 1
  | some .GROUPREF_EXISTS => p' = p + 1 + 2 ∨ p' = p + 1 + arg code (p + 2)
  | some .BRANCH => ∃ a, Alternative code p a ∧ arg code a ≠ 0 ∧ p' = a + 1
  | _ => False

/-- The op at `p` has a body from `b` on, and goes on at `e`. -/
def Body (p b e : ℕ) : Prop :=
  match opAt code p with
  | some .ASSERT | some .ASSERT_NOT => b = p + 3 ∧ e = p + 1 + arg code (p + 1)
  | some .ATOMIC_GROUP => b = p + 2 ∧ e = p + 1 + arg code (p + 1)
  | some .REPEAT_ONE | some .MIN_REPEAT_ONE | some .POSSESSIVE_REPEAT_ONE =>
    b = p + 4 ∧ e = p + 1 + arg code (p + 1)
  | some .REPEAT | some .POSSESSIVE_REPEAT => b = p + 4 ∧ e = p + 1 + arg code (p + 1) + 1
  | _ => False

/-- The positions on the level that starts at `b`. -/
def Level : ℕ → ℕ → Prop := Relation.ReflTransGen (Next code)

/-- The starts of the levels: of the whole code, and of the bodies in it. -/
inductive Entry : ℕ → Prop
  | main : Entry 0
  | body {b p b' e : ℕ} : Entry b → Level code b p → Body code p b' e → Entry b'

/-- A position that control can reach. -/
def Flow (p : ℕ) : Prop := ∃ b, Entry code b ∧ Level code b p

def IsUntil (p : ℕ) : Prop := opAt code p = some .MAX_UNTIL ∨ opAt code p = some .MIN_UNTIL

/-- Where a repeat's body ends. -/
def untilOf (q : ℕ) : ℕ := q + 1 + arg code (q + 1)

def MarkAt (i p : ℕ) : Prop := Flow code p ∧ opAt code p = some .MARK ∧ arg code (p + 1) = i

/-- The group from `o` to `c`. -/
def GroupAt (g o c : ℕ) : Prop := MarkAt code (2 * g) o ∧ MarkAt code (2 * g + 1) c

/-- Group `g` is opened before `p` and is not closed before it. -/
def IsOpen (g p : ℕ) : Prop := ∃ o c, GroupAt code g o c ∧ o < p ∧ p ≤ c

/-- The ops that try what follows them in several ways. -/
def IsChoice (p : ℕ) : Prop :=
  opAt code p ∈ [some Op.BRANCH, some .REPEAT_ONE, some .MIN_REPEAT_ONE]

/-- Up to `d` there is a choice after the opening of group `g`. -/
def Chosen (g d : ℕ) : Prop :=
  ∃ o q, MarkAt code (2 * g) o ∧ Flow code q ∧ IsChoice code q ∧ o < q ∧ q ≤ d

/-- The op at `p` tests a group. -/
def TestsGroup (g p : ℕ) : Prop :=
  arg code (p + 1) = g ∧
    ∃ op ∈ [Op.GROUPREF, .GROUPREF_IGNORE, .GROUPREF_UNI_IGNORE, .GROUPREF_LOC_IGNORE,
      .GROUPREF_EXISTS], opAt code p = some op

/-- How long the instruction at `a` is, if it is not a `BRANCH`. -/
def size (a : ℕ) : ℕ :=
  match opAt code a with
  | some .LITERAL | some .NOT_LITERAL | some .LITERAL_IGNORE | some .NOT_LITERAL_IGNORE
  | some .LITERAL_LOC_IGNORE | some .NOT_LITERAL_LOC_IGNORE | some .LITERAL_UNI_IGNORE
  | some .NOT_LITERAL_UNI_IGNORE | some .AT | some .CATEGORY | some .GROUPREF
  | some .GROUPREF_IGNORE | some .GROUPREF_LOC_IGNORE | some .GROUPREF_UNI_IGNORE
  | some .JUMP | some .ATOMIC_GROUP | some .MARK => 2
  | some .IN | some .IN_IGNORE | some .IN_LOC_IGNORE | some .IN_UNI_IGNORE | some .INFO =>
    1 + max (arg code (a + 1)) 1
  | some .GROUPREF_EXISTS | some .ASSERT | some .ASSERT_NOT | some .RANGE
  | some .RANGE_UNI_IGNORE => 3
  | some .REPEAT | some .REPEAT_ONE | some .MIN_REPEAT_ONE | some .POSSESSIVE_REPEAT
  | some .POSSESSIVE_REPEAT_ONE => 4
  | some .CHARSET => 9
  | some .BIGCHARSET => 1 + 1 + 64 + arg code (a + 1) * 8
  | _ => 1

/-- Reading the code from `a` to `e`, from one instruction to the next, comes to `p`. -/
inductive Reads : ℕ → ℕ → ℕ → Prop
  | here {a e : ℕ} : a < e → Reads a e a
  | next {a e p : ℕ} : a < e → opAt code a ≠ some .BRANCH → Reads (a + size code a) e p → Reads a e p
  | alternative {a e p x : ℕ} : a < e → opAt code a = some .BRANCH → Alternative code a x → x < e →
      arg code x ≠ 0 → Reads (x + 1) (min (x + arg code x) e) p → Reads a e p
  | branch {a e p x : ℕ} : a < e → opAt code a = some .BRANCH → Alternative code a x →
      arg code x = 0 → Reads (x + 1) e p → Reads a e p

/-- The whole code, and the bodies in it: from the op `a`, starting at `b`, before `e`. -/
inductive Part : ℕ → ℕ → ℕ → Prop
  | main : Part 0 0 code.length
  | body {a b e : ℕ} : Flow code a → Body code a b e → Part a b e

/-- Every `MARK` occurs once, groups are numbered in the order of their openings and properly nested
in each other and in the bodies, and control stays in the bodies. -/
structure WellFormed : Prop where
  once {i p p' : ℕ} : MarkAt code i p → MarkAt code i p' → p = p'
  opened {g c : ℕ} : MarkAt code (2 * g + 1) c → ∃ o < c, MarkAt code (2 * g) o
  ordered {g h o o' : ℕ} : MarkAt code (2 * g) o → MarkAt code (2 * h) o' → o < o' → g < h
  /-- Control leaves a group by its end only. -/
  nested {g o c p p' : ℕ} : GroupAt code g o c → Flow code p → o < p → p < c → Next code p p' → p' ≤ c
  /-- A group that is opened in a body is closed in it. -/
  closed {a b e g o c : ℕ} : Part code a b e → GroupAt code g o c → a ≤ o → o < e → c < e
  /-- Where a body succeeds, the groups that were opened in it are closed. -/
  ended {a b e x g o c : ℕ} : Part code a b e → Level code b x → opAt code x = some .SUCCESS →
    GroupAt code g o c → a ≤ o → o < x → c < x
  inside {a b e x : ℕ} : Part code a b e → Level code b x → x < e
  /-- A repeat ends with its `UNTIL`, and nothing else does. -/
  until_end {q : ℕ} : Flow code q → opAt code q = some .REPEAT → IsUntil code (untilOf code q)
  until_level {a b e x : ℕ} : Part code a b e → Level code b x → IsUntil code x →
    b = a + 4 ∧ opAt code a = some .REPEAT ∧ x = untilOf code a
  repeat_level {q x : ℕ} : Flow code q → opAt code q = some .REPEAT → Level code (q + 4) x →
    opAt code x ≠ some .SUCCESS
  /-- The items of the repeats of one character have no groups. -/
  item {a b e i x : ℕ} : Flow code a → Body code a b e →
    opAt code a ∈ [some Op.REPEAT_ONE, some .MIN_REPEAT_ONE, some .POSSESSIVE_REPEAT_ONE] →
    MarkAt code i x → a ≤ x → e ≤ x
  /-- The groups in the body of a repeat are found by reading it. -/
  reads {q i x : ℕ} : Flow code q → opAt code q = some .REPEAT → MarkAt code i x → q + 4 ≤ x →
    x < untilOf code q → Reads code (q + 4) (untilOf code q) x

/-- No group is tested from inside it after a choice in it. -/
def NoInnerTest : Prop := ∀ g p, Flow code p → TestsGroup code g p → IsOpen code g p → ¬ Chosen code g p

end Code

section Forward

variable {code : List ℕ} {p p' a b e : ℕ}

theorem Alternative.lt (h : Alternative code p a) : p < a := by
  induction h with
  | first => exact Nat.lt_succ_self p
  | next _ _ ih => omega

theorem Next.lt (h : Next code p p') : p < p' := by
  unfold Next at h
  split at h <;> first | omega | exact h.elim | skip
  obtain ⟨a, ha, -, rfl⟩ := h
  exact ha.lt.trans (Nat.lt_succ_self a)

theorem Level.le (h : Level code b p) : b ≤ p := by
  induction h with
  | refl => exact le_rfl
  | tail _ hnext ih => exact ih.trans hnext.lt.le

theorem Body.next (h : Body code a b e) : Next code a e := by
  unfold Body at h
  unfold Next
  split at h <;> simp_all

theorem Body.lt (h : Body code a b e) : a < b := by
  unfold Body at h
  split at h <;> first | omega | exact h.elim

theorem Body.not_mark (h : Body code a b e) : opAt code a ≠ some .MARK := by
  unfold Body at h
  split at h <;> simp_all

theorem Body.not_until (h : Body code a b e) : ¬ IsUntil code a := by
  unfold Body at h
  rintro (hop | hop) <;> simp [hop] at h

theorem IsUntil.not_mark (h : IsUntil code p) : opAt code p ≠ some .MARK := by
  rcases h with h | h <;> simp [h]

theorem IsUntil.not_next (h : IsUntil code p) : ¬ Next code p p' := by
  unfold Next
  rcases h with h | h <;> simp [h]

theorem Flow.next (h : Flow code p) (hnext : Next code p p') : Flow code p' := by
  obtain ⟨b, hb, hlevel⟩ := h
  exact ⟨b, hb, hlevel.tail hnext⟩

theorem Flow.entry (h : Flow code a) (hbody : Body code a b e) : Entry code b := by
  obtain ⟨b', hb', hlevel⟩ := h
  exact .body hb' hlevel hbody

theorem Flow.of_entry (h : Entry code b) (hlevel : Level code b p) : Flow code p := ⟨b, h, hlevel⟩

end Forward

end WeavePy.Regex
