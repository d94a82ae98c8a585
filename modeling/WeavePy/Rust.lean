import Mathlib.Data.List.Basic
import Mathlib.Tactic.Common

/-!
What a Rust function of the model can do besides return: the few ways a run can go wrong, and the
indexing operations that detect them.
-/

namespace WeavePy

inductive Fault where
  /-- A failed assertion or a bounds-checked index out of range. -/
  | panic
  /-- An unchecked access or a raw move outside its allocation. -/
  | unchecked
  /-- A loop that never ends. -/
  | diverge
  deriving DecidableEq, Repr

abbrev Outcome (α : Type) := Except Fault α

variable {α β : Type}

/-- `l[i]`. -/
def index (l : List α) (i : ℕ) : Outcome α := l[i]?.elim (.error .panic) .ok

/-- `l.get_unchecked(i)`. -/
def getUnchecked (l : List α) (i : ℕ) : Outcome α := l[i]?.elim (.error .unchecked) .ok

/-- `l[i] = a`. -/
def setIndex (l : List α) (i : ℕ) (a : α) : Outcome (List α) :=
  if i < l.length then .ok (l.set i a) else .error .panic

/-- `*l.get_unchecked_mut(i) = a`. -/
def setUnchecked (l : List α) (i : ℕ) (a : α) : Outcome (List α) :=
  if i < l.length then .ok (l.set i a) else .error .unchecked

/-- `str::as_bytes`. -/
def utf8 (s : String) : List UInt8 := s.toByteArray.data.toList

/-- `str::from_utf8`. -/
def fromUtf8 (b : List UInt8) : Option String := String.fromUTF8? ⟨b.toArray⟩

theorem fromUtf8_utf8 (s : String) : fromUtf8 (utf8 s) = some s := by
  have hbytes : (⟨(utf8 s).toArray⟩ : ByteArray) = s.toByteArray := by simp [utf8]
  rw [fromUtf8, hbytes, String.fromUTF8?, dif_pos s.isValidUTF8]
  rfl

theorem utf8_of_fromUtf8 {b : List UInt8} {s : String} (h : fromUtf8 b = some s) : utf8 s = b := by
  unfold fromUtf8 String.fromUTF8? at h
  split_ifs at h with hvalid
  rw [← Option.some.inj h]
  rfl

/-- `Vec::swap_remove`. -/
def swapRemove (l : List α) (i : ℕ) : List α :=
  match l.getLast? with
  | none => l
  | some last => (l.set i last).dropLast

theorem swapRemove_getElem? {l : List α} {i : ℕ} {last : α}
    (hlast : l.getLast? = some last) (m : ℕ) :
    (swapRemove l i)[m]? =
      if m < l.length - 1 then if m = i then some last else l[m]? else none := by
  have hpos : 0 < l.length := List.length_pos_of_mem (List.mem_of_getLast? hlast)
  rw [swapRemove, hlast]
  dsimp only
  rw [List.getElem?_dropLast, List.length_set, List.getElem?_set]
  split_ifs <;> first | rfl | omega

theorem swapRemove_length (l : List α) (i : ℕ) :
    (swapRemove l i).length = l.length - 1 := by
  rw [swapRemove]
  cases h : l.getLast? with
  | none => simp [List.getLast?_eq_none_iff.mp h]
  | some last => simp

theorem index_ok {l : List α} {i : ℕ} (h : i < l.length) : index l i = .ok l[i] := by
  simp [index, h]

theorem getUnchecked_ok {l : List α} {i : ℕ} (h : i < l.length) :
    getUnchecked l i = .ok l[i] := by
  simp [getUnchecked, h]

theorem setIndex_ok {l : List α} {i : ℕ} {a : α} (h : i < l.length) :
    setIndex l i a = .ok (l.set i a) := by
  simp [setIndex, h]

theorem setUnchecked_ok {l : List α} {i : ℕ} {a : α} (h : i < l.length) :
    setUnchecked l i a = .ok (l.set i a) := by
  simp [setUnchecked, h]

@[simp] theorem ok_bind (a : α) (f : α → Outcome β) : (Except.ok a >>= f) = f a := rfl

@[simp] theorem error_bind (e : Fault) (f : α → Outcome β) :
    ((Except.error e : Outcome α) >>= f) = .error e := rfl

theorem bind_eq_ok {x : Outcome α} {f : α → Outcome β} {b : β} :
    (x >>= f) = .ok b ↔ ∃ a, x = .ok a ∧ f a = .ok b := by
  cases x with
  | ok a => simp
  | error e => simp

theorem bind_eq_error {x : Outcome α} {f : α → Outcome β} {e : Fault} :
    (x >>= f) = .error e ↔ x = .error e ∨ ∃ a, x = .ok a ∧ f a = .error e := by
  cases x with
  | ok a => simp
  | error e' => simp

/-- A fold whose invariant speaks of the members still to come. -/
theorem foldlM_ok {f : β → α → Outcome β} (inv : List α → β → Prop)
    (hstep : ∀ a l b, inv (a :: l) b → ∃ b', f b a = .ok b' ∧ inv l b') {l : List α} {b : β}
    (h : inv l b) : ∃ b', l.foldlM f b = .ok b' ∧ inv [] b' := by
  induction l generalizing b with
  | nil => exact ⟨b, rfl, h⟩
  | cons a l ih =>
    obtain ⟨b', hrun, hinv⟩ := hstep a l b h
    rw [List.foldlM_cons, hrun, ok_bind]
    exact ih hinv

/-- The run returns a value satisfying `P`, or panics for the stated reason. -/
def Ensures (x : Outcome α) (P : α → Prop) (reason : Prop) : Prop :=
  match x with
  | .ok a => P a
  | .error e => e = .panic ∧ reason

section Ensures

variable {P : α → Prop} {Q : β → Prop} {R R' : Prop} {x : Outcome α} {f : α → Outcome β}

@[simp] theorem ensures_ok {a : α} : Ensures (.ok a) P R ↔ P a := Iff.rfl

@[simp] theorem ensures_pure {a : α} : Ensures (pure a) P R ↔ P a := Iff.rfl

theorem ensures_of_eq {a : α} (h : x = .ok a) (ha : P a) : Ensures x P R := by
  rw [h]
  exact ha

theorem Ensures.bind (hx : Ensures x P R) (hf : ∀ a, P a → Ensures (f a) Q R) :
    Ensures (x >>= f) Q R := by
  cases x with
  | ok a => exact hf a hx
  | error e => exact hx

theorem Ensures.fst {γ : Type} {x : Outcome (α × γ)} (h : Ensures x (fun r => P r.1) R) :
    Ensures (do return (← x).1) P R := h.bind fun _ ha => ha

theorem Ensures.mono {P' : α → Prop} (hx : Ensures x P R) (hP : ∀ a, P a → P' a) (hR : R → R') :
    Ensures x P' R' := by
  cases x with
  | ok a => exact hP a hx
  | error e => exact ⟨hx.1, hR hx.2⟩

theorem Ensures.of_ok {a : α} (hx : Ensures x P R) (h : x = .ok a) : P a := by
  rw [h] at hx
  exact hx

end Ensures

end WeavePy
