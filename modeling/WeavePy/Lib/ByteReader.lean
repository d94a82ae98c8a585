import Mathlib.Data.List.Basic
import Mathlib.Data.Nat.Bitwise
import Mathlib.Tactic.Common

/-!
Readers of a byte string from a position, and what it means for one to read back what was written.
-/

namespace WeavePy

/-- A reader of a byte string: from a position to a value and the position after it. -/
abbrev ByteReader := ReaderT (List UInt8) (StateT ℕ Option)

namespace ByteReader

section Slices

variable {bytes u v w : List UInt8} {pos : ℕ}

/-- `w` stands at `pos`. -/
def Slice (bytes : List UInt8) (pos : ℕ) (w : List UInt8) : Prop :=
  ∃ before after, bytes = before ++ (w ++ after) ∧ before.length = pos

theorem Slice.left (h : Slice bytes pos (u ++ v)) : Slice bytes pos u := by
  obtain ⟨before, after, rfl, rfl⟩ := h
  exact ⟨before, v ++ after, by simp, rfl⟩

theorem Slice.right (h : Slice bytes pos (u ++ v)) : Slice bytes (pos + u.length) v := by
  obtain ⟨before, after, rfl, rfl⟩ := h
  exact ⟨before ++ u, after, by simp, by simp⟩

theorem Slice.le (h : Slice bytes pos w) : pos + w.length ≤ bytes.length := by
  obtain ⟨before, after, rfl, rfl⟩ := h
  simp only [List.length_append]
  omega

theorem Slice.head {b : UInt8} (h : Slice bytes pos (b :: w)) : bytes[pos]? = some b := by
  obtain ⟨before, after, rfl, rfl⟩ := h
  simp

theorem Slice.take_drop (h : Slice bytes pos w) : (bytes.drop pos).take w.length = w := by
  obtain ⟨before, after, rfl, rfl⟩ := h
  simp

theorem Slice.trans {k : ℕ} (h : Slice bytes pos w) (hv : Slice w k v) : Slice bytes (pos + k) v := by
  obtain ⟨before, after, rfl, rfl⟩ := h
  obtain ⟨before', after', rfl, rfl⟩ := hv
  exact ⟨before ++ before', after' ++ after, by simp, by simp⟩

theorem slice_self (bytes : List UInt8) : Slice bytes 0 bytes := ⟨[], [], by simp, rfl⟩

end Slices

section Readers

variable {α β γ : Type} {bytes u v w : List UInt8} {x : ByteReader α} {f : α → ByteReader β} {P : α → Prop}
  {Q : β → Prop} {a : α}

/-- Wherever `w` stands in `bytes`, the reader reads it, to a value with the property. -/
def Reads (bytes w : List UInt8) (x : ByteReader α) (P : α → Prop) : Prop :=
  ∀ pos, Slice bytes pos w → ∃ a, x bytes pos = some (a, pos + w.length) ∧ P a

theorem Reads.pure (h : P a) : Reads bytes [] (Pure.pure a) P := fun _ _ => ⟨a, rfl, h⟩

theorem Reads.bind (hx : Reads bytes u x P) (hf : ∀ a, P a → Reads bytes v (f a) Q) :
    Reads bytes (u ++ v) (x >>= f) Q := by
  intro pos h
  obtain ⟨a, hrun, ha⟩ := hx pos h.left
  obtain ⟨b, hrun', hb⟩ := hf a ha _ h.right
  refine ⟨b, ?_, hb⟩
  rw [List.length_append, ← Nat.add_assoc]
  change (x bytes pos).bind (fun p => f p.1 bytes p.2) = _
  rw [hrun]
  exact hrun'

theorem Reads.bind_last (hx : Reads bytes w x P) (hf : ∀ a, P a → Reads bytes [] (f a) Q) :
    Reads bytes w (x >>= f) Q := by
  simpa using hx.bind hf

theorem Reads.mono {P' : α → Prop} (hx : Reads bytes w x P) (hP : ∀ a, P a → P' a) : Reads bytes w x P' := by
  intro pos h
  obtain ⟨a, hrun, ha⟩ := hx pos h
  exact ⟨a, hrun, hP a ha⟩

theorem Reads.map {g : α → β} (hx : Reads bytes w x P) (hg : ∀ a, P a → Q (g a)) : Reads bytes w (g <$> x) Q := by
  intro pos h
  obtain ⟨a, hrun, ha⟩ := hx pos h
  refine ⟨g a, ?_, hg a ha⟩
  change (x bytes pos).bind (fun p => some (g p.1, p.2)) = _
  rw [hrun]
  rfl

theorem Reads.bind_pure {g : α → β} (hx : Reads bytes w x P) (hg : ∀ a, P a → Q (g a)) :
    Reads bytes w (x >>= fun a => Pure.pure (g a)) Q := hx.map hg

/-- A check on what was read. -/
def lift (o : Option α) : ByteReader α := fun _ pos => o.map fun a => (a, pos)

theorem Reads.lift {o : Option α} (ho : o = some a) (ha : P a) : Reads bytes [] (lift o) P := by
  subst ho
  exact fun pos _ => ⟨a, rfl, ha⟩

theorem Reads.lift_bind {o : Option α} (ho : o = some a) (hf : Reads bytes w (f a) Q) :
    Reads bytes w (ByteReader.lift o >>= f) Q := by
  have hlift : Reads bytes [] (ByteReader.lift o) (· = a) := Reads.lift ho rfl
  exact hlift.bind fun b hb => hb ▸ hf

def byte : ByteReader UInt8 := fun bytes pos => bytes[pos]?.map fun b => (b, pos + 1)

theorem reads_byte (b : UInt8) : Reads bytes [b] byte (· = b) := by
  intro pos h
  refine ⟨b, ?_, rfl⟩
  rw [byte, h.head]
  rfl

/-- The position. -/
def position : ByteReader ℕ := fun _ pos => some (pos, pos)

/-- The bytes left. -/
def remaining : ByteReader ℕ := fun bytes pos => some (bytes.length - pos, pos)

/-- The next `n` bytes. -/
def raw (n : ℕ) : ByteReader (List UInt8) := fun bytes pos =>
  if pos + n ≤ bytes.length then some ((bytes.drop pos).take n, pos + n) else none

theorem reads_raw (w : List UInt8) : Reads bytes w (raw w.length) (· = w) := by
  intro pos h
  refine ⟨w, ?_, rfl⟩
  rw [raw, if_pos h.le, h.take_drop]

def many (x : ByteReader α) : ℕ → ByteReader (List α)
  | 0 => Pure.pure []
  | n + 1 => do
    let a ← x
    let as ← many x n
    return a :: as

theorem reads_many {R : β → α → Prop} {bs : List β} {ws : List (List UInt8)}
    (h : List.Forall₂ (fun b w => Reads bytes w x (R b)) bs ws) :
    Reads bytes ws.flatten (many x bs.length) (List.Forall₂ R bs) := by
  induction h with
  | nil => exact Reads.pure .nil
  | cons hb _ ih => exact hb.bind fun a ha => ih.bind_pure fun as has => .cons ha has

/-- A count that what is left of the input can hold, when every element takes a byte at least. -/
def bounded (n : ℕ) : ByteReader ℕ := do
  let left ← remaining
  lift (if n ≤ left then some n else none)

theorem Reads.bounded_bind {n : ℕ} {g : ℕ → ByteReader β} (hn : n ≤ w.length) (hg : Reads bytes w (g n) Q) :
    Reads bytes w (bounded n >>= g) Q := by
  intro pos h
  have hle := h.le
  obtain ⟨b, hrun, hb⟩ := hg pos h
  refine ⟨b, ?_, hb⟩
  have hbounded : bounded n bytes pos = some (n, pos) := by
    change (if n ≤ bytes.length - pos then some n else none).map (fun a => (a, pos)) = _
    rw [if_pos (by omega)]
    rfl
  change (bounded n bytes pos).bind (fun p => g p.1 bytes p.2) = _
  rw [hbounded]
  exact hrun

end Readers

end ByteReader

end WeavePy
