import Mathlib.Data.List.Basic
import Mathlib.Tactic.Common
import WeavePy.Lib.ByteOrder

/-!
The formats of `struct`: the fields that a format string stands for, and where each of them lies.
-/

namespace WeavePy.Struct

/-- What the platform decides. -/
structure Target where
  order : ByteOrder
  /-- A C `long` has eight bytes, else four. -/
  wideLong : Bool
  deriving DecidableEq, Repr

def Target.longSize (target : Target) : ℕ := if target.wideLong then 8 else 4

inductive Exception where
  | valueError (message : String)
  | overflowError (message : String)
  | typeError (message : String)
  /-- What a method of an argument raises. -/
  | other (name message : String)
  deriving DecidableEq, Repr

inductive Error where
  | raised (e : Exception)
  /-- An index or a slice out of bounds. -/
  | panic
  /-- A loop without an end. -/
  | diverge
  deriving DecidableEq, Repr

/-- The `ValueError` that the Python wrapper raises again as `struct.error`. -/
def structError (message : String) : Error := .raised (.valueError message)

def MAX_STRUCT_SIZE : ℕ := 2 ^ 63 - 1

inductive Endian where
  | native
  | standard
  | little
  | big
  deriving DecidableEq, Repr

structure Field where
  code : Char
  count : ℕ
  deriving DecidableEq, Repr

structure CompiledFormat where
  endian : Endian
  fields : List Field
  size : ℕ
  deriving DecidableEq, Repr

def elementSize (target : Target) (code : Char) (endian : Endian) : Except Error ℕ :=
  match code with
  | 'x' | 'b' | 'B' | 'c' | 's' | 'p' | '?' => .ok 1
  | 'h' | 'H' | 'e' => .ok 2
  | 'i' | 'I' | 'f' => .ok 4
  | 'l' | 'L' => if endian = .native then .ok target.longSize else .ok 4
  | 'q' | 'Q' | 'd' | 'F' => .ok 8
  | 'D' => .ok 16
  | 'n' | 'N' | 'P' =>
    if endian = .native then .ok 8 else .error (structError s!"bad char in struct format: '{code}'")
  | _ => .error (structError s!"bad char in struct format: '{code}'")

def nativeAlign (target : Target) (code : Char) : ℕ :=
  match code with
  | 'x' | 'b' | 'B' | 'c' | 's' | 'p' | '?' => 1
  | 'h' | 'H' | 'e' => 2
  | 'i' | 'I' | 'f' | 'F' => 4
  | 'l' | 'L' => target.longSize
  | 'q' | 'Q' | 'd' | 'D' => 8
  | 'n' | 'N' | 'P' => 8
  | _ => 1

def isAsciiWhitespace (c : Char) : Bool :=
  c = ' ' || c = '\t' || c = '\n' || c = Char.ofNat 12 || c = '\r'

def toDigit (c : Char) : Option ℕ :=
  if '0' ≤ c ∧ c ≤ '9' then some (c.toNat - 48) else none

/-- The pad bytes that native alignment puts before a field. -/
def padding (target : Target) (endian : Endian) (code : Char) (size : ℕ) : ℕ :=
  if endian = .native ∧ 1 < nativeAlign target code then
    (nativeAlign target code - size % nativeAlign target code) % nativeAlign target code
  else 0

/-- The fields and the size after one more format code, read with its count. -/
def addField (target : Target) (endian : Endian) (code : Char) (n : ℕ) (fields : List Field) (size : ℕ) :
    Except Error (List Field × ℕ) := do
  let unit ← elementSize target code endian
  if unit * n ≤ MAX_STRUCT_SIZE then
    let pad := padding target endian code size
    let fields := if 0 < pad then fields ++ [⟨'x', pad⟩] else fields
    if size + pad + unit * n ≤ MAX_STRUCT_SIZE then
      .ok (fields ++ [⟨code, n⟩], size + pad + unit * n)
    else .error (structError "total struct size too long")
  else .error (structError "total struct size too long")

/-- The loop of `parse`. `count` is the repeat count read so far, the inner loop's `n` once it
`had_count`; white space is skipped only ahead of one. -/
def parseFields (target : Target) (endian : Endian) :
    List Char → Option ℕ → List Field → ℕ → Except Error (List Field × ℕ)
  | [], none, fields, size => .ok (fields, size)
  | [], some _, _, _ => .error (.raised (.valueError "repeat count without format code"))
  | c :: chars, count, fields, size =>
    if count = none ∧ isAsciiWhitespace c = true then parseFields target endian chars none fields size
    else match toDigit c with
      | some digit =>
        if count.getD 0 * 10 + digit < 2 ^ 64 then
          parseFields target endian chars (some (count.getD 0 * 10 + digit)) fields size
        else .error (.raised (.valueError "repeat count overflow"))
      | none =>
        match addField target endian c (count.getD 1) fields size with
        | .ok (fields, size) => parseFields target endian chars none fields size
        | .error e => .error e

/-- The byte order that a format starts with, and the rest of the format. -/
def readEndian : List Char → Endian × List Char
  | '@' :: chars => (.native, chars)
  | '=' :: chars => (.standard, chars)
  | '<' :: chars => (.little, chars)
  | '>' :: chars => (.big, chars)
  | '!' :: chars => (.big, chars)
  | chars => (.native, chars)

def parse (target : Target) (fmt : String) : Except Error CompiledFormat :=
  if Char.ofNat 0 ∈ fmt.toList then .error (structError "embedded null character")
  else
    match parseFields target (readEndian fmt.toList).1 (readEndian fmt.toList).2 none [] 0 with
    | .ok (fields, size) => .ok ⟨(readEndian fmt.toList).1, fields, size⟩
    | .error e => .error e

/-- The arguments that a field takes. -/
def Field.arity (f : Field) : ℕ :=
  match f.code with
  | 'x' => 0
  | 's' | 'p' => 1
  | _ => f.count

/-- The format characters of a field's arguments, `_value_codes`. -/
def Field.valueCodes (f : Field) : List Char :=
  match f.code with
  | 'x' => []
  | 's' | 'p' => [f.code]
  | code => List.replicate f.count code

def valueCodes (cf : CompiledFormat) : List Char := cf.fields.flatMap Field.valueCodes

section Layout

variable {target : Target} {endian : Endian} {fields : List Field} {size n unit : ℕ} {code : Char}

/-- The bytes of one field. -/
def Field.bytes (target : Target) (endian : Endian) (f : Field) : ℕ :=
  match elementSize target f.code endian with
  | .ok unit => unit * f.count
  | .error _ => 0

def extent (target : Target) (endian : Endian) (fields : List Field) : ℕ :=
  (fields.map (Field.bytes target endian)).sum

@[simp]
theorem extent_nil : extent target endian [] = 0 := rfl

@[simp]
theorem extent_cons (f : Field) :
    extent target endian (f :: fields) = f.bytes target endian + extent target endian fields := rfl

@[simp]
theorem extent_append (fields more : List Field) :
    extent target endian (fields ++ more) = extent target endian fields + extent target endian more := by
  simp [extent]

theorem bytes_of_size (h : elementSize target code endian = .ok unit) :
    Field.bytes target endian ⟨code, n⟩ = unit * n := by
  rw [Field.bytes, h]

/-- Fields of known codes, one behind the other, each at a multiple of its alignment where the
platform's layout is asked for. -/
structure Laid (target : Target) (endian : Endian) (fields : List Field) (size : ℕ) : Prop where
  size_eq : size = extent target endian fields
  known : ∀ f ∈ fields, ∃ unit, elementSize target f.code endian = .ok unit
  aligned : endian = .native → ∀ before f after, fields = before ++ f :: after →
    nativeAlign target f.code ∣ extent target endian before

theorem Laid.nil : Laid target endian [] 0 := by
  constructor
  · rfl
  · intro f hf
    cases hf
  · intro _ before f after h
    cases before <;> cases h

theorem Laid.push (h : Laid target endian fields size) (hunit : elementSize target code endian = .ok unit)
    (halign : endian = .native → nativeAlign target code ∣ size) :
    Laid target endian (fields ++ [⟨code, n⟩]) (size + unit * n) := by
  constructor
  · rw [extent_append, extent_cons, extent_nil, bytes_of_size hunit, ← h.size_eq]
    rfl
  · intro f hf
    rcases List.mem_append.1 hf with hf | hf
    · exact h.known f hf
    · rw [List.mem_singleton.1 hf]
      exact ⟨unit, hunit⟩
  · intro hnative before f after heq
    rcases List.eq_nil_or_concat after with rfl | ⟨init, last, rfl⟩
    · obtain ⟨rfl, hf⟩ := List.append_inj' heq rfl
      obtain ⟨rfl, -⟩ := List.cons.inj hf
      rw [← h.size_eq]
      exact halign hnative
    · have heq' : fields ++ [(⟨code, n⟩ : Field)] = (before ++ f :: init) ++ [last] := by
        rw [heq, List.concat_eq_append, List.append_assoc, List.cons_append]
      obtain ⟨hfields, -⟩ := List.append_inj' heq' rfl
      exact h.aligned hnative before f init hfields

theorem elementSize_pad (target : Target) (endian : Endian) : elementSize target 'x' endian = .ok 1 := rfl

theorem nativeAlign_pad : nativeAlign target 'x' = 1 := rfl

theorem nativeAlign_pos (target : Target) (code : Char) : 0 < nativeAlign target code := by
  have hlong : 0 < target.longSize := by
    unfold Target.longSize
    split_ifs <;> decide
  unfold nativeAlign
  split <;> first | exact hlong | decide

theorem dvd_padded {align : ℕ} (halign : 0 < align) (size : ℕ) : align ∣ size + (align - size % align) % align := by
  have hlt := Nat.mod_lt size halign
  have hsplit := Nat.div_add_mod size align
  rcases Nat.eq_zero_or_pos (size % align) with hzero | hpos
  · rw [hzero, Nat.sub_zero, Nat.mod_self]
    exact Nat.dvd_of_mod_eq_zero hzero
  · rw [Nat.mod_eq_of_lt (Nat.sub_lt halign hpos)]
    refine ⟨size / align + 1, ?_⟩
    rw [Nat.mul_add, Nat.mul_one]
    omega

theorem Laid.padded (h : Laid target endian fields size) (pad : ℕ) :
    Laid target endian (if 0 < pad then fields ++ [⟨'x', pad⟩] else fields) (size + pad) := by
  split_ifs with hpad
  · have hpush := h.push (n := pad) (elementSize_pad target endian) (fun _ => by
      rw [nativeAlign_pad]
      exact one_dvd size)
    rwa [Nat.one_mul] at hpush
  · obtain rfl : pad = 0 := Nat.eq_zero_of_not_pos hpad
    exact h

theorem dvd_padding (hnative : endian = .native) (code : Char) (size : ℕ) :
    nativeAlign target code ∣ size + padding target endian code size := by
  have hpos := nativeAlign_pos target code
  unfold padding
  split_ifs with h
  · exact dvd_padded hpos size
  · have hone : nativeAlign target code = 1 := by
      by_contra hne
      exact h ⟨hnative, by omega⟩
    rw [hone]
    exact one_dvd _

theorem addField_laid {result : List Field × ℕ} (h : Laid target endian fields size)
    (hadd : addField target endian code n fields size = .ok result) : Laid target endian result.1 result.2 := by
  unfold addField at hadd
  cases hunit : elementSize target code endian with
  | error e =>
    rw [hunit] at hadd
    cases hadd
  | ok unit =>
    rw [hunit] at hadd
    have hlaid := (h.padded (padding target endian code size)).push (n := n) hunit
      (fun hnative => dvd_padding hnative code size)
    change (if unit * n ≤ MAX_STRUCT_SIZE then
      if size + padding target endian code size + unit * n ≤ MAX_STRUCT_SIZE then _ else _ else _) = _ at hadd
    by_cases hunits : unit * n ≤ MAX_STRUCT_SIZE
    · rw [if_pos hunits] at hadd
      by_cases htotal : size + padding target endian code size + unit * n ≤ MAX_STRUCT_SIZE
      · rw [if_pos htotal] at hadd
        cases hadd
        exact hlaid
      · rw [if_neg htotal] at hadd
        cases hadd
    · rw [if_neg hunits] at hadd
      cases hadd

theorem parseFields_laid {chars : List Char} {count : Option ℕ} {result : List Field × ℕ}
    (h : Laid target endian fields size) (hparse : parseFields target endian chars count fields size = .ok result) :
    Laid target endian result.1 result.2 := by
  induction chars generalizing count fields size with
  | nil =>
    cases count with
    | none =>
      cases hparse
      exact h
    | some n => cases hparse
  | cons c chars ih =>
    rw [parseFields] at hparse
    split_ifs at hparse
    · exact ih h hparse
    · cases hdigit : toDigit c with
      | some digit =>
        simp only [hdigit] at hparse
        split_ifs at hparse
        exact ih h hparse
      | none =>
        simp only [hdigit] at hparse
        cases hadd : addField target endian c (count.getD 1) fields size with
        | ok result =>
          simp only [hadd] at hparse
          exact ih (addField_laid h hadd) hparse
        | error e =>
          simp only [hadd] at hparse
          cases hparse

theorem parse_laid {fmt : String} {cf : CompiledFormat} (h : parse target fmt = .ok cf) :
    Laid target cf.endian cf.fields cf.size := by
  unfold parse at h
  split_ifs at h
  cases hfields : parseFields target (readEndian fmt.toList).1 (readEndian fmt.toList).2 none [] 0 with
  | ok result =>
    simp only [hfields] at h
    cases h
    exact parseFields_laid Laid.nil hfields
  | error e =>
    simp only [hfields] at h
    cases h

end Layout

end WeavePy.Struct
