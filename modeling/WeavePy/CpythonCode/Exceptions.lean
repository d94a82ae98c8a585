import WeavePy.CpythonCode.RoundTrip
import WeavePy.Lib.Segments

/-!
The exception table: ranges of instructions written as runs of code units, and read back.
-/

namespace WeavePy.CpythonCode

open NativeCode Segments

variable {E : Type}

section Writing

/-- Groups of six bits, the lowest first; there is room for six. -/
def excGroups : ℕ → UInt32 → List UInt8
  | 0, _ => []
  | n + 1, val => (val &&& 0x3F).toUInt8 :: if val >>> 6 = 0 then [] else excGroups n (val >>> 6)

/-- The groups as bytes, the highest first: all but the lowest continue, the highest has the mask. -/
def pushExcVarint (val : UInt32) (firstMask : UInt8) : List UInt8 :=
  let groups := excGroups 6 val
  (groups.mapIdx fun idx g =>
    let b := if idx ≠ 0 then g ||| 0x40 else g
    if idx + 1 = groups.length then b ||| firstMask else b).reverse

/-- Who handles a unit: the handler's unit, the depth and the `lasti` flag. -/
structure Owner where
  target : UInt32
  depth : UInt32
  pushLasti : Bool
  deriving DecidableEq

variable (code : CodeObject FullInfo E) (starts : List ℕ)

def ownerOf (h : ExcHandler) : Owner :=
  ⟨(starts[h.handler.toNat]?.getD 0).toUInt32, h.depth, h.pushLasti⟩

/-- One owner, or none, for each code unit. -/
def owners : List (Option Owner) :=
  let n := code.info.instructions.length
  code.info.exceptionTable.foldl (fun owner h =>
    (List.range' h.start.toNat (min h.stop.toNat n - h.start.toNat)).foldl
      (fun owner i => paint owner (starts[i]?.getD 0) (starts[i + 1]?.getD 0) (ownerOf starts h)) owner)
    (List.replicate (starts[n]?.getD 0) none)

def pushExcEntry (s : Segment Owner) : List UInt8 :=
  pushExcVarint s.start.toUInt32 0x80 ++ pushExcVarint s.len.toUInt32 0 ++ pushExcVarint s.key.target 0 ++
    pushExcVarint ((s.key.depth <<< 1) ||| s.key.pushLasti.toUInt32) 0

def encodeExceptionTable : List UInt8 := (runs 0 (owners code starts)).flatMap pushExcEntry

/-- The widths from which the last round counted where the instructions start; the round may still change them. -/
def countedExt (mapped : List MappedOp) : ℕ → List ℕ → List ℕ
  | 0, ext => ext
  | 1, ext => ext
  | fuel + 2, ext =>
    let ext' := ext.mapIdx fun i e => (jumpArg code mapped ext i).elim e extCount
    if ext' = ext then ext else countedExt mapped (fuel + 1) ext'

/-- Where the last round counts the start of an instruction. -/
def countedStart (mapped : List MappedOp) (i : ℕ) : ℕ :=
  startUnit code mapped (countedExt code mapped 16 (seedExt code mapped)) i

def exceptionBytes : Outcome (List UInt8) := do
  let mapped ← mappedOps code
  return encodeExceptionTable code ((List.range (code.info.instructions.length + 1)).map (countedStart code mapped))

end Writing

section Reading

/-- Groups of six bits, the highest first, as long as they continue. -/
def readExcField : List UInt8 → UInt32 → UInt32 × List UInt8
  | [], val => (val, [])
  | b :: table, val =>
    if b &&& 0x40 = 0 then ((val <<< 6) ||| (b &&& 0x3F).toUInt32, table)
    else readExcField table ((val <<< 6) ||| (b &&& 0x3F).toUInt32)

theorem readExcField_length_le (table : List UInt8) (val : UInt32) :
    (readExcField table val).2.length ≤ table.length := by
  induction table generalizing val with
  | nil => exact Nat.le_refl _
  | cons b table ih =>
    rw [readExcField]
    split_ifs
    · exact Nat.le_succ _
    · exact Nat.le_succ_of_le (ih _)

theorem readExcField_length_lt {table : List UInt8} (h : table ≠ []) (val : UInt32) :
    (readExcField table val).2.length < table.length := by
  cases table with
  | nil => exact absurd rfl h
  | cons b table =>
    rw [readExcField]
    split_ifs
    · exact Nat.lt_succ_self _
    · exact Nat.lt_succ_of_le (readExcField_length_le _ _)

/-- An entry's words: its first unit, its length, the handler's unit, and the depth with the flag. -/
structure ExcEntry where
  start : UInt32
  length : UInt32
  target : UInt32
  dl : UInt32

def excEntries (table : List UInt8) : List ExcEntry :=
  if _ : table = [] then []
  else
    let start := readExcField table 0
    if start.2 = [] then []
    else
      let length := readExcField start.2 0
      let target := readExcField length.2 0
      let dl := readExcField target.2 0
      ⟨start.1, length.1, target.1, dl.1⟩ :: excEntries dl.2
termination_by table.length
decreasing_by
  have h₁ : start.2.length < table.length := readExcField_length_lt ‹_› 0
  have h₂ : length.2.length ≤ start.2.length := readExcField_length_le start.2 0
  have h₃ : target.2.length ≤ length.2.length := readExcField_length_le length.2 0
  exact lt_of_le_of_lt ((readExcField_length_le target.2 0).trans (h₃.trans h₂)) h₁

/-- The starts rise, so a search finds the one that matches. -/
def rawAtUnit (raws : List DecodedRaw) (unit : ℕ) : ℕ :=
  (raws.findIdx? (·.startUnit = unit)).getD raws.length

def rawFirstInstr (expansions : List ℕ) : List ℕ := expansions.scanl (· + ·) 0

def mapUnit (raws : List DecodedRaw) (unit : ℕ) : UInt32 :=
  let first := rawFirstInstr (raws.map fun r => rawExpansion r.cpOp r.arg)
  (first[rawAtUnit raws unit]?.getD (first.getLast?.getD 0)).toUInt32

def ExcEntry.handler (raws : List DecodedRaw) (e : ExcEntry) : ExcHandler :=
  ⟨mapUnit raws e.start.toNat, mapUnit raws (e.start.toNat + e.length.toNat), mapUnit raws e.target.toNat, e.dl >>> 1,
    e.dl &&& 1 ≠ 0⟩

def decodeExceptionTable (table : List UInt8) (raws : List DecodedRaw) : List ExcHandler :=
  ((excEntries table).map (ExcEntry.handler raws)).filter fun h => h.start < h.stop

end Reading

section Fields

/-- The entry mark, or none. -/
def EntryMark (mask : UInt8) : Prop := mask = 0 ∨ mask = 0x80

variable {mask : UInt8} {n : ℕ}

theorem marked_byte (b : UInt8) (hb : b.toNat < 64) (hmask : EntryMark mask) :
    (b ||| mask) &&& 0x40 = 0 ∧ (b ||| mask) &&& 0x3F = b ∧ (b ||| 0x40 ||| mask) &&& 0x40 ≠ 0 ∧
      (b ||| 0x40 ||| mask) &&& 0x3F = b := by
  have hall : ∀ k < 64, ∀ m ∈ [(0 : UInt8), 0x80], (k.toUInt8 ||| m) &&& 0x40 = 0 ∧ (k.toUInt8 ||| m) &&& 0x3F = k.toUInt8 ∧
      (k.toUInt8 ||| 0x40 ||| m) &&& 0x40 ≠ 0 ∧ (k.toUInt8 ||| 0x40 ||| m) &&& 0x3F = k.toUInt8 := by decide +kernel
  have hmem : mask ∈ [(0 : UInt8), 0x80] := by
    obtain rfl | rfl := hmask
    · exact List.mem_cons_self
    · exact List.mem_cons_of_mem _ List.mem_cons_self
  have h := hall b.toNat hb mask hmem
  rwa [Nat.toUInt8_eq, UInt8.ofNat_toNat] at h

/-- A group goes below the ones read before it. -/
theorem shift_or_group (val : UInt32) : ((val >>> 6) <<< 6) ||| (val &&& 0x3F).toUInt8.toUInt32 = val := by
  have hhigh : ((val >>> 6) <<< 6).toNat = 64 * (val.toNat / 64) := by
    have hlt := val.toNat_lt
    have hsix : (6 : UInt32).toNat % 32 = 6 := rfl
    rw [UInt32.toNat_shiftLeft, toNat_shiftRight_six, hsix, Nat.shiftLeft_eq]
    omega
  apply UInt32.toNat_inj.mp
  rw [UInt32.toNat_or, hhigh, UInt8.toNat_toUInt32, toNat_group, ← Nat.two_pow_add_eq_or_of_lt (i := 6) (Nat.mod_lt _ (by omega))]
  omega

/-- Groups that all continue, the highest first. -/
def contBytes (mask : UInt8) (groups : List UInt8) : List UInt8 :=
  (groups.mapIdx fun idx g => if idx + 1 = groups.length then g ||| 0x40 ||| mask else g ||| 0x40).reverse

theorem contBytes_cons (mask g : UInt8) (groups : List UInt8) : contBytes mask (g :: groups) =
    contBytes mask groups ++ [if groups = [] then g ||| 0x40 ||| mask else g ||| 0x40] := by
  unfold contBytes
  rw [List.mapIdx_cons, List.reverse_cons]
  congr 2
  · apply congrArg (List.mapIdx · groups)
    funext idx g
    simp only [List.length_cons, Nat.add_right_cancel_iff]
  · cases groups with
    | nil => rfl
    | cons g' groups => rw [if_neg (by rw [List.length_cons, List.length_cons]; omega), if_neg (List.cons_ne_nil _ _)]

theorem toNat_group_lt (val : UInt32) : (val &&& 0x3F).toUInt8.toNat < 64 := by
  rw [toNat_group]
  exact Nat.mod_lt _ (by omega)

theorem readExcField_cons {b : UInt8} (h : b &&& 0x40 ≠ 0) (table : List UInt8) (val : UInt32) :
    readExcField (b :: table) val = readExcField table ((val <<< 6) ||| (b &&& 0x3F).toUInt32) := by
  rw [readExcField, if_neg h]

theorem readExcField_contBytes (hmask : EntryMark mask) (val : UInt32) (hval : val.toNat < 64 ^ n) (rest : List UInt8) :
    readExcField (contBytes mask (excGroups n val) ++ rest) 0 = readExcField rest val := by
  induction n generalizing val rest with
  | zero =>
    obtain rfl : val = 0 := by
      apply UInt32.toNat_inj.mp
      rw [Nat.pow_zero] at hval
      change val.toNat = 0
      omega
    rfl
  | succ n ih =>
    have hbyte (m : UInt8) (hm : EntryMark m) := marked_byte (val &&& 0x3F).toUInt8 (toNat_group_lt val) hm
    have hread (table : List UInt8) (m : UInt8) (hm : EntryMark m) :
        readExcField (((val &&& 0x3F).toUInt8 ||| 0x40 ||| m) :: table) (val >>> 6) = readExcField table val := by
      rw [readExcField_cons (hbyte m hm).2.2.1, (hbyte m hm).2.2.2, shift_or_group]
    rw [excGroups, contBytes_cons, List.append_assoc]
    by_cases hlast : val >>> 6 = 0
    · have hone := hread rest mask hmask
      rw [hlast] at hone
      rw [if_pos hlast, if_pos rfl]
      exact hone
    · have hsmall : (val >>> 6).toNat < 64 ^ n := by
        rw [toNat_shiftRight_six]
        rw [Nat.pow_succ] at hval
        omega
      have hne : excGroups n (val >>> 6) ≠ [] := by
        cases n with
        | zero =>
          have : val >>> 6 = 0 := by
            apply UInt32.toNat_inj.mp
            rw [Nat.pow_zero] at hsmall
            change (val >>> 6).toNat = 0
            omega
          exact absurd this hlast
        | succ n => exact List.cons_ne_nil _ _
      have hone := hread rest 0 (.inl rfl)
      rw [UInt8.or_zero] at hone
      rw [if_neg hlast, if_neg hne, ih _ hsmall]
      exact hone

theorem pushExcVarint_eq (val : UInt32) (mask : UInt8) : pushExcVarint val mask =
    contBytes mask (if val >>> 6 = 0 then [] else excGroups 5 (val >>> 6)) ++
      [if val >>> 6 = 0 then (val &&& 0x3F).toUInt8 ||| mask else (val &&& 0x3F).toUInt8] := by
  have hmore : (if val >>> 6 = 0 then [] else excGroups 5 (val >>> 6)) = [] ↔ val >>> 6 = 0 := by
    split_ifs with h
    · exact iff_of_true rfl h
    · exact iff_of_false (List.cons_ne_nil _ _) h
  unfold pushExcVarint contBytes
  rw [excGroups]
  dsimp only
  obtain ⟨more, heq⟩ : ∃ more, more = if val >>> 6 = 0 then [] else excGroups 5 (val >>> 6) := ⟨_, rfl⟩
  rw [← heq] at hmore ⊢
  rw [List.mapIdx_cons, List.reverse_cons]
  congr 2
  · apply congrArg (List.mapIdx · _)
    funext idx g
    simp only [List.length_cons, Nat.add_right_cancel_iff, ne_eq, Nat.succ_ne_zero, not_false_eq_true, if_true]
  · cases more with
    | nil => rw [if_pos (hmore.mp rfl)]; rfl
    | cons g more =>
      rw [if_neg (by rw [List.length_cons, List.length_cons]; omega), if_neg fun h => List.cons_ne_nil _ _ (hmore.mpr h)]
      rfl

/-- A field is read back, whatever follows it. -/
theorem readExcField_pushExcVarint (hmask : EntryMark mask) (val : UInt32) (rest : List UInt8) :
    readExcField (pushExcVarint val mask ++ rest) 0 = (val, rest) := by
  have hbyte (m : UInt8) (hm : EntryMark m) := marked_byte (val &&& 0x3F).toUInt8 (toNat_group_lt val) hm
  have hlow (m : UInt8) (hm : EntryMark m) : readExcField (((val &&& 0x3F).toUInt8 ||| m) :: rest) (val >>> 6) = (val, rest) := by
    rw [readExcField, if_pos (hbyte m hm).1, (hbyte m hm).2.1, shift_or_group]
  rw [pushExcVarint_eq, List.append_assoc]
  by_cases hlast : val >>> 6 = 0
  · have hone := hlow mask hmask
    rw [hlast] at hone
    rw [if_pos hlast, if_pos hlast]
    exact hone
  · have hsmall : (val >>> 6).toNat < 64 ^ 5 := by
      have hlt := val.toNat_lt
      rw [toNat_shiftRight_six]
      omega
    have hone := hlow 0 (.inl rfl)
    rw [UInt8.or_zero] at hone
    rw [if_neg hlast, if_neg hlast, readExcField_contBytes hmask _ hsmall]
    exact hone

theorem pushExcVarint_ne (val : UInt32) (mask : UInt8) : pushExcVarint val mask ≠ [] := by
  rw [pushExcVarint_eq]
  exact fun h => List.cons_ne_nil _ _ (List.append_eq_nil_iff.mp h).2

def entryOf (s : Segment Owner) : ExcEntry :=
  ⟨s.start.toUInt32, s.len.toUInt32, s.key.target, (s.key.depth <<< 1) ||| s.key.pushLasti.toUInt32⟩

/-- The entries are read back, one for each run. -/
theorem excEntries_pushExcEntry (segs : List (Segment Owner)) :
    excEntries (segs.flatMap pushExcEntry) = segs.map entryOf := by
  induction segs with
  | nil =>
    rw [excEntries]
    rfl
  | cons s segs ih =>
    rw [List.flatMap_cons, excEntries]
    unfold pushExcEntry
    have hne : ∀ l, pushExcVarint s.start.toUInt32 0x80 ++ l ≠ [] := fun l h =>
      pushExcVarint_ne _ _ (List.append_eq_nil_iff.mp h).1
    have hne' : ∀ l, pushExcVarint s.len.toUInt32 0 ++ l ≠ [] := fun l h =>
      pushExcVarint_ne _ _ (List.append_eq_nil_iff.mp h).1
    rw [List.append_assoc, List.append_assoc, List.append_assoc, dif_neg (hne _)]
    dsimp only
    rw [readExcField_pushExcVarint (.inr rfl), if_neg (hne' _), readExcField_pushExcVarint (.inl rfl),
      readExcField_pushExcVarint (.inl rfl), readExcField_pushExcVarint (.inl rfl)]
    exact congrArg _ ih

end Fields

end WeavePy.CpythonCode
