import WeavePy.CpythonCode.Encode
import WeavePy.Lib.RunLength

/-!
CPython's code units and location tables read back.
-/

namespace WeavePy.CpythonCode

open NativeCode

/-! ### Code units -/

/-- An instruction of the wire: the unit it starts at counts its widened arguments. -/
structure DecodedRaw where
  cpOp : UInt8
  arg : UInt32
  startUnit : ℕ
  size : ℕ
  deriving DecidableEq

def codeUnits : List UInt8 → List (UInt8 × UInt8)
  | cpOp :: arg :: rest => (cpOp, arg) :: codeUnits rest
  | _ => []

/-- A cache with no instruction of its own belongs to the one before it. -/
def growLast (raws : List DecodedRaw) : List DecodedRaw :=
  raws.modify (raws.length - 1) fun r => { r with size := r.size + 1 }

/-- `skip` units from here on are caches. -/
def decodeRawsFrom : List (UInt8 × UInt8) → ℕ → ℕ → UInt32 → Option ℕ → List DecodedRaw → List DecodedRaw
  | [], _, _, _, _, raws => raws
  | _ :: units, unit, skip + 1, pendingExt, extStart, raws =>
    decodeRawsFrom units (unit + 1) skip pendingExt extStart raws
  | (cpOp, argbyte) :: units, unit, 0, pendingExt, extStart, raws =>
    let arg := (pendingExt <<< 8) ||| argbyte.toUInt32
    let start := extStart.getD unit
    if cpOp = Op.EXTENDED_ARG then decodeRawsFrom units (unit + 1) 0 arg (some start) raws
    else if cpOp = Op.CACHE then decodeRawsFrom units (unit + 1) 0 pendingExt extStart (growLast raws)
    else
      decodeRawsFrom units (unit + 1) (cacheEntries cpOp) 0 none
        (raws ++ [⟨cpOp, arg, start, unit - start + 1 + cacheEntries cpOp⟩])

def decodeRaws (coCode : List UInt8) : List DecodedRaw := decodeRawsFrom (codeUnits coCode) 0 0 0 none []

/-! ### The location table -/

def readLocGroups : List UInt8 → UInt32 → UInt32 → UInt32 × List UInt8
  | [], val, _ => (val, [])
  | b :: table, val, shift =>
    let val := val ||| ((b &&& 0x3F).toUInt32 <<< shift)
    if b &&& 0x40 = 0 then (val, table) else readLocGroups table val (shift + 6)

def readLocVarint (table : List UInt8) : UInt32 × List UInt8 := readLocGroups table 0 0

def unzigzag (v : UInt32) : Int32 := if v &&& 1 ≠ 0 then -(v >>> 1).toInt32 else (v >>> 1).toInt32

def readLocSvarint (table : List UInt8) : Int32 × List UInt8 :=
  let (v, table) := readLocVarint table
  (unzigzag v, table)

/-- A line, and the columns on it. -/
abbrev Location := UInt32 × ColSpan

/-- The line delta, the span, and the table after them. -/
def readFields (code : UInt8) (table : List UInt8) (line : Int32) : Int32 × ColSpan × List UInt8 :=
  if code = 13 then
    let (d, table) := readLocSvarint table
    (d, ColSpan.default, table)
  else if code = 14 then
    let (d, table) := readLocSvarint table
    let (endLineDelta, table) := readLocVarint table
    let (col, table) := readLocVarint table
    let (endCol, table) := readLocVarint table
    (d, ⟨(max (line + d + endLineDelta.toInt32) 0).toUInt32, col.toInt32 - 1, endCol.toInt32 - 1⟩, table)
  else if 10 ≤ code ∧ code ≤ 12 then
    let d := code.toUInt32.toInt32 - 10
    let col := (table.headD 0 &&& 0x7F).toUInt32
    let endCol := (table.tail.headD 0 &&& 0x7F).toUInt32
    (d, ⟨(max (line + d) 0).toUInt32, col.toInt32, endCol.toInt32⟩, table.tail.tail)
  else
    let b := table.headD 0
    let col := (code.toUInt32 <<< 3) ||| (b >>> 4).toUInt32
    (0, ⟨(max line 0).toUInt32, col.toInt32, (col + (b &&& 0x0F).toUInt32).toInt32⟩, table.tail)

/-- One entry after its first byte, and the running line after it. -/
def readEntry (first : UInt8) (table : List UInt8) (line : Int32) : Location × Int32 × List UInt8 :=
  let code := (first >>> 3) &&& 0x0F
  if code = 15 then ((0, ColSpan.default), line, table)
  else
    let (delta, span, table) := readFields code table line
    (((max (line + delta) 0).toUInt32, span), line + delta, table)

theorem readLocGroups_length_le (table : List UInt8) (val shift : UInt32) :
    (readLocGroups table val shift).2.length ≤ table.length := by
  induction table generalizing val shift with
  | nil => rfl
  | cons b table ih =>
    rw [readLocGroups]
    split_ifs
    · simp
    · exact (ih _ _).trans (by simp)

theorem readLocVarint_length_le (table : List UInt8) : (readLocVarint table).2.length ≤ table.length :=
  readLocGroups_length_le table 0 0

theorem readFields_length_le (code : UInt8) (table : List UInt8) (line : Int32) :
    (readFields code table line).2.2.length ≤ table.length := by
  unfold readFields
  split_ifs
  · exact readLocVarint_length_le table
  · exact (readLocVarint_length_le _).trans <| (readLocVarint_length_le _).trans <|
      (readLocVarint_length_le _).trans (readLocVarint_length_le table)
  · simp only [List.length_tail]
    omega
  · simp only [List.length_tail]
    omega

theorem readEntry_length_le (first : UInt8) (table : List UInt8) (line : Int32) :
    (readEntry first table line).2.2.length ≤ table.length := by
  unfold readEntry
  dsimp only
  split_ifs
  · rfl
  · exact readFields_length_le _ table line

/-- The table's entries, each with the units it covers. -/
def entries (table : List UInt8) (line : Int32) : List (Location × ℕ) :=
  match table with
  | [] => []
  | first :: table =>
    if first &&& 0x80 = 0 then []
    else
      ((readEntry first table line).1, (first &&& 0x07).toNat + 1) ::
        entries (readEntry first table line).2.2 (readEntry first table line).2.1
termination_by table.length
decreasing_by exact Nat.lt_succ_of_le (readEntry_length_le first table line)

/-- Both halves of a fused pair share the location; units past the table have the first line. -/
def decodeLinetable (table : List UInt8) (raws : List DecodedRaw) (firstlineno : UInt32) : List Location :=
  (RunLength.assign DecodedRaw.startUnit (entries table firstlineno.toInt32) 0 raws).flatMap fun (r, loc) =>
    List.replicate (rawExpansion r.cpOp r.arg) (loc.getD (firstlineno, ColSpan.default))

end WeavePy.CpythonCode

/-!
Each entry of a location table is read back as it was written.
-/

namespace WeavePy.CpythonCode

open NativeCode

section Varint

variable {val acc shift : UInt32} {n : ℕ}

theorem group_byte (b : UInt8) (hb : b.toNat < 64) :
    b &&& 0x40 = 0 ∧ b &&& 0x3F = b ∧ (b ||| 0x40) &&& 0x40 ≠ 0 ∧ (b ||| 0x40) &&& 0x3F = b := by
  have hall : ∀ k < 64, k.toUInt8 &&& 0x40 = 0 ∧ k.toUInt8 &&& 0x3F = k.toUInt8 ∧
      (k.toUInt8 ||| 0x40) &&& 0x40 ≠ 0 ∧ (k.toUInt8 ||| 0x40) &&& 0x3F = k.toUInt8 := by decide
  have h := hall b.toNat hb
  rwa [Nat.toUInt8_eq, UInt8.ofNat_toNat] at h

theorem toNat_group (val : UInt32) : (val &&& 0x3F).toUInt8.toNat = val.toNat % 64 := by
  have hand : (val &&& 0x3F).toNat = val.toNat % 64 := Nat.and_two_pow_sub_one_eq_mod val.toNat 6
  rw [UInt32.toNat_toUInt8, hand]
  omega

theorem toNat_shiftRight_six (val : UInt32) : (val >>> 6).toNat = val.toNat / 64 := by
  rw [UInt32.toNat_shiftRight]
  exact Nat.shiftRight_eq_div_pow val.toNat 6

/-- A group is put above the ones before it. -/
theorem toNat_or_group (hacc : acc.toNat < 2 ^ shift.toNat) (hshift : shift.toNat < 32)
    (hfit : val.toNat * 2 ^ shift.toNat < 2 ^ 32) :
    (acc ||| ((val &&& 0x3F).toUInt8.toUInt32 <<< shift)).toNat = acc.toNat + val.toNat % 64 * 2 ^ shift.toNat := by
  have hlow : val.toNat % 64 * 2 ^ shift.toNat < 2 ^ 32 :=
    lt_of_le_of_lt (Nat.mul_le_mul_right _ (Nat.mod_le _ _)) hfit
  rw [UInt32.toNat_or, UInt32.toNat_shiftLeft, UInt8.toNat_toUInt32, toNat_group, Nat.mod_eq_of_lt hshift,
    Nat.mod_eq_of_lt (by rwa [Nat.shiftLeft_eq]), Nat.or_comm, ← Nat.shiftLeft_add_eq_or_of_lt hacc,
    Nat.shiftLeft_eq, Nat.add_comm]

theorem or_last_group (hacc : acc.toNat < 2 ^ shift.toNat) (hshift : shift.toNat < 32)
    (hfit : val.toNat * 2 ^ shift.toNat < 2 ^ 32) (hval : val.toNat < 64) :
    acc ||| ((val &&& 0x3F).toUInt8.toUInt32 <<< shift) = UInt32.ofNat (acc.toNat + val.toNat * 2 ^ shift.toNat) := by
  have hor := toNat_or_group hacc hshift hfit
  rw [Nat.mod_eq_of_lt hval] at hor
  rw [← hor, UInt32.ofNat_toNat]

theorem group_marks (val : UInt32) :
    (val &&& 0x3F).toUInt8 &&& 0x40 = 0 ∧ (val &&& 0x3F).toUInt8 &&& 0x3F = (val &&& 0x3F).toUInt8 ∧
      ((val &&& 0x3F).toUInt8 ||| 0x40) &&& 0x40 ≠ 0 ∧
      ((val &&& 0x3F).toUInt8 ||| 0x40) &&& 0x3F = (val &&& 0x3F).toUInt8 := by
  apply group_byte
  rw [toNat_group]
  exact Nat.mod_lt _ (by decide)

theorem readLocGroups_locGroups (rest : List UInt8) (hval : val.toNat < 2 ^ (6 * (n + 1)))
    (hacc : acc.toNat < 2 ^ shift.toNat) (hshift : shift.toNat + 6 * n < 32)
    (hfit : val.toNat * 2 ^ shift.toNat < 2 ^ 32) :
    readLocGroups (locGroups n val ++ rest) acc shift =
      (UInt32.ofNat (acc.toNat + val.toNat * 2 ^ shift.toNat), rest) := by
  induction n generalizing val acc shift with
  | zero =>
    obtain ⟨hlast, hplain, -, -⟩ := group_marks val
    rw [locGroups, List.singleton_append, readLocGroups, if_pos hlast, hplain,
      or_last_group hacc (by omega) hfit (by simpa using hval)]
  | succ n ih =>
    obtain ⟨hlast, hplain, hmore, hmarked⟩ := group_marks val
    rw [locGroups]
    split_ifs with hbig
    · have hshift' : (shift + 6).toNat = shift.toNat + 6 := by
        rw [UInt32.toNat_add]
        exact Nat.mod_eq_of_lt (by simp; omega)
      have hsplit : val.toNat * 2 ^ shift.toNat =
          val.toNat % 64 * 2 ^ shift.toNat + (val >>> 6).toNat * 2 ^ (shift + 6).toNat := by
        rw [hshift', Nat.pow_add, Nat.mul_comm (2 ^ shift.toNat), ← Nat.mul_assoc, ← Nat.add_mul,
          toNat_shiftRight_six]
        congr 1
        omega
      have hor := toNat_or_group hacc (by omega) hfit
      have hacc' : (acc ||| ((val &&& 0x3F).toUInt8.toUInt32 <<< shift)).toNat < 2 ^ (shift + 6).toNat := by
        have hle : (val.toNat % 64 + 1) * 2 ^ shift.toNat ≤ 64 * 2 ^ shift.toNat := Nat.mul_le_mul_right _ (by omega)
        rw [hor, hshift', Nat.pow_add, Nat.mul_comm (2 ^ shift.toNat)]
        rw [Nat.add_mul] at hle
        omega
      have hval' : (val >>> 6).toNat < 2 ^ (6 * (n + 1)) := by
        rw [toNat_shiftRight_six, Nat.div_lt_iff_lt_mul (by decide)]
        calc val.toNat < 2 ^ (6 * (n + 1 + 1)) := hval
          _ = 2 ^ (6 * (n + 1)) * 64 := by rw [Nat.mul_succ 6 (n + 1), Nat.pow_add]
      rw [List.cons_append, readLocGroups, if_neg hmore, hmarked, ih hval' hacc' (by omega) (by omega), hor]
      congr 2
      omega
    · have hsmall : val.toNat < 64 := by
        have := congrArg UInt32.toNat (not_not.mp hbig)
        rw [toNat_shiftRight_six] at this
        simp at this
        omega
      rw [List.singleton_append, readLocGroups, if_pos hlast, hplain, or_last_group hacc (by omega) hfit hsmall]

theorem pushLocVarint_eq (out : List UInt8) (val : UInt32) : pushLocVarint out val 0 = out ++ locGroups 5 val := by
  rw [pushLocVarint]
  cases locGroups 5 val <;> simp

theorem readLocVarint_locGroups (val : UInt32) (rest : List UInt8) :
    readLocVarint (locGroups 5 val ++ rest) = (val, rest) := by
  have hlt := val.toNat_lt
  rw [readLocVarint, readLocGroups_locGroups rest (by omega) (by decide) (by decide) (by simp; omega)]
  simp

end Varint

section Signed

variable {a b x : Int32}

theorem max_zero (h : 0 ≤ x) : max x 0 = x := by
  have hmax : max x 0 = if x ≤ 0 then 0 else x := rfl
  rw [hmax]
  split_ifs with hx
  · exact Int32.le_antisymm h hx
  · rfl

theorem toNat_toUInt32_lt (h : 0 ≤ x) : x.toUInt32.toNat < 2 ^ 31 := by
  rw [Int32.toNat_toUInt32_of_le h]
  exact x.toNatClampNeg_lt

theorem toNat_double {v : UInt32} (h : v.toNat < 2 ^ 31) : (v <<< 1).toNat = 2 * v.toNat := by
  rw [UInt32.toNat_shiftLeft]
  change v.toNat <<< 1 % 2 ^ 32 = _
  rw [Nat.shiftLeft_eq]
  omega

theorem unzigzag_even {v : UInt32} (h : v.toNat < 2 ^ 31) : unzigzag (v <<< 1) = v.toInt32 := by
  have hhalf : (v <<< 1) >>> 1 = v := by
    apply UInt32.toNat_inj.mp
    rw [UInt32.toNat_shiftRight, toNat_double h]
    change (2 * v.toNat) >>> 1 = v.toNat
    rw [Nat.shiftRight_eq_div_pow]
    omega
  rw [unzigzag, if_neg (not_not.mpr (even_arg v)), hhalf]

theorem unzigzag_odd {v : UInt32} (h : v.toNat < 2 ^ 31) : unzigzag ((v <<< 1) ||| 1) = -v.toInt32 := by
  have hhalf : ((v <<< 1) ||| 1) >>> 1 = v := by
    apply UInt32.toNat_inj.mp
    rw [UInt32.toNat_shiftRight, UInt32.toNat_or, toNat_double h]
    change (2 * v.toNat ||| 1) >>> 1 = v.toNat
    rw [← Nat.two_pow_add_eq_or_of_lt (i := 1) (by decide), Nat.shiftRight_eq_div_pow]
    omega
  rw [unzigzag, if_pos (odd_arg v), hhalf]

/-- Of two lines, neither is the other's distance from the least integer. -/
theorem unzigzag_zigzag (ha : 0 ≤ a) (hb : 0 ≤ b) : unzigzag (zigzag (a - b)) = a - b := by
  rw [zigzag]
  split_ifs with hneg
  · have hpos : 0 ≤ -(a - b) := by
      rw [Int32.lt_iff_toInt_lt, Int32.toInt_sub] at hneg
      rw [Int32.le_iff_toInt_le] at ha hb ⊢
      rw [Int32.toInt_neg, Int32.toInt_sub]
      have := a.toInt_lt
      have := b.toInt_lt
      simp only [Int32.toInt_zero, Int.bmod_def] at *
      omega
    rw [unzigzag_odd (toNat_toUInt32_lt hpos), Int32.toInt32_toUInt32, Int32.neg_neg]
  · rw [unzigzag_even (toNat_toUInt32_lt (Int32.not_lt.mp hneg)), Int32.toInt32_toUInt32]

theorem readLocSvarint_locGroups (ha : 0 ≤ a) (hb : 0 ≤ b) (rest : List UInt8) :
    readLocSvarint (locGroups 5 (zigzag (a - b)) ++ rest) = (a - b, rest) := by
  rw [readLocSvarint, readLocVarint_locGroups]
  exact congrArg (·, rest) (unzigzag_zigzag ha hb)

end Signed

/-- What the entries for a position are read back as. -/
def Position.readBack (pos : Position) : Location :=
  let column := pos.col.elim (-1) UInt32.toInt32
  let endColumn := pos.endCol.elim (-1) UInt32.toInt32
  if pos.lineno < 0 then (0, ColSpan.default)
  else if (column < 0 ∨ endColumn < 0) ∧ pos.endLineno = pos.lineno then (pos.lineno.toUInt32, ColSpan.default)
  else (pos.lineno.toUInt32, ⟨pos.endLineno.toUInt32, column, endColumn⟩)

/-- A position with a line ends on that line or after it. -/
def Position.Ordered (pos : Position) : Prop := 0 ≤ pos.lineno → pos.lineno ≤ pos.endLineno

/-- The encoder wrote an entry of `n` units for the position. -/
structure Emits (enc enc' : LocationEncoder) (loc : Location) (n : ℕ) : Prop where
  out : ∃ bytes, enc'.out = enc.out ++ bytes ∧
    ∀ rest, entries (bytes ++ rest) enc.lineno = (loc, n) :: entries rest enc'.lineno
  lineno : 0 ≤ enc'.lineno

section Forms

open LocationEncoder

variable {enc : LocationEncoder} {loc : Position} {n : ℕ} {code : UInt8} {column endColumn : Int32}

theorem entryByte_fields (hcode : code.toNat < 16) (hn : 1 ≤ n) (hn' : n ≤ 8) :
    entryByte code n &&& 0x80 ≠ 0 ∧ (entryByte code n >>> 3) &&& 0x0F = code ∧
      (entryByte code n &&& 0x07).toNat + 1 = n := by
  have hall : ∀ c < 16, ∀ k < 8, entryByte (UInt8.ofNat c) (k + 1) &&& 0x80 ≠ 0 ∧
      (entryByte (UInt8.ofNat c) (k + 1) >>> 3) &&& 0x0F = UInt8.ofNat c ∧
      (entryByte (UInt8.ofNat c) (k + 1) &&& 0x07).toNat = k := by decide
  obtain ⟨hmark, hfield, hlen⟩ := hall code.toNat hcode (n - 1) (by omega)
  rw [Nat.sub_add_cancel hn, UInt8.ofNat_toNat] at hmark hfield hlen
  exact ⟨hmark, hfield, by omega⟩

/-- An entry of a form with fields moves the running line by its delta. -/
theorem Emits.fields {delta : Int32} {span : ColSpan} {bytes : List UInt8} {line : Int32} (hcode : code.toNat < 15)
    (hn : 1 ≤ n) (hn' : n ≤ 8)
    (hread : ∀ rest, readFields code (bytes ++ rest) enc.lineno = (delta, span, rest))
    (hline : enc.lineno + delta = line) (hpos : 0 ≤ line) :
    Emits enc ⟨(enc.firstByte code n).out ++ bytes, line⟩ (line.toUInt32, span) n := by
  obtain ⟨hmark, hfield, hlen⟩ := entryByte_fields (by omega : code.toNat < 16) hn hn'
  have hnone : code ≠ 15 := by
    rintro rfl
    exact absurd hcode (by decide)
  refine ⟨⟨[entryByte code n] ++ bytes, ?_, fun rest => ?_⟩, hpos⟩
  · rw [firstByte, List.append_assoc]
  · rw [List.append_assoc, List.singleton_append, entries, if_neg hmark, hlen, readEntry, hfield, if_neg hnone, hread]
    dsimp only
    rw [hline, max_zero hpos]

theorem emits_none (hn : 1 ≤ n) (hn' : n ≤ 8) (hline : 0 ≤ enc.lineno) :
    Emits enc (enc.firstByte CODE_NONE n) (0, ColSpan.default) n := by
  obtain ⟨hmark, hfield, hlen⟩ := entryByte_fields (by decide : CODE_NONE.toNat < 16) hn hn'
  refine ⟨⟨_, rfl, fun rest => ?_⟩, hline⟩
  rw [List.singleton_append, entries, if_neg hmark, hlen, readEntry, hfield]
  rfl

theorem line_add_delta (a b : Int32) : a + (b - a) = b := by
  rw [Int32.add_comm, Int32.sub_add_cancel]

theorem emits_noColumns (hn : 1 ≤ n) (hn' : n ≤ 8) (henc : 0 ≤ enc.lineno) (hloc : 0 ≤ loc.lineno) :
    Emits enc ⟨pushLocSvarint (enc.firstByte CODE_NO_COLUMNS n).out (loc.lineno - enc.lineno) 0, loc.lineno⟩
      (loc.lineno.toUInt32, ColSpan.default) n := by
  rw [pushLocSvarint, pushLocVarint_eq]
  refine Emits.fields (by decide) hn hn' (fun rest => ?_) (line_add_delta _ _) hloc
  rw [readFields, if_pos (show CODE_NO_COLUMNS = 13 from rfl), readLocSvarint_locGroups hloc henc]

theorem emits_long (hn : 1 ≤ n) (hn' : n ≤ 8) (henc : 0 ≤ enc.lineno) (hloc : 0 ≤ loc.lineno)
    (horder : loc.lineno ≤ loc.endLineno) :
    Emits enc (enc.emitLong loc n column endColumn)
      (loc.lineno.toUInt32, ⟨loc.endLineno.toUInt32, column, endColumn⟩) n := by
  have hspan : max (loc.endLineno - loc.lineno) 0 = loc.endLineno - loc.lineno := by
    apply max_zero
    rw [Int32.le_iff_toInt_le, Int32.toInt_sub_of_le _ _ hloc horder]
    rw [Int32.le_iff_toInt_le] at horder
    simpa using horder
  rw [emitLong, pushLocSvarint]
  simp only [pushLocVarint_eq, List.append_assoc]
  refine Emits.fields (by decide) hn hn' (fun rest => ?_) (line_add_delta _ _) hloc
  simp only [List.append_assoc]
  rw [readFields, if_neg (by decide), if_pos (show CODE_LONG = 14 from rfl), readLocSvarint_locGroups hloc henc]
  simp only [readLocVarint_locGroups, hspan, Int32.toInt32_toUInt32, Int32.add_sub_cancel]
  rw [line_add_delta, line_add_delta, max_zero (Int32.le_trans hloc horder)]

theorem eq_ofNat {x : Int32} {k : ℕ} (h : 0 ≤ x) (hk : x < Int32.ofNat k) (hk' : k < 2 ^ 31) :
    ∃ i < k, x = Int32.ofNat i := by
  refine ⟨x.toNatClampNeg, ?_, (Int32.ofNat_toNatClampNeg x h).symm⟩
  rw [← Int32.ofNat_toNatClampNeg x h] at hk
  exact (Int32.ofNat_lt_iff_lt x.toNatClampNeg_lt hk').mp hk

/-- The column's high bits in the code, its low ones in the byte. -/
theorem short_column (k : ℕ) (hk : k < 80) :
    (CODE_SHORT0 + (Int32.ofNat k >>> 3).toUInt32.toUInt8).toNat < 10 ∧
      (Int32.ofNat k &&& 7).toUInt32.toUInt8.toNat < 8 ∧
      ((CODE_SHORT0 + (Int32.ofNat k >>> 3).toUInt32.toUInt8).toUInt32 <<< 3 |||
        (Int32.ofNat k &&& 7).toUInt32.toUInt8.toUInt32).toInt32 = Int32.ofNat k := by
  revert k
  decide

theorem short_byte (l : ℕ) (hl : l < 8) (d : ℕ) (hd : d < 16) :
    (UInt8.ofNat l <<< 4 ||| (Int32.ofNat d).toUInt32.toUInt8) >>> 4 = UInt8.ofNat l ∧
      ((UInt8.ofNat l <<< 4 ||| (Int32.ofNat d).toUInt32.toUInt8) &&& 0x0F).toUInt32.toInt32 = Int32.ofNat d := by
  revert l hl d hd
  decide

theorem readFields_short (hcode : code.toNat < 10) (b : UInt8) (rest : List UInt8) (line : Int32) :
    readFields code (b :: rest) line =
      (0, ⟨(max line 0).toUInt32, (code.toUInt32 <<< 3 ||| (b >>> 4).toUInt32).toInt32,
        (code.toUInt32 <<< 3 ||| (b >>> 4).toUInt32).toInt32 + (b &&& 0x0F).toUInt32.toInt32⟩, rest) := by
  have hlow : ¬ 10 ≤ code := by
    rw [UInt8.le_iff_toNat_le]
    exact Nat.not_le.mpr hcode
  rw [readFields, if_neg, if_neg, if_neg fun h => hlow h.1]
  · rfl
  · rintro rfl
    exact hlow (by decide)
  · rintro rfl
    exact hlow (by decide)

theorem emits_short (hn : 1 ≤ n) (hn' : n ≤ 8) (henc : 0 ≤ enc.lineno) (hcol : 0 ≤ column) (hlt : column < 80)
    (hspan : endColumn - column < 16) (hle : column ≤ endColumn) :
    Emits enc { enc.firstByte (CODE_SHORT0 + (column >>> 3).toUInt32.toUInt8) n with
        out := (enc.firstByte (CODE_SHORT0 + (column >>> 3).toUInt32.toUInt8) n).out ++
          [((column &&& 7).toUInt32.toUInt8 <<< 4) ||| (endColumn - column).toUInt32.toUInt8] }
      (enc.lineno.toUInt32, ⟨enc.lineno.toUInt32, column, endColumn⟩) n := by
  have hdiff : 0 ≤ endColumn - column := by
    rw [Int32.le_iff_toInt_le, Int32.toInt_sub_of_le _ _ hcol hle]
    rw [Int32.le_iff_toInt_le] at hle
    simpa using hle
  have hend : endColumn = column + (endColumn - column) := (line_add_delta _ _).symm
  obtain ⟨d, hd, hdeq⟩ := eq_ofNat (k := 16) hdiff hspan (by decide)
  obtain ⟨k, hk, rfl⟩ := eq_ofNat (k := 80) hcol hlt (by decide)
  obtain ⟨hgroup, hlow, hcolumn⟩ := short_column k hk
  obtain ⟨hhigh, hdelta⟩ := short_byte _ hlow d hd
  rw [UInt8.ofNat_toNat] at hhigh hdelta
  refine Emits.fields (by omega) hn hn' (fun rest => ?_) (Int32.add_zero _) henc
  rw [List.singleton_append, readFields_short hgroup, hdeq, hhigh, hdelta, hcolumn, max_zero henc, ← hdeq, ← hend]

theorem oneLine_column (k : ℕ) (hk : k < 128) :
    ((Int32.ofNat k).toUInt32.toUInt8 &&& 0x7F).toUInt32.toInt32 = Int32.ofNat k := by
  revert k
  decide

theorem oneLine_code (d : ℕ) (hd : d < 3) :
    (CODE_ONE_LINE0 + (Int32.ofNat d).toUInt32.toUInt8).toNat < 13 ∧
      10 ≤ CODE_ONE_LINE0 + (Int32.ofNat d).toUInt32.toUInt8 ∧
      (CODE_ONE_LINE0 + (Int32.ofNat d).toUInt32.toUInt8).toUInt32.toInt32 - 10 = Int32.ofNat d := by
  revert d
  decide

theorem readFields_oneLine (hlo : 10 ≤ code) (hhi : code.toNat < 13) (b c : UInt8) (rest : List UInt8) (line : Int32) :
    readFields code (b :: c :: rest) line =
      (code.toUInt32.toInt32 - 10, ⟨(max (line + (code.toUInt32.toInt32 - 10)) 0).toUInt32,
        (b &&& 0x7F).toUInt32.toInt32, (c &&& 0x7F).toUInt32.toInt32⟩, rest) := by
  have hle : code ≤ 12 := by
    rw [UInt8.le_iff_toNat_le]
    exact Nat.le_of_lt_succ hhi
  rw [readFields, if_neg, if_neg, if_pos ⟨hlo, hle⟩]
  · rfl
  · rintro rfl
    exact absurd hhi (by decide)
  · rintro rfl
    exact absurd hhi (by decide)

theorem emits_oneLine {delta : Int32} (hn : 1 ≤ n) (hn' : n ≤ 8) (hloc : 0 ≤ loc.lineno)
    (hline : enc.lineno + delta = loc.lineno) (hd : 0 ≤ delta) (hd' : delta < 3) (hcol : 0 ≤ column)
    (hlt : column < 128) (hend : 0 ≤ endColumn) (hlt' : endColumn < 128) :
    Emits enc ⟨(enc.firstByte (CODE_ONE_LINE0 + delta.toUInt32.toUInt8) n).out ++
        [column.toUInt32.toUInt8, endColumn.toUInt32.toUInt8], loc.lineno⟩
      (loc.lineno.toUInt32, ⟨loc.lineno.toUInt32, column, endColumn⟩) n := by
  obtain ⟨d, hdlt, rfl⟩ := eq_ofNat (k := 3) hd hd' (by decide)
  obtain ⟨k, hk, rfl⟩ := eq_ofNat (k := 128) hcol hlt (by decide)
  obtain ⟨m, hm, rfl⟩ := eq_ofNat (k := 128) hend hlt' (by decide)
  obtain ⟨hhi, hlo, hdelta⟩ := oneLine_code d hdlt
  refine Emits.fields (by omega) hn hn' (fun rest => ?_) hline hloc
  rw [List.cons_append, List.singleton_append, readFields_oneLine hlo hhi, hdelta, hline, oneLine_column k hk,
    oneLine_column m hm, max_zero hloc]

theorem emits_emitEntry (hn : 1 ≤ n) (hn' : n ≤ 8) (henc : 0 ≤ enc.lineno) (hloc : loc.Ordered) :
    Emits enc (enc.emitEntry loc n) loc.readBack n := by
  unfold emitEntry Position.readBack
  generalize hcolumn : loc.col.elim (-1) UInt32.toInt32 = column
  generalize hendColumn : loc.endCol.elim (-1) UInt32.toInt32 = endColumn
  dsimp only
  by_cases hneg : loc.lineno < 0
  · rw [if_pos hneg, if_pos hneg]
    exact emits_none hn hn' henc
  have hpos : 0 ≤ loc.lineno := Int32.not_lt.mp hneg
  have horder := hloc hpos
  rw [if_neg hneg, if_neg hneg]
  by_cases hunknown : column < 0 ∨ endColumn < 0
  · rw [if_pos hunknown]
    have hend : loc.endLineno ≠ -1 := by
      intro h
      rw [h] at horder
      exact absurd (Int32.le_trans hpos horder) (by decide)
    by_cases hsame : loc.endLineno = loc.lineno
    · rw [if_pos (.inl hsame), if_pos ⟨hunknown, hsame⟩]
      exact emits_noColumns hn hn' henc hpos
    · rw [if_neg (by simp [hsame, hend]), if_neg fun h => hsame h.2]
      exact emits_long hn hn' henc hpos horder
  · obtain ⟨hcol, hcol'⟩ := not_or.mp hunknown
    rw [Int32.not_lt] at hcol hcol'
    have hknown : ¬ ((column < 0 ∨ endColumn < 0) ∧ loc.endLineno = loc.lineno) := fun h => hunknown h.1
    rw [if_neg hunknown, if_neg hknown]
    by_cases hsame : loc.endLineno = loc.lineno
    · rw [if_pos hsame, hsame]
      split_ifs with hshort hline
      · have hline : enc.lineno = loc.lineno := by
          rw [← line_add_delta enc.lineno loc.lineno, hshort.1, Int32.add_zero]
        rw [← hline]
        exact emits_short hn hn' henc hcol hshort.2.1 hshort.2.2.1 hshort.2.2.2
      · exact emits_oneLine hn hn' hpos (line_add_delta _ _) hline.1.1 hline.1.2 hcol hline.2.1 hcol' hline.2.2
      · have hlong : Emits enc (enc.emitLong loc n column endColumn)
            (loc.lineno.toUInt32, ⟨loc.endLineno.toUInt32, column, endColumn⟩) n := emits_long hn hn' henc hpos horder
        rwa [hsame] at hlong
    · rw [if_neg hsame]
      exact emits_long hn hn' henc hpos horder

end Forms

end WeavePy.CpythonCode
