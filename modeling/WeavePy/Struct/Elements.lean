import WeavePy.Struct.Format

/-!
One element: what `encode_one` writes of a value and what `decode_one` reads.
-/

namespace WeavePy.Struct

inductive Object (Ω : Type) where
  | int (n : ℤ)
  | long (n : ℤ)
  | bool (b : Bool)
  | str (s : String)
  | bytes (bs : List UInt8)
  | byteArray (bs : List UInt8)
  /-- Floats, complex numbers and the rest. -/
  | other (o : Ω)
  deriving DecidableEq, Repr

/-- What the packer asks of the other values, and the floating point codes. -/
structure Env (Ω : Type) where
  isTruthy : Ω → Bool
  typeName : Ω → String
  tryCoerceIndex : Ω → Option (Except Exception ℤ)
  writeFloat : Char → Endian → Object Ω → Except Exception (List UInt8)
  readFloat : Char → Endian → List UInt8 → Object Ω

variable {Ω : Type}

def Object.typeName (env : Env Ω) : Object Ω → String
  | .int _ | .long _ => "int"
  | .bool _ => "bool"
  | .str _ => "str"
  | .bytes _ => "bytes"
  | .byteArray _ => "bytearray"
  | .other o => env.typeName o

def Object.isTruthy (env : Env Ω) : Object Ω → Bool
  | .int n | .long n => n != 0
  | .bool b => b
  | .str s => s != ""
  | .bytes bs | .byteArray bs => !bs.isEmpty
  | .other o => env.isTruthy o

/-- `int_from_bigint`. -/
def Object.intFromBigint (n : ℤ) : Object Ω := if -2 ^ 63 ≤ n ∧ n < 2 ^ 63 then .int n else .long n

/-- The bytes of an argument for `s` or `p`. -/
def Object.data? : Object Ω → Option (List UInt8)
  | .bytes bs | .byteArray bs => some bs
  | .str s => some s.toUTF8.data.toList
  | _ => none

def requireInt (env : Env Ω) (v : Object Ω) : Except Error ℤ :=
  match v with
  | .int n => .ok n
  | .long n => if -2 ^ 127 ≤ n ∧ n < 2 ^ 127 then .ok n else .error (structError "int too large to pack")
  | .bool b => .ok (if b then 1 else 0)
  | .other o =>
    match env.tryCoerceIndex o with
    | some (.ok n) => .ok n
    | some (.error e) => .error (.raised e)
    | none => .error (structError s!"required argument is not an integer (got '{v.typeName env}')")
  | _ => .error (structError s!"required argument is not an integer (got '{v.typeName env}')")

def Endian.order (target : Target) : Endian → ByteOrder
  | .native => target.order
  | .standard => .little
  | .little => .little
  | .big => .big

/-- The least and the largest value of an integer type of `w` bytes. -/
def intMin (signed : Bool) (w : ℕ) : ℤ := if signed then -2 ^ (8 * w - 1) else 0

def intMax (signed : Bool) (w : ℕ) : ℤ := if signed then 2 ^ (8 * w - 1) - 1 else 2 ^ (8 * w) - 1

/-- The macro `write_int!`. -/
def writeInt (env : Env Ω) (target : Target) (code : Char) (endian : Endian) (w : ℕ) (signed : Bool) (value : Object Ω) :
    Except Error (List UInt8) := do
  let n ← requireInt env value
  if signed = false ∧ n < 0 then .error (structError s!"argument out of range for '{code}'")
  else if n < intMin signed w ∨ intMax signed w < n then .error (structError s!"argument out of range for '{code}'")
  else .ok (ByteOrder.put (endian.order target) w n)

def encodeOne (env : Env Ω) (target : Target) (code : Char) (endian : Endian) (value : Object Ω) : Except Error (List UInt8) :=
  match code with
  | 'b' => do
    let n ← requireInt env value
    if ¬(-128 ≤ n ∧ n ≤ 127) then .error (structError "argument out of range for 'b'") else .ok [(n % 256).toNat.toUInt8]
  | 'B' => do
    let n ← requireInt env value
    if ¬(0 ≤ n ∧ n ≤ 255) then .error (structError "argument out of range for 'B'") else .ok [(n % 256).toNat.toUInt8]
  | 'c' =>
    match value with
    | .bytes [b] => .ok [b]
    | _ => .error (structError "char format requires a bytes object of length 1")
  | '?' => .ok [if value.isTruthy env then 1 else 0]
  | 'h' => writeInt env target code endian 2 true value
  | 'H' => writeInt env target code endian 2 false value
  | 'i' => writeInt env target code endian 4 true value
  | 'I' => writeInt env target code endian 4 false value
  | 'l' => if endian = .native then writeInt env target code endian 8 true value else writeInt env target code endian 4 true value
  | 'L' => if endian = .native then writeInt env target code endian 8 false value else writeInt env target code endian 4 false value
  | 'q' => writeInt env target code endian 8 true value
  | 'Q' => writeInt env target code endian 8 false value
  | 'f' | 'd' | 'F' | 'D' | 'e' => (env.writeFloat code endian value).mapError Error.raised
  | 'n' => do
    let n ← requireInt env value
    if -2 ^ 63 ≤ n ∧ n < 2 ^ 63 then .ok (ByteOrder.put target.order 8 n)
    else .error (structError "argument out of range for 'n'")
  | 'N' | 'P' => do
    let n ← requireInt env value
    if 0 ≤ n ∧ n < 2 ^ 64 then .ok (ByteOrder.put target.order 8 n) else .error (structError "argument out of range")
  | _ => .error (structError s!"bad char in struct format: '{code}'")

/-- `&buf[start..stop]`. -/
def slice (buf : List UInt8) (start stop : ℕ) : Except Error (List UInt8) :=
  if start ≤ stop ∧ stop ≤ buf.length then .ok ((buf.take stop).drop start) else .error .panic

def readInt (target : Target) (endian : Endian) (w : ℕ) (signed : Bool) (buf : List UInt8) : Except Error (Object Ω) := do
  let bs ← slice buf 0 w
  .ok (.intFromBigint (ByteOrder.get (endian.order target) signed bs))

/-- The value that the first `n` bytes stand for. -/
def decodeVal (env : Env Ω) (target : Target) (code : Char) (endian : Endian) (n : ℕ) (buf : List UInt8) :
    Except Error (Object Ω) :=
  match code with
  | 'b' => readInt target endian 1 true buf
  | 'B' => readInt target endian 1 false buf
  | 'c' => (slice buf 0 1).map .bytes
  | '?' => (slice buf 0 1).map (fun bs => .bool (bs != [0]))
  | 'h' => readInt target endian 2 true buf
  | 'H' => readInt target endian 2 false buf
  | 'i' => readInt target endian 4 true buf
  | 'I' => readInt target endian 4 false buf
  | 'l' => if endian = .native then readInt target endian 8 true buf else readInt target endian 4 true buf
  | 'L' => if endian = .native then readInt target endian 8 false buf else readInt target endian 4 false buf
  | 'q' => readInt target endian 8 true buf
  | 'Q' => readInt target endian 8 false buf
  | 'f' | 'd' | 'F' | 'D' | 'e' => (slice buf 0 n).map (env.readFloat code endian)
  | 'n' => readInt target .native 8 true buf
  | 'N' | 'P' => readInt target .native 8 false buf
  | _ => .error (structError s!"bad char in struct format: '{code}'")

def decodeOne (env : Env Ω) (target : Target) (code : Char) (endian : Endian) (buf : List UInt8) :
    Except Error (Object Ω × ℕ) := do
  let n ← elementSize target code endian
  if buf.length < n then .error (structError "buffer too short")
  else (decodeVal env target code endian n buf).map (·, n)

section Codes

/-- The width of an integer code and whether it has a sign. -/
def intShape (endian : Endian) (code : Char) : Option (ℕ × Bool) :=
  match code with
  | 'b' => some (1, true)
  | 'B' => some (1, false)
  | 'h' => some (2, true)
  | 'H' => some (2, false)
  | 'i' => some (4, true)
  | 'I' => some (4, false)
  | 'l' => some (if endian = .native then 8 else 4, true)
  | 'L' => some (if endian = .native then 8 else 4, false)
  | 'q' => some (8, true)
  | 'Q' => some (8, false)
  | 'n' => if endian = .native then some (8, true) else none
  | 'N' | 'P' => if endian = .native then some (8, false) else none
  | _ => none

def IsFloat (code : Char) : Prop := code ∈ ['e', 'f', 'd', 'F', 'D']

/-- What an element reads back as, where the code takes the value. -/
def storedOne (env : Env Ω) (endian : Endian) (code : Char) (v : Object Ω) : Option (Object Ω) :=
  if code = '?' then some (.bool (v.isTruthy env))
  else if code = 'c' then
    match v with
    | .bytes [b] => some (.bytes [b])
    | _ => none
  else
    match intShape endian code, requireInt env v with
    | some (w, signed), .ok n => if ByteOrder.InRange signed w n then some (.intFromBigint n) else none
    | _, _ => none

/-- The two widths of a C `long`, the platform's and the one that is written, agree. -/
def LongFits (target : Target) (endian : Endian) (code : Char) : Prop :=
  endian = .native → code = 'l' ∨ code = 'L' → target.wideLong = true

/-- A code that is packed by `encode_one`, floating point apart, of `u` bytes. -/
structure IsElement (target : Target) (endian : Endian) (code : Char) (u : ℕ) : Prop where
  size : elementSize target code endian = .ok u
  pad : code ≠ 'x'
  string : code ≠ 's'
  pascal : code ≠ 'p'
  exact : ¬IsFloat code
  long : LongFits target endian code

variable {env : Env Ω} {target : Target} {endian : Endian} {code : Char} {u w : ℕ} {signed : Bool} {v : Object Ω}
  {buf out : List UInt8}

theorem inRange_iff (hw : 0 < w) (n : ℤ) :
    ByteOrder.InRange signed w n ↔ intMin signed w ≤ n ∧ n ≤ intMax signed w := by
  obtain ⟨k, hk⟩ : ∃ k, 8 * w = k + 1 := ⟨8 * w - 1, by omega⟩
  have hpow : (2 : ℤ) ^ (k + 1) = 2 * 2 ^ k := by rw [pow_succ, mul_comm]
  unfold ByteOrder.InRange intMin intMax
  rw [hk, Nat.add_sub_cancel]
  split_ifs <;> constructor <;> intro h <;> constructor <;> omega

theorem put_one (order : ByteOrder) (n : ℤ) : ByteOrder.put order 1 n = [(n % 256).toNat.toUInt8] := by
  cases order <;> rfl

/-- What packing does with a value for an integer code. -/
def putInt (env : Env Ω) (order : ByteOrder) (w : ℕ) (signed : Bool) (message : String) (v : Object Ω) : Except Error (List UInt8) :=
  (requireInt env v).bind fun n =>
    if ByteOrder.InRange signed w n then .ok (ByteOrder.put order w n) else .error (structError message)

theorem writeInt_eq (hw : 0 < w) : writeInt env target code endian w signed v =
    putInt env (endian.order target) w signed s!"argument out of range for '{code}'" v := by
  unfold writeInt putInt
  congr 1
  funext n
  have hmin : signed = false → intMin signed w = 0 := by
    rintro rfl
    rfl
  by_cases h : ByteOrder.InRange signed w n
  · obtain ⟨hlo, hhi⟩ := (inRange_iff hw n).1 h
    rw [if_pos h, if_neg (fun hneg => by have := hmin hneg.1; omega), if_neg (by omega)]
  · rw [if_neg h]
    split_ifs with _ hout
    · rfl
    · rfl
    · exact absurd ((inRange_iff hw n).2 (by omega)) h

/-- The other spelling of a range check. -/
theorem putInt_eq {order : ByteOrder} {message : String} {p : ℤ → Prop} [DecidablePred p]
    (hp : ∀ n, p n ↔ ByteOrder.InRange signed w n) : ((requireInt env v).bind fun n =>
      if p n then .ok (ByteOrder.put order w n) else .error (structError message)) =
    putInt env order w signed message v := by
  unfold putInt
  congr 1
  funext n
  by_cases h : p n
  · rw [if_pos h, if_pos ((hp n).1 h)]
  · rw [if_neg h, if_neg (fun hr => h ((hp n).2 hr))]

theorem writeInt_long : (if endian = .native then writeInt env target code endian 8 signed v
      else writeInt env target code endian 4 signed v) =
    putInt env (endian.order target) (if endian = .native then 8 else 4) signed
      s!"argument out of range for '{code}'" v := by
  split_ifs
  · exact writeInt_eq (by decide)
  · exact writeInt_eq (by decide)

theorem encodeOne_int (env : Env Ω) (target : Target) (h : intShape endian code = some (w, signed)) : ∃ message, ∀ v : Object Ω,
    encodeOne env target code endian v = putInt env (endian.order target) w signed message v := by
  unfold intShape at h
  split at h
  · cases h
    refine ⟨"argument out of range for 'b'", fun v => ?_⟩
    have hrange : ∀ n : ℤ, (-128 ≤ n ∧ n ≤ 127) ↔ ByteOrder.InRange true 1 n := by
      intro n
      change _ ↔ -2 ^ 8 ≤ 2 * n ∧ 2 * n < 2 ^ 8
      omega
    rw [← putInt_eq hrange]
    simp only [put_one]
    change (requireInt env v).bind _ = _
    congr 1
    funext n
    exact ite_not _ _ _
  · cases h
    refine ⟨"argument out of range for 'B'", fun v => ?_⟩
    have hrange : ∀ n : ℤ, (0 ≤ n ∧ n ≤ 255) ↔ ByteOrder.InRange false 1 n := by
      intro n
      change _ ↔ 0 ≤ n ∧ n < 2 ^ 8
      omega
    rw [← putInt_eq hrange]
    simp only [put_one]
    change (requireInt env v).bind _ = _
    congr 1
    funext n
    exact ite_not _ _ _
  -- the codes of the macro
  all_goals try (cases h; exact ⟨_, fun v => writeInt_eq (by decide)⟩)
  · cases h
    exact ⟨_, fun v => writeInt_long⟩
  · cases h
    exact ⟨_, fun v => writeInt_long⟩
  · split_ifs at h with hnative
    cases h
    have hrange : ∀ n : ℤ, (-2 ^ 63 ≤ n ∧ n < 2 ^ 63) ↔ ByteOrder.InRange true 8 n := by
      intro n
      change _ ↔ -2 ^ 64 ≤ 2 * n ∧ 2 * n < 2 ^ 64
      omega
    rw [hnative]
    exact ⟨_, fun v => putInt_eq hrange⟩
  · split_ifs at h with hnative
    cases h
    rw [hnative]
    exact ⟨_, fun v => putInt_eq (p := fun n => 0 ≤ n ∧ n < 2 ^ 64) (fun n => Iff.rfl)⟩
  · split_ifs at h with hnative
    cases h
    rw [hnative]
    exact ⟨_, fun v => putInt_eq (p := fun n => 0 ≤ n ∧ n < 2 ^ 64) (fun n => Iff.rfl)⟩
  · cases h

theorem decodeVal_int (h : intShape endian code = some (w, signed)) :
    decodeVal env target code endian u buf = readInt target endian w signed buf := by
  unfold intShape at h
  split at h
  all_goals try (cases h; rfl)
  -- a `long`, and the codes that only the native order knows
  · cases h
    change (if endian = .native then _ else _) = _
    split_ifs <;> rfl
  · cases h
    change (if endian = .native then _ else _) = _
    split_ifs <;> rfl
  all_goals first
    | (split_ifs at h with hnative
       cases h
       rw [hnative]
       rfl)
    | cases h

theorem decodeOne_eq (hunit : elementSize target code endian = .ok u) (hfit : u ≤ buf.length) :
    decodeOne env target code endian buf = (decodeVal env target code endian u buf).map (·, u) := by
  unfold decodeOne
  rw [hunit]
  exact if_neg (Nat.not_lt_of_le hfit)

theorem longSize_eq (h : target.wideLong = true) : target.longSize = 8 := if_pos h

/-- The bytes of an integer element, as they are sized and as they are written. -/
theorem IsElement.width (h : IsElement target endian code u) (hshape : intShape endian code = some (w, signed)) : u = w := by
  have hsize := h.size
  have hlong := h.long
  unfold LongFits at hlong
  unfold elementSize at hsize
  unfold intShape at hshape
  split at hshape
  all_goals try (cases hshape; cases hsize; rfl)
  · cases hshape
    change (if endian = .native then _ else _) = _ at hsize
    split_ifs at hsize ⊢ with hnative
    · cases hsize
      exact longSize_eq (hlong hnative (Or.inl rfl))
    · cases hsize
      rfl
  · cases hshape
    change (if endian = .native then _ else _) = _ at hsize
    split_ifs at hsize ⊢ with hnative
    · cases hsize
      exact longSize_eq (hlong hnative (Or.inr rfl))
    · cases hsize
      rfl
  all_goals first
    | (split_ifs at hshape with hnative
       cases hshape
       change (if endian = .native then _ else _) = _ at hsize
       rw [if_pos hnative] at hsize
       cases hsize
       rfl)
    | cases hshape

theorem IsElement.cases (h : IsElement target endian code u) :
    code = 'c' ∨ code = '?' ∨ ∃ w signed, intShape endian code = some (w, signed) := by
  have hsize := h.size
  unfold elementSize at hsize
  split at hsize
  all_goals first
    | exact absurd rfl h.pad
    | exact absurd rfl h.string
    | exact absurd rfl h.pascal
    | exact absurd (by unfold IsFloat; decide) h.exact
    | exact Or.inl rfl
    | exact Or.inr (Or.inl rfl)
    | exact Or.inr (Or.inr ⟨_, _, rfl⟩)
    | (split_ifs at hsize with hnative
       exact Or.inr (Or.inr ⟨_, _, if_pos hnative⟩))
    | cases hsize

theorem slice_append : slice (out ++ buf) 0 out.length = .ok out := by
  unfold slice
  rw [if_pos ⟨Nat.zero_le _, by simp⟩, List.take_left, List.drop_zero]

theorem slice_zero (h : w ≤ buf.length) : slice buf 0 w = .ok (buf.take w) := by
  unfold slice
  rw [if_pos ⟨Nat.zero_le _, h⟩, List.drop_zero]

theorem storedOne_int (h : intShape endian code = some (w, signed)) {n : ℤ} (hv : requireInt env v = .ok n) :
    storedOne env endian code v = if ByteOrder.InRange signed w n then some (.intFromBigint n) else none := by
  have hbool : code ≠ '?' := by
    rintro rfl
    cases h
  have hchar : code ≠ 'c' := by
    rintro rfl
    cases h
  unfold storedOne
  rw [if_neg hbool, if_neg hchar, h, hv]

theorem requireInt_fromBigint {n : ℤ} (h : -2 ^ 127 ≤ n ∧ n < 2 ^ 127) :
    requireInt env (.intFromBigint n) = .ok n := by
  unfold Object.intFromBigint
  split_ifs
  · rfl
  · exact if_pos h

theorem intShape_width (h : intShape endian code = some (w, signed)) : 0 < w ∧ w ≤ 8 := by
  unfold intShape at h
  split at h
  all_goals first
    | (cases h
       constructor
       · first | decide | (split_ifs <;> decide)
       · first | decide | (split_ifs <;> decide))
    | (split_ifs at h
       cases h
       decide)
    | cases h

/-- What the widest code holds passes through an `i128`. -/
theorem inRange_wide (hw : w ≤ 8) {n : ℤ} (h : ByteOrder.InRange signed w n) : -2 ^ 127 ≤ n ∧ n < 2 ^ 127 := by
  have hpow : (2 : ℤ) ^ (8 * w) ≤ 2 ^ 64 := pow_le_pow_right₀ (by decide) (by omega)
  have hpos : (0 : ℤ) < 2 ^ (8 * w) := by positivity
  unfold ByteOrder.InRange at h
  split_ifs at h <;> constructor <;> omega

/-- A packed element is as long as the format says and reads back as the value it stands for. -/
theorem encodeOne_stored (h : IsElement target endian code u) (hout : encodeOne env target code endian v = .ok out) :
    ∃ v', storedOne env endian code v = some v' ∧ out.length = u ∧
      ∀ rest, decodeOne env target code endian (out ++ rest) = .ok (v', u) := by
  rcases h.cases with rfl | rfl | ⟨w, signed, hshape⟩
  · have hsize := h.size
    cases hsize
    change (match v with
      | .bytes [b] => Except.ok [b]
      | _ => Except.error _) = _ at hout
    split at hout
    · cases hout
      refine ⟨_, rfl, rfl, fun rest => ?_⟩
      rfl
    · cases hout
  · have hsize := h.size
    cases hsize
    cases hout
    refine ⟨_, rfl, rfl, fun rest => ?_⟩
    cases v.isTruthy env <;> rfl
  · obtain ⟨message, henc⟩ := encodeOne_int env target hshape
    obtain rfl := h.width hshape
    rw [henc, putInt] at hout
    cases hn : requireInt env v with
    | error e =>
      rw [hn] at hout
      cases hout
    | ok n =>
      rw [hn] at hout
      change (if _ then _ else _) = _ at hout
      split_ifs at hout with hrange
      cases hout
      refine ⟨.intFromBigint n, ?_, ByteOrder.length_put, fun rest => ?_⟩
      · rw [storedOne_int hshape hn, if_pos hrange]
      · have hslice : slice (ByteOrder.put (endian.order target) u n ++ rest) 0 u = .ok (ByteOrder.put (endian.order target) u n) := by
          rw [slice_zero (by simp), List.take_left' ByteOrder.length_put]
        rw [decodeOne_eq h.size (by simp), decodeVal_int hshape, readInt, hslice]
        change Except.ok (Object.intFromBigint (ByteOrder.get _ _ _), u) = _
        rw [ByteOrder.get_put hrange]

/-- Every `u` bytes read back as a value, which packs again to them. -/
theorem decodeOne_total (env : Env Ω) (h : IsElement target endian code u) (hfit : u ≤ buf.length) :
    ∃ v, decodeOne env target code endian buf = .ok (v, u) ∧
      (code ≠ '?' → encodeOne env target code endian v = .ok (buf.take u)) := by
  rw [decodeOne_eq h.size hfit]
  rcases h.cases with rfl | rfl | ⟨w, signed, hshape⟩
  · have hsize := h.size
    cases hsize
    obtain ⟨b, bs, rfl⟩ := List.exists_cons_of_length_pos hfit
    exact ⟨.bytes [b], rfl, fun _ => rfl⟩
  · have hsize := h.size
    cases hsize
    obtain ⟨b, bs, rfl⟩ := List.exists_cons_of_length_pos hfit
    exact ⟨_, rfl, fun hne => absurd rfl hne⟩
  · obtain ⟨message, henc⟩ := encodeOne_int env target hshape
    obtain rfl := h.width hshape
    have hlen : (buf.take u).length = u := List.length_take_of_le hfit
    have hrange := @ByteOrder.get_inRange (endian.order target) (buf.take u) signed
    have hput := @ByteOrder.put_get (endian.order target) (buf.take u) signed
    rw [hlen] at hrange hput
    refine ⟨.intFromBigint (ByteOrder.get (endian.order target) signed (buf.take u)), ?_, fun _ => ?_⟩
    · rw [decodeVal_int hshape, readInt, slice_zero hfit]
      rfl
    · rw [henc, putInt, requireInt_fromBigint (inRange_wide (intShape_width hshape).2 hrange)]
      change (if _ then _ else _) = _
      rw [if_pos hrange, hput]

/-- A number that its code does not hold is refused. -/
theorem encodeOne_outOfRange (hshape : intShape endian code = some (w, signed)) {n : ℤ} (hv : requireInt env v = .ok n)
    (hout : ¬ByteOrder.InRange signed w n) : ∃ message, encodeOne env target code endian v = .error (structError message) := by
  obtain ⟨message, henc⟩ := encodeOne_int env target hshape
  refine ⟨message, ?_⟩
  rw [henc, putInt, hv]
  exact if_neg hout

end Codes

section Panics

variable {α β : Type} {env : Env Ω} {target : Target} {endian : Endian} {code : Char} {v : Object Ω}

/-- What fails is an exception. -/
def Safe (r : Except Error α) : Prop := ∀ e, r = .error e → ∃ x, e = .raised x

theorem Safe.ok (a : α) : Safe (.ok a) := by
  intro e h
  cases h

theorem Safe.raised (x : Exception) : Safe (.error (.raised x) : Except Error α) := by
  intro e h
  cases h
  exact ⟨x, rfl⟩

theorem Safe.bind {r : Except Error α} {f : α → Except Error β} (hr : Safe r) (hf : ∀ a, Safe (f a)) : Safe (r.bind f) := by
  cases r with
  | ok a => exact hf a
  | error e =>
    intro e' h
    cases h
    exact hr e rfl

theorem Safe.ite {p : Prop} [Decidable p] {r r' : Except Error α} (hr : Safe r) (hr' : Safe r') : Safe (if p then r else r') := by
  split_ifs
  · exact hr
  · exact hr'

theorem requireInt_safe : Safe (requireInt env v) := by
  unfold requireInt
  split
  · exact Safe.ok _
  · exact (Safe.ok _).ite (Safe.raised _)
  · exact Safe.ok _
  · split
    · exact Safe.ok _
    · exact Safe.raised _
    · exact Safe.raised _
  · exact Safe.raised _

theorem writeInt_safe {w : ℕ} {signed : Bool} : Safe (writeInt env target code endian w signed v) :=
  requireInt_safe.bind fun _ => (Safe.raised _).ite ((Safe.raised _).ite (Safe.ok _))

theorem encodeOne_safe : Safe (encodeOne env target code endian v) := by
  unfold encodeOne
  split
  all_goals first
    | exact writeInt_safe
    | exact writeInt_safe.ite writeInt_safe
    | exact requireInt_safe.bind fun _ => (Safe.raised _).ite (Safe.ok _)
    | exact requireInt_safe.bind fun _ => (Safe.ok _).ite (Safe.raised _)
    | exact Safe.ok _
    | exact Safe.raised _
    | skip
  · split
    · exact Safe.ok _
    · exact Safe.raised _
  all_goals
    cases env.writeFloat _ _ _ with
    | ok bs => exact Safe.ok bs
    | error e => exact Safe.raised e

end Panics

end WeavePy.Struct
