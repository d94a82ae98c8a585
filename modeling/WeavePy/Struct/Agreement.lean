import WeavePy.Struct.Elements

/-!
Whole records: `pack`, `unpack`, `unpack_from` and `iter_unpack`, and that the first two undo each
other field by field.
-/

namespace WeavePy.Struct

variable {Ω : Type}

section Packing

/-- The elements of one field, and the arguments that are left. -/
def encodeMany (env : Env Ω) (target : Target) (endian : Endian) (code : Char) :
    ℕ → List (Object Ω) → Except Error (List UInt8 × List (Object Ω))
  | 0, values => .ok ([], values)
  | _ + 1, [] => .error .panic
  | n + 1, v :: values =>
    match encodeOne env target code endian v with
    | .error e => .error e
    | .ok bs =>
      match encodeMany env target endian code n values with
      | .error e => .error e
      | .ok (out, rest) => .ok (bs ++ out, rest)

/-- The data's first `count` bytes, padded with zeros to `count`. -/
def packString (count : ℕ) (data : List UInt8) : List UInt8 :=
  data.take count ++ List.replicate (count - min data.length count) 0

/-- A byte of length, at most 255, and up to `count - 1` bytes of data. -/
def packPascal (count : ℕ) (data : List UInt8) : List UInt8 :=
  if count = 0 then []
  else
    (min (min data.length (count - 1)) 255).toUInt8 ::
      (data.take (min data.length (count - 1)) ++ List.replicate (count - 1 - min data.length (count - 1)) 0)

/-- An argument for `s` or `p`. -/
def packData (message : String) (put : List UInt8 → List UInt8) : List (Object Ω) → Except Error (List UInt8 × List (Object Ω))
  | [] => .error .panic
  | v :: values =>
    match v.data? with
    | some data => .ok (put data, values)
    | none => .error (structError message)

def packField (env : Env Ω) (target : Target) (endian : Endian) (f : Field) (values : List (Object Ω)) :
    Except Error (List UInt8 × List (Object Ω)) :=
  match f.code with
  | 'x' => .ok (List.replicate f.count 0, values)
  | 's' => packData "argument for 's' must be a bytes-like or str" (packString f.count) values
  | 'p' => packData "argument for 'p' must be a bytes-like or str" (packPascal f.count) values
  | code => encodeMany env target endian code f.count values

def packFields (env : Env Ω) (target : Target) (endian : Endian) :
    List Field → List (Object Ω) → Except Error (List UInt8 × List (Object Ω))
  | [], values => .ok ([], values)
  | f :: fields, values =>
    match packField env target endian f values with
    | .error e => .error e
    | .ok (bs, values) =>
      match packFields env target endian fields values with
      | .error e => .error e
      | .ok (out, rest) => .ok (bs ++ out, rest)

/-- `needed_args`. -/
def CompiledFormat.neededArgs (cf : CompiledFormat) : ℕ := (cf.fields.map Field.arity).sum

def pack (env : Env Ω) (target : Target) (cf : CompiledFormat) (values : List (Object Ω)) : Except Error (List UInt8) :=
  if values.length ≠ cf.neededArgs then
    .error (structError s!"pack expected {cf.neededArgs} items for packing (got {values.length})")
  else (packFields env target cf.endian cf.fields values).map Prod.fst

end Packing

section Unpacking

def decodeMany (env : Env Ω) (target : Target) (endian : Endian) (code : Char) (buf : List UInt8) :
    ℕ → ℕ → Except Error (List (Object Ω) × ℕ)
  | 0, pos => .ok ([], pos)
  | n + 1, pos =>
    match slice buf pos buf.length with
    | .error e => .error e
    | .ok rest =>
      match decodeOne env target code endian rest with
      | .error e => .error e
      | .ok (v, consumed) =>
        match decodeMany env target endian code buf n (pos + consumed) with
        | .error e => .error e
        | .ok (values, pos) => .ok (v :: values, pos)

def unpackField (env : Env Ω) (target : Target) (endian : Endian) (f : Field) (buf : List UInt8) (pos : ℕ) :
    Except Error (List (Object Ω) × ℕ) :=
  match f.code with
  | 'x' => .ok ([], pos + f.count)
  | 's' => (slice buf pos (pos + f.count)).map fun bs => ([.bytes bs], pos + f.count)
  | 'p' =>
    if f.count = 0 then .ok ([.bytes []], pos)
    else
      match buf[pos]? with
      | none => .error .panic
      | some len =>
        (slice buf (pos + 1) (pos + 1 + min len.toNat (f.count - 1))).map fun bs => ([.bytes bs], pos + f.count)
  | code => decodeMany env target endian code buf f.count pos

def unpackFields (env : Env Ω) (target : Target) (endian : Endian) (buf : List UInt8) :
    List Field → ℕ → Except Error (List (Object Ω) × ℕ)
  | [], pos => .ok ([], pos)
  | f :: fields, pos =>
    match unpackField env target endian f buf pos with
    | .error e => .error e
    | .ok (vs, pos) =>
      match unpackFields env target endian buf fields pos with
      | .error e => .error e
      | .ok (values, pos) => .ok (vs ++ values, pos)

/-- The values, and how many bytes they took. -/
def unpackFromOffset (env : Env Ω) (target : Target) (cf : CompiledFormat) (buf : List UInt8) (start : ℕ) :
    Except Error (List (Object Ω) × ℕ) :=
  (unpackFields env target cf.endian buf cf.fields start).map fun r => (r.1, r.2 - start)

def unpack (env : Env Ω) (target : Target) (cf : CompiledFormat) (buf : List UInt8) : Except Error (List (Object Ω)) :=
  if buf.length ≠ cf.size then .error (structError s!"unpack requires a buffer of {cf.size} bytes")
  else (unpackFromOffset env target cf buf 0).map Prod.fst

/-- The loop of `iter_unpack`. -/
def iterLoop (env : Env Ω) (target : Target) (cf : CompiledFormat) (buf : List UInt8) :
    ℕ → ℕ → Except Error (List (List (Object Ω)))
  | 0, offset => if offset < buf.length then .error .diverge else .ok []
  | fuel + 1, offset =>
    if offset < buf.length then
      match unpackFromOffset env target cf buf offset with
      | .error e => .error e
      | .ok (vals, consumed) =>
        match iterLoop env target cf buf fuel (offset + consumed) with
        | .error e => .error e
        | .ok out => .ok (vals :: out)
    else .ok []

/-- Zero is the one multiple of zero. -/
def isMultipleOf (n m : ℕ) : Bool := if m = 0 then n == 0 else n % m == 0

def iterUnpack (env : Env Ω) (target : Target) (cf : CompiledFormat) (buf : List UInt8) :
    Except Error (List (List (Object Ω))) :=
  if isMultipleOf buf.length cf.size then iterLoop env target cf buf buf.length 0
  else .error (structError s!"iterative unpacking requires a buffer of a multiple of {cf.size} bytes")

/-- The place that an offset, from the end where it is negative, stands for. -/
def resolveBufferOffset (offset : ℤ) (bufLen size : ℕ) (op : String) (forPack : Bool) : Except Error ℕ :=
  let check (resolved : ℤ) : Except Error ℕ :=
    if (bufLen : ℤ) - resolved < size then
      let needed := resolved + size
      let verb := if forPack then "packing" else "unpacking"
      .error (structError (s!"{op} requires a buffer of at least {needed} bytes for {verb} {size} bytes at offset {resolved} " ++
        s!"(actual buffer size is {bufLen})"))
    else .ok resolved.toNat
  if offset < 0 then
    if offset + size > 0 then
      let verb := if forPack then "pack" else "unpack"
      let lead := if forPack then "no space to" else "not enough data to"
      .error (structError s!"{lead} {verb} {size} bytes at offset {offset}")
    else if offset + bufLen < 0 then .error (structError s!"offset {offset} out of range for {bufLen}-byte buffer")
    else check (offset + bufLen)
  else check offset

def unpackFrom (env : Env Ω) (target : Target) (cf : CompiledFormat) (buf : List UInt8) (offset : ℤ) :
    Except Error (List (Object Ω)) :=
  match resolveBufferOffset offset buf.length cf.size "unpack_from" false with
  | .error e => .error e
  | .ok off => (unpackFromOffset env target cf buf off).map Prod.fst

/-- `pack_into` on a `bytearray`: the buffer after it. -/
def packInto (env : Env Ω) (target : Target) (cf : CompiledFormat) (buf : List UInt8) (offset : ℤ) (values : List (Object Ω)) :
    Except Error (List UInt8) :=
  match pack env target cf values with
  | .error e => .error e
  | .ok bs =>
    match resolveBufferOffset offset buf.length cf.size "pack_into" true with
    | .error e => .error e
    | .ok off => (slice buf off (off + bs.length)).map fun _ => buf.take off ++ bs ++ buf.drop (off + bs.length)

end Unpacking

end WeavePy.Struct

/-!
`pack` and `unpack` agree on every format: field by field, then on whole records.
-/

namespace WeavePy.Struct

variable {Ω : Type} {env : Env Ω} {target : Target} {endian : Endian}

section Specification

/-- The code of each argument of a field, with the length of a string. -/
def Field.slots (f : Field) : List (Char × ℕ) :=
  match f.code with
  | 'x' => []
  | 's' | 'p' => [(f.code, f.count)]
  | code => List.replicate f.count (code, 1)

/-- What an argument reads back as, where its code takes it. -/
def stored (env : Env Ω) (endian : Endian) (slot : Char × ℕ) (v : Object Ω) : Option (Object Ω) :=
  if slot.1 = 's' then v.data?.map fun data => .bytes (packString slot.2 data)
  else if slot.1 = 'p' then v.data?.map fun data => .bytes (data.take (min (slot.2 - 1) 255))
  else storedOne env endian slot.1 v

/-- A field that `encode_one` writes as the format sizes it, floating point apart. -/
structure Covered (target : Target) (endian : Endian) (f : Field) : Prop where
  known : ∃ unit, elementSize target f.code endian = .ok unit
  exact : ¬IsFloat f.code
  long : 0 < f.count → LongFits target endian f.code

/-- Packing keeps every byte of such a field. -/
structure Exact (f : Field) : Prop where
  bool : f.code ≠ '?'
  pascal : f.code ≠ 'p'
  pad : f.code ≠ 'x'

end Specification

section Fields

variable {code : Char} {u n pos : ℕ} {values rest vs : List (Object Ω)} {out buf data : List UInt8} {f : Field}
  {fields : List Field}

theorem slice_middle (before out after : List UInt8) :
    slice (before ++ out ++ after) before.length (before.length + out.length) = .ok out := by
  unfold slice
  rw [if_pos ⟨Nat.le_add_right _ _, by simp⟩]
  congr 1
  rw [List.take_left' (by simp), List.drop_left]

theorem slice_rest (before out : List UInt8) : slice (before ++ out) before.length (before ++ out).length = .ok out := by
  have h := slice_middle before out []
  rwa [List.append_nil, ← List.length_append] at h

theorem slice_tail (h : pos ≤ buf.length) : slice buf pos buf.length = .ok (buf.drop pos) := by
  unfold slice
  rw [if_pos ⟨h, Nat.le_refl _⟩, List.take_length]

theorem slice_take (h : pos + n ≤ buf.length) : slice buf pos (pos + n) = .ok ((buf.drop pos).take n) := by
  unfold slice
  rw [if_pos ⟨Nat.le_add_right _ _, h⟩, List.drop_take, Nat.add_sub_cancel_left]

/-- What the arguments `used` were packed to, `out`, reads back as `vs` wherever it stands. -/
structure Packed (env : Env Ω) (endian : Endian) (slots : List (Char × ℕ)) (size : ℕ)
    (read : List UInt8 → ℕ → Except Error (List (Object Ω) × ℕ)) (used vs : List (Object Ω)) (out : List UInt8) : Prop where
  arity : used.length = slots.length
  kept : List.zipWith (stored env endian) slots used = vs.map some
  size_eq : out.length = size
  reads : ∀ before after, read (before ++ out ++ after) before.length = .ok (vs, before.length + out.length)

theorem stored_element (h : IsElement target endian code u) (v : Object Ω) : stored env endian (code, n) v = storedOne env endian code v := by
  unfold stored
  rw [if_neg h.string, if_neg h.pascal]

theorem encodeMany_packed (h : 0 < n → IsElement target endian code u) (henc : encodeMany env target endian code n values = .ok (out, rest)) :
    ∃ used vs, values = used ++ rest ∧
      Packed env endian (List.replicate n (code, 1)) (u * n) (fun buf => decodeMany env target endian code buf n) used vs out := by
  induction n generalizing values out with
  | zero =>
    cases henc
    refine ⟨[], [], rfl, ?_⟩
    constructor
    · rfl
    · rfl
    · rfl
    · intro before after
      rfl
  | succ n ih =>
    have hel := h (Nat.succ_pos n)
    cases values with
    | nil => cases henc
    | cons v values =>
      rw [encodeMany] at henc
      cases hone : encodeOne env target code endian v with
      | error e =>
        simp only [hone] at henc
        cases henc
      | ok bs =>
        simp only [hone] at henc
        cases hmany : encodeMany env target endian code n values with
        | error e =>
          simp only [hmany] at henc
          cases henc
        | ok result =>
          obtain ⟨more, left⟩ := result
          simp only [hmany] at henc
          cases henc
          obtain ⟨v', hv', hlen, hread⟩ := encodeOne_stored hel hone
          obtain ⟨used, vs, rfl, hpacked⟩ := ih (fun _ => hel) hmany
          refine ⟨v :: used, v' :: vs, rfl, ?_⟩
          constructor
          · rw [List.length_cons, hpacked.arity, List.length_replicate, List.length_replicate]
          · rw [List.replicate_succ, List.zipWith_cons_cons, hpacked.kept, stored_element hel, hv']
            rfl
          · rw [List.length_append, hlen, hpacked.size_eq, Nat.mul_succ, Nat.add_comm]
          · intro before after
            have hrest := hpacked.reads (before ++ bs) after
            have hslice : slice (before ++ (bs ++ more) ++ after) before.length (before ++ (bs ++ more) ++ after).length =
                .ok (bs ++ (more ++ after)) := by
              rw [List.append_assoc, List.append_assoc]
              exact slice_rest _ _
            simp only [List.length_append, List.append_assoc] at hrest hslice ⊢
            rw [decodeMany]
            simp only [List.length_append, hslice, hread]
            rw [← hlen, hrest]
            simp only [Nat.add_assoc]

theorem decodeMany_total (env : Env Ω) (h : 0 < n → IsElement target endian code u) (hfit : pos + u * n ≤ buf.length) :
    ∃ vs : List (Object Ω), decodeMany env target endian code buf n pos = .ok (vs, pos + u * n) ∧
      (code ≠ '?' → ∀ rest, encodeMany env target endian code n (vs ++ rest) = .ok ((buf.drop pos).take (u * n), rest)) := by
  induction n generalizing pos with
  | zero => exact ⟨[], rfl, fun _ _ => rfl⟩
  | succ n ih =>
    have hel := h (Nat.succ_pos n)
    rw [Nat.mul_succ] at hfit
    have hhead : u ≤ (buf.drop pos).length := by
      rw [List.length_drop]
      omega
    have htail : pos + u + u * n ≤ buf.length := by omega
    obtain ⟨v, hv, hback⟩ := decodeOne_total env hel hhead
    obtain ⟨vs, hvs, hmore⟩ := ih (fun _ => hel) htail
    refine ⟨v :: vs, ?_, fun hne rest => ?_⟩
    · rw [decodeMany, slice_tail (by omega)]
      simp only [hv, hvs]
      rw [Nat.mul_succ]
      congr 2
      omega
    · rw [List.cons_append, encodeMany, hback hne]
      simp only [hmore hne rest]
      rw [Nat.mul_succ, Nat.add_comm (u * n) u, List.take_add, List.drop_drop]

/-- A field of elements. -/
structure Field.Plain (f : Field) : Prop where
  pad : f.code ≠ 'x'
  string : f.code ≠ 's'
  pascal : f.code ≠ 'p'

theorem Field.cases (f : Field) : f.code = 'x' ∨ f.code = 's' ∨ f.code = 'p' ∨ f.Plain := by
  by_cases hx : f.code = 'x'
  · exact Or.inl hx
  by_cases hs : f.code = 's'
  · exact Or.inr (Or.inl hs)
  by_cases hp : f.code = 'p'
  · exact Or.inr (Or.inr (Or.inl hp))
  exact Or.inr (Or.inr (Or.inr ⟨hx, hs, hp⟩))

theorem Field.Plain.packField_eq (h : f.Plain) :
    packField env target endian f values = encodeMany env target endian f.code f.count values := by
  unfold packField
  split
  · exact absurd ‹_› h.pad
  · exact absurd ‹_› h.string
  · exact absurd ‹_› h.pascal
  · rfl

theorem Field.Plain.unpackField_eq (h : f.Plain) :
    unpackField env target endian f buf pos = decodeMany env target endian f.code buf f.count pos := by
  unfold unpackField
  split
  · exact absurd ‹_› h.pad
  · exact absurd ‹_› h.string
  · exact absurd ‹_› h.pascal
  · rfl

theorem Field.Plain.slots_eq (h : f.Plain) : f.slots = List.replicate f.count (f.code, 1) := by
  unfold Field.slots
  split
  · exact absurd ‹_› h.pad
  · exact absurd ‹_› h.string
  · exact absurd ‹_› h.pascal
  · rfl

theorem Covered.element (h : Covered target endian f) (hplain : f.Plain) :
    ∃ u, f.bytes target endian = u * f.count ∧ (0 < f.count → IsElement target endian f.code u) := by
  obtain ⟨u, hu⟩ := h.known
  refine ⟨u, bytes_of_size hu, fun hcount => ?_⟩
  exact ⟨hu, hplain.pad, hplain.string, hplain.pascal, h.exact, h.long hcount⟩

theorem length_packString : (packString n data).length = n := by
  rw [packString, List.length_append, List.length_take, List.length_replicate]
  omega

theorem length_packPascal : (packPascal n data).length = n := by
  unfold packPascal
  split_ifs with h
  · exact h.symm
  · rw [List.length_cons, List.length_append, List.length_take, List.length_replicate]
    omega

theorem unpackField_pascal (before after : List UInt8) :
    unpackField env target endian ⟨'p', n⟩ (before ++ packPascal n data ++ after) before.length =
      .ok ([.bytes (data.take (min (n - 1) 255))], before.length + n) := by
  change (if n = 0 then _ else _) = _
  by_cases hn : n = 0
  · rw [if_pos hn, hn]
    rfl
  rw [if_neg hn]
  obtain ⟨copy, hcopy⟩ : ∃ copy, copy = min data.length (n - 1) := ⟨_, rfl⟩
  obtain ⟨k, hk⟩ : ∃ k, k = min copy 255 := ⟨_, rfl⟩
  have hlen : k.toUInt8.toNat = k := UInt8.toNat_ofNat_of_lt' (by show k < 256; omega)
  -- the data that the length byte speaks of is what stands behind it
  have hpack : packPascal n data =
      k.toUInt8 :: (data.take k ++ ((data.take copy).drop k ++ List.replicate (n - 1 - copy) 0)) := by
    have hsplit : data.take copy = data.take k ++ (data.take copy).drop k := by
      have h := (List.take_append_drop k (data.take copy)).symm
      rwa [List.take_take, Nat.min_eq_left (by omega)] at h
    rw [packPascal, if_neg hn, ← hcopy, ← hk, ← List.append_assoc, ← hsplit]
  have htake : data.take (min (n - 1) 255) = data.take k := by
    apply List.take_eq_take_iff.2
    omega
  rw [hpack, htake]
  obtain ⟨tail, htail⟩ : ∃ tail, tail = (data.take copy).drop k ++ List.replicate (n - 1 - copy) 0 := ⟨_, rfl⟩
  rw [← htail]
  have hget : (before ++ k.toUInt8 :: (data.take k ++ tail) ++ after)[before.length]? = some k.toUInt8 := by
    rw [List.append_assoc, List.getElem?_append_right (Nat.le_refl _), Nat.sub_self]
    rfl
  have hslice := slice_middle (before ++ [k.toUInt8]) (data.take k) (tail ++ after)
  rw [List.length_append, List.length_singleton, List.length_take_of_le (by omega)] at hslice
  have hbuf : before ++ [k.toUInt8] ++ data.take k ++ (tail ++ after) = before ++ k.toUInt8 :: (data.take k ++ tail) ++ after := by
    simp
  rw [hbuf] at hslice
  rw [hget]
  change (slice _ (before.length + 1) (before.length + 1 + min k.toUInt8.toNat (n - 1))).map _ = _
  rw [hlen, Nat.min_eq_left (by omega), hslice]
  rfl

theorem packField_packed (h : Covered target endian f) (hpack : packField env target endian f values = .ok (out, rest)) :
    ∃ used vs, values = used ++ rest ∧
      Packed env endian f.slots (f.bytes target endian) (unpackField env target endian f) used vs out := by
  rcases f.cases with hx | hs | hp | hplain
  · obtain ⟨code, n⟩ := f
    obtain rfl : code = 'x' := hx
    cases hpack
    refine ⟨[], [], rfl, ?_⟩
    constructor
    · rfl
    · rfl
    · rw [List.length_replicate, bytes_of_size rfl, Nat.one_mul]
    · intro before after
      rw [List.length_replicate]
      rfl
  · obtain ⟨code, n⟩ := f
    obtain rfl : code = 's' := hs
    cases values with
    | nil => cases hpack
    | cons v values =>
      change (match v.data? with
        | some data => Except.ok (packString n data, values)
        | none => Except.error _) = _ at hpack
      cases hdata : v.data? with
      | none =>
        rw [hdata] at hpack
        cases hpack
      | some data =>
        rw [hdata] at hpack
        cases hpack
        refine ⟨[v], [.bytes (packString n data)], rfl, ?_⟩
        constructor
        · rfl
        · change [(v.data?).map _] = _
          rw [hdata]
          rfl
        · rw [length_packString, bytes_of_size rfl, Nat.one_mul]
        · intro before after
          have hslice := slice_middle before (packString n data) after
          rw [length_packString] at hslice ⊢
          change (slice _ before.length (before.length + n)).map _ = _
          rw [hslice]
          rfl
  · obtain ⟨code, n⟩ := f
    obtain rfl : code = 'p' := hp
    cases values with
    | nil => cases hpack
    | cons v values =>
      change (match v.data? with
        | some data => Except.ok (packPascal n data, values)
        | none => Except.error _) = _ at hpack
      cases hdata : v.data? with
      | none =>
        rw [hdata] at hpack
        cases hpack
      | some data =>
        rw [hdata] at hpack
        cases hpack
        refine ⟨[v], [.bytes (data.take (min (n - 1) 255))], rfl, ?_⟩
        constructor
        · rfl
        · change [(v.data?).map _] = _
          rw [hdata]
          rfl
        · rw [length_packPascal, bytes_of_size rfl, Nat.one_mul]
        · intro before after
          rw [length_packPascal]
          exact unpackField_pascal before after
  · obtain ⟨u, hbytes, hel⟩ := h.element hplain
    rw [hplain.packField_eq] at hpack
    obtain ⟨used, vs, hvalues, hpacked⟩ := encodeMany_packed hel hpack
    refine ⟨used, vs, hvalues, ?_⟩
    have hread : unpackField env target endian f = fun buf => decodeMany env target endian f.code buf f.count := by
      funext buf pos
      exact hplain.unpackField_eq
    rw [hplain.slots_eq, hbytes, hread]
    exact hpacked

theorem unpackField_total (env : Env Ω) (h : Covered target endian f) (hfit : pos + f.bytes target endian ≤ buf.length) :
    ∃ vs : List (Object Ω), unpackField env target endian f buf pos = .ok (vs, pos + f.bytes target endian) ∧
      (Exact f → ∀ rest, packField env target endian f (vs ++ rest) =
        .ok ((buf.drop pos).take (f.bytes target endian), rest)) := by
  rcases f.cases with hx | hs | hp | hplain
  · obtain ⟨code, n⟩ := f
    obtain rfl : code = 'x' := hx
    rw [bytes_of_size rfl, Nat.one_mul]
    exact ⟨[], rfl, fun hexact => absurd rfl hexact.pad⟩
  · obtain ⟨code, n⟩ := f
    obtain rfl : code = 's' := hs
    rw [bytes_of_size rfl, Nat.one_mul] at hfit ⊢
    refine ⟨[.bytes ((buf.drop pos).take n)], ?_, fun _ rest => ?_⟩
    · change (slice buf pos (pos + n)).map _ = _
      rw [slice_take hfit]
      rfl
    · have hlen : ((buf.drop pos).take n).length = n := List.length_take_of_le (by rw [List.length_drop]; omega)
      have hsame : packString n ((buf.drop pos).take n) = (buf.drop pos).take n := by
        rw [packString, hlen, List.take_take, Nat.min_self, Nat.sub_self, List.replicate_zero, List.append_nil]
      change Except.ok (packString n ((buf.drop pos).take n), rest) = _
      rw [hsame]
  · obtain ⟨code, n⟩ := f
    obtain rfl : code = 'p' := hp
    rw [bytes_of_size rfl, Nat.one_mul] at hfit ⊢
    change ∃ vs, (if n = 0 then _ else _) = _ ∧ _
    by_cases hn : n = 0
    · subst hn
      exact ⟨_, rfl, fun hexact => absurd rfl hexact.pascal⟩
    · obtain ⟨len, hlen⟩ : ∃ len, buf[pos]? = some len := ⟨_, List.getElem?_eq_getElem (by omega)⟩
      refine ⟨[.bytes ((buf.drop (pos + 1)).take (min len.toNat (n - 1)))], ?_, fun hexact => absurd rfl hexact.pascal⟩
      rw [if_neg hn, hlen]
      change (slice buf (pos + 1) (pos + 1 + min len.toNat (n - 1))).map _ = _
      rw [slice_take (by omega)]
      rfl
  · obtain ⟨u, hbytes, hel⟩ := h.element hplain
    rw [hbytes] at hfit ⊢
    obtain ⟨vs, hvs, hback⟩ := decodeMany_total env hel hfit
    refine ⟨vs, hplain.unpackField_eq.trans hvs, fun hexact rest => ?_⟩
    exact hplain.packField_eq.trans (hback hexact.bool rest)

theorem packFields_packed (h : ∀ f ∈ fields, Covered target endian f)
    (hpack : packFields env target endian fields values = .ok (out, rest)) :
    ∃ used vs, values = used ++ rest ∧ Packed env endian (fields.flatMap Field.slots) (extent target endian fields)
      (fun buf => unpackFields env target endian buf fields) used vs out := by
  induction fields generalizing values out with
  | nil =>
    cases hpack
    refine ⟨[], [], rfl, ?_⟩
    constructor
    · rfl
    · rfl
    · rfl
    · intro before after
      rfl
  | cons f fields ih =>
    rw [packFields] at hpack
    cases hfield : packField env target endian f values with
    | error e =>
      simp only [hfield] at hpack
      cases hpack
    | ok result =>
      obtain ⟨bs, left⟩ := result
      simp only [hfield] at hpack
      cases hmore : packFields env target endian fields left with
      | error e =>
        simp only [hmore] at hpack
        cases hpack
      | ok result =>
        obtain ⟨more, left'⟩ := result
        simp only [hmore] at hpack
        cases hpack
        obtain ⟨used, vs, rfl, hf⟩ := packField_packed (h f List.mem_cons_self) hfield
        obtain ⟨used', vs', rfl, hfs⟩ := ih (fun g hg => h g (List.mem_cons_of_mem f hg)) hmore
        refine ⟨used ++ used', vs ++ vs', (List.append_assoc _ _ _).symm, ?_⟩
        constructor
        · rw [List.flatMap_cons, List.length_append, List.length_append, hf.arity, hfs.arity]
        · rw [List.flatMap_cons, List.zipWith_append hf.arity.symm, hf.kept, hfs.kept, List.map_append]
        · rw [List.length_append, hf.size_eq, hfs.size_eq, extent_cons]
        · intro before after
          have hhead := hf.reads before (more ++ after)
          have htail := hfs.reads (before ++ bs) after
          simp only [List.append_assoc, List.length_append] at hhead htail ⊢
          rw [unpackFields]
          simp only [hhead, htail]
          simp only [Nat.add_assoc]

theorem unpackFields_total (env : Env Ω) (h : ∀ f ∈ fields, Covered target endian f) (hfit : pos + extent target endian fields ≤ buf.length) :
    ∃ vs : List (Object Ω), unpackFields env target endian buf fields pos = .ok (vs, pos + extent target endian fields) ∧
      ((∀ f ∈ fields, Exact f) → ∀ rest, packFields env target endian fields (vs ++ rest) =
        .ok ((buf.drop pos).take (extent target endian fields), rest)) := by
  induction fields generalizing pos with
  | nil => exact ⟨[], rfl, fun _ _ => rfl⟩
  | cons f fields ih =>
    rw [extent_cons] at hfit ⊢
    have hhead : pos + f.bytes target endian ≤ buf.length := by omega
    have htail : pos + f.bytes target endian + extent target endian fields ≤ buf.length := by omega
    obtain ⟨vs, hvs, hback⟩ := unpackField_total env (h f List.mem_cons_self) hhead
    obtain ⟨vs', hvs', hback'⟩ := ih (fun g hg => h g (List.mem_cons_of_mem f hg)) htail
    refine ⟨vs ++ vs', ?_, fun hexact rest => ?_⟩
    · rw [unpackFields]
      simp only [hvs, hvs']
      rw [Nat.add_assoc]
    · rw [packFields, List.append_assoc, hback (hexact f List.mem_cons_self)]
      simp only [hback' (fun g hg => hexact g (List.mem_cons_of_mem f hg)) rest]
      rw [List.take_add, List.drop_drop]

end Fields

end WeavePy.Struct
