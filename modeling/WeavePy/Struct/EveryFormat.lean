import WeavePy.Struct.Agreement

/-!
What holds of `pack`, `unpack`, `unpack_from` and `iter_unpack` for every format that `parse` takes.
-/

namespace WeavePy.Struct

variable {Ω : Type} {env : Env Ω} {target : Target} {endian : Endian} {cf : CompiledFormat}

section Arity

variable {f : Field} {n : ℕ} {code : Char} {values rest : List (Object Ω)} {out : List UInt8} {fields : List Field}

theorem Field.Plain.valueCodes_eq (h : f.Plain) : f.valueCodes = List.replicate f.count f.code := by
  unfold Field.valueCodes
  split
  · exact absurd ‹_› h.pad
  · exact absurd ‹_› h.string
  · exact absurd ‹_› h.pascal
  · rfl

theorem Field.Plain.arity_eq (h : f.Plain) : f.arity = f.count := by
  unfold Field.arity
  split
  · exact absurd ‹_› h.pad
  · exact absurd ‹_› h.string
  · exact absurd ‹_› h.pascal
  · rfl

theorem valueCodes_field (f : Field) : f.valueCodes = f.slots.map Prod.fst := by
  rcases f.cases with hx | hs | hp | hplain
  · obtain ⟨code, n⟩ := f
    obtain rfl : code = 'x' := hx
    rfl
  · obtain ⟨code, n⟩ := f
    obtain rfl : code = 's' := hs
    rfl
  · obtain ⟨code, n⟩ := f
    obtain rfl : code = 'p' := hp
    rfl
  · rw [hplain.valueCodes_eq, hplain.slots_eq, List.map_replicate]

theorem arity_field (f : Field) : f.arity = f.slots.length := by
  rcases f.cases with hx | hs | hp | hplain
  · obtain ⟨code, n⟩ := f
    obtain rfl : code = 'x' := hx
    rfl
  · obtain ⟨code, n⟩ := f
    obtain rfl : code = 's' := hs
    rfl
  · obtain ⟨code, n⟩ := f
    obtain rfl : code = 'p' := hp
    rfl
  · rw [hplain.arity_eq, hplain.slots_eq, List.length_replicate]

theorem valueCodes_eq (cf : CompiledFormat) : valueCodes cf = (cf.fields.flatMap Field.slots).map Prod.fst := by
  rw [valueCodes, List.map_flatMap]
  congr 1
  funext f
  exact valueCodes_field f

theorem neededArgs_eq (cf : CompiledFormat) : cf.neededArgs = (cf.fields.flatMap Field.slots).length := by
  rw [CompiledFormat.neededArgs, List.length_flatMap]
  congr 2
  funext f
  exact arity_field f

theorem encodeMany_safe (h : n ≤ values.length) : Safe (encodeMany env target endian code n values) ∧
    ∀ out rest, encodeMany env target endian code n values = .ok (out, rest) → values.length = n + rest.length := by
  induction n generalizing values with
  | zero =>
    refine ⟨Safe.ok _, fun out rest h => ?_⟩
    cases h
    exact (Nat.zero_add _).symm
  | succ n ih =>
    cases values with
    | nil => cases h
    | cons v values =>
      have hone := @encodeOne_safe Ω env target endian code v
      obtain ⟨hmany, hlen⟩ := ih (Nat.le_of_succ_le_succ h)
      rw [encodeMany]
      cases hv : encodeOne env target code endian v with
      | error e =>
        obtain ⟨x, rfl⟩ := hone e hv
        refine ⟨Safe.raised x, fun out rest h => ?_⟩
        cases h
      | ok bs =>
        cases hvs : encodeMany env target endian code n values with
        | error e =>
          obtain ⟨x, rfl⟩ := hmany e hvs
          refine ⟨Safe.raised x, fun out rest h => ?_⟩
          cases h
        | ok result =>
          refine ⟨Safe.ok _, fun out rest h => ?_⟩
          cases h
          rw [List.length_cons, hlen _ _ hvs]
          omega

theorem packData_safe {message : String} {put : List UInt8 → List UInt8} (h : 1 ≤ values.length) :
    Safe (packData message put values) ∧
      ∀ out rest, packData message put values = .ok (out, rest) → values.length = 1 + rest.length := by
  cases values with
  | nil => cases h
  | cons v values =>
    rw [packData]
    cases v.data? with
    | some data =>
      refine ⟨Safe.ok _, fun out rest h => ?_⟩
      cases h
      exact Nat.add_comm _ _
    | none =>
      refine ⟨Safe.raised _, fun out rest h => ?_⟩
      cases h

theorem packField_safe (h : f.arity ≤ values.length) : Safe (packField env target endian f values) ∧
    ∀ out rest, packField env target endian f values = .ok (out, rest) → values.length = f.arity + rest.length := by
  rcases f.cases with hx | hs | hp | hplain
  · obtain ⟨code, n⟩ := f
    obtain rfl : code = 'x' := hx
    refine ⟨Safe.ok _, fun out rest h => ?_⟩
    cases h
    exact (Nat.zero_add _).symm
  · obtain ⟨code, n⟩ := f
    obtain rfl : code = 's' := hs
    exact packData_safe h
  · obtain ⟨code, n⟩ := f
    obtain rfl : code = 'p' := hp
    exact packData_safe h
  · rw [hplain.arity_eq] at h ⊢
    rw [hplain.packField_eq]
    exact encodeMany_safe h

theorem packFields_safe (h : (fields.map Field.arity).sum ≤ values.length) :
    Safe (packFields env target endian fields values) := by
  induction fields generalizing values with
  | nil => exact Safe.ok _
  | cons f fields ih =>
    rw [List.map_cons, List.sum_cons] at h
    have harity : f.arity ≤ values.length := by omega
    obtain ⟨hfield, hlen⟩ := @packField_safe Ω env target endian f values harity
    rw [packFields]
    cases hv : packField env target endian f values with
    | error e =>
      obtain ⟨x, rfl⟩ := hfield e hv
      exact Safe.raised x
    | ok result =>
      obtain ⟨bs, left⟩ := result
      have hleft : (fields.map Field.arity).sum ≤ left.length := by
        have := hlen bs left hv
        omega
      dsimp only
      cases hvs : packFields env target endian fields left with
      | error e =>
        obtain ⟨x, rfl⟩ := ih hleft e hvs
        exact Safe.raised x
      | ok result => exact Safe.ok _

theorem pack_safe : Safe (pack env target cf values) := by
  unfold pack
  split_ifs with h
  · exact Safe.raised _
  · have hlen : (cf.fields.map Field.arity).sum ≤ values.length := Nat.le_of_eq (Classical.not_not.1 h).symm
    exact (packFields_safe hlen).bind fun r => Safe.ok r.1

end Arity

section Formats

variable {fmt : String} {values vs : List (Object Ω)} {out buf : List UInt8} {off : ℕ}

/-- A format whose fields are `Covered`. -/
def CompiledFormat.Covered (target : Target) (cf : CompiledFormat) : Prop :=
  ∀ f ∈ cf.fields, Struct.Covered target cf.endian f

theorem covered_of_parse (h : parse target fmt = .ok cf) (hexact : ∀ f ∈ cf.fields, ¬IsFloat f.code)
    (hlong : ∀ f ∈ cf.fields, 0 < f.count → LongFits target cf.endian f.code) : cf.Covered target := by
  intro f hf
  exact ⟨(parse_laid h).known f hf, hexact f hf, hlong f hf⟩

/-- The slots of all arguments. -/
def CompiledFormat.slots (cf : CompiledFormat) : List (Char × ℕ) := cf.fields.flatMap Field.slots

theorem pack_packed (h : parse target fmt = .ok cf) (hcov : cf.Covered target) (hpack : pack env target cf values = .ok out) :
    ∃ vs, Packed env cf.endian cf.slots cf.size (fun buf => unpackFields env target cf.endian buf cf.fields) values vs out := by
  unfold pack at hpack
  split_ifs at hpack with harity
  rw [Classical.not_not] at harity
  cases hfields : packFields env target cf.endian cf.fields values with
  | error e =>
    rw [hfields] at hpack
    cases hpack
  | ok result =>
    obtain ⟨bs, rest⟩ := result
    rw [hfields] at hpack
    cases hpack
    obtain ⟨used, vs, rfl, hpacked⟩ := packFields_packed hcov hfields
    -- the format takes every argument
    have hrest : rest = [] := by
      rw [neededArgs_eq, List.length_append, hpacked.arity] at harity
      exact List.eq_nil_of_length_eq_zero (by omega)
    subst hrest
    rw [List.append_nil, (parse_laid h).size_eq]
    exact ⟨vs, hpacked⟩

theorem unpack_packed (hpacked : Packed env cf.endian cf.slots cf.size
    (fun buf => unpackFields env target cf.endian buf cf.fields) values vs out) : unpack env target cf out = .ok vs := by
  have hread := hpacked.reads [] []
  rw [List.append_nil, List.nil_append, List.length_nil, Nat.zero_add] at hread
  unfold unpack unpackFromOffset
  rw [if_neg (fun hne => hne hpacked.size_eq)]
  change ((unpackFields env target cf.endian out cf.fields 0).map _).map _ = _
  rw [hread]
  rfl

/-- A number that its code does not hold fails the call. -/
theorem pack_outOfRange (h : parse target fmt = .ok cf) (hcov : cf.Covered target) {i w : ℕ} {code : Char} {signed : Bool}
    {v : Object Ω} {n : ℤ} (hcode : (valueCodes cf)[i]? = some code) (hshape : intShape cf.endian code = some (w, signed))
    (hv : values[i]? = some v) (hn : requireInt env v = .ok n) (hout : ¬ByteOrder.InRange signed w n) :
    ∃ e, pack env target cf values = .error (.raised e) := by
  cases hpack : pack env target cf values with
  | error e =>
    obtain ⟨x, rfl⟩ := pack_safe e hpack
    exact ⟨x, rfl⟩
  | ok out =>
    exfalso
    obtain ⟨vs, hpacked⟩ := pack_packed h hcov hpack
    rw [valueCodes_eq, List.getElem?_map] at hcode
    obtain ⟨⟨c, k⟩, hslot, rfl⟩ := Option.map_eq_some_iff.1 hcode
    have hnone : stored env cf.endian (c, k) v = none := by
      have hs : c ≠ 's' := by
        rintro rfl
        cases hshape
      have hp : c ≠ 'p' := by
        rintro rfl
        cases hshape
      unfold stored
      rw [if_neg hs, if_neg hp, storedOne_int hshape hn, if_neg hout]
    have hget := congrArg (fun l => l[i]?) hpacked.kept
    simp only [List.getElem?_zipWith, CompiledFormat.slots, hslot, hv, hnone, List.getElem?_map] at hget
    cases hvs : vs[i]? with
    | none =>
      rw [hvs] at hget
      cases hget
    | some v' =>
      rw [hvs] at hget
      cases hget

theorem unpackFromOffset_total (h : parse target fmt = .ok cf) (hcov : cf.Covered target) (env : Env Ω)
    (hfit : off + cf.size ≤ buf.length) : ∃ vs, unpackFromOffset env target cf buf off = .ok (vs, cf.size) := by
  rw [(parse_laid h).size_eq] at hfit ⊢
  obtain ⟨vs, hvs, -⟩ := unpackFields_total env hcov hfit
  refine ⟨vs, ?_⟩
  rw [unpackFromOffset, hvs]
  change Except.ok (vs, _) = _
  rw [Nat.add_sub_cancel_left]

theorem unpack_total (h : parse target fmt = .ok cf) (hcov : cf.Covered target) (env : Env Ω) (hbuf : buf.length = cf.size) :
    ∃ vs, unpack env target cf buf = .ok vs := by
  have hfit : 0 + cf.size ≤ buf.length := by omega
  obtain ⟨vs, hvs⟩ := unpackFromOffset_total h hcov env hfit
  refine ⟨vs, ?_⟩
  rw [unpack, if_neg (fun hne => hne hbuf), hvs]
  rfl

/-- Where nothing is lost in reading, packing what was read gives the buffer again. -/
theorem pack_unpacked (h : parse target fmt = .ok cf) (hcov : cf.Covered target) (hexact : ∀ f ∈ cf.fields, Exact f)
    (hbuf : buf.length = cf.size) (hvs : unpack env target cf buf = .ok vs) : pack env target cf vs = .ok buf := by
  have hsize := (parse_laid h).size_eq
  have hfit : 0 + extent target cf.endian cf.fields ≤ buf.length := by omega
  obtain ⟨vs', hread, hback⟩ := unpackFields_total env hcov hfit
  obtain rfl : vs' = vs := by
    rw [unpack, if_neg (fun hne => hne hbuf), unpackFromOffset, hread] at hvs
    cases hvs
    rfl
  have hpack := hback hexact []
  rw [List.append_nil, List.drop_zero, List.take_of_length_le (by omega)] at hpack
  obtain ⟨used, vs, hused, hpacked⟩ := packFields_packed hcov hpack
  rw [List.append_nil] at hused
  have harity : vs'.length = cf.neededArgs := by
    rw [hused, neededArgs_eq, hpacked.arity]
  rw [pack, if_neg (fun hne => hne harity), hpack]
  rfl

end Formats

section Buffers

variable {fmt : String} {buf : List UInt8} {offset : ℤ} {off bufLen size : ℕ} {op : String} {forPack : Bool}

/-- An offset that is accepted leaves room for the record. -/
theorem resolveBufferOffset_fits (h : resolveBufferOffset offset bufLen size op forPack = .ok off) : off + size ≤ bufLen := by
  unfold resolveBufferOffset at h
  dsimp only at h
  split_ifs at h
  all_goals
    cases h
    omega

theorem resolveBufferOffset_other {op' : String} {forPack' : Bool}
    (h : resolveBufferOffset offset bufLen size op forPack = .ok off) :
    resolveBufferOffset offset bufLen size op' forPack' = .ok off := by
  unfold resolveBufferOffset at h ⊢
  dsimp only at h ⊢
  split_ifs at h ⊢
  · exact h
  · exact h

/-- What `pack_into` writes, `unpack_from` reads at the same offset. -/
theorem unpackFrom_packInto (h : parse target fmt = .ok cf) (hcov : cf.Covered target) {vs : List (Object Ω)} {buf' : List UInt8}
    (hinto : packInto env target cf buf offset vs = .ok buf') : buf'.length = buf.length ∧
      ∃ vs', unpackFrom env target cf buf' offset = .ok vs' ∧ List.zipWith (stored env cf.endian) cf.slots vs = vs'.map some := by
  unfold packInto at hinto
  cases hpack : pack env target cf vs with
  | error e =>
    rw [hpack] at hinto
    cases hinto
  | ok bs =>
    rw [hpack] at hinto
    dsimp only at hinto
    cases hoff : resolveBufferOffset offset buf.length cf.size "pack_into" true with
    | error e =>
      rw [hoff] at hinto
      cases hinto
    | ok off =>
      obtain ⟨vs', hpacked⟩ := pack_packed h hcov hpack
      have hfits := resolveBufferOffset_fits hoff
      have hsize := hpacked.size_eq
      have hlen : (buf.take off).length = off := List.length_take_of_le (by omega)
      rw [hoff] at hinto
      dsimp only at hinto
      rw [slice_take (by omega)] at hinto
      cases hinto
      have hsame : (buf.take off ++ bs ++ buf.drop (off + bs.length)).length = buf.length := by
        rw [List.length_append, List.length_append, hlen, List.length_drop]
        omega
      refine ⟨hsame, vs', ?_, hpacked.kept⟩
      have hread := hpacked.reads (buf.take off) (buf.drop (off + bs.length))
      rw [hlen] at hread
      rw [unpackFrom, hsame, resolveBufferOffset_other hoff]
      dsimp only
      rw [unpackFromOffset, hread]
      rfl

theorem isMultipleOf_iff (n m : ℕ) : isMultipleOf n m = true ↔ m ∣ n := by
  unfold isMultipleOf
  split_ifs with hm
  · rw [hm, Nat.zero_dvd]
    exact beq_iff_eq
  · rw [beq_iff_eq, Nat.dvd_iff_mod_eq_zero]

theorem iterLoop_total (h : parse target fmt = .ok cf) (hcov : cf.Covered target) (env : Env Ω) {k fuel : ℕ}
    (hbuf : off + k * cf.size = buf.length) (hpos : 0 < cf.size) (hfuel : k ≤ fuel) :
    ∃ rows, iterLoop env target cf buf fuel off = .ok rows ∧ rows.length = k ∧
      ∀ i row, rows[i]? = some row → unpackFromOffset env target cf buf (off + i * cf.size) = .ok (row, cf.size) := by
  induction k generalizing off fuel with
  | zero =>
    have hend : ¬off < buf.length := by omega
    refine ⟨[], ?_, rfl, fun i row hrow => by cases hrow⟩
    cases fuel with
    | zero => exact if_neg hend
    | succ fuel => exact if_neg hend
  | succ k ih =>
    rw [Nat.succ_mul] at hbuf
    cases fuel with
    | zero => cases hfuel
    | succ fuel =>
      have hfit : off + cf.size ≤ buf.length := by
        have := Nat.zero_le (k * cf.size)
        omega
      have hmore : off + cf.size + k * cf.size = buf.length := by omega
      obtain ⟨row, hrow⟩ := unpackFromOffset_total h hcov env hfit
      obtain ⟨rows, hrows, hlen, hget⟩ := ih hmore (Nat.le_of_succ_le_succ hfuel)
      refine ⟨row :: rows, ?_, by rw [List.length_cons, hlen], ?_⟩
      · rw [iterLoop, if_pos (by omega), hrow]
        simp only [hrows]
      · intro i row' hi
        cases i with
        | zero =>
          cases hi
          rw [Nat.zero_mul]
          exact hrow
        | succ i =>
          rw [Nat.succ_mul, Nat.add_comm (i * cf.size), ← Nat.add_assoc]
          exact hget i row' hi

theorem iterUnpack_total (h : parse target fmt = .ok cf) (hcov : cf.Covered target) (env : Env Ω) (hdvd : cf.size ∣ buf.length) :
    ∃ rows, iterUnpack env target cf buf = .ok rows ∧ rows.length * cf.size = buf.length ∧
      ∀ i row, rows[i]? = some row → unpackFromOffset env target cf buf (i * cf.size) = .ok (row, cf.size) := by
  rw [iterUnpack, if_pos ((isMultipleOf_iff _ _).2 hdvd)]
  obtain ⟨k, hk⟩ := hdvd
  rcases Nat.eq_zero_or_pos cf.size with hzero | hpos
  · have hnil : buf = [] := List.eq_nil_of_length_eq_zero (by rw [hk, hzero, Nat.zero_mul])
    rw [hnil]
    refine ⟨[], rfl, Nat.zero_mul _, fun i row hrow => ?_⟩
    cases hrow
  · rw [Nat.mul_comm] at hk
    have hle : k ≤ buf.length := by
      rw [hk]
      exact Nat.le_mul_of_pos_right k hpos
    have hbuf : 0 + k * cf.size = buf.length := by rw [Nat.zero_add, hk]
    obtain ⟨rows, hrows, hlen, hget⟩ := iterLoop_total h hcov env hbuf hpos hle
    refine ⟨rows, hrows, by rw [hlen, hk], fun i row hrow => ?_⟩
    have := hget i row hrow
    rwa [Nat.zero_add] at this

end Buffers

section Agreement

/-- What `pack` takes and writes, `unpack`, `unpack_from` and `iter_unpack` read, for every format of
integer, character, truth, pad and string codes. A native `long` of four bytes is left out: it is
written and read with eight. -/
theorem struct_agreement {fmt : String} (h : parse target fmt = .ok cf) (hexact : ∀ f ∈ cf.fields, ¬IsFloat f.code)
    (hlong : ∀ f ∈ cf.fields, 0 < f.count → LongFits target cf.endian f.code) (env : Env Ω) :
    -- one value for each code of `_value_codes`, and `calcsize` bytes
    (∀ vs out, pack env target cf vs = .ok out → vs.length = (valueCodes cf).length ∧ out.length = cf.size) ∧
    -- every value comes back as its code keeps it
    (∀ vs out, pack env target cf vs = .ok out → ∃ vs', unpack env target cf out = .ok vs' ∧
      List.zipWith (stored env cf.endian) cf.slots vs = vs'.map some) ∧
    (∀ (vs : List (Object Ω)) (i : ℕ) code w signed v n, (valueCodes cf)[i]? = some code → intShape cf.endian code = some (w, signed) →
      vs[i]? = some v → requireInt env v = .ok n → ¬ByteOrder.InRange signed w n →
      ∃ e, pack env target cf vs = .error (.raised e)) ∧
    -- whatever the bytes are, they are read
    (∀ buf, buf.length = cf.size → ∃ vs, unpack env target cf buf = .ok vs) ∧
    (∀ buf offset off, resolveBufferOffset offset buf.length cf.size "unpack_from" false = .ok off →
      ∃ vs, unpackFrom env target cf buf offset = .ok vs ∧ unpackFromOffset env target cf buf off = .ok (vs, cf.size)) ∧
    (∀ buf, cf.size ∣ buf.length → ∃ rows, iterUnpack env target cf buf = .ok rows ∧ rows.length * cf.size = buf.length ∧
      ∀ (i : ℕ) row, rows[i]? = some row → unpackFromOffset env target cf buf (i * cf.size) = .ok (row, cf.size)) ∧
    ((∀ f ∈ cf.fields, f.code ≠ '?' ∧ f.code ≠ 'p' ∧ f.code ≠ 'x') → ∀ buf, buf.length = cf.size →
      ∃ vs, unpack env target cf buf = .ok vs ∧ pack env target cf vs = .ok buf) ∧
    -- where the platform aligns, so does the format
    (cf.endian = .native → ∀ before f after, cf.fields = before ++ f :: after →
      nativeAlign target f.code ∣ extent target cf.endian before) := by
  have hcov := covered_of_parse h hexact hlong
  refine ⟨?_, ?_, ?_, ?_, ?_, ?_, ?_, ?_⟩
  · intro vs out hpack
    obtain ⟨vs', hpacked⟩ := pack_packed h hcov hpack
    rw [valueCodes_eq, List.length_map]
    exact ⟨hpacked.arity, hpacked.size_eq⟩
  · intro vs out hpack
    obtain ⟨vs', hpacked⟩ := pack_packed h hcov hpack
    exact ⟨vs', unpack_packed hpacked, hpacked.kept⟩
  · intro vs i code w signed v n hcode hshape hv hn hout
    exact pack_outOfRange h hcov hcode hshape hv hn hout
  · intro buf hbuf
    exact unpack_total h hcov env hbuf
  · intro buf offset off hoff
    obtain ⟨vs, hvs⟩ := unpackFromOffset_total h hcov env (resolveBufferOffset_fits hoff)
    refine ⟨vs, ?_, hvs⟩
    rw [unpackFrom, hoff]
    dsimp only
    rw [hvs]
    rfl
  · intro buf hdvd
    exact iterUnpack_total h hcov env hdvd
  · intro hcodes buf hbuf
    obtain ⟨vs, hvs⟩ := unpack_total h hcov env hbuf
    refine ⟨vs, hvs, pack_unpacked h hcov ?_ hbuf hvs⟩
    intro f hf
    obtain ⟨hbool, hpascal, hpad⟩ := hcodes f hf
    exact ⟨hbool, hpascal, hpad⟩
  · exact (parse_laid h).aligned

/-- No values but the plain ones, and no floating point. -/
def plainEnv : Env Empty where
  isTruthy o := nomatch o
  typeName o := nomatch o
  tryCoerceIndex o := nomatch o
  writeFloat _ _ _ := .error (.typeError "must be real number")
  readFloat _ _ _ := .bool false

def lp64 : Target := ⟨.little, true⟩

def llp64 : Target := ⟨.little, false⟩

def shorts : CompiledFormat := ⟨.native, [⟨'b', 1⟩, ⟨'x', 1⟩, ⟨'h', 1⟩, ⟨'s', 2⟩], 6⟩

theorem struct_agreement_shorts : parse lp64 "b h 2s" = .ok shorts ∧
    ∀ buf, buf.length = 6 → ∃ vs, unpack plainEnv lp64 shorts buf = .ok vs := by
  have hparse : parse lp64 "b h 2s" = .ok shorts := by decide +kernel
  have hexact : ∀ f ∈ shorts.fields, ¬IsFloat f.code := by
    unfold IsFloat
    decide
  have hlong : ∀ f ∈ shorts.fields, 0 < f.count → LongFits lp64 shorts.endian f.code := fun _ _ _ _ _ => rfl
  exact ⟨hparse, (struct_agreement hparse hexact hlong plainEnv).2.2.2.1⟩

/-- A number packed as a truth value comes back as one, and a `long` of four bytes takes eight. -/
theorem truth_and_long :
    ¬(∀ cf vs out, parse lp64 "?" = .ok cf → pack plainEnv lp64 cf vs = .ok out → unpack plainEnv lp64 cf out = .ok vs) ∧
    ¬(∀ cf vs out, parse llp64 "l" = .ok cf → pack plainEnv llp64 cf vs = .ok out → out.length = cf.size) := by
  constructor
  · intro h
    have hback := h ⟨.native, [⟨'?', 1⟩], 1⟩ [.int 5] [1] (by decide +kernel) (by decide +kernel)
    exact absurd hback (by decide +kernel)
  · intro h
    have hlen := h ⟨.native, [⟨'l', 1⟩], 4⟩ [.int 1] [1, 0, 0, 0, 0, 0, 0, 0] (by decide +kernel) (by decide +kernel)
    exact absurd hlen (by decide)

end Agreement

end WeavePy.Struct
