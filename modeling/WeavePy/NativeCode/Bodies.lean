import WeavePy.NativeCode.Fields

/-!
A code object's identifiers, tables, body and header read back.
-/

namespace WeavePy.NativeCode

open ByteReader Writer

section Names

variable {α : Type} {m : Module} {x : Write} {r : ByteReader α} {Q : List α → Prop} {n : ℕ}

/-- A write of at least `n` bytes. -/
def AtLeast (n : ℕ) (x : Write) : Prop := ∀ p b p', x p = some (b, p') → n ≤ b.length

theorem wrote_counted (hn : AtLeast n x) (h : Wrote m x (many r n) Q) :
    Wrote m (seq [pure (Writer.uint n), x]) (Reader.list r) Q := by
  intro p b p' hrun hp hm
  obtain ⟨u, b', q, hu, hrest, rfl⟩ := seq_cons hrun
  obtain ⟨w, e, q', hx, he, rfl⟩ := seq_cons hrest
  cases hu
  cases he
  rw [List.append_nil]
  exact reads_counted hm.small (hn p w p' hx) (h p w p' hx hp hm)

theorem name_run {s : String} {p p' : Pool} {b : List UInt8} (h : name s p = some (b, p')) :
    (∃ i, p.numbers s = some i ∧ b = Writer.uint i.toNat ∧ p' = p) ∨
      (p.numbers s = none ∧ b = Writer.uint p.names.length.toUInt32.toNat ∧
        p' = { p with numbers := Function.update p.numbers s (some p.names.length.toUInt32), names := p.names ++ [s] }) := by
  unfold name at h
  cases hs : p.numbers s with
  | some i =>
    rw [hs] at h
    cases h
    exact .inl ⟨i, rfl, rfl, rfl⟩
  | none =>
    rw [hs] at h
    cases h
    exact .inr ⟨rfl, rfl, rfl⟩

@[simp]
theorem grows_name (s : String) : Grows (name s) := by
  intro p b p' h
  rcases name_run h with ⟨i, -, -, rfl⟩ | ⟨hs, -, rfl⟩
  · exact ⟨.refl _, fun hp _ => hp⟩
  · refine ⟨⟨List.prefix_append _ _, List.prefix_rfl⟩, fun hp hsmall => ?_⟩
    intro t j hj
    simp only [List.length_append, List.length_cons, List.length_nil] at hsmall
    dsimp only at hj
    rcases eq_or_ne t s with rfl | hne
    · rw [Function.update_self] at hj
      cases hj
      have hlen : p.names.length.toUInt32.toNat = p.names.length := by
        rw [UInt32.toNat_ofNat']
        omega
      simp [hlen]
    · rw [Function.update_of_ne hne] at hj
      have hold := hp t j hj
      rw [List.getElem?_append_left (List.getElem?_eq_some_iff.mp hold).1]
      exact hold

/-- An identifier's number gets it from the identifier section. -/
theorem wrote_number (s : String) : Wrote m (name s) Reader.uint fun i => m.identifier i = some s := by
  intro p b p' h hp hm
  rcases name_run h with ⟨i, hi, rfl, rfl⟩ | ⟨hs, rfl, rfl⟩
  · have hlt := i.toNat_lt
    refine (reads_uint (by omega)).mono fun a ha => ?_
    subst ha
    exact hm.names _ _ (hp s i hi)
  · have hfew := hm.few
    simp only [List.length_append, List.length_cons, List.length_nil] at hfew
    have hlen : p.names.length.toUInt32.toNat = p.names.length := by
      rw [UInt32.toNat_ofNat']
      omega
    rw [hlen]
    refine (reads_uint (by omega)).mono fun a ha => ?_
    subst ha
    exact hm.names _ _ (by simp)

theorem wrote_name (s : String) : Wrote m (name s) (Reader.name m) (· = s) := by
  intro p b p' h hp hm
  exact (wrote_number s p b p' h hp hm).bind_last fun i hi => Reads.lift hi rfl

theorem atLeast_name (s : String) : AtLeast 1 (name s) := by
  intro p b p' h
  rcases name_run h with ⟨i, -, rfl, -⟩ | ⟨-, rfl, -⟩
  · exact Varint.encode_pos _
  · exact Varint.encode_pos _

theorem atLeast_cons {xs : List Write} {k : ℕ} (hx : AtLeast n x) (hxs : AtLeast k (seq xs)) :
    AtLeast (n + k) (seq (x :: xs)) := by
  intro p b p' h
  obtain ⟨a, c, q, hxrun, hxsrun, rfl⟩ := seq_cons h
  rw [List.length_append]
  exact Nat.add_le_add (hx p a q hxrun) (hxs q c p' hxsrun)

theorem grows_map_name (v : List String) : Grows (seq (v.map name)) := by
  simp

theorem atLeast_map_name (v : List String) : AtLeast v.length (seq (v.map name)) := by
  induction v with
  | nil => exact fun _ _ _ _ => Nat.zero_le _
  | cons s v ih =>
    rw [List.length_cons, Nat.add_comm]
    exact atLeast_cons (atLeast_name s) ih

theorem wrote_map_name (v : List String) : Wrote m (seq (v.map name)) (many (Reader.name m) v.length) (· = v) := by
  induction v with
  | nil => exact Wrote.nil rfl
  | cons s v ih =>
    refine Wrote.cons (wrote_name s) (grows_name s) (grows_map_name v) fun a ha => ?_
    subst ha
    intro p b p' h hp hm
    refine (ih p b p' h hp hm).bind_pure fun l hl => ?_
    subst hl
    rfl

@[simp]
theorem grows_names (v : List String) : Grows (names v) := by
  simp [names]

theorem wrote_names (v : List String) : Wrote m (names v) (Reader.names m) (· = v) :=
  wrote_counted (atLeast_map_name v) (wrote_map_name v)

end Names

section Tables

variable {m : Module}

/-- The bytes of the range. -/
def Encoded.text (e : Encoded) (bytes : List UInt8) : List UInt8 := (bytes.drop e.start).take (e.stop - e.start)

@[simp]
theorem grows_table (t : List UInt8) : Grows (table t) := by
  intro p b p' h
  cases h
  exact ⟨⟨List.prefix_rfl, List.prefix_append _ _⟩, fun hp _ => hp⟩

@[simp]
theorem grows_lift_table (o : Option (List UInt8)) : Grows (StateT.lift o >>= table) := by
  intro p b p' h
  obtain ⟨⟨t, q⟩, ht, h⟩ := Option.bind_eq_some_iff.mp h
  obtain ⟨t', -, ht⟩ := Option.bind_eq_some_iff.mp ht
  cases ht
  exact grows_table t p b p' h

theorem wrote_table (t : List UInt8) :
    Wrote m (table t) (Reader.table m) fun e => e.text m.bytes = t ∧ (e.start = e.stop ↔ t = []) := by
  intro p b p' h _ hm
  cases h
  have hslice := hm.tables.right
  have hle := hm.tables.le
  have hsmall := hm.small
  rw [List.length_append] at hle
  refine (reads_uint (by omega)).bind fun start hstart => (reads_uint (by omega)).bind_last fun len hlen => ?_
  subst hstart hlen
  refine Reads.lift (a := ⟨p.tables.length + m.tablesAt, p.tables.length + m.tablesAt + t.length⟩) ?_ ⟨?_, ?_⟩
  · exact if_pos ⟨by omega, by omega, by omega⟩
  · rw [Encoded.text, Nat.add_sub_cancel_left, Nat.add_comm p.tables.length]
    exact hslice.take_drop
  · simp

theorem wrote_lift_table (o : Option (List UInt8)) :
    Wrote m (StateT.lift o >>= table) (Reader.table m) fun e =>
      ∃ t, o = some t ∧ e.text m.bytes = t ∧ (e.start = e.stop ↔ t = []) := by
  intro p b p' h hp hm
  obtain ⟨⟨t, q⟩, ht, h⟩ := Option.bind_eq_some_iff.mp h
  obtain ⟨t', ho, ht⟩ := Option.bind_eq_some_iff.mp ht
  cases ht
  exact (wrote_table t p b p' h hp hm).mono fun e he => ⟨t, ho, he⟩

end Tables

section Bodies

variable {m : Module} {big : BigIntBytes} {c : FullInfo} {n : ℕ} {constants : Write} {P : List LazyConstant → Prop}

/-- The body with its tables decoded. -/
def Info.expand (bytes : List UInt8) (c : LazyInfo) : Option FullInfo := do
  let linetable ← Reader.decodeLinetable (c.linetable.text bytes)
  let coltable ← Reader.decodeColtable (c.coltable.text bytes)
  let wireMarks ← c.wireMarks.elim (some []) fun e => Reader.decodeWireMarks (e.text bytes)
  return ⟨c.instructions, c.names, c.varnames, c.freevars, c.cellvars, c.exceptionTable, linetable, coltable, wireMarks,
    c.noInterruptJumps, c.hiddenLocals, c.constIdentifiers, c.wire⟩

/-- The tables are no longer than a reader takes. -/
structure Info.Fits (c : FullInfo) : Prop where
  linetable : c.linetable.length ≤ MAX_TABLE_LEN
  coltable : c.coltable.length ≤ MAX_TABLE_LEN
  wireMarks : c.wireMarks.length ≤ MAX_TABLE_LEN

@[simp]
theorem grows_body (hg : Grows constants) : Grows (body c n constants) := by
  unfold body
  simp [hg]

theorem wireMarks_ne_nil {marks w : List UInt8} (h : wireMarks marks = some w) : w ≠ [] := by
  obtain ⟨w', -, rfl⟩ := Option.map_eq_some_iff.mp h
  have := Varint.encode_pos marks.length
  intro hnil
  rw [List.append_eq_nil_iff] at hnil
  rw [Writer.uint] at hnil
  simp [hnil.1] at this

theorem wrote_body (hfits : c.Fits) (hwire : c.wire = false) (hn : AtLeast n constants) (hg : Grows constants)
    (hc : Wrote m constants (many (Reader.constant big m m.bytes.length 0) n) P) :
    Wrote m (body c n constants) (Reader.body big m) fun v => v.1.expand m.bytes = some c ∧ P v.2 := by
  have hinstr : ∀ ins : Instruction, 0 < (Writer.instruction ins).length := fun ins => Nat.succ_pos _
  refine Wrote.cons (wrote_pure fun hs => reads_list hs hinstr reads_instruction _) (by simp) (by simp [hg])
    fun instructions h₁ => ?_
  refine Wrote.cons (wrote_counted hn hc) (by simp [hg]) (by simp) fun ks hks => ?_
  refine Wrote.cons (wrote_names _) (by simp) (by simp) fun names h₂ => ?_
  refine Wrote.cons (wrote_names _) (by simp) (by simp) fun varnames h₃ => ?_
  refine Wrote.cons (wrote_names _) (by simp) (by simp) fun freevars h₄ => ?_
  refine Wrote.cons (wrote_names _) (by simp) (by simp) fun cellvars h₅ => ?_
  refine Wrote.cons (wrote_pure fun hs => reads_list hs handler_pos reads_handler _) (by simp) (by simp)
    fun handlers h₆ => ?_
  refine Wrote.cons (wrote_table _) (by simp) (by simp) fun lines hlines => ?_
  refine Wrote.cons (wrote_lift_table _) (by simp) (by simp) fun cols hcols => ?_
  refine Wrote.cons (wrote_pure fun hs => reads_u32s hs _) (by simp) (by simp) fun jumps h₇ => ?_
  refine Wrote.cons (wrote_lift_table _) (by simp) (by simp) fun marks hmarks => ?_
  refine Wrote.cons (wrote_pure fun hs => reads_strs hs _) (by simp) (by simp) fun hidden h₈ => ?_
  refine Wrote.cons (wrote_pure fun hs => reads_strs hs _) (by simp) (by simp) fun idents h₉ => Wrote.nil ⟨?_, hks⟩
  subst h₁ h₂ h₃ h₄ h₅ h₆ h₇ h₈ h₉
  obtain ⟨cols', hcols', hcolstext, -⟩ := hcols
  have hline : Reader.decodeLinetable (lines.text m.bytes) = some c.linetable := by
    rw [hlines.1]
    exact decode_lineRuns _ hfits.linetable
  have hcol : Reader.decodeColtable (cols.text m.bytes) = some c.coltable := by
    rw [hcolstext]
    exact decode_colRuns hfits.coltable hcols'
  have hmark : (if marks.start = marks.stop then none else some marks).elim (some []) (fun e =>
      Reader.decodeWireMarks (e.text m.bytes)) = some c.wireMarks := by
    obtain ⟨w, hw, htext, hempty⟩ := hmarks
    split_ifs at hw with hnone
    · cases hw
      rw [if_pos (hempty.mpr rfl), hnone]
      rfl
    · rw [if_neg fun h => wireMarks_ne_nil hw (hempty.mp h), Option.elim_some, htext]
      exact decode_wireMarks hfits.wireMarks hw
  obtain ⟨⟩ := c
  simp only [Info.expand, hline, hcol, hmark, Option.pure_def, Option.bind_eq_bind, Option.bind_some] at hwire ⊢
  rw [hwire]

end Bodies

section Headers

variable {m : Module} {big : BigIntBytes} {h : Header} {c : FullInfo} {n : ℕ} {constants : Write}
  {P : LazyInfo × List LazyConstant → Prop}

/-- The header has the module's filename, and room for one more than its stack size. -/
structure Header.Fits (filename : String) (h : Header) : Prop where
  filename : h.filename = filename
  stacksize : ∀ s, h.stacksize = some s → s.toNat + 1 < 2 ^ 32

@[simp]
theorem grows_bytes {x : Write} (hx : Grows x) : Grows (Writer.bytes <$> x) := by
  intro p b p' h
  obtain ⟨⟨w, q⟩, hw, h⟩ := Option.bind_eq_some_iff.mp h
  cases h
  exact hx p w p' hw

theorem grows_code (hg : Grows constants) : Grows (Writer.code h c n constants) := by
  unfold Writer.code
  split_ifs
  · simp
  · simp [grows_bytes (grows_body hg)]

/-- A block read from where the reader passes over it. -/
theorem wrote_block {β γ : Type} {x : Write} {r : ByteReader β} {P : β → Prop} {g : ℕ → γ} {Q : γ → Prop}
    (hx : Wrote m x r P) (hQ : ∀ at_ v pos, r m.bytes at_ = some (v, pos) → P v → Q (g at_)) :
    Wrote m (Writer.bytes <$> x) (do
      let n ← Reader.len
      let at_ ← position
      lift (if at_ < 2 ^ 32 then some () else none)
      let _ ← raw n
      return g at_) Q := by
  intro p b p' h hp hm
  obtain ⟨⟨w, q⟩, hw, h⟩ := Option.bind_eq_some_iff.mp h
  cases h
  have hread := hx p w p' hw hp hm
  have hsmall := hm.small
  refine Reads.of_le fun hle => ?_
  rw [Writer.bytes, List.length_append] at hle
  unfold Reader.len
  rw [bind_assoc]
  refine (reads_uint (by omega)).bind fun a ha => ?_
  subst ha
  refine Reads.bounded_bind le_rfl ?_
  intro pos hs
  have hpos := hs.le
  obtain ⟨v, hv, hPv⟩ := hread pos hs
  obtain ⟨w', hraw, rfl⟩ := reads_raw w pos hs
  refine ⟨g pos, ?_, hQ pos v _ hv hPv⟩
  have hin : (if pos < 2 ^ 32 then some () else none) = some () := if_pos (by omega)
  change ((if pos < 2 ^ 32 then some () else none).map fun a => (a, pos)).bind (fun p =>
    (raw w'.length m.bytes p.2).bind fun t => some (g pos, t.2)) = _
  rw [hin, Option.map_some, Option.bind_some, hraw]
  rfl

theorem Wrote.single {β : Type} {x : Write} {r : ByteReader β} {Q : β → Prop} (hx : Wrote m x r Q) :
    Wrote m (seq [x]) r Q := by
  intro p b p' h hp hm
  obtain ⟨a, c, q, hxrun, hnil, rfl⟩ := seq_cons h
  cases hnil
  rw [List.append_nil]
  exact hx p a p' hxrun hp hm

theorem reads_stacksize {bytes : List UInt8} {n : ℕ} (hn : n < 2 ^ 32) :
    Reads bytes (Writer.uint n) Reader.u32 fun s => s.toNat = n := by
  have hcast : n.toUInt32.toNat = n := by
    rw [UInt32.toNat_ofNat']
    omega
  have hread : Reads bytes (Writer.uint n.toUInt32.toNat) Reader.u32 (· = n.toUInt32) := reads_u32 _
  rw [hcast] at hread
  exact hread.mono fun s hs => hs ▸ hcast

theorem stacksize_eq {s : UInt32} {o : Option UInt32} (hs : s.toNat = o.elim 0 fun t => t.toNat + 1)
    (hfits : ∀ t, o = some t → t.toNat + 1 < 2 ^ 32) : (if s = 0 then none else some (s - 1)) = o := by
  cases o with
  | none =>
    have hzero : s = 0 := UInt32.toNat_inj.mp hs
    exact if_pos hzero
  | some t =>
    have hsucc : s.toNat = t.toNat + 1 := hs
    have hne : s ≠ 0 := by
      rintro rfl
      simp at hsucc
    have hle : (1 : UInt32) ≤ s := by
      rw [UInt32.le_iff_toNat_le, hsucc]
      simp
    rw [if_neg hne]
    congr 1
    rw [← UInt32.toNat_inj, UInt32.toNat_sub_of_le _ _ hle, hsucc]
    rfl

/-- A code object's header reads back, and its body from where it is. -/
theorem wrote_code {depth : ℕ} (hdepth : depth ≤ MAX_NESTING) (hfits : h.Fits m.filename) (hg : Grows constants)
    (hbody : c.wire = false → Wrote m (body c n constants) (Reader.body big m) P) :
    Wrote m (Writer.code h c n constants) (Reader.code m depth) fun v =>
      v.1 = h ∧ ∃ b, Reader.decodeBody big m v.2 = some b ∧ P b := by
  cases hwire : c.wire with
  | true =>
    intro p b p' hrun _ _
    rw [Writer.code, if_pos hwire] at hrun
    cases hrun
  | false =>
    have hu32 : ∀ v : UInt32, m.bytes.length < 2 ^ 32 → Reads m.bytes (Writer.uint v.toNat) Reader.u32 (· = v) :=
      fun v _ => reads_u32 v
    have hstack : h.stacksize.elim 0 (fun s => s.toNat + 1) < 2 ^ 32 := by
      cases hs : h.stacksize with
      | none => exact Nat.two_pow_pos 32
      | some s => exact hfits.stacksize s hs
    have hblock : Grows (Writer.bytes <$> body c n constants) := grows_bytes (grows_body hg)
    have hbits : packFlags (flags h) < 2 ^ 64 := packFlags_lt (by simp [flags])
    unfold Writer.code
    rw [hwire, if_neg (by decide)]
    refine Wrote.lift_bind (a := ()) (if_neg (by omega)) ?_
    refine Wrote.cons (wrote_number h.name) (by simp) (by simp [hblock]) fun nameAt hname => Wrote.lift_bind hname ?_
    refine Wrote.cons (wrote_number h.qualname) (by simp) (by simp [hblock]) fun qualAt hqual => ?_
    have hqual' : (if qualAt = nameAt then some h.name else m.identifier qualAt) = some h.qualname := by
      split_ifs with heq
      · rw [← hname, ← heq, hqual]
      · exact hqual
    refine Wrote.lift_bind hqual' ?_
    refine Wrote.cons (wrote_pure (hu32 _)) (by simp) (by simp [hblock]) fun argCount h₁ => ?_
    refine Wrote.cons (wrote_pure (hu32 _)) (by simp) (by simp [hblock]) fun posonlyCount h₂ => ?_
    refine Wrote.cons (wrote_pure (hu32 _)) (by simp) (by simp [hblock]) fun kwonlyCount h₃ => ?_
    refine Wrote.cons (wrote_pure fun _ => reads_uint hbits) (by simp) (by simp [hblock]) fun bits h₄ => ?_
    refine Wrote.cons (wrote_pure (hu32 _)) (by simp) (by simp [hblock]) fun futureFlags h₅ => ?_
    refine Wrote.cons (wrote_pure fun _ => reads_stacksize hstack) (by simp) (by simp [hblock]) fun stacksize h₆ => ?_
    refine Wrote.single (wrote_block (hbody hwire) fun at_ v pos hrun hv => ⟨?_, v, ?_, hv⟩)
    · subst h₁ h₂ h₃ h₄
      simp only [flag_packFlags]
      rw [h₅, stacksize_eq h₆ hfits.stacksize, ← hfits.filename]
      rfl
    · rw [Reader.decodeBody, hrun]
      rfl

end Headers

end WeavePy.NativeCode
