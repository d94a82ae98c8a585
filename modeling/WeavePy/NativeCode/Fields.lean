import WeavePy.NativeCode.Tables
import Mathlib.Tactic.NormNum

/-!
What a write adds to the module's pool, and when a reader reads it back against the finished module.
-/

namespace WeavePy.NativeCode

open ByteReader Writer

section Pools

/-- The numbers handed out are the places of their identifiers. -/
def Writer.Pool.Known (p : Pool) : Prop := ∀ s i, p.numbers s = some i → p.names[i.toNat]? = some s

structure Writer.Pool.Grown (p p' : Pool) : Prop where
  names : p.names <+: p'.names
  tables : p.tables <+: p'.tables

theorem Writer.Pool.Grown.refl (p : Pool) : p.Grown p := ⟨List.prefix_rfl, List.prefix_rfl⟩

theorem Writer.Pool.Grown.trans {p p' p'' : Pool} (h : p.Grown p') (h' : p'.Grown p'') : p.Grown p'' :=
  ⟨h.names.trans h'.names, h.tables.trans h'.tables⟩

/-- The module's sections begin with what the pool holds. -/
structure Module.Covers (m : Module) (p : Pool) : Prop where
  small : m.bytes.length < 2 ^ 32
  few : p.names.length < 2 ^ 32
  names : ∀ i s, p.names[i]? = some s → m.identifier i = some s
  tables : Slice m.bytes m.tablesAt p.tables

theorem Module.Covers.mono {m : Module} {p p' : Pool} (h : m.Covers p') (hg : p.Grown p') : m.Covers p := by
  obtain ⟨names, hnames⟩ := hg.names
  obtain ⟨tables, htables⟩ := hg.tables
  have hfew := h.few
  rw [← hnames, List.length_append] at hfew
  refine ⟨h.small, by omega, fun i s hi => h.names i s ?_, ?_⟩
  · rw [← hnames, List.getElem?_append_left (List.getElem?_eq_some_iff.mp hi).1]
    exact hi
  · have := h.tables
    rw [← htables] at this
    exact this.left

end Pools

section Writes

variable {α β : Type} {m : Module} {x : Write} {xs : List Write} {r : ByteReader α} {f : α → ByteReader β}
  {P : α → Prop} {Q : β → Prop} {b : List UInt8}

/-- The pool only grows, and stays known while numbers fit. -/
def Grows (x : Write) : Prop := ∀ p b p', x p = some (b, p') →
  p.Grown p' ∧ (p.Known → p'.names.length < 2 ^ 32 → p'.Known)

/-- What the write appends, the reader reads back. -/
def Wrote (m : Module) (x : Write) (r : ByteReader α) (P : α → Prop) : Prop :=
  ∀ p b p', x p = some (b, p') → p.Known → m.Covers p' → Reads m.bytes b r P

theorem seq_cons {p p' : Pool} (h : seq (x :: xs) p = some (b, p')) :
    ∃ a c q, x p = some (a, q) ∧ seq xs q = some (c, p') ∧ b = a ++ c := by
  obtain ⟨⟨a, q⟩, hx, h⟩ := Option.bind_eq_some_iff.mp h
  obtain ⟨⟨c, q'⟩, hxs, h⟩ := Option.bind_eq_some_iff.mp h
  cases h
  exact ⟨a, c, q, hx, hxs, rfl⟩

@[simp]
theorem grows_pure (b : List UInt8) : Grows (pure b) := by
  intro p b' p' h
  cases h
  exact ⟨.refl p, fun hk _ => hk⟩

@[simp]
theorem grows_lift (o : Option (List UInt8)) : Grows (StateT.lift o) := by
  intro p b' p' h
  obtain ⟨a, -, h⟩ := Option.bind_eq_some_iff.mp h
  cases h
  exact ⟨.refl p, fun hk _ => hk⟩

@[simp]
theorem grows_seq (h : ∀ x ∈ xs, Grows x) : Grows (seq xs) := by
  induction xs with
  | nil => exact grows_pure []
  | cons x xs ih =>
    intro p b p' hrun
    obtain ⟨a, c, q, hx, hxs, -⟩ := seq_cons hrun
    obtain ⟨hg, hk⟩ := h x (by simp) p a q hx
    obtain ⟨hg', hk'⟩ := ih (fun y hy => h y (by simp [hy])) q c p' hxs
    refine ⟨hg.trans hg', fun hp hsmall => hk' (hk hp ?_) hsmall⟩
    exact hg'.names.length_le.trans_lt hsmall

theorem Wrote.nil {a : β} (ha : Q a) : Wrote m (seq []) (pure a) Q := by
  intro p b p' h _ _
  cases h
  exact Reads.pure ha

theorem Wrote.cons (hx : Wrote m x r P) (hgx : Grows x) (hgxs : Grows (seq xs))
    (hxs : ∀ a, P a → Wrote m (seq xs) (f a) Q) : Wrote m (seq (x :: xs)) (r >>= f) Q := by
  intro p b p' hrun hp hm
  obtain ⟨a, c, q, hxrun, hxsrun, rfl⟩ := seq_cons hrun
  obtain ⟨hg, hk⟩ := hgx p a q hxrun
  have hg' := (hgxs q c p' hxsrun).1
  have hq := hm.mono hg'
  exact (hx p a q hxrun hp hq).bind fun v hv => hxs v hv q c p' hxsrun (hk hp hq.few) hm

theorem Wrote.lift_bind {a : α} {o : Option α} (ho : o = some a) (h : Wrote m x (f a) Q) :
    Wrote m x (lift o >>= f) Q := fun p b p' hrun hp hm => Reads.lift_bind ho (h p b p' hrun hp hm)

theorem Wrote.mono {P' : α → Prop} (h : Wrote m x r P) (hP : ∀ a, P a → P' a) : Wrote m x r P' :=
  fun p b p' hrun hp hm => (h p b p' hrun hp hm).mono hP

theorem wrote_pure (h : m.bytes.length < 2 ^ 32 → Reads m.bytes b r P) : Wrote m (pure b) r P := by
  intro p b' p' hrun _ hm
  cases hrun
  exact h hm.small

end Writes

end WeavePy.NativeCode

/-!
The fields of a code object read back.
-/

namespace WeavePy.NativeCode

open ByteReader LittleEndian Writer

section Numbers

variable {bytes : List UInt8}

theorem reads_u32 (v : UInt32) : Reads bytes (Writer.uint v.toNat) Reader.u32 (· = v) := by
  have hv := v.toNat_lt
  refine (reads_uint (by omega)).bind_last fun a ha => ?_
  subst ha
  rw [if_pos hv]
  exact Reads.pure (by simp)

theorem reads_le64 (x : UInt64) : Reads bytes (toLe 8 x.toNat) Reader.le64 (· = x) := by
  have hlen : (toLe 8 x.toNat).length = 8 := length_toLe 8 x.toNat
  have hraw : Reads bytes (toLe 8 x.toNat) (raw (toLe 8 x.toNat).length) (· = toLe 8 x.toNat) := reads_raw _
  rw [hlen] at hraw
  refine hraw.bind_pure fun b hb => ?_
  subst hb
  rw [ofLe_toLe x.toNat_lt]
  simp

end Numbers

section Lists

variable {α : Type} {bytes w : List UInt8} {r : ByteReader α} {item : α → List UInt8} {Q : List α → Prop} {n : ℕ}

/-- What does not fit the input is not read from it. -/
theorem Reads.of_le {P : α → Prop} (h : w.length ≤ bytes.length → Reads bytes w r P) : Reads bytes w r P :=
  fun pos hs => h ((Nat.le_add_left _ pos).trans hs.le) pos hs

theorem reads_counted (hsmall : bytes.length < 2 ^ 32) (hn : n ≤ w.length) (h : Reads bytes w (many r n) Q) :
    Reads bytes (Writer.uint n ++ w) (Reader.list r) Q := by
  refine Reads.of_le fun hle => ?_
  rw [List.length_append] at hle
  unfold Reader.list Reader.len
  rw [bind_assoc]
  refine (reads_uint (by omega)).bind fun a ha => ?_
  subst ha
  exact Reads.bounded_bind hn h

theorem length_le_flatten {v : List α} (hpos : ∀ a, 0 < (item a).length) : v.length ≤ (v.map item).flatten.length := by
  induction v with
  | nil => exact Nat.zero_le 0
  | cons a v ih =>
    have := hpos a
    rw [List.map_cons, List.flatten_cons, List.length_append, List.length_cons]
    omega

theorem reads_list (hsmall : bytes.length < 2 ^ 32) (hpos : ∀ a, 0 < (item a).length)
    (h : ∀ a, Reads bytes (item a) r (· = a)) (v : List α) :
    Reads bytes (Writer.list item v) (Reader.list r) (· = v) := by
  have hall : List.Forall₂ (fun a w => Reads bytes w r (· = a)) v (v.map item) := by
    rw [List.forall₂_map_right_iff]
    exact List.forall₂_same.mpr fun a _ => h a
  refine reads_counted hsmall (length_le_flatten hpos) ((reads_many hall).mono fun l hl => ?_)
  exact (List.forall₂_eq_eq_eq ▸ hl.imp fun _ _ => Eq.symm : v = l).symm

theorem reads_u32s (hsmall : bytes.length < 2 ^ 32) (v : List UInt32) :
    Reads bytes (Writer.u32s v) Reader.u32s (· = v) := by
  have hpos : ∀ x : UInt32, 0 < (Writer.uint x.toNat).length := fun x => Varint.encode_pos x.toNat
  exact reads_list hsmall hpos reads_u32 v

theorem reads_bytes (hsmall : bytes.length < 2 ^ 32) (b : List UInt8) :
    Reads bytes (Writer.bytes b) Reader.rawBytes (· = b) := by
  refine Reads.of_le fun hle => ?_
  rw [Writer.bytes, List.length_append] at hle
  unfold Reader.rawBytes Reader.len
  rw [bind_assoc]
  refine (reads_uint (by omega)).bind fun a ha => ?_
  subst ha
  exact Reads.bounded_bind le_rfl (reads_raw b)

theorem reads_string (hsmall : bytes.length < 2 ^ 32) (s : String) :
    Reads bytes (Writer.bytes (utf8 s)) Reader.string (· = s) := by
  refine (reads_bytes hsmall (utf8 s)).bind_last fun b hb => ?_
  subst hb
  exact Reads.lift (fromUtf8_utf8 s) rfl

theorem bytes_pos (b : List UInt8) : 0 < (Writer.bytes b).length := by
  have := Varint.encode_pos b.length
  simp only [Writer.bytes, Writer.uint, List.length_append]
  omega

theorem reads_strs (hsmall : bytes.length < 2 ^ 32) (v : List String) :
    Reads bytes (Writer.strs v) Reader.strs (· = v) :=
  reads_list hsmall (fun s => bytes_pos (utf8 s)) (reads_string hsmall) v

end Lists

section Records

variable {bytes : List UInt8}

theorem reads_instruction (ins : Instruction) : Reads bytes (Writer.instruction ins) Reader.instruction (· = ins) := by
  obtain ⟨op, arg⟩ := ins
  refine (reads_byte op.toU8).bind fun b hb => ?_
  subst hb
  refine Reads.lift_bind (a := op) (OpCode.fromU8_toU8 op) ?_
  refine (reads_u32 arg).bind_pure fun a ha => ?_
  subst ha
  rfl

theorem reads_handler (h : ExcHandler) : Reads bytes (Writer.handler h) Reader.handler (· = h) := by
  obtain ⟨start, stop, handler, depth, pushLasti⟩ := h
  simp only [Writer.handler, List.append_assoc]
  refine (reads_u32 start).bind fun a ha => ?_
  refine (reads_u32 stop).bind fun b hb => ?_
  refine (reads_u32 handler).bind fun c hc => ?_
  refine (reads_u32 depth).bind fun d hd => ?_
  refine (reads_byte pushLasti.toUInt8).bind_pure fun e he => ?_
  subst ha hb hc hd he
  cases pushLasti <;> rfl

theorem handler_pos (h : ExcHandler) : 0 < (Writer.handler h).length := by
  simp only [Writer.handler, List.length_append, List.length_cons]
  omega

end Records

section Flags

variable {i acc j : ℕ} {fs : List Bool}

theorem testBit_packFrom (hacc : acc < 2 ^ i) :
    (packFrom i acc fs).testBit j = if j < i then acc.testBit j else fs.getD (j - i) false := by
  induction fs generalizing i acc with
  | nil =>
    split_ifs with h
    · rfl
    · exact Nat.testBit_lt_two_pow (hacc.trans_le (Nat.pow_le_pow_right (by decide) (by omega)))
  | cons f fs ih =>
    have hbit : f.toNat <<< i < 2 ^ (i + 1) := by
      rw [Nat.shiftLeft_eq, Nat.pow_succ, Nat.mul_comm]
      have := f.toNat_le
      exact Nat.mul_lt_mul_of_pos_left (by omega) (Nat.two_pow_pos i)
    have hacc' : acc ||| f.toNat <<< i < 2 ^ (i + 1) :=
      Nat.or_lt_two_pow (hacc.trans (Nat.pow_lt_pow_right (by decide) (by omega))) hbit
    rw [packFrom, ih hacc', Nat.testBit_or, Nat.testBit_shiftLeft]
    rcases Nat.lt_trichotomy j i with h | rfl | h
    · have hge : ¬ j ≥ i := by omega
      simp [h, hge, Nat.lt_succ_of_lt h]
    · have hout : acc.testBit j = false := Nat.testBit_lt_two_pow hacc
      cases f <;> simp [hout]
    · obtain ⟨k, rfl⟩ := Nat.exists_eq_add_of_lt h
      have h₁ : ¬ i + k + 1 < i + 1 := by omega
      have h₂ : ¬ i + k + 1 < i := by omega
      rw [if_neg h₁, if_neg h₂, show i + k + 1 - (i + 1) = k by omega, show i + k + 1 - i = k + 1 by omega]
      rfl

theorem testBit_packFlags (fs : List Bool) (j : ℕ) : (packFlags fs).testBit j = fs.getD j false :=
  (testBit_packFrom (Nat.two_pow_pos 0)).trans (if_neg (Nat.not_lt_zero j))

theorem flag_packFlags (fs : List Bool) (j : ℕ) : decide (packFlags fs &&& 1 <<< j ≠ 0) = fs.getD j false := by
  have hpow := Nat.two_pow_pos j
  rw [Nat.one_shiftLeft, Nat.and_two_pow, testBit_packFlags]
  cases fs.getD j false with
  | false => simp
  | true => simp

theorem packFlags_lt (h : fs.length ≤ 64) : packFlags fs < 2 ^ 64 := by
  apply Nat.lt_pow_two_of_testBit
  intro j hj
  rw [testBit_packFlags]
  exact List.getD_eq_default _ _ (by omega)

end Flags

section Scalars

variable {big : BigIntBytes} {bytes w : List UInt8} {s : Scalar}

theorem reads_scalar (hbig : ∀ b, big.fromSignedBytesLe (big.toSignedBytesLe b) = b) (hsmall : bytes.length < 2 ^ 32)
    (hw : Writer.scalar big s = some w) :
    ∃ tag rest, w = tag :: rest ∧ (tag ≠ 10 ∧ tag ≠ 11 ∧ tag ≠ 12 ∧ tag ≠ 14) ∧
      Reads bytes rest (Reader.scalar big tag) (· = s) := by
  cases s <;> cases hw
  case none => exact ⟨0, [], rfl, by decide, Reads.pure rfl⟩
  case bool b =>
    cases b
    · exact ⟨1, [], rfl, by decide, Reads.pure rfl⟩
    · exact ⟨2, [], rfl, by decide, Reads.pure rfl⟩
  case int i =>
    refine ⟨3, _, rfl, by decide, (reads_int i.le_toInt i.toInt_lt).bind_pure fun a ha => ?_⟩
    subst ha
    simp
  case bigInt b =>
    refine ⟨4, _, rfl, by decide, (reads_bytes hsmall _).bind_pure fun a ha => ?_⟩
    subst ha
    rw [hbig]
  case float x =>
    refine ⟨5, _, rfl, by decide, (reads_le64 x).bind_pure fun a ha => ?_⟩
    subst ha
    rfl
  case complex re im =>
    refine ⟨6, _, rfl, by decide, (reads_le64 re).bind fun a ha => (reads_le64 im).bind_pure fun b hb => ?_⟩
    subst ha hb
    rfl
  case str s =>
    refine ⟨7, _, rfl, by decide, (reads_string hsmall s).bind_pure fun a ha => ?_⟩
    subst ha
    rfl
  case wstr cps =>
    refine ⟨8, _, rfl, by decide, (reads_u32s hsmall cps).bind_pure fun a ha => ?_⟩
    subst ha
    rfl
  case bytes b =>
    refine ⟨9, _, rfl, by decide, (reads_bytes hsmall b).bind_pure fun a ha => ?_⟩
    subst ha
    rfl
  case ellipsis => exact ⟨13, [], rfl, by decide, Reads.pure rfl⟩

end Scalars

end WeavePy.NativeCode
