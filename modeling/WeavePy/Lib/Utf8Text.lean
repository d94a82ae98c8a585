import WeavePy.Rust
import Mathlib.Data.List.TakeWhile
import Mathlib.Tactic.IntervalCases

/-!
A text as its characters and as its UTF-8 bytes: offsets, slices, and scans that treat all wide
characters alike.
-/

namespace WeavePy

/-- The UTF-8 bytes of a text. -/
def utf8Bytes (l : List Char) : List UInt8 := l.flatMap String.utf8EncodeChar

/-- A byte that goes on with a character. -/
def Utf8Tail (b : UInt8) : Prop := b &&& 0xc0 = 0x80

instance : DecidablePred Utf8Tail := fun b => inferInstanceAs (Decidable (b &&& 0xc0 = 0x80))

section Characters

variable {c : Char} {l m : List Char} {k : ℕ}

@[simp] theorem utf8Bytes_nil : utf8Bytes [] = [] := rfl

theorem utf8Bytes_cons (c : Char) (l : List Char) :
    utf8Bytes (c :: l) = String.utf8EncodeChar c ++ utf8Bytes l := rfl

theorem utf8Bytes_append (l m : List Char) : utf8Bytes (l ++ m) = utf8Bytes l ++ utf8Bytes m :=
  List.flatMap_append

theorem utf8_ofList (l : List Char) : utf8 (String.ofList l) = utf8Bytes l := by
  rw [utf8, String.toByteArray_ofList, List.utf8Encode, List.toList_data_toByteArray]
  rfl

theorem fromUtf8_utf8Bytes (l : List Char) : fromUtf8 (utf8Bytes l) = some (String.ofList l) := by
  rw [← utf8_ofList, fromUtf8_utf8]

theorem encodeChar_ascii (h : c.toNat < 128) :
    String.utf8EncodeChar c = [UInt8.ofNat c.toNat] := by
  unfold String.utf8EncodeChar
  exact if_pos (Nat.le_of_lt_succ h)

theorem isTail_ofNat {n : ℕ} : Utf8Tail (UInt8.ofNat (n % 64 + 128)) ∧
    128 ≤ (UInt8.ofNat (n % 64 + 128)).toNat := by
  have hall : ∀ n < 64, Utf8Tail (UInt8.ofNat (n + 128)) ∧ 128 ≤ (UInt8.ofNat (n + 128)).toNat := by
    decide
  exact hall _ (Nat.mod_lt n (by decide))

theorem isLead_ofNat {n b : ℕ} (hb : 192 ≤ b) (h : n + b < 256) :
    ¬ Utf8Tail (UInt8.ofNat (n + b)) ∧ 128 ≤ (UInt8.ofNat (n + b)).toNat := by
  have hall : ∀ m < 64, ¬ Utf8Tail (UInt8.ofNat (m + 192)) ∧ 128 ≤ (UInt8.ofNat (m + 192)).toNat := by
    decide
  obtain ⟨m, hm⟩ := Nat.exists_eq_add_of_le' (hb.trans (Nat.le_add_left b n))
  rw [hm]
  exact hall m (by omega)

/-- The bytes of a wide character: a leading one, and the ones that go on. -/
theorem encodeChar_wide (h : 128 ≤ c.toNat) :
    ∃ b t, String.utf8EncodeChar c = b :: t ∧ (¬ Utf8Tail b ∧ 128 ≤ b.toNat) ∧
      ∀ x ∈ t, Utf8Tail x ∧ 128 ≤ x.toNat := by
  unfold String.utf8EncodeChar
  dsimp only
  have h1 : ¬ c.val.toNat ≤ 127 := not_le.mpr h
  have hvalid : c.val.toNat < 1114112 := by
    have hv : Nat.isValidChar c.val.toNat := c.valid
    rcases hv with hv | hv <;> omega
  rw [if_neg h1]
  split
  · refine ⟨_, _, rfl, isLead_ofNat le_rfl (by omega), ?_⟩
    simp only [List.mem_cons, List.not_mem_nil, or_false, forall_eq]
    exact isTail_ofNat
  · split
    · refine ⟨_, _, rfl, isLead_ofNat (by decide) (by omega), ?_⟩
      simp only [List.mem_cons, List.not_mem_nil, or_false, forall_eq_or_imp, forall_eq]
      exact ⟨isTail_ofNat, isTail_ofNat⟩
    · refine ⟨_, _, rfl, isLead_ofNat (by decide) (by omega), ?_⟩
      simp only [List.mem_cons, List.not_mem_nil, or_false, forall_eq_or_imp, forall_eq]
      exact ⟨isTail_ofNat, isTail_ofNat, isTail_ofNat⟩

theorem encodeChar_length_pos (c : Char) : 0 < (String.utf8EncodeChar c).length :=
  List.length_pos_of_ne_nil String.utf8EncodeChar_ne_nil

/-- A text has as many leading bytes as characters. -/
theorem countP_utf8Bytes (l : List Char) : (utf8Bytes l).countP (fun b => ¬ Utf8Tail b) = l.length := by
  induction l with
  | nil => rfl
  | cons c l ih =>
    rw [utf8Bytes_cons, List.countP_append, ih, List.length_cons, Nat.add_comm]
    congr 1
    rcases Nat.lt_or_ge c.toNat 128 with h | h
    · rw [encodeChar_ascii h]
      have hall : ∀ n < 128, [UInt8.ofNat n].countP (fun b => ¬ Utf8Tail b) = 1 := by decide
      exact hall _ h
    · obtain ⟨b, t, heq, ⟨hb, -⟩, ht⟩ := encodeChar_wide h
      have hzero : t.countP (fun b => ¬ Utf8Tail b) = 0 := by
        rw [List.countP_eq_zero]
        exact fun x hx => by simpa using (ht x hx).1
      rw [heq, List.countP_cons, hzero]
      simp [hb]

end Characters

section Offsets

variable {l : List Char} {j k : ℕ}

/-- Where a character's bytes start. -/
def byteOffset (l : List Char) (k : ℕ) : ℕ := (utf8Bytes (l.take k)).length

@[simp] theorem byteOffset_zero (l : List Char) : byteOffset l 0 = 0 := by
  rw [byteOffset, List.take_zero]
  rfl

theorem byteOffset_length (l : List Char) : byteOffset l l.length = (utf8Bytes l).length := by
  rw [byteOffset, List.take_length]

theorem take_byteOffset (l : List Char) (k : ℕ) :
    (utf8Bytes l).take (byteOffset l k) = utf8Bytes (l.take k) := by
  conv_lhs => rw [← List.take_append_drop k l, utf8Bytes_append]
  rw [List.take_append_drop]
  exact List.take_left

theorem drop_byteOffset (l : List Char) (k : ℕ) :
    (utf8Bytes l).drop (byteOffset l k) = utf8Bytes (l.drop k) := by
  conv_lhs => rw [← List.take_append_drop k l, utf8Bytes_append]
  rw [List.take_append_drop]
  exact List.drop_left

theorem byteOffset_add (l : List Char) (j k : ℕ) :
    byteOffset l (j + k) = byteOffset l j + byteOffset (l.drop j) k := by
  unfold byteOffset
  rw [List.take_add, utf8Bytes_append, List.length_append]

theorem byteOffset_lt (hjk : j < k) (hk : k ≤ l.length) : byteOffset l j < byteOffset l k := by
  obtain ⟨d, rfl⟩ := Nat.exists_eq_add_of_lt hjk
  rw [Nat.add_assoc, byteOffset_add]
  have hpos : 0 < byteOffset (l.drop j) (d + 1) := by
    cases hdrop : l.drop j with
    | nil =>
      have := congrArg List.length hdrop
      rw [List.length_drop, List.length_nil] at this
      omega
    | cons c r =>
      rw [byteOffset, List.take_succ_cons, utf8Bytes_cons, List.length_append]
      have := encodeChar_length_pos c
      omega
  omega

theorem byteOffset_le (l : List Char) (k : ℕ) : byteOffset l k ≤ (utf8Bytes l).length := by
  conv_rhs => rw [← List.take_append_drop k l, utf8Bytes_append, List.length_append]
  exact Nat.le_add_right _ _

theorem slice_byteOffset (hjk : j ≤ k) :
    ((utf8Bytes l).drop (byteOffset l j)).take (byteOffset l k - byteOffset l j) =
      utf8Bytes ((l.drop j).take (k - j)) := by
  obtain ⟨d, rfl⟩ := Nat.exists_eq_add_of_le hjk
  rw [drop_byteOffset, byteOffset_add, Nat.add_sub_cancel_left, Nat.add_sub_cancel_left,
    take_byteOffset]

/-- Counting leading bytes gives the character's index back. -/
theorem countP_take_byteOffset (hk : k ≤ l.length) :
    ((utf8Bytes l).take (byteOffset l k)).countP (fun b => ¬ Utf8Tail b) = k := by
  rw [take_byteOffset, countP_utf8Bytes, List.length_take, Nat.min_eq_left hk]

theorem byteOffset_ascii {c : Char} (hc : l[k]? = some c) (h : c.toNat < 128) :
    byteOffset l (k + 1) = byteOffset l k + 1 := by
  obtain ⟨hk, rfl⟩ := List.getElem?_eq_some_iff.mp hc
  rw [byteOffset_add, List.drop_eq_getElem_cons hk]
  change _ + (utf8Bytes [l[k]]).length = _
  rw [utf8Bytes_cons, encodeChar_ascii h]
  rfl

end Offsets

section Scans

variable {l : List Char} {k : ℕ}

/-- What is at the corresponding places of the two forms of a text. -/
inductive SameUnit : Option ℕ → Option ℕ → Prop
  | none : SameUnit none none
  | ascii {a : ℕ} : a < 128 → SameUnit (some a) (some a)
  | wide {a b : ℕ} : 128 ≤ a → 128 ≤ b → SameUnit (some a) (some b)

theorem sameUnit_at (l : List Char) (k : ℕ) :
    SameUnit ((utf8Bytes l)[byteOffset l k]?.map UInt8.toNat) (l[k]?.map Char.toNat) := by
  rcases Nat.lt_or_ge k l.length with hk | hk
  · have hdrop := drop_byteOffset l k
    rw [List.drop_eq_getElem_cons hk, utf8Bytes_cons] at hdrop
    have hget : (utf8Bytes l)[byteOffset l k]? =
        (String.utf8EncodeChar l[k] ++ utf8Bytes (l.drop (k + 1)))[0]? := by
      rw [← hdrop, List.getElem?_drop, Nat.add_zero]
    rw [hget, List.getElem?_eq_getElem hk]
    rcases Nat.lt_or_ge l[k].toNat 128 with h | h
    · rw [encodeChar_ascii h]
      have hbyte : (UInt8.ofNat l[k].toNat).toNat = l[k].toNat :=
        UInt8.toNat_ofNat_of_lt' (h.trans (by decide))
      change SameUnit (some (UInt8.ofNat l[k].toNat).toNat) _
      rw [hbyte]
      exact .ascii h
    · obtain ⟨b, t, heq, ⟨-, hb⟩, -⟩ := encodeChar_wide h
      rw [heq]
      exact .wide hb h
  · have hend : byteOffset l k = (utf8Bytes l).length := by
      rw [byteOffset, List.take_of_length_le hk]
    rw [hend, List.getElem?_eq_none le_rfl, List.getElem?_eq_none hk]
    exact .none

/-- A scan that does not tell wide units apart stops at the same place. -/
theorem takeWhile_utf8Bytes {p : ℕ → Bool} (hp : ∀ a b, 128 ≤ a → 128 ≤ b → p a = p b)
    (l : List Char) :
    (utf8Bytes l).takeWhile (fun b => p b.toNat) = utf8Bytes (l.takeWhile fun c => p c.toNat) := by
  induction l with
  | nil => rfl
  | cons c l ih =>
    rw [utf8Bytes_cons, List.takeWhile_cons]
    rcases Nat.lt_or_ge c.toNat 128 with h | h
    · have hbyte : (UInt8.ofNat c.toNat).toNat = c.toNat := UInt8.toNat_ofNat_of_lt' (h.trans (by decide))
      rw [encodeChar_ascii h, List.singleton_append, List.takeWhile_cons, hbyte]
      split
      · rw [ih, utf8Bytes_cons, encodeChar_ascii h]
        rfl
      · rfl
    · obtain ⟨b, t, heq, ⟨-, hb⟩, ht⟩ := encodeChar_wide h
      have hall : ∀ x ∈ String.utf8EncodeChar c, p x.toNat = p c.toNat := by
        rw [heq]
        intro x hx
        rcases List.mem_cons.mp hx with rfl | hx
        · exact hp _ _ hb h
        · exact hp _ _ (ht x hx).2 h
      split
      next hc =>
        rw [List.takeWhile_append_of_pos fun x hx => (hall x hx).trans hc, ih, utf8Bytes_cons]
      next hc =>
        rw [heq, List.cons_append, List.takeWhile_cons, hall b (heq ▸ List.mem_cons_self), if_neg hc]
        rfl

/-- The place where a scan from `k` stops. -/
theorem byteOffset_takeWhile {p : ℕ → Bool} (hp : ∀ a b, 128 ≤ a → 128 ≤ b → p a = p b)
    (l : List Char) (k : ℕ) :
    byteOffset l k + (((utf8Bytes l).drop (byteOffset l k)).takeWhile fun b => p b.toNat).length =
      byteOffset l (k + ((l.drop k).takeWhile fun c => p c.toNat).length) := by
  rw [drop_byteOffset, takeWhile_utf8Bytes hp, byteOffset_add]
  congr 1
  rw [byteOffset]
  congr 2
  exact List.prefix_iff_eq_take.mp (List.takeWhile_prefix _)

/-- An ASCII word begins both forms or none. -/
theorem prefix_utf8Bytes {w : List ℕ} (hw : ∀ a ∈ w, a < 128) (l : List Char) :
    w <+: (utf8Bytes l).map UInt8.toNat ↔ w <+: l.map Char.toNat := by
  induction w generalizing l with
  | nil => exact iff_of_true (List.nil_prefix) (List.nil_prefix)
  | cons a w ih =>
    have ha := hw a List.mem_cons_self
    cases l with
    | nil => exact Iff.rfl
    | cons c l =>
      rw [utf8Bytes_cons, List.map_append, List.map_cons, List.cons_prefix_cons]
      rcases Nat.lt_or_ge c.toNat 128 with h | h
      · have hbyte : (UInt8.ofNat c.toNat).toNat = c.toNat := UInt8.toNat_ofNat_of_lt' (h.trans (by decide))
        rw [encodeChar_ascii h, List.map_cons, List.map_nil, List.singleton_append, hbyte,
          List.cons_prefix_cons, ih fun x hx => hw x (List.mem_cons_of_mem _ hx)]
      · obtain ⟨b, t, heq, ⟨-, hb⟩, -⟩ := encodeChar_wide h
        rw [heq, List.map_cons, List.cons_append, List.cons_prefix_cons]
        exact iff_of_false (fun hand => by omega) (fun hand => by omega)

end Scans

end WeavePy
