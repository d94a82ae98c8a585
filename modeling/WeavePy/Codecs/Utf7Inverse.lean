import WeavePy.Codecs.Utf7Encode
import WeavePy.Codecs.Utf7Units
import WeavePy.Codecs.WideInverse

/-!
UTF-7 decodes what it encodes. Within a shift the two sides carry parts of one code unit; the
units themselves pair up into code points.
-/

namespace WeavePy.Codecs

open Bytes (shiftLeft_lor)

section Units

instance (u : ℕ) : Decidable (IsHigh u) := inferInstanceAs (Decidable (_ ∧ _))

/-- A code unit behind a high surrogate that waits, or behind none. -/
def deliver (surrogate u : ℕ) : ℕ × List ℕ :=
  if surrogate ≠ 0 ∧ IsLow u then (0, [0x10000 + ((surrogate - 0xD800) <<< 10) + (u - 0xDC00)])
  else
    let out := if surrogate ≠ 0 then [surrogate] else []
    if IsHigh u then (u, out) else (0, out ++ [u])

/-- The points of the units of a shift. -/
def settle (surrogate : ℕ) : List ℕ → List ℕ
  | [] => if surrogate ≠ 0 then [surrogate] else []
  | u :: us => (deliver surrogate u).2 ++ settle (deliver surrogate u).1 us

def codeUnits (cp : ℕ) : List ℕ :=
  if cp ≥ 0x10000 then [0xD800 + ((cp - 0x10000) >>> 10), 0xDC00 + ((cp - 0x10000) &&& 0x3FF)] else [cp]

theorem settle_codeUnits {s : ℕ} {cps : List ℕ} (hcps : ∀ cp ∈ cps, IsCodePoint cp) (hchain : Unpaired cps)
    (hnext : s ≠ 0 → ∀ cp ∈ cps.head?, ¬ IsLow cp) :
    settle s (cps.flatMap codeUnits) = (if s ≠ 0 then [s] else []) ++ cps := by
  induction cps generalizing s with
  | nil => simp [settle]
  | cons cp cps ih =>
    have hcp : cp < 0x110000 := hcps cp List.mem_cons_self
    have hrest : ∀ cp ∈ cps, IsCodePoint cp := fun c hc => hcps c (List.mem_cons_of_mem cp hc)
    have hchain' : Unpaired cps := hchain.tail
    rw [List.flatMap_cons]
    by_cases hbig : cp ≥ 0x10000
    · -- a pair: the high half is no low surrogate, the low half completes it
      have hmask : (cp - 0x10000) &&& 0x3FF = (cp - 0x10000) % 1024 := Nat.and_two_pow_sub_one_eq_mod _ 10
      have hshift : (cp - 0x10000) >>> 10 = (cp - 0x10000) / 1024 := Nat.shiftRight_eq_div_pow _ _
      have hhi : IsHigh (0xD800 + (cp - 0x10000) / 1024) := by
        unfold IsHigh
        omega
      have hlo : IsLow (0xDC00 + (cp - 0x10000) % 1024) := by
        unfold IsLow
        omega
      have hnotlow : ¬ IsLow (0xD800 + (cp - 0x10000) / 1024) := by
        unfold IsLow
        omega
      have hfirst : deliver s (0xD800 + (cp - 0x10000) / 1024) = (0xD800 + (cp - 0x10000) / 1024, if s ≠ 0 then [s] else []) := by
        rw [deliver, if_neg (fun h => hnotlow h.2)]
        exact if_pos hhi
      have hsecond : deliver (0xD800 + (cp - 0x10000) / 1024) (0xDC00 + (cp - 0x10000) % 1024) = (0, [cp]) := by
        rw [deliver, if_pos ⟨by omega, hlo⟩, Nat.shiftLeft_eq]
        have hcombine : 0x10000 + (0xD800 + (cp - 0x10000) / 1024 - 0xD800) * 2 ^ 10 + (0xDC00 + (cp - 0x10000) % 1024 - 0xDC00) = cp := by
          omega
        rw [hcombine]
      rw [codeUnits, if_pos hbig, hmask, hshift]
      change settle s (_ :: _ :: cps.flatMap codeUnits) = _
      rw [settle, hfirst, settle, hsecond, ih hrest hchain' (fun h => absurd rfl h)]
      rfl
    · rw [codeUnits, if_neg hbig]
      change settle s (cp :: cps.flatMap codeUnits) = _
      have hnot : ¬ (s ≠ 0 ∧ IsLow cp) := fun h => hnext h.1 cp rfl h.2
      rw [settle, deliver, if_neg hnot]
      dsimp only
      by_cases hhigh : IsHigh cp
      · rw [if_pos hhigh, ih hrest hchain' ?_]
        · have hne : cp ≠ 0 := by
            rintro rfl
            exact absurd hhigh (by decide)
          rw [if_pos hne]
          rfl
        · intro _ next hmem hlow
          cases cps with
          | nil => simp at hmem
          | cons d cps =>
            obtain rfl : d = next := by simpa using hmem
            exact (List.isChain_cons_cons.1 hchain).1 ⟨hhigh, hlow⟩
      · rw [if_neg hhigh, ih hrest hchain' (fun h => absurd rfl h), List.append_assoc]
        rfl

end Units

section BitLayer

variable {b : Bits}

variable {bits buffer s v : ℕ} {o : List ℕ} {n : ℕ} {t : List UInt8}

/-- A base64 character that completes no unit. -/
theorem scanShift_short (hv : v < 64) (hbits : bits + 6 < 16) : scanShift ⟨bits, buffer, s⟩ o n (b64Char v :: t) =
    scanShift ⟨bits + 6, buffer * 64 + v, s⟩ o (n + 1) t := by
  obtain ⟨hbase, hc⟩ := b64Char_spec hv
  have hjoin : (buffer <<< 6 ||| v) = buffer * 64 + v := shiftLeft_lor hv
  have hpush : Bits.push ⟨bits, buffer, s⟩ (b64Char v) = (⟨bits + 6, buffer * 64 + v, s⟩, []) := by
    unfold Bits.push
    dsimp only
    rw [if_neg (Nat.not_le_of_lt hbits), hc, hjoin]
  rw [scanShift, if_pos hbase, hpush, List.append_nil]

/-- A base64 character that completes the unit `u`, `k` bits before its end. -/
theorem scanShift_unit {k u : ℕ} (hv : v < 64) (hu : (buffer * 64 + v) / 2 ^ k % 65536 = u) :
    scanShift ⟨k + 10, buffer, s⟩ o n (b64Char v :: t) =
      scanShift ⟨k, (buffer * 64 + v) % 2 ^ k, (deliver s u).1⟩ (o ++ (deliver s u).2) (n + 1) t := by
  obtain ⟨hbase, hc⟩ := b64Char_spec hv
  have hk : k + 10 + 6 - 16 = k := by omega
  have hunit : ((buffer * 64 + v) >>> k) &&& 0xFFFF = u := by
    rw [Nat.shiftRight_eq_div_pow, ← hu]
    exact Nat.and_two_pow_sub_one_eq_mod _ 16
  have hleft : (buffer * 64 + v) &&& ((1 <<< k) - 1) = (buffer * 64 + v) % 2 ^ k := by
    rw [Nat.one_shiftLeft, Nat.and_two_pow_sub_one_eq_mod]
  have hjoin : (buffer <<< 6 ||| v) = buffer * 64 + v := shiftLeft_lor hv
  have hpush : Bits.push ⟨k + 10, buffer, s⟩ (b64Char v) = (⟨k, (buffer * 64 + v) % 2 ^ k, (deliver s u).1⟩, (deliver s u).2) := by
    unfold Bits.push
    dsimp only
    rw [if_pos (by omega), hc, hjoin, hk, hunit, hleft]
    unfold deliver
    by_cases hpair : s ≠ 0 ∧ IsLow u
    · rw [if_pos hpair, if_pos hpair]
    · rw [if_neg hpair, if_neg hpair]
      dsimp only
      by_cases hhigh : IsHigh u
      · have hrange : 0xD800 ≤ u ∧ u ≤ 0xDBFF := hhigh
        rw [if_pos hhigh, if_pos hrange]
      · have hrange : ¬ (0xD800 ≤ u ∧ u ≤ 0xDBFF) := hhigh
        rw [if_neg hhigh, if_neg hrange]
  rw [scanShift, if_pos hbase, hpush]

/-- The encoder's bits and the decoder's are parts of the same unit, which is still to be delivered;
or neither has any. -/
inductive Carried : Utf7Writer → Bits → List ℕ → Prop where
  | none {buffer s : ℕ} : Carried ⟨true, 0, buffer⟩ ⟨0, 0, s⟩ []
  | four {buffer s u : ℕ} (hu : u < 65536) (h : buffer % 16 = u % 16) :
      Carried ⟨true, 4, buffer⟩ ⟨12, u / 16, s⟩ [u]
  | two {buffer s u : ℕ} (hu : u < 65536) (h : buffer % 4 = u % 4) :
      Carried ⟨true, 2, buffer⟩ ⟨14, u / 4, s⟩ [u]

theorem drainBits_char (buffer bits : ℕ) : drainBits buffer (bits + 6) =
    (b64Char (buffer / 2 ^ bits % 64) :: (drainBits buffer bits).1, (drainBits buffer bits).2) := by
  rw [drainBits, if_pos (by omega)]
  dsimp only
  rw [Nat.add_sub_cancel, Nat.shiftRight_eq_div_pow]
  have hmask : buffer / 2 ^ bits &&& 0x3F = buffer / 2 ^ bits % 64 := Nat.and_two_pow_sub_one_eq_mod _ 6
  rw [hmask]

theorem drainBits_short (h : bits < 6) : drainBits buffer bits = ([], bits) := by
  rw [drainBits, if_neg (by omega)]

/-- A unit more: what was pending is delivered, or comes through at once. -/
theorem Carried.unit_read {st : Utf7Writer} {pending : List ℕ} (h : Carried st b pending) {w : ℕ} (hw : w < 65536)
    (o : List ℕ) (n : ℕ) (t : List UInt8) :
    ∃ b' delivered pending', Carried (pushUnit st w).1 b' pending' ∧
      scanShift b o n ((pushUnit st w).2 ++ t) =
        scanShift b' (o ++ delivered) (n + (pushUnit st w).2.length) t ∧
      ∀ us, settle b.surrogate (pending ++ w :: us) = delivered ++ settle b'.surrogate (pending' ++ us) := by
  have hlor : ∀ buffer : ℕ, ((buffer <<< 16) ||| w) % 2 ^ 64 = (buffer * 65536 + w) % 2 ^ 64 := by
    intro buffer
    have hjoin : (buffer <<< 16 ||| w) = buffer * 65536 + w := shiftLeft_lor hw
    rw [hjoin]
  unfold pushUnit
  cases h with
  | @none buffer s =>
    have hx := hlor buffer
    dsimp only
    generalize ((buffer <<< 16) ||| w) % 2 ^ 64 = x at hx ⊢
    rw [drainBits_char x 10, drainBits_char x 4, drainBits_short (by decide)]
    have h1 : x / 2 ^ 10 % 64 < 64 := Nat.mod_lt _ (by decide)
    have h2 : x / 2 ^ 4 % 64 < 64 := Nat.mod_lt _ (by decide)
    refine ⟨⟨12, w / 16, s⟩, [], [w], .four hw (by omega), ?_, fun us => rfl⟩
    change scanShift _ o n (b64Char _ :: b64Char _ :: t) = _
    have hbuffer : (0 * 64 + x / 2 ^ 10 % 64) * 64 + x / 2 ^ 4 % 64 = w / 16 := by omega
    rw [scanShift_short h1 (by decide), scanShift_short h2 (by decide), hbuffer, List.append_nil]
    rfl
  | @four buffer s u hu h =>
    have hx := hlor buffer
    dsimp only
    generalize ((buffer <<< 16) ||| w) % 2 ^ 64 = x at hx ⊢
    rw [drainBits_char x 14, drainBits_char x 8, drainBits_char x 2, drainBits_short (by decide)]
    have h1 : x / 2 ^ 14 % 64 < 64 := Nat.mod_lt _ (by decide)
    have h2 : x / 2 ^ 8 % 64 < 64 := Nat.mod_lt _ (by decide)
    have h3 : x / 2 ^ 2 % 64 < 64 := Nat.mod_lt _ (by decide)
    refine ⟨⟨14, w / 4, (deliver s u).1⟩, (deliver s u).2, [w], .two hw (by omega), ?_, fun us => rfl⟩
    change scanShift _ o n (b64Char _ :: b64Char _ :: b64Char _ :: t) = _
    have hunit : (u / 16 * 64 + x / 2 ^ 14 % 64) / 2 ^ 2 % 65536 = u := by omega
    have hbuffer : ((u / 16 * 64 + x / 2 ^ 14 % 64) % 2 ^ 2 * 64 + x / 2 ^ 8 % 64) * 64 + x / 2 ^ 2 % 64 = w / 4 := by omega
    rw [scanShift_unit h1 hunit, scanShift_short h2 (by decide), scanShift_short h3 (by decide), hbuffer]
    rfl
  | @two buffer s u hu h =>
    have hx := hlor buffer
    dsimp only
    generalize ((buffer <<< 16) ||| w) % 2 ^ 64 = x at hx ⊢
    rw [drainBits_char x 12, drainBits_char x 6, drainBits_char x 0, drainBits_short (by decide)]
    have h1 : x / 2 ^ 12 % 64 < 64 := Nat.mod_lt _ (by decide)
    have h2 : x / 2 ^ 6 % 64 < 64 := Nat.mod_lt _ (by decide)
    have h3 : x / 2 ^ 0 % 64 < 64 := Nat.mod_lt _ (by decide)
    refine ⟨⟨0, 0, (deliver (deliver s u).1 w).1⟩, (deliver s u).2 ++ (deliver (deliver s u).1 w).2, [], .none, ?_, fun us => ?_⟩
    · change scanShift _ o n (b64Char _ :: b64Char _ :: b64Char _ :: t) = _
      have hunit : (u / 4 * 64 + x / 2 ^ 12 % 64) / 2 ^ 4 % 65536 = u := by omega
      have hunit' : (((u / 4 * 64 + x / 2 ^ 12 % 64) % 2 ^ 4 * 64 + x / 2 ^ 6 % 64) * 64 + x / 2 ^ 0 % 64) / 2 ^ 0 % 65536 = w := by
        omega
      rw [scanShift_unit h1 hunit, scanShift_short h2 (by decide), scanShift_unit h3 hunit', Nat.pow_zero,
        Nat.mod_one, List.append_assoc]
      rfl
    · change settle s (u :: w :: us) = _
      rw [settle, settle, List.append_assoc]
      rfl

theorem Carried.char_read {st : Utf7Writer} {pending : List ℕ} (h : Carried st b pending) {ch : ℕ} (hch : IsCodePoint ch)
    (o : List ℕ) (n : ℕ) (t : List UInt8) :
    ∃ b' delivered pending', Carried (encodeChar st ch).1 b' pending' ∧
      scanShift b o n ((encodeChar st ch).2 ++ t) =
        scanShift b' (o ++ delivered) (n + (encodeChar st ch).2.length) t ∧
      ∀ us, settle b.surrogate (pending ++ codeUnits ch ++ us) = delivered ++ settle b'.surrogate (pending' ++ us) := by
  unfold IsCodePoint at hch
  unfold encodeChar codeUnits
  by_cases hbig : ch ≥ 0x10000
  · rw [if_pos hbig, if_pos hbig]
    dsimp only
    have hmask : (ch - 0x10000) &&& 0x3FF = (ch - 0x10000) % 1024 := Nat.and_two_pow_sub_one_eq_mod _ 10
    have hshift : (ch - 0x10000) >>> 10 = (ch - 0x10000) / 1024 := Nat.shiftRight_eq_div_pow _ _
    rw [hmask, hshift]
    have hhi : 0xD800 + (ch - 0x10000) / 1024 < 65536 := by omega
    have hlo : 0xDC00 + (ch - 0x10000) % 1024 < 65536 := by omega
    generalize 0xD800 + (ch - 0x10000) / 1024 = hi at hhi ⊢
    generalize 0xDC00 + (ch - 0x10000) % 1024 = lo at hlo ⊢
    obtain ⟨b1, delivered1, pending1, hcarried1, hscan1, hsettle1⟩ := h.unit_read hhi o n
      ((pushUnit (pushUnit st hi).1 lo).2 ++ t)
    obtain ⟨b2, delivered2, pending2, hcarried2, hscan2, hsettle2⟩ := hcarried1.unit_read hlo (o ++ delivered1)
      (n + (pushUnit st hi).2.length) t
    refine ⟨b2, delivered1 ++ delivered2, pending2, hcarried2, ?_, fun us => ?_⟩
    · rw [List.append_assoc, hscan1, hscan2, List.append_assoc, List.length_append, Nat.add_assoc]
    · rw [List.append_assoc]
      change settle _ (pending ++ hi :: lo :: us) = _
      rw [hsettle1, hsettle2, List.append_assoc]
  · rw [if_neg hbig, if_neg hbig]
    obtain ⟨b', delivered, pending', hcarried, hscan, hsettle⟩ := h.unit_read (Nat.lt_of_not_le hbig) o n t
    refine ⟨b', delivered, pending', hcarried, hscan, fun us => ?_⟩
    rw [List.append_assoc]
    exact hsettle us

/-- The bits that fill up the last character complete the unit, and are zero behind it. -/
theorem Carried.pad_read {st : Utf7Writer} {pending : List ℕ} (h : Carried st b pending) (o : List ℕ) (n : ℕ) (t : List UInt8) :
    ∃ b' delivered, b'.bits < 6 ∧ b'.buffer = 0 ∧
      scanShift b o n (padBits st ++ t) = scanShift b' (o ++ delivered) (n + (padBits st).length) t ∧
      settle b.surrogate pending = delivered ++ settle b'.surrogate [] := by
  have hmask : ∀ x : ℕ, x &&& 0x3F = x % 64 := fun x => Nat.and_two_pow_sub_one_eq_mod x 6
  cases h with
  | @none buffer s => exact ⟨⟨0, 0, s⟩, [], Nat.zero_lt_succ _, rfl, by simp [padBits], rfl⟩
  | @four buffer s u hu h =>
    have hv : buffer * 2 ^ 2 % 64 < 64 := Nat.mod_lt _ (by decide)
    have hunit : (u / 16 * 64 + buffer * 2 ^ 2 % 64) / 2 ^ 2 % 65536 = u := by omega
    have hzero : (u / 16 * 64 + buffer * 2 ^ 2 % 64) % 2 ^ 2 = 0 := by omega
    refine ⟨⟨2, 0, (deliver s u).1⟩, (deliver s u).2, Nat.lt_of_sub_pos (Nat.zero_lt_succ _), rfl, ?_, rfl⟩
    unfold padBits
    rw [if_pos (Nat.zero_lt_succ _), hmask, Nat.shiftLeft_eq]
    change scanShift _ o n (b64Char (buffer * 2 ^ 2 % 64) :: t) = _
    rw [scanShift_unit hv hunit, hzero]
    rfl
  | @two buffer s u hu h =>
    have hv : buffer * 2 ^ 4 % 64 < 64 := Nat.mod_lt _ (by decide)
    have hunit : (u / 4 * 64 + buffer * 2 ^ 4 % 64) / 2 ^ 4 % 65536 = u := by omega
    have hzero : (u / 4 * 64 + buffer * 2 ^ 4 % 64) % 2 ^ 4 = 0 := by omega
    refine ⟨⟨4, 0, (deliver s u).1⟩, (deliver s u).2, Nat.lt_of_sub_pos (Nat.zero_lt_succ _), rfl, ?_, rfl⟩
    unfold padBits
    rw [if_pos (Nat.zero_lt_succ _), hmask, Nat.shiftLeft_eq]
    change scanShift _ o n (b64Char (buffer * 2 ^ 4 % 64) :: t) = _
    rw [scanShift_unit hv hunit, hzero]
    rfl

end BitLayer

section Shifts

/-- What a well-formed shift gives, and where the reading goes on. -/
def shiftRead (b : Bits) (o : List ℕ) (n : ℕ) (t : List UInt8) : Option (List ℕ × ℕ) :=
  match scanShift b o n t with
  | .unended _ _ => none
  | .closed b' o' n' ch =>
    match b'.leave ch with
    | .error _ => none
    | .ok last =>
      if ch = minus then some (o' ++ last, n' + 1)
      else if ch.toNat ≤ 127 then some (o' ++ last ++ [ch.toNat], n' + 1)
      else none

variable {st : Utf7Writer} {b : Bits} {pending : List ℕ} {ch : ℕ}

theorem shiftUnit_read {ctx : DecCtx} {i k : ℕ} {t : List UInt8} {out : List ℕ} (h : shiftRead .zero [] 1 t = some (out, k)) :
    shiftUnit ctx true i (plus :: t) = .ok (.read out k) := by
  unfold shiftRead at h
  unfold shiftUnit
  change (match scanShift .zero [] 1 t with | .unended b out => _ | .closed b out n ch => _) = _
  cases hscan : scanShift .zero [] 1 t with
  | unended b o => simp [hscan] at h
  | closed b o n ch =>
    rw [hscan] at h
    dsimp only at h ⊢
    cases hleave : b.leave ch with
    | error reason => simp [hleave] at h
    | ok last =>
      rw [hleave] at h
      dsimp only at h ⊢
      split_ifs at h ⊢
      · obtain ⟨rfl, rfl⟩ := Prod.mk.inj (Option.some.inj h)
        rfl
      · obtain ⟨rfl, rfl⟩ := Prod.mk.inj (Option.some.inj h)
        rfl

theorem leave_settle {c : UInt8} (hbits : b.bits < 6) (hbuffer : b.buffer = 0) (hc : c.toNat ≤ 127) (hplus : c ≠ plus) :
    b.leave c = .ok (settle b.surrogate []) := by
  unfold Bits.leave
  rw [if_neg (by omega), if_neg (by simp [hbuffer]), settle]
  split_ifs with h1 h2
  · rfl
  · exact absurd h1.1 h2
  · exact absurd ⟨‹_›, hc, hplus⟩ h1
  · rfl

theorem settle_direct (s : ℕ) (us : List ℕ) (hhigh : ¬ IsHigh ch) (hlow : ¬ IsLow ch) : settle s (us ++ [ch]) = settle s us ++ [ch] := by
  induction us generalizing s with
  | nil =>
    change (deliver s ch).2 ++ settle (deliver s ch).1 [] = _
    rw [deliver, if_neg (fun h => hlow h.2)]
    dsimp only
    rw [if_neg hhigh, settle, settle]
    simp
  | cons u us ih =>
    change (deliver s u).2 ++ settle (deliver s u).1 (us ++ [ch]) = _
    rw [ih, ← List.append_assoc]
    rfl

/-- The end of a shift before `c`, which is not base64. -/
theorem Carried.close (h : Carried st b pending) (o : List ℕ) (n : ℕ) {c : UInt8} (hbase : isBase64 c = false)
    (hc : c.toNat ≤ 127) (hplus : c ≠ plus) (t : List UInt8) :
    shiftRead b o n (padBits st ++ c :: t) = some (o ++ settle b.surrogate pending ++ (if c = minus then [] else [c.toNat]),
      n + ((padBits st).length + 1)) := by
  obtain ⟨b', delivered, hbits, hbuffer, hscan, hsettle⟩ := h.pad_read o n (c :: t)
  have hclosed : scanShift b' (o ++ delivered) (n + (padBits st).length) (c :: t) =
      .closed b' (o ++ delivered) (n + (padBits st).length) c := by
    rw [scanShift, if_neg (by simp [hbase])]
  unfold shiftRead
  rw [hscan, hclosed]
  dsimp only
  rw [leave_settle hbits hbuffer hc hplus, hsettle]
  dsimp only
  split_ifs
  · simp [Nat.add_assoc]
  · simp [Nat.add_assoc]

end Shifts

section RoundTrip

variable {b : Bits} {pending : List ℕ}

theorem utf7Write_direct {ch : ℕ} (h : encodeDirect ch = true) (buffer : ℕ) (cps : List ℕ) :
    utf7Write ⟨false, 0, buffer⟩ (ch :: cps) = ch.toUInt8 :: utf7Write ⟨false, 0, buffer⟩ cps := by
  obtain ⟨-, hplus, -⟩ := encodeDirect_spec h
  rw [utf7Write, utf7Put, if_neg Bool.false_ne_true, if_neg hplus, if_pos h]
  rfl

theorem utf7Write_plus (buffer : ℕ) (cps : List ℕ) :
    utf7Write ⟨false, 0, buffer⟩ (plus.toNat :: cps) = plus :: minus :: utf7Write ⟨false, 0, buffer⟩ cps := by
  rw [utf7Write, utf7Put, if_neg Bool.false_ne_true, if_pos rfl]
  rfl

/-- A character that is not direct opens a shift. -/
theorem utf7Write_open {ch : ℕ} (h : encodeDirect ch = false) (hplus : ch ≠ plus.toNat) (buffer : ℕ) (cps : List ℕ) :
    utf7Write ⟨false, 0, buffer⟩ (ch :: cps) = plus :: utf7Write ⟨true, 0, buffer⟩ (ch :: cps) := by
  rw [utf7Write, utf7Write, utf7Put, utf7Put, if_neg Bool.false_ne_true, if_neg hplus, if_pos rfl, if_neg (by simp [h])]
  rw [if_neg (by simp [h])]
  rfl

/-- A shift is read up to its end; what is behind it was written from outside a shift. -/
theorem shift_written {cps : List ℕ} (hcps : ∀ cp ∈ cps, IsCodePoint cp) {st : Utf7Writer} (h : Carried st b pending)
    (o : List ℕ) (n : ℕ) : ∃ used rest k buffer, cps = used ++ rest ∧ (used = [] → cps.head?.all encodeDirect) ∧
      shiftRead b o n (utf7Write st cps) = some (o ++ settle b.surrogate (pending ++ used.flatMap codeUnits), n + k) ∧
      k ≤ (utf7Write st cps).length ∧ (utf7Write st cps).drop k = utf7Write ⟨false, 0, buffer⟩ rest := by
  induction cps generalizing st b pending o n with
  | nil =>
    have hshift : st.inShift = true := by cases h <;> rfl
    have htext : utf7Write st [] = padBits st ++ [minus] := by
      rw [utf7Write, utf7Close, if_pos hshift]
    refine ⟨[], [], (padBits st).length + 1, 0, rfl, fun _ => rfl, ?_, ?_, ?_⟩
    · rw [htext, h.close o n (by decide) (by decide) (by decide) []]
      simp
    · simp [htext]
    · rw [htext, List.drop_eq_nil_of_le (by simp)]
      rfl
  | cons ch cps ih =>
    have hshift : st.inShift = true := by cases h <;> rfl
    have hrest : ∀ cp ∈ cps, IsCodePoint cp := fun c hc => hcps c (List.mem_cons_of_mem ch hc)
    by_cases hdirect : encodeDirect ch = true
    · obtain ⟨hlt, hplus, hval⟩ := encodeDirect_spec hdirect
      have hput : utf7Put st ch = (leaveBits st, padBits st ++ shiftEnd ch ++ [ch.toUInt8]) := by
        rw [utf7Put, if_pos hshift, if_pos hdirect]
      obtain ⟨buffer, hleave⟩ : ∃ buffer, leaveBits st = ⟨false, 0, buffer⟩ := by
        cases h with
        | none => exact ⟨_, rfl⟩
        | four => exact ⟨_, rfl⟩
        | two => exact ⟨_, rfl⟩
      have hplus' : ch.toUInt8 ≠ plus := fun heq => hplus (hval ▸ congrArg UInt8.toNat heq)
      by_cases hend : isBase64 ch.toUInt8 || ch == minus.toNat
      · -- an explicit end; the character is read after it
        have htext : utf7Write st (ch :: cps) = padBits st ++ minus :: (ch.toUInt8 :: utf7Write ⟨false, 0, buffer⟩ cps) := by
          rw [utf7Write, hput, hleave, shiftEnd, if_pos hend]
          simp
        refine ⟨[], ch :: cps, (padBits st).length + 1, buffer, rfl, fun _ => hdirect, ?_, ?_, ?_⟩
        · rw [htext, h.close o n (by decide) (by decide) (by decide)]
          simp
        · simp [htext]
        · rw [htext, utf7Write_direct hdirect, List.drop_append]
          simp
      · -- the character itself ends the shift
        rw [Bool.not_eq_true, Bool.or_eq_false_iff] at hend
        obtain ⟨hbase, hminus⟩ := hend
        have hminus' : ch.toUInt8 ≠ minus := fun heq => by
          have := hval ▸ congrArg UInt8.toNat heq
          simp [this] at hminus
        have htext : utf7Write st (ch :: cps) = padBits st ++ ch.toUInt8 :: utf7Write ⟨false, 0, buffer⟩ cps := by
          rw [utf7Write, hput, hleave, shiftEnd, hbase, hminus]
          simp
        refine ⟨[ch], cps, (padBits st).length + 1, buffer, rfl, nofun, ?_, ?_, ?_⟩
        · have hunits : [ch].flatMap codeUnits = [ch] := by
            rw [List.flatMap_singleton, codeUnits, if_neg (by omega)]
          have hhigh : ¬ IsHigh ch := by
            unfold IsHigh
            omega
          have hlow : ¬ IsLow ch := by
            unfold IsLow
            omega
          rw [htext, h.close o n hbase (by omega) hplus', if_neg hminus', hval, hunits, settle_direct _ _ hhigh hlow,
            List.append_assoc]
        · simp [htext]
        · rw [htext, List.drop_append]
          simp
    · have hput : utf7Put st ch = encodeChar st ch := by
        rw [utf7Put, if_pos hshift, if_neg hdirect]
      obtain ⟨b', delivered, pending', hcarried, hscan, hsettle⟩ := h.char_read (hcps ch List.mem_cons_self) o n
        (utf7Write (encodeChar st ch).1 cps)
      obtain ⟨used, rest, k, buffer, hsplit, -, hread, hk, hdrop⟩ := ih hrest hcarried (o ++ delivered)
        (n + (encodeChar st ch).2.length)
      refine ⟨ch :: used, rest, (encodeChar st ch).2.length + k, buffer, by rw [hsplit]; rfl, nofun, ?_, ?_, ?_⟩
      · rw [utf7Write, hput]
        unfold shiftRead at hread ⊢
        rw [hscan, hread, List.flatMap_cons, ← List.append_assoc, hsettle, List.append_assoc, Nat.add_assoc]
      · rw [utf7Write, hput, List.length_append]
        omega
      · rw [utf7Write, hput, List.drop_append, Nat.add_sub_cancel_left, hdrop, List.drop_eq_nil_of_le (Nat.le_add_right _ _)]
        rfl

theorem shift_starts {ch : ℕ} (h : encodeDirect ch = false) (buffer : ℕ) (cps : List ℕ) :
    ∃ c t, utf7Write ⟨true, 0, buffer⟩ (ch :: cps) = c :: t ∧ isBase64 c = true ∧ c ≠ minus := by
  have hunit : ∀ w, ∃ v < 64, ∃ more, (pushUnit ⟨true, 0, buffer⟩ w).2 = b64Char v :: more := by
    intro w
    unfold pushUnit
    dsimp only
    rw [drainBits_char _ 10]
    exact ⟨_, Nat.mod_lt _ (by decide), _, rfl⟩
  have hhead : ∃ v < 64, ∃ more, (encodeChar ⟨true, 0, buffer⟩ ch).2 = b64Char v :: more := by
    unfold encodeChar
    split_ifs
    · obtain ⟨v, hv, more, hmore⟩ := hunit (0xD800 + ((ch - 0x10000) >>> 10))
      dsimp only
      rw [hmore]
      exact ⟨v, hv, _, rfl⟩
    · exact hunit ch
  obtain ⟨v, hv, more, hmore⟩ := hhead
  have hbase := (b64Char_spec hv).1
  refine ⟨b64Char v, more ++ utf7Write (encodeChar ⟨true, 0, buffer⟩ ch).1 cps, ?_, hbase, fun heq => ?_⟩
  · rw [utf7Write, utf7Put, if_pos rfl, if_neg (by simp [h]), hmore]
    rfl
  · rw [heq] at hbase
    exact absurd hbase (by decide)

theorem decode_written (cps : List ℕ) (hcps : ∀ cp ∈ cps, IsCodePoint cp) (hpairs : Unpaired cps) (buffer i : ℕ) :
    Transducer.decode (utf7Unit ⟨.utf7, .strict⟩ true) .diverge i (utf7Write ⟨false, 0, buffer⟩ cps) =
      .ok (cps, i + (utf7Write ⟨false, 0, buffer⟩ cps).length) := by
  have ha := @utf7Unit_advances ⟨.utf7, .strict⟩ rfl true
  induction hn : cps.length using Nat.strongRecOn generalizing cps buffer i with
  | ind n ih =>
    cases cps with
    | nil => rfl
    | cons ch cps =>
      rw [List.length_cons] at hn
      have hrest : ∀ cp ∈ cps, IsCodePoint cp := fun c hc => hcps c (List.mem_cons_of_mem ch hc)
      -- one unit read, `k` bytes long, and the text left was written from outside a shift
      have hread : ∀ {s : List UInt8} {used rest : List ℕ} {k buffer' : ℕ}, s ≠ [] →
          utf7Unit ⟨.utf7, .strict⟩ true i s = .ok (.read used k) → k ≤ s.length → s.drop k = utf7Write ⟨false, 0, buffer'⟩ rest →
          ch :: cps = used ++ rest → rest.length < n →
          Transducer.decode (utf7Unit ⟨.utf7, .strict⟩ true) .diverge i s = .ok (ch :: cps, i + s.length) := by
        intro s used rest k buffer' hs hunit hk hdrop hsplit hlt
        have hrest' : ∀ cp ∈ rest, IsCodePoint cp := fun c hc => hcps c (hsplit ▸ List.mem_append_right used hc)
        have hpairs' : Unpaired rest := (List.isChain_append.1 (hsplit ▸ hpairs)).2.1
        have hlen := congrArg List.length hdrop
        rw [List.length_drop] at hlen
        rw [Transducer.decode_read ha hs hunit, hdrop, ih rest.length hlt rest hrest' hpairs' buffer' (i + k) rfl, hsplit]
        simp only [Except.map, Except.ok.injEq, Prod.mk.injEq, true_and]
        omega
      by_cases hplus : ch = plus.toNat
      · subst hplus
        rw [utf7Write_plus]
        exact @hread _ [plus.toNat] cps 2 buffer (List.cons_ne_nil _ _) rfl (by simp) rfl rfl (by omega)
      · by_cases hdirect : encodeDirect ch = true
        · obtain ⟨hlt, -, hval⟩ := encodeDirect_spec hdirect
          have hne : ch.toUInt8 ≠ plus := fun heq => hplus (hval ▸ congrArg UInt8.toNat heq)
          rw [utf7Write_direct hdirect]
          apply @hread _ [ch] cps 1 buffer (List.cons_ne_nil _ _) ?_ (by simp) rfl rfl (by omega)
          rw [utf7Unit, if_neg hne, hval, if_pos (by omega)]
        · rw [Bool.not_eq_true] at hdirect
          have hopen := utf7Write_open hdirect hplus buffer cps
          obtain ⟨c, t, htext, hbase, hminus⟩ := shift_starts hdirect buffer cps
          obtain ⟨used, rest, k, buffer', hsplit, hfirst, hshift, hk, hdrop⟩ :=
            shift_written hcps (@Carried.none buffer 0) [] 1
          have hused : [] ++ settle 0 ([] ++ used.flatMap codeUnits) = used := by
            have hpairs' : Unpaired used := (List.isChain_append.1 (hsplit ▸ hpairs)).1
            have hpoints : ∀ cp ∈ used, IsCodePoint cp := fun c hc => hcps c (hsplit ▸ List.mem_append_left rest hc)
            exact settle_codeUnits hpoints hpairs' fun h => absurd rfl h
          have hunit : utf7Unit ⟨.utf7, .strict⟩ true i (plus :: utf7Write ⟨true, 0, buffer⟩ (ch :: cps)) = .ok (.read used (1 + k)) := by
            rw [utf7Unit, if_pos rfl, htext]
            change (if c = minus then _ else if isBase64 c = false then _ else _) = _
            rw [if_neg hminus, if_neg (by simp [hbase]), ← htext]
            exact hused ▸ shiftUnit_read hshift
          -- the shift holds at least the character that opened it: the text left is shorter
          have hlt : rest.length < n := by
            have hlen := congrArg List.length hsplit
            rw [List.length_cons, List.length_append] at hlen
            have hused : used.length ≠ 0 := fun hzero => by
              have := hfirst (List.eq_nil_of_length_eq_zero hzero)
              rw [List.head?_cons, Option.all_some, hdirect] at this
              exact Bool.false_ne_true this
            omega
          rw [hopen]
          apply @hread _ used rest (1 + k) buffer' (List.cons_ne_nil _ _) hunit _ _ hsplit hlt
          · rw [List.length_cons]
            omega
          · rw [Nat.add_comm, List.drop_succ_cons, hdrop]

end RoundTrip

theorem utf7_roundTrip (cps : List ℕ) (hcps : ∀ cp ∈ cps, IsCodePoint cp) (hpairs : Unpaired cps) :
    Ascii (utf7Encode cps) ∧ utf7Decode .strict true (utf7Encode cps) = .ok (cps, (utf7Encode cps).length) := by
  refine ⟨utf7Write_ascii _ cps, ?_⟩
  rw [utf7Decode_eq]
  unfold utf7Encode
  simpa using decode_written cps hcps hpairs 0 0

theorem utf7_roundTrip_mixed : Ascii (utf7Encode [0x41, 0xDC00, 0xD800, 0x1F600, 0x2B, 0, 0x2D]) ∧
    utf7Decode .strict true (utf7Encode [0x41, 0xDC00, 0xD800, 0x1F600, 0x2B, 0, 0x2D]) =
      .ok ([0x41, 0xDC00, 0xD800, 0x1F600, 0x2B, 0, 0x2D], (utf7Encode [0x41, 0xDC00, 0xD800, 0x1F600, 0x2B, 0, 0x2D]).length) :=
  utf7_roundTrip _ (by simp [IsCodePoint]) (by simp [Unpaired, IsHigh, IsLow])

end WeavePy.Codecs
