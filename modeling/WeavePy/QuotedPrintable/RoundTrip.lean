import WeavePy.Lib.ByteOrder
import Mathlib.Data.List.Basic
import Mathlib.Logic.Function.Iterate
import Mathlib.Data.List.Induction

/-!
`binascii.b2a_qp` and `binascii.a2b_qp` over bytes already read from their arguments.
-/

namespace WeavePy.QuotedPrintable

def isQpHex (c : UInt8) : Bool :=
  ('0'.toUInt8 ≤ c && c ≤ '9'.toUInt8) || ('A'.toUInt8 ≤ c && c ≤ 'F'.toUInt8) || ('a'.toUInt8 ≤ c && c ≤ 'f'.toUInt8)

def qpHexVal (c : UInt8) : UInt8 :=
  if '0'.toUInt8 ≤ c ∧ c ≤ '9'.toUInt8 then c - '0'.toUInt8
  else if 'A'.toUInt8 ≤ c ∧ c ≤ 'F'.toUInt8 then c - 'A'.toUInt8 + 10
  else if 'a'.toUInt8 ≤ c ∧ c ≤ 'f'.toUInt8 then c - 'a'.toUInt8 + 10
  else 0

def hexDigits : List UInt8 := "0123456789ABCDEF".toList.map Char.toUInt8

def qpToHex (ch : UInt8) : List UInt8 :=
  [hexDigits.getD (ch >>> 4).toNat 0, hexDigits.getD (ch &&& 0x0f).toNat 0]

section Decoding

/-- The bytes left after a soft line break: `d` is the one behind the `=`. -/
def afterSoftBreak (d : UInt8) (after : List UInt8) : List UInt8 :=
  if d ≠ '\n'.toUInt8 then (after.dropWhile (· ≠ '\n'.toUInt8)).tail else after

theorem afterSoftBreak_length (d : UInt8) (after : List UInt8) : (afterSoftBreak d after).length ≤ after.length := by
  unfold afterSoftBreak
  split_ifs
  · have := (List.dropWhile_sublist (· ≠ '\n'.toUInt8) (l := after)).length_le
    rw [List.length_tail]
    omega
  · exact Nat.le_refl _

def a2bQp (header : Bool) : List UInt8 → List UInt8
  | [] => []
  | c :: rest =>
    if c = '='.toUInt8 then
      match rest with
      | [] => []
      | d :: after =>
        if d = '\n'.toUInt8 ∨ d = '\r'.toUInt8 then a2bQp header (afterSoftBreak d after)
        else if d = '='.toUInt8 then '='.toUInt8 :: a2bQp header after
        else
          match after with
          | e :: more =>
            if isQpHex d && isQpHex e then (qpHexVal d <<< 4 ||| qpHexVal e) :: a2bQp header more
            -- the byte behind the `=` is read again
            else '='.toUInt8 :: a2bQp header (d :: e :: more)
          | [] => '='.toUInt8 :: a2bQp header [d]
    else if header && c == '_'.toUInt8 then ' '.toUInt8 :: a2bQp header rest
    else c :: a2bQp header rest
termination_by data => data.length
decreasing_by
  all_goals simp only [List.length_cons, List.length_nil]
  · have := afterSoftBreak_length d after
    omega
  all_goals omega

end Decoding

section Encoding

def maxLineSize : ℕ := 76

structure Settings where
  quotetabs : Bool
  istext : Bool
  header : Bool

structure EncodeState where
  out : List UInt8
  linelen : ℕ
  rest : List UInt8

/-- Whether the first `\n` has a `\r` before it. -/
def crlfEnds (data : List UInt8) : Bool :=
  (data.findIdx? (· == '\n'.toUInt8)).any fun p => decide (p > 0) && data[p - 1]? == some '\r'.toUInt8

def lineEnd (crlf : Bool) : List UInt8 := if crlf then ['\r'.toUInt8, '\n'.toUInt8] else ['\n'.toUInt8]

def needsQuote (s : Settings) (linelen : ℕ) (c : UInt8) (after : List UInt8) : Bool :=
  c > 126
    || c == '='.toUInt8
    || (s.header && c == '_'.toUInt8)
    || (c == '.'.toUInt8 && linelen == 0
      && after.head?.all fun d => d == '\n'.toUInt8 || d == '\r'.toUInt8 || d == 0)
    || (!s.istext && (c == '\r'.toUInt8 || c == '\n'.toUInt8))
    || ((c == '\t'.toUInt8 || c == ' '.toUInt8) && after.isEmpty)
    || (c < 33 && c != '\r'.toUInt8 && c != '\n'.toUInt8 && (s.quotetabs || (c != '\t'.toUInt8 && c != ' '.toUInt8)))

def quotedByte (c : UInt8) : List UInt8 := '='.toUInt8 :: qpToHex c

/-- The byte just before a line end is quoted in place when it is a blank. -/
def quoteTrailing (out : List UInt8) : List UInt8 :=
  match out.getLast? with
  | some last =>
    if last = ' '.toUInt8 ∨ last = '\t'.toUInt8 then out.dropLast ++ quotedByte last else out
  | none => out

def softBreak (crlf : Bool) (st : EncodeState) : EncodeState :=
  { st with out := st.out ++ '='.toUInt8 :: lineEnd crlf, linelen := 0 }

def emitQuoted (crlf : Bool) (st : EncodeState) (c : UInt8) (after : List UInt8) : EncodeState :=
  let st := if st.linelen + 3 ≥ maxLineSize then softBreak crlf st else st
  { out := st.out ++ quotedByte c, linelen := st.linelen + 3, rest := after }

def emitLineEnd (crlf : Bool) (st : EncodeState) (c : UInt8) (after : List UInt8) : EncodeState :=
  { out := quoteTrailing st.out ++ lineEnd crlf, linelen := 0, rest := if c = '\r'.toUInt8 then after.tail else after }

def emitPlain (s : Settings) (crlf : Bool) (st : EncodeState) (c : UInt8) (after : List UInt8) : EncodeState :=
  let st :=
    if after.head?.any (· ≠ '\n'.toUInt8) ∧ st.linelen + 1 ≥ maxLineSize then softBreak crlf st else st
  { out := st.out ++ [if s.header && c == ' '.toUInt8 then '_'.toUInt8 else c], linelen := st.linelen + 1, rest := after }

def isLineEnd (c : UInt8) (after : List UInt8) : Bool :=
  c == '\n'.toUInt8 || (c == '\r'.toUInt8 && after.head? == some '\n'.toUInt8)

/-- One turn of the loop; nothing is done once the data is used up. -/
def b2aQpStep (s : Settings) (crlf : Bool) (st : EncodeState) : EncodeState :=
  match st.rest with
  | [] => st
  | c :: after =>
    if needsQuote s st.linelen c after then emitQuoted crlf st c after
    else if s.istext && isLineEnd c after then emitLineEnd crlf st c after
    else emitPlain s crlf st c after

def b2aQpStart (data : List UInt8) : EncodeState := ⟨[], 0, data⟩

def b2aQp (s : Settings) (data : List UInt8) : List UInt8 :=
  ((b2aQpStep s (crlfEnds data))^[data.length] (b2aQpStart data)).out

theorem b2aQpStep_rest {s : Settings} {crlf : Bool} (st : EncodeState) :
    (b2aQpStep s crlf st).rest.length ≤ st.rest.length - 1 := by
  unfold b2aQpStep
  cases hrest : st.rest with
  | nil => simp [hrest]
  | cons c after =>
    dsimp only
    split_ifs
    · exact Nat.le_refl _
    · unfold emitLineEnd
      split_ifs <;> simp
    · exact Nat.le_refl _

theorem iterate_rest {s : Settings} {crlf : Bool} (n : ℕ) (st : EncodeState) :
    ((b2aQpStep s crlf)^[n] st).rest.length ≤ st.rest.length - n := by
  induction n with
  | zero => exact Nat.le_refl _
  | succ n ih =>
    rw [Function.iterate_succ_apply']
    have := @b2aQpStep_rest s crlf ((b2aQpStep s crlf)^[n] st)
    omega

/-- As many turns as there are bytes use up the data. -/
theorem data_used {s : Settings} {crlf : Bool} (data : List UInt8) :
    ((b2aQpStep s crlf)^[data.length] (b2aQpStart data)).rest = [] := by
  apply List.eq_nil_of_length_eq_zero
  have := @iterate_rest s crlf data.length (b2aQpStart data)
  simp only [b2aQpStart, Nat.sub_self] at this ⊢
  omega

end Encoding

end WeavePy.QuotedPrintable

/-!
What `b2a_qp` writes is a row of pieces, and `a2b_qp` reads it back piece by piece.
-/

namespace WeavePy.QuotedPrintable

section Bytes

theorem hex_read_back (c : UInt8) : ∃ d e, qpToHex c = [d, e] ∧ isQpHex d = true ∧ isQpHex e = true ∧
    qpHexVal d <<< 4 ||| qpHexVal e = c := by
  refine ⟨_, _, rfl, ?_⟩
  apply Bytes.byte_cases (p := fun c => isQpHex (hexDigits.getD (c >>> 4).toNat 0) = true ∧
    isQpHex (hexDigits.getD (c &&& 0x0f).toNat 0) = true ∧
    qpHexVal (hexDigits.getD (c >>> 4).toNat 0) <<< 4 ||| qpHexVal (hexDigits.getD (c &&& 0x0f).toNat 0) = c)
  decide +kernel

theorem hex_digit_sound {d : UInt8} (h : isQpHex d = true) :
    d ≠ '\n'.toUInt8 ∧ d ≠ '\r'.toUInt8 ∧ d ≠ '='.toUInt8 ∧ d ≠ ' '.toUInt8 ∧ d ≠ '\t'.toUInt8 := by
  refine ⟨?_, ?_, ?_, ?_, ?_⟩ <;> rintro rfl <;> exact absurd h (by decide)

end Bytes

section Pieces

/-- What one stretch of encoded output stands for. -/
inductive Piece where
  | plain (b : UInt8)
  | quoted (b : UInt8)
  | soft

def Piece.bytes (crlf : Bool) : Piece → List UInt8
  | .plain b => [b]
  | .quoted b => quotedByte b
  | .soft => '='.toUInt8 :: lineEnd crlf

def Piece.value (header : Bool) : Piece → List UInt8
  | .plain b => [if header && b == '_'.toUInt8 then ' '.toUInt8 else b]
  | .quoted b => [b]
  | .soft => []

def Piece.Sound : Piece → Prop
  | .plain b => b ≠ '='.toUInt8
  | _ => True

variable {header crlf : Bool}

theorem a2bQp_plain {b : UInt8} (hb : b ≠ '='.toUInt8) (rest : List UInt8) :
    a2bQp header (b :: rest) = (if header && b == '_'.toUInt8 then ' '.toUInt8 else b) :: a2bQp header rest := by
  rw [a2bQp.eq_def]
  dsimp only
  rw [if_neg hb]
  split_ifs <;> rfl

theorem a2bQp_quoted (b : UInt8) (rest : List UInt8) :
    a2bQp header (quotedByte b ++ rest) = b :: a2bQp header rest := by
  obtain ⟨d, e, hhex, hd, he, hval⟩ := hex_read_back b
  obtain ⟨hnl, hcr, heq, -, -⟩ := hex_digit_sound hd
  rw [quotedByte, hhex]
  change a2bQp header ('='.toUInt8 :: d :: e :: rest) = _
  rw [a2bQp.eq_def]
  simp [hnl, hcr, heq, hd, he, hval]

theorem a2bQp_soft (rest : List UInt8) :
    a2bQp header ('='.toUInt8 :: lineEnd crlf ++ rest) = a2bQp header rest := by
  cases crlf with
  | false =>
    change a2bQp header ('='.toUInt8 :: '\n'.toUInt8 :: rest) = _
    rw [a2bQp.eq_def]
    simp [afterSoftBreak]
  | true =>
    change a2bQp header ('='.toUInt8 :: '\r'.toUInt8 :: '\n'.toUInt8 :: rest) = _
    rw [a2bQp.eq_def]
    simp +decide [afterSoftBreak]

theorem a2bQp_piece {p : Piece} (hp : p.Sound) (rest : List UInt8) :
    a2bQp header (p.bytes crlf ++ rest) = p.value header ++ a2bQp header rest := by
  cases p with
  | plain b => exact a2bQp_plain hp rest
  | quoted b => exact a2bQp_quoted b rest
  | soft => exact a2bQp_soft rest

theorem a2bQp_pieces (pieces : List Piece) (hsound : ∀ p ∈ pieces, p.Sound) :
    a2bQp header (pieces.flatMap (Piece.bytes crlf)) = pieces.flatMap (Piece.value header) := by
  induction pieces with
  | nil => simp [a2bQp]
  | cons p pieces ih =>
    rw [List.flatMap_cons, List.flatMap_cons, a2bQp_piece (hsound p List.mem_cons_self),
      ih fun q hq => hsound q (List.mem_cons_of_mem p hq)]

end Pieces

section LineEnds

/-- Every `\r\n` and every bare `\n` becomes `eol`; other bytes stay. -/
def normaliseEnds (eol : List UInt8) : List UInt8 → List UInt8
  | [] => []
  | c :: rest =>
    if c = '\n'.toUInt8 then eol ++ normaliseEnds eol rest
    else if c = '\r'.toUInt8 then
      match rest with
      | d :: more => if d = '\n'.toUInt8 then eol ++ normaliseEnds eol more else c :: normaliseEnds eol (d :: more)
      | [] => [c]
    else c :: normaliseEnds eol rest

theorem normaliseEnds_lineEnd {eol : List UInt8} {c : UInt8} {after : List UInt8} (h : isLineEnd c after = true) :
    normaliseEnds eol (c :: after) = eol ++ normaliseEnds eol (if c = '\r'.toUInt8 then after.tail else after) := by
  by_cases hnl : c = '\n'.toUInt8
  · subst hnl
    rw [normaliseEnds.eq_def]
    rfl
  · have hcr : c = '\r'.toUInt8 ∧ after.head? = some '\n'.toUInt8 := by simpa [isLineEnd, hnl] using h
    obtain ⟨rfl, hhead⟩ := hcr
    cases after with
    | nil => simp at hhead
    | cons d more =>
      obtain rfl : d = '\n'.toUInt8 := by simpa using hhead
      rw [normaliseEnds, if_neg (by decide), if_pos rfl, if_pos rfl]
      rfl

theorem normaliseEnds_plain {eol : List UInt8} {c : UInt8} {after : List UInt8} (h : isLineEnd c after = false) :
    normaliseEnds eol (c :: after) = c :: normaliseEnds eol after := by
  have hnl : c ≠ '\n'.toUInt8 := by
    rintro rfl
    simp [isLineEnd] at h
  rw [normaliseEnds.eq_def]
  dsimp only
  rw [if_neg hnl]
  by_cases hcr : c = '\r'.toUInt8
  · rw [if_pos hcr]
    cases after with
    | nil => simp [normaliseEnds]
    | cons d more =>
      have hd : d ≠ '\n'.toUInt8 := by
        rintro rfl
        simp [isLineEnd, hcr] at h
      exact if_neg hd
  · exact if_neg hcr

/-- The first `\n` follows a `\r`. -/
def FirstEndIsCrlf (data : List UInt8) : Prop :=
  ∃ before after, data = before ++ '\r'.toUInt8 :: '\n'.toUInt8 :: after ∧ '\n'.toUInt8 ∉ before

theorem crlfEnds_iff (data : List UInt8) : crlfEnds data = true ↔ FirstEndIsCrlf data := by
  unfold crlfEnds FirstEndIsCrlf
  constructor
  · intro h
    obtain ⟨p, hp, hcr⟩ := (Option.any_eq_true _ _).1 h
    obtain ⟨hlt, hnl, hbefore⟩ := List.findIdx?_eq_some_iff_getElem.1 hp
    simp only [gt_iff_lt, Bool.and_eq_true, decide_eq_true_eq, beq_iff_eq] at hcr hnl
    obtain ⟨hpos, hat⟩ := hcr
    obtain ⟨q, rfl⟩ : ∃ q, p = q + 1 := ⟨p - 1, by omega⟩
    rw [Nat.add_sub_cancel] at hat
    refine ⟨data.take q, data.drop (q + 2), ?_, ?_⟩
    · have hq : data.drop q = data[q] :: data.drop (q + 1) := List.drop_eq_getElem_cons (by omega)
      have hq' : data.drop (q + 1) = data[q + 1] :: data.drop (q + 2) := List.drop_eq_getElem_cons hlt
      rw [List.getElem?_eq_getElem (by omega), Option.some.injEq] at hat
      rw [hq', hnl, hat] at hq
      rw [← hq, List.take_append_drop]
    · intro hmem
      obtain ⟨i, hi, hget⟩ := List.mem_iff_getElem.1 hmem
      rw [List.length_take] at hi
      rw [List.getElem_take] at hget
      have := hbefore i (by omega)
      simp [hget] at this
  · rintro ⟨before, after, rfl, hbefore⟩
    have hindex : (before ++ '\r'.toUInt8 :: '\n'.toUInt8 :: after).findIdx? (· == '\n'.toUInt8) = some (before.length + 1) := by
      have hnone : before.findIdx? (· == '\n'.toUInt8) = none := by
        rw [List.findIdx?_eq_none_iff]
        intro b hb
        simp only [beq_eq_false_iff_ne]
        rintro rfl
        exact hbefore hb
      rw [List.findIdx?_append, hnone]
      simp +decide [List.findIdx?_cons, Nat.add_comm]
    rw [hindex]
    simp

instance (data : List UInt8) : Decidable (FirstEndIsCrlf data) := decidable_of_iff _ (crlfEnds_iff data)

end LineEnds

section Encoding

variable {s : Settings} {crlf : Bool} {target : List UInt8} {st : EncodeState} {c : UInt8} {after : List UInt8}

/-- What is still to come for the bytes not read yet. -/
def pending (s : Settings) (crlf : Bool) (rest : List UInt8) : List UInt8 :=
  if s.istext then normaliseEnds (lineEnd crlf) rest else rest

/-- The output so far is a row of pieces; with what is pending they stand for `target`. -/
def Written (s : Settings) (crlf : Bool) (target : List UInt8) (st : EncodeState) : Prop :=
  ∃ pieces : List Piece, (∀ p ∈ pieces, p.Sound) ∧ st.out = pieces.flatMap (Piece.bytes crlf) ∧
    pieces.flatMap (Piece.value s.header) ++ pending s crlf st.rest = target

theorem Written.append {out : List UInt8} {pieces more : List Piece} {rest : List UInt8} {n : ℕ}
    (hsound : ∀ p ∈ pieces, p.Sound) (hout : out = pieces.flatMap (Piece.bytes crlf))
    (hmore : ∀ p ∈ more, p.Sound)
    (htarget : pieces.flatMap (Piece.value s.header) ++ (more.flatMap (Piece.value s.header) ++ pending s crlf rest) = target) :
    Written s crlf target ⟨out ++ more.flatMap (Piece.bytes crlf), n, rest⟩ := by
  refine ⟨pieces ++ more, ?_, ?_, ?_⟩
  · intro p hp
    exact (List.mem_append.1 hp).elim (hsound p) (hmore p)
  · rw [hout, List.flatMap_append]
  · rw [List.flatMap_append, List.append_assoc]
    exact htarget

theorem Written.softBreak (h : Written s crlf target st) : Written s crlf target (softBreak crlf st) := by
  obtain ⟨pieces, hsound, hout, htarget⟩ := h
  have hsoft : '='.toUInt8 :: lineEnd crlf = [Piece.soft].flatMap (Piece.bytes crlf) := by simp [Piece.bytes]
  unfold QuotedPrintable.softBreak
  rw [hsoft]
  exact Written.append hsound hout (by simp [Piece.Sound]) htarget

theorem needsQuote_plain (h : needsQuote s st.linelen c after = false) :
    c ≠ '='.toUInt8 ∧ (s.header = true → c ≠ '_'.toUInt8) := by
  constructor
  · rintro rfl
    simp [needsQuote] at h
  · rintro hheader rfl
    simp [needsQuote, hheader] at h

theorem needsQuote_text (hs : s.istext = true) (h : needsQuote s st.linelen c after = true) :
    c ≠ '\n'.toUInt8 ∧ c ≠ '\r'.toUInt8 := by
  constructor
  all_goals
    rintro rfl
    revert h
    simp +decide [needsQuote, hs]

theorem Written.emitQuoted (h : Written s crlf target st) (hrest : st.rest = c :: after)
    (hquote : needsQuote s st.linelen c after = true) : Written s crlf target (emitQuoted crlf st c after) := by
  have hpending : pending s crlf (c :: after) = c :: pending s crlf after := by
    unfold pending
    split_ifs with htext
    · obtain ⟨hnl, hcr⟩ := needsQuote_text htext hquote
      exact normaliseEnds_plain (by simp [isLineEnd, hnl, hcr])
    · rfl
  have hbroken : Written s crlf target (if st.linelen + 3 ≥ maxLineSize then QuotedPrintable.softBreak crlf st else st) := by
    split_ifs
    · exact h.softBreak
    · exact h
  have hsame : (if st.linelen + 3 ≥ maxLineSize then QuotedPrintable.softBreak crlf st else st).rest = c :: after := by
    split_ifs <;> exact hrest
  obtain ⟨pieces, hsound, hout, htarget⟩ := hbroken
  rw [hsame, hpending] at htarget
  have hquoted : quotedByte c = [Piece.quoted c].flatMap (Piece.bytes crlf) := by simp [Piece.bytes]
  unfold QuotedPrintable.emitQuoted
  rw [hquoted]
  exact Written.append hsound hout (by simp [Piece.Sound]) htarget

theorem Written.emitPlain (h : Written s crlf target st) (hrest : st.rest = c :: after)
    (hquote : needsQuote s st.linelen c after = false) (hend : (s.istext && isLineEnd c after) = false) :
    Written s crlf target (emitPlain s crlf st c after) := by
  obtain ⟨heq, hunderscore⟩ := needsQuote_plain hquote
  have hpending : pending s crlf (c :: after) = c :: pending s crlf after := by
    unfold pending
    split_ifs with htext
    · exact normaliseEnds_plain (by simpa [htext] using hend)
    · rfl
  let broken := if after.head?.any (· ≠ '\n'.toUInt8) ∧ st.linelen + 1 ≥ maxLineSize then QuotedPrintable.softBreak crlf st else st
  have hbroken : Written s crlf target broken ∧ broken.rest = c :: after := by
    dsimp only [broken]
    split_ifs
    · exact ⟨h.softBreak, hrest⟩
    · exact ⟨h, hrest⟩
  obtain ⟨⟨pieces, hsound, hout, htarget⟩, hsame⟩ := hbroken
  rw [hsame, hpending] at htarget
  have hbyte : ∀ b : UInt8, [b] = [Piece.plain b].flatMap (Piece.bytes crlf) := fun b => by simp [Piece.bytes]
  unfold QuotedPrintable.emitPlain
  rw [hbyte]
  apply Written.append hsound hout
  · intro p hp
    obtain rfl := List.mem_singleton.1 hp
    unfold Piece.Sound
    split_ifs
    · decide
    · exact heq
  · have hvalue : Piece.value s.header (.plain (if s.header && c == ' '.toUInt8 then '_'.toUInt8 else c)) = [c] := by
      unfold Piece.value
      cases hh : s.header with
      | false => simp
      | true =>
        by_cases hspace : c = ' '.toUInt8
        · simp [hspace]
        · simp [hspace, hunderscore hh]
    rw [List.flatMap_singleton, hvalue]
    exact htarget

/-- Quoting a blank that was written plainly changes how it is written, not what it stands for. -/
theorem quoteTrailing_pieces {pieces : List Piece} (hsound : ∀ p ∈ pieces, p.Sound) :
    ∃ pieces' : List Piece, (∀ p ∈ pieces', p.Sound) ∧
      quoteTrailing (pieces.flatMap (Piece.bytes crlf)) = pieces'.flatMap (Piece.bytes crlf) ∧
      pieces'.flatMap (Piece.value s.header) = pieces.flatMap (Piece.value s.header) := by
  by_cases hblank : ∃ b, (pieces.flatMap (Piece.bytes crlf)).getLast? = some b ∧ (b = ' '.toUInt8 ∨ b = '\t'.toUInt8)
  · obtain ⟨b, hlast, hb⟩ := hblank
    cases pieces using List.reverseRecOn with
    | nil => simp at hlast
    | append_singleton pieces p =>
      rw [List.flatMap_append] at hlast
      obtain rfl : p = .plain b := by
        cases p with
        | plain b' => simpa [Piece.bytes] using hlast
        | quoted b' =>
          obtain ⟨d, e, hhex, -, he, -⟩ := hex_read_back b'
          obtain ⟨-, -, -, hspace, htab⟩ := hex_digit_sound he
          have : e = b := by simpa [Piece.bytes, quotedByte, hhex] using hlast
          subst this
          exact absurd hb (by simp [hspace, htab])
        | soft =>
          have : '\n'.toUInt8 = b := by
            cases crlf <;> simpa [Piece.bytes, lineEnd] using hlast
          subst this
          exact absurd hb (by decide)
      refine ⟨pieces ++ [.quoted b], ?_, ?_, ?_⟩
      · intro q hq
        rcases List.mem_append.1 hq with hq | hq
        · exact hsound q (List.mem_append_left _ hq)
        · obtain rfl := List.mem_singleton.1 hq
          trivial
      · unfold quoteTrailing
        simp only [List.flatMap_append, hlast, if_pos hb]
        simp [Piece.bytes]
      · rw [List.flatMap_append, List.flatMap_append]
        have : (b == '_'.toUInt8) = false := by rcases hb with rfl | rfl <;> decide
        simp [Piece.value, this]
  · refine ⟨pieces, hsound, ?_, rfl⟩
    unfold quoteTrailing
    split
    · next last hlast =>
      rw [if_neg]
      exact fun hb => hblank ⟨last, hlast, hb⟩
    · rfl

theorem Written.emitLineEnd (h : Written s crlf target st) (hrest : st.rest = c :: after)
    (hend : (s.istext && isLineEnd c after) = true) : Written s crlf target (emitLineEnd crlf st c after) := by
  obtain ⟨htext, hend⟩ := (Bool.and_eq_true _ _).mp hend
  have hpending : ∀ rest, pending s crlf rest = normaliseEnds (lineEnd crlf) rest := fun _ => if_pos htext
  obtain ⟨pieces, hsound, hout, htarget⟩ := h
  obtain ⟨pieces', hsound', hquoted, hvalue⟩ := @quoteTrailing_pieces s crlf pieces hsound
  rw [hrest, hpending, normaliseEnds_lineEnd hend, ← hpending, ← hvalue] at htarget
  have hbytes : ((lineEnd crlf).map Piece.plain).flatMap (Piece.bytes crlf) = lineEnd crlf := by
    cases crlf <;> rfl
  unfold QuotedPrintable.emitLineEnd
  rw [hout, hquoted]
  have happend := @Written.append s crlf target _ pieces' ((lineEnd crlf).map Piece.plain)
    (if c = '\r'.toUInt8 then after.tail else after) 0 hsound' rfl
  rw [hbytes] at happend
  apply happend
  · cases crlf <;> simp +decide [lineEnd, Piece.Sound]
  · have hend : ((lineEnd crlf).map Piece.plain).flatMap (Piece.value s.header) = lineEnd crlf := by
      cases crlf <;> simp +decide [lineEnd, Piece.value]
    rw [hend]
    exact htarget

theorem Written.step (h : Written s crlf target st) : Written s crlf target (b2aQpStep s crlf st) := by
  unfold b2aQpStep
  cases hrest : st.rest with
  | nil => exact h
  | cons c after =>
    dsimp only
    split_ifs with hquote hend
    · exact h.emitQuoted hrest hquote
    · exact h.emitLineEnd hrest hend
    · exact h.emitPlain hrest (Bool.eq_false_iff.2 hquote) (Bool.eq_false_iff.2 hend)

theorem written_iterate (data : List UInt8) (n : ℕ) :
    Written s crlf (pending s crlf data) ((b2aQpStep s crlf)^[n] (b2aQpStart data)) := by
  induction n with
  | zero => exact ⟨[], by simp, rfl, rfl⟩
  | succ n ih =>
    rw [Function.iterate_succ_apply']
    exact ih.step

theorem a2bQp_b2aQp (s : Settings) (data : List UInt8) :
    a2bQp s.header (b2aQp s data) = pending s (crlfEnds data) data := by
  obtain ⟨pieces, hsound, hout, htarget⟩ := @written_iterate s (crlfEnds data) data data.length
  have hnil : pending s (crlfEnds data) [] = [] := by
    unfold pending
    split_ifs <;> simp [normaliseEnds]
  rw [data_used, hnil, List.append_nil] at htarget
  rw [b2aQp, hout, a2bQp_pieces pieces hsound, htarget]

end Encoding

theorem quotedPrintable_roundTrip (data : List UInt8) (quotetabs header : Bool) :
    a2bQp header (b2aQp ⟨quotetabs, false, header⟩ data) = data ∧
    a2bQp header (b2aQp ⟨quotetabs, true, header⟩ data) =
      normaliseEnds (if FirstEndIsCrlf data then ['\r'.toUInt8, '\n'.toUInt8] else ['\n'.toUInt8]) data := by
  constructor
  · exact a2bQp_b2aQp ⟨quotetabs, false, header⟩ data
  · have hends : lineEnd (crlfEnds data) = if FirstEndIsCrlf data then ['\r'.toUInt8, '\n'.toUInt8] else ['\n'.toUInt8] := by
      simp only [lineEnd, crlfEnds_iff]
    rw [← hends]
    exact a2bQp_b2aQp ⟨quotetabs, true, header⟩ data

end WeavePy.QuotedPrintable
