import WeavePy.Codecs.Chunks
import WeavePy.Codecs.Inverse
import WeavePy.Lib.EarlyReads

/-!
The `unicode_escape` and `raw_unicode_escape` decoders.
-/

namespace WeavePy.Codecs

section Scanning

/-- A point written, with the warning that it gives. -/
abbrev Emitted := ℕ × Option String

def points (cps : List ℕ) : List Emitted := cps.map fun cp => (cp, none)

inductive Escape where
  | text (out : List Emitted) (len : ℕ)
  | err (span : ℕ) (reason : String)
  /-- An escape cut off by the end of the input: an error if nothing follows. -/
  | incomplete (span : ℕ) (reason : String)
  /-- Text if nothing follows. -/
  | atEnd (out : List Emitted) (len : ℕ)

def backslashByte : UInt8 := 0x5C

def hexVal (c : UInt8) : Option ℕ :=
  if '0'.toUInt8 ≤ c ∧ c ≤ '9'.toUInt8 then some (c - '0'.toUInt8).toNat
  else if 'a'.toUInt8 ≤ c ∧ c ≤ 'f'.toUInt8 then some ((c - 'a'.toUInt8).toNat + 10)
  else if 'A'.toUInt8 ≤ c ∧ c ≤ 'F'.toUInt8 then some ((c - 'A'.toUInt8).toNat + 10)
  else none

inductive HexRun where
  | value (ch : ℕ)
  | bad (k : ℕ)
  | short (k : ℕ)

/-- `count` hexadecimal digits behind the first `k`, whose value is `ch`. -/
def hexRun : ℕ → ℕ → ℕ → List UInt8 → HexRun
  | 0, ch, _, _ => .value ch
  | _ + 1, _, k, [] => .short k
  | count + 1, ch, k, c :: s =>
    match hexVal c with
    | some v => hexRun count ((ch <<< 4) + v) (k + 1) s
    | none => .bad k

def hexEscape (count : ℕ) (message tooBig : String) (s : List UInt8) : Escape :=
  match hexRun count 0 0 s with
  | .value ch => if ch > 0x10FFFF then .err (2 + count) tooBig else .text [(ch, none)] (2 + count)
  | .bad k => .err (2 + k) message
  | .short k => .incomplete (2 + k) message

def isOctal (c : UInt8) : Bool := '0'.toUInt8 ≤ c && c ≤ '7'.toUInt8

def octalVal (c : UInt8) : ℕ := (c - '0'.toUInt8).toNat

/-- The value of an octal escape, and how many digits it has behind the first. -/
def octalRun (c : UInt8) : List UInt8 → ℕ × ℕ
  | [] => (octalVal c, 0)
  | d :: s =>
    if isOctal d then
      match s with
      | [] => ((octalVal c <<< 3) + octalVal d, 1)
      | e :: _ =>
        if isOctal e then ((((octalVal c <<< 3) + octalVal d) <<< 3) + octalVal e, 2)
        else ((octalVal c <<< 3) + octalVal d, 1)
    else (octalVal c, 0)

def octalWarning (ch : ℕ) : String :=
  "\"\\" ++ String.ofList (Nat.toDigits 8 ch) ++
    "\" is an invalid octal escape sequence. Such sequences will not work in the future. "

def octalEscape (c : UInt8) (s : List UInt8) : Escape :=
  let r := octalRun c s
  .text [(r.1, if r.1 > 0o377 then some (octalWarning r.1) else none)] (2 + r.2)

def braceOpen : UInt8 := 0x7B
def braceClose : UInt8 := 0x7D

def malformedName : String := "malformed \\N character escape"

/-- `\N`, with `nameToChar` for the lookup of the bytes between the braces. -/
def nameEscape (nameToChar : List UInt8 → Option ℕ) : List UInt8 → Escape
  | [] => .incomplete 2 malformedName
  | c :: s =>
    if c = braceOpen then
      let name := s.takeWhile (· ≠ braceClose)
      if name.length = s.length then .incomplete (3 + name.length) malformedName
      else if name = [] then .err 3 malformedName
      else
        match nameToChar name with
        | some ch => .text [(ch, none)] (4 + name.length)
        | none => .err (4 + name.length) "unknown Unicode character name"
    else .err 2 malformedName

def simpleEscape (c : UInt8) : Option (List ℕ) :=
  if c = '\n'.toUInt8 then some []
  else if c = '\\'.toUInt8 then some [0x5C]
  else if c = 0x27 then some [0x27]
  else if c = 0x22 then some [0x22]
  else if c = 'b'.toUInt8 then some [0x08]
  else if c = 'f'.toUInt8 then some [0x0C]
  else if c = 't'.toUInt8 then some [0x09]
  else if c = 'n'.toUInt8 then some [0x0A]
  else if c = 'r'.toUInt8 then some [0x0D]
  else if c = 'v'.toUInt8 then some [0x0B]
  else if c = 'a'.toUInt8 then some [0x07]
  else none

def escapeWarning (c : UInt8) : String :=
  "\"\\" ++ String.singleton (Char.ofNat c.toNat) ++
    "\" is an invalid escape sequence. Such sequences will not work in the future. "

/-- The escape of `c`, behind the backslash. -/
def escapeBody (nameToChar : List UInt8 → Option ℕ) (c : UInt8) (s : List UInt8) : Escape :=
  match simpleEscape c with
  | some out => .text (points out) 2
  | none =>
    if isOctal c then octalEscape c s
    else if c = 'x'.toUInt8 then hexEscape 2 "truncated \\xXX escape" "illegal Unicode character" s
    else if c = 'u'.toUInt8 then hexEscape 4 "truncated \\uXXXX escape" "illegal Unicode character" s
    else if c = 'U'.toUInt8 then hexEscape 8 "truncated \\UXXXXXXXX escape" "illegal Unicode character" s
    else if c = 'N'.toUInt8 then nameEscape nameToChar s
    else .text [(0x5C, some (escapeWarning c)), (c.toNat, none)] 2

def unicodeEscapeScan (nameToChar : List UInt8 → Option ℕ) : List UInt8 → Escape
  | [] => .text [] 0
  | [c] => if c ≠ backslashByte then .text [(c.toNat, none)] 1 else .incomplete 1 "\\ at end of string"
  | b :: c :: s => if b ≠ backslashByte then .text [(b.toNat, none)] 1 else escapeBody nameToChar c s

def rawEscapeBody (c : UInt8) (s : List UInt8) : Escape :=
  if c = 'u'.toUInt8 then hexEscape 4 "truncated \\uXXXX escape" "\\Uxxxxxxxx out of range" s
  else if c = 'U'.toUInt8 then hexEscape 8 "truncated \\UXXXXXXXX escape" "\\Uxxxxxxxx out of range" s
  else .text [(0x5C, none), (c.toNat, none)] 2

def rawUnicodeEscapeScan : List UInt8 → Escape
  | [] => .text [] 0
  | [c] => if c ≠ backslashByte then .text [(c.toNat, none)] 1 else .atEnd [(c.toNat, none)] 1
  | b :: c :: s => if b ≠ backslashByte then .text [(b.toNat, none)] 1 else rawEscapeBody c s

end Scanning

section Decoding

/-- `ctx.on_error(&mut out, start, start + span, reason)` -/
def DecCtx.escaped (ctx : DecCtx) (i : ℕ) (s : List UInt8) (span : ℕ) (reason : String) :
    Except CodecError (Transducer.Step Emitted) :=
  (ctx.onError i s span reason).map fun r => .read (points r.1) r.2

/-- One turn of the loop of an escape decoder. -/
def escapeStep (ctx : DecCtx) (scan : List UInt8 → Escape) (isFinal : Bool) (i : ℕ) (s : List UInt8) :
    Except CodecError (Transducer.Step Emitted) :=
  match scan s with
  | .text out len => .ok (.read out len)
  | .err span reason => ctx.escaped i s span reason
  | .incomplete span reason => if isFinal then ctx.escaped i s span reason else .ok .hold
  | .atEnd out len => if isFinal then .ok (.read out len) else .ok .hold

/-- The text, the count of bytes consumed, and the first warning. -/
def unicodeEscapeDecode (nameToChar : List UInt8 → Option ℕ) (errors : Handler) (isFinal : Bool) (data : List UInt8) :
    Except CodecError (List ℕ × ℕ × Option String) :=
  (Transducer.decode (escapeStep ⟨.unicodeEscape, errors⟩ (unicodeEscapeScan nameToChar) isFinal) .diverge 0 data).map
    fun r => (r.1.map Prod.fst, r.2, r.1.findSome? Prod.snd)

def rawUnicodeEscapeDecode (errors : Handler) (isFinal : Bool) (data : List UInt8) : Except CodecError (List ℕ × ℕ) :=
  (Transducer.decode (escapeStep ⟨.rawUnicodeEscape, errors⟩ rawUnicodeEscapeScan isFinal) .diverge 0 data).map
    fun r => (r.1.map Prod.fst, r.2)

end Decoding

section Bounds

def Escape.span : Escape → ℕ
  | .text _ len => len
  | .err span _ => span
  | .incomplete span _ => span
  | .atEnd _ len => len

/-- An escape that the end of the input may have cut off. -/
def Escape.waits : Escape → Bool
  | .incomplete _ _ => true
  | .atEnd _ _ => true
  | _ => false

variable {nameToChar : List UInt8 → Option ℕ}

theorem hexRun_bounds (count ch k : ℕ) (s : List UInt8) : match hexRun count ch k s with
    | .value _ => count ≤ s.length
    | .bad k' => k' < k + s.length
    | .short k' => k' = k + s.length := by
  induction count generalizing ch k s with
  | zero => exact Nat.zero_le _
  | succ count ih =>
    cases s with
    | nil => rfl
    | cons c s =>
      rw [hexRun]
      cases hexVal c with
      | none => simp
      | some v =>
        have := ih ((ch <<< 4) + v) (k + 1) s
        dsimp only
        revert this
        cases hexRun count ((ch <<< 4) + v) (k + 1) s <;> simp <;> omega

theorem hexEscape_span (count : ℕ) (message tooBig : String) (s : List UInt8) :
    (hexEscape count message tooBig s).span ≤ s.length + 2 ∧ 0 < (hexEscape count message tooBig s).span := by
  have := hexRun_bounds count 0 0 s
  unfold hexEscape
  revert this
  cases hexRun count 0 0 s with
  | value ch =>
    intro h
    dsimp only at h ⊢
    split_ifs <;> simp only [Escape.span] <;> omega
  | bad k =>
    intro h
    simp only [Escape.span] at h ⊢
    omega
  | short k =>
    intro h
    simp only [Escape.span] at h ⊢
    omega

theorem octalRun_bound (c : UInt8) (s : List UInt8) : (octalRun c s).2 ≤ s.length := by
  rcases s with - | ⟨d, - | ⟨e, s⟩⟩
  · exact Nat.le_refl _
  · unfold octalRun
    dsimp only
    split_ifs <;> simp
  · unfold octalRun
    dsimp only
    split_ifs <;> simp

theorem nameEscape_span (s : List UInt8) : (nameEscape nameToChar s).span ≤ s.length + 2 ∧ 0 < (nameEscape nameToChar s).span := by
  cases s with
  | nil => exact ⟨Nat.le_refl _, Nat.zero_lt_succ _⟩
  | cons c s =>
    have hname := (List.takeWhile_sublist (fun b => decide (b ≠ braceClose)) (l := s)).length_le
    unfold nameEscape
    dsimp only
    split_ifs with hbrace hall hempty
    · simp only [Escape.span, List.length_cons]
      omega
    · simp [Escape.span]
    · cases nameToChar _ <;> simp only [Escape.span, List.length_cons] <;> omega
    · simp [Escape.span]

theorem escapeBody_span (c : UInt8) (s : List UInt8) :
    0 < (escapeBody nameToChar c s).span ∧ (escapeBody nameToChar c s).span ≤ s.length + 2 := by
  have hoctal := octalRun_bound c s
  unfold escapeBody
  cases simpleEscape c with
  | some out => simp [Escape.span]
  | none =>
    dsimp only
    split_ifs
    · simp only [octalEscape, Escape.span]
      omega
    · exact ⟨(hexEscape_span _ _ _ s).2, (hexEscape_span _ _ _ s).1⟩
    · exact ⟨(hexEscape_span _ _ _ s).2, (hexEscape_span _ _ _ s).1⟩
    · exact ⟨(hexEscape_span _ _ _ s).2, (hexEscape_span _ _ _ s).1⟩
    · exact ⟨(nameEscape_span s).2, (nameEscape_span s).1⟩
    · simp [Escape.span]

theorem rawEscapeBody_span (c : UInt8) (s : List UInt8) :
    0 < (rawEscapeBody c s).span ∧ (rawEscapeBody c s).span ≤ s.length + 2 := by
  unfold rawEscapeBody
  split_ifs
  · exact ⟨(hexEscape_span _ _ _ s).2, (hexEscape_span _ _ _ s).1⟩
  · exact ⟨(hexEscape_span _ _ _ s).2, (hexEscape_span _ _ _ s).1⟩
  · simp [Escape.span]

theorem unicodeEscapeScan_span {s : List UInt8} (hs : s ≠ []) :
    0 < (unicodeEscapeScan nameToChar s).span ∧ (unicodeEscapeScan nameToChar s).span ≤ s.length := by
  rcases s with - | ⟨b, - | ⟨c, s⟩⟩
  · exact absurd rfl hs
  · rw [unicodeEscapeScan]
    split_ifs <;> simp [Escape.span]
  · rw [unicodeEscapeScan]
    split_ifs
    · simp [Escape.span]
    · exact escapeBody_span c s

theorem rawUnicodeEscapeScan_span {s : List UInt8} (hs : s ≠ []) :
    0 < (rawUnicodeEscapeScan s).span ∧ (rawUnicodeEscapeScan s).span ≤ s.length := by
  rcases s with - | ⟨b, - | ⟨c, s⟩⟩
  · exact absurd rfl hs
  · rw [rawUnicodeEscapeScan]
    split_ifs <;> simp [Escape.span]
  · rw [rawUnicodeEscapeScan]
    split_ifs
    · simp [Escape.span]
    · exact rawEscapeBody_span c s

end Bounds

end WeavePy.Codecs
