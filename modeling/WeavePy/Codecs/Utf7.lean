import WeavePy.Codecs.Wide

/-!
UTF-7, decoded: direct characters, and base64 between `+` and the end of a shift.
-/

namespace WeavePy.Codecs

def plus : UInt8 := 0x2B
def minus : UInt8 := 0x2D

def isBase64 (c : UInt8) : Bool :=
  let c := c.toNat
  (0x41 ≤ c && c ≤ 0x5A) || (0x61 ≤ c && c ≤ 0x7A) || (0x30 ≤ c && c ≤ 0x39) || c == 0x2B || c == 0x2F

def fromBase64 (c : UInt8) : ℕ :=
  let c := c.toNat
  if 0x41 ≤ c ∧ c ≤ 0x5A then c - 0x41
  else if 0x61 ≤ c ∧ c ≤ 0x7A then c - 0x61 + 26
  else if 0x30 ≤ c ∧ c ≤ 0x39 then c - 0x30 + 52
  else if c = 0x2B then 62
  else 63

/-- The bits of a shift not yet written, and a high surrogate that waits for its low one. -/
structure Bits where
  bits : ℕ
  buffer : ℕ
  surrogate : ℕ
  deriving DecidableEq, Repr

def Bits.zero : Bits := ⟨0, 0, 0⟩

/-- A character of base64: the bits left, and the points it completes. -/
def Bits.push (b : Bits) (ch : UInt8) : Bits × List ℕ :=
  let buffer := (b.buffer <<< 6) ||| fromBase64 ch
  let bits := b.bits + 6
  if bits ≥ 16 then
    let outCh := (buffer >>> (bits - 16)) &&& 0xFFFF
    let bits := bits - 16
    let buffer := buffer &&& ((1 <<< bits) - 1)
    if b.surrogate ≠ 0 ∧ IsLow outCh then
      (⟨bits, buffer, 0⟩, [0x10000 + ((b.surrogate - 0xD800) <<< 10) + (outCh - 0xDC00)])
    else
      let out := if b.surrogate ≠ 0 then [b.surrogate] else []
      if 0xD800 ≤ outCh ∧ outCh ≤ 0xDBFF then (⟨bits, buffer, outCh⟩, out)
      else (⟨bits, buffer, 0⟩, out ++ [outCh])
  else (⟨bits, buffer, b.surrogate⟩, [])

/-- The end of a shift at `ch`: why it is ill-formed, or the points still to be written. -/
def Bits.leave (b : Bits) (ch : UInt8) : Except String (List ℕ) :=
  if b.bits > 0 ∧ b.bits ≥ 6 then .error "partial character in shift sequence"
  else if b.bits > 0 ∧ b.buffer ≠ 0 then .error "non-zero padding bits in shift sequence"
  else if b.surrogate ≠ 0 ∧ ch.toNat ≤ 127 ∧ ch ≠ plus then .ok [b.surrogate]
  else .ok []

/-- A shift that the input ends in does not end well. -/
def Bits.pending (b : Bits) : Bool :=
  b.surrogate != 0 || b.bits ≥ 6 || (b.bits > 0 && b.buffer != 0)

structure Utf7 where
  inShift : Bool
  shiftOutStart : ℕ
  startInPos : ℕ
  pending : Bits
  out : List ℕ
  deriving DecidableEq, Repr

def Utf7.new : Utf7 := ⟨false, 0, 0, .zero, []⟩

/-- `ctx.on_error(&mut out, start, stop, reason)`: the position to go on from. -/
def Utf7.fail (ctx : DecCtx) (input : List UInt8) (st : Utf7) (start stop : ℕ) (reason : String) :
    Except CodecError (ℕ × Utf7) :=
  (ctx.onError start (input.drop start) (stop - start) reason).map
    fun r => (start + r.2, { st with out := st.out ++ r.1 })

/-- One turn of the loop, at the byte `ch` at position `i`. -/
def Utf7.step (ctx : DecCtx) (input : List UInt8) (i : ℕ) (st : Utf7) (ch : UInt8) :
    Except CodecError (ℕ × Utf7) :=
  if st.inShift then
    if isBase64 ch then
      let (pending, out) := st.pending.push ch
      .ok (i + 1, { st with pending, out := st.out ++ out })
    else
      match st.pending.leave ch with
      | .error reason =>
        Utf7.fail ctx input { st with inShift := false, pending := .zero } st.startInPos (i + 1)
          reason
      | .ok out =>
        .ok (if ch = minus then i + 1 else i,
          { st with inShift := false, pending := .zero, out := st.out ++ out })
  else if ch = plus then
    let st := { st with startInPos := i }
    match input[i + 1]? with
    | some c =>
      if c = minus then .ok (i + 2, { st with out := st.out ++ [plus.toNat] })
      else if isBase64 c = false then st.fail ctx input i (i + 2) "ill-formed sequence"
      else .ok (i + 1, { st with inShift := true, shiftOutStart := st.out.length, pending := .zero })
    | none =>
      .ok (i + 1, { st with inShift := true, shiftOutStart := st.out.length, pending := .zero })
  else if ch.toNat ≤ 127 then .ok (i + 1, { st with out := st.out ++ [ch.toNat] })
  else { st with startInPos := i }.fail ctx input i (i + 1) "unexpected special character"

/-- The characters that the end of the input still decodes where a handler resumes before it. -/
def directTail (s : List UInt8) : List ℕ :=
  (s.takeWhile fun ch => ch.toNat ≤ 127 && ch != plus).map UInt8.toNat

/-- After the loop: a shift that is open either ends in an error, or is taken back. -/
def Utf7.finish (ctx : DecCtx) (input : List UInt8) (isFinal : Bool) (st : Utf7) :
    Except CodecError (List ℕ × ℕ) :=
  if st.inShift = true ∧ isFinal = true then
    if st.pending.pending then do
      let (i, st) ← st.fail ctx input st.startInPos input.length "unterminated shift sequence"
      return (st.out ++ directTail (input.drop i), input.length)
    else .ok (st.out, input.length)
  else if st.inShift = true then .ok (st.out.take st.shiftOutStart, st.startInPos)
  else .ok (st.out, input.length)

def Utf7.loop (ctx : DecCtx) (input : List UInt8) (isFinal : Bool) :
    ℕ → ℕ → Utf7 → Except CodecError (List ℕ × ℕ)
  | 0, _, _ => .error .diverge
  | fuel + 1, i, st =>
    match input[i]? with
    | none => st.finish ctx input isFinal
    | some ch => do
      let (i, st) ← Utf7.step ctx input i st ch
      Utf7.loop ctx input isFinal fuel i st

/-- Each byte takes at most two turns: one of them may leave a shift without taking the byte. -/
def utf7Decode (errors : Handler) (isFinal : Bool) (data : List UInt8) :
    Except CodecError (List ℕ × ℕ) :=
  Utf7.loop ⟨.utf7, errors⟩ data isFinal (2 * data.length + 1) 0 .new

end WeavePy.Codecs
