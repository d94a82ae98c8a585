import WeavePy.Codecs.Utf8

/-!
UTF-16 and UTF-32, decoded and encoded.
-/

namespace WeavePy.Codecs

open LittleEndian (toLe ofLe)

/-- A code unit of UTF-16 from its two bytes. -/
def read16 (big : Bool) (a b : UInt8) : ℕ :=
  if big then (a.toNat <<< 8) ||| b.toNat else (b.toNat <<< 8) ||| a.toNat

def IsLow (u : ℕ) : Prop := 0xDC00 ≤ u ∧ u ≤ 0xDFFF

instance (u : ℕ) : Decidable (IsLow u) := inferInstanceAs (Decidable (_ ∧ _))

/-- A high surrogate `u`, and what follows it. -/
def scanPair (big : Bool) (u : ℕ) : List UInt8 → Scan
  | c :: d :: _ =>
    let u2 := read16 big c d
    if IsLow u2 then .ok (0x10000 + ((u - 0xD800) <<< 10) + (u2 - 0xDC00)) 4
    else .err 2 "illegal UTF-16 surrogate"
  | s => .incomplete (2 + s.length) "unexpected end of data"

def utf16Scan (big : Bool) : List UInt8 → Scan
  | [] => .incomplete 0 "truncated data"
  | [_] => .incomplete 1 "truncated data"
  | a :: b :: s =>
    let u := read16 big a b
    if ¬ IsSurrogate u then .ok u 2
    else if u ≥ 0xDC00 then .err 2 "illegal encoding"
    else scanPair big u s

/-- The byte order after the byte order mark, if there is one to skip. -/
def sniff16 (byteorder : ℤ) (data : List UInt8) : Option ℤ :=
  match data with
  | a :: b :: _ =>
    if byteorder = 0 then
      if read16 false a b = 0xFEFF then some (-1)
      else if read16 false a b = 0xFFFE then some 1
      else none
    else none
  | _ => none

/-- The text, the count of bytes consumed, and the byte order found. -/
def utf16Decode (errors : Handler) (byteorder : ℤ) (isFinal : Bool) (data : List UInt8) :
    Except CodecError (List ℕ × ℕ × ℤ) :=
  let start := if (sniff16 byteorder data).isSome then 2 else 0
  let byteorder := (sniff16 byteorder data).getD byteorder
  let big : Bool := byteorder > 0
  let encoding := if big then .utf16be else .utf16le
  (Transducer.decode (DecCtx.step ⟨encoding, errors⟩ (utf16Scan big) isFinal) .diverge start
    (data.drop start)).map fun r => (r.1, r.2, byteorder)

def read32 (big : Bool) (a b c d : UInt8) : ℕ :=
  if big then ofLe [d, c, b, a] else ofLe [a, b, c, d]

def utf32Scan (big : Bool) : List UInt8 → Scan
  | a :: b :: c :: d :: _ =>
    let v := read32 big a b c d
    if IsSurrogate v then
      .err 4 "code point in surrogate code point range(0xd800, 0xe000)"
    else if v < 0x110000 then .ok v 4
    else .err 4 "code point not in range(0x110000)"
  | s => .incomplete s.length "truncated data"

def sniff32 (byteorder : ℤ) (data : List UInt8) : Option ℤ :=
  if byteorder = 0 then
    if data.take 4 = [0xFF, 0xFE, 0x00, 0x00] then some (-1)
    else if data.take 4 = [0x00, 0x00, 0xFE, 0xFF] then some 1
    else none
  else none

def utf32Decode (errors : Handler) (byteorder : ℤ) (isFinal : Bool) (data : List UInt8) :
    Except CodecError (List ℕ × ℕ × ℤ) :=
  let start := if (sniff32 byteorder data).isSome then 4 else 0
  let byteorder := (sniff32 byteorder data).getD byteorder
  let big : Bool := byteorder > 0
  let encoding := if big then .utf32be else .utf32le
  (Transducer.decode (DecCtx.step ⟨encoding, errors⟩ (utf32Scan big) isFinal) .diverge start
    (data.drop start)).map fun r => (r.1, r.2, byteorder)

/-- `push16` and `push32`: a number in `n` bytes. -/
def push (big : Bool) (n v : ℕ) : List UInt8 := if big then (toLe n v).reverse else toLe n v

def emit16 (big : Bool) (cp : ℕ) : Option (List UInt8) :=
  if IsSurrogate cp then none
  else if cp ≤ 0xFFFF then some (push big 2 cp)
  else
    let v := cp - 0x10000
    some (push big 2 (0xD800 + (v >>> 10)) ++ push big 2 (0xDC00 + (v &&& 0x3FF)))

def utf16Encode (errors : Handler) (names : Names) (byteorder : ℤ) (cps : List ℕ) :
    Except CodecError (List UInt8) := do
  let big : Bool := byteorder > 0
  let encoding := if byteorder = 0 then .utf16 else if big then .utf16be else .utf16le
  let body ← EncCtx.encode ⟨encoding, errors, names⟩ notAllowed (emit16 big) cps
  return if byteorder = 0 then [0xFF, 0xFE] ++ body else body

def emit32 (big : Bool) (cp : ℕ) : Option (List UInt8) :=
  if IsSurrogate cp then none else some (push big 4 cp)

def utf32Encode (errors : Handler) (names : Names) (byteorder : ℤ) (cps : List ℕ) :
    Except CodecError (List UInt8) := do
  let big : Bool := byteorder > 0
  let encoding := if byteorder = 0 then .utf32 else if big then .utf32be else .utf32le
  let body ← EncCtx.encode ⟨encoding, errors, names⟩ notAllowed (emit32 big) cps
  return if byteorder = 0 then [0xFF, 0xFE, 0x00, 0x00] ++ body else body

theorem read16_eq (big : Bool) (a b : UInt8) :
    read16 big a b = if big then ofLe [b, a] else ofLe [a, b] := by
  have ha := a.toNat_lt
  have hb := b.toNat_lt
  rw [read16, shiftLeft_or hb, shiftLeft_or ha]
  cases big <;> simp [ofLe] <;> omega

/-- A number of `n` bytes comes back from its bytes in either order. -/
theorem exists_push2 (big : Bool) {v : ℕ} (hv : v < 2 ^ 16) :
    ∃ a b, push big 2 v = [a, b] ∧ read16 big a b = v ∧
      (if big then ofLe [b, a] else ofLe [a, b]) = v := by
  have hle : ofLe (toLe 2 v) = v := LittleEndian.ofLe_toLe hv
  cases big with
  | false => exact ⟨_, _, rfl, (read16_eq _ _ _).trans hle, hle⟩
  | true => exact ⟨_, _, rfl, (read16_eq _ _ _).trans hle, hle⟩

theorem exists_push4 (big : Bool) {v : ℕ} (hv : v < 2 ^ 32) :
    ∃ a b c d, push big 4 v = [a, b, c, d] ∧ read32 big a b c d = v := by
  have hle : ofLe (toLe 4 v) = v := LittleEndian.ofLe_toLe hv
  cases big with
  | false => exact ⟨_, _, _, _, rfl, hle⟩
  | true => exact ⟨_, _, _, _, rfl, hle⟩

end WeavePy.Codecs
