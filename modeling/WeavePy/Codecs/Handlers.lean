import WeavePy.Lib.ByteOrder
import WeavePy.Lib.Transducer

/-!
The error handlers of the codec engine, as the decoders and the encoders call them.
-/

namespace WeavePy.Codecs

open LittleEndian (toLe ofLe)
inductive Handler where
  | strict
  | ignore
  | replace
  | backslashReplace
  | xmlCharRefReplace
  | nameReplace
  | surrogateEscape
  | surrogatePass
  deriving DecidableEq, Repr

/-- The handlers with names of their own; any other name is looked up among the registered
callables. -/
def resolveHandler (name : String) : Option Handler :=
  if name = "strict" then some .strict
  else if name = "ignore" then some .ignore
  else if name = "replace" then some .replace
  else if name = "backslashreplace" then some .backslashReplace
  else if name = "xmlcharrefreplace" then some .xmlCharRefReplace
  else if name = "namereplace" then some .nameReplace
  else if name = "surrogateescape" then some .surrogateEscape
  else if name = "surrogatepass" then some .surrogatePass
  else none

/-- The encodings that the coders name in their errors. -/
inductive Encoding where
  | utf7
  | utf8
  | utf16
  | utf16le
  | utf16be
  | utf32
  | utf32le
  | utf32be
  | unicodeEscape
  | rawUnicodeEscape
  deriving DecidableEq, Repr

def Encoding.name : Encoding → String
  | utf7 => "utf7"
  | utf8 => "utf-8"
  | utf16 => "utf-16"
  | utf16le => "utf-16-le"
  | utf16be => "utf-16-be"
  | utf32 => "utf-32"
  | utf32le => "utf-32-le"
  | utf32be => "utf-32-be"
  | unicodeEscape => "unicodeescape"
  | rawUnicodeEscape => "rawunicodeescape"

inductive CodecError where
  | decodeError (encoding : Encoding) (start stop : ℕ) (reason : String)
  | encodeError (encoding : Encoding) (start stop : ℕ) (reason : String)
  | typeError (msg : String)
  | importError (msg : String)
  | diverge
  deriving DecidableEq, Repr

inductive StandardKey where
  | utf8
  | utf16le
  | utf16be
  | utf32le
  | utf32be
  | unknown
  deriving DecidableEq, Repr

def standardKey : Encoding → StandardKey
  | .utf8 => .utf8
  | .utf16le => .utf16le
  | .utf16be => .utf16be
  | .utf16 => .utf16le
  | .utf32le => .utf32le
  | .utf32be => .utf32be
  | .utf32 => .utf32le
  | .utf7 | .unicodeEscape | .rawUnicodeEscape => .unknown

def IsSurrogate (cp : ℕ) : Prop := 0xD800 ≤ cp ∧ cp ≤ 0xDFFF

instance (cp : ℕ) : Decidable (IsSurrogate cp) := inferInstanceAs (Decidable (_ ∧ _))

/-- The bits of three bytes, as UTF-8 puts them together. -/
def bits3 (b0 b1 b2 : UInt8) : ℕ :=
  ((b0.toNat &&& 0x0F) <<< 12) ||| ((b1.toNat &&& 0x3F) <<< 6) ||| (b2.toNat &&& 0x3F)

def isCont (x : UInt8) : Prop := 0x80 ≤ x.toNat ∧ x.toNat ≤ 0xBF

instance (x : UInt8) : Decidable (isCont x) := inferInstanceAs (Decidable (_ ∧ _))

def surrogateOf (cp len : ℕ) : Option (ℕ × ℕ) := if IsSurrogate cp then some (cp, len) else none

/-- The lone surrogate at the front of `rest`, with its length. -/
def decodeEncodedSurrogate (encoding : Encoding) (rest : List UInt8) : Option (ℕ × ℕ) :=
  match standardKey encoding, rest with
  | .utf8, b0 :: b1 :: b2 :: _ =>
    if b0.toNat = 0xED ∧ (0xA0 ≤ b1.toNat ∧ b1.toNat ≤ 0xBF) ∧ isCont b2 then
      some (bits3 b0 b1 b2, 3)
    else none
  | .utf16le, b0 :: b1 :: _ => surrogateOf (ofLe [b0, b1]) 2
  | .utf16be, b0 :: b1 :: _ => surrogateOf (ofLe [b1, b0]) 2
  | .utf32le, b0 :: b1 :: b2 :: b3 :: _ => surrogateOf (ofLe [b0, b1, b2, b3]) 4
  | .utf32be, b0 :: b1 :: b2 :: b3 :: _ => surrogateOf (ofLe [b3, b2, b1, b0]) 4
  | _, _ => none

/-- `format!` in hexadecimal, with a least width. -/
def hex (width n : ℕ) : List ℕ := ((Nat.toDigits 16 n).leftpad width '0').map Char.toNat

def ascii (s : String) : List ℕ := s.toList.map Char.toNat

structure DecCtx where
  encoding : Encoding
  errors : Handler
  deriving DecidableEq, Repr

/-- The handler's answer to an error over the first `span` bytes of `s`, the input from `start` on:
the text in their place, and the count of bytes it stands for. -/
def DecCtx.onError (ctx : DecCtx) (start : ℕ) (s : List UInt8) (span : ℕ) (reason : String) :
    Except CodecError (List ℕ × ℕ) :=
  let error := .error (.decodeError ctx.encoding start (start + span) reason)
  match ctx.errors with
  | .strict => error
  | .ignore => .ok ([], span)
  | .replace => .ok ([0xFFFD], span)
  | .backslashReplace =>
    .ok ((s.take span).flatMap fun b => ascii "\\x" ++ hex 2 b.toNat, span)
  | .surrogateEscape =>
    if (s.take span).any fun b => b.toNat < 128 then error
    else .ok ((s.take span).map fun b => 0xDC00 + b.toNat, span)
  | .surrogatePass =>
    match decodeEncodedSurrogate ctx.encoding s with
    | some (cp, len) => .ok ([cp], len)
    | none => error
  | .xmlCharRefReplace | .nameReplace =>
    .error (.typeError "don't know how to handle UnicodeDecodeError in error callback")

/-- The step that goes on where the handler says. -/
def DecCtx.handled (ctx : DecCtx) (start : ℕ) (s : List UInt8) (span : ℕ) (reason : String) :
    Except CodecError (Transducer.Step ℕ) :=
  (ctx.onError start s span reason).map fun r => .read r.1 r.2

/-- What a decoder finds at the front of its input. -/
inductive Scan where
  | ok (cp len : ℕ)
  | err (span : ℕ) (reason : String)
  | incomplete (avail : ℕ) (reason : String)
  deriving DecidableEq, Repr

/-- One turn of a decoder's loop. -/
def DecCtx.step (ctx : DecCtx) (scan : List UInt8 → Scan) (isFinal : Bool) (i : ℕ)
    (s : List UInt8) : Except CodecError (Transducer.Step ℕ) :=
  match scan s with
  | .ok cp len => .ok (.read [cp] len)
  | .err span reason => ctx.handled i s span reason
  | .incomplete avail reason =>
    if isFinal = false then .ok .hold else ctx.handled i s avail reason

/-- What `namereplace` reaches of `unicodedata`. -/
structure Names where
  loaded : Bool
  charName : ℕ → Option (List ℕ)

/-- A handler's replacement: text that the codec is to encode, or the bytes themselves. -/
inductive Replacement where
  | ascii (text : List ℕ)
  | bytes (b : List UInt8)
  deriving DecidableEq, Repr

structure EncCtx where
  encoding : Encoding
  errors : Handler
  names : Names

def backslash (cp : ℕ) : List ℕ :=
  if cp ≤ 0xFF then ascii "\\x" ++ hex 2 cp
  else if cp ≤ 0xFFFF then ascii "\\u" ++ hex 4 cp
  else ascii "\\U" ++ hex 8 cp

/-- The bytes `surrogatepass` makes of a surrogate. -/
def surrogateBytes (key : StandardKey) (cp : ℕ) : Option (List UInt8) :=
  match key with
  | .utf8 => some [(0xE0 ||| cp >>> 12).toUInt8, (0x80 ||| (cp >>> 6 &&& 0x3F)).toUInt8,
      (0x80 ||| (cp &&& 0x3F)).toUInt8]
  | .utf16le => some (toLe 2 cp)
  | .utf16be => some (toLe 2 cp).reverse
  | .utf32le => some (toLe 4 cp)
  | .utf32be => some (toLe 4 cp).reverse
  | .unknown => none

/-- `PyCodec_SurrogateEscapeErrors` on encoding: where it fails, if it does, and the bytes. -/
def escapedBytes : List ℕ → Except ℕ (List UInt8)
  | [] => .ok []
  | cp :: s =>
    if 0xDC80 ≤ cp ∧ cp ≤ 0xDCFF then
      match escapedBytes s with
      | .ok b => .ok ((cp - 0xDC00).toUInt8 :: b)
      | .error j => .error (j + 1)
    else .error 0

def passedBytes (key : StandardKey) (s : List ℕ) : Option (List UInt8) :=
  (s.mapM fun cp => if IsSurrogate cp then surrogateBytes key cp else none).map List.flatten

/-- The handler's answer to an error over `run`, the unencodable points from `start` on; the
encoder goes on behind them. -/
def EncCtx.onError (ctx : EncCtx) (start : ℕ) (run : List ℕ) (reason : String) :
    Except CodecError Replacement :=
  let stop := start + run.length
  match ctx.errors with
  | .strict => .error (.encodeError ctx.encoding start stop reason)
  | .ignore => .ok (.bytes [])
  | .replace => .ok (.ascii (run.map fun _ => '?'.toNat))
  | .backslashReplace => .ok (.ascii (run.flatMap backslash))
  | .xmlCharRefReplace =>
    .ok (.ascii (run.flatMap fun cp => ascii "&#" ++ ascii (toString cp) ++ ascii ";"))
  | .nameReplace =>
    if ctx.names.loaded then
      .ok (.ascii (run.flatMap fun cp =>
        match ctx.names.charName cp with
        | some name => ascii "\\N\x7b" ++ name ++ ascii "\x7d"
        | none => backslash cp))
    else .error (.importError "PyCapsule_Import could not import module \"unicodedata\"")
  | .surrogateEscape =>
    match escapedBytes run with
    | .ok b => .ok (.bytes b)
    | .error j => .error (.encodeError ctx.encoding (start + j) stop reason)
  | .surrogatePass =>
    match passedBytes (standardKey ctx.encoding) run with
    | some b => .ok (.bytes b)
    | none => .error (.encodeError ctx.encoding start stop reason)

/-- One turn of `encode_loop_units`: a point encoded, or a run of unencodable points handled. -/
def EncCtx.step (ctx : EncCtx) (reason : String) (emit : ℕ → Option (List UInt8)) (i : ℕ)
    (s : List ℕ) : Except CodecError (Transducer.Step UInt8) :=
  match s with
  | [] => .ok .hold
  | cp :: rest =>
    match emit cp with
    | some b => .ok (.read b 1)
    | none => do
      let run := cp :: rest.takeWhile fun cp => (emit cp).isNone
      match ← ctx.onError i run reason with
      | .bytes b => .ok (.read b run.length)
      | .ascii text =>
        match text.mapM emit with
        | some b => .ok (.read b.flatten run.length)
        | none => .error (.encodeError ctx.encoding i (i + run.length) reason)

def EncCtx.encode (ctx : EncCtx) (reason : String) (emit : ℕ → Option (List UInt8))
    (cps : List ℕ) : Except CodecError (List UInt8) :=
  (Transducer.decode (ctx.step reason emit) .diverge 0 cps).map Prod.fst

end WeavePy.Codecs
