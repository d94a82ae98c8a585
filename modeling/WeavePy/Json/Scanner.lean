import WeavePy.Lib.Related
import WeavePy.Lib.Utf8Text

/-!
The JSON scanner, over the UTF-8 bytes of a document or over its code points.
-/

namespace WeavePy.Json

/-- The units that a document is scanned by. -/
class JsonChar (C : Type) where
  /-- `Into<u32>` -/
  code : C → ℕ
  /-- The code points of the string that a span makes. -/
  string : List C → Outcome (List ℕ)
  text : List C → Outcome (List Char)
  position : List C → ℕ → ℕ
  append : List C → Outcome (List ℕ)
  first : List C → Outcome ℕ

open JsonChar

/-- `str::from_utf8(s).expect("UTF-8 JSON span")` -/
def expectUtf8 (s : List UInt8) : Outcome (List Char) :=
  match fromUtf8 s with
  | some t => .ok t.toList
  | none => .error .panic

instance : JsonChar UInt8 where
  code := UInt8.toNat
  string s := (expectUtf8 s).map fun t => t.map Char.toNat
  text := expectUtf8
  position s offset :=
    let stop := min offset s.length
    (s.take stop).countP (fun c => ¬ Utf8Tail c) + (offset - stop)
  append s := (expectUtf8 s).map fun t => t.map Char.toNat
  first s := (expectUtf8 s).map fun t => (t.head?.map Char.toNat).getD 0

/-- `char::from_u32` -/
def fromU32 (c : UInt32) : Option Char := if h : c.isValidChar then some ⟨c, h⟩ else none

instance : JsonChar UInt32 where
  code := UInt32.toNat
  string s := .ok (s.map UInt32.toNat)
  text s := .ok (s.filterMap fromU32)
  position _ offset := offset
  append s := .ok (s.map UInt32.toNat)
  first s := .ok ((s.head?.map UInt32.toNat).getD 0)

/-- The Python objects that scanning makes; `other` ones come from the hooks. -/
inductive Obj (ω : Type) where
  | none
  | bool (b : Bool)
  | int (i : Int64)
  | str (cps : List ℕ)
  | tuple (l : List (Obj ω))
  | list (l : List (Obj ω))
  | dict (entries : List (List ℕ × Obj ω))
  | other (x : ω)

inductive ScanErr (ε : Type) where
  /-- `StopIteration` at an index. -/
  | noValue (i : ℕ)
  /-- `JSONDecodeError(msg, doc, pos)` -/
  | decode (msg : String) (pos : ℕ)
  | recursion
  | other (e : ε)

/-- A call of a Python object that may run anything. -/
abbrev Call (σ ε ω : Type) := σ → Except ε (Obj ω) × σ

/-- The decoder's settings, and what the interpreter and the standard library give. -/
structure ScannerCfg (σ ε ω : Type) where
  strict : Bool
  objectHook : Option (Obj ω → Call σ ε ω)
  objectPairsHook : Option (Obj ω → Call σ ε ω)
  parseFloat : List Char → Call σ ε ω
  parseInt : List Char → Call σ ε ω
  nativeFloat : Bool
  nativeInt : Bool
  parseConstant : String → Call σ ε ω
  /-- `numstr.parse::<f64>()` -/
  parseF64 : List Char → Option (Obj ω)
  /-- `numstr.parse::<i64>()` -/
  parseI64 : List Char → Option Int64
  /-- `interp.release` -/
  release : Obj ω → σ → σ
  /-- `{:?}` of a character. -/
  debugChar : Char → String

section Units

variable {C : Type} [JsonChar C] (cps : List C)

/-- `cps.get(i)` -/
def peek (i : ℕ) : Option ℕ := cps[i]?.map code

/-- `&cps[i..j]` -/
def span (i j : ℕ) : List C := (cps.drop i).take (j - i)

/-- Where `while i < n && p(cps[i]) { i += 1 }` stops. -/
def skipWhile (p : ℕ → Bool) (i : ℕ) : ℕ :=
  i + ((cps.drop i).takeWhile fun c => p (code c)).length

def isDigit (c : ℕ) : Bool := decide (0x30 ≤ c) && decide (c ≤ 0x39)

def isWs (c : ℕ) : Bool := [0x20, 0x09, 0x0a, 0x0d].contains c

def skipWs (i : ℕ) : ℕ := skipWhile cps isWs i

/-- Whitespace after a value. -/
def skipDelim (i : ℕ) : ℕ := if (peek cps i).any isWs then skipWs cps (i + 1) else i

/-- Whitespace before a value, the first two units by hand. -/
def skipBlank (i : ℕ) : ℕ :=
  if (peek cps i).any isWs then
    if (peek cps (i + 1)).any isWs then skipWs cps (i + 2) else i + 1
  else i

def matchesKw (idx : ℕ) (kw : List ℕ) : Bool :=
  if cps.length < idx + kw.length then false
  else kw.zipIdx.all fun p => peek cps (idx + p.2) == some p.1

/-- The integer part of a number. -/
def matchInteger (idx : ℕ) : Option ℕ :=
  let i := if peek cps idx = some 0x2d then idx + 1 else idx
  match peek cps i with
  | none => none
  | some c =>
    if c = 0x30 then some (i + 1)
    else if 0x31 ≤ c ∧ c ≤ 0x39 then some (skipWhile cps isDigit (i + 1))
    else none

def matchFraction (i : ℕ) : ℕ × Bool :=
  if peek cps i = some 0x2e ∧ (peek cps (i + 1)).any isDigit then
    (skipWhile cps isDigit (i + 2), true)
  else (i, false)

def matchExponent (i : ℕ) (isFloat : Bool) : ℕ × Bool :=
  if peek cps i = some 0x65 ∨ peek cps i = some 0x45 then
    let j := if peek cps (i + 1) = some 0x2b ∨ peek cps (i + 1) = some 0x2d then i + 2 else i + 1
    if (peek cps j).any isDigit then (skipWhile cps isDigit (j + 1), true) else (i, isFloat)
  else (i, isFloat)

/-- The end of a number, and whether it is a float. -/
def matchNumber (idx : ℕ) : Option (ℕ × Bool) :=
  (matchInteger cps idx).map fun i =>
    let (i, isFloat) := matchFraction cps i
    matchExponent cps i isFloat

end Units

def hexVal (c : ℕ) : Option ℕ :=
  if 0x30 ≤ c ∧ c ≤ 0x39 then some (c - 0x30)
  else if 0x41 ≤ c ∧ c ≤ 0x46 then some (c - 0x41 + 10)
  else if 0x61 ≤ c ∧ c ≤ 0x66 then some (c - 0x61 + 10)
  else none

/-- The one-character escapes. -/
def simpleEscape (c : ℕ) : Option ℕ :=
  if c = 0x22 then some 0x22
  else if c = 0x5c then some 0x5c
  else if c = 0x2f then some 0x2f
  else if c = 0x62 then some 0x08
  else if c = 0x66 then some 0x0c
  else if c = 0x6e then some 0x0a
  else if c = 0x72 then some 0x0d
  else if c = 0x74 then some 0x09
  else none

/-- What the chunks of a string go on over. -/
def isPlain (c : ℕ) : Bool := ¬ (c = 0x22 ∨ c = 0x5c ∨ c < 0x20)

section Scanner

variable {C : Type} [JsonChar C] {σ ε ω : Type} (cfg : ScannerCfg σ ε ω) (cps : List C)

abbrev Scan (σ ε : Type) := Comp σ (ScanErr ε)

def decodeError {α : Type} (msg : String) (pos : ℕ) : Scan σ ε α :=
  throw (.decode msg (position cps pos))

def callPy (f : Call σ ε ω) : Scan σ ε (Obj ω) :=
  Comp.call fun s => ((f s).1.mapError .other, (f s).2)

/-- Four hexadecimal digits after the `u` at `pos`. -/
def decodeUxxxx (pos : ℕ) : Scan σ ε ℕ :=
  let digits :=
    if pos + 4 < cps.length then
      ((cps.drop (pos + 1)).take 4).foldlM (m := Option)
        (fun v c => (hexVal (code c)).map fun d => v <<< 4 ||| d) 0
    else none
  match digits with
  | some v => pure v
  | none => decodeError cps "Invalid \\uXXXX escape" pos

/-- The character of an error message. -/
def shown (c : ℕ) : String := cfg.debugChar ((fromU32 (UInt32.ofNat c)).getD '\uFFFD')

/-- `begin`, the place of the opening quote. -/
def opening (start : ℕ) : ℕ := if start = 0 then 2 ^ 64 - 1 else start - 1

/-- The numeric escape whose backslash is at `i`, with the second half of a surrogate pair. -/
def stringEscapeU (next : ℕ → List ℕ → Scan σ ε (List ℕ × ℕ)) (i : ℕ) (out : List ℕ) :
    Scan σ ε (List ℕ × ℕ) := do
  let uni ← decodeUxxxx cps (i + 1)
  if 0xd800 ≤ uni ∧ uni ≤ 0xdbff ∧ peek cps (i + 6) = some 0x5c ∧
      peek cps (i + 7) = some 0x75 then
    let uni2 ← decodeUxxxx cps (i + 7)
    if 0xdc00 ≤ uni2 ∧ uni2 ≤ 0xdfff then
      next (i + 12) (out ++ [0x10000 + ((uni - 0xd800) <<< 10 ||| (uni2 - 0xdc00))])
    else next (i + 6) (out ++ [uni])
  else next (i + 6) (out ++ [uni])

/-- The escape whose backslash is at `i`; `next` goes on after it. -/
def stringEscape (start : ℕ) (next : ℕ → List ℕ → Scan σ ε (List ℕ × ℕ)) (i : ℕ)
    (out : List ℕ) : Scan σ ε (List ℕ × ℕ) :=
  match peek cps (i + 1) with
  | none => decodeError cps "Unterminated string starting at" (opening start)
  | some esc =>
    if esc ≠ 0x75 then
      match simpleEscape esc with
      | some ch => next (i + 2) (out ++ [ch])
      | none => do
        let c ← Comp.lift (first (cps.drop (i + 1)))
        decodeError cps ("Invalid \\escape: " ++ shown cfg c) i
    else stringEscapeU cps next i out

/-- One chunk of a string after another; `start` is the place after the opening quote. -/
def stringLoop (start : ℕ) : ℕ → ℕ → List ℕ → Scan σ ε (List ℕ × ℕ)
  | 0, _, _ => Comp.lift (.error .diverge)
  | fuel + 1, chunkStart, out =>
    let i := skipWhile cps isPlain chunkStart
    match peek cps i with
    | none => decodeError cps "Unterminated string starting at" (opening start)
    | some terminator =>
      if terminator = 0x22 ∧ out = [] ∧ chunkStart = start then do
        let value ← Comp.lift (string (span cps chunkStart i))
        pure (value, i + 1)
      else do
        let chunk ← Comp.lift (append (span cps chunkStart i))
        if terminator = 0x22 then pure (out ++ chunk, i + 1)
        else if terminator ≠ 0x5c then
          if cfg.strict then
            decodeError cps ("Invalid control character " ++ shown cfg terminator ++ " at") i
          else stringLoop start fuel (i + 1) (out ++ chunk ++ [terminator])
        else stringEscape cfg cps start (stringLoop start fuel) i (out ++ chunk)

/-- `scan_string`, `start` after the opening quote. -/
def scanString (start : ℕ) : Scan σ ε (List ℕ × ℕ) :=
  stringLoop cfg cps start (cps.length + 1) start []

/-- A value is required: none at an index is an error there. -/
def expectValue {α : Type} (x : Scan σ ε α) : Scan σ ε α :=
  tryCatch x fun
    | .noValue i => decodeError cps "Expecting value" i
    | e => throw e

/-- A number from `idx` to `i`. -/
def scanNumber (idx i : ℕ) (isFloat : Bool) : Scan σ ε (Obj ω × ℕ) := do
  let numstr ← Comp.lift (text (span cps idx i))
  let native : Option (Obj ω) :=
    if isFloat then if cfg.nativeFloat then cfg.parseF64 numstr else none
    else if cfg.nativeInt then (cfg.parseI64 numstr).map .int else none
  match native with
  | some value => pure (value, i)
  | none =>
    let res ← callPy ((if isFloat then cfg.parseFloat else cfg.parseInt) numstr)
    pure (res, i)

def parseConstant (name : String) : Scan σ ε (Obj ω) := callPy (cfg.parseConstant name)

/-- The code points of an ASCII keyword. -/
def codes (s : String) : List ℕ := s.toList.map Char.toNat

/-- The numbers, and the constants that JSON does not have. -/
def scanOther (idx : ℕ) : Scan σ ε (Obj ω × ℕ) :=
  match matchNumber cps idx with
  | some (i, isFloat) => scanNumber cfg cps idx i isFloat
  | none =>
    if matchesKw cps idx (codes "NaN") then do
      let r ← parseConstant cfg "NaN"
      pure (r, idx + 3)
    else if matchesKw cps idx (codes "Infinity") then do
      let r ← parseConstant cfg "Infinity"
      pure (r, idx + 8)
    else if matchesKw cps idx (codes "-Infinity") then do
      let r ← parseConstant cfg "-Infinity"
      pure (r, idx + 9)
    else throw (.noValue idx)

/-- `scan_once`, given the parsers of the containers. -/
def scanValue (object array : ℕ → Scan σ ε (Obj ω × ℕ)) (idx : ℕ) : Scan σ ε (Obj ω × ℕ) :=
  match peek cps idx with
  | none => throw (.noValue idx)
  | some c =>
    if c = 0x22 then do
      let (s, i) ← scanString cfg cps (idx + 1)
      pure (.str s, i)
    else if c = 0x7b then object (idx + 1)
    else if c = 0x5b then array (idx + 1)
    else if c = 0x6e ∧ matchesKw cps idx (codes "null") then pure (.none, idx + 4)
    else if c = 0x74 ∧ matchesKw cps idx (codes "true") then pure (.bool true, idx + 4)
    else if c = 0x66 ∧ matchesKw cps idx (codes "false") then pure (.bool false, idx + 5)
    else scanOther cfg cps idx

/-- Ordinary objects are built as dicts at once; the pairs hook gets a list. -/
inductive DecodedObject (ω : Type) where
  | dict (entries : List (List ℕ × Obj ω))
  | pairs (pairs : List (List ℕ × Obj ω))

/-- The value of a key is replaced where the key stands. -/
def insertKey (entries : List (List ℕ × Obj ω)) (key : List ℕ) (value : Obj ω) :
    List (List ℕ × Obj ω) :=
  if (entries.lookup key).isSome then
    entries.map fun p => if p.1 = key then (key, value) else p
  else entries ++ [(key, value)]

def insertField (key : List ℕ) (value : Obj ω) : DecodedObject ω → Scan σ ε (DecodedObject ω)
  | .dict entries => do
    match entries.lookup key with
    | some previous => Comp.modify (cfg.release previous)
    | none => pure ()
    pure (.dict (insertKey entries key value))
  | .pairs pairs => pure (.pairs (pairs ++ [(key, value)]))

/-- Apply `object_pairs_hook` or `object_hook`. -/
def finishObject : DecodedObject ω → Scan σ ε (Obj ω)
  | .pairs pairs =>
    match cfg.objectPairsHook with
    | some hook => callPy (hook (.list (pairs.map fun p => .tuple [.str p.1, p.2])))
    | none => pure .none
  | .dict entries =>
    match cfg.objectHook with
    | some hook => callPy (hook (.dict entries))
    | none => pure (.dict entries)

def newObject : DecodedObject ω := if cfg.objectPairsHook.isSome then .pairs [] else .dict []

section Containers

variable (scan : ℕ → Scan σ ε (Obj ω × ℕ))

/-- The fields of an object, from after the quote of the first name. -/
def objectLoop : ℕ → ℕ → DecodedObject ω → Scan σ ε (Obj ω × ℕ)
  | 0, _, _ => Comp.lift (.error .diverge)
  | fuel + 1, i, object => do
    let (key, i) ← scanString cfg cps i
    let i := if peek cps i = some 0x3a then i else skipWs cps i
    if peek cps i ≠ some 0x3a then decodeError cps "Expecting ':' delimiter" i
    else
      let (value, i) ← expectValue cps (scan (skipBlank cps (i + 1)))
      let object ← insertField cfg key value object
      let i := skipDelim cps i
      if peek cps i = some 0x7d then
        let result ← finishObject cfg object
        pure (result, i + 1)
      else if peek cps i = some 0x2c then
        let j := skipWs cps (i + 1)
        if peek cps j = some 0x22 then objectLoop fuel (j + 1) object
        else if peek cps j = some 0x7d then
          decodeError cps "Illegal trailing comma before end of object" i
        else decodeError cps "Expecting property name enclosed in double quotes" j
      else decodeError cps "Expecting ',' delimiter" i

/-- `JSONObject`, from after the brace. -/
def parseObject (i : ℕ) : Scan σ ε (Obj ω × ℕ) :=
  let i := if peek cps i ≠ some 0x22 ∧ (peek cps i).any isWs then skipWs cps i else i
  if peek cps i = some 0x22 then objectLoop cfg cps scan (cps.length + 1) (i + 1) (newObject cfg)
  else if peek cps i = some 0x7d then do
    let result ← finishObject cfg (newObject cfg)
    pure (result, i + 1)
  else decodeError cps "Expecting property name enclosed in double quotes" i

/-- The values of an array. -/
def arrayLoop : ℕ → ℕ → List (Obj ω) → Scan σ ε (Obj ω × ℕ)
  | 0, _, _ => Comp.lift (.error .diverge)
  | fuel + 1, i, values => do
    let (value, i) ← expectValue cps (scan i)
    let values := values ++ [value]
    let i := skipDelim cps i
    if peek cps i = some 0x5d then pure (.list values, i + 1)
    else if peek cps i = some 0x2c then
      let j := skipBlank cps (i + 1)
      if peek cps j = some 0x5d then decodeError cps "Illegal trailing comma before end of array" i
      else arrayLoop fuel j values
    else decodeError cps "Expecting ',' delimiter" i

/-- `JSONArray`, from after the bracket. -/
def parseArray (i : ℕ) : Scan σ ε (Obj ω × ℕ) :=
  let i := skipDelim cps i
  if peek cps i = some 0x5d then pure (.list [], i + 1)
  else arrayLoop cps scan (cps.length + 1) i []

end Containers

/-- `scan_once`, with the nesting that the recursion limit still allows. -/
def scanOnce : ℕ → ℕ → Scan σ ε (Obj ω × ℕ)
  | 0 => scanValue cfg cps (fun _ => throw .recursion) (fun _ => throw .recursion)
  | depth + 1 =>
    scanValue cfg cps (parseObject cfg cps (scanOnce depth)) (parseArray cps (scanOnce depth))

/-- The offsets of the characters and of the end. -/
def charIndices : ℕ → List Char → List ℕ
  | i, [] => [i]
  | i, c :: l => i :: charIndices (i + (String.utf8EncodeChar c).length) l

/-- The scanner called with a `str` that is stored as UTF-8. -/
def scannerCall (depth : ℕ) (text : String) (idx : ℤ) : Scan σ ε (Obj ω × ℕ) :=
  let bytes := utf8 text
  let idx := (max idx 0).toNat
  let ascii := text.toList.all fun c => c.toNat < 128
  let byteIdx := if ascii ∨ idx = 0 then some idx else (charIndices 0 text.toList)[idx]?
  match byteIdx with
  | none => throw (.noValue idx)
  | some offset =>
    if ascii then scanOnce cfg bytes depth offset
    else
      tryCatch (do
        let (obj, i) ← scanOnce cfg bytes depth offset
        pure (obj, position bytes i)) fun
        | .noValue i => throw (.noValue (position bytes i))
        | e => throw e

/-- The scanner called with the code points of a `str`. -/
def scannerCallWide (depth : ℕ) (cps : List UInt32) (idx : ℤ) : Scan σ ε (Obj ω × ℕ) :=
  scanOnce cfg cps depth (max idx 0).toNat

end Scanner

end WeavePy.Json
