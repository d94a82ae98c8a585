import WeavePy.Rust
import WeavePy.Lib.Hoare

/-!
The tokens, and the errors that end their stream.
-/

namespace WeavePy.Lexer

/-- The byte a character of the source code stands for. -/
def ascii (c : Char) : UInt8 := c.toUInt8

/-- Half open, in bytes. -/
structure Span where
  start : UInt32
  stop : UInt32
  deriving DecidableEq

inductive Keyword where
  | False | None | True | And | As | Assert | Async | Await | Break | Class | Continue | Def | Del | Elif | Else
  | Except | Finally | For | From | Global | If | Import | In | Is | Lambda | Nonlocal | Not | Or | Pass | Raise
  | Return | Try | While | With | Yield
  deriving DecidableEq

def Keyword.table : List (String × Keyword) :=
  [("False", .False), ("None", .None), ("True", .True), ("and", .And), ("as", .As), ("assert", .Assert),
    ("async", .Async), ("await", .Await), ("break", .Break), ("class", .Class), ("continue", .Continue), ("def", .Def),
    ("del", .Del), ("elif", .Elif), ("else", .Else), ("except", .Except), ("finally", .Finally), ("for", .For),
    ("from", .From), ("global", .Global), ("if", .If), ("import", .Import), ("in", .In), ("is", .Is),
    ("lambda", .Lambda), ("nonlocal", .Nonlocal), ("not", .Not), ("or", .Or), ("pass", .Pass), ("raise", .Raise),
    ("return", .Return), ("try", .Try), ("while", .While), ("with", .With), ("yield", .Yield)]

def Keyword.fromIdent (s : String) : Option Keyword := Keyword.table.lookup s

inductive TokenKind where
  | Endmarker | Newline | Nl | Indent | Dedent | Comment
  | Name | Keyword (k : Keyword) | Number | String
  | LPar | RPar | LSqb | RSqb | LBrace | RBrace | Comma | Colon | Semi | Dot | Ellipsis | RArrow | At | AtEqual
  | Plus | Minus | Star | DoubleStar | Slash | DoubleSlash | Percent
  | Amper | Vbar | Caret | Tilde | LeftShift | RightShift
  | Less | Greater | LessEqual | GreaterEqual | EqEqual | NotEqual
  | Equal | PlusEqual | MinusEqual | StarEqual | SlashEqual | DoubleSlashEqual | PercentEqual | AmperEqual | VbarEqual
  | CaretEqual | LeftShiftEqual | RightShiftEqual | DoubleStarEqual | ColonEqual
  deriving DecidableEq

structure Token where
  kind : TokenKind
  span : Span
  deriving DecidableEq

structure StringPrefix where
  raw : Bool
  bytes : Bool
  fstring : Bool
  unicode : Bool
  template : Bool

def StringPrefix.default : StringPrefix := ⟨false, false, false, false, false⟩

def toAsciiLowercase (c : Char) : Char := if 'A' ≤ c ∧ c ≤ 'Z' then Char.ofNat (c.toNat + 32) else c

/-- One letter more of a prefix: none comes twice. -/
def StringPrefix.letter (langPreview : Bool) (p : StringPrefix) (c : Char) : Option StringPrefix :=
  let l := toAsciiLowercase c
  if l = 'r' ∧ ¬ p.raw then some { p with raw := true }
  else if l = 'b' ∧ ¬ p.bytes then some { p with bytes := true }
  else if l = 'f' ∧ ¬ p.fstring then some { p with fstring := true }
  else if l = 'u' ∧ ¬ p.unicode then some { p with unicode := true }
  else if l = 't' ∧ ¬ p.template ∧ langPreview then some { p with template := true }
  else none

/-- The prefix, if its letters go together. -/
def StringPrefix.parse (langPreview : Bool) (s : String) : Option StringPrefix := do
  let p ← s.toList.foldlM (StringPrefix.letter langPreview) .default
  if (p.bytes ∧ p.unicode) ∨ (p.bytes ∧ p.fstring) ∨ (p.fstring ∧ p.unicode) ∨ (p.raw ∧ p.unicode) ∨
      (p.template ∧ (p.bytes ∨ p.fstring ∨ p.unicode)) then none
  else some p

def StringPrefix.interpolated (p : StringPrefix) : Bool := p.fstring || p.template

structure EscapeWarning where
  offset : UInt32
  message : String

inductive LexError where
  | unterminatedString (pos detectedLine : UInt32)
  | unterminatedStringEscapedQuote (pos detectedLine : UInt32)
  | unterminatedTripleString (pos detectedLine : UInt32)
  | unexpectedEofParsing (pos : UInt32) (lineHadTokens : Bool)
  | unterminatedFstring (pos : UInt32) (kind : Char) (detectedLine : UInt32)
  | unterminatedTripleFstring (pos : UInt32) (kind : Char) (detectedLine : UInt32)
  | fstringExpectingBrace (pos : UInt32) (kind : Char) (fieldStart : UInt32)
  | fstringExpectingBraceOrSpec (pos : UInt32) (kind : Char) (fieldStart : UInt32)
  | fstringNestedTooDeeply (pos : UInt32) (kind : Char)
  | fstringTooManyNested (pos fieldStart : UInt32) (kind : Char)
  | fstringMalformedNamedEscape (pos segStart segEnd : UInt32)
  | fstringParenMismatch (close opener : Char) (pos : UInt32)
  | fstringUnmatchedParen (close : Char) (pos : UInt32) (kind : Char)
  | bracketNeverClosed (opener : Char) (pos : UInt32)
  | unmatchedClose (close : Char) (pos : UInt32)
  | tooManyNestedParens (pos : UInt32)
  | mismatchedClose (close opener : Char) (openLine : Option UInt32) (pos : UInt32)
  | fstringNewlineInSpec (pos : UInt32) (kind : Char)
  | invalidChar (ch : Char) (pos : UInt32)
  | invalidNonPrintable (ch : Char) (pos : UInt32)
  | invalidToken (pos : UInt32)
  | inconsistentIndent (pos : UInt32)
  | unknownDedent (pos : UInt32)
  | tooDeepIndent (pos : UInt32)
  | unexpectedIndent (pos : UInt32)
  | invalidNumber (pos : UInt32) (message : String)
  | incompatibleStringPrefixes (pos stop : UInt32) (first second : Char)
  | strayBackslash (pos : UInt32)

end WeavePy.Lexer

/-!
The scanner's state, and how it reads the source.
-/

namespace WeavePy.Lexer

/-- The stacks have their innermost entry first. -/
structure Scanner where
  pos : ℕ
  parenDepth : ℕ
  openBrackets : List (UInt8 × ℕ)
  indents : List UInt32
  altIndents : List UInt32
  atLineStart : Bool
  pendingDedents : ℕ
  pendingIndent : Option ℕ
  finished : Bool
  lastWasContent : Bool
  escapeWarnings : List EscapeWarning
  fstringLevel : ℕ
  fstringKinds : List Char
  outerFieldStart : Option UInt32

def Scanner.new : Scanner := ⟨0, 0, [], [0], [0], true, 0, none, false, false, [], 0, [], none⟩

/-- The crate's tables of identifier characters, and the grammar in force. -/
structure Language where
  isXidStart : Char → Bool
  isXidContinue : Char → Bool
  langPreview : Bool

abbrev Scan (α : Type) := Prog Fault Scanner LexError α

def isDigit (b : UInt8) : Bool := ascii '0' ≤ b && b ≤ ascii '9'

def isOctal (b : UInt8) : Bool := ascii '0' ≤ b && b ≤ ascii '7'

def isHex (b : UInt8) : Bool :=
  isDigit b || (ascii 'a' ≤ b && b ≤ ascii 'f') || (ascii 'A' ≤ b && b ≤ ascii 'F')

def isAlpha (b : UInt8) : Bool := (ascii 'a' ≤ b && b ≤ ascii 'z') || (ascii 'A' ≤ b && b ≤ ascii 'Z')

def isIdentStart (b : UInt8) : Bool := b = ascii '_' || isAlpha b

/-- A space, a tab or a form feed. -/
def isSpace (b : UInt8) : Bool := b = ascii ' ' || b = ascii '\t' || b = 0x0C

def toChar (b : UInt8) : Char := Char.ofNat b.toNat

/-- One code point at the start, and its width. -/
def decodeUtf8 (bytes : List UInt8) : Option (Char × ℕ) := do
  let first ← bytes.head?
  if first < 0x80 then some (toChar first, 1)
  else
    let width ← (if first &&& 0xE0 = 0xC0 then some 2 else if first &&& 0xF0 = 0xE0 then some 3
      else if first &&& 0xF8 = 0xF0 then some 4 else none)
    if bytes.length < width then none
    else
      let s ← fromUtf8 (bytes.take width)
      let ch ← s.toList.head?
      return (ch, width)

/-- The length of the longest start all of whose bytes satisfy `p`. -/
def runLength (p : UInt8 → Bool) (bytes : List UInt8) : ℕ := (bytes.takeWhile p).length

section Reading

variable (src : List UInt8)

def peek : Scan (Option UInt8) := Prog.gets fun s => src[s.pos]?

def peekAt (offset : ℕ) : Scan (Option UInt8) := Prog.gets fun s => src[s.pos + offset]?

def position : Scan ℕ := Prog.gets Scanner.pos

def advance (n : ℕ) : Scan Unit := Prog.modify fun s => { s with pos := s.pos + n }

def token (kind : TokenKind) (start stop : ℕ) : Token := ⟨kind, start.toUInt32, stop.toUInt32⟩

/-- The token from `start` to the position. -/
def emit (kind : TokenKind) (start : ℕ) : Scan Token := Prog.gets fun s => token kind start s.pos

/-- A loop over the source: each turn but the last reads on, so one more than its bytes are enough. -/
def scanLoop {α β : Type} (body : β → Scan (Step β α)) : β → Scan α := Prog.loop .diverge (src.length + 1) body

/-- The bytes from `start` to the position. -/
def lexeme (start : ℕ) : Scan (List UInt8) := fun s =>
  if start ≤ s.pos ∧ s.pos ≤ src.length then .ok (.ok ((src.drop start).take (s.pos - start)), s) else .error .panic

/-- The byte at `i`, which is in the source. -/
def byteAt (i : ℕ) : Scan UInt8 := fun s =>
  match src[i]? with
  | some b => .ok (.ok b, s)
  | none => .error .panic

/-- The byte at the position, which is in the source. -/
def expectPeek : Scan UInt8 := do
  let p ← position
  byteAt src p

/-- Passes over the bytes that satisfy `p`. -/
def skipWhile (p : UInt8 → Bool) : Scan Unit :=
  scanLoop src (fun _ => do
    match ← peek src with
    | some b =>
      if p b then
        advance 1
        return .next ()
      else return .done ()
    | none => return .done ()) ()

/-- One-based line of the byte `pos`. -/
def lineOf (pos : ℕ) : UInt32 := ((src.take pos).countP (· = ascii '\n')).toUInt32 + 1

def eofLine : UInt32 := lineOf src (src.length - 1)

/-- Where the line of `pos` ends. -/
def lineEnd (pos : ℕ) : ℕ := pos + runLength (· ≠ ascii '\n') (src.drop pos)

def fstringKind : Scan Char := Prog.gets fun s => s.fstringKinds.headD 'f'

def warn (offset : ℕ) (message : String) : Scan Unit :=
  Prog.modify fun s => { s with escapeWarnings := s.escapeWarnings ++ [⟨offset.toUInt32, message⟩] }

/-- Warns of the escape whose backslash is at `bs`, if it is not a valid one. -/
def noteInvalidEscape (bs : ℕ) (isBytes : Bool) : Scan Bool :=
  match src[bs + 1]? with
  | none => pure false
  | some esc =>
    if isOctal esc then do
      let digits := esc :: ((src.drop (bs + 2)).take 2).takeWhile isOctal
      let val := digits.foldl (fun v d => v * 8 + (d - ascii '0').toNat) 0
      if val > 0o377 then
        let text := "\\" ++ String.ofList (digits.map toChar)
        warn bs ("\"" ++ text ++ "\" is an invalid octal escape sequence. " ++
          "Such sequences will not work in the future. " ++ "Did you mean \"\\" ++ text ++
          "\"? A raw string is also an option.")
        return true
      else return false
    else if ("\n\r\\'\"abfnrtvx".toList.map ascii).contains esc || (!isBytes && ("uUN".toList.map ascii).contains esc) then
      pure false
    else do
      let escChar := ((fromUtf8 (src.drop (bs + 1))).bind fun s => s.toList.head?).getD (toChar esc)
      let text := "\\" ++ String.singleton escChar
      warn bs ("\"" ++ text ++ "\" is an invalid escape sequence. " ++ "Such sequences will not work in the future. " ++
        "Did you mean \"\\" ++ text ++ "\"? A raw string is also an option.")
      return true

end Reading

end WeavePy.Lexer
