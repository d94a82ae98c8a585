import WeavePy.Lexer.Scanner

/-!
Identifiers, numbers, strings and operators.
-/

namespace WeavePy.Lexer

variable (lang : Language) (src : List UInt8)

section Numbers

/-- At the last byte read. -/
def invalidNumber {α : Type} (message : String) : Scan α := do
  let p ← position
  Prog.raise (.invalidNumber (p - 1).toUInt32 message)

/-- Digits with underscores between them; whether there are any. -/
def consumeDigitRun : Scan Bool :=
  scanLoop src (fun any => do
    match ← peek src with
    | some b =>
      if isDigit b then
        advance 1
        return .next true
      else if b = ascii '_' ∧ any then
        advance 1
        match ← peek src with
        | some c => if isDigit c then return .next any else invalidNumber "invalid decimal literal"
        | none => invalidNumber "invalid decimal literal"
      else return .done any
    | none => return .done any) false

/-- A number may be followed by these words. -/
def allowedAfterNumber : List String := ["and", "else", "for", "if", "in", "is", "not", "or"]

def verifyEndOfNumber (message : String) : Scan Unit := do
  match ← peek src with
  | none => return ()
  | some next =>
    if ¬ isIdentStart next then return ()
    else
      let p ← position
      let rest := src.drop p
      let word := (fromUtf8 (rest.take (runLength (fun b => isIdentStart b || isDigit b || 0x80 ≤ b) rest))).getD ""
      if word ∈ allowedAfterNumber then warn p message
      else invalidNumber message

structure Radix where
  valid : UInt8 → Bool
  literalMsg : String
  radixName : String

def radixOf (b : UInt8) : Radix :=
  if b = ascii 'x' ∨ b = ascii 'X' then ⟨isHex, "invalid hexadecimal literal", "hexadecimal"⟩
  else if b = ascii 'o' ∨ b = ascii 'O' then ⟨isOctal, "invalid octal literal", "octal"⟩
  else ⟨fun b => b = ascii '0' || b = ascii '1', "invalid binary literal", "binary"⟩

def invalidDigit (radix : Radix) (b : UInt8) : String :=
  "invalid digit '" ++ String.singleton (toChar b) ++ "' in " ++ radix.radixName ++ " literal"

/-- The digits of a radix; whether there are any. -/
def radixDigits (radix : Radix) : Scan Bool :=
  scanLoop src (fun any => do
    match ← peek src with
    | some b =>
      if b = ascii '_' then
        advance 1
        match ← peek src with
        | some c =>
          if radix.valid c then return .next any
          else if isDigit c ∧ radix.radixName ≠ "hexadecimal" then
            advance 1
            invalidNumber (invalidDigit radix c)
          else invalidNumber radix.literalMsg
        | none => invalidNumber radix.literalMsg
      else if radix.valid b then
        advance 1
        return .next true
      else return .done any
    | none => return .done any) false

def scanRadixNumber (start : ℕ) (radix : Radix) : Scan Token := do
  advance 2
  let any ← radixDigits src radix
  let next ← peek src
  if radix.radixName ≠ "hexadecimal" ∧ next.any isDigit then
    advance 1
    invalidNumber (invalidDigit radix (next.getD 0))
  else if ¬ any then Prog.raise (.invalidNumber (start + 1).toUInt32 radix.literalMsg)
  else
    verifyEndOfNumber src radix.literalMsg
    emit .Number start

/-- The fraction, if there is one. -/
def scanFraction : Scan Bool := do
  match ← peek src with
  | some b =>
    if b = ascii '.' then
      advance 1
      let _ ← consumeDigitRun src
      return true
    else return false
  | none => return false

/-- The exponent, if there is one: a bare `e` is left to what follows. -/
def scanExponent : Scan Bool := do
  match ← peek src with
  | some b =>
    if b = ascii 'e' ∨ b = ascii 'E' then
      let expStart ← position
      advance 1
      let sign ← peek src
      let signed := sign = some (ascii '+') ∨ sign = some (ascii '-')
      if signed then advance 1 else pure ()
      let digit ← peek src
      if digit.any isDigit then
        let _ ← consumeDigitRun src
        return true
      else if signed then invalidNumber "invalid decimal literal"
      else
        Prog.modify fun s => { s with pos := expStart }
        return false
    else return false
  | none => return false

def scanImaginary : Scan Bool := do
  match ← peek src with
  | some b =>
    if b = ascii 'j' ∨ b = ascii 'J' then
      advance 1
      return true
    else return false
  | none => return false

def scanDecimal (start : ℕ) : Scan Token := do
  let _ ← consumeDigitRun src
  let intEnd ← position
  let fraction ← scanFraction src
  let exponent ← scanExponent src
  let isImaginary ← scanImaginary src
  let digits := (src.drop start).take (intEnd - start)
  if ¬ (fraction ∨ exponent) ∧ ¬ isImaginary ∧ digits.head? = some (ascii '0') ∧
      digits.any (fun b => ascii '1' ≤ b && b ≤ ascii '9') then
    Prog.raise (.invalidNumber start.toUInt32
      "leading zeros in decimal integer literals are not permitted; use an 0o prefix for octal integers")
  else
    verifyEndOfNumber src (if isImaginary then "invalid imaginary literal" else "invalid decimal literal")
    emit .Number start

def scanNumber : Scan Token := do
  let start ← position
  let first ← expectPeek src
  match ← peekAt src 1 with
  | some radixChar =>
    if first = ascii '0' ∧ radixChar ∈ "xXoObB".toList.map ascii then scanRadixNumber src start (radixOf radixChar)
    else scanDecimal src start
  | none => scanDecimal src start

end Numbers

section Strings

/-- Whether the three bytes at the position are the quote. -/
def atTriple (quote : UInt8) : Scan Bool := do
  let b1 ← peekAt src 1
  let b2 ← peekAt src 2
  return b1 = some quote && b2 = some quote

/-- Whether the last two bytes are an escaped end quote. -/
def escapedEndQuote (quote : UInt8) (pos : ℕ) : Bool :=
  2 ≤ pos && src[pos - 1]? = some quote && src[pos - 2]? = some (ascii '\\')

def unterminatedSingle {α : Type} (start : ℕ) (quote : UInt8) : Scan α := do
  let p ← position
  if escapedEndQuote src quote p then Prog.raise (.unterminatedStringEscapedQuote start.toUInt32 (lineOf src p))
  else Prog.raise (.unterminatedString start.toUInt32 (lineOf src p))

/-- Passes over a backslash and the byte it escapes. -/
def skipEscape : Scan Unit := do
  advance 1
  match ← peek src with
  | some _ => advance 1
  | none => pure ()

def scanSingleLineString (start : ℕ) (quote : UInt8) (p : StringPrefix) : Scan Token := do
  scanLoop src (fun (warned : Bool) => do
    match ← peek src with
    | none => unterminatedSingle src start quote
    | some b =>
      if b = ascii '\n' ∨ b = ascii '\r' then unterminatedSingle src start quote
      else if b = ascii '\\' ∧ ¬ p.raw then
        let at_ ← position
        let warned ← (if ¬ warned then noteInvalidEscape src at_ p.bytes else pure warned)
        advance 1
        match ← peek src with
        | some next =>
          advance 1
          if next = ascii '\r' then
            let after ← peek src
            if after = some (ascii '\n') then advance 1 else pure ()
          else pure ()
        | none => pure ()
        return .next warned
      else if b = ascii '\\' then
        skipEscape src
        return .next warned
      else if b = quote then
        advance 1
        return .done ()
      else
        advance 1
        return .next warned) false
  emit .String start

def scanTripleString (start : ℕ) (quote : UInt8) (p : StringPrefix) : Scan Token := do
  scanLoop src (fun (warned : Bool) => do
    match ← peek src with
    | none => Prog.raise (.unterminatedTripleString start.toUInt32 (eofLine src))
    | some b =>
      if b = ascii '\\' then
        let at_ ← position
        let warned ← (if ¬ p.raw ∧ ¬ warned then noteInvalidEscape src at_ p.bytes else pure warned)
        skipEscape src
        return .next warned
      else
        let closes ← atTriple src quote
        if b = quote ∧ closes then
          advance 3
          return .done ()
        else
          advance 1
          return .next warned) false
  emit .String start

end Strings

section Fstrings

/-- Ran off the end of the literal. -/
def unterminatedFstring {α : Type} (start : ℕ) (triple : Bool) (kind : Char) : Scan α :=
  if triple then Prog.raise (.unterminatedTripleFstring start.toUInt32 kind (eofLine src))
  else Prog.raise (.unterminatedFstring start.toUInt32 kind (eofLine src))

def malformedNamedEscape {α : Type} (bs bodyStart : ℕ) : Scan α := do
  let p ← position
  Prog.raise (.fstringMalformedNamedEscape p.toUInt32 (bs - bodyStart).toUInt32 (p - bodyStart - 1).toUInt32)

/-- A character's name, up to its closing brace. -/
def scanEscapeName (bs bodyStart : ℕ) (quote : UInt8) (triple : Bool) : Scan Unit :=
  scanLoop src (fun _ => do
    match ← peek src with
    | none => malformedNamedEscape bs bodyStart
    | some b =>
      if b = ascii '}' then
        advance 1
        return .done ()
      else if (b = ascii '\n' ∨ b = ascii '\r') ∧ ¬ triple then malformedNamedEscape bs bodyStart
      else
        let closes ← atTriple src quote
        if b = quote ∧ (¬ triple ∨ closes) then malformedNamedEscape bs bodyStart
        else
          advance 1
          return .next ()) ()

/-- A backslash, and what it escapes unless that is a brace. -/
def skipLiteralEscape : Scan Unit := do
  advance 1
  match ← peek src with
  | some n => if n ≠ ascii '{' ∧ n ≠ ascii '}' then advance 1 else pure ()
  | none => pure ()

/-- What precedes a nested string's quote: its prefix, if no longer identifier ends there. -/
def nestedPrefix (pos : ℕ) : StringPrefix :=
  let letters := runLength isAlpha (src.take pos).reverse
  let s := pos - letters
  let glued := (src.take s).getLast?.any fun b => b = ascii '_' || isDigit b
  if ¬ glued ∧ s < pos then
    ((fromUtf8 ((src.drop s).take letters)).bind (StringPrefix.parse lang.langPreview)).getD .default
  else .default

/-- A string in a replacement field that has no fields itself. -/
def scanNestedPlain (outerQuote quote : UInt8) (triple : Bool) (quotePos : ℕ) (fieldStart : UInt32) (kind : Char) :
    Scan Unit :=
  let unterminated (pos : ℕ) (line : UInt32) : LexError :=
    if quote = outerQuote then .fstringExpectingBrace quotePos.toUInt32 kind fieldStart
    else .unterminatedString pos.toUInt32 line
  scanLoop src (fun _ => do
    match ← peek src with
    | none =>
      let p ← position
      Prog.raise (unterminated p (eofLine src))
    | some b =>
      if b = ascii '\\' then
        skipEscape src
        return .next ()
      else if b = quote then
        let closes ← atTriple src quote
        if ¬ triple then
          advance 1
          return .done ()
        else if closes then
          advance 3
          return .done ()
        else
          advance 1
          return .next ()
      else if (b = ascii '\n' ∨ b = ascii '\r') ∧ ¬ triple then
        let p ← position
        Prog.raise (unterminated p (lineOf src p))
      else
        advance 1
        return .next ()) ()

/-- The opener of a closing bracket. -/
def openerOf (b : UInt8) : UInt8 :=
  if b = ascii ')' then ascii '(' else if b = ascii ']' then ascii '[' else ascii '{'

mutual

/-- The literal part of an f-string, with its fields, up to and with the closing quotes. -/
def scanFstringExtent : ℕ → ℕ → UInt8 → Bool → StringPrefix → Bool → Scan Bool
  | 0, _, _, _, _, _ => Prog.fault .diverge
  | fuel + 1, start, quote, triple, p, warned => do
    let level ← Prog.gets Scanner.fstringLevel
    if level + 1 > 150 then
      let field ← Prog.gets Scanner.outerFieldStart
      let kind ← Prog.gets fun s => s.fstringKinds.getLast?.getD 'f'
      Prog.raise (.fstringTooManyNested start.toUInt32 (field.getD start.toUInt32) kind)
    else
      let kind := if p.template then 't' else 'f'
      Prog.modify fun s => { s with fstringLevel := s.fstringLevel + 1, fstringKinds := kind :: s.fstringKinds }
      Prog.finally_ (do
        let bodyStart ← position
        scanLoop src (fun (warned : Bool) => do
          match ← peek src with
          | none => unterminatedFstring src start triple kind
          | some b =>
            if b = quote then
              let closes ← atTriple src quote
              if ¬ triple then
                advance 1
                return .done warned
              else if closes then
                advance 3
                return .done warned
              else
                advance 1
                return .next warned
            else if (b = ascii '\n' ∨ b = ascii '\r') ∧ ¬ triple then
              let at_ ← position
              Prog.raise (.unterminatedFstring start.toUInt32 kind (lineOf src at_))
            else if b = ascii '\\' then
              let bs ← position
              let b1 ← peekAt src 1
              let b2 ← peekAt src 2
              if ¬ p.raw ∧ b1 = some (ascii 'N') ∧ b2 = some (ascii '{') then
                advance 3
                scanEscapeName src bs bodyStart quote triple
                return .next warned
              else
                let warned ← (if ¬ p.raw ∧ ¬ warned then noteInvalidEscape src bs false else pure warned)
                skipLiteralEscape src
                return .next warned
            else if b = ascii '{' then
              let b1 ← peekAt src 1
              if b1 = some (ascii '{') then
                advance 2
                return .next warned
              else
                advance 1
                let warned ← scanFstringFieldExtent fuel start quote triple p.raw 1 warned
                return .next warned
            else if b = ascii '}' then
              let b1 ← peekAt src 1
              advance (if b1 = some (ascii '}') then 2 else 1)
              return .next warned
            else
              advance 1
              return .next warned) warned)
        (fun s => .ok { s with fstringLevel := s.fstringLevel - 1, fstringKinds := s.fstringKinds.tail })
termination_by structural fuel => fuel

/-- A replacement field from past its opening brace, at any of its nesting. -/
def scanFstringFieldExtent : ℕ → ℕ → UInt8 → Bool → Bool → ℕ → Bool → Scan Bool
  | 0, _, _, _, _, _, _ => Prog.fault .diverge
  | fuel + 1, start, outerQuote, outerTriple, outerRaw, depth, warned => do
    let fieldAt ← position
    let level ← Prog.gets Scanner.fstringLevel
    if depth = 1 ∧ level = 1 then Prog.modify fun s => { s with outerFieldStart := some fieldAt.toUInt32 } else pure ()
    scanLoop src (fun (state : List UInt8 × Bool) => do
      let (stack, inComment) := state
      match ← peek src with
      | none =>
        if inComment then Prog.raise (.bracketNeverClosed (toChar (stack.headD (ascii '{'))) start.toUInt32)
        else Prog.raise (.bracketNeverClosed '{' (fieldAt - 1).toUInt32)
      | some b =>
        if b = ascii '}' ∧ stack = [] then
          advance 1
          return .done warned
        else if b = ascii ':' ∧ stack = [] then
          if depth ≥ 3 then
            let at_ ← position
            let kind ← fstringKind
            Prog.raise (.fstringNestedTooDeeply at_.toUInt32 kind)
          else
            advance 1
            let warned ←
              scanFstringFormatSpecExtent fuel start outerQuote outerTriple outerRaw depth fieldAt.toUInt32 warned
            return .done warned
        else if b = ascii '\\' then
          let at_ ← position
          match ← peekAt src 1 with
          | none => Prog.raise (.strayBackslash at_.toUInt32)
          | some n =>
            if n = ascii '\n' then
              advance 2
              return .next state
            else if n = ascii '\r' then
              advance 2
              let after ← peek src
              if after = some (ascii '\n') then advance 1 else pure ()
              return .next state
            else Prog.raise (.strayBackslash (at_ + 1).toUInt32)
        else if b = ascii '(' ∨ b = ascii '[' ∨ b = ascii '{' then
          advance 1
          return .next (b :: stack, inComment)
        else if b = ascii ')' ∨ b = ascii ']' ∨ b = ascii '}' then
          let at_ ← position
          match stack with
          | [] =>
            let kind ← fstringKind
            Prog.raise (.fstringUnmatchedParen (toChar b) at_.toUInt32 kind)
          | opener :: rest =>
            if opener = openerOf b then
              advance 1
              return .next (rest, inComment)
            else Prog.raise (.fstringParenMismatch (toChar b) (toChar opener) at_.toUInt32)
        else if b = ascii '"' ∨ b = ascii '\'' then
          scanFstringNestedString fuel outerQuote fieldAt.toUInt32
          return .next state
        else if b = ascii '#' then
          skipWhile src fun c => c ≠ ascii '\n'
          let after ← peek src
          return .next (stack, after = none)
        else
          advance 1
          return .next state) ([], false)
termination_by structural fuel => fuel

/-- A format spec from past its colon, up to the brace that closes its field. -/
def scanFstringFormatSpecExtent : ℕ → ℕ → UInt8 → Bool → Bool → ℕ → UInt32 → Bool → Scan Bool
  | 0, _, _, _, _, _, _, _ => Prog.fault .diverge
  | fuel + 1, start, outerQuote, outerTriple, outerRaw, depth, fieldStart, warned => do
    scanLoop src (fun (warned : Bool) => do
      match ← peek src with
      | none =>
        let kind ← fstringKind
        Prog.raise (.fstringExpectingBraceOrSpec start.toUInt32 kind fieldStart)
      | some b =>
        if b = ascii '}' then
          advance 1
          return .done warned
        else if b = ascii '{' then
          advance 1
          let warned ← scanFstringFieldExtent fuel start outerQuote outerTriple outerRaw (depth + 1) warned
          return .next warned
        else if b = ascii '\\' then
          let at_ ← position
          let warned ← (if ¬ outerRaw ∧ ¬ warned then noteInvalidEscape src at_ false else pure warned)
          advance 1
          match ← peek src with
          | some n =>
            if n ≠ ascii '{' ∧ n ≠ ascii '}' ∧ ¬ ((n = ascii '\n' ∨ n = ascii '\r') ∧ ¬ outerTriple) then advance 1
            else pure ()
          | none => pure ()
          return .next warned
        else if b = outerQuote then
          let at_ ← position
          let kind ← fstringKind
          Prog.raise (.fstringExpectingBraceOrSpec at_.toUInt32 kind fieldStart)
        else if (b = ascii '\n' ∨ b = ascii '\r') ∧ ¬ outerTriple then
          let at_ ← position
          let kind ← fstringKind
          Prog.raise (.fstringNewlineInSpec at_.toUInt32 kind)
        else
          advance 1
          return .next warned) warned
termination_by structural fuel => fuel

/-- A string literal in a replacement field. -/
def scanFstringNestedString : ℕ → UInt8 → UInt32 → Scan Unit
  | 0, _, _ => Prog.fault .diverge
  | fuel + 1, outerQuote, fieldStart => do
    let quote ← expectPeek src
    let triple ← atTriple src quote
    let quotePos ← position
    let kind ← fstringKind
    let p := nestedPrefix lang src quotePos
    advance (if triple then 3 else 1)
    if p.interpolated then
      let inner ← position
      let _ ← scanFstringExtent fuel inner quote triple p false
      return ()
    else scanNestedPlain src outerQuote quote triple quotePos fieldStart kind
termination_by structural fuel => fuel

end

/-- Each string in a field, and each field, reads a byte before the next. -/
def scanString (start : ℕ) (p : StringPrefix) : Scan Token := do
  let quote ← expectPeek src
  let triple ← atTriple src quote
  advance (if triple then 3 else 1)
  if p.interpolated then
    let _ ← scanFstringExtent lang src (2 * src.length + 2) start quote triple p false
    emit .String start
  else if triple then scanTripleString src start quote p
  else scanSingleLineString src start quote p

end Fstrings

section Identifiers

/-- The letters of a run of string prefixes, none of them twice. -/
def prefixLetters (letters : List Char) (c : Char) : Option (List Char) :=
  let l := toAsciiLowercase c
  if l ∈ ['b', 'u', 'r', 'f', 't'] ∧ l ∉ letters then some (l :: letters) else none

/-- The first two of them that do not go together. -/
def incompatiblePrefixPair (s : String) : Option (Char × Char) := do
  let letters ← s.toList.foldlM prefixLetters []
  [('u', 'b'), ('u', 'r'), ('u', 'f'), ('u', 't'), ('b', 'f'), ('b', 't'), ('f', 't')].find? fun (a, b) =>
    a ∈ letters ∧ b ∈ letters

def scanIdentBytes : Scan Unit :=
  scanLoop src (fun _ => do
    match ← peek src with
    | none => return .done ()
    | some b =>
      if isIdentStart b || isDigit b then
        advance 1
        return .next ()
      else if 0x80 ≤ b then
        let at_ ← position
        match decodeUtf8 (src.drop at_) with
        | none => Prog.raise (.invalidChar '\uFFFD' at_.toUInt32)
        | some (ch, len) =>
          if lang.isXidContinue ch then
            advance len
            return .next ()
          else return .done ()
      else return .done ()) ()

def scanName (start : ℕ) : Scan Token := do
  let bytes ← lexeme src start
  match fromUtf8 bytes with
  | none => Prog.raise (.invalidChar '\uFFFD' start.toUInt32)
  | some s => emit ((Keyword.fromIdent s).elim .Name .Keyword) start

def scanIdentOrPrefixedString : Scan Token := do
  let start ← position
  scanIdentBytes lang src
  let bytes ← lexeme src start
  let next ← peek src
  if next = some (ascii '"') ∨ next = some (ascii '\'') then
    let prefixStr := (fromUtf8 bytes).getD ""
    match StringPrefix.parse lang.langPreview prefixStr with
    | some p => scanString lang src start p
    | none =>
      match incompatiblePrefixPair prefixStr with
      | some (first, second) =>
        let stop ← position
        Prog.raise (.incompatibleStringPrefixes start.toUInt32 stop.toUInt32 first second)
      | none => scanName src start
  else scanName src start

end Identifiers

section Operators

/-- Not more than `MAXLEVEL` brackets are open at once. -/
def pushBracket (opener : UInt8) (start : ℕ) : Scan Unit := do
  let brackets ← Prog.gets Scanner.openBrackets
  if brackets.length ≥ 200 then Prog.raise (.tooManyNestedParens start.toUInt32)
  else
    Prog.modify fun s =>
      { s with parenDepth := s.parenDepth + 1, openBrackets := (opener, start) :: s.openBrackets }

def closerOf (opener : UInt8) : UInt8 :=
  if opener = ascii '(' then ascii ')' else if opener = ascii '[' then ascii ']' else ascii '}'

def closeBracket (close : UInt8) (start : ℕ) : Scan Unit := do
  let brackets ← Prog.gets Scanner.openBrackets
  match brackets with
  | [] => Prog.raise (.unmatchedClose (toChar close) start.toUInt32)
  | (opener, openPos) :: rest =>
    Prog.modify fun s => { s with openBrackets := rest }
    if close ≠ closerOf opener then
      let openLine := lineOf src openPos
      Prog.raise (.mismatchedClose (toChar close) (toChar opener)
        (if openLine ≠ lineOf src start then some openLine else none) start.toUInt32)
    else Prog.modify fun s => { s with parenDepth := s.parenDepth - 1 }

def threeChar : List (String × TokenKind) :=
  [("...", .Ellipsis), ("**=", .DoubleStarEqual), ("//=", .DoubleSlashEqual), ("<<=", .LeftShiftEqual),
    (">>=", .RightShiftEqual)]

def twoChar : List (String × TokenKind) :=
  [("**", .DoubleStar), ("//", .DoubleSlash), ("<<", .LeftShift), (">>", .RightShift), ("==", .EqEqual),
    ("!=", .NotEqual), ("<>", .NotEqual), ("<=", .LessEqual), (">=", .GreaterEqual), ("+=", .PlusEqual),
    ("-=", .MinusEqual), ("*=", .StarEqual), ("/=", .SlashEqual), ("%=", .PercentEqual), ("&=", .AmperEqual),
    ("|=", .VbarEqual), ("^=", .CaretEqual), ("@=", .AtEqual), (":=", .ColonEqual), ("->", .RArrow)]

def oneChar : List (String × TokenKind) :=
  [(",", .Comma), (":", .Colon), (";", .Semi), (".", .Dot), ("@", .At), ("+", .Plus), ("-", .Minus), ("*", .Star),
    ("/", .Slash), ("%", .Percent), ("&", .Amper), ("|", .Vbar), ("^", .Caret), ("~", .Tilde), ("<", .Less),
    (">", .Greater), ("=", .Equal)]

def openers : List (Char × TokenKind) := [('(', .LPar), ('[', .LSqb), ('{', .LBrace)]

def closers : List (Char × TokenKind) := [(')', .RPar), (']', .RSqb), ('}', .RBrace)]

/-- The table's operator that the bytes are. -/
def operatorOf (table : List (String × TokenKind)) (bytes : List UInt8) : Option TokenKind :=
  (table.find? fun e => e.1.toList.map ascii = bytes).map Prod.snd

def bracketOf (table : List (Char × TokenKind)) (b : UInt8) : Option TokenKind :=
  (table.find? fun e => ascii e.1 = b).map Prod.snd

/-- `char::is_control`. -/
def isControl (c : Char) : Bool := c.toNat ≤ 0x1F || (0x7F ≤ c.toNat && c.toNat ≤ 0x9F)

/-- `char::is_whitespace`. -/
def isWhitespace (c : Char) : Bool :=
  (0x09 ≤ c.toNat && c.toNat ≤ 0x0D) || (0x2000 ≤ c.toNat && c.toNat ≤ 0x200A) ||
    [0x20, 0x85, 0xA0, 0x1680, 0x2028, 0x2029, 0x202F, 0x205F, 0x3000].contains c.toNat

/-- Format characters that do not print. -/
def isFormat (c : Char) : Bool :=
  (0x200B ≤ c.toNat && c.toNat ≤ 0x200F) || (0x202A ≤ c.toNat && c.toNat ≤ 0x202E) ||
    (0x2060 ≤ c.toNat && c.toNat ≤ 0x2064) || c.toNat = 0xFEFF

def invalidCharacter (bytes : List UInt8) (pos : ℕ) : LexError :=
  let ch := ((decodeUtf8 bytes).map Prod.fst).getD '\uFFFD'
  if ch.toNat < 0x80 then
    if isControl ch then .invalidNonPrintable ch pos.toUInt32 else .invalidToken pos.toUInt32
  else if isControl ch || (isWhitespace ch && ch ≠ ' ') || isFormat ch then .invalidNonPrintable ch pos.toUInt32
  else .invalidChar ch pos.toUInt32

def scanPunct : Scan Token := do
  let start ← position
  let b ← expectPeek src
  let rest := src.drop start
  match operatorOf threeChar (rest.take 3) with
  | some kind =>
    advance 3
    emit kind start
  | none =>
    match operatorOf twoChar (rest.take 2) with
    | some kind =>
      advance 2
      emit kind start
    | none =>
      match bracketOf openers b with
      | some kind =>
        pushBracket b start
        advance 1
        emit kind start
      | none =>
        match bracketOf closers b with
        | some kind =>
          closeBracket src b start
          advance 1
          emit kind start
        | none =>
          match operatorOf oneChar [b] with
          | some kind =>
            advance 1
            emit kind start
          | none => Prog.raise (invalidCharacter rest start)

end Operators

end WeavePy.Lexer
