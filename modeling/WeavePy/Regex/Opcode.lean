import Mathlib.Algebra.Ring.Int.Defs
import Mathlib.Algebra.Ring.Nat
import WeavePy.Rust

/-!
Compiled patterns, and the tests of the matcher that only look at the pattern and the subject.
-/

namespace WeavePy.Regex

/-- The opcodes, in the order of their numbers. -/
inductive Op where
  | FAILURE | SUCCESS | ANY | ANY_ALL | ASSERT | ASSERT_NOT | AT | BRANCH | CATEGORY | CHARSET
  | BIGCHARSET | GROUPREF | GROUPREF_EXISTS | IN | INFO | JUMP | LITERAL | MARK | MAX_UNTIL
  | MIN_UNTIL | NOT_LITERAL | NEGATE | RANGE | REPEAT | REPEAT_ONE | SUBPATTERN | MIN_REPEAT_ONE
  | ATOMIC_GROUP | POSSESSIVE_REPEAT | POSSESSIVE_REPEAT_ONE | GROUPREF_IGNORE | IN_IGNORE
  | LITERAL_IGNORE | NOT_LITERAL_IGNORE | GROUPREF_LOC_IGNORE | IN_LOC_IGNORE | LITERAL_LOC_IGNORE
  | NOT_LITERAL_LOC_IGNORE | GROUPREF_UNI_IGNORE | IN_UNI_IGNORE | LITERAL_UNI_IGNORE
  | NOT_LITERAL_UNI_IGNORE | RANGE_UNI_IGNORE
  deriving DecidableEq, Repr

/-- The opcode of a code word. -/
def Op.ofCode (w : ℕ) : Option Op :=
  [FAILURE, SUCCESS, ANY, ANY_ALL, ASSERT, ASSERT_NOT, AT, BRANCH, CATEGORY, CHARSET, BIGCHARSET,
    GROUPREF, GROUPREF_EXISTS, IN, INFO, JUMP, LITERAL, MARK, MAX_UNTIL, MIN_UNTIL, NOT_LITERAL,
    NEGATE, RANGE, REPEAT, REPEAT_ONE, SUBPATTERN, MIN_REPEAT_ONE, ATOMIC_GROUP,
    POSSESSIVE_REPEAT, POSSESSIVE_REPEAT_ONE, GROUPREF_IGNORE, IN_IGNORE, LITERAL_IGNORE,
    NOT_LITERAL_IGNORE, GROUPREF_LOC_IGNORE, IN_LOC_IGNORE, LITERAL_LOC_IGNORE,
    NOT_LITERAL_LOC_IGNORE, GROUPREF_UNI_IGNORE, IN_UNI_IGNORE, LITERAL_UNI_IGNORE,
    NOT_LITERAL_UNI_IGNORE, RANGE_UNI_IGNORE][w]?

/-- No upper limit of a repeat. -/
def MAXREPEAT : ℕ := 2 ^ 32 - 1

def NO_TABLE : ℕ := 2 ^ 32 - 1

/-- What a tail requires of its first character. -/
inductive TailFirst where
  | any
  | literal (c : ℕ)
  | literalIgnore (c : ℕ)
  | literalUniIgnore (c : ℕ)
  | set (i : ℕ)
  | setIgnore (i : ℕ)
  | setUniIgnore (i : ℕ)
  | branch (i : ℕ)
  deriving DecidableEq

inductive QuickTest where
  | char (first : TailFirst)
  | at (code : ℕ)

/-- A condition of an alternative on the position where it starts. -/
inductive Req where
  | char (first : TailFirst)
  | assert (body back : ℕ) (negate : Bool)
  | branch (i : ℕ)

structure CompiledCode where
  code : List ℕ
  groups : ℕ
  tableOf : List ℕ
  tables : List (List ℕ)
  quickOf : List ℕ
  quickRanges : List (ℕ × ℕ)
  quickTests : List QuickTest
  altOf : List ℕ
  altRanges : List (ℕ × ℕ)
  altReqs : List Req

/-- The character data of the standard library. -/
structure CharData where
  /-- `c.to_lowercase().next()` -/
  lowercase : ℕ → Option ℕ
  uppercase : ℕ → Option ℕ
  isAlphanumeric : ℕ → Bool
  isWhitespace : ℕ → Bool

/-- What a run of the matcher does not change. -/
structure Env where
  cc : CompiledCode
  chars : CharData
  s : List ℕ
  beginning : ℕ
  start : ℕ
  stop : ℕ
  mustAdvance : Bool
  matchAll : Bool

section Characters

def inRange (lo hi ch : ℕ) : Bool := decide (lo ≤ ch) && decide (ch ≤ hi)

def lowerAscii (ch : ℕ) : ℕ := if inRange 0x41 0x5a ch then ch + 32 else ch

def upperAscii (ch : ℕ) : ℕ := if inRange 0x61 0x7a ch then ch - 32 else ch

/-- `char::from_u32` succeeds. -/
def isChar (ch : ℕ) : Bool := decide (ch < 0xd800) || inRange 0xe000 0x10ffff ch

def isLinebreak (ch : ℕ) : Bool := ch == 0x0a

def asciiDigit (ch : ℕ) : Bool := inRange 0x30 0x39 ch

def asciiSpace (ch : ℕ) : Bool := [0x20, 0x09, 0x0a, 0x0b, 0x0c, 0x0d].contains ch

def asciiWord (ch : ℕ) : Bool :=
  asciiDigit ch || inRange 0x61 0x7a ch || inRange 0x41 0x5a ch || ch == 0x5f

def charLocIgnore (pat ch : ℕ) : Bool := ch == pat || lowerAscii ch == pat || upperAscii ch == pat

/-- The common blocks of decimal digits. -/
def ndDigit (ch : ℕ) : Bool :=
  [0x0660, 0x06f0, 0x07c0, 0x0966, 0x09e6, 0x0a66, 0x0ae6, 0x0b66, 0x0be6, 0x0c66, 0x0ce6, 0x0d66,
    0x0e50, 0x0ed0, 0x0f20, 0xff10].any fun lo => inRange lo (lo + 9) ch

def uniDigit (ch : ℕ) : Bool := if ch < 128 then asciiDigit ch else isChar ch && ndDigit ch

def uniLinebreak (ch : ℕ) : Bool :=
  [0x0a, 0x0b, 0x0c, 0x0d, 0x1c, 0x1d, 0x1e, 0x85, 0x2028, 0x2029].contains ch

namespace CharData

variable (d : CharData)

def lowerUnicode (ch : ℕ) : ℕ := if isChar ch then (d.lowercase ch).getD ch else ch

def upperUnicode (ch : ℕ) : ℕ := if isChar ch then (d.uppercase ch).getD ch else ch

def locWord (ch : ℕ) : Bool :=
  ch == 0x5f || isChar ch && decide (ch < 256) && d.isAlphanumeric ch

def uniSpace (ch : ℕ) : Bool :=
  if ch < 128 then inRange 0x09 0x0d ch || ch == 0x20 else isChar ch && d.isWhitespace ch

def uniWord (ch : ℕ) : Bool := if ch < 128 then asciiWord ch else isChar ch && d.isAlphanumeric ch

/-- The categories, each followed by its complement. -/
def category (chcode ch : ℕ) : Bool :=
  match chcode with
  | 0 => asciiDigit ch
  | 1 => !asciiDigit ch
  | 2 => asciiSpace ch
  | 3 => !asciiSpace ch
  | 4 => asciiWord ch
  | 5 => !asciiWord ch
  | 6 => isLinebreak ch
  | 7 => !isLinebreak ch
  | 8 => d.locWord ch
  | 9 => !d.locWord ch
  | 10 => uniDigit ch
  | 11 => !uniDigit ch
  | 12 => d.uniSpace ch
  | 13 => !d.uniSpace ch
  | 14 => d.uniWord ch
  | 15 => !d.uniWord ch
  | 16 => uniLinebreak ch
  | 17 => !uniLinebreak ch
  | _ => false

/-- The data, as far as ASCII goes. -/
def ascii : CharData where
  lowercase ch := some (lowerAscii ch)
  uppercase ch := some (upperAscii ch)
  isAlphanumeric ch := asciiWord ch && ch != 0x5f
  isWhitespace ch := inRange 0x09 0x0d ch || ch == 0x20

end CharData

end Characters

namespace Env

variable (E : Env)

/-- `self.code[i]` -/
def word (i : ℕ) : Outcome ℕ := index E.cc.code i

def opcode (i : ℕ) : Outcome (Option Op) := (E.word i).map Op.ofCode

section Sets

/-- The bit of a set of 256 characters, in words of `width` bits. -/
def bitOf (width word ch : ℕ) : Bool := (word >>> (ch % width)) % 2 == 1

/-- Whether a block of a `BIGCHARSET` holds `ch`; the block's number is a byte of the index words. -/
def bigCharset (set ch : ℕ) : Outcome Bool :=
  if ch < 0x10000 then do
    let byteIndex := ch >>> 8
    let word ← E.word (set + byteIndex / 4)
    let block := (word >>> (byteIndex % 4 * 8)) % 256
    let bit := block * 256 + ch % 256
    return bitOf 32 (← E.word (set + 64 + bit / 32)) bit
  else return false

/-- `code[set] <= ch && ch <= code[set + 1]` -/
def rangeHas (set ch : ℕ) : Outcome Bool := do
  if (← E.word set) ≤ ch then return decide (ch ≤ (← E.word (set + 1))) else return false

/-- `charset_walk` -/
def charsetWalk (ch : ℕ) : ℕ → ℕ → Bool → Outcome Bool
  | 0, _, _ => .error .diverge
  | fuel + 1, set, ok => do
    let op ← E.opcode set
    let set := set + 1
    match op with
    | some .FAILURE => return !ok
    | some .LITERAL => do
      if ch == (← E.word set) then return ok
      charsetWalk ch fuel (set + 1) ok
    | some .CATEGORY => do
      if E.chars.category (← E.word set) ch then return ok
      charsetWalk ch fuel (set + 1) ok
    | some .CHARSET => do
      if ch < 256 then
        if bitOf 32 (← E.word (set + ch / 32)) ch then return ok
      charsetWalk ch fuel (set + 8) ok
    | some .RANGE => do
      if ← E.rangeHas set ch then return ok
      charsetWalk ch fuel (set + 2) ok
    | some .RANGE_UNI_IGNORE => do
      if ← E.rangeHas set ch then return ok
      if ← E.rangeHas set (E.chars.upperUnicode ch) then return ok
      charsetWalk ch fuel (set + 2) ok
    | some .NEGATE => charsetWalk ch fuel set (!ok)
    | some .BIGCHARSET => do
      let count ← E.word set
      if ← E.bigCharset (set + 1) ch then return ok
      charsetWalk ch fuel (set + 65 + count * 8) ok
    | _ => return false

/-- Is `ch` a member of the set at `set`? -/
def charset (set ch : ℕ) : Outcome Bool :=
  match if ch < 256 then E.cc.tableOf[set]? else none with
  | some t =>
    if t ≠ NO_TABLE then do
      let table ← index E.cc.tables t
      return bitOf 64 (← index table (ch / 64)) ch
    else E.charsetWalk ch (E.cc.code.length + 1) set true
  | none => E.charsetWalk ch (E.cc.code.length + 1) set true

def charsetLocIgnore (set ch : ℕ) : Outcome Bool := do
  let lo := lowerAscii ch
  if ← E.charset set lo then return true
  let up := upperAscii ch
  if up ≠ lo then E.charset set up else return false

end Sets

section Positions

/-- The boundary test without the exclusion of the empty string. -/
def wordBoundaryRaw (isWord : ℕ → Bool) (ptr : ℕ) : Outcome Bool := do
  let thatp ← if E.beginning < ptr then (index E.s (ptr - 1)).map isWord else pure false
  let thisp ← if ptr < E.stop then (index E.s ptr).map isWord else pure false
  return thisp != thatp

def wordBoundary (isWord : ℕ → Bool) (ptr : ℕ) : Outcome Bool :=
  if E.beginning = E.stop then return false else E.wordBoundaryRaw isWord ptr

/-- `at`: the position tests. -/
def atPosition (ptr atcode : ℕ) : Outcome Bool :=
  match atcode with
  | 0 | 2 => return ptr == E.beginning
  | 1 =>
    if ptr = E.beginning then return true else (index E.s (ptr - 1)).map isLinebreak
  | 5 => do
    let last ← if E.stop - ptr = 1 then (index E.s ptr).map isLinebreak else pure false
    return last || ptr == E.stop
  | 6 => if ptr = E.stop then return true else (index E.s ptr).map isLinebreak
  | 7 => return ptr == E.stop
  | 3 => E.wordBoundary asciiWord ptr
  | 4 => (E.wordBoundaryRaw asciiWord ptr).map not
  | 8 => E.wordBoundary E.chars.locWord ptr
  | 9 => (E.wordBoundaryRaw E.chars.locWord ptr).map not
  | 10 => E.wordBoundary E.chars.uniWord ptr
  | 11 => (E.wordBoundaryRaw E.chars.uniWord ptr).map not
  | _ => return false

end Positions

section FirstCharacters

/-- The requirement of a single-character op. -/
def itemFirst (op : ℕ) : Outcome TailFirst := do
  match ← E.opcode op with
  | some .LITERAL => return .literal (← E.word (op + 1))
  | some .LITERAL_IGNORE => return .literalIgnore (← E.word (op + 1))
  | some .LITERAL_UNI_IGNORE => return .literalUniIgnore (← E.word (op + 1))
  | some .IN => return .set (op + 2)
  | some .IN_IGNORE => return .setIgnore (op + 2)
  | some .IN_UNI_IGNORE => return .setUniIgnore (op + 2)
  | _ => return .any

/-- `tail_first` without the `BRANCH` case, with the position past any `MARK`s. -/
def simpleFirst : ℕ → ℕ → Outcome (TailFirst × ℕ)
  | 0, _ => .error .diverge
  | fuel + 1, tail => do
    match ← E.opcode tail with
    | some .MARK => simpleFirst fuel (tail + 2)
    | some .REPEAT_ONE | some .MIN_REPEAT_ONE | some .POSSESSIVE_REPEAT_ONE => do
      if 1 ≤ (← E.word (tail + 2)) then return (← E.itemFirst (tail + 4), tail)
      return (← E.itemFirst tail, tail)
    | _ => return (← E.itemFirst tail, tail)

def simpleCanStart (first : TailFirst) (pos : ℕ) : Outcome Bool :=
  if first = .any then return true
  else if E.stop ≤ pos then return false
  else do
    let ch ← index E.s pos
    match first with
    | .any => return true
    | .literal c => return ch == c
    | .literalIgnore c => return lowerAscii ch == c
    | .literalUniIgnore c => return E.chars.lowerUnicode ch == c
    | .set set => E.charset set ch
    | .setIgnore set => E.charset set (lowerAscii ch)
    | .setUniIgnore set => E.charset set (E.chars.lowerUnicode ch)
    | .branch _ => return true

/-- The conditions of the alternative whose body is at `body`. -/
def altReqs (body : ℕ) : Outcome (Option (List Req)) :=
  match E.cc.altOf[body]? with
  | none => return none
  | some a =>
    if a = NO_TABLE then return none
    else do
      let (lo, hi) ← index E.cc.altRanges a
      if lo ≤ hi ∧ hi ≤ E.cc.altReqs.length then return some ((E.cc.altReqs.take hi).drop lo)
      else .error .panic

/-- The verdict of a quick assertion. -/
def quickAssert (body pos : ℕ) : Outcome (Option Bool) :=
  match E.cc.quickOf[body]? with
  | none => return none
  | some a =>
    if a = NO_TABLE then return none
    else do
      let (lo, hi) ← index E.cc.quickRanges a
      if lo ≤ hi ∧ hi ≤ E.cc.quickTests.length then
        let verdict ← ((E.cc.quickTests.take hi).drop lo).anyM fun
          | .char first => E.simpleCanStart first pos
          | .at code => E.atPosition pos code
        return some verdict
      else .error .panic

mutual

/-- Whether some alternative of the `BRANCH` whose alternatives go on at `alt` can start at `pos`. -/
def branchCanStart : ℕ → ℕ → ℕ → Outcome Bool
  | 0, _, _ => .error .diverge
  | fuel + 1, alt, pos => do
    let skip ← E.word alt
    if skip = 0 then return false
    let can ← match ← E.altReqs (alt + 1) with
      | some reqs => reqsHold fuel reqs pos
      | none => do
        let (first, _) ← E.simpleFirst (E.cc.code.length + 1) (alt + 1)
        E.simpleCanStart first pos
    if can then return true
    branchCanStart fuel (alt + skip) pos

/-- All conditions hold at `pos`. -/
def reqsHold : ℕ → List Req → ℕ → Outcome Bool
  | 0, _, _ => .error .diverge
  | _ + 1, [], _ => return true
  | fuel + 1, r :: reqs, pos => do
    let holds ← match r with
      | .char first => E.simpleCanStart first pos
      | .assert body back negate => do
        if pos - E.beginning < back then pure negate
        else pure ((← E.quickAssert body (pos - back)) != some negate)
      | .branch op => branchCanStart fuel (op + 1) pos
    if holds then reqsHold fuel reqs pos else return false

end

/-- Every alternative has a requirement of its own. -/
def branchFirst (op : ℕ) : ℕ → ℕ → Outcome TailFirst
  | 0, _ => .error .diverge
  | fuel + 1, alt => do
    let skip ← E.word alt
    if skip = 0 then return .branch op
    let hasReq ← match ← E.altReqs (alt + 1) with
      | some reqs => pure (reqs.any fun
        | .branch _ => false
        | _ => true)
      | none => do
        let (first, _) ← E.simpleFirst (E.cc.code.length + 1) (alt + 1)
        pure (decide (first ≠ .any))
    if hasReq then branchFirst op fuel (alt + skip) else return .any

/-- What the tail at `tail` requires of its first character. -/
def tailFirst (tail : ℕ) : Outcome TailFirst := do
  let (first, op) ← E.simpleFirst (E.cc.code.length + 1) tail
  if first = .any then
    if (← E.opcode op) = some .BRANCH then
      E.branchFirst op (E.cc.code.length + 1) (op + 1)
    else return .any
  else return first

variable (fuel : ℕ)

def canStart (first : TailFirst) (pos : ℕ) : Outcome Bool :=
  match first with
  | .branch op => E.branchCanStart fuel (op + 1) pos
  | first => E.simpleCanStart first pos

def alternativeCanStart (body pos : ℕ) : Outcome Bool := do
  match ← E.altReqs body with
  | some reqs => E.reqsHold fuel reqs pos
  | none => E.canStart fuel (← E.tailFirst body) pos

end FirstCharacters

section SingleCharacters

/-- The ops that take one character: the test of it, with the operand at `pat`. -/
def charTest (op : Op) (pat ch : ℕ) : Option (Outcome Bool) :=
  match op with
  | .LITERAL => some ((E.word pat).map fun c => ch == c)
  | .NOT_LITERAL => some ((E.word pat).map fun c => ch != c)
  | .CATEGORY => some ((E.word pat).map fun c => E.chars.category c ch)
  | .ANY => some (.ok !(isLinebreak ch))
  | .ANY_ALL => some (.ok true)
  | .IN => some (E.charset (pat + 1) ch)
  | .LITERAL_IGNORE => some ((E.word pat).map fun c => lowerAscii ch == c)
  | .LITERAL_UNI_IGNORE => some ((E.word pat).map fun c => E.chars.lowerUnicode ch == c)
  | .LITERAL_LOC_IGNORE => some ((E.word pat).map fun c => charLocIgnore c ch)
  | .NOT_LITERAL_IGNORE => some ((E.word pat).map fun c => lowerAscii ch != c)
  | .NOT_LITERAL_UNI_IGNORE => some ((E.word pat).map fun c => E.chars.lowerUnicode ch != c)
  | .NOT_LITERAL_LOC_IGNORE => some ((E.word pat).map fun c => !charLocIgnore c ch)
  | .IN_IGNORE => some (E.charset (pat + 1) (lowerAscii ch))
  | .IN_UNI_IGNORE => some (E.charset (pat + 1) (E.chars.lowerUnicode ch))
  | .IN_LOC_IGNORE => some (E.charsetLocIgnore (pat + 1) ch)
  | _ => none

/-- How many units from `ptr` up to `last` pass a test. -/
def countWhile (test : ℕ → Outcome Bool) (last : ℕ) : ℕ → ℕ → Outcome ℕ
  | 0, _ => .error .diverge
  | fuel + 1, ptr =>
    if ptr < last then do
      if ← test (← index E.s ptr) then return (← countWhile test last fuel (ptr + 1)) + 1
      return 0
    else return 0

/-- The items that `count` has a loop of its own for. -/
def countLoops : List Op :=
  [.IN, .ANY, .ANY_ALL, .LITERAL, .NOT_LITERAL, .LITERAL_IGNORE, .LITERAL_UNI_IGNORE,
    .LITERAL_LOC_IGNORE, .NOT_LITERAL_IGNORE, .NOT_LITERAL_UNI_IGNORE, .NOT_LITERAL_LOC_IGNORE]

/-- Where `count` stops at the latest. -/
def countLast (ptr maxcount : ℕ) : ℕ :=
  if maxcount ≠ MAXREPEAT ∧ maxcount < E.stop - ptr then ptr + maxcount else E.stop

/-- The set at `set` is a lone category. -/
def loneCategory (set : ℕ) : Outcome Bool := do
  let op ← E.opcode set
  return decide (op = some .CATEGORY ∧ E.cc.code[set + 2]?.bind Op.ofCode = some .FAILURE)

/-- `count` for the items with a loop of their own. A lone category is tested without walking its
set. -/
def countFast (pat ptr maxcount : ℕ) : Outcome (Option ℕ) := do
  match ← E.opcode pat with
  | none => return none
  | some op =>
    if op ∈ countLoops then
      let last := E.countLast ptr maxcount
      if op = .ANY_ALL then return some (last - ptr)
      let lone ← if op = .IN then E.loneCategory (pat + 2) else pure false
      let operand ← if op = .ANY then pure 0 else E.word (if lone then pat + 3 else pat + 1)
      let test (ch : ℕ) : Outcome Bool :=
        if lone then return E.chars.category operand ch
        else (E.charTest op (pat + 1) ch).getD (return false)
      return some (← E.countWhile test last (last - ptr + 1) ptr)
    else return none

end SingleCharacters

end Env

end WeavePy.Regex
