import WeavePy.Regex.Flow

/-!
The tables that are computed of the code once, when it is registered. They are computed at every
word that could be an opcode, so the code need not be read from instruction to instruction.
-/

namespace WeavePy.Regex

variable (code : List ℕ)

section Sets

/-- `charset_checked` -/
def charsetChecked (chars : CharData) (ch : ℕ) : ℕ → ℕ → Bool → Option Bool
  | 0, _, _ => none
  | fuel + 1, set, ok => do
    let w ← code[set]?
    let set := set + 1
    match Op.ofCode w with
    | some .FAILURE => return !ok
    | some .LITERAL => do
      if ch == (← code[set]?) then return ok
      charsetChecked chars ch fuel (set + 1) ok
    | some .CATEGORY => do
      if chars.category (← code[set]?) ch then return ok
      charsetChecked chars ch fuel (set + 1) ok
    | some .CHARSET => do
      let word ← code[set + ch / 32]?
      let _ ← code[set + 7]?
      if ch < 256 ∧ Env.bitOf 32 word ch then return ok
      charsetChecked chars ch fuel (set + 8) ok
    | some .RANGE => do
      if (← code[set]?) ≤ ch then
        if ch ≤ (← code[set + 1]?) then return ok
      charsetChecked chars ch fuel (set + 2) ok
    | some .RANGE_UNI_IGNORE => do
      let lo ← code[set]?
      let hi ← code[set + 1]?
      if lo ≤ ch ∧ ch ≤ hi then return ok
      let uch := chars.upperUnicode ch
      if lo ≤ uch ∧ uch ≤ hi then return ok
      charsetChecked chars ch fuel (set + 2) ok
    | some .NEGATE => charsetChecked chars ch fuel set (!ok)
    | some .BIGCHARSET => do
      let count ← code[set]?
      let set := set + 1
      let byteIndex := ch >>> 8
      let word ← code[set + byteIndex / 4]?
      let block := (word >>> (byteIndex % 4 * 8)) % 256
      let set := set + 64
      let bit := block * 256 + ch % 256
      if Env.bitOf 32 (← code[set + bit / 32]?) bit then return ok
      charsetChecked chars ch fuel (set + count * 8) ok
    | _ => none

/-- The members of the set at `set` among the first 256 characters, if the set evaluates cleanly. -/
def setTable (chars : CharData) (set : ℕ) : Option (List ℕ) :=
  (List.range 256).foldlM (fun t ch => do
    if ← charsetChecked code chars ch 256 set true then
      return t.modify (ch >>> 6) (· ||| 1 <<< (ch % 64))
    else return t) [0, 0, 0, 0]

def SRE_INFO_CHARSET : ℕ := 4

/-- Where sets may start. -/
def setStarts : List ℕ :=
  (if opAt code 0 = some .INFO ∧ code[2]?.any (fun f => f &&& SRE_INFO_CHARSET ≠ 0) then [5] else []) ++
    ((List.range code.length).filter fun i =>
      opAt code i ∈ [some Op.IN, some .IN_IGNORE, some .IN_UNI_IGNORE] ∧
        code[i + 1]?.any (fun skip => 2 ≤ skip ∧ opAt code (i + skip) = some .FAILURE)).map (· + 2)

/-- `set_tables` -/
def setTables (chars : CharData) : List ℕ × List (List ℕ) :=
  (setStarts code).foldl (fun (tableOf, tables) set =>
    if code.length ≤ set ∨ tableOf[set]? ≠ some NO_TABLE then (tableOf, tables)
    else match setTable code chars set with
      | none => (tableOf, tables)
      | some t => (tableOf.set set tables.length, tables ++ [t]))
    (List.replicate code.length NO_TABLE, [])

end Sets

section Asserts

/-- `item_first` of code that has an operand at `op + 1`. -/
def itemFirstAt (op : ℕ) : TailFirst :=
  match opAt code op with
  | some .LITERAL => .literal (arg code (op + 1))
  | some .LITERAL_IGNORE => .literalIgnore (arg code (op + 1))
  | some .LITERAL_UNI_IGNORE => .literalUniIgnore (arg code (op + 1))
  | some .IN => .set (op + 2)
  | some .IN_IGNORE => .setIgnore (op + 2)
  | some .IN_UNI_IGNORE => .setUniIgnore (op + 2)
  | _ => .any

/-- One test at `op`, and the op after it. -/
def quickTest (op : ℕ) : Option (QuickTest × ℕ) := do
  match Op.ofCode (← code[op]?) with
  | some .AT => return (.at (← code[op + 1]?), op + 2)
  | some .LITERAL | some .LITERAL_IGNORE | some .LITERAL_UNI_IGNORE => do
    let _ ← code[op + 1]?
    return (.char (itemFirstAt code op), op + 2)
  | some .IN | some .IN_IGNORE | some .IN_UNI_IGNORE => do
    let skip ← code[op + 1]?
    if skip < 2 ∨ opAt code (op + 1 + skip - 1) ≠ some .FAILURE then none
    else return (.char (itemFirstAt code op), op + 1 + skip)
  | _ => none

/-- The tests of the alternatives from `alt` on, which all go on at one tail. -/
def quickAlternatives : ℕ → ℕ → Option ℕ → Option (List QuickTest × Option ℕ)
  | 0, _, _ => none
  | fuel + 1, alt, tail => do
    let skip ← code[alt]?
    if skip = 0 then return ([], tail)
    else
      let (t, next) ← quickTest code (alt + 1)
      if Op.ofCode (← code[next]?) ≠ some .JUMP then none
      else
        let after := next + 1 + (← code[next + 1]?)
        if tail.any (· ≠ after) then none
        else
          let (tests, tail) ← quickAlternatives fuel (alt + skip) (some after)
          return (t :: tests, tail)

/-- The tests of the assertion body at `body`, one of which must hold. -/
def bodyTests (body : ℕ) : Option (List QuickTest) := do
  if Op.ofCode (← code[body]?) ≠ some .BRANCH then
    let (t, next) ← quickTest code body
    if Op.ofCode (← code[next]?) = some .SUCCESS then return [t] else none
  else
    let (tests, tail) ← quickAlternatives code (code.length + 1) (body + 1) none
    if Op.ofCode (← code[← tail]?) = some .SUCCESS then return tests else none

/-- `quick_asserts` -/
def quickAsserts : List ℕ × List (ℕ × ℕ) × List QuickTest :=
  (List.range code.length).foldl (fun (quickOf, ranges, tests) i =>
    if opAt code i ∈ [some Op.ASSERT, some .ASSERT_NOT] then
      let body := i + 3
      if code.length ≤ body ∨ quickOf[body]? ≠ some NO_TABLE then (quickOf, ranges, tests)
      else match bodyTests code body with
        | none => (quickOf, ranges, tests)
        | some l => (quickOf.set body ranges.length,
            ranges ++ [(tests.length, tests.length + l.length)], tests ++ l)
    else (quickOf, ranges, tests)) (List.replicate code.length NO_TABLE, [], [])

end Asserts

section Alternatives

/-- The op past any `MARK`s. -/
def pastMarks : ℕ → ℕ → Option ℕ
  | 0, _ => none
  | fuel + 1, op => do
    if Op.ofCode (← code[op]?) = some .MARK then pastMarks fuel (op + 2) else return op

/-- `simple_first_checked` -/
def simpleFirstChecked (op : ℕ) : Option TailFirst := do
  let op ← pastMarks code (code.length + 1) op
  let item ← match opAt code op with
    | some .REPEAT_ONE | some .MIN_REPEAT_ONE | some .POSSESSIVE_REPEAT_ONE => do
      if 1 ≤ (← code[op + 2]?) then pure (op + 4) else pure op
    | _ => pure op
  let _ ← code[item + 1]?
  return itemFirstAt code item

/-- The condition that the first character meets `first`, if that is one. -/
def charReq (first : TailFirst) : List Req := if first = .any then [] else [.char first]

/-- The conditions of the alternative whose body starts at `op`, after at most `n` assertions. -/
def reqsAt (quickOf : List ℕ) : ℕ → ℕ → Option (List Req)
  | 0, _ => some []
  | n + 1, op => do
    let op ← pastMarks code (code.length + 1) op
    match opAt code op with
    | some .ASSERT | some .ASSERT_NOT => do
      let skip ← code[op + 1]?
      let back ← code[op + 2]?
      let body := op + 3
      if skip < 2 then none
      else
        let negate := decide (opAt code op = some .ASSERT_NOT)
        let reqs ← if quickOf[body]?.any (· ≠ NO_TABLE) then some [.assert body back negate]
          else if ¬ negate ∧ back = 0 then (simpleFirstChecked code body).map charReq
          else some []
        return reqs ++ (← reqsAt quickOf n (op + 1 + skip))
    | some .BRANCH => return [.branch op]
    | _ => (simpleFirstChecked code op).map charReq

/-- The alternatives of the `BRANCH` word at `i` are registered, from `alt` on. -/
def registerAlternatives (quickOf : List ℕ) : ℕ → ℕ → List ℕ × List (ℕ × ℕ) × List Req →
    List ℕ × List (ℕ × ℕ) × List Req
  | 0, _, r => r
  | fuel + 1, alt, (altOf, ranges, reqs) =>
    match code[alt]? with
    | none | some 0 => (altOf, ranges, reqs)
    | some skip =>
      let body := alt + 1
      registerAlternatives quickOf fuel (alt + skip) <|
        if body < code.length ∧ altOf[body]? = some NO_TABLE then
          match reqsAt code quickOf 8 body with
          | none => (altOf, ranges, reqs)
          | some l => (altOf.set body ranges.length, ranges ++ [(reqs.length, reqs.length + l.length)],
              reqs ++ l)
        else (altOf, ranges, reqs)

/-- `alternative_reqs` -/
def alternativeReqs (quickOf : List ℕ) : List ℕ × List (ℕ × ℕ) × List Req :=
  (List.range code.length).foldl (fun r i =>
    if opAt code i = some .BRANCH then registerAlternatives code quickOf (code.length + 1) (i + 1) r else r)
    (List.replicate code.length NO_TABLE, [], [])

end Alternatives

/-- `register_code`: the code with its tables. -/
def registerCode (chars : CharData) (groups : ℕ) : CompiledCode :=
  let (tableOf, tables) := setTables code chars
  let (quickOf, quickRanges, quickTests) := quickAsserts code
  let (altOf, altRanges, altReqs) := alternativeReqs code quickOf
  { code, groups, tableOf, tables, quickOf, quickRanges, quickTests, altOf, altRanges, altReqs }

end WeavePy.Regex
