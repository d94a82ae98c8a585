import WeavePy.NativeCode.Format

/-!
Reading the native serialization: a code object's header at once, its body and its tables when something
reads them.
-/

namespace WeavePy.NativeCode

open ByteReader LittleEndian

/-- What the code objects of one module share. -/
structure Module where
  filename : String
  bytes : List UInt8
  namesAt : ℕ
  tablesAt : ℕ

namespace Module

/-- The four-byte number at a position. -/
def word (bytes : List UInt8) (at_ : ℕ) : Option ℕ :=
  if at_ + 4 ≤ bytes.length then some (ofLe ((bytes.drop at_).take 4)) else none

def new (bytes : List UInt8) (filename : String) : Option Module :=
  if bytes.head? ≠ some VERSION then none
  else do
    let tablesAt ← word bytes 1
    let namesAt ← word bytes 5
    if PREAMBLE ≤ namesAt ∧ namesAt ≤ tablesAt ∧ tablesAt ≤ bytes.length then
      some ⟨filename, bytes, namesAt, tablesAt⟩
    else none

variable (m : Module)

/-- The table of `len` bytes at `start` in the table section. -/
def table (start len : ℕ) : Option Encoded :=
  let begin := start + m.tablesAt
  let stop := begin + len
  if stop ≤ m.bytes.length ∧ begin < 2 ^ 32 ∧ stop < 2 ^ 32 then some ⟨begin, stop⟩ else none

/-- The identifier numbered `i`. -/
def identifier (i : ℕ) : Option String := do
  let count ← word m.bytes m.namesAt
  if i ≥ count then none
  else
    let ends := m.namesAt + 4
    let text := ends + count * 4
    let start ← (if i = 0 then some 0 else word m.bytes (ends + (i - 1) * 4))
    let stop ← word m.bytes (ends + i * 4)
    if text + stop > m.tablesAt ∨ stop < start ∨ text + stop > m.bytes.length then none
    else fromUtf8 ((m.bytes.drop (text + start)).take (stop - start))

end Module

abbrev LazyConstant := Constant LazyInfo ℕ

namespace Reader

def fail {α : Type} : ByteReader α := lift none

def uint : ByteReader ℕ := Varint.read

def int : ByteReader ℤ := Varint.readInt

def u32 : ByteReader UInt32 := do
  let v ← uint
  if v < 2 ^ 32 then pure v.toUInt32 else fail

/-- A length prefix, bounded by what is left of the input. -/
def len : ByteReader ℕ := uint >>= bounded

def rawBytes : ByteReader (List UInt8) := do
  let n ← len
  raw n

def string : ByteReader String := do
  let b ← rawBytes
  lift (fromUtf8 b)

/-- A count, then the items. -/
def list {α : Type} (item : ByteReader α) : ByteReader (List α) := do
  let n ← len
  many item n

def strs : ByteReader (List String) := list string

def u32s : ByteReader (List UInt32) := list u32

def tableLen : ByteReader ℕ := do
  let n ← uint
  if n ≤ MAX_TABLE_LEN then pure n else fail

def checkedAdd (a b : ℤ) : Option ℤ :=
  if -2 ^ 63 ≤ a + b ∧ a + b < 2 ^ 63 then some (a + b) else none

/-- The runs of the `left` lines that remain; no run is empty, so `left` bounds them. -/
def lineRuns : ℕ → ℕ → ℤ → ByteReader (List UInt32)
  | 0, _, _ => pure []
  | fuel + 1, left, line => do
    if left = 0 then pure []
    else
      let delta ← int
      let line ← lift (checkedAdd line delta)
      let run ← uint
      if run = 0 ∨ left < run ∨ line < 0 ∨ 2 ^ 32 ≤ line then fail
      else
        let lines ← lineRuns fuel (left - run) line
        return List.replicate run line.toNat.toUInt32 ++ lines

/-- The runs of the `left` spans that remain. -/
def colRuns : ℕ → ℕ → ℤ → ByteReader (List ColSpan)
  | 0, _, _ => pure []
  | fuel + 1, left, endLineno => do
    if left = 0 then pure []
    else
      let tag ← uint
      let run := (tag >>> 1) + 1
      if tag &&& 1 = 0 then
        if left < run then fail
        else
          let spans ← colRuns fuel (left - run) endLineno
          return List.replicate run .default ++ spans
      else
        let delta ← int
        let endLineno ← lift (checkedAdd endLineno delta)
        let col ← uint
        let col ← lift (if col < 2 ^ 63 then some ((col : ℤ) - 1) else none)
        let width ← int
        let endCol ← lift (checkedAdd col width)
        if endLineno < 0 ∨ 2 ^ 32 ≤ endLineno ∨ 2 ^ 31 ≤ col ∨ endCol < -2 ^ 31 ∨ 2 ^ 31 ≤ endCol ∨ left < run then
          fail
        else
          let spans ← colRuns fuel (left - run) endLineno
          return List.replicate run ⟨endLineno.toNat.toUInt32, Int32.ofInt col, Int32.ofInt endCol⟩ ++ spans

/-- A reader run on the whole of a block. -/
def whole {α : Type} (x : ByteReader α) (block : List UInt8) : Option α :=
  match x block 0 with
  | some (a, pos) => if pos = block.length then some a else none
  | none => none

def decodeLinetable (block : List UInt8) : Option (List UInt32) :=
  whole (do let n ← tableLen; lineRuns n n 0) block

def decodeColtable (block : List UInt8) : Option (List ColSpan) :=
  whole (do let n ← tableLen; colRuns n n 0) block

def decodeWireMarks (block : List UInt8) : Option (List UInt8) :=
  whole (do
    let n ← tableLen
    let packed ← raw ((n + 1) / 2)
    return (packed.flatMap fun (b : UInt8) => [b &&& 0x0f, b >>> 4]).take n) block

variable (big : BigIntBytes) (m : Module)

def name : ByteReader String := do
  let i ← uint
  lift (m.identifier i)

def names : ByteReader (List String) := list (name m)

def table : ByteReader Encoded := do
  let start ← uint
  let len ← uint
  lift (m.table start len)

def le64 : ByteReader UInt64 := do
  let b ← raw 8
  return (ofLe b).toUInt64

def instruction : ByteReader Instruction := do
  let b ← byte
  let op ← lift (OpCode.fromU8 b)
  let arg ← u32
  return ⟨op, arg⟩

def handler : ByteReader ExcHandler := do
  let start ← u32
  let stop ← u32
  let handler ← u32
  let depth ← u32
  let pushLasti ← byte
  return ⟨start, stop, handler, depth, pushLasti != 0⟩

/-- A code object's header, and where its body is. -/
def code (depth : ℕ) : ByteReader (Header × ℕ) := do
  lift (if depth > MAX_NESTING then none else some ())
  let nameAt ← uint
  let name ← lift (m.identifier nameAt)
  let qualnameAt ← uint
  let qualname ← lift (if qualnameAt = nameAt then some name else m.identifier qualnameAt)
  let argCount ← u32
  let posonlyCount ← u32
  let kwonlyCount ← u32
  let bits ← uint
  let flag (i : ℕ) : Bool := bits &&& 1 <<< i ≠ 0
  let futureFlags ← u32
  let stacksize ← u32
  let bodyLen ← len
  let at_ ← position
  lift (if at_ < 2 ^ 32 then some () else none)
  let _ ← raw bodyLen
  return (⟨name, qualname, m.filename, argCount, posonlyCount, kwonlyCount, flag 0, flag 1, flag 2, flag 3, flag 4,
    flag 5, flag 6, flag 7, flag 8, flag 9, flag 10, futureFlags,
    if stacksize = 0 then none else some (stacksize - 1)⟩, at_)

def scalar (tag : UInt8) : ByteReader Scalar :=
  if tag = 0 then pure .none
  else if tag = 1 then pure (.bool false)
  else if tag = 2 then pure (.bool true)
  else if tag = 3 then do let i ← int; return .int (Int64.ofInt i)
  else if tag = 4 then do let b ← rawBytes; return .bigInt (big.fromSignedBytesLe b)
  else if tag = 5 then do let x ← le64; return .float x
  else if tag = 6 then do
    let re ← le64
    let im ← le64
    return .complex re im
  else if tag = 7 then do let s ← string; return .str s
  else if tag = 8 then do let cps ← u32s; return .wstr cps
  else if tag = 9 then do let b ← rawBytes; return .bytes b
  else if tag = 13 then pure .ellipsis
  else fail

/-- Each level of nesting reads its tag first, so the input's length bounds the depth. -/
def constant : ℕ → ℕ → ByteReader LazyConstant
  | 0, _ => fail
  | fuel + 1, depth => do
    let tag ← byte
    if tag = 10 ∨ tag = 11 then
      let items ← list (constant fuel depth)
      return if tag = 10 then .tuple items else .frozenSet items
    else if tag = 12 then
      let (h, at_) ← code m (depth + 1)
      return .encoded h at_
    else if tag = 14 then
      let lower ← constant fuel depth
      let upper ← constant fuel depth
      let step ← constant fuel depth
      return .slice lower upper step
    else
      let s ← scalar big tag
      return .scalar s

def body : ByteReader (LazyInfo × List LazyConstant) := do
  let instructions ← list instruction
  let constants ← list (constant big m m.bytes.length 0)
  let names' ← names m
  let varnames ← names m
  let freevars ← names m
  let cellvars ← names m
  let exceptionTable ← list handler
  let linetable ← table m
  let coltable ← table m
  let noInterruptJumps ← u32s
  let marks ← table m
  let hiddenLocals ← strs
  let constIdentifiers ← strs
  return (⟨instructions, names', varnames, freevars, cellvars, exceptionTable, linetable, coltable,
    if marks.start = marks.stop then none else some marks, noInterruptJumps, hiddenLocals, constIdentifiers, false⟩,
    constants)

def decodeBody (at_ : ℕ) : Option (LazyInfo × List LazyConstant) := (body big m m.bytes at_).map Prod.fst

/-- The root's body at once, and each nested one when something first reads it. -/
def decodeLazily (bytes : List UInt8) (filename : String) : Option (CodeObject LazyInfo ℕ) := do
  let m ← Module.new bytes filename
  let ((h, at_), pos) ← code m 0 bytes PREAMBLE
  if pos ≠ m.namesAt then none
  else
    let (info, constants) ← decodeBody big m at_
    return ⟨h, info, constants⟩

/-- Decodes what is not decoded yet. -/
def checkConstant : ℕ → LazyConstant → Option (Constant LazyInfo Empty)
  | 0, _ => none
  | _ + 1, .scalar s => some (.scalar s)
  | fuel + 1, .tuple items => (items.mapM (checkConstant fuel)).map .tuple
  | fuel + 1, .frozenSet items => (items.mapM (checkConstant fuel)).map .frozenSet
  | fuel + 1, .code h info ks => (ks.mapM (checkConstant fuel)).map (.code h info)
  | fuel + 1, .encoded h at_ => do
    let (info, ks) ← decodeBody big m at_
    (ks.mapM (checkConstant fuel)).map (.code h info)
  | fuel + 1, .slice lower upper step => do
    let lower ← checkConstant fuel lower
    let upper ← checkConstant fuel upper
    let step ← checkConstant fuel step
    return .slice lower upper step

def decode (bytes : List UInt8) (filename : String) : Option (CodeObject LazyInfo Empty) := do
  let c ← decodeLazily big bytes filename
  let m ← Module.new bytes filename
  let ks ← c.constants.mapM (checkConstant big m (bytes.length + 1))
  return ⟨c.header, c.info, ks⟩

end Reader

end WeavePy.NativeCode
