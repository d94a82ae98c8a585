import WeavePy.Csv.Dialect
import WeavePy.Rust

namespace WeavePy.Csv

/-- A field to write: a string, `None`, or another object with its `str()`. -/
inductive Field where
  | str (s : List Char)
  | none
  | obj (number : Bool) (text : List Char)
  deriving DecidableEq, Repr

namespace Dialect

def special (d : Dialect) (c : Char) : Bool :=
  c == d.delimiter || d.escapechar == some c || d.quotechar == some c || c == '\n' || c == '\r' ||
    d.lineterminator.contains c

/-- The loop of `join_append` over the characters of a field: its text, and whether it is to be
quoted. -/
def joinBody (d : Dialect) (body : List Char) (quoted : Bool) :
    List Char → Except PyError (List Char × Bool)
  | [] => .ok (body, quoted)
  | c :: cs => do
    let (body, quoted, wantEscape) :=
      if d.special c = false then (body, quoted, false)
      else if d.quoting = QUOTE_NONE then (body, quoted, true)
      else if d.quotechar = some c then
        if d.doublequote then (body ++ [c], true, false) else (body, quoted, true)
      else if d.escapechar = some c then (body, quoted, true)
      else (body, true, false)
    let body ←
      (if wantEscape = true then
        match d.escapechar with
        | some e => .ok (body ++ [e])
        | none => .error (.csvError "need to escape, but no escapechar set")
      else .ok body : Except PyError (List Char))
    joinBody d (body ++ [c]) quoted cs

def quote (d : Dialect) : Char := d.quotechar.getD '"'

def joinAppend (d : Dialect) (record : List Char) (numFields : ℕ) (field : Option (List Char))
    (quoted : Bool) : Except PyError (List Char) := do
  let empty := (field.map List.length).getD 0 = 0
  let quoted ←
    (if empty ∧ d.delimiter = ' ' ∧ d.skipinitialspace = true then
      if d.quoting = QUOTE_NONE ∨
          field = none ∧ (d.quoting = QUOTE_STRINGS ∨ d.quoting = QUOTE_NOTNULL) then
        .error (.csvError
          "empty field must be quoted if delimiter is a space and skipinitialspace is true")
      else .ok true
    else .ok quoted : Except PyError Bool)
  let (body, quoted) ← d.joinBody [] quoted (field.getD [])
  let record := if numFields > 0 then record ++ [d.delimiter] else record
  let record := if quoted then record ++ [d.quote] else record
  let record := record ++ body
  return if quoted then record ++ [d.quote] else record

def quotes (d : Dialect) (field : Field) : Bool :=
  if d.quoting = QUOTE_NONNUMERIC then
    match field with
    | .obj number _ => !number
    | _ => true
  else if d.quoting = QUOTE_ALL then true
  else if d.quoting = QUOTE_STRINGS then
    match field with
    | .str _ => true
    | _ => false
  else if d.quoting = QUOTE_NOTNULL then
    match field with
    | .none => false
    | _ => true
  else false

/-- The fields of a row joined: the record, how many fields it has and whether the last is `None`. -/
def joinFields (d : Dialect) (record : List Char) (numFields : ℕ) (lastNull : Bool) :
    List Field → Except PyError (List Char × ℕ × Bool)
  | [] => .ok (record, numFields, lastNull)
  | field :: fields => do
    let text :=
      match field with
      | .str s => some s
      | .none => none
      | .obj _ s => some s
    let record ← d.joinAppend record numFields text (d.quotes field)
    joinFields d record (numFields + 1) (field = .none) fields

/-- The text `writerow` hands to the file. -/
def writerow (d : Dialect) (fields : List Field) : Except PyError (List Char) := do
  let (record, numFields, lastNull) ← d.joinFields [] 0 false fields
  let record ←
    (if numFields > 0 ∧ record = [] then
      if d.quoting = QUOTE_NONE ∨
          lastNull = true ∧ (d.quoting = QUOTE_STRINGS ∨ d.quoting = QUOTE_NOTNULL) then
        .error (.csvError "single empty field record must be quoted")
      else d.joinAppend record (numFields - 1) none true
    else .ok record : Except PyError (List Char))
  return record ++ d.lineterminator

end Dialect

end WeavePy.Csv

namespace WeavePy.Csv

inductive St where
  | startRecord
  | startField
  | escapedChar
  | inField
  | inQuotedField
  | escapeInQuoted
  | quoteInQuoted
  | eatCrnl
  | afterEscapedCrnl
  deriving DecidableEq, Repr

/-- A value of a row; `Num` is what `float` makes of an unquoted field. -/
inductive Cell (Num : Type) where
  | none
  | str (s : List Char)
  | num (n : Num)
  deriving DecidableEq, Repr

/-- What the reader takes from outside: `float`, and the field size limit. -/
structure Config (Num : Type) where
  dialect : Dialect
  limit : ℤ
  float : List Char → Except PyError Num

structure Parser (Num : Type) where
  state : St
  field : List Char
  fieldLen : ℤ
  fields : List (Cell Num)
  unquoted : Bool
  deriving DecidableEq, Repr

/-- What the input iterator yields: a string, or an object of another type. -/
inductive Item where
  | str (s : List Char)
  | other (type : String)
  deriving DecidableEq, Repr

variable {Num : Type}

def isQuote (cfg : Config Num) (c : Option Char) : Bool :=
  cfg.dialect.quotechar.any fun q => c = some q

def isEscape (cfg : Config Num) (c : Option Char) : Bool :=
  cfg.dialect.escapechar.any fun e => c = some e

def isNewline (c : Option Char) : Bool := c = some '\n' || c = some '\r'

namespace Parser

def new : Parser Num := ⟨.startRecord, [], 0, [], false⟩

def addChar (cfg : Config Num) (p : Parser Num) (c : Char) : Except PyError (Parser Num) :=
  if p.fieldLen ≥ cfg.limit then
    .error (.csvError ("field larger than field limit (" ++ toString cfg.limit ++ ")"))
  else .ok { p with field := p.field ++ [c], fieldLen := p.fieldLen + 1 }

def saveField (cfg : Config Num) (p : Parser Num) : Except PyError (Parser Num) := do
  let q := cfg.dialect.quoting
  let cell ←
    (if p.unquoted = true ∧ p.fieldLen = 0 ∧ (q = QUOTE_NOTNULL ∨ q = QUOTE_STRINGS) then
      .ok .none
    else if p.unquoted = true ∧ p.fieldLen ≠ 0 ∧ (q = QUOTE_NONNUMERIC ∨ q = QUOTE_STRINGS) then
      (cfg.float p.field).map .num
    else .ok (.str p.field) : Except PyError (Cell Num))
  return { p with fields := p.fields ++ [cell], field := [], fieldLen := 0 }

/-- `save_field` at the end of a field that also ends the line, `none` standing for the end of the
input item. -/
def endLine (cfg : Config Num) (p : Parser Num) (c : Option Char) :
    Except PyError (Parser Num) := do
  let p ← p.saveField cfg
  return { p with state := if c.isNone then .startRecord else .eatCrnl }

/-- `add_char(c.unwrap())`, where the caller has met every `none` before. -/
def addSome (cfg : Config Num) (p : Parser Num) (c : Option Char) (state : St) :
    Except PyError (Parser Num) := do
  let p ← p.addChar cfg (c.getD '\n')
  return { p with state }

def processStartField (cfg : Config Num) (p : Parser Num) (c : Option Char) :
    Except PyError (Parser Num) :=
  let p := { p with unquoted := true }
  if c = none ∨ isNewline c = true then p.endLine cfg c
  else if isQuote cfg c = true ∧ cfg.dialect.quoting ≠ QUOTE_NONE then
    .ok { p with unquoted := false, state := .inQuotedField }
  else if isEscape cfg c = true then .ok { p with state := .escapedChar }
  else if c = some ' ' ∧ cfg.dialect.skipinitialspace = true then .ok p
  else if c = some cfg.dialect.delimiter then p.saveField cfg
  else p.addSome cfg c .inField

def processInField (cfg : Config Num) (p : Parser Num) (c : Option Char) :
    Except PyError (Parser Num) :=
  if c = none ∨ isNewline c = true then p.endLine cfg c
  else if isEscape cfg c = true then .ok { p with state := .escapedChar }
  else if c = some cfg.dialect.delimiter then do
    let p ← p.saveField cfg
    return { p with state := .startField }
  else do
    p.addChar cfg (c.getD '\n')

/-- One step of the automaton; `none` is the end of an input item. -/
def process (cfg : Config Num) (p : Parser Num) (c : Option Char) :
    Except PyError (Parser Num) :=
  match p.state with
  | .startRecord =>
    if c = none then .ok p
    else if isNewline c = true then .ok { p with state := .eatCrnl }
    else processStartField cfg { p with state := .startField } c
  | .startField => processStartField cfg p c
  | .escapedChar =>
    if isNewline c = true then p.addSome cfg c .afterEscapedCrnl
    else p.addSome cfg c .inField
  | .afterEscapedCrnl => if c = none then .ok p else processInField cfg p c
  | .inField => processInField cfg p c
  | .inQuotedField =>
    if c = none then .ok p
    else if isEscape cfg c = true then .ok { p with state := .escapeInQuoted }
    else if isQuote cfg c = true ∧ cfg.dialect.quoting ≠ QUOTE_NONE then
      .ok { p with state := if cfg.dialect.doublequote then .quoteInQuoted else .inField }
    else p.addChar cfg (c.getD '\n')
  | .escapeInQuoted => p.addSome cfg c .inQuotedField
  | .quoteInQuoted =>
    if cfg.dialect.quoting ≠ QUOTE_NONE ∧ isQuote cfg c = true then p.addSome cfg c .inQuotedField
    else if c = some cfg.dialect.delimiter then do
      let p ← p.saveField cfg
      return { p with state := .startField }
    else if c = none ∨ isNewline c = true then p.endLine cfg c
    else if cfg.dialect.strict = false then p.addSome cfg c .inField
    else .error (.csvError ("'" ++ cfg.dialect.delimiter.toString ++ "' expected after '" ++
      (cfg.dialect.quotechar.getD '"').toString ++ "'"))
  | .eatCrnl =>
    if isNewline c = true then .ok p
    else if c = none then .ok { p with state := .startRecord }
    else .error (.csvError ("new-line character seen in unquoted field - do you need to " ++
      "open the file with newline=''?"))

def processAll (cfg : Config Num) (p : Parser Num) : List Char → Except PyError (Parser Num)
  | [] => .ok p
  | c :: cs => do
    let p ← p.process cfg (some c)
    p.processAll cfg cs

end Parser

/-- The loop of `__next__` over the items left: the row and what it leaves of the input. -/
def readItems (cfg : Config Num) (p : Parser Num) : List Item →
    Except PyError (List (Cell Num) × List Item)
  | [] =>
    if p.fieldLen ≠ 0 ∨ p.state = .inQuotedField then
      if cfg.dialect.strict then .error (.csvError "unexpected end of data")
      else do
        let p ← p.saveField cfg
        return (p.fields, [])
    else .error .stopIteration
  | .other type :: _ => .error (.csvError ("iterator should return strings, not " ++ type ++
      " (the file should be opened in text mode)"))
  | .str s :: items => do
    let p ← p.processAll cfg s
    let p ← p.process cfg none
    if p.state = .startRecord then return (p.fields, items)
    else readItems cfg p items

/-- `list(reader)`; each row takes at least one item, so that the fuel is never used up. -/
def readRows (cfg : Config Num) : ℕ → List Item → Outcome (Except PyError (List (List (Cell Num))))
  | 0, _ => .error .diverge
  | fuel + 1, items =>
    match readItems cfg .new items with
    | .error .stopIteration => pure (.ok [])
    | .error e => pure (.error e)
    | .ok (row, items) => do
      let rows ← readRows cfg fuel items
      pure (rows.map (row :: ·))

def readAll (cfg : Config Num) (items : List Item) :
    Outcome (Except PyError (List (List (Cell Num)))) :=
  readRows cfg (items.length + 1) items

end WeavePy.Csv
