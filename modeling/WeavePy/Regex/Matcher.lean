import WeavePy.Lib.Paired
import WeavePy.Regex.Opcode
import Mathlib.Data.Int.Notation

/-!
The backtracking matcher. What a snapshot saves is a parameter: all the marks always, or the marks only
while a repeat is active.
-/

namespace WeavePy.Regex

open Prog

structure RepeatCtx where
  count : ℤ
  /-- The code position of the arguments of the `REPEAT`. -/
  pattern : ℕ
  lastPtr : ℤ
  prev : Option ℕ

structure Matcher where
  ptr : ℕ
  marks : List ℤ
  lastmark : ℤ
  lastindex : ℤ
  repeats : List RepeatCtx
  curRepeat : Option ℕ
  depth : ℕ
  /-- The position and the repeat at which a body run by `maxUntilIterative` ends. -/
  repeatStop : Option (ℕ × ℕ)
  /-- The position and the repeat that `maxUntilRecursive` drives. -/
  repeatRecur : Option (ℕ × ℕ)

structure MarkSnapshot where
  marks : Option (List ℤ)
  lastmark : ℤ
  lastindex : ℤ

inductive SreError where
  | runtime (msg : String)
  | value (msg : String)
  deriving DecidableEq

/-- A program of the matcher. -/
abbrev M := Prog Fault Matcher SreError

def MAX_DEPTH : ℕ := 200000

/-- `usize::MAX`, for a repeat without a position. -/
def noPattern : ℕ := 2 ^ 64 - 1

namespace Matcher

def new (groups : ℕ) : Matcher :=
  ⟨0, List.replicate (2 * groups) (-1), -1, -1, [], none, 0, none, none⟩

/-- Save the capture state before a choice point: with `full` the marks in any case. -/
def snapshot (full : Bool) (m : Matcher) : MarkSnapshot :=
  ⟨if full || m.curRepeat.isSome then some m.marks else none, m.lastmark, m.lastindex⟩

def restore (m : Matcher) (snap : MarkSnapshot) : Matcher :=
  { m with
    marks := snap.marks.getD m.marks
    lastmark := snap.lastmark
    lastindex := snap.lastindex }

/-- The marks between the last one and `i` are unset, and `i` is at `ptr`. -/
def setMark (i ptr : ℕ) (m : Matcher) : Matcher :=
  { m with
    lastindex := if i % 2 = 1 then (i / 2 + 1 : ℕ) else m.lastindex
    lastmark := max m.lastmark i
    marks := (m.marks.mapIdx fun j x => if m.lastmark < j ∧ j < i then -1 else x).set i ptr }

/-- A new repeat is the current one. -/
def push (pattern : ℕ) (m : Matcher) : Matcher :=
  { m with
    repeats := m.repeats ++ [⟨-1, pattern, -1, m.curRepeat⟩]
    curRepeat := some m.repeats.length }

/-- The repeats from `idx` on are left. -/
def pop (idx : ℕ) (prev : Option ℕ) (m : Matcher) : Matcher :=
  { m with curRepeat := prev, repeats := m.repeats.take idx }

def setRepeat (idx : ℕ) (f : RepeatCtx → RepeatCtx) (m : Matcher) : Matcher :=
  { m with repeats := m.repeats.modify idx f }

end Matcher

section Reading

/-- `self.repeats[idx]` -/
def repeatAt (idx : ℕ) : M RepeatCtx := do
  lift (index (← gets Matcher.repeats) idx)

def setPtr (ptr : ℕ) : M Unit := modify fun m => { m with ptr := ptr }

def setCurRepeat (cur : Option ℕ) : M Unit := modify fun m => { m with curRepeat := cur }

/-- The opcode `MARK`: an index out of range panics. -/
def markOp (i ptr : ℕ) : M Unit := do
  let marks ← gets Matcher.marks
  if i < marks.length then modify (Matcher.setMark i ptr) else fault .panic

/-- The span of a group that is set, if the group is. -/
def groupSpan (g : ℕ) (m : Matcher) : Outcome (Option (ℕ × ℕ)) :=
  if m.lastmark ≤ (2 * g : ℕ) then return none
  else do
    let p ← index m.marks (2 * g)
    let e ← index m.marks (2 * g + 1)
    return if p < 0 ∨ e < 0 ∨ e < p then none else some (p.toNat, e.toNat)

end Reading

inductive GroupRefKind where
  | exact
  | ascii
  | unicode
  | locale

variable (E : Env)

def GroupRefKind.fold : GroupRefKind → ℕ → ℕ
  | .exact, ch => ch
  | .ascii, ch => lowerAscii ch
  | .unicode, ch => E.chars.lowerUnicode ch
  | .locale, ch => lowerAscii ch

/-- Compare `n` units at `p` with those at `ptr`. -/
def sameUnits (kind : GroupRefKind) : ℕ → ℕ → ℕ → Outcome (Option ℕ)
  | 0, _, ptr => return some ptr
  | n + 1, p, ptr =>
    if E.stop ≤ ptr then return none
    else do
      let a ← index E.s ptr
      let b ← index E.s p
      if kind.fold E a = kind.fold E b then sameUnits kind n (p + 1) (ptr + 1) else return none

/-- `groupref_match`: the place after the text of the group. -/
def groupRefMatch (pat : ℕ) (kind : GroupRefKind) (ptr : ℕ) : M (Option ℕ) := do
  let g ← lift (E.word pat)
  match ← lift (← gets (groupSpan g)) with
  | none => return none
  | some (p, e) => lift (sameUnits E kind (e - p) p ptr)

/-- Scan code for a `MARK`, from instruction to instruction. -/
def codeRangeHasMark : ℕ → ℕ → ℕ → Outcome Bool
  | 0, _, _ => .error .diverge
  | fuel + 1, i, last =>
    if i < last then do
      let op ← E.opcode i
      let i := i + 1
      match op with
      | some .MARK => return true
      | some .FAILURE | some .SUCCESS | some .ANY | some .ANY_ALL | some .MAX_UNTIL
      | some .MIN_UNTIL | some .NEGATE => codeRangeHasMark fuel i last
      | some .LITERAL | some .NOT_LITERAL | some .LITERAL_IGNORE | some .NOT_LITERAL_IGNORE
      | some .LITERAL_LOC_IGNORE | some .NOT_LITERAL_LOC_IGNORE | some .LITERAL_UNI_IGNORE
      | some .NOT_LITERAL_UNI_IGNORE | some .AT | some .CATEGORY | some .GROUPREF
      | some .GROUPREF_IGNORE | some .GROUPREF_LOC_IGNORE | some .GROUPREF_UNI_IGNORE
      | some .JUMP | some .ATOMIC_GROUP => codeRangeHasMark fuel (i + 1) last
      | some .IN | some .IN_IGNORE | some .IN_LOC_IGNORE | some .IN_UNI_IGNORE | some .INFO =>
        match E.cc.code[i]? with
        | none => return true
        | some skip => codeRangeHasMark fuel (i + max skip 1) last
      | some .GROUPREF_EXISTS | some .ASSERT | some .ASSERT_NOT | some .RANGE
      | some .RANGE_UNI_IGNORE => codeRangeHasMark fuel (i + 2) last
      | some .REPEAT | some .REPEAT_ONE | some .MIN_REPEAT_ONE | some .POSSESSIVE_REPEAT
      | some .POSSESSIVE_REPEAT_ONE => codeRangeHasMark fuel (i + 3) last
      | some .BRANCH => alternativesHaveMark fuel i last
      | some .CHARSET => codeRangeHasMark fuel (i + 8) last
      | some .BIGCHARSET =>
        match E.cc.code[i]? with
        | none => return true
        | some count => codeRangeHasMark fuel (i + 1 + 64 + count * 8) last
      | _ => return true
    else return false
where
  /-- The alternatives of a `BRANCH`, then the code after them. -/
  alternativesHaveMark : ℕ → ℕ → ℕ → Outcome Bool
    | 0, _, _ => .error .diverge
    | fuel + 1, i, last =>
      if last ≤ i then codeRangeHasMark fuel i last
      else do
        let skip ← E.word i
        if skip = 0 then codeRangeHasMark fuel (i + 1) last
        else do
          if ← codeRangeHasMark fuel (i + 1) (min (i + skip) last) then return true
          alternativesHaveMark fuel (i + skip) last

/-- The body of the repeat `idx` has a `MARK`. -/
def repeatBodyHasMark (idx : ℕ) : M Bool := do
  let rpat := (← repeatAt idx).pattern
  let skip ← lift (E.word rpat)
  let start := rpat + 3
  let last := min (rpat + skip) E.cc.code.length
  if start ≤ last then lift (codeRangeHasMark E (E.cc.code.length + 1) start last) else return false

section Operations

/-- What follows one op: another op and the place in the subject, or the verdict. -/
abbrev Verdict := Step (ℕ × ℕ) Bool

variable (full : Bool) (fuel : ℕ) (doMatch : ℕ → Bool → M Bool)

/-- `SRE(count)`: how many units the items at `pat` take from `self.ptr` on. -/
def count (pat maxcount : ℕ) : M ℕ := do
  let ptr ← gets Matcher.ptr
  match ← lift (E.countFast pat ptr maxcount) with
  | some n => return n
  | none =>
    loop .diverge fuel (fun _ => do
      if (← gets Matcher.ptr) < E.countLast ptr maxcount then
        let matched ← doMatch pat false
        return if matched then .next () else .done ()
      else return .done ()) ()
    let n := (← gets Matcher.ptr) - ptr
    setPtr ptr
    return n

/-- Match at `pat` from `ptr`, if that can start there; where it fails the snapshot is restored. -/
def tryAt (can : Outcome Bool) (save : MarkSnapshot) (pat ptr : ℕ) (toplevel : Bool) : M Bool := do
  if ← lift can then
    setPtr ptr
    if ← doMatch pat toplevel then return true
    else
      modify (Matcher.restore · save)
      return false
  else return false

def branchOp (toplevel : Bool) (pat ptr : ℕ) : M Bool := do
  let save ← gets (Matcher.snapshot full)
  loop .diverge fuel (fun pat => do
    let skip ← lift (E.word pat)
    if skip = 0 then return .done false
    else
      let can := E.alternativeCanStart fuel (pat + 1) ptr
      let matched ← tryAt doMatch can save (pat + 1) ptr toplevel
      return if matched then .done true else .next (pat + skip)) pat

/-- The guards let a match end at `ptr`. -/
def admitted (toplevel : Bool) (ptr : ℕ) : Bool :=
  !(toplevel && (E.matchAll && ptr != E.stop || E.mustAdvance && ptr == E.start))

/-- A tail that is only the end succeeds at the end of the subject at once. -/
def endsAt (toplevel : Bool) (tail ptr : ℕ) : Outcome Bool := do
  let op ← E.opcode tail
  return decide (op = some .SUCCESS ∧ ptr = E.stop) &&
    !(toplevel && E.mustAdvance && ptr == E.start)

def repeatOneOp (toplevel : Bool) (pat ptr : ℕ) : M Bool := do
  let skip ← lift (E.word pat)
  let pmin ← lift (E.word (pat + 1))
  let pmax ← lift (E.word (pat + 2))
  if E.stop - ptr < pmin then return false
  else
    setPtr ptr
    let cnt ← count E fuel doMatch (pat + 3) pmax
    if cnt < pmin then return false
    else
      let tail := pat + skip
      if ← lift (endsAt E toplevel tail (ptr + cnt)) then
        setPtr (ptr + cnt)
        return true
      else
        let save ← gets (Matcher.snapshot full)
        let first ← lift (E.tailFirst tail)
        loop .diverge fuel (fun cnt : ℤ => do
          if cnt < pmin then return .done false
          else
            let pos := ptr + cnt.toNat
            let can := if first = .any then .ok true else E.canStart fuel first pos
            let matched ← tryAt doMatch can save tail pos toplevel
            return if matched then .done true else .next (cnt - 1)) cnt

def minRepeatOneOp (toplevel : Bool) (pat ptr : ℕ) : M Bool := do
  let skip ← lift (E.word pat)
  let pmin ← lift (E.word (pat + 1))
  let pmax ← lift (E.word (pat + 2))
  if E.stop - ptr < pmin then return false
  else
    setPtr ptr
    let cnt ← (if pmin = 0 then pure 0 else count E fuel doMatch (pat + 3) pmin)
    if cnt < pmin then return false
    else
      let tail := pat + skip
      let op ← lift (E.opcode tail)
      if op = some .SUCCESS ∧ admitted E toplevel (ptr + cnt) then
        setPtr (ptr + cnt)
        return true
      else
        let save ← gets (Matcher.snapshot full)
        let first ← lift (E.tailFirst tail)
        loop .diverge fuel (fun (cnt, ptr) => do
          if pmax ≠ MAXREPEAT ∧ pmax < cnt % 2 ^ 32 then return .done false
          else
            let matched ← tryAt doMatch (E.canStart fuel first ptr) save tail ptr toplevel
            if matched then return .done true
            else
              setPtr ptr
              let r ← count E fuel doMatch (pat + 3) 1
              return if r = 0 then .done false else .next (cnt + 1, ptr + 1)) (cnt, ptr + cnt)

def possessiveRepeatOneOp (toplevel : Bool) (pat ptr : ℕ) : M Verdict := do
  let skip ← lift (E.word pat)
  let pmin ← lift (E.word (pat + 1))
  let pmax ← lift (E.word (pat + 2))
  if E.stop < ptr + pmin then return .done false
  else
    setPtr ptr
    let cnt ← count E fuel doMatch (pat + 3) pmax
    if cnt < pmin then return .done false
    else if ← lift (endsAt E toplevel (pat + skip) (ptr + cnt)) then
      setPtr (ptr + cnt)
      return .done true
    else return .next (pat + skip, ptr + cnt)

/-- Enter a repeat, whose number is returned. -/
def pushRepeat (pattern : ℕ) : M ℕ := do
  let idx ← gets fun m => m.repeats.length
  modify (Matcher.push pattern)
  return idx

/-- Leave the repeat `idx`, and those after it. -/
def popRepeat (idx : ℕ) : M Unit := do
  let ctx ← repeatAt idx
  modify (Matcher.pop idx ctx.prev)

def repeatOp (toplevel : Bool) (pat ptr : ℕ) : M Bool := do
  let skip ← lift (E.word pat)
  let idx ← pushRepeat pat
  setPtr ptr
  let r ← doMatch (pat + skip) toplevel
  popRepeat idx
  return r

/-- One of the required items of a repeat. -/
def requiredItem (idx : ℕ) (count : ℤ) (item ptr : ℕ) (toplevel : Bool) : M Bool := do
  modify (Matcher.setRepeat idx fun ctx => { ctx with count := count })
  setPtr ptr
  if ← doMatch item toplevel then return true
  else
    modify (Matcher.setRepeat idx fun ctx => { ctx with count := count - 1 })
    setPtr ptr
    return false

/-- One more item of a repeat. -/
def extraItem (idx : ℕ) (count : ℤ) (item ptr : ℕ) (toplevel : Bool) : M Bool := do
  let savedLast := (← repeatAt idx).lastPtr
  modify (Matcher.setRepeat idx fun ctx => { ctx with count := count, lastPtr := ptr })
  setPtr ptr
  if ← doMatch item toplevel then return true
  else
    modify (Matcher.setRepeat idx fun ctx => { ctx with count := count - 1, lastPtr := savedLast })
    setPtr ptr
    return false

/-- One more item of a greedy repeat: where it fails the captures are restored. -/
def anotherItem (idx : ℕ) (count : ℤ) (item ptr : ℕ) (toplevel : Bool) : M Bool := do
  let save ← gets (Matcher.snapshot full)
  if ← extraItem doMatch idx count item ptr toplevel then return true
  else
    modify (Matcher.restore · save)
    return false

/-- The code after a repeat, matched as part of the repeat around it. -/
def tryTail (idx ptr pat : ℕ) (toplevel : Bool) : M Bool := do
  let prev := (← repeatAt idx).prev
  setCurRepeat prev
  setPtr ptr
  let r ← doMatch pat toplevel
  setCurRepeat (some idx)
  return r

def maxUntilRecursive (idx ptr pat : ℕ) (toplevel : Bool) : M Bool := do
  setPtr ptr
  let ctx ← repeatAt idx
  let count := ctx.count + 1
  let rmin ← lift (E.word (ctx.pattern + 1))
  let rmax ← lift (E.word (ctx.pattern + 2))
  let item := ctx.pattern + 3
  if count < rmin then requiredItem doMatch idx count item ptr toplevel
  else
    let matched ← (if (count < rmax ∨ rmax = MAXREPEAT) ∧ (ptr : ℤ) ≠ ctx.lastPtr then
        anotherItem full doMatch idx count item ptr toplevel
      else pure false)
    if matched then return true
    else if ← tryTail doMatch idx ptr pat toplevel then return true
    else
      setPtr ptr
      return false

/-- The body as often as it matches, each time from where the one before ended: the last end, how
often, and whether it stopped at an empty body. -/
def greedyItems (opPos idx rmax item ptr0 : ℕ) : M (ℕ × ℕ × Bool) := do
  let savedStop ← gets Matcher.repeatStop
  let savedRecur ← gets Matcher.repeatRecur
  modify fun m => { m with repeatStop := some (opPos, idx) }
  let r ← loop .diverge fuel (fun (cur, n) => do
    if rmax ≠ MAXREPEAT ∧ rmax ≤ n % 2 ^ 32 then return .done (cur, n, false)
    else
      setPtr cur
      setCurRepeat (some idx)
      let matched ← onError (doMatch item false) fun m =>
        { m with repeatStop := savedStop, repeatRecur := savedRecur }
      if matched then
        let next ← gets Matcher.ptr
        return if next = cur then .done (cur, n, true) else .next (next, n + 1)
      else
        setPtr cur
        return .done (cur, n, false)) (ptr0, 0)
  modify fun m => { m with repeatStop := savedStop }
  return r

/-- `maxUntilRecursive` drives the repeat `idx`. -/
def drivenRecursive (savedRecur : Option (ℕ × ℕ)) (opPos idx ptr pat : ℕ) (toplevel : Bool) :
    M Bool := do
  modify fun m => { m with repeatRecur := some (opPos, idx) }
  let r ← maxUntilRecursive E full doMatch idx ptr pat toplevel
  modify fun m => { m with repeatRecur := savedRecur }
  return r

def maxUntilIterative (opPos idx ptr0 pat : ℕ) (toplevel : Bool) : M Bool := do
  let ctx ← repeatAt idx
  let rmax ← lift (E.word (ctx.pattern + 2))
  let rmin ← lift (E.word (ctx.pattern + 1))
  let init ← gets (Matcher.snapshot full)
  let savedRecur ← gets Matcher.repeatRecur
  let (cur, n, empty) ← greedyItems fuel doMatch opPos idx rmax (ctx.pattern + 3) ptr0
  let matched ←
    (if empty = false ∧ rmin ≤ n then tryTail doMatch idx cur pat toplevel else pure false)
  if matched then return true
  else
    modify fun m => (m.restore init).setRepeat idx fun c =>
      { c with count := ctx.count, lastPtr := ctx.lastPtr }
    setCurRepeat (some idx)
    setPtr ptr0
    drivenRecursive E full doMatch savedRecur opPos idx ptr0 pat toplevel

def maxUntilOp (toplevel : Bool) (pat ptr : ℕ) : M Bool := do
  let opPos := pat - 1
  match ← gets Matcher.curRepeat with
  | none => raise (.runtime "internal: MAX_UNTIL without REPEAT")
  | some idx =>
    if (← gets Matcher.repeatStop) = some (opPos, idx) then
      setPtr ptr
      return true
    else if (← gets Matcher.repeatRecur) = some (opPos, idx) then
      maxUntilRecursive E full doMatch idx ptr pat toplevel
    else if ← repeatBodyHasMark E idx then
      drivenRecursive E full doMatch (← gets Matcher.repeatRecur) opPos idx ptr pat toplevel
    else maxUntilIterative E full fuel doMatch opPos idx ptr pat toplevel

def minUntilOp (toplevel : Bool) (pat ptr : ℕ) : M Bool := do
  match ← gets Matcher.curRepeat with
  | none => raise (.runtime "internal: MIN_UNTIL without REPEAT")
  | some idx =>
    setPtr ptr
    let ctx ← repeatAt idx
    let count := ctx.count + 1
    let rmin ← lift (E.word (ctx.pattern + 1))
    let rmax ← lift (E.word (ctx.pattern + 2))
    let item := ctx.pattern + 3
    if count < rmin then requiredItem doMatch idx count item ptr toplevel
    else
      let save ← gets (Matcher.snapshot full)
      if ← tryTail doMatch idx ptr pat toplevel then return true
      else
        modify (Matcher.restore · save)
        setPtr ptr
        let lastPtr := (← repeatAt idx).lastPtr
        if (count ≥ rmax ∧ rmax ≠ MAXREPEAT) ∨ (ptr : ℤ) = lastPtr then return false
        else extraItem doMatch idx count item ptr toplevel

def possessiveRepeatOp (pat ptr : ℕ) : M Verdict := do
  let skip ← lift (E.word pat)
  let pmin ← lift (E.word (pat + 1))
  let pmax ← lift (E.word (pat + 2))
  setPtr ptr
  let idx ← pushRepeat noPattern
  let body := pat + 3
  let enough ← loop .diverge fuel (fun cnt => do
    if cnt < pmin then
      let matched ← doMatch body false
      return if matched then .next (cnt + 1) else .done false
    else return .done true) 0
  if enough then
    loop .diverge fuel (fun (cnt, prevPtr) => do
      let ptr ← gets Matcher.ptr
      if (pmax = MAXREPEAT ∨ cnt % 2 ^ 32 < pmax) ∧ some ptr ≠ prevPtr then
        let save ← gets (Matcher.snapshot full)
        if ← doMatch body false then return .next (cnt + 1, some ptr)
        else
          modify (Matcher.restore · save)
          setPtr ptr
          return .done ()
      else return .done ()) (pmin, none)
    popRepeat idx
    return .next (pat + skip + 1, ← gets Matcher.ptr)
  else
    setPtr ptr
    popRepeat idx
    return .done false

def atomicGroupOp (pat ptr : ℕ) : M Verdict := do
  let skip ← lift (E.word pat)
  setPtr ptr
  if ← doMatch (pat + 1) false then return .next (pat + skip, ← gets Matcher.ptr)
  else
    setPtr ptr
    return .done false

/-- Does the body of an assertion match at `ptr`? -/
def asserts (body ptr : ℕ) : M Bool := do
  match ← lift (E.quickAssert body ptr) with
  | some matched => return matched
  | none =>
    setPtr ptr
    doMatch body false

def assertOp (pat ptr : ℕ) : M Verdict := do
  let skip ← lift (E.word pat)
  let back ← lift (E.word (pat + 1))
  if ptr - E.beginning < back then return .done false
  else
    let matched ← asserts E doMatch (pat + 2) (ptr - back)
    return if matched then .next (pat + skip, ptr) else .done false

/-- Does the body of a negative assertion match at `ptr`? The captures are restored in any case. -/
def contradicts (body ptr : ℕ) : M Bool := do
  match ← lift (E.quickAssert body ptr) with
  | some matched => return matched
  | none =>
    setPtr ptr
    let save ← gets (Matcher.snapshot full)
    let matched ← doMatch body false
    modify (Matcher.restore · save)
    return matched

def assertNotOp (pat ptr : ℕ) : M Verdict := do
  let skip ← lift (E.word pat)
  let back ← lift (E.word (pat + 1))
  let matched ← (if back ≤ ptr - E.beginning then
      contradicts E full doMatch (pat + 2) (ptr - back)
    else pure false)
  return if matched then .done false else .next (pat + skip, ptr)

def groupRefOp (kind : GroupRefKind) (pat ptr : ℕ) : M Verdict := do
  match ← groupRefMatch E pat kind ptr with
  | none => return .done false
  | some ptr => return .next (pat + 1, ptr)

def groupRefExistsOp (pat ptr : ℕ) : M Verdict := do
  let g ← lift (E.word pat)
  let skip ← lift (E.word (pat + 1))
  let span ← lift (← gets (groupSpan g))
  return .next (if span.isSome then pat + 2 else pat + skip, ptr)

/-- The ops that take one character. -/
def charOp (op : Op) (pat ptr : ℕ) : Outcome Verdict :=
  if E.stop ≤ ptr then return .done false
  else do
    let ch ← index E.s ptr
    if ← (E.charTest op pat ch).getD (return false) then
      match op with
      | .ANY | .ANY_ALL => return .next (pat, ptr + 1)
      | .IN | .IN_IGNORE | .IN_UNI_IGNORE | .IN_LOC_IGNORE =>
        return .next (pat + (← E.word pat), ptr + 1)
      | _ => return .next (pat + 1, ptr + 1)
    else return .done false

/-- One op of the code. -/
def step (toplevel : Bool) : ℕ × ℕ → M Verdict := fun (pat, ptr) => do
  let w ← lift (E.word pat)
  let pat := pat + 1
  match Op.ofCode w with
  | some .MARK =>
    let i ← lift (E.word pat)
    markOp i ptr
    return .next (pat + 1, ptr)
  | some .SUCCESS =>
    if admitted E toplevel ptr then
      setPtr ptr
      return .done true
    else return .done false
  | some .FAILURE => return .done false
  | some .AT =>
    let code ← lift (E.word pat)
    let holds ← lift (E.atPosition ptr code)
    return if holds then .next (pat + 1, ptr) else .done false
  | some .JUMP | some .INFO =>
    let skip ← lift (E.word pat)
    return .next (pat + skip, ptr)
  | some .BRANCH => Step.done <$> branchOp E full fuel doMatch toplevel pat ptr
  | some .REPEAT_ONE => Step.done <$> repeatOneOp E full fuel doMatch toplevel pat ptr
  | some .MIN_REPEAT_ONE => Step.done <$> minRepeatOneOp E full fuel doMatch toplevel pat ptr
  | some .POSSESSIVE_REPEAT_ONE => possessiveRepeatOneOp E fuel doMatch toplevel pat ptr
  | some .REPEAT => Step.done <$> repeatOp E doMatch toplevel pat ptr
  | some .MAX_UNTIL => Step.done <$> maxUntilOp E full fuel doMatch toplevel pat ptr
  | some .MIN_UNTIL => Step.done <$> minUntilOp E full doMatch toplevel pat ptr
  | some .POSSESSIVE_REPEAT => possessiveRepeatOp E full fuel doMatch pat ptr
  | some .ATOMIC_GROUP => atomicGroupOp E doMatch pat ptr
  | some .GROUPREF => groupRefOp E .exact pat ptr
  | some .GROUPREF_IGNORE => groupRefOp E .ascii pat ptr
  | some .GROUPREF_UNI_IGNORE => groupRefOp E .unicode pat ptr
  | some .GROUPREF_LOC_IGNORE => groupRefOp E .locale pat ptr
  | some .GROUPREF_EXISTS => groupRefExistsOp E pat ptr
  | some .ASSERT => assertOp E doMatch pat ptr
  | some .ASSERT_NOT => assertNotOp E full doMatch pat ptr
  | some op =>
    if (E.charTest op 0 0).isSome then lift (charOp E op pat ptr)
    else raise (.value ("internal: unsupported sre opcode " ++ toString w))
  | none => raise (.value ("internal: unsupported sre opcode " ++ toString w))

/-- `do_match_inner` -/
def doMatchInner (pat : ℕ) (toplevel : Bool) : M Bool := do
  let ptr ← gets Matcher.ptr
  let op ← lift (E.opcode pat)
  if op = some .INFO then
    let least ← lift (E.word (pat + 3))
    if least ≠ 0 ∧ E.stop - ptr < least then return false
    else
      let skip ← lift (E.word (pat + 1))
      loop .diverge fuel (step E full fuel doMatch toplevel) (pat + (skip + 1), ptr)
  else loop .diverge fuel (step E full fuel doMatch toplevel) (pat, ptr)

end Operations

/-- `SRE(match)`: the code at `pat` from `self.ptr` on; where it matches, `self.ptr` is the end. -/
def doMatch (full : Bool) : ℕ → ℕ → Bool → M Bool
  | 0, _, _ => fault .diverge
  | fuel + 1, pat, toplevel => do
    modify fun m => { m with depth := m.depth + 1 }
    if MAX_DEPTH < (← gets Matcher.depth) then
      modify fun m => { m with depth := m.depth - 1 }
      raise (.runtime "internal: regular expression recursion limit exceeded")
    else
      finally_ (doMatchInner E full fuel (doMatch full fuel) pat toplevel) fun m =>
        .ok { m with depth := m.depth - 1 }

/-- A match: its span, the last group, and the spans of the groups. -/
structure Found where
  start : ℕ
  stop : ℕ
  lastindex : ℤ
  spans : List (ℤ × ℤ)
  deriving DecidableEq

/-- The span of group `g + 1`, `(-1, -1)` for a group that did not take part. -/
def Matcher.span (m : Matcher) (g : ℕ) : ℤ × ℤ :=
  match m.marks[2 * g]?, m.marks[2 * g + 1]? with
  | some p, some e =>
    if ((2 * g + 1 : ℕ) : ℤ) ≤ m.lastmark ∧ 0 ≤ p ∧ 0 ≤ e then (p, e) else (-1, -1)
  | _, _ => (-1, -1)

/-- A match at `E.start`, of everything up to the end if `E.matchAll` holds. -/
def exec (full : Bool) (fuel : ℕ) : Outcome (Except SreError (Option Found)) :=
  if E.stop < E.start then return .ok none
  else do
    let (r, m) ← doMatch E full fuel 0 true { Matcher.new E.cc.groups with ptr := E.start }
    return r.map fun matched =>
      if matched then
        some ⟨E.start, m.ptr, m.lastindex, (List.range E.cc.groups).map m.span⟩
      else none

end WeavePy.Regex
