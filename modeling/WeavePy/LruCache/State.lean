import WeavePy.Rust
import WeavePy.Lib.Hoare
import Mathlib.Algebra.Ring.Int.Defs
import Mathlib.Algebra.Ring.Nat

/-!
The private words of an `lru_cache` wrapper: counts, size limit and mode, then the recency links of the entries
by their positions. Python can reach the buffer, so that any words may stand in it.
-/

namespace WeavePy.LruCache

/-- The buffer: its 64-bit words and the number of bytes after the last whole one. -/
structure Words where
  words : List ℕ
  rest : Fin 8
  deriving DecidableEq

/-- A function that returns an `Option`, on the buffer. -/
abbrev Checked (α : Type) := Prog Fault Words Unit α

def NONE : ℕ := 2 ^ 64 - 1

def HITS : ℕ := 0

def MISSES : ℕ := 1

def LIMIT : ℕ := 2

def FLAGS : ℕ := 3

def HEAD : ℕ := 4

def TAIL : ℕ := 5

def HEADER : ℕ := 6

def UNBOUNDED : ℕ := 2 ^ 64 - 1

def TYPED : ℕ := 1

def FALLBACK : ℕ := 2

/-- The `?` on an option. -/
def some_ {S α : Type} : Option α → Prog Fault S Unit α
  | some a => pure a
  | none => .raise ()

def checked_mul (a b : ℕ) : Option ℕ := if a * b < 2 ^ 64 then some (a * b) else none

def checked_add (a b : ℕ) : Option ℕ := if a + b < 2 ^ 64 then some (a + b) else none

def read (index : ℕ) : Checked ℕ := do
  let bytes ← .gets id
  some_ bytes.words[index]?

def write (index value : ℕ) : Checked Unit := do
  let bytes ← .gets id
  if index < bytes.words.length then .modify fun b => { b with words := b.words.set index value }
  else .raise ()

def new (limit flags : ℕ) : Words := ⟨[0, 0, limit, flags, NONE, NONE], 0⟩

def mode : Checked (ℕ × ℕ) := do
  let limit ← read LIMIT
  let flags ← read FLAGS
  return (limit, flags)

def add_flag (flag : ℕ) : Checked Unit := do
  let flags ← read FLAGS
  write FLAGS (flags ||| flag)

def counts : Checked (ℕ × ℕ) := do
  let hits ← read HITS
  let misses ← read MISSES
  return (hits, misses)

def wrapping_add (a b : ℕ) : ℕ := (a + b) % 2 ^ 64

def wrapping_sub (a b : ℕ) : ℕ := (a + (2 ^ 64 - b)) % 2 ^ 64

def hit : Checked Unit := do
  let hits ← read HITS
  write HITS (wrapping_add hits 1)

def miss : Checked Unit := do
  let misses ← read MISSES
  write MISSES (wrapping_add misses 1)

def unmiss : Checked Unit := do
  let misses ← read MISSES
  write MISSES (wrapping_sub misses 1)

def reset_counts : Checked Unit := do
  write HITS 0
  write MISSES 0

/-- `Vec::truncate`. -/
def Words.truncate (b : Words) (words : ℕ) : Words :=
  if words ≤ b.words.length then ⟨b.words.take words, 0⟩ else b

def clear_links : Checked Unit := do
  .modify (·.truncate HEADER)
  write HEAD NONE
  write TAIL NONE

/-- The links of the entries, in a buffer of just their size. -/
structure Links where
  len : ℕ

namespace Links

def new (len : ℕ) : Checked Links := do
  let links ← some_ (checked_mul len 2)
  let words ← some_ (checked_add links HEADER)
  let size ← some_ (checked_mul words 8)
  let bytes ← .gets id
  if 8 * bytes.words.length + bytes.rest.val ≠ size then .raise () else pure ⟨len⟩

/-- An unchecked read. -/
def get (index : ℕ) : Checked ℕ := do
  let bytes ← .gets id
  match bytes.words[index]? with
  | some word => pure word
  | none => .fault .unchecked

/-- An unchecked write. -/
def set (index value : ℕ) : Checked Unit := do
  let bytes ← .gets id
  if index < bytes.words.length then .modify fun b => { b with words := b.words.set index value }
  else .fault .unchecked

variable (l : Links)

def entry (link : ℕ) : Option ℕ := if link < l.len then some link else none

def head : Checked ℕ := do
  let link ← get HEAD
  some_ (l.entry link)

def touch (index : ℕ) : Checked Unit := do
  if l.len ≤ index then .raise ()
  else
    let last ← get TAIL
    if last = index then pure ()
    else
      let tail ← some_ (l.entry last)
      let prev ← get (HEADER + 2 * index)
      let next ← get (HEADER + 2 * index + 1)
      let after ← some_ (l.entry next)
      let before ← (if prev = NONE then pure none else some_ ((l.entry prev).map some))
      set (HEADER + 2 * after) prev
      set (before.elim HEAD fun before => HEADER + 2 * before + 1) next
      set (HEADER + 2 * tail + 1) index
      set (HEADER + 2 * index) tail
      set (HEADER + 2 * index + 1) NONE
      set TAIL index

/-- The reservation that goes before the new words is left out. -/
def push : Checked Links := do
  let last ← get TAIL
  let tail ← (if last = NONE then pure none else some_ ((l.entry last).map some))
  let _ ← some_ (checked_mul (HEADER + 2 * (l.len + 1)) 8)
  .modify fun b => { b with words := b.words ++ [tail.getD NONE, NONE] }
  set (tail.elim HEAD fun tail => HEADER + 2 * tail + 1) l.len
  set TAIL l.len
  return ⟨l.len + 1⟩

/-- The loop of `indices`, from a link on. -/
def indicesFrom : ℕ → ℕ → Checked (List ℕ)
  | 0, link => if link = NONE then pure [] else .raise ()
  | n + 1, link => do
    let index ← some_ (l.entry link)
    let next ← get (HEADER + 2 * index + 1)
    let rest ← indicesFrom n next
    return index :: rest

def indices : Checked (List ℕ) := do
  let link ← get HEAD
  l.indicesFrom l.len link

end Links

end WeavePy.LruCache
