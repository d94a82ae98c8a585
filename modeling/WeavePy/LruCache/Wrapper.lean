import WeavePy.LruCache.State
import Mathlib.Data.Nat.Bitwise

/-!
The native core of a bounded `lru_cache` wrapper: a cache dictionary beside the private words, in native mode with
its recency in the links or in the ordered-dictionary fallback.
-/

namespace WeavePy.LruCache

/-- What the core knows of the arguments' keys: two that Python compares equal have one class. -/
structure Keys (κ ρ : Type) where
  cls : κ → ρ
  /-- `native_lru_key`. -/
  native : κ → Bool

/-- What the probes of one lookup report. -/
structure Probing where
  /-- There is a `LeafProbe` of the key. -/
  leaf : Bool
  /-- It meets the key natively, if the key is stored. -/
  meets : Bool
  /-- It met no stored key that could equal it through Python. -/
  is_exact : Bool
  /-- The general lookup met a key that only Python compares. -/
  deferred : Bool

inductive LruError where
  /-- `TypeError`: "lru_cache has inconsistent private recency data". -/
  | inconsistent
  /-- `BufferError`: the words are exported and cannot be resized. -/
  | exported
  deriving DecidableEq

/-- The cache, its entries in dictionary order, and the state words. -/
structure Lru (κ ν : Type) where
  data : List (κ × ν)
  bytes : Words
  exported : Bool

variable {κ ρ ν α : Type} {E : Type}

abbrev Core (κ ν E α : Type) := Prog Fault (Lru κ ν) E α

/-- A function of the words, on the wrapper. -/
def onWords (m : Checked α) : Core κ ν Unit α := fun s =>
  match m s.bytes with
  | .error x => .error x
  | .ok (r, bytes) => .ok (r, { s with bytes := bytes })

/-- `ok_or_else`. -/
def ok_or (m : Core κ ν Unit α) (e : E) : Core κ ν E α := do
  let r ← m.attempt
  match r with
  | .ok a => pure a
  | .error _ => .raise e

/-- `ok_or_else(invalid_lru_order)` on a function of the words. -/
def checked (m : Checked α) : Core κ ν LruError α := ok_or (onWords m) .inconsistent

def bytearray_check_resizable : Core κ ν LruError Unit := do
  let s ← .gets id
  if s.exported then .raise .exported else pure ()

/-- What a lookup settles. -/
inductive NativeLookup (ν : Type) where
  | hit (value : ν)
  | miss

inductive ScalarLru (ν : Type) where
  | slow
  | complete (value : Option ν)

section

variable [DecidableEq ρ] (K : Keys κ ρ)

/-- `DictMap::get_index_of`. -/
def get_index_of (data : List (κ × ν)) (key : κ) : Option ℕ := data.findIdx? fun e => K.cls e.1 = K.cls key

/-- The lookup by a leaf probe, or by another that settles by native equality. -/
def probe_index_of (data : List (κ × ν)) (key : κ) (p : Probing) : Option ℕ :=
  if p.meets || p.is_exact then get_index_of K data key else none

def setData (data : List (κ × ν)) : Core κ ν E Unit := .modify fun s => { s with data := data }

/-- The loop of `lru_demote`, which takes each of the old entries once. -/
def restore (entries : List (Option (κ × ν))) : List ℕ → Core κ ν LruError Unit
  | [] => pure ()
  | index :: indices => do
    match entries[index]?.join with
    | none => .raise .inconsistent
    | some entry =>
      .modify fun s => { s with data := s.data ++ [entry] }
      restore (entries.set index none) indices

def lru_demote : Core κ ν LruError Unit := do
  bytearray_check_resizable
  let data ← .gets Lru.data
  let indices ← checked (do
    let links ← Links.new data.length
    links.indices)
  if data.any fun e => !K.native e.1 then .raise .inconsistent
  else
    setData []
    restore (data.map some) indices
    checked clear_links
    checked (add_flag FALLBACK)

/-- The lookup of a native key in native mode, or with `insert` the store of a miss's result with `limit` entries
at most. -/
def scalar_lru_operation (key : κ) (p : Probing) (insert : Option (ν × ℕ)) : Core κ ν LruError (ScalarLru ν) := do
  let (_, flags) ← checked mode
  if flags &&& FALLBACK ≠ 0 then return .slow
  else
    let data ← .gets Lru.data
    let len := data.length
    if !K.native key || insert.any fun i => len > i.2 then
      lru_demote K
      return .slow
    else
      let links ← checked (Links.new len)
      let probed := if p.leaf then probe_index_of K data key p else none
      if probed.isNone && !(p.leaf && p.is_exact) && p.deferred then .raise .inconsistent
      else
        match probed.or (get_index_of K data key) with
        | some index =>
          match data[index]? with
          | none => .raise .inconsistent
          | some (stored, value) =>
            if !K.native stored then .raise .inconsistent
            else if insert.isSome then return .complete none
            else
              checked (links.touch index)
              return .complete (some value)
        | none =>
          match insert with
          | none => return .complete none
          | some (value, limit) =>
            if len = limit then
              let head ← checked links.head
              checked (links.touch head)
              setData (data.set head (key, value))
              return .complete none
            else
              bytearray_check_resizable
              let _ ← checked links.push
              setData (data ++ [(key, value)])
              return .complete none

/-- The lookup of a leaf or argument probe, settled natively or not at all. -/
def lru_native_lookup (key : κ) (p : Probing) : Core κ ν Unit (NativeLookup ν) := do
  let (_, flags) ← onWords mode
  if flags &&& FALLBACK ≠ 0 then .raise ()
  else
    let data ← .gets Lru.data
    let found := probe_index_of K data key p
    if !p.is_exact then .raise ()
    else
      match found with
      | some index =>
        let entry ← some_ data[index]?
        onWords (do
          let links ← Links.new data.length
          links.touch index)
        onWords hit
        return .hit entry.2
      | none =>
        onWords miss
        return .miss

/-- `false`: nothing is touched, for the general path. -/
def native_store_in (key : κ) (p : Probing) (result : ν) (limit : ℕ) : Core κ ν LruError Bool := do
  let m ← (onWords mode).attempt
  match m with
  | .error _ => return false
  | .ok (_, flags) =>
    let data ← .gets Lru.data
    if !p.is_exact then return false
    else if (probe_index_of K data key p).isSome then return true
    else
      let len := data.length
      if flags &&& FALLBACK ≠ 0 || len > limit then return false
      else
        let l ← (onWords (Links.new len)).attempt
        match l with
        | .error _ => return false
        | .ok links =>
          if len = limit then
            let h ← (onWords links.head).attempt
            match h with
            | .error _ => return false
            | .ok head =>
              checked (links.touch head)
              setData (data.set head (key, result))
              return true
          else
            bytearray_check_resizable
            let _ ← checked links.push
            setData (data ++ [(key, result)])
            return true

/-- The store of the ordered-dictionary fallback, where the oldest entry is the first. -/
def fallback_store (key : κ) (result : ν) (limit : ℕ) : Core κ ν E Unit := do
  let data ← .gets Lru.data
  if (get_index_of K data key).isSome then pure ()
  else setData ((data ++ [(key, result)]).drop (data.length + 1 - limit))

/-- The lookup of the ordered-dictionary fallback: a hit moves its entry to the end, under the key looked up. -/
def fallback_lookup (key : κ) : Core κ ν E (Option ν) := do
  let data ← .gets Lru.data
  match get_index_of K data key with
  | none => return none
  | some index =>
    match data[index]? with
    | none => return none
    | some (_, value) =>
      setData (data.eraseIdx index ++ [(key, value)])
      return some value

def lru_store (key : κ) (p : Probing) (result : ν) (limit : ℕ) (scalar : Bool) : Core κ ν LruError Unit := do
  let done ← (if scalar then do
    let r ← scalar_lru_operation K key p (some (result, limit))
    match r with
    | .complete _ => return true
    | .slow => return false
  else return false)
  if done then pure () else fallback_store K key result limit

/-- How the lookup of a miss went, which the store of its result goes by. -/
inductive Settled where
  | native
  | scalar
  | slow
  /-- The wrapped function runs in the wrapper's place. -/
  | inline
  deriving DecidableEq

/-- `lru_call` up to the call of the wrapped function. -/
def lru_call_lookup (key : κ) (p : Probing) : Core κ ν LruError (Option ν × Settled) := do
  let native ← (if p.leaf && K.native key then (lru_native_lookup K key p).attempt else return .error ())
  match native with
  | .ok (.hit value) => return (some value, .native)
  | .ok .miss => return (none, .native)
  | .error _ =>
    let r ← scalar_lru_operation K key p none
    let (found, settled) ← (match r with
      | .complete found => return (found, .scalar)
      | .slow => do
        let found ← fallback_lookup K key
        return (found, .slow))
    checked (if found.isSome then hit else miss)
    return (found, settled)

/-- `lru_call` from the return of the wrapped function. -/
def lru_call_store (key : κ) (p : Probing) (result : ν) (limit : ℕ) (settled : Settled) :
    Core κ ν LruError Unit := do
  let stored ← (match settled with
    | .native => if p.leaf then native_store_in K key p result limit else return false
    | _ => return false)
  if stored then pure () else lru_store K key p result limit (settled ≠ .slow)

/-- `lru_probe_with`: an error is the full call's. -/
def lru_probe_with (key : κ) (p : Probing) : Core κ ν Unit (NativeLookup ν) := do
  let (limit, flags) ← onWords mode
  if limit = 0 || flags &&& (TYPED ||| FALLBACK) ≠ 0 then .raise ()
  else
    let s ← .gets id
    let found := probe_index_of K s.data key p
    if !p.is_exact then .raise ()
    else
      match found with
      | none =>
        if s.data.length < limit && s.exported then .raise ()
        else
          onWords miss
          return .miss
      | some index =>
        let entry ← some_ s.data[index]?
        onWords (do
          let links ← Links.new s.data.length
          links.touch index)
        onWords hit
        return .hit entry.2

/-- What becomes of a result returned to an inline miss. -/
inductive Returned where
  | stored
  | dropped
  | deferred
  deriving DecidableEq

def store_returned_with (key : κ) (p : Probing) (value : ν) (limit : ℕ) : Core κ ν E Returned := do
  let r ← (native_store_in K key p value limit).attempt
  match r with
  | .ok true => return .stored
  | .error _ => return .dropped
  | .ok false =>
    if p.is_exact then
      fallback_store K key value limit
      return .stored
    else return .deferred

/-- `lru_uncount_miss`. -/
def lru_uncount_miss : Core κ ν E Unit := do
  let _ ← (onWords unmiss).attempt
  pure ()

def lru_cache_clear : Core κ ν LruError Unit := do
  let (limit, flags) ← checked mode
  let data ← .gets Lru.data
  (if limit ≠ 0 && limit ≠ UNBOUNDED && flags &&& FALLBACK = 0 && !data.isEmpty then do
    bytearray_check_resizable
    checked clear_links
  else pure ())
  checked reset_counts
  setData []

end

end WeavePy.LruCache
