import WeavePy.Random.Draws

/-!
Generators in use: every run of seedings, draws and saved states draws the words of the reference stream.
-/

namespace WeavePy.Random

open LittleEndian

inductive RuntimeError where
  | typeError (message : String)
  | valueError (message : String)
  | overflowError (message : String)
  | memoryError (message : String)

/-- The system's entropy, and how many words can be reserved at once. -/
structure Env where
  entropy : List UInt32
  reserves : ℕ → Bool
  entropy_ne : entropy ≠ []

section Arguments

inductive SeedArg where
  | none
  | int (n : ℤ)
  | float (bits : UInt64)
  | str (bytes : List UInt8)
  | other (typeName : String)

/-- `BigInt::to_bytes_le`. -/
def bytesLe (n : ℕ) : List UInt8 := if n = 0 then [0] else toLe ((n.size + 7) / 8) n

def chunkWords (bytes : List UInt8) : List UInt32 :=
  if bytes = [] then [] else UInt32.ofNat (ofLe (bytes.take 4)) :: chunkWords (bytes.drop 4)
termination_by bytes.length
decreasing_by
  rw [List.length_drop]
  have := List.length_pos_of_ne_nil ‹_›
  omega

def digitWords (n : ℕ) : List UInt32 := if (chunkWords (bytesLe n)).isEmpty then [0] else chunkWords (bytesLe n)

def seedKey (env : Env) : SeedArg → Except RuntimeError (List UInt32)
  | .none => .ok env.entropy
  | .int n => .ok (digitWords n.natAbs)
  | .float bits => .ok (digitWords bits.toNat)
  | .str bytes => .ok (digitWords (ofLe bytes))
  | .other typeName => .error (.typeError ("cannot seed from '" ++ typeName ++ "'"))

/-- A count of bits: a machine `int`, a long one, or what an object's `__index__` made of it. -/
inductive BitsArg where
  | bool (b : Bool)
  | int (i : Int64)
  | long (z : ℤ)
  | index (r : Except RuntimeError Int64)
  | other

def cannotConvert : RuntimeError := .valueError "Cannot convert negative int"

def asCount (i : Int64) : Except RuntimeError ℕ := if i < 0 then .error cannotConvert else .ok i.toInt.toNat

def BitsArg.count : BitsArg → Except RuntimeError ℕ
  | .bool b => .ok b.toNat
  | .int i => asCount i
  | .long z =>
    if z < 0 then .error cannotConvert
    else if z < 2 ^ 64 then .ok z.toNat
    else .error (.overflowError "Python int too large for C uint64_t")
  | .index r => r.bind asCount
  | .other => .error (.typeError "getrandbits() requires an integer argument")

inductive BytesArg where
  | int (i : Int64)
  | long
  | other

def BytesArg.count : BytesArg → Except RuntimeError ℕ
  | .int i => if i < 0 then .error (.valueError "negative argument not allowed") else .ok i.toInt.toNat
  | .long => .error (.overflowError "Python int too large to convert to C ssize_t")
  | .other => .error (.typeError "randbytes() requires a non-negative int")

inductive Item where
  | int (i : Int64)
  | long (z : ℤ)
  | other

def itemsError : RuntimeError := .typeError "state vector items must be ints"

def Item.word : Item → Except RuntimeError UInt32
  | .int i => .ok (UInt32.ofInt i.toInt)
  | .long z => .ok (if 0 ≤ z ∧ z < 2 ^ 64 then UInt32.ofInt z else 0)
  | .other => .error itemsError

def Item.cursor : Item → Except RuntimeError ℕ
  | .int i => if 0 ≤ i.toInt ∧ i.toInt ≤ 624 then .ok i.toInt.toNat else .error (.valueError "invalid state")
  | _ => .error itemsError

inductive StateArg where
  | tuple (items : List Item)
  | other

/-- The words and the cursor of a saved state. -/
def StateArg.state : StateArg → Except RuntimeError (List UInt32 × ℕ)
  | .tuple items =>
    if items.length ≠ N + 1 then
      .error (.valueError ("state vector is the wrong size; expected " ++ toString (N + 1) ++ ", got " ++
        toString items.length))
    else do
      let key ← (items.take N).mapM Item.word
      let pos ← (items.getD N .other).cursor
      return (key, pos)
  | .other => .error (.typeError "state vector must be a tuple")

end Arguments

section Methods

/-- An instance's state bytes, none until it is seeded. -/
abbrev Inst := Option (List UInt8)

inductive Reply where
  | none
  | float (m : ℕ)
  | int (v : ℕ)
  | bytes (b : List UInt8)
  | state (items : List Int64)

abbrev Result := Except RuntimeError Reply

inductive Op where
  | seed (arg : SeedArg)
  | random
  | getrandbits (arg : BitsArg)
  | randbytes (arg : BytesArg)
  | getstate
  | setstate (arg : StateArg)

def seeded (key : List UInt32) : Outcome (List UInt8) := do
  let mt ← initByArray key
  storeMt mt

def stateBuffer (env : Env) : Inst → Outcome (List UInt8)
  | some b => if b.length = STATE_LEN then .ok b else seeded env.entropy
  | none => seeded env.entropy

def wordsNeeded (k : ℕ) : ℕ := (k - 1) / 32 + 1

/-- More words than a vector can have, or than there is memory for. -/
def tooMany (env : Env) (k : ℕ) : Bool := decide ((2 ^ 63 - 1) / 4 < wordsNeeded k) || !env.reserves (wordsNeeded k)

def getrandbits (env : Env) (inst : Inst) (k : ℕ) : Outcome (Inst × Result) := do
  if k = 0 then return (inst, .ok (.int 0))
  else if k ≤ 32 then
    let b ← stateBuffer env inst
    let (w, b) ← genrandU32 b
    return (some b, .ok (.int (w >>> UInt32.ofNat (32 - k)).toNat))
  else if tooMany env k then return (inst, .error (.memoryError ""))
  else
    let b ← stateBuffer env inst
    let (digits, b) ← drawBits (wordsNeeded k) b k
    return (some b, .ok (.int (ofLe (flat digits))))

def step (env : Env) (inst : Inst) : Op → Outcome (Inst × Result)
  | .seed arg =>
    match seedKey env arg with
    | .error e => .ok (inst, .error e)
    | .ok key => do
      let b ← seeded key
      return (some b, .ok .none)
  | .random => do
    let b ← stateBuffer env inst
    let (m, b) ← randomFrom b
    return (some b, .ok (.float m))
  | .getrandbits arg =>
    match arg.count with
    | .error e => .ok (inst, .error e)
    | .ok k => getrandbits env inst k
  | .randbytes arg =>
    match arg.count with
    | .error e => .ok (inst, .error e)
    | .ok n => do
      let b ← stateBuffer env inst
      let (out, b) ← drawBytes n b
      return (some b, .ok (.bytes out))
  | .getstate => do
    let b ← stateBuffer env inst
    let mt ← toMt b
    return (some b, .ok (.state (mt.key.map (fun w => Int64.ofNat w.toNat) ++ [Int64.ofNat mt.pos])))
  | .setstate arg =>
    match arg.state with
    | .error e => .ok (inst, .error e)
    | .ok (key, pos) => do
      let b ← storeMt ⟨key, pos⟩
      return (some b, .ok .none)

end Methods

section Reference

/-- The words that are still to be drawn, none known before the seeding. -/
abbrev Stream := ℕ → UInt32

def current (env : Env) (o : Option Stream) : Stream := o.getD (keyStream env.entropy)

def stateStream (key : List UInt32) (pos : ℕ) : Stream := fun n => temper (sequence (key.getD · 0) (pos + n))

/-- The stream after a call. -/
def next (env : Env) (o : Option Stream) : Op → Option Stream
  | .seed arg => (seedKey env arg).toOption.elim o fun key => some (keyStream key)
  | .random => some fun n => current env o (n + 2)
  | .getrandbits arg => arg.count.toOption.elim o fun k =>
    if k = 0 ∨ 32 < k ∧ tooMany env k = true then o else some fun n => current env o (n + wordsFor k)
  | .randbytes arg => arg.count.toOption.elim o fun n => some fun i => current env o (i + wordsFor (8 * n))
  | .getstate => some (current env o)
  | .setstate arg => arg.state.toOption.elim o fun st => some (stateStream st.1 st.2)

/-- What a call returns by the reference. -/
def Expected (env : Env) (o : Option Stream) (r : Result) : Op → Prop
  | .seed arg => r = (seedKey env arg).map fun _ => .none
  | .random => r = .ok (.float ((current env o 0).toNat / 2 ^ 5 * 2 ^ 26 + (current env o 1).toNat / 2 ^ 6))
  | .getrandbits arg => r = arg.count.bind fun k =>
    if 32 < k ∧ tooMany env k = true then .error (.memoryError "") else .ok (.int (refBits (current env o) k))
  | .randbytes arg => r = arg.count.map fun n => .bytes (refBytes (current env o) n)
  | .getstate => ∃ items : List Int64, r = .ok (.state items) ∧
    ∀ env' o', next env' o' (.setstate (.tuple (items.map .int))) = some (current env o)
  | .setstate arg => r = arg.state.map fun _ => .none

/-- A call that returns no bytes, or bytes whose last word has the same in its low and its top part. -/
def Even (env : Env) (o : Option Stream) : Op → Prop
  | .randbytes arg => ∀ n, arg.count = .ok n → EvenEnd (current env o) n
  | _ => True

end Reference

/-- Any number of instances in use, with the streams they should draw. -/
inductive Reachable : List Inst → List (Option Stream) → Prop where
  | nil : Reachable [] []
  | create {insts : List Inst} {streams : List (Option Stream)} :
    Reachable insts streams → Reachable (insts ++ [none]) (streams ++ [none])
  | step {insts : List Inst} {streams : List (Option Stream)} {env : Env} {op : Op} {j : ℕ} {inst inst' : Inst}
    {o : Option Stream} {r : Result} :
    Reachable insts streams → insts[j]? = some inst → streams[j]? = some o → Random.step env inst op = .ok (inst', r) →
    Reachable (insts.set j inst') (streams.set j (next env o op))

variable {env : Env} {inst : Inst} {o : Option Stream} {k n : ℕ} {b : List UInt8} {key : List UInt32}

section Steps

theorem chunkWords_ne {bytes : List UInt8} (h : bytes ≠ []) : chunkWords bytes ≠ [] := by
  rw [chunkWords, if_neg h]
  exact List.cons_ne_nil _ _

theorem digitWords_ne (n : ℕ) : digitWords n ≠ [] := by
  unfold digitWords
  split_ifs with h
  · exact List.cons_ne_nil _ _
  · exact fun hnil => h (by rw [hnil]; rfl)

theorem seedKey_ne {arg : SeedArg} (h : seedKey env arg = .ok key) : key ≠ [] := by
  cases arg <;> cases h
  · exact env.entropy_ne
  · exact digitWords_ne _
  · exact digitWords_ne _
  · exact digitWords_ne _

theorem seeded_ok (h : key ≠ []) : ∃ b, seeded key = .ok b ∧ Draws b (keyStream key) := by
  obtain ⟨mt, b, hmt, hb, hdraws⟩ := seed_draws h
  refine ⟨b, ?_, hdraws⟩
  unfold seeded
  rw [hmt, ok_bind, hb]

theorem Draws.length {s : Stream} (h : Draws b s) : b.length = STATE_LEN := by
  obtain ⟨x, pos, hold, -⟩ := h
  rw [hold.bytes, length_flat, List.length_append, length_block]
  rfl

theorem stateBuffer_ok (h : Option.Rel Draws inst o) :
    ∃ b, stateBuffer env inst = .ok b ∧ Draws b (current env o) := by
  cases h with
  | none => exact seeded_ok env.entropy_ne
  | some h =>
    refine ⟨_, ?_, h⟩
    unfold stateBuffer
    dsimp only
    rw [if_pos h.length]

theorem wordsNeeded_eq (h : 0 < k) : wordsNeeded k = wordsFor k := by
  unfold wordsNeeded wordsFor
  omega

section SavedStates

theorem block_getD (h : key.length = 624) : block (key.getD · 0) = key := by
  apply List.ext_getElem?
  intro i
  by_cases hi : i < 624
  · rw [getElem?_block hi, List.getD_eq_getElem?_getD, List.getElem?_eq_getElem (by omega)]
    rfl
  · rw [List.getElem?_eq_none, List.getElem?_eq_none]
    · omega
    · rw [length_block]
      omega

theorem mapM_length {α β : Type} {f : α → Except RuntimeError β} {l : List α} {m : List β} (h : l.mapM f = .ok m) :
    m.length = l.length := by
  induction l generalizing m with
  | nil =>
    cases h
    rfl
  | cons a l ih =>
    rw [List.mapM_cons] at h
    cases ha : f a with
    | error e =>
      rw [ha] at h
      cases h
    | ok b =>
      rw [ha] at h
      cases hl : l.mapM f with
      | error e =>
        rw [hl] at h
        cases h
      | ok bs =>
        rw [hl] at h
        cases h
        rw [List.length_cons, List.length_cons, ih hl]

theorem cursor_le {item : Item} {pos : ℕ} (h : item.cursor = .ok pos) : pos ≤ 624 := by
  unfold Item.cursor at h
  split at h
  · split_ifs at h with hi
    cases h
    omega
  · cases h

theorem state_ok {arg : StateArg} {pos : ℕ} (h : arg.state = .ok (key, pos)) : key.length = 624 ∧ pos ≤ 624 := by
  cases arg with
  | other => cases h
  | tuple items =>
    unfold StateArg.state at h
    dsimp only at h
    split_ifs at h with hlen
    have hlen' : items.length = 625 := not_not.mp hlen
    cases hkey : (items.take N).mapM Item.word with
    | error e =>
      rw [hkey] at h
      cases h
    | ok key' =>
      cases hpos : (items.getD N .other).cursor with
      | error e =>
        rw [hkey, hpos] at h
        cases h
      | ok pos' =>
        rw [hkey, hpos] at h
        cases h
        refine ⟨?_, cursor_le hpos⟩
        rw [mapM_length hkey, List.length_take, hlen']
        rfl

theorem setstate_draws {pos : ℕ} (hlen : key.length = 624) (hpos : pos ≤ 624) :
    ∃ b, storeMt ⟨key, pos⟩ = .ok b ∧ Draws b (stateStream key pos) := by
  obtain ⟨b, hb, hdraws⟩ := storeMt_draws hpos (key.getD · 0)
  rw [block_getD hlen] at hb
  exact ⟨b, hb, hdraws⟩

theorem word_int (w : UInt32) : (Item.int (Int64.ofNat w.toNat)).word = .ok w := by
  have hlt := w.toNat_lt
  unfold Item.word
  dsimp only
  rw [Int64.toInt_ofNat_of_lt (by omega)]
  apply congrArg
  apply UInt32.toNat_inj.mp
  rw [UInt32.ofInt, UInt32.toNat_ofNat']
  omega

theorem mapM_word (key : List UInt32) :
    (key.map fun w => Item.int (Int64.ofNat w.toNat)).mapM Item.word = .ok key := by
  induction key with
  | nil => rfl
  | cons w key ih =>
    rw [List.map_cons, List.mapM_cons, word_int, ih]
    rfl

/-- A saved state reads back as the block and the cursor it was saved from. -/
theorem saved_state {pos : ℕ} (hlen : key.length = 624) (hpos : pos ≤ 624) :
    (StateArg.tuple ((key.map (fun w => Int64.ofNat w.toNat) ++ [Int64.ofNat pos]).map .int)).state = .ok (key, pos) := by
  obtain ⟨words, hwords⟩ : ∃ words, words = key.map fun w => Item.int (Int64.ofNat w.toNat) := ⟨_, rfl⟩
  have hitems : (key.map (fun w => Int64.ofNat w.toNat) ++ [Int64.ofNat pos]).map Item.int =
      words ++ [.int (Int64.ofNat pos)] := by
    rw [List.map_append, List.map_map, hwords]
    rfl
  have hkey : words.length = N := by
    rw [hwords, List.length_map, hlen]
    rfl
  have hread : words.mapM Item.word = .ok key := by
    rw [hwords]
    exact mapM_word key
  have hcursor : (Item.int (Int64.ofNat pos)).cursor = .ok pos := by
    unfold Item.cursor
    dsimp only
    rw [Int64.toInt_ofNat_of_lt (by omega), if_pos (by omega)]
    rfl
  have hlast : (words ++ [Item.int (Int64.ofNat pos)]).getD N .other = .int (Int64.ofNat pos) := by
    rw [← hkey, List.getD_eq_getElem?_getD, List.getElem?_concat_length]
    rfl
  have hsize : (words ++ [Item.int (Int64.ofNat pos)]).length = N + 1 := by
    rw [List.length_append, hkey]
    rfl
  rw [hitems]
  unfold StateArg.state
  dsimp only
  rw [if_neg (not_not.mpr hsize), List.take_left' hkey, hread, hlast, hcursor]
  rfl

end SavedStates

theorem getrandbits_ok (h : Option.Rel Draws inst o) (k : ℕ) : ∃ inst', getrandbits env inst k = .ok (inst',
      if 32 < k ∧ tooMany env k = true then .error (.memoryError "") else .ok (.int (refBits (current env o) k))) ∧
    Option.Rel Draws inst' (if k = 0 ∨ 32 < k ∧ tooMany env k = true then o
      else some fun n => current env o (n + wordsFor k)) := by
  obtain ⟨b, hbuffer, hb⟩ := stateBuffer_ok h
  unfold getrandbits
  by_cases hzero : k = 0
  · subst hzero
    exact ⟨inst, rfl, h⟩
  · rw [if_neg hzero]
    by_cases hshort : k ≤ 32
    · obtain ⟨b', hdraw, hdraws⟩ := hb.genrand
      have hone : wordsFor k = 1 := by
        unfold wordsFor
        omega
      have hbits : (current env o 0 >>> UInt32.ofNat (32 - k)).toNat = refBits (current env o) k := by
        rw [toNat_shift hshort (by omega), refBits_pos (by omega), show k - 32 = 0 by omega, refBits_zero, Nat.mul_zero,
          Nat.add_zero]
      rw [if_pos hshort, if_neg (by omega), if_neg (by omega), hone, hbuffer, ok_bind, hdraw, ok_bind]
      dsimp only
      rw [hbits]
      exact ⟨some b', rfl, .some hdraws⟩
    · rw [if_neg hshort]
      by_cases hmany : tooMany env k = true
      · rw [if_pos hmany, if_pos ⟨by omega, hmany⟩, if_pos (.inr ⟨by omega, hmany⟩)]
        exact ⟨inst, rfl, h⟩
      · obtain ⟨ws, b', hdraw, hws, hdraws⟩ := drawBits_ok hb (wordsNeeded_eq (k := k) (by omega))
        rw [wordsNeeded_eq (by omega)] at hdraw hdraws
        rw [if_neg hmany, if_neg fun hc => hmany hc.2, if_neg (by tauto), hbuffer, ok_bind, wordsNeeded_eq (by omega),
          hdraw, ok_bind]
        dsimp only
        rw [ofLe_flat, hws]
        exact ⟨some b', rfl, .some hdraws⟩

/-- A generator in its saved state has the stream it had. -/
theorem stateStream_block {x : ℕ → UInt32} (hx : Twisted x) (pos : ℕ) :
    stateStream (block x) pos = fun n => temper (x (pos + n)) := by
  have hwords : sequence ((block x).getD · 0) = x := by
    apply (twisted_sequence _).ext hx
    intro n hn
    rw [sequence_of_lt hn, List.getD_eq_getElem?_getD, getElem?_block hn]
    rfl
  unfold stateStream
  rw [hwords]

/-- Each call draws on, and returns what the reference does save for bytes that end amid a word. -/
theorem step_ok (h : Option.Rel Draws inst o) (op : Op) : ∃ inst' r, step env inst op = .ok (inst', r) ∧
    Option.Rel Draws inst' (next env o op) ∧ (Expected env o r op ↔ Even env o op) := by
  obtain ⟨b, hbuffer, hb⟩ := stateBuffer_ok h
  cases op with
  | seed arg =>
    unfold step next Expected Even
    dsimp only
    cases hkey : seedKey env arg with
    | error e => exact ⟨inst, .error e, rfl, h, iff_of_true rfl trivial⟩
    | ok key =>
      obtain ⟨b', hrun, hdraws⟩ := seeded_ok (seedKey_ne hkey)
      dsimp only
      rw [hrun]
      exact ⟨some b', .ok .none, rfl, .some hdraws, iff_of_true rfl trivial⟩
  | random =>
    obtain ⟨b', hrun, hdraws⟩ := randomFrom_ok hb
    unfold step
    dsimp only
    rw [hbuffer, ok_bind, hrun]
    exact ⟨some b', _, rfl, .some hdraws, iff_of_true rfl trivial⟩
  | getrandbits arg =>
    unfold step next Expected Even
    dsimp only
    cases hk : arg.count with
    | error e => exact ⟨inst, .error e, rfl, h, iff_of_true rfl trivial⟩
    | ok k =>
      obtain ⟨inst', hrun, hdraws⟩ := getrandbits_ok h k
      exact ⟨inst', _, hrun, hdraws, iff_of_true rfl trivial⟩
  | randbytes arg =>
    unfold step next Expected Even
    dsimp only
    cases hn : arg.count with
    | error e => exact ⟨inst, .error e, rfl, h, iff_of_true rfl nofun⟩
    | ok n =>
      obtain ⟨b', hrun, hdraws⟩ := drawBytes_ok hb n
      dsimp only
      rw [hbuffer, ok_bind, hrun]
      refine ⟨some b', .ok (.bytes (lowBytes _ n)), rfl, .some hdraws, ?_⟩
      constructor
      · intro heq m hm
        cases hm
        apply (lowBytes_eq_iff _ n).mp
        injection heq with heq
        injection heq
      · intro heven
        have hbytes := (lowBytes_eq_iff _ n).mpr (heven n rfl)
        rw [hbytes]
        rfl
  | getstate =>
    obtain ⟨x, pos, hold, hs⟩ := hb
    unfold step next Expected Even
    dsimp only
    rw [hbuffer, ok_bind, hold.toMt, ok_bind]
    refine ⟨some b, _, rfl, .some ⟨x, pos, hold, hs⟩, iff_of_true ⟨_, rfl, fun env' o' => ?_⟩ trivial⟩
    have hlen := length_block x
    have hsaved := saved_state hlen hold.pos_le
    have hstream := stateStream_block hold.twisted pos
    unfold next
    dsimp only
    rw [hsaved, hs]
    dsimp only [Except.toOption, Option.elim]
    rw [hstream]
  | setstate arg =>
    unfold step next Expected Even
    dsimp only
    cases hst : arg.state with
    | error e => exact ⟨inst, .error e, rfl, h, iff_of_true rfl trivial⟩
    | ok st =>
      obtain ⟨hlen, hpos⟩ : st.1.length = 624 ∧ st.2 ≤ 624 := state_ok hst
      obtain ⟨b', hrun, hdraws⟩ := setstate_draws hlen hpos
      dsimp only
      rw [hrun]
      exact ⟨some b', .ok .none, rfl, .some hdraws, iff_of_true rfl trivial⟩

end Steps

section Runs

theorem reachable_draws {insts : List Inst} {streams : List (Option Stream)} (h : Reachable insts streams) :
    insts.length = streams.length ∧ ∀ (j : ℕ) inst o, insts[j]? = some inst → streams[j]? = some o →
      Option.Rel Draws inst o := by
  induction h with
  | nil => exact ⟨rfl, fun j inst o h => nomatch h⟩
  | @create insts streams _ ih =>
    obtain ⟨hlen, hdraws⟩ := ih
    refine ⟨by rw [List.length_append, List.length_append, hlen]; rfl, ?_⟩
    intro j inst o hinst ho
    by_cases hj : j < insts.length
    · rw [List.getElem?_append_left hj] at hinst
      rw [List.getElem?_append_left (hlen ▸ hj)] at ho
      exact hdraws j inst o hinst ho
    · rw [List.getElem?_append_right (by omega)] at hinst ho
      obtain rfl := List.mem_singleton.mp (List.mem_of_getElem? hinst)
      obtain rfl := List.mem_singleton.mp (List.mem_of_getElem? ho)
      exact .none
  | @step insts streams env op j inst inst' o r _ hinst ho hstep ih =>
    obtain ⟨hlen, hdraws⟩ := ih
    obtain ⟨inst₁, r₁, hstep₁, hnext, -⟩ := step_ok (hdraws j inst o hinst ho) op
    rw [hstep₁] at hstep
    cases hstep
    refine ⟨by rw [List.length_set, List.length_set, hlen], ?_⟩
    intro i inst₂ o₂ hinst₂ ho₂
    by_cases hi : j = i
    · subst hi
      rw [List.getElem?_set_self (List.getElem?_eq_some_iff.mp hinst).1] at hinst₂
      rw [List.getElem?_set_self (List.getElem?_eq_some_iff.mp ho).1] at ho₂
      cases hinst₂
      cases ho₂
      exact hnext
    · rw [List.getElem?_set_ne hi] at hinst₂ ho₂
      exact hdraws i inst₂ o₂ hinst₂ ho₂

/-- Whatever was called before, on this instance and on others, a call draws the next words of the
reference stream, and it is only bytes ending amid a word that it takes from that word's other side. -/
theorem stream_exact {insts : List Inst} {streams : List (Option Stream)} (h : Reachable insts streams) (env : Env)
    (op : Op) (j : ℕ) (inst : Inst) (o : Option Stream) (hinst : insts[j]? = some inst) (ho : streams[j]? = some o) :
    ∃ inst' r, step env inst op = .ok (inst', r) ∧ (Expected env o r op ↔ Even env o op) ∧
      (∀ k, refBits (current env o) k < 2 ^ k) ∧ Reachable (insts.set j inst') (streams.set j (next env o op)) := by
  obtain ⟨inst', r, hstep, -, hresult⟩ := step_ok ((reachable_draws h).2 j inst o hinst ho) op
  exact ⟨inst', r, hstep, hresult, refBits_lt _, h.step hinst ho hstep⟩

def sampleEnv : Env := ⟨[0], fun _ => true, List.cons_ne_nil _ _⟩

theorem new_instance_exact : ∃ inst' r, step sampleEnv none (.randbytes (.int 4)) = .ok (inst', r) ∧
    (Expected sampleEnv none r (.randbytes (.int 4)) ↔ Even sampleEnv none (.randbytes (.int 4))) ∧
    (∀ k, refBits (current sampleEnv none) k < 2 ^ k) ∧
    Reachable [inst'] [next sampleEnv none (.randbytes (.int 4))] :=
  stream_exact (.create .nil) sampleEnv (.randbytes (.int 4)) 0 none none rfl rfl

def sampleKey : List UInt32 := 1 :: List.replicate 623 0

/-- The state vector `(1, 0, …, 0)` with the cursor at the start. -/
def sampleState : StateArg :=
  .tuple ((sampleKey.map (fun w => Int64.ofNat w.toNat) ++ [Int64.ofNat 0]).map .int)

theorem sampleKey_stream : stateStream sampleKey 0 0 = 0x400091 := by
  unfold stateStream
  rw [sequence_of_lt (by omega)]
  rfl

/-- From the word `0x400091`, `randbytes(1)` is its low byte and `getrandbits(8)` its top one. -/
theorem randbytes_takes_low_byte : ∃ b, step sampleEnv none (.setstate sampleState) = .ok (some b, .ok .none) ∧
    Reachable [some b] [some (stateStream sampleKey 0)] ∧
    ∃ inst' r, step sampleEnv (some b) (.randbytes (.int 1)) = .ok (inst', r) ∧
      ¬ Expected sampleEnv (some (stateStream sampleKey 0)) r (.randbytes (.int 1)) := by
  have hkey : sampleKey.length = 624 := by
    rw [sampleKey, List.length_cons, List.length_replicate]
  have hstate : sampleState.state = .ok (sampleKey, 0) := saved_state hkey (by omega)
  obtain ⟨b, hb, hdraws⟩ := setstate_draws hkey (Nat.zero_le _)
  have hset : step sampleEnv none (.setstate sampleState) = .ok (some b, .ok .none) := by
    unfold step
    dsimp only
    rw [hstate]
    dsimp only
    rw [hb]
    rfl
  have hnext : next sampleEnv none (.setstate sampleState) = some (stateStream sampleKey 0) := by
    unfold next
    dsimp only
    rw [hstate]
    rfl
  have hreach := (Reachable.create .nil).step (j := 0) rfl rfl hset
  obtain ⟨inst', r, hstep, -, hresult⟩ := @step_ok sampleEnv _ _ (.some hdraws) (.randbytes (.int 1))
  refine ⟨b, hset, ?_, inst', r, hstep, ?_⟩
  · rw [hnext] at hreach
    exact hreach
  · rw [hresult]
    intro heven
    have hend : EvenEnd (stateStream sampleKey 0) 1 := heven 1 rfl
    unfold EvenEnd at hend
    rw [show 1 / 4 = 0 from rfl, sampleKey_stream] at hend
    exact absurd hend (by decide)

end Runs

end WeavePy.Random
