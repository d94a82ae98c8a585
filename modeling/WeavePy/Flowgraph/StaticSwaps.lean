import WeavePy.Flowgraph.Blocks

/-!
The passes that reduce exchanges on the operand stack, and what a block does to a frame.
-/

namespace WeavePy.Flowgraph

variable {n m : ℕ} {α : Type}

def swappable : OpCode → Bool
  | .StoreFast | .StoreFastMaybeNull | .PopTop => true
  | _ => false

/-- The local an instruction stores to. -/
def storesTo (i : CfgInstr n m) : ℤ :=
  if i.op = .StoreFast ∨ i.op = .StoreFastMaybeNull then i.arg.toNat else -1

/-- `v.swap(a, b)` -/
def swapIndex (l : List α) (a b : ℕ) : Outcome (List α) := do
  let x ← index l a
  let y ← index l b
  return (l.set a y).set b x

/-! `swaptimize` -/

/-- The slots after a `SWAP` that belong to its run. -/
def runTail (instrs : List (CfgInstr n m)) : List (CfgInstr n m) :=
  instrs.takeWhile fun i => i.op = .Swap ∨ i.op = .Nop

def maxDepth (first : CfgInstr n m) (rest : List (CfgInstr n m)) : ℕ :=
  rest.foldl (fun depth i => if i.op = .Swap then max depth i.arg.toNat else depth) first.arg.toNat

/-- The run's exchanges on `stack`. -/
def permute (run : List (CfgInstr n m)) (stack : List ℕ) : Outcome (List ℕ) :=
  run.foldlM (fun stack i => if i.op = .Swap then swapIndex stack 0 (i.arg.toNat - 1) else .ok stack)
    stack

/-- The loop over one cycle from `j` on: the places it exchanges with the top. Places on `stack` that
were visited hold `none`. -/
def cycleFrom (i : ℕ) : ℕ → List (Option ℕ) → ℕ → Outcome (List ℕ × List (Option ℕ))
  | 0, _, _ => .error .diverge
  | fuel + 1, stack, j => do
    let emitted := if j = 0 then [] else [j]
    match ← index stack j with
    | none => if j = i then return (emitted, stack) else .error .panic
    | some next => do
      let r ← cycleFrom i fuel (stack.set j none) next
      return (emitted ++ r.1, r.2)

/-- The cycles that begin at the places `i`, each place visited once and the first one met again. -/
def cyclesFrom : List ℕ → List (Option ℕ) → Outcome (List ℕ)
  | [], _ => .ok []
  | i :: is, stack => do
    match ← index stack i with
    | none => cyclesFrom is stack
    | some next =>
      if next = i then cyclesFrom is stack
      else do
        let r ← cycleFrom i (stack.length + 1) stack i
        return r.1 ++ (← cyclesFrom is r.2)

/-- The emitted exchanges, written from the run's end down; the slots left over become `NOP`s. The
slots are not read while they are written. -/
def writeBack : List ℕ → List (CfgInstr n m) → Outcome (List (CfgInstr n m))
  | emitted, slots =>
    if slots.length < emitted.length then .error .panic
    else
      let free := slots.length - emitted.length
      .ok ((slots.take free).map setNop ++
        List.zipWith (fun j slot => { slot with op := .Swap, arg := UInt32.ofNat (j + 1) })
          emitted.reverse (slots.drop free))

def swaptimize (instrs : List (CfgInstr n m)) (ix : ℕ) : Outcome (List (CfgInstr n m) × ℕ) :=
  match instrs.drop ix with
  | [] => .error .panic
  | first :: rest =>
    if first.op ≠ .Swap then .error .panic
    else
      let tail := runTail rest
      if tail.all (·.op ≠ .Swap) then .ok (instrs, ix)
      else do
        let run := first :: tail
        let depth := maxDepth first tail
        let stack ← permute run (List.range depth)
        let emitted ← cyclesFrom (List.range depth) (stack.map some)
        let slots ← writeBack emitted run
        return (instrs.take ix ++ slots ++ rest.drop tail.length, ix + tail.length)

/-! `apply_static_swaps` -/

def nextSwappableFrom (lineno : ℤ) : ℕ → List (CfgInstr n m) → Option ℕ
  | _, [] => none
  | i, instruction :: rest =>
    if 0 ≤ lineno ∧ instruction.loc.line ≠ lineno then none
    else if instruction.op = .Nop then nextSwappableFrom lineno (i + 1) rest
    else if swappable instruction.op then some i else none

def nextSwappableInstruction (instrs : List (CfgInstr n m)) (i : ℕ) (lineno : ℤ) : Option ℕ :=
  nextSwappableFrom lineno (i + 1) (instrs.drop (i + 1))

/-- The instruction `count` swappable ones after `k`. -/
def nthSwappable (instrs : List (CfgInstr n m)) (lineno : ℤ) : ℕ → ℕ → Option ℕ
  | 0, k => some k
  | count + 1, k =>
    (nextSwappableInstruction instrs k lineno).bind (nthSwappable instrs lineno count)

/-- Exchanging the stores `j` and `k`, with `between` between them, could change what a local ends
with. -/
def aliases (j k : CfgInstr n m) (between : List (CfgInstr n m)) : Bool :=
  (0 ≤ storesTo j ∨ 0 ≤ storesTo k) ∧ (storesTo j = storesTo k ∨ between.any fun i =>
    0 ≤ storesTo i ∧ (storesTo i = storesTo j ∨ storesTo i = storesTo k))

/-- The slots `j` and `k` that a `SWAP` in slot `idx` becomes an exchange of. -/
def staticTargets (instrs : List (CfgInstr n m)) (idx : ℕ) (swap : CfgInstr n m) :
    Option (ℕ × ℕ) := do
  let j ← nextSwappableInstruction instrs idx (-1)
  let storeJ ← instrs[j]?
  let k ← nthSwappable instrs storeJ.loc.line (swap.arg.toNat - 1) j
  let storeK ← instrs[k]?
  if aliases storeJ storeK ((instrs.take k).drop (j + 1)) then none else some (j, k)

def exchange (instrs : List (CfgInstr n m)) (j k : ℕ) : List (CfgInstr n m) :=
  match instrs[j]?, instrs[k]? with
  | some storeJ, some storeK => (instrs.set j storeK).set k storeJ
  | _, _ => instrs

/-- What becomes of the slot `idx`; `none` where the walk to the left stops. -/
def staticStep (instrs : List (CfgInstr n m)) (idx : ℕ) : Option (List (CfgInstr n m)) := do
  let swap ← instrs[idx]?
  if swap.op = .Swap then
    let (j, k) ← staticTargets instrs idx swap
    return exchange (instrs.set idx (setNop swap)) j k
  else if swap.op = .Nop ∨ swappable swap.op then some instrs
  else none

def staticSwapsBelow : ℕ → List (CfgInstr n m) → List (CfgInstr n m)
  | 0, instrs => instrs
  | i + 1, instrs =>
    match staticStep instrs i with
    | none => instrs
    | some instrs => staticSwapsBelow i instrs

def applyStaticSwaps (instrs : List (CfgInstr n m)) (i : ℕ) : List (CfgInstr n m) :=
  staticSwapsBelow (i + 1) instrs

/-! What a block does. -/

/-- A frame's operand stack, the top first, and its locals. -/
structure Frame (V : Type) where
  stack : List V
  locals : ℕ → V

section Semantics

variable {V : Type} (other : CfgInstr n m → Frame V → Option (Frame V))

/-- The entry `k + 1` deep and the one on top exchanged. -/
def swapTop (stack : List V) (k : ℕ) : Option (List V) := do
  let top ← stack[0]?
  let deep ← stack[k]?
  return (stack.set 0 deep).set k top

def store (i : CfgInstr n m) (v : V) (locals : ℕ → V) : ℕ → V :=
  if 0 ≤ storesTo i then Function.update locals (storesTo i).toNat v else locals

/-- One instruction; whatever the others do, they do it to the frame. -/
def execInstr (i : CfgInstr n m) (frame : Frame V) : Option (Frame V) :=
  if i.op = .Nop then some frame
  else if i.op = .Swap then do
    return { frame with stack := ← swapTop frame.stack (i.arg.toNat - 1) }
  else if swappable i.op then
    match frame.stack with
    | [] => none
    | v :: rest => some ⟨rest, store i v frame.locals⟩
  else other i frame

def exec : List (CfgInstr n m) → Frame V → Option (Frame V)
  | [], frame => some frame
  | i :: rest, frame => (execInstr other i frame).bind (exec rest)

end Semantics

end WeavePy.Flowgraph

/-!
Pushing an exchange into the stores after it changes nothing.
-/

namespace WeavePy.Flowgraph

variable {n m : ℕ} {V : Type} {other : CfgInstr n m → Frame V → Option (Frame V)}
  {i j k swap : CfgInstr n m} {l l' nops mid instrs instrs' : List (CfgInstr n m)} {frame : Frame V}
  {xs rest : List V} {locals : ℕ → V} {a b v : V} {c idx : ℕ} {lineno : ℤ}

theorem exec_append : exec other (l ++ l') frame = (exec other l frame).bind (exec other l') := by
  induction l generalizing frame with
  | nil => rfl
  | cons i l ih =>
    rw [List.cons_append, exec, exec, Option.bind_assoc]
    exact congrArg _ (funext fun frame => ih)

theorem exec_nop (h : i.op = .Nop) : exec other (i :: l) frame = exec other l frame := by
  rw [exec, execInstr, if_pos h]
  rfl

theorem exec_nops (h : ∀ i ∈ nops, i.op = .Nop) :
    exec other (nops ++ l) frame = exec other l frame := by
  induction nops with
  | nil => rfl
  | cons i nops ih =>
    rw [List.cons_append, exec_nop (h i List.mem_cons_self)]
    exact ih fun i hi => h i (List.mem_cons_of_mem _ hi)

theorem swappable_ne (h : swappable i.op = true) : i.op ≠ .Nop ∧ i.op ≠ .Swap := by
  constructor
  · intro hop
    rw [hop] at h
    cases h
  · intro hop
    rw [hop] at h
    cases h

theorem exec_swappable (h : swappable i.op = true) :
    exec other (i :: l) ⟨v :: rest, locals⟩ = exec other l ⟨rest, store i v locals⟩ := by
  rw [exec, execInstr, if_neg (swappable_ne h).1, if_neg (swappable_ne h).2, if_pos h]
  rfl

theorem exec_swappable_nil (h : swappable i.op = true) : exec other (i :: l) ⟨[], locals⟩ = none := by
  rw [exec, execInstr, if_neg (swappable_ne h).1, if_neg (swappable_ne h).2, if_pos h]
  rfl

/-- The instructions drop exactly `c` entries. -/
inductive Pops : ℕ → List (CfgInstr n m) → Prop where
  | nil : Pops 0 []
  | nop {c : ℕ} {i l} : i.op = .Nop → Pops c l → Pops c (i :: l)
  | pop {c : ℕ} {i l} : swappable i.op = true → Pops c l → Pops (c + 1) (i :: l)

theorem Pops.append {d : ℕ} (h : Pops c l) (h' : Pops d l') : Pops (d + c) (l ++ l') := by
  induction h with
  | nil => exact h'
  | nop hop _ ih => exact .nop hop ih
  | pop hop _ ih => exact .pop hop ih

theorem pops_nops (h : ∀ i ∈ nops, i.op = .Nop) (hl : Pops c l) : Pops c (nops ++ l) := by
  induction nops with
  | nil => exact hl
  | cons i nops ih =>
    exact .nop (h i List.mem_cons_self) (ih fun i hi => h i (List.mem_cons_of_mem _ hi))

/-- The locals after the instructions dropped the entries `xs`. -/
def assign : List (CfgInstr n m) → List V → (ℕ → V) → ℕ → V
  | i :: l, v :: xs, locals =>
    if swappable i.op then assign l xs (store i v locals) else assign l (v :: xs) locals
  | _, _, locals => locals

theorem assign_nil_right : assign l ([] : List V) locals = locals := by
  cases l <;> rfl

theorem exec_pops (h : Pops c l) (hxs : xs.length = c) :
    exec other (l ++ l') ⟨xs ++ rest, locals⟩ = exec other l' ⟨rest, assign l xs locals⟩ := by
  induction h generalizing xs locals with
  | nil =>
    obtain rfl := List.length_eq_zero_iff.mp hxs
    rfl
  | @nop c i l hop hl ih =>
    rw [List.cons_append, exec_nop hop, ih hxs]
    cases xs with
    | nil => rw [assign_nil_right, assign_nil_right]
    | cons v xs =>
      have hno : ¬swappable i.op = true := by
        rw [hop]
        exact Bool.false_ne_true
      rw [assign, if_neg hno]
  | @pop c i l hop hl ih =>
    cases xs with
    | nil => cases hxs
    | cons v xs =>
      rw [List.cons_append, List.cons_append, exec_swappable hop, ih (Nat.succ.inj hxs), assign,
        if_pos hop]

theorem exec_pops_short (h : Pops c l) (hxs : xs.length < c) :
    exec other (l ++ l') ⟨xs, locals⟩ = none := by
  induction h generalizing xs locals with
  | nil => cases hxs
  | nop hop hl ih =>
    rw [List.cons_append, exec_nop hop]
    exact ih hxs
  | pop hop hl ih =>
    rw [List.cons_append]
    cases xs with
    | nil => exact exec_swappable_nil hop
    | cons v xs =>
      rw [exec_swappable hop]
      exact ih (Nat.lt_of_succ_lt_succ hxs)

/-- Two stores do not write the same local. -/
def Apart (i j : CfgInstr n m) : Prop := 0 ≤ storesTo i → 0 ≤ storesTo j → storesTo i ≠ storesTo j

theorem store_comm (h : Apart i j) : store i a (store j b locals) = store j b (store i a locals) := by
  simp only [store]
  by_cases hi : 0 ≤ storesTo i
  · by_cases hj : 0 ≤ storesTo j
    · have hne : (storesTo i).toNat ≠ (storesTo j).toNat := by
        have := h hi hj
        omega
      rw [if_pos hi, if_pos hj, if_pos hj, if_pos hi, Function.update_comm hne]
    · rw [if_neg hj, if_neg hj]
  · rw [if_neg hi, if_neg hi]

theorem assign_store (h : ∀ e ∈ mid, Apart e i) :
    assign mid xs (store i v locals) = store i v (assign mid xs locals) := by
  induction mid generalizing xs locals with
  | nil => rfl
  | cons e mid ih =>
    have hmid : ∀ e ∈ mid, Apart e i := fun e he => h e (List.mem_cons_of_mem _ he)
    cases xs with
    | nil => rfl
    | cons x xs =>
      simp only [assign]
      split_ifs
      · rw [store_comm (h e List.mem_cons_self), ih hmid]
      · exact ih hmid

theorem swapTop_eq : swapTop (a :: (xs ++ b :: rest)) (xs.length + 1) = some (b :: (xs ++ a :: rest)) := by
  simp [swapTop]

theorem swapTop_short (h : xs.length ≤ c) : swapTop xs c = none := by
  rw [swapTop, List.getElem?_eq_none h]
  cases xs[0]? <;> rfl

theorem exists_ends {stack : List V} (h : c + 2 ≤ stack.length) :
    ∃ a xs b rest, stack = a :: (xs ++ b :: rest) ∧ xs.length = c := by
  cases stack with
  | nil => simp at h
  | cons a stack =>
    rw [List.length_cons] at h
    refine ⟨a, stack.take c, stack.get ⟨c, by omega⟩, stack.drop (c + 1), ?_, ?_⟩
    · congr 1
      rw [List.get_eq_getElem, ← List.drop_eq_getElem_cons, List.take_append_drop]
    · rw [List.length_take]
      omega

/-- A `SWAP` before as many drops, against its two ends exchanged. -/
theorem exec_exchange (hswap : swap.op = .Swap) (harg : swap.arg.toNat = c + 2) (hi : i.op = .Nop)
    (hj : swappable j.op = true) (hk : swappable k.op = true) (hmid : Pops c mid)
    (hjk : Apart j k) (hmj : ∀ e ∈ mid, Apart e j) (hmk : ∀ e ∈ mid, Apart e k)
    (hnops : ∀ i ∈ nops, i.op = .Nop) :
    exec other (i :: (nops ++ k :: (mid ++ j :: l))) frame =
      exec other (swap :: (nops ++ j :: (mid ++ k :: l))) frame := by
  obtain ⟨stack, locals⟩ := frame
  have hleft : exec other (swap :: (nops ++ j :: (mid ++ k :: l))) ⟨stack, locals⟩ =
      (swapTop stack (c + 1)).bind fun stack =>
        exec other (nops ++ j :: (mid ++ k :: l)) ⟨stack, locals⟩ := by
    rw [exec, execInstr, if_neg (by rw [hswap]; decide), if_pos hswap, harg]
    cases h : swapTop stack (c + 1) <;> simp [h]
  rw [hleft, exec_nop hi]
  by_cases hlen : c + 2 ≤ stack.length
  · obtain ⟨a, xs, b, rest, rfl, hxs⟩ := exists_ends hlen
    rw [← hxs, swapTop_eq, Option.bind_some, exec_nops hnops, exec_nops hnops, exec_swappable hk,
      exec_pops hmid hxs, exec_swappable hj, exec_swappable hj, exec_pops hmid hxs,
      exec_swappable hk, assign_store hmk, assign_store hmj, store_comm hjk]
  · have hall : Pops (0 + 1 + c + 1) (nops ++ k :: (mid ++ [j])) :=
      pops_nops hnops (.pop hk (hmid.append (.pop hj .nil)))
    rw [swapTop_short (by omega), Option.bind_none]
    have hshort := @exec_pops_short _ _ _ other _ l stack locals _ hall (by omega)
    simpa using hshort

/-! Where the slots are. -/

theorem nextSwappableFrom_some {at' found : ℕ} (h : nextSwappableFrom lineno at' l = some found) :
    ∃ nops i rest, l = nops ++ i :: rest ∧ found = at' + nops.length ∧
      (∀ i ∈ nops, i.op = .Nop) ∧ swappable i.op = true := by
  induction l generalizing at' with
  | nil => cases h
  | cons i l ih =>
    rw [nextSwappableFrom] at h
    split_ifs at h with hline hnop hswap
    · obtain ⟨nops, k, rest, rfl, rfl, hnops, hk⟩ := ih h
      refine ⟨i :: nops, k, rest, rfl, ?_, ?_, hk⟩
      · rw [List.length_cons]
        omega
      · intro e he
        rcases List.mem_cons.mp he with rfl | he
        · exact hnop
        · exact hnops e he
    · obtain rfl := Option.some.inj h
      exact ⟨[], i, l, rfl, rfl, by simp, hswap⟩

theorem drop_of_split {pre : List (CfgInstr n m)} (h : instrs.drop idx = pre ++ i :: l) :
    instrs.drop (idx + pre.length + 1) = l ∧ instrs[idx + pre.length]? = some i := by
  constructor
  · rw [Nat.add_assoc, ← List.drop_drop, h, ← List.drop_drop, List.drop_left]
    rfl
  · rw [← List.getElem?_drop, h, List.getElem?_append_right le_rfl, Nat.sub_self]
    rfl

theorem nextSwappable_some {found : ℕ} (h : nextSwappableInstruction instrs idx lineno = some found) :
    ∃ nops i, instrs.drop (idx + 1) = nops ++ i :: instrs.drop (found + 1) ∧
      found = idx + 1 + nops.length ∧ instrs[found]? = some i ∧ (∀ i ∈ nops, i.op = .Nop) ∧
        swappable i.op = true := by
  obtain ⟨nops, i, rest, hdrop, rfl, hnops, hi⟩ := nextSwappableFrom_some h
  obtain ⟨rfl, hget⟩ := drop_of_split hdrop
  exact ⟨nops, i, hdrop, rfl, hget, hnops, hi⟩

theorem nthSwappable_some {found : ℕ} (h : nthSwappable instrs lineno (c + 1) idx = some found) :
    ∃ mid k, instrs.drop (idx + 1) = mid ++ k :: instrs.drop (found + 1) ∧
      found = idx + 1 + mid.length ∧ instrs[found]? = some k ∧ Pops c mid ∧
        swappable k.op = true := by
  induction c generalizing idx with
  | zero =>
    obtain ⟨next, hnext, h⟩ := Option.bind_eq_some_iff.mp h
    obtain rfl := Option.some.inj h
    obtain ⟨nops, k, hdrop, hfound, hget, hnops, hk⟩ := nextSwappable_some hnext
    refine ⟨nops, k, hdrop, hfound, hget, ?_, hk⟩
    simpa using pops_nops hnops .nil
  | succ c ih =>
    obtain ⟨next, hnext, h⟩ := Option.bind_eq_some_iff.mp h
    obtain ⟨nops, i, hdrop, hfound, -, hnops, hi⟩ := nextSwappable_some hnext
    obtain ⟨mid, k, hdrop', hfound', hget, hmid, hk⟩ := ih h
    refine ⟨nops ++ i :: mid, k, ?_, ?_, hget, pops_nops hnops (.pop hi hmid), hk⟩
    · rw [hdrop, hdrop', List.append_assoc, List.cons_append]
    · rw [List.length_append, List.length_cons]
      omega

theorem apart_of_aliases (h : aliases j k mid = false) : Apart j k ∧ (∀ e ∈ mid, Apart e j) ∧
    ∀ e ∈ mid, Apart e k := by
  simp only [aliases, decide_eq_false_iff_not, not_and, not_or, List.any_eq_true, not_exists,
    decide_eq_true_eq] at h
  refine ⟨fun hj hk => (h (.inl hj)).1, fun e he hpos hj => ?_, fun e he hpos hk => ?_⟩
  · exact ((h (.inl hj)).2 e he hpos).1
  · exact ((h (.inr hk)).2 e he hpos).2

theorem set_mid {pre : List (CfgInstr n m)} : (pre ++ i :: l).set pre.length k = pre ++ k :: l := by
  simp

theorem exchange_eq {pre : List (CfgInstr n m)} :
    exchange (pre ++ j :: (mid ++ k :: l)) pre.length (pre.length + 1 + mid.length) =
      pre ++ k :: (mid ++ j :: l) := by
  have hj : (pre ++ j :: (mid ++ k :: l))[pre.length]? = some j := by simp
  have hsplit : ∀ e f, pre ++ e :: (mid ++ f :: l) = (pre ++ e :: mid) ++ f :: l := by simp
  have hlen : ∀ e, (pre ++ e :: mid).length = pre.length + 1 + mid.length := by
    intro e
    rw [List.length_append, List.length_cons]
    omega
  have hk : (pre ++ j :: (mid ++ k :: l))[pre.length + 1 + mid.length]? = some k := by
    rw [hsplit, ← hlen j]
    simp
  rw [exchange, hj, hk]
  dsimp only
  rw [set_mid, hsplit k k, ← hlen k, set_mid, hsplit]

/-- Every `SWAP` names an entry. -/
def SwapsNamed (instrs : List (CfgInstr n m)) : Prop :=
  ∀ i ∈ instrs, i.op = .Swap → 1 ≤ i.arg.toNat

theorem mem_of_ne {pre : List (CfgInstr n m)} (h : i ∈ pre ++ j :: l) (hne : i ≠ j) :
    i ∈ pre ++ k :: l := by
  rw [List.mem_append, List.mem_cons] at h ⊢
  exact h.imp_right fun h => .inr (h.resolve_left hne)

theorem exchanged_perm : List.Perm (i :: (nops ++ k :: (mid ++ j :: l)))
    (i :: (nops ++ j :: (mid ++ k :: l))) := by
  apply List.Perm.cons
  apply List.Perm.append_left
  calc List.Perm (k :: (mid ++ j :: l)) (k :: j :: (mid ++ l)) := List.perm_middle.cons k
    List.Perm _ (j :: k :: (mid ++ l)) := List.Perm.swap j k _
    List.Perm _ (j :: (mid ++ k :: l)) := List.perm_middle.symm.cons j

theorem SwapsNamed.of_mem (h : SwapsNamed instrs) (hmem : ∀ i ∈ instrs', i ≠ setNop swap →
    i ∈ instrs) : SwapsNamed instrs' := by
  intro i hi hop
  apply h i (hmem i hi _) hop
  rintro rfl
  cases hop

theorem swap_one (hswap : swap.op = .Swap) (harg : swap.arg.toNat = 1)
    (hnops : ∀ i ∈ nops, i.op = .Nop) (hj : swappable j.op = true) (hi : i.op = .Nop) :
    exec other (i :: (nops ++ j :: l)) frame = exec other (swap :: (nops ++ j :: l)) frame := by
  obtain ⟨stack, locals⟩ := frame
  rw [exec_nop hi, exec, execInstr, if_neg (by rw [hswap]; decide), if_pos hswap, harg]
  cases stack with
  | nil =>
    rw [exec_nops hnops, exec_swappable_nil hj]
    rfl
  | cons a stack => rfl

theorem exchange_self {slot : ℕ} (h : instrs[slot]? = some j) : exchange instrs slot slot = instrs := by
  obtain ⟨hlt, rfl⟩ := List.getElem?_eq_some_iff.mp h
  simp [exchange, hlt]

theorem staticStep_exec (hnamed : SwapsNamed instrs) (h : staticStep instrs idx = some instrs') :
    SwapsNamed instrs' ∧ ∀ frame : Frame V, exec other instrs' frame = exec other instrs frame := by
  obtain ⟨swap, hget, h⟩ := Option.bind_eq_some_iff.mp h
  split_ifs at h with hswap hskip
  · obtain ⟨⟨_, _⟩, htargets, h⟩ := Option.bind_eq_some_iff.mp h
    obtain rfl := Option.some.inj h
    obtain ⟨slotJ, hnext, htargets⟩ := Option.bind_eq_some_iff.mp htargets
    obtain ⟨nops, j, hdrop, hslotJ, hj, hnops, hpop⟩ := nextSwappable_some hnext
    rw [hj, Option.bind_eq_bind, Option.bind_some] at htargets
    obtain ⟨slotK, hnth, htargets⟩ := Option.bind_eq_some_iff.mp htargets
    obtain ⟨k, hk, htargets⟩ := Option.bind_eq_some_iff.mp htargets
    split_ifs at htargets with halias
    obtain ⟨rfl, rfl⟩ := Prod.mk.inj (Option.some.inj htargets)
    have hone := hnamed swap (List.mem_of_getElem? hget) hswap
    obtain ⟨R, hR⟩ : ∃ R, instrs.drop (slotJ + 1) = R := ⟨_, rfl⟩
    rw [hR] at hdrop
    obtain ⟨pre, rfl, hsplit⟩ : ∃ pre : List (CfgInstr n m), idx = pre.length ∧
        instrs = pre ++ swap :: (nops ++ j :: R) := by
      obtain ⟨hlt, rfl⟩ := List.getElem?_eq_some_iff.mp hget
      refine ⟨instrs.take idx, by rw [List.length_take]; omega, ?_⟩
      rw [← hdrop, ← List.drop_eq_getElem_cons, List.take_append_drop]
    have hset : instrs.set pre.length (setNop swap) = (pre ++ setNop swap :: nops) ++ j :: R := by
      rw [hsplit, set_mid]
      simp
    have hlen : (pre ++ setNop swap :: nops).length = slotJ := by
      rw [List.length_append, List.length_cons, hslotJ]
      omega
    obtain hzero | ⟨c, hc⟩ : swap.arg.toNat - 1 = 0 ∨ ∃ c, swap.arg.toNat - 1 = c + 1 := by
      rcases Nat.eq_zero_or_pos (swap.arg.toNat - 1) with h0 | hpos
      · exact .inl h0
      · exact .inr ⟨swap.arg.toNat - 2, by omega⟩
    · rw [hzero] at hnth
      obtain rfl := Option.some.inj hnth
      have hself : (instrs.set pre.length (setNop swap))[slotJ]? = some j := by
        rw [hset, ← hlen]
        simp
      rw [exchange_self hself, hset]
      constructor
      · apply hnamed.of_mem
        intro i hi hne
        rw [List.append_assoc, List.cons_append] at hi
        rw [hsplit]
        exact mem_of_ne hi hne
      · intro frame
        rw [hsplit, List.append_assoc, List.cons_append, exec_append, exec_append]
        congr 1
        funext frame
        exact swap_one hswap (by omega) hnops hpop rfl
    · rw [hc] at hnth
      obtain ⟨mid, k', hdrop', hslotK, hk', hmid, hpop'⟩ := nthSwappable_some hnth
      obtain rfl := Option.some.inj (hk.symm.trans hk')
      have hbetween : (instrs.take slotK).drop (slotJ + 1) = mid := by
        rw [List.drop_take, hdrop', hslotK, Nat.add_sub_cancel_left, List.take_left]
      rw [hbetween] at halias
      obtain ⟨hjk, hmj, hmk⟩ := apart_of_aliases (Bool.eq_false_iff.mpr halias)
      obtain ⟨R', hR'⟩ : ∃ R', instrs.drop (slotK + 1) = R' := ⟨_, rfl⟩
      rw [hR, hR'] at hdrop'
      rw [hset, hdrop', hslotK, ← hlen, exchange_eq]
      rw [hdrop'] at hsplit
      constructor
      · apply hnamed.of_mem
        intro i hi hne
        rw [List.append_assoc, List.cons_append] at hi
        rw [hsplit]
        exact mem_of_ne ((exchanged_perm.append_left pre).subset hi) hne
      · intro frame
        rw [hsplit, List.append_assoc, List.cons_append, exec_append, exec_append]
        congr 1
        funext frame
        exact exec_exchange hswap (by omega) rfl hpop hpop' hmid hjk hmj hmk hnops
  · obtain rfl := Option.some.inj h
    exact ⟨hnamed, fun _ => rfl⟩

/-- Whatever the other instructions do, the block does the same. -/
theorem applyStaticSwaps_exec (hnamed : SwapsNamed instrs) (frame : Frame V) :
    exec other (applyStaticSwaps instrs idx) frame = exec other instrs frame := by
  rw [applyStaticSwaps]
  induction idx + 1 generalizing instrs with
  | zero => rfl
  | succ slot ih =>
    rw [staticSwapsBelow]
    cases hstep : staticStep instrs slot with
    | none => rfl
    | some instrs' =>
      obtain ⟨hnamed', hexec⟩ := @staticStep_exec _ _ _ other _ _ _ hnamed hstep
      rw [← hexec]
      exact ih hnamed'

end WeavePy.Flowgraph
