import WeavePy.LineJump.Analysis
import Mathlib.Data.Finset.Basic

/-!
The analysis of bound exits finds what is bound on every path.
-/

namespace WeavePy.LineJump

open NativeCode (ExcHandler)
open Rounds

/-- Where control goes from an instruction. -/
def nextOffsets (ins : Instruction) (i : ℕ) : List ℕ :=
  match ins.op with
  | .PopJumpIfFalse | .PopJumpIfTrue | .PopJumpIfNone | .PopJumpIfNotNone | .ForIter | .Send =>
    [i + 1 + ins.arg.toNat, i + 1]
  | .JumpForward => [i + 1 + ins.arg.toNat]
  | .JumpBackward => [i + 1 - ins.arg.toNat]
  | .ReturnValue | .RaiseVarargs | .Reraise => []
  | _ => [i + 1]

/-- The locals bound after an instruction. -/
def bindings (ins : Instruction) (bound : Finset ℕ) : Finset ℕ :=
  match ins.op with
  | .StoreFast => insert ins.arg.toNat bound
  | .DeleteFast => bound.erase ins.arg.toNat
  | _ => bound

/-- Control can be at an offset with these locals bound. -/
inductive Flow (code : Code) : ℕ → Finset ℕ → Prop where
  | entry : Flow code 0 ∅
  | step {i j : ℕ} {bound : Finset ℕ} {ins : Instruction} :
    Flow code i bound → code.instructions[i]? = some ins → j ∈ nextOffsets ins i →
      Flow code j (bindings ins bound)
  | handler {i : ℕ} {bound : Finset ℕ} {h : ExcHandler} :
    Flow code i bound → h ∈ code.info.exceptionTable → i ∈ covered code.instructions.length h →
      Flow code h.handler.toNat bound

/-- How many names before `k` are exits: the bit of the exit at `k`. -/
def exitBit (names : List String) (k : ℕ) : ℕ := (names.take k).countP isExitSlot

def IsExit (names : List String) (k : ℕ) : Prop := ∃ name, names[k]? = some name ∧ isExitSlot name

section Bits

variable {names : List String} {bits : List Word} {m k k' : ℕ}

theorem slotBits_get (h : slotBits m names = some bits) :
    bits[k]? = names[k]?.map fun name =>
      if isExitSlot name then (1 : Word) <<< (m + exitBit names k) else 0 := by
  induction names generalizing m bits k with
  | nil =>
    obtain rfl := Option.some.inj h
    simp
  | cons name names ih =>
    rw [slotBits] at h
    split_ifs at h with hexit hfull
    · obtain ⟨rest, hrest, rfl⟩ := Option.map_eq_some_iff.mp h
      cases k with
      | zero => simp [exitBit, hexit]
      | succ k =>
        rw [List.getElem?_cons_succ, List.getElem?_cons_succ, ih hrest]
        simp only [exitBit, List.take_succ_cons, List.countP_cons, hexit, if_true]
        rw [show m + 1 + List.countP isExitSlot (names.take k) =
          m + (List.countP isExitSlot (names.take k) + 1) by omega]
    · obtain ⟨rest, hrest, rfl⟩ := Option.map_eq_some_iff.mp h
      cases k with
      | zero => simp [hexit]
      | succ k =>
        rw [List.getElem?_cons_succ, List.getElem?_cons_succ, ih hrest]
        simp [exitBit, hexit]

theorem slotBits_isSome (h : m + names.countP isExitSlot ≤ 64) :
    ∃ bits, slotBits m names = some bits := by
  induction names generalizing m with
  | nil => exact ⟨[], rfl⟩
  | cons name names ih =>
    rw [slotBits]
    rw [List.countP_cons] at h
    split_ifs at * with hexit hfull
    · omega
    · obtain ⟨bits, hbits⟩ := ih (m := m + 1) (by omega)
      exact ⟨_, by rw [hbits]; rfl⟩
    · obtain ⟨bits, hbits⟩ := ih (m := m) (by omega)
      exact ⟨_, by rw [hbits]; rfl⟩

theorem exitBit_lt (h : IsExit names k) : exitBit names k < names.countP isExitSlot := by
  obtain ⟨name, hname, hexit⟩ := h
  obtain ⟨hk, rfl⟩ := List.getElem?_eq_some_iff.mp hname
  rw [← List.take_append_drop k names, exitBit, List.countP_append, List.take_append_drop,
    List.drop_eq_getElem_cons hk, List.countP_cons, if_pos hexit]
  omega

theorem exitBit_lt_of_lt (h : IsExit names k) (hk : k < k') :
    exitBit names k < exitBit names k' := by
  obtain ⟨name, hname, hexit⟩ := h
  obtain ⟨hlen, rfl⟩ := List.getElem?_eq_some_iff.mp hname
  have hsplit : names.take k' = names.take k ++ (names.drop k).take (k' - k) := by
    rw [← List.take_add, show k + (k' - k) = k' by omega]
  rw [exitBit, exitBit, hsplit, List.countP_append, List.drop_eq_getElem_cons hlen,
    show k' - k = (k' - k - 1) + 1 by omega, List.take_succ_cons, List.countP_cons, if_pos hexit]
  omega

theorem exitBit_inj (h : IsExit names k) (h' : IsExit names k')
    (heq : exitBit names k = exitBit names k') : k = k' := by
  rcases lt_trichotomy k k' with hlt | rfl | hgt
  · have := exitBit_lt_of_lt h hlt
    omega
  · rfl
  · have := exitBit_lt_of_lt h' hgt
    omega

/-- The bits of a name: its own when it is an exit, none when it is not. -/
theorem getLsbD_slotBits (h : slotBits 0 names = some bits) (b : ℕ) :
    (bits.getD k 0).getLsbD b = true ↔ b < 64 ∧ IsExit names k ∧ b = exitBit names k := by
  rw [List.getD_eq_getElem?_getD, slotBits_get h, Nat.zero_add]
  cases hname : names[k]? with
  | none =>
    simp only [Option.map_none, Option.getD_none]
    constructor
    · intro hb
      simp at hb
    · rintro ⟨-, ⟨name, hk, -⟩, -⟩
      rw [hname] at hk
      cases hk
  | some name =>
    have hiff : IsExit names k ↔ isExitSlot name := by
      constructor
      · rintro ⟨name', hk, hexit⟩
        rw [hname] at hk
        obtain rfl := Option.some.inj hk
        exact hexit
      · exact fun hexit => ⟨name, hname, hexit⟩
    rw [Option.map_some, Option.getD_some, hiff]
    split_ifs with hexit
    · rw [BitVec.getLsbD_shiftLeft]
      change (decide (b < 64) && !decide (b < exitBit names k) &&
        (1#64).getLsbD (b - exitBit names k)) = true ↔ _
      rw [BitVec.getLsbD_one]
      simp only [hexit, Bool.and_eq_true, decide_eq_true_eq, Bool.not_eq_true',
        decide_eq_false_iff_not, true_and]
      omega
    · simp [hexit]

end Bits

section Exact

variable {code : Code} {bits : List Word} {bound bound' : List Word} {i j : ℕ} {v w : Word}
  {locals : Finset ℕ} {ins : Instruction}

/-- The word says of some exits only that they are bound. -/
def Within (code : Code) (w : Word) (locals : Finset ℕ) : Prop :=
  ∀ b, w.getLsbD b = true → ∃ k ∈ locals, IsExit code.info.varnames k ∧
    b = exitBit code.info.varnames k

/-- Whatever the word does not say is not so on some path. -/
def Missed (code : Code) (i : ℕ) (w : Word) : Prop :=
  ∀ b < 64, w.getLsbD b = false → ∃ locals, Flow code i locals ∧
    ∀ k ∈ locals, IsExit code.info.varnames k → b ≠ exitBit code.info.varnames k

def AllMissed (code : Code) (bound : List Word) : Prop :=
  ∀ i w, bound[i]? = some w → Missed code i w

theorem missed_top : Missed code i TOP := by
  intro b hb h
  rw [TOP, BitVec.getLsbD_allOnes, decide_eq_true hb] at h
  cases h

/-- A word that is not full is at an offset that is reached. -/
theorem Missed.flow (h : Missed code i w) (hw : w ≠ TOP) : ∃ locals, Flow code i locals := by
  by_contra hno
  apply hw
  apply BitVec.eq_of_getLsbD_eq
  intro b hb
  rw [TOP, BitVec.getLsbD_allOnes, decide_eq_true hb]
  by_contra hbit
  obtain ⟨locals, hflow, -⟩ := h b hb (Bool.eq_false_iff.mpr hbit)
  exact hno ⟨locals, hflow⟩

theorem Missed.and (h : Missed code i v) (h' : Missed code i w) : Missed code i (v &&& w) := by
  intro b hb hbit
  rw [BitVec.getLsbD_and, Bool.and_eq_false_iff] at hbit
  rcases hbit with hbit | hbit
  · exact h b hb hbit
  · exact h' b hb hbit

theorem meet_keeps (h : Missed code j v) : Keeps (AllMissed code) (meet j v) := by
  intro bound bound' c hall hrun
  rw [meet] at hrun
  cases hj : bound[j]? with
  | none =>
    rw [hj] at hrun
    obtain ⟨rfl, -⟩ := Prod.mk.inj (Except.ok.inj hrun)
    exact hall
  | some b =>
    simp only [hj] at hrun
    split_ifs at hrun with heq
    · obtain ⟨rfl, -⟩ := Prod.mk.inj (Except.ok.inj hrun)
      exact hall
    · obtain ⟨rfl, -⟩ := Prod.mk.inj (Except.ok.inj hrun)
      intro i w hi
      rw [List.getElem?_set] at hi
      split_ifs at hi with hij hlt
      · obtain rfl := Option.some.inj hi
        subst hij
        exact (hall _ _ hj).and h
      · exact hall i w hi

theorem meet_quiet : Quiet (meet j v) := by
  intro bound bound' hrun
  rw [meet] at hrun
  cases hj : bound[j]? with
  | none =>
    rw [hj] at hrun
    exact (congrArg Prod.fst (Except.ok.inj hrun)).symm
  | some b =>
    simp only [hj] at hrun
    split_ifs at hrun
    · exact (congrArg Prod.fst (Except.ok.inj hrun)).symm
    · cases congrArg Prod.snd (Except.ok.inj hrun)

/-- A meet that changes nothing had nothing to clear. -/
theorem meet_false (h : meet j v bound = .ok (bound, false)) {b : Word} (hb : bound[j]? = some b) :
    b &&& v = b := by
  simp only [meet, hb] at h
  split_ifs at h with heq
  · exact heq
  · cases congrArg Prod.snd (Except.ok.inj h)

theorem exitStep_quiet : Quiet (exitStep bits i ins) := by
  intro bound bound' h
  rw [exitStep] at h
  split_ifs at h
  · exact quiet_still _ _ h
  · exact Quiet.sweep_map (fun e _ => meet_quiet) _ _ h

theorem exitHandlerStep_quiet : Quiet (exitHandlerStep j i) := by
  intro bound bound' h
  rw [exitHandlerStep] at h
  split_ifs at h
  · exact quiet_still _ _ h
  · exact meet_quiet _ _ h

theorem exitRound_quiet : Quiet (exitRound code bits) := by
  apply Quiet.both
  · exact Quiet.sweep_map fun e _ => exitStep_quiet
  · apply Quiet.sweep_map
    intro h _
    exact Quiet.sweep_map fun i _ => exitHandlerStep_quiet

/-- What is said after an instruction. -/
def maskAfter (bits : List Word) (ins : Instruction) (cur : Word) : Word :=
  match ins.op with
  | .StoreFast => cur ||| bits.getD ins.arg.toNat 0
  | .DeleteFast => cur &&& ~~~bits.getD ins.arg.toNat 0
  | _ => cur

theorem exitEdges_eq (cur : Word) : exitEdges bits ins i cur =
    (nextOffsets ins i).map fun j => (j, maskAfter bits ins cur) := by
  obtain ⟨op, arg⟩ := ins
  cases op <;> rfl

variable (hbits : slotBits 0 code.info.varnames = some bits)
include hbits

theorem Within.after (h : Within code w locals) :
    Within code (maskAfter bits ins w) (bindings ins locals) := by
  intro b hb
  rw [maskAfter.eq_def] at hb
  rw [bindings.eq_def]
  split at hb
  · rw [BitVec.getLsbD_or, Bool.or_eq_true, getLsbD_slotBits hbits] at hb
    rcases hb with hb | ⟨-, hexit, heq⟩
    · obtain ⟨k, hk, hrest⟩ := h b hb
      exact ⟨k, Finset.mem_insert_of_mem hk, hrest⟩
    · exact ⟨_, Finset.mem_insert_self _ _, hexit, heq⟩
  · rw [BitVec.getLsbD_and, BitVec.getLsbD_not, Bool.and_eq_true, Bool.and_eq_true,
      decide_eq_true_eq, Bool.not_eq_true', ← Bool.not_eq_true, getLsbD_slotBits hbits] at hb
    obtain ⟨hw, hlt, hother⟩ := hb
    obtain ⟨k, hk, hexit, rfl⟩ := h b hw
    refine ⟨k, Finset.mem_erase.mpr ⟨?_, hk⟩, hexit, rfl⟩
    rintro rfl
    exact hother ⟨hlt, hexit, rfl⟩
  · exact h b hb

theorem Missed.after (h : Missed code i w) (hw : w ≠ TOP) (hins : code.instructions[i]? = some ins)
    (hj : j ∈ nextOffsets ins i) : Missed code j (maskAfter bits ins w) := by
  intro b hb hbit
  rw [maskAfter.eq_def] at hbit
  split at hbit
  · next hop =>
    rw [BitVec.getLsbD_or, Bool.or_eq_false_iff, ← Bool.not_eq_true (BitVec.getLsbD _ b),
      ← Bool.not_eq_true (BitVec.getLsbD _ b), getLsbD_slotBits hbits] at hbit
    obtain ⟨locals, hflow, hmiss⟩ := h b hb (Bool.eq_false_iff.mpr hbit.1)
    have hnext := hflow.step hins hj
    rw [bindings, hop] at hnext
    refine ⟨_, hnext, ?_⟩
    intro k hk hexit
    rcases Finset.mem_insert.mp hk with rfl | hk
    · exact fun heq => hbit.2 ⟨hb, hexit, heq⟩
    · exact hmiss k hk hexit
  · next hop =>
    rw [BitVec.getLsbD_and, BitVec.getLsbD_not, decide_eq_true hb, Bool.true_and,
      Bool.and_eq_false_iff, Bool.not_eq_false', getLsbD_slotBits hbits] at hbit
    rcases hbit with hbit | ⟨-, hexit, heq⟩
    · obtain ⟨locals, hflow, hmiss⟩ := h b hb hbit
      have hnext := hflow.step hins hj
      rw [bindings, hop] at hnext
      exact ⟨_, hnext, fun k hk => hmiss k (Finset.mem_of_mem_erase hk)⟩
    · obtain ⟨locals, hflow⟩ := h.flow hw
      have hnext := hflow.step hins hj
      rw [bindings, hop] at hnext
      refine ⟨_, hnext, ?_⟩
      intro k hk hexit' heq'
      exact (Finset.mem_erase.mp hk).1 (exitBit_inj hexit' hexit (heq'.symm.trans heq))
  · next hstore hdelete =>
    obtain ⟨locals, hflow, hmiss⟩ := h b hb hbit
    refine ⟨_, hflow.step hins hj, ?_⟩
    have hsame : bindings ins locals = locals := by
      rw [bindings.eq_def]
      split
      · next hop => exact absurd hop hstore
      · next hop => exact absurd hop hdelete
      · rfl
    rw [hsame]
    exact hmiss

theorem exitStep_keeps (hins : code.instructions[i]? = some ins) :
    Keeps (AllMissed code) (exitStep bits i ins) := by
  intro bound bound' c hall h
  rw [exitStep] at h
  split_ifs at h with hcur
  · obtain rfl := congrArg Prod.fst (Except.ok.inj h)
    exact hall
  · have hmiss : Missed code i (bound.getD i TOP) := by
      rw [List.getD_eq_getElem?_getD] at hcur ⊢
      cases hi : bound[i]? with
      | none => exact missed_top
      | some w => exact hall i w hi
    rw [exitEdges_eq, List.map_map] at h
    refine Keeps.sweep_map ?_ _ _ c hall h
    intro j hj
    exact meet_keeps (hmiss.after hbits hcur hins hj)

omit hbits in
theorem exitHandlerStep_keeps {h : ExcHandler} (hh : h ∈ code.info.exceptionTable)
    (hi : i ∈ covered code.instructions.length h) :
    Keeps (AllMissed code) (exitHandlerStep h.handler.toNat i) := by
  intro bound bound' c hall hrun
  rw [exitHandlerStep] at hrun
  split_ifs at hrun with hcur
  · obtain rfl := congrArg Prod.fst (Except.ok.inj hrun)
    exact hall
  · refine meet_keeps ?_ _ _ c hall hrun
    have hmiss : Missed code i (bound.getD i TOP) := by
      rw [List.getD_eq_getElem?_getD]
      cases hi : bound[i]? with
      | none => exact missed_top
      | some w => exact hall i w hi
    intro b hb hbit
    obtain ⟨locals, hflow, hrest⟩ := hmiss b hb hbit
    exact ⟨locals, hflow.handler hh hi, hrest⟩

theorem exitRound_keeps : Keeps (AllMissed code) (exitRound code bits) := by
  apply Keeps.both
  · apply Keeps.sweep_map
    intro e he
    exact exitStep_keeps hbits (List.mem_zipIdx_iff_getElem?.mp he)
  · apply Keeps.sweep_map
    intro h hh
    exact Keeps.sweep_map fun i hi => exitHandlerStep_keeps hh hi

/-- One word an offset, and nothing is bound at the start. -/
def Shaped (code : Code) (bound : List Word) : Prop :=
  bound.length = code.instructions.length + 1 ∧ bound[0]? = some 0

omit hbits in
theorem meet_shaped : Keeps (Shaped code) (meet j v) := by
  intro bound bound' c hs h
  rw [meet] at h
  cases hj : bound[j]? with
  | none =>
    rw [hj] at h
    obtain rfl := congrArg Prod.fst (Except.ok.inj h)
    exact hs
  | some b =>
    simp only [hj] at h
    split_ifs at h with heq
    · obtain rfl := congrArg Prod.fst (Except.ok.inj h)
      exact hs
    · obtain rfl := congrArg Prod.fst (Except.ok.inj h)
      refine ⟨by rw [List.length_set, hs.1], ?_⟩
      rw [List.getElem?_set_ne]
      · exact hs.2
      · rintro rfl
        rw [hs.2] at hj
        obtain rfl := Option.some.inj hj
        exact heq (BitVec.zero_and)

omit hbits in
theorem exitStep_shaped : Keeps (Shaped code) (exitStep bits i ins) := by
  intro bound bound' c hs h
  rw [exitStep] at h
  split_ifs at h
  · obtain rfl := congrArg Prod.fst (Except.ok.inj h)
    exact hs
  · exact Keeps.sweep_map (fun e _ => meet_shaped) _ _ c hs h

omit hbits in
theorem exitHandlerStep_shaped : Keeps (Shaped code) (exitHandlerStep j i) := by
  intro bound bound' c hs h
  rw [exitHandlerStep] at h
  split_ifs at h
  · obtain rfl := congrArg Prod.fst (Except.ok.inj h)
    exact hs
  · exact meet_shaped _ _ c hs h

omit hbits in
theorem exitRound_shaped : Keeps (Shaped code) (exitRound code bits) := by
  apply Keeps.both
  · exact Keeps.sweep_map fun e _ => exitStep_shaped
  · apply Keeps.sweep_map
    intro h _
    exact Keeps.sweep_map fun i _ => exitHandlerStep_shaped

omit hbits in
theorem not_within_top (hfew : code.info.varnames.countP isExitSlot ≤ 63) :
    ¬Within code TOP locals := by
  intro h
  have hbit : TOP.getLsbD 63 = true := by rw [TOP, BitVec.getLsbD_allOnes]; rfl
  obtain ⟨k, -, hexit, heq⟩ := h 63 hbit
  have hlt := exitBit_lt hexit
  omega

omit hbits in
theorem Within.of_meet (h : Within code v locals) (hw : w &&& v = w) : Within code w locals := by
  intro b hb
  rw [← hw, BitVec.getLsbD_and, Bool.and_eq_true] at hb
  exact h b hb.2

/-- At a fixpoint, what is said at an offset holds on every path to it. -/
theorem within_of_flow (hfew : code.info.varnames.countP isExitSlot ≤ 63) (hs : Shaped code bound)
    (hfix : exitRound code bits bound = .ok (bound, false)) (hflow : Flow code i locals) :
    ∀ w, bound[i]? = some w → Within code w locals := by
  have hquiet : ∀ h ∈ code.info.exceptionTable, Quiet (sweep
      ((covered code.instructions.length h).map (exitHandlerStep h.handler.toNat))) :=
    fun h _ => Quiet.sweep_map fun i _ => exitHandlerStep_quiet
  obtain ⟨-, hsteps, hhandlers⟩ := both_false (Quiet.sweep_map fun e _ => exitStep_quiet)
    (Quiet.sweep_map hquiet) hfix
  induction hflow with
  | entry =>
    intro w hw
    rw [hs.2] at hw
    obtain rfl := Option.some.inj hw
    intro b hb
    simp at hb
  | @step i j locals ins hflow hins hj ih =>
    intro w hw
    have hlt : i < bound.length := by
      have := (List.getElem?_eq_some_iff.mp hins).1
      rw [hs.1]
      omega
    have hcur := ih _ (List.getElem?_eq_getElem hlt)
    have hstep := sweep_map_false (fun e _ => exitStep_quiet) hsteps (ins, i)
      (List.mem_zipIdx_iff_getElem?.mpr hins)
    rw [exitStep, List.getD_eq_getElem?_getD, List.getElem?_eq_getElem hlt, Option.getD_some] at hstep
    split_ifs at hstep with htop
    · rw [htop] at hcur
      exact absurd hcur (not_within_top hfew)
    · rw [exitEdges_eq, List.map_map] at hstep
      have hmeet := sweep_map_false (fun e _ => meet_quiet) hstep j hj
      exact (hcur.after hbits).of_meet (meet_false hmeet hw)
  | @handler i locals h hflow hh hi ih =>
    intro w hw
    have hlt : i < bound.length := by
      have := List.mem_range.mp (List.mem_of_mem_filter hi)
      rw [hs.1]
      omega
    have hcur := ih _ (List.getElem?_eq_getElem hlt)
    have hmeet := sweep_map_false (fun i _ => exitHandlerStep_quiet)
      (sweep_map_false hquiet hhandlers h hh) i hi
    rw [exitHandlerStep, List.getD_eq_getElem?_getD, List.getElem?_eq_getElem hlt,
      Option.getD_some] at hmeet
    split_ifs at hmeet with htop
    · rw [htop] at hcur
      exact absurd hcur (not_within_top hfew)
    · exact hcur.of_meet (meet_false hmeet hw)

end Exact

/-- The analysis as a whole: every offset's word is what all paths to it bind. -/
theorem markBoundExits_exact {code : Code} {fuel : ℕ} {bound : List Word}
    (hfew : code.info.varnames.countP isExitSlot ≤ 63)
    (h : markBoundExits fuel code = .ok (some bound)) :
    bound.length = code.instructions.length + 1 ∧ AllMissed code bound ∧
      ∀ i locals w, Flow code i locals → bound[i]? = some w → Within code w locals := by
  rw [markBoundExits] at h
  cases hbits : slotBits 0 code.info.varnames with
  | none =>
    rw [hbits] at h
    cases h
  | some bits =>
    rw [hbits] at h
    dsimp only at h
    split_ifs at h
    · cases hrun : rounds Fault.diverge (exitRound code bits) fuel
        (0 :: List.replicate code.instructions.length TOP) with
      | error e =>
        rw [hrun] at h
        cases h
      | ok out =>
        rw [hrun] at h
        obtain rfl := Option.some.inj (Except.ok.inj h)
        have hstart : AllMissed code (0 :: List.replicate code.instructions.length TOP) := by
          intro i w hi
          cases i with
          | zero =>
            obtain rfl := Option.some.inj hi
            exact fun b hb _ => ⟨∅, .entry, by simp⟩
          | succ i =>
            rw [List.getElem?_cons_succ, List.getElem?_replicate] at hi
            split_ifs at hi
            obtain rfl := Option.some.inj hi
            exact missed_top
        obtain ⟨hall, hfix⟩ := rounds_ok exitRound_quiet (exitRound_keeps hbits) hstart hrun
        have hshape := (rounds_ok exitRound_quiet exitRound_shaped
          ⟨by simp, rfl⟩ hrun).1
        exact ⟨hshape.1, hall, fun i locals w hflow => within_of_flow hbits hfew hshape hfix hflow w⟩
    · cases h

end WeavePy.LineJump
