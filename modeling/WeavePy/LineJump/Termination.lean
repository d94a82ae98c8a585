import WeavePy.LineJump.Joins
import WeavePy.LineJump.Plans

/-!
The analyses end where no handler is too deep and no swap reaches past the word.
-/

namespace WeavePy.LineJump

open NativeCode (ExcHandler)
open Rounds

/-- Control, or a handler of what it reaches, can be at an offset. -/
inductive Reach (code : Code) : ℕ → Prop where
  | entry : Reach code 0
  | step {i j : ℕ} {ins : Instruction} : Reach code i → code.instructions[i]? = some ins →
    j ∈ nextOffsets ins i → Reach code j
  | handler {h : ExcHandler} : h ∈ code.info.exceptionTable → Reach code h.start.toNat →
    Reach code h.handler.toNat

/-- Every reached swap stays inside the word, every reached stack effect is a `u32`, and every
handler of reached code keeps no more entries than the word has. -/
structure Analyzable (code : Code) : Prop where
  swap : ∀ i arg, Reach code i → code.instructions[i]? = some ⟨.Swap, arg⟩ → arg.toNat ≤ 22
  effect : ∀ i ins, Reach code i → code.instructions[i]? = some ins →
    ∃ effect, plainEffect true code i ins = .ok effect
  depth : ∀ h ∈ code.info.exceptionTable, Reach code h.start.toNat →
    h.handler.toNat ≤ code.instructions.length → h.depth.toNat ≤ 21

variable {code : Code} {checks : Bool} {i n : ℕ} {ins : Instruction} {w cur m s t : Word} {exc : ℤ}
  {marks : Marks}

theorem popWhile_returns (hm : 0 ≤ m.toInt) (hw : w.toInt < 8 ^ n) :
    ∃ out, popWhile (fun stack => m.toInt < stack.toInt) (n + 1) w = .ok out := by
  induction n generalizing w with
  | zero =>
    rw [popWhile, if_neg (by omega)]
    exact ⟨w, rfl⟩
  | succ n ih =>
    rw [popWhile]
    split_ifs
    · apply ih
      rw [popKind_toInt]
      rw [pow_succ] at hw
      omega
    · exact ⟨w, rfl⟩

theorem popWhile_popFuel (hm : 0 ≤ m.toInt) :
    ∃ out, popWhile (fun stack => m.toInt < stack.toInt) popFuel w = .ok out := by
  apply popWhile_returns hm
  calc w.toInt < 2 ^ 63 := w.toInt_lt
    _ ≤ 8 ^ 63 := by norm_num

theorem iterate_sound (h : Sound w) (k : ℕ) : Sound (popKind^[k] w) := by
  induction k generalizing w with
  | zero => exact h
  | succ k ih => exact ih h.pop

theorem iterate_push_sound (h : Sound w) (kind : Kind) (k : ℕ) :
    Sound ((pushKind · kind)^[k] w) := by
  induction k generalizing w with
  | zero => exact h
  | succ k ih => exact ih h.push

theorem levelMax_nonneg {shift : ℕ} (h : shift ≤ 60) : 0 ≤ (MASK <<< shift).toInt := by
  apply toInt_nonneg
  have hpow : 2 ^ shift ≤ 2 ^ 60 := Nat.pow_le_pow_right (by omega) h
  rw [BitVec.toNat_shiftLeft, Nat.shiftLeft_eq, show MASK.toNat = 7 from rfl]
  apply (Nat.mod_le _ _).trans_lt
  omega

theorem popToLevel_ok (h : Sound w) (hn : n ≤ 21) :
    ∃ out, popToLevel checks w n = .ok out ∧ Sound out := by
  rw [popToLevel]
  split_ifs with h0
  · exact ⟨_, rfl, sound_empty⟩
  · have hshift : shiftAmount checks ((n - 1) * BITS_PER_BLOCK) = .ok ((n - 1) * BITS_PER_BLOCK) :=
      if_pos (by rw [BITS_PER_BLOCK]; omega)
    obtain ⟨out, hout⟩ := popWhile_popFuel (w := w) (m := MASK <<< ((n - 1) * BITS_PER_BLOCK))
      (levelMax_nonneg (by rw [BITS_PER_BLOCK]; omega))
    obtain ⟨k, rfl, -⟩ := popWhile_ok hout
    rw [hshift, ok_bind]
    exact ⟨_, hout, iterate_sound h k⟩

theorem handlerStack_ok {h : ExcHandler} (hs : Sound w) (hdepth : h.depth.toNat ≤ 21) :
    ∃ out, handlerStack checks h w = .ok out ∧ Sound out := by
  obtain ⟨target, htarget, hsound⟩ := @popToLevel_ok checks _ _ hs hdepth
  rw [handlerStack, htarget]
  refine ⟨_, rfl, ?_⟩
  split_ifs
  · exact hsound.push.push
  · exact hsound.push

/-- A stack effect that is a `u32` is the same in both builds. -/
theorem plainEffect_checks {effect : Option (ℕ × ℕ)} (h : plainEffect true code i ins = .ok effect) :
    plainEffect checks code i ins = .ok effect := by
  have hadd : ∀ {a b c}, addU32 true a b = .ok c → addU32 checks a b = .ok c := by
    intro a b c h
    rw [addU32] at h ⊢
    by_cases hlt : a + b < 2 ^ 32
    · rw [if_pos hlt] at h ⊢
      exact h
    · rw [if_neg hlt, if_pos rfl] at h
      cases h
  have hmul : ∀ {a b c}, mulU32 true a b = .ok c → mulU32 checks a b = .ok c := by
    intro a b c h
    rw [mulU32] at h ⊢
    by_cases hlt : a * b < 2 ^ 32
    · rw [if_pos hlt] at h ⊢
      exact h
    · rw [if_neg hlt, if_pos rfl] at h
      cases h
  obtain ⟨op, arg⟩ := ins
  cases op
  case Call =>
    obtain ⟨a, ha, h⟩ := bind_eq_ok.mp h
    exact bind_eq_ok.mpr ⟨a, hadd ha, h⟩
  case CallSelf =>
    obtain ⟨a, ha, h⟩ := bind_eq_ok.mp h
    exact bind_eq_ok.mpr ⟨a, hadd ha, h⟩
  case BuildMap =>
    obtain ⟨a, ha, h⟩ := bind_eq_ok.mp h
    exact bind_eq_ok.mpr ⟨a, hmul ha, h⟩
  case CallKw =>
    rw [plainEffect.eq_def] at h ⊢
    dsimp only at h ⊢
    cases hk : callkwNamesLen code i with
    | none =>
      rw [hk] at h
      exact h
    | some kwc =>
      rw [hk] at h
      dsimp only at h ⊢
      split_ifs at h ⊢
      · obtain ⟨a, ha, h⟩ := bind_eq_ok.mp h
        obtain ⟨b, hb, h⟩ := bind_eq_ok.mp h
        exact bind_eq_ok.mpr ⟨a, hadd ha, bind_eq_ok.mpr ⟨b, hadd hb, h⟩⟩
      · exact h
  all_goals exact h

/-- An arrival where control goes, with a sound stack and a real depth. -/
structure EdgeOk (ins : Instruction) (i : ℕ) (e : Edge) : Prop where
  idx : e.idx ∈ nextOffsets ins i
  sound : Sound e.stack
  exc : 0 ≤ e.exc

theorem edgeOk_next {stack : Word} (hs : Sound stack) (hexc : 0 ≤ exc)
    (hnext : i + 1 ∈ nextOffsets ins i) : ∀ e ∈ [(⟨i + 1, stack, exc⟩ : Edge)], EdgeOk ins i e := by
  intro e he
  obtain rfl := List.mem_singleton.mp he
  exact ⟨hnext, hs, hexc⟩

theorem edgeOk_branch {stack : Word} {j k : ℕ} (hs : Sound stack) (hexc : 0 ≤ exc)
    (hj : j ∈ nextOffsets ins i) (hk : k ∈ nextOffsets ins i) :
    ∀ e ∈ [(⟨j, stack, exc⟩ : Edge), ⟨k, stack, exc⟩], EdgeOk ins i e := by
  intro e he
  rcases List.mem_pair.mp he with rfl | rfl
  · exact ⟨hj, hs, hexc⟩
  · exact ⟨hk, hs, hexc⟩

/-- An instruction that only pops and pushes. -/
theorem transfer_plain_ok {effect : Option (ℕ × ℕ)}
    (hplain : plainEffect checks code i ins = .ok effect) (hs : Sound cur) (hexc : 0 ≤ exc)
    (hnext : i + 1 ∈ nextOffsets ins i) :
    ∃ edges, (do
      match ← plainEffect checks code i ins with
      | some (pops, pushes) =>
        return [(⟨i + 1, (pushKind · .Object)^[pushes] (popKind^[pops] cur), exc⟩ : Edge)]
      | none => return [⟨i + 1, OVERFLOWED, exc⟩] : Outcome (List Edge)) = .ok edges ∧
      ∀ e ∈ edges, EdgeOk ins i e := by
  rw [hplain, ok_bind]
  cases effect with
  | none => exact ⟨_, rfl, edgeOk_next sound_overflowed hexc hnext⟩
  | some effect =>
    exact ⟨_, rfl, edgeOk_next (iterate_push_sound (iterate_sound hs _) _ _) hexc hnext⟩

theorem transfer_ok (hs : Sound cur) (hexc : 0 ≤ exc) (hswap : ins.op = .Swap → ins.arg.toNat ≤ 22)
    (heffect : ∃ effect, plainEffect true code i ins = .ok effect) :
    ∃ edges, transfer checks code i ins cur exc = .ok edges ∧ ∀ e ∈ edges, EdgeOk ins i e := by
  obtain ⟨op, arg⟩ := ins
  obtain ⟨effect, heffect⟩ := heffect
  have hplain := @plainEffect_checks _ checks _ _ _ heffect
  cases op
  case PopJumpIfFalse | PopJumpIfTrue | PopJumpIfNone | PopJumpIfNotNone =>
    exact ⟨_, rfl, edgeOk_branch hs.pop hexc List.mem_cons_self (List.mem_pair.mpr (.inr rfl))⟩
  case Send =>
    exact ⟨_, rfl, edgeOk_branch hs hexc List.mem_cons_self (List.mem_pair.mpr (.inr rfl))⟩
  case ForIter =>
    exact ⟨_, rfl, edgeOk_branch hs.push hexc (List.mem_pair.mpr (.inr rfl)) List.mem_cons_self⟩
  case JumpForward | JumpBackward =>
    refine ⟨_, rfl, fun e he => ?_⟩
    obtain rfl := List.mem_singleton.mp he
    exact ⟨List.mem_singleton_self _, hs, hexc⟩
  case ReturnValue | RaiseVarargs | Reraise => exact ⟨_, rfl, by simp⟩
  case Swap =>
    obtain ⟨out, hout, hsound⟩ := @swapKinds_ok _ (max arg.toNat 2) checks hs
      (max_le (hswap rfl) (by omega))
    exact ⟨_, bind_eq_ok.mpr ⟨out, hout, rfl⟩,
      edgeOk_next hsound hexc (List.mem_singleton_self _)⟩
  case GetIter | GetAiter | GetYieldFromIter | GetAwaitable =>
    exact ⟨_, rfl, edgeOk_next hs.pop.push hexc (List.mem_singleton_self _)⟩
  case CopyTop | PushNull | WithExceptStart =>
    exact ⟨_, rfl, edgeOk_next hs.push hexc (List.mem_singleton_self _)⟩
  case LoadGlobalPushNull =>
    exact ⟨_, rfl, edgeOk_next hs.push.push hexc (List.mem_singleton_self _)⟩
  case LoadMethodAttr | LoadSpecial =>
    exact ⟨_, rfl, edgeOk_next hs.pop.push.push hexc (List.mem_singleton_self _)⟩
  case LoadSuperAttr =>
    refine ⟨_, rfl, edgeOk_next ?_ hexc (List.mem_singleton_self _)⟩
    split_ifs
    · exact hs.pop.pop.pop.push.push
    · exact hs.pop.pop.pop.push
  case PushExcInfo =>
    refine ⟨_, rfl, fun e he => ?_⟩
    obtain rfl := List.mem_singleton.mp he
    exact ⟨List.mem_singleton_self _, hs.pop.push.push, by dsimp only; omega⟩
  case PopExcept =>
    refine ⟨_, rfl, fun e he => ?_⟩
    obtain rfl := List.mem_singleton.mp he
    exact ⟨List.mem_singleton_self _, hs.pop, le_max_right _ _⟩
  all_goals exact transfer_plain_ok hplain hs hexc (List.mem_singleton_self _)

/-- One word and one depth an offset, and only what control reaches is marked. -/
structure Marked (code : Code) (marks : Marks) : Prop where
  stacksLen : marks.kindStacks.length = code.instructions.length + 1
  depthsLen : marks.excDepths.length = code.instructions.length + 1
  reached : ∀ i w, marks.kindStacks[i]? = some w → w = UNINITIALIZED ∨ Sound w ∧ Reach code i

def depthRank (depth : ℤ) : ℕ := if depth = -1 then 1 else 0

/-- How many more changes the marks allow. -/
def markRank (marks : Marks) : ℕ :=
  (marks.kindStacks.map wordRank).sum + (marks.excDepths.map depthRank).sum

theorem Marked.set (h : Marked code marks) {idx : ℕ} {stack : Word} {depth : ℤ}
    (hs : stack = UNINITIALIZED ∨ Sound stack ∧ Reach code idx) :
    Marked code ⟨marks.kindStacks.set idx stack, marks.excDepths.set idx depth⟩ := by
  refine ⟨by simpa using h.stacksLen, by simpa using h.depthsLen, ?_⟩
  intro i w hi
  dsimp only at hi
  rw [List.getElem?_set] at hi
  split_ifs at hi with hidx hlt
  · obtain rfl := Option.some.inj hi
    exact hidx ▸ hs
  · exact h.reached i w hi

theorem markRank_set {idx : ℕ} {old new : Word} {depth depth' : ℤ}
    (hold : marks.kindStacks[idx]? = some old) (hdepth : marks.excDepths[idx]? = some depth) :
    markRank ⟨marks.kindStacks.set idx new, marks.excDepths.set idx depth'⟩ +
      (wordRank old + depthRank depth) = markRank marks + (wordRank new + depthRank depth') := by
  have hstacks := sum_map_set wordRank hold new
  have hdepths := sum_map_set depthRank hdepth depth'
  simp only [markRank]
  omega

theorem set_getElem?_self {α : Type} {l : List α} {k : ℕ} {a : α} (h : l[k]? = some a) :
    l.set k a = l := by
  obtain ⟨hk, rfl⟩ := List.getElem?_eq_some_iff.mp h
  exact List.set_getElem_self hk

theorem merge_settles {idx : ℕ} (hs : Sound w) (hexc : 0 ≤ exc) (hreach : Reach code idx) :
    Settles (Marked code) markRank (merge idx w exc) := by
  intro marks hm
  cases hold : marks.kindStacks[idx]? with
  | none => exact ⟨marks, false, by rw [merge, hold], hm, rfl⟩
  | some old =>
    cases hdepth : marks.excDepths[idx]? with
    | none =>
      have h1 := List.getElem?_eq_none_iff.mp hdepth
      have h2 := (List.getElem?_eq_some_iff.mp hold).1
      rw [hm.depthsLen] at h1
      rw [hm.stacksLen] at h2
      omega
    | some depth =>
      obtain ⟨new, hnew, hcase⟩ := @mergeStack_ok _ old hs
      have hrank := @markRank_set _ _ _ new _ (if depth = -1 then exc else depth) hold hdepth
      have hrun : merge idx w exc marks = .ok (⟨marks.kindStacks.set idx new,
          marks.excDepths.set idx (if depth = -1 then exc else depth)⟩,
          decide (old = UNINITIALIZED ∨ new ≠ old ∨ depth = -1)) := by
        simp only [merge, hold, hdepth]
        rw [hnew]
        rfl
      refine ⟨_, _, hrun, hm.set ?_, ?_⟩
      · rcases hcase with ⟨rfl, -⟩ | ⟨hsound, -⟩
        · exact hm.reached idx _ hold
        · exact .inr ⟨hsound, hreach⟩
      · by_cases hneg : depth = -1
        · rw [if_pos (decide_eq_true (.inr (.inr hneg)))]
          rw [if_pos hneg, depthRank, if_pos hneg, depthRank, if_neg (by omega)] at hrank
          rw [if_pos hneg]
          rcases hcase with ⟨rfl, -⟩ | ⟨-, hlt⟩
          · omega
          · omega
        · rw [if_neg hneg] at hrank ⊢
          rcases hcase with ⟨rfl, hinit⟩ | ⟨-, hlt⟩
          · rw [if_neg (by simp [hinit, hneg])]
            rw [set_getElem?_self hold, set_getElem?_self hdepth]
          · have hne : new ≠ old := by
              rintro rfl
              exact lt_irrefl _ hlt
            rw [if_pos (decide_eq_true (.inr (.inl hne)))]
            omega

theorem markStep_settles (ha : Analyzable code) (hins : code.instructions[i]? = some ins) :
    Settles (Marked code) markRank (markStep checks code i ins) := by
  intro marks hm
  rw [markStep]
  by_cases hcur : marks.kindStacks.getD i UNINITIALIZED = UNINITIALIZED
  · rw [if_pos hcur]
    exact ⟨marks, false, rfl, hm, rfl⟩
  · rw [if_neg hcur]
    have hi : i < marks.kindStacks.length := by
      have := (List.getElem?_eq_some_iff.mp hins).1
      rw [hm.stacksLen]
      omega
    have hget := List.getElem?_eq_getElem hi
    rw [List.getD_eq_getElem?_getD, hget, Option.getD_some] at hcur ⊢
    obtain ⟨hsound, hreach⟩ := (hm.reached i _ hget).resolve_left hcur
    obtain ⟨edges, hedges, hall⟩ := @transfer_ok code checks i ins _
      (max (marks.excDepths.getD i (-1)) 0) hsound (le_max_right _ _)
      (fun hop => ha.swap i ins.arg hreach (by rw [hins, ← hop])) (ha.effect i ins hreach hins)
    rw [hedges]
    apply Settles.sweep_map _ marks hm
    intro e he
    exact merge_settles (hall e he).sound (hall e he).exc (hreach.step hins (hall e he).idx)

theorem handlerStep_settles (ha : Analyzable code) {h : ExcHandler}
    (hh : h ∈ code.info.exceptionTable) :
    Settles (Marked code) markRank (handlerStep checks h) := by
  intro marks hm
  rw [handlerStep]
  by_cases hcase : marks.kindStacks.getD h.start.toNat UNINITIALIZED ≠ UNINITIALIZED ∧
      marks.kindStacks[h.handler.toNat]? = some UNINITIALIZED
  · rw [if_pos hcase]
    obtain ⟨hstart, hhandler⟩ := hcase
    rw [List.getD_eq_getElem?_getD] at hstart ⊢
    cases hget : marks.kindStacks[h.start.toNat]? with
    | none =>
      rw [hget] at hstart
      exact absurd rfl hstart
    | some start =>
      rw [hget] at hstart
      obtain ⟨hsound, hreach⟩ := (hm.reached _ _ hget).resolve_left hstart
      have hlt := (List.getElem?_eq_some_iff.mp hhandler).1
      rw [hm.stacksLen] at hlt
      obtain ⟨target, htarget, hsound'⟩ := @handlerStack_ok checks _ _ hsound
        (ha.depth h hh hreach (by omega))
      have hdepth := List.getElem?_eq_getElem
        (show h.handler.toNat < marks.excDepths.length by rw [hm.depthsLen]; exact hlt)
      refine ⟨_, true, by rw [Option.getD_some, htarget]; rfl,
        hm.set (.inr ⟨hsound', hreach.handler hh⟩), ?_⟩
      have hrank := @markRank_set _ _ _ target _
        (max (marks.excDepths.getD h.start.toNat (-1)) 0) hhandler hdepth
      have hdown := wordRank_lt hsound'.ne_uninitialized
      have hup : wordRank UNINITIALIZED = 24 := by rw [wordRank, if_pos rfl]
      have hzero : depthRank (max (marks.excDepths.getD h.start.toNat (-1)) 0) = 0 := by
        rw [depthRank, if_neg]
        have := le_max_right (marks.excDepths.getD h.start.toNat (-1)) 0
        omega
      rw [if_pos rfl]
      omega
  · rw [if_neg hcase]
    exact ⟨marks, false, rfl, hm, rfl⟩

theorem markRound_settles (ha : Analyzable code) :
    Settles (Marked code) markRank (markRound checks code) := by
  apply Settles.both
  · apply Settles.sweep_map
    intro e he
    exact markStep_settles ha (List.mem_zipIdx_iff_getElem?.mp he)
  · apply Settles.sweep_map
    exact fun h hh => handlerStep_settles ha hh

theorem marked_start : Marked code (markStart code) := by
  refine ⟨by simp [markStart], by simp [markStart], ?_⟩
  intro i w hi
  cases i with
  | zero =>
    obtain rfl := Option.some.inj hi
    exact .inr ⟨sound_empty, .entry⟩
  | succ i =>
    simp only [markStart, List.getElem?_cons_succ, List.getElem?_replicate] at hi
    split_ifs at hi
    exact .inl (Option.some.inj hi).symm

theorem markStacks_ok (ha : Analyzable code) (hn : markRank (markStart code) < n) :
    ∃ marks, markStacks checks n code = .ok marks := by
  obtain ⟨marks, hmarks, -⟩ := rounds_of_settles
    (@markRound_settles code checks ha) marked_start hn
  exact ⟨marks, hmarks⟩

/-- Meets clear bits. -/
def exitRank (bound : List Word) : ℕ := (bound.map BitVec.toNat).sum

theorem meet_settles {idx : ℕ} : Settles (fun _ => True) exitRank (meet idx w) := by
  intro bound _
  rw [meet]
  cases hget : bound[idx]? with
  | none => exact ⟨bound, false, rfl, trivial, rfl⟩
  | some b =>
    dsimp only
    by_cases hsub : b &&& w = b
    · rw [if_pos hsub]
      exact ⟨bound, false, rfl, trivial, rfl⟩
    · rw [if_neg hsub]
      refine ⟨_, true, rfl, trivial, ?_⟩
      have hlt : (b &&& w).toNat < b.toNat := by
        apply lt_of_le_of_ne
        · rw [BitVec.toNat_and]
          exact Nat.and_le_left
        · intro heq
          exact hsub (BitVec.eq_of_toNat_eq heq)
      have hsum := sum_map_set BitVec.toNat hget (b &&& w)
      rw [if_pos rfl, exitRank, exitRank]
      omega

theorem exitRound_settles {bits : List Word} :
    Settles (fun _ => True) exitRank (exitRound code bits) := by
  apply Settles.both
  · apply Settles.sweep_map
    intro e _ bound _
    rw [exitStep]
    dsimp only
    by_cases hcur : bound.getD e.2 TOP = TOP
    · rw [if_pos hcur]
      exact ⟨bound, false, rfl, trivial, rfl⟩
    · rw [if_neg hcur]
      exact Settles.sweep_map (fun _ _ => meet_settles) bound trivial
  · apply Settles.sweep_map
    intro h _
    apply Settles.sweep_map
    intro i _ bound _
    rw [exitHandlerStep]
    dsimp only
    by_cases hcur : bound.getD i TOP = TOP
    · rw [if_pos hcur]
      exact ⟨bound, false, rfl, trivial, rfl⟩
    · rw [if_neg hcur]
      exact meet_settles bound trivial

theorem markBoundExits_ok
    (hn : exitRank (0 :: List.replicate code.instructions.length TOP) < n) :
    ∃ bound, markBoundExits n code = .ok bound := by
  rw [markBoundExits]
  cases slotBits 0 code.info.varnames with
  | none => exact ⟨none, rfl⟩
  | some bits =>
    dsimp only
    split_ifs
    · obtain ⟨bound, hbound, -⟩ := @rounds_of_settles _ _ _ _ _ Fault.diverge _ _
        (@exitRound_settles code bits) trivial hn
      rw [hbound]
      exact ⟨some bound, rfl⟩
    · exact ⟨none, rfl⟩

theorem stackDepth_returns (w : Word) : ∃ depth, stackDepth w = .ok depth := by
  by_cases h : 0 ≤ w.toInt
  · exact ⟨_, stackDepth_ok h⟩
  · refine ⟨0, ?_⟩
    rw [stackDepth, popFuel, depthLoop, if_neg (by omega)]

theorem compatibleLoop_ok (hs : 0 ≤ s.toInt) (hn : (slots s).length < n) :
    ∃ ok, compatibleLoop n s t = .ok ok := by
  induction n generalizing s t with
  | zero => omega
  | succ n ih =>
    rw [compatibleLoop]
    by_cases h0 : s = 0
    · rw [if_neg (not_not.mpr h0)]
      exact ⟨_, rfl⟩
    · rw [if_pos h0]
      rw [slots_eq hs h0, List.length_cons] at hn
      split_ifs
      · exact ih (popKind_nonneg hs) (by omega)
      · exact ⟨false, rfl⟩

theorem compatibleStack_ok (s t : Word) : ∃ ok, compatibleStack s t = .ok ok := by
  rw [compatibleStack]
  split_ifs with hneg
  · exact ⟨false, rfl⟩
  · rw [not_or, not_lt, not_lt] at hneg
    obtain ⟨left, hleft⟩ := popWhile_popFuel (w := s) hneg.2
    rw [hleft, ok_bind]
    obtain ⟨k, rfl, -⟩ := popWhile_ok hleft
    obtain ⟨hpos, -⟩ := iterate_popKind hneg.1 k
    apply compatibleLoop_ok hpos
    have := slots_length hpos
    rw [popFuel]
    omega

theorem considerTarget_ok (marks : Marks) (boundExits : Option (List Word)) (source : Source)
    (best : Best) (i : ℕ) : ∃ best', considerTarget marks boundExits source best i = .ok best' := by
  rw [considerTarget]
  split_ifs
  · rw [accepts]
    split_ifs
    · obtain ⟨ok, hok⟩ := compatibleStack_ok source.stack (marks.kindStacks.getD i UNINITIALIZED)
      rw [hok]
      exact ⟨_, rfl⟩
    · exact ⟨_, rfl⟩
  · exact ⟨_, rfl⟩

theorem bind_returns {α β ε : Type} {m : Except ε α} {f : α → Except ε β} (hm : ∃ a, m = .ok a)
    (hf : ∀ a, ∃ b, f a = .ok b) : ∃ b, m >>= f = .ok b := by
  obtain ⟨a, rfl⟩ := hm
  exact hf a

theorem foldlM_returns {α β ε : Type} {f : β → α → Except ε β}
    (h : ∀ b a, ∃ b', f b a = .ok b') (l : List α) (b : β) : ∃ b', l.foldlM f b = .ok b' := by
  induction l generalizing b with
  | nil => exact ⟨b, rfl⟩
  | cons a l ih =>
    obtain ⟨b', hb'⟩ := h b a
    rw [List.foldlM_cons, hb']
    exact ih b'

/-- A loop inside a `try`. -/
def guardedLoop : Code :=
  bareCode [] [⟨.LoadConst, 0⟩, ⟨.GetIter, 0⟩, ⟨.ForIter, 2⟩, ⟨.PopTop, 0⟩, ⟨.JumpBackward, 3⟩,
    ⟨.EndFor, 0⟩, ⟨.PopIter, 0⟩, ⟨.ReturnValue, 0⟩, ⟨.PushExcInfo, 0⟩, ⟨.Reraise, 0⟩]
    [1, 1, 1, 2, 2, 1, 1, 3, 4, 4] [⟨2, 5, 8, 1, false⟩]

theorem analyzable_guardedLoop : Analyzable guardedLoop := by
  constructor
  · intro i arg _ h
    have hnone : ∀ ins ∈ guardedLoop.instructions, ins.op ≠ .Swap := by decide
    exact absurd rfl (hnone _ (List.mem_of_getElem? h))
  · intro i ins _ h
    have hnone : ∀ ins ∈ guardedLoop.instructions, ins.op ∈ [OpCode.LoadConst, .GetIter, .ForIter,
        .PopTop, .JumpBackward, .EndFor, .PopIter, .ReturnValue, .PushExcInfo, .Reraise] := by
      decide
    obtain ⟨op, arg⟩ := ins
    have hop := hnone _ (List.mem_of_getElem? h)
    simp only [List.mem_cons, List.not_mem_nil, or_false] at hop
    rcases hop with rfl | rfl | rfl | rfl | rfl | rfl | rfl | rfl | rfl | rfl
    all_goals exact ⟨_, rfl⟩
  · intro h hh _ _
    obtain rfl := List.mem_singleton.mp hh
    decide

/-- A handler that keeps `depth` entries, over an instruction that returns. -/
def deepHandler (depth : UInt32) : Code :=
  bareCode [] [⟨.ReturnValue, 0⟩, ⟨.Nop, 0⟩] [1, 1] [⟨0, 1, 1, depth, false⟩]

end WeavePy.LineJump
