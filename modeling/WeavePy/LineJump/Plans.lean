import WeavePy.LineJump.BoundExits

/-!
A jump that is accepted is safe.
-/

namespace WeavePy.LineJump

open NativeCode (ExcHandler)

/-- A target's slot can hold what is in the source's. -/
structure Compatible (source target : Word) : Prop where
  object : target = Kind.Object.word → source ≠ Kind.Null.word
  iterator : target = Kind.Iterator.word → source = Kind.Iterator.word
  except : target = Kind.Except.word → source = Kind.Except.word
  lasti : target = Kind.Lasti.word → source = Kind.Lasti.word

def stackAt (marks : Marks) (i : ℕ) : Word := marks.kindStacks.getD i UNINITIALIZED

def excAt (marks : Marks) (i : ℕ) : ℤ := max (marks.excDepths.getD i (-1)) 0

/-- The stack a jump leaves from; a suspended frame has not pushed the resume slot. -/
def sourceStack (marks : Marks) (curPc : ℕ) (suspended : Bool) : Word :=
  if suspended then popKind (stackAt marks curPc) else stackAt marks curPc

/-- `line` starts at an instruction that is reached. -/
def Starts (code : Code) (marks : Marks) (line : ℤ) (i : ℕ) : Prop :=
  (marklines code)[i]? = some line ∧ stackAt marks i ≠ UNINITIALIZED

/-- Every path to `i` binds the local `k`. -/
def MustBind (code : Code) (i k : ℕ) : Prop := ∀ locals, Flow code i locals → k ∈ locals

variable {code : Code} {marks : Marks} {source : Source} {best best' : Best}
  {boundExits : Option (List Word)} {s t : Word} {i k curPc : ℕ} {line newLineno : ℤ}

theorem compatible_of_compatibleKind (h : compatibleKind s t = true) : Compatible s t := by
  rw [compatibleKind] at h
  split_ifs at h with h0 hobject hnull
  · constructor
    · exact fun _ => of_decide_eq_true h
    · rintro rfl
      cases hobject
    · rintro rfl
      cases hobject
    · rintro rfl
      cases hobject
  · subst hnull
    constructor
    · intro h
      cases h
    · intro h
      cases h
    · intro h
      cases h
    · intro h
      cases h
  · obtain rfl := of_decide_eq_true h
    exact ⟨fun h => absurd h hobject, id, id, id⟩

/-- From the bottom up, the slots of a compatible stack fit one by one. -/
theorem compatibleStack_slots (h : compatibleStack s t = .ok true) :
    (slots t).length ≤ (slots s).length ∧ ∀ (j : ℕ) (a b : Word), (slots s).reverse[j]? = some a →
      (slots t).reverse[j]? = some b → Compatible a b := by
  obtain ⟨-, -, m, hall⟩ := compatibleStack_true h
  have hlen := hall.length_eq
  rw [List.length_drop] at hlen
  refine ⟨by omega, ?_⟩
  intro j a b ha hb
  have hrev : (slots s).reverse = ((slots s).drop m).reverse ++ ((slots s).take m).reverse := by
    rw [← List.reverse_append, List.take_append_drop]
  have hj : j < (slots t).reverse.length := (List.getElem?_eq_some_iff.mp hb).1
  rw [List.length_reverse] at hj
  rw [hrev, List.getElem?_append_left (by rw [List.length_reverse, List.length_drop]; omega)] at ha
  have hfit := List.rel_reverse hall
  rw [List.forall₂_iff_get] at hfit
  obtain ⟨hja, rfl⟩ := List.getElem?_eq_some_iff.mp ha
  obtain ⟨hjb, rfl⟩ := List.getElem?_eq_some_iff.mp hb
  exact compatible_of_compatibleKind (hfit.2 j hja hjb)

/-- What is known of the best target so far. -/
def Chosen (marks : Marks) (boundExits : Option (List Word)) (source : Source)
    (targets : List (ℤ × ℕ)) (best : Best) : Prop :=
  ∀ addr, best.addr = some addr → (∃ l, (l, addr) ∈ targets) ∧ best.stack = stackAt marks addr ∧
    excAt marks addr ≤ source.exc ∧ compatibleStack source.stack best.stack = .ok true ∧
    exitsOk boundExits source.bound addr = true

theorem considerTarget_chosen {targets : List (ℤ × ℕ)} {e : ℤ × ℕ} (he : e ∈ targets)
    (hbest : Chosen marks boundExits source targets best)
    (h : considerTarget marks boundExits source best e.2 = .ok best') :
    Chosen marks boundExits source targets best' := by
  rw [considerTarget] at h
  split_ifs at h with hexits
  · obtain ⟨ok, hok, h⟩ := bind_eq_ok.mp h
    obtain rfl := Except.ok.inj h
    rw [accepts] at hok
    split_ifs at hok with hexc
    · cases ok with
      | false => exact hbest
      | true =>
        rw [if_pos rfl, Best.accept]
        split_ifs
        · intro addr haddr
          obtain rfl := Option.some.inj haddr
          exact ⟨⟨e.1, he⟩, rfl, hexc, hok, hexits⟩
        · exact hbest
    · obtain rfl := Except.ok.inj hok
      exact hbest
  · obtain rfl := Except.ok.inj h
    exact hbest

theorem foldlM_keeps {α β : Type} {inv : β → Prop} {f : β → α → Outcome β} {l : List α} {b b' : β}
    (hstep : ∀ a ∈ l, ∀ b b', inv b → f b a = .ok b' → inv b') (hb : inv b)
    (h : l.foldlM f b = .ok b') : inv b' := by
  induction l generalizing b with
  | nil =>
    obtain rfl := Except.ok.inj h
    exact hb
  | cons a l ih =>
    rw [List.foldlM_cons] at h
    obtain ⟨c, hc, h⟩ := bind_eq_ok.mp h
    exact ih (fun a ha => hstep a (List.mem_cons_of_mem _ ha))
      (hstep a List.mem_cons_self b c hb hc) h

theorem mem_reachedLines {l : ℤ} : (l, i) ∈ reachedLines code marks ↔ Starts code marks l i := by
  rw [reachedLines, List.mem_filter, List.mem_zipIdx_iff_getElem?]
  simp [Starts, stackAt]

/-- The line found is the least of those that will do. -/
theorem resolveLine_least {lines : List (ℤ × ℕ)} (h : resolveLine newLineno lines = some line) :
    (∃ i, (line, i) ∈ lines) ∧ newLineno ≤ line ∧
      ∀ e ∈ lines, newLineno ≤ e.1 → line ≤ e.1 := by
  have hfold : ∀ (l : List (ℤ × ℕ)) (r : Option ℤ),
      (∀ x, r = some x → newLineno ≤ x) →
      ∀ x, l.foldl (fun resolved e =>
          if newLineno ≤ e.1 ∧ resolved.all (e.1 < ·) then some e.1 else resolved) r = some x →
        (r = some x ∨ ∃ i, (x, i) ∈ l) ∧ newLineno ≤ x ∧ (∀ y, r = some y → x ≤ y) ∧
          ∀ e ∈ l, newLineno ≤ e.1 → x ≤ e.1 := by
    intro l
    induction l with
    | nil =>
      rintro r hr x rfl
      exact ⟨.inl rfl, hr x rfl, fun y hy => (Option.some.inj hy).le, by simp⟩
    | cons e l ih =>
      intro r hr x hx
      rw [List.foldl_cons] at hx
      split_ifs at hx with hcase
      · obtain ⟨hfrom, hle, hmin, hrest⟩ := ih (some e.1)
          (fun y hy => (Option.some.inj hy) ▸ hcase.1) x hx
        refine ⟨?_, hle, ?_, ?_⟩
        · right
          rcases hfrom with hfrom | ⟨i, hi⟩
          · exact ⟨e.2, by rw [← Option.some.inj hfrom]; exact List.mem_cons_self⟩
          · exact ⟨i, List.mem_cons_of_mem _ hi⟩
        · rintro y rfl
          have hlt := hcase.2
          simp only [Option.all_some, decide_eq_true_eq] at hlt
          exact (hmin _ rfl).trans hlt.le
        · intro e' he' hnew
          rcases List.mem_cons.mp he' with rfl | he'
          · exact hmin _ rfl
          · exact hrest e' he' hnew
      · obtain ⟨hfrom, hle, hmin, hrest⟩ := ih r hr x hx
        refine ⟨?_, hle, hmin, ?_⟩
        · exact hfrom.imp_right fun ⟨i, hi⟩ => ⟨i, List.mem_cons_of_mem _ hi⟩
        · intro e' he' hnew
          rcases List.mem_cons.mp he' with rfl | he'
          · cases r with
            | none => exact absurd ⟨hnew, rfl⟩ hcase
            | some y =>
              simp only [Option.all_some, decide_eq_true_eq, not_and, not_lt] at hcase
              exact (hmin y rfl).trans (hcase hnew)
          · exact hrest e' he' hnew
  obtain ⟨hfrom, hle, -, hmin⟩ := hfold lines none (by simp) line h
  exact ⟨hfrom.resolve_left (by simp), hle, hmin⟩

theorem length_marklinesFrom (l : List Instruction) (last : ℤ) :
    (marklinesFrom code i l last).length = l.length := by
  induction l generalizing i last with
  | nil => rfl
  | cons _ l ih =>
    rw [marklinesFrom]
    split_ifs <;> simp [ih]

theorem length_marklines : (marklines code).length = code.instructions.length :=
  length_marklinesFrom _ _

/-- What the target needs bound is bound at the source. -/
theorem exitsOk_mustBind {fuel : ℕ} (hfew : code.info.varnames.countP isExitSlot ≤ 63)
    (hbound : markBoundExits fuel code = .ok boundExits)
    (hi : i < code.instructions.length + 1)
    (h : exitsOk boundExits ((boundExits.bind (·[curPc]?)).getD 0) i = true)
    (hk : IsExit code.info.varnames k) (hreach : ∃ locals, Flow code i locals)
    (hmust : MustBind code i k) : MustBind code curPc k := by
  cases boundExits with
  | none =>
    obtain ⟨bits, hbits⟩ := @slotBits_isSome code.info.varnames 0 (by omega)
    obtain ⟨name, hname, hexit⟩ := hk
    rw [markBoundExits, hbits] at hbound
    dsimp only at hbound
    rw [if_pos (List.any_eq_true.mpr ⟨name, List.mem_of_getElem? hname, hexit⟩)] at hbound
    cases hrun : Rounds.rounds Fault.diverge (exitRound code bits) fuel
        (0 :: List.replicate code.instructions.length TOP) with
    | error e =>
      rw [hrun] at hbound
      cases hbound
    | ok out =>
      rw [hrun] at hbound
      cases Except.ok.inj hbound
  | some bound =>
    obtain ⟨hlen, hmissed, hwithin⟩ := markBoundExits_exact hfew hbound
    have hget : bound[i]? = some bound[i] := List.getElem?_eq_getElem (by omega)
    obtain ⟨locals, hflow⟩ := hreach
    have hbit : bound[i].getLsbD (exitBit code.info.varnames k) = true := by
      by_contra hno
      have hlt := exitBit_lt hk
      obtain ⟨locals, hflow, hmiss⟩ := hmissed i _ hget _ (by omega) (Bool.eq_false_iff.mpr hno)
      exact hmiss k (hmust locals hflow) hk rfl
    rw [exitsOk, Option.bind_some, hget] at h
    rcases of_decide_eq_true h with htop | hnone
    · have hw := hwithin i locals _ hflow hget
      rw [htop] at hw
      exact absurd hw (not_within_top hfew)
    · intro locals' hflow'
      rw [Option.bind_some] at hnone
      have hsource : ((bound[curPc]?).getD 0).getLsbD (exitBit code.info.varnames k) = true := by
        have hzero := congrArg (BitVec.getLsbD · (exitBit code.info.varnames k)) hnone
        have hlt := exitBit_lt hk
        simp only [BitVec.getLsbD_and, BitVec.getLsbD_not, hbit, Bool.true_and,
          show exitBit code.info.varnames k < 64 by omega, decide_true] at hzero
        simpa using hzero
      cases hcur : bound[curPc]? with
      | none =>
        rw [hcur] at hsource
        simp at hsource
      | some w =>
        rw [hcur] at hsource
        obtain ⟨k', hk', hexit', heq⟩ := hwithin curPc locals' w hflow' hcur _ hsource
        rwa [exitBit_inj hk hexit' heq]

theorem firstLineno_pos : 0 < firstLineno code := by
  rw [firstLineno]
  split_ifs
  · exact one_pos
  · cases hfind : code.info.linetable.find? (0 < ·) with
    | none => decide
    | some l =>
      have hl := List.find?_some hfind
      have hpos : 0 < l.toNat := by simpa [UInt32.lt_iff_toNat_lt] using hl
      exact_mod_cast hpos

/-- An accepted jump leaves a stack that fits, handlers that were entered, and no unbound exit. -/
theorem accepted_jump_safe {checks suspended : Bool} {fuel resolved : ℕ} {plan : PendingJump}
    (h : computeJump checks fuel code curPc newLineno suspended = .ok (.ok (plan, resolved))) :
    ∃ marks, markStacks checks fuel code = .ok marks ∧
      (0 ≤ (sourceStack marks curPc suspended).toInt ∧ 0 ≤ (stackAt marks plan.targetPc).toInt) ∧
      (plan.targetDepth = (slots (stackAt marks plan.targetPc)).length ∧
        plan.targetDepth ≤ (slots (sourceStack marks curPc suspended)).length) ∧
      (∀ (j : ℕ) (s t : Word), (slots (sourceStack marks curPc suspended)).reverse[j]? = some s →
        (slots (stackAt marks plan.targetPc)).reverse[j]? = some t → Compatible s t) ∧
      (excAt marks plan.targetPc ≤ excAt marks curPc ∧
        (plan.excPops : ℤ) = excAt marks curPc - excAt marks plan.targetPc) ∧
      (code.info.varnames.countP isExitSlot ≤ 63 → ∀ k, IsExit code.info.varnames k →
        (∃ locals, Flow code plan.targetPc locals) →
        MustBind code plan.targetPc k → MustBind code curPc k) ∧
      Starts code marks resolved plan.targetPc ∧ newLineno ≤ resolved ∧
      ∀ line i, Starts code marks line i → newLineno ≤ line → resolved ≤ line := by
  rw [computeJump] at h
  by_cases hfirst : newLineno < firstLineno code
  · rw [if_pos hfirst] at h
    cases Except.ok.inj h
  · rw [if_neg hfirst] at h
    obtain ⟨marks, hmarks, h⟩ := bind_eq_ok.mp h
    refine ⟨marks, hmarks, ?_⟩
    cases hline : resolveLine newLineno (reachedLines code marks) with
    | none =>
      rw [hline] at h
      cases Except.ok.inj h
    | some line =>
      rw [hline] at h
      obtain ⟨boundExits, hbound, h⟩ := bind_eq_ok.mp h
      obtain ⟨best, hbest, h⟩ := bind_eq_ok.mp h
      have hchosen := foldlM_keeps
        (fun e he b b' hb hrun => considerTarget_chosen he hb hrun)
        (fun addr haddr => by cases haddr) hbest
      cases haddr : best.addr with
      | none =>
        simp only [haddr] at h
        cases Except.ok.inj h
      | some addr =>
        simp only [haddr] at h
        obtain ⟨depth, hdepth, h⟩ := bind_eq_ok.mp h
        obtain ⟨hplan, hresolved⟩ := Prod.mk.inj (Except.ok.inj (Except.ok.inj h))
        obtain ⟨⟨l, hmem⟩, hstack, hexc, hcompat, hexits⟩ := hchosen addr haddr
        subst hplan
        obtain ⟨hfrom, hnew, hleast⟩ := resolveLine_least hline
        have hpos := @firstLineno_pos code
        have hres : (resolved : ℤ) = line := by omega
        obtain ⟨hmem', hl⟩ := List.mem_filter.mp hmem
        have hlast : l = line := of_decide_eq_true hl
        subst hlast
        have hstarts := mem_reachedLines.mp hmem'
        obtain ⟨hsource, htarget, -⟩ := compatibleStack_true hcompat
        obtain ⟨hdepths, hslots⟩ := compatibleStack_slots hcompat
        rw [hstack] at htarget hdepths hslots hdepth
        rw [stackDepth_ok htarget] at hdepth
        obtain rfl := Except.ok.inj hdepth
        refine ⟨⟨hsource, htarget⟩, ⟨rfl, hdepths⟩, hslots, ⟨hexc, ?_⟩, ?_, ?_, ?_, ?_⟩
        · exact Int.toNat_of_nonneg (sub_nonneg.mpr hexc)
        · intro hfew k hk hreach hmust
          have hlen := (List.getElem?_eq_some_iff.mp hstarts.1).1
          exact exitsOk_mustBind hfew hbound (by rw [length_marklines] at hlen; omega) hexits hk
            hreach hmust
        · rw [hres]
          exact hstarts
        · omega
        · intro line' i hi hle
          rw [hres]
          exact hleast _ (mem_reachedLines.mpr hi) hle

def bareCode (varnames : List String) (instructions : List Instruction) (linetable : List UInt32)
    (exceptionTable : List ExcHandler) : Code :=
  ⟨⟨"f", "f", "f.py", 0, 0, 0, false, false, false, false, false, false, false, false, false,
      false, false, 0, none⟩,
    ⟨instructions, [], varnames, [], [], exceptionTable, linetable, [], [], [], [], [], false⟩, []⟩

/-- `for` over an iterator on line 1, its body on line 2: out of the body to line 3. -/
def loopCode : Code :=
  bareCode ["x"] [⟨.LoadFast, 0⟩, ⟨.GetIter, 0⟩, ⟨.ForIter, 2⟩, ⟨.StoreFast, 0⟩, ⟨.JumpBackward, 3⟩,
    ⟨.EndFor, 0⟩, ⟨.PopIter, 0⟩, ⟨.LoadConst, 0⟩, ⟨.ReturnValue, 0⟩] [1, 1, 1, 2, 2, 1, 1, 3, 3] []

theorem jump_out_of_loop : ∃ marks, markStacks true 4 loopCode = .ok marks ∧
    Starts loopCode marks 3 7 ∧ (slots (stackAt marks 7)).length ≤
      (slots (sourceStack marks 3 false)).length := by
  obtain ⟨marks, hmarks, -, hdepth, -, -, -, hstarts, -⟩ := accepted_jump_safe
    (show computeJump true 4 loopCode 3 3 false = .ok (.ok (⟨7, 0, 0⟩, 3)) by decide +kernel)
  exact ⟨marks, hmarks, hstarts, hdepth.1 ▸ hdepth.2⟩

/-- One `with` exit more than there are bits. -/
def manyExits : Code :=
  bareCode (List.replicate 65 ".with_exit") [⟨.LoadConst, 0⟩, ⟨.StoreFast, 0⟩, ⟨.Nop, 0⟩] [1, 1, 2] []

theorem manyExits_mustBind : MustBind manyExits 2 0 := by
  have hflow : ∀ i locals, Flow manyExits i locals → i = 2 → 0 ∈ locals := by
    intro i locals h
    induction h with
    | entry =>
      intro h
      cases h
    | @step i j locals ins hflow hins hj ih =>
      rintro rfl
      match i with
      | 0 =>
        obtain rfl := Option.some.inj hins
        cases List.mem_singleton.mp hj
      | 1 =>
        obtain rfl := Option.some.inj hins
        exact Finset.mem_insert_self _ _
      | 2 =>
        obtain rfl := Option.some.inj hins
        cases List.mem_singleton.mp hj
      | i + 3 => cases hins
    | handler _ h => cases h
  exact fun locals h => hflow 2 locals h rfl

theorem manyExits_jump : computeJump true 3 manyExits 0 2 false = .ok (.ok (⟨2, 0, 0⟩, 2)) ∧
    IsExit manyExits.info.varnames 0 ∧ (∃ locals, Flow manyExits 2 locals) ∧
    MustBind manyExits 2 0 ∧ ¬MustBind manyExits 0 0 := by
  refine ⟨by decide +kernel, ⟨".with_exit", rfl, by decide +kernel⟩, ?_, manyExits_mustBind, ?_⟩
  · have hone := Flow.step (i := 0) (j := 1) (@Flow.entry manyExits) rfl (by decide)
    exact ⟨_, hone.step (j := 2) rfl (by decide)⟩
  · intro h
    exact absurd (h ∅ .entry) (by simp)

end WeavePy.LineJump
