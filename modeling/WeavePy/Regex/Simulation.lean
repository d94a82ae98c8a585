import WeavePy.Regex.Backtrack

/-!
Every operation of the matcher, run side by side with the two kinds of snapshots.
-/

namespace WeavePy.Regex

open Prog

/-- The code at `p`, and the repeats `qs` around it, are from `lo` on. -/
def Low (lo : ℕ) (qs : List ℕ) (p : ℕ) : Prop := lo ≤ p ∧ ∀ q ∈ qs, lo ≤ q

/-- Matching side by side ends alike, on the level of the home. -/
def Simulates (E : Env) (dm dm' : ℕ → Bool → M Bool) : Prop :=
  ∀ {H : Home} {qs : List ℕ} {lo p : ℕ} {s t : Matcher} (top : Bool), H.Ok E.cc.code →
    Rel E.cc.code H qs p s t → Low lo qs p →
    Paired (dm p top) (dm' p top) (Result E.cc.code H lo s t) s t

/-- One op side by side leads on to another op, or ends the match. -/
def Went (code : List ℕ) (H : Home) (lo : ℕ) (qs : List ℕ) (s t : Matcher) :
    Verdict → Verdict → Matcher → Matcher → Prop :=
  Steps (fun c u v => Rel code H qs c.1 u v ∧ Low lo qs c.1 ∧ Trail code lo H.stop s t u v)
    (Result code H lo s t)

variable {E : Env} {dm dm' : ℕ → Bool → M Bool} {fuel : ℕ} {H : Home} {qs : List ℕ}
  {lo p p' e ptr : ℕ} {top : Bool} {s t u v s' t' : Matcher}

theorem Low.mono (h : Low lo qs p) (hp : p ≤ p') : Low lo qs p' := ⟨h.1.trans hp, h.2⟩

theorem Went.of_trail {code : List ℕ} {r r' : Verdict} (h : Trail code lo H.stop s t u v)
    (h' : Went code H lo qs u v r r' s' t') : Went code H lo qs s t r r' s' t' := by
  cases h' with
  | next h' => exact .next ⟨h'.1, h'.2.1, h.trans h'.2.2⟩
  | done h' => exact .done (h'.of_trail h)

section Words

theorem arg_of_word {i w : ℕ} (h : E.word i = .ok w) : arg E.cc.code i = w := by
  unfold Env.word index at h
  unfold arg
  rw [List.getD_eq_getElem?_getD]
  cases hi : E.cc.code[i]? with
  | none => simp [hi] at h
  | some x =>
    rw [hi] at h
    exact Except.ok.inj h

theorem opAt_of_word {i w : ℕ} (h : E.word i = .ok w) : opAt E.cc.code i = Op.ofCode w := by
  unfold Env.word index at h
  unfold opAt
  cases hi : E.cc.code[i]? with
  | none => simp [hi] at h
  | some x =>
    rw [hi] at h
    rw [← Except.ok.inj h]
    rfl

theorem opAt_of_opcode {i : ℕ} {o : Option Op} (h : E.opcode i = .ok o) : opAt E.cc.code i = o := by
  unfold Env.opcode at h
  cases hw : E.word i with
  | error x => simp [hw, Except.map] at h
  | ok w =>
    rw [hw] at h
    exact (opAt_of_word hw).trans (Except.ok.inj h)

end Words

section Steps

theorem paired_setPtr {Q : Unit → Unit → Matcher → Matcher → Prop} (ptr : ℕ)
    (h : Q () () { s with ptr := ptr } { t with ptr := ptr }) :
    Paired (setPtr ptr) (setPtr ptr) Q s t := paired_modify h

theorem paired_repeatAt {Q : RepeatCtx → RepeatCtx → Matcher → Matcher → Prop} {idx : ℕ}
    (htwin : Twin s t) (h : ∀ c, s.repeats[idx]? = some c → Q c c s t) :
    Paired (repeatAt idx) (repeatAt idx) Q s t := by
  apply paired_bind
  apply paired_gets
  rw [htwin.eq (f := Matcher.repeats) fun _ _ => rfl]
  apply paired_lift
  intro c hc
  refine h c ?_
  unfold index at hc
  cases hi : s.repeats[idx]? with
  | none => simp [hi] at hc
  | some x =>
    rw [hi] at hc
    exact congrArg some (Except.ok.inj hc)

/-- A match from a state that differs from the start in nothing that matters. -/
theorem paired_doMatch (hsim : Simulates E dm dm') (hok : H.Ok E.cc.code)
    (hrel : Rel E.cc.code H qs p s t) (hlow : Low lo qs p) (hidle : Idle s t u v) (top : Bool) :
    Paired (dm p top) (dm' p top) (Result E.cc.code H lo s t) u v :=
  paired_mono (hsim top hok (hrel.idle hidle) hlow) fun _ _ _ _ h => h.of_trail hidle.trail

/-- The body of an op that leaves the repeats as they are. -/
theorem paired_body (hsim : Simulates E dm dm') (hwf : WellFormed E.cc.code) (hok : H.Ok E.cc.code)
    (hrel : Rel E.cc.code H qs p s t) {b : ℕ} (hbody : Body E.cc.code p b e)
    (hop : opAt E.cc.code p ≠ some .REPEAT) (hidle : Idle s t u v) (top : Bool) :
    Paired (dm b top) (dm' b top) (fun r r' u' v' => r = r' ∧ Trail E.cc.code b e s t u' v' ∧
      (r = true → Rel E.cc.code H qs e u' v')) u v := by
  have hhome : (bodyHome E.cc.code H qs p b e s.curRepeat s.repeats.length).Ok E.cc.code :=
    bodyHome_ok hrel.chain hbody hwf hok
  have hlow : Low b [] b := ⟨le_rfl, by simp⟩
  refine paired_mono (paired_doMatch hsim hhome (hrel.enter hwf hok hbody hop) hlow hidle top) ?_
  intro r r' u' v' h
  refine ⟨h.same, h.trail, fun hr => ?_⟩
  obtain ⟨x, hexit⟩ := h.exit hr
  exact hrel.leave hwf hok hbody hop h.trail hexit

end Steps

section Items

def IsItem (code : List ℕ) (p : ℕ) : Prop :=
  opAt code p ∈ [some Op.REPEAT_ONE, some .MIN_REPEAT_ONE, some .POSSESSIVE_REPEAT_ONE]

theorem IsItem.body {code : List ℕ} (h : IsItem code p) :
    Body code p (p + 4) (p + 1 + arg code (p + 1)) := by
  unfold Body
  simp only [IsItem, List.mem_cons, List.not_mem_nil, or_false] at h
  rcases h with h | h | h
  all_goals
    rw [h]
    exact ⟨rfl, rfl⟩

theorem paired_count (hsim : Simulates E dm dm') (hwf : WellFormed E.cc.code) (hok : H.Ok E.cc.code)
    (hrel : Rel E.cc.code H qs p s t) (hitem : IsItem E.cc.code p) (hidle : Idle s t u v) (n : ℕ) :
    Paired (count E fuel dm (p + 4) n) (count E fuel dm' (p + 4) n)
      (fun c c' u' v' => c = c' ∧ Idle s t u' v') u v := by
  have hbody := hitem.body
  have hop : opAt E.cc.code p ≠ some .REPEAT := by
    intro h
    simp [IsItem, h] at hitem
  have hflow := hrel.flow hbody.not_until hwf hok
  apply paired_bind
  apply paired_gets
  rw [hidle.twin.eq (f := Matcher.ptr) fun _ _ => rfl]
  apply paired_bind
  apply paired_lift
  intro r _
  cases r with
  | some c => exact paired_pure ⟨rfl, hidle⟩
  | none =>
    have hnone : ∀ i x, MarkAt E.cc.code i x → p + 4 ≤ x → p + 1 + arg E.cc.code (p + 1) ≤ x :=
      fun i x hmark hx => hwf.item hflow hbody hitem hmark (by omega)
    refine paired_seq (Q := fun _ _ a b => Idle s t a b)
      (paired_loop (fun _ a b => Idle s t a b) ?_ hidle) ?_
    · intro _ a b hab
      apply paired_bind
      apply paired_gets
      rw [hab.twin.eq (f := Matcher.ptr) fun _ _ => rfl]
      apply paired_ite
      · intro _
        refine paired_seq (paired_body hsim hwf hok hrel hbody hop hab false) ?_
        rintro r r' a' b' ⟨rfl, htrail, -⟩
        have hab' := htrail.idle hrel.twin hnone
        cases r with
        | true => exact paired_pure (.next hab')
        | false => exact paired_pure (.done hab')
      · intro _
        exact paired_pure (.done hab)
    · intro _ _ a b hab
      apply paired_bind
      apply paired_gets
      rw [hab.twin.eq (f := Matcher.ptr) fun _ _ => rfl]
      apply paired_bind
      apply paired_setPtr
      exact paired_pure ⟨rfl, hab.trans (.ptr hab.twin _)⟩

end Items

section Choices

/-- Between the attempts of a choice at `p`. -/
def Retry (code : List ℕ) (H : Home) (lo : ℕ) (qs : List ℕ) (p : ℕ) (s t u v : Matcher) : Prop :=
  Rel code H qs p u v ∧ Trail code (attemptLow s.curRepeat lo p) H.stop s t u v

/-- What an attempt of a choice at `p` comes to. -/
def Tried (code : List ℕ) (H : Home) (lo : ℕ) (qs : List ℕ) (p : ℕ) (s t : Matcher) (r r' : Bool)
    (u v : Matcher) : Prop :=
  r = r' ∧ (r = true → Result code H lo s t true true u v) ∧ (r = false → Retry code H lo qs p s t u v)

theorem Retry.refl {code : List ℕ} (h : Rel code H qs p s t) : Retry code H lo qs p s t s t :=
  ⟨h, .refl h.twin⟩

theorem Retry.idle {code : List ℕ} (h : Retry code H lo qs p s t u v) (hidle : Idle u v s' t') :
    Retry code H lo qs p s t s' t' := ⟨h.1.idle hidle, h.2.trans hidle.trail⟩

theorem Retry.failed {code : List ℕ} (h : Retry code H lo qs p s t u v) (hlow : Low lo qs p) :
    Result code H lo s t false false u v :=
  ⟨rfl, h.2.mono (le_attemptLow _ hlow.1) le_rfl, nofun⟩

theorem paired_tryAt (hsim : Simulates E dm dm') (hwf : WellFormed E.cc.code) (hok : H.Ok E.cc.code)
    (hrel : Rel E.cc.code H qs p s t) (hlow : Low lo qs p) (hchoice : IsChoice E.cc.code p)
    (hnext : Next E.cc.code p p') (hretry : Retry E.cc.code H lo qs p s t u v) (can : Outcome Bool)
    (ptr : ℕ) (top : Bool) :
    Paired (tryAt dm can (s.snapshot false) p' ptr top) (tryAt dm' can (t.snapshot true) p' ptr top)
      (Tried E.cc.code H lo qs p s t) u v := by
  have hmark : opAt E.cc.code p ≠ some .MARK := by
    intro h
    simp [IsChoice, h] at hchoice
  have hflow := hrel.flow (fun h => h.not_next hnext) hwf hok
  have hlow' : Low (attemptLow s.curRepeat lo p) qs p' := by
    cases hcur : s.curRepeat with
    | some i => exact hlow.mono hnext.lt.le
    | none =>
      obtain ⟨rfl, -⟩ := (hcur ▸ hrel.chain).cur_none
      exact ⟨hnext.lt.le, by simp⟩
  apply paired_bind
  apply paired_lift
  intro c _
  apply paired_ite
  · intro _
    apply paired_bind
    apply paired_setPtr
    refine paired_seq (paired_doMatch hsim hok (hretry.1.next hwf hok hmark hnext) hlow'
      (.ptr hretry.1.twin ptr) top) ?_
    intro r r' a b h
    obtain rfl := h.same
    apply paired_ite
    · rintro rfl
      exact paired_pure ⟨rfl, fun _ => (h.of_trail hretry.2).mono (le_attemptLow _ hlow.1), nofun⟩
    · intro _
      apply paired_bind
      apply paired_modify
      exact paired_pure ⟨rfl, nofun, fun _ => hrel.restore hwf
        (fun g o x hg ho _ _ => hchoice.chosen hflow hg ho) (hretry.2.trans h.trail)⟩
  · intro _
    exact paired_pure ⟨rfl, nofun, fun _ => hretry⟩

theorem paired_branchOp (hsim : Simulates E dm dm') (hwf : WellFormed E.cc.code)
    (hok : H.Ok E.cc.code) (hrel : Rel E.cc.code H qs p s t) (hlow : Low lo qs p)
    (hop : opAt E.cc.code p = some .BRANCH) :
    Paired (branchOp E false fuel dm top (p + 1) ptr) (branchOp E true fuel dm' top (p + 1) ptr)
      (Result E.cc.code H lo s t) s t := by
  have hchoice : IsChoice E.cc.code p := by simp [IsChoice, hop]
  apply paired_bind
  apply paired_gets
  refine paired_loop (fun a u v => Alternative E.cc.code p a ∧ Retry E.cc.code H lo qs p s t u v) ?_
    ⟨.first, .refl hrel⟩
  rintro a u v ⟨ha, hretry⟩
  apply paired_bind
  apply paired_lift
  intro skip hskip
  obtain rfl := arg_of_word hskip
  apply paired_ite
  · intro _
    exact paired_pure (.done (hretry.failed hlow))
  · intro hne
    have hnext : Next E.cc.code p (a + 1) := by
      unfold Next
      rw [hop]
      exact ⟨a, ha, hne, rfl⟩
    refine paired_seq (paired_tryAt hsim hwf hok hrel hlow hchoice hnext hretry _ ptr top) ?_
    rintro r r' u' v' ⟨rfl, hyes, hno⟩
    cases r with
    | true => exact paired_pure (.done (hyes rfl))
    | false => exact paired_pure (.next ⟨ha.next hne, hno rfl⟩)

theorem Result.of_success {code : List ℕ} (h : Rel code H qs p u v) (hop : opAt code p = some .SUCCESS)
    (hwf : WellFormed code) (hok : H.Ok code) (hidle : Idle s t u v) :
    Result code H lo s t true true u v :=
  ⟨rfl, hidle.trail, fun _ => ⟨p, h.success hop hwf hok⟩⟩

theorem opAt_of_endsAt {tail : ℕ} (h : endsAt E top tail ptr = .ok true) :
    opAt E.cc.code tail = some .SUCCESS := by
  unfold endsAt at h
  rw [bind_eq_ok] at h
  obtain ⟨op, hop, h⟩ := h
  rw [opAt_of_opcode hop]
  have h' := Except.ok.inj h
  simp only [Bool.and_eq_true, decide_eq_true_eq] at h'
  exact h'.1.1

theorem paired_repeatOneOp (hsim : Simulates E dm dm') (hwf : WellFormed E.cc.code)
    (hok : H.Ok E.cc.code) (hrel : Rel E.cc.code H qs p s t) (hlow : Low lo qs p)
    (hop : opAt E.cc.code p = some .REPEAT_ONE) :
    Paired (repeatOneOp E false fuel dm top (p + 1) ptr) (repeatOneOp E true fuel dm' top (p + 1) ptr)
      (Result E.cc.code H lo s t) s t := by
  have hchoice : IsChoice E.cc.code p := by simp [IsChoice, hop]
  have hitem : IsItem E.cc.code p := by simp [IsItem, hop]
  apply paired_bind
  apply paired_lift
  intro skip hskip
  obtain rfl := arg_of_word hskip
  apply paired_bind
  apply paired_lift
  intro pmin _
  apply paired_bind
  apply paired_lift
  intro pmax _
  apply paired_ite
  · intro _
    exact paired_pure ((Retry.refl hrel).failed hlow)
  intro _
  apply paired_bind
  apply paired_setPtr
  refine paired_seq (paired_count hsim hwf hok hrel hitem (.ptr hrel.twin ptr) pmax) ?_
  rintro cnt _ u v ⟨rfl, hidle⟩
  have hrel' := hrel.idle hidle
  have hnext := hitem.body.next
  have hmark := hitem.body.not_mark
  apply paired_ite
  · intro _
    exact paired_pure (((Retry.refl hrel').failed hlow).of_trail hidle.trail)
  intro _
  apply paired_bind
  apply paired_lift
  intro ends hends
  apply paired_ite
  · rintro rfl
    apply paired_bind
    apply paired_setPtr
    have hidle' := hidle.trans (.ptr hidle.twin (ptr + cnt))
    exact paired_pure (.of_success ((hrel.idle hidle').next hwf hok hmark hnext)
      (opAt_of_endsAt hends) hwf hok hidle')
  intro _
  apply paired_bind
  apply paired_gets
  apply paired_bind
  apply paired_lift
  intro first _
  refine paired_loop (fun _ => Retry E.cc.code H lo qs p u v) ?_ (.refl hrel')
  intro n u' v' hretry
  apply paired_ite
  · intro _
    exact paired_pure (.done ((hretry.failed hlow).of_trail hidle.trail))
  intro _
  refine paired_seq (paired_tryAt hsim hwf hok hrel' hlow hchoice hnext hretry _ _ top) ?_
  rintro r r' u' v' ⟨rfl, hyes, hno⟩
  cases r with
  | true => exact paired_pure (.done ((hyes rfl).of_trail hidle.trail))
  | false => exact paired_pure (.next (hno rfl))

theorem paired_minRepeatOneOp (hsim : Simulates E dm dm') (hwf : WellFormed E.cc.code)
    (hok : H.Ok E.cc.code) (hrel : Rel E.cc.code H qs p s t) (hlow : Low lo qs p)
    (hop : opAt E.cc.code p = some .MIN_REPEAT_ONE) :
    Paired (minRepeatOneOp E false fuel dm top (p + 1) ptr)
      (minRepeatOneOp E true fuel dm' top (p + 1) ptr) (Result E.cc.code H lo s t) s t := by
  have hchoice : IsChoice E.cc.code p := by simp [IsChoice, hop]
  have hitem : IsItem E.cc.code p := by simp [IsItem, hop]
  have hnext := hitem.body.next
  have hmark := hitem.body.not_mark
  apply paired_bind
  apply paired_lift
  intro skip hskip
  obtain rfl := arg_of_word hskip
  apply paired_bind
  apply paired_lift
  intro pmin _
  apply paired_bind
  apply paired_lift
  intro pmax _
  apply paired_ite
  · intro _
    exact paired_pure ((Retry.refl hrel).failed hlow)
  intro _
  apply paired_bind
  apply paired_setPtr
  refine paired_seq (Q := fun c c' u v => c = c' ∧ Idle s t u v) ?_ ?_
  · apply paired_ite
    · intro _
      exact paired_pure ⟨rfl, .ptr hrel.twin ptr⟩
    · intro _
      exact paired_count hsim hwf hok hrel hitem (.ptr hrel.twin ptr) pmin
  rintro cnt _ u v ⟨rfl, hidle⟩
  have hrel' := hrel.idle hidle
  apply paired_ite
  · intro _
    exact paired_pure (((Retry.refl hrel').failed hlow).of_trail hidle.trail)
  intro _
  apply paired_bind
  apply paired_lift
  intro op hend
  apply paired_ite
  · rintro ⟨rfl, -⟩
    apply paired_bind
    apply paired_setPtr
    have hidle' := hidle.trans (.ptr hidle.twin (ptr + cnt))
    exact paired_pure (.of_success ((hrel.idle hidle').next hwf hok hmark hnext)
      (opAt_of_opcode hend) hwf hok hidle')
  intro _
  apply paired_bind
  apply paired_gets
  apply paired_bind
  apply paired_lift
  intro first _
  refine paired_loop (fun _ => Retry E.cc.code H lo qs p u v) ?_ (.refl hrel')
  rintro ⟨n, pos⟩ u' v' hretry
  apply paired_ite
  · intro _
    exact paired_pure (.done ((hretry.failed hlow).of_trail hidle.trail))
  intro _
  refine paired_seq (paired_tryAt hsim hwf hok hrel' hlow hchoice hnext hretry _ _ top) ?_
  rintro r r' u' v' ⟨rfl, hyes, hno⟩
  apply paired_ite
  · rintro rfl
    exact paired_pure (.done ((hyes rfl).of_trail hidle.trail))
  · intro hr
    have hretry' := hno (eq_false_of_ne_true hr)
    apply paired_bind
    apply paired_setPtr
    refine paired_seq (paired_count hsim hwf hok hretry'.1 hitem (.ptr hretry'.1.twin pos) 1) ?_
    rintro c _ u' v' ⟨rfl, hidle'⟩
    have hretry' := hretry'.idle hidle'
    by_cases hc : c = 0
    · rw [if_pos hc]
      exact paired_pure (.done ((hretry'.failed hlow).of_trail hidle.trail))
    · rw [if_neg hc]
      exact paired_pure (.next hretry')

end Choices

section Groups

/-- A group that is not tested from inside it has the same span in both matchers. -/
theorem groupSpan_eq {g : ℕ} (hrel : Rel E.cc.code H qs p s t) (hok : H.Ok E.cc.code)
    (hflow : Flow E.cc.code p) (hinner : NoInnerTest E.cc.code) (htest : TestsGroup E.cc.code g p) :
    groupSpan g t = groupSpan g s := by
  unfold groupSpan
  rw [hrel.twin.eq (f := Matcher.lastmark) fun _ _ => rfl]
  by_cases hset : s.lastmark ≤ (2 * g : ℕ)
  · rw [if_pos hset, if_pos hset]
  · have hopen : s.marks[2 * g]? = t.marks[2 * g]? := hrel.agree.2 _ (by omega) fun _ _ => by omega
    have hclose : s.marks[2 * g + 1]? = t.marks[2 * g + 1]? := by
      refine hrel.agree.2 _ (by omega) fun g' hg hchosen hin => ?_
      obtain rfl : g = g' := by omega
      exact hinner g p hflow htest hin (hchosen.mono (hrel.chain.since_le hok))
    rw [if_neg hset, if_neg hset]
    simp only [index, hopen, hclose]

theorem paired_groupRefOp (hok : H.Ok E.cc.code) (hwf : WellFormed E.cc.code)
    (hrel : Rel E.cc.code H qs p s t) (hlow : Low lo qs p) (hinner : NoInnerTest E.cc.code) {op : Op}
    (hop : opAt E.cc.code p = some op)
    (hmem : op ∈ [Op.GROUPREF, .GROUPREF_IGNORE, .GROUPREF_UNI_IGNORE, .GROUPREF_LOC_IGNORE])
    (kind : GroupRefKind) :
    Paired (groupRefOp E kind (p + 1) ptr) (groupRefOp E kind (p + 1) ptr)
      (Went E.cc.code H lo qs s t) s t := by
  have hnext : Next E.cc.code p (p + 2) := by
    simp only [List.mem_cons, List.not_mem_nil, or_false] at hmem
    unfold Next
    rcases hmem with rfl | rfl | rfl | rfl <;> simp [hop]
  have hmark : opAt E.cc.code p ≠ some .MARK := by
    rw [hop]
    rintro ⟨rfl⟩
    simp at hmem
  have hflow := hrel.flow (fun h => h.not_next hnext) hwf hok
  have htest : TestsGroup E.cc.code (arg E.cc.code (p + 1)) p := by
    refine ⟨rfl, op, ?_, hop⟩
    simp only [List.mem_cons, List.not_mem_nil, or_false] at hmem ⊢
    tauto
  refine paired_seq (Q := fun r r' u v => r = r' ∧ u = s ∧ v = t) ?_ ?_
  · apply paired_bind
    apply paired_lift
    intro g hg
    obtain rfl := arg_of_word hg
    apply paired_bind
    apply paired_gets
    rw [groupSpan_eq hrel hok hflow hinner htest]
    apply paired_bind
    apply paired_lift
    intro span _
    cases span with
    | none => exact paired_pure ⟨rfl, rfl, rfl⟩
    | some pe => exact paired_lift fun _ _ => ⟨rfl, rfl, rfl⟩
  · rintro r _ _ _ ⟨rfl, rfl, rfl⟩
    cases r with
    | none => exact paired_pure (.done ⟨rfl, .refl hrel.twin, nofun⟩)
    | some ptr =>
      exact paired_pure (.next ⟨hrel.next hwf hok hmark hnext, hlow.mono hnext.lt.le, .refl hrel.twin⟩)

theorem paired_groupRefExistsOp (hok : H.Ok E.cc.code) (hwf : WellFormed E.cc.code)
    (hrel : Rel E.cc.code H qs p s t) (hlow : Low lo qs p) (hinner : NoInnerTest E.cc.code)
    (hop : opAt E.cc.code p = some .GROUPREF_EXISTS) :
    Paired (groupRefExistsOp E (p + 1) ptr) (groupRefExistsOp E (p + 1) ptr)
      (Went E.cc.code H lo qs s t) s t := by
  have hmark : opAt E.cc.code p ≠ some .MARK := by simp [hop]
  have hflow := hrel.flow (fun h => by rcases h with h | h <;> simp [hop] at h) hwf hok
  have htest : TestsGroup E.cc.code (arg E.cc.code (p + 1)) p := ⟨rfl, _, by simp, hop⟩
  apply paired_bind
  apply paired_lift
  intro g hg
  obtain rfl := arg_of_word hg
  apply paired_bind
  apply paired_lift
  intro skip hskip
  obtain rfl := arg_of_word hskip
  apply paired_bind
  apply paired_gets
  rw [groupSpan_eq hrel hok hflow hinner htest]
  apply paired_bind
  apply paired_lift
  intro span _
  have hnext : Next E.cc.code p
      (if span.isSome then p + 1 + 2 else p + 1 + arg E.cc.code (p + 1 + 1)) := by
    unfold Next
    rw [hop]
    split_ifs
    · exact .inl rfl
    · exact .inr rfl
  exact paired_pure (.next ⟨hrel.next hwf hok hmark hnext, hlow.mono hnext.lt.le, .refl hrel.twin⟩)

end Groups

section Assertions

theorem paired_atomicGroupOp (hsim : Simulates E dm dm') (hwf : WellFormed E.cc.code)
    (hok : H.Ok E.cc.code) (hrel : Rel E.cc.code H qs p s t) (hlow : Low lo qs p)
    (hop : opAt E.cc.code p = some .ATOMIC_GROUP) :
    Paired (atomicGroupOp E dm (p + 1) ptr) (atomicGroupOp E dm' (p + 1) ptr)
      (Went E.cc.code H lo qs s t) s t := by
  have hbody : Body E.cc.code p (p + 2) (p + 1 + arg E.cc.code (p + 1)) := by
    unfold Body
    rw [hop]
    exact ⟨rfl, rfl⟩
  apply paired_bind
  apply paired_lift
  intro skip hskip
  obtain rfl := arg_of_word hskip
  apply paired_bind
  apply paired_setPtr
  refine paired_seq (paired_body hsim hwf hok hrel hbody (by simp [hop]) (.ptr hrel.twin ptr) false) ?_
  rintro r _ u v ⟨rfl, htrail, hrel'⟩
  have htrail' := htrail.of_body hrel hwf hok hbody hlow.1
  apply paired_ite
  · intro hr
    apply paired_bind
    apply paired_gets
    rw [htrail.twin.eq (f := Matcher.ptr) fun _ _ => rfl]
    exact paired_pure (.next ⟨hrel' hr, hlow.mono hbody.next.lt.le, htrail'⟩)
  · intro _
    apply paired_bind
    apply paired_setPtr
    exact paired_pure (.done ⟨rfl, htrail'.trans (Idle.ptr htrail.twin ptr).trail, nofun⟩)

theorem paired_assertOp (hsim : Simulates E dm dm') (hwf : WellFormed E.cc.code)
    (hok : H.Ok E.cc.code) (hrel : Rel E.cc.code H qs p s t) (hlow : Low lo qs p)
    (hop : opAt E.cc.code p = some .ASSERT) :
    Paired (assertOp E dm (p + 1) ptr) (assertOp E dm' (p + 1) ptr) (Went E.cc.code H lo qs s t) s t := by
  have hbody : Body E.cc.code p (p + 3) (p + 1 + arg E.cc.code (p + 1)) := by
    unfold Body
    rw [hop]
    exact ⟨rfl, rfl⟩
  apply paired_bind
  apply paired_lift
  intro skip hskip
  obtain rfl := arg_of_word hskip
  apply paired_bind
  apply paired_lift
  intro back _
  apply paired_ite
  · intro _
    exact paired_pure (.done ⟨rfl, .refl hrel.twin, nofun⟩)
  intro _
  refine paired_seq (Q := fun r r' u v => r = r' ∧ Trail E.cc.code lo H.stop s t u v ∧
    (r = true → Rel E.cc.code H qs (p + 1 + arg E.cc.code (p + 1)) u v)) ?_ ?_
  · apply paired_bind
    apply paired_lift
    intro quick _
    cases quick with
    | some r =>
      refine paired_pure ⟨rfl, .refl hrel.twin, fun _ => ?_⟩
      exact hrel.next hwf hok hbody.not_mark hbody.next
    | none =>
      apply paired_bind
      apply paired_setPtr
      refine paired_mono (paired_body hsim hwf hok hrel hbody (by simp [hop])
        (.ptr hrel.twin (ptr - back)) false) ?_
      rintro r _ u v ⟨rfl, htrail, hrel'⟩
      exact ⟨rfl, htrail.of_body hrel hwf hok hbody hlow.1, hrel'⟩
  · rintro r _ u v ⟨rfl, htrail, hrel'⟩
    cases r with
    | true => exact paired_pure (.next ⟨hrel' rfl, hlow.mono hbody.next.lt.le, htrail⟩)
    | false => exact paired_pure (.done ⟨rfl, htrail, nofun⟩)

/-- A negative assertion leaves nothing behind that a group could show. -/
theorem paired_contradicts (hsim : Simulates E dm dm') (hwf : WellFormed E.cc.code)
    (hok : H.Ok E.cc.code) (hrel : Rel E.cc.code H qs p s t) (hlow : Low lo qs p) {b : ℕ}
    (hbody : Body E.cc.code p b e) (hop : opAt E.cc.code p ≠ some .REPEAT) :
    Paired (contradicts E false dm b ptr) (contradicts E true dm' b ptr)
      (fun r r' u v => r = r' ∧ Rel E.cc.code H qs p u v ∧ Trail E.cc.code lo H.stop s t u v) s t := by
  have hflow := hrel.flow hbody.not_until hwf hok
  apply paired_bind
  apply paired_lift
  intro quick _
  cases quick with
  | some r => exact paired_pure ⟨rfl, hrel, .refl hrel.twin⟩
  | none =>
    apply paired_bind
    apply paired_setPtr
    apply paired_bind
    apply paired_gets
    have hidle : Idle s t { s with ptr := ptr } { t with ptr := ptr } := .ptr hrel.twin ptr
    refine paired_seq (paired_body hsim hwf hok hrel hbody hop hidle false) ?_
    rintro r _ u v ⟨rfl, htrail, -⟩
    apply paired_bind
    apply paired_modify
    have hlow' : attemptLow s.curRepeat lo p ≤ b := by
      unfold attemptLow
      split_ifs
      · exact hbody.lt.le
      · exact hlow.1.trans hbody.lt.le
    -- control leaves a group by its end only, which is after the assertion
    have hinside : ∀ g o x, GroupAt E.cc.code g o x → o < p → p ≤ x → x < e → Chosen E.cc.code g p := by
      intro g o x hg ho hx hxe
      have hne : p ≠ x := by
        rintro rfl
        exact hbody.not_mark hg.2.2.1
      have := hwf.nested hg hflow ho (lt_of_le_of_ne hx hne) hbody.next
      omega
    have hattempt := htrail.mono hlow' (le_refl e)
    obtain ⟨hrel', htrail'⟩ := hrel.restore hwf hinside hattempt
    refine paired_pure ⟨rfl, hrel', htrail'.mono (le_attemptLow _ hlow.1) ?_⟩
    exact ((hrel.chain.next hbody.next hwf hok).lt_stop hwf hok).1.le

theorem paired_assertNotOp (hsim : Simulates E dm dm') (hwf : WellFormed E.cc.code)
    (hok : H.Ok E.cc.code) (hrel : Rel E.cc.code H qs p s t) (hlow : Low lo qs p)
    (hop : opAt E.cc.code p = some .ASSERT_NOT) :
    Paired (assertNotOp E false dm (p + 1) ptr) (assertNotOp E true dm' (p + 1) ptr)
      (Went E.cc.code H lo qs s t) s t := by
  have hbody : Body E.cc.code p (p + 3) (p + 1 + arg E.cc.code (p + 1)) := by
    unfold Body
    rw [hop]
    exact ⟨rfl, rfl⟩
  apply paired_bind
  apply paired_lift
  intro skip hskip
  obtain rfl := arg_of_word hskip
  apply paired_bind
  apply paired_lift
  intro back _
  refine paired_seq (Q := fun r r' u v => r = r' ∧ Rel E.cc.code H qs p u v ∧
    Trail E.cc.code lo H.stop s t u v) ?_ ?_
  · apply paired_ite
    · intro _
      exact paired_contradicts hsim hwf hok hrel hlow hbody (by simp [hop])
    · intro _
      exact paired_pure ⟨rfl, hrel, .refl hrel.twin⟩
  · rintro r _ u v ⟨rfl, hrel', htrail⟩
    cases r with
    | true => exact paired_pure (.done ⟨rfl, htrail, nofun⟩)
    | false =>
      refine paired_pure (.next ⟨?_, hlow.mono hbody.next.lt.le, htrail⟩)
      exact hrel'.next hwf hok hbody.not_mark hbody.next

theorem paired_possessiveRepeatOneOp (hsim : Simulates E dm dm') (hwf : WellFormed E.cc.code)
    (hok : H.Ok E.cc.code) (hrel : Rel E.cc.code H qs p s t) (hlow : Low lo qs p)
    (hop : opAt E.cc.code p = some .POSSESSIVE_REPEAT_ONE) :
    Paired (possessiveRepeatOneOp E fuel dm top (p + 1) ptr)
      (possessiveRepeatOneOp E fuel dm' top (p + 1) ptr) (Went E.cc.code H lo qs s t) s t := by
  have hitem : IsItem E.cc.code p := by simp [IsItem, hop]
  have hnext := hitem.body.next
  have hmark := hitem.body.not_mark
  apply paired_bind
  apply paired_lift
  intro skip hskip
  obtain rfl := arg_of_word hskip
  apply paired_bind
  apply paired_lift
  intro pmin _
  apply paired_bind
  apply paired_lift
  intro pmax _
  apply paired_ite
  · intro _
    exact paired_pure (.done ⟨rfl, .refl hrel.twin, nofun⟩)
  intro _
  apply paired_bind
  apply paired_setPtr
  refine paired_seq (paired_count hsim hwf hok hrel hitem (.ptr hrel.twin ptr) pmax) ?_
  rintro cnt _ u v ⟨rfl, hidle⟩
  apply paired_ite
  · intro _
    exact paired_pure (.done ⟨rfl, hidle.trail, nofun⟩)
  intro _
  apply paired_bind
  apply paired_lift
  intro ends hends
  apply paired_ite
  · rintro rfl
    apply paired_bind
    apply paired_setPtr
    have hidle' := hidle.trans (.ptr hidle.twin (ptr + cnt))
    exact paired_pure (.done (.of_success ((hrel.idle hidle').next hwf hok hmark hnext)
      (opAt_of_endsAt hends) hwf hok hidle'))
  · intro _
    refine paired_pure (.next ⟨(hrel.idle hidle).next hwf hok hmark hnext, ?_, hidle.trail⟩)
    exact hlow.mono hnext.lt.le

end Assertions

end WeavePy.Regex
