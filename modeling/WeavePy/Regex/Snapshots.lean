import WeavePy.Regex.Checker
import WeavePy.Regex.Tables

/-!
Cheap snapshots find what full ones find, in code that does not test a group from inside it after a
choice in it.
-/

namespace WeavePy.Regex

open Prog

variable {code : List ℕ} {E : Env} {dm dm' : ℕ → Bool → M Bool} {fuel : ℕ} {H : Home} {qs : List ℕ}
  {lo hi p q e idx ptr pattern : ℕ} {top : Bool} {s t u v s' t' : Matcher}

section Entering

theorem paired_pushRepeat {Q : ℕ → ℕ → Matcher → Matcher → Prop} (htwin : Twin s t)
    (h : Q s.repeats.length s.repeats.length (s.push pattern) (t.push pattern)) :
    Paired (pushRepeat pattern) (pushRepeat pattern) Q s t := by
  apply paired_bind
  apply paired_gets
  rw [htwin.eq (f := fun m => m.repeats.length) fun _ _ => rfl]
  apply paired_bind
  apply paired_modify
  exact paired_pure h

theorem links_push (m : Matcher) :
    links (m.push pattern).repeats = links m.repeats ++ [(pattern, m.curRepeat)] := by
  simp [links, Matcher.push]

theorem link_push (m : Matcher) :
    (links (m.push pattern).repeats)[m.repeats.length]? = some (pattern, m.curRepeat) := by
  rw [links_push]
  simp [links]

/-- A run between entering a repeat and leaving it. -/
theorem Trail.pop (h : Trail code lo hi (s.push pattern) (t.push pattern) u v) :
    Trail code lo hi s t (u.pop s.repeats.length s.curRepeat) (v.pop s.repeats.length s.curRepeat) := by
  refine Trail.frame (s := s) (t := t) (a := u.pop s.repeats.length s.curRepeat)
    (b := v.pop s.repeats.length s.curRepeat) h ⟨rfl, rfl, rfl⟩ ⟨rfl, rfl, rfl⟩ ⟨rfl, rfl, rfl⟩
    ⟨rfl, rfl, rfl⟩ ?_ ?_
  · exact h.twin.map (f := Matcher.pop s.repeats.length s.curRepeat) fun _ _ => rfl
  · refine ⟨?_, rfl, h.same.stop, h.same.recur, h.same.depth⟩
    have hlen : (links s.repeats).length = s.repeats.length := List.length_map ..
    calc links (u.repeats.take s.repeats.length)
        = (links u.repeats).take s.repeats.length := List.map_take ..
      _ = (links s.repeats ++ [(pattern, s.curRepeat)]).take s.repeats.length := by
        rw [h.same.links, links_push]
      _ = links s.repeats := List.take_left' hlen

theorem paired_popRepeat {Q : Unit → Unit → Matcher → Matcher → Prop}
    (hsame : SameRepeats (s.push pattern) u) (htwin : Twin u v)
    (h : Q () () (u.pop s.repeats.length s.curRepeat) (v.pop s.repeats.length s.curRepeat)) :
    Paired (popRepeat s.repeats.length) (popRepeat s.repeats.length) Q u v := by
  apply paired_bind
  apply paired_repeatAt htwin
  intro c hc
  have hlink : (links (s.push pattern).repeats)[s.repeats.length]? = _ := link_push s
  rw [← hsame.links, links, List.getElem?_map, hc] at hlink
  rw [(Prod.mk.inj (Option.some.inj hlink)).2]
  exact paired_modify h

/-- A repeat is entered, at its end. -/
theorem Rel.push (h : Rel code H qs q s t) (hwf : WellFormed code) (hok : H.Ok code)
    (hop : opAt code q = some .REPEAT) :
    Rel code H (q :: qs) (untilOf code q) (s.push (q + 1)) (t.push (q + 1)) := by
  have hbody := body_of_repeat hop
  have hflow := h.flow hbody.not_until hwf hok
  have hle : q ≤ untilOf code q := by
    unfold untilOf
    omega
  have htwin : Twin (s.push (q + 1)) (t.push (q + 1)) :=
    h.twin.map (f := Matcher.push (q + 1)) fun _ _ => rfl
  refine ⟨htwin, ?_, ?_, h.stop_floor, h.stop_at, ?_, ?_⟩
  · refine .body h.floor (link_push s) hop (.inr rfl) ?_
    rw [links_push]
    exact h.chain.append _
  · simpa [Matcher.push] using h.floor.trans (Nat.le_succ _)
  · refine h.fresh.mono ?_
    unfold unseen
    cases H.cur with
    | some i => exact le_rfl
    | none =>
      cases qs with
      | nil => exact hle.trans (Nat.le_succ _)
      | cons r rs => simp [List.getLast?_cons]
  · refine Agree.same (h.agree.of_open ?_ ?_) ⟨rfl, rfl, rfl⟩ ⟨rfl, rfl, rfl⟩
    · unfold since
      cases H.cur with
      | some i => exact le_rfl
      | none =>
        cases qs with
        | nil => exact le_rfl
        | cons r rs => simp [List.getLast?_cons]
    · rintro g ⟨o, c, hg, ho, hc⟩
      have hne : q ≠ c := by
        rintro rfl
        exact hbody.not_mark hg.2.2.1
      have := hwf.nested hg hflow ho (lt_of_le_of_ne hc hne) hbody.next
      exact ⟨o, c, hg, ho.trans_le hle, by omega⟩

theorem paired_repeatOp (hsim : Simulates E dm dm') (hwf : WellFormed E.cc.code) (hok : H.Ok E.cc.code)
    (hrel : Rel E.cc.code H qs p s t) (hlow : Low lo qs p) (hop : opAt E.cc.code p = some .REPEAT) :
    Paired (repeatOp E dm top (p + 1) ptr) (repeatOp E dm' top (p + 1) ptr)
      (Result E.cc.code H lo s t) s t := by
  have hrel' := hrel.push hwf hok hop
  have hlow' : Low lo (p :: qs) (untilOf E.cc.code p) := by
    refine ⟨hlow.1.trans ?_, by simpa [hlow.1] using hlow.2⟩
    unfold untilOf
    omega
  apply paired_bind
  apply paired_lift
  intro skip hskip
  obtain rfl := arg_of_word hskip
  apply paired_bind
  apply paired_pushRepeat hrel.twin
  apply paired_bind
  apply paired_setPtr
  refine paired_seq (paired_doMatch hsim hok hrel' hlow' (.ptr hrel'.twin ptr) top) ?_
  intro r r' u v hr
  apply paired_bind
  apply paired_popRepeat hr.trail.same hr.trail.twin
  refine paired_pure ⟨hr.same, hr.trail.pop, fun h => ?_⟩
  obtain ⟨x, hexit⟩ := hr.exit h
  exact ⟨x, hexit.same ⟨rfl, rfl, rfl⟩ ⟨rfl, rfl, rfl⟩⟩

/-- Between the items of the possessive repeat at `p`, which was entered from `s` and `t`. -/
structure Round (code : List ℕ) (H : Home) (qs : List ℕ) (p e : ℕ) (s t u v : Matcher) : Prop where
  trail : Trail code (p + 4) e (s.push noPattern) (t.push noPattern) u v
  fresh : Fresh code (unseen code H qs e) u.lastmark
  agree : Agree code (since H qs p) e u v

theorem Round.idle (h : Round code H qs p e s t u v) (hidle : Idle u v s' t') :
    Round code H qs p e s t s' t' :=
  ⟨h.trail.trans hidle.trail, by rw [hidle.left.lastmark]; exact h.fresh,
    h.agree.same hidle.left.toSameCaptures hidle.right.toSameCaptures⟩

/-- The home of its items. -/
def itemHome (code : List ℕ) (H : Home) (qs : List ℕ) (p e : ℕ) (s : Matcher) : Home :=
  bodyHome code H qs p (p + 4) e (some s.repeats.length) (s.repeats.length + 1)

theorem Round.start (hrel : Rel code H qs p s t) (hwf : WellFormed code) (hok : H.Ok code)
    (hbody : Body code p (p + 4) e) : Round code H qs p e s t (s.push noPattern) (t.push noPattern) where
  trail := .refl (hrel.twin.map (f := Matcher.push noPattern) fun _ _ => rfl)
  fresh := hrel.fresh.mono (unseen_mono H qs hbody.next.lt.le)
  agree := by
    have hflow := hrel.flow hbody.not_until hwf hok
    have hagree := hrel.agree.of_open le_rfl fun _ hg => hg.next hwf hflow hbody.not_mark hbody.next
    exact hagree.same ⟨rfl, rfl, rfl⟩ ⟨rfl, rfl, rfl⟩

theorem Round.rel (h : Round code H qs p e s t u v) (hrel : Rel code H qs p s t) (hwf : WellFormed code)
    (hok : H.Ok code) (hbody : Body code p (p + 4) e) (hop : opAt code p ≠ some .REPEAT) :
    Rel code (itemHome code H qs p e s) [] (p + 4) u v := by
  have hflow := hrel.flow hbody.not_until hwf hok
  refine ⟨h.trail.twin, ?_, ?_, ?_, ?_, h.fresh, h.agree.of_open le_rfl ?_⟩
  · rw [h.trail.same.cur]
    exact .home .refl
  · rw [h.trail.same.length]
    simp [itemHome, bodyHome, Matcher.push]
  · intro x i hx
    rw [h.trail.same.stop] at hx
    exact ((hrel.stop_floor x i hx).trans_le hrel.floor).trans (Nat.lt_succ_self _)
  · intro x hx huntil
    exact absurd (hwf.until_level (.body hflow hbody) hx huntil).2.1 hop
  · exact fun _ hg => isOpen_again hwf hflow hbody hg

theorem Round.item (h : Round code H qs p e s t u v) (hrel : Rel code H qs p s t)
    (hwf : WellFormed code) (hok : H.Ok code) (hbody : Body code p (p + 4) e)
    (hop : opAt code p ≠ some .REPEAT)
    (hr : Result code (itemHome code H qs p e s) (p + 4) u v true true s' t') :
    Round code H qs p e s t s' t' := by
  have hflow := hrel.flow hbody.not_until hwf hok
  obtain ⟨x, hexit⟩ := hr.exit rfl
  have hend : opAt code x = some .SUCCESS := by
    refine hexit.final.resolve_right fun huntil => hop ?_
    exact (hwf.until_level (.body hflow hbody) hexit.level huntil).2.1
  exact ⟨h.trail.trans hr.trail, hexit.fresh,
    hexit.agree.of_open le_rfl fun _ hg => isOpen_leave hwf hflow hbody hexit.level hend hg⟩

theorem Round.leave (h : Round code H qs p e s t u v) (hrel : Rel code H qs p s t)
    (hwf : WellFormed code) (hok : H.Ok code) (hbody : Body code p (p + 4) e) :
    Rel code H qs e (u.pop s.repeats.length s.curRepeat) (v.pop s.repeats.length s.curRepeat) := by
  have hpop := h.trail.pop
  refine hrel.of_same hpop.twin hpop.same (hrel.chain.next hbody.next hwf hok) h.fresh ?_
  have hagree := h.agree.of_open (since_mono H qs hbody.next.lt.le) fun _ hg => hg
  exact hagree.same ⟨rfl, rfl, rfl⟩ ⟨rfl, rfl, rfl⟩

theorem paired_possessiveRepeatOp (hsim : Simulates E dm dm') (hwf : WellFormed E.cc.code)
    (hok : H.Ok E.cc.code) (hrel : Rel E.cc.code H qs p s t) (hlow : Low lo qs p)
    (hop : opAt E.cc.code p = some .POSSESSIVE_REPEAT) :
    Paired (possessiveRepeatOp E false fuel dm (p + 1) ptr) (possessiveRepeatOp E true fuel dm' (p + 1) ptr)
      (Went E.cc.code H lo qs s t) s t := by
  have hbody : Body E.cc.code p (p + 4) (p + 1 + arg E.cc.code (p + 1) + 1) := by
    unfold Body
    rw [hop]
    exact ⟨rfl, rfl⟩
  have hne : opAt E.cc.code p ≠ some .REPEAT := by simp [hop]
  apply paired_bind
  apply paired_lift
  intro skip hskip
  obtain rfl := arg_of_word hskip
  apply paired_bind
  apply paired_lift
  intro pmin _
  apply paired_bind
  apply paired_lift
  intro pmax _
  apply paired_bind
  apply paired_setPtr
  have hidle : Idle s t { s with ptr := ptr } { t with ptr := ptr } := .ptr hrel.twin ptr
  refine paired_mono (Q := Went E.cc.code H lo qs { s with ptr := ptr } { t with ptr := ptr }) ?_
    fun _ _ _ _ h => h.of_trail hidle.trail
  replace hrel := hrel.idle hidle
  clear hidle
  generalize { s with ptr := ptr } = s, { t with ptr := ptr } = t at hrel ⊢
  generalize p + 1 + arg E.cc.code (p + 1) + 1 = e at hbody ⊢
  have hhome : (itemHome E.cc.code H qs p e s).Ok E.cc.code :=
    bodyHome_ok hrel.chain hbody hwf hok
  have hitem {u v : Matcher} (h : Round E.cc.code H qs p e s t u v) :=
    paired_doMatch hsim hhome (h.rel hrel hwf hok hbody hne) ⟨le_refl (p + 4), by simp⟩
      (.refl h.trail.twin) false
  have hleave {u v : Matcher} (h : Trail E.cc.code (p + 4) e (s.push noPattern) (t.push noPattern) u v) :=
    h.pop.of_body hrel hwf hok hbody hlow.1
  apply paired_bind
  apply paired_pushRepeat hrel.twin
  refine paired_seq (Q := fun r r' u v => r = r' ∧
    Trail E.cc.code (p + 4) e (s.push noPattern) (t.push noPattern) u v ∧
    (r = true → Round E.cc.code H qs p e s t u v)) (paired_loop (fun _ => Round E.cc.code H qs p e s t) ?_
      (.start hrel hwf hok hbody)) ?_
  · intro cnt u v hround
    apply paired_ite
    · intro _
      refine paired_seq (hitem hround) ?_
      intro r r' u' v' hr
      obtain rfl := hr.same
      cases r with
      | true => exact paired_pure (.next (hround.item hrel hwf hok hbody hne hr))
      | false => exact paired_pure (.done ⟨rfl, hround.trail.trans hr.trail, nofun⟩)
    · intro _
      exact paired_pure (.done ⟨rfl, hround.trail, fun _ => hround⟩)
  rintro enough _ u v ⟨rfl, htrail, hround⟩
  apply paired_ite
  · intro henough
    refine paired_seq (Q := fun _ _ => Round E.cc.code H qs p e s t)
      (paired_loop (fun _ => Round E.cc.code H qs p e s t) ?_ (hround henough)) ?_
    · rintro ⟨cnt, prevPtr⟩ u v hround
      apply paired_bind
      apply paired_gets
      rw [hround.trail.twin.eq (f := Matcher.ptr) fun _ _ => rfl]
      apply paired_ite
      · intro _
        apply paired_bind
        apply paired_gets
        refine paired_seq (hitem hround) ?_
        intro r r' u' v' hr
        obtain rfl := hr.same
        apply paired_ite
        · rintro rfl
          exact paired_pure (.next (hround.item hrel hwf hok hbody hne hr))
        · intro _
          apply paired_bind
          apply paired_modify
          have hcur : u.curRepeat ≠ none := by simp [hround.trail.same.cur, Matcher.push]
          have hback := hr.trail.restore_all hround.trail.twin hcur
          apply paired_bind
          apply paired_setPtr
          exact paired_pure (.done (hround.idle (hback.trans (.ptr hback.twin u.ptr))))
      · intro _
        exact paired_pure (.done hround)
    · intro _ _ u v hround
      apply paired_bind
      apply paired_popRepeat hround.trail.same hround.trail.twin
      apply paired_bind
      apply paired_gets
      have hpop := hleave hround.trail
      rw [hpop.twin.eq (f := Matcher.ptr) fun _ _ => rfl]
      refine paired_pure (.next ⟨hround.leave hrel hwf hok hbody, ?_, hpop⟩)
      exact hlow.mono hbody.next.lt.le
  · intro _
    apply paired_bind
    apply paired_setPtr
    have htrail' := htrail.trans (Idle.ptr htrail.twin ptr).trail
    apply paired_bind
    apply paired_popRepeat htrail'.same htrail'.twin
    exact paired_pure (.done ⟨rfl, hleave htrail', nofun⟩)

end Entering

section Steps

/-- An op that takes one character goes on after its operand, or fails. -/
theorem charOp_went {op : Op} {r : Verdict} (hop : opAt E.cc.code p = some op)
    (h : charOp E op (p + 1) ptr = .ok r) :
    r = .done false ∨ ∃ c, r = .next c ∧ Next E.cc.code p c.1 := by
  unfold charOp at h
  split_ifs at h with hstop
  · exact .inl (Except.ok.inj h).symm
  rw [bind_eq_ok] at h
  obtain ⟨ch, -, h⟩ := h
  rw [bind_eq_ok] at h
  obtain ⟨holds, htest, h⟩ := h
  split_ifs at h with hholds
  · obtain rfl := hholds
    refine .inr ?_
    unfold Next
    rw [hop]
    cases op
    case ANY | ANY_ALL => exact ⟨_, (Except.ok.inj h).symm, rfl⟩
    case IN | IN_IGNORE | IN_UNI_IGNORE | IN_LOC_IGNORE =>
      dsimp only at h
      rw [bind_eq_ok] at h
      obtain ⟨skip, hskip, h⟩ := h
      obtain rfl := arg_of_word hskip
      exact ⟨_, (Except.ok.inj h).symm, rfl⟩
    all_goals
      first
      | exact ⟨_, (Except.ok.inj h).symm, rfl⟩
      | exact nomatch htest
  · exact .inl (Except.ok.inj h).symm

theorem paired_charOp (hwf : WellFormed E.cc.code) (hok : H.Ok E.cc.code)
    (hrel : Rel E.cc.code H qs p s t) (hlow : Low lo qs p) {op : Op} (hop : opAt E.cc.code p = some op)
    (hmark : op ≠ .MARK) :
    Paired (lift (charOp E op (p + 1) ptr) : M Verdict) (lift (charOp E op (p + 1) ptr) : M Verdict)
      (Went E.cc.code H lo qs s t) s t := by
  apply paired_lift
  intro r hr
  rcases charOp_went hop hr with rfl | ⟨c, rfl, hnext⟩
  · exact .done ⟨rfl, .refl hrel.twin, nofun⟩
  · exact .next ⟨hrel.next hwf hok (by simpa [hop] using hmark) hnext, hlow.mono hnext.lt.le,
      .refl hrel.twin⟩

theorem paired_done {m n : M Bool} (h : Paired m n (Result E.cc.code H lo s t) s t) :
    Paired (Step.done <$> m) (Step.done <$> n) (Went E.cc.code H lo qs s t) s t :=
  paired_seq h fun _ _ _ _ hr => paired_pure (.done hr)

/-- An op that goes on at the next one and leaves the captures alone. -/
theorem Went.onward (hwf : WellFormed code) (hok : H.Ok code) (hrel : Rel code H qs p s t)
    (hlow : Low lo qs p) (hmark : opAt code p ≠ some .MARK) {p' : ℕ} (hnext : Next code p p') :
    Went code H lo qs s t (.next (p', ptr)) (.next (p', ptr)) s t :=
  .next ⟨hrel.next hwf hok hmark hnext, hlow.mono hnext.lt.le, .refl hrel.twin⟩

theorem Went.failed (h : Twin s t) : Went code H lo qs s t (.done false) (.done false) s t :=
  .done ⟨rfl, .refl h, nofun⟩

theorem paired_markOp (hwf : WellFormed E.cc.code) (hok : H.Ok E.cc.code)
    (hrel : Rel E.cc.code H qs p s t) (hlow : Low lo qs p) (hop : opAt E.cc.code p = some .MARK) :
    Paired (do markOp (arg E.cc.code (p + 1)) ptr; return Step.next (p + 2, ptr) : M Verdict)
      (do markOp (arg E.cc.code (p + 1)) ptr; return Step.next (p + 2, ptr) : M Verdict)
      (Went E.cc.code H lo qs s t) s t := by
  have hflow := hrel.flow (fun h => h.not_mark hop) hwf hok
  have hmark : MarkAt E.cc.code (arg E.cc.code (p + 1)) p := ⟨hflow, hop, rfl⟩
  have hstop := (hrel.chain.lt_stop hwf hok).1
  refine paired_seq (Q := fun _ _ u v => Rel E.cc.code H qs (p + 2) u v ∧
    Trail E.cc.code lo H.stop s t u v) ?_ ?_
  · apply paired_bind
    apply paired_gets
    rw [← hrel.agree.1]
    apply paired_ite
    · intro hi
      apply paired_modify
      have hrel' : Rel E.cc.code H qs (p + 2) (Matcher.setMark _ ptr s) (Matcher.setMark _ ptr t) :=
        hrel.mark hwf hok hmark hi
      refine ⟨hrel', hrel'.twin, confined_setMark hi hmark hlow.1 hstop, ?_, ⟨rfl, rfl, rfl, rfl, rfl⟩⟩
      exact confined_setMark (hrel.agree.1 ▸ hi) hmark hlow.1 hstop
    · intro _
      exact paired_fault
  · rintro _ _ u v ⟨hrel', htrail⟩
    exact paired_pure (.next ⟨hrel', hlow.mono (Nat.le_add_right p 2), htrail⟩)

theorem paired_step (hsim : Simulates E dm dm') (hwf : WellFormed E.cc.code)
    (hinner : NoInnerTest E.cc.code) (hok : H.Ok E.cc.code) (hrel : Rel E.cc.code H qs p s t)
    (hlow : Low lo qs p) :
    Paired (step E false fuel dm top (p, ptr)) (step E true fuel dm' top (p, ptr))
      (Went E.cc.code H lo qs s t) s t := by
  apply paired_bind
  apply paired_lift
  intro w hw
  have hop := opAt_of_word hw
  cases hof : Op.ofCode w with
  | none => exact paired_raise
  | some op =>
    rw [hof] at hop
    cases op
    case MARK =>
      apply paired_bind
      apply paired_lift
      intro i hi
      obtain rfl := arg_of_word hi
      exact paired_markOp hwf hok hrel hlow hop
    case SUCCESS =>
      apply paired_ite
      · intro _
        apply paired_bind
        apply paired_setPtr
        have hidle : Idle s t { s with ptr := ptr } { t with ptr := ptr } := .ptr hrel.twin ptr
        exact paired_pure (.done (.of_success (hrel.idle hidle) hop hwf hok hidle))
      · intro _
        exact paired_pure (.failed hrel.twin)
    case FAILURE => exact paired_pure (.failed hrel.twin)
    case AT =>
      apply paired_bind
      apply paired_lift
      intro code _
      apply paired_bind
      apply paired_lift
      intro holds _
      apply paired_pure
      split_ifs
      · exact .onward hwf hok hrel hlow (by simp [hop]) (by simp [Next, hop])
      · exact .failed hrel.twin
    case JUMP | INFO =>
      apply paired_bind
      apply paired_lift
      intro skip hskip
      obtain rfl := arg_of_word hskip
      exact paired_pure (.onward hwf hok hrel hlow (by simp [hop]) (by simp [Next, hop]))
    case BRANCH => exact paired_done (paired_branchOp hsim hwf hok hrel hlow hop)
    case REPEAT_ONE => exact paired_done (paired_repeatOneOp hsim hwf hok hrel hlow hop)
    case MIN_REPEAT_ONE => exact paired_done (paired_minRepeatOneOp hsim hwf hok hrel hlow hop)
    case POSSESSIVE_REPEAT_ONE => exact paired_possessiveRepeatOneOp hsim hwf hok hrel hlow hop
    case REPEAT => exact paired_done (paired_repeatOp hsim hwf hok hrel hlow hop)
    case MAX_UNTIL => exact paired_done (paired_maxUntilOp hsim hwf hok hrel hlow hop)
    case MIN_UNTIL => exact paired_done (paired_minUntilOp hsim hwf hok hrel hlow hop)
    case POSSESSIVE_REPEAT => exact paired_possessiveRepeatOp hsim hwf hok hrel hlow hop
    case ATOMIC_GROUP => exact paired_atomicGroupOp hsim hwf hok hrel hlow hop
    case GROUPREF | GROUPREF_IGNORE | GROUPREF_UNI_IGNORE | GROUPREF_LOC_IGNORE =>
      exact paired_groupRefOp hok hwf hrel hlow hinner hop (by simp) _
    case GROUPREF_EXISTS => exact paired_groupRefExistsOp hok hwf hrel hlow hinner hop
    case ASSERT => exact paired_assertOp hsim hwf hok hrel hlow hop
    case ASSERT_NOT => exact paired_assertNotOp hsim hwf hok hrel hlow hop
    all_goals
      apply paired_ite
      · intro _
        exact paired_charOp hwf hok hrel hlow hop (by simp)
      · intro _
        exact paired_raise

/-- The ops of one run, from `p` on. -/
theorem paired_run (hsim : Simulates E dm dm') (hwf : WellFormed E.cc.code)
    (hinner : NoInnerTest E.cc.code) (hok : H.Ok E.cc.code) (hrel : Rel E.cc.code H qs p s t)
    (hlow : Low lo qs p) :
    Paired (loop .diverge fuel (step E false fuel dm top) (p, ptr))
      (loop .diverge fuel (step E true fuel dm' top) (p, ptr)) (Result E.cc.code H lo s t) s t := by
  refine paired_loop (fun c u v => Rel E.cc.code H qs c.1 u v ∧ Low lo qs c.1 ∧
    Trail E.cc.code lo H.stop s t u v) ?_ ⟨hrel, hlow, .refl hrel.twin⟩
  rintro ⟨p, ptr⟩ u v ⟨hrel, hlow, htrail⟩
  exact paired_mono (paired_step hsim hwf hinner hok hrel hlow) fun _ _ _ _ h => h.of_trail htrail

theorem paired_doMatchInner (hsim : Simulates E dm dm') (hwf : WellFormed E.cc.code)
    (hinner : NoInnerTest E.cc.code) (hok : H.Ok E.cc.code) (hrel : Rel E.cc.code H qs p s t)
    (hlow : Low lo qs p) :
    Paired (doMatchInner E false fuel dm p top) (doMatchInner E true fuel dm' p top)
      (Result E.cc.code H lo s t) s t := by
  apply paired_bind
  apply paired_gets
  rw [hrel.twin.eq (f := Matcher.ptr) fun _ _ => rfl]
  apply paired_bind
  apply paired_lift
  intro op hop
  apply paired_ite
  · rintro rfl
    have hinfo := opAt_of_opcode hop
    apply paired_bind
    apply paired_lift
    intro least _
    apply paired_ite
    · intro _
      exact paired_pure ⟨rfl, .refl hrel.twin, nofun⟩
    · intro _
      apply paired_bind
      apply paired_lift
      intro skip hskip
      obtain rfl := arg_of_word hskip
      have hnext : Next E.cc.code p (p + (arg E.cc.code (p + 1) + 1)) := by
        simp only [Next, hinfo]
        omega
      exact paired_run hsim hwf hinner hok (hrel.next hwf hok (by simp [hinfo]) hnext)
        (hlow.mono hnext.lt.le)
  · intro _
    exact paired_run hsim hwf hinner hok hrel hlow

/-- The two matchers end alike, however deep they recurse. -/
theorem simulates_doMatch (hwf : WellFormed E.cc.code) (hinner : NoInnerTest E.cc.code) (fuel : ℕ) :
    Simulates E (doMatch E false fuel) (doMatch E true fuel) := by
  induction fuel with
  | zero => exact fun _ _ _ _ => paired_fault
  | succ fuel ih =>
    intro H qs lo p s t top hok hrel hlow
    have hdeeper : Rel E.cc.code H qs p { s with depth := s.depth + 1 } { t with depth := t.depth + 1 } := by
      obtain ⟨htwin, hchain, hfloor, hstop, hat, hfresh, hagree⟩ := hrel
      refine ⟨?_, hchain, hfloor, hstop, hat, hfresh, hagree⟩
      exact htwin.map (f := fun m => { m with depth := m.depth + 1 }) fun _ _ => rfl
    apply paired_bind
    apply paired_modify
    apply paired_bind
    apply paired_gets
    rw [hdeeper.twin.eq (f := Matcher.depth) fun _ _ => rfl]
    apply paired_ite
    · intro _
      apply paired_bind
      apply paired_modify
      exact paired_raise
    · intro _
      refine paired_finally (paired_mono (paired_doMatchInner ih hwf hinner hok hdeeper hlow) ?_)
      intro r r' u v hr
      have hsame := hr.trail.same
      refine Result.frame (s := s) (t := t) (a := { u with depth := u.depth - 1 })
        (b := { v with depth := v.depth - 1 }) hr ⟨rfl, rfl, rfl⟩ ⟨rfl, rfl, rfl⟩ ⟨rfl, rfl, rfl⟩
        ⟨rfl, rfl, rfl⟩ ?_ ?_
      · exact hr.trail.twin.map (f := fun m => { m with depth := m.depth - 1 }) fun _ _ => rfl
      · refine ⟨hsame.links, hsame.cur, hsame.stop, hsame.recur, ?_⟩
        change u.depth - 1 = s.depth
        rw [hsame.depth]
        exact Nat.add_sub_cancel (n := s.depth) (m := 1)

end Steps

section Exec

/-- The whole code, without a repeat. -/
def mainHome (code : List ℕ) : Home := ⟨0, code.length, none, 0, 0, 0⟩

theorem mainHome_ok (hwf : WellFormed code) : (mainHome code).Ok code where
  entry := .main
  inside _ hx := hwf.inside .main hx
  since_le h := absurd rfl h
  stop_le h := absurd rfl h

theorem Rel.new (hwf : WellFormed code) (groups : ℕ) (ptr : ℕ) :
    Rel code (mainHome code) [] 0 { Matcher.new groups with ptr := ptr }
      { Matcher.new groups with ptr := ptr } where
  twin := ⟨_, rfl⟩
  chain := .home .refl
  floor := le_rfl
  stop_floor := nofun
  stop_at x hx huntil := nomatch (hwf.until_level .main hx huntil).1
  fresh g _ _ _ := by
    change (-1 : ℤ) < (2 * g : ℕ)
    omega
  agree := ⟨rfl, fun _ _ _ => rfl⟩

/-- No group is open where the code succeeds, so the spans are the same. -/
theorem Exit.span_eq {x : ℕ} (h : Exit code (mainHome code) s t x) (hwf : WellFormed code)
    (htwin : Twin s t) (g : ℕ) : t.span g = s.span g := by
  have hend : opAt code x = some .SUCCESS := by
    refine h.final.resolve_right fun huntil => ?_
    exact nomatch (hwf.until_level .main h.level huntil).1
  have hmarks (i : ℕ) (hi : (i : ℤ) ≤ s.lastmark) : t.marks[i]? = s.marks[i]? := by
    refine (h.agree.2 i hi ?_).symm
    rintro g - - ⟨o, c, hg, ho, hc⟩
    exact absurd (hwf.ended .main h.level hend hg (Nat.zero_le o) ho) (Nat.not_lt.mpr hc)
  unfold Matcher.span
  rw [htwin.eq (f := Matcher.lastmark) fun _ _ => rfl]
  by_cases hset : ((2 * g + 1 : ℕ) : ℤ) ≤ s.lastmark
  · rw [hmarks (2 * g) (by omega), hmarks (2 * g + 1) hset]
  · simp only [hset, false_and, if_false]
    split <;> split <;> rfl

/-- `(?:(a)|b)*c(?(1)d|e)`, as it is compiled. -/
def testedAfter : List ℕ :=
  [14, 4, 0, 2, 2 ^ 32 - 1, 23, 19, 0, 2 ^ 32 - 1, 7, 9, 17, 0, 16, 97, 17, 1, 15, 7, 5, 16, 98, 15, 2,
    0, 18, 16, 99, 12, 0, 6, 16, 100, 15, 3, 16, 101, 1]

/-- A match of `code` in a subject of ASCII characters. -/
def asciiEnv (code : List ℕ) (groups : ℕ) (subject : List ℕ) : Env where
  cc := registerCode code .ascii groups
  chars := .ascii
  s := subject
  beginning := 0
  start := 0
  stop := subject.length
  mustAdvance := false
  matchAll := false

/-- `((.)(?:|(?(1)c|d)))e`, as it is compiled: the first group is tested from inside it. -/
def testedInside : List ℕ :=
  [14, 4, 0, 2, 3, 17, 0, 17, 2, 2, 17, 3, 7, 3, 15, 14, 12, 12, 0, 6, 16, 99, 15, 3, 16, 100, 15, 2, 0,
    17, 1, 16, 101, 1]

end Exec

end WeavePy.Regex
