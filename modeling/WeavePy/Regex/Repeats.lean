import WeavePy.Regex.Simulation

/-!
The repeats of more than one character, run side by side: entering and leaving them, their items, and
the code after them.
-/

namespace WeavePy.Regex

open Prog

variable {code : List ℕ} {E : Env} {dm dm' : ℕ → Bool → M Bool} {fuel : ℕ} {H : Home} {qs : List ℕ}
  {lo hi p q idx ptr : ℕ} {prev : Option ℕ} {top : Bool} {s t u v s' t' : Matcher}

section Frames

/-- A run inside two steps that leave the captures alone. -/
theorem Trail.frame (h : Trail code lo hi u v s' t') (hs : SameCaptures s u) (ht : SameCaptures t v)
    {a b : Matcher} (ha : SameCaptures s' a) (hb : SameCaptures t' b) (htwin : Twin a b)
    (hsame : SameRepeats s a) : Trail code lo hi s t a b :=
  ⟨htwin, (hs.confined.trans h.left).trans ha.confined, (ht.confined.trans h.right).trans hb.confined,
    hsame⟩

theorem Exit.same {x : ℕ} (h : Exit code H u v x) (hs : SameCaptures u s') (ht : SameCaptures v t') :
    Exit code H s' t' x :=
  ⟨h.level, h.final, by rw [hs.lastmark]; exact h.fresh, h.agree.same hs ht⟩

theorem Result.frame {r r' : Bool} (h : Result code H lo u v r r' s' t') (hs : SameCaptures s u)
    (ht : SameCaptures t v) {a b : Matcher} (ha : SameCaptures s' a) (hb : SameCaptures t' b)
    (htwin : Twin a b) (hsame : SameRepeats s a) : Result code H lo s t r r' a b := by
  refine ⟨h.same, h.trail.frame hs ht ha hb htwin hsame, fun hr => ?_⟩
  obtain ⟨x, hexit⟩ := h.exit hr
  exact ⟨x, hexit.same ha hb⟩

/-- A step of both matchers that does not look at the marks. -/
theorem Twin.map (h : Twin s t) {f : Matcher → Matcher}
    (hf : ∀ m l, f { m with marks := l } = { f m with marks := l }) : Twin (f s) (f t) := by
  obtain ⟨m, rfl⟩ := h
  exact ⟨m, hf s m⟩

end Frames

/-- A repeat that is the current one is set as the current one again. -/
theorem Idle.current (h : Twin s t) (hcur : s.curRepeat = some idx) :
    Idle s t { s with curRepeat := some idx } { t with curRepeat := some idx } := by
  have hcur' : t.curRepeat = some idx := (h.eq (f := Matcher.curRepeat) fun _ _ => rfl).trans hcur
  refine ⟨h.map (f := fun m => { m with curRepeat := some idx }) fun _ _ => rfl, ?_, ?_⟩
  · exact ⟨⟨rfl, hcur.symm, rfl, rfl, rfl⟩, ⟨rfl, rfl, rfl⟩⟩
  · exact ⟨⟨rfl, hcur'.symm, rfl, rfl, rfl⟩, ⟨rfl, rfl, rfl⟩⟩

section Repeats

/-- The matcher is in the body of the repeat `q`, its repeat `idx`, and in those of `qs`. -/
structure Within (code : List ℕ) (H : Home) (s : Matcher) (q : ℕ) (qs : List ℕ) (idx : ℕ)
    (prev : Option ℕ) : Prop where
  cur : s.curRepeat = some idx
  floor : H.floor ≤ idx
  link : (links s.repeats)[idx]? = some (q + 1, prev)
  op : opAt code q = some .REPEAT
  outer : Chain code H (links s.repeats) qs prev q

theorem Within.same (h : Within code H s q qs idx prev) (hsame : SameRepeats s u) :
    Within code H u q qs idx prev where
  cur := hsame.cur.trans h.cur
  floor := h.floor
  link := by
    rw [hsame.links]
    exact h.link
  op := h.op
  outer := by
    rw [hsame.links]
    exact h.outer

theorem Within.ctx (h : Within code H s q qs idx prev) {c : RepeatCtx} (hc : s.repeats[idx]? = some c) :
    c.pattern = q + 1 ∧ c.prev = prev := by
  have hlink := h.link
  rw [links, List.getElem?_map, hc] at hlink
  exact Prod.mk.inj (Option.some.inj hlink)

/-- At the end of a repeat either the home's own repeat is to stop, or one is entered that ends here. -/
theorem Rel.at_until (h : Rel code H qs p s t) (huntil : IsUntil code p) (hwf : WellFormed code)
    (hok : H.Ok code) :
    (opAt code p = some .MAX_UNTIL ∧ (∃ i, s.curRepeat = some i ∧ s.repeatStop = some (p, i)) ∧
      Exit code H s t p) ∨
    ∃ q qs' idx prev, qs = q :: qs' ∧ p = untilOf code q ∧ Within code H s q qs' idx prev := by
  obtain ⟨-, hchain, -, -, hstop, hfresh, hagree⟩ := h
  generalize hcur : s.curRepeat = cur at hchain
  cases hchain with
  | home hlevel =>
    obtain ⟨hop, i, hi, hat⟩ := hstop p hlevel huntil
    exact .inl ⟨hop, ⟨i, hi, hat⟩, hlevel, .inr huntil, hfresh, hagree⟩
  | @body idx q p qs prev hfloor hlink hop hlevel houter =>
    refine .inr ⟨q, qs, idx, prev, rfl, ?_, hcur, hfloor, hlink, hop, houter⟩
    have hq := houter.not_until (fun h => by rcases h with h | h <;> simp [hop] at h) hwf hok
    rcases hlevel with hlevel | rfl
    · exact (hwf.until_level (.body hq (body_of_repeat hop)) hlevel huntil).2.2
    · rfl

theorem Within.flow (h : Within code H s q qs idx prev) (hwf : WellFormed code) (hok : H.Ok code) :
    Flow code q := h.outer.not_until (body_of_repeat h.op).not_until hwf hok

theorem since_tail (H : Home) (q : ℕ) (qs : List ℕ) (h : q ≤ p) :
    since H (q :: qs) p ≤ since H qs p := by
  unfold since
  cases H.cur with
  | some i => exact le_rfl
  | none =>
    cases qs with
    | nil => exact h
    | cons r rs => simp [List.getLast?_cons_cons]

theorem unseen_tail (H : Home) (q : ℕ) (qs : List ℕ) (p : ℕ) :
    unseen code H (q :: qs) p ≤ unseen code H qs (untilOf code q + 1) := by
  unfold unseen
  cases H.cur with
  | some i => exact le_rfl
  | none =>
    cases qs with
    | nil => exact le_rfl
    | cons r rs => simp [List.getLast?_cons]

theorem since_cons (H : Home) (q : ℕ) (qs : List ℕ) (p p' : ℕ) :
    since H (q :: qs) p = since H (q :: qs) p' := by
  unfold since
  cases H.cur with
  | some i => rfl
  | none => rfl

/-- From the end of a repeat back to its body. -/
theorem Rel.item (h : Rel code H (q :: qs) (untilOf code q) s t) (hin : Within code H s q qs idx prev)
    (hwf : WellFormed code) (hok : H.Ok code) : Rel code H (q :: qs) (q + 4) s t := by
  have hflow := hin.flow hwf hok
  have hbody := body_of_repeat hin.op
  refine h.of_same h.twin (Still.refl s).toSameRepeats ?_ ?_ ?_
  · rw [hin.cur]
    exact .body hin.floor hin.link hin.op (.inl .refl) hin.outer
  · rw [unseen_const (.inr (List.cons_ne_nil q qs)) (q + 4) (untilOf code q)]
    exact h.fresh
  · refine h.agree.of_open (since_cons H q qs _ _).le fun g hg => ?_
    obtain ⟨o, c, hgroup, ho, hc⟩ := hg
    have hne : untilOf code q ≠ c := by
      rintro rfl
      exact (hwf.until_end hflow hin.op).not_mark hgroup.2.2.1
    exact isOpen_again hwf hflow hbody ⟨o, c, hgroup, by omega, by omega⟩

/-- From the end of a repeat on, in the repeats around it. -/
theorem Rel.tail (h : Rel code H (q :: qs) (untilOf code q) s t) (hin : Within code H s q qs idx prev)
    (hwf : WellFormed code) (hok : H.Ok code) :
    Rel code H qs (untilOf code q + 1) { s with curRepeat := prev } { t with curRepeat := prev } where
  twin := h.twin.map (f := fun m => { m with curRepeat := prev }) fun _ _ => rfl
  chain := hin.outer.next (body_of_repeat hin.op).next hwf hok
  floor := h.floor
  stop_floor := h.stop_floor
  stop_at := h.stop_at
  fresh := h.fresh.mono (unseen_tail H q qs _)
  agree := by
    have hq : q ≤ untilOf code q + 1 := (body_of_repeat hin.op).next.lt.le
    refine Agree.same (h.agree.of_open ((since_cons H q qs _ _).le.trans (since_tail H q qs hq)) ?_)
      ⟨rfl, rfl, rfl⟩ ⟨rfl, rfl, rfl⟩
    rintro g ⟨o, c, hgroup, ho, hc⟩
    have hne : untilOf code q ≠ c := by
      rintro rfl
      exact (hwf.until_end (hin.flow hwf hok) hin.op).not_mark hgroup.2.2.1
    exact ⟨o, c, hgroup, by omega, by omega⟩

theorem Low.item (h : Low lo (q :: qs) (untilOf code q)) : Low lo (q :: qs) (q + 4) :=
  ⟨(h.2 q List.mem_cons_self).trans (Nat.le_add_right q 4), h.2⟩

theorem Low.tail (h : Low lo (q :: qs) (untilOf code q)) : Low lo qs (untilOf code q + 1) :=
  ⟨h.1.trans (Nat.le_succ _), fun r hr => h.2 r (List.mem_cons_of_mem q hr)⟩

end Repeats

section Scan

/-- A scan that finds no mark goes on after every instruction but a `BRANCH`. -/
theorem codeRangeHasMark_next {fuel a e : ℕ} (h : codeRangeHasMark E (fuel + 1) a e = .ok false)
    (hlt : a < e) (hop : opAt E.cc.code a ≠ some .BRANCH) :
    opAt E.cc.code a ≠ some .MARK ∧ codeRangeHasMark E fuel (a + size E.cc.code a) e = .ok false := by
  have hfound : (pure true : Outcome Bool) ≠ .ok false := nofun
  have harg {w : ℕ} (hw : E.cc.code[a + 1]? = some w) : arg E.cc.code (a + 1) = w := by
    simp [arg, List.getD_eq_getElem?_getD, hw]
  unfold codeRangeHasMark at h
  rw [if_pos hlt, bind_eq_ok] at h
  obtain ⟨op, hread, h⟩ := h
  rw [opAt_of_opcode hread] at hop ⊢
  unfold size
  rw [opAt_of_opcode hread]
  cases op with
  | none => exact absurd h hfound
  | some op =>
    cases op
    case BRANCH => exact absurd rfl hop
    case IN | IN_IGNORE | IN_LOC_IGNORE | IN_UNI_IGNORE | INFO | BIGCHARSET =>
      refine ⟨nofun, ?_⟩
      dsimp only at h ⊢
      cases hw : E.cc.code[a + 1]? with
      | none =>
        rw [hw] at h
        exact absurd h hfound
      | some w =>
        rw [hw] at h
        rw [harg hw]
        simpa [Nat.add_assoc] using h
    all_goals
      first
      | exact ⟨nofun, h⟩
      | exact absurd h hfound

/-- The alternatives that a scan at `a` still has before it. -/
theorem alternativesHaveMark_next {fuel a e : ℕ}
    (h : codeRangeHasMark.alternativesHaveMark E (fuel + 1) a e = .ok false) (hlt : a < e) :
    if arg E.cc.code a = 0 then codeRangeHasMark E fuel (a + 1) e = .ok false
    else codeRangeHasMark E fuel (a + 1) (min (a + arg E.cc.code a) e) = .ok false ∧
      codeRangeHasMark.alternativesHaveMark E fuel (a + arg E.cc.code a) e = .ok false := by
  unfold codeRangeHasMark.alternativesHaveMark at h
  rw [if_neg (Nat.not_le.mpr hlt), bind_eq_ok] at h
  obtain ⟨skip, hskip, h⟩ := h
  obtain rfl := arg_of_word hskip
  split_ifs at h ⊢
  · exact h
  · rw [bind_eq_ok] at h
    obtain ⟨found, hfound, h⟩ := h
    cases found with
    | true => exact nomatch h
    | false => exact ⟨hfound, h⟩

/-- From one alternative to one after it. -/
inductive After (code : List ℕ) : ℕ → ℕ → Prop
  | here {a : ℕ} : After code a a
  | next {a x : ℕ} : After code (a + arg code a) x → arg code a ≠ 0 → After code a x

theorem After.tail {code : List ℕ} {a x : ℕ} (h : After code a x) (hx : arg code x ≠ 0) :
    After code a (x + arg code x) := by
  induction h with
  | here => exact .next .here hx
  | next _ hne ih => exact .next (ih hx) hne

theorem Alternative.after {code : List ℕ} {p a : ℕ} (h : Alternative code p a) : After code (p + 1) a := by
  induction h with
  | first => exact .here
  | next _ hne ih => exact ih.tail hne

theorem After.le {code : List ℕ} {a x : ℕ} (h : After code a x) : a ≤ x := by
  induction h with
  | here => exact le_rfl
  | next _ _ ih => omega

theorem Reads.lt {code : List ℕ} {a e x : ℕ} (h : Reads code a e x) : a < e := by
  cases h with
  | here hlt => exact hlt
  | next hlt => exact hlt
  | alternative hlt => exact hlt
  | branch hlt => exact hlt

/-- What a scan says of the instructions that it reads. -/
theorem codeRangeHasMark_sound (fuel : ℕ) :
    (∀ a e x, codeRangeHasMark E fuel a e = .ok false → Reads E.cc.code a e x →
      opAt E.cc.code x ≠ some .MARK) ∧
    ∀ a e y, codeRangeHasMark.alternativesHaveMark E fuel a e = .ok false → After E.cc.code a y →
      y < e →
      (arg E.cc.code y ≠ 0 → ∀ x, Reads E.cc.code (y + 1) (min (y + arg E.cc.code y) e) x →
        opAt E.cc.code x ≠ some .MARK) ∧
      (arg E.cc.code y = 0 → ∀ x, Reads E.cc.code (y + 1) e x → opAt E.cc.code x ≠ some .MARK) := by
  induction fuel with
  | zero => exact ⟨nofun, nofun⟩
  | succ fuel ih =>
    obtain ⟨ih, ihalt⟩ := ih
    constructor
    · intro a e x h hreads
      have hbranch (hop : opAt E.cc.code a = some .BRANCH) (hlt : a < e) :
          codeRangeHasMark.alternativesHaveMark E fuel (a + 1) e = .ok false := by
        unfold codeRangeHasMark at h
        rw [if_pos hlt, bind_eq_ok] at h
        obtain ⟨op, hread, h⟩ := h
        obtain rfl := (opAt_of_opcode hread).symm.trans hop
        exact h
      cases hreads with
      | here hlt =>
        by_cases hop : opAt E.cc.code a = some .BRANCH
        · simp [hop]
        · exact (codeRangeHasMark_next h hlt hop).1
      | next hlt hop hreads => exact ih _ _ _ (codeRangeHasMark_next h hlt hop).2 hreads
      | alternative hlt hop hy hye hskip hreads =>
        exact (ihalt _ _ _ (hbranch hop hlt) hy.after hye).1 hskip _ hreads
      | branch hlt hop hy hskip hreads =>
        have hye := Nat.lt_of_succ_lt hreads.lt
        exact (ihalt _ _ _ (hbranch hop hlt) hy.after hye).2 hskip _ hreads
    · intro a e y h hafter hye
      have halt := alternativesHaveMark_next h (hafter.le.trans_lt hye)
      cases hafter with
      | here =>
        constructor
        · intro hne x hreads
          rw [if_neg hne] at halt
          exact ih _ _ _ halt.1 hreads
        · intro heq x hreads
          rw [if_pos heq] at halt
          exact ih _ _ _ halt hreads
      | next hafter hne =>
        rw [if_neg hne] at halt
        exact ihalt _ _ _ halt.2 hafter hye

end Scan

section Untils

variable (hsim : Simulates E dm dm') (hwf : WellFormed E.cc.code) (hok : H.Ok E.cc.code)

/-- Both matchers are at the end of the repeat `q`. -/
structure AtEnd (E : Env) (H : Home) (lo q : ℕ) (qs : List ℕ) (idx : ℕ) (prev : Option ℕ)
    (s t : Matcher) : Prop where
  rel : Rel E.cc.code H (q :: qs) (untilOf E.cc.code q) s t
  within : Within E.cc.code H s q qs idx prev
  low : Low lo (q :: qs) (untilOf E.cc.code q)

theorem AtEnd.idle (h : AtEnd E H lo q qs idx prev s t) (hidle : Idle s t u v) :
    AtEnd E H lo q qs idx prev u v :=
  ⟨h.rel.idle hidle, h.within.same hidle.left.toSameRepeats, h.low⟩

include hsim hwf hok

theorem paired_requiredItem (h : AtEnd E H lo q qs idx prev s t) (count : ℤ) :
    Paired (requiredItem dm idx count (q + 4) ptr top) (requiredItem dm' idx count (q + 4) ptr top)
      (Result E.cc.code H lo s t) s t := by
  have hset (n : ℤ) {a b : Matcher} (hab : Twin a b) := Idle.setRepeat hab idx
    (f := fun ctx => { ctx with count := n }) fun _ => ⟨rfl, rfl⟩
  apply paired_bind
  apply paired_modify
  apply paired_bind
  apply paired_setPtr
  have hidle := (hset count h.rel.twin).trans (.ptr (hset count h.rel.twin).twin ptr)
  refine paired_seq (paired_doMatch hsim hok (h.rel.item h.within hwf hok) h.low.item hidle top) ?_
  intro r r' u v hr
  obtain rfl := hr.same
  apply paired_ite
  · rintro rfl
    exact paired_pure hr
  · intro _
    apply paired_bind
    apply paired_modify
    apply paired_bind
    apply paired_setPtr
    have hback := (hset (count - 1) hr.trail.twin).trans (.ptr (hset (count - 1) hr.trail.twin).twin ptr)
    exact paired_pure ⟨rfl, hr.trail.trans hback.trail, nofun⟩

theorem paired_extraItem (h : AtEnd E H lo q qs idx prev s t) (count : ℤ) :
    Paired (extraItem dm idx count (q + 4) ptr top) (extraItem dm' idx count (q + 4) ptr top)
      (Result E.cc.code H lo s t) s t := by
  have hset (n l : ℤ) {a b : Matcher} (hab : Twin a b) := Idle.setRepeat hab idx
    (f := fun ctx => { ctx with count := n, lastPtr := l }) fun _ => ⟨rfl, rfl⟩
  apply paired_bind
  apply paired_repeatAt h.rel.twin
  intro c _
  apply paired_bind
  apply paired_modify
  apply paired_bind
  apply paired_setPtr
  have hidle := (hset count ptr h.rel.twin).trans (.ptr (hset count ptr h.rel.twin).twin ptr)
  refine paired_seq (paired_doMatch hsim hok (h.rel.item h.within hwf hok) h.low.item hidle top) ?_
  intro r r' u v hr
  obtain rfl := hr.same
  apply paired_ite
  · rintro rfl
    exact paired_pure hr
  · intro _
    apply paired_bind
    apply paired_modify
    apply paired_bind
    apply paired_setPtr
    have hset' := hset (count - 1) c.lastPtr hr.trail.twin
    exact paired_pure ⟨rfl, hr.trail.trans (hset'.trans (.ptr hset'.twin ptr)).trail, nofun⟩

/-- What a failed item leaves behind is taken back. -/
theorem paired_anotherItem (h : AtEnd E H lo q qs idx prev s t) (count : ℤ) :
    Paired (anotherItem false dm idx count (q + 4) ptr top)
      (anotherItem true dm' idx count (q + 4) ptr top)
      (fun r r' u v => r = r' ∧ (r = true → Result E.cc.code H lo s t true true u v) ∧
        (r = false → Idle s t u v)) s t := by
  apply paired_bind
  apply paired_gets
  refine paired_seq (paired_extraItem hsim hwf hok h count) ?_
  intro r r' u v hr
  obtain rfl := hr.same
  apply paired_ite
  · rintro rfl
    exact paired_pure ⟨rfl, fun _ => hr, nofun⟩
  · intro _
    apply paired_bind
    apply paired_modify
    exact paired_pure ⟨rfl, nofun, fun _ => hr.trail.restore_all h.rel.twin (by simp [h.within.cur])⟩

theorem paired_tryTail (h : AtEnd E H lo q qs idx prev s t) :
    Paired (tryTail dm idx ptr (untilOf E.cc.code q + 1) top)
      (tryTail dm' idx ptr (untilOf E.cc.code q + 1) top) (Result E.cc.code H lo s t) s t := by
  apply paired_bind
  apply paired_repeatAt h.rel.twin
  intro c hc
  obtain ⟨-, rfl⟩ := h.within.ctx hc
  apply paired_bind
  apply paired_modify
  apply paired_bind
  apply paired_setPtr
  have hrel := h.rel.tail h.within hwf hok
  refine paired_seq (paired_doMatch hsim hok hrel h.low.tail (.ptr hrel.twin ptr) top) ?_
  intro r r' u v hr
  apply paired_bind
  apply paired_modify
  have hsame := hr.trail.same
  refine paired_pure (Result.frame (s := s) (t := t) (a := { u with curRepeat := some idx })
    (b := { v with curRepeat := some idx }) hr ⟨rfl, rfl, rfl⟩ ⟨rfl, rfl, rfl⟩ ⟨rfl, rfl, rfl⟩
    ⟨rfl, rfl, rfl⟩ ?_ ?_)
  · exact hr.trail.twin.map (f := fun m => { m with curRepeat := some idx }) fun _ _ => rfl
  · exact ⟨hsame.links, h.within.cur.symm, hsame.stop, hsame.recur, hsame.depth⟩

theorem paired_maxUntilRecursive (h : AtEnd E H lo q qs idx prev s t) :
    Paired (maxUntilRecursive E false dm idx ptr (untilOf E.cc.code q + 1) top)
      (maxUntilRecursive E true dm' idx ptr (untilOf E.cc.code q + 1) top)
      (Result E.cc.code H lo s t) s t := by
  apply paired_bind
  apply paired_setPtr
  have hidle : Idle s t { s with ptr := ptr } { t with ptr := ptr } := .ptr h.rel.twin ptr
  apply paired_bind
  apply paired_repeatAt hidle.twin
  intro c hc
  obtain ⟨hpattern, -⟩ := h.within.ctx hc
  simp only [hpattern]
  apply paired_bind
  apply paired_lift
  intro rmin _
  apply paired_bind
  apply paired_lift
  intro rmax _
  apply paired_ite
  · intro _
    exact paired_mono (paired_requiredItem hsim hwf hok (h.idle hidle) (c.count + 1))
      fun _ _ _ _ hr => hr.of_trail hidle.trail
  intro _
  refine paired_seq (Q := fun r r' u v => r = r' ∧
    (r = true → Result E.cc.code H lo s t true true u v) ∧ (r = false → Idle s t u v)) ?_ ?_
  · apply paired_ite
    · intro _
      refine paired_mono (paired_anotherItem hsim hwf hok (h.idle hidle) (c.count + 1)) ?_
      rintro r _ u v ⟨rfl, hyes, hno⟩
      exact ⟨rfl, fun hr => (hyes hr).of_trail hidle.trail, fun hr => hidle.trans (hno hr)⟩
    · intro _
      exact paired_pure ⟨rfl, nofun, fun _ => hidle⟩
  rintro r _ u v ⟨rfl, hyes, hno⟩
  apply paired_ite
  · intro hr
    exact paired_pure (hyes hr)
  intro hr
  have hidle' := hno (eq_false_of_ne_true hr)
  refine paired_seq (paired_tryTail hsim hwf hok (h.idle hidle')) ?_
  intro r r' u' v' hr
  obtain rfl := hr.same
  apply paired_ite
  · rintro rfl
    exact paired_pure (hr.of_trail hidle'.trail)
  · intro _
    apply paired_bind
    apply paired_setPtr
    have htrail := (hidle'.trail.trans hr.trail).trans (Idle.ptr hr.trail.twin ptr).trail
    exact paired_pure ⟨rfl, htrail, nofun⟩

theorem paired_minUntil (h : AtEnd E H lo q qs idx prev s t) :
    Paired (minUntilOp E false dm top (untilOf E.cc.code q + 1) ptr)
      (minUntilOp E true dm' top (untilOf E.cc.code q + 1) ptr) (Result E.cc.code H lo s t) s t := by
  apply paired_bind
  apply paired_gets
  rw [h.rel.twin.eq (f := Matcher.curRepeat) fun _ _ => rfl, h.within.cur]
  apply paired_bind
  apply paired_setPtr
  have hidle : Idle s t { s with ptr := ptr } { t with ptr := ptr } := .ptr h.rel.twin ptr
  have hend := h.idle hidle
  apply paired_bind
  apply paired_repeatAt hidle.twin
  intro c hc
  obtain ⟨hpattern, -⟩ := h.within.ctx hc
  simp only [hpattern]
  apply paired_bind
  apply paired_lift
  intro rmin _
  apply paired_bind
  apply paired_lift
  intro rmax _
  apply paired_ite
  · intro _
    exact paired_mono (paired_requiredItem hsim hwf hok hend (c.count + 1))
      fun _ _ _ _ hr => hr.of_trail hidle.trail
  intro _
  apply paired_bind
  apply paired_gets
  refine paired_seq (paired_tryTail hsim hwf hok hend) ?_
  intro r r' u v hr
  obtain rfl := hr.same
  apply paired_ite
  · rintro rfl
    exact paired_pure (hr.of_trail hidle.trail)
  intro _
  apply paired_bind
  apply paired_modify
  have hidle' := hidle.trans (hr.trail.restore_all hidle.twin (by simp [h.within.cur]))
  apply paired_bind
  apply paired_setPtr
  have hidle'' := hidle'.trans (.ptr hidle'.twin ptr)
  apply paired_bind
  apply paired_repeatAt hidle''.twin
  intro c' _
  apply paired_ite
  · intro _
    exact paired_pure ⟨rfl, hidle''.trail, nofun⟩
  · intro _
    exact paired_mono (paired_extraItem hsim hwf hok (h.idle hidle'') (c.count + 1))
      fun _ _ _ _ hr => hr.of_trail hidle''.trail

theorem paired_drivenRecursive (h : AtEnd E H lo q qs idx prev s t) {saved : Option (ℕ × ℕ)}
    (hsaved : s.repeatRecur = saved) (p : ℕ) :
    Paired (drivenRecursive E false dm saved p idx ptr (untilOf E.cc.code q + 1) top)
      (drivenRecursive E true dm' saved p idx ptr (untilOf E.cc.code q + 1) top)
      (Result E.cc.code H lo s t) s t := by
  obtain rfl := hsaved
  have hdriven : AtEnd E H lo q qs idx prev { s with repeatRecur := some (p, idx) }
      { t with repeatRecur := some (p, idx) } := by
    obtain ⟨⟨htwin, hchain, hfloor, hstop, hat, hfresh, hagree⟩, ⟨hcur, hidx, hlink, hop, houter⟩, hlow⟩ := h
    refine ⟨⟨?_, hchain, hfloor, hstop, hat, hfresh, hagree⟩, ⟨hcur, hidx, hlink, hop, houter⟩, hlow⟩
    exact htwin.map (f := fun m => { m with repeatRecur := some (p, idx) }) fun _ _ => rfl
  apply paired_bind
  apply paired_modify
  refine paired_seq (paired_maxUntilRecursive hsim hwf hok hdriven) ?_
  intro r r' u v hr
  apply paired_bind
  apply paired_modify
  have hsame := hr.trail.same
  refine paired_pure (Result.frame (s := s) (t := t) (a := { u with repeatRecur := s.repeatRecur })
    (b := { v with repeatRecur := s.repeatRecur }) hr ⟨rfl, rfl, rfl⟩ ⟨rfl, rfl, rfl⟩ ⟨rfl, rfl, rfl⟩
    ⟨rfl, rfl, rfl⟩ ?_ ?_)
  · exact hr.trail.twin.map (f := fun m => { m with repeatRecur := s.repeatRecur }) fun _ _ => rfl
  · exact ⟨hsame.links, hsame.cur, hsame.stop, rfl, hsame.depth⟩

omit hsim in
/-- Where the scan of the body finds no mark there is none. -/
theorem paired_repeatBodyHasMark (h : AtEnd E H lo q qs idx prev s t) :
    Paired (repeatBodyHasMark E idx) (repeatBodyHasMark E idx)
      (fun r r' u v => r = r' ∧ u = s ∧ v = t ∧ (r = false →
        ∀ i x, MarkAt E.cc.code i x → q + 4 ≤ x → untilOf E.cc.code q + 1 ≤ x)) s t := by
  have hflow := h.within.flow hwf hok
  have huntil := hwf.until_end hflow h.within.op
  have hlen : untilOf E.cc.code q < E.cc.code.length := by
    by_contra hlen
    have hnone : E.cc.code[untilOf E.cc.code q]? = none :=
      List.getElem?_eq_none_iff.mpr (Nat.le_of_not_lt hlen)
    rcases huntil with huntil | huntil <;> simp [opAt, hnone] at huntil
  -- the `UNTIL` itself is no mark
  have hmark {i x : ℕ} (hx : MarkAt E.cc.code i x) (hlt : x < untilOf E.cc.code q + 1) :
      x < untilOf E.cc.code q := by
    refine lt_of_le_of_ne (Nat.le_of_lt_succ hlt) ?_
    rintro rfl
    exact huntil.not_mark hx.2.1
  apply paired_bind
  apply paired_repeatAt h.rel.twin
  intro c hc
  obtain ⟨hpattern, -⟩ := h.within.ctx hc
  simp only [hpattern]
  apply paired_bind
  apply paired_lift
  intro skip hskip
  obtain rfl := arg_of_word hskip
  rw [show q + 1 + arg E.cc.code (q + 1) = untilOf E.cc.code q from rfl, min_eq_left hlen.le]
  apply paired_ite
  · intro _
    apply paired_lift
    rintro r hscan
    refine ⟨rfl, rfl, rfl, ?_⟩
    rintro rfl i x hx hqx
    by_contra hlt
    have hreads := hwf.reads hflow h.within.op hx hqx (hmark hx (Nat.lt_of_not_le hlt))
    exact (codeRangeHasMark_sound _).1 _ _ _ hscan hreads hx.2.1
  · intro hle
    refine paired_pure ⟨rfl, rfl, rfl, fun _ i x hx hqx => ?_⟩
    by_contra hlt
    have := hmark hx (Nat.lt_of_not_le hlt)
    omega

/-- A body without marks is matched any number of times. -/
theorem paired_greedyItems (h : AtEnd E H lo q qs idx prev s t)
    (hop : opAt E.cc.code (untilOf E.cc.code q) = some .MAX_UNTIL)
    (hnone : ∀ i x, MarkAt E.cc.code i x → q + 4 ≤ x → untilOf E.cc.code q + 1 ≤ x) (rmax : ℕ) :
    Paired (greedyItems fuel dm (untilOf E.cc.code q) idx rmax (q + 4) ptr)
      (greedyItems fuel dm' (untilOf E.cc.code q) idx rmax (q + 4) ptr)
      (fun r r' u v => r = r' ∧ Idle s t u v) s t := by
  have hflow := h.within.flow hwf hok
  have hbody := body_of_repeat h.within.op
  have hlevel := h.within.outer
  let home := bodyHome E.cc.code H qs q (q + 4) (untilOf E.cc.code q + 1) (some idx) (idx + 1)
  have hhome : home.Ok E.cc.code := bodyHome_ok hlevel hbody hwf hok
  let stop (m : Matcher) : Matcher := { m with repeatStop := some (untilOf E.cc.code q, idx) }
  have hrel : Rel E.cc.code home [] (q + 4) (stop s) (stop t) := {
    twin := h.rel.twin.map (f := stop) fun _ _ => rfl
    chain := by
      change Chain E.cc.code home (links s.repeats) [] s.curRepeat (q + 4)
      rw [h.within.cur]
      exact .home .refl
    floor := by
      have hlt := (List.getElem?_eq_some_iff.mp h.within.link).1
      rw [links, List.length_map] at hlt
      exact hlt
    stop_floor := by
      intro x i hx
      obtain ⟨-, rfl⟩ := Prod.mk.inj (Option.some.inj hx)
      exact Nat.lt_succ_self _
    stop_at := by
      intro x hx huntil
      obtain rfl := (hwf.until_level (.body hflow hbody) hx huntil).2.2
      exact ⟨hop, idx, rfl, rfl⟩
    fresh := h.rel.fresh.mono (unseen_tail H q qs _)
    agree := (h.rel.item h.within hwf hok).agree.of_open
      ((since_cons H q qs _ q).le.trans (since_tail H q qs le_rfl)) fun _ hg => hg }
  apply paired_bind
  apply paired_gets
  apply paired_bind
  apply paired_gets
  rw [h.rel.twin.eq (f := Matcher.repeatStop) fun _ _ => rfl,
    h.rel.twin.eq (f := Matcher.repeatRecur) fun _ _ => rfl]
  apply paired_bind
  apply paired_modify
  refine paired_seq (Q := fun r r' a b => r = r' ∧ Idle (stop s) (stop t) a b)
    (paired_loop (fun _ a b => Idle (stop s) (stop t) a b) ?_ (.refl hrel.twin)) ?_
  · rintro ⟨cur, n⟩ a b hab
    apply paired_ite
    · intro _
      exact paired_pure (.done ⟨rfl, hab⟩)
    intro _
    apply paired_bind
    apply paired_setPtr
    apply paired_bind
    apply paired_modify
    have hptr := hab.trans (.ptr hab.twin cur)
    have hab' := hptr.trans (.current hptr.twin (hab.left.cur.trans h.within.cur))
    refine paired_seq (paired_onError
      (paired_doMatch hsim hhome hrel ⟨le_refl (q + 4), by simp⟩ hab' false)) ?_
    intro r r' a' b' hr
    obtain rfl := hr.same
    have hidle := hr.trail.idle hrel.twin hnone
    apply paired_ite
    · intro _
      apply paired_bind
      apply paired_gets
      rw [hidle.twin.eq (f := Matcher.ptr) fun _ _ => rfl]
      apply paired_pure
      split_ifs
      · exact .done ⟨rfl, hidle⟩
      · exact .next hidle
    · intro _
      apply paired_bind
      apply paired_setPtr
      exact paired_pure (.done ⟨rfl, hidle.trans (.ptr hidle.twin cur)⟩)
  · rintro r _ a b ⟨rfl, hab⟩
    apply paired_bind
    apply paired_modify
    obtain ⟨-, ⟨hsame, hleft⟩, ⟨hsame', hright⟩⟩ := id hab
    refine paired_pure ⟨rfl, ?_, ⟨?_, hleft.marks, hleft.lastmark, hleft.lastindex⟩,
      ⟨?_, hright.marks, hright.lastmark, hright.lastindex⟩⟩
    · exact hab.twin.map (f := fun m => { m with repeatStop := s.repeatStop }) fun _ _ => rfl
    · exact ⟨hsame.links, hsame.cur, rfl, hsame.recur, hsame.depth⟩
    · have hstop := h.rel.twin.eq (f := Matcher.repeatStop) fun _ _ => rfl
      exact ⟨hsame'.links, hsame'.cur, hstop.symm, hsame'.recur, hsame'.depth⟩

theorem paired_maxUntilIterative (h : AtEnd E H lo q qs idx prev s t)
    (hop : opAt E.cc.code (untilOf E.cc.code q) = some .MAX_UNTIL)
    (hnone : ∀ i x, MarkAt E.cc.code i x → q + 4 ≤ x → untilOf E.cc.code q + 1 ≤ x) :
    Paired (maxUntilIterative E false fuel dm (untilOf E.cc.code q) idx ptr (untilOf E.cc.code q + 1) top)
      (maxUntilIterative E true fuel dm' (untilOf E.cc.code q) idx ptr (untilOf E.cc.code q + 1) top)
      (Result E.cc.code H lo s t) s t := by
  apply paired_bind
  apply paired_repeatAt h.rel.twin
  intro c hc
  obtain ⟨hpattern, -⟩ := h.within.ctx hc
  simp only [hpattern]
  apply paired_bind
  apply paired_lift
  intro rmax _
  apply paired_bind
  apply paired_lift
  intro rmin _
  apply paired_bind
  apply paired_gets
  apply paired_bind
  apply paired_gets
  rw [h.rel.twin.eq (f := Matcher.repeatRecur) fun _ _ => rfl]
  refine paired_seq (paired_greedyItems hsim hwf hok h hop hnone rmax) ?_
  rintro ⟨cur, n, empty⟩ _ u v ⟨rfl, hidle⟩
  refine paired_seq (Q := Result E.cc.code H lo s t) ?_ ?_
  · apply paired_ite
    · intro _
      exact paired_mono (paired_tryTail hsim hwf hok (h.idle hidle))
        fun _ _ _ _ hr => hr.of_trail hidle.trail
    · intro _
      exact paired_pure ⟨rfl, hidle.trail, nofun⟩
  intro r r' u v hr
  obtain rfl := hr.same
  apply paired_ite
  · rintro rfl
    exact paired_pure hr
  intro _
  apply paired_bind
  apply paired_modify
  have hback := hr.trail.restore_all h.rel.twin (by simp [h.within.cur])
  have hidle := hback.trans (.setRepeat hback.twin idx
    (f := fun ctx => { ctx with count := c.count, lastPtr := c.lastPtr }) fun _ => ⟨rfl, rfl⟩)
  apply paired_bind
  apply paired_modify
  have hcurrent : Idle s t _ _ := hidle.trans (.current hidle.twin
    (hidle.left.cur.trans h.within.cur))
  apply paired_bind
  apply paired_setPtr
  have hidle' := hcurrent.trans (.ptr hcurrent.twin ptr)
  exact paired_mono (paired_drivenRecursive hsim hwf hok (h.idle hidle') hidle'.left.recur _)
    fun _ _ _ _ hr => hr.of_trail hidle'.trail

theorem paired_maxUntilOp (hrel : Rel E.cc.code H qs p s t) (hlow : Low lo qs p)
    (hop : opAt E.cc.code p = some .MAX_UNTIL) :
    Paired (maxUntilOp E false fuel dm top (p + 1) ptr) (maxUntilOp E true fuel dm' top (p + 1) ptr)
      (Result E.cc.code H lo s t) s t := by
  apply paired_bind
  apply paired_gets
  rw [hrel.twin.eq (f := Matcher.curRepeat) fun _ _ => rfl]
  cases hcur : s.curRepeat with
  | none => exact paired_raise
  | some i =>
    apply paired_bind
    apply paired_gets
    rw [hrel.twin.eq (f := Matcher.repeatStop) fun _ _ => rfl, Nat.add_sub_cancel]
    rcases hrel.at_until (.inl hop) hwf hok with ⟨-, ⟨i', hi', hstop⟩, hexit⟩ |
      ⟨q, qs, idx, prev, rfl, rfl, hin⟩
    · obtain rfl : i' = i := Option.some.inj (hi'.symm.trans hcur)
      apply paired_ite
      · intro _
        apply paired_bind
        apply paired_setPtr
        refine paired_pure ⟨rfl, (Idle.ptr hrel.twin ptr).trail, fun _ => ⟨p, ?_⟩⟩
        exact hexit.same ⟨rfl, rfl, rfl⟩ ⟨rfl, rfl, rfl⟩
      · intro hne
        exact absurd hstop hne
    · obtain rfl : i = idx := Option.some.inj (hcur.symm.trans hin.cur)
      have h : AtEnd E H lo q qs i prev s t := ⟨hrel, hin, hlow⟩
      apply paired_ite
      · intro hstop
        have := hrel.stop_floor _ _ hstop
        have := hin.floor
        omega
      intro _
      apply paired_bind
      apply paired_gets
      rw [hrel.twin.eq (f := Matcher.repeatRecur) fun _ _ => rfl]
      apply paired_ite
      · intro _
        exact paired_maxUntilRecursive hsim hwf hok h
      intro _
      refine paired_seq (paired_repeatBodyHasMark hwf hok h) ?_
      rintro r _ u v ⟨rfl, rfl, rfl, hnone⟩
      apply paired_ite
      · intro _
        apply paired_bind
        apply paired_gets
        rw [hrel.twin.eq (f := Matcher.repeatRecur) fun _ _ => rfl]
        exact paired_drivenRecursive hsim hwf hok h rfl _
      · intro hr
        exact paired_maxUntilIterative hsim hwf hok h hop (hnone (eq_false_of_ne_true hr))

theorem paired_minUntilOp (hrel : Rel E.cc.code H qs p s t) (hlow : Low lo qs p)
    (hop : opAt E.cc.code p = some .MIN_UNTIL) :
    Paired (minUntilOp E false dm top (p + 1) ptr) (minUntilOp E true dm' top (p + 1) ptr)
      (Result E.cc.code H lo s t) s t := by
  rcases hrel.at_until (.inr hop) hwf hok with ⟨hmax, -⟩ | ⟨q, qs, idx, prev, rfl, rfl, hin⟩
  · simp [hop] at hmax
  · exact paired_minUntil hsim hwf hok ⟨hrel, hin, hlow⟩

end Untils

end WeavePy.Regex
