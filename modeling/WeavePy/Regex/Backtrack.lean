import WeavePy.Regex.Captures
import Mathlib.Algebra.Ring.Parity

/-!
Marks set, choices taken back, and bodies entered and left: what each does to two matchers that save
different snapshots.
-/

namespace WeavePy.Regex

open Prog

variable {code : List ℕ} {H : Home} {qs : List ℕ} {lo lo' hi p p' a b e i ptr : ℕ}
  {s t u v s' t' : Matcher}

section Marks

theorem setMark_getElem? {m : Matcher} (hi : i < m.marks.length) (j : ℕ) :
    (m.setMark i ptr).marks[j]? = if j = i then some (ptr : ℤ) else
      if m.lastmark < j ∧ j < i then m.marks[j]?.map fun _ => -1 else m.marks[j]? := by
  unfold Matcher.setMark
  dsimp only
  rw [List.getElem?_set, List.length_mapIdx, List.getElem?_mapIdx]
  by_cases hj : i = j
  · simp [hj, hj ▸ hi]
  · rw [if_neg hj, if_neg (Ne.symm hj)]
    split_ifs
    · rfl
    · simp

@[simp] theorem setMark_lastmark (m : Matcher) : (m.setMark i ptr).lastmark = max m.lastmark i := rfl

theorem confined_setMark (hi : i < s.marks.length) (hmark : MarkAt code i p) (hlo : lo ≤ p)
    (hhi : p < b) : Confined code lo b s (s.setMark i ptr) where
  length := by simp [Matcher.setMark]
  le := le_max_left _ _
  kept j hj hout := by
    have hne : j ≠ i := by
      rintro rfl
      have := hout p hmark hlo
      omega
    rw [setMark_getElem? hi, if_neg hne, if_neg (by omega)]
  idle hout := by
    have := hout i p hmark hlo
    omega

/-- A group that is open after a mark was open before, or the mark is its beginning. -/
theorem isOpen_of_mark (hwf : WellFormed code) (hmark : MarkAt code i p) {g : ℕ}
    (h : IsOpen code g p) (hi : i ≠ 2 * g + 1) : IsOpen code g (p + 2) := by
  obtain ⟨o, c, hg, ho, hc⟩ := h
  have hne : p ≠ c := by
    rintro rfl
    have h := hg.2.2.2
    rw [hmark.2.2] at h
    exact hi h
  have hnext : Next code p (p + 2) := by
    unfold Next
    rw [hmark.2.1]
  exact ⟨o, c, hg, by omega, hwf.nested hg hmark.1 ho (lt_of_le_of_ne hc hne) hnext⟩

theorem Rel.mark (h : Rel code H qs p s t) (hwf : WellFormed code) (hok : H.Ok code)
    (hmark : MarkAt code i p) (hi : i < s.marks.length) :
    Rel code H qs (p + 2) (s.setMark i ptr) (t.setMark i ptr) := by
  have hnext : Next code p (p + 2) := by
    unfold Next
    rw [hmark.2.1]
  have hchain := h.chain.next hnext hwf hok
  have hunseen : p < unseen code H qs (p + 2) :=
    lt_of_lt_of_le (Nat.lt_add_of_pos_right Nat.two_pos) (le_unseen hchain hwf hok)
  have htwin : t.lastmark = s.lastmark := h.twin.eq fun _ _ => rfl
  refine h.of_same ?_ ⟨rfl, rfl, rfl, rfl, rfl⟩ hchain ?_ ⟨?_, ?_⟩
  · obtain ⟨m, rfl⟩ := h.twin
    exact ⟨_, rfl⟩
  · -- groups that are unseen are opened later, so their numbers are larger
    intro g o hopen ho
    have hlast := h.fresh g o hopen ((unseen_mono H qs hnext.lt.le).trans ho)
    have hlt : i < 2 * g := by
      obtain ⟨k, rfl | rfl⟩ := Nat.even_or_odd' i
      · have := hwf.ordered hmark hopen (hunseen.trans_le ho)
        omega
      · obtain ⟨o', ho', hopen'⟩ := hwf.opened hmark
        have := hwf.ordered hopen' hopen (ho'.trans (hunseen.trans_le ho))
        omega
    rw [setMark_lastmark]
    omega
  · simpa [Matcher.setMark] using h.agree.1
  · intro j hj hnot
    rw [setMark_getElem? hi, setMark_getElem? (h.agree.1 ▸ hi), htwin]
    by_cases hji : j = i
    · rw [if_pos hji, if_pos hji]
    · rw [if_neg hji, if_neg hji]
      by_cases hbetween : s.lastmark < j ∧ j < i
      · rw [if_pos hbetween, if_pos hbetween]
        have hlen : j < s.marks.length := hbetween.2.trans hi
        rw [List.getElem?_eq_getElem hlen, List.getElem?_eq_getElem (h.agree.1 ▸ hlen)]
        rfl
      · rw [if_neg hbetween, if_neg hbetween]
        rw [setMark_lastmark] at hj
        refine h.agree.2 j (by omega) fun g hg hchosen hopen => hnot g hg ?_ ?_
        · exact hchosen.mono (since_mono H qs hnext.lt.le)
        · exact isOpen_of_mark hwf hmark hopen (by omega)

end Marks

section Choices

/-- From where on the marks that an attempt at `p` can set are. -/
def attemptLow (cur : Option ℕ) (lo p : ℕ) : ℕ := if cur = none then p else lo

theorem le_attemptLow (cur : Option ℕ) (h : lo ≤ p) : lo ≤ attemptLow cur lo p := by
  unfold attemptLow
  split_ifs
  · exact h
  · exact le_rfl

/-- Inside a repeat both matchers take everything back. -/
theorem Trail.restore_all (h : Trail code lo hi s t u v) (hs : Twin s t) (hcur : s.curRepeat ≠ none) :
    Idle s t (u.restore (s.snapshot false)) (v.restore (t.snapshot true)) := by
  have hsome : s.curRepeat.isSome = true := Option.isSome_iff_ne_none.mpr hcur
  obtain ⟨m, rfl⟩ := hs
  obtain ⟨l, rfl⟩ := h.twin
  have hsame := h.same
  refine ⟨⟨m, by simp [Matcher.restore, Matcher.snapshot]⟩, ⟨?_, ?_⟩, ⟨?_, ?_⟩⟩
  · exact ⟨hsame.links, hsame.cur, hsame.stop, hsame.recur, hsame.depth⟩
  · exact ⟨by simp [Matcher.restore, Matcher.snapshot, hsome], rfl, rfl⟩
  · exact ⟨hsame.links, hsame.cur, hsame.stop, hsame.recur, hsame.depth⟩
  · exact ⟨by simp [Matcher.restore, Matcher.snapshot], rfl, rfl⟩

theorem IsChoice.chosen (h : IsChoice code p) (hflow : Flow code p) {g o x : ℕ}
    (hg : GroupAt code g o x) (ho : o < p) : Chosen code g p :=
  ⟨o, p, hg.1, hflow, h, ho, le_rfl⟩

/-- Outside of repeats the marks that an attempt leaves behind are above the last one, or they are the
ends of groups in which the attempt was made. -/
theorem Rel.restore (h : Rel code H qs p s t) (hwf : WellFormed code)
    (hchosen : ∀ g o x, GroupAt code g o x → o < p → p ≤ x → x < hi → Chosen code g p)
    (htrail : Trail code (attemptLow s.curRepeat lo p) hi s t u v) :
    Rel code H qs p (u.restore (s.snapshot false)) (v.restore (t.snapshot true)) ∧
      Trail code (attemptLow s.curRepeat lo p) hi s t (u.restore (s.snapshot false))
        (v.restore (t.snapshot true)) := by
  cases hcur : s.curRepeat with
  | some idx =>
    have hidle := htrail.restore_all h.twin (by simp [hcur])
    exact ⟨h.idle hidle, hidle.trail⟩
  | none =>
    have hcheap : (s.snapshot false).marks = none := by simp [Matcher.snapshot, hcur]
    obtain ⟨rfl, hH⟩ := (hcur ▸ h.chain).cur_none
    rw [attemptLow, if_pos hcur] at htrail
    rw [attemptLow, if_pos rfl]
    have hlen := htrail.left.length
    have hsame : SameRepeats s (u.restore (s.snapshot false)) :=
      ⟨htrail.same.links, htrail.same.cur, htrail.same.stop, htrail.same.recur, htrail.same.depth⟩
    have hmarks : (u.restore (s.snapshot false)).marks = u.marks := by
      simp [Matcher.restore, hcheap]
    have hmarks' : (v.restore (t.snapshot true)).marks = t.marks := by
      simp [Matcher.restore, Matcher.snapshot]
    have htwin : Twin (u.restore (s.snapshot false)) (v.restore (t.snapshot true)) := by
      obtain ⟨m, rfl⟩ := h.twin
      obtain ⟨l, rfl⟩ := htrail.twin
      exact ⟨m, by simp [Matcher.restore, Matcher.snapshot]⟩
    refine ⟨h.of_same htwin hsame h.chain h.fresh ⟨?_, ?_⟩, htwin, ?_, ?_, hsame⟩
    · rw [hmarks, hmarks', hlen]
      exact h.agree.1
    · intro j hj hnot
      change (j : ℤ) ≤ s.lastmark at hj
      rw [hmarks, hmarks']
      have hsince : since H [] p = p := by simp [since, hH]
      have hunseen : unseen code H [] p = p := by simp [unseen, hH]
      rw [htrail.left.kept j hj, h.agree.2 j hj hnot]
      -- a mark in the code of the attempt ends a group that was open before
      intro x hx hpx
      by_contra hxhi
      have hfresh := hunseen ▸ h.fresh
      obtain ⟨g, rfl | rfl⟩ := Nat.even_or_odd' j
      · exact absurd hj (not_le.mpr (hfresh g x hx hpx))
      · obtain ⟨o, ho, hopen⟩ := hwf.opened hx
        by_cases hop : p ≤ o
        · have := hfresh g o hopen hop
          omega
        · have ho' := Nat.lt_of_not_le hop
          have hchosen := hchosen g o x ⟨hopen, hx⟩ ho' hpx (Nat.lt_of_not_le hxhi)
          exact hnot g rfl (hsince.symm ▸ hchosen) ⟨o, x, ⟨hopen, hx⟩, ho', hpx⟩
    · exact ⟨by rw [hmarks, hlen], le_rfl, fun j hj hout => by rw [hmarks, htrail.left.kept j hj hout],
        fun hout => ⟨by rw [hmarks, (htrail.left.idle hout).1], rfl, rfl⟩⟩
    · exact SameCaptures.confined ⟨hmarks', rfl, rfl⟩

end Choices

section Bodies

/-- The home of a run of the body from `b` to `e` of the op at `a`. -/
def bodyHome (code : List ℕ) (H : Home) (qs : List ℕ) (a b e : ℕ) (cur : Option ℕ) (floor : ℕ) : Home :=
  ⟨b, e, cur, since H qs a, unseen code H qs e, floor⟩

variable {ls : List (ℕ × Option ℕ)} {c cur : Option ℕ} {floor g x : ℕ}

theorem bodyHome_ok (hchain : Chain code H ls qs c a) (hbody : Body code a b e) (hwf : WellFormed code)
    (hok : H.Ok code) : (bodyHome code H qs a b e cur floor).Ok code := by
  have hflow := hchain.not_until hbody.not_until hwf hok
  exact {
    entry := hflow.entry hbody
    inside := fun x hx => hwf.inside (.body hflow hbody) hx
    since_le := fun _ => (hchain.since_le hok).trans hbody.lt.le
    stop_le := fun _ => le_unseen (hchain.next hbody.next hwf hok) hwf hok }

theorem since_bodyHome (hchain : Chain code H ls qs c a) (hok : H.Ok code) (h : a ≤ p) :
    since H qs a ≤ since (bodyHome code H qs a b e cur floor) [] p := by
  cases cur with
  | some i => exact le_rfl
  | none => exact (hchain.since_le hok).trans h

theorem since_leave (hchain : Chain code H ls qs c a) (hcur : cur = none → c = none) (ha : a ≤ e)
    (h : p ≤ e) : since (bodyHome code H qs a b e cur floor) [] p ≤ since H qs e := by
  cases cur with
  | some i => exact since_mono H qs ha
  | none =>
    obtain ⟨rfl, hH⟩ := (hcur rfl ▸ hchain).cur_none
    simpa [since, bodyHome, hH] using h

theorem unseen_bodyHome (hchain : Chain code H ls qs c a) (hcur : cur = none → c = none) (ha : a ≤ e)
    (h : a ≤ p) : unseen code H qs a ≤ unseen code (bodyHome code H qs a b e cur floor) [] p := by
  cases cur with
  | some i => exact unseen_mono H qs ha
  | none =>
    obtain ⟨rfl, hH⟩ := (hcur rfl ▸ hchain).cur_none
    simpa [unseen, bodyHome, hH] using h

theorem unseen_leave (hchain : Chain code H ls qs c a) (hcur : cur = none → c = none) (h : p ≤ e) :
    unseen code (bodyHome code H qs a b e cur floor) [] p ≤ unseen code H qs e := by
  cases cur with
  | some i => exact le_rfl
  | none =>
    obtain ⟨rfl, hH⟩ := (hcur rfl ▸ hchain).cur_none
    simpa [unseen, bodyHome, hH] using h

theorem isOpen_enter (hwf : WellFormed code) (hflow : Flow code a) (hbody : Body code a b e)
    (h : IsOpen code g a) : IsOpen code g b := by
  obtain ⟨o, c, hg, ho, hc⟩ := h
  have hne : a ≠ c := by
    rintro rfl
    exact hbody.not_mark hg.2.2.1
  have := hwf.nested hg hflow ho (lt_of_le_of_ne hc hne) hbody.next
  have := hwf.inside (.body hflow hbody) .refl
  exact ⟨o, c, hg, ho.trans hbody.lt, by omega⟩

theorem isOpen_again (hwf : WellFormed code) (hflow : Flow code a) (hbody : Body code a b e)
    (h : IsOpen code g e) : IsOpen code g b := by
  obtain ⟨o, c, hg, ho, hc⟩ := h
  have hlt := hbody.lt
  have := hwf.inside (.body hflow hbody) .refl
  refine ⟨o, c, hg, ?_, by omega⟩
  by_contra hob
  have := hwf.closed (.body hflow hbody) hg (by omega) ho
  omega

theorem isOpen_leave (hwf : WellFormed code) (hflow : Flow code a) (hbody : Body code a b e)
    (hlevel : Level code b x) (hop : opAt code x = some .SUCCESS) (h : IsOpen code g x) :
    IsOpen code g e := by
  obtain ⟨o, c, hg, ho, hc⟩ := h
  have hx := hwf.inside (.body hflow hbody) hlevel
  have hlt := hbody.lt.trans_le hlevel.le
  have hoa : o < a := by
    by_contra hao
    have := hwf.ended (.body hflow hbody) hlevel hop hg (by omega) ho
    omega
  exact ⟨o, c, hg, by omega, hwf.nested hg hflow hoa (by omega) hbody.next⟩

/-- A body that is entered with the repeats as they are. -/
theorem Rel.enter (h : Rel code H qs a s t) (hwf : WellFormed code) (hok : H.Ok code)
    (hbody : Body code a b e) (hop : opAt code a ≠ some .REPEAT) :
    Rel code (bodyHome code H qs a b e s.curRepeat s.repeats.length) [] b s t := by
  have hflow := h.flow hbody.not_until hwf hok
  exact {
    twin := h.twin
    chain := .home .refl
    floor := le_rfl
    stop_floor := fun x i hx => (h.stop_floor x i hx).trans_le h.floor
    stop_at := fun x hx huntil => absurd (hwf.until_level (.body hflow hbody) hx huntil).2.1 hop
    fresh := h.fresh.mono (unseen_bodyHome h.chain id hbody.next.lt.le hbody.lt.le)
    agree := h.agree.of_open (since_bodyHome h.chain hok hbody.lt.le)
      fun _ hg => isOpen_enter hwf hflow hbody hg }

theorem Rel.leave (h : Rel code H qs a s t) (hwf : WellFormed code) (hok : H.Ok code)
    (hbody : Body code a b e) (hop : opAt code a ≠ some .REPEAT) (htrail : Trail code b e s t u v)
    (hexit : Exit code (bodyHome code H qs a b e s.curRepeat s.repeats.length) u v x) :
    Rel code H qs e u v := by
  have hflow := h.flow hbody.not_until hwf hok
  have hx := (hwf.inside (.body hflow hbody) hexit.level).le
  have hend : opAt code x = some .SUCCESS := by
    refine hexit.final.resolve_right fun huntil => hop ?_
    exact (hwf.until_level (.body hflow hbody) hexit.level huntil).2.1
  refine h.of_same htrail.twin htrail.same (h.chain.next hbody.next hwf hok) ?_ ?_
  · exact hexit.fresh.mono (unseen_leave h.chain id hx)
  · exact hexit.agree.of_open (since_leave h.chain id hbody.next.lt.le hx)
      fun _ hg => isOpen_leave hwf hflow hbody hexit.level hend hg

/-- The marks of a body are among those that the run may set. -/
theorem Trail.of_body (h : Trail code b e s t u v) (hrel : Rel code H qs a s t) (hwf : WellFormed code)
    (hok : H.Ok code) (hbody : Body code a b e) (hlo : lo ≤ a) : Trail code lo H.stop s t u v :=
  h.mono (hlo.trans hbody.lt.le) ((hrel.chain.next hbody.next hwf hok).lt_stop hwf hok).1.le

end Bodies

end WeavePy.Regex
