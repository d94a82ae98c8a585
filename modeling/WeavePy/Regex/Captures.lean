import WeavePy.Regex.Flow
import Mathlib.Data.Int.Order.Basic

/-!
What two matchers that save different snapshots have in common: everything but marks that cannot be
read before they are set again.
-/

namespace WeavePy.Regex

open Prog

/-- The level a match returns to, and where it stands: its start, where it ends at the latest, the
repeat that is current on it, when there is one up to where choices were made outside of repeats and
from where on groups are still unseen, and the repeats that were entered before it. -/
structure Home where
  entry : ℕ
  stop : ℕ
  cur : Option ℕ
  since : ℕ
  bound : ℕ
  floor : ℕ

variable {code : List ℕ}

structure Home.Ok (code : List ℕ) (H : Home) : Prop where
  entry : Entry code H.entry
  inside : ∀ x, Level code H.entry x → x < H.stop
  since_le : H.cur ≠ none → H.since ≤ H.entry
  stop_le : H.cur ≠ none → H.stop ≤ H.bound

/-- The repeats as they are linked: their positions, and the repeats around them. -/
def links (reps : List RepeatCtx) : List (ℕ × Option ℕ) := reps.map fun c => (c.pattern, c.prev)

/-- The code position `p` is in the bodies of the repeats `qs`, the innermost first, which are linked
from `cur`; the outermost is on the level of `H`. -/
inductive Chain (code : List ℕ) (H : Home) (ls : List (ℕ × Option ℕ)) :
    List ℕ → Option ℕ → ℕ → Prop
  | home {p : ℕ} : Level code H.entry p → Chain code H ls [] H.cur p
  | body {idx q p : ℕ} {qs : List ℕ} {prev : Option ℕ} : H.floor ≤ idx →
      ls[idx]? = some (q + 1, prev) → opAt code q = some .REPEAT →
      (Level code (q + 4) p ∨ p = untilOf code q) → Chain code H ls qs prev q →
      Chain code H ls (q :: qs) (some idx) p

/-- From where on groups are still unseen at `p`: no mark of them is the last one. -/
def unseen (code : List ℕ) (H : Home) (qs : List ℕ) (p : ℕ) : ℕ :=
  match H.cur, qs.getLast? with
  | some _, _ => H.bound
  | none, some q => untilOf code q + 1
  | none, none => p

/-- Up to where choices were made outside of repeats, at `p`. -/
def since (H : Home) (qs : List ℕ) (p : ℕ) : ℕ :=
  match H.cur, qs.getLast? with
  | some _, _ => H.since
  | none, some q => q
  | none, none => p

section Chain

variable {H : Home} {ls : List (ℕ × Option ℕ)} {qs : List ℕ} {cur : Option ℕ} {p p' q : ℕ}

theorem body_of_repeat (h : opAt code q = some .REPEAT) :
    Body code q (q + 4) (untilOf code q + 1) := by
  unfold Body
  rw [h]
  exact ⟨rfl, rfl⟩

theorem Chain.not_until (h : Chain code H ls qs cur p) (hp : ¬ IsUntil code p)
    (hwf : WellFormed code) (hok : H.Ok code) : Flow code p := by
  induction h with
  | home hlevel => exact .of_entry hok.entry hlevel
  | body _ _ hop hlevel _ ih =>
    have hq : Flow code _ := ih fun h => by rcases h with h | h <;> simp [hop] at h
    rcases hlevel with hlevel | rfl
    · exact .of_entry (hq.entry (body_of_repeat hop)) hlevel
    · exact absurd (hwf.until_end hq hop) hp

theorem Chain.next (h : Chain code H ls qs cur p) (hnext : Next code p p')
    (hwf : WellFormed code) (hok : H.Ok code) : Chain code H ls qs cur p' := by
  cases h with
  | home hlevel => exact .home (hlevel.tail hnext)
  | body hfloor hidx hop hlevel htail =>
    refine .body hfloor hidx hop (.inl ?_) htail
    rcases hlevel with hlevel | rfl
    · exact hlevel.tail hnext
    · have hq := htail.not_until (fun h => by rcases h with h | h <;> simp [hop] at h) hwf hok
      exact absurd hnext (hwf.until_end hq hop).not_next

theorem Chain.append (h : Chain code H ls qs cur p) (more : List (ℕ × Option ℕ)) :
    Chain code H (ls ++ more) qs cur p := by
  induction h with
  | home hlevel => exact .home hlevel
  | body hfloor hidx hop hlevel _ ih =>
    obtain ⟨hlt, -⟩ := List.getElem?_eq_some_iff.mp hidx
    exact .body hfloor ((List.getElem?_append_left hlt).trans hidx) hop hlevel ih

theorem Chain.lt_stop (h : Chain code H ls qs cur p) (hwf : WellFormed code) (hok : H.Ok code) :
    p < H.stop ∧ ∀ q ∈ qs.getLast?, p ≤ untilOf code q := by
  induction qs generalizing cur p with
  | nil =>
    cases h with
    | home hlevel => exact ⟨hok.inside p hlevel, by simp⟩
  | cons q qs ih =>
    cases h with
    | body hfloor hidx hop hlevel htail =>
      have hq := htail.not_until (fun h => by rcases h with h | h <;> simp [hop] at h) hwf hok
      have hbody := body_of_repeat hop
      have hp : p ≤ untilOf code q := by
        rcases hlevel with hlevel | rfl
        · exact Nat.le_of_lt_succ (hwf.inside (.body hq hbody) hlevel)
        · exact le_rfl
      -- after the repeat control is in the repeats around it
      obtain ⟨hstop, hlast⟩ := ih (htail.next hbody.next hwf hok)
      refine ⟨by omega, fun q' hq' => ?_⟩
      cases qs with
      | nil =>
        obtain rfl := Option.some.inj hq'
        exact hp
      | cons r rs =>
        rw [List.getLast?_cons_cons] at hq'
        have := hlast q' hq'
        omega

theorem Chain.cur_none (h : Chain code H ls qs none p) : qs = [] ∧ H.cur = none := by
  generalize hcur : (none : Option ℕ) = cur at h
  cases h with
  | home _ => exact ⟨rfl, rfl⟩
  | body _ _ _ _ _ => nomatch hcur

theorem Chain.lt_unseen (h : Chain code H ls qs cur p) (hwf : WellFormed code) (hok : H.Ok code)
    (hcur : cur ≠ none) : p < unseen code H qs p := by
  obtain ⟨hstop, hlast⟩ := h.lt_stop hwf hok
  unfold unseen
  cases hH : H.cur with
  | some i => exact hstop.trans_le (hok.stop_le (by simp [hH]))
  | none =>
    cases hq : qs.getLast? with
    | some q => exact Nat.lt_succ_of_le (hlast q hq)
    | none =>
      obtain rfl := List.getLast?_eq_none_iff.mp hq
      cases h with
      | home _ => exact absurd hH hcur

theorem le_unseen (h : Chain code H ls qs cur p) (hwf : WellFormed code) (hok : H.Ok code) :
    p ≤ unseen code H qs p := by
  cases cur with
  | some i => exact (h.lt_unseen hwf hok (by simp)).le
  | none =>
    obtain ⟨rfl, hH⟩ := h.cur_none
    simp [unseen, hH]

theorem Chain.ge (h : Chain code H ls qs cur p) : H.entry ≤ p ∧ ∀ q ∈ qs.getLast?, q ≤ p := by
  induction h with
  | home hlevel => exact ⟨hlevel.le, by simp⟩
  | @body idx q p qs prev _ _ _ hlevel _ ih =>
    have hp : q ≤ p := by
      rcases hlevel with hlevel | rfl
      · have := hlevel.le
        omega
      · unfold untilOf
        omega
    refine ⟨ih.1.trans hp, fun q' hq' => ?_⟩
    cases qs with
    | nil =>
      obtain rfl := Option.some.inj hq'
      exact hp
    | cons r rs => exact (ih.2 q' (by rwa [List.getLast?_cons_cons] at hq')).trans hp

theorem Chain.since_le (h : Chain code H ls qs cur p) (hok : H.Ok code) : since H qs p ≤ p := by
  obtain ⟨hentry, hlast⟩ := h.ge
  unfold since
  cases hH : H.cur with
  | some i => exact (hok.since_le (by simp [hH])).trans hentry
  | none =>
    cases hq : qs.getLast? with
    | some q => exact hlast q hq
    | none => exact le_rfl

theorem since_mono (H : Home) (qs : List ℕ) (h : p ≤ p') : since H qs p ≤ since H qs p' := by
  unfold since
  cases H.cur with
  | some i => exact le_rfl
  | none =>
    cases qs.getLast? with
    | some q => exact le_rfl
    | none => exact h

/-- Ahead of `p`, less is unseen. -/
theorem unseen_mono (H : Home) (qs : List ℕ) (h : p ≤ p') :
    unseen code H qs p ≤ unseen code H qs p' := by
  unfold unseen
  cases H.cur with
  | some i => exact le_rfl
  | none =>
    cases qs.getLast? with
    | some q => exact le_rfl
    | none => exact h

/-- In a repeat, what is unseen does not change. -/
theorem unseen_const (h : H.cur ≠ none ∨ qs ≠ []) (p p' : ℕ) :
    unseen code H qs p = unseen code H qs p' := by
  unfold unseen
  cases hH : H.cur with
  | some i => rfl
  | none =>
    cases hq : qs.getLast? with
    | some q => rfl
    | none =>
      obtain rfl := List.getLast?_eq_none_iff.mp hq
      simp [hH] at h

end Chain

section Relation

/-- No mark of a group that is still unseen at `b` is the last one. -/
def Fresh (code : List ℕ) (b : ℕ) (lastmark : ℤ) : Prop :=
  ∀ g o, MarkAt code (2 * g) o → b ≤ o → lastmark < (2 * g : ℕ)

/-- Up to the last one the marks are the same, but for the ends of groups that are open at `p` and in
which a choice was made up to `d`. -/
def Agree (code : List ℕ) (d p : ℕ) (s t : Matcher) : Prop :=
  s.marks.length = t.marks.length ∧ ∀ i : ℕ, (i : ℤ) ≤ s.lastmark →
    (∀ g, i = 2 * g + 1 → Chosen code g d → ¬ IsOpen code g p) → s.marks[i]? = t.marks[i]?

/-- The two matchers differ in their marks only. -/
def Twin (s t : Matcher) : Prop := ∃ m, t = { s with marks := m }

structure Rel (code : List ℕ) (H : Home) (qs : List ℕ) (p : ℕ) (s t : Matcher) : Prop where
  twin : Twin s t
  chain : Chain code H (links s.repeats) qs s.curRepeat p
  floor : H.floor ≤ s.repeats.length
  stop_floor : ∀ x i, s.repeatStop = some (x, i) → i < H.floor
  /-- A level that ends with an `UNTIL` belongs to the repeat that is to stop there. -/
  stop_at : ∀ x, Level code H.entry x → IsUntil code x →
    opAt code x = some .MAX_UNTIL ∧ ∃ i, H.cur = some i ∧ s.repeatStop = some (x, i)
  fresh : Fresh code (unseen code H qs p) s.lastmark
  agree : Agree code (since H qs p) p s t

/-- What a run that stays from `lo` on, and before `hi`, does to the marks. -/
structure Confined (code : List ℕ) (lo hi : ℕ) (s s' : Matcher) : Prop where
  length : s'.marks.length = s.marks.length
  le : s.lastmark ≤ s'.lastmark
  kept : ∀ i : ℕ, (i : ℤ) ≤ s.lastmark → (∀ x, MarkAt code i x → lo ≤ x → hi ≤ x) →
    s'.marks[i]? = s.marks[i]?
  idle : (∀ i x, MarkAt code i x → lo ≤ x → hi ≤ x) →
    s'.marks = s.marks ∧ s'.lastmark = s.lastmark ∧ s'.lastindex = s.lastindex

/-- The repeats that a run leaves as they were. -/
structure SameRepeats (s s' : Matcher) : Prop where
  links : links s'.repeats = links s.repeats
  cur : s'.curRepeat = s.curRepeat
  stop : s'.repeatStop = s.repeatStop
  recur : s'.repeatRecur = s.repeatRecur
  depth : s'.depth = s.depth

/-- Two runs side by side, from `s` to `s'` and from `t` to `t'`. -/
structure Trail (code : List ℕ) (lo hi : ℕ) (s t s' t' : Matcher) : Prop where
  twin : Twin s' t'
  left : Confined code lo hi s s'
  right : Confined code lo hi t t'
  same : SameRepeats s s'

/-- Where a match ends on the level of `H`. -/
structure Exit (code : List ℕ) (H : Home) (s t : Matcher) (x : ℕ) : Prop where
  level : Level code H.entry x
  final : opAt code x = some .SUCCESS ∨ IsUntil code x
  fresh : Fresh code (unseen code H [] x) s.lastmark
  agree : Agree code (since H [] x) x s t

/-- How two matches that started in `s` and `t` end. -/
structure Result (code : List ℕ) (H : Home) (lo : ℕ) (s t : Matcher) (r r' : Bool) (s' t' : Matcher) :
    Prop where
  same : r = r'
  trail : Trail code lo H.stop s t s' t'
  exit : r = true → ∃ x, Exit code H s' t' x

variable {H : Home} {qs : List ℕ} {lo lo' hi hi' d d' p p' b : ℕ} {L : ℤ} {s t u v w s' t' : Matcher}

theorem Fresh.mono (h : Fresh code b L) {b' : ℕ} (hb : b ≤ b') : Fresh code b' L :=
  fun g o hmark ho => h g o hmark (hb.trans ho)

theorem Confined.refl (s : Matcher) : Confined code lo hi s s :=
  ⟨rfl, le_rfl, fun _ _ _ => rfl, fun _ => ⟨rfl, rfl, rfl⟩⟩

theorem Confined.trans (h : Confined code lo hi s u) (h' : Confined code lo hi u w) :
    Confined code lo hi s w where
  length := h'.length.trans h.length
  le := h.le.trans h'.le
  kept i hi hx := (h'.kept i (hi.trans h.le) hx).trans (h.kept i hi hx)
  idle hx := by
    obtain ⟨hm, hl, hi⟩ := h.idle hx
    obtain ⟨hm', hl', hi'⟩ := h'.idle hx
    exact ⟨hm'.trans hm, hl'.trans hl, hi'.trans hi⟩

theorem Confined.mono (h : Confined code lo' hi' s u) (hlo : lo ≤ lo') (hhi : hi' ≤ hi) :
    Confined code lo hi s u where
  length := h.length
  le := h.le
  kept i hi hx := h.kept i hi fun x hmark hx' => hhi.trans (hx x hmark (hlo.trans hx'))
  idle hx := h.idle fun i x hmark hx' => hhi.trans (hx i x hmark (hlo.trans hx'))

theorem SameRepeats.trans (h : SameRepeats s u) (h' : SameRepeats u w) : SameRepeats s w :=
  ⟨h'.links.trans h.links, h'.cur.trans h.cur, h'.stop.trans h.stop, h'.recur.trans h.recur,
    h'.depth.trans h.depth⟩

theorem SameRepeats.length (h : SameRepeats s u) : u.repeats.length = s.repeats.length := by
  have := congrArg List.length h.links
  rwa [Regex.links, Regex.links, List.length_map, List.length_map] at this

theorem Trail.trans (h : Trail code lo hi s t u v) (h' : Trail code lo hi u v s' t') :
    Trail code lo hi s t s' t' :=
  ⟨h'.twin, h.left.trans h'.left, h.right.trans h'.right, h.same.trans h'.same⟩

theorem Trail.mono (h : Trail code lo' hi' s t u v) (hlo : lo ≤ lo') (hhi : hi' ≤ hi) :
    Trail code lo hi s t u v :=
  ⟨h.twin, h.left.mono hlo hhi, h.right.mono hlo hhi, h.same⟩

theorem Result.of_trail {r r' : Bool} (h : Trail code lo H.stop s t u v)
    (h' : Result code H lo u v r r' s' t') : Result code H lo s t r r' s' t' :=
  ⟨h'.same, h.trans h'.trail, h'.exit⟩

theorem Result.mono {r r' : Bool} (h : Result code H lo' s t r r' s' t') (hlo : lo ≤ lo') :
    Result code H lo s t r r' s' t' := ⟨h.same, h.trail.mono hlo le_rfl, h.exit⟩

/-- A step that leaves the captures alone. -/
structure SameCaptures (s s' : Matcher) : Prop where
  marks : s'.marks = s.marks
  lastmark : s'.lastmark = s.lastmark
  lastindex : s'.lastindex = s.lastindex

structure Still (s s' : Matcher) : Prop extends SameRepeats s s', SameCaptures s s'

/-- Two steps side by side that leave the captures alone, and the links of the repeats. -/
structure Idle (s t s' t' : Matcher) : Prop where
  twin : Twin s' t'
  left : Still s s'
  right : Still t t'

theorem SameCaptures.refl (s : Matcher) : SameCaptures s s := ⟨rfl, rfl, rfl⟩

theorem SameCaptures.trans (h : SameCaptures s u) (h' : SameCaptures u w) : SameCaptures s w :=
  ⟨h'.marks.trans h.marks, h'.lastmark.trans h.lastmark, h'.lastindex.trans h.lastindex⟩

theorem Still.refl (s : Matcher) : Still s s := ⟨⟨rfl, rfl, rfl, rfl, rfl⟩, .refl s⟩

theorem Still.trans (h : Still s u) (h' : Still u w) : Still s w :=
  ⟨h.toSameRepeats.trans h'.toSameRepeats, h.toSameCaptures.trans h'.toSameCaptures⟩

theorem Idle.refl (h : Twin s t) : Idle s t s t := ⟨h, .refl s, .refl t⟩

theorem Idle.trans (h : Idle s t u v) (h' : Idle u v s' t') : Idle s t s' t' :=
  ⟨h'.twin, h.left.trans h'.left, h.right.trans h'.right⟩

theorem SameCaptures.confined (h : SameCaptures s u) : Confined code lo hi s u where
  length := congrArg List.length h.marks
  le := h.lastmark.ge
  kept _ _ _ := by rw [h.marks]
  idle _ := ⟨h.marks, h.lastmark, h.lastindex⟩

theorem Idle.trail (h : Idle s t u v) : Trail code lo hi s t u v :=
  ⟨h.twin, h.left.confined, h.right.confined, h.left.toSameRepeats⟩

theorem Trail.refl (h : Twin s t) : Trail code lo hi s t s t := (Idle.refl h).trail

/-- Where a stretch of code has no marks, nothing happens to them. -/
theorem Trail.idle (h : Trail code lo hi s t u v) (htwin : Twin s t)
    (hnone : ∀ i x, MarkAt code i x → lo ≤ x → hi ≤ x) : Idle s t u v := by
  obtain ⟨m, rfl⟩ := htwin
  obtain ⟨l, rfl⟩ := h.twin
  obtain ⟨hm, hl, hi⟩ := h.left.idle hnone
  obtain ⟨hm', hl', hi'⟩ := h.right.idle hnone
  have hs := h.same
  exact ⟨⟨l, rfl⟩, ⟨hs, ⟨hm, hl, hi⟩⟩, ⟨⟨hs.links, hs.cur, hs.stop, hs.recur, hs.depth⟩, ⟨hm', hl', hi'⟩⟩⟩

theorem Agree.same (h : Agree code d p s t) (hs : SameCaptures s u) (ht : SameCaptures t v) :
    Agree code d p u v := by
  unfold Agree
  rw [hs.marks, ht.marks, hs.lastmark]
  exact h

/-- The relation after a run that comes back to the same repeats. -/
theorem Rel.of_same (h : Rel code H qs p s t) (htwin : Twin u v) (hsame : SameRepeats s u)
    (hchain : Chain code H (links s.repeats) qs s.curRepeat p')
    (hfresh : Fresh code (unseen code H qs p') u.lastmark)
    (hagree : Agree code (since H qs p') p' u v) : Rel code H qs p' u v where
  twin := htwin
  chain := by
    rw [hsame.links, hsame.cur]
    exact hchain
  floor := by
    rw [hsame.length]
    exact h.floor
  stop_floor := by
    rw [hsame.stop]
    exact h.stop_floor
  stop_at := by
    rw [hsame.stop]
    exact h.stop_at
  fresh := hfresh
  agree := hagree

theorem Rel.idle (h : Rel code H qs p s t) (hidle : Idle s t u v) : Rel code H qs p u v :=
  h.of_same hidle.twin hidle.left.toSameRepeats h.chain (by rw [hidle.left.lastmark]; exact h.fresh)
    (h.agree.same hidle.left.toSameCaptures hidle.right.toSameCaptures)

/-- A field that does not depend on the marks is the same in both matchers. -/
theorem Twin.eq {α : Type} (h : Twin s t) {f : Matcher → α} (hf : ∀ m l, f { m with marks := l } = f m) :
    f t = f s := by
  obtain ⟨m, rfl⟩ := h
  exact hf s m

/-- A change of both matchers that does not depend on the marks. -/
theorem Idle.change (h : Twin s t) {f : Matcher → Matcher} (hf : ∀ m, Still m (f m))
    (htwin : ∀ m l, f { m with marks := l } = { f m with marks := l }) : Idle s t (f s) (f t) := by
  obtain ⟨m, rfl⟩ := h
  exact ⟨⟨m, htwin s m⟩, hf s, hf _⟩

theorem Idle.ptr (h : Twin s t) (n : ℕ) : Idle s t { s with ptr := n } { t with ptr := n } :=
  .change h (f := fun m => { m with ptr := n }) (fun _ => ⟨⟨rfl, rfl, rfl, rfl, rfl⟩, ⟨rfl, rfl, rfl⟩⟩)
    fun _ _ => rfl

theorem links_modify (reps : List RepeatCtx) (idx : ℕ) {f : RepeatCtx → RepeatCtx}
    (hf : ∀ c, (f c).pattern = c.pattern ∧ (f c).prev = c.prev) :
    links (reps.modify idx f) = links reps := by
  apply List.ext_getElem?
  intro i
  rw [links, links, List.getElem?_map, List.getElem?_map, List.getElem?_modify]
  cases reps[i]? with
  | none => rfl
  | some c =>
    by_cases hi : idx = i
    · simp [hi, hf c]
    · simp [hi]

theorem Idle.setRepeat (h : Twin s t) (idx : ℕ) {f : RepeatCtx → RepeatCtx}
    (hf : ∀ c, (f c).pattern = c.pattern ∧ (f c).prev = c.prev) :
    Idle s t (s.setRepeat idx f) (t.setRepeat idx f) :=
  .change h (f := fun m => m.setRepeat idx f)
    (fun m => ⟨⟨links_modify m.repeats idx hf, rfl, rfl, rfl, rfl⟩, ⟨rfl, rfl, rfl⟩⟩) fun _ _ => rfl

/-- Where control goes on, no group is closed on the way. -/
theorem IsOpen.next (hwf : WellFormed code) {g : ℕ} (h : IsOpen code g p) (hp : Flow code p)
    (hmark : opAt code p ≠ some .MARK) (hnext : Next code p p') : IsOpen code g p' := by
  obtain ⟨o, c, hg, ho, hc⟩ := h
  have hne : p ≠ c := by
    rintro rfl
    exact hmark hg.2.2.1
  exact ⟨o, c, hg, ho.trans hnext.lt, hwf.nested hg hp ho (lt_of_le_of_ne hc hne) hnext⟩

theorem Chosen.mono {g : ℕ} (h : Chosen code g d) (hd : d ≤ d') : Chosen code g d' := by
  obtain ⟨o, q, ho, hq, hchoice, hlt, hle⟩ := h
  exact ⟨o, q, ho, hq, hchoice, hlt, hle.trans hd⟩

theorem Agree.of_open (h : Agree code d p s t) (hd : d ≤ d')
    (hopen : ∀ g, IsOpen code g p → IsOpen code g p') : Agree code d' p' s t :=
  ⟨h.1, fun i hi hnot => h.2 i hi fun g hg hchosen hp => hnot g hg (hchosen.mono hd) (hopen g hp)⟩

theorem Rel.flow (h : Rel code H qs p s t) (hp : ¬ IsUntil code p) (hwf : WellFormed code)
    (hok : H.Ok code) : Flow code p := h.chain.not_until hp hwf hok

theorem Rel.next (h : Rel code H qs p s t) (hwf : WellFormed code) (hok : H.Ok code)
    (hmark : opAt code p ≠ some .MARK) (hnext : Next code p p') : Rel code H qs p' s t where
  twin := h.twin
  chain := h.chain.next hnext hwf hok
  floor := h.floor
  stop_floor := h.stop_floor
  stop_at := h.stop_at
  fresh := h.fresh.mono (unseen_mono H qs hnext.lt.le)
  agree := h.agree.of_open (since_mono H qs hnext.lt.le) fun _ hg =>
    hg.next hwf (h.flow (fun hp => hp.not_next hnext) hwf hok) hmark hnext

/-- Only the levels that are not of a repeat succeed. -/
theorem Rel.success (h : Rel code H qs p s t) (hop : opAt code p = some .SUCCESS)
    (hwf : WellFormed code) (hok : H.Ok code) : Exit code H s t p := by
  obtain ⟨-, hchain, -, -, -, hfresh, hagree⟩ := h
  generalize s.curRepeat = cur at hchain
  cases hchain with
  | home hlevel => exact ⟨hlevel, .inl hop, hfresh, hagree⟩
  | body _ _ hrepeat hlevel htail =>
    have hq := htail.not_until (fun h => by rcases h with h | h <;> simp [hrepeat] at h) hwf hok
    rcases hlevel with hlevel | rfl
    · exact absurd hop (hwf.repeat_level hq hrepeat hlevel)
    · rcases hwf.until_end hq hrepeat with h | h <;> simp [hop] at h

end Relation

end WeavePy.Regex
