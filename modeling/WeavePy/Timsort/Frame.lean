import WeavePy.Lib.Hoare
import WeavePy.Timsort.Sort

/-!
Comparing and moving elements leaves the length of the list and the stack of pending runs alone.
-/

namespace WeavePy.Timsort

variable {T σ E α β : Type}

/-- What comparing and moving elements leaves alone. -/
def MergeState.outline (s : MergeState T σ) : ℕ × List Run := (s.list.length, s.pending)

abbrev KeepsOutline (m : Sorter T σ E α) : Prop := Prog.Keeps MergeState.outline m

open Prog

theorem keeps_of_eq {m : Sorter T σ E α} (h : ∀ s r t, m s = .ok (r, t) → t.outline = s.outline) :
    KeepsOutline m := by
  intro s r t hr
  cases r with
  | ok a => exact h s _ t hr
  | error e => exact h s _ t hr

/-- A move that checks its bounds first. -/
theorem keeps_checked {c : MergeState T σ → Prop} [∀ s, Decidable (c s)] {x : Fault}
    {f : MergeState T σ → MergeState T σ} (hf : ∀ s, c s → (f s).outline = s.outline) :
    KeepsOutline (fun s => if c s then .ok (.ok (), f s) else .error x : Sorter T σ E Unit) := by
  apply keeps_of_eq
  intro s r t hr
  by_cases hc : c s
  · rw [if_pos hc] at hr
    cases hr
    exact hf s hc
  · rw [if_neg hc] at hr
    cases hr

theorem overwrite_length {l xs : List T} {i : ℕ} (h : i + xs.length ≤ l.length) :
    (overwrite l i xs).length = l.length := by
  simp only [overwrite, List.length_append, List.length_take, List.length_drop]
  omega

theorem slice_length {l : List T} {i k : ℕ} (h : i + k ≤ l.length) : (slice l i k).length = k := by
  simp only [slice, List.length_take, List.length_drop]
  omega

/-- A block as long as the one it is read from goes where it fits. -/
theorem outline_overwrite {s : MergeState T σ} {l : List T} {src dest k : ℕ}
    (h : src + k ≤ l.length ∧ dest + k ≤ s.list.length) :
    MergeState.outline { s with list := overwrite s.list dest (slice l src k) } = s.outline := by
  unfold MergeState.outline
  rw [overwrite_length (by rw [slice_length h.1]; exact h.2)]

theorem keeps_read {p : Ptr} : KeepsOutline (read p : Sorter T σ E T) := by
  apply keeps_of_eq
  intro s r t hr
  unfold read at hr
  split at hr
  · cases hr
    rfl
  · cases hr

theorem keeps_sub {a b : ℕ} : KeepsOutline (sub a b : Sorter T σ E ℕ) := keeps_ite keeps_pure keeps_fault

theorem keeps_steps {fuel : ℕ} {body : β → Sorter T σ E (Step β α)} {b : β}
    (h : ∀ b, KeepsOutline (body b)) : KeepsOutline (loop fuel body b) := Prog.keeps_loop h

theorem keeps_copy {src dest k : ℕ} : KeepsOutline (copy src dest k : Sorter T σ E Unit) :=
  keeps_checked fun _ => outline_overwrite

theorem keeps_unpark {src dest k : ℕ} : KeepsOutline (unpark src dest k : Sorter T σ E Unit) :=
  keeps_checked fun _ => outline_overwrite

theorem keeps_park {src k : ℕ} : KeepsOutline (park src k : Sorter T σ E Unit) :=
  keeps_checked (f := fun s => { s with tmp := slice s.list src k }) fun _ _ => rfl

theorem keeps_write {i : ℕ} {a : T} : KeepsOutline (write i a : Sorter T σ E Unit) := by
  apply keeps_checked (f := fun s => { s with list := s.list.set i a })
  intro s _
  simp [MergeState.outline]

theorem keeps_reverse {lo n : ℕ} : KeepsOutline (reverse lo n : Sorter T σ E Unit) := by
  apply keeps_checked (f := fun s =>
    { s with list := overwrite s.list lo (slice s.list lo n).reverse })
  intro s h
  unfold MergeState.outline
  rw [overwrite_length (by rw [List.length_reverse, slice_length h]; exact h)]

theorem keeps_scratch {need : ℕ} : KeepsOutline (scratch need : Sorter T σ E Unit) := by
  apply keeps_modify
  intro s
  split <;> rfl

theorem keeps_setHole {hole : Hole} : KeepsOutline (setHole hole : Sorter T σ E Unit) :=
  keeps_modify fun _ => rfl

theorem keeps_setMinGallop {n : ℕ} : KeepsOutline (setMinGallop n : Sorter T σ E Unit) :=
  keeps_modify fun _ => rfl

theorem dropHole_outline {s t : MergeState T σ} (h : dropHole s = .ok t) :
    t.outline = s.outline := by
  unfold dropHole at h
  split at h
  next hin =>
    cases h
    exact outline_overwrite hin
  · cases h

section Comparisons

variable {cmp : σ → T → T → Except E Bool × σ} {before : ℕ → Sorter T σ E Bool}

theorem keeps_lt {p q : Ptr} : KeepsOutline (lt cmp p q) := by
  apply keeps_bind keeps_read
  intro a
  apply keeps_bind keeps_read
  intro b
  apply keeps_of_eq
  intro s r t hr
  cases hr
  rfl

theorem keeps_gallopUp (hb : ∀ i, KeepsOutline (before i)) {n hint : ℕ} :
    KeepsOutline (gallopUp before n hint) := by
  apply keeps_bind keeps_sub
  intro maxofs
  apply keeps_bind _ fun _ => keeps_pure
  apply keeps_steps
  rintro ⟨lastofs, ofs⟩
  apply keeps_ite _ keeps_pure
  exact keeps_bind (hb _) fun _ => keeps_ite keeps_pure keeps_pure

theorem keeps_gallopDown (hb : ∀ i, KeepsOutline (before i)) {hint : ℕ} :
    KeepsOutline (gallopDown before hint) := by
  apply keeps_bind
  · apply keeps_steps
    rintro ⟨lastofs, ofs⟩
    apply keeps_ite _ keeps_pure
    apply keeps_bind keeps_sub
    intro i
    exact keeps_bind (hb i) fun _ => keeps_ite keeps_pure keeps_pure
  · intro found
    exact keeps_bind keeps_sub fun _ => keeps_bind keeps_sub fun _ => keeps_pure

theorem keeps_bisect (hb : ∀ i, KeepsOutline (before i)) {lo hi : ℕ} :
    KeepsOutline (bisect before lo hi) := by
  apply keeps_steps
  rintro ⟨lastofs, ofs⟩
  apply keeps_ite _ keeps_pure
  apply keeps_bind keeps_sub
  intro d
  exact keeps_bind (hb _) fun _ => keeps_ite keeps_pure keeps_pure

theorem keeps_gallop (hb : ∀ i, KeepsOutline (before i)) {n hint : ℕ} :
    KeepsOutline (gallop before n hint) := by
  apply keeps_bind
  · exact keeps_bind (hb hint) fun _ => keeps_ite (keeps_gallopUp hb) (keeps_gallopDown hb)
  · intro found
    exact keeps_bisect hb

theorem keeps_isNotAbove {key a : Ptr} {i : ℕ} : KeepsOutline (isNotAbove cmp key a i) :=
  keeps_bind keeps_lt fun _ => keeps_pure

theorem keeps_gallopLeft {key a : Ptr} {n hint : ℕ} : KeepsOutline (gallopLeft cmp key a n hint) :=
  keeps_gallop fun _ => keeps_lt

theorem keeps_gallopRight {key a : Ptr} {n hint : ℕ} :
    KeepsOutline (gallopRight cmp key a n hint) := keeps_gallop fun _ => keeps_isNotAbove

theorem keeps_rotate {lo l ok : ℕ} : KeepsOutline (rotate lo l ok : Sorter T σ E Unit) := by
  apply keeps_bind keeps_read
  intro p
  exact keeps_bind keeps_sub fun _ => keeps_bind keeps_copy fun _ => keeps_write

theorem keeps_binarysort {lo n ok : ℕ} : KeepsOutline (binarysort cmp lo n ok) := by
  apply keeps_steps
  intro ok
  apply keeps_ite _ keeps_pure
  apply keeps_bind (keeps_bisect fun _ => keeps_isNotAbove)
  intro l
  exact keeps_bind keeps_rotate fun _ => keeps_pure

theorem keeps_nextSmaller {lo n : ℕ} : KeepsOutline (nextSmaller cmp lo n) :=
  keeps_bind keeps_sub fun _ => keeps_lt

theorem keeps_nextLarger {lo n : ℕ} : KeepsOutline (nextLarger cmp lo n) :=
  keeps_bind keeps_sub fun _ => keeps_lt

theorem keeps_reverseEqual {lo n neq : ℕ} :
    KeepsOutline (reverseEqual lo n neq : Sorter T σ E Unit) :=
  keeps_ite (keeps_bind keeps_sub fun _ => keeps_reverse) keeps_pure

theorem keeps_fillRun {minrun lo nremaining run : ℕ} :
    KeepsOutline (fillRun cmp minrun lo nremaining run) :=
  keeps_ite (keeps_bind keeps_binarysort fun _ => keeps_pure) keeps_pure

end Comparisons

section MergeLo

theorem keeps_lo_takeB {x : Lo} {k : ℕ} : KeepsOutline (x.takeB k : Sorter T σ E Lo) := by
  apply keeps_bind keeps_copy
  intro _
  apply keeps_bind keeps_sub
  intro nb
  exact keeps_bind keeps_gets fun _ => keeps_bind keeps_setHole fun _ => keeps_pure

theorem keeps_lo_takeA {x : Lo} {k : ℕ} : KeepsOutline (x.takeA k : Sorter T σ E Lo) := by
  apply keeps_bind keeps_gets
  intro hole
  apply keeps_bind keeps_unpark
  intro _
  exact keeps_bind keeps_sub fun _ => keeps_bind keeps_setHole fun _ => keeps_pure

theorem keeps_lo_finish {x : Lo} : KeepsOutline (x.finish : Sorter T σ E (Option β)) :=
  keeps_bind keeps_lo_takeB fun _ => keeps_pure

theorem keeps_lo_gallopA {x : Lo} {k : ℕ} :
    KeepsOutline (x.gallopA k : Sorter T σ E (Option Lo)) := by
  apply keeps_ite _ keeps_pure
  apply keeps_bind keeps_lo_takeA
  intro x
  apply keeps_bind keeps_gets
  intro hole
  exact keeps_ite keeps_lo_finish (keeps_ite keeps_pure keeps_pure)

theorem keeps_lo_gallopB {x : Lo} {k : ℕ} :
    KeepsOutline (x.gallopB k : Sorter T σ E (Option Lo)) := by
  apply keeps_ite _ keeps_pure
  exact keeps_bind keeps_lo_takeB fun _ => keeps_ite keeps_pure keeps_pure

variable {cmp : σ → T → T → Except E Bool × σ}

theorem keeps_mergeLoSteps {minGallop : ℕ} {x : Lo} :
    KeepsOutline (mergeLoSteps cmp minGallop x) := by
  apply keeps_bind keeps_gets
  intro hole
  apply keeps_steps
  rintro ⟨x, acount, bcount⟩
  apply keeps_bind keeps_gets
  intro hole
  apply keeps_bind keeps_lt
  intro b
  apply keeps_ite
  · apply keeps_bind keeps_lo_takeB
    intro x
    exact keeps_ite keeps_pure (keeps_ite keeps_pure keeps_pure)
  · apply keeps_bind keeps_lo_takeA
    intro x
    apply keeps_bind keeps_gets
    intro hole
    apply keeps_ite
    · exact keeps_bind keeps_lo_finish fun _ => keeps_pure
    · exact keeps_ite keeps_pure keeps_pure

theorem keeps_mergeLoGallopA {x : Lo} : KeepsOutline (mergeLoGallopA cmp x) := by
  apply keeps_bind keeps_gets
  intro hole
  apply keeps_bind keeps_gallopRight
  intro acount
  apply keeps_bind keeps_lo_gallopA
  rintro (_ | x)
  · exact keeps_pure
  · exact keeps_bind keeps_lo_takeB fun _ => keeps_ite keeps_pure keeps_pure

theorem keeps_mergeLoGallopB {x : Lo} : KeepsOutline (mergeLoGallopB cmp x) := by
  apply keeps_bind keeps_gets
  intro hole
  apply keeps_bind keeps_gallopLeft
  intro bcount
  apply keeps_bind keeps_lo_gallopB
  rintro (_ | x)
  · exact keeps_pure
  · apply keeps_bind keeps_lo_takeA
    intro x
    exact keeps_bind keeps_gets fun _ => keeps_ite keeps_lo_finish keeps_pure

theorem keeps_mergeLoGallop {minGallop : ℕ} {x : Lo} :
    KeepsOutline (mergeLoGallop cmp minGallop x) := by
  apply keeps_bind keeps_gets
  intro hole
  apply keeps_steps
  rintro ⟨x, minGallop⟩
  apply keeps_bind keeps_setMinGallop
  intro _
  apply keeps_bind keeps_mergeLoGallopA
  rintro (_ | ⟨x, acount⟩)
  · exact keeps_pure
  · apply keeps_bind keeps_mergeLoGallopB
    rintro (_ | ⟨x, bcount⟩)
    · exact keeps_pure
    · exact keeps_ite keeps_pure keeps_pure

theorem keeps_mergeLoLoop {minGallop : ℕ} {x : Lo} : KeepsOutline (mergeLoLoop cmp minGallop x) := by
  apply keeps_bind keeps_gets
  intro hole
  apply keeps_steps
  rintro ⟨x, minGallop⟩
  apply keeps_bind keeps_mergeLoSteps
  rintro (_ | x)
  · exact keeps_pure
  · apply keeps_bind keeps_mergeLoGallop
    rintro (_ | ⟨x, minGallop⟩)
    · exact keeps_pure
    · exact keeps_bind keeps_setMinGallop fun _ => keeps_pure

theorem keeps_mergeLo {sa na nb : ℕ} : KeepsOutline (mergeLo cmp sa na nb) := by
  apply keeps_bind keeps_scratch
  intro _
  apply keeps_bind keeps_park
  intro _
  apply keeps_bind keeps_setHole
  intro _
  apply keeps_finally _ fun _ _ => dropHole_outline
  apply keeps_bind keeps_lo_takeB
  intro x
  apply keeps_ite keeps_pure
  apply keeps_bind keeps_gets
  intro hole
  apply keeps_ite
  · exact keeps_bind keeps_lo_takeB fun _ => keeps_pure
  · exact keeps_bind keeps_gets fun _ => keeps_mergeLoLoop

end MergeLo

section MergeHi

theorem keeps_hi_takeA {x : Hi} {k : ℕ} : KeepsOutline (x.takeA k : Sorter T σ E Hi) := by
  apply keeps_bind keeps_gets
  intro hole
  apply keeps_bind keeps_sub
  intro na
  exact keeps_bind keeps_copy fun _ => keeps_bind keeps_setHole fun _ => keeps_pure

theorem keeps_hi_takeB {x : Hi} {k : ℕ} : KeepsOutline (x.takeB k : Sorter T σ E Unit) := by
  apply keeps_bind keeps_gets
  intro hole
  apply keeps_bind keeps_sub
  intro len
  apply keeps_bind keeps_sub
  intro top
  exact keeps_bind keeps_unpark fun _ => keeps_setHole

theorem keeps_hi_finish {x : Hi} : KeepsOutline (x.finish : Sorter T σ E (Option β)) :=
  keeps_bind keeps_hi_takeA fun _ => keeps_pure

theorem keeps_hi_gallopA {x : Hi} {k : ℕ} :
    KeepsOutline (x.gallopA k : Sorter T σ E (Option Hi)) := by
  apply keeps_ite _ keeps_pure
  exact keeps_bind keeps_hi_takeA fun _ => keeps_ite keeps_pure keeps_pure

theorem keeps_hi_gallopB {x : Hi} {k : ℕ} :
    KeepsOutline (x.gallopB k : Sorter T σ E (Option Hi)) := by
  apply keeps_ite _ keeps_pure
  apply keeps_bind keeps_hi_takeB
  intro _
  apply keeps_bind keeps_gets
  intro hole
  exact keeps_ite keeps_hi_finish (keeps_ite keeps_pure keeps_pure)

variable {cmp : σ → T → T → Except E Bool × σ}

theorem keeps_mergeHiSteps {minGallop : ℕ} {x : Hi} :
    KeepsOutline (mergeHiSteps cmp minGallop x) := by
  apply keeps_bind keeps_gets
  intro hole
  apply keeps_steps
  rintro ⟨x, acount, bcount⟩
  apply keeps_bind keeps_gets
  intro hole
  apply keeps_bind keeps_sub
  intro aTop
  apply keeps_bind keeps_sub
  intro bTop
  apply keeps_bind keeps_lt
  intro b
  apply keeps_ite
  · apply keeps_bind keeps_hi_takeA
    intro x
    exact keeps_ite keeps_pure (keeps_ite keeps_pure keeps_pure)
  · apply keeps_bind keeps_hi_takeB
    intro _
    apply keeps_bind keeps_gets
    intro hole
    apply keeps_ite
    · exact keeps_bind keeps_hi_finish fun _ => keeps_pure
    · exact keeps_ite keeps_pure keeps_pure

theorem keeps_mergeHiGallopA {x : Hi} : KeepsOutline (mergeHiGallopA cmp x) := by
  apply keeps_bind keeps_gets
  intro hole
  apply keeps_bind keeps_sub
  intro bTop
  apply keeps_bind keeps_sub
  intro hint
  apply keeps_bind keeps_gallopRight
  intro kept
  apply keeps_bind keeps_sub
  intro acount
  apply keeps_bind keeps_hi_gallopA
  rintro (_ | x)
  · exact keeps_pure
  · apply keeps_bind keeps_hi_takeB
    intro _
    exact keeps_bind keeps_gets fun _ => keeps_ite keeps_hi_finish keeps_pure

theorem keeps_mergeHiGallopB {x : Hi} : KeepsOutline (mergeHiGallopB cmp x) := by
  apply keeps_bind keeps_gets
  intro hole
  apply keeps_bind keeps_sub
  intro aTop
  apply keeps_bind keeps_sub
  intro hint
  apply keeps_bind keeps_gallopLeft
  intro kept
  apply keeps_bind keeps_sub
  intro bcount
  apply keeps_bind keeps_hi_gallopB
  rintro (_ | x)
  · exact keeps_pure
  · exact keeps_bind keeps_hi_takeA fun _ => keeps_ite keeps_pure keeps_pure

theorem keeps_mergeHiGallop {minGallop : ℕ} {x : Hi} :
    KeepsOutline (mergeHiGallop cmp minGallop x) := by
  apply keeps_bind keeps_gets
  intro hole
  apply keeps_steps
  rintro ⟨x, minGallop⟩
  apply keeps_bind keeps_setMinGallop
  intro _
  apply keeps_bind keeps_mergeHiGallopA
  rintro (_ | ⟨x, acount⟩)
  · exact keeps_pure
  · apply keeps_bind keeps_mergeHiGallopB
    rintro (_ | ⟨x, bcount⟩)
    · exact keeps_pure
    · exact keeps_ite keeps_pure keeps_pure

theorem keeps_mergeHiLoop {minGallop : ℕ} {x : Hi} : KeepsOutline (mergeHiLoop cmp minGallop x) := by
  apply keeps_bind keeps_gets
  intro hole
  apply keeps_steps
  rintro ⟨x, minGallop⟩
  apply keeps_bind keeps_mergeHiSteps
  rintro (_ | x)
  · exact keeps_pure
  · apply keeps_bind keeps_mergeHiGallop
    rintro (_ | ⟨x, minGallop⟩)
    · exact keeps_pure
    · exact keeps_bind keeps_setMinGallop fun _ => keeps_pure

theorem keeps_mergeHi {sa na nb : ℕ} : KeepsOutline (mergeHi cmp sa na nb) := by
  apply keeps_bind keeps_scratch
  intro _
  apply keeps_bind keeps_park
  intro _
  apply keeps_bind keeps_setHole
  intro _
  apply keeps_finally _ fun _ _ => dropHole_outline
  apply keeps_bind keeps_hi_takeA
  intro x
  apply keeps_ite keeps_pure
  apply keeps_bind keeps_gets
  intro hole
  apply keeps_ite
  · exact keeps_bind keeps_hi_takeA fun _ => keeps_pure
  · exact keeps_bind keeps_gets fun _ => keeps_mergeHiLoop

theorem keeps_mergeRuns {a b : Run} : KeepsOutline (mergeRuns cmp a b) := by
  apply keeps_bind keeps_gallopRight
  intro k
  apply keeps_bind keeps_sub
  intro na
  apply keeps_ite keeps_pure
  apply keeps_bind keeps_sub
  intro top
  apply keeps_bind keeps_sub
  intro hint
  apply keeps_bind keeps_gallopLeft
  intro nb
  exact keeps_ite keeps_pure (keeps_ite keeps_mergeLo keeps_mergeHi)

end MergeHi

end WeavePy.Timsort
