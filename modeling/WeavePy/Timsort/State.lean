import WeavePy.Rust
import WeavePy.Lib.Hoare
import WeavePy.Lib.StableSort

/-!
The state of a list sort: the slice, scratch storage, the hole of a running merge, and the steps
that compare and move elements.
-/

namespace WeavePy.Timsort

/-- A run pending a merge: `len` elements starting at index `base`. -/
structure Run where
  base : ℕ
  len : ℕ
  power : ℕ
  deriving DecidableEq, Repr

/-- `len` parked elements from `src` in scratch that belong at `dest` in the list. -/
structure Hole where
  src : ℕ
  dest : ℕ
  len : ℕ
  deriving DecidableEq, Repr

inductive Ptr where
  | list (i : ℕ)
  | tmp (i : ℕ)
  deriving DecidableEq, Repr

def Ptr.add : Ptr → ℕ → Ptr
  | .list i, k => .list (i + k)
  | .tmp i, k => .tmp (i + k)

/-- `tmp` is the part of scratch storage in use and `calls` what the comparator remembers. -/
structure MergeState (T σ : Type) where
  list : List T
  minGallop : ℕ
  capacity : ℕ
  tmp : List T
  hole : Hole
  pending : List Run
  calls : σ

abbrev Sorter (T σ E α : Type) := Prog Fault (MergeState T σ) E α

variable {T σ E α β : Type}

def deref (list tmp : List T) : Ptr → Option T
  | .list i => list[i]?
  | .tmp i => tmp[i]?

def read (p : Ptr) : Sorter T σ E T := fun s =>
  match deref s.list s.tmp p with
  | some a => .ok (.ok a, s)
  | none => .error .unchecked

def call (cmp : σ → T → T → Except E Bool × σ) (a b : T) : Sorter T σ E Bool := fun s =>
  .ok ((cmp s.calls a b).1, { s with calls := (cmp s.calls a b).2 })

def lt (cmp : σ → T → T → Except E Bool × σ) (p q : Ptr) : Sorter T σ E Bool := do
  let a ← read p
  let b ← read q
  call cmp a b

/-- A subtraction on `usize`. -/
def sub (a b : ℕ) : Sorter T σ E ℕ :=
  if b ≤ a then pure (a - b) else Prog.fault .panic

def loop (fuel : ℕ) (body : β → Sorter T σ E (Step β α)) (b : β) : Sorter T σ E α :=
  Prog.loop .diverge fuel body b

def overwrite (l : List T) (i : ℕ) (xs : List T) : List T :=
  l.take i ++ xs ++ l.drop (i + xs.length)

def slice (l : List T) (i k : ℕ) : List T := (l.drop i).take k

/-- `ptr::copy` inside the list. -/
def copy (src dest k : ℕ) : Sorter T σ E Unit := fun s =>
  if src + k ≤ s.list.length ∧ dest + k ≤ s.list.length then
    .ok (.ok (), { s with list := overwrite s.list dest (slice s.list src k) })
  else .error .unchecked

/-- `ptr::copy_nonoverlapping` from scratch into the list. -/
def unpark (src dest k : ℕ) : Sorter T σ E Unit := fun s =>
  if src + k ≤ s.tmp.length ∧ dest + k ≤ s.list.length then
    .ok (.ok (), { s with list := overwrite s.list dest (slice s.tmp src k) })
  else .error .unchecked

/-- `ptr::copy_nonoverlapping` from the list to the start of scratch. -/
def park (src k : ℕ) : Sorter T σ E Unit := fun s =>
  if src + k ≤ s.list.length ∧ k ≤ s.capacity then
    .ok (.ok (), { s with tmp := slice s.list src k })
  else .error .unchecked

/-- `ptr::write` to the list. -/
def write (i : ℕ) (a : T) : Sorter T σ E Unit := fun s =>
  if i < s.list.length then .ok (.ok (), { s with list := s.list.set i a })
  else .error .unchecked

def scratch (need : ℕ) : Sorter T σ E Unit :=
  Prog.modify fun s => if s.capacity < need then { s with capacity := need, tmp := [] } else s

def reverse (lo n : ℕ) : Sorter T σ E Unit := fun s =>
  if lo + n ≤ s.list.length then
    .ok (.ok (), { s with list := overwrite s.list lo (slice s.list lo n).reverse })
  else .error .unchecked

def setHole (hole : Hole) : Sorter T σ E Unit := Prog.modify fun s => { s with hole := hole }

/-- `Hole::drop`. -/
def dropHole (s : MergeState T σ) : Outcome (MergeState T σ) :=
  if s.hole.src + s.hole.len ≤ s.tmp.length ∧ s.hole.dest + s.hole.len ≤ s.list.length then
    .ok { s with list := overwrite s.list s.hole.dest (slice s.tmp s.hole.src s.hole.len) }
  else .error .unchecked

/-- On members of `v` the comparator never fails and answers by `r`. -/
def Honest (cmp : σ → T → T → Except E Bool × σ) (r : T → T → Prop) (v : List T) : Prop :=
  ∀ c, ∀ a ∈ v, ∀ b ∈ v, ∃ t, (cmp c a b).1 = .ok t ∧ (t = true ↔ r a b)

section Rules

variable {cmp : σ → T → T → Except E Bool × σ} {r : T → T → Prop} {v : List T}
  {s : MergeState T σ} {R : E → MergeState T σ → Prop}

theorem wp_sub {a b : ℕ} {Q : ℕ → MergeState T σ → Prop} (h : b ≤ a) (hQ : Q (a - b) s) :
    Prog.wp (sub a b) Q R s := by
  unfold sub
  rw [if_pos h]
  exact Prog.wp_pure hQ

theorem wp_read {p : Ptr} {a : T} {Q : T → MergeState T σ → Prop} (h : deref s.list s.tmp p = some a)
    (hQ : Q a s) : Prog.wp (E := E) (read p) Q R s := by
  unfold Prog.wp read
  rw [h]
  exact hQ

theorem wp_lt {p q : Ptr} {a b : T} {Q : Bool → MergeState T σ → Prop} (hp : deref s.list s.tmp p = some a)
    (hq : deref s.list s.tmp q = some b) (ha : a ∈ v) (hb : b ∈ v)
    (hR : ¬ Honest cmp r v → ∀ e c, R e { s with calls := c })
    (hQ : ∀ t c, (Honest cmp r v → (t = true ↔ r a b)) → Q t { s with calls := c }) :
    Prog.wp (lt cmp p q) Q R s := by
  apply Prog.wp_bind
  apply wp_read hp
  apply Prog.wp_bind
  apply wp_read hq
  unfold Prog.wp call
  rcases hc : (cmp s.calls a b).1 with e | t
  · apply hR
    intro honest
    obtain ⟨t, ht, _⟩ := honest s.calls a ha b hb
    rw [hc] at ht
    cases ht
  · apply hQ
    intro honest
    obtain ⟨t', ht, hiff⟩ := honest s.calls a ha b hb
    rw [hc] at ht
    cases ht
    exact hiff

theorem slice_append {l₁ l₂ l₃ : List T} {i k : ℕ} (hi : i = l₁.length) (hk : k = l₂.length) :
    slice (l₁ ++ (l₂ ++ l₃)) i k = l₂ := by
  subst hi hk
  simp [slice]

theorem overwrite_append {l₁ l₂ l₃ xs : List T} {i : ℕ} (hi : i = l₁.length)
    (hx : xs.length = l₂.length) : overwrite (l₁ ++ (l₂ ++ l₃)) i xs = l₁ ++ (xs ++ l₃) := by
  subst hi
  simp [overwrite, hx, List.drop_append]

/-- Moving a block down over a gap in front of it leaves a gap of the same size behind it. -/
theorem wp_copy_down {l g b m : List T} {src dest k : ℕ} {Q : Unit → MergeState T σ → Prop}
    (hs : s.list = l ++ (g ++ (b ++ m))) (hsrc : src = l.length + g.length)
    (hdest : dest = l.length) (hk : k = b.length)
    (hQ : ∀ g', g'.length = g.length → Q () { s with list := l ++ (b ++ (g' ++ m)) }) :
    Prog.wp (E := E) (copy src dest k) Q R s := by
  have hslice : slice s.list src k = b := by
    rw [hs, ← List.append_assoc]
    exact slice_append (by simp [hsrc]) hk
  have hlist : overwrite s.list dest b
      = l ++ (b ++ ((g ++ b).drop b.length ++ m)) := by
    have : s.list = l ++ ((g ++ b).take b.length ++
        ((g ++ b).drop b.length ++ m)) := by
      rw [← List.append_assoc (List.take _ _), List.take_append_drop, hs, List.append_assoc]
    rw [this]
    exact overwrite_append hdest (by simp)
  unfold Prog.wp copy
  rw [if_pos (by simp only [hs, List.length_append]; omega), hslice, hlist]
  exact hQ _ (by simp)

/-- Moving a block up over a gap behind it leaves a gap of the same size in front of it. -/
theorem wp_copy_up {l g b m : List T} {src dest k : ℕ} {Q : Unit → MergeState T σ → Prop}
    (hs : s.list = l ++ (b ++ (g ++ m))) (hsrc : src = l.length)
    (hdest : dest = l.length + g.length) (hk : k = b.length)
    (hQ : ∀ g', g'.length = g.length → Q () { s with list := l ++ (g' ++ (b ++ m)) }) :
    Prog.wp (E := E) (copy src dest k) Q R s := by
  have hslice : slice s.list src k = b := by
    rw [hs]
    exact slice_append hsrc hk
  have hlist : overwrite s.list dest b
      = l ++ ((b ++ g).take g.length ++ (b ++ m)) := by
    have : s.list = (l ++ (b ++ g).take g.length) ++
        ((b ++ g).drop g.length ++ m) := by
      rw [List.append_assoc, ← List.append_assoc (List.take _ _), List.take_append_drop, hs,
        List.append_assoc]
    rw [this, overwrite_append (by simp [hdest]) (by simp), List.append_assoc]
  unfold Prog.wp copy
  rw [if_pos (by simp only [hs, List.length_append]; omega), hslice, hlist]
  exact hQ _ (by simp)

theorem wp_unpark {l g m t b u : List T} {src dest k : ℕ}
    {Q : Unit → MergeState T σ → Prop} (hs : s.list = l ++ (g ++ m))
    (ht : s.tmp = t ++ (b ++ u)) (hg : g.length = b.length) (hsrc : src = t.length)
    (hdest : dest = l.length) (hk : k = b.length)
    (hQ : Q () { s with list := l ++ (b ++ m) }) :
    Prog.wp (E := E) (unpark src dest k) Q R s := by
  have hslice : slice s.tmp src k = b := by
    rw [ht]
    exact slice_append hsrc hk
  have hlist : overwrite s.list dest b = l ++ (b ++ m) := by
    rw [hs]
    exact overwrite_append hdest hg.symm
  unfold Prog.wp unpark
  rw [if_pos (by simp only [hs, ht, List.length_append]; omega), hslice, hlist]
  exact hQ

theorem dropHole_ok {l g m t b u : List T} (hs : s.list = l ++ (g ++ m))
    (ht : s.tmp = t ++ (b ++ u)) (hg : g.length = b.length)
    (hsrc : s.hole.src = t.length) (hdest : s.hole.dest = l.length)
    (hk : s.hole.len = b.length) :
    dropHole s = .ok { s with list := l ++ (b ++ m) } := by
  unfold dropHole
  rw [if_pos (by simp only [hs, ht, List.length_append]; omega), ht, slice_append hsrc hk, hs,
    overwrite_append hdest hg.symm]

theorem wp_park {l b m : List T} {src k : ℕ} {Q : Unit → MergeState T σ → Prop}
    (hs : s.list = l ++ (b ++ m)) (hsrc : src = l.length) (hk : k = b.length)
    (hcap : k ≤ s.capacity) (hQ : Q () { s with tmp := b }) :
    Prog.wp (E := E) (park src k) Q R s := by
  have hslice : slice s.list src k = b := by
    rw [hs]
    exact slice_append hsrc hk
  unfold Prog.wp park
  rw [if_pos ⟨by simp only [hs, List.length_append]; omega, hcap⟩, hslice]
  exact hQ

theorem wp_reverse {l b m : List T} {lo n : ℕ} {Q : Unit → MergeState T σ → Prop}
    (hs : s.list = l ++ (b ++ m)) (hlo : lo = l.length) (hn : n = b.length)
    (hQ : Q () { s with list := l ++ (b.reverse ++ m) }) :
    Prog.wp (E := E) (reverse lo n) Q R s := by
  unfold Prog.wp reverse
  rw [if_pos (by simp only [hs, List.length_append]; omega), hs, slice_append hlo hn,
    overwrite_append hlo (by simp)]
  exact hQ

end Rules

end WeavePy.Timsort
