import WeavePy.Timsort.NaturalRuns
import WeavePy.Timsort.MergeHi

/-!
The sort itself: runs are found from the left, and a stack of pending runs is merged by the
powersort policy.
-/

namespace WeavePy.Timsort

variable {T σ E : Type}

def pendingAt (i : ℕ) : Sorter T σ E Run := fun s =>
  match s.pending[i]? with
  | some run => .ok (.ok run, s)
  | none => .error .panic

def getPending : Sorter T σ E (List Run) := Prog.gets fun s => s.pending

def setPending (pending : List Run) : Sorter T σ E Unit :=
  Prog.modify fun s => { s with pending := pending }

/-- The power of the run at `s1` (length `n1`) followed by one of length `n2`, in a list of length
`n`; `a` and `b` are twice the two runs' midpoints. -/
def powerloop (s1 n1 n2 n : ℕ) : Sorter T σ E ℕ :=
  loop (2 * n + 1) (fun ⟨result, a, b⟩ =>
    if n ≤ a then do
      let a ← sub a n
      let b ← sub b n
      return .next (result + 1, 2 * a, 2 * b)
    else if n ≤ b then return .done (result + 1)
    else return .next (result + 1, 2 * a, 2 * b)) (0, 2 * s1 + n1, 2 * s1 + n1 + n1 + n2)

def maxMinrun : ℕ := 64

def minrunFrom (n r : ℕ) : ℕ :=
  if maxMinrun ≤ n then minrunFrom (n / 2) (r ||| n % 2) else n + r
termination_by n
decreasing_by
  unfold maxMinrun at *
  omega

def computeMinrun (n : ℕ) : ℕ := minrunFrom n 0

variable (cmp : σ → T → T → Except E Bool × σ)

def mergeRuns (a b : Run) : Sorter T σ E Unit := do
  let k ← gallopRight cmp (.list b.base) (.list a.base) a.len 0
  let na ← sub a.len k
  if na = 0 then return ()
  else do
    let top ← sub (a.base + k + na) 1
    let hint ← sub b.len 1
    let nb ← gallopLeft cmp (.list top) (.list b.base) b.len hint
    if nb = 0 then return ()
    else if na ≤ nb then mergeLo cmp (a.base + k) na nb
    else mergeHi cmp (a.base + k) na nb

/-- Merges the pending runs at stack indices `i` and `i + 1`. -/
def mergeAt (i : ℕ) : Sorter T σ E Unit := do
  let a ← pendingAt i
  let b ← pendingAt (i + 1)
  let pending ← getPending
  setPending ((pending.set i { a with len := a.len + b.len }).eraseIdx (i + 1))
  mergeRuns cmp a b

/-- Merges pending runs deeper in the powersort tree than `power`. -/
def mergeDeeper (power : ℕ) : Sorter T σ E Unit := do
  let pending ← getPending
  loop (pending.length + 1) (fun _ => do
    let pending ← getPending
    if 1 < pending.length then do
      let i ← sub pending.length 2
      let run ← pendingAt i
      if power < run.power then do
        mergeAt cmp i
        return .next ()
      else return .done ()
    else return .done ()) ()

def foundNewRun (n2 : ℕ) : Sorter T σ E Unit := do
  let pending ← getPending
  match pending.getLast? with
  | none => return ()
  | some top => do
    let n ← Prog.gets fun s => s.list.length
    let power ← powerloop top.base top.len n2 n
    mergeDeeper cmp power
    let pending ← getPending
    let last ← sub pending.length 1
    let run ← pendingAt last
    setPending (pending.set last { run with power := power })

def collapseAt (n : ℕ) : Sorter T σ E ℕ :=
  if 0 < n then do
    let below ← sub n 1
    let a ← pendingAt below
    let b ← pendingAt (n + 1)
    if a.len < b.len then return below
    else return n
  else return n

def mergeForceCollapse : Sorter T σ E Unit := do
  let pending ← getPending
  loop (pending.length + 1) (fun _ => do
    let pending ← getPending
    if 1 < pending.length then do
      let n ← sub pending.length 2
      let n ← collapseAt n
      mergeAt cmp n
      return .next ()
    else return .done ()) ()

def fillRun (minrun lo nremaining run : ℕ) : Sorter T σ E ℕ :=
  if run < minrun then do
    binarysort cmp lo (min nremaining minrun) run
    return min nremaining minrun
  else return run

def pushRuns (minrun n : ℕ) : Sorter T σ E Unit :=
  loop (n + 1) (fun ⟨lo, nremaining⟩ =>
    if 0 < nremaining then do
      let run ← countRun cmp lo nremaining
      let run ← fillRun cmp minrun lo nremaining run
      foundNewRun cmp run
      let pending ← getPending
      setPending (pending ++ [⟨lo, run, 0⟩])
      let rest ← sub nremaining run
      return .next (lo + run, rest)
    else return .done ()) (0, n)

def sortRuns : Sorter T σ E Unit := do
  let n ← Prog.gets fun s => s.list.length
  pushRuns cmp (computeMinrun n) n
  mergeForceCollapse cmp

/-- Sorts `v` by the comparator `cmp` with state `c`: how the sort returned, what is left in the
slice, and the comparator's state. -/
def sort (c : σ) (v : List T) : Outcome (Except E Unit × List T × σ) :=
  if v.length < 2 then .ok (.ok (), v, c)
  else match sortRuns cmp ⟨v, minGallopDefault, 0, [], ⟨0, 0, 0⟩, [], c⟩ with
    | .error x => .error x
    | .ok (result, s) => .ok (result, s.list, s.calls)

def spans : ℕ → List (List T) → List (ℕ × ℕ)
  | _, [] => []
  | base, run :: runs => (base, run.length) :: spans (base + run.length) runs

/-- The list is the pending runs, one after another, and the part not yet looked at. -/
structure Stacked (r : T → T → Prop) (v : List T) (s : MergeState T σ) (runs : List (List T))
    (rest : List T) : Prop where
  list : s.list = runs.flatten ++ rest
  rearranged : Rearranged (Honest cmp r v) r v s.list
  pending : s.pending.map (fun run => (run.base, run.len)) = spans 0 runs
  ne : ∀ run ∈ runs, run ≠ []
  ascending : Honest cmp r v → ∀ run ∈ runs, Ascending r run

def Lost (r : T → T → Prop) (v : List T) (_ : E) (s : MergeState T σ) : Prop :=
  ¬ Honest cmp r v ∧ v.Perm s.list

theorem spans_append (base : ℕ) (l m : List (List T)) :
    spans base (l ++ m) = spans base l ++ spans (base + l.flatten.length) m := by
  induction l generalizing base with
  | nil => simp [spans]
  | cons run l ih => simp [spans, ih, Nat.add_assoc]

theorem spans_length (base : ℕ) (l : List (List T)) : (spans base l).length = l.length := by
  induction l generalizing base with
  | nil => rfl
  | cons run l ih => simp [spans, ih]

section Rules

variable {cmp : σ → T → T → Except E Bool × σ} {r : T → T → Prop} {v : List T}
  {s : MergeState T σ} {R : E → MergeState T σ → Prop} {runs : List (List T)} {rest : List T}

theorem wp_pendingAt {i : ℕ} {run : Run} {Q : Run → MergeState T σ → Prop}
    (h : s.pending[i]? = some run) (hQ : Q run s) : Prog.wp (E := E) (pendingAt i) Q R s := by
  unfold Prog.wp pendingAt
  rw [h]
  exact hQ

theorem wp_powerloop {s1 n1 n2 n : ℕ} {Q : ℕ → MergeState T σ → Prop} (hn : s1 + n1 + n2 ≤ n)
    (hpos : 0 < n2) (hQ : ∀ power, Q power s) :
    Prog.wp (E := E) (powerloop s1 n1 n2 n) Q R s := by
  unfold powerloop
  apply Prog.wp_loop (fun b t => t = s ∧ b.2.1 < b.2.2 ∧ b.2.2 < 2 * n)
    (fun b _ => 2 * n - (b.2.2 - b.2.1))
  · rintro ⟨result, a, b⟩ t ⟨ht, hab, hb⟩
    rw [ht]
    dsimp only at hab hb ⊢
    apply Prog.wp_ite
    · intro ha
      apply Prog.wp_bind
      apply wp_sub ha
      apply Prog.wp_bind
      apply wp_sub (by omega)
      exact Prog.wp_pure ⟨⟨rfl, by dsimp only; omega, by dsimp only; omega⟩, by dsimp only; omega⟩
    · intro ha
      apply Prog.wp_ite
      · intro _
        exact Prog.wp_pure (hQ _)
      · intro hnb
        exact Prog.wp_pure ⟨⟨rfl, by dsimp only; omega, by dsimp only; omega⟩, by dsimp only; omega⟩
  · dsimp only
    omega
  · exact ⟨rfl, by dsimp only; omega, by dsimp only; omega⟩

/-- The stack entries of two adjacent runs. -/
theorem Stacked.split {l m : List (List T)} {a b : List T}
    (h : Stacked cmp r v s (l ++ a :: b :: m) rest) :
    ∃ p q pa pb, s.pending = p ++ ⟨l.flatten.length, a.length, pa⟩ ::
      ⟨l.flatten.length + a.length, b.length, pb⟩ :: q ∧ p.length = l.length ∧
      p.map (fun run => (run.base, run.len)) = spans 0 l ∧
      q.map (fun run => (run.base, run.len))
        = spans (l.flatten.length + a.length + b.length) m := by
  have hp := h.pending
  rw [spans_append, Nat.zero_add] at hp
  obtain ⟨p, q, hpq, hpl, hq⟩ := List.map_eq_append_iff.mp hp
  obtain ⟨ra, q, hq', hra, hq⟩ := List.map_eq_cons_iff.mp hq
  obtain ⟨rb, q, hq'', hrb, hq⟩ := List.map_eq_cons_iff.mp hq
  obtain ⟨ba, la, pa⟩ := ra
  obtain ⟨bb, lb, pb⟩ := rb
  simp only [Prod.mk.injEq] at hra hrb
  refine ⟨p, q, pa, pb, ?_, ?_, hpl, hq⟩
  · rw [hpq, hq', hq'', hra.1, hra.2, hrb.1, hrb.2]
  · rw [← spans_length 0 l, ← hpl, List.length_map]

theorem Stacked.mem (h : Stacked cmp r v s runs rest) {x : T} (hx : x ∈ s.list) : x ∈ v :=
  h.rearranged.perm.mem_iff.mpr hx

theorem merged_pending {p q : List Run} {base la lb pa pb : ℕ} {i : ℕ} (hi : p.length = i) :
    ((p ++ ⟨base, la, pa⟩ :: ⟨base + la, lb, pb⟩ :: q).set i ⟨base, la + lb, pa⟩).eraseIdx (i + 1)
      = p ++ ⟨base, la + lb, pa⟩ :: q := by
  subst hi
  rw [List.set_append_right _ _ (le_refl _), Nat.sub_self, List.set_cons_zero,
    List.eraseIdx_append_of_length_le (Nat.le_succ _), Nat.succ_sub (le_refl _), Nat.sub_self]
  rfl

/-- Replacing two adjacent runs by their merge. -/
theorem Stacked.merge {t : MergeState T σ} {l m : List (List T)} {a b M : List T}
    (h : Stacked cmp r v s (l ++ a :: b :: m) rest)
    (hM : Rearranged (Honest cmp r v) r (a ++ b) M) (hasc : Honest cmp r v → Ascending r M)
    (hlist : t.list = l.flatten ++ (M ++ (m.flatten ++ rest)))
    (hpending : t.pending.map (fun run => (run.base, run.len)) = spans 0 l ++
      (l.flatten.length, a.length + b.length) ::
        spans (l.flatten.length + a.length + b.length) m) :
    Stacked cmp r v t (l ++ M :: m) rest := by
  have hlen : M.length = a.length + b.length := by
    rw [← hM.perm.length_eq, List.length_append]
  refine ⟨by simpa using hlist, ?_, ?_, ?_, ?_⟩
  · apply h.rearranged.trans
    rw [h.list, hlist]
    have := hM.inside l.flatten (m.flatten ++ rest)
    simpa using this
  · rw [hpending, spans_append, Nat.zero_add]
    simp [spans, hlen, Nat.add_assoc]
  · intro run hrun
    rcases List.mem_append.mp hrun with hrun | hrun
    · exact h.ne run (by simp [hrun])
    · rcases List.mem_cons.mp hrun with rfl | hrun
      · have := List.length_pos_iff.mpr (h.ne a (by simp))
        exact List.length_pos_iff.mp (by omega)
      · exact h.ne run (by simp [hrun])
  · intro honest run hrun
    rcases List.mem_append.mp hrun with hrun | hrun
    · exact h.ascending honest run (by simp [hrun])
    · rcases List.mem_cons.mp hrun with rfl | hrun
      · exact hasc honest
      · exact h.ascending honest run (by simp [hrun])

/-- Merging two adjacent ascending runs rearranges them in place. -/
theorem wp_mergeRuns (hr : StrictWeak r) {pre post a b : List T} {ra rb : Run}
    {Q : Unit → MergeState T σ → Prop} (hs : s.list = pre ++ ((a ++ b) ++ post))
    (hmem : ∀ x ∈ a ++ b, x ∈ v) (hra : ra.base = pre.length) (hla : ra.len = a.length)
    (hrb : rb.base = pre.length + a.length) (hlb : rb.len = b.length) (ha : a ≠ []) (hb : b ≠ [])
    (hasca : Honest cmp r v → Ascending r a) (hascb : Honest cmp r v → Ascending r b)
    (hR : ¬ Honest cmp r v → ∀ e M t, M.Perm (a ++ b) → t.list = pre ++ (M ++ post) → R e t)
    (hQ : ∀ M t, Rearranged (Honest cmp r v) r (a ++ b) M → (Honest cmp r v → Ascending r M) →
      t.list = pre ++ (M ++ post) → t.pending = s.pending → Q () t) :
    Prog.wp (mergeRuns cmp ra rb) Q R s := by
  obtain ⟨b₀, b', hb'⟩ := List.exists_cons_of_ne_nil hb
  have hapos := List.length_pos_iff.mpr ha
  have hbpos := List.length_pos_iff.mpr hb
  have holdsb : ∀ c : σ, Holds { s with calls := c } (.list rb.base) v b := fun c =>
    holds_list (l := pre ++ a) (by simpa using hs) (by simpa using hrb)
      fun x hx => hmem x (List.mem_append_right _ hx)
  have hlost : ¬ Honest cmp r v → ∀ e c, R e { s with calls := c } :=
    fun hdis e c => hR hdis e _ _ .rfl hs
  unfold mergeRuns
  apply Prog.wp_bind
  apply wp_gallopRight (x := b₀) (s := s) hr _ (hmem b₀ (by simp [hb']))
    (holds_list (by simpa using hs) hra fun x hx => hmem x (List.mem_append_left _ hx)) hla
    (by omega) hasca hlost
  · rintro a₁ a₂ c rfl hlow hhigh
    have hb₀ : Honest cmp r v → ∀ x ∈ a₁, ∀ y ∈ b, ¬ r y x := by
      intro honest x hx y hy
      have hasc := hascb honest
      rw [hb'] at hasc hy
      exact hr.le_trans (hlow honest x hx) (hasc.head_le hr hy)
    rw [List.length_append] at hla hrb
    apply Prog.wp_bind
    apply wp_sub (by omega)
    have hna : ra.len - a₁.length = a₂.length := by omega
    rw [hna]
    apply Prog.wp_ite
    · intro hzero
      obtain rfl := List.length_eq_zero_iff.mp hzero
      apply Prog.wp_pure
      refine hQ _ _ (Rearranged.refl _) (fun honest => ?_) hs rfl
      have := hasca honest
      rw [List.append_nil] at this ⊢
      exact ascending_append.mpr ⟨this, hascb honest, hb₀ honest⟩
    · intro hpos
      obtain ⟨a₂, y, rfl⟩ := exists_concat (Nat.one_le_iff_ne_zero.mpr hpos)
      rw [List.length_append, List.length_singleton] at hla hrb hna ⊢
      apply Prog.wp_bind
      apply wp_sub (by omega)
      apply Prog.wp_bind
      apply wp_sub (by omega)
      apply Prog.wp_bind
      apply wp_gallopLeft (s := { s with calls := c }) (x := y) hr _
        (hmem y (by simp)) (holdsb c) hlb (by omega) hascb hlost
      · rintro b₁ b₂ c' rfl hlt hle
        have hhigh' : Honest cmp r v → ∀ x ∈ a₂ ++ [y], ∀ z ∈ b₂, ¬ r z x := by
          intro honest x hx z hz
          exact hr.le_trans ((ascending_append.mp (hasca honest)).2.1.le_last hr hx) (hle honest z hz)
        have hjoin : ∀ M, Rearranged (Honest cmp r v) r ((a₂ ++ [y]) ++ b₁) M →
            (Honest cmp r v → Ascending r M) → Honest cmp r v →
            Ascending r (a₁ ++ (M ++ b₂)) := by
          intro M hM hasc honest
          exact ascending_join (hasca honest) (hascb honest) (hasc honest) hM.perm (hb₀ honest)
            (hhigh' honest)
        have hassoc : (a₁ ++ (a₂ ++ [y])) ++ (b₁ ++ b₂) = a₁ ++ (((a₂ ++ [y]) ++ b₁) ++ b₂) := by simp
        apply Prog.wp_ite
        · intro hzero
          obtain rfl := List.length_eq_zero_iff.mp hzero
          apply Prog.wp_pure
          refine hQ _ _ (Rearranged.refl _) (fun honest => ?_) hs rfl
          rw [hassoc]
          apply hjoin _ (Rearranged.refl _) _ honest
          intro honest
          simpa using (ascending_append.mp (hasca honest)).2.1
        · intro hbpos'
          have hlist : ({ s with calls := c' } : MergeState T σ).list
              = (pre ++ a₁) ++ (((a₂ ++ [y]) ++ b₁) ++ (b₂ ++ post)) := by
            rw [hs]
            simp
          have hmem' : ∀ x ∈ (a₂ ++ [y]) ++ b₁, x ∈ v := by
            intro x hx
            apply hmem x
            rw [hassoc]
            exact List.mem_append_right _ (List.mem_append_left _ hx)
          have hasc : Honest cmp r v → Ascending r (a₂ ++ [y]) ∧ Ascending r b₁ := fun honest =>
            ⟨(ascending_append.mp (hasca honest)).2.1, (ascending_append.mp (hascb honest)).1⟩
          have hfirst : Honest cmp r v → ∀ z ∈ b₁.head?, ∀ x ∈ a₂ ++ [y], r z x := by
            intro honest z hz x hx
            obtain ⟨b₁', rfl⟩ := List.head?_eq_some_iff.mp hz
            obtain rfl : z = b₀ := (List.cons.inj hb').1
            exact hhigh honest x hx
          have hlast : Honest cmp r v → ∀ x ∈ (a₂ ++ [y]).getLast?, ∀ z ∈ b₁, r z x := by
            intro honest x hx z hz
            obtain rfl : y = x := by simpa using hx
            exact hlt honest z hz
          have hlost' : ¬ Honest cmp r v → ∀ e M t, M.Perm ((a₂ ++ [y]) ++ b₁) →
              t.list = (pre ++ a₁) ++ (M ++ (b₂ ++ post)) → R e t := by
            intro hdis e M t hM hl
            apply hR hdis e (a₁ ++ (M ++ b₂)) t _ (by rw [hl]; simp)
            rw [hassoc]
            exact (hM.append_right _).append_left _
          have hdone : ∀ M t, Rearranged (Honest cmp r v) r ((a₂ ++ [y]) ++ b₁) M →
              (Honest cmp r v → Ascending r M) → t.list = (pre ++ a₁) ++ (M ++ (b₂ ++ post)) →
              t.pending = s.pending → Q () t := by
            intro M t hM hascM hl hp
            apply hQ (a₁ ++ (M ++ b₂)) t _ (hjoin M hM hascM) (by rw [hl]; simp) hp
            rw [hassoc]
            simpa using hM.inside a₁ b₂
          apply Prog.wp_ite
          · intro _
            apply wp_mergeLo hr hlist hmem' _ _ rfl (by simp) _ hasc hfirst hlast hlost' hdone
            · rw [List.length_append]
              omega
            · simp
            · exact List.length_pos_iff.mp (by omega)
          · intro _
            apply wp_mergeHi hr hlist hmem' _ _ rfl (by simp) _ hasc hfirst hlast hlost' hdone
            · rw [List.length_append]
              omega
            · simp
            · exact List.length_pos_iff.mp (by omega)
      · show s.list[_]? = _
        rw [hs]
        have : pre ++ (a₁ ++ (a₂ ++ [y]) ++ b ++ post) = pre ++ ((a₁ ++ a₂) ++ y :: (b ++ post)) := by
          simp
        rw [this]
        exact getElem?_middle (by simp; omega)
  · show s.list[_]? = _
    rw [hs, hb', List.append_assoc, List.cons_append]
    exact getElem?_middle hrb

theorem wp_mergeAt (hr : StrictWeak r) {l m : List (List T)} {a b : List T}
    {Q : Unit → MergeState T σ → Prop} (h : Stacked cmp r v s (l ++ a :: b :: m) rest)
    (hQ : ∀ M t, Stacked cmp r v t (l ++ M :: m) rest → t.pending.length + 1 = s.pending.length →
      Q () t) :
    Prog.wp (mergeAt cmp l.length) Q (Lost cmp r v) s := by
  obtain ⟨p, q, pa, pb, hs, hpl, hp, hq⟩ := h.split
  have hlist : s.list = l.flatten ++ ((a ++ b) ++ (m.flatten ++ rest)) := by
    rw [h.list]
    simp
  have hmem : ∀ x ∈ a ++ b, x ∈ v := fun x hx => h.mem (by rw [hlist]; simp at hx ⊢; tauto)
  have hmerged : (s.pending.set l.length ⟨l.flatten.length, a.length + b.length, pa⟩).eraseIdx
      (l.length + 1) = p ++ ⟨l.flatten.length, a.length + b.length, pa⟩ :: q := by
    rw [hs]
    exact merged_pending hpl
  have hfst : s.pending[l.length]? = some ⟨l.flatten.length, a.length, pa⟩ := by
    rw [hs, List.getElem?_append_right (by omega), hpl, Nat.sub_self]
    rfl
  have hsnd : s.pending[l.length + 1]?
      = some ⟨l.flatten.length + a.length, b.length, pb⟩ := by
    rw [hs, List.getElem?_append_right (by omega), hpl, Nat.add_sub_cancel_left]
    rfl
  unfold mergeAt
  apply Prog.wp_bind
  apply wp_pendingAt hfst
  apply Prog.wp_bind
  apply wp_pendingAt hsnd
  apply Prog.wp_bind
  apply Prog.wp_gets
  apply Prog.wp_bind
  apply Prog.wp_modify
  dsimp only
  rw [hmerged]
  have hset : ∀ pending, ({ s with pending := pending } : MergeState T σ).list
      = l.flatten ++ ((a ++ b) ++ (m.flatten ++ rest)) := fun _ => hlist
  refine wp_mergeRuns hr (hset _) hmem rfl rfl rfl rfl (h.ne a (by simp)) (h.ne b (by simp))
    (fun honest => h.ascending honest a (by simp)) (fun honest => h.ascending honest b (by simp))
    ?_ ?_
  · intro hdis e M t hM hl
    refine ⟨hdis, h.rearranged.perm.trans ?_⟩
    rw [hlist, hl]
    exact (hM.symm.append_right _).append_left _
  · intro M t hM hasc hl hpend
    apply hQ M t (h.merge hM hasc hl _)
    · rw [hpend, hs]
      simp
      omega
    · rw [hpend, List.map_append, List.map_cons, hp, hq]

theorem Stacked.pending_length (h : Stacked cmp r v s runs rest) :
    s.pending.length = runs.length := by
  rw [← spans_length 0 runs, ← h.pending, List.length_map]

theorem Stacked.flatten_length (h : Stacked cmp r v s runs rest) :
    runs.flatten.length + rest.length = v.length := by
  rw [h.rearranged.perm.length_eq, h.list, List.length_append]

theorem Stacked.congr {t : MergeState T σ} (h : Stacked cmp r v s runs rest)
    (hlist : t.list = s.list)
    (hpending : t.pending.map (fun run => (run.base, run.len)) = s.pending.map
      (fun run => (run.base, run.len))) : Stacked cmp r v t runs rest where
  list := by rw [hlist]; exact h.list
  rearranged := by rw [hlist]; exact h.rearranged
  pending := by rw [hpending]; exact h.pending
  ne := h.ne
  ascending := h.ascending

/-- Work on the part not yet looked at. -/
theorem Stacked.reorder {t : MergeState T σ} {rest' : List T} (h : Stacked cmp r v s runs rest)
    (hM : Rearranged (Honest cmp r v) r rest rest') (hlist : t.list = runs.flatten ++ rest')
    (hpending : t.pending = s.pending) : Stacked cmp r v t runs rest' where
  list := hlist
  rearranged := by
    rw [hlist]
    apply h.rearranged.trans
    rw [h.list]
    exact (Rearranged.refl _).append hM
  pending := by rw [hpending]; exact h.pending
  ne := h.ne
  ascending := h.ascending

theorem Stacked.lost {t : MergeState T σ} {rest' : List T} (h : Stacked cmp r v s runs rest)
    (hdis : ¬ Honest cmp r v) (hM : rest'.Perm rest) (hlist : t.list = runs.flatten ++ rest')
    (e : E) : Lost cmp r v e t := by
  refine ⟨hdis, h.rearranged.perm.trans ?_⟩
  rw [h.list, hlist]
  exact hM.symm.append_left _

theorem exists_adjacent {l : List (List T)} {i : ℕ} (h : i + 1 < l.length) :
    ∃ p a b q, l = p ++ a :: b :: q ∧ p.length = i :=
  ⟨l.take i, l[i], l[i + 1], l.drop (i + 2), by simp, by simp; omega⟩

theorem Stacked.wp_mergeAt_of_lt (hr : StrictWeak r) {i : ℕ} {Q : Unit → MergeState T σ → Prop}
    (h : Stacked cmp r v s runs rest) (hi : i + 1 < s.pending.length)
    (hQ : ∀ runs' t, Stacked cmp r v t runs' rest → runs' ≠ [] →
      t.pending.length < s.pending.length → Q () t) :
    Prog.wp (mergeAt cmp i) Q (Lost cmp r v) s := by
  rw [h.pending_length] at hi
  obtain ⟨l, a, b, m, rfl, rfl⟩ := exists_adjacent hi
  apply wp_mergeAt hr h
  intro M t ht hlen
  exact hQ _ t ht (by simp) (by omega)

theorem wp_mergeDeeper (hr : StrictWeak r) {power : ℕ} {Q : Unit → MergeState T σ → Prop}
    (h : Stacked cmp r v s runs rest) (hne : runs ≠ [])
    (hQ : ∀ runs' t, Stacked cmp r v t runs' rest → runs' ≠ [] → Q () t) :
    Prog.wp (mergeDeeper cmp power) Q (Lost cmp r v) s := by
  unfold mergeDeeper
  apply Prog.wp_bind
  apply Prog.wp_gets
  apply Prog.wp_loop (fun _ t => ∃ runs', Stacked cmp r v t runs' rest ∧ runs' ≠ [])
    (fun _ t => t.pending.length)
  · rintro ⟨⟩ t ⟨runs', ht, hne'⟩
    apply Prog.wp_bind
    apply Prog.wp_gets
    apply Prog.wp_ite
    · intro hlong
      apply Prog.wp_bind
      apply wp_sub (by omega)
      apply Prog.wp_bind
      apply wp_pendingAt (List.getElem?_eq_getElem (by omega))
      apply Prog.wp_ite
      · intro _
        apply Prog.wp_bind
        apply ht.wp_mergeAt_of_lt hr (by omega)
        intro runs'' u hu hne'' hlt
        exact Prog.wp_pure ⟨⟨runs'', hu, hne''⟩, hlt⟩
      · intro _
        exact Prog.wp_pure (hQ runs' t ht hne')
    · intro _
      exact Prog.wp_pure (hQ runs' t ht hne')
  · exact Nat.lt_succ_self _
  · exact ⟨runs, h, hne⟩

theorem spans_getLast {run : ℕ × ℕ} {base : ℕ} (h : (spans base runs).getLast? = some run) :
    run.1 + run.2 = base + runs.flatten.length := by
  induction runs generalizing base with
  | nil => cases h
  | cons a runs ih =>
    cases runs with
    | nil =>
      simp only [spans, List.getLast?_singleton, Option.some.injEq] at h
      simp [← h]
    | cons b runs =>
      have := ih (by simpa [spans] using h : (spans (base + a.length) (b :: runs)).getLast? = some run)
      simp only [List.flatten_cons, List.length_append] at this ⊢
      omega

theorem wp_foundNewRun (hr : StrictWeak r) {n2 : ℕ} {Q : Unit → MergeState T σ → Prop}
    (h : Stacked cmp r v s runs rest) (hpos : 0 < n2) (hn2 : n2 ≤ rest.length)
    (hQ : ∀ runs' t, Stacked cmp r v t runs' rest → Q () t) :
    Prog.wp (foundNewRun cmp n2) Q (Lost cmp r v) s := by
  unfold foundNewRun
  apply Prog.wp_bind
  apply Prog.wp_gets
  rcases htop : s.pending.getLast? with _ | top
  · exact Prog.wp_pure (hQ runs s h)
  · have hlen := h.pending_length
    have hne : runs ≠ [] := by
      rintro rfl
      rw [List.length_nil, List.length_eq_zero_iff] at hlen
      rw [hlen] at htop
      cases htop
    have hend : top.base + top.len = runs.flatten.length := by
      have hspan : (spans 0 runs).getLast? = some (top.base, top.len) := by
        rw [← h.pending, List.getLast?_map, htop]
        rfl
      simpa using spans_getLast hspan
    have htotal : s.list.length = runs.flatten.length + rest.length := by
      rw [h.list, List.length_append]
    apply Prog.wp_bind
    apply Prog.wp_gets
    apply Prog.wp_bind
    apply wp_powerloop (by omega) hpos
    intro power
    apply Prog.wp_bind
    apply wp_mergeDeeper hr h hne
    intro runs' t ht hne'
    have hlen' := ht.pending_length
    have hpos' := List.length_pos_iff.mpr hne'
    have hlast : t.pending.length - 1 < t.pending.length := by omega
    apply Prog.wp_bind
    apply Prog.wp_gets
    apply Prog.wp_bind
    apply wp_sub (by omega)
    apply Prog.wp_bind
    apply wp_pendingAt (List.getElem?_eq_getElem hlast)
    apply Prog.wp_modify
    apply hQ runs'
    refine ht.congr ?_ ?_
    · rfl
    rw [List.map_set]
    apply List.ext_getElem
    · simp
    · intro i h₁ h₂
      rw [List.getElem_set]
      split_ifs with hi
      · subst hi
        simp
      · rfl

theorem wp_collapseAt {n : ℕ} {Q : ℕ → MergeState T σ → Prop} (hn : n + 1 < s.pending.length)
    (hQ : ∀ n', n' + 1 < s.pending.length → Q n' s) :
    Prog.wp (E := E) (collapseAt n) Q R s := by
  unfold collapseAt
  apply Prog.wp_ite
  · intro hpos
    apply Prog.wp_bind
    apply wp_sub hpos
    apply Prog.wp_bind
    apply wp_pendingAt (List.getElem?_eq_getElem (by omega))
    apply Prog.wp_bind
    apply wp_pendingAt (List.getElem?_eq_getElem hn)
    apply Prog.wp_ite
    · intro _
      exact Prog.wp_pure (hQ _ (by omega))
    · intro _
      exact Prog.wp_pure (hQ _ hn)
  · intro _
    exact Prog.wp_pure (hQ _ hn)

/-- What a successful sort leaves behind. -/
def Sorts (r : T → T → Prop) (v : List T) (cmp : σ → T → T → Except E Bool × σ)
    (s : MergeState T σ) : Prop :=
  Rearranged (Honest cmp r v) r v s.list ∧ (Honest cmp r v → Ascending r s.list)

theorem wp_mergeForceCollapse (hr : StrictWeak r) (h : Stacked cmp r v s runs []) :
    Prog.wp (mergeForceCollapse cmp) (fun _ => Sorts r v cmp) (Lost cmp r v) s := by
  unfold mergeForceCollapse
  apply Prog.wp_bind
  apply Prog.wp_gets
  apply Prog.wp_loop (fun _ t => ∃ runs', Stacked cmp r v t runs' [])
    (fun _ t => t.pending.length)
  · rintro ⟨⟩ t ⟨runs', ht⟩
    apply Prog.wp_bind
    apply Prog.wp_gets
    apply Prog.wp_ite
    · intro hlong
      apply Prog.wp_bind
      apply wp_sub (by omega)
      apply Prog.wp_bind
      apply wp_collapseAt (by omega)
      intro n hn
      apply Prog.wp_bind
      apply ht.wp_mergeAt_of_lt hr hn
      intro runs'' u hu _ hlt
      exact Prog.wp_pure ⟨⟨runs'', hu⟩, hlt⟩
    · intro hshort
      apply Prog.wp_pure
      refine ⟨ht.rearranged, fun honest => ?_⟩
      have hlen := ht.pending_length
      rw [ht.list]
      match runs' with
      | [] => exact List.Pairwise.nil
      | [a] => simpa using ht.ascending honest a (by simp)
      | a :: b :: m => simp at hlen; omega
  · exact Nat.lt_succ_self _
  · exact ⟨runs, h⟩

theorem wp_fillRun (hr : StrictWeak r) {minrun lo nremaining run : ℕ} {M z : List T}
    {Q : ℕ → MergeState T σ → Prop} (h : Stacked cmp r v s runs (M ++ z))
    (hlo : lo = runs.flatten.length) (hrem : nremaining = (M ++ z).length) (hrun : run = M.length)
    (hne : M ≠ []) (hasc : Honest cmp r v → Ascending r M)
    (hQ : ∀ M' z' t, Stacked cmp r v t runs (M' ++ z') → M' ≠ [] →
      (Honest cmp r v → Ascending r M') → (M' ++ z').length = nremaining → Q M'.length t) :
    Prog.wp (fillRun cmp minrun lo nremaining run) Q (Lost cmp r v) s := by
  have hpos := List.length_pos_iff.mpr hne
  rw [List.length_append] at hrem
  unfold fillRun
  apply Prog.wp_ite
  · intro hshort
    -- The run grows by the first elements of what follows it.
    obtain ⟨z₁, z₂, rfl, hz₁⟩ : ∃ z₁ z₂, z = z₁ ++ z₂ ∧ min nremaining minrun = (M ++ z₁).length := by
      refine ⟨z.take (min nremaining minrun - run), z.drop (min nremaining minrun - run), by simp, ?_⟩
      rw [List.length_append, List.length_take]
      omega
    rw [List.length_append] at hrem
    have hlist : s.list = runs.flatten ++ ((M ++ z₁) ++ z₂) := by
      rw [h.list, List.append_assoc]
    have hmem : ∀ x ∈ M ++ z₁, x ∈ v := by
      intro x hx
      apply h.mem
      rw [hlist]
      exact List.mem_append_right _ (List.mem_append_left _ hx)
    apply Prog.wp_bind
    apply wp_binarysort hr hlist hmem hlo hrun (by omega) hz₁ hasc
    · intro hdis e M' c hM'
      refine h.lost hdis (show (M' ++ z₂).Perm _ from ?_) rfl e
      rw [← List.append_assoc]
      exact hM'.append_right _
    · intro M' c hM' hasc'
      have hlen := hM'.perm.length_eq
      apply Prog.wp_pure
      rw [hz₁, hlen]
      refine hQ M' z₂ _ (h.reorder (show Rearranged _ _ _ (M' ++ z₂) from ?_) rfl rfl) ?_ hasc' ?_
      · rw [← List.append_assoc]
        exact hM'.append (Rearranged.refl z₂)
      · apply List.length_pos_iff.mp
        rw [← hlen, List.length_append]
        omega
      · rw [List.length_append, ← hlen, List.length_append]
        omega
  · intro _
    rw [hrun]
    exact Prog.wp_pure (hQ M z s h hne hasc (by rw [List.length_append]; exact hrem.symm))

theorem Stacked.push {M z : List T} {power : ℕ} (h : Stacked cmp r v s runs (M ++ z))
    (hne : M ≠ []) (hasc : Honest cmp r v → Ascending r M) :
    Stacked cmp r v { s with pending := s.pending ++ [⟨runs.flatten.length, M.length, power⟩] }
      (runs ++ [M]) z where
  list := by simpa using h.list
  rearranged := h.rearranged
  pending := by
    rw [List.map_append, h.pending, spans_append, Nat.zero_add]
    rfl
  ne run hrun := by
    rcases List.mem_append.mp hrun with hrun | hrun
    · exact h.ne run hrun
    · rwa [List.mem_singleton.mp hrun]
  ascending honest run hrun := by
    rcases List.mem_append.mp hrun with hrun | hrun
    · exact h.ascending honest run hrun
    · rw [List.mem_singleton.mp hrun]
      exact hasc honest

theorem wp_pushRuns (hr : StrictWeak r) {minrun n : ℕ} {Q : Unit → MergeState T σ → Prop}
    (h : Stacked cmp r v s [] rest) (hn : n = rest.length)
    (hQ : ∀ runs t, Stacked cmp r v t runs [] → Q () t) :
    Prog.wp (pushRuns cmp minrun n) Q (Lost cmp r v) s := by
  unfold pushRuns
  apply Prog.wp_loop (fun b t => ∃ runs rest, Stacked cmp r v t runs rest ∧
    b.1 = runs.flatten.length ∧ b.2 = rest.length) (fun b _ => b.2)
  · rintro ⟨lo, nremaining⟩ t ⟨runs, rest, ht, hlo, hrem⟩
    dsimp only at hlo hrem ⊢
    have hlen := ht.flatten_length
    apply Prog.wp_ite
    · intro hpos
      have hlist : t.list = runs.flatten ++ (rest ++ []) := by
        rw [ht.list, List.append_nil]
      apply Prog.wp_bind
      apply wp_countRun hr hlist (fun x hx => ht.mem (by rw [ht.list]; exact List.mem_append_right _ hx))
        hlo hrem (List.length_pos_iff.mp (by omega))
      · intro hdis e M c hM
        exact ht.lost hdis hM (by simp) e
      · rintro y z M c rfl hne hM hasc
        have hcount : Stacked cmp r v { t with list := runs.flatten ++ (M ++ (z ++ [])), calls := c }
            runs (M ++ z) :=
          ht.reorder (hM.append (Rearranged.refl z)) (by simp) rfl
        have hMy := hM.perm.length_eq
        rw [List.length_append] at hrem
        apply Prog.wp_bind
        apply wp_fillRun hr hcount hlo _ rfl hne hasc
        · intro M' z' u hu hne' hasc' hlen'
          have hpos' := List.length_pos_iff.mpr hne'
          apply Prog.wp_bind
          apply wp_foundNewRun hr hu hpos' (by rw [List.length_append]; omega)
          intro runs' w hw
          have hlenw := hw.flatten_length
          rw [List.length_append] at hlen'
          simp only [List.length_append] at hlen hlenw
          have hlo' : lo = runs'.flatten.length := by omega
          apply Prog.wp_bind
          apply Prog.wp_gets
          apply Prog.wp_bind
          apply Prog.wp_modify
          apply Prog.wp_bind
          apply wp_sub (by omega)
          apply Prog.wp_pure
          rw [hlo']
          refine ⟨⟨runs' ++ [M'], z', hw.push hne' hasc', by simp, ?_⟩, ?_⟩
          · dsimp only
            omega
          · dsimp only
            omega
        · rw [List.length_append]
          omega
    · intro hzero
      obtain rfl := List.length_eq_zero_iff.mp (by omega : rest.length = 0)
      exact Prog.wp_pure (hQ runs t ht)
  · exact Nat.lt_succ_self _
  · exact ⟨[], rest, h, rfl, hn⟩

theorem wp_sortRuns (hr : StrictWeak r) (c : σ) :
    Prog.wp (sortRuns cmp) (fun _ => Sorts r v cmp) (Lost cmp r v)
      ⟨v, minGallopDefault, 0, [], ⟨0, 0, 0⟩, [], c⟩ := by
  have h : Stacked cmp r v ⟨v, minGallopDefault, 0, [], ⟨0, 0, 0⟩, [], c⟩ [] v :=
    ⟨rfl, Rearranged.refl v, rfl, by simp, by simp⟩
  unfold sortRuns
  apply Prog.wp_bind
  apply Prog.wp_gets
  apply Prog.wp_bind
  apply wp_pushRuns hr h rfl
  intro runs t ht
  exact wp_mergeForceCollapse hr ht

/-- How a sort ends: without a fault, on a rearrangement of its input. -/
theorem sort_spec (hr : StrictWeak r) (c : σ) (v : List T) :
    ∃ result w c', sort cmp c v = .ok (result, w, c') ∧ v.Perm w ∧ (Honest cmp r v →
      result = .ok () ∧ Rearranged True r v w ∧ Ascending r w) := by
  unfold sort
  by_cases hshort : v.length < 2
  · rw [if_pos hshort]
    refine ⟨_, _, _, rfl, .rfl, fun _ => ⟨rfl, Rearranged.refl v, ?_⟩⟩
    match v with
    | [] => exact List.Pairwise.nil
    | [a] => exact List.pairwise_singleton _ a
    | a :: b :: l =>
      rw [List.length_cons, List.length_cons] at hshort
      omega
  · rw [if_neg hshort]
    obtain ⟨result, t, hrun, hok, herr⟩ := Prog.exists_of_wp (wp_sortRuns (v := v) hr c)
    rw [hrun]
    refine ⟨_, _, _, rfl, ?_⟩
    cases result with
    | ok u =>
      obtain ⟨hre, hasc⟩ := hok u rfl
      exact ⟨hre.perm, fun honest =>
        ⟨rfl, ⟨hre.perm, fun _ => hre.stable honest⟩, hasc honest⟩⟩
    | error e =>
      obtain ⟨hdis, hperm⟩ := herr e rfl
      exact ⟨hperm, fun honest => absurd honest hdis⟩

end Rules

/-- Whatever the comparator answers, remembers or fails on, the sort ends, stays in bounds and
keeps every element. -/
theorem sort_keeps_elements (cmp : σ → T → T → Except E Bool × σ) (c : σ) (v : List T) :
    ∃ result w c', sort cmp c v = .ok (result, w, c') ∧ w.Perm v := by
  obtain ⟨result, w, c', hrun, hperm, -⟩ := @sort_spec _ _ _ cmp _ StrictWeak.empty c v
  exact ⟨result, w, c', hrun, hperm.symm⟩

theorem sort_stable (cmp : σ → T → T → Except E Bool × σ) (r : T → T → Prop) (c : σ) (v : List T)
    (horder : IsStrictWeakOrder {a // a ∈ v} (Subrel r (· ∈ v))) (hanswers : Honest cmp r v) :
    ∃ w c', sort cmp c v = .ok (.ok (), w, c') ∧ StableSort r v w ∧
      ∀ w', StableSort r v w' → w' = w := by
  have hagree : ∀ a ∈ v, ∀ b ∈ v, ((a ∈ v ∧ (b ∈ v → r a b)) ↔ r a b) := by
    intro a ha b hb
    exact ⟨fun h => h.2 hb, fun h => ⟨ha, fun _ => h⟩⟩
  have hr := StrictWeak.extend v horder
  have honest : Honest cmp (fun a b => a ∈ v ∧ (b ∈ v → r a b)) v := by
    intro c a ha b hb
    obtain ⟨t, ht, hiff⟩ := hanswers c a ha b hb
    exact ⟨t, ht, hiff.trans (hagree a ha b hb).symm⟩
  obtain ⟨result, w, c', hrun, -, hsorted⟩ := @sort_spec _ _ _ cmp _ hr c v
  obtain ⟨rfl, hre, hasc⟩ := hsorted honest
  have hw : StableSort (fun a b => a ∈ v ∧ (b ∈ v → r a b)) v w :=
    ⟨hre.perm.symm, hasc, fun a _ => (hre.stable trivial a).symm⟩
  refine ⟨w, c', hrun, hw.congr hagree, fun w' hw' => ?_⟩
  exact (hw'.congr fun a ha b hb => (hagree a ha b hb).symm).unique hr.irrefl hw

/-- Pairs sorted by their first components. -/
theorem sort_stable_pairs : ∃ w c',
    sort (E := Empty) (fun (_ : Unit) a b => (.ok (decide (a.1 < b.1)), ())) ()
      [(2, 0), (1, 1), (2, 2), (0, 3)] = .ok (.ok (), w, c') ∧
    StableSort (fun a b : ℕ × ℕ => a.1 < b.1) [(2, 0), (1, 1), (2, 2), (0, 3)] w ∧
    ∀ w', StableSort (fun a b : ℕ × ℕ => a.1 < b.1) [(2, 0), (1, 1), (2, 2), (0, 3)] w' → w' = w :=
  sort_stable _ _ () _
    { irrefl := fun a => Nat.lt_irrefl a.1.1
      trans := fun _ _ _ hab hbc => Nat.lt_trans hab hbc
      incomp_trans := fun a b c hab hbc => by
        simp only [Subrel, Order.Preimage, not_lt] at *
        omega }
    fun _ _ _ _ _ => ⟨_, rfl, by simp⟩

end WeavePy.Timsort
