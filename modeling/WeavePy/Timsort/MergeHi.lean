import WeavePy.Timsort.MergeLo

/-!
The merge of two adjacent runs from the right, with the second run parked in scratch.
-/

namespace WeavePy.Timsort

variable {T σ E β : Type}

/-- The start of the first run and how much of it is unmerged. -/
structure Hi where
  aBase : ℕ
  na : ℕ

def Hi.takeA (x : Hi) (k : ℕ) : Sorter T σ E Hi := do
  let hole ← getHole
  let na ← sub x.na k
  copy (x.aBase + na) (x.aBase + na + hole.len) k
  setHole { hole with dest := x.aBase + na }
  return { x with na := na }

def Hi.takeB (x : Hi) (k : ℕ) : Sorter T σ E Unit := do
  let hole ← getHole
  let len ← sub hole.len k
  let top ← sub (x.na + hole.len) k
  unpark len (x.aBase + top) k
  setHole { hole with len := len }

/-- The rest of the first run goes after the first element of the second. -/
def Hi.finish (x : Hi) : Sorter T σ E (Option β) := do
  let _ ← x.takeA x.na
  return none

variable (cmp : σ → T → T → Except E Bool × σ)

def mergeHiSteps (minGallop : ℕ) (x : Hi) : Sorter T σ E (Option Hi) := do
  let hole ← getHole
  loop (x.na + hole.len + 1) (fun ⟨x, acount, bcount⟩ => do
    let hole ← getHole
    let aTop ← sub x.na 1
    let bTop ← sub hole.len 1
    if ← lt cmp (.tmp bTop) (.list (x.aBase + aTop)) then do
      let x ← x.takeA 1
      if x.na = 0 then return .done none
      else if minGallop ≤ acount + 1 then return .done (some x)
      else return .next (x, acount + 1, 0)
    else do
      x.takeB 1
      let hole ← getHole
      if hole.len = 1 then do
        let ended ← x.finish
        return .done ended
      else if minGallop ≤ bcount + 1 then return .done (some x)
      else return .next (x, 0, bcount + 1)) (x, 0, 0)

def Hi.gallopA (x : Hi) (k : ℕ) : Sorter T σ E (Option Hi) :=
  if 0 < k then do
    let x ← x.takeA k
    if x.na = 0 then return none
    else return some x
  else return some x

def Hi.gallopB (x : Hi) (k : ℕ) : Sorter T σ E (Option Hi) :=
  if 0 < k then do
    x.takeB k
    let hole ← getHole
    if hole.len = 1 then x.finish
    -- Impossible for a consistent comparison, but possible.
    else if hole.len = 0 then return none
    else return some x
  else return some x

def mergeHiGallopA (x : Hi) : Sorter T σ E (Option (Hi × ℕ)) := do
  let hole ← getHole
  let bTop ← sub hole.len 1
  let hint ← sub x.na 1
  let kept ← gallopRight cmp (.tmp bTop) (.list x.aBase) x.na hint
  let acount ← sub x.na kept
  match ← x.gallopA acount with
  | none => return none
  | some x => do
    x.takeB 1
    let hole ← getHole
    if hole.len = 1 then x.finish
    else return some (x, acount)

def mergeHiGallopB (x : Hi) : Sorter T σ E (Option (Hi × ℕ)) := do
  let hole ← getHole
  let aTop ← sub x.na 1
  let hint ← sub hole.len 1
  let kept ← gallopLeft cmp (.list (x.aBase + aTop)) (.tmp 0) hole.len hint
  let bcount ← sub hole.len kept
  match ← x.gallopB bcount with
  | none => return none
  | some x => do
    let x ← x.takeA 1
    if x.na = 0 then return none
    else return some (x, bcount)

def mergeHiGallop (minGallop : ℕ) (x : Hi) : Sorter T σ E (Option (Hi × ℕ)) := do
  let hole ← getHole
  loop (x.na + hole.len + 1) (fun ⟨x, minGallop⟩ => do
    let minGallop := minGallop - if 1 < minGallop then 1 else 0
    setMinGallop minGallop
    match ← mergeHiGallopA cmp x with
    | none => return .done none
    | some (x, acount) =>
      match ← mergeHiGallopB cmp x with
      | none => return .done none
      | some (x, bcount) =>
        if acount < minGallopDefault ∧ bcount < minGallopDefault then
          return .done (some (x, minGallop))
        else return .next (x, minGallop)) (x, minGallop)

def mergeHiLoop (minGallop : ℕ) (x : Hi) : Sorter T σ E Unit := do
  let hole ← getHole
  loop (x.na + hole.len + 1) (fun ⟨x, minGallop⟩ => do
    match ← mergeHiSteps cmp minGallop x with
    | none => return .done ()
    | some x =>
      match ← mergeHiGallop cmp (minGallop + 1) x with
      | none => return .done ()
      | some (x, minGallop) =>
        setMinGallop (minGallop + 1)
        return .next (x, minGallop + 1)) (x, minGallop)

def mergeHiBody (x : Hi) : Sorter T σ E Unit := do
  let x ← x.takeA 1
  if x.na = 0 then return ()
  else do
    let hole ← getHole
    if hole.len = 1 then do
      let _ ← x.takeA x.na
    else do
      let minGallop ← Prog.gets fun s => s.minGallop
      mergeHiLoop cmp minGallop x

def mergeHi (sa na nb : ℕ) : Sorter T σ E Unit := do
  scratch nb
  park (sa + na) nb
  setHole ⟨0, sa + na, nb⟩
  Prog.finally_ (mergeHiBody cmp ⟨sa, na⟩) dropHole

/-- The rest `a` of the first run, the parked rest `b` of the second and the merged `out` make up
the two runs `l₀`, with a gap in the list where `b` belongs. -/
structure HiAt (r : T → T → Prop) (v pre post l₀ : List T) (stack : List Run) (s : MergeState T σ)
    (a b out : List T) : Prop where
  list : ∃ gap, gap.length = b.length ∧ s.list = pre ++ (a ++ (gap ++ (out ++ post)))
  tmp : ∃ gone, s.tmp = b ++ gone
  src : s.hole.src = 0
  dest : s.hole.dest = pre.length + a.length
  len : s.hole.len = b.length
  pending : s.pending = stack
  rearranged : Rearranged (Honest cmp r v) r l₀ (a ++ (b ++ out))
  merging : Honest cmp r v → MergingDown r a b out
  first : Honest cmp r v → ∀ y ∈ b.head?, ∀ x ∈ a, r y x

structure Hi.Agrees (x : Hi) (pre a : List T) : Prop where
  aBase_eq : x.aBase = pre.length
  na_eq : x.na = a.length

def HiDone (r : T → T → Prop) (v pre post l₀ : List T) (stack : List Run) (s : MergeState T σ) :
    Prop :=
  ∃ a b out, HiAt cmp r v pre post l₀ stack s a b out ∧
    (Honest cmp r v → Ascending r (a ++ (b ++ out)))

def HiLost (r : T → T → Prop) (v pre post l₀ : List T) (stack : List Run) (_ : E)
    (s : MergeState T σ) : Prop :=
  ¬ Honest cmp r v ∧ ∃ a b out, HiAt cmp r v pre post l₀ stack s a b out

def HiReady (r : T → T → Prop) (v pre post l₀ : List T) (stack : List Run) (x : Hi)
    (s : MergeState T σ) : Prop :=
  ∃ a b out, HiAt cmp r v pre post l₀ stack s a b out ∧ x.Agrees pre a ∧ 1 ≤ a.length ∧
    2 ≤ b.length

section Rules

variable {cmp : σ → T → T → Except E Bool × σ} {r : T → T → Prop} {v pre post l₀ : List T}
  {stack : List Run} {s t : MergeState T σ} {x : Hi} {out a a₁ a₂ b b₁ b₂ : List T} {k : ℕ}
  {R : E → MergeState T σ → Prop}

theorem HiAt.congr (h : HiAt cmp r v pre post l₀ stack s a b out) (hlist : t.list = s.list)
    (htmp : t.tmp = s.tmp) (hhole : t.hole = s.hole) (hpending : t.pending = s.pending) :
    HiAt cmp r v pre post l₀ stack t a b out where
  list := by rw [hlist]; exact h.list
  tmp := by rw [htmp]; exact h.tmp
  src := by rw [hhole]; exact h.src
  dest := by rw [hhole]; exact h.dest
  len := by rw [hhole]; exact h.len
  pending := by rw [hpending]; exact h.pending
  rearranged := h.rearranged
  merging := h.merging
  first := h.first

theorem HiReady.congr (h : HiReady cmp r v pre post l₀ stack x s) (hlist : t.list = s.list)
    (htmp : t.tmp = s.tmp) (hhole : t.hole = s.hole) (hpending : t.pending = s.pending) :
    HiReady cmp r v pre post l₀ stack x t := by
  obtain ⟨a, b, out, h, hrest⟩ := h
  exact ⟨a, b, out, h.congr hlist htmp hhole hpending, hrest⟩

theorem wp_hiTakeA (hr : StrictWeak r) {Q : Hi → MergeState T σ → Prop}
    (h : HiAt cmp r v pre post l₀ stack s (a₁ ++ a₂) b out) (hx : x.Agrees pre (a₁ ++ a₂))
    (hk : k = a₂.length) (hlt : Honest cmp r v → ∀ y ∈ a₂, ∀ z ∈ b, r z y)
    (hQ : ∀ x t, HiAt cmp r v pre post l₀ stack t a₁ b (a₂ ++ out) → x.Agrees pre a₁ → Q x t) :
    Prog.wp (x.takeA k) Q R s := by
  obtain ⟨gap, hgap, hlist⟩ := h.list
  have hna : x.na = a₁.length + a₂.length := by rw [hx.na_eq, List.length_append]
  have hlen := h.len
  have hbase := hx.aBase_eq
  have hsub : x.na - k = a₁.length := by omega
  unfold Hi.takeA
  apply Prog.wp_bind
  apply Prog.wp_gets
  apply Prog.wp_bind
  apply wp_sub (by omega)
  rw [hsub]
  apply Prog.wp_bind
  apply wp_copy_up (l := pre ++ a₁) (g := gap) (b := a₂) (m := out ++ post)
  · simpa using hlist
  · rw [List.length_append]
    omega
  · rw [List.length_append]
    omega
  · exact hk
  · intro gap' hgap'
    apply Prog.wp_bind
    apply Prog.wp_modify
    apply Prog.wp_pure
    apply hQ
    · refine ⟨⟨gap', hgap'.trans hgap, by simp⟩, h.tmp, h.src, ?_, hlen, h.pending, ?_, ?_, ?_⟩
      · dsimp only
        omega
      · have hswap : Rearranged (Honest cmp r v) r (a₂ ++ b) (b ++ a₂) := Rearranged.swap hr hlt
        have := h.rearranged.trans (by simpa using hswap.inside a₁ out)
        simpa using this
      · exact fun honest => (h.merging honest).takeFirst hr (hlt honest)
      · exact fun honest y hy z hz => h.first honest y hy z (List.mem_append_left _ hz)
    · exact ⟨hbase, rfl⟩

theorem wp_hiTakeB {Q : Unit → MergeState T σ → Prop}
    (h : HiAt cmp r v pre post l₀ stack s a (b₁ ++ b₂) out) (hx : x.Agrees pre a)
    (hk : k = b₂.length) (hle : Honest cmp r v → ∀ y ∈ a, ∀ z ∈ b₂, ¬ r z y)
    (hQ : ∀ t, HiAt cmp r v pre post l₀ stack t a b₁ (b₂ ++ out) → Q () t) :
    Prog.wp (x.takeB k) Q R s := by
  obtain ⟨gap, hgap, hlist⟩ := h.list
  obtain ⟨gone, htmp⟩ := h.tmp
  have hlen : s.hole.len = b₁.length + b₂.length := by rw [h.len, List.length_append]
  have hbase := hx.aBase_eq
  have hna := hx.na_eq
  rw [List.length_append] at hgap
  obtain ⟨g₁, g₂, rfl, hg₁, hg₂⟩ : ∃ g₁ g₂, gap = g₁ ++ g₂ ∧ g₁.length = b₁.length ∧
      g₂.length = b₂.length :=
    ⟨gap.take b₁.length, gap.drop b₁.length, by simp, by simp [hgap], by simp [hgap]⟩
  unfold Hi.takeB
  apply Prog.wp_bind
  apply Prog.wp_gets
  apply Prog.wp_bind
  apply wp_sub (by omega)
  apply Prog.wp_bind
  apply wp_sub (by omega)
  apply Prog.wp_bind
  apply wp_unpark (l := pre ++ (a ++ g₁)) (g := g₂) (m := out ++ post) (t := b₁) (b := b₂)
    (u := gone)
  · simpa using hlist
  · simpa using htmp
  · exact hg₂
  · omega
  · rw [List.length_append, List.length_append]
    omega
  · exact hk
  · apply Prog.wp_modify
    apply hQ
    refine ⟨⟨g₁, hg₁, by simp⟩, ⟨b₂ ++ gone, by simpa using htmp⟩, h.src, h.dest, ?_, h.pending, ?_,
      ?_, ?_⟩
    · dsimp only
      omega
    · simpa using h.rearranged
    · exact fun honest => (h.merging honest).takeSecond (hle honest)
    · intro honest y hy z hz
      apply h.first honest y _ z hz
      rw [List.head?_append, Option.mem_def.mp hy]
      rfl

theorem HiAt.mem (h : HiAt cmp r v pre post l₀ stack s a b out) (hv : ∀ y ∈ l₀, y ∈ v) :
    (∀ y ∈ a, y ∈ v) ∧ ∀ y ∈ b, y ∈ v := by
  constructor
  · intro y hy
    exact hv y (h.rearranged.perm.mem_iff.mpr (by simp [hy]))
  · intro y hy
    exact hv y (h.rearranged.perm.mem_iff.mpr (by simp [hy]))

theorem HiAt.holds_b (h : HiAt cmp r v pre post l₀ stack s a b out) (hv : ∀ y ∈ l₀, y ∈ v) :
    Holds s (.tmp 0) v b := by
  obtain ⟨gone, htmp⟩ := h.tmp
  refine ⟨fun i hi => ?_, (h.mem hv).2⟩
  simp only [deref, Ptr.add, htmp, Nat.zero_add]
  rw [List.getElem?_append_left hi, List.getElem?_eq_getElem hi]

theorem HiAt.holds_a (h : HiAt cmp r v pre post l₀ stack s a b out) (hv : ∀ y ∈ l₀, y ∈ v)
    (hx : x.Agrees pre a) : Holds s (.list x.aBase) v a := by
  obtain ⟨gap, hgap, hlist⟩ := h.list
  exact holds_list (l := pre) (m := gap ++ (out ++ post)) hlist hx.aBase_eq (h.mem hv).1

theorem deref_aTop {y : T} (h : HiAt cmp r v pre post l₀ stack s (a ++ [y]) b out)
    (hv : ∀ y ∈ l₀, y ∈ v) (hx : x.Agrees pre (a ++ [y])) :
    deref s.list s.tmp (.list (x.aBase + (x.na - 1))) = some y := by
  have := (h.holds_a hv hx).deref a.length (by simp)
  rw [hx.na_eq, List.length_append, List.length_singleton, Nat.add_sub_cancel]
  simpa [Ptr.add] using this

theorem deref_bTop {z : T} (h : HiAt cmp r v pre post l₀ stack s a (b ++ [z]) out)
    (hv : ∀ y ∈ l₀, y ∈ v) : deref s.list s.tmp (.tmp (s.hole.len - 1)) = some z := by
  have := (h.holds_b hv).deref b.length (by simp)
  rw [h.len, List.length_append, List.length_singleton, Nat.add_sub_cancel]
  simpa [Ptr.add] using this

/-- What is left of a single second run goes first. -/
theorem wp_hiTakeRest (hr : StrictWeak r) {Q : Hi → MergeState T σ → Prop} {z : T}
    (h : HiAt cmp r v pre post l₀ stack s a [z] out) (hx : x.Agrees pre a)
    (hQ : ∀ x t, HiDone cmp r v pre post l₀ stack t → Q x t) :
    Prog.wp (x.takeA x.na) Q R s := by
  rw [← List.nil_append a] at h hx
  apply wp_hiTakeA hr h hx hx.na_eq
  · intro honest y hy z' hz'
    obtain rfl := List.mem_singleton.mp hz'
    exact h.first honest z' (by simp) y hy
  · intro x' t h' _
    apply hQ
    refine ⟨_, _, _, h', fun honest => ?_⟩
    simpa using (h'.merging honest).second

theorem wp_hiFinish (hr : StrictWeak r) {Q : Option β → MergeState T σ → Prop} {z : T}
    (h : HiAt cmp r v pre post l₀ stack s a [z] out) (hx : x.Agrees pre a)
    (hQ : ∀ t, HiDone cmp r v pre post l₀ stack t → Q none t) : Prog.wp (x.finish) Q R s := by
  unfold Hi.finish
  apply Prog.wp_bind
  apply wp_hiTakeRest hr h hx
  intro _ t ht
  exact Prog.wp_pure (hQ t ht)

theorem HiAt.done_of_a (h : HiAt cmp r v pre post l₀ stack s [] b out) :
    HiDone cmp r v pre post l₀ stack s :=
  ⟨[], b, out, h, fun honest => by simpa using (h.merging honest).second⟩

theorem HiAt.done_of_b (h : HiAt cmp r v pre post l₀ stack s a [] out) :
    HiDone cmp r v pre post l₀ stack s :=
  ⟨a, [], out, h, fun honest => by simpa using (h.merging honest).first⟩

def Hi.remaining (x : Hi) (s : MergeState T σ) : ℕ := x.na + s.hole.len

def HiResult (r : T → T → Prop) (v pre post l₀ : List T) (stack : List Run)
    (cmp : σ → T → T → Except E Bool × σ) (n : ℕ) (result : Option Hi) (t : MergeState T σ) :
    Prop :=
  match result with
  | none => HiDone cmp r v pre post l₀ stack t
  | some x => HiReady cmp r v pre post l₀ stack x t ∧ x.remaining t < n

theorem HiAt.remaining_eq (h : HiAt cmp r v pre post l₀ stack s a b out)
    (hx : x.Agrees pre a) : x.remaining s = a.length + b.length := by
  unfold Hi.remaining
  rw [h.len, hx.na_eq]

theorem exists_concat {l : List T} (h : 1 ≤ l.length) : ∃ m y, l = m ++ [y] := by
  apply (List.eq_nil_or_concat' l).resolve_left
  rintro rfl
  simp at h

theorem wp_mergeHiSteps (hr : StrictWeak r) (hv : ∀ y ∈ l₀, y ∈ v) {minGallop : ℕ}
    (h : HiReady cmp r v pre post l₀ stack x s) :
    Prog.wp (mergeHiSteps cmp minGallop x)
      (HiResult r v pre post l₀ stack cmp (x.remaining s))
      (HiLost cmp r v pre post l₀ stack) s := by
  unfold mergeHiSteps
  apply Prog.wp_bind
  apply Prog.wp_gets
  apply Prog.wp_loop (fun b t => HiReady cmp r v pre post l₀ stack b.1 t ∧
    b.1.remaining t ≤ x.remaining s) (fun b t => b.1.remaining t)
  · rintro ⟨x', acount, bcount⟩ t ⟨⟨a, b, out, h, hx, ha, hb⟩, hle⟩
    dsimp only at hx hle ⊢
    obtain ⟨a, y, rfl⟩ := exists_concat ha
    obtain ⟨b, z, rfl⟩ := exists_concat (by omega : 1 ≤ b.length)
    have hrem := h.remaining_eq hx
    have hmem := h.mem hv
    have hlen := h.len
    have hna := hx.na_eq
    apply Prog.wp_bind
    apply Prog.wp_gets
    apply Prog.wp_bind
    apply wp_sub (by omega)
    apply Prog.wp_bind
    apply wp_sub (by omega)
    apply Prog.wp_bind
    apply wp_lt (deref_bTop h hv) (deref_aTop h hv hx) (hmem.2 z (by simp)) (hmem.1 y (by simp))
    · intro hdis e c
      exact ⟨hdis, _, _, _, h.congr rfl rfl rfl rfl⟩
    · intro less c hless
      have hc : HiAt cmp r v pre post l₀ stack { t with calls := c } (a ++ [y]) (b ++ [z]) out :=
        h.congr rfl rfl rfl rfl
      apply Prog.wp_ite
      · intro htrue
        apply Prog.wp_bind
        apply wp_hiTakeA hr hc hx rfl
        · intro honest y' hy' z' hz'
          obtain rfl := List.mem_singleton.mp hy'
          exact hr.lt_of_le_of_lt ((h.merging honest).ascending_second.le_last hr hz')
            ((hless honest).mp htrue)
        · intro x'' u hu hxu
          have hremu := hu.remaining_eq hxu
          simp only [List.length_append, List.length_singleton] at hrem hremu
          apply Prog.wp_ite
          · intro hzero
            rw [hxu.na_eq] at hzero
            obtain rfl := List.length_eq_zero_iff.mp hzero
            exact Prog.wp_pure hu.done_of_a
          · intro hpos
            have hready : HiReady cmp r v pre post l₀ stack x'' u :=
              ⟨_, _, _, hu, hxu, by rw [hxu.na_eq] at hpos; omega, hb⟩
            apply Prog.wp_ite
            · intro _
              exact Prog.wp_pure ⟨hready, by omega⟩
            · intro _
              exact Prog.wp_pure ⟨⟨hready, by dsimp only; omega⟩, by dsimp only; omega⟩
      · intro hfalse
        apply Prog.wp_bind
        apply wp_hiTakeB hc hx rfl
        · intro honest y' hy' z' hz'
          obtain rfl := List.mem_singleton.mp hz'
          have hzy : ¬ r z' y := fun h => hfalse ((hless honest).mpr h)
          exact hr.le_trans ((h.merging honest).ascending_first.le_last hr hy') hzy
        · intro u hu
          have hremu := hu.remaining_eq hx
          simp only [List.length_append, List.length_singleton] at hrem hremu hb
          have hlenu := hu.len
          apply Prog.wp_bind
          apply Prog.wp_gets
          apply Prog.wp_ite
          · intro hone
            obtain ⟨w, rfl⟩ := List.length_eq_one_iff.mp (hlenu.symm.trans hone)
            apply Prog.wp_bind
            apply wp_hiFinish hr hu hx
            intro u' hu'
            exact Prog.wp_pure hu'
          · intro hmany
            have hready : HiReady cmp r v pre post l₀ stack x' u :=
              ⟨_, _, _, hu, hx, ha, by omega⟩
            apply Prog.wp_ite
            · intro _
              exact Prog.wp_pure ⟨hready, by omega⟩
            · intro _
              exact Prog.wp_pure ⟨⟨hready, by dsimp only; omega⟩, by dsimp only; omega⟩
  · exact Nat.lt_succ_self _
  · exact ⟨h, le_refl _⟩

theorem wp_hiGallopA (hr : StrictWeak r) {Q : Option Hi → MergeState T σ → Prop}
    (h : HiAt cmp r v pre post l₀ stack s (a₁ ++ a₂) b out) (hx : x.Agrees pre (a₁ ++ a₂))
    (hk : k = a₂.length) (hlt : Honest cmp r v → ∀ y ∈ a₂, ∀ z ∈ b, r z y)
    (ha : 1 ≤ (a₁ ++ a₂).length) (hdone : ∀ t, HiDone cmp r v pre post l₀ stack t → Q none t)
    (hQ : ∀ x t, HiAt cmp r v pre post l₀ stack t a₁ b (a₂ ++ out) → x.Agrees pre a₁ →
      1 ≤ a₁.length → Q (some x) t) : Prog.wp (x.gallopA k) Q R s := by
  unfold Hi.gallopA
  apply Prog.wp_ite
  · intro _
    apply Prog.wp_bind
    apply wp_hiTakeA hr h hx hk hlt
    intro x' t ht hxt
    apply Prog.wp_ite
    · intro hzero
      rw [hxt.na_eq] at hzero
      obtain rfl := List.length_eq_zero_iff.mp hzero
      exact Prog.wp_pure (hdone t ht.done_of_a)
    · intro hpos
      rw [hxt.na_eq] at hpos
      exact Prog.wp_pure (hQ x' t ht hxt (by omega))
  · intro hzero
    obtain rfl : a₂ = [] := List.length_eq_zero_iff.mp (by omega)
    rw [List.append_nil] at h hx ha
    exact Prog.wp_pure (hQ x s (by simpa using h) hx ha)

theorem wp_hiGallopB (hr : StrictWeak r) {Q : Option Hi → MergeState T σ → Prop}
    (h : HiAt cmp r v pre post l₀ stack s a (b₁ ++ b₂) out) (hx : x.Agrees pre a)
    (hk : k = b₂.length) (hle : Honest cmp r v → ∀ y ∈ a, ∀ z ∈ b₂, ¬ r z y)
    (hb : 2 ≤ (b₁ ++ b₂).length) (hdone : ∀ t, HiDone cmp r v pre post l₀ stack t → Q none t)
    (hQ : ∀ t, HiAt cmp r v pre post l₀ stack t a b₁ (b₂ ++ out) → 2 ≤ b₁.length →
      Q (some x) t) : Prog.wp (x.gallopB k) Q R s := by
  unfold Hi.gallopB
  apply Prog.wp_ite
  · intro _
    apply Prog.wp_bind
    apply wp_hiTakeB h hx hk hle
    intro t ht
    apply Prog.wp_bind
    apply Prog.wp_gets
    have hlen := ht.len
    apply Prog.wp_ite
    · intro hone
      obtain ⟨w, rfl⟩ := List.length_eq_one_iff.mp (hlen.symm.trans hone)
      exact wp_hiFinish hr ht hx hdone
    · intro hmany
      apply Prog.wp_ite
      · intro hzero
        obtain rfl := List.length_eq_zero_iff.mp (hlen.symm.trans hzero)
        exact Prog.wp_pure (hdone t ht.done_of_b)
      · intro hpos
        exact Prog.wp_pure (hQ t ht (by omega))
  · intro hzero
    obtain rfl : b₂ = [] := List.length_eq_zero_iff.mp (by omega)
    rw [List.append_nil] at h hb
    exact Prog.wp_pure (hQ s (by simpa using h) hb)

def HiGalloped (r : T → T → Prop) (v pre post l₀ : List T) (stack : List Run)
    (cmp : σ → T → T → Except E Bool × σ) (n : ℕ) (result : Option (Hi × ℕ))
    (t : MergeState T σ) : Prop :=
  HiResult r v pre post l₀ stack cmp n (result.map Prod.fst) t

theorem wp_mergeHiGallopA (hr : StrictWeak r) (hv : ∀ y ∈ l₀, y ∈ v)
    (h : HiReady cmp r v pre post l₀ stack x s) :
    Prog.wp (mergeHiGallopA cmp x) (HiGalloped r v pre post l₀ stack cmp (x.remaining s))
      (HiLost cmp r v pre post l₀ stack) s := by
  obtain ⟨a, b, out, h, hx, ha, hb⟩ := h
  obtain ⟨b, z, rfl⟩ := exists_concat (by omega : 1 ≤ b.length)
  have hrem := h.remaining_eq hx
  have hmem := h.mem hv
  have hlen := h.len
  have hna := hx.na_eq
  unfold mergeHiGallopA
  apply Prog.wp_bind
  apply Prog.wp_gets
  apply Prog.wp_bind
  apply wp_sub (by omega)
  apply Prog.wp_bind
  apply wp_sub (by omega)
  apply Prog.wp_bind
  apply wp_gallopRight hr (deref_bTop h hv) (hmem.2 z (by simp)) (h.holds_a hv hx) hna
    (by omega) fun honest => (h.merging honest).ascending_first
  · intro hdis e c
    exact ⟨hdis, _, _, _, h.congr rfl rfl rfl rfl⟩
  · rintro a₁ a₂ c rfl hle hlt
    have hc : HiAt cmp r v pre post l₀ stack { s with calls := c } (a₁ ++ a₂) (b ++ [z]) out :=
      h.congr rfl rfl rfl rfl
    rw [List.length_append] at hna
    apply Prog.wp_bind
    apply wp_sub (by omega)
    apply Prog.wp_bind
    apply wp_hiGallopA hr hc hx (by omega) _ ha
    · intro t ht
      exact Prog.wp_pure ht
    · intro x' t ht hxt ha₁
      apply Prog.wp_bind
      apply wp_hiTakeB ht hxt rfl
      · intro honest y hy z' hz'
        obtain rfl := List.mem_singleton.mp hz'
        exact hle honest y hy
      · intro u hu
        have hremu := hu.remaining_eq hxt
        have hlenu := hu.len
        simp only [List.length_append, List.length_singleton] at hrem hremu hb
        apply Prog.wp_bind
        apply Prog.wp_gets
        apply Prog.wp_ite
        · intro hone
          obtain ⟨w, rfl⟩ := List.length_eq_one_iff.mp (hlenu.symm.trans hone)
          exact wp_hiFinish hr hu hxt fun u' hu' => hu'
        · intro hmany
          exact Prog.wp_pure ⟨⟨_, _, _, hu, hxt, ha₁, by omega⟩, by dsimp only; omega⟩
    · intro honest y hy z' hz'
      exact hr.lt_of_le_of_lt ((h.merging honest).ascending_second.le_last hr hz')
        (hlt honest y hy)

theorem wp_mergeHiGallopB (hr : StrictWeak r) (hv : ∀ y ∈ l₀, y ∈ v)
    (h : HiReady cmp r v pre post l₀ stack x s) :
    Prog.wp (mergeHiGallopB cmp x) (HiGalloped r v pre post l₀ stack cmp (x.remaining s))
      (HiLost cmp r v pre post l₀ stack) s := by
  obtain ⟨a, b, out, h, hx, ha, hb⟩ := h
  obtain ⟨a, y, rfl⟩ := exists_concat ha
  have hrem := h.remaining_eq hx
  have hmem := h.mem hv
  have hlen := h.len
  have hna := hx.na_eq
  unfold mergeHiGallopB
  apply Prog.wp_bind
  apply Prog.wp_gets
  apply Prog.wp_bind
  apply wp_sub (by omega)
  apply Prog.wp_bind
  apply wp_sub (by omega)
  apply Prog.wp_bind
  apply wp_gallopLeft hr (deref_aTop h hv hx) (hmem.1 y (by simp)) (h.holds_b hv) hlen
    (by omega) fun honest => (h.merging honest).ascending_second
  · intro hdis e c
    exact ⟨hdis, _, _, _, h.congr rfl rfl rfl rfl⟩
  · rintro b₁ b₂ c rfl hlt hle
    have hc : HiAt cmp r v pre post l₀ stack { s with calls := c } (a ++ [y]) (b₁ ++ b₂) out :=
      h.congr rfl rfl rfl rfl
    rw [List.length_append] at hlen
    apply Prog.wp_bind
    apply wp_sub (by omega)
    apply Prog.wp_bind
    apply wp_hiGallopB hr hc hx (by omega) _ hb
    · intro t ht
      exact Prog.wp_pure ht
    · intro t ht hb₁
      apply Prog.wp_bind
      apply wp_hiTakeA hr ht hx rfl
      · intro honest y' hy' z hz
        obtain rfl := List.mem_singleton.mp hy'
        exact hlt honest z hz
      · intro x'' u hu hxu
        have hremu := hu.remaining_eq hxu
        simp only [List.length_append, List.length_singleton] at hrem hremu
        apply Prog.wp_ite
        · intro hzero
          rw [hxu.na_eq] at hzero
          obtain rfl := List.length_eq_zero_iff.mp hzero
          exact Prog.wp_pure hu.done_of_a
        · intro hpos
          rw [hxu.na_eq] at hpos
          exact Prog.wp_pure ⟨⟨_, _, _, hu, hxu, by omega, hb₁⟩, by dsimp only; omega⟩
    · intro honest y' hy' z hz
      exact hr.le_trans ((h.merging honest).ascending_first.le_last hr hy') (hle honest z hz)

theorem wp_mergeHiGallop (hr : StrictWeak r) (hv : ∀ y ∈ l₀, y ∈ v) {minGallop : ℕ}
    (h : HiReady cmp r v pre post l₀ stack x s) :
    Prog.wp (mergeHiGallop cmp minGallop x)
      (HiGalloped r v pre post l₀ stack cmp (x.remaining s))
      (HiLost cmp r v pre post l₀ stack) s := by
  unfold mergeHiGallop
  apply Prog.wp_bind
  apply Prog.wp_gets
  apply Prog.wp_loop (fun b t => HiReady cmp r v pre post l₀ stack b.1 t ∧
    b.1.remaining t ≤ x.remaining s) (fun b t => b.1.remaining t)
  · rintro ⟨x', minGallop⟩ t ⟨hready, hle⟩
    dsimp only at hle ⊢
    apply Prog.wp_bind
    apply Prog.wp_modify
    have hset : HiReady cmp r v pre post l₀ stack x'
        { t with minGallop := minGallop - if 1 < minGallop then 1 else 0 } :=
      hready.congr rfl rfl rfl rfl
    apply Prog.wp_seq (wp_mergeHiGallopA hr hv hset)
    rintro (_ | ⟨x₁, acount⟩) u hu
    · exact Prog.wp_pure hu
    · obtain ⟨hready₁, hlt₁⟩ := hu
      apply Prog.wp_seq (wp_mergeHiGallopB hr hv hready₁)
      rintro (_ | ⟨x₂, bcount⟩) w hw
      · exact Prog.wp_pure hw
      · obtain ⟨hready₂, hlt₂⟩ := hw
        have hlt : x₂.remaining w < x'.remaining t := hlt₂.trans hlt₁
        apply Prog.wp_ite
        · intro _
          exact Prog.wp_pure ⟨hready₂, hlt.trans_le hle⟩
        · intro _
          exact Prog.wp_pure ⟨⟨hready₂, (hlt.trans_le hle).le⟩, hlt⟩
  · exact Nat.lt_succ_self _
  · exact ⟨h, le_refl _⟩

theorem wp_mergeHiLoop (hr : StrictWeak r) (hv : ∀ y ∈ l₀, y ∈ v) {minGallop : ℕ}
    (h : HiReady cmp r v pre post l₀ stack x s) :
    Prog.wp (mergeHiLoop cmp minGallop x) (fun _ => HiDone cmp r v pre post l₀ stack)
      (HiLost cmp r v pre post l₀ stack) s := by
  unfold mergeHiLoop
  apply Prog.wp_bind
  apply Prog.wp_gets
  apply Prog.wp_loop (fun b t => HiReady cmp r v pre post l₀ stack b.1 t)
    (fun b t => b.1.remaining t)
  · rintro ⟨x', minGallop⟩ t hready
    apply Prog.wp_seq (wp_mergeHiSteps hr hv hready)
    rintro (_ | x₁) u hu
    · exact Prog.wp_pure hu
    · apply Prog.wp_seq (wp_mergeHiGallop hr hv hu.1)
      rintro (_ | ⟨x₂, minGallop'⟩) w hw
      · exact Prog.wp_pure hw
      · apply Prog.wp_bind
        apply Prog.wp_modify
        exact Prog.wp_pure ⟨hw.1.congr rfl rfl rfl rfl, hw.2.trans hu.2⟩
  · exact Nat.lt_succ_self _
  · exact h

theorem wp_mergeHiBody (hr : StrictWeak r) (hv : ∀ y ∈ l₀, y ∈ v)
    (h : HiAt cmp r v pre post l₀ stack s a b out) (hx : x.Agrees pre a) (ha : 1 ≤ a.length)
    (hb : 1 ≤ b.length) (hlast : Honest cmp r v → ∀ y ∈ a.getLast?, ∀ z ∈ b, r z y) :
    Prog.wp (mergeHiBody cmp x) (fun _ => HiDone cmp r v pre post l₀ stack)
      (HiLost cmp r v pre post l₀ stack) s := by
  obtain ⟨a, y, rfl⟩ := exists_concat ha
  unfold mergeHiBody
  apply Prog.wp_bind
  apply wp_hiTakeA hr h hx rfl
  · intro honest y' hy' z hz
    obtain rfl := List.mem_singleton.mp hy'
    exact hlast honest y' (by simp) z hz
  · intro x' t ht hxt
    have hlen := ht.len
    apply Prog.wp_ite
    · intro hzero
      rw [hxt.na_eq] at hzero
      obtain rfl := List.length_eq_zero_iff.mp hzero
      exact Prog.wp_pure ht.done_of_a
    · intro hpos
      rw [hxt.na_eq] at hpos
      apply Prog.wp_bind
      apply Prog.wp_gets
      apply Prog.wp_ite
      · intro hone
        obtain ⟨w, rfl⟩ := List.length_eq_one_iff.mp (hlen.symm.trans hone)
        apply Prog.wp_bind
        apply wp_hiTakeRest hr ht hxt
        intro _ u hu
        exact Prog.wp_pure hu
      · intro hmany
        apply Prog.wp_bind
        apply Prog.wp_gets
        exact wp_mergeHiLoop hr hv ⟨_, _, _, ht, hxt, by omega, by omega⟩

theorem HiAt.drop (h : HiAt cmp r v pre post l₀ stack s a b out) :
    dropHole s = .ok { s with list := pre ++ ((a ++ (b ++ out)) ++ post) } := by
  obtain ⟨gap, hgap, hlist⟩ := h.list
  obtain ⟨gone, htmp⟩ := h.tmp
  rw [dropHole_ok (l := pre ++ a) (g := gap) (m := out ++ post) (t := []) (b := b)
    (u := gone) (by simpa using hlist) htmp hgap h.src _ h.len]
  · simp
  · simpa using h.dest

theorem wp_mergeHi (hr : StrictWeak r) {sa na nb : ℕ} {Q : Unit → MergeState T σ → Prop}
    (hs : s.list = pre ++ ((a ++ b) ++ post)) (hv : ∀ y ∈ a ++ b, y ∈ v)
    (hsa : sa = pre.length) (hna : na = a.length) (hnb : nb = b.length) (ha : a ≠ []) (hb : b ≠ [])
    (hasc : Honest cmp r v → Ascending r a ∧ Ascending r b)
    (hfirst : Honest cmp r v → ∀ z ∈ b.head?, ∀ y ∈ a, r z y)
    (hlast : Honest cmp r v → ∀ y ∈ a.getLast?, ∀ z ∈ b, r z y)
    (hR : ¬ Honest cmp r v → ∀ e M t, M.Perm (a ++ b) → t.list = pre ++ (M ++ post) → R e t)
    (hQ : ∀ M t, Rearranged (Honest cmp r v) r (a ++ b) M → (Honest cmp r v → Ascending r M) →
      t.list = pre ++ (M ++ post) → t.pending = s.pending → Q () t) :
    Prog.wp (mergeHi cmp sa na nb) Q R s := by
  unfold mergeHi
  apply Prog.wp_bind
  apply Prog.wp_modify
  apply Prog.wp_bind
  apply wp_park (l := pre ++ a) (b := b) (m := post)
  · split_ifs <;> simpa using hs
  · rw [List.length_append]
    omega
  · exact hnb
  · split_ifs with hcap
    · exact le_refl nb
    · omega
  · apply Prog.wp_bind
    apply Prog.wp_modify
    have hat : HiAt cmp r v pre post (a ++ b) s.pending
        { (if s.capacity < nb then { s with capacity := nb, tmp := [] } else s) with
          tmp := b, hole := ⟨0, sa + na, nb⟩ } a b [] := by
      refine ⟨⟨b, rfl, ?_⟩, ⟨[], by simp⟩, rfl, ?_, hnb, ?_, by simpa using Rearranged.refl _, ?_,
        hfirst⟩
      · split_ifs <;> simpa using hs
      · dsimp only
        omega
      · split_ifs <;> rfl
      · exact fun honest => ⟨by simpa using (hasc honest).1, by simpa using (hasc honest).2⟩
    apply Prog.wp_finally (wp_mergeHiBody hr hv hat ⟨hsa, hna⟩ (List.length_pos_iff.mpr ha)
      (List.length_pos_iff.mpr hb) hlast)
    · rintro ⟨⟩ t ⟨a', b', out, h, hsorted⟩
      exact ⟨_, h.drop, hQ _ _ h.rearranged hsorted rfl h.pending⟩
    · rintro e t ⟨hdis, a', b', out, h⟩
      exact ⟨_, h.drop, hR hdis e _ _ h.rearranged.perm.symm rfl⟩

end Rules

end WeavePy.Timsort
