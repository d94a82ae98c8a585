import WeavePy.Timsort.Gallop

/-!
The merge of two adjacent runs from the left, with the first run parked in scratch.
-/

namespace WeavePy.Timsort

variable {T σ E : Type}

/-- Once a merge is galloping, it stays there until both runs win fewer than this many consecutive
times. -/
def minGallopDefault : ℕ := 7

def getHole : Sorter T σ E Hole := Prog.gets fun s => s.hole

def setMinGallop (n : ℕ) : Sorter T σ E Unit := Prog.modify fun s => { s with minGallop := n }

/-- The local variables of `merge_lo`, beside its hole. -/
structure Lo where
  dest : ℕ
  b : ℕ
  nb : ℕ

def Lo.takeB (x : Lo) (k : ℕ) : Sorter T σ E Lo := do
  copy x.b x.dest k
  let nb ← sub x.nb k
  let hole ← getHole
  setHole { hole with dest := x.dest + k }
  return ⟨x.dest + k, x.b + k, nb⟩

def Lo.takeA (x : Lo) (k : ℕ) : Sorter T σ E Lo := do
  let hole ← getHole
  unpark hole.src x.dest k
  let len ← sub hole.len k
  setHole ⟨hole.src + k, x.dest + k, len⟩
  return { x with dest := x.dest + k }

/-- The rest of the second run goes before the last element of the first. -/
def Lo.finish (x : Lo) : Sorter T σ E (Option β) := do
  let _ ← x.takeB x.nb
  return none

variable (cmp : σ → T → T → Except E Bool × σ)

/-- One element at a time, until one run keeps winning; `none` when the merge is over. -/
def mergeLoSteps (minGallop : ℕ) (x : Lo) : Sorter T σ E (Option Lo) := do
  let hole ← getHole
  loop (hole.len + x.nb + 1) (fun ⟨x, acount, bcount⟩ => do
    let hole ← getHole
    if ← lt cmp (.list x.b) (.tmp hole.src) then do
      let x ← x.takeB 1
      if x.nb = 0 then return .done none
      else if minGallop ≤ bcount + 1 then return .done (some x)
      else return .next (x, 0, bcount + 1)
    else do
      let x ← x.takeA 1
      let hole ← getHole
      if hole.len = 1 then do
        let ended ← x.finish
        return .done ended
      else if minGallop ≤ acount + 1 then return .done (some x)
      else return .next (x, acount + 1, 0)) (x, 0, 0)

def Lo.gallopA (x : Lo) (k : ℕ) : Sorter T σ E (Option Lo) :=
  if 0 < k then do
    let x ← x.takeA k
    let hole ← getHole
    if hole.len = 1 then x.finish
    -- Impossible for a consistent comparison, but possible.
    else if hole.len = 0 then return none
    else return some x
  else return some x

def Lo.gallopB (x : Lo) (k : ℕ) : Sorter T σ E (Option Lo) :=
  if 0 < k then do
    let x ← x.takeB k
    if x.nb = 0 then return none
    else return some x
  else return some x

def mergeLoGallopA (x : Lo) : Sorter T σ E (Option (Lo × ℕ)) := do
  let hole ← getHole
  let acount ← gallopRight cmp (.list x.b) (.tmp hole.src) hole.len 0
  match ← x.gallopA acount with
  | none => return none
  | some x => do
    let x ← x.takeB 1
    if x.nb = 0 then return none
    else return some (x, acount)

def mergeLoGallopB (x : Lo) : Sorter T σ E (Option (Lo × ℕ)) := do
  let hole ← getHole
  let bcount ← gallopLeft cmp (.tmp hole.src) (.list x.b) x.nb 0
  match ← x.gallopB bcount with
  | none => return none
  | some x => do
    let x ← x.takeA 1
    let hole ← getHole
    if hole.len = 1 then x.finish
    else return some (x, bcount)

/-- Gallop until neither run is winning consistently. -/
def mergeLoGallop (minGallop : ℕ) (x : Lo) : Sorter T σ E (Option (Lo × ℕ)) := do
  let hole ← getHole
  loop (hole.len + x.nb + 1) (fun ⟨x, minGallop⟩ => do
    let minGallop := minGallop - if 1 < minGallop then 1 else 0
    setMinGallop minGallop
    match ← mergeLoGallopA cmp x with
    | none => return .done none
    | some (x, acount) =>
      match ← mergeLoGallopB cmp x with
      | none => return .done none
      | some (x, bcount) =>
        if acount < minGallopDefault ∧ bcount < minGallopDefault then
          return .done (some (x, minGallop))
        else return .next (x, minGallop)) (x, minGallop)

def mergeLoLoop (minGallop : ℕ) (x : Lo) : Sorter T σ E Unit := do
  let hole ← getHole
  loop (hole.len + x.nb + 1) (fun ⟨x, minGallop⟩ => do
    match ← mergeLoSteps cmp minGallop x with
    | none => return .done ()
    | some x =>
      match ← mergeLoGallop cmp (minGallop + 1) x with
      | none => return .done ()
      | some (x, minGallop) =>
        -- Penalize leaving galloping mode.
        setMinGallop (minGallop + 1)
        return .next (x, minGallop + 1)) (x, minGallop)

def mergeLoBody (x : Lo) : Sorter T σ E Unit := do
  let x ← x.takeB 1
  if x.nb = 0 then return ()
  else do
    let hole ← getHole
    if hole.len = 1 then do
      let _ ← x.takeB x.nb
    else do
      let minGallop ← Prog.gets fun s => s.minGallop
      mergeLoLoop cmp minGallop x

/-- Merges `sa..sa + na` and `sa + na..sa + na + nb`; the hole drops however the merge ends. -/
def mergeLo (sa na nb : ℕ) : Sorter T σ E Unit := do
  scratch na
  park sa na
  setHole ⟨0, sa, na⟩
  Prog.finally_ (mergeLoBody cmp ⟨sa, sa + na, nb⟩) dropHole

/-- The merged `out`, the parked rest `a` of the first run and the rest `b` of the second make up
the two runs `l₀`, with a gap in the list where `a` belongs. -/
structure LoAt (r : T → T → Prop) (v pre post l₀ : List T) (stack : List Run) (s : MergeState T σ)
    (out a b : List T) : Prop where
  list : ∃ gap, gap.length = a.length ∧ s.list = pre ++ (out ++ (gap ++ (b ++ post)))
  tmp : ∃ gone, s.tmp = gone ++ a ∧ s.hole.src = gone.length
  dest : s.hole.dest = pre.length + out.length
  len : s.hole.len = a.length
  pending : s.pending = stack
  rearranged : Rearranged (Honest cmp r v) r l₀ (out ++ (a ++ b))
  merging : Honest cmp r v → MergingUp r out a b
  last : Honest cmp r v → ∀ x ∈ a.getLast?, ∀ y ∈ b, r y x

structure Lo.Agrees (x : Lo) (pre out a b : List T) : Prop where
  dest_eq : x.dest = pre.length + out.length
  b_eq : x.b = pre.length + out.length + a.length
  nb_eq : x.nb = b.length

def LoDone (r : T → T → Prop) (v pre post l₀ : List T) (stack : List Run) (s : MergeState T σ) :
    Prop :=
  ∃ out a b, LoAt cmp r v pre post l₀ stack s out a b ∧
    (Honest cmp r v → Ascending r (out ++ (a ++ b)))

def LoLost (r : T → T → Prop) (v pre post l₀ : List T) (stack : List Run) (_ : E)
    (s : MergeState T σ) : Prop :=
  ¬ Honest cmp r v ∧ ∃ out a b, LoAt cmp r v pre post l₀ stack s out a b

def LoReady (r : T → T → Prop) (v pre post l₀ : List T) (stack : List Run) (x : Lo)
    (s : MergeState T σ) : Prop :=
  ∃ out a b, LoAt cmp r v pre post l₀ stack s out a b ∧ x.Agrees pre out a b ∧ 2 ≤ a.length ∧
    1 ≤ b.length

section Rules

variable {cmp : σ → T → T → Except E Bool × σ} {r : T → T → Prop} {v pre post l₀ : List T}
  {stack : List Run} {s t : MergeState T σ} {x : Lo} {out a a₁ a₂ b b₁ b₂ : List T} {k : ℕ}
  {R : E → MergeState T σ → Prop}

theorem LoAt.congr (h : LoAt cmp r v pre post l₀ stack s out a b) (hlist : t.list = s.list)
    (htmp : t.tmp = s.tmp) (hhole : t.hole = s.hole) (hpending : t.pending = s.pending) :
    LoAt cmp r v pre post l₀ stack t out a b where
  list := by rw [hlist]; exact h.list
  tmp := by rw [htmp, hhole]; exact h.tmp
  dest := by rw [hhole]; exact h.dest
  len := by rw [hhole]; exact h.len
  pending := by rw [hpending]; exact h.pending
  rearranged := h.rearranged
  merging := h.merging
  last := h.last

theorem wp_takeB (hr : StrictWeak r) {Q : Lo → MergeState T σ → Prop}
    (h : LoAt cmp r v pre post l₀ stack s out a (b₁ ++ b₂)) (hx : x.Agrees pre out a (b₁ ++ b₂))
    (hk : k = b₁.length) (hlt : Honest cmp r v → ∀ y ∈ a, ∀ z ∈ b₁, r z y)
    (hQ : ∀ x t, LoAt cmp r v pre post l₀ stack t (out ++ b₁) a b₂ →
      x.Agrees pre (out ++ b₁) a b₂ → Q x t) : Prog.wp (x.takeB k) Q R s := by
  obtain ⟨gap, hgap, hlist⟩ := h.list
  have hnb : x.nb = b₁.length + b₂.length := by rw [hx.nb_eq, List.length_append]
  unfold Lo.takeB
  apply Prog.wp_bind
  apply wp_copy_down (l := pre ++ out) (g := gap) (b := b₁) (m := b₂ ++ post)
  · simpa using hlist
  · rw [List.length_append, hx.b_eq, hgap]
  · rw [List.length_append, hx.dest_eq]
  · exact hk
  · intro gap' hgap'
    apply Prog.wp_bind
    apply wp_sub (by omega)
    apply Prog.wp_bind
    apply Prog.wp_gets
    apply Prog.wp_bind
    apply Prog.wp_modify
    apply Prog.wp_pure
    apply hQ
    · refine ⟨⟨gap', hgap'.trans hgap, by simp⟩, h.tmp, ?_, h.len, h.pending, ?_, ?_, ?_⟩
      · simp only [List.length_append]
        rw [hx.dest_eq, hk]
        omega
      · have hswap : Rearranged (Honest cmp r v) r (a ++ b₁) (b₁ ++ a) := Rearranged.swap hr hlt
        have := h.rearranged.trans (by simpa using hswap.inside out b₂)
        simpa using this
      · exact fun honest => (h.merging honest).takeSecond hr (hlt honest)
      · exact fun honest y hy z hz => h.last honest y hy z (List.mem_append_right _ hz)
    · constructor
      · dsimp only
        rw [hx.dest_eq, List.length_append, hk]
        omega
      · dsimp only
        rw [hx.b_eq, List.length_append, hk]
        omega
      · dsimp only
        omega

theorem wp_takeA {Q : Lo → MergeState T σ → Prop}
    (h : LoAt cmp r v pre post l₀ stack s out (a₁ ++ a₂) b) (hx : x.Agrees pre out (a₁ ++ a₂) b)
    (hk : k = a₁.length) (hle : Honest cmp r v → ∀ y ∈ a₁, ∀ z ∈ b, ¬ r z y)
    (hQ : ∀ x t, LoAt cmp r v pre post l₀ stack t (out ++ a₁) a₂ b →
      x.Agrees pre (out ++ a₁) a₂ b → Q x t) : Prog.wp (x.takeA k) Q R s := by
  obtain ⟨gap, hgap, hlist⟩ := h.list
  obtain ⟨gone, htmp, hsrc⟩ := h.tmp
  have hlen : s.hole.len = a₁.length + a₂.length := by rw [h.len, List.length_append]
  obtain ⟨g₁, g₂, rfl, hg₁, hg₂⟩ : ∃ g₁ g₂, gap = g₁ ++ g₂ ∧ g₁.length = a₁.length ∧
      g₂.length = a₂.length :=
    ⟨gap.take a₁.length, gap.drop a₁.length, by simp, by simp [hgap], by simp [hgap]⟩
  unfold Lo.takeA
  apply Prog.wp_bind
  apply Prog.wp_gets
  apply Prog.wp_bind
  apply wp_unpark (l := pre ++ out) (g := g₁) (m := g₂ ++ (b ++ post)) (b := a₁) (u := a₂)
  · simpa using hlist
  · exact htmp
  · exact hg₁
  · exact hsrc
  · rw [List.length_append, hx.dest_eq]
  · exact hk
  · apply Prog.wp_bind
    apply wp_sub (by omega)
    apply Prog.wp_bind
    apply Prog.wp_modify
    apply Prog.wp_pure
    apply hQ
    · refine ⟨⟨g₂, hg₂, by simp⟩, ⟨gone ++ a₁, by simp [htmp], ?_⟩, ?_, ?_, h.pending, ?_, ?_, ?_⟩
      · simp [hsrc, hk]
      · simp only [List.length_append]
        rw [hx.dest_eq, hk]
        omega
      · dsimp only
        omega
      · simpa using h.rearranged
      · exact fun honest => (h.merging honest).takeFirst (hle honest)
      · intro honest y hy z hz
        apply h.last honest y _ z hz
        rw [List.getLast?_append, Option.mem_def.mp hy]
        rfl
    · constructor
      · dsimp only
        rw [hx.dest_eq, List.length_append, hk]
        omega
      · dsimp only
        rw [hx.b_eq, List.length_append, List.length_append]
        omega
      · exact hx.nb_eq

theorem wp_takeB_one (hr : StrictWeak r) {Q : Lo → MergeState T σ → Prop} {z : T}
    (h : LoAt cmp r v pre post l₀ stack s out a (z :: b)) (hx : x.Agrees pre out a (z :: b))
    (hlt : Honest cmp r v → ∀ y ∈ a, r z y)
    (hQ : ∀ x t, LoAt cmp r v pre post l₀ stack t (out ++ [z]) a b →
      x.Agrees pre (out ++ [z]) a b → Q x t) : Prog.wp (x.takeB 1) Q R s := by
  rw [← List.singleton_append] at h hx
  apply wp_takeB hr h hx rfl _ hQ
  intro honest y hy z' hz
  obtain rfl := List.mem_singleton.mp hz
  exact hlt honest y hy

theorem wp_takeA_one {Q : Lo → MergeState T σ → Prop} {y : T}
    (h : LoAt cmp r v pre post l₀ stack s out (y :: a) b) (hx : x.Agrees pre out (y :: a) b)
    (hle : Honest cmp r v → ∀ z ∈ b, ¬ r z y)
    (hQ : ∀ x t, LoAt cmp r v pre post l₀ stack t (out ++ [y]) a b →
      x.Agrees pre (out ++ [y]) a b → Q x t) : Prog.wp (x.takeA 1) Q R s := by
  rw [← List.singleton_append] at h hx
  apply wp_takeA h hx rfl _ hQ
  intro honest y' hy z hz
  obtain rfl := List.mem_singleton.mp hy
  exact hle honest z hz

theorem LoAt.mem (h : LoAt cmp r v pre post l₀ stack s out a b) (hv : ∀ y ∈ l₀, y ∈ v) :
    (∀ y ∈ a, y ∈ v) ∧ ∀ y ∈ b, y ∈ v := by
  constructor
  · intro y hy
    exact hv y (h.rearranged.perm.mem_iff.mpr (by simp [hy]))
  · intro y hy
    exact hv y (h.rearranged.perm.mem_iff.mpr (by simp [hy]))

theorem LoAt.holds_a (h : LoAt cmp r v pre post l₀ stack s out a b) (hv : ∀ y ∈ l₀, y ∈ v) :
    Holds s (.tmp s.hole.src) v a := by
  obtain ⟨gone, htmp, hsrc⟩ := h.tmp
  refine ⟨fun i hi => ?_, (h.mem hv).1⟩
  simp only [deref, Ptr.add, htmp, hsrc]
  rw [List.getElem?_append_right (by omega), Nat.add_sub_cancel_left, List.getElem?_eq_getElem hi]

theorem LoAt.holds_b (h : LoAt cmp r v pre post l₀ stack s out a b) (hv : ∀ y ∈ l₀, y ∈ v)
    (hx : x.Agrees pre out a b) : Holds s (.list x.b) v b := by
  obtain ⟨gap, hgap, hlist⟩ := h.list
  apply holds_list (l := pre ++ (out ++ gap)) (m := post) (by simpa using hlist) _ (h.mem hv).2
  simp only [List.length_append, hgap, hx.b_eq, Nat.add_assoc]

/-- What is left of a single first run goes last. -/
theorem wp_takeRest (hr : StrictWeak r) {Q : Lo → MergeState T σ → Prop} {y : T}
    (h : LoAt cmp r v pre post l₀ stack s out [y] b) (hx : x.Agrees pre out [y] b)
    (hQ : ∀ x t, LoDone cmp r v pre post l₀ stack t → Q x t) :
    Prog.wp (x.takeB x.nb) Q R s := by
  have hnb := hx.nb_eq
  rw [← List.append_nil b] at h hx
  apply wp_takeB hr h hx hnb
  · intro honest y' hy' z hz
    obtain rfl := List.mem_singleton.mp hy'
    exact h.last honest y' (by simp) z (List.mem_append_left [] hz)
  · intro x' t h' _
    apply hQ
    refine ⟨_, _, _, h', fun honest => ?_⟩
    simpa using (h'.merging honest).first

theorem wp_finish (hr : StrictWeak r) {Q : Option β → MergeState T σ → Prop} {y : T}
    (h : LoAt cmp r v pre post l₀ stack s out [y] b) (hx : x.Agrees pre out [y] b)
    (hQ : ∀ t, LoDone cmp r v pre post l₀ stack t → Q none t) : Prog.wp (x.finish) Q R s := by
  unfold Lo.finish
  apply Prog.wp_bind
  apply wp_takeRest hr h hx
  intro _ t ht
  exact Prog.wp_pure (hQ t ht)

theorem LoAt.done_of_b (h : LoAt cmp r v pre post l₀ stack s out a []) :
    LoDone cmp r v pre post l₀ stack s :=
  ⟨out, a, [], h, fun honest => by simpa using (h.merging honest).first⟩

theorem LoAt.done_of_a (h : LoAt cmp r v pre post l₀ stack s out [] b) :
    LoDone cmp r v pre post l₀ stack s :=
  ⟨out, [], b, h, fun honest => by simpa using (h.merging honest).second⟩

/-- The number of elements a merge still has to place. -/
def Lo.remaining (x : Lo) (s : MergeState T σ) : ℕ := s.hole.len + x.nb

def LoResult (r : T → T → Prop) (v pre post l₀ : List T) (stack : List Run)
    (cmp : σ → T → T → Except E Bool × σ) (n : ℕ) (result : Option Lo) (t : MergeState T σ) :
    Prop :=
  match result with
  | none => LoDone cmp r v pre post l₀ stack t
  | some x => LoReady cmp r v pre post l₀ stack x t ∧ x.remaining t < n

theorem LoAt.remaining_eq (h : LoAt cmp r v pre post l₀ stack s out a b)
    (hx : x.Agrees pre out a b) : x.remaining s = a.length + b.length := by
  unfold Lo.remaining
  rw [h.len, hx.nb_eq]

theorem deref_src {y : T} (h : LoAt cmp r v pre post l₀ stack s out (y :: a) b)
    (hv : ∀ y ∈ l₀, y ∈ v) : deref s.list s.tmp (.tmp s.hole.src) = some y :=
  (h.holds_a hv).deref 0 (by simp)

theorem deref_b {z : T} (h : LoAt cmp r v pre post l₀ stack s out a (z :: b))
    (hv : ∀ y ∈ l₀, y ∈ v) (hx : x.Agrees pre out a (z :: b)) :
    deref s.list s.tmp (.list x.b) = some z :=
  (h.holds_b hv hx).deref 0 (by simp)

theorem wp_mergeLoSteps (hr : StrictWeak r) (hv : ∀ y ∈ l₀, y ∈ v) {minGallop : ℕ}
    (h : LoReady cmp r v pre post l₀ stack x s) :
    Prog.wp (mergeLoSteps cmp minGallop x)
      (LoResult r v pre post l₀ stack cmp (x.remaining s))
      (LoLost cmp r v pre post l₀ stack) s := by
  unfold mergeLoSteps
  apply Prog.wp_bind
  apply Prog.wp_gets
  apply Prog.wp_loop (fun b t => LoReady cmp r v pre post l₀ stack b.1 t ∧
    b.1.remaining t ≤ x.remaining s) (fun b t => b.1.remaining t)
  · rintro ⟨x', acount, bcount⟩ t ⟨⟨out, a, b, h, hx, ha, hb⟩, hle⟩
    dsimp only at hx hle ⊢
    obtain ⟨y, a, rfl⟩ := List.exists_cons_of_ne_nil (List.length_pos_iff.mp (by omega : 0 < a.length))
    obtain ⟨z, b, rfl⟩ := List.exists_cons_of_ne_nil (List.length_pos_iff.mp hb)
    have hrem := h.remaining_eq hx
    have hmem := h.mem hv
    apply Prog.wp_bind
    apply Prog.wp_gets
    apply Prog.wp_bind
    apply wp_lt (deref_b h hv hx) (deref_src h hv) (hmem.2 z (by simp)) (hmem.1 y (by simp))
    · intro hdis e c
      exact ⟨hdis, out, y :: a, z :: b, h.congr rfl rfl rfl rfl⟩
    · intro less c hless
      have hc : LoAt cmp r v pre post l₀ stack { t with calls := c } out (y :: a) (z :: b) :=
        h.congr rfl rfl rfl rfl
      apply Prog.wp_ite
      · intro htrue
        apply Prog.wp_bind
        apply wp_takeB_one hr hc hx
        · intro honest y' hy'
          exact hr.lt_of_lt_of_le ((hless honest).mp htrue)
            ((h.merging honest).ascending_first.head_le hr hy')
        · intro x'' u hu hxu
          have hremu := hu.remaining_eq hxu
          simp only [List.length_cons] at hrem hremu
          apply Prog.wp_ite
          · intro hzero
            rw [hxu.nb_eq] at hzero
            obtain rfl := List.length_eq_zero_iff.mp hzero
            exact Prog.wp_pure hu.done_of_b
          · intro hpos
            have hready : LoReady cmp r v pre post l₀ stack x'' u :=
              ⟨_, _, _, hu, hxu, ha, by rw [hxu.nb_eq] at hpos; omega⟩
            apply Prog.wp_ite
            · intro _
              exact Prog.wp_pure ⟨hready, by omega⟩
            · intro _
              exact Prog.wp_pure ⟨⟨hready, by dsimp only; omega⟩, by dsimp only; omega⟩
      · intro hfalse
        apply Prog.wp_bind
        apply wp_takeA_one hc hx
        · intro honest z' hz'
          have hzy : ¬ r z y := fun h => hfalse ((hless honest).mpr h)
          exact hr.le_trans hzy ((h.merging honest).ascending_second.head_le hr hz')
        · intro x'' u hu hxu
          have hremu := hu.remaining_eq hxu
          simp only [List.length_cons] at hrem hremu ha
          apply Prog.wp_bind
          apply Prog.wp_gets
          apply Prog.wp_ite
          · intro hone
            rw [hu.len] at hone
            obtain ⟨w, rfl⟩ := List.length_eq_one_iff.mp hone
            apply Prog.wp_bind
            apply wp_finish hr hu hxu
            intro u' hu'
            exact Prog.wp_pure hu'
          · intro hmany
            rw [hu.len] at hmany
            have hready : LoReady cmp r v pre post l₀ stack x'' u :=
              ⟨_, _, _, hu, hxu, by omega, hb⟩
            apply Prog.wp_ite
            · intro _
              exact Prog.wp_pure ⟨hready, by omega⟩
            · intro _
              exact Prog.wp_pure ⟨⟨hready, by dsimp only; omega⟩, by dsimp only; omega⟩
  · exact Nat.lt_succ_self _
  · exact ⟨h, le_refl _⟩

theorem wp_gallopA (hr : StrictWeak r) {Q : Option Lo → MergeState T σ → Prop}
    (h : LoAt cmp r v pre post l₀ stack s out (a₁ ++ a₂) b) (hx : x.Agrees pre out (a₁ ++ a₂) b)
    (hk : k = a₁.length) (hle : Honest cmp r v → ∀ y ∈ a₁, ∀ z ∈ b, ¬ r z y)
    (ha : 2 ≤ (a₁ ++ a₂).length) (hdone : ∀ t, LoDone cmp r v pre post l₀ stack t → Q none t)
    (hQ : ∀ x t, LoAt cmp r v pre post l₀ stack t (out ++ a₁) a₂ b →
      x.Agrees pre (out ++ a₁) a₂ b → 2 ≤ a₂.length → Q (some x) t) :
    Prog.wp (x.gallopA k) Q R s := by
  unfold Lo.gallopA
  apply Prog.wp_ite
  · intro _
    apply Prog.wp_bind
    apply wp_takeA h hx hk hle
    intro x' t ht hxt
    apply Prog.wp_bind
    apply Prog.wp_gets
    have hlen := ht.len
    apply Prog.wp_ite
    · intro hone
      obtain ⟨w, rfl⟩ := List.length_eq_one_iff.mp (hlen.symm.trans hone)
      exact wp_finish hr ht hxt hdone
    · intro hmany
      apply Prog.wp_ite
      · intro hzero
        obtain rfl := List.length_eq_zero_iff.mp (hlen.symm.trans hzero)
        exact Prog.wp_pure (hdone t ht.done_of_a)
      · intro hpos
        exact Prog.wp_pure (hQ x' t ht hxt (by omega))
  · intro hzero
    obtain rfl : a₁ = [] := List.length_eq_zero_iff.mp (by omega)
    exact Prog.wp_pure (hQ x s (by simpa using h) (by simpa using hx) ha)

theorem wp_gallopB (hr : StrictWeak r) {Q : Option Lo → MergeState T σ → Prop}
    (h : LoAt cmp r v pre post l₀ stack s out a (b₁ ++ b₂)) (hx : x.Agrees pre out a (b₁ ++ b₂))
    (hk : k = b₁.length) (hlt : Honest cmp r v → ∀ y ∈ a, ∀ z ∈ b₁, r z y)
    (hb : 1 ≤ (b₁ ++ b₂).length) (hdone : ∀ t, LoDone cmp r v pre post l₀ stack t → Q none t)
    (hQ : ∀ x t, LoAt cmp r v pre post l₀ stack t (out ++ b₁) a b₂ →
      x.Agrees pre (out ++ b₁) a b₂ → 1 ≤ b₂.length → Q (some x) t) :
    Prog.wp (x.gallopB k) Q R s := by
  unfold Lo.gallopB
  apply Prog.wp_ite
  · intro _
    apply Prog.wp_bind
    apply wp_takeB hr h hx hk hlt
    intro x' t ht hxt
    apply Prog.wp_ite
    · intro hzero
      rw [hxt.nb_eq] at hzero
      obtain rfl := List.length_eq_zero_iff.mp hzero
      exact Prog.wp_pure (hdone t ht.done_of_b)
    · intro hpos
      rw [hxt.nb_eq] at hpos
      exact Prog.wp_pure (hQ x' t ht hxt (by omega))
  · intro hzero
    obtain rfl : b₁ = [] := List.length_eq_zero_iff.mp (by omega)
    exact Prog.wp_pure (hQ x s (by simpa using h) (by simpa using hx) hb)

def LoGalloped (r : T → T → Prop) (v pre post l₀ : List T) (stack : List Run)
    (cmp : σ → T → T → Except E Bool × σ) (n : ℕ) (result : Option (Lo × ℕ))
    (t : MergeState T σ) : Prop :=
  LoResult r v pre post l₀ stack cmp n (result.map Prod.fst) t

theorem wp_mergeLoGallopA (hr : StrictWeak r) (hv : ∀ y ∈ l₀, y ∈ v)
    (h : LoReady cmp r v pre post l₀ stack x s) :
    Prog.wp (mergeLoGallopA cmp x) (LoGalloped r v pre post l₀ stack cmp (x.remaining s))
      (LoLost cmp r v pre post l₀ stack) s := by
  obtain ⟨out, a, b, h, hx, ha, hb⟩ := h
  obtain ⟨z, b, rfl⟩ := List.exists_cons_of_ne_nil (List.length_pos_iff.mp hb)
  have hrem := h.remaining_eq hx
  have hmem := h.mem hv
  unfold mergeLoGallopA
  apply Prog.wp_bind
  apply Prog.wp_gets
  apply Prog.wp_bind
  apply wp_gallopRight hr (deref_b h hv hx) (hmem.2 z (by simp)) (h.holds_a hv) h.len
    (by rw [h.len]; omega) fun honest => (h.merging honest).ascending_first
  · intro hdis e c
    exact ⟨hdis, out, a, z :: b, h.congr rfl rfl rfl rfl⟩
  · rintro a₁ a₂ c rfl hle hlt
    have hc : LoAt cmp r v pre post l₀ stack { s with calls := c } out (a₁ ++ a₂) (z :: b) :=
      h.congr rfl rfl rfl rfl
    apply Prog.wp_bind
    apply wp_gallopA hr hc hx rfl _ ha
    · intro t ht
      exact Prog.wp_pure ht
    · intro x' t ht hxt ha₂
      apply Prog.wp_bind
      apply wp_takeB_one hr ht hxt hlt
      · intro x'' u hu hxu
        have hremu := hu.remaining_eq hxu
        simp only [List.length_cons, List.length_append] at hrem hremu
        apply Prog.wp_ite
        · intro hzero
          rw [hxu.nb_eq] at hzero
          obtain rfl := List.length_eq_zero_iff.mp hzero
          exact Prog.wp_pure hu.done_of_b
        · intro hpos
          rw [hxu.nb_eq] at hpos
          exact Prog.wp_pure ⟨⟨_, _, _, hu, hxu, ha₂, by omega⟩, by dsimp only; omega⟩
    · intro honest y hy z' hz'
      exact hr.le_trans (hle honest y hy) ((h.merging honest).ascending_second.head_le hr hz')

theorem wp_mergeLoGallopB (hr : StrictWeak r) (hv : ∀ y ∈ l₀, y ∈ v)
    (h : LoReady cmp r v pre post l₀ stack x s) :
    Prog.wp (mergeLoGallopB cmp x) (LoGalloped r v pre post l₀ stack cmp (x.remaining s))
      (LoLost cmp r v pre post l₀ stack) s := by
  obtain ⟨out, a, b, h, hx, ha, hb⟩ := h
  obtain ⟨y, a, rfl⟩ := List.exists_cons_of_ne_nil (List.length_pos_iff.mp (by omega : 0 < a.length))
  have hrem := h.remaining_eq hx
  have hmem := h.mem hv
  unfold mergeLoGallopB
  apply Prog.wp_bind
  apply Prog.wp_gets
  apply Prog.wp_bind
  apply wp_gallopLeft hr (deref_src h hv) (hmem.1 y (by simp)) (h.holds_b hv hx) hx.nb_eq
    (by rw [hx.nb_eq]; omega) fun honest => (h.merging honest).ascending_second
  · intro hdis e c
    exact ⟨hdis, out, y :: a, b, h.congr rfl rfl rfl rfl⟩
  · rintro b₁ b₂ c rfl hlt hle
    have hc : LoAt cmp r v pre post l₀ stack { s with calls := c } out (y :: a) (b₁ ++ b₂) :=
      h.congr rfl rfl rfl rfl
    apply Prog.wp_bind
    apply wp_gallopB hr hc hx rfl _ hb
    · intro t ht
      exact Prog.wp_pure ht
    · intro x' t ht hxt hb₂
      apply Prog.wp_bind
      apply wp_takeA_one ht hxt hle
      · intro x'' u hu hxu
        have hremu := hu.remaining_eq hxu
        simp only [List.length_cons, List.length_append] at hrem hremu ha
        apply Prog.wp_bind
        apply Prog.wp_gets
        apply Prog.wp_ite
        · intro hone
          rw [hu.len] at hone
          obtain ⟨w, rfl⟩ := List.length_eq_one_iff.mp hone
          exact wp_finish hr hu hxu fun u' hu' => hu'
        · intro hmany
          rw [hu.len] at hmany
          exact Prog.wp_pure ⟨⟨_, _, _, hu, hxu, by omega, hb₂⟩, by dsimp only; omega⟩
    · intro honest y' hy' z hz
      exact hr.lt_of_lt_of_le (hlt honest z hz) ((h.merging honest).ascending_first.head_le hr hy')

theorem LoReady.congr (h : LoReady cmp r v pre post l₀ stack x s) (hlist : t.list = s.list)
    (htmp : t.tmp = s.tmp) (hhole : t.hole = s.hole) (hpending : t.pending = s.pending) :
    LoReady cmp r v pre post l₀ stack x t := by
  obtain ⟨out, a, b, h, hrest⟩ := h
  exact ⟨out, a, b, h.congr hlist htmp hhole hpending, hrest⟩

theorem wp_mergeLoGallop (hr : StrictWeak r) (hv : ∀ y ∈ l₀, y ∈ v) {minGallop : ℕ}
    (h : LoReady cmp r v pre post l₀ stack x s) :
    Prog.wp (mergeLoGallop cmp minGallop x)
      (LoGalloped r v pre post l₀ stack cmp (x.remaining s))
      (LoLost cmp r v pre post l₀ stack) s := by
  unfold mergeLoGallop
  apply Prog.wp_bind
  apply Prog.wp_gets
  apply Prog.wp_loop (fun b t => LoReady cmp r v pre post l₀ stack b.1 t ∧
    b.1.remaining t ≤ x.remaining s) (fun b t => b.1.remaining t)
  · rintro ⟨x', minGallop⟩ t ⟨hready, hle⟩
    dsimp only at hle ⊢
    apply Prog.wp_bind
    apply Prog.wp_modify
    have hset : LoReady cmp r v pre post l₀ stack x'
        { t with minGallop := minGallop - if 1 < minGallop then 1 else 0 } :=
      hready.congr rfl rfl rfl rfl
    apply Prog.wp_seq (wp_mergeLoGallopA hr hv hset)
    rintro (_ | ⟨x₁, acount⟩) u hu
    · exact Prog.wp_pure hu
    · obtain ⟨hready₁, hlt₁⟩ := hu
      apply Prog.wp_seq (wp_mergeLoGallopB hr hv hready₁)
      rintro (_ | ⟨x₂, bcount⟩) w hw
      · exact Prog.wp_pure hw
      · obtain ⟨hready₂, hlt₂⟩ := hw
        have hlt : x₂.remaining w < x'.remaining t := hlt₂.trans hlt₁
        apply Prog.wp_ite
        · intro _
          exact Prog.wp_pure ⟨hready₂, hlt.trans_le hle⟩
        · intro _
          exact Prog.wp_pure ⟨⟨hready₂, (hlt.trans_le hle).le⟩, hlt⟩
  · exact Nat.lt_succ_self _
  · exact ⟨h, le_refl _⟩

theorem wp_mergeLoLoop (hr : StrictWeak r) (hv : ∀ y ∈ l₀, y ∈ v) {minGallop : ℕ}
    (h : LoReady cmp r v pre post l₀ stack x s) :
    Prog.wp (mergeLoLoop cmp minGallop x) (fun _ => LoDone cmp r v pre post l₀ stack)
      (LoLost cmp r v pre post l₀ stack) s := by
  unfold mergeLoLoop
  apply Prog.wp_bind
  apply Prog.wp_gets
  apply Prog.wp_loop (fun b t => LoReady cmp r v pre post l₀ stack b.1 t)
    (fun b t => b.1.remaining t)
  · rintro ⟨x', minGallop⟩ t hready
    apply Prog.wp_seq (wp_mergeLoSteps hr hv hready)
    rintro (_ | x₁) u hu
    · exact Prog.wp_pure hu
    · apply Prog.wp_seq (wp_mergeLoGallop hr hv hu.1)
      rintro (_ | ⟨x₂, minGallop'⟩) w hw
      · exact Prog.wp_pure hw
      · apply Prog.wp_bind
        apply Prog.wp_modify
        exact Prog.wp_pure ⟨hw.1.congr rfl rfl rfl rfl, hw.2.trans hu.2⟩
  · exact Nat.lt_succ_self _
  · exact h

theorem wp_mergeLoBody (hr : StrictWeak r) (hv : ∀ y ∈ l₀, y ∈ v)
    (h : LoAt cmp r v pre post l₀ stack s out a b) (hx : x.Agrees pre out a b) (ha : 1 ≤ a.length)
    (hb : 1 ≤ b.length) (hfirst : Honest cmp r v → ∀ z ∈ b.head?, ∀ y ∈ a, r z y) :
    Prog.wp (mergeLoBody cmp x) (fun _ => LoDone cmp r v pre post l₀ stack)
      (LoLost cmp r v pre post l₀ stack) s := by
  obtain ⟨z, b, rfl⟩ := List.exists_cons_of_ne_nil (List.length_pos_iff.mp hb)
  unfold mergeLoBody
  apply Prog.wp_bind
  apply wp_takeB_one hr h hx
  · exact fun honest => hfirst honest z (by simp)
  · intro x' t ht hxt
    apply Prog.wp_ite
    · intro hzero
      rw [hxt.nb_eq] at hzero
      obtain rfl := List.length_eq_zero_iff.mp hzero
      exact Prog.wp_pure ht.done_of_b
    · intro hpos
      rw [hxt.nb_eq] at hpos
      apply Prog.wp_bind
      apply Prog.wp_gets
      have hlen := ht.len
      apply Prog.wp_ite
      · intro hone
        obtain ⟨w, rfl⟩ := List.length_eq_one_iff.mp (hlen.symm.trans hone)
        apply Prog.wp_bind
        apply wp_takeRest hr ht hxt
        intro _ u hu
        exact Prog.wp_pure hu
      · intro hmany
        apply Prog.wp_bind
        apply Prog.wp_gets
        exact wp_mergeLoLoop hr hv ⟨_, _, _, ht, hxt, by omega, by omega⟩

theorem LoAt.drop (h : LoAt cmp r v pre post l₀ stack s out a b) :
    dropHole s = .ok { s with list := pre ++ ((out ++ (a ++ b)) ++ post) } := by
  obtain ⟨gap, hgap, hlist⟩ := h.list
  obtain ⟨gone, htmp, hsrc⟩ := h.tmp
  rw [dropHole_ok (l := pre ++ out) (g := gap) (m := b ++ post) (t := gone) (b := a)
    (u := []) (by simpa using hlist) (by simpa using htmp) hgap hsrc _ h.len]
  · simp
  · simpa using h.dest

theorem wp_mergeLo (hr : StrictWeak r) {sa na nb : ℕ} {Q : Unit → MergeState T σ → Prop}
    (hs : s.list = pre ++ ((a ++ b) ++ post)) (hv : ∀ y ∈ a ++ b, y ∈ v)
    (hsa : sa = pre.length) (hna : na = a.length) (hnb : nb = b.length) (ha : a ≠ []) (hb : b ≠ [])
    (hasc : Honest cmp r v → Ascending r a ∧ Ascending r b)
    (hfirst : Honest cmp r v → ∀ z ∈ b.head?, ∀ y ∈ a, r z y)
    (hlast : Honest cmp r v → ∀ y ∈ a.getLast?, ∀ z ∈ b, r z y)
    (hR : ¬ Honest cmp r v → ∀ e M t, M.Perm (a ++ b) → t.list = pre ++ (M ++ post) → R e t)
    (hQ : ∀ M t, Rearranged (Honest cmp r v) r (a ++ b) M → (Honest cmp r v → Ascending r M) →
      t.list = pre ++ (M ++ post) → t.pending = s.pending → Q () t) :
    Prog.wp (mergeLo cmp sa na nb) Q R s := by
  unfold mergeLo
  apply Prog.wp_bind
  apply Prog.wp_modify
  apply Prog.wp_bind
  apply wp_park (l := pre) (b := a) (m := b ++ post)
  · split_ifs <;> simpa using hs
  · exact hsa
  · exact hna
  · split_ifs with hcap
    · exact le_refl na
    · omega
  · apply Prog.wp_bind
    apply Prog.wp_modify
    have hat : LoAt cmp r v pre post (a ++ b) s.pending
        { (if s.capacity < na then { s with capacity := na, tmp := [] } else s) with
          tmp := a, hole := ⟨0, sa, na⟩ } [] a b := by
      refine ⟨⟨a, rfl, ?_⟩, ⟨[], rfl, rfl⟩, ?_, hna, ?_, Rearranged.refl _, ?_, hlast⟩
      · split_ifs <;> simpa using hs
      · simpa using hsa
      · split_ifs <;> rfl
      · exact fun honest => ⟨by simpa using (hasc honest).1, by simpa using (hasc honest).2⟩
    apply Prog.wp_finally (wp_mergeLoBody hr hv hat _ (List.length_pos_iff.mpr ha)
      (List.length_pos_iff.mpr hb) hfirst)
    · rintro ⟨⟩ t ⟨out, a', b', h, hsorted⟩
      exact ⟨_, h.drop, hQ _ _ h.rearranged hsorted rfl h.pending⟩
    · rintro e t ⟨hdis, out, a', b', h⟩
      exact ⟨_, h.drop, hR hdis e _ _ h.rearranged.perm.symm rfl⟩
    · constructor
      · simpa using hsa
      · dsimp only
        rw [hsa, hna]
        simp
      · exact hnb

end Rules

end WeavePy.Timsort
