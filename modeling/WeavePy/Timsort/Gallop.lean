import WeavePy.Timsort.State

/-!
Galloping: the exponential search from a hint and the binary search after it, which find where a
key belongs in a run. They compare and move nothing.
-/

namespace WeavePy.Timsort

variable {T σ E α β : Type}

/-- The exponential search to the right of `hint`; `before i` says that `a[i]` goes before the
key. -/
def gallopUp (before : ℕ → Sorter T σ E Bool) (n hint : ℕ) : Sorter T σ E (ℕ × ℕ) := do
  let maxofs ← sub n hint
  let found ← loop (maxofs + 1) (fun ⟨lastofs, ofs⟩ =>
    if ofs < maxofs then do
      if ← before (hint + ofs) then return .next (ofs, 2 * ofs + 1)
      else return .done (lastofs, ofs)
    else return .done (lastofs, ofs)) (0, 1)
  return (found.1 + (hint + 1), min found.2 maxofs + hint)

def gallopDown (before : ℕ → Sorter T σ E Bool) (hint : ℕ) : Sorter T σ E (ℕ × ℕ) := do
  let maxofs := hint + 1
  let found ← loop (maxofs + 1) (fun ⟨lastofs, ofs⟩ =>
    if ofs < maxofs then do
      let i ← sub hint ofs
      if ← before i then return .done (lastofs, ofs)
      else return .next (ofs, 2 * ofs + 1)
    else return .done (lastofs, ofs)) (0, 1)
  -- `hint - ofs` may be -1; the binary search starts one past it.
  let lo ← sub (hint + 1) (min found.2 maxofs)
  let hi ← sub hint found.1
  return (lo, hi)

def bisect (before : ℕ → Sorter T σ E Bool) (lo hi : ℕ) : Sorter T σ E ℕ :=
  loop (hi - lo + 1) (fun ⟨lastofs, ofs⟩ =>
    if lastofs < ofs then do
      let d ← sub ofs lastofs
      let m := lastofs + d / 2
      if ← before m then return .next (m + 1, ofs)
      else return .next (lastofs, m)
    else return .done ofs) (lo, hi)

def gallopFrom (before : ℕ → Sorter T σ E Bool) (n hint : ℕ) : Sorter T σ E (ℕ × ℕ) := do
  if ← before hint then gallopUp before n hint
  else gallopDown before hint

def gallop (before : ℕ → Sorter T σ E Bool) (n hint : ℕ) : Sorter T σ E ℕ := do
  let found ← gallopFrom before n hint
  bisect before found.1 found.2

variable (cmp : σ → T → T → Except E Bool × σ)

def isBelow (key a : Ptr) (i : ℕ) : Sorter T σ E Bool := lt cmp (a.add i) key

def isNotAbove (key a : Ptr) (i : ℕ) : Sorter T σ E Bool := do
  let b ← lt cmp key (a.add i)
  return !b

/-- The place of `key` in the run `a[..n]`, left of any equal elements. -/
def gallopLeft (key a : Ptr) (n hint : ℕ) : Sorter T σ E ℕ := gallop (isBelow cmp key a) n hint

/-- The place of `key` in the run `a[..n]`, right of any equal elements. -/
def gallopRight (key a : Ptr) (n hint : ℕ) : Sorter T σ E ℕ :=
  gallop (isNotAbove cmp key a) n hint

/-- Every probe below `n` compares only, and answers `p` if the comparisons are to be trusted. -/
def Probes (before : ℕ → Sorter T σ E Bool) (n : ℕ) (good : Prop) (p : ℕ → Prop)
    (s : MergeState T σ) (R : E → MergeState T σ → Prop) : Prop :=
  ∀ i < n, ∀ c Q, (∀ b c', (good → (b = true ↔ p i)) → Q b { s with calls := c' }) →
    Prog.wp (before i) Q R { s with calls := c }

/-- `lo` and `hi` enclose the place where `p` turns false. -/
structure Encloses (good : Prop) (p : ℕ → Prop) (n lo hi : ℕ) : Prop where
  le : lo ≤ hi
  le_length : hi ≤ n
  below : good → ∀ i < lo, p i
  above : good → ∀ i, hi ≤ i → i < n → ¬ p i

section Rules

variable {before : ℕ → Sorter T σ E Bool} {n hint : ℕ} {good : Prop} {p : ℕ → Prop}
  {s : MergeState T σ} {R : E → MergeState T σ → Prop} {c : σ}

theorem wp_gallopUp (hp : Probes before n good p s R) (hhint : hint < n)
    (mono : good → ∀ i j, i ≤ j → j < n → p j → p i) (hstart : good → p hint)
    {Q : ℕ × ℕ → MergeState T σ → Prop}
    (hQ : ∀ lo hi c, Encloses good p n lo hi → Q (lo, hi) { s with calls := c }) :
    Prog.wp (gallopUp before n hint) Q R { s with calls := c } := by
  unfold gallopUp
  apply Prog.wp_bind
  apply wp_sub hhint.le
  apply Prog.wp_seq (Q := fun found t => (∃ c, t = { s with calls := c }) ∧
    found.1 < found.2 ∧ found.1 < n - hint ∧ (good → p (hint + found.1)) ∧
    (good → found.2 < n - hint → ¬ p (hint + found.2)))
  · apply Prog.wp_loop (fun b t => (∃ c, t = { s with calls := c }) ∧
      b.1 < b.2 ∧ b.1 < n - hint ∧ (good → p (hint + b.1))) (fun b _ => n - hint - b.2)
    · rintro ⟨lastofs, ofs⟩ _ ⟨⟨c, rfl⟩, hlt, hmax, hlast⟩
      dsimp only at hlt hmax hlast ⊢
      apply Prog.wp_ite
      · intro hofs
        apply Prog.wp_bind
        apply hp (hint + ofs) (by omega)
        intro b c' hb
        apply Prog.wp_ite
        · intro hbt
          exact Prog.wp_pure ⟨⟨⟨c', rfl⟩, by dsimp only; omega, hofs,
            fun g => (hb g).mp hbt⟩, by dsimp only; omega⟩
        · intro hbf
          exact Prog.wp_pure ⟨⟨c', rfl⟩, hlt, hmax, hlast, fun g _ h => hbf ((hb g).mpr h)⟩
      · intro hofs
        exact Prog.wp_pure ⟨⟨c, rfl⟩, hlt, hmax, hlast, fun _ h => absurd h hofs⟩
    · dsimp only
      omega
    · exact ⟨⟨c, rfl⟩, by simp, by dsimp only; omega, hstart⟩
  · rintro ⟨lastofs, ofs⟩ _ ⟨⟨c, rfl⟩, hlt, hmax, hlast, hfirst⟩
    dsimp only at hlt hmax hlast hfirst ⊢
    apply Prog.wp_pure
    apply hQ
    constructor
    · omega
    · omega
    · intro g i hi
      exact mono g i (hint + lastofs) (by omega) (by omega) (hlast g)
    · intro g i hle hi hpi
      by_cases hofs : ofs < n - hint
      · exact hfirst g hofs (mono g (hint + ofs) i (by omega) hi hpi)
      · omega

theorem wp_gallopDown (hp : Probes before n good p s R) (hhint : hint < n)
    (mono : good → ∀ i j, i ≤ j → j < n → p j → p i) (hstart : good → ¬ p hint)
    {Q : ℕ × ℕ → MergeState T σ → Prop}
    (hQ : ∀ lo hi c, Encloses good p n lo hi → Q (lo, hi) { s with calls := c }) :
    Prog.wp (gallopDown before hint) Q R { s with calls := c } := by
  unfold gallopDown
  apply Prog.wp_seq (Q := fun found t => (∃ c, t = { s with calls := c }) ∧
    found.1 < found.2 ∧ found.1 < hint + 1 ∧ (good → ¬ p (hint - found.1)) ∧
    (good → found.2 < hint + 1 → p (hint - found.2)))
  · apply Prog.wp_loop (fun b t => (∃ c, t = { s with calls := c }) ∧
      b.1 < b.2 ∧ b.1 < hint + 1 ∧ (good → ¬ p (hint - b.1))) (fun b _ => hint + 1 - b.2)
    · rintro ⟨lastofs, ofs⟩ _ ⟨⟨c, rfl⟩, hlt, hmax, hlast⟩
      dsimp only at hlt hmax hlast ⊢
      apply Prog.wp_ite
      · intro hofs
        apply Prog.wp_bind
        apply wp_sub (by omega)
        apply Prog.wp_bind
        apply hp (hint - ofs) (by omega)
        intro b c' hb
        apply Prog.wp_ite
        · intro hbt
          exact Prog.wp_pure ⟨⟨c', rfl⟩, hlt, hmax, hlast, fun g _ => (hb g).mp hbt⟩
        · intro hbf
          exact Prog.wp_pure ⟨⟨⟨c', rfl⟩, by dsimp only; omega, hofs,
            fun g h => hbf ((hb g).mpr h)⟩, by dsimp only; omega⟩
      · intro hofs
        exact Prog.wp_pure ⟨⟨c, rfl⟩, hlt, hmax, hlast, fun _ h => absurd h hofs⟩
    · dsimp only
      omega
    · exact ⟨⟨c, rfl⟩, by simp, by dsimp only; omega, hstart⟩
  · rintro ⟨lastofs, ofs⟩ _ ⟨⟨c, rfl⟩, hlt, hmax, hlast, hfirst⟩
    dsimp only at hlt hmax hlast hfirst ⊢
    apply Prog.wp_bind
    apply wp_sub (by omega)
    apply Prog.wp_bind
    apply wp_sub (by omega)
    apply Prog.wp_pure
    apply hQ
    constructor
    · omega
    · omega
    · intro g i hi
      by_cases hofs : ofs < hint + 1
      · exact mono g i (hint - ofs) (by omega) (by omega) (hfirst g hofs)
      · omega
    · intro g i hle hi hpi
      exact hlast g (mono g (hint - lastofs) i hle hi hpi)

theorem wp_bisect (hp : Probes before n good p s R)
    (mono : good → ∀ i j, i ≤ j → j < n → p j → p i) {lo hi : ℕ} (h : Encloses good p n lo hi)
    {Q : ℕ → MergeState T σ → Prop}
    (hQ : ∀ k c, Encloses good p n k k → Q k { s with calls := c }) :
    Prog.wp (bisect before lo hi) Q R { s with calls := c } := by
  unfold bisect
  apply Prog.wp_loop (fun b t => (∃ c, t = { s with calls := c }) ∧ Encloses good p n b.1 b.2)
    (fun b _ => b.2 - b.1)
  · rintro ⟨lastofs, ofs⟩ _ ⟨⟨c, rfl⟩, hle, hlen, hbelow, habove⟩
    dsimp only at hle hlen hbelow habove ⊢
    apply Prog.wp_ite
    · intro hlt
      apply Prog.wp_bind
      apply wp_sub hle
      apply Prog.wp_bind
      apply hp (lastofs + (ofs - lastofs) / 2) (by omega)
      intro b c' hb
      apply Prog.wp_ite
      · intro hbt
        refine Prog.wp_pure ⟨⟨⟨c', rfl⟩, by dsimp only; omega, hlen, fun g i hi => ?_, habove⟩,
          by dsimp only; omega⟩
        exact mono g i _ (Nat.le_of_lt_succ hi) (by omega) ((hb g).mp hbt)
      · intro hbf
        refine Prog.wp_pure ⟨⟨⟨c', rfl⟩, by dsimp only; omega, by dsimp only; omega, hbelow,
          fun g i hi hin hpi => ?_⟩, by dsimp only; omega⟩
        exact hbf ((hb g).mpr (mono g _ i hi hin hpi))
    · intro hge
      obtain rfl : lastofs = ofs := by omega
      exact Prog.wp_pure (hQ lastofs c ⟨hle, hlen, hbelow, habove⟩)
  · dsimp only
    omega
  · exact ⟨⟨c, rfl⟩, h⟩

theorem wp_gallop (hp : Probes before n good p s R) (hhint : hint < n)
    (mono : good → ∀ i j, i ≤ j → j < n → p j → p i) {Q : ℕ → MergeState T σ → Prop}
    (hQ : ∀ k c, Encloses good p n k k → Q k { s with calls := c }) :
    Prog.wp (gallop before n hint) Q R s := by
  unfold gallop gallopFrom
  apply Prog.wp_bind
  apply Prog.wp_bind
  apply hp hint hhint s.calls
  intro b c hb
  apply Prog.wp_ite
  · intro hbt
    apply wp_gallopUp hp hhint mono (fun g => (hb g).mp hbt)
    intro lo hi c h
    exact wp_bisect hp mono h hQ
  · intro hbf
    apply wp_gallopDown hp hhint mono (fun g h => hbf ((hb g).mpr h))
    intro lo hi c h
    exact wp_bisect hp mono h hQ

variable {cmp : σ → T → T → Except E Bool × σ} {r : T → T → Prop} {v : List T}
  {key a : Ptr} {x : T} {xs : List T} {Q : ℕ → MergeState T σ → Prop}

/-- The run that starts at `a` holds `xs`, all from `v`. -/
structure Holds (s : MergeState T σ) (a : Ptr) (v xs : List T) : Prop where
  deref : ∀ i, (h : i < xs.length) → deref s.list s.tmp (a.add i) = some xs[i]
  mem : ∀ x ∈ xs, x ∈ v

theorem holds_list {l xs m : List T} {i : ℕ} (hs : s.list = l ++ (xs ++ m)) (hi : i = l.length)
    (hmem : ∀ x ∈ xs, x ∈ v) : Holds s (.list i) v xs := by
  refine ⟨fun j hj => ?_, hmem⟩
  simp only [deref, Ptr.add, hs, hi, List.getElem?_append_right (Nat.le_add_right _ _),
    Nat.add_sub_cancel_left, List.getElem?_append_left hj, List.getElem?_eq_getElem hj]

theorem ascending_getElem {xs : List T} (h : Ascending r xs) {i j : ℕ} (hi : i < xs.length)
    (hj : j < xs.length) (hij : i < j) : ¬ r xs[j] xs[i] :=
  List.pairwise_iff_getElem.mp h i j hi hj hij

theorem isBelow_probes (hkey : deref s.list s.tmp key = some x) (hx : x ∈ v)
    (hxs : Holds s a v xs) (hR : ¬ Honest cmp r v → ∀ e c, R e { s with calls := c }) :
    Probes (isBelow cmp key a) xs.length (Honest cmp r v) (fun i => ∀ y ∈ xs[i]?, r y x) s R := by
  intro i hi c Q hQ
  have hmem : xs[i] ∈ v := hxs.mem _ (List.getElem_mem _)
  apply wp_lt (s := { s with calls := c }) (hxs.deref i hi) hkey hmem hx hR
  intro b c' hb
  apply hQ
  intro honest
  rw [hb honest]
  simp [hi]

theorem isNotAbove_probes (hkey : deref s.list s.tmp key = some x) (hx : x ∈ v)
    (hxs : Holds s a v xs) (hR : ¬ Honest cmp r v → ∀ e c, R e { s with calls := c }) :
    Probes (isNotAbove cmp key a) xs.length (Honest cmp r v) (fun i => ∀ y ∈ xs[i]?, ¬ r x y)
      s R := by
  intro i hi c Q hQ
  have hmem : xs[i] ∈ v := hxs.mem _ (List.getElem_mem _)
  unfold isNotAbove
  apply Prog.wp_bind
  apply wp_lt (s := { s with calls := c }) (r := r) hkey (hxs.deref i hi) hx hmem hR
  intro b c' hb
  apply Prog.wp_pure
  apply hQ
  intro honest
  rw [Bool.not_eq_true', ← Bool.not_eq_true, hb honest]
  simp [hi]

theorem isBelow_mono (hr : StrictWeak r) (hasc : good → Ascending r xs) :
    good → ∀ i j, i ≤ j → j < xs.length → (∀ y ∈ xs[j]?, r y x) → ∀ y ∈ xs[i]?, r y x := by
  intro honest i j hij hj hjx y hy
  obtain ⟨hi, rfl⟩ := List.getElem?_eq_some_iff.mp hy
  have hjx' : r xs[j] x := hjx _ (by simp [hj])
  rcases hij.eq_or_lt with rfl | hlt
  · exact hjx'
  · exact hr.lt_of_le_of_lt (ascending_getElem (hasc honest) hi hj hlt) hjx'

theorem isNotAbove_mono (hr : StrictWeak r) (hasc : good → Ascending r xs) :
    good → ∀ i j, i ≤ j → j < xs.length → (∀ y ∈ xs[j]?, ¬ r x y) → ∀ y ∈ xs[i]?, ¬ r x y := by
  intro honest i j hij hj hjx y hy
  obtain ⟨hi, rfl⟩ := List.getElem?_eq_some_iff.mp hy
  have hjx' : ¬ r x xs[j] := hjx _ (by simp [hj])
  rcases hij.eq_or_lt with rfl | hlt
  · exact hjx'
  · exact hr.le_trans (ascending_getElem (hasc honest) hi hj hlt) hjx'

/-- The place found splits the run. -/
theorem Encloses.split {q : T → Prop} {k : ℕ}
    (h : Encloses good (fun i => ∀ y ∈ xs[i]?, q y) xs.length k k) :
    ∃ l m, xs = l ++ m ∧ l.length = k ∧ (good → ∀ y ∈ l, q y) ∧ (good → ∀ y ∈ m, ¬ q y) := by
  refine ⟨xs.take k, xs.drop k, (List.take_append_drop k xs).symm, ?_, ?_, ?_⟩
  · simpa using h.le_length
  · intro honest y hy
    obtain ⟨i, hi, rfl⟩ := List.getElem_of_mem hy
    rw [List.length_take] at hi
    exact h.below honest i (by omega) _ (by simp)
  · intro honest y hy hqy
    obtain ⟨i, hi, rfl⟩ := List.getElem_of_mem hy
    rw [List.length_drop] at hi
    refine h.above honest (k + i) (by omega) (by omega) fun y hy => ?_
    rw [List.getElem?_eq_getElem (by omega)] at hy
    obtain rfl := Option.mem_some_iff.mp hy
    rwa [List.getElem_drop] at hqy

theorem wp_gallopLeft (hr : StrictWeak r) (hkey : deref s.list s.tmp key = some x) (hx : x ∈ v)
    (hxs : Holds s a v xs) (hn : n = xs.length) (hhint : hint < n)
    (hasc : Honest cmp r v → Ascending r xs)
    (hR : ¬ Honest cmp r v → ∀ e c, R e { s with calls := c })
    (hQ : ∀ l m c, xs = l ++ m → (Honest cmp r v → ∀ y ∈ l, r y x) →
      (Honest cmp r v → ∀ y ∈ m, ¬ r y x) → Q l.length { s with calls := c }) :
    Prog.wp (gallopLeft cmp key a n hint) Q R s := by
  subst hn
  apply wp_gallop (isBelow_probes hkey hx hxs hR) hhint (isBelow_mono hr hasc)
  intro k c h
  obtain ⟨l, m, hlm, rfl, hl, hm⟩ := h.split
  exact hQ l m c hlm hl hm

theorem wp_gallopRight (hr : StrictWeak r) (hkey : deref s.list s.tmp key = some x) (hx : x ∈ v)
    (hxs : Holds s a v xs) (hn : n = xs.length) (hhint : hint < n)
    (hasc : Honest cmp r v → Ascending r xs)
    (hR : ¬ Honest cmp r v → ∀ e c, R e { s with calls := c })
    (hQ : ∀ l m c, xs = l ++ m → (Honest cmp r v → ∀ y ∈ l, ¬ r x y) →
      (Honest cmp r v → ∀ y ∈ m, r x y) → Q l.length { s with calls := c }) :
    Prog.wp (gallopRight cmp key a n hint) Q R s := by
  subst hn
  apply wp_gallop (isNotAbove_probes hkey hx hxs hR) hhint (isNotAbove_mono hr hasc)
  intro k c h
  obtain ⟨l, m, hlm, rfl, hl, hm⟩ := h.split
  exact hQ l m c hlm hl (fun honest y hy => not_not.mp (hm honest y hy))

end Rules

end WeavePy.Timsort
