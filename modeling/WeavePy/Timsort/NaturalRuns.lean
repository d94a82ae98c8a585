import WeavePy.Timsort.Gallop

/-!
The two ways a run is made: a natural run is counted and turned ascending, and a short one is
filled up by binary insertion.
-/

namespace WeavePy.Timsort

variable {T σ E : Type} (cmp : σ → T → T → Except E Bool × σ)

/-- `a[l..=ok]` rotated right by one. -/
def rotate (lo l ok : ℕ) : Sorter T σ E Unit := do
  let p ← read (.list (lo + ok))
  let d ← sub ok l
  copy (lo + l) (lo + (l + 1)) d
  write (lo + l) p

def binarysort (lo n ok : ℕ) : Sorter T σ E Unit :=
  loop (n + 1) (fun ok =>
    if ok < n then do
      let l ← bisect (isNotAbove cmp (.list (lo + ok)) (.list lo)) 0 ok
      rotate lo l ok
      return .next (ok + 1)
    else return .done ()) (max ok 1)

def nextSmaller (lo n : ℕ) : Sorter T σ E Bool := do
  let last ← sub n 1
  lt cmp (.list (lo + n)) (.list (lo + last))

def nextLarger (lo n : ℕ) : Sorter T σ E Bool := do
  let last ← sub n 1
  lt cmp (.list (lo + last)) (.list (lo + n))

def climb (lo nremaining n : ℕ) : Sorter T σ E ℕ :=
  loop (nremaining + 1) (fun n =>
    if n < nremaining then do
      if ← nextSmaller cmp lo n then return .done n
      else return .next (n + 1)
    else return .done n) n

def reverseEqual (lo n neq : ℕ) : Sorter T σ E Unit :=
  if 0 < neq then do
    let start ← sub (lo + n) (neq + 1)
    reverse start (neq + 1)
  else pure ()

/-- Follows a descending run; `neq` counts the last elements that equal the one before them. -/
def descend (lo nremaining n : ℕ) : Sorter T σ E (ℕ × ℕ) :=
  loop (nremaining + 1) (fun ⟨n, neq⟩ =>
    if n < nremaining then do
      if ← nextSmaller cmp lo n then do
        reverseEqual lo n neq
        return .next (n + 1, 0)
      else if ← nextLarger cmp lo n then return .done (n, neq)
      else return .next (n + 1, neq + 1)
    else return .done (n, neq)) (n, 0)

def countDown (lo nremaining n : ℕ) : Sorter T σ E ℕ := do
  let found ← descend cmp lo nremaining (n + 1)
  reverseEqual lo found.1 found.2
  reverse lo found.1
  -- The reversed run may extend with a naturally increasing suffix.
  climb cmp lo nremaining found.1

def countRun (lo nremaining : ℕ) : Sorter T σ E ℕ := do
  let n ← climb cmp lo nremaining 1
  if n = nremaining then return n
  else if 1 < n then do
    let last ← sub n 1
    if ← lt cmp (.list lo) (.list (lo + last)) then return n
    else do
      reverse lo n
      countDown cmp lo nremaining n
  else countDown cmp lo nremaining n

section Rules

variable {cmp : σ → T → T → Except E Bool × σ} {r : T → T → Prop} {v : List T}
  {s : MergeState T σ} {R : E → MergeState T σ → Prop} {pre post : List T}

theorem getElem?_middle {l m₁ m₂ : List T} {x : T} {i : ℕ} (hi : i = l.length + m₁.length) :
    (l ++ (m₁ ++ x :: m₂))[i]? = some x := by
  subst hi
  simp

theorem wp_rotate {l m : List T} {p : T} {rest : List T} {lo n ok : ℕ}
    {Q : Unit → MergeState T σ → Prop} (hs : s.list = pre ++ (l ++ (m ++ p :: rest)))
    (hlo : lo = pre.length) (hn : n = l.length) (hok : ok = l.length + m.length)
    (hQ : Q () { s with list := pre ++ (l ++ p :: (m ++ rest)) }) :
    Prog.wp (E := E) (rotate lo n ok) Q R s := by
  have hp : s.list[lo + ok]? = some p := by
    rw [hs, ← List.append_assoc l]
    exact getElem?_middle (by simp only [List.length_append]; omega)
  unfold rotate
  apply Prog.wp_bind
  apply wp_read (p := .list (lo + ok)) hp
  apply Prog.wp_bind
  apply wp_sub (by omega)
  apply Prog.wp_bind
  apply wp_copy_up (l := pre ++ l) (b := m) (g := [p]) (m := rest)
  · rw [hs, List.append_assoc]
    rfl
  · simp only [List.length_append]
    omega
  · simp only [List.length_append, List.length_singleton]
    omega
  · omega
  · intro gap hgap
    obtain ⟨q, rfl⟩ := List.length_eq_one_iff.mp hgap
    have hlist : (pre ++ l ++ ([q] ++ (m ++ rest))).set (lo + n) p
        = pre ++ (l ++ p :: (m ++ rest)) := by
      rw [List.set_append_right _ _ (by simp only [List.length_append]; omega)]
      simp [hlo, hn]
    unfold Prog.wp write
    rw [if_pos (by simp only [List.length_append, List.length_singleton]; omega), hlist]
    exact hQ

/-- Inserting the pivot keeps the run ascending. -/
theorem ascending_insert {l m : List T} {p : T} (h : Ascending r (l ++ m))
    (hl : ∀ y ∈ l, ¬ r p y) (hasymm : ∀ y ∈ m, ¬ r y p) : Ascending r (l ++ p :: m) := by
  obtain ⟨hl', hm', hlm⟩ := ascending_append.mp h
  refine ascending_append.mpr ⟨hl', List.pairwise_cons.mpr ⟨hasymm, hm'⟩, ?_⟩
  intro a ha b hb
  rcases List.mem_cons.mp hb with rfl | hb
  · exact hl a ha
  · exact hlm a ha b hb

theorem wp_binarysort (hr : StrictWeak r) {run rest : List T} {lo n ok : ℕ}
    {Q : Unit → MergeState T σ → Prop} (hs : s.list = pre ++ ((run ++ rest) ++ post))
    (hmem : ∀ x ∈ run ++ rest, x ∈ v) (hlo : lo = pre.length) (hok : ok = run.length) (h1 : 1 ≤ ok)
    (hn : n = (run ++ rest).length) (hasc : Honest cmp r v → Ascending r run)
    (hR : ¬ Honest cmp r v → ∀ e M c, M.Perm (run ++ rest) →
      R e { s with list := pre ++ (M ++ post), calls := c })
    (hQ : ∀ M c, Rearranged (Honest cmp r v) r (run ++ rest) M →
      (Honest cmp r v → Ascending r M) →
      Q () { s with list := pre ++ (M ++ post), calls := c }) :
    Prog.wp (binarysort cmp lo n ok) Q R s := by
  unfold binarysort
  apply Prog.wp_loop (fun ok t => ∃ run' rest' c,
      t = { s with list := pre ++ ((run' ++ rest') ++ post), calls := c } ∧ 1 ≤ ok ∧
      ok = run'.length ∧ n = (run' ++ rest').length ∧
      Rearranged (Honest cmp r v) r (run ++ rest) (run' ++ rest') ∧
      (Honest cmp r v → Ascending r run')) (fun ok _ => n - ok)
  · rintro ok _ ⟨run', rest', c, rfl, h1, rfl, hn, hre, hasc⟩
    have hmem' : ∀ x ∈ run' ++ rest', x ∈ v := fun x hx => hmem x (hre.perm.mem_iff.mpr hx)
    apply Prog.wp_ite
    · intro hlt
      cases rest' with
      | nil => simp at hn; omega
      | cons p rest' =>
        apply Prog.wp_bind
        have hkey : deref (pre ++ ((run' ++ p :: rest') ++ post)) s.tmp
            (.list (lo + run'.length)) = some p := by
          rw [List.append_assoc, List.cons_append]
          exact getElem?_middle (by omega)
        have hholds : Holds { s with list := pre ++ ((run' ++ p :: rest') ++ post), calls := c }
            (.list lo) v run' := by
          apply holds_list (l := pre) (m := p :: rest' ++ post) (by simp) hlo
          intro x hx
          exact hmem' x (List.mem_append_left _ hx)
        apply wp_bisect (isNotAbove_probes hkey (hmem' p (by simp)) hholds
          (fun hdis e c => hR hdis e _ c hre.perm.symm)) (isNotAbove_mono hr hasc)
          ⟨by omega, le_refl _, fun _ i hi => by omega,
            fun _ i hi hi' => by omega⟩
        intro k c h
        obtain ⟨l, m, rfl, rfl, hl, hm⟩ := h.split
        apply Prog.wp_bind
        have hsplit : pre ++ ((l ++ m ++ p :: rest') ++ post)
            = pre ++ (l ++ (m ++ p :: (rest' ++ post))) := by simp
        apply wp_rotate hsplit hlo rfl (by simp)
        apply Prog.wp_pure
        refine ⟨⟨l ++ p :: m, rest', c, by simp, by omega, by simp; omega, ?_, ?_, ?_⟩, ?_⟩
        · rw [hn]
          simp
          omega
        · have hswap : Rearranged (Honest cmp r v) r (m ++ [p]) ([p] ++ m) := by
            apply Rearranged.swap hr
            intro honest x hx y hy
            obtain rfl := List.mem_singleton.mp hy
            exact not_not.mp (hm honest x hx)
          have := hre.trans (by simpa using hswap.inside l rest')
          simpa using this
        · intro honest
          apply ascending_insert (hasc honest) (hl honest)
          intro y hy
          exact hr.asymm (not_not.mp (hm honest y hy))
        · omega
    · intro hge
      apply Prog.wp_pure
      cases rest' with
      | nil => exact hQ (run' ++ []) c hre (by simpa using hasc)
      | cons p rest' => simp at hn; omega
  · omega
  · refine ⟨run, rest, s.calls, ?_, by omega, by omega, hn, Rearranged.refl _, hasc⟩
    rw [← hs]

theorem wp_nextSmaller {l m : List T} {x y : T} {lo n : ℕ} {Q : Bool → MergeState T σ → Prop}
    (hs : s.list = pre ++ ((l ++ [x]) ++ y :: m)) (hlo : lo = pre.length)
    (hn : n = (l ++ [x]).length) (hx : x ∈ v) (hy : y ∈ v)
    (hR : ¬ Honest cmp r v → ∀ e c, R e { s with calls := c })
    (hQ : ∀ b c, (Honest cmp r v → (b = true ↔ r y x)) → Q b { s with calls := c }) :
    Prog.wp (nextSmaller cmp lo n) Q R s := by
  have hn' : n = l.length + 1 := by simpa using hn
  unfold nextSmaller
  apply Prog.wp_bind
  apply wp_sub (by omega)
  apply wp_lt _ _ hy hx hR hQ
  · show s.list[_]? = _
    rw [hs]
    exact getElem?_middle (by rw [hn, hlo])
  · show s.list[_]? = _
    rw [hs, List.append_assoc l]
    exact getElem?_middle (by omega)

theorem wp_nextLarger {l m : List T} {x y : T} {lo n : ℕ} {Q : Bool → MergeState T σ → Prop}
    (hs : s.list = pre ++ ((l ++ [x]) ++ y :: m)) (hlo : lo = pre.length)
    (hn : n = (l ++ [x]).length) (hx : x ∈ v) (hy : y ∈ v)
    (hR : ¬ Honest cmp r v → ∀ e c, R e { s with calls := c })
    (hQ : ∀ b c, (Honest cmp r v → (b = true ↔ r x y)) → Q b { s with calls := c }) :
    Prog.wp (nextLarger cmp lo n) Q R s := by
  have hn' : n = l.length + 1 := by simpa using hn
  unfold nextLarger
  apply Prog.wp_bind
  apply wp_sub (by omega)
  apply wp_lt _ _ hx hy hR hQ
  · show s.list[_]? = _
    rw [hs, List.append_assoc l]
    exact getElem?_middle (by omega)
  · show s.list[_]? = _
    rw [hs]
    exact getElem?_middle (by rw [hn, hlo])

/-- A run grows while no element is less than the one before it. -/
theorem wp_climb (hr : StrictWeak r) {run rest : List T} {lo nremaining n : ℕ}
    {Q : ℕ → MergeState T σ → Prop} (hs : s.list = pre ++ (run ++ (rest ++ post)))
    (hmem : ∀ x ∈ run ++ rest, x ∈ v) (hlo : lo = pre.length) (hn : n = run.length) (h1 : 1 ≤ n)
    (hrem : nremaining = (run ++ rest).length) (hasc : Honest cmp r v → Ascending r run)
    (hR : ¬ Honest cmp r v → ∀ e c, R e { s with calls := c })
    (hQ : ∀ y z c, rest = y ++ z → (Honest cmp r v → Ascending r (run ++ y)) →
      (Honest cmp r v → ∀ a ∈ (run ++ y).getLast?, ∀ b ∈ z.head?, r b a) →
      Q (run ++ y).length { s with calls := c }) :
    Prog.wp (climb cmp lo nremaining n) Q R s := by
  unfold climb
  apply Prog.wp_loop (fun n t => ∃ y z c, t = { s with calls := c } ∧ rest = y ++ z ∧
    n = (run ++ y).length ∧ (Honest cmp r v → Ascending r (run ++ y)))
    (fun n _ => nremaining - n)
  · rintro n _ ⟨y, z, c, rfl, rfl, rfl, hasc⟩
    apply Prog.wp_ite
    · intro hlt
      cases z with
      | nil => simp at hlt hrem; omega
      | cons b z =>
        obtain ⟨l, a, hla⟩ : ∃ l a, run ++ y = l ++ [a] := by
          apply (List.eq_nil_or_concat' _).resolve_left
          intro hnil
          simp only [List.append_eq_nil_iff] at hnil
          rw [hn, hnil.1] at h1
          simp at h1
        apply Prog.wp_bind
        have hsplit : s.list = pre ++ ((l ++ [a]) ++ b :: (z ++ post)) := by
          rw [hs, ← hla]
          simp
        apply wp_nextSmaller (s := { s with calls := c }) hsplit hlo (by rw [hla]) _ _ hR
        · intro t c' ht
          apply Prog.wp_ite
          · intro htrue
            apply Prog.wp_pure
            apply hQ y (b :: z) c' rfl hasc
            intro honest a' ha' b' hb'
            rw [hla] at ha'
            obtain rfl : a = a' := by simpa using ha'
            obtain rfl : b = b' := by simpa using hb'
            exact (ht honest).mp htrue
          · intro hfalse
            apply Prog.wp_pure
            refine ⟨⟨y ++ [b], z, c', rfl, by simp, by simp [Nat.add_assoc], ?_⟩, by omega⟩
            intro honest
            rw [← List.append_assoc, hla]
            apply Ascending.concat hr (hla ▸ hasc honest)
            intro hba
            exact hfalse ((ht honest).mpr hba)
        · apply hmem
          rw [← List.append_assoc, hla]
          simp
        · exact hmem b (by simp)
    · intro hge
      cases z with
      | nil => exact Prog.wp_pure (hQ y [] c rfl hasc (by simp))
      | cons b z => simp at hge hrem; omega
  · omega
  · exact ⟨[], rest, s.calls, rfl, rfl, by simpa using hn, by simpa using hasc⟩

theorem wp_reverseEqual {d e m : List T} {lo n neq : ℕ} {Q : Unit → MergeState T σ → Prop}
    (hs : s.list = pre ++ ((d ++ e) ++ m)) (hlo : lo = pre.length) (hn : n = (d ++ e).length)
    (hneq : e.length = neq + 1)
    (hQ : Q () { s with list := pre ++ ((d ++ e.reverse) ++ m) }) :
    Prog.wp (E := E) (reverseEqual lo n neq) Q R s := by
  rw [List.length_append] at hn
  unfold reverseEqual
  apply Prog.wp_ite
  · intro hpos
    apply Prog.wp_bind
    apply wp_sub (by omega)
    apply wp_reverse (l := pre ++ d) (b := e) (m := m)
    · rw [hs, List.append_assoc, List.append_assoc]
    · rw [List.length_append]
      omega
    · omega
    · simpa using hQ
  · intro hzero
    apply Prog.wp_pure
    obtain ⟨a, rfl⟩ := List.length_eq_one_iff.mp (show e.length = 1 by omega)
    rw [List.reverse_singleton, ← hs] at hQ
    exact hQ

theorem wp_descend (hr : StrictWeak r) {l d rest : List T} {b : T} {lo nremaining n : ℕ}
    {Q : ℕ × ℕ → MergeState T σ → Prop} (hs : s.list = pre ++ ((d ++ [b]) ++ (rest ++ post)))
    (hmem : ∀ x ∈ l ++ rest, x ∈ v) (hlo : lo = pre.length) (hn : n = (d ++ [b]).length)
    (hrem : nremaining = (d ++ [b] ++ rest).length)
    (hdesc : Descending (Honest cmp r v) r l d [b])
    (hR : ¬ Honest cmp r v → ∀ e M c, M.Perm (l ++ rest) →
      R e { s with list := pre ++ (M ++ post), calls := c })
    (hQ : ∀ y z d e c, rest = y ++ z → Descending (Honest cmp r v) r (l ++ y) d e → e ≠ [] →
      Q ((d ++ e).length, e.length - 1)
        { s with list := pre ++ ((d ++ e) ++ (z ++ post)), calls := c }) :
    Prog.wp (descend cmp lo nremaining n) Q R s := by
  unfold descend
  apply Prog.wp_loop (fun b t => ∃ y z d e c,
    t = { s with list := pre ++ ((d ++ e) ++ (z ++ post)), calls := c } ∧ rest = y ++ z ∧
    b.1 = (d ++ e).length ∧ e.length = b.2 + 1 ∧ nremaining = (d ++ e ++ z).length ∧
    Descending (Honest cmp r v) r (l ++ y) d e) (fun b _ => nremaining - b.1)
  · rintro ⟨n, neq⟩ _ ⟨y, z, d, e, c, rfl, rfl, hn, hneq, hrem, hdesc⟩
    dsimp only at hn hneq ⊢
    apply Prog.wp_ite
    · intro hlt
      cases z with
      | nil => rw [List.append_nil] at hrem; omega
      | cons b z =>
        obtain ⟨e', a, rfl⟩ : ∃ e' a, e = e' ++ [a] := by
          apply (List.eq_nil_or_concat' _).resolve_left
          rintro rfl
          simp at hneq
        have hperm : ((d ++ (e' ++ [a])) ++ b :: z).Perm (l ++ (y ++ b :: z)) := by
          rw [← List.append_assoc l]
          exact (hdesc.perm.append_right _).symm
        have hmem' : ∀ x ∈ (d ++ (e' ++ [a])) ++ b :: z, x ∈ v := fun x hx =>
          hmem x (hperm.mem_iff.mp hx)
        have hlist : ∀ c, (⟨pre ++ ((d ++ (e' ++ [a])) ++ (b :: z ++ post)), s.minGallop,
            s.capacity, s.tmp, s.hole, s.pending, c⟩ : MergeState T σ).list
            = pre ++ (((d ++ e') ++ [a]) ++ b :: (z ++ post)) := by simp
        have hlen : n = ((d ++ e') ++ [a]).length := by rw [hn, List.append_assoc]
        have hlost : ¬ Honest cmp r v → ∀ x c, R x { s with
            list := pre ++ ((d ++ (e' ++ [a])) ++ (b :: z ++ post)), calls := c } := by
          intro hdis x c
          rw [← List.append_assoc (d ++ _)]
          exact hR hdis x _ c hperm
        have ha : a ∈ e' ++ [a] := by simp
        apply Prog.wp_bind
        apply wp_nextSmaller (hlist c) hlo hlen (hmem' a (by simp)) (hmem' b (by simp)) hlost
        intro smaller c hsmaller
        apply Prog.wp_ite
        · intro htrue
          apply Prog.wp_bind
          apply wp_reverseEqual rfl hlo hn hneq
          apply Prog.wp_pure
          have hdesc' := hdesc.drops hr ha fun g => (hsmaller g).mp htrue
          refine ⟨⟨y ++ [b], z, d ++ (e' ++ [a]).reverse, [b], c, by simp, by simp, ?_, rfl, ?_,
            by rw [← List.append_assoc]; exact hdesc'⟩, by dsimp only; omega⟩
          · simp [hn]
            omega
          · simp [hrem]
            omega
        · intro hfalse
          apply Prog.wp_bind
          apply wp_nextLarger (hlist c) hlo hlen (hmem' a (by simp)) (hmem' b (by simp)) hlost
          intro larger c hlarger
          apply Prog.wp_ite
          · intro htrue
            apply Prog.wp_pure
            have hq := hQ y (b :: z) d (e' ++ [a]) c rfl hdesc (by simp)
            rw [← hn, hneq] at hq
            exact hq
          · intro hfalse'
            apply Prog.wp_pure
            have hdesc' := hdesc.stays hr ha (fun g h => hfalse ((hsmaller g).mpr h))
              fun g h => hfalse' ((hlarger g).mpr h)
            refine ⟨⟨y ++ [b], z, d, e' ++ [a] ++ [b], c, by simp, by simp, ?_, ?_, ?_,
              by rw [← List.append_assoc]; exact hdesc'⟩, by dsimp only; omega⟩
            · simp [hn]
              omega
            · simpa using hneq
            · simp [hrem]
    · intro hge
      apply Prog.wp_pure
      have he : e ≠ [] := by
        rintro rfl
        simp at hneq
      have hq := hQ y z d e c rfl hdesc he
      rw [← hn, hneq] at hq
      exact hq
  · dsimp only
    omega
  · refine ⟨[], rest, d, [b], s.calls, ?_, rfl, hn, rfl, hrem, by simpa using hdesc⟩
    rw [← hs]

theorem wp_countDown (hr : StrictWeak r) {l d rest : List T} {b : T} {lo nremaining n : ℕ}
    {Q : ℕ → MergeState T σ → Prop} (hs : s.list = pre ++ ((d ++ [b]) ++ (rest ++ post)))
    (hmem : ∀ x ∈ l ++ rest, x ∈ v) (hlo : lo = pre.length) (hn : n = d.length)
    (hrem : nremaining = (d ++ [b] ++ rest).length)
    (hdesc : Descending (Honest cmp r v) r l d [b])
    (hR : ¬ Honest cmp r v → ∀ e M c, M.Perm (l ++ rest) →
      R e { s with list := pre ++ (M ++ post), calls := c })
    (hQ : ∀ y z M c, rest = y ++ z → Rearranged (Honest cmp r v) r (l ++ y) M →
      (Honest cmp r v → Ascending r M) →
      Q M.length { s with list := pre ++ (M ++ (z ++ post)), calls := c }) :
    Prog.wp (countDown cmp lo nremaining n) Q R s := by
  unfold countDown
  apply Prog.wp_bind
  apply wp_descend hr hs hmem hlo (by simpa using hn) hrem hdesc hR
  intro y z d' e c hrest hdesc' he
  apply Prog.wp_bind
  apply wp_reverseEqual rfl hlo rfl
  · have := List.length_pos_iff.mpr he
    omega
  apply Prog.wp_bind
  apply wp_reverse rfl hlo (by simp)
  have hrev : (d' ++ e.reverse).reverse = e ++ d'.reverse := by simp
  rw [hrev]
  have hperm : (l ++ rest).Perm ((e ++ d'.reverse) ++ z) := by
    rw [hrest, ← List.append_assoc]
    exact hdesc'.rearranged.perm.append_right z
  have hlen : nremaining = ((e ++ d'.reverse) ++ z).length := by
    rw [← hperm.length_eq, hrem]
    exact (hdesc.perm.symm.append_right rest).length_eq
  apply wp_climb hr rfl (fun x hx => hmem x (hperm.mem_iff.mpr hx)) hlo
  · rw [← hrev]
    simp
    omega
  · have := List.length_pos_iff.mpr he
    rw [List.length_append]
    omega
  · exact hlen
  · exact hdesc'.ascending_reverse hr
  · intro hdis x c'
    rw [← List.append_assoc (e ++ _)]
    exact hR hdis x _ c' hperm.symm
  · intro y' z' c' hz hasc _
    have hq := hQ (y ++ y') z' (e ++ d'.reverse ++ y') c' (by rw [hrest, hz, List.append_assoc])
      (by
        rw [← List.append_assoc]
        exact hdesc'.rearranged.append (Rearranged.refl y')) hasc
    rw [hz, List.append_assoc y', ← List.append_assoc (e ++ _)]
    exact hq

/-- A natural run is a prefix of what remains, put in stable ascending order. -/
theorem wp_countRun (hr : StrictWeak r) {l : List T} {lo nremaining : ℕ}
    {Q : ℕ → MergeState T σ → Prop} (hs : s.list = pre ++ (l ++ post))
    (hmem : ∀ x ∈ l, x ∈ v) (hlo : lo = pre.length) (hrem : nremaining = l.length) (hl : l ≠ [])
    (hR : ¬ Honest cmp r v → ∀ e M c, M.Perm l →
      R e { s with list := pre ++ (M ++ post), calls := c })
    (hQ : ∀ y z M c, l = y ++ z → M ≠ [] → Rearranged (Honest cmp r v) r y M →
      (Honest cmp r v → Ascending r M) →
      Q M.length { s with list := pre ++ (M ++ (z ++ post)), calls := c }) :
    Prog.wp (countRun cmp lo nremaining) Q R s := by
  obtain ⟨a, rest, rfl⟩ := List.exists_cons_of_ne_nil hl
  have hlost : ¬ Honest cmp r v → ∀ e c, R e { s with calls := c } := by
    intro hdis e c
    have := hR hdis e (a :: rest) c .rfl
    rwa [← hs] at this
  have hstart : s.list = pre ++ ([a] ++ (rest ++ post)) := hs
  unfold countRun
  apply Prog.wp_bind
  apply wp_climb hr hstart hmem hlo rfl (le_refl 1) hrem
    (fun _ => List.pairwise_singleton _ _) hlost
  intro y z c hrest hasc hstop
  have hlz : a :: rest = ([a] ++ y) ++ z := by simp [hrest]
  rw [hlz] at hs hmem hR hrem
  have hstay : ∀ c, Q ([a] ++ y).length { s with calls := c } := by
    intro c
    have hq := hQ ([a] ++ y) z ([a] ++ y) c hlz (by simp) (Rearranged.refl _) hasc
    rwa [← List.append_assoc (_ ++ y), ← hs] at hq
  apply Prog.wp_ite
  · intro hall
    exact Prog.wp_pure (hstay c)
  · intro hnall
    cases z with
    | nil =>
      rw [List.append_nil] at hrem
      exact absurd hrem.symm hnall
    | cons b z =>
      obtain ⟨p, x, hpx⟩ : ∃ p x, [a] ++ y = p ++ [x] :=
        (List.eq_nil_or_concat' _).resolve_left (by simp)
      have hbx : Honest cmp r v → r b x := by
        intro honest
        exact hstop honest x (by rw [hpx]; simp) b (by simp)
      -- The prefix is all equal; its last element starts the descending run with `b`.
      have hdown : (Honest cmp r v → ∀ w ∈ [a] ++ y, ∀ w' ∈ [a] ++ y, ¬ r w w') →
          ∀ c, Prog.wp (countDown cmp lo nremaining ([a] ++ y).length) Q R
            { s with list := pre ++ (([a] ++ y).reverse ++ (b :: z ++ post)), calls := c } := by
        intro hpeers c
        have hdesc := (Descending.start hpeers).drops (y := b) hr (x := x) (by rw [hpx]; simp) hbx
        have hassoc : ([a] ++ y ++ b :: z) = ([a] ++ y ++ [b]) ++ z := by simp
        apply wp_countDown hr (l := [a] ++ y ++ [b]) (d := ([a] ++ y).reverse) (b := b)
          _ _ hlo (by simp) _ (by simpa using hdesc)
        · intro hdis e M c hM
          exact hR hdis e M c (by rw [hassoc]; exact hM)
        · intro y' z' M c hz hM hascM
          apply hQ ([a] ++ y ++ [b] ++ y') z' M c
          · rw [hlz, hz]
            simp
          · rintro rfl
            simpa using hM.perm.length_eq
          · exact hM
          · exact hascM
        · simp
        · intro w hw
          exact hmem w (by rw [hassoc]; exact hw)
        · rw [hrem]
          simp
          omega
      apply Prog.wp_ite
      · intro hlong
        apply Prog.wp_bind
        apply wp_sub (by omega)
        apply Prog.wp_bind
        apply wp_lt (s := { s with calls := c }) (a := a) (b := x) (v := v) (r := r) _ _
          (hmem a (by simp)) (hmem x (by rw [hpx]; simp)) hlost
        · intro t c' ht
          apply Prog.wp_ite
          · intro _
            exact Prog.wp_pure (hstay c')
          · intro hfalse
            apply Prog.wp_bind
            apply wp_reverse (s := { s with calls := c' }) _ hlo rfl
            · apply hdown
              intro honest w hw w' hw'
              have hle : ¬ r a x := fun h => hfalse ((ht honest).mpr h)
              have hlast : ¬ r x w' := by
                rw [hpx] at hw'
                exact (hpx ▸ hasc honest).le_last hr hw'
              exact hr.le_trans (hr.le_trans hlast hle) ((hasc honest).head_le hr hw)
            · show s.list = _
              rw [hs, List.append_assoc _ (b :: z)]
        · show s.list[_]? = _
          rw [hstart]
          simp [hlo]
        · show s.list[_]? = _
          rw [hs, hpx, List.append_assoc, List.append_assoc]
          exact getElem?_middle (by simp; omega)
      · intro hshort
        obtain rfl : y = [] := by simpa using hshort
        have := hdown (fun honest w hw w' hw' => by
          obtain rfl : w = a := by simpa using hw
          obtain rfl : w' = w := by simpa using hw'
          exact hr.irrefl _) c
        rw [List.append_nil, List.append_assoc] at hs
        rwa [List.append_nil, List.reverse_singleton, ← hs] at this

end Rules

end WeavePy.Timsort
