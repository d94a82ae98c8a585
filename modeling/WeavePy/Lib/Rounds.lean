import Mathlib.Algebra.Ring.Int.Defs
import Mathlib.Algebra.Ring.Nat
import Mathlib.Tactic.Common

/-!
Changes repeated in rounds until a round changes nothing.
-/

namespace WeavePy.Rounds

variable {σ ε : Type}

/-- An update that says whether it changed anything. -/
abbrev Change (σ ε : Type) := σ → Except ε (σ × Bool)

def still : Change σ ε := fun s => .ok (s, false)

def both (f g : Change σ ε) : Change σ ε := fun s => do
  let r ← f s
  let r' ← g r.1
  return (r'.1, r.2 || r'.2)

def sweep : List (Change σ ε) → Change σ ε
  | [] => still
  | f :: fs => both f (sweep fs)

/-- `stuck` when the rounds allowed are not enough. -/
def rounds (stuck : ε) (f : Change σ ε) : ℕ → σ → Except ε σ
  | 0, _ => .error stuck
  | n + 1, s => do
    let r ← f s
    if r.2 then rounds stuck f n r.1 else return r.1

/-- What changes nothing says so. -/
def Quiet (f : Change σ ε) : Prop := ∀ s s', f s = .ok (s', false) → s' = s

def Keeps (inv : σ → Prop) (f : Change σ ε) : Prop :=
  ∀ s s' c, inv s → f s = .ok (s', c) → inv s'

/-- From the invariant the update succeeds, and every change costs rank. -/
def Settles (inv : σ → Prop) (rank : σ → ℕ) (f : Change σ ε) : Prop :=
  ∀ s, inv s → ∃ s' c, f s = .ok (s', c) ∧ inv s' ∧
    if c then rank s' < rank s else s' = s

variable {f g : Change σ ε} {fs : List (Change σ ε)} {inv : σ → Prop} {rank : σ → ℕ}
  {stuck : ε} {s s' : σ} {n : ℕ} {c : Bool}

theorem both_eq_ok : both f g s = .ok (s', c) ↔
    ∃ r c', f s = .ok (r, c') ∧ ∃ c'', g r = .ok (s', c'') ∧ c = (c' || c'') := by
  constructor
  · intro h
    rw [both] at h
    cases hf : f s with
    | error e =>
      rw [hf] at h
      cases h
    | ok r =>
      rw [hf] at h
      cases hg : g r.1 with
      | error e =>
        simp only [bind, Except.bind, hg] at h
        cases h
      | ok t =>
        simp only [bind, Except.bind, hg] at h
        obtain ⟨rfl, rfl⟩ := Prod.mk.inj (Except.ok.inj h)
        exact ⟨r.1, r.2, rfl, t.2, hg, rfl⟩
  · rintro ⟨r, c', hf, c'', hg, rfl⟩
    simp only [both, bind, Except.bind, hf, hg]
    rfl

theorem both_false (hf : Quiet f) (hg : Quiet g) (h : both f g s = .ok (s', false)) :
    s' = s ∧ f s = .ok (s, false) ∧ g s = .ok (s, false) := by
  obtain ⟨r, c', hr, c'', ht, hc⟩ := both_eq_ok.mp h
  obtain ⟨rfl, rfl⟩ := Bool.or_eq_false_iff.mp hc.symm
  obtain rfl := hf _ _ hr
  obtain rfl := hg _ _ ht
  exact ⟨rfl, hr, ht⟩

theorem Quiet.both (hf : Quiet f) (hg : Quiet g) : Quiet (both f g) :=
  fun _ _ h => (both_false hf hg h).1

theorem quiet_still : Quiet (still : Change σ ε) := by
  intro s s' h
  exact (congrArg Prod.fst (Except.ok.inj h)).symm

theorem Quiet.sweep (h : ∀ f ∈ fs, Quiet f) : Quiet (sweep fs) := by
  induction fs with
  | nil => exact quiet_still
  | cons f fs ih =>
    exact (h f List.mem_cons_self).both (ih fun g hg => h g (List.mem_cons_of_mem _ hg))

/-- A sweep that changes nothing meets only changes that change nothing. -/
theorem sweep_false (h : ∀ f ∈ fs, Quiet f) (hs : sweep fs s = .ok (s', false)) :
    ∀ f ∈ fs, f s = .ok (s, false) := by
  induction fs with
  | nil => simp
  | cons f fs ih =>
    have hrest : ∀ g ∈ fs, Quiet g := fun g hg => h g (List.mem_cons_of_mem _ hg)
    obtain ⟨rfl, hf, hfs⟩ := both_false (h f List.mem_cons_self) (Quiet.sweep hrest) hs
    intro g hg
    rcases List.mem_cons.mp hg with rfl | hg
    · exact hf
    · exact ih hrest hfs g hg

theorem Keeps.both (hf : Keeps inv f) (hg : Keeps inv g) : Keeps inv (both f g) := by
  intro s s' c hs h
  obtain ⟨r, c', hr, c'', ht, -⟩ := both_eq_ok.mp h
  exact hg _ _ _ (hf _ _ _ hs hr) ht

theorem Keeps.sweep (h : ∀ f ∈ fs, Keeps inv f) : Keeps inv (sweep fs) := by
  induction fs with
  | nil =>
    intro s s' c hs h
    obtain rfl := congrArg Prod.fst (Except.ok.inj h)
    exact hs
  | cons f fs ih =>
    exact (h f List.mem_cons_self).both (ih fun g hg => h g (List.mem_cons_of_mem _ hg))

theorem Settles.both (hf : Settles inv rank f) (hg : Settles inv rank g) :
    Settles inv rank (both f g) := by
  intro s hs
  obtain ⟨r, c, hr, hinv, hcase⟩ := hf s hs
  obtain ⟨t, c', ht, hinv', hcase'⟩ := hg r hinv
  refine ⟨t, c || c', both_eq_ok.mpr ⟨r, c, hr, c', ht, rfl⟩, hinv', ?_⟩
  cases c <;> cases c' <;> simp only [Bool.or_false, Bool.or_true, if_true, if_false,
    Bool.false_eq_true] at *
  · rw [hcase', hcase]
  · rwa [hcase] at hcase'
  · rwa [hcase']
  · omega

theorem Settles.sweep (h : ∀ f ∈ fs, Settles inv rank f) : Settles inv rank (sweep fs) := by
  induction fs with
  | nil => exact fun s hs => ⟨s, false, rfl, hs, rfl⟩
  | cons f fs ih =>
    exact (h f List.mem_cons_self).both (ih fun g hg => h g (List.mem_cons_of_mem _ hg))

section Mapped

variable {α : Type} {l : List α} {F : α → Change σ ε}

theorem Quiet.sweep_map (h : ∀ a ∈ l, Quiet (F a)) : Quiet (Rounds.sweep (l.map F)) := by
  apply Quiet.sweep
  intro f hf
  obtain ⟨a, ha, rfl⟩ := List.mem_map.mp hf
  exact h a ha

theorem Keeps.sweep_map (h : ∀ a ∈ l, Keeps inv (F a)) : Keeps inv (Rounds.sweep (l.map F)) := by
  apply Keeps.sweep
  intro f hf
  obtain ⟨a, ha, rfl⟩ := List.mem_map.mp hf
  exact h a ha

theorem Settles.sweep_map (h : ∀ a ∈ l, Settles inv rank (F a)) :
    Settles inv rank (Rounds.sweep (l.map F)) := by
  apply Settles.sweep
  intro f hf
  obtain ⟨a, ha, rfl⟩ := List.mem_map.mp hf
  exact h a ha

theorem sweep_map_false (h : ∀ a ∈ l, Quiet (F a)) (hs : sweep (l.map F) s = .ok (s', false)) :
    ∀ a ∈ l, F a s = .ok (s, false) := by
  intro a ha
  apply sweep_false _ hs _ (List.mem_map_of_mem ha)
  intro f hf
  obtain ⟨b, hb, rfl⟩ := List.mem_map.mp hf
  exact h b hb

end Mapped

theorem rounds_succ : rounds stuck f (n + 1) s = .ok s' ↔
    ∃ r c, f s = .ok (r, c) ∧ if c then rounds stuck f n r = .ok s' else r = s' := by
  rw [rounds]
  cases hf : f s with
  | error e => simp [bind, Except.bind]
  | ok r =>
    obtain ⟨r, c⟩ := r
    cases c <;> simp [bind, Except.bind, pure, Except.pure]

/-- Enough rounds for the rank end where a round changes nothing. -/
theorem rounds_of_settles (h : Settles inv rank f) (hs : inv s) (hn : rank s < n) :
    ∃ s', rounds stuck f n s = .ok s' ∧ inv s' ∧ f s' = .ok (s', false) := by
  induction n generalizing s with
  | zero => omega
  | succ n ih =>
    obtain ⟨r, c, hr, hinv, hcase⟩ := h s hs
    cases c with
    | false =>
      obtain rfl := hcase
      exact ⟨r, rounds_succ.mpr ⟨r, false, hr, rfl⟩, hinv, hr⟩
    | true =>
      obtain ⟨s', hs', hend⟩ := ih hinv (by simp only [if_true] at hcase; omega)
      exact ⟨s', rounds_succ.mpr ⟨r, true, hr, hs'⟩, hend⟩

/-- The rounds end where a round changes nothing, and what each round keeps is kept. -/
theorem rounds_ok (hq : Quiet f) (hk : Keeps inv f) (hs : inv s)
    (h : rounds stuck f n s = .ok s') : inv s' ∧ f s' = .ok (s', false) := by
  induction n generalizing s with
  | zero => cases h
  | succ n ih =>
    obtain ⟨r, c, hr, hcase⟩ := rounds_succ.mp h
    cases c with
    | false =>
      obtain rfl := hcase
      obtain rfl := hq _ _ hr
      exact ⟨hs, hr⟩
    | true => exact ih (hk _ _ _ hs hr) hcase

/-- A sum over cells when one of them is replaced. -/
theorem sum_map_set {α : Type} {l : List α} {i : ℕ} {a : α} (f : α → ℕ) (h : l[i]? = some a)
    (b : α) : ((l.set i b).map f).sum + f a = (l.map f).sum + f b := by
  induction l generalizing i with
  | nil => simp at h
  | cons c l ih =>
    cases i with
    | zero =>
      obtain rfl := Option.some.inj h
      simp only [List.set_cons_zero, List.map_cons, List.sum_cons]
      omega
    | succ i =>
      have hrest := ih (i := i) (by simpa using h)
      simp only [List.set_cons_succ, List.map_cons, List.sum_cons]
      omega

end WeavePy.Rounds
