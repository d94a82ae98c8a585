import Mathlib.Tactic.Common

/-!
Programs over an explicit state that can return, fail with an error, or run into a fault, and the
weakest preconditions that rule the faults out.
-/

namespace WeavePy

variable {φ S E α β : Type}

/-- An error keeps the state it happened in; a fault has none. -/
def Prog (φ S E α : Type) : Type := S → Except φ (Except E α × S)

/-- What one pass through a loop body decides. -/
inductive Step (β α : Type) where
  | next (b : β)
  | done (a : α)

namespace Prog

instance : Monad (Prog φ S E) where
  pure a := fun s => .ok (.ok a, s)
  bind m f := fun s =>
    match m s with
    | .error x => .error x
    | .ok (.error e, t) => .ok (.error e, t)
    | .ok (.ok a, t) => f a t

def fault (x : φ) : Prog φ S E α := fun _ => .error x

def gets (f : S → α) : Prog φ S E α := fun s => .ok (.ok (f s), s)

def modify (f : S → S) : Prog φ S E Unit := fun s => .ok (.ok (), f s)

def raise (e : E) : Prog φ S E α := fun s => .ok (.error e, s)

/-- The error as a value, in the state it happened in. -/
def attempt {E' : Type} (m : Prog φ S E α) : Prog φ S E' (Except E α) := fun s =>
  match m s with
  | .error x => .error x
  | .ok (r, t) => .ok (.ok r, t)

/-- Runs `c` on whatever state `m` ends in, also when `m` failed. -/
def finally_ (m : Prog φ S E α) (c : S → Except φ S) : Prog φ S E α := fun s =>
  match m s with
  | .error x => .error x
  | .ok (r, t) =>
    match c t with
    | .error x => .error x
    | .ok u => .ok (r, u)

def loop (stuck : φ) : ℕ → (β → Prog φ S E (Step β α)) → β → Prog φ S E α
  | 0, _, _ => fault stuck
  | fuel + 1, body, b => body b >>= fun r =>
    match r with
    | .next b' => loop stuck fuel body b'
    | .done a => pure a

/-- From `s` the program stops without a fault, and `Q` or `R` holds of how it stopped. -/
def wp (m : Prog φ S E α) (Q : α → S → Prop) (R : E → S → Prop) (s : S) : Prop :=
  match m s with
  | .error _ => False
  | .ok (.ok a, t) => Q a t
  | .ok (.error e, t) => R e t

variable {m : Prog φ S E α} {f : α → Prog φ S E β} {Q : α → S → Prop} {R : E → S → Prop} {s : S}

theorem wp_pure {a : α} (h : Q a s) : wp (pure a : Prog φ S E α) Q R s := h

theorem wp_gets {g : S → α} (h : Q (g s) s) : wp (gets g : Prog φ S E α) Q R s := h

theorem wp_modify {g : S → S} {Q : Unit → S → Prop} (h : Q () (g s)) : 
    wp (modify g : Prog φ S E Unit) Q R s := h

theorem wp_seq {Q' : β → S → Prop} (hm : wp m Q R s) (hf : ∀ a t, Q a t → wp (f a) Q' R t) :
    wp (m >>= f) Q' R s := by
  unfold wp at hm ⊢
  show match (match m s with
    | .error x => .error x
    | .ok (.error e, t) => .ok (.error e, t)
    | .ok (.ok a, t) => f a t : Except φ (Except E β × S)) with
    | .error _ => False
    | .ok (.ok a, t) => Q' a t
    | .ok (.error e, t) => R e t
  rcases hr : m s with x | ⟨e | a, t⟩
  · rw [hr] at hm
    exact hm
  · rw [hr] at hm
    exact hm
  · rw [hr] at hm
    exact hf a t hm

theorem wp_bind {Q' : β → S → Prop} (h : wp m (fun a t => wp (f a) Q' R t) R s) :
    wp (m >>= f) Q' R s := wp_seq h fun _ _ hf => hf

theorem wp_mono {Q' : α → S → Prop} {R' : E → S → Prop} (hm : wp m Q R s)
    (hQ : ∀ a t, Q a t → Q' a t) (hR : ∀ e t, R e t → R' e t) : wp m Q' R' s := by
  unfold wp at hm ⊢
  rcases hr : m s with x | ⟨e | a, t⟩
  · rw [hr] at hm
    exact hm
  · rw [hr] at hm
    exact hR e t hm
  · rw [hr] at hm
    exact hQ a t hm

theorem wp_ite {c : Prop} [Decidable c] {m' : Prog φ S E α} (ht : c → wp m Q R s)
    (he : ¬ c → wp m' Q R s) : wp (if c then m else m') Q R s := by
  by_cases hc : c
  · rw [if_pos hc]
    exact ht hc
  · rw [if_neg hc]
    exact he hc

theorem wp_attempt {E' : Type} {Q' : Except E α → S → Prop} {R' : E' → S → Prop}
    (h : wp m (fun a t => Q' (.ok a) t) (fun e t => Q' (.error e) t) s) : wp (attempt m) Q' R' s := by
  unfold wp attempt at *
  rcases hr : m s with x | ⟨e | a, t⟩
  · rw [hr] at h
    exact h
  · rw [hr] at h
    exact h
  · rw [hr] at h
    exact h

theorem wp_finally {c : S → Except φ S} {Q' : α → S → Prop} {R' : E → S → Prop}
    (hm : wp m Q R s) (hQ : ∀ a t, Q a t → ∃ u, c t = .ok u ∧ Q' a u)
    (hR : ∀ e t, R e t → ∃ u, c t = .ok u ∧ R' e u) : wp (finally_ m c) Q' R' s := by
  unfold wp finally_ at *
  rcases hr : m s with x | ⟨e | a, t⟩
  · rw [hr] at hm
    exact hm
  · rw [hr] at hm
    obtain ⟨u, hu, hru⟩ := hR e t hm
    simp only [hu]
    exact hru
  · rw [hr] at hm
    obtain ⟨u, hu, hqu⟩ := hQ a t hm
    simp only [hu]
    exact hqu

/-- A loop whose body keeps the invariant and brings the measure down. -/
theorem wp_loop {stuck : φ} {body : β → Prog φ S E (Step β α)} (inv : β → S → Prop)
    (measure : β → S → ℕ)
    (hbody : ∀ b t, inv b t → wp (body b) (fun r u => match r with
      | .next b' => inv b' u ∧ measure b' u < measure b t
      | .done a => Q a u) R t)
    {fuel : ℕ} {b : β} (hfuel : measure b s < fuel) (hinv : inv b s) :
    wp (loop stuck fuel body b) Q R s := by
  induction fuel generalizing b s with
  | zero => omega
  | succ fuel ih =>
    apply wp_seq (hbody b s hinv)
    intro r u hr
    cases r with
    | next b' => exact ih (by have := hr.2; omega) hr.1
    | done a => exact wp_pure hr

/-- What a run that meets its weakest precondition looks like. -/
theorem exists_of_wp (h : wp m Q R s) :
    ∃ r t, m s = .ok (r, t) ∧ (∀ a, r = .ok a → Q a t) ∧ ∀ e, r = .error e → R e t := by
  unfold wp at h
  rcases hr : m s with x | ⟨e | a, t⟩
  · rw [hr] at h
    exact h.elim
  · rw [hr] at h
    exact ⟨_, t, rfl, by simp, by simpa using h⟩
  · rw [hr] at h
    exact ⟨_, t, rfl, by simpa using h, by simp⟩

end Prog

end WeavePy

/-!
What holds of a run that comes to an end, and what a program leaves as it was.
-/

namespace WeavePy.Prog

variable {φ S E α β γ : Type}

/-- If the program stops without a fault from `s`, then `Q` or `R` holds of how it stopped. -/
def wlp (m : Prog φ S E α) (Q : α → S → Prop) (R : E → S → Prop) (s : S) : Prop :=
  ∀ r t, m s = .ok (r, t) → match r with
    | .ok a => Q a t
    | .error e => R e t

variable {m : Prog φ S E α} {f : α → Prog φ S E β} {Q : α → S → Prop} {R : E → S → Prop} {s : S}

theorem wlp_pure {a : α} (h : Q a s) : wlp (pure a : Prog φ S E α) Q R s := by
  intro r t hr
  cases hr
  exact h

theorem wlp_gets {g : S → α} (h : Q (g s) s) : wlp (gets g : Prog φ S E α) Q R s := by
  intro r t hr
  cases hr
  exact h

theorem wlp_modify {g : S → S} {Q : Unit → S → Prop} (h : Q () (g s)) :
    wlp (modify g : Prog φ S E Unit) Q R s := by
  intro r t hr
  cases hr
  exact h

theorem wlp_fault {x : φ} : wlp (fault x : Prog φ S E α) Q R s := by
  intro r t hr
  cases hr

theorem wlp_seq {Q' : β → S → Prop} (hm : wlp m Q R s) (hf : ∀ a t, Q a t → wlp (f a) Q' R t) :
    wlp (m >>= f) Q' R s := by
  intro r t hr
  change (match m s with
    | .error x => .error x
    | .ok (.error e, t) => .ok (.error e, t)
    | .ok (.ok a, t) => f a t : Except φ (Except E β × S)) = .ok (r, t) at hr
  rcases hs : m s with x | ⟨e | a, u⟩
  · rw [hs] at hr
    cases hr
  · rw [hs] at hr
    cases hr
    exact hm _ _ hs
  · rw [hs] at hr
    exact hf a u (hm _ _ hs) r t hr

theorem wlp_bind {Q' : β → S → Prop} (h : wlp m (fun a t => wlp (f a) Q' R t) R s) :
    wlp (m >>= f) Q' R s := wlp_seq h fun _ _ hf => hf

theorem wlp_mono {Q' : α → S → Prop} {R' : E → S → Prop} (hm : wlp m Q R s)
    (hQ : ∀ a t, Q a t → Q' a t) (hR : ∀ e t, R e t → R' e t) : wlp m Q' R' s := by
  intro r t hr
  cases r with
  | ok a => exact hQ a t (hm _ _ hr)
  | error e => exact hR e t (hm _ _ hr)

theorem wlp_of_wp (h : wp m Q R s) : wlp m Q R s := by
  intro r t hr
  unfold wp at h
  rw [hr] at h
  cases r with
  | ok a => exact h
  | error e => exact h

theorem wlp_ite {c : Prop} [Decidable c] {m' : Prog φ S E α} (ht : c → wlp m Q R s)
    (he : ¬ c → wlp m' Q R s) : wlp (if c then m else m') Q R s := by
  by_cases hc : c
  · rw [if_pos hc]
    exact ht hc
  · rw [if_neg hc]
    exact he hc

theorem wlp_loop {stuck : φ} {body : β → Prog φ S E (Step β α)} (inv : β → S → Prop)
    (hbody : ∀ b t, inv b t → wlp (body b) (fun r u => match r with
      | .next b' => inv b' u
      | .done a => Q a u) R t) {fuel : ℕ} {b : β} (hinv : inv b s) :
    wlp (loop stuck fuel body b) Q R s := by
  induction fuel generalizing b s with
  | zero => exact wlp_fault
  | succ fuel ih =>
    apply wlp_seq (hbody b s hinv)
    intro r u hr
    cases r with
    | next b' => exact ih hr
    | done a => exact wlp_pure hr

/-- However the program stops, `g` of the state is what it was. -/
def Keeps (g : S → γ) (m : Prog φ S E α) : Prop :=
  ∀ s, wlp m (fun _ t => g t = g s) (fun _ t => g t = g s) s

variable {g : S → γ}

theorem keeps_pure {a : α} : Keeps g (Pure.pure a : Prog φ S E α) := fun _ => wlp_pure rfl

theorem keeps_gets {h : S → α} : Keeps g (Prog.gets h : Prog φ S E α) := fun _ => wlp_gets rfl

theorem keeps_modify {h : S → S} (hg : ∀ s, g (h s) = g s) :
    Keeps g (Prog.modify h : Prog φ S E Unit) := fun s => wlp_modify (hg s)

theorem keeps_fault {x : φ} : Keeps g (Prog.fault x : Prog φ S E α) := fun _ => wlp_fault

theorem keeps_bind (hm : Keeps g m) (hf : ∀ a, Keeps g (f a)) : Keeps g (m >>= f) := by
  intro s
  apply wlp_seq (hm s)
  intro a t ht
  have := hf a t
  rwa [ht] at this

theorem keeps_ite {c : Prop} [Decidable c] {m' : Prog φ S E α} (hm : Keeps g m)
    (hm' : Keeps g m') : Keeps g (if c then m else m') := by
  split
  · exact hm
  · exact hm'

theorem keeps_loop {stuck : φ} {body : β → Prog φ S E (Step β α)} (hbody : ∀ b, Keeps g (body b))
    {fuel : ℕ} {b : β} : Keeps g (Prog.loop stuck fuel body b) := by
  induction fuel generalizing b with
  | zero => exact keeps_fault
  | succ fuel ih =>
    apply keeps_bind (hbody b)
    intro r
    cases r with
    | next b' => exact ih
    | done a => exact keeps_pure

theorem keeps_finally {c : S → Except φ S} (hm : Keeps g m)
    (hc : ∀ s t, c s = .ok t → g t = g s) : Keeps g (Prog.finally_ m c) := by
  intro s r t hr
  unfold Prog.finally_ at hr
  have hms := hm s
  rcases hs : m s with x | ⟨r', u⟩
  · rw [hs] at hr
    cases hr
  · rw [hs] at hr
    dsimp only at hr
    rcases hu : c u with x | w
    · rw [hu] at hr
      cases hr
    · rw [hu] at hr
      cases hr
      have hk := hms _ _ hs
      have hcw := hc _ _ hu
      cases r with
      | ok a => exact hcw.trans hk
      | error e => exact hcw.trans hk

/-- A program that keeps `g`, followed by one that starts from the same `g`. -/
theorem Keeps.wlp_bind {Q' : β → S → Prop} (hm : Keeps g m)
    (hf : ∀ a t, g t = g s → wlp (f a) Q' R t) (hR : ∀ e t, g t = g s → R e t) :
    wlp (m >>= f) Q' R s := by
  apply wlp_seq (Q := fun _ t => g t = g s)
  · exact wlp_mono (hm s) (fun _ _ h => h) hR
  · exact hf

end WeavePy.Prog
