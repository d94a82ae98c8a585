import WeavePy.Rust

/-!
Two runs of one program over two forms of its input, side by side: both end, with the same state and
with related results.
-/

namespace WeavePy

/-- A computation over a state that can fail, or go wrong. -/
abbrev Comp (σ ε : Type) := ExceptT ε (StateT σ Outcome)

section

variable {σ ε ε₁ ε₂ α β γ δ : Type} {E : ε₁ → ε₂ → Prop} {q : α → β → Prop} {r : γ → δ → Prop}

/-- A call of foreign code. -/
def Comp.call (f : σ → Except ε α × σ) : Comp σ ε α :=
  fun s => Except.ok (ε := Fault) (f s)

/-- An operation that may fault. -/
def Comp.lift (x : Outcome α) : Comp σ ε α := fun s => x.map fun a => (Except.ok (ε := ε) a, s)

def Comp.modify (f : σ → σ) : Comp σ ε Unit := fun s => Except.ok (ε := Fault) (.ok (), f s)

/-- The two results of runs that both end. -/
inductive BothEnd (E : ε₁ → ε₂ → Prop) (q : α → β → Prop) :
    Outcome (Except ε₁ α × σ) → Outcome (Except ε₂ β × σ) → Prop
  | value {a : α} {b : β} {s : σ} : q a b → BothEnd E q (.ok (.ok a, s)) (.ok (.ok b, s))
  | error {e : ε₁} {f : ε₂} {s : σ} : E e f → BothEnd E q (.ok (.error e, s)) (.ok (.error f, s))

/-- From every state the two computations end alike. -/
def Related (E : ε₁ → ε₂ → Prop) (q : α → β → Prop) (x : Comp σ ε₁ α) (y : Comp σ ε₂ β) : Prop :=
  ∀ s, BothEnd E q (x s) (y s)

variable {x : Comp σ ε₁ α} {y : Comp σ ε₂ β}

theorem bothEnd_cases {u : Outcome (Except ε₁ α × σ)} {v : Outcome (Except ε₂ β × σ)}
    (h : BothEnd E q u v) :
    (∃ a b s, u = .ok (.ok a, s) ∧ v = .ok (.ok b, s) ∧ q a b) ∨
      ∃ e f s, u = .ok (.error e, s) ∧ v = .ok (.error f, s) ∧ E e f := by
  cases h with
  | value hq => exact .inl ⟨_, _, _, rfl, rfl, hq⟩
  | error he => exact .inr ⟨_, _, _, rfl, rfl, he⟩

section Runs

variable {z : Comp σ ε α} {k : α → Comp σ ε γ} {h : ε → Comp σ ε α} {a : α} {e : ε} {s t : σ}

theorem comp_bind_value (hz : z s = .ok (.ok a, t)) : (z >>= k) s = k a t := by
  change Except.bind (z s) _ = _
  rw [hz]
  rfl

theorem comp_bind_error (hz : z s = .ok (.error e, t)) : (z >>= k) s = .ok (.error e, t) := by
  change Except.bind (z s) _ = _
  rw [hz]
  rfl

theorem comp_catch_value (hz : z s = .ok (.ok a, t)) : tryCatch z h s = .ok (.ok a, t) := by
  change Except.bind (z s) _ = _
  rw [hz]
  rfl

theorem comp_catch_error (hz : z s = .ok (.error e, t)) : tryCatch z h s = h e t := by
  change Except.bind (z s) _ = _
  rw [hz]
  rfl

end Runs

theorem related_pure {a : α} {b : β} (h : q a b) :
    Related E q (pure a : Comp σ ε₁ α) (pure b : Comp σ ε₂ β) := fun _ => .value h

theorem related_throw {e : ε₁} {f : ε₂} (h : E e f) :
    Related E q (throw e : Comp σ ε₁ α) (throw f : Comp σ ε₂ β) := fun _ => .error h

theorem related_bind (h : Related E q x y) {k : α → Comp σ ε₁ γ} {m : β → Comp σ ε₂ δ}
    (hk : ∀ a b, q a b → Related E r (k a) (m b)) : Related E r (x >>= k) (y >>= m) := by
  intro s
  rcases bothEnd_cases (h s) with ⟨a, b, t, hx, hy, hq⟩ | ⟨e, f, t, hx, hy, he⟩
  · rw [comp_bind_value hx, comp_bind_value hy]
    exact hk a b hq t
  · rw [comp_bind_error hx, comp_bind_error hy]
    exact .error he

theorem related_mono (h : Related E q x y) {q' : α → β → Prop} (hq : ∀ a b, q a b → q' a b) :
    Related E q' x y := by
  intro s
  rcases bothEnd_cases (h s) with ⟨a, b, t, hx, hy, hab⟩ | ⟨e, f, t, hx, hy, he⟩
  · rw [hx, hy]
    exact .value (hq a b hab)
  · rw [hx, hy]
    exact .error he

/-- The handlers of related failures are related. -/
theorem related_catch {F : ε₁ → ε₂ → Prop} (h : Related E q x y) {k : ε₁ → Comp σ ε₁ α}
    {m : ε₂ → Comp σ ε₂ β} (hk : ∀ e f, E e f → Related F q (k e) (m f)) :
    Related F q (tryCatch x k) (tryCatch y m) := by
  intro s
  rcases bothEnd_cases (h s) with ⟨a, b, t, hx, hy, hab⟩ | ⟨e, f, t, hx, hy, he⟩
  · rw [comp_catch_value hx, comp_catch_value hy]
    exact .value hab
  · rw [comp_catch_error hx, comp_catch_error hy]
    exact hk e f he t

theorem related_call {f : σ → Except ε₁ α × σ} {g : σ → Except ε₂ α × σ}
    (h : ∀ s, (f s).2 = (g s).2 ∧ match (f s).1, (g s).1 with
      | .ok a, .ok b => a = b
      | .error e, .error e' => E e e'
      | _, _ => False) : Related E Eq (Comp.call f) (Comp.call g) := by
  intro s
  obtain ⟨hs, hr⟩ := h s
  change BothEnd E Eq (.ok (f s)) (.ok (g s))
  rcases hf : f s with ⟨a, t⟩
  rcases hg : g s with ⟨b, t'⟩
  rw [hf, hg] at hs hr
  obtain rfl : t = t' := hs
  cases a with
  | ok a =>
    cases b with
    | ok b => exact .value hr
    | error e' => exact hr.elim
  | error e =>
    cases b with
    | ok b => exact hr.elim
    | error e' => exact .error hr

/-- Operations that do not fault, on either side. -/
theorem related_lift {u : Outcome α} {v : Outcome β} {a : α} {b : β} (hu : u = .ok a)
    (hv : v = .ok b) (h : q a b) :
    Related E q (Comp.lift u : Comp σ ε₁ α) (Comp.lift v : Comp σ ε₂ β) := by
  rw [hu, hv]
  exact fun _ => .value h

theorem related_modify (f : σ → σ) :
    Related E Eq (Comp.modify f : Comp σ ε₁ Unit) (Comp.modify f : Comp σ ε₂ Unit) :=
  fun _ => .value rfl

end

end WeavePy
