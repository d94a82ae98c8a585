import WeavePy.Lib.Hoare

/-!
Two programs run side by side from two states: they fault alike, fail alike, or return, and then a
relation holds of what they return and of where they end.
-/

namespace WeavePy.Prog

variable {φ S T E α β γ δ : Type}

/-- How two runs end alike. -/
inductive Ends (Q : α → β → S → T → Prop) :
    Except φ (Except E α × S) → Except φ (Except E β × T) → Prop
  | fault (x : φ) : Ends Q (.error x) (.error x)
  | error (e : E) (s : S) (t : T) : Ends Q (.ok (.error e, s)) (.ok (.error e, t))
  | value {a : α} {b : β} {s : S} {t : T} : Q a b s t → Ends Q (.ok (.ok a, s)) (.ok (.ok b, t))

/-- From `s` and `t` the two programs end alike, with `Q` between their results. -/
def Paired (m : Prog φ S E α) (n : Prog φ T E β) (Q : α → β → S → T → Prop) (s : S) (t : T) : Prop :=
  Ends Q (m s) (n t)

variable {m : Prog φ S E α} {n : Prog φ T E β} {Q : α → β → S → T → Prop} {s : S} {t : T}

theorem ends_cases {u : Except φ (Except E α × S)} {v : Except φ (Except E β × T)} (h : Ends Q u v) :
    (∃ x, u = .error x ∧ v = .error x) ∨
      (∃ e s t, u = .ok (.error e, s) ∧ v = .ok (.error e, t)) ∨
      ∃ a b s t, u = .ok (.ok a, s) ∧ v = .ok (.ok b, t) ∧ Q a b s t := by
  cases h with
  | fault x => exact .inl ⟨x, rfl, rfl⟩
  | error e s t => exact .inr (.inl ⟨e, s, t, rfl, rfl⟩)
  | value hq => exact .inr (.inr ⟨_, _, _, _, rfl, rfl, hq⟩)

theorem paired_pure {a : α} {b : β} (h : Q a b s t) :
    Paired (pure a : Prog φ S E α) (pure b : Prog φ T E β) Q s t := .value h

theorem paired_gets {f : S → α} {g : T → β} (h : Q (f s) (g t) s t) :
    Paired (gets f : Prog φ S E α) (gets g : Prog φ T E β) Q s t := .value h

theorem paired_modify {f : S → S} {g : T → T} {Q : Unit → Unit → S → T → Prop}
    (h : Q () () (f s) (g t)) :
    Paired (modify f : Prog φ S E Unit) (modify g : Prog φ T E Unit) Q s t := .value h

theorem paired_raise {e : E} :
    Paired (raise e : Prog φ S E α) (raise e : Prog φ T E β) Q s t := .error e s t

theorem paired_fault {x : φ} :
    Paired (fault x : Prog φ S E α) (fault x : Prog φ T E β) Q s t := .fault x

theorem paired_seq {f : α → Prog φ S E γ} {g : β → Prog φ T E δ} {R : γ → δ → S → T → Prop}
    (h : Paired m n Q s t) (hf : ∀ a b u v, Q a b u v → Paired (f a) (g b) R u v) :
    Paired (m >>= f) (n >>= g) R s t := by
  unfold Paired
  dsimp only [bind]
  rcases ends_cases h with ⟨x, hm, hn⟩ | ⟨e, u, v, hm, hn⟩ | ⟨a, b, u, v, hm, hn, hq⟩
  · rw [hm, hn]
    exact .fault x
  · rw [hm, hn]
    exact .error e u v
  · rw [hm, hn]
    exact hf a b u v hq

theorem paired_bind {f : α → Prog φ S E γ} {g : β → Prog φ T E δ} {R : γ → δ → S → T → Prop}
    (h : Paired m n (fun a b u v => Paired (f a) (g b) R u v) s t) :
    Paired (m >>= f) (n >>= g) R s t := paired_seq h fun _ _ _ _ hq => hq

theorem paired_mono {R : α → β → S → T → Prop} (h : Paired m n Q s t)
    (hR : ∀ a b u v, Q a b u v → R a b u v) : Paired m n R s t := by
  rcases ends_cases h with ⟨x, hm, hn⟩ | ⟨e, u, v, hm, hn⟩ | ⟨a, b, u, v, hm, hn, hq⟩
  · unfold Paired
    rw [hm, hn]
    exact .fault x
  · unfold Paired
    rw [hm, hn]
    exact .error e u v
  · unfold Paired
    rw [hm, hn]
    exact .value (hR a b u v hq)

/-- An operation that does not look at the state. -/
def lift (x : Except φ α) : Prog φ S E α := fun s => x.map fun a => (.ok a, s)

theorem paired_lift {x : Except φ α} {Q : α → α → S → T → Prop} (h : ∀ a, x = .ok a → Q a a s t) :
    Paired (lift x : Prog φ S E α) (lift x : Prog φ T E α) Q s t := by
  cases x with
  | error x => exact .fault x
  | ok a => exact .value (h a rfl)

/-- Both programs go the same way. -/
theorem paired_ite {c : Prop} [Decidable c] {m' : Prog φ S E α} {n' : Prog φ T E β}
    (ht : c → Paired m n Q s t) (he : ¬ c → Paired m' n' Q s t) :
    Paired (if c then m else m') (if c then n else n') Q s t := by
  by_cases hc : c
  · rw [if_pos hc, if_pos hc]
    exact ht hc
  · rw [if_neg hc, if_neg hc]
    exact he hc

theorem paired_finally {f : S → S} {g : T → T}
    (h : Paired m n (fun a b u v => Q a b (f u) (g v)) s t) :
    Paired (finally_ m fun u => .ok (f u)) (finally_ n fun v => .ok (g v)) Q s t := by
  unfold Paired finally_
  rcases ends_cases h with ⟨x, hm, hn⟩ | ⟨e, u, v, hm, hn⟩ | ⟨a, b, u, v, hm, hn, hq⟩
  · rw [hm, hn]
    exact .fault x
  · rw [hm, hn]
    exact .error e _ _
  · rw [hm, hn]
    exact .value hq

/-- Where an error is raised, `f` still runs. -/
def onError (m : Prog φ S E α) (f : S → S) : Prog φ S E α := fun s =>
  match m s with
  | .ok (.error e, t) => .ok (.error e, f t)
  | r => r

theorem paired_onError {f : S → S} {g : T → T} (h : Paired m n Q s t) :
    Paired (onError m f) (onError n g) Q s t := by
  unfold Paired onError
  rcases ends_cases h with ⟨x, hm, hn⟩ | ⟨e, u, v, hm, hn⟩ | ⟨a, b, u, v, hm, hn, hq⟩
  · rw [hm, hn]
    exact .fault x
  · rw [hm, hn]
    exact .error e _ _
  · rw [hm, hn]
    exact .value hq

/-- What two passes through loop bodies decide alike. -/
inductive Steps (inv : γ → S → T → Prop) (Q : α → β → S → T → Prop) :
    Step γ α → Step γ β → S → T → Prop
  | next {c : γ} {s : S} {t : T} : inv c s t → Steps inv Q (.next c) (.next c) s t
  | done {a : α} {b : β} {s : S} {t : T} : Q a b s t → Steps inv Q (.done a) (.done b) s t

theorem paired_loop {stuck : φ} {body : γ → Prog φ S E (Step γ α)}
    {body' : γ → Prog φ T E (Step γ β)} (inv : γ → S → T → Prop)
    (hbody : ∀ c u v, inv c u v → Paired (body c) (body' c) (Steps inv Q) u v) {fuel : ℕ} {c : γ}
    (hinv : inv c s t) : Paired (loop stuck fuel body c) (loop stuck fuel body' c) Q s t := by
  induction fuel generalizing c s t with
  | zero => exact .fault stuck
  | succ fuel ih =>
    apply paired_seq (hbody c s t hinv)
    intro r r' u v hr
    cases hr with
    | next hinv => exact ih hinv
    | done hq => exact paired_pure hq

end WeavePy.Prog
