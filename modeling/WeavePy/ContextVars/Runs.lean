import WeavePy.ContextVars.Isolation

/-!
Runs: what each context shows, and what a set and a reset change.
-/

namespace WeavePy.ContextVars

variable {Var V : Type}

/-- The map a context shows, while it lives. -/
def State.shown (st : State Var V) (c : ℕ) : Option (Dict Var V) :=
  st.contexts[c]?.join.map fun x => dictAt st.heap x.data

def State.snapshot (st : State Var V) (s : ℕ) : Option (Dict Var V) := st.snapshots[s]?.join.map (dictAt st.heap)

def Model.shown (m : Model Var V) (c : ℕ) : Option (Dict Var V) := m.contexts[c]?.join.map Owned.dict

section Shown

variable {st : State Var V} {m : Model Var V} {c c' : ℕ}

theorem Shows.shown_eq (h : Shows 0 st m) (c : ℕ) : st.shown c = m.shown c := by
  unfold State.shown Model.shown
  rw [h.contexts, List.getElem?_map]
  rcases st.contexts[c]? with _ | _ | x <;> rfl

theorem Shows.snapshot_eq (h : Shows 0 st m) (s : ℕ) : st.snapshot s = m.snapshots[s]?.join := by
  unfold State.snapshot
  rw [h.snapshots, List.getElem?_map]
  rcases st.snapshots[s]? with _ | _ | x <;> rfl

theorem shown_currentContext (hc : c < m.contexts.length) : m.currentContext.1.shown c = m.shown c := by
  unfold Model.currentContext
  cases m.current with
  | some _ => rfl
  | none =>
    unfold Model.newContext Model.shown
    dsimp only
    rw [List.getElem?_append_left hc]

theorem snapshots_currentContext : m.currentContext.1.snapshots = m.snapshots := by
  unfold Model.currentContext
  cases m.current <;> rfl

theorem tokens_currentContext : m.currentContext.1.tokens = m.tokens := by
  unfold Model.currentContext
  cases m.current <;> rfl

variable [DecidableEq Var] {var : Var} {b : Option (Value V)}

theorem shown_bind_of_ne (hne : c' ≠ c) : (m.bind c var b).shown c' = m.shown c' := by
  unfold Model.bind Model.setDict Model.shown
  dsimp only
  rw [List.getElem?_modify]
  simp only [if_neg hne.symm, id_map']

theorem lookup_binding (d : Dict Var V) (var' : Var) :
    (b.elim (d.remove var) (d.store var)).lookup var' = if var' = var then b else d.lookup var' := by
  cases b with
  | none => exact OrderedMap.lookup_remove d var var'
  | some v => exact OrderedMap.lookup_store d var var' v

/-- What the current context binds. -/
def State.binding (st : State Var V) (var : Var) : Option (Value V) :=
  (st.current.bind st.shown).bind fun d => d.lookup var

def Model.binding (m : Model Var V) (var : Var) : Option (Value V) := (m.current.bind m.shown).bind fun d => d.lookup var

theorem Shows.binding_eq (h : Shows 0 st m) (var : Var) : st.binding var = m.binding var := by
  unfold State.binding Model.binding
  rw [h.current, funext h.shown_eq]

theorem binding_currentContext (var : Var) : m.currentContext.1.binding var = m.binding var := by
  unfold Model.binding Model.currentContext
  cases hc : m.current with
  | some c => rw [hc]
  | none =>
    unfold Model.newContext Model.shown
    dsimp only [Option.bind_some, Option.bind_none]
    rw [List.getElem?_concat_length]
    rfl

omit [DecidableEq Var] in
theorem current_currentContext : m.currentContext.1.current = some m.currentContext.2 := by
  unfold Model.currentContext
  cases hc : m.current with
  | some c => exact hc
  | none => rfl

theorem binding_bind {d : Dict Var V} (hc : m.current = some c) (hd : m.shown c = some d) (var' : Var) :
    (m.bind c var b).binding var' = if var' = var then b else m.binding var' := by
  have hdict : m.dict c = d := by
    unfold Model.shown at hd
    unfold Model.dict
    obtain ⟨x, hx, rfl⟩ := Option.map_eq_some_iff.mp hd
    rw [hx]
    rfl
  have hshown : (m.bind c var b).shown c = some (b.elim (d.remove var) (d.store var)) := by
    unfold Model.shown at hd ⊢
    unfold Model.bind Model.setDict
    dsimp only
    obtain ⟨x, hx, rfl⟩ := Option.map_eq_some_iff.mp hd
    have ho := Option.join_eq_some_iff.mp hx
    have hdict' : m.dict c = x.dict := by
      unfold Model.dict
      rw [hx]
      rfl
    rw [modify_of_some ho, List.getElem?_set_self (List.getElem?_eq_some_iff.mp ho).1, hdict']
    rfl
  have hcurrent : (m.bind c var b).current = some c := hc
  unfold Model.binding
  rw [hcurrent, hc, Option.bind_some, Option.bind_some, hshown, hd]
  exact lookup_binding d var'

end Shown

/-- A write shows in the current context alone. -/
def Isolated (st st' : State Var V) : Prop :=
  (∀ c < st.contexts.length, st.current ≠ some c → st'.shown c = st.shown c) ∧ ∀ s, st'.snapshot s = st.snapshot s

section Runs

variable [DecidableEq Var] {defaultOf : Var → Value V} {st st' : State Var V} {m : Model Var V}

/-- What a set and a reset do: the token of a set is kept with the binding it replaced, and a reset that
goes ahead restores that binding, or its absence. -/
def Op.Writes (st st' : State Var V) (m : Model Var V) (r : Model Var V × Reply Var V) : Op Var V → Prop
  | .set var value => Isolated st st' ∧ r.2 = .token m.tokens.length ∧
      r.1.tokens = m.tokens ++ [some ⟨var, st.binding var, false, m.currentContext.2⟩] ∧
      ∀ var', st'.binding var' = if var' = var then some value else st.binding var'
  | .reset var t => Isolated st st' ∧ ∀ u, m.tokens[t]? = some (some u) → r.2 = .none →
      ∀ var', st'.binding var' = if var' = var then u.replaced else st.binding var'
  | _ => True

inductive Reachable (defaultOf : Var → Value V) : State Var V → Model Var V → Prop
  | new : Reachable defaultOf .new .new
  | step {st st' : State Var V} {m : Model Var V} {r : Reply Var V} (h : Reachable defaultOf st m) (op : Op Var V)
      (ha : st.Allowed op) (hr : m.Restorable op) (hrun : st.step defaultOf op = .ok (st', r)) :
      Reachable defaultOf st' (m.step defaultOf op).1

theorem Reachable.shows (h : Reachable defaultOf st m) : Shows 0 st m := by
  induction h with
  | new => exact shows_new
  | step _ op ha hr hrun ih =>
    obtain ⟨st', hrun', hshows⟩ := @step_shows _ _ _ defaultOf _ _ _ ih ha hr
    rw [hrun'] at hrun
    cases hrun
    exact hshows

omit [DecidableEq Var] in
theorem Shows.isolated {m' : Model Var V} (h : Shows 0 st m) (h' : Shows 0 st' m')
    (hshown : ∀ c < m.contexts.length, c ≠ m.currentContext.2 → m'.shown c = m.shown c)
    (hsnapshots : m'.snapshots = m.snapshots) : Isolated st st' := by
  refine ⟨fun c hc hne => ?_, fun s => ?_⟩
  · rw [← h.length_contexts] at hc
    rw [h.shown_eq, h'.shown_eq]
    apply hshown c hc
    unfold Model.currentContext
    rw [h.current]
    cases hcur : st.current with
    | some c' => exact fun heq => hne (by rw [hcur, heq])
    | none => exact Nat.ne_of_lt hc
  · rw [h.snapshot_eq, h'.snapshot_eq, hsnapshots]

omit [DecidableEq Var] in
theorem exists_shown (h : Shows 0 st m) : ∃ d, m.currentContext.1.shown m.currentContext.2 = some d := by
  obtain ⟨hcurrent, hsame, hset⟩ := h.currentContext
  obtain ⟨ctx, hc⟩ := hcurrent.live _ hset
  rw [← hsame, ← hcurrent.shown_eq]
  unfold State.shown
  rw [hc]
  exact ⟨_, rfl⟩

theorem writes_set (h : Shows 0 st m) {var : Var} {value : Value V} (h' : Shows 0 st' (m.set var value).1) :
    (Op.set var value).Writes st st' m (m.set var value) := by
  obtain ⟨d, hd⟩ := exists_shown h
  refine ⟨h.isolated h' (fun c hc hne => ?_) snapshots_currentContext, ?_, ?_, fun var' => ?_⟩
  · show (m.currentContext.1.bind m.currentContext.2 var (some value)).shown c = _
    rw [shown_bind_of_ne hne, shown_currentContext hc]
  · show Reply.token m.currentContext.1.tokens.length = _
    rw [tokens_currentContext]
  · show m.currentContext.1.tokens ++
      [some ⟨var, (m.currentContext.1.dict m.currentContext.2).lookup var, false, m.currentContext.2⟩] = _
    have hbinding : (m.currentContext.1.dict m.currentContext.2).lookup var = st.binding var := by
      rw [h.binding_eq, ← binding_currentContext]
      unfold Model.binding
      rw [current_currentContext, Option.bind_some, hd]
      unfold Model.shown at hd
      unfold Model.dict
      obtain ⟨x, hx, rfl⟩ := Option.map_eq_some_iff.mp hd
      rw [hx]
      rfl
    rw [tokens_currentContext, hbinding]
  · rw [h'.binding_eq, h.binding_eq, ← binding_currentContext (m := m)]
    exact binding_bind current_currentContext hd var'

theorem writes_undo (h : Shows 0 st m) {var : Var} {t : ℕ} {u : Undo Var V} (h' : Shows 0 st' (m.undo var t u).1) :
    Isolated st st' ∧ ((m.undo var t u).2 = .none →
      ∀ var', st'.binding var' = if var' = var then u.replaced else st.binding var') := by
  unfold Model.undo at h' ⊢
  split_ifs at h' ⊢ with hused hvar
  · exact ⟨h.isolated h' (fun _ _ _ => rfl) rfl, nofun⟩
  · exact ⟨h.isolated h' (fun _ _ _ => rfl) rfl, nofun⟩
  · dsimp only at h' ⊢
    split_ifs at h' ⊢ with hctx
    · exact ⟨h.isolated h' (fun c hc _ => shown_currentContext hc) snapshots_currentContext, nofun⟩
    · obtain ⟨d, hd⟩ := exists_shown h
      refine ⟨h.isolated h' (fun c hc hne => ?_) snapshots_currentContext, fun _ var' => ?_⟩
      · show (m.currentContext.1.bind m.currentContext.2 var u.replaced).shown c = _
        rw [shown_bind_of_ne hne, shown_currentContext hc]
      · rw [h'.binding_eq, h.binding_eq, ← binding_currentContext (m := m)]
        exact binding_bind current_currentContext hd var'

theorem writes_reset (h : Shows 0 st m) {var : Var} {t : ℕ} (h' : Shows 0 st' (m.step defaultOf (.reset var t)).1) :
    (Op.reset var t).Writes st st' m (m.step defaultOf (.reset var t)) := by
  unfold Op.Writes Model.step at *
  dsimp only at h' ⊢
  cases ht : m.tokens[t]?.join with
  | none =>
    rw [ht] at h'
    refine ⟨h.isolated h' (fun _ _ _ => rfl) rfl, fun u hu => ?_⟩
    rw [hu] at ht
    cases ht
  | some u =>
    rw [ht] at h'
    obtain ⟨hisolated, hrestores⟩ := writes_undo h h'
    refine ⟨hisolated, fun u' hu' hreply => ?_⟩
    rw [hu'] at ht
    cases ht
    exact hrestores hreply

/-- In every run that resets no binding to `Token.MISSING` itself, contexts and snapshots show the maps
they would own by value, and every operation replies and goes on as if they did. -/
theorem reachable_isolated (h : Reachable defaultOf st m) :
    (∀ c, st.shown c = m.shown c) ∧ (∀ s : ℕ, st.snapshot s = m.snapshots[s]?.join) ∧
    ∀ op, st.Allowed op → m.Restorable op → ∃ st', st.step defaultOf op = .ok (st', (m.step defaultOf op).2) ∧
      Reachable defaultOf st' (m.step defaultOf op).1 ∧ op.Writes st st' m (m.step defaultOf op) := by
  refine ⟨h.shows.shown_eq, h.shows.snapshot_eq, fun op ha hr => ?_⟩
  obtain ⟨st', hrun, hshows⟩ := @step_shows _ _ _ defaultOf _ _ _ h.shows ha hr
  refine ⟨st', hrun, h.step op ha hr hrun, ?_⟩
  cases op with
  | set var value => exact writes_set h.shows hshows
  | reset var t => exact writes_reset h.shows hshows
  | _ => trivial

end Runs

/-- A copy's write is its own. -/
theorem reachable_isolated_copy : ∃ st : State ℕ ℕ,
    st.shown 0 = some [(0, .obj 1)] ∧ st.shown 1 = some [(0, .obj 2)] ∧ st.snapshot 0 = some [(0, .obj 1)] := by
  have h₀ : Reachable (fun _ => .missing) (.new : State ℕ ℕ) .new := .new
  have h₁ := h₀.step (.set 0 (.obj 1)) trivial trivial rfl
  have h₂ := h₁.step .copyContext trivial trivial rfl
  have h₃ := h₂.step .currentData trivial trivial rfl
  have h₄ := h₃.step (.run 1) ⟨_, rfl⟩ trivial rfl
  have h₅ := h₄.step (.set 0 (.obj 2)) trivial trivial rfl
  obtain ⟨hshown, hsnapshot, -⟩ := reachable_isolated h₅
  exact ⟨_, hshown 0, hshown 1, hsnapshot 0⟩

/-- The binding to `Token.MISSING` that the second set replaced is not restored. -/
theorem reset_forgets_missing : ∃ st₁ st₂ st₃ : State ℕ ℕ,
    State.new.step (fun _ => .missing) (.set 0 .missing) = .ok (st₁, .token 0) ∧
      st₁.step (fun _ => .missing) (.set 0 (.obj 1)) = .ok (st₂, .token 1) ∧
      st₂.step (fun _ => .missing) (.reset 0 1) = .ok (st₃, .none) ∧
      st₁.binding 0 = some .missing ∧ st₃.binding 0 = none ∧
      st₃.step (fun _ => .missing) (.get 0 none) = .ok (st₃, .lookupError 0) :=
  ⟨_, _, _, rfl, rfl, rfl, rfl, rfl, rfl⟩

end WeavePy.ContextVars
