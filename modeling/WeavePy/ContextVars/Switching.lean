import Mathlib.Data.List.Basic
import Mathlib.Data.List.Nodup

/-!
Switches of the current context on one thread: `Context.run`, `_enter_context` and `_exit_context`.
-/

namespace WeavePy.ContextVars.Switching

structure Slots where
  entered : Bool
  prev : Option ℕ

/-- A `Context.run` in progress: its context, the one it replaced, and whether a hook was set. -/
structure Frame where
  ctx : ℕ
  prev : Option ℕ
  hooked : Bool

structure State where
  contexts : List Slots
  current : Option ℕ
  hookSet : Bool
  frames : List Frame

inductive Error where
  /-- `RuntimeError`: cannot enter context: it is already entered. -/
  | alreadyEntered
  /-- `RuntimeError`: cannot exit context: it has not been entered. -/
  | notEntered
  /-- `RuntimeError`: must first exit all non-base contexts. -/
  | notBase
  /-- What the callable or a hook raised. -/
  | propagated

inductive Reply where
  | running
  | returned
  | raised (e : Error)

/-- What happens on the thread. A hook succeeds or raises, and switches no context itself. -/
inductive Event where
  | newContext
  | useCurrent
  | setHook (set : Bool)
  | clear
  | run (c : ℕ) (hookRaises : Bool)
  | finish (raised hookRaises : Bool)
  | enterContext (c : ℕ) (hookRaises : Bool)
  | exitContext (c : ℕ) (hookRaises : Bool)

namespace State

def new : State := ⟨[], none, false, []⟩

variable (st : State)

def marked (c : ℕ) : Bool := st.contexts[c]?.elim false Slots.entered

/-- Whether the switch hook raises, if it is set. -/
def fireSwitchHook (raises : Bool) : Bool := st.hookSet && raises

/-- Marks the context and makes it current, with the one that was. -/
def enter (c : ℕ) (x : Slots) : Except Error (State × Option ℕ) :=
  if x.entered then .error .alreadyEntered
  else .ok ({ st with contexts := st.contexts.set c { x with entered := true }, current := some c }, st.current)

def exit (c : ℕ) (prev : Option ℕ) : State :=
  { st with contexts := st.contexts.modify c fun x => { x with entered := false }, current := prev }

def setPrev (c : ℕ) (prev : Option ℕ) : State :=
  { st with contexts := st.contexts.modify c fun x => { x with prev } }

def outcome (raised : Bool) : Reply := if raised then .raised .propagated else .returned

/-- `run_in` up to the call. -/
def beginRun (c : ℕ) (x : Slots) (hookRaises : Bool) : State × Reply :=
  match st.enter c x with
  | .error e => (st, .raised e)
  | .ok (st', prev) =>
    if st'.fireSwitchHook hookRaises then (st'.exit c prev, .raised .propagated)
    else ({ st' with frames := ⟨c, prev, st.hookSet⟩ :: st.frames }, .running)

/-- `run_in` after the call. -/
def endRun (f : Frame) (frames : List Frame) (raised hookRaises : Bool) : State × Reply :=
  ({ st.exit f.ctx f.prev with frames }, outcome (raised || f.hooked && st.fireSwitchHook hookRaises))

def enterContext (c : ℕ) (x : Slots) (hookRaises : Bool) : State × Reply :=
  match st.enter c x with
  | .error e => (st, .raised e)
  | .ok (st', prev) => (st'.setPrev c prev, outcome (st.fireSwitchHook hookRaises))

def exitContext (c : ℕ) (x : Slots) (hookRaises : Bool) : State × Reply :=
  if x.entered then ((st.setPrev c none).exit c x.prev, outcome (st.fireSwitchHook hookRaises))
  else (st, .raised .notEntered)

def newContext : State := { st with contexts := st.contexts ++ [⟨false, none⟩] }

def useCurrent : State :=
  match st.current with
  | some _ => st
  | none => { st.newContext with current := some st.contexts.length }

def clear : State × Reply :=
  match st.current with
  | none => (st, .returned)
  | some c => if st.marked c then (st, .raised .notBase) else ({ st with current := none }, .returned)

def step : Event → Option (State × Reply)
  | .newContext => some (st.newContext, .returned)
  | .useCurrent => some (st.useCurrent, .returned)
  | .setHook hookSet => some ({ st with hookSet }, .returned)
  | .clear => some st.clear
  | .run c hookRaises => st.contexts[c]?.map fun x => st.beginRun c x hookRaises
  | .finish raised hookRaises =>
    match st.frames with
    | [] => none
    | f :: frames => some (st.endRun f frames raised hookRaises)
  | .enterContext c hookRaises => st.contexts[c]?.map fun x => st.enterContext c x hookRaises
  | .exitContext c hookRaises => st.contexts[c]?.map fun x => st.exitContext c x hookRaises

end State

/-- Contexts exit in the order in which they were entered, each by the call that goes with its entry, and
the hooks of the two halves do not raise. -/
def Balanced (st : State) : Event → Prop
  | .finish _ _ => ∀ f ∈ st.frames.head?, st.current = some f.ctx
  | .enterContext c hookRaises => st.marked c = false → st.fireSwitchHook hookRaises = false
  | .exitContext c hookRaises => st.marked c = true →
    st.current = some c ∧ (∀ f ∈ st.frames, f.ctx ≠ c) ∧ st.fireSwitchHook hookRaises = false
  | _ => True

/-- The contexts from the current one down to the base, by what each run in progress keeps and by the
`_prev` slots of the others. -/
inductive Linked (contexts : List Slots) : List Frame → List ℕ → Option ℕ → Prop where
  | base (b : Option ℕ) : Linked contexts [] [] b
  | ran {frames : List Frame} {chain : List ℕ} {cur : Option ℕ} (c : ℕ) (hooked : Bool) :
    Linked contexts frames chain cur → Linked contexts (⟨c, cur, hooked⟩ :: frames) (c :: chain) (some c)
  | entered {frames : List Frame} {chain : List ℕ} {cur : Option ℕ} (c : ℕ) :
    Linked contexts frames chain cur → contexts[c]?.map Slots.prev = some cur →
      Linked contexts frames (c :: chain) (some c)

/-- The chain is the stack of the contexts that are marked. -/
structure StackOf (st : State) (chain : List ℕ) : Prop where
  linked : Linked st.contexts st.frames chain st.current
  nodup : chain.Nodup
  marked : ∀ c, st.marked c = true ↔ c ∈ chain

/-- What a balanced event does to the stack. -/
inductive Moved (st : State) (chain : List ℕ) (st' : State) : List ℕ → Prop where
  | stays : st'.frames = st.frames → Moved st chain st' chain
  | ran (c : ℕ) (hooked : Bool) : st'.frames = ⟨c, st.current, hooked⟩ :: st.frames → Moved st chain st' (c :: chain)
  | entered (c : ℕ) : st'.frames = st.frames → Moved st chain st' (c :: chain)
  | left (f : Frame) (rest : List ℕ) : chain = f.ctx :: rest → st.frames = f :: st'.frames → st'.current = f.prev →
    Moved st chain st' rest
  | exited (c : ℕ) (rest : List ℕ) : chain = c :: rest → st'.frames = st.frames → (∀ f ∈ st.frames, f.ctx ≠ c) →
    Moved st chain st' rest

section Slots

variable {st : State} {c : ℕ} {x : Slots}

theorem marked_of_getElem? (h : st.contexts[c]? = some x) : st.marked c = x.entered := by
  unfold State.marked
  rw [h]
  rfl

theorem marked_exit (st : State) (c : ℕ) (prev : Option ℕ) (d : ℕ) :
    (st.exit c prev).marked d = true ↔ d ≠ c ∧ st.marked d = true := by
  unfold State.marked State.exit
  dsimp only
  by_cases hd : c = d
  · subst hd
    rw [List.getElem?_modify_eq]
    cases st.contexts[c]? with
    | none => exact ⟨nofun, fun h => absurd rfl h.1⟩
    | some x => exact ⟨nofun, fun h => absurd rfl h.1⟩
  · rw [List.getElem?_modify_ne _ _ hd]
    exact ⟨fun h => ⟨Ne.symm hd, h⟩, And.right⟩

theorem marked_setPrev (st : State) (c : ℕ) (prev : Option ℕ) (d : ℕ) :
    (st.setPrev c prev).marked d = st.marked d := by
  unfold State.marked State.setPrev
  dsimp only
  rw [List.getElem?_modify]
  cases st.contexts[d]? with
  | none => split_ifs <;> rfl
  | some x => split_ifs <;> rfl

theorem marked_newContext (st : State) (d : ℕ) : st.newContext.marked d = st.marked d := by
  unfold State.marked State.newContext
  dsimp only
  by_cases hd : d < st.contexts.length
  · rw [List.getElem?_append_left hd]
  · rw [List.getElem?_eq_none (Nat.le_of_not_lt hd)]
    cases h : (st.contexts ++ [⟨false, none⟩])[d]? with
    | none => rfl
    | some x =>
      rw [List.getElem?_append_right (Nat.le_of_not_lt hd)] at h
      obtain rfl := List.mem_singleton.mp (List.mem_of_getElem? h)
      rfl

/-- What `enter` does: nothing to a context that is entered. -/
theorem enter_eq (h : st.contexts[c]? = some x) : (st.marked c = true ∧ st.enter c x = .error .alreadyEntered) ∨
    st.marked c = false ∧ ∃ st' : State, st.enter c x = .ok (st', st.current) ∧ st'.current = some c ∧
      st'.frames = st.frames ∧ st'.hookSet = st.hookSet ∧ (∀ d : ℕ, st'.marked d = true ↔ d = c ∨ st.marked d = true) ∧
      ∀ d : ℕ, st'.contexts[d]?.map Slots.prev = st.contexts[d]?.map Slots.prev := by
  rw [marked_of_getElem? h]
  unfold State.enter
  cases hx : x.entered with
  | true => exact .inl ⟨rfl, rfl⟩
  | false =>
    refine .inr ⟨rfl, _, rfl, rfl, rfl, rfl, ?_, ?_⟩
    · intro d
      unfold State.marked
      dsimp only
      rw [List.getElem?_set]
      by_cases hd : c = d
      · subst hd
        rw [if_pos rfl, if_pos (List.getElem?_eq_some_iff.mp h).1]
        exact ⟨fun _ => .inl rfl, fun _ => rfl⟩
      · rw [if_neg hd]
        exact ⟨.inr, fun h => h.resolve_left (Ne.symm hd)⟩
    · intro d
      dsimp only
      rw [List.getElem?_set]
      by_cases hd : c = d
      · subst hd
        rw [if_pos rfl, if_pos (List.getElem?_eq_some_iff.mp h).1, h]
        rfl
      · rw [if_neg hd]

theorem prev_exit (st : State) (c : ℕ) (prev : Option ℕ) (d : ℕ) :
    (st.exit c prev).contexts[d]?.map Slots.prev = st.contexts[d]?.map Slots.prev := by
  unfold State.exit
  dsimp only
  rw [List.getElem?_modify]
  cases st.contexts[d]? with
  | none => rfl
  | some x => split_ifs <;> rfl

theorem prev_setPrev (st : State) {c d : ℕ} (prev : Option ℕ) (h : d ≠ c) :
    (st.setPrev c prev).contexts[d]?.map Slots.prev = st.contexts[d]?.map Slots.prev := by
  unfold State.setPrev
  dsimp only
  rw [List.getElem?_modify_ne _ _ h.symm]

theorem prev_setPrev_self (prev : Option ℕ) (h : st.contexts[c]? ≠ none) :
    (st.setPrev c prev).contexts[c]?.map Slots.prev = some prev := by
  unfold State.setPrev
  dsimp only
  rw [List.getElem?_modify_eq]
  cases hc : st.contexts[c]? with
  | none => exact absurd hc h
  | some x => rfl

end Slots

section Chain

variable {contexts contexts' : List Slots} {frames : List Frame} {chain : List ℕ} {cur : Option ℕ} {c : ℕ}

theorem Linked.congr (h : Linked contexts frames chain cur)
    (hprev : ∀ c ∈ chain, contexts'[c]?.map Slots.prev = contexts[c]?.map Slots.prev) :
    Linked contexts' frames chain cur := by
  induction h with
  | base b => exact .base b
  | ran c hooked _ ih =>
    apply Linked.ran
    exact ih fun d hd => hprev d (List.mem_cons_of_mem _ hd)
  | entered c _ hc ih =>
    apply Linked.entered
    · exact ih fun d hd => hprev d (List.mem_cons_of_mem _ hd)
    · rw [hprev c List.mem_cons_self, hc]

theorem Linked.head (h : Linked contexts frames (c :: chain) cur) : cur = some c := by
  cases h <;> rfl

theorem Linked.frames_nil (h : Linked contexts frames [] cur) : frames = [] := by
  cases h
  rfl

theorem Linked.sublist (h : Linked contexts frames chain cur) : (frames.map Frame.ctx).Sublist chain := by
  induction h with
  | base b => exact .slnil
  | ran c hooked _ ih => exact ih.cons_cons c
  | entered c _ _ ih => exact ih.cons c

theorem Linked.base_any (h : Linked contexts frames [] cur) (b : Option ℕ) : Linked contexts frames [] b := by
  cases h
  exact .base b

/-- A context in the chain that is current is at its head. -/
theorem Linked.eq_cons (h : Linked contexts frames chain cur) (hc : c ∈ chain) (hcur : cur = some c) :
    ∃ rest, chain = c :: rest := by
  cases chain with
  | nil => exact absurd hc List.not_mem_nil
  | cons d rest =>
    have hd := h.head
    rw [hcur] at hd
    cases hd
    exact ⟨rest, rfl⟩

/-- The current context, if no run has it, is over what its slot says. -/
theorem Linked.exited (h : Linked contexts frames (c :: chain) cur) (hc : ∀ f ∈ frames, f.ctx ≠ c) :
    ∃ prev, contexts[c]?.map Slots.prev = some prev ∧ Linked contexts frames chain prev := by
  cases h with
  | ran c hooked _ => exact absurd rfl (hc _ List.mem_cons_self)
  | entered c h hprev => exact ⟨_, hprev, h⟩

/-- The context of the innermost run, if it is current, is over what the run replaced. -/
theorem Linked.left {f : Frame} (h : Linked contexts (f :: frames) (f.ctx :: chain) cur) (hc : f.ctx ∉ chain) :
    Linked contexts frames chain f.prev := by
  cases h with
  | ran c hooked h => exact h
  | entered c h _ => exact absurd (h.sublist.subset List.mem_cons_self) hc

end Chain

section Steps

variable {st st' : State} {chain : List ℕ} {c : ℕ} {x : Slots} {hookRaises : Bool} {r : Reply}

/-- The same chain under other slots, as long as the slots in it are linked as they were. -/
theorem StackOf.congr (h : StackOf st chain) (hframes : st'.frames = st.frames) (hcurrent : st'.current = st.current)
    (hmarked : ∀ c, st'.marked c = st.marked c)
    (hprev : ∀ c ∈ chain, st'.contexts[c]?.map Slots.prev = st.contexts[c]?.map Slots.prev) : StackOf st' chain := by
  constructor
  · rw [hframes, hcurrent]
    exact h.linked.congr hprev
  · exact h.nodup
  · intro c
    rw [hmarked]
    exact h.marked c

theorem StackOf.exists_slots (h : StackOf st chain) (hc : c ∈ chain) : ∃ x, st.contexts[c]? = some x := by
  have hmarked := (h.marked c).mpr hc
  unfold State.marked at hmarked
  cases hx : st.contexts[c]? with
  | none =>
    rw [hx] at hmarked
    cases hmarked
  | some x => exact ⟨x, rfl⟩

theorem StackOf.newContext (h : StackOf st chain) : StackOf st.newContext chain := by
  refine h.congr rfl rfl (marked_newContext st) ?_
  intro c hc
  obtain ⟨x, hx⟩ := h.exists_slots hc
  unfold State.newContext
  dsimp only
  rw [List.getElem?_append_left (List.getElem?_eq_some_iff.mp hx).1]

/-- A base that is not on the stack may be replaced. -/
theorem StackOf.rebase (h : StackOf st []) (b : Option ℕ) : StackOf { st with current := b } [] :=
  ⟨h.linked.base_any b, h.nodup, h.marked⟩

theorem StackOf.nil_of_none (h : StackOf st chain) (hcurrent : st.current = none) : chain = [] := by
  cases chain with
  | nil => rfl
  | cons c rest =>
    have hhead := h.linked.head
    rw [hcurrent] at hhead
    cases hhead

theorem StackOf.useCurrent (h : StackOf st chain) : StackOf st.useCurrent chain := by
  unfold State.useCurrent
  cases hcurrent : st.current with
  | some c => exact h
  | none =>
    obtain rfl := h.nil_of_none hcurrent
    exact h.newContext.rebase _

theorem StackOf.nil_of_unmarked (h : StackOf st chain) (hcurrent : st.current = some c) (hc : st.marked c = false) :
    chain = [] := by
  cases chain with
  | nil => rfl
  | cons d rest =>
    have hhead := h.linked.head
    rw [hcurrent] at hhead
    cases hhead
    rw [(h.marked c).mpr List.mem_cons_self] at hc
    cases hc

theorem StackOf.clear (h : StackOf st chain) : StackOf st.clear.1 chain := by
  unfold State.clear
  cases hcurrent : st.current with
  | none => exact h
  | some c =>
    dsimp only
    split_ifs with hc
    · exact h
    · obtain rfl := h.nil_of_unmarked hcurrent (Bool.eq_false_iff.mpr hc)
      exact h.rebase none

theorem StackOf.beginRun (h : StackOf st chain) (hx : st.contexts[c]? = some x)
    (hstep : st.beginRun c x hookRaises = (st', r)) :
    ∃ chain', StackOf st' chain' ∧ Moved st chain st' chain' := by
  unfold State.beginRun at hstep
  obtain ⟨-, henter⟩ | ⟨hfree, st₁, henter, hcurrent, hframes, hhook, hmarked, hprev⟩ := enter_eq hx
  · rw [henter] at hstep
    cases hstep
    exact ⟨chain, h, .stays rfl⟩
  · have hnew : c ∉ chain := by
      intro hc
      rw [(h.marked c).mpr hc] at hfree
      cases hfree
    rw [henter] at hstep
    dsimp only at hstep
    split_ifs at hstep
    · cases hstep
      refine ⟨chain, h.congr hframes rfl ?_ ?_, .stays hframes⟩
      · intro d
        rw [Bool.eq_iff_iff, marked_exit, hmarked]
        constructor
        · rintro ⟨hne, hd⟩
          exact hd.resolve_left hne
        · intro hd
          refine ⟨?_, .inr hd⟩
          rintro rfl
          rw [hfree] at hd
          cases hd
      · intro d _
        rw [prev_exit, hprev]
    · cases hstep
      refine ⟨c :: chain, ⟨?_, ?_, ?_⟩, .ran c st.hookSet rfl⟩
      · dsimp only
        rw [hcurrent]
        apply Linked.ran
        exact h.linked.congr fun d _ => hprev d
      · exact List.nodup_cons.mpr ⟨hnew, h.nodup⟩
      · intro d
        rw [List.mem_cons, ← h.marked]
        exact hmarked d

theorem StackOf.enterContext (h : StackOf st chain) (hx : st.contexts[c]? = some x)
    (hstep : st.enterContext c x hookRaises = (st', r)) :
    ∃ chain', StackOf st' chain' ∧ Moved st chain st' chain' := by
  unfold State.enterContext at hstep
  obtain ⟨-, henter⟩ | ⟨hfree, st₁, henter, hcurrent, hframes, hhook, hmarked, hprev⟩ := enter_eq hx
  · rw [henter] at hstep
    cases hstep
    exact ⟨chain, h, .stays rfl⟩
  · have hnew : c ∉ chain := by
      intro hc
      rw [(h.marked c).mpr hc] at hfree
      cases hfree
    rw [henter] at hstep
    cases hstep
    refine ⟨c :: chain, ⟨?_, ?_, ?_⟩, .entered c hframes⟩
    · unfold State.setPrev
      dsimp only
      rw [hcurrent, hframes]
      apply Linked.entered
      · apply h.linked.congr
        intro d hd
        have hne : d ≠ c := fun hdc => hnew (hdc ▸ hd)
        exact (prev_setPrev st₁ st.current hne).trans (hprev d)
      · apply prev_setPrev_self
        intro hnone
        have hsome := hprev c
        rw [hx, hnone] at hsome
        cases hsome
    · exact List.nodup_cons.mpr ⟨hnew, h.nodup⟩
    · intro d
      rw [marked_setPrev, hmarked, List.mem_cons, h.marked]

/-- The head of the chain loses its mark and what is under it becomes current. -/
theorem StackOf.pop {rest : List ℕ} {frames : List Frame} {prev : Option ℕ} (h : StackOf st (c :: rest))
    (hlinked : Linked st.contexts frames rest prev) (hframes : st'.frames = frames) (hcurrent : st'.current = prev)
    (hmarked : ∀ d, st'.marked d = true ↔ d ≠ c ∧ st.marked d = true)
    (hprev : ∀ d ≠ c, st'.contexts[d]?.map Slots.prev = st.contexts[d]?.map Slots.prev) : StackOf st' rest := by
  have hnew := (List.nodup_cons.mp h.nodup).1
  constructor
  · rw [hframes, hcurrent]
    exact hlinked.congr fun d hd => hprev d fun hdc => hnew (hdc ▸ hd)
  · exact (List.nodup_cons.mp h.nodup).2
  · intro d
    rw [hmarked, h.marked, List.mem_cons]
    constructor
    · rintro ⟨hne, hd⟩
      exact hd.resolve_left hne
    · exact fun hd => ⟨fun hdc => hnew (hdc ▸ hd), .inr hd⟩

theorem StackOf.exitContext (h : StackOf st chain) (hx : st.contexts[c]? = some x)
    (hbalanced : Balanced st (.exitContext c hookRaises)) (hstep : st.exitContext c x hookRaises = (st', r)) :
    ∃ chain', StackOf st' chain' ∧ Moved st chain st' chain' := by
  unfold State.exitContext at hstep
  split_ifs at hstep with hentered
  · have hmarked : st.marked c = true := (marked_of_getElem? hx).trans hentered
    obtain ⟨hcurrent, hframes, -⟩ := hbalanced hmarked
    obtain ⟨rest, rfl⟩ := h.linked.eq_cons ((h.marked c).mp hmarked) hcurrent
    obtain ⟨prev, hprev, hlinked⟩ := h.linked.exited hframes
    rw [hx] at hprev
    cases hprev
    cases hstep
    refine ⟨rest, h.pop hlinked rfl rfl ?_ ?_, .exited c rest rfl rfl hframes⟩
    · intro d
      rw [marked_exit, marked_setPrev]
    · intro d hne
      rw [prev_exit, prev_setPrev _ _ hne]
  · cases hstep
    exact ⟨chain, h, .stays rfl⟩

theorem StackOf.endRun {f : Frame} {frames : List Frame} {raised : Bool} (h : StackOf st chain)
    (hframes : st.frames = f :: frames) (hcurrent : st.current = some f.ctx) :
    ∃ chain', StackOf (st.endRun f frames raised hookRaises).1 chain' ∧
      Moved st chain (st.endRun f frames raised hookRaises).1 chain' := by
  have hlinked := h.linked
  rw [hframes] at hlinked
  obtain ⟨rest, rfl⟩ := hlinked.eq_cons (hlinked.sublist.subset List.mem_cons_self) hcurrent
  have hrest := hlinked.left (List.nodup_cons.mp h.nodup).1
  exact ⟨rest, h.pop hrest rfl rfl (marked_exit st f.ctx f.prev) fun d _ => prev_exit st f.ctx f.prev d,
    .left f rest rfl hframes rfl⟩

/-- Each balanced event keeps the stack, and moves it by one context at most. -/
theorem StackOf.step (h : StackOf st chain) {e : Event} (hbalanced : Balanced st e) (hstep : st.step e = some (st', r)) :
    ∃ chain', StackOf st' chain' ∧ Moved st chain st' chain' := by
  cases e with
  | newContext =>
    cases hstep
    exact ⟨chain, h.newContext, .stays rfl⟩
  | useCurrent =>
    cases hstep
    refine ⟨chain, h.useCurrent, .stays ?_⟩
    unfold State.useCurrent
    split <;> rfl
  | setHook set =>
    cases hstep
    exact ⟨chain, ⟨h.linked, h.nodup, h.marked⟩, .stays rfl⟩
  | clear =>
    have hstep' := congrArg Prod.fst (Option.some.inj hstep)
    obtain rfl : st.clear.1 = st' := hstep'
    refine ⟨chain, h.clear, .stays ?_⟩
    unfold State.clear
    cases st.current with
    | none => rfl
    | some c =>
      dsimp only
      split_ifs <;> rfl
  | run c hookRaises =>
    obtain ⟨x, hx, hrun⟩ := Option.map_eq_some_iff.mp hstep
    exact h.beginRun hx hrun
  | enterContext c hookRaises =>
    obtain ⟨x, hx, hrun⟩ := Option.map_eq_some_iff.mp hstep
    exact h.enterContext hx hrun
  | exitContext c hookRaises =>
    obtain ⟨x, hx, hrun⟩ := Option.map_eq_some_iff.mp hstep
    exact h.exitContext hx hbalanced hrun
  | finish raised hookRaises =>
    unfold State.step at hstep
    dsimp only at hstep
    cases hframes : st.frames with
    | nil =>
      rw [hframes] at hstep
      cases hstep
    | cons f frames =>
      have hcurrent : st.current = some f.ctx := by
        apply hbalanced
        rw [hframes]
        rfl
      rw [hframes] at hstep
      dsimp only at hstep
      have hstep' := congrArg Prod.fst (Option.some.inj hstep)
      obtain rfl : (st.endRun f frames raised hookRaises).1 = st' := hstep'
      exact h.endRun hframes hcurrent

end Steps

section Runs

/-- The states of the runs whose events are all balanced. -/
inductive Reachable : State → Prop where
  | new : Reachable State.new
  | step {st st' : State} {e : Event} {r : Reply} :
    Reachable st → Balanced st e → st.step e = some (st', r) → Reachable st'

/-- The states inside a `Context.run` that began in `st₀`. -/
inductive Within (st₀ : State) : State → Prop where
  | began {st : State} {c : ℕ} {hookRaises : Bool} : st₀.step (.run c hookRaises) = some (st, .running) → Within st₀ st
  | step {st st' : State} {e : Event} {r : Reply} : Within st₀ st → Balanced st e → st.step e = some (st', r) →
    st₀.frames.length < st'.frames.length → Within st₀ st'

variable {st₀ st st' : State} {chain₀ chain : List ℕ} {e : Event} {r : Reply}

theorem reachable_stack (h : Reachable st) : ∃ chain, StackOf st chain := by
  induction h with
  | new => exact ⟨[], .base none, List.nodup_nil, fun c => ⟨nofun, nofun⟩⟩
  | step _ hbalanced hstep ih =>
    obtain ⟨chain, hchain⟩ := ih
    obtain ⟨chain', hchain', -⟩ := hchain.step hbalanced hstep
    exact ⟨chain', hchain'⟩

theorem frames_beginRun {c : ℕ} {x : Slots} {hookRaises : Bool}
    (h : st.beginRun c x hookRaises = (st', .running)) : st'.frames = ⟨c, st.current, st.hookSet⟩ :: st.frames := by
  unfold State.beginRun State.enter at h
  split_ifs at h
  · cases h
  · dsimp only at h
    split_ifs at h
    · cases h
    · cases h
      rfl

/-- Inside a run its frame and its context stay in place, over the frames and the contexts that were there. -/
theorem Within.suffix (h : Within st₀ st) (h₀ : StackOf st₀ chain₀) : ∃ f chain, f.prev = st₀.current ∧
    StackOf st chain ∧ (f.ctx :: chain₀) <:+ chain ∧ (f :: st₀.frames) <:+ st.frames := by
  induction h with
  | @began st c hookRaises hstep =>
    obtain ⟨chain, hchain, hmoved⟩ := h₀.step (e := .run c hookRaises) trivial hstep
    obtain ⟨x, hx, hrun⟩ := Option.map_eq_some_iff.mp hstep
    have hlength := congrArg List.length (frames_beginRun hrun)
    rw [List.length_cons] at hlength
    cases hmoved with
    | stays hframes => rw [hframes] at hlength; omega
    | ran c hooked hframes =>
      exact ⟨⟨c, st₀.current, hooked⟩, c :: chain₀, rfl, hchain, List.suffix_rfl, hframes ▸ List.suffix_rfl⟩
    | entered c hframes => rw [hframes] at hlength; omega
    | left f rest _ hframes => rw [hframes, List.length_cons] at hlength; omega
    | exited c rest _ hframes => rw [hframes] at hlength; omega
  | @step st st' e r _ hbalanced hstep hlength ih =>
    obtain ⟨f, chain, hprev, hchain, hcontexts, hframes⟩ := ih
    obtain ⟨chain', hchain', hmoved⟩ := hchain.step hbalanced hstep
    refine ⟨f, chain', hprev, hchain', ?_⟩
    cases hmoved with
    | stays h => exact ⟨hcontexts, h ▸ hframes⟩
    | ran c hooked h => exact ⟨hcontexts.trans (List.suffix_cons _ _), h ▸ hframes.trans (List.suffix_cons _ _)⟩
    | entered c h => exact ⟨hcontexts.trans (List.suffix_cons _ _), h ▸ hframes⟩
    | left g rest h hpop _ =>
      subst h
      rw [hpop] at hframes
      have hinner : (f :: st₀.frames) <:+ st'.frames := by
        obtain heq | hsuffix := List.suffix_cons_iff.mp hframes
        · obtain ⟨-, heq⟩ := List.cons.inj heq
          rw [heq] at hlength
          omega
        · exact hsuffix
      refine ⟨?_, hinner⟩
      obtain heq | hsuffix := List.suffix_cons_iff.mp hcontexts
      · -- the run's own context is not the one that left, since the run is still there
        obtain ⟨hctx, -⟩ := List.cons.inj heq
        have hmem := List.mem_map_of_mem (f := Frame.ctx) (hinner.subset List.mem_cons_self)
        have hrest := hchain'.linked.sublist.subset hmem
        rw [hctx] at hrest
        exact absurd hrest (List.nodup_cons.mp hchain.nodup).1
      · exact hsuffix
    | exited c rest h hsame hnot =>
      subst h
      refine ⟨?_, hsame ▸ hframes⟩
      obtain heq | hsuffix := List.suffix_cons_iff.mp hcontexts
      · obtain ⟨hctx, -⟩ := List.cons.inj heq
        exact absurd hctx (hnot f (hframes.subset List.mem_cons_self))
      · exact hsuffix

/-- When a run is over, everything is as it was when it began. -/
theorem Within.over (h : Within st₀ st) (h₀ : StackOf st₀ chain₀) (hbalanced : Balanced st e)
    (hstep : st.step e = some (st', r)) (hlength : st'.frames.length ≤ st₀.frames.length) :
    st'.frames = st₀.frames ∧ st'.current = st₀.current ∧ ∀ c, st'.marked c = st₀.marked c := by
  obtain ⟨f, chain, hprev, hchain, hcontexts, hframes⟩ := h.suffix h₀
  obtain ⟨chain', hchain', hmoved⟩ := hchain.step hbalanced hstep
  have hlong := hframes.length_le
  rw [List.length_cons] at hlong
  cases hmoved with
  | stays h => rw [h] at hlength; omega
  | ran c hooked h => rw [h, List.length_cons] at hlength; omega
  | entered c h => rw [h] at hlength; omega
  | exited c rest _ h => rw [h] at hlength; omega
  | left g rest hpop hframes' hcurrent =>
    subst hpop
    rw [hframes'] at hframes
    obtain heq | hsuffix := List.suffix_cons_iff.mp hframes
    · obtain ⟨hfg, hrest⟩ := List.cons.inj heq
      subst hfg
      refine ⟨hrest.symm, hcurrent.trans hprev, ?_⟩
      obtain hsame | hbelow := List.suffix_cons_iff.mp hcontexts
      · obtain ⟨-, rfl⟩ := List.cons.inj hsame
        intro c
        rw [Bool.eq_iff_iff, hchain'.marked, h₀.marked]
      · exact absurd (hbelow.subset List.mem_cons_self) (List.nodup_cons.mp hchain.nodup).1
    · have := hsuffix.length_le
      rw [List.length_cons] at this
      omega

end Runs

section Raising

variable {st st' : State} {e : Event} {err : Error} {c : ℕ} {x : Slots} {hookRaises : Bool}

theorem enter_twice (hx : st.contexts[c]? = some x) (hc : st.marked c = true) :
    st.enter c x = .error .alreadyEntered := by
  obtain ⟨-, h⟩ | ⟨hfree, -⟩ := enter_eq hx
  · exact h
  · rw [hfree] at hc
    cases hc

/-- A context that is entered is not entered again. -/
theorem entered_once (hc : st.marked c = true) (r : Reply)
    (hstep : st.step (.run c hookRaises) = some (st', r) ∨ st.step (.enterContext c hookRaises) = some (st', r)) :
    st' = st ∧ r = .raised .alreadyEntered := by
  obtain hstep | hstep := hstep
  · obtain ⟨x, hx, hrun⟩ := Option.map_eq_some_iff.mp hstep
    unfold State.beginRun at hrun
    rw [enter_twice hx hc] at hrun
    cases hrun
    exact ⟨rfl, rfl⟩
  · obtain ⟨x, hx, hrun⟩ := Option.map_eq_some_iff.mp hstep
    unfold State.enterContext at hrun
    rw [enter_twice hx hc] at hrun
    cases hrun
    exact ⟨rfl, rfl⟩

theorem outcome_raised {raised : Bool} (h : State.outcome raised = .raised err) : raised = true := by
  cases raised with
  | true => rfl
  | false => cases h

theorem raised_beginRun (hx : st.contexts[c]? = some x) (h : st.beginRun c x hookRaises = (st', .raised err)) :
    st'.current = st.current ∧ ∀ d, st'.marked d = st.marked d := by
  unfold State.beginRun at h
  obtain ⟨-, henter⟩ | ⟨hfree, st₁, henter, -, -, -, hmarked, -⟩ := enter_eq hx
  · rw [henter] at h
    cases h
    exact ⟨rfl, fun _ => rfl⟩
  · rw [henter] at h
    dsimp only at h
    split_ifs at h
    · cases h
      refine ⟨rfl, fun d => ?_⟩
      rw [Bool.eq_iff_iff, marked_exit, hmarked]
      constructor
      · rintro ⟨hne, hd⟩
        exact hd.resolve_left hne
      · intro hd
        refine ⟨?_, .inr hd⟩
        rintro rfl
        rw [hfree] at hd
        cases hd
    · cases h

/-- A balanced call that raises at once changes nothing. -/
theorem raised_unchanged (hbalanced : Balanced st e) (hstep : st.step e = some (st', .raised err))
    (he : ∀ raised hookRaises, e ≠ .finish raised hookRaises) :
    st'.current = st.current ∧ ∀ c, st'.marked c = st.marked c := by
  cases e with
  | newContext => cases hstep
  | useCurrent => cases hstep
  | setHook => cases hstep
  | clear =>
    have hclear : st.clear = (st', .raised err) := Option.some.inj hstep
    unfold State.clear at hclear
    cases hcurrent : st.current with
    | none =>
      rw [hcurrent] at hclear
      cases hclear
    | some c =>
      rw [hcurrent] at hclear
      dsimp only at hclear
      split_ifs at hclear
      · cases hclear
        exact ⟨hcurrent, fun _ => rfl⟩
      · cases hclear
  | run c hookRaises =>
    obtain ⟨x, hx, hrun⟩ := Option.map_eq_some_iff.mp hstep
    exact raised_beginRun hx hrun
  | finish raised hookRaises => exact absurd rfl (he raised hookRaises)
  | enterContext c hookRaises =>
    obtain ⟨x, hx, hrun⟩ := Option.map_eq_some_iff.mp hstep
    unfold State.enterContext at hrun
    obtain ⟨-, henter⟩ | ⟨hfree, st₁, henter, -⟩ := enter_eq hx
    · rw [henter] at hrun
      cases hrun
      exact ⟨rfl, fun _ => rfl⟩
    · rw [henter] at hrun
      have hfire := outcome_raised (congrArg Prod.snd hrun)
      rw [hbalanced hfree] at hfire
      cases hfire
  | exitContext c hookRaises =>
    obtain ⟨x, hx, hrun⟩ := Option.map_eq_some_iff.mp hstep
    unfold State.exitContext at hrun
    split_ifs at hrun with hentered
    · have hfire := outcome_raised (congrArg Prod.snd hrun)
      rw [(hbalanced ((marked_of_getElem? hx).trans hentered)).2.2] at hfire
      cases hfire
    · cases hrun
      exact ⟨rfl, fun _ => rfl⟩

end Raising

/-- In every state that balanced events lead to: the marked contexts are the stack that is linked from the
current one, none is entered twice, a call that raises changes nothing, and a run ends as it began. -/
theorem entered_stack {st : State} (h : Reachable st) : (∃ chain, StackOf st chain) ∧
    (∀ c hookRaises st' r, st.marked c = true →
      st.step (.run c hookRaises) = some (st', r) ∨ st.step (.enterContext c hookRaises) = some (st', r) →
      st' = st ∧ r = .raised .alreadyEntered) ∧
    ∀ e st' r, Balanced st e → st.step e = some (st', r) →
      ((∀ raised hookRaises, e ≠ .finish raised hookRaises) → (∃ err, r = .raised err) →
        st'.current = st.current ∧ ∀ c, st'.marked c = st.marked c) ∧
      ∀ st₀, Reachable st₀ → Within st₀ st → st'.frames.length ≤ st₀.frames.length →
        st'.frames = st₀.frames ∧ st'.current = st₀.current ∧ ∀ c, st'.marked c = st₀.marked c := by
  refine ⟨reachable_stack h, fun c hookRaises st' r hc hstep => entered_once hc r hstep, ?_⟩
  intro e st' r hbalanced hstep
  constructor
  · rintro he ⟨err, rfl⟩
    exact raised_unchanged hbalanced hstep he
  · intro st₀ h₀ hwithin hlength
    obtain ⟨chain₀, hchain₀⟩ := reachable_stack h₀
    exact hwithin.over hchain₀ hbalanced hstep hlength

/-- One context, inside its own run. -/
theorem running_stack : ∃ chain, StackOf ⟨[⟨true, none⟩], some 0, false, [⟨0, none, false⟩]⟩ chain :=
  (entered_stack (.step (.step .new (e := .newContext) trivial rfl) (e := .run 0 false) trivial rfl)).1

def State.after (st : State) : List Event → Option State
  | [] => some st
  | e :: events => (st.step e).bind fun r => r.1.after events

/-- Two contexts entered, and the outer one exited first: the inner one keeps its mark, and nothing is current. -/
theorem exit_out_of_order : ∃ st, State.new.after [.newContext, .newContext, .enterContext 0 false,
      .enterContext 1 false, .exitContext 0 false] = some st ∧ st.current = none ∧ st.marked 1 = true ∧
    ¬ ∃ chain, StackOf st chain := by
  refine ⟨_, rfl, rfl, rfl, ?_⟩
  rintro ⟨chain, hchain⟩
  have hnil := hchain.nil_of_none rfl
  subst hnil
  exact absurd ((hchain.marked 1).mp rfl) List.not_mem_nil

end WeavePy.ContextVars.Switching
