import WeavePy.ContextVars.Operations

/-!
The same operations on contexts that own immutable maps, duplicated by value.
-/

namespace WeavePy.ContextVars

variable {Var V : Type}

structure Owned (Var V : Type) where
  dict : Dict Var V
  entered : Bool

/-- What a token undoes: the binding, or the absence of one, that its `set` replaced. -/
structure Undo (Var V : Type) where
  var : Var
  replaced : Option (Value V)
  used : Bool
  ctx : ℕ

structure Model (Var V : Type) where
  contexts : List (Option (Owned Var V))
  current : Option ℕ
  snapshots : List (Option (Dict Var V))
  tokens : List (Option (Undo Var V))
  frames : List (ℕ × Option ℕ)

namespace Model

def new : Model Var V := ⟨[], none, [], [], []⟩

variable (m : Model Var V)

def dict (c : ℕ) : Dict Var V := m.contexts[c]?.join.elim [] Owned.dict

def newContext (d : Dict Var V) : Model Var V × ℕ :=
  ({ m with contexts := m.contexts ++ [some ⟨d, false⟩] }, m.contexts.length)

def currentContext : Model Var V × ℕ :=
  match m.current with
  | some c => (m, c)
  | none => ({ (m.newContext []).1 with current := some m.contexts.length }, m.contexts.length)

def setDict (c : ℕ) (d : Dict Var V) : Model Var V :=
  { m with contexts := m.contexts.modify c (Option.map fun x => { x with dict := d }) }

def setEntered (c : ℕ) (entered : Bool) : Model Var V :=
  { m with contexts := m.contexts.modify c (Option.map fun x => { x with entered }) }

variable [DecidableEq Var] (defaultOf : Var → Value V)

def get (var : Var) (default : Option (Value V)) : Reply Var V :=
  let d : Dict Var V := m.current.elim [] m.dict
  match d.lookup var, default, defaultOf var with
  | some v, _, _ => .value v
  | none, some d, _ => .value d
  | none, none, .missing => .lookupError var
  | none, none, d => .value d

def bind (c : ℕ) (var : Var) (binding : Option (Value V)) : Model Var V :=
  m.setDict c (binding.elim ((m.dict c).remove var) ((m.dict c).store var))

def set (var : Var) (value : Value V) : Model Var V × Reply Var V :=
  let (m, c) := m.currentContext
  ({ m.bind c var (some value) with tokens := m.tokens ++ [some ⟨var, (m.dict c).lookup var, false, c⟩] },
    .token m.tokens.length)

def undo (var : Var) (t : ℕ) (u : Undo Var V) : Model Var V × Reply Var V :=
  if u.used then (m, .usedError)
  else if u.var ≠ var then (m, .variableError)
  else
    let (m, c) := m.currentContext
    if u.ctx ≠ c then (m, .contextError)
    else ({ m.bind c var u.replaced with tokens := m.tokens.set t (some { u with used := true }) }, .none)

def enter (c : ℕ) : Model Var V × Reply Var V :=
  if m.contexts[c]?.join.any Owned.entered then (m, .enteredError)
  else ({ m.setEntered c true with current := some c, frames := (c, m.current) :: m.frames }, .none)

def exit : Model Var V × Reply Var V :=
  match m.frames with
  | [] => (m, .none)
  | (c, prev) :: frames => ({ m.setEntered c false with current := prev, frames }, .none)

def step : Op Var V → Model Var V × Reply Var V
  | .get var default => (m, m.get defaultOf var default)
  | .set var value => m.set var value
  | .reset var t => m.tokens[t]?.join.elim (m, .none) (m.undo var t)
  | .newContext => (m.newContext []).map id .context
  | .copy c => (m.newContext (m.dict c)).map id .context
  | .copyContext => (m.currentContext.1.newContext (m.currentContext.1.dict m.currentContext.2)).map id .context
  | .currentData =>
    let (m, c) := m.currentContext
    ({ m with snapshots := m.snapshots ++ [some (m.dict c)] }, .snapshot m.snapshots.length)
  | .contextOver s =>
    let d := m.snapshots[s]?.join.getD []
    ({ m with snapshots := m.snapshots.set s none }.newContext d).map id .context
  | .run c => m.enter c
  | .leave => m.exit
  | .dropContext c => ({ m with contexts := m.contexts.set c none }, .none)
  | .dropSnapshot s => ({ m with snapshots := m.snapshots.set s none }, .none)
  | .dropToken t => ({ m with tokens := m.tokens.set t none }, .none)

end Model

end WeavePy.ContextVars

/-!
Every context shows the map it would own if copies duplicated by value.
-/

namespace WeavePy.ContextVars

open CountedCells

variable {Var V : Type}

def dictAt (heap : Heap (Dict Var V)) (d : ℕ) : Dict Var V := (view heap d).getD []

def owned (heap : Heap (Dict Var V)) (x : Context) : Owned Var V := ⟨dictAt heap x.data, x.entered⟩

def Undo.token (u : Undo Var V) : Token Var V := ⟨u.var, u.replaced.getD .missing, u.used, u.ctx⟩

/-- The handles in a list with gaps. -/
def held {α : Type} (f : α → ℕ) (l : List (Option α)) : Multiset ℕ := (l.filterMap (Option.map f) : List ℕ)

section Held

variable {α : Type} {f : α → ℕ} {l : List (Option α)} {i : ℕ} {x : α}

theorem held_append (x : α) : held f (l ++ [some x]) = f x ::ₘ held f l := by
  unfold held
  rw [List.filterMap_append, Multiset.cons_coe, Multiset.coe_eq_coe]
  exact List.perm_append_comm

theorem held_set (hi : i < l.length) (o : Option α) :
    held f (l.set i o) = (o.map f).elim 0 (fun d => {d}) + held f (l.eraseIdx i) := by
  unfold held
  have hperm := (List.set_perm_cons_eraseIdx hi o).filterMap (Option.map f)
  rw [Multiset.coe_eq_coe.mpr hperm, List.filterMap_cons]
  cases o with
  | none => simp
  | some x => rfl

theorem held_of_some (h : l[i]? = some (some x)) : held f l = f x ::ₘ held f (l.set i none) := by
  obtain ⟨hi, hx⟩ := List.getElem?_eq_some_iff.mp h
  have hself : l.set i (some x) = l := by
    rw [← hx, List.set_getElem_self]
  rw [held_set hi none]
  conv_lhs => rw [← hself, held_set hi (some x)]
  simp

theorem held_set_some (hi : i < l.length) (y : α) : held f (l.set i (some y)) = f y ::ₘ held f (l.set i none) := by
  rw [held_set hi, held_set hi]
  simp

theorem mem_held (h : some x ∈ l) : f x ∈ held f l := by
  unfold held
  rw [Multiset.mem_coe, List.mem_filterMap]
  exact ⟨some x, h, rfl⟩

theorem map_congr_held {β : Type} {g g' : α → β} (h : ∀ x, f x ∈ held f l → g x = g' x) :
    l.map (Option.map g) = l.map (Option.map g') := by
  apply List.map_congr_left
  intro o ho
  cases o with
  | none => rfl
  | some x => rw [Option.map_some, Option.map_some, h x (mem_held ho)]

end Held

def State.handles (st : State Var V) : Multiset ℕ := held Context.data st.contexts + held id st.snapshots

def State.Live (st : State Var V) (c : ℕ) : Prop := ∃ ctx, st.contexts[c]? = some (some ctx)

/-- The state shows the model's maps; the references in `pending` are held by a call in progress. -/
structure Shows (pending : Multiset ℕ) (st : State Var V) (m : Model Var V) : Prop where
  counted : Counted st.heap (pending + st.handles)
  contexts : m.contexts = st.contexts.map (Option.map (owned st.heap))
  current : m.current = st.current
  snapshots : m.snapshots = st.snapshots.map (Option.map (dictAt st.heap))
  tokens : st.tokens = m.tokens.map (Option.map Undo.token)
  frames : m.frames = st.frames
  live : ∀ c, st.current = some c → st.Live c
  running : ∀ f ∈ st.frames, st.Live f.1 ∧ ∀ c, f.2 = some c → st.Live c

section Parts

variable {pending : Multiset ℕ} {st : State Var V} {m : Model Var V} {c d : ℕ} {ctx : Context}

theorem shows_new : Shows 0 (.new : State Var V) .new :=
  ⟨counted_nil, rfl, rfl, rfl, rfl, rfl, nofun, nofun⟩

theorem entry_ok {α : Type} {l : List (Option α)} {i : ℕ} {a : α} (h : l[i]? = some (some a)) : entry l i = .ok a := by
  unfold entry
  rw [h]
  rfl

theorem Shows.dict_eq (h : Shows pending st m) (hc : st.contexts[c]? = some (some ctx)) :
    m.dict c = dictAt st.heap ctx.data := by
  unfold Model.dict
  rw [h.contexts, List.getElem?_map, hc]
  rfl

theorem Shows.get_eq (h : Shows pending st m) (hc : st.contexts[c]? = some (some ctx)) :
    m.contexts[c]? = some (some (owned st.heap ctx)) := by
  rw [h.contexts, List.getElem?_map, hc]
  rfl

theorem data_mem (hc : st.contexts[c]? = some (some ctx)) : ctx.data ∈ pending + st.handles := by
  unfold State.handles
  rw [Multiset.mem_add, Multiset.mem_add]
  exact .inr (.inl (mem_held (List.mem_of_getElem? hc)))

/-- A heap that still shows what it showed. -/
theorem Shows.heap {pending' : Multiset ℕ} {heap : Heap (Dict Var V)} (h : Shows pending st m)
    (hcounted : Counted heap (pending' + st.handles)) (hview : ∀ d ∈ st.handles, view heap d = view st.heap d) :
    Shows pending' { st with heap } m where
  counted := hcounted
  contexts := by
    rw [h.contexts]
    refine (map_congr_held (f := Context.data) fun x hx => ?_).symm
    unfold owned dictAt
    rw [hview x.data (Multiset.mem_add.mpr (.inl hx))]
  current := h.current
  snapshots := by
    rw [h.snapshots]
    refine (map_congr_held (f := id) fun d hd => ?_).symm
    unfold dictAt
    rw [hview d (Multiset.mem_add.mpr (.inr hd))]
  tokens := h.tokens
  frames := h.frames
  live := h.live
  running := h.running

theorem Shows.length_contexts (h : Shows pending st m) : m.contexts.length = st.contexts.length := by
  rw [h.contexts, List.length_map]

theorem Shows.newDict (h : Shows pending st m) :
    Shows (st.newDict.2 ::ₘ pending) st.newDict.1 m ∧ dictAt st.newDict.1.heap st.newDict.2 = [] := by
  have halloc := h.counted.alloc []
  unfold State.newDict
  refine ⟨h.heap ?_ fun d hd => ?_, ?_⟩
  · rw [Multiset.cons_add]
    exact halloc
  · have hlt := h.counted.lt (Multiset.mem_add.mpr (.inr hd))
    rw [view_alloc, if_neg (by omega)]
  · show (view (alloc st.heap []).1 st.heap.length).getD [] = []
    rw [view_alloc, if_pos rfl]
    rfl

theorem live_append {o : Option Context} (h : st.Live c) : ({ st with contexts := st.contexts ++ [o] } : State Var V).Live c := by
  obtain ⟨ctx, hc⟩ := h
  refine ⟨ctx, ?_⟩
  dsimp only
  rw [List.getElem?_append_left (List.getElem?_eq_some_iff.mp hc).1, hc]

theorem Shows.newContext (h : Shows (d ::ₘ pending) st m) :
    Shows pending (st.newContext d).1 (m.newContext (dictAt st.heap d)).1 where
  counted := by
    have hcounted := h.counted
    unfold State.newContext State.handles at *
    dsimp only
    rw [held_append]
    rw [Multiset.cons_add] at hcounted
    rw [Multiset.cons_add, Multiset.add_cons]
    exact hcounted
  contexts := by
    unfold State.newContext Model.newContext
    dsimp only
    rw [h.contexts, List.map_append]
    rfl
  current := h.current
  snapshots := h.snapshots
  tokens := h.tokens
  frames := h.frames
  live c hc := live_append (h.live c hc)
  running f hf := ⟨live_append (h.running f hf).1, fun c hc => live_append ((h.running f hf).2 c hc)⟩

theorem Shows.dataOf (h : Shows pending st m) (hc : st.contexts[c]? = some (some ctx)) :
    ∃ heap, st.dataOf c = .ok ({ st with heap }, ctx.data) ∧ Shows (ctx.data ::ₘ pending) { st with heap } m ∧
      dictAt heap ctx.data = m.dict c := by
  obtain ⟨heap, hrun, hcounted, hview⟩ := h.counted.clone (data_mem hc)
  unfold State.dataOf
  rw [entry_ok hc, ok_bind, hrun]
  refine ⟨heap, rfl, h.heap ?_ fun d _ => hview d, ?_⟩
  · rw [Multiset.cons_add]
    exact hcounted
  · rw [h.dict_eq hc]
    unfold dictAt
    rw [hview]

theorem Shows.keepSnapshot (h : Shows (d ::ₘ pending) st m) :
    Shows pending (st.keepSnapshot d).1 { m with snapshots := m.snapshots ++ [some (dictAt st.heap d)] } where
  counted := by
    have hcounted := h.counted
    unfold State.keepSnapshot State.handles at *
    dsimp only
    rw [held_append, Multiset.add_cons, Multiset.add_cons, id]
    rw [Multiset.cons_add] at hcounted
    exact hcounted
  contexts := h.contexts
  current := h.current
  snapshots := by
    unfold State.keepSnapshot
    dsimp only
    rw [h.snapshots, List.map_append]
    rfl
  tokens := h.tokens
  frames := h.frames
  live := h.live
  running := h.running

/-- A snapshot's reference leaves its place. -/
theorem Shows.takeSnapshot {s : ℕ} (h : Shows pending st m) (hs : st.snapshots[s]? = some (some d)) :
    Shows (d ::ₘ pending) { st with snapshots := st.snapshots.set s none } { m with snapshots := m.snapshots.set s none } ∧
      m.snapshots[s]?.join.getD [] = dictAt st.heap d := by
  refine ⟨⟨?_, h.contexts, h.current, ?_, h.tokens, h.frames, h.live, h.running⟩, ?_⟩
  · have hcounted := h.counted
    unfold State.handles at *
    rw [held_of_some hs, id, Multiset.add_cons, Multiset.add_cons] at hcounted
    rw [Multiset.cons_add]
    exact hcounted
  · rw [h.snapshots, List.map_set]
    rfl
  · rw [h.snapshots, List.getElem?_map, hs]
    rfl

theorem Shows.release (h : Shows (d ::ₘ pending) st m) :
    ∃ heap, release st.heap d = .ok heap ∧ Shows pending { st with heap } m := by
  have hcounted := h.counted
  rw [Multiset.cons_add] at hcounted
  obtain ⟨heap, hrun, hcounted, hview⟩ := hcounted.release
  exact ⟨heap, hrun, h.heap hcounted fun d _ => hview d⟩

theorem modify_of_some {α : Type} {l : List α} {i : ℕ} {a : α} (h : l[i]? = some a) (g : α → α) :
    l.modify i g = l.set i (g a) := by
  rw [List.modify_eq_set_getElem?, h]
  rfl

theorem live_set {x y : Context} (hc : st.contexts[c]? = some (some x)) {c' : ℕ} (h : st.Live c') :
    ({ st with contexts := st.contexts.set c (some y) } : State Var V).Live c' := by
  obtain ⟨ctx, hc'⟩ := h
  unfold State.Live
  dsimp only
  rw [List.getElem?_set]
  split_ifs with heq hlt
  · exact ⟨y, rfl⟩
  · exact absurd (List.getElem?_eq_some_iff.mp hc).1 hlt
  · exact ⟨ctx, hc'⟩

/-- A write through one context's handle. -/
theorem Shows.update (h : Shows pending st m) (hc : st.contexts[c]? = some (some ctx)) (f : Dict Var V → Dict Var V) :
    ∃ heap data, update st.heap ctx.data f = .ok (heap, data, m.dict c) ∧
      Shows pending { st with heap, contexts := st.contexts.set c (some { ctx with data }) } (m.setDict c (f (m.dict c))) := by
  have hlt := (List.getElem?_eq_some_iff.mp hc).1
  have hmem : ctx.data ∈ pending + st.handles := data_mem hc
  obtain ⟨d, hd⟩ := h.counted.exists_view hmem
  have hdict : m.dict c = d := by
    rw [h.dict_eq hc]
    unfold dictAt
    rw [hd]
    rfl
  have hcounted := h.counted
  unfold State.handles at hcounted
  rw [held_of_some hc, Multiset.cons_add, Multiset.add_cons] at hcounted
  obtain ⟨heap, data, hrun, hcounted, hnew, hrest⟩ := hcounted.update hd f
  have hsnap : ∀ e ∈ held id st.snapshots, view heap e = view st.heap e :=
    fun e he => hrest e (Multiset.mem_add.mpr (.inr (Multiset.mem_add.mpr (.inr he))))
  have hothers : ∀ e ∈ held Context.data (st.contexts.set c none), view heap e = view st.heap e :=
    fun e he => hrest e (Multiset.mem_add.mpr (.inr (Multiset.mem_add.mpr (.inl he))))
  refine ⟨heap, data, hdict.symm ▸ hrun, ?_, ?_, h.current, ?_, h.tokens, h.frames, fun c' hc' => live_set hc (h.live c' hc'),
    fun f hf => ⟨live_set hc (h.running f hf).1, fun c' hc' => live_set hc ((h.running f hf).2 c' hc')⟩⟩
  · unfold State.handles
    rw [held_set_some hlt, Multiset.cons_add, Multiset.add_cons]
    exact hcounted
  · have hmap : (st.contexts.set c none).map (Option.map (owned heap)) =
        (st.contexts.set c none).map (Option.map (owned st.heap)) := by
      refine map_congr_held (f := Context.data) fun x hx => ?_
      unfold owned dictAt
      rw [hothers _ hx]
    rw [List.map_set, List.map_set] at hmap
    have hset : ∀ y, (st.contexts.map (Option.map (owned heap))).set c y =
        (st.contexts.map (Option.map (owned st.heap))).set c y := by
      intro y
      have hboth := congrArg (fun l => List.set l c y) hmap
      rw [List.set_set, List.set_set] at hboth
      exact hboth
    have hown : owned heap { ctx with data } = ⟨f d, ctx.entered⟩ := by
      unfold owned dictAt
      dsimp only
      rw [hnew]
      rfl
    unfold Model.setDict
    dsimp only
    rw [modify_of_some (h.get_eq hc), h.contexts, List.map_set, hset, Option.map_some, Option.map_some, hown, hdict]
    rfl
  · unfold Model.setDict
    dsimp only
    rw [h.snapshots]
    refine (map_congr_held (f := id) fun e he => ?_).symm
    unfold dictAt
    rw [hsnap e he]

theorem Shows.setEntered (h : Shows pending st m) (hc : st.contexts[c]? = some (some ctx)) (entered : Bool) :
    Shows pending { st with contexts := st.contexts.set c (some { ctx with entered }) } (m.setEntered c entered) where
  counted := by
    have hcounted := h.counted
    have hlt := (List.getElem?_eq_some_iff.mp hc).1
    unfold State.handles at *
    rw [held_of_some hc] at hcounted
    dsimp only
    rw [held_set_some hlt]
    exact hcounted
  contexts := by
    unfold Model.setEntered
    dsimp only
    rw [modify_of_some (h.get_eq hc), h.contexts, List.map_set]
    rfl
  current := h.current
  snapshots := h.snapshots
  tokens := h.tokens
  frames := h.frames
  live c' hc' := live_set hc (h.live c' hc')
  running f hf := ⟨live_set hc (h.running f hf).1, fun c' hc' => live_set hc ((h.running f hf).2 c' hc')⟩

theorem Shows.currentContext (h : Shows pending st m) :
    Shows pending st.currentContext.1 m.currentContext.1 ∧ st.currentContext.2 = m.currentContext.2 ∧
      st.currentContext.1.current = some st.currentContext.2 := by
  have hcurrent := h.current
  unfold State.currentContext Model.currentContext
  rw [hcurrent]
  cases hc : st.current with
  | some c => exact ⟨h, rfl, hc⟩
  | none =>
    obtain ⟨hdict, hnil⟩ := h.newDict
    have hnew := hdict.newContext
    rw [hnil] at hnew
    have hlen : st.newDict.1.contexts.length = m.contexts.length := by
      rw [h.contexts, List.length_map]
      rfl
    refine ⟨⟨hnew.counted, hnew.contexts, congrArg some hlen.symm, hnew.snapshots, hnew.tokens, hnew.frames, ?_,
      hnew.running⟩, hlen, rfl⟩
    rintro c ⟨⟩
    refine ⟨⟨st.newDict.2, false⟩, ?_⟩
    show (st.newDict.1.contexts ++ [some ⟨st.newDict.2, false⟩])[st.newDict.1.contexts.length]? = _
    rw [List.getElem?_concat_length]

theorem Shows.setToken (h : Shows pending st m) (t : ℕ) (o : Option (Undo Var V)) :
    Shows pending { st with tokens := st.tokens.set t (o.map Undo.token) } { m with tokens := m.tokens.set t o } :=
  ⟨h.counted, h.contexts, h.current, h.snapshots, by dsimp only; rw [h.tokens, List.map_set], h.frames, h.live, h.running⟩

theorem Shows.pushToken (h : Shows pending st m) (u : Undo Var V) :
    Shows pending { st with tokens := st.tokens ++ [some u.token] } { m with tokens := m.tokens ++ [some u] } :=
  ⟨h.counted, h.contexts, h.current, h.snapshots, by dsimp only; rw [h.tokens, List.map_append]; rfl, h.frames, h.live,
    h.running⟩

/-- Nothing the state keeps needs a context that is dropped. -/
theorem Shows.takeContext (h : Shows pending st m) (hc : st.contexts[c]? = some (some ctx)) (hcurrent : st.current ≠ some c)
    (hframes : ∀ f ∈ st.frames, f.1 ≠ c ∧ f.2 ≠ some c) :
    Shows (ctx.data ::ₘ pending) { st with contexts := st.contexts.set c none }
      { m with contexts := m.contexts.set c none } where
  counted := by
    have hcounted := h.counted
    unfold State.handles at *
    rw [held_of_some hc, Multiset.cons_add, Multiset.add_cons] at hcounted
    rw [Multiset.cons_add]
    exact hcounted
  contexts := by
    dsimp only
    rw [h.contexts, List.map_set]
    rfl
  current := h.current
  snapshots := h.snapshots
  tokens := h.tokens
  frames := h.frames
  live c' hc' := by
    have hne : c ≠ c' := fun heq => hcurrent (heq ▸ hc')
    obtain ⟨x, hx⟩ := h.live c' hc'
    exact ⟨x, by dsimp only; rw [List.getElem?_set_ne hne, hx]⟩
  running f hf := by
    obtain ⟨hne, hprev⟩ := hframes f hf
    obtain ⟨⟨x, hx⟩, hlive⟩ := h.running f hf
    refine ⟨⟨x, by dsimp only; rw [List.getElem?_set_ne hne.symm, hx]⟩, fun c' hc' => ?_⟩
    have hne' : c ≠ c' := fun heq => hprev (heq ▸ hc')
    obtain ⟨y, hy⟩ := hlive c' hc'
    exact ⟨y, by dsimp only; rw [List.getElem?_set_ne hne', hy]⟩

end Parts

section Steps

variable [DecidableEq Var] {defaultOf : Var → Value V} {st : State Var V} {m : Model Var V} {op : Op Var V}

theorem varGet_ok (h : Shows 0 st m) (var : Var) (default : Option (Value V)) :
    st.varGet defaultOf var default = .ok (m.get defaultOf var default) := by
  have hcurrent := h.current
  unfold State.varGet Model.get
  rw [hcurrent]
  cases hc : st.current with
  | none =>
    dsimp only [Option.elim_none]
    rw [pure_bind]
    cases default with
    | some d => rfl
    | none =>
      dsimp only
      cases defaultOf var <;> rfl
  | some c =>
    obtain ⟨ctx, hctx⟩ := h.live c hc
    obtain ⟨cell, hcell, hget, -⟩ := h.counted.deref (data_mem hctx)
    have hdict : m.dict c = cell.val := by
      rw [h.dict_eq hctx]
      unfold dictAt view
      rw [hget]
      rfl
    dsimp only [Option.elim_some]
    rw [entry_ok hctx, ok_bind, hcell, ok_bind, hdict, pure_bind]
    cases cell.val.lookup var with
    | some v => rfl
    | none =>
      cases default with
      | some d => rfl
      | none =>
        dsimp only
        cases defaultOf var <;> rfl

theorem ctxStore_ok {pending : Multiset ℕ} {c : ℕ} {ctx : Context} (h : Shows pending st m) (hc : st.contexts[c]? = some (some ctx)) (var : Var)
    (binding : Option (Value V)) :
    ∃ heap data, st.ctxStore c var binding =
        .ok ({ st with heap, contexts := st.contexts.set c (some { ctx with data }) }, ((m.dict c).lookup var).getD .missing) ∧
      Shows pending { st with heap, contexts := st.contexts.set c (some { ctx with data }) } (m.bind c var binding) := by
  obtain ⟨heap, data, hrun, hshows⟩ := h.update hc fun d => binding.elim (d.remove var) (d.store var)
  unfold State.ctxStore
  rw [entry_ok hc, ok_bind, hrun]
  exact ⟨heap, data, rfl, hshows⟩

/-- A reset that goes ahead does not restore a binding to `Token.MISSING` itself. -/
def Model.Restorable (m : Model Var V) : Op Var V → Prop
  | .reset var t => ∀ u, m.tokens[t]? = some (some u) → u.used = false → u.var = var → u.ctx = m.currentContext.2 →
      u.replaced ≠ some .missing
  | _ => True

theorem varSet_ok (h : Shows 0 st m) (var : Var) (value : Value V) :
    ∃ st', st.varSet var value = .ok (st', (m.set var value).2) ∧ Shows 0 st' (m.set var value).1 := by
  obtain ⟨hcurrent, hsame, hset⟩ := h.currentContext
  obtain ⟨ctx, hctx⟩ := hcurrent.live _ hset
  obtain ⟨heap, data, hrun, hshows⟩ := ctxStore_ok hcurrent hctx var (some value)
  have hpush := hshows.pushToken ⟨var, (m.currentContext.1.dict m.currentContext.2).lookup var, false, m.currentContext.2⟩
  unfold State.varSet Model.set
  dsimp only
  rw [hrun, ok_bind]
  have hlen : st.currentContext.1.tokens.length = m.currentContext.1.tokens.length := by
    rw [hcurrent.tokens, List.length_map]
  rw [hsame] at hpush ⊢
  rw [hlen]
  exact ⟨_, rfl, hpush⟩

theorem varReset_ok (h : Shows 0 st m) {var : Var} {t : ℕ} {u : Undo Var V} (hu : m.tokens[t]? = some (some u))
    (hr : m.Restorable (.reset var t)) :
    ∃ st', st.varReset var t = .ok (st', (m.undo var t u).2) ∧ Shows 0 st' (m.undo var t u).1 := by
  have htoken : st.tokens[t]? = some (some u.token) := by
    rw [h.tokens, List.getElem?_map, hu]
    rfl
  unfold State.varReset Model.undo
  rw [entry_ok htoken, ok_bind]
  have hfields : u.token.used = u.used ∧ u.token.var = u.var ∧ u.token.ctx = u.ctx := ⟨rfl, rfl, rfl⟩
  obtain ⟨hused, hvar, hctx⟩ := hfields
  rw [hused, hvar]
  split_ifs with hu₁ hu₂
  · exact ⟨st, rfl, h⟩
  · exact ⟨st, rfl, h⟩
  · obtain ⟨hcurrent, hsame, hset⟩ := h.currentContext
    dsimp only
    rw [hctx, hsame]
    split_ifs with hu₃
    · exact ⟨_, rfl, hcurrent⟩
    · have hplain := hr u hu (by simpa using hu₁) (not_not.mp hu₂) (not_not.mp hu₃)
      have hold : u.token.old.restored = u.replaced := by
        unfold Undo.token
        dsimp only
        cases hrep : u.replaced with
        | none => rfl
        | some v =>
          cases v with
          | missing => exact absurd hrep hplain
          | obj v => rfl
      obtain ⟨ctx, hlive⟩ := hcurrent.live _ hset
      have hmark := hcurrent.setToken t (some { u with used := true })
      rw [hsame] at hlive
      obtain ⟨heap, data, hrun, hshows⟩ := ctxStore_ok hmark hlive var u.replaced
      dsimp only at hold ⊢
      rw [hold]
      exact ⟨_, bind_eq_ok.mpr ⟨_, hrun, rfl⟩, hshows⟩

theorem step_shows (h : Shows 0 st m) (ha : st.Allowed op) (hr : m.Restorable op) :
    ∃ st', st.step defaultOf op = .ok (st', (m.step defaultOf op).2) ∧ Shows 0 st' (m.step defaultOf op).1 := by
  cases op with
  | get var default =>
    unfold State.step
    dsimp only
    rw [varGet_ok h]
    exact ⟨st, rfl, h⟩
  | set var value => exact varSet_ok h var value
  | reset var t =>
    obtain ⟨token, htoken⟩ := ha
    rw [h.tokens, List.getElem?_map, Option.map_eq_some_iff] at htoken
    obtain ⟨o, ho, hmap⟩ := htoken
    obtain ⟨u, rfl, -⟩ := Option.map_eq_some_iff.mp hmap
    have hstep : m.step defaultOf (.reset var t) = m.undo var t u := by
      unfold Model.step
      dsimp only
      rw [ho]
      rfl
    rw [hstep]
    exact varReset_ok h ho hr
  | newContext =>
    obtain ⟨hdict, hnil⟩ := h.newDict
    have hnew := hdict.newContext
    rw [hnil] at hnew
    have hreply : (m.newContext ([] : Dict Var V)).2 = st.contexts.length := h.length_contexts
    unfold State.step Model.step Prod.map
    dsimp only
    rw [hreply]
    exact ⟨_, rfl, hnew⟩
  | copy c =>
    obtain ⟨ctx, hc⟩ := ha
    obtain ⟨heap, hrun, hdata, hdict⟩ := h.dataOf hc
    have hnew := hdata.newContext
    unfold State.step State.ctxCopy Model.step Prod.map Model.newContext
    dsimp only
    rw [hrun, ← hdict, h.length_contexts]
    exact ⟨_, rfl, hnew⟩
  | copyContext =>
    obtain ⟨hcurrent, hsame, hset⟩ := h.currentContext
    obtain ⟨ctx, hc⟩ := hcurrent.live _ hset
    obtain ⟨heap, hrun, hdata, hdict⟩ := hcurrent.dataOf hc
    have hnew := hdata.newContext
    unfold State.step State.copyCurrent State.currentData Model.step Prod.map Model.newContext
    dsimp only
    rw [hrun, ← hsame, ← hdict, hcurrent.length_contexts]
    exact ⟨_, rfl, hnew⟩
  | currentData =>
    obtain ⟨hcurrent, hsame, hset⟩ := h.currentContext
    obtain ⟨ctx, hc⟩ := hcurrent.live _ hset
    obtain ⟨heap, hrun, hdata, hdict⟩ := hcurrent.dataOf hc
    have hkeep := hdata.keepSnapshot
    have hlen : m.currentContext.1.snapshots.length = st.currentContext.1.snapshots.length := by
      rw [hcurrent.snapshots, List.length_map]
    unfold State.step State.currentData Model.step
    dsimp only
    rw [hrun, ← hsame, ← hdict, hlen]
    exact ⟨_, rfl, hkeep⟩
  | contextOver s =>
    obtain ⟨d, hs⟩ := ha
    obtain ⟨htake, hdict⟩ := h.takeSnapshot hs
    have hnew := htake.newContext
    unfold State.step State.contextOver Model.step Prod.map Model.newContext
    dsimp only
    rw [entry_ok hs, hdict, h.length_contexts]
    exact ⟨_, rfl, hnew⟩
  | run c =>
    obtain ⟨ctx, hc⟩ := ha
    have henter := h.setEntered hc true
    unfold State.step State.enter Model.step Model.enter
    dsimp only
    rw [entry_ok hc, ok_bind, h.get_eq hc, Option.join_some, Option.any_some]
    unfold owned
    dsimp only
    split_ifs
    · exact ⟨st, rfl, h⟩
    · have hlive : ∀ {c' : ℕ}, st.Live c' → _ := fun hc' => live_set (y := { ctx with entered := true }) hc hc'
      refine ⟨_, rfl, henter.counted, henter.contexts, rfl, henter.snapshots, henter.tokens, ?_, ?_, ?_⟩
      · dsimp only
        rw [h.current, ← henter.frames]
        rfl
      · rintro _ ⟨⟩
        exact hlive ⟨ctx, hc⟩
      · intro f hf
        rcases List.mem_cons.mp hf with rfl | hf
        · exact ⟨hlive ⟨ctx, hc⟩, fun c' hc' => hlive (h.live c' hc')⟩
        · exact henter.running f hf
  | leave =>
    obtain ⟨⟨c, prev⟩, frames, hframes⟩ := List.exists_cons_of_ne_nil ha
    obtain ⟨⟨ctx, hc⟩, hprev⟩ := h.running (c, prev) (by rw [hframes]; exact List.mem_cons_self)
    have hexit := h.setEntered hc false
    have hm : m.frames = (c, prev) :: frames := h.frames.trans hframes
    unfold State.step State.exit Model.step Model.exit
    rw [hframes, hm]
    dsimp only
    rw [entry_ok hc]
    refine ⟨_, rfl, hexit.counted, hexit.contexts, rfl, hexit.snapshots, hexit.tokens, rfl, fun c' hc' => ?_, fun f hf => ?_⟩
    · exact live_set hc (hprev c' hc')
    · exact hexit.running f (by show f ∈ st.frames; rw [hframes]; exact List.mem_cons_of_mem _ hf)
  | dropContext c =>
    obtain ⟨⟨ctx, hc⟩, hcurrent, hframes, -⟩ := ha
    obtain ⟨heap, hrun, hshows⟩ := (h.takeContext hc hcurrent hframes).release
    unfold State.step State.dropContext
    dsimp only
    rw [entry_ok hc, ok_bind, hrun]
    exact ⟨_, rfl, hshows⟩
  | dropSnapshot s =>
    obtain ⟨d, hs⟩ := ha
    obtain ⟨heap, hrun, hshows⟩ := (h.takeSnapshot hs).1.release
    unfold State.step State.dropSnapshot
    dsimp only
    rw [entry_ok hs, ok_bind, hrun]
    exact ⟨_, rfl, hshows⟩
  | dropToken t =>
    obtain ⟨token, htoken⟩ := ha
    unfold State.step
    dsimp only
    rw [entry_ok htoken]
    exact ⟨_, rfl, h.setToken t none⟩

end Steps

end WeavePy.ContextVars
