import WeavePy.Gc.Rebuilding

/-!
Runs of the registry: what the interpreter and the collector do to it in any order, and what holds of
every state they reach.
-/

namespace WeavePy.Gc

/-- `header` is a live object's own fields changing, `young` its place among the young. -/
inductive Op where
  | alloc (a : ObjectId) (kind : Kind) (strong : ℕ)
  | header (a : ObjectId) (strong : ℕ) (finalizeRan gcDeferred : Bool)
  | young (a : ObjectId) (slot : ℕ)
  | die (a : ObjectId) (busy : Bool)
  | dealloc (a : ObjectId)
  | enter (a : ObjectId)
  | untrack (a : ObjectId)
  | untrackId (id : ObjectId)
  | tally (slot : ℕ) (gcRefs : BitVec 32) (node : ℕ)
  | setFlag (slot : ℕ) (flag : BitVec 8) (on : Bool)
  | mark (upto : ℕ)
  | unmark
  | rebuild
  | prune (gen : Fin nGenerations) (start budget : ℕ)
  | freeze
  | unfreeze
  | rebuildFilter

def oldest (upto : ℕ) : Fin nGenerations := ⟨min upto (nGenerations - 1), by unfold nGenerations; omega⟩

namespace GcState

def object (t : GcState) (a : ObjectId) : Outcome Obj := (t.heap a).elim (.error .unchecked) .ok

def step (t : GcState) : Op → Outcome GcState
  | .alloc a kind strong => .ok { t with heap := t.heap.set a ⟨kind, strong, noSlot, false, false⟩ }
  | .header a strong finalizeRan gcDeferred => do
    let o ← t.object a
    return { t with heap := t.heap.set a { o with
      strong := strong, finalizeRan := finalizeRan, gcDeferred := gcDeferred } }
  | .young a slot => do
    let o ← t.object a
    return { t with heap := t.heap.set a { o with gcSlot := slot } }
  | .die a busy => do
    let o ← t.object a
    let t := { t with heap := t.heap.set a { o with strong := 0 } }
    if o.kind = .instance_ ∧ o.gcSlot < youngBit ∧ !busy then t.forgetInstanceIn o.gcSlot a else return t
  | .dealloc a => .ok { t with heap := Function.update t.heap a none }
  | .enter a => do
    let o ← t.object a
    t.enter ⟨o.kind, a⟩
  | .untrack a => do
    let o ← t.object a
    t.untrack a o
  | .untrackId id => t.untrackId id
  | .tally slot gcRefs node => do
    let e ← t.reg.entry slot
    return { t with reg := t.reg.setEntry slot { e with gcRefs := gcRefs, node := node } }
  | .setFlag slot flag on => do
    let e ← t.reg.entry slot
    return { t with reg := t.reg.setEntry slot (e.set flag on) }
  | .mark upto => do
    let (t, n) ← t.markCandidates (oldest upto)
    return if n = 0 then t else { t with collecting := some (oldest upto) }
  | .unmark =>
    match t.collecting with
    | none => .ok t
    | some upto => do
      let t ← t.unmarkCandidates upto
      return { t with collecting := none }
  | .rebuild =>
    match t.collecting with
    | none => .ok t
    | some upto => do
      let t ← t.rebuildGenerations upto
      return { t with collecting := none }
  | .prune gen start budget => do
    let (t, _) ← t.pruneDeadIn gen start budget
    return t
  | .freeze => t.freezeAll
  | .unfreeze => t.unfreezeAll
  | .rebuildFilter => .ok t.rebuildTrackedFilter

/-- What the callers see to. A handle keeps its allocation reserved, only unregistered objects are
entered, only the ends of a collection touch its marks, and no code runs between them that could freeze
the candidates or start another collection. -/
def Allowed (t : GcState) : Op → Prop
  | .alloc a _ strong => t.heap a = none ∧ 0 < strong
  | .header a strong _ _ => ∃ o, t.heap a = some o ∧ 0 < o.strong ∧ 0 < strong
  | .young a slot => ∃ o, t.heap a = some o ∧ youngBit ≤ o.gcSlot ∧ youngBit ≤ slot
  | .die a _ => ∃ o, t.heap a = some o ∧ 0 < o.strong
  | .dealloc a => (∃ o, t.heap a = some o ∧ o.strong = 0) ∧ ∀ e ∈ t.reg.slab, ∀ w, e.obj = some w → w.addr ≠ a
  | .enter a => ∃ o, t.heap a = some o ∧ 0 < o.strong ∧ t.slotOf a o = none
  | .untrack a => ∃ o, t.heap a = some o ∧ 0 < o.strong
  | .tally slot _ _ => slot < t.reg.slab.length
  | .setFlag slot flag _ => slot < t.reg.slab.length ∧ flag &&& fCand = 0
  | .mark _ => t.collecting = none
  | .freeze => t.collecting = none
  | _ => True

end GcState

inductive Reachable : GcState → Prop where
  | new : Reachable .new
  | step {t t' : GcState} {op : Op} : Reachable t → t.Allowed op → t.step op = .ok t' → Reachable t'

/-- Only candidates of the collection in progress are marked. -/
def Between (t : GcState) (_ gen : ℕ) : Prop := ∃ upto, t.collecting = some upto ∧ gen ≤ upto.val

def Registered (t : GcState) : Prop := Sound (Between t) t []

section Steps

variable {t t' : GcState} {op : Op}

theorem Registered.of_sound (h : Sound (Between t) t' []) (hcoll : t'.collecting = t.collecting) :
    Registered t' := by
  unfold Registered Between
  rw [hcoll]
  exact h

theorem Registered.idle (h : Registered t) (hidle : t.collecting = none) :
    Sound (fun _ _ => False) t [] :=
  h.mono fun _ _ _ _ hb => by
    obtain ⟨upto, hupto, _⟩ := hb
    simp [hidle] at hupto

theorem registered_of_idle (h : Sound (fun _ _ => False) t []) : Registered t :=
  h.mono fun _ _ _ _ hf => hf.elim

theorem Registered.collecting {upto : Fin nGenerations} (h : Registered t) (hc : t.collecting = some upto) :
    Sound (fun _ gen => gen ≤ upto) t [] :=
  h.mono fun _ _ _ _ hb => by
    obtain ⟨upto', hupto, hle⟩ := hb
    rw [hc, Option.some_inj] at hupto
    exact hupto ▸ hle

theorem registered_of_collecting {upto : Fin nGenerations} (h : Sound (fun _ gen => gen ≤ upto) t []) :
    Registered { t with collecting := some upto } :=
  have hsound : Sound (Between { t with collecting := some upto }) t [] :=
    h.mono fun _ _ _ _ hle => ⟨upto, rfl, hle⟩
  ⟨⟨hsound.keyed, hsound.covered, hsound.small, hsound.marked⟩, hsound.placed⟩

theorem registered_of_done (h : Sound (fun _ _ => False) t []) : Registered { t with collecting := none } :=
  registered_of_idle ⟨⟨h.keyed, h.covered, h.small, h.marked⟩, h.placed⟩

theorem object_ok {a : ObjectId} {o : Obj} (h : t.heap a = some o) : t.object a = .ok o := by
  unfold GcState.object
  rw [h]
  rfl

theorem set_has {e : Entry} {flag : BitVec 8} {on : Bool} (hflag : flag &&& fCand = 0)
    (h : (e.set flag on).has fCand) : e.has fCand := by
  have hmask : ~~~flag &&& fCand = fCand := by
    revert hflag
    generalize fCand = c
    intro hflag
    rw [BitVec.eq_of_getLsbD_eq_iff]
    intro i hi
    have hbit := congrArg (fun b => b.getLsbD i) hflag
    simp only [BitVec.getLsbD_and, BitVec.getLsbD_not] at hbit ⊢
    simp only [hi, decide_true, Bool.true_and]
    cases hf : flag.getLsbD i <;> simp_all
  unfold Entry.has Entry.set at *
  cases on with
  | true =>
    rw [if_pos rfl, BitVec.and_comm, BitVec.and_or_distrib_left, BitVec.and_comm _ flag, hflag] at h
    rwa [BitVec.and_comm, ← BitVec.or_zero (x := fCand &&& e.flags)]
  | false => rwa [if_neg Bool.false_ne_true, BitVec.and_assoc, hmask] at h

theorem Registered.step (h : Registered t) (ha : t.Allowed op) :
    Ensures (t.step op) Registered (t.reg.free = noSlot ∧ t.reg.slab.length = tempBit) := by
  cases op with
  | alloc a kind strong =>
    exact Registered.of_sound (t := t)
      ⟨⟨h.keyed.alloc ha.1 rfl, h.covered, h.small, h.marked⟩, h.placed⟩ rfl
  | header a strong finalizeRan gcDeferred =>
    obtain ⟨o, ho, hlive, _⟩ := ha
    apply ensures_of_eq (by rw [GcState.step, object_ok ho]; rfl)
    exact Registered.of_sound (h.setObj ho rfl (fun _ => hlive) (.inl rfl)) rfl
  | young a slot =>
    obtain ⟨o, ho, hold, hnew⟩ := ha
    apply ensures_of_eq (by rw [GcState.step, object_ok ho]; rfl)
    exact Registered.of_sound (h.setObj ho rfl id (.inr ⟨hold, hnew⟩)) rfl
  | die a busy =>
    obtain ⟨o, ho, hlive⟩ := ha
    have hdead := h.setObj ho (show ({ o with strong := 0 } : Obj).kind = o.kind from rfl) (fun _ => hlive) (.inl rfl)
    rw [GcState.step, object_ok ho, ok_bind]
    dsimp only
    split_ifs with hc
    · obtain ⟨t', hrun, ht', hcoll⟩ := hdead.forgetInstanceIn o.gcSlot a
      exact ensures_of_eq hrun (Registered.of_sound ht' hcoll)
    · exact Registered.of_sound hdead rfl
  | dealloc a =>
    refine Registered.of_sound (t := t) ⟨⟨h.keyed.dealloc ?_, h.covered, h.small, h.marked⟩, h.placed⟩ rfl
    intro s w hw
    obtain ⟨e, he, hobj⟩ := Registry.exists_of_held hw
    exact ha.2 e (List.mem_of_getElem? he) w hobj
  | enter a =>
    obtain ⟨o, ho, hlive, hnone⟩ := ha
    rw [GcState.step, object_ok ho, ok_bind]
    have henter := h.enter (w := ⟨o.kind, a⟩) ho rfl hlive hnone
    exact henter.mono (fun t' ht' => Registered.of_sound ht'.1 ht'.2) id
  | untrack a =>
    obtain ⟨o, ho, hlive⟩ := ha
    obtain ⟨t', hrun, ht', hcoll⟩ := Sound.untrack h ho hlive
    apply ensures_of_eq (by rw [GcState.step, object_ok ho, ok_bind, hrun])
    exact Registered.of_sound ht' hcoll
  | untrackId id =>
    obtain ⟨t', hrun, ht', hcoll⟩ := Sound.untrackId h id
    exact ensures_of_eq hrun (Registered.of_sound ht' hcoll)
  | tally slot gcRefs node =>
    have he := List.getElem?_eq_getElem ha
    apply ensures_of_eq (by rw [GcState.step, Registry.entry_ok he, ok_bind]; rfl)
    exact Registered.of_sound (h.setEntry he rfl rfl rfl fun hc => h.marked _ _ he hc) rfl
  | setFlag slot flag on =>
    have he := List.getElem?_eq_getElem ha.1
    apply ensures_of_eq (by rw [GcState.step, Registry.entry_ok he, ok_bind]; rfl)
    exact Registered.of_sound (h.setEntry he rfl rfl rfl fun hc => h.marked _ _ he (set_has ha.2 hc)) rfl
  | mark upto =>
    obtain ⟨t', n, hrun, ht', hcoll, hzero⟩ := (h.idle ha).markCandidates (oldest upto)
    rw [GcState.step, hrun]
    show Registered (if n = 0 then t' else _)
    split_ifs with hn
    · exact registered_of_idle (hzero hn)
    · exact registered_of_collecting ht'
  | unmark =>
    rw [GcState.step]
    cases hc : t.collecting with
    | none => exact h
    | some upto =>
      obtain ⟨t', hrun, ht', _⟩ := (h.collecting hc).unmarkCandidates
      dsimp only
      rw [hrun]
      exact registered_of_done ht'
  | rebuild =>
    rw [GcState.step]
    cases hc : t.collecting with
    | none => exact h
    | some upto =>
      obtain ⟨t', hrun, ht', _⟩ := (h.collecting hc).rebuildGenerations
      dsimp only
      rw [hrun]
      exact registered_of_done ht'
  | prune gen start budget =>
    obtain ⟨t', k, j, hrun, ht', hcoll⟩ := Sound.pruneDeadIn h gen start budget
    apply ensures_of_eq (by rw [GcState.step, hrun]; rfl)
    exact Registered.of_sound ht' hcoll
  | freeze =>
    obtain ⟨t', hrun, ht', _⟩ := (h.idle ha).freezeAll
    exact ensures_of_eq hrun (registered_of_idle ht')
  | unfreeze =>
    obtain ⟨t', hrun, ht', hcoll⟩ := Sound.unfreezeAll h (by
      rintro _ ⟨upto, _, hle⟩
      have := upto.isLt
      unfold genFrozen nGenerations at *
      omega)
    exact ensures_of_eq hrun (Registered.of_sound ht' hcoll)
  | rebuildFilter => exact Registered.of_sound (Sound.rebuildTrackedFilter h) rfl

theorem registered_new : Registered .new := by
  refine ⟨⟨⟨?_, ?_, ?_, ?_, ?_, ?_⟩, ?_, ?_, ?_⟩, [], ⟨?_, rfl, ?_, ?_, ?_, ?_, ?_, ?_⟩⟩ <;>
    simp [GcState.new, Registry.new, Registry.held, Registry.list, tempBit]

theorem Reachable.registered (h : Reachable t) : Registered t := by
  induction h with
  | new => exact registered_new
  | step _ ha hrun ih => exact (ih.step ha).of_ok hrun

/-- An operation its callers may ask for returns, unless it needs a slot more than there can be. -/
theorem Reachable.step_returns (h : Reachable t) (ha : t.Allowed op)
    (hroom : t.reg.free ≠ noSlot ∨ t.reg.slab.length < tempBit) : ∃ t', t.step op = .ok t' := by
  have hstep := h.registered.step ha
  cases hrun : t.step op with
  | ok t' => exact ⟨t', rfl⟩
  | error e =>
    rw [hrun] at hstep
    obtain ⟨_, hfree, hfull⟩ := hstep
    rcases hroom with hroom | hroom
    · exact absurd hfree hroom
    · omega

end Steps

/-- `slot` holds a handle of the object at `a`. -/
def Holds (r : Registry) (slot : ℕ) (w : WeakObject) : Prop := ∃ e, r.slab[slot]? = some e ∧ e.obj = some w

/-- `slot` is listed once, where its entry says. -/
def ListedOnce (r : Registry) (slot : ℕ) : Prop :=
  ∃ e, r.slab[slot]? = some e ∧ (r.list e.gen)[e.pos]? = some slot ∧ (r.list e.gen).count slot = 1 ∧
    ∀ gen, gen ≠ e.gen → slot ∉ r.list gen

structure Represented (t : GcState) : Prop where
  slots : ∃ freed, layout.Chain t.reg.slab noSlot t.reg.free freed ∧ ∀ slot < t.reg.slab.length,
    (freed.count slot = 1 ∧ ∀ gen, slot ∉ t.reg.list gen) ∨ (slot ∉ freed ∧ ListedOnce t.reg slot)
  listed_lt : ∀ gen, ∀ slot ∈ t.reg.list gen, slot < t.reg.slab.length
  indexed : ∀ a slot, t.reg.index[a]? = some slot ↔
    ∃ w, Holds t.reg slot w ∧ w.addr = a ∧ ¬ slotIsIntrusive w
  own : ∀ slot w o, Holds t.reg slot w → t.heap w.addr = some o → 0 < o.strong → slotIsIntrusive w →
    o.gcSlot = slot
  object : ∀ slot w, Holds t.reg slot w → ∃ o, t.heap w.addr = some o ∧ o.kind = w.kind
  one_slot : ∀ slot slot' w w', Holds t.reg slot w → Holds t.reg slot' w' → w.addr = w'.addr → slot = slot'
  filtered : ∀ a, (t.reg.index[a]?).isSome → t.trackedFilter.mayContain a
  unmarked : t.collecting = none → ∀ e ∈ t.reg.slab, ¬ e.has fCand

theorem held_iff_holds {r : Registry} {slot : ℕ} {w : WeakObject} : r.held slot = some w ↔ Holds r slot w :=
  Option.bind_eq_some_iff

theorem Registered.slots {t : GcState} (h : Registered t) :
    ∃ freed, layout.Chain t.reg.slab noSlot t.reg.free freed ∧ ∀ slot < t.reg.slab.length,
      (freed.count slot = 1 ∧ ∀ gen, slot ∉ t.reg.list gen) ∨ (slot ∉ freed ∧ ListedOnce t.reg slot) := by
  obtain ⟨freed, hf⟩ := h.placed
  refine ⟨freed, hf.chain, fun slot hlt => ?_⟩
  have he := List.getElem?_eq_getElem hlt
  rcases hf.placed slot _ he with hl | hl | hl
  · simp at hl
  · exact .inl ⟨List.count_eq_one_of_mem hf.freed_nodup hl, hf.not_listed_of_freed hl⟩
  · have hmem := List.mem_of_getElem? hl
    refine .inr ⟨fun hfreed => hf.not_listed_of_freed hfreed _ hmem, _, he, hl, ?_, fun gen hgen hmem' => ?_⟩
    · exact List.count_eq_one_of_mem (hf.members_nodup _) hmem
    · obtain ⟨i, hi⟩ := List.getElem?_of_mem hmem'
      exact hgen (hf.place_unique hi hl).1

theorem Reachable.next {t t' : GcState} (h : Reachable t) (op : Op) (ha : t.Allowed op) (hrun : t.step op = .ok t') :
    Reachable t' := h.step ha hrun

end WeavePy.Gc
