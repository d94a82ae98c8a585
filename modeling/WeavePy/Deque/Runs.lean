import WeavePy.Deque.Refinement

/-!
Any run of operations on a deque answers as the reference does, whichever path serves each step.
-/

namespace WeavePy.Deque

variable {Obj : Type}

/-- The deque stores the reference's items, and each iterator stands where the reference's does. -/
structure Refines (w : World Obj) (r : Ref Obj) : Prop where
  rep : ∃ m, capacity m = r.capacity ∧ Rep w.deque r.items m w.deque.state
  bounded : Bounded r.items r.capacity
  iters : List.Forall₂ (IterOk r.items w.deque.state) w.iters r.iters

theorem Rep.state {q : DequeState Obj} {items : List Obj} {m : Option ℤ} {s : Int64}
    (h : Rep q items m s) : q.state = s := by
  obtain ⟨dead, rfl⟩ := h
  rfl

variable {w : World Obj} {r : Ref Obj}

theorem Refines.change (h : Refines w r) {q : DequeState Obj} {items : List Obj} {m : Option ℤ}
    {n : ℕ} (hm : capacity m = r.capacity) (hn : 0 < n)
    (hq : Rep q items m (w.deque.state + Int64.ofNat n)) (hb : Bounded items r.capacity) :
    Refines { w with deque := q } (r.change items n) where
  rep := ⟨m, hm, by rw [hq.state]; exact hq⟩
  bounded := hb
  iters := by
    rw [hq.state, Ref.change, List.forall₂_map_right_iff]
    exact h.iters.imp fun it ref hi => hi.change items hn

theorem Refines.forall₂_get (h : Refines w r) (k : ℕ) :
    (w.iters[k]? = none ∧ r.iters[k]? = none) ∨ ∃ it ref, w.iters[k]? = some it ∧
      r.iters[k]? = some ref ∧ IterOk r.items w.deque.state it ref := by
  have hlen := h.iters.length_eq
  by_cases hk : k < w.iters.length
  · have hk' : k < r.iters.length := by omega
    exact .inr ⟨_, _, List.getElem?_eq_getElem hk, List.getElem?_eq_getElem hk',
      List.forall₂_iff_get.mp h.iters |>.2 k hk hk'⟩
  · exact .inl ⟨List.getElem?_eq_none (by omega), List.getElem?_eq_none (by omega)⟩

theorem Refines.setIter (h : Refines w r) (k : ℕ) {it : Iter} {ref : RefIter Obj}
    (hi : IterOk r.items w.deque.state it ref) :
    Refines { w with iters := w.iters.set k it } { r with iters := r.iters.set k ref } where
  rep := h.rep
  bounded := h.bounded
  iters := by
    refine List.forall₂_iff_get.mpr ⟨by simp [h.iters.length_eq], fun i hi₁ hi₂ => ?_⟩
    rw [List.length_set] at hi₁ hi₂
    simp only [List.get_eq_getElem, List.getElem_set]
    split_ifs with hki
    · exact hi
    · exact List.forall₂_iff_get.mp h.iters |>.2 i hi₁ hi₂

theorem appended_bounded {items : List Obj} {cap : Option ℕ} (hb : Bounded items cap) (x : Obj) :
    Bounded (appended cap items x).1 cap := by
  intro k hk
  have := hb k hk
  rw [appended]
  split_ifs with hfull
  · simpa using this
  · have : k ≠ items.length := fun he => hfull (by rw [hk, he])
    simp
    omega

theorem prepended_bounded {items : List Obj} {cap : Option ℕ} (hb : Bounded items cap) (x : Obj) :
    Bounded (prepended cap items x) cap := by
  intro k hk
  have := hb k hk
  rw [prepended]
  split_ifs with hfull
  · simpa using this
  · have : k ≠ items.length := fun he => hfull (by rw [hk, he])
    simp
    omega

theorem appended_pos (cap : Option ℕ) (items : List Obj) (x : Obj) :
    0 < (appended cap items x).2 := by
  rw [appended]
  split_ifs <;> simp

theorem step_append (r : Ref Obj) (x : Obj) : r.step (.append x) =
    (r.change (appended r.capacity r.items x).1 (appended r.capacity r.items x).2, .ok .none) := by
  rw [Ref.step, appended]
  by_cases h : r.Full
  · have hfull : r.capacity = some r.items.length := h
    rw [if_pos h, if_pos hfull]
  · have hfull : ¬ r.capacity = some r.items.length := h
    rw [if_neg h, if_neg hfull]

theorem step_appendleft (r : Ref Obj) (x : Obj) : r.step (.appendleft x) =
    (r.change (prepended r.capacity r.items x) 1, .ok .none) := by
  rw [Ref.step, prepended]
  by_cases h : r.Full
  · have hfull : r.capacity = some r.items.length := h
    rw [if_pos h, if_pos hfull]
  · have hfull : ¬ r.capacity = some r.items.length := h
    rw [if_neg h, if_neg hfull]

/-- Each advance of an iterator comes while the counter tells it whether the deque has changed. -/
def Ref.Counted (r : Ref Obj) : Op Obj → Prop
  | .next k => ∀ ref, r.iters[k]? = some ref → Detects ref
  | _ => True

variable [Inhabited Obj]

theorem Refines.lockedOp (h : Refines w r) (op : Op Obj) (hc : r.Counted op) :
    ∃ w', lockedOp w op = .ok (w', (r.step op).2) ∧ Refines w' (r.step op).1 := by
  obtain ⟨m, hm, hq⟩ := h.rep
  have hb : Bounded r.items (capacity m) := hm ▸ h.bounded
  cases op with
  | append x =>
    obtain ⟨q', hrun, hq'⟩ := hq.append hb x
    rw [step_append, ← hm]
    refine ⟨_, ?_, h.change hm (appended_pos ..) hq' (hm ▸ appended_bounded hb x)⟩
    rw [Deque.lockedOp, hrun]
    rfl
  | appendleft x =>
    obtain ⟨q', hrun, hq'⟩ := hq.appendleft hb x
    rw [step_appendleft, ← hm]
    refine ⟨_, ?_, h.change hm (by simp) hq' (hm ▸ prepended_bounded hb x)⟩
    rw [Deque.lockedOp, hrun]
    rfl
  | pop =>
    rcases List.eq_nil_or_concat' r.items with hnil | ⟨items, x, hcons⟩
    · rw [hnil] at hq
      have hp := hq.pop_nil.2
      refine ⟨w, ?_, ?_⟩
      · rw [Deque.lockedOp, hp, Ref.step, hnil]
        rfl
      · rw [Ref.step, hnil]
        exact h
    · rw [hcons] at hq
      obtain ⟨q', hrun, hq'⟩ := hq.pop
      have hstep : r.step .pop = (r.change items 1, .ok (.elem x)) := by
        simp [Ref.step, hcons]
      rw [hstep]
      refine ⟨_, by rw [Deque.lockedOp, hrun]; rfl, h.change hm (by simp) hq' fun k hk => ?_⟩
      have := h.bounded k hk
      simp [hcons] at this
      omega
  | popleft =>
    cases hcons : r.items with
    | nil =>
      rw [hcons] at hq
      have hp := hq.takeLeft_nil
      refine ⟨w, ?_, ?_⟩
      · rw [Deque.lockedOp, DequeState.popleftLocked, hp, Ref.step, hcons]
        rfl
      · rw [Ref.step, hcons]
        exact h
    | cons x items =>
      rw [hcons] at hq
      obtain ⟨q', hrun, hq'⟩ := hq.popleftLocked
      have hstep : r.step .popleft = (r.change items 1, .ok (.elem x)) := by
        rw [Ref.step, hcons]
      rw [hstep]
      refine ⟨_, by rw [Deque.lockedOp, hrun]; rfl, h.change hm (by simp) hq' fun k hk => ?_⟩
      have := h.bounded k hk
      simp [hcons] at this
      omega
  | rotate n =>
    by_cases hlen : r.items.length ≤ 1
    · refine ⟨w, ?_, ?_⟩
      · rw [Deque.lockedOp, hq.rotate_short n hlen, Ref.step, if_pos hlen]
        rfl
      · rw [Ref.step, if_pos hlen]
        exact h
    · obtain ⟨q', hrun, hq'⟩ := hq.rotate n (by omega)
      rw [Ref.step, if_neg hlen]
      refine ⟨_, by rw [Deque.lockedOp, hrun]; rfl, h.change hm (by simp) hq' fun k hk => ?_⟩
      rw [rotateRight_length]
      exact h.bounded k hk
  | getitem i =>
    refine ⟨w, ?_, ?_⟩
    · rw [Deque.lockedOp, hq.getitem i, Ref.step]
      cases Ref.item? r.items i <;> rfl
    · rw [Ref.step]
      cases Ref.item? r.items i <;> exact h
  | len => exact ⟨w, by rw [Deque.lockedOp, hq.len]; rfl, h⟩
  | bool => exact ⟨w, by rw [Deque.lockedOp, hq.bool]; rfl, h⟩
  | iter reverse =>
    refine ⟨{ w with iters := w.iters ++ [w.deque.makeIter reverse] }, ?_, h.rep, h.bounded, ?_⟩
    · rw [Deque.lockedOp, h.iters.length_eq]
      rfl
    · exact List.rel_append h.iters (.cons (iterOk_makeIter hq reverse) .nil)
  | next k =>
    rcases h.forall₂_get k with ⟨hw, hr⟩ | ⟨it, ref, hw, hr, hi⟩
    · refine ⟨w, ?_, ?_⟩
      · rw [Deque.lockedOp, hw, Ref.step, hr]
        rfl
      · rw [Ref.step, hr]
        exact h
    · obtain ⟨a, it', hrun, ha, hi'⟩ := hq.next hi (hc ref hr)
      refine ⟨{ w with iters := w.iters.set k it' }, ?_, ?_⟩
      · rw [Deque.lockedOp, hw, Ref.step, hr]
        dsimp only
        rw [hrun, ← ha]
        rfl
      · rw [Ref.step, hr]
        exact h.setIter k hi'

theorem Refines.fastOp (h : Refines w r) (op : Op Obj) (hc : r.Counted op) :
    fastOp w op = .ok none ∨
      ∃ w', fastOp w op = .ok (some (w', (r.step op).2)) ∧ Refines w' (r.step op).1 := by
  obtain ⟨m, hm, hq⟩ := h.rep
  have hb : Bounded r.items (capacity m) := hm ▸ h.bounded
  cases op with
  | append x =>
    obtain ⟨q', hrun, hq'⟩ := hq.fastAppend hb x
    rw [step_append, ← hm]
    refine .inr ⟨_, ?_, h.change hm (appended_pos ..) hq' (hm ▸ appended_bounded hb x)⟩
    rw [Deque.fastOp, hrun]
    rfl
  | appendleft x =>
    obtain ⟨q', hrun, hq'⟩ := hq.appendleft hb x
    rw [step_appendleft, ← hm]
    refine .inr ⟨_, ?_, h.change hm (by simp) hq' (hm ▸ prepended_bounded hb x)⟩
    rw [Deque.fastOp, hq.fastAppendleft, hrun]
    rfl
  | pop =>
    rcases List.eq_nil_or_concat' r.items with hnil | ⟨items, x, hcons⟩
    · rw [hnil] at hq
      exact .inl (by rw [Deque.fastOp, hq.pop_nil.1]; rfl)
    · rw [hcons] at hq
      obtain ⟨q', hrun, hq'⟩ := hq.fastPop
      have hstep : r.step .pop = (r.change items 1, .ok (.elem x)) := by
        simp [Ref.step, hcons]
      rw [hstep]
      refine .inr ⟨_, by rw [Deque.fastOp, hrun]; rfl, h.change hm (by simp) hq' fun k hk => ?_⟩
      have := h.bounded k hk
      simp [hcons] at this
      omega
  | popleft =>
    cases hcons : r.items with
    | nil =>
      rw [hcons] at hq
      exact .inl (by rw [Deque.fastOp, DequeState.Fast.popleft, hq.takeLeft_nil]; rfl)
    | cons x items =>
      rw [hcons] at hq
      obtain ⟨q', hrun, hq'⟩ := hq.takeLeft
      have hstep : r.step .popleft = (r.change items 1, .ok (.elem x)) := by
        rw [Ref.step, hcons]
      rw [hstep]
      refine .inr ⟨_, by rw [Deque.fastOp, DequeState.Fast.popleft, hrun]; rfl,
        h.change hm (by simp) hq' fun k hk => ?_⟩
      have := h.bounded k hk
      simp [hcons] at this
      omega
  | rotate n => exact .inl rfl
  | getitem i =>
    rw [Deque.fastOp]
    by_cases hi : -2 ^ 63 ≤ i ∧ i < 2 ^ 63
    · rw [if_pos hi, hq.fastGetitem hi, Ref.step]
      cases Ref.item? r.items i with
      | none => exact .inl rfl
      | some x => exact .inr ⟨w, rfl, h⟩
    · exact .inl (if_neg hi)
  | len => exact .inr ⟨w, by rw [Deque.fastOp, hq.len]; rfl, h⟩
  | bool => exact .inr ⟨w, by rw [Deque.fastOp, hq.bool]; rfl, h⟩
  | iter reverse => exact .inl rfl
  | next k =>
    rcases h.forall₂_get k with ⟨hw, hr⟩ | ⟨it, ref, hw, hr, hi⟩
    · exact .inl (by rw [Deque.fastOp, hw]; rfl)
    · rcases hq.nextFast hi (hc ref hr) with hnone | ⟨x, rest, hl, ht, hrest, hrun⟩
      · refine .inl ?_
        rw [Deque.fastOp, hw]
        dsimp only
        rw [hnone]
        rfl
      · have hl' : it.live = true := hi.live.trans hl
        have hstep : r.step (.next k) =
            ({ r with iters := r.iters.set k { ref with rest } }, .ok (.elem x)) := by
          rw [Ref.step, hr]
          dsimp only
          rw [advance_cons hl ht hrest]
        rw [hstep]
        refine .inr ⟨_, ?_, h.setIter k (hi.more hl' ht hrest).2.2⟩
        rw [Deque.fastOp, hw]
        dsimp only
        rw [hrun]
        rfl

/-- One step, on either path, answers as the reference and keeps in step with it. -/
theorem Refines.step (h : Refines w r) (op : Op Obj) (fast : Bool) (hc : r.Counted op) :
    ∃ w', step w op fast = .ok (w', (r.step op).2) ∧ Refines w' (r.step op).1 := by
  rw [Deque.step]
  cases fast with
  | false => exact h.lockedOp op hc
  | true =>
    rcases h.fastOp op hc with hnone | ⟨w', hrun, hr⟩
    · rw [if_pos rfl, hnone]
      exact h.lockedOp op hc
    · rw [if_pos rfl, hrun]
      exact ⟨w', rfl, hr⟩

/-- The reference's run: where it ends and the answers. -/
def Ref.run (r : Ref Obj) : List (Op Obj) → Ref Obj × List (Answer Obj)
  | [] => (r, [])
  | op :: ops => (((r.step op).1.run ops).1, (r.step op).2 :: ((r.step op).1.run ops).2)

/-- In the whole run no iterator is advanced after the counter has come round to the value it had
when the iterator was made. -/
def Ref.CountedRun (r : Ref Obj) : List (Op Obj) → Prop
  | [] => True
  | op :: ops => r.Counted op ∧ (r.step op).1.CountedRun ops

def World.start (maxlen : Option ℕ) : World Obj :=
  ⟨.empty (maxlen.map fun m => (m : ℤ)), []⟩

def Ref.start (maxlen : Option ℕ) : Ref Obj := ⟨[], maxlen, []⟩

omit [Inhabited Obj] in
theorem refines_start (maxlen : Option ℕ) :
    Refines (World.start maxlen : World Obj) (.start maxlen) where
  rep := ⟨maxlen.map fun m => (m : ℤ), by cases maxlen <;> simp [capacity, Ref.start], rep_empty _⟩
  bounded := fun _ _ => by simp [Ref.start]
  iters := .nil

theorem Refines.run (h : Refines w r) (ops : List (Op Obj × Bool))
    (hc : r.CountedRun (ops.map Prod.fst)) :
    ∃ w', run w ops = .ok (w', (r.run (ops.map Prod.fst)).2) ∧
      Refines w' (r.run (ops.map Prod.fst)).1 := by
  induction ops generalizing w r with
  | nil => exact ⟨w, rfl, h⟩
  | cons op ops ih =>
    obtain ⟨op, fast⟩ := op
    obtain ⟨hop, hops⟩ := hc
    obtain ⟨w₁, hstep, h₁⟩ := h.step op fast hop
    obtain ⟨w₂, hrun, h₂⟩ := ih h₁ hops
    refine ⟨w₂, ?_, h₂⟩
    rw [Deque.run, hstep, ok_bind]
    dsimp only
    rw [hrun]
    rfl

/-- Every run from an empty deque of any bound answers as the reference of that bound does, with
its items from `_head` on and `_head` inside the backing list. -/
theorem run_refines (maxlen : Option ℕ) (ops : List (Op Obj × Bool))
    (hc : (Ref.start maxlen : Ref Obj).CountedRun (ops.map Prod.fst)) :
    ∃ w, run (World.start maxlen) ops =
        .ok (w, ((Ref.start maxlen).run (ops.map Prod.fst)).2) ∧
      0 ≤ w.deque.head ∧ w.deque.head ≤ w.deque.data.length ∧
      w.deque.data.drop w.deque.head.toNat =
        ((Ref.start maxlen).run (ops.map Prod.fst)).1.items := by
  obtain ⟨w, hrun, h⟩ := (refines_start maxlen).run ops hc
  obtain ⟨m, -, dead, hq⟩ := h.rep
  refine ⟨w, hrun, ?_⟩
  rw [hq]
  simp

def mixedRun : List (Op ℕ × Bool) :=
  [(.append 1, true), (.append 2, false), (.append 3, true), (.appendleft 0, false),
    (.iter true, true), (.next 0, true), (.rotate 1, true), (.next 0, false), (.pop, true),
    (.popleft, false), (.popleft, true)]

theorem run_refines_mixed : ∃ w, run (World.start (some 2)) mixedRun =
    .ok (w, [.ok .none, .ok .none, .ok .none, .ok .none, .ok (.iter 0), .ok (.elem 2), .ok .none,
      .error (.runtimeError "deque mutated during iteration"), .ok (.elem 0), .ok (.elem 2),
      .error (.indexError "pop from an empty deque")]) := by
  obtain ⟨w, hrun, -⟩ := run_refines (some 2) mixedRun (by
    simp [mixedRun, Ref.CountedRun, Ref.Counted, Ref.start, Ref.step, Ref.change, Ref.Full,
      Ref.advance, Detects])
  exact ⟨w, hrun⟩

/-- `n` times an item is appended and taken off again. -/
def churn (n : ℕ) : List (Op ℕ × Bool) :=
  (List.replicate n [(.append 2, true), (.pop, true)]).flatten

theorem run_append {w w₁ w₂ : World Obj} {ops₁ ops₂ : List (Op Obj × Bool)}
    {as₁ as₂ : List (Answer Obj)} (h₁ : Deque.run w ops₁ = .ok (w₁, as₁))
    (h₂ : Deque.run w₁ ops₂ = .ok (w₂, as₂)) :
    Deque.run w (ops₁ ++ ops₂) = .ok (w₂, as₁ ++ as₂) := by
  induction ops₁ generalizing w as₁ with
  | nil =>
    obtain ⟨rfl, rfl⟩ := Prod.mk.inj (Except.ok.inj h₁)
    exact h₂
  | cons op ops ih =>
    obtain ⟨⟨w', a⟩, hs, h₁⟩ := bind_eq_ok.mp h₁
    obtain ⟨⟨w'', as⟩, hr, h₁⟩ := bind_eq_ok.mp h₁
    obtain ⟨rfl, rfl⟩ := Prod.mk.inj (Except.ok.inj h₁)
    rw [List.cons_append, Deque.run, hs, ok_bind]
    dsimp only
    rw [ih hr]
    rfl

theorem run_churn (n : ℕ) (s : Int64) (its : List Iter) :
    ∃ as, Deque.run ⟨⟨[1], 0, none, s⟩, its⟩ (churn n) =
      .ok (⟨⟨[1], 0, none, s + Int64.ofNat (2 * n)⟩, its⟩, as) := by
  induction n generalizing s with
  | zero => exact ⟨[], by simp [churn]; rfl⟩
  | succ n ih =>
    obtain ⟨as, hrun⟩ := ih (s + 2)
    have hpair : Deque.run ⟨⟨[1], 0, none, s⟩, its⟩ [(.append 2, true), (.pop, true)] =
        .ok (⟨⟨[1], 0, none, s + 2⟩, its⟩, [.ok .none, .ok (.elem 2)]) := by
      rw [show s + 2 = s + 1 + 1 by rw [Int64.add_assoc]; rfl]
      rfl
    refine ⟨[.ok .none, .ok (.elem 2)] ++ as, ?_⟩
    have hboth := run_append hpair hrun
    rw [show churn (n + 1) = [(.append 2, true), (.pop, true)] ++ churn n from rfl, hboth,
      show 2 * (n + 1) = 2 + 2 * n by omega, Int64.ofNat_add, ← Int64.add_assoc]
    rfl

/-- A `rotate` that moves nothing stops an iterator, and `2 ^ 64` changes of the contents do not:
the counter is back at the iterator's value. -/
theorem iterator_misjudges :
    (∃ w w' : World ℕ,
      (∃ as, run (.start none) [(.append 1, true), (.append 2, true), (.iter false, true)] =
        .ok (w, as)) ∧
      run w [(.rotate 2, true)] = .ok (w', [.ok .none]) ∧
      w'.deque.data.drop w'.deque.headOf = w.deque.data.drop w.deque.headOf ∧
      ∃ w'', step w' (.next 0) true =
        .ok (w'', .error (.runtimeError "deque mutated during iteration"))) ∧
    (∃ w w' : World ℕ,
      (∃ as, run (.start none) [(.append 1, true), (.iter false, true)] = .ok (w, as)) ∧
      (∃ as, run w (churn (2 ^ 63)) = .ok (w', as)) ∧
      ∃ w'', step w' (.next 0) true = .ok (w'', .ok (.elem 1))) := by
  constructor
  · exact ⟨_, _, ⟨_, rfl⟩, rfl, rfl, _, rfl⟩
  · obtain ⟨as, hrun⟩ := run_churn (2 ^ 63) 1 [⟨true, 0, 1, false⟩]
    rw [show Int64.ofNat (2 * 2 ^ 63) = 0 from ofNat_eq_zero.mpr ⟨1, rfl⟩, Int64.add_zero] at hrun
    exact ⟨_, _, ⟨_, rfl⟩, ⟨as, hrun⟩, _, rfl⟩

end WeavePy.Deque
