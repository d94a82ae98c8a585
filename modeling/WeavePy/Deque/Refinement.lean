import Mathlib.Data.List.Forall2
import Mathlib.Data.List.Rotate
import Mathlib.Tactic.Linarith
import WeavePy.Deque.Operations

/-!
A deque against a double-ended queue that is just a list, each native operation in turn.
-/

namespace WeavePy.Deque

variable {Obj : Type}

/-- An iterator as a user sees it: the items still to come, and the times the deque's counter has
moved since the iterator was made. -/
structure RefIter (Obj : Type) where
  live : Bool
  rest : List Obj
  ticks : ℕ
  deriving DecidableEq, Repr

/-- The reference: a list bounded by `capacity`, and its iterators. -/
structure Ref (Obj : Type) where
  items : List Obj
  capacity : Option ℕ
  iters : List (RefIter Obj)
  deriving DecidableEq, Repr

namespace Ref

/-- The items after a change that moves the counter `n` times. -/
def change (r : Ref Obj) (items : List Obj) (n : ℕ) : Ref Obj :=
  { r with items, iters := r.iters.map fun it => { it with ticks := it.ticks + n } }

def Full (r : Ref Obj) : Prop := r.capacity = some r.items.length

instance (r : Ref Obj) : Decidable r.Full := inferInstanceAs (Decidable (_ = _))

/-- Python's index into a list; no list is long enough for an index past the machine ints. -/
def item? (l : List Obj) (i : ℤ) : Option Obj :=
  let index := if i < 0 then i + l.length else i
  if -2 ^ 63 ≤ i ∧ i < 2 ^ 63 ∧ 0 ≤ index then l[index.toNat]? else none

def advance (it : RefIter Obj) : Answer Obj × RefIter Obj :=
  if it.live = false then (.error .stopIteration, it)
  else if it.ticks ≠ 0 then
    (.error (.runtimeError "deque mutated during iteration"), { it with live := false })
  else
    match it.rest with
    | [] => (.error .stopIteration, { it with live := false })
    | x :: rest => (.ok (.elem x), { it with rest })

def step (r : Ref Obj) : Op Obj → Ref Obj × Answer Obj
  | .append x =>
    if r.Full then (r.change (r.items ++ [x]).tail 2, .ok .none)
    else (r.change (r.items ++ [x]) 1, .ok .none)
  | .appendleft x =>
    if r.Full then (r.change (x :: r.items).dropLast 1, .ok .none)
    else (r.change (x :: r.items) 1, .ok .none)
  | .pop =>
    match r.items.getLast? with
    | some x => (r.change r.items.dropLast 1, .ok (.elem x))
    | none => (r, .error (.indexError "pop from an empty deque"))
  | .popleft =>
    match r.items with
    | x :: items => (r.change items 1, .ok (.elem x))
    | [] => (r, .error (.indexError "pop from an empty deque"))
  | .rotate n =>
    if r.items.length ≤ 1 then (r, .ok .none)
    else (r.change (r.items.rotateRight (n.toInt % r.items.length).toNat) 1, .ok .none)
  | .getitem i =>
    match item? r.items i with
    | some x => (r, .ok (.elem x))
    | none => (r, .error (.indexError "deque index out of range"))
  | .len => (r, .ok (.int r.items.length))
  | .bool => (r, .ok (.bool (!r.items.isEmpty)))
  | .iter reverse =>
    ({ r with iters := r.iters ++ [⟨true, if reverse then r.items.reverse else r.items, 0⟩] },
      .ok (.iter r.iters.length))
  | .next k =>
    match r.iters[k]? with
    | none => (r, .error (.typeError "deque iterator __next__ requires one iterator"))
    | some it => ({ r with iters := r.iters.set k (advance it).2 }, (advance it).1)

end Ref

/-- The deque of `items`, its counter at `state`, behind some dead prefix. -/
def Rep (q : DequeState Obj) (items : List Obj) (maxlen : Option ℤ) (state : Int64) : Prop :=
  ∃ dead : List Obj, q = ⟨dead ++ items, dead.length, maxlen, state⟩

@[simp] theorem headOf_mk (d : List Obj) (n : ℕ) (m : Option ℤ) (s : Int64) :
    DequeState.headOf ⟨d, n, m, s⟩ = n := rfl

theorem usub_ok {a b : ℕ} (h : b ≤ a) : usub a b = .ok (a - b) := by
  rw [usub, if_pos h]
  rfl

theorem index_append {dead l : List Obj} {x : Obj} :
    index (dead ++ x :: l) dead.length = .ok x := by simp [index]

theorem setIndex_append {dead l : List Obj} {x y : Obj} :
    setIndex (dead ++ x :: l) dead.length y = .ok (dead ++ y :: l) := by simp [setIndex]

/-- What `_maxlen` bounds a deque to. -/
def capacity (m : Option ℤ) : Option ℕ :=
  match m with
  | some m => if 0 ≤ m then some m.toNat else none
  | none => none

theorem maxlenOf_eq (q : DequeState Obj) : q.maxlenOf = capacity q.maxlen := rfl

def Bounded (items : List Obj) (cap : Option ℕ) : Prop := ∀ m, cap = some m → items.length ≤ m

theorem Rep.maxlenOf {q : DequeState Obj} {items : List Obj} {m : Option ℤ} {s : Int64}
    (h : Rep q items m s) : q.maxlenOf = capacity m := by
  obtain ⟨dead, rfl⟩ := h
  rfl

theorem rep_empty (m : Option ℤ) : Rep (DequeState.empty m : DequeState Obj) [] m 0 := ⟨[], rfl⟩

section Ends

variable [Inhabited Obj] {q : DequeState Obj} {items : List Obj} {m : Option ℤ} {s : Int64}

theorem Rep.takeLeft_nil (h : Rep q [] m s) : q.takeLeft = .ok none := by
  obtain ⟨dead, rfl⟩ := h
  simp [DequeState.takeLeft]
  rfl

theorem Rep.takeLeft {x : Obj} (h : Rep q (x :: items) m s) :
    ∃ q', q.takeLeft = .ok (some (x, q')) ∧ Rep q' items m (s + 1) := by
  obtain ⟨dead, rfl⟩ := h
  have hlen : ¬ dead.length ≥ (dead ++ x :: items).length := by simp
  simp only [DequeState.takeLeft, headOf_mk, if_neg hlen, index_append, setIndex_append, ok_bind]
  by_cases h₁ : dead.length + 1 ≥ (dead ++ default :: items).length
  · have hnil : items = [] := by simpa using h₁
    exact ⟨_, if_pos h₁, [], by simp [hnil, DequeState.setHead, DequeState.bumpState]⟩
  · by_cases h₂ : dead.length + 1 ≥ 32 ∧ (dead.length + 1) * 2 ≥ (dead ++ default :: items).length
    · exact ⟨_, (if_neg h₁).trans (if_pos h₂), [], by
        simp [DequeState.setHead, DequeState.bumpState]⟩
    · exact ⟨_, (if_neg h₁).trans (if_neg h₂), dead ++ [default], by
        simp [DequeState.setHead, DequeState.bumpState]⟩

omit [Inhabited Obj] in
theorem Rep.push (h : Rep q items m s) (x : Obj) :
    Rep ⟨q.data ++ [x], q.head, q.maxlen, q.state + 1⟩ (items ++ [x]) m (s + 1) := by
  obtain ⟨dead, rfl⟩ := h
  exact ⟨dead, by simp⟩

omit [Inhabited Obj] in
theorem Rep.length (h : Rep q items m s) : usub q.data.length q.headOf = .ok items.length := by
  obtain ⟨dead, rfl⟩ := h
  rw [usub_ok (by simp)]
  simp

/-- The items an `append` leaves and how far the counter has moved: dropping the left end of a
full deque moves it again. -/
def appended (cap : Option ℕ) (items : List Obj) (x : Obj) : List Obj × ℕ :=
  if cap = some items.length then ((items ++ [x]).tail, 2) else (items ++ [x], 1)

theorem Rep.fastAppend (h : Rep q items m s) (hb : Bounded items (capacity m)) (x : Obj) :
    ∃ q', DequeState.Fast.append q x = .ok q' ∧ Rep q' (appended (capacity m) items x).1 m
      (s + Int64.ofNat (appended (capacity m) items x).2) := by
  have hp := h.push x
  have hlen := hp.length
  have hmax := hp.maxlenOf
  simp only [DequeState.Fast.append, DequeState.bumpState, DequeState.Fast.popleft]
  rw [hmax, appended]
  cases hm : capacity m with
  | none => exact ⟨_, rfl, hp⟩
  | some k =>
    have hk := hb k hm
    dsimp only
    rw [hlen, ok_bind]
    by_cases hfull : k = items.length
    · obtain ⟨y, l, hl⟩ : ∃ y l, items ++ [x] = y :: l := List.exists_cons_of_ne_nil (by simp)
      rw [hl] at hp
      obtain ⟨q', hq', hr⟩ := hp.takeLeft
      rw [if_pos (by simp [hfull]), if_pos (by rw [hfull]), hq', hl]
      exact ⟨q', rfl, by rwa [Int64.add_assoc] at hr⟩
    · rw [if_neg (by simp; omega), if_neg (by simpa using hfull)]
      exact ⟨_, rfl, hp⟩

theorem Rep.popleftLocked {x : Obj} (h : Rep q (x :: items) m s) :
    ∃ q', q.popleftLocked = .ok (.ok (x, q')) ∧ Rep q' items m (s + 1) := by
  obtain ⟨q', hq', hr⟩ := h.takeLeft
  exact ⟨q', by rw [DequeState.popleftLocked, hq']; rfl, hr⟩

theorem Rep.append (h : Rep q items m s) (hb : Bounded items (capacity m)) (x : Obj) :
    ∃ q', q.append x = .ok (.ok q') ∧ Rep q' (appended (capacity m) items x).1 m
      (s + Int64.ofNat (appended (capacity m) items x).2) := by
  have hp := h.push x
  have hlen := hp.length
  have hmax := hp.maxlenOf
  simp only [DequeState.append, DequeState.bumpState]
  rw [hmax, appended]
  cases hm : capacity m with
  | none => exact ⟨_, rfl, hp⟩
  | some k =>
    have hk := hb k hm
    dsimp only
    rw [hlen, ok_bind]
    by_cases hfull : k = items.length
    · obtain ⟨y, l, hl⟩ : ∃ y l, items ++ [x] = y :: l := List.exists_cons_of_ne_nil (by simp)
      rw [hl] at hp
      obtain ⟨q', hq', hr⟩ := hp.popleftLocked
      rw [if_pos (by simp [hfull]), if_pos (by rw [hfull]), hq', hl]
      exact ⟨q', rfl, by rwa [Int64.add_assoc] at hr⟩
    · rw [if_neg (by simp; omega), if_neg (by simpa using hfull)]
      exact ⟨_, rfl, hp⟩

def prepended (cap : Option ℕ) (items : List Obj) (x : Obj) : List Obj :=
  if cap = some items.length then (x :: items).dropLast else x :: items

/-- `appendleft` writes in the last place of a dead prefix, which it makes when there is none. -/
theorem Rep.appendleft (h : Rep q items m s) (hb : Bounded items (capacity m)) (x : Obj) :
    ∃ q', q.appendleft x = .ok q' ∧ Rep q' (prepended (capacity m) items x) m (s + 1) := by
  obtain ⟨dead, rfl⟩ := h
  have hwrite (d : List Obj) (z : Obj) (head : ℤ) :
      ∃ q', DequeState.putLeft ⟨d ++ [z] ++ items, head, m, s + 1⟩ (d ++ [z]).length x = .ok q' ∧
        Rep q' (prepended (capacity m) items x) m (s + 1) := by
    have hset : setIndex (d ++ [z] ++ items) d.length x = .ok (d ++ x :: items) := by
      rw [List.append_assoc]
      exact setIndex_append
    have hlen : usub (d ++ x :: items).length d.length = .ok (items.length + 1) := by
      rw [usub_ok (by simp)]
      simp
    have hone : usub (d ++ [z]).length 1 = .ok d.length := by
      rw [usub_ok (by simp)]
      simp
    have hne : ¬ (d ++ [z]).length = 0 := by simp
    simp only [DequeState.putLeft, hne, ↓reduceIte, hone, ok_bind, hset, DequeState.setHead, maxlenOf_eq, hlen]
    rw [prepended]
    cases hm : capacity m with
    | none => exact ⟨_, rfl, d, rfl⟩
    | some k =>
      have hk := hb k hm
      by_cases hfull : k = items.length
      · rw [if_pos (by rw [hfull])]
        refine ⟨_, if_pos (by omega), d, ?_⟩
        rw [List.dropLast_append_of_ne_nil (by simp)]
      · rw [if_neg (by simpa using hfull)]
        exact ⟨_, if_neg (by omega), d, rfl⟩
  by_cases hd : dead = []
  · subst hd
    have hrep : List.replicate (max 8 (items.length / 2)) (default : Obj) =
        List.replicate (max 8 (items.length / 2) - 1) default ++ [default] := by
      rw [← List.replicate_succ']
      congr 1
      omega
    have hw := hwrite (List.replicate (max 8 (items.length / 2) - 1) default) default 0
    have hne : ¬ max 8 (items.length / 2) = 0 := by omega
    rw [← hrep, List.length_replicate] at hw
    simp only [DequeState.putLeft, hne, ↓reduceIte] at hw
    exact hw
  · obtain ⟨d, z, rfl⟩ : ∃ d z, dead = d ++ [z] := ⟨_, _, (List.dropLast_append_getLast hd).symm⟩
    have hw := hwrite d z (d ++ [z]).length
    simp only [DequeState.appendleft, headOf_mk, DequeState.bumpState]
    exact hw

theorem Rep.fastAppendleft (h : Rep q items m s) (x : Obj) :
    DequeState.Fast.appendleft q x = q.appendleft x := by
  obtain ⟨dead, rfl⟩ := h
  have hmin : min dead.length (dead ++ items).length = dead.length := by simp
  simp only [DequeState.Fast.appendleft, DequeState.appendleft, DequeState.bumpState, headOf_mk,
    hmin]

omit [Inhabited Obj] in
theorem Rep.pop_nil (h : Rep q [] m s) : DequeState.Fast.pop q = .ok none ∧
    q.pop = .ok (.error (.indexError "pop from an empty deque")) := by
  obtain ⟨dead, rfl⟩ := h
  simp [DequeState.Fast.pop, DequeState.pop]
  exact ⟨rfl, rfl⟩

omit [Inhabited Obj] in
theorem Rep.fastPop {x : Obj} (h : Rep q (items ++ [x]) m s) :
    ∃ q', DequeState.Fast.pop q = .ok (some (x, q')) ∧ Rep q' items m (s + 1) := by
  obtain ⟨dead, rfl⟩ := h
  have hlen : ¬ (dead ++ (items ++ [x])).length ≤ dead.length := by simp
  have hlast : (dead ++ (items ++ [x])).getLast? = some x := by simp
  have hdrop : (dead ++ (items ++ [x])).dropLast = dead ++ items := by
    rw [← List.append_assoc, List.dropLast_concat]
  simp only [DequeState.Fast.pop, headOf_mk, if_neg hlen, DequeState.bumpState, hlast, hdrop]
  by_cases hc : (dead ++ items).length = dead.length ∧ dead.length > 32
  · have hnil : items = [] := by simpa using hc.1
    exact ⟨_, if_pos hc, [], by simp [hnil, DequeState.setHead]⟩
  · exact ⟨_, if_neg hc, dead, rfl⟩

omit [Inhabited Obj] in
theorem Rep.pop {x : Obj} (h : Rep q (items ++ [x]) m s) :
    ∃ q', q.pop = .ok (.ok (x, q')) ∧ Rep q' items m (s + 1) := by
  obtain ⟨dead, rfl⟩ := h
  have hlen : ¬ (dead ++ (items ++ [x])).length ≤ dead.length := by simp
  have hlast : (dead ++ (items ++ [x])).getLast? = some x := by simp
  have hdrop : (dead ++ (items ++ [x])).dropLast = dead ++ items := by
    rw [← List.append_assoc, List.dropLast_concat]
  simp only [DequeState.pop, headOf_mk, if_neg hlen, DequeState.bumpState, hlast, hdrop]
  by_cases hc : (dead ++ items).length = dead.length ∧ dead.length ≠ 0
  · have hnil : items = [] := by simpa using hc.1
    exact ⟨_, if_pos hc, [], by simp [hnil, DequeState.setHead]⟩
  · exact ⟨_, if_neg hc, dead, rfl⟩

end Ends

section Rotation

variable [Inhabited Obj]

omit [Inhabited Obj] in
theorem swap_append (a b c : List Obj) (x y : Obj) :
    swap (a ++ x :: b ++ y :: c) a.length (a.length + 1 + b.length) =
      .ok (a ++ y :: b ++ x :: c) := by
  have hy : index (a ++ x :: b ++ y :: c) (a.length + 1 + b.length) = .ok y := by
    have hl : a.length + 1 + b.length = (a ++ x :: b).length := by simp; omega
    rw [hl]
    exact index_append
  have hs : setIndex (a ++ y :: b ++ y :: c) (a.length + 1 + b.length) x =
      .ok (a ++ y :: b ++ x :: c) := by
    have hl : a.length + 1 + b.length = (a ++ y :: b).length := by simp; omega
    rw [hl]
    exact setIndex_append
  have hx : index (a ++ x :: b ++ y :: c) a.length = .ok x := by
    rw [List.append_assoc]
    exact index_append
  have hset : setIndex (a ++ x :: b ++ y :: c) a.length y = .ok (a ++ y :: b ++ y :: c) := by
    rw [List.append_assoc, List.append_assoc]
    exact setIndex_append
  rw [swap, hx, ok_bind, hy, ok_bind, hset, ok_bind, hs]

omit [Inhabited Obj] in
/-- Swapping two blocks of one length item by item. -/
theorem swapEach_append (a x b y c : List Obj) (h : x.length = y.length) :
    swapEach (a ++ x ++ b ++ y ++ c) a.length (a.length + x.length + b.length) x.length =
      .ok (a ++ y ++ b ++ x ++ c) := by
  induction x generalizing a b y with
  | nil =>
    obtain rfl : y = [] := List.eq_nil_of_length_eq_zero h.symm
    rfl
  | cons u x ih =>
    obtain ⟨v, y, rfl⟩ : ∃ v y', y = v :: y' := List.exists_cons_of_length_pos (by rw [← h]; simp)
    have hl : a.length + (u :: x).length + b.length = a.length + 1 + (x ++ b).length := by
      simp
      omega
    have hs := swap_append a (x ++ b) (y ++ c) u v
    rw [List.length_cons, swapEach, ← List.length_cons, hl]
    rw [show a ++ u :: x ++ b ++ v :: y ++ c = a ++ u :: (x ++ b) ++ v :: (y ++ c) by simp, hs,
      ok_bind]
    have hi := ih (a ++ [v]) (b ++ [u]) y (by simpa using h)
    rw [show a ++ v :: (x ++ b) ++ u :: (y ++ c) = a ++ [v] ++ x ++ (b ++ [u]) ++ y ++ c by simp,
      show a.length + 1 = (a ++ [v]).length by simp,
      show (a ++ [v]).length + (x ++ b).length + 1 =
        (a ++ [v]).length + x.length + (b ++ [u]).length by simp; omega, hi]
    simp

/-- Moving the first items behind the others leaves `None`s in their places. -/
theorem moveEach_append (a x b : List Obj) :
    moveEach (a ++ x ++ b) a.length x.length =
      .ok (a ++ List.replicate x.length default ++ b ++ x) := by
  induction x generalizing a b with
  | nil =>
    simp [moveEach]
    rfl
  | cons u x ih =>
    have hx : index (a ++ u :: x ++ b) a.length = .ok u := by
      rw [List.append_assoc]
      exact index_append
    have hs : setIndex (a ++ u :: x ++ b) a.length default = .ok (a ++ default :: x ++ b) := by
      rw [List.append_assoc, List.append_assoc]
      exact setIndex_append
    have hi := ih (a ++ [default]) (b ++ [u])
    rw [List.length_cons, moveEach, hx, ok_bind, hs, ok_bind,
      show a ++ default :: x ++ b ++ [u] = a ++ [default] ++ x ++ (b ++ [u]) by simp,
      show a.length + 1 = (a ++ [default]).length by simp, hi]
    simp [List.replicate_succ]

omit [Inhabited Obj] in
theorem rotateRight_eq {items : List Obj} {r : ℕ} (h : 1 < items.length) (hr : r < items.length) :
    items.rotateRight r = items.drop (items.length - r) ++ items.take (items.length - r) := by
  rw [List.rotateRight, if_neg (by omega), Nat.mod_eq_of_lt hr]

omit [Inhabited Obj] in
theorem rotateRight_length (items : List Obj) (r : ℕ) :
    (items.rotateRight r).length = items.length := by
  rw [List.rotateRight]
  split_ifs
  · rfl
  · simp

omit [Inhabited Obj] in
theorem exists_split {l : List Obj} {n : ℕ} (h : n ≤ l.length) :
    ∃ a b, l = a ++ b ∧ b.length = n :=
  ⟨l.take (l.length - n), l.drop (l.length - n), by simp, by simp; omega⟩

theorem Rep.rotate {q : DequeState Obj} {items : List Obj} {m : Option ℤ} {s : Int64}
    (h : Rep q items m s) (n : Int64) (hlen : 1 < items.length) :
    ∃ q', q.rotate n = .ok q' ∧
      Rep q' (items.rotateRight (n.toInt % items.length).toNat) m (s + 1) := by
  obtain ⟨dead, rfl⟩ := h
  have hmod : 0 ≤ n.toInt % items.length ∧ n.toInt % items.length < items.length :=
    ⟨Int.emod_nonneg _ (by omega), Int.emod_lt_of_pos _ (by omega)⟩
  unfold DequeState.rotate
  dsimp only
  rw [headOf_mk, show min dead.length (dead ++ items).length = dead.length by simp,
    show (dead ++ items).length - dead.length = items.length by simp]
  generalize hr : (n.toInt % items.length).toNat = right
  have hright : right < items.length := by omega
  rw [rotateRight_eq hlen hright, if_neg (by omega)]
  by_cases h0 : right = 0
  · rw [if_pos h0]
    exact ⟨_, rfl, dead, by simp [h0, DequeState.bumpState]⟩
  rw [if_neg h0]
  by_cases hhalf : right ≤ items.length / 2
  · -- The last `right` items are swapped into a dead prefix long enough.
    rw [if_pos hhalf]
    have hprefix : ∃ dead' : List Obj, right ≤ dead'.length ∧
        (if dead.length < right then
          (List.replicate (max (max right (items.length / 2)) 8) default ++ (dead ++ items),
            dead.length + max (max right (items.length / 2)) 8)
        else (dead ++ items, dead.length)) = (dead' ++ items, dead'.length) := by
      by_cases hd : dead.length < right
      · refine ⟨List.replicate (max (max right (items.length / 2)) 8) default ++ dead,
          by simp; omega, ?_⟩
        rw [if_pos hd]
        simp [Nat.add_comm]
      · exact ⟨dead, by omega, if_neg hd⟩
    obtain ⟨dead', hd, heq⟩ := hprefix
    obtain ⟨a, x, rfl, hx⟩ := exists_split hd
    obtain ⟨b, y, rfl, hy⟩ := exists_split hright.le
    have hs := swapEach_append a x b y [] (hx.trans hy.symm)
    have hend : (a ++ x ++ (b ++ y)).length - right = a.length + x.length + b.length := by
      simp
      omega
    have hat : (a ++ x).length - right = a.length := by simp; omega
    simp only [DequeState.bumpState, heq]
    rw [usub_ok (by simp; omega), ok_bind, usub_ok (by simp; omega), ok_bind, hat, hend, ← hx]
    rw [show a ++ x ++ (b ++ y) = a ++ x ++ b ++ y ++ [] by simp, hs, ok_bind]
    refine ⟨_, rfl, a, ?_⟩
    have htake : (a ++ y ++ b ++ x ++ []).take (a.length + x.length + b.length) = a ++ (y ++ b) := by
      rw [List.append_nil, List.take_left' (by simp; omega), List.append_assoc]
    have hb : (b ++ y).length - x.length = b.length := by simp; omega
    rw [htake, hb]
    simp [DequeState.setHead]
  · -- The first `left` items are moved behind the others.
    rw [if_neg hhalf]
    obtain ⟨x, b, rfl, hb⟩ := exists_split hright.le
    have hleft : (x ++ b).length - right = x.length := by simp; omega
    have hm := moveEach_append dead x b
    simp only [DequeState.bumpState]
    rw [hleft, ← List.append_assoc, hm, ok_bind]
    have hitems : (x ++ b).drop x.length ++ (x ++ b).take x.length = b ++ x := by simp
    rw [hitems]
    by_cases hc : dead.length + x.length ≥ 32 ∧ (dead.length + x.length) * 2 ≥
        (dead ++ List.replicate x.length default ++ b ++ x).length
    · refine ⟨_, if_pos hc, [], ?_⟩
      have hdrop : (dead ++ List.replicate x.length default ++ b ++ x).drop
          (dead.length + x.length) = b ++ x := by
        rw [List.append_assoc, List.drop_left' (by simp)]
      rw [hdrop]
      simp [DequeState.setHead]
    · exact ⟨_, if_neg hc, dead ++ List.replicate x.length default, by
        simp [DequeState.setHead]⟩

theorem Rep.rotate_short {q : DequeState Obj} {items : List Obj} {m : Option ℤ} {s : Int64}
    (h : Rep q items m s) (n : Int64) (hlen : items.length ≤ 1) : q.rotate n = .ok q := by
  obtain ⟨dead, rfl⟩ := h
  have hl : (dead ++ items).length - min dead.length (dead ++ items).length ≤ 1 := by simp; omega
  exact if_pos hl

end Rotation

section Reading

variable {q : DequeState Obj} {items : List Obj} {m : Option ℤ} {s : Int64}

theorem Rep.len (h : Rep q items m s) : q.len = items.length := by
  obtain ⟨dead, rfl⟩ := h
  simp [DequeState.len]

theorem Rep.bool (h : Rep q items m s) : q.bool = !items.isEmpty := by
  obtain ⟨dead, rfl⟩ := h
  cases items <;> simp [DequeState.bool]

theorem index_dead {dead items : List Obj} {i : ℕ} (hi : i < items.length) :
    index (dead ++ items) (dead.length + i) = .ok items[i] := by
  rw [index_ok (by simp; omega)]
  simp

theorem item?_eq (items : List Obj) {i : ℤ} (hi : -2 ^ 63 ≤ i ∧ i < 2 ^ 63) :
    Ref.item? items i = if 0 ≤ (if i < 0 then i + (items.length : ℤ) else i) then
      items[(if i < 0 then i + (items.length : ℤ) else i).toNat]? else none := by
  simp only [Ref.item?, hi, true_and]

theorem Rep.fastGetitem (h : Rep q items m s) {i : ℤ} (hi : -2 ^ 63 ≤ i ∧ i < 2 ^ 63) :
    DequeState.Fast.getitem q i = .ok (Ref.item? items i) := by
  obtain ⟨dead, rfl⟩ := h
  have hn : ((((dead ++ items).length - dead.length : ℕ) : ℤ)) = items.length := by simp
  rw [item?_eq items hi]
  unfold DequeState.Fast.getitem
  dsimp only
  rw [headOf_mk, hn]
  generalize (if i < 0 then i + (items.length : ℤ) else i) = j
  by_cases hj : 0 ≤ j
  · by_cases hlt : j < items.length
    · rw [if_pos ⟨hj, hlt⟩, if_pos hj, index_dead (by omega), ok_bind,
        List.getElem?_eq_getElem (by omega)]
      rfl
    · rw [if_neg (by omega), if_pos hj, List.getElem?_eq_none (by omega)]
      rfl
  · rw [if_neg (by omega), if_neg hj]
    rfl

theorem Rep.getitem (h : Rep q items m s) (i : ℤ) :
    q.getitem i = .ok (match Ref.item? items i with
      | some x => .ok x
      | none => .error (.indexError "deque index out of range")) := by
  obtain ⟨dead, rfl⟩ := h
  have hn : ((((dead ++ items).length - dead.length : ℕ) : ℤ)) = items.length := by simp
  unfold DequeState.getitem
  dsimp only
  by_cases hi : -2 ^ 63 ≤ i ∧ i < 2 ^ 63
  · rw [if_pos hi, headOf_mk, hn, item?_eq items hi]
    generalize (if i < 0 then i + (items.length : ℤ) else i) = j
    by_cases hj : 0 ≤ j
    · by_cases hlt : j < items.length
      · rw [if_neg (by omega), if_pos hj, index_dead (by omega), ok_bind,
          List.getElem?_eq_getElem (by omega)]
        rfl
      · rw [if_pos (by omega), if_pos hj, List.getElem?_eq_none (by omega)]
        rfl
    · rw [if_pos (by omega), if_neg hj]
      rfl
  · rw [if_neg hi, Ref.item?, if_neg fun h => hi ⟨h.1, h.2.1⟩]
    rfl

end Reading

section Iterators

/-- An iterator of the deque and the reference's: live together, and while the counter has not
moved the rest is what lies from its index on. -/
structure IterOk (items : List Obj) (s : Int64) (it : Iter) (ref : RefIter Obj) : Prop where
  live : it.live = ref.live
  state : it.live = true → s = it.deqState + Int64.ofNat ref.ticks
  rest : it.live = true → ref.ticks = 0 → 0 ≤ it.index ∧ it.index ≤ items.length ∧
    ref.rest = (if it.reverse then items.reverse else items).drop it.index.toNat

variable {q : DequeState Obj} {items : List Obj} {m : Option ℤ} {s : Int64} {it : Iter}
  {ref : RefIter Obj}

theorem IterOk.change (h : IterOk items s it ref) (items' : List Obj) {n : ℕ} (hn : 0 < n) :
    IterOk items' (s + Int64.ofNat n) it { ref with ticks := ref.ticks + n } where
  live := h.live
  state := fun hl => by
    rw [h.state hl, Int64.ofNat_add, Int64.add_assoc]
  rest := fun _ ht => by
    simp at ht
    omega

theorem iterOk_makeIter (h : Rep q items m s) (reverse : Bool) :
    IterOk items s (q.makeIter reverse)
      ⟨true, if reverse then items.reverse else items, 0⟩ := by
  obtain ⟨dead, rfl⟩ := h
  constructor
  · rfl
  · intro _
    simp [DequeState.makeIter]
  · intro _ _
    exact ⟨le_refl _, by simp [DequeState.makeIter], rfl⟩

theorem index_nextSlot (dead items : List Obj) {i : ℤ} (h0 : 0 ≤ i) (hi : i < items.length)
    (reverse : Bool) {x : Obj}
    (hx : (if reverse then items.reverse else items)[i.toNat]? = some x) :
    (DequeState.nextSlot (dead ++ items) dead.length i reverse >>= index (dead ++ items)) =
      .ok x := by
  unfold DequeState.nextSlot
  cases reverse with
  | false =>
    have hget : items[i.toNat] = x := by
      simpa [List.getElem?_eq_getElem (show i.toNat < items.length by omega)] using hx
    change index (dead ++ items) (dead.length + i.toNat) = _
    rw [index_dead (by omega), hget]
  | true =>
    have hlt : i.toNat < items.length := by omega
    have hget : items[items.length - 1 - i.toNat] = x := by
      simpa [List.getElem?_reverse hlt, List.getElem?_eq_getElem
        (show items.length - 1 - i.toNat < items.length by omega)] using hx
    rw [if_pos rfl, usub_ok (by simp; omega), ok_bind, usub_ok (by simp; omega), ok_bind,
      show (dead ++ items).length - 1 - i.toNat = dead.length + (items.length - 1 - i.toNat) by
        simp
        omega, index_dead (by omega), hget]

/-- A live iterator with nothing left stands at the end of the items. -/
theorem IterOk.ended (h : IterOk items s it ref) (hl : it.live = true) (ht : ref.ticks = 0)
    (hrest : ref.rest = []) : it.index = items.length := by
  obtain ⟨h0, hle, hr⟩ := h.rest hl ht
  rw [hrest] at hr
  have hlen : (if it.reverse then items.reverse else items).length = items.length := by
    cases it.reverse <;> simp
  have := List.drop_eq_nil_iff.mp hr.symm
  omega

/-- A live iterator with an item left reads it and moves one place on. -/
theorem IterOk.more (h : IterOk items s it ref) (hl : it.live = true) (ht : ref.ticks = 0) {x : Obj}
    {rest : List Obj} (hrest : ref.rest = x :: rest) :
    (0 ≤ it.index ∧ it.index < items.length) ∧
      (if it.reverse then items.reverse else items)[it.index.toNat]? = some x ∧
      IterOk items s { it with index := it.index + 1 } { ref with rest } := by
  obtain ⟨h0, hle, hr⟩ := h.rest hl ht
  rw [hrest] at hr
  have hlen : (if it.reverse then items.reverse else items).length = items.length := by
    cases it.reverse <;> simp
  generalize hL : (if it.reverse then items.reverse else items) = l at hr hlen
  have hlt : it.index.toNat < l.length := by
    by_contra hge
    rw [List.drop_eq_nil_of_le (by omega)] at hr
    cases hr
  rw [List.drop_eq_getElem_cons hlt] at hr
  obtain ⟨hx, hrest'⟩ := List.cons.inj hr
  refine ⟨by omega, by rw [List.getElem?_eq_getElem hlt, hx], h.live, h.state, ?_⟩
  intro _ _
  refine ⟨by dsimp only; omega, by dsimp only; omega, ?_⟩
  dsimp only
  rw [hL, hrest', show (it.index + 1).toNat = it.index.toNat + 1 by omega]

theorem ofNat_eq_zero {n : ℕ} : Int64.ofNat n = 0 ↔ 2 ^ 64 ∣ n := by
  rw [← Int64.toBitVec_inj, ← BitVec.toNat_inj]
  have hz : (0 : Int64).toBitVec.toNat = 0 := rfl
  have hn : (Int64.ofNat n).toBitVec.toNat = n % 2 ^ 64 := BitVec.toNat_ofNat n 64
  rw [hz, hn]
  exact (Nat.dvd_iff_mod_eq_zero ..).symm

/-- The counter tells an iterator that the deque has changed. -/
def Detects (ref : RefIter Obj) : Prop := ¬ (2 ^ 64 ∣ ref.ticks ∧ ref.ticks ≠ 0)

theorem IterOk.state_ne (h : IterOk items s it ref) (hl : it.live = true) (hd : Detects ref)
    (ht : ref.ticks ≠ 0) : s ≠ it.deqState := by
  intro hs
  have hstate := h.state hl
  rw [hs] at hstate
  have hz : Int64.ofNat ref.ticks = 0 := by
    have := congrArg (fun z => z - it.deqState) hstate
    simpa [Int64.sub_self, Int64.add_comm it.deqState, Int64.add_sub_cancel] using this.symm
  exact hd ⟨ofNat_eq_zero.mp hz, ht⟩

theorem Rep.nextFast (h : Rep q items m s) (hi : IterOk items s it ref) (hd : Detects ref) :
    (q.nextFast it = .ok none) ∨ ∃ x rest, ref.live = true ∧ ref.ticks = 0 ∧ ref.rest = x :: rest ∧
      q.nextFast it = .ok (some (x, { it with index := it.index + 1 })) := by
  obtain ⟨dead, rfl⟩ := h
  unfold DequeState.nextFast
  dsimp only
  cases hl : it.live with
  | false => exact .inl rfl
  | true =>
    by_cases ht : ref.ticks = 0
    · have hs : s = it.deqState := by
        have := hi.state hl
        rw [ht] at this
        simpa using this
      rw [if_neg (by simp), if_neg (by simpa using hs), headOf_mk,
        show min dead.length (dead ++ items).length = dead.length by simp,
        show (dead ++ items).length - dead.length = items.length by simp]
      cases hrest : ref.rest with
      | nil =>
        have := hi.ended hl ht hrest
        rw [if_pos (by omega)]
        exact .inl rfl
      | cons x rest =>
        obtain ⟨⟨h0, hlt⟩, hx, -⟩ := hi.more hl ht hrest
        refine .inr ⟨x, rest, hi.live ▸ hl, ht, rfl, ?_⟩
        have hread := index_nextSlot dead items h0 hlt it.reverse hx
        rw [if_neg (by omega)]
        obtain ⟨slot, hslot, hv⟩ := bind_eq_ok.mp hread
        rw [hslot, ok_bind, hv]
        rfl
    · rw [if_neg (by simp), if_pos (hi.state_ne hl hd ht)]
      exact .inl rfl

theorem advance_dead (h : ref.live = false) : Ref.advance ref = (.error .stopIteration, ref) :=
  if_pos h

theorem advance_stale (h : ref.live = true) (ht : ref.ticks ≠ 0) :
    Ref.advance ref =
      (.error (.runtimeError "deque mutated during iteration"), { ref with live := false }) := by
  rw [Ref.advance, if_neg (by simp [h]), if_pos ht]

theorem advance_nil (h : ref.live = true) (ht : ref.ticks = 0) (hr : ref.rest = []) :
    Ref.advance ref = (.error .stopIteration, { ref with live := false }) := by
  rw [Ref.advance, if_neg (by simp [h]), if_neg (by simpa using ht), hr]

theorem advance_cons (h : ref.live = true) (ht : ref.ticks = 0) {x : Obj} {rest : List Obj}
    (hr : ref.rest = x :: rest) : Ref.advance ref = (.ok (.elem x), { ref with rest }) := by
  rw [Ref.advance, if_neg (by simp [h]), if_neg (by simpa using ht), hr]

theorem iterOk_ended (items : List Obj) (s : Int64) (it : Iter) (ref : RefIter Obj) :
    IterOk items s { it with live := false } { ref with live := false } :=
  ⟨rfl, by simp, by simp⟩

theorem Rep.next (h : Rep q items m s) (hi : IterOk items s it ref) (hd : Detects ref) :
    ∃ r it', q.next it = .ok (r, it') ∧ r.map Value.elem = (Ref.advance ref).1 ∧
      IterOk items s it' (Ref.advance ref).2 := by
  obtain ⟨dead, rfl⟩ := h
  unfold DequeState.next
  dsimp only
  by_cases hl : it.live = true
  · have hl' : ref.live = true := hi.live ▸ hl
    rw [if_neg (by simp [hl])]
    by_cases ht : ref.ticks = 0
    · have hs : s = it.deqState := by
        have := hi.state hl
        rw [ht] at this
        simpa using this
      rw [if_neg (by simpa using hs), headOf_mk,
        show min dead.length (dead ++ items).length = dead.length by simp,
        show (dead ++ items).length - dead.length = items.length by simp]
      cases hrest : ref.rest with
      | nil =>
        have := hi.ended hl ht hrest
        rw [if_pos (by omega), advance_nil hl' ht hrest]
        exact ⟨_, _, rfl, rfl, iterOk_ended ..⟩
      | cons x rest =>
        obtain ⟨⟨h0, hlt⟩, hx, hnext⟩ := hi.more hl ht hrest
        have hread := index_nextSlot dead items h0 hlt it.reverse hx
        rw [if_neg (by omega), Int.add_sub_cancel, advance_cons hl' ht hrest]
        obtain ⟨slot, hslot, hv⟩ := bind_eq_ok.mp hread
        rw [hslot, ok_bind, hv]
        exact ⟨_, _, rfl, rfl, hnext⟩
    · rw [if_pos (hi.state_ne hl hd ht), advance_stale hl' ht]
      exact ⟨_, _, rfl, rfl, iterOk_ended ..⟩
  · have hl' : ref.live = false := by simpa [hi.live] using hl
    rw [if_pos (by simpa using hl), advance_dead hl']
    exact ⟨_, _, rfl, rfl, hi⟩

end Iterators

end WeavePy.Deque
