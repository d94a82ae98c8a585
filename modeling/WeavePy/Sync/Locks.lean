import WeavePy.Lib.Monitor
import Mathlib.Algebra.Ring.Int.Defs
import Mathlib.Algebra.Ring.Nat
import Mathlib.Logic.Relation

/-!
The lock and the reentrant lock of Python threads: a state behind a mutex and a condition variable on which the
threads that find the lock taken wait, with or without a deadline.
-/

namespace WeavePy.Sync

/-- The three ways to ask for a lock. -/
inductive Ask where
  | tryAcquire
  | acquire
  | acquireTimeout
  deriving DecidableEq

/-- How a stay in the mutex ends for a thread that asks. -/
inductive Answer (σ : Type) where
  | acquired (v : σ)
  | refused
  | waits

/-- What the functions of the two locks share: `take` and `release` are the bodies on the state. -/
structure LockCode (σ : Type) where
  new : σ
  /-- `none` while another thread has the lock. -/
  take : σ → ℕ → Option σ
  /-- The state, and whether a waiting thread is to be notified once the mutex is left. -/
  release : σ → ℕ → Except String (σ × Bool)

namespace LockCode

variable {σ : Type} (c : LockCode σ)

def try_acquire (v : σ) (owner : ℕ) : Answer σ :=
  match c.take v owner with
  | some v' => .acquired v'
  | none => .refused

/-- One turn of the loop. -/
def acquire (v : σ) (owner : ℕ) : Answer σ :=
  match c.take v owner with
  | some v' => .acquired v'
  | none => .waits

/-- One turn of the loop: the deadline has passed, or a wait has timed out, if `expired`. -/
def acquire_timeout (v : σ) (owner : ℕ) (expired : Bool) : Answer σ :=
  match c.take v owner with
  | some v' => .acquired v'
  | none => if expired then .refused else .waits

def ask (a : Ask) (v : σ) (owner : ℕ) (expired : Bool) : Answer σ :=
  match a with
  | .tryAcquire => c.try_acquire v owner
  | .acquire => c.acquire v owner
  | .acquireTimeout => c.acquire_timeout v owner expired

/-- Only a thread that finds the lock taken is refused or waits. -/
theorem ask_eq (a : Ask) (v : σ) (owner : ℕ) (expired : Bool) :
    (∃ v', c.take v owner = some v' ∧ c.ask a v owner expired = .acquired v') ∨
      c.take v owner = none ∧ (c.ask a v owner expired = .refused ∨ c.ask a v owner expired = .waits) := by
  cases htake : c.take v owner with
  | some v' =>
    refine .inl ⟨v', rfl, ?_⟩
    cases a with
    | tryAcquire => simp [ask, try_acquire, htake]
    | acquire => simp [ask, acquire, htake]
    | acquireTimeout => simp [ask, acquire_timeout, htake]
  | none =>
    refine .inr ⟨rfl, ?_⟩
    cases a with
    | tryAcquire => simp [ask, try_acquire, htake]
    | acquire => simp [ask, acquire, htake]
    | acquireTimeout => cases expired <;> simp [ask, acquire_timeout, htake]

end LockCode

/-- Where a thread is in the functions of a lock. -/
inductive LockPc where
  | outside
  | parked (a : Ask)
  | woken (a : Ask) (timedOut : Bool)
  | notifying

def LockPc.place : LockPc → WaitState
  | .outside => .outside
  | .parked _ => .parked
  | .woken _ _ => .woken
  | .notifying => .notifying

/-- The calls that have succeeded, the last first. -/
inductive LockEvent where
  | acquired (t : ℕ)
  | released (t : ℕ)
  deriving DecidableEq

structure SharedLock (σ : Type) where
  value : σ
  pc : ℕ → LockPc
  history : List LockEvent

namespace SharedLock

variable {σ : Type} (c : LockCode σ) (s : SharedLock σ) (t : ℕ)

def new : SharedLock σ := ⟨c.new, fun _ => .outside, []⟩

def goto (pc : LockPc) : SharedLock σ := { s with pc := Function.update s.pc t pc }

/-- A stay in the mutex of a thread that asks for the lock. -/
def ask (a : Ask) (expired : Bool) : SharedLock σ :=
  match c.ask a s.value t expired with
  | .acquired v => { s with value := v, history := .acquired t :: s.history }.goto t .outside
  | .refused => s.goto t .outside
  | .waits => s.goto t (.parked a)

def release : SharedLock σ :=
  match c.release s.value t with
  | .ok (v, true) => { s with value := v, history := .released t :: s.history }.goto t .notifying
  | .ok (v, false) => { s with value := v, history := .released t :: s.history }
  | .error _ => s

/-- What threads do without a new call. -/
inductive OnItsWay : SharedLock σ → SharedLock σ → Prop
  | recheck {s : SharedLock σ} {t : ℕ} {a : Ask} {timedOut : Bool} (h : s.pc t = .woken a timedOut)
      (expired : Bool) : OnItsWay s (s.ask c t a (timedOut || expired))
  | timeout {s : SharedLock σ} {t : ℕ} (h : s.pc t = .parked .acquireTimeout) :
      OnItsWay s (s.goto t (.woken .acquireTimeout true))
  | notify {s : SharedLock σ} {t u : ℕ} {a : Ask} (ht : s.pc t = .notifying) (hu : s.pc u = .parked a) :
      OnItsWay s ((s.goto t .outside).goto u (.woken a false))
  | notifyNobody {s : SharedLock σ} {t : ℕ} (ht : s.pc t = .notifying) (h : ∀ u a, s.pc u ≠ .parked a) :
      OnItsWay s (s.goto t .outside)

inductive Reachable : SharedLock σ → Prop
  | new : Reachable (new c)
  | ask {s : SharedLock σ} {t : ℕ} (h : Reachable s) (ht : s.pc t = .outside) (a : Ask) (expired : Bool) :
      Reachable (s.ask c t a expired)
  | release {s : SharedLock σ} {t : ℕ} (h : Reachable s) (ht : s.pc t = .outside) : Reachable (s.release c t)
  | step {s s' : SharedLock σ} (h : Reachable s) (hs : OnItsWay c s s') : Reachable s'

/-- The threads' places about the condition variable. -/
def monitor : Monitor ℕ σ := ⟨s.value, fun t => (s.pc t).place⟩

@[simp]
theorem monitor_goto (pc : LockPc) : (s.goto t pc).monitor = s.monitor.goto t pc.place := by
  simp only [monitor, Monitor.goto, goto, Monitor.mk.injEq, true_and]
  funext u
  by_cases hut : u = t
  · subst hut
    simp
  · simp [hut]

/-- The lock is free where every thread may take it. -/
structure Lawful (c : LockCode σ) (free : σ → Prop) : Prop where
  take_free : ∀ {v t}, free v → (c.take v t).isSome
  take_taken : ∀ {v t v'}, c.take v t = some v' → ¬ free v'
  notifies : ∀ {v t v'}, c.release v t = .ok (v', false) → ¬ free v'

variable {c} {free : σ → Prop} {s t} {s' : SharedLock σ}

theorem Lawful.not_free (hc : Lawful c free) {v : σ} (h : c.take v t = none) : ¬ free v := by
  intro hfree
  simpa [h] using hc.take_free (t := t) hfree

/-- A thread outside, or woken, asks. -/
theorem Lawful.ask (hc : Lawful c free) (a : Ask) (expired : Bool) :
    Monitor.Move free s.monitor (s.ask c t a expired).monitor := by
  rcases c.ask_eq a s.value t expired with ⟨v, htake, hask⟩ | ⟨htake, hask⟩
  · simp only [SharedLock.ask, hask, monitor_goto]
    exact .leave v (hc.take_taken htake)
  · rcases hask with hask | hask
    · simp only [SharedLock.ask, hask, monitor_goto]
      exact .leave s.value (hc.not_free htake)
    · simp only [SharedLock.ask, hask, monitor_goto]
      exact .park (hc.not_free htake)

theorem Lawful.release (hc : Lawful c free) (ht : s.pc t = .outside) :
    Monitor.Move free s.monitor (s.release c t).monitor := by
  have hout : s.monitor.place t = .outside := by simp [monitor, ht, LockPc.place]
  simp only [SharedLock.release]
  split
  next v hrel =>
    simp only [monitor_goto]
    exact .release v hout
  next v hrel => exact .pass v hout fun hfree => absurd hfree (hc.notifies hrel)
  next => exact .pass s.value hout id

theorem Lawful.step (hc : Lawful c free) (hs : OnItsWay c s s') : Monitor.Move free s.monitor s'.monitor := by
  cases hs with
  | recheck h expired => exact hc.ask ..
  | timeout h =>
    simp only [monitor_goto]
    exact .wake
  | notify ht hu =>
    simp only [monitor_goto]
    exact .notify (by simp [monitor, ht, LockPc.place]) (by simp [monitor, hu, LockPc.place])
  | notifyNobody ht h =>
    simp only [monitor_goto]
    refine .notifyNobody (by simp [monitor, ht, LockPc.place]) fun u hu => ?_
    cases hpc : s.pc u with
    | parked a => exact h u a hpc
    | _ => simp [monitor, hpc, LockPc.place] at hu

theorem Reachable.attended (hc : Lawful c free) (h : Reachable c s) : Monitor.Attended free s.monitor := by
  induction h with
  | new => exact Monitor.attended_of_nobody
  | ask _ ht a expired ih => exact ih.move (hc.ask a expired)
  | release _ ht ih => exact ih.move (hc.release ht)
  | step _ hs ih => exact ih.move (hc.step hs)

/-- A woken thread that finds the lock free takes it. -/
theorem Lawful.recheck (hc : Lawful c free) {a : Ask} {timedOut : Bool} (h : s.pc t = .woken a timedOut)
    (hfree : free s.value) : ∃ s', OnItsWay c s s' ∧ ¬ free s'.value := by
  refine ⟨_, .recheck h false, ?_⟩
  rcases c.ask_eq a s.value t (timedOut || false) with ⟨v, htake, hask⟩ | ⟨htake, -⟩
  · simp only [SharedLock.ask, hask]
    exact hc.take_taken htake
  · exact absurd hfree (hc.not_free htake)

/-- While the lock is free and a thread waits for it, threads that are on their way already get it taken. -/
theorem Reachable.progress (hc : Lawful c free) (h : Reachable c s) (hfree : free s.value) {u : ℕ} {a : Ask}
    (hu : s.pc u = .parked a) : ∃ s', Relation.ReflTransGen (OnItsWay c) s s' ∧ ¬ free s'.value := by
  obtain ⟨t, ht | ht⟩ := h.attended hc hfree u (by simp [monitor, hu, LockPc.place])
  · cases hpc : s.pc t with
    | woken b timedOut =>
      obtain ⟨s', hs', htaken⟩ := hc.recheck hpc hfree
      exact ⟨s', .single hs', htaken⟩
    | _ => simp [monitor, hpc, LockPc.place] at ht
  · cases hpc : s.pc t with
    | notifying =>
      have hnotify : OnItsWay c s _ := .notify hpc hu
      obtain ⟨s', hs', htaken⟩ :=
        hc.recheck (s := (s.goto t .outside).goto u (.woken a false)) (t := u) (Function.update_self ..) hfree
      exact ⟨s', .head hnotify (.single hs'), htaken⟩
    | _ => simp [monitor, hpc, LockPc.place] at ht

/-- What the lock's state says of the calls that have succeeded, kept by each of them. -/
structure Records (c : LockCode σ) (Q : σ → List LockEvent → Prop) : Prop where
  new : Q c.new []
  take : ∀ {v t v' l}, Q v l → c.take v t = some v' → Q v' (.acquired t :: l)
  release : ∀ {v t v' b l}, Q v l → c.release v t = .ok (v', b) → Q v' (.released t :: l)

theorem Records.ask {Q : σ → List LockEvent → Prop} (hq : Records c Q) (h : Q s.value s.history) (a : Ask)
    (expired : Bool) : Q (s.ask c t a expired).value (s.ask c t a expired).history := by
  rcases c.ask_eq a s.value t expired with ⟨v, htake, hask⟩ | ⟨htake, hask | hask⟩
  · simp only [SharedLock.ask, hask]
    exact hq.take h htake
  · simp only [SharedLock.ask, hask]
    exact h
  · simp only [SharedLock.ask, hask]
    exact h

theorem Reachable.records {Q : σ → List LockEvent → Prop} (hq : Records c Q) (h : Reachable c s) :
    Q s.value s.history := by
  induction h with
  | new => exact hq.new
  | ask _ ht a expired ih => exact hq.ask ih a expired
  | @release s t _ ht ih =>
    simp only [SharedLock.release]
    split
    next v hrel => exact hq.release ih hrel
    next v hrel => exact hq.release ih hrel
    next => exact ih
  | step _ hs ih =>
    cases hs with
    | recheck h expired => exact hq.ask ih ..
    | timeout | notify | notifyNobody => exact ih

end SharedLock

structure LockState where
  held : Bool
  owner : Option ℕ
  deriving DecidableEq

namespace RealLock

/-- The common end of `try_acquire`, `acquire` and `acquire_timeout`. -/
def take (state : LockState) (owner : ℕ) : Option LockState :=
  if state.held then none else some ⟨true, some owner⟩

def release (state : LockState) (_ : ℕ) : Except String (LockState × Bool) :=
  if !state.held then .error "release unlocked lock" else .ok (⟨false, none⟩, true)

def code : LockCode LockState := ⟨⟨false, none⟩, take, release⟩

def Free (state : LockState) : Prop := state.held = false

theorem lawful : SharedLock.Lawful code Free where
  take_free {v t} h := by
    simp only [Free] at h
    simp [code, take, h]
  take_taken {v t v'} h := by
    simp only [code, take, Option.ite_none_left_eq_some, Option.some.injEq] at h
    simp [Free, ← h.2]
  notifies {v t v'} h := by
    simp only [code, release] at h
    split at h <;> simp at h

end RealLock

def LockEvent.IsAcquired : LockEvent → Prop
  | .acquired _ => True
  | .released _ => False

/-- The state after the last call that has succeeded. -/
def LockState.after : List LockEvent → LockState
  | .acquired t :: _ => ⟨true, some t⟩
  | _ => ⟨false, none⟩

/-- The calls that succeed are in turn an acquire and a release, an acquire first. -/
def Alternate (l : List LockEvent) : Prop :=
  l.IsChain (fun e e' => e.IsAcquired ↔ ¬ e'.IsAcquired) ∧ ∀ e ∈ l.getLast?, e.IsAcquired

namespace RealLock

theorem records : SharedLock.Records code fun v l => v = LockState.after l ∧ Alternate l where
  new := ⟨rfl, .nil, by simp⟩
  take {v t v' l} h htake := by
    obtain ⟨rfl, hchain, hlast⟩ := h
    simp only [code, take, Option.ite_none_left_eq_some, Option.some.injEq] at htake
    obtain ⟨hfree, rfl⟩ := htake
    refine ⟨rfl, ?_⟩
    cases l with
    | nil => exact ⟨.singleton _, by simp [LockEvent.IsAcquired]⟩
    | cons e l =>
      refine ⟨.cons_cons (iff_of_true trivial ?_) hchain, by simpa using hlast⟩
      cases e with
      | acquired u => exact absurd rfl hfree
      | released u => exact id
  release {v t v' b l} h hrel := by
    obtain ⟨rfl, hchain, hlast⟩ := h
    simp only [code, release] at hrel
    split at hrel
    · cases hrel
    · next hheld =>
      simp only [Except.ok.injEq, Prod.mk.injEq] at hrel
      refine ⟨hrel.1.symm, ?_⟩
      cases l with
      | nil => simp [LockState.after] at hheld
      | cons e l =>
        refine ⟨.cons_cons ?_ hchain, by simpa using hlast⟩
        cases e with
        | acquired u => simp [LockEvent.IsAcquired]
        | released u => simp [LockState.after] at hheld

/-- Over every interleaving of calls, waits, timeouts and notifications: the acquires and releases that succeed
alternate, the state is that of the last of them, and no wakeup is lost. -/
theorem reachable_alternate {s : SharedLock LockState} (h : SharedLock.Reachable code s) :
    Alternate s.history ∧ s.value = LockState.after s.history ∧
      (s.value.held = false → ∀ u a, s.pc u = .parked a →
        ∃ s', Relation.ReflTransGen (SharedLock.OnItsWay code) s s' ∧ s'.value.held = true) := by
  obtain ⟨hvalue, halternate⟩ := h.records records
  refine ⟨halternate, hvalue, fun hfree u a hu => ?_⟩
  obtain ⟨s', hs', htaken⟩ := h.progress lawful hfree hu
  exact ⟨s', hs', by simpa [Free] using htaken⟩

/-- A thread has released the lock for which another waits, and is yet to notify. -/
def handedOver : SharedLock LockState :=
  (((SharedLock.new code).ask code 1 .tryAcquire false).ask code 2 .acquire false).release code 1

theorem reachable_alternate_handedOver :
    handedOver.history = [.released 1, .acquired 1] ∧
      ∃ s', Relation.ReflTransGen (SharedLock.OnItsWay code) handedOver s' ∧ s'.value.held = true :=
  have hreach : SharedLock.Reachable code handedOver := .release (.ask (.ask .new rfl _ _) rfl _ _) rfl
  ⟨rfl, (reachable_alternate hreach).2.2 rfl 2 .acquire rfl⟩

end RealLock

structure RLockState where
  owner : Option ℕ
  depth : ℕ
  deriving DecidableEq

namespace RealRLock

/-- The common match of `try_acquire`, `acquire` and `acquire_timeout`. -/
def take (state : RLockState) (owner : ℕ) : Option RLockState :=
  match state.owner with
  | some o => if o = owner then some { state with depth := state.depth + 1 } else none
  | none => some ⟨some owner, 1⟩

def release (state : RLockState) (owner : ℕ) : Except String (RLockState × Bool) :=
  match state.owner with
  | some o =>
    if o = owner then
      if state.depth - 1 = 0 then .ok (⟨none, state.depth - 1⟩, true)
      else .ok ({ state with depth := state.depth - 1 }, false)
    else .error "cannot release foreign lock"
  | none => .error "cannot release un-acquired lock"

def code : LockCode RLockState := ⟨⟨none, 0⟩, take, release⟩

def Free (state : RLockState) : Prop := state.owner = none

theorem take_eq_some {v v' : RLockState} {t : ℕ} (h : take v t = some v') :
    v.owner = some t ∧ v' = ⟨some t, v.depth + 1⟩ ∨ v.owner = none ∧ v' = ⟨some t, 1⟩ := by
  simp only [take] at h
  split at h
  next o ho =>
    obtain ⟨rfl, rfl⟩ : o = t ∧ _ := by simpa using h
    exact .inl ⟨ho, by rw [ho]⟩
  next ho => exact .inr ⟨ho, by simpa using h.symm⟩

theorem release_eq_ok {v v' : RLockState} {t : ℕ} {b : Bool} (h : release v t = .ok (v', b)) :
    v.owner = some t ∧ v'.depth = v.depth - 1 ∧
      (v'.depth = 0 ∧ v'.owner = none ∧ b = true ∨ v'.depth ≠ 0 ∧ v'.owner = some t ∧ b = false) := by
  simp only [release] at h
  split at h
  next o ho =>
    split_ifs at h with hot hzero
    · simp only [Except.ok.injEq, Prod.mk.injEq] at h
      obtain ⟨rfl, rfl⟩ := h
      exact ⟨by rw [ho, hot], rfl, .inl ⟨hzero, rfl, rfl⟩⟩
    · simp only [Except.ok.injEq, Prod.mk.injEq] at h
      obtain ⟨rfl, rfl⟩ := h
      exact ⟨by rw [ho, hot], rfl, .inr ⟨hzero, by rw [ho, hot], rfl⟩⟩
  next => cases h

theorem lawful : SharedLock.Lawful code Free where
  take_free {v t} h := by
    simp only [Free] at h
    simp [code, take, h]
  take_taken {v t v'} h := by
    obtain ⟨-, rfl⟩ | ⟨-, rfl⟩ := take_eq_some h
    · simp [Free]
    · simp [Free]
  notifies {v t v'} h := by
    obtain ⟨-, -, ⟨-, -, hb⟩ | ⟨-, howner, -⟩⟩ := release_eq_ok h
    · cases hb
    · simp [Free, howner]

/-- How often a thread has the lock. -/
def holds (v : RLockState) (t : ℕ) : ℕ := if v.owner = some t then v.depth else 0

theorem records : SharedLock.Records code fun v l =>
    (∀ t, l.count (.acquired t) = l.count (.released t) + holds v t) ∧ (v.owner = none ↔ v.depth = 0) where
  new := ⟨fun t => rfl, iff_of_true rfl rfl⟩
  take {v t v' l} h htake := by
    obtain ⟨hcount, hdepth⟩ := h
    obtain ⟨howner, rfl⟩ | ⟨howner, rfl⟩ := take_eq_some htake
    · refine ⟨fun u => ?_, by simp⟩
      have hu := hcount u
      by_cases hut : t = u
      · subst hut
        simp [holds, howner] at hu ⊢
        omega
      · simp [holds, howner, hut] at hu ⊢
        exact hu
    · refine ⟨fun u => ?_, by simp⟩
      have hu := hcount u
      by_cases hut : t = u
      · subst hut
        simp [holds, howner] at hu ⊢
        omega
      · simp [holds, howner, hut] at hu ⊢
        exact hu
  release {v t v' b l} h hrel := by
    obtain ⟨hcount, hdepth⟩ := h
    obtain ⟨howner, hless, hafter⟩ := release_eq_ok hrel
    have hpos : v.depth ≠ 0 := mt hdepth.mpr (by simp [howner])
    refine ⟨fun u => ?_, ?_⟩
    · have hu := hcount u
      obtain ⟨hzero, hnone, -⟩ | ⟨-, hsome, -⟩ := hafter
      · by_cases hut : t = u
        · subst hut
          simp [holds, howner, hnone] at hu ⊢
          omega
        · simp [holds, howner, hnone, hut] at hu ⊢
          exact hu
      · by_cases hut : t = u
        · subst hut
          simp [holds, howner, hsome] at hu ⊢
          omega
        · simp [holds, howner, hsome, hut] at hu ⊢
          exact hu
    · obtain ⟨hzero, hnone, -⟩ | ⟨hne, hsome, -⟩ := hafter
      · exact iff_of_true hnone hzero
      · exact iff_of_false (by simp [hsome]) hne

/-- Over every interleaving of calls, waits, timeouts and notifications: a thread's acquires that succeeded
outnumber its releases by the depth if it is the owner and are as many if it is not, the depth is zero only
without an owner, and no wakeup is lost. -/
theorem reachable_holds {s : SharedLock RLockState} (h : SharedLock.Reachable code s) :
    (∀ t, s.history.count (.acquired t) =
      s.history.count (.released t) + if s.value.owner = some t then s.value.depth else 0) ∧
      (s.value.owner = none ↔ s.value.depth = 0) ∧
      (s.value.owner = none → ∀ u a, s.pc u = .parked a →
        ∃ s', Relation.ReflTransGen (SharedLock.OnItsWay code) s s' ∧ s'.value.owner ≠ none) := by
  obtain ⟨hcount, hdepth⟩ := h.records records
  exact ⟨hcount, hdepth, fun hfree u a hu => h.progress lawful hfree hu⟩

/-- The owner of depth two has released the lock twice while another thread waits with a deadline. -/
def handedOver : SharedLock RLockState :=
  (((((SharedLock.new code).ask code 1 .acquire false).ask code 1 .acquire false).ask code 2 .acquireTimeout
    false).release code 1).release code 1

theorem reachable_holds_handedOver :
    handedOver.pc 2 = .parked .acquireTimeout ∧
      ∃ s', Relation.ReflTransGen (SharedLock.OnItsWay code) handedOver s' ∧ s'.value.owner ≠ none :=
  have hreach : SharedLock.Reachable code handedOver :=
    .release (.release (.ask (.ask (.ask .new rfl _ _) rfl _ _) rfl _ _) rfl) rfl
  ⟨rfl, (reachable_holds hreach).2.2 rfl 2 .acquireTimeout rfl⟩

end RealRLock

end WeavePy.Sync
