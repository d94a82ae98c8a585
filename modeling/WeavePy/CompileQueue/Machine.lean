import Mathlib.Algebra.Ring.Int.Defs
import Mathlib.Algebra.Ring.Nat
import Mathlib.Data.List.Perm.Basic

/-!
The background compiler's queue: threads that submit compiles, take finished ones and quiesce the worker,
interleaved with the workers, one critical section or atomic operation at a time.
-/

namespace WeavePy.CompileQueue

/-- A compile, its units in `α`. -/
structure Job (α : Type) where
  ticket : ℕ
  units : α
  size : ℕ

/-- What code generation made of a compile's units, in `β`. -/
structure Done (β : Type) where
  ticket : ℕ
  size : ℕ
  outcome : β

inductive Worker (α : Type) where
  /-- About to take the lock. -/
  | looking (usedMemory : Bool)
  /-- Waiting on `WAKE`. -/
  | asleep (usedMemory : Bool)
  /-- Giving compile memory back, without the lock. -/
  | releasing
  | generating (job : Job α)
  /-- The finished job is pushed, and `READY` is still to be set. -/
  | pushed
  | exited

/-- Where a call in progress is. -/
inductive Call (β : Type) where
  /-- `submit` is to notify the worker. -/
  | notifying
  /-- `take_done` cleared `READY` and is to take the lock. -/
  | taking
  | countingJobs (done : List (Done β))
  | countingIr (done : List (Done β))
  /-- `quiesce` took the handle and is to notify all. -/
  | stopping (w : ℕ)
  | joining (w : ℕ)
  /-- `quiesce` has joined and is to clear `stop`. -/
  | clearing

structure State (α β : Type) where
  jobs : List (Job α)
  done : List (Done β)
  worker : Option ℕ
  stop : Bool
  ready : Bool
  inFlight : ℕ
  inFlightIr : ℕ
  workers : List (Worker α)
  calls : List (Call β)
  /-- All the jobs taken in, and all that `take_done` returned. -/
  submitted : List (Job α)
  handed : List (Done β)

inductive Action (α : Type) where
  | submit (job : Job α) (starts : Bool)
  | notifyOne (i : ℕ) (woken : Option ℕ)
  | look (w : ℕ)
  | wake (w : ℕ) (timedOut : Bool)
  | relock (w : ℕ)
  | generated (w : ℕ)
  | setReady (w : ℕ)
  | takeDone
  | take (i : ℕ)
  | countJobs (i : ℕ)
  | countIr (i : ℕ)
  | quiesce
  | notifyAll (i : ℕ)
  | join (i : ℕ)
  | clear (i : ℕ)

variable {α β : Type}

def Worker.isAsleep : Worker α → Bool
  | .asleep _ => true
  | _ => false

def Worker.woken : Worker α → Worker α
  | .asleep usedMemory => .looking usedMemory
  | x => x

def Worker.job : Worker α → Option (Job α)
  | .generating job => some job
  | _ => none

def Call.quiescing : Call β → Bool
  | .stopping _ | .joining _ | .clearing => true
  | _ => false

def Call.taken : Call β → List (Done β)
  | .countingJobs done | .countingIr done => done
  | _ => []

def Call.uncounted : Call β → ℕ
  | .countingJobs done => done.length
  | _ => 0

def sizes (done : List (Done β)) : ℕ := (done.map Done.size).sum

def Call.uncountedIr (c : Call β) : ℕ := sizes c.taken

namespace State

def new : State α β := ⟨[], [], none, false, false, 0, 0, [], [], [], []⟩

variable (s : State α β)

def withWorker (w : ℕ) (x : Worker α) : State α β := { s with workers := s.workers.set w x }

def withCall (i : ℕ) (c : Call β) : State α β := { s with calls := c :: s.calls.eraseIdx i }

def endCall (i : ℕ) : State α β := { s with calls := s.calls.eraseIdx i }

/-- The worker's loop under the lock: it takes a job, exits or waits. -/
def look (w : ℕ) (usedMemory : Bool) : State α β :=
  match s.jobs with
  | job :: jobs => { s.withWorker w (.generating job) with jobs }
  | [] => s.withWorker w (if s.stop then .exited else .asleep usedMemory)

def push (job : Job α) : State α β :=
  { s with
    inFlight := s.inFlight + 1
    inFlightIr := s.inFlightIr + job.size
    jobs := s.jobs ++ [job]
    calls := .notifying :: s.calls
    submitted := s.submitted ++ [job] }

/-- The job is handed back if it needs a worker that does not start. -/
def submit (job : Job α) (starts : Bool) : State α β :=
  match s.worker with
  | some _ => s.push job
  | none =>
    if starts then
      State.push { s with worker := some s.workers.length, workers := s.workers ++ [.looking false] } job
    else s

/-- One of the workers that wait is woken, if any does. -/
def notifyOne (i : ℕ) : Option ℕ → Option (State α β)
  | none => if s.workers.any Worker.isAsleep then none else some (s.endCall i)
  | some w =>
    match s.workers[w]? with
    | some (.asleep usedMemory) => some ((s.endCall i).withWorker w (.looking usedMemory))
    | _ => none

def quiesce : State α β :=
  match s.worker with
  | none => s
  | some w => { s with worker := none, stop := true, calls := .stopping w :: s.calls }

def takeDone : State α β := if s.ready then { s with ready := false, calls := .taking :: s.calls } else s

variable (generate : α → β)

def step : Action α → Option (State α β)
  | .submit job starts => some (s.submit job starts)
  | .notifyOne i woken =>
    match s.calls[i]? with
    | some .notifying => s.notifyOne i woken
    | _ => none
  | .look w =>
    match s.workers[w]? with
    | some (.looking usedMemory) => some (s.look w usedMemory)
    | _ => none
  | .wake w timedOut =>
    match s.workers[w]? with
    | some (.asleep usedMemory) =>
      if usedMemory && timedOut && s.jobs.isEmpty then some (s.withWorker w .releasing) else some (s.look w usedMemory)
    | _ => none
  | .relock w =>
    match s.workers[w]? with
    | some .releasing => some (s.look w false)
    | _ => none
  | .generated w =>
    match s.workers[w]? with
    | some (.generating job) =>
      some { s.withWorker w .pushed with done := s.done ++ [⟨job.ticket, job.size, generate job.units⟩] }
    | _ => none
  | .setReady w =>
    match s.workers[w]? with
    | some .pushed => some { s.withWorker w (.looking true) with ready := true }
    | _ => none
  | .takeDone => some s.takeDone
  | .take i =>
    match s.calls[i]? with
    | some .taking => some { s.withCall i (.countingJobs s.done) with done := [] }
    | _ => none
  | .countJobs i =>
    match s.calls[i]? with
    | some (.countingJobs done) =>
      some { s.withCall i (.countingIr done) with inFlight := s.inFlight - done.length }
    | _ => none
  | .countIr i =>
    match s.calls[i]? with
    | some (.countingIr done) =>
      some { s.endCall i with inFlightIr := s.inFlightIr - sizes done, handed := s.handed ++ done }
    | _ => none
  | .quiesce => some s.quiesce
  | .notifyAll i =>
    match s.calls[i]? with
    | some (.stopping w) => some { s.withCall i (.joining w) with workers := s.workers.map Worker.woken }
    | _ => none
  | .join i =>
    match s.calls[i]? with
    | some (.joining w) =>
      match s.workers[w]? with
      | some .exited => some (s.withCall i .clearing)
      | _ => none
    | _ => none
  | .clear i =>
    match s.calls[i]? with
    | some .clearing => some { s.endCall i with stop := false }
    | _ => none

def quiescings : List (Call β) := s.calls.filter Call.quiescing

/-- The jobs that workers are generating code for. -/
def generatings : List (Job α) := s.workers.filterMap Worker.job

end State

/-- A job with what code generation makes of it. -/
def Job.entry (generate : α → β) (job : Job α) : Done β := ⟨job.ticket, job.size, generate job.units⟩

/-- The states that any interleaving leads to. -/
inductive Reachable (generate : α → β) : State α β → Prop where
  | new : Reachable generate .new
  | step {s s' : State α β} {a : Action α} :
    Reachable generate s → s.step generate a = some s' → Reachable generate s'

/-- No worker is started while a `quiesce` is in progress. -/
def Calm (s : State α β) : Action α → Prop
  | .submit _ starts => s.worker = none → starts = true → s.quiescings = []
  | _ => True

/-- The states that interleavings with calm starts lead to. -/
inductive CalmlyReachable (generate : α → β) : State α β → Prop where
  | new : CalmlyReachable generate .new
  | step {s s' : State α β} {a : Action α} :
    CalmlyReachable generate s → Calm s a → s.step generate a = some s' → CalmlyReachable generate s'

end WeavePy.CompileQueue
