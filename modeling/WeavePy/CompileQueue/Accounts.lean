import WeavePy.CompileQueue.Machine

/-!
Where each job is, what the counters count, and who sets `READY`.
-/

namespace WeavePy.CompileQueue

variable {α β : Type} (generate : α → β)

/-- The jobs that no `take_done` has taken: queued, being generated, and finished. -/
def State.held (s : State α β) : List (Done β) :=
  s.jobs.map (Job.entry generate) ++ (s.generatings.map (Job.entry generate) ++ s.done)

/-- What the calls in progress have taken and not returned. -/
def State.taken (s : State α β) : List (Done β) := s.calls.flatMap Call.taken

def State.uncounted (s : State α β) : ℕ := (s.calls.map Call.uncounted).sum

/-- `READY` is set, or a thread is about to set it or to take the finished jobs. -/
def State.Signalled (s : State α β) : Prop := s.ready = true ∨ .pushed ∈ s.workers ∨ .taking ∈ s.calls

structure Accounts (s : State α β) : Prop where
  places : (s.submitted.map (Job.entry generate)).Perm (s.held generate ++ (s.taken ++ s.handed))
  inFlight : s.inFlight = (s.held generate).length + s.uncounted
  inFlightIr : s.inFlightIr = sizes (s.held generate) + sizes s.taken
  ready : s.done ≠ [] → s.Signalled

variable {generate} {s s' : State α β} {i w : ℕ} {c : Call β} {x y : Worker α}

section Splits

theorem sizes_append (l r : List (Done β)) : sizes (l ++ r) = sizes l + sizes r := by
  unfold sizes
  rw [List.map_append, List.sum_append]

theorem sizes_perm {l r : List (Done β)} (h : l.Perm r) : sizes l = sizes r := (h.map Done.size).sum_nat

theorem calls_split (h : s.calls[i]? = some c) : s.calls.Perm (c :: s.calls.eraseIdx i) := by
  obtain ⟨hi, rfl⟩ := List.getElem?_eq_some_iff.mp h
  exact (List.getElem_cons_eraseIdx_perm hi).symm

theorem taken_split (h : s.calls[i]? = some c) : s.taken.Perm (c.taken ++ (s.calls.eraseIdx i).flatMap Call.taken) :=
  (calls_split h).flatMap_right Call.taken

theorem uncounted_split (h : s.calls[i]? = some c) :
    s.uncounted = c.uncounted + ((s.calls.eraseIdx i).map Call.uncounted).sum :=
  ((calls_split h).map Call.uncounted).sum_nat

theorem generatings_withWorker (h : s.workers[w]? = some x) (y : Worker α) :
    (s.withWorker w y).generatings.Perm (y.job.toList ++ (s.workers.eraseIdx w).filterMap Worker.job) := by
  have hset := List.set_perm_cons_eraseIdx (List.getElem?_eq_some_iff.mp h).1 y
  apply (hset.filterMap Worker.job).trans
  rw [List.filterMap_cons]
  cases y.job <;> exact .refl _

theorem generatings_split (h : s.workers[w]? = some x) :
    s.generatings.Perm (x.job.toList ++ (s.workers.eraseIdx w).filterMap Worker.job) := by
  have hsame : s.workers.set w x = s.workers := by
    obtain ⟨hw, rfl⟩ := List.getElem?_eq_some_iff.mp h
    exact List.set_getElem_self hw
  have hset := generatings_withWorker h x
  unfold State.withWorker State.generatings at hset
  rw [hsame] at hset
  exact hset

/-- A worker that neither had a job nor gets one leaves the jobs where they are. -/
theorem held_withWorker (h : s.workers[w]? = some x) (hx : x.job = none) (hy : y.job = none) :
    ((s.withWorker w y).held generate).Perm (s.held generate) := by
  have hold := generatings_split h
  have hnew := generatings_withWorker h y
  rw [hx] at hold
  rw [hy] at hnew
  exact .append_left _ (((hnew.trans hold.symm).map _).append_right _)

theorem mem_workers_withWorker (h : s.workers[w]? = some x) (hx : x ≠ .pushed) (hmem : .pushed ∈ s.workers) :
    .pushed ∈ (s.withWorker w y).workers := by
  obtain ⟨v, hv⟩ := List.mem_iff_getElem?.mp hmem
  have hne : w ≠ v := by
    rintro rfl
    rw [h] at hv
    exact hx (Option.some.inj hv)
  apply List.mem_iff_getElem?.mpr
  refine ⟨v, ?_⟩
  unfold State.withWorker
  dsimp only
  rw [List.getElem?_set_ne hne, hv]

theorem mem_erase_of_ne {d : Call β} (h : s.calls[i]? = some c) (hc : c ≠ d) (hmem : d ∈ s.calls) :
    d ∈ s.calls.eraseIdx i := (List.mem_cons.mp ((calls_split h).subset hmem)).resolve_left hc.symm

theorem Signalled.withWorker (hs : s.Signalled) (h : s.workers[w]? = some x) (hx : x ≠ .pushed) :
    (s.withWorker w y).Signalled :=
  hs.imp id (.imp (mem_workers_withWorker h hx) id)

theorem Signalled.endCall (hs : s.Signalled) (h : s.calls[i]? = some c) (hc : c ≠ .taking) : (s.endCall i).Signalled :=
  hs.imp id (.imp id (mem_erase_of_ne h hc))

theorem Signalled.withCall (hs : s.Signalled) (h : s.calls[i]? = some c) (hc : c ≠ .taking) (d : Call β) :
    (s.withCall i d).Signalled :=
  hs.imp id (.imp id fun hmem => List.mem_cons_of_mem _ (mem_erase_of_ne h hc hmem))

end Splits

section Rules

/-- A step that moves no job in or out, and counts nothing. -/
theorem Accounts.congr (h : Accounts generate s) (hsubmitted : s'.submitted = s.submitted) (hhanded : s'.handed = s.handed)
    (hin : s'.inFlight = s.inFlight) (hir : s'.inFlightIr = s.inFlightIr)
    (hheld : (s'.held generate).Perm (s.held generate)) (htaken : s'.taken.Perm s.taken)
    (huncounted : s'.uncounted = s.uncounted) (hready : s'.done ≠ [] → s'.Signalled) : Accounts generate s' := by
  constructor
  · rw [hsubmitted, hhanded]
    exact h.places.trans (hheld.symm.append (htaken.symm.append_right _))
  · rw [hin, huncounted, hheld.length_eq]
    exact h.inFlight
  · rw [hir, sizes_perm hheld, sizes_perm htaken]
    exact h.inFlightIr
  · exact hready

theorem Accounts.withWorker (h : Accounts generate s) (hw : s.workers[w]? = some x) (hx : x.job = none)
    (hy : y.job = none) (hpushed : x ≠ .pushed) : Accounts generate (s.withWorker w y) :=
  h.congr rfl rfl rfl rfl (held_withWorker hw hx hy) (.refl _) rfl fun hdone =>
    Signalled.withWorker (h.ready hdone) hw hpushed

theorem Accounts.endCall (h : Accounts generate s) (hi : s.calls[i]? = some c) (htaken : c.taken = [])
    (huncounted : c.uncounted = 0) (hc : c ≠ .taking) : Accounts generate (s.endCall i) := by
  refine h.congr rfl rfl rfl rfl (.refl _) ?_ ?_ fun hdone => Signalled.endCall (h.ready hdone) hi hc
  · have hsplit := taken_split hi
    rw [htaken] at hsplit
    exact hsplit.symm
  · have hsplit := uncounted_split hi
    rw [huncounted, Nat.zero_add] at hsplit
    exact hsplit.symm

theorem Accounts.withCall (h : Accounts generate s) (hi : s.calls[i]? = some c) {d : Call β} (htaken : d.taken = c.taken)
    (huncounted : d.uncounted = c.uncounted) (hc : c ≠ .taking) : Accounts generate (s.withCall i d) := by
  refine h.congr rfl rfl rfl rfl (.refl _) ?_ ?_ fun hdone => Signalled.withCall (h.ready hdone) hi hc d
  · apply List.Perm.symm
    apply (taken_split hi).trans
    rw [← htaken]
    exact .refl _
  · rw [uncounted_split hi, ← huncounted]
    rfl

theorem Accounts.look (h : Accounts generate s) (hw : s.workers[w]? = some x) (hx : x.job = none)
    (hpushed : x ≠ .pushed) (usedMemory : Bool) : Accounts generate (s.look w usedMemory) := by
  unfold State.look
  cases hjobs : s.jobs with
  | nil =>
    apply h.withWorker hw hx ?_ hpushed
    split_ifs <;> rfl
  | cons job jobs =>
    refine h.congr rfl rfl rfl rfl ?_ (.refl _) rfl fun hdone => Signalled.withWorker (h.ready hdone) hw hpushed
    -- the job moves from the queue to the worker
    have hold := (generatings_split hw).map (Job.entry generate)
    have hnew := (generatings_withWorker hw (.generating job)).map (Job.entry generate)
    rw [hx] at hold
    unfold State.held
    rw [hjobs]
    dsimp only
    have hmoved : ((s.withWorker w (.generating job)).generatings.map (Job.entry generate)).Perm
        (job.entry generate :: s.generatings.map (Job.entry generate)) := hnew.trans (hold.symm.cons _)
    apply (List.Perm.append_left _ (hmoved.append_right _)).trans
    exact List.perm_middle

theorem Accounts.push (h : Accounts generate s) (job : Job α) : Accounts generate (s.push job) := by
  have hheld : ((s.push job).held generate).Perm (job.entry generate :: s.held generate) := by
    unfold State.held State.push
    dsimp only
    rw [List.map_append, List.append_assoc]
    exact List.perm_middle
  constructor
  · have hsubmitted : ((s.push job).submitted.map (Job.entry generate)).Perm
        (job.entry generate :: s.submitted.map (Job.entry generate)) := by
      unfold State.push
      dsimp only
      rw [List.map_append]
      exact List.perm_append_singleton _ _
    apply hsubmitted.trans
    apply (h.places.cons _).trans
    exact hheld.symm.append_right _
  · have huncounted : (s.push job).uncounted = s.uncounted := Nat.zero_add _
    rw [hheld.length_eq, huncounted, List.length_cons]
    have := h.inFlight
    change s.inFlight + 1 = _
    omega
  · have hsize : sizes (job.entry generate :: s.held generate) = job.size + sizes (s.held generate) := rfl
    rw [sizes_perm hheld, hsize]
    have := h.inFlightIr
    change s.inFlightIr + job.size = _ + sizes s.taken
    omega
  · exact fun hdone => (h.ready hdone).imp id (.imp id (List.mem_cons_of_mem _))

end Rules

section Steps

theorem Accounts.submit (h : Accounts generate s) (job : Job α) (starts : Bool) :
    Accounts generate (s.submit job starts) := by
  unfold State.submit
  cases s.worker with
  | some w => exact h.push job
  | none =>
    dsimp only
    split_ifs
    · apply Accounts.push
      refine h.congr rfl rfl rfl rfl ?_ (.refl _) rfl fun hdone =>
        (h.ready hdone).imp id (.imp (List.mem_append_left _) id)
      unfold State.held State.generatings
      dsimp only
      rw [List.filterMap_append]
      exact .append_left _ (by rw [List.map_append]; exact (List.append_nil _ ▸ .refl _))
    · exact h

theorem Accounts.generated {job : Job α} (h : Accounts generate s) (hw : s.workers[w]? = some (.generating job)) :
    Accounts generate { s.withWorker w .pushed with done := s.done ++ [⟨job.ticket, job.size, generate job.units⟩] } := by
  refine h.congr rfl rfl rfl rfl ?_ (.refl _) rfl fun _ => .inr (.inl ?_)
  · have hold := (generatings_split hw).map (Job.entry generate)
    have hnew := (generatings_withWorker hw .pushed).map (Job.entry generate)
    apply List.Perm.append_left
    apply (hnew.append_right _).trans
    rw [← List.append_assoc]
    apply (List.perm_append_singleton _ _).trans
    exact (hold.append_right s.done).symm
  · apply List.mem_iff_getElem?.mpr
    exact ⟨w, List.getElem?_set_self (List.getElem?_eq_some_iff.mp hw).1⟩

theorem Accounts.take (h : Accounts generate s) (hi : s.calls[i]? = some .taking) :
    Accounts generate { s.withCall i (.countingJobs s.done) with done := [] } := by
  have htaken : s.taken.Perm ((s.calls.eraseIdx i).flatMap Call.taken) := taken_split hi
  have huncounted : s.uncounted = 0 + ((s.calls.eraseIdx i).map Call.uncounted).sum := uncounted_split hi
  obtain ⟨rest, hrest⟩ : ∃ rest, rest = s.jobs.map (Job.entry generate) ++ s.generatings.map (Job.entry generate) :=
    ⟨_, rfl⟩
  have hheld : s.held generate = rest ++ s.done := by
    rw [hrest, List.append_assoc]
    rfl
  have hheld' : State.held generate { s.withCall i (.countingJobs s.done) with done := [] } = rest := by
    rw [hrest, ← List.append_nil (_ ++ _), List.append_assoc]
    rfl
  have htaken' : State.taken { s.withCall i (.countingJobs s.done) with done := [] } =
      s.done ++ (s.calls.eraseIdx i).flatMap Call.taken := rfl
  constructor
  · apply h.places.trans
    rw [hheld, hheld', htaken', List.append_assoc, List.append_assoc]
    exact .append_left _ (.append_left _ (htaken.append_right _))
  · have := h.inFlight
    rw [hheld, List.length_append] at this
    rw [hheld']
    change s.inFlight = rest.length + (s.done.length + ((s.calls.eraseIdx i).map Call.uncounted).sum)
    omega
  · have := h.inFlightIr
    rw [hheld, sizes_append, sizes_perm htaken] at this
    rw [hheld', htaken', sizes_append]
    change s.inFlightIr = _
    omega
  · exact fun hdone => absurd rfl hdone

theorem Accounts.countJobs {done : List (Done β)} (h : Accounts generate s) (hi : s.calls[i]? = some (.countingJobs done)) :
    Accounts generate { s.withCall i (.countingIr done) with inFlight := s.inFlight - done.length } := by
  have huncounted : s.uncounted = done.length + ((s.calls.eraseIdx i).map Call.uncounted).sum := uncounted_split hi
  constructor
  · apply h.places.trans
    exact .append_left _ ((taken_split hi).append_right _)
  · have := h.inFlight
    change s.inFlight - done.length = (s.held generate).length + (0 + ((s.calls.eraseIdx i).map Call.uncounted).sum)
    omega
  · have hsizes := sizes_perm (taken_split hi)
    exact h.inFlightIr.trans (by rw [hsizes]; rfl)
  · exact fun hdone => Signalled.withCall (h.ready hdone) hi nofun _

theorem Accounts.countIr {done : List (Done β)} (h : Accounts generate s) (hi : s.calls[i]? = some (.countingIr done)) :
    Accounts generate { s.endCall i with inFlightIr := s.inFlightIr - sizes done, handed := s.handed ++ done } := by
  have htaken : s.taken.Perm (done ++ (s.calls.eraseIdx i).flatMap Call.taken) := taken_split hi
  have huncounted : s.uncounted = 0 + ((s.calls.eraseIdx i).map Call.uncounted).sum := uncounted_split hi
  constructor
  · apply h.places.trans
    apply List.Perm.append_left
    apply (htaken.append_right _).trans
    rw [List.append_assoc]
    apply List.perm_append_comm.trans
    rw [List.append_assoc]
    exact .refl _
  · rw [Nat.zero_add] at huncounted
    exact h.inFlight.trans (by rw [huncounted]; rfl)
  · have := h.inFlightIr
    rw [sizes_perm htaken, sizes_append] at this
    change s.inFlightIr - sizes done = sizes (s.held generate) + sizes ((s.calls.eraseIdx i).flatMap Call.taken)
    omega
  · exact fun hdone => Signalled.endCall (h.ready hdone) hi nofun

theorem generatings_woken (workers : List (Worker α)) :
    (workers.map Worker.woken).filterMap Worker.job = workers.filterMap Worker.job := by
  rw [List.filterMap_map]
  apply List.filterMap_congr
  intro x _
  cases x <;> rfl

theorem Accounts.notifyAll (h : Accounts generate s) (hi : s.calls[i]? = some (.stopping w)) :
    Accounts generate { s.withCall i (.joining w) with workers := s.workers.map Worker.woken } := by
  have hcall := h.withCall hi (d := .joining w) rfl rfl nofun
  refine hcall.congr rfl rfl rfl rfl ?_ (.refl _) rfl fun hdone => (hcall.ready hdone).imp id (.imp ?_ id)
  · unfold State.held State.generatings
    dsimp only
    rw [generatings_woken]
    exact .refl _
  · intro hmem
    exact List.mem_map_of_mem (f := Worker.woken) hmem

/-- Each step keeps the accounts. -/
theorem Accounts.step {a : Action α} (h : Accounts generate s) (hstep : s.step generate a = some s') :
    Accounts generate s' := by
  unfold State.step at hstep
  cases a with
  | submit job starts =>
    cases hstep
    exact h.submit job starts
  | notifyOne i woken =>
    dsimp only at hstep
    split at hstep
    · rename_i hi
      have hend := h.endCall hi rfl rfl nofun
      unfold State.notifyOne at hstep
      split at hstep
      · split_ifs at hstep
        cases hstep
        exact hend
      · split at hstep
        · rename_i hw
          cases hstep
          exact hend.withWorker hw rfl rfl nofun
        · cases hstep
    · cases hstep
  | look w =>
    dsimp only at hstep
    split at hstep
    · rename_i hw
      cases hstep
      exact h.look hw rfl nofun _
    · cases hstep
  | wake w timedOut =>
    dsimp only at hstep
    split at hstep
    · rename_i hw
      split_ifs at hstep
      · cases hstep
        exact h.withWorker hw rfl rfl nofun
      · cases hstep
        exact h.look hw rfl nofun _
    · cases hstep
  | relock w =>
    dsimp only at hstep
    split at hstep
    · rename_i hw
      cases hstep
      exact h.look hw rfl nofun _
    · cases hstep
  | generated w =>
    dsimp only at hstep
    split at hstep
    · rename_i hw
      cases hstep
      exact h.generated hw
    · cases hstep
  | setReady w =>
    dsimp only at hstep
    split at hstep
    · rename_i hw
      cases hstep
      exact h.congr rfl rfl rfl rfl (held_withWorker hw rfl rfl) (.refl _) rfl fun _ => .inl rfl
    · cases hstep
  | takeDone =>
    cases hstep
    unfold State.takeDone
    split_ifs
    · exact h.congr rfl rfl rfl rfl (.refl _) (.refl _) (Nat.zero_add _) fun _ => .inr (.inr List.mem_cons_self)
    · exact h
  | take i =>
    dsimp only at hstep
    split at hstep
    · rename_i hi
      cases hstep
      exact h.take hi
    · cases hstep
  | countJobs i =>
    dsimp only at hstep
    split at hstep
    · rename_i hi
      cases hstep
      exact h.countJobs hi
    · cases hstep
  | countIr i =>
    dsimp only at hstep
    split at hstep
    · rename_i hi
      cases hstep
      exact h.countIr hi
    · cases hstep
  | quiesce =>
    cases hstep
    unfold State.quiesce
    split
    · exact h
    · exact h.congr rfl rfl rfl rfl (.refl _) (.refl _) (Nat.zero_add _) fun hdone =>
        (h.ready hdone).imp id (.imp id (List.mem_cons_of_mem _))
  | notifyAll i =>
    dsimp only at hstep
    split at hstep
    · rename_i hi
      cases hstep
      exact h.notifyAll hi
    · cases hstep
  | join i =>
    dsimp only at hstep
    split at hstep
    · rename_i hi
      split at hstep
      · cases hstep
        exact h.withCall hi rfl rfl nofun
      · cases hstep
    · cases hstep
  | clear i =>
    dsimp only at hstep
    split at hstep
    · rename_i hi
      cases hstep
      have hend := h.endCall hi rfl rfl nofun
      exact hend.congr rfl rfl rfl rfl (.refl _) (.refl _) rfl hend.ready
    · cases hstep

theorem reachable_accounts (h : Reachable generate s) : Accounts generate s := by
  induction h with
  | new => exact ⟨.refl _, rfl, rfl, fun hdone => absurd rfl hdone⟩
  | step _ hstep ih => exact ih.step hstep

end Steps

end WeavePy.CompileQueue
