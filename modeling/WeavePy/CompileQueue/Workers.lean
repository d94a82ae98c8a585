import WeavePy.CompileQueue.Accounts

/-!
The worker that serves the queue, when none is started while a `quiesce` is in progress.
-/

namespace WeavePy.CompileQueue

variable {α β : Type} {generate : α → β} {s s' : State α β} {i w v : ℕ} {c d : Call β} {x y : Worker α}

/-- The only worker that has not exited, if it has not. -/
structure Sole (s : State α β) (w : ℕ) (x : Worker α) : Prop where
  worker : s.workers[w]? = some x
  others : ∀ (v : ℕ) y, s.workers[v]? = some y → v ≠ w → y = .exited

def AllExited (s : State α β) : Prop := ∀ (v : ℕ) y, s.workers[v]? = some y → y = .exited

/-- Where the queue is between the start of a worker and the end of the `quiesce` that joins it. -/
inductive Phase (s : State α β) : Prop where
  | idle : s.worker = none → s.quiescings = [] → s.stop = false → s.jobs = [] → AllExited s → Phase s
  | serving (w : ℕ) (x : Worker α) : s.worker = some w → s.quiescings = [] → s.stop = false → Sole s w x → x ≠ .exited →
    (s.jobs ≠ [] → x.isAsleep = true → .notifying ∈ s.calls) → Phase s
  | leaving (w : ℕ) (x : Worker α) (c : Call β) : s.worker = none → s.quiescings = [c] → c = .stopping w ∨ c = .joining w →
    s.stop = true → Sole s w x → (x = .exited → s.jobs = []) → Phase s
  | clearing : s.worker = none → s.quiescings = [.clearing] → s.stop = true → s.jobs = [] → AllExited s → Phase s

section Rules

theorem Sole.eq (h : Sole s w x) (hv : s.workers[v]? = some y) (hy : y ≠ .exited) : v = w ∧ y = x := by
  have hvw : v = w := by
    by_contra hne
    exact hy (h.others v y hv hne)
  subst hvw
  rw [h.worker] at hv
  exact ⟨rfl, (Option.some.inj hv).symm⟩

theorem Sole.set (h : Sole s w x) (hworkers : s'.workers = s.workers.set w y) : Sole s' w y := by
  constructor
  · rw [hworkers]
    exact List.getElem?_set_self (List.getElem?_eq_some_iff.mp h.worker).1
  · intro v z hv hne
    rw [hworkers, List.getElem?_set_ne hne.symm] at hv
    exact h.others v z hv hne

theorem Sole.allExited (h : Sole s w .exited) : AllExited s := by
  intro v y hv
  by_contra hy
  exact hy (h.eq hv hy).2

theorem quiescings_split (h : s.calls[i]? = some c) :
    s.quiescings.Perm ((c :: s.calls.eraseIdx i).filter Call.quiescing) := (calls_split h).filter _

theorem quiescings_endCall (h : s.calls[i]? = some c) (hc : c.quiescing = false) :
    (s.endCall i).quiescings.Perm s.quiescings := by
  have hsplit := quiescings_split h
  rw [List.filter_cons_of_neg (by rw [hc]; exact Bool.false_ne_true)] at hsplit
  exact hsplit.symm

theorem quiescings_withCall (h : s.calls[i]? = some c) (hc : c.quiescing = false) (hd : d.quiescing = false) :
    (s.withCall i d).quiescings.Perm s.quiescings := by
  have hend := quiescings_endCall h hc
  unfold State.withCall State.quiescings
  dsimp only
  rw [List.filter_cons_of_neg (by rw [hd]; exact Bool.false_ne_true)]
  exact hend

/-- The one `quiesce` in progress is at the call that moves on. -/
theorem quiescings_singleton (h : s.calls[i]? = some c) (hc : c.quiescing = true) (hd : s.quiescings = [d]) :
    c = d ∧ (s.endCall i).quiescings = [] := by
  have hsplit := quiescings_split h
  rw [hd, List.filter_cons_of_pos hc] at hsplit
  have heq := List.singleton_perm.mp hsplit
  obtain ⟨rfl, hnil⟩ := List.cons.inj heq
  exact ⟨rfl, hnil.symm⟩

theorem not_quiescing (h : s.calls[i]? = some c) (hc : c.quiescing = true) (hnil : s.quiescings = []) : False := by
  have hmem : c ∈ s.quiescings := List.mem_filter.mpr ⟨List.mem_of_getElem? h, hc⟩
  rw [hnil] at hmem
  exact List.not_mem_nil hmem

/-- A step that moves no worker, and leaves what is to be notified to be notified. -/
theorem Phase.calls (h : Phase s) (hworkers : s'.workers = s.workers) (hworker : s'.worker = s.worker)
    (hstop : s'.stop = s.stop) (hjobs : s'.jobs = s.jobs) (hquiescings : s'.quiescings.Perm s.quiescings)
    (hnotifying : .notifying ∈ s.calls → .notifying ∈ s'.calls) : Phase s' := by
  cases h with
  | idle hnone hq hs hempty hexited =>
    rw [hq] at hquiescings
    apply Phase.idle (hworker.trans hnone) hquiescings.eq_nil (hstop.trans hs) (hjobs.trans hempty)
    intro v y hv
    exact hexited v y (hworkers ▸ hv)
  | serving w x hsome hq hs hsole hx hattentive =>
    rw [hq] at hquiescings
    apply Phase.serving w x (hworker.trans hsome) hquiescings.eq_nil (hstop.trans hs) ?_ hx
    · intro hne hasleep
      exact hnotifying (hattentive (hjobs ▸ hne) hasleep)
    · exact ⟨hworkers ▸ hsole.worker, fun v y hv => hsole.others v y (hworkers ▸ hv)⟩
  | leaving w x c hnone hq hc hs hsole hx =>
    rw [hq] at hquiescings
    apply Phase.leaving w x c (hworker.trans hnone) (List.perm_singleton.mp hquiescings) hc (hstop.trans hs) ?_
    · exact fun hexited => hjobs.trans (hx hexited)
    · exact ⟨hworkers ▸ hsole.worker, fun v y hv => hsole.others v y (hworkers ▸ hv)⟩
  | clearing hnone hq hs hempty hexited =>
    rw [hq] at hquiescings
    apply Phase.clearing (hworker.trans hnone) (List.perm_singleton.mp hquiescings) (hstop.trans hs) (hjobs.trans hempty)
    intro v y hv
    exact hexited v y (hworkers ▸ hv)

/-- A step of a worker: it exits only when told to, and sleeps and exits only with nothing to do. -/
theorem Phase.work (h : Phase s) (hv : s.workers[v]? = some x) (hx : x ≠ .exited)
    (hworkers : s'.workers = s.workers.set v y) (hworker : s'.worker = s.worker) (hstop : s'.stop = s.stop)
    (hquiescings : s'.quiescings.Perm s.quiescings) (hexits : y = .exited → s.stop = true ∧ s'.jobs = [])
    (hsleeps : y.isAsleep = true → s'.jobs = []) : Phase s' := by
  cases h with
  | idle _ _ _ _ hexited => exact absurd (hexited v x hv) hx
  | clearing _ _ _ _ hexited => exact absurd (hexited v x hv) hx
  | serving w z hsome hq hs hsole hz _ =>
    obtain ⟨rfl, -⟩ := hsole.eq hv hx
    rw [hq] at hquiescings
    apply Phase.serving v y (hworker.trans hsome) hquiescings.eq_nil (hstop.trans hs) (hsole.set hworkers)
    · rintro rfl
      rw [(hexits rfl).1] at hs
      cases hs
    · intro hne hasleep
      exact absurd (hsleeps hasleep) hne
  | leaving w z c hnone hq hc hs hsole hz =>
    obtain ⟨rfl, -⟩ := hsole.eq hv hx
    rw [hq] at hquiescings
    exact .leaving v y c (hworker.trans hnone) (List.perm_singleton.mp hquiescings) hc (hstop.trans hs)
      (hsole.set hworkers) fun hexited => (hexits hexited).2

theorem Phase.look (h : Phase s) (hv : s.workers[v]? = some x) (hx : x ≠ .exited) (usedMemory : Bool) :
    Phase (s.look v usedMemory) := by
  unfold State.look
  cases hjobs : s.jobs with
  | nil =>
    refine h.work hv hx rfl rfl rfl (.refl _) ?_ fun _ => hjobs
    split_ifs with hstop
    · exact fun _ => ⟨hstop, hjobs⟩
    · exact nofun
  | cons job jobs => exact h.work (y := .generating job) hv hx rfl rfl rfl (.refl _) nofun nofun

end Rules

section Steps

theorem Phase.submit (h : Phase s) (job : Job α) (starts : Bool) (hcalm : Calm s (.submit job starts)) :
    Phase (s.submit job starts) := by
  unfold State.submit
  cases hworker : s.worker with
  | some w =>
    cases h with
    | idle hnone => rw [hnone] at hworker; cases hworker
    | leaving _ _ _ hnone => rw [hnone] at hworker; cases hworker
    | clearing hnone => rw [hnone] at hworker; cases hworker
    | serving w' x hsome hq hs hsole hx _ =>
      exact .serving w' x hsome hq hs ⟨hsole.worker, hsole.others⟩ hx fun _ _ => List.mem_cons_self
  | none =>
    dsimp only
    split_ifs with hstarts
    · have hnil := hcalm hworker hstarts
      cases h with
      | serving w x hsome => rw [hsome] at hworker; cases hworker
      | leaving _ _ _ _ hq => rw [hnil] at hq; cases hq
      | clearing _ hq => rw [hnil] at hq; cases hq
      | idle _ hq hs hempty hexited =>
        refine .serving s.workers.length (.looking false) rfl hq hs ⟨?_, ?_⟩ nofun nofun
        · exact List.getElem?_concat_length
        · intro v y hv hne
          have hlt := (List.getElem?_eq_some_iff.mp hv).1
          change v < (s.workers ++ [Worker.looking false]).length at hlt
          rw [List.length_append, List.length_singleton] at hlt
          change (s.workers ++ [Worker.looking false])[v]? = some y at hv
          rw [List.getElem?_append_left (by omega)] at hv
          exact hexited v y hv
    · exact h

theorem Phase.notifyNone (h : Phase s) (hi : s.calls[i]? = some .notifying)
    (hasleep : s.workers.any Worker.isAsleep = false) : Phase (s.endCall i) := by
  have hquiescings := quiescings_endCall hi rfl
  cases h with
  | idle hnone hq hs hempty hexited =>
    rw [hq] at hquiescings
    exact .idle hnone hquiescings.eq_nil hs hempty hexited
  | serving w x hsome hq hs hsole hx _ =>
    rw [hq] at hquiescings
    refine .serving w x hsome hquiescings.eq_nil hs ⟨hsole.worker, hsole.others⟩ hx fun _ hx' => ?_
    have hany := List.any_eq_true.mpr ⟨x, List.mem_of_getElem? hsole.worker, hx'⟩
    rw [hasleep] at hany
    cases hany
  | leaving w x c hnone hq hc hs hsole hx =>
    rw [hq] at hquiescings
    exact .leaving w x c hnone (List.perm_singleton.mp hquiescings) hc hs ⟨hsole.worker, hsole.others⟩ hx
  | clearing hnone hq hs hempty hexited =>
    rw [hq] at hquiescings
    exact .clearing hnone (List.perm_singleton.mp hquiescings) hs hempty hexited

theorem Phase.quiesce (h : Phase s) : Phase s.quiesce := by
  unfold State.quiesce
  cases hworker : s.worker with
  | none => exact h
  | some w =>
    cases h with
    | idle hnone => rw [hnone] at hworker; cases hworker
    | leaving _ _ _ hnone => rw [hnone] at hworker; cases hworker
    | clearing hnone => rw [hnone] at hworker; cases hworker
    | serving w' x hsome hq _ hsole hx _ =>
      rw [hsome] at hworker
      cases hworker
      refine .leaving w x (.stopping w) rfl ?_ (.inl rfl) rfl ⟨hsole.worker, hsole.others⟩ fun hexited => absurd hexited hx
      change (Call.stopping w :: s.calls).filter Call.quiescing = _
      rw [List.filter_cons_of_pos rfl]
      exact congrArg _ hq

theorem Phase.notifyAll (h : Phase s) (hi : s.calls[i]? = some (.stopping w)) :
    Phase { s.withCall i (.joining w) with workers := s.workers.map Worker.woken } := by
  cases h with
  | idle _ hq => exact (not_quiescing hi rfl hq).elim
  | serving _ _ _ hq => exact (not_quiescing hi rfl hq).elim
  | clearing _ hq => cases (quiescings_singleton hi rfl hq).1
  | leaving w' x c hnone hq hc hs hsole hx =>
    obtain ⟨rfl, hrest⟩ := quiescings_singleton hi rfl hq
    obtain rfl : w = w' := by
      obtain h | h := hc
      · exact Call.stopping.inj h
      · cases h
    refine .leaving w x.woken (.joining w) hnone ?_ (.inr rfl) hs ⟨?_, ?_⟩ ?_
    · change (Call.joining w :: s.calls.eraseIdx i).filter Call.quiescing = _
      rw [List.filter_cons_of_pos rfl]
      exact congrArg _ hrest
    · change (s.workers.map Worker.woken)[w]? = _
      rw [List.getElem?_map, hsole.worker]
      rfl
    · intro v y hv hne
      change (s.workers.map Worker.woken)[v]? = _ at hv
      rw [List.getElem?_map] at hv
      obtain ⟨z, hz, rfl⟩ := Option.map_eq_some_iff.mp hv
      rw [hsole.others v z hz hne]
      rfl
    · intro hexited
      apply hx
      cases x <;> first | rfl | cases hexited

theorem Phase.join (h : Phase s) (hi : s.calls[i]? = some (.joining w)) (hw : s.workers[w]? = some .exited) :
    Phase (s.withCall i .clearing) := by
  cases h with
  | idle _ hq => exact (not_quiescing hi rfl hq).elim
  | serving _ _ _ hq => exact (not_quiescing hi rfl hq).elim
  | clearing _ hq => cases (quiescings_singleton hi rfl hq).1
  | leaving w' x c hnone hq hc hs hsole hx =>
    obtain ⟨rfl, hrest⟩ := quiescings_singleton hi rfl hq
    obtain rfl : w = w' := by
      obtain h | h := hc
      · cases h
      · exact Call.joining.inj h
    have hworker := hsole.worker
    rw [hw] at hworker
    cases hworker
    refine .clearing hnone ?_ hs (hx rfl) hsole.allExited
    change (Call.clearing :: s.calls.eraseIdx i).filter Call.quiescing = _
    rw [List.filter_cons_of_pos rfl]
    exact congrArg _ hrest

theorem Phase.clear (h : Phase s) (hi : s.calls[i]? = some .clearing) : Phase { s.endCall i with stop := false } := by
  cases h with
  | idle _ hq => exact (not_quiescing hi rfl hq).elim
  | serving _ _ _ hq => exact (not_quiescing hi rfl hq).elim
  | leaving w x c _ hq hc =>
    obtain ⟨rfl, -⟩ := quiescings_singleton hi rfl hq
    obtain h | h := hc <;> cases h
  | clearing hnone hq _ hempty hexited => exact .idle hnone (quiescings_singleton hi rfl hq).2 rfl hempty hexited

/-- Each calm step keeps to the phases. -/
theorem Phase.step {a : Action α} (h : Phase s) (hcalm : Calm s a) (hstep : s.step generate a = some s') : Phase s' := by
  unfold State.step at hstep
  cases a with
  | submit job starts =>
    cases hstep
    exact h.submit job starts hcalm
  | notifyOne i woken =>
    dsimp only at hstep
    split at hstep
    · rename_i hi
      unfold State.notifyOne at hstep
      split at hstep
      · split_ifs at hstep with hasleep
        cases hstep
        exact h.notifyNone hi (Bool.eq_false_iff.mpr hasleep)
      · split at hstep
        · rename_i hw
          cases hstep
          exact h.work hw nofun rfl rfl rfl (quiescings_endCall hi rfl) nofun nofun
        · cases hstep
    · cases hstep
  | look w =>
    dsimp only at hstep
    split at hstep
    · rename_i hw
      cases hstep
      exact h.look hw nofun _
    · cases hstep
  | wake w timedOut =>
    dsimp only at hstep
    split at hstep
    · rename_i hw
      split_ifs at hstep
      · cases hstep
        exact h.work (y := .releasing) hw nofun rfl rfl rfl (.refl _) nofun nofun
      · cases hstep
        exact h.look hw nofun _
    · cases hstep
  | relock w =>
    dsimp only at hstep
    split at hstep
    · rename_i hw
      cases hstep
      exact h.look hw nofun _
    · cases hstep
  | generated w =>
    dsimp only at hstep
    split at hstep
    · rename_i hw
      cases hstep
      exact h.work (y := .pushed) hw nofun rfl rfl rfl (.refl _) nofun nofun
    · cases hstep
  | setReady w =>
    dsimp only at hstep
    split at hstep
    · rename_i hw
      cases hstep
      exact h.work (y := .looking true) hw nofun rfl rfl rfl (.refl _) nofun nofun
    · cases hstep
  | takeDone =>
    cases hstep
    unfold State.takeDone
    split_ifs
    · exact h.calls rfl rfl rfl rfl (.refl _) (List.mem_cons_of_mem _)
    · exact h
  | take i =>
    dsimp only at hstep
    split at hstep
    · rename_i hi
      cases hstep
      exact h.calls rfl rfl rfl rfl (quiescings_withCall hi rfl rfl) fun hmem =>
        List.mem_cons_of_mem _ (mem_erase_of_ne hi nofun hmem)
    · cases hstep
  | countJobs i =>
    dsimp only at hstep
    split at hstep
    · rename_i hi
      cases hstep
      exact h.calls rfl rfl rfl rfl (quiescings_withCall hi rfl rfl) fun hmem =>
        List.mem_cons_of_mem _ (mem_erase_of_ne hi nofun hmem)
    · cases hstep
  | countIr i =>
    dsimp only at hstep
    split at hstep
    · rename_i hi
      cases hstep
      exact h.calls rfl rfl rfl rfl (quiescings_endCall hi rfl) (mem_erase_of_ne hi nofun)
    · cases hstep
  | quiesce =>
    cases hstep
    exact h.quiesce
  | notifyAll i =>
    dsimp only at hstep
    split at hstep
    · rename_i hi
      cases hstep
      exact h.notifyAll hi
    · cases hstep
  | join i =>
    dsimp only at hstep
    split at hstep
    · rename_i hi
      split at hstep
      · rename_i hw
        cases hstep
        exact h.join hi hw
      · cases hstep
    · cases hstep
  | clear i =>
    dsimp only at hstep
    split at hstep
    · rename_i hi
      cases hstep
      exact h.clear hi
    · cases hstep

theorem calmlyReachable_phase (h : CalmlyReachable generate s) : Phase s := by
  induction h with
  | new => exact .idle rfl rfl rfl rfl fun v y hv => nomatch hv
  | step _ hcalm hstep ih => exact ih.step hcalm hstep

end Steps

section Progress

/-- The steps of one worker, and the notification that wakes it. -/
def Action.of (w : ℕ) : Action α → Prop
  | .notifyOne _ woken => woken = some w
  | .look v | .relock v | .generated v | .setReady v => v = w
  | _ => False

def State.after (generate : α → β) (s : State α β) : List (Action α) → Option (State α β)
  | [] => some s
  | a :: as => (s.step generate a).bind fun s' => s'.after generate as

variable {job : Job α} {jobs : List (Job α)} {a : Action α} {n : ℕ}

/-- A worker's next steps, `n` at most, take the first job. -/
def PopsIn (generate : α → β) (n : ℕ) (s : State α β) (w : ℕ) (job : Job α) (jobs : List (Job α)) : Prop :=
  ∃ actions s', s.after generate actions = some s' ∧ actions.length ≤ n ∧ (∀ a ∈ actions, a.of w) ∧
    s'.jobs = jobs ∧ s'.workers[w]? = some (.generating job)

theorem PopsIn.cons (s' : State α β) (h : PopsIn generate n s' w job jobs) (hstep : s.step generate a = some s') (ha : a.of w) :
    PopsIn generate (n + 1) s w job jobs := by
  obtain ⟨actions, s'', hafter, hlength, hof, hpop⟩ := h
  refine ⟨a :: actions, s'', ?_, Nat.succ_le_succ hlength, ?_, hpop⟩
  · unfold State.after
    rw [hstep]
    exact hafter
  · intro b hb
    obtain rfl | hb := List.mem_cons.mp hb
    · exact ha
    · exact hof b hb

theorem PopsIn.mono {m : ℕ} (h : PopsIn generate n s w job jobs) (hnm : n ≤ m) : PopsIn generate m s w job jobs := by
  obtain ⟨actions, s', hafter, hlength, hrest⟩ := h
  exact ⟨actions, s', hafter, Nat.le_trans hlength hnm, hrest⟩

theorem popsIn_look (hjobs : s.jobs = job :: jobs) (usedMemory : Bool) (hw : w < s.workers.length)
    (hstep : s.step generate a = some (s.look w usedMemory)) (ha : a.of w) : PopsIn generate 1 s w job jobs := by
  have hlook : s.look w usedMemory = { s.withWorker w (.generating job) with jobs } := by
    unfold State.look
    rw [hjobs]
  refine PopsIn.cons (n := 0) _ ⟨[], _, rfl, Nat.le_refl _, nofun, ?_, ?_⟩ hstep ha
  · rw [hlook]
  · rw [hlook]
    exact List.getElem?_set_self hw

theorem popsIn_looking (hjobs : s.jobs = job :: jobs) {usedMemory : Bool} (hw : s.workers[w]? = some (.looking usedMemory)) :
    PopsIn generate 1 s w job jobs := by
  apply popsIn_look (a := .look w) hjobs usedMemory (List.getElem?_eq_some_iff.mp hw).1 ?_ rfl
  unfold State.step
  dsimp only
  rw [hw]

theorem popsIn_pushed (hjobs : s.jobs = job :: jobs) (hw : s.workers[w]? = some .pushed) :
    PopsIn generate 2 s w job jobs := by
  apply PopsIn.cons (a := .setReady w) { s.withWorker w (.looking true) with ready := true } ?_ ?_ rfl
  · apply popsIn_looking (s := { s.withWorker w (.looking true) with ready := true }) hjobs
    exact List.getElem?_set_self (List.getElem?_eq_some_iff.mp hw).1
  · unfold State.step
    dsimp only
    rw [hw]

/-- A worker that has not exited, nor sleeps with nobody to wake it, takes the first job. -/
theorem pops (hjobs : s.jobs = job :: jobs) (hw : s.workers[w]? = some x) (hx : x ≠ .exited)
    (hasleep : x.isAsleep = true → .notifying ∈ s.calls) : PopsIn generate 3 s w job jobs := by
  have hlt := (List.getElem?_eq_some_iff.mp hw).1
  cases x with
  | looking usedMemory => exact (popsIn_looking hjobs hw).mono (by omega)
  | asleep usedMemory =>
    obtain ⟨i, hi⟩ := List.mem_iff_getElem?.mp (hasleep rfl)
    apply PopsIn.mono (n := 2) ?_ (by omega)
    apply PopsIn.cons (a := .notifyOne i (some w)) ((s.endCall i).withWorker w (.looking usedMemory)) ?_ ?_ rfl
    · apply popsIn_looking (s := (s.endCall i).withWorker w (.looking usedMemory)) hjobs
      exact List.getElem?_set_self hlt
    · unfold State.step State.notifyOne
      dsimp only
      rw [hi]
      dsimp only
      rw [hw]
  | releasing =>
    apply PopsIn.mono (n := 1) ?_ (by omega)
    apply popsIn_look (a := .relock w) hjobs false hlt ?_ rfl
    unfold State.step
    dsimp only
    rw [hw]
  | generating last =>
    apply PopsIn.cons (a := .generated w)
      { s.withWorker w .pushed with done := s.done ++ [⟨last.ticket, last.size, generate last.units⟩] } ?_ ?_ rfl
    · apply popsIn_pushed (s := { s.withWorker w .pushed with done := _ }) hjobs
      exact List.getElem?_set_self hlt
    · unfold State.step
      dsimp only
      rw [hw]
  | pushed => exact (popsIn_pushed hjobs hw).mono (by omega)
  | exited => exact absurd rfl hx

end Progress

section Results

theorem entry_ticket (jobs : List (Job α)) :
    (jobs.map (Job.entry generate)).map Done.ticket = jobs.map Job.ticket := List.map_map

/-- Wherever the threads are: each job is in one place, with what code generation makes of it; the counters
count the jobs that no `take_done` has subtracted; finished jobs are announced, or about to be taken; and a
worker comes back to the queue, if none was started while a `quiesce` was in progress. -/
theorem jobs_kept (generate : α → β) (s : State α β) (h : Reachable generate s) :
    (s.submitted.map (Job.entry generate)).Perm (s.held generate ++ (s.taken ++ s.handed)) ∧
    (∀ ticket, (s.handed.map Done.ticket).count ticket ≤ (s.submitted.map Job.ticket).count ticket) ∧
    ((s.submitted.map Job.ticket).Nodup → ((s.held generate ++ (s.taken ++ s.handed)).map Done.ticket).Nodup) ∧
    s.inFlight = (s.held generate).length + s.uncounted ∧ s.inFlightIr = sizes (s.held generate) + sizes s.taken ∧
    (∀ (i : ℕ) done, s.calls[i]? = some (.countingJobs done) → done.length ≤ s.inFlight) ∧
    (∀ (i : ℕ) done, s.calls[i]? = some (.countingIr done) → sizes done ≤ s.inFlightIr) ∧
    (s.done ≠ [] → s.Signalled) ∧
    (CalmlyReachable generate s → s.quiescings = [] → ∀ job jobs, s.jobs = job :: jobs →
      ∃ w x, s.worker = some w ∧ s.workers[w]? = some x ∧ x ≠ .exited ∧ PopsIn generate 3 s w job jobs) := by
  have haccounts := reachable_accounts h
  have htickets := haccounts.places.map Done.ticket
  rw [entry_ticket] at htickets
  refine ⟨haccounts.places, ?_, fun hnodup => htickets.nodup_iff.mp hnodup, haccounts.inFlight, haccounts.inFlightIr,
    ?_, ?_, haccounts.ready, ?_⟩
  · intro ticket
    rw [htickets.count_eq, List.map_append, List.map_append, List.count_append, List.count_append]
    omega
  · intro i done hi
    have huncounted : s.uncounted = done.length + _ := uncounted_split hi
    have := haccounts.inFlight
    omega
  · intro i done hi
    have hsizes := sizes_perm (taken_split hi)
    rw [sizes_append] at hsizes
    have hdone : sizes (Call.countingIr done).taken = sizes done := rfl
    have := haccounts.inFlightIr
    omega
  · intro hcalm hnone job jobs hjobs
    cases calmlyReachable_phase hcalm with
    | idle _ _ _ hempty => rw [hempty] at hjobs; cases hjobs
    | leaving _ _ _ _ hq => rw [hnone] at hq; cases hq
    | clearing _ hq => rw [hnone] at hq; cases hq
    | serving w x hsome _ _ hsole hx hattentive =>
      have hne : s.jobs ≠ [] := by
        rw [hjobs]
        exact List.cons_ne_nil _ _
      exact ⟨w, x, hsome, hsole.worker, hx, pops hjobs hsole.worker hx (hattentive hne)⟩

theorem after_reachable {s' : State α β} {actions : List (Action α)} (h : Reachable generate s)
    (hafter : s.after generate actions = some s') : Reachable generate s' := by
  induction actions generalizing s with
  | nil =>
    cases hafter
    exact h
  | cons a actions ih =>
    obtain ⟨s₁, hstep, hrest⟩ := Option.bind_eq_some_iff.mp hafter
    exact ih (h.step hstep) hrest

def sampleJob (ticket : ℕ) : Job ℕ := ⟨ticket, ticket, 1⟩

/-- One job, and the worker that its submission starts. -/
theorem first_job_pops : ∃ w x, (State.new.submit (sampleJob 1) true : State ℕ ℕ).worker = some w ∧
    (State.new.submit (sampleJob 1) true : State ℕ ℕ).workers[w]? = some x ∧ x ≠ .exited ∧
    PopsIn id 3 (State.new.submit (sampleJob 1) true) w (sampleJob 1) [] :=
  (jobs_kept id _ (.step (a := .submit (sampleJob 1) true) .new rfl)).2.2.2.2.2.2.2.2
    (.step (a := .submit (sampleJob 1) true) .new (fun _ _ => rfl) rfl) rfl _ _ rfl

/-- Between the two halves of a `take_done` finished jobs wait with `READY` cleared; and a worker that was
started during a `quiesce` exits on the flag meant for the one before, and leaves its handle and the jobs after it behind. -/
theorem jobs_stranded :
    (∃ s : State ℕ ℕ, Reachable id s ∧ s.done ≠ [] ∧ s.ready = false ∧ ∀ x ∈ s.workers, x ≠ .pushed) ∧
    ∃ s : State ℕ ℕ, Reachable id s ∧ s.quiescings = [] ∧ s.jobs ≠ [] ∧ s.worker = some 1 ∧ AllExited s := by
  constructor
  · have hafter : State.new.after id [.submit (sampleJob 1) true, .look 0, .generated 0, .setReady 0, .takeDone] =
        some _ := rfl
    refine ⟨_, after_reachable .new hafter, List.cons_ne_nil _ _, rfl, ?_⟩
    intro x hx
    obtain rfl := List.mem_singleton.mp hx
    exact nofun
  · have hafter : State.new.after id [.submit (sampleJob 1) true, .look 0, .generated 0, .setReady 0, .quiesce,
        .submit (sampleJob 2) true, .look 1, .generated 1, .setReady 1, .look 0, .look 1, .notifyAll 1, .join 0, .clear 0,
        .submit (sampleJob 3) true] = some _ := rfl
    refine ⟨_, after_reachable .new hafter, rfl, List.cons_ne_nil _ _, rfl, ?_⟩
    intro v y hv
    have hmem : y ∈ [Worker.exited, Worker.exited] := List.mem_of_getElem? hv
    obtain rfl | hmem := List.mem_cons.mp hmem
    · rfl
    · exact List.mem_singleton.mp hmem

end Results

end WeavePy.CompileQueue
