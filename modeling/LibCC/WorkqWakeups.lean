import LibCC.WorkqFrames

/-! When a thread that waits on a condition variable can be released. Taking
the last pending task away, by cc_workq_cancel or by a purge, does not
broadcast cond_complete, although cc_workq_finish waits for it. -/

namespace LibCC

open LabelledRun SequenceFamily

variable {threads : Nat} {C τ : Type} [DecidableEq C] [DecidableEq τ]

/-- A worker sleeps only while there is nothing to take, a thread in
cc_workq_finish only while there are tasks left, and one in cc_workq_reset
only while there are active ones. -/
structure WakeInv (s : WorkqSys threads C τ) : Prop where
  worker : ∀ w, s.worker w = .asleep false → s.q.pending = [] ∧ s.q.state = .running
  finish : ∀ c, s.client c = .finishAsleep false → s.q.pending ≠ [] ∨ s.q.active ≠ []
  reset : ∀ c purgeId, s.client c = .resetAsleep purgeId false → s.q.active ≠ []

/-- A task is active, or one is pending that is not dropped. -/
def Workq.Leaves (q : Workq τ) (drops : IterPtr → Prop) : Prop :=
  q.active ≠ [] ∨ ∃ iter ∈ q.pending, ¬ drops iter

/-- A section of one thread leaves a pending or an active task while another
thread sleeps in cc_workq_finish, and no thread uses a node that is freed. -/
def WorkqMove.LeavesTasks (s : WorkqSys threads C τ) : WorkqMove threads C τ → Prop
  | .call c op =>
    ∀ c', c' ≠ c → s.client c' = .finishAsleep false → s.q.Leaves fun iter => op.Drops s.q iter
  | .resume c => ¬ (s.client c).Bereft s.q ∧ ∀ c', c' ≠ c → s.client c' = .finishAsleep false →
    s.q.Leaves fun iter => (s.client c).Drops s.q iter
  | _ => True

section Sections

variable {q q' : Workq τ} {drop : IterPtr → Prop} {events : List (WorkqEvent τ)}

omit [DecidableEq τ] in
theorem Evolves.leaves (he : Evolves drop q events q') (h : WorkqInv q) (hl : q.Leaves drop) :
    q'.pending ≠ [] ∨ q'.active ≠ [] := by
  rcases hl with ha | ⟨iter, hi, hd⟩
  · exact .inr (he.active ▸ ha)
  · obtain ⟨n, hn, hk, hm⟩ := h.queued .pending iter hi
    rcases he.each _ n iter hn hm with ⟨-, hm', hd', n', hn', hs', ht'⟩ | ⟨-, -, hdrop, -⟩
    · have hmem : iter ∈ q'.queues.seq .pending := by
        have hp' : q'.peek iter = some n' := by rw [Workq.peek, hd', hn']
        exact he.inv.mem_of_status hm' hp' (by rw [hs', hk])
      exact .inl (List.ne_nil_of_mem hmem)
    · exact absurd hdrop hd

/-- What a section must tell the other threads. -/
structure Tells (q : Workq τ) (r : WorkqSection τ) : Prop where
  worker : r.broadcast = false → q.pending = [] → r.q.pending = [] ∧ r.q.state = q.state
  finish : r.pc = .finishAsleep false → r.q.pending ≠ [] ∨ r.q.active ≠ []
  reset : ∀ purgeId, r.pc = .resetAsleep purgeId false → r.q.active ≠ []

omit [DecidableEq τ] in
theorem Trims.nil (h : Trims q q') (hp : q.pending = []) :
    q'.pending = [] ∧ q'.state = q.state := by
  have hs := h.pending
  rw [hp] at hs
  exact ⟨List.sublist_nil.mp hs, h.state⟩

omit [DecidableEq τ] in
theorem Purged.nil (h : Purged q events q') (hp : q.pending = []) :
    q'.pending = [] ∧ q'.state = q.state := by
  refine ⟨?_, h.state⟩
  rw [h.pending, hp]
  rfl

theorem tells_finish (h : WorkqInv q) : Tells q (workqFinishSection q) := by
  refine ⟨fun _ => (finishSection_trims h).1.nil, fun hpc => ?_, fun purgeId hpc => ?_⟩
  · simp only [workqFinishSection] at hpc ⊢
    split_ifs at hpc with hw
    rw [workqFinish_eq] at hw ⊢
    simpa using hw
  · simp only [workqFinishSection] at hpc
    split_ifs at hpc

omit [DecidableEq τ] in
theorem tells_reset (q : Workq τ) (purgeId : Int) : Tells q (workqResetSection purgeId q) := by
  refine ⟨fun _ hp => ⟨hp, rfl⟩, fun hpc => ?_, fun purgeId' hpc => ?_⟩
  · simp only [workqResetSection] at hpc
    split_ifs at hpc
  · simp only [workqResetSection] at hpc ⊢
    split_ifs at hpc with ha
    exact ha

omit [DecidableEq τ] in
theorem Tells.quiet {r : WorkqSection τ} (hw : r.broadcast = false → q.pending = [] →
    r.q.pending = [] ∧ r.q.state = q.state) (hf : r.pc ≠ .finishAsleep false)
    (hr : ∀ purgeId, r.pc ≠ .resetAsleep purgeId false) : Tells q r :=
  ⟨hw, fun hpc => absurd hpc hf, fun purgeId hpc => absurd hpc (hr purgeId)⟩

theorem RunOutcome.tells {task : τ} {priority : Int} {broadcast : Bool}
    (ho : RunOutcome task priority q events broadcast q') (hb : broadcast = false)
    (hp : q.pending = []) : q'.pending = [] ∧ q'.state = q.state := by
  cases ho with
  | removed => exact (trims_without q _ _ _).nil hp
  | active => exact ⟨hp, rfl⟩
  | pending _ hi => simp [hp] at hi
  | failed _ hu =>
    refine ⟨?_, hu.state⟩
    rw [Workq.pending, hu.seq]
    exact hp
  | created => simp at hb

theorem WaitStep.tells {drop : IterPtr → Prop} {freed : Prop} {r : WorkqSection τ}
    (h : WaitStep drop freed q r) : Tells q r := by
  cases h with
  | absent => exact .quiet (fun _ hp => ⟨hp, rfl⟩) (by simp) (by simp)
  | bereft =>
    exact .quiet (fun _ hp => ⟨hp, rfl⟩) (by simp [workqWaitSection]) (by simp [workqWaitSection])
  | @looped _ _ _ _ asleep _ _ hw _ ha _ =>
    cases hw with
    | sleep =>
      refine .quiet (fun _ hp => ⟨hp, rfl⟩) ?_ fun purgeId => ?_
      · rintro (hpc : asleep = _)
        simp [hpc, WorkqClient.sleepsOn] at ha
      · rintro (hpc : asleep = _)
        simp [hpc, WorkqClient.sleepsOn] at ha
    | unlock =>
      exact .quiet (fun _ hp => ⟨hp, rfl⟩) (by simp [workqWaitSection]) (by simp [workqWaitSection])
    | done =>
      exact .quiet (fun _ => (trims_without q _ _ _).nil) (by simp [workqWaitSection])
        (by simp [workqWaitSection])

theorem callSection_tells (h : WorkqInv q) {op : WorkqCall τ} {r : WorkqSection τ}
    (hr : workqCallSection q op = some r) : Tells q r := by
  cases op with
  | run task priority alloc =>
    obtain ⟨ho, hpc⟩ := callSection_run h hr
    exact .quiet ho.tells (by simp [hpc]) (by simp [hpc])
  | wait | cancel => exact (callSection_waits h hr rfl).tells
  | purge =>
    obtain rfl := Option.some.inj hr
    exact .quiet (fun _ => (workqPurge_spec h).nil) (by simp) (by simp)
  | flush =>
    obtain rfl := Option.some.inj hr
    exact .quiet (fun _ => (trims_flush h).nil) (by simp) (by simp)
  | finish =>
    obtain rfl := Option.some.inj hr
    exact tells_finish h
  | status | pending | reset =>
    obtain rfl := Option.some.inj hr
    exact .quiet (fun _ hp => ⟨hp, rfl⟩) (by simp) (by simp)
  | delete =>
    obtain rfl := Option.some.inj hr
    exact .quiet (fun hb => absurd hb (by simp)) (by simp) (by simp)

theorem resumeSection_tells (h : WorkqInv q) {pc : WorkqClient τ} {joined : Bool}
    {r : WorkqSection τ} (hr : workqResumeSection joined q pc = some r)
    (hs : ∀ task iter node n, pc.sleepsOn = some (task, iter, node) → q.node node = some n →
      n.task = task ∧ q.mapTask task = some iter) : Tells q r := by
  cases pc with
  | waitAsleep | cancelAsleep =>
    exact (resumeSection_waits h hr hs (by simp [WorkqClient.sleepsOn])).tells
  | finishAsleep awake =>
    cases awake with
    | false => simp [workqResumeSection] at hr
    | true =>
      obtain rfl := Option.some.inj hr
      exact tells_finish h
  | resetActive purgeId =>
    obtain rfl := Option.some.inj hr
    exact tells_reset q purgeId
  | resetAsleep purgeId awake =>
    cases awake with
    | false => simp [workqResumeSection] at hr
    | true =>
      obtain rfl := Option.some.inj hr
      exact tells_reset q purgeId
  | resetPurge purgeId blocking =>
    obtain rfl := Option.some.inj hr
    cases blocking <;> exact .quiet (fun _ => (workqPurge_spec h).nil) (by simp) (by simp)
  | resetPurgeComplete | deletePurge =>
    obtain rfl := Option.some.inj hr
    exact .quiet (fun _ => (workqPurge_spec h).nil) (by simp) (by simp)
  | resetSaved | resetRestore | deleteMark | deleteLists =>
    obtain rfl := Option.some.inj hr
    exact .quiet (fun _ hp => ⟨hp, rfl⟩) (by simp) (by simp)
  | deleteJoin =>
    cases joined with
    | false => simp [workqResumeSection] at hr
    | true =>
      obtain rfl := Option.some.inj hr
      exact .quiet (fun _ hp => ⟨hp, rfl⟩) (by simp) (by simp)
  | idle | unlocked | deleted | fault => simp [workqResumeSection] at hr

end Sections

section Steps

variable {s s' : WorkqSys threads C τ}

omit [DecidableEq τ] in
theorem WakeInv.section_ (hW : WakeInv s) (h : WorkqInv s.q) {c : C} {r : WorkqSection τ}
    {drop : IterPtr → Prop} (he : Evolves drop s.q r.events r.q) (ht : Tells s.q r)
    (hl : ∀ c', c' ≠ c → s.client c' = .finishAsleep false → s.q.Leaves drop) :
    WakeInv (s.section_ c r) := by
  refine ⟨fun w hw => ?_, fun c' hc => ?_, fun c' purgeId hc => ?_⟩
  · change r.q.pending = [] ∧ r.q.state = .running
    cases hb : r.broadcast with
    | true =>
      have hpc : (s.worker w).signal = .asleep false := by simpa [WorkqSys.section_, hb] using hw
      cases hs : s.worker w <;> simp [hs, WorkqWorker.signal] at hpc
    | false =>
      have hpc : s.worker w = .asleep false := by simpa [WorkqSys.section_, hb] using hw
      obtain ⟨hp, hst⟩ := hW.worker w hpc
      obtain ⟨hp', hst'⟩ := ht.worker hb hp
      exact ⟨hp', hst'.trans hst⟩
  · by_cases hcc : c' = c
    · subst hcc
      rw [section_client_self] at hc
      exact ht.finish hc
    · rw [section_client_of_ne hcc] at hc
      exact he.leaves h (hl c' hcc hc)
  · by_cases hcc : c' = c
    · subst hcc
      rw [section_client_self] at hc
      exact ht.reset purgeId hc
    · rw [section_client_of_ne hcc] at hc
      have hact : r.q.active = s.q.active := he.active
      change r.q.active ≠ []
      rw [hact]
      exact hW.reset c' purgeId hc

omit [DecidableEq τ] in
theorem WakeInv.setClient (hW : WakeInv s) {c : C} {pc : WorkqClient τ}
    (hf : pc ≠ .finishAsleep false) (hr : ∀ purgeId, pc ≠ .resetAsleep purgeId false) :
    WakeInv (s.setClient c pc) := by
  refine ⟨hW.worker, fun c' hc => ?_, fun c' purgeId hc => ?_⟩
  · by_cases hcc : c' = c
    · subst hcc
      exact absurd (by simpa [WorkqSys.setClient] using hc) hf
    · exact hW.finish c' (by simpa [WorkqSys.setClient, hcc] using hc)
  · by_cases hcc : c' = c
    · subst hcc
      exact absurd (by simpa [WorkqSys.setClient] using hc) (hr purgeId)
    · exact hW.reset c' purgeId (by simpa [WorkqSys.setClient, hcc] using hc)

omit [DecidableEq C] [DecidableEq τ] in
theorem WakeInv.setWorker (hW : WakeInv s) {w : Fin threads} {pc : WorkqWorker}
    (hpc : pc ≠ .asleep false) : WakeInv (s.setWorker w pc) := by
  refine ⟨fun w' hw => ?_, hW.finish, hW.reset⟩
  by_cases hww : w' = w
  · subst hww
    exact absurd (by simpa [WorkqSys.setWorker] using hw) hpc
  · exact hW.worker w' (by simpa [WorkqSys.setWorker, hww] using hw)

omit [DecidableEq C] [DecidableEq τ] in
theorem WakeInv.report (hW : WakeInv s) (h : WorkqSysInv s) {w : Fin threads} {iter : IterPtr}
    {node : Nat} {ret : Bool} (hw : s.worker w = .returned iter node ret) :
    WakeInv (s.report w iter node ret) := by
  have hsignal : ∀ c, (s.report w iter node ret).client c = (s.client c).signal := fun _ => rfl
  refine ⟨fun w' hw' => ?_, fun c hc => ?_, fun c purgeId hc => ?_⟩
  · have hww : w' ≠ w := by
      rintro rfl
      simp [WorkqSys.report] at hw'
    obtain ⟨hp, hst⟩ := hW.worker w' (by simpa [WorkqSys.report, hww] using hw')
    obtain ⟨hp', hst'⟩ := (WorkqSys.Ready.trims h (.report hw)).nil hp
    exact ⟨hp', hst'.trans hst⟩
  · rw [hsignal] at hc
    cases hs : s.client c <;> simp [hs, WorkqClient.signal] at hc
  · rw [hsignal] at hc
    cases hs : s.client c <;> simp [hs, WorkqClient.signal] at hc

omit [DecidableEq C] [DecidableEq τ] in
theorem WakeInv.thread (hW : WakeInv s) (w : Fin threads) : WakeInv (s.thread w) := by
  rcases workqThreadSection_cases s.q with ⟨hr, hp, hst⟩ | ⟨hr, -⟩ | ⟨iter, rest, hp, -, hr⟩
  · have he : s.thread w = s.setWorker w (.asleep false) := by
      simp [WorkqSys.thread, WorkqSys.setWorker, hr]
    rw [he]
    refine ⟨fun w' _ => ⟨hp, hst⟩, hW.finish, hW.reset⟩
  · have he : s.thread w = s.setWorker w .exited := by
      simp [WorkqSys.thread, WorkqSys.setWorker, hr]
    rw [he]
    exact hW.setWorker (by simp)
  · have hactive : (s.thread w).q.active ≠ [] := by
      have hq : (s.thread w).q = s.q.shift .pending .active iter .active := by
        simp [WorkqSys.thread, hr]
      rw [hq]
      change (s.q.shift .pending .active iter .active).queues.seq .active ≠ []
      rw [shift_seq (by simp), Function.update_self]
      simp
    refine ⟨fun w' hw' => ?_, fun _ _ => .inr hactive, fun _ _ _ => hactive⟩
    by_cases hww : w' = w
    · subst hww
      simp [WorkqSys.thread, hr] at hw'
    · have hpc : s.worker w' = .asleep false := by simpa [WorkqSys.thread, hr, hww] using hw'
      simp [(hW.worker w' hpc).1] at hp

theorem WakeInv.step (hW : WakeInv s) (h : WorkqSysInv s) {l : WorkqLabel threads C τ}
    (hs : WorkqStep s l s') (hl : l.1.LeavesTasks s) : WakeInv s' := by
  obtain ⟨m, events⟩ := l
  change s.step m = some (events, s') at hs
  cases m with
  | call c op =>
    obtain ⟨-, r, hr, -, rfl⟩ := step_call hs
    exact hW.section_ h.inv (callSection_spec h.inv hr).evolves (callSection_tells h.inv hr) hl
  | resume c =>
    obtain ⟨r, hr, -, rfl⟩ := step_resume hs
    exact hW.section_ h.inv (resumeSection_spec h.inv hr (h.sleeper c)).evolves
      (resumeSection_tells h.inv hr (h.sleeper c)) hl.2
  | read c garbage =>
    obtain ⟨node, -, -, rfl⟩ := step_read hs
    exact hW.setClient (by simp) (by simp)
  | wakeClient c =>
    obtain ⟨-, rfl⟩ := step_wakeClient hs
    refine hW.setClient (fun hc => ?_) (fun purgeId hc => ?_)
    · cases hs : s.client c <;> simp [hs, WorkqClient.signal] at hc
    · cases hs : s.client c <;> simp [hs, WorkqClient.signal] at hc
  | wakeWorker w =>
    obtain ⟨-, rfl⟩ := step_wakeWorker hs
    refine hW.setWorker fun hw => ?_
    cases hs : s.worker w <;> simp [hs, WorkqWorker.signal] at hw
  | work w =>
    obtain ⟨-, s₁, hr, rfl⟩ := step_work hs
    cases hr with
    | enter => exact hW.thread w
    | report hw => exact (hW.report h hw).thread w
  | begin w =>
    obtain ⟨iter, node, hw, -, rfl⟩ := step_begin hs
    exact hW.setWorker (by simp)
  | finish w ret =>
    obtain ⟨iter, node, hw, -, rfl⟩ := step_finish hs
    exact hW.setWorker (by simp)

end Steps

/-- While no step takes the last task away from a thread that sleeps in
cc_workq_finish, every thread that sleeps has a broadcast ahead. -/
theorem workq_wakeups {data : IterPtr → Nat} {tr : List (WorkqLabel threads C τ)}
    {s : WorkqSys threads C τ}
    (h : Run (Guarded WorkqStep fun s l => l.1.LeavesTasks s) (workqSysNew data) tr s) :
    (∀ w, s.worker w = .asleep false → s.q.pending = [] ∧ s.q.state = .running) ∧
    (∀ c, s.client c = .finishAsleep false → s.q.pending ≠ [] ∨ s.q.active ≠ []) ∧
    (∀ c purgeId, s.client c = .resetAsleep purgeId false → s.q.active ≠ []) := by
  have hW : WakeInv s := by
    refine h.invariant (P := fun _ s => WakeInv s) ?_ ?_
    · exact ⟨fun w hw => by simp [workqSysNew] at hw, fun c hc => by simp [workqSysNew] at hc,
        fun c purgeId hc => by simp [workqSysNew] at hc⟩
    · intro tr s l s' hr hW hs
      exact hW.step (WorkqReach.inv hr.unguard) hs.1 hs.2
  exact ⟨hW.worker, hW.finish, hW.reset⟩

/-- One client sleeps in cc_workq_finish, with nobody to take its task away. -/
def workqFinishAlone : List (WorkqMove 1 Unit Nat) :=
  [.call () (.run 1 0 (.success ⟨0, 0⟩)), .call () .finish]

theorem workq_wakeups_alone :
    ((workqExec (workqSysNew (fun _ => 0)) workqFinishAlone).get (by decide)).2.q.pending ≠ [] ∨
      ((workqExec (workqSysNew (fun _ => 0)) workqFinishAlone).get (by decide)).2.q.active ≠ [] :=
  (workq_wakeups
    ((WorkqReach.play (fun _ => 0) workqFinishAlone (by decide)).restrict _ fun tr s l s' hr _ => by
      cases l.1 with
      | call c op => exact fun c' hne => absurd rfl hne
      | resume c =>
        exact ⟨(WorkqReach.sparing hr).kept.live c, fun c' hne => absurd rfl hne⟩
      | _ => trivial)).2.1 () (by decide)

/-- One client sleeps in cc_workq_finish while another cancels the last task. -/
def workqCancelLast : List (WorkqMove 1 Bool Nat) :=
  [.call false (.run 1 0 (.success ⟨0, 0⟩)), .call false .finish, .call true (.cancel 1 false)]

/-- The sleeper is not signalled, and there is no task left. -/
theorem workq_wakeup_lost :
    ¬ ∀ (tr : List (WorkqLabel 1 Bool Nat)) (s : WorkqSys 1 Bool Nat),
      WorkqReach (fun _ => 0) tr s → ∀ c, s.client c = .finishAsleep false →
        s.q.pending ≠ [] ∨ s.q.active ≠ [] := by
  intro h
  have hr := WorkqReach.play (fun _ => 0) workqCancelLast (by decide)
  exact absurd (h _ _ hr false (by decide)) (by decide)

end LibCC
