import LibCC.JobqEffort

/-! A jobq never comes to a standstill by itself: left alone its threads stop
after boundedly many steps, with all jobs completed and all calls returned,
unless it is paused or a job waits in cc_jobq_finish for itself. -/

namespace LibCC

open LabelledRun

variable {threads : Nat} {C τ : Type}

/-- cc_jobq_delete has stopped the workers. -/
def JobqCaller.stopped : JobqCaller → Bool
  | deleteJoin | deleteLists | deleted => true
  | _ => false

@[simp] theorem stopped_signal (pc : JobqCaller) : pc.signal.stopped = pc.stopped := by
  cases pc <;> rfl

theorem JobqCaller.drained_of_stopped {pc : JobqCaller} (h : pc.stopped = true) :
    pc.drained = true := by
  cases pc <;> simp only [stopped, Bool.false_eq_true] at h
  all_goals rfl

/-- The state is CC_JOBQ_STATE_STOP from cc_jobq_delete on, and only then do workers exit. -/
structure JobqStopInv (s : JobqSys threads C τ) : Prop where
  state : s.q.state = .stop ↔ ∃ c, (s.caller (.client c)).stopped = true
  exited : ∀ w, s.worker w = .exited → s.q.state = .stop

section Stop

variable {s s' : JobqSys threads C τ}

theorem JobqStopInv.keep (h : JobqStopInv s) (hq : s'.q.state = s.q.state)
    (hc : ∀ c, (s'.caller (.client c)).stopped = (s.caller (.client c)).stopped)
    (hw : ∀ w, s'.worker w = .exited → s.worker w = .exited ∨ s.q.state = .stop) :
    JobqStopInv s' := by
  refine ⟨?_, fun w hx => ?_⟩
  · rw [hq, h.state]
    simp only [hc]
  · rw [hq]
    rcases hw w hx with hx | hx
    · exact h.exited w hx
    · exact hx

theorem JobqStopInv.thread (h : JobqStopInv s) (w : Fin threads) : JobqStopInv (s.thread w).2 := by
  have hstate : (s.thread w).2.q.state = s.q.state := by
    rcases jobqThreadSection_cases w s.q with ⟨he, -⟩ | ⟨he, -⟩ | ⟨iter, rest, -, -, he⟩
    all_goals
      simp only [JobqSys.thread, he]
      try rfl
  refine h.keep hstate (fun c => rfl) fun w' hx => ?_
  by_cases hw : w' = w
  · subst hw
    have hx' : (jobqThreadSection w' s.q).2.1 = .exited := by
      simpa [JobqSys.thread] using hx
    rcases jobqThreadSection_cases w' s.q with ⟨he, -⟩ | ⟨he, hs⟩ | ⟨iter, rest, -, -, he⟩
    · rw [he] at hx'
      exact absurd hx' (by simp)
    · exact .inr hs
    · rw [he] at hx'
      exact absurd hx' (by simp)
  · exact .inl (by simpa [JobqSys.thread, hw] using hx)

theorem JobqStopInv.setWorker (h : JobqStopInv s) {w : Fin threads} {pc : JobqWorker τ}
    (hp : pc = .exited → s.worker w = .exited) : JobqStopInv (s.setWorker w pc) := by
  refine h.keep rfl (fun c => rfl) fun w' hx => .inl ?_
  by_cases he : w' = w
  · subst he
    exact hp (by simpa [JobqSys.setWorker] using hx)
  · simpa [JobqSys.setWorker, he] using hx

@[simp] theorem signal_eq_exited (pc : JobqWorker τ) : pc.signal = .exited ↔ pc = .exited := by
  cases pc <;> simp [JobqWorker.signal]

/-- A call never stops the workers of a jobq that runs or is paused. -/
theorem jobqCallSection_stop {q : Jobq τ} {call : JobqCall τ} {r : JobqSection threads τ}
    (h : jobqCallSection q call = some r) (hq : q.state ≠ .stop) :
    r.q.state ≠ .stop ∧ r.pc.stopped = false := by
  have hfinish : (jobqFinishResume q).2.state ≠ .stop := by
    unfold jobqFinishResume
    split_ifs
    · simp
    · exact hq
  cases call with
  | run task alloc =>
    simp only [jobqCallSection, Option.ite_none_right_eq_some, Option.some.injEq] at h
    obtain ⟨-, rfl⟩ := h
    cases alloc with
    | none => exact ⟨hq, rfl⟩
    | some iter => exact ⟨hq, rfl⟩
  | pause | resume =>
    obtain rfl := Option.some.inj h
    exact ⟨by simp [jobqPause, jobqResume], rfl⟩
  | pending =>
    obtain rfl := Option.some.inj h
    exact ⟨hq, rfl⟩
  | finish =>
    obtain rfl := Option.some.inj h
    rcases @jobqFinishSection_cases threads _ [.finished] (.finishAsleep false) .idle
      (jobqFinishResume q).1 (jobqFinishResume q).2 with ⟨he, -⟩ | ⟨he, -⟩
    · rw [he]; exact ⟨hfinish, rfl⟩
    · rw [he]; exact ⟨hfinish, rfl⟩
  | delete =>
    obtain rfl := Option.some.inj h
    rcases @jobqFinishSection_cases threads _ [] (.deleteAsleep false) .deleteStop
      (jobqFinishResume q).1 (jobqFinishResume q).2 with ⟨he, -⟩ | ⟨he, -⟩
    · rw [he]; exact ⟨hfinish, rfl⟩
    · rw [he]; exact ⟨hfinish, rfl⟩

variable [DecidableEq C]

theorem section_exited {a : JobqAgent threads C} {r : JobqSection threads τ} {w : Fin threads}
    (hx : (s.section_ a r).worker w = .exited) : s.worker w = .exited := by
  simp only [JobqSys.section_] at hx
  split_ifs at hx
  · exact (signal_eq_exited _).mp hx
  · exact hx

theorem JobqStopInv.call (h : JobqStopInv s) {a : JobqAgent threads C} {call : JobqCall τ}
    {r : JobqSection threads τ} (hr : jobqCallSection s.q call = some r)
    (hnone : ∀ c, (s.caller (.client c)).stopped = false) : JobqStopInv (s.section_ a r) := by
  have hrun : s.q.state ≠ .stop := by
    rw [Ne, h.state]
    simp [hnone]
  obtain ⟨hq, hpc⟩ := jobqCallSection_stop hr hrun
  have hq' : (s.section_ a r).q.state ≠ .stop := hq
  refine ⟨⟨fun hs => absurd hs hq', ?_⟩, fun w hx => absurd (h.exited w (section_exited hx)) hrun⟩
  rintro ⟨c, hc⟩
  by_cases he : JobqAgent.client c = a
  · subst he
    simp [JobqSys.section_, hpc] at hc
  · simp [JobqSys.section_, he, hnone] at hc

/-- No client that calls the jobq finds it stopped. -/
theorem JobqDeleteInv.not_stopped (h : JobqDeleteInv s) {events : List (JobqEvent threads τ)}
    {jobs : List (Fin threads × IterPtr)} (hl : JobqLog events jobs s) {a : JobqAgent threads C}
    {call : JobqCall τ} (hi : s.caller a = .idle) (ha : s.calls a = true)
    (hc : s.Contract (.call a call)) (c : C) : (s.caller (.client c)).stopped = false := by
  by_contra hstop
  have hdrained := JobqCaller.drained_of_stopped (by simpa using hstop)
  cases a with
  | job w =>
    have hw : (s.worker w).holds ≠ none := by
      simp only [JobqSys.calls] at ha
      split at ha
      · next hw => simp [hw, JobqWorker.holds]
      · exact absurd ha (by simp)
    rw [h.not_drained hl hw c] at hdrained
    exact absurd hdrained (by simp)
  | client c' =>
    by_cases hd : call = .delete
    · subst hd
      have hidle : s.caller (.client c) = .idle := by
        by_cases he : c = c'
        · exact he ▸ hi
        · exact hc c he
      rw [hidle] at hstop
      exact hstop rfl
    · have hdel : (s.caller (.client c)).deleting = false := by
        cases call <;> first | exact absurd rfl hd | exact hc c
      rw [JobqCaller.deleting_of_drained hdrained] at hdel
      exact absurd hdel (by simp)

theorem JobqStopInv.resume (h : JobqStopInv s) (hd : JobqDeleteInv s) {a : JobqAgent threads C}
    {r : JobqSection threads τ} (hr : JobqResumeStep s.q (s.caller a) r) :
    JobqStopInv (s.section_ a r) := by
  obtain ⟨pc, hpc⟩ : ∃ pc, pc = s.caller a := ⟨_, rfl⟩
  rw [← hpc] at hr
  have hkeep : r.q.state = s.q.state → r.pc.stopped = pc.stopped →
      JobqStopInv (s.section_ a r) := by
    intro hq hstop
    refine h.keep hq (fun c => ?_) fun w hx => .inl (section_exited hx)
    by_cases he : JobqAgent.client c = a
    · subst he
      simp [JobqSys.section_, hstop, hpc]
    · simp [JobqSys.section_, he]
  cases hr with
  | finishWaits | finishes | deleteWaits | deleteGoesOn | joins | deletes => exact hkeep rfl rfl
  | stops =>
    cases a with
    | job w =>
      have hj := hd.job w
      rw [← hpc] at hj
      exact absurd hj (by simp [JobqCaller.deleting])
    | client c =>
      exact ⟨⟨fun _ => ⟨c, by simp [JobqSys.section_, JobqCaller.stopped]⟩, fun _ => rfl⟩,
        fun w _ => rfl⟩

theorem JobqStopInv.step (h : JobqStopInv s) (hd : JobqDeleteInv s)
    {events : List (JobqEvent threads τ)} {jobs : List (Fin threads × IterPtr)}
    (hl : JobqLog events jobs s) {l : JobqLabel threads C τ} (hs : JobqMoves s l s')
    (hc : s.Contract l.1) : JobqStopInv s' := by
  cases hs with
  | call hi ha hr => exact h.call hr (hd.not_stopped hl hi ha hc)
  | resume hr => exact h.resume hd hr
  | wakeCaller a =>
    refine h.keep rfl (fun c => ?_) fun w hx => .inl hx
    by_cases he : JobqAgent.client c = a
    · subst he
      simp [JobqSys.setCaller]
    · simp [JobqSys.setCaller, he]
  | wakeWorker w => exact h.setWorker (signal_eq_exited _).mp
  | work _ => exact h.thread _
  | @completes w iter task _ =>
    have hcomplete : JobqStopInv (s.complete w iter) := by
      refine h.keep rfl (fun c => ?_) fun w' hx => .inl ?_
      · simp only [JobqSys.complete]
        split_ifs <;> simp
      · by_cases he : w' = w
        · subst he
          simp [JobqSys.complete] at hx
        · simpa [JobqSys.complete, he] using hx
    exact hcomplete.thread w
  | begins | ends => exact h.setWorker fun hx => absurd hx (by simp)

theorem JobqReach.stopInv {data : IterPtr → τ} {tr : List (JobqLabel threads C τ)}
    (h : JobqReach data tr s) : JobqStopInv s := by
  induction h with
  | nil => exact ⟨by simp [jobqSysNew, jobqNew, JobqCaller.stopped], by simp [jobqSysNew]⟩
  | snoc hr hs ih =>
    obtain ⟨jobs, hl⟩ := JobqReach.log hr
    exact ih.step (JobqReach.deleteInv hr) hl hs.1.moves hs.2

end Stop

section Final

variable [DecidableEq C] {data : IterPtr → τ} {tr more : List (JobqLabel threads C τ)}
  {s s' : JobqSys threads C τ}

theorem jobq_final_step (hf : Final JobqInternal s) {m : JobqMove threads C τ}
    (hm : m.internal = true) : s.step m = none := by
  rw [Option.eq_none_iff_forall_not_mem]
  rintro ⟨shown, s'⟩ hs
  exact hf (m, shown) s' ⟨hs, hm⟩

/-- A worker that cannot go on sleeps or has left, or its job waits in a call. -/
theorem jobq_final_worker (hf : Final JobqInternal s) {w : Fin threads}
    (hidle : s.caller (.job w) = .idle) (hfault : s.worker w ≠ .fault) :
    s.worker w = .asleep false ∨ s.worker w = .exited := by
  have hwork := jobq_final_step hf (m := .work w) rfl
  have hbegin := jobq_final_step hf (m := .begin w) rfl
  have hfinish := jobq_final_step hf (m := .finish w) rfl
  cases hw : s.worker w with
  | start => simp [JobqSys.step, hw] at hwork
  | asleep awake =>
    cases awake with
    | false => exact .inl rfl
    | true => simp [JobqSys.step, hw] at hwork
  | taken iter task => simp [JobqSys.step, hw] at hbegin
  | running iter task => simp [JobqSys.step, hw, hidle] at hfinish
  | returned iter task => simp [JobqSys.step, hw] at hwork
  | exited => exact .inr rfl
  | fault => exact absurd hw hfault

/-- A call that cannot go on waits for a signal or for the workers to exit. -/
theorem jobq_final_caller (hf : Final JobqInternal s) (a : JobqAgent threads C) :
    s.caller a = .idle ∨ s.caller a = .deleted ∨ s.caller a = .finishAsleep false ∨
      s.caller a = .deleteAsleep false ∨
      (s.caller a = .deleteJoin ∧ ¬ ∀ w, s.worker w = .exited) := by
  have hresume := jobq_final_step hf (m := .resume a) rfl
  cases ha : s.caller a with
  | idle => simp
  | deleted => simp
  | finishAsleep awake =>
    cases awake with
    | false => simp
    | true => simp [JobqSys.step, ha, jobqResumeSection] at hresume
  | deleteAsleep awake =>
    cases awake with
    | false => simp
    | true => simp [JobqSys.step, ha, jobqResumeSection] at hresume
  | deleteStop => simp [JobqSys.step, ha, jobqResumeSection] at hresume
  | deleteLists => simp [JobqSys.step, ha, jobqResumeSection] at hresume
  | deleteJoin =>
    refine .inr (.inr (.inr (.inr ⟨rfl, fun hall => ?_⟩)))
    simp [JobqSys.step, ha, jobqResumeSection, hall] at hresume

omit [DecidableEq C] in
theorem JobqLog.active_nil {events : List (JobqEvent threads τ)}
    {jobs : List (Fin threads × IterPtr)} (h : JobqLog events jobs s)
    (hw : ∀ w, (s.worker w).holds = none) : s.q.active = [] := by
  rw [h.active, List.map_eq_nil_iff, List.eq_nil_iff_forall_not_mem]
  rintro ⟨w, iter⟩ hj
  have hh := (h.holds w iter).mp hj
  rw [hw w] at hh
  exact absurd hh (by simp)

/-- Nothing is left to do, and nobody waits. -/
def JobqSys.Settled (s : JobqSys threads C τ) : Prop :=
  s.q.pending = [] ∧ s.q.active = [] ∧ ∀ a, s.caller a = .idle ∨ s.caller a = .deleted

/-- Where the threads come to a standstill. -/
theorem JobqReach.final_cases (h : JobqReach data tr s) (hthreads : 0 < threads)
    (hf : Final JobqInternal s) : (∃ w, s.caller (.job w) = .finishAsleep false) ∨
      (s.q.state = .paused ∧ s.q.pending ≠ []) ∨ s.Settled := by
  have hwake := JobqReach.wakeInv h
  have hdelete := JobqReach.deleteInv h
  have hstop := JobqReach.stopInv h
  obtain ⟨jobs, hlog⟩ := JobqReach.log h
  by_cases hself : ∃ w, s.caller (.job w) = .finishAsleep false
  · exact .inl hself
  have hjob : ∀ w, s.caller (.job w) = .idle := by
    intro w
    have hdel := hdelete.job w
    rcases jobq_final_caller hf (.job w) with hc | hc | hc | hc | ⟨hc, -⟩
    · exact hc
    · exact absurd hdel (by simp [hc, JobqCaller.deleting])
    · exact absurd ⟨w, hc⟩ hself
    · exact absurd hdel (by simp [hc, JobqCaller.deleting])
    · exact absurd hdel (by simp [hc, JobqCaller.deleting])
  have hworker : ∀ w, s.worker w = .asleep false ∨ s.worker w = .exited :=
    fun w => jobq_final_worker hf (hjob w) (hwake.fault w)
  have hactive : s.q.active = [] := by
    apply hlog.active_nil
    intro w
    rcases hworker w with hw | hw <;> simp [hw, JobqWorker.holds]
  refine .inr ?_
  by_cases hpend : s.q.pending = []
  · refine .inr ⟨hpend, hactive, fun a => ?_⟩
    have hnobody : ¬ (s.caller a = .finishAsleep false ∨ s.caller a = .deleteAsleep false) := by
      intro ha
      rcases hwake.caller a ha with hne | hne
      · exact hne hpend
      · exact hne hactive
    rcases jobq_final_caller hf a with hc | hc | hc | hc | ⟨hc, hexit⟩
    · exact .inl hc
    · exact .inr hc
    · exact absurd (.inl hc) hnobody
    · exact absurd (.inr hc) hnobody
    · cases a with
      | job w => exact .inl (hjob w)
      | client c =>
        have hstate : s.q.state = .stop := hstop.state.mpr ⟨c, by simp [hc, JobqCaller.stopped]⟩
        refine absurd (fun w => ?_) hexit
        rcases hworker w with hw | hw
        · rcases hwake.worker w hw with hs | ⟨hs, -⟩
          · exact absurd (hs.symm.trans hstate) (by simp)
          · exact absurd (hs.symm.trans hstate) (by simp)
        · exact hw
  · refine .inl ⟨?_, hpend⟩
    rcases hworker ⟨0, hthreads⟩ with hw | hw
    · rcases hwake.worker _ hw with hs | ⟨-, hp⟩
      · exact hs
      · exact absurd hp hpend
    · obtain ⟨c, hc⟩ := hstop.state.mp (hstop.exited _ hw)
      exact absurd (hdelete.drained c (JobqCaller.drained_of_stopped hc)).1 hpend

theorem JobqReach.internal (h : JobqReach data tr s) (hr : Run JobqInternal s more s') :
    JobqReach data (more ++ tr) s' := by
  refine Run.append h (hr.mono fun s l s' hs => ⟨hs.1, ?_⟩)
  obtain ⟨m, shown⟩ := l
  cases m with
  | call | wakeCaller | wakeWorker => exact absurd hs.2 (by simp [JobqMove.internal])
  | resume | work | begin | finish => trivial

/-- No job is in a call and the jobq is not paused. -/
def JobqSys.Undisturbed (s : JobqSys threads C τ) : Prop :=
  (∀ w, s.caller (.job w) = .idle) ∧ s.q.state ≠ .paused

omit [DecidableEq C] in
theorem JobqSys.Undisturbed.thread (h : s.Undisturbed) (w : Fin threads) :
    (s.thread w).2.Undisturbed := by
  refine ⟨h.1, ?_⟩
  rcases jobqThreadSection_cases w s.q with ⟨he, -⟩ | ⟨he, -⟩ | ⟨iter, rest, -, -, he⟩
  all_goals
    simp only [JobqSys.thread, he]
    exact h.2

theorem JobqMoves.undisturbed {l : JobqLabel threads C τ} (hs : JobqMoves s l s')
    (hi : l.1.internal = true) (h : s.Undisturbed) : s'.Undisturbed := by
  cases hs with
  | call | wakeCaller | wakeWorker => exact absurd hi (by simp [JobqMove.internal])
  | @resume a r hr =>
    obtain ⟨pc, hpc⟩ : ∃ pc, pc = s.caller a := ⟨_, rfl⟩
    rw [← hpc] at hr
    have hstate : r.q.state ≠ .paused := by
      cases hr with
      | stops => simp
      | _ => exact h.2
    refine ⟨fun w => ?_, hstate⟩
    have hne : JobqAgent.job w ≠ a := by
      rintro rfl
      rw [h.1 w] at hpc
      subst hpc
      cases hr
    simpa [JobqSys.section_, hne] using h.1 w
  | work _ => exact h.thread _
  | @completes w iter task _ =>
    refine JobqSys.Undisturbed.thread (s := s.complete w iter) ⟨fun w' => ?_, h.2⟩ w
    simp only [JobqSys.complete]
    split_ifs <;> simp [h.1 w']
  | begins | ends => exact h

/-- Left alone the threads of a jobq stop after boundedly many steps. Then every accepted job is
completed and every call has returned, unless the jobq is paused with jobs pending, or a job waits
in cc_jobq_finish. From a jobq that is not paused and has no job in a call they always get there. -/
theorem jobq_progress [Fintype C] (hthreads : 0 < threads) (h : JobqReach data tr s) :
    (∃ n, ∀ more s', Run JobqInternal s more s' → more.length ≤ n) ∧
    (∃ more s', Run JobqInternal s more s' ∧ Final JobqInternal s') ∧
    (∀ more s', Run JobqInternal s more s' → Final JobqInternal s' →
      (∃ w, s'.caller (.job w) = .finishAsleep false) ∨
      (s'.q.state = .paused ∧ s'.q.pending ≠ []) ∨
      (s'.Settled ∧ AllCompleted (jobqHistory (more ++ tr)))) ∧
    (s.Undisturbed → ∀ more s', Run JobqInternal s more s' → Final JobqInternal s' →
      s'.Settled ∧ AllCompleted (jobqHistory (more ++ tr))) := by
  have hcases : ∀ more s', Run JobqInternal s more s' → Final JobqInternal s' →
      (∃ w, s'.caller (.job w) = .finishAsleep false) ∨
      (s'.q.state = .paused ∧ s'.q.pending ≠ []) ∨
      (s'.Settled ∧ AllCompleted (jobqHistory (more ++ tr))) := by
    intro more s' hr hf
    have hreach := JobqReach.internal h hr
    rcases JobqReach.final_cases hreach hthreads hf with hself | hpaused | hsettled
    · exact .inl hself
    · exact .inr (.inl hpaused)
    · obtain ⟨jobs, hlog⟩ := JobqReach.log hreach
      exact .inr (.inr ⟨hsettled, hlog.allCompleted hsettled.1 hsettled.2.1⟩)
  refine ⟨⟨s.effort, fun more s' hr => ?_⟩, ?_, hcases, fun hu more s' hr hf => ?_⟩
  · have := (hr.lowers jobqInternal_lowers trivial).2
    omega
  · obtain ⟨more, s', hr, -, hf⟩ := exists_final s jobqInternal_lowers trivial
    exact ⟨more, s', hr, hf⟩
  · have hu' : s'.Undisturbed := Run.invariant (P := fun _ s => s.Undisturbed) hu
      (fun _ _ _ _ _ hu hs => hs.1.moves.undisturbed hs.2 hu) hr
    rcases hcases more s' hr hf with ⟨w, hw⟩ | ⟨hpaused, -⟩ | hdone
    · exact absurd (hw.symm.trans (hu'.1 w)) (by simp)
    · exact absurd hpaused hu'.2
    · exact hdone

/-- One thread submits a job and waits for it. -/
theorem jobq_progress_finish : ∃ (s : JobqSys 1 Unit Nat) (tr more : List (JobqLabel 1 Unit Nat))
    (s' : JobqSys 1 Unit Nat), JobqReach (fun _ => 0) tr s ∧
      s.caller (.client ()) = .finishAsleep false ∧ Run JobqInternal s more s' ∧ s'.Settled ∧
      AllCompleted (jobqHistory (more ++ tr)) := by
  have h : ∃ s : JobqSys 1 Unit Nat, JobqReach (fun _ => 0)
      [(.call (.client ()) .finish, []),
        (.call (.client ()) (.run 7 (some ⟨0, 0⟩)), [.accepted 7])] s ∧
      s.caller (.client ()) = .finishAsleep false ∧ s.Undisturbed :=
    ⟨_, .snoc (.snoc .nil ⟨rfl, fun _ => rfl⟩) ⟨rfl, fun _ => rfl⟩, rfl, fun _ => rfl, by decide⟩
  obtain ⟨s, hreach, hasleep, hu⟩ := h
  obtain ⟨-, ⟨more, s', hr, hf⟩, -, hdone⟩ := jobq_progress (by omega) hreach
  obtain ⟨hsettled, hall⟩ := hdone hu more s' hr hf
  exact ⟨s, _, more, s', hreach, hasleep, hr, hsettled, hall⟩

end Final

end LibCC
