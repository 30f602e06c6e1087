import LibCC.JobqHistory

/-! When the threads of a jobq sleep. cc_jobq_run does not wake the workers of
a paused jobq; cc_jobq_resume and cc_jobq_finish do it for all jobs queued
meanwhile. -/

namespace LibCC

open LabelledRun

variable {threads : Nat} {C τ : Type}

/-- A worker sleeps only while there is nothing to take, and a thread in
cc_jobq_finish only while there are jobs left. -/
structure JobqWakeInv (s : JobqSys threads C τ) : Prop where
  worker : ∀ w, s.worker w = .asleep false →
    s.q.state = .paused ∨ (s.q.state = .running ∧ s.q.pending = [])
  caller : ∀ a, s.caller a = .finishAsleep false ∨ s.caller a = .deleteAsleep false →
    s.q.pending ≠ [] ∨ s.q.active ≠ []
  fault : ∀ w, s.worker w ≠ .fault

theorem signal_ne_asleep (pc : JobqWorker τ) : pc.signal ≠ .asleep false := by
  cases pc <;> simp [JobqWorker.signal]

theorem caller_signal_ne_asleep (pc : JobqCaller) :
    ¬ (pc.signal = .finishAsleep false ∨ pc.signal = .deleteAsleep false) := by
  cases pc <;> simp [JobqCaller.signal]

section Wake

variable {s s' : JobqSys threads C τ}

/-- What a section of a caller must tell the other threads. -/
structure JobqSection.Tells (q : Jobq τ) (r : JobqSection threads τ) : Prop where
  worker : r.broadcast = false →
    (q.state = .paused ∨ (q.state = .running ∧ q.pending = [])) →
    r.q.state = .paused ∨ (r.q.state = .running ∧ r.q.pending = [])
  others : q.pending ≠ [] ∨ q.active ≠ [] → r.q.pending ≠ [] ∨ r.q.active ≠ []
  self : r.pc = .finishAsleep false ∨ r.pc = .deleteAsleep false →
    r.q.pending ≠ [] ∨ r.q.active ≠ []

theorem jobqFinishSection_tells (q : Jobq τ) (events : List (JobqEvent threads τ))
    {asleep next : JobqCaller} (hn : next ≠ .finishAsleep false ∧ next ≠ .deleteAsleep false) :
    (jobqFinishSection events asleep next (jobqFinishResume q).1
      (jobqFinishResume q).2).Tells q := by
  have hq := jobqFinishResume_queues q
  have hp : (jobqFinishResume q).2.pending = q.pending := congrArg (fun σ => σ.seq .pending) hq
  have ha : (jobqFinishResume q).2.active = q.active := congrArg (fun σ => σ.seq .active) hq
  have hs : (jobqFinishResume q).1 = false → (jobqFinishResume q).2.state = q.state := by
    unfold jobqFinishResume
    split_ifs <;> simp
  rcases @jobqFinishSection_cases threads _ events asleep next (jobqFinishResume q).1
    (jobqFinishResume q).2 with ⟨he, hb⟩ | ⟨he, -⟩
  · rw [he]
    refine ⟨fun hf hw => ?_, fun _ => hb, fun _ => hb⟩
    rwa [hs hf, hp]
  · rw [he]
    refine ⟨fun hf hw => ?_, fun ho => ?_, fun hpc => absurd hpc (not_or.mpr hn)⟩
    · rwa [hs hf, hp]
    · rwa [hp, ha]

theorem jobqCallSection_tells {q : Jobq τ} {call : JobqCall τ} {r : JobqSection threads τ}
    (h : jobqCallSection q call = some r) : r.Tells q := by
  cases call with
  | run task alloc =>
    simp only [jobqCallSection, Option.ite_none_right_eq_some, Option.some.injEq] at h
    obtain ⟨-, rfl⟩ := h
    cases alloc with
    | none => exact ⟨fun _ hw => hw, id, by simp⟩
    | some iter =>
      refine ⟨fun hb hw => ?_, fun _ => .inl ?_, by simp⟩
      · rcases hw with hw | ⟨hw, -⟩
        · exact .inl hw
        · simp [jobqRun, hw] at hb
      · simp [jobqRun, Jobq.pending, ListSeqs.append]
  | pause =>
    obtain rfl := Option.some.inj h
    exact ⟨fun _ _ => .inl rfl, id, by simp⟩
  | resume =>
    obtain rfl := Option.some.inj h
    exact ⟨by simp, id, by simp⟩
  | finish =>
    obtain rfl := Option.some.inj h
    exact jobqFinishSection_tells q _ (by simp)
  | pending =>
    obtain rfl := Option.some.inj h
    exact ⟨fun _ hw => hw, id, by simp⟩
  | delete =>
    obtain rfl := Option.some.inj h
    exact jobqFinishSection_tells q _ (by simp)

theorem JobqResumeStep.tells {q : Jobq τ} {pc : JobqCaller} {r : JobqSection threads τ}
    (h : JobqResumeStep q pc r) : r.Tells q := by
  cases h with
  | finishWaits hb | deleteWaits hb => exact ⟨fun _ hw => hw, id, fun _ => hb⟩
  | finishes | deleteGoesOn | joins | deletes => exact ⟨fun _ hw => hw, id, by simp⟩
  | stops => exact ⟨by simp, id, by simp⟩

theorem JobqWakeInv.section_ [DecidableEq C] (h : JobqWakeInv s) {a : JobqAgent threads C}
    {r : JobqSection threads τ} (hr : r.Tells s.q) : JobqWakeInv (s.section_ a r) := by
  refine ⟨fun w hw => ?_, fun b hb => ?_, fun w hw => ?_⟩
  · cases hbr : r.broadcast with
    | true =>
      simp only [JobqSys.section_, hbr, if_true] at hw
      exact absurd hw (signal_ne_asleep _)
    | false =>
      simp only [JobqSys.section_, hbr] at hw
      exact hr.worker hbr (h.worker w hw)
  · by_cases he : b = a
    · subst he
      exact hr.self (by simpa [JobqSys.section_] using hb)
    · exact hr.others (h.caller b (by simpa [JobqSys.section_, he] using hb))
  · simp only [JobqSys.section_] at hw
    split_ifs at hw
    · have hf := h.fault w
      cases hpc : s.worker w <;> simp [hpc, JobqWorker.signal] at hw hf
    · exact h.fault w hw

theorem JobqWakeInv.setWorker (h : JobqWakeInv s) {w : Fin threads} {pc : JobqWorker τ}
    (ha : pc = .asleep false → s.q.state = .paused ∨ (s.q.state = .running ∧ s.q.pending = []))
    (hf : pc ≠ .fault) : JobqWakeInv (s.setWorker w pc) := by
  refine ⟨fun w' hw => ?_, h.caller, fun w' hw => ?_⟩
  · by_cases hne : w' = w
    · subst hne
      exact ha (by simpa [JobqSys.setWorker] using hw)
    · exact h.worker w' (by simpa [JobqSys.setWorker, hne] using hw)
  · by_cases hne : w' = w
    · subst hne
      exact absurd (by simpa [JobqSys.setWorker] using hw) hf
    · exact h.fault w' (by simpa [JobqSys.setWorker, hne] using hw)

theorem JobqWakeInv.thread (h : JobqWakeInv s) (w : Fin threads) : JobqWakeInv (s.thread w).2 := by
  rcases jobqThreadSection_cases w s.q with ⟨he, hs⟩ | ⟨he, -⟩ | ⟨iter, rest, hp, hrun, he⟩
  · have ht : (s.thread w).2 = s.setWorker w (.asleep false) := by
      simp only [JobqSys.thread, he, JobqSys.setWorker]
    rw [ht]
    exact h.setWorker (fun _ => hs) (by simp)
  · have ht : (s.thread w).2 = s.setWorker w .exited := by
      simp only [JobqSys.thread, he, JobqSys.setWorker]
    rw [ht]
    exact h.setWorker (by simp) (by simp)
  · have hother : ∀ w', w' ≠ w → ((s.thread w).2.worker w') = s.worker w' := by
      intro w' hne
      simp [JobqSys.thread, hne]
    have hnone : ∀ w', s.worker w' ≠ .asleep false := by
      intro w' hw
      rcases h.worker w' hw with hs | ⟨-, hs⟩
      · rw [hrun] at hs
        exact absurd hs (by simp)
      · rw [hp] at hs
        exact absurd hs (by simp)
    refine ⟨fun w' hw => ?_, fun _ _ => .inr ?_, fun w' hw => ?_⟩
    · by_cases hne : w' = w
      · subst hne
        simp [JobqSys.thread, he] at hw
      · rw [hother w' hne] at hw
        exact absurd hw (hnone w')
    · simp [JobqSys.thread, he, jobqTake, Jobq.active, ListSeqs.swapn, ListSeqs.remove]
    · by_cases hne : w' = w
      · subst hne
        simp [JobqSys.thread, he] at hw
      · rw [hother w' hne] at hw
        exact h.fault w' hw

theorem JobqWakeInv.complete (h : JobqWakeInv s) (w : Fin threads) (iter : IterPtr) :
    JobqWakeInv (s.complete w iter) := by
  refine ⟨fun w' hw => ?_, fun a ha => ?_, fun w' hw => ?_⟩
  · by_cases hne : w' = w
    · subst hne
      simp [JobqSys.complete] at hw
    · have hh := h.worker w' (by simpa [JobqSys.complete, hne] using hw)
      simpa [JobqSys.complete, jobqComplete, Jobq.pending, ListSeqs.remove] using hh
  · cases hb : (jobqComplete iter s.q).1 with
    | true =>
      simp only [JobqSys.complete, hb, if_true] at ha
      exact absurd ha (caller_signal_ne_asleep _)
    | false =>
      exact not_and_or.mp (of_decide_eq_false hb)
  · by_cases hne : w' = w
    · subst hne
      simp [JobqSys.complete] at hw
    · exact h.fault w' (by simpa [JobqSys.complete, hne] using hw)

theorem JobqWakeInv.step [DecidableEq C] (h : JobqWakeInv s) {l : JobqLabel threads C τ}
    (hs : JobqMoves s l s') : JobqWakeInv s' := by
  cases hs with
  | call _ _ hr => exact h.section_ (jobqCallSection_tells hr)
  | resume hr => exact h.section_ hr.tells
  | wakeCaller a =>
    refine ⟨h.worker, fun b hb => ?_, h.fault⟩
    by_cases he : b = a
    · subst he
      exact absurd (by simpa [JobqSys.setCaller] using hb) (caller_signal_ne_asleep (s.caller b))
    · exact h.caller b (by simpa [JobqSys.setCaller, he] using hb)
  | wakeWorker w =>
    refine h.setWorker (fun hs => absurd hs (signal_ne_asleep _)) fun hf => ?_
    have hw := h.fault w
    cases hpc : s.worker w <;> simp [hpc, JobqWorker.signal] at hf hw
  | work _ => exact h.thread _
  | completes _ => exact (h.complete _ _).thread _
  | begins | ends => exact h.setWorker (by simp) (by simp)

theorem JobqReach.wakeInv [DecidableEq C] {data : IterPtr → τ} {tr : List (JobqLabel threads C τ)}
    (h : JobqReach data tr s) : JobqWakeInv s :=
  Run.invariant (P := fun _ s => JobqWakeInv s)
    ⟨by simp [jobqSysNew], by simp [jobqSysNew], by simp [jobqSysNew]⟩
    (fun _ _ _ _ _ h hs => h.step hs.1.moves) h

theorem JobqMoves.taken [DecidableEq C] {l : JobqLabel threads C τ} (hs : JobqMoves s l s')
    {w : Fin threads} {task : τ} (ht : .taken w task ∈ l.2) :
    s.q.state = .running ∧ ∃ iter rest, s.q.pending = iter :: rest ∧ s.q.task iter = task := by
  have hthread : ∀ (s : JobqSys threads C τ) (w' : Fin threads), .taken w task ∈ (s.thread w').1 →
      s.q.state = .running ∧ ∃ iter rest, s.q.pending = iter :: rest ∧ s.q.task iter = task := by
    intro s w' hm
    rcases jobqThreadSection_cases w' s.q with ⟨he, -⟩ | ⟨he, -⟩ | ⟨iter, rest, hp, hrun, he⟩
    · simp [JobqSys.thread, he] at hm
    · simp [JobqSys.thread, he] at hm
    · simp only [JobqSys.thread, he, List.mem_singleton, JobqEvent.taken.injEq] at hm
      exact ⟨hrun, iter, rest, hp, hm.2.symm⟩
  cases hs with
  | call _ _ hr =>
    cases jobqCallSection_does hr with
    | accepts _ _ _ _ he _ => simp [he] at ht
    | keeps _ he => exact absurd (he _ ht) (by simp [JobqEvent.quiet])
  | resume hr =>
    cases hr.does with
    | accepts _ _ _ _ he _ => simp [he] at ht
    | keeps _ he => exact absurd (he _ ht) (by simp [JobqEvent.quiet])
  | wakeCaller | wakeWorker => exact absurd ht List.not_mem_nil
  | work _ => exact hthread s _ ht
  | @completes w' iter t _ =>
    rcases List.mem_cons.mp ht with he | ht
    · exact absurd he (by simp)
    · have hh := hthread _ _ ht
      simpa [JobqSys.complete, jobqComplete, Jobq.pending, Jobq.task, ListSeqs.remove] using hh
  | begins | ends => simp at ht

end Wake

/-- A job is taken only from a jobq that runs and has a pending job, and every
thread that sleeps unsignalled has something to wait for. -/
theorem jobq_pause_and_wakeups [DecidableEq C] {data : IterPtr → τ}
    {tr : List (JobqLabel threads C τ)} {s : JobqSys threads C τ} (h : JobqReach data tr s) :
    (∀ l s' w task, JobqStep s l s' → .taken w task ∈ l.2 → s.q.state = .running ∧
      ∃ iter rest, s.q.pending = iter :: rest ∧ s.q.task iter = task) ∧
    (∀ w, s.worker w ≠ .fault) ∧
    (∀ w, s.worker w = .asleep false →
      s.q.state = .paused ∨ (s.q.state = .running ∧ s.q.pending = [])) ∧
    (∀ a, s.caller a = .finishAsleep false → s.q.pending ≠ [] ∨ s.q.active ≠ []) :=
  ⟨fun _ _ _ _ hs ht => hs.moves.taken ht, h.wakeInv.fault, h.wakeInv.worker,
    fun a ha => h.wakeInv.caller a (.inl ha)⟩

/-- A worker has gone to sleep in a paused jobq that then gets a job. -/
theorem jobq_pause_and_wakeups_paused :
    ∃ s : JobqSys 1 Unit Nat, s.worker 0 = .asleep false ∧ s.q.pending ≠ [] ∧
      (s.q.state = .paused ∨ (s.q.state = .running ∧ s.q.pending = [])) := by
  have h : ∃ s : JobqSys 1 Unit Nat, JobqReach (fun _ => 0)
      [(.call (.client ()) (.run 7 (some ⟨0, 0⟩)), [.accepted 7]),
        (.work 0, []), (.call (.client ()) .pause, [])] s ∧
      s.worker 0 = .asleep false ∧ s.q.pending ≠ [] :=
    ⟨_, .snoc (.snoc (.snoc .nil ⟨rfl, fun _ => rfl⟩) ⟨rfl, trivial⟩) ⟨rfl, fun _ => rfl⟩, rfl,
      by simp [JobqSys.section_, jobqRun, Jobq.pending, ListSeqs.append]⟩
  obtain ⟨s, hs, hw, hp⟩ := h
  exact ⟨s, hw, hp, (jobq_pause_and_wakeups hs).2.2.1 0 hw⟩

end LibCC
