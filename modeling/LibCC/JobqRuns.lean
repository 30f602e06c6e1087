import LibCC.JobqHistory

/-! Every accepted job of a jobq is run once, in the order of submission, and
is completed when cc_jobq_finish or cc_jobq_delete returns. -/

namespace LibCC

open LabelledRun

variable {threads : Nat} {C τ : Type}

/-- Every accepted job has been taken, in the order of submission, and every
worker has gone through whole jobs. -/
def AllCompleted (events : List (JobqEvent threads τ)) : Prop :=
  takenJobs events = acceptedJobs events ∧ openJobs events = [] ∧
    ∀ w, ∃ done : List τ, jobStory w events = done.flatMap jobLife

theorem JobqWorker.chapter_of_holds {pc : JobqWorker τ} (h : pc.holds = none) :
    pc.chapter = [] := by
  cases pc <;> simp only [holds, reduceCtorEq] at h
  all_goals rfl

section Log

variable {s : JobqSys threads C τ} {events : List (JobqEvent threads τ)}
  {jobs : List (Fin threads × IterPtr)}

theorem JobqLog.idle (h : JobqLog events jobs s) (ha : s.q.active = []) (w : Fin threads) :
    (s.worker w).holds = none := by
  have hj : jobs = [] := List.map_eq_nil_iff.mp (h.active ▸ ha)
  rw [Option.eq_none_iff_forall_not_mem]
  rintro ⟨iter, task⟩ hh
  have ht := h.task w iter task hh
  have hm := (h.holds w iter).mpr (ht ▸ hh)
  rw [hj] at hm
  exact List.not_mem_nil hm

theorem JobqLog.allCompleted (h : JobqLog events jobs s) (hp : s.q.pending = [])
    (ha : s.q.active = []) : AllCompleted events := by
  refine ⟨?_, ?_, fun w => ?_⟩
  · have hh := h.accepted
    rwa [hp, List.map_nil, List.append_nil] at hh
  · have hj : jobs = [] := List.map_eq_nil_iff.mp (h.active ▸ ha)
    rw [h.opened, hj, List.map_nil]
  · obtain ⟨done, hd⟩ := h.story w
    rw [JobqWorker.chapter_of_holds (h.idle ha w), List.append_nil] at hd
    exact ⟨done, hd⟩

end Log

/-- cc_jobq_delete has found both queues empty. -/
def JobqCaller.drained : JobqCaller → Bool
  | deleteStop | deleteJoin | deleteLists | deleted => true
  | _ => false

@[simp] theorem deleting_signal (pc : JobqCaller) : pc.signal.deleting = pc.deleting := by
  cases pc <;> rfl

@[simp] theorem drained_signal (pc : JobqCaller) : pc.signal.drained = pc.drained := by
  cases pc <;> rfl

@[simp] theorem signal_eq_idle (pc : JobqCaller) : pc.signal = .idle ↔ pc = .idle := by
  cases pc <;> simp [JobqCaller.signal]

theorem JobqCaller.deleting_of_drained {pc : JobqCaller} (h : pc.drained = true) :
    pc.deleting = true := by
  cases pc <;> simp only [drained, Bool.false_eq_true] at h
  all_goals rfl

/-- A client that deletes the jobq is alone, and once it has found the queues
empty they stay so. -/
structure JobqDeleteInv (s : JobqSys threads C τ) : Prop where
  job : ∀ w, (s.caller (.job w)).deleting = false
  alone : ∀ c, (s.caller (.client c)).deleting = true →
    ∀ c', c' ≠ c → s.caller (.client c') = .idle
  drained : ∀ c, (s.caller (.client c)).drained = true → s.q.pending = [] ∧ s.q.active = []

section Delete

variable {s s' : JobqSys threads C τ}

theorem JobqDeleteInv.congr (h : JobqDeleteInv s)
    (hq : s.q.pending = [] → s.q.active = [] → s'.q.pending = [] ∧ s'.q.active = [])
    (hc : ∀ a, s'.caller a = s.caller a ∨ s'.caller a = (s.caller a).signal) :
    JobqDeleteInv s' := by
  have hd : ∀ a, (s'.caller a).deleting = (s.caller a).deleting := by
    intro a
    rcases hc a with he | he <;> simp [he]
  have hr : ∀ a, (s'.caller a).drained = (s.caller a).drained := by
    intro a
    rcases hc a with he | he <;> simp [he]
  have hi : ∀ a, s.caller a = .idle → s'.caller a = .idle := by
    intro a ha
    rcases hc a with he | he <;> simp [he, ha]
  refine ⟨fun w => (hd _).trans (h.job w),
    fun c hdel c' hne => hi _ (h.alone c (hd _ ▸ hdel) c' hne), fun c hdr => ?_⟩
  have hh := h.drained c (hr _ ▸ hdr)
  exact hq hh.1 hh.2

/-- The queues are as empty as before, and one caller has moved on. -/
theorem JobqDeleteInv.move [DecidableEq C] (h : JobqDeleteInv s)
    {a : JobqAgent threads C} {p : JobqCaller}
    (hc : s'.caller = Function.update s.caller a p) (hq : s'.q.queues = s.q.queues)
    (hd : p.deleting = true → (s.caller a).deleting = true)
    (hr : p.drained = true → s.q.pending = [] ∧ s.q.active = [])
    (hi : s.caller a = .idle → p = .idle) : JobqDeleteInv s' := by
  have hdel : ∀ b, (s'.caller b).deleting = true → (s.caller b).deleting = true := by
    intro b hb
    by_cases he : b = a
    · subst he
      exact hd (by simpa [hc] using hb)
    · simpa [hc, he] using hb
  refine ⟨fun w => ?_, fun c hcd c' hne => ?_, fun c hcr => ?_⟩
  · by_contra hw
    have hh := hdel _ (by simpa using hw)
    rw [h.job w] at hh
    exact absurd hh (by simp)
  · have hidle := h.alone c (hdel _ hcd) c' hne
    by_cases he : JobqAgent.client c' = a
    · subst he
      simpa [hc] using hi hidle
    · simpa [hc, he] using hidle
  · rw [Jobq.pending, Jobq.active, hq]
    by_cases he : JobqAgent.client c = a
    · subst he
      exact hr (by simpa [hc] using hcr)
    · exact h.drained c (by simpa [hc, he] using hcr)

theorem JobqDeleteInv.quiet (h : ∀ a, (s.caller a).deleting = false) : JobqDeleteInv s := by
  refine ⟨fun w => h _, fun c hc => absurd hc (by simp [h]), fun c hc => ?_⟩
  exact absurd (JobqCaller.deleting_of_drained hc) (by simp [h])

theorem jobqCallSection_deleting {q : Jobq τ} {call : JobqCall τ} {r : JobqSection threads τ}
    (h : jobqCallSection q call = some r) (hc : call ≠ .delete) : r.pc.deleting = false := by
  cases call with
  | run task alloc =>
    simp only [jobqCallSection, Option.ite_none_right_eq_some, Option.some.injEq] at h
    obtain ⟨-, rfl⟩ := h
    rfl
  | pause | resume | pending =>
    obtain rfl := Option.some.inj h
    rfl
  | finish =>
    obtain rfl := Option.some.inj h
    rcases @jobqFinishSection_cases threads _ [.finished] (.finishAsleep false) .idle
      (jobqFinishResume q).1 (jobqFinishResume q).2 with ⟨he, -⟩ | ⟨he, -⟩
    · rw [he]; rfl
    · rw [he]; rfl
  | delete => exact absurd rfl hc

/-- While a job runs, cc_jobq_delete has not found the queues empty. -/
theorem JobqDeleteInv.not_drained (h : JobqDeleteInv s) {events : List (JobqEvent threads τ)}
    {jobs : List (Fin threads × IterPtr)} (hl : JobqLog events jobs s) {w : Fin threads}
    (hw : (s.worker w).holds ≠ none) (c : C) : (s.caller (.client c)).drained = false := by
  by_contra hd
  exact hw (hl.idle (h.drained c (by simpa using hd)).2 w)

theorem JobqDeleteInv.call [DecidableEq C] (h : JobqDeleteInv s)
    {events : List (JobqEvent threads τ)} {jobs : List (Fin threads × IterPtr)}
    (hl : JobqLog events jobs s) {a : JobqAgent threads C} {call : JobqCall τ}
    (hc : s.Contract (.call a call)) (ha : s.calls a = true)
    {r : JobqSection threads τ} (hr : jobqCallSection s.q call = some r) :
    JobqDeleteInv (s.section_ a r) := by
  cases a with
  | client c =>
    by_cases hd : call = .delete
    · subst hd
      have hidle : ∀ c', c' ≠ c → s.caller (.client c') = .idle := hc
      have hother : ∀ b, b ≠ .client c → ((s.section_ (.client c) r).caller b) = s.caller b :=
        fun b hb => Function.update_of_ne hb _ _
      have hcases := @jobqFinishSection_cases threads _ [] (.deleteAsleep false) .deleteStop
        (jobqFinishResume s.q).1 (jobqFinishResume s.q).2
      have hr' := Option.some.inj hr
      rw [hr'] at hcases
      refine ⟨fun w => ?_, fun c₁ hc₁ c₂ hne => ?_, fun c₁ hc₁ => ?_⟩
      · rw [hother _ (by simp)]
        exact h.job w
      · by_cases h₁ : c₁ = c
        · subst h₁
          rw [hother _ (by simpa using hne)]
          exact hidle c₂ hne
        · rw [hother _ (by simpa using h₁), hidle c₁ h₁] at hc₁
          exact absurd hc₁ (by simp [JobqCaller.deleting])
      · by_cases h₁ : c₁ = c
        · subst h₁
          rcases hcases with ⟨rfl, -⟩ | ⟨rfl, hempty⟩
          · simp [JobqSys.section_, JobqCaller.drained] at hc₁
          · exact hempty
        · rw [hother _ (by simpa using h₁), hidle c₁ h₁] at hc₁
          exact absurd hc₁ (by simp [JobqCaller.drained])
    · have hnone : ∀ c', (s.caller (.client c')).deleting = false := by
        cases call <;> first | exact absurd rfl hd | exact hc
      refine .quiet fun b => ?_
      by_cases hb : b = .client c
      · subst hb
        simpa [JobqSys.section_] using jobqCallSection_deleting hr hd
      · cases b with
        | client c' => simpa [JobqSys.section_, hb] using hnone c'
        | job w => simpa [JobqSys.section_] using h.job w
  | job w =>
    have hd : call ≠ .delete := by
      rintro rfl
      exact hc
    have hw : (s.worker w).holds ≠ none := by
      simp only [JobqSys.calls] at ha
      split at ha
      · next hw => rw [hw]; simp [JobqWorker.holds]
      · exact absurd ha (by simp)
    refine ⟨fun w' => ?_, fun c hcd c' hne => ?_, fun c hcr => ?_⟩
    · by_cases he : w' = w
      · subst he
        simpa [JobqSys.section_] using jobqCallSection_deleting hr hd
      · simpa [JobqSys.section_, he] using h.job w'
    · have hh := h.alone c (by simpa [JobqSys.section_] using hcd) c' hne
      simpa [JobqSys.section_] using hh
    · have hh : (s.caller (.client c)).drained = true := by simpa [JobqSys.section_] using hcr
      rw [h.not_drained hl hw] at hh
      exact absurd hh (by simp)

theorem JobqDeleteInv.resume [DecidableEq C] (h : JobqDeleteInv s) {a : JobqAgent threads C}
    {r : JobqSection threads τ} (hr : JobqResumeStep s.q (s.caller a) r) :
    JobqDeleteInv (s.section_ a r) := by
  obtain ⟨pc, hpc⟩ : ∃ pc, pc = s.caller a := ⟨_, rfl⟩
  have hempty : pc.drained = true → s.q.pending = [] ∧ s.q.active = [] := by
    intro hd
    rw [hpc] at hd
    cases a with
    | client c => exact h.drained c hd
    | job w =>
      have hj := JobqCaller.deleting_of_drained hd
      rw [h.job w] at hj
      exact absurd hj (by simp)
  have hstep := hr
  rw [← hpc] at hstep
  refine h.move (a := a) (p := r.pc) rfl ?_ ?_ ?_ ?_
  · cases hstep <;> rfl
  · rw [← hpc]
    cases hstep <;> simp [JobqCaller.deleting]
  · cases hstep with
    | finishWaits | finishes | deleteWaits => simp [JobqCaller.drained]
    | deleteGoesOn hp ha => exact fun _ => ⟨hp, ha⟩
    | stops | joins | deletes => exact fun _ => hempty rfl
  · rw [← hpc]
    cases hstep <;> simp

theorem thread_empty {w : Fin threads} (hp : s.q.pending = []) : (s.thread w).2.q = s.q := by
  rcases jobqThreadSection_cases w s.q with ⟨he, -⟩ | ⟨he, -⟩ | ⟨iter, rest, hp', -⟩
  · simp only [JobqSys.thread, he]
  · simp only [JobqSys.thread, he]
  · rw [hp] at hp'
    exact absurd hp' (by simp)

theorem JobqDeleteInv.step [DecidableEq C] (h : JobqDeleteInv s)
    {events : List (JobqEvent threads τ)} {jobs : List (Fin threads × IterPtr)}
    (hl : JobqLog events jobs s) {l : JobqLabel threads C τ} (hs : JobqMoves s l s')
    (hc : s.Contract l.1) : JobqDeleteInv s' := by
  cases hs with
  | call _ ha hr => exact h.call hl hc ha hr
  | resume hr => exact h.resume hr
  | wakeCaller a =>
    refine h.congr (fun hp ha => ⟨hp, ha⟩) fun b => ?_
    by_cases he : b = a
    · subst he
      exact .inr (by simp [JobqSys.setCaller])
    · exact .inl (by simp [JobqSys.setCaller, he])
  | wakeWorker | begins | ends => exact h.congr (fun hp ha => ⟨hp, ha⟩) fun _ => .inl rfl
  | work _ =>
    refine h.congr (fun hp ha => ?_) fun _ => .inl rfl
    rw [thread_empty hp]
    exact ⟨hp, ha⟩
  | @completes w iter task _ =>
    have hq : s.q.pending = [] → s.q.active = [] →
        (s.complete w iter).q.pending = [] ∧ (s.complete w iter).q.active = [] := by
      intro hp ha
      simp only [Jobq.pending, Jobq.active] at hp ha
      simp [JobqSys.complete, jobqComplete, Jobq.pending, Jobq.active, ListSeqs.remove, hp, ha]
    refine h.congr (fun hp ha => ?_) fun b => ?_
    · rw [thread_empty (hq hp ha).1]
      exact hq hp ha
    · simp only [JobqSys.thread, JobqSys.complete]
      split_ifs
      · exact .inr rfl
      · exact .inl rfl

theorem JobqReach.deleteInv [DecidableEq C] {data : IterPtr → τ} {tr : List (JobqLabel threads C τ)}
    (h : JobqReach data tr s) : JobqDeleteInv s := by
  induction h with
  | nil => exact .quiet fun _ => rfl
  | snoc hr hs ih =>
    obtain ⟨jobs, hl⟩ := JobqReach.log hr
    exact ih.step hl hs.1.moves hs.2

theorem thread_not_finished (s : JobqSys threads C τ) (w : Fin threads) :
    .finished ∉ (s.thread w).1 := by
  rcases jobqThreadSection_cases w s.q with ⟨he, -⟩ | ⟨he, -⟩ | ⟨iter, rest, -, -, he⟩
  all_goals simp [JobqSys.thread, he]

theorem jobqCallSection_finished {q : Jobq τ} {call : JobqCall τ} {r : JobqSection threads τ}
    (h : jobqCallSection q call = some r) (hf : .finished ∈ r.events) :
    r.q.pending = [] ∧ r.q.active = [] := by
  cases call with
  | run task alloc =>
    simp only [jobqCallSection, Option.ite_none_right_eq_some, Option.some.injEq] at h
    obtain ⟨-, rfl⟩ := h
    simp only [List.mem_singleton] at hf
    split_ifs at hf
  | pause | resume | pending =>
    obtain rfl := Option.some.inj h
    simp at hf
  | finish =>
    obtain rfl := Option.some.inj h
    rcases @jobqFinishSection_cases threads _ [.finished] (.finishAsleep false) .idle
      (jobqFinishResume q).1 (jobqFinishResume q).2 with ⟨he, -⟩ | ⟨he, hempty⟩
    · simp [he] at hf
    · simpa only [he] using hempty
  | delete =>
    obtain rfl := Option.some.inj h
    rcases @jobqFinishSection_cases threads _ [] (.deleteAsleep false) .deleteStop
      (jobqFinishResume q).1 (jobqFinishResume q).2 with ⟨he, -⟩ | ⟨he, -⟩
    · simp [he] at hf
    · simp [he] at hf

theorem JobqMoves.finished [DecidableEq C] {l : JobqLabel threads C τ} (hs : JobqMoves s l s')
    (hf : .finished ∈ l.2) : s'.q.pending = [] ∧ s'.q.active = [] := by
  cases hs with
  | call _ _ hr => exact jobqCallSection_finished hr hf
  | resume hr =>
    generalize s.caller _ = pc at hr
    cases hr with
    | finishes hp ha => exact ⟨hp, ha⟩
    | finishWaits | deleteWaits | deleteGoesOn | stops | joins | deletes => simp at hf
  | wakeCaller | wakeWorker => exact absurd hf List.not_mem_nil
  | work _ => exact absurd hf (thread_not_finished s _)
  | completes _ =>
    rcases List.mem_cons.mp hf with he | hf
    · exact absurd he (by simp)
    · exact absurd hf (thread_not_finished _ _)
  | begins | ends => simp at hf

end Delete

/-- The jobs taken with the pending queue are the jobs accepted, in order;
each worker goes through whole jobs; and when cc_jobq_finish or
cc_jobq_delete returns, every accepted job has been completed. -/
theorem jobq_runs_in_order [DecidableEq C] {data : IterPtr → τ}
    {tr : List (JobqLabel threads C τ)} {s : JobqSys threads C τ} (h : JobqReach data tr s) :
    takenJobs (jobqHistory tr) ++ s.q.pending.map s.q.task = acceptedJobs (jobqHistory tr) ∧
    (openJobs (jobqHistory tr)).map Prod.snd = s.q.active.map s.q.task ∧
    (∀ w, ∃ done : List τ, jobStory w (jobqHistory tr) =
      done.flatMap jobLife ++ (s.worker w).chapter) ∧
    (∀ l tr', tr = l :: tr' → .finished ∈ l.2 → AllCompleted (jobqHistory tr)) ∧
    (∀ c, s.caller (.client c) = .deleted → AllCompleted (jobqHistory tr)) := by
  obtain ⟨jobs, hl⟩ := h.log
  refine ⟨hl.accepted, ?_, hl.story, fun l tr' he hf => ?_, fun c hc => ?_⟩
  · rw [hl.opened, hl.active, List.map_map, List.map_map]
    rfl
  · subst he
    cases h with
    | snoc _ hs =>
      obtain ⟨hp, ha⟩ := hs.1.moves.finished hf
      exact hl.allCompleted hp ha
  · obtain ⟨hp, ha⟩ := h.deleteInv.drained c (by rw [hc]; rfl)
    exact hl.allCompleted hp ha

/-- One client submits a job and waits for it in cc_jobq_finish; newest first. -/
def jobqFinishOne : List (JobqLabel 1 Unit Nat) :=
  [(.resume (.client ()), [.finished]),
    (.work (Fin.last 0), [.completed (Fin.last 0) 7]),
    (.finish (Fin.last 0), [.ended (Fin.last 0) 7]),
    (.begin (Fin.last 0), [.begun (Fin.last 0) 7]),
    (.work (Fin.last 0), [.taken (Fin.last 0) 7]),
    (.call (.client ()) .finish, []),
    (.call (.client ()) (.run 7 (some ⟨0, 0⟩)), [.accepted 7])]

theorem jobq_runs_in_order_finish : AllCompleted (jobqHistory jobqFinishOne) := by
  have h : ∃ s, JobqReach (fun _ => 0) jobqFinishOne s := by
    refine ⟨_, .snoc (.snoc (.snoc (.snoc (.snoc (.snoc (.snoc .nil ⟨rfl, fun _ => rfl⟩)
      ⟨rfl, fun _ => rfl⟩) ⟨rfl, trivial⟩) ⟨rfl, trivial⟩) ⟨rfl, trivial⟩) ⟨rfl, trivial⟩)
      ⟨rfl, trivial⟩⟩
  obtain ⟨s, hs⟩ := h
  exact (jobq_runs_in_order hs).2.2.2.1 _ _ rfl (by decide)

end LibCC
