import LibCC.JobqSystem
import LibCC.SequenceFamily

/-! What is observed of a jobq against its state: the jobs taken and the
pending queue make up the jobs accepted, and every worker goes through whole
jobs, one after the other. -/

namespace LibCC

open LabelledRun SequenceFamily

variable {threads : Nat} {C τ : Type}

def jobqHistory (tr : List (JobqLabel threads C τ)) : List (JobqEvent threads τ) :=
  tr.reverse.flatMap Prod.snd

@[simp] theorem jobqHistory_nil : jobqHistory ([] : List (JobqLabel threads C τ)) = [] := rfl

@[simp] theorem jobqHistory_cons (l : JobqLabel threads C τ) (tr : List (JobqLabel threads C τ)) :
    jobqHistory (l :: tr) = jobqHistory tr ++ l.2 := by
  simp [jobqHistory]

inductive JobStage
  | taken | begun | ended | completed
  deriving DecidableEq

namespace JobqEvent

def acceptedTask : JobqEvent threads τ → Option τ
  | accepted task => some task
  | _ => none

def takenTask : JobqEvent threads τ → Option τ
  | taken _ task => some task
  | _ => none

/-- The stage of its job that an event tells of a worker. -/
def stage : JobqEvent threads τ → Option (Fin threads × JobStage × τ)
  | taken w task => some (w, .taken, task)
  | begun w task => some (w, .begun, task)
  | ended w task => some (w, .ended, task)
  | completed w task => some (w, .completed, task)
  | _ => none

/-- The jobs taken and not completed, in the order in which they were taken. -/
def track (jobs : List (Fin threads × τ)) : JobqEvent threads τ → List (Fin threads × τ)
  | taken w task => jobs ++ [(w, task)]
  | completed w _ => jobs.filter fun job => job.1 ≠ w
  | _ => jobs

/-- Neither a job nor a worker is concerned. -/
def quiet : JobqEvent threads τ → Bool
  | rejected | size _ | finished | deleted => true
  | _ => false

end JobqEvent

def acceptedJobs (events : List (JobqEvent threads τ)) : List τ :=
  events.filterMap JobqEvent.acceptedTask

def takenJobs (events : List (JobqEvent threads τ)) : List τ :=
  events.filterMap JobqEvent.takenTask

def openJobs (events : List (JobqEvent threads τ)) : List (Fin threads × τ) :=
  events.foldl JobqEvent.track []

/-- What the events show of one worker. -/
def jobStory (w : Fin threads) (events : List (JobqEvent threads τ)) : List (JobStage × τ) :=
  (events.filterMap JobqEvent.stage).filterMap fun e => if e.1 = w then some e.2 else none

/-- A job from its start to its completion. -/
def jobLife (task : τ) : List (JobStage × τ) :=
  [(.taken, task), (.begun, task), (.ended, task), (.completed, task)]

namespace JobqWorker

def holds : JobqWorker τ → Option (IterPtr × τ)
  | taken iter task | running iter task | returned iter task => some (iter, task)
  | _ => none

/-- How far the worker is with the job it holds. -/
def chapter : JobqWorker τ → List (JobStage × τ)
  | taken _ task => [(.taken, task)]
  | running _ task => [(.taken, task), (.begun, task)]
  | returned _ task => [(.taken, task), (.begun, task), (.ended, task)]
  | _ => []

@[simp] theorem holds_signal (pc : JobqWorker τ) : pc.signal.holds = pc.holds := by
  cases pc <;> rfl

@[simp] theorem chapter_signal (pc : JobqWorker τ) : pc.signal.chapter = pc.chapter := by
  cases pc <;> rfl

end JobqWorker

section Observations

variable (events : List (JobqEvent threads τ)) {more : List (JobqEvent threads τ)}

@[simp] theorem acceptedJobs_append :
    acceptedJobs (events ++ more) = acceptedJobs events ++ acceptedJobs more :=
  List.filterMap_append

@[simp] theorem takenJobs_append :
    takenJobs (events ++ more) = takenJobs events ++ takenJobs more :=
  List.filterMap_append

@[simp] theorem jobStory_append (w : Fin threads) :
    jobStory w (events ++ more) = jobStory w events ++ jobStory w more := by
  simp [jobStory]

omit events in
@[simp] theorem acceptedJobs_single (e : JobqEvent threads τ) :
    acceptedJobs [e] = e.acceptedTask.toList := by
  cases e <;> rfl

omit events in
@[simp] theorem takenJobs_single (e : JobqEvent threads τ) :
    takenJobs [e] = e.takenTask.toList := by
  cases e <;> rfl

omit events in
@[simp] theorem jobStory_single (w : Fin threads) (e : JobqEvent threads τ) :
    jobStory w [e] = e.stage.toList.filterMap fun e => if e.1 = w then some e.2 else none := by
  cases e <;> rfl

@[simp] theorem openJobs_append :
    openJobs (events ++ more) = more.foldl JobqEvent.track (openJobs events) :=
  List.foldl_append

/-- Quiet events change nothing that the observations speak of. -/
theorem observe_quiet (hq : ∀ e ∈ more, e.quiet = true) :
    acceptedJobs more = [] ∧ takenJobs more = [] ∧ (∀ w, jobStory w more = []) ∧
      ∀ jobs, more.foldl JobqEvent.track jobs = jobs := by
  induction more with
  | nil => exact ⟨rfl, rfl, fun _ => rfl, fun _ => rfl⟩
  | cons e more ih =>
    obtain ⟨ha, ht, hs, ho⟩ := ih fun x hx => hq x (List.mem_cons_of_mem e hx)
    have he := hq e List.mem_cons_self
    cases e <;> simp only [JobqEvent.quiet, reduceCtorEq] at he
    all_goals exact ⟨ha, ht, hs, ho⟩

end Observations

/-- The jobs that the workers hold, in the order of queue_active, with what
has been observed. -/
structure JobqLog (events : List (JobqEvent threads τ)) (jobs : List (Fin threads × IterPtr))
    (s : JobqSys threads C τ) : Prop where
  separated : Separated s.q.queues.seq
  active : s.q.active = jobs.map Prod.snd
  nodup : (jobs.map Prod.fst).Nodup
  holds : ∀ w iter, (w, iter) ∈ jobs ↔ (s.worker w).holds = some (iter, s.q.task iter)
  task : ∀ w iter task, (s.worker w).holds = some (iter, task) → s.q.task iter = task
  accepted : takenJobs events ++ s.q.pending.map s.q.task = acceptedJobs events
  opened : openJobs events = jobs.map fun job => (job.1, s.q.task job.2)
  story : ∀ w, ∃ done : List τ, jobStory w events = done.flatMap jobLife ++ (s.worker w).chapter

/-- What a section of a caller does to the queues, and what it shows. -/
inductive JobqSection.Does (q : Jobq τ) (r : JobqSection threads τ) : Prop
  | accepts (task : τ) (iter : IterPtr) : iter ∉ q.pending → iter ∉ q.active →
      r.events = [.accepted task] → r.q.queues = q.queues.append .pending none iter task → Does q r
  | keeps : r.q.queues = q.queues → (∀ e ∈ r.events, e.quiet = true) → Does q r

theorem jobqFinishSection_does {q q' : Jobq τ} (hq : q'.queues = q.queues)
    {events : List (JobqEvent threads τ)} (he : ∀ e ∈ events, e.quiet = true)
    (asleep next : JobqCaller) (broadcast : Bool) :
    (jobqFinishSection events asleep next broadcast q').Does q := by
  unfold jobqFinishSection
  split_ifs
  · exact .keeps hq (by simp)
  · exact .keeps hq he

theorem jobqFinishResume_queues (q : Jobq τ) : (jobqFinishResume q).2.queues = q.queues := by
  unfold jobqFinishResume
  split_ifs <;> rfl

theorem jobqCallSection_does {q : Jobq τ} {call : JobqCall τ} {r : JobqSection threads τ}
    (h : jobqCallSection q call = some r) : r.Does q := by
  cases call with
  | run task alloc =>
    simp only [jobqCallSection, Option.ite_none_right_eq_some, Option.some.injEq] at h
    obtain ⟨hf, rfl⟩ := h
    cases alloc with
    | none => exact .keeps rfl (by simp [jobqRun, JobqEvent.quiet])
    | some iter =>
      have hf' : iter ∉ q.pending ∧ iter ∉ q.active := by simpa [Jobq.Fresh] using hf
      exact .accepts task iter hf'.1 hf'.2 rfl rfl
  | pause | resume =>
    obtain rfl := Option.some.inj h
    exact .keeps rfl (by simp)
  | finish =>
    obtain rfl := Option.some.inj h
    exact jobqFinishSection_does (jobqFinishResume_queues q) (by simp [JobqEvent.quiet]) ..
  | pending =>
    obtain rfl := Option.some.inj h
    exact .keeps rfl (by simp [JobqEvent.quiet])
  | delete =>
    obtain rfl := Option.some.inj h
    exact jobqFinishSection_does (jobqFinishResume_queues q) (by simp) ..

theorem jobqFinishSection_cases (events : List (JobqEvent threads τ)) (asleep next : JobqCaller)
    (broadcast : Bool) (q : Jobq τ) :
    (jobqFinishSection events asleep next broadcast q = ⟨[], asleep, broadcast, q⟩ ∧
      (q.pending ≠ [] ∨ q.active ≠ [])) ∨
    (jobqFinishSection events asleep next broadcast q = ⟨events, next, broadcast, q⟩ ∧
      q.pending = [] ∧ q.active = []) := by
  unfold jobqFinishSection
  split_ifs with hu
  · exact .inl ⟨rfl, by simpa [jobqUnfinished] using hu⟩
  · exact .inr ⟨rfl, by simpa [jobqUnfinished, not_or] using hu⟩

/-- All that a later step of a call can do. -/
inductive JobqResumeStep (q : Jobq τ) : JobqCaller → JobqSection threads τ → Prop
  | finishWaits : q.pending ≠ [] ∨ q.active ≠ [] →
      JobqResumeStep q (.finishAsleep true) ⟨[], .finishAsleep false, false, q⟩
  | finishes : q.pending = [] → q.active = [] →
      JobqResumeStep q (.finishAsleep true) ⟨[.finished], .idle, false, q⟩
  | deleteWaits : q.pending ≠ [] ∨ q.active ≠ [] →
      JobqResumeStep q (.deleteAsleep true) ⟨[], .deleteAsleep false, false, q⟩
  | deleteGoesOn : q.pending = [] → q.active = [] →
      JobqResumeStep q (.deleteAsleep true) ⟨[], .deleteStop, false, q⟩
  | stops : JobqResumeStep q .deleteStop ⟨[], .deleteJoin, true, { q with state := .stop }⟩
  | joins : JobqResumeStep q .deleteJoin ⟨[], .deleteLists, false, q⟩
  | deletes : JobqResumeStep q .deleteLists ⟨[.deleted], .deleted, false, q⟩

theorem jobqResumeSection_step {joined : Bool} {q : Jobq τ} {pc : JobqCaller}
    {r : JobqSection threads τ} (h : jobqResumeSection joined q pc = some r) :
    JobqResumeStep q pc r := by
  unfold jobqResumeSection at h
  split at h
  · obtain rfl := Option.some.inj h
    rcases @jobqFinishSection_cases threads _ [.finished] (.finishAsleep false) .idle false q
      with ⟨he, hb⟩ | ⟨he, hp, ha⟩
    · exact he ▸ .finishWaits hb
    · exact he ▸ .finishes hp ha
  · obtain rfl := Option.some.inj h
    rcases @jobqFinishSection_cases threads _ [] (.deleteAsleep false) .deleteStop false q
      with ⟨he, hb⟩ | ⟨he, hp, ha⟩
    · exact he ▸ .deleteWaits hb
    · exact he ▸ .deleteGoesOn hp ha
  · obtain rfl := Option.some.inj h
    exact .stops
  · obtain ⟨-, rfl⟩ : joined = true ∧ _ := by simpa using h
    exact .joins
  · obtain rfl := Option.some.inj h
    exact .deletes
  · exact absurd h (by simp)

theorem JobqResumeStep.does {q : Jobq τ} {pc : JobqCaller} {r : JobqSection threads τ}
    (h : JobqResumeStep q pc r) : r.Does q := by
  cases h <;> exact .keeps rfl (by simp [JobqEvent.quiet])

section Log

variable {s s' : JobqSys threads C τ} {events more : List (JobqEvent threads τ)}
  {jobs : List (Fin threads × IterPtr)}

theorem JobqLog.new (data : IterPtr → τ) :
    JobqLog [] [] (jobqSysNew data : JobqSys threads C τ) :=
  ⟨⟨fun _ => List.nodup_nil, fun _ _ _ hp => absurd hp List.not_mem_nil⟩, rfl, List.nodup_nil,
    by simp [jobqSysNew, JobqWorker.holds], by simp [jobqSysNew, JobqWorker.holds], rfl, rfl,
    fun _ => ⟨[], rfl⟩⟩

/-- Nothing is done to the queues, and the workers keep their jobs. -/
theorem JobqLog.keep (h : JobqLog events jobs s) (hq : s'.q.queues = s.q.queues)
    (hw : ∀ w, (s'.worker w).holds = (s.worker w).holds ∧
      (s'.worker w).chapter = (s.worker w).chapter)
    (hm : ∀ e ∈ more, e.quiet = true) : JobqLog (events ++ more) jobs s' := by
  obtain ⟨ha, ht, hs, ho⟩ := observe_quiet hm
  have htask : s'.q.task = s.q.task := congrArg ListSeqs.data hq
  refine ⟨?_, ?_, h.nodup, ?_, ?_, ?_, ?_, ?_⟩
  · rw [hq]
    exact h.separated
  · exact (congrArg (fun σ => σ.seq .active) hq).trans h.active
  · intro w iter
    rw [(hw w).1, htask]
    exact h.holds w iter
  · intro w iter task hh
    rw [(hw w).1] at hh
    rw [htask]
    exact h.task w iter task hh
  · have hp : s'.q.pending = s.q.pending := congrArg (fun σ => σ.seq .pending) hq
    rw [takenJobs_append, acceptedJobs_append, ht, ha, htask, hp, List.append_nil, List.append_nil]
    exact h.accepted
  · rw [openJobs_append, ho, htask]
    exact h.opened
  · intro w
    rw [jobStory_append, hs, List.append_nil, (hw w).2]
    exact h.story w

theorem JobqLog.accept (h : JobqLog events jobs s) {task : τ} {iter : IterPtr}
    (hp : iter ∉ s.q.pending) (ha : iter ∉ s.q.active)
    (hq : s'.q.queues = s.q.queues.append .pending none iter task)
    (hw : ∀ w, (s'.worker w).holds = (s.worker w).holds ∧
      (s'.worker w).chapter = (s.worker w).chapter) :
    JobqLog (events ++ [.accepted task]) jobs s' := by
  have hpend : s'.q.pending = s.q.pending ++ [iter] := by
    simp [Jobq.pending, hq, ListSeqs.append]
  have hact : s'.q.active = s.q.active := by simp [Jobq.active, hq, ListSeqs.append]
  have htask : ∀ x, x ≠ iter → s'.q.task x = s.q.task x := by
    intro x hx
    simp [Jobq.task, hq, ListSeqs.append, hx]
  have hself : s'.q.task iter = task := by simp [Jobq.task, hq, ListSeqs.append]
  have hjob : ∀ job ∈ jobs, job.2 ≠ iter := by
    intro job hj he
    rw [h.active] at ha
    exact ha (he ▸ List.mem_map_of_mem hj)
  have hheld : ∀ w x t, (s.worker w).holds = some (x, t) → x ≠ iter := by
    intro w x t hh
    have ht := h.task w x t hh
    exact hjob (w, x) ((h.holds w x).mpr (ht ▸ hh))
  refine ⟨?_, hact.trans h.active, h.nodup, ?_, ?_, ?_, ?_, ?_⟩
  · rw [hq]
    refine h.separated.update ?_ ?_
    · rw [insertAfter_none]
      exact List.nodup_append.mpr ⟨h.separated.1 _, List.nodup_singleton _,
        fun x hx y hy he => hp (List.mem_singleton.mp hy ▸ he ▸ hx)⟩
    · intro p hm k hk
      rw [insertAfter_none, List.mem_append, List.mem_singleton] at hm
      rcases hm with hm | rfl
      · exact h.separated.2 _ _ p hk hm
      · cases k with
        | pending => rfl
        | active => exact absurd hk ha
  · intro w x
    rw [(hw w).1]
    constructor
    · intro hm
      rw [htask x (hjob _ hm)]
      exact (h.holds w x).mp hm
    · intro hh
      rw [htask x (hheld w x _ hh)] at hh
      exact (h.holds w x).mpr hh
  · intro w x t hh
    rw [(hw w).1] at hh
    rw [htask x (hheld w x t hh)]
    exact h.task w x t hh
  · have hmap : s.q.pending.map s'.q.task = s.q.pending.map s.q.task :=
      List.map_congr_left fun x hx => htask x fun he => hp (he ▸ hx)
    rw [hpend, List.map_append, hmap, List.map_singleton, hself]
    simp [JobqEvent.takenTask, JobqEvent.acceptedTask, ← h.accepted]
  · rw [openJobs_append]
    refine h.opened.trans (List.map_congr_left fun job hj => ?_)
    rw [htask _ (hjob job hj)]
  · intro w
    rw [jobStory_append, (hw w).2]
    simpa [JobqEvent.stage] using h.story w

theorem JobqLog.advance (h : JobqLog events jobs s) {w : Fin threads} {e : JobqEvent threads τ}
    {st : JobStage} {task : τ} {pc : JobqWorker τ} (he : e.stage = some (w, st, task))
    (hs : st = .begun ∨ st = .ended) (hh : pc.holds = (s.worker w).holds)
    (hc : pc.chapter = (s.worker w).chapter ++ [(st, task)]) :
    JobqLog (events ++ [e]) jobs (s.setWorker w pc) := by
  have hkeep : ∀ w', ((s.setWorker w pc).worker w').holds = (s.worker w').holds := by
    intro w'
    by_cases hw : w' = w
    · subst hw
      simp [JobqSys.setWorker, hh]
    · simp [JobqSys.setWorker, hw]
  have hquiet : e.acceptedTask = none ∧ e.takenTask = none ∧ ∀ l, e.track l = l := by
    cases e <;> simp only [JobqEvent.stage, Option.some.injEq, Prod.mk.injEq, reduceCtorEq] at he
    all_goals
      obtain ⟨-, rfl, -⟩ := he
      simp only [reduceCtorEq, or_self, or_false, or_true] at hs
    all_goals exact ⟨rfl, rfl, fun _ => rfl⟩
  refine ⟨h.separated, h.active, h.nodup, ?_, ?_, ?_, ?_, ?_⟩
  · intro w' iter
    rw [hkeep]
    exact h.holds w' iter
  · intro w' iter t hh'
    rw [hkeep] at hh'
    exact h.task w' iter t hh'
  · have ha : takenJobs events ++ (s.setWorker w pc).q.pending.map (s.setWorker w pc).q.task =
        acceptedJobs events := h.accepted
    simpa [hquiet.1, hquiet.2.1] using ha
  · rw [openJobs_append, List.foldl_cons, List.foldl_nil, hquiet.2.2]
    exact h.opened
  · intro w'
    obtain ⟨done, hd⟩ := h.story w'
    rw [jobStory_append, hd]
    by_cases hw : w' = w
    · subst hw
      exact ⟨done, by simp [JobqSys.setWorker, hc, he]⟩
    · exact ⟨done, by simp [JobqSys.setWorker, hw, he, Ne.symm hw]⟩

theorem JobqLog.complete (h : JobqLog events jobs s) {w : Fin threads} {iter : IterPtr} {task : τ}
    (hw : s.worker w = .returned iter task) :
    JobqLog (events ++ [.completed w task]) (jobs.filter fun job => job.1 ≠ w)
      (s.complete w iter) := by
  have htask : s.q.task iter = task := h.task w iter task (by rw [hw]; rfl)
  have hmem : (w, iter) ∈ jobs := (h.holds w iter).mpr (by rw [hw, htask]; rfl)
  have honly : ∀ job ∈ jobs, job.1 = w ↔ job.2 = iter := by
    intro job hj
    constructor
    · intro he
      have hh := (h.holds job.1 job.2).mp hj
      rw [he, hw] at hh
      exact (Prod.mk.inj (Option.some.inj hh)).1.symm
    · intro he
      have hnd : (jobs.map Prod.snd).Nodup := h.active ▸ h.separated.1 .active
      exact congrArg Prod.fst (List.inj_on_of_nodup_map hnd hj hmem he)
  have hact : s.q.active.erase iter = (jobs.filter fun job => job.1 ≠ w).map Prod.snd := by
    have hnd : s.q.active.Nodup := h.separated.1 .active
    have hfil : jobs.filter (fun job => decide (job.1 ≠ w)) =
        jobs.filter ((fun x => decide (x ≠ iter)) ∘ Prod.snd) :=
      List.filter_congr fun job hj => by
        simp only [Function.comp_apply, decide_eq_decide, ne_eq, not_iff_not]
        exact honly job hj
    rw [hnd.erase_eq_filter, h.active, List.filter_map, hfil]
    refine congrArg (List.map Prod.snd) (List.filter_congr fun job _ => ?_)
    simp [bne, BEq.beq]
  have hq : (s.complete w iter).q.task = s.q.task := rfl
  refine ⟨?_, ?_, ?_, ?_, ?_, ?_, ?_, ?_⟩
  · exact h.separated.update_subset ((h.separated.1 .active).erase iter) List.erase_subset
  · simpa [Jobq.active, JobqSys.complete, jobqComplete, ListSeqs.remove] using hact
  · exact h.nodup.sublist (List.filter_sublist.map Prod.fst)
  · intro w' x
    rw [List.mem_filter, hq]
    by_cases he : w' = w
    · subst he
      simp [JobqSys.complete, JobqWorker.holds]
    · simpa [JobqSys.complete, he] using h.holds w' x
  · intro w' x t hh
    by_cases he : w' = w
    · subst he
      simp [JobqSys.complete, JobqWorker.holds] at hh
    · exact h.task w' x t (by simpa [JobqSys.complete, he] using hh)
  · have hp : (s.complete w iter).q.pending = s.q.pending := by
      simp [Jobq.pending, JobqSys.complete, jobqComplete, ListSeqs.remove]
    simpa [JobqEvent.takenTask, JobqEvent.acceptedTask, hp, hq] using h.accepted
  · rw [openJobs_append, h.opened]
    simp only [List.foldl_cons, List.foldl_nil, JobqEvent.track, List.filter_map]
    rfl
  · intro w'
    obtain ⟨done, hd⟩ := h.story w'
    rw [jobStory_append, hd]
    by_cases he : w' = w
    · subst he
      refine ⟨done ++ [task], ?_⟩
      simp [hw, JobqSys.complete, JobqWorker.chapter, JobqEvent.stage, jobLife]
    · exact ⟨done, by simp [JobqSys.complete, he, JobqEvent.stage, Ne.symm he]⟩

/-- What the loop of a worker comes to. -/
theorem jobqThreadSection_cases (w : Fin threads) (q : Jobq τ) :
    (jobqThreadSection w q = ([], .asleep false, q) ∧
      (q.state = .paused ∨ (q.state = .running ∧ q.pending = []))) ∨
    (jobqThreadSection w q = ([], .exited, q) ∧ q.state = .stop) ∨
    ∃ iter rest, q.pending = iter :: rest ∧ q.state = .running ∧
      jobqThreadSection w q =
        ([.taken w (q.task iter)], .taken iter (q.task iter), jobqTake iter q) := by
  unfold jobqThreadSection
  by_cases hsleep : q.state = .paused ∨ (q.pending = [] ∧ q.state = .running)
  · rw [if_pos hsleep]
    exact .inl ⟨rfl, hsleep.imp_right And.symm⟩
  rw [if_neg hsleep]
  by_cases hstop : q.state = .stop
  · rw [if_pos hstop]
    exact .inr (.inl ⟨rfl, hstop⟩)
  rw [if_neg hstop]
  obtain ⟨hpaused, hempty⟩ := not_or.mp hsleep
  have hrun : q.state = .running := by
    cases hs : q.state with
    | running => rfl
    | paused => exact absurd hs hpaused
    | stop => exact absurd hs hstop
  obtain ⟨iter, rest, hp⟩ := List.exists_cons_of_ne_nil fun he => hempty ⟨he, hrun⟩
  exact .inr (.inr ⟨iter, rest, hp, hrun, by simp [hp]⟩)

theorem JobqLog.take (h : JobqLog events jobs s) {w : Fin threads}
    (hh : (s.worker w).holds = none) (hc : (s.worker w).chapter = []) {iter : IterPtr}
    {rest : List IterPtr} (hp : s.q.pending = iter :: rest) (hs' : s' = { s with
      q := jobqTake iter s.q
      worker := Function.update s.worker w (.taken iter (s.q.task iter)) }) :
    JobqLog (events ++ [.taken w (s.q.task iter)]) (jobs ++ [(w, iter)]) s' := by
  have hnd : (iter :: rest).Nodup := hp ▸ h.separated.1 .pending
  have hact : iter ∉ s.q.active := @Separated.notMem _ _ _ h.separated .pending .active _
    (show iter ∈ s.q.pending by simp [hp]) (by simp)
  have hw : ∀ job ∈ jobs, job.1 ≠ w := by
    rintro ⟨w', x⟩ hj rfl
    rw [h.holds, hh] at hj
    exact absurd hj (by simp)
  have hpend' : s'.q.pending = rest := by
    have hs := hp
    simp only [Jobq.pending] at hs
    simp [hs', jobqTake, Jobq.pending, ListSeqs.swapn, ListSeqs.remove, hs]
  have hact' : s'.q.active = s.q.active ++ [iter] := by
    simp [hs', jobqTake, Jobq.active, ListSeqs.swapn, ListSeqs.remove]
  have htask : s'.q.task = s.q.task := by
    funext x
    simp [hs', jobqTake, Jobq.task, ListSeqs.swapn, ListSeqs.remove]
  have hself : s'.worker w = .taken iter (s.q.task iter) := by
    simp [hs']
  have hother : ∀ w', w' ≠ w → s'.worker w' = s.worker w' := by
    intro w' hne
    simp [hs', hne]
  refine ⟨⟨fun k => ?_, fun k k' x hk hk' => ?_⟩, ?_, ?_, ?_, ?_, ?_, ?_, ?_⟩
  · cases k with
    | pending =>
      change s'.q.pending.Nodup
      rw [hpend']
      exact (List.nodup_cons.mp hnd).2
    | active =>
      change s'.q.active.Nodup
      rw [hact']
      exact List.nodup_append.mpr ⟨h.separated.1 .active, List.nodup_singleton _,
        fun x hx y hy hxy => hact (List.mem_singleton.mp hy ▸ hxy ▸ hx)⟩
  · have hdis : ∀ x, x ∈ s'.q.pending → x ∉ s'.q.active := by
      intro x hx hx'
      rw [hpend'] at hx
      rw [hact', List.mem_append, List.mem_singleton] at hx'
      rcases hx' with hx' | rfl
      · exact @Separated.notMem _ _ _ h.separated .pending .active _
          (show x ∈ s.q.pending by simp [hp, hx]) (by simp) hx'
      · exact (List.nodup_cons.mp hnd).1 hx
    cases k <;> cases k'
    · rfl
    · exact absurd hk' (hdis x hk)
    · exact absurd hk (hdis x hk')
    · rfl
  · rw [hact', h.active, List.map_append, List.map_singleton]
  · rw [List.map_append, List.map_singleton]
    refine List.nodup_append.mpr ⟨h.nodup, List.nodup_singleton _, fun x hx y hy hxy => ?_⟩
    obtain ⟨job, hj, rfl⟩ := List.mem_map.mp hx
    exact hw job hj (hxy.trans (List.mem_singleton.mp hy))
  · intro w' x
    rw [List.mem_append, List.mem_singleton, htask]
    by_cases hne : w' = w
    · subst hne
      rw [hself]
      have hno : (w', x) ∉ jobs := fun hj => hw _ hj rfl
      simp only [hno, false_or, JobqWorker.holds, Prod.mk.injEq, true_and, Option.some.injEq]
      constructor
      · rintro rfl
        exact ⟨rfl, rfl⟩
      · exact fun hx => hx.1.symm
    · rw [hother w' hne, h.holds]
      simp [hne]
  · intro w' x t ht
    rw [htask]
    by_cases hne : w' = w
    · subst hne
      rw [hself] at ht
      obtain ⟨rfl, rfl⟩ := Prod.mk.inj (Option.some.inj ht)
      rfl
    · rw [hother w' hne] at ht
      exact h.task w' x t ht
  · have ha := h.accepted
    rw [hp, List.map_cons] at ha
    rw [takenJobs_append, acceptedJobs_append, hpend', htask, ← ha]
    simp [JobqEvent.takenTask, JobqEvent.acceptedTask]
  · rw [openJobs_append, h.opened, htask]
    simp [JobqEvent.track]
  · intro w'
    obtain ⟨done, hd⟩ := h.story w'
    rw [jobStory_append, hd]
    by_cases hne : w' = w
    · subst hne
      exact ⟨done, by rw [hself, hc]; simp [JobqWorker.chapter, JobqEvent.stage]⟩
    · exact ⟨done, by simp [hother w' hne, JobqEvent.stage, Ne.symm hne]⟩

/-- A worker at the top of its loop sleeps, exits or takes the first job. -/
theorem JobqLog.thread (h : JobqLog events jobs s) {w : Fin threads}
    (hh : (s.worker w).holds = none) (hc : (s.worker w).chapter = []) :
    ∃ jobs', JobqLog (events ++ (s.thread w).1) jobs' (s.thread w).2 := by
  have hidle : ∀ pc : JobqWorker τ, pc.holds = none → pc.chapter = [] →
      JobqLog (events ++ []) jobs
        { s with worker := Function.update s.worker w pc } := by
    intro pc hph hpc
    refine h.keep rfl (fun w' => ?_) (by simp)
    by_cases he : w' = w
    · subst he
      simp [hph, hpc, hh, hc]
    · simp [he]
  rcases jobqThreadSection_cases w s.q with ⟨he, -⟩ | ⟨he, -⟩ | ⟨iter, rest, hp, -, he⟩
  · exact ⟨jobs, by simpa only [JobqSys.thread, he] using hidle (.asleep false) rfl rfl⟩
  · exact ⟨jobs, by simpa only [JobqSys.thread, he] using hidle .exited rfl rfl⟩
  · exact ⟨_, by simpa only [JobqSys.thread, he] using h.take hh hc hp rfl⟩

theorem JobqLog.section_ [DecidableEq C] (h : JobqLog events jobs s) (a : JobqAgent threads C)
    {r : JobqSection threads τ} (hr : r.Does s.q) :
    JobqLog (events ++ r.events) jobs (s.section_ a r) := by
  have hw : ∀ w, ((s.section_ a r).worker w).holds = (s.worker w).holds ∧
      ((s.section_ a r).worker w).chapter = (s.worker w).chapter := by
    intro w
    simp only [JobqSys.section_]
    split_ifs <;> simp
  cases hr with
  | accepts task iter hp ha he hq =>
    rw [he]
    exact h.accept hp ha hq hw
  | keeps hq he => exact h.keep hq hw he

/-- All that a step can do. -/
inductive JobqMoves [DecidableEq C] (s : JobqSys threads C τ) :
    JobqLabel threads C τ → JobqSys threads C τ → Prop
  | call {a : JobqAgent threads C} {call : JobqCall τ} {r : JobqSection threads τ} :
      s.caller a = .idle → s.calls a = true → jobqCallSection s.q call = some r →
      JobqMoves s (.call a call, r.events) (s.section_ a r)
  | resume {a : JobqAgent threads C} {r : JobqSection threads τ} :
      JobqResumeStep s.q (s.caller a) r → JobqMoves s (.resume a, r.events) (s.section_ a r)
  | wakeCaller (a : JobqAgent threads C) :
      JobqMoves s (.wakeCaller a, []) (s.setCaller a (s.caller a).signal)
  | wakeWorker (w : Fin threads) :
      JobqMoves s (.wakeWorker w, []) (s.setWorker w (s.worker w).signal)
  | work {w : Fin threads} : s.worker w = .start ∨ s.worker w = .asleep true →
      JobqMoves s (.work w, (s.thread w).1) (s.thread w).2
  | completes {w : Fin threads} {iter : IterPtr} {task : τ} : s.worker w = .returned iter task →
      JobqMoves s (.work w, .completed w task :: ((s.complete w iter).thread w).1)
        ((s.complete w iter).thread w).2
  | begins {w : Fin threads} {iter : IterPtr} {task : τ} : s.worker w = .taken iter task →
      JobqMoves s (.begin w, [.begun w task]) (s.setWorker w (.running iter task))
  | ends {w : Fin threads} {iter : IterPtr} {task : τ} : s.worker w = .running iter task →
      s.caller (.job w) = .idle →
      JobqMoves s (.finish w, [.ended w task]) (s.setWorker w (.returned iter task))

theorem JobqStep.moves [DecidableEq C] {l : JobqLabel threads C τ} (hs : JobqStep s l s') :
    JobqMoves s l s' := by
  obtain ⟨move, shown⟩ := l
  cases move with
  | call a call =>
    simp only [JobqStep, JobqSys.step, Option.ite_none_right_eq_some, Option.map_eq_some_iff,
      Prod.mk.injEq] at hs
    obtain ⟨⟨hi, ha⟩, r, hr, rfl, rfl⟩ := hs
    exact .call hi ha hr
  | resume a =>
    simp only [JobqStep, JobqSys.step, Option.map_eq_some_iff, Prod.mk.injEq] at hs
    obtain ⟨r, hr, rfl, rfl⟩ := hs
    exact .resume (jobqResumeSection_step hr)
  | wakeCaller a =>
    obtain ⟨rfl, rfl⟩ := Prod.mk.inj (Option.some.inj hs)
    exact .wakeCaller a
  | wakeWorker w =>
    obtain ⟨rfl, rfl⟩ := Prod.mk.inj (Option.some.inj hs)
    exact .wakeWorker w
  | work w =>
    simp only [JobqStep, JobqSys.step] at hs
    split at hs
    · next hw =>
      obtain ⟨rfl, rfl⟩ := Prod.mk.inj (Option.some.inj hs)
      exact .work (.inl hw)
    · next hw =>
      obtain ⟨rfl, rfl⟩ := Prod.mk.inj (Option.some.inj hs)
      exact .work (.inr hw)
    · next hw =>
      obtain ⟨rfl, rfl⟩ := Prod.mk.inj (Option.some.inj hs)
      exact .completes hw
    · exact absurd hs (by simp)
  | begin w =>
    simp only [JobqStep, JobqSys.step] at hs
    split at hs
    · next hw =>
      obtain ⟨rfl, rfl⟩ := Prod.mk.inj (Option.some.inj hs)
      exact .begins hw
    · exact absurd hs (by simp)
  | finish w =>
    simp only [JobqStep, JobqSys.step] at hs
    split at hs
    · next hw =>
      obtain ⟨hi, he⟩ := Option.ite_none_right_eq_some.mp hs
      obtain ⟨rfl, rfl⟩ := Prod.mk.inj (Option.some.inj he)
      exact .ends hw hi
    · exact absurd hs (by simp)

theorem JobqMoves.log [DecidableEq C] {l : JobqLabel threads C τ} (h : JobqLog events jobs s)
    (hs : JobqMoves s l s') : ∃ jobs', JobqLog (events ++ l.2) jobs' s' := by
  cases hs with
  | call _ _ hr => exact ⟨jobs, h.section_ _ (jobqCallSection_does hr)⟩
  | resume hr => exact ⟨jobs, h.section_ _ hr.does⟩
  | wakeCaller a => exact ⟨jobs, h.keep rfl (fun _ => ⟨rfl, rfl⟩) (by simp)⟩
  | wakeWorker w =>
    refine ⟨jobs, h.keep rfl (fun w' => ?_) (by simp)⟩
    by_cases he : w' = w
    · subst he
      simp [JobqSys.setWorker]
    · simp [JobqSys.setWorker, he]
  | work hw => rcases hw with hw | hw <;> exact h.thread (by rw [hw]; rfl) (by rw [hw]; rfl)
  | @completes w iter task hw =>
    obtain ⟨jobs', hh⟩ := (h.complete hw).thread (w := w)
      (by simp [JobqSys.complete, JobqWorker.holds])
      (by simp [JobqSys.complete, JobqWorker.chapter])
    exact ⟨jobs', by simpa using hh⟩
  | @begins w iter task hw =>
    exact ⟨jobs, h.advance (show _ = some (w, _, task) from rfl) (.inl rfl)
      (by rw [hw]; rfl) (by rw [hw]; rfl)⟩
  | @ends w iter task hw =>
    exact ⟨jobs, h.advance (show _ = some (w, _, task) from rfl) (.inr rfl)
      (by rw [hw]; rfl) (by rw [hw]; rfl)⟩

theorem JobqReach.log [DecidableEq C] {data : IterPtr → τ} {tr : List (JobqLabel threads C τ)}
    (h : JobqReach data tr s) : ∃ jobs, JobqLog (jobqHistory tr) jobs s := by
  induction h with
  | nil => exact ⟨[], .new data⟩
  | snoc _ hs ih =>
    obtain ⟨jobs, hl⟩ := ih
    rw [jobqHistory_cons]
    exact hs.1.moves.log hl

end Log

end LibCC
