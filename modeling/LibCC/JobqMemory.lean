import LibCC.TracedJobq

/-! How much memory a jobq keeps: a set of iters for every 32 jobs that it has
accepted, whatever has become of them, until it is deleted. -/

namespace LibCC

open AllocEvent FramedProgram LabelledRun SequenceFamily

variable {threads : Nat} {C τ : Type}

/-- The iters of the jobs that are not completed. -/
def Jobq.iters (q : Jobq τ) : List IterPtr := q.pending ++ q.active

section Steps

variable {s s' : JobqSys threads C τ} {events : List (JobqEvent threads τ)}
  {jobs : List (Fin threads × IterPtr)}

theorem append_iters {q q' : Jobq τ} {iter : IterPtr} {task : τ}
    (h : q'.queues = q.queues.append .pending none iter task) :
    q'.iters.Perm (iter :: q.iters) := by
  have hp : q'.pending = q.pending ++ [iter] := by
    simp [Jobq.pending, h, ListSeqs.append]
  have ha : q'.active = q.active := by
    simp [Jobq.active, h, ListSeqs.append]
  rw [Jobq.iters, hp, ha, Jobq.iters, List.append_assoc]
  exact List.perm_middle

theorem jobqTake_iters {q : Jobq τ} {iter : IterPtr} {rest : List IterPtr}
    (h : q.pending = iter :: rest) : (jobqTake iter q).iters.Perm q.iters := by
  have hp : (jobqTake iter q).pending = rest := by
    have hs := h
    simp only [Jobq.pending] at hs
    simp [jobqTake, Jobq.pending, ListSeqs.swapn, ListSeqs.remove, hs]
  have ha : (jobqTake iter q).active = q.active ++ [iter] := by
    simp [jobqTake, Jobq.active, ListSeqs.swapn, ListSeqs.remove]
  rw [Jobq.iters, Jobq.iters, hp, ha, h, ← List.append_assoc]
  exact List.perm_append_singleton iter (rest ++ q.active)

theorem thread_iters (s : JobqSys threads C τ) (w : Fin threads) :
    (s.thread w).2.q.iters.Perm s.q.iters ∧ acceptedJobs (s.thread w).1 = [] := by
  rcases jobqThreadSection_cases w s.q with ⟨he, -⟩ | ⟨he, -⟩ | ⟨iter, rest, hp, -, he⟩
  · simp only [JobqSys.thread, he]
    exact ⟨.refl _, rfl⟩
  · simp only [JobqSys.thread, he]
    exact ⟨.refl _, rfl⟩
  · simp only [JobqSys.thread, he]
    exact ⟨jobqTake_iters hp, rfl⟩

theorem complete_iters (h : JobqLog events jobs s) {w : Fin threads} {iter : IterPtr} {task : τ}
    (hw : s.worker w = .returned iter task) :
    s.q.iters.Perm (iter :: (s.complete w iter).q.iters) := by
  have htask : s.q.task iter = task := h.task w iter task (by rw [hw]; rfl)
  have hmem : iter ∈ s.q.active := by
    rw [h.active]
    exact List.mem_map_of_mem ((h.holds w iter).mpr (by rw [hw, htask]; rfl))
  have hp : (s.complete w iter).q.pending = s.q.pending := by
    simp [Jobq.pending, JobqSys.complete, jobqComplete, ListSeqs.remove]
  have ha : (s.complete w iter).q.active = s.q.active.erase iter := by
    simp [Jobq.active, JobqSys.complete, jobqComplete, ListSeqs.remove]
  rw [Jobq.iters, Jobq.iters, hp, ha]
  exact ((List.perm_cons_erase hmem).append_left _).trans List.perm_middle

/-- A section that is none of cc_jobq_run accepts nothing. -/
theorem section_keeps {q : Jobq τ} {r : JobqSection threads τ} (h : r.Does q)
    (hn : acceptedJobs r.events = []) : r.q.iters = q.iters := by
  cases h with
  | accepts task iter _ _ he _ =>
    rw [he] at hn
    cases hn
  | keeps hq _ => rw [Jobq.iters, Jobq.iters, Jobq.pending, Jobq.active, hq]; rfl

theorem jobqCallSection_accepts {q : Jobq τ} {call : JobqCall τ} {r : JobqSection threads τ}
    (h : jobqCallSection q call = some r) (hrun : ∀ task alloc, call ≠ .run task alloc) :
    acceptedJobs r.events = [] := by
  cases call with
  | run task alloc => exact absurd rfl (hrun task alloc)
  | pause | resume | pending =>
    obtain rfl := Option.some.inj h
    rfl
  | finish | delete =>
    obtain rfl := Option.some.inj h
    simp only [jobqFinishSection]
    split_ifs <;> rfl

variable [DecidableEq C]

/-- What a step that neither adds nor completes a job does to the iters of jobs. -/
theorem JobqMoves.iters {l : JobqLabel threads C τ} (hs : JobqMoves s l s')
    (hrun : ∀ a task alloc, l.1 ≠ .call a (.run task alloc))
    (hdone : ∀ w iter task, l.1 = .work w → s.worker w ≠ .returned iter task) :
    s'.q.iters.Perm s.q.iters ∧ acceptedJobs l.2 = [] := by
  cases hs with
  | @call a call r _ _ hr =>
    have hnone := jobqCallSection_accepts hr fun task alloc he => hrun a task alloc (by rw [he])
    have hkeep : (s.section_ a r).q.iters = s.q.iters :=
      section_keeps (jobqCallSection_does hr) hnone
    exact ⟨.of_eq hkeep, hnone⟩
  | @resume a r hr =>
    have hnone : acceptedJobs r.events = [] := by
      generalize s.caller a = pc at hr
      cases hr <;> rfl
    have hkeep : (s.section_ a r).q.iters = s.q.iters := section_keeps hr.does hnone
    exact ⟨.of_eq hkeep, hnone⟩
  | wakeCaller | wakeWorker => exact ⟨.refl _, rfl⟩
  | @work w _ => exact thread_iters s w
  | completes hw => exact absurd hw (hdone _ _ _ rfl)
  | begins | ends => exact ⟨.refl _, rfl⟩

/-- A job that is accepted brings its iter. -/
theorem JobqMoves.run_iters {a : JobqAgent threads C} {task : τ} {alloc : Option IterPtr}
    (hs : JobqMoves s (.call a (.run task alloc), events) s') :
    s'.q.iters.Perm (alloc.toList ++ s.q.iters) ∧
      (acceptedJobs events).length = alloc.toList.length := by
  cases hs with
  | @call _ _ r _ _ hr =>
    simp only [jobqCallSection, Option.ite_none_right_eq_some, Option.some.injEq] at hr
    obtain ⟨-, rfl⟩ := hr
    cases alloc with
    | none => exact ⟨.refl _, rfl⟩
    | some iter =>
      have hq : (jobqRun task (some iter) s.q).2.2.queues =
          s.q.queues.append .pending none iter task := rfl
      exact ⟨append_iters hq, rfl⟩

theorem JobqMoves.done_iters {w : Fin threads} {iter : IterPtr} {task : τ}
    {shown : List (JobqEvent threads τ)} (hl : JobqLog events jobs s)
    (hs : JobqMoves s (.work w, shown) s') (hw : s.worker w = .returned iter task) :
    s.q.iters.Perm (iter :: s'.q.iters) ∧ acceptedJobs shown = [] := by
  cases hs with
  | work hidle =>
    rw [hw] at hidle
    rcases hidle with he | he
    · cases he
    · cases he
  | @completes _ iter' task' hw' =>
    rw [hw] at hw'
    cases hw'
    obtain ⟨hperm, hnone⟩ := thread_iters (s.complete w iter) w
    exact ⟨(complete_iters hl hw).trans (hperm.symm.cons iter), hnone⟩

end Steps

/-- The memory of a jobq is accounted for, and the iters that it has are whole sets. -/
structure JobqHeapInv [DecidableEq C] (data : IterPtr → τ) (tr : List (JobqLabel threads C τ))
    (sys : JobqSys threads C τ) (m : JobqHeap) (s : TracedHeap) : Prop where
  reach : JobqReach data tr sys
  pooled : m.Pooled
  counted : s.Counted
  account : ∃ R, HeapAccount s (m.holds sys.q + R)
  spare : (m.queue .pending).iters.length < listSetSize
  sets : ∃ k, (m.queue .pending).iters.length + (acceptedJobs (jobqHistory tr)).length =
      listSetSize * k ∧ (m.iters sys.q).length = listSetSize * k

section Inv

variable [DecidableEq C] {data : IterPtr → τ} {tr : List (JobqLabel threads C τ)}
  {sys sys' : JobqSys threads C τ} {m m' : JobqHeap} {s s' : TracedHeap}

theorem JobqHeap.iters_length (m : JobqHeap) (q : Jobq τ) :
    (m.iters q).length =
      (m.queue .pending).iters.length + (m.queue .active).iters.length + q.iters.length := by
  simp only [JobqHeap.iters, Jobq.iters, List.length_append]

theorem JobqHeap.iters_pending (m : JobqHeap) (list : ListHeader) (q : Jobq τ) :
    ((m.setQueue .pending list).iters q).length =
      list.iters.length + (m.queue .active).iters.length + q.iters.length := by
  simp [JobqHeap.iters_length]

theorem JobqHeap.iters_active (m : JobqHeap) (list : ListHeader) (q : Jobq τ) :
    ((m.setQueue .active list).iters q).length =
      (m.queue .pending).iters.length + list.iters.length + q.iters.length := by
  simp [JobqHeap.iters_length]

theorem JobqHeapInv.new {R : Holding} {pthread : JobqPthread} (hs : HeapAccount s R)
    (hc : s.Counted) (hr : (Traced.jobqNew pthread).run s = (some m, s')) :
    JobqHeapInv data ([] : List (JobqLabel threads C τ)) (jobqSysNew data) m s' := by
  have hkept := Traced.jobqNew_keeps pthread s hc
  rw [hr] at hkept
  obtain ⟨hcounted, hmade⟩ := hkept
  obtain ⟨hp, hpending, hactive⟩ := hmade m rfl
  have hacc := (Traced.jobqNew_framed pthread data).ran hr ((zero_add R).symm ▸ hs)
  refine ⟨.nil, hp, hcounted, ⟨R, hacc⟩, ?_, 0, ?_, ?_⟩
  · rw [hpending]
    decide
  · rw [hpending]
    rfl
  · rw [JobqHeap.iters_length, hpending, hactive]
    rfl

theorem JobqHeapInv.run {a : JobqAgent threads C} {task : τ} {alloc : Option IterPtr}
    {pending : ListHeader} {events : List (JobqEvent threads τ)} (h : JobqHeapInv data tr sys m s)
    (hr : (Traced.listIterAcquire (m.queue .pending)).run s = ((alloc, pending), s'))
    (hs : Guarded JobqStep (fun s l => s.Contract l.1) sys (.call a (.run task alloc), events)
      sys') : JobqHeapInv data ((.call a (.run task alloc), events) :: tr) sys'
      (m.setQueue .pending pending) s' := by
  obtain ⟨hperm, hlen⟩ := hs.1.moves.run_iters
  obtain ⟨hcounted, htaken⟩ := Traced.listIterAcquire_set (h.pooled .pending) h.counted hr
  obtain ⟨R, hacc⟩ := h.account
  obtain ⟨k, hk, hheld⟩ := h.sets
  have hret := Traced.listIterAcquire_returns (m.queue .pending) s
  rw [hr] at hret
  have hpooled : (m.setQueue .pending pending).Pooled := h.pooled.setQueue .pending hret.1
  have hq : sys'.q.iters.length = alloc.toList.length + sys.q.iters.length := by
    rw [hperm.length_eq, List.length_append]
  have hspare := h.spare
  have haccepted : (acceptedJobs (jobqHistory ((.call a (.run task alloc), events) :: tr))).length =
      (acceptedJobs (jobqHistory tr)).length + alloc.toList.length := by
    rw [jobqHistory_cons, acceptedJobs_append, List.length_append, hlen]
  have hsame : (m.setQueue .pending pending).holds sys'.q =
      (m.setQueue .pending pending).held (alloc.toList ++ sys.q.pending) sys.q.active := by
    apply JobqHeap.held_perm hpooled
    rw [List.append_assoc]
    exact hperm
  rw [JobqHeap.iters_length] at hheld
  refine ⟨h.reach.snoc hs, hpooled, hcounted, ⟨R, ?_⟩, ?_, ?_⟩
  · rw [hsame]
    exact JobqHeap.held_acquire hr hacc
  · rw [JobqHeap.setQueue_self]
    rcases htaken with ⟨-, rfl⟩ | ⟨iter, -, he | ⟨-, he⟩⟩
    · exact hspare
    · omega
    · omega
  · rw [JobqHeap.setQueue_self, haccepted, JobqHeap.iters_pending, hq]
    rcases htaken with ⟨rfl, rfl⟩ | ⟨iter, rfl, he | ⟨hnil, he⟩⟩
    · refine ⟨k, ?_, ?_⟩
      · simpa using hk
      · simpa using hheld
    · refine ⟨k, ?_, ?_⟩
      · simp only [Option.toList_some, List.length_singleton]
        omega
      · simp only [Option.toList_some, List.length_singleton]
        omega
    · -- the list had none left, so it has one of a new set less
      rw [hnil, List.length_nil] at hk hheld
      refine ⟨k + 1, ?_, ?_⟩
      · simp only [Option.toList_some, List.length_singleton, Nat.mul_succ]
        omega
      · simp only [Option.toList_some, List.length_singleton, Nat.mul_succ]
        omega

theorem JobqHeapInv.completes {w : Fin threads} {iter : IterPtr} {task : τ} {active : ListHeader}
    {events : List (JobqEvent threads τ)} (h : JobqHeapInv data tr sys m s)
    (hw : sys.worker w = .returned iter task)
    (hr : (Traced.listIterRelease iter (m.queue .active)).run s = (active, s'))
    (hs : Guarded JobqStep (fun s l => s.Contract l.1) sys (.work w, events) sys') :
    JobqHeapInv data ((.work w, events) :: tr) sys' (m.setQueue .active active) s' := by
  obtain ⟨jobs, hlog⟩ := h.reach.log
  obtain ⟨hperm, hnone⟩ := hs.1.moves.done_iters hlog hw
  obtain ⟨R, hacc⟩ := h.account
  obtain ⟨k, hk, hheld⟩ := h.sets
  have hsame : m.holds sys.q = m.held sys'.q.pending (iter :: sys'.q.active) :=
    JobqHeap.held_perm h.pooled (hperm.trans List.perm_middle.symm)
  rw [hsame] at hacc
  have hran := JobqHeap.held_release hr hacc
  rw [Traced.listIterRelease, if_neg (h.pooled .active)] at hr
  cases hr
  have hpending : (m.setQueue .active { m.queue .active with
      iters := iter :: (m.queue .active).iters }).queue .pending = m.queue .pending := by
    simp
  refine ⟨h.reach.snoc hs, h.pooled.setQueue .active rfl, h.counted, ⟨R, hran⟩, ?_, k, ?_, ?_⟩
  · rw [hpending]
    exact h.spare
  · rw [hpending, jobqHistory_cons, acceptedJobs_append, hnone, List.append_nil]
    exact hk
  · rw [JobqHeap.iters_length, hperm.length_eq, List.length_cons] at hheld
    rw [JobqHeap.iters_active, List.length_cons]
    omega

theorem JobqHeapReach.inv (h : JobqHeapReach data tr sys m s) : JobqHeapInv data tr sys m s := by
  induction h with
  | new pthread hs hc hr => exact .new hs hc hr
  | run _ hr hs ih => exact ih.run hr hs
  | completes _ hw hr hs ih => exact ih.completes hw hr hs
  | @step tr sys sys' m s l _ hrun hdone hs _ ih =>
    obtain ⟨hperm, hnone⟩ := hs.1.moves.iters hrun hdone
    obtain ⟨R, hacc⟩ := ih.account
    obtain ⟨k, hk, hheld⟩ := ih.sets
    refine ⟨ih.reach.snoc hs, ih.pooled, ih.counted, ⟨R, ?_⟩, ih.spare, k, ?_, ?_⟩
    · rw [JobqHeap.holds, JobqHeap.held_perm ih.pooled hperm]
      exact hacc
    · rw [jobqHistory_cons, acceptedJobs_append, hnone, List.append_nil]
      exact hk
    · rw [JobqHeap.iters_length, hperm.length_eq, ← JobqHeap.iters_length]
      exact hheld
  | others _ hs hc ih => exact ⟨ih.reach, ih.pooled, hc, ⟨_, hs⟩, ih.spare, ih.sets⟩

/-- A jobq has a set of iters for every 32 jobs that it ever accepted, the last set in part, and
gives back nothing of it before cc_jobq_delete, which gives back all. -/
theorem jobq_memory (h : JobqHeapReach data tr sys m s) :
    (m.iters sys.q).length = listSetSize *
        (((acceptedJobs (jobqHistory tr)).length + (listSetSize - 1)) / listSetSize) ∧
      (∃ R, HeapAccount s (m.holds sys.q + R)) ∧
      ∀ R, HeapAccount s (m.holds sys.q + R) →
        HeapAccount ((Traced.jobqDelete sys.q m).run s).2 R := by
  have hi := h.inv
  obtain ⟨k, hk, hheld⟩ := hi.sets
  have hspare := hi.spare
  refine ⟨?_, hi.account, ?_⟩
  · have hsets :
        ((acceptedJobs (jobqHistory tr)).length + (listSetSize - 1)) / listSetSize = k := by
      simp only [listSetSize] at hk hspare ⊢
      omega
    rw [hheld, hsets]
  · intro R hacc
    have hdelete := Traced.jobqDelete_framed sys.q m s R hacc
    rwa [zero_add] at hdelete

/-- A new jobq, where no allocation fails. -/
def firstJobq : Option JobqHeap × TracedHeap :=
  (Traced.jobqNew ⟨true, true, true, true⟩).run (TracedHeap.new (fun _ => true) fun _ _ => none)

/-- The one job of a jobq is completed, and its set of iters stays. -/
theorem jobq_memory_completed : ∃ (tr : List (JobqLabel 1 Unit Nat)) (sys : JobqSys 1 Unit Nat)
    (m : JobqHeap) (s : TracedHeap), JobqHeapReach (fun _ => 0) tr sys m s ∧
      jobqHistory tr = [.accepted 7, .taken 0 7, .begun 0 7, .ended 0 7, .completed 0 7] ∧
      sys.q.iters = [] ∧ (m.iters sys.q).length = 32 ∧
      ∃ R, HeapAccount s (m.holds sys.q + R) ∧
        HeapAccount ((Traced.jobqDelete sys.q m).run s).2 R := by
  have hiter : (firstJobq.1.map fun m =>
      ((Traced.listIterAcquire (m.queue .pending)).run firstJobq.2).1.1) =
        some (some ⟨4, 1023⟩) := by decide +kernel
  obtain ⟨m, hm, halloc⟩ := Option.map_eq_some_iff.mp hiter
  have hnew : JobqHeapReach (fun _ => 0) [] (jobqSysNew fun _ => 0 : JobqSys 1 Unit Nat) m
      firstJobq.2 :=
    .new ⟨true, true, true, true⟩ (heapAccount_new _ _) rfl (Prod.ext hm rfl)
  cases hr : (Traced.listIterAcquire (m.queue .pending)).run firstJobq.2 with
  | mk r s =>
  obtain ⟨alloc, pending⟩ := r
  rw [hr] at halloc
  obtain rfl : alloc = some ⟨4, 1023⟩ := halloc
  have hrun : JobqHeapReach (fun _ => 0)
      [(.call (.client ()) (.run 7 (some ⟨4, 1023⟩)), [.accepted 7])] _ _ s :=
    .run hnew hr ⟨rfl, fun _ => rfl⟩
  have htaken := hrun.step (l := (.work 0, [.taken 0 7])) (by simp)
    (by rintro w iter task ⟨⟩ ⟨⟩) ⟨rfl, trivial⟩ (by rintro ⟨⟩ ⟨⟩)
  have hbegun := htaken.step (l := (.begin 0, [.begun 0 7])) (by simp) (by simp) ⟨rfl, trivial⟩
    (by rintro ⟨⟩ ⟨⟩)
  have hended := hbegun.step (l := (.finish 0, [.ended 0 7])) (by simp) (by simp) ⟨rfl, trivial⟩
    (by rintro ⟨⟩ ⟨⟩)
  have hdone : JobqHeapReach (fun _ => 0) ((.work 0, [.completed 0 7]) :: _) _ _ _ :=
    .completes hended (show _ = JobqWorker.returned ⟨4, 1023⟩ 7 from rfl) Prod.mk.eta.symm
      ⟨rfl, trivial⟩
  obtain ⟨hlength, ⟨R, hacc⟩, hdelete⟩ := jobq_memory hdone
  exact ⟨_, _, _, _, hdone, rfl, rfl, hlength, R, hacc, hdelete R hacc⟩

end Inv

end LibCC
