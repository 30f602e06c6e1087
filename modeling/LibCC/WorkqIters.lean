import LibCC.WorkqFrames

/-! The iters of the nodes of a workq. Only cc_workq_run of a task that has no
node adds one; all other steps move or drop nodes. -/

namespace LibCC

open SequenceFamily

section Iters

variable {τ : Type} [DecidableEq τ] {q q' : Workq τ}

omit [DecidableEq τ] in
/-- The iters of the nodes of a workq. -/
def Workq.iters (q : Workq τ) : List IterPtr := q.pending ++ q.active ++ q.complete

omit [DecidableEq τ] in
theorem mem_iters {iter : IterPtr} : iter ∈ q.iters ↔ ∃ k, iter ∈ q.queues.seq k := by
  rw [Workq.iters, List.mem_append, List.mem_append, or_assoc]
  constructor
  · rintro (h | h | h)
    · exact ⟨.pending, h⟩
    · exact ⟨.active, h⟩
    · exact ⟨.complete, h⟩
  · rintro ⟨_ | _ | _, h⟩
    · exact .inl h
    · exact .inr (.inl h)
    · exact .inr (.inr h)

omit [DecidableEq τ] in
theorem WorkqInv.iters_nodup (h : WorkqInv q) : q.iters.Nodup := by
  have hnd := h.separated.nodup_flatMap
    (show [WorkqQueue.pending, .active, .complete].Nodup by decide)
  simpa [Workq.iters, Workq.pending, Workq.active, Workq.complete] using hnd

omit [DecidableEq τ] in
theorem Unchanged.iters (h : Unchanged q q') : q'.iters = q.iters := by
  rw [Workq.iters, Workq.pending, Workq.active, Workq.complete, h.seq]
  rfl

theorem withNode_iters {a b : List IterPtr} (hab : q.pending = a ++ b) (iter : IterPtr) (task : τ)
    (priority : Int) :
    (q.withNode a b iter task priority).iters.Perm (iter :: q.iters) := by
  have hp : (q.withNode a b iter task priority).pending.Perm (iter :: q.pending) := by
    rw [hab]
    show (Function.update q.queues.seq .pending (a ++ iter :: b) .pending).Perm _
    rw [Function.update_self]
    exact List.perm_middle
  have ha : (q.withNode a b iter task priority).active = q.active := by
    simp [Workq.active]
  have hc : (q.withNode a b iter task priority).complete = q.complete := by
    simp [Workq.complete]
  rw [Workq.iters, ha, hc]
  exact (hp.append_right _).append_right _

/-- No node is new. -/
def Shrinks (q q' : Workq τ) : Prop := ∀ iter ∈ q'.iters, iter ∈ q.iters

omit [DecidableEq τ] in
theorem Evolves.shrinks {drop : IterPtr → Prop} {events : List (WorkqEvent τ)}
    (he : Evolves drop q events q') (h : WorkqInv q) (hn : q'.nextNode = q.nextNode) :
    Shrinks q q' := by
  intro iter hi
  obtain ⟨k, hk⟩ := mem_iters.mp hi
  obtain ⟨n', hn', -, hm'⟩ := he.inv.queued k iter hk
  have hlt := (he.inv.allocated _ n' hn').1
  rw [hn] at hlt
  obtain ⟨n, iter', -, -, ht, hm, hm''⟩ := he.origin h hn' hlt
  rw [ht, hm''] at hm'
  cases hm'
  obtain ⟨k', -, hk', -⟩ := h.mapped _ _ hm
  exact mem_iters.mpr ⟨k', hk'⟩

omit [DecidableEq τ] in
theorem shift_shrinks (h : WorkqInv q) {k k' : WorkqQueue} (hk : k ≠ k') {iter : IterPtr}
    (hi : iter ∈ q.queues.seq k) (status : WorkqStatus) : Shrinks q (q.shift k k' iter status) := by
  intro x hx
  obtain ⟨j, hj⟩ := mem_iters.mp hx
  rcases (h.mem_shift hk hi status j x).mp hj with ⟨hj, -⟩ | ⟨-, rfl⟩
  · exact mem_iters.mpr ⟨j, hj⟩
  · exact mem_iters.mpr ⟨k, hi⟩

omit [DecidableEq τ] in
theorem Shrinks.trans {q'' : Workq τ} (h : Shrinks q q') (h' : Shrinks q' q'') : Shrinks q q'' :=
  fun iter hi => h iter (h' iter hi)

theorem WaitStep.nextNode {drop : IterPtr → Prop} {freed : Prop} {r : WorkqSection τ}
    (h : WaitStep drop freed q r) : r.q.nextNode = q.nextNode := by
  cases h with
  | absent => rfl
  | bereft => rfl
  | looped _ hw _ _ _ => cases hw <;> rfl

theorem finishSection_nextNode (h : WorkqInv q) :
    (workqFinishSection q).q.nextNode = q.nextNode := by
  simp only [workqFinishSection, workqFinish_eq]
  exact (workqFlushLocked_spec h).nextNode

theorem RunOutcome.nextNode {task : τ} {priority : Int} {events : List (WorkqEvent τ)}
    {broadcast : Bool} (h : RunOutcome task priority q events broadcast q')
    (hm : q.mapTask task ≠ none) : q'.nextNode = q.nextNode := by
  cases h with
  | failed hn => exact absurd hn hm
  | created hn => exact absurd hn hm
  | _ => rfl

/-- The call is cc_workq_run of a task that has no node. -/
def WorkqCall.Submits (q : Workq τ) : WorkqCall τ → Prop
  | run task _ _ => q.mapTask task = none
  | _ => False

theorem callSection_nextNode (h : WorkqInv q) {op : WorkqCall τ} {r : WorkqSection τ}
    (hr : workqCallSection q op = some r) (hop : ¬ op.Submits q) :
    r.q.nextNode = q.nextNode := by
  cases op with
  | run task priority alloc =>
    exact (callSection_run h hr).1.nextNode hop
  | wait | cancel => exact (callSection_waits h hr rfl).nextNode
  | purge =>
    obtain rfl := Option.some.inj hr
    exact (workqPurge_spec h).nextNode
  | flush =>
    obtain rfl := Option.some.inj hr
    exact (workqFlushLocked_spec h).nextNode
  | finish =>
    obtain rfl := Option.some.inj hr
    exact finishSection_nextNode h
  | _ =>
    obtain rfl := Option.some.inj hr
    rfl

theorem resumeSection_nextNode (h : WorkqInv q) {pc : WorkqClient τ} {joined : Bool}
    {r : WorkqSection τ} (hr : workqResumeSection joined q pc = some r)
    (hs : ∀ task iter node n, pc.sleepsOn = some (task, iter, node) → q.node node = some n →
      n.task = task ∧ q.mapTask task = some iter) : r.q.nextNode = q.nextNode := by
  cases pc with
  | waitAsleep | cancelAsleep =>
    exact (resumeSection_waits h hr hs (by simp [WorkqClient.sleepsOn])).nextNode
  | finishAsleep awake =>
    cases awake with
    | false => simp [workqResumeSection] at hr
    | true =>
      obtain rfl := Option.some.inj hr
      exact finishSection_nextNode h
  | resetAsleep purgeId awake =>
    cases awake with
    | false => simp [workqResumeSection] at hr
    | true =>
      obtain rfl := Option.some.inj hr
      rfl
  | resetPurge purgeId blocking =>
    obtain rfl := Option.some.inj hr
    exact (workqPurge_spec h).nextNode
  | resetPurgeComplete purgeId =>
    obtain rfl := Option.some.inj hr
    exact (workqPurge_spec h).nextNode
  | deletePurge =>
    obtain rfl := Option.some.inj hr
    exact (workqPurge_spec h).nextNode
  | deleteJoin =>
    cases joined with
    | false => simp [workqResumeSection] at hr
    | true =>
      obtain rfl := Option.some.inj hr
      rfl
  | idle => simp [workqResumeSection] at hr
  | unlocked node => simp [workqResumeSection] at hr
  | deleted => simp [workqResumeSection] at hr
  | fault => simp [workqResumeSection] at hr
  | _ =>
    obtain rfl := Option.some.inj hr
    rfl

end Iters

section Steps

variable {threads : Nat} {C τ : Type} [DecidableEq C] [DecidableEq τ]
  {s s' : WorkqSys threads C τ}

omit [DecidableEq C] [DecidableEq τ] in
theorem WorkqSys.Ready.shrinks (h : WorkqSysInv s) {w : Fin threads} (hr : s.Ready w s') :
    Shrinks s.q s'.q := by
  cases hr with
  | enter => exact fun _ hi => hi
  | @report iter node ret hw =>
    obtain ⟨ha, hd⟩ := h.holder w iter node (by rw [hw]; rfl)
    have hq : (s.report w iter node ret).q =
        s.q.shift .active .complete iter (workqRetStatus ret) := workqReport_eq hd ret
    rw [hq]
    exact shift_shrinks h.inv (by simp) ha _

omit [DecidableEq C] [DecidableEq τ] in
theorem thread_shrinks (h : WorkqInv s.q) (w : Fin threads) : Shrinks s.q (s.thread w).q := by
  rcases workqThreadSection_cases s.q with ⟨hr, -⟩ | ⟨hr, -⟩ | ⟨iter, rest, hp, -, hr⟩
  · simp only [WorkqSys.thread, hr]
    exact fun _ hi => hi
  · simp only [WorkqSys.thread, hr]
    exact fun _ hi => hi
  · simp only [WorkqSys.thread, hr]
    have hi : iter ∈ s.q.pending := by simp [hp]
    exact shift_shrinks h (by simp) hi _

/-- The step is cc_workq_run of a task that has no node. -/
def WorkqMove.Submits (s : WorkqSys threads C τ) : WorkqMove threads C τ → Prop
  | .call _ op => op.Submits s.q
  | _ => False

theorem WorkqStep.shrinks (h : WorkqSysInv s) {l : WorkqLabel threads C τ}
    (hs : WorkqStep s l s') (hl : ¬ l.1.Submits s) : Shrinks s.q s'.q := by
  obtain ⟨m, events⟩ := l
  change s.step m = some (events, s') at hs
  cases m with
  | call c op =>
    obtain ⟨-, r, hr, -, rfl⟩ := step_call hs
    exact (callSection_spec h.inv hr).evolves.shrinks h.inv (callSection_nextNode h.inv hr hl)
  | resume c =>
    obtain ⟨r, hr, -, rfl⟩ := step_resume hs
    have hspec := resumeSection_spec h.inv hr (h.sleeper c)
    exact hspec.evolves.shrinks h.inv (resumeSection_nextNode h.inv hr (h.sleeper c))
  | read c garbage =>
    obtain ⟨node, hc, -, rfl⟩ := step_read hs
    exact fun _ hi => hi
  | wakeClient c =>
    obtain ⟨-, rfl⟩ := step_wakeClient hs
    exact fun _ hi => hi
  | wakeWorker w =>
    obtain ⟨-, rfl⟩ := step_wakeWorker hs
    exact fun _ hi => hi
  | work w =>
    obtain ⟨-, s₁, hr, rfl⟩ := step_work hs
    exact (hr.shrinks h).trans (thread_shrinks (hr.spec h).1.inv w)
  | begin w =>
    obtain ⟨iter, node, hw, -, rfl⟩ := step_begin hs
    exact fun _ hi => hi
  | finish w ret =>
    obtain ⟨iter, node, hw, -, rfl⟩ := step_finish hs
    exact fun _ hi => hi

end Steps

end LibCC
