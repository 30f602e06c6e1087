import LibCC.WorkqDisposal

/-! Two results about runs that end in cc_workq_delete: one client that makes
any calls, and one client that resets, purges and deletes while others submit. -/

namespace LibCC

open LabelledRun SequenceFamily

section One

variable {threads : Nat} {τ : Type} [DecidableEq τ] {data : IterPtr → Nat}
  {tr : List (WorkqLabel threads Unit τ)} {s s' : WorkqSys threads Unit τ}

/-- With one client no pending node has the mark when cc_workq_delete purges. -/
theorem WorkqReach.purgesAll (h : WorkqReach data tr s) (m : WorkqMove threads Unit τ) :
    m.purgesAll s = true := by
  cases m with
  | resume c =>
    by_cases hc : s.client () = .deletePurge
    · have hph := h.phase
      rw [hc] at hph
      simp only [WorkqMove.purgesAll, Bool.or_eq_true, List.all_eq_true]
      refine .inr fun iter hi => ?_
      obtain ⟨n, hn, hk, -⟩ := h.inv.inv.queued .pending iter hi
      have hne := hph.1 _ n hn (home_eq_pending.mp hk)
      simpa [hn] using hne
    · simp [WorkqMove.purgesAll, hc]
  | _ => rfl

theorem one_disposing
    (h : Run (Guarded WorkqStep fun s l => l.1.readsInTime s = true) (workqSysNew data) tr s) :
    DisposingReach () data tr s := by
  have hh := h.restrict (fun s l => l.1.disposes () s = true) ?_
  · exact hh.mono fun s l s' hs => ⟨hs.1.1, hs.2⟩
  · intro tr s l s' hr hs
    have hall := WorkqReach.purgesAll hr.unguard l.1
    have hsub : l.1.submitsTo () s = true := by
      cases l.1 <;> simp [WorkqMove.submitsTo]
    simp [WorkqMove.disposes, hall, hsub, hs.2]

/-- When no status is read too late, every node that one client has created
is disposed of once, and the queues and map_task are empty when they are
destroyed. -/
theorem workq_disposed_once
    (h : Run (Guarded WorkqStep fun s l => l.1.readsInTime s = true) (workqSysNew data) tr s)
    (hm : (s.client ()).purged = true) :
    (∀ k, s.q.queues.seq k = []) ∧ (∀ task, s.q.mapTask task = none) ∧
    ∀ node task, .created node task ∈ history tr →
      ∃ status, DisposedOnce node task status (history tr) := by
  have hd := one_disposing h
  obtain ⟨hseq, hmap, -⟩ := hd.empty hm
  exact ⟨hseq, hmap, fun node task hc => hd.disposed hm hc⟩

end One

def workqDeleteCompleted : List (WorkqMove 1 Unit Nat) :=
  [.call () (.run 1 0 (.success ⟨0, 0⟩)), .work 0, .begin 0, .finish 0 true, .call () .delete,
    .work 0, .resume (), .resume (), .resume (), .resume ()]

theorem workq_disposed_once_completed :
    ∃ status, DisposedOnce 0 1 status
      (history ((workqExec (workqSysNew (fun _ => 0)) workqDeleteCompleted).get (by decide)).1) :=
  (workq_disposed_once
    (guarded_play (fun _ => 0) (fun s m => m.readsInTime s) workqDeleteCompleted (by decide)
      (by decide)) (by decide)).2.2 0 1 (by decide)

/-- A worker completes the task between the unlocking of the mutex by
cc_workq_wait and its read of the status. -/
def workqReadLate : List (WorkqMove 1 Unit Nat) :=
  [.call () (.run 1 0 (.success ⟨0, 0⟩)), .work 0, .begin 0, .call () (.wait 1 false),
    .finish 0 true, .work 0, .read () .error, .call () .delete, .work 0, .resume (), .resume (),
    .resume (), .resume ()]

/-- The caller is given the status COMPLETE, and so is finish_fn. -/
theorem workq_disposed_twice :
    ¬ ∀ (tr : List (WorkqLabel 1 Unit Nat)) (s : WorkqSys 1 Unit Nat),
      WorkqReach (fun _ => 0) tr s → s.client () = .deleted → ∀ node task,
        .created node task ∈ history tr → ∃ status, disposals node (history tr) = [status] := by
  intro h
  have hr := WorkqReach.play (fun _ => 0) workqReadLate (by decide)
  obtain ⟨status, hs⟩ := h _ _ hr (by decide) 0 1 (by decide)
  have htwice : disposals 0 (history ((workqExec (workqSysNew (fun _ => 0))
      workqReadLate).get (by decide)).1) = [.complete, .complete] := by decide
  rw [htwice] at hs
  simp at hs

section Submit

variable {threads : Nat} {C τ : Type} [DecidableEq C] [DecidableEq τ] {data : IterPtr → Nat}
  {tr : List (WorkqLabel threads C τ)} {s s' : WorkqSys threads C τ} {main : C}

/-- The calls of the thread that tends the workq. -/
def WorkqCall.tends : WorkqCall τ → Bool
  | purge | flush | finish | reset _ | delete => true
  | _ => false

/-- The thread `main` tends the workq and any thread may submit a task, but
none once `main` has called cc_workq_delete. -/
def WorkqMove.submits (main : C) (s : WorkqSys threads C τ) : WorkqMove threads C τ → Bool
  | .call c op => c = main && op.tends || op.isRun && !(s.client main).deleting
  | _ => true

/-- The thread is in no call of cc_workq_wait or cc_workq_cancel. -/
def WorkqClient.tending : WorkqClient τ → Bool
  | waitAsleep _ _ _ _ | cancelAsleep _ _ _ _ | unlocked _ | fault => false
  | _ => true

theorem call_tending {q : Workq τ} (h : WorkqInv q) {op : WorkqCall τ} {r : WorkqSection τ}
    (hr : workqCallSection q op = some r) (hop : op.tends = true ∨ op.isRun = true) :
    r.pc.tending = true := by
  rcases hop with hop | hop
  · cases op with
    | finish =>
      obtain rfl := Option.some.inj hr
      simp only [workqFinishSection]
      split_ifs <;> rfl
    | purge | flush | reset | delete =>
      obtain rfl := Option.some.inj hr
      rfl
    | _ => simp [WorkqCall.tends] at hop
  · rw [run_idle h hr hop]
    rfl

theorem resume_tending {q : Workq τ} {pc : WorkqClient τ} {joined : Bool} {r : WorkqSection τ}
    (hr : workqResumeSection joined q pc = some r) (hpc : pc.tending = true) :
    r.pc.tending = true := by
  cases pc with
  | finishAsleep awake =>
    cases awake with
    | false => simp [workqResumeSection] at hr
    | true =>
      obtain rfl := Option.some.inj hr
      simp only [workqFinishSection]
      split_ifs <;> rfl
  | resetAsleep purgeId awake =>
    cases awake with
    | false => simp [workqResumeSection] at hr
    | true =>
      obtain rfl := Option.some.inj hr
      simp only [workqResetSection]
      split_ifs <;> rfl
  | resetActive =>
    obtain rfl := Option.some.inj hr
    simp only [workqResetSection]
    split_ifs <;> rfl
  | resetPurge purgeId blocking =>
    obtain rfl := Option.some.inj hr
    cases blocking <;> rfl
  | deleteJoin =>
    cases joined with
    | false => simp [workqResumeSection] at hr
    | true =>
      obtain rfl := Option.some.inj hr
      rfl
  | resetSaved | resetPurgeComplete | resetRestore | deleteMark | deletePurge | deleteLists =>
    obtain rfl := Option.some.inj hr
    rfl
  | idle | deleted => simp [workqResumeSection] at hr
  | _ => simp [WorkqClient.tending] at hpc

omit [DecidableEq τ] in
theorem tending_signal {pc : WorkqClient τ} (h : pc.tending = true) : pc.signal.tending = true := by
  cases pc <;> exact h

theorem tending_step (hinv : WorkqInv s.q) (h : ∀ c, (s.client c).tending = true)
    {l : WorkqLabel threads C τ} (hs : WorkqStep s l s') (hsub : l.1.submits main s = true)
    (c : C) :
    (s'.client c).tending = true := by
  obtain ⟨m, events⟩ := l
  change s.step m = some (events, s') at hs
  have hset : ∀ c' pc, pc.tending = true → ((s.setClient c' pc).client c).tending = true := by
    intro c' pc hpc
    by_cases he : c = c'
    · subst he
      simpa [WorkqSys.setClient] using hpc
    · simpa [WorkqSys.setClient, he] using h c
  cases m with
  | call c' op =>
    obtain ⟨-, r, hr, -, rfl⟩ := step_call hs
    by_cases he : c = c'
    · subst he
      rw [section_client_self]
      refine call_tending hinv hr ?_
      have hsub' : c = main ∧ op.tends = true ∨
          op.isRun = true ∧ (s.client main).deleting = false := by
        simpa [WorkqMove.submits] using hsub
      exact hsub'.imp (fun hh => hh.2) (fun hh => hh.1)
    · rw [section_client_of_ne he]
      exact h c
  | resume c' =>
    obtain ⟨r, hr, -, rfl⟩ := step_resume hs
    by_cases he : c = c'
    · subst he
      rw [section_client_self]
      exact resume_tending hr (h c)
    · rw [section_client_of_ne he]
      exact h c
  | read c' garbage =>
    obtain ⟨node, -, -, rfl⟩ := step_read hs
    exact hset c' _ rfl
  | wakeClient c' =>
    obtain ⟨-, rfl⟩ := step_wakeClient hs
    exact hset c' _ (tending_signal (h c'))
  | wakeWorker w =>
    obtain ⟨-, rfl⟩ := step_wakeWorker hs
    exact h c
  | work w =>
    obtain ⟨-, s₁, hr, rfl⟩ := step_work hs
    cases hr with
    | enter => exact h c
    | report => exact tending_signal (h c)
  | begin w =>
    obtain ⟨iter, node, hw, -, rfl⟩ := step_begin hs
    exact h c
  | finish w ret =>
    obtain ⟨iter, node, hw, -, rfl⟩ := step_finish hs
    exact h c

/-- A run in which others submit tasks while `main` tends the workq, and
cc_workq_delete finds no pending node with its mark. -/
abbrev SubmittingReach (main : C) (data : IterPtr → Nat) :
    List (WorkqLabel threads C τ) → WorkqSys threads C τ → Prop :=
  Run (Guarded WorkqStep fun s l => (l.1.submits main s && l.1.purgesAll s) = true)
    (workqSysNew data)

theorem SubmittingReach.tending (h : SubmittingReach main data tr s) (c : C) :
    (s.client c).tending = true := by
  refine h.invariant (P := fun _ s => ∀ c, (s.client c).tending = true) ?_ ?_ c
  · exact fun _ => rfl
  · intro tr s l s' hr ht hs
    exact tending_step (WorkqReach.inv hr.unguard).inv ht hs.1 (Bool.and_eq_true_iff.mp hs.2).1

theorem submitting_disposing (h : SubmittingReach main data tr s) :
    DisposingReach main data tr s := by
  have hh := h.restrict (fun s l => l.1.disposes main s = true) ?_
  · exact hh.mono fun s l s' hs => ⟨hs.1.1, hs.2⟩
  · intro tr s l s' hr hs
    obtain ⟨hsub, hall⟩ := Bool.and_eq_true_iff.mp hs.2
    have hmain : l.1.submitsTo main s = true := by
      cases hl : l.1 with
      | call c op =>
        have hsub' : c = main ∧ op.tends = true ∨
            op.isRun = true ∧ (s.client main).deleting = false := by
          simpa [WorkqMove.submits, hl] using hsub
        rcases hsub' with ⟨hc, -⟩ | ⟨hop, hdel⟩
        · simp [WorkqMove.submitsTo, hc]
        · simp [WorkqMove.submitsTo, hop, hdel]
      | _ => rfl
    have hread : l.1.readsInTime s = true := by
      cases hl : l.1 with
      | read c garbage =>
        have ht := SubmittingReach.tending hr c
        cases hc : s.client c with
        | unlocked node => simp [hc, WorkqClient.tending] at ht
        | _ => simp [WorkqMove.readsInTime, hc]
      | _ => rfl
    simp [WorkqMove.disposes, hmain, hread, hall]

/-- A task that is submitted at any time is disposed of once, when
cc_workq_delete finds no pending node with its mark. -/
theorem workq_submit_not_lost (h : SubmittingReach main data tr s)
    (hm : (s.client main).purged = true) :
    s.q.pending = [] ∧ s.q.complete = [] ∧
    ∀ node task, .created node task ∈ history tr →
      ∃ status, DisposedOnce node task status (history tr) := by
  have hd := submitting_disposing h
  obtain ⟨hseq, -, -⟩ := hd.empty hm
  exact ⟨hseq .pending, hseq .complete, fun node task hc => hd.disposed hm hc⟩

end Submit

def workqSubmitReset : List (WorkqMove 1 Bool Nat) :=
  [.call false (.run 1 0 (.success ⟨0, 0⟩)), .call true (.reset false), .resume true, .resume true,
    .resume true, .call true .delete, .work 0, .resume true, .resume true, .resume true,
    .resume true]

theorem workq_submit_not_lost_before :
    ∃ status, DisposedOnce 0 1 status
      (history ((workqExec (workqSysNew (fun _ => 0)) workqSubmitReset).get (by decide)).1) :=
  (workq_submit_not_lost
    (guarded_play (fun _ => 0) (fun s m => m.submits true s && m.purgesAll s) workqSubmitReset
      (by decide) (by decide)) (by decide)).2.2 0 1 (by decide)

/-- A task is submitted after cc_workq_reset has set purge_id to its mark. -/
def workqSubmitInReset : List (WorkqMove 1 Bool Nat) :=
  [.call true (.reset false), .resume true, .call false (.run 1 0 (.success ⟨0, 0⟩)), .resume true,
    .resume true, .call true .delete, .work 0, .resume true, .resume true, .resume true,
    .resume true]

/-- The node is still pending when cc_workq_delete destroys the lists. -/
theorem workq_submit_lost :
    ¬ ∀ (tr : List (WorkqLabel 1 Bool Nat)) (s : WorkqSys 1 Bool Nat),
      Run (Guarded WorkqStep fun s l => l.1.submits true s = true) (workqSysNew (fun _ => 0)) tr s →
      s.client true = .deleted → s.q.pending = [] ∧ s.q.complete = [] ∧
        ∀ node task, .created node task ∈ history tr →
          ∃ status, disposals node (history tr) = [status] := by
  intro h
  have hr := guarded_play (fun _ => 0) (fun s m => m.submits true s) workqSubmitInReset
    (by decide) (by decide)
  exact absurd (h _ _ hr (by decide)).1 (by decide)

end LibCC
