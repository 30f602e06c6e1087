import LibCC.WorkqPurges

/-! How nodes end. One thread calls cc_workq_delete; other threads may submit
tasks until it does. A status that is read after the mutex is unlocked can
report a node that stays queued, and cc_workq_delete keeps a pending node
that was submitted while cc_workq_reset had its mark in place. -/

namespace LibCC

open LabelledRun SequenceFamily

variable {threads : Nat} {C τ : Type} [DecidableEq C] [DecidableEq τ]

section Endings

omit [DecidableEq τ]

/-- The final status of a node that finish_fn or a caller is given. -/
def WorkqEvent.ending (node : Nat) : WorkqEvent τ → Option WorkqStatus
  | .finished n _ status | .returned n status => if n = node then some status else none
  | .peeked n status =>
    if n = node ∧ (status = .complete ∨ status = .failure) then some status else none
  | _ => none

def disposals (node : Nat) (events : List (WorkqEvent τ)) : List WorkqStatus :=
  events.filterMap (WorkqEvent.ending node)

/-- A final status of a node that is still queued. -/
def WorkqEvent.late : WorkqEvent τ → Bool
  | .peeked _ status => status = .complete || status = .failure
  | _ => false

def NodeEvent.ending : NodeEvent → Option WorkqStatus
  | disposed status => some status
  | _ => none

theorem disposals_eq (node : Nat) {events : List (WorkqEvent τ)}
    (h : ∀ e ∈ events, e.late = false) :
    disposals node events = (nodeEvents node events).filterMap NodeEvent.ending := by
  rw [disposals, nodeEvents, List.filterMap_filterMap]
  apply List.filterMap_congr
  intro e he
  have hl := h e he
  cases e with
  | peeked n status =>
    have hs : ¬ (status = .complete ∨ status = .failure) := by simpa [WorkqEvent.late] using hl
    simp [WorkqEvent.ending, WorkqEvent.about, hs]
  | created n task => by_cases hn : n = node <;>
      simp [WorkqEvent.ending, WorkqEvent.about, NodeEvent.ending, hn]
  | started n => by_cases hn : n = node <;>
      simp [WorkqEvent.ending, WorkqEvent.about, NodeEvent.ending, hn]
  | ended n ret => by_cases hn : n = node <;>
      simp [WorkqEvent.ending, WorkqEvent.about, NodeEvent.ending, hn]
  | finished n task status => by_cases hn : n = node <;>
      simp [WorkqEvent.ending, WorkqEvent.about, NodeEvent.ending, hn]
  | returned n status => by_cases hn : n = node <;>
      simp [WorkqEvent.ending, WorkqEvent.about, NodeEvent.ending, hn]
  | result status => rfl
  | size n => rfl

end Endings

section Late

variable {q : Workq τ}

/-- No section reports a status that it has not removed or looked up. -/
def Prompt (events : List (WorkqEvent τ)) : Prop := ∀ e ∈ events, e.late = false

omit [DecidableEq τ] in
theorem Prompt.nil : Prompt ([] : List (WorkqEvent τ)) := fun _ he => absurd he List.not_mem_nil

omit [DecidableEq τ] in
theorem Prompt.append {a b : List (WorkqEvent τ)} (ha : Prompt a) (hb : Prompt b) :
    Prompt (a ++ b) :=
  fun e he => (List.mem_append.mp he).elim (ha e) (hb e)

omit [DecidableEq τ] in
theorem Prompt.single {e : WorkqEvent τ} (h : e.late = false) : Prompt [e] := by
  intro x hx
  rwa [List.mem_singleton.mp hx]

theorem dropLoop_prompt (queue : WorkqQueue) (drop : WorkqNode τ → Bool) (l : List IterPtr)
    (q : Workq τ) : Prompt (workqDropLoop queue drop l q).1 := by
  induction l generalizing q with
  | nil => exact .nil
  | cons iter l ih =>
    simp only [workqDropLoop]
    split_ifs with hd
    · refine Prompt.append ?_ (ih _)
      cases hn : q.node (q.queues.data iter) with
      | none => simpa [workqRemoveLocked, hn] using Prompt.nil
      | some n => simpa [workqRemoveLocked, hn] using Prompt.single (by rfl)
    · exact ih q

theorem finishSection_prompt (q : Workq τ) : Prompt (workqFinishSection q).events := by
  simp only [workqFinishSection, workqFinish_eq]
  exact dropLoop_prompt _ _ _ _

omit [DecidableEq τ] in
theorem waitSection_prompt (asleep : WorkqClient τ) (node : Nat) (q : Workq τ) (w : WorkqWait τ) :
    Prompt (workqWaitSection asleep node q w).events := by
  cases w with
  | done => exact .single rfl
  | _ => exact .nil

theorem WaitStep.prompt {drop : IterPtr → Prop} {freed : Prop} {r : WorkqSection τ}
    (h : WaitStep drop freed q r) : Prompt r.events := by
  cases h with
  | absent => exact .single rfl
  | _ => exact waitSection_prompt _ _ _ _

theorem RunOutcome.prompt {task : τ} {priority : Int} {events : List (WorkqEvent τ)}
    {broadcast : Bool} {q' : Workq τ} (h : RunOutcome task priority q events broadcast q') :
    Prompt events := by
  cases h with
  | created => exact Prompt.append (.single rfl) (.single rfl)
  | _ => exact .single rfl

theorem callSection_prompt (h : WorkqInv q) {op : WorkqCall τ} {r : WorkqSection τ}
    (hr : workqCallSection q op = some r) : Prompt r.events := by
  cases op with
  | run => exact (callSection_run h hr).1.prompt
  | wait | cancel => exact (callSection_waits h hr rfl).prompt
  | purge =>
    obtain rfl := Option.some.inj hr
    exact (dropLoop_prompt _ _ _ _).append (dropLoop_prompt _ _ _ _)
  | flush =>
    obtain rfl := Option.some.inj hr
    exact dropLoop_prompt _ _ _ _
  | finish =>
    obtain rfl := Option.some.inj hr
    exact finishSection_prompt q
  | status | pending =>
    obtain rfl := Option.some.inj hr
    exact .single rfl
  | reset | delete =>
    obtain rfl := Option.some.inj hr
    exact .nil

theorem resumeSection_prompt {pc : WorkqClient τ} {joined : Bool} {r : WorkqSection τ}
    (hr : workqResumeSection joined q pc = some r) : Prompt r.events := by
  cases pc with
  | waitAsleep task iter node awake | cancelAsleep task iter node awake =>
    cases awake <;> simp only [workqResumeSection, Option.some.injEq, reduceCtorEq] at hr
    subst hr
    exact waitSection_prompt _ _ _ _
  | finishAsleep awake =>
    cases awake <;> simp only [workqResumeSection, Option.some.injEq, reduceCtorEq] at hr
    subst hr
    exact finishSection_prompt q
  | resetAsleep purgeId awake =>
    cases awake <;> simp only [workqResumeSection, Option.some.injEq, reduceCtorEq] at hr
    subst hr
    exact .nil
  | resetPurge | resetPurgeComplete | deletePurge =>
    obtain rfl := Option.some.inj hr
    exact (dropLoop_prompt _ _ _ _).append (dropLoop_prompt _ _ _ _)
  | resetSaved | resetActive | resetRestore | deleteMark | deleteLists =>
    obtain rfl := Option.some.inj hr
    exact .nil
  | deleteJoin =>
    cases joined <;> simp [workqResumeSection] at hr
    subst hr
    exact .nil
  | idle | unlocked | deleted | fault => simp [workqResumeSection] at hr

end Late

section Delete

variable {s s' : WorkqSys threads C τ} {main : C}

def WorkqClient.deleting : WorkqClient τ → Bool
  | deleteJoin | deleteMark | deletePurge | deleteLists | deleted => true
  | _ => false

/-- Threads other than `main` only submit tasks, and none once it has called
cc_workq_delete. -/
def WorkqMove.submitsTo (main : C) (s : WorkqSys threads C τ) : WorkqMove threads C τ → Bool
  | .call c op => c = main || op.isRun && !(s.client main).deleting
  | _ => true

/-- A status that is read after the mutex is unlocked is still PENDING or ACTIVE. -/
def WorkqMove.readsInTime (s : WorkqSys threads C τ) : WorkqMove threads C τ → Bool
  | .read c _ =>
    match s.client c with
    | .unlocked node => (s.q.node node).any fun n => n.status = .pending || n.status = .active
    | _ => true
  | _ => true

/-- The purge of cc_workq_delete finds no pending node that has its mark. -/
def WorkqMove.purgesAll (s : WorkqSys threads C τ) : WorkqMove threads C τ → Bool
  | .resume c => s.client c ≠ .deletePurge ||
    s.q.pending.all fun iter => (s.q.peek iter).any fun n => n.purgeId ≠ workqPurgeMark
  | _ => true

def WorkqSys.Exited (s : WorkqSys threads C τ) : Prop := ∀ w, s.worker w = .exited

/-- What holds once cc_workq_delete has joined the workers, by where it stands. -/
def DeletePhase (s : WorkqSys threads C τ) : WorkqClient τ → Prop
  | .deleteMark => s.Exited
  | .deletePurge => s.Exited ∧ s.q.purgeId = workqPurgeMark
  | .deleteLists | .deleted => s.Exited ∧ ∀ k, s.q.queues.seq k = []
  | _ => True

structure MainInv (main : C) (s : WorkqSys threads C τ) : Prop where
  others : ∀ c, c ≠ main → s.client c = .idle
  phase : DeletePhase s (s.client main)

omit [DecidableEq C] [DecidableEq τ] in
theorem DeletePhase.before {pc : WorkqClient τ} (h : pc.deleting = false) : DeletePhase s pc := by
  cases pc <;> trivial

omit [DecidableEq C] [DecidableEq τ] in
theorem DeletePhase.congr {pc : WorkqClient τ} (h : DeletePhase s pc) (hq : s'.q = s.q)
    (hw : s'.worker = s.worker) : DeletePhase s' pc := by
  cases pc <;> first | trivial | simpa only [DeletePhase, WorkqSys.Exited, hq, hw] using h

omit [DecidableEq C] [DecidableEq τ] in
theorem DeletePhase.signal {pc : WorkqClient τ} (h : DeletePhase s pc) :
    DeletePhase s pc.signal := by
  cases pc <;> exact h

omit [DecidableEq C] [DecidableEq τ] in
theorem DeletePhase.running {pc : WorkqClient τ} (h : DeletePhase s pc) {w : Fin threads}
    (hw : s.worker w ≠ .exited) (s' : WorkqSys threads C τ) : DeletePhase s' pc := by
  cases pc with
  | deleteMark => exact absurd (h w) hw
  | deletePurge => exact absurd (h.1 w) hw
  | deleteLists => exact absurd (h.1 w) hw
  | deleted => exact absurd (h.1 w) hw
  | _ => trivial

omit [DecidableEq τ] in
theorem ordinary_not_deleting {pc : WorkqClient τ} (h : pc.ordinary = true) :
    pc.deleting = false := by
  cases pc <;> first | rfl | simp [WorkqClient.ordinary] at h

theorem callSection_deleting {q : Workq τ} (h : WorkqInv q) {op : WorkqCall τ} {r : WorkqSection τ}
    (hr : workqCallSection q op = some r) : r.pc = .deleteJoin ∨ r.pc.deleting = false := by
  by_cases hop : op.ordinary = true
  · exact .inr (ordinary_not_deleting (callSection_trims h hr hop).2)
  · cases op with
    | run =>
      rw [(callSection_run h hr).2]
      exact .inr rfl
    | purge | reset =>
      obtain rfl := Option.some.inj hr
      exact .inr rfl
    | delete =>
      obtain rfl := Option.some.inj hr
      exact .inl rfl
    | _ => exact absurd rfl hop

omit [DecidableEq C] in
theorem unmarked_of_all (h : WorkqInv s.q) {c : C} (hc : s.client c = .deletePurge)
    (hall : (WorkqMove.resume c : WorkqMove threads C τ).purgesAll s = true) : Unmarked s.q := by
  intro node n hn hs
  obtain ⟨k, iter, hi, hd, hk, -⟩ := h.place hn
  rw [hs] at hk
  obtain rfl := Option.some.inj hk
  have hpeek : s.q.peek iter = some n := by rw [Workq.peek, hd, hn]
  simp only [WorkqMove.purgesAll, hc, ne_eq, not_true_eq_false, decide_false, Bool.false_or,
    List.all_eq_true] at hall
  simpa [hpeek] using hall iter hi

omit [DecidableEq τ] in
/-- A purge with the mark, when no pending node has it, leaves active nodes only. -/
theorem Purged.only_active {q q' : Workq τ} {events : List (WorkqEvent τ)}
    (hp : Purged q events q') (hmark : q.purgeId = workqPurgeMark) (hun : Unmarked q) {node : Nat}
    {n' : WorkqNode τ} (hn' : q'.node node = some n') : n'.status = .active := by
  obtain ⟨n, hn, ⟨ha, rfl⟩ | ⟨-, rfl, hp', hs | hne⟩⟩ := hp.origin hn'
  · rw [mark_status, ha]
  · exact absurd (hp'.trans hmark) (hun node n' hn hs)
  · exact absurd (hp'.trans hmark) hne

omit [DecidableEq C] [DecidableEq τ] in
theorem Purged.empty (h : WorkqSysInv s) (hx : s.Exited) {q' : Workq τ}
    {events : List (WorkqEvent τ)} (hp : Purged s.q events q')
    (hmark : s.q.purgeId = workqPurgeMark) (hun : Unmarked s.q) (k : WorkqQueue) :
    q'.queues.seq k = [] := by
  rw [List.eq_nil_iff_forall_not_mem]
  intro iter hi
  obtain ⟨n, hn, hk, -⟩ := hp.evolves.inv.queued k iter hi
  rw [hp.only_active hmark hun hn] at hk
  obtain rfl := Option.some.inj hk
  have hi' : iter ∈ s.q.active := hp.evolves.active ▸ hi
  obtain ⟨w, node, hw⟩ := h.held iter hi'
  rw [hx w] at hw
  exact absurd hw (by simp [WorkqWorker.holds])

theorem resume_deletePhase (h : WorkqSysInv s) (hph : DeletePhase s (s.client main))
    (hall : s.client main = .deletePurge → Unmarked s.q) {r : WorkqSection τ}
    (hr : workqResumeSection (decide (∀ w, s.worker w = .exited)) s.q (s.client main) = some r) :
    DeletePhase (s.section_ main r) r.pc := by
  by_cases hord : (s.client main).ordinary = true
  · exact .before (ordinary_not_deleting (resumeSection_trims h.inv hr (h.sleeper main) hord).2)
  · cases hc : s.client main with
    | resetSaved | resetRestore =>
      rw [hc] at hr
      obtain rfl := Option.some.inj hr
      trivial
    | resetPurge purgeId blocking =>
      rw [hc] at hr
      obtain rfl := Option.some.inj hr
      cases blocking <;> trivial
    | resetActive purgeId =>
      rw [hc] at hr
      obtain rfl := Option.some.inj hr
      exact .before (by simp only [workqResetSection]; split_ifs <;> rfl)
    | resetAsleep purgeId awake =>
      rw [hc] at hr
      cases awake with
      | false => simp [workqResumeSection] at hr
      | true =>
        obtain rfl := Option.some.inj hr
        exact .before (by simp only [workqResetSection]; split_ifs <;> rfl)
    | resetPurgeComplete =>
      rw [hc] at hr
      obtain rfl := Option.some.inj hr
      trivial
    | deleteJoin =>
      rw [hc] at hr
      simp only [workqResumeSection, decide_eq_true_eq, Option.ite_none_right_eq_some,
        Option.some.injEq] at hr
      obtain ⟨hx, rfl⟩ := hr
      exact hx
    | deleteMark =>
      rw [hc] at hr hph
      obtain rfl := Option.some.inj hr
      exact ⟨hph, rfl⟩
    | deletePurge =>
      rw [hc] at hr hph
      obtain rfl := Option.some.inj hr
      exact ⟨hph.1, (workqPurge_spec h.inv).empty h hph.1 hph.2 (hall hc)⟩
    | deleteLists =>
      rw [hc] at hr hph
      obtain rfl := Option.some.inj hr
      exact hph
    | deleted => simp [hc, workqResumeSection] at hr
    | _ => simp [hc, WorkqClient.ordinary] at hord

omit [DecidableEq τ] in
theorem MainInv.own (hM : MainInv main s) {r : WorkqSection τ}
    (hph : DeletePhase (s.section_ main r) r.pc) : MainInv main (s.section_ main r) := by
  refine ⟨fun c hne => ?_, ?_⟩
  · rw [section_client_of_ne hne]
    exact hM.others c hne
  · rw [section_client_self]
    exact hph

omit [DecidableEq τ] in
theorem MainInv.submit (hM : MainInv main s) {c : C} {r : WorkqSection τ} (hpc : r.pc = .idle)
    (hdel : (s.client main).deleting = false) : MainInv main (s.section_ c r) := by
  refine ⟨fun c' hne => ?_, .before ?_⟩
  · by_cases he : c' = c
    · subst he
      rw [section_client_self, hpc]
    · rw [section_client_of_ne he]
      exact hM.others c' hne
  · by_cases he : main = c
    · subst he
      rw [section_client_self, hpc]
      rfl
    · rw [section_client_of_ne he]
      exact hdel

omit [DecidableEq τ] in
theorem MainInv.wake (hM : MainInv main s) (c : C) :
    MainInv main (s.setClient c (s.client c).signal) := by
  refine ⟨fun c' hne => ?_, ?_⟩
  · by_cases he : c' = c
    · subst he
      simp [WorkqSys.setClient, hM.others c' hne, WorkqClient.signal]
    · simpa [WorkqSys.setClient, he] using hM.others c' hne
  · by_cases he : main = c
    · subst he
      have hself : (s.setClient main (s.client main).signal).client main =
          (s.client main).signal := Function.update_self ..
      rw [hself]
      exact hM.phase.signal.congr rfl rfl
    · have hother : (s.setClient c (s.client c).signal).client main = s.client main :=
        Function.update_of_ne he ..
      rw [hother]
      exact hM.phase.congr rfl rfl

theorem MainInv.step (hM : MainInv main s) (h : WorkqSysInv s) {l : WorkqLabel threads C τ}
    (hs : WorkqStep s l s') (hsub : l.1.submitsTo main s = true) (hall : l.1.purgesAll s = true) :
    MainInv main s' := by
  obtain ⟨m, events⟩ := l
  change s.step m = some (events, s') at hs
  -- only `main` is ever inside a call
  have hmain : ∀ c, s.client c ≠ .idle → c = main := by
    intro c hc
    by_contra hne
    exact hc (hM.others c hne)
  cases m with
  | call c op =>
    obtain ⟨hc, r, hr, -, rfl⟩ := step_call hs
    have hsub' : c = main ∨ (op.isRun = true ∧ (s.client main).deleting = false) := by
      simpa [WorkqMove.submitsTo] using hsub
    rcases hsub' with rfl | ⟨hop, hdel⟩
    · apply hM.own
      rcases callSection_deleting h.inv hr with hpc | hpc
      · rw [hpc]
        trivial
      · exact .before hpc
    · exact hM.submit (run_idle h.inv hr hop) hdel
  | resume c =>
    obtain ⟨r, hr, -, rfl⟩ := step_resume hs
    have hc : c = main := by
      apply hmain
      intro hidle
      simp [hidle, workqResumeSection] at hr
    subst hc
    exact hM.own (resume_deletePhase h hM.phase (fun hc => unmarked_of_all h.inv hc hall) hr)
  | read c garbage =>
    obtain ⟨node, hc, -, rfl⟩ := step_read hs
    obtain rfl := hmain c (by simp [hc])
    refine ⟨fun c' hne => ?_, .before ?_⟩
    · simpa [WorkqSys.setClient, hne] using hM.others c' hne
    · simp [WorkqSys.setClient, WorkqClient.deleting]
  | wakeClient c =>
    obtain ⟨-, rfl⟩ := step_wakeClient hs
    exact hM.wake c
  | wakeWorker w =>
    obtain ⟨-, rfl⟩ := step_wakeWorker hs
    refine ⟨hM.others, ?_⟩
    by_cases hw : s.worker w = .exited
    · have hsame : s.setWorker w (s.worker w).signal = s := by
        rw [hw]
        simp [WorkqSys.setWorker, WorkqWorker.signal, ← hw]
      rw [hsame]
      exact hM.phase
    · exact hM.phase.running hw _
  | work w =>
    obtain ⟨-, s₁, hr, rfl⟩ := step_work hs
    cases hr with
    | enter hw =>
      refine ⟨hM.others, hM.phase.running (w := w) ?_ _⟩
      rcases hw with hw | hw <;> simp [hw]
    | report hw =>
      refine ⟨fun c hne => ?_, hM.phase.signal.running (w := w) (by simp [hw]) _⟩
      simp [WorkqSys.thread, WorkqSys.report, hM.others c hne, WorkqClient.signal]
  | begin w =>
    obtain ⟨iter, node, hw, -, rfl⟩ := step_begin hs
    exact ⟨hM.others, hM.phase.running (w := w) (by simp [hw]) _⟩
  | finish w ret =>
    obtain ⟨iter, node, hw, -, rfl⟩ := step_finish hs
    exact ⟨hM.others, hM.phase.running (w := w) (by simp [hw]) _⟩

end Delete

section Runs

variable {data : IterPtr → Nat} {tr : List (WorkqLabel threads C τ)} {s s' : WorkqSys threads C τ}
  {main : C}

theorem WorkqStep.prompt (h : WorkqSysInv s) {l : WorkqLabel threads C τ} (hs : WorkqStep s l s')
    (hread : l.1.readsInTime s = true) : Prompt l.2 := by
  obtain ⟨m, events⟩ := l
  change s.step m = some (events, s') at hs
  cases m with
  | call c op =>
    obtain ⟨-, r, hr, rfl, -⟩ := step_call hs
    exact callSection_prompt h.inv hr
  | resume c =>
    obtain ⟨r, hr, rfl, -⟩ := step_resume hs
    exact resumeSection_prompt hr
  | read c garbage =>
    obtain ⟨node, hc, rfl, -⟩ := step_read hs
    simp only [WorkqMove.readsInTime, hc] at hread
    cases hn : s.q.node node with
    | none => simp [hn] at hread
    | some n =>
      refine .single ?_
      rcases (by simpa [hn] using hread : n.status = .pending ∨ n.status = .active) with hst | hst
      · simp [WorkqEvent.late, hst]
      · simp [WorkqEvent.late, hst]
  | wakeClient c =>
    obtain ⟨rfl, -⟩ := step_wakeClient hs
    exact .nil
  | wakeWorker w =>
    obtain ⟨rfl, -⟩ := step_wakeWorker hs
    exact .nil
  | work w =>
    obtain ⟨rfl, -⟩ := step_work hs
    exact .nil
  | begin w =>
    obtain ⟨iter, node, hw, rfl, -⟩ := step_begin hs
    exact .single rfl
  | finish w ret =>
    obtain ⟨iter, node, hw, rfl, -⟩ := step_finish hs
    exact .single rfl

def WorkqMove.disposes (main : C) (s : WorkqSys threads C τ) (m : WorkqMove threads C τ) : Bool :=
  m.submitsTo main s && m.readsInTime s && m.purgesAll s

abbrev DisposingReach (main : C) (data : IterPtr → Nat) :
    List (WorkqLabel threads C τ) → WorkqSys threads C τ → Prop :=
  Run (Guarded WorkqStep fun s l => l.1.disposes main s = true) (workqSysNew data)

theorem DisposingReach.prompt (h : DisposingReach main data tr s) : Prompt (history tr) := by
  refine h.invariant (P := fun tr _ => Prompt (history tr)) ?_ ?_
  · exact .nil
  · intro tr s l s' hr hp hs
    rw [history_cons]
    have hread : l.1.submitsTo main s = true ∧ l.1.readsInTime s = true ∧
        l.1.purgesAll s = true := by simpa [WorkqMove.disposes, and_assoc] using hs.2
    exact hp.append (WorkqStep.prompt (WorkqReach.inv hr.unguard) hs.1 hread.2.1)

theorem DisposingReach.mainInv (h : DisposingReach main data tr s) : MainInv main s := by
  refine h.invariant (P := fun _ s => MainInv main s) ?_ ?_
  · exact ⟨fun _ _ => rfl, trivial⟩
  · intro tr s l s' hr hM hs
    have hguard : l.1.submitsTo main s = true ∧ l.1.readsInTime s = true ∧
        l.1.purgesAll s = true := by simpa [WorkqMove.disposes, and_assoc] using hs.2
    exact hM.step (WorkqReach.inv hr.unguard) hs.1 hguard.1 hguard.2.2

/-- cc_workq_delete has only the lists and the map left to destroy. -/
def WorkqClient.purged : WorkqClient τ → Bool
  | deleteLists | deleted => true
  | _ => false

theorem DisposingReach.empty (h : DisposingReach main data tr s)
    (hm : (s.client main).purged = true) :
    (∀ k, s.q.queues.seq k = []) ∧ (∀ task, s.q.mapTask task = none) ∧
      ∀ node, s.q.node node = none := by
  have hinv := (WorkqReach.inv h.unguard).inv
  have hseq : ∀ k, s.q.queues.seq k = [] := by
    have hph := h.mainInv.phase
    cases hc : s.client main with
    | deleteLists =>
      rw [hc] at hph
      exact hph.2
    | deleted =>
      rw [hc] at hph
      exact hph.2
    | _ => simp [hc, WorkqClient.purged] at hm
  refine ⟨hseq, fun task => ?_, fun node => ?_⟩
  · cases ht : s.q.mapTask task with
    | none => rfl
    | some iter =>
      obtain ⟨k, n, hi, -, -⟩ := hinv.mapped task iter ht
      simp [hseq k] at hi
  · cases hn : s.q.node node with
    | none => rfl
    | some n =>
      obtain ⟨k, iter, hi, -⟩ := hinv.place hn
      simp [hseq k] at hi

/-- finish_fn or a caller is given the status of a node once, and the status
says what has become of the task. -/
structure DisposedOnce (node : Nat) (task : τ) (status : WorkqStatus)
    (events : List (WorkqEvent τ)) : Prop where
  once : disposals node events = [status]
  named : ∀ t st, .finished node t st ∈ events → t = task
  started_once : (nodeEvents node events).count .started ≤ 1
  ended : ∀ ret, .ended node ret ∈ events ↔ status = workqRetStatus ret
  started : .started node ∈ events ↔ status ≠ .pending

omit [DecidableEq τ] in
theorem mem_started {node : Nat} {events : List (WorkqEvent τ)} :
    .started node ∈ events ↔ NodeEvent.started ∈ nodeEvents node events := by
  constructor
  · exact fun h => List.mem_filterMap.mpr ⟨_, h, by simp [WorkqEvent.about]⟩
  · intro h
    obtain ⟨e, he, hab⟩ := List.mem_filterMap.mp h
    cases e <;> simp only [WorkqEvent.about, Option.ite_none_right_eq_some, Option.some.injEq,
      reduceCtorEq, and_false] at hab
    rw [← hab.1]
    exact he

omit [DecidableEq τ] in
theorem mem_ended {node : Nat} {ret : Bool} {events : List (WorkqEvent τ)} :
    .ended node ret ∈ events ↔ NodeEvent.ended ret ∈ nodeEvents node events := by
  constructor
  · exact fun h => List.mem_filterMap.mpr ⟨_, h, by simp [WorkqEvent.about]⟩
  · intro h
    obtain ⟨e, he, hab⟩ := List.mem_filterMap.mp h
    cases e <;> simp only [WorkqEvent.about, Option.ite_none_right_eq_some, Option.some.injEq,
      NodeEvent.ended.injEq, reduceCtorEq, and_false] at hab
    obtain ⟨rfl, rfl⟩ := hab
    exact he

theorem DisposingReach.disposed (h : DisposingReach main data tr s)
    (hm : (s.client main).purged = true) {node : Nat} {task : τ}
    (hc : .created node task ∈ history tr) :
    ∃ status, DisposedOnce node task status (history tr) := by
  have hreach : WorkqReach data tr s := h.unguard
  have hdead := (h.empty hm).2.2 node
  have hnamed : ∀ t st, .finished node t st ∈ history tr → t = task :=
    fun t st hf => hreach.created_once (hreach.named.finished node t st hf) hc
  have hdisp := disposals_eq node h.prompt
  obtain ⟨life, hL, he⟩ := hreach.lives node
  rw [he] at hdisp
  cases hL with
  | unborn =>
    have hmem : NodeEvent.created ∈ nodeEvents node (history tr) :=
      List.mem_filterMap.mpr ⟨_, hc, by simp [WorkqEvent.about]⟩
    simp [he, NodeLife.story] at hmem
  | waiting hn => simp [hdead] at hn
  | active _ hn => simp [hdead] at hn
  | ended _ hn => simp [hdead] at hn
  | withdrawn =>
    refine ⟨.pending, hdisp, hnamed, ?_, fun ret => ?_, ?_⟩
    · rw [he]
      decide
    · rw [mem_ended, he]
      cases ret <;> simp [NodeLife.story, workqRetStatus]
    · rw [mem_started, he]
      simp [NodeLife.story]
  | done ret =>
    refine ⟨workqRetStatus ret, hdisp, hnamed, ?_, fun ret' => ?_, ?_⟩
    · rw [he]
      cases ret <;> decide
    · rw [mem_ended, he]
      cases ret <;> cases ret' <;> simp [NodeLife.story, workqRetStatus]
    · rw [mem_started, he]
      cases ret <;> simp [NodeLife.story, workqRetStatus]

end Runs

end LibCC
