import LibCC.WorkqDisposal
import LibCC.WorkqEffort

/-! Where the threads of a workq come to a standstill. In the runs without the
two defects of the wake-ups every call returns, and no task is left over. -/

namespace LibCC

open LabelledRun SequenceFamily

variable {threads : Nat} {C τ : Type} [DecidableEq C] [DecidableEq τ]

omit [DecidableEq τ] in
@[simp] theorem workqClient_deleting_signal (pc : WorkqClient τ) :
    pc.signal.deleting = pc.deleting := by
  cases pc <;> rfl

/-- What the callers keep to: cc_workq_delete is called when all other clients have stopped using
the workq, and no client uses it afterwards. -/
def WorkqSys.Contract (s : WorkqSys threads C τ) : WorkqMove threads C τ → Prop
  | .call c .delete => ∀ c', c' ≠ c → s.client c' = .idle
  | .call _ _ => ∀ c', (s.client c').deleting = false
  | _ => True

/-- The client that deletes the workq is alone, and stops the workers. -/
structure WorkqStopInv (s : WorkqSys threads C τ) : Prop where
  alone : ∀ c, (s.client c).deleting = true → ∀ c', c' ≠ c → s.client c' = .idle
  state : s.q.state = .stop ↔ ∃ c, (s.client c).deleting = true
  exited : ∀ w, s.worker w = .exited → s.q.state = .stop

section Stop

variable {q : Workq τ} {s s' : WorkqSys threads C τ}

theorem RunOutcome.state {task : τ} {priority : Int} {events : List (WorkqEvent τ)}
    {broadcast : Bool} {q' : Workq τ} (h : RunOutcome task priority q events broadcast q') :
    q'.state = q.state := by
  cases h with
  | failed _ hu => exact hu.state
  | _ => rfl

theorem callSection_state (h : WorkqInv q) {op : WorkqCall τ} {r : WorkqSection τ}
    (hr : workqCallSection q op = some r) (hop : op ≠ .delete) :
    r.q.state = q.state ∧ r.pc.deleting = false := by
  by_cases ho : op.ordinary = true
  · obtain ⟨ht, hpc⟩ := callSection_trims h hr ho
    exact ⟨ht.state, ordinary_not_deleting hpc⟩
  · cases op with
    | run task priority alloc =>
      obtain ⟨hrun, hpc⟩ := callSection_run h hr
      exact ⟨hrun.state, by rw [hpc]; rfl⟩
    | purge =>
      obtain rfl := Option.some.inj hr
      exact ⟨(workqPurge_spec h).state, rfl⟩
    | reset =>
      obtain rfl := Option.some.inj hr
      exact ⟨rfl, rfl⟩
    | delete => exact absurd rfl hop
    | _ => exact absurd rfl ho

theorem resumeSection_state (h : WorkqInv q) {pc : WorkqClient τ} {joined : Bool}
    {r : WorkqSection τ} (hr : workqResumeSection joined q pc = some r)
    (hs : ∀ task iter node n, pc.sleepsOn = some (task, iter, node) → q.node node = some n →
      n.task = task ∧ q.mapTask task = some iter) :
    r.q.state = q.state ∧ r.pc.deleting = pc.deleting := by
  by_cases ho : pc.ordinary = true
  · obtain ⟨ht, hpc⟩ := resumeSection_trims h hr hs ho
    rw [ordinary_not_deleting hpc, ordinary_not_deleting ho]
    exact ⟨ht.state, rfl⟩
  · cases pc with
    | resetActive purgeId =>
      obtain rfl := Option.some.inj hr
      refine ⟨rfl, ?_⟩
      simp only [workqResetSection]
      split_ifs <;> rfl
    | resetAsleep purgeId awake =>
      cases awake with
      | false => simp [workqResumeSection] at hr
      | true =>
        obtain rfl := Option.some.inj hr
        refine ⟨rfl, ?_⟩
        simp only [workqResetSection]
        split_ifs <;> rfl
    | resetPurge purgeId blocking =>
      obtain rfl := Option.some.inj hr
      refine ⟨(workqPurge_spec h).state, ?_⟩
      cases blocking <;> rfl
    | resetPurgeComplete | deletePurge =>
      obtain rfl := Option.some.inj hr
      exact ⟨(workqPurge_spec h).state, rfl⟩
    | resetSaved | resetRestore | deleteMark | deleteLists =>
      obtain rfl := Option.some.inj hr
      exact ⟨rfl, rfl⟩
    | deleteJoin =>
      cases joined with
      | false => simp [workqResumeSection] at hr
      | true =>
        obtain rfl := Option.some.inj hr
        exact ⟨rfl, rfl⟩
    | deleted => simp [workqResumeSection] at hr
    | _ => exact absurd rfl ho

omit [DecidableEq C] [DecidableEq τ] in
theorem WorkqStopInv.keep (h : WorkqStopInv s) (hq : s'.q.state = s.q.state)
    (hd : ∀ c, (s'.client c).deleting = (s.client c).deleting)
    (hi : ∀ c, s.client c = .idle → s'.client c = .idle)
    (hw : ∀ w, s'.worker w = .exited → s.worker w = .exited ∨ s.q.state = .stop) :
    WorkqStopInv s' := by
  refine ⟨fun c hc c' hne => hi c' (h.alone c (hd c ▸ hc) c' hne), ?_, fun w hx => ?_⟩
  · rw [hq, h.state]
    simp only [hd]
  · rw [hq]
    rcases hw w hx with hx | hx
    · exact h.exited w hx
    · exact hx

omit [DecidableEq C] [DecidableEq τ] in
theorem WorkqStopInv.setWorker (h : WorkqStopInv s) {w : Fin threads} {pc : WorkqWorker}
    (hp : pc = .exited → s.worker w = .exited ∨ s.q.state = .stop) :
    WorkqStopInv (s.setWorker w pc) := by
  refine h.keep rfl (fun c => rfl) (fun c hc => hc) fun w' hx => ?_
  by_cases he : w' = w
  · subst he
    exact hp (by simpa [WorkqSys.setWorker] using hx)
  · exact .inl (by simpa [WorkqSys.setWorker, he] using hx)

omit [DecidableEq C] [DecidableEq τ] in
theorem WorkqStopInv.thread (h : WorkqStopInv s) (w : Fin threads) : WorkqStopInv (s.thread w) := by
  rcases workqThreadSection_cases s.q with ⟨hr, -⟩ | ⟨hr, hst⟩ | ⟨iter, rest, -, -, hr⟩
  · have he : s.thread w = s.setWorker w (.asleep false) := by
      simp [WorkqSys.thread, WorkqSys.setWorker, hr]
    rw [he]
    exact h.setWorker fun hx => absurd hx (by simp)
  · have he : s.thread w = s.setWorker w .exited := by
      simp [WorkqSys.thread, WorkqSys.setWorker, hr]
    rw [he]
    exact h.setWorker fun _ => .inr hst
  · refine h.keep (thread_trims s w).state (fun c => rfl) (fun c hc => hc) fun w' hx => ?_
    by_cases he : w' = w
    · subst he
      simp [WorkqSys.thread, hr] at hx
    · exact .inl (by simpa [WorkqSys.thread, he] using hx)

omit [DecidableEq τ] in
theorem workqSection_exited {c : C} {r : WorkqSection τ} {w : Fin threads}
    (hx : (s.section_ c r).worker w = .exited) : s.worker w = .exited := by
  simp only [WorkqSys.section_] at hx
  split_ifs at hx
  · cases hw : s.worker w <;> simp [hw, WorkqWorker.signal] at hx ⊢
  · exact hx

omit [DecidableEq τ] in
theorem WorkqStopInv.quiet (h : WorkqStopInv s) (hnone : ∀ c, (s.client c).deleting = false)
    {c : C} {r : WorkqSection τ} (hq : r.q.state = s.q.state) (hpc : r.pc.deleting = false) :
    WorkqStopInv (s.section_ c r) := by
  have hafter : ∀ c', ((s.section_ c r).client c').deleting = false := by
    intro c'
    by_cases he : c' = c
    · subst he
      rw [section_client_self]
      exact hpc
    · rw [section_client_of_ne he]
      exact hnone c'
  have hrun : s.q.state ≠ .stop := by
    rw [Ne, h.state]
    simp [hnone]
  have hrun' : (s.section_ c r).q.state ≠ .stop := by
    change r.q.state ≠ .stop
    rwa [hq]
  refine ⟨fun c' hc' => ?_, ⟨fun hs => absurd hs hrun', ?_⟩, fun w hx => ?_⟩
  · rw [hafter c'] at hc'
    exact absurd hc' (by simp)
  · rintro ⟨c', hc'⟩
    rw [hafter c'] at hc'
    exact absurd hc' (by simp)
  · exact absurd (h.exited w (workqSection_exited hx)) hrun

theorem WorkqStopInv.step (h : WorkqStopInv s) (hs : WorkqSysInv s) {l : WorkqLabel threads C τ}
    (hstep : WorkqStep s l s') (hc : s.Contract l.1) : WorkqStopInv s' := by
  obtain ⟨m, events⟩ := l
  change s.step m = some (events, s') at hstep
  cases m with
  | call c op =>
    obtain ⟨-, r, hr, -, rfl⟩ := step_call hstep
    by_cases hop : op = .delete
    · subst hop
      have hidle : ∀ c', c' ≠ c → s.client c' = .idle := hc
      obtain rfl := Option.some.inj hr
      have hother : ∀ c',
          ((s.section_ c ⟨[], .deleteJoin, true, { s.q with state := .stop }⟩).client c').deleting =
            true → c' = c := by
        intro c' hdel
        by_contra hne
        rw [section_client_of_ne hne, hidle c' hne] at hdel
        exact absurd hdel (by simp [WorkqClient.deleting])
      refine ⟨fun c₁ h₁ c₂ hne => ?_, ⟨fun _ => ⟨c, ?_⟩, fun _ => rfl⟩, fun w _ => rfl⟩
      · obtain rfl := hother c₁ h₁
        rw [section_client_of_ne hne]
        exact hidle c₂ hne
      · rw [section_client_self]
        rfl
    · have hnone : ∀ c', (s.client c').deleting = false := by
        cases op <;> first | exact absurd rfl hop | exact hc
      obtain ⟨hq, hpc⟩ := callSection_state hs.inv hr hop
      exact h.quiet hnone hq hpc
  | resume c =>
    obtain ⟨r, hr, -, rfl⟩ := step_resume hstep
    obtain ⟨hq, hpc⟩ := resumeSection_state hs.inv hr (hs.sleeper c)
    refine h.keep hq (fun c' => ?_) (fun c' hidle => ?_) fun w hx => .inl (workqSection_exited hx)
    · by_cases he : c' = c
      · subst he
        rw [section_client_self]
        exact hpc
      · rw [section_client_of_ne he]
    · by_cases he : c' = c
      · subst he
        simp [hidle, workqResumeSection] at hr
      · rw [section_client_of_ne he]
        exact hidle
  | read c garbage =>
    obtain ⟨node, hclient, -, rfl⟩ := step_read hstep
    refine h.keep rfl (fun c' => ?_) (fun c' hidle => ?_) fun w hx => .inl hx
    · by_cases he : c' = c
      · subst he
        simp [WorkqSys.setClient, hclient, WorkqClient.deleting]
      · simp [WorkqSys.setClient, he]
    · by_cases he : c' = c
      · subst he
        simp [WorkqSys.setClient]
      · simpa [WorkqSys.setClient, he] using hidle
  | wakeClient c =>
    obtain ⟨-, rfl⟩ := step_wakeClient hstep
    refine h.keep rfl (fun c' => ?_) (fun c' hidle => ?_) fun w hx => .inl hx
    · by_cases he : c' = c
      · subst he
        simp [WorkqSys.setClient]
      · simp [WorkqSys.setClient, he]
    · by_cases he : c' = c
      · subst he
        simp [WorkqSys.setClient, hidle, WorkqClient.signal]
      · simpa [WorkqSys.setClient, he] using hidle
  | wakeWorker w =>
    obtain ⟨-, rfl⟩ := step_wakeWorker hstep
    refine h.setWorker fun hx => .inl ?_
    cases hw : s.worker w <;> simp [hw, WorkqWorker.signal] at hx ⊢
  | work w =>
    obtain ⟨-, s₁, hr, rfl⟩ := step_work hstep
    cases hr with
    | enter => exact h.thread w
    | @report iter node ret hw =>
      have hreport : WorkqStopInv (s.report w iter node ret) := by
        refine h.keep (WorkqSys.Ready.trims hs (.report hw)).state (fun c => ?_) (fun c hc => ?_)
          fun w' hx => ?_
        · simp [WorkqSys.report]
        · simp [WorkqSys.report, hc, WorkqClient.signal]
        · by_cases he : w' = w
          · subst he
            simp [WorkqSys.report] at hx
          · exact .inl (by simpa [WorkqSys.report, he] using hx)
      exact hreport.thread w
  | begin w =>
    obtain ⟨iter, node, hw, -, rfl⟩ := step_begin hstep
    exact h.setWorker fun hx => absurd hx (by simp)
  | finish w ret =>
    obtain ⟨iter, node, hw, -, rfl⟩ := step_finish hstep
    exact h.setWorker fun hx => absurd hx (by simp)

end Stop

section Sleep

variable {q : Workq τ} {s s' : WorkqSys threads C τ}

/-- A thread that no broadcast has reached waits for a task that is not complete. -/
def WorkqClient.WaitsFor (q : Workq τ) : WorkqClient τ → Prop
  | waitAsleep _ _ node false =>
    ∃ n, q.node node = some n ∧ (n.status = .pending ∨ n.status = .active)
  | cancelAsleep _ _ node false => ∃ n, q.node node = some n ∧ n.status = .active
  | _ => True

theorem workqWait_sleep {blocking : Bool} {iter : IterPtr} {node : Nat}
    (h : workqWait blocking iter node q = .sleep) :
    ∃ n, q.node node = some n ∧ (n.status = .pending ∨ n.status = .active) := by
  unfold workqWait at h
  split at h
  · exact absurd h (by simp)
  · next n hn =>
    refine ⟨n, hn, ?_⟩
    cases hs : n.status with
    | pending => exact .inl rfl
    | active => exact .inr rfl
    | _ =>
      simp only [hs] at h
      split_ifs at h

theorem workqCancel_sleep {blocking : Bool} {iter : IterPtr} {node : Nat}
    (h : workqCancel blocking iter node q = .sleep) :
    ∃ n, q.node node = some n ∧ n.status = .active := by
  unfold workqCancel at h
  split at h
  · exact absurd h (by simp)
  · next n hn =>
    refine ⟨n, hn, ?_⟩
    cases hs : n.status with
    | active => rfl
    | _ =>
      simp only [hs] at h
      split_ifs at h

theorem waitSection_waitsFor (task : τ) (iter : IterPtr) (node : Nat) (blocking : Bool) :
    (workqWaitSection (.waitAsleep task iter node false) node q
      (workqWait blocking iter node q)).pc.WaitsFor
    (workqWaitSection (.waitAsleep task iter node false) node q
      (workqWait blocking iter node q)).q := by
  cases hw : workqWait blocking iter node q with
  | sleep => exact workqWait_sleep hw
  | unlock | done | freed => trivial

theorem cancelSection_waitsFor (task : τ) (iter : IterPtr) (node : Nat) (blocking : Bool) :
    (workqWaitSection (.cancelAsleep task iter node false) node q
      (workqCancel blocking iter node q)).pc.WaitsFor
    (workqWaitSection (.cancelAsleep task iter node false) node q
      (workqCancel blocking iter node q)).q := by
  cases hw : workqCancel blocking iter node q with
  | sleep => exact workqCancel_sleep hw
  | unlock | done | freed => trivial

omit [DecidableEq τ] in
theorem waitsFor_of_sleepsOn {pc : WorkqClient τ} (h : pc.sleepsOn = none) : pc.WaitsFor q := by
  cases pc <;> trivial

theorem callSection_waitsFor (h : WorkqInv q) {op : WorkqCall τ} {r : WorkqSection τ}
    (hr : workqCallSection q op = some r) : r.pc.WaitsFor r.q := by
  cases op with
  | wait task blocking =>
    cases hm : q.mapTask task with
    | none =>
      simp only [workqCallSection, hm, Option.some.injEq] at hr
      subst hr
      trivial
    | some iter =>
      simp only [workqCallSection, hm, Option.some.injEq] at hr
      subst hr
      exact waitSection_waitsFor task iter _ blocking
  | cancel task blocking =>
    cases hm : q.mapTask task with
    | none =>
      simp only [workqCallSection, hm, Option.some.injEq] at hr
      subst hr
      trivial
    | some iter =>
      simp only [workqCallSection, hm, Option.some.injEq] at hr
      subst hr
      exact cancelSection_waitsFor task iter _ blocking
  | run task priority alloc =>
    rw [(callSection_run h hr).2]
    trivial
  | finish =>
    obtain rfl := Option.some.inj hr
    apply waitsFor_of_sleepsOn
    simp only [workqFinishSection]
    split_ifs <;> rfl
  | status | pending | purge | flush | reset | delete =>
    obtain rfl := Option.some.inj hr
    trivial

theorem resumeSection_waitsFor {pc : WorkqClient τ} {joined : Bool} {r : WorkqSection τ}
    (hr : workqResumeSection joined q pc = some r) : r.pc.WaitsFor r.q := by
  cases pc with
  | waitAsleep task iter node awake =>
    cases awake with
    | false => simp [workqResumeSection] at hr
    | true =>
      obtain rfl := Option.some.inj hr
      exact waitSection_waitsFor task iter node true
  | cancelAsleep task iter node awake =>
    cases awake with
    | false => simp [workqResumeSection] at hr
    | true =>
      obtain rfl := Option.some.inj hr
      exact cancelSection_waitsFor task iter node true
  | finishAsleep awake =>
    cases awake with
    | false => simp [workqResumeSection] at hr
    | true =>
      obtain rfl := Option.some.inj hr
      apply waitsFor_of_sleepsOn
      simp only [workqFinishSection]
      split_ifs <;> rfl
  | resetActive purgeId =>
    obtain rfl := Option.some.inj hr
    apply waitsFor_of_sleepsOn
    simp only [workqResetSection]
    split_ifs <;> rfl
  | resetAsleep purgeId awake =>
    cases awake with
    | false => simp [workqResumeSection] at hr
    | true =>
      obtain rfl := Option.some.inj hr
      apply waitsFor_of_sleepsOn
      simp only [workqResetSection]
      split_ifs <;> rfl
  | resetPurge purgeId blocking =>
    obtain rfl := Option.some.inj hr
    cases blocking <;> trivial
  | resetPurgeComplete | deletePurge | resetSaved | resetRestore | deleteMark | deleteLists =>
    obtain rfl := Option.some.inj hr
    trivial
  | deleteJoin =>
    cases joined with
    | false => simp [workqResumeSection] at hr
    | true =>
      obtain rfl := Option.some.inj hr
      trivial
  | idle | unlocked | deleted | fault => simp [workqResumeSection] at hr

omit [DecidableEq τ] in
/-- Nothing is lost for a sleeper whose node keeps its status, or turns from pending to active. -/
theorem WorkqClient.WaitsFor.of_node {q' : Workq τ} {pc : WorkqClient τ} (h : pc.WaitsFor q)
    (hnode : ∀ task iter node n, pc.sleepsOn = some (task, iter, node) → q.node node = some n →
      ∃ n', q'.node node = some n' ∧ (n'.status = n.status ∨ n'.status = .active)) :
    pc.WaitsFor q' := by
  cases pc with
  | waitAsleep task iter node awake =>
    cases awake with
    | true => trivial
    | false =>
      obtain ⟨n, hn, hs⟩ := h
      obtain ⟨n', hn', he⟩ := hnode task iter node n rfl hn
      refine ⟨n', hn', ?_⟩
      rcases he with he | he
      · rwa [he]
      · exact .inr he
  | cancelAsleep task iter node awake =>
    cases awake with
    | true => trivial
    | false =>
      obtain ⟨n, hn, hs⟩ := h
      obtain ⟨n', hn', he⟩ := hnode task iter node n rfl hn
      refine ⟨n', hn', ?_⟩
      rcases he with he | he
      · rwa [he]
      · exact he
  | _ => trivial

omit [DecidableEq τ] in
theorem waitsFor_signal (pc : WorkqClient τ) : pc.signal.WaitsFor q := by
  cases pc <;> trivial

omit [DecidableEq τ] in
theorem section_waitsFor (h : WorkqSysInv s) (hw : ∀ c, (s.client c).WaitsFor s.q) {c : C}
    {r : WorkqSection τ} {drop : IterPtr → Prop} (he : Evolves drop s.q r.events r.q)
    (hr : r.pc.WaitsFor r.q) (hspare : ∀ c' ≠ c, ∀ task iter node,
      (s.client c').sleepsOn = some (task, iter, node) → ¬ drop iter) (c' : C) :
    ((s.section_ c r).client c').WaitsFor (s.section_ c r).q := by
  by_cases hc : c' = c
  · subst hc
    rw [section_client_self]
    exact hr
  · rw [section_client_of_ne hc]
    refine (hw c').of_node fun task iter node n hsleep hn => ?_
    obtain ⟨rfl, hm⟩ := h.sleeper c' task iter node n hsleep hn
    rcases he.each node n iter hn hm with ⟨-, -, -, n', hn', hst, -⟩ | ⟨-, -, hd, -⟩
    · exact ⟨n', hn', .inl hst⟩
    · exact absurd hd (hspare c' hc n.task iter node hsleep)

omit [DecidableEq τ] in
theorem setClient_waitsFor (hw : ∀ c, (s.client c).WaitsFor s.q) {c : C} {pc : WorkqClient τ}
    (hpc : pc.WaitsFor s.q) (c' : C) : ((s.setClient c pc).client c').WaitsFor s.q := by
  by_cases hc : c' = c
  · subst hc
    simpa [WorkqSys.setClient] using hpc
  · simpa [WorkqSys.setClient, hc] using hw c'

omit [DecidableEq C] [DecidableEq τ] in
theorem thread_waitsFor (hw : ∀ c, (s.client c).WaitsFor s.q) (w : Fin threads) (c : C) :
    (s.client c).WaitsFor (s.thread w).q := by
  refine (hw c).of_node fun task iter node n _ hn => ?_
  rcases workqThreadSection_cases s.q with ⟨hr, -⟩ | ⟨hr, -⟩ | ⟨x, rest, -, -, hr⟩
  · exact ⟨n, by simpa [WorkqSys.thread, hr] using hn, .inl rfl⟩
  · exact ⟨n, by simpa [WorkqSys.thread, hr] using hn, .inl rfl⟩
  · have hq : (s.thread w).q = s.q.shift .pending .active x .active := by
      simp [WorkqSys.thread, hr]
    rw [hq, shift_node]
    split_ifs with hx
    · exact ⟨_, by rw [hn]; rfl, .inr rfl⟩
    · exact ⟨n, hn, .inl rfl⟩

theorem WorkqStep.waitsFor (h : WorkqSysInv s) (hw : ∀ c, (s.client c).WaitsFor s.q)
    {l : WorkqLabel threads C τ} (hs : WorkqStep s l s') (hspare : l.1.Spares s) :
    ∀ c, (s'.client c).WaitsFor s'.q := by
  obtain ⟨m, events⟩ := l
  change s.step m = some (events, s') at hs
  cases m with
  | call c op =>
    obtain ⟨-, r, hr, -, rfl⟩ := step_call hs
    exact section_waitsFor h hw (callSection_spec h.inv hr).evolves
      (callSection_waitsFor h.inv hr) hspare
  | resume c =>
    obtain ⟨r, hr, -, rfl⟩ := step_resume hs
    exact section_waitsFor h hw (resumeSection_spec h.inv hr (h.sleeper c)).evolves
      (resumeSection_waitsFor hr) hspare
  | read c garbage =>
    obtain ⟨node, -, -, rfl⟩ := step_read hs
    exact setClient_waitsFor hw trivial
  | wakeClient c =>
    obtain ⟨-, rfl⟩ := step_wakeClient hs
    exact setClient_waitsFor hw (waitsFor_signal _)
  | wakeWorker w =>
    obtain ⟨-, rfl⟩ := step_wakeWorker hs
    exact hw
  | work w =>
    obtain ⟨-, s₁, hr, rfl⟩ := step_work hs
    cases hr with
    | enter => exact thread_waitsFor hw w
    | report => exact thread_waitsFor (fun c => waitsFor_signal (s.client c)) w
  | begin w =>
    obtain ⟨iter, node, -, -, rfl⟩ := step_begin hs
    exact hw
  | finish w ret =>
    obtain ⟨iter, node, -, -, rfl⟩ := step_finish hs
    exact hw

end Sleep

section Final

variable {data : IterPtr → Nat} {tr more : List (WorkqLabel threads C τ)}
  {s s' : WorkqSys threads C τ}

/-- The step keeps to the contract, takes no last task away from a thread in cc_workq_finish, and
removes no node on which another thread sleeps. -/
def WorkqMove.Orderly (s : WorkqSys threads C τ) (m : WorkqMove threads C τ) : Prop :=
  m.LeavesTasks s ∧ m.Spares s ∧ s.Contract m

structure OrderlyInv (s : WorkqSys threads C τ) : Prop where
  sys : WorkqSysInv s
  wake : WakeInv s
  kept : WorkqKept s
  stop : WorkqStopInv s
  waits : ∀ c, (s.client c).WaitsFor s.q

abbrev OrderlyReach (data : IterPtr → Nat) :
    List (WorkqLabel threads C τ) → WorkqSys threads C τ → Prop :=
  Run (Guarded WorkqStep fun s l => l.1.Orderly s) (workqSysNew data)

theorem OrderlyReach.inv (h : OrderlyReach data tr s) : OrderlyInv s := by
  induction h with
  | nil =>
    refine ⟨workqSysNew_inv data, ⟨?_, ?_, ?_⟩, ⟨fun c => ?_, ?_⟩, ⟨?_, ?_, ?_⟩, fun c => trivial⟩
    · simp [workqSysNew]
    · simp [workqSysNew]
    · simp [workqSysNew]
    · rintro ⟨task, iter, node, hc, -⟩
      exact absurd hc (by simp [workqSysNew, WorkqClient.sleepsOn])
    · simp [workqSysNew]
    · simp [workqSysNew]
    · simp [workqSysNew, workqNew, WorkqClient.deleting]
    · simp [workqSysNew]
  | snoc _ hs ih =>
    obtain ⟨hstep, hleaves, hspares, hcontract⟩ := hs
    exact ⟨WorkqStep.inv ih.sys hstep, ih.wake.step ih.sys hstep hleaves,
      WorkqStep.kept ih.sys ih.kept hstep hspares, ih.stop.step ih.sys hstep hcontract,
      WorkqStep.waitsFor ih.sys ih.waits hstep hspares⟩

theorem workq_final_step (hf : Final WorkqInternal s) {m : WorkqMove threads C τ}
    (hm : m.internal = true) : s.step m = none := by
  rw [Option.eq_none_iff_forall_not_mem]
  rintro ⟨shown, s'⟩ hs
  exact hf (m, shown) s' ⟨hs, hm⟩

theorem workq_final_worker (hf : Final WorkqInternal s) (w : Fin threads) :
    s.worker w = .asleep false ∨ s.worker w = .exited := by
  have hwork := workq_final_step hf (m := .work w) rfl
  have hbegin := workq_final_step hf (m := .begin w) rfl
  have hfinish := workq_final_step hf (m := .finish w true) rfl
  cases hw : s.worker w with
  | start => simp [WorkqSys.step, hw] at hwork
  | asleep awake =>
    cases awake with
    | false => exact .inl rfl
    | true => simp [WorkqSys.step, hw] at hwork
  | taken iter node => simp [WorkqSys.step, hw] at hbegin
  | running iter node => simp [WorkqSys.step, hw] at hfinish
  | returned iter node ret => simp [WorkqSys.step, hw] at hwork
  | exited => exact .inr rfl

/-- A call that cannot go on waits for a signal or for the workers to exit. -/
inductive WorkqClient.Halted (s : WorkqSys threads C τ) : WorkqClient τ → Prop
  | idle : Halted s .idle
  | deleted : Halted s .deleted
  | fault : Halted s .fault
  | waits {task iter node} : Halted s (.waitAsleep task iter node false)
  | cancels {task iter node} : Halted s (.cancelAsleep task iter node false)
  | finishes : Halted s (.finishAsleep false)
  | resets {purgeId} : Halted s (.resetAsleep purgeId false)
  | joins : (¬ ∀ w, s.worker w = .exited) → Halted s .deleteJoin

theorem workq_final_client (hf : Final WorkqInternal s) (c : C) : (s.client c).Halted s := by
  have hresume := workq_final_step hf (m := .resume c) rfl
  have hread := workq_final_step hf (m := .read c .error) rfl
  cases hc : s.client c with
  | idle => exact .idle
  | deleted => exact .deleted
  | fault => exact .fault
  | waitAsleep task iter node awake =>
    cases awake with
    | false => exact .waits
    | true => simp [WorkqSys.step, hc, workqResumeSection] at hresume
  | cancelAsleep task iter node awake =>
    cases awake with
    | false => exact .cancels
    | true => simp [WorkqSys.step, hc, workqResumeSection] at hresume
  | finishAsleep awake =>
    cases awake with
    | false => exact .finishes
    | true => simp [WorkqSys.step, hc, workqResumeSection] at hresume
  | resetAsleep purgeId awake =>
    cases awake with
    | false => exact .resets
    | true => simp [WorkqSys.step, hc, workqResumeSection] at hresume
  | unlocked node => simp [WorkqSys.step, hc] at hread
  | deleteJoin =>
    refine .joins fun hall => ?_
    simp [WorkqSys.step, hc, workqResumeSection, hall] at hresume
  | _ => simp [WorkqSys.step, hc, workqResumeSection] at hresume

omit [DecidableEq τ] in
theorem WorkqInv.seq_ne_nil {q : Workq τ} (h : WorkqInv q) {node : Nat} {n : WorkqNode τ}
    {k : WorkqQueue} (hn : q.node node = some n) (hk : n.status.home = some k) :
    q.queues.seq k ≠ [] := by
  obtain ⟨k', iter, hi, -, hk', -⟩ := h.place hn
  obtain rfl := Option.some.inj (hk'.symm.trans hk)
  exact List.ne_nil_of_mem hi

/-- All calls have returned, and no task is left that a worker could take. -/
structure WorkqSys.Settled (s : WorkqSys threads C τ) : Prop where
  client : ∀ c, s.client c = .idle ∨ s.client c = .deleted
  active : s.q.active = []
  pending : (∀ c, s.client c ≠ .deleted) → s.q.pending = []

theorem OrderlyInv.settled (h : OrderlyInv s) (hthreads : 0 < threads)
    (hf : Final WorkqInternal s) : s.Settled := by
  have hworker := workq_final_worker hf
  have hactive : s.q.active = [] := by
    rw [List.eq_nil_iff_forall_not_mem]
    intro iter hi
    obtain ⟨w, node, hw⟩ := h.sys.held iter hi
    rcases hworker w with hpc | hpc
    · rw [hpc] at hw
      exact absurd hw (by simp [WorkqWorker.holds])
    · rw [hpc] at hw
      exact absurd hw (by simp [WorkqWorker.holds])
  by_cases hdel : ∃ c, (s.client c).deleting = true
  · -- the workers have been stopped, so that the join of cc_workq_delete returns
    obtain ⟨c, hc⟩ := hdel
    have hstate : s.q.state = .stop := h.stop.state.mpr ⟨c, hc⟩
    have hexited : ∀ w, s.worker w = .exited := by
      intro w
      rcases hworker w with hpc | hpc
      · exact absurd ((h.wake.worker w hpc).2.symm.trans hstate) (by simp)
      · exact hpc
    have hdeleted : s.client c = .deleted := by
      have hhalted := workq_final_client hf c
      generalize hpc : s.client c = pc at hhalted hc
      cases hhalted with
      | deleted => rfl
      | joins hne => exact absurd hexited hne
      | _ => exact absurd hc (by simp [WorkqClient.deleting])
    refine ⟨fun c' => ?_, hactive, fun hnone => absurd hdeleted (hnone c)⟩
    by_cases he : c' = c
    · exact .inr (he ▸ hdeleted)
    · exact .inl (h.stop.alone c hc c' he)
  · have hpending : s.q.pending = [] := by
      rcases hworker ⟨0, hthreads⟩ with hpc | hpc
      · exact (h.wake.worker _ hpc).1
      · exact absurd (h.stop.state.mp (h.stop.exited _ hpc)) hdel
    refine ⟨fun c => ?_, hactive, fun _ => hpending⟩
    have hhalted := workq_final_client hf c
    have hwaits := h.waits c
    have hsound := h.kept.sound c
    have hfinish := h.wake.finish c
    have hreset := h.wake.reset c
    have hnot : (s.client c).deleting ≠ true := fun hc => hdel ⟨c, hc⟩
    generalize hpc : s.client c = pc at hhalted hwaits hsound hfinish hreset hnot
    cases hhalted with
    | idle => exact .inl rfl
    | deleted => exact .inr rfl
    | fault => exact absurd rfl hsound
    | waits =>
      obtain ⟨n, hn, hs | hs⟩ := hwaits
      · exact absurd hpending (h.sys.inv.seq_ne_nil (k := .pending) hn (by rw [hs]; rfl))
      · exact absurd hactive (h.sys.inv.seq_ne_nil (k := .active) hn (by rw [hs]; rfl))
    | cancels =>
      obtain ⟨n, hn, hs⟩ := hwaits
      exact absurd hactive (h.sys.inv.seq_ne_nil (k := .active) hn (by rw [hs]; rfl))
    | finishes =>
      rcases hfinish rfl with hne | hne
      · exact absurd hpending hne
      · exact absurd hactive hne
    | resets => exact absurd hactive (hreset _ rfl)
    | joins => exact absurd rfl hnot

/-- With one client no step takes anything away from another. -/
theorem WorkqReach.orderly [Subsingleton C] (h : WorkqReach data tr s)
    {l : WorkqLabel threads C τ} (hs : WorkqStep s l s') : l.1.Orderly s := by
  obtain ⟨m, events⟩ := l
  change s.step m = some (events, s') at hs
  cases m with
  | call c op =>
    obtain ⟨hidle, -⟩ := step_call hs
    have hother : ∀ c', c' ≠ c → False := fun c' hne => hne (Subsingleton.elim c' c)
    refine ⟨fun c' hne => absurd hne (hother c'), fun c' hne => absurd hne (hother c'), ?_⟩
    have hnone : ∀ c', (s.client c').deleting = false := by
      intro c'
      rw [Subsingleton.elim c' c, hidle]
      rfl
    cases op with
    | delete => exact fun c' hne => absurd hne (hother c')
    | _ => exact hnone
  | resume c =>
    have hother : ∀ c', c' ≠ c → False := fun c' hne => hne (Subsingleton.elim c' c)
    exact ⟨⟨(WorkqReach.sparing h).kept.live c, fun c' hne => absurd hne (hother c')⟩,
      fun c' hne => absurd hne (hother c'), trivial⟩
  | _ => exact ⟨trivial, trivial, trivial⟩

/-- Left alone the threads of a workq stop after boundedly many steps. Where no step so far or on
the way takes the last task away from a thread in cc_workq_finish or removes a node on which a
thread sleeps, and the callers keep to the contract of cc_workq_delete, they stop with every call
returned, and with no task pending or active unless the workq is deleted. With one client thread
they always do. -/
theorem workq_progress [Fintype C] (hthreads : 0 < threads) (h : WorkqReach data tr s) :
    (∃ n, ∀ more s', Run WorkqInternal s more s' → more.length ≤ n) ∧
    (∃ more s', Run WorkqInternal s more s' ∧ Final WorkqInternal s') ∧
    (OrderlyReach data tr s → ∀ more s',
      Run (Guarded WorkqInternal fun s l => l.1.Orderly s) s more s' →
      Final WorkqInternal s' → s'.Settled) ∧
    (Subsingleton C → ∀ more s', Run WorkqInternal s more s' → Final WorkqInternal s' →
      s'.Settled) := by
  have hsys := h.inv
  have hsettled : OrderlyReach data tr s → ∀ more s',
      Run (Guarded WorkqInternal fun s l => l.1.Orderly s) s more s' →
      Final WorkqInternal s' → s'.Settled := by
    intro horderly more s' hr hf
    have hreach : OrderlyReach data (more ++ tr) s' :=
      Run.append horderly (hr.mono fun _ _ _ hs => ⟨hs.1.1, hs.2⟩)
    exact hreach.inv.settled hthreads hf
  refine ⟨⟨s.effort, fun more s' hr => ?_⟩, ?_, hsettled, fun hone more s' hr hf => ?_⟩
  · have := (hr.lowers workqInternal_lowers hsys).2
    omega
  · obtain ⟨more, s', hr, -, hf⟩ := exists_final s workqInternal_lowers hsys
    exact ⟨more, s', hr, hf⟩
  · have horderly : OrderlyReach data tr s :=
      h.restrict _ fun tr s l s' hr hs => WorkqReach.orderly hr hs
    refine hsettled horderly more s' (hr.restrict _ fun more₁ s₁ l s₂ hr₁ hs => ?_) hf
    have hreach : WorkqReach data (more₁ ++ tr) s₁ :=
      Run.append h (hr₁.mono fun _ _ _ hs => hs.1)
    exact WorkqReach.orderly hreach hs.1

/-- The one client sleeps in cc_workq_finish until its task is done. -/
theorem workq_progress_finish : ∃ (more : List (WorkqLabel 1 Unit Nat)) (s' : WorkqSys 1 Unit Nat),
    Run WorkqInternal ((workqExec (workqSysNew (fun _ => 0)) workqFinishAlone).get
      (by decide)).2 more s' ∧ s'.Settled := by
  have hreach := @WorkqReach.play 1 Unit Nat _ _ (fun _ => 0) workqFinishAlone (by decide)
  obtain ⟨-, ⟨more, s', hr, hf⟩, -, hone⟩ := workq_progress (by omega) hreach
  exact ⟨more, s', hr, hone inferInstance more s' hr hf⟩

end Final

end LibCC
