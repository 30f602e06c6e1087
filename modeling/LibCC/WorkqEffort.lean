import LibCC.WorkqWakeups
import LibCC.RunProgress

/-! How much the threads of a workq have left to do before they wait for
something from outside: every step of theirs takes from it. -/

namespace LibCC

open LabelledRun SequenceFamily

variable {threads : Nat} {C τ : Type} [DecidableEq C] [DecidableEq τ]

/-- A step that needs neither a new call nor a spurious wake-up. -/
def WorkqMove.internal : WorkqMove threads C τ → Bool
  | resume _ | read _ _ | work _ | begin _ | finish _ _ => true
  | call .. | wakeClient _ | wakeWorker _ => false

/-- The steps of the threads as they are left to themselves. -/
def WorkqInternal (s : WorkqSys threads C τ) (l : WorkqLabel threads C τ)
    (s' : WorkqSys threads C τ) : Prop :=
  WorkqStep s l s' ∧ l.1.internal = true

/-- What a worker has left to do; its report wakes up all clients. -/
def WorkqWorker.effort (clients : Nat) : WorkqWorker → Nat
  | asleep false | exited => 0
  | start | asleep true => 1
  | returned _ _ _ => 2 * clients + 1
  | running _ _ => 2 * clients + 2
  | taken _ _ => 2 * clients + 3

/-- What a client has left to do in its call. -/
def WorkqClient.effort : WorkqClient τ → Nat
  | idle | deleted | fault => 0
  | waitAsleep _ _ _ awake | cancelAsleep _ _ _ awake | finishAsleep awake => if awake then 2 else 0
  | unlocked _ | resetRestore _ | deleteLists => 1
  | resetPurgeComplete _ | deletePurge => 2
  | resetAsleep _ awake => if awake then 4 else 3
  | deleteMark => 3
  | deleteJoin => 4
  | resetActive _ => 5
  | resetPurge _ _ => 6
  | resetSaved _ _ => 7

omit [DecidableEq τ] in
theorem WorkqClient.effort_signal (pc : WorkqClient τ) : pc.signal.effort ≤ pc.effort + 2 := by
  cases pc with
  | waitAsleep task iter node awake => cases awake <;> simp [signal, effort]
  | cancelAsleep task iter node awake => cases awake <;> simp [signal, effort]
  | finishAsleep awake => cases awake <;> simp [signal, effort]
  | resetAsleep purgeId awake => cases awake <;> simp [signal, effort]
  | _ => simp [signal]

section Sections

variable {q : Workq τ}

omit [DecidableEq τ] in
theorem waitSection_effort (asleep : WorkqClient τ) (q : Workq τ) (node : Nat) (w : WorkqWait τ)
    (ha : asleep.effort = 0) : (workqWaitSection asleep node q w).pc.effort < 2 ∧
      (workqWaitSection asleep node q w).broadcast = false := by
  cases w with
  | sleep => exact ⟨by simp [workqWaitSection, ha], rfl⟩
  | unlock => exact ⟨by simp [workqWaitSection, WorkqClient.effort], rfl⟩
  | done => exact ⟨by simp [workqWaitSection, WorkqClient.effort], rfl⟩
  | freed => exact ⟨by simp [workqWaitSection, WorkqClient.effort], rfl⟩

theorem finishSection_effort : (workqFinishSection q).pc.effort < 2 ∧
    (workqFinishSection q).broadcast = false := by
  refine ⟨?_, rfl⟩
  simp only [workqFinishSection]
  split_ifs <;> simp [WorkqClient.effort]

omit [DecidableEq τ] in
theorem resetSection_effort (purgeId : Int) : (workqResetSection purgeId q).pc.effort < 4 ∧
    (workqResetSection purgeId q).broadcast = false ∧ (workqResetSection purgeId q).q = q := by
  refine ⟨?_, rfl, rfl⟩
  simp only [workqResetSection]
  split_ifs <;> simp [WorkqClient.effort]

theorem purge_pending_le (h : WorkqInv q) :
    (workqPurge q).2.pending.length ≤ q.pending.length := by
  rw [(workqPurge_spec h).pending]
  exact List.length_filter_le _ _

/-- A later section of a call brings it forward and adds no pending task. -/
theorem resumeSection_effort (h : WorkqInv q) {pc : WorkqClient τ} {joined : Bool}
    {r : WorkqSection τ} (hr : workqResumeSection joined q pc = some r)
    (hs : ∀ task iter node n, pc.sleepsOn = some (task, iter, node) → q.node node = some n →
      n.task = task ∧ q.mapTask task = some iter) :
    r.pc.effort < pc.effort ∧ r.broadcast = false ∧ r.q.pending.length ≤ q.pending.length := by
  cases pc with
  | waitAsleep task iter node awake =>
    have hle := (resumeSection_waits h hr hs (by simp [WorkqClient.sleepsOn])).trims.1.pending
    cases awake with
    | false => simp [workqResumeSection] at hr
    | true =>
      obtain rfl := Option.some.inj hr
      have heffort := waitSection_effort (.waitAsleep task iter node false) q node
        (workqWait true iter node q) rfl
      exact ⟨heffort.1, heffort.2, hle.length_le⟩
  | cancelAsleep task iter node awake =>
    have hle := (resumeSection_waits h hr hs (by simp [WorkqClient.sleepsOn])).trims.1.pending
    cases awake with
    | false => simp [workqResumeSection] at hr
    | true =>
      obtain rfl := Option.some.inj hr
      have heffort := waitSection_effort (.cancelAsleep task iter node false) q node
        (workqCancel true iter node q) rfl
      exact ⟨heffort.1, heffort.2, hle.length_le⟩
  | finishAsleep awake =>
    cases awake with
    | false => simp [workqResumeSection] at hr
    | true =>
      obtain rfl := Option.some.inj hr
      exact ⟨finishSection_effort.1, finishSection_effort.2,
        (finishSection_trims h).1.pending.length_le⟩
  | resetActive purgeId =>
    obtain rfl := Option.some.inj hr
    obtain ⟨hlt, hb, hq⟩ := resetSection_effort (q := q) purgeId
    exact ⟨hlt.trans (by simp [WorkqClient.effort]), hb, by rw [hq]⟩
  | resetAsleep purgeId awake =>
    cases awake with
    | false => simp [workqResumeSection] at hr
    | true =>
      obtain rfl := Option.some.inj hr
      obtain ⟨hlt, hb, hq⟩ := resetSection_effort (q := q) purgeId
      exact ⟨hlt, hb, by rw [hq]⟩
  | resetPurge purgeId blocking =>
    obtain rfl := Option.some.inj hr
    refine ⟨?_, rfl, purge_pending_le h⟩
    cases blocking <;> simp [WorkqClient.effort]
  | resetPurgeComplete | deletePurge =>
    obtain rfl := Option.some.inj hr
    exact ⟨by simp [WorkqClient.effort], rfl, purge_pending_le h⟩
  | resetSaved | resetRestore | deleteMark | deleteLists =>
    obtain rfl := Option.some.inj hr
    exact ⟨by simp [WorkqClient.effort], rfl, le_refl _⟩
  | deleteJoin =>
    cases joined with
    | false => simp [workqResumeSection] at hr
    | true =>
      obtain rfl := Option.some.inj hr
      exact ⟨by simp [WorkqClient.effort], rfl, le_refl _⟩
  | idle | unlocked | deleted | fault => simp [workqResumeSection] at hr

end Sections

section System

variable [Fintype C] {s s' : WorkqSys threads C τ}

namespace WorkqSys

def workersEffort (s : WorkqSys threads C τ) : Nat :=
  ∑ w, (s.worker w).effort (Fintype.card C)

def clientsEffort (s : WorkqSys threads C τ) : Nat := ∑ c, (s.client c).effort

def effort (s : WorkqSys threads C τ) : Nat :=
  s.workersEffort + s.clientsEffort + (2 * Fintype.card C + 3) * s.q.pending.length

omit [DecidableEq C] [DecidableEq τ] in
theorem workersEffort_update (s s' : WorkqSys threads C τ) {w : Fin threads} {pc : WorkqWorker}
    (hw : s'.worker = Function.update s.worker w pc) :
    s'.workersEffort + (s.worker w).effort (Fintype.card C) =
      s.workersEffort + pc.effort (Fintype.card C) := by
  unfold workersEffort
  rw [hw]
  exact sum_weight_update _ s.worker w pc

omit [DecidableEq C] [DecidableEq τ] in
/-- One worker moves, and the queues may change. -/
theorem effort_worker (s s' : WorkqSys threads C τ) {w : Fin threads} {pc : WorkqWorker}
    (hc : s'.client = s.client) (hw : s'.worker = Function.update s.worker w pc) :
    s'.effort + (s.worker w).effort (Fintype.card C) +
        (2 * Fintype.card C + 3) * s.q.pending.length =
      s.effort + pc.effort (Fintype.card C) +
        (2 * Fintype.card C + 3) * s'.q.pending.length := by
  have hworkers := workersEffort_update s s' hw
  have hclients : s'.clientsEffort = s.clientsEffort := by
    unfold clientsEffort
    rw [hc]
  unfold effort
  rw [hclients]
  omega

omit [DecidableEq τ] in
/-- One client moves, and no task becomes pending. -/
theorem effort_client (s s' : WorkqSys threads C τ) (c : C) (pc : WorkqClient τ)
    (hc : s'.client = Function.update s.client c pc) (hw : s'.worker = s.worker)
    (hq : s'.q.pending.length ≤ s.q.pending.length) (hlt : pc.effort < (s.client c).effort) :
    s'.effort < s.effort := by
  have hclients : s'.clientsEffort + (s.client c).effort = s.clientsEffort + pc.effort := by
    unfold clientsEffort
    rw [hc]
    exact sum_weight_update _ s.client c pc
  have hworkers : s'.workersEffort = s.workersEffort := by
    unfold workersEffort
    rw [hw]
  have hpend := Nat.mul_le_mul_left (2 * Fintype.card C + 3) hq
  unfold effort
  rw [hworkers]
  omega

omit [DecidableEq C] [DecidableEq τ] in
/-- A worker at the top of its loop gives up its wake-up, and a task that it takes weighs as much
as it did in queue_pending. -/
theorem thread_effort {w : Fin threads} (hw : (s.worker w).effort (Fintype.card C) = 1) :
    (s.thread w).effort < s.effort := by
  have hmove := effort_worker s (s.thread w) (w := w) rfl rfl
  rw [hw] at hmove
  rcases workqThreadSection_cases s.q with ⟨he, -⟩ | ⟨he, -⟩ | ⟨iter, rest, hp, -, he⟩
  · have hq : (s.thread w).q = s.q := congrArg Prod.snd he
    simp only [he, hq, WorkqWorker.effort] at hmove
    omega
  · have hq : (s.thread w).q = s.q := congrArg Prod.snd he
    simp only [he, hq, WorkqWorker.effort] at hmove
    omega
  · have hpend : (s.thread w).q.pending = rest := by
      have hq : (s.thread w).q = s.q.shift .pending .active iter .active := congrArg Prod.snd he
      have hseq : s.q.queues.seq .pending = iter :: rest := hp
      rw [hq, Workq.pending, shift_seq (by simp), Function.update_of_ne (by simp),
        Function.update_self, hseq, List.erase_cons_head]
    simp only [he, hpend, hp, WorkqWorker.effort, List.length_cons, Nat.mul_add] at hmove
    omega

omit [DecidableEq C] [DecidableEq τ] in
/-- A report wakes up every client, which the weight of the task pays for. -/
theorem report_effort (h : WorkqSysInv s) {w : Fin threads} {iter : IterPtr} {node : Nat}
    {ret : Bool} (hw : s.worker w = .returned iter node ret) :
    (s.report w iter node ret).effort ≤ s.effort := by
  have hworkers := workersEffort_update s (s.report w iter node ret) (w := w) rfl
  have hpend := Nat.mul_le_mul_left (2 * Fintype.card C + 3)
    (WorkqSys.Ready.trims h (.report hw)).pending.length_le
  have hclients : (s.report w iter node ret).clientsEffort ≤
      s.clientsEffort + Fintype.card C * 2 :=
    sum_weight_map_le WorkqClient.effort_signal s.client
  simp only [hw, WorkqWorker.effort] at hworkers
  unfold effort
  omega

end WorkqSys

theorem WorkqStep.effort_lt (h : WorkqSysInv s) {l : WorkqLabel threads C τ}
    (hs : WorkqStep s l s') (hi : l.1.internal = true) : s'.effort < s.effort := by
  obtain ⟨m, events⟩ := l
  change s.step m = some (events, s') at hs
  cases m with
  | call | wakeClient | wakeWorker => exact absurd hi (by simp [WorkqMove.internal])
  | resume c =>
    obtain ⟨r, hr, -, rfl⟩ := step_resume hs
    obtain ⟨hlt, hb, hq⟩ := resumeSection_effort h.inv hr (h.sleeper c)
    refine WorkqSys.effort_client s _ c r.pc rfl ?_ hq hlt
    simp [WorkqSys.section_, hb]
  | read c garbage =>
    obtain ⟨node, hc, -, rfl⟩ := step_read hs
    refine WorkqSys.effort_client s _ c _ rfl rfl (le_refl _) ?_
    simp [hc, WorkqClient.effort]
  | work w =>
    obtain ⟨-, s₁, hr, rfl⟩ := step_work hs
    cases hr with
    | enter hw => exact WorkqSys.thread_effort (by rcases hw with hw | hw <;> rw [hw] <;> rfl)
    | report hw =>
      refine lt_of_lt_of_le (WorkqSys.thread_effort ?_) (WorkqSys.report_effort h hw)
      simp [WorkqSys.report, WorkqWorker.effort]
  | begin w =>
    obtain ⟨iter, node, hw, -, rfl⟩ := step_begin hs
    have hmove := WorkqSys.effort_worker s (s.setWorker w (.running iter node)) (w := w) rfl rfl
    have hq : (s.setWorker w (.running iter node)).q = s.q := rfl
    simp only [hw, hq, WorkqWorker.effort] at hmove
    omega
  | finish w ret =>
    obtain ⟨iter, node, hw, -, rfl⟩ := step_finish hs
    have hmove :=
      WorkqSys.effort_worker s (s.setWorker w (.returned iter node ret)) (w := w) rfl rfl
    have hq : (s.setWorker w (.returned iter node ret)).q = s.q := rfl
    simp only [hw, hq, WorkqWorker.effort] at hmove
    omega

theorem workqInternal_lowers : Lowers (@WorkqInternal threads C τ _ _)
    WorkqSysInv WorkqSys.effort :=
  fun _ _ _ hi hs => ⟨WorkqStep.inv hi hs.1, hs.1.effort_lt hi hs.2⟩

end System

end LibCC
