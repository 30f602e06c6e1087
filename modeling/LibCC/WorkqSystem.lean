import LibCC.LabelledRun
import LibCC.WorkqModel

/-! The threads that use a workq. A step is one critical section of one
thread, or one access that a thread makes without the mutex: a write of
purge_id, a read of node->status, the start or the return of run_fn. -/

namespace LibCC

open LabelledRun

inductive WorkqCall (τ : Type)
  | run (task : τ) (priority : Int) (alloc : WorkqAlloc)
  | wait (task : τ) (blocking : Bool)
  | cancel (task : τ) (blocking : Bool)
  | status (task : τ)
  | pending
  | purge
  | flush
  | finish
  | reset (blocking : Bool)
  | delete
  deriving DecidableEq

/-- Where a client thread stands between two of its steps. `awake` tells
whether a thread that waits on cond_complete has been signalled. -/
inductive WorkqClient (τ : Type)
  | idle
  | waitAsleep (task : τ) (iter : IterPtr) (node : Nat) (awake : Bool)
  | cancelAsleep (task : τ) (iter : IterPtr) (node : Nat) (awake : Bool)
  | unlocked (node : Nat)
  | finishAsleep (awake : Bool)
  | resetSaved (purgeId : Int) (blocking : Bool)
  | resetPurge (purgeId : Int) (blocking : Bool)
  | resetActive (purgeId : Int)
  | resetAsleep (purgeId : Int) (awake : Bool)
  | resetPurgeComplete (purgeId : Int)
  | resetRestore (purgeId : Int)
  | deleteJoin
  | deleteMark
  | deletePurge
  | deleteLists
  | deleted
  | fault
  deriving DecidableEq

/-- Where a worker thread stands between two of its steps. -/
inductive WorkqWorker
  | start
  | asleep (awake : Bool)
  | taken (iter : IterPtr) (node : Nat)
  | running (iter : IterPtr) (node : Nat)
  | returned (iter : IterPtr) (node : Nat) (ret : Bool)
  | exited
  deriving DecidableEq

/-- pthread_cond_broadcast(&self->cond_complete) -/
def WorkqClient.signal {τ : Type} : WorkqClient τ → WorkqClient τ
  | waitAsleep task iter node _ => waitAsleep task iter node true
  | cancelAsleep task iter node _ => cancelAsleep task iter node true
  | finishAsleep _ => finishAsleep true
  | resetAsleep purgeId _ => resetAsleep purgeId true
  | pc => pc

/-- pthread_cond_broadcast(&self->cond_pending) -/
def WorkqWorker.signal : WorkqWorker → WorkqWorker
  | asleep _ => asleep true
  | pc => pc

/-- A workq with its worker threads and the client threads `C`. -/
structure WorkqSys (threads : Nat) (C τ : Type) where
  q : Workq τ
  client : C → WorkqClient τ
  worker : Fin threads → WorkqWorker

/-- The steps of the threads. `wakeClient` and `wakeWorker` are spurious
wake-ups; `garbage` is what a read of a freed node yields. -/
inductive WorkqMove (threads : Nat) (C τ : Type)
  | call (c : C) (call : WorkqCall τ)
  | resume (c : C)
  | read (c : C) (garbage : WorkqStatus)
  | wakeClient (c : C)
  | wakeWorker (w : Fin threads)
  | work (w : Fin threads)
  | begin (w : Fin threads)
  | finish (w : Fin threads) (ret : Bool)

variable {threads : Nat} {C τ : Type} [DecidableEq C] [DecidableEq τ]

def workqSysNew (data : IterPtr → Nat) : WorkqSys threads C τ where
  q := workqNew data
  client _ := .idle
  worker _ := .start

/-- What one critical section of a client does. -/
structure WorkqSection (τ : Type) where
  events : List (WorkqEvent τ)
  pc : WorkqClient τ
  broadcast : Bool
  q : Workq τ

/-- The section that ends a wait or cancel call, or its sleep. -/
def workqWaitSection (asleep : WorkqClient τ) (node : Nat) (q : Workq τ) :
    WorkqWait τ → WorkqSection τ
  | .sleep => ⟨[], asleep, false, q⟩
  | .unlock => ⟨[], .unlocked node, false, q⟩
  | .done status q' => ⟨[.returned node status], .idle, false, q'⟩
  | .freed => ⟨[], .fault, false, q⟩

def workqFinishSection (q : Workq τ) : WorkqSection τ :=
  let r := workqFinish q
  ⟨r.1, if r.2.1 then .finishAsleep false else .idle, false, r.2.2⟩

/-- The loop of cc_workq_reset that waits for the active queue. -/
def workqResetSection (purgeId : Int) (q : Workq τ) : WorkqSection τ :=
  ⟨[], if q.active ≠ [] then .resetAsleep purgeId false else .resetPurgeComplete purgeId, false, q⟩

/-- The first step of a call. -/
def workqCallSection (q : Workq τ) : WorkqCall τ → Option (WorkqSection τ)
  | .run task priority alloc =>
    if alloc.Fresh q then
      let r := workqRun task priority alloc q
      some ⟨r.1, .idle, r.2.1, r.2.2⟩
    else none
  | .wait task blocking =>
    match q.mapTask task with
    | none => some ⟨[.result .error], .idle, false, q⟩
    | some iter =>
      let node := q.queues.data iter
      some (workqWaitSection (.waitAsleep task iter node false) node q
        (workqWait blocking iter node q))
  | .cancel task blocking =>
    match q.mapTask task with
    | none => some ⟨[.result .error], .idle, false, q⟩
    | some iter =>
      let node := q.queues.data iter
      some (workqWaitSection (.cancelAsleep task iter node false) node q
        (workqCancel blocking iter node q))
  | .status task => some ⟨[.result (workqStatus task q)], .idle, false, q⟩
  | .pending => some ⟨[.size (workqPending q)], .idle, false, q⟩
  | .purge => let r := workqPurge q; some ⟨r.1, .idle, false, r.2⟩
  | .flush => let r := workqFlushLocked q; some ⟨r.1, .idle, false, r.2⟩
  | .finish => some (workqFinishSection q)
  | .reset blocking => some ⟨[], .resetSaved q.purgeId blocking, false, q⟩
  | .delete => some ⟨[], .deleteJoin, true, { q with state := .stop }⟩

/-- A later step of a call; `joined` tells whether all workers have exited. -/
def workqResumeSection (joined : Bool) (q : Workq τ) : WorkqClient τ → Option (WorkqSection τ)
  | .waitAsleep task iter node true =>
    some (workqWaitSection (.waitAsleep task iter node false) node q (workqWait true iter node q))
  | .cancelAsleep task iter node true =>
    some (workqWaitSection (.cancelAsleep task iter node false) node q
      (workqCancel true iter node q))
  | .finishAsleep true => some (workqFinishSection q)
  | .resetSaved purgeId blocking =>
    some ⟨[], .resetPurge purgeId blocking, false, { q with purgeId := workqPurgeMark }⟩
  | .resetPurge purgeId blocking =>
    let r := workqPurge q
    some ⟨r.1, if blocking then .resetActive purgeId else .resetRestore purgeId, false, r.2⟩
  | .resetActive purgeId => some (workqResetSection purgeId q)
  | .resetAsleep purgeId true => some (workqResetSection purgeId q)
  | .resetPurgeComplete purgeId =>
    let r := workqPurge q
    some ⟨r.1, .resetRestore purgeId, false, r.2⟩
  | .resetRestore purgeId => some ⟨[], .idle, false, { q with purgeId := purgeId }⟩
  | .deleteJoin => if joined then some ⟨[], .deleteMark, false, q⟩ else none
  | .deleteMark => some ⟨[], .deletePurge, false, { q with purgeId := workqPurgeMark }⟩
  | .deletePurge => let r := workqPurge q; some ⟨r.1, .deleteLists, false, r.2⟩
  | .deleteLists => some ⟨[], .deleted, false, q⟩
  | _ => none

/-- The loop of cc_workq_thread up to where the mutex is released. -/
def workqThreadSection (q : Workq τ) : WorkqWorker × Workq τ :=
  if q.pending = [] ∧ q.state = .running then (.asleep false, q)
  else if q.state = .stop then (.exited, q)
  else
    match q.pending.head? with
    | none => (.asleep false, q)
    | some iter => (.taken iter (q.queues.data iter), workqTake iter q)

namespace WorkqSys

def section_ (s : WorkqSys threads C τ) (c : C) (r : WorkqSection τ) : WorkqSys threads C τ where
  q := r.q
  client := Function.update s.client c r.pc
  worker := if r.broadcast then fun w => (s.worker w).signal else s.worker

def setClient (s : WorkqSys threads C τ) (c : C) (pc : WorkqClient τ) : WorkqSys threads C τ :=
  { s with client := Function.update s.client c pc }

def setWorker (s : WorkqSys threads C τ) (w : Fin threads) (pc : WorkqWorker) :
    WorkqSys threads C τ :=
  { s with worker := Function.update s.worker w pc }

/-- A worker reports the return of run_fn and is back at the top of its loop. -/
def report (s : WorkqSys threads C τ) (w : Fin threads) (iter : IterPtr) (node : Nat) (ret : Bool) :
    WorkqSys threads C τ where
  q := workqReport iter node ret s.q
  client := fun c => (s.client c).signal
  worker := Function.update s.worker w .start

def thread (s : WorkqSys threads C τ) (w : Fin threads) : WorkqSys threads C τ :=
  let r := workqThreadSection s.q
  { s with q := r.2, worker := Function.update s.worker w r.1 }

/-- One step: what is observed, and the state after it; `none` when the
thread cannot make this step. -/
def step (s : WorkqSys threads C τ) :
    WorkqMove threads C τ → Option (List (WorkqEvent τ) × WorkqSys threads C τ)
  | .call c call =>
    if s.client c = .idle then (workqCallSection s.q call).map fun r => (r.events, s.section_ c r)
    else none
  | .resume c =>
    (workqResumeSection (∀ w, s.worker w = .exited) s.q (s.client c)).map
      fun r => (r.events, s.section_ c r)
  | .read c garbage =>
    match s.client c with
    | .unlocked node =>
      some ([.peeked node ((s.q.node node).elim garbage WorkqNode.status)], s.setClient c .idle)
    | _ => none
  | .wakeClient c => some ([], s.setClient c (s.client c).signal)
  | .wakeWorker w => some ([], s.setWorker w (s.worker w).signal)
  | .work w =>
    match s.worker w with
    | .start | .asleep true => some ([], s.thread w)
    | .returned iter node ret => some ([], (s.report w iter node ret).thread w)
    | _ => none
  | .begin w =>
    match s.worker w with
    | .taken iter node => some ([.started node], s.setWorker w (.running iter node))
    | _ => none
  | .finish w ret =>
    match s.worker w with
    | .running iter node => some ([.ended node ret], s.setWorker w (.returned iter node ret))
    | _ => none

end WorkqSys

abbrev WorkqLabel (threads : Nat) (C τ : Type) := WorkqMove threads C τ × List (WorkqEvent τ)

def WorkqStep (s : WorkqSys threads C τ) (l : WorkqLabel threads C τ) (s' : WorkqSys threads C τ) :
    Prop :=
  s.step l.1 = some (l.2, s')

/-- The runs of a workq, newest step first. -/
abbrev WorkqReach (data : IterPtr → Nat) :
    List (WorkqLabel threads C τ) → WorkqSys threads C τ → Prop :=
  Run WorkqStep (workqSysNew data)

/-- A schedule, oldest move first, and the labels of its run. -/
def workqExec (s : WorkqSys threads C τ) :
    List (WorkqMove threads C τ) → Option (List (WorkqLabel threads C τ) × WorkqSys threads C τ)
  | [] => some ([], s)
  | m :: ms =>
    match s.step m with
    | none => none
    | some (events, s') => (workqExec s' ms).map fun r => (r.1 ++ [(m, events)], r.2)

/-- Whether every move of a schedule satisfies a guard in the state before it. -/
def workqAllowed (guard : WorkqSys threads C τ → WorkqMove threads C τ → Bool)
    (s : WorkqSys threads C τ) : List (WorkqMove threads C τ) → Bool
  | [] => true
  | m :: ms =>
    guard s m && match s.step m with
      | none => false
      | some r => workqAllowed guard r.2 ms

theorem guarded_exec {guard : WorkqSys threads C τ → WorkqMove threads C τ → Bool}
    {s₀ s s' : WorkqSys threads C τ} {tr ls : List (WorkqLabel threads C τ)}
    (h : Run (Guarded WorkqStep fun s l => guard s l.1 = true) s₀ tr s)
    {ms : List (WorkqMove threads C τ)} (ha : workqAllowed guard s ms = true)
    (he : workqExec s ms = some (ls, s')) :
    Run (Guarded WorkqStep fun s l => guard s l.1 = true) s₀ (ls ++ tr) s' := by
  induction ms generalizing s tr ls with
  | nil =>
    obtain ⟨rfl, rfl⟩ := Prod.mk.inj (Option.some.inj he)
    exact h
  | cons m ms ih =>
    cases hm : s.step m with
    | none => simp [workqExec, hm] at he
    | some r =>
      simp only [workqExec, hm, Option.map_eq_some_iff] at he
      simp only [workqAllowed, hm, Bool.and_eq_true] at ha
      obtain ⟨⟨ls', s₁⟩, he', hr⟩ := he
      obtain ⟨rfl, rfl⟩ := Prod.mk.inj hr
      have hh := ih (h.snoc (l := (m, r.1)) ⟨hm, ha.1⟩) ha.2 he'
      rw [List.append_assoc]
      exact hh

theorem guarded_play (data : IterPtr → Nat)
    (guard : WorkqSys threads C τ → WorkqMove threads C τ → Bool)
    (ms : List (WorkqMove threads C τ))
    (h : (workqExec (workqSysNew data : WorkqSys threads C τ) ms).isSome = true)
    (ha : workqAllowed guard (workqSysNew data) ms = true) :
    Run (Guarded WorkqStep fun s l => guard s l.1 = true) (workqSysNew data)
      ((workqExec (workqSysNew data : WorkqSys threads C τ) ms).get h).1
      ((workqExec (workqSysNew data : WorkqSys threads C τ) ms).get h).2 := by
  have hnil : Run (Guarded WorkqStep fun s l => guard s l.1 = true) (workqSysNew data) []
      (workqSysNew data : WorkqSys threads C τ) := .nil
  have hh := guarded_exec hnil ha (Option.some_get h).symm
  rw [List.append_nil] at hh
  exact hh

theorem WorkqReach.play (data : IterPtr → Nat) (ms : List (WorkqMove threads C τ))
    (h : (workqExec (workqSysNew data : WorkqSys threads C τ) ms).isSome = true) :
    WorkqReach data ((workqExec (workqSysNew data : WorkqSys threads C τ) ms).get h).1
      ((workqExec (workqSysNew data : WorkqSys threads C τ) ms).get h).2 := by
  refine (guarded_play data (fun _ _ => true) ms h ?_).unguard
  generalize workqSysNew data = s at h
  induction ms generalizing s with
  | nil => rfl
  | cons m ms ih =>
    cases hm : s.step m with
    | none => simp [workqExec, hm] at h
    | some r =>
      simp only [workqExec, hm, Option.isSome_map] at h
      simp only [workqAllowed, hm, Bool.true_and]
      exact ih r.2 h

end LibCC
