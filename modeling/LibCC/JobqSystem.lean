import LibCC.JobqModel
import LibCC.LabelledRun

/-! The threads that use a jobq: its workers, the client threads, and the
jobs, which call the jobq from the workers that run them. A step is one
critical section, or the start or the return of run_fn. -/

namespace LibCC

open LabelledRun

inductive JobqCall (τ : Type)
  | run (task : τ) (alloc : Option IterPtr)
  | pause
  | resume
  | finish
  | pending
  | delete
  deriving DecidableEq

/-- Who calls the jobq: a client thread, or the job that a worker runs. -/
inductive JobqAgent (threads : Nat) (C : Type)
  | client (c : C)
  | job (w : Fin threads)
  deriving DecidableEq

/-- Where a caller stands between two of its steps. `awake` tells whether a
thread that waits on cond_complete has been signalled. -/
inductive JobqCaller
  | idle
  | finishAsleep (awake : Bool)
  | deleteAsleep (awake : Bool)
  | deleteStop
  | deleteJoin
  | deleteLists
  | deleted
  deriving DecidableEq

/-- Where a worker thread stands between two of its steps; `fault` is a NULL
iter taken from queue_pending. -/
inductive JobqWorker (τ : Type)
  | start
  | asleep (awake : Bool)
  | taken (iter : IterPtr) (task : τ)
  | running (iter : IterPtr) (task : τ)
  | returned (iter : IterPtr) (task : τ)
  | exited
  | fault
  deriving DecidableEq

inductive JobqEvent (threads : Nat) (τ : Type)
  | accepted (task : τ)
  | rejected
  | size (n : Int)
  | finished
  | deleted
  | taken (w : Fin threads) (task : τ)
  | begun (w : Fin threads) (task : τ)
  | ended (w : Fin threads) (task : τ)
  | completed (w : Fin threads) (task : τ)
  deriving DecidableEq

/-- pthread_cond_broadcast(&self->cond_complete) -/
def JobqCaller.signal : JobqCaller → JobqCaller
  | finishAsleep _ => finishAsleep true
  | deleteAsleep _ => deleteAsleep true
  | pc => pc

/-- Whether the thread has called cc_jobq_delete. -/
def JobqCaller.deleting : JobqCaller → Bool
  | idle | finishAsleep _ => false
  | _ => true

/-- pthread_cond_broadcast(&self->cond_pending) -/
def JobqWorker.signal {τ : Type} : JobqWorker τ → JobqWorker τ
  | asleep _ => asleep true
  | pc => pc

structure JobqSys (threads : Nat) (C τ : Type) where
  q : Jobq τ
  caller : JobqAgent threads C → JobqCaller
  worker : Fin threads → JobqWorker τ

/-- The steps of the threads. `wakeCaller` and `wakeWorker` are spurious
wake-ups, `begin` and `finish` the start and the return of run_fn. -/
inductive JobqMove (threads : Nat) (C τ : Type)
  | call (a : JobqAgent threads C) (call : JobqCall τ)
  | resume (a : JobqAgent threads C)
  | wakeCaller (a : JobqAgent threads C)
  | wakeWorker (w : Fin threads)
  | work (w : Fin threads)
  | begin (w : Fin threads)
  | finish (w : Fin threads)
  deriving DecidableEq

/-- What one critical section of a caller does. -/
structure JobqSection (threads : Nat) (τ : Type) where
  events : List (JobqEvent threads τ)
  pc : JobqCaller
  broadcast : Bool
  q : Jobq τ

variable {threads : Nat} {C τ : Type} [DecidableEq C]

def jobqSysNew (data : IterPtr → τ) : JobqSys threads C τ where
  q := jobqNew data
  caller _ := .idle
  worker _ := .start

/-- The loop of cc_jobq_finish, as cc_jobq_finish or as cc_jobq_delete runs it. -/
def jobqFinishSection (events : List (JobqEvent threads τ)) (asleep next : JobqCaller)
    (broadcast : Bool) (q : Jobq τ) : JobqSection threads τ :=
  if jobqUnfinished q then ⟨[], asleep, broadcast, q⟩ else ⟨events, next, broadcast, q⟩

/-- The first step of a call. -/
def jobqCallSection (q : Jobq τ) : JobqCall τ → Option (JobqSection threads τ)
  | .run task alloc =>
    if q.Fresh alloc then
      let r := jobqRun task alloc q
      some ⟨[if r.1 then .accepted task else .rejected], .idle, r.2.1, r.2.2⟩
    else none
  | .pause => some ⟨[], .idle, false, jobqPause q⟩
  | .resume => some ⟨[], .idle, true, jobqResume q⟩
  | .finish =>
    let r := jobqFinishResume q
    some (jobqFinishSection [.finished] (.finishAsleep false) .idle r.1 r.2)
  | .pending => some ⟨[.size (jobqPending q)], .idle, false, q⟩
  | .delete =>
    let r := jobqFinishResume q
    some (jobqFinishSection [] (.deleteAsleep false) .deleteStop r.1 r.2)

/-- A later step of a call; `joined` tells whether all workers have exited. -/
def jobqResumeSection (joined : Bool) (q : Jobq τ) : JobqCaller → Option (JobqSection threads τ)
  | .finishAsleep true => some (jobqFinishSection [.finished] (.finishAsleep false) .idle false q)
  | .deleteAsleep true => some (jobqFinishSection [] (.deleteAsleep false) .deleteStop false q)
  | .deleteStop => some ⟨[], .deleteJoin, true, { q with state := .stop }⟩
  | .deleteJoin => if joined then some ⟨[], .deleteLists, false, q⟩ else none
  | .deleteLists => some ⟨[.deleted], .deleted, false, q⟩
  | _ => none

/-- The loop of cc_jobq_thread up to where the mutex is released. -/
def jobqThreadSection (w : Fin threads) (q : Jobq τ) :
    List (JobqEvent threads τ) × JobqWorker τ × Jobq τ :=
  if q.state = .paused ∨ (q.pending = [] ∧ q.state = .running) then ([], .asleep false, q)
  else if q.state = .stop then ([], .exited, q)
  else
    match q.pending.head? with
    | none => ([], .fault, q)
    | some iter => ([.taken w (q.task iter)], .taken iter (q.task iter), jobqTake iter q)

namespace JobqSys

def section_ (s : JobqSys threads C τ) (a : JobqAgent threads C) (r : JobqSection threads τ) :
    JobqSys threads C τ where
  q := r.q
  caller := Function.update s.caller a r.pc
  worker := if r.broadcast then fun w => (s.worker w).signal else s.worker

def setCaller (s : JobqSys threads C τ) (a : JobqAgent threads C) (pc : JobqCaller) :
    JobqSys threads C τ :=
  { s with caller := Function.update s.caller a pc }

omit [DecidableEq C] in
def setWorker (s : JobqSys threads C τ) (w : Fin threads) (pc : JobqWorker τ) :
    JobqSys threads C τ :=
  { s with worker := Function.update s.worker w pc }

omit [DecidableEq C] in
/-- A worker completes its job and is back at the top of its loop. -/
def complete (s : JobqSys threads C τ) (w : Fin threads) (iter : IterPtr) : JobqSys threads C τ :=
  let r := jobqComplete iter s.q
  { q := r.2
    caller := if r.1 then fun a => (s.caller a).signal else s.caller
    worker := Function.update s.worker w .start }

omit [DecidableEq C] in
def thread (s : JobqSys threads C τ) (w : Fin threads) :
    List (JobqEvent threads τ) × JobqSys threads C τ :=
  let r := jobqThreadSection w s.q
  (r.1, { s with q := r.2.2, worker := Function.update s.worker w r.2.1 })

omit [DecidableEq C] in
/-- A client can always call; a job calls while its worker runs it. -/
def calls (s : JobqSys threads C τ) : JobqAgent threads C → Bool
  | .client _ => true
  | .job w =>
    match s.worker w with
    | .running _ _ => true
    | _ => false

/-- One step: what is observed, and the state after it; `none` when the
thread cannot make this step. -/
def step (s : JobqSys threads C τ) :
    JobqMove threads C τ → Option (List (JobqEvent threads τ) × JobqSys threads C τ)
  | .call a call =>
    if s.caller a = .idle ∧ s.calls a then
      (jobqCallSection s.q call).map fun r => (r.events, s.section_ a r)
    else none
  | .resume a =>
    (jobqResumeSection (∀ w, s.worker w matches .exited) s.q (s.caller a)).map
      fun r => (r.events, s.section_ a r)
  | .wakeCaller a => some ([], s.setCaller a (s.caller a).signal)
  | .wakeWorker w => some ([], s.setWorker w (s.worker w).signal)
  | .work w =>
    match s.worker w with
    | .start | .asleep true => some (s.thread w)
    | .returned iter task =>
      let r := (s.complete w iter).thread w
      some (.completed w task :: r.1, r.2)
    | _ => none
  | .begin w =>
    match s.worker w with
    | .taken iter task => some ([.begun w task], s.setWorker w (.running iter task))
    | _ => none
  | .finish w =>
    match s.worker w with
    | .running iter task =>
      if s.caller (.job w) = .idle then some ([.ended w task], s.setWorker w (.returned iter task))
      else none
    | _ => none

omit [DecidableEq C] in
/-- What the callers keep to: cc_jobq_delete is called by a client when all
other clients have stopped using the jobq, and no client uses it afterwards. -/
def Contract (s : JobqSys threads C τ) : JobqMove threads C τ → Prop
  | .call (.client c) .delete => ∀ c', c' ≠ c → s.caller (.client c') = .idle
  | .call (.job _) .delete => False
  | .call (.client _) _ => ∀ c, (s.caller (.client c)).deleting = false
  | _ => True

end JobqSys

abbrev JobqLabel (threads : Nat) (C τ : Type) := JobqMove threads C τ × List (JobqEvent threads τ)

def JobqStep (s : JobqSys threads C τ) (l : JobqLabel threads C τ) (s' : JobqSys threads C τ) :
    Prop :=
  s.step l.1 = some (l.2, s')

/-- The runs of a jobq, newest step first. -/
abbrev JobqReach (data : IterPtr → τ) :
    List (JobqLabel threads C τ) → JobqSys threads C τ → Prop :=
  Run (Guarded JobqStep fun s l => s.Contract l.1) (jobqSysNew data)

end LibCC
