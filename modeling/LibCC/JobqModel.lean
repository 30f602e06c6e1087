import LibCC.ListSequences

/-! The functions of cc_jobq.c that run with the mutex held. The queues are
sequences of iters, as cc_list keeps them, and an iter holds its task. -/

namespace LibCC

inductive JobqState
  | running | paused | stop
  deriving DecidableEq, Repr

inductive JobqQueue
  | pending | active
  deriving DecidableEq, Repr

/-- The part of cc_jobq_t that changes after cc_jobq_new. -/
structure Jobq (τ : Type) where
  state : JobqState
  queues : ListSeqs JobqQueue τ

variable {τ : Type}

/-- A jobq without jobs; `data` is what the memory of iters holds. -/
def jobqNew (data : IterPtr → τ) : Jobq τ where
  state := .running
  queues := ListSeqs.empty data

namespace Jobq

def pending (q : Jobq τ) : List IterPtr := q.queues.seq .pending
def active (q : Jobq τ) : List IterPtr := q.queues.seq .active
def task (q : Jobq τ) (iter : IterPtr) : τ := q.queues.data iter

/-- The iter that the allocator returns is in no queue. -/
def Fresh (q : Jobq τ) (alloc : Option IterPtr) : Bool :=
  alloc.all fun iter => iter ∉ q.pending ∧ iter ∉ q.active

end Jobq

/-- cc_jobq_run: the return value, whether cond_pending is broadcast, and
the jobq. -/
def jobqRun (task : τ) (alloc : Option IterPtr) (q : Jobq τ) : Bool × Bool × Jobq τ :=
  match alloc with
  | none => (false, false, q)
  | some iter =>
    let q := { q with queues := q.queues.append .pending none iter task }
    (true, q.state = .running, q)

def jobqPause (q : Jobq τ) : Jobq τ := { q with state := .paused }

def jobqResume (q : Jobq τ) : Jobq τ := { q with state := .running }

/-- The start of cc_jobq_finish; the first component tells whether
cond_pending is broadcast. -/
def jobqFinishResume (q : Jobq τ) : Bool × Jobq τ :=
  if q.state = .paused then (true, { q with state := .running }) else (false, q)

/-- The condition of the loop of cc_jobq_finish. -/
def jobqUnfinished (q : Jobq τ) : Bool := q.pending ≠ [] ∨ q.active ≠ []

def jobqPending (q : Jobq τ) : Int := q.pending.length + q.active.length

/-- The head of queue_pending becomes active in cc_jobq_thread. -/
def jobqTake (iter : IterPtr) (q : Jobq τ) : Jobq τ :=
  { q with queues := q.queues.swapn .pending .active iter none }

/-- The job of a worker leaves queue_active in cc_jobq_thread; the first
component tells whether cond_complete is broadcast. -/
def jobqComplete (iter : IterPtr) (q : Jobq τ) : Bool × Jobq τ :=
  let q := { q with queues := q.queues.remove .active iter }
  (q.pending = [] ∧ q.active = [], q)

end LibCC
