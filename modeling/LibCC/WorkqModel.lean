import LibCC.ListSequences

/-! The functions of cc_workq.c that run with the mutex held. The queues are
sequences of iters, as cc_list keeps them, and map_task is the finite map
from tasks to iters that cc_map keeps. A node is named by a number that is
not used twice; a freed node is `none`. -/

namespace LibCC

open SequenceFamily

inductive WorkqStatus
  | error | pending | active | complete | failure
  deriving DecidableEq, Repr

inductive WorkqState
  | running | stop
  deriving DecidableEq, Repr

inductive WorkqQueue
  | pending | active | complete
  deriving DecidableEq, Repr

/-- CC_WORKQ_PURGE -/
def workqPurgeMark : Int := -1

structure WorkqNode (τ : Type) where
  status : WorkqStatus
  priority : Int
  purgeId : Int
  task : τ
  deriving DecidableEq, Repr

/-- The part of cc_workq_t that changes after cc_workq_new. -/
structure Workq (τ : Type) where
  state : WorkqState
  purgeId : Int
  mapTask : τ → Option IterPtr
  queues : ListSeqs WorkqQueue Nat
  node : Nat → Option (WorkqNode τ)
  nextNode : Nat

/-- What a caller or a callback can observe, and the creation of a node. -/
inductive WorkqEvent (τ : Type)
  | created (node : Nat) (task : τ)
  | started (node : Nat)
  | ended (node : Nat) (ret : Bool)
  | finished (node : Nat) (task : τ) (status : WorkqStatus)
  /-- A call removes a node and returns its status. -/
  | returned (node : Nat) (status : WorkqStatus)
  /-- A call returns the status that a node has after the mutex is unlocked. -/
  | peeked (node : Nat) (status : WorkqStatus)
  /-- Any other result of a call. -/
  | result (status : WorkqStatus)
  | size (n : Int)
  deriving DecidableEq, Repr

/-- The outcome of the allocations of cc_workq_run. -/
inductive WorkqAlloc
  | failNode
  | failQueue
  | failMapAdd (iter : IterPtr)
  | success (iter : IterPtr)
  deriving DecidableEq, Repr

variable {τ : Type} [DecidableEq τ]

/-- An empty workq; `data` is what the memory of iters holds. -/
def workqNew (data : IterPtr → Nat) : Workq τ where
  state := .running
  purgeId := 0
  mapTask _ := none
  queues := ListSeqs.empty data
  node _ := none
  nextNode := 0

namespace Workq

omit [DecidableEq τ]

def pending (q : Workq τ) : List IterPtr := q.queues.seq .pending
def active (q : Workq τ) : List IterPtr := q.queues.seq .active
def complete (q : Workq τ) : List IterPtr := q.queues.seq .complete

/-- The node that cc_list_peekIter yields, while it is allocated. -/
def peek (q : Workq τ) (iter : IterPtr) : Option (WorkqNode τ) := q.node (q.queues.data iter)

def priority (q : Workq τ) (iter : IterPtr) : Int := (q.peek iter).elim 0 WorkqNode.priority

def setNode (q : Workq τ) (node : Nat) (f : WorkqNode τ → WorkqNode τ) : Workq τ :=
  { q with node := Function.update q.node node ((q.node node).map f) }

end Workq

omit [DecidableEq τ] in
/-- The iter that the allocator returns is in no queue. -/
def WorkqAlloc.Fresh (q : Workq τ) : WorkqAlloc → Bool
  | failNode | failQueue => true
  | failMapAdd iter | success iter => iter ∉ q.pending ∧ iter ∉ q.active ∧ iter ∉ q.complete

def workqRemoveLocked (finish : Bool) (queue : WorkqQueue) (iter : IterPtr) (q : Workq τ) :
    List (WorkqEvent τ) × Workq τ :=
  let node := q.queues.data iter
  match q.node node with
  | none => ([], q)
  | some n =>
    (if finish then [.finished node n.task n.status] else [],
      { q with
        queues := q.queues.remove queue iter
        mapTask := Function.update q.mapTask n.task none
        node := Function.update q.node node none })

/-- The loops of cc_workq_flushLocked and cc_workq_purge over the iters of a
queue from one on: the nodes that satisfy `drop` are removed. -/
def workqDropLoop (queue : WorkqQueue) (drop : WorkqNode τ → Bool) :
    List IterPtr → Workq τ → List (WorkqEvent τ) × Workq τ
  | [], q => ([], q)
  | iter :: next, q =>
    if (q.peek iter).any drop then
      let removed := workqRemoveLocked true queue iter q
      let rest := workqDropLoop queue drop next removed.2
      (removed.1 ++ rest.1, rest.2)
    else workqDropLoop queue drop next q

def workqFlushLocked (q : Workq τ) : List (WorkqEvent τ) × Workq τ :=
  workqDropLoop .complete (fun _ => true) q.complete q

omit [DecidableEq τ] in
/-- node->purge_id != self->purge_id -/
def WorkqNode.stale (purgeId : Int) (n : WorkqNode τ) : Bool := n.purgeId ≠ purgeId

omit [DecidableEq τ] in
/-- Whether cc_workq_purge drops a node of the complete queue. -/
def WorkqNode.spent (purgeId : Int) (n : WorkqNode τ) : Bool :=
  n.purgeId ≠ purgeId ∨ n.purgeId = workqPurgeMark

omit [DecidableEq τ] in
def WorkqNode.mark (purgeId : Int) (n : WorkqNode τ) : WorkqNode τ :=
  if n.purgeId ≠ purgeId then { n with purgeId := workqPurgeMark } else n

omit [DecidableEq τ] in
/-- The loop of cc_workq_purge over the active queue. -/
def workqPurgeActive : List IterPtr → Workq τ → Workq τ
  | [], q => q
  | iter :: next, q =>
    workqPurgeActive next (q.setNode (q.queues.data iter) (WorkqNode.mark q.purgeId))

/-- The critical section of cc_workq_purge. -/
def workqPurge (q : Workq τ) : List (WorkqEvent τ) × Workq τ :=
  let dropped := workqDropLoop .pending (WorkqNode.stale q.purgeId) q.pending q
  let q := workqPurgeActive dropped.2.active dropped.2
  let dropped' := workqDropLoop .complete (WorkqNode.spent q.purgeId) q.complete q
  let q := dropped'.2
  (dropped.1 ++ dropped'.1,
    if q.purgeId ≠ workqPurgeMark then { q with purgeId := 1 - q.purgeId } else q)

/-- One turn of the loop of cc_workq_finish; the second component tells
whether it goes on to wait. -/
def workqFinish (q : Workq τ) : List (WorkqEvent τ) × Bool × Workq τ :=
  let flushed := if q.complete ≠ [] then workqFlushLocked q else ([], q)
  (flushed.1, flushed.2.pending ≠ [] ∨ flushed.2.active ≠ [], flushed.2)

omit [DecidableEq τ] in
/-- The insert position of cc_workq_run, searched from the tail. -/
def workqInsertPos (priority : Int) (q : Workq τ) : Option IterPtr :=
  q.pending.reverse.find? (fun pos => q.priority pos ≥ priority)

omit [DecidableEq τ] in
/-- The move of a pending node to a new priority in cc_workq_run. Its
priority is still the old one while the queue is searched. -/
def workqReposition (priority : Int) (iter : IterPtr) (q : Workq τ) : ListSeqs WorkqQueue Nat :=
  if priority > q.priority iter then
    match (before iter q.pending).reverse.find? (fun pos => q.priority pos ≥ q.priority iter) with
    | some pos => q.queues.moven .pending iter (some pos)
    | none => q.queues.move .pending iter none
  else if priority < q.priority iter then
    match (after iter q.pending).find? (fun pos => q.priority pos < q.priority iter) with
    | some pos => q.queues.move .pending iter (some pos)
    | none => q.queues.moven .pending iter none
  else q.queues

/-- cc_workq_run on the node of a task. -/
def workqRunNode (priority : Int) (iter : IterPtr) (q : Workq τ) :
    List (WorkqEvent τ) × Workq τ :=
  let node := q.queues.data iter
  match q.node node with
  | none => ([.result .error], q)
  | some n =>
    match n.status with
    | .active =>
      ([.result .active], q.setNode node fun n => { n with purgeId := q.purgeId })
    | .pending =>
      ([.result .pending],
        { q with queues := workqReposition priority iter q }.setNode node fun n =>
          { n with purgeId := q.purgeId, priority := priority })
    | status => ([.returned node status], (workqRemoveLocked false .complete iter q).2)

def workqNodeNew (task : τ) (priority : Int) (q : Workq τ) : Workq τ :=
  { q with
    node := Function.update q.node q.nextNode (some ⟨.pending, priority, q.purgeId, task⟩)
    nextNode := q.nextNode + 1 }

omit [DecidableEq τ] in
def workqNodeDelete (node : Nat) (q : Workq τ) : Workq τ :=
  { q with node := Function.update q.node node none }

omit [DecidableEq τ] in
def workqInsert (node : Nat) (priority : Int) (iter : IterPtr) (q : Workq τ) : Workq τ :=
  match workqInsertPos priority q with
  | some pos => { q with queues := q.queues.append .pending (some pos) iter node }
  | none => { q with queues := q.queues.insert .pending none iter node }

/-- The critical section of cc_workq_run; the second component tells whether
cond_pending is broadcast. -/
def workqRun (task : τ) (priority : Int) (alloc : WorkqAlloc) (q : Workq τ) :
    List (WorkqEvent τ) × Bool × Workq τ :=
  match q.mapTask task with
  | some iter => let r := workqRunNode priority iter q; (r.1, false, r.2)
  | none =>
    let node := q.nextNode
    match alloc with
    | .failNode => ([.result .error], false, q)
    | .failQueue => ([.result .error], false, workqNodeDelete node (workqNodeNew task priority q))
    | .failMapAdd iter =>
      let q := workqInsert node priority iter (workqNodeNew task priority q)
      ([.result .error], false,
        workqNodeDelete node { q with queues := q.queues.remove .pending iter })
    | .success iter =>
      let q := workqInsert node priority iter (workqNodeNew task priority q)
      let r := workqRunNode priority iter
        { q with mapTask := Function.update q.mapTask task (some iter) }
      (.created node task :: r.1, true, r.2)

/-- The end of the loop that waits for a task: the thread sleeps, or reads
the status after the mutex is unlocked, or has removed the node, or has used
a node that is freed. -/
inductive WorkqWait (τ : Type)
  | sleep
  | unlock
  | done (status : WorkqStatus) (q : Workq τ)
  | freed

/-- The loop of cc_workq_wait with the removal that follows it. -/
def workqWait (blocking : Bool) (iter : IterPtr) (node : Nat) (q : Workq τ) : WorkqWait τ :=
  match q.node node with
  | none => .freed
  | some n =>
    match n.status with
    | .pending | .active => if blocking then .sleep else .unlock
    | status =>
      if iter ∈ q.complete then .done status (workqRemoveLocked false .complete iter q).2
      else .freed

/-- The loop of cc_workq_cancel with the removal that follows it. -/
def workqCancel (blocking : Bool) (iter : IterPtr) (node : Nat) (q : Workq τ) : WorkqWait τ :=
  match q.node node with
  | none => .freed
  | some n =>
    match n.status with
    | .active => if blocking then .sleep else .unlock
    | .pending =>
      if iter ∈ q.pending then .done .pending (workqRemoveLocked false .pending iter q).2
      else .freed
    | status =>
      if iter ∈ q.complete then .done status (workqRemoveLocked false .complete iter q).2
      else .freed

omit [DecidableEq τ] in
/-- cc_workq_status after the task is looked up. -/
def workqStatus (task : τ) (q : Workq τ) : WorkqStatus :=
  ((q.mapTask task).bind q.peek).elim .error WorkqNode.status

omit [DecidableEq τ] in
def workqPending (q : Workq τ) : Int := q.pending.length + q.active.length

omit [DecidableEq τ] in
/-- The head of queue_pending becomes active in cc_workq_thread. -/
def workqTake (iter : IterPtr) (q : Workq τ) : Workq τ :=
  { q with queues := q.queues.swapn .pending .active iter none }.setNode (q.queues.data iter)
    fun n => { n with status := .active }

def workqRetStatus (ret : Bool) : WorkqStatus := if ret then .complete else .failure

omit [DecidableEq τ] in
/-- A task becomes complete in cc_workq_thread. -/
def workqReport (iter : IterPtr) (node : Nat) (ret : Bool) (q : Workq τ) : Workq τ :=
  let q := q.setNode node fun n => { n with status := workqRetStatus ret }
  { q with queues := q.queues.swapn .active .complete iter none }

end LibCC
