import LibCC.JobqRuns
import LibCC.PoolCount

/-! The memory of cc_jobq. A job comes with an iter of queue_pending and
leaves with it into queue_active, which keeps it. -/

namespace LibCC

open AllocEvent FramedProgram LabelledRun SequenceFamily

/-- What cc_jobq_new has allocated. -/
structure JobqHeap where
  self : Nat
  threads : Nat
  queue : JobqQueue → ListHeader

/-- Whether pthread_mutex_init, pthread_cond_init and all calls of pthread_create succeed. -/
structure JobqPthread where
  mutexInit : Bool
  condPending : Bool
  condComplete : Bool
  create : Bool

/-- The two queues of a new jobq. -/
def jobqQueues (pending active : ListHeader) : JobqQueue → ListHeader
  | .pending => pending
  | .active => active

namespace Traced

def jobqFailQueuePending (self : Nat) : TracedM (Option JobqHeap) := do
  heapFree .memory self
  return none

def jobqFailQueueActive (self : Nat) (pending : ListHeader) : TracedM (Option JobqHeap) := do
  listDelete [] pending
  jobqFailQueuePending self

def jobqFailThreads (self : Nat) (pending active : ListHeader) : TracedM (Option JobqHeap) := do
  listDelete [] active
  jobqFailQueueActive self pending

def jobqNew (pthread : JobqPthread) : TracedM (Option JobqHeap) := do
  match ← heapAlloc .memory with
  | none => return none
  | some self =>
    if pthread.mutexInit && pthread.condPending && pthread.condComplete then
      match ← listNewFlags 0 with
      | none => jobqFailQueuePending self
      | some pending =>
        match ← listNewFlags 0 with
        | none => jobqFailQueueActive self pending
        | some active =>
          match ← heapAlloc .memory with
          | none => jobqFailThreads self pending active
          | some threads =>
            if pthread.create then return some ⟨self, threads, jobqQueues pending active⟩
            else do -- fail_pthread_create
              heapFree .memory threads
              jobqFailThreads self pending active
    else do -- fail_cond_complete, fail_cond_pending or fail_mutex_init
      heapFree .memory self
      return none

/-- What cc_jobq_delete releases when the threads are gone. -/
def jobqDelete {τ : Type} (q : Jobq τ) (m : JobqHeap) : TracedM Unit := do
  heapFree .memory m.threads
  listDelete q.active (m.queue .active)
  listDelete q.pending (m.queue .pending)
  heapFree .memory m.self

end Traced

namespace JobqHeap

variable {τ : Type}

def setQueue (m : JobqHeap) (k : JobqQueue) (list : ListHeader) : JobqHeap :=
  { m with queue := Function.update m.queue k list }

/-- The lists are from cc_list_new. -/
def Pooled (m : JobqHeap) : Prop := ∀ k, ¬ isCMalloc (m.queue k).flags = true

/-- The iters that the jobq has from the pool: the free ones of its queues, and those of jobs. -/
def iters (m : JobqHeap) (q : Jobq τ) : List IterPtr :=
  (m.queue .pending).iters ++ (m.queue .active).iters ++ (q.pending ++ q.active)

/-- What is held with these iters in the queues. -/
def held (m : JobqHeap) (pending active : List IterPtr) : Holding :=
  {(.memory, .block m.self)} + {(.memory, .block m.threads)} +
    (m.queue .pending).holds pending + (m.queue .active).holds active

/-- What a jobq holds. -/
def holds (m : JobqHeap) (q : Jobq τ) : Holding := m.held q.pending q.active

end JobqHeap

/-- The states of a jobq with its threads, its memory and the heap, from cc_jobq_new until
cc_jobq_delete destroys the queues. Any allocation may fail, and others use the heap at any time. -/
inductive JobqHeapReach {threads : Nat} {C τ : Type} [DecidableEq C] (data : IterPtr → τ) :
    List (JobqLabel threads C τ) → JobqSys threads C τ → JobqHeap → TracedHeap → Prop
  | new {R : Holding} {s s' : TracedHeap} {m : JobqHeap} (pthread : JobqPthread) :
      HeapAccount s R → s.Counted → (Traced.jobqNew pthread).run s = (some m, s') →
      JobqHeapReach data [] (jobqSysNew data) m s'
  | run {tr : List (JobqLabel threads C τ)} {sys sys' : JobqSys threads C τ} {m : JobqHeap}
      {s s' : TracedHeap} {a : JobqAgent threads C} {task : τ} {alloc : Option IterPtr}
      {pending : ListHeader} {events : List (JobqEvent threads τ)} :
      JobqHeapReach data tr sys m s →
      (Traced.listIterAcquire (m.queue .pending)).run s = ((alloc, pending), s') →
      Guarded JobqStep (fun s l => s.Contract l.1) sys (.call a (.run task alloc), events) sys' →
      JobqHeapReach data ((.call a (.run task alloc), events) :: tr) sys'
        (m.setQueue .pending pending) s'
  | completes {tr : List (JobqLabel threads C τ)} {sys sys' : JobqSys threads C τ} {m : JobqHeap}
      {s s' : TracedHeap} {w : Fin threads} {iter : IterPtr} {task : τ} {active : ListHeader}
      {events : List (JobqEvent threads τ)} : JobqHeapReach data tr sys m s →
      sys.worker w = .returned iter task →
      (Traced.listIterRelease iter (m.queue .active)).run s = (active, s') →
      Guarded JobqStep (fun s l => s.Contract l.1) sys (.work w, events) sys' →
      JobqHeapReach data ((.work w, events) :: tr) sys' (m.setQueue .active active) s'
  | step {tr : List (JobqLabel threads C τ)} {sys sys' : JobqSys threads C τ} {m : JobqHeap}
      {s : TracedHeap} {l : JobqLabel threads C τ} : JobqHeapReach data tr sys m s →
      (∀ a task alloc, l.1 ≠ .call a (.run task alloc)) →
      (∀ w iter task, l.1 = .work w → sys.worker w ≠ .returned iter task) →
      Guarded JobqStep (fun s l => s.Contract l.1) sys l sys' →
      (∀ c, sys'.caller (.client c) ≠ .deleted) → JobqHeapReach data (l :: tr) sys' m s
  | others {tr : List (JobqLabel threads C τ)} {sys : JobqSys threads C τ} {m : JobqHeap}
      {s s' : TracedHeap} {R : Holding} : JobqHeapReach data tr sys m s →
      HeapAccount s' (m.holds sys.q + R) → s'.Counted → JobqHeapReach data tr sys m s'

namespace JobqHeap

variable {m : JobqHeap} {list : ListHeader} {pending pending' active active' : List IterPtr}

/-- What a jobq holds apart from iters. -/
def blocks (m : JobqHeap) : Holding :=
  {(.memory, .block m.self)} + {(.memory, .block m.threads)} +
    {(.memory, .block (m.queue .pending).self)} + {(.memory, .block (m.queue .active).self)}

theorem held_eq (hp : m.Pooled) (pending active : List IterPtr) :
    m.held pending active = m.blocks + Holding.iters
      ((m.queue .pending).iters ++ (m.queue .active).iters ++ (pending ++ active)) := by
  have happend : ∀ l l' : List IterPtr,
      Holding.iters (l ++ l') = Holding.iters l + Holding.iters l' := by
    intro l l'
    simp [Holding.iters]
  rw [held, (m.queue .pending).holds_pool (hp .pending), (m.queue .active).holds_pool (hp .active),
    blocks, happend, happend, happend]
  abel

/-- Jobs that change places are held as before. -/
theorem held_perm (hp : m.Pooled) (h : (pending' ++ active').Perm (pending ++ active)) :
    m.held pending' active' = m.held pending active := by
  rw [held_eq hp, held_eq hp]
  congr 1
  exact Multiset.coe_eq_coe.mpr ((h.append_left _).map _)

@[simp] theorem setQueue_self (m : JobqHeap) (k : JobqQueue) (list : ListHeader) :
    (m.setQueue k list).queue k = list := by
  simp [setQueue]

@[simp] theorem setQueue_of_ne (m : JobqHeap) {k k' : JobqQueue} (h : k' ≠ k) (list : ListHeader) :
    (m.setQueue k list).queue k' = m.queue k' := by
  simp [setQueue, h]

theorem setQueue_queue (m : JobqHeap) (k : JobqQueue) : m.setQueue k (m.queue k) = m := by
  rw [setQueue, Function.update_eq_self]

theorem Pooled.setQueue (hp : m.Pooled) (k : JobqQueue) {list : ListHeader}
    (hf : list.flags = (m.queue k).flags) : (m.setQueue k list).Pooled := by
  intro k'
  by_cases he : k' = k
  · subst he
    simp only [JobqHeap.setQueue, Function.update_self, hf]
    exact hp k'
  · simp only [JobqHeap.setQueue, Function.update_of_ne he]
    exact hp k'

theorem held_pending (m : JobqHeap) (list : ListHeader) (pending active : List IterPtr) :
    (m.setQueue .pending list).held pending active = list.holds pending +
      ({(.memory, .block m.self)} + {(.memory, .block m.threads)} +
        (m.queue .active).holds active) := by
  have hactive : (m.setQueue .pending list).queue .active = m.queue .active := by simp
  rw [held, setQueue_self, hactive]
  simp only [setQueue]
  abel

theorem held_active (m : JobqHeap) (list : ListHeader) (pending active : List IterPtr) :
    (m.setQueue .active list).held pending active = list.holds active +
      ({(.memory, .block m.self)} + {(.memory, .block m.threads)} +
        (m.queue .pending).holds pending) := by
  have hpending : (m.setQueue .active list).queue .pending = m.queue .pending := by simp
  rw [held, setQueue_self, hpending]
  simp only [setQueue]
  abel

variable {s s' : TracedHeap} {R : Holding}

theorem held_acquire {alloc : Option IterPtr}
    (hr : (Traced.listIterAcquire (m.queue .pending)).run s = ((alloc, list), s'))
    (hs : HeapAccount s (m.held pending active + R)) :
    HeapAccount s' ((m.setQueue .pending list).held (alloc.toList ++ pending) active + R) := by
  have hheld := m.held_pending (m.queue .pending) pending active
  rw [setQueue_queue] at hheld
  rw [hheld, add_assoc] at hs
  have hran := (Traced.listIterAcquire_framed (m.queue .pending) pending).ran hr hs
  rw [held_pending, add_assoc]
  exact hran

theorem held_release {iter : IterPtr}
    (hr : (Traced.listIterRelease iter (m.queue .active)).run s = (list, s'))
    (hs : HeapAccount s (m.held pending (iter :: active) + R)) :
    HeapAccount s' ((m.setQueue .active list).held pending active + R) := by
  have hheld := m.held_active (m.queue .active) pending (iter :: active)
  rw [setQueue_queue] at hheld
  rw [hheld, add_assoc] at hs
  have hran := (Traced.listIterRelease_framed (m.queue .active) active iter).ran hr hs
  rw [held_active, add_assoc]
  exact hran

end JobqHeap

namespace Traced

variable {τ : Type} {m : JobqHeap} {q q' : Jobq τ}

section Fail

variable {Q : Option JobqHeap → Holding} (hQ : Q none = 0)

include hQ

theorem jobqFailQueuePending_framed (self : Nat) :
    Framed HeapAccount {(.memory, .block self)} (jobqFailQueuePending self) Q :=
  (heapFree_framed .memory self).bind fun _ => .pure hQ

theorem jobqFailQueueActive_framed (self : Nat) (pending : ListHeader) :
    Framed HeapAccount (pending.holds [] + {(.memory, .block self)})
      (jobqFailQueueActive self pending) Q := by
  apply Framed.take rfl (listDelete_framed [] pending)
  intro _
  exact (jobqFailQueuePending_framed hQ self).congr (zero_add _) fun _ => rfl

theorem jobqFailThreads_framed (self : Nat) (pending active : ListHeader) :
    Framed HeapAccount (active.holds [] + (pending.holds [] + {(.memory, .block self)}))
      (jobqFailThreads self pending active) Q := by
  apply Framed.take rfl (listDelete_framed [] active)
  intro _
  exact (jobqFailQueueActive_framed hQ self pending).congr (zero_add _) fun _ => rfl

end Fail

/-- cc_jobq_new that fails leaves nothing behind. -/
theorem jobqNew_framed (pthread : JobqPthread) (data : IterPtr → τ) :
    Framed HeapAccount 0 (jobqNew pthread)
      (fun r => r.elim 0 fun m => m.holds (LibCC.jobqNew data)) := by
  apply Framed.bind (heapAlloc_framed .memory)
  rintro (_ | self)
  · exact .pure rfl
  let mine : Holding := {(AllocFamily.memory, Piece.block self)}
  by_cases hinit : (pthread.mutexInit && pthread.condPending && pthread.condComplete) = true
  swap
  · simp only [if_neg hinit]
    exact (heapFree_framed .memory self).bind fun _ => .pure rfl
  simp only [if_pos hinit]
  apply Framed.take (F := mine) (zero_add _).symm (listNewFlags_framed 0)
  rintro (_ | pending)
  · exact (jobqFailQueuePending_framed rfl self).congr (zero_add _) fun _ => rfl
  apply Framed.take (F := pending.holds [] + mine) (zero_add _).symm (listNewFlags_framed 0)
  rintro (_ | active)
  · exact (jobqFailQueueActive_framed rfl self pending).congr (zero_add _) fun _ => rfl
  apply Framed.take (F := active.holds [] + (pending.holds [] + mine)) (zero_add _).symm
    (heapAlloc_framed .memory)
  rintro (_ | threads)
  · exact (jobqFailThreads_framed rfl self pending active).congr (zero_add _) fun _ => rfl
  by_cases hcreate : pthread.create = true
  · simp only [if_pos hcreate]
    apply Framed.pure
    show mine + {(AllocFamily.memory, Piece.block threads)} + pending.holds [] + active.holds [] =
      {(AllocFamily.memory, Piece.block threads)} + (active.holds [] + (pending.holds [] + mine))
    abel
  · simp only [if_neg hcreate]
    apply Framed.take rfl (heapFree_framed .memory threads)
    intro _
    exact (jobqFailThreads_framed rfl self pending active).congr (zero_add _) fun _ => rfl

theorem listNewFlags_keeps : Keeps TracedHeap.Counted (listNewFlags 0)
    (fun r => ∀ list, r = some list → list.flags = 0 ∧ list.iters = []) := by
  apply (heapAlloc_counted _).bind
  rintro (_ | self) -
  · exact .pure (by simp)
  · exact .pure (by simp)

theorem listDelete_counted (list : ListHeader) :
    Keeps TracedHeap.Counted (listDelete [] list) (fun _ => True) := by
  show Keeps TracedHeap.Counted (if isCMalloc list.flags then _ else _) _
  split_ifs
  · exact heapFree_counted .libc list.self
  · exact (poolPut_counted list.iters).bind fun _ _ => heapFree_counted .memory list.self

/-- The lists of a new jobq have no free iters. -/
theorem jobqNew_keeps (pthread : JobqPthread) : Keeps TracedHeap.Counted (jobqNew pthread)
    (fun r => ∀ m, r = some m →
      m.Pooled ∧ (m.queue .pending).iters = [] ∧ (m.queue .active).iters = []) := by
  let φ : Option JobqHeap → Prop := fun r => ∀ m, r = some m →
    m.Pooled ∧ (m.queue .pending).iters = [] ∧ (m.queue .active).iters = []
  have hnone : φ none := by simp [φ]
  have hpending : ∀ self, Keeps TracedHeap.Counted (jobqFailQueuePending self) φ :=
    fun self => (heapFree_counted .memory self).bind fun _ _ => .pure hnone
  have hactive : ∀ self pending,
      Keeps TracedHeap.Counted (jobqFailQueueActive self pending) φ :=
    fun self pending => (listDelete_counted pending).bind fun _ _ => hpending self
  have hthreads : ∀ self pending active,
      Keeps TracedHeap.Counted (jobqFailThreads self pending active) φ :=
    fun self pending active => (listDelete_counted active).bind fun _ _ => hactive self pending
  apply (heapAlloc_counted .memory).bind
  rintro (_ | self) -
  · exact .pure hnone
  by_cases hinit : (pthread.mutexInit && pthread.condPending && pthread.condComplete) = true
  swap
  · simp only [if_neg hinit]
    exact hpending self
  simp only [if_pos hinit]
  apply listNewFlags_keeps.bind
  rintro (_ | pending) hp
  · exact hpending self
  apply listNewFlags_keeps.bind
  rintro (_ | active) ha
  · exact hactive self pending
  apply (heapAlloc_counted .memory).bind
  rintro (_ | threads) -
  · exact hthreads self pending active
  by_cases hcreate : pthread.create = true
  · simp only [if_pos hcreate]
    apply Keeps.pure
    rintro m ⟨⟩
    refine ⟨?_, (hp pending rfl).2, (ha active rfl).2⟩
    rintro (_ | _)
    · simp [jobqQueues, (hp pending rfl).1, isCMalloc]
    · simp [jobqQueues, (ha active rfl).1, isCMalloc]
  · simp only [if_neg hcreate]
    exact (heapFree_counted .memory threads).bind fun _ _ => hthreads self pending active

theorem jobqDelete_framed (q : Jobq τ) (m : JobqHeap) :
    Framed HeapAccount (m.holds q) (jobqDelete q m) (fun _ => 0) := by
  apply Framed.take (F := {(.memory, .block m.self)} + (m.queue .pending).holds q.pending +
    (m.queue .active).holds q.active) ?_ (heapFree_framed .memory m.threads)
  · intro _
    apply Framed.take (F := {(.memory, .block m.self)} + (m.queue .pending).holds q.pending) ?_
      (listDelete_framed q.active (m.queue .active))
    · intro _
      apply Framed.take (F := {(.memory, .block m.self)}) ?_
        (listDelete_framed q.pending (m.queue .pending))
      · intro _
        exact (heapFree_framed .memory m.self).congr (zero_add _) fun _ => rfl
      · abel
    · abel
  · rw [JobqHeap.holds, JobqHeap.held]
    abel

end Traced

end LibCC
