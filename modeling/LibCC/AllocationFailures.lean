import LibCC.TracedMapRuns
import LibCC.TracedWorkq
import LibCC.WorkqIters

/-! Allocations that fail in cc_map_addp and in cc_workq_run. The workq is
followed together with its memory, through all steps of its threads. -/

namespace LibCC

open AllocEvent FramedProgram LabelledRun SequenceFamily

variable {threads : Nat} {C : Type} [DecidableEq C]

namespace Traced

variable (hashFn : UInt32 → List UInt8 → UInt32) (mem : UInt64 → UInt8)

/-- cc_workq_removeLocked for some nodes of a workq. -/
def workqRemove (q : Workq UInt64) : List IterPtr → WorkqHeap → TracedM WorkqHeap
  | [], m => pure m
  | iter :: iters, m => do
    let queue := if iter ∈ q.pending then .pending else .complete
    let task := (q.peek iter).elim 0 WorkqNode.task
    let m ← workqRemoveLocked hashFn mem queue task iter m
    workqRemove q iters m

variable {hashFn mem}

theorem workqRemove_framed (q : Workq UInt64) (iters iters' : List IterPtr) {m : WorkqHeap}
    (hp : m.Pooled) : Framed HeapAccount (m.holds (iters ++ iters'))
      (workqRemove hashFn mem q iters m) (fun m => m.holds iters') := by
  induction iters generalizing m with
  | nil => exact .pure rfl
  | cons iter iters ih =>
    refine .takeReturns (F := 0) (add_zero _).symm
      (workqRemoveLocked_framed hp _ _ iter (iters ++ iters'))
      (workqRemoveLocked_pooled hp _ _ _) ?_
    intro m hm
    rw [add_zero]
    exact ih hm

theorem workqRemove_pooled (q : Workq UInt64) (iters : List IterPtr) {m : WorkqHeap}
    (hp : m.Pooled) : Returns (workqRemove hashFn mem q iters m) WorkqHeap.Pooled := by
  induction iters generalizing m with
  | nil => exact .pure hp
  | cons iter iters ih =>
    refine (workqRemoveLocked_pooled hp _ _ _).bind ?_
    exact fun m hm => ih hm

end Traced

/-- The nodes that are gone after a step. -/
def workqGone (q q' : Workq UInt64) : List IterPtr := q.iters.filter fun iter => iter ∉ q'.iters

/-- The three queues of a new workq. -/
def workqQueues (pending active complete : ListHeader) : WorkqQueue → ListHeader
  | .pending => pending
  | .active => active
  | .complete => complete

/-- A workq with its threads, its memory and the heap, from cc_workq_new until cc_workq_delete
destroys the queues. Any allocation may fail, and others use the heap at any time. -/
inductive WorkqHeapReach (hashFn : UInt32 → List UInt8 → UInt32) (mem : UInt64 → UInt8) :
    WorkqSys threads C UInt64 → WorkqHeap → TracedHeap → Prop
  | new {R : Holding} {s s₁ s₂ s₃ s₄ : TracedHeap} {mapTask : TracedMap IterPtr}
      {pending active complete : ListHeader} (data : IterPtr → Nat) (seed : UInt32)
      (nodes : IterPtr → MapNode IterPtr) : HeapAccount s R →
      (Traced.mapNewFlags 0 seed nodes).run s = (some mapTask, s₁) →
      (Traced.listNewFlags 0).run s₁ = (some pending, s₂) →
      (Traced.listNewFlags 0).run s₂ = (some complete, s₃) →
      (Traced.listNewFlags 0).run s₃ = (some active, s₄) →
      WorkqHeapReach hashFn mem (workqSysNew data)
        ⟨workqQueues pending active complete, mapTask, fun _ => 0⟩ s₄
  | run {sys sys' : WorkqSys threads C UInt64} {m m' : WorkqHeap} {s s' : TracedHeap} {c : C}
      {task : UInt64} {priority : Int} {alloc : WorkqAlloc} {events : List (WorkqEvent UInt64)} :
      WorkqHeapReach hashFn mem sys m s → sys.q.mapTask task = none →
      (Traced.workqRunTask hashFn mem task m).run s = ((alloc, m'), s') →
      WorkqStep sys (.call c (.run task priority alloc), events) sys' →
      WorkqHeapReach hashFn mem sys' m' s'
  | step {sys sys' : WorkqSys threads C UInt64} {m : WorkqHeap} {s : TracedHeap}
      {l : WorkqLabel threads C UInt64} : WorkqHeapReach hashFn mem sys m s → ¬ l.1.Submits sys →
      WorkqStep sys l sys' → (∀ c, sys'.client c ≠ .deleted) →
      WorkqHeapReach hashFn mem sys'
        ((Traced.workqRemove hashFn mem sys.q (workqGone sys.q sys'.q) m).run s).1
        ((Traced.workqRemove hashFn mem sys.q (workqGone sys.q sys'.q) m).run s).2
  | others {sys : WorkqSys threads C UInt64} {m : WorkqHeap} {s s' : TracedHeap} {R : Holding} :
      WorkqHeapReach hashFn mem sys m s → HeapAccount s' (m.holds sys.q.iters + R) →
      WorkqHeapReach hashFn mem sys m s'

/-- The workq keeps its structure, and its memory is accounted for. -/
structure WorkqHeapInv (sys : WorkqSys threads C UInt64) (m : WorkqHeap) (s : TracedHeap) :
    Prop where
  inv : WorkqSysInv sys
  pooled : m.Pooled
  account : ∃ R, HeapAccount s (m.holds sys.q.iters + R)

variable {hashFn : UInt32 → List UInt8 → UInt32} {mem : UInt64 → UInt8}
  {sys sys' : WorkqSys threads C UInt64} {m m' : WorkqHeap} {s s' : TracedHeap}

omit [DecidableEq C] in
theorem gone_perm (h : WorkqInv sys.q) (h' : WorkqInv sys'.q) (hs : Shrinks sys.q sys'.q) :
    (workqGone sys.q sys'.q ++ sys'.q.iters).Perm sys.q.iters := by
  have hnd : (workqGone sys.q sys'.q ++ sys'.q.iters).Nodup := by
    apply List.Nodup.append (h.iters_nodup.filter _) h'.iters_nodup
    intro iter hg hi
    exact of_decide_eq_true (List.mem_filter.mp hg).2 hi
  rw [List.perm_ext_iff_of_nodup hnd h.iters_nodup]
  intro iter
  simp only [workqGone, List.mem_append, List.mem_filter, decide_eq_true_eq]
  constructor
  · rintro (⟨hi, -⟩ | hi)
    · exact hi
    · exact hs iter hi
  · intro hi
    by_cases hi' : iter ∈ sys'.q.iters
    · exact .inr hi'
    · exact .inl ⟨hi, hi'⟩

theorem WorkqHeapInv.step (h : WorkqHeapInv sys m s) {l : WorkqLabel threads C UInt64}
    (hl : ¬ l.1.Submits sys) (hs : WorkqStep sys l sys') :
    WorkqHeapInv sys' ((Traced.workqRemove hashFn mem sys.q (workqGone sys.q sys'.q) m).run s).1
      ((Traced.workqRemove hashFn mem sys.q (workqGone sys.q sys'.q) m).run s).2 := by
  have hinv := hs.inv h.inv
  obtain ⟨R, hacc⟩ := h.account
  rw [← m.holds_perm (gone_perm h.inv.inv hinv.inv (hs.shrinks h.inv hl))] at hacc
  exact ⟨hinv, Traced.workqRemove_pooled sys.q _ h.pooled s,
    R, Traced.workqRemove_framed sys.q _ sys'.q.iters h.pooled s R hacc⟩

omit [DecidableEq C] in
theorem workqHeapInv_new {R : Holding} {s₁ s₂ s₃ s₄ : TracedHeap} {mapTask : TracedMap IterPtr}
    {pending active complete : ListHeader} (data : IterPtr → Nat) {seed : UInt32}
    {nodes : IterPtr → MapNode IterPtr} (hs : HeapAccount s R)
    (hmap : (Traced.mapNewFlags 0 seed nodes).run s = (some mapTask, s₁))
    (hpending : (Traced.listNewFlags 0).run s₁ = (some pending, s₂))
    (hcomplete : (Traced.listNewFlags 0).run s₂ = (some complete, s₃))
    (hactive : (Traced.listNewFlags 0).run s₃ = (some active, s₄)) :
    WorkqHeapInv (workqSysNew data : WorkqSys threads C UInt64)
      ⟨workqQueues pending active complete, mapTask, fun _ => 0⟩ s₄ where
  inv := workqSysNew_inv data
  pooled := by
    have hflags : ∀ {s s' : TracedHeap} {list : ListHeader},
        (Traced.listNewFlags 0).run s = (some list, s') → ¬ isCMalloc list.flags = true := by
      intro s s' list hr
      rw [Traced.listNewFlags_returns 0 s list (by rw [hr])]
      decide
    rintro (_ | _ | _)
    · exact hflags hpending
    · exact hflags hactive
    · exact hflags hcomplete
  account := by
    rw [← zero_add R] at hs
    have h₁ := (Traced.mapNewFlags_framed 0 seed nodes).ran hmap hs
    rw [← zero_add (_ + R)] at h₁
    have h₂ := (Traced.listNewFlags_framed 0).ran hpending h₁
    rw [← zero_add (_ + (_ + R))] at h₂
    have h₃ := (Traced.listNewFlags_framed 0).ran hcomplete h₂
    rw [← zero_add (_ + (_ + (_ + R)))] at h₃
    have h₄ := (Traced.listNewFlags_framed 0).ran hactive h₃
    refine ⟨R, ?_⟩
    have he : active.holds [] + (complete.holds [] + (pending.holds [] + (mapTask.holds + R))) =
        pending.holds [] + active.holds [] + complete.holds [] + mapTask.holds + 0 + 0 + R := by
      abel
    exact he ▸ h₄

theorem Tried.fresh {q : Workq UInt64} {r : WorkqAlloc × WorkqHeap}
    (h : Traced.Tried m q.iters r) : r.1.Fresh q = true := by
  have hnew : ∀ iter, iter ∉ q.iters → iter ∉ q.pending ∧ iter ∉ q.active ∧ iter ∉ q.complete := by
    intro iter hi
    simpa [Workq.iters] using hi
  obtain ⟨alloc, m'⟩ := r
  cases alloc with
  | failNode => rfl
  | failQueue => rfl
  | failMapAdd iter => exact decide_eq_true (hnew iter (h.1 iter (.inr rfl)))
  | success iter => exact decide_eq_true (hnew iter (h.1 iter (.inl rfl)))

theorem WorkqAlloc.made_eq_nil {alloc : WorkqAlloc} (hf : ∀ iter, alloc ≠ .success iter) :
    alloc.made = [] := by
  cases alloc with
  | success iter => exact absurd rfl (hf iter)
  | _ => rfl

theorem run_iters {q : Workq UInt64} (h : WorkqInv q) {task : UInt64} {alloc : WorkqAlloc}
    (ha : alloc.Fresh q = true) (hm : q.mapTask task = none) (priority : Int) :
    (workqRun task priority alloc q).2.2.iters.Perm (alloc.made ++ q.iters) := by
  by_cases hs : ∃ iter, alloc = .success iter
  · obtain ⟨iter, rfl⟩ := hs
    obtain ⟨a, b, hab, -, -, he⟩ := workqRun_success h hm iter priority
    rw [he]
    exact withNode_iters hab iter task priority
  · have hf : ∀ iter, alloc ≠ .success iter := fun iter hi => hs ⟨iter, hi⟩
    obtain ⟨q', he, hu⟩ := workqRun_failed h ha hm hf priority
    rw [he, WorkqAlloc.made_eq_nil hf, hu.iters]
    rfl

/-- What cc_workq_run asked of the allocators, and what it did, agree. -/
theorem WorkqHeapInv.run (h : WorkqHeapInv sys m s) {c : C} {task : UInt64} {priority : Int}
    {alloc : WorkqAlloc} {events : List (WorkqEvent UInt64)} (hm : sys.q.mapTask task = none)
    (hr : (Traced.workqRunTask hashFn mem task m).run s = ((alloc, m'), s'))
    (hs : WorkqStep sys (.call c (.run task priority alloc), events) sys') :
    WorkqHeapInv sys' m' s' := by
  obtain ⟨R, hacc⟩ := h.account
  have htried : Traced.Tried m sys.q.iters ((Traced.workqRunTask hashFn mem task m).run s).1 :=
    Traced.workqRunTask_tried h.pooled task sys.q.iters s R hacc
  have hpool : ((Traced.workqRunTask hashFn mem task m).run s).1.2.Pooled :=
    Traced.workqRunTask_pooled h.pooled task s
  have hacc' := (Traced.workqRunTask_framed h.pooled task sys.q.iters).ran hr hacc
  rw [hr] at htried hpool
  have hfresh := Tried.fresh htried
  obtain ⟨-, r, hsec, -, rfl⟩ := step_call hs
  have hq : (sys.section_ c r).q = (workqRun task priority alloc sys.q).2.2 := by
    simp only [workqCallSection, hfresh, if_true, Option.some.injEq] at hsec
    rw [← hsec]
    rfl
  refine ⟨hs.inv h.inv, hpool, R, ?_⟩
  rw [hq, m'.holds_perm (run_iters h.inv.inv hfresh hm priority)]
  exact hacc'

theorem WorkqHeapReach.inv (h : WorkqHeapReach hashFn mem sys m s) : WorkqHeapInv sys m s := by
  induction h with
  | new data seed nodes hs hmap hp hc ha => exact workqHeapInv_new data hs hmap hp hc ha
  | run _ hm hr hs ih => exact ih.run hm hr hs
  | step _ hl hs _ ih => exact ih.step hl hs
  | others _ hs ih => exact ⟨ih.inv, ih.pooled, _, hs⟩

/-- A call of cc_map_addp that returns NULL has changed nothing, and one that could not resize the
buckets has done all the rest. A call of cc_workq_run for a new task that fails leaves the queues,
the nodes and map_task, whatever the allocators answer; what it got is given back, or is kept by
queue_pending for the next one. -/
theorem allocation_failures {V τ : Type} [DecidableEq τ]
    (hashFn : UInt32 → List UInt8 → UInt32) (mem : UInt64 → UInt8) :
    (∀ (self : TracedMap V) (s : TracedHeap), TracedMapReach self s →
      ∀ (val : V) (len : Nat) (key : UInt64),
        (((Traced.mapAddp hashFn mem self val len key).run s).1.1 = none →
          ((Traced.mapAddp hashFn mem self val len key).run s).1.2 = self ∧
          owner ((Traced.mapAddp hashFn mem self val len key).run s).2.trace = owner s.trace) ∧
        ∀ new, ((Traced.mapAddp hashFn mem self val len key).run s).2.trace = new ++ s.trace →
          (∃ e ∈ new, FailsResize e) →
          ∃ miter bytes, ((Traced.mapAddp hashFn mem self val len key).run s).1.1 = some miter ∧
            mapKeyBytes mem len key = some bytes ∧
            Enters self.map miter ⟨val, hashFn self.map.seed bytes.bytes, bytes⟩
              ((Traced.mapAddp hashFn mem self val len key).run s).1.2.map) ∧
    (∀ (data : IterPtr → Nat) (tr : List (WorkqLabel threads C τ)) (sys : WorkqSys threads C τ),
      WorkqReach data tr sys → ∀ (task : τ) (priority : Int) (alloc : WorkqAlloc),
        sys.q.mapTask task = none → alloc.Fresh sys.q = true → (∀ iter, alloc ≠ .success iter) →
          ∃ q', workqRun task priority alloc sys.q = ([.result .error], false, q') ∧
            Unchanged sys.q q') ∧
    (∀ (sys : WorkqSys threads C UInt64) (m : WorkqHeap) (s : TracedHeap),
      WorkqHeapReach hashFn mem sys m s → ∀ (task : UInt64) (priority : Int),
        sys.q.mapTask task = none →
        let r := (Traced.workqRunTask hashFn mem task m).run s
        r.1.1.Fresh sys.q = true ∧ ((∀ iter, r.1.1 ≠ .success iter) →
          (∃ q', workqRun task priority r.1.1 sys.q = ([.result .error], false, q') ∧
            Unchanged sys.q q') ∧
          Traced.TaskUndone m r.1.2 ∧ ∃ R, HeapAccount s (m.holds sys.q.iters + R) ∧
            HeapAccount r.2 (r.1.2.holds sys.q.iters + R))) := by
  refine ⟨?_, ?_, ?_⟩
  · intro self s h val len key
    refine ⟨h.addp_none hashFn mem val len key, ?_⟩
    exact fun new hnew hf => h.addp_resize hashFn mem val len key hnew hf
  · intro data tr sys h task priority alloc hm ha hf
    exact workqRun_failed (WorkqReach.inv h).inv ha hm hf priority
  · intro sys m s h task priority hm r
    obtain ⟨R, hacc⟩ := h.inv.account
    have htried : Traced.Tried m sys.q.iters r.1 :=
      Traced.workqRunTask_tried h.inv.pooled task sys.q.iters s R hacc
    have hfresh := Tried.fresh htried
    refine ⟨hfresh, fun hf => ⟨workqRun_failed h.inv.inv.inv hfresh hm hf priority, htried.2 hf,
      R, hacc, ?_⟩⟩
    have hacc' : HeapAccount r.2 (r.1.2.holds (r.1.1.made ++ sys.q.iters) + R) :=
      Traced.workqRunTask_framed h.inv.pooled task sys.q.iters s R hacc
    rwa [WorkqAlloc.made_eq_nil hf] at hacc'

/-- A heap that grants six calls. -/
def scarceHeap : TracedHeap := .new (fun i => decide (i < 6)) fun _ _ => none

/-- What cc_workq_new gets of it. -/
def scarceWorkq (nodes : IterPtr → MapNode IterPtr) : WorkqHeap where
  queue := workqQueues ⟨3, 0, []⟩ ⟨5, 0, []⟩ ⟨4, 0, []⟩
  mapTask := ⟨0, 0, 1, ⟨2, 0, []⟩, fun _ => 0, mapNew 0 nodes⟩
  nodeBlock _ := 0

def scarceLeft : TracedHeap :=
  { scarceHeap with
    requests := 6
    trace := (List.range 6).reverse.map fun i => .alloc .memory (some (.block i)) }

theorem allocation_failures_node :
    let m := scarceWorkq fun _ => ⟨⟨0, 0⟩, 0, ⟨[0], by decide, by decide⟩⟩
    owner ((Traced.mapAddp (fun _ _ => 7) (fun _ => 0) m.mapTask ⟨9, 9⟩ 3 8).run
        scarceLeft).2.trace = owner scarceLeft.trace ∧
      (workqRun (8 : UInt64) 1 .failNode (workqNew fun _ => 0)).1 = [.result .error] ∧
      Traced.TaskUndone m ((Traced.workqRunTask (fun _ _ => 7) (fun _ => 0) 8 m).run
        scarceLeft).1.2 := by
  intro m
  let sys : WorkqSys 1 Unit UInt64 := workqSysNew fun _ => 0
  have h : WorkqHeapReach (fun _ _ => 7) (fun _ => 0) sys m scarceLeft :=
    .new (s := scarceHeap) (fun _ => 0) 0 _ (heapAccount_new _ _) rfl rfl rfl rfl
  obtain ⟨R, hacc⟩ := h.inv.account
  have hmap : TracedMapReach m.mapTask scarceLeft := by
    refine .others (R := m.lists + R)
      (.new (s := scarceHeap) 0 0 _ (heapAccount_new _ _) rfl) ?_
    have he : m.holds sys.q.iters + R = m.mapTask.holds + (m.lists + R) := by
      show m.lists + m.mapTask.holds + 0 + 0 + R = _
      abel
    rwa [← he]
  obtain ⟨hadd, hrun, htask⟩ :=
    @allocation_failures 1 Unit _ IterPtr UInt64 _ (fun _ _ => 7) (fun _ => 0)
  obtain ⟨q', hq', -⟩ := hrun (fun _ => 0) [] sys .nil 8 1 .failNode rfl rfl (by simp)
  have hs := (htask sys m scarceLeft h 8 1 rfl).2 (by intro iter he; cases he)
  exact ⟨((hadd m.mapTask scarceLeft hmap ⟨9, 9⟩ 3 8).1 rfl).2, congrArg Prod.fst hq', hs.2.1⟩

end LibCC
