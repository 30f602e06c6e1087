import LibCC.TracedRefinement
import LibCC.WorkqModel

/-! The memory of cc_workq: its three queues, map_task and a block for each
node; and what cc_workq_run asks of the allocators for a new task. -/

namespace LibCC

open AllocEvent FramedProgram SequenceFamily

/-- The lists and the map that cc_workq_new has created, and the block of the node of an iter. -/
structure WorkqHeap where
  queue : WorkqQueue → ListHeader
  mapTask : TracedMap IterPtr
  nodeBlock : IterPtr → Nat

namespace WorkqHeap

def setQueue (m : WorkqHeap) (k : WorkqQueue) (list : ListHeader) : WorkqHeap :=
  { m with queue := Function.update m.queue k list }

/-- What the queues hold apart from the iters of nodes. -/
def lists (m : WorkqHeap) : Holding :=
  (m.queue .pending).holds [] + (m.queue .active).holds [] + (m.queue .complete).holds []

def nodeItems (m : WorkqHeap) (iters : List IterPtr) : Holding :=
  (iters.map fun iter => (AllocFamily.memory, Piece.block (m.nodeBlock iter)) : List _)

/-- What a workq with some iters holds. -/
def holds (m : WorkqHeap) (iters : List IterPtr) : Holding :=
  m.lists + m.mapTask.holds + Holding.iters iters + m.nodeItems iters

/-- The lists are from cc_list_new. -/
def Pooled (m : WorkqHeap) : Prop := ∀ k, ¬ isCMalloc (m.queue k).flags = true

end WorkqHeap

namespace Traced

variable (hashFn : UInt32 → List UInt8 → UInt32) (mem : UInt64 → UInt8)

/-- The part of cc_workq_run that creates a node, with its failure ladder. -/
def workqRunTask (task : UInt64) (m : WorkqHeap) : TracedM (WorkqAlloc × WorkqHeap) := do
  match ← heapAlloc .memory with
  | none => return (.failNode, m)
  | some node =>
    match ← listIterAcquire (m.queue .pending) with
    | (none, pending) => do
      heapFree .memory node
      return (.failQueue, m.setQueue .pending pending)
    | (some iter, pending) =>
      match ← mapAddp hashFn mem m.mapTask iter 0 task with
      | (none, mapTask) => do
        let pending ← listIterRelease iter pending
        heapFree .memory node
        return (.failMapAdd iter, { m.setQueue .pending pending with mapTask := mapTask })
      | (some _, mapTask) =>
        return (.success iter, { m.setQueue .pending pending with
          mapTask := mapTask
          nodeBlock := Function.update m.nodeBlock iter node })

/-- cc_map_findp and cc_map_remove of a task. -/
def workqForget (task : UInt64) (m : WorkqHeap) : TracedM WorkqHeap :=
  match LibCC.mapFindp hashFn mem m.mapTask.map 0 task with
  | none => pure m
  | some miter => do
    let r ← mapRemove m.mapTask miter
    return { m with mapTask := r.2.2 }

/-- cc_workq_removeLocked -/
def workqRemoveLocked (queue : WorkqQueue) (task : UInt64) (iter : IterPtr) (m : WorkqHeap) :
    TracedM WorkqHeap := do
  let list ← listIterRelease iter (m.queue queue)
  let m ← workqForget hashFn mem task (m.setQueue queue list)
  heapFree .memory (m.nodeBlock iter)
  return m

end Traced

namespace WorkqHeap

variable {m : WorkqHeap} {iters iters' : List IterPtr} {iter : IterPtr}

theorem lists_split (m : WorkqHeap) (k : WorkqQueue) :
    ∃ rest : Holding, ∀ list, (m.setQueue k list).lists = list.holds [] + rest := by
  cases k with
  | pending =>
    refine ⟨(m.queue .active).holds [] + (m.queue .complete).holds [], fun list => ?_⟩
    simp only [lists, setQueue, Function.update_self, ne_eq, reduceCtorEq, not_false_eq_true,
      Function.update_of_ne]
    abel
  | active =>
    refine ⟨(m.queue .pending).holds [] + (m.queue .complete).holds [], fun list => ?_⟩
    simp only [lists, setQueue, Function.update_self, ne_eq, reduceCtorEq, not_false_eq_true,
      Function.update_of_ne]
    abel
  | complete =>
    refine ⟨(m.queue .pending).holds [] + (m.queue .active).holds [], fun list => ?_⟩
    simp only [lists, setQueue, Function.update_self, ne_eq, reduceCtorEq, not_false_eq_true,
      Function.update_of_ne]
    abel

@[simp] theorem setQueue_self (m : WorkqHeap) (k : WorkqQueue) : m.setQueue k (m.queue k) = m := by
  simp [setQueue]

theorem holds_perm (m : WorkqHeap) (h : iters.Perm iters') : m.holds iters = m.holds iters' := by
  rw [holds, holds, nodeItems, nodeItems, Holding.iters, Holding.iters,
    Multiset.coe_eq_coe.mpr (h.map _), Multiset.coe_eq_coe.mpr (h.map _)]

theorem nodeItems_cons (m : WorkqHeap) (iter : IterPtr) (iters : List IterPtr) :
    m.nodeItems (iter :: iters) =
      {(AllocFamily.memory, Piece.block (m.nodeBlock iter))} + m.nodeItems iters := rfl

theorem holds_one (list : ListHeader) (h : ¬ isCMalloc list.flags = true) (iter : IterPtr) :
    list.holds [iter] = list.holds [] + Holding.iters [iter] := by
  rw [list.holds_pool h, list.holds_pool h, Holding.iters_nil, add_zero]

theorem Pooled.setQueue (h : m.Pooled) (k : WorkqQueue) {list : ListHeader}
    (hf : list.flags = (m.queue k).flags) : (m.setQueue k list).Pooled := by
  intro k'
  by_cases hk : k' = k
  · subst hk
    simp only [WorkqHeap.setQueue, Function.update_self, hf]
    exact h k'
  · simp only [WorkqHeap.setQueue, Function.update_of_ne hk]
    exact h k'

theorem nodeItems_update (m : WorkqHeap) (h : iter ∉ iters) (node : Nat) :
    ({ m with nodeBlock := Function.update m.nodeBlock iter node } : WorkqHeap).nodeItems
        (iter :: iters) =
      {(AllocFamily.memory, Piece.block node)} + m.nodeItems iters := by
  rw [nodeItems_cons]
  simp only [Function.update_self]
  congr 1
  have hmap : iters.map (fun i =>
        (AllocFamily.memory, Piece.block (Function.update m.nodeBlock iter node i))) =
      iters.map fun i => (AllocFamily.memory, Piece.block (m.nodeBlock i)) := by
    apply List.map_congr_left
    intro i hi
    rw [Function.update_of_ne (ne_of_mem_of_not_mem hi h)]
  exact congrArg (fun l : List _ => (l : Holding)) hmap

end WorkqHeap

theorem acquired_notMem_iters {s : TracedHeap} {list : ListHeader} {iter : IterPtr}
    {iters : List IterPtr} {R : Holding} (hp : ¬ isCMalloc list.flags = true)
    (h : HeapAccount s (list.holds [iter] + Holding.iters iters + R)) : iter ∉ iters := by
  have hnd := (Multiset.nodup_add.mp h.items_nodup).1
  have he : list.holds [iter] + Holding.iters iters =
      list.holds [] + Holding.iters (iter :: iters) := by
    rw [WorkqHeap.holds_one list hp, Holding.iters_cons, Holding.iters_cons, Holding.iters_nil]
    abel
  rw [he] at hnd
  have hiters := (Multiset.nodup_add.mp hnd).2.1
  rw [Holding.iters, List.map_cons, Multiset.coe_nodup, List.nodup_cons] at hiters
  exact fun hm => hiters.1 (List.mem_map_of_mem hm)

/-- The iter of the node that a call of cc_workq_run has created. -/
def WorkqAlloc.made : WorkqAlloc → List IterPtr
  | success iter => [iter]
  | _ => []

namespace Traced

variable {hashFn : UInt32 → List UInt8 → UInt32} {mem : UInt64 → UInt8} {m : WorkqHeap}
  {iters : List IterPtr} {iter : IterPtr}

/-- Whether it succeeds or fails, cc_workq_run accounts for all that it got. -/
theorem workqRunTask_framed (hp : m.Pooled) (task : UInt64) (iters : List IterPtr) :
    Framed HeapAccount (m.holds iters) (workqRunTask hashFn mem task m)
      (fun r => r.2.holds (r.1.made ++ iters)) := by
  obtain ⟨rest, hrest⟩ := m.lists_split .pending
  have hlists : m.lists = (m.queue .pending).holds [] + rest := by
    rw [← hrest, m.setQueue_self]
  let old : Holding := Holding.iters iters + m.nodeItems iters
  refine .take (F := m.holds iters) (zero_add _).symm (heapAlloc_framed .memory) ?_
  rintro (_ | node)
  · exact .pure (zero_add _).symm
  refine .takeReturns (F := rest + m.mapTask.holds + old + {(.memory, .block node)}) ?_
    (listIterAcquire_framed (m.queue .pending) []) (listIterAcquire_returns _) ?_
  · simp only [WorkqHeap.holds, hlists, Holding.block, old]
    abel
  rintro ⟨_ | iter, pending⟩ ⟨hflags, -⟩
  · -- no iter
    refine .take (F := (m.setQueue .pending pending).holds iters) ?_ (heapFree_framed _ node) ?_
    · show pending.holds [] + _ = _ + ((m.setQueue .pending pending).lists + m.mapTask.holds +
        Holding.iters iters + m.nodeItems iters)
      rw [hrest]
      simp only [old]
      abel
    · exact fun _ => .pure (zero_add _).symm
  have hpool : ¬ isCMalloc pending.flags = true := by
    rw [show pending.flags = _ from hflags]
    exact hp .pending
  refine .take (F := pending.holds [iter] + rest + old + {(.memory, .block node)}) ?_
    (mapAddp_framed hashFn mem m.mapTask iter 0 task) ?_
  · show pending.holds [iter] + _ = _
    abel
  rintro ⟨_ | miter, mapTask⟩
  · -- no entry
    refine .take (F := rest + mapTask.holds + old + {(.memory, .block node)}) ?_
      (listIterRelease_framed pending [] iter) ?_
    · show mapTask.holds + _ = _
      abel
    intro pending
    refine .take (F := pending.holds [] + rest + mapTask.holds + old) ?_
      (heapFree_framed _ node) ?_
    · abel
    intro _
    apply Framed.pure
    show (m.setQueue .pending pending).lists + mapTask.holds + Holding.iters iters +
      m.nodeItems iters = _
    rw [hrest]
    simp only [old]
    abel
  · have hnew : ∀ s R, HeapAccount s (mapTask.holds +
        (pending.holds [iter] + rest + old + {(.memory, .block node)}) + R) → iter ∉ iters := by
      intro s R hs
      have he : mapTask.holds + (pending.holds [iter] + rest + old + {(.memory, .block node)}) + R =
          pending.holds [iter] + Holding.iters iters + (mapTask.holds + rest +
            m.nodeItems iters + {(.memory, .block node)} + R) := by
        simp only [old]
        abel
      rw [he] at hs
      exact acquired_notMem_iters hpool hs
    refine .know hnew fun hnew => .pure ?_
    show (m.setQueue .pending pending).lists + mapTask.holds + Holding.iters (iter :: iters) +
      ({ m with nodeBlock := Function.update m.nodeBlock iter node } : WorkqHeap).nodeItems
        (iter :: iters) = _
    rw [hrest, m.nodeItems_update hnew, WorkqHeap.holds_one pending hpool, Holding.iters_cons,
      Holding.iters_cons]
    simp only [Holding.iters_nil, old]
    abel

theorem workqForget_framed (task : UInt64) (m : WorkqHeap) (iters iters' : List IterPtr) :
    Framed HeapAccount (m.lists + m.mapTask.holds + Holding.iters iters + m.nodeItems iters')
      (workqForget hashFn mem task m)
      (fun m => m.lists + m.mapTask.holds + Holding.iters iters + m.nodeItems iters') := by
  unfold workqForget
  split
  · exact .pure rfl
  · next miter hf =>
    refine .take (F := m.lists + Holding.iters iters + m.nodeItems iters') ?_
      (mapRemove_framed m.mapTask (mapFindp_mem hf)) ?_
    · abel
    · intro r
      apply Framed.pure
      show m.lists + r.2.2.holds + Holding.iters iters + m.nodeItems iters' = _
      abel

/-- What a call of cc_workq_run that fails leaves of the memory; queue_pending may have got free
iters. -/
structure TaskUndone (m m' : WorkqHeap) : Prop where
  mapTask : m'.mapTask = m.mapTask
  nodeBlock : m'.nodeBlock = m.nodeBlock
  queue : ∀ k, k ≠ .pending → m'.queue k = m.queue k

/-- An iter that cc_workq_run got is none of those of nodes, and a failure is undone. -/
def Tried (m : WorkqHeap) (iters : List IterPtr) (r : WorkqAlloc × WorkqHeap) : Prop :=
  (∀ iter, r.1 = .success iter ∨ r.1 = .failMapAdd iter → iter ∉ iters) ∧
    ((∀ iter, r.1 ≠ .success iter) → TaskUndone m r.2)

theorem setQueue_undone (m : WorkqHeap) (list : ListHeader) :
    TaskUndone m (m.setQueue .pending list) :=
  ⟨rfl, rfl, fun _ hk => Function.update_of_ne hk _ _⟩

theorem mapAddp_ensures {V : Type} (self : TracedMap V) (val : V) (len : Nat) (key : UInt64) :
    Ensures HeapAccount self.holds (mapAddp hashFn mem self val len key)
      (fun r => r.1 = none → r.2 = self) := by
  intro s R hs hn
  obtain ⟨alloc, ha⟩ := mapAddp_answered hs hashFn mem val len key
  exact (ha.failed hn).1

theorem workqRunTask_tried (hp : m.Pooled) (task : UInt64) (iters : List IterPtr) :
    Ensures HeapAccount (m.holds iters) (workqRunTask hashFn mem task m) (Tried m iters) := by
  obtain ⟨rest, hrest⟩ := m.lists_split .pending
  have hlists : m.lists = (m.queue .pending).holds [] + rest := by
    rw [← hrest, m.setQueue_self]
  refine .take (F := m.holds iters) (φ := fun _ => True) (zero_add _).symm
    (heapAlloc_framed .memory) (fun _ _ _ => trivial) ?_
  rintro (_ | node) -
  · exact .pure ⟨by simp, fun _ => ⟨rfl, rfl, fun _ _ => rfl⟩⟩
  refine .take (F := rest + m.mapTask.holds + Holding.iters iters + m.nodeItems iters +
    {(.memory, .block node)}) ?_ (listIterAcquire_framed (m.queue .pending) [])
    (listIterAcquire_returns _).ensures ?_
  · simp only [WorkqHeap.holds, hlists, Holding.block]
    abel
  rintro ⟨_ | iter, pending⟩ ⟨hflags, -⟩
  · exact (Returns.next fun _ => .pure ⟨by simp, fun _ => setQueue_undone m pending⟩).ensures
  have hpool : ¬ isCMalloc pending.flags = true := by
    rw [show pending.flags = _ from hflags]
    exact hp .pending
  let others : Holding := rest + m.nodeItems iters + {(.memory, .block node)}
  have hsplit : pending.holds [iter] + (rest + m.mapTask.holds + Holding.iters iters +
      m.nodeItems iters + {(.memory, .block node)}) =
        m.mapTask.holds + (pending.holds [iter] + Holding.iters iters + others) := by
    simp only [others]
    abel
  have hnew : ∀ s R, HeapAccount s (pending.holds [iter] + (rest + m.mapTask.holds +
      Holding.iters iters + m.nodeItems iters + {(.memory, .block node)}) + R) →
        iter ∉ iters := by
    intro s R hs
    have he : m.mapTask.holds + (pending.holds [iter] + Holding.iters iters + others) + R =
        pending.holds [iter] + Holding.iters iters + (m.mapTask.holds + others + R) := by
      abel
    rw [hsplit, he] at hs
    exact acquired_notMem_iters hpool hs
  refine .know hnew fun hnew => ?_
  refine .take (F := pending.holds [iter] + Holding.iters iters + others) hsplit
    (mapAddp_framed hashFn mem m.mapTask iter 0 task) (mapAddp_ensures _ iter 0 task) ?_
  rintro ⟨_ | miter, mapTask⟩ hmap
  · apply Returns.ensures
    apply Returns.next
    intro pending
    apply Returns.next
    intro _
    refine .pure ⟨by simpa using hnew, fun _ => ?_⟩
    exact ⟨hmap rfl, rfl, fun _ hk => Function.update_of_ne hk _ _⟩
  · exact .pure ⟨by simpa using hnew, fun h => absurd rfl (h iter)⟩

theorem workqRunTask_pooled (hp : m.Pooled) (task : UInt64) :
    Returns (workqRunTask hashFn mem task m) (fun r => r.2.Pooled) := by
  apply Returns.next
  rintro (_ | node)
  · exact .pure hp
  refine (listIterAcquire_returns _).bind ?_
  rintro ⟨_ | iter, pending⟩ ⟨hflags, -⟩
  · exact .next fun _ => .pure (hp.setQueue .pending hflags)
  apply Returns.next
  rintro ⟨_ | miter, mapTask⟩
  · refine (listIterRelease_returns pending iter).bind ?_
    exact fun pending h => .next fun _ => .pure (hp.setQueue .pending (h.1.trans hflags))
  · exact .pure (hp.setQueue .pending hflags)

theorem workqRemoveLocked_pooled (hp : m.Pooled) (k : WorkqQueue) (task : UInt64)
    (iter : IterPtr) :
    Returns (workqRemoveLocked hashFn mem k task iter m) WorkqHeap.Pooled := by
  refine (listIterRelease_returns (m.queue k) iter).bind ?_
  intro list h
  have hset := hp.setQueue k h.1
  have hforget : Returns (workqForget hashFn mem task (m.setQueue k list)) WorkqHeap.Pooled := by
    unfold workqForget
    split
    · exact .pure hset
    · exact .next fun _ => .pure hset
  exact hforget.bind fun m hm => .next fun _ => .pure hm

/-- cc_workq_removeLocked gives back the iter, the entry of the task and the node. -/
theorem workqRemoveLocked_framed (hp : m.Pooled) (k : WorkqQueue) (task : UInt64)
    (iter : IterPtr) (iters : List IterPtr) :
    Framed HeapAccount (m.holds (iter :: iters)) (workqRemoveLocked hashFn mem k task iter m)
      (fun m => m.holds iters) := by
  obtain ⟨rest, hrest⟩ := m.lists_split k
  have hlists : m.lists = (m.queue k).holds [] + rest := by
    rw [← hrest, m.setQueue_self]
  refine .take (F := rest + m.mapTask.holds + Holding.iters iters + m.nodeItems (iter :: iters)) ?_
    (listIterRelease_framed (m.queue k) [] iter) ?_
  · rw [WorkqHeap.holds, hlists, WorkqHeap.holds_one _ (hp k), Holding.iters_cons,
      Holding.iters_cons, Holding.iters_nil]
    abel
  intro list
  refine .bind ((workqForget_framed task (m.setQueue k list) iters (iter :: iters)).congr ?_
    fun _ => rfl) ?_
  · rw [hrest]
    show list.holds [] + _ = _ + m.mapTask.holds + _ + m.nodeItems (iter :: iters)
    abel
  · intro m
    refine .take (F := m.holds iters) ?_ (heapFree_framed _ (m.nodeBlock iter)) ?_
    · rw [m.nodeItems_cons, WorkqHeap.holds]
      abel
    · exact fun _ => .pure (zero_add _).symm

end Traced

end LibCC
