import LibCC.TracedList

/-! The counter of the pool of iters is right, so a set of iters is whole. -/

namespace LibCC

open AllocEvent FramedProgram

/-- The pool has as many free iters as it counts. -/
def TracedHeap.Counted (s : TracedHeap) : Prop := s.pool.count = s.pool.iters.length

namespace Traced

variable {s : TracedHeap}

theorem heapAlloc_counted (family : AllocFamily) :
    Keeps TracedHeap.Counted (heapAlloc family) (fun _ => True) := fun _ h => ⟨h, trivial⟩

theorem heapFree_counted (family : AllocFamily) (block : Nat) :
    Keeps TracedHeap.Counted (heapFree family block) (fun _ => True) := fun _ h => ⟨h, trivial⟩

theorem poolFill_length (block : Nat) : (poolFill block).length = listBlockSize := by
  simp [poolFill]

theorem poolAddBlock_counted : Keeps TracedHeap.Counted poolAddBlock (fun _ => True) := by
  apply (heapAlloc_counted .memory).bind
  rintro (_ | block) -
  · exact .pure trivial
  · intro s hs
    refine ⟨?_, trivial⟩
    show s.pool.count + listBlockSize = (poolFill block ++ s.pool.iters).length
    rw [List.length_append, poolFill_length, hs]
    omega

theorem poolAddBlock_count (h : (poolAddBlock.run s).1 = true) :
    listSetSize ≤ (poolAddBlock.run s).2.pool.count := by
  by_cases hg : s.grants s.requests
  · have hcount : (poolAddBlock.run s).2.pool.count = s.pool.count + listBlockSize := by
      simp [poolAddBlock, heapAlloc, hg, StateT.run, bind, StateT.bind, pure, StateT.pure, modify,
        modifyGet, MonadStateOf.modifyGet, StateT.modifyGet]
    rw [hcount]
    simp only [listSetSize, listBlockSize]
    omega
  · simp [poolAddBlock, heapAlloc, hg, StateT.run, bind, StateT.bind, pure, StateT.pure] at h

/-- The loop that takes a set gets whole what the pool has. -/
theorem poolTake_run (n : Nat) (h : n ≤ s.pool.iters.length) :
    ((poolTake n).run s).1.length = n ∧
      ((poolTake n).run s).2.pool.count = s.pool.count ∧
      ((poolTake n).run s).2.pool.iters.length = s.pool.iters.length - n := by
  induction n generalizing s with
  | zero => exact ⟨rfl, rfl, rfl⟩
  | succ n ih =>
    cases hp : s.pool.iters with
    | nil =>
      rw [hp] at h
      simp at h
    | cons iter iters =>
      let s' := (s.setPool ({ · with iters := iters })).record (.alloc .pool (some (.iter iter)))
      have hrun : (poolTake (n + 1)).run s =
          (iter :: ((poolTake n).run s').1, ((poolTake n).run s').2) := by
        have htake : poolTakeIter.run s = (some iter, s') := by
          simp only [poolTakeIter, StateT.run, hp]
          rfl
        rw [poolTake, StateT.run_bind, htake]
        rfl
      have hle : n ≤ s'.pool.iters.length := by
        rw [hp] at h
        show n ≤ iters.length
        simpa using h
      obtain ⟨hlen, hcount, hrest⟩ := ih hle
      rw [hrun]
      refine ⟨?_, hcount, ?_⟩
      · rw [List.length_cons, hlen]
      · show ((poolTake n).run s').2.pool.iters.length = (iter :: iters).length - (n + 1)
        rw [hrest]
        show iters.length - n = _
        simp

theorem poolGetSet_run (hs : s.Counted) (h : listSetSize ≤ s.pool.count) :
    (poolGetSet.run s).1.length = listSetSize ∧ (poolGetSet.run s).2.Counted := by
  rw [show s.pool.count = s.pool.iters.length from hs] at h
  obtain ⟨hlen, hcount, hrest⟩ := poolTake_run listSetSize h
  refine ⟨hlen, ?_⟩
  show ((poolTake listSetSize).run s).2.pool.count - listSetSize =
    ((poolTake listSetSize).run s).2.pool.iters.length
  rw [hcount, hrest, show s.pool.count = s.pool.iters.length from hs]

/-- cc_listPool_get returns a whole set, or NULL. -/
theorem poolGet_run (hs : s.Counted) :
    ((poolGet.run s).1 = [] ∨ (poolGet.run s).1.length = listSetSize) ∧
      (poolGet.run s).2.Counted := by
  have hrun : poolGet.run s = (if s.pool.count < listSetSize then
      (do if ← poolAddBlock then poolGetSet else return []) else poolGetSet : TracedM _).run s :=
    rfl
  rw [hrun]
  split_ifs with hc
  · have hadd := (poolAddBlock_counted s hs).1
    have hcount : (poolAddBlock.run s).1 = true → _ := poolAddBlock_count
    cases hb : poolAddBlock.run s with
    | mk b s' =>
    rw [hb] at hadd hcount
    rw [StateT.run_bind, hb]
    cases b with
    | false => exact ⟨.inl rfl, hadd⟩
    | true =>
      obtain ⟨hlen, hkeep⟩ := poolGetSet_run hadd (hcount rfl)
      exact ⟨.inr hlen, hkeep⟩
  · obtain ⟨hlen, hkeep⟩ := poolGetSet_run hs (by omega)
    exact ⟨.inr hlen, hkeep⟩

theorem poolReturn_run (iters : List IterPtr) (s : TracedHeap) :
    ((poolReturn iters).run s).2.pool.count = s.pool.count ∧
      ((poolReturn iters).run s).2.pool.iters.length = iters.length + s.pool.iters.length := by
  induction iters generalizing s with
  | nil => exact ⟨rfl, (Nat.zero_add _).symm⟩
  | cons iter iters ih =>
    obtain ⟨hcount, hlen⟩ := ih s
    refine ⟨hcount, ?_⟩
    show (iter :: ((poolReturn iters).run s).2.pool.iters).length = _
    rw [List.length_cons, hlen, List.length_cons]
    omega

theorem poolFreeBlocks_run (blocks : List Nat) (s : TracedHeap) :
    ((poolFreeBlocks blocks).run s).2.pool.count = s.pool.count ∧
      ((poolFreeBlocks blocks).run s).2.pool.iters = s.pool.iters := by
  induction blocks generalizing s with
  | nil => exact ⟨rfl, rfl⟩
  | cons block blocks ih => exact ih _

theorem poolPut_counted (iters : List IterPtr) :
    Keeps TracedHeap.Counted (poolPut iters) (fun _ => True) := by
  unfold poolPut
  split_ifs
  · exact .pure trivial
  · intro s hs
    refine ⟨?_, trivial⟩
    obtain ⟨hcount, hlen⟩ := poolReturn_run iters s
    let s' := ((poolReturn iters).run s).2.setPool fun pool =>
      { pool with
        count := pool.count + iters.length
        refcount := pool.refcount - iters.length }
    have hs' : s'.Counted := by
      show ((poolReturn iters).run s).2.pool.count + iters.length =
        ((poolReturn iters).run s).2.pool.iters.length
      rw [hcount, hlen, show s.pool.count = s.pool.iters.length from hs]
      omega
    show ((if s'.pool.refcount = 0 then poolClear else pure () : TracedM Unit).run s').2.Counted
    split_ifs
    · obtain ⟨hcount, hiters⟩ := poolFreeBlocks_run s'.pool.blocks
        (s'.setPool ({ · with iters := [], count := 0 }))
      show ((poolFreeBlocks s'.pool.blocks).run _).2.pool.count = _
      rw [hcount]
      exact (congrArg List.length hiters).symm
    · exact hs'

/-- A list takes one of its free iters, or a set from the pool when it has none. -/
theorem listIterAcquire_set {list : ListHeader} (hp : ¬ isCMalloc list.flags = true)
    (hs : s.Counted) {alloc : Option IterPtr} {list' : ListHeader} {s' : TracedHeap}
    (hr : (listIterAcquire list).run s = ((alloc, list'), s')) :
    s'.Counted ∧ (alloc = none ∧ list' = list ∨
      ∃ iter, alloc = some iter ∧ (list.iters.length = list'.iters.length + 1 ∨
        list.iters = [] ∧ list'.iters.length + 1 = listSetSize)) := by
  rw [listIterAcquire, if_neg hp] at hr
  cases hl : list.iters with
  | cons self iters =>
    simp only [hl] at hr
    cases hr
    exact ⟨hs, .inr ⟨self, rfl, .inl rfl⟩⟩
  | nil =>
    simp only [hl] at hr
    obtain ⟨hset, hkeep⟩ := poolGet_run hs
    cases hg : poolGet.run s with
    | mk set s'' =>
    rw [StateT.run_bind, hg] at hr
    rw [hg] at hset hkeep
    cases set with
    | nil =>
      cases hr
      exact ⟨hkeep, .inl ⟨rfl, rfl⟩⟩
    | cons self iters =>
      cases hr
      refine ⟨hkeep, .inr ⟨self, rfl, .inr ⟨rfl, ?_⟩⟩⟩
      rcases hset with he | he
      · cases he
      · show iters.reverse.length + 1 = listSetSize
        rw [List.length_reverse]
        exact he

end Traced

end LibCC
