import LibCC.TracedMap

/-! The traced cc_map does to its content what cc_map does, for the answers
that the heap gives; and a call of cc_map_addp that fails leaves no trace. -/

namespace LibCC

open AllocEvent FramedProgram SequenceFamily

variable {V : Type}

/-- realloc or REALLOC returned NULL. -/
def FailsResize (e : HeapEvent) : Prop := ∃ family old, e = .resize family old none

namespace Traced

/-- No resize fails, as none is tried. -/
abbrev NoResize {α : Type} (m : TracedM α) : Prop :=
  Logs TracedHeap.trace (fun e => ¬ FailsResize e) m

theorem heapAlloc_noResize (family : AllocFamily) : NoResize (heapAlloc family) :=
  fun s => ⟨[_], rfl, by simp [FailsResize]⟩

theorem modifyPool_noResize (f : IterPool → IterPool) :
    NoResize (modify fun s : TracedHeap => s.setPool f) := fun s => ⟨[], rfl, by simp⟩

theorem poolAddBlock_noResize : NoResize poolAddBlock := by
  apply (heapAlloc_noResize .memory).next
  rintro (_ | block)
  · exact .pure
  · exact (modifyPool_noResize _).next fun _ => .pure

theorem poolTakeIter_noResize : NoResize poolTakeIter := by
  intro s
  cases hp : s.pool.iters with
  | nil => exact ⟨[], by simp [poolTakeIter, hp, StateT.run], by simp⟩
  | cons iter iters =>
    exact ⟨[.alloc .pool (some (.iter iter))], by simp [poolTakeIter, hp, StateT.run],
      by simp [FailsResize]⟩

theorem poolTake_noResize (n : Nat) : NoResize (poolTake n) := by
  induction n with
  | zero => exact .pure
  | succ n ih =>
    apply Logs.next poolTakeIter_noResize
    rintro (_ | iter)
    · exact .pure
    · exact ih.next fun _ => .pure

theorem poolGet_noResize : NoResize poolGet := by
  have hset : NoResize poolGetSet :=
    (poolTake_noResize listSetSize).next fun _ => (modifyPool_noResize _).next fun _ => .pure
  apply Logs.get
  intro s
  split_ifs
  · apply poolAddBlock_noResize.next
    rintro (_ | _)
    · exact .pure
    · exact hset
  · exact hset

theorem listIterAcquire_noResize (list : ListHeader) : NoResize (listIterAcquire list) := by
  unfold listIterAcquire
  split_ifs
  · exact (heapAlloc_noResize .libc).next fun _ => .pure
  · split
    · exact .pure
    · apply poolGet_noResize.next
      rintro (_ | ⟨self, iters⟩)
      · exact .pure
      · exact .pure

/-! An allocation that fails leaves every piece with its owner. -/

section Fails

variable {s : TracedHeap}

theorem heapAlloc_none {family : AllocFamily} (h : ((heapAlloc family).run s).1 = none) :
    owner ((heapAlloc family).run s).2.trace = owner s.trace := by
  by_cases hg : s.grants s.requests
  · simp [heapAlloc, hg, StateT.run] at h
  · simp [heapAlloc, hg, StateT.run, owner, AllocEvent.after]

theorem poolTake_nil {n : Nat} (h : ((poolTake (n + 1)).run s).1 = []) :
    ((poolTake (n + 1)).run s).2 = s ∧ s.pool.iters = [] := by
  cases hp : s.pool.iters with
  | nil => simp [poolTake, poolTakeIter, hp, StateT.run, bind, StateT.bind, pure, StateT.pure]
  | cons iter iters =>
    simp only [poolTake, poolTakeIter, hp, StateT.run, bind, StateT.bind, pure,
      StateT.pure] at h
    cases h

theorem poolGetSet_nil (h : (poolGetSet.run s).1 = []) :
    (poolGetSet.run s).2.trace = s.trace ∧ s.pool.iters = [] := by
  have ht : ((poolTake (31 + 1)).run s).1 = [] := h
  obtain ⟨he, hp⟩ := poolTake_nil ht
  refine ⟨?_, hp⟩
  show ((poolTake (31 + 1)).run s).2.trace = s.trace
  rw [he]

theorem poolAddBlock_false (h : (poolAddBlock.run s).1 = false) :
    owner (poolAddBlock.run s).2.trace = owner s.trace := by
  by_cases hg : s.grants s.requests
  · simp [poolAddBlock, heapAlloc, hg, StateT.run, bind, StateT.bind, pure, StateT.pure, modify,
      modifyGet, MonadStateOf.modifyGet, StateT.modifyGet] at h
  · simp [poolAddBlock, heapAlloc, hg, StateT.run, bind, StateT.bind, pure, StateT.pure, owner,
      AllocEvent.after]

theorem poolAddBlock_true (h : (poolAddBlock.run s).1 = true) :
    (poolAddBlock.run s).2.pool.iters ≠ [] := by
  by_cases hg : s.grants s.requests
  · simp [poolAddBlock, heapAlloc, hg, StateT.run, bind, StateT.bind, pure, StateT.pure, modify,
      modifyGet, MonadStateOf.modifyGet, StateT.modifyGet, poolFill, listBlockSize]
  · simp [poolAddBlock, heapAlloc, hg, StateT.run, bind, StateT.bind, pure, StateT.pure] at h

theorem poolGet_nil (h : (poolGet.run s).1 = []) :
    owner (poolGet.run s).2.trace = owner s.trace := by
  have hrun : poolGet.run s = (if s.pool.count < listSetSize then
      (do if ← poolAddBlock then poolGetSet else return []) else poolGetSet : TracedM _).run s :=
    rfl
  rw [hrun] at h ⊢
  split_ifs at h ⊢ with hc
  · cases hb : (poolAddBlock.run s).1 with
    | false =>
      have he : (do if ← poolAddBlock then poolGetSet else return [] : TracedM _).run s =
          ([], (poolAddBlock.run s).2) := by
        rw [StateT.run_bind, show poolAddBlock.run s = (false, (poolAddBlock.run s).2) from
          Prod.ext hb rfl]
        rfl
      rw [he]
      exact poolAddBlock_false hb
    | true =>
      have he : (do if ← poolAddBlock then poolGetSet else return [] : TracedM _).run s =
          poolGetSet.run (poolAddBlock.run s).2 := by
        rw [StateT.run_bind, show poolAddBlock.run s = (true, (poolAddBlock.run s).2) from
          Prod.ext hb rfl]
        rfl
      rw [he] at h
      exact absurd (poolGetSet_nil h).2 (poolAddBlock_true hb)
  · rw [(poolGetSet_nil h).1]

theorem listIterAcquire_none {list : ListHeader}
    (h : ((listIterAcquire list).run s).1.1 = none) :
    ((listIterAcquire list).run s).1.2 = list ∧
      owner ((listIterAcquire list).run s).2.trace = owner s.trace := by
  unfold listIterAcquire at h ⊢
  split_ifs at h ⊢
  · have h : ((heapAlloc .libc).run s).1.map (fun block => (⟨block, 0⟩ : IterPtr)) = none := h
    exact ⟨rfl, heapAlloc_none (Option.map_eq_none_iff.mp h)⟩
  · cases hl : list.iters with
    | cons self iters =>
      simp only [hl] at h
      cases h
    | nil =>
      simp only [hl] at h ⊢
      cases hr : (poolGet.run s).1 with
      | nil =>
        have he : poolGet.run s = ([], (poolGet.run s).2) := Prod.ext hr rfl
        rw [StateT.run_bind, he]
        exact ⟨rfl, poolGet_nil hr⟩
      | cons self iters =>
        have he : poolGet.run s = (self :: iters, (poolGet.run s).2) := Prod.ext hr rfl
        rw [StateT.run_bind, he] at h
        cases h

end Fails

section Adds

variable {m : TracedMap V} {s s' : TracedHeap} {node : MapNode V} {miterAt : Option IterPtr}
  {idx block : Nat} {nodes : ListHeader} {miter : IterPtr}

theorem mapGrow_answered (self : TracedMap V) (s : TracedHeap) : ∃ realloc new,
    ((mapGrow self).run s).1.map = LibCC.mapGrow realloc self.map ∧
      ((mapGrow self).run s).2.trace = new ++ s.trace ∧
      ((∃ e ∈ new, FailsResize e) → realloc = none) := by
  by_cases hle : self.map.seq.length ≤ self.map.capacity
  · refine ⟨none, [], ?_, ?_, by simp⟩
    · simp [mapGrow, LibCC.mapGrow, hle, StateT.run, pure, StateT.pure]
    · simp [mapGrow, hle, StateT.run, pure, StateT.pure]
  · by_cases hg : s.grants s.requests
    · let e : HeapEvent := .resize self.family (.block self.buckets) (some (.block s.requests))
      refine ⟨some (s.stale s.requests), [e], ?_, ?_, by simp [e, FailsResize]⟩
      · simp [mapGrow, heapRealloc, hg, hle, StateT.run, bind, StateT.bind, pure, StateT.pure, get,
          getThe, MonadStateOf.get, StateT.get]
        rfl
      · simp [mapGrow, heapRealloc, hg, hle, StateT.run, bind, StateT.bind, pure, StateT.pure, get,
          getThe, MonadStateOf.get, StateT.get, e, TracedMap.family]
    · let e : HeapEvent := .resize self.family (.block self.buckets) none
      refine ⟨none, [e], ?_, ?_, fun _ => rfl⟩
      · simp [mapGrow, LibCC.mapGrow, heapRealloc, hg, hle, StateT.run, bind, StateT.bind, pure,
          StateT.pure]
      · simp [mapGrow, heapRealloc, hg, hle, StateT.run, bind, StateT.bind, pure, StateT.pure, e,
          TracedMap.family]

theorem mapAddNode_run_none (hr : (listIterAcquire m.nodes).run s = ((none, nodes), s')) :
    (mapAddNode m miterAt idx node block).run s =
      ((none, mapCount { m with nodes := nodes } (m.map.nodesSize - node.sizeof)),
        s'.record (.release m.family (.block block))) := by
  rw [mapAddNode, StateT.run_bind, hr]
  rfl

theorem mapAddNode_run_some (hr : (listIterAcquire m.nodes).run s = ((some miter, nodes), s')) :
    (mapAddNode m miterAt idx node block).run s =
      let grown := (mapGrow (mapPlace m miterAt idx miter node block nodes)).run s'
      ((some miter, grown.1), grown.2) := by
  rw [mapAddNode, StateT.run_bind, hr]
  rfl

end Adds

/-- What a call of cc_map_addp did. `alloc` is what the content saw of the allocators; a call that
failed left the map and the owners of all pieces alone. -/
structure AddAnswered (m : TracedMap V) (s : TracedHeap)
    (r : (Option IterPtr × TracedMap V) × TracedHeap)
    (alloc : MapAlloc) (out : Option IterPtr × CcMap V) : Prop where
  unused : alloc.Unused m.map
  result : (r.1.1, r.1.2.map) = out
  failed : r.1.1 = none → r.1.2 = m ∧ owner r.2.trace = owner s.trace
  resize : ∃ new, r.2.trace = new ++ s.trace ∧
    ((∃ e ∈ new, FailsResize e) → r.1.1 ≠ none ∧ alloc.realloc = none)

section Answered

variable {self : TracedMap V} {s : TracedHeap} {R : Holding}

theorem AddAnswered.nothing :
    AddAnswered self s ((none, self), s) ⟨false, none, none⟩ (none, self.map) where
  unused _ h := by cases h
  result := rfl
  failed _ := ⟨rfl, rfl⟩
  resize := ⟨[], rfl, by simp⟩

/-- The heap once cc_mapNode_new has got a block. -/
def nodeHeap (self : TracedMap V) (s : TracedHeap) : TracedHeap :=
  { s with requests := s.requests + 1 }.record (.alloc self.family (some (.block s.requests)))

/-- The map while the node has no place yet. -/
def counted (self : TracedMap V) (node : MapNode V) : TracedMap V :=
  mapCount self (self.map.nodesSize + node.sizeof)

theorem nodeHeap_account (h : HeapAccount s (self.holds + R)) :
    HeapAccount (nodeHeap self s) (self.holds + {(self.family, .block s.requests)} + R) := by
  have hg := h.granted self.family
  have he : self.holds + {(self.family, .block s.requests)} + R =
      (self.family, .block s.requests) ::ₘ (self.holds + R) := by
    rw [← Multiset.singleton_add]
    abel
  rw [he]
  exact hg

/-- Without an iter the node is released, and counted no longer. -/
theorem mapAddNode_noIter {s' : TracedHeap} {nodes : ListHeader} {miterAt : Option IterPtr}
    {idx : Nat} {val : V} {hash : UInt32} {key : MapKey} (h : HeapAccount s (self.holds + R))
    (hr : (listIterAcquire self.nodes).run (nodeHeap self s) = ((none, nodes), s')) :
    AddAnswered self s
      ((mapAddNode (counted self ⟨val, hash, key⟩) miterAt idx ⟨val, hash, key⟩ s.requests).run
        (nodeHeap self s))
      ⟨true, none, none⟩ (LibCC.mapAddAt self.map miterAt hash idx val key ⟨true, none, none⟩) := by
  obtain ⟨new, htrace, hno⟩ := listIterAcquire_noResize self.nodes (nodeHeap self s)
  have hnone : ((listIterAcquire self.nodes).run (nodeHeap self s)).1.1 = none := by rw [hr]
  obtain ⟨hnodes, howner⟩ := listIterAcquire_none hnone
  rw [hr] at hnodes howner htrace
  have hself : mapCount { counted self ⟨val, hash, key⟩ with nodes := nodes }
      ((counted self ⟨val, hash, key⟩).map.nodesSize - MapNode.sizeof ⟨val, hash, key⟩) =
        self := by
    rw [show nodes = self.nodes from hnodes]
    simp [mapCount, counted]
  rw [mapAddNode_run_none (m := counted self ⟨val, hash, key⟩) hr, hself]
  let e : HeapEvent := .alloc self.family (some (.block s.requests))
  let e' : HeapEvent := .release self.family (.block s.requests)
  exact {
    unused := fun _ he => by cases he
    result := (mapAddAt_fail (.inr rfl) ..).symm
    failed := fun _ => ⟨rfl, by
      calc owner (e' :: s'.trace)
          = Function.update (owner s'.trace) (.block s.requests) none := rfl
        _ = Function.update (owner (e :: s.trace)) (.block s.requests) none := by
          rw [show owner s'.trace = owner (e :: s.trace) from howner]
        _ = owner s.trace := by
          show Function.update (Function.update (owner s.trace) _ _) _ _ = _
          rw [Function.update_idem, Function.update_eq_self_iff]
          exact (h.unused _ (le_refl _)).symm⟩
    resize := ⟨e' :: (new ++ [e]), by
      show e' :: s'.trace = _
      rw [show s'.trace = new ++ e :: s.trace from htrace]
      simp, by
      rintro ⟨x, hx, hf⟩
      rcases List.mem_cons.mp hx with rfl | hx
      · simp [e', FailsResize] at hf
      rcases List.mem_append.mp hx with hx | hx
      · exact absurd hf (hno x hx)
      · rw [List.mem_singleton.mp hx] at hf
        simp [e, FailsResize] at hf⟩ }

/-- With an iter the node gets its place, and a resize that fails does no harm. -/
theorem mapAddNode_placed {s' : TracedHeap} {nodes : ListHeader} {miterAt : Option IterPtr}
    {miter : IterPtr} {idx : Nat} {val : V} {hash : UInt32} {key : MapKey}
    (h : HeapAccount s (self.holds + R))
    (hr : (listIterAcquire self.nodes).run (nodeHeap self s) = ((some miter, nodes), s')) :
    ∃ alloc, AddAnswered self s
      ((mapAddNode (counted self ⟨val, hash, key⟩) miterAt idx ⟨val, hash, key⟩ s.requests).run
        (nodeHeap self s)) alloc (LibCC.mapAddAt self.map miterAt hash idx val key alloc) := by
  obtain ⟨new, htrace, hno⟩ := listIterAcquire_noResize self.nodes (nodeHeap self s)
  rw [hr] at htrace
  obtain ⟨realloc, new', hmap, htrace', hfail⟩ := mapGrow_answered
    (mapPlace (counted self ⟨val, hash, key⟩) miterAt idx miter ⟨val, hash, key⟩ s.requests nodes)
    s'
  have hmem : miter ∉ self.map.seq := by
    let rest : Holding := {(self.family, .block self.self)} + {(self.family, .block self.buckets)} +
      self.nodeItems self.map.seq + {(self.family, .block s.requests)} + R
    have hs := nodeHeap_account h
    have he : self.holds + {(self.family, .block s.requests)} + R =
        self.nodes.holds self.map.seq + rest := by
      simp only [TracedMap.holds, rest]
      abel
    rw [he] at hs
    have ha := listIterAcquire_framed self.nodes self.map.seq _ _ hs
    rw [hr] at ha
    exact acquired_notMem ha
  rw [mapAddNode_run_some (m := counted self ⟨val, hash, key⟩) hr]
  let e : HeapEvent := .alloc self.family (some (.block s.requests))
  refine ⟨⟨true, some miter, realloc⟩, ?_⟩
  exact {
    unused := fun iter he => by
      cases he
      exact hmem
    result := by
      simp only [hmap]
      rfl
    failed := fun he => by cases he
    resize := ⟨new' ++ (new ++ [e]), by
      refine htrace'.trans ?_
      rw [show s'.trace = new ++ e :: s.trace from htrace]
      simp, by
      rintro ⟨x, hx, hf⟩
      refine ⟨by simp, ?_⟩
      rcases List.mem_append.mp hx with hx | hx
      · exact hfail ⟨x, hx, hf⟩
      rcases List.mem_append.mp hx with hx | hx
      · exact absurd hf (hno x hx)
      · rw [List.mem_singleton.mp hx] at hf
        simp [e, FailsResize] at hf⟩ }

theorem mapAddAt_answered (h : HeapAccount s (self.holds + R)) (miterAt : Option IterPtr)
    (hash : UInt32) (idx : Nat) (val : V) (key : MapKey) :
    ∃ alloc, AddAnswered self s ((mapAddAt self miterAt hash idx val key).run s) alloc
      (LibCC.mapAddAt self.map miterAt hash idx val key alloc) := by
  by_cases hg : s.grants s.requests
  · have hrun : (mapAddAt self miterAt hash idx val key).run s =
        (mapAddNode (counted self ⟨val, hash, key⟩) miterAt idx ⟨val, hash, key⟩ s.requests).run
          (nodeHeap self s) := by
      simp [mapAddAt, mapNodeNew, heapAlloc, hg, StateT.run, bind, StateT.bind]
      rfl
    rw [hrun]
    cases hr : (listIterAcquire self.nodes).run (nodeHeap self s) with
    | mk r s' =>
    obtain ⟨_ | miter, nodes⟩ := r
    · exact ⟨_, mapAddNode_noIter h hr⟩
    · exact mapAddNode_placed h hr
  · let e : HeapEvent := .alloc self.family none
    have hrun : (mapAddAt self miterAt hash idx val key).run s =
        ((none, self), { s with requests := s.requests + 1 }.record e) := by
      simp [mapAddAt, mapNodeNew, heapAlloc, hg, StateT.run, bind, StateT.bind, pure, StateT.pure,
        e, TracedMap.family]
    rw [hrun]
    refine ⟨⟨false, none, none⟩, ?_⟩
    exact {
      unused := fun _ he => by cases he
      result := (mapAddAt_fail (.inl rfl) ..).symm
      failed := fun _ => ⟨rfl, rfl⟩
      resize := ⟨[e], rfl, by simp [e, FailsResize]⟩ }

/-- cc_map_addp: a key that is there needs no memory. -/
theorem mapAddp_answered (h : HeapAccount s (self.holds + R))
    (hashFn : UInt32 → List UInt8 → UInt32) (mem : UInt64 → UInt8) (val : V) (len : Nat)
    (key : UInt64) :
    ∃ alloc, AddAnswered self s ((mapAddp hashFn mem self val len key).run s) alloc
      (LibCC.mapAddp hashFn mem self.map val len key alloc) := by
  simp only [mapAddp, LibCC.mapAddp]
  cases hk : mapKeyBytes mem len key with
  | none => exact ⟨_, .nothing⟩
  | some key =>
    simp only [mapAddHash, LibCC.mapAddHash]
    split_ifs
    · cases mapAddScan self.map _ _ key _ with
      | none => exact ⟨_, .nothing⟩
      | some miter => exact mapAddAt_answered h ..
    · exact mapAddAt_answered h ..

end Answered

end Traced

end LibCC
