import LibCC.MapRuns
import LibCC.TracedList

/-! cc_map with the calls that it makes to allocators. The nodes are in blocks
of their own; what the map holds apart from that is a CcMap. -/

namespace LibCC

open AllocEvent FramedProgram SequenceFamily

structure TracedMap (V : Type) where
  self : Nat
  flags : Nat
  buckets : Nat
  nodes : ListHeader
  nodeBlock : IterPtr → Nat
  map : CcMap V

variable {V : Type}

namespace Traced

/-- cc_mapNode_new up to the size that it adds to the map's. -/
def mapNodeNew (flags : Nat) : TracedM (Option Nat) := heapAlloc (flagsFamily flags)

def mapNodeDelete (flags : Nat) (node : Nat) : TracedM Unit := heapFree (flagsFamily flags) node

/-- cc_map_newFlags. `seed` is what random returns. -/
def mapNewFlags (flags : Nat) (seed : UInt32) (data : IterPtr → MapNode V) :
    TracedM (Option (TracedMap V)) := do
  match ← heapAlloc (flagsFamily flags) with
  | none => return none
  | some self =>
    match ← heapAlloc (flagsFamily flags) with
    | none => do
      heapFree (flagsFamily flags) self
      return none
    | some buckets =>
      match ← listNewFlags (if isCMalloc flags then listFlagCMalloc else 0) with
      | none => do
        heapFree (flagsFamily flags) buckets
        heapFree (flagsFamily flags) self
        return none
      | some nodes => return some ⟨self, flags, buckets, nodes, fun _ => 0, mapNew seed data⟩

def mapGrow (self : TracedMap V) : TracedM (TracedMap V) := do
  if self.map.seq.length ≤ self.map.capacity then return self
  else
    match ← heapRealloc (flagsFamily self.flags) self.buckets with
    | none => return self
    | some buckets => do
      let s ← get
      return { self with
        buckets := buckets
        map := LibCC.mapGrow (some (s.stale buckets)) self.map }

/-- What cc_map_addAt does with the iter of a node that is counted already. -/
def mapLink (self : CcMap V) (miterAt : Option IterPtr) (idx : Nat) (miter : IterPtr)
    (node : MapNode V) : CcMap V :=
  let replace := self.buckets idx = none ∨ (miterAt ≠ none ∧ self.buckets idx = miterAt)
  let self := { self with nodes :=
    if miterAt ≠ none then self.nodes.insert () miterAt miter node
    else self.nodes.append () none miter node }
  if replace then self.setBucket idx (some miter) else self

/-- The node is counted, or no longer. -/
def mapCount (self : TracedMap V) (nodesSize : Nat) : TracedMap V :=
  { self with map := { self.map with nodesSize := nodesSize } }

def mapPlace (self : TracedMap V) (miterAt : Option IterPtr) (idx : Nat) (miter : IterPtr)
    (node : MapNode V) (block : Nat) (nodes : ListHeader) : TracedMap V :=
  { self with
    nodes := nodes
    nodeBlock := Function.update self.nodeBlock miter block
    map := mapLink self.map miterAt idx miter node }

/-- cc_map_addAt from where it has a node. -/
def mapAddNode (self : TracedMap V) (miterAt : Option IterPtr) (idx : Nat) (node : MapNode V)
    (block : Nat) : TracedM (Option IterPtr × TracedMap V) := do
  match ← listIterAcquire self.nodes with
  | (none, nodes) => do
    mapNodeDelete self.flags block
    return (none, mapCount { self with nodes := nodes } (self.map.nodesSize - node.sizeof))
  | (some miter, nodes) => do
    let self ← mapGrow (mapPlace self miterAt idx miter node block nodes)
    return (some miter, self)

def mapAddAt (self : TracedMap V) (miterAt : Option IterPtr) (hash : UInt32) (idx : Nat) (val : V)
    (key : MapKey) : TracedM (Option IterPtr × TracedMap V) := do
  match ← mapNodeNew self.flags with
  | none => return (none, self)
  | some block =>
    let node : MapNode V := ⟨val, hash, key⟩
    mapAddNode (mapCount self (self.map.nodesSize + node.sizeof)) miterAt idx node block

def mapAddHash (self : TracedMap V) (val : V) (hash : UInt32) (key : MapKey) :
    TracedM (Option IterPtr × TracedMap V) :=
  let idx := self.map.idx hash
  if self.map.buckets idx ≠ none then
    match mapAddScan self.map hash idx key (suffixFrom (self.map.buckets idx) self.map.seq) with
    | none => pure (none, self)
    | some miter => mapAddAt self miter hash idx val key
  else
    mapAddAt self (mapAddNext self.map (self.map.capacity - (idx + 1)) (idx + 1)) hash idx val key

def mapAddp (hashFn : UInt32 → List UInt8 → UInt32) (mem : UInt64 → UInt8) (self : TracedMap V)
    (val : V) (len : Nat) (key : UInt64) : TracedM (Option IterPtr × TracedMap V) :=
  match mapKeyBytes mem len key with
  | none => pure (none, self)
  | some key => mapAddHash self val (hashFn self.map.seed key.bytes) key

def mapRemove (self : TracedMap V) (miter : IterPtr) :
    TracedM (V × Option IterPtr × TracedMap V) := do
  let removed := LibCC.mapRemove self.map miter
  let nodes ← listIterRelease miter self.nodes
  mapNodeDelete self.flags (self.nodeBlock miter)
  return (removed.1, removed.2.1, { self with nodes := nodes, map := removed.2.2 })

/-- The `while` loop of cc_map_discard: each iter is given back, then its node. -/
def mapDiscardLoop (self : TracedMap V) : List IterPtr → ListHeader → TracedM ListHeader
  | [], nodes => pure nodes
  | iter :: iters, nodes => do
    let nodes ← listIterRelease iter nodes
    mapNodeDelete self.flags (self.nodeBlock iter)
    mapDiscardLoop self iters nodes

def mapDiscard (self : TracedMap V) : TracedM (TracedMap V) := do
  let nodes ← mapDiscardLoop self self.map.seq self.nodes
  return { self with nodes := nodes, map := LibCC.mapDiscard self.map }

/-- cc_map_delete. The nodes of a map that is not empty are leaked. -/
def mapDelete (self : TracedMap V) : TracedM Unit := do
  listDelete self.map.seq self.nodes
  heapFree (flagsFamily self.flags) self.buckets
  heapFree (flagsFamily self.flags) self.self

end Traced

namespace TracedMap

def family (self : TracedMap V) : AllocFamily := flagsFamily self.flags

/-- The map and its list of nodes use calloc and free. -/
def CMalloc (self : TracedMap V) : Prop :=
  isCMalloc self.flags = true ∧ isCMalloc self.nodes.flags = true

/-- What a call leaves of a map: the block that it is in, and the flags. -/
structure Same (m m' : TracedMap V) : Prop where
  block : m'.self = m.self
  flags : m'.flags = m.flags
  nodes : m'.nodes.flags = m.nodes.flags

/-- The block of a node. -/
def nodeItem (self : TracedMap V) (iter : IterPtr) : AllocFamily × Piece :=
  (self.family, .block (self.nodeBlock iter))

/-- The blocks of the nodes of some iters. -/
def nodeItems (self : TracedMap V) (iters : List IterPtr) : Holding :=
  (iters.map self.nodeItem : List _)

def holds (self : TracedMap V) : Holding :=
  {(self.family, .block self.self)} + {(self.family, .block self.buckets)} +
    self.nodes.holds self.map.seq + self.nodeItems self.map.seq

variable {self : TracedMap V} {iter : IterPtr} {iters : List IterPtr}

/-- Each entry of a map after a call is one that was there. -/
def Keeps (m m' : TracedMap V) : Prop :=
  ∀ iter ∈ m'.map.seq, iter ∈ m.map.seq ∧ m'.map.node iter = m.map.node iter

/-- Each entry of a map after a call is the new one or one that was there. -/
def Gains (m : TracedMap V) (val : V) (m' : TracedMap V) : Prop :=
  ∀ iter ∈ m'.map.seq, (m'.map.node iter).val = val ∨
    iter ∈ m.map.seq ∧ m'.map.node iter = m.map.node iter

theorem Same.refl (self : TracedMap V) : self.Same self := ⟨rfl, rfl, rfl⟩

theorem Same.cMalloc {r : TracedMap V} (h : self.Same r) (hc : self.CMalloc) : r.CMalloc := by
  rw [CMalloc, h.flags, h.nodes]
  exact hc

theorem Same.trans {m m' m'' : TracedMap V} (h : m.Same m') (h' : m'.Same m'') : m.Same m'' :=
  ⟨h'.block.trans h.block, h'.flags.trans h.flags, h'.nodes.trans h.nodes⟩

theorem Gains.trans {m m' m'' : TracedMap V} {val : V} (h : m.Gains val m')
    (h' : m'.Gains val m'') : m.Gains val m'' := by
  intro iter hm
  rcases h' iter hm with he | ⟨hm', he⟩
  · exact .inl he
  · rw [he]
    exact h iter hm'

theorem CMalloc.family (h : self.CMalloc) : flagsFamily self.flags = .libc := if_pos h.1

theorem nodeItems_cons (self : TracedMap V) (iter : IterPtr) (iters : List IterPtr) :
    self.nodeItems (iter :: iters) = {self.nodeItem iter} + self.nodeItems iters := rfl

theorem nodeItems_erase (self : TracedMap V) (h : iter ∈ iters) :
    self.nodeItems iters = {self.nodeItem iter} + self.nodeItems (iters.erase iter) := by
  rw [← nodeItems_cons]
  exact Multiset.coe_eq_coe.mpr ((List.perm_cons_erase h).map _)

end TracedMap

/-- What a caller of cc_map_new holds. -/
def mapHolds : Option (TracedMap V) → Holding
  | none => 0
  | some map => map.holds

namespace Traced

theorem mapNewFlags_framed (flags : Nat) (seed : UInt32) (data : IterPtr → MapNode V) :
    Framed HeapAccount 0 (mapNewFlags flags seed data) mapHolds := by
  apply Framed.bind (heapAlloc_framed _)
  intro r
  cases r with
  | none => exact .pure rfl
  | some self =>
    refine .take (F := Holding.block (flagsFamily flags) (some self)) (zero_add _).symm
      (heapAlloc_framed _) ?_
    intro r
    cases r with
    | none =>
      refine .take (F := 0) ?_ (heapFree_framed _ self) fun _ => .pure rfl
      rw [Holding.block, Holding.block, zero_add, add_zero]
    | some buckets =>
      refine .take (F := Holding.block (flagsFamily flags) (some buckets) +
        Holding.block (flagsFamily flags) (some self)) (zero_add _).symm (listNewFlags_framed _) ?_
      intro r
      cases r with
      | none =>
        refine .take (F := Holding.block (flagsFamily flags) (some self)) ?_
          (heapFree_framed _ buckets) ?_
        · rw [listHolds, zero_add, Holding.block, Holding.block]
        · intro _
          refine .take (F := 0) ?_ (heapFree_framed _ self) fun _ => .pure rfl
          rw [Holding.block, zero_add, add_zero]
      | some nodes =>
        apply Framed.pure
        show _ + _ + nodes.holds [] + 0 = nodes.holds [] + _
        rw [Holding.block, Holding.block]
        simp only [TracedMap.family]
        abel

theorem mapGrow_framed (self : TracedMap V) :
    Framed HeapAccount self.holds (mapGrow self) TracedMap.holds := by
  unfold mapGrow
  split_ifs
  · exact .pure rfl
  · refine .take (F := {(self.family, .block self.self)} + self.nodes.holds self.map.seq +
      self.nodeItems self.map.seq) ?_ (heapRealloc_framed _ self.buckets) ?_
    · rw [TracedMap.holds, TracedMap.family]
      abel
    · intro r
      cases r with
      | none =>
        apply Framed.pure
        rw [TracedMap.holds, TracedMap.family, Option.getD_none]
        abel
      | some buckets =>
        apply Framed.get
        intro s
        apply Framed.pure
        simp only [TracedMap.holds, mapGrow_seq, TracedMap.family, Option.getD_some]
        show _ + self.nodeItems self.map.seq = _
        abel

theorem mapLink_perm (self : CcMap V) (miterAt : Option IterPtr) (idx : Nat) (miter : IterPtr)
    (node : MapNode V) : (mapLink self miterAt idx miter node).seq.Perm (miter :: self.seq) := by
  have hseq : (mapLink self miterAt idx miter node).seq =
      if miterAt ≠ none then insertBefore miter miterAt self.seq else self.seq ++ [miter] := by
    by_cases hm : miterAt ≠ none
    · simp only [mapLink, if_pos hm]
      split_ifs <;> simp [CcMap.seq, CcMap.setBucket, ListSeqs.insert]
    · simp only [mapLink, if_neg hm]
      split_ifs <;> simp [CcMap.seq, CcMap.setBucket, ListSeqs.append]
  rw [hseq]
  split_ifs
  · exact insertBefore_perm miter miterAt self.seq
  · exact List.perm_append_singleton miter self.seq

/-- The iter that a list got is none of those it had. -/
theorem acquired_notMem {s : TracedHeap} {list : ListHeader} {iters : List IterPtr}
    {iter : IterPtr} {items : Holding} (h : HeapAccount s (list.holds (iter :: iters) + items)) :
    iter ∉ iters := by
  intro hm
  have hnd := (Multiset.nodup_add.mp (Multiset.nodup_add.mp h.items_nodup).1).2.1
  rw [List.map_cons, Multiset.coe_nodup, List.nodup_cons] at hnd
  exact hnd.1 (List.mem_map_of_mem hm)

theorem mapPlace_holds (self : TracedMap V) (miterAt : Option IterPtr) (idx : Nat)
    {miter : IterPtr} (node : MapNode V) (block : Nat) (nodes : ListHeader)
    (hm : miter ∉ self.map.seq) :
    (mapPlace self miterAt idx miter node block nodes).holds =
      {(self.family, .block self.self)} + {(self.family, .block self.buckets)} +
        nodes.holds (miter :: self.map.seq) +
        ({(self.family, .block block)} + self.nodeItems self.map.seq) := by
  have hp := mapLink_perm self.map miterAt idx miter node
  have hold : self.map.seq.map (mapPlace self miterAt idx miter node block nodes).nodeItem =
      self.map.seq.map self.nodeItem := by
    apply List.map_congr_left
    intro iter hi
    show (self.family, Piece.block (Function.update self.nodeBlock miter block iter)) = _
    rw [Function.update_of_ne (ne_of_mem_of_not_mem hi hm)]
    rfl
  have hnew : (mapPlace self miterAt idx miter node block nodes).nodeItem miter =
      (self.family, .block block) := by
    show (self.family, Piece.block (Function.update self.nodeBlock miter block miter)) = _
    rw [Function.update_self]
  have hitems : (mapPlace self miterAt idx miter node block nodes).nodeItems
      (mapLink self.map miterAt idx miter node).seq =
      {(self.family, .block block)} + self.nodeItems self.map.seq := by
    rw [TracedMap.nodeItems, Multiset.coe_eq_coe.mpr (hp.map _), List.map_cons, hnew, hold]
    rfl
  calc (mapPlace self miterAt idx miter node block nodes).holds
      = {(self.family, .block self.self)} + {(self.family, .block self.buckets)} +
          nodes.holds (mapLink self.map miterAt idx miter node).seq +
          (mapPlace self miterAt idx miter node block nodes).nodeItems
            (mapLink self.map miterAt idx miter node).seq := rfl
    _ = _ := by rw [hitems, nodes.holds_perm hp]

theorem mapAddNode_framed (self : TracedMap V) (miterAt : Option IterPtr) (idx : Nat)
    (node : MapNode V) (block : Nat) :
    Framed HeapAccount (self.holds + {(self.family, .block block)})
      (mapAddNode self miterAt idx node block) (fun r => r.2.holds) := by
  let rest : Holding := {(self.family, .block self.self)} + {(self.family, .block self.buckets)} +
    self.nodeItems self.map.seq + {(self.family, .block block)}
  refine .take (F := rest) ?_ (listIterAcquire_framed self.nodes self.map.seq) ?_
  · simp only [TracedMap.holds, rest]
    abel
  rintro ⟨_ | miter, nodes⟩
  · refine .take (F := ({ self with nodes := nodes } : TracedMap V).holds) ?_
      (heapFree_framed _ block) ?_
    · show nodes.holds self.map.seq + rest = _
      simp only [TracedMap.holds, rest, TracedMap.family]
      show _ = _ + (_ + self.nodeItems self.map.seq)
      abel
    · intro _
      exact .pure (zero_add _).symm
  · have hm : ∀ s R, HeapAccount s (nodes.holds (miter :: self.map.seq) + rest + R) →
        miter ∉ self.map.seq := by
      intro s R hs
      rw [add_assoc] at hs
      exact acquired_notMem hs
    refine .know hm fun hm => ?_
    refine .bind ((mapGrow_framed _).congr ?_ fun _ => rfl) fun self => .pure rfl
    rw [mapPlace_holds self miterAt idx node block nodes hm]
    show nodes.holds (miter :: self.map.seq) + rest = _
    simp only [rest]
    abel

theorem mapAddAt_framed (self : TracedMap V) (miterAt : Option IterPtr) (hash : UInt32) (idx : Nat)
    (val : V) (key : MapKey) :
    Framed HeapAccount self.holds (mapAddAt self miterAt hash idx val key)
      (fun r => r.2.holds) := by
  refine .take (F := self.holds) (zero_add _).symm (heapAlloc_framed _) ?_
  intro r
  cases r with
  | none => exact .pure (zero_add _).symm
  | some block =>
    let node : MapNode V := ⟨val, hash, key⟩
    have h := mapAddNode_framed (mapCount self (self.map.nodesSize + node.sizeof)) miterAt idx node
      block
    exact h.congr (add_comm _ _) fun _ => rfl

theorem mapAddHash_framed (self : TracedMap V) (val : V) (hash : UInt32) (key : MapKey) :
    Framed HeapAccount self.holds (mapAddHash self val hash key) (fun r => r.2.holds) := by
  simp only [mapAddHash]
  split_ifs
  · split
    · exact .pure rfl
    · exact mapAddAt_framed self _ hash _ val key
  · exact mapAddAt_framed self _ hash _ val key

theorem mapAddp_framed (hashFn : UInt32 → List UInt8 → UInt32) (mem : UInt64 → UInt8)
    (self : TracedMap V) (val : V) (len : Nat) (key : UInt64) :
    Framed HeapAccount self.holds (mapAddp hashFn mem self val len key) (fun r => r.2.holds) := by
  unfold mapAddp
  split
  · exact .pure rfl
  · exact mapAddHash_framed self val _ _

theorem mapRemove_framed (self : TracedMap V) {miter : IterPtr} (hm : miter ∈ self.map.seq) :
    Framed HeapAccount self.holds (mapRemove self miter) (fun r => r.2.2.holds) := by
  let rest : Holding := {(self.family, .block self.self)} + {(self.family, .block self.buckets)} +
    self.nodeItems self.map.seq
  refine .take (F := rest) ?_
    (listIterRelease_framed self.nodes (self.map.seq.erase miter) miter) ?_
  · rw [self.nodes.holds_perm (List.perm_cons_erase hm).symm]
    simp only [TracedMap.holds, rest]
    abel
  intro nodes
  refine .take (F := {(self.family, .block self.self)} + {(self.family, .block self.buckets)} +
    nodes.holds (self.map.seq.erase miter) + self.nodeItems (self.map.seq.erase miter)) ?_
    (heapFree_framed _ (self.nodeBlock miter)) ?_
  · simp only [rest, self.nodeItems_erase hm, TracedMap.nodeItem, TracedMap.family]
    abel
  · intro _
    apply Framed.pure
    rw [zero_add, ← mapRemove_seq]
    rfl

theorem mapDiscardLoop_framed (self : TracedMap V) (iters : List IterPtr) (nodes : ListHeader) :
    Framed HeapAccount (nodes.holds iters + self.nodeItems iters) (mapDiscardLoop self iters nodes)
      (fun nodes => nodes.holds []) := by
  induction iters generalizing nodes with
  | nil => exact .pure (add_zero _).symm
  | cons iter iters ih =>
    refine .take rfl (listIterRelease_framed nodes iters iter) ?_
    intro nodes
    refine .take (F := nodes.holds iters + self.nodeItems iters) ?_
      (heapFree_framed _ (self.nodeBlock iter)) ?_
    · rw [self.nodeItems_cons, TracedMap.nodeItem, TracedMap.family]
      abel
    · exact fun _ => (ih nodes).congr (zero_add _) fun _ => rfl

theorem mapDiscard_framed (self : TracedMap V) :
    Framed HeapAccount self.holds (mapDiscard self) TracedMap.holds := by
  refine .take (F := {(self.family, .block self.self)} + {(self.family, .block self.buckets)}) ?_
    (mapDiscardLoop_framed self self.map.seq self.nodes) ?_
  · rw [TracedMap.holds]
    abel
  · intro nodes
    apply Framed.pure
    simp only [TracedMap.holds, (mapDiscard_spec self.map).1, TracedMap.family]
    show _ + 0 = _
    abel

/-- cc_map_delete keeps the blocks of nodes that are still there. -/
theorem mapDelete_framed (self : TracedMap V) :
    Framed HeapAccount self.holds (mapDelete self) (fun _ => self.nodeItems self.map.seq) := by
  refine .take (F := {(self.family, .block self.self)} + {(self.family, .block self.buckets)} +
    self.nodeItems self.map.seq) ?_ (listDelete_framed self.map.seq self.nodes) ?_
  · rw [TracedMap.holds]
    abel
  intro _
  refine .take (F := {(self.family, .block self.self)} + self.nodeItems self.map.seq) ?_
    (heapFree_framed _ self.buckets) ?_
  · rw [TracedMap.family]
    abel
  · intro _
    refine ((heapFree_framed _ self.self).frame (self.nodeItems self.map.seq)).congr ?_ ?_
    · exact zero_add _
    · exact fun _ => zero_add _

theorem mapGrow_returns (self : TracedMap V) : Returns (mapGrow self) self.Same := by
  unfold mapGrow
  split_ifs
  · exact .pure (.refl self)
  · apply Returns.next
    intro r
    cases r with
    | none => exact .pure (.refl self)
    | some buckets => exact .next fun s => .pure ⟨rfl, rfl, rfl⟩

theorem mapAddNode_returns (self : TracedMap V) (miterAt : Option IterPtr) (idx : Nat)
    (node : MapNode V) (block : Nat) :
    Returns (mapAddNode self miterAt idx node block) (fun r => self.Same r.2) := by
  refine (listIterAcquire_returns self.nodes).bind ?_
  rintro ⟨_ | miter, nodes⟩ ⟨hf, -⟩
  · exact .next fun _ => .pure ⟨rfl, rfl, hf⟩
  · refine Returns.bind (mapGrow_returns (mapPlace self miterAt idx miter node block nodes)) ?_
    intro r hr
    exact .pure ⟨hr.block, hr.flags, hr.nodes.trans hf⟩

theorem mapAddp_returns (hashFn : UInt32 → List UInt8 → UInt32) (mem : UInt64 → UInt8)
    (self : TracedMap V) (val : V) (len : Nat) (key : UInt64) :
    Returns (mapAddp hashFn mem self val len key) (fun r => self.Same r.2) := by
  have hat : ∀ miterAt hash idx key,
      Returns (mapAddAt self miterAt hash idx val key) (fun r => self.Same r.2) := by
    intro miterAt hash idx key
    apply Returns.next
    intro r
    cases r with
    | none => exact .pure (.refl self)
    | some block =>
      let node : MapNode V := ⟨val, hash, key⟩
      intro s
      have h := mapAddNode_returns (mapCount self (self.map.nodesSize + node.sizeof)) miterAt idx
        node block s
      exact ⟨h.block, h.flags, h.nodes⟩
  unfold mapAddp
  split
  · exact .pure (.refl self)
  · simp only [mapAddHash]
    split_ifs
    · split
      · exact .pure (.refl self)
      · exact hat _ _ _ _
    · exact hat _ _ _ _

theorem mapRemove_returns (self : TracedMap V) (miter : IterPtr) :
    Returns (mapRemove self miter) (fun r => self.Same r.2.2) := by
  refine (listIterRelease_returns self.nodes miter).bind ?_
  exact fun nodes h => .next fun _ => .pure ⟨rfl, rfl, h.1⟩

theorem mapDiscardLoop_returns (self : TracedMap V) (iters : List IterPtr) (nodes : ListHeader) :
    Returns (mapDiscardLoop self iters nodes) (fun r => r.flags = nodes.flags) := by
  induction iters generalizing nodes with
  | nil => exact .pure rfl
  | cons iter iters ih =>
    refine (listIterRelease_returns nodes iter).bind ?_
    intro nodes' h
    rw [← h.1]
    exact .next fun _ => ih nodes'

theorem mapDiscard_returns (self : TracedMap V) : Returns (mapDiscard self) self.Same := by
  refine (mapDiscardLoop_returns self self.map.seq self.nodes).bind ?_
  exact fun nodes h => .pure ⟨rfl, rfl, h⟩

theorem mapNewFlags_returns (flags : Nat) (seed : UInt32) (data : IterPtr → MapNode V) :
    Returns (mapNewFlags flags seed data) (fun r => ∀ self, r = some self →
      self.flags = flags ∧ self.map = mapNew seed data ∧
        isCMalloc self.nodes.flags = isCMalloc flags) := by
  apply Returns.next
  rintro (_ | self)
  · exact .pure (by simp)
  apply Returns.next
  rintro (_ | buckets)
  · exact .next fun _ => .pure (by simp)
  refine (listNewFlags_returns _).bind ?_
  rintro (_ | nodes) h
  · exact .next fun _ => .next fun _ => .pure (by simp)
  apply Returns.pure
  rintro self ⟨⟩
  refine ⟨rfl, rfl, ?_⟩
  rw [h nodes rfl]
  split_ifs with hc
  · rw [hc]
    rfl
  · simp only [Bool.not_eq_true] at hc
    rw [hc]
    rfl

/-! What cc_map_addp makes of the entries. -/

theorem mapGrow_keeps (self : TracedMap V) : Returns (mapGrow self) (fun r =>
    r.map.seq = self.map.seq ∧ r.map.node = self.map.node) := by
  unfold mapGrow
  split_ifs
  · exact .pure ⟨rfl, rfl⟩
  · apply Returns.next
    rintro (_ | buckets)
    · exact .pure ⟨rfl, rfl⟩
    · exact .next fun s => .pure ⟨mapGrow_seq _ _, mapGrow_node _ _⟩

theorem mapLink_node (self : CcMap V) (miterAt : Option IterPtr) (idx : Nat) (miter : IterPtr)
    (node : MapNode V) :
    (mapLink self miterAt idx miter node).node = Function.update self.node miter node := by
  simp only [mapLink]
  split_ifs <;> rfl

/-- What cc_map_addp says of the entries: a new one when it succeeds, else none. -/
def Adds (self : TracedMap V) (val : V) (r : Option IterPtr × TracedMap V) : Prop :=
  self.Gains val r.2 ∧ (r.1 = none → self.Keeps r.2)

theorem adds_none (self : TracedMap V) (val : V) : Adds self val (none, self) :=
  ⟨fun _ hm => .inr ⟨hm, rfl⟩, fun _ _ hm => ⟨hm, rfl⟩⟩

theorem mapAddNode_adds (self : TracedMap V) (miterAt : Option IterPtr) (idx : Nat)
    (node : MapNode V) (block : Nat) :
    Returns (mapAddNode self miterAt idx node block) (Adds self node.val) := by
  apply Returns.next
  rintro ⟨_ | miter, nodes⟩
  · exact .next fun _ => .pure (adds_none self node.val)
  · refine Returns.bind (mapGrow_keeps (mapPlace self miterAt idx miter node block nodes)) ?_
    rintro r ⟨hseq, hnode⟩
    apply Returns.pure
    refine ⟨?_, by simp⟩
    intro iter hm
    have hmem := (mapLink_perm self.map miterAt idx miter node).mem_iff.mp (hseq ▸ hm)
    have hn : r.map.node iter = Function.update self.map.node miter node iter := by
      rw [hnode, ← mapLink_node self.map miterAt idx miter node]
      rfl
    show (r.map.node iter).val = _ ∨ _ ∧ r.map.node iter = _
    rw [hn]
    by_cases he : iter = miter
    · rw [he, Function.update_self]
      exact .inl rfl
    · rw [Function.update_of_ne he]
      exact .inr ⟨(List.mem_cons.mp hmem).resolve_left he, rfl⟩

theorem mapAddp_adds (hashFn : UInt32 → List UInt8 → UInt32) (mem : UInt64 → UInt8)
    (self : TracedMap V) (val : V) (len : Nat) (key : UInt64) :
    Returns (mapAddp hashFn mem self val len key) (Adds self val) := by
  have hat : ∀ miterAt hash idx key,
      Returns (mapAddAt self miterAt hash idx val key) (Adds self val) := by
    intro miterAt hash idx key
    apply Returns.next
    rintro (_ | block)
    · exact .pure (adds_none self val)
    · exact mapAddNode_adds (mapCount self _) miterAt idx ⟨val, hash, key⟩ block
  unfold mapAddp
  split
  · exact .pure (adds_none self val)
  · simp only [mapAddHash]
    split_ifs
    · split
      · exact .pure (adds_none self val)
      · exact hat _ _ _ _
    · exact hat _ _ _ _

theorem mapRemove_gains (self : TracedMap V) (miter : IterPtr) (val : V) :
    Returns (mapRemove self miter) (fun r => self.Gains val r.2.2) := by
  apply Returns.next
  intro nodes
  apply Returns.next
  intro _
  apply Returns.pure
  intro iter hm
  have hm : iter ∈ (LibCC.mapRemove self.map miter).2.2.seq := hm
  rw [mapRemove_seq] at hm
  exact .inr ⟨List.mem_of_mem_erase hm, congrFun (mapRemove_node self.map miter) iter⟩

/-! A map from cc_map_newCMalloc stays with libc. -/

section Libc

variable {self : TracedMap V}

theorem mapNewFlags_libc {flags : Nat} (h : isCMalloc flags = true) (seed : UInt32)
    (data : IterPtr → MapNode V) : OnlyLibc (mapNewFlags flags seed data) := by
  have hf : flagsFamily flags = .libc := if_pos h
  simp only [mapNewFlags, hf, if_pos h]
  apply (heapAlloc_logs .libc).next
  rintro (_ | self)
  · exact .pure
  apply (heapAlloc_logs .libc).next
  rintro (_ | buckets)
  · exact (heapFree_logs .libc self).next fun _ => .pure
  apply (listNewFlags_libc rfl).next
  rintro (_ | nodes)
  · exact (heapFree_logs .libc buckets).next fun _ => (heapFree_logs .libc self).next fun _ => .pure
  · exact .pure

theorem mapGrow_libc (h : self.CMalloc) : OnlyLibc (mapGrow self) := by
  unfold mapGrow
  rw [h.family]
  split_ifs
  · exact .pure
  · apply (heapRealloc_logs .libc self.buckets).next
    rintro (_ | buckets)
    · exact .pure
    · exact .get fun s => .pure

theorem mapAddNode_libc (h : self.CMalloc) (miterAt : Option IterPtr) (idx : Nat)
    (node : MapNode V) (block : Nat) : OnlyLibc (mapAddNode self miterAt idx node block) := by
  apply (listIterAcquire_libc h.2).bind (listIterAcquire_returns self.nodes)
  rintro ⟨_ | miter, nodes⟩ ⟨hf, -⟩
  · rw [mapNodeDelete, h.family]
    exact (heapFree_logs .libc block).next fun _ => .pure
  · have hp : (mapPlace self miterAt idx miter node block nodes).CMalloc :=
      ⟨h.1, (congrArg isCMalloc hf).trans h.2⟩
    exact (mapGrow_libc hp).next fun _ => .pure

theorem mapAddp_libc (h : self.CMalloc) (hashFn : UInt32 → List UInt8 → UInt32)
    (mem : UInt64 → UInt8) (val : V) (len : Nat) (key : UInt64) :
    OnlyLibc (mapAddp hashFn mem self val len key) := by
  have hat : ∀ miterAt hash idx key, OnlyLibc (mapAddAt self miterAt hash idx val key) := by
    intro miterAt hash idx key
    rw [mapAddAt, mapNodeNew, h.family]
    apply (heapAlloc_logs .libc).next
    rintro (_ | block)
    · exact .pure
    · let node : MapNode V := ⟨val, hash, key⟩
      have hm : (mapCount self (self.map.nodesSize + node.sizeof)).CMalloc := h
      exact mapAddNode_libc hm miterAt idx node block
  unfold mapAddp
  split
  · exact .pure
  · simp only [mapAddHash]
    split_ifs
    · split
      · exact .pure
      · exact hat _ _ _ _
    · exact hat _ _ _ _

theorem mapRemove_libc (h : self.CMalloc) (miter : IterPtr) : OnlyLibc (mapRemove self miter) := by
  apply (listIterRelease_libc h.2 miter).next
  intro nodes
  rw [mapNodeDelete, h.family]
  exact (heapFree_logs .libc _).next fun _ => .pure

theorem mapDiscardLoop_libc (h : self.CMalloc) (iters : List IterPtr) {nodes : ListHeader}
    (hn : isCMalloc nodes.flags = true) : OnlyLibc (mapDiscardLoop self iters nodes) := by
  induction iters generalizing nodes with
  | nil => exact .pure
  | cons iter iters ih =>
    refine (listIterRelease_libc hn iter).bind (listIterRelease_returns nodes iter) ?_
    intro nodes' hr
    rw [mapNodeDelete, h.family]
    exact (heapFree_logs .libc _).next fun _ => ih (by rw [hr.1]; exact hn)

theorem mapDiscard_libc (h : self.CMalloc) : OnlyLibc (mapDiscard self) :=
  (mapDiscardLoop_libc h self.map.seq h.2).next fun _ => .pure

theorem mapDelete_libc (h : self.CMalloc) : OnlyLibc (mapDelete self) := by
  rw [mapDelete, h.family]
  exact (listDelete_libc h.2 self.map.seq).next fun _ =>
    (heapFree_logs .libc self.buckets).next fun _ => heapFree_logs .libc self.self

end Libc

end Traced

end LibCC
