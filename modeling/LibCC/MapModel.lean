import LibCC.ListSequences
import LibCC.MapNodeOrder

/-! The hash map of cc_map.c. Its nodes are in one cc_list, here the
sequence that cc_list refines, and its buckets point into that list. -/

namespace LibCC

open SequenceFamily

def mapCapacity : Nat := 16

/-- (uint64_t) UINT_MAX + 1 -/
def uintRange : Nat := 2 ^ 32

def mapNodeHeader : Nat := 16

/-- cc_map_t without the flag that selects the allocator. -/
structure CcMap (V : Type) where
  seed : UInt32
  capacity : Nat
  elements : Nat
  buckets : Nat → Option IterPtr
  nodesSize : Nat
  nodes : ListSeqs Unit (MapNode V)

/-- What the allocator does for one cc_map_addp: the CALLOC of the node, the
iter that cc_list finds for it, and the REALLOC of the buckets with the
contents of the new half. -/
structure MapAlloc where
  node : Bool
  iter : Option IterPtr
  realloc : Option (Nat → Option IterPtr)

variable {V : Type}

def MapNode.sizeof (self : MapNode V) : Nat := mapNodeHeader + self.key.len

namespace CcMap

/-- CC_MAP_IDX -/
def idx (self : CcMap V) (hash : UInt32) : Nat := hash.toNat / self.elements

def seq (self : CcMap V) : List IterPtr := self.nodes.seq ()

def node (self : CcMap V) (iter : IterPtr) : MapNode V := self.nodes.data iter

def setBucket (self : CcMap V) (i : Nat) (iter : Option IterPtr) : CcMap V :=
  { self with buckets := Function.update self.buckets i iter }

@[simp] theorem setBucket_buckets (self : CcMap V) (i : Nat) (iter : Option IterPtr) :
    (self.setBucket i iter).buckets = Function.update self.buckets i iter := rfl

@[simp] theorem setBucket_seq (self : CcMap V) (i : Nat) (iter : Option IterPtr) :
    (self.setBucket i iter).seq = self.seq := rfl

@[simp] theorem setBucket_node (self : CcMap V) (i : Nat) (iter : Option IterPtr) :
    (self.setBucket i iter).node = self.node := rfl

@[simp] theorem setBucket_idx (self : CcMap V) (i : Nat) (iter : Option IterPtr) :
    (self.setBucket i iter).idx = self.idx := rfl

@[simp] theorem setBucket_capacity (self : CcMap V) (i : Nat) (iter : Option IterPtr) :
    (self.setBucket i iter).capacity = self.capacity := rfl

@[simp] theorem setBucket_elements (self : CcMap V) (i : Nat) (iter : Option IterPtr) :
    (self.setBucket i iter).elements = self.elements := rfl

@[simp] theorem setBucket_nodesSize (self : CcMap V) (i : Nat) (iter : Option IterPtr) :
    (self.setBucket i iter).nodesSize = self.nodesSize := rfl

@[simp] theorem setBucket_seed (self : CcMap V) (i : Nat) (iter : Option IterPtr) :
    (self.setBucket i iter).seed = self.seed := rfl

end CcMap

/-- The bytes that cc_map_findp and cc_map_addp look up: `len` bytes at
`key`, or those of the pointer itself. Copying an unaligned key keeps them. -/
def mapKeyBytes (mem : UInt64 → UInt8) (len : Nat) (key : UInt64) : Option MapKey :=
  if h : len > mapKeyLen then none
  else if h0 : len = 0 then
    some ⟨(List.range 8).map fun i => UInt8.ofNat (key.toNat / 256 ^ i), by simp,
      by simp [mapKeyLen]⟩
  else
    some ⟨(List.range len).map fun i => mem (key + UInt64.ofNat i), by simp; omega, by simp; omega⟩

theorem mapKeyBytes_some (mem : UInt64 → UInt8) {len : Nat} (h : len ≤ mapKeyLen) (key : UInt64) :
    ∃ k, mapKeyBytes mem len key = some k := by
  have hn : ¬ len > mapKeyLen := by omega
  unfold mapKeyBytes
  rw [dif_neg hn]
  split
  · exact ⟨_, rfl⟩
  · exact ⟨_, rfl⟩

def mapNew (seed : UInt32) (data : IterPtr → MapNode V) : CcMap V where
  seed := seed
  capacity := mapCapacity
  elements := uintRange / mapCapacity
  buckets _ := none
  nodesSize := 0
  nodes := ListSeqs.empty data

/-- The `while` loop of cc_map_grow over the iters from bucket[k] on. -/
def mapGrowScan (self : CcMap V) (j : Nat) : List IterPtr → Option IterPtr
  | [] => none
  | iter :: next =>
    let idx := self.idx (self.node iter).hash
    if idx = j then some iter
    else if idx > j then none
    else mapGrowScan self j next

/-- One turn of the `for` loop of cc_map_grow. -/
def mapGrowStep (self : CcMap V) (k : Nat) : CcMap V :=
  let iter := self.buckets k
  let i := 2 * k
  let j := i + 1
  let self := (self.setBucket i none).setBucket j none
  match iter with
  | none => self
  | some iter =>
    let self :=
      if self.idx (self.node iter).hash = i then self.setBucket i (some iter) else self
    match mapGrowScan self j (suffixFrom (some iter) self.seq) with
    | some iter => self.setBucket j (some iter)
    | none => self

def mapGrowLoop : Nat → CcMap V → CcMap V
  | 0, self => self
  | k + 1, self => mapGrowLoop k (mapGrowStep self k)

def mapGrow (realloc : Option (Nat → Option IterPtr)) (self : CcMap V) : CcMap V :=
  if self.seq.length ≤ self.capacity then self
  else
    match realloc with
    | none => self
    | some fresh =>
      let capacity1 := self.capacity
      let capacity2 := 2 * self.capacity
      mapGrowLoop capacity1
        { self with
          capacity := capacity2
          elements := uintRange / capacity2
          buckets := fun i => if i < capacity1 then self.buckets i else fresh i }

def mapAddAt (self : CcMap V) (miterAt : Option IterPtr) (hash : UInt32) (idx : Nat) (val : V)
    (key : MapKey) (alloc : MapAlloc) : Option IterPtr × CcMap V :=
  if alloc.node then
    let node : MapNode V := ⟨val, hash, key⟩
    let self := { self with nodesSize := self.nodesSize + node.sizeof }
    let replace := self.buckets idx = none ∨ (miterAt ≠ none ∧ self.buckets idx = miterAt)
    match alloc.iter with
    | none => (none, { self with nodesSize := self.nodesSize - node.sizeof })
    | some miter =>
      let self := { self with nodes :=
        if miterAt ≠ none then self.nodes.insert () miterAt miter node
        else self.nodes.append () none miter node }
      let self := if replace then self.setBucket idx (some miter) else self
      (some miter, mapGrow alloc.realloc self)
  else (none, self)

def mapFindLoop (self : CcMap V) (hash : UInt32) (idx : Nat) (key : MapKey) :
    List IterPtr → Option IterPtr
  | [] => none
  | miter :: next =>
    let node := self.node miter
    if self.idx node.hash ≠ idx then none
    else
      let cmp := mapNodeCmp node hash key
      if cmp = 0 then some miter
      else if cmp > 0 then none
      else mapFindLoop self hash idx key next

/-- The `while` loop of cc_map_addp over a bucket: `none` when the key is
there, else where the new node goes. -/
def mapAddScan (self : CcMap V) (hash : UInt32) (idx : Nat) (key : MapKey) :
    List IterPtr → Option (Option IterPtr)
  | [] => some none
  | miter :: next =>
    let node := self.node miter
    if self.idx node.hash ≠ idx then some (some miter)
    else
      let cmp := mapNodeCmp node hash key
      if cmp = 0 then none
      else if cmp > 0 then some (some miter)
      else mapAddScan self hash idx key next

/-- The `for` loop of cc_map_addp over the `n` buckets from `i` on. -/
def mapAddNext (self : CcMap V) : Nat → Nat → Option IterPtr
  | 0, _ => none
  | n + 1, i =>
    match self.buckets i with
    | some miter => some miter
    | none => mapAddNext self n (i + 1)

def mapFindHash (self : CcMap V) (hash : UInt32) (key : MapKey) : Option IterPtr :=
  let idx := self.idx hash
  mapFindLoop self hash idx key (suffixFrom (self.buckets idx) self.seq)

def mapAddHash (self : CcMap V) (val : V) (hash : UInt32) (key : MapKey) (alloc : MapAlloc) :
    Option IterPtr × CcMap V :=
  let idx := self.idx hash
  if self.buckets idx ≠ none then
    match mapAddScan self hash idx key (suffixFrom (self.buckets idx) self.seq) with
    | none => (none, self)
    | some miter => mapAddAt self miter hash idx val key alloc
  else
    mapAddAt self (mapAddNext self (self.capacity - (idx + 1)) (idx + 1)) hash idx val key alloc

def mapFindp (hashFn : UInt32 → List UInt8 → UInt32) (mem : UInt64 → UInt8) (self : CcMap V)
    (len : Nat) (key : UInt64) : Option IterPtr :=
  match mapKeyBytes mem len key with
  | none => none
  | some key => mapFindHash self (hashFn self.seed key.bytes) key

def mapAddp (hashFn : UInt32 → List UInt8 → UInt32) (mem : UInt64 → UInt8) (self : CcMap V)
    (val : V) (len : Nat) (key : UInt64) (alloc : MapAlloc) : Option IterPtr × CcMap V :=
  match mapKeyBytes mem len key with
  | none => (none, self)
  | some key => mapAddHash self val (hashFn self.seed key.bytes) key alloc

/-- cc_map_remove: the value, what `*_miter` becomes, and the map. -/
def mapRemove (self : CcMap V) (miter : IterPtr) : V × Option IterPtr × CcMap V :=
  let node := self.node miter
  let val := node.val
  let idx := self.idx node.hash
  let next := (after miter self.seq).head?
  let self :=
    if self.buckets idx = some miter then
      self.setBucket idx (next.filter fun tmp => self.idx (self.node tmp).hash = idx)
    else self
  (val, next, { self with
    nodes := self.nodes.remove () miter
    nodesSize := self.nodesSize - node.sizeof })

/-- The `while` loop of cc_map_discard, for at most `n` nodes. -/
def mapDiscardLoop : Nat → CcMap V → CcMap V
  | 0, self => self
  | n + 1, self =>
    match self.seq.head? with
    | none => self
    | some iter => mapDiscardLoop n { self with
        nodes := self.nodes.remove () iter
        nodesSize := self.nodesSize - (self.node iter).sizeof }

def mapDiscard (self : CcMap V) : CcMap V :=
  mapDiscardLoop self.seq.length
    { self with buckets := fun i => if i < self.capacity then none else self.buckets i }

def mapSize (self : CcMap V) : Int := self.seq.length

end LibCC
