import Mathlib

/-! The doubly linked lists of cc_list.c: iter cells, list headers and the
global iter pool. The heap of cells is one map for each field of
cc_listIter_t, and NULL is `none`. -/

namespace LibCC

/-- The address of a cc_listIter_t: an allocated block and an index into
its array. A cell that calloc returned by itself has index 0. -/
structure IterPtr where
  block : Nat
  index : Nat
  deriving DecidableEq, Repr

structure CcList where
  flags : Nat
  size : Int
  head : Option IterPtr
  tail : Option IterPtr
  iters : Option IterPtr
  deriving DecidableEq, Repr

structure ListPool where
  refcount : Int
  count : Nat
  iters : Option IterPtr
  blocks : List Nat
  deriving DecidableEq, Repr

/-- The memory that the list functions read and write. `lists` holds the
headers, `callocs` the live blocks that hold a single cell. -/
structure ListStore (ι α : Type) where
  next : IterPtr → Option IterPtr
  prev : IterPtr → Option IterPtr
  data : IterPtr → Option α
  lists : ι → CcList
  pool : ListPool
  callocs : List Nat

def listFlagCMalloc : Nat := 1
def listBlockSize : Nat := 1024
def listSetSize : Nat := 32

def CcList.cMalloc (list : CcList) : Bool := list.flags &&& listFlagCMalloc != 0

variable {ι α : Type}

namespace ListStore

def setNext (st : ListStore ι α) (iter : IterPtr) (v : Option IterPtr) : ListStore ι α :=
  { st with next := Function.update st.next iter v }

def setPrev (st : ListStore ι α) (iter : IterPtr) (v : Option IterPtr) : ListStore ι α :=
  { st with prev := Function.update st.prev iter v }

def setData (st : ListStore ι α) (iter : IterPtr) (v : Option α) : ListStore ι α :=
  { st with data := Function.update st.data iter v }

/-- if(iter) { iter->next = v; } -/
def setNext? (st : ListStore ι α) : Option IterPtr → Option IterPtr → ListStore ι α
  | none, _ => st
  | some iter, v => st.setNext iter v

/-- if(iter) { iter->prev = v; } -/
def setPrev? (st : ListStore ι α) : Option IterPtr → Option IterPtr → ListStore ι α
  | none, _ => st
  | some iter, v => st.setPrev iter v

/-- CALLOC clears the whole block. -/
def clearBlock (st : ListStore ι α) (block : Nat) : ListStore ι α :=
  { st with
    next := fun p => if p.block = block then none else st.next p
    prev := fun p => if p.block = block then none else st.prev p
    data := fun p => if p.block = block then none else st.data p }

variable [DecidableEq ι]

def setList (st : ListStore ι α) (list : ι) (f : CcList → CcList) : ListStore ι α :=
  { st with lists := Function.update st.lists list (f (st.lists list)) }

end ListStore

/-- The `for` loop that puts the cells `array[0..n)` of a new block in front
of the pool's free iters. -/
def listPoolFill (block : Nat) : Nat → ListStore ι α → ListStore ι α
  | 0, st => st
  | i + 1, st =>
    let st := listPoolFill block i st
    let iter : IterPtr := ⟨block, i⟩
    let st := st.setNext iter st.pool.iters
    { st with pool := { st.pool with iters := some iter } }

/-- The `for` loop that unhooks `n` free iters; the first component is `tail`. -/
def listPoolTake : Nat → Option IterPtr → ListStore ι α → Option IterPtr × ListStore ι α
  | 0, tail, st => (tail, st)
  | n + 1, _, st =>
    listPoolTake n st.pool.iters
      { st with pool := { st.pool with iters := st.pool.iters.bind st.next } }

/-- cc_listPool_get after CALLOC returned a new block. -/
def listPoolAddBlock (block : Nat) (st : ListStore ι α) : ListStore ι α :=
  let st := st.clearBlock block
  let st := { st with pool := { st.pool with blocks := block :: st.pool.blocks } }
  let st := listPoolFill block listBlockSize st
  { st with pool := { st.pool with count := st.pool.count + listBlockSize } }

/-- cc_listPool_get on a pool with enough free iters for a set. -/
def listPoolGetSet (st : ListStore ι α) : Option IterPtr × ListStore ι α :=
  let iters := st.pool.iters
  let taken := listPoolTake listSetSize none st
  let st := taken.2.setNext? taken.1 none
  (iters, { st with pool := { st.pool with
    count := st.pool.count - listSetSize
    refcount := st.pool.refcount + listSetSize } })

/-- cc_listPool_get. `alloc` is the block that CALLOC returns if it is called. -/
def listPoolGet (alloc : Option Nat) (st : ListStore ι α) : Option IterPtr × ListStore ι α :=
  if st.pool.count < listSetSize then
    match alloc with
    | none => (none, st)
    | some block => listPoolGetSet (listPoolAddBlock block st)
  else
    listPoolGetSet st

section

variable [DecidableEq ι]

def listIterAdd (self : IterPtr) (list : ι) (prev next : Option IterPtr)
    (st : ListStore ι α) : ListStore ι α :=
  let st := st.setNext self next
  let st := st.setPrev self prev
  let st := st.setPrev? next (some self)
  let st := st.setNext? prev (some self)
  let st := if prev = none then st.setList list ({ · with head := some self }) else st
  let st := if next = none then st.setList list ({ · with tail := some self }) else st
  st.setList list (fun l => { l with size := l.size + 1 })

def listIterRemove (self : IterPtr) (list : ι) (st : ListStore ι α) : ListStore ι α :=
  let st := st.setNext? (st.prev self) (st.next self)
  let st := st.setPrev? (st.next self) (st.prev self)
  let st := if (st.lists list).head = some self then
    st.setList list ({ · with head := st.next self }) else st
  let st := if (st.lists list).tail = some self then
    st.setList list ({ · with tail := st.prev self }) else st
  let st := st.setList list (fun l => { l with size := l.size - 1 })
  let st := st.setNext self none
  st.setPrev self none

def listIterMove (self : IterPtr) (list : ι) (prev next : Option IterPtr)
    (st : ListStore ι α) : ListStore ι α :=
  let st := st.setNext? (st.prev self) (st.next self)
  let st := st.setPrev? (st.next self) (st.prev self)
  let st := if (st.lists list).head = some self then
      st.setList list ({ · with head := st.next self })
    else if (st.lists list).tail = some self then
      st.setList list ({ · with tail := st.prev self })
    else st
  let st := st.setPrev self prev
  let st := st.setNext self next
  let st := st.setPrev? next (some self)
  let st := st.setNext? prev (some self)
  if prev = none then st.setList list ({ · with head := some self })
  else if next = none then st.setList list ({ · with tail := some self })
  else st

/-- The `while` loop of cc_listIter_new that adds the rest of a set to the
list of free iters, for at most `n` iters. -/
def listIterStash (list : ι) : Nat → Option IterPtr → ListStore ι α → ListStore ι α
  | _, none, st => st
  | 0, some _, st => st
  | n + 1, some iter, st =>
    let next := st.next iter
    let st := st.setNext iter (st.lists list).iters
    let st := st.setList list ({ · with iters := some iter })
    listIterStash list n next st

/-- The three ways of cc_listIter_new to come by a cell. A pool set has
`listSetSize` iters, which bounds the loop over its rest. -/
def listIterAlloc (list : ι) (alloc : Option Nat) (st : ListStore ι α) :
    Option IterPtr × ListStore ι α :=
  if (st.lists list).cMalloc then
    match alloc with
    | none => (none, st)
    | some block =>
      let st := st.clearBlock block
      (some ⟨block, 0⟩, { st with callocs := block :: st.callocs })
  else
    match (st.lists list).iters with
    | some self => (some self, st.setList list ({ · with iters := st.next self }))
    | none =>
      match listPoolGet alloc st with
      | (none, st) => (none, st)
      | (some self, st) => (some self, listIterStash list listSetSize (st.next self) st)

def listIterNew (list : ι) (prev next : Option IterPtr) (data : α) (alloc : Option Nat)
    (st : ListStore ι α) : Option IterPtr × ListStore ι α :=
  match listIterAlloc list alloc st with
  | (none, st) => (none, st)
  | (some self, st) =>
    let st := listIterAdd self list prev next st
    (some self, st.setData self (some data))

/-- cc_listIter_delete on a non-NULL iter: the data, what `*_iter` becomes,
and the store. -/
def listIterDelete (self : IterPtr) (list : ι) (st : ListStore ι α) :
    Option α × Option IterPtr × ListStore ι α :=
  let next := st.next self
  let data := st.data self
  let st := st.setData self none
  let st := listIterRemove self list st
  let st := if (st.lists list).cMalloc then
      { st with callocs := st.callocs.erase self.block }
    else
      let st := st.setNext self (st.lists list).iters
      st.setList list ({ · with iters := some self })
  (data, next, st)

def listInsert (self : ι) (iter : Option IterPtr) (data : α) (alloc : Option Nat)
    (st : ListStore ι α) : Option IterPtr × ListStore ι α :=
  match iter with
  | some p => listIterNew self (st.prev p) (some p) data alloc st
  | none => listIterNew self none (st.lists self).head data alloc st

def listAppend (self : ι) (iter : Option IterPtr) (data : α) (alloc : Option Nat)
    (st : ListStore ι α) : Option IterPtr × ListStore ι α :=
  match iter with
  | some p => listIterNew self (some p) (st.next p) data alloc st
  | none => listIterNew self (st.lists self).tail none data alloc st

/-- The `while` loop of cc_list_insertSorted, for at most `n` iters: where it inserts. The data
of a linked iter is not NULL. -/
def listInsertSortedLoop (compare : α → α → Int) (data : α) : Nat → Option IterPtr →
    ListStore ι α → Option IterPtr
  | _, none, _ => none
  | 0, some _, _ => none
  | n + 1, some iter, st =>
    if (st.data iter).any (fun d => compare data d < 0) then some iter
    else listInsertSortedLoop compare data n (st.next iter) st

def listInsertSorted (self : ι) (compare : α → α → Int) (data : α) (alloc : Option Nat)
    (st : ListStore ι α) : Option IterPtr × ListStore ι α :=
  match listInsertSortedLoop compare data (st.lists self).size.toNat (st.lists self).head st with
  | some iter => listInsert self (some iter) data alloc st
  | none => listAppend self none data alloc st

/-- The `while` loop of cc_list_find, for at most `n` iters. -/
def listFindLoop (compare : α → α → Int) (data : α) : Nat → Option IterPtr →
    ListStore ι α → Option IterPtr
  | _, none, _ => none
  | 0, some _, _ => none
  | n + 1, some iter, st =>
    if (st.data iter).any (fun d => compare d data = 0) then some iter
    else listFindLoop compare data n (st.next iter) st

def listFind (self : ι) (data : α) (compare : α → α → Int) (st : ListStore ι α) :
    Option IterPtr :=
  listFindLoop compare data (st.lists self).size.toNat (st.lists self).head st

/-- The `while` loop of cc_list_findSorted, for at most `n` iters. -/
def listFindSortedLoop (compare : α → α → Int) (data : α) : Nat → Option IterPtr →
    ListStore ι α → Option IterPtr
  | _, none, _ => none
  | 0, some _, _ => none
  | n + 1, some iter, st =>
    if (st.data iter).any (fun d => compare data d = 0) then some iter
    else if (st.data iter).any (fun d => compare data d < 0) then none
    else listFindSortedLoop compare data n (st.next iter) st

def listFindSorted (self : ι) (data : α) (compare : α → α → Int) (st : ListStore ι α) :
    Option IterPtr :=
  listFindSortedLoop compare data (st.lists self).size.toNat (st.lists self).head st

def listReplace (iter : IterPtr) (data : α) (st : ListStore ι α) : Option α × ListStore ι α :=
  (st.data iter, st.setData iter (some data))

def listRemove (self : ι) (iter : IterPtr) (st : ListStore ι α) :
    Option α × Option IterPtr × ListStore ι α :=
  listIterDelete iter self st

/-- The `while` loop of cc_list_discard, for at most `n` iters. -/
def listDiscardLoop (self : ι) : Nat → Option IterPtr → ListStore ι α → ListStore ι α
  | _, none, st => st
  | 0, some _, st => st
  | n + 1, some iter, st =>
    let removed := listRemove self iter st
    listDiscardLoop self n removed.2.1 removed.2.2

def listDiscard (self : ι) (st : ListStore ι α) : ListStore ι α :=
  listDiscardLoop self (st.lists self).size.toNat (st.lists self).head st

/-- cc_list_move; a NULL `dst` is the head, which exists since `from` is a
member. -/
def listMove (self : ι) (src : IterPtr) (dst : Option IterPtr) (st : ListStore ι α) :
    ListStore ι α :=
  match dst.or (st.lists self).head with
  | none => st
  | some dst =>
    let prev := st.prev dst
    if src = dst ∨ some src = prev then st
    else listIterMove src self prev (some dst) st

def listMoven (self : ι) (src : IterPtr) (dst : Option IterPtr) (st : ListStore ι α) :
    ListStore ι α :=
  match dst.or (st.lists self).tail with
  | none => st
  | some dst =>
    let next := st.next dst
    if src = dst ∨ some src = next then st
    else listIterMove src self (some dst) next st

def listSwap (fromList toList : ι) (src : IterPtr) (dst : Option IterPtr)
    (st : ListStore ι α) : ListStore ι α :=
  if fromList = toList then listMove fromList src dst st
  else
    let st := listIterRemove src fromList st
    match dst with
    | none => listIterAdd src toList none (st.lists toList).head st
    | some dst => listIterAdd src toList (st.prev dst) (some dst) st

def listSwapn (fromList toList : ι) (src : IterPtr) (dst : Option IterPtr)
    (st : ListStore ι α) : ListStore ι α :=
  if fromList = toList then listMoven fromList src dst st
  else
    let st := listIterRemove src fromList st
    match dst with
    | none => listIterAdd src toList (st.lists toList).tail none st
    | some dst => listIterAdd src toList (some dst) (st.next dst) st

/-- The header of `from` once its iters have been handed over. -/
def CcList.emptied (list : CcList) : CcList :=
  { list with head := none, tail := none, size := 0 }

def listAppendList (self src : ι) (st : ListStore ι α) : ListStore ι α :=
  let f := st.lists src
  if f.size = 0 then st
  else if (st.lists self).size = 0 then
    let st := st.setList self ({ · with head := f.head, tail := f.tail, size := f.size })
    st.setList src CcList.emptied
  else
    let st := st.setNext? (st.lists self).tail f.head
    let st := st.setPrev? f.head (st.lists self).tail
    let st := st.setList self (fun l => { l with tail := f.tail, size := l.size + f.size })
    st.setList src CcList.emptied

def listInsertList (self src : ι) (st : ListStore ι α) : ListStore ι α :=
  let f := st.lists src
  if f.size = 0 then st
  else if (st.lists self).size = 0 then
    let st := st.setList self ({ · with head := f.head, tail := f.tail, size := f.size })
    st.setList src CcList.emptied
  else
    let st := st.setPrev? (st.lists self).head f.tail
    let st := st.setNext? f.tail (st.lists self).head
    let st := st.setList self (fun l => { l with head := f.head, size := l.size + f.size })
    st.setList src CcList.emptied

end

/-- The `while` loop of cc_listPool_put that counts the iters after `tail` and finds the last
one, for at most `n` iters. -/
def listPoolCount : Nat → Nat → IterPtr → ListStore ι α → Nat × IterPtr
  | 0, count, tail, _ => (count, tail)
  | n + 1, count, tail, st =>
    match st.next tail with
    | none => (count, tail)
    | some next => listPoolCount n (count + 1) next st

/-- The part of cc_listPool_put under the mutex. Its loop frees every block. -/
def listPoolPutSet (iters tail : IterPtr) (count : Nat) (st : ListStore ι α) : ListStore ι α :=
  let st := st.setNext tail st.pool.iters
  let st := { st with pool := { st.pool with
    iters := some iters
    count := st.pool.count + count
    refcount := st.pool.refcount - count } }
  if st.pool.refcount = 0 then
    { st with pool := { st.pool with iters := none, count := 0, blocks := [] } }
  else st

/-- The cells of a chain come from the pool's blocks, which bounds the loop. -/
def listPoolPut (iters : Option IterPtr) (st : ListStore ι α) : ListStore ι α :=
  match iters with
  | none => st
  | some iters =>
    let counted := listPoolCount (listBlockSize * st.pool.blocks.length) 1 iters st
    listPoolPutSet iters counted.2 counted.1 st

/-- The header that cc_list_newFlags returns. -/
def CcList.new (flags : Nat) : CcList := ⟨flags, 0, none, none, none⟩

section

variable [DecidableEq ι]

def listNewFlags (flags : Nat) (self : ι) (st : ListStore ι α) : ListStore ι α :=
  st.setList self (fun _ => CcList.new flags)

/-- FREE(self). A header that is not allocated reads as a cleared one. -/
def listFree (self : ι) (st : ListStore ι α) : ListStore ι α :=
  st.setList self (fun l => CcList.new l.flags)

/-- cc_list_delete up to the release of the private chain. -/
def listDeleteIters (self : ι) (st : ListStore ι α) : ListStore ι α :=
  if 0 < (st.lists self).size then listDiscard self st else st

def listDelete (self : ι) (st : ListStore ι α) : ListStore ι α :=
  let st := listDeleteIters self st
  if (st.lists self).cMalloc then listFree self st
  else listFree self (listPoolPut (st.lists self).iters st)

end

/-- Lists fresh from cc_list_new or cc_list_newCMalloc, before the pool has
allocated anything. -/
def ListStore.new (flags : Nat) : ListStore ι α where
  next _ := none
  prev _ := none
  data _ := none
  lists _ := ⟨flags, 0, none, none, none⟩
  pool := ⟨0, 0, none, []⟩
  callocs := []

end LibCC
