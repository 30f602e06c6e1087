import LibCC.FamilyLedger
import LibCC.FramedProgram
import LibCC.ListModel

/-! The memory that cc_map and cc_list come by, with a record of every call:
the C allocator, cc_memory on top of it, and the pool of iters on top of
cc_memory. The chains of iters are sequences here. -/

namespace LibCC

open AllocEvent FramedProgram

/-- Plain libc, cc_malloc and its siblings, or cc_listPool_get and cc_listPool_put. -/
inductive AllocFamily
  | libc | memory | pool
  deriving DecidableEq, Repr

/-- A block is named by the call that returned it. -/
inductive Piece
  | block (id : Nat)
  | iter (iter : IterPtr)
  deriving DecidableEq, Repr

abbrev HeapEvent := AllocEvent AllocFamily Piece
abbrev Holding := Multiset (AllocFamily × Piece)

/-- cc_listPool_t -/
structure IterPool where
  refcount : Int
  count : Nat
  iters : List IterPtr
  blocks : List Nat

/-- `grants` tells which calls of calloc, malloc and realloc succeed, and
`stale` what a block holds that realloc has returned. -/
structure TracedHeap where
  grants : Nat → Bool
  stale : Nat → Nat → Option IterPtr
  requests : Nat
  pool : IterPool
  trace : List HeapEvent

abbrev TracedM := StateM TracedHeap

namespace TracedHeap

def new (grants : Nat → Bool) (stale : Nat → Nat → Option IterPtr) : TracedHeap :=
  ⟨grants, stale, 0, ⟨0, 0, [], []⟩, []⟩

def record (s : TracedHeap) (e : HeapEvent) : TracedHeap := { s with trace := e :: s.trace }

def setPool (s : TracedHeap) (f : IterPool → IterPool) : TracedHeap := { s with pool := f s.pool }

@[simp] theorem record_trace (s : TracedHeap) (e : HeapEvent) :
    (s.record e).trace = e :: s.trace := rfl

@[simp] theorem record_pool (s : TracedHeap) (e : HeapEvent) : (s.record e).pool = s.pool := rfl

@[simp] theorem record_requests (s : TracedHeap) (e : HeapEvent) :
    (s.record e).requests = s.requests := rfl

@[simp] theorem setPool_trace (s : TracedHeap) (f : IterPool → IterPool) :
    (s.setPool f).trace = s.trace := rfl

@[simp] theorem setPool_pool (s : TracedHeap) (f : IterPool → IterPool) :
    (s.setPool f).pool = f s.pool := rfl

@[simp] theorem setPool_requests (s : TracedHeap) (f : IterPool → IterPool) :
    (s.setPool f).requests = s.requests := rfl

end TracedHeap

namespace Traced

/-- calloc, malloc, CALLOC or MALLOC -/
def heapAlloc (family : AllocFamily) : TracedM (Option Nat) := fun s =>
  let result := if s.grants s.requests then some s.requests else none
  (result, { s with requests := s.requests + 1 }.record (.alloc family (result.map .block)))

/-- realloc or REALLOC. A block that could not be resized stays. -/
def heapRealloc (family : AllocFamily) (old : Nat) : TracedM (Option Nat) := fun s =>
  let result := if s.grants s.requests then some s.requests else none
  (result, { s with requests := s.requests + 1 }.record
    (.resize family (.block old) (result.map .block)))

/-- free or FREE -/
def heapFree (family : AllocFamily) (block : Nat) : TracedM Unit := fun s =>
  ((), s.record (.release family (.block block)))

/-- The `for` loop of cc_listPool_get over the iters of a new block. -/
def poolFill (block : Nat) : List IterPtr :=
  ((List.range listBlockSize).map fun i => ⟨block, i⟩).reverse

/-- The part of cc_listPool_get that creates a new block, unless CALLOC fails. -/
def poolAddBlock : TracedM Bool := do
  match ← heapAlloc .memory with
  | none => return false
  | some block => do
    modify fun s => s.setPool fun pool =>
      { pool with
        blocks := block :: pool.blocks
        iters := poolFill block ++ pool.iters
        count := pool.count + listBlockSize }
    return true

def poolTakeIter : TracedM (Option IterPtr) := fun s =>
  match s.pool.iters with
  | [] => (none, s)
  | iter :: iters =>
    (some iter, (s.setPool ({ · with iters := iters })).record (.alloc .pool (some (.iter iter))))

/-- The `for` loop of cc_listPool_get that takes a set of free iters, which the pool has. -/
def poolTake : Nat → TracedM (List IterPtr)
  | 0 => pure []
  | n + 1 => do
    match ← poolTakeIter with
    | none => return []
    | some iter => do
      let iters ← poolTake n
      return iter :: iters

def poolGetSet : TracedM (List IterPtr) := do
  let iters ← poolTake listSetSize
  modify fun s => s.setPool fun pool =>
    { pool with count := pool.count - listSetSize, refcount := pool.refcount + listSetSize }
  return iters

/-- cc_listPool_get: a set of iters, or none. -/
def poolGet : TracedM (List IterPtr) := do
  let s ← get
  if s.pool.count < listSetSize then
    if ← poolAddBlock then poolGetSet else return []
  else poolGetSet

def poolReturnIter (iter : IterPtr) : TracedM Unit := fun s =>
  ((), (s.setPool fun pool => { pool with iters := iter :: pool.iters }).record
    (.release .pool (.iter iter)))

/-- The iters go in front of the free ones, in their order. -/
def poolReturn : List IterPtr → TracedM Unit
  | [] => pure ()
  | iter :: iters => do
    poolReturn iters
    poolReturnIter iter

/-- One turn of the `while` loop of cc_listPool_put: the first block of the pool is freed. -/
def poolFreeBlock (block : Nat) (blocks : List Nat) : TracedM Unit := fun s =>
  ((), (s.setPool ({ · with blocks := blocks })).record (.release .memory (.block block)))

def poolFreeBlocks : List Nat → TracedM Unit
  | [] => pure ()
  | block :: blocks => do
    poolFreeBlock block blocks
    poolFreeBlocks blocks

/-- What cc_listPool_put does when no iter of the pool is in use. -/
def poolClear : TracedM Unit := do
  modify fun s => s.setPool ({ · with iters := [], count := 0 })
  let s ← get
  poolFreeBlocks s.pool.blocks

/-- cc_listPool_put -/
def poolPut (iters : List IterPtr) : TracedM Unit :=
  if iters = [] then pure ()
  else do
    poolReturn iters
    modify fun s => s.setPool fun pool =>
      { pool with
        count := pool.count + iters.length
        refcount := pool.refcount - iters.length }
    let s ← get
    if s.pool.refcount = 0 then poolClear else pure ()

end Traced

end LibCC
