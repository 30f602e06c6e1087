import LibCC.SizeLedger

/-! cc_memory.c without MEMORY_DEBUG. Every block of the C allocator starts with a cc_memory_t,
and the counters are changed under memory_mutex, apart from the allocation itself. -/

namespace LibCC

/-- sizeof(cc_memory_t) -/
def memorySizeof : UInt64 := 8

/-- A block of the C allocator: how many bytes it has, and mem->size. -/
structure MemBlock where
  bytes : Nat
  size : UInt64
  deriving DecidableEq, Repr

/-- The counters, and the blocks of the C allocator by address. -/
structure CcMemory where
  memoryCount : UInt64
  memorySize : UInt64
  heap : UInt64 → Option MemBlock

namespace CcMemory

def new : CcMemory := ⟨0, 0, fun _ => none⟩

def setBlock (st : CcMemory) (mem : UInt64) (b : Option MemBlock) : CcMemory :=
  { st with heap := Function.update st.heap mem b }

@[simp] theorem setBlock_memoryCount (st : CcMemory) (mem : UInt64) (b : Option MemBlock) :
    (st.setBlock mem b).memoryCount = st.memoryCount := rfl

@[simp] theorem setBlock_memorySize (st : CcMemory) (mem : UInt64) (b : Option MemBlock) :
    (st.setBlock mem b).memorySize = st.memorySize := rfl

@[simp] theorem setBlock_heap (st : CcMemory) (mem : UInt64) (b : Option MemBlock) :
    (st.setBlock mem b).heap = Function.update st.heap mem b := rfl

/-- mem->size -/
def size (st : CcMemory) (mem : UInt64) : UInt64 :=
  match st.heap mem with
  | some b => b.size
  | none => 0

theorem size_eq {st : CcMemory} {mem : UInt64} {b : MemBlock} (h : st.heap mem = some b) :
    st.size mem = b.size := by
  rw [size, h]

@[simp] theorem setBlock_size (st : CcMemory) (mem : UInt64) (b : MemBlock) :
    (st.setBlock mem (some b)).size mem = b.size := by
  simp [size]

/-- What the C allocator may return for a new block; a block does not end at address 0. -/
def Fresh (st : CcMemory) (mem : UInt64) : Prop :=
  st.heap mem = none ∧ mem ≠ 0 ∧ mem + memorySizeof ≠ 0

end CcMemory

/-- malloc and mem->size = size, before the lock. The C allocator returns as many bytes as it is
asked for, at `mem`. -/
def memoryAlloc (size mem : UInt64) (st : CcMemory) : CcMemory :=
  st.setBlock mem (some ⟨(size + memorySizeof).toNat, size⟩)

/-- The section of cc_malloc and cc_calloc under memory_mutex. -/
def memoryAdd (mem : UInt64) (st : CcMemory) : CcMemory :=
  { st with
    memoryCount := st.memoryCount + 1
    memorySize := st.memorySize + st.size mem }

/-- realloc and mem2->size = size, before the lock. -/
def memoryRealloc (mem1 size mem2 : UInt64) (st : CcMemory) : CcMemory :=
  (st.setBlock mem1 none).setBlock mem2 (some ⟨(size + memorySizeof).toNat, size⟩)

/-- The section of cc_realloc under memory_mutex. -/
def memoryResize (mem2 size1 : UInt64) (st : CcMemory) : CcMemory :=
  { st with memorySize := st.memorySize + (st.size mem2 - size1) }

/-- The section of cc_free under memory_mutex. -/
def memorySub (mem : UInt64) (st : CcMemory) : CcMemory :=
  { st with
    memoryCount := st.memoryCount - 1
    memorySize := st.memorySize - st.size mem }

/-- free(mem), after the lock. -/
def memoryFree (mem : UInt64) (st : CcMemory) : CcMemory := st.setBlock mem none

/-- cc_malloc: the pointer and the state. `mem` is what malloc returns. -/
def ccMalloc (size : UInt64) (mem : Option UInt64) (st : CcMemory) : UInt64 × CcMemory :=
  match mem with
  | none => (0, st)
  | some mem => (mem + memorySizeof, memoryAdd mem (memoryAlloc size mem st))

def ccCalloc (count size : UInt64) (mem : Option UInt64) (st : CcMemory) : UInt64 × CcMemory :=
  match mem with
  | none => (0, st)
  | some mem => (mem + memorySizeof, memoryAdd mem (memoryAlloc (count * size) mem st))

def ccRealloc (ptr size : UInt64) (mem : Option UInt64) (st : CcMemory) : UInt64 × CcMemory :=
  if ptr = 0 then ccMalloc size mem st
  else
    let mem1 := ptr - memorySizeof
    let size1 := st.size mem1
    match mem with
    | none => (0, st)
    | some mem2 => (mem2 + memorySizeof, memoryResize mem2 size1 (memoryRealloc mem1 size mem2 st))

def ccMemcount (st : CcMemory) : UInt64 := st.memoryCount

def ccMemsize (st : CcMemory) : UInt64 := st.memorySize

def ccMemsizeptr (ptr : UInt64) (st : CcMemory) : UInt64 :=
  if ptr = 0 then 0 else st.size (ptr - memorySizeof)

@[simp] theorem memoryAlloc_heap (size mem : UInt64) (st : CcMemory) :
    (memoryAlloc size mem st).heap =
      Function.update st.heap mem (some ⟨(size + memorySizeof).toNat, size⟩) := rfl

@[simp] theorem memoryAdd_heap (mem : UInt64) (st : CcMemory) :
    (memoryAdd mem st).heap = st.heap := rfl

@[simp] theorem memoryRealloc_heap (mem1 size mem2 : UInt64) (st : CcMemory) :
    (memoryRealloc mem1 size mem2 st).heap = Function.update (Function.update st.heap mem1 none)
      mem2 (some ⟨(size + memorySizeof).toNat, size⟩) := rfl

@[simp] theorem memoryResize_heap (mem2 size1 : UInt64) (st : CcMemory) :
    (memoryResize mem2 size1 st).heap = st.heap := rfl

@[simp] theorem memorySub_heap (mem : UInt64) (st : CcMemory) :
    (memorySub mem st).heap = st.heap := rfl

@[simp] theorem memoryFree_heap (mem : UInt64) (st : CcMemory) :
    (memoryFree mem st).heap = Function.update st.heap mem none := rfl

/-! Whether a block is as large as what was asked for. -/

/-- The block at `ptr` has `wanted` bytes after its header, the header says so, and `wanted` is
what memory_size has grown by, apart from the size `old` that it had before. -/
def Sized (wanted : Nat) (old ptr : UInt64) (st st' : CcMemory) : Prop :=
  ∃ b, st'.heap (ptr - memorySizeof) = some b ∧ wanted + memorySizeof.toNat ≤ b.bytes ∧
    b.size.toNat = wanted ∧ st'.memorySize = st.memorySize + (b.size - old)

def MallocSized (size : UInt64) : Prop :=
  ∀ mem st, (ccMalloc size mem st).1 ≠ 0 →
    Sized size.toNat 0 (ccMalloc size mem st).1 st (ccMalloc size mem st).2

def CallocSized (count size : UInt64) : Prop :=
  ∀ mem st, (ccCalloc count size mem st).1 ≠ 0 →
    Sized (count.toNat * size.toNat) 0 (ccCalloc count size mem st).1 st
      (ccCalloc count size mem st).2

def ReallocSized (ptr size : UInt64) : Prop :=
  ∀ mem st, (ccRealloc ptr size mem st).1 ≠ 0 →
    Sized size.toNat (ccMemsizeptr ptr st) (ccRealloc ptr size mem st).1 st
      (ccRealloc ptr size mem st).2

theorem add_memorySizeof_toNat (size : UInt64) :
    (size + memorySizeof).toNat = (size.toNat + 8) % 2 ^ 64 := UInt64.toNat_add size 8

/-- A new block has room for what its header says unless adding the header wraps. -/
theorem room_iff {n : Nat} {size : UInt64} :
    (n + memorySizeof.toNat ≤ (size + memorySizeof).toNat ∧ size.toNat = n) ↔
      size.toNat = n ∧ n + 8 < 2 ^ 64 := by
  have hlt := size.toNat_lt
  have h8 : memorySizeof.toNat = 8 := rfl
  rw [add_memorySizeof_toNat]
  omega

theorem sized_alloc_iff {wanted : Nat} {size mem : UInt64} {st : CcMemory} :
    Sized wanted 0 (mem + memorySizeof) st (memoryAdd mem (memoryAlloc size mem st)) ↔
      size.toNat = wanted ∧ wanted + 8 < 2 ^ 64 := by
  rw [← room_iff]
  simp [Sized, memoryAdd, memoryAlloc]

theorem sized_realloc_iff {wanted : Nat} {size mem1 mem2 old : UInt64} {st : CcMemory} :
    Sized wanted old (mem2 + memorySizeof) st
        (memoryResize mem2 old (memoryRealloc mem1 size mem2 st)) ↔
      size.toNat = wanted ∧ wanted + 8 < 2 ^ 64 := by
  rw [← room_iff]
  simp [Sized, memoryResize, memoryRealloc]

theorem mallocSized_iff (size : UInt64) : MallocSized size ↔ size.toNat + 8 < 2 ^ 64 := by
  constructor
  · intro h
    have := sized_alloc_iff.mp (h (some 16) CcMemory.new (by simp [ccMalloc, memorySizeof]))
    exact this.2
  · intro h mem st hp
    cases mem with
    | none => exact absurd rfl hp
    | some mem => exact sized_alloc_iff.mpr ⟨rfl, h⟩

theorem callocSized_iff (count size : UInt64) :
    CallocSized count size ↔ count.toNat * size.toNat + 8 < 2 ^ 64 := by
  constructor
  · intro h
    have := sized_alloc_iff.mp (h (some 16) CcMemory.new (by simp [ccCalloc, memorySizeof]))
    exact this.2
  · intro h mem st hp
    have hmul : (count * size).toNat = count.toNat * size.toNat := by
      rw [UInt64.toNat_mul, Nat.mod_eq_of_lt (by omega)]
    cases mem with
    | none => exact absurd rfl hp
    | some mem => exact sized_alloc_iff.mpr ⟨hmul, h⟩

theorem reallocSized_iff (ptr size : UInt64) :
    ReallocSized ptr size ↔ size.toNat + 8 < 2 ^ 64 := by
  by_cases hptr : ptr = 0
  · rw [← mallocSized_iff]
    simp [ReallocSized, MallocSized, ccRealloc, ccMemsizeptr, hptr]
  · constructor
    · intro h
      have hs := h (some 16) CcMemory.new (by simp [ccRealloc, hptr, memorySizeof])
      simp only [ccRealloc, ccMemsizeptr, if_neg hptr] at hs
      exact (sized_realloc_iff.mp hs).2
    · intro h mem st hp
      cases mem with
      | none => simp [ccRealloc, hptr] at hp
      | some mem =>
        simp only [ccRealloc, ccMemsizeptr, if_neg hptr]
        exact sized_realloc_iff.mpr ⟨rfl, h⟩

/-- The blocks are as large as asked for exactly when the size with its header is a size_t. -/
theorem memory_sized (ptr count size : UInt64) :
    (MallocSized size ↔ size.toNat + 8 < 2 ^ 64) ∧
    (CallocSized count size ↔ count.toNat * size.toNat + 8 < 2 ^ 64) ∧
    (ReallocSized ptr size ↔ size.toNat + 8 < 2 ^ 64) :=
  ⟨mallocSized_iff size, callocSized_iff count size, reallocSized_iff ptr size⟩

/-- 2^32 elements of 2^32 bytes are a block of no bytes, and 2^64 - 8 bytes leave no header. -/
theorem memory_sized_wraps :
    ¬ CallocSized 4294967296 4294967296 ∧ ¬ MallocSized 18446744073709551608 ∧
      ¬ ReallocSized 0 18446744073709551608 := by
  refine ⟨?_, ?_, ?_⟩
  · rw [callocSized_iff]
    decide
  · rw [mallocSized_iff]
    decide
  · rw [reallocSized_iff]
    decide

end LibCC
