import LibCC.MemoryModel

/-! The threads that call cc_malloc, cc_calloc, cc_realloc and cc_free. A call has two steps that
other threads can see: what it asks of the C allocator, and its section under memory_mutex. -/

namespace LibCC

/-- The steps of the calls, with what the C allocator returns in them. `add`, `resize` and `free`
are the second steps of cc_malloc and cc_calloc, of cc_realloc, and of cc_free. -/
inductive MemoryMove
  | malloc (size : UInt64) (mem : Option UInt64)
  | calloc (count size : UInt64) (mem : Option UInt64)
  | realloc (ptr size : UInt64) (mem : Option UInt64)
  | release (ptr : UInt64)
  | add
  | resize
  | free
  deriving DecidableEq

/-- Where a thread stands between the steps of a call. -/
inductive MemoryPc
  | idle
  | allocated (mem : UInt64) (size : Nat)
  | resized (mem size1 : UInt64) (size : Nat)
  | released (mem : UInt64)
  deriving DecidableEq

/-- The block that a call in progress works on. -/
def MemoryPc.block : MemoryPc → Option UInt64
  | idle => none
  | allocated mem _ | resized mem _ _ | released mem => some mem

/-- `live` is what the callers have: a block from the return of the call that made it to the call
that frees it, with the size that was last requested for it. A block that is resized has its old
size, at its new place, until cc_realloc returns. -/
structure MemorySys (τ : Type) where
  memory : CcMemory
  pc : τ → MemoryPc
  live : SizeLedger UInt64

variable {τ : Type} [DecidableEq τ]

namespace MemorySys

omit [DecidableEq τ] in
def new : MemorySys τ := ⟨CcMemory.new, fun _ => .idle, SizeLedger.empty⟩

/-- cc_malloc, and cc_calloc with `size` for its product, up to the lock. -/
def allocate (s : MemorySys τ) (t : τ) (size : UInt64) (requested : Nat) (mem : Option UInt64) :
    MemorySys τ :=
  match mem with
  | none => s
  | some mem =>
    { s with
      memory := memoryAlloc size mem s.memory
      pc := Function.update s.pc t (.allocated mem requested) }

def step (s : MemorySys τ) (t : τ) : MemoryMove → MemorySys τ
  | .malloc size mem => s.allocate t size size.toNat mem
  | .calloc count size mem => s.allocate t (count * size) (count.toNat * size.toNat) mem
  | .realloc ptr size mem =>
    if ptr = 0 then s.allocate t size size.toNat mem
    else
      let mem1 := ptr - memorySizeof
      let size1 := s.memory.size mem1
      match mem with
      | none => s
      | some mem2 =>
        { memory := memoryRealloc mem1 size mem2 s.memory
          pc := Function.update s.pc t (.resized mem2 size1 size.toNat)
          live := s.live.move mem1 mem2 }
  | .release ptr =>
    if ptr = 0 then s
    else
      let mem := ptr - memorySizeof
      { memory := memorySub mem s.memory
        pc := Function.update s.pc t (.released mem)
        live := s.live.leave mem }
  | .add =>
    match s.pc t with
    | .allocated mem size =>
      { memory := memoryAdd mem s.memory
        pc := Function.update s.pc t .idle
        live := s.live.enter mem size }
    | _ => s
  | .resize =>
    match s.pc t with
    | .resized mem2 size1 size =>
      { memory := memoryResize mem2 size1 s.memory
        pc := Function.update s.pc t .idle
        live := s.live.enter mem2 size }
    | _ => s
  | .free =>
    match s.pc t with
    | .released mem =>
      { s with
        memory := memoryFree mem s.memory
        pc := Function.update s.pc t .idle }
    | _ => s

omit [DecidableEq τ] in
/-- A live block that no call works on. -/
def Usable (s : MemorySys τ) (mem : UInt64) : Prop :=
  mem ∈ s.live.blocks ∧ ∀ t, (s.pc t).block ≠ some mem

omit [DecidableEq τ] in
/-- What the callers and the C allocator keep to in the first step of a call. -/
def Legal (s : MemorySys τ) (t : τ) : MemoryMove → Prop
  | .malloc size mem =>
    s.pc t = .idle ∧ size.toNat + 8 < 2 ^ 64 ∧ ∀ m, mem = some m → s.memory.Fresh m
  | .calloc count size mem =>
    s.pc t = .idle ∧ count.toNat * size.toNat + 8 < 2 ^ 64 ∧ ∀ m, mem = some m → s.memory.Fresh m
  | .realloc ptr size mem =>
    s.pc t = .idle ∧ size.toNat + 8 < 2 ^ 64 ∧ (ptr ≠ 0 → s.Usable (ptr - memorySizeof)) ∧
      ∀ m, mem = some m → s.memory.Fresh m ∨ (ptr ≠ 0 ∧ m = ptr - memorySizeof)
  | .release ptr => s.pc t = .idle ∧ (ptr ≠ 0 → s.Usable (ptr - memorySizeof))
  | .add | .resize | .free => True

omit [DecidableEq τ] in
def Quiet (s : MemorySys τ) : Prop := ∀ t, s.pc t = .idle

/-- A call that ends with NULL in its first step, because the C allocator gave none. -/
def ReturnsNull : MemoryMove → Prop
  | .malloc _ mem | .calloc _ _ mem | .realloc _ _ mem => mem = none
  | _ => False

end MemorySys

/-- The states that the threads can reach while all live sizes fit a size_t. -/
inductive MemoryReach : MemorySys τ → Prop
  | new : MemoryReach MemorySys.new
  | step {s : MemorySys τ} (t : τ) (move : MemoryMove) :
      MemoryReach s → s.Legal t move → (s.step t move).live.total < 2 ^ 64 →
      MemoryReach (s.step t move)

end LibCC
