import LibCC.MemoryAccount
import LibCC.MemoryTracker

/-! The threads that call cc_malloc_debug, cc_calloc_debug, cc_realloc_debug and cc_free_debug.
Between the steps of the cc_memory call inside, a call tells the tracker, under memory_mutex. -/

namespace LibCC

/-- The steps of the calls: `track` is cc_memory_add, `realloc` and `free` start with
cc_memory_rem, and the rest are steps of cc_malloc, cc_calloc, cc_realloc and cc_free. -/
inductive DebugMove
  | malloc (site : CallSite) (size : UInt64) (mem : Option UInt64)
  | calloc (site : CallSite) (count size : UInt64) (mem : Option UInt64)
  | added
  | track
  | realloc (site : CallSite) (ptr size : UInt64)
  | reallocated (mem : Option UInt64)
  | resized
  | free (ptr : UInt64)
  | released
  | freed
  deriving DecidableEq

/-- Where a thread stands between the steps of a call. At `adding` cc_memory_add is next. -/
inductive DebugPc
  | idle
  | mallocing (name : List Char) (mem size : UInt64)
  | adding (name : List Char) (ptr size : UInt64)
  | reallocating (name : List Char) (ptr size : UInt64)
  | resizing (name : List Char) (mem size : UInt64)
  | releasing (ptr : UInt64)
  | freeing
  deriving DecidableEq

/-- The live pointer that a call has taken away from the tracker, or not yet given to it. -/
def DebugPc.untracked : DebugPc → Option UInt64
  | adding _ ptr _ | reallocating _ ptr _ | releasing ptr => if ptr = 0 then none else some ptr
  | resizing _ mem _ => some (mem + memorySizeof)
  | idle | mallocing _ _ _ | freeing => none

structure DebugSys (τ : Type) where
  base : MemorySys τ
  pc : τ → DebugPc
  meminfo : Meminfo

variable {τ : Type} [DecidableEq τ]

namespace DebugSys

omit [DecidableEq τ] in
def new : DebugSys τ := ⟨MemorySys.new, fun _ => .idle, meminfoNew⟩

def goto (s : DebugSys τ) (t : τ) (pc : DebugPc) : DebugSys τ :=
  { s with pc := Function.update s.pc t pc }

/-- A step of the cc_memory call that the thread is in. -/
def call (s : DebugSys τ) (t : τ) (move : MemoryMove) (pc : DebugPc) : DebugSys τ :=
  { s with
    base := s.base.step t move
    pc := Function.update s.pc t pc }

/-- A step that tells the tracker. -/
def tell (s : DebugSys τ) (t : τ) (meminfo : Meminfo) (pc : DebugPc) : DebugSys τ :=
  { s with
    meminfo := meminfo
    pc := Function.update s.pc t pc }

def step (s : DebugSys τ) (t : τ) : DebugMove → DebugSys τ
  | .malloc site size mem =>
    match mem with
    -- cc_memory_add ignores NULL
    | none => s
    | some m => s.call t (.malloc size mem) (.mallocing (atorName site) m size)
  | .calloc site count size mem =>
    match mem with
    | none => s
    | some m => s.call t (.calloc count size mem) (.mallocing (atorName site) m (count * size))
  | .added =>
    match s.pc t with
    | .mallocing name mem size => s.call t .add (.adding name (mem + memorySizeof) size)
    | _ => s
  | .track =>
    match s.pc t with
    | .adding name ptr size => s.tell t (ccMemoryAdd name ptr size s.meminfo) .idle
    | _ => s
  | .realloc site ptr size =>
    s.tell t (ccMemoryRem ptr s.meminfo) (.reallocating (atorName site) ptr size)
  | .reallocated mem =>
    match s.pc t with
    | .reallocating name ptr size =>
      match mem with
      -- cc_memory_add(func, line, ptr, size) is next, with the size that failed
      | none => s.goto t (.adding name ptr size)
      | some m => s.call t (.realloc ptr size mem)
          (if ptr = 0 then .mallocing name m size else .resizing name m size)
    | _ => s
  | .resized =>
    match s.pc t with
    | .resizing name mem size => s.call t .resize (.adding name (mem + memorySizeof) size)
    | _ => s
  | .free ptr => s.tell t (ccMemoryRem ptr s.meminfo) (.releasing ptr)
  | .released =>
    match s.pc t with
    | .releasing ptr => s.call t (.release ptr) (if ptr = 0 then .idle else .freeing)
    | _ => s
  | .freed =>
    match s.pc t with
    | .freeing => s.call t .free .idle
    | _ => s

omit [DecidableEq τ] in
/-- A live pointer that no call works on. -/
def Usable (s : DebugSys τ) (ptr : UInt64) : Prop :=
  ptr - memorySizeof ∈ s.base.live.blocks ∧ ∀ t, (s.pc t).untracked ≠ some ptr

omit [DecidableEq τ] in
/-- What the callers and the C allocator keep to. -/
def Legal (s : DebugSys τ) (t : τ) : DebugMove → Prop
  | .malloc _ size mem =>
    s.pc t = .idle ∧ size.toNat + 8 < 2 ^ 64 ∧ ∀ m, mem = some m → s.base.memory.Fresh m
  | .calloc _ count size mem =>
    s.pc t = .idle ∧ count.toNat * size.toNat + 8 < 2 ^ 64 ∧
      ∀ m, mem = some m → s.base.memory.Fresh m
  | .realloc _ ptr size =>
    s.pc t = .idle ∧ size.toNat + 8 < 2 ^ 64 ∧ (ptr ≠ 0 → s.Usable ptr)
  | .reallocated mem =>
    ∀ name ptr size, s.pc t = .reallocating name ptr size → ∀ m, mem = some m →
      s.base.memory.Fresh m ∨ (ptr ≠ 0 ∧ m = ptr - memorySizeof)
  | .free ptr => s.pc t = .idle ∧ (ptr ≠ 0 → s.Usable ptr)
  | .added | .track | .resized | .released | .freed => True

omit [DecidableEq τ] in
/-- A reallocation that fails did not ask for another size. -/
def KeepsSize (s : DebugSys τ) (t : τ) : DebugMove → Prop
  | .reallocated none => ∀ name ptr size, s.pc t = .reallocating name ptr size → ptr ≠ 0 →
    size.toNat = s.base.live.size (ptr - memorySizeof)
  | _ => True

omit [DecidableEq τ] in
def Quiet (s : DebugSys τ) : Prop := ∀ t, s.pc t = .idle

end DebugSys

/-- The states that the threads can reach by steps that meet `ok`, while all live sizes fit a
size_t. -/
inductive DebugReach (ok : DebugSys τ → τ → DebugMove → Prop) : DebugSys τ → Prop
  | new : DebugReach ok DebugSys.new
  | step {s : DebugSys τ} (t : τ) (move : DebugMove) :
      DebugReach ok s → s.Legal t move → ok s t move →
      (s.step t move).base.live.total < 2 ^ 64 → DebugReach ok (s.step t move)

end LibCC
