import LibCC.CString
import LibCC.TracedFamilies

/-! The tracker of cc_memory.c with MEMORY_DEBUG over traced maps, when any of
its allocations may fail. Its functions run under memory_mutex. -/

namespace LibCC

open AllocEvent FramedProgram SequenceFamily

/-- cc_pinfo_t, which does not change once it is in a map; `self` is its block. -/
structure TracedPinfo where
  self : Nat
  atorRef : Nat
  ptr : UInt64
  size : UInt64

/-- cc_ator_t without its name, which only cc_meminfo_meminfo reads. -/
structure TracedAtor where
  mapPinfoRef : TracedMap Nat
  size : UInt64

/-- cc_meminfo_t with the allocator entries that are allocated, each under its block. -/
structure Tracker where
  self : Nat
  mapAtor : TracedMap Nat
  mapPinfo : TracedMap TracedPinfo
  ators : Nat → Option TracedAtor

/-- memory_meminfo after a call, unless the call has used an allocator entry that is not
allocated. -/
inductive TrackerResult
  | done (memoryMeminfo : Option Tracker)
  | dangling

/-- What a call of the tracker finds in memory: the hash function, the bytes at the addresses, the
address of `name` on the stack, what random returns, and the iters that calloc has not cleared. -/
structure TrackerEnv where
  hashFn : UInt32 → List UInt8 → UInt32
  mem : UInt64 → UInt8
  name : UInt64
  seed : UInt32
  atorNode : IterPtr → MapNode Nat
  pinfoNode : IterPtr → MapNode TracedPinfo

namespace Traced

def mapNewCMalloc {V : Type} (seed : UInt32) (node : IterPtr → MapNode V) :
    TracedM (Option (TracedMap V)) := mapNewFlags listFlagCMalloc seed node

variable (env : TrackerEnv)

/-- cc_ator_new; the block comes first. -/
def atorNew : TracedM (Option (Nat × TracedAtor)) := do
  match ← heapAlloc .libc with
  | none => return none
  | some self =>
    match ← mapNewCMalloc env.seed env.atorNode with
    | none => do
      heapFree .libc self
      return none
    | some map => return some (self, ⟨map, 0⟩)

def atorDelete (self : Nat) (ator : TracedAtor) : TracedM Unit := do
  let map ← mapDiscard ator.mapPinfoRef
  mapDelete map
  heapFree .libc self

def atorAdd (self : TracedAtor) (pinfoRef : TracedPinfo) : TracedM (Bool × TracedAtor) := do
  match ← mapAddp env.hashFn env.mem self.mapPinfoRef pinfoRef.self 0 pinfoRef.ptr with
  | (none, map) => return (false, { self with mapPinfoRef := map })
  | (some _, map) => return (true, ⟨map, self.size + pinfoRef.size⟩)

def atorRem (self : TracedAtor) (pinfoRef : TracedPinfo) : TracedM TracedAtor :=
  match mapFindp env.hashFn env.mem self.mapPinfoRef.map 0 pinfoRef.ptr with
  | none => pure self
  | some miter => do
    let r ← mapRemove self.mapPinfoRef miter
    return ⟨r.2.2, self.size - pinfoRef.size⟩

def meminfoInit (memoryMeminfo : Option Tracker) : TracedM (Option Tracker) :=
  match memoryMeminfo with
  | some self => pure (some self)
  | none => do
    match ← heapAlloc .libc with
    | none => return none
    | some self =>
      match ← mapNewCMalloc env.seed env.atorNode with
      | none => do
        heapFree .libc self
        return none
      | some mapAtor =>
        match ← mapNewCMalloc env.seed env.pinfoNode with
        | none => do
          mapDelete mapAtor
          heapFree .libc self
          return none
        | some mapPinfo => return some ⟨self, mapAtor, mapPinfo, fun _ => none⟩

/-- cc_meminfo_add from where it has the allocator entry. -/
def meminfoAddPinfo (self : Tracker) (atorRef : Nat) (ptr size : UInt64) :
    TracedM TrackerResult := do
  match ← heapAlloc .libc with
  | none => return .done (some self)
  | some block =>
    let pinfo : TracedPinfo := ⟨block, atorRef, ptr, size⟩
    match ← mapAddp env.hashFn env.mem self.mapPinfo pinfo 0 ptr with
    | (none, mapPinfo) => do
      heapFree .libc block
      return .done (some { self with mapPinfo := mapPinfo })
    | (some miter, mapPinfo) =>
      match self.ators atorRef with
      | none => return .dangling
      | some ator => do
        let r ← atorAdd env ator pinfo
        let ators := Function.update self.ators atorRef (some r.2)
        if r.1 then return .done (some { self with mapPinfo := mapPinfo, ators := ators })
        else do
          let removed ← mapRemove mapPinfo miter
          heapFree .libc block
          return .done (some { self with mapPinfo := removed.2.2, ators := ators })

def meminfoAdd (self : Tracker) (ptr size : UInt64) : TracedM TrackerResult := do
  let len := strlen env.mem env.name + 1
  match mapFindp env.hashFn env.mem self.mapAtor.map len env.name with
  | some miter => meminfoAddPinfo env self (self.mapAtor.map.node miter).val ptr size
  | none =>
    match ← atorNew env with
    | none => return .done (some self)
    | some (block, ator) =>
      match ← mapAddp env.hashFn env.mem self.mapAtor block len env.name with
      | (none, mapAtor) => do
        atorDelete block ator
        return .done (some { self with mapAtor := mapAtor })
      | (some _, mapAtor) =>
        meminfoAddPinfo env { self with
          mapAtor := mapAtor
          ators := Function.update self.ators block (some ator) } block ptr size

def meminfoRem (self : Tracker) (ptr : UInt64) : TracedM TrackerResult :=
  match mapFindp env.hashFn env.mem self.mapPinfo.map 0 ptr with
  | none => pure (.done (some self))
  | some miter =>
    let pinfo := (self.mapPinfo.map.node miter).val
    match self.ators pinfo.atorRef with
    | none => pure .dangling
    | some ator => do
      let ator ← atorRem env ator pinfo
      let removed ← mapRemove self.mapPinfo miter
      heapFree .libc pinfo.self
      return .done (some { self with
        mapPinfo := removed.2.2
        ators := Function.update self.ators pinfo.atorRef (some ator) })

def meminfoMemcheckptr (self : Tracker) (ptr : UInt64) : TracedM Bool :=
  return (mapFindp env.hashFn env.mem self.mapPinfo.map 0 ptr).isSome

end Traced

/-- The calls of cc_memory_add, cc_memory_rem, cc_memory_memcheckptr and cc_memory_meminfo with a
pointer that is not NULL, which the others ignore. -/
inductive TrackerCall
  | add (ptr size : UInt64)
  | rem (ptr : UInt64)
  | memcheckptr (ptr : UInt64)
  | meminfo

/-- What a call does while it holds memory_mutex. -/
def TrackerCall.exec (env : TrackerEnv) (memoryMeminfo : Option Tracker) (call : TrackerCall) :
    TracedM TrackerResult := do
  match ← Traced.meminfoInit env memoryMeminfo with
  | none => return .done none
  | some self =>
    match call with
    | .add ptr size => Traced.meminfoAdd env self ptr size
    | .rem ptr => Traced.meminfoRem env self ptr
    | .memcheckptr ptr => do
      let _ ← Traced.meminfoMemcheckptr env self ptr
      return .done (some self)
    | .meminfo => return .done (some self)

/-- What memory_meminfo can become. Between two calls the heap may change in any way. -/
inductive TrackerReach : Option Tracker → Prop
  | init : TrackerReach none
  | call {memoryMeminfo memoryMeminfo' : Option Tracker} (env : TrackerEnv) (call : TrackerCall)
      (s : TracedHeap) : TrackerReach memoryMeminfo →
      ((call.exec env memoryMeminfo).run s).1 = .done memoryMeminfo' → TrackerReach memoryMeminfo'

/-- Every map of the tracker uses calloc and free, and every pointer to an allocator entry is to one
that is allocated. -/
structure TrackerInv (t : Tracker) : Prop where
  mapAtor : t.mapAtor.CMalloc
  mapPinfo : t.mapPinfo.CMalloc
  ators : ∀ p ator, t.ators p = some ator → ator.mapPinfoRef.CMalloc
  allocated : ∀ iter ∈ t.mapAtor.map.seq, t.ators (t.mapAtor.map.node iter).val ≠ none
  referred : ∀ iter ∈ t.mapPinfo.map.seq, t.ators (t.mapPinfo.map.node iter).val.atorRef ≠ none

def TrackerResult.Good : TrackerResult → Prop
  | done none => True
  | done (some t) => TrackerInv t
  | dangling => False

/-- The tracker after a change of map_pinfo, where the allocator entries stay allocated. -/
theorem TrackerInv.pinfos {self : Tracker} (h : TrackerInv self)
    {mapPinfo : TracedMap TracedPinfo}
    {pinfo : TracedPinfo} {ators : Nat → Option TracedAtor} (hs : self.mapPinfo.Same mapPinfo)
    (hg : self.mapPinfo.Gains pinfo mapPinfo) (hold : self.ators pinfo.atorRef ≠ none)
    (hc : ∀ p a, ators p = some a → a.mapPinfoRef.CMalloc)
    (hkeep : ∀ p, self.ators p ≠ none → ators p ≠ none) :
    TrackerInv { self with mapPinfo := mapPinfo, ators := ators } where
  mapAtor := h.mapAtor
  mapPinfo := hs.cMalloc h.mapPinfo
  ators := hc
  allocated iter hm := hkeep _ (h.allocated iter hm)
  referred iter hm := by
    show ators (mapPinfo.map.node iter).val.atorRef ≠ none
    rcases hg iter hm with he | ⟨hm, he⟩
    · rw [he]
      exact hkeep _ hold
    · rw [he]
      exact hkeep _ (h.referred iter hm)

/-- The tracker after a change of map_ator, where the allocator entries stay allocated. -/
theorem TrackerInv.mapAtors {self : Tracker} (h : TrackerInv self) {mapAtor : TracedMap Nat}
    {ators : Nat → Option TracedAtor} (hs : self.mapAtor.Same mapAtor)
    (hvals : ∀ iter ∈ mapAtor.map.seq, ators (mapAtor.map.node iter).val ≠ none)
    (hc : ∀ p a, ators p = some a → a.mapPinfoRef.CMalloc)
    (hkeep : ∀ p, self.ators p ≠ none → ators p ≠ none) :
    TrackerInv { self with mapAtor := mapAtor, ators := ators } where
  mapAtor := hs.cMalloc h.mapAtor
  mapPinfo := h.mapPinfo
  ators := hc
  allocated := hvals
  referred iter hm := hkeep _ (h.referred iter hm)

namespace Traced

variable {V : Type} (env : TrackerEnv)

theorem atorNew_libc : OnlyLibc (atorNew env) := by
  apply (heapAlloc_logs .libc).next
  rintro (_ | self)
  · exact .pure
  apply (mapNewFlags_libc rfl env.seed env.atorNode).next
  rintro (_ | map)
  · exact (heapFree_logs .libc self).next fun _ => .pure
  · exact .pure

theorem mapNewCMalloc_returns (seed : UInt32) (node : IterPtr → MapNode V) :
    Returns (mapNewCMalloc seed node)
      (fun r => ∀ map, r = some map → map.CMalloc ∧ map.map.seq = []) := by
  intro s map hr
  obtain ⟨hf, hmap, hn⟩ := mapNewFlags_returns listFlagCMalloc seed node s map hr
  refine ⟨⟨?_, hn⟩, ?_⟩
  · rw [hf]
    rfl
  · rw [hmap]
    rfl

theorem atorNew_returns :
    Returns (atorNew env) (fun r => ∀ p, r = some p → p.2.mapPinfoRef.CMalloc) := by
  apply Returns.next
  rintro (_ | self)
  · exact .pure (by simp)
  refine (mapNewCMalloc_returns env.seed env.atorNode).bind ?_
  rintro (_ | map) hr
  · exact .next fun _ => .pure (by simp)
  · apply Returns.pure
    rintro p ⟨⟩
    exact (hr map rfl).1

variable {self : Tracker} {ator : TracedAtor}

theorem atorDelete_libc (h : ator.mapPinfoRef.CMalloc) (block : Nat) :
    OnlyLibc (atorDelete block ator) := by
  apply (mapDiscard_libc h).bind (mapDiscard_returns ator.mapPinfoRef)
  intro map hs
  exact (mapDelete_libc (hs.cMalloc h)).next fun _ => heapFree_logs .libc block

theorem atorAdd_libc (h : ator.mapPinfoRef.CMalloc) (pinfo : TracedPinfo) :
    OnlyLibc (atorAdd env ator pinfo) := by
  apply (mapAddp_libc h env.hashFn env.mem pinfo.self 0 pinfo.ptr).next
  rintro ⟨_ | miter, map⟩
  · exact .pure
  · exact .pure

theorem atorAdd_returns (h : ator.mapPinfoRef.CMalloc) (pinfo : TracedPinfo) :
    Returns (atorAdd env ator pinfo) (fun r => r.2.mapPinfoRef.CMalloc) := by
  refine (mapAddp_returns env.hashFn env.mem ator.mapPinfoRef pinfo.self 0 pinfo.ptr).bind ?_
  rintro ⟨_ | miter, map⟩ hs
  · exact .pure (hs.cMalloc h)
  · exact .pure (hs.cMalloc h)

theorem atorRem_libc (h : ator.mapPinfoRef.CMalloc) (pinfo : TracedPinfo) :
    OnlyLibc (atorRem env ator pinfo) := by
  unfold atorRem
  split
  · exact .pure
  · exact (mapRemove_libc h _).next fun _ => .pure

theorem atorRem_returns (h : ator.mapPinfoRef.CMalloc) (pinfo : TracedPinfo) :
    Returns (atorRem env ator pinfo) (fun r => r.mapPinfoRef.CMalloc) := by
  unfold atorRem
  split
  · exact .pure h
  · exact (mapRemove_returns ator.mapPinfoRef _).bind fun r hs => .pure (hs.cMalloc h)

theorem update_ators (h : TrackerInv self) (atorRef : Nat) (hc : ator.mapPinfoRef.CMalloc) :
    (∀ p a, Function.update self.ators atorRef (some ator) p = some a → a.mapPinfoRef.CMalloc) ∧
      ∀ p, self.ators p ≠ none → Function.update self.ators atorRef (some ator) p ≠ none := by
  constructor
  · intro p a hp
    by_cases he : p = atorRef
    · rw [he, Function.update_self, Option.some.injEq] at hp
      rw [← hp]
      exact hc
    · rw [Function.update_of_ne he] at hp
      exact h.ators p a hp
  · intro p hp
    by_cases he : p = atorRef
    · simp [he]
    · rwa [Function.update_of_ne he]

theorem meminfoAddPinfo_libc (h : TrackerInv self) (atorRef : Nat) (ptr size : UInt64) :
    OnlyLibc (meminfoAddPinfo env self atorRef ptr size) := by
  apply (heapAlloc_logs .libc).next
  rintro (_ | block)
  · exact .pure
  let pinfo : TracedPinfo := ⟨block, atorRef, ptr, size⟩
  apply (mapAddp_libc h.mapPinfo env.hashFn env.mem pinfo 0 ptr).bind (mapAddp_returns _ _ _ _ _ _)
  rintro ⟨_ | miter, mapPinfo⟩ hs
  · exact (heapFree_logs .libc block).next fun _ => .pure
  simp only
  split
  · exact .pure
  · next ator hator =>
    apply (atorAdd_libc env (h.ators atorRef ator hator) pinfo).next
    intro r
    split_ifs
    · exact .pure
    · exact (mapRemove_libc (hs.cMalloc h.mapPinfo) miter).next fun _ =>
        (heapFree_logs .libc block).next fun _ => .pure

theorem meminfoAddPinfo_returns (h : TrackerInv self) {atorRef : Nat}
    (hold : self.ators atorRef ≠ none) (ptr size : UInt64) :
    Returns (meminfoAddPinfo env self atorRef ptr size) TrackerResult.Good := by
  apply Returns.next
  rintro (_ | block)
  · exact .pure h
  let pinfo : TracedPinfo := ⟨block, atorRef, ptr, size⟩
  refine ((mapAddp_returns env.hashFn env.mem self.mapPinfo pinfo 0 ptr).and
    (mapAddp_adds env.hashFn env.mem self.mapPinfo pinfo 0 ptr)).bind ?_
  rintro ⟨_ | miter, mapPinfo⟩ ⟨hs, hg, -⟩
  · exact .next fun _ => .pure (h.pinfos hs hg hold h.ators fun p hp => hp)
  simp only
  split
  · next hnone => exact absurd hnone hold
  · next ator hator =>
    refine (atorAdd_returns env (h.ators atorRef ator hator) pinfo).bind ?_
    intro r hr
    obtain ⟨hc, hkeep⟩ := update_ators h atorRef hr
    split_ifs
    · exact .pure (h.pinfos hs hg hold hc hkeep)
    · refine ((mapRemove_returns mapPinfo miter).and (mapRemove_gains mapPinfo miter pinfo)).bind ?_
      rintro removed ⟨hs', hg'⟩
      exact .next fun _ => .pure (h.pinfos (hs.trans hs') (hg.trans hg') hold hc hkeep)

theorem addAtor_inv (h : TrackerInv self) {block : Nat} (hc : ator.mapPinfoRef.CMalloc)
    {mapAtor : TracedMap Nat} (hs : self.mapAtor.Same mapAtor)
    (hg : self.mapAtor.Gains block mapAtor) :
    TrackerInv { self with
      mapAtor := mapAtor
      ators := Function.update self.ators block (some ator) } := by
  obtain ⟨hc, hkeep⟩ := update_ators h block hc
  refine h.mapAtors hs ?_ hc hkeep
  intro iter hm
  rcases hg iter hm with he | ⟨hm, he⟩
  · simp [he]
  · rw [he]
    exact hkeep _ (h.allocated iter hm)

theorem meminfoAdd_libc (h : TrackerInv self) (ptr size : UInt64) :
    OnlyLibc (meminfoAdd env self ptr size) := by
  simp only [meminfoAdd]
  split
  · exact meminfoAddPinfo_libc env h _ ptr size
  · apply (atorNew_libc env).bind (atorNew_returns env)
    rintro (_ | ⟨block, ator⟩) hr
    · exact .pure
    have hc := hr _ rfl
    apply (mapAddp_libc h.mapAtor env.hashFn env.mem block _ env.name).bind
      ((mapAddp_returns _ _ _ _ _ _).and (mapAddp_adds _ _ _ _ _ _))
    rintro ⟨_ | miter, mapAtor⟩ ⟨hs, hg, -⟩
    · exact (atorDelete_libc hc block).next fun _ => .pure
    · exact meminfoAddPinfo_libc env (addAtor_inv h hc hs hg) block ptr size

theorem meminfoAdd_returns (h : TrackerInv self) (ptr size : UInt64) :
    Returns (meminfoAdd env self ptr size) TrackerResult.Good := by
  simp only [meminfoAdd]
  split
  · next miter hfind =>
    exact meminfoAddPinfo_returns env h (h.allocated miter (mapFindp_mem hfind)) ptr size
  · refine (atorNew_returns env).bind ?_
    rintro (_ | ⟨block, ator⟩) hr
    · exact .pure h
    have hc := hr _ rfl
    refine ((mapAddp_returns env.hashFn env.mem self.mapAtor block _ env.name).and
      (mapAddp_adds env.hashFn env.mem self.mapAtor block _ env.name)).bind ?_
    rintro ⟨_ | miter, mapAtor⟩ ⟨hs, hg, hk⟩
    · apply Returns.next
      intro _
      apply Returns.pure
      refine h.mapAtors hs ?_ h.ators fun p hp => hp
      intro iter hm
      obtain ⟨hm, he⟩ := hk rfl iter hm
      rw [he]
      exact h.allocated iter hm
    · refine meminfoAddPinfo_returns env (addAtor_inv h hc hs hg) ?_ ptr size
      show Function.update self.ators block (some ator) block ≠ none
      rw [Function.update_self]
      simp

theorem meminfoRem_libc (h : TrackerInv self) (ptr : UInt64) :
    OnlyLibc (meminfoRem env self ptr) := by
  simp only [meminfoRem]
  split
  · exact .pure
  split
  · exact .pure
  · next ator hator =>
    apply (atorRem_libc env (h.ators _ ator hator) _).next
    intro ator
    exact (mapRemove_libc h.mapPinfo _).next fun _ => (heapFree_logs .libc _).next fun _ => .pure

theorem meminfoRem_returns (h : TrackerInv self) (ptr : UInt64) :
    Returns (meminfoRem env self ptr) TrackerResult.Good := by
  simp only [meminfoRem]
  split
  · exact .pure h
  · next miter hfind =>
    have hold := h.referred miter (mapFindp_mem hfind)
    split
    · next hnone => exact absurd hnone hold
    · next ator hator =>
      refine (atorRem_returns env (h.ators _ ator hator) _).bind ?_
      intro ator hc
      obtain ⟨hc, hkeep⟩ := update_ators h (self.mapPinfo.map.node miter).val.atorRef hc
      refine ((mapRemove_returns self.mapPinfo miter).and
        (mapRemove_gains self.mapPinfo miter (self.mapPinfo.map.node miter).val)).bind ?_
      rintro removed ⟨hs, hg⟩
      exact .next fun _ => .pure (h.pinfos hs hg hold hc hkeep)

theorem meminfoInit_libc (memoryMeminfo : Option Tracker) :
    OnlyLibc (meminfoInit env memoryMeminfo) := by
  cases memoryMeminfo with
  | some self => exact .pure
  | none =>
    apply (heapAlloc_logs .libc).next
    rintro (_ | self)
    · exact .pure
    apply Logs.bind (mapNewFlags_libc rfl env.seed env.atorNode)
      (mapNewCMalloc_returns env.seed env.atorNode)
    rintro (_ | mapAtor) hr
    · exact (heapFree_logs .libc self).next fun _ => .pure
    apply Logs.next (mapNewFlags_libc rfl env.seed env.pinfoNode)
    rintro (_ | mapPinfo)
    · exact (mapDelete_libc (hr _ rfl).1).next fun _ =>
        (heapFree_logs .libc self).next fun _ => .pure
    · exact .pure

theorem meminfoInit_returns {memoryMeminfo : Option Tracker}
    (h : ∀ t, memoryMeminfo = some t → TrackerInv t) :
    Returns (meminfoInit env memoryMeminfo) (fun r => ∀ t, r = some t → TrackerInv t) := by
  cases memoryMeminfo with
  | some self => exact .pure h
  | none =>
    apply Returns.next
    rintro (_ | self)
    · exact .pure (by simp)
    refine (mapNewCMalloc_returns env.seed env.atorNode).bind ?_
    rintro (_ | mapAtor) ha
    · exact .next fun _ => .pure (by simp)
    refine (mapNewCMalloc_returns env.seed env.pinfoNode).bind ?_
    rintro (_ | mapPinfo) hp
    · exact .next fun _ => .next fun _ => .pure (by simp)
    · obtain ⟨hca, hsa⟩ := ha _ rfl
      obtain ⟨hcp, hsp⟩ := hp _ rfl
      apply Returns.pure
      rintro t ⟨⟩
      exact ⟨hca, hcp, by simp, by simp [hsa], by simp [hsp]⟩

end Traced

section Runs

variable {memoryMeminfo : Option Tracker}

/-- A call under memory_mutex asks only libc, and keeps the tracker in order. -/
theorem TrackerCall.exec_libc (h : ∀ t, memoryMeminfo = some t → TrackerInv t) (env : TrackerEnv)
    (call : TrackerCall) : Traced.OnlyLibc (call.exec env memoryMeminfo) := by
  apply (Traced.meminfoInit_libc env memoryMeminfo).bind (Traced.meminfoInit_returns env h)
  rintro (_ | self) hr
  · exact .pure
  have hinv := hr self rfl
  cases call with
  | add ptr size => exact Traced.meminfoAdd_libc env hinv ptr size
  | rem ptr => exact Traced.meminfoRem_libc env hinv ptr
  | memcheckptr ptr => exact .pure
  | meminfo => exact .pure

theorem TrackerCall.exec_returns (h : ∀ t, memoryMeminfo = some t → TrackerInv t)
    (env : TrackerEnv) (call : TrackerCall) :
    Returns (call.exec env memoryMeminfo) TrackerResult.Good := by
  refine (Traced.meminfoInit_returns env h).bind ?_
  rintro (_ | self) hr
  · exact .pure trivial
  have hinv := hr self rfl
  cases call with
  | add ptr size => exact Traced.meminfoAdd_returns env hinv ptr size
  | rem ptr => exact Traced.meminfoRem_returns env hinv ptr
  | memcheckptr ptr => exact .pure hinv
  | meminfo => exact .pure hinv

theorem TrackerReach.inv (h : TrackerReach memoryMeminfo) :
    ∀ t, memoryMeminfo = some t → TrackerInv t := by
  induction h with
  | init => simp
  | call env call s _ hr ih =>
    have hgood := call.exec_returns ih env s
    rw [hr] at hgood
    rintro t rfl
    exact hgood

variable {α V : Type} {hashFn : UInt32 → List UInt8 → UInt32} {node : IterPtr → MapNode V}
  {plain : Finset Nat} {sys : Containers α V} {s : TracedHeap}

/-- Every piece of memory goes back to the family that it came from. A call on containers from
newCMalloc asks only libc, and so does the tracker, which uses no others. -/
theorem families_never_mix (h : ContainersReach hashFn node plain sys s)
    (ht : TrackerReach memoryMeminfo) :
    (Matched s.trace ∧ ∀ call : ContainerCall α V, call.Legal sys → call.Plain plain →
      Traced.OnlyLibc (Traced.containerCall hashFn node sys call)) ∧
    ∀ (env : TrackerEnv) (call : TrackerCall),
      Traced.OnlyLibc (call.exec env memoryMeminfo) ∧
        Returns (call.exec env memoryMeminfo) (· ≠ .dangling) := by
  obtain ⟨leaked, hacc⟩ := h.account
  refine ⟨⟨hacc.matched, fun call hl hp => Traced.containerCall_libc _ _ h.inv hl hp⟩, ?_⟩
  intro env call
  refine ⟨call.exec_libc ht.inv env, ?_⟩
  intro s he
  have hgood := call.exec_returns ht.inv env s
  rw [he] at hgood
  exact hgood

/-- A map from cc_map_newCMalloc, to which an entry is added. -/
theorem families_never_mix_add :
    Traced.OnlyLibc (Traced.containerCall (fun _ _ => 7)
      (fun _ => ⟨5, 0, ⟨[0], by decide, by decide⟩⟩)
      ((Traced.containerCall (fun _ _ => 7) (fun _ => ⟨5, 0, ⟨[0], by decide, by decide⟩⟩)
        (Containers.new (fun _ => 0) fun _ => ⟨5, 0, ⟨[0], by decide, by decide⟩⟩)
        (.mapNew true 0)).run (.new (fun _ => true) fun _ _ => none)).1.2
      (.mapAddp 0 (fun _ => 0) 5 8 3 : ContainerCall Nat Nat)) :=
  (families_never_mix
    (.call (.mapNew true 0) (.new (fun _ => 0) (fun _ => true) fun _ _ => none) trivial rfl)
    .init).1.2 _ (Finset.mem_insert_self 0 ∅) (fun id hid => by
      rw [List.mem_singleton.mp hid]
      exact Finset.mem_union_right _ (Finset.mem_singleton_self 0))

end Runs

end LibCC
