import LibCC.ListSequences
import LibCC.TracedAccount

/-! cc_list with the calls that it makes to allocators. The header of a list
says where its iters come from; their order is that of a sequence. -/

namespace LibCC

open AllocEvent FramedProgram

/-- The part of a cc_list_t that its memory depends on: the block that it is in, its flags and the
chain of its free iters. -/
structure ListHeader where
  self : Nat
  flags : Nat
  iters : List IterPtr

/-- flags & CC_LIST_FLAG_CMALLOC, and flags & CC_MAP_FLAG_CMALLOC -/
def isCMalloc (flags : Nat) : Bool := flags &&& listFlagCMalloc != 0

/-- calloc or CALLOC, free or FREE, realloc or REALLOC -/
def flagsFamily (flags : Nat) : AllocFamily := if isCMalloc flags then .libc else .memory

namespace Traced

def listNewFlags (flags : Nat) : TracedM (Option ListHeader) := do
  match ← heapAlloc (flagsFamily flags) with
  | none => return none
  | some self => return some ⟨self, flags, []⟩

/-- The three ways of cc_listIter_new to come by an iter. -/
def listIterAcquire (list : ListHeader) : TracedM (Option IterPtr × ListHeader) :=
  if isCMalloc list.flags then do
    let self ← heapAlloc .libc
    return (self.map fun block => ⟨block, 0⟩, list)
  else
    match list.iters with
    | self :: iters => return (some self, { list with iters := iters })
    | [] => do
      match ← poolGet with
      | [] => return (none, list)
      | self :: iters => return (some self, { list with iters := iters.reverse })

/-- cc_listIter_delete once the iter is out of the list. -/
def listIterRelease (self : IterPtr) (list : ListHeader) : TracedM ListHeader :=
  if isCMalloc list.flags then do
    heapFree .libc self.block
    return list
  else return { list with iters := self :: list.iters }

/-- cc_list_discard for the iters of the list. -/
def listDiscard : List IterPtr → ListHeader → TracedM ListHeader
  | [], self => pure self
  | iter :: iters, self => do
    let self ← listIterRelease iter self
    listDiscard iters self

def listDelete (iters : List IterPtr) (self : ListHeader) : TracedM Unit := do
  let self ← listDiscard iters self
  if isCMalloc self.flags then heapFree .libc self.self
  else do
    poolPut self.iters
    heapFree .memory self.self

end Traced

namespace ListHeader

/-- What an iter of the list is to whom it came from. -/
def item (list : ListHeader) (iter : IterPtr) : AllocFamily × Piece :=
  if isCMalloc list.flags then (.libc, .block iter.block) else (.pool, .iter iter)

/-- The block of the header and the free iters, which only a list that uses the pool has. -/
def own (list : ListHeader) : Holding :=
  {(flagsFamily list.flags, .block list.self)} +
    if isCMalloc list.flags then 0 else Holding.iters list.iters

def holds (list : ListHeader) (iters : List IterPtr) : Holding :=
  list.own + (iters.map list.item : List _)

variable {list list' : ListHeader} {iters iters' : List IterPtr} {iter : IterPtr}

theorem item_eq (h : list'.flags = list.flags) : list'.item = list.item := by
  funext i
  rw [item, item, h]

theorem holds_pool (list : ListHeader) (h : ¬ isCMalloc list.flags = true) (iters : List IterPtr) :
    list.holds iters =
      {(.memory, .block list.self)} + Holding.iters list.iters + Holding.iters iters := by
  have hitem : list.item = fun iter => (AllocFamily.pool, Piece.iter iter) := by
    funext iter
    exact if_neg h
  rw [holds, own, hitem, flagsFamily, if_neg h, if_neg h]
  rfl

theorem holds_perm (list : ListHeader) (h : iters.Perm iters') :
    list.holds iters = list.holds iters' := by
  rw [holds, holds, Multiset.coe_eq_coe.mpr (h.map _)]

theorem holds_cons (list : ListHeader) (iter : IterPtr) (iters : List IterPtr) :
    list.holds (iter :: iters) = list.holds iters + {list.item iter} := by
  rw [holds, holds, List.map_cons, ← Multiset.cons_coe, ← Multiset.singleton_add]
  abel

end ListHeader

namespace Traced

theorem heapAlloc_logs (family : AllocFamily) :
    Logs TracedHeap.trace (fun e => e.family = family) (heapAlloc family) :=
  fun s => ⟨[_], rfl, by simp [AllocEvent.family]⟩

theorem heapRealloc_logs (family : AllocFamily) (old : Nat) :
    Logs TracedHeap.trace (fun e => e.family = family) (heapRealloc family old) :=
  fun s => ⟨[_], rfl, by simp [AllocEvent.family]⟩

theorem heapFree_logs (family : AllocFamily) (block : Nat) :
    Logs TracedHeap.trace (fun e => e.family = family) (heapFree family block) :=
  fun s => ⟨[_], rfl, by simp [AllocEvent.family]⟩

/-- The program calls neither cc_memory nor the pool. -/
abbrev OnlyLibc {α : Type} (m : TracedM α) : Prop :=
  Logs TracedHeap.trace (fun e => e.family = .libc) m

section List

variable {list : ListHeader} {iters : List IterPtr} {flags : Nat}

def listHolds : Option ListHeader → Holding
  | none => 0
  | some list => list.holds []

theorem listNewFlags_framed (flags : Nat) :
    Framed HeapAccount 0 (listNewFlags flags) listHolds := by
  apply Framed.bind (heapAlloc_framed _)
  intro r
  cases r with
  | none => exact .pure rfl
  | some self => exact .pure (by simp [listHolds, ListHeader.holds, ListHeader.own, Holding.block])

theorem listNewFlags_returns (flags : Nat) :
    Returns (listNewFlags flags) (fun r => ∀ list, r = some list → list.flags = flags) := by
  apply Returns.next
  intro r
  cases r with
  | none => exact .pure (by simp)
  | some self => exact .pure (by simp)

theorem listNewFlags_libc (h : isCMalloc flags = true) : OnlyLibc (listNewFlags flags) := by
  have hfamily : flagsFamily flags = .libc := if_pos h
  apply Logs.next
  · rw [hfamily]
    exact heapAlloc_logs .libc
  · intro r
    cases r with
    | none => exact .pure
    | some self => exact .pure

/-- A new iter is held with the list, or the list is as it was. -/
theorem listIterAcquire_framed (list : ListHeader) (iters : List IterPtr) :
    Framed HeapAccount (list.holds iters) (listIterAcquire list)
      (fun r => r.2.holds (r.1.toList ++ iters)) := by
  unfold listIterAcquire
  split_ifs with hc
  · apply Framed.take (F := list.holds iters) (zero_add _).symm (heapAlloc_framed .libc)
    intro r
    cases r with
    | none => exact .pure (by simp [Holding.block])
    | some block =>
      apply Framed.pure
      show list.holds (⟨block, 0⟩ :: iters) = _
      rw [list.holds_cons, add_comm, Holding.block, ListHeader.item, if_pos hc]
  · split
    · next self rest hl =>
      apply Framed.pure
      show ({ list with iters := rest } : ListHeader).holds (self :: iters) = _
      rw [list.holds_pool hc, ListHeader.holds_pool { list with iters := rest } hc, hl]
      simp only [Holding.iters_cons]
      abel
    · next hl =>
      apply Framed.take (F := list.holds iters) (zero_add _).symm poolGet_framed
      intro r
      cases r with
      | nil => exact .pure (by simp)
      | cons self rest =>
        apply Framed.pure
        show ({ list with iters := rest.reverse } : ListHeader).holds (self :: iters) = _
        rw [list.holds_pool hc, ListHeader.holds_pool { list with iters := rest.reverse } hc, hl]
        simp only [Holding.iters_cons, Holding.iters_nil, Holding.iters_reverse]
        abel

theorem listIterAcquire_returns (list : ListHeader) :
    Returns (listIterAcquire list) (fun r => r.2.flags = list.flags ∧ r.2.self = list.self) := by
  unfold listIterAcquire
  split_ifs
  · exact .next fun _ => .pure ⟨rfl, rfl⟩
  · split
    · exact .pure ⟨rfl, rfl⟩
    · apply Returns.next
      intro r
      cases r with
      | nil => exact .pure ⟨rfl, rfl⟩
      | cons self rest => exact .pure ⟨rfl, rfl⟩

theorem listIterAcquire_libc (h : isCMalloc list.flags = true) :
    OnlyLibc (listIterAcquire list) := by
  rw [listIterAcquire, if_pos h]
  exact (heapAlloc_logs .libc).next fun _ => .pure

theorem listIterRelease_framed (list : ListHeader) (iters : List IterPtr) (self : IterPtr) :
    Framed HeapAccount (list.holds (self :: iters)) (listIterRelease self list)
      (fun list => list.holds iters) := by
  unfold listIterRelease
  split_ifs with hc
  · rw [ListHeader.holds_cons, ListHeader.item, if_pos hc]
    apply Framed.take (add_comm _ _) (heapFree_framed .libc self.block)
    exact fun _ => .pure (zero_add _).symm
  · apply Framed.pure
    show ({ list with iters := self :: list.iters } : ListHeader).holds iters = _
    rw [list.holds_pool hc, ListHeader.holds_pool { list with iters := self :: list.iters } hc]
    simp only [Holding.iters_cons]
    abel

theorem listIterRelease_returns (list : ListHeader) (self : IterPtr) :
    Returns (listIterRelease self list)
      (fun r => r.flags = list.flags ∧ r.self = list.self) := by
  unfold listIterRelease
  split_ifs
  · exact .next fun _ => .pure ⟨rfl, rfl⟩
  · exact .pure ⟨rfl, rfl⟩

theorem listIterRelease_libc (h : isCMalloc list.flags = true) (self : IterPtr) :
    OnlyLibc (listIterRelease self list) := by
  rw [listIterRelease, if_pos h]
  exact (heapFree_logs .libc self.block).next fun _ => .pure

theorem listDiscard_framed (iters : List IterPtr) (list : ListHeader) :
    Framed HeapAccount (list.holds iters) (listDiscard iters list) (fun list => list.holds []) := by
  induction iters generalizing list with
  | nil => exact .pure rfl
  | cons iter iters ih => exact (listIterRelease_framed list iters iter).bind ih

theorem listDiscard_returns (iters : List IterPtr) (list : ListHeader) :
    Returns (listDiscard iters list) (fun r => r.flags = list.flags ∧ r.self = list.self) := by
  induction iters generalizing list with
  | nil => exact .pure ⟨rfl, rfl⟩
  | cons iter iters ih =>
    refine (listIterRelease_returns list iter).bind ?_
    intro list' ⟨hf, hs⟩
    rw [← hf, ← hs]
    exact ih list'

theorem listDiscard_libc (h : isCMalloc list.flags = true) (iters : List IterPtr) :
    OnlyLibc (listDiscard iters list) := by
  induction iters generalizing list with
  | nil => exact .pure
  | cons iter iters ih =>
    apply (listIterRelease_libc h iter).bind (listIterRelease_returns list iter)
    intro list' hr
    exact ih (by rw [hr.1]; exact h)

theorem listDelete_framed (iters : List IterPtr) (list : ListHeader) :
    Framed HeapAccount (list.holds iters) (listDelete iters list) (fun _ => 0) := by
  apply (listDiscard_framed iters list).bind
  intro self
  rw [ListHeader.holds, List.map_nil, Multiset.coe_nil, add_zero, ListHeader.own, flagsFamily]
  split_ifs with hc
  · rw [add_zero]
    exact heapFree_framed .libc self.self
  · apply Framed.take (add_comm _ _) (poolPut_framed self.iters)
    exact fun _ => (heapFree_framed .memory self.self).congr (zero_add _) fun _ => rfl

theorem listDelete_libc (h : isCMalloc list.flags = true) (iters : List IterPtr) :
    OnlyLibc (listDelete iters list) := by
  apply (listDiscard_libc h iters).bind (listDiscard_returns iters list)
  intro self hr
  rw [hr.1, if_pos h]
  exact heapFree_logs .libc self.self

end List

end Traced

end LibCC
