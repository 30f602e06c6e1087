import LibCC.MultimapTable
import LibCC.TracedRefinement

/-! cc_multimap with the calls that it makes to allocators. A list is named by
the block that it is in; what the multimap stores is a CcMultimap. -/

namespace LibCC

open AllocEvent FramedProgram SequenceFamily

structure TracedMultimap (V : Type) where
  self : Nat
  map : TracedMap Nat
  compare : Option (V → V → Int)
  lists : ListSeqs Nat V
  headers : Nat → ListHeader
  live : List Nat

variable {V : Type}

namespace TracedMultimap

def content (self : TracedMultimap V) : CcMultimap Nat V :=
  ⟨self.compare, self.map.map, self.lists, self.live⟩

def setMap (self : TracedMultimap V) (map : TracedMap Nat) : TracedMultimap V :=
  { self with map := map }

/-- The multimap with the header of a list and the sequences of the lists changed. -/
def setList (self : TracedMultimap V) (list : Nat) (header : ListHeader)
    (lists : ListSeqs Nat V) : TracedMultimap V :=
  { self with
    lists := lists
    headers := Function.update self.headers list header }

def addList (self : TracedMultimap V) (header : ListHeader) : TracedMultimap V :=
  { self with
    lists := self.lists.setSeq header.self []
    headers := Function.update self.headers header.self header
    live := header.self :: self.live }

def dropList (self : TracedMultimap V) (list : Nat) : TracedMultimap V :=
  { self with
    lists := self.lists.discard list
    live := self.live.erase list }

/-- cc_list_new -/
def listNew (self : TracedMultimap V) : TracedM (Option Nat × TracedMultimap V) := do
  match ← Traced.listNewFlags 0 with
  | none => return (none, self)
  | some header => return (some header.self, self.addList header)

/-- A new iter goes where `place` puts it. -/
def listPlace (self : TracedMultimap V) (list : Nat) (place : IterPtr → ListSeqs Nat V) :
    TracedM (Option IterPtr × TracedMultimap V) := do
  match ← Traced.listIterAcquire (self.headers list) with
  | (none, header) => return (none, self.setList list header self.lists)
  | (some iter, header) => return (some iter, self.setList list header (place iter))

def listInsertSorted (self : TracedMultimap V) (list : Nat) (compare : V → V → Int) (val : V) :
    TracedM (Option IterPtr × TracedMultimap V) :=
  self.listPlace list fun iter => self.lists.insertSorted list compare iter val

def listAppend (self : TracedMultimap V) (list : Nat) (val : V) :
    TracedM (Option IterPtr × TracedMultimap V) :=
  self.listPlace list fun iter => self.lists.append list none iter val

def listRemove (self : TracedMultimap V) (list : Nat) (iter : IterPtr) :
    TracedM (TracedMultimap V) := do
  let header ← Traced.listIterRelease iter (self.headers list)
  return self.setList list header (self.lists.remove list iter)

def listDiscard (self : TracedMultimap V) (list : Nat) : TracedM (TracedMultimap V) := do
  let header ← Traced.listDiscard (self.lists.seq list) (self.headers list)
  return self.setList list header (self.lists.discard list)

def listDelete (self : TracedMultimap V) (list : Nat) : TracedM (TracedMultimap V) := do
  Traced.listDelete (self.lists.seq list) (self.headers list)
  return self.dropList list

end TracedMultimap

namespace Traced

def multimapNew (compare : Option (V → V → Int)) (seed : UInt32) (nodes : IterPtr → MapNode Nat)
    (data : IterPtr → V) : TracedM (Option (TracedMultimap V)) := do
  match ← heapAlloc .memory with
  | none => return none
  | some self =>
    match ← mapNewFlags 0 seed nodes with
    | none => do
      heapFree .memory self
      return none
    | some map => return some ⟨self, map, compare, ListSeqs.empty data, fun _ => ⟨0, 0, []⟩, []⟩

variable (hashFn : UInt32 → List UInt8 → UInt32) (mem : UInt64 → UInt8)

/-- cc_multimap_addp where it creates a list. -/
def multimapAddList (self : TracedMultimap V) (val : V) (len : Nat) (key : UInt64) :
    TracedM (Int × TracedMultimap V) := do
  match ← self.listNew with
  | (none, self) => return (0, self)
  | (some list, self) =>
    match ← self.listAppend list val with
    | (none, self) => do -- fail_append
      let self ← self.listDelete list
      return (0, self)
    | (some iter, self) =>
      match ← mapAddp hashFn mem self.map list len key with
      | (some _, map) => return (1, self.setMap map)
      | (none, map) => do -- fail_add
        let self ← (self.setMap map).listRemove list iter
        let self ← self.listDelete list
        return (0, self)

def multimapAddp (self : TracedMultimap V) (val : V) (len : Nat) (key : UInt64) :
    TracedM (Int × TracedMultimap V) :=
  match (mapFindp hashFn mem self.map.map len key).map self.content.list, self.compare with
  | some list, some compare => do
    let r ← self.listInsertSorted list compare val
    return (if r.1 = none then 0 else 1, r.2)
  | some list, none => do
    let r ← self.listAppend list val
    return (if r.1 = none then 0 else 1, r.2)
  | none, _ => multimapAddList hashFn mem self val len key

/-- cc_multimap_remove: the value, what `*_iter` becomes, and the multimap. -/
def multimapRemove (self : TracedMultimap V) (miter iter : IterPtr) :
    TracedM (V × Option MultimapIter × TracedMultimap V) := do
  let list := self.content.list miter
  let data := self.lists.data iter
  let next := self.content.listNext list iter
  let self ← self.listRemove list iter
  if (self.lists.seq list).length = 0 then do
    let removed ← mapRemove self.map miter
    let self ← (self.setMap removed.2.2).listDelete list
    return (data, self.content.listHead removed.2.1, self)
  else
    match next with
    | none => return (data, self.content.listHead (after miter self.map.map.seq).head?, self)
    | some iter => return (data, some ⟨miter, some iter⟩, self)

/-- The `while` loop of cc_multimap_discard, for at most `n` lists. -/
def multimapDiscardLoop : Nat → Option IterPtr → TracedMultimap V → TracedM (TracedMultimap V)
  | _, none, self => pure self
  | 0, some _, self => pure self
  | n + 1, some miter, self => do
    let removed ← mapRemove self.map miter
    let self ← (self.setMap removed.2.2).listDiscard removed.1
    let self ← self.listDelete removed.1
    multimapDiscardLoop n removed.2.1 self

def multimapDiscard (self : TracedMultimap V) : TracedM (TracedMultimap V) :=
  multimapDiscardLoop self.map.map.seq.length self.map.map.seq.head? self

/-- cc_multimap_delete. The lists of a multimap that is not empty are leaked. -/
def multimapDelete (self : TracedMultimap V) : TracedM Unit := do
  mapDelete self.map
  heapFree .memory self.self

end Traced

namespace TracedMultimap

def listHolds (self : TracedMultimap V) (list : Nat) : Holding :=
  (self.headers list).holds (self.lists.seq list)

def listsHold (self : TracedMultimap V) (lists : List Nat) : Holding :=
  (lists.map self.listHolds).sum

def holds (self : TracedMultimap V) : Holding :=
  {(.memory, .block self.self)} + self.map.holds + self.listsHold self.live

/-- Everything but one list. -/
def besides (self : TracedMultimap V) (list : Nat) : Holding :=
  {(.memory, .block self.self)} + self.map.holds + self.listsHold (self.live.erase list)

/-- The blocks of the live lists are those that name them, and their iters are from the pool. -/
def Headed (self : TracedMultimap V) : Prop :=
  ∀ list ∈ self.live, (self.headers list).self = list ∧ (self.headers list).flags = 0

variable {self : TracedMultimap V} {list : Nat} {iter : IterPtr} {header : ListHeader}

theorem holds_split (h : list ∈ self.live) :
    self.holds = self.listHolds list + self.besides list := by
  rw [holds, besides, listsHold, ← List.sum_map_erase self.listHolds h]
  simp only [listsHold]
  abel

theorem listsHold_congr {self' : TracedMultimap V} {lists : List Nat}
    (h : ∀ list ∈ lists, self'.listHolds list = self.listHolds list) :
    self'.listsHold lists = self.listsHold lists := by
  rw [listsHold, listsHold, List.map_congr_left h]

theorem setList_besides {lists : ListSeqs Nat V} (hn : self.live.Nodup)
    (hl : ∀ other, other ≠ list → lists.seq other = self.lists.seq other) :
    (self.setList list header lists).besides list = self.besides list := by
  have hother : (self.setList list header lists).listsHold (self.live.erase list) =
      self.listsHold (self.live.erase list) := by
    apply listsHold_congr
    intro other hm
    have hne : other ≠ list := ((hn.mem_erase_iff).mp hm).1
    show (Function.update self.headers list header other).holds (lists.seq other) = _
    rw [Function.update_of_ne hne, hl other hne]
    rfl
  show {(AllocFamily.memory, Piece.block self.self)} + self.map.holds +
    (self.setList list header lists).listsHold (self.live.erase list) = _
  rw [hother]
  rfl

theorem setList_holds {lists : ListSeqs Nat V} (hm : list ∈ self.live) (hn : self.live.Nodup)
    (hl : ∀ other, other ≠ list → lists.seq other = self.lists.seq other) :
    (self.setList list header lists).holds = header.holds (lists.seq list) + self.besides list := by
  have hm' : list ∈ (self.setList list header lists).live := hm
  rw [holds_split hm', setList_besides hn hl]
  show (Function.update self.headers list header list).holds (lists.seq list) + _ = _
  rw [Function.update_self]

theorem setList_headed {lists : ListSeqs Nat V} (h : self.Headed)
    (hs : header.self = (self.headers list).self) (hf : header.flags = (self.headers list).flags) :
    (self.setList list header lists).Headed := by
  intro other hm
  show (Function.update self.headers list header other).self = _ ∧
    (Function.update self.headers list header other).flags = 0
  by_cases he : other = list
  · subst he
    rw [Function.update_self, hs, hf]
    exact h other hm
  · rw [Function.update_of_ne he]
    exact h other hm

theorem addList_besides (hm : header.self ∉ self.live) :
    (self.addList header).besides header.self = self.holds := by
  have hold : (self.addList header).listsHold self.live = self.listsHold self.live := by
    apply listsHold_congr
    intro other ho
    have hne : other ≠ header.self := ne_of_mem_of_not_mem ho hm
    show (Function.update self.headers header.self header other).holds
      (Function.update self.lists.seq header.self [] other) = _
    rw [Function.update_of_ne hne, Function.update_of_ne hne]
    rfl
  show {(AllocFamily.memory, Piece.block self.self)} + self.map.holds +
    (self.addList header).listsHold ((header.self :: self.live).erase header.self) = _
  rw [List.erase_cons_head, hold]
  rfl

theorem addList_holds (hm : header.self ∉ self.live) :
    (self.addList header).holds = header.holds [] + self.holds := by
  have hmem : header.self ∈ (self.addList header).live := List.mem_cons_self
  rw [holds_split hmem, addList_besides hm]
  show (Function.update self.headers header.self header header.self).holds
    (Function.update self.lists.seq header.self [] header.self) + _ = _
  rw [Function.update_self, Function.update_self]

theorem dropList_holds (hn : self.live.Nodup) :
    (self.dropList list).holds = self.besides list := by
  have hlists : (self.dropList list).listsHold (self.live.erase list) =
      self.listsHold (self.live.erase list) := by
    apply listsHold_congr
    intro other hm
    have hne : other ≠ list := ((hn.mem_erase_iff).mp hm).1
    show (self.headers other).holds (Function.update self.lists.seq list [] other) = _
    rw [Function.update_of_ne hne]
    rfl
  show {(AllocFamily.memory, Piece.block self.self)} + self.map.holds +
    (self.dropList list).listsHold (self.live.erase list) = _
  rw [hlists]
  rfl

end TracedMultimap

end LibCC
