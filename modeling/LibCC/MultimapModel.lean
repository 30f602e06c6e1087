import LibCC.MapModel

/-! cc_multimap.c: a cc_map whose values are lists. The lists that cc_list_new has returned and
cc_list_delete has not freed are in `live`. -/

namespace LibCC

open SequenceFamily

/-- cc_multimapIter_t while it points into the map. The iter is NULL at the end of a list. -/
structure MultimapIter where
  miter : IterPtr
  iter : Option IterPtr
  deriving DecidableEq, Repr

structure CcMultimap (L V : Type) where
  compare : Option (V → V → Int)
  map : CcMap L
  lists : ListSeqs L V
  live : List L

/-- What the allocator does for one cc_multimap_addp: the list of cc_list_new, the iter that
cc_list finds for the value, and the allocations of cc_map_addp. -/
structure MultimapAlloc (L : Type) where
  list : Option L
  iter : Option IterPtr
  map : MapAlloc

variable {L V : Type}

def multimapNew (compare : Option (V → V → Int)) (seed : UInt32) (nodes : IterPtr → MapNode L)
    (data : IterPtr → V) : CcMultimap L V where
  compare := compare
  map := mapNew seed nodes
  lists := ListSeqs.empty data
  live := []

def multimapSize (self : CcMultimap L V) : Int := mapSize self.map

namespace CcMultimap

/-- cc_map_val -/
def list (self : CcMultimap L V) (miter : IterPtr) : L := (self.map.node miter).val

/-- cc_list_next -/
def listNext (self : CcMultimap L V) (list : L) (iter : IterPtr) : Option IterPtr :=
  (after iter (self.lists.seq list)).head?

/-- The head of the list at `miter`, with NULL for NULL. -/
def listHead (self : CcMultimap L V) (miter : Option IterPtr) : Option MultimapIter :=
  miter.map fun miter => ⟨miter, (self.lists.seq (self.list miter)).head?⟩

variable [DecidableEq L]

/-- cc_list_new -/
def listNew (self : CcMultimap L V) (list : L) : CcMultimap L V :=
  { self with lists := self.lists.setSeq list [], live := list :: self.live }

/-- cc_list_delete, which discards what the list still holds. -/
def listDelete (self : CcMultimap L V) (list : L) : CcMultimap L V :=
  { self with lists := self.lists.discard list, live := self.live.erase list }

end CcMultimap

def multimapHead (self : CcMultimap L V) : Option MultimapIter :=
  self.listHead self.map.seq.head?

def multimapNext (self : CcMultimap L V) (mmiter : MultimapIter) : Option MultimapIter :=
  match mmiter.iter.bind (self.listNext (self.list mmiter.miter)) with
  | some iter => some { mmiter with iter := some iter }
  | none => self.listHead (after mmiter.miter self.map.seq).head?

def multimapKey (self : CcMultimap L V) (mmiter : MultimapIter) : MapKey :=
  (self.map.node mmiter.miter).key

def multimapVal (self : CcMultimap L V) (mmiter : MultimapIter) : Option V :=
  mmiter.iter.map self.lists.data

def multimapList (self : CcMultimap L V) (mmiter : MultimapIter) : L := self.list mmiter.miter

/-- cc_multimap_findp: the list, and what `*mmiter` becomes. -/
def multimapFindp (hashFn : UInt32 → List UInt8 → UInt32) (mem : UInt64 → UInt8)
    (self : CcMultimap L V) (len : Nat) (key : UInt64) : Option (L × MultimapIter) :=
  (self.listHead (mapFindp hashFn mem self.map len key)).map fun mmiter =>
    (self.list mmiter.miter, mmiter)

section

variable [DecidableEq L]

def multimapAddp (hashFn : UInt32 → List UInt8 → UInt32) (mem : UInt64 → UInt8)
    (self : CcMultimap L V) (val : V) (len : Nat) (key : UInt64) (alloc : MultimapAlloc L) :
    Int × CcMultimap L V :=
  let list := (mapFindp hashFn mem self.map len key).map self.list
  match list, self.compare with
  | some list, some compare =>
    match alloc.iter with
    | none => (0, self)
    | some iter => (1, { self with lists := self.lists.insertSorted list compare iter val })
  | some list, none =>
    match alloc.iter with
    | none => (0, self)
    | some iter => (1, { self with lists := self.lists.append list none iter val })
  | none, _ =>
    match alloc.list with
    | none => (0, self)
    | some list =>
      let self := self.listNew list
      match alloc.iter with
      | none => (0, self.listDelete list) -- fail_append
      | some iter =>
        let self := { self with lists := self.lists.append list none iter val }
        match mapAddp hashFn mem self.map list len key alloc.map with
        | (some _, map) => (1, { self with map := map })
        | (none, map) => -- fail_add
          let self := { self with map := map, lists := self.lists.remove list iter }
          (0, self.listDelete list)

/-- cc_multimap_remove: the value, what `*_iter` becomes, and the multimap. -/
def multimapRemove (self : CcMultimap L V) (mmiter : MultimapIter) :
    Option V × Option MultimapIter × CcMultimap L V :=
  let list := self.list mmiter.miter
  let data := mmiter.iter.map self.lists.data
  let iter := mmiter.iter.bind (self.listNext list)
  let self := match mmiter.iter with
    | none => self
    | some iter => { self with lists := self.lists.remove list iter }
  if (self.lists.seq list).length = 0 then
    let removed := mapRemove self.map mmiter.miter
    let self := { self with map := removed.2.2 }.listDelete list
    (data, self.listHead removed.2.1, self)
  else
    match iter with
    | none => (data, self.listHead (after mmiter.miter self.map.seq).head?, self)
    | some iter => (data, some { mmiter with iter := some iter }, self)

/-- The `while` loop of cc_multimap_discard, for at most `n` lists. -/
def multimapDiscardLoop : Nat → Option IterPtr → CcMultimap L V → CcMultimap L V
  | _, none, self => self
  | 0, some _, self => self
  | n + 1, some miter, self =>
    let removed := mapRemove self.map miter
    let list := removed.1
    let self := { self with map := removed.2.2, lists := self.lists.discard list }.listDelete list
    multimapDiscardLoop n removed.2.1 self

def multimapDiscard (self : CcMultimap L V) : CcMultimap L V :=
  multimapDiscardLoop self.map.seq.length self.map.seq.head? self

end

end LibCC
