import LibCC.FiniteTable
import LibCC.ListRuns
import LibCC.TracedMap

/-! A program that uses any number of lists and maps, and every call that they
make to an allocator. Lists and maps are named in the order of their creation. -/

namespace LibCC

open AllocEvent FramedProgram SequenceFamily

/-- `lists` and `maps` are what is not deleted yet. -/
structure Containers (α V : Type) where
  next : Nat
  seqs : ListSeqs Nat α
  lists : FiniteTable Nat ListHeader
  maps : FiniteTable Nat (TracedMap V)

inductive ContainerCall (α V : Type)
  | listNew (cMalloc : Bool)
  | listCall (call : ListCall Nat α)
  | listInsertSorted (list : Nat) (compare : α → α → Int) (data : α)
  | listFind (list : Nat) (compare : α → α → Int) (data : α)
  | listDelete (list : Nat)
  | mapNew (cMalloc : Bool) (seed : UInt32)
  | mapFindp (map : Nat) (mem : UInt64 → UInt8) (len : Nat) (key : UInt64)
  | mapAddp (map : Nat) (mem : UInt64 → UInt8) (val : V) (len : Nat) (key : UInt64)
  | mapRemove (map : Nat) (miter : IterPtr)
  | mapDiscard (map : Nat)
  | mapDelete (map : Nat)

variable {α V : Type}

/-- No container yet. -/
def Containers.new (data : IterPtr → α) (node : IterPtr → MapNode V) : Containers α V where
  next := 0
  seqs := ListSeqs.empty data
  lists := FiniteTable.empty ⟨0, 0, []⟩
  maps := FiniteTable.empty ⟨0, 0, 0, ⟨0, 0, []⟩, fun _ => 0, mapNew 0 node⟩

/-- The lists that a call reads or writes. -/
def ListCall.lists : ListCall Nat α → List Nat
  | insert self _ _ | append self _ _ | remove self _ | discard self | move self _ _
  | moven self _ _ => [self]
  | swap fromList toList _ _ | swapn fromList toList _ _ => [fromList, toList]
  | appendList self src | insertList self src => [self, src]
  | replace _ _ => []

namespace ContainerCall

/-- The containers that a call is made on. -/
def uses : ContainerCall α V → List Nat
  | listNew _ | mapNew _ _ => []
  | listCall call => call.lists
  | listInsertSorted list _ _ | listFind list _ _ | listDelete list => [list]
  | mapFindp map _ _ _ | mapAddp map _ _ _ _ | mapRemove map _ | mapDiscard map
  | mapDelete map => [map]

/-- Containers that exist, members of them, and contents that move only between lists of equal
flags. -/
def Legal (sys : Containers α V) : ContainerCall α V → Prop
  | listNew _ | mapNew _ _ => True
  | listCall call => call.Legal sys.seqs ∧ (∀ l ∈ call.lists, l ∈ sys.lists.keys) ∧
      ∀ l ∈ call.lists, ∀ l' ∈ call.lists, (sys.lists.val l).flags = (sys.lists.val l').flags
  | listInsertSorted list _ _ | listFind list _ _ | listDelete list => list ∈ sys.lists.keys
  | mapRemove map miter => map ∈ sys.maps.keys ∧ miter ∈ (sys.maps.val map).map.seq
  | mapFindp map _ _ _ | mapAddp map _ _ _ _ | mapDiscard map | mapDelete map =>
    map ∈ sys.maps.keys

end ContainerCall

namespace Traced

/-- A list gets an iter, if there is one, and puts it in its place. -/
def listAdd (sys : Containers α V) (list : Nat) (place : IterPtr → ListSeqs Nat α) :
    TracedM (Containers α V) := do
  let r ← listIterAcquire (sys.lists.val list)
  return { sys with
    lists := sys.lists.put list r.2
    seqs :=
      match r.1 with
      | none => sys.seqs
      | some new => place new }

/-- The calls of cc_list that keep the number of lists. -/
def listCall (sys : Containers α V) (call : ListCall Nat α) : TracedM (Containers α V) :=
  match call with
  | .insert self _ _ | .append self _ _ =>
    listAdd sys self fun new => call.spec sys.seqs (.iter (some new))
  | .remove self iter => do
    let header ← listIterRelease iter (sys.lists.val self)
    return { sys with
      lists := sys.lists.put self header
      seqs := call.spec sys.seqs .void }
  | .discard self => do
    let header ← listDiscard (sys.seqs.seq self) (sys.lists.val self)
    return { sys with
      lists := sys.lists.put self header
      seqs := call.spec sys.seqs .void }
  | .replace _ _ | .move _ _ _ | .moven _ _ _ | .swap _ _ _ _ | .swapn _ _ _ _ | .appendList _ _
  | .insertList _ _ => return { sys with seqs := call.spec sys.seqs .void }

def cMallocFlags (cMalloc : Bool) : Nat := if cMalloc then listFlagCMalloc else 0

/-- The name of a new container, and the containers. -/
def containerCall (hashFn : UInt32 → List UInt8 → UInt32) (node : IterPtr → MapNode V)
    (sys : Containers α V) : ContainerCall α V → TracedM (Option Nat × Containers α V)
  | .listNew cMalloc => do
    match ← listNewFlags (cMallocFlags cMalloc) with
    | none => return (none, sys)
    | some header => return (some sys.next, { sys with
        next := sys.next + 1
        seqs := sys.seqs.setSeq sys.next []
        lists := sys.lists.put sys.next header })
  | .listCall call => do
    let sys ← listCall sys call
    return (none, sys)
  | .listInsertSorted list compare data => do
    let sys ← listAdd sys list fun new => sys.seqs.insertSorted list compare new data
    return (none, sys)
  | .listFind _ _ _ => return (none, sys)
  | .listDelete list => do
    listDelete (sys.seqs.seq list) (sys.lists.val list)
    return (none, { sys with lists := sys.lists.remove list })
  | .mapNew cMalloc seed => do
    match ← mapNewFlags (cMallocFlags cMalloc) seed node with
    | none => return (none, sys)
    | some map => return (some sys.next, { sys with
        next := sys.next + 1
        maps := sys.maps.put sys.next map })
  | .mapFindp _ _ _ _ => return (none, sys)
  | .mapAddp map mem val len key => do
    let r ← mapAddp hashFn mem (sys.maps.val map) val len key
    return (none, { sys with maps := sys.maps.put map r.2 })
  | .mapRemove map miter => do
    let r ← mapRemove (sys.maps.val map) miter
    return (none, { sys with maps := sys.maps.put map r.2.2 })
  | .mapDiscard map => do
    let r ← mapDiscard (sys.maps.val map)
    return (none, { sys with maps := sys.maps.put map r })
  | .mapDelete map => do
    mapDelete (sys.maps.val map)
    return (none, { sys with maps := sys.maps.remove map })

end Traced

/-- What cc_map_newCMalloc and cc_list_newCMalloc have returned after a call. -/
def ContainerCall.plain (plain : Finset Nat) (made : Option Nat) : ContainerCall α V → Finset Nat
  | listNew true | mapNew true _ => plain ∪ made.toFinset
  | _ => plain

/-- The call creates a container by newCMalloc, or is made on such ones. -/
def ContainerCall.Plain (plain : Finset Nat) : ContainerCall α V → Prop
  | listNew cMalloc | mapNew cMalloc _ => cMalloc = true
  | call => ∀ id ∈ call.uses, id ∈ plain

/-- The containers and the heap that a program can come to when any allocation may fail. `plain`
names what was created by newCMalloc. -/
inductive ContainersReach (hashFn : UInt32 → List UInt8 → UInt32) (node : IterPtr → MapNode V) :
    Finset Nat → Containers α V → TracedHeap → Prop
  | new (data : IterPtr → α) (grants : Nat → Bool) (stale : Nat → Nat → Option IterPtr) :
      ContainersReach hashFn node ∅ (.new data node) (.new grants stale)
  | call {plain : Finset Nat} {sys sys' : Containers α V} {s s' : TracedHeap} {made : Option Nat}
      (c : ContainerCall α V) : ContainersReach hashFn node plain sys s → c.Legal sys →
      (Traced.containerCall hashFn node sys c).run s = ((made, sys'), s') →
      ContainersReach hashFn node (c.plain plain made) sys' s'

end LibCC
