import LibCC.ListRuns

/-! Threads that call cc_list on lists of their own and share the iter pool.
A step is one critical section of the pool, or what a thread does between two
of them, where it reads and writes only the lists that it uses. -/

namespace LibCC

open DoublyLinked SequenceFamily

/-- Where a thread stands in a list function that needs the mutex of the pool: before
cc_listPool_get, after it, or before the mutex in cc_listPool_put. -/
inductive ListPc (ι α : Type)
  | idle
  | getting (list : ι) (prev next : Option IterPtr) (data : α)
  | adding (list : ι) (prev next : Option IterPtr) (data : α) (self : Option IterPtr)
  | putting (list : ι) (iters tail : IterPtr) (count : Nat)
  deriving DecidableEq

structure ListSys (τ ι α : Type) where
  store : ListStore ι α
  live : Finset ι
  pc : τ → ListPc ι α

variable {τ ι α : Type}

/-- The list of the function that the thread is in. -/
def ListPc.list? : ListPc ι α → Option ι
  | idle => none
  | getting list _ _ _ => some list
  | adding list _ _ _ _ => some list
  | putting list _ _ _ => some list

def ListSys.new : ListSys τ ι α where
  store := ListStore.new 0
  live := ∅
  pc _ := .idle

/-- The list is allocated and no thread is in a function that uses it. -/
def ListSys.Available (s : ListSys τ ι α) (list : ι) : Prop :=
  list ∈ s.live ∧ ∀ t, (s.pc t).list? ≠ some list

namespace ListCall

/-- The lists that a call uses. -/
def Uses (σ : ListSeqs ι α) : ListCall ι α → ι → Prop
  | insert self _ _, list | append self _ _, list | remove self _, list | discard self, list
  | move self _ _, list | moven self _ _, list => list = self
  | replace iter _, list => iter ∈ σ.seq list
  | swap fromList toList _ _, list | swapn fromList toList _ _, list =>
    list = fromList ∨ list = toList
  | appendList self src, list | insertList self src, list => list = self ∨ list = src

/-- The list, the neighbours and the data that a call hands to cc_listIter_new. -/
def newIter (st : ListStore ι α) : ListCall ι α → Option (ι × Option IterPtr × Option IterPtr × α)
  | insert self (some iter) data => some (self, st.prev iter, some iter, data)
  | insert self none data => some (self, none, (st.lists self).head, data)
  | append self (some iter) data => some (self, some iter, st.next iter, data)
  | append self none data => some (self, (st.lists self).tail, none, data)
  | _ => none

/-- The call reaches cc_listPool_get. -/
def Gets (st : ListStore ι α) (call : ListCall ι α) (list : ι) (prev next : Option IterPtr)
    (data : α) : Prop :=
  call.newIter st = some (list, prev, next, data) ∧ (st.lists list).iters = none

end ListCall

/-- What the callers keep to: iter arguments are linked in the list they are passed with, and
each list is used by one thread at a time. -/
def ListSys.Permits (s : ListSys τ ι α) (call : ListCall ι α) : Prop :=
  ∃ σ, Represents σ s.store ∧ call.Legal σ ∧ ∀ list, call.Uses σ list → s.Available list

variable [DecidableEq ι]

/-- cc_listIter_new after cc_listPool_get. -/
def listIterNewRest (list : ι) (prev next : Option IterPtr) (data : α) (self : Option IterPtr)
    (st : ListStore ι α) : Option IterPtr × ListStore ι α :=
  match self with
  | none => (none, st)
  | some self =>
    let st := listIterStash list listSetSize (st.next self) st
    let st := listIterAdd self list prev next st
    (some self, st.setData self (some data))

variable [DecidableEq τ]

def ListSys.setPc (s : ListSys τ ι α) (t : τ) (pc : ListPc ι α) : ListSys τ ι α :=
  { s with pc := Function.update s.pc t pc }

/-- The steps of thread `t`. The allocator may fail whenever it is asked for a block. -/
inductive ListStep (s : ListSys τ ι α) (t : τ) : ListSys τ ι α → Prop
  | new (list : ι) : s.pc t = .idle → list ∉ s.live →
      ListStep s t { s with store := listNewFlags 0 list s.store, live := insert list s.live }
  | call (call : ListCall ι α) : s.pc t = .idle → s.Permits call →
      (∀ list prev next data, ¬ call.Gets s.store list prev next data) →
      ListStep s t { s with store := (call.exec none s.store).2 }
  | start (call : ListCall ι α) {list : ι} {prev next : Option IterPtr} {data : α} :
      s.pc t = .idle → s.Permits call → call.Gets s.store list prev next data →
      ListStep s t (s.setPc t (.getting list prev next data))
  | get {list : ι} {prev next : Option IterPtr} {data : α} (alloc : Option Nat) :
      s.pc t = .getting list prev next data →
        (∀ block, alloc = some block → FreshBlock s.store block) →
      ListStep s t ({ s with store := (listPoolGet alloc s.store).2 }.setPc t
        (.adding list prev next data (listPoolGet alloc s.store).1))
  | add {list : ι} {prev next : Option IterPtr} {data : α} {self : Option IterPtr} :
      s.pc t = .adding list prev next data self →
      ListStep s t ({ s with
        store := (listIterNewRest list prev next data self s.store).2 }.setPc t .idle)
  | delete {list : ι} : s.pc t = .idle → s.Available list →
      ((listDeleteIters list s.store).lists list).iters = none →
      ListStep s t { s with
        store := listFree list (listDeleteIters list s.store), live := s.live.erase list }
  | count {list : ι} {iters tail : IterPtr} {count : Nat} : s.pc t = .idle → s.Available list →
      ((listDeleteIters list s.store).lists list).iters = some iters →
      listPoolCount (listBlockSize * s.store.pool.blocks.length) 1 iters
        (listDeleteIters list s.store) = (count, tail) →
      ListStep s t ({ s with store := listDeleteIters list s.store }.setPc t
        (.putting list iters tail count))
  | put {list : ι} {iters tail : IterPtr} {count : Nat} : s.pc t = .putting list iters tail count →
      ListStep s t ({ s with
        store := listFree list (listPoolPutSet iters tail count s.store)
        live := s.live.erase list }.setPc t .idle)

/-- The states that any interleaving of the threads can reach. -/
inductive ListReachable : ListSys τ ι α → Prop
  | new : ListReachable ListSys.new
  | step {s s' : ListSys τ ι α} {t : τ} : ListReachable s → ListStep s t s' → ListReachable s'

omit [DecidableEq τ]

/-- A call that gets to cc_listPool_get is its critical section and the rest. -/
theorem ListCall.exec_gets {st : ListStore ι α} {call : ListCall ι α} {list : ι}
    {prev next : Option IterPtr} {data : α} (alloc : Option Nat)
    (h : call.Gets st list prev next data) (hf : (st.lists list).cMalloc = false) :
    (call.exec alloc st).2 = (listIterNewRest list prev next data (listPoolGet alloc st).1
      (listPoolGet alloc st).2).2 := by
  obtain ⟨hnew, hi⟩ := h
  have hexec : (call.exec alloc st).2 = (listIterNew list prev next data alloc st).2 := by
    cases call with
    | insert self iter data' | append self iter data' =>
      cases iter <;> (obtain ⟨rfl, rfl, rfl, rfl⟩ := hnew; rfl)
    | _ => exact absurd hnew (by simp [ListCall.newIter])
  rw [hexec]
  rcases hget : listPoolGet alloc st with ⟨_ | self, st'⟩ <;>
    simp [listIterNew, listIterAlloc, hf, hi, hget, listIterNewRest]

/-- cc_list_delete is what comes before the mutex, the critical section and FREE. -/
theorem listDelete_sections {st : ListStore ι α} {list : ι} {iters : IterPtr}
    (hf : ((listDeleteIters list st).lists list).cMalloc = false)
    (hi : ((listDeleteIters list st).lists list).iters = some iters) :
    let st' := listDeleteIters list st
    let counted := listPoolCount (listBlockSize * st'.pool.blocks.length) 1 iters st'
    listDelete list st = listFree list (listPoolPutSet iters counted.2 counted.1 st') := by
  simp only [listDelete, hf, hi, listPoolPut]
  rfl

end LibCC
