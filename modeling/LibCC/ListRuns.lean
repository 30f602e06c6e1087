import LibCC.ListRefinement

/-! Runs of list calls. Each call is paired with what the sequences of the
lists become and with what it returns. -/

namespace LibCC

open DoublyLinked SequenceFamily

inductive ListCall (ι α : Type)
  | insert (self : ι) (iter : Option IterPtr) (data : α)
  | append (self : ι) (iter : Option IterPtr) (data : α)
  | replace (iter : IterPtr) (data : α)
  | remove (self : ι) (iter : IterPtr)
  | discard (self : ι)
  | move (self : ι) (src : IterPtr) (dst : Option IterPtr)
  | moven (self : ι) (src : IterPtr) (dst : Option IterPtr)
  | swap (fromList toList : ι) (src : IterPtr) (dst : Option IterPtr)
  | swapn (fromList toList : ι) (src : IterPtr) (dst : Option IterPtr)
  | appendList (self src : ι)
  | insertList (self src : ι)
  deriving DecidableEq

inductive ListResult (α : Type)
  | void
  | iter (new : Option IterPtr)
  | data (former : Option α)
  | removed (data : Option α) (next : Option IterPtr)
  deriving DecidableEq

namespace ListCall

variable {ι α : Type}

/-- Iterator arguments are members of the list they are passed with, and the
two lists of a concatenation are distinct. -/
def Legal (σ : ListSeqs ι α) : ListCall ι α → Prop
  | insert self iter _ | append self iter _ => ∀ p, iter = some p → p ∈ σ.seq self
  | replace iter _ => ∃ list, iter ∈ σ.seq list
  | remove self iter => iter ∈ σ.seq self
  | discard _ => True
  | move self src dst | moven self src dst =>
    src ∈ σ.seq self ∧ ∀ p, dst = some p → p ∈ σ.seq self
  | swap fromList toList src dst | swapn fromList toList src dst =>
    src ∈ σ.seq fromList ∧ ∀ p, dst = some p → p ∈ σ.seq toList
  | appendList self src | insertList self src => self ≠ src

variable [DecidableEq ι]

/-- The code. `alloc` is the block that the allocator returns if it is asked. -/
def exec (alloc : Option Nat) (st : ListStore ι α) :
    ListCall ι α → ListResult α × ListStore ι α
  | insert self iter data => let r := listInsert self iter data alloc st; (.iter r.1, r.2)
  | append self iter data => let r := listAppend self iter data alloc st; (.iter r.1, r.2)
  | replace iter data => let r := listReplace iter data st; (.data r.1, r.2)
  | remove self iter => let r := listRemove self iter st; (.removed r.1 r.2.1, r.2.2)
  | discard self => (.void, listDiscard self st)
  | move self src dst => (.void, listMove self src dst st)
  | moven self src dst => (.void, listMoven self src dst st)
  | swap fromList toList src dst => (.void, listSwap fromList toList src dst st)
  | swapn fromList toList src dst => (.void, listSwapn fromList toList src dst st)
  | appendList self src => (.void, listAppendList self src st)
  | insertList self src => (.void, listInsertList self src st)

/-- What the call is named for. A new element has the iter that the call
returned. -/
def spec (σ : ListSeqs ι α) (r : ListResult α) : ListCall ι α → ListSeqs ι α
  | insert self iter data =>
    match r with
    | .iter (some new) => σ.insert self iter new data
    | _ => σ
  | append self iter data =>
    match r with
    | .iter (some new) => σ.append self iter new data
    | _ => σ
  | replace iter data => σ.setData iter data
  | remove self iter => σ.remove self iter
  | discard self => σ.discard self
  | move self src dst => σ.move self src dst
  | moven self src dst => σ.moven self src dst
  | swap fromList toList src dst => σ.swap fromList toList src dst
  | swapn fromList toList src dst => σ.swapn fromList toList src dst
  | appendList self src => σ.appendList self src
  | insertList self src => σ.insertList self src

/-- What the call may return: a new iter is in no list yet, a removal yields
the element's data and the iter that followed it. -/
def Returns (σ : ListSeqs ι α) (r : ListResult α) : ListCall ι α → Prop
  | insert _ _ _ | append _ _ _ => ∃ new, r = .iter (some new) ∧ ∀ list, new ∉ σ.seq list
  | replace iter _ => r = .data (some (σ.data iter))
  | remove self iter => r = .removed (some (σ.data iter)) (after iter (σ.seq self)).head?
  | discard _ | move _ _ _ | moven _ _ _ | swap _ _ _ _ | swapn _ _ _ _ | appendList _ _
  | insertList _ _ => r = .void

end ListCall

variable {ι α : Type} [DecidableEq ι]

/-- The stores that a program can reach from new lists with these flags when
no allocation fails, with the sequences its calls have described. -/
inductive ListReach (flags : Nat) : ListSeqs ι α → ListStore ι α → Prop
  | new (data : IterPtr → α) : ListReach flags (ListSeqs.empty data) (ListStore.new flags)
  | step {σ : ListSeqs ι α} {st : ListStore ι α} (call : ListCall ι α) {block : Nat} :
      ListReach flags σ st → call.Legal σ → FreshBlock st block →
      ListReach flags (call.spec σ (call.exec (some block) st).1) (call.exec (some block) st).2

theorem ListCall.exec_rep {flags block : Nat} {σ : ListSeqs ι α} {st : ListStore ι α}
    (h : Rep flags σ st) (call : ListCall ι α) (hl : call.Legal σ) (hf : FreshBlock st block) :
    call.Returns σ (call.exec (some block) st).1 ∧
      Rep flags (call.spec σ (call.exec (some block) st).1) (call.exec (some block) st).2 := by
  obtain ⟨e, ha⟩ := h.at
  cases call with
  | insert self iter data =>
    obtain ⟨new, st', he, hn, hr⟩ := listInsert_rep h hf self hl data
    simp only [ListCall.exec, he]
    exact ⟨⟨new, rfl, hn⟩, hr⟩
  | append self iter data =>
    obtain ⟨new, st', he, hn, hr⟩ := listAppend_rep h hf self hl data
    simp only [ListCall.exec, he]
    exact ⟨⟨new, rfl, hn⟩, hr⟩
  | replace iter data =>
    obtain ⟨list, hm⟩ := hl
    obtain ⟨hd, hr⟩ := listReplace_rep ha hm data
    exact ⟨congrArg ListResult.data hd, hr.rep⟩
  | remove self iter =>
    obtain ⟨st', he, hr⟩ := listRemove_rep ha hl
    simp only [ListCall.exec, he]
    exact ⟨rfl, hr.rep⟩
  | discard self => exact ⟨rfl, (listDiscard_rep ha self).rep⟩
  | move self src dst => exact ⟨rfl, (listMove_rep ha hl.1 hl.2).rep⟩
  | moven self src dst => exact ⟨rfl, (listMoven_rep ha hl.1 hl.2).rep⟩
  | swap fromList toList src dst => exact ⟨rfl, (listSwap_rep ha hl.1 hl.2).rep⟩
  | swapn fromList toList src dst => exact ⟨rfl, (listSwapn_rep ha hl.1 hl.2).rep⟩
  | appendList self src => exact ⟨rfl, (listAppendList_rep ha hl).rep⟩
  | insertList self src => exact ⟨rfl, (listInsertList_rep ha hl).rep⟩

theorem ListReach.rep {flags : Nat} {σ : ListSeqs ι α} {st : ListStore ι α}
    (h : ListReach flags σ st) : Rep flags σ st := by
  induction h with
  | new data => exact Rep.new flags data
  | step call _ hl hf ih => exact (call.exec_rep ih hl hf).2

end LibCC
