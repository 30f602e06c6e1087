import LibCC.ListModel
import LibCC.SequenceFamily

/-! What cc_list is for: a family of sequences of iters, each iter with its
data. This is the view of the lists that cc_map and cc_workq are built on. -/

namespace LibCC

open SequenceFamily

structure ListSeqs (ι α : Type) where
  seq : ι → List IterPtr
  data : IterPtr → α

namespace ListSeqs

variable {ι α : Type} [DecidableEq ι]

def empty (data : IterPtr → α) : ListSeqs ι α := ⟨fun _ => [], data⟩

def setSeq (σ : ListSeqs ι α) (list : ι) (l : List IterPtr) : ListSeqs ι α :=
  { σ with seq := Function.update σ.seq list l }

def setData (σ : ListSeqs ι α) (iter : IterPtr) (d : α) : ListSeqs ι α :=
  { σ with data := Function.update σ.data iter d }

@[simp] theorem setSeq_data (σ : ListSeqs ι α) (list : ι) (l : List IterPtr) :
    (σ.setSeq list l).data = σ.data := rfl

@[simp] theorem setSeq_seq (σ : ListSeqs ι α) (list : ι) (l : List IterPtr) :
    (σ.setSeq list l).seq = Function.update σ.seq list l := rfl

omit [DecidableEq ι] in
@[simp] theorem setData_seq (σ : ListSeqs ι α) (iter : IterPtr) (d : α) :
    (σ.setData iter d).seq = σ.seq := rfl

omit [DecidableEq ι] in
@[simp] theorem setData_data (σ : ListSeqs ι α) (iter : IterPtr) (d : α) :
    (σ.setData iter d).data = Function.update σ.data iter d := rfl

@[simp] theorem setSeq_setSeq (σ : ListSeqs ι α) (list : ι) (l l' : List IterPtr) :
    (σ.setSeq list l).setSeq list l' = σ.setSeq list l' := by
  simp [setSeq]

/-- One new element before `pos`, or at the head. -/
def insert (σ : ListSeqs ι α) (list : ι) (pos : Option IterPtr) (new : IterPtr) (d : α) :
    ListSeqs ι α :=
  (σ.setSeq list (insertBefore new pos (σ.seq list))).setData new d

/-- One new element after `pos`, or at the tail. -/
def append (σ : ListSeqs ι α) (list : ι) (pos : Option IterPtr) (new : IterPtr) (d : α) :
    ListSeqs ι α :=
  (σ.setSeq list (insertAfter new pos (σ.seq list))).setData new d

/-- One new element before the first larger one, or at the tail. -/
def insertSorted (σ : ListSeqs ι α) (list : ι) (compare : α → α → Int) (new : IterPtr) (d : α) :
    ListSeqs ι α :=
  match (σ.seq list).find? (fun iter => compare d (σ.data iter) < 0) with
  | some iter => σ.insert list (some iter) new d
  | none => σ.append list none new d

def remove (σ : ListSeqs ι α) (list : ι) (iter : IterPtr) : ListSeqs ι α :=
  σ.setSeq list ((σ.seq list).erase iter)

def discard (σ : ListSeqs ι α) (list : ι) : ListSeqs ι α := σ.setSeq list []

/-- `src` immediately before `dst`, or at the head. -/
def move (σ : ListSeqs ι α) (list : ι) (src : IterPtr) (dst : Option IterPtr) : ListSeqs ι α :=
  if dst = some src then σ
  else σ.setSeq list (insertBefore src dst ((σ.seq list).erase src))

/-- `src` immediately after `dst`, or at the tail. -/
def moven (σ : ListSeqs ι α) (list : ι) (src : IterPtr) (dst : Option IterPtr) : ListSeqs ι α :=
  if dst = some src then σ
  else σ.setSeq list (insertAfter src dst ((σ.seq list).erase src))

def swap (σ : ListSeqs ι α) (fromList toList : ι) (src : IterPtr) (dst : Option IterPtr) :
    ListSeqs ι α :=
  if fromList = toList then σ.move fromList src dst
  else (σ.remove fromList src).setSeq toList (insertBefore src dst (σ.seq toList))

def swapn (σ : ListSeqs ι α) (fromList toList : ι) (src : IterPtr) (dst : Option IterPtr) :
    ListSeqs ι α :=
  if fromList = toList then σ.moven fromList src dst
  else (σ.remove fromList src).setSeq toList (insertAfter src dst (σ.seq toList))

def appendList (σ : ListSeqs ι α) (self src : ι) : ListSeqs ι α :=
  (σ.setSeq self (σ.seq self ++ σ.seq src)).setSeq src []

def insertList (σ : ListSeqs ι α) (self src : ι) : ListSeqs ι α :=
  (σ.setSeq self (σ.seq src ++ σ.seq self)).setSeq src []

end ListSeqs

end LibCC
