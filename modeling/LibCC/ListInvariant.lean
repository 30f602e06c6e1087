import LibCC.DoublyLinked
import LibCC.ListModel
import LibCC.SequenceFamily

/-! The representation invariant of the cc_list heap: where each cell is,
and what the two primitives that relink a cell do to the sequences. -/

namespace LibCC

open DoublyLinked SequenceFamily

/-- Where a cell can be: linked in a list, in a list's private chain of free
iters, or in the pool's chain. -/
inductive ListPlace (ι : Type)
  | linked (list : ι)
  | cached (list : ι)
  | pooled
  deriving DecidableEq

variable {ι α : Type}

/-- The block of `p` is allocated by the family that lists with these flags use. -/
def Owned (flags : Nat) (st : ListStore ι α) (p : IterPtr) : Prop :=
  if flags &&& listFlagCMalloc != 0 then p.index = 0 ∧ p.block ∈ st.callocs
  else p.block ∈ st.pool.blocks

/-- The address of a block that no allocation still holds. -/
def FreshBlock (st : ListStore ι α) (block : Nat) : Prop :=
  block ∉ st.callocs ∧ block ∉ st.pool.blocks

structure Headed (list : CcList) (l : List IterPtr) : Prop where
  head : list.head = l.head?
  tail : list.tail = l.getLast?
  size : list.size = l.length

structure ListInv (flags : Nat) (st : ListStore ι α) (c : ListPlace ι → List IterPtr) : Prop where
  separated : Separated c
  links : ∀ list, Links st.next st.prev none (c (.linked list)) none
  headed : ∀ list, Headed (st.lists list) (c (.linked list))
  sameFlags : ∀ list, (st.lists list).flags = flags
  cached : ∀ list, Follows st.next (st.lists list).iters (c (.cached list))
  pooled : Follows st.next st.pool.iters (c .pooled)
  count : st.pool.count = (c .pooled).length
  owned : ∀ k, ∀ p ∈ c k, Owned flags st p

def Detached (c : ListPlace ι → List IterPtr) (p : IterPtr) : Prop := ∀ k, p ∉ c k

theorem Headed.ne_nil {list : CcList} {l : List IterPtr} (h : Headed list l)
    (hs : list.size ≠ 0) : l ≠ [] := by
  rintro rfl
  exact hs h.size

theorem Headed.eq_nil {list : CcList} {l : List IterPtr} (h : Headed list l)
    (hs : list.size = 0) : l = [] := by
  have hh := h.size
  rw [hs] at hh
  exact List.length_eq_zero_iff.mp (by omega)

theorem Owned.congr {flags : Nat} {st st' : ListStore ι α} {p : IterPtr} (h : Owned flags st p)
    (hc : st'.callocs = st.callocs) (hb : st'.pool.blocks = st.pool.blocks) :
    Owned flags st' p := by
  unfold Owned at *
  rwa [hc, hb]

theorem FreshBlock.detached {flags block : Nat} {st : ListStore ι α}
    {c : ListPlace ι → List IterPtr} (h : FreshBlock st block) (hi : ListInv flags st c)
    (index : Nat) : Detached c ⟨block, index⟩ := by
  intro k hk
  have ho := hi.owned k _ hk
  unfold Owned at ho
  split_ifs at ho
  · exact h.1 ho.2
  · exact h.2 ho

theorem ListInv.setData {flags : Nat} {st : ListStore ι α} {c : ListPlace ι → List IterPtr}
    (h : ListInv flags st c) (p : IterPtr) (v : Option α) : ListInv flags (st.setData p v) c :=
  ⟨h.separated, h.links, h.headed, h.sameFlags, h.cached, h.pooled, h.count, h.owned⟩

@[simp] theorem setNext?_eq (st : ListStore ι α) (o v : Option IterPtr) :
    st.setNext? o v = { st with next := writeAt st.next o v } := by
  cases o <;> rfl

@[simp] theorem setPrev?_eq (st : ListStore ι α) (o v : Option IterPtr) :
    st.setPrev? o v = { st with prev := writeAt st.prev o v } := by
  cases o <;> rfl

section

variable [DecidableEq ι]

/-- What is left to show when one list's sequence changes and every cell in
another place keeps its links. -/
theorem ListInv.relink {flags : Nat} {st st' : ListStore ι α} {c : ListPlace ι → List IterPtr}
    (h : ListInv flags st c) {list : ι} {l : List IterPtr} (hnd : l.Nodup)
    (hl : ∀ p ∈ l, ∀ k, p ∈ c k → k = .linked list) (ho : ∀ p ∈ l, Owned flags st p)
    (hlinks : Links st'.next st'.prev none l none) (hhead : Headed (st'.lists list) l)
    (hframe : ∀ k, k ≠ .linked list → ∀ p ∈ c k, st'.next p = st.next p ∧ st'.prev p = st.prev p)
    (hlists : ∀ m, m ≠ list → st'.lists m = st.lists m)
    (hself : (st'.lists list).flags = (st.lists list).flags ∧
      (st'.lists list).iters = (st.lists list).iters)
    (hpool : st'.pool = st.pool) (hcallocs : st'.callocs = st.callocs) :
    ListInv flags st' (Function.update c (.linked list) l) := by
  have hflags : ∀ m, (st'.lists m).flags = (st.lists m).flags ∧
      (st'.lists m).iters = (st.lists m).iters := by
    intro m
    by_cases hm : m = list
    · rw [hm]; exact hself
    · rw [hlists m hm]; exact ⟨rfl, rfl⟩
  refine ⟨h.separated.update hnd hl, ?_, ?_, ?_, ?_, ?_, ?_, ?_⟩
  · intro m
    by_cases hm : m = list
    · subst hm; simpa using hlinks
    · have hk : ListPlace.linked m ≠ .linked list := fun he => hm (ListPlace.linked.inj he)
      rw [Function.update_of_ne hk]
      exact (h.links m).congr (fun p hp => (hframe _ hk p hp).1) (fun p hp => (hframe _ hk p hp).2)
  · intro m
    by_cases hm : m = list
    · subst hm; simpa using hhead
    · have hk : ListPlace.linked m ≠ .linked list := fun he => hm (ListPlace.linked.inj he)
      rw [Function.update_of_ne hk, hlists m hm]
      exact h.headed m
  · exact fun m => (hflags m).1.trans (h.sameFlags m)
  · intro m
    rw [Function.update_of_ne (by simp), (hflags m).2]
    exact (h.cached m).congr (fun p hp => (hframe _ (by simp) p hp).1)
  · rw [Function.update_of_ne (by simp), hpool]
    exact h.pooled.congr (fun p hp => (hframe _ (by simp) p hp).1)
  · rw [Function.update_of_ne (by simp), hpool]
    exact h.count
  · intro k p hp
    have hown : Owned flags st p := by
      by_cases hk : k = .linked list
      · subst hk; exact ho p (by simpa using hp)
      · exact h.owned k p (by simpa [hk] using hp)
    exact hown.congr hcallocs (by rw [hpool])

theorem listIterRemove_eq {st : ListStore ι α} {list : ι} {x : IterPtr} {a b : List IterPtr}
    (hl : Links st.next st.prev none (a ++ x :: b) none) (hnd : (a ++ x :: b).Nodup)
    (hh : Headed (st.lists list) (a ++ x :: b)) :
    listIterRemove x list st = { st with
      next := Function.update (writeAt st.next a.getLast? b.head?) x none
      prev := Function.update (writeAt st.prev b.head? a.getLast?) x none
      lists := Function.update st.lists list { st.lists list with
        head := (a ++ b).head?, tail := (a ++ b).getLast?, size := (a ++ b).length } } := by
  obtain ⟨hp, hn⟩ := hl.neighbours
  obtain ⟨ha, hb, hdis⟩ := List.nodup_append.mp hnd
  have hxa : x ∉ a := fun hx => hdis x hx x (by simp) rfl
  have hxb := (List.nodup_cons.mp hb).1
  have hn' : writeAt st.next a.getLast? b.head? x = b.head? := by
    rw [writeAt_of_notMem_getLast hxa, hn]
  have hhead : (st.lists list).head = some x ↔ a = [] := by
    rw [hh.head]
    cases a with
    | nil => simp
    | cons y a => simpa using fun he : y = x => hxa (by simp [he])
  have htail : (st.lists list).tail = some x ↔ b = [] := by
    rw [hh.tail]
    cases b using List.reverseRecOn with
    | nil => simp
    | append_singleton b y =>
      simpa [List.getLast?_append, List.getLast?_cons] using fun he : y = x => hxb (by simp [he])
  have hsize : (st.lists list).size - 1 = (a ++ b).length := by
    rw [hh.size]
    simp only [List.length_append, List.length_cons]
    omega
  have hhead' : (if a = [] then b.head? else (st.lists list).head) = (a ++ b).head? := by
    rw [hh.head]
    cases a <;> simp
  have htail' : (if b = [] then a.getLast? else (st.lists list).tail) = (a ++ b).getLast? := by
    rw [hh.tail]
    cases b using List.reverseRecOn <;> simp [List.getLast?_append, List.getLast?_cons]
  rw [← hhead', ← htail', ← hsize]
  simp only [listIterRemove, setNext?_eq, setPrev?_eq, hp, hn, hn', ListStore.setNext,
    ListStore.setPrev, ListStore.setList, hhead]
  by_cases hae : a = [] <;> by_cases hbe : b = [] <;>
    simp [hae, hbe, hp, htail]

theorem listIterRemove_next {st : ListStore ι α} {list : ι} {x p : IterPtr} {a b : List IterPtr}
    (hl : Links st.next st.prev none (a ++ x :: b) none) (hnd : (a ++ x :: b).Nodup)
    (hh : Headed (st.lists list) (a ++ x :: b)) (hp : p ∉ a ++ x :: b) :
    (listIterRemove x list st).next p = st.next p := by
  have hpa : p ∉ a := fun hm => hp (List.mem_append_left _ hm)
  have hpx : p ≠ x := fun he => hp (by simp [he])
  rw [listIterRemove_eq hl hnd hh]
  show Function.update (writeAt st.next a.getLast? b.head?) x none p = st.next p
  rw [Function.update_of_ne hpx, writeAt_of_notMem_getLast hpa]

theorem listIterAdd_eq {st : ListStore ι α} {list : ι} {a b : List IterPtr} (x : IterPtr)
    (hh : Headed (st.lists list) (a ++ b)) :
    listIterAdd x list a.getLast? b.head? st = { st with
      next := writeAt (Function.update st.next x b.head?) a.getLast? (some x)
      prev := writeAt (Function.update st.prev x a.getLast?) b.head? (some x)
      lists := Function.update st.lists list { st.lists list with
        head := (a ++ x :: b).head?, tail := (a ++ x :: b).getLast?,
        size := (a ++ x :: b).length } } := by
  have hsize : (st.lists list).size + 1 = (a ++ x :: b).length := by
    rw [hh.size]
    simp only [List.length_append, List.length_cons]
    omega
  have hhead : (if a = [] then some x else (st.lists list).head) = (a ++ x :: b).head? := by
    rw [hh.head]
    cases a <;> simp
  have htail : (if b = [] then some x else (st.lists list).tail) = (a ++ x :: b).getLast? := by
    rw [hh.tail]
    cases b using List.reverseRecOn <;> simp [List.getLast?_append, List.getLast?_cons]
  rw [← hsize, ← hhead, ← htail]
  simp only [listIterAdd, setNext?_eq, setPrev?_eq, ListStore.setNext, ListStore.setPrev,
    ListStore.setList]
  by_cases hae : a = [] <;> by_cases hbe : b = [] <;> simp [hae, hbe]

theorem listIterAdd_next {st : ListStore ι α} {list : ι} {a b : List IterPtr} {x p : IterPtr}
    (hh : Headed (st.lists list) (a ++ b)) (hp : p ∉ a ++ x :: b) :
    (listIterAdd x list a.getLast? b.head? st).next p = st.next p := by
  have hpa : p ∉ a := fun hm => hp (List.mem_append_left _ hm)
  have hpx : p ≠ x := fun he => hp (by simp [he])
  rw [listIterAdd_eq x hh]
  show writeAt (Function.update st.next x b.head?) a.getLast? (some x) p = st.next p
  rw [writeAt_of_notMem_getLast hpa, Function.update_of_ne hpx]

theorem listIterRemove_inv {flags : Nat} {st : ListStore ι α} {c : ListPlace ι → List IterPtr}
    (h : ListInv flags st c) {list : ι} {x : IterPtr} {a b : List IterPtr}
    (hc : c (.linked list) = a ++ x :: b) :
    ListInv flags (listIterRemove x list st) (Function.update c (.linked list) (a ++ b)) ∧
      Detached (Function.update c (.linked list) (a ++ b)) x ∧
      (listIterRemove x list st).data = st.data ∧ (listIterRemove x list st).pool = st.pool ∧
      (listIterRemove x list st).callocs = st.callocs := by
  have hl := h.links list
  have hnd := h.separated.1 (.linked list)
  have hh := h.headed list
  rw [hc] at hl hnd hh
  have hx : x ∈ c (.linked list) := by simp [hc]
  obtain ⟨ha, hb, hdis⟩ := List.nodup_append.mp hnd
  have hxab : x ∉ a ++ b := by
    rw [List.mem_append]
    rintro (hxa | hxb)
    · exact hdis x hxa x (by simp) rfl
    · exact (List.nodup_cons.mp hb).1 hxb
  have hsub : a ++ b ⊆ c (.linked list) := by
    intro p hp
    rw [hc]
    rcases List.mem_append.mp hp with hp | hp <;> simp [hp]
  have hab : (a ++ b).Nodup :=
    hnd.sublist ((List.sublist_cons_self x b).append_left a)
  rw [listIterRemove_eq hl hnd hh]
  refine ⟨?_, ?_, rfl, rfl, rfl⟩
  · refine h.relink hab (fun p hp k hk => h.separated.2 _ _ p hk (hsub hp))
      (fun p hp => h.owned _ p (hsub hp)) ?_ ⟨by simp, by simp, by simp⟩ ?_
      (fun m hm => Function.update_of_ne hm _ _) (by simp) rfl rfl
    · refine (hl.erase hnd).congr (fun p hp => ?_) (fun p hp => ?_) <;>
        exact Function.update_of_ne (ne_of_mem_of_not_mem hp hxab) _ _
    · intro k hk p hp
      have hpl : p ∉ c (.linked list) := h.separated.notMem hp hk
      have hpx : p ≠ x := fun he => hpl (he ▸ hx)
      have hpa : p ∉ a := fun hm => hpl (by simp [hc, hm])
      have hpb : p ∉ b := fun hm => hpl (by simp [hc, hm])
      simp only [Function.update_of_ne hpx]
      exact ⟨writeAt_of_notMem_getLast hpa, writeAt_of_notMem_head hpb⟩
  · intro k hk
    by_cases he : k = .linked list
    · subst he; exact hxab (by simpa using hk)
    · rw [Function.update_of_ne he] at hk
      exact h.separated.notMem hx (Ne.symm he) hk

theorem listIterAdd_inv {flags : Nat} {st : ListStore ι α} {c : ListPlace ι → List IterPtr}
    (h : ListInv flags st c) {list : ι} {x : IterPtr} {a b : List IterPtr}
    (hc : c (.linked list) = a ++ b) (hx : Detached c x) (ho : Owned flags st x) :
    ListInv flags (listIterAdd x list a.getLast? b.head? st)
        (Function.update c (.linked list) (a ++ x :: b)) ∧
      (listIterAdd x list a.getLast? b.head? st).data = st.data ∧
      (listIterAdd x list a.getLast? b.head? st).pool = st.pool ∧
      (listIterAdd x list a.getLast? b.head? st).callocs = st.callocs := by
  have hl := h.links list
  have hnd := h.separated.1 (.linked list)
  have hh := h.headed list
  rw [hc] at hl hnd hh
  have hxab : x ∉ a ++ b := hc ▸ hx (.linked list)
  have hmem : ∀ p ∈ a ++ x :: b, p = x ∨ p ∈ c (.linked list) := by
    intro p hp
    rw [hc]
    simpa [or_left_comm] using hp
  rw [listIterAdd_eq x hh]
  refine ⟨h.relink ?_ ?_ ?_ (hl.insert hnd hxab) ⟨by simp, by simp, by simp⟩ ?_
    (fun m hm => Function.update_of_ne hm _ _) (by simp) rfl rfl, rfl, rfl, rfl⟩
  · exact (List.perm_middle.nodup_iff).mpr (List.nodup_cons.mpr ⟨hxab, hnd⟩)
  · intro p hp k hk
    rcases hmem p hp with rfl | hp
    · exact absurd hk (hx k)
    · exact h.separated.2 _ _ p hk hp
  · intro p hp
    rcases hmem p hp with rfl | hp
    · exact ho
    · exact h.owned _ p hp
  · intro k hk p hp
    have hpl : p ∉ c (.linked list) := h.separated.notMem hp hk
    have hpx : p ≠ x := fun he => hx k (he ▸ hp)
    have hpa : p ∉ a := fun hm => hpl (by simp [hc, hm])
    have hpb : p ∉ b := fun hm => hpl (by simp [hc, hm])
    simp only [writeAt_of_notMem_getLast hpa, writeAt_of_notMem_head hpb,
      Function.update_of_ne hpx, and_self]

/-- Moving is removing and adding, since the list has another cell. -/
theorem listIterMove_eq {st : ListStore ι α} {list : ι} {x : IterPtr} {p n : Option IterPtr}
    (hpn : ¬ (p = none ∧ n = none))
    (hx : ¬ ((st.lists list).head = some x ∧ (st.lists list).tail = some x)) :
    listIterMove x list p n st = listIterAdd x list p n (listIterRemove x list st) := by
  simp only [listIterMove, listIterAdd, listIterRemove, setNext?_eq, setPrev?_eq,
    ListStore.setNext, ListStore.setPrev, ListStore.setList]
  by_cases hh : (st.lists list).head = some x <;> by_cases ht : (st.lists list).tail = some x <;>
    by_cases hp : p = none <;> by_cases hn : n = none <;> simp_all

end

end LibCC
