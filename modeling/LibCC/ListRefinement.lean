import LibCC.ListPool
import LibCC.ListSequences

/-! The pointer code of cc_list.c computes the operations on sequences, for
any number of lists with equal flags and any order of calls. -/

namespace LibCC

open DoublyLinked SequenceFamily

variable {ι α : Type}

/-- What a caller can see of the lists: both directions of links, the sizes,
and the data, with every iter in one place only. -/
structure Represents (σ : ListSeqs ι α) (st : ListStore ι α) : Prop where
  forward : ∀ list, Follows st.next (st.lists list).head (σ.seq list)
  backward : ∀ list, Follows st.prev (st.lists list).tail (σ.seq list).reverse
  size : ∀ list, (st.lists list).size = (σ.seq list).length
  separated : Separated σ.seq
  data : ∀ list, ∀ p ∈ σ.seq list, st.data p = some (σ.data p)

/-- The heap invariant holds with the lists at the sequences of `σ`. -/
def Rep (flags : Nat) (σ : ListSeqs ι α) (st : ListStore ι α) : Prop :=
  ∃ c, ListInv flags st c ∧ (∀ list, c (.linked list) = σ.seq list) ∧
    ∀ list, ∀ p ∈ σ.seq list, st.data p = some (σ.data p)

theorem Rep.represents {flags : Nat} {σ : ListSeqs ι α} {st : ListStore ι α}
    (h : Rep flags σ st) : Represents σ st := by
  obtain ⟨c, hi, hc, hd⟩ := h
  have hseq : σ.seq = fun list => c (.linked list) := funext fun list => (hc list).symm
  refine ⟨fun list => ?_, fun list => ?_, fun list => ?_, ?_, hd⟩
  · rw [← hc, (hi.headed list).head]
    exact (hi.links list).follows_next
  · rw [← hc, (hi.headed list).tail]
    exact (hi.links list).follows_prev
  · rw [← hc]
    exact (hi.headed list).size
  · rw [hseq]
    exact hi.separated.comp (fun _ _ he => ListPlace.linked.inj he)

theorem Rep.new (flags : Nat) (data : IterPtr → α) :
    Rep flags (⟨fun _ => [], data⟩ : ListSeqs ι α) (ListStore.new flags) := by
  refine ⟨fun _ => [], ⟨⟨fun _ => List.nodup_nil, by simp⟩, fun _ => trivial,
    fun _ => ⟨rfl, rfl, rfl⟩, fun _ => rfl, fun _ => rfl, rfl, rfl, by simp⟩, fun _ => rfl, by simp⟩

/-- What the sequences leave out: the private chains of free iters, the pool and its chain, and
the link of every cell that is in no place. -/
structure ListSpare (ι : Type) where
  cache : ι → List IterPtr
  free : List IterPtr
  pool : ListPool
  link : IterPtr → Option IterPtr

def ListSpare.cells (e : ListSpare ι) (σ : ListSeqs ι α) : ListPlace ι → List IterPtr
  | .linked list => σ.seq list
  | .cached list => e.cache list
  | .pooled => e.free

/-- `Rep` with the rest of the heap as in `e`. -/
structure RepAt (flags : Nat) (e : ListSpare ι) (σ : ListSeqs ι α) (st : ListStore ι α) : Prop where
  inv : ListInv flags st (e.cells σ)
  data : ∀ list, ∀ p ∈ σ.seq list, st.data p = some (σ.data p)
  pool : st.pool = e.pool
  link : (flags &&& listFlagCMalloc != 0) = false →
    ∀ p, Detached (e.cells σ) p → st.next p = e.link p

/-- As `RepAt`, with `x` taken out and held by the running operation. -/
structure RepHeld (flags : Nat) (e : ListSpare ι) (σ : ListSeqs ι α) (st : ListStore ι α)
    (x : IterPtr) : Prop where
  inv : ListInv flags st (e.cells σ)
  data : ∀ list, ∀ p ∈ σ.seq list, st.data p = some (σ.data p)
  pool : st.pool = e.pool
  link : (flags &&& listFlagCMalloc != 0) = false →
    ∀ p, Detached (e.cells σ) p → p ≠ x → st.next p = e.link p
  detached : Detached (e.cells σ) x
  owned : Owned flags st x

section

variable {flags : Nat} {e : ListSpare ι} {σ : ListSeqs ι α} {st : ListStore ι α}

theorem cells_eq {c : ListPlace ι → List IterPtr} (hl : ∀ list, c (.linked list) = σ.seq list)
    (hc : ∀ list, c (.cached list) = e.cache list) (hp : c .pooled = e.free) : c = e.cells σ := by
  funext k
  cases k with
  | linked list => exact hl list
  | cached list => exact hc list
  | pooled => exact hp

theorem Rep.at (h : Rep flags σ st) : ∃ e, RepAt flags e σ st := by
  obtain ⟨c, hi, hc, hd⟩ := h
  let e : ListSpare ι := ⟨fun list => c (.cached list), c .pooled, st.pool, st.next⟩
  have he : c = e.cells σ := cells_eq hc (fun _ => rfl) rfl
  exact ⟨e, he ▸ hi, hd, rfl, fun _ _ _ => rfl⟩

theorem RepAt.rep (h : RepAt flags e σ st) : Rep flags σ st :=
  ⟨e.cells σ, h.inv, fun _ => rfl, h.data⟩

theorem RepAt.links (h : RepAt flags e σ st) (list : ι) :
    Links st.next st.prev none (σ.seq list) none ∧ (σ.seq list).Nodup ∧
      Headed (st.lists list) (σ.seq list) :=
  ⟨h.inv.links list, h.inv.separated.1 (.linked list), h.inv.headed list⟩

theorem RepHeld.links {x : IterPtr} (h : RepHeld flags e σ st x) (list : ι) :
    Links st.next st.prev none (σ.seq list) none ∧ Headed (st.lists list) (σ.seq list) :=
  ⟨h.inv.links list, h.inv.headed list⟩

theorem cells_setData (e : ListSpare ι) (σ : ListSeqs ι α) (p : IterPtr) (d : α) :
    e.cells (σ.setData p d) = e.cells σ := cells_eq (fun _ => rfl) (fun _ => rfl) rfl

theorem Detached.of_update [DecidableEq ι] {c : ListPlace ι → List IterPtr} {k : ListPlace ι}
    {l : List IterPtr} {p : IterPtr} (h : Detached (Function.update c k l) p) (hp : p ∉ c k) :
    Detached c p := by
  intro k' hk'
  by_cases he : k' = k
  · exact hp (he ▸ hk')
  · exact h k' (by rwa [Function.update_of_ne he])

end

section

variable [DecidableEq ι] {flags : Nat} {e : ListSpare ι} {σ : ListSeqs ι α} {st : ListStore ι α}

theorem cells_setSeq (e : ListSpare ι) (σ : ListSeqs ι α) (list : ι) (l : List IterPtr) :
    Function.update (e.cells σ) (.linked list) l = e.cells (σ.setSeq list l) := by
  refine cells_eq (fun m => ?_) (fun m => ?_) ?_
  · by_cases hm : m = list
    · subst hm; simp
    · have hk : ListPlace.linked m ≠ .linked list := fun he => hm (ListPlace.linked.inj he)
      rw [Function.update_of_ne hk, ListSeqs.setSeq_seq, Function.update_of_ne hm]
      rfl
  · exact Function.update_of_ne (by simp) _ _
  · exact Function.update_of_ne (by simp) _ _

/-- The new cells of `l` lead the private chain of `list`, where lists have one. -/
def ListSpare.recache (flags : Nat) (e : ListSpare ι) (list : ι) (l : List IterPtr) :
    ListSpare ι :=
  if flags &&& listFlagCMalloc != 0 then e
  else { e with cache := Function.update e.cache list (l ++ e.cache list) }

theorem recache_nil (e : ListSpare ι) (list : ι) : e.recache flags list [] = e := by
  unfold ListSpare.recache
  split_ifs
  · rfl
  · rw [List.nil_append, Function.update_eq_self]

theorem recache_recache (e : ListSpare ι) (list : ι) (l l' : List IterPtr) :
    (e.recache flags list l).recache flags list l' = e.recache flags list (l' ++ l) := by
  unfold ListSpare.recache
  split_ifs
  · rfl
  · simp

theorem cells_cache (e : ListSpare ι) (σ : ListSeqs ι α) (list : ι) (l : List IterPtr) :
    Function.update (e.cells σ) (.cached list) l =
      ListSpare.cells { e with cache := Function.update e.cache list l } σ := by
  refine cells_eq (fun m => ?_) (fun m => ?_) ?_
  · exact Function.update_of_ne (by simp) _ _
  · by_cases hm : m = list
    · subst hm; simp
    · have hk : ListPlace.cached m ≠ .cached list := fun he => hm (ListPlace.cached.inj he)
      rw [Function.update_of_ne hk]
      exact (Function.update_of_ne hm l e.cache).symm
  · exact Function.update_of_ne (by simp) _ _

theorem listIterRemove_rep (h : RepAt flags e σ st) {list : ι} {x : IterPtr}
    (hx : x ∈ σ.seq list) : RepHeld flags e (σ.remove list x) (listIterRemove x list st) x ∧
      (listIterRemove x list st).data = st.data := by
  obtain ⟨a, b, hl, ha⟩ := split_of_mem hx
  have hcells : Function.update (e.cells σ) (.linked list) (a ++ b) =
      e.cells (σ.remove list x) := by
    rw [cells_setSeq, ListSeqs.remove, hl, erase_split ha]
  obtain ⟨hinv, hdet, hdata, hpool, hcal⟩ :=
    listIterRemove_inv h.inv (show e.cells σ (.linked list) = _ from hl)
  obtain ⟨hlinks, hnd, hh⟩ := h.links list
  rw [hl] at hlinks hnd hh
  rw [hcells] at hinv hdet
  refine ⟨⟨hinv, fun m p hp => ?_, hpool.trans h.pool, fun hf p hp hpx => ?_, hdet,
    (h.inv.owned (.linked list) x hx).congr hcal (by rw [hpool])⟩, hdata⟩
  · rw [hdata]
    refine h.data m p ?_
    by_cases hm : m = list
    · subst hm
      exact List.mem_of_mem_erase (by simpa [ListSeqs.remove] using hp)
    · simpa [ListSeqs.remove, hm] using hp
  · have hpl : p ∉ a ++ x :: b := by
      have hab : p ∉ a ++ b := by
        have hpm := hp (.linked list)
        rw [← hcells, Function.update_self] at hpm
        exact hpm
      simpa [hpx] using hab
    rw [listIterRemove_next hlinks hnd hh hpl]
    refine h.link hf p (Detached.of_update (by rwa [hcells]) ?_)
    exact fun hm => hpl (hl ▸ hm)

theorem listIterAdd_rep {x : IterPtr} (h : RepHeld flags e σ st x)
    (hd : st.data x = some (σ.data x)) {list : ι} {a b : List IterPtr}
    (hl : σ.seq list = a ++ b) :
    RepAt flags e (σ.setSeq list (a ++ x :: b)) (listIterAdd x list a.getLast? b.head? st) := by
  obtain ⟨hinv, hdata, hpool, -⟩ := listIterAdd_inv h.inv
    (show e.cells σ (.linked list) = _ from hl) h.detached h.owned
  have hh := h.inv.headed list
  rw [show e.cells σ (.linked list) = a ++ b from hl] at hh
  rw [cells_setSeq] at hinv
  refine ⟨hinv, fun m p hp => ?_, hpool.trans h.pool, fun hf p hp => ?_⟩
  · rw [hdata]
    by_cases hm : m = list
    · subst hm
      have hp' : p = x ∨ p ∈ σ.seq m := by
        rw [hl]
        simpa [or_left_comm] using hp
      rcases hp' with rfl | hp'
      · exact hd
      · exact h.data m p hp'
    · exact h.data m p (by simpa [hm] using hp)
  · have hpl : p ∉ a ++ x :: b := by
      have hpm := hp (.linked list)
      rw [← cells_setSeq, Function.update_self] at hpm
      exact hpm
    rw [listIterAdd_next hh hpl]
    refine h.link hf p (Detached.of_update (by rwa [cells_setSeq]) ?_)
      (fun he => hpl (by simp [he]))
    intro hm
    rw [show e.cells σ (.linked list) = a ++ b from hl] at hm
    exact hpl (by rcases List.mem_append.mp hm with hm | hm <;> simp [hm])

theorem listIterAdd_setData (self : IterPtr) (list : ι) (prev next : Option IterPtr) (d : Option α)
    (st : ListStore ι α) : (listIterAdd self list prev next st).setData self d =
      listIterAdd self list prev next (st.setData self d) := by
  cases prev <;> cases next <;> rfl

omit [DecidableEq ι] in
/-- The cell that cc_listIter_new has found, with its data. -/
theorem NewCell.held {st' : ListStore ι α} {c : ListPlace ι → List IterPtr} {self : IterPtr}
    (hn : NewCell flags st st' c (e.cells σ) self) (hc : ∀ list, c (.linked list) = σ.seq list)
    (hd : ∀ list, ∀ p ∈ σ.seq list, st.data p = some (σ.data p)) (hp : st'.pool = e.pool)
    (hl : (flags &&& listFlagCMalloc != 0) = false →
      ∀ p, Detached (e.cells σ) p → p ≠ self → st'.next p = e.link p) (d : α) :
    RepHeld flags e (σ.setData self d) (st'.setData self (some d)) self := by
  have hself : ∀ m, self ∉ σ.seq m := fun m => hn.detached (.linked m)
  refine ⟨?_, fun m p hpm => ?_, hp, ?_, ?_, hn.owned.congr rfl rfl⟩
  · rw [cells_setData]
    exact hn.inv.setData self (some d)
  · have hne : p ≠ self := ne_of_mem_of_not_mem hpm (hself m)
    show Function.update st'.data self (some d) p = some (Function.update σ.data self d p)
    rw [Function.update_of_ne hne, Function.update_of_ne hne, hn.data m p (by rw [hc]; exact hpm)]
    exact hd m p hpm
  · rw [cells_setData]
    exact hl
  · rw [cells_setData]
    exact hn.detached

theorem listIterNew_rep {block : Nat} (h : Rep flags σ st) (hf : FreshBlock st block) {list : ι}
    {a b : List IterPtr} (hl : σ.seq list = a ++ b) (d : α) :
    ∃ self st', listIterNew list a.getLast? b.head? d (some block) st = (some self, st') ∧
      (∀ m, self ∉ σ.seq m) ∧
      Rep flags ((σ.setSeq list (a ++ self :: b)).setData self d) st' := by
  obtain ⟨c, hi, hc, hd⟩ := h
  obtain ⟨self, st₁, c₁, halloc, hnew⟩ := listIterAlloc_spec hi hf list
  let e : ListSpare ι := ⟨fun list => c₁ (.cached list), c₁ .pooled, st₁.pool, st₁.next⟩
  have hcells : c₁ = e.cells σ :=
    cells_eq (fun m => (hnew.linked m).trans (hc m)) (fun _ => rfl) rfl
  rw [hcells] at hnew
  have hheld := hnew.held hc hd (e := e) rfl (fun _ _ _ _ => rfl) d
  have hadd := listIterAdd_rep hheld (by simp [ListStore.setData]) (show _ = a ++ b from hl)
  refine ⟨self, _, by simp only [listIterNew, halloc]; rfl,
    fun m => hnew.detached (.linked m), ?_⟩
  rw [listIterAdd_setData]
  exact hadd.rep

theorem listInsert_rep {block : Nat} (h : Rep flags σ st) (hf : FreshBlock st block) (self : ι)
    {iter : Option IterPtr} (hiter : ∀ p, iter = some p → p ∈ σ.seq self) (d : α) :
    ∃ new st', listInsert self iter d (some block) st = (some new, st') ∧
      (∀ m, new ∉ σ.seq m) ∧ Rep flags (σ.insert self iter new d) st' := by
  obtain ⟨e, he⟩ := h.at
  obtain ⟨hlinks, -, hh⟩ := he.links self
  cases iter with
  | none =>
    obtain ⟨new, st', he, hn, hr⟩ := listIterNew_rep h hf (a := []) (b := σ.seq self) rfl d
    refine ⟨new, st', ?_, hn, ?_⟩
    · rw [listInsert, hh.head]; exact he
    · simpa only [ListSeqs.insert, insertBefore_none, List.nil_append] using hr
  | some p =>
    obtain ⟨a, b, hl, ha⟩ := split_of_mem (hiter p rfl)
    rw [hl] at hlinks
    obtain ⟨new, st', he, hn, hr⟩ := listIterNew_rep h hf (a := a) (b := p :: b) hl d
    refine ⟨new, st', ?_, hn, ?_⟩
    · rw [listInsert, hlinks.neighbours.1]; exact he
    · simpa only [ListSeqs.insert, hl, insertBefore_split new ha] using hr

theorem listAppend_rep {block : Nat} (h : Rep flags σ st) (hf : FreshBlock st block) (self : ι)
    {iter : Option IterPtr} (hiter : ∀ p, iter = some p → p ∈ σ.seq self) (d : α) :
    ∃ new st', listAppend self iter d (some block) st = (some new, st') ∧
      (∀ m, new ∉ σ.seq m) ∧ Rep flags (σ.append self iter new d) st' := by
  obtain ⟨e, he⟩ := h.at
  obtain ⟨hlinks, -, hh⟩ := he.links self
  cases iter with
  | none =>
    obtain ⟨new, st', he, hn, hr⟩ := listIterNew_rep h hf (a := σ.seq self) (b := [])
      (List.append_nil _).symm d
    refine ⟨new, st', ?_, hn, ?_⟩
    · rw [listAppend, hh.tail]; exact he
    · simpa only [ListSeqs.append, insertAfter_none] using hr
  | some p =>
    obtain ⟨a, b, hl, ha⟩ := split_of_mem (hiter p rfl)
    rw [hl] at hlinks
    have hl' : σ.seq self = (a ++ [p]) ++ b := by simp [hl]
    obtain ⟨new, st', he, hn, hr⟩ := listIterNew_rep h hf hl' d
    refine ⟨new, st', ?_, hn, ?_⟩
    · simpa [listAppend, hlinks.neighbours.2] using he
    · simpa [ListSeqs.append, hl, insertAfter_split new ha] using hr

theorem ListSeqs.setSeq_self (σ : ListSeqs ι α) (list : ι) : σ.setSeq list (σ.seq list) = σ := by
  rw [ListSeqs.setSeq, Function.update_eq_self]

theorem ListSeqs.remove_setSeq (σ : ListSeqs ι α) (list : ι) (x : IterPtr) (l : List IterPtr) :
    (σ.remove list x).setSeq list l = σ.setSeq list l := by
  simp [ListSeqs.remove, ListSeqs.setSeq]

/-- A member of a list with another member is not both its ends. -/
theorem Headed.not_both {list : CcList} {l : List IterPtr} (h : Headed list l) (hnd : l.Nodup)
    {x t : IterPtr} (ht : t ∈ l) (hxt : x ≠ t) : ¬ (list.head = some x ∧ list.tail = some x) := by
  rintro ⟨hh, hl⟩
  rw [h.head] at hh
  rw [h.tail] at hl
  cases l with
  | nil => simp at hh
  | cons y l =>
    obtain rfl : y = x := by simpa using hh
    cases l using List.reverseRecOn with
    | nil => exact hxt (List.mem_singleton.mp ht).symm
    | append_singleton l z =>
      have hz : z = y := by simpa [List.getLast?_cons] using hl
      exact (List.nodup_cons.mp hnd).1 (by simp [hz])

theorem listIterMove_rep (h : RepAt flags e σ st) {list : ι} {x : IterPtr}
    (hx : x ∈ σ.seq list) {u v : List IterPtr}
    (huv : (σ.seq list).erase x = u ++ v) (hne : u ++ v ≠ []) :
    RepAt flags e (σ.setSeq list (u ++ x :: v))
      (listIterMove x list u.getLast? v.head? st) := by
  obtain ⟨-, hnd, hh⟩ := h.links list
  obtain ⟨t, ht⟩ := List.exists_mem_of_ne_nil _ hne
  have htl := hnd.mem_erase_iff.mp (huv ▸ ht)
  rw [listIterMove_eq ?_ (hh.not_both hnd htl.2 htl.1.symm)]
  · have hseq : (σ.remove list x).seq list = u ++ v := by simpa [ListSeqs.remove] using huv
    obtain ⟨hheld, hdata⟩ := listIterRemove_rep h hx
    have hadd := listIterAdd_rep hheld (hdata ▸ h.data list x hx) hseq
    rwa [ListSeqs.remove_setSeq] at hadd
  · rintro ⟨hu, hv⟩
    rw [List.getLast?_eq_none_iff] at hu
    rw [List.head?_eq_none_iff] at hv
    exact hne (by simp [hu, hv])

theorem listMove_some (h : RepAt flags e σ st) {list : ι} {x t : IterPtr}
    (hx : x ∈ σ.seq list) (ht : t ∈ σ.seq list) :
    RepAt flags e (σ.move list x (some t)) (listMove list x (some t) st) := by
  obtain ⟨hlinks, hnd, -⟩ := h.links list
  by_cases hxt : x = t
  · simpa [listMove, ListSeqs.move, hxt] using h
  have hmove : listMove list x (some t) st = if some x = st.prev t then st
      else listIterMove x list (st.prev t) (some t) st := by
    simp [listMove, hxt]
  have hspec : σ.move list x (some t) =
      σ.setSeq list (insertBefore x (some t) ((σ.seq list).erase x)) := by
    simp [ListSeqs.move, Ne.symm hxt]
  rw [hmove, hspec]
  obtain ⟨a, b, c, ⟨hxa, hxb, -⟩, ⟨hta, htb, -⟩, hl | hl⟩ := split_two_of_mem hnd hx ht hxt
  · have hprev : st.prev t = (a ++ x :: b).getLast? := by
      rw [hl] at hlinks
      exact hlinks.neighbours.1
    have herase : (σ.seq list).erase x = (a ++ b) ++ t :: c := by
      rw [hl, List.append_assoc, List.cons_append, erase_split hxa, List.append_assoc]
    rw [hprev, herase, insertBefore_split x (by simp [hta, htb])]
    by_cases hb : b = []
    · subst hb
      have hsame : a ++ [] ++ x :: t :: c = σ.seq list := by simp [hl]
      rw [if_pos (by simp), hsame, ListSeqs.setSeq_self]
      exact h
    · have hlast : (a ++ x :: b).getLast? = (a ++ b).getLast? := by
        simp [List.getLast?_append, List.getLast?_cons, List.getLast?_eq_some_getLast hb]
      have hxlast : x ∉ a ++ b := by simp [hxa, hxb]
      rw [if_neg (fun he => hxlast (List.mem_of_mem_getLast? (hlast ▸ he.symm))), hlast]
      exact listIterMove_rep h hx herase (by simp)
  · have hl' : σ.seq list = a ++ t :: (b ++ x :: c) := by simp [hl]
    have hprev : st.prev t = a.getLast? := by
      rw [hl'] at hlinks
      exact hlinks.neighbours.1
    have hx' : x ∉ a ++ t :: b := by simp [hxa, hxt, hxb]
    have herase : (σ.seq list).erase x = a ++ t :: (b ++ c) := by
      rw [hl, erase_split hx']
      simp
    rw [hprev, herase, insertBefore_split x hta,
      if_neg (fun he => hxa (List.mem_of_mem_getLast? he.symm))]
    exact listIterMove_rep h hx herase (by simp)

theorem listMoven_some (h : RepAt flags e σ st) {list : ι} {x t : IterPtr}
    (hx : x ∈ σ.seq list) (ht : t ∈ σ.seq list) :
    RepAt flags e (σ.moven list x (some t)) (listMoven list x (some t) st) := by
  obtain ⟨hlinks, hnd, -⟩ := h.links list
  by_cases hxt : x = t
  · simpa [listMoven, ListSeqs.moven, hxt] using h
  have hmove : listMoven list x (some t) st = if some x = st.next t then st
      else listIterMove x list (some t) (st.next t) st := by
    simp [listMoven, hxt]
  have hspec : σ.moven list x (some t) =
      σ.setSeq list (insertAfter x (some t) ((σ.seq list).erase x)) := by
    simp [ListSeqs.moven, Ne.symm hxt]
  rw [hmove, hspec]
  obtain ⟨a, b, c, ⟨hxa, hxb, hxc⟩, ⟨hta, htb, -⟩, hl | hl⟩ := split_two_of_mem hnd hx ht hxt
  · have hnext : st.next t = c.head? := by
      rw [hl] at hlinks
      exact hlinks.neighbours.2
    have herase : (σ.seq list).erase x = (a ++ b) ++ t :: c := by
      rw [hl, List.append_assoc, List.cons_append, erase_split hxa, List.append_assoc]
    rw [hnext, herase, insertAfter_split x (by simp [hta, htb]),
      if_neg (fun he => hxc (List.mem_of_mem_head? he.symm))]
    have hh := listIterMove_rep h hx (u := (a ++ b) ++ [t]) (v := c) (by simp [herase]) (by simp)
    simpa using hh
  · have hl' : σ.seq list = a ++ t :: (b ++ x :: c) := by simp [hl]
    have hnext : st.next t = (b ++ x :: c).head? := by
      rw [hl'] at hlinks
      exact hlinks.neighbours.2
    have hx' : x ∉ a ++ t :: b := by simp [hxa, hxt, hxb]
    have herase : (σ.seq list).erase x = a ++ t :: (b ++ c) := by
      rw [hl, erase_split hx']
      simp
    rw [hnext, herase, insertAfter_split x hta]
    cases b with
    | nil =>
      have hsame : a ++ t :: x :: ([] ++ c) = σ.seq list := by simp [hl]
      rw [if_pos (by simp), hsame, ListSeqs.setSeq_self]
      exact h
    | cons y b =>
      have hy : x ≠ y := fun he => hxb (by simp [he])
      rw [if_neg (by simpa using hy)]
      have hh := listIterMove_rep h hx (u := a ++ [t]) (v := y :: b ++ c) (by simp [herase])
        (by simp)
      simpa using hh

theorem listMove_rep (h : RepAt flags e σ st) {list : ι} {x : IterPtr} {dst : Option IterPtr}
    (hx : x ∈ σ.seq list)
    (hdst : ∀ t, dst = some t → t ∈ σ.seq list) :
    RepAt flags e (σ.move list x dst) (listMove list x dst st) := by
  cases dst with
  | some t => exact listMove_some h hx (hdst t rfl)
  | none =>
    obtain ⟨-, hnd, hh⟩ := h.links list
    obtain ⟨t, l, hl⟩ := List.exists_cons_of_ne_nil (List.ne_nil_of_mem hx)
    have hhead : (st.lists list).head = some t := by rw [hh.head, hl]; rfl
    have hsome := listMove_some h hx (t := t) (by simp [hl])
    have hst : listMove list x none st = listMove list x (some t) st := by
      simp only [listMove, hhead, Option.none_or, Option.some_or]
    have hσ : σ.move list x none = σ.move list x (some t) := by
      by_cases hxt : t = x
      · subst hxt
        have hsame : t :: (σ.seq list).erase t = σ.seq list := by simp [hl]
        simp [ListSeqs.move, hsame, ListSeqs.setSeq_self]
      · have herase : (σ.seq list).erase x = t :: l.erase x := by
          rw [hl, List.erase_cons_tail (by simpa using hxt)]
        simp [ListSeqs.move, hxt, herase, insertBefore]
    rw [hst, hσ]
    exact hsome

theorem listMoven_rep (h : RepAt flags e σ st) {list : ι} {x : IterPtr} {dst : Option IterPtr}
    (hx : x ∈ σ.seq list)
    (hdst : ∀ t, dst = some t → t ∈ σ.seq list) :
    RepAt flags e (σ.moven list x dst) (listMoven list x dst st) := by
  cases dst with
  | some t => exact listMoven_some h hx (hdst t rfl)
  | none =>
    obtain ⟨-, hnd, hh⟩ := h.links list
    obtain ⟨l, t, hl⟩ := (List.eq_nil_or_concat (σ.seq list)).resolve_left (List.ne_nil_of_mem hx)
    rw [List.concat_eq_append] at hl
    have htail : (st.lists list).tail = some t := by rw [hh.tail, hl]; simp
    have hsome := listMoven_some h hx (t := t) (by simp [hl])
    have hst : listMoven list x none st = listMoven list x (some t) st := by
      simp only [listMoven, htail, Option.none_or, Option.some_or]
    have hσ : σ.moven list x none = σ.moven list x (some t) := by
      have htl : t ∉ l := by
        rw [hl] at hnd
        exact fun hm => (List.nodup_append.mp hnd).2.2 t hm t (by simp) rfl
      by_cases hxt : t = x
      · subst hxt
        have hsame : (σ.seq list).erase t ++ [t] = σ.seq list := by
          rw [hl, erase_split htl, List.append_nil]
        simp [ListSeqs.moven, hsame, ListSeqs.setSeq_self]
      · have hxl : x ∈ l := by
          rw [hl] at hx
          simpa [Ne.symm hxt] using hx
        have herase : (σ.seq list).erase x = l.erase x ++ [t] := by
          rw [hl, List.erase_append_left _ hxl]
        have hins :=
          insertAfter_split x (fun hm => htl (List.mem_of_mem_erase hm) : t ∉ l.erase x) []
        simp [ListSeqs.moven, hxt, herase, hins]
    rw [hst, hσ]
    exact hsome

theorem listSwap_rep (h : RepAt flags e σ st) {fromList toList : ι} {x : IterPtr}
    {dst : Option IterPtr}
    (hx : x ∈ σ.seq fromList)
    (hdst : ∀ t, dst = some t → t ∈ σ.seq toList) :
    RepAt flags e (σ.swap fromList toList x dst) (listSwap fromList toList x dst st) := by
  by_cases he : fromList = toList
  · subst he
    simpa [listSwap, ListSeqs.swap] using listMove_rep h hx hdst
  obtain ⟨hrem, hdata⟩ := listIterRemove_rep h hx
  have hheld := hdata ▸ h.data fromList x hx
  obtain ⟨hlinks, hh⟩ := hrem.links toList
  have hseq : (σ.remove fromList x).seq toList = σ.seq toList := by
    simp [ListSeqs.remove, Ne.symm he]
  rw [hseq] at hlinks hh
  rw [listSwap, ListSeqs.swap, if_neg he, if_neg he]
  cases dst with
  | none =>
    have hadd := listIterAdd_rep hrem hheld (a := []) (b := σ.seq toList) hseq
    simp only [insertBefore_none, hh.head]
    exact hadd
  | some t =>
    obtain ⟨u, v, hl, hu⟩ := split_of_mem (hdst t rfl)
    rw [hl] at hlinks
    have hadd := listIterAdd_rep hrem hheld (a := u) (b := t :: v) (hseq.trans hl)
    simp only [hl, insertBefore_split x hu, hlinks.neighbours.1]
    exact hadd

theorem listSwapn_rep (h : RepAt flags e σ st) {fromList toList : ι} {x : IterPtr}
    {dst : Option IterPtr}
    (hx : x ∈ σ.seq fromList)
    (hdst : ∀ t, dst = some t → t ∈ σ.seq toList) :
    RepAt flags e (σ.swapn fromList toList x dst) (listSwapn fromList toList x dst st) := by
  by_cases he : fromList = toList
  · subst he
    simpa [listSwapn, ListSeqs.swapn] using listMoven_rep h hx hdst
  obtain ⟨hrem, hdata⟩ := listIterRemove_rep h hx
  have hheld := hdata ▸ h.data fromList x hx
  obtain ⟨hlinks, hh⟩ := hrem.links toList
  have hseq : (σ.remove fromList x).seq toList = σ.seq toList := by
    simp [ListSeqs.remove, Ne.symm he]
  rw [hseq] at hlinks hh
  rw [listSwapn, ListSeqs.swapn, if_neg he, if_neg he]
  cases dst with
  | none =>
    have hadd := listIterAdd_rep hrem hheld (a := σ.seq toList) (b := [])
      (hseq.trans (List.append_nil _).symm)
    simp only [insertAfter_none, hh.tail]
    exact hadd
  | some t =>
    obtain ⟨u, v, hl, hu⟩ := split_of_mem (hdst t rfl)
    rw [hl] at hlinks
    have hto : (σ.remove fromList x).seq toList = (u ++ [t]) ++ v := by simp [hseq, hl]
    have hadd := listIterAdd_rep hrem hheld hto
    simp only [hl, insertAfter_split x hu, hlinks.neighbours.2]
    simpa using hadd

omit [DecidableEq ι] in
theorem listReplace_rep (h : RepAt flags e σ st) {list : ι} {x : IterPtr} (hx : x ∈ σ.seq list)
    (d : α) : (listReplace x d st).1 = some (σ.data x) ∧
      RepAt flags e (σ.setData x d) (listReplace x d st).2 := by
  refine ⟨h.data list x hx, ?_, fun m p hp => ?_, h.pool, ?_⟩
  · rw [cells_setData]
    exact h.inv.setData x (some d)
  · by_cases hpx : p = x
    · subst hpx; simp [listReplace, ListStore.setData]
    · simpa [listReplace, ListStore.setData, hpx] using h.data m p hp
  · rw [cells_setData]
    exact h.link

omit [DecidableEq ι] in
theorem ListInv.freeCell {c : ListPlace ι → List IterPtr} (h : ListInv flags st c)
    (hm : (flags &&& listFlagCMalloc != 0) = true) {x : IterPtr} (hx : Detached c x)
    (ho : Owned flags st x) : ListInv flags { st with callocs := st.callocs.erase x.block } c := by
  refine ⟨h.separated, h.links, h.headed, h.sameFlags, h.cached, h.pooled, h.count, ?_⟩
  intro k p hp
  have hop := h.owned k p hp
  simp only [Owned, hm, if_true] at ho hop ⊢
  refine ⟨hop.1, (List.mem_erase_of_ne ?_).mpr hop.2⟩
  intro he
  have hpx : p = x := by
    obtain ⟨b, i⟩ := p
    obtain ⟨b', i'⟩ := x
    simp only [IterPtr.mk.injEq]
    exact ⟨he, hop.1.trans ho.1.symm⟩
  exact hx k (hpx ▸ hp)

/-- The held cell goes where cc_listIter_delete puts it. -/
theorem RepHeld.spare {x : IterPtr} (h : RepHeld flags e σ st x) (list : ι) :
    RepAt flags (e.recache flags list [x]) σ
      (if (st.lists list).cMalloc then { st with callocs := st.callocs.erase x.block }
      else (st.setNext x (st.lists list).iters).setList list ({ · with iters := some x })) := by
  have hflags : (st.lists list).cMalloc = (flags &&& listFlagCMalloc != 0) := by
    rw [CcList.cMalloc, h.inv.sameFlags]
  cases hm : (flags &&& listFlagCMalloc != 0) with
  | true =>
    rw [if_pos (hflags.trans hm), ListSpare.recache, if_pos hm]
    refine ⟨h.inv.freeCell hm h.detached h.owned, h.data, h.pool, fun hf => ?_⟩
    exact absurd (hm.symm.trans hf) (by decide)
  | false =>
    rw [if_neg (by rw [hflags, hm]; simp), ListSpare.recache, if_neg (by rw [hm]; simp)]
    have hpush := h.inv.pushCached list h.detached h.owned
    rw [cells_cache] at hpush
    refine ⟨hpush, h.data, h.pool, fun hf p hp => ?_⟩
    have hpc : p ∉ x :: e.cache list := by
      have hpm := hp (.cached list)
      rw [← cells_cache, Function.update_self] at hpm
      exact hpm
    have hpx : p ≠ x := fun he => hpc (by simp [he])
    show Function.update st.next x (st.lists list).iters p = e.link p
    rw [Function.update_of_ne hpx]
    refine h.link hm p (Detached.of_update (by rwa [cells_cache]) ?_) hpx
    exact fun hm => hpc (List.mem_cons_of_mem _ hm)

omit [DecidableEq ι] in
theorem RepHeld.forget {x : IterPtr} (h : RepHeld flags e σ st x) (v : Option α) :
    RepHeld flags e σ (st.setData x v) x := by
  refine ⟨h.inv.setData x v, fun m p hp => ?_, h.pool, h.link, h.detached, h.owned.congr rfl rfl⟩
  show Function.update st.data x v p = _
  rw [Function.update_of_ne (ne_of_mem_of_not_mem hp (h.detached (.linked m)))]
  exact h.data m p hp

theorem listIterRemove_setData (self : IterPtr) (list : ι) (d : Option α) (st : ListStore ι α) :
    (listIterRemove self list st).setData self d =
      listIterRemove self list (st.setData self d) := by
  simp only [listIterRemove, setNext?_eq, setPrev?_eq, ListStore.setNext, ListStore.setPrev,
    ListStore.setList, ListStore.setData]
  split_ifs <;> rfl

theorem listRemove_rep (h : RepAt flags e σ st) {list : ι} {x : IterPtr} (hx : x ∈ σ.seq list) :
    ∃ st', listRemove list x st = (some (σ.data x), (after x (σ.seq list)).head?, st') ∧
      RepAt flags (e.recache flags list [x]) (σ.remove list x) st' := by
  obtain ⟨hlinks, hnd, -⟩ := h.links list
  obtain ⟨a, b, hl, ha⟩ := split_of_mem hx
  have hnext : st.next x = (after x (σ.seq list)).head? := by
    rw [hl] at hlinks ⊢
    rw [hlinks.neighbours.2, after_split ha]
  have hheld := (listIterRemove_rep h hx).1.forget none
  rw [listIterRemove_setData] at hheld
  rw [← hnext, ← h.data list x hx]
  exact ⟨_, rfl, hheld.spare list⟩

theorem listDiscardLoop_rep {n : Nat} (h : RepAt flags e σ st) {list : ι} {l : List IterPtr}
    (hl : σ.seq list = l) (hn : l.length ≤ n) :
    RepAt flags (e.recache flags list l.reverse) (σ.discard list)
      (listDiscardLoop list n l.head? st) := by
  induction l generalizing n σ st e with
  | nil =>
    have hσ : σ.discard list = σ := by
      rw [ListSeqs.discard, ← hl, ListSeqs.setSeq_self]
    rw [List.reverse_nil, recache_nil, hσ]
    cases n <;> exact h
  | cons x l ih =>
    obtain ⟨n, rfl⟩ : ∃ m, n = m + 1 := ⟨n - 1, by simp only [List.length_cons] at hn; omega⟩
    have hx : x ∈ σ.seq list := by simp [hl]
    obtain ⟨st', hrem, hrep⟩ := listRemove_rep h hx
    have hnext : (after x (σ.seq list)).head? = l.head? := by
      rw [hl]
      exact congrArg List.head? (after_split (a := []) (by simp) l)
    have hseq : (σ.remove list x).seq list = l := by simp [ListSeqs.remove, hl]
    have hh := ih hrep hseq (n := n) (by simp only [List.length_cons] at hn; omega)
    have hσ : (σ.remove list x).discard list = σ.discard list := ListSeqs.remove_setSeq _ _ _ _
    rw [hσ, recache_recache, ← List.reverse_cons] at hh
    simpa only [List.head?_cons, listDiscardLoop, hrem, hnext] using hh

theorem listDiscard_rep (h : RepAt flags e σ st) (list : ι) :
    RepAt flags (e.recache flags list (σ.seq list).reverse) (σ.discard list)
      (listDiscard list st) := by
  obtain ⟨-, -, hh⟩ := h.links list
  rw [listDiscard, hh.head, hh.size, Int.toNat_natCast]
  exact listDiscardLoop_rep h rfl le_rfl

/-- All iters of `src` change hands: `self` is linked as `l`, `src` is empty. -/
theorem RepAt.concat {st' : ListStore ι α} (h : RepAt flags e σ st) {self src : ι}
    (hne : self ≠ src) {l : List IterPtr} (hperm : l.Perm (σ.seq self ++ σ.seq src))
    (hlinks : Links st'.next st'.prev none l none)
    (hframe : ∀ p, p ∉ l → st'.next p = st.next p ∧ st'.prev p = st.prev p)
    (hlists : st'.lists = Function.update (Function.update st.lists self { st.lists self with
      head := l.head?, tail := l.getLast?, size := l.length }) src (st.lists src).emptied)
    (hpool : st'.pool = st.pool) (hcal : st'.callocs = st.callocs) (hdata : st'.data = st.data) :
    RepAt flags e ((σ.setSeq self l).setSeq src []) st' := by
  have hi := h.inv
  have hk : ListPlace.linked self ≠ .linked src := fun he => hne (ListPlace.linked.inj he)
  have hmem : ∀ p, p ∈ l ↔ p ∈ e.cells σ (.linked self) ∨ p ∈ e.cells σ (.linked src) := by
    intro p
    rw [hperm.mem_iff, List.mem_append]
    rfl
  let st₁ : ListStore ι α := { st with
    lists := Function.update st.lists src (st.lists src).emptied }
  have hi₁ : ListInv flags st₁ (Function.update (e.cells σ) (.linked src) []) := by
    refine hi.relink List.nodup_nil (by simp) (by simp) trivial ?_ (fun _ _ _ _ => ⟨rfl, rfl⟩)
      (fun m hm => Function.update_of_ne hm _ _) ?_ rfl rfl
    · simp only [st₁, Function.update_self]
      exact ⟨rfl, rfl, rfl⟩
    · simp [st₁, CcList.emptied]
  have hi₂ : ListInv flags st' (Function.update (Function.update (e.cells σ) (.linked src) [])
      (.linked self) l) := by
    refine hi₁.relink ?_ ?_ ?_ hlinks ?_ ?_ ?_ ?_ hpool hcal
    · rw [hperm.nodup_iff]
      exact hi.separated.nodup_append hk
    · intro p hp k hpk
      by_cases hks : k = .linked src
      · simp [hks] at hpk
      · rw [Function.update_of_ne hks] at hpk
        rcases (hmem p).mp hp with hm | hm
        · exact hi.separated.2 _ _ p hpk hm
        · exact absurd (hi.separated.2 _ _ p hpk hm) hks
    · intro p hp
      rcases (hmem p).mp hp with hm | hm
      · exact (hi.owned _ p hm).congr rfl rfl
      · exact (hi.owned _ p hm).congr rfl rfl
    · rw [hlists, Function.update_of_ne hne, Function.update_self]
      exact ⟨rfl, rfl, rfl⟩
    · intro k hks p hp
      refine hframe p (fun hpl => ?_)
      by_cases hke : k = .linked src
      · simp [hke] at hp
      · rw [Function.update_of_ne hke] at hp
        rcases (hmem p).mp hpl with hm | hm
        · exact hks (hi.separated.2 _ _ p hp hm)
        · exact hke (hi.separated.2 _ _ p hp hm)
    · intro m hm
      by_cases hms : m = src
      · subst hms; simp [hlists, st₁]
      · simp [hlists, st₁, hm, hms]
    · simp [hlists, st₁, hne]
  have hcells : Function.update (Function.update (e.cells σ) (.linked src) []) (.linked self) l =
      e.cells ((σ.setSeq self l).setSeq src []) := by
    rw [Function.update_comm hk.symm, cells_setSeq, cells_setSeq]
  rw [hcells] at hi₂
  refine ⟨hi₂, fun m p hp => ?_, hpool.trans h.pool, fun hf p hp => ?_⟩
  · rw [hdata]
    by_cases hms : m = src
    · subst hms; simp at hp
    · by_cases hm : m = self
      · subst hm
        have hpl : p ∈ l := by simpa [hms] using hp
        rcases (hmem p).mp hpl with hp' | hp'
        · exact h.data m p hp'
        · exact h.data src p hp'
      · exact h.data m p (by simpa [hm, hms] using hp)
  · have hpl : p ∉ l := by
      have hpm := hp (.linked self)
      rw [← hcells, Function.update_self] at hpm
      exact hpm
    rw [(hframe p hpl).1]
    refine h.link hf p (Detached.of_update (k := .linked src) (l := []) (Detached.of_update
      (by rwa [hcells]) ?_) ?_)
    · rw [Function.update_of_ne hk]
      exact fun hm => hpl ((hmem p).mpr (.inl hm))
    · exact fun hm => hpl ((hmem p).mpr (.inr hm))

theorem listAppendList_rep (h : RepAt flags e σ st) {self src : ι} (hne : self ≠ src) :
    RepAt flags e (σ.appendList self src) (listAppendList self src st) := by
  obtain ⟨hla, hnda, hha⟩ := h.links self
  obtain ⟨hlb, hndb, hhb⟩ := h.links src
  have hnd : (σ.seq self ++ σ.seq src).Nodup :=
    h.rep.represents.separated.nodup_append hne
  by_cases hb : (st.lists src).size = 0
  · have hσ : σ.appendList self src = σ := by
      rw [ListSeqs.appendList, hhb.eq_nil hb, List.append_nil, ListSeqs.setSeq_self,
        ← hhb.eq_nil hb, ListSeqs.setSeq_self]
    rw [listAppendList, if_pos hb, hσ]
    exact h
  rw [listAppendList, if_neg hb]
  by_cases ha : (st.lists self).size = 0
  · rw [if_pos ha]
    refine h.concat hne (.refl _) ?_ (fun _ _ => ⟨rfl, rfl⟩) ?_ rfl rfl rfl
    · rw [hha.eq_nil ha]
      exact hlb
    · simp only [ListStore.setList, Function.update_of_ne hne.symm, hha.eq_nil ha,
        List.nil_append, hhb.head, hhb.tail, hhb.size]
  · rw [if_neg ha]
    have hsize : (st.lists self).size + (st.lists src).size =
        ((σ.seq self ++ σ.seq src).length : Int) := by
      rw [hha.size, hhb.size, List.length_append]
      omega
    have hane := hha.ne_nil ha
    have hbne := hhb.ne_nil hb
    simp only [setNext?_eq, setPrev?_eq]
    refine h.concat hne (.refl _) ?_ ?_ ?_ rfl rfl rfl
    · simpa [ListStore.setList, hha.tail, hhb.head] using hla.join hlb hnd
    · intro p hp
      rw [List.mem_append, not_or] at hp
      simp only [ListStore.setList, hha.tail, hhb.head]
      exact ⟨writeAt_of_notMem_getLast hp.1, writeAt_of_notMem_head hp.2⟩
    · have hhead : (σ.seq self ++ σ.seq src).head? = (st.lists self).head := by
        rw [hha.head, List.head?_append_of_ne_nil _ hane]
      have htail : (σ.seq self ++ σ.seq src).getLast? = (st.lists src).tail := by
        rw [hhb.tail, List.getLast?_append_of_ne_nil _ hbne]
      rw [hhead, htail, ← hsize]
      simp [ListStore.setList, Function.update_of_ne hne.symm]

theorem listInsertList_rep (h : RepAt flags e σ st) {self src : ι} (hne : self ≠ src) :
    RepAt flags e (σ.insertList self src) (listInsertList self src st) := by
  obtain ⟨hla, hnda, hha⟩ := h.links self
  obtain ⟨hlb, hndb, hhb⟩ := h.links src
  have hnd : (σ.seq src ++ σ.seq self).Nodup :=
    h.rep.represents.separated.nodup_append hne.symm
  by_cases hb : (st.lists src).size = 0
  · have hσ : σ.insertList self src = σ := by
      rw [ListSeqs.insertList, hhb.eq_nil hb, List.nil_append, ListSeqs.setSeq_self,
        ← hhb.eq_nil hb, ListSeqs.setSeq_self]
    rw [listInsertList, if_pos hb, hσ]
    exact h
  rw [listInsertList, if_neg hb]
  by_cases ha : (st.lists self).size = 0
  · rw [if_pos ha]
    refine h.concat hne List.perm_append_comm ?_ (fun _ _ => ⟨rfl, rfl⟩) ?_ rfl rfl rfl
    · rw [hha.eq_nil ha, List.append_nil]
      exact hlb
    · simp only [ListStore.setList, Function.update_of_ne hne.symm, hha.eq_nil ha,
        List.append_nil, hhb.head, hhb.tail, hhb.size]
  · rw [if_neg ha]
    have hsize : (st.lists self).size + (st.lists src).size =
        ((σ.seq src ++ σ.seq self).length : Int) := by
      rw [hha.size, hhb.size, List.length_append]
      omega
    have hane := hha.ne_nil ha
    have hbne := hhb.ne_nil hb
    simp only [setNext?_eq, setPrev?_eq]
    refine h.concat hne List.perm_append_comm ?_ ?_ ?_ rfl rfl rfl
    · simpa [ListStore.setList, hhb.tail, hha.head] using hlb.join hla hnd
    · intro p hp
      rw [List.mem_append, not_or] at hp
      simp only [ListStore.setList, hhb.tail, hha.head]
      exact ⟨writeAt_of_notMem_getLast hp.1, writeAt_of_notMem_head hp.2⟩
    · have hhead : (σ.seq src ++ σ.seq self).head? = (st.lists src).head := by
        rw [hhb.head, List.head?_append_of_ne_nil _ hbne]
      have htail : (σ.seq src ++ σ.seq self).getLast? = (st.lists self).tail := by
        rw [hha.tail, List.getLast?_append_of_ne_nil _ hane]
      rw [hhead, htail, ← hsize]
      simp [ListStore.setList, Function.update_of_ne hne.symm]

end

end LibCC
