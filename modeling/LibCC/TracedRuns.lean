import LibCC.TracedContainers

/-! What the containers of a program hold, call by call, and what the calls on
containers from newCMalloc ask of allocators. -/

namespace LibCC

open AllocEvent FramedProgram SequenceFamily

variable {α V : Type}

namespace Containers

def holds (sys : Containers α V) : Holding :=
  sys.lists.total (fun list header => header.holds (sys.seqs.seq list)) +
    sys.maps.total fun _ map => map.holds

/-- What all but one list hold. -/
def besideList (sys : Containers α V) (list : Nat) : Holding :=
  (sys.lists.remove list).total (fun list header => header.holds (sys.seqs.seq list)) +
    sys.maps.total fun _ map => map.holds

def besideMap (sys : Containers α V) (map : Nat) : Holding :=
  sys.lists.total (fun list header => header.holds (sys.seqs.seq list)) +
    (sys.maps.remove map).total fun _ map => map.holds

variable {sys : Containers α V} {list map : Nat}

theorem holds_list (h : list ∈ sys.lists.keys) :
    sys.holds = (sys.lists.val list).holds (sys.seqs.seq list) + sys.besideList list := by
  rw [holds, FiniteTable.total_split h, besideList, add_assoc]

theorem holds_map (h : map ∈ sys.maps.keys) :
    sys.holds = (sys.maps.val map).holds + sys.besideMap map := by
  rw [holds, FiniteTable.total_split h, besideMap]
  abel

theorem holds_putMap (sys : Containers α V) (map : Nat) (m : TracedMap V) :
    ({ sys with maps := sys.maps.put map m } : Containers α V).holds =
      m.holds + sys.besideMap map := by
  rw [holds, FiniteTable.total_put, besideMap]
  abel

theorem total_seqs {seqs seqs' : ListSeqs Nat α} {lists : FiniteTable Nat ListHeader}
    (h : ∀ l ∈ lists.keys, seqs'.seq l = seqs.seq l) :
    lists.total (fun list header => header.holds (seqs'.seq list)) =
      lists.total (fun list header => header.holds (seqs.seq list)) := by
  apply FiniteTable.total_congr
  intro l hl
  rw [h l hl]

theorem holds_putList {seqs : ListSeqs Nat α} (header : ListHeader)
    (h : ∀ l, l ≠ list → seqs.seq l = sys.seqs.seq l) :
    ({ sys with lists := sys.lists.put list header, seqs := seqs } : Containers α V).holds =
      header.holds (seqs.seq list) + sys.besideList list := by
  rw [holds, FiniteTable.total_put, besideList, add_assoc, total_seqs]
  exact fun l hl => h l (Finset.ne_of_mem_erase hl)

/-- One list has got some more iters, or some in another order. -/
theorem holds_give (sys : Containers α V) (seqs : ListSeqs Nat α) (iters : List IterPtr)
    (hk : list ∈ sys.lists.keys) (h : ∀ l, l ≠ list → seqs.seq l = sys.seqs.seq l)
    (hp : (seqs.seq list).Perm (iters ++ sys.seqs.seq list)) :
    ({ sys with seqs := seqs } : Containers α V).holds =
      (iters.map (sys.lists.val list).item : List _) + sys.holds := by
  have hrest : (sys.lists.remove list).total
      (fun list header => header.holds (seqs.seq list)) =
      (sys.lists.remove list).total (fun list header => header.holds (sys.seqs.seq list)) :=
    total_seqs fun l hl => h l (Finset.ne_of_mem_erase hl)
  have hmine : (sys.lists.val list).holds (seqs.seq list) =
      (iters.map (sys.lists.val list).item : List _) +
        (sys.lists.val list).holds (sys.seqs.seq list) := by
    rw [ListHeader.holds_perm _ hp, ListHeader.holds, ListHeader.holds, List.map_append,
      ← Multiset.coe_add]
    abel
  simp only [holds]
  rw [FiniteTable.total_split hk, hrest, hmine, FiniteTable.total_split hk]
  abel

theorem holds_same {seqs : ListSeqs Nat α} (hk : list ∈ sys.lists.keys)
    (h : ∀ l, l ≠ list → seqs.seq l = sys.seqs.seq l)
    (hp : (seqs.seq list).Perm (sys.seqs.seq list)) :
    ({ sys with seqs := seqs } : Containers α V).holds = sys.holds := by
  rw [holds_give sys seqs [] hk h hp]
  exact zero_add _

end Containers

/-- The blocks of the nodes that cc_map_delete leaves behind. -/
def ContainerCall.leaks (sys : Containers α V) : ContainerCall α V → Holding
  | mapDelete map => (sys.maps.val map).nodeItems (sys.maps.val map).map.seq
  | _ => 0

/-- New names are not in use, and what newCMalloc has returned uses calloc and free. -/
structure ContainersInv (plain : Finset Nat) (sys : Containers α V) : Prop where
  lists : ∀ list ∈ sys.lists.keys, list < sys.next
  maps : ∀ map ∈ sys.maps.keys, map < sys.next
  names : ∀ id ∈ plain, id < sys.next
  plainLists : ∀ list ∈ plain, list ∈ sys.lists.keys → isCMalloc (sys.lists.val list).flags = true
  plainMaps : ∀ map ∈ plain, map ∈ sys.maps.keys → (sys.maps.val map).CMalloc

namespace Traced

variable {sys : Containers α V} {list : Nat}

theorem listAdd_framed (hk : list ∈ sys.lists.keys) (place : IterPtr → ListSeqs Nat α)
    (hother : ∀ new l, l ≠ list → (place new).seq l = sys.seqs.seq l)
    (hplace : ∀ new, ((place new).seq list).Perm (new :: sys.seqs.seq list)) :
    Framed HeapAccount sys.holds (listAdd sys list place) Containers.holds := by
  refine .take (sys.holds_list hk) (listIterAcquire_framed _ (sys.seqs.seq list)) ?_
  rintro ⟨_ | new, header⟩
  · exact .pure (Containers.holds_putList header fun l _ => rfl)
  · apply Framed.pure
    rw [Containers.holds_putList header (hother new), header.holds_perm (hplace new)]
    rfl

theorem swap_holds {src : IterPtr} {toList : Nat} {l : List IterPtr} (hne : list ≠ toList)
    (hk : list ∈ sys.lists.keys) (hk' : toList ∈ sys.lists.keys)
    (hf : (sys.lists.val list).flags = (sys.lists.val toList).flags)
    (hm : src ∈ sys.seqs.seq list) (hp : l.Perm (src :: sys.seqs.seq toList)) :
    ({ sys with seqs := (sys.seqs.remove list src).setSeq toList l } : Containers α V).holds =
      sys.holds := by
  let sys' : Containers α V := { sys with seqs := sys.seqs.remove list src }
  have hfrom : sys.holds = _ + sys'.holds :=
    Containers.holds_give sys' sys.seqs [src] hk
      (fun l hl => by simp [sys', ListSeqs.remove, hl])
      (by simpa [sys', ListSeqs.remove] using List.perm_cons_erase hm)
  have hto := Containers.holds_give sys' ((sys.seqs.remove list src).setSeq toList l) [src] hk'
      (fun l hl => by simp [sys', hl])
      (by simpa [sys', ListSeqs.remove, hne.symm] using hp)
  rw [hfrom]
  refine hto.trans ?_
  rw [ListHeader.item_eq hf]

theorem appendList_holds {src : Nat} {l : List IterPtr} (hne : list ≠ src)
    (hk : list ∈ sys.lists.keys) (hk' : src ∈ sys.lists.keys)
    (hf : (sys.lists.val list).flags = (sys.lists.val src).flags)
    (hp : l.Perm (sys.seqs.seq src ++ sys.seqs.seq list)) :
    ({ sys with seqs := (sys.seqs.setSeq list l).setSeq src [] } : Containers α V).holds =
      sys.holds := by
  let sys' : Containers α V := { sys with seqs := sys.seqs.setSeq src [] }
  have hfrom : sys.holds = _ + sys'.holds :=
    Containers.holds_give sys' sys.seqs (sys.seqs.seq src) hk'
      (fun l hl => by simp [sys', hl]) (by simp [sys'])
  have hto := Containers.holds_give sys' ((sys.seqs.setSeq list l).setSeq src [])
    (sys.seqs.seq src) hk
    (fun k hl => by
      by_cases he : k = src
      · simp [sys', he]
      · simp [sys', he, hl])
    (by simpa [sys', hne] using hp)
  rw [hfrom]
  refine hto.trans ?_
  rw [ListHeader.item_eq hf]

theorem move_holds {src : IterPtr} {l : List IterPtr} {σ : ListSeqs Nat α}
    (hk : list ∈ sys.lists.keys) (hm : src ∈ sys.seqs.seq list)
    (hp : l.Perm (src :: (sys.seqs.seq list).erase src))
    (hσ : σ = sys.seqs ∨ σ = sys.seqs.setSeq list l) :
    ({ sys with seqs := σ } : Containers α V).holds = sys.holds := by
  rcases hσ with rfl | rfl
  · rfl
  · apply Containers.holds_same hk
    · intro k hne
      simp [hne]
    · simpa using hp.trans (List.perm_cons_erase hm).symm

theorem move_seqs (σ : ListSeqs Nat α) (list : Nat) (src : IterPtr) (dst : Option IterPtr) :
    ∃ l, l.Perm (src :: (σ.seq list).erase src) ∧
      (σ.move list src dst = σ ∨ σ.move list src dst = σ.setSeq list l) := by
  refine ⟨_, insertBefore_perm src dst ((σ.seq list).erase src), ?_⟩
  unfold ListSeqs.move
  split_ifs
  · exact .inl rfl
  · exact .inr rfl

theorem moven_seqs (σ : ListSeqs Nat α) (list : Nat) (src : IterPtr) (dst : Option IterPtr) :
    ∃ l, l.Perm (src :: (σ.seq list).erase src) ∧
      (σ.moven list src dst = σ ∨ σ.moven list src dst = σ.setSeq list l) := by
  refine ⟨_, insertAfter_perm src dst ((σ.seq list).erase src), ?_⟩
  unfold ListSeqs.moven
  split_ifs
  · exact .inl rfl
  · exact .inr rfl

theorem listCall_framed {call : ListCall Nat α}
    (h : (ContainerCall.listCall call : ContainerCall α V).Legal sys) :
    Framed HeapAccount sys.holds (listCall sys call) Containers.holds := by
  obtain ⟨hl, hk, hf⟩ := h
  cases call with
  | insert self iter data =>
    refine listAdd_framed (hk self (by simp [ListCall.lists])) _ ?_ ?_
    · intro new l hne
      simp [ListCall.spec, ListSeqs.insert, hne]
    · intro new
      simpa [ListCall.spec, ListSeqs.insert] using insertBefore_perm new iter (sys.seqs.seq self)
  | append self iter data =>
    refine listAdd_framed (hk self (by simp [ListCall.lists])) _ ?_ ?_
    · intro new l hne
      simp [ListCall.spec, ListSeqs.append, hne]
    · intro new
      simpa [ListCall.spec, ListSeqs.append] using insertAfter_perm new iter (sys.seqs.seq self)
  | replace iter data => exact .pure rfl
  | remove self iter =>
    have hk := hk self (by simp [ListCall.lists])
    refine .take (F := sys.besideList self) ?_
      (listIterRelease_framed (sys.lists.val self) ((sys.seqs.seq self).erase iter) iter) ?_
    · rw [sys.holds_list hk, ListHeader.holds_perm _ (List.perm_cons_erase hl)]
    · intro header
      apply Framed.pure
      rw [Containers.holds_putList header]
      · simp [ListCall.spec, ListSeqs.remove]
      · intro l hne
        simp [ListCall.spec, ListSeqs.remove, hne]
  | discard self =>
    have hk := hk self (by simp [ListCall.lists])
    refine .take (sys.holds_list hk)
      (listDiscard_framed (sys.seqs.seq self) (sys.lists.val self)) ?_
    intro header
    apply Framed.pure
    rw [Containers.holds_putList header]
    · simp [ListCall.spec, ListSeqs.discard]
    · intro l hne
      simp [ListCall.spec, ListSeqs.discard, hne]
  | move self src dst =>
    obtain ⟨l, hp, hσ⟩ := move_seqs sys.seqs self src dst
    exact .pure (move_holds (hk self (by simp [ListCall.lists])) hl.1 hp hσ)
  | moven self src dst =>
    obtain ⟨l, hp, hσ⟩ := moven_seqs sys.seqs self src dst
    exact .pure (move_holds (hk self (by simp [ListCall.lists])) hl.1 hp hσ)
  | swap fromList toList src dst =>
    have hkf := hk fromList (by simp [ListCall.lists])
    have hkt := hk toList (by simp [ListCall.lists])
    have hflags := hf fromList (by simp [ListCall.lists]) toList (by simp [ListCall.lists])
    apply Framed.pure
    simp only [ListCall.spec, ListSeqs.swap]
    split_ifs with he
    · obtain ⟨l, hp, hσ⟩ := move_seqs sys.seqs fromList src dst
      exact move_holds hkf hl.1 hp hσ
    · exact swap_holds he hkf hkt hflags hl.1 (insertBefore_perm src dst _)
  | swapn fromList toList src dst =>
    have hkf := hk fromList (by simp [ListCall.lists])
    have hkt := hk toList (by simp [ListCall.lists])
    have hflags := hf fromList (by simp [ListCall.lists]) toList (by simp [ListCall.lists])
    apply Framed.pure
    simp only [ListCall.spec, ListSeqs.swapn]
    split_ifs with he
    · obtain ⟨l, hp, hσ⟩ := moven_seqs sys.seqs fromList src dst
      exact move_holds hkf hl.1 hp hσ
    · exact swap_holds he hkf hkt hflags hl.1 (insertAfter_perm src dst _)
  | appendList self src =>
    have hflags := hf self (by simp [ListCall.lists]) src (by simp [ListCall.lists])
    apply Framed.pure
    exact appendList_holds hl (hk self (by simp [ListCall.lists]))
      (hk src (by simp [ListCall.lists])) hflags List.perm_append_comm
  | insertList self src =>
    have hflags := hf self (by simp [ListCall.lists]) src (by simp [ListCall.lists])
    apply Framed.pure
    exact appendList_holds hl (hk self (by simp [ListCall.lists]))
      (hk src (by simp [ListCall.lists])) hflags (.refl _)

variable {plain : Finset Nat} (hashFn : UInt32 → List UInt8 → UInt32) (node : IterPtr → MapNode V)

/-- A map that is there is replaced by what a call makes of it. -/
theorem mapCall_framed {β : Type} {map : Nat} (hk : map ∈ sys.maps.keys) {m : TracedM β}
    {r : β → TracedMap V}
    (h : Framed HeapAccount (sys.maps.val map).holds m (fun a => (r a).holds)) :
    Framed HeapAccount sys.holds
      (do
        let a ← m
        return ((none : Option Nat), { sys with maps := sys.maps.put map (r a) }))
      (fun r => r.2.holds) := by
  refine .take (sys.holds_map hk) h ?_
  intro a
  exact .pure (sys.holds_putMap map (r a))

theorem containerCall_framed (hi : ContainersInv plain sys) {call : ContainerCall α V}
    (hl : call.Legal sys) :
    Framed HeapAccount sys.holds (containerCall hashFn node sys call)
      (fun r => r.2.holds + call.leaks sys) := by
  have hnew : sys.next ∉ sys.lists.keys := fun hm => absurd (hi.lists _ hm) (lt_irrefl _)
  have hnew' : sys.next ∉ sys.maps.keys := fun hm => absurd (hi.maps _ hm) (lt_irrefl _)
  cases call with
  | listNew cMalloc =>
    refine .take (F := sys.holds) (zero_add _).symm (listNewFlags_framed _) ?_
    rintro (_ | header)
    · exact .pure (by simp [listHolds, ContainerCall.leaks])
    · apply Framed.pure
      have hold : sys.lists.total (fun list header =>
          header.holds ((sys.seqs.setSeq sys.next []).seq list)) =
          sys.lists.total (fun list header => header.holds (sys.seqs.seq list)) := by
        apply Containers.total_seqs
        intro l hl
        simp [ne_of_mem_of_not_mem hl hnew]
      show Containers.holds _ + 0 = _
      rw [add_zero, Containers.holds, FiniteTable.total_put, FiniteTable.total_remove hnew, hold]
      simp [listHolds, Containers.holds, add_assoc]
  | listCall call =>
    apply (listCall_framed hl).bind
    exact fun sys => .pure (add_zero _)
  | listInsertSorted list compare data =>
    refine Framed.bind (listAdd_framed hl _ ?_ ?_) fun sys => .pure (add_zero _)
    · intro new l hne
      unfold ListSeqs.insertSorted
      split <;> simp [ListSeqs.insert, ListSeqs.append, hne]
    · intro new
      unfold ListSeqs.insertSorted
      split
      · simpa [ListSeqs.insert] using insertBefore_perm new _ (sys.seqs.seq list)
      · simp [ListSeqs.append]
  | listFind list compare data => exact .pure (add_zero _)
  | listDelete list =>
    refine .take (sys.holds_list hl) (listDelete_framed (sys.seqs.seq list) _) ?_
    intro _
    apply Framed.pure
    show Containers.holds _ + 0 = 0 + _
    rw [add_zero, zero_add]
    rfl
  | mapNew cMalloc seed =>
    refine .take (F := sys.holds) (zero_add _).symm (mapNewFlags_framed _ seed node) ?_
    rintro (_ | map)
    · exact .pure (by simp [mapHolds, ContainerCall.leaks])
    · apply Framed.pure
      show Containers.holds _ + 0 = _
      rw [add_zero, Containers.holds, FiniteTable.total_put, FiniteTable.total_remove hnew']
      simp only [mapHolds, Containers.holds]
      abel
  | mapFindp map mem len key => exact .pure (add_zero _)
  | mapAddp map mem val len key =>
    exact (mapCall_framed hl (mapAddp_framed hashFn mem _ val len key)).congr rfl
      fun r => (add_zero _).symm
  | mapRemove map miter =>
    exact (mapCall_framed hl.1 (mapRemove_framed _ hl.2)).congr rfl fun r => (add_zero _).symm
  | mapDiscard map =>
    exact (mapCall_framed hl (mapDiscard_framed _)).congr rfl fun r => (add_zero _).symm
  | mapDelete map =>
    refine .take (sys.holds_map hl) (mapDelete_framed _) ?_
    intro _
    exact .pure (add_comm _ _)

end Traced

end LibCC
