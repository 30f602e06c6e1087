import LibCC.ListSorted
import LibCC.MultimapInvariant

/-! What cc_multimap_addp and cc_multimap_discard do to a multimap. An add puts a value into a
list, or puts in a new list, or fails and undoes what it has done. -/

namespace LibCC

open SequenceFamily NestedTraversal

variable {L V : Type}

/-- What the allocator may return: a list that is not live, iters that are not in use, and no
bucket array from where twice the capacity leaves the range of an int. -/
structure MultimapAlloc.Serves (alloc : MultimapAlloc L) (mm : CcMultimap L V) : Prop where
  list : ∀ list, alloc.list = some list → list ∉ mm.live
  iter : ∀ iter, alloc.iter = some iter → ∀ list ∈ mm.live, iter ∉ mm.lists.seq list
  miter : alloc.map.Unused mm.map
  realloc : alloc.map.realloc ≠ none → mm.map.capacity < 2 ^ 30

/-- No allocation that a new key needs fails. -/
def MultimapAlloc.Succeeds (alloc : MultimapAlloc L) : Prop :=
  alloc.list ≠ none ∧ alloc.iter ≠ none ∧ alloc.map.node = true ∧ alloc.map.iter ≠ none

/-- The same map with the same lists of the same values. -/
structure MultimapSame (mm mm' : CcMultimap L V) : Prop where
  compare : mm'.compare = mm.compare
  map : mm'.map = mm.map
  live : mm'.live = mm.live
  seq : ∀ list ∈ mm.live, mm'.lists.seq list = mm.lists.seq list
  data : ∀ list ∈ mm.live, ∀ p ∈ mm.lists.seq list, mm'.lists.data p = mm.lists.data p

namespace CcMultimap

/-- The values of a list. -/
def values (self : CcMultimap L V) (list : L) : List V :=
  (self.lists.seq list).map self.lists.data

end CcMultimap

theorem MultimapSame.refl (self : CcMultimap L V) : MultimapSame self self :=
  ⟨rfl, rfl, rfl, fun _ _ => rfl, fun _ _ _ _ => rfl⟩

section

variable {self self' : CcMultimap L V}

theorem MultimapSame.values (h : MultimapSame self self') {list : L} (hl : list ∈ self.live) :
    self'.values list = self.values list := by
  unfold CcMultimap.values
  rw [h.seq list hl]
  exact List.map_congr_left (h.data list hl)

theorem MultimapSame.inv (h : MultimapSame self self') (hi : MultimapInv self) :
    MultimapInv self' := by
  have hlist : self'.list = self.list := by
    funext y
    rw [CcMultimap.list, h.map, CcMultimap.list]
  have hitems : ∀ y ∈ self.map.seq, self'.items y = self.items y := by
    intro y hy
    rw [CcMultimap.items, hlist, h.seq _ (hi.mem_live hy), CcMultimap.items]
  refine ⟨h.map ▸ hi.map, ?_, h.live ▸ hi.live, fun y hy => ?_, fun y hy => ?_⟩
  · rw [hlist, h.map, h.live]
    exact hi.handles
  · rw [h.map] at hy
    rw [hitems y hy]
    exact hi.nonempty y hy
  · rw [h.map] at hy
    rw [hitems y hy]
    exact hi.nodup y hy

end

section Put

variable [DecidableEq L] {self : CcMultimap L V}

/-- The multimap with `iter` put into a list, between `a` and `b`. -/
def CcMultimap.put (self : CcMultimap L V) (list : L) (a : List IterPtr) (iter : IterPtr)
    (b : List IterPtr) (val : V) : CcMultimap L V :=
  { self with lists := (self.lists.setSeq list (a ++ iter :: b)).setData iter val }

variable {list : L} {a b : List IterPtr} {iter : IterPtr} {val : V}

theorem put_values_self (hl : self.lists.seq list = a ++ b) (hi : iter ∉ self.lists.seq list) :
    (self.put list a iter b val).values list =
      a.map self.lists.data ++ val :: b.map self.lists.data := by
  rw [hl] at hi
  have hold : ∀ l : List IterPtr, (∀ p ∈ l, p ∈ a ++ b) →
      l.map (Function.update self.lists.data iter val) = l.map self.lists.data := by
    intro l hsub
    apply List.map_congr_left
    intro p hp
    exact Function.update_of_ne (ne_of_mem_of_not_mem (hsub p hp) hi) _ _
  simp only [CcMultimap.values, CcMultimap.put, ListSeqs.setData_seq, ListSeqs.setSeq_seq,
    ListSeqs.setData_data, ListSeqs.setSeq_data, Function.update_self, List.map_append,
    List.map_cons]
  rw [hold a (fun p hp => List.mem_append_left b hp),
    hold b (fun p hp => List.mem_append_right a hp)]

theorem put_values_of_ne {list' : L} (hne : list' ≠ list) (hi : iter ∉ self.lists.seq list') :
    (self.put list a iter b val).values list' = self.values list' := by
  simp only [CcMultimap.values, CcMultimap.put, ListSeqs.setData_seq, ListSeqs.setSeq_seq,
    ListSeqs.setData_data, ListSeqs.setSeq_data, Function.update_of_ne hne]
  apply List.map_congr_left
  intro p hp
  exact Function.update_of_ne (ne_of_mem_of_not_mem hp hi) _ _

theorem MultimapInv.put (h : MultimapInv self) {miter : IterPtr} (hm : miter ∈ self.map.seq)
    (hl : self.items miter = a ++ b) (hi : iter ∉ self.items miter) (val : V) :
    MultimapInv (self.put (self.list miter) a iter b val) := by
  have hnd := h.nodup miter hm
  rw [hl] at hnd hi
  have hself : (self.put (self.list miter) a iter b val).items miter = a ++ iter :: b :=
    Function.update_self ..
  have hother : ∀ y ∈ self.map.seq, y ≠ miter →
      (self.put (self.list miter) a iter b val).items y = self.items y :=
    fun y hy hne => Function.update_of_ne (fun he => hne (h.list_inj hy hm he)) _ _
  refine ⟨h.map, h.handles, h.live, fun y hy => ?_, fun y hy => ?_⟩
  · by_cases he : y = miter
    · subst he
      rw [hself]
      simp
    · rw [hother y hy he]
      exact h.nonempty y hy
  · by_cases he : y = miter
    · subst he
      rw [hself]
      exact (List.perm_middle.nodup_iff).mpr (List.nodup_cons.mpr ⟨hi, hnd⟩)
    · rw [hother y hy he]
      exact h.nodup y hy

end Put

section PutList

variable [DecidableEq L] {self : CcMultimap L V}

/-- The multimap with a new list of one value, which is at a node of `map`. -/
def CcMultimap.putList (self : CcMultimap L V) (map : CcMap L) (list : L) (iter : IterPtr)
    (val : V) : CcMultimap L V :=
  { self with
    map := map
    lists := (self.lists.setSeq list [iter]).setData iter val
    live := list :: self.live }

variable {map : CcMap L} {list : L} {iter : IterPtr} {val : V}

theorem putList_values_self (self : CcMultimap L V) (map : CcMap L) (list : L) (iter : IterPtr)
    (val : V) : (self.putList map list iter val).values list = [val] := by
  simp [CcMultimap.values, CcMultimap.putList]

theorem putList_values_of_ne {list' : L} (hne : list' ≠ list)
    (hi : iter ∉ self.lists.seq list') :
    (self.putList map list iter val).values list' = self.values list' :=
  put_values_of_ne (a := []) (b := []) hne hi

theorem MultimapInv.putList {hashFn : UInt32 → List UInt8 → UInt32} {m : MapTable L}
    (h : MultimapInv self) (hr : MapRep hashFn m self.map) {miter : IterPtr} {key : MapKey}
    (hr' : MapRep hashFn (Function.update m key (some (miter, list))) map) (hn : m key = none)
    (hm : miter ∉ self.map.seq) (hl : list ∉ self.live) (iter : IterPtr) (val : V) :
    MultimapInv (self.putList map list iter val) := by
  obtain ⟨hseq, hnew, hold⟩ := hr.added hr' hn hm
  have hlnew : (self.putList map list iter val).list miter = list := hnew
  have hlold : ∀ y ∈ self.map.seq, (self.putList map list iter val).list y = self.list y := hold
  have hinew : (self.putList map list iter val).items miter = [iter] := by
    rw [CcMultimap.items, hlnew]
    exact Function.update_self ..
  have hiold : ∀ y ∈ self.map.seq, (self.putList map list iter val).items y = self.items y := by
    intro y hy
    have hne : self.list y ≠ list := fun he => hl (he ▸ h.mem_live hy)
    rw [CcMultimap.items, hlold y hy]
    exact Function.update_of_ne hne ..
  refine ⟨hr'.inv, ?_, List.nodup_cons.mpr ⟨hl, h.live⟩, fun y hy => ?_, fun y hy => ?_⟩
  · refine (hseq.map _).trans ?_
    rw [List.map_cons, hlnew, List.map_congr_left hlold]
    exact h.handles.cons list
  · rcases List.mem_cons.mp (hseq.subset hy) with rfl | hy
    · rw [hinew]
      simp
    · rw [hiold y hy]
      exact h.nonempty y hy
  · rcases List.mem_cons.mp (hseq.subset hy) with rfl | hy
    · rw [hinew]
      simp
    · rw [hiold y hy]
      exact h.nodup y hy

end PutList

section Addp

variable [DecidableEq L] {self : CcMultimap L V} {alloc : MultimapAlloc L}

/-- cc_multimap_addp deletes a list that it could not use. -/
theorem MultimapSame.unused {list : L} (hl : list ∉ self.live) :
    MultimapSame self ((self.listNew list).listDelete list) := by
  refine ⟨rfl, rfl, List.erase_cons_head .., fun list' hl' => ?_, fun _ _ _ _ => rfl⟩
  have hne : list' ≠ list := ne_of_mem_of_not_mem hl' hl
  simp [CcMultimap.listNew, CcMultimap.listDelete, ListSeqs.discard, hne]

theorem MultimapSame.undone {list : L} (hl : list ∉ self.live) {iter : IterPtr}
    (hi : ∀ list ∈ self.live, iter ∉ self.lists.seq list) (val : V) :
    MultimapSame self (({ self with
      lists := ((self.lists.setSeq list []).append list none iter val).remove list iter
      live := list :: self.live } : CcMultimap L V).listDelete list) := by
  refine ⟨rfl, rfl, List.erase_cons_head .., fun list' hl' => ?_, fun list' hl' p hp => ?_⟩
  · have hne : list' ≠ list := ne_of_mem_of_not_mem hl' hl
    simp [CcMultimap.listDelete, ListSeqs.discard, ListSeqs.remove, ListSeqs.append, hne]
  · exact Function.update_of_ne (ne_of_mem_of_not_mem hp (hi list' hl')) ..

/-- Every way through cc_multimap_addp: nothing changes, or a value goes into the list of its
key, or a new key gets a list. -/
theorem multimapAddp_cases {hashFn : UInt32 → List UInt8 → UInt32} {m : MapTable L}
    (hr : MapRep hashFn m self.map) (ha : alloc.Serves self) {mem : UInt64 → UInt8} {len : Nat}
    {key : UInt64} {k : MapKey} (hk : mapKeyBytes mem len key = some k) (val : V) :
    (∃ self', multimapAddp hashFn mem self val len key alloc = (0, self') ∧
      MultimapSame self self' ∧ ¬ alloc.Succeeds) ∨
    (∃ miter list iter a b, m k = some (miter, list) ∧ alloc.iter = some iter ∧
      self.lists.seq list = a ++ b ∧
      multimapAddp hashFn mem self val len key alloc = (1, self.put list a iter b val) ∧
      (self.compare = none → b = []) ∧
      ∀ compare, self.compare = some compare →
        (∀ p ∈ a, ¬ compare val (self.lists.data p) < 0) ∧
          ∀ p, b.head? = some p → compare val (self.lists.data p) < 0) ∨
    m k = none ∧ ∃ miter list iter map, alloc.list = some list ∧ alloc.iter = some iter ∧
      miter ∉ self.map.seq ∧ MapRep hashFn (Function.update m k (some (miter, list))) map ∧
      multimapAddp hashFn mem self val len key alloc = (1, self.putList map list iter val) := by
  have hfind : mapFindp hashFn mem self.map len key = (m k).map Prod.fst := by
    simp only [mapFindp, hk, hr.find k]
  cases hmk : m k with
  | some e =>
    obtain ⟨miter, list⟩ := e
    have hlist : (mapFindp hashFn mem self.map len key).map self.list = some list := by
      rw [hfind, hmk]
      exact congrArg some ((hr.entries k miter list).mp hmk).2.2
    cases hi : alloc.iter with
    | none =>
      refine .inl ⟨self, ?_, .refl self, fun hs => hs.2.1 hi⟩
      cases hc : self.compare <;> simp only [multimapAddp, hlist, hc, hi]
    | some iter =>
      cases hc : self.compare with
      | none =>
        refine .inr (.inl ⟨miter, list, iter, self.lists.seq list, [], rfl, rfl,
          (List.append_nil _).symm, ?_, fun _ => rfl, by simp⟩)
        simp only [multimapAddp, hlist, hc, hi, ListSeqs.append, insertAfter_none,
          CcMultimap.put]
      | some compare =>
        obtain ⟨a, b, hab, hins, hge, hlt⟩ := self.lists.insertSorted_split list compare iter val
        refine .inr (.inl ⟨miter, list, iter, a, b, rfl, rfl, hab, ?_, by simp, ?_⟩)
        · simp only [multimapAddp, hlist, hc, hi, hins, CcMultimap.put]
        · intro compare' he
          obtain rfl := Option.some.inj he
          exact ⟨hge, hlt⟩
  | none =>
    have hlist : (mapFindp hashFn mem self.map len key).map self.list = none := by
      rw [hfind, hmk]
      rfl
    cases hl : alloc.list with
    | none =>
      refine .inl ⟨self, ?_, .refl self, fun hs => hs.1 hl⟩
      simp only [multimapAddp, hlist, hl]
    | some list =>
      have hfresh := ha.list list hl
      cases hi : alloc.iter with
      | none =>
        refine .inl ⟨_, ?_, .unused hfresh, fun hs => hs.2.1 hi⟩
        simp only [multimapAddp, hlist, hl, hi]
      | some iter =>
        have happ : (self.lists.setSeq list []).append list none iter val =
            (self.lists.setSeq list [iter]).setData iter val := by
          simp [ListSeqs.append, ListSeqs.setSeq]
        have hadd : mapAddp hashFn mem self.map list len key alloc.map =
            mapAddHash self.map list (hashFn self.map.seed k.bytes) k alloc.map := by
          simp only [mapAddp, hk]
        rcases hr.add_cases ha.miter list k (fun hne _ => ha.realloc hne) with
          ⟨hfail, hwhy⟩ | ⟨-, miter, hm, -, hnew, hrep⟩
        · refine .inl ⟨_, ?_, .undone hfresh (ha.iter iter hi) val, fun hs => ?_⟩
          · simp only [multimapAddp, hlist, hl, hi, CcMultimap.listNew, hadd, hfail]
          · rcases hwhy with ⟨e, he⟩ | hf | hf
            · rw [hmk] at he
              exact absurd he (by simp)
            · exact absurd hs.2.2.1 (by simp [hf])
            · exact hs.2.2.2 hf
        · refine .inr (.inr ⟨rfl, miter, list, iter, _, rfl, rfl, hm, hrep, ?_⟩)
          rw [← hadd] at hnew ⊢
          obtain ⟨map, hmap⟩ : ∃ map, mapAddp hashFn mem self.map list len key alloc.map =
              (some miter, map) := ⟨_, Prod.ext hnew rfl⟩
          simp only [multimapAddp, hlist, hl, hi, CcMultimap.listNew, happ, hmap,
            CcMultimap.putList]

theorem multimapAddp_long {hashFn : UInt32 → List UInt8 → UInt32} {mem : UInt64 → UInt8}
    {len : Nat} {key : UInt64} (hk : mapKeyBytes mem len key = none)
    (ha : alloc.Serves self) (val : V) :
    ∃ self', multimapAddp hashFn mem self val len key alloc = (0, self') ∧
      MultimapSame self self' := by
  have hlist : (mapFindp hashFn mem self.map len key).map self.list = none := by
    simp [mapFindp, hk]
  cases hl : alloc.list with
  | none => exact ⟨self, by simp only [multimapAddp, hlist, hl], .refl self⟩
  | some list =>
    have hfresh := ha.list list hl
    cases hi : alloc.iter with
    | none =>
      refine ⟨_, ?_, .unused hfresh⟩
      simp only [multimapAddp, hlist, hl, hi]
    | some iter =>
      have hadd : mapAddp hashFn mem self.map list len key alloc.map = (none, self.map) := by
        simp only [mapAddp, hk]
      refine ⟨_, ?_, .undone hfresh (ha.iter iter hi) val⟩
      simp only [multimapAddp, hlist, hl, hi, CcMultimap.listNew, hadd]

end Addp

section Drop

variable [DecidableEq L] {self : CcMultimap L V} {list : L} {miter : IterPtr}

theorem dropList_values_of_ne (hne : list ≠ self.list miter) :
    (self.dropList miter).values list = self.values list := by
  simp [CcMultimap.values, CcMultimap.dropList, ListSeqs.discard, hne]

theorem dropItem_values_of_ne (hne : list ≠ self.list miter) (iter : IterPtr) :
    (self.dropItem miter iter).values list = self.values list := by
  simp [CcMultimap.values, CcMultimap.dropItem, ListSeqs.remove, hne]

theorem dropItem_values_self (self : CcMultimap L V) (miter iter : IterPtr) :
    (self.dropItem miter iter).values (self.list miter) =
      ((self.items miter).erase iter).map self.lists.data := by
  simp [CcMultimap.values, CcMultimap.dropItem, ListSeqs.remove, CcMultimap.items]

end Drop

section Discard

variable [DecidableEq L] {self : CcMultimap L V}

theorem dropList_rep {hashFn : UInt32 → List UInt8 → UInt32} {m : MapTable L}
    (hr : MapRep hashFn m self.map) {miter : IterPtr} (hm : miter ∈ self.map.seq) :
    MapRep hashFn (fun key => (m key).filter (fun e => e.1 ≠ miter)) (self.dropList miter).map :=
  hr.remove hm

/-- Each turn of the loop of cc_multimap_discard drops the first list. -/
theorem multimapDiscardLoop_spec {hashFn : UInt32 → List UInt8 → UInt32} {m : MapTable L}
    {l : List IterPtr} (h : MultimapInv self) (hr : MapRep hashFn m self.map)
    (hs : self.map.seq = l) :
    ∃ self' m', multimapDiscardLoop l.length l.head? self = self' ∧ MultimapInv self' ∧
      MapRep hashFn m' self'.map ∧ self'.map.seq = [] ∧ self'.compare = self.compare := by
  induction l generalizing self m with
  | nil => exact ⟨self, m, rfl, h, hr, hs, rfl⟩
  | cons x l ih =>
    have hx : x ∈ self.map.seq := by simp [hs]
    have hseq : (self.dropList x).map.seq = l := by
      rw [dropList_seq, hs, List.erase_cons_head]
    have hturn : ({ self with
        map := (mapRemove self.map x).2.2
        lists := self.lists.discard (mapRemove self.map x).1 } : CcMultimap L V).listDelete
          (mapRemove self.map x).1 = self.dropList x := by
      show (⟨_, _, (self.lists.discard (self.list x)).discard (self.list x), _⟩ :
        CcMultimap L V) = _
      simp only [ListSeqs.discard, ListSeqs.setSeq_setSeq, CcMultimap.dropList]
      rfl
    have hnext : (mapRemove self.map x).2.1 = l.head? := by
      have haft : after x self.map.seq = l := by
        rw [hs]
        exact after_split (a := []) List.not_mem_nil l
      exact congrArg List.head? haft
    obtain ⟨self', m', he, hinv, hrep, hnil, hcmp⟩ := ih (h.dropList hx) (dropList_rep hr hx) hseq
    refine ⟨self', m', ?_, hinv, hrep, hnil, hcmp⟩
    simp only [List.length_cons, List.head?_cons, multimapDiscardLoop, hturn, hnext, he]

end Discard

end LibCC
