import LibCC.MapTable
import LibCC.MultimapModel
import LibCC.NestedTraversal

/-! The representation invariant of cc_multimap, and its positions: the values in the order of a
traversal, each as the iter of its node and its own iter. -/

namespace LibCC

open SequenceFamily NestedTraversal

variable {L V : Type}

namespace CcMultimap

/-- The iters of the list at `miter`. -/
def items (self : CcMultimap L V) (miter : IterPtr) : List IterPtr :=
  self.lists.seq (self.list miter)

def positions (self : CcMultimap L V) : List (IterPtr × IterPtr) :=
  nested self.items self.map.seq

end CcMultimap

def MultimapIter.ofPos (p : IterPtr × IterPtr) : MultimapIter := ⟨p.1, some p.2⟩

/-- Every node has a live list of its own, every live list is at a node, and none is empty. -/
structure MultimapInv (mm : CcMultimap L V) : Prop where
  map : MapInv mm.map
  handles : (mm.map.seq.map mm.list).Perm mm.live
  live : mm.live.Nodup
  nonempty : ∀ miter ∈ mm.map.seq, mm.items miter ≠ []
  nodup : ∀ miter ∈ mm.map.seq, (mm.items miter).Nodup

section

variable {self : CcMultimap L V}

theorem MultimapInv.list_inj (h : MultimapInv self) {x y : IterPtr} (hx : x ∈ self.map.seq)
    (hy : y ∈ self.map.seq) (he : self.list x = self.list y) : x = y :=
  List.inj_on_of_nodup_map (h.handles.nodup_iff.mpr h.live) hx hy he

theorem MultimapInv.mem_live (h : MultimapInv self) {x : IterPtr} (hx : x ∈ self.map.seq) :
    self.list x ∈ self.live := h.handles.subset (List.mem_map_of_mem hx)

theorem MultimapInv.positions_nodup (h : MultimapInv self) : self.positions.Nodup :=
  nested_nodup h.map.ascending.nodup h.nodup

theorem mem_positions {x : IterPtr × IterPtr} :
    x ∈ self.positions ↔ x.1 ∈ self.map.seq ∧ x.2 ∈ self.items x.1 := mem_nested

theorem MultimapInv.split (h : MultimapInv self) {x : IterPtr × IterPtr}
    (hx : x ∈ self.positions) :
    ∃ a b u v, self.map.seq = a ++ x.1 :: b ∧ x.1 ∉ a ∧ x.1 ∉ b ∧
      self.items x.1 = u ++ x.2 :: v ∧ x.2 ∉ u ∧
      after x self.positions = v.map (Prod.mk x.1) ++ nested self.items b := by
  obtain ⟨hm, hp⟩ := mem_positions.mp hx
  obtain ⟨a, b, hs, ha⟩ := split_of_mem hm
  obtain ⟨u, v, hl, hu⟩ := split_of_mem hp
  have hnd := h.map.ascending.nodup
  rw [hs] at hnd
  have hb := (List.nodup_cons.mp (List.nodup_append.mp hnd).2.1).1
  refine ⟨a, b, u, v, hs, ha, hb, hl, hu, ?_⟩
  rw [CcMultimap.positions, hs]
  exact after_nested hl ha hu

theorem listHead_nested {l : List IterPtr} (hne : ∀ m ∈ l, self.items m ≠ []) :
    self.listHead l.head? = (nested self.items l).head?.map MultimapIter.ofPos := by
  cases l with
  | nil => rfl
  | cons m l =>
    obtain ⟨p, t, ht⟩ := List.exists_cons_of_ne_nil (hne m (by simp))
    have ht' : self.lists.seq (self.list m) = p :: t := ht
    simp [CcMultimap.listHead, nested_cons, ht, ht', MultimapIter.ofPos]

theorem multimapHead_eq (h : MultimapInv self) :
    multimapHead self = self.positions.head?.map MultimapIter.ofPos :=
  listHead_nested h.nonempty

theorem listNext_eq {x : IterPtr × IterPtr} {u v : List IterPtr}
    (hl : self.items x.1 = u ++ x.2 :: v) (hu : x.2 ∉ u) :
    self.listNext (self.list x.1) x.2 = v.head? := by
  have hl' : self.lists.seq (self.list x.1) = u ++ x.2 :: v := hl
  rw [CcMultimap.listNext, hl', after_split hu]

theorem multimapNext_eq (h : MultimapInv self) {x : IterPtr × IterPtr} (hx : x ∈ self.positions) :
    multimapNext self (.ofPos x) = (after x self.positions).head?.map MultimapIter.ofPos := by
  obtain ⟨a, b, u, v, hs, ha, -, hl, hu, haft⟩ := h.split hx
  have hnext := listNext_eq hl hu
  have hb : ∀ m ∈ b, self.items m ≠ [] := fun m hm => h.nonempty m (by simp [hs, hm])
  rw [haft]
  cases v with
  | nil =>
    have haf : after x.1 self.map.seq = b := by rw [hs, after_split ha]
    simp only [multimapNext, MultimapIter.ofPos, Option.bind_some, hnext, List.head?_nil, haf,
      List.map_nil, List.nil_append]
    exact listHead_nested hb
  | cons q v => simp [multimapNext, MultimapIter.ofPos, hnext]

end

section Remove

variable [DecidableEq L] {self : CcMultimap L V}

/-- The multimap without the last value of a list. -/
def CcMultimap.dropList (self : CcMultimap L V) (miter : IterPtr) : CcMultimap L V :=
  { self with
    map := (mapRemove self.map miter).2.2
    lists := self.lists.discard (self.list miter)
    live := self.live.erase (self.list miter) }

/-- The multimap without a value that is not the last of its list. -/
def CcMultimap.dropItem (self : CcMultimap L V) (miter iter : IterPtr) : CcMultimap L V :=
  { self with lists := self.lists.remove (self.list miter) iter }

theorem dropList_list (self : CcMultimap L V) (miter : IterPtr) :
    (self.dropList miter).list = self.list := by
  funext y
  show ((mapRemove self.map miter).2.2.node y).val = (self.map.node y).val
  rw [mapRemove_node]

theorem dropList_seq (self : CcMultimap L V) (miter : IterPtr) :
    (self.dropList miter).map.seq = self.map.seq.erase miter := mapRemove_seq self.map miter

theorem MultimapInv.dropList_items (h : MultimapInv self) {miter y : IterPtr}
    (hm : miter ∈ self.map.seq) (hy : y ∈ self.map.seq) (hne : y ≠ miter) :
    (self.dropList miter).items y = self.items y := by
  have hl : self.list y ≠ self.list miter := fun he => hne (h.list_inj hy hm he)
  show (self.lists.discard _).seq ((self.dropList miter).list y) = self.lists.seq (self.list y)
  rw [dropList_list, ListSeqs.discard, ListSeqs.setSeq_seq, Function.update_of_ne hl]

theorem MultimapInv.dropItem_items (h : MultimapInv self) {miter iter y : IterPtr}
    (hm : miter ∈ self.map.seq) (hy : y ∈ self.map.seq) (hne : y ≠ miter) :
    (self.dropItem miter iter).items y = self.items y := by
  have hl : self.list y ≠ self.list miter := fun he => hne (h.list_inj hy hm he)
  show (self.lists.remove _ _).seq (self.list y) = self.lists.seq (self.list y)
  rw [ListSeqs.remove, ListSeqs.setSeq_seq, Function.update_of_ne hl]

theorem dropItem_self (self : CcMultimap L V) (miter iter : IterPtr) :
    (self.dropItem miter iter).items miter = (self.items miter).erase iter := by
  show (self.lists.remove _ _).seq (self.list miter) = _
  rw [ListSeqs.remove, ListSeqs.setSeq_seq, Function.update_self]
  rfl

theorem MultimapInv.dropList (h : MultimapInv self) {miter : IterPtr}
    (hm : miter ∈ self.map.seq) : MultimapInv (self.dropList miter) := by
  refine ⟨mapRemove_inv h.map hm, ?_, h.live.erase _, fun y hy => ?_, fun y hy => ?_⟩
  · rw [dropList_list, dropList_seq]
    have hperm : (self.list miter :: (self.map.seq.erase miter).map self.list).Perm self.live :=
      ((List.perm_cons_erase hm).map self.list).symm.trans h.handles
    have herase := hperm.erase (self.list miter)
    rwa [List.erase_cons_head] at herase
  · rw [dropList_seq, h.map.ascending.nodup.mem_erase_iff] at hy
    rw [h.dropList_items hm hy.2 hy.1]
    exact h.nonempty y hy.2
  · rw [dropList_seq, h.map.ascending.nodup.mem_erase_iff] at hy
    rw [h.dropList_items hm hy.2 hy.1]
    exact h.nodup y hy.2

theorem MultimapInv.dropItem (h : MultimapInv self) {miter iter : IterPtr}
    (hm : miter ∈ self.map.seq) (hne : (self.items miter).erase iter ≠ []) :
    MultimapInv (self.dropItem miter iter) := by
  refine ⟨h.map, h.handles, h.live, fun y hy => ?_, fun y hy => ?_⟩
  · by_cases he : y = miter
    · subst he
      rwa [dropItem_self]
    · rw [h.dropItem_items hm hy he]
      exact h.nonempty y hy
  · by_cases he : y = miter
    · subst he
      rw [dropItem_self]
      exact (h.nodup y hy).erase iter
    · rw [h.dropItem_items hm hy he]
      exact h.nodup y hy

/-- The multimap without the value at `x`. -/
def CcMultimap.drop (self : CcMultimap L V) (x : IterPtr × IterPtr) : CcMultimap L V :=
  if (self.items x.1).erase x.2 = [] then self.dropList x.1 else self.dropItem x.1 x.2

theorem MultimapInv.drop (h : MultimapInv self) {x : IterPtr × IterPtr} (hx : x ∈ self.positions) :
    MultimapInv (self.drop x) := by
  have hm := (mem_positions.mp hx).1
  unfold CcMultimap.drop
  split_ifs with he
  · exact h.dropList hm
  · exact h.dropItem hm he

theorem drop_node (self : CcMultimap L V) (x : IterPtr × IterPtr) :
    (self.drop x).map.node = self.map.node := by
  unfold CcMultimap.drop
  split_ifs
  · exact mapRemove_node self.map x.1
  · rfl

theorem drop_data (self : CcMultimap L V) (x : IterPtr × IterPtr) :
    (self.drop x).lists.data = self.lists.data := by
  unfold CcMultimap.drop
  split_ifs <;> rfl

theorem drop_positions (h : MultimapInv self) {x : IterPtr × IterPtr} (hx : x ∈ self.positions) :
    (self.drop x).positions = self.positions.erase x := by
  obtain ⟨a, b, u, v, hs, ha, hb, hl, hu, -⟩ := h.split hx
  have hm := (mem_positions.mp hx).1
  have hmem : ∀ k, k ∈ a ∨ k ∈ b → k ∈ self.map.seq ∧ k ≠ x.1 := by
    rintro k (hk | hk)
    · exact ⟨by simp [hs, hk], fun he => ha (he ▸ hk)⟩
    · exact ⟨by simp [hs, hk], fun he => hb (he ▸ hk)⟩
  have herase : (self.items x.1).erase x.2 = u ++ v := by rw [hl, erase_split hu]
  unfold CcMultimap.drop CcMultimap.positions
  split_ifs with he
  · obtain ⟨rfl, rfl⟩ := List.append_eq_nil_iff.mp (herase.symm.trans he)
    have hseq : (self.dropList x.1).map.seq = a ++ b := by
      rw [dropList_seq, hs, erase_split ha]
    have hcongr : nested (self.dropList x.1).items (a ++ b) = nested self.items (a ++ b) :=
      nested_congr fun k hk =>
        h.dropList_items hm (hmem k (List.mem_append.mp hk)).1 (hmem k (List.mem_append.mp hk)).2
    rw [hseq, hcongr, hs, nested_split hl, erase_split (notMem_nested_split ha hu), nested_append]
    simp
  · have hseq : (self.dropItem x.1 x.2).map.seq = a ++ x.1 :: b := hs
    rw [hseq, hs]
    exact erase_nested hl ((dropItem_self self x.1 x.2).trans herase) ha hu
      (fun k hk => h.dropItem_items hm (hmem k (.inl hk)).1 (hmem k (.inl hk)).2)
      (fun k hk => h.dropItem_items hm (hmem k (.inr hk)).1 (hmem k (.inr hk)).2)

/-- cc_multimap_remove takes out one value and lands on the one that followed it. -/
theorem multimapRemove_eq (h : MultimapInv self) {x : IterPtr × IterPtr}
    (hx : x ∈ self.positions) :
    multimapRemove self (.ofPos x) = (some (self.lists.data x.2),
      (after x self.positions).head?.map MultimapIter.ofPos, self.drop x) := by
  obtain ⟨a, b, u, v, hs, ha, hb, hl, hu, haft⟩ := h.split hx
  have hm := (mem_positions.mp hx).1
  have hmem : ∀ k ∈ b, k ∈ self.map.seq ∧ k ≠ x.1 :=
    fun k hk => ⟨by simp [hs, hk], fun he => hb (he ▸ hk)⟩
  have hafter : after x.1 self.map.seq = b := by rw [hs, after_split ha]
  have hnext := listNext_eq hl hu
  have herase : (self.items x.1).erase x.2 = u ++ v := by rw [hl, erase_split hu]
  have hrem : (self.lists.remove (self.list x.1) x.2).seq (self.list x.1) = u ++ v :=
    (dropItem_self self x.1 x.2).trans herase
  -- the nodes after `x` keep their lists, so the head of the next one is the next position
  have hland : ∀ self' : CcMultimap L V, (∀ k ∈ b, self'.items k = self.items k) →
      self'.listHead b.head? = (nested self.items b).head?.map MultimapIter.ofPos := by
    intro self' hi
    rw [listHead_nested fun k hk => ?_, nested_congr hi]
    rw [hi k hk]
    exact h.nonempty k (hmem k hk).1
  simp only [multimapRemove, MultimapIter.ofPos, Option.map_some, Option.bind_some, hnext, hrem,
    List.length_eq_zero_iff, CcMultimap.drop, herase]
  by_cases hz : u ++ v = []
  · obtain ⟨rfl, rfl⟩ := List.append_eq_nil_iff.mp hz
    have hdrop : ({ self with
        map := (mapRemove self.map x.1).2.2
        lists := self.lists.remove (self.list x.1) x.2 } : CcMultimap L V).listDelete
          (self.list x.1) = self.dropList x.1 := by
      simp [CcMultimap.listDelete, CcMultimap.dropList, ListSeqs.remove, ListSeqs.discard,
        ListSeqs.setSeq]
    have hret : (mapRemove self.map x.1).2.1 = b.head? := congrArg List.head? hafter
    rw [if_pos hz, if_pos hz, hdrop, hret, haft,
      hland _ fun k hk => h.dropList_items hm (hmem k hk).1 (hmem k hk).2]
    rfl
  · rw [if_neg hz, if_neg hz, haft]
    cases v with
    | nil =>
      simp only [List.head?_nil, hafter, List.map_nil, List.nil_append]
      rw [← hland (self.dropItem x.1 x.2) fun k hk =>
        h.dropItem_items hm (hmem k hk).1 (hmem k hk).2]
      rfl
    | cons q v => simp [CcMultimap.dropItem, MultimapIter.ofPos]

end Remove

end LibCC
