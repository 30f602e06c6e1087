import LibCC.TracedMapRuns
import LibCC.TracedMultimap

/-! What each call of cc_multimap does in a heap whose allocations may fail:
what it stores, and that it holds what it should. -/

namespace LibCC

open AllocEvent FramedProgram SequenceFamily

variable {V : Type}

/-- The multimap holds what is its own, and others hold `R`. -/
structure MultimapAccount (m : TracedMultimap V) (s : TracedHeap) (R : Holding) : Prop where
  headed : m.Headed
  account : HeapAccount s (m.holds + R)

namespace MultimapAccount

open TracedMultimap

variable {self : TracedMultimap V} {s : TracedHeap} {R : Holding} {list : Nat} {iter : IterPtr}

theorem mem_listsHold {lists : List Nat} {item : AllocFamily × Piece} (hm : list ∈ lists)
    (hi : item ∈ self.listHolds list) : item ∈ self.listsHold lists := by
  rw [listsHold, ← List.sum_map_erase self.listHolds hm]
  exact Multiset.mem_add.mpr (.inl hi)

theorem block_mem {header : ListHeader} (hf : header.flags = 0) (iters : List IterPtr) :
    (AllocFamily.memory, Piece.block header.self) ∈ header.holds iters := by
  have hp : ¬ isCMalloc header.flags = true := by
    rw [hf]
    decide
  rw [header.holds_pool hp]
  simp

theorem iter_mem {header : ListHeader} (hf : header.flags = 0) {iters : List IterPtr}
    (hm : iter ∈ iters) : (AllocFamily.pool, Piece.iter iter) ∈ header.holds iters := by
  have hp : ¬ isCMalloc header.flags = true := by
    rw [hf]
    decide
  rw [header.holds_pool hp]
  apply Multiset.mem_add.mpr
  right
  exact Multiset.mem_coe.mpr (List.mem_map_of_mem hm)

theorem nodup_of_blocks {lists : List Nat}
    (hh : ∀ list ∈ lists, (self.headers list).self = list ∧ (self.headers list).flags = 0)
    (hn : (self.listsHold lists).Nodup) : lists.Nodup := by
  induction lists with
  | nil => exact List.nodup_nil
  | cons list lists ih =>
    have hsum : self.listsHold (list :: lists) = self.listHolds list + self.listsHold lists := rfl
    rw [hsum, Multiset.nodup_add] at hn
    obtain ⟨hself, hflags⟩ := hh list (by simp)
    have hblock := block_mem hflags (self.lists.seq list)
    rw [hself] at hblock
    refine List.nodup_cons.mpr ⟨?_, ih (fun other hm => hh other (by simp [hm])) hn.2.1⟩
    intro hm
    exact Multiset.disjoint_left.mp hn.2.2 hblock (mem_listsHold hm hblock)

theorem live_nodup (h : MultimapAccount self s R) : self.live.Nodup := by
  have hn := (Multiset.nodup_add.mp h.account.items_nodup).1
  rw [holds, Multiset.nodup_add] at hn
  exact nodup_of_blocks h.headed hn.2.1

theorem listNew_cases (h : MultimapAccount self s R) :
    ∃ r s', self.listNew.run s = (r, s') ∧ MultimapAccount r.2 s' R ∧
      (r = (none, self) ∨ ∃ header : ListHeader, header.self ∉ self.live ∧
        r = (some header.self, self.addList header)) := by
  cases hr : (Traced.listNewFlags 0).run s with
  | mk o s' =>
  have hs : HeapAccount s (0 + (self.holds + R)) := by
    rw [zero_add]
    exact h.account
  have hs' := (Traced.listNewFlags_framed 0).ran hr hs
  cases o with
  | none =>
    have hrun : self.listNew.run s = ((none, self), s') := by
      rw [listNew, StateT.run_bind, hr]
      rfl
    refine ⟨_, s', hrun, ⟨h.headed, ?_⟩, .inl rfl⟩
    rw [show Traced.listHolds none = 0 from rfl, zero_add] at hs'
    exact hs'
  | some header =>
    have hflags : header.flags = 0 := by
      have hret := Traced.listNewFlags_returns 0 s header
      rw [hr] at hret
      exact hret rfl
    have hnew : header.self ∉ self.live := by
      intro hm
      obtain ⟨hself, hf⟩ := h.headed _ hm
      have hold := block_mem hf (self.lists.seq header.self)
      rw [hself] at hold
      have hin : (AllocFamily.memory, Piece.block header.self) ∈ self.holds + R :=
        Multiset.mem_add.mpr (.inl (Multiset.mem_add.mpr (.inr (mem_listsHold hm hold))))
      exact Multiset.disjoint_left.mp (Multiset.nodup_add.mp hs'.items_nodup).2.2
        (block_mem hflags []) hin
    have hrun : self.listNew.run s = ((some header.self, self.addList header), s') := by
      rw [listNew, StateT.run_bind, hr]
      rfl
    refine ⟨_, s', hrun, ⟨?_, ?_⟩, .inr ⟨header, hnew, rfl⟩⟩
    · intro other hm
      show (Function.update self.headers header.self header other).self = _ ∧
        (Function.update self.headers header.self header other).flags = 0
      by_cases he : other = header.self
      · rw [he, Function.update_self]
        exact ⟨rfl, hflags⟩
      · rw [Function.update_of_ne he]
        exact h.headed other ((List.mem_cons.mp hm).resolve_left he)
    · rw [addList_holds hnew, add_assoc]
      exact hs'

/-- The list gets an iter that no list has, or the multimap stays as it is. -/
theorem listPlace_cases (h : MultimapAccount self s R) (hm : list ∈ self.live)
    {place : IterPtr → ListSeqs Nat V}
    (hseq : ∀ iter, ((place iter).seq list).Perm (iter :: self.lists.seq list))
    (hother : ∀ iter other, other ≠ list → (place iter).seq other = self.lists.seq other) :
    ∃ r s', (self.listPlace list place).run s = (r, s') ∧ MultimapAccount r.2 s' R ∧
      (r = (none, self) ∨ ∃ iter header, (∀ other ∈ self.live, iter ∉ self.lists.seq other) ∧
        r = (some iter, self.setList list header (place iter))) := by
  obtain ⟨hself, hflags⟩ := h.headed list hm
  have hs := h.account
  rw [holds_split hm, add_assoc] at hs
  cases hr : (Traced.listIterAcquire (self.headers list)).run s with
  | mk o s' =>
  obtain ⟨o, header⟩ := o
  have hs' := (Traced.listIterAcquire_framed (self.headers list) (self.lists.seq list)).ran hr hs
  have hret := Traced.listIterAcquire_returns (self.headers list) s
  rw [hr] at hret
  cases o with
  | none =>
    have hfirst : ((Traced.listIterAcquire (self.headers list)).run s).1.1 = none := by rw [hr]
    have hnone := Traced.listIterAcquire_none hfirst
    rw [hr] at hnone
    have hsame : self.setList list header self.lists = self := by
      rw [setList, show header = self.headers list from hnone.1, Function.update_eq_self]
    have hrun : (self.listPlace list place).run s = ((none, self), s') := by
      rw [listPlace, StateT.run_bind, hr]
      exact congrArg (fun m => ((none, m), s')) hsame
    refine ⟨_, s', hrun, ⟨h.headed, ?_⟩, .inl rfl⟩
    rw [show header = self.headers list from hnone.1] at hs'
    rw [holds_split hm, add_assoc]
    exact hs'
  | some iter =>
    have hflags' : header.flags = 0 := hret.1.trans hflags
    have hn := hs'.items_nodup
    have hfree : ∀ other ∈ self.live, iter ∉ self.lists.seq other := by
      intro other ho hi
      by_cases he : other = list
      · subst he
        exact Traced.acquired_notMem hs' hi
      · have hitem := iter_mem (h.headed other ho).2 hi
        have hin : (AllocFamily.pool, Piece.iter iter) ∈ self.besides list + R := by
          apply Multiset.mem_add.mpr
          left
          apply Multiset.mem_add.mpr
          right
          exact mem_listsHold ((List.mem_erase_of_ne he).mpr ho) hitem
        exact Multiset.disjoint_left.mp (Multiset.nodup_add.mp hn).2.2
          (iter_mem hflags' (by simp)) hin
    have hrun : (self.listPlace list place).run s =
        ((some iter, self.setList list header (place iter)), s') := by
      rw [listPlace, StateT.run_bind, hr]
      rfl
    refine ⟨_, s', hrun, ⟨setList_headed h.headed hret.2 hret.1, ?_⟩,
      .inr ⟨iter, header, hfree, rfl⟩⟩
    rw [setList_holds hm h.live_nodup (hother iter), header.holds_perm (hseq iter), add_assoc]
    exact hs'

theorem listRemove_run (h : MultimapAccount self s R) (hm : list ∈ self.live)
    (hi : iter ∈ self.lists.seq list) :
    ∃ header s', (self.listRemove list iter).run s =
      (self.setList list header (self.lists.remove list iter), s') ∧
      MultimapAccount (self.setList list header (self.lists.remove list iter)) s' R := by
  have hs := h.account
  rw [holds_split hm, add_assoc, listHolds,
    (self.headers list).holds_perm (List.perm_cons_erase hi)] at hs
  cases hr : (Traced.listIterRelease iter (self.headers list)).run s with
  | mk header s' =>
  have hs' := (Traced.listIterRelease_framed (self.headers list)
    ((self.lists.seq list).erase iter) iter).ran hr hs
  have hret := Traced.listIterRelease_returns (self.headers list) iter s
  rw [hr] at hret
  refine ⟨header, s', ?_, setList_headed h.headed hret.2 hret.1, ?_⟩
  · rw [TracedMultimap.listRemove, StateT.run_bind, hr]
    rfl
  · have hseq : (self.lists.remove list iter).seq list = (self.lists.seq list).erase iter :=
      Function.update_self ..
    rw [setList_holds hm h.live_nodup fun _ hne => Function.update_of_ne hne .., hseq, add_assoc]
    exact hs'

theorem listDiscard_run (h : MultimapAccount self s R) (hm : list ∈ self.live) :
    ∃ header s', (self.listDiscard list).run s =
      (self.setList list header (self.lists.discard list), s') ∧
      MultimapAccount (self.setList list header (self.lists.discard list)) s' R := by
  have hs := h.account
  rw [holds_split hm, add_assoc] at hs
  cases hr : (Traced.listDiscard (self.lists.seq list) (self.headers list)).run s with
  | mk header s' =>
  have hs' := (Traced.listDiscard_framed (self.lists.seq list) (self.headers list)).ran hr hs
  have hret := Traced.listDiscard_returns (self.lists.seq list) (self.headers list) s
  rw [hr] at hret
  refine ⟨header, s', ?_, setList_headed h.headed hret.2 hret.1, ?_⟩
  · rw [TracedMultimap.listDiscard, StateT.run_bind, hr]
    rfl
  · have hseq : (self.lists.discard list).seq list = [] := Function.update_self ..
    rw [setList_holds hm h.live_nodup fun _ hne => Function.update_of_ne hne .., hseq, add_assoc]
    exact hs'

theorem listDelete_run (h : MultimapAccount self s R) (hm : list ∈ self.live) :
    ∃ s', (self.listDelete list).run s = (self.dropList list, s') ∧
      MultimapAccount (self.dropList list) s' R := by
  have hs := h.account
  rw [holds_split hm, add_assoc] at hs
  cases hr : (Traced.listDelete (self.lists.seq list) (self.headers list)).run s with
  | mk u s' =>
  have hs' := (Traced.listDelete_framed (self.lists.seq list) (self.headers list)).ran hr hs
  refine ⟨s', ?_, ?_, ?_⟩
  · rw [TracedMultimap.listDelete, StateT.run_bind, hr]
    rfl
  · exact fun other ho => h.headed other (List.mem_of_mem_erase ho)
  · rw [dropList_holds h.live_nodup]
    rw [zero_add] at hs'
    exact hs'

/-- The rest of what the multimap holds stays while a call changes the map. -/
theorem holds_map (self : TracedMultimap V) (R : Holding) :
    self.holds + R = self.map.holds +
      ({(AllocFamily.memory, Piece.block self.self)} + self.listsHold self.live + R) := by
  rw [holds]
  abel

theorem setMap {map : TracedMap Nat} {s' : TracedHeap} (h : MultimapAccount self s R)
    (hs : HeapAccount s' (map.holds +
      ({(AllocFamily.memory, Piece.block self.self)} + self.listsHold self.live + R))) :
    MultimapAccount (self.setMap map) s' R := by
  refine ⟨h.headed, ?_⟩
  rw [holds_map]
  exact hs

theorem mapRemove_run (h : MultimapAccount self s R) {miter : IterPtr}
    (hm : miter ∈ self.map.map.seq) :
    ∃ map s', (Traced.mapRemove self.map miter).run s =
        (((mapRemove self.map.map miter).1, (mapRemove self.map.map miter).2.1, map), s') ∧
      map.map = (mapRemove self.map.map miter).2.2 ∧ MultimapAccount (self.setMap map) s' R := by
  have hs := h.account
  rw [holds_map] at hs
  cases hr : (Traced.mapRemove self.map miter).run s with
  | mk r s' =>
  have hs' := (Traced.mapRemove_framed self.map hm).ran hr hs
  cases hn : (Traced.listIterRelease miter self.map.nodes).run s with
  | mk nodes s'' =>
  have hrun : (Traced.mapRemove self.map miter).run s =
      (((mapRemove self.map.map miter).1, (mapRemove self.map.map miter).2.1,
        { self.map with nodes := nodes, map := (mapRemove self.map.map miter).2.2 }),
        s''.record (.release self.map.family (.block (self.map.nodeBlock miter)))) := by
    rw [Traced.mapRemove, StateT.run_bind, hn]
    rfl
  rw [hr] at hrun
  cases hrun
  exact ⟨_, _, rfl, rfl, h.setMap hs'⟩

theorem mapAddp_run (h : MultimapAccount self s R) (hashFn : UInt32 → List UInt8 → UInt32)
    (mem : UInt64 → UInt8) (list len : Nat) (key : UInt64) :
    ∃ miter map s' alloc, (Traced.mapAddp hashFn mem self.map list len key).run s =
        ((miter, map), s') ∧
      alloc.Unused self.map.map ∧
      mapAddp hashFn mem self.map.map list len key alloc = (miter, map.map) ∧
      (miter = none → map = self.map) ∧ MultimapAccount (self.setMap map) s' R := by
  have hs := h.account
  rw [holds_map] at hs
  obtain ⟨alloc, ha⟩ := Traced.mapAddp_answered hs hashFn mem list len key
  have hs' := Traced.mapAddp_framed hashFn mem self.map list len key s _ hs
  exact ⟨_, _, _, alloc, rfl, ha.unused, ha.result.symm, fun hn => (ha.failed hn).1, h.setMap hs'⟩

end MultimapAccount

end LibCC
