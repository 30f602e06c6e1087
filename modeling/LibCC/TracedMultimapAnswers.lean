import LibCC.TracedMultimapCalls

/-! The calls of cc_multimap, whatever the allocators answer: each one does to
what is stored what the call of the content does, and keeps the account. -/

namespace LibCC

open AllocEvent FramedProgram SequenceFamily

variable {V : Type}

section Unresized

variable {self : CcMap V} {hash : UInt32} {key : MapKey} {alloc : MapAlloc}

theorem mapGrow_unresized {realloc : Option (Nat → Option IterPtr)}
    (h : (LibCC.mapGrow realloc self).capacity < 2 * self.capacity) :
    LibCC.mapGrow realloc self = self := by
  by_cases hle : self.seq.length ≤ self.capacity
  · exact if_pos hle
  cases realloc with
  | none => exact if_neg hle
  | some fresh =>
    have hcap : (LibCC.mapGrow (some fresh) self).capacity = 2 * self.capacity := by
      rw [LibCC.mapGrow, if_neg hle, mapGrowLoop_frame]
    omega

/-- Where the capacity has not doubled, nothing is lost if realloc fails. -/
theorem mapAddHash_unresized (hi : MapInv self) (val : V)
    (h : (mapAddHash self val hash key alloc).2.capacity < 2 * self.capacity) :
    mapAddHash self val hash key ⟨alloc.node, alloc.iter, none⟩ =
      mapAddHash self val hash key alloc := by
  rw [mapAddHash_eq hi] at h ⊢
  rw [mapAddHash_eq hi]
  split_ifs at h ⊢
  · rfl
  let pos := self.seq.find? fun iter => mapRank hash key < self.rank iter
  let unsized : MapAlloc := ⟨alloc.node, alloc.iter, none⟩
  by_cases hf : alloc.node = false ∨ alloc.iter = none
  · have hf' : unsized.node = false ∨ unsized.iter = none := hf
    rw [mapAddAt_fail hf]
    exact mapAddAt_fail hf' ..
  · push Not at hf
    have hn : alloc.node = true := Bool.eq_true_of_not_eq_false hf.1
    obtain ⟨miter, hiter⟩ := Option.ne_none_iff_exists'.mp hf.2
    rw [mapAddAt_eq hn hiter] at h ⊢
    rw [mapGrow_unresized h]
    have hplain : mapAddAt self pos hash (self.idx hash) val key unsized =
        (some miter, LibCC.mapGrow none (mapInsert self pos miter ⟨val, hash, key⟩)) :=
      mapAddAt_eq (show unsized.node = true from hn) (show unsized.iter = some miter from hiter)
        self pos hash val key
    have hnone : ∀ m : CcMap V, LibCC.mapGrow none m = m := by
      intro m
      simp [LibCC.mapGrow]
    exact hplain.trans (by rw [hnone])

end Unresized

section Answered

variable {hashFn : UInt32 → List UInt8 → UInt32} {mem : UInt64 → UInt8} {self : TracedMultimap V}
  {s : TracedHeap} {R : Holding} {val : V} {len : Nat} {key : UInt64} {list : Nat}

theorem run_bind_of {α β : Type} {m : TracedM α} {f : α → TracedM β} {s s' : TracedHeap} {a : α}
    (h : m.run s = (a, s')) : (m >>= f).run s = (f a).run s' := by
  rw [StateT.run_bind, h]
  rfl

theorem append_perm (σ : ListSeqs Nat V) (list : Nat) (iter : IterPtr) (val : V) :
    ((σ.append list none iter val).seq list).Perm (iter :: σ.seq list) := by
  have hseq : (σ.append list none iter val).seq list = σ.seq list ++ [iter] := by
    simp [ListSeqs.append]
  rw [hseq]
  exact List.perm_append_singleton iter _

theorem append_other (σ : ListSeqs Nat V) {list other : Nat} (h : other ≠ list) (iter : IterPtr)
    (val : V) : (σ.append list none iter val).seq other = σ.seq other :=
  Function.update_of_ne h ..

theorem insertSorted_perm (σ : ListSeqs Nat V) (list : Nat) (compare : V → V → Int)
    (iter : IterPtr) (val : V) :
    ((σ.insertSorted list compare iter val).seq list).Perm (iter :: σ.seq list) := by
  obtain ⟨a, b, hl, he, -, -⟩ := σ.insertSorted_split list compare iter val
  rw [he, hl]
  show (Function.update σ.seq list (a ++ iter :: b) list).Perm _
  rw [Function.update_self]
  exact List.perm_middle

theorem insertSorted_other (σ : ListSeqs Nat V) {list other : Nat} (h : other ≠ list)
    (compare : V → V → Int) (iter : IterPtr) (val : V) :
    (σ.insertSorted list compare iter val).seq other = σ.seq other := by
  obtain ⟨a, b, -, he, -, -⟩ := σ.insertSorted_split list compare iter val
  rw [he]
  exact Function.update_of_ne h ..

/-- What a call of cc_multimap_addp did. `alloc` is what the content saw of the allocators. -/
structure PutAnswered (hashFn : UInt32 → List UInt8 → UInt32) (mem : UInt64 → UInt8)
    (m : TracedMultimap V) (R : Holding) (val : V) (len : Nat) (key : UInt64)
    (r : Int × TracedMultimap V) (s : TracedHeap) (alloc : MultimapAlloc Nat) : Prop where
  account : MultimapAccount r.2 s R
  result : multimapAddp hashFn mem m.content val len key alloc = (r.1, r.2.content)
  list : ∀ list, alloc.list = some list → list ∉ m.live
  iter : ∀ iter, alloc.iter = some iter → ∀ list ∈ m.live, iter ∉ m.lists.seq list
  miter : alloc.map.Unused m.map.map
  failed : r.1 = 0 → r.2.map = m.map ∧ r.2.holds = m.holds

/-- A list that is there gets the value, unless there is no iter for it. -/
theorem listPlace_answered (h : MultimapAccount self s R) (hm : list ∈ self.live)
    {place : IterPtr → ListSeqs Nat V}
    (hseq : ∀ iter, ((place iter).seq list).Perm (iter :: self.lists.seq list))
    (hother : ∀ iter other, other ≠ list → (place iter).seq other = self.lists.seq other)
    (hadd : ∀ iter, multimapAddp hashFn mem self.content val len key
      ⟨none, iter, ⟨false, none, none⟩⟩ = match iter with
        | none => (0, self.content)
        | some iter => (1, { self.content with lists := place iter })) :
    ∃ r s' alloc, (do
        let r ← self.listPlace list place
        return (if r.1 = none then 0 else 1, r.2) : TracedM (Int × TracedMultimap V)).run s =
          (r, s') ∧
      PutAnswered hashFn mem self R val len key r s' alloc := by
  obtain ⟨r, s', hr, hacc, rfl | ⟨iter, header, hfree, rfl⟩⟩ := h.listPlace_cases hm hseq hother
  · refine ⟨_, s', ⟨none, none, ⟨false, none, none⟩⟩, run_bind_of hr, hacc, hadd none, ?_, ?_, ?_,
      fun _ => ⟨rfl, rfl⟩⟩
    all_goals
      intro _ he
      cases he
  · refine ⟨_, s', ⟨none, some iter, ⟨false, none, none⟩⟩, run_bind_of hr, hacc, hadd (some iter),
      ?_, ?_, ?_, ?_⟩
    · intro _ he
      cases he
    · intro _ he
      cases he
      exact hfree
    · intro _ he
      cases he
    · intro he
      cases he

/-- A new list is in the map with the value, or is deleted again. -/
theorem multimapAddList_answered (h : MultimapAccount self s R)
    (hnone : (mapFindp hashFn mem self.map.map len key).map self.content.list = none) :
    ∃ r s' alloc, (Traced.multimapAddList hashFn mem self val len key).run s = (r, s') ∧
      PutAnswered hashFn mem self R val len key r s' alloc := by
  obtain ⟨r, s₁, hr₁, hacc₁, rfl | ⟨header, hnew, rfl⟩⟩ := h.listNew_cases
  · refine ⟨_, s₁, ⟨none, none, ⟨false, none, none⟩⟩, run_bind_of hr₁, hacc₁, ?_, ?_, ?_, ?_,
      fun _ => ⟨rfl, rfl⟩⟩
    · simp only [multimapAddp, TracedMultimap.content] at hnone ⊢
      rw [hnone]
    all_goals
      intro _ he
      cases he
  have hmem : header.self ∈ (self.addList header).live := List.mem_cons_self
  have hold : ∀ list ∈ self.live, (self.addList header).lists.seq list = self.lists.seq list :=
    fun list hl => Function.update_of_ne (ne_of_mem_of_not_mem hl hnew) ..
  have hlist : ∀ list, some header.self = some list → list ∉ self.live := by
    intro list he
    cases he
    exact hnew
  obtain ⟨r, s₂, hr₂, hacc₂, rfl | ⟨iter, header', hfree, rfl⟩⟩ := hacc₁.listPlace_cases hmem
    (fun iter => append_perm (self.addList header).lists header.self iter val)
    (fun iter _ hne => append_other (self.addList header).lists hne iter val)
  · -- fail_append
    obtain ⟨s₃, hr₃, hacc₃⟩ := hacc₂.listDelete_run hmem
    refine ⟨_, s₃, ⟨some header.self, none, ⟨false, none, none⟩⟩, (run_bind_of hr₁).trans
      ((run_bind_of hr₂).trans (run_bind_of hr₃)), hacc₃, ?_, hlist, ?_, ?_, fun _ => ?_⟩
    · simp only [multimapAddp, TracedMultimap.content] at hnone ⊢
      rw [hnone]
      rfl
    · intro _ he
      cases he
    · intro _ he
      cases he
    · exact ⟨rfl, (TracedMultimap.dropList_holds hacc₂.live_nodup).trans
        (TracedMultimap.addList_besides hnew)⟩
  have hiter : ∀ i, some iter = some i → ∀ list ∈ self.live, i ∉ self.lists.seq list := by
    intro i he list hl
    cases he
    rw [← hold list hl]
    exact hfree list (List.mem_cons_of_mem _ hl)
  obtain ⟨miter, map, s₃, alloc, hr₃, hunused, hres, hsame, hacc₃⟩ :=
    hacc₂.mapAddp_run hashFn mem header.self len key
  have hres : mapAddp hashFn mem self.map.map header.self len key alloc = (miter, map.map) := hres
  cases miter with
  | some miter =>
    refine ⟨_, s₃, ⟨some header.self, some iter, alloc⟩, (run_bind_of hr₁).trans
      ((run_bind_of hr₂).trans (run_bind_of hr₃)), hacc₃, ?_, hlist, hiter, hunused, ?_⟩
    · simp only [multimapAddp, TracedMultimap.content] at hnone ⊢
      rw [hnone]
      simp only [CcMultimap.listNew]
      rw [hres]
      rfl
    · intro he
      cases he
  | none => -- fail_add
    obtain rfl := hsame rfl
    have hin : iter ∈ ((self.addList header).lists.append header.self none iter val).seq
        header.self := (append_perm _ _ _ _).mem_iff.mpr List.mem_cons_self
    obtain ⟨header'', s₄, hr₄, hacc₄⟩ := hacc₃.listRemove_run hmem hin
    obtain ⟨s₅, hr₅, hacc₅⟩ := hacc₄.listDelete_run hmem
    refine ⟨_, s₅, ⟨some header.self, some iter, alloc⟩, (run_bind_of hr₁).trans
      ((run_bind_of hr₂).trans ((run_bind_of hr₃).trans ((run_bind_of hr₄).trans
        (run_bind_of hr₅)))), hacc₅, ?_, hlist, hiter, hunused, fun _ => ?_⟩
    · simp only [multimapAddp, TracedMultimap.content] at hnone ⊢
      rw [hnone]
      simp only [CcMultimap.listNew]
      rw [hres]
      rfl
    · let m₁ := self.addList header
      let m₂ := m₁.setList header.self header' (m₁.lists.append header.self none iter val)
      have hput : m₂.besides header.self = m₁.besides header.self :=
        TracedMultimap.setList_besides hacc₁.live_nodup
          fun _ hne => append_other m₁.lists hne iter val
      have hout : (m₂.setList header.self header'' (m₂.lists.remove header.self iter)).besides
          header.self = m₂.besides header.self :=
        TracedMultimap.setList_besides hacc₂.live_nodup fun _ hne => Function.update_of_ne hne ..
      exact ⟨rfl, (TracedMultimap.dropList_holds hacc₄.live_nodup).trans
        (hout.trans (hput.trans (TracedMultimap.addList_besides hnew)))⟩

theorem multimapAddp_answered (h : MultimapAccount self s R) (hi : MultimapInv self.content)
    (hashFn : UInt32 → List UInt8 → UInt32) (mem : UInt64 → UInt8) (val : V) (len : Nat)
    (key : UInt64) :
    ∃ r s' alloc, (Traced.multimapAddp hashFn mem self val len key).run s = (r, s') ∧
      PutAnswered hashFn mem self R val len key r s' alloc := by
  cases hf : (mapFindp hashFn mem self.map.map len key).map self.content.list with
  | none =>
    have hrun : Traced.multimapAddp hashFn mem self val len key =
        Traced.multimapAddList hashFn mem self val len key := by
      simp only [Traced.multimapAddp, hf]
    rw [hrun]
    exact multimapAddList_answered h hf
  | some list =>
    have hm : list ∈ self.live := by
      obtain ⟨miter, hmiter, rfl⟩ := Option.map_eq_some_iff.mp hf
      exact hi.mem_live (mapFindp_mem hmiter)
    cases hc : self.compare with
    | some compare =>
      have hrun : Traced.multimapAddp hashFn mem self val len key = (do
          let r ← self.listInsertSorted list compare val
          return (if r.1 = none then 0 else 1, r.2)) := by
        simp only [Traced.multimapAddp, hf, hc]
      rw [hrun]
      apply listPlace_answered h hm (fun iter => insertSorted_perm self.lists list compare iter val)
        (fun iter _ hne => insertSorted_other self.lists hne compare iter val)
      have hf : (mapFindp hashFn mem self.content.map len key).map self.content.list = some list :=
        hf
      have hc : self.content.compare = some compare := hc
      rintro (_ | iter)
      · simp only [multimapAddp, hf, hc]
      · simp only [multimapAddp, hf, hc]
        rfl
    | none =>
      have hrun : Traced.multimapAddp hashFn mem self val len key = (do
          let r ← self.listAppend list val
          return (if r.1 = none then 0 else 1, r.2)) := by
        simp only [Traced.multimapAddp, hf, hc]
      rw [hrun]
      apply listPlace_answered h hm (fun iter => append_perm self.lists list iter val)
        (fun iter _ hne => append_other self.lists hne iter val)
      have hf : (mapFindp hashFn mem self.content.map len key).map self.content.list = some list :=
        hf
      have hc : self.content.compare = none := hc
      rintro (_ | iter)
      · simp only [multimapAddp, hf, hc]
      · simp only [multimapAddp, hf, hc]
        rfl

theorem multimapAddp_unresized {self : CcMultimap Nat V} (hi : MapInv self.map)
    (alloc : MultimapAlloc Nat)
    (h : (multimapAddp hashFn mem self val len key alloc).2.map.capacity <
      2 * self.map.capacity) :
    multimapAddp hashFn mem self val len key
        ⟨alloc.list, alloc.iter, ⟨alloc.map.node, alloc.map.iter, none⟩⟩ =
      multimapAddp hashFn mem self val len key alloc := by
  have hmap : ∀ list, (mapAddp hashFn mem self.map list len key alloc.map).2.capacity <
      2 * self.map.capacity → mapAddp hashFn mem self.map list len key
        ⟨alloc.map.node, alloc.map.iter, none⟩ =
          mapAddp hashFn mem self.map list len key alloc.map := by
    intro list hlt
    cases hk : mapKeyBytes mem len key with
    | none => simp only [mapAddp, hk]
    | some key =>
      simp only [mapAddp, hk] at hlt ⊢
      exact mapAddHash_unresized hi list hlt
  obtain ⟨list, iter, map⟩ := alloc
  cases hf : (mapFindp hashFn mem self.map len key).map self.list with
  | some found => cases hc : self.compare <;> simp only [multimapAddp, hf, hc]
  | none =>
    obtain _ | list := list
    · simp only [multimapAddp, hf]
    obtain _ | iter := iter
    · simp only [multimapAddp, hf]
    simp only [multimapAddp, hf, CcMultimap.listNew] at h ⊢
    have hsame := hmap list
    cases hadd : mapAddp hashFn mem self.map list len key map with
    | mk miter map' =>
    rw [hadd] at h hsame
    cases miter with
    | none => rw [hsame h]
    | some miter => rw [hsame h]

/-- An int that holds the capacity is all that the heap must respect. -/
theorem PutAnswered.serves {r : Int × TracedMultimap V} {alloc : MultimapAlloc Nat}
    (h : PutAnswered hashFn mem self R val len key r s alloc) (hi : MapInv self.map.map)
    (hc : r.2.map.map.capacity ≤ 2 ^ 30) :
    ∃ alloc, alloc.Serves self.content ∧
      multimapAddp hashFn mem self.content val len key alloc = (r.1, r.2.content) := by
  by_cases hlt : self.map.map.capacity < 2 ^ 30
  · exact ⟨alloc, ⟨h.list, h.iter, h.miter, fun _ => hlt⟩, h.result⟩
  · refine ⟨⟨alloc.list, alloc.iter, ⟨alloc.map.node, alloc.map.iter, none⟩⟩,
      ⟨h.list, h.iter, h.miter, fun hne => absurd rfl hne⟩, ?_⟩
    rw [multimapAddp_unresized, h.result]
    · exact hi
    · rw [h.result]
      show r.2.map.map.capacity < 2 * self.map.map.capacity
      omega

end Answered

section Removed

variable {self : TracedMultimap V} {s : TracedHeap} {R : Holding}

theorem multimapRemove_run (h : MultimapAccount self s R) (hi : MultimapInv self.content)
    {x : IterPtr × IterPtr} (hx : x ∈ self.content.positions) :
    ∃ r s', (Traced.multimapRemove self x.1 x.2).run s = (r, s') ∧ MultimapAccount r.2.2 s' R ∧
      multimapRemove self.content (.ofPos x) = (some r.1, r.2.1, r.2.2.content) := by
  obtain ⟨hm, hin⟩ := mem_positions.mp hx
  have hlive : self.content.list x.1 ∈ self.live := hi.mem_live hm
  obtain ⟨header, s₁, hr₁, hacc₁⟩ := h.listRemove_run hlive hin
  let m₁ := self.setList (self.content.list x.1) header
    (self.lists.remove (self.content.list x.1) x.2)
  by_cases hz : (m₁.lists.seq (self.content.list x.1)).length = 0
  · obtain ⟨map, s₂, hr₂, hmap, hacc₂⟩ := hacc₁.mapRemove_run hm
    have hmap : map.map = (mapRemove self.map.map x.1).2.2 := hmap
    obtain ⟨s₃, hr₃, hacc₃⟩ := hacc₂.listDelete_run hlive
    let m₃ := (m₁.setMap map).dropList (self.content.list x.1)
    refine ⟨(self.lists.data x.2, m₃.content.listHead (mapRemove self.map.map x.1).2.1, m₃), s₃,
      ?_, hacc₃, ?_⟩
    · refine (run_bind_of hr₁).trans ?_
      rw [if_pos hz]
      exact (run_bind_of hr₂).trans (run_bind_of hr₃)
    · have hcontent : m₃.content = CcMultimap.listDelete { m₁.content with
          map := (mapRemove self.map.map x.1).2.2 } (self.content.list x.1) := by
        rw [← hmap]
        rfl
      rw [hcontent]
      exact if_pos hz
  · let next := self.content.listNext (self.content.list x.1) x.2
    refine ⟨(self.lists.data x.2, match next with
      | none => m₁.content.listHead (after x.1 self.map.map.seq).head?
      | some iter => some ⟨x.1, some iter⟩, m₁), s₁, ?_, hacc₁, ?_⟩
    · refine (run_bind_of hr₁).trans ?_
      rw [if_neg hz]
      cases hn : next with
      | none =>
        simp only [next] at hn
        rw [hn]
        rfl
      | some iter =>
        simp only [next] at hn
        rw [hn]
        rfl
    · refine (if_neg hz).trans ?_
      show (match next with
        | none => _
        | some iter => _ : Option V × Option MultimapIter × CcMultimap Nat V) = _
      cases next with
      | none => rfl
      | some iter => rfl

/-- Each turn of the loop releases the first node, its list and the iters of that. -/
theorem multimapDiscardLoop_run {l : List IterPtr} (h : MultimapAccount self s R)
    (hi : MultimapInv self.content) (hs : self.map.map.seq = l) :
    ∃ r s', (Traced.multimapDiscardLoop l.length l.head? self).run s = (r, s') ∧
      MultimapAccount r s' R ∧
      r.content = multimapDiscardLoop l.length l.head? self.content ∧
      r.map.map.seq = [] ∧ r.live = [] := by
  induction l generalizing self s with
  | nil =>
    refine ⟨self, s, rfl, h, rfl, hs, ?_⟩
    have hp : ((self.map.map.seq).map self.content.list).Perm self.live := hi.handles
    rw [hs] at hp
    exact hp.nil_eq.symm
  | cons x l ih =>
    have hx : x ∈ self.content.map.seq := by
      show x ∈ self.map.map.seq
      simp [hs]
    have hlive : (mapRemove self.map.map x).1 ∈ self.live := hi.mem_live hx
    obtain ⟨map, s₁, hr₁, hmap, hacc₁⟩ := h.mapRemove_run hx
    obtain ⟨header, s₂, hr₂, hacc₂⟩ := hacc₁.listDiscard_run hlive
    obtain ⟨s₃, hr₃, hacc₃⟩ := hacc₂.listDelete_run hlive
    let m₃ := (((self.setMap map).setList (mapRemove self.map.map x).1 header
      (self.lists.discard (mapRemove self.map.map x).1)).dropList (mapRemove self.map.map x).1)
    have hturn : m₃.content = CcMultimap.listDelete { self.content with
        map := (mapRemove self.map.map x).2.2
        lists := self.lists.discard (mapRemove self.map.map x).1 }
          (mapRemove self.map.map x).1 := by
      rw [← hmap]
      rfl
    have hdrop : m₃.content = self.content.dropList x := by
      rw [hturn]
      show (⟨_, _, (self.lists.discard _).discard _, _⟩ : CcMultimap Nat V) = _
      simp only [ListSeqs.discard, ListSeqs.setSeq_setSeq, CcMultimap.dropList]
      rfl
    have hseq : m₃.map.map.seq = l := by
      show map.map.seq = l
      rw [hmap, mapRemove_seq, hs, List.erase_cons_head]
    have hnext : (mapRemove self.map.map x).2.1 = l.head? := by
      have haft : after x self.map.map.seq = l := by
        rw [hs]
        exact after_split (a := []) List.not_mem_nil l
      exact congrArg List.head? haft
    have hinv : MultimapInv m₃.content := by
      rw [hdrop]
      exact hi.dropList hx
    obtain ⟨r, s', hr, hacc, hcontent, hnil, hempty⟩ := ih hacc₃ hinv hseq
    refine ⟨r, s', ?_, hacc, ?_, hnil, hempty⟩
    · refine (run_bind_of hr₁).trans ((run_bind_of hr₂).trans ((run_bind_of hr₃).trans ?_))
      show (Traced.multimapDiscardLoop l.length (mapRemove self.map.map x).2.1 m₃).run s₃ = _
      rw [hnext]
      exact hr
    · rw [hcontent]
      show multimapDiscardLoop l.length l.head? m₃.content =
        multimapDiscardLoop l.length (mapRemove self.map.map x).2.1 _
      rw [hnext, hturn]
      rfl

end Removed

end LibCC
