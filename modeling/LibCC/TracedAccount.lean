import LibCC.TracedHeap

/-! The account of a traced heap. Whatever is live is held by someone, and the
blocks of the pool by the pool; the free iters of the pool are nobody's. -/

namespace LibCC

open AllocEvent FramedProgram

def IterPool.holds (pool : IterPool) : Holding :=
  (pool.blocks.map fun block => (AllocFamily.memory, Piece.block block) : List _)

/-- The users of the heap together hold `items`. -/
structure HeapAccount (s : TracedHeap) (items : Holding) : Prop where
  matched : Matched s.trace
  accounts : Accounts (owner s.trace) (items + s.pool.holds)
  unused : ∀ block, s.requests ≤ block → owner s.trace (.block block) = none
  made : ∀ iter family, owner s.trace (.iter iter) = some family → iter.block < s.requests
  free : ∀ iter ∈ s.pool.iters, owner s.trace (.iter iter) = none ∧ iter.block < s.requests
  nodup : s.pool.iters.Nodup

theorem heapAccount_new (grants : Nat → Bool) (stale : Nat → Nat → Option IterPtr) :
    HeapAccount (TracedHeap.new grants stale) 0 where
  matched := trivial
  accounts := accounts_none
  unused _ _ := rfl
  made _ _ h := by cases h
  free _ h := by cases h
  nodup := List.nodup_nil

theorem HeapAccount.items_nodup {s : TracedHeap} {items : Holding} (h : HeapAccount s items) :
    items.Nodup := (Multiset.nodup_add.mp h.accounts.1).1

section Events

variable {s : TracedHeap} {items items' : Holding} {family : AllocFamily} {block old : Nat}
  {iter : IterPtr}

theorem HeapAccount.called (h : HeapAccount s items) (e : HeapEvent) (more : Nat)
    (hfits : e.Fits (owner s.trace))
    (hacc : Accounts (e.after (owner s.trace)) (items' + s.pool.holds))
    (hunused : ∀ b, s.requests + more ≤ b → e.after (owner s.trace) (.block b) = none)
    (hiter : ∀ i, e.after (owner s.trace) (.iter i) = owner s.trace (.iter i)) :
    HeapAccount ({ s with requests := s.requests + more }.record e) items' where
  matched := ⟨hfits, h.matched⟩
  accounts := hacc
  unused := hunused
  made i f hi := by
    have hlt := h.made i f ((hiter i).symm.trans hi)
    simp only [TracedHeap.record_requests]
    omega
  free i hi := by
    obtain ⟨ho, hlt⟩ := h.free i hi
    refine ⟨(hiter i).trans ho, ?_⟩
    simp only [TracedHeap.record_requests]
    omega
  nodup := h.nodup

theorem HeapAccount.granted (h : HeapAccount s items) (family : AllocFamily) :
    HeapAccount ({ s with requests := s.requests + 1 }.record
      (.alloc family (some (.block s.requests)))) ((family, .block s.requests) ::ₘ items) := by
  have hnew := h.unused _ (le_refl _)
  apply h.called (.alloc family (some (.block s.requests))) 1
  · intro p hp
    cases hp
    exact hnew
  · rw [Multiset.cons_add]
    exact h.accounts.alloc hnew family
  · intro b hb
    have hne : Piece.block b ≠ .block s.requests := by
      intro he
      cases he
      omega
    exact (Function.update_of_ne hne _ _).trans (h.unused b (by omega))
  · exact fun i => rfl

theorem HeapAccount.released (h : HeapAccount s ((family, .block block) ::ₘ items)) :
    HeapAccount (s.record (.release family (.block block))) items := by
  have hacc := h.accounts
  rw [Multiset.cons_add] at hacc
  apply h.called (.release family (.block block)) 0
  · exact hacc.mem
  · exact hacc.release
  · intro b hb
    by_cases he : Piece.block b = .block block
    · exact (congrArg _ he).trans (Function.update_self ..)
    · exact (Function.update_of_ne he _ _).trans (h.unused b hb)
  · exact fun i => rfl

theorem HeapAccount.resized (h : HeapAccount s ((family, .block old) ::ₘ items)) :
    HeapAccount ({ s with requests := s.requests + 1 }.record
        (.resize family (.block old) (some (.block s.requests))))
      ((family, .block s.requests) ::ₘ items) := by
  have hacc := h.accounts
  rw [Multiset.cons_add] at hacc
  have hnew := h.unused _ (le_refl _)
  have hne : Piece.block s.requests ≠ .block old := by
    intro he
    rw [he, hacc.mem] at hnew
    cases hnew
  apply h.called (.resize family (.block old) (some (.block s.requests))) 1
  · refine ⟨hacc.mem, ?_⟩
    intro p hp
    cases hp
    exact hnew
  · rw [Multiset.cons_add]
    exact hacc.release.alloc ((Function.update_of_ne hne _ _).trans hnew) family
  · intro b hb
    have hb' : Piece.block b ≠ .block s.requests := by
      intro he
      cases he
      omega
    refine (Function.update_of_ne hb' _ _).trans ?_
    by_cases he : Piece.block b = .block old
    · exact (congrArg _ he).trans (Function.update_self ..)
    · exact (Function.update_of_ne he _ _).trans (h.unused b (by omega))
  · exact fun i => rfl

/-- The pool forgets free iters, or counts anew. -/
theorem HeapAccount.setPool (h : HeapAccount s items) (f : IterPool → IterPool)
    (hb : (f s.pool).blocks = s.pool.blocks) (hi : (f s.pool).iters.Sublist s.pool.iters) :
    HeapAccount (s.setPool f) items where
  matched := h.matched
  accounts := by
    show Accounts _ (items + IterPool.holds (f s.pool))
    rw [IterPool.holds, hb]
    exact h.accounts
  unused := h.unused
  made := h.made
  free i hm := h.free i (hi.subset hm)
  nodup := h.nodup.sublist hi

end Events

/-- What the caller of an allocator holds. -/
def Holding.block (family : AllocFamily) : Option Nat → Holding
  | none => 0
  | some block => {(family, .block block)}

def Holding.iters (iters : List IterPtr) : Holding :=
  (iters.map fun iter => (AllocFamily.pool, Piece.iter iter) : List _)

@[simp] theorem Holding.iters_nil : Holding.iters [] = 0 := rfl

@[simp] theorem Holding.iters_cons (iter : IterPtr) (iters : List IterPtr) :
    Holding.iters (iter :: iters) = {(.pool, .iter iter)} + Holding.iters iters := rfl

theorem Holding.iters_reverse (iters : List IterPtr) :
    Holding.iters iters.reverse = Holding.iters iters :=
  Multiset.coe_eq_coe.mpr (iters.reverse_perm.map _)

namespace Traced

variable {s : TracedHeap} {items : Holding}

theorem heapAlloc_framed (family : AllocFamily) :
    Framed HeapAccount 0 (heapAlloc family) (Holding.block family) := by
  intro s R h
  rw [zero_add] at h
  by_cases hg : s.grants s.requests
  · have := h.granted family
    simpa [heapAlloc, hg, StateT.run, Holding.block] using this
  · have hfailed : HeapAccount
        ({ s with requests := s.requests + 1 }.record (.alloc family none)) R :=
      h.called (.alloc family none) 1 (by simp [Fits]) h.accounts
        (fun b hb => h.unused b (by omega)) (fun i => rfl)
    simpa [heapAlloc, hg, StateT.run, Holding.block] using hfailed

theorem heapRealloc_framed (family : AllocFamily) (old : Nat) :
    Framed HeapAccount {(family, .block old)} (heapRealloc family old)
      (fun r => {(family, .block (r.getD old))}) := by
  intro s R h
  rw [Multiset.singleton_add] at h
  by_cases hg : s.grants s.requests
  · have := h.resized
    simpa [heapRealloc, hg, StateT.run] using this
  · have hmine := h.accounts
    rw [Multiset.cons_add] at hmine
    have := h.called (.resize family (.block old) none) 1 (by simp [Fits, hmine.mem]) h.accounts
      (fun b hb => h.unused b (by omega)) (fun i => rfl)
    simpa [heapRealloc, hg, StateT.run] using this

theorem heapFree_framed (family : AllocFamily) (block : Nat) :
    Framed HeapAccount {(family, .block block)} (heapFree family block) (fun _ => 0) := by
  intro s R h
  rw [Multiset.singleton_add] at h
  rw [zero_add]
  exact h.released

theorem mem_poolFill {block : Nat} {iter : IterPtr} (h : iter ∈ poolFill block) :
    iter.block = block := by
  simp only [poolFill, List.mem_reverse, List.mem_map] at h
  obtain ⟨i, -, rfl⟩ := h
  rfl

theorem poolFill_nodup (block : Nat) : (poolFill block).Nodup := by
  rw [poolFill, List.nodup_reverse]
  apply List.Nodup.map _ List.nodup_range
  intro i j he
  exact congrArg IterPtr.index he

/-- The iters of a block that is new are nobody's. -/
theorem addBlock_account (h : HeapAccount s items) :
    HeapAccount (({ s with requests := s.requests + 1 }.record
      (.alloc .memory (some (.block s.requests)))).setPool fun pool =>
        { pool with
          blocks := s.requests :: pool.blocks
          iters := poolFill s.requests ++ pool.iters
          count := pool.count + listBlockSize }) items := by
  have hg := h.granted .memory
  have hown : ∀ i : IterPtr, i.block = s.requests → owner s.trace (.iter i) = none := by
    intro i hi
    cases ho : owner s.trace (.iter i) with
    | none => rfl
    | some f =>
      have hlt := h.made i f ho
      omega
  exact {
    matched := hg.matched
    accounts := by
      have hacc := hg.accounts
      rw [Multiset.cons_add, ← Multiset.add_cons] at hacc
      exact hacc
    unused := hg.unused
    made := hg.made
    free := fun i hi => by
      rcases List.mem_append.mp hi with hi | hi
      · have hb := mem_poolFill hi
        refine ⟨hown i hb, ?_⟩
        simp only [TracedHeap.setPool_requests, TracedHeap.record_requests]
        omega
      · exact hg.free i hi
    nodup := by
      apply List.Nodup.append (poolFill_nodup s.requests) h.nodup
      intro i hi hm
      have hlt := (h.free i hm).2
      have hb := mem_poolFill hi
      omega }

theorem poolAddBlock_framed : Framed HeapAccount 0 poolAddBlock (fun _ => 0) := by
  intro s R h
  rw [zero_add] at h ⊢
  by_cases hg : s.grants s.requests
  · have := addBlock_account h
    simpa [poolAddBlock, heapAlloc, hg, StateT.run, bind, StateT.bind, pure, StateT.pure, modify,
      modifyGet, MonadStateOf.modifyGet, StateT.modifyGet] using this
  · have := heapAlloc_framed .memory s R (by rwa [zero_add])
    simpa [poolAddBlock, heapAlloc, hg, StateT.run, bind, StateT.bind, pure, StateT.pure,
      Holding.block] using this

theorem poolTakeIter_framed :
    Framed HeapAccount 0 poolTakeIter (fun r => Holding.iters r.toList) := by
  intro s R h
  rw [zero_add] at h
  cases hp : s.pool.iters with
  | nil => simpa [poolTakeIter, hp, StateT.run] using h
  | cons iter iters =>
    have hnd := h.nodup
    rw [hp] at hnd
    obtain ⟨hnot, hnd⟩ := List.nodup_cons.mp hnd
    obtain ⟨ho, hlt⟩ := h.free iter (by simp [hp])
    have hkeep : ∀ i, i ≠ iter →
        Function.update (owner s.trace) (.iter iter) (some .pool) (.iter i) =
          owner s.trace (.iter i) := by
      intro i hi
      exact Function.update_of_ne (fun he => hi (by cases he; rfl)) _ _
    have hs : HeapAccount ((s.setPool ({ · with iters := iters })).record
        (.alloc .pool (some (.iter iter)))) ((.pool, .iter iter) ::ₘ R) := {
      matched := by
        refine ⟨?_, h.matched⟩
        intro p he
        cases he
        exact ho
      accounts := by
        rw [Multiset.cons_add]
        exact h.accounts.alloc ho .pool
      unused := h.unused
      made := fun i f hi => by
        by_cases he : i = iter
        · rw [he]
          exact hlt
        · exact h.made i f ((hkeep i he).symm.trans hi)
      free := fun i hi => by
        obtain ⟨hoi, hli⟩ := h.free i (by simp [hp]; exact .inr hi)
        exact ⟨(hkeep i (ne_of_mem_of_not_mem hi hnot)).trans hoi, hli⟩
      nodup := hnd }
    simpa [poolTakeIter, hp, StateT.run] using hs

theorem poolTake_framed (n : Nat) : Framed HeapAccount 0 (poolTake n) Holding.iters := by
  induction n with
  | zero => exact .pure rfl
  | succ n ih =>
    apply Framed.bind poolTakeIter_framed
    intro r
    cases r with
    | none => exact .pure rfl
    | some iter =>
      apply Framed.take (F := Holding.iters [iter]) (zero_add _).symm ih
      intro iters
      exact .pure (by simp [add_comm])

theorem modifyPool_framed (f : IterPool → IterPool) (hb : ∀ pool, (f pool).blocks = pool.blocks)
    (hi : ∀ pool, (f pool).iters.Sublist pool.iters) (P : Holding) :
    Framed HeapAccount P (modify fun s : TracedHeap => s.setPool f) (fun _ => P) :=
  fun s _ h => h.setPool f (hb s.pool) (hi s.pool)

theorem poolGetSet_framed : Framed HeapAccount 0 poolGetSet Holding.iters := by
  apply Framed.bind (poolTake_framed listSetSize)
  intro iters
  refine .bind (modifyPool_framed _ ?_ ?_ _) ?_
  · exact fun _ => rfl
  · exact fun _ => List.Sublist.refl _
  · exact fun _ => .pure rfl

theorem poolGet_framed : Framed HeapAccount 0 poolGet Holding.iters := by
  apply Framed.get
  intro s
  split_ifs
  · apply Framed.bind poolAddBlock_framed
    intro ok
    cases ok with
    | false => exact .pure rfl
    | true => exact poolGetSet_framed
  · exact poolGetSet_framed

theorem poolReturnIter_framed (iter : IterPtr) :
    Framed HeapAccount (Holding.iters [iter]) (poolReturnIter iter) (fun _ => 0) := by
  intro s R h
  have hacc := h.accounts
  have hmine : owner s.trace (.iter iter) = some .pool :=
    (hacc.2 _ _).mp (by simp)
  have hlt := h.made iter .pool hmine
  have hnot : iter ∉ s.pool.iters := by
    intro hm
    have hnone := (h.free iter hm).1
    rw [hmine] at hnone
    cases hnone
  have hkeep : ∀ i, i ≠ iter → Function.update (owner s.trace) (.iter iter) none (.iter i) =
      owner s.trace (.iter i) := by
    intro i hi
    exact Function.update_of_ne (fun he => hi (by cases he; rfl)) _ _
  rw [zero_add]
  exact {
    matched := ⟨hmine, h.matched⟩
    accounts := by
      rw [Holding.iters_cons, Holding.iters_nil, add_zero, Multiset.singleton_add,
        Multiset.cons_add] at hacc
      exact hacc.release
    unused := h.unused
    made := fun i f hi => by
      by_cases he : i = iter
      · rw [he]
        exact hlt
      · exact h.made i f ((hkeep i he).symm.trans hi)
    free := fun i hi => by
      rcases List.mem_cons.mp hi with rfl | hi
      · exact ⟨Function.update_self .., hlt⟩
      · obtain ⟨ho, hl⟩ := h.free i hi
        exact ⟨(hkeep i (ne_of_mem_of_not_mem hi hnot)).trans ho, hl⟩
    nodup := List.nodup_cons.mpr ⟨hnot, h.nodup⟩ }

theorem poolReturn_framed (iters : List IterPtr) :
    Framed HeapAccount (Holding.iters iters) (poolReturn iters) (fun _ => 0) := by
  induction iters with
  | nil => exact .pure rfl
  | cons iter iters ih =>
    apply Framed.take (F := Holding.iters [iter]) (by simp [add_comm]) ih
    intro _
    exact (poolReturnIter_framed iter).congr (zero_add _) fun _ => rfl

theorem poolFreeBlocks_account {blocks : List Nat} (hb : s.pool.blocks = blocks)
    (h : HeapAccount s items) : HeapAccount ((poolFreeBlocks blocks).run s).2 items := by
  induction blocks generalizing s with
  | nil => exact h
  | cons block blocks ih =>
    apply ih (s := (s.setPool ({ · with blocks := blocks })).record
      (.release .memory (.block block))) rfl
    have hacc := h.accounts
    rw [IterPool.holds, hb] at hacc
    have htaken : HeapAccount (s.setPool ({ · with blocks := blocks }))
        ((.memory, .block block) ::ₘ items) := {
      matched := h.matched
      accounts := by
        show Accounts _ (_ ::ₘ items + IterPool.holds _)
        rw [Multiset.cons_add, ← Multiset.add_cons]
        exact hacc
      unused := h.unused
      made := h.made
      free := h.free
      nodup := h.nodup }
    exact htaken.released

theorem poolClear_framed : Framed HeapAccount 0 poolClear (fun _ => 0) := by
  refine .bind (modifyPool_framed _ ?_ ?_ 0) ?_
  · exact fun _ => rfl
  · exact fun _ => List.nil_sublist _
  · exact fun _ s R h => poolFreeBlocks_account rfl h

/-- cc_listPool_put takes over a chain of iters of the pool. -/
theorem poolPut_framed (iters : List IterPtr) :
    Framed HeapAccount (Holding.iters iters) (poolPut iters) (fun _ => 0) := by
  unfold poolPut
  split_ifs with hn
  · exact .pure (by rw [hn]; rfl)
  apply Framed.bind (poolReturn_framed iters)
  intro _
  refine .bind (modifyPool_framed _ ?_ ?_ 0) ?_
  · exact fun _ => rfl
  · exact fun _ => List.Sublist.refl _
  · intro _
    apply Framed.get
    intro s
    split_ifs
    · exact poolClear_framed
    · exact .pure rfl

end Traced

end LibCC
