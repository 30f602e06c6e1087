import LibCC.ListInvariant

/-! Where new cells come from and where removed ones go: the pool hands out
sets of free iters, a list keeps the rest of a set in its own chain. -/

namespace LibCC

open DoublyLinked SequenceFamily

variable {ι α : Type}

/-- The cells `array[0..n)` of a block in the order the pool links them. -/
def blockCells (block : Nat) : Nat → List IterPtr
  | 0 => []
  | n + 1 => ⟨block, n⟩ :: blockCells block n

theorem mem_blockCells {block n : Nat} {p : IterPtr} :
    p ∈ blockCells block n ↔ p.block = block ∧ p.index < n := by
  induction n with
  | zero => simp [blockCells]
  | succ n ih =>
    obtain ⟨b, i⟩ := p
    simp only [blockCells, List.mem_cons, ih, IterPtr.mk.injEq]
    omega

theorem blockCells_nodup (block n : Nat) : (blockCells block n).Nodup := by
  induction n with
  | zero => exact List.nodup_nil
  | succ n ih => exact List.nodup_cons.mpr ⟨by simp [mem_blockCells], ih⟩

@[simp] theorem blockCells_length (block n : Nat) : (blockCells block n).length = n := by
  induction n with
  | zero => rfl
  | succ n ih => simp [blockCells, ih]

theorem listPoolFill_eq (block n : Nat) (st : ListStore ι α) :
    ∃ next iters, listPoolFill block n st =
        { st with next := next, pool := { st.pool with iters := iters } } ∧
      ∀ p, p.block ≠ block → next p = st.next p := by
  induction n with
  | zero => exact ⟨st.next, st.pool.iters, rfl, fun _ _ => rfl⟩
  | succ n ih =>
    obtain ⟨next, iters, he, hn⟩ := ih
    refine ⟨_, _, by simp only [listPoolFill, he, ListStore.setNext]; rfl, fun p hp => ?_⟩
    rw [Function.update_of_ne (fun h => hp (by rw [h]))]
    exact hn p hp

theorem listPoolFill_follows {block : Nat} (n : Nat) {st : ListStore ι α} {l : List IterPtr}
    (h : Follows st.next st.pool.iters l) (hl : ∀ p ∈ l, p.block ≠ block) :
    Follows (listPoolFill block n st).next (listPoolFill block n st).pool.iters
      (blockCells block n ++ l) := by
  induction n with
  | zero => exact h
  | succ n ih =>
    refine ⟨rfl, ?_⟩
    simp only [listPoolFill, ListStore.setNext, Function.update_self]
    refine ih.congr (fun p hp => Function.update_of_ne (fun he => ?_) _ _)
    rcases List.mem_append.mp hp with hm | hm
    · simp [he, mem_blockCells] at hm
    · exact hl p hm (by rw [he])

theorem listPoolTake_eq {u v : List IterPtr} {st : ListStore ι α} (tail : Option IterPtr)
    (h : Follows st.next st.pool.iters (u ++ v)) :
    listPoolTake u.length tail st =
      (u.getLast?.or tail, { st with pool := { st.pool with iters := v.head? } }) := by
  induction u generalizing tail st with
  | nil =>
    have hh : st.pool.iters = v.head? := h.head_eq
    rw [← hh]
    rfl
  | cons x u ih =>
    obtain ⟨hx, ht⟩ := h
    have hlast : (x :: u).getLast?.or tail = u.getLast?.or (some x) := by
      rw [List.getLast?_cons]
      cases u.getLast? <;> simp
    rw [hlast, List.length_cons, listPoolTake, hx]
    exact ih (some x) ht

theorem listPoolCount_eq {n count : Nat} {x : IterPtr} {u : List IterPtr} {st : ListStore ι α}
    (h : Follows st.next (st.next x) u) (hn : u.length ≤ n) :
    listPoolCount n count x st = (count + u.length, u.getLast?.getD x) := by
  induction u generalizing n count x with
  | nil =>
    have hx : st.next x = none := h
    cases n with
    | zero => rfl
    | succ n => rw [listPoolCount, hx]; rfl
  | cons y u ih =>
    obtain ⟨n, rfl⟩ : ∃ m, n = m + 1 := ⟨n - 1, by simp only [List.length_cons] at hn; omega⟩
    rw [List.length_cons] at hn ⊢
    rw [listPoolCount, h.1]
    show listPoolCount n (count + 1) y st = _
    rw [ih h.2 (by omega), List.getLast?_cons]
    simp only [Option.getD_some, Prod.mk.injEq, and_true]
    omega

/-- What is left to show when only free chains change. -/
theorem ListInv.recache {flags : Nat} {st st' : ListStore ι α} {c c' : ListPlace ι → List IterPtr}
    (h : ListInv flags st c) (hc : ∀ list, c' (.linked list) = c (.linked list))
    (hsep : Separated c')
    (hlinks : ∀ list, ∀ p ∈ c (.linked list), st'.next p = st.next p ∧ st'.prev p = st.prev p)
    (hlists : ∀ list, { st'.lists list with iters := none } = { st.lists list with iters := none })
    (hcached : ∀ list, Follows st'.next (st'.lists list).iters (c' (.cached list)))
    (hpooled : Follows st'.next st'.pool.iters (c' .pooled))
    (hcount : st'.pool.count = (c' .pooled).length)
    (ho : ∀ k, ∀ p ∈ c' k, Owned flags st' p) : ListInv flags st' c' := by
  refine ⟨hsep, fun list => ?_, fun list => ?_, fun list => ?_, hcached, hpooled, hcount, ho⟩
  · rw [hc]
    exact (h.links list).congr (fun p hp => (hlinks list p hp).1) (fun p hp => (hlinks list p hp).2)
  · have hh := h.headed list
    rw [hc]
    simp only [CcList.mk.injEq] at hlists
    exact ⟨(hlists list).2.2.1.trans hh.head, (hlists list).2.2.2.1.trans hh.tail,
      (hlists list).2.1.trans hh.size⟩
  · simp only [CcList.mk.injEq] at hlists
    exact (hlists list).1.trans (h.sameFlags list)

/-- The state after cc_listPool_get: a set of free iters is detached and
chained to itself, and nothing else that a list sees has changed. -/
structure PoolSet (flags : Nat) (st st' : ListStore ι α) (c' : ListPlace ι → List IterPtr)
    (set : List IterPtr) : Prop where
  inv : ListInv flags st' c'
  length : set.length = listSetSize
  nodup : set.Nodup
  detached : ∀ p ∈ set, Detached c' p
  owned : ∀ p ∈ set, Owned flags st' p
  follows : Follows st'.next set.head? set
  lists : st'.lists = st.lists

/-- What cc_listPool_get does to the pool's chain `pooled` once that is long enough. -/
structure PoolTaken (st st' : ListStore ι α) (set pooled : List IterPtr) : Prop where
  split : set ++ pooled.drop listSetSize = pooled
  next : ∀ p, p ∉ set → st'.next p = st.next p
  data : st'.data = st.data
  blocks : st'.pool.blocks = st.pool.blocks
  refcount : st'.pool.refcount = st.pool.refcount + listSetSize

theorem PoolTaken.mem {st st' : ListStore ι α} {set pooled : List IterPtr}
    (h : PoolTaken st st' set pooled) {p : IterPtr} (hp : p ∈ set) : p ∈ pooled := by
  rw [← h.split]
  exact List.mem_append_left _ hp

/-- What a new block adds to the pool, whose chain was `pooled`. -/
structure PoolGrown (flags block : Nat) (st st' : ListStore ι α)
    (c' : ListPlace ι → List IterPtr) : Prop where
  inv : ListInv flags st' c'
  count : st'.pool.count = st.pool.count + listBlockSize
  blocks : st'.pool.blocks = block :: st.pool.blocks
  refcount : st'.pool.refcount = st.pool.refcount
  lists : st'.lists = st.lists
  next : ∀ p, p.block ≠ block → st'.next p = st.next p
  data : ∀ p, p.block ≠ block → st'.data p = st.data p

section

variable [DecidableEq ι]

theorem listPoolGetSet_spec {flags : Nat} {st : ListStore ι α} {c : ListPlace ι → List IterPtr}
    (h : ListInv flags st c) (hs : listSetSize ≤ st.pool.count) :
    ∃ set st', listPoolGetSet st = (set.head?, st') ∧
      PoolSet flags st st' (Function.update c .pooled ((c .pooled).drop listSetSize)) set ∧
      PoolTaken st st' set (c .pooled) := by
  have hlen : ((c .pooled).take listSetSize).length = listSetSize := by
    rw [List.length_take, ← h.count]
    omega
  have hsplit := List.take_append_drop listSetSize (c .pooled)
  have hnd : ((c .pooled).take listSetSize ++ (c .pooled).drop listSetSize).Nodup := by
    rw [hsplit]; exact h.separated.1 _
  have hf : Follows st.next st.pool.iters
      ((c .pooled).take listSetSize ++ (c .pooled).drop listSetSize) := by
    rw [hsplit]; exact h.pooled
  have hne : (c .pooled).take listSetSize ≠ [] := by
    rintro he
    rw [he] at hlen
    exact absurd hlen (by decide)
  have htake := listPoolTake_eq none hf
  rw [hlen, Option.or_none] at htake
  have hcut := hf.cut hne hnd
  have hhead : st.pool.iters = ((c .pooled).take listSetSize).head? := by
    rw [hf.head_eq, List.head?_append]
    obtain ⟨x, u, hu⟩ := List.exists_cons_of_ne_nil hne
    simp [hu]
  obtain ⟨set, hset⟩ : ∃ set, set = (c .pooled).take listSetSize := ⟨_, rfl⟩
  obtain ⟨rest, hrest⟩ : ∃ rest, rest = (c .pooled).drop listSetSize := ⟨_, rfl⟩
  rw [← hset, ← hrest] at hsplit hnd hcut htake
  rw [← hset] at hhead hlen
  have hsub : ∀ p ∈ set, p ∈ c .pooled := fun p hp => hsplit ▸ List.mem_append_left _ hp
  have hsubr : ∀ p ∈ rest, p ∈ c .pooled := fun p hp => hsplit ▸ List.mem_append_right _ hp
  have hother : ∀ k, k ≠ .pooled → ∀ p ∈ c k, p ∉ set :=
    fun k hk p hp hm => h.separated.notMem hp hk (hsub p hm)
  refine ⟨set, { st with
      next := writeAt st.next set.getLast? none
      pool := { st.pool with
        iters := rest.head?
        count := st.pool.count - listSetSize
        refcount := st.pool.refcount + listSetSize } }, ?_,
    ⟨?_, hlen, (List.nodup_append.mp hnd).1, ?_, ?_, ?_, rfl⟩,
    ⟨hrest ▸ hsplit, fun p hp => writeAt_of_notMem_getLast hp, rfl, rfl, rfl⟩⟩
  · simp only [listPoolGetSet, htake, setNext?_eq, ← hhead]
  · rw [← hrest]
    refine h.recache (fun list => by simp) (h.separated.update_subset
      (List.nodup_append.mp hnd).2.1 hsubr) (fun list p hp => ⟨?_, rfl⟩) (fun list => rfl)
      (fun list => ?_) (by simpa using hcut.2) ?_ ?_
    · exact writeAt_of_notMem_getLast (hother _ (by simp) p hp)
    · rw [Function.update_of_ne (by simp)]
      exact (h.cached list).congr
        (fun p hp => writeAt_of_notMem_getLast (hother _ (by simp) p hp))
    · have hl := congrArg List.length hsplit
      rw [List.length_append, hlen, ← h.count] at hl
      simp only [Function.update_self]
      omega
    · intro k p hp
      by_cases hk : k = .pooled
      · subst hk
        exact h.owned .pooled p (hsubr p (by simpa using hp))
      · exact h.owned k p (by simpa [hk] using hp)
  · intro p hp k hk
    by_cases he : k = .pooled
    · subst he
      have hm : p ∈ rest := by simpa [← hrest] using hk
      exact (List.nodup_append.mp hnd).2.2 p hp p hm rfl
    · rw [Function.update_of_ne he] at hk
      exact hother k he p hk hp
  · exact fun p hp => h.owned .pooled p (hsub p hp)
  · exact hhead ▸ hcut.1

theorem listPoolAddBlock_spec {flags block : Nat} {st : ListStore ι α}
    {c : ListPlace ι → List IterPtr} (h : ListInv flags st c) (hf : FreshBlock st block)
    (hm : (flags &&& listFlagCMalloc != 0) = false) :
    PoolGrown flags block st (listPoolAddBlock block st)
      (Function.update c .pooled (blockCells block listBlockSize ++ c .pooled)) := by
  have hold : ∀ k, ∀ p ∈ c k, p.block ≠ block := by
    rintro k ⟨b, i⟩ hp rfl
    exact hf.detached h i k hp
  let st₁ : ListStore ι α := { st.clearBlock block with
    pool := { st.pool with blocks := block :: st.pool.blocks } }
  have hfol : Follows st₁.next st₁.pool.iters (c .pooled) :=
    h.pooled.congr (fun p hp => if_neg (hold _ p hp))
  obtain ⟨next, iters, he, hn⟩ := listPoolFill_eq block listBlockSize st₁
  have hff := listPoolFill_follows listBlockSize hfol (hold .pooled)
  have hadd : listPoolAddBlock block st = { st₁ with
      next := next
      pool := { st₁.pool with iters := iters, count := st.pool.count + listBlockSize } } := by
    have hfill : listPoolFill block listBlockSize { st.clearBlock block with
        pool := { (st.clearBlock block).pool with
          blocks := block :: (st.clearBlock block).pool.blocks } } = _ := he
    simp only [listPoolAddBlock, hfill]
    rfl
  have hother : ∀ p, p.block ≠ block → next p = st.next p :=
    fun p hp => (hn p hp).trans (if_neg hp)
  have hnext : ∀ k, ∀ p ∈ c k, next p = st.next p := fun k p hp => hother p (hold k p hp)
  rw [he] at hff
  rw [hadd]
  refine ⟨?_, rfl, rfl, rfl, rfl, hother, fun p hp => if_neg hp⟩
  have hnd : (blockCells block listBlockSize ++ c .pooled).Nodup := by
    refine List.nodup_append.mpr ⟨blockCells_nodup _ _, h.separated.1 _, fun x hx y hy he => ?_⟩
    exact hold _ y hy (he ▸ (mem_blockCells.mp hx).1)
  refine h.recache (fun list => by simp) (h.separated.update hnd ?_)
    (fun list p hp => ⟨hnext _ p hp, if_neg (hold _ p hp)⟩) (fun list => rfl) (fun list => ?_)
    (by simpa using hff) (by simp [h.count, Nat.add_comm]) ?_
  · intro p hp k hk
    rcases List.mem_append.mp hp with hp | hp
    · exact absurd (mem_blockCells.mp hp).1 (hold k p hk)
    · exact h.separated.2 _ _ p hk hp
  · rw [Function.update_of_ne (by simp)]
    exact (h.cached list).congr (fun p hp => hnext _ p hp)
  · intro k p hp
    have hp' : p.block = block ∨ ∃ k, p ∈ c k := by
      by_cases hk : k = .pooled
      · subst hk
        rw [Function.update_self] at hp
        rcases List.mem_append.mp hp with hp | hp
        · exact .inl (mem_blockCells.mp hp).1
        · exact .inr ⟨_, hp⟩
      · exact .inr ⟨k, by simpa [hk] using hp⟩
    rcases hp' with hb | ⟨k, hp⟩
    · simp [Owned, hm, st₁, hb]
    · have ho := h.owned k p hp
      simp only [Owned, hm] at ho
      simp [Owned, hm, st₁, show p.block ∈ st.pool.blocks by simpa using ho]

theorem listPoolGet_spec {flags block : Nat} {st : ListStore ι α} {c : ListPlace ι → List IterPtr}
    (h : ListInv flags st c) (hf : FreshBlock st block)
    (hm : (flags &&& listFlagCMalloc != 0) = false) :
    ∃ set st' l, listPoolGet (some block) st = (set.head?, st') ∧
      PoolSet flags st st' (Function.update c .pooled l) set ∧
      (∀ p ∈ set, ∀ k, k ≠ .pooled → p ∉ c k) ∧
      ∀ k, ∀ p ∈ c k, st'.data p = st.data p := by
  by_cases hs : st.pool.count < listSetSize
  · have hg := listPoolAddBlock_spec h hf hm
    obtain ⟨set, st', he, hset, htaken⟩ := listPoolGetSet_spec hg.inv
      (by rw [hg.count]; exact Nat.le_add_left_of_le (by decide))
    rw [Function.update_idem] at hset
    refine ⟨set, st', _, by rw [listPoolGet, if_pos hs]; exact he,
      { hset with lists := hset.lists.trans hg.lists }, ?_, ?_⟩
    · intro p hp k hk hpk
      exact hg.inv.separated.notMem (htaken.mem hp) (Ne.symm hk) (by simpa [hk] using hpk)
    · rintro k ⟨b, i⟩ hp
      rw [htaken.data]
      refine hg.data _ ?_
      rintro rfl
      exact hf.detached h i k hp
  · obtain ⟨set, st', he, hset, htaken⟩ := listPoolGetSet_spec h (Nat.le_of_not_lt hs)
    refine ⟨set, st', _, by rw [listPoolGet, if_neg hs]; exact he, hset, ?_, ?_⟩
    · exact fun p hp k hk => h.separated.notMem (htaken.mem hp) (Ne.symm hk)
    · exact fun k p _ => by rw [htaken.data]

/-- What a thread gets from an empty pool and a new block. -/
theorem listPoolGet_block {st : ListStore ι α} {c : ListPlace ι → List IterPtr} {block : Nat}
    (h : ListInv 0 st c) (hc : st.pool.count = 0) (hf : FreshBlock st block) :
    ∃ self st', listPoolGet (some block) st = (some self, st') ∧
      st'.pool.refcount = st.pool.refcount + listSetSize ∧
      st'.pool.count = listBlockSize - listSetSize ∧ st'.pool.blocks = block :: st.pool.blocks := by
  have hg := listPoolAddBlock_spec h hf rfl
  have hcount : (listPoolAddBlock block st).pool.count = listBlockSize := by
    rw [hg.count, hc, Nat.zero_add]
  obtain ⟨set, st', hget, hset, htaken⟩ := listPoolGetSet_spec hg.inv (by rw [hcount]; decide)
  have hne : set ≠ [] := by
    rintro rfl
    exact absurd hset.length (by decide)
  obtain ⟨self, rest, rfl⟩ := List.exists_cons_of_ne_nil hne
  refine ⟨self, st', ?_, ?_, ?_, ?_⟩
  · have hlt : st.pool.count < listSetSize := by rw [hc]; decide
    simp only [listPoolGet, hlt, if_true]
    exact hget
  · rw [htaken.refcount, hg.refcount]
  · have hdrop := hset.inv.count
    rw [Function.update_self, List.length_drop, ← hg.inv.count, hcount] at hdrop
    exact hdrop
  · rw [htaken.blocks, hg.blocks]

theorem ListInv.pushCached {flags : Nat} {st : ListStore ι α} {c : ListPlace ι → List IterPtr}
    (h : ListInv flags st c) (list : ι) {x : IterPtr} (hx : Detached c x) (ho : Owned flags st x) :
    ListInv flags ((st.setNext x (st.lists list).iters).setList list ({ · with iters := some x }))
      (Function.update c (.cached list) (x :: c (.cached list))) := by
  have hnext : ∀ k, ∀ p ∈ c k, Function.update st.next x (st.lists list).iters p = st.next p :=
    fun k p hp => Function.update_of_ne (ne_of_mem_of_not_mem hp (hx k)) _ _
  refine h.recache (fun m => by simp) (h.separated.update
      (List.nodup_cons.mpr ⟨hx _, h.separated.1 _⟩) ?_) (fun m p hp => ⟨hnext _ p hp, rfl⟩)
    (fun m => ?_) (fun m => ?_) ?_
    (by simpa [ListStore.setList, ListStore.setNext] using h.count) ?_
  · intro p hp k hk
    rcases List.mem_cons.mp hp with rfl | hp
    · exact absurd hk (hx k)
    · exact h.separated.2 _ _ p hk hp
  · by_cases hm : m = list
    · subst hm; simp [ListStore.setList, ListStore.setNext]
    · simp [ListStore.setList, ListStore.setNext, hm]
  · by_cases hm : m = list
    · subst hm
      simp only [ListStore.setList, ListStore.setNext, Function.update_self]
      refine ⟨rfl, ?_⟩
      rw [Function.update_self]
      exact (h.cached m).congr (hnext _)
    · have hk : ListPlace.cached m ≠ .cached list := fun he => hm (ListPlace.cached.inj he)
      simp only [ListStore.setList, ListStore.setNext, Function.update_of_ne hm,
        Function.update_of_ne hk]
      exact (h.cached m).congr (hnext _)
  · rw [Function.update_of_ne (by simp)]
    exact h.pooled.congr (hnext _)
  · intro k p hp
    by_cases hk : k = .cached list
    · subst hk
      rw [Function.update_self] at hp
      rcases List.mem_cons.mp hp with rfl | hp
      · exact ho
      · exact h.owned _ p hp
    · exact h.owned k p (by simpa [hk] using hp)

theorem listIterStash_pool (list : ι) (n : Nat) (o : Option IterPtr) (st : ListStore ι α) :
    (listIterStash list n o st).pool = st.pool := by
  induction n generalizing o st with
  | zero => cases o <;> rfl
  | succ n ih =>
    cases o with
    | none => rfl
    | some iter =>
      rw [listIterStash, ih]
      rfl

theorem listIterStash_spec {flags n : Nat} (list : ι) {o : Option IterPtr} {u : List IterPtr}
    {st : ListStore ι α} {c : ListPlace ι → List IterPtr} (h : ListInv flags st c)
    (hu : Follows st.next o u) (hn : u.length ≤ n) (hnd : u.Nodup)
    (hdet : ∀ p ∈ u, Detached c p) (ho : ∀ p ∈ u, Owned flags st p) :
    ListInv flags (listIterStash list n o st)
        (Function.update c (.cached list) (u.reverse ++ c (.cached list))) ∧
      (listIterStash list n o st).data = st.data ∧ (listIterStash list n o st).pool = st.pool ∧
      (listIterStash list n o st).callocs = st.callocs := by
  induction u generalizing n o st c with
  | nil =>
    have he : o = none := hu
    subst he
    cases n <;> simpa [listIterStash] using h
  | cons x u ih =>
    obtain ⟨rfl, hu⟩ := hu
    obtain ⟨n, rfl⟩ : ∃ m, n = m + 1 := ⟨n - 1, by simp only [List.length_cons] at hn; omega⟩
    obtain ⟨hxu, hndu⟩ := List.nodup_cons.mp hnd
    have hpush := h.pushCached list (hdet x (by simp)) (ho x (by simp))
    have hh := ih (n := n) (o := st.next x) hpush
      (hu.congr (fun p hp => Function.update_of_ne (ne_of_mem_of_not_mem hp hxu) _ _))
      (by simp only [List.length_cons] at hn; omega) hndu ?_
      (fun p hp => (ho p (by simp [hp])).congr rfl rfl)
    · rw [Function.update_idem, Function.update_self] at hh
      rw [List.reverse_cons, List.append_assoc, List.singleton_append]
      exact hh
    · intro p hp k hk
      by_cases he : k = .cached list
      · subst he
        rw [Function.update_self] at hk
        rcases List.mem_cons.mp hk with rfl | hk
        · exact hxu hp
        · exact hdet p (by simp [hp]) _ hk
      · exact hdet p (by simp [hp]) k (by simpa [he] using hk)

theorem listIterStash_next {n : Nat} (list : ι) {o : Option IterPtr} {u : List IterPtr}
    {st : ListStore ι α} (hu : Follows st.next o u) (hnd : u.Nodup) {p : IterPtr} (hp : p ∉ u) :
    (listIterStash list n o st).next p = st.next p := by
  induction u generalizing n o st with
  | nil =>
    have he : o = none := hu
    subst he
    cases n <;> rfl
  | cons x u ih =>
    obtain ⟨rfl, hu⟩ := hu
    obtain ⟨hxu, hndu⟩ := List.nodup_cons.mp hnd
    have hpx : p ≠ x := fun he => hp (by simp [he])
    cases n with
    | zero => rfl
    | succ n =>
      rw [listIterStash, ih (hu.congr fun q hq =>
        Function.update_of_ne (ne_of_mem_of_not_mem hq hxu) _ _) hndu fun hm => hp (by simp [hm])]
      exact Function.update_of_ne hpx _ _

/-- A cell that cc_listIter_new can use: detached, and the lists as before. -/
structure NewCell (flags : Nat) (st st' : ListStore ι α) (c c' : ListPlace ι → List IterPtr)
    (cell : IterPtr) : Prop where
  inv : ListInv flags st' c'
  linked : ∀ list, c' (.linked list) = c (.linked list)
  detached : Detached c' cell
  owned : Owned flags st' cell
  data : ∀ list, ∀ p ∈ c (.linked list), st'.data p = st.data p

omit [DecidableEq ι] in
theorem listIterAlloc_calloc {flags block : Nat} {st : ListStore ι α}
    {c : ListPlace ι → List IterPtr} (h : ListInv flags st c) (hf : FreshBlock st block)
    (hm : (flags &&& listFlagCMalloc != 0) = true) :
    NewCell flags st { st.clearBlock block with callocs := block :: st.callocs } c c
      ⟨block, 0⟩ := by
  have hold : ∀ k, ∀ p ∈ c k, p.block ≠ block := by
    rintro k ⟨b, i⟩ hp rfl
    exact hf.detached h i k hp
  have hnext : ∀ k, ∀ p ∈ c k, (st.clearBlock block).next p = st.next p :=
    fun k p hp => if_neg (hold k p hp)
  refine ⟨?_, fun _ => rfl, hf.detached h 0, by simp [Owned, hm], fun list p hp =>
    if_neg (hold _ p hp)⟩
  refine h.recache (fun _ => rfl) h.separated
    (fun list p hp => ⟨hnext _ p hp, if_neg (hold _ p hp)⟩)
    (fun _ => rfl) (fun list => (h.cached list).congr (hnext _)) (h.pooled.congr (hnext _))
    h.count (fun k p hp => ?_)
  have ho := h.owned k p hp
  simp only [Owned, hm] at ho ⊢
  exact ⟨ho.1, List.mem_cons_of_mem _ ho.2⟩

theorem listIterAlloc_cached {flags : Nat} {st : ListStore ι α} {c : ListPlace ι → List IterPtr}
    (h : ListInv flags st c) {list : ι} {self : IterPtr} (hs : (st.lists list).iters = some self) :
    ∃ rest, c (.cached list) = self :: rest ∧
      NewCell flags st (st.setList list ({ · with iters := st.next self })) c
        (Function.update c (.cached list) rest) self := by
  have hc := h.cached list
  obtain ⟨rest, hrest⟩ : ∃ rest, c (.cached list) = self :: rest := by
    cases he : c (.cached list) with
    | nil => simp [he, Follows, hs] at hc
    | cons x rest =>
      rw [he, hs] at hc
      exact ⟨rest, by rw [Option.some.inj hc.1]⟩
  rw [hrest] at hc
  have hnd := List.nodup_cons.mp (hrest ▸ h.separated.1 (.cached list))
  have hself : self ∈ c (.cached list) := by simp [hrest]
  have hsub : rest ⊆ c (.cached list) := by simp [hrest]
  refine ⟨rest, hrest, ?_, fun _ => by simp, ?_, (h.owned _ self hself).congr rfl rfl,
    fun _ _ _ => rfl⟩
  · refine h.recache (fun _ => by simp) (h.separated.update_subset hnd.2 hsub)
      (fun _ _ _ => ⟨rfl, rfl⟩) (fun m => ?_) (fun m => ?_)
      (by simpa [ListStore.setList] using h.pooled)
      (by simpa [ListStore.setList] using h.count) (fun k p hp => ?_)
    · by_cases hm : m = list
      · subst hm; simp [ListStore.setList]
      · simp [ListStore.setList, hm]
    · by_cases hm : m = list
      · subst hm
        simp only [ListStore.setList, Function.update_self]
        exact hc.2
      · have hk : ListPlace.cached m ≠ .cached list := fun he => hm (ListPlace.cached.inj he)
        simpa [ListStore.setList, hm, hk] using h.cached m
    · by_cases hk : k = .cached list
      · subst hk
        exact h.owned _ p (hsub (by simpa using hp))
      · exact h.owned k p (by simpa [hk] using hp)
  · intro k hk
    by_cases he : k = .cached list
    · subst he
      exact hnd.1 (by simpa using hk)
    · rw [Function.update_of_ne he] at hk
      exact h.separated.notMem hself (Ne.symm he) hk

theorem listIterAlloc_pool {flags block : Nat} {st : ListStore ι α}
    {c : ListPlace ι → List IterPtr} (h : ListInv flags st c) (hf : FreshBlock st block)
    (hm : (flags &&& listFlagCMalloc != 0) = false) (list : ι) :
    ∃ self st₁ st' c', listPoolGet (some block) st = (some self, st₁) ∧
      st' = listIterStash list listSetSize (st₁.next self) st₁ ∧
        NewCell flags st st' c c' self := by
  obtain ⟨set, st₁, l, hget, hset, hnew, hdata⟩ := listPoolGet_spec h hf hm
  obtain ⟨self, rest, rfl⟩ : ∃ self rest, set = self :: rest := by
    cases set with
    | nil => exact absurd hset.length (by decide)
    | cons x u => exact ⟨x, u, rfl⟩
  obtain ⟨hself, hnd⟩ := List.nodup_cons.mp hset.nodup
  have hlen : rest.length ≤ listSetSize := by
    have hl := hset.length
    rw [List.length_cons] at hl
    omega
  obtain ⟨hinv, hd, hp, hcal⟩ := listIterStash_spec list hset.inv hset.follows.2 hlen hnd
    (fun p hp => hset.detached p (by simp [hp])) (fun p hp => hset.owned p (by simp [hp]))
  refine ⟨self, st₁, _, _, hget, rfl, hinv, fun m => by simp, ?_,
    (hset.owned self (by simp)).congr hcal (by rw [hp]), fun m p hpm => ?_⟩
  · intro k hk
    by_cases he : k = .cached list
    · subst he
      rw [Function.update_self] at hk
      rcases List.mem_append.mp hk with hk | hk
      · exact hself (List.mem_reverse.mp hk)
      · exact hset.detached self (by simp) _ hk
    · exact hset.detached self (by simp) k (by simpa [he] using hk)
  · rw [hd]
    exact hdata _ p hpm

/-- However the cell is found, cc_listIter_new gets one when the allocator
does not fail. -/
theorem listIterAlloc_spec {flags block : Nat} {st : ListStore ι α}
    {c : ListPlace ι → List IterPtr} (h : ListInv flags st c) (hf : FreshBlock st block)
    (list : ι) :
    ∃ self st' c', listIterAlloc list (some block) st = (some self, st') ∧
      NewCell flags st st' c c' self := by
  have hflags : (st.lists list).cMalloc = (flags &&& listFlagCMalloc != 0) := by
    rw [CcList.cMalloc, h.sameFlags]
  cases hm : (flags &&& listFlagCMalloc != 0) with
  | true =>
    exact ⟨_, _, _, by simp only [listIterAlloc, hflags, hm, if_true]; rfl,
      listIterAlloc_calloc h hf hm⟩
  | false =>
    cases hs : (st.lists list).iters with
    | some self =>
      obtain ⟨rest, -, hc'⟩ := listIterAlloc_cached h hs
      exact ⟨self, _, _, by simp [listIterAlloc, hflags, hm, hs], hc'⟩
    | none =>
      obtain ⟨self, st₁, st', c', hget, rfl, hc'⟩ := listIterAlloc_pool h hf hm list
      exact ⟨self, _, c', by simp [listIterAlloc, hflags, hm, hs, hget], hc'⟩

end

end LibCC
