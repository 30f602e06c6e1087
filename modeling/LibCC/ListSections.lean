import LibCC.ListPrivate

/-! The critical sections of the iter pool, and what a thread does with the
set that it got: the account stays closed. -/

namespace LibCC

open DoublyLinked SequenceFamily

variable {τ ι α : Type} {st : ListStore ι α} {live : Finset ι} {e : ListSpare ι}
  {σ : ListSeqs ι α} {held : τ → List IterPtr}

theorem PoolInv.fresh_held {block : Nat} (h : PoolInv st live e σ held)
    (hf : FreshBlock st block) {k : ListPlace ι ⊕ τ} {p : IterPtr} (hp : p ∈ e.places σ held k) :
    p.block ≠ block := by
  have hm := mem_poolCells.mp ((h.cover p).mp ⟨k, hp⟩)
  exact fun he => hf.2 (he ▸ hm.1)

/-- Without references the blocks can go. -/
theorem PoolInv.reset (h : PoolInv st live e σ held) (hz : st.pool.refcount = 0) :
    ∃ e', e'.cache = e.cache ∧ e'.link = st.next ∧
      PoolInv { st with pool := { st.pool with iters := none, count := 0, blocks := [] } }
        live e' σ held := by
  have hnil : ∀ k, k ≠ .inl .pooled → e.places σ held k = [] := fun k hk =>
    h.of_refcount_zero hz hk
  let e' : ListSpare ι := ⟨e.cache, [], { st.pool with iters := none, count := 0, blocks := [] },
    st.next⟩
  have hnil' : ∀ k, e'.places σ held k = [] := by
    rintro ((list | list | _) | t)
    · exact hnil (.inl (.linked list)) (by simp)
    · exact hnil (.inl (.cached list)) (by simp)
    · rfl
    · exact hnil (.inr t) (by simp)
  have hcells : ∀ k, e'.cells σ k = [] := fun k => hnil' (.inl k)
  refine ⟨e', rfl, rfl, ⟨⟨?_, h.rep.data, rfl, fun _ _ _ => rfl⟩, ?_, fun p => ?_, List.nodup_nil,
    ?_, h.dead⟩⟩
  · have hi := h.rep.inv
    refine ⟨⟨fun k => ?_, fun k k' p hp => ?_⟩, hi.links, hi.headed, hi.sameFlags, hi.cached, rfl,
      rfl, fun k p hp => ?_⟩
    · rw [hcells]
      exact List.nodup_nil
    · simp [hcells] at hp
    · simp [hcells] at hp
  · refine ⟨fun k => ?_, fun k k' p hp => ?_⟩
    · rw [hnil']
      exact List.nodup_nil
    · simp [hnil'] at hp
  · simp [hnil', poolCells]
  · show st.pool.refcount + 0 = _
    rw [hz]
    rfl

section

variable [DecidableEq ι]

theorem cells_pooled (e : ListSpare ι) (σ : ListSeqs ι α) (l : List IterPtr) (pool : ListPool)
    (link : IterPtr → Option IterPtr) :
    Function.update (e.cells σ) .pooled l = ListSpare.cells ⟨e.cache, l, pool, link⟩ σ :=
  cells_eq (fun _ => Function.update_of_ne (by simp) _ _)
    (fun _ => Function.update_of_ne (by simp) _ _) (Function.update_self _ _ _)

theorem PoolInv.addBlock {block : Nat} (h : PoolInv st live e σ held) (hf : FreshBlock st block) :
    ∃ e', e'.cache = e.cache ∧ PoolInv (listPoolAddBlock block st) live e' σ held ∧
      ∀ t, ∀ p ∈ held t, (listPoolAddBlock block st).next p = st.next p := by
  have hg := listPoolAddBlock_spec h.rep.inv hf rfl
  have hold : ∀ k, ∀ p ∈ e.places σ held k, p.block ≠ block := fun k p => h.fresh_held hf
  let e' : ListSpare ι := ⟨e.cache, blockCells block listBlockSize ++ e.free,
    (listPoolAddBlock block st).pool, (listPoolAddBlock block st).next⟩
  have hinv := hg.inv
  rw [cells_pooled e σ _ (listPoolAddBlock block st).pool (listPoolAddBlock block st).next] at hinv
  refine ⟨e', rfl, ⟨⟨hinv, fun list p hp => ?_, rfl, fun _ _ _ => rfl⟩, ?_, fun p => ?_, ?_, ?_,
    h.dead⟩, fun t p hp => hg.next p (hold (.inr t) p hp)⟩
  · rw [hg.data p (hold (.inl (.linked list)) p hp)]
    exact h.rep.data list p hp
  · refine separated_places hinv.separated h.held_separated fun t p hp k hk => ?_
    match k with
    | .linked list => exact h.held_detached hp (.linked list) hk
    | .cached list => exact h.held_detached hp (.cached list) hk
    | .pooled =>
      rcases List.mem_append.mp hk with hk | hk
      · exact hold (.inr t) p hp (mem_blockCells.mp hk).1
      · exact h.held_detached hp .pooled hk
  · have hcover := h.cover p
    rw [places_iff] at hcover
    rw [hg.blocks, places_iff, show poolCells (block :: st.pool.blocks) =
      blockCells block listBlockSize ++ poolCells st.pool.blocks from rfl, List.mem_append,
      List.mem_append, ← hcover]
    tauto
  · rw [hg.blocks]
    exact List.nodup_cons.mpr ⟨hf.2, h.blocks⟩
  · have htotal := h.total
    rw [hg.refcount, hg.count, hg.blocks, List.length_cons]
    push_cast
    rw [mul_add]
    omega

variable [DecidableEq τ]

/-- A set goes from the pool's chain into the hands of thread `t`. -/
theorem PoolInv.getSet {t : τ} (h : PoolInv st live e σ held) (ht : held t = [])
    (hs : listSetSize ≤ st.pool.count) :
    ∃ set e' st', listPoolGetSet st = (set.head?, st') ∧ set.length = listSetSize ∧
      Follows st'.next set.head? set ∧ e'.cache = e.cache ∧
      PoolInv st' live e' σ (Function.update held t set) ∧ st'.pool.blocks = st.pool.blocks ∧
      ∀ t', ∀ p ∈ held t', st'.next p = st.next p := by
  obtain ⟨set, st', hget, hset, htaken⟩ := listPoolGetSet_spec h.rep.inv hs
  let e' : ListSpare ι := ⟨e.cache, e.free.drop listSetSize, st'.pool, st'.next⟩
  have hinv := hset.inv
  rw [show e.cells σ .pooled = e.free from rfl, cells_pooled e σ _ st'.pool st'.next] at hinv
  have hfree : ∀ p ∈ set, p ∈ e.free := fun p hp => htaken.mem hp
  have hsplit : set ++ e.free.drop listSetSize = e.free := htaken.split
  have hheld : ∀ t', ∀ p ∈ held t', p ∉ set := fun t' p hp hm =>
    h.held_detached hp .pooled (hfree p hm)
  refine ⟨set, e', st', hget, hset.length, hset.follows, rfl, ⟨⟨hinv, fun list p hp => ?_, rfl,
    fun _ _ _ => rfl⟩, ?_, fun p => ?_, ?_, ?_, h.dead⟩, htaken.blocks,
    fun t' p hp => htaken.next p (hheld t' p hp)⟩
  · rw [htaken.data]
    exact h.rep.data list p hp
  · refine separated_places hinv.separated (h.held_separated.update hset.nodup ?_) ?_
    · exact fun p hp t' hp' => absurd hp (hheld t' p hp')
    · intro t' p hp
      have hdetset : p ∈ set → Detached (e'.cells σ) p := fun hm => by
        have hd := hset.detached p hm
        rwa [show e.cells σ .pooled = e.free from rfl,
          cells_pooled e σ _ st'.pool st'.next] at hd
      by_cases he : t' = t
      · rw [he, Function.update_self] at hp
        exact hdetset hp
      · rw [Function.update_of_ne he] at hp
        rintro (list | list | _) hk
        · exact h.held_detached hp (.linked list) hk
        · exact h.held_detached hp (.cached list) hk
        · exact h.held_detached hp .pooled (List.mem_of_mem_drop hk)
  · have hcover := h.cover p
    rw [places_iff] at hcover
    rw [htaken.blocks, places_iff, ← hcover, ← hsplit, List.mem_append]
    have hswap : ∀ a b c d f : Prop, (a ∨ b ∨ c ∨ d ∨ f) ↔ a ∨ b ∨ (d ∨ c) ∨ f := by tauto
    rw [exists_mem_update, exists_mem_split t (c := held), ht, List.mem_nil_iff, false_or]
    exact hswap _ _ _ _ _
  · rw [htaken.blocks]
    exact h.blocks
  · have htotal := h.total
    have hcount : st'.pool.count = (e.free.drop listSetSize).length := hinv.count
    have hcount' : st.pool.count = e.free.length := h.rep.inv.count
    rw [List.length_drop] at hcount
    rw [htaken.blocks, htaken.refcount]
    omega

theorem PoolInv.get {t : τ} (h : PoolInv st live e σ held) (ht : held t = [])
    {alloc : Option Nat} (hf : ∀ block, alloc = some block → FreshBlock st block) :
    listPoolGet alloc st = (none, st) ∨
      ∃ set e' st', listPoolGet alloc st = (set.head?, st') ∧ set.length = listSetSize ∧
        Follows st'.next set.head? set ∧ e'.cache = e.cache ∧
        PoolInv st' live e' σ (Function.update held t set) ∧
        st.pool.blocks ⊆ st'.pool.blocks ∧ ∀ t', ∀ p ∈ held t', st'.next p = st.next p := by
  by_cases hs : st.pool.count < listSetSize
  · cases alloc with
    | none => exact .inl (by simp [listPoolGet, hs])
    | some block =>
      have hg := listPoolAddBlock_spec h.rep.inv (hf block rfl) rfl
      obtain ⟨e₁, hc₁, h₁, hn₁⟩ := h.addBlock (hf block rfl)
      have hcount : listSetSize ≤ (listPoolAddBlock block st).pool.count := by
        rw [hg.count]
        exact Nat.le_add_left_of_le (by decide)
      obtain ⟨set, e', st', hget, hlen, hfol, hc, hinv, hb, hn⟩ := h₁.getSet ht hcount
      refine .inr ⟨set, e', st', by simp only [listPoolGet, hs, if_true]; exact hget, hlen, hfol,
        hc.trans hc₁, hinv, ?_, fun t' p hp => (hn t' p hp).trans (hn₁ t' p hp)⟩
      rw [hb, hg.blocks]
      exact List.subset_cons_self _ _
  · obtain ⟨set, e', st', hget, hlen, hfol, hc, hinv, hb, hn⟩ := h.getSet ht (Nat.le_of_not_lt hs)
    refine .inr ⟨set, e', st', by simp only [listPoolGet, hs, if_false]; exact hget, hlen, hfol, hc,
      hinv, ?_, hn⟩
    rw [hb]
    exact List.Subset.refl _

omit [DecidableEq τ] in
theorem Detached.update {c : ListPlace ι → List IterPtr} {p : IterPtr} (h : Detached c p)
    {k : ListPlace ι} {l : List IterPtr} (hp : p ∉ l) : Detached (Function.update c k l) p := by
  intro k' hk'
  by_cases he : k' = k
  · rw [he, Function.update_self] at hk'
    exact hp hk'
  · rw [Function.update_of_ne he] at hk'
    exact h k' hk'

/-- A thread links the first iter of its set and adds the others to the private chain. -/
theorem PoolInv.add {t : τ} (h : PoolInv st live e σ held) {list : ι} {self : IterPtr}
    {rest a b : List IterPtr} (ht : held t = self :: rest)
    (hfol : Follows st.next (st.next self) rest) (hlen : rest.length ≤ listSetSize)
    (hl : σ.seq list = a ++ b) (hlive : list ∈ live) (d : α) :
    ∃ e' σ' st', listIterNewRest list a.getLast? b.head? d (some self) st = (some self, st') ∧
      PoolInv st' live e' σ' (Function.update held t []) ∧
      (∀ m, m ≠ list → σ'.seq m = σ.seq m ∧ e'.cache m = e.cache m) ∧ st'.pool = st.pool ∧
      ∀ t', t' ≠ t → ∀ p ∈ held t', st'.next p = st.next p := by
  have hmem : ∀ p, p ∈ held t ↔ p = self ∨ p ∈ rest := fun p => by rw [ht, List.mem_cons]
  have hdet : ∀ p, p = self ∨ p ∈ rest → Detached (e.cells σ) p := fun p hp =>
    h.held_detached ((hmem p).mpr hp)
  have hown : ∀ p, p = self ∨ p ∈ rest → Owned 0 st p := fun p hp =>
    (mem_poolCells.mp ((h.cover p).mp ⟨.inr t, (hmem p).mpr hp⟩)).1
  obtain ⟨hself, hnd⟩ := List.nodup_cons.mp (ht ▸ h.held_separated.1 t)
  obtain ⟨hinv, hdata, hpool, hcal⟩ := listIterStash_spec list h.rep.inv hfol hlen hnd
    (fun p hp => hdet p (.inr hp)) (fun p hp => hown p (.inr hp))
  have hnext : ∀ p, p ∉ rest →
      (listIterStash list listSetSize (st.next self) st).next p = st.next p := fun p hp =>
    listIterStash_next list hfol hnd hp
  obtain ⟨st₁, hst₁⟩ : ∃ st₁, st₁ = listIterStash list listSetSize (st.next self) st := ⟨_, rfl⟩
  rw [← hst₁] at hinv hdata hpool hcal hnext
  let e' : ListSpare ι := ⟨Function.update e.cache list (rest.reverse ++ e.cache list), e.free,
    e.pool, st₁.next⟩
  have hcells : Function.update (e.cells σ) (.cached list)
      (rest.reverse ++ e.cells σ (.cached list)) = e'.cells σ :=
    (cells_cache e σ list _).trans (cells_eq (fun _ => rfl) (fun _ => rfl) rfl)
  rw [hcells] at hinv
  have hselfdet : Detached (e'.cells σ) self := by
    rw [← hcells]
    refine (hdet self (.inl rfl)).update fun hm => ?_
    rcases List.mem_append.mp hm with hm | hm
    · exact hself (List.mem_reverse.mp hm)
    · exact hdet self (.inl rfl) _ hm
  have hnew : NewCell 0 st st₁ (e.cells σ) (e'.cells σ) self :=
    ⟨hinv, fun _ => rfl, hselfdet, (hown self (.inl rfl)).congr hcal (by rw [hpool]),
      fun m p _ => by rw [hdata]⟩
  have hheld := hnew.held (fun _ => rfl) h.rep.data (hpool.trans h.rep.pool)
    (fun _ _ _ _ => rfl) d
  have hadd := listIterAdd_rep hheld (by simp [ListStore.setData]) (show _ = a ++ b from hl)
  rw [← listIterAdd_setData] at hadd
  obtain ⟨st', hst'⟩ : ∃ st', st' =
      (listIterAdd self list a.getLast? b.head? st₁).setData self (some d) := ⟨_, rfl⟩
  rw [← hst'] at hadd
  have hpool' : st'.pool = st.pool := hadd.pool.trans h.rep.pool.symm
  have hother : ∀ t', t' ≠ t → ∀ p ∈ held t', p ≠ self ∧ p ∉ rest := fun t' he p hp => by
    have hp' := h.held_separated.notMem hp he
    rw [ht, List.mem_cons, not_or] at hp'
    exact hp'
  have hdet' : ∀ t', t' ≠ t → ∀ p ∈ held t',
      Detached (e'.cells ((σ.setData self d).setSeq list (a ++ self :: b))) p := by
    intro t' he p hp
    obtain ⟨hps, hpr⟩ := hother t' he p hp
    have hpd := h.held_detached hp
    rw [← cells_setSeq, cells_setData, ← hcells]
    refine (hpd.update fun hm => ?_).update fun hm => ?_
    · rcases List.mem_append.mp hm with hm | hm
      · exact hpr (List.mem_reverse.mp hm)
      · exact hpd _ hm
    · have hpl : p ∉ a ++ b := hl ▸ hpd (.linked list)
      rcases List.mem_append.mp hm with hm | hm
      · exact hpl (List.mem_append_left _ hm)
      · rcases List.mem_cons.mp hm with hm | hm
        · exact hps hm
        · exact hpl (List.mem_append_right _ hm)
  refine ⟨e', _, st', by rw [hst', hst₁]; rfl, ⟨hadd, ?_, fun p => ?_, ?_, ?_, ?_⟩, ?_, hpool', ?_⟩
  · refine separated_places hadd.inv.separated
      (h.held_separated.update List.nodup_nil (by simp)) fun t' p hp => ?_
    by_cases he : t' = t
    · rw [he, Function.update_self] at hp
      exact absurd hp (by simp)
    · rw [Function.update_of_ne he] at hp
      exact hdet' t' he p hp
  · have hmoves : ∀ a b s r x c y f z : Prop, (((a ∨ s ∨ b) ∨ x) ∨ ((r ∨ c) ∨ y) ∨ f ∨ False ∨ z) ↔
        ((a ∨ b) ∨ x) ∨ (c ∨ y) ∨ f ∨ (s ∨ r) ∨ z := by tauto
    have hcover := h.cover p
    rw [places_iff, exists_mem_split list (c := σ.seq), exists_mem_split list (c := e.cache),
      exists_mem_split t (c := held), hmem, hl, List.mem_append] at hcover
    rw [hpool', ← hcover, places_iff]
    show (∃ m, p ∈ Function.update σ.seq list (a ++ self :: b) m) ∨
      (∃ m, p ∈ Function.update e.cache list (rest.reverse ++ e.cache list) m) ∨ _ ↔ _
    rw [exists_mem_update, exists_mem_update, exists_mem_update, List.mem_append,
      List.mem_append, List.mem_cons, List.mem_reverse, List.mem_nil_iff]
    exact hmoves _ _ _ _ _ _ _ _ _
  · rw [hpool']
    exact h.blocks
  · rw [hpool']
    exact h.total
  · intro m hm
    have hne : m ≠ list := fun he => hm (he ▸ hlive)
    simp only [e', ListSeqs.setSeq_seq, Function.update_of_ne hne]
    exact h.dead m hm
  · exact fun m hne => ⟨Function.update_of_ne hne _ _, Function.update_of_ne hne _ _⟩
  · intro t' he p hp
    rw [hadd.link rfl p (hdet' t' he p hp)]
    exact hnext p (hother t' he p hp).2

omit [DecidableEq τ] in
/-- The private chain of a list without iters goes to the pool, and the list is gone. -/
theorem PoolInv.putBack (h : PoolInv st live e σ held) {list : ι} {iters tail : IterPtr}
    (hseq : σ.seq list = []) (hhead : (e.cache list).head? = some iters)
    (htail : (e.cache list).getLast? = some tail) {st' : ListStore ι α}
    (hst' : st' = listFree list { st.setNext tail st.pool.iters with pool := { st.pool with
      iters := some iters
      count := st.pool.count + (e.cache list).length
      refcount := st.pool.refcount - (e.cache list).length } }) :
    ∃ e', e'.cache = Function.update e.cache list [] ∧ e'.link = st'.next ∧
      PoolInv st' (live.erase list) e' σ held ∧ ∀ t, ∀ p ∈ held t, st'.next p = st.next p := by
  have hnext : st'.next = Function.update st.next tail st.pool.iters := by rw [hst']; rfl
  have hlists : st'.lists = Function.update st.lists list (CcList.new (st.lists list).flags) := by
    rw [hst']; rfl
  have hprev : st'.prev = st.prev := by rw [hst']; rfl
  have hdata : st'.data = st.data := by rw [hst']; rfl
  have hcount : st'.pool.count = st.pool.count + (e.cache list).length := by rw [hst']; rfl
  have hrefs : st'.pool.refcount = st.pool.refcount - (e.cache list).length := by rw [hst']; rfl
  have hblocks : st'.pool.blocks = st.pool.blocks := by rw [hst']; rfl
  have hiters : st'.pool.iters = some iters := by rw [hst']; rfl
  have hi := h.rep.inv
  have hmemtail : tail ∈ e.cache list := List.mem_of_mem_getLast? htail
  have hne : e.cache list ≠ [] := List.ne_nil_of_mem hmemtail
  have hframe : ∀ k : ListPlace ι ⊕ τ, k ≠ .inl (.cached list) → ∀ p ∈ e.places σ held k,
      st'.next p = st.next p := by
    intro k hk p hp
    rw [hnext, Function.update_of_ne]
    rintro rfl
    exact h.separated.notMem hp hk hmemtail
  let e' : ListSpare ι := ⟨Function.update e.cache list [], e.cache list ++ e.free, st'.pool,
    st'.next⟩
  have hkind : ListPlace.cached list ≠ .pooled := by simp
  have hcells : Function.update (Function.update (e.cells σ) (.cached list) []) .pooled
      (e.cache list ++ e.free) = e'.cells σ := by
    rw [cells_cache, cells_pooled]
  have hnd : (e.cache list ++ e.free).Nodup := hi.separated.nodup_append hkind
  have hsep : Separated (e'.cells σ) := by
    rw [← hcells]
    refine (hi.separated.update List.nodup_nil (by simp)).update hnd fun p hp k hk => ?_
    by_cases hkl : k = .cached list
    · rw [hkl, Function.update_self] at hk
      exact absurd hk (by simp)
    · rw [Function.update_of_ne hkl] at hk
      rcases List.mem_append.mp hp with hp | hp
      · exact absurd (hi.separated.2 k (.cached list) p hk hp) hkl
      · exact hi.separated.2 k .pooled p hk hp
  have hsame : ∀ m, { st'.lists m with iters := none } = { st.lists m with iters := none } := by
    intro m
    rw [hlists]
    by_cases hm : m = list
    · subst hm
      obtain ⟨hh, ht, hs⟩ := hi.headed m
      rw [show e.cells σ (.linked m) = [] from hseq] at hh ht hs
      rw [Function.update_self]
      simp only [CcList.new, CcList.mk.injEq]
      exact ⟨trivial, hs.symm, hh.symm, ht.symm, trivial⟩
    · rw [Function.update_of_ne hm]
  have hown : ∀ p, Owned 0 st p → Owned 0 st' p := fun p hp => by
    have hp : p.block ∈ st.pool.blocks := hp
    show p.block ∈ st'.pool.blocks
    rwa [hblocks]
  have hinv : ListInv 0 st' (e'.cells σ) := by
    refine hi.recache (fun m => rfl) hsep (fun m p hp => ⟨hframe (.inl (.linked m)) (by simp) p hp,
      by rw [hprev]⟩) hsame (fun m => ?_) ?_ ?_ fun k p hp => ?_
    · rw [hlists]
      by_cases hm : m = list
      · subst hm
        rw [Function.update_self]
        show Follows st'.next none (Function.update e.cache m [] m)
        rw [Function.update_self]
        rfl
      · rw [Function.update_of_ne hm]
        show Follows st'.next _ (Function.update e.cache list [] m)
        rw [Function.update_of_ne hm]
        exact (hi.cached m).congr fun p hp => hframe (.inl (.cached m)) (by simpa using hm) p hp
    · have hcached : Follows st.next (st.lists list).iters (e.cache list) := hi.cached list
      have hpooled : Follows st.next st.pool.iters e.free := hi.pooled
      have hchain : Follows st.next (some iters) (e.cache list) := by
        rw [← hhead, ← hcached.head_eq]
        exact hcached
      have hjoin := hchain.append (hpooled.head_eq ▸ hpooled) hne hnd
      rw [htail, writeAt_some, ← hpooled.head_eq, ← hnext] at hjoin
      rw [hiters]
      exact hjoin
    · show st'.pool.count = (e.cache list ++ e.free).length
      rw [hcount, List.length_append, hi.count, show e.cells σ .pooled = e.free from rfl]
      omega
    · refine hown p ?_
      match k with
      | .linked m => exact hi.owned (.linked m) p hp
      | .cached m =>
        have hp : p ∈ Function.update e.cache list [] m := hp
        by_cases hm : m = list
        · rw [hm, Function.update_self] at hp
          exact absurd hp (by simp)
        · rw [Function.update_of_ne hm] at hp
          exact hi.owned (.cached m) p hp
      | .pooled =>
        rcases List.mem_append.mp hp with hp | hp
        · exact hi.owned (.cached list) p hp
        · exact hi.owned .pooled p hp
  refine ⟨e', rfl, rfl, ⟨⟨hinv, fun m p hp => ?_, rfl, fun _ _ _ => rfl⟩, ?_, fun p => ?_, ?_, ?_,
    fun m hm => ?_⟩, fun t p hp => hframe (.inr t) (by simp) p hp⟩
  · rw [hdata]
    exact h.rep.data m p hp
  · refine separated_places hsep h.held_separated fun t p hp => ?_
    have hd := h.held_detached hp
    rw [← hcells]
    refine (hd.update (by simp)).update fun hm => ?_
    rcases List.mem_append.mp hm with hm | hm
    · exact hd (.cached list) hm
    · exact hd .pooled hm
  · have hmoves : ∀ s u c f z : Prop, (s ∨ (False ∨ c) ∨ (u ∨ f) ∨ z) ↔ s ∨ (u ∨ c) ∨ f ∨ z := by
      tauto
    rw [hblocks, ← h.cover p, places_iff, places_iff, exists_mem_split list (c := e.cache)]
    show _ ∨ (∃ m, p ∈ Function.update e.cache list [] m) ∨ p ∈ e.cache list ++ e.free ∨ _ ↔ _
    rw [exists_mem_update, List.mem_append, List.mem_nil_iff]
    exact hmoves _ _ _ _ _
  · rw [hblocks]
    exact h.blocks
  · have htotal := h.total
    rw [hblocks, hcount, hrefs]
    push_cast
    omega
  · by_cases hml : m = list
    · subst hml
      exact ⟨hseq, Function.update_self _ _ _⟩
    · have hdead := h.dead m fun hl => hm (Finset.mem_erase.mpr ⟨hml, hl⟩)
      exact ⟨hdead.1, (Function.update_of_ne hml _ _).trans hdead.2⟩

omit [DecidableEq τ] in
/-- The section of cc_listPool_put and FREE(self). -/
theorem PoolInv.put (h : PoolInv st live e σ held) {list : ι} {iters tail : IterPtr}
    (hseq : σ.seq list = []) (hhead : (e.cache list).head? = some iters)
    (htail : (e.cache list).getLast? = some tail) {st' : ListStore ι α}
    (hst' : st' = listFree list (listPoolPutSet iters tail (e.cache list).length st)) :
    ∃ e', (∀ m, m ≠ list → e'.cache m = e.cache m) ∧ PoolInv st' (live.erase list) e' σ held ∧
      (∀ t, ∀ p ∈ held t, st'.next p = st.next p) ∧
      st'.pool.blocks = if st'.pool.refcount = 0 then [] else st.pool.blocks := by
  obtain ⟨st₁, hst₁⟩ : ∃ st₁, st₁ = listFree list { st.setNext tail st.pool.iters with
      pool := { st.pool with
        iters := some iters
        count := st.pool.count + (e.cache list).length
        refcount := st.pool.refcount - (e.cache list).length } } := ⟨_, rfl⟩
  obtain ⟨e₁, hc₁, hl₁, h₁, hn₁⟩ := h.putBack hseq hhead htail hst₁
  have hcache : ∀ m, m ≠ list → e₁.cache m = e.cache m := fun m hm => by
    rw [hc₁, Function.update_of_ne hm]
  have hrefs : st₁.pool.refcount = st.pool.refcount - (e.cache list).length := by rw [hst₁]; rfl
  by_cases hz : st.pool.refcount - (e.cache list).length = 0
  · have hput : st' =
        { st₁ with pool := { st₁.pool with iters := none, count := 0, blocks := [] } } := by
      rw [hst', hst₁]
      exact congrArg (listFree list) (if_pos hz)
    obtain ⟨e', hc', -, h'⟩ := h₁.reset (hrefs.trans hz)
    subst hput
    exact ⟨e', fun m hm => by rw [hc', hcache m hm], h', hn₁, (if_pos (hrefs.trans hz)).symm⟩
  · have hput : st' = st₁ := by
      rw [hst', hst₁]
      exact congrArg (listFree list) (if_neg hz)
    subst hput
    refine ⟨e₁, hcache, h₁, hn₁, ?_⟩
    rw [hrefs, if_neg hz, hst₁]
    rfl

end

end LibCC
