import LibCC.ListThreads

/-! The account of the cells that the pool has allocated. Each is linked in a
list, in the private chain of a list, in the pool's chain, or in the chain
that a thread has from cc_listPool_get and has not stored yet. -/

namespace LibCC

open DoublyLinked SequenceFamily

variable {τ ι α : Type}

def ListSpare.places (e : ListSpare ι) (σ : ListSeqs ι α) (held : τ → List IterPtr) :
    ListPlace ι ⊕ τ → List IterPtr := Sum.elim (e.cells σ) held

/-- The cells of all blocks of the pool. -/
def poolCells (blocks : List Nat) : List IterPtr := blocks.flatMap (blockCells · listBlockSize)

structure PoolInv (st : ListStore ι α) (live : Finset ι) (e : ListSpare ι) (σ : ListSeqs ι α)
    (held : τ → List IterPtr) : Prop where
  rep : RepAt 0 e σ st
  separated : Separated (e.places σ held)
  cover : ∀ p, (∃ k, p ∈ e.places σ held k) ↔ p ∈ poolCells st.pool.blocks
  blocks : st.pool.blocks.Nodup
  total : st.pool.refcount + st.pool.count = listBlockSize * st.pool.blocks.length
  dead : ∀ list, list ∉ live → σ.seq list = [] ∧ e.cache list = []

theorem mem_poolCells {blocks : List Nat} {p : IterPtr} :
    p ∈ poolCells blocks ↔ p.block ∈ blocks ∧ p.index < listBlockSize := by
  simp [poolCells, mem_blockCells]

theorem poolCells_nodup {blocks : List Nat} (h : blocks.Nodup) : (poolCells blocks).Nodup := by
  refine List.nodup_flatMap.mpr ⟨fun b _ => blockCells_nodup b _, h.imp fun hne p hp hp' => ?_⟩
  exact hne ((mem_blockCells.mp hp).1.symm.trans (mem_blockCells.mp hp').1)

theorem poolCells_length (blocks : List Nat) :
    (poolCells blocks).length = listBlockSize * blocks.length := by
  induction blocks with
  | nil => rfl
  | cons b blocks ih =>
    have hcons : poolCells (b :: blocks) = blockCells b listBlockSize ++ poolCells blocks := rfl
    rw [hcons, List.length_append, ih, blockCells_length, List.length_cons, Nat.mul_succ]
    omega

section

variable {st : ListStore ι α} {live : Finset ι} {e : ListSpare ι} {σ : ListSeqs ι α}
  {held : τ → List IterPtr}

theorem PoolInv.places_length (h : PoolInv st live e σ held) {l : List IterPtr} (hl : l.Nodup)
    (hsub : ∀ p ∈ l, ∃ k, p ∈ e.places σ held k) :
    l.length ≤ listBlockSize * st.pool.blocks.length := by
  rw [← poolCells_length]
  exact (hl.subperm fun p hp => (h.cover p).mp (hsub p hp)).length_le

theorem places_iff {p : IterPtr} : (∃ k, p ∈ e.places σ held k) ↔
    (∃ list, p ∈ σ.seq list) ∨ (∃ list, p ∈ e.cache list) ∨ p ∈ e.free ∨ ∃ t, p ∈ held t := by
  constructor
  · rintro ⟨(list | list | _) | t, hp⟩
    · exact .inl ⟨list, hp⟩
    · exact .inr (.inl ⟨list, hp⟩)
    · exact .inr (.inr (.inl hp))
    · exact .inr (.inr (.inr ⟨t, hp⟩))
  · rintro (⟨list, hp⟩ | ⟨list, hp⟩ | hp | ⟨t, hp⟩)
    · exact ⟨.inl (.linked list), hp⟩
    · exact ⟨.inl (.cached list), hp⟩
    · exact ⟨.inl .pooled, hp⟩
    · exact ⟨.inr t, hp⟩

theorem PoolInv.mem_places (h : PoolInv st live e σ held) {p : IterPtr} :
    (∃ k, p ∈ e.places σ held k) ↔
      (∃ list ∈ live, p ∈ σ.seq list) ∨ (∃ list ∈ live, p ∈ e.cache list) ∨ p ∈ e.free ∨
        ∃ t, p ∈ held t := by
  have hseq : ∀ list, p ∈ σ.seq list → list ∈ live := by
    intro list hp
    by_contra hl
    simp [h.dead list hl] at hp
  have hcache : ∀ list, p ∈ e.cache list → list ∈ live := by
    intro list hp
    by_contra hl
    simp [h.dead list hl] at hp
  rw [places_iff]
  refine or_congr ?_ (or_congr ?_ Iff.rfl)
  · exact exists_congr fun list => ⟨fun hp => ⟨hseq list hp, hp⟩, fun hp => hp.2⟩
  · exact exists_congr fun list => ⟨fun hp => ⟨hcache list hp, hp⟩, fun hp => hp.2⟩

/-- The places of the live lists, of the pool and of the threads. -/
noncomputable def livePlaces (τ : Type) [Fintype τ] (live : Finset ι) : List (ListPlace ι ⊕ τ) :=
  (live.toList.map fun list => .inl (.linked list)) ++
    ((live.toList.map fun list => .inl (.cached list)) ++
      (.inl .pooled :: Finset.univ.toList.map .inr))

theorem livePlaces_nodup [Fintype τ] (live : Finset ι) : (livePlaces τ live).Nodup := by
  have hl : (live.toList.map fun list => (.inl (.linked list) : ListPlace ι ⊕ τ)).Nodup :=
    live.nodup_toList.map fun a b he => by simpa using he
  have hc : (live.toList.map fun list => (.inl (.cached list) : ListPlace ι ⊕ τ)).Nodup :=
    live.nodup_toList.map fun a b he => by simpa using he
  have ht : ((Finset.univ : Finset τ).toList.map (.inr : τ → ListPlace ι ⊕ τ)).Nodup :=
    Finset.univ.nodup_toList.map Sum.inr_injective
  simp only [livePlaces, List.nodup_append, List.nodup_cons]
  refine ⟨hl, ⟨hc, ⟨by simp, ht⟩, by simp⟩, ?_⟩
  simp only [List.mem_map, List.mem_append, List.mem_cons]
  rintro _ ⟨list, -, rfl⟩ _ (⟨list', -, rfl⟩ | rfl | ⟨t, -, rfl⟩) <;> simp

theorem sum_livePlaces [Fintype τ] (live : Finset ι) (e : ListSpare ι) (σ : ListSeqs ι α)
    (held : τ → List IterPtr) :
    ((livePlaces τ live).map fun k => (e.places σ held k).length).sum =
      (∑ list ∈ live, ((σ.seq list).length + (e.cache list).length)) + e.free.length +
        ∑ t, (held t).length := by
  rw [Finset.sum_add_distrib]
  simp only [livePlaces, List.map_append, List.map_cons, List.map_map, List.sum_append,
    List.sum_cons, ← Finset.sum_map_toList]
  simp only [Function.comp_def, ListSpare.places, Sum.elim_inl, Sum.elim_inr, ListSpare.cells]
  omega

/-- The reference count is the number of cells that are not in the pool's chain. -/
theorem PoolInv.refcount_eq [Fintype τ] (h : PoolInv st live e σ held) :
    st.pool.refcount = ((∑ list ∈ live, ((σ.seq list).length + (e.cache list).length)) +
      ∑ t, (held t).length : Nat) := by
  have hmem : ∀ p, p ∈ poolCells st.pool.blocks ↔
      ∃ k ∈ livePlaces τ live, p ∈ e.places σ held k := by
    intro p
    rw [← h.cover, h.mem_places]
    simp [livePlaces, or_and_right, exists_or, ListSpare.places, ListSpare.cells]
  have hlen := h.separated.length_eq (livePlaces_nodup live) (poolCells_nodup h.blocks) hmem
  rw [poolCells_length, sum_livePlaces] at hlen
  have htotal := h.total
  have hcount : st.pool.count = e.free.length := h.rep.inv.count
  omega

theorem PoolInv.of_refcount_zero (h : PoolInv st live e σ held) (hz : st.pool.refcount = 0)
    {k : ListPlace ι ⊕ τ} (hk : k ≠ .inl .pooled) : e.places σ held k = [] := by
  have htotal := h.total
  have hcount : st.pool.count = e.free.length := h.rep.inv.count
  have hsub : e.free ⊆ poolCells st.pool.blocks := fun p hp => (h.cover p).mp ⟨.inl .pooled, hp⟩
  have hfree : e.free.Nodup := h.separated.1 (.inl .pooled)
  have hperm : e.free.Perm (poolCells st.pool.blocks) := by
    refine (hfree.subperm hsub).perm_of_length_le ?_
    rw [poolCells_length]
    omega
  refine List.eq_nil_iff_forall_not_mem.mpr fun p hp => ?_
  have hpf : p ∈ e.free := hperm.mem_iff.mpr ((h.cover p).mp ⟨k, hp⟩)
  exact h.separated.notMem (k := .inl .pooled) hpf (Ne.symm hk) hp

end

end LibCC
