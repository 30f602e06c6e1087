import LibCC.MapUpdate

/-! Runs of map calls: the representation invariant holds in every state,
and the results are those of a finite map from keys to entries. -/

namespace LibCC

open SequenceFamily SortedSearch

variable {V : Type}

/-- The iter that cc_list finds for a new node is not in use. -/
def MapAlloc.Unused (alloc : MapAlloc) (self : CcMap V) : Prop :=
  ∀ iter, alloc.iter = some iter → iter ∉ self.seq

/-- cc_map_addp either changes nothing or puts in one node with a new key. -/
theorem mapAddHash_cases {self : CcMap V} (h : MapInv self) (val : V) (hash : UInt32) (key : MapKey)
    (alloc : MapAlloc) :
    (mapAddHash self val hash key alloc = (none, self) ∧
      ((∃ y ∈ self.seq, self.rank y = mapRank hash key) ∨ alloc.node = false ∨
        alloc.iter = none)) ∨
    ∃ miter, alloc.iter = some miter ∧ (∀ y ∈ self.seq, self.rank y ≠ mapRank hash key) ∧
      mapAddHash self val hash key alloc = (some miter, mapGrow alloc.realloc
        (mapInsert self (self.seq.find? fun iter => mapRank hash key < self.rank iter) miter
          ⟨val, hash, key⟩)) := by
  rw [mapAddHash_eq h]
  by_cases hk : ∃ y ∈ self.seq, self.rank y = mapRank hash key
  · exact .inl ⟨if_pos hk, .inl hk⟩
  · rw [if_neg hk]
    by_cases hf : alloc.node = false ∨ alloc.iter = none
    · exact .inl ⟨mapAddAt_fail hf .., .inr hf⟩
    · have hn : alloc.node = true := by
        cases hc : alloc.node with
        | false => exact absurd (.inl hc) hf
        | true => rfl
      obtain ⟨miter, hi⟩ := Option.ne_none_iff_exists'.mp (fun he => hf (.inr he))
      exact .inr ⟨miter, hi, fun y hy he => hk ⟨y, hy, he⟩, mapAddAt_eq hn hi ..⟩

theorem mapGrow_seq (realloc : Option (Nat → Option IterPtr)) (self : CcMap V) :
    (mapGrow realloc self).seq = self.seq := by
  rw [CcMap.seq, (mapGrow_frame realloc self).2.1, CcMap.seq]

theorem mapGrow_node (realloc : Option (Nat → Option IterPtr)) (self : CcMap V) :
    (mapGrow realloc self).node = self.node := by
  funext iter
  rw [CcMap.node, (mapGrow_frame realloc self).2.1, CcMap.node]

theorem mapAddp_inv {self : CcMap V} (h : MapInv self) {alloc : MapAlloc} (ha : alloc.Unused self)
    (hashFn : UInt32 → List UInt8 → UInt32) (mem : UInt64 → UInt8) (val : V) (len : Nat)
    (key : UInt64) (hsize : mapSize (mapAddp hashFn mem self val len key alloc).2 ≤ 2 ^ 30) :
    MapInv (mapAddp hashFn mem self val len key alloc).2 := by
  cases hk : mapKeyBytes mem len key with
  | none => simpa only [mapAddp, hk] using h
  | some key =>
    simp only [mapAddp, hk] at hsize ⊢
    rcases mapAddHash_cases h val (hashFn self.seed key.bytes) key alloc with
      ⟨he, -⟩ | ⟨miter, hi, hr, he⟩
    · rw [he]
      exact h
    · rw [he] at hsize ⊢
      simp only [mapSize, mapGrow_seq] at hsize
      have hi : MapInv (mapInsert self _ miter ⟨val, hashFn self.seed key.bytes, key⟩) :=
        mapInsert_inv h (ha miter hi) hr rfl
      have hle := Int.ofNat_le.mp hsize
      exact mapGrow_inv hi (fun _ hlt => lt_of_lt_of_le hlt hle)

/-- The states of cc_map when any allocation may fail and any hash may come
up, with at most 2^30 entries at a time. -/
inductive MapReach : CcMap V → Prop
  | new (seed : UInt32) (data : IterPtr → MapNode V) : MapReach (mapNew seed data)
  | addp {self : CcMap V} (hashFn : UInt32 → List UInt8 → UInt32) (mem : UInt64 → UInt8) (val : V)
      (len : Nat) (key : UInt64) (alloc : MapAlloc) : MapReach self → alloc.Unused self →
      mapSize (mapAddp hashFn mem self val len key alloc).2 ≤ 2 ^ 30 →
      MapReach (mapAddp hashFn mem self val len key alloc).2
  | remove {self : CcMap V} {miter : IterPtr} : MapReach self → miter ∈ self.seq →
      MapReach (mapRemove self miter).2.2
  | discard {self : CcMap V} : MapReach self → MapReach (mapDiscard self)

theorem MapReach.inv {self : CcMap V} (h : MapReach self) : MapInv self := by
  induction h with
  | new seed data => exact mapNew_inv seed data
  | addp hashFn mem val len key alloc _ ha hs ih =>
    exact mapAddp_inv ih ha hashFn mem val len key hs
  | remove _ hm ih => exact mapRemove_inv ih hm
  | discard _ ih => exact mapDiscard_inv ih

/-- The representation invariant in the words of the code. -/
theorem map_representation {self : CcMap V} (h : MapReach self) :
    self.seq.Pairwise (fun a b =>
      mapNodeCmp (self.node a) (self.node b).hash (self.node b).key < 0) ∧
    (∀ i < self.capacity, self.buckets i =
      self.seq.find? (fun iter => (self.node iter).hash.toNat / self.elements = i)) ∧
    (∃ k, self.capacity = 16 * 2 ^ k) ∧ self.capacity ≤ 2 ^ 30 ∧
    self.elements * self.capacity = 2 ^ 32 ∧
    (∀ hash : UInt32, hash.toNat / self.elements < self.capacity) ∧
    self.nodesSize = (self.seq.map fun iter => 16 + (self.node iter).key.bytes.length).sum := by
  have hinv := h.inv
  obtain ⟨k, hk, hc⟩ := hinv.capacity
  refine ⟨?_, hinv.buckets, ⟨k, hc⟩, ?_, hinv.elements, idx_lt_capacity hinv.elements,
    hinv.nodesSize⟩
  · apply List.Pairwise.imp _ hinv.ascending
    intro a b hlt
    exact (mapNodeCmp_compares (self.node a) _ _).neg_iff.mpr hlt
  · have := Nat.pow_le_pow_right (n := 2) (by omega) hk
    simp only [mapCapacity] at hc
    omega

/-- Two keys of one byte share each hash. -/
def mapPairHash (_ : UInt32) (key : List UInt8) : UInt32 := (key.headD 0).toUInt32 / 2 * 2 ^ 28

def mapKeep (n : UInt8) (self : CcMap Nat) : CcMap Nat :=
  (mapAddp mapPairHash UInt64.toUInt8 self n.toNat 1 n.toUInt64 ⟨true, some ⟨0, n.toNat⟩, none⟩).2

def mapNodeZero : MapNode Nat := ⟨0, 0, ⟨[0], by decide, by decide⟩⟩

def mapEmpty : CcMap Nat := mapNew 0 fun _ => mapNodeZero

/-- The keys 0 and 1 share a bucket, the key 2 has another. -/
def mapThree : CcMap Nat := mapKeep 0 (mapKeep 1 (mapKeep 2 mapEmpty))

theorem mapThree_reach : MapReach mapThree := by
  have hkeep : ∀ n (self : CcMap Nat), MapReach self → (⟨0, n.toNat⟩ : IterPtr) ∉ self.seq →
      mapSize (mapKeep n self) ≤ 2 ^ 30 → MapReach (mapKeep n self) := by
    intro n self h hm hs
    refine .addp mapPairHash _ _ _ _ _ h (fun iter hi => ?_) hs
    obtain rfl := Option.some.inj hi
    exact hm
  have h₂ := hkeep 2 mapEmpty (.new 0 _) (by decide) (by decide)
  have h₁ := hkeep 1 _ h₂ (by decide +kernel) (by decide +kernel)
  exact hkeep 0 _ h₁ (by decide +kernel) (by decide +kernel)

theorem map_representation_three : mapThree.seq = [⟨0, 0⟩, ⟨0, 1⟩, ⟨0, 2⟩] ∧
    (∀ i < 16, mapThree.buckets i =
      mapThree.seq.find? fun iter => (mapThree.node iter).hash.toNat / 2 ^ 28 = i) ∧
    mapThree.nodesSize =
      (mapThree.seq.map fun iter => 16 + (mapThree.node iter).key.bytes.length).sum := by
  obtain ⟨-, hbuckets, -, -, -, -, hsize⟩ := map_representation mapThree_reach
  exact ⟨by decide +kernel, hbuckets, hsize⟩

end LibCC
