import LibCC.MapModel
import LibCC.SortedSearch

/-! The representation invariant of cc_map and what its loops compute: the
nodes ascend, and every bucket points at its first node. -/

namespace LibCC

open SequenceFamily SortedSearch

variable {V : Type}

namespace CcMap

def rank (self : CcMap V) (iter : IterPtr) : List Nat :=
  mapRank (self.node iter).hash (self.node iter).key

def cls (self : CcMap V) (iter : IterPtr) : Nat := self.idx (self.node iter).hash

end CcMap

structure MapInv (map : CcMap V) : Prop where
  ascending : Ascending map.rank map.seq
  buckets : ∀ i < map.capacity, map.buckets i = first map.cls i map.seq
  capacity : ∃ k ≤ 26, map.capacity = mapCapacity * 2 ^ k
  elements : map.elements * map.capacity = uintRange
  nodesSize : map.nodesSize = (map.seq.map fun iter => (map.node iter).sizeof).sum

theorem CcMap.graded (self : CcMap V) : Graded self.rank self.cls :=
  fun _ _ h => Nat.div_le_div_right (hash_le_of_mapRank_lt h)

theorem idx_lt_capacity {self : CcMap V} (h : self.elements * self.capacity = uintRange)
    (hash : UInt32) : self.idx hash < self.capacity := by
  apply Nat.div_lt_of_lt_mul
  rw [h]
  exact hash.toNat_lt

theorem cls_of_rank_eq {self : CcMap V} {iter : IterPtr} {hash : UInt32} {key : MapKey}
    (h : self.rank iter = mapRank hash key) : self.cls iter = self.idx hash := by
  rw [CcMap.cls, (mapRank_inj.mp h).1]

theorem rank_gt_of_cls_gt {self : CcMap V} {iter : IterPtr} {hash : UInt32} {key : MapKey}
    (h : self.idx hash < self.cls iter) : mapRank hash key < self.rank iter := by
  by_contra hn
  rcases (not_lt.mp hn).lt_or_eq with hlt | he
  · have := Nat.div_le_div_right (c := self.elements) (hash_le_of_mapRank_lt hlt)
    exact absurd h (not_lt.mpr this)
  · exact h.ne (cls_of_rank_eq he).symm

theorem rank_lt_of_cls_lt {self : CcMap V} {iter : IterPtr} {hash : UInt32} {key : MapKey}
    (h : self.cls iter < self.idx hash) : self.rank iter < mapRank hash key := by
  by_contra hn
  rcases (not_lt.mp hn).lt_or_eq with hlt | he
  · have := Nat.div_le_div_right (c := self.elements) (hash_le_of_mapRank_lt hlt)
    exact absurd h (not_lt.mpr this)
  · exact h.ne (cls_of_rank_eq he.symm)

section Find

variable {self : CcMap V} {hash : UInt32} {key : MapKey}

theorem mapFindLoop_mem {idx : Nat} {l : List IterPtr} {miter : IterPtr}
    (h : mapFindLoop self hash idx key l = some miter) : miter ∈ l := by
  induction l with
  | nil => cases h
  | cons x l ih =>
    simp only [mapFindLoop] at h
    split_ifs at h
    · cases h
      exact List.mem_cons_self
    · exact List.mem_cons_of_mem x (ih h)

theorem mapFindp_mem {hashFn : UInt32 → List UInt8 → UInt32} {mem : UInt64 → UInt8} {len : Nat}
    {key : UInt64} {miter : IterPtr} (h : mapFindp hashFn mem self len key = some miter) :
    miter ∈ self.seq := by
  simp only [mapFindp] at h
  split at h
  · cases h
  · exact suffixFrom_subset _ _ (mapFindLoop_mem h)

/-- From the start of a bucket on, the loop of cc_map_findp stops where the
key is or would be. -/
theorem mapFindLoop_eq {l : List IterPtr} (h : Ascending self.rank l)
    (hi : ∀ y ∈ l, self.idx hash ≤ self.cls y) :
    mapFindLoop self hash (self.idx hash) key l =
      l.find? (fun iter => self.rank iter = mapRank hash key) := by
  induction l with
  | nil => rfl
  | cons x l ih =>
    have hc := mapNodeCmp_compares (self.node x) hash key
    have hgt : mapRank hash key < self.rank x →
        (x :: l).find? (fun iter => self.rank iter = mapRank hash key) = none := by
      intro hlt
      rw [List.find?_eq_none]
      intro y hy
      rcases List.mem_cons.mp hy with rfl | hy
      · simpa using hlt.ne'
      · simpa using (hlt.trans (h.head_lt y hy)).ne'
    by_cases hx : self.cls x = self.idx hash
    · have hx' : self.idx (self.node x).hash = self.idx hash := hx
      simp only [mapFindLoop, hx', ne_eq, not_true_eq_false, if_false]
      by_cases h0 : mapNodeCmp (self.node x) hash key = 0
      · have hr : self.rank x = mapRank hash key := hc.zero_iff.mp h0
        simp [h0, hr]
      · have hr : self.rank x ≠ mapRank hash key := fun he => h0 (hc.zero_iff.mpr he)
        by_cases hp : 0 < mapNodeCmp (self.node x) hash key
        · rw [hgt (hc.pos_iff.mp hp)]
          simp [h0, hp]
        · simp only [h0, gt_iff_lt, hp, if_false, List.find?_cons, hr, decide_false]
          exact ih h.tail (fun y hy => hi y (by simp [hy]))
    · have hx' : self.idx (self.node x).hash ≠ self.idx hash := hx
      have hlt := lt_of_le_of_ne (hi x (by simp)) (Ne.symm hx)
      rw [hgt (rank_gt_of_cls_gt hlt)]
      simp only [mapFindLoop, hx', ne_eq, not_false_eq_true, if_true]

/-- From the start of a bucket on, the loop of cc_map_addp ends at the key
or at the first larger node. -/
theorem mapAddScan_eq {l : List IterPtr} (h : Ascending self.rank l)
    (hi : ∀ y ∈ l, self.idx hash ≤ self.cls y) :
    mapAddScan self hash (self.idx hash) key l =
      if ∃ y ∈ l, self.rank y = mapRank hash key then none
      else some (l.find? fun iter => mapRank hash key < self.rank iter) := by
  induction l with
  | nil => simp [mapAddScan]
  | cons x l ih =>
    have hc := mapNodeCmp_compares (self.node x) hash key
    have hgt : mapRank hash key < self.rank x →
        ¬ ∃ y ∈ x :: l, self.rank y = mapRank hash key := by
      rintro hlt ⟨y, hy, he⟩
      rcases List.mem_cons.mp hy with rfl | hy
      · exact hlt.ne' he
      · exact (hlt.trans (h.head_lt y hy)).ne' he
    by_cases hx : self.cls x = self.idx hash
    · have hx' : self.idx (self.node x).hash = self.idx hash := hx
      simp only [mapAddScan, hx', ne_eq, not_true_eq_false, if_false]
      by_cases h0 : mapNodeCmp (self.node x) hash key = 0
      · have hr : self.rank x = mapRank hash key := hc.zero_iff.mp h0
        simp [h0, hr]
      · have hr : self.rank x ≠ mapRank hash key := fun he => h0 (hc.zero_iff.mpr he)
        by_cases hp : 0 < mapNodeCmp (self.node x) hash key
        · have hlt : mapRank hash key < self.rank x := hc.pos_iff.mp hp
          rw [if_neg (hgt hlt)]
          simp [h0, hp, hlt]
        · have hlt : ¬ mapRank hash key < self.rank x := fun hr => hp (hc.pos_iff.mpr hr)
          rw [if_neg h0, if_neg hp, ih h.tail (fun y hy => hi y (by simp [hy]))]
          simp [hr, hlt]
    · have hx' : self.idx (self.node x).hash ≠ self.idx hash := hx
      have hlt : mapRank hash key < self.rank x :=
        rank_gt_of_cls_gt (lt_of_le_of_ne (hi x (by simp)) (Ne.symm hx))
      rw [if_neg (hgt hlt)]
      simp [mapAddScan, hx', hlt]

theorem MapInv.bucket_split (h : MapInv self) {i : Nat} (hi : i < self.capacity) {iter : IterPtr}
    (hb : self.buckets i = some iter) :
    ∃ a b, self.seq = a ++ iter :: b ∧ iter ∉ a ∧ self.cls iter = i ∧ (∀ y ∈ a, self.cls y < i) ∧
      ∀ y ∈ iter :: b, i ≤ self.cls y := by
  rw [h.buckets i hi] at hb
  obtain ⟨a, b, hs, hc, ha⟩ := find?_split hb
  have hasc := h.ascending
  rw [hs] at hasc
  have hnd := hasc.nodup
  obtain ⟨_, hxb, hab⟩ := List.pairwise_append.mp hasc
  have hci : self.cls iter = i := by simpa using hc
  refine ⟨a, b, hs, fun hm => ?_, hci, fun y hy => ?_, fun y hy => ?_⟩
  · exact List.disjoint_of_nodup_append hnd hm (by simp)
  · have hne : self.cls y ≠ i := by simpa using ha y hy
    have hle := self.graded y iter (hab y hy iter (by simp))
    omega
  · rcases List.mem_cons.mp hy with rfl | hy
    · exact hci.ge
    · have := Ascending.cls_le self.graded hxb y hy
      omega

theorem MapInv.bucket_none (h : MapInv self) {i : Nat} (hi : i < self.capacity)
    (hb : self.buckets i = none) : ∀ y ∈ self.seq, self.cls y ≠ i := by
  rw [h.buckets i hi] at hb
  exact first_none.mp hb

theorem mapFindHash_eq (h : MapInv self) :
    mapFindHash self hash key = self.seq.find? (fun iter => self.rank iter = mapRank hash key) := by
  have hi := idx_lt_capacity h.elements hash
  simp only [mapFindHash]
  cases hb : self.buckets (self.idx hash) with
  | none =>
    have hn := h.bucket_none hi hb
    rw [List.find?_eq_none.mpr]
    · rfl
    · intro y hy
      have hne : self.rank y ≠ mapRank hash key := fun he => hn y hy (cls_of_rank_eq he)
      simpa using hne
  | some iter =>
    obtain ⟨a, b, hs, hia, -, ha, hge⟩ := h.bucket_split hi hb
    have hasc := h.ascending
    rw [hs] at hasc ⊢
    simp only [suffixFrom_split hia]
    rw [mapFindLoop_eq (List.pairwise_append.mp hasc).2.1 hge, find?_append_right]
    intro y hy
    simpa using (rank_lt_of_cls_lt (ha y hy)).ne

theorem mapAddNext_eq (h : MapInv self) {n i : Nat} (hn : i + n = self.capacity) :
    mapAddNext self n i = self.seq.find? (fun iter => i ≤ self.cls iter) := by
  induction n generalizing i with
  | zero =>
    rw [mapAddNext, eq_comm, List.find?_eq_none]
    intro y hy
    have := idx_lt_capacity h.elements (self.node y).hash
    have hlt : self.cls y < i := by
      change self.idx (self.node y).hash < i
      omega
    simpa using hlt
  | succ n ih =>
    cases hb : self.buckets i with
    | some iter =>
      obtain ⟨a, b, hs, -, hc, ha, -⟩ := h.bucket_split (by omega) hb
      rw [hs, find?_append_right (fun y hy => by simpa using ha y hy)]
      simp [mapAddNext, hb, hc]
    | none =>
      have hne := h.bucket_none (by omega) hb
      rw [mapAddNext, hb, ih (by omega)]
      apply find?_congr
      intro y hy
      have := hne y hy
      simp only [decide_eq_decide]
      omega

/-- cc_map_addp rejects a key that is there, and else puts the new node in
front of the first larger one. -/
theorem mapAddHash_eq (h : MapInv self) (val : V) (alloc : MapAlloc) :
    mapAddHash self val hash key alloc =
      if ∃ y ∈ self.seq, self.rank y = mapRank hash key then (none, self)
      else mapAddAt self (self.seq.find? fun iter => mapRank hash key < self.rank iter) hash
        (self.idx hash) val key alloc := by
  have hi := idx_lt_capacity h.elements hash
  simp only [mapAddHash]
  cases hb : self.buckets (self.idx hash) with
  | none =>
    have hn := h.bucket_none hi hb
    have hex : ¬ ∃ y ∈ self.seq, self.rank y = mapRank hash key := by
      rintro ⟨y, hy, he⟩
      exact hn y hy (cls_of_rank_eq he)
    rw [if_neg hex, mapAddNext_eq h (by omega)]
    simp only [ne_eq, not_true_eq_false, if_false]
    congr 1
    apply find?_congr
    intro y hy
    simp only [decide_eq_decide]
    constructor
    · intro hle
      exact rank_gt_of_cls_gt hle
    · intro hlt
      have hle : self.idx hash ≤ self.cls y :=
        Nat.div_le_div_right (hash_le_of_mapRank_lt hlt)
      have := hn y hy
      omega
  | some iter =>
    obtain ⟨a, b, hs, hia, -, ha, hge⟩ := h.bucket_split hi hb
    have hasc := h.ascending
    rw [hs] at hasc ⊢
    have hlo : ∀ y ∈ a, self.rank y < mapRank hash key := fun y hy => rank_lt_of_cls_lt (ha y hy)
    have hex : (∃ y ∈ a ++ iter :: b, self.rank y = mapRank hash key) ↔
        ∃ y ∈ iter :: b, self.rank y = mapRank hash key := by
      constructor
      · rintro ⟨y, hy, he⟩
        rcases List.mem_append.mp hy with hy | hy
        · exact absurd he (hlo y hy).ne
        · exact ⟨y, hy, he⟩
      · rintro ⟨y, hy, he⟩
        exact ⟨y, List.mem_append_right a hy, he⟩
    simp only [suffixFrom_split hia, ne_eq, reduceCtorEq, not_false_eq_true, if_true]
    rw [mapAddScan_eq (List.pairwise_append.mp hasc).2.1 hge,
      find?_append_right (fun y hy => by simpa using (hlo y hy).le)]
    by_cases hy : ∃ y ∈ iter :: b, self.rank y = mapRank hash key
    · rw [if_pos hy, if_pos (hex.mpr hy)]
    · rw [if_neg hy, if_neg (fun he => hy (hex.mp he))]

end Find

end LibCC
