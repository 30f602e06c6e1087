import LibCC.MapInvariant

/-! cc_map_grow, cc_map_addAt, cc_map_remove and cc_map_discard keep the
representation invariant. -/

namespace LibCC

open SequenceFamily SortedSearch

variable {V : Type}

section Grow

variable {self : CcMap V}

/-- The loop over an old bucket ends at the first node of its second half. -/
theorem mapGrowScan_eq {l : List IterPtr} (h : Ascending self.rank l) (j : Nat) :
    mapGrowScan self j l = first self.cls j l := by
  induction l with
  | nil => rfl
  | cons x l ih =>
    by_cases hx : self.cls x = j
    · have hx' : self.idx (self.node x).hash = j := hx
      simp [mapGrowScan, first, hx, hx']
    · have hx' : self.idx (self.node x).hash ≠ j := hx
      by_cases hlt : j < self.cls x
      · have hlt' : j < self.idx (self.node x).hash := hlt
        have hn : first self.cls j (x :: l) = none := by
          apply first_none.mpr
          intro y hy
          rcases List.mem_cons.mp hy with rfl | hy
          · exact hx
          · have := Ascending.cls_le self.graded h y hy
            omega
        simp [mapGrowScan, hx', hlt', hn]
      · have hlt' : ¬ j < self.idx (self.node x).hash := hlt
        simp [mapGrowScan, first, hx, hx', hlt', ih h.tail]

@[simp] theorem mapGrowScan_setBucket (i j : Nat) (iter : Option IterPtr) (l : List IterPtr) :
    mapGrowScan (self.setBucket i iter) j l = mapGrowScan self j l := by
  induction l with
  | nil => rfl
  | cons x l ih => simp [mapGrowScan, ih]

/-- The buckets while cc_map_grow has the old buckets below `n` to split. -/
structure Growing (n : Nat) (map : CcMap V) : Prop where
  ascending : Ascending map.rank map.seq
  split : ∀ i, 2 * n ≤ i → i < map.capacity → map.buckets i = first map.cls i map.seq
  old : ∀ i < n, map.buckets i = first (fun iter => map.cls iter / 2) i map.seq

theorem mapGrowStep_frame (self : CcMap V) (k : Nat) :
    mapGrowStep self k = { self with buckets := (mapGrowStep self k).buckets } := by
  unfold mapGrowStep
  cases self.buckets k with
  | none => rfl
  | some iter =>
    simp only
    split <;> split <;> rfl

/-- An old bucket that is not empty begins at a node of either half. -/
theorem bucket_halves (h : Ascending self.rank self.seq) {k : Nat} {iter : IterPtr}
    (hk : first (fun y => self.cls y / 2) k self.seq = some iter) :
    ∃ b, suffixFrom (some iter) self.seq = iter :: b ∧ Ascending self.rank (iter :: b) ∧
      (∀ y ∈ iter :: b, 2 * k ≤ self.cls y) ∧
      ∀ i, i / 2 = k → first self.cls i self.seq = first self.cls i (iter :: b) := by
  obtain ⟨a, b, hs, hi, ha⟩ := find?_split hk
  have hi : self.cls iter / 2 = k := by simpa using hi
  have ha : ∀ y ∈ a, self.cls y / 2 ≠ k := fun y hy => by simpa using ha y hy
  rw [hs] at h ⊢
  have hib := (List.pairwise_append.mp h).2.1
  have hia : iter ∉ a := fun hm => List.disjoint_of_nodup_append h.nodup hm (by simp)
  refine ⟨b, suffixFrom_split hia b, hib, fun y hy => ?_, fun i he => first_append_right ?_ _⟩
  · rcases List.mem_cons.mp hy with rfl | hy
    · omega
    · have := Ascending.cls_le self.graded hib y hy
      omega
  · intro y hy hc
    have := ha y hy
    rw [hc] at this
    exact this he

/-- One turn splits bucket `k` of the old array into two of the new one. -/
theorem mapGrowStep_buckets {k : Nat} (h : Growing (k + 1) self) :
    (mapGrowStep self k).buckets = Function.update (Function.update self.buckets (2 * k)
      (first self.cls (2 * k) self.seq)) (2 * k + 1) (first self.cls (2 * k + 1) self.seq) := by
  have hk := h.old k (by omega)
  unfold mapGrowStep
  cases hc : self.buckets k with
  | none =>
    rw [hc] at hk
    have hn : ∀ i, i / 2 = k → first self.cls i self.seq = none := by
      intro i hi
      apply first_none.mpr
      intro y hy he
      have := first_none.mp hk.symm y hy
      rw [he] at this
      exact this hi
    simp [hn (2 * k) (by omega), hn (2 * k + 1) (by omega)]
  | some iter =>
    rw [hc] at hk
    obtain ⟨b, hsuf, hib, hge, hfirst⟩ := bucket_halves h.ascending hk.symm
    have h₀ : first self.cls (2 * k) (iter :: b) =
        if self.idx (self.node iter).hash = 2 * k then some iter else none := by
      rw [Ascending.first_head self.graded hib hge]
      by_cases hj : self.cls iter = 2 * k
      · have hj' : self.idx (self.node iter).hash = 2 * k := hj
        simp [Option.filter, hj, hj']
      · have hj' : self.idx (self.node iter).hash ≠ 2 * k := hj
        simp [Option.filter, hj, hj']
    rw [hfirst (2 * k) (by omega), hfirst (2 * k + 1) (by omega), h₀]
    by_cases hj : self.idx (self.node iter).hash = 2 * k
    · have hj' : ((self.setBucket (2 * k) none).setBucket (2 * k + 1) none).idx
          (((self.setBucket (2 * k) none).setBucket (2 * k + 1) none).node iter).hash = 2 * k := hj
      simp only [hj, hj', if_true, CcMap.setBucket_seq, hsuf, mapGrowScan_setBucket,
        mapGrowScan_eq hib]
      cases first self.cls (2 * k + 1) (iter :: b) with
      | none =>
        simp only [CcMap.setBucket_buckets]
        rw [Function.update_comm (by omega), Function.update_idem]
      | some z =>
        simp only [CcMap.setBucket_buckets]
        rw [Function.update_comm (a := 2 * k + 1) (by omega), Function.update_idem,
          Function.update_idem]
    · have hj' : ((self.setBucket (2 * k) none).setBucket (2 * k + 1) none).idx
          (((self.setBucket (2 * k) none).setBucket (2 * k + 1) none).node iter).hash ≠ 2 * k := hj
      simp only [hj, hj', if_false, CcMap.setBucket_seq, hsuf, mapGrowScan_setBucket,
        mapGrowScan_eq hib]
      cases first self.cls (2 * k + 1) (iter :: b) with
      | none => rfl
      | some z =>
        simp only [CcMap.setBucket_buckets]
        rw [Function.update_idem]

theorem mapGrowStep_growing {k : Nat} (h : Growing (k + 1) self) :
    Growing k (mapGrowStep self k) := by
  have hb := mapGrowStep_buckets h
  rw [mapGrowStep_frame self k, hb]
  refine ⟨h.ascending, fun i hi hc => ?_, fun i hi => ?_⟩
  · by_cases h₁ : i = 2 * k + 1
    · subst h₁
      exact Function.update_self ..
    · by_cases h₀ : i = 2 * k
      · subst h₀
        exact (Function.update_of_ne h₁ ..).trans (Function.update_self ..)
      · refine (Function.update_of_ne h₁ ..).trans ((Function.update_of_ne h₀ ..).trans ?_)
        exact h.split i (by omega) hc
  · have h₁ : i ≠ 2 * k + 1 := by omega
    have h₀ : i ≠ 2 * k := by omega
    refine (Function.update_of_ne h₁ ..).trans ((Function.update_of_ne h₀ ..).trans ?_)
    exact h.old i (by omega)

theorem mapGrowLoop_frame (n : Nat) (self : CcMap V) :
    mapGrowLoop n self = { self with buckets := (mapGrowLoop n self).buckets } := by
  induction n generalizing self with
  | zero => rfl
  | succ n ih =>
    rw [mapGrowLoop, ih]
    rw [mapGrowStep_frame self n]

theorem mapGrowLoop_growing {n : Nat} (h : Growing n self) : Growing 0 (mapGrowLoop n self) := by
  induction n generalizing self with
  | zero => exact h
  | succ n ih => exact ih (mapGrowStep_growing h)

theorem mapGrow_frame (realloc : Option (Nat → Option IterPtr)) (self : CcMap V) :
    (mapGrow realloc self).seed = self.seed ∧ (mapGrow realloc self).nodes = self.nodes ∧
      (mapGrow realloc self).nodesSize = self.nodesSize := by
  unfold mapGrow
  split_ifs
  · exact ⟨rfl, rfl, rfl⟩
  · cases realloc with
    | none => exact ⟨rfl, rfl, rfl⟩
    | some fresh =>
      simp only
      rw [mapGrowLoop_frame]
      exact ⟨rfl, rfl, rfl⟩

/-- Doubling the capacity halves the elements of a bucket, down to four. -/
theorem elements_halve {capacity elements : Nat} (hc : ∃ k ≤ 26, capacity = mapCapacity * 2 ^ k)
    (he : elements * capacity = uintRange) (hlt : capacity < 2 ^ 30) :
    (∃ k ≤ 26, 2 * capacity = mapCapacity * 2 ^ k) ∧
      uintRange / (2 * capacity) * (2 * capacity) = uintRange ∧
      elements = uintRange / (2 * capacity) * 2 := by
  obtain ⟨k, -, rfl⟩ := hc
  have hk : k < 26 := by
    by_contra hn
    have := Nat.pow_le_pow_right (n := 2) (by omega) (not_lt.mp hn)
    simp only [mapCapacity] at hlt
    omega
  have hdvd : 2 * (mapCapacity * 2 ^ k) ∣ uintRange := by
    have he : 2 * (mapCapacity * 2 ^ k) = 2 ^ (k + 5) := by
      rw [mapCapacity, Nat.pow_add]
      omega
    rw [he]
    exact Nat.pow_dvd_pow 2 (by omega)
  refine ⟨⟨k + 1, by omega, by simp only [mapCapacity, Nat.pow_succ]; omega⟩,
    Nat.div_mul_cancel hdvd, ?_⟩
  have hpos : 0 < mapCapacity * 2 ^ k := by
    have := Nat.two_pow_pos k
    simp only [mapCapacity]
    omega
  apply Nat.eq_of_mul_eq_mul_right hpos
  rw [he, Nat.mul_assoc, Nat.div_mul_cancel hdvd]

theorem mapGrow_inv (h : MapInv self) {realloc : Option (Nat → Option IterPtr)}
    (hc : realloc ≠ none → self.capacity < self.seq.length → self.capacity < 2 ^ 30) :
    MapInv (mapGrow realloc self) := by
  unfold mapGrow
  split_ifs with hle
  · exact h
  · cases realloc with
    | none => exact h
    | some fresh =>
      obtain ⟨hcap, hel, hhalf⟩ := elements_halve h.capacity h.elements
        (hc (by simp) (by omega))
      simp only
      have hgrow : Growing self.capacity
          ({ self with
            capacity := 2 * self.capacity
            elements := uintRange / (2 * self.capacity)
            buckets := fun i => if i < self.capacity then self.buckets i else fresh i } :
            CcMap V) := by
        refine ⟨h.ascending, fun i hi hc => absurd hc (by simpa using hi), fun i hi => ?_⟩
        refine (if_pos hi).trans ((h.buckets i hi).trans ?_)
        refine first_congr (fun y _ => ?_) i
        change (self.node y).hash.toNat / self.elements =
          (self.node y).hash.toNat / (uintRange / (2 * self.capacity)) / 2
        rw [Nat.div_div_eq_div_mul, ← hhalf]
      have hdone := mapGrowLoop_growing hgrow
      rw [mapGrowLoop_frame] at hdone ⊢
      exact ⟨hdone.ascending, fun i hi => hdone.split i (by omega) hi, hcap, hel, h.nodesSize⟩

end Grow

section AddAt

variable {self : CcMap V}

/-- The map with a new node in front of the first larger one, before
cc_map_grow. -/
def mapInsert (self : CcMap V) (pos : Option IterPtr) (miter : IterPtr) (node : MapNode V) :
    CcMap V :=
  let idx := self.idx node.hash
  { self with
    nodesSize := self.nodesSize + node.sizeof
    nodes := if pos ≠ none then self.nodes.insert () pos miter node
      else self.nodes.append () none miter node
    buckets :=
      if self.buckets idx = none ∨ (pos ≠ none ∧ self.buckets idx = pos) then
        Function.update self.buckets idx (some miter)
      else self.buckets }

theorem mapAddAt_eq {alloc : MapAlloc} {miter : IterPtr} (hn : alloc.node = true)
    (hi : alloc.iter = some miter) (self : CcMap V) (pos : Option IterPtr) (hash : UInt32) (val : V)
    (key : MapKey) :
    mapAddAt self pos hash (self.idx hash) val key alloc =
      (some miter, mapGrow alloc.realloc (mapInsert self pos miter ⟨val, hash, key⟩)) := by
  simp only [mapAddAt, hn, hi, if_true, mapInsert]
  split_ifs <;> rfl

theorem mapAddAt_fail {alloc : MapAlloc} (h : alloc.node = false ∨ alloc.iter = none)
    (self : CcMap V) (pos : Option IterPtr) (hash : UInt32) (idx : Nat) (val : V) (key : MapKey) :
    mapAddAt self pos hash idx val key alloc = (none, self) := by
  unfold mapAddAt
  by_cases hn : alloc.node = true
  · have hi : alloc.iter = none := by simpa [hn] using h
    simp [hn, hi]
  · simp [hn]

variable {pos : Option IterPtr} {miter : IterPtr} {node : MapNode V}

theorem mapInsert_node (self : CcMap V) (pos : Option IterPtr) (miter : IterPtr)
    (node : MapNode V) :
    (mapInsert self pos miter node).node = Function.update self.node miter node := by
  unfold mapInsert
  cases pos <;> rfl

theorem mapInsert_seq {a b : List IterPtr} (hs : self.seq = a ++ b) (hb : b.head? = pos)
    (hnd : self.seq.Nodup) (miter : IterPtr) (node : MapNode V) :
    (mapInsert self pos miter node).seq = a ++ miter :: b := by
  have hs' : self.nodes.seq () = a ++ b := hs
  cases b with
  | nil =>
    cases hb
    simp [mapInsert, CcMap.seq, ListSeqs.append, hs']
  | cons t b =>
    cases hb
    have ht : t ∉ a := by
      rw [hs] at hnd
      exact fun hm => List.disjoint_of_nodup_append hnd hm (by simp)
    simp [mapInsert, CcMap.seq, ListSeqs.insert, hs', insertBefore_split miter ht]

theorem mem_mapInsert (h : MapInv self)
    (hr : ∀ y ∈ self.seq, self.rank y ≠ mapRank node.hash node.key)
    (hp : pos = self.seq.find? fun iter => mapRank node.hash node.key < self.rank iter)
    (y : IterPtr) : y ∈ (mapInsert self pos miter node).seq ↔ y = miter ∨ y ∈ self.seq := by
  obtain ⟨a, b, hs, hb, -, -⟩ := h.ascending.divide hr
  have hb : b.head? = pos :=
    hb.trans ((find?_congr fun _ _ => decide_eq_decide.mpr Iff.rfl).trans hp.symm)
  rw [mapInsert_seq hs hb h.ascending.nodup, hs]
  simp only [List.mem_append, List.mem_cons]
  tauto

theorem mapInsert_inv (h : MapInv self) (hm : miter ∉ self.seq)
    (hr : ∀ y ∈ self.seq, self.rank y ≠ mapRank node.hash node.key)
    (hp : pos = self.seq.find? fun iter => mapRank node.hash node.key < self.rank iter) :
    MapInv (mapInsert self pos miter node) := by
  obtain ⟨a, b, hs, hb, hlo, hhi⟩ := h.ascending.divide hr
  have hb : b.head? = pos :=
    hb.trans ((find?_congr fun _ _ => decide_eq_decide.mpr Iff.rfl).trans hp.symm)
  have hseq := mapInsert_seq hs hb h.ascending.nodup miter node
  have hnode := mapInsert_node self pos miter node
  have hne : ∀ y ∈ a ++ b, y ≠ miter := by
    rintro y hy rfl
    rw [← hs] at hy
    exact hm hy
  have hkeep : ∀ y ∈ a ++ b, (mapInsert self pos miter node).node y = self.node y := by
    intro y hy
    rw [hnode, Function.update_of_ne (hne y hy)]
  have hnew : (mapInsert self pos miter node).node miter = node := by
    rw [hnode, Function.update_self]
  have hrank : ∀ y ∈ a ++ b, (mapInsert self pos miter node).rank y = self.rank y := by
    intro y hy
    rw [CcMap.rank, CcMap.rank, hkeep y hy]
  have hcls : ∀ y ∈ a ++ b, (mapInsert self pos miter node).cls y = self.cls y := by
    intro y hy
    rw [CcMap.cls, CcMap.cls, hkeep y hy]
    rfl
  have hrnew : (mapInsert self pos miter node).rank miter = mapRank node.hash node.key := by
    rw [CcMap.rank, hnew]
  have hcnew : (mapInsert self pos miter node).cls miter = self.idx node.hash := by
    rw [CcMap.cls, hnew]
    rfl
  have hasc : Ascending (mapInsert self pos miter node).rank (a ++ miter :: b) := by
    have hab := h.ascending
    rw [hs] at hab
    apply (hab.congr hrank).insert
    · intro y hy
      rw [hrank y (by simp [hy]), hrnew]
      exact hlo y hy
    · intro y hy
      rw [hrank y (by simp [hy]), hrnew]
      exact hhi y hy
  refine ⟨by rw [hseq]; exact hasc, fun i hi => ?_, h.capacity, h.elements, ?_⟩
  · rw [hseq]
    have hold : self.buckets i = first (mapInsert self pos miter node).cls i (a ++ b) := by
      rw [first_congr hcls, ← hs]
      exact h.buckets i hi
    by_cases hc : i = self.idx node.hash
    · have hins := hasc.first_insert (mapInsert self pos miter node).graded
      rw [hcnew, ← hc, ← hold, hb] at hins
      rw [hins]
      subst hc
      simp only [mapInsert]
      split_ifs
      · exact Function.update_self ..
      · rfl
    · rw [first_skip (by rw [hcnew]; exact Ne.symm hc), ← hold]
      simp only [mapInsert]
      split_ifs
      · exact Function.update_of_ne hc ..
      · rfl
  · have hsum : ((a ++ b).map fun iter => ((mapInsert self pos miter node).node iter).sizeof).sum =
        ((a ++ b).map fun iter => (self.node iter).sizeof).sum := by
      congr 1
      apply List.map_congr_left
      intro y hy
      rw [hkeep y hy]
    have hsize : (mapInsert self pos miter node).nodesSize = self.nodesSize + node.sizeof := rfl
    rw [hseq, hsize, h.nodesSize, hs]
    simp only [List.map_append, List.sum_append, List.map_cons, List.sum_cons, hnew] at hsum ⊢
    omega

end AddAt

section Remove

variable {self : CcMap V}

theorem mapRemove_seq (self : CcMap V) (miter : IterPtr) :
    (mapRemove self miter).2.2.seq = self.seq.erase miter := by
  simp only [mapRemove]
  split_ifs <;> simp [CcMap.seq, ListSeqs.remove, CcMap.setBucket]

theorem mapRemove_node (self : CcMap V) (miter : IterPtr) :
    (mapRemove self miter).2.2.node = self.node := by
  simp only [mapRemove]
  split_ifs <;> rfl

theorem mapRemove_inv (h : MapInv self) {miter : IterPtr} (hm : miter ∈ self.seq) :
    MapInv (mapRemove self miter).2.2 := by
  obtain ⟨a, b, hs, ha⟩ := split_of_mem hm
  have hasc := h.ascending
  have hseq := mapRemove_seq self miter
  rw [hs, erase_split ha] at hseq
  rw [hs] at hasc
  have hrank : (mapRemove self miter).2.2.rank = self.rank := by
    simp only [mapRemove]
    split_ifs <;> rfl
  have hcls : (mapRemove self miter).2.2.cls = self.cls := by
    simp only [mapRemove]
    split_ifs <;> rfl
  have hcap : (mapRemove self miter).2.2.capacity = self.capacity := by
    simp only [mapRemove]
    split_ifs <;> rfl
  have hel : (mapRemove self miter).2.2.elements = self.elements := by
    simp only [mapRemove]
    split_ifs <;> rfl
  have hsz : (mapRemove self miter).2.2.nodesSize = self.nodesSize - (self.node miter).sizeof := by
    simp only [mapRemove]
    split_ifs <;> rfl
  refine ⟨?_, fun i hi => ?_, by rw [hcap]; exact h.capacity,
    by rw [hel, hcap]; exact h.elements, ?_⟩
  · rw [hrank, hseq]
    apply hasc.sublist
    simp
  · rw [hcap] at hi
    rw [hcls, hseq]
    have hb := h.buckets i hi
    rw [hs] at hb
    by_cases hc : i = self.cls miter
    · have her := hasc.first_erase self.graded
      rw [← hc, ← hb] at her
      rw [her]
      have haft : after miter self.seq = b := by rw [hs, after_split ha]
      subst hc
      simp only [mapRemove, haft]
      have hidx : self.idx (self.node miter).hash = self.cls miter := rfl
      rw [hidx]
      split_ifs with he
      · exact Function.update_self ..
      · rfl
    · rw [← first_skip (x := miter) (Ne.symm hc), ← hb]
      simp only [mapRemove]
      split_ifs
      · exact Function.update_of_ne hc ..
      · rfl
  · rw [hsz, hseq, mapRemove_node, h.nodesSize, hs]
    simp only [List.map_append, List.sum_append, List.map_cons, List.sum_cons]
    omega

theorem mapDiscardLoop_eq (self : CcMap V) {l : List IterPtr} (hs : self.seq = l) :
    (mapDiscardLoop l.length self).seq = [] ∧
      (mapDiscardLoop l.length self).seed = self.seed ∧
      (mapDiscardLoop l.length self).capacity = self.capacity ∧
      (mapDiscardLoop l.length self).elements = self.elements ∧
      (mapDiscardLoop l.length self).buckets = self.buckets ∧
      (mapDiscardLoop l.length self).nodesSize =
        self.nodesSize - (l.map fun iter => (self.node iter).sizeof).sum := by
  induction l generalizing self with
  | nil => exact ⟨hs, rfl, rfl, rfl, rfl, by simp [mapDiscardLoop]⟩
  | cons x l ih =>
    have hx : ({ self with
        nodes := self.nodes.remove () x
        nodesSize := self.nodesSize - (self.node x).sizeof } : CcMap V).seq = l := by
      have hs' : self.nodes.seq () = x :: l := hs
      simp [CcMap.seq, ListSeqs.remove, hs']
    obtain ⟨h₁, h₂, h₃, h₄, h₅, h₆⟩ := ih _ hx
    simp only [List.length_cons, mapDiscardLoop, hs, List.head?_cons]
    refine ⟨h₁, h₂, h₃, h₄, h₅, h₆.trans ?_⟩
    have hnode : ∀ y, ({ self with
        nodes := self.nodes.remove () x
        nodesSize := self.nodesSize - (self.node x).sizeof } : CcMap V).node y = self.node y :=
      fun _ => rfl
    simp only [hnode, List.map_cons, List.sum_cons]
    omega

theorem mapDiscard_spec (self : CcMap V) :
    (mapDiscard self).seq = [] ∧ (mapDiscard self).seed = self.seed := by
  have hh := mapDiscardLoop_eq { self with
    buckets := fun i => if i < self.capacity then none else self.buckets i } rfl
  exact ⟨hh.1, hh.2.1⟩

theorem mapDiscard_inv (h : MapInv self) : MapInv (mapDiscard self) := by
  obtain ⟨h₁, -, h₃, h₄, h₅, h₆⟩ := mapDiscardLoop_eq { self with
    buckets := fun i => if i < self.capacity then none else self.buckets i } rfl
  have hseq : (mapDiscard self).seq = [] := h₁
  have hcap : (mapDiscard self).capacity = self.capacity := h₃
  have hel : (mapDiscard self).elements = self.elements := h₄
  refine ⟨by rw [hseq]; exact List.Pairwise.nil, fun i hi => ?_, by rw [hcap]; exact h.capacity,
    by rw [hel, hcap]; exact h.elements, ?_⟩
  · rw [hcap] at hi
    rw [hseq]
    exact (congrFun h₅ i).trans (if_pos hi)
  · rw [hseq]
    have hz := h.nodesSize
    exact h₆.trans (by
      change self.nodesSize - (self.seq.map fun iter => (self.node iter).sizeof).sum = 0
      omega)

end Remove

theorem mapNew_inv (seed : UInt32) (data : IterPtr → MapNode V) : MapInv (mapNew seed data) := by
  refine ⟨List.Pairwise.nil, fun _ _ => rfl, ⟨0, by omega, (Nat.mul_one _).symm⟩, ?_, rfl⟩
  exact Nat.div_mul_cancel ⟨2 ^ 28, by decide⟩

end LibCC
