import LibCC.MapRuns

/-! What cc_map is for: a finite map from keys to entries, each entry an iter
with a value. The code refines it for every hash function. -/

namespace LibCC

open SequenceFamily SortedSearch

abbrev MapTable (V : Type) := MapKey → Option (IterPtr × V)

inductive MapCall (V : Type)
  | addp (mem : UInt64 → UInt8) (val : V) (len : Nat) (key : UInt64)
  | findp (mem : UInt64 → UInt8) (len : Nat) (key : UInt64)
  | remove (miter : IterPtr)
  | discard
  | entry (miter : IterPtr)
  | size

inductive MapResult (V : Type)
  | void
  | iter (miter : Option IterPtr)
  | val (v : V)
  | entry (key : MapKey) (val : V)
  | size (n : Int)

variable {V : Type}

/-- An iter is live while it is the entry of a key. -/
def MapTable.Live (m : MapTable V) (miter : IterPtr) : Prop := ∃ key val, m key = some (miter, val)

/-- CALLOC succeeds, and cc_list finds an iter that is not live. -/
def MapAlloc.Succeeds (alloc : MapAlloc) (m : MapTable V) : Prop :=
  alloc.node = true ∧ ∃ miter, alloc.iter = some miter ∧ ¬ m.Live miter

namespace MapCall

/-- A key has at most 256 bytes, and iters are live. -/
def Legal (m : MapTable V) : MapCall V → Prop
  | addp _ _ len _ | findp _ len _ => len ≤ mapKeyLen
  | remove miter | entry miter => m.Live miter
  | discard | size => True

/-- The code; `entry` is cc_map_key with cc_map_val. -/
def exec (hashFn : UInt32 → List UInt8 → UInt32) (alloc : MapAlloc) (self : CcMap V) :
    MapCall V → MapResult V × CcMap V
  | addp mem val len key =>
    let r := mapAddp hashFn mem self val len key alloc
    (.iter r.1, r.2)
  | findp mem len key => (.iter (mapFindp hashFn mem self len key), self)
  | remove miter => let r := mapRemove self miter; (.val r.1, r.2.2)
  | discard => (.void, mapDiscard self)
  | entry miter => (.entry (self.node miter).key (self.node miter).val, self)
  | size => (.size (mapSize self), self)

/-- The finite map after a call that returned `r`. -/
def next (m : MapTable V) (r : MapResult V) : MapCall V → MapTable V
  | addp mem val len key =>
    match mapKeyBytes mem len key, r with
    | some key, .iter (some miter) => Function.update m key (some (miter, val))
    | _, _ => m
  | remove miter => fun key => (m key).filter (fun e => e.1 ≠ miter)
  | discard => fun _ => none
  | findp _ _ _ | entry _ | size => m

/-- What a call on the finite map returns. -/
def Returns (m : MapTable V) (r : MapResult V) : MapCall V → Prop
  | addp mem _ len key =>
    ∃ k miter, mapKeyBytes mem len key = some k ∧ r = .iter miter ∧ (miter ≠ none ↔ m k = none) ∧
      ∀ new, miter = some new → ¬ m.Live new
  | findp mem len key => ∃ k, mapKeyBytes mem len key = some k ∧ r = .iter ((m k).map Prod.fst)
  | remove miter => ∀ key val, m key = some (miter, val) → r = .val val
  | entry miter => ∀ key val, m key = some (miter, val) → r = .entry key val
  | discard => r = .void
  | size => r = .size ({key | m key ≠ none} : Set MapKey).ncard

end MapCall

/-- The map that a program has after some calls, with the finite map that
they describe. -/
inductive MapRun (hashFn : UInt32 → List UInt8 → UInt32) : MapTable V → CcMap V → Prop
  | new (seed : UInt32) (data : IterPtr → MapNode V) :
      MapRun hashFn (fun _ => none) (mapNew seed data)
  | step {m : MapTable V} {self : CcMap V} (call : MapCall V) {alloc : MapAlloc} :
      MapRun hashFn m self → call.Legal m → alloc.Succeeds m →
      mapSize (call.exec hashFn alloc self).2 ≤ 2 ^ 30 →
      MapRun hashFn (call.next m (call.exec hashFn alloc self).1) (call.exec hashFn alloc self).2

/-- The nodes of `map` are the entries of `m`, each with the hash of its key. -/
structure MapRep (hashFn : UInt32 → List UInt8 → UInt32) (m : MapTable V) (map : CcMap V) :
    Prop where
  inv : MapInv map
  hash : ∀ y ∈ map.seq, (map.node y).hash = hashFn map.seed (map.node y).key.bytes
  entries : ∀ key miter val,
    m key = some (miter, val) ↔ miter ∈ map.seq ∧ (map.node miter).key = key ∧
      (map.node miter).val = val

section

variable {hashFn : UInt32 → List UInt8 → UInt32} {m : MapTable V} {self : CcMap V}

theorem MapRep.live_iff (h : MapRep hashFn m self) {miter : IterPtr} :
    m.Live miter ↔ miter ∈ self.seq := by
  constructor
  · rintro ⟨key, val, he⟩
    exact ((h.entries key miter val).mp he).1
  · intro hm
    exact ⟨_, _, (h.entries _ miter _).mpr ⟨hm, rfl, rfl⟩⟩

theorem MapRep.rank_eq_iff (h : MapRep hashFn m self) {y : IterPtr} (hy : y ∈ self.seq)
    (key : MapKey) :
    self.rank y = mapRank (hashFn self.seed key.bytes) key ↔ (self.node y).key = key := by
  rw [CcMap.rank, mapRank_inj, h.hash y hy]
  constructor
  · exact fun he => he.2
  · intro he
    rw [he]
    exact ⟨rfl, rfl⟩

theorem MapRep.absent_iff (h : MapRep hashFn m self) (key : MapKey) :
    m key = none ↔ ∀ y ∈ self.seq, (self.node y).key ≠ key := by
  constructor
  · intro hn y hy he
    rw [(h.entries key y _).mpr ⟨hy, he, rfl⟩] at hn
    exact absurd hn (by simp)
  · intro hn
    cases he : m key with
    | none => rfl
    | some e =>
      have hh := (h.entries key e.1 e.2).mp he
      exact absurd hh.2.1 (hn e.1 hh.1)

theorem MapRep.find (h : MapRep hashFn m self) (key : MapKey) :
    mapFindHash self (hashFn self.seed key.bytes) key = (m key).map Prod.fst := by
  rw [mapFindHash_eq h.inv]
  cases he : m key with
  | none =>
    apply List.find?_eq_none.mpr
    intro y hy
    have hne := (h.absent_iff key).mp he y hy
    simpa [h.rank_eq_iff hy key] using hne
  | some e =>
    obtain ⟨hm, hk, -⟩ := (h.entries key e.1 e.2).mp he
    rw [← (h.rank_eq_iff hm key).mpr hk]
    exact (find?_congr fun _ _ => decide_eq_decide.mpr Iff.rfl).trans
      (h.inv.ascending.find?_rank hm)

theorem MapRep.node_inj (h : MapRep hashFn m self) {y z : IterPtr} (hy : y ∈ self.seq)
    (hz : z ∈ self.seq) (he : (self.node y).key = (self.node z).key) : y = z := by
  have hf := h.find (self.node z).key
  have h₁ := (h.entries _ y _).mpr ⟨hy, he, rfl⟩
  have h₂ := (h.entries _ z _).mpr ⟨hz, rfl, rfl⟩
  rw [h₁] at h₂
  exact (Prod.mk.inj (Option.some.inj h₂)).1

theorem MapRep.size (h : MapRep hashFn m self) :
    mapSize self = ({key | m key ≠ none} : Set MapKey).ncard := by
  have hset : ({key | m key ≠ none} : Set MapKey) =
      ((self.seq.map fun y => (self.node y).key).toFinset : Set MapKey) := by
    ext key
    have := h.absent_iff key
    simp only [Set.mem_ofPred_eq, ne_eq, this, List.coe_toFinset, List.mem_map]
    push Not
    rfl
  have hnd : (self.seq.map fun y => (self.node y).key).Nodup :=
    List.Nodup.map_on (fun y hy z hz he => h.node_inj hy hz he) h.inv.ascending.nodup
  rw [hset, Set.ncard_coe_finset, List.toFinset_card_of_nodup hnd, List.length_map]
  rfl

theorem MapRep.grow (h : MapRep hashFn m self) {realloc : Option (Nat → Option IterPtr)}
    (hc : realloc ≠ none → self.capacity < self.seq.length → self.capacity < 2 ^ 30) :
    MapRep hashFn m (mapGrow realloc self) := by
  refine ⟨mapGrow_inv h.inv hc, fun y hy => ?_, fun key y val => ?_⟩
  · rw [mapGrow_seq] at hy
    rw [(mapGrow_frame _ _).1, mapGrow_node]
    exact h.hash y hy
  · rw [mapGrow_seq, mapGrow_node]
    exact h.entries key y val

theorem MapRep.insert (h : MapRep hashFn m self) {miter : IterPtr} (hm : miter ∉ self.seq)
    {key : MapKey} (hn : m key = none) (val : V) :
    MapRep hashFn (Function.update m key (some (miter, val)))
      (mapInsert self (self.seq.find? fun iter =>
        mapRank (hashFn self.seed key.bytes) key < self.rank iter) miter
          ⟨val, hashFn self.seed key.bytes, key⟩) := by
  have hkey := (h.absent_iff key).mp hn
  have hr : ∀ y ∈ self.seq, self.rank y ≠ mapRank (hashFn self.seed key.bytes) key :=
    fun y hy he => hkey y hy ((h.rank_eq_iff hy key).mp he)
  have hmem : ∀ z, z ∈ (mapInsert self (self.seq.find? fun iter =>
      mapRank (hashFn self.seed key.bytes) key < self.rank iter) miter
        ⟨val, hashFn self.seed key.bytes, key⟩).seq ↔ z = miter ∨ z ∈ self.seq :=
    mem_mapInsert h.inv hr rfl
  refine ⟨mapInsert_inv h.inv hm hr rfl, fun y hy => ?_, fun k z v => ?_⟩
  · rw [mapInsert_node, Function.update_apply]
    rcases (hmem y).mp hy with rfl | hy
    · simp [mapInsert]
    · have hne : y ≠ miter := fun hc => hm (hc ▸ hy)
      rw [if_neg hne]
      exact h.hash y hy
  · rw [hmem, mapInsert_node, Function.update_apply, Function.update_apply]
    by_cases hk : k = key
    · subst hk
      rw [if_pos rfl]
      constructor
      · intro hc
        obtain ⟨rfl, rfl⟩ := Prod.mk.inj (Option.some.inj hc)
        simp
      · rintro ⟨hz | hz, hk, hv⟩
        · subst hz
          rw [if_pos rfl] at hv
          simp [← hv]
        · have hne : z ≠ miter := fun hc => hm (hc ▸ hz)
          rw [if_neg hne] at hk
          exact absurd hk (hkey z hz)
    · rw [if_neg hk, h.entries]
      by_cases hz : z = miter
      · subst hz
        simp [hm, Ne.symm hk]
      · simp [hz]

/-- With any outcome of the allocator, cc_map_addp changes nothing or puts in a new key. -/
theorem MapRep.add_cases (h : MapRep hashFn m self) {alloc : MapAlloc} (ha : alloc.Unused self)
    (val : V) (key : MapKey)
    (hc : alloc.realloc ≠ none → self.capacity <
      (mapAddHash self val (hashFn self.seed key.bytes) key alloc).2.seq.length →
      self.capacity < 2 ^ 30) :
    (mapAddHash self val (hashFn self.seed key.bytes) key alloc = (none, self) ∧
      ((∃ e, m key = some e) ∨ alloc.node = false ∨ alloc.iter = none)) ∨
    m key = none ∧ ∃ miter, miter ∉ self.seq ∧ alloc.iter = some miter ∧
      (mapAddHash self val (hashFn self.seed key.bytes) key alloc).1 = some miter ∧
      MapRep hashFn (Function.update m key (some (miter, val)))
        (mapAddHash self val (hashFn self.seed key.bytes) key alloc).2 := by
  rcases mapAddHash_cases h.inv val (hashFn self.seed key.bytes) key alloc with
    ⟨he, ⟨y, hy, hr⟩ | hf⟩ | ⟨miter, hi, hr, he⟩
  · have hk := (h.rank_eq_iff hy key).mp hr
    exact .inl ⟨he, .inl ⟨_, (h.entries key y _).mpr ⟨hy, hk, rfl⟩⟩⟩
  · exact .inl ⟨he, .inr hf⟩
  · have hm := ha miter hi
    have hnone : m key = none :=
      (h.absent_iff key).mpr fun y hy hk => hr y hy ((h.rank_eq_iff hy key).mpr hk)
    rw [he] at hc ⊢
    simp only [mapGrow_seq] at hc
    exact .inr ⟨hnone, miter, hm, hi, rfl, (h.insert hm hnone val).grow hc⟩

theorem MapRep.add (h : MapRep hashFn m self) {alloc : MapAlloc} (ha : alloc.Succeeds m) (val : V)
    (key : MapKey)
    (hs : mapSize (mapAddHash self val (hashFn self.seed key.bytes) key alloc).2 ≤ 2 ^ 30) :
    (∃ e, m key = some e ∧
      mapAddHash self val (hashFn self.seed key.bytes) key alloc = (none, self)) ∨
    m key = none ∧ ∃ miter, ¬ m.Live miter ∧
      (mapAddHash self val (hashFn self.seed key.bytes) key alloc).1 = some miter ∧
      MapRep hashFn (Function.update m key (some (miter, val)))
        (mapAddHash self val (hashFn self.seed key.bytes) key alloc).2 := by
  obtain ⟨hn, new, hi, hl⟩ := ha
  have hu : alloc.Unused self := by
    intro miter he hm
    obtain rfl := Option.some.inj (he.symm.trans hi)
    exact hl (h.live_iff.mpr hm)
  have hle := Int.ofNat_le.mp hs
  rcases h.add_cases hu val key (fun _ hlt => lt_of_lt_of_le hlt hle) with
    ⟨he, ⟨e, hk⟩ | hf | hf⟩ | ⟨hnone, miter, hm, -, hr, hrep⟩
  · exact .inl ⟨e, hk, he⟩
  · rw [hf] at hn
    exact absurd hn (by simp)
  · rw [hf] at hi
    exact absurd hi (by simp)
  · exact .inr ⟨hnone, miter, fun hl' => hm (h.live_iff.mp hl'), hr, hrep⟩

/-- The nodes of a map with a new key: one more, and the others as they were. -/
theorem MapRep.added (h : MapRep hashFn m self) {map : CcMap V} {miter : IterPtr} {key : MapKey}
    {val : V} (hr : MapRep hashFn (Function.update m key (some (miter, val))) map)
    (hn : m key = none) (hm : miter ∉ self.seq) :
    map.seq.Perm (miter :: self.seq) ∧ (map.node miter).val = val ∧
      ∀ y ∈ self.seq, (map.node y).val = (self.node y).val := by
  have hnew := (hr.entries key miter val).mp (Function.update_self ..)
  have hold : ∀ y ∈ self.seq, y ∈ map.seq ∧ (map.node y).val = (self.node y).val := by
    intro y hy
    have hne : (self.node y).key ≠ key := (h.absent_iff key).mp hn y hy
    have he := (hr.entries (self.node y).key y (self.node y).val).mp
      ((Function.update_of_ne hne ..).trans ((h.entries _ y _).mpr ⟨hy, rfl, rfl⟩))
    exact ⟨he.1, he.2.2⟩
  refine ⟨?_, hnew.2.2, fun y hy => (hold y hy).2⟩
  rw [List.perm_ext_iff_of_nodup hr.inv.ascending.nodup
    (List.nodup_cons.mpr ⟨hm, h.inv.ascending.nodup⟩)]
  intro y
  rw [List.mem_cons]
  constructor
  · intro hy
    have he := (hr.entries (map.node y).key y (map.node y).val).mpr ⟨hy, rfl, rfl⟩
    by_cases hk : (map.node y).key = key
    · rw [hk, Function.update_self] at he
      exact .inl (Prod.mk.inj (Option.some.inj he)).1.symm
    · rw [Function.update_of_ne hk] at he
      exact .inr ((h.entries _ y _).mp he).1
  · rintro (rfl | hy)
    · exact hnew.1
    · exact (hold y hy).1

theorem MapRep.remove (h : MapRep hashFn m self) {miter : IterPtr} (hm : miter ∈ self.seq) :
    MapRep hashFn (fun key => (m key).filter (fun e => e.1 ≠ miter))
      (mapRemove self miter).2.2 := by
  have hnd := h.inv.ascending.nodup
  have hmem : ∀ y, y ∈ (mapRemove self miter).2.2.seq ↔ y ≠ miter ∧ y ∈ self.seq := by
    intro y
    rw [mapRemove_seq, hnd.mem_erase_iff]
  have hseed : (mapRemove self miter).2.2.seed = self.seed := by
    simp only [mapRemove]
    split_ifs <;> rfl
  refine ⟨mapRemove_inv h.inv hm, fun y hy => ?_, fun key y val => ?_⟩
  · rw [hseed, mapRemove_node]
    exact h.hash y ((hmem y).mp hy).2
  · rw [hmem, mapRemove_node, Option.filter_eq_some_iff, h.entries]
    simp only [ne_eq, decide_not, Bool.not_eq_eq_eq_not, Bool.not_true, decide_eq_false_iff_not]
    tauto

theorem MapRep.discard (h : MapRep hashFn m self) :
    MapRep hashFn (fun _ => none) (mapDiscard self) := by
  have hs := (mapDiscard_spec self).1
  refine ⟨mapDiscard_inv h.inv, fun y hy => ?_, fun key y val => ?_⟩
  · rw [hs] at hy
    exact absurd hy List.not_mem_nil
  · simp [hs]

theorem MapCall.exec_rep (h : MapRep hashFn m self) {alloc : MapAlloc} (ha : alloc.Succeeds m)
    (call : MapCall V) (hl : call.Legal m) (hs : mapSize (call.exec hashFn alloc self).2 ≤ 2 ^ 30) :
    call.Returns m (call.exec hashFn alloc self).1 ∧
      MapRep hashFn (call.next m (call.exec hashFn alloc self).1)
        (call.exec hashFn alloc self).2 := by
  cases call with
  | addp mem val len key =>
    obtain ⟨k, hk⟩ := mapKeyBytes_some mem hl key
    simp only [MapCall.exec, mapAddp, hk] at hs ⊢
    rcases h.add ha val k hs with ⟨e, he, hadd⟩ | ⟨hn, miter, hlive, hr, hrep⟩
    · rw [hadd]
      refine ⟨⟨k, none, hk, rfl, by simp [he], by simp⟩, ?_⟩
      simpa only [MapCall.next, hk] using h
    · rw [hr]
      refine ⟨⟨k, some miter, hk, rfl, by simp [hn], ?_⟩, ?_⟩
      · intro new he
        obtain rfl := Option.some.inj he
        exact hlive
      · simpa only [MapCall.next, hk] using hrep
  | findp mem len key =>
    obtain ⟨k, hk⟩ := mapKeyBytes_some mem hl key
    refine ⟨⟨k, hk, ?_⟩, h⟩
    simp only [MapCall.exec, mapFindp, hk, h.find k]
  | remove miter =>
    refine ⟨fun key val he => ?_, h.remove (h.live_iff.mp hl)⟩
    have hh := (h.entries key miter val).mp he
    exact congrArg MapResult.val hh.2.2
  | discard => exact ⟨rfl, h.discard⟩
  | entry miter =>
    refine ⟨fun key val he => ?_, h⟩
    have hh := (h.entries key miter val).mp he
    simp only [MapCall.exec, hh.2.1, hh.2.2]
  | size => exact ⟨congrArg MapResult.size h.size, h⟩

theorem MapRun.rep (h : MapRun hashFn m self) : MapRep hashFn m self := by
  induction h with
  | new seed data => exact ⟨mapNew_inv seed data, by simp [mapNew, CcMap.seq, ListSeqs.empty],
      by simp [mapNew, CcMap.seq, ListSeqs.empty]⟩
  | step call _ hl ha hs ih => exact (call.exec_rep ih ha hl hs).2

/-- After any calls, every further call returns what the finite map says. -/
theorem map_refines_table (h : MapRun hashFn m self) (call : MapCall V) (hl : call.Legal m)
    {alloc : MapAlloc} (ha : alloc.Succeeds m)
    (hs : mapSize (call.exec hashFn alloc self).2 ≤ 2 ^ 30) :
    call.Returns m (call.exec hashFn alloc self).1 :=
  (call.exec_rep h.rep ha hl hs).1

end

theorem MapRun.unused {hashFn : UInt32 → List UInt8 → UInt32} {m : MapTable Nat}
    {self : CcMap Nat} (h : MapRun hashFn m self) {miter : IterPtr} (hm : miter ∉ self.seq) :
    ¬ m.Live miter := by
  rintro ⟨key, val, he⟩
  exact hm ((h.rep.entries key miter val).mp he).1

theorem mapThree_run : ∃ m, MapRun mapPairHash m mapThree := by
  have hkeep : ∀ n self, (∃ m, MapRun mapPairHash m self) → (⟨0, n.toNat⟩ : IterPtr) ∉ self.seq →
      mapSize (mapKeep n self) ≤ 2 ^ 30 → ∃ m, MapRun mapPairHash m (mapKeep n self) := by
    rintro n self ⟨m, h⟩ hm hs
    exact ⟨_, .step (.addp UInt64.toUInt8 n.toNat 1 n.toUInt64) h (by decide : 1 ≤ mapKeyLen)
      ⟨rfl, _, rfl, h.unused hm⟩ hs⟩
  have h₂ := hkeep 2 mapEmpty ⟨_, .new 0 _⟩ (by decide) (by decide)
  have h₁ := hkeep 1 _ h₂ (by decide +kernel) (by decide +kernel)
  exact hkeep 0 _ h₁ (by decide +kernel) (by decide +kernel)

/-- Keys with one hash are found apart. -/
theorem map_refines_table_three : ∃ m, MapRun mapPairHash m mapThree ∧
    {key | m key ≠ none}.ncard = 3 ∧ ∀ n : UInt8, n < 3 → ∃ k,
      mapKeyBytes UInt64.toUInt8 1 n.toUInt64 = some k ∧
      (m k).map Prod.fst = some ⟨0, n.toNat⟩ := by
  obtain ⟨m, hm⟩ := mapThree_run
  have hfree : MapAlloc.Succeeds ⟨true, some ⟨1, 0⟩, none⟩ m :=
    ⟨rfl, _, rfl, hm.unused (by decide +kernel)⟩
  have hsize : mapSize mapThree ≤ 2 ^ 30 := by decide +kernel
  have hfound : ∀ n : UInt8, n < 3 →
      mapFindp mapPairHash UInt64.toUInt8 mapThree 1 n.toUInt64 = some ⟨0, n.toNat⟩ := by
    decide +kernel
  refine ⟨m, hm, ?_, fun n hn => ?_⟩
  · have hcount := map_refines_table hm .size trivial hfree hsize
    injection hcount with hcount
    have hthree : mapSize mapThree = 3 := by decide +kernel
    omega
  · obtain ⟨k, hk, hr⟩ := map_refines_table hm (.findp UInt64.toUInt8 1 n.toUInt64)
      (by decide : 1 ≤ mapKeyLen) hfree hsize
    injection hr with hr
    exact ⟨k, hk, hr.symm.trans (hfound n hn)⟩

end LibCC
