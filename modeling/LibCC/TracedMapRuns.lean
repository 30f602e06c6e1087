import LibCC.TracedRefinement

/-! Runs of cc_map in a heap where any call of an allocator may fail: the map
keeps its invariant, and a cc_map_addp that fails leaves all as it was. -/

namespace LibCC

open AllocEvent FramedProgram SequenceFamily SortedSearch

variable {V : Type}

/-- The states of cc_map and of the heap when any allocation may fail and any hash may come up. The
capacity is an int, so it does not grow beyond 2^30. Between two calls others use the heap. -/
inductive TracedMapReach : TracedMap V → TracedHeap → Prop
  | new {self : TracedMap V} {s s' : TracedHeap} {R : Holding} (flags : Nat) (seed : UInt32)
      (data : IterPtr → MapNode V) : HeapAccount s R →
      (Traced.mapNewFlags flags seed data).run s = (some self, s') → TracedMapReach self s'
  | addp {self self' : TracedMap V} {s s' : TracedHeap} {miter : Option IterPtr}
      (hashFn : UInt32 → List UInt8 → UInt32) (mem : UInt64 → UInt8) (val : V) (len : Nat)
      (key : UInt64) : TracedMapReach self s →
      (Traced.mapAddp hashFn mem self val len key).run s = ((miter, self'), s') →
      self'.map.capacity ≤ 2 ^ 30 → TracedMapReach self' s'
  | remove {self : TracedMap V} {s : TracedHeap} {miter : IterPtr} : TracedMapReach self s →
      miter ∈ self.map.seq → TracedMapReach ((Traced.mapRemove self miter).run s).1.2.2
        ((Traced.mapRemove self miter).run s).2
  | discard {self : TracedMap V} {s : TracedHeap} : TracedMapReach self s →
      TracedMapReach ((Traced.mapDiscard self).run s).1 ((Traced.mapDiscard self).run s).2
  | others {self : TracedMap V} {s s' : TracedHeap} {R : Holding} : TracedMapReach self s →
      HeapAccount s' (self.holds + R) → TracedMapReach self s'

theorem TracedMapReach.account {self : TracedMap V} {s : TracedHeap} (h : TracedMapReach self s) :
    ∃ R, HeapAccount s (self.holds + R) := by
  induction h with
  | @new self s s' R flags seed data hs hr =>
    rw [← zero_add R] at hs
    have hs' := (Traced.mapNewFlags_framed flags seed data).ran hr hs
    exact ⟨R, hs'⟩
  | addp hashFn mem val len key _ hr _ ih =>
    obtain ⟨R, hs⟩ := ih
    have hs' := (Traced.mapAddp_framed hashFn mem _ val len key).ran hr hs
    exact ⟨R, hs'⟩
  | remove _ hm ih =>
    obtain ⟨R, hs⟩ := ih
    exact ⟨R, Traced.mapRemove_framed _ hm _ R hs⟩
  | discard _ ih =>
    obtain ⟨R, hs⟩ := ih
    exact ⟨R, Traced.mapDiscard_framed _ _ R hs⟩
  | others _ hs _ => exact ⟨_, hs⟩

/-- What the loops of cc_map_grow leave is right as long as the capacity stays an int. -/
theorem mapGrow_inv_of_capacity {self : CcMap V} (h : MapInv self)
    {realloc : Option (Nat → Option IterPtr)} (hc : (mapGrow realloc self).capacity ≤ 2 ^ 30) :
    MapInv (mapGrow realloc self) := by
  apply mapGrow_inv h
  intro hr hlt
  obtain ⟨fresh, rfl⟩ := Option.ne_none_iff_exists'.mp hr
  have hcap : (mapGrow (some fresh) self).capacity = 2 * self.capacity := by
    rw [mapGrow, if_neg (by omega)]
    rw [mapGrowLoop_frame]
  obtain ⟨k, -, hk⟩ := h.capacity
  have hpos : 0 < self.capacity := by
    rw [hk]
    simp [mapCapacity]
  omega

theorem mapAddp_inv_of_capacity {self : CcMap V} (h : MapInv self) {alloc : MapAlloc}
    (ha : alloc.Unused self) (hashFn : UInt32 → List UInt8 → UInt32) (mem : UInt64 → UInt8)
    (val : V) (len : Nat) (key : UInt64)
    (hc : (mapAddp hashFn mem self val len key alloc).2.capacity ≤ 2 ^ 30) :
    MapInv (mapAddp hashFn mem self val len key alloc).2 := by
  cases hk : mapKeyBytes mem len key with
  | none => simpa only [mapAddp, hk] using h
  | some key =>
    simp only [mapAddp, hk] at hc ⊢
    rcases mapAddHash_cases h val (hashFn self.seed key.bytes) key alloc with
      ⟨he, -⟩ | ⟨miter, hi, hr, he⟩
    · rw [he]
      exact h
    · rw [he] at hc ⊢
      exact mapGrow_inv_of_capacity (mapInsert_inv h (ha miter hi) hr rfl) hc

theorem TracedMapReach.inv {self : TracedMap V} {s : TracedHeap} (h : TracedMapReach self s) :
    MapInv self.map := by
  induction h with
  | @new self s s' R flags seed data hs hr =>
    have hf := (Traced.mapNewFlags_returns flags seed data s self (by rw [hr])).2.1
    rw [hf]
    exact mapNew_inv seed data
  | @addp self self' s s' miter hashFn mem val len key hreach hr hc ih =>
    obtain ⟨R, hs⟩ := hreach.account
    obtain ⟨alloc, ha⟩ := Traced.mapAddp_answered hs hashFn mem val len key
    rw [hr] at ha
    have hmap : self'.map = (mapAddp hashFn mem self.map val len key alloc).2 :=
      congrArg Prod.snd ha.result
    rw [hmap] at hc ⊢
    exact mapAddp_inv_of_capacity ih ha.unused hashFn mem val len key hc
  | remove _ hm ih => exact mapRemove_inv ih hm
  | discard _ ih => exact mapDiscard_inv ih
  | others _ _ ih => exact ih

/-- A call of cc_map_addp that returns NULL changes nothing and leaks nothing. -/
theorem TracedMapReach.addp_none {self : TracedMap V} {s : TracedHeap} (h : TracedMapReach self s)
    (hashFn : UInt32 → List UInt8 → UInt32) (mem : UInt64 → UInt8) (val : V) (len : Nat)
    (key : UInt64) (hn : ((Traced.mapAddp hashFn mem self val len key).run s).1.1 = none) :
    ((Traced.mapAddp hashFn mem self val len key).run s).1.2 = self ∧
      owner ((Traced.mapAddp hashFn mem self val len key).run s).2.trace = owner s.trace := by
  obtain ⟨R, hs⟩ := h.account
  obtain ⟨alloc, ha⟩ := Traced.mapAddp_answered hs hashFn mem val len key
  exact ha.failed hn

/-- The map `m'` is `m` with one more entry, at the same capacity. -/
structure Enters (m : CcMap V) (miter : IterPtr) (node : MapNode V) (m' : CcMap V) : Prop where
  new : miter ∉ m.seq
  entries : m'.seq.Perm (miter :: m.seq)
  node : m'.node = Function.update m.node miter node
  capacity : m'.capacity = m.capacity
  inv : MapInv m'

theorem mapInsert_enters {self : CcMap V} (h : MapInv self) {miter : IterPtr}
    (hm : miter ∉ self.seq) {node : MapNode V}
    (hr : ∀ y ∈ self.seq, self.rank y ≠ mapRank node.hash node.key) :
    Enters self miter node (mapInsert self
      (self.seq.find? fun iter => mapRank node.hash node.key < self.rank iter) miter node) where
  new := hm
  entries := by
    obtain ⟨a, b, hs, hb, -, -⟩ := h.ascending.divide hr
    have hp : b.head? = self.seq.find? fun iter => mapRank node.hash node.key < self.rank iter := by
      rw [hb]
      exact find?_congr fun _ _ => decide_eq_decide.mpr Iff.rfl
    rw [mapInsert_seq hs hp h.ascending.nodup, hs]
    exact List.perm_middle
  node := mapInsert_node ..
  capacity := rfl
  inv := mapInsert_inv h hm hr rfl

/-- Where only the resize of the buckets fails, cc_map_addp returns the new entry. -/
theorem TracedMapReach.addp_resize {self : TracedMap V} {s : TracedHeap}
    (h : TracedMapReach self s) (hashFn : UInt32 → List UInt8 → UInt32) (mem : UInt64 → UInt8)
    (val : V) (len : Nat) (key : UInt64) {new : List HeapEvent}
    (hnew : ((Traced.mapAddp hashFn mem self val len key).run s).2.trace = new ++ s.trace)
    (hf : ∃ e ∈ new, FailsResize e) :
    ∃ miter bytes, ((Traced.mapAddp hashFn mem self val len key).run s).1.1 = some miter ∧
      mapKeyBytes mem len key = some bytes ∧
      Enters self.map miter ⟨val, hashFn self.map.seed bytes.bytes, bytes⟩
        ((Traced.mapAddp hashFn mem self val len key).run s).1.2.map := by
  obtain ⟨R, hs⟩ := h.account
  obtain ⟨alloc, ha⟩ := Traced.mapAddp_answered hs hashFn mem val len key
  obtain ⟨new', hnew', hf'⟩ := ha.resize
  rw [List.append_cancel_right (hnew.symm.trans hnew')] at hf
  obtain ⟨hsome, hrealloc⟩ := hf' hf
  have hres : (((Traced.mapAddp hashFn mem self val len key).run s).1.1,
      ((Traced.mapAddp hashFn mem self val len key).run s).1.2.map) =
        mapAddp hashFn mem self.map val len key alloc := ha.result
  cases hk : mapKeyBytes mem len key with
  | none =>
    simp only [mapAddp, hk] at hres
    exact absurd (congrArg Prod.fst hres) hsome
  | some bytes =>
    simp only [mapAddp, hk] at hres
    rcases mapAddHash_cases h.inv val (hashFn self.map.seed bytes.bytes) bytes alloc with
      ⟨he, -⟩ | ⟨miter, hi, hr, he⟩
    · rw [he] at hres
      exact absurd (congrArg Prod.fst hres) hsome
    · rw [he, hrealloc] at hres
      refine ⟨miter, bytes, congrArg Prod.fst hres, rfl, ?_⟩
      have hmap : ((Traced.mapAddp hashFn mem self val len key).run s).1.2.map =
          mapGrow none (mapInsert self.map _ miter _) := congrArg Prod.snd hres
      rw [hmap, show ∀ m : CcMap V, mapGrow none m = m from fun m => by simp [mapGrow]]
      exact mapInsert_enters h.inv (ha.unused miter hi) hr

end LibCC
