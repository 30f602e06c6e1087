import LibCC.MapTable

/-! A traversal with cc_map_head and cc_map_next. What it meets depends on what
is in the map, not on how it came there. -/

namespace LibCC

open SequenceFamily SortedSearch

variable {V : Type}

def mapHead (self : CcMap V) : Option IterPtr := self.seq.head?

def mapNext (self : CcMap V) (miter : IterPtr) : Option IterPtr := (after miter self.seq).head?

/-- cc_map_key; the length is that of the key. -/
def mapKey (self : CcMap V) (miter : IterPtr) : MapKey := (self.node miter).key

def mapVal (self : CcMap V) (miter : IterPtr) : V := (self.node miter).val

def CcMap.entry (self : CcMap V) (miter : IterPtr) : MapKey × V :=
  (mapKey self miter, mapVal self miter)

/-- A loop from `miter` on over a map that stays as it is, for at most `n` turns: what it meets,
and the iter at its end. -/
def mapWalk (self : CcMap V) : Nat → Option IterPtr → List (MapKey × V) × Option IterPtr
  | _, none => ([], none)
  | 0, some miter => ([], some miter)
  | n + 1, some miter =>
    let rest := mapWalk self n (mapNext self miter)
    (self.entry miter :: rest.1, rest.2)

/-- The map after some calls of which any may fail, with what is in it. -/
inductive MapHistory (hashFn : UInt32 → List UInt8 → UInt32) : MapTable V → CcMap V → Prop
  | new (seed : UInt32) (data : IterPtr → MapNode V) :
      MapHistory hashFn (fun _ => none) (mapNew seed data)
  | step {m : MapTable V} {self : CcMap V} (call : MapCall V) {alloc : MapAlloc} :
      MapHistory hashFn m self → call.Legal m → alloc.Unused self →
      mapSize (call.exec hashFn alloc self).2 ≤ 2 ^ 30 →
      MapHistory hashFn (call.next m (call.exec hashFn alloc self).1)
        (call.exec hashFn alloc self).2

section

variable {hashFn : UInt32 → List UInt8 → UInt32} {m : MapTable V} {self : CcMap V}

/-- What cc_map_addp does to the contents when it may fail. -/
theorem MapRep.addp (h : MapRep hashFn m self) {alloc : MapAlloc} (ha : alloc.Unused self)
    (mem : UInt64 → UInt8) (val : V) (len : Nat) (key : UInt64)
    (hs : mapSize (mapAddp hashFn mem self val len key alloc).2 ≤ 2 ^ 30) :
    mapAddp hashFn mem self val len key alloc = (none, self) ∨
    ∃ k miter, mapKeyBytes mem len key = some k ∧ m k = none ∧ miter ∉ self.seq ∧
      (mapAddp hashFn mem self val len key alloc).1 = some miter ∧
      MapRep hashFn (Function.update m k (some (miter, val)))
        (mapAddp hashFn mem self val len key alloc).2 := by
  cases hk : mapKeyBytes mem len key with
  | none => exact .inl (by simp only [mapAddp, hk])
  | some k =>
    simp only [mapAddp, hk] at hs ⊢
    have hle := Int.ofNat_le.mp hs
    rcases h.add_cases ha val k (fun _ hlt => lt_of_lt_of_le hlt hle) with
      ⟨he, -⟩ | ⟨hn, miter, hm, -, hr, hrep⟩
    · exact .inl he
    · exact .inr ⟨k, miter, rfl, hn, hm, hr, hrep⟩

theorem MapHistory.rep (h : MapHistory hashFn m self) : MapRep hashFn m self := by
  induction h with
  | new seed data => exact (MapRun.new seed data).rep
  | @step m self call alloc _ hl ha hs ih =>
    cases call with
    | addp mem val len key =>
      rcases ih.addp ha mem val len key hs with he | ⟨k, miter, hk, -, -, hr, hrep⟩
      · simp only [MapCall.exec, MapCall.next, he]
        split
        · next he => exact absurd he (by simp)
        · exact ih
      · simpa only [MapCall.exec, MapCall.next, hk, hr] using hrep
    | findp mem len key => exact ih
    | remove miter => exact ih.remove (ih.live_iff.mp hl)
    | discard => exact ih.discard
    | entry miter => exact ih
    | size => exact ih

theorem mapWalk_suffix (h : MapInv self) {k l : List IterPtr} {n : Nat} (hs : self.seq = k ++ l)
    (hn : l.length ≤ n) : mapWalk self n l.head? = (l.map self.entry, none) := by
  induction l generalizing k n with
  | nil => cases n <;> rfl
  | cons x l ih =>
    obtain ⟨n, rfl⟩ : ∃ m, n = m + 1 := ⟨n - 1, by simp only [List.length_cons] at hn; omega⟩
    have hnd := h.ascending.nodup
    rw [hs] at hnd
    have hx : x ∉ k := fun hm => List.disjoint_of_nodup_append hnd hm (by simp)
    have hnext : mapNext self x = l.head? := by rw [mapNext, hs, after_split hx]
    have hrest := ih (k := k ++ [x]) (n := n) (by simpa using hs)
      (by simp only [List.length_cons] at hn; omega)
    simp only [List.head?_cons, mapWalk, hnext, hrest, List.map_cons]

theorem mapWalk_head (h : MapInv self) {n : Nat} (hn : mapSize self ≤ n) :
    mapWalk self n (mapHead self) = (self.seq.map self.entry, none) :=
  mapWalk_suffix h (k := []) rfl (Int.ofNat_le.mp hn)

/-- The place of a key in a traversal. -/
def mapKeyRank (hashFn : UInt32 → List UInt8 → UInt32) (seed : UInt32) (key : MapKey) : List Nat :=
  mapRank (hashFn seed key.bytes) key

theorem mapKeyRank_injective (seed : UInt32) : Function.Injective (mapKeyRank hashFn seed) :=
  fun _ _ he => (mapRank_inj.mp he).2

theorem MapRep.rank_eq (h : MapRep hashFn m self) {y : IterPtr} (hy : y ∈ self.seq) :
    self.rank y = mapKeyRank hashFn self.seed (self.node y).key := by
  rw [CcMap.rank, h.hash y hy, mapKeyRank]

theorem MapRep.entries_ascending (h : MapRep hashFn m self) :
    Ascending (fun e : MapKey × V => mapKeyRank hashFn self.seed e.1)
      (self.seq.map self.entry) := by
  apply List.pairwise_map.mpr
  apply List.Pairwise.imp_of_mem _ h.inv.ascending
  intro a b ha hb hlt
  rw [h.rank_eq ha, h.rank_eq hb] at hlt
  exact hlt

theorem MapRep.mem_entries (h : MapRep hashFn m self) (key : MapKey) (val : V) :
    (key, val) ∈ self.seq.map self.entry ↔ (m key).map Prod.snd = some val := by
  rw [List.mem_map, Option.map_eq_some_iff]
  constructor
  · rintro ⟨y, hy, he⟩
    obtain ⟨hk, hv⟩ := Prod.mk.inj he
    exact ⟨(y, val), (h.entries key y val).mpr ⟨hy, hk, hv⟩, rfl⟩
  · rintro ⟨⟨y, v⟩, he, rfl⟩
    obtain ⟨hy, hk, hv⟩ := (h.entries key y v).mp he
    exact ⟨y, hy, by rw [CcMap.entry, mapKey, mapVal, hk, hv]⟩

end

/-- Maps with one seed and equal contents are traversed alike, whatever the order of the calls
that made them, the keys removed in between, and the allocations that failed. -/
theorem map_walk_canonical {hashFn : UInt32 → List UInt8 → UInt32} {m m' : MapTable V}
    {self self' : CcMap V} (h : MapHistory hashFn m self) (h' : MapHistory hashFn m' self')
    (hseed : self.seed = self'.seed)
    (hsame : ∀ key, (m key).map Prod.snd = (m' key).map Prod.snd) {n : Nat}
    (hn : mapSize self ≤ n) (hn' : mapSize self' ≤ n) :
    mapWalk self n (mapHead self) = mapWalk self' n (mapHead self') ∧
    -- the loop ends, and meets every entry once
    (mapWalk self n (mapHead self)).2 = none ∧
    ((mapWalk self n (mapHead self)).1.map Prod.fst).Nodup ∧
    ∀ key val, (key, val) ∈ (mapWalk self n (mapHead self)).1 ↔
      ∃ miter, m key = some (miter, val) := by
  have hasc := h.rep.entries_ascending
  have hasc' := h'.rep.entries_ascending
  rw [← hseed] at hasc'
  have hmem : ∀ e, e ∈ self.seq.map self.entry ↔ e ∈ self'.seq.map self'.entry := by
    rintro ⟨key, val⟩
    rw [h.rep.mem_entries, h'.rep.mem_entries, hsame]
  have heq := hasc.eq_of_mem hasc' hmem
  rw [mapWalk_head h.rep.inv hn, mapWalk_head h'.rep.inv hn']
  refine ⟨by rw [heq], rfl, ?_, fun key val => ?_⟩
  · apply List.pairwise_map.mpr
    apply List.Pairwise.imp _ hasc
    intro a b hlt he
    exact hlt.ne (congrArg (mapKeyRank hashFn self.seed) he)
  · rw [h.rep.mem_entries, Option.map_eq_some_iff]
    constructor
    · rintro ⟨⟨y, v⟩, he, rfl⟩
      exact ⟨y, he⟩
    · rintro ⟨y, he⟩
      exact ⟨(y, val), he, rfl⟩

/-- A map whose first cc_map_addp failed is traversed like one where it did not. -/
theorem map_walk_canonical_retry :
    mapWalk (mapAddp (fun _ _ => 7) (fun _ => 0)
      (mapNew 0 fun _ => ⟨9, 0, ⟨[0], by decide, by decide⟩⟩)
      9 0 5 ⟨true, some ⟨0, 0⟩, none⟩).2 4 (some ⟨0, 0⟩) =
    mapWalk (mapAddp (fun _ _ => 7) (fun _ => 0) (mapAddp (fun _ _ => 7) (fun _ => 0)
      (mapNew 0 fun _ => ⟨9, 0, ⟨[0], by decide, by decide⟩⟩) 9 0 5 ⟨false, none, none⟩).2
      9 0 5 ⟨true, some ⟨0, 0⟩, none⟩).2 4 (some ⟨0, 0⟩) := by
  have hnew : MapHistory (fun _ _ => 7) (fun _ => none)
      (mapNew 0 fun _ => (⟨9, 0, ⟨[0], by decide, by decide⟩⟩ : MapNode Nat)) := .new 0 _
  have hadd := MapHistory.step (.addp (fun _ => 0) 9 0 5) hnew (Nat.zero_le _)
    (fun _ _ => List.not_mem_nil : MapAlloc.Unused ⟨true, some ⟨0, 0⟩, none⟩ _) (by decide)
  have hfail := MapHistory.step (.addp (fun _ => 0) 9 0 5) hnew (Nat.zero_le _)
    (nofun : MapAlloc.Unused ⟨false, none, none⟩ _) (by decide)
  have hretry := MapHistory.step (.addp (fun _ => 0) 9 0 5) hfail (Nat.zero_le _)
    (fun _ _ => List.not_mem_nil : MapAlloc.Unused ⟨true, some ⟨0, 0⟩, none⟩ _) (by decide)
  exact (map_walk_canonical hadd hretry rfl (fun _ => rfl) (by decide) (by decide)).1

end LibCC
