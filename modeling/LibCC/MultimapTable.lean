import LibCC.MultimapHolds
import LibCC.StableOrder

/-! What cc_multimap is for: a finite map from keys to sequences of values, with no sequence for a
key that has no value. Each value keeps the number of the call that stored it. -/

namespace LibCC

open SequenceFamily NestedTraversal StableOrder

abbrev MultimapTable (V : Type) := MapKey → List (Nat × V)

variable {L V : Type}

namespace MultimapTable

/-- A value goes to the end, or to its place among the values that `compare` has sorted. -/
def place (compare : Option (V → V → Int)) (e : Nat × V) (l : List (Nat × V)) : List (Nat × V) :=
  match compare with
  | none => l ++ [e]
  | some compare => StableOrder.place (fun a b => compare a.2 b.2) e l

def add (compare : Option (V → V → Int)) (table : MultimapTable V) (key : MapKey) (e : Nat × V) :
    MultimapTable V :=
  Function.update table key (place compare e (table key))

def remove (table : MultimapTable V) (key : MapKey) (i : Nat) : MultimapTable V :=
  Function.update table key ((table key).eraseIdx i)

end MultimapTable

/-- In the order of insertion, or sorted with equal values in the order of insertion. -/
def MultimapOrdered (compare : Option (V → V → Int)) (l : List (Nat × V)) : Prop :=
  match compare with
  | none => l.Pairwise (fun a b => a.1 < b.1)
  | some compare => Stable (fun a b => compare a.2 b.2) Prod.fst l

/-- The multimaps that a program has after some calls, with the number of calls of
cc_multimap_addp and the table that the calls describe. Any allocation may fail. -/
inductive MultimapRun [DecidableEq L] (hashFn : UInt32 → List UInt8 → UInt32)
    (compare : Option (V → V → Int)) : Nat → MultimapTable V → CcMultimap L V → Prop
  | new (seed : UInt32) (nodes : IterPtr → MapNode L) (data : IterPtr → V) :
      MultimapRun hashFn compare 0 (fun _ => []) (multimapNew compare seed nodes data)
  | addp {n : Nat} {table : MultimapTable V} {self : CcMultimap L V} (mem : UInt64 → UInt8)
      (val : V) {len : Nat} (key : UInt64) {k : MapKey} {alloc : MultimapAlloc L} :
      MultimapRun hashFn compare n table self → len ≤ mapKeyLen →
      mapKeyBytes mem len key = some k → alloc.Serves self →
      MultimapRun hashFn compare (n + 1)
        (if (multimapAddp hashFn mem self val len key alloc).1 = 0 then table
          else table.add compare k (n, val))
        (multimapAddp hashFn mem self val len key alloc).2
  | remove {n : Nat} {table : MultimapTable V} {self : CcMultimap L V} {mmiter : MultimapIter}
      {key : MapKey} {i : Nat} : MultimapRun hashFn compare n table self →
      mmiter.Points self key i →
      MultimapRun hashFn compare n (table.remove key i) (multimapRemove self mmiter).2.2
  | discard {n : Nat} {table : MultimapTable V} {self : CcMultimap L V} :
      MultimapRun hashFn compare n table self →
      MultimapRun hashFn compare n (fun _ => []) (multimapDiscard self)

section Ordered

variable {compare : Option (V → V → Int)} {l : List (Nat × V)}

theorem MultimapOrdered.nil : MultimapOrdered compare ([] : List (Nat × V)) := by
  cases compare <;> exact List.Pairwise.nil

theorem MultimapOrdered.sublist {l' : List (Nat × V)} (h : MultimapOrdered compare l)
    (hs : l'.Sublist l) : MultimapOrdered compare l' := by
  cases compare with
  | none => exact List.Pairwise.sublist hs h
  | some compare => exact Stable.sublist h hs

theorem MultimapOrdered.place (h : MultimapOrdered compare l)
    (hc : ∀ f, compare = some f → TotalPreorder f) {n : Nat} (hn : ∀ e ∈ l, e.1 < n) (val : V) :
    MultimapOrdered compare (MultimapTable.place compare (n, val) l) := by
  cases compare with
  | none =>
    refine List.pairwise_append.mpr ⟨h, List.pairwise_singleton _ _, fun a ha b hb => ?_⟩
    obtain rfl := List.mem_singleton.mp hb
    exact hn a ha
  | some f => exact Stable.place ((hc f rfl).comap Prod.snd) h hn

theorem mem_multimapPlace {e x : Nat × V} :
    x ∈ MultimapTable.place compare e l ↔ x = e ∨ x ∈ l := by
  cases compare with
  | none => simp [MultimapTable.place, or_comm]
  | some f =>
    show x ∈ StableOrder.place (fun a b => f a.2 b.2) e l ↔ _
    exact mem_place x

/-- Where the code puts a value is its place in the table. -/
theorem multimapPlace_split {a b : List V} {val : V} {n : Nat}
    (hc : ∀ f, compare = some f → TotalPreorder f) (h : MultimapOrdered compare l)
    (hl : l.map Prod.snd = a ++ b) (hend : compare = none → b = [])
    (hpos : ∀ f, compare = some f →
      (∀ x ∈ a, ¬ f val x < 0) ∧ ∀ x, b.head? = some x → f val x < 0) :
    (MultimapTable.place compare (n, val) l).map Prod.snd = a ++ val :: b := by
  cases compare with
  | none =>
    obtain rfl := hend rfl
    rw [List.append_nil] at hl
    simp [MultimapTable.place, hl]
  | some f =>
    obtain ⟨ha, hb⟩ := hpos f rfl
    have hf := (hc f rfl).comap (Prod.snd : Nat × V → V)
    obtain ⟨la, lb, rfl, hla, hlb⟩ := List.map_eq_append_iff.mp hl
    have hge : ∀ x ∈ la, ¬ f (n, val).2 x.2 < 0 :=
      fun x hx => ha x.2 (hla ▸ List.mem_map_of_mem hx)
    cases lb with
    | nil =>
      have hplace := place_last (e := (n, val)) hf hge
      simp only [List.append_nil]
      rw [MultimapTable.place, hplace, List.map_append, hla, ← hlb]
      rfl
    | cons t lb =>
      have ht : f (n, val).2 t.2 < 0 := hb t.2 (by simp [← hlb])
      have hplace := place_split (e := (n, val)) hf (Stable.sorted h) hge ht
      rw [MultimapTable.place, hplace, List.map_append, hla, ← hlb]
      rfl

end Ordered

/-- The multimap stores what the table says. -/
structure MultimapRep (hashFn : UInt32 → List UInt8 → UInt32) (compare : Option (V → V → Int))
    (n : Nat) (m : MapTable L) (table : MultimapTable V) (mm : CcMultimap L V) : Prop where
  inv : MultimapInv mm
  rep : MapRep hashFn m mm.map
  cmp : mm.compare = compare
  stored : ∀ key, (table key).map Prod.snd = mm.stored (m key)
  ordered : ∀ key, MultimapOrdered compare (table key)
  stamps : ∀ key, ∀ e ∈ table key, e.1 < n

section Steps

variable {hashFn : UInt32 → List UInt8 → UInt32} {compare : Option (V → V → Int)} {n : Nat}
  {m : MapTable L} {table : MultimapTable V} {self : CcMultimap L V}

theorem MultimapRep.holds (h : MultimapRep hashFn compare n m table self) :
    MultimapHolds hashFn m (fun key => (table key).map Prod.snd) self := ⟨h.inv, h.rep, h.stored⟩

theorem MultimapRep.eq_nil_iff (h : MultimapRep hashFn compare n m table self) (key : MapKey) :
    table key = [] ↔ m key = none :=
  List.map_eq_nil_iff.symm.trans (h.holds.eq_nil_iff key)

theorem MultimapRep.same {self' : CcMultimap L V} (h : MultimapRep hashFn compare n m table self)
    (hs : MultimapSame self self') : MultimapRep hashFn compare (n + 1) m table self' := by
  obtain ⟨hinv, hrep, hstored⟩ := h.holds.same hs
  exact ⟨hinv, hrep, hs.compare.trans h.cmp, hstored, h.ordered,
    fun key e he => Nat.lt_succ_of_lt (h.stamps key e he)⟩

theorem multimapNew_rep (hashFn : UInt32 → List UInt8 → UInt32) (compare : Option (V → V → Int))
    (seed : UInt32) (nodes : IterPtr → MapNode L) (data : IterPtr → V) :
    MultimapRep hashFn compare 0 (fun _ => none) (fun _ => [])
      (multimapNew compare seed nodes data) := by
  obtain ⟨hinv, hrep, hstored⟩ := MultimapHolds.new hashFn compare seed nodes data
  exact ⟨hinv, hrep, rfl, hstored, fun _ => .nil, by simp⟩

theorem MultimapRep.findp (h : MultimapRep hashFn compare n m table self) {mem : UInt64 → UInt8}
    {len : Nat} {key : UInt64} {k : MapKey} (hk : mapKeyBytes mem len key = some k) :
    (table k = [] ∧ multimapFindp hashFn mem self len key = none) ∨
    table k ≠ [] ∧ ∃ list mmiter, multimapFindp hashFn mem self len key = some (list, mmiter) ∧
      self.values list = (table k).map Prod.snd ∧ mmiter.Points self k 0 := by
  have hfind : mapFindp hashFn mem self.map len key =
      mapFindHash self.map (hashFn self.map.seed k.bytes) k := by
    simp only [mapFindp, hk]
  rw [multimapFindp, hfind]
  rcases h.holds.find k with ⟨hn, he⟩ | ⟨hne, mmiter, he, hv, hp⟩
  · rw [he]
    exact .inl ⟨List.map_eq_nil_iff.mp hn, rfl⟩
  · rw [he]
    exact .inr ⟨fun hc => hne (List.map_eq_nil_iff.mpr hc), _, mmiter, rfl, hv, hp⟩

theorem MultimapRep.size (h : MultimapRep hashFn compare n m table self) :
    multimapSize self = ({key | table key ≠ []} : Set MapKey).ncard := by
  have hset : ({key | table key ≠ []} : Set MapKey) = {key | m key ≠ none} := by
    ext key
    exact not_congr (h.eq_nil_iff key)
  rw [hset]
  exact h.rep.size

/-- The iterators that cc_multimap_head and cc_multimap_next return point at values. -/
theorem MultimapInv.iterators (h : MultimapInv self) :
    (∀ mmiter, multimapHead self = some mmiter → ∃ key i, mmiter.Points self key i) ∧
    ∀ mmiter key i, mmiter.Points self key i → ∀ mmiter', multimapNext self mmiter = some mmiter' →
      ∃ key' i', mmiter'.Points self key' i' := by
  constructor
  · intro mmiter hh
    rw [multimapHead_eq h] at hh
    obtain ⟨x, hx, rfl⟩ := Option.map_eq_some_iff.mp hh
    exact ⟨_, points_of_position (List.mem_of_mem_head? hx)⟩
  · intro mmiter key i hp mmiter' hh
    obtain ⟨x, hx, rfl, -⟩ := hp.position
    rw [multimapNext_eq h hx] at hh
    obtain ⟨y, hy, rfl⟩ := Option.map_eq_some_iff.mp hh
    obtain ⟨a, b, hs, ha⟩ := split_of_mem hx
    rw [hs, after_split ha] at hy
    exact ⟨_, points_of_position (by rw [hs]; simp [List.mem_of_mem_head? hy])⟩

variable [DecidableEq L]

theorem MultimapRep.put (h : MultimapRep hashFn compare n m table self)
    (hc : ∀ f, compare = some f → TotalPreorder f) {key : MapKey} {miter : IterPtr} {list : L}
    (he : m key = some (miter, list)) {a b : List IterPtr} (hl : self.lists.seq list = a ++ b)
    {iter : IterPtr} (hi : ∀ list ∈ self.live, iter ∉ self.lists.seq list) {val : V}
    (hend : compare = none → b = [])
    (hpos : ∀ f, compare = some f → (∀ p ∈ a, ¬ f val (self.lists.data p) < 0) ∧
      ∀ p, b.head? = some p → f val (self.lists.data p) < 0) :
    MultimapRep hashFn compare (n + 1) m (table.add compare key (n, val))
      (self.put list a iter b val) := by
  obtain ⟨hold, hinv, hrep, hstored⟩ := h.holds.put he hl hi val
  have hpos' : ∀ f, compare = some f → (∀ x ∈ a.map self.lists.data, ¬ f val x < 0) ∧
      ∀ x, (b.map self.lists.data).head? = some x → f val x < 0 := by
    intro f hf
    obtain ⟨ha, hb⟩ := hpos f hf
    refine ⟨fun x hx => ?_, fun x hx => ?_⟩
    · obtain ⟨p, hp, rfl⟩ := List.mem_map.mp hx
      exact ha p hp
    · rw [List.head?_map] at hx
      obtain ⟨p, hp, rfl⟩ := Option.map_eq_some_iff.mp hx
      exact hb p hp
  have hplace := multimapPlace_split (n := n) hc (h.ordered key) hold
    (fun hn => by rw [hend hn, List.map_nil]) hpos'
  refine ⟨hinv, hrep, h.cmp, fun k => ?_, fun k => ?_, fun k e hk => ?_⟩
  · rw [← hstored k]
    by_cases hk : k = key
    · subst hk
      rw [MultimapTable.add, Function.update_self, Function.update_self, hplace]
    · rw [MultimapTable.add, Function.update_of_ne hk, Function.update_of_ne hk]
  · by_cases hk : k = key
    · subst hk
      rw [MultimapTable.add, Function.update_self]
      exact (h.ordered k).place hc (h.stamps k) val
    · rw [MultimapTable.add, Function.update_of_ne hk]
      exact h.ordered k
  · by_cases hkk : k = key
    · subst hkk
      rw [MultimapTable.add, Function.update_self] at hk
      rcases mem_multimapPlace.mp hk with rfl | hk
      · exact Nat.lt_succ_self n
      · exact Nat.lt_succ_of_lt (h.stamps k e hk)
    · rw [MultimapTable.add, Function.update_of_ne hkk] at hk
      exact Nat.lt_succ_of_lt (h.stamps k e hk)

theorem MultimapRep.putList (h : MultimapRep hashFn compare n m table self) {key : MapKey}
    (hn : m key = none) {miter : IterPtr} (hm : miter ∉ self.map.seq) {list : L}
    (hl : list ∉ self.live) {map : CcMap L}
    (hr : MapRep hashFn (Function.update m key (some (miter, list))) map) {iter : IterPtr}
    (hi : ∀ list ∈ self.live, iter ∉ self.lists.seq list) (val : V) :
    MultimapRep hashFn compare (n + 1) (Function.update m key (some (miter, list)))
      (table.add compare key (n, val)) (self.putList map list iter val) := by
  have hone : table.add compare key (n, val) = Function.update table key [(n, val)] := by
    rw [MultimapTable.add, (h.eq_nil_iff key).mpr hn]
    cases compare <;> rfl
  obtain ⟨hinv, hrep, hstored⟩ := h.holds.putList hn hm hl hr hi val
  rw [hone]
  refine ⟨hinv, hrep, h.cmp, fun k => ?_, fun k => ?_, fun k e hk => ?_⟩
  · rw [← hstored k]
    by_cases hk : k = key
    · subst hk
      rw [Function.update_self, Function.update_self]
      rfl
    · rw [Function.update_of_ne hk, Function.update_of_ne hk]
  · by_cases hk : k = key
    · subst hk
      rw [Function.update_self]
      cases compare <;> exact List.pairwise_singleton _ _
    · rw [Function.update_of_ne hk]
      exact h.ordered k
  · by_cases hkk : k = key
    · subst hkk
      rw [Function.update_self, List.mem_singleton] at hk
      rw [hk]
      exact Nat.lt_succ_self n
    · rw [Function.update_of_ne hkk] at hk
      exact Nat.lt_succ_of_lt (h.stamps k e hk)

theorem MultimapRep.remove (h : MultimapRep hashFn compare n m table self) {mmiter : MultimapIter}
    {key : MapKey} {i : Nat} (hp : mmiter.Points self key i) :
    ∃ m', MultimapRep hashFn compare n m' (table.remove key i)
      (multimapRemove self mmiter).2.2 := by
  obtain ⟨m', ⟨hinv, hrep, hstored⟩, hcmp⟩ := h.holds.remove hp
  refine ⟨m', hinv, hrep, hcmp.trans h.cmp, fun k => ?_, fun k => ?_, fun k e hk => ?_⟩
  · rw [← hstored k]
    by_cases hk : k = key
    · subst hk
      rw [MultimapTable.remove, Function.update_self, Function.update_self, List.eraseIdx_map]
    · rw [MultimapTable.remove, Function.update_of_ne hk, Function.update_of_ne hk]
  · by_cases hk : k = key
    · subst hk
      rw [MultimapTable.remove, Function.update_self]
      exact (h.ordered k).sublist (List.eraseIdx_sublist _ _)
    · rw [MultimapTable.remove, Function.update_of_ne hk]
      exact h.ordered k
  · by_cases hkk : k = key
    · subst hkk
      rw [MultimapTable.remove, Function.update_self] at hk
      exact h.stamps k e (List.mem_of_mem_eraseIdx hk)
    · rw [MultimapTable.remove, Function.update_of_ne hkk] at hk
      exact h.stamps k e hk

theorem MultimapRep.discard (h : MultimapRep hashFn compare n m table self) :
    ∃ m', MultimapRep hashFn compare n m' (fun _ => []) (multimapDiscard self) := by
  obtain ⟨m', ⟨hinv, hrep, hstored⟩, hcmp⟩ := h.holds.discard
  exact ⟨m', hinv, hrep, hcmp.trans h.cmp, hstored, fun _ => .nil, by simp⟩

theorem MultimapRep.addp (h : MultimapRep hashFn compare n m table self)
    (hc : ∀ f, compare = some f → TotalPreorder f) {mem : UInt64 → UInt8} {len : Nat}
    {key : UInt64} {k : MapKey} (hk : mapKeyBytes mem len key = some k) {alloc : MultimapAlloc L}
    (ha : alloc.Serves self) (val : V) :
    ∃ m', MultimapRep hashFn compare (n + 1) m'
      (if (multimapAddp hashFn mem self val len key alloc).1 = 0 then table
        else table.add compare k (n, val))
      (multimapAddp hashFn mem self val len key alloc).2 := by
  rcases multimapAddp_cases h.rep ha hk val with ⟨self', he, hs, -⟩ |
    ⟨miter, list, iter, a, b, hmk, hi, hl, he, hend, hpos⟩ |
    ⟨hn, miter, list, iter, map, hl, hi, hm, hr, he⟩
  · rw [he]
    exact ⟨m, h.same hs⟩
  · rw [he]
    rw [h.cmp] at hend hpos
    exact ⟨m, h.put hc hmk hl (ha.iter iter hi) hend hpos⟩
  · rw [he]
    exact ⟨_, h.putList hn hm (ha.list list hl) hr (ha.iter iter hi) val⟩

theorem MultimapRun.rep (hc : ∀ f, compare = some f → TotalPreorder f)
    (h : MultimapRun hashFn compare n table self) :
    ∃ m, MultimapRep hashFn compare n m table self := by
  induction h with
  | new seed nodes data => exact ⟨_, multimapNew_rep hashFn compare seed nodes data⟩
  | addp mem val key _ _ hk ha ih =>
    obtain ⟨m, hm⟩ := ih
    exact hm.addp hc hk ha val
  | remove _ hp ih =>
    obtain ⟨m, hm⟩ := ih
    exact hm.remove hp
  | discard _ ih =>
    obtain ⟨m, hm⟩ := ih
    exact hm.discard

end Steps

/-- After any calls, with any failures of the allocator, a multimap is the finite map that the
calls describe, and a call that adds a value does so or changes nothing. -/
theorem multimap_refines_table [DecidableEq L] {hashFn : UInt32 → List UInt8 → UInt32}
    {compare : Option (V → V → Int)} (hc : ∀ f, compare = some f → TotalPreorder f) {n : Nat}
    {table : MultimapTable V} {self : CcMultimap L V}
    (h : MultimapRun hashFn compare n table self) :
    -- cc_multimap_findp
    (∀ mem len key, len ≤ mapKeyLen → ∃ k, mapKeyBytes mem len key = some k ∧
      ((table k = [] ∧ multimapFindp hashFn mem self len key = none) ∨
      table k ≠ [] ∧ ∃ list mmiter, multimapFindp hashFn mem self len key = some (list, mmiter) ∧
        self.values list = (table k).map Prod.snd ∧ mmiter.Points self k 0)) ∧
    -- the iterators that cc_multimap_remove may be given
    (∀ mmiter, multimapHead self = some mmiter → ∃ key i, mmiter.Points self key i) ∧
    (∀ mmiter key i, mmiter.Points self key i → ∀ mmiter',
      multimapNext self mmiter = some mmiter' → ∃ key' i', mmiter'.Points self key' i') ∧
    -- the order of the values
    (∀ key, MultimapOrdered compare (table key)) ∧
    -- cc_multimap_addp
    (∀ mem val len key alloc, alloc.Serves self →
      ((multimapAddp hashFn mem self val len key alloc).1 = 0 →
        MultimapSame self (multimapAddp hashFn mem self val len key alloc).2) ∧
      (len ≤ mapKeyLen → alloc.Succeeds →
        (multimapAddp hashFn mem self val len key alloc).1 = 1)) ∧
    (∀ miter ∈ self.map.seq, self.lists.seq (self.list miter) ≠ []) ∧
    multimapSize self = ({key | table key ≠ []} : Set MapKey).ncard := by
  obtain ⟨m, hm⟩ := h.rep hc
  refine ⟨fun mem len key hl => ?_, hm.inv.iterators.1, hm.inv.iterators.2, hm.ordered,
    fun mem val len key alloc ha => ?_, hm.inv.nonempty, hm.size⟩
  · obtain ⟨k, hk⟩ := mapKeyBytes_some mem hl key
    exact ⟨k, hk, hm.findp hk⟩
  · cases hk : mapKeyBytes mem len key with
    | none =>
      obtain ⟨self', he, hs⟩ := multimapAddp_long hk ha val
      rw [he]
      refine ⟨fun _ => hs, fun hl => ?_⟩
      obtain ⟨k, hk'⟩ := mapKeyBytes_some mem hl key
      exact nomatch hk.symm.trans hk'
    | some k =>
      rcases multimapAddp_cases hm.rep ha hk val with ⟨self', he, hs, hf⟩ |
        ⟨_, _, _, _, _, -, -, -, he, -⟩ | ⟨-, _, _, _, _, -, -, -, -, he⟩
      · rw [he]
        exact ⟨fun _ => hs, fun _ hsucc => absurd hsucc hf⟩
      · rw [he]
        exact ⟨fun h0 => absurd h0 (by simp), fun _ _ => rfl⟩
      · rw [he]
        exact ⟨fun h0 => absurd h0 (by simp), fun _ _ => rfl⟩

/-- Values are in order by their tens. -/
def tensCompare (a b : Int) : Int := a / 10 - b / 10

theorem tensCompare_preorder : ∀ f, some tensCompare = some f → TotalPreorder f := by
  intro f hf
  obtain rfl := Option.some.inj hf
  exact ⟨fun a b => by simp only [tensCompare]; omega,
    fun a b c hab hbc => by simp only [tensCompare] at *; omega⟩

/-- The empty multimap, sorted by the tens. -/
def multimapTens : CcMultimap Nat Int :=
  multimapNew (some tensCompare) 0 (fun _ => mapNodeZero) fun _ => 0

def multimapKeep (val : Int) (key : UInt8) (n : Nat) (self : CcMultimap Nat Int) :
    CcMultimap Nat Int :=
  (multimapAddp mapPairHash UInt64.toUInt8 self val 1 key.toUInt64
    ⟨some n, some ⟨1, n⟩, ⟨true, some ⟨0, n⟩, none⟩⟩).2

/-- Three values of the key 1 and one of the key 0, which has its hash. -/
def multimapFour : CcMultimap Nat Int :=
  multimapKeep 57 1 3 (multimapKeep 31 1 2 (multimapKeep 70 0 1 (multimapKeep 52 1 0 multimapTens)))

theorem multimapKeep_run {self : CcMultimap Nat Int}
    (h : ∃ n table, MultimapRun mapPairHash (some tensCompare) n table self) (val : Int)
    (key : UInt8) {n : Nat} (hlist : n ∉ self.live)
    (hiter : ∀ list ∈ self.live, (⟨1, n⟩ : IterPtr) ∉ self.lists.seq list)
    (hmiter : (⟨0, n⟩ : IterPtr) ∉ self.map.seq) : ∃ n' table,
      MultimapRun mapPairHash (some tensCompare) n' table (multimapKeep val key n self) := by
  obtain ⟨m, table, hrun⟩ := h
  obtain ⟨k, hk⟩ := mapKeyBytes_some UInt64.toUInt8 (by decide : 1 ≤ mapKeyLen) key.toUInt64
  refine ⟨m + 1, _, .addp UInt64.toUInt8 val key.toUInt64 hrun (by decide) hk ⟨?_, ?_, ?_, ?_⟩⟩
  · intro list hl
    obtain rfl := Option.some.inj hl
    exact hlist
  · intro iter hi
    obtain rfl := Option.some.inj hi
    exact hiter
  · intro miter hm
    obtain rfl := Option.some.inj hm
    exact hmiter
  · exact fun hn => absurd rfl hn

theorem multimapFour_run :
    ∃ n table, MultimapRun mapPairHash (some tensCompare) n table multimapFour := by
  have h₀ : ∃ n table, MultimapRun mapPairHash (some tensCompare) n table multimapTens :=
    ⟨0, _, .new 0 _ _⟩
  have h₁ := multimapKeep_run h₀ 52 1 (n := 0) (by decide) (by decide) (by decide)
  have h₂ := multimapKeep_run h₁ 70 0 (n := 1) (by decide +kernel) (by decide +kernel)
    (by decide +kernel)
  have h₃ := multimapKeep_run h₂ 31 1 (n := 2) (by decide +kernel) (by decide +kernel)
    (by decide +kernel)
  exact multimapKeep_run h₃ 57 1 (by decide +kernel) (by decide +kernel) (by decide +kernel)

theorem multimap_refines_table_four : ∃ n table k,
    MultimapRun mapPairHash (some tensCompare) n table multimapFour ∧
    mapKeyBytes UInt64.toUInt8 1 1 = some k ∧ (table k).map Prod.snd = [31, 52, 57] ∧
    MultimapOrdered (some tensCompare) (table k) ∧ {key | table key ≠ []}.ncard = 2 := by
  obtain ⟨n, table, hrun⟩ := multimapFour_run
  obtain ⟨hfind, -, -, hordered, -, -, hsize⟩ := multimap_refines_table tensCompare_preorder hrun
  obtain ⟨k, hk, hfound⟩ := hfind UInt64.toUInt8 1 1 (by decide)
  have hlist : (multimapFindp mapPairHash UInt64.toUInt8 multimapFour 1 1).map Prod.fst =
      some 0 := by decide +kernel
  have hvals : multimapFour.values 0 = [31, 52, 57] := by decide +kernel
  have htwo : multimapSize multimapFour = 2 := by decide +kernel
  refine ⟨n, table, k, hrun, hk, ?_, hordered k, by omega⟩
  rcases hfound with ⟨-, hnone⟩ | ⟨-, list, mmiter, hsome, hvalues, -⟩
  · rw [hnone] at hlist
    exact absurd hlist (by simp)
  · rw [hsome] at hlist
    obtain rfl : list = 0 := Option.some.inj hlist
    rw [← hvalues, hvals]

end LibCC
