import LibCC.MultimapUpdate

/-! The values that a multimap holds under each key, in their order, and what the calls do to
them. -/

namespace LibCC

open SequenceFamily NestedTraversal

variable {L V : Type}

/-- The iterator is at value number `i` of `key`. -/
def MultimapIter.Points (mmiter : MultimapIter) (self : CcMultimap L V) (key : MapKey) (i : Nat) :
    Prop :=
  mmiter.miter ∈ self.map.seq ∧ multimapKey self mmiter = key ∧ mmiter.iter ≠ none ∧
    (self.lists.seq (multimapList self mmiter))[i]? = mmiter.iter

/-- The values of the entry that the map has for a key. -/
def CcMultimap.stored (self : CcMultimap L V) (e : Option (IterPtr × L)) : List V :=
  match e with
  | none => []
  | some e => self.values e.2

/-- The map of the multimap is `m`, and the list of each key has the values of the key. -/
structure MultimapHolds (hashFn : UInt32 → List UInt8 → UInt32) (m : MapTable L)
    (vals : MapKey → List V) (mm : CcMultimap L V) : Prop where
  inv : MultimapInv mm
  rep : MapRep hashFn m mm.map
  stored : ∀ key, vals key = mm.stored (m key)

section

variable {hashFn : UInt32 → List UInt8 → UInt32} {m : MapTable L} {vals : MapKey → List V}
  {self : CcMultimap L V}

theorem MapRep.list_eq (h : MapRep hashFn m self.map) {key : MapKey} {miter : IterPtr} {list : L}
    (he : m key = some (miter, list)) :
    miter ∈ self.map.seq ∧ (self.map.node miter).key = key ∧ list = self.list miter := by
  obtain ⟨hm, hk, hv⟩ := (h.entries key miter list).mp he
  exact ⟨hm, hk, hv.symm⟩

theorem MultimapIter.Points.position {mmiter : MultimapIter} {key : MapKey} {i : Nat}
    (h : mmiter.Points self key i) :
    ∃ x ∈ self.positions, mmiter = .ofPos x ∧ (self.map.node x.1).key = key ∧
      (self.items x.1)[i]? = some x.2 := by
  obtain ⟨hm, hk, hne, hi⟩ := h
  obtain ⟨p, hp⟩ := Option.ne_none_iff_exists'.mp hne
  rw [hp] at hi
  refine ⟨(mmiter.miter, p), mem_positions.mpr ⟨hm, List.mem_of_getElem? hi⟩, ?_, hk, hi⟩
  rw [MultimapIter.ofPos, ← hp]

theorem points_of_position {x : IterPtr × IterPtr} (hx : x ∈ self.positions) :
    ∃ i, (MultimapIter.ofPos x).Points self (self.map.node x.1).key i := by
  obtain ⟨hm, hp⟩ := mem_positions.mp hx
  obtain ⟨i, hi⟩ := List.mem_iff_getElem?.mp hp
  exact ⟨i, hm, rfl, by simp [MultimapIter.ofPos], hi⟩

namespace MultimapHolds

theorem mem_live (h : MultimapHolds hashFn m vals self) {key : MapKey} {miter : IterPtr} {list : L}
    (he : m key = some (miter, list)) : list ∈ self.live := by
  obtain ⟨hm, -, rfl⟩ := h.rep.list_eq he
  exact h.inv.mem_live hm

theorem list_ne (h : MultimapHolds hashFn m vals self) {key key' : MapKey}
    {miter miter' : IterPtr} {list list' : L} (he : m key = some (miter, list))
    (he' : m key' = some (miter', list')) (hne : key' ≠ key) : list' ≠ list := by
  obtain ⟨hm, hk, rfl⟩ := h.rep.list_eq he
  obtain ⟨hm', hk', rfl⟩ := h.rep.list_eq he'
  intro hl
  obtain rfl := h.inv.list_inj hm' hm hl
  exact hne (hk'.symm.trans hk)

theorem vals_ne_nil (h : MultimapHolds hashFn m vals self) {key : MapKey} {miter : IterPtr}
    {list : L} (he : m key = some (miter, list)) : vals key ≠ [] := by
  obtain ⟨hm, -, rfl⟩ := h.rep.list_eq he
  intro hn
  have hs := h.stored key
  rw [hn, he] at hs
  have hitems : self.items miter = [] := List.map_eq_nil_iff.mp hs.symm
  exact h.inv.nonempty miter hm hitems

theorem eq_nil_iff (h : MultimapHolds hashFn m vals self) (key : MapKey) :
    vals key = [] ↔ m key = none := by
  constructor
  · intro hn
    cases he : m key with
    | none => rfl
    | some e => exact absurd hn (h.vals_ne_nil he)
  · intro hn
    rw [h.stored key, hn]
    rfl

theorem same {self' : CcMultimap L V} (h : MultimapHolds hashFn m vals self)
    (hs : MultimapSame self self') : MultimapHolds hashFn m vals self' := by
  refine ⟨hs.inv h.inv, hs.map ▸ h.rep, fun key => ?_⟩
  rw [h.stored key]
  cases he : m key with
  | none => rfl
  | some e => exact (hs.values (h.mem_live he)).symm

theorem new (hashFn : UInt32 → List UInt8 → UInt32) (compare : Option (V → V → Int))
    (seed : UInt32) (nodes : IterPtr → MapNode L) (data : IterPtr → V) :
    MultimapHolds hashFn (fun _ => none) (fun _ => []) (multimapNew compare seed nodes data) := by
  have hmap : MapRep hashFn (fun _ => none) (mapNew seed nodes) := (MapRun.new seed nodes).rep
  refine ⟨⟨hmap.inv, List.Perm.nil, List.nodup_nil, ?_, ?_⟩, hmap, fun _ => rfl⟩
  · exact fun y hy => absurd hy List.not_mem_nil
  · exact fun y hy => absurd hy List.not_mem_nil

/-- Looking up a key finds its list, and the first of its values. -/
theorem find (h : MultimapHolds hashFn m vals self) (k : MapKey) :
    (vals k = [] ∧ self.listHead (mapFindHash self.map (hashFn self.map.seed k.bytes) k) = none) ∨
    vals k ≠ [] ∧ ∃ mmiter,
      self.listHead (mapFindHash self.map (hashFn self.map.seed k.bytes) k) = some mmiter ∧
      self.values (self.list mmiter.miter) = vals k ∧ mmiter.Points self k 0 := by
  rw [h.rep.find k]
  cases hmk : m k with
  | none => exact .inl ⟨(h.eq_nil_iff k).mpr hmk, rfl⟩
  | some e =>
    obtain ⟨miter, list⟩ := e
    obtain ⟨hm, hkey, rfl⟩ := h.rep.list_eq hmk
    obtain ⟨p, l, hl⟩ := List.exists_cons_of_ne_nil (h.inv.nonempty miter hm)
    have hseq : self.lists.seq (self.list miter) = p :: l := hl
    refine .inr ⟨h.vals_ne_nil hmk, ⟨miter, some p⟩, ?_, ?_, hm, hkey, by simp, ?_⟩
    · simp [CcMultimap.listHead, hseq]
    · rw [h.stored k, hmk]
      rfl
    · show (self.lists.seq (self.list miter))[0]? = some p
      rw [hseq]
      rfl

variable [DecidableEq L]

theorem put (h : MultimapHolds hashFn m vals self) {key : MapKey} {miter : IterPtr} {list : L}
    (he : m key = some (miter, list)) {a b : List IterPtr} (hl : self.lists.seq list = a ++ b)
    {iter : IterPtr} (hi : ∀ list ∈ self.live, iter ∉ self.lists.seq list) (val : V) :
    vals key = a.map self.lists.data ++ b.map self.lists.data ∧
      MultimapHolds hashFn m
        (Function.update vals key (a.map self.lists.data ++ val :: b.map self.lists.data))
        (self.put list a iter b val) := by
  obtain ⟨hm, -, rfl⟩ := h.rep.list_eq he
  have hlive := h.mem_live he
  have hold : vals key = a.map self.lists.data ++ b.map self.lists.data := by
    rw [h.stored key, he, ← List.map_append, ← hl]
    rfl
  refine ⟨hold, h.inv.put hm hl (hi _ hlive) val, h.rep, fun k => ?_⟩
  by_cases hk : k = key
  · subst hk
    rw [Function.update_self, he]
    exact (put_values_self hl (hi _ hlive)).symm
  · rw [Function.update_of_ne hk, h.stored k]
    cases hk' : m k with
    | none => rfl
    | some e => exact (put_values_of_ne (h.list_ne he hk' hk) (hi _ (h.mem_live hk'))).symm

theorem putList (h : MultimapHolds hashFn m vals self) {key : MapKey} (hn : m key = none)
    {miter : IterPtr} (hm : miter ∉ self.map.seq) {list : L} (hl : list ∉ self.live)
    {map : CcMap L} (hr : MapRep hashFn (Function.update m key (some (miter, list))) map)
    {iter : IterPtr} (hi : ∀ list ∈ self.live, iter ∉ self.lists.seq list) (val : V) :
    MultimapHolds hashFn (Function.update m key (some (miter, list)))
      (Function.update vals key [val]) (self.putList map list iter val) := by
  refine ⟨h.inv.putList h.rep hr hn hm hl iter val, hr, fun k => ?_⟩
  by_cases hk : k = key
  · subst hk
    rw [Function.update_self, Function.update_self]
    exact (putList_values_self self map list iter val).symm
  · rw [Function.update_of_ne hk, Function.update_of_ne hk, h.stored k]
    cases hk' : m k with
    | none => rfl
    | some e =>
      have hlive := h.mem_live hk'
      exact (putList_values_of_ne (ne_of_mem_of_not_mem hlive hl) (hi _ hlive)).symm

theorem remove (h : MultimapHolds hashFn m vals self) {mmiter : MultimapIter} {key : MapKey}
    {i : Nat} (hp : mmiter.Points self key i) :
    ∃ m', MultimapHolds hashFn m' (Function.update vals key ((vals key).eraseIdx i))
      (multimapRemove self mmiter).2.2 ∧
      (multimapRemove self mmiter).2.2.compare = self.compare := by
  obtain ⟨x, hx, rfl, hkey, hi⟩ := hp.position
  have hm := (mem_positions.mp hx).1
  have he : m key = some (x.1, self.list x.1) := (h.rep.entries _ _ _).mpr ⟨hm, hkey, rfl⟩
  have hlist : ∀ k miter list, k ≠ key → m k = some (miter, list) →
      miter ≠ x.1 ∧ list ≠ self.list x.1 := by
    intro k miter list hk hmk
    refine ⟨fun hc => hk ?_, h.list_ne he hmk hk⟩
    rw [← (h.rep.list_eq hmk).2.1, ← hkey, hc]
  have herase : (self.items x.1).erase x.2 = (self.items x.1).eraseIdx i := by
    obtain ⟨hlt, hget⟩ := List.getElem?_eq_some_iff.mp hi
    rw [← hget]
    exact (h.inv.nodup x.1 hm).erase_getElem i hlt
  have hstored : (vals key).eraseIdx i = ((self.items x.1).erase x.2).map self.lists.data := by
    rw [herase, h.stored key, he, ← List.eraseIdx_map]
    rfl
  rw [multimapRemove_eq h.inv hx]
  show ∃ m', MultimapHolds hashFn m' _ (self.drop x) ∧ (self.drop x).compare = self.compare
  unfold CcMultimap.drop
  split_ifs with hnil
  · -- the last value of its key: the key goes too
    refine ⟨_, ⟨h.inv.dropList hm, dropList_rep h.rep hm, fun k => ?_⟩, rfl⟩
    by_cases hk : k = key
    · subst hk
      have hgone : (some (x.1, self.list x.1)).filter (fun e => decide (e.1 ≠ x.1)) = none := by
        simp [Option.filter]
      rw [Function.update_self, hstored, hnil, he, hgone]
      rfl
    · rw [Function.update_of_ne hk, h.stored k]
      cases hmk : m k with
      | none => rfl
      | some e =>
        obtain ⟨hmiter, hl⟩ := hlist k e.1 e.2 hk hmk
        have hfilter : (some e).filter (fun e => decide (e.1 ≠ x.1)) = some e := by
          simp [Option.filter, hmiter]
        rw [hfilter]
        exact (dropList_values_of_ne hl).symm
  · refine ⟨m, ⟨h.inv.dropItem hm hnil, h.rep, fun k => ?_⟩, rfl⟩
    by_cases hk : k = key
    · subst hk
      rw [Function.update_self, hstored, he]
      exact (dropItem_values_self self x.1 x.2).symm
    · rw [Function.update_of_ne hk, h.stored k]
      cases hmk : m k with
      | none => rfl
      | some e => exact (dropItem_values_of_ne (hlist k e.1 e.2 hk hmk).2 x.2).symm

theorem discard (h : MultimapHolds hashFn m vals self) :
    ∃ m', MultimapHolds hashFn m' (fun _ => []) (multimapDiscard self) ∧
      (multimapDiscard self).compare = self.compare := by
  obtain ⟨self', m', he, hinv, hrep, hnil, hcmp⟩ := multimapDiscardLoop_spec h.inv h.rep rfl
  have hnone : ∀ key, m' key = none := by
    intro key
    apply (hrep.absent_iff key).mpr
    intro y hy
    rw [hnil] at hy
    exact absurd hy List.not_mem_nil
  rw [multimapDiscard, he]
  refine ⟨m', ⟨hinv, hrep, fun key => ?_⟩, hcmp⟩
  rw [hnone key]
  rfl

end MultimapHolds

end

end LibCC
