import LibCC.ListRuns
import LibCC.ListSorted
import LibCC.StableOrder

/-! Lists that are only changed by cc_list_insertSorted and cc_list_remove: a stable order, in
which the early exit of cc_list_findSorted misses nothing. -/

namespace LibCC

open DoublyLinked SequenceFamily StableOrder

variable {ι α : Type}

section Find

variable {σ : ListSeqs ι α} {st : ListStore ι α}

theorem listFindLoop_eq (compare : α → α → Int) (d : α) {n : Nat} {o : Option IterPtr}
    {l : List IterPtr} (hf : Follows st.next o l) (hn : l.length ≤ n)
    (hd : ∀ p ∈ l, st.data p = some (σ.data p)) :
    listFindLoop compare d n o st = l.find? (fun iter => compare (σ.data iter) d = 0) := by
  induction l generalizing n o with
  | nil =>
    have he : o = none := hf
    subst he
    cases n <;> rfl
  | cons x l ih =>
    obtain ⟨rfl, hf⟩ := hf
    obtain ⟨n, rfl⟩ : ∃ m, n = m + 1 := ⟨n - 1, by simp only [List.length_cons] at hn; omega⟩
    have hrest := ih (n := n) hf (by simp only [List.length_cons] at hn; omega)
      (fun p hp => hd p (List.mem_cons_of_mem _ hp))
    by_cases heq : compare (σ.data x) d = 0
    · simp [listFindLoop, hd x (by simp), heq]
    · simp [listFindLoop, hd x (by simp), heq, hrest]

theorem listFindSortedLoop_eq {compare : α → α → Int} (hc : TotalPreorder compare) (d : α)
    {n : Nat} {o : Option IterPtr} {l : List IterPtr} (hf : Follows st.next o l)
    (hn : l.length ≤ n) (hd : ∀ p ∈ l, st.data p = some (σ.data p))
    (hs : Sorted compare (l.map σ.data)) :
    listFindSortedLoop compare d n o st = l.find? (fun iter => compare (σ.data iter) d = 0) := by
  induction l generalizing n o with
  | nil =>
    have he : o = none := hf
    subst he
    cases n <;> rfl
  | cons x l ih =>
    obtain ⟨rfl, hf⟩ := hf
    obtain ⟨n, rfl⟩ : ∃ m, n = m + 1 := ⟨n - 1, by simp only [List.length_cons] at hn; omega⟩
    have hrest := ih (n := n) hf (by simp only [List.length_cons] at hn; omega)
      (fun p hp => hd p (List.mem_cons_of_mem _ hp)) (List.pairwise_cons.mp hs).2
    have hzero := hc.zero_iff d (σ.data x)
    by_cases heq : compare (σ.data x) d = 0
    · simp [listFindSortedLoop, hd x (by simp), heq, hzero.mpr heq]
    · have hne : compare d (σ.data x) ≠ 0 := fun h => heq (hzero.mp h)
      by_cases hlt : compare d (σ.data x) < 0
      · -- everything from here on is larger than `d`
        have hnone : (x :: l).find? (fun iter => compare (σ.data iter) d = 0) = none := by
          apply List.find?_eq_none.mpr
          intro y hy
          have hly := hs.lt_of_lt hc hlt (σ.data y) (List.mem_map_of_mem hy)
          have hzy := hc.zero_iff d (σ.data y)
          simp only [decide_eq_true_eq]
          omega
        rw [hnone]
        simp [listFindSortedLoop, hd x (by simp), hne, hlt]
      · simp [listFindSortedLoop, hd x (by simp), heq, hne, hlt, hrest]

theorem Represents.listFind_eq (h : Represents σ st) (self : ι) (compare : α → α → Int) (d : α) :
    listFind self d compare st =
      (σ.seq self).find? (fun iter => compare (σ.data iter) d = 0) :=
  listFindLoop_eq compare d (h.forward self)
    (show _ ≤ (st.lists self).size.toNat by rw [h.size self]; omega) (h.data self)

theorem Represents.listFindSorted_eq (h : Represents σ st) (self : ι) {compare : α → α → Int}
    (hc : TotalPreorder compare) (hs : Sorted compare ((σ.seq self).map σ.data)) (d : α) :
    listFindSorted self d compare st =
      (σ.seq self).find? (fun iter => compare (σ.data iter) d = 0) :=
  listFindSortedLoop_eq hc d (h.forward self)
    (show _ ≤ (st.lists self).size.toNat by rw [h.size self]; omega) (h.data self) hs

end Find

/-- The items that have been inserted and not yet removed, by the iter that cc_list_insertSorted
returned, each with the number of insertions before its own. -/
abbrev SortedItems (α : Type) := IterPtr → Option (Nat × α)

def SortedItems.stamp (items : SortedItems α) (iter : IterPtr) : Nat :=
  ((items iter).map Prod.fst).getD 0

variable [DecidableEq ι]

/-- The sequences of cc_list_insertSorted and cc_list_remove on a list that is empty at first,
after `n` insertions. -/
inductive SortedReach (flags : Nat) (self : ι) (compare : α → α → Int) :
    SortedItems α → Nat → ListStore ι α → Prop
  | new {σ : ListSeqs ι α} {st : ListStore ι α} :
      ListReach flags σ st → σ.seq self = [] → SortedReach flags self compare (fun _ => none) 0 st
  | insertSorted {items : SortedItems α} {n block : Nat} {st st' : ListStore ι α} {iter : IterPtr}
      (data : α) : SortedReach flags self compare items n st → FreshBlock st block →
      listInsertSorted self compare data (some block) st = (some iter, st') →
      SortedReach flags self compare (Function.update items iter (some (n, data))) (n + 1) st'
  | remove {items : SortedItems α} {n : Nat} {st : ListStore ι α} {iter : IterPtr} :
      SortedReach flags self compare items n st → items iter ≠ none →
      SortedReach flags self compare (Function.update items iter none) n
        (listRemove self iter st).2.2

/-- The list holds the items, in stable order. -/
structure SortedInv (flags : Nat) (list : ι) (compare : α → α → Int) (items : SortedItems α)
    (n : Nat) (σ : ListSeqs ι α) (st : ListStore ι α) : Prop where
  rep : Rep flags σ st
  mem : ∀ iter, iter ∈ σ.seq list ↔ items iter ≠ none
  data : ∀ iter k d, items iter = some (k, d) → σ.data iter = d ∧ k < n
  stable : Stable (fun a b => compare (σ.data a) (σ.data b)) items.stamp (σ.seq list)

section Runs

variable {flags n block : Nat} {self : ι} {compare : α → α → Int} {items : SortedItems α}
  {σ : ListSeqs ι α} {st st' : ListStore ι α} {iter : IterPtr}

omit [DecidableEq ι] in
theorem SortedInv.stamp_lt (h : SortedInv flags self compare items n σ st)
    (hm : iter ∈ σ.seq self) : items.stamp iter < n := by
  obtain ⟨⟨k, d⟩, he⟩ := Option.ne_none_iff_exists'.mp ((h.mem iter).mp hm)
  have hlt := (h.data iter k d he).2
  simpa [SortedItems.stamp, he] using hlt

/-- Where the loop inserts is the stable place of the new item. -/
theorem ListSeqs.insertSorted_place {compare : α → α → Int} (hc : TotalPreorder compare)
    {new : IterPtr} {d : α} (hnew : new ∉ σ.seq self)
    (hs : Sorted (fun a b => compare (σ.data a) (σ.data b)) (σ.seq self)) :
    (σ.insertSorted self compare new d).seq self =
        place (fun a b => compare ((σ.setData new d).data a) ((σ.setData new d).data b)) new
          (σ.seq self) ∧
      (σ.insertSorted self compare new d).data = (σ.setData new d).data := by
  obtain ⟨a, b, hl, he, ha, hb⟩ := σ.insertSorted_split self compare new d
  have hother : ∀ p ∈ σ.seq self, (σ.setData new d).data p = σ.data p :=
    fun p hp => Function.update_of_ne (ne_of_mem_of_not_mem hp hnew) _ _
  have hself : (σ.setData new d).data new = d := Function.update_self ..
  refine ⟨?_, by rw [he]; rfl⟩
  have hseq : (σ.insertSorted self compare new d).seq self = a ++ new :: b := by
    rw [he]
    simp
  rw [hseq, hl]
  have hc' := hc.comap (σ.setData new d).data
  have hs' : Sorted (fun a b => compare ((σ.setData new d).data a) ((σ.setData new d).data b))
      (σ.seq self) := by
    refine List.Pairwise.imp_of_mem (fun {x y} hx hy hle => ?_) hs
    show compare ((σ.setData new d).data x) ((σ.setData new d).data y) ≤ 0
    rw [hother x hx, hother y hy]
    exact hle
  have hge : ∀ p ∈ a, ¬ compare ((σ.setData new d).data new) ((σ.setData new d).data p) < 0 := by
    intro p hp
    rw [hself, hother p (hl ▸ List.mem_append_left _ hp)]
    exact ha p hp
  cases b with
  | nil =>
    rw [List.append_nil]
    exact (place_last hc' hge).symm
  | cons t b =>
    refine (place_split hc' (hl ▸ hs') hge ?_).symm
    show compare ((σ.setData new d).data new) ((σ.setData new d).data t) < 0
    rw [hself, hother t (by simp [hl])]
    exact hb t rfl

theorem SortedInv.insertSorted (hc : TotalPreorder compare)
    (h : SortedInv flags self compare items n σ st) (hf : FreshBlock st block) {d : α}
    (he : listInsertSorted self compare d (some block) st = (some iter, st')) :
    SortedInv flags self compare (Function.update items iter (some (n, d))) (n + 1)
      (σ.insertSorted self compare iter d) st' := by
  obtain ⟨new, st₁, he₁, hnew, hrep⟩ := listInsertSorted_rep h.rep hf self compare d
  obtain ⟨rfl, rfl⟩ : new = iter ∧ st₁ = st' := by simpa using he₁.symm.trans he
  have hn := hnew self
  obtain ⟨hseq, hdata⟩ := ListSeqs.insertSorted_place (d := d) hc hn h.stable.sorted
  have hne : ∀ p ∈ σ.seq self, p ≠ new := fun p hp => ne_of_mem_of_not_mem hp hn
  refine ⟨hrep, fun p => ?_, fun p k e hp => ?_, ?_⟩
  · rw [hseq, mem_place, h.mem]
    by_cases hp : p = new
    · simp [hp]
    · simp [hp]
  · rw [hdata]
    by_cases hpn : p = new
    · subst hpn
      obtain ⟨rfl, rfl⟩ : n = k ∧ d = e := by simpa using hp
      exact ⟨Function.update_self .., by omega⟩
    · rw [Function.update_of_ne hpn] at hp
      obtain ⟨hd, hk⟩ := h.data p k e hp
      exact ⟨(Function.update_of_ne hpn ..).trans hd, by omega⟩
  · rw [hseq, hdata]
    apply Stable.place (hc.comap (σ.setData new d).data)
    · refine h.stable.congr (fun a ha b hb => ?_) (fun a ha => ?_)
      · simp [hne a ha, hne b hb]
      · simp [SortedItems.stamp, hne a ha]
    · intro p hp
      have hlt := h.stamp_lt hp
      simpa [SortedItems.stamp, hne p hp] using hlt

theorem SortedInv.remove (h : SortedInv flags self compare items n σ st)
    (hm : items iter ≠ none) :
    SortedInv flags self compare (Function.update items iter none) n (σ.remove self iter)
      (listRemove self iter st).2.2 := by
  have hx := (h.mem iter).mpr hm
  obtain ⟨e, hat⟩ := h.rep.at
  obtain ⟨st₁, he, hrep⟩ := listRemove_rep hat hx
  have hnd : (σ.seq self).Nodup := h.rep.represents.separated.1 self
  have hseq : (σ.remove self iter).seq self = (σ.seq self).erase iter := by
    simp [ListSeqs.remove]
  rw [he]
  refine ⟨hrep.rep, fun p => ?_, fun p k d hp => ?_, ?_⟩
  · rw [hseq, hnd.mem_erase_iff, h.mem]
    by_cases hp : p = iter
    · simp [hp]
    · simp [hp]
  · by_cases hpi : p = iter
    · simp [hpi] at hp
    · rw [Function.update_of_ne hpi] at hp
      exact h.data p k d hp
  · rw [hseq]
    refine (h.stable.sublist List.erase_sublist).congr (fun _ _ _ _ => rfl) (fun a ha => ?_)
    have hne := (hnd.mem_erase_iff.mp ha).1
    simp [SortedItems.stamp, hne]

theorem SortedReach.inv (hc : TotalPreorder compare)
    (h : SortedReach flags self compare items n st) :
    ∃ σ, SortedInv flags self compare items n σ st := by
  induction h with
  | new hr he =>
    refine ⟨_, hr.rep, fun iter => by simp [he], fun iter k d hp => by simp at hp, ?_⟩
    rw [he]
    exact List.Pairwise.nil
  | insertSorted d _ hf he ih =>
    obtain ⟨σ, h⟩ := ih
    exact ⟨_, h.insertSorted hc hf he⟩
  | remove _ hm ih =>
    obtain ⟨σ, h⟩ := ih
    exact ⟨_, h.remove hm⟩

/-- What a reader of the list finds: the items in order, equal ones as they were inserted, and no
difference between the two searches. -/
structure SortedList (compare : α → α → Int) (items : SortedItems α) (list : ι)
    (st : ListStore ι α) (l : List IterPtr) : Prop where
  forward : Follows st.next (st.lists list).head l
  backward : Follows st.prev (st.lists list).tail l.reverse
  size : (st.lists list).size = l.length
  nodup : l.Nodup
  mem : ∀ iter, iter ∈ l ↔ items iter ≠ none
  data : ∀ iter k d, items iter = some (k, d) → st.data iter = some d
  ordered : l.Pairwise fun a b => ∀ j c k d, items a = some (j, c) → items b = some (k, d) →
    compare c d ≤ 0 ∧ (compare c d = 0 → j < k)
  found : ∀ key, listFind list key compare st =
    l.find? fun iter => (st.data iter).any fun d => compare d key = 0
  findSorted : ∀ key, listFindSorted list key compare st = listFind list key compare st

/-- For every total preorder and every history the list is stably sorted, and cc_list_findSorted
returns what cc_list_find returns. -/
theorem insertSorted_stable (hc : TotalPreorder compare)
    (h : SortedReach flags self compare items n st) :
    ∃ l, SortedList compare items self st l := by
  obtain ⟨σ, h⟩ := h.inv hc
  have hr := h.rep.represents
  have hsorted : Sorted compare ((σ.seq self).map σ.data) := List.pairwise_map.mpr h.stable.sorted
  have hfind := hr.listFind_eq self compare
  refine ⟨σ.seq self, hr.forward self, hr.backward self, hr.size self, hr.separated.1 self, h.mem,
    fun iter k d hi => ?_, ?_, fun key => ?_, fun key => ?_⟩
  · have hm : iter ∈ σ.seq self := (h.mem iter).mpr (by simp [hi])
    rw [hr.data self iter hm, (h.data iter k d hi).1]
  · refine h.stable.imp (fun {a b} hab => ?_)
    intro j c k d ha hb
    have hda := (h.data a j c ha).1
    have hdb := (h.data b k d hb).1
    simp only [SortedItems.stamp, ha, hb, hda, hdb, Option.map_some, Option.getD_some] at hab
    omega
  · rw [hfind key]
    apply SortedSearch.find?_congr
    intro iter hm
    simp [hr.data self iter hm]
  · rw [hfind key, hr.listFindSorted_eq self hc hsorted key]

/-- Two equal keys in a list that uses calloc. -/
theorem insertSorted_stable_two :
    ∃ st : ListStore Unit (Nat × Nat), ∃ l,
      SortedList (fun a b => (a.1 : Int) - b.1) (Function.update (Function.update (fun _ => none)
        ⟨5, 0⟩ (some (0, (7, 1)))) ⟨6, 0⟩ (some (1, (7, 2)))) () st l := by
  have hc : TotalPreorder fun a b : Nat × Nat => (a.1 : Int) - b.1 := by
    constructor
    · intro a b
      omega
    · intro a b c hab hbc
      omega
  have h0 : SortedReach listFlagCMalloc () (fun a b : Nat × Nat => (a.1 : Int) - b.1)
      (fun _ => none) 0 (ListStore.new listFlagCMalloc) := .new (.new fun _ => (0, 0)) rfl
  have h1 := h0.insertSorted (7, 1)
    (show FreshBlock _ 5 from ⟨List.not_mem_nil, List.not_mem_nil⟩) rfl
  have h2 := h1.insertSorted (7, 2)
    (show FreshBlock _ 6 from ⟨by decide, List.not_mem_nil⟩) rfl
  exact ⟨_, insertSorted_stable hc h2⟩

end Runs

end LibCC
