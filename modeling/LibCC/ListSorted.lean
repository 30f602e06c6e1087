import LibCC.ListRefinement
import LibCC.SortedSearch

/-! cc_list_insertSorted inserts where the first larger element is, and a call that adds an
element to a list either adds it or, when the allocator fails, leaves the lists as they are. -/

namespace LibCC

open DoublyLinked SequenceFamily

variable {ι α : Type} [DecidableEq ι] {flags : Nat} {σ : ListSeqs ι α} {st : ListStore ι α}

omit [DecidableEq ι] in
theorem listInsertSortedLoop_eq (compare : α → α → Int) (d : α) {n : Nat} {o : Option IterPtr}
    {l : List IterPtr} (hf : Follows st.next o l) (hn : l.length ≤ n)
    (hd : ∀ p ∈ l, st.data p = some (σ.data p)) :
    listInsertSortedLoop compare d n o st =
      l.find? (fun iter => compare d (σ.data iter) < 0) := by
  induction l generalizing n o with
  | nil =>
    have he : o = none := hf
    subst he
    cases n <;> rfl
  | cons x l ih =>
    obtain ⟨rfl, hf⟩ := hf
    obtain ⟨n, rfl⟩ : ∃ m, n = m + 1 := ⟨n - 1, by simp only [List.length_cons] at hn; omega⟩
    have hrest := ih (n := n) hf (by simp only [List.length_cons] at hn; omega)
      (fun p hp => hd p (List.mem_cons_of_mem _ hp))
    by_cases hlt : compare d (σ.data x) < 0
    · simp [listInsertSortedLoop, hd x (by simp), hlt]
    · simp [listInsertSortedLoop, hd x (by simp), hlt, hrest]

theorem listInsertSorted_rep {block : Nat} (h : Rep flags σ st) (hf : FreshBlock st block)
    (self : ι) (compare : α → α → Int) (d : α) :
    ∃ new st', listInsertSorted self compare d (some block) st = (some new, st') ∧
      (∀ m, new ∉ σ.seq m) ∧ Rep flags (σ.insertSorted self compare new d) st' := by
  have hr := h.represents
  have hpos := listInsertSortedLoop_eq compare d (hr.forward self)
    (show _ ≤ (st.lists self).size.toNat by rw [hr.size self]; omega) (hr.data self)
  simp only [listInsertSorted, hpos, ListSeqs.insertSorted]
  cases hfind : (σ.seq self).find? (fun iter => compare d (σ.data iter) < 0) with
  | none => exact listAppend_rep h hf self (by simp) d
  | some iter =>
    refine listInsert_rep h hf self (fun p hp => ?_) d
    obtain rfl := Option.some.inj hp
    exact List.mem_of_find?_eq_some hfind

/-- The new element goes between those that are not larger, up to the first larger one. -/
theorem ListSeqs.insertSorted_split (σ : ListSeqs ι α) (list : ι) (compare : α → α → Int)
    (new : IterPtr) (d : α) :
    ∃ a b, σ.seq list = a ++ b ∧
      σ.insertSorted list compare new d = (σ.setSeq list (a ++ new :: b)).setData new d ∧
      (∀ p ∈ a, ¬ compare d (σ.data p) < 0) ∧ ∀ p, b.head? = some p → compare d (σ.data p) < 0 := by
  unfold ListSeqs.insertSorted
  cases hfind : (σ.seq list).find? (fun iter => compare d (σ.data iter) < 0) with
  | none =>
    refine ⟨σ.seq list, [], (List.append_nil _).symm, ?_, fun p hp => ?_, by simp⟩
    · simp only [ListSeqs.append, insertAfter_none]
    · simpa using List.find?_eq_none.mp hfind p hp
  | some t =>
    obtain ⟨a, b, hl, ht, ha⟩ := SortedSearch.find?_split hfind
    have hlt : compare d (σ.data t) < 0 := by simpa using ht
    have hge : ∀ p ∈ a, ¬ compare d (σ.data p) < 0 := fun p hp => by simpa using ha p hp
    refine ⟨a, t :: b, hl, ?_, hge, fun p hp => ?_⟩
    · simp only [ListSeqs.insert, hl, insertBefore_split new (fun hm => hge t hm hlt)]
    · obtain rfl := Option.some.inj hp
      exact hlt

end LibCC
