import LibCC.MemoryDebugModel
import LibCC.SizeLedger

/-! What cc_meminfo_add and cc_meminfo_rem do to the tracked pointers, and that the allocator
entries follow. -/

namespace LibCC

variable {info : Meminfo} {name : List Char} {ptr size : UInt64}

/-- The pinfo of a tracked pointer is known to its allocator entry and to no other. -/
theorem Meminfo.mem_tracked {n : List Char} :
    ptr ∈ info.tracked n ↔ ptr ∈ info.mapPinfo.keys ∧ (info.mapPinfo.val ptr).atorRef = n := by
  simp [Meminfo.tracked]

section Add

variable {ator : Ator}

theorem tracked_put (hp : ptr ∉ info.mapPinfo.keys) (n : List Char) :
    (Meminfo.mk (info.mapAtor.put name ator) (info.mapPinfo.put ptr ⟨name, ptr, size⟩)).tracked n =
      if n = name then insert ptr (info.tracked n) else info.tracked n := by
  ext p
  have hval : p ∈ info.mapPinfo.keys → Function.update info.mapPinfo.val ptr ⟨name, ptr, size⟩ p =
      info.mapPinfo.val p := fun hm => Function.update_of_ne (ne_of_mem_of_not_mem hm hp) _ _
  simp only [Meminfo.mem_tracked, FiniteTable.put_keys, FiniteTable.put_val, Finset.mem_insert]
  by_cases he : p = ptr
  · subst he
    by_cases hn : n = name
    · simp [hn]
    · simp [hn, Ne.symm hn, Meminfo.mem_tracked, hp]
  · by_cases hn : n = name
    · simp [hn, he, Meminfo.mem_tracked]
    · simp [hn, he, Meminfo.mem_tracked]

theorem MeminfoInv.put (h : MeminfoInv info) (size : UInt64) (hn : name ∈ info.mapAtor.keys)
    (hp : ptr ∉ info.mapPinfo.keys) :
    ∃ ator, atorAdd (info.mapAtor.val name) ⟨name, ptr, size⟩ = some ator ∧
      MeminfoInv ⟨info.mapAtor.put name ator, info.mapPinfo.put ptr ⟨name, ptr, size⟩⟩ := by
  have hnew : ∀ n, ptr ∉ info.tracked n := fun n hm => hp (Meminfo.mem_tracked.mp hm).1
  have hkeys := h.keys name hn
  refine ⟨_, if_neg (by rw [hkeys]; exact hnew name), ?_⟩
  have hold : ∀ p ∈ info.mapPinfo.keys, p ≠ ptr := fun p hm => ne_of_mem_of_not_mem hm hp
  have hin : insert name info.mapAtor.keys = info.mapAtor.keys := Finset.insert_eq_of_mem hn
  refine ⟨?_, ?_, ?_, ?_, ?_⟩
  · intro p hm
    rcases Finset.mem_insert.mp hm with rfl | hm
    · simp
    · simpa [hold p hm] using h.ptr p hm
  · intro p hm
    simp only [FiniteTable.put_keys, FiniteTable.put_val, hin]
    rcases Finset.mem_insert.mp hm with rfl | hm
    · simpa using hn
    · simpa [hold p hm] using h.named p hm
  · intro n hm
    rw [FiniteTable.put_keys, hin] at hm
    rw [tracked_put hp]
    by_cases he : n = name
    · subst he
      simp [hkeys]
    · simpa [he] using h.keys n hm
  · intro n hm p hpn
    rw [FiniteTable.put_keys, hin] at hm
    rw [tracked_put hp] at hpn
    by_cases he : n = name
    · subst he
      rw [if_pos rfl] at hpn
      rcases Finset.mem_insert.mp hpn with rfl | hpn
      · simp
      · have hne : p ≠ ptr := hold p (Meminfo.mem_tracked.mp hpn).1
        simpa [hne] using h.vals n hm p hpn
    · rw [if_neg he] at hpn
      have hne : p ≠ ptr := hold p (Meminfo.mem_tracked.mp hpn).1
      simpa [he, hne] using h.vals n hm p hpn
  · intro n hm
    rw [FiniteTable.put_keys, hin] at hm
    have hsame : ∑ p ∈ info.tracked n, (Function.update info.mapPinfo.val ptr
        ⟨name, ptr, size⟩ p).size.toNat =
        ∑ p ∈ info.tracked n, (info.mapPinfo.val p).size.toNat := by
      apply Finset.sum_congr rfl
      intro p hpn
      rw [Function.update_of_ne (hold p (Meminfo.mem_tracked.mp hpn).1)]
    rw [tracked_put hp]
    by_cases he : n = name
    · subst he
      simp only [if_pos, FiniteTable.put_val, Function.update_self]
      refine SizeLedger.follows_add (h.size n hm) size ?_
      rw [Finset.sum_insert (hnew n), hsame, Function.update_self, Nat.add_comm]
    · simp only [if_neg he, FiniteTable.put_val, Function.update_of_ne he, hsame]
      exact h.size n hm

/-- A pointer that is not tracked yet is tracked with its size. -/
theorem meminfoAdd_spec (h : MeminfoInv info) (name : List Char) (size : UInt64)
    (hp : ptr ∉ info.mapPinfo.keys) :
    MeminfoInv (meminfoAdd info name ptr size) ∧
      (meminfoAdd info name ptr size).mapPinfo = info.mapPinfo.put ptr ⟨name, ptr, size⟩ := by
  by_cases hn : name ∈ info.mapAtor.keys
  · obtain ⟨ator, hadd, hinv⟩ := h.put size hn hp
    simp only [meminfoAdd, if_pos hn, if_neg hp, hadd]
    exact ⟨hinv, trivial⟩
  · have h1 := h.addAtor hn
    obtain ⟨ator, hadd, hinv⟩ := h1.put size
      (Finset.mem_insert_self name info.mapAtor.keys) hp
    simp only [meminfoAdd, if_neg hn, if_neg hp, hadd]
    exact ⟨hinv, trivial⟩

end Add

theorem tracked_remove {ator : Ator} (n : List Char) :
    (Meminfo.mk (info.mapAtor.put name ator) (info.mapPinfo.remove ptr)).tracked n =
      (info.tracked n).erase ptr := by
  ext p
  simp only [Meminfo.mem_tracked, FiniteTable.remove_keys, FiniteTable.remove_val,
    Finset.mem_erase, and_assoc]

theorem meminfoRem_spec (h : MeminfoInv info) (hp : ptr ∈ info.mapPinfo.keys) :
    MeminfoInv (meminfoRem info ptr) ∧
      (meminfoRem info ptr).mapPinfo = info.mapPinfo.remove ptr := by
  obtain ⟨n, href⟩ : ∃ n, (info.mapPinfo.val ptr).atorRef = n := ⟨_, rfl⟩
  have hn : n ∈ info.mapAtor.keys := href ▸ h.named ptr hp
  have htracked : ptr ∈ info.tracked n := Meminfo.mem_tracked.mpr ⟨hp, href⟩
  have hkeys := h.keys n hn
  have hin : insert n info.mapAtor.keys = info.mapAtor.keys := Finset.insert_eq_of_mem hn
  have hrem : atorRem (info.mapAtor.val n) (info.mapPinfo.val ptr) =
      ⟨(info.mapAtor.val n).mapPinfoRef.remove ptr,
        (info.mapAtor.val n).size - (info.mapPinfo.val ptr).size⟩ := by
    rw [atorRem, h.ptr ptr hp, if_pos (by rw [hkeys]; exact htracked)]
  simp only [meminfoRem, if_pos hp, href, hrem]
  refine ⟨⟨?_, ?_, ?_, ?_, ?_⟩, trivial⟩
  · exact fun p hm => h.ptr p (Finset.mem_of_mem_erase hm)
  · intro p hm
    simp only [FiniteTable.put_keys, hin]
    exact h.named p (Finset.mem_of_mem_erase hm)
  · intro m hm
    rw [FiniteTable.put_keys, hin] at hm
    rw [tracked_remove]
    by_cases he : m = n
    · subst he
      simp [hkeys]
    · have hnot : ptr ∉ info.tracked m := by
        intro hm'
        exact he ((Meminfo.mem_tracked.mp hm').2.symm.trans href)
      rw [Finset.erase_eq_of_notMem hnot]
      simpa [he] using h.keys m hm
  · intro m hm p hpm
    rw [FiniteTable.put_keys, hin] at hm
    rw [tracked_remove] at hpm
    have hpm' := Finset.mem_of_mem_erase hpm
    by_cases he : m = n
    · subst he
      simpa using h.vals m hm p hpm'
    · simpa [he] using h.vals m hm p hpm'
  · intro m hm
    rw [FiniteTable.put_keys, hin] at hm
    rw [tracked_remove]
    by_cases he : m = n
    · subst he
      simp only [FiniteTable.put_val, Function.update_self, FiniteTable.remove_val]
      exact SizeLedger.follows_sub (h.size m hm) _ (Finset.sum_erase_add _ _ htracked)
    · have hnot : ptr ∉ info.tracked m := by
        intro hm'
        exact he ((Meminfo.mem_tracked.mp hm').2.symm.trans href)
      rw [Finset.erase_eq_of_notMem hnot]
      simpa [he] using h.size m hm

/-- Together the allocator entries have the sizes of all tracked pointers. -/
theorem MeminfoInv.sum_ators (h : MeminfoInv info) :
    ∑ n ∈ info.mapAtor.keys, ∑ p ∈ info.tracked n, (info.mapPinfo.val p).size.toNat =
      info.mapPinfo.sum fun pinfo => pinfo.size.toNat :=
  Finset.sum_fiberwise_of_maps_to h.named _

end LibCC
