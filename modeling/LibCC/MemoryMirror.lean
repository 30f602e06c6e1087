import LibCC.MemoryDebugSystem

/-! The tracker mirrors the heap: what is tracked is what is live and not in the hands of a call. -/

namespace LibCC

variable {τ : Type}

/-- How a debug call and the cc_memory call inside it go together. -/
def DebugPc.Agrees (live : SizeLedger UInt64) : DebugPc → MemoryPc → Prop
  | idle, pc => pc = .idle
  | mallocing _ mem size, pc => pc = .allocated mem size.toNat
  | adding _ ptr size, pc => pc = .idle ∧ (ptr ≠ 0 →
      ptr - memorySizeof ∈ live.blocks ∧ size.toNat = live.size (ptr - memorySizeof))
  | reallocating _ ptr size, pc => pc = .idle ∧ size.toNat + 8 < 2 ^ 64 ∧
      (ptr ≠ 0 → ptr - memorySizeof ∈ live.blocks)
  | resizing _ mem size, pc => ∃ size1, pc = .resized mem size1 size.toNat
  | releasing ptr, pc => pc = .idle ∧ (ptr ≠ 0 → ptr - memorySizeof ∈ live.blocks)
  | freeing, pc => ∃ mem, pc = .released mem

/-- Another thread has the pointer away from the tracker. -/
def DebugSys.OtherHolds (s : DebugSys τ) (t : τ) (ptr : UInt64) : Prop :=
  ∃ t', t' ≠ t ∧ (s.pc t').untracked = some ptr

structure DebugInv (s : DebugSys τ) : Prop where
  base : MemoryInv s.base
  info : MeminfoInv s.meminfo
  agrees : ∀ t, (s.pc t).Agrees s.base.live (s.base.pc t)
  apart : ∀ t ptr, (s.pc t).untracked = some ptr → ¬ s.OtherHolds t ptr
  tracked : ∀ ptr, ptr ∈ s.meminfo.mapPinfo.keys ↔
    ptr - memorySizeof ∈ s.base.live.blocks ∧ ∀ t, (s.pc t).untracked ≠ some ptr
  size : ∀ ptr ∈ s.meminfo.mapPinfo.keys,
    (s.meminfo.mapPinfo.val ptr).size.toNat = s.base.live.size (ptr - memorySizeof)

section

variable {s : DebugSys τ} {t : τ} {ptr : UInt64}

theorem untracked_iff : (∀ t', (s.pc t').untracked ≠ some ptr) ↔
    (s.pc t).untracked ≠ some ptr ∧ ¬ s.OtherHolds t ptr := by
  constructor
  · intro h
    exact ⟨h t, fun ⟨t', _, ht'⟩ => h t' ht'⟩
  · rintro ⟨h, ho⟩ t' ht'
    by_cases he : t' = t
    · exact h (he ▸ ht')
    · exact ho ⟨t', he, ht'⟩

theorem DebugPc.Agrees.live {live : SizeLedger UInt64} {pc : DebugPc} {bpc : MemoryPc}
    (h : pc.Agrees live bpc) (hb : ∀ mem size1 n, bpc = .resized mem size1 n → mem ∈ live.blocks)
    (hu : pc.untracked = some ptr) : ptr - memorySizeof ∈ live.blocks := by
  cases pc with
  | idle => simp [untracked] at hu
  | mallocing name mem size => simp [untracked] at hu
  | freeing => simp [untracked] at hu
  | adding name p size =>
    by_cases hp : p = 0
    · simp [untracked, hp] at hu
    · obtain rfl : p = ptr := by simpa [untracked, hp] using hu
      exact (h.2 hp).1
  | reallocating name p size =>
    by_cases hp : p = 0
    · simp [untracked, hp] at hu
    · obtain rfl : p = ptr := by simpa [untracked, hp] using hu
      exact h.2.2 hp
  | releasing p =>
    by_cases hp : p = 0
    · simp [untracked, hp] at hu
    · obtain rfl : p = ptr := by simpa [untracked, hp] using hu
      exact h.2 hp
  | resizing name mem size =>
    obtain ⟨size1, he⟩ := h
    obtain rfl : mem + memorySizeof = ptr := by simpa [untracked] using hu
    rw [UInt64.add_sub_cancel]
    exact hb mem size1 _ he

/-- A step of another thread is not seen through the blocks that a call works on. -/
theorem DebugPc.Agrees.congr {live live' : SizeLedger UInt64} {pc : DebugPc} {bpc : MemoryPc}
    (h : pc.Agrees live bpc)
    (hsame : ∀ ptr, pc.untracked = some ptr → ptr - memorySizeof ∈ live.blocks →
      ptr - memorySizeof ∈ live'.blocks ∧
        live'.size (ptr - memorySizeof) = live.size (ptr - memorySizeof)) :
    pc.Agrees live' bpc := by
  cases pc with
  | idle => exact h
  | mallocing name mem size => exact h
  | freeing => exact h
  | resizing name mem size => exact h
  | adding name p size =>
    refine ⟨h.1, fun hp => ?_⟩
    obtain ⟨hm, hs⟩ := hsame p (by simp [untracked, hp]) (h.2 hp).1
    exact ⟨hm, by rw [hs]; exact (h.2 hp).2⟩
  | reallocating name p size =>
    exact ⟨h.1, h.2.1, fun hp => (hsame p (by simp [untracked, hp]) (h.2.2 hp)).1⟩
  | releasing p =>
    exact ⟨h.1, fun hp => (hsame p (by simp [untracked, hp]) (h.2 hp)).1⟩

theorem DebugInv.held_live (h : DebugInv s) (hu : (s.pc t).untracked = some ptr) :
    ptr - memorySizeof ∈ s.base.live.blocks :=
  (h.agrees t).live (fun mem _ _ he => ((h.base.block mem).of_resized he).2.1) hu

/-- A live block whose pointer no other thread has is in no other cc_memory call. -/
theorem DebugInv.usable (h : DebugInv s) (hl : ptr - memorySizeof ∈ s.base.live.blocks)
    (ho : ¬ s.OtherHolds t ptr) (ht : s.base.pc t = .idle) :
    s.base.Usable (ptr - memorySizeof) := by
  refine ⟨hl, fun t' hb => ?_⟩
  by_cases he : t' = t
  · subst he
    simp [ht, MemoryPc.block] at hb
  · have hagrees := h.agrees t'
    cases hpc : s.base.pc t' with
    | idle => simp [hpc, MemoryPc.block] at hb
    | allocated mem n =>
      obtain rfl : mem = ptr - memorySizeof := by simpa [hpc, MemoryPc.block] using hb
      exact ((h.base.block _).of_allocated hpc).2.1 hl
    | released mem =>
      obtain rfl : mem = ptr - memorySizeof := by simpa [hpc, MemoryPc.block] using hb
      exact ((h.base.block _).of_released hpc).2 hl
    | resized mem size1 n =>
      obtain rfl : mem = ptr - memorySizeof := by simpa [hpc, MemoryPc.block] using hb
      rw [hpc] at hagrees
      cases hd : s.pc t' with
      | resizing name m size =>
        rw [hd] at hagrees
        obtain ⟨size1', he'⟩ := hagrees
        obtain rfl : ptr - memorySizeof = m := by simp at he'; exact he'.1
        refine ho ⟨t', he, ?_⟩
        rw [hd, DebugPc.untracked, UInt64.sub_add_cancel]
      | _ => simp [hd, DebugPc.Agrees] at hagrees

theorem DebugInv.tracked_iff (h : DebugInv s) (t : τ) : ptr ∈ s.meminfo.mapPinfo.keys ↔
    ptr - memorySizeof ∈ s.base.live.blocks ∧ (s.pc t).untracked ≠ some ptr ∧
      ¬ s.OtherHolds t ptr := by
  rw [h.tracked, untracked_iff]

end

section Steps

variable [DecidableEq τ] {s s' : DebugSys τ} {t : τ} {p : DebugPc}

theorem otherHolds_iff (hpc : s'.pc = Function.update s.pc t p) (ptr : UInt64) :
    s'.OtherHolds t ptr ↔ s.OtherHolds t ptr := by
  refine exists_congr fun t' => and_congr_right fun ht => ?_
  rw [hpc, Function.update_of_ne ht]

/-- What is left to show when thread `t` moves on and the others do not. -/
theorem DebugInv.advance (h : DebugInv s) (hpc : s'.pc = Function.update s.pc t p)
    (hbase : MemoryInv s'.base) (hinfo : MeminfoInv s'.meminfo)
    (hbpc : ∀ t', t' ≠ t → s'.base.pc t' = s.base.pc t')
    (hself : p.Agrees s'.base.live (s'.base.pc t))
    (hlive : ∀ ptr, s.OtherHolds t ptr → ptr - memorySizeof ∈ s.base.live.blocks →
      ptr - memorySizeof ∈ s'.base.live.blocks ∧
        s'.base.live.size (ptr - memorySizeof) = s.base.live.size (ptr - memorySizeof))
    (hheld : ∀ ptr, p.untracked = some ptr → ¬ s.OtherHolds t ptr)
    (htracked : ∀ ptr, ptr ∈ s'.meminfo.mapPinfo.keys ↔
      ptr - memorySizeof ∈ s'.base.live.blocks ∧ p.untracked ≠ some ptr ∧ ¬ s.OtherHolds t ptr)
    (hsize : ∀ ptr ∈ s'.meminfo.mapPinfo.keys,
      (s'.meminfo.mapPinfo.val ptr).size.toNat = s'.base.live.size (ptr - memorySizeof)) :
    DebugInv s' := by
  have hself_pc : s'.pc t = p := by rw [hpc, Function.update_self]
  refine ⟨hbase, hinfo, fun t' => ?_, fun t' ptr hu => ?_, fun ptr => ?_, hsize⟩
  · by_cases he : t' = t
    · subst he
      rwa [hself_pc]
    · rw [hbpc t' he, hpc, Function.update_of_ne he]
      refine (h.agrees t').congr fun ptr hu hm => hlive ptr ⟨t', he, hu⟩ hm
  · by_cases he : t' = t
    · subst he
      rw [otherHolds_iff hpc]
      exact hheld ptr (hself_pc ▸ hu)
    · rw [hpc, Function.update_of_ne he] at hu
      rintro ⟨t'', hne, hu'⟩
      by_cases he' : t'' = t
      · subst he'
        rw [hself_pc] at hu'
        exact hheld ptr hu' ⟨t', he, hu⟩
      · rw [hpc, Function.update_of_ne he'] at hu'
        exact h.apart t' ptr hu ⟨t'', hne, hu'⟩
  · rw [untracked_iff, hself_pc, otherHolds_iff hpc]
    exact htracked ptr

omit [DecidableEq τ] in
theorem MemorySys.step_pc_other [DecidableEq τ] (s : MemorySys τ) {t t' : τ} (ht : t' ≠ t)
    (move : MemoryMove) : (s.step t move).pc t' = s.pc t' := by
  cases move <;> simp only [MemorySys.step, MemorySys.allocate] <;> split <;>
    first
    | rfl
    | exact Function.update_of_ne ht _ _
    | (split <;> first | rfl | exact Function.update_of_ne ht _ _)

/-- A step that changes neither the live blocks nor the tracker. -/
theorem DebugInv.still (h : DebugInv s) (hpc : s'.pc = Function.update s.pc t p)
    (hbase : MemoryInv s'.base) (hbpc : ∀ t', t' ≠ t → s'.base.pc t' = s.base.pc t')
    (hinfo : s'.meminfo = s.meminfo) (hlive : s'.base.live = s.base.live)
    (hu : p.untracked = (s.pc t).untracked) (hself : p.Agrees s'.base.live (s'.base.pc t)) :
    DebugInv s' := by
  refine h.advance hpc hbase (hinfo ▸ h.info) hbpc hself ?_ ?_ ?_ ?_
  · intro ptr _ hm
    rw [hlive]
    exact ⟨hm, rfl⟩
  · intro ptr hp
    exact h.apart t ptr (hu ▸ hp)
  · intro ptr
    rw [hinfo, hlive, hu]
    exact h.tracked_iff t
  · rw [hinfo, hlive]
    exact h.size

theorem DebugInv.untrack (h : DebugInv s) {ptr : UInt64} (hidle : s.pc t = .idle)
    (hu : ptr ≠ 0 → s.Usable ptr) (hp : p.untracked = if ptr = 0 then none else some ptr)
    (hself : p.Agrees s.base.live (s.base.pc t)) :
    DebugInv (s.tell t (ccMemoryRem ptr s.meminfo) p) := by
  by_cases hptr : ptr = 0
  · rw [if_pos hptr] at hp
    refine h.still rfl h.base (fun _ _ => rfl) ?_ rfl ?_ hself
    · simp [DebugSys.tell, ccMemoryRem, hptr]
    · rw [hp, hidle, DebugPc.untracked]
  · rw [if_neg hptr] at hp
    obtain ⟨hl, hfree⟩ := hu hptr
    have hkey : ptr ∈ s.meminfo.mapPinfo.keys := (h.tracked ptr).mpr ⟨hl, hfree⟩
    obtain ⟨hinfo, hpinfo⟩ := meminfoRem_spec h.info hkey
    have hrem : (s.tell t (ccMemoryRem ptr s.meminfo) p).meminfo = meminfoRem s.meminfo ptr := by
      simp [DebugSys.tell, ccMemoryRem, hptr]
    refine h.advance rfl h.base (hrem ▸ hinfo) (fun _ _ => rfl) hself
      (fun _ _ hm => ⟨hm, rfl⟩) ?_ ?_ ?_
    · intro q hq ho
      obtain rfl : ptr = q := by simpa [hp] using hq
      obtain ⟨t', -, ht'⟩ := ho
      exact hfree t' ht'
    · intro q
      rw [hrem, hpinfo, FiniteTable.remove_keys, Finset.mem_erase, h.tracked_iff t, hp, hidle]
      simp only [DebugPc.untracked, Option.some.injEq, ne_eq, reduceCtorEq, not_false_eq_true]
      tauto
    · intro q hq
      rw [hrem, hpinfo] at hq ⊢
      exact h.size q (Finset.mem_of_mem_erase hq)

theorem DebugInv.track (h : DebugInv s) {name : List Char} {ptr size : UInt64}
    (hpc : s.pc t = .adding name ptr size) :
    DebugInv (s.tell t (ccMemoryAdd name ptr size s.meminfo) .idle) := by
  have hagrees := h.agrees t
  rw [hpc] at hagrees
  obtain ⟨hidle, hlive⟩ := hagrees
  by_cases hptr : ptr = 0
  · refine h.still rfl h.base (fun _ _ => rfl) ?_ rfl ?_ hidle
    · simp [DebugSys.tell, ccMemoryAdd, hptr]
    · simp [hpc, DebugPc.untracked, hptr]
  · obtain ⟨hl, hsize⟩ := hlive hptr
    have hu : (s.pc t).untracked = some ptr := by simp [hpc, DebugPc.untracked, hptr]
    have hkey : ptr ∉ s.meminfo.mapPinfo.keys := by
      intro hm
      exact ((h.tracked ptr).mp hm).2 t hu
    obtain ⟨hinfo, hpinfo⟩ := meminfoAdd_spec h.info name size hkey
    have hadd : (s.tell t (ccMemoryAdd name ptr size s.meminfo) .idle).meminfo =
        meminfoAdd s.meminfo name ptr size := by
      simp [DebugSys.tell, ccMemoryAdd, hptr]
    refine h.advance rfl h.base (hadd ▸ hinfo) (fun _ _ => rfl) hidle
      (fun _ _ hm => ⟨hm, rfl⟩) (by simp [DebugPc.untracked]) ?_ ?_
    · intro q
      rw [hadd, hpinfo, FiniteTable.put_keys, Finset.mem_insert, h.tracked_iff t, hu]
      have hown := h.apart t ptr hu
      simp only [DebugPc.untracked, Option.some.injEq, ne_eq, reduceCtorEq, not_false_eq_true,
        true_and]
      by_cases hq : q = ptr
      · subst hq
        simp [hl, hown, DebugSys.tell]
      · simp [hq, Ne.symm hq, DebugSys.tell]
    · intro q hq
      rw [hadd, hpinfo] at hq ⊢
      by_cases he : q = ptr
      · subst he
        simpa [DebugSys.tell] using hsize
      · rw [FiniteTable.put_val, Function.update_of_ne he]
        exact h.size q ((Finset.mem_insert.mp hq).resolve_left he)

/-- The section of cc_malloc makes a block live that the tracker does not know yet. -/
theorem DebugInv.added (h : DebugInv s) {name : List Char} {mem size : UInt64}
    (hpc : s.pc t = .mallocing name mem size) :
    DebugInv (s.call t .add (.adding name (mem + memorySizeof) size)) := by
  have hagrees := h.agrees t
  rw [hpc] at hagrees
  have hbpc : s.base.pc t = .allocated mem size.toNat := hagrees
  obtain ⟨-, hl, -, hnn⟩ := (h.base.block mem).of_allocated hbpc
  have hbase := h.base.add hbpc
  have hlive : (s.base.step t .add).live = s.base.live.enter mem size.toNat := by
    simp only [MemorySys.step, hbpc]
  have hpc' : (s.base.step t .add).pc t = .idle := by
    simp [MemorySys.step, hbpc]
  have hptr : mem + memorySizeof ≠ 0 := hnn.2
  have hu : (DebugPc.adding name (mem + memorySizeof) size).untracked =
      some (mem + memorySizeof) := by
    simp [DebugPc.untracked, hptr]
  have hnew : ∀ q, q - memorySizeof ∈ s.base.live.blocks → q - memorySizeof ≠ mem :=
    fun q hq => ne_of_mem_of_not_mem hq hl
  refine h.advance rfl hbase h.info (fun t' ht => s.base.step_pc_other ht _) ?_ ?_ ?_ ?_ ?_
  · refine ⟨hpc', fun _ => ?_⟩
    show _ ∈ (s.base.step t .add).live.blocks ∧ _ = (s.base.step t .add).live.size _
    rw [hlive, UInt64.add_sub_cancel]
    exact ⟨Finset.mem_insert_self .., (SizeLedger.size_enter_self ..).symm⟩
  · intro q _ hm
    show _ ∈ (s.base.step t .add).live.blocks ∧ (s.base.step t .add).live.size _ = _
    rw [hlive]
    exact ⟨Finset.mem_insert_of_mem hm, Function.update_of_ne (hnew q hm) _ _⟩
  · rintro q hq ⟨t', ht, ht'⟩
    obtain rfl : mem + memorySizeof = q := by simpa [hu] using hq
    have hm := h.held_live ht'
    rw [UInt64.add_sub_cancel] at hm
    exact hl hm
  · intro q
    show q ∈ s.meminfo.mapPinfo.keys ↔ q - memorySizeof ∈ (s.base.step t .add).live.blocks ∧ _
    rw [h.tracked_iff t, hlive, hu, hpc]
    simp only [SizeLedger.enter, Finset.mem_insert, DebugPc.untracked, ne_eq, reduceCtorEq,
      not_false_eq_true, true_and, Option.some.injEq]
    by_cases hq : q - memorySizeof = mem
    · have hq' : mem + memorySizeof = q := by rw [← hq, UInt64.sub_add_cancel]
      simp [hq, hq', hl]
    · have hq' : mem + memorySizeof ≠ q := by
        rintro rfl
        exact hq (UInt64.add_sub_cancel ..)
      simp [hq, hq']
  · intro q hq
    show _ = (s.base.step t .add).live.size _
    rw [hlive]
    have hm := ((h.tracked q).mp hq).1
    exact (h.size q hq).trans (Function.update_of_ne (hnew q hm) _ _).symm

/-- The section of cc_realloc gives a block that the thread has away its new size. -/
theorem DebugInv.resized (h : DebugInv s) {name : List Char} {mem size : UInt64}
    (hpc : s.pc t = .resizing name mem size) :
    DebugInv (s.call t .resize (.adding name (mem + memorySizeof) size)) := by
  have hagrees := h.agrees t
  rw [hpc] at hagrees
  obtain ⟨size1, hbpc⟩ := hagrees
  obtain ⟨-, hl, -, -, hnn⟩ := (h.base.block mem).of_resized hbpc
  have hbase := h.base.resize hbpc
  have hlive : (s.base.step t .resize).live = s.base.live.enter mem size.toNat := by
    simp only [MemorySys.step, hbpc]
  have hpc' : (s.base.step t .resize).pc t = .idle := by
    simp [MemorySys.step, hbpc]
  have hin : (s.base.live.enter mem size.toNat).blocks = s.base.live.blocks :=
    Finset.insert_eq_of_mem hl
  have hptr : mem + memorySizeof ≠ 0 := hnn.2
  have hu : (DebugPc.adding name (mem + memorySizeof) size).untracked =
      some (mem + memorySizeof) := by
    simp [DebugPc.untracked, hptr]
  have hu' : (s.pc t).untracked = some (mem + memorySizeof) := by simp [hpc, DebugPc.untracked]
  have hne : ∀ q, q ≠ mem + memorySizeof → q - memorySizeof ≠ mem := by
    rintro q hq rfl
    exact hq (UInt64.sub_add_cancel ..).symm
  refine h.advance rfl hbase h.info (fun t' ht => s.base.step_pc_other ht _) ?_ ?_ ?_ ?_ ?_
  · refine ⟨hpc', fun _ => ?_⟩
    show _ ∈ (s.base.step t .resize).live.blocks ∧ _ = (s.base.step t .resize).live.size _
    rw [hlive, UInt64.add_sub_cancel]
    exact ⟨Finset.mem_insert_self .., (SizeLedger.size_enter_self ..).symm⟩
  · intro q ho hm
    have hq : q ≠ mem + memorySizeof := by
      rintro rfl
      exact h.apart t _ hu' ho
    show _ ∈ (s.base.step t .resize).live.blocks ∧ (s.base.step t .resize).live.size _ = _
    rw [hlive, hin]
    exact ⟨hm, Function.update_of_ne (hne q hq) _ _⟩
  · intro q hq
    rw [hu, ← hu'] at hq
    exact h.apart t q hq
  · intro q
    show q ∈ s.meminfo.mapPinfo.keys ↔ q - memorySizeof ∈ (s.base.step t .resize).live.blocks ∧ _
    rw [hlive, hin, hu, ← hu']
    exact h.tracked_iff t
  · intro q hq
    show _ = (s.base.step t .resize).live.size _
    have hq' : q ≠ mem + memorySizeof := by
      rintro rfl
      exact ((h.tracked _).mp hq).2 t hu'
    rw [hlive]
    exact (h.size q hq).trans (Function.update_of_ne (hne q hq') _ _).symm

theorem DebugInv.reallocated (h : DebugInv s) {name : List Char} {ptr size mem2 : UInt64}
    (hpc : s.pc t = .reallocating name ptr size) (hptr : ptr ≠ 0)
    (hf : s.base.memory.Fresh mem2 ∨ mem2 = ptr - memorySizeof) :
    DebugInv (s.call t (.realloc ptr size (some mem2)) (.resizing name mem2 size)) := by
  have hagrees := h.agrees t
  rw [hpc] at hagrees
  obtain ⟨hidle, hlt, hl⟩ := hagrees
  have hl := hl hptr
  have hu : (s.pc t).untracked = some ptr := by simp [hpc, DebugPc.untracked, hptr]
  have husable := h.usable hl (h.apart t ptr hu) hidle
  have hbase := h.base.realloc hidle hptr hlt husable hf
  obtain ⟨mem1, hmem1⟩ : ∃ mem1, mem1 = ptr - memorySizeof := ⟨_, rfl⟩
  have hstep : s.base.step t (.realloc ptr size (some mem2)) =
      { memory := memoryRealloc mem1 size mem2 s.base.memory
        pc := Function.update s.base.pc t (.resized mem2 (s.base.memory.size mem1) size.toNat)
        live := s.base.live.move mem1 mem2 } := by
    simp only [MemorySys.step, if_neg hptr, hmem1]
  rw [← hmem1] at hf hl
  have hptr1 : mem1 + memorySizeof = ptr := by rw [hmem1, UInt64.sub_add_cancel]
  have hnew : mem2 = mem1 ∨ mem2 ∉ s.base.live.blocks :=
    hf.symm.imp_right fun hf => ((h.base.block mem2).of_fresh hf.1).2
  have hblocks : ∀ q, q - memorySizeof ∈ (s.base.live.move mem1 mem2).blocks ↔
      q = mem2 + memorySizeof ∨ q ≠ ptr ∧ q - memorySizeof ∈ s.base.live.blocks := by
    intro q
    simp only [SizeLedger.move, SizeLedger.enter, SizeLedger.leave, Finset.mem_insert,
      Finset.mem_erase, ne_eq, ← hptr1]
    rw [UInt64.sub_eq_iff_eq_add, UInt64.sub_eq_iff_eq_add]
  have hsame : ∀ q, q ≠ ptr → q - memorySizeof ∈ s.base.live.blocks →
      (s.base.live.move mem1 mem2).size (q - memorySizeof) =
        s.base.live.size (q - memorySizeof) := by
    intro q hq hm
    refine Function.update_of_ne ?_ _ _
    rcases hnew with rfl | hnot
    · rw [ne_eq, UInt64.sub_eq_iff_eq_add, hptr1]
      exact hq
    · exact ne_of_mem_of_not_mem hm hnot
  have hu' : (DebugPc.resizing name mem2 size).untracked = some (mem2 + memorySizeof) := rfl
  refine h.advance rfl hbase h.info (fun t' ht => s.base.step_pc_other ht _) ?_ ?_ ?_ ?_ ?_
  · refine ⟨s.base.memory.size mem1, ?_⟩
    show (s.base.step t _).pc t = _
    rw [hstep]
    exact Function.update_self ..
  · intro q ho hm
    have hq : q ≠ ptr := by
      rintro rfl
      exact h.apart t _ hu ho
    show _ ∈ (s.base.step t _).live.blocks ∧ (s.base.step t _).live.size _ = _
    rw [hstep]
    exact ⟨(hblocks q).mpr (.inr ⟨hq, hm⟩), hsame q hq hm⟩
  · rintro q hq ⟨t', ht, ht'⟩
    obtain rfl : mem2 + memorySizeof = q := by simpa [hu'] using hq
    rcases hnew with rfl | hnot
    · rw [hptr1] at ht'
      exact h.apart t ptr hu ⟨t', ht, ht'⟩
    · have hm := h.held_live ht'
      rw [UInt64.add_sub_cancel] at hm
      exact hnot hm
  · intro q
    show q ∈ s.meminfo.mapPinfo.keys ↔ q - memorySizeof ∈ (s.base.step t _).live.blocks ∧ _
    rw [h.tracked_iff t, hstep, hblocks, hu, hu']
    simp only [ne_eq, Option.some.injEq]
    by_cases hq : q = mem2 + memorySizeof
    · subst hq
      simp only [not_true_eq_false, false_and, and_false, iff_false, not_and, not_not]
      intro hm hne
      rw [UInt64.add_sub_cancel] at hm
      rcases hnew with rfl | hnot
      · exact absurd hptr1.symm hne
      · exact absurd hm hnot
    · simp only [hq, Ne.symm hq, false_or, not_false_eq_true, true_and]
      tauto
  · intro q hq
    have hm := (h.tracked_iff t).mp hq
    have hne : q ≠ ptr := by
      rintro rfl
      exact hm.2.1 hu
    show _ = (s.base.step t _).live.size _
    rw [hstep]
    exact (h.size q hq).trans (hsame q hne hm.1).symm

/-- The section of cc_free takes a block that the thread has away from the live ones. -/
theorem DebugInv.released (h : DebugInv s) {ptr : UInt64} (hpc : s.pc t = .releasing ptr)
    (hptr : ptr ≠ 0) : DebugInv (s.call t (.release ptr) .freeing) := by
  have hagrees := h.agrees t
  rw [hpc] at hagrees
  obtain ⟨hidle, hl⟩ := hagrees
  have hl := hl hptr
  have hu : (s.pc t).untracked = some ptr := by simp [hpc, DebugPc.untracked, hptr]
  have hbase := h.base.release hidle hptr (h.usable hl (h.apart t ptr hu) hidle)
  have hstep : s.base.step t (.release ptr) =
      { memory := memorySub (ptr - memorySizeof) s.base.memory
        pc := Function.update s.base.pc t (.released (ptr - memorySizeof))
        live := s.base.live.leave (ptr - memorySizeof) } := by
    simp only [MemorySys.step, if_neg hptr]
  have hblocks : ∀ q, q - memorySizeof ∈ (s.base.live.leave (ptr - memorySizeof)).blocks ↔
      q ≠ ptr ∧ q - memorySizeof ∈ s.base.live.blocks := by
    intro q
    simp only [SizeLedger.leave, Finset.mem_erase, ne_eq, UInt64.sub_left_inj]
  refine h.advance rfl hbase h.info (fun t' ht => s.base.step_pc_other ht _) ?_ ?_ ?_ ?_ ?_
  · refine ⟨ptr - memorySizeof, ?_⟩
    show (s.base.step t _).pc t = _
    rw [hstep]
    exact Function.update_self ..
  · intro q ho hm
    have hq : q ≠ ptr := by
      rintro rfl
      exact h.apart t _ hu ho
    show _ ∈ (s.base.step t _).live.blocks ∧ (s.base.step t _).live.size _ = _
    rw [hstep]
    exact ⟨(hblocks q).mpr ⟨hq, hm⟩, rfl⟩
  · simp [DebugPc.untracked]
  · intro q
    show q ∈ s.meminfo.mapPinfo.keys ↔ q - memorySizeof ∈ (s.base.step t _).live.blocks ∧ _
    rw [h.tracked_iff t, hstep, hblocks, hu]
    simp only [DebugPc.untracked, ne_eq, Option.some.injEq, reduceCtorEq, not_false_eq_true,
      true_and]
    tauto
  · intro q hq
    show _ = (s.base.step t _).live.size _
    rw [hstep]
    exact h.size q hq

theorem DebugInv.mallocing (h : DebugInv s) {move : MemoryMove} {name : List Char}
    {mem size : UInt64} {n : Nat} (hu : (s.pc t).untracked = none) (hidle : s.base.pc t = .idle)
    (hn : size.toNat = n) (hlt : n + 8 < 2 ^ 64) (hf : s.base.memory.Fresh mem)
    (hmove : s.base.step t move = s.base.allocate t size n (some mem)) :
    DebugInv (s.call t move (.mallocing name mem size)) := by
  refine h.still rfl ?_ (fun t' ht => s.base.step_pc_other ht _) rfl ?_ hu.symm ?_
  · show MemoryInv (s.base.step t move)
    rw [hmove]
    exact h.base.allocate hidle hn hlt fun m hm => by obtain rfl := Option.some.inj hm; exact hf
  · show (s.base.step t move).live = _
    rw [hmove]
    rfl
  · show (s.base.step t move).pc t = _
    rw [hmove, hn]
    exact Function.update_self ..

theorem DebugInv.step (h : DebugInv s) {move : DebugMove} (hl : s.Legal t move)
    (hk : s.KeepsSize t move) : DebugInv (s.step t move) := by
  have hagrees := h.agrees t
  cases move with
  | malloc site size mem =>
    obtain ⟨hpc, hlt, hf⟩ := hl
    rw [hpc] at hagrees
    cases mem with
    | none => exact h
    | some m => exact h.mallocing (by rw [hpc]; rfl) hagrees rfl hlt (hf m rfl) rfl
  | calloc site count size mem =>
    obtain ⟨hpc, hlt, hf⟩ := hl
    rw [hpc] at hagrees
    have hmul : (count * size).toNat = count.toNat * size.toNat := by
      rw [UInt64.toNat_mul, Nat.mod_eq_of_lt (by omega)]
    cases mem with
    | none => exact h
    | some m => exact h.mallocing (by rw [hpc]; rfl) hagrees hmul hlt (hf m rfl) rfl
  | added =>
    cases hpc : s.pc t with
    | mallocing name mem size => simpa only [DebugSys.step, hpc] using h.added hpc
    | _ => simpa only [DebugSys.step, hpc] using h
  | track =>
    cases hpc : s.pc t with
    | adding name ptr size => simpa only [DebugSys.step, hpc] using h.track hpc
    | _ => simpa only [DebugSys.step, hpc] using h
  | realloc site ptr size =>
    obtain ⟨hpc, hlt, hu⟩ := hl
    rw [hpc] at hagrees
    exact h.untrack hpc hu rfl ⟨hagrees, hlt, fun hptr => (hu hptr).1⟩
  | reallocated mem =>
    cases hpc : s.pc t with
    | reallocating name ptr size =>
      rw [hpc] at hagrees
      obtain ⟨hidle, hlt, hlive⟩ := hagrees
      cases mem with
      | none =>
        simp only [DebugSys.step, hpc]
        refine h.still rfl h.base (fun _ _ => rfl) rfl rfl ?_ ⟨hidle, fun hptr => ?_⟩
        · simp [hpc, DebugPc.untracked]
        · exact ⟨hlive hptr, hk name ptr size hpc hptr⟩
      | some m =>
        have hf := hl name ptr size hpc m rfl
        simp only [DebugSys.step, hpc]
        by_cases hptr : ptr = 0
        · rw [if_pos hptr]
          refine h.mallocing ?_ hidle rfl hlt (hf.resolve_right fun hr => hr.1 hptr) ?_
          · simp [hpc, DebugPc.untracked, hptr]
          · simp only [MemorySys.step, if_pos hptr]
        · rw [if_neg hptr]
          exact h.reallocated hpc hptr (hf.imp_right And.right)
    | _ => simpa only [DebugSys.step, hpc] using h
  | resized =>
    cases hpc : s.pc t with
    | resizing name mem size => simpa only [DebugSys.step, hpc] using h.resized hpc
    | _ => simpa only [DebugSys.step, hpc] using h
  | free ptr =>
    obtain ⟨hpc, hu⟩ := hl
    rw [hpc] at hagrees
    exact h.untrack hpc hu rfl ⟨hagrees, fun hptr => (hu hptr).1⟩
  | released =>
    cases hpc : s.pc t with
    | releasing ptr =>
      rw [hpc] at hagrees
      simp only [DebugSys.step, hpc]
      by_cases hptr : ptr = 0
      · have hsame : s.base.step t (.release ptr) = s.base := by
          simp only [MemorySys.step, if_pos hptr]
        rw [if_pos hptr]
        refine h.still rfl ?_ (fun t' ht => s.base.step_pc_other ht _) rfl ?_ ?_ ?_
        · show MemoryInv (s.base.step t (.release ptr))
          rw [hsame]
          exact h.base
        · show (s.base.step t _).live = _
          rw [hsame]
        · simp [hpc, DebugPc.untracked, hptr]
        · show (s.base.step t _).pc t = _
          rw [hsame]
          exact hagrees.1
      · rw [if_neg hptr]
        exact h.released hpc hptr
    | _ => simpa only [DebugSys.step, hpc] using h
  | freed =>
    cases hpc : s.pc t with
    | freeing =>
      rw [hpc] at hagrees
      obtain ⟨mem, hbpc⟩ := hagrees
      simp only [DebugSys.step, hpc]
      refine h.still rfl (h.base.free hbpc) (fun t' ht => s.base.step_pc_other ht _) rfl ?_ ?_ ?_
      · show (s.base.step t _).live = _
        simp only [MemorySys.step, hbpc]
      · simp [hpc, DebugPc.untracked]
      · show (s.base.step t _).pc t = _
        simp [MemorySys.step, hbpc]
    | _ => simpa only [DebugSys.step, hpc] using h

omit [DecidableEq τ] in
theorem DebugInv.new : DebugInv (DebugSys.new : DebugSys τ) := by
  refine ⟨MemoryInv.new, meminfoNew_inv, fun t => rfl, fun t ptr hu => ?_, fun ptr => ?_,
    fun ptr hp => ?_⟩
  · simp [DebugSys.new, DebugPc.untracked] at hu
  · simp [DebugSys.new, meminfoNew, FiniteTable.empty, MemorySys.new, SizeLedger.empty]
  · simp [DebugSys.new, meminfoNew, FiniteTable.empty] at hp

theorem DebugReach.inv (h : DebugReach DebugSys.KeepsSize s) : DebugInv s := by
  induction h with
  | new => exact DebugInv.new
  | step t move _ hl hk _ ih => exact ih.step hl hk

theorem DebugReach.fits {ok : DebugSys τ → τ → DebugMove → Prop} (h : DebugReach ok s) :
    s.base.live.total < 2 ^ 64 := by
  cases h with
  | new => simp [DebugSys.new, MemorySys.new, SizeLedger.total, SizeLedger.empty]
  | step t move _ _ _ hf => exact hf

end Steps

end LibCC
