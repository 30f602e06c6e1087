import LibCC.MemorySystem

/-! The account of cc_memory: every block is unused, with a call that makes, resizes or frees it,
or with the callers, and the counters follow the ledger of the live blocks. -/

namespace LibCC

variable {τ : Type}

/-- The C block at `mem` has room for `n` bytes, and its header says so. -/
def CcMemory.HasBlock (st : CcMemory) (mem : UInt64) (n : Nat) : Prop :=
  ∃ b, st.heap mem = some b ∧ b.size.toNat = n ∧ b.bytes = n + 8

theorem CcMemory.HasBlock.size_toNat {st : CcMemory} {mem : UInt64} {n : Nat}
    (h : st.HasBlock mem n) : (st.size mem).toNat = n := by
  obtain ⟨b, hb, hn, -⟩ := h
  rw [st.size_eq hb, hn]

theorem CcMemory.HasBlock.ne_none {st : CcMemory} {mem : UInt64} {n : Nat}
    (h : st.HasBlock mem n) : st.heap mem ≠ none := by
  obtain ⟨b, hb, -⟩ := h
  rw [hb]
  exact Option.some_ne_none b

/-- A pointer that cc_malloc makes of `mem` is not NULL. -/
def NonNull (mem : UInt64) : Prop := mem ≠ 0 ∧ mem + memorySizeof ≠ 0

namespace MemorySys

def Unowned (s : MemorySys τ) (mem : UInt64) : Prop := ∀ t, (s.pc t).block ≠ some mem

def OwnedBy (s : MemorySys τ) (mem : UInt64) (t : τ) : Prop :=
  ∀ t', (s.pc t').block = some mem → t' = t

end MemorySys

/-- What an address is used for. -/
inductive BlockState (s : MemorySys τ) (mem : UInt64) : Prop
  | unused (owned : s.Unowned mem) (live : mem ∉ s.live.blocks) (heap : s.memory.heap mem = none)
  | live (owned : s.Unowned mem) (live : mem ∈ s.live.blocks)
      (heap : s.memory.HasBlock mem (s.live.size mem)) (nonnull : NonNull mem)
  | allocated (t : τ) (n : Nat) (owned : s.OwnedBy mem t) (pc : s.pc t = .allocated mem n)
      (live : mem ∉ s.live.blocks) (heap : s.memory.HasBlock mem n) (nonnull : NonNull mem)
  | resized (t : τ) (size1 : UInt64) (n : Nat) (owned : s.OwnedBy mem t)
      (pc : s.pc t = .resized mem size1 n) (live : mem ∈ s.live.blocks)
      (old : s.live.size mem = size1.toNat) (heap : s.memory.HasBlock mem n)
      (nonnull : NonNull mem)
  | released (t : τ) (owned : s.OwnedBy mem t) (pc : s.pc t = .released mem)
      (live : mem ∉ s.live.blocks) (heap : s.memory.heap mem ≠ none)

structure MemoryInv (s : MemorySys τ) : Prop where
  count : s.memory.memoryCount = UInt64.ofNat s.live.count
  size : s.memory.memorySize = UInt64.ofNat s.live.total
  block : ∀ mem, BlockState s mem

theorem BlockState.congr {s s' : MemorySys τ} {mem : UInt64} (h : BlockState s mem)
    (hheap : s'.memory.heap mem = s.memory.heap mem)
    (hlive : mem ∈ s'.live.blocks ↔ mem ∈ s.live.blocks)
    (hsize : s'.live.size mem = s.live.size mem)
    (hpc : ∀ t, (s.pc t).block = some mem ∨ (s'.pc t).block = some mem → s'.pc t = s.pc t) :
    BlockState s' mem := by
  have hunowned : s.Unowned mem → s'.Unowned mem := by
    intro hu t ht
    exact hu t (hpc t (.inr ht) ▸ ht)
  have howned : ∀ t, s.OwnedBy mem t → s'.OwnedBy mem t := by
    intro t ho t' ht
    exact ho t' (hpc t' (.inr ht) ▸ ht)
  have hhas : ∀ n, s.memory.HasBlock mem n → s'.memory.HasBlock mem n := by
    intro n hb
    simpa only [CcMemory.HasBlock, hheap] using hb
  cases h with
  | unused ho hl hh => exact .unused (hunowned ho) (by rwa [hlive]) (by rwa [hheap])
  | live ho hl hh hn => exact .live (hunowned ho) (hlive.mpr hl) (by rw [hsize]; exact hhas _ hh) hn
  | allocated t n ho hp hl hh hn =>
    have hp' := hpc t (.inl (by rw [hp]; rfl))
    exact .allocated t n (howned t ho) (hp'.trans hp) (by rwa [hlive]) (hhas _ hh) hn
  | resized t size1 n ho hp hl hs hh hn =>
    have hp' := hpc t (.inl (by rw [hp]; rfl))
    exact .resized t size1 n (howned t ho) (hp'.trans hp) (hlive.mpr hl) (hsize.trans hs)
      (hhas _ hh) hn
  | released t ho hp hl hh =>
    have hp' := hpc t (.inl (by rw [hp]; rfl))
    exact .released t (howned t ho) (hp'.trans hp) (by rwa [hlive]) (by rwa [hheap])

theorem BlockState.of_allocated {s : MemorySys τ} {t : τ} {mem : UInt64} {n : Nat}
    (h : BlockState s mem) (hp : s.pc t = .allocated mem n) :
    s.OwnedBy mem t ∧ mem ∉ s.live.blocks ∧ s.memory.HasBlock mem n ∧ NonNull mem := by
  have hb : (s.pc t).block = some mem := by rw [hp]; rfl
  cases h with
  | unused ho => exact absurd hb (ho t)
  | live ho => exact absurd hb (ho t)
  | allocated t' n' ho hp' hl hh hn =>
    obtain rfl := ho t hb
    obtain rfl : n' = n := by simpa using hp'.symm.trans hp
    exact ⟨ho, hl, hh, hn⟩
  | resized t' _ _ ho hp' =>
    obtain rfl := ho t hb
    simp [hp] at hp'
  | released t' ho hp' =>
    obtain rfl := ho t hb
    simp [hp] at hp'

theorem BlockState.of_resized {s : MemorySys τ} {t : τ} {mem size1 : UInt64} {n : Nat}
    (h : BlockState s mem) (hp : s.pc t = .resized mem size1 n) :
    s.OwnedBy mem t ∧ mem ∈ s.live.blocks ∧ s.live.size mem = size1.toNat ∧
      s.memory.HasBlock mem n ∧ NonNull mem := by
  have hb : (s.pc t).block = some mem := by rw [hp]; rfl
  cases h with
  | unused ho => exact absurd hb (ho t)
  | live ho => exact absurd hb (ho t)
  | allocated t' _ ho hp' =>
    obtain rfl := ho t hb
    simp [hp] at hp'
  | resized t' size1' n' ho hp' hl hs hh hn =>
    obtain rfl := ho t hb
    obtain ⟨rfl, rfl⟩ : size1' = size1 ∧ n' = n := by simpa using hp'.symm.trans hp
    exact ⟨ho, hl, hs, hh, hn⟩
  | released t' ho hp' =>
    obtain rfl := ho t hb
    simp [hp] at hp'

theorem BlockState.of_released {s : MemorySys τ} {t : τ} {mem : UInt64} (h : BlockState s mem)
    (hp : s.pc t = .released mem) : s.OwnedBy mem t ∧ mem ∉ s.live.blocks := by
  have hb : (s.pc t).block = some mem := by rw [hp]; rfl
  cases h with
  | unused ho => exact absurd hb (ho t)
  | live ho => exact absurd hb (ho t)
  | allocated t' _ ho hp' =>
    obtain rfl := ho t hb
    simp [hp] at hp'
  | resized t' _ _ ho hp' =>
    obtain rfl := ho t hb
    simp [hp] at hp'
  | released t' ho hp' hl _ =>
    obtain rfl := ho t hb
    exact ⟨ho, hl⟩

theorem BlockState.of_usable {s : MemorySys τ} {mem : UInt64} (h : BlockState s mem)
    (hu : s.Usable mem) : s.memory.HasBlock mem (s.live.size mem) ∧ NonNull mem := by
  obtain ⟨hl, ho⟩ := hu
  cases h with
  | unused _ hn => exact absurd hl hn
  | live _ _ hh hn => exact ⟨hh, hn⟩
  | allocated _ _ _ _ hn => exact absurd hl hn
  | resized t _ _ _ hp => exact absurd (by rw [hp]; rfl) (ho t)
  | released _ _ _ hn => exact absurd hl hn

section Owners

variable [DecidableEq τ] {s s' : MemorySys τ} {t : τ} {p : MemoryPc} {mem : UInt64}

theorem MemorySys.pc_of_update (hs : s'.pc = Function.update s.pc t p)
    (hold : (s.pc t).block ≠ some mem) (hnew : p.block ≠ some mem) (t' : τ)
    (h : (s.pc t').block = some mem ∨ (s'.pc t').block = some mem) : s'.pc t' = s.pc t' := by
  rw [hs] at h ⊢
  by_cases ht : t' = t
  · subst ht
    rw [Function.update_self] at h
    exact absurd h (not_or.mpr ⟨hold, hnew⟩)
  · exact Function.update_of_ne ht _ _

theorem MemorySys.OwnedBy.update (h : s.OwnedBy mem t) (hs : s'.pc = Function.update s.pc t p) :
    s'.OwnedBy mem t := by
  intro t' ht'
  by_contra ht
  rw [hs, Function.update_of_ne ht] at ht'
  exact ht (h t' ht')

theorem MemorySys.OwnedBy.free (h : s.OwnedBy mem t) (hs : s'.pc = Function.update s.pc t p)
    (hp : p.block ≠ some mem) : s'.Unowned mem := by
  intro t' ht'
  rw [hs] at ht'
  by_cases ht : t' = t
  · subst ht
    rw [Function.update_self] at ht'
    exact hp ht'
  · rw [Function.update_of_ne ht] at ht'
    exact ht (h t' ht')

omit [DecidableEq τ] in
theorem MemorySys.Unowned.ownedBy (h : s.Unowned mem) (t : τ) : s.OwnedBy mem t :=
  fun t' ht' => absurd ht' (h t')

end Owners

theorem BlockState.of_fresh {s : MemorySys τ} {mem : UInt64} (h : BlockState s mem)
    (hf : s.memory.heap mem = none) : s.Unowned mem ∧ mem ∉ s.live.blocks := by
  cases h with
  | unused ho hl => exact ⟨ho, hl⟩
  | live _ _ hh => exact absurd hf hh.ne_none
  | allocated _ _ _ _ _ hh => exact absurd hf hh.ne_none
  | resized _ _ _ _ _ _ _ hh => exact absurd hf hh.ne_none
  | released _ _ _ _ hh => exact absurd hf hh

theorem hasBlock_new {size : UInt64} {n : Nat} (hn : size.toNat = n) (h : n + 8 < 2 ^ 64) :
    (size + memorySizeof).toNat = n + 8 := by
  rw [add_memorySizeof_toNat, hn, Nat.mod_eq_of_lt h]

section Steps

variable [DecidableEq τ] {s : MemorySys τ} {t : τ}

theorem MemoryInv.allocate (h : MemoryInv s) (hpc : s.pc t = .idle) {size : UInt64} {n : Nat}
    (hn : size.toNat = n) (hlt : n + 8 < 2 ^ 64) {mem : Option UInt64}
    (hf : ∀ m, mem = some m → s.memory.Fresh m) : MemoryInv (s.allocate t size n mem) := by
  cases mem with
  | none => exact h
  | some mem =>
    obtain ⟨hnone, hnn⟩ := hf mem rfl
    obtain ⟨ho, hl⟩ := (h.block mem).of_fresh hnone
    refine ⟨h.count, h.size, fun m => ?_⟩
    by_cases hm : m = mem
    · subst hm
      refine .allocated t n ((ho.ownedBy t).update rfl) (Function.update_self ..) hl ?_ hnn
      exact ⟨_, Function.update_self .., hn, hasBlock_new hn hlt⟩
    · refine (h.block m).congr (Function.update_of_ne hm ..) Iff.rfl rfl ?_
      refine MemorySys.pc_of_update rfl (by simp [hpc, MemoryPc.block]) ?_
      simpa [MemoryPc.block] using Ne.symm hm

theorem MemoryInv.add (h : MemoryInv s) {mem : UInt64} {n : Nat}
    (hpc : s.pc t = .allocated mem n) : MemoryInv (s.step t .add) := by
  obtain ⟨ho, hl, hh, hnn⟩ := (h.block mem).of_allocated hpc
  simp only [MemorySys.step, hpc]
  refine ⟨?_, ?_, fun m => ?_⟩
  · exact SizeLedger.follows_add h.count 1 (SizeLedger.count_enter hl)
  · refine SizeLedger.follows_add h.size (s.memory.size mem) ?_
    rw [SizeLedger.total_enter hl, hh.size_toNat]
  · by_cases hm : m = mem
    · subst hm
      refine .live (ho.free rfl (by simp [MemoryPc.block])) (Finset.mem_insert_self ..) ?_ hnn
      rw [SizeLedger.size_enter_self]
      exact hh
    · refine (h.block m).congr rfl ?_ (Function.update_of_ne hm ..) ?_
      · simp [SizeLedger.enter, hm]
      · refine MemorySys.pc_of_update rfl ?_ (by simp [MemoryPc.block])
        simpa [hpc, MemoryPc.block] using Ne.symm hm

theorem MemoryInv.resize (h : MemoryInv s) {mem size1 : UInt64} {n : Nat}
    (hpc : s.pc t = .resized mem size1 n) : MemoryInv (s.step t .resize) := by
  obtain ⟨ho, hl, hold, hh, hnn⟩ := (h.block mem).of_resized hpc
  simp only [MemorySys.step, hpc]
  refine ⟨?_, ?_, fun m => ?_⟩
  · show s.memory.memoryCount = _
    rw [SizeLedger.count_enter_of_mem hl]
    exact h.count
  · -- the old size is part of the total, so the difference is added without a borrow
    have htotal := SizeLedger.total_enter_of_mem (n := n) hl
    have hle := SizeLedger.size_le_total hl
    have hsub : s.memory.memorySize - size1 =
        UInt64.ofNat (s.live.total - s.live.size mem) :=
      SizeLedger.follows_sub h.size size1 (by omega)
    show s.memory.memorySize + (s.memory.size mem - size1) = _
    rw [show s.memory.memorySize + (s.memory.size mem - size1) =
      s.memory.memorySize - size1 + s.memory.size mem by grind]
    refine SizeLedger.follows_add hsub (s.memory.size mem) ?_
    rw [hh.size_toNat]
    show (s.live.enter mem n).total = _
    omega
  · by_cases hm : m = mem
    · subst hm
      refine .live (ho.free rfl (by simp [MemoryPc.block])) (Finset.mem_insert_self ..) ?_ hnn
      rw [SizeLedger.size_enter_self]
      exact hh
    · refine (h.block m).congr rfl ?_ (Function.update_of_ne hm ..) ?_
      · simp [SizeLedger.enter, hm]
      · refine MemorySys.pc_of_update rfl ?_ (by simp [MemoryPc.block])
        simpa [hpc, MemoryPc.block] using Ne.symm hm

theorem MemoryInv.release (h : MemoryInv s) (hpc : s.pc t = .idle) {ptr : UInt64}
    (hptr : ptr ≠ 0) (hu : s.Usable (ptr - memorySizeof)) :
    MemoryInv (s.step t (.release ptr)) := by
  obtain ⟨hh, hnn⟩ := (h.block _).of_usable hu
  simp only [MemorySys.step, if_neg hptr]
  refine ⟨?_, ?_, fun m => ?_⟩
  · exact SizeLedger.follows_sub h.count 1 (SizeLedger.count_leave hu.1)
  · refine SizeLedger.follows_sub h.size (s.memory.size _) ?_
    rw [hh.size_toNat]
    exact SizeLedger.total_leave hu.1
  · by_cases hm : m = ptr - memorySizeof
    · subst hm
      have ho : s.Unowned (ptr - memorySizeof) := hu.2
      refine .released t ((ho.ownedBy t).update rfl) (Function.update_self ..) ?_ hh.ne_none
      simp [SizeLedger.leave]
    · refine (h.block m).congr rfl ?_ rfl ?_
      · simp [SizeLedger.leave, hm]
      · refine MemorySys.pc_of_update rfl (by simp [hpc, MemoryPc.block]) ?_
        simpa [MemoryPc.block] using Ne.symm hm

theorem MemoryInv.free (h : MemoryInv s) {mem : UInt64} (hpc : s.pc t = .released mem) :
    MemoryInv (s.step t .free) := by
  obtain ⟨ho, hl⟩ := (h.block mem).of_released hpc
  simp only [MemorySys.step, hpc]
  refine ⟨h.count, h.size, fun m => ?_⟩
  by_cases hm : m = mem
  · subst hm
    exact .unused (ho.free rfl (by simp [MemoryPc.block])) hl (Function.update_self ..)
  · refine (h.block m).congr (Function.update_of_ne hm ..) Iff.rfl rfl ?_
    refine MemorySys.pc_of_update rfl ?_ (by simp [MemoryPc.block])
    simpa [hpc, MemoryPc.block] using Ne.symm hm

theorem MemoryInv.realloc (h : MemoryInv s) (hpc : s.pc t = .idle) {ptr size mem2 : UInt64}
    (hptr : ptr ≠ 0) (hlt : size.toNat + 8 < 2 ^ 64) (hu : s.Usable (ptr - memorySizeof))
    (hf : s.memory.Fresh mem2 ∨ mem2 = ptr - memorySizeof) :
    MemoryInv (s.step t (.realloc ptr size (some mem2))) := by
  obtain ⟨hh, hnn⟩ := (h.block _).of_usable hu
  obtain ⟨mem1, hmem1⟩ : ∃ mem1, mem1 = ptr - memorySizeof := ⟨_, rfl⟩
  simp only [MemorySys.step, if_neg hptr]
  rw [← hmem1] at hu hf hh hnn ⊢
  have hnew : mem2 = mem1 ∨ mem2 ∉ s.live.blocks := by
    rcases hf with hf | rfl
    · exact .inr ((h.block mem2).of_fresh hf.1).2
    · exact .inl rfl
  have ho : s.Unowned mem2 := by
    rcases hf with hf | rfl
    · exact ((h.block mem2).of_fresh hf.1).1
    · exact hu.2
  have hnn2 : NonNull mem2 := by
    rcases hf with hf | rfl
    · exact hf.2
    · exact hnn
  refine ⟨?_, ?_, fun m => ?_⟩
  · rw [SizeLedger.count_move hu.1 hnew]
    exact h.count
  · rw [SizeLedger.total_move hu.1 hnew]
    exact h.size
  · by_cases hm : m = mem2
    · subst hm
      refine .resized t (s.memory.size mem1) size.toNat ((ho.ownedBy t).update rfl)
        (Function.update_self ..) (Finset.mem_insert_self ..) ?_ ?_ hnn2
      · rw [hh.size_toNat]
        exact Function.update_self ..
      · exact ⟨_, Function.update_self .., rfl, hasBlock_new rfl hlt⟩
    · have hpc' : ((MemoryPc.resized mem2 (s.memory.size mem1) size.toNat).block) ≠ some m := by
        simpa [MemoryPc.block] using Ne.symm hm
      by_cases hm1 : m = mem1
      · subst hm1
        refine .unused ?_ (by simp [SizeLedger.move, SizeLedger.enter, SizeLedger.leave, hm]) ?_
        · have hum : s.Unowned m := hu.2
          exact (hum.ownedBy t).free rfl hpc'
        · simp [hm]
      · refine (h.block m).congr (by simp [hm, hm1]) ?_ ?_ ?_
        · simp [SizeLedger.move, SizeLedger.enter, SizeLedger.leave, hm, hm1]
        · exact Function.update_of_ne hm ..
        · exact MemorySys.pc_of_update rfl (by simp [hpc, MemoryPc.block]) hpc'

theorem MemoryInv.step (h : MemoryInv s) {move : MemoryMove} (hl : s.Legal t move) :
    MemoryInv (s.step t move) := by
  cases move with
  | malloc size mem =>
    obtain ⟨hpc, hlt, hf⟩ := hl
    exact h.allocate hpc rfl hlt hf
  | calloc count size mem =>
    obtain ⟨hpc, hlt, hf⟩ := hl
    refine h.allocate hpc ?_ hlt hf
    rw [UInt64.toNat_mul, Nat.mod_eq_of_lt (by omega)]
  | realloc ptr size mem =>
    obtain ⟨hpc, hlt, hu, hf⟩ := hl
    by_cases hptr : ptr = 0
    · simp only [MemorySys.step, if_pos hptr]
      refine h.allocate hpc rfl hlt (fun m hm => ?_)
      exact (hf m hm).resolve_right (fun hr => hr.1 hptr)
    · cases mem with
      | none => simpa only [MemorySys.step, if_neg hptr] using h
      | some mem2 =>
        exact h.realloc hpc hptr hlt (hu hptr) ((hf mem2 rfl).imp_right And.right)
  | release ptr =>
    obtain ⟨hpc, hu⟩ := hl
    by_cases hptr : ptr = 0
    · simpa only [MemorySys.step, if_pos hptr] using h
    · exact h.release hpc hptr (hu hptr)
  | add =>
    cases hpc : s.pc t with
    | allocated mem n => exact h.add hpc
    | _ => simpa only [MemorySys.step, hpc] using h
  | resize =>
    cases hpc : s.pc t with
    | resized mem size1 n => exact h.resize hpc
    | _ => simpa only [MemorySys.step, hpc] using h
  | free =>
    cases hpc : s.pc t with
    | released mem => exact h.free hpc
    | _ => simpa only [MemorySys.step, hpc] using h

omit [DecidableEq τ] in
theorem MemoryInv.new : MemoryInv (MemorySys.new : MemorySys τ) := by
  refine ⟨rfl, rfl, fun mem => ?_⟩
  refine .unused (fun t => ?_) (by simp [MemorySys.new, SizeLedger.empty]) rfl
  simp [MemorySys.new, MemoryPc.block]

theorem MemoryReach.inv (h : MemoryReach s) : MemoryInv s := by
  induction h with
  | new => exact MemoryInv.new
  | step t move _ hl _ ih => exact ih.step hl

theorem MemoryReach.fits (h : MemoryReach s) : s.live.total < 2 ^ 64 := by
  cases h with
  | new => simp [MemorySys.new, SizeLedger.total, SizeLedger.empty]
  | step t move _ _ hf => exact hf

theorem MemoryReach.count_eq (h : MemoryReach s) :
    s.memory.memoryCount.toNat = s.live.count := by
  refine SizeLedger.follows_toNat h.inv.count (SizeLedger.count_lt fun h0 => ?_)
  cases h.inv.block 0 with
  | unused _ hl => exact hl h0
  | live _ _ _ hn => exact hn.1 rfl
  | allocated _ _ _ _ hl => exact hl h0
  | resized _ _ _ _ _ _ _ _ hn => exact hn.1 rfl
  | released _ _ _ hl => exact hl h0

theorem MemoryReach.size_eq (h : MemoryReach s) : s.memory.memorySize.toNat = s.live.total :=
  SizeLedger.follows_toNat h.inv.size h.fits

end Steps

/-- A section takes no more from a counter than there is. -/
def MemorySys.NoBorrow (s : MemorySys τ) (t : τ) : MemoryMove → Prop
  | .release ptr => ptr ≠ 0 →
    1 ≤ s.memory.memoryCount ∧ s.memory.size (ptr - memorySizeof) ≤ s.memory.memorySize
  | .resize => ∀ mem2 size1 n, s.pc t = .resized mem2 size1 n → size1 ≤ s.memory.memorySize
  | _ => True

/-- The counters and the headers agree with what the callers have. -/
structure MemorySys.Accounted (s : MemorySys τ) : Prop where
  count : (ccMemcount s.memory).toNat = s.live.count
  size : (ccMemsize s.memory).toNat = s.live.total
  header : ∀ mem ∈ s.live.blocks, mem + memorySizeof ≠ 0 ∧
    (ccMemsizeptr (mem + memorySizeof) s.memory).toNat = s.live.size mem
  heap : ∀ mem, s.memory.heap mem ≠ none ↔ mem ∈ s.live.blocks

section Runs

variable [DecidableEq τ] {s : MemorySys τ}

theorem MemoryReach.accounted (h : MemoryReach s) (hq : s.Quiet) : s.Accounted := by
  have hfree : ∀ mem, s.Unowned mem := by
    intro mem t
    simp [hq t, MemoryPc.block]
  refine ⟨h.count_eq, h.size_eq, fun mem hm => ?_, fun mem => ?_⟩
  · obtain ⟨hh, hn⟩ := (h.inv.block mem).of_usable ⟨hm, hfree mem⟩
    refine ⟨hn.2, ?_⟩
    rw [ccMemsizeptr, if_neg hn.2, UInt64.add_sub_cancel]
    exact hh.size_toNat
  · constructor
    · intro hh
      cases h.inv.block mem with
      | unused _ _ hnone => exact absurd hnone hh
      | live _ hl => exact hl
      | allocated t _ _ hp => simp [hq t] at hp
      | resized t _ _ _ hp => simp [hq t] at hp
      | released t _ hp => simp [hq t] at hp
    · intro hm
      exact ((h.inv.block mem).of_usable ⟨hm, hfree mem⟩).1.ne_none

omit [DecidableEq τ] in
theorem MemorySys.step_of_returnsNull [DecidableEq τ] (s : MemorySys τ) (t : τ) {move : MemoryMove}
    (hr : MemorySys.ReturnsNull move) : s.step t move = s := by
  cases move with
  | malloc size mem => obtain rfl : mem = none := hr; rfl
  | calloc count size mem => obtain rfl : mem = none := hr; rfl
  | realloc ptr size mem =>
    obtain rfl : mem = none := hr
    by_cases hptr : ptr = 0 <;> simp [MemorySys.step, hptr, MemorySys.allocate]
  | release ptr => exact hr.elim
  | add => exact hr.elim
  | resize => exact hr.elim
  | free => exact hr.elim

theorem MemoryReach.noBorrow (h : MemoryReach s) {t : τ} {move : MemoryMove}
    (hl : s.Legal t move) : s.NoBorrow t move := by
  have hcount := h.count_eq
  have hsize := h.size_eq
  cases move with
  | release ptr =>
    intro hptr
    have hu := hl.2 hptr
    have hh := ((h.inv.block _).of_usable hu).1.size_toNat
    have hpos := SizeLedger.count_pos hu.1
    have hle := SizeLedger.size_le_total hu.1
    rw [UInt64.le_iff_toNat_le, UInt64.le_iff_toNat_le]
    exact ⟨by show 1 ≤ _; omega, by omega⟩
  | resize =>
    intro mem2 size1 n hpc
    obtain ⟨-, hm, hold, -⟩ := (h.inv.block mem2).of_resized hpc
    have hle := SizeLedger.size_le_total hm
    rw [UInt64.le_iff_toNat_le]
    omega
  | _ => trivial

/-- At every step of the threads the counters are the number and the sum of sizes of the live
blocks, and they never borrow; between calls the headers say the same, and what is allocated is
live. A call that returns NULL changes nothing. -/
theorem memory_accounting (h : MemoryReach s) :
    s.memory.memoryCount.toNat = s.live.count ∧ s.memory.memorySize.toNat = s.live.total ∧
      (s.Quiet → s.Accounted) ∧
      ∀ t move, s.Legal t move → s.NoBorrow t move ∧
        (MemorySys.ReturnsNull move → s.step t move = s) :=
  ⟨h.count_eq, h.size_eq, h.accounted,
    fun t _ hl => ⟨h.noBorrow hl, s.step_of_returnsNull t⟩⟩

/-- Two threads make a block each; one moves its block to 40 bytes while the other frees its own. -/
theorem memory_accounting_realloc : ∃ s : MemorySys (Fin 2), MemoryReach s ∧ s.Accounted ∧
    s.live.blocks = {400} ∧ s.live.total = 40 ∧ s.memory.memorySize = 40 := by
  have h₀ : MemoryReach (MemorySys.new : MemorySys (Fin 2)) := .new
  have h₁ := MemoryReach.step 0 (.malloc 5 (some 16)) h₀
    ⟨rfl, by decide, fun m hm => by
      obtain rfl := Option.some.inj hm
      exact ⟨rfl, by decide, by decide⟩⟩ (by decide)
  have h₂ := MemoryReach.step 1 (.calloc 10 10 (some 200)) h₁
    ⟨rfl, by decide, fun m hm => by
      obtain rfl := Option.some.inj hm
      exact ⟨rfl, by decide, by decide⟩⟩ (by decide)
  have h₃ := MemoryReach.step 0 .add h₂ trivial (by decide)
  have h₄ := MemoryReach.step 1 .add h₃ trivial (by decide)
  have h₅ := MemoryReach.step 0 (.realloc 24 40 (some 400)) h₄
    ⟨rfl, by decide, fun _ => ⟨by decide, by decide⟩, fun m hm => by
      obtain rfl := Option.some.inj hm
      exact .inl ⟨rfl, by decide, by decide⟩⟩ (by decide)
  have h₆ := MemoryReach.step 1 (.release 208) h₅ ⟨rfl, fun _ => ⟨by decide, by decide⟩⟩ (by decide)
  have h₇ := MemoryReach.step 0 .resize h₆ trivial (by decide)
  have h₈ := MemoryReach.step 1 .free h₇ trivial (by decide)
  refine ⟨_, h₈, (memory_accounting h₈).2.2.1 fun t => ?_, by decide, by decide, by decide⟩
  fin_cases t <;> rfl

end Runs

end LibCC
