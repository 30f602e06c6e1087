import LibCC.MemoryMirror

/-! What the tracker says between calls. cc_realloc_debug gives a block that it could not resize
back to the tracker with the size that failed, so a failure must not ask for another size. -/

namespace LibCC

variable {τ : Type}

/-- The tracker has exactly the live pointers, each with its size and one allocator entry, and the
allocator entries add up to cc_memsize. -/
structure DebugSys.Mirrors (s : DebugSys τ) : Prop where
  keys : ∀ ptr, ptr ∈ s.meminfo.mapPinfo.keys ↔ ptr - memorySizeof ∈ s.base.live.blocks
  size : ∀ ptr ∈ s.meminfo.mapPinfo.keys,
    (s.meminfo.mapPinfo.val ptr).size.toNat = s.base.live.size (ptr - memorySizeof)
  ator : ∀ ptr ∈ s.meminfo.mapPinfo.keys, ∃! name, name ∈ s.meminfo.mapAtor.keys ∧
    ptr ∈ (s.meminfo.mapAtor.val name).mapPinfoRef.keys
  sums : ∀ name ∈ s.meminfo.mapAtor.keys, (s.meminfo.mapAtor.val name).size.toNat =
    (s.meminfo.mapAtor.val name).mapPinfoRef.sum fun pinfo => pinfo.size.toNat
  total : (s.meminfo.mapAtor.sum fun ator => ator.size.toNat) = (ccMemsize s.base.memory).toNat
  check : ∀ ptr, ccMemoryMemcheckptr ptr s.meminfo = 1 ↔
    ptr = 0 ∨ ptr - memorySizeof ∈ s.base.live.blocks

theorem DebugInv.sum_eq {s : DebugSys τ} (h : DebugInv s)
    (hkeys : ∀ ptr, ptr ∈ s.meminfo.mapPinfo.keys ↔ ptr - memorySizeof ∈ s.base.live.blocks) :
    (s.meminfo.mapPinfo.sum fun pinfo => pinfo.size.toNat) = s.base.live.total := by
  have hsizes : (s.meminfo.mapPinfo.sum fun pinfo => pinfo.size.toNat) =
      ∑ ptr ∈ s.meminfo.mapPinfo.keys, s.base.live.size (ptr - memorySizeof) :=
    Finset.sum_congr rfl h.size
  rw [hsizes]
  apply Finset.sum_nbij' (fun ptr => ptr - memorySizeof) (fun mem => mem + memorySizeof)
  · exact fun ptr hp => (hkeys ptr).mp hp
  · intro mem hm
    rw [hkeys, UInt64.add_sub_cancel]
    exact hm
  · exact fun ptr _ => UInt64.sub_add_cancel ..
  · exact fun mem _ => UInt64.add_sub_cancel ..
  · exact fun _ _ => rfl

theorem MeminfoInv.ator_sum {info : Meminfo} (h : MeminfoInv info) {name : List Char}
    (hn : name ∈ info.mapAtor.keys) :
    ((info.mapAtor.val name).mapPinfoRef.sum fun pinfo => pinfo.size.toNat) =
      ∑ ptr ∈ info.tracked name, (info.mapPinfo.val ptr).size.toNat := by
  rw [FiniteTable.sum, h.keys name hn]
  apply Finset.sum_congr rfl
  intro ptr hp
  rw [h.vals name hn ptr hp]

theorem DebugInv.mirrors {s : DebugSys τ} (h : DebugInv s) (hfits : s.base.live.total < 2 ^ 64)
    (hq : s.Quiet) : s.Mirrors := by
  have hkeys : ∀ ptr, ptr ∈ s.meminfo.mapPinfo.keys ↔
      ptr - memorySizeof ∈ s.base.live.blocks := by
    have hnone : ∀ t, (s.pc t).untracked = none := by
      intro t
      rw [hq t]
      rfl
    intro ptr
    rw [h.tracked]
    simp [hnone]
  have hsum := h.sum_eq hkeys
  have hfiber := h.info.sum_ators
  have hator : ∀ name ∈ s.meminfo.mapAtor.keys, (s.meminfo.mapAtor.val name).size.toNat =
      ∑ ptr ∈ s.meminfo.tracked name, (s.meminfo.mapPinfo.val ptr).size.toNat := by
    intro name hn
    refine SizeLedger.follows_toNat (h.info.size name hn) (lt_of_le_of_lt ?_ hfits)
    rw [← hsum, ← hfiber]
    exact Finset.single_le_sum (f := fun name =>
      ∑ ptr ∈ s.meminfo.tracked name, (s.meminfo.mapPinfo.val ptr).size.toNat)
      (fun _ _ => Nat.zero_le _) hn
  have hzero : (0 : UInt64) - memorySizeof ∉ s.base.live.blocks := by
    intro hm
    have hidle : s.base.pc = fun _ => .idle := by
      funext t
      have hagrees := h.agrees t
      rw [hq t] at hagrees
      exact hagrees
    have hn := ((h.base.block _).of_usable ⟨hm, by simp [hidle, MemoryPc.block]⟩).2
    exact hn.2 (UInt64.sub_add_cancel ..)
  refine ⟨hkeys, h.size, fun ptr hp => ?_, fun name hn => ?_, ?_, fun ptr => ?_⟩
  · refine ⟨(s.meminfo.mapPinfo.val ptr).atorRef, ⟨h.info.named ptr hp, ?_⟩, ?_⟩
    · rw [h.info.keys _ (h.info.named ptr hp)]
      exact Meminfo.mem_tracked.mpr ⟨hp, rfl⟩
    · rintro name ⟨hn, hm⟩
      rw [h.info.keys name hn] at hm
      exact (Meminfo.mem_tracked.mp hm).2.symm
  · rw [hator name hn, h.info.ator_sum hn]
  · rw [ccMemsize, SizeLedger.follows_toNat h.base.size hfits, ← hsum, ← hfiber]
    exact Finset.sum_congr rfl hator
  · by_cases hptr : ptr = 0
    · simp [ccMemoryMemcheckptr, hptr]
    · simp [ccMemoryMemcheckptr, meminfoMemcheckptr, hptr, hkeys]

section Runs

variable [DecidableEq τ] {s : DebugSys τ}

/-- In a run in which no block keeps its place because another size failed, the tracker mirrors
the heap whenever no call is in progress. -/
theorem memory_debug_mirrors (h : DebugReach DebugSys.KeepsSize s) (hq : s.Quiet) : s.Mirrors :=
  h.inv.mirrors h.fits hq

/-- One thread reallocates its block twice, the second time in vain and to the same size. -/
theorem memory_debug_mirrors_kept : ∃ s : DebugSys Unit, DebugReach DebugSys.KeepsSize s ∧
    s.Mirrors ∧ s.base.live.blocks = {64} ∧ s.base.live.size 64 = 9 := by
  have h₁ := DebugReach.step () (.malloc ⟨['f'], 1⟩ 5 (some 16))
    (.new : DebugReach DebugSys.KeepsSize (DebugSys.new : DebugSys Unit))
    ⟨rfl, by decide, fun m hm => by
      obtain rfl := Option.some.inj hm
      exact ⟨rfl, by decide, by decide⟩⟩ trivial (by decide)
  have h₂ := DebugReach.step () .added h₁ trivial trivial (by decide)
  have h₃ := DebugReach.step () .track h₂ trivial trivial (by decide)
  -- a reallocation that moves the block
  have h₄ := DebugReach.step () (.realloc ⟨['f'], 2⟩ 24 9) h₃
    ⟨rfl, by decide, fun _ => ⟨by decide, by decide⟩⟩ trivial (by decide)
  have h₅ := DebugReach.step () (.reallocated (some 64)) h₄
    (fun _ _ _ _ m hm => by
      obtain rfl := Option.some.inj hm
      exact .inl ⟨rfl, by decide, by decide⟩) trivial (by decide)
  have h₆ := DebugReach.step () .resized h₅ trivial trivial (by decide)
  have h₇ := DebugReach.step () .track h₆ trivial trivial (by decide)
  -- one to the size that the block has, which fails
  have h₈ := DebugReach.step () (.realloc ⟨['f'], 3⟩ 72 9) h₇
    ⟨rfl, by decide, fun _ => ⟨by decide, by decide⟩⟩ trivial (by decide)
  have h₉ := DebugReach.step () (.reallocated none) h₈ (fun _ _ _ _ _ hm => by simp at hm)
    (fun name ptr size hpc _ => by
      injection hpc with _ hptr hsize
      rw [← hptr, ← hsize]
      decide) (by decide)
  have h₁₀ := DebugReach.step () .track h₉ trivial trivial (by decide)
  exact ⟨_, h₁₀, memory_debug_mirrors h₁₀ (fun _ => rfl), by decide, by decide⟩

/-- After cc_malloc_debug of 5 bytes and a cc_realloc_debug to 100 bytes that fails, the tracker
says 100 bytes for a block of 5. -/
theorem memory_debug_failed_realloc :
    ∃ s : DebugSys Unit, DebugReach (fun _ _ _ => True) s ∧ s.Quiet ∧ ¬ s.Mirrors := by
  have h1 := DebugReach.step () (.malloc ⟨['f'], 1⟩ 5 (some 16))
    (.new : DebugReach (fun _ _ _ => True) (DebugSys.new : DebugSys Unit))
    ⟨rfl, by decide, fun m hm => by
      obtain rfl := Option.some.inj hm
      exact ⟨rfl, by decide, by decide⟩⟩ trivial (by show (0 : Nat) < _; decide)
  have h2 := DebugReach.step () .added h1 trivial trivial (by show (5 : Nat) < _; decide)
  have h3 := DebugReach.step () .track h2 trivial trivial (by show (5 : Nat) < _; decide)
  have h4 := DebugReach.step () (.realloc ⟨['f'], 2⟩ 24 100) h3
    ⟨rfl, by decide, fun _ => ⟨by decide, fun _ => by show (none : Option UInt64) ≠ _; decide⟩⟩
    trivial (by show (5 : Nat) < _; decide)
  have h5 := DebugReach.step () (.reallocated none) h4 (fun _ _ _ _ _ hm => by simp at hm) trivial
    (by show (5 : Nat) < _; decide)
  have h6 := DebugReach.step () .track h5 trivial trivial (by show (5 : Nat) < _; decide)
  refine ⟨_, h6, fun _ => rfl, fun hm => ?_⟩
  have hkey := (hm.keys 24).mpr (by decide)
  have hsize := hm.size 24 hkey
  exact absurd hsize (by show (100 : Nat) ≠ 5; decide)

end Runs

end LibCC
