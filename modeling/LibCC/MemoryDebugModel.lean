import LibCC.FiniteTable
import LibCC.MemoryModel

/-! The tracker of cc_memory.c with MEMORY_DEBUG. Its maps are cc_maps made by
cc_map_newCMalloc, here the tables that cc_map refines, and its own allocations succeed. -/

namespace LibCC

def memoryNameLen : Nat := 64

/-- __func__ and __LINE__ of a call. -/
structure CallSite where
  func : List Char
  line : Nat
  deriving DecidableEq

/-- snprintf(name, CC_MEMORY_NAMELEN, "%s@%i", func, line) -/
def atorName (site : CallSite) : List Char :=
  (site.func ++ '@' :: (toString site.line).toList).take (memoryNameLen - 1)

/-- cc_pinfo_t; its cc_ator_t is known by the name that map_ator has for it. -/
structure Pinfo where
  atorRef : List Char
  ptr : UInt64
  size : UInt64

/-- cc_ator_t -/
structure Ator where
  mapPinfoRef : FiniteTable UInt64 Pinfo
  size : UInt64

/-- cc_meminfo_t -/
structure Meminfo where
  mapAtor : FiniteTable (List Char) Ator
  mapPinfo : FiniteTable UInt64 Pinfo

/-- What a table has at what is no key. -/
def noPinfo : Pinfo := ⟨[], 0, 0⟩

def atorNew : Ator := ⟨FiniteTable.empty noPinfo, 0⟩

def meminfoNew : Meminfo := ⟨FiniteTable.empty atorNew, FiniteTable.empty noPinfo⟩

/-- cc_ator_add: `none` when cc_map_addp finds the key. -/
def atorAdd (self : Ator) (pinfoRef : Pinfo) : Option Ator :=
  if pinfoRef.ptr ∈ self.mapPinfoRef.keys then none
  else some ⟨self.mapPinfoRef.put pinfoRef.ptr pinfoRef, self.size + pinfoRef.size⟩

def atorRem (self : Ator) (pinfoRef : Pinfo) : Ator :=
  if pinfoRef.ptr ∈ self.mapPinfoRef.keys then
    ⟨self.mapPinfoRef.remove pinfoRef.ptr, self.size - pinfoRef.size⟩
  else self

/-- cc_meminfo_add for the name of a call site. -/
def meminfoAdd (self : Meminfo) (name : List Char) (ptr size : UInt64) : Meminfo :=
  -- get ator
  let self :=
    if name ∈ self.mapAtor.keys then self
    else { self with mapAtor := self.mapAtor.put name atorNew }
  let ator := self.mapAtor.val name
  let pinfo : Pinfo := ⟨name, ptr, size⟩
  if ptr ∈ self.mapPinfo.keys then self
  else
    match atorAdd ator pinfo with
    | none => self
    | some ator => ⟨self.mapAtor.put name ator, self.mapPinfo.put ptr pinfo⟩

def meminfoRem (self : Meminfo) (ptr : UInt64) : Meminfo :=
  if ptr ∈ self.mapPinfo.keys then
    let pinfo := self.mapPinfo.val ptr
    let ator := atorRem (self.mapAtor.val pinfo.atorRef) pinfo
    ⟨self.mapAtor.put pinfo.atorRef ator, self.mapPinfo.remove ptr⟩
  else self

def meminfoMemcheckptr (self : Meminfo) (ptr : UInt64) : Int :=
  if ptr ∈ self.mapPinfo.keys then 1 else 0

def ccMemoryAdd (name : List Char) (ptr size : UInt64) (self : Meminfo) : Meminfo :=
  if ptr = 0 then self else meminfoAdd self name ptr size

def ccMemoryRem (ptr : UInt64) (self : Meminfo) : Meminfo :=
  if ptr = 0 then self else meminfoRem self ptr

/-- cc_memcheckptr_debug -/
def ccMemoryMemcheckptr (ptr : UInt64) (self : Meminfo) : Int :=
  if ptr = 0 then 1 else meminfoMemcheckptr self ptr

/-! What the tracker keeps: an allocator entry has exactly the pinfos that refer to it. -/

namespace Meminfo

/-- The pointers that are tracked for an allocator. -/
def tracked (self : Meminfo) (name : List Char) : Finset UInt64 :=
  {ptr ∈ self.mapPinfo.keys | (self.mapPinfo.val ptr).atorRef = name}

end Meminfo

structure MeminfoInv (info : Meminfo) : Prop where
  ptr : ∀ ptr ∈ info.mapPinfo.keys, (info.mapPinfo.val ptr).ptr = ptr
  named : ∀ ptr ∈ info.mapPinfo.keys, (info.mapPinfo.val ptr).atorRef ∈ info.mapAtor.keys
  keys : ∀ name ∈ info.mapAtor.keys,
    (info.mapAtor.val name).mapPinfoRef.keys = info.tracked name
  vals : ∀ name ∈ info.mapAtor.keys, ∀ ptr ∈ info.tracked name,
    (info.mapAtor.val name).mapPinfoRef.val ptr = info.mapPinfo.val ptr
  size : ∀ name ∈ info.mapAtor.keys, (info.mapAtor.val name).size =
    UInt64.ofNat (∑ ptr ∈ info.tracked name, (info.mapPinfo.val ptr).size.toNat)

theorem meminfoNew_inv : MeminfoInv meminfoNew := by
  refine ⟨?_, ?_, ?_, ?_, ?_⟩ <;> simp [meminfoNew, FiniteTable.empty]

theorem MeminfoInv.addAtor {self : Meminfo} (h : MeminfoInv self) {name : List Char}
    (hn : name ∉ self.mapAtor.keys) :
    MeminfoInv { self with mapAtor := self.mapAtor.put name atorNew } := by
  have hempty : ({ self with mapAtor := self.mapAtor.put name atorNew } : Meminfo).tracked name =
      ∅ := by
    apply Finset.filter_eq_empty_iff.mpr
    intro ptr hp he
    exact hn (he ▸ h.named ptr hp)
  have hother : ∀ n ∈ self.mapAtor.keys, n ≠ name := fun n hm => ne_of_mem_of_not_mem hm hn
  refine ⟨h.ptr, fun ptr hp => Finset.mem_insert_of_mem (h.named ptr hp), ?_, ?_, ?_⟩
  · intro n hm
    rcases Finset.mem_insert.mp hm with rfl | hm
    · rw [hempty]
      simp [atorNew, FiniteTable.empty]
    · simp only [FiniteTable.put_val, Function.update_of_ne (hother n hm)]
      exact h.keys n hm
  · intro n hm
    rcases Finset.mem_insert.mp hm with rfl | hm
    · rw [hempty]
      simp
    · simp only [FiniteTable.put_val, Function.update_of_ne (hother n hm)]
      exact h.vals n hm
  · intro n hm
    rcases Finset.mem_insert.mp hm with rfl | hm
    · rw [hempty]
      simp [atorNew]
    · simp only [FiniteTable.put_val, Function.update_of_ne (hother n hm)]
      exact h.size n hm

end LibCC
