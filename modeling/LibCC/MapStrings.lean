import LibCC.CString
import LibCC.MapTable

/-! The calls of cc_map that take strings: cc_map_find and cc_map_add with the string of the
caller, cc_map_findf and cc_map_addf with what an array holds of a text. -/

namespace LibCC

open SequenceFamily

variable {V : Type}

/-- cc_map_find, with no result where the int of the length is negative. -/
def mapFind (hashFn : UInt32 → List UInt8 → UInt32) (mem : UInt64 → UInt8) (self : CcMap V)
    (key : UInt64) : Option (Option IterPtr) :=
  let len := intOfSize (strlen mem key + 1)
  if len < 0 then none else some (mapFindp hashFn mem self len.toNat key)

/-- cc_map_findf with its array at `key` and the text that the format makes. -/
def mapFindf (hashFn : UInt32 → List UInt8 → UInt32) (mem : UInt64 → UInt8) (self : CcMap V)
    (key : UInt64) (text : CString) : Option (Option IterPtr) :=
  let mem := vsnprintf mem key mapKeyLen text
  let len := intOfSize (strlen mem key + 1)
  if len < 0 then none else some (mapFindp hashFn mem self len.toNat key)

def mapAdd (hashFn : UInt32 → List UInt8 → UInt32) (mem : UInt64 → UInt8) (self : CcMap V)
    (val : V) (key : UInt64) (alloc : MapAlloc) : Option (Option IterPtr × CcMap V) :=
  let len := intOfSize (strlen mem key + 1)
  if len < 0 then none else some (mapAddp hashFn mem self val len.toNat key alloc)

def mapAddf (hashFn : UInt32 → List UInt8 → UInt32) (mem : UInt64 → UInt8) (self : CcMap V)
    (val : V) (key : UInt64) (text : CString) (alloc : MapAlloc) :
    Option (Option IterPtr × CcMap V) :=
  let mem := vsnprintf mem key mapKeyLen text
  let len := intOfSize (strlen mem key + 1)
  if len < 0 then none else some (mapAddp hashFn mem self val len.toNat key alloc)

namespace CString

/-- The bytes that a map stores for a string, when it can. -/
def key? (s : CString) : Option MapKey :=
  if h : s.length < mapKeyLen then
    some ⟨s.bytes ++ [0], by simp, by rw [List.length_append]; exact h⟩
  else none

/-- The string is short enough, or the int of its size still says that it is too long. -/
def IntFits (s : CString) : Prop :=
  s.length < mapKeyLen ∨ (mapKeyLen : Int) < intOfSize (s.length + 1)

/-- What is left of a string in the array of a formatted call. -/
def inArray (s : CString) : CString := s.stored mapKeyLen

theorem key?_inj {s t : CString} {k : MapKey} (hs : s.key? = some k) (ht : t.key? = some k) :
    s = t := by
  unfold key? at hs ht
  split_ifs at hs ht
  have he : s.bytes ++ [0] = t.bytes ++ [0] :=
    (congrArg MapKey.bytes (Option.some.inj hs)).trans
      (congrArg MapKey.bytes (Option.some.inj ht)).symm
  exact CString.ext (List.append_cancel_right he)

theorem key?_eq_none {s : CString} : s.key? = none ↔ mapKeyLen ≤ s.length := by
  unfold key?
  split_ifs with h
  · simp [h]
  · simpa using h

theorem inArray_length_lt (s : CString) : s.inArray.length < mapKeyLen :=
  stored_length_lt (by decide) s

theorem inArray_of_lt {s : CString} (h : s.length < mapKeyLen) : s.inArray = s :=
  stored_of_le h

theorem inArray_at (mem : UInt64 → UInt8) (p : UInt64) (s : CString) :
    s.inArray.At (vsnprintf mem p mapKeyLen s) p := vsnprintf_at mem p (by decide) (by decide) s

end CString

/-- cc_map_findp and cc_map_addp look up the key of a string. -/
theorem mapKeyBytes_string {s : CString} {mem : UInt64 → UInt8} {p : UInt64} (h : s.At mem p)
    (hs : s.IntFits) :
    0 ≤ intOfSize (strlen mem p + 1) ∧
      mapKeyBytes mem (intOfSize (strlen mem p + 1)).toNat p = s.key? := by
  rw [h.strlen_eq]
  by_cases hlt : s.length < mapKeyLen
  · have hlen : intOfSize (s.length + 1) = (s.length + 1 : Nat) := by
      apply intOfSize_of_lt
      simp only [mapKeyLen] at hlt
      omega
    have hle : ¬ s.length + 1 > mapKeyLen := by omega
    rw [hlen, Int.toNat_natCast, mapKeyBytes, dif_neg hle, dif_neg (Nat.succ_ne_zero _),
      CString.key?, dif_pos hlt]
    refine ⟨Int.natCast_nonneg _, congrArg some ?_⟩
    rw [MapKey.mk.injEq]
    apply List.ext_getElem
    · simp [CString.length]
    · intro i hi hi'
      rw [List.getElem_map, List.getElem_range, h i (by simpa using hi),
        List.getD_eq_getElem _ _ hi']
  · have hgt := hs.resolve_left hlt
    refine ⟨(Int.natCast_nonneg mapKeyLen).trans hgt.le, ?_⟩
    have hlong : (intOfSize (s.length + 1)).toNat > mapKeyLen := by omega
    rw [mapKeyBytes, dif_pos hlong, CString.key?, dif_neg hlt]

/-- cc_map_findp with the key of a string, or NULL for a string that is too long. -/
def mapFindString (hashFn : UInt32 → List UInt8 → UInt32) (self : CcMap V) (s : CString) :
    Option IterPtr :=
  s.key?.bind fun k => mapFindHash self (hashFn self.seed k.bytes) k

def mapAddString (hashFn : UInt32 → List UInt8 → UInt32) (self : CcMap V) (val : V) (s : CString)
    (alloc : MapAlloc) : Option IterPtr × CcMap V :=
  match s.key? with
  | none => (none, self)
  | some k => mapAddHash self val (hashFn self.seed k.bytes) k alloc

section

variable {hashFn : UInt32 → List UInt8 → UInt32} {mem : UInt64 → UInt8} {self : CcMap V}

theorem mapFind_eq {s : CString} {p : UInt64} (h : s.At mem p) (hs : s.IntFits) :
    mapFind hashFn mem self p = some (mapFindString hashFn self s) := by
  obtain ⟨h0, hk⟩ := mapKeyBytes_string h hs
  rw [mapFind, if_neg (not_lt.mpr h0), mapFindp, hk, mapFindString]
  cases s.key? <;> rfl

theorem mapAdd_eq {s : CString} {p : UInt64} (h : s.At mem p) (hs : s.IntFits) (val : V)
    (alloc : MapAlloc) :
    mapAdd hashFn mem self val p alloc = some (mapAddString hashFn self val s alloc) := by
  obtain ⟨h0, hk⟩ := mapKeyBytes_string h hs
  rw [mapAdd, if_neg (not_lt.mpr h0), mapAddp, hk]
  unfold mapAddString
  cases s.key? with
  | none => rfl
  | some k => rfl

theorem mapFindf_eq (p : UInt64) (s : CString) :
    mapFindf hashFn mem self p s = some (mapFindString hashFn self s.inArray) :=
  mapFind_eq (s.inArray_at mem p) (.inl s.inArray_length_lt)

theorem mapAddf_eq (p : UInt64) (s : CString) (val : V) (alloc : MapAlloc) :
    mapAddf hashFn mem self val p s alloc =
      some (mapAddString hashFn self val s.inArray alloc) :=
  mapAdd_eq (s.inArray_at mem p) (.inl s.inArray_length_lt) val alloc

end

end LibCC
