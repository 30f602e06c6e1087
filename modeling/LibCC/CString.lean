import Mathlib

/-! C strings in a memory of bytes: strlen, vsnprintf into an array, and the conversion of a
size_t to an int. -/

namespace LibCC

/-- The conversion of a size_t to an int of 32 bits. -/
def intOfSize (n : Nat) : Int := (BitVec.ofNat 32 n).toInt

theorem intOfSize_of_lt {n : Nat} (h : n < 2 ^ 31) : intOfSize n = n := by
  rw [intOfSize, BitVec.toInt_ofNat']
  apply Int.bmod_eq_of_le <;> omega

/-- A C string, without the NUL that ends it. -/
@[ext] structure CString where
  bytes : List UInt8
  nulFree : (0 : UInt8) ∉ bytes

instance : DecidableEq CString := fun _ _ => decidable_of_iff _ CString.ext_iff.symm

namespace CString

def length (s : CString) : Nat := s.bytes.length

/-- What vsnprintf stores of the text in an array of `size` bytes. -/
def stored (size : Nat) (s : CString) : CString where
  bytes := s.bytes.take (size - 1)
  nulFree := fun h => s.nulFree (List.mem_of_mem_take h)

/-- The memory has the string and its NUL at `p`. -/
def At (s : CString) (mem : UInt64 → UInt8) (p : UInt64) : Prop :=
  ∀ i < s.length + 1, mem (p + UInt64.ofNat i) = (s.bytes ++ [0]).getD i 0

theorem stored_of_le {size : Nat} {s : CString} (h : s.length < size) : s.stored size = s := by
  apply CString.ext
  apply List.take_of_length_le
  unfold length at h
  omega

theorem stored_length_lt {size : Nat} (h : 0 < size) (s : CString) :
    (s.stored size).length < size := by
  show (s.bytes.take (size - 1)).length < size
  rw [List.length_take]
  omega

end CString

/-- The bytes before the first NUL of the `n` bytes from `p` on. -/
def strlenLoop (mem : UInt64 → UInt8) : Nat → UInt64 → Nat
  | 0, _ => 0
  | n + 1, p => if mem p = 0 then 0 else strlenLoop mem n (p + 1) + 1

def strlen (mem : UInt64 → UInt8) (p : UInt64) : Nat := strlenLoop mem (2 ^ 64) p

/-- The memory after vsnprintf has put the text in the array of `size` bytes at `buf`. -/
def vsnprintf (mem : UInt64 → UInt8) (buf : UInt64) (size : Nat) (text : CString) :
    UInt64 → UInt8 :=
  fun p => ((text.stored size).bytes ++ [0]).getD (p - buf).toNat (mem p)

theorem strlenLoop_eq {mem : UInt64 → UInt8} {l : List UInt8} (hl : (0 : UInt8) ∉ l) {n : Nat}
    (hn : l.length < n) {p : UInt64}
    (h : ∀ i < l.length + 1, mem (p + UInt64.ofNat i) = (l ++ [0]).getD i 0) :
    strlenLoop mem n p = l.length := by
  induction l generalizing n p with
  | nil =>
    obtain ⟨n, rfl⟩ := Nat.exists_eq_add_one.mpr hn
    have h0 : mem p = 0 := by simpa using h 0 (by simp)
    rw [strlenLoop, if_pos h0]
    rfl
  | cons b l ih =>
    obtain ⟨n, rfl⟩ := Nat.exists_eq_add_one.mpr (Nat.zero_lt_of_lt hn)
    have hb : mem p = b := by simpa using h 0 (by simp)
    have hne : ¬ mem p = 0 := by
      rw [hb]
      exact fun hc => hl (hc ▸ List.mem_cons_self)
    have htail : ∀ i < l.length + 1, mem (p + 1 + UInt64.ofNat i) = (l ++ [0]).getD i 0 := by
      intro i hi
      have hs := h (i + 1) (by simpa using hi)
      have hp : p + UInt64.ofNat (i + 1) = p + 1 + UInt64.ofNat i := by
        rw [UInt64.ofNat_add, add_comm (UInt64.ofNat i), add_assoc]
        rfl
      rw [hp] at hs
      rw [hs]
      simp
    rw [strlenLoop, if_neg hne,
      ih (fun hm => hl (List.mem_cons_of_mem b hm)) (by simpa using hn) htail, List.length_cons]

/-- A string ends before its addresses come round. -/
theorem CString.At.length_lt {s : CString} {mem : UInt64 → UInt8} {p : UInt64} (h : s.At mem p) :
    s.length < 2 ^ 64 := by
  by_contra hs
  have hlt : s.length - 2 ^ 64 < s.bytes.length := by
    show s.length - 2 ^ 64 < s.length
    omega
  have hend : mem (p + UInt64.ofNat s.length) = 0 := by
    rw [h s.length (Nat.lt_succ_self _)]
    show (s.bytes ++ [0]).getD s.bytes.length 0 = 0
    simp
  have hsame : UInt64.ofNat s.length = UInt64.ofNat (s.length - 2 ^ 64) := by
    apply UInt64.toNat_inj.mp
    rw [UInt64.toNat_ofNat', UInt64.toNat_ofNat']
    omega
  rw [hsame, h _ (by omega), List.getD_append _ _ _ _ hlt, List.getD_eq_getElem _ _ hlt] at hend
  exact s.nulFree (hend ▸ List.getElem_mem hlt)

theorem CString.At.strlen_eq {s : CString} {mem : UInt64 → UInt8} {p : UInt64} (h : s.At mem p) :
    strlen mem p = s.length := strlenLoop_eq s.nulFree h.length_lt h

theorem vsnprintf_at (mem : UInt64 → UInt8) (buf : UInt64) {size : Nat} (h0 : 0 < size)
    (hs : size < 2 ^ 64) (text : CString) :
    (text.stored size).At (vsnprintf mem buf size text) buf := by
  intro i hi
  have hlt := text.stored_length_lt h0
  have hoff : (buf + UInt64.ofNat i - buf).toNat = i := by
    rw [add_sub_cancel_left, UInt64.toNat_ofNat', Nat.mod_eq_of_lt (by omega)]
  have hlen : i < ((text.stored size).bytes ++ [0]).length := by
    rw [List.length_append]
    exact hi
  rw [vsnprintf, hoff, List.getD_eq_getElem _ _ hlen, List.getD_eq_getElem _ _ hlen]

end LibCC
