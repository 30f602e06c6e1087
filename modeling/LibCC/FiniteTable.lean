import Mathlib

/-! Finite tables, as what a map is used for when only its keys and values matter. The value at
what is no key means nothing. -/

structure FiniteTable (κ ν : Type*) where
  keys : Finset κ
  val : κ → ν

namespace FiniteTable

variable {κ ν : Type*} [DecidableEq κ] {t : FiniteTable κ ν} {k : κ} {v : ν}

def empty (v : ν) : FiniteTable κ ν := ⟨∅, fun _ => v⟩

/-- A key that is new, or has a new value. -/
def put (t : FiniteTable κ ν) (k : κ) (v : ν) : FiniteTable κ ν :=
  ⟨insert k t.keys, Function.update t.val k v⟩

def remove (t : FiniteTable κ ν) (k : κ) : FiniteTable κ ν := ⟨t.keys.erase k, t.val⟩

def sum (t : FiniteTable κ ν) (f : ν → Nat) : Nat := ∑ k ∈ t.keys, f (t.val k)

@[simp] theorem put_keys (t : FiniteTable κ ν) (k : κ) (v : ν) :
    (t.put k v).keys = insert k t.keys := rfl

@[simp] theorem put_val (t : FiniteTable κ ν) (k : κ) (v : ν) :
    (t.put k v).val = Function.update t.val k v := rfl

@[simp] theorem remove_keys (t : FiniteTable κ ν) (k : κ) :
    (t.remove k).keys = t.keys.erase k := rfl

@[simp] theorem remove_val (t : FiniteTable κ ν) (k : κ) : (t.remove k).val = t.val := rfl

section Total

variable {M : Type*} [AddCommMonoid M]

def total (t : FiniteTable κ ν) (f : κ → ν → M) : M := ∑ k ∈ t.keys, f k (t.val k)

omit [DecidableEq κ] in
theorem total_congr {f g : κ → ν → M} (h : ∀ k ∈ t.keys, f k (t.val k) = g k (t.val k)) :
    t.total f = t.total g := Finset.sum_congr rfl h

theorem total_split (h : k ∈ t.keys) (f : κ → ν → M) :
    t.total f = f k (t.val k) + (t.remove k).total f := (Finset.add_sum_erase _ _ h).symm

theorem total_put (t : FiniteTable κ ν) (k : κ) (v : ν) (f : κ → ν → M) :
    (t.put k v).total f = f k v + (t.remove k).total f := by
  rw [total_split (Finset.mem_insert_self k t.keys) f, put_val, Function.update_self]
  have hkeys : (t.put k v).keys.erase k = t.keys.erase k := Finset.erase_insert_eq_erase t.keys k
  congr 1
  rw [total, total, remove_keys, hkeys]
  apply Finset.sum_congr rfl
  intro j hj
  rw [remove_val, put_val, Function.update_of_ne (Finset.ne_of_mem_erase hj), remove_val]

theorem total_remove (h : k ∉ t.keys) (f : κ → ν → M) : (t.remove k).total f = t.total f := by
  rw [total, remove_keys, Finset.erase_eq_of_notMem h]
  rfl

end Total

end FiniteTable
