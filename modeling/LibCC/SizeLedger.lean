import Mathlib

/-! A ledger of live blocks with a size for each, and machine counters that follow its sums
modulo the range of their type. -/

structure SizeLedger (α : Type*) where
  blocks : Finset α
  size : α → Nat

namespace SizeLedger

variable {α : Type*} [DecidableEq α] {l : SizeLedger α} {a b : α} {n : Nat}

def empty : SizeLedger α := ⟨∅, fun _ => 0⟩

def count (l : SizeLedger α) : Nat := l.blocks.card

def total (l : SizeLedger α) : Nat := ∑ a ∈ l.blocks, l.size a

/-- A block that is new, or has a new size. -/
def enter (l : SizeLedger α) (a : α) (n : Nat) : SizeLedger α :=
  ⟨insert a l.blocks, Function.update l.size a n⟩

def leave (l : SizeLedger α) (a : α) : SizeLedger α := ⟨l.blocks.erase a, l.size⟩

@[simp] theorem size_enter_self (l : SizeLedger α) (a : α) (n : Nat) :
    (l.enter a n).size a = n := Function.update_self ..

omit [DecidableEq α] in
theorem size_le_total (h : a ∈ l.blocks) : l.size a ≤ l.total :=
  Finset.single_le_sum (fun _ _ => Nat.zero_le _) h

omit [DecidableEq α] in
theorem count_pos (h : a ∈ l.blocks) : 0 < l.count := Finset.card_pos.mpr ⟨a, h⟩

theorem count_leave (h : a ∈ l.blocks) : (l.leave a).count + 1 = l.count :=
  Finset.card_erase_add_one h

theorem total_leave (h : a ∈ l.blocks) : (l.leave a).total + l.size a = l.total :=
  Finset.sum_erase_add _ _ h

theorem count_enter (h : a ∉ l.blocks) : (l.enter a n).count = l.count + 1 :=
  Finset.card_insert_of_notMem h

theorem count_enter_of_mem (h : a ∈ l.blocks) : (l.enter a n).count = l.count := by
  simp only [count, enter, Finset.insert_eq_of_mem h]

theorem total_enter (h : a ∉ l.blocks) : (l.enter a n).total = l.total + n := by
  have hrest : ∑ b ∈ l.blocks, Function.update l.size a n b = l.total := by
    apply Finset.sum_congr rfl
    intro b hb
    exact Function.update_of_ne (ne_of_mem_of_not_mem hb h) _ _
  rw [total]
  show ∑ b ∈ insert a l.blocks, Function.update l.size a n b = _
  rw [Finset.sum_insert h, hrest, Function.update_self, Nat.add_comm]

theorem total_enter_of_mem (h : a ∈ l.blocks) : (l.enter a n).total + l.size a = l.total + n := by
  have hleave := total_leave h
  have henter : ((l.leave a).enter a n).total = (l.leave a).total + n :=
    total_enter (by simp [leave])
  have hsame : (l.leave a).enter a n = l.enter a n := by
    simp only [enter, leave, Finset.insert_erase h, Finset.insert_eq_of_mem h]
  rw [hsame] at henter
  omega

/-- A block that moves keeps its size. -/
def move (l : SizeLedger α) (a b : α) : SizeLedger α := (l.leave a).enter b (l.size a)

theorem count_move (h : a ∈ l.blocks) (hb : b = a ∨ b ∉ l.blocks) :
    (l.move a b).count = l.count := by
  have hb' : b ∉ (l.leave a).blocks := by
    rcases hb with rfl | hb
    · simp [leave]
    · exact fun hm => hb (Finset.mem_of_mem_erase hm)
  rw [move, count_enter hb', count_leave h]

theorem total_move (h : a ∈ l.blocks) (hb : b = a ∨ b ∉ l.blocks) :
    (l.move a b).total = l.total := by
  have hb' : b ∉ (l.leave a).blocks := by
    rcases hb with rfl | hb
    · simp [leave]
    · exact fun hm => hb (Finset.mem_of_mem_erase hm)
  rw [move, total_enter hb', total_leave h]

section Counters

variable {c : UInt64} {m k : Nat}

theorem follows_add (h : c = UInt64.ofNat m) (d : UInt64) (hm : k = m + d.toNat) :
    c + d = UInt64.ofNat k := by
  subst hm h
  rw [UInt64.ofNat_add, UInt64.ofNat_toNat]

theorem follows_sub (h : c = UInt64.ofNat m) (d : UInt64) (hm : k + d.toNat = m) :
    c - d = UInt64.ofNat k := by
  subst hm h
  rw [UInt64.ofNat_add, UInt64.ofNat_toNat, UInt64.add_sub_cancel]

theorem follows_toNat (h : c = UInt64.ofNat m) (hm : m < 2 ^ 64) : c.toNat = m := by
  rw [h]
  exact UInt64.toNat_ofNat_of_lt' hm

end Counters

/-- As many blocks as there are addresses but one are not too many for a 64-bit counter. -/
theorem count_lt {l : SizeLedger UInt64} (h : (0 : UInt64) ∉ l.blocks) : l.count < 2 ^ 64 := by
  have hsub : (insert 0 l.blocks).image UInt64.toNat ⊆ Finset.range (2 ^ 64) := by
    intro n hn
    obtain ⟨a, -, rfl⟩ := Finset.mem_image.mp hn
    exact Finset.mem_range.mpr a.toNat_lt
  have hcard := Finset.card_le_card hsub
  rw [Finset.card_image_of_injective _ (fun a b he => UInt64.toNat_inj.mp he), Finset.card_range,
    Finset.card_insert_of_notMem h] at hcard
  exact hcard

end SizeLedger
