import Mathlib

/-! Searching a strictly ascending sequence whose elements fall into classes,
where a larger element is never of a smaller class. Each class is then one
interval of the sequence, and `first` is where it begins. -/

namespace SortedSearch

variable {P R : Type*} [LinearOrder R]

def Ascending (rank : P → R) (l : List P) : Prop := l.Pairwise (fun a b => rank a < rank b)

/-- The classes ascend with the ranks. -/
def Graded (rank : P → R) (cls : P → Nat) : Prop := ∀ a b, rank a < rank b → cls a ≤ cls b

def first (cls : P → Nat) (i : Nat) (l : List P) : Option P := l.find? (fun x => cls x = i)

omit [LinearOrder R] in
theorem find?_congr {p q : P → Bool} {l : List P} (h : ∀ x ∈ l, p x = q x) :
    l.find? p = l.find? q := by
  induction l with
  | nil => rfl
  | cons x l ih =>
    simp only [List.find?_cons, h x (by simp), ih (fun y hy => h y (by simp [hy]))]

theorem find?_split {p : P → Bool} {x : P} {l : List P} (h : l.find? p = some x) :
    ∃ a b, l = a ++ x :: b ∧ p x = true ∧ ∀ y ∈ a, p y = false := by
  obtain ⟨hx, a, b, hl, ha⟩ := List.find?_eq_some_iff_append.mp h
  exact ⟨a, b, hl, hx, fun y hy => by simpa using ha y hy⟩

theorem find?_append_right {p : P → Bool} {a : List P} (h : ∀ y ∈ a, p y = false) (b : List P) :
    (a ++ b).find? p = b.find? p := by
  rw [List.find?_append, List.find?_eq_none.mpr (fun y hy => by simp [h y hy]), Option.none_or]

section Rank

variable {rank : P → R}

theorem Ascending.nodup {l : List P} (h : Ascending rank l) : l.Nodup :=
  h.imp (fun hlt he => hlt.ne (congrArg rank he))

theorem Ascending.sublist {l l' : List P} (h : Ascending rank l) (hs : l'.Sublist l) :
    Ascending rank l' := List.Pairwise.sublist hs h

theorem Ascending.tail {x : P} {l : List P} (h : Ascending rank (x :: l)) : Ascending rank l :=
  (List.pairwise_cons.mp h).2

theorem Ascending.head_lt {x : P} {l : List P} (h : Ascending rank (x :: l)) :
    ∀ y ∈ l, rank x < rank y :=
  (List.pairwise_cons.mp h).1

theorem Ascending.congr {rank' : P → R} {l : List P} (h : Ascending rank l)
    (hr : ∀ y ∈ l, rank' y = rank y) : Ascending rank' l := by
  refine List.Pairwise.imp_of_mem (fun {a b} ha hb hlt => ?_) h
  rw [hr a ha, hr b hb]
  exact hlt

theorem Ascending.insert {a b : List P} {x : P} (h : Ascending rank (a ++ b))
    (ha : ∀ y ∈ a, rank y < rank x) (hb : ∀ y ∈ b, rank x < rank y) :
    Ascending rank (a ++ x :: b) := by
  obtain ⟨h₁, h₂, h₃⟩ := List.pairwise_append.mp h
  apply List.pairwise_append.mpr
  refine ⟨h₁, List.pairwise_cons.mpr ⟨hb, h₂⟩, fun y hy z hz => ?_⟩
  rcases List.mem_cons.mp hz with rfl | hz
  · exact ha y hy
  · exact h₃ y hy z hz

/-- A rank that no element has divides the sequence in two, the second part
from the first larger element on. -/
theorem Ascending.divide {l : List P} (h : Ascending rank l) {t : R} (ht : ∀ y ∈ l, rank y ≠ t) :
    ∃ a b, l = a ++ b ∧ b.head? = l.find? (fun y => t < rank y) ∧ (∀ y ∈ a, rank y < t) ∧
      ∀ y ∈ b, t < rank y := by
  induction l with
  | nil => exact ⟨[], [], rfl, rfl, by simp, by simp⟩
  | cons x l ih =>
    have hx := ht x (by simp)
    by_cases hlt : t < rank x
    · refine ⟨[], x :: l, rfl, by simp [hlt], by simp, ?_⟩
      intro y hy
      rcases List.mem_cons.mp hy with rfl | hy
      · exact hlt
      · exact hlt.trans (h.head_lt y hy)
    · obtain ⟨a, b, hab, hb, hlo, hhi⟩ := ih h.tail (fun y hy => ht y (by simp [hy]))
      refine ⟨x :: a, b, by simp [hab], by simp [hb, hlt], ?_, hhi⟩
      intro y hy
      rcases List.mem_cons.mp hy with rfl | hy
      · exact lt_of_le_of_ne (not_lt.mp hlt) hx
      · exact hlo y hy

theorem Ascending.find?_rank {l : List P} (h : Ascending rank l) {x : P} (hx : x ∈ l) :
    l.find? (fun y => rank y = rank x) = some x := by
  induction l with
  | nil => simp at hx
  | cons y l ih =>
    rcases List.mem_cons.mp hx with rfl | hx
    · simp
    · have hne : rank y ≠ rank x := (h.head_lt x hx).ne
      simpa [hne] using ih h.tail hx

theorem Ascending.rank_inj {l : List P} (h : Ascending rank l) {x y : P} (hx : x ∈ l) (hy : y ∈ l)
    (he : rank x = rank y) : x = y := by
  have hfx := h.find?_rank hx
  rw [he, h.find?_rank hy] at hfx
  exact (Option.some.inj hfx).symm

/-- A strictly ascending sequence is determined by its elements. -/
theorem Ascending.eq_of_mem {l l' : List P} (h : Ascending rank l) (h' : Ascending rank l')
    (hm : ∀ x, x ∈ l ↔ x ∈ l') : l = l' := by
  have hperm := (List.perm_ext_iff_of_nodup h.nodup h'.nodup).mpr hm
  exact hperm.eq_of_pairwise (fun _ _ _ _ hab hba => absurd hab hba.not_gt) h h'

end Rank

section Class

variable {cls : P → Nat}

theorem first_none {i : Nat} {l : List P} : first cls i l = none ↔ ∀ y ∈ l, cls y ≠ i := by
  simp [first]

theorem first_congr {cls' : P → Nat} {l : List P} (h : ∀ y ∈ l, cls' y = cls y) (i : Nat) :
    first cls' i l = first cls i l :=
  find?_congr (fun y hy => by rw [h y hy])

theorem first_mem {i : Nat} {l : List P} {x : P} (h : first cls i l = some x) : x ∈ l :=
  List.mem_of_find?_eq_some h

theorem first_append_right {i : Nat} {a : List P} (h : ∀ y ∈ a, cls y ≠ i) (b : List P) :
    first cls i (a ++ b) = first cls i b :=
  find?_append_right (fun y hy => by simpa using h y hy) b

theorem first_append_left {i : Nat} {a : List P} {y : P} (hy : y ∈ a) (hi : cls y = i)
    (b b' : List P) : first cls i (a ++ b) = first cls i (a ++ b') ∧
      ∃ z ∈ a, first cls i (a ++ b) = some z := by
  obtain ⟨z, hz⟩ := Option.isSome_iff_exists.mp
    (List.find?_isSome.mpr ⟨y, hy, by simpa using hi⟩ : (first cls i a).isSome)
  have hh : ∀ c, first cls i (a ++ c) = some z := by
    intro c
    have ha : List.find? (fun x => decide (cls x = i)) a = some z := hz
    rw [first, List.find?_append, ha, Option.some_or]
  exact ⟨(hh b).trans (hh b').symm, z, first_mem hz, hh b⟩

theorem first_skip {i : Nat} {a b : List P} {x : P} (hx : cls x ≠ i) :
    first cls i (a ++ x :: b) = first cls i (a ++ b) := by
  simp [first, List.find?_append, hx]

variable {rank : P → R}

theorem Ascending.cls_le (hg : Graded rank cls) {x : P} {l : List P}
    (h : Ascending rank (x :: l)) : ∀ y ∈ l, cls x ≤ cls y :=
  fun y hy => hg x y (h.head_lt y hy)

/-- The first element of an interval, when the sequence begins no later
than the interval. -/
theorem Ascending.first_head (hg : Graded rank cls) {l : List P} (h : Ascending rank l) {i : Nat}
    (hi : ∀ y ∈ l, i ≤ cls y) : first cls i l = l.head?.filter (fun x => cls x = i) := by
  cases l with
  | nil => rfl
  | cons x l =>
    by_cases hx : cls x = i
    · simp [first, Option.filter, hx]
    · have hxi := hi x (by simp)
      have hn : first cls i (x :: l) = none := by
        apply first_none.mpr
        intro y hy
        rcases List.mem_cons.mp hy with rfl | hy
        · exact hx
        · have := h.cls_le hg y hy
          omega
      simp [hn, Option.filter, hx]

variable [DecidableEq P]

theorem Ascending.first_insert (hg : Graded rank cls) {a b : List P} {x : P}
    (h : Ascending rank (a ++ x :: b)) :
    first cls (cls x) (a ++ x :: b) =
      if first cls (cls x) (a ++ b) = none ∨
          (b.head? ≠ none ∧ first cls (cls x) (a ++ b) = b.head?)
      then some x else first cls (cls x) (a ++ b) := by
  obtain ⟨_, hxb, hab⟩ := List.pairwise_append.mp h
  by_cases ha : ∃ y ∈ a, cls y = cls x
  · obtain ⟨y, hy, hc⟩ := ha
    obtain ⟨he, z, hz, hs⟩ := first_append_left hy hc b (x :: b)
    have hne : b.head? ≠ some z := by
      intro hb
      have := hab z hz z (by simp [List.mem_of_mem_head? hb])
      exact this.false
    simp [← he, hs, Ne.symm hne]
  · have hna : ∀ y ∈ a, cls y ≠ cls x := fun y hy hc => ha ⟨y, hy, hc⟩
    have hb : first cls (cls x) b = b.head?.filter (fun y => cls y = cls x) :=
      (Ascending.tail hxb).first_head hg (Ascending.cls_le hg hxb)
    rw [first_append_right hna, first_append_right hna, hb]
    cases hh : b.head? with
    | none => simp [first]
    | some y => by_cases hy : cls y = cls x <;> simp [first, Option.filter, hy]

theorem Ascending.first_erase (hg : Graded rank cls) {a b : List P} {x : P}
    (h : Ascending rank (a ++ x :: b)) :
    first cls (cls x) (a ++ b) =
      if first cls (cls x) (a ++ x :: b) = some x then b.head?.filter (fun y => cls y = cls x)
      else first cls (cls x) (a ++ x :: b) := by
  obtain ⟨_, hxb, hab⟩ := List.pairwise_append.mp h
  by_cases ha : ∃ y ∈ a, cls y = cls x
  · obtain ⟨y, hy, hc⟩ := ha
    obtain ⟨he, z, hz, hs⟩ := first_append_left hy hc (x :: b) b
    have hne : z ≠ x := by
      rintro rfl
      exact (hab z hz z (by simp)).false
    rw [← he, hs, if_neg (by simpa using hne)]
  · have hna : ∀ y ∈ a, cls y ≠ cls x := fun y hy hc => ha ⟨y, hy, hc⟩
    have hb : first cls (cls x) b = b.head?.filter (fun y => cls y = cls x) :=
      (Ascending.tail hxb).first_head hg (Ascending.cls_le hg hxb)
    rw [first_append_right hna, first_append_right hna, hb]
    simp [first]

end Class

end SortedSearch
