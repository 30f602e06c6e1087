import Mathlib

/-! Sequences in the order of a three-way comparison. A new element goes after those that
compare equal, so equal elements stay in the order in which they came. -/

namespace StableOrder

variable {V : Type*}

/-- The sign of a comparison is that of a total preorder. -/
structure TotalPreorder (cmp : V → V → Int) : Prop where
  neg_iff : ∀ a b, cmp a b < 0 ↔ 0 < cmp b a
  trans : ∀ a b c, cmp a b ≤ 0 → cmp b c ≤ 0 → cmp a c ≤ 0

def Sorted (cmp : V → V → Int) (l : List V) : Prop := l.Pairwise (fun a b => cmp a b ≤ 0)

/-- After the elements that are not larger, before those that are. -/
def place (cmp : V → V → Int) (e : V) (l : List V) : List V :=
  l.filter (fun x => cmp x e ≤ 0) ++ e :: l.filter (fun x => 0 < cmp x e)

/-- Sorted, with equal elements in the order of their stamps. -/
def Stable (cmp : V → V → Int) (stamp : V → Nat) (l : List V) : Prop :=
  l.Pairwise (fun a b => cmp a b < 0 ∨ cmp a b = 0 ∧ stamp a < stamp b)

section

variable {cmp : V → V → Int} {stamp : V → Nat} {l : List V} {e : V}

theorem TotalPreorder.comap {U : Type*} (h : TotalPreorder cmp) (f : U → V) :
    TotalPreorder (fun a b => cmp (f a) (f b)) :=
  ⟨fun a b => h.neg_iff (f a) (f b), fun a b c => h.trans (f a) (f b) (f c)⟩

theorem TotalPreorder.zero_iff (h : TotalPreorder cmp) (a b : V) : cmp a b = 0 ↔ cmp b a = 0 := by
  have hab := h.neg_iff a b
  have hba := h.neg_iff b a
  omega

theorem TotalPreorder.lt_of_le_of_lt (h : TotalPreorder cmp) {a b c : V} (hab : cmp a b ≤ 0)
    (hbc : cmp b c < 0) : cmp a c < 0 := by
  by_contra hn
  have hca : cmp c a ≤ 0 := by
    have hiff := h.neg_iff a c
    omega
  have hcb := h.trans c a b hca hab
  have hlt := (h.neg_iff b c).mp hbc
  omega

theorem TotalPreorder.lt_of_lt_of_le (h : TotalPreorder cmp) {a b c : V} (hab : cmp a b < 0)
    (hbc : cmp b c ≤ 0) : cmp a c < 0 := by
  by_contra hn
  have hca : cmp c a ≤ 0 := by
    have hiff := h.neg_iff a c
    omega
  have hba := h.trans b c a hbc hca
  have hlt := (h.neg_iff a b).mp hab
  omega

/-- In a sorted sequence nothing from a larger element on compares equal. -/
theorem Sorted.lt_of_lt (hc : TotalPreorder cmp) {x : V} (hs : Sorted cmp (x :: l))
    (hlt : cmp e x < 0) : ∀ y ∈ x :: l, cmp e y < 0 := by
  intro y hy
  rcases List.mem_cons.mp hy with rfl | hy
  · exact hlt
  · exact hc.lt_of_lt_of_le hlt ((List.pairwise_cons.mp hs).1 y hy)

theorem Stable.congr {cmp' : V → V → Int} {stamp' : V → Nat} (h : Stable cmp stamp l)
    (hcmp : ∀ a ∈ l, ∀ b ∈ l, cmp' a b = cmp a b) (hstamp : ∀ a ∈ l, stamp' a = stamp a) :
    Stable cmp' stamp' l := by
  refine List.Pairwise.imp_of_mem (fun {a b} ha hb hab => ?_) h
  rw [hcmp a ha b hb, hstamp a ha, hstamp b hb]
  exact hab

theorem Stable.sorted (h : Stable cmp stamp l) : Sorted cmp l := by
  apply List.Pairwise.imp _ h
  intro a b hab
  omega

theorem Stable.sublist {l' : List V} (h : Stable cmp stamp l) (hs : l'.Sublist l) :
    Stable cmp stamp l' := List.Pairwise.sublist hs h

theorem Stable.place (hc : TotalPreorder cmp) (h : Stable cmp stamp l)
    (hnew : ∀ x ∈ l, stamp x < stamp e) : Stable cmp stamp (place cmp e l) := by
  apply List.pairwise_append.mpr
  refine ⟨h.sublist List.filter_sublist,
    List.pairwise_cons.mpr ⟨fun x hx => ?_, h.sublist List.filter_sublist⟩, fun x hx y hy => ?_⟩
  · have hlt : 0 < cmp x e := by simpa using (List.mem_filter.mp hx).2
    exact .inl ((hc.neg_iff e x).mpr hlt)
  · obtain ⟨hxl, hx⟩ := List.mem_filter.mp hx
    have hle : cmp x e ≤ 0 := by simpa using hx
    rcases List.mem_cons.mp hy with rfl | hy
    · have hst := hnew x hxl
      omega
    · have hlt : 0 < cmp y e := by simpa using (List.mem_filter.mp hy).2
      exact .inl (hc.lt_of_le_of_lt hle ((hc.neg_iff e y).mpr hlt))

theorem mem_place (x : V) : x ∈ place cmp e l ↔ x = e ∨ x ∈ l := by
  by_cases hx : cmp x e ≤ 0
  · have hn : ¬ 0 < cmp x e := by omega
    simp only [place, List.mem_append, List.mem_cons, List.mem_filter, decide_eq_true_eq]
    tauto
  · have hp : 0 < cmp x e := by omega
    simp only [place, List.mem_append, List.mem_cons, List.mem_filter, decide_eq_true_eq]
    tauto

theorem place_last (hc : TotalPreorder cmp) (h : ∀ x ∈ l, ¬ cmp e x < 0) :
    place cmp e l = l ++ [e] := by
  have hle : ∀ x ∈ l, cmp x e ≤ 0 := by
    intro x hx
    have hiff := hc.neg_iff e x
    have hn := h x hx
    omega
  rw [place, List.filter_eq_self.mpr (by simpa using hle), List.filter_eq_nil_iff.mpr]
  intro x hx
  have := hle x hx
  simpa using this

/-- In a sorted sequence the first larger element marks the place. -/
theorem place_split (hc : TotalPreorder cmp) {t : V} {a b : List V} (hs : Sorted cmp (a ++ t :: b))
    (ha : ∀ x ∈ a, ¬ cmp e x < 0) (ht : cmp e t < 0) :
    place cmp e (a ++ t :: b) = a ++ e :: t :: b := by
  have htb : ∀ x ∈ t :: b, 0 < cmp x e := by
    intro x hx
    have hle := (List.pairwise_append.mp hs).2.1
    rcases List.mem_cons.mp hx with rfl | hx
    · exact (hc.neg_iff e x).mp ht
    · exact (hc.neg_iff e x).mp (hc.lt_of_lt_of_le ht ((List.pairwise_cons.mp hle).1 x hx))
  have hle : ∀ x ∈ a, cmp x e ≤ 0 := by
    intro x hx
    have hiff := hc.neg_iff e x
    have hn := ha x hx
    omega
  have hfa : a.filter (fun x => cmp x e ≤ 0) = a := List.filter_eq_self.mpr (by simpa using hle)
  have hfa' : a.filter (fun x => 0 < cmp x e) = [] :=
    List.filter_eq_nil_iff.mpr (fun x hx => by simpa using hle x hx)
  have hfb : (t :: b).filter (fun x => cmp x e ≤ 0) = [] :=
    List.filter_eq_nil_iff.mpr (fun x hx => by simpa using htb x hx)
  have hfb' : (t :: b).filter (fun x => 0 < cmp x e) = t :: b :=
    List.filter_eq_self.mpr (by simpa using htb)
  rw [place, List.filter_append, List.filter_append, hfa, hfa', hfb, hfb']
  simp

end

end StableOrder
