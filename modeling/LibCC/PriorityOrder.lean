import Mathlib

/-! Sequences in which no element has a higher priority than one before it.
Several elements may have one priority. -/

namespace PriorityOrder

variable {P R : Type*} [LinearOrder R] {key key' : P → R} {l l' a b : List P} {x : P}

def Descending (key : P → R) (l : List P) : Prop := l.Pairwise (fun y z => key z ≤ key y)

theorem Descending.sublist (h : Descending key l) (hs : l'.Sublist l) : Descending key l' :=
  List.Pairwise.sublist hs h

theorem Descending.congr (h : Descending key l) (hk : ∀ y ∈ l, key' y = key y) :
    Descending key' l := by
  refine List.Pairwise.imp_of_mem (fun {y z} hy hz hle => ?_) h
  rw [hk y hy, hk z hz]
  exact hle

theorem descending_insert_iff : Descending key (a ++ x :: b) ↔
    Descending key (a ++ b) ∧ (∀ y ∈ a, key x ≤ key y) ∧ ∀ y ∈ b, key y ≤ key x := by
  simp only [Descending, List.pairwise_append, List.pairwise_cons, List.mem_cons]
  constructor
  · rintro ⟨ha, ⟨hxb, hb⟩, hab⟩
    exact ⟨⟨ha, hb, fun y hy z hz => hab y hy z (.inr hz)⟩, fun y hy => hab y hy x (.inl rfl), hxb⟩
  · rintro ⟨⟨ha, hb, hab⟩, hax, hxb⟩
    refine ⟨ha, ⟨hxb, hb⟩, fun y hy z hz => ?_⟩
    rcases hz with rfl | hz
    · exact hax y hy
    · exact hab y hy z hz

theorem Descending.ge_getLast (h : Descending key a) {p : R}
    (hp : ∀ y, a.getLast? = some y → p ≤ key y) : ∀ y ∈ a, p ≤ key y := by
  induction a with
  | nil => exact fun y hy => absurd hy List.not_mem_nil
  | cons z a ih =>
    obtain ⟨hz, ha⟩ := List.pairwise_cons.mp h
    intro y hy
    cases a with
    | nil =>
      obtain rfl := List.mem_singleton.mp hy
      exact hp y rfl
    | cons w a =>
      have hrest := ih ha (fun y hl => hp y (by simpa using hl))
      rcases List.mem_cons.mp hy with rfl | hy
      · exact (hrest w (by simp)).trans (hz w (by simp))
      · exact hrest y hy

theorem Descending.lt_head (h : Descending key l) {p : R}
    (hp : ∀ y, l.head? = some y → key y < p) : ∀ y ∈ l, key y < p := by
  cases l with
  | nil => exact fun y hy => absurd hy List.not_mem_nil
  | cons z l =>
    intro y hy
    have hz := hp z rfl
    rcases List.mem_cons.mp hy with rfl | hy
    · exact hz
    · exact ((List.pairwise_cons.mp h).1 y hy).trans_lt hz

end PriorityOrder
