import Mathlib

/-! What is asked of allocators of several families. A piece of memory belongs
to the family that made it, until it is released or resized. -/

/-- A call of an allocator and what it returned. -/
inductive AllocEvent (F P : Type)
  | alloc (family : F) (result : Option P)
  | resize (family : F) (old : P) (result : Option P)
  | release (family : F) (piece : P)
  deriving DecidableEq

namespace AllocEvent

variable {F P : Type}

def family : AllocEvent F P → F
  | alloc family _ | resize family _ _ | release family _ => family

/-- Whether a call respects the families that pieces belong to. No piece is
handed out that belongs to one. -/
def Fits (owner : P → Option F) : AllocEvent F P → Prop
  | alloc _ result => ∀ p, result = some p → owner p = none
  | resize family old result => owner old = some family ∧ ∀ p, result = some p → owner p = none
  | release family piece => owner piece = some family

variable [DecidableEq P]

def after (owner : P → Option F) : AllocEvent F P → P → Option F
  | alloc family (some p) => Function.update owner p (some family)
  | resize family old (some p) => Function.update (Function.update owner old none) p (some family)
  | release _ piece => Function.update owner piece none
  | alloc _ none | resize _ _ none => owner

/-- The families that the pieces belong to after a record, the last event of which comes first. -/
def owner : List (AllocEvent F P) → P → Option F
  | [] => fun _ => none
  | e :: past => e.after (owner past)

def Matched : List (AllocEvent F P) → Prop
  | [] => True
  | e :: past => e.Fits (owner past) ∧ Matched past

/-- The pieces that belong to a family, each with it. -/
def Accounts (owner : P → Option F) (items : Multiset (F × P)) : Prop :=
  items.Nodup ∧ ∀ family piece, (family, piece) ∈ items ↔ owner piece = some family

section

variable {own : P → Option F} {items : Multiset (F × P)} {family : F} {piece : P}

omit [DecidableEq P] in
theorem accounts_none : Accounts (fun _ : P => (none : Option F)) 0 :=
  ⟨Multiset.nodup_zero, by simp⟩

omit [DecidableEq P] in
theorem Accounts.mem (h : Accounts own ((family, piece) ::ₘ items)) : own piece = some family :=
  (h.2 family piece).mp (Multiset.mem_cons_self _ _)

theorem Accounts.alloc (h : Accounts own items) (hp : own piece = none) (family : F) :
    Accounts (Function.update own piece (some family)) ((family, piece) ::ₘ items) := by
  have hnew : ∀ f, (f, piece) ∉ items := by
    intro f hm
    rw [h.2, hp] at hm
    cases hm
  refine ⟨Multiset.nodup_cons.mpr ⟨hnew family, h.1⟩, ?_⟩
  intro f p
  rw [Multiset.mem_cons, Prod.mk.injEq]
  by_cases he : p = piece
  · subst he
    simp [hnew f, eq_comm]
  · simp [he, h.2]

theorem Accounts.release (h : Accounts own ((family, piece) ::ₘ items)) :
    Accounts (Function.update own piece none) items := by
  obtain ⟨hnot, hnd⟩ := Multiset.nodup_cons.mp h.1
  have hmine := h.mem
  refine ⟨hnd, ?_⟩
  intro f p
  by_cases he : p = piece
  · subst he
    have hf : (f, p) ∉ items := by
      intro hm
      have hown := (h.2 f p).mp (Multiset.mem_cons_of_mem hm)
      rw [hmine] at hown
      cases hown
      exact hnot hm
    simp [hf]
  · rw [Function.update_of_ne he, ← h.2 f p, Multiset.mem_cons, Prod.mk.injEq]
    simp [he]

end

end AllocEvent
