import Mathlib

/-! Programs that read and write a state and may fault, and the weakest
condition on a state under which a program ends as wanted. -/

namespace StateProgram

universe u v

variable {σ α β : Type u} {ε : Type v}

/-- From `s` the program either ends with a result in `Q` or faults in `E`. -/
def Wp (m : StateT σ (Except ε) α) (s : σ) (Q : α → σ → Prop) (E : ε → Prop) : Prop :=
  match m.run s with
  | .ok (a, s') => Q a s'
  | .error e => E e

section Rules

variable {m : StateT σ (Except ε) α} {f : α → StateT σ (Except ε) β} {s : σ}
  {Q Q' : α → σ → Prop} {E E' : ε → Prop}

@[simp] theorem wp_pure {a : α} : Wp (pure a : StateT σ (Except ε) α) s Q E ↔ Q a s := Iff.rfl

@[simp] theorem wp_throw {e : ε} : Wp (throw e : StateT σ (Except ε) α) s Q E ↔ E e := Iff.rfl

@[simp] theorem wp_get {Q : σ → σ → Prop} :
    Wp (get : StateT σ (Except ε) σ) s Q E ↔ Q s s := Iff.rfl

@[simp] theorem wp_set {t : σ} {Q : PUnit → σ → Prop} :
    Wp (set t : StateT σ (Except ε) PUnit) s Q E ↔ Q ⟨⟩ t := Iff.rfl

@[simp] theorem wp_modify {g : σ → σ} {Q : PUnit → σ → Prop} :
    Wp (modify g : StateT σ (Except ε) PUnit) s Q E ↔ Q ⟨⟩ (g s) := Iff.rfl

@[simp] theorem wp_bind {Q : β → σ → Prop} :
    Wp (m >>= f) s Q E ↔ Wp m s (fun a s' => Wp (f a) s' Q E) E := by
  unfold Wp
  rw [StateT.run_bind]
  cases m.run s <;> rfl

theorem Wp.mono (h : Wp m s Q E) (hq : ∀ a s', Q a s' → Q' a s') (he : ∀ e, E e → E' e) :
    Wp m s Q' E' := by
  unfold Wp at h ⊢
  split
  · rename_i a s' hr
    rw [hr] at h
    exact hq a s' h
  · rename_i e hr
    rw [hr] at h
    exact he e h

theorem Wp.imp (h : Wp m s Q E) (hq : ∀ a s', Q a s' → Q' a s') : Wp m s Q' E :=
  h.mono hq fun _ he => he

theorem Wp.and (h : Wp m s Q E) (h' : Wp m s Q' E') :
    Wp m s (fun a s' => Q a s' ∧ Q' a s') E' := by
  unfold Wp at h h' ⊢
  split at h <;> simp_all

theorem Wp.exists (h : Wp m s Q fun _ => False) : ∃ a s', m.run s = .ok (a, s') ∧ Q a s' := by
  unfold Wp at h
  split at h
  · rename_i a s' hr
    exact ⟨a, s', hr, h⟩
  · exact h.elim

theorem Wp.of_run (h : Wp m s Q E) {a : α} {s' : σ} (hr : m.run s = .ok (a, s')) : Q a s' := by
  unfold Wp at h
  rw [hr] at h
  exact h

end Rules

end StateProgram
