import Mathlib

/-! Orthogonalization in the modified order: from each vector the components
along the earlier results are taken off one after the other, each from what
the one before has left. -/

namespace GramSchmidt

variable {K ι : Type*} [Field K] [Fintype ι]

/-- The component of `v` along `u`. -/
def proj (u v : ι → K) : ι → K := (v ⬝ᵥ u / u ⬝ᵥ u) • u

/-- What is left of `v` when the components along `us` are taken off in turn. -/
def reject (v : ι → K) (us : List (ι → K)) : ι → K := us.foldl (fun v u => v - proj u v) v

theorem sub_proj_dot {u : ι → K} (hu : u ⬝ᵥ u ≠ 0) (v : ι → K) : (v - proj u v) ⬝ᵥ u = 0 := by
  rw [proj, sub_dotProduct, smul_dotProduct, smul_eq_mul, div_mul_cancel₀ _ hu, sub_self]

/-- What is orthogonal stays so when a component along an orthogonal vector goes. -/
theorem sub_proj_dot_of_orthogonal {u v w : ι → K} (hv : v ⬝ᵥ w = 0) (hu : u ⬝ᵥ w = 0) :
    (v - proj u v) ⬝ᵥ w = 0 := by
  rw [proj, sub_dotProduct, smul_dotProduct, hv, hu, smul_zero, sub_zero]

theorem reject_dot_of_orthogonal {us : List (ι → K)} {v w : ι → K} (hv : v ⬝ᵥ w = 0)
    (hus : ∀ u ∈ us, u ⬝ᵥ w = 0) : reject v us ⬝ᵥ w = 0 := by
  induction us generalizing v with
  | nil => exact hv
  | cons u us ih =>
    apply ih (sub_proj_dot_of_orthogonal hv (hus u (by simp)))
    intro x hx
    exact hus x (by simp [hx])

/-- What is left is orthogonal to all of them. -/
theorem reject_dot {us : List (ι → K)} (horth : us.Pairwise fun a b => a ⬝ᵥ b = 0)
    (hne : ∀ u ∈ us, u ⬝ᵥ u ≠ 0) (v : ι → K) : ∀ u ∈ us, reject v us ⬝ᵥ u = 0 := by
  induction us generalizing v with
  | nil => simp
  | cons x us ih =>
    obtain ⟨hx, hrest⟩ := List.pairwise_cons.mp horth
    intro u hu
    rcases List.mem_cons.mp hu with rfl | hu
    · apply reject_dot_of_orthogonal (sub_proj_dot (hne u (by simp)) v)
      intro y hy
      rw [dotProduct_comm]
      exact hx y hy
    · exact ih hrest (fun y hy => hne y (by simp [hy])) _ u hu

end GramSchmidt
