import Mathlib

/-! Runs of a labelled transition system, with the labels of a run newest
first. A guard restricts the steps of a run by the state they start in. -/

namespace LabelledRun

variable {S L : Type*}

inductive Run (step : S → L → S → Prop) (s₀ : S) : List L → S → Prop
  | nil : Run step s₀ [] s₀
  | snoc {tr : List L} {s s' : S} {l : L} :
      Run step s₀ tr s → step s l s' → Run step s₀ (l :: tr) s'

/-- The steps that satisfy `guard` in the state before them. -/
def Guarded (step : S → L → S → Prop) (guard : S → L → Prop) (s : S) (l : L) (s' : S) : Prop :=
  step s l s' ∧ guard s l

variable {step : S → L → S → Prop} {s₀ : S}

/-- What holds at the start and is kept by every step of a run holds at its
end; it may speak of the labels. -/
theorem Run.invariant {P : List L → S → Prop} (hinit : P [] s₀)
    (hstep : ∀ tr s l s', Run step s₀ tr s → P tr s → step s l s' → P (l :: tr) s')
    {tr : List L} {s : S} (h : Run step s₀ tr s) : P tr s := by
  induction h with
  | nil => exact hinit
  | snoc hr hs ih => exact hstep _ _ _ _ hr ih hs

theorem Run.mono {step' : S → L → S → Prop} (hm : ∀ s l s', step s l s' → step' s l s')
    {tr : List L} {s : S} (h : Run step s₀ tr s) : Run step' s₀ tr s := by
  induction h with
  | nil => exact .nil
  | snoc _ hs ih => exact ih.snoc (hm _ _ _ hs)

theorem Run.unguard {guard : S → L → Prop} {tr : List L} {s : S}
    (h : Run (Guarded step guard) s₀ tr s) : Run step s₀ tr s :=
  h.mono (fun _ _ _ hs => hs.1)

/-- A guard that holds at every step of every run restricts nothing. -/
theorem Run.restrict (guard : S → L → Prop)
    (hg : ∀ tr s l s', Run step s₀ tr s → step s l s' → guard s l) {tr : List L} {s : S}
    (h : Run step s₀ tr s) : Run (Guarded step guard) s₀ tr s := by
  induction h with
  | nil => exact .nil
  | snoc hr hs ih => exact ih.snoc ⟨hs, hg _ _ _ _ hr hs⟩

end LabelledRun
