import LibCC.LabelledRun

/-! Runs that come to an end: a measure that every step lowers bounds a run,
and from every state some run reaches a state without a further step. -/

namespace LabelledRun

variable {S L : Type*} {step : S → L → S → Prop} {s₀ s s' : S} {tr more : List L}

/-- No step leads on from the state. -/
def Final (step : S → L → S → Prop) (s : S) : Prop := ∀ l s', ¬ step s l s'

theorem Run.append (h : Run step s₀ tr s) (h' : Run step s more s') :
    Run step s₀ (more ++ tr) s' := by
  induction h' with
  | nil => exact h
  | snoc _ hs ih => exact ih.snoc hs

section Measure

variable {I : S → Prop} {m : S → Nat}

/-- Every step from a state in `I` keeps `I` and lowers the measure. -/
def Lowers (step : S → L → S → Prop) (I : S → Prop) (m : S → Nat) : Prop :=
  ∀ s l s', I s → step s l s' → I s' ∧ m s' < m s

theorem Run.lowers (hlow : Lowers step I m) (h : Run step s₀ tr s) (h0 : I s₀) :
    I s ∧ tr.length + m s ≤ m s₀ := by
  induction h with
  | nil => exact ⟨h0, by simp⟩
  | snoc _ hs ih =>
    obtain ⟨hi, hlt⟩ := hlow _ _ _ ih.1 hs
    refine ⟨hi, ?_⟩
    have := ih.2
    rw [List.length_cons]
    omega

theorem exists_final (s₀ : S) (hlow : Lowers step I m) (h0 : I s₀) :
    ∃ tr s, Run step s₀ tr s ∧ I s ∧ Final step s := by
  induction hn : m s₀ using Nat.strong_induction_on generalizing s₀ with
  | _ n ih =>
    by_cases hf : Final step s₀
    · exact ⟨[], s₀, .nil, h0, hf⟩
    · have hsome : ∃ l s, step s₀ l s := by
        by_contra hnone
        exact hf fun l s hs => hnone ⟨l, s, hs⟩
      obtain ⟨l, s, hs⟩ := hsome
      obtain ⟨hi, hlt⟩ := hlow _ _ _ h0 hs
      obtain ⟨tr, s', hr, hi', hf'⟩ := ih (m s) (hn ▸ hlt) s hi rfl
      exact ⟨tr ++ [l], s', (Run.nil.snoc hs).append hr, hi', hf'⟩

end Measure

section Weights

variable {ι α : Type*} [Fintype ι] [DecidableEq ι]

/-- A measure that adds up one weight a party moves by what one party moves. -/
theorem sum_weight_update (w : α → Nat) (f : ι → α) (i : ι) (a : α) :
    ∑ j, w (Function.update f i a j) + w (f i) = ∑ j, w (f j) + w a := by
  have hsplit := Finset.add_sum_erase Finset.univ (fun j => w (f j)) (Finset.mem_univ i)
  have hsplit' := Finset.add_sum_erase Finset.univ (fun j => w (Function.update f i a j))
    (Finset.mem_univ i)
  have hrest : ∑ j ∈ Finset.univ.erase i, w (Function.update f i a j) =
      ∑ j ∈ Finset.univ.erase i, w (f j) :=
    Finset.sum_congr rfl fun j hj => by rw [Function.update_of_ne (Finset.ne_of_mem_erase hj)]
  rw [Function.update_self, hrest] at hsplit'
  omega

omit [DecidableEq ι] in
/-- Waking everybody costs a constant for each party. -/
theorem sum_weight_map_le {w : α → Nat} {g : α → α} {k : Nat} (h : ∀ a, w (g a) ≤ w a + k)
    (f : ι → α) : ∑ j, w (g (f j)) ≤ ∑ j, w (f j) + Fintype.card ι * k := by
  calc ∑ j, w (g (f j)) ≤ ∑ j, (w (f j) + k) := Finset.sum_le_sum fun j _ => h (f j)
    _ = ∑ j, w (f j) + Fintype.card ι * k := by
      rw [Finset.sum_add_distrib, Finset.sum_const, Finset.card_univ, smul_eq_mul]

end Weights

end LabelledRun
