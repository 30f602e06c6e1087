import Mathlib

/-! Programs that hold things. What a program takes over and what it leaves are
multisets of items; everything that others hold is left alone. -/

namespace FramedProgram

universe u v

variable {σ α β : Type u} {I E : Type v}

/-- Whatever the state, the result is as wanted. -/
def Returns (m : StateM σ α) (φ : α → Prop) : Prop := ∀ s, φ (m.run s).1

/-- `acc s M` says that `M` is what is held in `s`. The program takes over `P` and leaves `Q`. -/
def Framed (acc : σ → Multiset I → Prop) (P : Multiset I) (m : StateM σ α)
    (Q : α → Multiset I) : Prop :=
  ∀ s R, acc s (P + R) → acc (m.run s).2 (Q (m.run s).1 + R)

/-- Where the program may take over `P`, the result is as wanted. -/
def Ensures (acc : σ → Multiset I → Prop) (P : Multiset I) (m : StateM σ α) (φ : α → Prop) : Prop :=
  ∀ s R, acc s (P + R) → φ (m.run s).1

/-- Every run keeps a property of the state, and the result is as wanted. -/
def Keeps (p : σ → Prop) (m : StateM σ α) (φ : α → Prop) : Prop :=
  ∀ s, p s → p (m.run s).2 ∧ φ (m.run s).1

/-- All that the program adds to the log satisfies `ok`. -/
def Logs (log : σ → List E) (ok : E → Prop) (m : StateM σ α) : Prop :=
  ∀ s, ∃ new, log (m.run s).2 = new ++ log s ∧ ∀ e ∈ new, ok e

section Returns

variable {m : StateM σ α} {f : α → StateM σ β} {φ : α → Prop} {ψ : β → Prop}

theorem Returns.pure {a : α} (h : φ a) : Returns (Pure.pure a : StateM σ α) φ := fun _ => h

theorem Returns.bind (h : Returns m φ) (hf : ∀ a, φ a → Returns (f a) ψ) :
    Returns (m >>= f) ψ := fun s => hf _ (h s) _

theorem Returns.next (hf : ∀ a, Returns (f a) ψ) : Returns (m >>= f) ψ := fun _ => hf _ _

theorem Returns.and {φ' : α → Prop} (h : Returns m φ) (h' : Returns m φ') :
    Returns m (fun a => φ a ∧ φ' a) := fun s => ⟨h s, h' s⟩

end Returns

section Framed

variable {acc : σ → Multiset I → Prop} {P P' F : Multiset I} {m : StateM σ α}
  {f : α → StateM σ β} {Q : α → Multiset I} {Q' : β → Multiset I} {φ : α → Prop}

theorem Framed.pure {a : α} (h : Q a = P) : Framed acc P (Pure.pure a : StateM σ α) Q := by
  intro s R hs
  rw [← h] at hs
  exact hs

theorem Framed.ran {s s' : σ} {a : α} {R : Multiset I} (h : Framed acc P m Q)
    (hr : m.run s = (a, s')) (hs : acc s (P + R)) : acc s' (Q a + R) := by
  have ht := h s R hs
  rw [hr] at ht
  exact ht

theorem Framed.bind (h : Framed acc P m Q) (hf : ∀ a, Framed acc (Q a) (f a) Q') :
    Framed acc P (m >>= f) Q' := fun s R hs => hf _ _ R (h s R hs)

/-- The items in `F` are not needed for the first part. -/
theorem Framed.frame (h : Framed acc P m Q) (F : Multiset I) :
    Framed acc (P + F) m (fun a => Q a + F) := by
  intro s R hs
  rw [add_assoc] at hs ⊢
  exact h s (F + R) hs

theorem Framed.take (hP : P' = P + F) (h : Framed acc P m Q)
    (hf : ∀ a, Framed acc (Q a + F) (f a) Q') : Framed acc P' (m >>= f) Q' := by
  subst hP
  exact (h.frame F).bind hf

/-- The second part may count on what the first one returns. -/
theorem Framed.takeReturns (hP : P' = P + F) (h : Framed acc P m Q) (hr : Returns m φ)
    (hf : ∀ a, φ a → Framed acc (Q a + F) (f a) Q') : Framed acc P' (m >>= f) Q' := by
  subst hP
  exact fun s R hs => hf _ (hr s) _ R (h.frame F s R hs)

theorem Framed.get {f : σ → StateM σ β} (hf : ∀ s, Framed acc P (f s) Q') :
    Framed acc P (MonadState.get >>= f) Q' := fun s R hs => hf s s R hs

theorem Framed.congr (h : Framed acc P m Q) (hP : P' = P) {R : α → Multiset I}
    (hQ : ∀ a, Q a = R a) : Framed acc P' m R := by
  intro s T hs
  subst hP
  rw [← hQ]
  exact h s T hs

/-- What is held says something. -/
theorem Framed.know {fact : Prop} (hfact : ∀ s R, acc s (P + R) → fact)
    (h : fact → Framed acc P m Q) : Framed acc P m Q := fun s R hs => h (hfact s R hs) s R hs

end Framed

section Ensures

variable {acc : σ → Multiset I → Prop} {P P' F : Multiset I} {m : StateM σ α}
  {f : α → StateM σ β} {Q : α → Multiset I} {φ : α → Prop} {ψ : β → Prop}

theorem Ensures.pure {a : α} (h : φ a) : Ensures acc P (Pure.pure a : StateM σ α) φ :=
  fun _ _ _ => h

theorem Returns.ensures (h : Returns m φ) : Ensures acc P m φ := fun s _ _ => h s

theorem Ensures.bind (h : Framed acc P m Q) (he : Ensures acc P m φ)
    (hf : ∀ a, φ a → Ensures acc (Q a) (f a) ψ) : Ensures acc P (m >>= f) ψ :=
  fun s R hs => hf _ (he s R hs) _ R (h s R hs)

theorem Ensures.take (hP : P' = P + F) (h : Framed acc P m Q) (he : Ensures acc P m φ)
    (hf : ∀ a, φ a → Ensures acc (Q a + F) (f a) ψ) : Ensures acc P' (m >>= f) ψ := by
  subst hP
  have he' : Ensures acc (P + F) m φ := by
    intro s R hs
    rw [add_assoc] at hs
    exact he s (F + R) hs
  exact Ensures.bind (h.frame F) he' hf

theorem Ensures.know {fact : Prop} (hfact : ∀ s R, acc s (P + R) → fact)
    (h : fact → Ensures acc P m φ) : Ensures acc P m φ := fun s R hs => h (hfact s R hs) s R hs

end Ensures

section Keeps

variable {p : σ → Prop} {m : StateM σ α} {f : α → StateM σ β} {φ : α → Prop} {ψ : β → Prop}

theorem Keeps.pure {a : α} (h : φ a) : Keeps p (Pure.pure a : StateM σ α) φ :=
  fun _ hs => ⟨hs, h⟩

theorem Keeps.bind (h : Keeps p m φ) (hf : ∀ a, φ a → Keeps p (f a) ψ) :
    Keeps p (m >>= f) ψ := by
  intro s hs
  obtain ⟨hkept, hresult⟩ := h s hs
  exact hf _ hresult _ hkept

end Keeps

section Logs

variable {log : σ → List E} {ok : E → Prop} {m : StateM σ α} {f : α → StateM σ β}
  {φ : α → Prop}

theorem Logs.pure {a : α} : Logs log ok (Pure.pure a : StateM σ α) := fun _ => ⟨[], rfl, by simp⟩

theorem Logs.bind (h : Logs log ok m) (hr : Returns m φ) (hf : ∀ a, φ a → Logs log ok (f a)) :
    Logs log ok (m >>= f) := by
  intro s
  obtain ⟨new, hn, ho⟩ := h s
  obtain ⟨new', hn', ho'⟩ := hf _ (hr s) (m.run s).2
  refine ⟨new' ++ new, ?_, ?_⟩
  · rw [List.append_assoc, ← hn, ← hn']
    rfl
  · intro e he
    rcases List.mem_append.mp he with he | he
    · exact ho' e he
    · exact ho e he

theorem Logs.next (h : Logs log ok m) (hf : ∀ a, Logs log ok (f a)) : Logs log ok (m >>= f) :=
  h.bind (φ := fun _ => True) (fun _ => trivial) fun a _ => hf a

theorem Logs.get {f : σ → StateM σ β} (hf : ∀ s, Logs log ok (f s)) :
    Logs log ok (MonadState.get >>= f) := fun s => hf s s

end Logs

end FramedProgram
