import LibCC.SequenceFamily

/-! Traversals in two levels: a sequence of outer elements, each with a sequence of its own.
The positions are the pairs, in the order in which a traversal meets them. -/

namespace NestedTraversal

open SequenceFamily

variable {M P : Type*}

def nested (f : M → List P) (ms : List M) : List (M × P) :=
  ms.flatMap fun m => (f m).map (Prod.mk m)

variable {f : M → List P}

@[simp] theorem nested_nil : nested f [] = [] := rfl

theorem nested_cons (m : M) (ms : List M) :
    nested f (m :: ms) = (f m).map (Prod.mk m) ++ nested f ms := List.flatMap_cons

theorem nested_append (a b : List M) : nested f (a ++ b) = nested f a ++ nested f b :=
  List.flatMap_append

theorem mem_nested {ms : List M} {x : M × P} : x ∈ nested f ms ↔ x.1 ∈ ms ∧ x.2 ∈ f x.1 := by
  obtain ⟨m, p⟩ := x
  simp [nested]

theorem nested_congr {g : M → List P} {ms : List M} (h : ∀ m ∈ ms, g m = f m) :
    nested g ms = nested f ms := by
  induction ms with
  | nil => rfl
  | cons m ms ih =>
    rw [nested_cons, nested_cons, h m (by simp), ih (fun k hk => h k (by simp [hk]))]

theorem nested_nodup {ms : List M} (hms : ms.Nodup) (hf : ∀ m ∈ ms, (f m).Nodup) :
    (nested f ms).Nodup := by
  induction ms with
  | nil => exact List.nodup_nil
  | cons m ms ih =>
    obtain ⟨hm, hms⟩ := List.nodup_cons.mp hms
    rw [nested_cons]
    refine List.nodup_append.mpr ⟨(hf m (by simp)).map (Prod.mk_right_injective m),
      ih hms (fun k hk => hf k (by simp [hk])), fun x hx y hy he => hm ?_⟩
    obtain ⟨p, -, rfl⟩ := List.mem_map.mp hx
    subst he
    exact (mem_nested.mp hy).1

section Split

variable {a b : List M} {m : M} {u v : List P} {p : P}

theorem nested_split (hf : f m = u ++ p :: v) :
    nested f (a ++ m :: b) =
      (nested f a ++ u.map (Prod.mk m)) ++ (m, p) :: (v.map (Prod.mk m) ++ nested f b) := by
  rw [nested_append, nested_cons, hf]
  simp

theorem notMem_nested_split (hm : m ∉ a) (hp : p ∉ u) :
    (m, p) ∉ nested f a ++ u.map (Prod.mk m) := by
  intro h
  rcases List.mem_append.mp h with h | h
  · exact hm (mem_nested.mp h).1
  · obtain ⟨q, hq, he⟩ := List.mem_map.mp h
    exact hp ((Prod.mk.inj he).2 ▸ hq)

variable [DecidableEq M] [DecidableEq P]

theorem after_nested (hf : f m = u ++ p :: v) (hm : m ∉ a) (hp : p ∉ u) :
    after (m, p) (nested f (a ++ m :: b)) = v.map (Prod.mk m) ++ nested f b := by
  rw [nested_split hf, after_split (notMem_nested_split hm hp)]

theorem erase_nested {g : M → List P} (hf : f m = u ++ p :: v) (hg : g m = u ++ v) (hm : m ∉ a)
    (hp : p ∉ u) (ha : ∀ k ∈ a, g k = f k) (hb : ∀ k ∈ b, g k = f k) :
    nested g (a ++ m :: b) = (nested f (a ++ m :: b)).erase (m, p) := by
  rw [nested_split hf, erase_split (notMem_nested_split hm hp), nested_append, nested_cons, hg,
    nested_congr ha, nested_congr hb]
  simp

end Split

end NestedTraversal
