import Mathlib

/-! Families of sequences that share no element, and placing one element
next to another. A position is `none` for the end of the sequence that the
operation names, or an element of the sequence. -/

namespace SequenceFamily

variable {P κ : Type*}

/-- No element twice, within one sequence or across two. -/
def Separated (c : κ → List P) : Prop :=
  (∀ k, (c k).Nodup) ∧ ∀ k k' p, p ∈ c k → p ∈ c k' → k = k'

theorem Separated.notMem {c : κ → List P} (h : Separated c) {k k' : κ} {p : P}
    (hp : p ∈ c k) (hk : k ≠ k') : p ∉ c k' :=
  fun hp' => hk (h.2 k k' p hp hp')

theorem Separated.nodup_append {c : κ → List P} (h : Separated c) {k k' : κ} (hk : k ≠ k') :
    (c k ++ c k').Nodup := by
  refine List.nodup_append.mpr ⟨h.1 k, h.1 k', fun x hx y hy he => hk ?_⟩
  exact h.2 k k' x hx (he ▸ hy)

theorem Separated.comp {κ' : Type*} {c : κ → List P} (h : Separated c) {f : κ' → κ}
    (hf : Function.Injective f) : Separated (fun k => c (f k)) :=
  ⟨fun k => h.1 (f k), fun _ _ p hp hp' => hf (h.2 _ _ p hp hp')⟩

theorem Separated.update [DecidableEq κ] {c : κ → List P} (h : Separated c) {k : κ} {l : List P}
    (hnd : l.Nodup) (hl : ∀ p ∈ l, ∀ k', p ∈ c k' → k' = k) :
    Separated (Function.update c k l) := by
  constructor
  · intro k'
    by_cases hk : k' = k
    · subst hk; simpa using hnd
    · simpa [hk] using h.1 k'
  · intro i j p hi hj
    by_cases hik : i = k <;> by_cases hjk : j = k
    · rw [hik, hjk]
    · subst hik
      exact (hl p (by simpa using hi) j (by simpa [hjk] using hj)).symm
    · subst hjk
      exact hl p (by simpa using hj) i (by simpa [hik] using hi)
    · exact h.2 i j p (by simpa [hik] using hi) (by simpa [hjk] using hj)

theorem Separated.update_subset [DecidableEq κ] {c : κ → List P} (h : Separated c) {k : κ}
    {l : List P} (hnd : l.Nodup) (hl : l ⊆ c k) : Separated (Function.update c k l) :=
  h.update hnd (fun p hp k' hk' => h.2 k' k p hk' (hl hp))

theorem Separated.nodup_flatMap {c : κ → List P} (h : Separated c) {ks : List κ}
    (hks : ks.Nodup) : (ks.flatMap c).Nodup := by
  induction ks with
  | nil => exact List.nodup_nil
  | cons k ks ih =>
    obtain ⟨hk, hks⟩ := List.nodup_cons.mp hks
    rw [List.flatMap_cons]
    refine List.nodup_append.mpr ⟨h.1 k, ih hks, fun x hx y hy he => ?_⟩
    obtain ⟨k', hk', hy⟩ := List.mem_flatMap.mp hy
    have hkk := h.2 k k' x hx (he ▸ hy)
    exact hk (hkk ▸ hk')

/-- Elements that are each in one of the sequences are as many as the sequences are long. -/
theorem Separated.length_eq {c : κ → List P} (h : Separated c) {ks : List κ} (hks : ks.Nodup)
    {l : List P} (hl : l.Nodup) (hmem : ∀ p, p ∈ l ↔ ∃ k ∈ ks, p ∈ c k) :
    l.length = (ks.map fun k => (c k).length).sum := by
  have hperm : l.Perm (ks.flatMap c) := by
    rw [List.perm_ext_iff_of_nodup hl (h.nodup_flatMap hks)]
    intro p
    rw [hmem, List.mem_flatMap]
  rw [hperm.length_eq, List.length_flatMap]

theorem exists_mem_split {c : κ → List P} (k : κ) {p : P} :
    (∃ k', p ∈ c k') ↔ p ∈ c k ∨ ∃ k', k' ≠ k ∧ p ∈ c k' := by
  constructor
  · rintro ⟨k', hp⟩
    by_cases he : k' = k
    · exact .inl (he ▸ hp)
    · exact .inr ⟨k', he, hp⟩
  · rintro (hp | ⟨k', -, hp⟩)
    · exact ⟨k, hp⟩
    · exact ⟨k', hp⟩

theorem exists_mem_update [DecidableEq κ] {c : κ → List P} (k : κ) (l : List P) {p : P} :
    (∃ k', p ∈ Function.update c k l k') ↔ p ∈ l ∨ ∃ k', k' ≠ k ∧ p ∈ c k' := by
  rw [exists_mem_split k, Function.update_self]
  refine or_congr Iff.rfl (exists_congr fun k' => and_congr_right fun he => ?_)
  rw [Function.update_of_ne he]

section Place

variable [DecidableEq P]

/-- `x` immediately before `t`, or first when the position is `none`. -/
def insertBefore (x : P) : Option P → List P → List P
  | none, l => x :: l
  | some _, [] => [x]
  | some t, y :: l => if y = t then x :: y :: l else y :: insertBefore x (some t) l

/-- `x` immediately after `t`, or last when the position is `none`. -/
def insertAfter (x : P) : Option P → List P → List P
  | none, l => l ++ [x]
  | some _, [] => [x]
  | some t, y :: l => if y = t then y :: x :: l else y :: insertAfter x (some t) l

/-- The elements of `l` from `o` on. -/
def suffixFrom (o : Option P) (l : List P) : List P :=
  match o with
  | none => []
  | some p => l.dropWhile (fun x => x ≠ p)

def after (p : P) (l : List P) : List P := (l.dropWhile (fun x => x ≠ p)).tail

def before (p : P) (l : List P) : List P := l.takeWhile (fun x => x ≠ p)

theorem split_of_mem {t : P} {l : List P} (h : t ∈ l) : ∃ a b, l = a ++ t :: b ∧ t ∉ a := by
  induction l with
  | nil => simp at h
  | cons y l ih =>
    by_cases he : y = t
    · exact ⟨[], l, by simp [he], by simp⟩
    · obtain ⟨a, b, rfl, ha⟩ := ih (by simpa [Ne.symm he] using h)
      exact ⟨y :: a, b, rfl, by simp [ha, Ne.symm he]⟩

omit [DecidableEq P] in
/-- Two elements of a sequence cut it into three parts. -/
theorem split_two_of_mem {l : List P} {x t : P} (hnd : l.Nodup) (hx : x ∈ l) (ht : t ∈ l)
    (hxt : x ≠ t) : ∃ a b c, (x ∉ a ∧ x ∉ b ∧ x ∉ c) ∧ (t ∉ a ∧ t ∉ b ∧ t ∉ c) ∧
      (l = (a ++ x :: b) ++ t :: c ∨ l = (a ++ t :: b) ++ x :: c) := by
  obtain ⟨u, v, rfl, -⟩ := List.append_of_mem ht
  rw [List.perm_middle.nodup_iff, List.nodup_cons] at hnd
  obtain ⟨htn, hnd⟩ := hnd
  have hxuv : x ∈ u ∨ x ∈ v := by simpa [hxt] using hx
  rcases hxuv with hxu | hxv
  · obtain ⟨a, b, rfl⟩ := List.append_of_mem hxu
    refine ⟨a, b, v, ?_, ?_, .inl rfl⟩
    · rw [List.append_assoc, List.cons_append, List.perm_middle.nodup_iff] at hnd
      simpa using (List.nodup_cons.mp hnd).1
    · simpa [Ne.symm hxt, and_assoc] using htn
  · obtain ⟨b, c, rfl⟩ := List.append_of_mem hxv
    refine ⟨u, b, c, ?_, ?_, .inr (by simp)⟩
    · rw [← List.append_assoc, List.perm_middle.nodup_iff] at hnd
      simpa [and_assoc] using (List.nodup_cons.mp hnd).1
    · simpa [Ne.symm hxt] using htn

@[simp] theorem insertBefore_none (x : P) (l : List P) : insertBefore x none l = x :: l := by
  cases l <;> rfl

@[simp] theorem insertAfter_none (x : P) (l : List P) : insertAfter x none l = l ++ [x] := by
  cases l <;> rfl

theorem insertBefore_split (x : P) {t : P} {a : List P} (h : t ∉ a) (b : List P) :
    insertBefore x (some t) (a ++ t :: b) = a ++ x :: t :: b := by
  induction a with
  | nil => simp [insertBefore]
  | cons y a ih =>
    have hy : y ≠ t := fun he => h (by simp [he])
    simp [insertBefore, hy, ih (fun hm => h (by simp [hm]))]

theorem insertAfter_split (x : P) {t : P} {a : List P} (h : t ∉ a) (b : List P) :
    insertAfter x (some t) (a ++ t :: b) = a ++ t :: x :: b := by
  induction a with
  | nil => simp [insertAfter]
  | cons y a ih =>
    have hy : y ≠ t := fun he => h (by simp [he])
    simp [insertAfter, hy, ih (fun hm => h (by simp [hm]))]

theorem insertBefore_perm (x : P) (o : Option P) (l : List P) :
    (insertBefore x o l).Perm (x :: l) := by
  cases o with
  | none => simp
  | some t =>
    induction l with
    | nil => exact .refl _
    | cons y l ih =>
      by_cases hy : y = t
      · simp [insertBefore, hy]
      · simpa [insertBefore, hy] using (ih.cons y).trans (.swap x y l)

theorem insertAfter_perm (x : P) (o : Option P) (l : List P) :
    (insertAfter x o l).Perm (x :: l) := by
  cases o with
  | none => simp
  | some t =>
    induction l with
    | nil => exact .refl _
    | cons y l ih =>
      by_cases hy : y = t
      · simpa [insertAfter, hy] using List.Perm.swap x t l
      · simpa [insertAfter, hy] using (ih.cons y).trans (.swap x y l)

theorem dropWhile_ne_split {p : P} {a : List P} (h : p ∉ a) (b : List P) :
    (a ++ p :: b).dropWhile (fun x => x ≠ p) = p :: b := by
  have ha : a.dropWhile (fun x => decide (x ≠ p)) = [] := by
    rw [List.dropWhile_eq_nil_iff]
    intro x hx
    simpa using ne_of_mem_of_not_mem hx h
  rw [List.dropWhile_append, ha]
  simp

theorem suffixFrom_subset (o : Option P) (l : List P) : suffixFrom o l ⊆ l := by
  cases o with
  | none => exact List.nil_subset l
  | some p => exact (List.dropWhile_suffix _).subset

theorem suffixFrom_split {p : P} {a : List P} (h : p ∉ a) (b : List P) :
    suffixFrom (some p) (a ++ p :: b) = p :: b := dropWhile_ne_split h b

theorem after_split {p : P} {a : List P} (h : p ∉ a) (b : List P) :
    after p (a ++ p :: b) = b := by
  rw [after, dropWhile_ne_split h, List.tail_cons]

theorem after_eq_nil {p : P} {l : List P} (hl : l.Nodup) (hp : p ∈ l) :
    after p l = [] ↔ l.getLast? = some p := by
  obtain ⟨a, b, rfl, ha⟩ := split_of_mem hp
  rw [after_split ha]
  cases b using List.reverseRecOn with
  | nil => simp
  | append_singleton b y =>
    have hy : p ≠ y := by
      rintro rfl
      exact (List.nodup_cons.mp (List.nodup_append.mp hl).2.1).1 (by simp)
    have hlast : (a ++ p :: (b ++ [y])).getLast? = some y := by
      simp [List.getLast?_append, List.getLast?_cons]
    rw [hlast]
    simp [Ne.symm hy]

theorem before_split {p : P} {a : List P} (h : p ∉ a) (b : List P) :
    before p (a ++ p :: b) = a := by
  have ha : a.takeWhile (fun x => decide (x ≠ p)) = a := by
    rw [List.takeWhile_eq_self_iff]
    intro x hx
    simpa using ne_of_mem_of_not_mem hx h
  rw [before, List.takeWhile_append, ha]
  simp

end Place

theorem erase_split [BEq P] [LawfulBEq P] {p : P} {a : List P} (h : p ∉ a) (b : List P) :
    (a ++ p :: b).erase p = a ++ b := by
  rw [List.erase_append_right _ h, List.erase_cons_head]

theorem find?_reverse_split {f : P → Bool} {l : List P} {t : P} (h : l.reverse.find? f = some t) :
    ∃ a b, l = a ++ t :: b ∧ f t = true ∧ ∀ y ∈ b, f y = false := by
  obtain ⟨ht, a, b, hl, ha⟩ := List.find?_eq_some_iff_append.mp h
  refine ⟨b.reverse, a.reverse, ?_, ht, fun y hy => ?_⟩
  · have hh := congrArg List.reverse hl
    simpa using hh
  · simpa using ha y (by simpa using hy)

theorem eq_of_nodup_filterMap {α β : Type*} {f : α → Option β} {l : List α}
    (h : (l.filterMap f).Nodup) {a b : α} (ha : a ∈ l) (hb : b ∈ l) {c : β} (hfa : f a = some c)
    (hfb : f b = some c) : a = b := by
  induction l with
  | nil => exact absurd ha List.not_mem_nil
  | cons x l ih =>
    have hrest : ∀ y ∈ l, f y = some c → f x ≠ some c := by
      intro y hy hfy hfx
      rw [List.filterMap_cons_some hfx] at h
      exact (List.nodup_cons.mp h).1 (List.mem_filterMap.mpr ⟨y, hy, hfy⟩)
    have hnd : (l.filterMap f).Nodup := h.sublist ((List.sublist_cons_self x l).filterMap f)
    rcases List.mem_cons.mp ha with rfl | hal <;> rcases List.mem_cons.mp hb with rfl | hbl
    · rfl
    · exact absurd hfa (hrest b hbl hfb)
    · exact absurd hfb (hrest a hal hfa)
    · exact ih hnd hal hbl

end SequenceFamily
