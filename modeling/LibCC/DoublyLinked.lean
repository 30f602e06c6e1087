import Mathlib

/-! Doubly linked segments over arbitrary pointers, with one map for each
link field. Splicing an element in or out writes four links; the lemmas
say which sequence the links describe afterwards. -/

namespace DoublyLinked

variable {P : Type*}

/-- Following `f` from `o` visits exactly the elements of `l` and then stops. -/
def Follows (f : P → Option P) : Option P → List P → Prop
  | o, [] => o = none
  | o, x :: xs => o = some x ∧ Follows f (f x) xs

/-- The elements of `l` are linked in order; `p` precedes the segment and
`n` follows it. -/
def Links (next prev : P → Option P) : Option P → List P → Option P → Prop
  | _, [], _ => True
  | p, x :: xs, n => prev x = p ∧ next x = xs.head?.or n ∧ Links next prev (some x) xs n

theorem Follows.congr {f g : P → Option P} {o : Option P} {l : List P}
    (h : Follows f o l) (hg : ∀ x ∈ l, g x = f x) : Follows g o l := by
  induction l generalizing o with
  | nil => exact h
  | cons x xs ih =>
    refine ⟨h.1, ?_⟩
    rw [hg x (by simp)]
    exact ih h.2 (fun y hy => hg y (by simp [hy]))

theorem Follows.head_eq {f : P → Option P} {o : Option P} {l : List P}
    (h : Follows f o l) : o = l.head? := by
  cases l with
  | nil => exact h
  | cons x xs => exact h.1

theorem Links.congr {next prev next' prev' : P → Option P} {p n : Option P} {l : List P}
    (h : Links next prev p l n) (hn : ∀ x ∈ l, next' x = next x)
    (hp : ∀ x ∈ l, prev' x = prev x) : Links next' prev' p l n := by
  induction l generalizing p with
  | nil => trivial
  | cons x xs ih =>
    refine ⟨(hp x (by simp)).trans h.1, (hn x (by simp)).trans h.2.1, ?_⟩
    exact ih h.2.2 (fun y hy => hn y (by simp [hy])) (fun y hy => hp y (by simp [hy]))

theorem links_append {next prev : P → Option P} {p n : Option P} (a b : List P) :
    Links next prev p (a ++ b) n ↔
      Links next prev p a (b.head?.or n) ∧ Links next prev (a.getLast?.or p) b n := by
  induction a generalizing p with
  | nil => simp [Links]
  | cons x a ih =>
    have hlast : (x :: a).getLast?.or p = a.getLast?.or (some x) := by
      rw [List.getLast?_cons]
      cases a.getLast? <;> simp
    simp only [List.cons_append, Links, ih, List.head?_append, Option.or_assoc, hlast, and_assoc]

theorem Links.neighbours {next prev : P → Option P} {a b : List P} {x : P}
    (h : Links next prev none (a ++ x :: b) none) : prev x = a.getLast? ∧ next x = b.head? := by
  have hh := ((links_append a (x :: b)).mp h).2
  exact ⟨by simpa using hh.1, by simpa using hh.2.1⟩

theorem Links.follows_next {next prev : P → Option P} {p : Option P} {l : List P}
    (h : Links next prev p l none) : Follows next l.head? l := by
  induction l generalizing p with
  | nil => rfl
  | cons x xs ih =>
    refine ⟨rfl, ?_⟩
    rw [h.2.1, Option.or_none]
    exact ih h.2.2

theorem Links.follows_prev {next prev : P → Option P} {n : Option P} {l : List P}
    (h : Links next prev none l n) : Follows prev l.getLast? l.reverse := by
  induction l using List.reverseRecOn generalizing n with
  | nil => rfl
  | append_singleton xs x ih =>
    have hh := (links_append xs [x]).mp h
    rw [List.reverse_append, List.getLast?_append]
    refine ⟨rfl, ?_⟩
    rw [hh.2.1, Option.or_none]
    exact ih hh.1

section Splice

variable [DecidableEq P]

/-- `if(o) o->f = v`. -/
def writeAt (f : P → Option P) : Option P → Option P → P → Option P
  | none, _ => f
  | some x, v => Function.update f x v

@[simp] theorem writeAt_none (f : P → Option P) (v : Option P) : writeAt f none v = f := rfl

@[simp] theorem writeAt_some (f : P → Option P) (x : P) (v : Option P) :
    writeAt f (some x) v = Function.update f x v := rfl

theorem writeAt_of_ne {f : P → Option P} {o v : Option P} {y : P} (h : o ≠ some y) :
    writeAt f o v y = f y := by
  cases o with
  | none => rfl
  | some x => exact Function.update_of_ne (fun he => h (by rw [he])) _ _

theorem writeAt_of_notMem_getLast {f : P → Option P} {l : List P} {v : Option P} {y : P}
    (h : y ∉ l) : writeAt f l.getLast? v y = f y :=
  writeAt_of_ne (fun he => h (List.mem_of_mem_getLast? he))

theorem writeAt_of_notMem_head {f : P → Option P} {l : List P} {v : Option P} {y : P}
    (h : y ∉ l) : writeAt f l.head? v y = f y :=
  writeAt_of_ne (fun he => h (List.mem_of_mem_head? he))

theorem Links.retarget_last {next prev : P → Option P} {p n : Option P} {l : List P}
    (h : Links next prev p l n) (hnd : l.Nodup) (m : Option P) :
    Links (writeAt next l.getLast? m) prev p l m := by
  induction l using List.reverseRecOn with
  | nil => trivial
  | append_singleton xs x _ =>
    have hh := (links_append xs [x]).mp h
    have hx : x ∉ xs := fun hx => (List.nodup_append.mp hnd).2.2 x hx x (by simp) rfl
    rw [List.getLast?_append, List.getLast?_singleton, Option.some_or, writeAt_some, links_append]
    refine ⟨hh.1.congr (fun y hy => Function.update_of_ne (ne_of_mem_of_not_mem hy hx) _ _)
      (fun _ _ => rfl), hh.2.1, ?_, trivial⟩
    simp

theorem Links.retarget_head {next prev : P → Option P} {p n : Option P} {l : List P}
    (h : Links next prev p l n) (hnd : l.Nodup) (m : Option P) :
    Links next (writeAt prev l.head? m) m l n := by
  cases l with
  | nil => trivial
  | cons x xs =>
    have hx := (List.nodup_cons.mp hnd).1
    refine ⟨by simp, h.2.1, h.2.2.congr (fun _ _ => rfl) (fun y hy => ?_)⟩
    exact Function.update_of_ne (ne_of_mem_of_not_mem hy hx) _ _

theorem Links.erase {next prev : P → Option P} {a b : List P} {x : P}
    (h : Links next prev none (a ++ x :: b) none) (hnd : (a ++ x :: b).Nodup) :
    Links (writeAt next a.getLast? b.head?) (writeAt prev b.head? a.getLast?) none (a ++ b)
      none := by
  have hh := (links_append a (x :: b)).mp h
  obtain ⟨ha, hb, hdis⟩ := List.nodup_append.mp hnd
  have hlb := hh.2.2.2
  have hna : ∀ y ∈ b, y ∉ a := fun y hy hya => hdis y hya y (by simp [hy]) rfl
  refine (links_append a b).mpr ⟨?_, ?_⟩
  · refine (hh.1.retarget_last ha (b.head?.or none)).congr (fun y hy => ?_) (fun y hy => ?_)
    · rw [Option.or_none]
    · exact writeAt_of_notMem_head (fun hyb => hna y hyb hy)
  · rw [Option.or_none]
    refine (hlb.retarget_head (List.nodup_cons.mp hb).2 a.getLast?).congr (fun y hy => ?_)
      (fun y hy => rfl)
    exact writeAt_of_notMem_getLast (hna y hy)

theorem Links.insert {next prev : P → Option P} {a b : List P} {x : P}
    (h : Links next prev none (a ++ b) none) (hnd : (a ++ b).Nodup) (hx : x ∉ a ++ b) :
    Links (writeAt (Function.update next x b.head?) a.getLast? (some x))
      (writeAt (Function.update prev x a.getLast?) b.head? (some x)) none (a ++ x :: b) none := by
  have hh := (links_append a b).mp h
  obtain ⟨ha, hb, hdis⟩ := List.nodup_append.mp hnd
  have hna : ∀ y ∈ b, y ∉ a := fun y hy hya => hdis y hya y hy rfl
  have hxa : x ∉ a := fun hm => hx (List.mem_append_left _ hm)
  have hxb : x ∉ b := fun hm => hx (List.mem_append_right _ hm)
  have hne : ∀ y ∈ a ++ b, y ≠ x := fun y hy he => hx (he ▸ hy)
  refine (links_append a (x :: b)).mpr ⟨?_, ?_, ?_, ?_⟩
  · refine ((hh.1.congr (fun y hy => ?_) (fun _ _ => rfl)).retarget_last ha (some x)).congr
      (fun _ _ => rfl) (fun y hy => ?_)
    · exact Function.update_of_ne (hne y (List.mem_append_left _ hy)) _ _
    · rw [writeAt_of_notMem_head (fun hyb => hna y hyb hy)]
      exact Function.update_of_ne (hne y (List.mem_append_left _ hy)) _ _
  · rw [writeAt_of_notMem_head hxb, Function.update_self, Option.or_none]
  · rw [writeAt_of_notMem_getLast hxa, Function.update_self, Option.or_none]
  · refine ((hh.2.congr (fun _ _ => rfl) (fun y hy => ?_)).retarget_head hb (some x)).congr
      (fun y hy => ?_) (fun _ _ => rfl)
    · exact Function.update_of_ne (hne y (List.mem_append_right _ hy)) _ _
    · rw [writeAt_of_notMem_getLast (hna y hy)]
      exact Function.update_of_ne (hne y (List.mem_append_right _ hy)) _ _

theorem Follows.cut {f : P → Option P} {o : Option P} {a b : List P}
    (h : Follows f o (a ++ b)) (ha : a ≠ []) (hnd : (a ++ b).Nodup) :
    Follows (writeAt f a.getLast? none) o a ∧ Follows (writeAt f a.getLast? none) b.head? b := by
  induction a generalizing o with
  | nil => exact absurd rfl ha
  | cons x a ih =>
    have hx := (List.nodup_cons.mp hnd).1
    cases a with
    | nil =>
      have hb : Follows f b.head? b := by
        have hh : Follows f (f x) b := h.2
        rwa [hh.head_eq] at hh
      refine ⟨⟨h.1, by simp [Follows]⟩, hb.congr (fun y hy => ?_)⟩
      exact Function.update_of_ne (ne_of_mem_of_not_mem hy hx) _ _
    | cons y a =>
      have hh := ih h.2 (by simp) (List.nodup_cons.mp hnd).2
      have hlast : (x :: y :: a).getLast? = (y :: a).getLast? := by simp
      rw [hlast]
      refine ⟨⟨h.1, ?_⟩, hh.2⟩
      rw [writeAt_of_notMem_getLast (fun hm => hx (List.mem_append_left _ hm))]
      exact hh.1

/-- Hanging the chain `b` on the last element of the chain `a`. -/
theorem Follows.append {f : P → Option P} {o : Option P} {a b : List P} (h : Follows f o a)
    (hb : Follows f b.head? b) (ha : a ≠ []) (hnd : (a ++ b).Nodup) :
    Follows (writeAt f a.getLast? b.head?) o (a ++ b) := by
  induction a generalizing o with
  | nil => exact absurd rfl ha
  | cons x a ih =>
    obtain ⟨hx, hnd⟩ := List.nodup_cons.mp hnd
    have hxa : x ∉ a := fun hm => hx (List.mem_append_left _ hm)
    cases a with
    | nil =>
      refine ⟨h.1, ?_⟩
      show Follows (Function.update f x b.head?) (Function.update f x b.head? x) b
      rw [Function.update_self]
      exact hb.congr fun y hy => Function.update_of_ne (ne_of_mem_of_not_mem hy hx) _ _
    | cons y a =>
      have hh := ih h.2 (by simp) hnd
      have hlast : (x :: y :: a).getLast? = (y :: a).getLast? := by simp
      rw [hlast]
      refine ⟨h.1, ?_⟩
      rw [writeAt_of_notMem_getLast hxa]
      exact hh

theorem Links.join {next prev : P → Option P} {a b : List P}
    (ha : Links next prev none a none) (hb : Links next prev none b none)
    (hnd : (a ++ b).Nodup) :
    Links (writeAt next a.getLast? b.head?) (writeAt prev b.head? a.getLast?) none (a ++ b)
      none := by
  obtain ⟨hda, hdb, hdis⟩ := List.nodup_append.mp hnd
  have hna : ∀ y ∈ b, y ∉ a := fun y hy hya => hdis y hya y hy rfl
  rw [links_append, Option.or_none, Option.or_none]
  refine ⟨(ha.retarget_last hda b.head?).congr (fun _ _ => rfl) (fun y hy => ?_),
    (hb.retarget_head hdb a.getLast?).congr (fun y hy => ?_) (fun _ _ => rfl)⟩
  · exact writeAt_of_notMem_head (fun hyb => hna y hyb hy)
  · exact writeAt_of_notMem_getLast (hna y hy)

end Splice

end DoublyLinked
