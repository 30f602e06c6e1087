import LibCC.SequenceFamily
import LibCC.SortedSearch

/-! A cursor that moves up through a set of a linear order while elements come
into the set and leave it. It sees nothing twice, and at the end it has seen
all elements that were there the whole time. -/

namespace OrderedCursor

open SequenceFamily SortedSearch

variable {R : Type*} [LinearOrder R]

/-- `seen` has the latest element last; `stayed` are the elements that were
there at the start and have not left since. -/
structure Cursor (R : Type*) where
  live : Set R
  pos : Option R
  seen : List R
  stayed : Set R

def Starts (live : Set R) : Option R → Prop
  | none => live = ∅
  | some r => IsLeast live r

/-- `next` is the least element beyond `pos`, if there is one. -/
def Follows (live : Set R) (pos : R) : Option R → Prop
  | none => ∀ r ∈ live, r ≤ pos
  | some next => IsLeast {r ∈ live | pos < r} next

namespace Cursor

def start (live : Set R) (pos : Option R) : Cursor R := ⟨live, pos, pos.toList, live⟩

def move (c : Cursor R) (next : Option R) : Cursor R :=
  { c with pos := next, seen := c.seen ++ next.toList }

def remove (c : Cursor R) (r : R) : Cursor R :=
  { c with live := c.live \ {r}, stayed := c.stayed \ {r} }

end Cursor

inductive Step : Cursor R → Cursor R → Prop
  | insert {c : Cursor R} (r : R) : Step c { c with live := insert r c.live }
  | remove {c : Cursor R} {r : R} (hr : c.pos ≠ some r) : Step c (c.remove r)
  | next {c : Cursor R} {p : R} {next : Option R} (hp : c.pos = some p)
      (hn : Follows c.live p next) : Step c (c.move next)
  | drop {c : Cursor R} {p : R} {next : Option R} (hp : c.pos = some p)
      (hn : Follows c.live p next) : Step c ((c.remove p).move next)

structure Inv (c : Cursor R) : Prop where
  seen : c.seen.Pairwise (· < ·)
  last : ∀ p, c.pos = some p → p ∈ c.live ∧ ∃ l, c.seen = l ++ [p]
  stayed : c.stayed ⊆ c.live
  behind : ∀ r ∈ c.stayed, (∀ p, c.pos = some p → r ≤ p) → r ∈ c.seen

variable {c c' : Cursor R}

theorem start_inv {live : Set R} {pos : Option R} (h : Starts live pos) :
    Inv (Cursor.start live pos) := by
  cases pos with
  | none =>
    refine ⟨List.Pairwise.nil, nofun, subset_rfl, fun r hr _ => ?_⟩
    have hlive : live = ∅ := h
    change r ∈ live at hr
    rw [hlive] at hr
    exact absurd hr (Set.notMem_empty r)
  | some q =>
    refine ⟨List.pairwise_singleton _ q, fun p hp => ?_, subset_rfl, fun r hr hle => ?_⟩
    · obtain rfl := Option.some.inj hp
      exact ⟨h.1, [], rfl⟩
    · have he : r = q := le_antisymm (hle q rfl) (h.2 hr)
      exact List.mem_singleton.mpr he

theorem Inv.seen_le (h : Inv c) {p : R} (hp : c.pos = some p) : ∀ r ∈ c.seen, r ≤ p := by
  obtain ⟨-, l, hl⟩ := h.last p hp
  have hasc := h.seen
  rw [hl] at hasc ⊢
  intro r hr
  rcases List.mem_append.mp hr with hr | hr
  · exact ((List.pairwise_append.mp hasc).2.2 r hr p (by simp)).le
  · exact (List.mem_singleton.mp hr).le

theorem Inv.remove (h : Inv c) {r : R} (hr : c.pos ≠ some r) : Inv (c.remove r) := by
  refine ⟨h.seen, fun p hp => ?_, Set.sdiff_subset_sdiff_left h.stayed, fun q hq => ?_⟩
  · obtain ⟨hm, hl⟩ := h.last p hp
    have hne : p ≠ r := fun he => hr (he ▸ hp)
    exact ⟨⟨hm, hne⟩, hl⟩
  · exact h.behind q hq.1

/-- Moving on to the next element leaves none out. -/
theorem Inv.move (h : Inv c) {p : R} (hp : c.pos = some p) {next : Option R}
    (hn : Follows c.live p next) : Inv (c.move next) := by
  have hle := h.seen_le hp
  cases next with
  | none =>
    have hseen : (c.move none).seen = c.seen := List.append_nil c.seen
    refine ⟨by rw [hseen]; exact h.seen, nofun, h.stayed, fun r hr _ => ?_⟩
    rw [hseen]
    apply h.behind r hr
    intro q hq
    obtain rfl := Option.some.inj (hp.symm.trans hq)
    exact hn r (h.stayed hr)
  | some next =>
    obtain ⟨⟨hlive, hlt⟩, hleast⟩ := hn
    refine ⟨List.pairwise_append.mpr ⟨h.seen, List.pairwise_singleton _ next, ?_⟩, ?_, h.stayed, ?_⟩
    · intro r hr s hs
      rw [List.mem_singleton.mp hs]
      exact (hle r hr).trans_lt hlt
    · intro q hq
      obtain rfl := Option.some.inj hq
      exact ⟨hlive, c.seen, rfl⟩
    · intro r hr hrle
      have hrn : r ≤ next := hrle next rfl
      apply List.mem_append.mpr
      by_cases hrp : r ≤ p
      · left
        apply h.behind r hr
        intro q hq
        obtain rfl := Option.some.inj (hp.symm.trans hq)
        exact hrp
      · right
        have hge : next ≤ r := hleast ⟨h.stayed hr, not_le.mp hrp⟩
        exact List.mem_singleton.mpr (le_antisymm hrn hge)

omit [LinearOrder R] in
/-- An element may as well leave once the cursor has moved on. -/
theorem move_remove (c : Cursor R) (p : R) (next : Option R) :
    (c.remove p).move next = (c.move next).remove p := rfl

theorem Step.inv (hs : Step c c') (h : Inv c) : Inv c' := by
  cases hs with
  | insert r =>
    refine ⟨h.seen, fun p hp => ?_, h.stayed.trans (Set.subset_insert r _), h.behind⟩
    obtain ⟨hm, hl⟩ := h.last p hp
    exact ⟨Set.mem_insert_of_mem r hm, hl⟩
  | remove hr => exact h.remove hr
  | next hp hn => exact h.move hp hn
  | @drop p next hp hn =>
    rw [move_remove]
    apply (h.move hp hn).remove
    rintro rfl
    exact absurd hn.1.2 (lt_irrefl p)

section Sequence

variable {P : Type*} {rank : P → R} {l : List P}

/-- The ranks of a sequence. -/
def ranks (rank : P → R) (l : List P) : Set R := {r | ∃ x ∈ l, rank x = r}

theorem starts_head (h : Ascending rank l) : Starts (ranks rank l) (l.head?.map rank) := by
  cases l with
  | nil =>
    ext r
    simp [ranks]
  | cons x l =>
    refine ⟨⟨x, by simp, rfl⟩, ?_⟩
    rintro r ⟨y, hy, rfl⟩
    rcases List.mem_cons.mp hy with rfl | hy
    · exact le_refl _
    · exact (h.head_lt y hy).le

omit [LinearOrder R] in
theorem ranks_congr {rank' : P → R} (h : ∀ x ∈ l, rank' x = rank x) :
    ranks rank' l = ranks rank l := by
  ext r
  constructor
  · rintro ⟨x, hx, rfl⟩
    exact ⟨x, hx, (h x hx).symm⟩
  · rintro ⟨x, hx, rfl⟩
    exact ⟨x, hx, h x hx⟩

omit [LinearOrder R] in
theorem ranks_perm {l' : List P} (h : l.Perm l') : ranks rank l = ranks rank l' := by
  ext r
  simp only [ranks, Set.mem_ofPred_eq, h.mem_iff]

omit [LinearOrder R] in
theorem ranks_cons (x : P) (l : List P) : ranks rank (x :: l) = insert (rank x) (ranks rank l) := by
  ext r
  simp [ranks, eq_comm]

variable [DecidableEq P]

theorem ranks_erase (h : Ascending rank l) {x : P} (hx : x ∈ l) :
    ranks rank (l.erase x) = ranks rank l \ {rank x} := by
  ext r
  constructor
  · rintro ⟨y, hy, rfl⟩
    obtain ⟨hne, hy⟩ := (h.nodup.mem_erase_iff).mp hy
    exact ⟨⟨y, hy, rfl⟩, fun he => hne (h.rank_inj hy hx he)⟩
  · rintro ⟨⟨y, hy, rfl⟩, hne⟩
    exact ⟨y, h.nodup.mem_erase_iff.mpr ⟨fun he => hne (he ▸ rfl), hy⟩, rfl⟩

/-- The successor in an ascending sequence is the least element beyond. -/
theorem follows_after (h : Ascending rank l) {p : P} (hp : p ∈ l) :
    Follows (ranks rank l) (rank p) ((after p l).head?.map rank) := by
  obtain ⟨a, b, rfl, ha⟩ := split_of_mem hp
  rw [after_split ha]
  obtain ⟨-, hpb, hab⟩ := List.pairwise_append.mp h
  have hle : ∀ y ∈ a ++ p :: b, rank y ≤ rank p ∨ y ∈ b := by
    intro y hy
    rcases List.mem_append.mp hy with hy | hy
    · exact .inl (hab y hy p (by simp)).le
    · rcases List.mem_cons.mp hy with rfl | hy
      · exact .inl (le_refl _)
      · exact .inr hy
  cases b with
  | nil =>
    rintro r ⟨y, hy, rfl⟩
    exact (hle y hy).resolve_right List.not_mem_nil
  | cons q c =>
    refine ⟨⟨⟨q, by simp, rfl⟩, Ascending.head_lt hpb q (by simp)⟩, ?_⟩
    rintro r ⟨⟨y, hy, rfl⟩, hlt⟩
    rcases List.mem_cons.mp ((hle y hy).resolve_left (not_le.mpr hlt)) with rfl | hy
    · exact le_refl _
    · exact (Ascending.head_lt (Ascending.tail hpb) y hy).le

theorem countP_above (h : Ascending rank l) {p : P} [DecidablePred fun y => rank p < rank y]
    (hp : p ∈ l) :
    l.countP (fun y => rank p < rank y) = (after p l).length := by
  obtain ⟨a, b, rfl, ha⟩ := split_of_mem hp
  rw [after_split ha]
  obtain ⟨-, hpb, hab⟩ := List.pairwise_append.mp h
  have hlow : a.countP (fun y => rank p < rank y) = 0 := by
    apply List.countP_eq_zero.mpr
    intro y hy
    simpa using (hab y hy p (by simp)).le
  have hhigh : b.countP (fun y => rank p < rank y) = b.length := by
    apply List.countP_eq_length.mpr
    intro y hy
    simpa using Ascending.head_lt hpb y hy
  rw [List.countP_append, List.countP_cons_of_neg (by simp), hlow, hhigh, zero_add]

omit [LinearOrder R] in
theorem after_head (hnd : l.Nodup) {p q : P} (hp : p ∈ l) (hq : (after p l).head? = some q) :
    q ∈ l ∧ (after p l).length = (after q l).length + 1 := by
  obtain ⟨a, b, rfl, ha⟩ := split_of_mem hp
  rw [after_split ha] at hq ⊢
  cases b with
  | nil => exact absurd hq nofun
  | cons y c =>
    obtain rfl := Option.some.inj hq
    have hsplit : a ++ p :: y :: c = (a ++ [p]) ++ y :: c := by simp
    have hy : y ∉ a ++ [p] := by
      intro hm
      rw [hsplit] at hnd
      exact List.disjoint_of_nodup_append hnd hm (by simp)
    exact ⟨by simp, by rw [hsplit, after_split hy, List.length_cons]⟩

end Sequence

end OrderedCursor
