import Mathlib

/-! The rectangles of cc_rect12f.c over exact numbers. The vertical axis of a rectangle goes up
or down, which the code tells from its top and bottom, and of two rectangles from the first. -/

namespace LibCC

/-- cc_rect1f_t -/
@[ext] structure Rect1f (K : Type) where
  t : K
  l : K
  w : K
  h : K
  deriving DecidableEq

/-- cc_rect2f_t -/
@[ext] structure Rect2f (K : Type) where
  t : K
  l : K
  b : K
  r : K
  deriving DecidableEq

variable {K : Type} [Field K] [LinearOrder K]

def rect1fInit (t l w h : K) : Rect1f K := ⟨t, l, w, h⟩

def rect1fCopy2f (self : Rect1f K) : Rect2f K := ⟨self.t, self.l, self.t + self.h, self.l + self.w⟩

def rect2fInit (t l b r : K) : Rect2f K := ⟨t, l, b, r⟩

def rect2fCopy1f (self : Rect2f K) : Rect1f K := ⟨self.t, self.l, self.r - self.l, self.b - self.t⟩

def rect2fContains (self : Rect2f K) (x y : K) : Bool :=
  let topLeft := self.b > self.t
  let t := if topLeft then self.b else self.t
  let b := if topLeft then self.t else self.b
  if y > t ∨ y < b ∨ x < self.l ∨ x > self.r then false else true

/-- A rectangle with its top and bottom exchanged. -/
def Rect2f.flip (self : Rect2f K) : Rect2f K := { self with t := self.b, b := self.t }

/-- The test and the intersection of cc_rect2f_intersect, with the top above the bottom. -/
def rect2fOverlap (a b : Rect2f K) : Bool × Rect2f K :=
  if a.t ≤ b.b ∨ a.b ≥ b.t ∨ a.l ≥ b.r ∨ a.r ≤ b.l then (false, rect2fInit 0 0 0 0)
  else
    (true,
      { t := if a.t < b.t then a.t else b.t
        l := if a.l > b.l then a.l else b.l
        b := if a.b > b.b then a.b else b.b
        r := if a.r < b.r then a.r else b.r })

/-- What cc_rect2f_intersect returns and what it writes to `c`. -/
def rect2fIntersect (a b : Rect2f K) : Bool × Rect2f K :=
  if a.b > a.t then -- top-left origin
    let c := rect2fOverlap a.flip b.flip
    if c.1 then (true, c.2.flip) else c
  else rect2fOverlap a b

def rect1fContains (self : Rect1f K) (x y : K) : Bool := rect2fContains (rect1fCopy2f self) x y

def rect1fIntersect (a b : Rect1f K) : Bool × Rect1f K :=
  let c2 := rect2fIntersect (rect1fCopy2f a) (rect1fCopy2f b)
  if c2.1 then (true, rect2fCopy1f c2.2) else (false, rect1fInit 0 0 0 0)

namespace Rect2f

/-- Both have the origin at the bottom, or both at the top. -/
def SameOrigin (a b : Rect2f K) : Prop := (a.b ≤ a.t ∧ b.b ≤ b.t) ∨ (a.t ≤ a.b ∧ b.t ≤ b.b)

def Interior (self : Rect2f K) (x y : K) : Prop :=
  min self.t self.b < y ∧ y < max self.t self.b ∧ self.l < x ∧ x < self.r

/-- The first has no height and lies within the height of the second, whose origin is at the
top, and their widths overlap. -/
def FlatWithin (a b : Rect2f K) : Prop :=
  a.t = a.b ∧ b.t < a.t ∧ a.t < b.b ∧ a.l < b.r ∧ b.l < a.r

/-- What intersecting the two should give. -/
structure Consistent (a b : Rect2f K) : Prop where
  symm : rect2fIntersect a b = rect2fIntersect b a
  contains : (rect2fIntersect a b).1 = true → ∀ x y,
    rect2fContains (rect2fIntersect a b).2 x y = true ↔
      rect2fContains a x y = true ∧ rect2fContains b x y = true
  apart : (rect2fIntersect a b).1 = false → ∀ x y, ¬ (a.Interior x y ∧ b.Interior x y)

/-- Two rectangles with the origin at the bottom have a common part. -/
def Meets (a b : Rect2f K) : Prop := b.b < a.t ∧ a.b < b.t ∧ a.l < b.r ∧ b.l < a.r

def meet (a b : Rect2f K) : Rect2f K := ⟨min a.t b.t, max a.l b.l, max a.b b.b, min a.r b.r⟩

variable {a b : Rect2f K}

omit [Field K] in
theorem meets_comm : a.Meets b ↔ b.Meets a :=
  ⟨fun h => ⟨h.2.1, h.1, h.2.2.2, h.2.2.1⟩, fun h => ⟨h.2.1, h.1, h.2.2.2, h.2.2.1⟩⟩

omit [Field K] in
theorem meet_comm (a b : Rect2f K) : a.meet b = b.meet a := by
  unfold meet
  rw [min_comm, max_comm a.l, max_comm a.b, min_comm a.r]

omit [Field K] in
theorem not_meets : ¬ a.Meets b ↔ a.t ≤ b.b ∨ a.b ≥ b.t ∨ a.l ≥ b.r ∨ a.r ≤ b.l := by
  unfold Meets
  rw [not_and_or, not_and_or, not_and_or, not_lt, not_lt, not_lt, not_lt]

theorem overlap_of_meets (h : a.Meets b) : rect2fOverlap a b = (true, a.meet b) := by
  have hn : ¬ (a.t ≤ b.b ∨ a.b ≥ b.t ∨ a.l ≥ b.r ∨ a.r ≤ b.l) := fun hc => not_meets.mpr hc h
  rw [rect2fOverlap, if_neg hn, meet, min_def_lt, min_def_lt, max_comm a.l, max_def_lt,
    max_comm a.b, max_def_lt]

theorem overlap_of_not_meets (h : ¬ a.Meets b) :
    rect2fOverlap a b = (false, rect2fInit 0 0 0 0) := if_pos (not_meets.mp h)

theorem overlap_comm (a b : Rect2f K) : rect2fOverlap a b = rect2fOverlap b a := by
  by_cases h : a.Meets b
  · rw [overlap_of_meets h, overlap_of_meets (meets_comm.mp h), meet_comm]
  · rw [overlap_of_not_meets h, overlap_of_not_meets fun hm => h (meets_comm.mp hm)]

theorem intersect_low (h : a.b ≤ a.t) : rect2fIntersect a b = rect2fOverlap a b :=
  if_neg (not_lt.mpr h)

/-- With the origin at the top the rectangles are exchanged with their flipped ones. -/
theorem intersect_high (h : a.t < a.b) :
    rect2fIntersect a b =
      ((rect2fOverlap a.flip b.flip).1, (rect2fOverlap a.flip b.flip).2.flip) := by
  rw [rect2fIntersect, if_pos h]
  by_cases hm : a.flip.Meets b.flip
  · rw [overlap_of_meets hm]
    rfl
  · rw [overlap_of_not_meets hm]
    rfl

/-- When only the first is flat and the origin of the second is at the top, their intersections
are the same unless the first is within the second. -/
theorem flat_comm_iff (ha : a.t = a.b) (hb : b.t < b.b) :
    rect2fIntersect a b = rect2fIntersect b a ↔ ¬ a.FlatWithin b := by
  have hnot : ¬ a.Meets b := by
    rintro ⟨hlt, hlt', -, -⟩
    rw [← ha] at hlt'
    exact absurd (hlt.trans hlt') hb.not_gt
  have hiff : b.flip.Meets a.flip ↔ a.FlatWithin b := by
    constructor
    · rintro ⟨htop, hbot, hl, hr⟩
      exact ⟨ha, ha ▸ hbot, htop, hr, hl⟩
    · rintro ⟨-, hbot, htop, hl, hr⟩
      have hbot' : b.t < a.b := ha ▸ hbot
      exact ⟨htop, hbot', hr, hl⟩
  rw [intersect_low ha.ge, overlap_of_not_meets hnot, intersect_high hb]
  by_cases hm : b.flip.Meets a.flip
  · rw [overlap_of_meets hm]
    simp [hiff.mp hm]
  · rw [overlap_of_not_meets hm]
    simp [mt hiff.mpr hm, rect2fInit, flip]

omit [Field K] in
theorem contains_iff (a : Rect2f K) (x y : K) :
    rect2fContains a x y = true ↔
      min a.t a.b ≤ y ∧ y ≤ max a.t a.b ∧ a.l ≤ x ∧ x ≤ a.r := by
  have hsplit : ∀ t b : K, (if y > t ∨ y < b ∨ x < a.l ∨ x > a.r then false else true) = true ↔
      b ≤ y ∧ y ≤ t ∧ a.l ≤ x ∧ x ≤ a.r := by
    intro t b
    split_ifs with h
    · refine iff_of_false (by simp) fun hc => ?_
      rcases h with h | h | h | h
      · exact absurd hc.2.1 (not_le.mpr h)
      · exact absurd hc.1 (not_le.mpr h)
      · exact absurd hc.2.2.1 (not_le.mpr h)
      · exact absurd hc.2.2.2 (not_le.mpr h)
    · simp only [not_or, not_lt] at h
      exact iff_of_true rfl ⟨h.2.1, h.1, h.2.2.1, h.2.2.2⟩
  unfold rect2fContains
  dsimp only
  rw [hsplit]
  split_ifs with h
  · rw [min_eq_left h.le, max_eq_right h.le]
  · rw [min_eq_right (not_lt.mp h), max_eq_left (not_lt.mp h)]

omit [Field K] in
theorem contains_flip (a : Rect2f K) (x y : K) :
    rect2fContains a.flip x y = true ↔ rect2fContains a x y = true := by
  rw [contains_iff, contains_iff]
  show min a.b a.t ≤ y ∧ y ≤ max a.b a.t ∧ _ ↔ _
  rw [min_comm, max_comm]
  rfl

omit [Field K] in
theorem interior_flip (a : Rect2f K) (x y : K) : a.flip.Interior x y ↔ a.Interior x y := by
  unfold Interior
  show min a.b a.t < y ∧ y < max a.b a.t ∧ _ ↔ _
  rw [min_comm, max_comm]
  rfl

omit [Field K] in
theorem contains_meet (ha : a.b ≤ a.t) (hb : b.b ≤ b.t) (hm : a.Meets b) (x y : K) :
    rect2fContains (a.meet b) x y = true ↔
      rect2fContains a x y = true ∧ rect2fContains b x y = true := by
  have hle : (a.meet b).b ≤ (a.meet b).t :=
    max_le (le_min ha hm.2.1.le) (le_min hm.1.le hb)
  rw [contains_iff, contains_iff, contains_iff, min_eq_right hle, max_eq_left hle,
    min_eq_right ha, max_eq_left ha, min_eq_right hb, max_eq_left hb]
  show max a.b b.b ≤ y ∧ y ≤ min a.t b.t ∧ max a.l b.l ≤ x ∧ x ≤ min a.r b.r ↔ _
  rw [max_le_iff, le_min_iff, max_le_iff, le_min_iff]
  tauto

omit [Field K] in
theorem meets_of_interior (ha : a.b ≤ a.t) (hb : b.b ≤ b.t) {x y : K} (hax : a.Interior x y)
    (hbx : b.Interior x y) : a.Meets b := by
  unfold Interior at hax hbx
  rw [min_eq_right ha, max_eq_left ha] at hax
  rw [min_eq_right hb, max_eq_left hb] at hbx
  exact ⟨hbx.1.trans hax.2.1, hax.1.trans hbx.2.1, hax.2.2.1.trans hbx.2.2.2,
    hbx.2.2.1.trans hax.2.2.2⟩

/-- What the test and the intersection are for, with both origins at the bottom. -/
theorem overlap_spec (ha : a.b ≤ a.t) (hb : b.b ≤ b.t) :
    ((rect2fOverlap a b).1 = true → ∀ x y, rect2fContains (rect2fOverlap a b).2 x y = true ↔
      rect2fContains a x y = true ∧ rect2fContains b x y = true) ∧
    ((rect2fOverlap a b).1 = false → ∀ x y, ¬ (a.Interior x y ∧ b.Interior x y)) := by
  by_cases hm : a.Meets b
  · rw [overlap_of_meets hm]
    exact ⟨fun _ => contains_meet ha hb hm, fun h => absurd h (by simp)⟩
  · rw [overlap_of_not_meets hm]
    exact ⟨fun h => absurd h (by simp),
      fun _ x y hin => hm (meets_of_interior ha hb hin.1 hin.2)⟩

theorem intersect_spec (h : SameOrigin a b) :
    ((rect2fIntersect a b).1 = true → ∀ x y, rect2fContains (rect2fIntersect a b).2 x y = true ↔
      rect2fContains a x y = true ∧ rect2fContains b x y = true) ∧
    ((rect2fIntersect a b).1 = false → ∀ x y, ¬ (a.Interior x y ∧ b.Interior x y)) := by
  rcases le_or_gt a.b a.t with ha | ha
  · rw [intersect_low ha]
    rcases le_or_gt b.b b.t with hb | hb
    · exact overlap_spec ha hb
    · -- then the first is flat
      have hflat : a.t = a.b := (h.resolve_left fun hc => absurd hc.2 hb.not_ge).1.antisymm ha
      have hnot : ¬ a.Meets b := by
        rintro ⟨hlt, hlt', -, -⟩
        rw [← hflat] at hlt'
        exact absurd (hlt.trans hlt') hb.not_gt
      rw [overlap_of_not_meets hnot]
      refine ⟨fun hc => absurd hc (by simp), fun _ x y hin => ?_⟩
      have hempty := hin.1.1.trans hin.1.2.1
      rw [hflat, min_self, max_self] at hempty
      exact lt_irrefl _ hempty
  · have hb : b.t ≤ b.b := (h.resolve_left fun hc => absurd hc.1 ha.not_ge).2
    obtain ⟨hcontains, hapart⟩ := overlap_spec (a := a.flip) (b := b.flip) ha.le hb
    rw [intersect_high ha]
    constructor
    · intro hflag x y
      rw [contains_flip, hcontains hflag, contains_flip, contains_flip]
    · intro hflag x y hin
      exact hapart hflag x y ⟨(interior_flip a x y).mpr hin.1, (interior_flip b x y).mpr hin.2⟩

/-- The order of the two matters only where one of them is flat. -/
theorem intersect_comm_iff (h : SameOrigin a b) :
    rect2fIntersect a b = rect2fIntersect b a ↔ ¬ a.FlatWithin b ∧ ¬ b.FlatWithin a := by
  have hflat : ∀ {c d : Rect2f K}, c.t ≠ c.b → ¬ c.FlatWithin d := fun hne hc => hne hc.1
  have hlow : ∀ {c d : Rect2f K}, d.b ≤ d.t → ¬ c.FlatWithin d :=
    fun hle hc => absurd (hc.2.1.trans hc.2.2.1) hle.not_gt
  rcases h with ⟨ha, hb⟩ | ⟨ha, hb⟩
  · rw [intersect_low ha, intersect_low hb]
    exact iff_of_true (overlap_comm a b) ⟨hlow hb, hlow ha⟩
  · rcases ha.lt_or_eq with ha | ha <;> rcases hb.lt_or_eq with hb | hb
    · rw [intersect_high ha, intersect_high hb, overlap_comm]
      exact iff_of_true rfl ⟨hflat ha.ne, hflat hb.ne⟩
    · rw [eq_comm, flat_comm_iff hb ha]
      exact ⟨fun hn => ⟨hflat ha.ne, hn⟩, fun hn => hn.2⟩
    · rw [flat_comm_iff ha hb]
      exact ⟨fun hn => ⟨hn, hflat hb.ne⟩, fun hn => hn.1⟩
    · rw [intersect_low ha.ge, intersect_low hb.ge]
      exact iff_of_true (overlap_comm a b) ⟨hlow hb.ge, hlow ha.ge⟩

theorem intersect_of_apart (h : (rect2fIntersect a b).1 = false) :
    rect2fIntersect a b = (false, rect2fInit 0 0 0 0) := by
  rcases le_or_gt a.b a.t with ha | ha
  · rw [intersect_low ha] at h ⊢
    by_cases hm : a.Meets b
    · rw [overlap_of_meets hm] at h
      exact absurd h (by simp)
    · exact overlap_of_not_meets hm
  · rw [intersect_high ha] at h ⊢
    by_cases hm : a.flip.Meets b.flip
    · rw [overlap_of_meets hm] at h
      exact absurd h (by simp)
    · rw [overlap_of_not_meets hm]
      rfl

theorem consistent_iff (h : SameOrigin a b) :
    Consistent a b ↔ ¬ a.FlatWithin b ∧ ¬ b.FlatWithin a := by
  obtain ⟨hcontains, hapart⟩ := intersect_spec h
  rw [← intersect_comm_iff h]
  exact ⟨fun hc => hc.symm, fun hs => ⟨hs, hcontains, hapart⟩⟩

end Rect2f

namespace Rect1f

def SameOrigin (a b : Rect1f K) : Prop := (rect1fCopy2f a).SameOrigin (rect1fCopy2f b)

def FlatWithin (a b : Rect1f K) : Prop := (rect1fCopy2f a).FlatWithin (rect1fCopy2f b)

structure Consistent (a b : Rect1f K) : Prop where
  symm : rect1fIntersect a b = rect1fIntersect b a
  contains : (rect1fIntersect a b).1 = true → ∀ x y,
    rect1fContains (rect1fIntersect a b).2 x y = true ↔
      rect1fContains a x y = true ∧ rect1fContains b x y = true
  apart : (rect1fIntersect a b).1 = false → ∀ x y,
    ¬ ((rect1fCopy2f a).Interior x y ∧ (rect1fCopy2f b).Interior x y)

variable {a b : Rect1f K}

omit [LinearOrder K] in
theorem copy2f_copy1f (c : Rect2f K) : rect1fCopy2f (rect2fCopy1f c) = c := by
  ext
  · rfl
  · rfl
  · exact add_sub_cancel c.t c.b
  · exact add_sub_cancel c.l c.r

theorem intersect_flag (a b : Rect1f K) :
    (rect1fIntersect a b).1 = (rect2fIntersect (rect1fCopy2f a) (rect1fCopy2f b)).1 := by
  unfold rect1fIntersect
  dsimp only
  split_ifs with h
  · exact h.symm
  · simpa using h

theorem intersect_copy2f (h : (rect1fIntersect a b).1 = true) :
    rect1fCopy2f (rect1fIntersect a b).2 =
      (rect2fIntersect (rect1fCopy2f a) (rect1fCopy2f b)).2 := by
  have hflag := h
  rw [intersect_flag] at hflag
  unfold rect1fIntersect
  dsimp only
  rw [if_pos hflag]
  exact copy2f_copy1f _

theorem intersect_comm_iff : rect1fIntersect a b = rect1fIntersect b a ↔
    rect2fIntersect (rect1fCopy2f a) (rect1fCopy2f b) =
      rect2fIntersect (rect1fCopy2f b) (rect1fCopy2f a) := by
  constructor
  · intro h
    have hflag := congrArg Prod.fst h
    rw [intersect_flag, intersect_flag] at hflag
    cases hf : (rect2fIntersect (rect1fCopy2f a) (rect1fCopy2f b)).1 with
    | false =>
      rw [Rect2f.intersect_of_apart hf, Rect2f.intersect_of_apart (hflag ▸ hf)]
    | true =>
      apply Prod.ext hflag
      rw [← intersect_copy2f ((intersect_flag a b).trans hf),
        ← intersect_copy2f ((intersect_flag b a).trans (hflag ▸ hf)), h]
  · intro h
    unfold rect1fIntersect
    rw [h]

theorem consistent_iff (h : a.SameOrigin b) :
    Consistent a b ↔ ¬ a.FlatWithin b ∧ ¬ b.FlatWithin a := by
  obtain ⟨hcontains, hapart⟩ := Rect2f.intersect_spec h
  have hcomm := intersect_comm_iff.trans (Rect2f.intersect_comm_iff h)
  refine ⟨fun hc => hcomm.mp hc.symm, fun hn => ⟨hcomm.mpr hn, fun hf x y => ?_, fun hf => ?_⟩⟩
  · unfold rect1fContains
    rw [intersect_copy2f hf]
    exact hcontains ((intersect_flag a b).symm.trans hf) x y
  · exact hapart ((intersect_flag a b).symm.trans hf)

end Rect1f

/-- Two rectangles with the same origin are intersected as they should, unless one of them has no
height and lies within the other one, with the origin at the top. -/
theorem rect_intersect_consistent (K : Type) [Field K] [LinearOrder K] :
    (∀ a b : Rect2f K, a.SameOrigin b →
      (a.Consistent b ↔ ¬ a.FlatWithin b ∧ ¬ b.FlatWithin a)) ∧
    ∀ a b : Rect1f K, a.SameOrigin b →
      (a.Consistent b ↔ ¬ a.FlatWithin b ∧ ¬ b.FlatWithin a) :=
  ⟨fun _ _ => Rect2f.consistent_iff, fun _ _ => Rect1f.consistent_iff⟩

theorem rect_intersect_consistent_overlap : (⟨0, 0, 2, 2⟩ : Rect2f ℚ).Consistent ⟨1, 1, 2, 2⟩ ∧
    (⟨0, 0, 2, 2⟩ : Rect1f ℚ).Consistent ⟨1, 1, 2, 2⟩ := by
  obtain ⟨h2, h1⟩ := rect_intersect_consistent ℚ
  constructor
  · refine (h2 _ _ (.inr ?_)).mpr ⟨?_, ?_⟩ <;> norm_num [Rect2f.FlatWithin]
  · refine (h1 _ _ (.inr ?_)).mpr ⟨?_, ?_⟩ <;>
      norm_num [Rect1f.FlatWithin, Rect2f.FlatWithin, rect1fCopy2f]

/-- A rectangle without height within one whose origin is at the top. -/
theorem rect_intersect_inconsistent :
    let a : Rect2f ℚ := ⟨1, 0, 1, 2⟩
    let b : Rect2f ℚ := ⟨0, 0, 2, 2⟩
    a.SameOrigin b ∧ rect2fIntersect a b = (false, ⟨0, 0, 0, 0⟩) ∧
      rect2fIntersect b a = (true, ⟨1, 0, 1, 2⟩) ∧
      rect2fContains ⟨1, 0, 1, 2⟩ 1 1 = true ∧ ¬ a.Consistent b := by
  have ha : rect2fIntersect (⟨1, 0, 1, 2⟩ : Rect2f ℚ) ⟨0, 0, 2, 2⟩ = (false, ⟨0, 0, 0, 0⟩) := by
    decide +kernel
  have hb : rect2fIntersect (⟨0, 0, 2, 2⟩ : Rect2f ℚ) ⟨1, 0, 1, 2⟩ = (true, ⟨1, 0, 1, 2⟩) := by
    decide +kernel
  refine ⟨.inr (by norm_num), ha, hb, by decide +kernel, fun h => ?_⟩
  have hflag := congrArg Prod.fst (ha.symm.trans (h.symm.trans hb))
  exact absurd hflag (by simp)

end LibCC
