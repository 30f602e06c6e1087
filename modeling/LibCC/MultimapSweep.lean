import LibCC.MultimapTable

/-! A traversal of a multimap that removes some of the values it meets. Each step lands on the
position that followed the current one before the step. -/

namespace LibCC

open SequenceFamily NestedTraversal

variable {L V : Type}

/-- One turn of the loop: the position, its key and value, and what cc_multimap_remove returned
if the turn removed the value. -/
structure MultimapVisit (V : Type) where
  pos : MultimapIter
  key : MapKey
  val : Option V
  removed : Option (Option V)
  deriving DecidableEq

/-- A traversal with cc_multimap_next, of at most `n` turns. -/
def multimapWalk (self : CcMultimap L V) : Nat → Option MultimapIter →
    List (MultimapIter × MapKey × Option V)
  | _, none => []
  | 0, some _ => []
  | n + 1, some mmiter =>
    (mmiter, multimapKey self mmiter, multimapVal self mmiter) ::
      multimapWalk self n (multimapNext self mmiter)

/-- The loop with a removal wherever `drop` says so, of at most `n` turns: the visits, the
iterator at the end, and the multimap. -/
def multimapSweep [DecidableEq L] (drop : MapKey → V → Bool) : Nat → Option MultimapIter →
    CcMultimap L V → List (MultimapVisit V) × Option MultimapIter × CcMultimap L V
  | _, none, self => ([], none, self)
  | 0, some mmiter, self => ([], some mmiter, self)
  | n + 1, some mmiter, self =>
    let key := multimapKey self mmiter
    let val := multimapVal self mmiter
    if val.any (drop key) then
      let removed := multimapRemove self mmiter
      let rest := multimapSweep drop n removed.2.1 removed.2.2
      (⟨mmiter, key, val, some removed.1⟩ :: rest.1, rest.2)
    else
      let rest := multimapSweep drop n (multimapNext self mmiter) self
      (⟨mmiter, key, val, none⟩ :: rest.1, rest.2)

namespace CcMultimap

def keyAt (self : CcMultimap L V) (x : IterPtr × IterPtr) : MapKey := (self.map.node x.1).key

def valAt (self : CcMultimap L V) (x : IterPtr × IterPtr) : V := self.lists.data x.2

def drops (self : CcMultimap L V) (drop : MapKey → V → Bool) (x : IterPtr × IterPtr) : Bool :=
  drop (self.keyAt x) (self.valAt x)

def entry (self : CcMultimap L V) (x : IterPtr × IterPtr) : MultimapIter × MapKey × Option V :=
  (.ofPos x, self.keyAt x, some (self.valAt x))

def visit (self : CcMultimap L V) (drop : MapKey → V → Bool) (x : IterPtr × IterPtr) :
    MultimapVisit V :=
  ⟨.ofPos x, self.keyAt x, some (self.valAt x),
    if self.drops drop x then some (some (self.valAt x)) else none⟩

end CcMultimap

section

variable {self : CcMultimap L V} {k l : List (IterPtr × IterPtr)}

theorem MultimapInv.after_eq (h : MultimapInv self) {x : IterPtr × IterPtr}
    (hp : self.positions = k ++ x :: l) :
    x ∈ self.positions ∧ x ∉ k ∧ after x self.positions = l := by
  have hnd := h.positions_nodup
  rw [hp] at hnd
  have hx : x ∉ k := fun hm => (List.nodup_append.mp hnd).2.2 x hm x (by simp) rfl
  exact ⟨by simp [hp], hx, by rw [hp, after_split hx]⟩

theorem multimapWalk_suffix (h : MultimapInv self) {n : Nat} (hp : self.positions = k ++ l)
    (hn : l.length ≤ n) :
    multimapWalk self n (l.head?.map MultimapIter.ofPos) = l.map self.entry := by
  induction l generalizing k n with
  | nil => cases n <;> rfl
  | cons x l ih =>
    obtain ⟨n, rfl⟩ : ∃ m, n = m + 1 := ⟨n - 1, by simp only [List.length_cons] at hn; omega⟩
    obtain ⟨hx, -, hafter⟩ := h.after_eq hp
    have hnext := multimapNext_eq h hx
    rw [hafter] at hnext
    have hrest := ih (k := k ++ [x]) (n := n) (by simpa using hp)
      (by simp only [List.length_cons] at hn; omega)
    simp only [List.head?_cons, Option.map_some, multimapWalk, hnext, hrest, List.map_cons]
    rfl

theorem multimapWalk_head (h : MultimapInv self) {n : Nat} (hn : self.positions.length ≤ n) :
    multimapWalk self n (multimapHead self) = self.positions.map self.entry := by
  rw [multimapHead_eq h]
  exact multimapWalk_suffix h (k := []) rfl hn

variable [DecidableEq L]

theorem drop_visit (self : CcMultimap L V) (drop : MapKey → V → Bool) (x : IterPtr × IterPtr) :
    (self.drop x).drops drop = self.drops drop ∧ (self.drop x).visit drop = self.visit drop ∧
      (self.drop x).entry = self.entry := by
  have hkey : (self.drop x).keyAt = self.keyAt := by
    funext y
    rw [CcMultimap.keyAt, drop_node, CcMultimap.keyAt]
  have hval : (self.drop x).valAt = self.valAt := by
    funext y
    rw [CcMultimap.valAt, drop_data, CcMultimap.valAt]
  have hdrops : (self.drop x).drops drop = self.drops drop := by
    funext y
    rw [CcMultimap.drops, hkey, hval, CcMultimap.drops]
  refine ⟨hdrops, funext fun y => ?_, funext fun y => ?_⟩
  · rw [CcMultimap.visit, hdrops, hkey, hval, CcMultimap.visit]
  · rw [CcMultimap.entry, hkey, hval, CcMultimap.entry]

/-- What the loop has kept stays in front of what it has still to visit. -/
theorem multimapSweep_suffix (drop : MapKey → V → Bool) {n : Nat} (h : MultimapInv self)
    (hp : self.positions = k ++ l) (hn : l.length ≤ n) :
    (multimapSweep drop n (l.head?.map MultimapIter.ofPos) self).1 = l.map (self.visit drop) ∧
    (multimapSweep drop n (l.head?.map MultimapIter.ofPos) self).2.1 = none ∧
    MultimapInv (multimapSweep drop n (l.head?.map MultimapIter.ofPos) self).2.2 ∧
    (multimapSweep drop n (l.head?.map MultimapIter.ofPos) self).2.2.positions =
      k ++ l.filter (fun x => !self.drops drop x) ∧
    (multimapSweep drop n (l.head?.map MultimapIter.ofPos) self).2.2.entry = self.entry := by
  induction l generalizing k n self with
  | nil => cases n <;> exact ⟨rfl, rfl, h, hp, rfl⟩
  | cons x l ih =>
    obtain ⟨n, rfl⟩ : ∃ m, n = m + 1 := ⟨n - 1, by simp only [List.length_cons] at hn; omega⟩
    have hn' : l.length ≤ n := by simp only [List.length_cons] at hn; omega
    obtain ⟨hx, hxk, hafter⟩ := h.after_eq hp
    have hany : (multimapVal self (.ofPos x)).any (drop (multimapKey self (.ofPos x))) =
        self.drops drop x := rfl
    simp only [List.head?_cons, Option.map_some, multimapSweep, hany]
    by_cases hd : self.drops drop x = true
    · have hpos : (self.drop x).positions = k ++ l := by
        rw [drop_positions h hx, hp, erase_split hxk]
      obtain ⟨hdrops, hvisit, hentry⟩ := drop_visit self drop x
      obtain ⟨h₁, h₂, h₃, h₄, h₅⟩ := ih (n := n) (h.drop hx) hpos hn'
      rw [hvisit] at h₁
      rw [hdrops] at h₄
      rw [if_pos hd, multimapRemove_eq h hx, hafter]
      refine ⟨?_, h₂, h₃, by simpa [hd] using h₄, h₅.trans hentry⟩
      rw [h₁, List.map_cons, CcMultimap.visit, if_pos hd]
      rfl
    · have hnext := multimapNext_eq h hx
      rw [hafter] at hnext
      obtain ⟨h₁, h₂, h₃, h₄, h₅⟩ := ih (k := k ++ [x]) (n := n) h (by simpa using hp) hn'
      rw [if_neg hd, hnext]
      refine ⟨?_, h₂, h₃, by simpa [hd] using h₄, h₅⟩
      rw [h₁, List.map_cons, CcMultimap.visit, if_neg hd]
      rfl

omit [DecidableEq L] in
theorem mem_walk_pos (h : MultimapInv self) {n : Nat} (hn : self.positions.length ≤ n)
    (mmiter : MultimapIter) :
    mmiter ∈ (multimapWalk self n (multimapHead self)).map Prod.fst ↔
      ∃ x ∈ self.positions, mmiter = .ofPos x := by
  rw [multimapWalk_head h hn, List.map_map, List.mem_map]
  exact ⟨fun ⟨x, hx, he⟩ => ⟨x, hx, he.symm⟩, fun ⟨x, hx, he⟩ => ⟨x, hx, he.symm⟩⟩

omit [DecidableEq L] in
theorem ofPos_injective : Function.Injective MultimapIter.ofPos := by
  rintro ⟨m, p⟩ ⟨m', p'⟩ he
  have hm : m = m' := congrArg MultimapIter.miter he
  have hp : some p = some p' := congrArg MultimapIter.iter he
  rw [hm, Option.some.inj hp]

omit [DecidableEq L] in
theorem walk_getLast (h : MultimapInv self) {n : Nat} (hn : self.positions.length ≤ n)
    {x : IterPtr × IterPtr} (hx : x ∈ self.positions) :
    ((multimapWalk self n (multimapHead self)).map Prod.fst).getLast? = some (.ofPos x) ↔
      after x self.positions = [] := by
  have hmap : (self.positions.map self.entry).map Prod.fst =
      self.positions.map MultimapIter.ofPos := by
    rw [List.map_map]
    rfl
  rw [after_eq_nil h.positions_nodup hx, multimapWalk_head h hn, hmap, List.getLast?_map]
  constructor
  · intro he
    obtain ⟨y, hy, heq⟩ := Option.map_eq_some_iff.mp he
    rw [hy, ofPos_injective heq]
  · intro he
    rw [he]
    rfl

/-- Removing during a traversal: every value is met once, in the order of a plain traversal, and
the values that stay keep their order. -/
theorem multimap_sweep (h : MultimapInv self) (drop : MapKey → V → Bool) {n : Nat}
    (hn : self.positions.length ≤ n) :
    -- a plain traversal meets every stored value once
    ((multimapWalk self n (multimapHead self)).map Prod.fst).Nodup ∧
    (∀ mmiter, mmiter ∈ (multimapWalk self n (multimapHead self)).map Prod.fst ↔
      mmiter.miter ∈ self.map.seq ∧
        ∃ iter ∈ self.lists.seq (self.list mmiter.miter), mmiter.iter = some iter) ∧
    -- the loop visits the same values in the same order, and ends
    (multimapSweep drop n (multimapHead self) self).1.map (fun v => (v.pos, v.key, v.val)) =
      multimapWalk self n (multimapHead self) ∧
    (multimapSweep drop n (multimapHead self) self).2.1 = none ∧
    (∀ v ∈ (multimapSweep drop n (multimapHead self) self).1,
      v.removed = if v.val.any (drop v.key) then some v.val else none) ∧
    -- what is left
    MultimapInv (multimapSweep drop n (multimapHead self) self).2.2 ∧
    multimapWalk (multimapSweep drop n (multimapHead self) self).2.2 n
        (multimapHead (multimapSweep drop n (multimapHead self) self).2.2) =
      (multimapWalk self n (multimapHead self)).filter (fun e => !e.2.2.any (drop e.2.1)) ∧
    (∀ miter ∈ (multimapSweep drop n (multimapHead self) self).2.2.map.seq,
      (multimapSweep drop n (multimapHead self) self).2.2.items miter ≠ []) ∧
    -- each call of cc_multimap_remove
    ∀ mmiter ∈ (multimapWalk self n (multimapHead self)).map Prod.fst,
      (multimapRemove self mmiter).1 = multimapVal self mmiter ∧
      (multimapRemove self mmiter).2.1 = multimapNext self mmiter ∧
      ((multimapRemove self mmiter).2.1 = none ↔
        ((multimapWalk self n (multimapHead self)).map Prod.fst).getLast? = some mmiter) := by
  have hnil : self.positions = [] ++ self.positions := rfl
  obtain ⟨hvisit, hend, hinv, hpos, hentry⟩ := multimapSweep_suffix drop h hnil hn
  rw [← multimapHead_eq h] at hvisit hend hinv hpos hentry
  have hwalk := multimapWalk_head h hn
  have hfst : (self.positions.map self.entry).map Prod.fst =
      self.positions.map MultimapIter.ofPos := by
    rw [List.map_map]
    rfl
  have hlen : (multimapSweep drop n (multimapHead self) self).2.2.positions.length ≤ n := by
    rw [hpos]
    exact (List.length_filter_le _ _).trans hn
  refine ⟨?_, fun mmiter => ?_, ?_, hend, fun v hv => ?_, hinv, ?_, hinv.nonempty,
    fun mmiter hm => ?_⟩
  · rw [hwalk, hfst]
    exact h.positions_nodup.map ofPos_injective
  · rw [mem_walk_pos h hn]
    constructor
    · rintro ⟨x, hx, rfl⟩
      obtain ⟨hm, hp⟩ := mem_positions.mp hx
      exact ⟨hm, x.2, hp, rfl⟩
    · rintro ⟨hm, iter, hp, he⟩
      refine ⟨(mmiter.miter, iter), mem_positions.mpr ⟨hm, hp⟩, ?_⟩
      rw [MultimapIter.ofPos, ← he]
  · rw [hvisit, hwalk, List.map_map]
    rfl
  · rw [hvisit] at hv
    obtain ⟨x, -, rfl⟩ := List.mem_map.mp hv
    rfl
  · rw [multimapWalk_head hinv hlen, hpos, hentry, hwalk, List.nil_append, List.filter_map]
    rfl
  · obtain ⟨x, hx, rfl⟩ := (mem_walk_pos h hn mmiter).mp hm
    rw [multimapRemove_eq h hx, multimapNext_eq h hx, walk_getLast h hn hx]
    refine ⟨rfl, rfl, ?_⟩
    simp

end

/-- The loop removes the even values, and with one of them its key. -/
theorem multimap_sweep_even :
    let swept := multimapSweep (fun _ val => val % 2 == 0) 4 (multimapHead multimapFour)
      multimapFour
    let walk := multimapWalk multimapFour 4 (multimapHead multimapFour)
    walk.map (fun e => e.2.2) = [some 70, some 31, some 52, some 57] ∧
    swept.1.map (fun v => (v.pos, v.key, v.val)) = walk ∧ swept.2.1 = none ∧
    multimapWalk swept.2.2 4 (multimapHead swept.2.2) =
      walk.filter (fun e => !e.2.2.any fun val => val % 2 == 0) ∧
    mapSize swept.2.2.map = 1 := by
  intro swept walk
  obtain ⟨n, table, hrun⟩ := multimapFour_run
  obtain ⟨m, hrep⟩ := hrun.rep tensCompare_preorder
  have hfour : multimapFour.positions.length ≤ 4 := by decide +kernel
  obtain ⟨-, -, hvisits, hend, -, -, hleft, -⟩ :=
    multimap_sweep hrep.inv (fun _ val => val % 2 == 0) hfour
  exact ⟨by decide +kernel, hvisits, hend, hleft, by decide +kernel⟩

end LibCC
