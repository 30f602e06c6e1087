import LibCC.TracedMultimapAnswers

/-! Runs of cc_multimap in a heap whose allocations may fail, and what becomes
of its memory. -/

namespace LibCC

open AllocEvent FramedProgram SequenceFamily

variable {V : Type}

/-- cc_multimap_delete releases the map without its nodes, and no list. -/
theorem multimapDelete_framed (self : TracedMultimap V) :
    Framed HeapAccount self.holds (Traced.multimapDelete self)
      (fun _ => self.map.nodeItems self.map.map.seq + self.listsHold self.live) := by
  apply Framed.take (F := {(.memory, .block self.self)} + self.listsHold self.live) ?_
    (Traced.mapDelete_framed self.map)
  · intro _
    refine ((Traced.heapFree_framed .memory self.self).frame
      (self.map.nodeItems self.map.map.seq + self.listsHold self.live)).congr ?_ ?_
    · abel
    · exact fun _ => zero_add _
  · rw [TracedMultimap.holds]
    abel

/-- What a caller of cc_multimap_new holds. -/
def multimapHolds : Option (TracedMultimap V) → Holding
  | none => 0
  | some self => self.holds

theorem multimapNew_framed (compare : Option (V → V → Int)) (seed : UInt32)
    (nodes : IterPtr → MapNode Nat) (data : IterPtr → V) :
    Framed HeapAccount 0 (Traced.multimapNew compare seed nodes data) multimapHolds := by
  apply Framed.bind (Traced.heapAlloc_framed .memory)
  rintro (_ | self)
  · exact .pure rfl
  apply Framed.take (F := Holding.block .memory (some self)) (zero_add _).symm
    (Traced.mapNewFlags_framed 0 seed nodes)
  rintro (_ | map)
  · exact ((Traced.heapFree_framed .memory self).congr (zero_add _) fun _ => rfl).bind
      fun _ => .pure rfl
  · apply Framed.pure
    show {(AllocFamily.memory, Piece.block self)} + map.holds + 0 = map.holds + _
    rw [Holding.block]
    abel

theorem multimapNew_returns (compare : Option (V → V → Int)) (seed : UInt32)
    (nodes : IterPtr → MapNode Nat) (data : IterPtr → V) :
    Returns (Traced.multimapNew compare seed nodes data) (fun r => ∀ self, r = some self →
      self.content = multimapNew compare seed nodes data) := by
  apply Returns.next
  rintro (_ | self)
  · exact .pure (by simp)
  refine (Traced.mapNewFlags_returns 0 seed nodes).bind ?_
  rintro (_ | map) hmap
  · exact .next fun _ => .pure (by simp)
  · apply Returns.pure
    rintro _ ⟨⟩
    rw [TracedMultimap.content, (hmap map rfl).2.1]
    rfl

/-- The multimap and the heap after calls in any order, with any allocations that fail. `n` counts
the calls of cc_multimap_addp, and `table` has the values with the numbers of the calls. Between two
calls others use the heap. -/
inductive TracedMultimapRun (hashFn : UInt32 → List UInt8 → UInt32)
    (compare : Option (V → V → Int)) :
    Nat → MultimapTable V → TracedMultimap V → TracedHeap → Prop
  | new {self : TracedMultimap V} {s s' : TracedHeap} {R : Holding} (seed : UInt32)
      (nodes : IterPtr → MapNode Nat) (data : IterPtr → V) : HeapAccount s R →
      (Traced.multimapNew compare seed nodes data).run s = (some self, s') →
      TracedMultimapRun hashFn compare 0 (fun _ => []) self s'
  | addp {n : Nat} {table : MultimapTable V} {self self' : TracedMultimap V} {s s' : TracedHeap}
      (mem : UInt64 → UInt8) (val : V) {len : Nat} (key : UInt64) {k : MapKey} {r : Int} :
      TracedMultimapRun hashFn compare n table self s → len ≤ mapKeyLen →
      mapKeyBytes mem len key = some k →
      (Traced.multimapAddp hashFn mem self val len key).run s = ((r, self'), s') →
      self'.map.map.capacity ≤ 2 ^ 30 →
      TracedMultimapRun hashFn compare (n + 1)
        (if r = 0 then table else table.add compare k (n, val)) self' s'
  | remove {n : Nat} {table : MultimapTable V} {self self' : TracedMultimap V} {s s' : TracedHeap}
      {miter iter : IterPtr} {key : MapKey} {i : Nat} {r : V × Option MultimapIter} :
      TracedMultimapRun hashFn compare n table self s →
      (MultimapIter.mk miter (some iter)).Points self.content key i →
      (Traced.multimapRemove self miter iter).run s = ((r.1, r.2, self'), s') →
      TracedMultimapRun hashFn compare n (table.remove key i) self' s'
  | discard {n : Nat} {table : MultimapTable V} {self self' : TracedMultimap V}
      {s s' : TracedHeap} : TracedMultimapRun hashFn compare n table self s →
      (Traced.multimapDiscard self).run s = (self', s') →
      TracedMultimapRun hashFn compare n (fun _ => []) self' s'
  | others {n : Nat} {table : MultimapTable V} {self : TracedMultimap V} {s s' : TracedHeap}
      {R : Holding} : TracedMultimapRun hashFn compare n table self s →
      HeapAccount s' (self.holds + R) → TracedMultimapRun hashFn compare n table self s'

section Runs

variable {hashFn : UInt32 → List UInt8 → UInt32} {compare : Option (V → V → Int)} {n : Nat}
  {table : MultimapTable V}

/-- What a multimap stores, whatever order its values are in. -/
theorem MultimapRun.holds {L : Type} [DecidableEq L] {self : CcMultimap L V}
    (h : MultimapRun hashFn compare n table self) :
    ∃ m vals, MultimapHolds hashFn m vals self := by
  induction h with
  | new seed nodes data => exact ⟨_, _, .new hashFn compare seed nodes data⟩
  | addp mem val key _ _ hk ha ih =>
    obtain ⟨m, vals, hm⟩ := ih
    rcases multimapAddp_cases hm.rep ha hk val with ⟨self', he, hs, -⟩ |
      ⟨miter, list, iter, a, b, hmk, hi, hl, he, -, -⟩ |
      ⟨hn, miter, list, iter, map, hl, hi, hmiter, hr, he⟩
    · rw [he]
      exact ⟨_, _, hm.same hs⟩
    · rw [he]
      exact ⟨_, _, (hm.put hmk hl (ha.iter iter hi) val).2⟩
    · rw [he]
      exact ⟨_, _, hm.putList hn hmiter (ha.list list hl) hr (ha.iter iter hi) val⟩
  | remove _ hp ih =>
    obtain ⟨m, vals, hm⟩ := ih
    obtain ⟨m', hm', -⟩ := hm.remove hp
    exact ⟨_, _, hm'⟩
  | discard _ ih =>
    obtain ⟨m, vals, hm⟩ := ih
    obtain ⟨m', hm', -⟩ := hm.discard
    exact ⟨_, _, hm'⟩

variable {self : TracedMultimap V} {s : TracedHeap}

/-- Every call does to what is stored what a call of MultimapRun does. -/
theorem TracedMultimapRun.account (h : TracedMultimapRun hashFn compare n table self s) :
    MultimapRun hashFn compare n table self.content ∧ ∃ R, MultimapAccount self s R := by
  induction h with
  | @new self s s' R seed nodes data hs hr =>
    have hret := multimapNew_returns compare seed nodes data s self (by rw [hr])
    rw [← zero_add R] at hs
    have hs' := (multimapNew_framed compare seed nodes data).ran hr hs
    rw [hret]
    refine ⟨.new seed nodes data, R, ?_, hs'⟩
    have hlive : self.live = [] := congrArg CcMultimap.live hret
    intro list hm
    rw [hlive] at hm
    cases hm
  | @addp n table self self' s s' mem val len key k r hrun hlen hk hr hc ih =>
    obtain ⟨hcontent, R, hacc⟩ := ih
    obtain ⟨m, vals, hm⟩ := hcontent.holds
    obtain ⟨r', s'', alloc, hr', ha⟩ := multimapAddp_answered hacc hm.inv hashFn mem val len key
    rw [hr] at hr'
    cases hr'
    obtain ⟨alloc', hserves, he⟩ := ha.serves hm.inv.map hc
    have hnext := MultimapRun.addp mem val key hcontent hlen hk hserves
    rw [he] at hnext
    exact ⟨hnext, R, ha.account⟩
  | @remove n table self self' s s' miter iter key i r hrun hp hr ih =>
    obtain ⟨hcontent, R, hacc⟩ := ih
    obtain ⟨m, vals, hm⟩ := hcontent.holds
    obtain ⟨⟨x, p⟩, hx, he, -⟩ := hp.position
    cases he
    obtain ⟨r', s'', hr', hacc', hres⟩ := multimapRemove_run hacc hm.inv hx
    rw [hr] at hr'
    cases hr'
    have hnext := hcontent.remove hp
    have hcall : (multimapRemove self.content ⟨x, some p⟩).2.2 = self'.content :=
      congrArg (fun r => r.2.2) hres
    rw [hcall] at hnext
    exact ⟨hnext, R, hacc'⟩
  | @discard n table self self' s s' hrun hr ih =>
    obtain ⟨hcontent, R, hacc⟩ := ih
    obtain ⟨m, vals, hm⟩ := hcontent.holds
    obtain ⟨r', s'', hr', hacc', he, -, -⟩ := multimapDiscardLoop_run hacc hm.inv rfl
    have hr' : (Traced.multimapDiscard self).run s = (r', s'') := hr'
    rw [hr] at hr'
    cases hr'
    have hnext := hcontent.discard
    rw [multimapDiscard] at hnext
    exact ⟨he ▸ hnext, R, hacc'⟩
  | others _ hs ih =>
    obtain ⟨hcontent, R, hacc⟩ := ih
    exact ⟨hcontent, _, hacc.headed, hs⟩

/-- A multimap stores what its calls describe, whatever allocations fail, and a call of
cc_multimap_addp that fails changes neither what it stores nor what it holds. -/
theorem multimap_run_refines (h : TracedMultimapRun hashFn compare n table self s) :
    MultimapRun hashFn compare n table self.content ∧
    ∀ R, HeapAccount s (self.holds + R) → ∀ mem val len key self' s',
      (Traced.multimapAddp hashFn mem self val len key).run s = ((0, self'), s') →
      MultimapSame self.content self'.content ∧ self'.holds = self.holds ∧
        HeapAccount s' (self.holds + R) := by
  obtain ⟨hcontent, R₀, hacc₀⟩ := h.account
  obtain ⟨m, vals, hm⟩ := hcontent.holds
  refine ⟨hcontent, ?_⟩
  intro R hs mem val len key self' s' hr
  obtain ⟨r, s'', alloc, hr', ha⟩ := multimapAddp_answered ⟨hacc₀.headed, hs⟩ hm.inv hashFn mem val
    len key
  rw [hr] at hr'
  cases hr'
  obtain ⟨hmap, hholds⟩ := ha.failed rfl
  have hacc := ha.account.account
  rw [show (((0, self') : Int × TracedMultimap V).2).holds = self.holds from hholds] at hacc
  refine ⟨?_, hholds, hacc⟩
  obtain ⟨k, hk, hcap⟩ := hm.inv.map.capacity
  have hle : self.map.map.capacity ≤ 2 ^ 30 := by
    have hpow : 2 ^ k ≤ 2 ^ 26 := Nat.pow_le_pow_right (by omega) hk
    rw [show self.map.map.capacity = mapCapacity * 2 ^ k from hcap, mapCapacity]
    omega
  obtain ⟨alloc', hserves, he⟩ := ha.serves hm.inv.map (by rw [hmap]; exact hle)
  have hzero : (multimapAddp hashFn mem self.content val len key alloc').1 = 0 :=
    congrArg Prod.fst he
  have hsame : MultimapSame self.content
      (multimapAddp hashFn mem self.content val len key alloc').2 := by
    cases hk : mapKeyBytes mem len key with
    | none =>
      obtain ⟨self'', he', hs'⟩ := multimapAddp_long hk hserves val
      rw [he']
      exact hs'
    | some k =>
      rcases multimapAddp_cases hm.rep hserves hk val with ⟨self'', he', hs', -⟩ |
        ⟨_, _, _, _, _, -, -, -, he', -⟩ | ⟨-, _, _, _, _, -, -, -, -, he'⟩
      · rw [he']
        exact hs'
      · rw [he'] at hzero
        exact absurd hzero one_ne_zero
      · rw [he'] at hzero
        exact absurd hzero one_ne_zero
  rw [he] at hsame
  exact hsame

/-- What cc_multimap_discard and cc_multimap_delete leave of a multimap: nothing; and what
cc_multimap_delete leaves alone: the nodes of the map and the lists with their iters. -/
theorem multimap_reclaims (h : TracedMultimapRun hashFn compare n table self s) :
    (∃ R, HeapAccount s (self.holds + R)) ∧
    ∀ R, HeapAccount s (self.holds + R) →
      HeapAccount ((Traced.multimapDiscard self >>= Traced.multimapDelete).run s).2 R ∧
      HeapAccount ((Traced.multimapDelete self).run s).2
        (self.map.nodeItems self.map.map.seq + self.listsHold self.live + R) := by
  obtain ⟨hcontent, R₀, hacc₀⟩ := h.account
  obtain ⟨m, vals, hm⟩ := hcontent.holds
  refine ⟨⟨R₀, hacc₀.account⟩, ?_⟩
  intro R hs
  refine ⟨?_, multimapDelete_framed self s R hs⟩
  obtain ⟨r, s', hr, hacc, -, hnil, hempty⟩ :=
    multimapDiscardLoop_run ⟨hacc₀.headed, hs⟩ hm.inv rfl
  have hdelete := multimapDelete_framed r s' R hacc.account
  rw [hnil, hempty] at hdelete
  have hnone : r.map.nodeItems [] + r.listsHold [] + R = R := zero_add R
  rw [hnone] at hdelete
  have hr : (Traced.multimapDiscard self).run s = (r, s') := hr
  rw [run_bind_of hr]
  exact hdelete

end Runs

/-- The multimap that cc_multimap_new makes of the first four blocks. -/
def firstMultimap : TracedMultimap Nat where
  self := 0
  map := ⟨1, 0, 2, ⟨3, 0, []⟩, fun _ => 0, mapNew 0 fun _ => mapNodeZero⟩
  compare := none
  lists := ListSeqs.empty fun _ => 0
  headers _ := ⟨0, 0, []⟩
  live := []

/-- A heap that has granted four of the eight calls that it grants. -/
def firstHeap : TracedHeap :=
  { TracedHeap.new (fun i => decide (i < 8)) fun _ _ => none with
    requests := 4
    trace := (List.range 4).reverse.map fun i => .alloc .memory (some (.block i)) }

theorem firstMultimap_run :
    TracedMultimapRun (fun _ _ => 7) none 0 (fun _ => []) firstMultimap firstHeap :=
  .new (s := .new (fun i => decide (i < 8)) fun _ _ => none) 0 _ _ (heapAccount_new _ _) rfl

theorem firstMultimap_account : MultimapAccount firstMultimap firstHeap 0 := by
  refine ⟨fun _ hm => absurd hm List.not_mem_nil, ?_⟩
  have hnew : HeapAccount (.new (fun i => decide (i < 8)) fun _ _ => none) (0 + 0) :=
    heapAccount_new _ _
  exact (multimapNew_framed none 0 _ _).ran (a := some firstMultimap) rfl hnew

/-- The multimap and the heap after a further value. -/
def addedTo (val len : Nat) (run : (Int × TracedMultimap Nat) × TracedHeap) :
    (Int × TracedMultimap Nat) × TracedHeap :=
  (Traced.multimapAddp (fun _ _ => 7) (fun _ => 0) run.1.2 val len 8).run run.2

theorem addedTo_run {n : Nat} {run : (Int × TracedMultimap Nat) × TracedHeap}
    (h : ∃ table, TracedMultimapRun (fun _ _ => 7) none n table run.1.2 run.2 ∧
      MultimapAccount run.1.2 run.2 0) (val len : Nat) (hl : len ≤ mapKeyLen)
    (hcap : (addedTo val len run).1.2.map.map.capacity ≤ 2 ^ 30) :
    ∃ table, TracedMultimapRun (fun _ _ => 7) none (n + 1) table (addedTo val len run).1.2
      (addedTo val len run).2 ∧
      MultimapAccount (addedTo val len run).1.2 (addedTo val len run).2 0 := by
  obtain ⟨table, hrun, hacc⟩ := h
  obtain ⟨m, vals, hm⟩ := hrun.account.1.holds
  obtain ⟨k, hk⟩ := mapKeyBytes_some (fun _ => 0) hl 8
  obtain ⟨r, s', alloc, hr, hanswered⟩ := multimapAddp_answered hacc hm.inv
    (fun _ _ => 7) (fun _ => 0) val len 8
  have hadded : addedTo val len run = (r, s') := hr
  rw [hadded] at hcap ⊢
  exact ⟨_, .addp (fun _ => 0) val 8 hrun hl hk hr hcap, hanswered.account⟩

/-- The multimap and the heap when one value is in. -/
def firstAdd : (Int × TracedMultimap Nat) × TracedHeap :=
  (Traced.multimapAddp (fun _ _ => 7) (fun _ => 0) firstMultimap 5 3 8).run firstHeap

theorem firstAdd_run :
    ∃ table, TracedMultimapRun (fun _ _ => 7) none 1 table firstAdd.1.2 firstAdd.2 ∧
      HeapAccount firstAdd.2 (firstAdd.1.2.holds + 0) := by
  have hadded : addedTo 5 3 ((1, firstMultimap), firstHeap) = firstAdd := rfl
  have hrun := @addedTo_run 0 ((1, firstMultimap), firstHeap)
    ⟨_, firstMultimap_run, firstMultimap_account⟩ 5 3 (by decide)
  rw [hadded] at hrun
  obtain ⟨table, hrun, hacc⟩ := hrun (by decide +kernel)
  exact ⟨table, hrun, hacc.account⟩

/-- A second key: the list, its iter and the value come to be, but no node for the map. -/
theorem multimap_run_refines_refused : ∃ self' s',
    (Traced.multimapAddp (fun _ _ => 7) (fun _ => 0) firstAdd.1.2 6 4 8).run firstAdd.2 =
      ((0, self'), s') ∧
    MultimapSame firstAdd.1.2.content self'.content ∧ self'.holds = firstAdd.1.2.holds := by
  have hzero : ((Traced.multimapAddp (fun _ _ => 7) (fun _ => 0) firstAdd.1.2 6 4 8).run
      firstAdd.2).1.1 = 0 := by decide +kernel
  obtain ⟨table, h, hacc⟩ := firstAdd_run
  rcases hr : (Traced.multimapAddp (fun _ _ => 7) (fun _ => 0) firstAdd.1.2 6 4 8).run
    firstAdd.2 with ⟨⟨r, self'⟩, s'⟩
  rw [hr] at hzero
  cases hzero
  obtain ⟨hsame, hholds, -⟩ := (multimap_run_refines h).2 0 hacc _ 6 4 8 _ _ hr
  exact ⟨self', s', rfl, hsame, hholds⟩

/-- A heap that has granted four calls and refuses none. -/
def ampleHeap : TracedHeap :=
  { TracedHeap.new (fun _ => true) fun _ _ => none with
    requests := 4
    trace := (List.range 4).reverse.map fun i => .alloc .memory (some (.block i)) }

/-- Two values of one key and one of another with the same hash. -/
def threeAdds : (Int × TracedMultimap Nat) × TracedHeap :=
  addedTo 6 3 (addedTo 9 4 (addedTo 5 3 ((1, firstMultimap), ampleHeap)))

theorem threeAdds_run : ∃ table,
    TracedMultimapRun (fun _ _ => 7) none 3 table threeAdds.1.2 threeAdds.2 ∧
      MultimapAccount threeAdds.1.2 threeAdds.2 0 := by
  have hnew : HeapAccount (.new (fun _ => true) fun _ _ => none) 0 := heapAccount_new _ _
  have h₀ : MultimapAccount firstMultimap ampleHeap 0 :=
    ⟨fun _ hm => absurd hm List.not_mem_nil,
      (multimapNew_framed none 0 _ _).ran (a := some firstMultimap) rfl hnew⟩
  have h₁ := @addedTo_run 0 ((1, firstMultimap), ampleHeap) ⟨_, .new 0 _ _ hnew rfl, h₀⟩ 5 3
    (by decide) (by decide +kernel)
  have h₂ := @addedTo_run 1 (addedTo 5 3 _) h₁ 9 4 (by decide) (by decide +kernel)
  have h₃ := @addedTo_run 2 (addedTo 9 4 _) h₂ 6 3 (by decide)
  rw [← threeAdds] at h₃
  exact h₃ (by decide +kernel)

/-- Discard and delete give back all that two keys and three values took. -/
theorem multimap_reclaims_three :
    threeAdds.1.2.live.map threeAdds.1.2.content.values = [[9], [5, 6]] ∧
    HeapAccount ((Traced.multimapDiscard threeAdds.1.2 >>= Traced.multimapDelete).run
      threeAdds.2).2 0 := by
  obtain ⟨table, h, hacc⟩ := threeAdds_run
  exact ⟨by decide +kernel, ((multimap_reclaims h).2 0 hacc.account).1⟩

end LibCC
