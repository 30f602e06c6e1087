import LibCC.MapStrings

/-! A map with string keys as a finite map from strings to entries, and the calls for which the
array of a formatted call makes no difference. -/

namespace LibCC

open SequenceFamily

abbrev StringTable (V : Type) := CString → Option (IterPtr × V)

/-- A call with the string that it is about. The plain calls have it in memory at `key`, and the
formatted calls make it and have their array there. -/
inductive StringCall (V : Type)
  | find (mem : UInt64 → UInt8) (key : UInt64) (s : CString)
  | findf (mem : UInt64 → UInt8) (key : UInt64) (s : CString)
  | add (mem : UInt64 → UInt8) (key : UInt64) (s : CString) (val : V)
  | addf (mem : UInt64 → UInt8) (key : UInt64) (s : CString) (val : V)
  | remove (miter : IterPtr)

variable {V : Type}

def StringTable.Live (m : StringTable V) (miter : IterPtr) : Prop :=
  ∃ s val, m s = some (miter, val)

/-- CALLOC succeeds, and cc_list finds an iter that is not in use. -/
def MapAlloc.Supplies (alloc : MapAlloc) (self : CcMap V) : Prop :=
  alloc.node = true ∧ ∃ miter, alloc.iter = some miter ∧ miter ∉ self.seq

namespace StringCall

def Legal (m : StringTable V) : StringCall V → Prop
  | find mem key s | add mem key s _ => s.At mem key
  | findf _ _ _ | addf _ _ _ _ => True
  | remove miter => m.Live miter

/-- A plain call gets a string whose size an int can tell. A formatted call gets one that its
array holds, or else what the array holds does not matter: a lookup does not find it, and an
entry is not added since it is there. -/
def Fits (m : StringTable V) : StringCall V → Prop
  | find _ _ s | add _ _ s _ => s.IntFits
  | findf _ _ s => s.length < mapKeyLen ∨ m s.inArray = none
  | addf _ _ s _ => s.length < mapKeyLen ∨ m s.inArray ≠ none
  | remove _ => True

def Formatted : StringCall V → Prop
  | findf _ _ _ | addf _ _ _ _ => True
  | find _ _ _ | add _ _ _ _ | remove _ => False

def exec (hashFn : UInt32 → List UInt8 → UInt32) (alloc : MapAlloc) (self : CcMap V) :
    StringCall V → Option (MapResult V × CcMap V)
  | find mem key _ => (mapFind hashFn mem self key).map fun r => (.iter r, self)
  | findf mem key s => (mapFindf hashFn mem self key s).map fun r => (.iter r, self)
  | add mem key _ val => (mapAdd hashFn mem self val key alloc).map fun r => (.iter r.1, r.2)
  | addf mem key s val => (mapAddf hashFn mem self val key s alloc).map fun r => (.iter r.1, r.2)
  | remove miter => let r := mapRemove self miter; some (.val r.1, r.2.2)

/-- The finite map after a call that returned `r`. -/
def next (m : StringTable V) (r : MapResult V) : StringCall V → StringTable V
  | add _ _ s val | addf _ _ s val =>
    match r with
    | .iter (some miter) => Function.update m s (some (miter, val))
    | _ => m
  | remove miter => fun s => (m s).filter (fun e => e.1 ≠ miter)
  | find _ _ _ | findf _ _ _ => m

/-- What a call on the finite map returns. -/
def Returns (m : StringTable V) (r : MapResult V) : StringCall V → Prop
  | find _ _ s | findf _ _ s => r = .iter ((m s).map Prod.fst)
  | add _ _ s _ | addf _ _ s _ =>
    ∃ miter, r = .iter miter ∧ (miter = none ↔ m s ≠ none ∨ mapKeyLen ≤ s.length) ∧
      ∀ new, miter = some new → ¬ m.Live new
  | remove miter => ∀ s val, m s = some (miter, val) → r = .val val

/-- The call has a result, and it is that of the finite map. -/
def Behaves (hashFn : UInt32 → List UInt8 → UInt32) (alloc : MapAlloc) (m : StringTable V)
    (self : CcMap V) (call : StringCall V) : Prop :=
  ∃ r self', call.exec hashFn alloc self = some (r, self') ∧ call.Returns m r

end StringCall

/-- The map that a program has after calls that fit, with the finite map that they describe. -/
inductive StringRun (hashFn : UInt32 → List UInt8 → UInt32) : StringTable V → CcMap V → Prop
  | new (seed : UInt32) (data : IterPtr → MapNode V) :
      StringRun hashFn (fun _ => none) (mapNew seed data)
  | step {m : StringTable V} {self self' : CcMap V} (call : StringCall V) {alloc : MapAlloc}
      {r : MapResult V} : StringRun hashFn m self → call.Legal m → call.Fits m →
      alloc.Supplies self → call.exec hashFn alloc self = some (r, self') →
      mapSize self' ≤ 2 ^ 30 → StringRun hashFn (call.next m r) self'

/-- The map stores under the key of each string what the table has for the string. -/
def StringRep (hashFn : UInt32 → List UInt8 → UInt32) (m : StringTable V) (self : CcMap V) :
    Prop :=
  ∃ mk, MapRep hashFn mk self ∧ ∀ s, m s = s.key?.bind mk

section

variable {hashFn : UInt32 → List UInt8 → UInt32} {m : StringTable V} {self : CcMap V}
  {alloc : MapAlloc} {call : StringCall V}

theorem StringRep.long (h : StringRep hashFn m self) {s : CString} (hs : mapKeyLen ≤ s.length) :
    m s = none := by
  obtain ⟨mk, -, hm⟩ := h
  rw [hm, CString.key?_eq_none.mpr hs]
  rfl

theorem StringRep.mem_of_live (h : StringRep hashFn m self) {miter : IterPtr}
    (hl : m.Live miter) : miter ∈ self.seq := by
  obtain ⟨mk, hrep, hm⟩ := h
  obtain ⟨s, val, he⟩ := hl
  rw [hm] at he
  obtain ⟨k, -, hk⟩ := Option.bind_eq_some_iff.mp he
  exact ((hrep.entries k miter val).mp hk).1

/-- Where a formatted lookup fits, its array makes no difference. -/
theorem StringRep.inArray (h : StringRep hashFn m self) {s : CString}
    (hf : s.length < mapKeyLen ∨ m s.inArray = none) : m s.inArray = m s := by
  by_cases hlt : s.length < mapKeyLen
  · rw [CString.inArray_of_lt hlt]
  · rw [hf.resolve_left hlt, h.long (not_lt.mp hlt)]

theorem StringRep.find (h : StringRep hashFn m self) (s : CString) :
    mapFindString hashFn self s = (m s).map Prod.fst := by
  obtain ⟨mk, hrep, hm⟩ := h
  rw [hm, mapFindString]
  cases s.key? with
  | none => rfl
  | some k => exact hrep.find k

/-- A string that is bound or too long is not added, and any other is. -/
theorem StringRep.add (h : StringRep hashFn m self) (ha : alloc.Supplies self) (s : CString)
    (val : V) (hs : mapSize (mapAddString hashFn self val s alloc).2 ≤ 2 ^ 30) :
    ((m s ≠ none ∨ mapKeyLen ≤ s.length) ∧ mapAddString hashFn self val s alloc = (none, self)) ∨
    (m s = none ∧ s.length < mapKeyLen) ∧ ∃ miter, miter ∉ self.seq ∧
      (mapAddString hashFn self val s alloc).1 = some miter ∧
      StringRep hashFn (Function.update m s (some (miter, val)))
        (mapAddString hashFn self val s alloc).2 := by
  unfold mapAddString at hs ⊢
  cases hk : s.key? with
  | none => exact .inl ⟨.inr (CString.key?_eq_none.mp hk), rfl⟩
  | some k =>
    rw [hk] at hs
    have hlt : s.length < mapKeyLen := by
      rw [← not_le, ← CString.key?_eq_none, hk]
      simp
    obtain ⟨mk, hrep, hm⟩ := h
    have hms : m s = mk k := by rw [hm, hk, Option.bind_some]
    obtain ⟨hn, new, hi, hnew⟩ := ha
    have hsucc : alloc.Succeeds mk := ⟨hn, new, hi, fun hl => hnew (hrep.live_iff.mp hl)⟩
    rcases hrep.add hsucc val k hs with ⟨e, he, hadd⟩ | ⟨hnone, miter, hlive, hr, hrep'⟩
    · refine .inl ⟨.inl ?_, hadd⟩
      rw [hms, he]
      simp
    · refine .inr ⟨⟨hms.trans hnone, hlt⟩, miter, fun hc => hlive (hrep.live_iff.mpr hc), hr, _,
        hrep', fun t => ?_⟩
      by_cases ht : t = s
      · subst ht
        rw [hk, Function.update_self, Option.bind_some, Function.update_self]
      · rw [Function.update_of_ne ht, hm]
        cases hkt : t.key? with
        | none => rfl
        | some k' =>
          have hne : k' ≠ k := fun hc => ht (CString.key?_inj (hc ▸ hkt) hk)
          rw [Option.bind_some, Option.bind_some, Function.update_of_ne hne]

theorem StringRep.remove (h : StringRep hashFn m self) {miter : IterPtr} (hl : m.Live miter) :
    StringRep hashFn (fun s => (m s).filter (fun e => e.1 ≠ miter)) (mapRemove self miter).2.2 := by
  have hmem := h.mem_of_live hl
  obtain ⟨mk, hrep, hm⟩ := h
  refine ⟨_, hrep.remove hmem, fun s => ?_⟩
  show (m s).filter _ = _
  rw [hm]
  cases s.key? <;> rfl

/-- What an add returns and leaves, when the string that reaches the map is `s`, or is bound while
`s` is too long. -/
theorem StringRep.added (h : StringRep hashFn m self) (ha : alloc.Supplies self) {s t : CString}
    (ht : t = s ∨ m t ≠ none ∧ mapKeyLen ≤ s.length) (mem : UInt64 → UInt8) (key : UInt64) (val : V)
    (hs : mapSize (mapAddString hashFn self val t alloc).2 ≤ 2 ^ 30) :
    let r := mapAddString hashFn self val t alloc
    (StringCall.add mem key s val).Returns m (.iter r.1) ∧
      StringRep hashFn ((StringCall.add mem key s val).next m (.iter r.1)) r.2 := by
  have hlong : t ≠ s → mapKeyLen ≤ s.length := fun hne => (ht.resolve_left hne).2
  rcases h.add ha t val hs with ⟨hwhy, he⟩ | ⟨⟨hn, hlt⟩, miter, hm, he, hrep⟩
  · refine ⟨⟨none, congrArg MapResult.iter (congrArg Prod.fst he), ?_, by simp⟩, ?_⟩
    · by_cases hts : t = s
      · simpa [← hts] using hwhy
      · simpa using .inr (hlong hts)
    · rw [he]
      exact h
  · have hts : t = s := ht.resolve_right (fun hc => hc.1 hn)
    subst hts
    refine ⟨⟨some miter, congrArg MapResult.iter he, ?_, ?_⟩, ?_⟩
    · simpa [hn] using hlt
    · intro new hnew hl
      obtain rfl := Option.some.inj hnew
      exact hm (h.mem_of_live hl)
    · rw [he]
      exact hrep

/-- What a call that fits returns, and the map after it. -/
theorem StringCall.exec_rep (h : StringRep hashFn m self) (ha : alloc.Supplies self)
    (hl : call.Legal m) (hf : call.Fits m) {r : MapResult V} {self' : CcMap V}
    (he : call.exec hashFn alloc self = some (r, self'))
    (hs : mapSize self' ≤ 2 ^ 30) :
    call.Returns m r ∧ StringRep hashFn (call.next m r) self' := by
  cases call with
  | find mem key s =>
    rw [exec, mapFind_eq hl hf, h.find, Option.map_some] at he
    obtain ⟨rfl, rfl⟩ := Prod.mk.inj (Option.some.inj he)
    exact ⟨rfl, h⟩
  | findf mem key s =>
    rw [exec, mapFindf_eq, h.find, h.inArray hf, Option.map_some] at he
    obtain ⟨rfl, rfl⟩ := Prod.mk.inj (Option.some.inj he)
    exact ⟨rfl, h⟩
  | add mem key s val =>
    rw [exec, mapAdd_eq hl hf, Option.map_some] at he
    obtain ⟨rfl, rfl⟩ := Prod.mk.inj (Option.some.inj he)
    exact h.added ha (.inl rfl) mem key val hs
  | addf mem key s val =>
    have ht : s.inArray = s ∨ m s.inArray ≠ none ∧ mapKeyLen ≤ s.length := by
      by_cases hlt : s.length < mapKeyLen
      · exact .inl (CString.inArray_of_lt hlt)
      · exact .inr ⟨hf.resolve_left hlt, not_lt.mp hlt⟩
    rw [exec, mapAddf_eq, Option.map_some] at he
    obtain ⟨rfl, rfl⟩ := Prod.mk.inj (Option.some.inj he)
    exact h.added ha ht mem key val hs
  | remove miter =>
    obtain ⟨rfl, rfl⟩ := Prod.mk.inj (Option.some.inj he)
    refine ⟨fun s val hms => ?_, h.remove hl⟩
    obtain ⟨mk, hrep, hm⟩ := h
    rw [hm] at hms
    obtain ⟨k, -, hk⟩ := Option.bind_eq_some_iff.mp hms
    exact congrArg MapResult.val ((hrep.entries k miter val).mp hk).2.2

theorem StringRun.rep (h : StringRun hashFn m self) : StringRep hashFn m self := by
  induction h with
  | new seed data =>
    refine ⟨_, (MapRun.new seed data).rep, fun s => ?_⟩
    cases s.key? <;> rfl
  | step call _ hl hf ha he hs ih => exact (StringCall.exec_rep ih ha hl hf he hs).2

theorem StringCall.exec_isSome (hashFn : UInt32 → List UInt8 → UInt32) (alloc : MapAlloc)
    (self : CcMap V) (hl : call.Legal m) (hf : call.Fits m) :
    ∃ r self', call.exec hashFn alloc self = some (r, self') := by
  cases call with
  | find mem key s => exact ⟨_, _, by rw [exec, mapFind_eq hl hf]; rfl⟩
  | findf mem key s => exact ⟨_, _, by rw [exec, mapFindf_eq]; rfl⟩
  | add mem key s val => exact ⟨_, _, by rw [exec, mapAdd_eq hl hf]; rfl⟩
  | addf mem key s val => exact ⟨_, _, by rw [exec, mapAddf_eq]; rfl⟩
  | remove miter => exact ⟨_, _, rfl⟩

/-- A formatted call with a longer string than its array holds finds or puts in the entry of
another string, unless it fits. -/
theorem StringCall.fits_of_behaves (h : StringRep hashFn m self) (ha : alloc.Supplies self)
    (hs : ∀ r self', call.exec hashFn alloc self = some (r, self') → mapSize self' ≤ 2 ^ 30)
    (hf : call.Formatted) (hb : call.Behaves hashFn alloc m self) : call.Fits m := by
  obtain ⟨r, self', he, hr⟩ := hb
  have hsize := hs r self' he
  cases call with
  | find | add | remove => exact hf.elim
  | findf mem key s =>
    by_cases hlt : s.length < mapKeyLen
    · exact .inl hlt
    · right
      rw [exec, mapFindf_eq, h.find, Option.map_some] at he
      obtain ⟨rfl, -⟩ := Prod.mk.inj (Option.some.inj he)
      rw [Returns, h.long (not_lt.mp hlt)] at hr
      exact Option.map_eq_none_iff.mp (MapResult.iter.inj hr)
  | addf mem key s val =>
    by_cases hlt : s.length < mapKeyLen
    · exact .inl hlt
    · right
      rw [exec, mapAddf_eq, Option.map_some] at he
      obtain ⟨rfl, rfl⟩ := Prod.mk.inj (Option.some.inj he)
      obtain ⟨miter, hmiter, hnone, -⟩ := hr
      have hfail := hnone.mpr (.inr (not_lt.mp hlt))
      rw [hfail] at hmiter
      rcases h.add ha s.inArray val hsize with ⟨hwhy, -⟩ | ⟨-, new, -, hnew, -⟩
      · exact hwhy.resolve_right (not_le.mpr s.inArray_length_lt)
      · rw [MapResult.iter.inj hmiter] at hnew
        exact absurd hnew (by simp)

/-- The plain and the formatted lookup of a string return the same when they fit. -/
theorem StringRep.find_eq_findf (h : StringRep hashFn m self) {mem mem' : UInt64 → UInt8}
    {key key' : UInt64} {s : CString} (hl : s.At mem key) (hs : s.IntFits)
    (hf : (StringCall.findf (V := V) mem' key' s).Fits m) :
    mapFind hashFn mem self key = mapFindf hashFn mem' self key' s := by
  rw [mapFind_eq hl hs, mapFindf_eq, h.find, h.find, h.inArray hf]

theorem StringRep.add_eq_addf (h : StringRep hashFn m self) (ha : alloc.Supplies self)
    {mem mem' : UInt64 → UInt8} {key key' : UInt64} {s : CString} {val : V} (hl : s.At mem key)
    (hs : s.IntFits) (hf : (StringCall.addf mem' key' s val).Fits m)
    (hsize : ∀ r, mapAddf hashFn mem' self val key' s alloc = some r → mapSize r.2 ≤ 2 ^ 30) :
    mapAdd hashFn mem self val key alloc = mapAddf hashFn mem' self val key' s alloc := by
  have hadd := hsize _ (mapAddf_eq key' s val alloc)
  rw [mapAdd_eq hl hs, mapAddf_eq]
  by_cases hlt : s.length < mapKeyLen
  · rw [CString.inArray_of_lt hlt]
  · have hbound : m s.inArray ≠ none := hf.resolve_left hlt
    rcases h.add ha s.inArray val hadd with ⟨-, he⟩ | ⟨⟨hn, -⟩, -⟩
    · rw [he, mapAddString, CString.key?_eq_none.mpr (not_lt.mp hlt)]
    · exact absurd hn hbound

end

end LibCC
