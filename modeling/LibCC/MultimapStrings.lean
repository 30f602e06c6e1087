import LibCC.MapStringTable
import LibCC.MultimapHolds

/-! The calls of cc_multimap that take strings, and the finite map from strings to sequences of
values that they describe. -/

namespace LibCC

open SequenceFamily

variable {L V : Type}

/-- cc_multimap_find, with no result where the int of the length is negative. -/
def multimapFind (hashFn : UInt32 → List UInt8 → UInt32) (mem : UInt64 → UInt8)
    (self : CcMultimap L V) (key : UInt64) : Option (Option (L × MultimapIter)) :=
  (mapFind hashFn mem self.map key).map fun miter =>
    (self.listHead miter).map fun mmiter => (self.list mmiter.miter, mmiter)

/-- cc_multimap_findf with its array at `key` and the text that the format makes. -/
def multimapFindf (hashFn : UInt32 → List UInt8 → UInt32) (mem : UInt64 → UInt8)
    (self : CcMultimap L V) (key : UInt64) (text : CString) : Option (Option (L × MultimapIter)) :=
  multimapFind hashFn (vsnprintf mem key 256 text) self key

section

variable [DecidableEq L]

def multimapAdd (hashFn : UInt32 → List UInt8 → UInt32) (mem : UInt64 → UInt8)
    (self : CcMultimap L V) (val : V) (key : UInt64) (alloc : MultimapAlloc L) :
    Option (Int × CcMultimap L V) :=
  match mapFind hashFn mem self.map key with
  | none => none
  | some miter =>
    match miter.map self.list, self.compare with
    | some list, some compare =>
      match alloc.iter with
      | none => some (0, self)
      | some iter => some (1, { self with lists := self.lists.insertSorted list compare iter val })
    | some list, none =>
      match alloc.iter with
      | none => some (0, self)
      | some iter => some (1, { self with lists := self.lists.append list none iter val })
    | none, _ =>
      match alloc.list with
      | none => some (0, self)
      | some list =>
        let self := self.listNew list
        match alloc.iter with
        | none => some (0, self.listDelete list) -- fail_append
        | some iter =>
          let self := { self with lists := self.lists.append list none iter val }
          match mapAdd hashFn mem self.map list key alloc.map with
          | none => none
          | some (some _, map) => some (1, { self with map := map })
          | some (none, map) => -- fail_add
            let self := { self with map := map, lists := self.lists.remove list iter }
            some (0, self.listDelete list)

def multimapAddf (hashFn : UInt32 → List UInt8 → UInt32) (mem : UInt64 → UInt8)
    (self : CcMultimap L V) (val : V) (key : UInt64) (text : CString) (alloc : MultimapAlloc L) :
    Option (Int × CcMultimap L V) :=
  multimapAdd hashFn (vsnprintf mem key 256 text) self val key alloc

end

abbrev StringLists (V : Type) := CString → List V

/-- A value goes to the end, or before the first that `compare` says is larger. -/
def placeValue (compare : Option (V → V → Int)) (val : V) (l : List V) : List V :=
  match compare with
  | none => l ++ [val]
  | some compare =>
    l.takeWhile (fun x => ¬ compare val x < 0) ++ val :: l.dropWhile (fun x => ¬ compare val x < 0)

def StringLists.add (compare : Option (V → V → Int)) (table : StringLists V) (s : CString)
    (val : V) : StringLists V :=
  Function.update table s (placeValue compare val (table s))

def StringLists.remove (table : StringLists V) (s : CString) (i : Nat) : StringLists V :=
  Function.update table s ((table s).eraseIdx i)

/-- The multimaps that a program has after adds of strings that fit, and removes, when no
allocation fails. -/
inductive MultimapStringRun [DecidableEq L] (hashFn : UInt32 → List UInt8 → UInt32)
    (compare : Option (V → V → Int)) : StringLists V → CcMultimap L V → Prop
  | new (seed : UInt32) (nodes : IterPtr → MapNode L) (data : IterPtr → V) :
      MultimapStringRun hashFn compare (fun _ => []) (multimapNew compare seed nodes data)
  | add {table : StringLists V} {self self' : CcMultimap L V} {mem : UInt64 → UInt8}
      {key : UInt64} {s : CString} {val : V} {alloc : MultimapAlloc L} {r : Int} :
      MultimapStringRun hashFn compare table self → s.At mem key → s.IntFits →
      alloc.Serves self → alloc.Succeeds →
      multimapAdd hashFn mem self val key alloc = some (r, self') →
      MultimapStringRun hashFn compare (if r = 0 then table else table.add compare s val) self'
  | addf {table : StringLists V} {self self' : CcMultimap L V} {mem : UInt64 → UInt8}
      {key : UInt64} {s : CString} {val : V} {alloc : MultimapAlloc L} {r : Int} :
      MultimapStringRun hashFn compare table self → s.length < mapKeyLen →
      alloc.Serves self → alloc.Succeeds →
      multimapAddf hashFn mem self val key s alloc = some (r, self') →
      MultimapStringRun hashFn compare (if r = 0 then table else table.add compare s val) self'
  | remove {table : StringLists V} {self : CcMultimap L V} {mmiter : MultimapIter} {s : CString}
      {k : MapKey} {i : Nat} : MultimapStringRun hashFn compare table self → s.key? = some k →
      mmiter.Points self k i →
      MultimapStringRun hashFn compare (table.remove s i) (multimapRemove self mmiter).2.2

/-- What a lookup returns: nothing, or a list of the values of the string. -/
def StringLists.Finds (table : StringLists V) (self : CcMultimap L V) (s : CString)
    (r : Option (L × MultimapIter)) : Prop :=
  (table s = [] ∧ r = none) ∨
  table s ≠ [] ∧ ∃ list mmiter k, r = some (list, mmiter) ∧ self.values list = table s ∧
    s.key? = some k ∧ mmiter.Points self k 0

/-- The multimap holds under the key of each string what the table has for the string. -/
structure MultimapStringRep (hashFn : UInt32 → List UInt8 → UInt32)
    (compare : Option (V → V → Int)) (table : StringLists V) (mm : CcMultimap L V) : Prop where
  cmp : mm.compare = compare
  holds : ∃ m vals, MultimapHolds hashFn m vals mm ∧
    ∀ s, table s = (s.key?.map vals).getD []

theorem placeValue_split {compare : Option (V → V → Int)} {val : V} {a b : List V}
    (hend : compare = none → b = [])
    (hpos : ∀ f, compare = some f →
      (∀ x ∈ a, ¬ f val x < 0) ∧ ∀ x, b.head? = some x → f val x < 0) :
    placeValue compare val (a ++ b) = a ++ val :: b := by
  cases compare with
  | none =>
    obtain rfl := hend rfl
    simp [placeValue]
  | some f =>
    obtain ⟨ha, hb⟩ := hpos f rfl
    have hpass : ∀ x ∈ a, decide (¬ f val x < 0) = true := fun x hx => decide_eq_true (ha x hx)
    have htake : b.takeWhile (fun x => ¬ f val x < 0) = [] := by
      cases b with
      | nil => rfl
      | cons x b => exact List.takeWhile_cons_of_neg (by simpa using hb x rfl)
    have hdrop : b.dropWhile (fun x => ¬ f val x < 0) = b := by
      cases b with
      | nil => rfl
      | cons x b => exact List.dropWhile_cons_of_neg (by simpa using hb x rfl)
    rw [placeValue, List.takeWhile_append_of_pos hpass, List.dropWhile_append_of_pos hpass, htake,
      hdrop, List.append_nil]

section

variable {hashFn : UInt32 → List UInt8 → UInt32} {compare : Option (V → V → Int)}
  {table : StringLists V} {self : CcMultimap L V}

theorem MultimapStringRep.long (h : MultimapStringRep hashFn compare table self) {s : CString}
    (hs : mapKeyLen ≤ s.length) : table s = [] := by
  obtain ⟨m, vals, -, ht⟩ := h.holds
  rw [ht, CString.key?_eq_none.mpr hs]
  rfl

/-- The table after the values of one string have changed. -/
theorem stringLists_update {vals : MapKey → List V} (ht : ∀ s, table s = (s.key?.map vals).getD [])
    {s : CString} {k : MapKey} (hk : s.key? = some k) (l : List V) (t : CString) :
    Function.update table s l t = (t.key?.map (Function.update vals k l)).getD [] := by
  by_cases hts : t = s
  · subst hts
    rw [Function.update_self, hk, Option.map_some, Function.update_self]
    rfl
  · rw [Function.update_of_ne hts, ht]
    cases hkt : t.key? with
    | none => rfl
    | some k' =>
      have hne : k' ≠ k := fun hc => hts (CString.key?_inj (hc ▸ hkt) hk)
      rw [Option.map_some, Option.map_some, Function.update_of_ne hne]

theorem multimapFind_eq {mem : UInt64 → UInt8} {s : CString} {p : UInt64} (h : s.At mem p)
    (hs : s.IntFits) : multimapFind hashFn mem self p =
      some ((self.listHead (mapFindString hashFn self.map s)).map fun mmiter =>
        (self.list mmiter.miter, mmiter)) := by
  rw [multimapFind, mapFind_eq h hs, Option.map_some]

theorem MultimapStringRep.find (h : MultimapStringRep hashFn compare table self) (s : CString) :
    table.Finds self s ((self.listHead (mapFindString hashFn self.map s)).map fun mmiter =>
      (self.list mmiter.miter, mmiter)) := by
  obtain ⟨m, vals, hm, ht⟩ := h.holds
  unfold StringLists.Finds mapFindString
  rw [ht]
  cases hk : s.key? with
  | none => exact .inl ⟨rfl, rfl⟩
  | some k =>
    rw [Option.map_some, Option.bind_some, Option.getD_some]
    rcases hm.find k with ⟨hn, he⟩ | ⟨hne, mmiter, he, hv, hp⟩
    · rw [he]
      exact .inl ⟨hn, rfl⟩
    · rw [he]
      exact .inr ⟨hne, _, mmiter, k, rfl, hv, rfl, hp⟩

theorem multimapFindf_eq (mem : UInt64 → UInt8) (p : UInt64) (s : CString) :
    multimapFindf hashFn mem self p s =
      some ((self.listHead (mapFindString hashFn self.map s.inArray)).map fun mmiter =>
        (self.list mmiter.miter, mmiter)) :=
  multimapFind_eq (s.inArray_at mem p) (.inl s.inArray_length_lt)

/-- Where a formatted lookup fits, its array makes no difference. -/
theorem MultimapStringRep.find_inArray (h : MultimapStringRep hashFn compare table self)
    {s : CString} (hf : s.length < mapKeyLen ∨ table s.inArray = []) :
    mapFindString hashFn self.map s.inArray = mapFindString hashFn self.map s := by
  by_cases hlt : s.length < mapKeyLen
  · rw [CString.inArray_of_lt hlt]
  · have hnil := hf.resolve_left hlt
    obtain ⟨m, vals, hm, ht⟩ := h.holds
    rw [ht] at hnil
    unfold mapFindString
    rw [CString.key?_eq_none.mpr (not_lt.mp hlt)]
    cases hk : s.inArray.key? with
    | none => rfl
    | some k =>
      rw [hk] at hnil
      rw [Option.bind_some, hm.rep.find k, (hm.eq_nil_iff k).mp hnil]
      rfl

theorem MultimapStringRep.findf_iff (h : MultimapStringRep hashFn compare table self)
    (mem : UInt64 → UInt8) (p : UInt64) (s : CString) :
    (∃ r, multimapFindf hashFn mem self p s = some r ∧ table.Finds self s r) ↔
      s.length < mapKeyLen ∨ table s.inArray = [] := by
  rw [multimapFindf_eq]
  constructor
  · rintro ⟨r, hr, hfinds⟩
    by_contra hn
    rw [not_or, not_lt] at hn
    rcases h.find s.inArray with ⟨hnil, -⟩ | ⟨-, _, _, _, he, -⟩
    · exact hn.2 hnil
    · rcases hfinds with ⟨-, hnone⟩ | ⟨hne, -⟩
      · rw [Option.some.inj hr, hnone] at he
        exact absurd he (by simp)
      · exact hne (h.long hn.1)
  · intro hf
    rw [h.find_inArray hf]
    exact ⟨_, rfl, h.find s⟩

variable [DecidableEq L]

/-- cc_multimap_add is cc_multimap_addp at the int of the length, where that is not negative. -/
theorem multimapAdd_eq_addp {mem : UInt64 → UInt8} {p : UInt64}
    (h : 0 ≤ intOfSize (strlen mem p + 1)) (val : V) (alloc : MultimapAlloc L) :
    multimapAdd hashFn mem self val p alloc = some
      (multimapAddp hashFn mem self val (intOfSize (strlen mem p + 1)).toNat p alloc) := by
  unfold multimapAdd multimapAddp mapFind mapAdd
  generalize intOfSize (strlen mem p + 1) = len at h ⊢
  simp only [if_neg (not_lt.mpr h)]
  cases (mapFindp hashFn mem self.map len.toNat p).map self.list with
  | some list =>
    cases self.compare with
    | none => cases alloc.iter <;> rfl
    | some compare => cases alloc.iter <;> rfl
  | none =>
    cases alloc.list with
    | none => rfl
    | some list =>
      cases alloc.iter with
      | none => rfl
      | some iter =>
        simp only [CcMultimap.listNew]
        rcases mapAddp hashFn mem self.map list len.toNat p alloc.map with ⟨_ | _, map⟩ <;> rfl

theorem multimapAddp_congr {mem mem' : UInt64 → UInt8} {len len' : Nat} {key key' : UInt64}
    (h : mapKeyBytes mem len key = mapKeyBytes mem' len' key') (val : V)
    (alloc : MultimapAlloc L) : multimapAddp hashFn mem self val len key alloc =
      multimapAddp hashFn mem' self val len' key' alloc := by
  simp only [multimapAddp, mapFindp, mapAddp, h]

/-- An add of a string fails if the string is too long, and else the table has the value. -/
theorem MultimapStringRep.addp (h : MultimapStringRep hashFn compare table self)
    {mem : UInt64 → UInt8} {len : Nat} {key : UInt64} {s : CString}
    (hk : mapKeyBytes mem len key = s.key?) {alloc : MultimapAlloc L} (ha : alloc.Serves self)
    (hsucc : alloc.Succeeds) (val : V) :
    ((multimapAddp hashFn mem self val len key alloc).1 = 0 ↔ mapKeyLen ≤ s.length) ∧
      MultimapStringRep hashFn compare
        (if (multimapAddp hashFn mem self val len key alloc).1 = 0 then table
          else table.add compare s val)
        (multimapAddp hashFn mem self val len key alloc).2 := by
  obtain ⟨m, vals, hm, ht⟩ := h.holds
  rw [← CString.key?_eq_none]
  cases hs : s.key? with
  | none =>
    obtain ⟨self', he, hsame⟩ := multimapAddp_long (hk.trans hs) ha val
    rw [he]
    exact ⟨by simp, hsame.compare.trans h.cmp, m, vals, hm.same hsame, ht⟩
  | some k =>
    have hadd : ∀ l, table.add compare s val = Function.update table s l →
        ∀ t, table.add compare s val t = (t.key?.map (Function.update vals k l)).getD [] := by
      intro l hl t
      rw [hl]
      exact stringLists_update ht hs l t
    have hvals : table s = vals k := by
      rw [ht, hs]
      rfl
    rcases multimapAddp_cases hm.rep ha (hk.trans hs) val with ⟨self', -, -, hf⟩ |
      ⟨miter, list, iter, a, b, hmk, hi, hl, he, hend, hpos⟩ |
      ⟨hn, miter, list, iter, map, hl, hi, hmiter, hr, he⟩
    · exact absurd hsucc hf
    · rw [he]
      obtain ⟨hold, hput⟩ := hm.put hmk hl (ha.iter iter hi) val
      refine ⟨by simp, h.cmp, m, _, hput, hadd _ ?_⟩
      rw [h.cmp] at hend hpos
      rw [StringLists.add, hvals, hold, placeValue_split]
      · intro hc
        rw [hend hc, List.map_nil]
      · intro f hf
        obtain ⟨hge, hlt⟩ := hpos f hf
        refine ⟨fun x hx => ?_, fun x hx => ?_⟩
        · obtain ⟨p, hp, rfl⟩ := List.mem_map.mp hx
          exact hge p hp
        · rw [List.head?_map] at hx
          obtain ⟨p, hp, rfl⟩ := Option.map_eq_some_iff.mp hx
          exact hlt p hp
    · rw [he]
      have hput := hm.putList hn hmiter (ha.list list hl) hr (ha.iter iter hi) val
      refine ⟨by simp, h.cmp, _, _, hput, hadd _ ?_⟩
      rw [StringLists.add, hvals, (hm.eq_nil_iff k).mpr hn]
      cases compare <;> rfl

theorem MultimapStringRep.remove (h : MultimapStringRep hashFn compare table self)
    {mmiter : MultimapIter} {s : CString} {k : MapKey} {i : Nat} (hs : s.key? = some k)
    (hp : mmiter.Points self k i) :
    MultimapStringRep hashFn compare (table.remove s i) (multimapRemove self mmiter).2.2 := by
  obtain ⟨m, vals, hm, ht⟩ := h.holds
  obtain ⟨m', hm', hcmp⟩ := hm.remove hp
  have hvals : table s = vals k := by
    rw [ht, hs]
    rfl
  refine ⟨hcmp.trans h.cmp, m', _, hm', ?_⟩
  rw [StringLists.remove, hvals]
  exact stringLists_update ht hs _

theorem MultimapStringRun.rep (h : MultimapStringRun hashFn compare table self) :
    MultimapStringRep hashFn compare table self := by
  induction h with
  | new seed nodes data =>
    refine ⟨rfl, _, _, MultimapHolds.new hashFn compare seed nodes data, fun s => ?_⟩
    cases s.key? <;> rfl
  | add _ hat hint ha hsucc he ih =>
    obtain ⟨h0, hk⟩ := mapKeyBytes_string hat hint
    obtain ⟨rfl, rfl⟩ := Prod.mk.inj (Option.some.inj ((multimapAdd_eq_addp h0 _ _).symm.trans he))
    exact (ih.addp hk ha hsucc _).2
  | @addf _ _ _ mem key s _ _ _ _ hlt ha hsucc he ih =>
    have hat := s.inArray_at mem key
    rw [CString.inArray_of_lt hlt] at hat
    obtain ⟨h0, hk⟩ := mapKeyBytes_string hat (.inl hlt)
    obtain ⟨rfl, rfl⟩ := Prod.mk.inj (Option.some.inj ((multimapAdd_eq_addp h0 _ _).symm.trans he))
    exact (ih.addp hk ha hsucc _).2
  | remove _ hs hp ih => exact ih.remove hs hp

theorem multimapAdd_agree {mem mem' : UInt64 → UInt8} {p p' : UInt64} {s : CString}
    (h : s.At mem p) (h' : s.At mem' p') (hs : s.IntFits) (val : V) (alloc : MultimapAlloc L) :
    multimapAdd hashFn mem self val p alloc = multimapAdd hashFn mem' self val p' alloc := by
  obtain ⟨h0, hk⟩ := mapKeyBytes_string h hs
  obtain ⟨h0', hk'⟩ := mapKeyBytes_string h' hs
  rw [multimapAdd_eq_addp h0, multimapAdd_eq_addp h0', multimapAddp_congr (hk.trans hk'.symm)]

theorem MultimapStringRep.addf_iff (h : MultimapStringRep hashFn compare table self)
    {alloc : MultimapAlloc L} (ha : alloc.Serves self) (hsucc : alloc.Succeeds)
    (mem : UInt64 → UInt8) (p : UInt64) (s : CString) (val : V) :
    (∃ r self', multimapAddf hashFn mem self val p s alloc = some (r, self') ∧
      (r = 0 ↔ mapKeyLen ≤ s.length)) ↔ s.length < mapKeyLen := by
  obtain ⟨h0, hk⟩ := mapKeyBytes_string (s.inArray_at mem p) (.inl s.inArray_length_lt)
  have hzero := (h.addp hk ha hsucc val).1
  have hne := not_le.mpr s.inArray_length_lt
  have he : multimapAddf hashFn mem self val p s alloc = some _ := multimapAdd_eq_addp h0 val alloc
  constructor
  · rintro ⟨r, self', hr, hiff⟩
    obtain ⟨rfl, -⟩ := Prod.mk.inj (Option.some.inj (he.symm.trans hr))
    exact not_le.mp fun hle => hne (hzero.mp (hiff.mpr hle))
  · intro hlt
    exact ⟨_, _, he, hzero.trans (iff_of_false hne (not_le.mpr hlt))⟩

end

/-- After calls that fit, each call with a string that fits returns what the finite map from
strings says, and the plain and the formatted call return the same. A formatted call that does
not fit returns something else. -/
theorem string_keys_kept [DecidableEq L] (hashFn : UInt32 → List UInt8 → UInt32) :
    (∀ (m : StringTable V) (self : CcMap V), StringRun hashFn m self →
      ∀ alloc : MapAlloc, alloc.Supplies self →
      (∀ call : StringCall V, call.Legal m →
        (∀ r self', call.exec hashFn alloc self = some (r, self') → mapSize self' ≤ 2 ^ 30) →
        (call.Fits m → call.Behaves hashFn alloc m self) ∧
        (call.Formatted → call.Behaves hashFn alloc m self → call.Fits m)) ∧
      ∀ mem key mem' key' (s : CString) (val : V), s.At mem key → s.IntFits →
        ((StringCall.findf (V := V) mem' key' s).Fits m →
          mapFind hashFn mem self key = mapFindf hashFn mem' self key' s) ∧
        ((StringCall.addf mem' key' s val).Fits m →
          (∀ r, mapAddf hashFn mem' self val key' s alloc = some r → mapSize r.2 ≤ 2 ^ 30) →
          mapAdd hashFn mem self val key alloc = mapAddf hashFn mem' self val key' s alloc)) ∧
    ∀ (compare : Option (V → V → Int)) (table : StringLists V) (self : CcMultimap L V),
      MultimapStringRun hashFn compare table self →
      (∀ mem key (s : CString), s.At mem key → s.IntFits →
        ∃ r, multimapFind hashFn mem self key = some r ∧ table.Finds self s r ∧
          ∀ mem' key', (s.length < mapKeyLen ∨ table s.inArray = []) →
            multimapFindf hashFn mem' self key' s = some r) ∧
      (∀ mem key (s : CString),
        (∃ r, multimapFindf hashFn mem self key s = some r ∧ table.Finds self s r) ↔
          s.length < mapKeyLen ∨ table s.inArray = []) ∧
      ∀ alloc : MultimapAlloc L, alloc.Serves self → alloc.Succeeds → ∀ (s : CString) (val : V),
        (∀ mem key, s.At mem key → s.IntFits →
          ∃ r self', multimapAdd hashFn mem self val key alloc = some (r, self') ∧
            (r = 0 ↔ mapKeyLen ≤ s.length) ∧
            ∀ mem' key', s.length < mapKeyLen →
              multimapAddf hashFn mem' self val key' s alloc = some (r, self')) ∧
        ∀ mem key,
          (∃ r self', multimapAddf hashFn mem self val key s alloc = some (r, self') ∧
            (r = 0 ↔ mapKeyLen ≤ s.length)) ↔ s.length < mapKeyLen := by
  constructor
  · intro m self hrun alloc ha
    have h := hrun.rep
    refine ⟨fun call hl hs => ⟨fun hf => ?_, fun hfm hb => ?_⟩,
      fun mem key mem' key' s val hat hint => ⟨?_, ?_⟩⟩
    · obtain ⟨r, self', he⟩ := StringCall.exec_isSome hashFn alloc self hl hf
      exact ⟨r, self', he, (StringCall.exec_rep h ha hl hf he (hs r self' he)).1⟩
    · exact StringCall.fits_of_behaves h ha hs hfm hb
    · exact h.find_eq_findf hat hint
    · exact h.add_eq_addf ha hat hint
  · intro compare table self hrun
    have h := hrun.rep
    refine ⟨fun mem key s hat hint => ?_, h.findf_iff, fun alloc ha hsucc s val =>
      ⟨fun mem key hat hint => ?_, fun mem key => h.addf_iff ha hsucc mem key s val⟩⟩
    · refine ⟨_, multimapFind_eq hat hint, h.find s, fun mem' key' hf => ?_⟩
      rw [multimapFindf_eq, h.find_inArray hf]
    · obtain ⟨h0, hk⟩ := mapKeyBytes_string hat hint
      refine ⟨_, _, multimapAdd_eq_addp h0 val alloc, (h.addp hk ha hsucc val).1,
        fun mem' key' hlt => ?_⟩
      have hat' := s.inArray_at mem' key'
      rw [CString.inArray_of_lt hlt] at hat'
      exact (multimapAdd_agree hat' hat hint val alloc).trans (multimapAdd_eq_addp h0 val alloc)

def repeated (b : UInt8) (hb : b ≠ 0) (n : Nat) : CString :=
  ⟨List.replicate n b, fun h => hb (List.eq_of_mem_replicate h).symm⟩

/-- 256 letters are too long for cc_map_add. cc_map_addf takes them, and the lookup of 255
letters finds the entry. -/
theorem string_keys_confused :
    let letters := repeated 97 (by decide)
    let mem (n : Nat) := vsnprintf (fun _ => 0) 0 300 (letters n)
    let hashFn := fun _ _ => 7
    let self : CcMap Nat := mapNew 0 fun _ => ⟨5, 0, ⟨[0], by decide, by decide⟩⟩
    let alloc : MapAlloc := ⟨true, some ⟨0, 0⟩, none⟩
    (letters 255).At (mem 255) 0 ∧ (letters 256).At (mem 256) 0 ∧
      mapAdd hashFn (mem 256) self 5 0 alloc = some (none, self) ∧
      ∃ miter self', mapAddf hashFn (fun _ => 0) self 5 0 (letters 256) alloc =
          some (some miter, self') ∧
        mapFind hashFn (mem 255) self' 0 = some (some miter) ∧
        mapFind hashFn (mem 256) self' 0 = some none ∧
        mapFindf hashFn (fun _ => 0) self' 0 (letters 256) = some (some miter) := by
  intro letters mem hashFn self alloc
  have hat : ∀ n < 300, (letters n).At (mem n) 0 := by
    intro n hn
    have hlen : (letters n).length = n := List.length_replicate
    have hs : ((letters n).stored 300).At (mem n) 0 :=
      vsnprintf_at (fun _ => 0) 0 (by decide) (by decide) (letters n)
    rwa [CString.stored_of_le (by omega)] at hs
  have hlong : mapKeyLen ≤ (letters 256).length := List.length_replicate.ge
  have harray : (letters 256).inArray = letters 255 := by
    apply CString.ext
    show (List.replicate 256 97).take (mapKeyLen - 1) = List.replicate 255 97
    rw [List.take_replicate]
    rfl
  have hlt : (letters 255).length < mapKeyLen := harray ▸ (letters 256).inArray_length_lt
  have hne : letters 255 ≠ letters 256 := fun he => absurd (he ▸ hlt) (not_lt.mpr hlong)
  have hgt : (letters 256).IntFits := by
    have hlen : (letters 256).length = 256 := List.length_replicate
    rw [CString.IntFits, hlen, intOfSize_of_lt (by omega)]
    exact .inr (by decide)
  have h : StringRep hashFn (fun _ => none) self := (StringRun.new 0 _).rep
  have ha : alloc.Supplies self := ⟨rfl, ⟨0, 0⟩, rfl, List.not_mem_nil⟩
  have hsize : mapSize (mapAddString hashFn self 5 (letters 255) alloc).2 ≤ 2 ^ 30 := by
    unfold mapAddString
    cases (letters 255).key? with
    | none => decide
    | some k =>
      have hone : mapSize (mapAddHash self 5 (hashFn self.seed k.bytes) k alloc).2 = 1 := by
        with_unfolding_all rfl
      exact hone.le.trans (by decide)
  refine ⟨hat 255 (by omega), hat 256 (by omega), ?_, ?_⟩
  · rw [mapAdd_eq (hat 256 (by omega)) hgt, mapAddString, CString.key?_eq_none.mpr hlong]
  · rcases h.add ha (letters 255) 5 hsize with ⟨hwhy, -⟩ | ⟨-, miter, -, hmiter, hrep⟩
    · exact absurd hwhy (by simp [hlt])
    · refine ⟨miter, (mapAddString hashFn self 5 (letters 255) alloc).2, ?_, ?_, ?_, ?_⟩
      · rw [mapAddf_eq, harray, ← hmiter]
      · rw [mapFind_eq (hat 255 (by omega)) (.inl hlt), hrep.find, Function.update_self]
        rfl
      · rw [mapFind_eq (hat 256 (by omega)) hgt, hrep.find, Function.update_of_ne hne.symm]
        rfl
      · rw [mapFindf_eq, harray, hrep.find, Function.update_self]
        rfl

end LibCC
