import LibCC.MapNodeOrder

/-! The bytes that cc_mapNode_cmp reads, for keys of any length. The key may
lie in storage that goes on behind it; what is there is neither read nor of
any consequence, so the comparison is an order on the keys themselves. -/

namespace LibCC

/-- A hash and a key where it lies in memory: the key is the first `len` bytes of the storage.
A node made by cc_mapNode_new has no storage behind them. -/
structure StoredKey where
  hash : UInt32
  len : Nat
  bytes : List UInt8
  pos : 0 < len
  le : len ≤ bytes.length
  deriving DecidableEq

/-- `loadLE` with the indices of the bytes that it reads. -/
def loadReads (l : List UInt8) : Nat → Nat → Nat × List Nat
  | _, 0 => (0, [])
  | start, width + 1 =>
    let rest := loadReads l (start + 1) width
    ((l.getD start 0).toNat + 256 * rest.1, start :: rest.2)

/-- `mapNodeCmpWords` with the indices of the bytes that it reads in the one
key and in the other. -/
def mapNodeCmpLoop (width : Nat) (a b : List UInt8) : Nat → Nat → Option Int × List Nat
  | 0, _ => (none, [])
  | cnt + 1, idx =>
    let wordA := loadReads a (width * idx) width
    let wordB := loadReads b (width * idx) width
    if wordA.1 > wordB.1 then (some 1, wordA.2 ++ wordB.2)
    else if wordA.1 < wordB.1 then (some (-1), wordA.2 ++ wordB.2)
    else
      let rest := mapNodeCmpLoop width a b cnt (idx + 1)
      (rest.1, wordA.2 ++ wordB.2 ++ rest.2)

/-- cc_mapNode_cmp, with the indices of the bytes read of the two keys. -/
def mapNodeCmpReads (self : StoredKey) (hash : UInt32) (len : Nat) (key : List UInt8) :
    Int × List Nat :=
  if self.hash > hash then (1, [])
  else if self.hash < hash then (-1, [])
  else if self.len > len then (1, [])
  else if self.len < len then (-1, [])
  else
    let cnt := len / 8
    let words := mapNodeCmpLoop 8 self.bytes key cnt 0
    match words.1 with
    | some r => (r, words.2)
    | none =>
      let idx := 2 * cnt
      let cnt := len % 8
      let word := mapNodeCmpLoop 4 self.bytes key (if cnt ≥ 4 then 1 else 0) idx
      match word.1 with
      | some r => (r, words.2 ++ word.2)
      | none =>
        let idx := 4 * (if cnt ≥ 4 then idx + 1 else idx)
        let cnt := if cnt ≥ 4 then cnt - 4 else cnt
        let rest := mapNodeCmpLoop 1 self.bytes key cnt idx
        (rest.1.getD 0, words.2 ++ word.2 ++ rest.2)

def StoredKey.cmp (a b : StoredKey) : Int :=
  (mapNodeCmpReads a b.hash b.len b.bytes).1

def StoredKey.reads (a b : StoredKey) : List Nat :=
  (mapNodeCmpReads a b.hash b.len b.bytes).2

def StoredKey.rank (a : StoredKey) : List Nat := keyRank a.hash a.len a.bytes

def StoredKey.key (a : StoredKey) : List UInt8 := a.bytes.take a.len

theorem loadReads_fst (l : List UInt8) (start width : Nat) :
    (loadReads l start width).1 = loadLE l start width := by
  induction width generalizing start with
  | zero => rfl
  | succ width ih => simp only [loadReads, loadLE, ih]

theorem loadReads_snd (l : List UInt8) (start width : Nat) :
    (loadReads l start width).2 = List.range' start width := by
  induction width generalizing start with
  | zero => rfl
  | succ width ih => simp only [loadReads, ih, List.range'_succ]

theorem mapNodeCmpLoop_fst (width : Nat) (a b : List UInt8) (cnt idx : Nat) :
    (mapNodeCmpLoop width a b cnt idx).1 = mapNodeCmpWords width a b cnt idx := by
  induction cnt generalizing idx with
  | zero => rfl
  | succ cnt ih =>
    simp only [mapNodeCmpLoop, mapNodeCmpWords, loadReads_fst]
    split_ifs
    · rfl
    · rfl
    · exact ih (idx + 1)

theorem mapNodeCmpLoop_reads {width : Nat} {a b : List UInt8} {cnt idx i : Nat}
    (h : i ∈ (mapNodeCmpLoop width a b cnt idx).2) : i < width * (idx + cnt) := by
  induction cnt generalizing idx with
  | zero => simp [mapNodeCmpLoop] at h
  | succ cnt ih =>
    have hword : i ∈ List.range' (width * idx) width ++ List.range' (width * idx) width →
        i < width * (idx + (cnt + 1)) := by
      intro hi
      rw [List.mem_append, or_self, List.mem_range'_1] at hi
      have hm := word_le width idx cnt
      omega
    simp only [mapNodeCmpLoop, loadReads_snd] at h
    split_ifs at h
    · exact hword h
    · exact hword h
    · rcases List.mem_append.mp h with h | h
      · exact hword h
      · have hi := ih h
        have he : idx + 1 + cnt = idx + (cnt + 1) := by omega
        rwa [he] at hi

theorem phase_fst (o : Option Int) (read : List Nat) (next : Int × List Nat) :
    (match o with | some r => (r, read) | none => next).1 = o.getD next.1 := by
  cases o with
  | none => rfl
  | some r => rfl

theorem mem_phase_snd {o : Option Int} {read : List Nat} {next : Int × List Nat} {i : Nat}
    (h : i ∈ (match o with | some r => (r, read) | none => next).2) :
    i ∈ read ∨ i ∈ next.2 := by
  cases o with
  | none => exact .inr h
  | some r => exact .inl h

theorem StoredKey.cmp_compares (a b : StoredKey) : Compares (a.cmp b) a.rank b.rank := by
  unfold StoredKey.cmp mapNodeCmpReads
  simp only [apply_ite Prod.fst, phase_fst, mapNodeCmpLoop_fst]
  exact keyRank_compares a.hash b.hash a.len b.len a.bytes b.bytes

/-- Each phase ends within the key: the words of eight bytes at the last
multiple of eight, the word of four at most four further on. -/
theorem StoredKey.reads_lt {a b : StoredKey} {i : Nat} (h : i ∈ a.reads b) :
    i < a.len ∧ i < b.len := by
  unfold StoredKey.reads mapNodeCmpReads at h
  split_ifs at h with h₁ h₂ h₃ h₄
  · simp at h
  · simp at h
  · simp at h
  · simp at h
  have hlen : a.len = b.len := by omega
  have hwords : i ∈ (mapNodeCmpLoop 8 a.bytes b.bytes (b.len / 8) 0).2 → i < b.len := by
    intro hi
    have hlt := mapNodeCmpLoop_reads hi
    omega
  have hword : i ∈ (mapNodeCmpLoop 4 a.bytes b.bytes (if b.len % 8 ≥ 4 then 1 else 0)
      (2 * (b.len / 8))).2 → i < b.len := by
    intro hi
    have hlt := mapNodeCmpLoop_reads hi
    split_ifs at hlt <;> omega
  have hi : i < b.len := by
    rcases mem_phase_snd h with h | h
    · exact hwords h
    · rcases mem_phase_snd h with h | h
      · exact (List.mem_append.mp h).elim hwords hword
      · rcases List.mem_append.mp h with h | h
        · exact (List.mem_append.mp h).elim hwords hword
        · have hlt := mapNodeCmpLoop_reads h
          split_ifs at hlt <;> omega
  omega

theorem loadLE_congr {a b : List UInt8} {start width : Nat}
    (h : ∀ i, i < start + width → a.getD i 0 = b.getD i 0) :
    loadLE a start width = loadLE b start width := by
  induction width generalizing start with
  | zero => rfl
  | succ width ih =>
    have hs := h start (by omega)
    have ht := @ih (start + 1) (fun i hi => h i (by omega))
    simp only [loadLE, hs, ht]

theorem keyWords_congr {width cnt idx : Nat} {a b : List UInt8}
    (h : ∀ i, i < width * (idx + cnt) → a.getD i 0 = b.getD i 0) :
    keyWords width a cnt idx = keyWords width b cnt idx := by
  induction cnt generalizing idx with
  | zero => rfl
  | succ cnt ih =>
    have hm := word_le width idx cnt
    have hw := @loadLE_congr a b (width * idx) width (fun i hi => h i (by omega))
    have he : idx + 1 + cnt = idx + (cnt + 1) := by omega
    have ht := @ih (idx + 1) (fun i hi => h i (by rwa [he] at hi))
    simp only [keyWords, hw, ht]

theorem keyRank_congr {hash : UInt32} {len : Nat} {a b : List UInt8}
    (h : ∀ i, i < len → a.getD i 0 = b.getD i 0) : keyRank hash len a = keyRank hash len b := by
  have h₈ : keyWords 8 a (len / 8) 0 = keyWords 8 b (len / 8) 0 := by
    apply keyWords_congr
    intro i hi
    exact h i (by omega)
  unfold keyRank
  rw [h₈]
  by_cases hc : len % 8 ≥ 4
  · have h₄ := @keyWords_congr 4 1 (2 * (len / 8)) a b (fun i hi => h i (by omega))
    have h₁ := @keyWords_congr 1 (len % 8 - 4) (4 * (2 * (len / 8) + 1)) a b
      (fun i hi => h i (by omega))
    simp only [hc, if_true, h₄, h₁]
  · have h₁ := @keyWords_congr 1 (len % 8) (4 * (2 * (len / 8))) a b (fun i hi => h i (by omega))
    simp only [hc, if_false, h₁]
    rfl

theorem take_eq_take_iff {a b : List UInt8} {len : Nat} (ha : len ≤ a.length)
    (hb : len ≤ b.length) :
    a.take len = b.take len ↔ ∀ i, i < len → a.getD i 0 = b.getD i 0 := by
  constructor
  · intro h i hi
    have hg := congrArg (·.getD i 0) h
    simpa [List.getD_eq_getElem?_getD, List.getElem?_take, hi] using hg
  · intro h
    apply List.ext_getElem
    · simp [ha, hb]
    · intro i hi hi'
      have hlt : i < len := by
        rw [List.length_take] at hi
        omega
      have hg := h i hlt
      have hia : i < a.length := by omega
      have hib : i < b.length := by omega
      simpa [List.getD_eq_getElem?_getD, hia, hib] using hg

theorem StoredKey.rank_inj {a b : StoredKey} :
    a.rank = b.rank ↔ a.hash = b.hash ∧ a.len = b.len ∧ a.key = b.key := by
  have hb := b.le
  constructor
  · intro h
    obtain ⟨hh, hlen, hg⟩ := keyRank_inj h
    refine ⟨hh, hlen, ?_⟩
    unfold StoredKey.key
    rw [hlen] at hg ⊢
    exact (take_eq_take_iff (hlen ▸ a.le) hb).mpr hg
  · rintro ⟨hh, hlen, hk⟩
    unfold StoredKey.key at hk
    unfold StoredKey.rank
    rw [hlen] at hk
    rw [hh, hlen]
    exact keyRank_congr ((take_eq_take_iff (hlen ▸ a.le) hb).mp hk)

def MapKey.stored (key : MapKey) (hash : UInt32) : StoredKey :=
  ⟨hash, key.len, key.bytes, key.pos, le_refl _⟩

theorem mapNodeCmp_eq_cmp {V : Type} (self : MapNode V) (hash : UInt32) (key : MapKey) :
    mapNodeCmp self hash key = (self.key.stored self.hash).cmp (key.stored hash) := by
  have h := mapNodeCmp_compares self hash key
  rw [mapRank_eq_keyRank, mapRank_eq_keyRank] at h
  exact h.unique (StoredKey.cmp_compares (self.key.stored self.hash) (key.stored hash))

theorem StoredKey.cmp_zero_iff {a b : StoredKey} :
    a.cmp b = 0 ↔ a.hash = b.hash ∧ a.len = b.len ∧ a.key = b.key :=
  (a.cmp_compares b).zero_iff.trans StoredKey.rank_inj

theorem StoredKey.cmp_neg (a b : StoredKey) : a.cmp b = -b.cmp a :=
  (a.cmp_compares b).unique (b.cmp_compares a).symm

theorem StoredKey.cmp_lt_trans {a b c : StoredKey} (hab : a.cmp b < 0) (hbc : b.cmp c < 0) :
    a.cmp c < 0 := by
  rw [(a.cmp_compares b).neg_iff] at hab
  rw [(b.cmp_compares c).neg_iff] at hbc
  rw [(a.cmp_compares c).neg_iff]
  exact hab.trans hbc

theorem StoredKey.cmp_le_iff {a b : StoredKey} : a.cmp b ≤ 0 ↔ a.rank ≤ b.rank := by
  rw [← not_lt, (a.cmp_compares b).pos_iff, not_lt]

theorem StoredKey.cmp_le_trans {a b c : StoredKey} (hab : a.cmp b ≤ 0) (hbc : b.cmp c ≤ 0) :
    a.cmp c ≤ 0 := by
  rw [StoredKey.cmp_le_iff] at hab hbc ⊢
  exact hab.trans hbc

/-- For keys of every length: equal keys and no others compare equal, the
comparison is a total order, and nothing behind either key is read. -/
theorem mapNodeCmp_strict_total_order :
    (∀ a b : StoredKey, a.cmp b = 0 ↔ a.hash = b.hash ∧ a.len = b.len ∧ a.key = b.key) ∧
    (∀ a b : StoredKey, a.cmp b = 1 ∨ a.cmp b = 0 ∨ a.cmp b = -1) ∧
    (∀ a b : StoredKey, a.cmp b = -b.cmp a) ∧
    (∀ a b c : StoredKey, a.cmp b < 0 → b.cmp c < 0 → a.cmp c < 0) ∧
    (∀ a b c : StoredKey, a.cmp b ≤ 0 → b.cmp c ≤ 0 → a.cmp c ≤ 0) ∧
    (∀ (a b : StoredKey) (i : Nat), i ∈ a.reads b → i < a.len ∧ i < b.len) := by
  refine ⟨fun _ _ => StoredKey.cmp_zero_iff, ?_, StoredKey.cmp_neg,
    fun _ _ _ => StoredKey.cmp_lt_trans, fun _ _ _ => StoredKey.cmp_le_trans,
    fun _ _ _ => StoredKey.reads_lt⟩
  intro a b
  rcases a.cmp_compares b with ⟨h, _⟩ | ⟨h, _⟩ | ⟨h, _⟩
  · exact .inl h
  · exact .inr (.inr h)
  · exact .inr (.inl h)

theorem mapNodeCmp_strict_total_order_five :
    (StoredKey.mk 7 5 [1, 2, 3, 4, 5, 9] (by decide) (by decide)).cmp
      ⟨7, 5, [1, 2, 3, 5, 4], by decide, by decide⟩ < 0 ∧
    (StoredKey.mk 7 5 [1, 2, 3, 4, 5, 9] (by decide) (by decide)).cmp
      ⟨7, 5, [1, 2, 3, 4, 5], by decide, by decide⟩ = 0 ∧ 4 < 5 ∧ 4 < 5 :=
  ⟨mapNodeCmp_strict_total_order.2.2.2.1 _ ⟨7, 5, [1, 2, 3, 4, 6], by decide, by decide⟩ _
      (by decide) (by decide),
    (mapNodeCmp_strict_total_order.1 _ _).mpr (by decide),
    mapNodeCmp_strict_total_order.2.2.2.2.2
      ⟨7, 5, [1, 2, 3, 4, 5, 9], by decide, by decide⟩
      ⟨7, 5, [1, 2, 3, 4, 6], by decide, by decide⟩ 4 (by decide)⟩

end LibCC
