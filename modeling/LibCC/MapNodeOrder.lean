import Mathlib

/-! The order of map nodes. cc_mapNode_cmp compares hash, length and then
the key bytes in words of eight, four and one byte; on a little-endian
machine that is the lexicographic order of one list of numbers. -/

namespace LibCC

def mapKeyLen : Nat := 256

/-- The bytes of a key that a map can store. -/
structure MapKey where
  bytes : List UInt8
  pos : 0 < bytes.length
  le : bytes.length ≤ mapKeyLen
  deriving DecidableEq

/-- cc_mapNode_t with the key bytes that follow it; `len` is the length of
the key. -/
structure MapNode (V : Type) where
  val : V
  hash : UInt32
  key : MapKey

def MapKey.len (key : MapKey) : Nat := key.bytes.length

/-- The little-endian load of `width` bytes from byte `start` on. -/
def loadLE (l : List UInt8) : Nat → Nat → Nat
  | _, 0 => 0
  | start, width + 1 => (l.getD start 0).toNat + 256 * loadLE l (start + 1) width

/-- The loop that compares `cnt` words of `width` bytes from word `idx` on;
`none` when it falls through. -/
def mapNodeCmpWords (width : Nat) (a b : List UInt8) : Nat → Nat → Option Int
  | 0, _ => none
  | cnt + 1, idx =>
    let wordA := loadLE a (width * idx) width
    let wordB := loadLE b (width * idx) width
    if wordA > wordB then some 1
    else if wordA < wordB then some (-1)
    else mapNodeCmpWords width a b cnt (idx + 1)

def mapNodeCmp {V : Type} (self : MapNode V) (hash : UInt32) (key : MapKey) : Int :=
  if self.hash > hash then 1
  else if self.hash < hash then -1
  else if self.key.len > key.len then 1
  else if self.key.len < key.len then -1
  else
    let cnt := key.len / 8
    match mapNodeCmpWords 8 self.key.bytes key.bytes cnt 0 with
    | some r => r
    | none =>
      let idx := 2 * cnt
      let cnt := key.len % 8
      match mapNodeCmpWords 4 self.key.bytes key.bytes (if cnt ≥ 4 then 1 else 0) idx with
      | some r => r
      | none =>
        let idx := 4 * (if cnt ≥ 4 then idx + 1 else idx)
        let cnt := if cnt ≥ 4 then cnt - 4 else cnt
        (mapNodeCmpWords 1 self.key.bytes key.bytes cnt idx).getD 0

def keyWords (width : Nat) (l : List UInt8) : Nat → Nat → List Nat
  | 0, _ => []
  | cnt + 1, idx => loadLE l (width * idx) width :: keyWords width l cnt (idx + 1)

/-- The numbers that decide a comparison, most significant first. -/
def mapRank (hash : UInt32) (key : MapKey) : List Nat :=
  hash.toNat :: key.len ::
    (keyWords 8 key.bytes (key.len / 8) 0 ++
      (keyWords 4 key.bytes (if key.len % 8 ≥ 4 then 1 else 0) (2 * (key.len / 8)) ++
        keyWords 1 key.bytes (if key.len % 8 ≥ 4 then key.len % 8 - 4 else key.len % 8)
          (4 * (if key.len % 8 ≥ 4 then 2 * (key.len / 8) + 1 else 2 * (key.len / 8)))))

/-- `r` is what a three-way comparison of `a` with `b` returns. -/
def Compares {α : Type} [LT α] (r : Int) (a b : α) : Prop :=
  (r = 1 ∧ b < a) ∨ (r = -1 ∧ a < b) ∨ (r = 0 ∧ a = b)

theorem Compares.cons {x y : Nat} {xs ys : List Nat} {r : Int} (h : x = y → Compares r xs ys) :
    Compares (if x > y then 1 else if x < y then -1 else r) (x :: xs) (y :: ys) := by
  rcases lt_trichotomy x y with hlt | rfl | hlt
  · have hn : ¬ x > y := by omega
    simp only [hn, hlt, if_true, if_false]
    exact .inr (.inl ⟨rfl, List.cons_lt_cons_iff.mpr (.inl hlt)⟩)
  · simpa [Compares, List.cons_lt_cons_iff] using h rfl
  · simp only [gt_iff_lt, hlt, if_true]
    exact .inl ⟨rfl, List.cons_lt_cons_iff.mpr (.inl hlt)⟩

theorem Compares.neg_iff {r : Int} {a b : List Nat} (h : Compares r a b) : r < 0 ↔ a < b := by
  rcases h with ⟨rfl, h⟩ | ⟨rfl, h⟩ | ⟨rfl, rfl⟩
  · simpa using h.not_gt
  · simpa using h
  · simp

theorem Compares.pos_iff {r : Int} {a b : List Nat} (h : Compares r a b) : 0 < r ↔ b < a := by
  rcases h with ⟨rfl, h⟩ | ⟨rfl, h⟩ | ⟨rfl, rfl⟩
  · simpa using h
  · simpa using h.not_gt
  · simp

theorem Compares.zero_iff {r : Int} {a b : List Nat} (h : Compares r a b) : r = 0 ↔ a = b := by
  rcases h with ⟨rfl, h⟩ | ⟨rfl, h⟩ | ⟨rfl, rfl⟩
  · simpa using h.ne'
  · simpa using h.ne
  · simp

theorem Compares.symm {α : Type} [LT α] {r : Int} {a b : α} (h : Compares r a b) :
    Compares (-r) b a := by
  rcases h with ⟨rfl, h⟩ | ⟨rfl, h⟩ | ⟨rfl, rfl⟩
  · exact .inr (.inl ⟨rfl, h⟩)
  · exact .inl ⟨rfl, h⟩
  · exact .inr (.inr ⟨rfl, rfl⟩)

theorem Compares.unique {r r' : Int} {a b : List Nat} (h : Compares r a b)
    (h' : Compares r' a b) : r = r' := by
  rcases h with ⟨rfl, h⟩ | ⟨rfl, h⟩ | ⟨rfl, rfl⟩
  · have hp := h'.pos_iff.mpr h
    rcases h' with ⟨rfl, _⟩ | ⟨rfl, _⟩ | ⟨rfl, _⟩ <;> omega
  · have hn := h'.neg_iff.mpr h
    rcases h' with ⟨rfl, _⟩ | ⟨rfl, _⟩ | ⟨rfl, _⟩ <;> omega
  · exact (h'.zero_iff.mpr rfl).symm

theorem mapNodeCmpWords_compares {width : Nat} {a b : List UInt8} {cnt idx : Nat} {xs ys : List Nat}
    {r : Int} (h : Compares r xs ys) :
    Compares ((mapNodeCmpWords width a b cnt idx).getD r)
      (keyWords width a cnt idx ++ xs) (keyWords width b cnt idx ++ ys) := by
  induction cnt generalizing idx with
  | zero => exact h
  | succ cnt ih =>
    have hh := Compares.cons (x := loadLE a (width * idx) width)
      (y := loadLE b (width * idx) width) (fun _ => @ih (idx + 1))
    simp only [keyWords, List.cons_append, mapNodeCmpWords]
    split_ifs with h₁ h₂
    · simpa [h₁] using hh
    · simpa [h₁, h₂] using hh
    · simpa [h₁, h₂] using hh

/-- The rank over storage of any length, of which the key is the first `len`
bytes. -/
def keyRank (hash : UInt32) (len : Nat) (l : List UInt8) : List Nat :=
  hash.toNat :: len ::
    (keyWords 8 l (len / 8) 0 ++
      (keyWords 4 l (if len % 8 ≥ 4 then 1 else 0) (2 * (len / 8)) ++
        keyWords 1 l (if len % 8 ≥ 4 then len % 8 - 4 else len % 8)
          (4 * (if len % 8 ≥ 4 then 2 * (len / 8) + 1 else 2 * (len / 8)))))

theorem mapRank_eq_keyRank (hash : UInt32) (key : MapKey) :
    mapRank hash key = keyRank hash key.len key.bytes := rfl

theorem keyRank_compares (hash hash' : UInt32) (len len' : Nat) (a b : List UInt8) :
    Compares
      (if hash > hash' then 1
        else if hash < hash' then -1
        else if len > len' then 1
        else if len < len' then -1
        else
          (mapNodeCmpWords 8 a b (len' / 8) 0).getD
            ((mapNodeCmpWords 4 a b (if len' % 8 ≥ 4 then 1 else 0) (2 * (len' / 8))).getD
              ((mapNodeCmpWords 1 a b (if len' % 8 ≥ 4 then len' % 8 - 4 else len' % 8)
                (4 * (if len' % 8 ≥ 4 then 2 * (len' / 8) + 1 else 2 * (len' / 8)))).getD 0)))
      (keyRank hash len a) (keyRank hash' len' b) := by
  unfold keyRank
  simp only [gt_iff_lt, UInt32.lt_iff_toNat_lt]
  apply Compares.cons
  intro _
  apply Compares.cons
  intro he
  rw [he]
  have hnil : Compares 0 ([] : List Nat) [] := .inr (.inr ⟨rfl, rfl⟩)
  apply mapNodeCmpWords_compares
  apply mapNodeCmpWords_compares
  simpa only [List.append_nil] using mapNodeCmpWords_compares hnil

theorem mapNodeCmp_compares {V : Type} (self : MapNode V) (hash : UInt32) (key : MapKey) :
    Compares (mapNodeCmp self hash key) (mapRank self.hash self.key) (mapRank hash key) := by
  have hm : ∀ (o : Option Int) (d : Int), (match o with | some r => r | none => d) = o.getD d := by
    intro o d
    cases o <;> rfl
  unfold mapNodeCmp
  simp only [hm]
  exact keyRank_compares self.hash hash self.key.len key.len self.key.bytes key.bytes

theorem loadLE_inj {a b : List UInt8} {start width : Nat}
    (h : loadLE a start width = loadLE b start width) {i : Nat} (hs : start ≤ i)
    (hi : i < start + width) : a.getD i 0 = b.getD i 0 := by
  induction width generalizing start with
  | zero => omega
  | succ width ih =>
    simp only [loadLE] at h
    have ha := (a.getD start 0).toNat_lt
    have hb := (b.getD start 0).toNat_lt
    by_cases he : i = start
    · subst he
      apply UInt8.toNat_inj.mp
      omega
    · apply @ih (start + 1)
      · omega
      · omega
      · omega

theorem keyWords_length (width : Nat) (l : List UInt8) (cnt idx : Nat) :
    (keyWords width l cnt idx).length = cnt := by
  induction cnt generalizing idx with
  | zero => rfl
  | succ cnt ih => simp [keyWords, ih]

/-- A word ends before the words after it do. -/
theorem word_le (width idx cnt : Nat) : width * idx + width ≤ width * (idx + (cnt + 1)) := by
  have hm : width * (idx + 1) ≤ width * (idx + (cnt + 1)) := by
    apply Nat.mul_le_mul_left
    omega
  rwa [Nat.mul_add, Nat.mul_one] at hm

theorem keyWords_inj {width cnt idx : Nat} {a b : List UInt8}
    (h : keyWords width a cnt idx = keyWords width b cnt idx) {i : Nat} (hs : width * idx ≤ i)
    (hi : i < width * (idx + cnt)) : a.getD i 0 = b.getD i 0 := by
  induction cnt generalizing idx with
  | zero =>
    simp only [Nat.add_zero] at hi
    omega
  | succ cnt ih =>
    obtain ⟨hh, ht⟩ := List.cons.inj h
    by_cases hw : i < width * idx + width
    · exact loadLE_inj hh hs hw
    · apply ih ht
      · rw [Nat.mul_add, Nat.mul_one]
        omega
      · have he : idx + 1 + cnt = idx + (cnt + 1) := by omega
        rw [he]
        exact hi

theorem keyRank_inj {hash hash' : UInt32} {len len' : Nat} {a b : List UInt8}
    (h : keyRank hash len a = keyRank hash' len' b) :
    hash = hash' ∧ len = len' ∧ ∀ i, i < len → a.getD i 0 = b.getD i 0 := by
  obtain ⟨hh, h⟩ := List.cons.inj h
  obtain ⟨hlen, h⟩ := List.cons.inj h
  rw [← hlen] at h
  obtain ⟨h₈, h⟩ := List.append_inj h (by simp only [keyWords_length])
  obtain ⟨h₄, h₁⟩ := List.append_inj h (by simp only [keyWords_length])
  refine ⟨UInt32.toNat_inj.mp hh, hlen, ?_⟩
  intro i hi
  by_cases hi₈ : i < 8 * (len / 8)
  · apply keyWords_inj h₈ <;> omega
  · by_cases hc : len % 8 ≥ 4
    · simp only [hc, if_true] at h₄ h₁
      by_cases hi₄ : i < 8 * (len / 8) + 4
      · apply keyWords_inj h₄ <;> omega
      · apply keyWords_inj h₁ <;> omega
    · simp only [hc, if_false] at h₁
      apply keyWords_inj h₁ <;> omega

theorem mapRank_inj {hash hash' : UInt32} {key key' : MapKey} :
    mapRank hash key = mapRank hash' key' ↔ hash = hash' ∧ key = key' := by
  constructor
  · intro h
    rw [mapRank_eq_keyRank, mapRank_eq_keyRank] at h
    obtain ⟨hh, hlen, hg⟩ := keyRank_inj h
    have hb : key.bytes = key'.bytes := by
      apply List.ext_getElem hlen
      intro i hi hi'
      simpa [List.getD_eq_getElem?_getD, hi, hi'] using hg i hi
    cases key
    cases key'
    exact ⟨hh, by congr⟩
  · rintro ⟨rfl, rfl⟩
    rfl

theorem hash_le_of_mapRank_lt {hash hash' : UInt32} {key key' : MapKey}
    (h : mapRank hash key < mapRank hash' key') : hash.toNat ≤ hash'.toNat := by
  rcases List.cons_lt_cons_iff.mp h with h | h
  · exact h.le
  · exact h.1.le

end LibCC
