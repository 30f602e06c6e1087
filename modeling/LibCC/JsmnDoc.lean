import LibCC.JsmnStream

/-! What a well-nested sequence of calls writes: the tree, its calls, and its
compact serialization. -/

namespace LibCC

inductive JsmnDoc
  | scalar (s : JsmnScalar)
  | object (members : List (JsmnText × JsmnDoc))
  | array (elements : List JsmnDoc)

def JsmnScalar.str : JsmnScalar → JsmnText
  | .string text => text
  | .true_ => .true_
  | .false_ => .false_
  | .null => .null
  | .int val => jsmnIntText val
  | .float text => text
  | .double text => text

def JsmnScalar.type : JsmnScalar → JsmnType
  | .string _ => .leaf .string
  | _ => .leaf .primitive

/-- The text of a value: a string stands between double quotes. -/
def JsmnScalar.text (s : JsmnScalar) : List UInt8 :=
  if s.type = .leaf .string then 34 :: (s.str.bytes ++ [34]) else s.str.bytes

/-- A key and the colon after it. -/
def jsmnKeyText (key : JsmnText) : List UInt8 := 34 :: (key.bytes ++ [34, 58])

mutual

/-- The calls that write the tree. -/
def JsmnDoc.calls : JsmnDoc → List JsmnCall
  | .scalar s => [.scalar s]
  | .object members => .beginObject :: (jsmnMembersCalls members ++ [.end_])
  | .array elements => .beginArray :: (jsmnElementsCalls elements ++ [.end_])

def jsmnMembersCalls : List (JsmnText × JsmnDoc) → List JsmnCall
  | [] => []
  | (key, doc) :: members => .key key :: (doc.calls ++ jsmnMembersCalls members)

def jsmnElementsCalls : List JsmnDoc → List JsmnCall
  | [] => []
  | doc :: elements => doc.calls ++ jsmnElementsCalls elements

end

mutual

/-- How many containers are open at once. -/
def JsmnDoc.depth : JsmnDoc → Nat
  | .scalar _ => 0
  | .object members => jsmnMembersDepth members + 1
  | .array elements => jsmnElementsDepth elements + 1

def jsmnMembersDepth : List (JsmnText × JsmnDoc) → Nat
  | [] => 0
  | (_, doc) :: members => max doc.depth (jsmnMembersDepth members)

def jsmnElementsDepth : List JsmnDoc → Nat
  | [] => 0
  | doc :: elements => max doc.depth (jsmnElementsDepth elements)

end

mutual

/-- The text of the tree, with `sep i` before the member or element number `i`. -/
def JsmnDoc.textWith (sep : Nat → List UInt8) : JsmnDoc → List UInt8
  | .scalar s => s.text
  | .object members => 123 :: (jsmnMembersText sep 0 members ++ [125])
  | .array elements => 91 :: (jsmnElementsText sep 0 elements ++ [93])

def jsmnMembersText (sep : Nat → List UInt8) : Nat → List (JsmnText × JsmnDoc) → List UInt8
  | _, [] => []
  | i, (key, doc) :: members =>
    sep i ++ jsmnKeyText key ++ doc.textWith sep ++ jsmnMembersText sep (i + 1) members

def jsmnElementsText (sep : Nat → List UInt8) : Nat → List JsmnDoc → List UInt8
  | _, [] => []
  | i, doc :: elements => sep i ++ doc.textWith sep ++ jsmnElementsText sep (i + 1) elements

end

/-- A comma before every member or element but the first. -/
def jsmnSep (i : Nat) : List UInt8 := if i = 0 then [] else [44]

/-- The compact serialization. -/
def JsmnDoc.text (doc : JsmnDoc) : List UInt8 := doc.textWith jsmnSep

/-- What a count of 32 bits makes of the commas. -/
def jsmnCountSep (i : Nat) : List UInt8 := if i % jsmnCountSize = 0 then [] else [44]

mutual

/-- No container has more members than a uint32_t has values. -/
def JsmnDoc.Narrow : JsmnDoc → Prop
  | .scalar _ => True
  | .object members => members.length ≤ jsmnCountSize ∧ jsmnMembersNarrow members
  | .array elements => elements.length ≤ jsmnCountSize ∧ jsmnElementsNarrow elements

def jsmnMembersNarrow : List (JsmnText × JsmnDoc) → Prop
  | [] => True
  | (_, doc) :: members => doc.Narrow ∧ jsmnMembersNarrow members

def jsmnElementsNarrow : List JsmnDoc → Prop
  | [] => True
  | doc :: elements => doc.Narrow ∧ jsmnElementsNarrow elements

end

section Commas

/-- The two rules agree on `n` members from number `i` on. -/
def SepsAgree (i n : Nat) : Prop := ∀ j, i ≤ j → j < i + n → j = 0 ∨ j % jsmnCountSize ≠ 0

theorem sepsAgree_zero {n : Nat} : SepsAgree 0 n ↔ n ≤ jsmnCountSize := by
  constructor
  · intro h
    by_contra hn
    rcases h jsmnCountSize (by omega) (by omega) with h0 | h0
    · exact absurd h0 (by decide)
    · exact h0 (Nat.mod_self _)
  · intro h j _ hj
    by_cases h0 : j = 0
    · exact .inl h0
    · rw [Nat.mod_eq_of_lt (by omega)]
      exact .inr h0

theorem sepsAgree_succ {i n : Nat} :
    SepsAgree i (n + 1) ↔ (i = 0 ∨ i % jsmnCountSize ≠ 0) ∧ SepsAgree (i + 1) n := by
  constructor
  · intro h
    exact ⟨h i (by omega) (by omega), fun j hj hj' => h j (by omega) (by omega)⟩
  · rintro ⟨h0, h⟩ j hj hj'
    by_cases he : j = i
    · exact he ▸ h0
    · exact h j (by omega) (by omega)

theorem jsmnCountSep_eq {i : Nat} (h : i = 0 ∨ i % jsmnCountSize ≠ 0) :
    jsmnCountSep i = jsmnSep i := by
  unfold jsmnCountSep jsmnSep
  rcases h with rfl | h
  · rfl
  · have h0 : i ≠ 0 := by
      rintro rfl
      exact h rfl
    rw [if_neg h, if_neg h0]

theorem jsmnCountSep_length (i : Nat) :
    (jsmnCountSep i).length ≤ (jsmnSep i).length ∧
      ((jsmnCountSep i).length = (jsmnSep i).length → i = 0 ∨ i % jsmnCountSize ≠ 0) := by
  by_cases h : i = 0 ∨ i % jsmnCountSize ≠ 0
  · rw [jsmnCountSep_eq h]
    exact ⟨le_refl _, fun _ => h⟩
  · obtain ⟨h0, hm⟩ := not_or.mp h
    rw [jsmnCountSep, jsmnSep, if_pos (not_not.mp hm), if_neg h0]
    exact ⟨by simp, fun he => absurd he (by simp)⟩

mutual

theorem JsmnDoc.textWith_count : ∀ doc : JsmnDoc, doc.Narrow →
    doc.textWith jsmnCountSep = doc.text
  | .scalar s, _ => by
    rw [JsmnDoc.text, JsmnDoc.textWith, JsmnDoc.textWith]
  | .object members, h => by
    rw [JsmnDoc.Narrow] at h
    rw [JsmnDoc.text, JsmnDoc.textWith, JsmnDoc.textWith,
      jsmnMembersText_count members 0 (sepsAgree_zero.mpr h.1) h.2]
  | .array elements, h => by
    rw [JsmnDoc.Narrow] at h
    rw [JsmnDoc.text, JsmnDoc.textWith, JsmnDoc.textWith,
      jsmnElementsText_count elements 0 (sepsAgree_zero.mpr h.1) h.2]

theorem jsmnMembersText_count : ∀ (members : List (JsmnText × JsmnDoc)) (i : Nat),
    SepsAgree i members.length → jsmnMembersNarrow members →
    jsmnMembersText jsmnCountSep i members =
      jsmnMembersText jsmnSep i members
  | [], i, _, _ => by
    rw [jsmnMembersText, jsmnMembersText]
  | (key, doc) :: members, i, hs, h => by
    rw [jsmnMembersNarrow] at h
    obtain ⟨h0, hs⟩ := sepsAgree_succ.mp hs
    have hdoc := JsmnDoc.textWith_count doc h.1
    rw [JsmnDoc.text] at hdoc
    rw [jsmnMembersText, jsmnMembersText, jsmnCountSep_eq h0, hdoc,
      jsmnMembersText_count members (i + 1) hs h.2]

theorem jsmnElementsText_count : ∀ (elements : List JsmnDoc) (i : Nat),
    SepsAgree i elements.length → jsmnElementsNarrow elements →
    jsmnElementsText jsmnCountSep i elements =
      jsmnElementsText jsmnSep i elements
  | [], i, _, _ => by
    rw [jsmnElementsText, jsmnElementsText]
  | doc :: elements, i, hs, h => by
    rw [jsmnElementsNarrow] at h
    obtain ⟨h0, hs⟩ := sepsAgree_succ.mp hs
    have hdoc := JsmnDoc.textWith_count doc h.1
    rw [JsmnDoc.text] at hdoc
    rw [jsmnElementsText, jsmnElementsText, jsmnCountSep_eq h0, hdoc,
      jsmnElementsText_count elements (i + 1) hs h.2]

end

mutual

/-- A count that wraps drops commas, so the text gets shorter. -/
theorem JsmnDoc.textWith_length : ∀ doc : JsmnDoc,
    (doc.textWith jsmnCountSep).length ≤ doc.text.length ∧
      ((doc.textWith jsmnCountSep).length = doc.text.length → doc.Narrow)
  | .scalar s => by
    rw [JsmnDoc.text, JsmnDoc.textWith, JsmnDoc.textWith, JsmnDoc.Narrow]
    exact ⟨le_refl _, fun _ => trivial⟩
  | .object members => by
    rw [JsmnDoc.text, JsmnDoc.textWith, JsmnDoc.textWith, JsmnDoc.Narrow]
    obtain ⟨hle, heq⟩ := jsmnMembersText_length members 0
    simp only [List.length_cons, List.length_append, List.length_nil]
    refine ⟨by omega, fun h => ?_⟩
    obtain ⟨hs, hn⟩ := heq (by omega)
    exact ⟨sepsAgree_zero.mp hs, hn⟩
  | .array elements => by
    rw [JsmnDoc.text, JsmnDoc.textWith, JsmnDoc.textWith, JsmnDoc.Narrow]
    obtain ⟨hle, heq⟩ := jsmnElementsText_length elements 0
    simp only [List.length_cons, List.length_append, List.length_nil]
    refine ⟨by omega, fun h => ?_⟩
    obtain ⟨hs, hn⟩ := heq (by omega)
    exact ⟨sepsAgree_zero.mp hs, hn⟩

theorem jsmnMembersText_length : ∀ (members : List (JsmnText × JsmnDoc)) (i : Nat),
    (jsmnMembersText jsmnCountSep i members).length ≤
        (jsmnMembersText jsmnSep i members).length ∧
      ((jsmnMembersText jsmnCountSep i members).length =
        (jsmnMembersText jsmnSep i members).length →
        SepsAgree i members.length ∧ jsmnMembersNarrow members)
  | [], i => by
    rw [jsmnMembersText, jsmnMembersText, jsmnMembersNarrow]
    refine ⟨le_refl _, fun _ => ⟨fun j hj hj' => ?_, trivial⟩⟩
    rw [List.length_nil] at hj'
    omega
  | (key, doc) :: members, i => by
    rw [jsmnMembersText, jsmnMembersText, jsmnMembersNarrow]
    obtain ⟨hsep, hsep'⟩ := jsmnCountSep_length i
    obtain ⟨hdoc, hdoc'⟩ := JsmnDoc.textWith_length doc
    obtain ⟨hrest, hrest'⟩ := jsmnMembersText_length members (i + 1)
    rw [JsmnDoc.text] at hdoc hdoc'
    simp only [List.length_append]
    refine ⟨by omega, fun h => ?_⟩
    obtain ⟨hs, hn⟩ := hrest' (by omega)
    exact ⟨sepsAgree_succ.mpr ⟨hsep' (by omega), hs⟩, hdoc' (by omega), hn⟩

theorem jsmnElementsText_length : ∀ (elements : List JsmnDoc) (i : Nat),
    (jsmnElementsText jsmnCountSep i elements).length ≤
        (jsmnElementsText jsmnSep i elements).length ∧
      ((jsmnElementsText jsmnCountSep i elements).length =
        (jsmnElementsText jsmnSep i elements).length →
        SepsAgree i elements.length ∧ jsmnElementsNarrow elements)
  | [], i => by
    rw [jsmnElementsText, jsmnElementsText, jsmnElementsNarrow]
    refine ⟨le_refl _, fun _ => ⟨fun j hj hj' => ?_, trivial⟩⟩
    rw [List.length_nil] at hj'
    omega
  | doc :: elements, i => by
    rw [jsmnElementsText, jsmnElementsText, jsmnElementsNarrow]
    obtain ⟨hsep, hsep'⟩ := jsmnCountSep_length i
    obtain ⟨hdoc, hdoc'⟩ := JsmnDoc.textWith_length doc
    obtain ⟨hrest, hrest'⟩ := jsmnElementsText_length elements (i + 1)
    rw [JsmnDoc.text] at hdoc hdoc'
    simp only [List.length_append]
    refine ⟨by omega, fun h => ?_⟩
    obtain ⟨hs, hn⟩ := hrest' (by omega)
    exact ⟨sepsAgree_succ.mpr ⟨hsep' (by omega), hs⟩, hdoc' (by omega), hn⟩

end

end Commas

end LibCC
