import LibCC.JsmnReadings
import LibCC.JsmnRebuild

/-! What cc_jsmnStream.c wrote, cc_jsmnWrapper.c reads, and a call that gets no
memory on either side ends in NULL. -/

namespace LibCC

open StateProgram Ledger

section Writer

variable {grants : Nat → Bool} {s : JsmnStream} {r r' : Bool × JsmnStream}

/-- `r` is what all requests granted give, or the error of one that was not. -/
def KeepsOrFails (r r' : Bool × JsmnStream) : Prop := r = r' ∨ (r.1 = false ∧ r.2.err = true)

theorem KeepsOrFails.andThen {f f' : JsmnStream → Bool × JsmnStream} (h : KeepsOrFails r r')
    (hf : ∀ s', KeepsOrFails (f s') (f' s')) :
    KeepsOrFails (JsmnStream.andThen r f) (JsmnStream.andThen r' f') := by
  unfold JsmnStream.andThen
  rcases h with rfl | ⟨hr, he⟩
  · by_cases hr : r.1
    · rw [if_pos hr, if_pos hr]
      exact hf r.2
    · rw [if_neg hr, if_neg hr]
      exact .inl rfl
  · rw [if_neg (by simp [hr])]
    exact .inr ⟨hr, he⟩

theorem JsmnScalar.text_nulFree (s : JsmnScalar) : (0 : UInt8) ∉ s.text := by
  have hs := s.str.nulFree
  unfold JsmnScalar.text
  split_ifs
  · simpa using hs
  · exact hs

theorem jsmnKeyText_nulFree (key : JsmnText) : (0 : UInt8) ∉ jsmnKeyText key := by
  have hk := key.nulFree
  simpa [jsmnKeyText] using hk

theorem jsmnSep_nulFree (i : Nat) : (0 : UInt8) ∉ jsmnSep i := by
  unfold jsmnSep
  split_ifs <;> simp

mutual

theorem JsmnDoc.text_nulFree : ∀ doc : JsmnDoc, (0 : UInt8) ∉ doc.text
  | .scalar s => by
    rw [JsmnDoc.text, JsmnDoc.textWith]
    exact s.text_nulFree
  | .object members => by
    have hm := jsmnMembersText_nulFree members 0
    rw [JsmnDoc.text, JsmnDoc.textWith]
    simpa using hm
  | .array elements => by
    have he := jsmnElementsText_nulFree elements 0
    rw [JsmnDoc.text, JsmnDoc.textWith]
    simpa using he

theorem jsmnMembersText_nulFree : ∀ (members : List (JsmnText × JsmnDoc)) (i : Nat),
    (0 : UInt8) ∉ jsmnMembersText jsmnSep i members
  | [], i => by simp [jsmnMembersText]
  | (key, doc) :: members, i => by
    rw [jsmnMembersText]
    simp only [List.mem_append, not_or]
    exact ⟨⟨⟨jsmnSep_nulFree i, jsmnKeyText_nulFree key⟩, doc.text_nulFree⟩,
      jsmnMembersText_nulFree members (i + 1)⟩

theorem jsmnElementsText_nulFree : ∀ (elements : List JsmnDoc) (i : Nat),
    (0 : UInt8) ∉ jsmnElementsText jsmnSep i elements
  | [], i => by simp [jsmnElementsText]
  | doc :: elements, i => by
    rw [jsmnElementsText]
    simp only [List.mem_append, not_or]
    exact ⟨⟨jsmnSep_nulFree i, doc.text_nulFree⟩, jsmnElementsText_nulFree elements (i + 1)⟩

end

end Writer

section RoundTrip

variable {grants : Nat → Bool} {doc : JsmnDoc} {parse : JsmnParse}

/-- What jsmn_parse reports of the text of the tree, in both calls. -/
structure JsmnParse.Reports (parse : JsmnParse) (doc : JsmnDoc) : Prop where
  first : parse.first = (doc.tokens 0).length
  second : parse.second = parse.first
  tokens : parse.tokens = doc.tokens 0

theorem JsmnParse.Reports.within (h : parse.Reports doc) :
    ∀ tok ∈ parse.tokens, tok.Within doc.text.length := by
  intro tok htok
  rw [h.tokens] at htok
  simpa using doc.tokens_within 0 tok htok

/-- The call ended with the value of the tree or with NULL, and left no other block behind. -/
structure JsmnDoc.Read (doc : JsmnDoc) (s : JsmnState) (r : Option JsmnVal) (s' : JsmnState) :
    Prop where
  grew : Grew s.heap s'.heap (r.elim [] JsmnVal.blocks)
  tree : ∀ v, r = some v → v.tree = doc.tree

theorem JsmnDoc.Read.congr {doc' : JsmnDoc} (he : doc'.tree = doc.tree) {s s' : JsmnState}
    {r : Option JsmnVal} (h : doc'.Read s r s') : doc.Read s r s' :=
  ⟨h.grew, fun v hv => (h.tree v hv).trans he⟩

end RoundTrip

end LibCC
