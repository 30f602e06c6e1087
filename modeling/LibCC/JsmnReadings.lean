import LibCC.JsmnTokens

/-! A text without quotes and backslashes in its strings has one reading: it is
the text of no two different trees. -/

namespace LibCC

open JsonText

section Bytes

variable {p : UInt8 → Prop} {a b rest rest' : List UInt8}

/-- Two texts that start with bytes of one kind, and go on with another byte, start alike. -/
theorem run_unique (ha : ∀ c ∈ a, p c) (hb : ∀ c ∈ b, p c)
    (hr : ∀ c, rest.head? = some c → ¬ p c) (hr' : ∀ c, rest'.head? = some c → ¬ p c)
    (he : a ++ rest = b ++ rest') : a = b ∧ rest = rest' := by
  induction a generalizing b with
  | nil =>
    cases b with
    | nil => exact ⟨rfl, he⟩
    | cons d b =>
      rw [List.nil_append] at he
      exact absurd (hb d (by simp)) (hr d (by rw [he]; rfl))
  | cons c a ih =>
    cases b with
    | nil =>
      rw [List.nil_append] at he
      exact absurd (ha c (by simp)) (hr' c (by rw [← he]; rfl))
    | cons d b =>
      obtain ⟨rfl, htail⟩ := List.cons.inj he
      obtain ⟨rfl, hrest⟩ := ih (fun c hc => ha c (by simp [hc])) (fun c hc => hb c (by simp [hc]))
        htail
      exact ⟨rfl, hrest⟩

/-- A printed byte that can stand in a value which is neither a string nor a container. -/
def Bare (c : UInt8) : Prop :=
  32 < c ∧ c < 127 ∧ c ∉ ([34, 44, 58, 91, 93, 123, 125] : List UInt8)

instance : DecidablePred Bare := fun _ => inferInstanceAs (Decidable (_ ∧ _))

theorem Bare.ne {c d : UInt8} (h : Bare c) (hd : ¬ Bare d) : c ≠ d := by
  rintro rfl
  exact hd h

theorem Stops.not_bare (h : Stops rest) : ∀ c, rest.head? = some c → ¬ Bare c := by
  intro c hc
  rcases h c hc with rfl | rfl | rfl <;> decide

theorem bare_of_digit {c : UInt8} (h : IsDigit c) : Bare c := by
  obtain ⟨hlo, hhi⟩ := h
  have h32 : (32 : UInt8) < c := UInt8.lt_of_lt_of_le (by decide) hlo
  have h127 : c < 127 := UInt8.lt_of_le_of_lt hhi (by decide)
  refine ⟨h32, h127, ?_⟩
  intro hmem
  have hmem' : c = 34 ∨ c = 44 ∨ c = 58 ∨ c = 91 ∨ c = 93 ∨ c = 123 ∨ c = 125 := by
    simpa using hmem
  rcases hmem' with rfl | rfl | rfl | rfl | rfl | rfl | rfl
  all_goals revert hlo hhi; decide

theorem formatInt_bare (i : Int) : ∀ c ∈ formatInt i, Bare c := by
  intro c hc
  have hdigits := (formatNat_digits i.natAbs).2
  unfold formatInt at hc
  split_ifs at hc
  · rcases List.mem_cons.mp hc with rfl | hc
    · decide
    · exact bare_of_digit (hdigits c hc)
  · exact bare_of_digit (hdigits c hc)

theorem literal_bare {c : UInt8} (h : c ∈ JsmnText.true_.bytes ∨ c ∈ JsmnText.false_.bytes ∨
    c ∈ JsmnText.null.bytes) : Bare c := by
  have hc : c = 116 ∨ c = 114 ∨ c = 117 ∨ c = 101 ∨ c = 102 ∨ c = 97 ∨ c = 108 ∨ c = 115 ∨
      c = 110 := by
    simp only [JsmnText.true_, JsmnText.false_, JsmnText.null, List.mem_cons] at h
    grind
  rcases hc with rfl | rfl | rfl | rfl | rfl | rfl | rfl | rfl | rfl <;> decide

end Bytes

section Scalars

/-- What snprintf makes of a number has no byte that JSON uses otherwise. -/
def JsmnText.Number (t : JsmnText) : Prop := t.bytes ≠ [] ∧ ∀ c ∈ t.bytes, Bare c

def JsmnScalar.Clear : JsmnScalar → Prop
  | .string text => text.Plain
  | .float text | .double text => text.Number
  | _ => True

variable {s s' : JsmnScalar} {rest rest' : List UInt8}

theorem JsmnScalar.clear_cases (h : s.Clear) :
    (s.leaf = .string ∧ s.text = 34 :: (s.str.bytes ++ [34]) ∧ ∀ c ∈ s.str.bytes, c ≠ 34) ∨
    (s.leaf = .primitive ∧ s.text = s.str.bytes ∧ s.str.bytes ≠ [] ∧
      ∀ c ∈ s.str.bytes, Bare c) := by
  cases s with
  | string text => exact .inl ⟨rfl, rfl, fun c hc => (h c hc).2.1⟩
  | true_ =>
    exact .inr ⟨rfl, rfl, by simp [JsmnScalar.str, JsmnText.true_],
      fun c hc => literal_bare (.inl hc)⟩
  | false_ =>
    exact .inr ⟨rfl, rfl, by simp [JsmnScalar.str, JsmnText.false_],
      fun c hc => literal_bare (.inr (.inl hc))⟩
  | null =>
    exact .inr ⟨rfl, rfl, by simp [JsmnScalar.str, JsmnText.null],
      fun c hc => literal_bare (.inr (.inr hc))⟩
  | int val =>
    refine .inr ⟨rfl, rfl, ?_, formatInt_bare val.toInt⟩
    obtain ⟨c, t, ht, -⟩ := formatInt_starts val.toInt
    show formatInt val.toInt ≠ []
    simp [ht]
  | float text | double text => exact .inr ⟨rfl, rfl, h.1, h.2⟩

/-- The first byte of a scalar opens no container and closes none. -/
theorem JsmnScalar.text_head (h : s.Clear) : ∃ c t, s.text = c :: t ∧ (c = 34 ∨ Bare c) := by
  rcases s.clear_cases h with ⟨-, ht, -⟩ | ⟨-, ht, hne, hb⟩
  · exact ⟨_, _, ht, .inl rfl⟩
  · obtain ⟨c, t, hc⟩ := List.exists_cons_of_ne_nil hne
    exact ⟨c, t, ht.trans hc, .inr (hb c (by simp [hc]))⟩

theorem JsmnScalar.text_unique (h : s.Clear) (h' : s'.Clear) (hr : Stops rest) (hr' : Stops rest')
    (he : s.text ++ rest = s'.text ++ rest') :
    s.leaf = s'.leaf ∧ s.str.bytes = s'.str.bytes ∧ rest = rest' := by
  rcases s.clear_cases h with ⟨hl, ht, hb⟩ | ⟨hl, ht, hne, hb⟩
  · rcases s'.clear_cases h' with ⟨hl', ht', hb'⟩ | ⟨hl', ht', hne', hb'⟩
    · rw [ht, ht'] at he
      have hbody : s.str.bytes ++ [34] ++ rest = s'.str.bytes ++ [34] ++ rest' :=
        (List.cons.inj he).2
      rw [List.append_assoc, List.append_assoc] at hbody
      obtain ⟨hbytes, htail⟩ := run_unique hb hb' (by simp) (by simp) hbody
      exact ⟨hl.trans hl'.symm, hbytes, (List.cons.inj htail).2⟩
    · obtain ⟨c, t, hc⟩ := List.exists_cons_of_ne_nil hne'
      rw [ht, ht', hc] at he
      have hhead := (List.cons.inj he).1
      exact absurd hhead.symm ((hb' c (by simp [hc])).ne (by decide))
  · rcases s'.clear_cases h' with ⟨hl', ht', hb'⟩ | ⟨hl', ht', hne', hb'⟩
    · obtain ⟨c, t, hc⟩ := List.exists_cons_of_ne_nil hne
      rw [ht, ht', hc] at he
      have hhead := (List.cons.inj he).1
      exact absurd hhead ((hb c (by simp [hc])).ne (by decide))
    · rw [ht, ht'] at he
      obtain ⟨hbytes, hrest⟩ := run_unique hb hb' hr.not_bare hr'.not_bare he
      exact ⟨hl.trans hl'.symm, hbytes, hrest⟩

theorem jsmnKeyText_unique {key key' : JsmnText} (h : key.Plain) (h' : key'.Plain)
    (he : jsmnKeyText key ++ rest = jsmnKeyText key' ++ rest') :
    key.bytes = key'.bytes ∧ rest = rest' := by
  have hbody : key.bytes ++ [34, 58] ++ rest = key'.bytes ++ [34, 58] ++ rest' :=
    (List.cons.inj he).2
  rw [List.append_assoc, List.append_assoc] at hbody
  obtain ⟨hbytes, htail⟩ := run_unique (p := fun c => c ≠ 34) (fun c hc => (h c hc).2.1)
    (fun c hc => (h' c hc).2.1) (by simp) (by simp) hbody
  exact ⟨hbytes, List.append_cancel_left htail⟩

end Scalars

section Trees

mutual

/-- No key and no string holds a quote, a backslash or a control byte, and what was printed for
a float or a double is a number. -/
def JsmnDoc.Clear : JsmnDoc → Prop
  | .scalar s => s.Clear
  | .object members => jsmnMembersClear members
  | .array elements => jsmnElementsClear elements

def jsmnMembersClear : List (JsmnText × JsmnDoc) → Prop
  | [] => True
  | (key, doc) :: members => key.Plain ∧ doc.Clear ∧ jsmnMembersClear members

def jsmnElementsClear : List JsmnDoc → Prop
  | [] => True
  | doc :: elements => doc.Clear ∧ jsmnElementsClear elements

end

variable {rest rest' : List UInt8}

theorem JsmnScalar.text_ne {s : JsmnScalar} (h : s.Clear) {c : UInt8} (hc : c = 123 ∨ c = 91)
    (t : List UInt8) : s.text ++ rest ≠ c :: t := by
  obtain ⟨d, u, hd, hfirst⟩ := s.text_head h
  rw [hd, List.cons_append]
  intro he
  obtain rfl := (List.cons.inj he).1
  rcases hfirst with rfl | hbare
  · rcases hc with hc | hc <;> exact absurd hc (by decide)
  · rcases hc with rfl | rfl <;> exact absurd hbare (by decide)

theorem JsmnDoc.text_head {doc : JsmnDoc} (h : doc.Clear) : ∃ c t, doc.text = c :: t ∧ c ≠ 93 := by
  cases doc with
  | scalar s =>
    obtain ⟨c, t, ht, hc⟩ := s.text_head h
    refine ⟨c, t, ht, ?_⟩
    rcases hc with rfl | hc
    · decide
    · exact hc.ne (by decide)
  | object members => exact ⟨123, _, by rw [JsmnDoc.text, JsmnDoc.textWith], by decide⟩
  | array elements => exact ⟨91, _, by rw [JsmnDoc.text, JsmnDoc.textWith], by decide⟩

theorem jsmnMembers_stops (members : List (JsmnText × JsmnDoc)) (i : Nat) (rest : List UInt8) :
    Stops (jsmnMembersText jsmnSep (i + 1) members ++ 125 :: rest) := by
  cases members with
  | nil => exact stops_cons (by decide)
  | cons member members =>
    obtain ⟨key, doc⟩ := member
    rw [jsmnMembersText]
    exact stops_cons (by decide)

theorem jsmnElements_stops (elements : List JsmnDoc) (i : Nat) (rest : List UInt8) :
    Stops (jsmnElementsText jsmnSep (i + 1) elements ++ 93 :: rest) := by
  cases elements with
  | nil => exact stops_cons (by decide)
  | cons doc elements =>
    rw [jsmnElementsText]
    exact stops_cons (by decide)

theorem jsmnMembersText_cons_ne (key : JsmnText) (doc : JsmnDoc)
    (members : List (JsmnText × JsmnDoc)) (i : Nat) :
    jsmnMembersText jsmnSep i ((key, doc) :: members) ++ rest ≠ 125 :: rest' := by
  rw [jsmnMembersText, jsmnSep, jsmnKeyText]
  intro he
  split_ifs at he <;> exact absurd (List.cons.inj he).1 (by decide)

theorem jsmnElementsText_cons_ne {doc : JsmnDoc} (h : doc.Clear) (elements : List JsmnDoc)
    (i : Nat) : jsmnElementsText jsmnSep i (doc :: elements) ++ rest ≠ 93 :: rest' := by
  obtain ⟨c, t, ht, hc⟩ := doc.text_head h
  rw [jsmnElementsText, jsmnSep, ← JsmnDoc.text, ht]
  intro he
  split_ifs at he
  · exact absurd (List.cons.inj he).1 hc
  · exact absurd (List.cons.inj he).1 (by decide)

mutual

/-- Before whatever may follow, a text is read as one tree only. -/
theorem JsmnDoc.tree_unique : ∀ (doc doc' : JsmnDoc) (rest rest' : List UInt8), doc.Clear →
    doc'.Clear → Stops rest → Stops rest' → doc.text ++ rest = doc'.text ++ rest' →
    doc.tree = doc'.tree ∧ rest = rest'
  | .scalar s, .scalar s', rest, rest', h, h', hr, hr', he => by
    obtain ⟨hleaf, hbytes, hrest⟩ := JsmnScalar.text_unique h h' hr hr' he
    rw [JsmnDoc.tree, JsmnDoc.tree, hleaf, hbytes]
    exact ⟨rfl, hrest⟩
  | .scalar s, .object _, _, _, h, _, _, _, he => absurd he (s.text_ne h (.inl rfl) _)
  | .scalar s, .array _, _, _, h, _, _, _, he => absurd he (s.text_ne h (.inr rfl) _)
  | .object _, .scalar s, _, _, _, h', _, _, he => absurd he.symm (s.text_ne h' (.inl rfl) _)
  | .array _, .scalar s, _, _, _, h', _, _, he => absurd he.symm (s.text_ne h' (.inr rfl) _)
  | .object _, .array _, _, _, _, _, _, _, he => absurd (List.cons.inj he).1 (by decide)
  | .array _, .object _, _, _, _, _, _, _, he => absurd (List.cons.inj he).1 (by decide)
  | .object members, .object members', rest, rest', h, h', _, _, he => by
    have hbody : jsmnMembersText jsmnSep 0 members ++ [125] ++ rest =
        jsmnMembersText jsmnSep 0 members' ++ [125] ++ rest' := (List.cons.inj he).2
    rw [List.append_assoc, List.append_assoc] at hbody
    obtain ⟨htree, hrest⟩ := jsmnMembers_unique members members' 0 rest rest' h h' hbody
    rw [JsmnDoc.tree, JsmnDoc.tree, htree]
    exact ⟨rfl, hrest⟩
  | .array elements, .array elements', rest, rest', h, h', _, _, he => by
    have hbody : jsmnElementsText jsmnSep 0 elements ++ [93] ++ rest =
        jsmnElementsText jsmnSep 0 elements' ++ [93] ++ rest' := (List.cons.inj he).2
    rw [List.append_assoc, List.append_assoc] at hbody
    obtain ⟨htree, hrest⟩ := jsmnElements_unique elements elements' 0 rest rest' h h' hbody
    rw [JsmnDoc.tree, JsmnDoc.tree, htree]
    exact ⟨rfl, hrest⟩

theorem jsmnMembers_unique : ∀ (members members' : List (JsmnText × JsmnDoc)) (i : Nat)
    (rest rest' : List UInt8), jsmnMembersClear members → jsmnMembersClear members' →
    jsmnMembersText jsmnSep i members ++ 125 :: rest =
      jsmnMembersText jsmnSep i members' ++ 125 :: rest' →
    jsmnMembersTree members = jsmnMembersTree members' ∧ rest = rest'
  | [], [], _, _, _, _, _, he => ⟨rfl, (List.cons.inj he).2⟩
  | [], (key, doc) :: members, i, _, _, _, _, he =>
    absurd he.symm (jsmnMembersText_cons_ne key doc members i)
  | (key, doc) :: members, [], i, _, _, _, _, he =>
    absurd he (jsmnMembersText_cons_ne key doc members i)
  | (key, doc) :: members, (key', doc') :: members', i, rest, rest', h, h', he => by
    obtain ⟨hkey, hdoc, hms⟩ := h
    obtain ⟨hkey', hdoc', hms'⟩ := h'
    rw [jsmnMembersText, jsmnMembersText] at he
    simp only [List.append_assoc] at he
    obtain ⟨hbytes, htail⟩ := jsmnKeyText_unique hkey hkey' (List.append_cancel_left he)
    obtain ⟨htree, hlater⟩ := JsmnDoc.tree_unique doc doc' _ _ hdoc hdoc'
      (jsmnMembers_stops members i rest) (jsmnMembers_stops members' i rest') htail
    obtain ⟨htrees, hrest⟩ := jsmnMembers_unique members members' (i + 1) rest rest' hms hms' hlater
    rw [jsmnMembersTree, jsmnMembersTree, hbytes, htree, htrees]
    exact ⟨rfl, hrest⟩

theorem jsmnElements_unique : ∀ (elements elements' : List JsmnDoc) (i : Nat)
    (rest rest' : List UInt8), jsmnElementsClear elements → jsmnElementsClear elements' →
    jsmnElementsText jsmnSep i elements ++ 93 :: rest =
      jsmnElementsText jsmnSep i elements' ++ 93 :: rest' →
    jsmnElementsTree elements = jsmnElementsTree elements' ∧ rest = rest'
  | [], [], _, _, _, _, _, he => ⟨rfl, (List.cons.inj he).2⟩
  | [], doc :: elements, i, _, _, _, h', he =>
    absurd he.symm (jsmnElementsText_cons_ne h'.1 elements i)
  | doc :: elements, [], i, _, _, h, _, he => absurd he (jsmnElementsText_cons_ne h.1 elements i)
  | doc :: elements, doc' :: elements', i, rest, rest', h, h', he => by
    obtain ⟨hdoc, hds⟩ := h
    obtain ⟨hdoc', hds'⟩ := h'
    rw [jsmnElementsText, jsmnElementsText] at he
    simp only [List.append_assoc] at he
    obtain ⟨htree, hlater⟩ := JsmnDoc.tree_unique doc doc' _ _ hdoc hdoc'
      (jsmnElements_stops elements i rest) (jsmnElements_stops elements' i rest')
      (List.append_cancel_left he)
    obtain ⟨htrees, hrest⟩ :=
      jsmnElements_unique elements elements' (i + 1) rest rest' hds hds' hlater
    rw [jsmnElementsTree, jsmnElementsTree, htree, htrees]
    exact ⟨rfl, hrest⟩

end

end Trees

end LibCC
