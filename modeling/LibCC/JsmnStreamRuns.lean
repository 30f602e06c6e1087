import LibCC.JsmnPending

/-! The frames and the buffer of cc_jsmnStream.c follow the pushdown machine,
and a call that it does not allow sets the error for good. -/

namespace LibCC

open JsmnPending

section Sticky

variable {s s' : JsmnStream} {r : Bool × JsmnStream} {grants : Nat → Bool}

/-- The error is never taken back, and a call that returns 0 sets it. -/
def Sticky (s : JsmnStream) (r : Bool × JsmnStream) : Prop :=
  (s.err = true → r.2.err = true) ∧ (r.1 = false → r.2.err = true)

theorem Sticky.andThen {f : JsmnStream → Bool × JsmnStream} (h : Sticky s r)
    (hf : ∀ s', Sticky s' (f s')) : Sticky s (JsmnStream.andThen r f) := by
  unfold JsmnStream.andThen
  split_ifs
  · exact ⟨fun he => (hf r.2).1 (h.1 he), (hf r.2).2⟩
  · exact h

theorem sticky_error (s' : JsmnStream) : Sticky s (false, s'.error) := ⟨fun _ => rfl, fun _ => rfl⟩

theorem Sticky.of_err (h : Sticky s' r) (he : s'.err = s.err) : Sticky s r :=
  ⟨fun hs => h.1 (he.trans hs), h.2⟩

theorem sticky_done (he : s'.err = s.err) : Sticky s (true, s') :=
  ⟨fun hs => he.trans hs, fun h => absurd h (by simp)⟩

theorem jsmnStreamCat_sticky (str : JsmnText) (s : JsmnStream) :
    Sticky s (jsmnStreamCat grants str s) := by
  unfold jsmnStreamCat
  dsimp only
  by_cases hsize : s.buffer.elim 0 JsmnBuffer.size < s.len + str.bytes.length + 1
  · rw [if_pos hsize]
    by_cases hg : grants s.requests
    · rw [if_pos hg]
      exact sticky_done rfl
    · rw [if_neg hg]
      exact sticky_error _
  · rw [if_neg hsize]
    exact sticky_done rfl

theorem jsmnStreamAppend_sticky (type : JsmnType) (str : JsmnText) (s : JsmnStream) :
    Sticky s (jsmnStreamAppend grants type str s) := by
  unfold jsmnStreamAppend
  split_ifs
  · exact (jsmnStreamCat_sticky .quote s).andThen fun s₁ =>
      (jsmnStreamCat_sticky str s₁).andThen fun s₂ => jsmnStreamCat_sticky .quote s₂
  · exact jsmnStreamCat_sticky str s

theorem jsmnStreamNest_sticky (type : JsmnType) (str : JsmnText) (s : JsmnStream) :
    Sticky s (jsmnStreamNest grants type str s) := by
  unfold jsmnStreamNest
  split_ifs
  · exact (jsmnStreamAppend_sticky type str _).of_err rfl
  · exact sticky_error _
  · exact jsmnStreamAppend_sticky type str s

theorem jsmnStreamComma_sticky (s : JsmnStream) : Sticky s (jsmnStreamComma grants s) := by
  unfold jsmnStreamComma
  split_ifs
  · exact jsmnStreamCat_sticky .comma s
  · exact sticky_done rfl

theorem jsmnStreamVal_sticky (type : JsmnType) (str : JsmnText) (s : JsmnStream) :
    Sticky s (jsmnStreamVal grants type str s) := by
  unfold jsmnStreamVal
  dsimp only
  split_ifs
  · exact (jsmnStreamAppend_sticky type str _).of_err rfl
  · exact (jsmnStreamNest_sticky type str _).of_err rfl
  · exact (jsmnStreamComma_sticky s).andThen fun s₁ =>
      (jsmnStreamNest_sticky type str _).of_err rfl
  · exact sticky_error s

theorem jsmnStreamEnd_sticky (s : JsmnStream) : Sticky s (jsmnStreamEnd grants s) := by
  unfold jsmnStreamEnd
  dsimp only
  split_ifs
  · exact (jsmnStreamCat_sticky .closeBrace s).andThen fun s₁ => sticky_done rfl
  · exact (jsmnStreamCat_sticky .closeBracket s).andThen fun s₁ => sticky_done rfl
  · exact sticky_error s

theorem jsmnStreamKey_sticky (text : JsmnText) (s : JsmnStream) :
    Sticky s (jsmnStreamKey grants text s) := by
  unfold jsmnStreamKey
  dsimp only
  split_ifs
  · refine Sticky.of_err ?_ (show (s.setTop { s.top with hasKey := true }).err = s.err from rfl)
    exact (jsmnStreamComma_sticky _).andThen fun s₁ =>
      Sticky.of_err ((jsmnStreamCat_sticky .quote _).andThen fun s₂ =>
        (jsmnStreamCat_sticky text s₂).andThen fun s₃ =>
          (jsmnStreamCat_sticky .quote s₃).andThen fun s₄ => jsmnStreamCat_sticky .colon s₄) rfl
  · exact sticky_error s

theorem jsmnStreamCall_sticky (call : JsmnCall) (s : JsmnStream) :
    Sticky s (jsmnStreamCall grants call s) := by
  cases call with
  | scalar c => cases c <;> exact jsmnStreamVal_sticky _ _ s
  | beginObject => exact jsmnStreamVal_sticky _ _ s
  | beginArray => exact jsmnStreamVal_sticky _ _ s
  | end_ => exact jsmnStreamEnd_sticky s
  | key text => exact jsmnStreamKey_sticky text s

theorem jsmnStreamBuffer_err (h : s.err = true) :
    (jsmnStreamBuffer s).1 = none ∧ (jsmnStreamBuffer s).2.2.err = true := by
  unfold jsmnStreamBuffer
  rw [if_neg (by simp [h])]
  exact ⟨rfl, rfl⟩

theorem jsmnStreamOp_err (h : s.err = true) (op : Option JsmnCall) :
    (jsmnStreamOp grants op s).err = true := by
  cases op with
  | none => exact (jsmnStreamBuffer_err h).2
  | some call => exact (jsmnStreamCall_sticky call s).1 h

theorem jsmnStreamRun_err (h : s.err = true) (ops : List (Option JsmnCall)) :
    (jsmnStreamRun grants ops s).err = true := by
  induction ops generalizing s with
  | nil => exact h
  | cons op ops ih => exact ih (jsmnStreamOp_err h op)

/-- With the error set every later cc_jsmnStream_buffer returns NULL. -/
theorem jsmnStreamRun_buffer_none (h : s.err = true) (ops : List (Option JsmnCall)) :
    (jsmnStreamBuffer (jsmnStreamRun grants ops s)).1 = none :=
  (jsmnStreamBuffer_err (jsmnStreamRun_err h ops)).1

end Sticky

section Buffer

variable {s s' s'' : JsmnStream} {grants : Nat → Bool} {bytes bytes' text : List UInt8}

/-- `text` is in the buffer. -/
def JsmnStream.Holds (s : JsmnStream) (text : List UInt8) : Prop :=
  s.len = text.length ∧
    (s.buffer.map JsmnBuffer.bytes = some (text ++ [0]) ∨ s.buffer = none ∧ text = [])

/-- `bytes` were appended, and nothing else happened. -/
structure Appended (bytes : List UInt8) (s s' : JsmnStream) : Prop where
  err : s'.err = s.err
  depth : s'.depth = s.depth
  state : s'.state = s.state
  holds : ∀ text, s.Holds text → s'.Holds (text ++ bytes)

theorem Appended.top (h : Appended bytes s s') : s'.top = s.top := by
  unfold JsmnStream.top
  rw [h.depth, h.state]

theorem Appended.refl (s : JsmnStream) : Appended [] s s :=
  ⟨rfl, rfl, rfl, fun text h => by simpa using h⟩

theorem Appended.trans (h : Appended bytes s s') (h' : Appended bytes' s' s'') :
    Appended (bytes ++ bytes') s s'' := by
  refine ⟨h'.err.trans h.err, h'.depth.trans h.depth, h'.state.trans h.state, fun text ht => ?_⟩
  rw [← List.append_assoc]
  exact h'.holds _ (h.holds text ht)

/-- A call that succeeds and appends `bytes`. -/
def Appends (bytes : List UInt8) (s : JsmnStream) (r : Bool × JsmnStream) : Prop :=
  r.1 = true ∧ Appended bytes s r.2

theorem Appends.andThen {r : Bool × JsmnStream} {f : JsmnStream → Bool × JsmnStream}
    (h : Appends bytes s r) (hf : ∀ s', Appended bytes s s' → Appends bytes' s' (f s')) :
    Appends (bytes ++ bytes') s (JsmnStream.andThen r f) := by
  unfold JsmnStream.andThen
  rw [if_pos h.1]
  exact ⟨(hf r.2 h.2).1, h.2.trans (hf r.2 h.2).2⟩

theorem jsmnStreamCat_appends (hall : ∀ n, grants n = true) (str : JsmnText) (s : JsmnStream) :
    Appends str.bytes s (jsmnStreamCat grants str s) := by
  have hlen : ∀ text : List UInt8, s.len = text.length →
      s.len + str.bytes.length = (text ++ str.bytes).length := by
    intro text ht
    rw [ht, List.length_append]
  unfold jsmnStreamCat
  dsimp only
  by_cases hsize : s.buffer.elim 0 JsmnBuffer.size < s.len + str.bytes.length + 1
  · rw [if_pos hsize, if_pos (hall _)]
    refine ⟨rfl, rfl, rfl, rfl, fun text ht => ⟨hlen text ht.1, .inl ?_⟩⟩
    rcases ht.2 with hb | ⟨hb, rfl⟩
    · obtain ⟨a, ha, hbytes⟩ := Option.map_eq_some_iff.mp hb
      simp [jsmnStreamCopy, ha, hbytes, ht.1]
    · simp [jsmnStreamCopy, hb]
  · rw [if_neg hsize]
    refine ⟨rfl, rfl, rfl, rfl, fun text ht => ⟨hlen text ht.1, .inl ?_⟩⟩
    rcases ht.2 with hb | ⟨hb, rfl⟩
    · obtain ⟨a, ha, hbytes⟩ := Option.map_eq_some_iff.mp hb
      simp [jsmnStreamCopy, ha, hbytes, ht.1]
    · rw [hb] at hsize
      simp at hsize

theorem jsmnStreamCat_buffer (hall : ∀ n, grants n = true) (str : JsmnText) (s : JsmnStream) :
    (jsmnStreamCat grants str s).2.buffer ≠ none := by
  unfold jsmnStreamCat
  dsimp only
  by_cases hsize : s.buffer.elim 0 JsmnBuffer.size < s.len + str.bytes.length + 1
  · rw [if_pos hsize, if_pos (hall _)]
    simp [jsmnStreamCopy]
  · rw [if_neg hsize]
    cases hb : s.buffer with
    | none =>
      rw [hb] at hsize
      simp at hsize
    | some a => simp [jsmnStreamCopy, hb]

theorem jsmnStreamAppend_appends (hall : ∀ n, grants n = true) (type : JsmnType) (str : JsmnText)
    (s : JsmnStream) :
    Appends (if type = .leaf .string then 34 :: (str.bytes ++ [34]) else str.bytes) s
      (jsmnStreamAppend grants type str s) := by
  unfold jsmnStreamAppend
  split_ifs
  · exact (jsmnStreamCat_appends hall .quote s).andThen fun s₁ _ =>
      (jsmnStreamCat_appends hall str s₁).andThen fun s₂ _ => jsmnStreamCat_appends hall .quote s₂
  · exact jsmnStreamCat_appends hall str s

theorem jsmnStreamAppend_buffer (hall : ∀ n, grants n = true) (type : JsmnType) (str : JsmnText)
    (s : JsmnStream) : (jsmnStreamAppend grants type str s).2.buffer ≠ none := by
  unfold jsmnStreamAppend JsmnStream.andThen
  by_cases h : type = .leaf .string
  · rw [if_pos h, if_pos (jsmnStreamCat_appends hall .quote s).1]
    dsimp only
    rw [if_pos (jsmnStreamCat_appends hall str _).1]
    exact jsmnStreamCat_buffer hall .quote _
  · rw [if_neg h]
    exact jsmnStreamCat_buffer hall str s

theorem jsmnStreamComma_appends (hall : ∀ n, grants n = true) {n : Nat}
    (hn : s.top.count = n % jsmnCountSize) :
    Appends (jsmnCountSep n) s (jsmnStreamComma grants s) := by
  unfold jsmnStreamComma jsmnCountSep
  rw [← hn]
  by_cases h : s.top.count = 0
  · rw [if_pos h, if_neg (not_not.mpr h)]
    exact ⟨rfl, Appended.refl s⟩
  · rw [if_neg h, if_pos h]
    exact jsmnStreamCat_appends hall .comma s

end Buffer

section Frames

def JsmnHole.frame : JsmnHole → JsmnFrame
  | .object done _ => ⟨.object, false, false, (done.length + 1) % jsmnCountSize⟩
  | .array done => ⟨.array, false, false, (done.length + 1) % jsmnCountSize⟩

def JsmnOpen.frame : JsmnOpen → JsmnFrame
  | .object done => ⟨.object, false, false, done.length % jsmnCountSize⟩
  | .keyed done _ => ⟨.object, true, false, (done.length + 1) % jsmnCountSize⟩
  | .array done => ⟨.array, false, false, done.length % jsmnCountSize⟩

def JsmnHole.text : JsmnHole → List UInt8
  | .object done key =>
    123 :: (jsmnMembersText jsmnCountSep 0 done ++ jsmnCountSep done.length ++ jsmnKeyText key)
  | .array done => 91 :: (jsmnElementsText jsmnCountSep 0 done ++ jsmnCountSep done.length)

def JsmnOpen.text : JsmnOpen → List UInt8
  | .object done => 123 :: jsmnMembersText jsmnCountSep 0 done
  | .keyed done key => (JsmnHole.object done key).text
  | .array done => 91 :: jsmnElementsText jsmnCountSep 0 done

def jsmnHolesText : List JsmnHole → List UInt8
  | [] => []
  | hole :: holes => jsmnHolesText holes ++ hole.text

theorem JsmnHole.fill_frame (hole : JsmnHole) (doc : JsmnDoc) :
    (hole.fill doc).frame = hole.frame := by
  cases hole <;> simp [JsmnHole.fill, JsmnOpen.frame, JsmnHole.frame]

theorem jsmnMembersText_append (sep : Nat → List UInt8) (i : Nat)
    (done : List (JsmnText × JsmnDoc)) (key : JsmnText) (doc : JsmnDoc) :
    jsmnMembersText sep i (done ++ [(key, doc)]) = jsmnMembersText sep i done ++
      sep (i + done.length) ++ jsmnKeyText key ++ doc.textWith sep := by
  induction done generalizing i with
  | nil => simp [jsmnMembersText]
  | cons member done ih =>
    simp only [List.cons_append, jsmnMembersText, ih (i + 1), List.length_cons, List.append_assoc]
    rw [show i + 1 + done.length = i + (done.length + 1) by omega]

theorem jsmnElementsText_append (sep : Nat → List UInt8) (i : Nat) (done : List JsmnDoc)
    (doc : JsmnDoc) : jsmnElementsText sep i (done ++ [doc]) = jsmnElementsText sep i done ++
      sep (i + done.length) ++ doc.textWith sep := by
  induction done generalizing i with
  | nil => simp [jsmnElementsText]
  | cons member done ih =>
    simp only [List.cons_append, jsmnElementsText, ih (i + 1), List.length_cons, List.append_assoc]
    rw [show i + 1 + done.length = i + (done.length + 1) by omega]

theorem JsmnHole.fill_text (hole : JsmnHole) (doc : JsmnDoc) :
    (hole.fill doc).text = hole.text ++ doc.textWith jsmnCountSep := by
  cases hole with
  | object done key =>
    simp [JsmnHole.fill, JsmnOpen.text, JsmnHole.text, jsmnMembersText_append]
  | array done =>
    simp [JsmnHole.fill, JsmnOpen.text, JsmnHole.text, jsmnElementsText_append]

/-- The frames of the containers around the innermost. -/
def HolesIn (state : Fin 32 → JsmnFrame) : List JsmnHole → Prop
  | [] => True
  | hole :: holes => (∃ h : holes.length < 32, state ⟨holes.length, h⟩ = hole.frame) ∧
    HolesIn state holes

theorem HolesIn.update {state : Fin 32 → JsmnFrame} {holes : List JsmnHole}
    (h : HolesIn state holes) {i : Fin 32} (hi : holes.length ≤ i.val) (frame : JsmnFrame) :
    HolesIn (Function.update state i frame) holes := by
  induction holes with
  | nil => trivial
  | cons hole holes ih =>
    rw [List.length_cons] at hi
    obtain ⟨⟨hlt, hf⟩, hrest⟩ := h
    refine ⟨⟨hlt, ?_⟩, ih hrest (by omega)⟩
    rw [Function.update_of_ne (Fin.ne_of_val_ne (by simp only; omega)), hf]

/-- The stream after the calls that led to `p`. -/
def JsmnFollows : JsmnPending → JsmnStream → Prop
  | .start, s => s.err = false ∧ s.depth.val = 0 ∧ s.top.type = .leaf .undefined ∧ s.Holds []
  | .within top holes, s => s.err = false ∧ s.depth.val = holes.length ∧ s.top = top.frame ∧
    HolesIn s.state holes ∧ s.Holds (jsmnHolesText holes ++ top.text)
  | .whole doc, s => s.err = false ∧ s.depth.val = 0 ∧ s.top.type ≠ .leaf .undefined ∧
    s.top.hasKey = false ∧ s.top.hasEnd = true ∧ s.buffer ≠ none ∧
    s.Holds (doc.textWith jsmnCountSep)

end Frames

section Step

variable {s s₁ : JsmnStream} {grants : Nat → Bool} {p p' : JsmnPending} {hole : JsmnHole}
  {holes : List JsmnHole}

theorem HolesIn.appended {bytes : List UInt8} {s' : JsmnStream} (h : HolesIn s.state holes)
    (ha : Appended bytes s s') : HolesIn s'.state holes := ha.state ▸ h

@[simp] theorem JsmnStream.setTop_top (s : JsmnStream) (frame : JsmnFrame) :
    (s.setTop frame).top = frame := Function.update_self _ _ _

theorem JsmnStream.Holds.setTop {text : List UInt8} (h : s.Holds text) (frame : JsmnFrame) :
    (s.setTop frame).Holds text := h

/-- The stream inside of `holes`, the innermost of which is to be filled. -/
structure Inside (holes : List JsmnHole) (s : JsmnStream) : Prop where
  err : s.err = false
  depth : s.depth.val + 1 = holes.length
  frames : HolesIn s.state holes
  holds : s.Holds (jsmnHolesText holes)

/-- The start of cc_jsmnStream_val inside of a container. -/
theorem jsmnStreamVal_nests (hall : ∀ n, grants n = true) (h : JsmnFollows p s)
    (hp : p.holes? = some (hole :: holes)) (type : JsmnType) (str : JsmnText) :
    ∃ s₁, jsmnStreamVal grants type str s = jsmnStreamNest grants type str s₁ ∧
      Inside (hole :: holes) s₁ := by
  cases p with
  | start => exact absurd hp (by simp [JsmnPending.holes?])
  | whole doc => exact absurd hp (by simp [JsmnPending.holes?])
  | within top holes' =>
    obtain ⟨herr, hdepth, htop, hin, hholds⟩ := h
    have hlt : holes'.length < 32 := hdepth ▸ s.depth.isLt
    have hat : s.depth = ⟨holes'.length, hlt⟩ := Fin.ext hdepth
    cases top with
    | object done => exact absurd hp (by simp [JsmnPending.holes?, JsmnOpen.hole?])
    | keyed done key =>
      obtain ⟨rfl, rfl⟩ := List.cons.inj (Option.some.inj hp)
      refine ⟨s.setTop { s.top with hasKey := false }, ?_, herr, ?_, ?_, hholds⟩
      · unfold jsmnStreamVal
        rw [htop]
        rfl
      · rw [List.length_cons]
        exact congrArg (· + 1) hdepth
      · refine ⟨⟨hlt, ?_⟩, hin.update (le_of_eq hdepth.symm) _⟩
        rw [htop, ← hat]
        exact Function.update_self _ _ _
    | array done =>
      obtain ⟨rfl, rfl⟩ := List.cons.inj (Option.some.inj hp)
      have hcount : s.top.count = done.length % jsmnCountSize := by
        rw [htop]
        rfl
      obtain ⟨hok, ha⟩ := jsmnStreamComma_appends hall hcount
      have hdepth₂ : (jsmnStreamComma grants s).2.depth = s.depth := ha.depth
      refine ⟨jsmnStreamCount (jsmnStreamComma grants s).2, ?_, ha.err.trans herr, ?_, ?_, ?_⟩
      · unfold jsmnStreamVal JsmnStream.andThen
        rw [htop, hok]
        rfl
      · rw [List.length_cons]
        exact congrArg (· + 1) ((congrArg Fin.val hdepth₂).trans hdepth)
      · refine ⟨⟨hlt, ?_⟩, (hin.appended ha).update (le_of_eq ?_) _⟩
        · rw [← hat, ← hdepth₂, jsmnStreamCount, ha.top, htop]
          refine (Function.update_self _ _ _).trans ?_
          simp [JsmnOpen.frame, JsmnHole.frame]
        · rw [hdepth₂, hdepth]
      · have := ha.holds _ hholds
        rwa [List.append_assoc] at this

theorem jsmnStreamNest_scalar (hall : ∀ n, grants n = true) (h : Inside (hole :: holes) s)
    (c : JsmnScalar) : (jsmnStreamNest grants c.type c.str s).1 = true ∧
      JsmnFollows (fill (hole :: holes) (.scalar c)) (jsmnStreamNest grants c.type c.str s).2 := by
  have hleaf : ¬ (c.type = .object ∨ c.type = .array) := by
    cases c <;> simp [JsmnScalar.type]
  obtain ⟨⟨hlt, hframe⟩, hin⟩ := h.frames
  have hdepth : s.depth = ⟨holes.length, hlt⟩ := Fin.ext (by simpa using h.depth)
  unfold jsmnStreamNest
  rw [if_neg hleaf]
  obtain ⟨hok, ha⟩ := jsmnStreamAppend_appends hall c.type c.str s
  refine ⟨hok, ha.err.trans h.err, ?_, ?_, hin.appended ha, ?_⟩
  · rw [ha.depth, hdepth]
  · rw [ha.top, JsmnHole.fill_frame, JsmnStream.top, hdepth, hframe]
  · rw [JsmnHole.fill_text, ← List.append_assoc]
    exact ha.holds _ h.holds

theorem jsmnStreamNest_open (hall : ∀ n, grants n = true) (h : Inside (hole :: holes) s)
    {type : JsmnType} {str : JsmnText} {top : JsmnOpen} (htype : type = .object ∨ type = .array)
    (hframe : top.frame = ⟨type, false, false, 0⟩) (htext : top.text = str.bytes) :
    (∀ p', enter top (hole :: holes) = some p' → (jsmnStreamNest grants type str s).1 = true ∧
      JsmnFollows p' (jsmnStreamNest grants type str s).2) ∧
    (enter top (hole :: holes) = none → (jsmnStreamNest grants type str s).1 = false) := by
  have hdepth := h.depth
  unfold jsmnStreamNest enter
  rw [if_pos htype]
  by_cases hlt : (hole :: holes).length < 32
  · rw [if_pos hlt, dif_pos (by omega)]
    refine ⟨fun p' he => ?_, fun he => absurd he (by simp)⟩
    obtain rfl := Option.some.inj he
    set s₁ : JsmnStream := { s with depth := ⟨s.depth.val + 1, by omega⟩ }
    obtain ⟨hok, ha⟩ := jsmnStreamAppend_appends hall type str (s₁.setTop ⟨type, false, false, 0⟩)
    have hstr : type ≠ .leaf .string := by
      rcases htype with rfl | rfl <;> simp
    rw [if_neg hstr] at ha
    refine ⟨hok, ha.err.trans h.err, ?_, ?_, ?_, ?_⟩
    · rw [ha.depth, ← hdepth]
      rfl
    · rw [ha.top, JsmnStream.setTop_top, hframe]
    · exact HolesIn.appended (h.frames.update (le_of_eq hdepth.symm) _) ha
    · rw [htext]
      exact ha.holds _ h.holds
  · rw [if_neg hlt, dif_neg (by omega)]
    exact ⟨fun p' he => absurd he (by simp), fun _ => rfl⟩

theorem jsmnStreamVal_scalar (hall : ∀ n, grants n = true) (h : JsmnFollows p s)
    (hp : p.holes? = some holes) (c : JsmnScalar) : (jsmnStreamVal grants c.type c.str s).1 = true ∧
      JsmnFollows (fill holes (.scalar c)) (jsmnStreamVal grants c.type c.str s).2 := by
  cases holes with
  | cons hole holes =>
    obtain ⟨s₁, he, hin⟩ := jsmnStreamVal_nests hall h hp c.type c.str
    rw [he]
    exact jsmnStreamNest_scalar hall hin c
  | nil =>
    cases p with
    | whole doc => exact absurd hp (by simp [JsmnPending.holes?])
    | within top holes => exact absurd hp (by simp [JsmnPending.holes?])
    | start =>
      obtain ⟨herr, hdepth, htop, hholds⟩ := h
      unfold jsmnStreamVal
      rw [if_pos htop]
      obtain ⟨hok, ha⟩ := jsmnStreamAppend_appends hall c.type c.str (s.setTop
        ⟨c.type, false, c.type = .leaf .string ∨ c.type = .leaf .primitive, 0⟩)
      refine ⟨hok, ha.err.trans herr, (congrArg Fin.val ha.depth).trans hdepth, ?_, ?_, ?_,
        jsmnStreamAppend_buffer hall _ _ _, ?_⟩
      · rw [ha.top, JsmnStream.setTop_top]
        cases c <;> simp [JsmnScalar.type]
      · rw [ha.top, JsmnStream.setTop_top]
      · rw [ha.top, JsmnStream.setTop_top]
        cases c <;> simp [JsmnScalar.type]
      · have := ha.holds [] hholds
        rwa [List.nil_append] at this

theorem jsmnStreamVal_open (hall : ∀ n, grants n = true) (h : JsmnFollows p s)
    (hp : p.holes? = some holes) {type : JsmnType} {str : JsmnText} {top : JsmnOpen}
    (htype : type = .object ∨ type = .array) (hframe : top.frame = ⟨type, false, false, 0⟩)
    (htext : top.text = str.bytes) :
    (∀ p', enter top holes = some p' → (jsmnStreamVal grants type str s).1 = true ∧
      JsmnFollows p' (jsmnStreamVal grants type str s).2) ∧
    (enter top holes = none → (jsmnStreamVal grants type str s).1 = false) := by
  cases holes with
  | cons hole holes =>
    obtain ⟨s₁, he, hin⟩ := jsmnStreamVal_nests hall h hp type str
    rw [he]
    exact jsmnStreamNest_open hall hin htype hframe htext
  | nil =>
    cases p with
    | whole doc => exact absurd hp (by simp [JsmnPending.holes?])
    | within top holes => exact absurd hp (by simp [JsmnPending.holes?])
    | start =>
      obtain ⟨herr, hdepth, htop, hholds⟩ := h
      unfold jsmnStreamVal enter
      rw [if_pos htop, if_pos (by simp)]
      refine ⟨fun p' he => ?_, fun he => absurd he (by simp)⟩
      obtain rfl := Option.some.inj he
      have hend : ¬ (type = .leaf .string ∨ type = .leaf .primitive) := by
        rcases htype with rfl | rfl <;> simp
      have hstr : type ≠ .leaf .string := fun h => hend (.inl h)
      obtain ⟨hok, ha⟩ := jsmnStreamAppend_appends hall type str (s.setTop
        ⟨type, false, type = .leaf .string ∨ type = .leaf .primitive, 0⟩)
      rw [if_neg hstr] at ha
      refine ⟨hok, ha.err.trans herr, ?_, ?_, trivial, ?_⟩
      · rw [ha.depth]
        exact hdepth
      · rw [ha.top, JsmnStream.setTop_top, hframe]
        simp [hend]
      · have := ha.holds [] hholds
        rwa [← htext] at this

/-- Where no value may come, cc_jsmnStream_val fails. -/
theorem jsmnStreamVal_refuses (h : JsmnFollows p s) (hp : p.holes? = none) (type : JsmnType)
    (str : JsmnText) : (jsmnStreamVal grants type str s).1 = false := by
  cases p with
  | start => exact absurd hp (by simp [JsmnPending.holes?])
  | within top holes =>
    obtain ⟨-, -, htop, -⟩ := h
    cases top with
    | keyed done key => exact absurd hp (by simp [JsmnPending.holes?, JsmnOpen.hole?])
    | array done => exact absurd hp (by simp [JsmnPending.holes?, JsmnOpen.hole?])
    | object done =>
      unfold jsmnStreamVal
      rw [htop]
      rfl
  | whole doc =>
    obtain ⟨-, -, htype, -, hend, -⟩ := h
    simp [jsmnStreamVal, htype, hend]

/-- The end of a container that is closed with `str`. -/
theorem jsmnStreamClose_follows (hall : ∀ n, grants n = true) {top : JsmnOpen} {doc : JsmnDoc}
    (h : JsmnFollows (.within top holes) s) (str : JsmnText)
    (htext : doc.textWith jsmnCountSep = top.text ++ str.bytes)
    (htype : top.frame.type ≠ .leaf .undefined) (hkey : top.frame.hasKey = false) :
    (JsmnStream.andThen (jsmnStreamCat grants str s) jsmnStreamClose).1 = true ∧
      JsmnFollows (fill holes doc)
        (JsmnStream.andThen (jsmnStreamCat grants str s) jsmnStreamClose).2 := by
  obtain ⟨herr, hdepth, htop, hin, hholds⟩ := h
  obtain ⟨hok, ha⟩ := jsmnStreamCat_appends hall str s
  unfold JsmnStream.andThen
  rw [if_pos hok]
  have hdepth₁ : (jsmnStreamCat grants str s).2.depth.val = holes.length := by
    rw [ha.depth, hdepth]
  have htext₁ := ha.holds _ hholds
  refine ⟨rfl, ?_⟩
  cases holes with
  | nil =>
    have hzero : (jsmnStreamCat grants str s).2.depth = 0 := Fin.ext hdepth₁
    have hframe : (jsmnStreamClose (jsmnStreamCat grants str s).2).2.top =
        { top.frame with hasEnd := true } := by
      have hnow : (⟨(jsmnStreamCat grants str s).2.depth.val - 1, by omega⟩ : Fin 32) =
          (jsmnStreamCat grants str s).2.depth := Fin.ext (by simp only; omega)
      rw [← htop, ← ha.top]
      exact (congrArg _ hnow).trans (Function.update_self _ _ _)
    refine ⟨ha.err.trans herr, ?_, ?_, ?_, ?_, jsmnStreamCat_buffer hall str s, ?_⟩
    · show (jsmnStreamCat grants str s).2.depth.val - 1 = 0
      rw [hdepth₁]
      rfl
    · rw [hframe]
      exact htype
    · rw [hframe]
      exact hkey
    · rw [hframe]
    · rw [htext]
      exact htext₁
  | cons hole holes =>
    rw [List.length_cons] at hdepth₁
    obtain ⟨⟨hlt, hframe⟩, hrest⟩ := hin.appended ha
    have hpred : (⟨(jsmnStreamCat grants str s).2.depth.val - 1, by omega⟩ : Fin 32) =
        ⟨holes.length, hlt⟩ := Fin.ext (by simp only; omega)
    refine ⟨ha.err.trans herr, ?_, ?_, hrest.update (by omega) _, ?_⟩
    · exact congrArg Fin.val hpred
    · rw [JsmnHole.fill_frame, ← hframe]
      refine (congrArg _ hpred).trans (Function.update_of_ne (Fin.ne_of_val_ne ?_) _ _)
      simp only
      omega
    · rw [JsmnHole.fill_text, htext, ← List.append_assoc, ← List.append_assoc]
      exact htext₁

theorem jsmnStreamKey_follows (hall : ∀ n, grants n = true) {done : List (JsmnText × JsmnDoc)}
    (h : JsmnFollows (.within (.object done) holes) s) (key : JsmnText) :
    (jsmnStreamKey grants key s).1 = true ∧
      JsmnFollows (.within (.keyed done key) holes) (jsmnStreamKey grants key s).2 := by
  obtain ⟨herr, hdepth, htop, hin, hholds⟩ := h
  set s₁ := s.setTop { s.top with hasKey := true } with hs₁
  have hframe₁ : s₁.top = ⟨.object, true, false, done.length % jsmnCountSize⟩ := by
    rw [hs₁, JsmnStream.setTop_top, htop]
    rfl
  have hcount : s₁.top.count = done.length % jsmnCountSize := by
    rw [hframe₁]
  obtain ⟨hok, ha⟩ := jsmnStreamComma_appends hall hcount
  obtain ⟨hok', ha'⟩ : Appends (jsmnKeyText key) (jsmnStreamCount (jsmnStreamComma grants s₁).2)
      (JsmnStream.andThen
        (jsmnStreamCat grants .quote (jsmnStreamCount (jsmnStreamComma grants s₁).2))
        fun self => JsmnStream.andThen (jsmnStreamCat grants key self)
          fun self => JsmnStream.andThen (jsmnStreamCat grants .quote self)
            (jsmnStreamCat grants .colon)) :=
    (jsmnStreamCat_appends hall .quote _).andThen fun s₂ _ =>
      (jsmnStreamCat_appends hall key s₂).andThen fun s₃ _ =>
        (jsmnStreamCat_appends hall .quote s₃).andThen fun s₄ _ =>
          jsmnStreamCat_appends hall .colon s₄
  have hrun : jsmnStreamKey grants key s =
      JsmnStream.andThen
        (jsmnStreamCat grants .quote (jsmnStreamCount (jsmnStreamComma grants s₁).2))
        fun self => JsmnStream.andThen (jsmnStreamCat grants key self)
          fun self => JsmnStream.andThen (jsmnStreamCat grants .quote self)
            (jsmnStreamCat grants .colon) := by
    have hguard : s.top.type = .object ∧ ¬ s.top.hasKey ∧ ¬ s.top.hasEnd := by
      rw [htop]
      exact ⟨rfl, by simp [JsmnOpen.frame], by simp [JsmnOpen.frame]⟩
    unfold jsmnStreamKey
    dsimp only
    rw [if_pos hguard]
    exact if_pos hok
  rw [hrun]
  have hdepth₁ : (jsmnStreamComma grants s₁).2.depth.val = holes.length := by
    rw [ha.depth]
    exact hdepth
  refine ⟨hok', (ha'.err.trans ha.err).trans herr, ?_, ?_, ?_, ?_⟩
  · rw [ha'.depth]
    exact hdepth₁
  · rw [ha'.top, jsmnStreamCount, JsmnStream.setTop_top, ha.top, hframe₁]
    simp [JsmnOpen.frame]
  · refine HolesIn.appended (HolesIn.update ?_ hdepth₁.ge _) ha'
    exact (hin.update hdepth.ge _).appended ha
  · have := ha'.holds _ (JsmnStream.Holds.setTop (ha.holds _ (hholds.setTop _)) _)
    simpa [JsmnOpen.text, JsmnHole.text] using this

/-- One call: the stream goes where the machine goes, or both refuse. -/
theorem jsmnStreamCall_follows (hall : ∀ n, grants n = true) (h : JsmnFollows p s)
    (call : JsmnCall) :
    (∀ p', p.step call = some p' → (jsmnStreamCall grants call s).1 = true ∧
      JsmnFollows p' (jsmnStreamCall grants call s).2) ∧
    (p.step call = none → (jsmnStreamCall grants call s).1 = false) := by
  cases call with
  | scalar c =>
    have hcall : jsmnStreamCall grants (.scalar c) s = jsmnStreamVal grants c.type c.str s := by
      cases c <;> rfl
    rw [hcall]
    refine ⟨fun p' hs => ?_, fun hs => ?_⟩
    · obtain ⟨holes, hp, rfl⟩ := Option.map_eq_some_iff.mp hs
      exact jsmnStreamVal_scalar hall h hp c
    · exact jsmnStreamVal_refuses h (Option.map_eq_none_iff.mp hs) _ _
  | beginObject =>
    cases hp : p.holes? with
    | none => exact ⟨fun p' hs => by simp [JsmnPending.step, hp] at hs,
        fun _ => jsmnStreamVal_refuses h hp _ _⟩
    | some holes =>
      simp only [JsmnPending.step, hp, Option.bind_some]
      exact jsmnStreamVal_open hall h hp (.inl rfl) rfl rfl
  | beginArray =>
    cases hp : p.holes? with
    | none => exact ⟨fun p' hs => by simp [JsmnPending.step, hp] at hs,
        fun _ => jsmnStreamVal_refuses h hp _ _⟩
    | some holes =>
      simp only [JsmnPending.step, hp, Option.bind_some]
      exact jsmnStreamVal_open hall h hp (.inr rfl) rfl rfl
  | end_ =>
    show (∀ p', p.step .end_ = some p' → (jsmnStreamEnd grants s).1 = true ∧
      JsmnFollows p' (jsmnStreamEnd grants s).2) ∧
        (p.step .end_ = none → (jsmnStreamEnd grants s).1 = false)
    cases p with
    | start => exact ⟨fun p' hs => absurd hs (by simp [JsmnPending.step]),
        fun _ => by simp [jsmnStreamEnd, h.2.2.1]⟩
    | whole doc => exact ⟨fun p' hs => absurd hs (by simp [JsmnPending.step]),
        fun _ => by simp [jsmnStreamEnd, h.2.2.2.2.1]⟩
    | within top holes =>
      have htop := h.2.2.1
      cases top with
      | object done =>
        have hend : jsmnStreamEnd grants s =
            JsmnStream.andThen (jsmnStreamCat grants .closeBrace s) jsmnStreamClose := by
          simp [jsmnStreamEnd, htop, JsmnOpen.frame]
        refine ⟨fun p' hs => ?_, fun hs => absurd hs (by simp [JsmnPending.step])⟩
        obtain rfl := Option.some.inj hs
        rw [hend]
        exact jsmnStreamClose_follows hall h .closeBrace (by rw [JsmnDoc.textWith]; rfl)
          (by simp [JsmnOpen.frame]) rfl
      | keyed done key => exact ⟨fun p' hs => absurd hs (by simp [JsmnPending.step]),
          fun _ => by simp [jsmnStreamEnd, htop, JsmnOpen.frame]⟩
      | array done =>
        have hend : jsmnStreamEnd grants s =
            JsmnStream.andThen (jsmnStreamCat grants .closeBracket s) jsmnStreamClose := by
          simp [jsmnStreamEnd, htop, JsmnOpen.frame]
        refine ⟨fun p' hs => ?_, fun hs => absurd hs (by simp [JsmnPending.step])⟩
        obtain rfl := Option.some.inj hs
        rw [hend]
        exact jsmnStreamClose_follows hall h .closeBracket (by rw [JsmnDoc.textWith]; rfl)
          (by simp [JsmnOpen.frame]) rfl
  | key key =>
    show (∀ p', p.step (.key key) = some p' → (jsmnStreamKey grants key s).1 = true ∧
      JsmnFollows p' (jsmnStreamKey grants key s).2) ∧
      (p.step (.key key) = none → (jsmnStreamKey grants key s).1 = false)
    cases p with
    | start => exact ⟨fun p' hs => absurd hs (by simp [JsmnPending.step]),
        fun _ => by simp [jsmnStreamKey, h.2.2.1]⟩
    | whole doc => exact ⟨fun p' hs => absurd hs (by simp [JsmnPending.step]),
        fun _ => by simp [jsmnStreamKey, h.2.2.2.2.1]⟩
    | within top holes =>
      have htop := h.2.2.1
      cases top with
      | object done =>
        refine ⟨fun p' hs => ?_, fun hs => absurd hs (by simp [JsmnPending.step])⟩
        obtain rfl := Option.some.inj hs
        exact jsmnStreamKey_follows hall h key
      | keyed done _ => exact ⟨fun p' hs => absurd hs (by simp [JsmnPending.step]),
          fun _ => by simp [jsmnStreamKey, htop, JsmnOpen.frame]⟩
      | array done => exact ⟨fun p' hs => absurd hs (by simp [JsmnPending.step]),
          fun _ => by simp [jsmnStreamKey, htop, JsmnOpen.frame]⟩

theorem jsmnStreamRun_follows (hall : ∀ n, grants n = true) (h : JsmnFollows p s)
    (calls : List JsmnCall) : match JsmnPending.run calls p with
      | some p' => JsmnFollows p' (jsmnStreamRun grants (calls.map some) s)
      | none => (jsmnStreamRun grants (calls.map some) s).err = true := by
  induction calls generalizing p s with
  | nil => exact h
  | cons call calls ih =>
    obtain ⟨hsome, hnone⟩ := jsmnStreamCall_follows hall h call
    rw [JsmnPending.run]
    cases hs : p.step call with
    | none => exact jsmnStreamRun_err ((jsmnStreamCall_sticky call s).2 (hnone hs)) _
    | some p' => exact ih (hsome p' hs).2

theorem jsmnStreamNew_holds : jsmnStreamNew.Holds [] := ⟨rfl, .inr ⟨rfl, rfl⟩⟩

theorem jsmnStreamNew_follows : JsmnFollows .start jsmnStreamNew :=
  ⟨rfl, rfl, rfl, jsmnStreamNew_holds⟩

theorem jsmnStreamBuffer_whole {doc : JsmnDoc} (h : JsmnFollows (.whole doc) s) :
    (jsmnStreamBuffer s).1 = some (doc.textWith jsmnCountSep ++ [0]) ∧
      (jsmnStreamBuffer s).2.1 = (doc.textWith jsmnCountSep).length + 1 := by
  obtain ⟨herr, hdepth, htype, hkey, hend, hbuffer, hlen, hholds⟩ := h
  rcases hholds with hbytes | ⟨hnone, -⟩
  · obtain ⟨a, ha, hbytes⟩ := Option.map_eq_some_iff.mp hbytes
    have hzero : s.depth = 0 := Fin.ext hdepth
    simp [jsmnStreamBuffer, herr, hzero, htype, hkey, hend, ha, hbytes, hlen]
  · exact absurd hnone hbuffer

theorem jsmnStreamBuffer_refuses (h : JsmnFollows p s) (hp : ∀ doc, p ≠ .whole doc) :
    (jsmnStreamBuffer s).1 = none ∧ (jsmnStreamBuffer s).2.2.err = true := by
  cases p with
  | start => simp [jsmnStreamBuffer, h.2.2.1, JsmnStream.error]
  | within top holes =>
    obtain ⟨-, -, htop, -⟩ := h
    have hend : s.top.hasEnd = false := by
      rw [htop]
      cases top <;> rfl
    simp [jsmnStreamBuffer, hend, JsmnStream.error]
  | whole doc => exact absurd rfl (hp doc)

end Step

section Meets

/-- All that the stream is to do for a sequence of calls on a new stream. -/
structure JsmnStreamMeets (calls : List JsmnCall) : Prop where
  accepts :
    (jsmnStreamBuffer (jsmnStreamRun (fun _ => true) (calls.map some) jsmnStreamNew)).1 ≠ none ↔
      ∃ doc : JsmnDoc, doc.depth ≤ 32 ∧ doc.calls = calls
  emits : ∀ doc : JsmnDoc, doc.depth ≤ 32 → doc.calls = calls →
    (jsmnStreamBuffer (jsmnStreamRun (fun _ => true) (calls.map some) jsmnStreamNew)).1 =
        some (doc.text ++ [0]) ∧
      (jsmnStreamBuffer (jsmnStreamRun (fun _ => true) (calls.map some) jsmnStreamNew)).2.1 =
        doc.text.length + 1
  rejects :
    (jsmnStreamBuffer (jsmnStreamRun (fun _ => true) (calls.map some) jsmnStreamNew)).1 = none →
      ∀ grants ops, (jsmnStreamBuffer (jsmnStreamRun grants ops (jsmnStreamBuffer
        (jsmnStreamRun (fun _ => true) (calls.map some) jsmnStreamNew)).2.2)).1 = none
  fails : ∀ grants ops call,
    (jsmnStreamCall grants call (jsmnStreamRun grants ops jsmnStreamNew)).1 = false →
    ∀ later, (jsmnStreamBuffer (jsmnStreamRun grants later
      (jsmnStreamCall grants call (jsmnStreamRun grants ops jsmnStreamNew)).2)).1 = none

/-- Where the machine is after the calls, or the error that a refused call has set. -/
theorem jsmnStreamRun_new (calls : List JsmnCall) :
    (∃ p, JsmnPending.run calls .start = some p ∧
      JsmnFollows p (jsmnStreamRun (fun _ => true) (calls.map some) jsmnStreamNew)) ∨
    (JsmnPending.run calls .start = none ∧
      (jsmnStreamRun (fun _ => true) (calls.map some) jsmnStreamNew).err = true) := by
  have h := jsmnStreamRun_follows (fun _ => rfl) jsmnStreamNew_follows calls
  cases hr : JsmnPending.run calls .start with
  | none =>
    rw [hr] at h
    exact .inr ⟨rfl, h⟩
  | some p =>
    rw [hr] at h
    exact .inl ⟨p, rfl, h⟩

theorem jsmnStreamRun_doc {doc : JsmnDoc} (hd : doc.depth ≤ 32) :
    JsmnFollows (.whole doc)
      (jsmnStreamRun (fun _ => true) (doc.calls.map some) jsmnStreamNew) := by
  have hrun : JsmnPending.run doc.calls .start = some (.whole doc) :=
    doc.run_calls .start [] rfl (by simpa using hd)
  have h := jsmnStreamRun_follows (fun _ => rfl) jsmnStreamNew_follows doc.calls
  rw [hrun] at h
  exact h

theorem jsmnStreamMeets_of_narrow {calls : List JsmnCall}
    (hn : ∀ doc : JsmnDoc, doc.depth ≤ 32 → doc.calls = calls → doc.Narrow) :
    JsmnStreamMeets calls := by
  refine ⟨⟨fun hne => ?_, ?_⟩, ?_, fun hnone => ?_, ?_⟩
  · rcases jsmnStreamRun_new calls with ⟨p, hr, hf⟩ | ⟨-, herr⟩
    · by_cases hp : ∃ doc, p = .whole doc
      · obtain ⟨doc, rfl⟩ := hp
        obtain ⟨hcalls, hd⟩ := JsmnPending.run_start_whole hr
        exact ⟨doc, hd, hcalls.symm⟩
      · exact absurd (jsmnStreamBuffer_refuses hf (not_exists.mp hp)).1 hne
    · exact absurd (jsmnStreamBuffer_err herr).1 hne
  · rintro ⟨doc, hd, rfl⟩
    rw [(jsmnStreamBuffer_whole (jsmnStreamRun_doc hd)).1]
    simp
  · rintro doc hd rfl
    have h := jsmnStreamBuffer_whole (jsmnStreamRun_doc hd)
    rwa [doc.textWith_count (hn doc hd rfl)] at h
  · have herr : (jsmnStreamBuffer (jsmnStreamRun (fun _ => true) (calls.map some)
        jsmnStreamNew)).2.2.err = true := by
      rcases jsmnStreamRun_new calls with ⟨p, -, hf⟩ | ⟨-, herr⟩
      · by_cases hp : ∃ doc, p = .whole doc
        · obtain ⟨doc, rfl⟩ := hp
          rw [(jsmnStreamBuffer_whole hf).1] at hnone
          exact absurd hnone (by simp)
        · exact (jsmnStreamBuffer_refuses hf (not_exists.mp hp)).2
      · exact (jsmnStreamBuffer_err herr).2
    exact fun grants ops => jsmnStreamRun_buffer_none herr ops
  · exact fun grants ops call hfalse later =>
      jsmnStreamRun_buffer_none ((jsmnStreamCall_sticky call _).2 hfalse) later

/-- A comma that the count has dropped is missing in the text. -/
theorem JsmnStreamMeets.narrow {calls : List JsmnCall} (h : JsmnStreamMeets calls) {doc : JsmnDoc}
    (hd : doc.depth ≤ 32) (hc : doc.calls = calls) : doc.Narrow := by
  have hsize := (h.emits doc hd hc).2
  subst hc
  rw [(jsmnStreamBuffer_whole (jsmnStreamRun_doc hd)).2] at hsize
  exact doc.textWith_length.2 (by omega)

/-- The stream does what it is to do for a sequence of calls exactly when no container of the
tree that they write has more members than the count of a frame can tell. -/
theorem jsmnStream_serializes (calls : List JsmnCall) : JsmnStreamMeets calls ↔
    ∀ doc : JsmnDoc, doc.depth ≤ 32 → doc.calls = calls → doc.Narrow :=
  ⟨fun h _ => h.narrow, jsmnStreamMeets_of_narrow⟩

/-- An array of 2^32 + 1 times null: the last comma is missing. -/
theorem jsmnStream_drops_comma : ¬ ∀ calls : List JsmnCall, JsmnStreamMeets calls := by
  intro h
  have hdepth : ∀ n, jsmnElementsDepth (List.replicate n (.scalar .null)) = 0 := by
    intro n
    induction n with
    | zero => rfl
    | succ n ih => rw [List.replicate_succ, jsmnElementsDepth, ih]; rfl
  have hd : (JsmnDoc.array (List.replicate (jsmnCountSize + 1) (.scalar .null))).depth ≤ 32 := by
    rw [JsmnDoc.depth, hdepth]
    omega
  have hn := (h _).narrow hd rfl
  rw [JsmnDoc.Narrow, List.length_replicate] at hn
  omega

end Meets

end LibCC
