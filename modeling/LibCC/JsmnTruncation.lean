import LibCC.JsmnFormat
import LibCC.JsmnStreamRuns

/-! Whether a call that returns 1 has written the whole text of its value. The allocations may
fail at any time, so a call is described by what it adds when it returns 1. -/

namespace LibCC

section Adds

variable {s s' : JsmnStream} {r : Bool × JsmnStream} {grants : Nat → Bool}
  {bytes bytes' text text' : List UInt8}

theorem JsmnStream.Holds.unique (h : s.Holds text) (h' : s.Holds text') : text = text' := by
  obtain ⟨hlen, hb⟩ := h
  obtain ⟨hlen', hb'⟩ := h'
  have hsame : text.length = text'.length := by omega
  rcases hb with hb | ⟨hb, rfl⟩
  · rcases hb' with hb' | ⟨hb', rfl⟩
    · rw [hb, Option.some.injEq] at hb'
      exact List.append_cancel_right hb'
    · exact List.eq_nil_of_length_eq_zero hsame
  · exact (List.eq_nil_of_length_eq_zero hsame.symm).symm

/-- The call appends `bytes` if it returns 1, and leaves some text in the buffer anyway. -/
structure Adds (bytes : List UInt8) (s : JsmnStream) (r : Bool × JsmnStream) : Prop where
  adds : r.1 = true → ∀ text, s.Holds text → r.2.Holds (text ++ bytes)
  keeps : ∀ text, s.Holds text → ∃ text', r.2.Holds text'

theorem Adds.nothing (b : Bool) (h : ∀ text, s.Holds text → s'.Holds text) :
    Adds [] s (b, s') := by
  constructor
  · intro _ text ht
    rw [List.append_nil]
    exact h text ht
  · exact fun text ht => ⟨text, h text ht⟩

theorem Adds.refused (s : JsmnStream) : Adds bytes s (false, s.error) :=
  ⟨fun h => absurd h (by simp), fun text h => ⟨text, h⟩⟩

/-- A step that changes only frames comes first. -/
theorem Adds.of_same (s' : JsmnStream) (h : Adds bytes s' r)
    (hs : ∀ text, s.Holds text → s'.Holds text) : Adds bytes s r :=
  ⟨fun hr text ht => h.adds hr text (hs text ht), fun text ht => h.keeps text (hs text ht)⟩

theorem Adds.andThen {f : JsmnStream → Bool × JsmnStream} (h : Adds bytes s r)
    (hf : ∀ s', Adds bytes' s' (f s')) : Adds (bytes ++ bytes') s (JsmnStream.andThen r f) := by
  unfold JsmnStream.andThen
  by_cases hr : r.1
  · rw [if_pos hr]
    constructor
    · intro hok text ht
      rw [← List.append_assoc]
      exact (hf r.2).adds hok _ (h.adds hr text ht)
    · exact fun text ht => (hf r.2).keeps _ (h.adds hr text ht)
  · rw [if_neg hr]
    exact ⟨fun hok => absurd hok hr, h.keeps⟩

theorem jsmnStreamCopy_adds (str : JsmnText) {a : JsmnBuffer} (hb : s'.buffer = some a)
    (hs : ∀ text, s.Holds text → s'.len = text.length ∧ a.bytes.take text.length = text) :
    Adds str.bytes s (jsmnStreamCopy str s') := by
  have hholds : ∀ text, s.Holds text → (jsmnStreamCopy str s').2.Holds (text ++ str.bytes) := by
    intro text ht
    obtain ⟨hlen, htake⟩ := hs text ht
    refine ⟨?_, .inl ?_⟩
    · show s'.len + str.bytes.length = (text ++ str.bytes).length
      rw [hlen, List.length_append]
    · simp [jsmnStreamCopy, hb, hlen, htake]
  exact ⟨fun _ => hholds, fun text ht => ⟨_, hholds text ht⟩⟩

theorem jsmnStreamCat_adds (str : JsmnText) (s : JsmnStream) :
    Adds str.bytes s (jsmnStreamCat grants str s) := by
  unfold jsmnStreamCat
  dsimp only
  by_cases hsize : s.buffer.elim 0 JsmnBuffer.size < s.len + str.bytes.length + 1
  · rw [if_pos hsize]
    by_cases hg : grants s.requests
    · rw [if_pos hg]
      refine jsmnStreamCopy_adds str rfl fun text ht => ⟨ht.1, ?_⟩
      rcases ht.2 with hb | ⟨-, rfl⟩
      · obtain ⟨a, ha, hbytes⟩ := Option.map_eq_some_iff.mp hb
        simp [ha, hbytes]
      · rfl
    · rw [if_neg hg]
      exact (Adds.refused _).of_same _ fun _ h => h
  · rw [if_neg hsize]
    cases hb : s.buffer with
    | none =>
      rw [hb] at hsize
      simp at hsize
    | some a =>
      refine jsmnStreamCopy_adds str hb fun text ht => ⟨ht.1, ?_⟩
      rcases ht.2 with hbytes | ⟨hnone, -⟩
      · rw [hb] at hbytes
        simp [Option.some.inj hbytes]
      · rw [hb] at hnone
        exact absurd hnone (by simp)

/-- What a value of the type is written as. -/
def jsmnValueBytes (type : JsmnType) (bytes : List UInt8) : List UInt8 :=
  if type = .leaf .string then 34 :: (bytes ++ [34]) else bytes

theorem jsmnStreamAppend_adds (type : JsmnType) (str : JsmnText) (s : JsmnStream) :
    Adds (jsmnValueBytes type str.bytes) s (jsmnStreamAppend grants type str s) := by
  unfold jsmnStreamAppend jsmnValueBytes
  split_ifs
  · exact (jsmnStreamCat_adds .quote s).andThen fun s₁ =>
      (jsmnStreamCat_adds str s₁).andThen fun s₂ => jsmnStreamCat_adds .quote s₂
  · exact jsmnStreamCat_adds str s

theorem jsmnStreamNest_adds (type : JsmnType) (str : JsmnText) (s : JsmnStream) :
    Adds (jsmnValueBytes type str.bytes) s (jsmnStreamNest grants type str s) := by
  unfold jsmnStreamNest
  split_ifs
  · exact (jsmnStreamAppend_adds type str _).of_same _ fun _ h => h
  · exact Adds.refused s
  · exact jsmnStreamAppend_adds type str s

/-- Nothing, or the comma before a member or an element. -/
def IsSep (sep : List UInt8) : Prop := sep = [] ∨ sep = [44]

theorem jsmnStreamComma_adds (grants : Nat → Bool) (s : JsmnStream) :
    ∃ sep, IsSep sep ∧ Adds sep s (jsmnStreamComma grants s) := by
  unfold jsmnStreamComma
  split_ifs
  · exact ⟨[44], .inr rfl, jsmnStreamCat_adds .comma s⟩
  · exact ⟨[], .inl rfl, Adds.nothing true fun _ h => h⟩

theorem jsmnStreamVal_adds (grants : Nat → Bool) (type : JsmnType) (str : JsmnText)
    (s : JsmnStream) :
    ∃ sep, IsSep sep ∧
      Adds (sep ++ jsmnValueBytes type str.bytes) s (jsmnStreamVal grants type str s) := by
  unfold jsmnStreamVal
  dsimp only
  split_ifs
  · exact ⟨[], .inl rfl, (jsmnStreamAppend_adds type str _).of_same _ fun _ h => h⟩
  · exact ⟨[], .inl rfl, (jsmnStreamNest_adds type str _).of_same _ fun _ h => h⟩
  · obtain ⟨sep, hsep, hadds⟩ := jsmnStreamComma_adds grants s
    exact ⟨sep, hsep, hadds.andThen fun s₁ =>
      (jsmnStreamNest_adds type str _).of_same _ fun _ h => h⟩
  · exact ⟨[], .inl rfl, Adds.refused s⟩

theorem jsmnStreamKey_adds (grants : Nat → Bool) (str : JsmnText) (s : JsmnStream) :
    ∃ sep, IsSep sep ∧
      Adds (sep ++ 34 :: (str.bytes ++ [34, 58])) s (jsmnStreamKey grants str s) := by
  unfold jsmnStreamKey
  dsimp only
  split_ifs
  · obtain ⟨sep, hsep, hadds⟩ := jsmnStreamComma_adds grants
      (s.setTop { s.top with hasKey := true })
    refine ⟨sep, hsep, Adds.of_same (s.setTop { s.top with hasKey := true }) ?_ fun _ h => h⟩
    refine hadds.andThen fun s₁ => Adds.of_same (jsmnStreamCount s₁) ?_ fun _ h => h
    exact (jsmnStreamCat_adds .quote _).andThen fun s₂ =>
      (jsmnStreamCat_adds str s₂).andThen fun s₃ =>
        (jsmnStreamCat_adds .quote s₃).andThen fun s₄ => jsmnStreamCat_adds .colon s₄
  · exact ⟨[], .inl rfl, Adds.refused s⟩

theorem jsmnStreamEnd_adds (s : JsmnStream) : ∃ bytes, Adds bytes s (jsmnStreamEnd grants s) := by
  unfold jsmnStreamEnd
  dsimp only
  split_ifs
  · exact ⟨_, (jsmnStreamCat_adds .closeBrace s).andThen fun s₁ => Adds.nothing true fun _ h => h⟩
  · exact ⟨_, (jsmnStreamCat_adds .closeBracket s).andThen fun s₁ => Adds.nothing true fun _ h => h⟩
  · exact ⟨[], Adds.refused s⟩

theorem jsmnStreamCall_adds (grants : Nat → Bool) (call : JsmnCall) (s : JsmnStream) :
    ∃ bytes, Adds bytes s (jsmnStreamCall grants call s) := by
  have hval : ∀ type str, ∃ bytes, Adds bytes s (jsmnStreamVal grants type str s) := by
    intro type str
    obtain ⟨sep, -, hadds⟩ := jsmnStreamVal_adds grants type str s
    exact ⟨_, hadds⟩
  cases call with
  | scalar c => cases c <;> exact hval _ _
  | beginObject => exact hval _ _
  | beginArray => exact hval _ _
  | end_ => exact jsmnStreamEnd_adds s
  | key str =>
    obtain ⟨sep, -, hadds⟩ := jsmnStreamKey_adds grants str s
    exact ⟨_, hadds⟩

theorem jsmnStreamBuffer_holds (h : s.Holds text) : (jsmnStreamBuffer s).2.2.Holds text := by
  unfold jsmnStreamBuffer
  split_ifs
  · cases s.buffer <;> exact h
  · exact h

theorem jsmnStreamOp_holds (h : s.Holds text) (grants : Nat → Bool) (op : Option JsmnCall) :
    ∃ text', (jsmnStreamOp grants op s).Holds text' := by
  cases op with
  | none => exact ⟨text, jsmnStreamBuffer_holds h⟩
  | some call =>
    obtain ⟨bytes, hadds⟩ := jsmnStreamCall_adds grants call s
    exact hadds.keeps text h

theorem jsmnStreamRun_holds (h : s.Holds text) (grants : Nat → Bool)
    (ops : List (Option JsmnCall)) :
    ∃ text', (jsmnStreamRun grants ops s).Holds text' := by
  induction ops generalizing s text with
  | nil => exact ⟨text, h⟩
  | cons op ops ih =>
    obtain ⟨text', h'⟩ := jsmnStreamOp_holds h grants op
    exact ih h'

end Adds

section Complete

variable {v w : JsmnValue} {bytes bytes' text sep sep' rest : List UInt8} {grants : Nat → Bool}

theorem formatDouble_chars (val : FiniteDouble) :
    (34 : UInt8) ∉ (formatDouble val).bytes ∧ (44 : UInt8) ∉ (formatDouble val).bytes := by
  have hnat := formatNat_ge (val.millionths / 10 ^ 6)
  have hdec := formatDecimals_ge 6 (val.millionths % 10 ^ 6)
  have hdigits : ∀ b : UInt8, 48 ≤ b → b ≠ 34 ∧ b ≠ 44 := by
    intro b hb
    constructor <;> rintro rfl <;> exact absurd hb (by decide)
  have hall : ∀ b ∈ (formatDouble val).bytes, b ≠ 34 ∧ b ≠ 44 := by
    intro b hb
    simp only [formatDouble, List.append_assoc, List.mem_append, List.mem_cons] at hb
    rcases hb with hb | hb | rfl | hb
    · split_ifs at hb
      · rw [List.mem_singleton.mp hb]
        decide
      · exact absurd hb List.not_mem_nil
    · exact hdigits b (hnat b hb)
    · decide
    · exact hdigits b (hdec b hb)
  exact ⟨fun h => (hall _ h).1 rfl, fun h => (hall _ h).2 rfl⟩

namespace JsmnValue

theorem written_injective (h : v.written bytes = v.written bytes') : bytes = bytes' := by
  cases v with
  | key _ => exact List.append_cancel_right (List.cons.inj h).2
  | string _ => exact List.append_cancel_right (List.cons.inj h).2
  | double _ => exact h

theorem written_ne_comma (v : JsmnValue) (hb : bytes ⊆ v.text.bytes) :
    v.written bytes ≠ 44 :: rest := by
  intro h
  cases v with
  | key _ => exact absurd (List.cons.inj h).1 (by decide)
  | string _ => exact absurd (List.cons.inj h).1 (by decide)
  | double val =>
    have h' : bytes = 44 :: rest := h
    rw [h'] at hb
    exact (formatDouble_chars val).2 (hb List.mem_cons_self)

theorem stored_subset (v : JsmnValue) : v.text.stored.bytes ⊆ v.text.bytes :=
  List.take_subset _ _

theorem Fits.stored (h : v.Fits) : v.text.stored.bytes = v.text.bytes := by
  rw [fits_iff] at h
  exact List.take_of_length_le (by rw [jsmnStreamStringSize] at h ⊢; omega)

/-- The same bytes are a value of the same kind. -/
theorem text_eq_of_written (h : v.written v.text.bytes = w.written w.text.bytes) :
    v.text = w.text := by
  have hquote : ∀ val bytes, ((.double val : JsmnValue).written (formatDouble val).bytes) ≠
      34 :: bytes := by
    intro val bytes he
    have he' : (formatDouble val).bytes = 34 :: bytes := he
    exact (formatDouble_chars val).1 (he' ▸ List.mem_cons_self)
  have hcolon : ∀ a b : List UInt8, 34 :: (a ++ [34, 58]) ≠ 34 :: (b ++ [34]) := by
    intro a b he
    have hrev := congrArg List.reverse he
    simp at hrev
  cases v with
  | key a =>
    cases w with
    | key b => exact JsmnFormatted.ext (List.append_cancel_right (List.cons.inj h).2)
    | string b => exact absurd h (hcolon _ _)
    | double val => exact absurd h.symm (hquote val _)
  | string a =>
    cases w with
    | key b => exact absurd h.symm (hcolon _ _)
    | string b => exact JsmnFormatted.ext (List.append_cancel_right (List.cons.inj h).2)
    | double val => exact absurd h.symm (hquote val _)
  | double val =>
    cases w with
    | key b => exact absurd h (hquote val _)
    | string b => exact absurd h (hquote val _)
    | double val' => exact JsmnFormatted.ext h

end JsmnValue

theorem IsSep.cancel (h : IsSep sep) (h' : IsSep sep') (he : sep ++ bytes = sep' ++ bytes')
    (hb : ∀ rest, bytes ≠ 44 :: rest) (hb' : ∀ rest, bytes' ≠ 44 :: rest) : bytes = bytes' := by
  rcases h with rfl | rfl <;> rcases h' with rfl | rfl
  · exact he
  · exact absurd he (hb _)
  · exact absurd he.symm (hb' _)
  · exact (List.cons.inj he).2

/-- A state that is reached, in which the call has returned 1 and has appended `bytes`. -/
def JsmnValue.Writes (v : JsmnValue) (bytes : List UInt8) : Prop :=
  ∃ grants ops text, (jsmnStreamRun grants ops jsmnStreamNew).Holds text ∧
    (jsmnStreamCall grants v.call (jsmnStreamRun grants ops jsmnStreamNew)).1 = true ∧
    (jsmnStreamCall grants v.call (jsmnStreamRun grants ops jsmnStreamNew)).2.Holds (text ++ bytes)

/-- No call that returns 1 leaves out some of the text of the value. -/
structure JsmnValue.Complete (v : JsmnValue) : Prop where
  whole : ∀ grants ops,
    (jsmnStreamCall grants v.call (jsmnStreamRun grants ops jsmnStreamNew)).1 = true →
    ∃ text sep, IsSep sep ∧ (jsmnStreamRun grants ops jsmnStreamNew).Holds text ∧
      (jsmnStreamCall grants v.call (jsmnStreamRun grants ops jsmnStreamNew)).2.Holds
        (text ++ (sep ++ v.written v.text.bytes))
  numeral : ∀ val (n : ℤ), v = .double val → val.value = n →
    v.text.bytes = (if val.negative then [45] else []) ++ formatNat n.natAbs ++
      [46, 48, 48, 48, 48, 48, 48]

/-- Both values are complete, and the same bytes are never appended for different texts. -/
structure JsmnValuesKept (v w : JsmnValue) : Prop where
  left : v.Complete
  right : w.Complete
  apart : ∀ bytes, v.Writes bytes → w.Writes bytes → v.text = w.text

namespace JsmnValue

theorem call_adds (v : JsmnValue) (grants : Nat → Bool) (s : JsmnStream) : ∃ sep, IsSep sep ∧
    Adds (sep ++ v.written v.text.stored.bytes) s (jsmnStreamCall grants v.call s) := by
  cases v with
  | key text => exact jsmnStreamKey_adds grants text.stored s
  | string text => exact jsmnStreamVal_adds grants (.leaf .string) text.stored s
  | double val => exact jsmnStreamVal_adds grants (.leaf .primitive) (formatDouble val).stored s

theorem Writes.stored (h : v.Writes bytes) :
    ∃ sep, IsSep sep ∧ bytes = sep ++ v.written v.text.stored.bytes := by
  obtain ⟨grants, ops, text, hs, hok, hr⟩ := h
  obtain ⟨sep, hsep, hadds⟩ := v.call_adds grants (jsmnStreamRun grants ops jsmnStreamNew)
  exact ⟨sep, hsep, List.append_cancel_left (hr.unique (hadds.adds hok text hs))⟩

theorem exists_writes (v : JsmnValue) : ∃ ops,
    (jsmnStreamCall (fun _ => true) v.call
      (jsmnStreamRun (fun _ => true) ops jsmnStreamNew)).1 = true := by
  have hcall : ∀ calls p p', JsmnPending.run calls .start = some p → p.step v.call = some p' →
      (jsmnStreamCall (fun _ => true) v.call
        (jsmnStreamRun (fun _ => true) (calls.map some) jsmnStreamNew)).1 = true := by
    intro calls p p' hr hs
    have hf := jsmnStreamRun_follows (fun _ => rfl) jsmnStreamNew_follows calls
    rw [hr] at hf
    exact ((jsmnStreamCall_follows (fun _ => rfl) hf v.call).1 p' hs).1
  cases v with
  | key text => exact ⟨_, hcall [.beginObject] _ _ rfl rfl⟩
  | string text => exact ⟨_, hcall [] _ _ rfl rfl⟩
  | double val => exact ⟨_, hcall [] _ _ rfl rfl⟩

theorem complete_of_fits (h : v.Fits) : v.Complete := by
  constructor
  · intro grants ops hok
    obtain ⟨text, hs⟩ := jsmnStreamRun_holds jsmnStreamNew_holds grants ops
    obtain ⟨sep, hsep, hadds⟩ := v.call_adds grants (jsmnStreamRun grants ops jsmnStreamNew)
    rw [h.stored] at hadds
    exact ⟨text, sep, hsep, hs, hadds.adds hok text hs⟩
  · intro val n hv hn
    subst hv
    exact formatDouble_integer hn

theorem Complete.fits (h : v.Complete) : v.Fits := by
  obtain ⟨ops, hok⟩ := v.exists_writes
  obtain ⟨text, sep, hsep, hs, hr⟩ := h.whole _ ops hok
  obtain ⟨sep', hsep', he⟩ := Writes.stored ⟨_, ops, text, hs, hok, hr⟩
  have hsame := hsep.cancel hsep' he (fun _ => v.written_ne_comma (List.Subset.refl _))
    (fun _ => v.written_ne_comma v.stored_subset)
  rw [fits_iff, written_injective hsame]
  exact v.text.stored.fits

end JsmnValue

/-- The stream keeps a value exactly when its text fits in the array: a text of less than 256
bytes, or a double that is below 10^248, and above -10^247 when it is negative. -/
theorem jsmnStream_keeps_values (v w : JsmnValue) : JsmnValuesKept v w ↔ v.Fits ∧ w.Fits := by
  constructor
  · exact fun h => ⟨h.left.fits, h.right.fits⟩
  · intro h
    refine ⟨JsmnValue.complete_of_fits h.1, JsmnValue.complete_of_fits h.2, ?_⟩
    intro bytes hv hw
    obtain ⟨sep, hsep, rfl⟩ := hv.stored
    obtain ⟨sep', hsep', he⟩ := hw.stored
    apply JsmnValue.text_eq_of_written
    rw [← h.1.stored, ← h.2.stored]
    exact hsep.cancel hsep' he (fun _ => v.written_ne_comma v.stored_subset)
      (fun _ => w.written_ne_comma w.stored_subset)

/-- 256 times the letter a. -/
def longText : JsmnFormatted where
  bytes := List.replicate 256 97
  nulFree := fun h => absurd (List.eq_of_mem_replicate h) (by decide)

theorem longText_not_fits : ¬ longText.bytes.length < jsmnStreamStringSize := by
  rw [show longText.bytes.length = 256 from List.length_replicate]
  exact lt_irrefl _

/-- Texts of 256 characters, and the double 2^992, whose numeral has 299 digits. -/
theorem jsmnStream_truncates :
    ¬ (JsmnValue.string longText).Complete ∧ ¬ (JsmnValue.key longText).Complete ∧
    ¬ (JsmnValue.double ⟨false, 2 ^ 52, 940, by omega, by omega, by omega⟩).Complete := by
  refine ⟨fun h => ?_, fun h => ?_, fun h => ?_⟩
  · exact longText_not_fits h.fits
  · exact longText_not_fits h.fits
  · have hlt : ((2 ^ 52 : Nat) : ℚ) * 2 ^ (940 : ℤ) < 10 ^ 248 := h.fits
    have h52 : ((2 ^ 52 : Nat) : ℚ) = 16 ^ 13 := by norm_num
    have h940 : (2 : ℚ) ^ (940 : ℤ) = 16 ^ 235 := by
      rw [show (940 : ℤ) = ((4 * 235 : Nat) : ℤ) from rfl, zpow_natCast, pow_mul]
      norm_num
    have hle : (10 : ℚ) ^ 248 ≤ 16 ^ 248 := pow_le_pow_left₀ (by norm_num) (by norm_num) 248
    rw [h52, h940, ← pow_add] at hlt
    exact absurd hlt (not_lt.mpr hle)

end Complete

end LibCC
