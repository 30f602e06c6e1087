import LibCC.JsmnStreamRuns
import LibCC.JsonDecode

/-! What the stream writes reads back, where no text holds a byte that JSON
wants escaped: the stream writes every text as it is. -/

namespace LibCC

open JsonText

section Digits

/-- What may follow a value inside of a container, or the end of the text. -/
def Stops (rest : List UInt8) : Prop := ∀ c, rest.head? = some c → c = 44 ∨ c = 93 ∨ c = 125

theorem stops_cons {c : UInt8} {rest : List UInt8} (hc : c = 44 ∨ c = 93 ∨ c = 125) :
    Stops (c :: rest) := by
  intro d hd
  obtain rfl := Option.some.inj hd
  exact hc

theorem Stops.not_digit {rest : List UInt8} (h : Stops rest) :
    rest.takeWhile (fun c => IsDigit c) = [] ∧ rest.dropWhile (fun c => IsDigit c) = rest := by
  cases rest with
  | nil => exact ⟨rfl, rfl⟩
  | cons c rest =>
    have hd : ¬ IsDigit c := by
      rcases h c rfl with rfl | rfl | rfl <;> decide
    exact ⟨List.takeWhile_cons_of_neg (by simpa using hd),
      List.dropWhile_cons_of_neg (by simpa using hd)⟩

theorem digits_append {ds rest : List UInt8} (hd : Digits ds) (hr : Stops rest) :
    digits (ds ++ rest) = some (ds, rest) := by
  obtain ⟨htake, hdrop⟩ := hr.not_digit
  have hall : ∀ c ∈ ds, decide (IsDigit c) = true := fun c hc => by simpa using hd.2 c hc
  unfold digits
  rw [List.takeWhile_append_of_pos hall, List.dropWhile_append_of_pos hall, htake, hdrop,
    List.append_nil]
  exact if_neg hd.1

theorem digitByte_toNat {d : Nat} (hd : d < 10) : (UInt8.ofNat (48 + d)).toNat = 48 + d := by
  interval_cases d <;> rfl

theorem formatNat_digits (n : Nat) : Digits (formatNat n) := by
  unfold formatNat
  split_ifs with h
  · exact ⟨by simp, fun c hc => by obtain rfl := List.mem_singleton.mp hc; decide⟩
  · refine ⟨?_, fun c hc => ?_⟩
    · simpa using Nat.digits_ne_nil_iff_ne_zero.mpr h
    · obtain ⟨d, hd, rfl⟩ := List.mem_map.mp hc
      have hlt : d < 10 := Nat.digits_lt_base (by omega) (List.mem_reverse.mp hd)
      interval_cases d <;> decide

theorem digitsValue_append (ds : List UInt8) (c : UInt8) :
    digitsValue (ds ++ [c]) = 10 * digitsValue ds + (c.toNat - 48) := by
  simp [digitsValue]

/-- The digits come with the last one first. -/
theorem digitsValue_reverse {ds : List Nat} (hd : ∀ d ∈ ds, d < 10) :
    digitsValue (ds.reverse.map fun d => UInt8.ofNat (48 + d)) = Nat.ofDigits 10 ds := by
  induction ds with
  | nil => rfl
  | cons d ds ih =>
    rw [List.reverse_cons, List.map_append, List.map_singleton, digitsValue_append,
      digitByte_toNat (hd d (by simp)), ih fun d' hd' => hd d' (by simp [hd']), Nat.ofDigits_cons]
    omega

theorem digitsValue_formatNat (n : Nat) : digitsValue (formatNat n) = n := by
  unfold formatNat
  split_ifs with h
  · rw [h]
    rfl
  · rw [digitsValue_reverse fun d hd => Nat.digits_lt_base (by omega) hd, Nat.ofDigits_digits]

theorem formatNat_head {n : Nat} (h : n ≠ 0) (rest : List UInt8) :
    ∀ t, formatNat n ++ rest ≠ 48 :: t := by
  intro t he
  have hne := Nat.digits_ne_nil_iff_ne_zero (b := 10) |>.mpr h
  have hlast := Nat.getLast_digit_ne_zero 10 h
  obtain ⟨d, ds, hds⟩ := List.exists_cons_of_ne_nil (List.reverse_ne_nil_iff.mpr hne)
  have hd : d = (Nat.digits 10 n).getLast hne := by
    have := List.head_reverse (l := Nat.digits 10 n) (by simpa using hne)
    simpa [hds] using this
  have hlt : d < 10 := Nat.digits_lt_base (by omega) (m := n) (by
    rw [← List.mem_reverse, hds]
    simp)
  unfold formatNat at he
  rw [if_neg h, hds] at he
  have hc := List.head_eq_of_cons_eq he
  have hpos : d ≠ 0 := hd ▸ hlast
  have := congrArg UInt8.toNat hc
  rw [digitByte_toNat hlt] at this
  have h48 : (48 : UInt8).toNat = 48 := rfl
  omega

theorem intPart_formatNat (n : Nat) {rest : List UInt8} (hr : Stops rest) :
    intPart (formatNat n ++ rest) = some (formatNat n, rest) := by
  by_cases h : n = 0
  · rw [h]
    rfl
  · have hd := digits_append (formatNat_digits n) hr
    unfold intPart
    split
    · next t ht => exact absurd ht (formatNat_head h rest t)
    · exact hd

theorem fracPart_stops {rest : List UInt8} (hr : Stops rest) : fracPart rest = some ([], rest) := by
  unfold fracPart
  split
  · exact absurd (hr 46 rfl) (by decide)
  · rfl

theorem expPart_stops {rest : List UInt8} (hr : Stops rest) : expPart rest = some (0, rest) := by
  cases rest with
  | nil => rfl
  | cons c rest =>
    unfold expPart
    have hc : ¬ (c = 101 ∨ c = 69) := by
      rcases hr c rfl with rfl | rfl | rfl <;> decide
    exact if_neg hc

theorem formatNat_cons (n : Nat) : ∃ c t, formatNat n = c :: t ∧ IsDigit c := by
  obtain ⟨hne, hall⟩ := formatNat_digits n
  obtain ⟨c, t, ht⟩ := List.exists_cons_of_ne_nil hne
  exact ⟨c, t, ht, hall c (by simp [ht])⟩

theorem minus_formatNat (n : Nat) (rest : List UInt8) :
    minus (formatNat n ++ rest) = (false, formatNat n ++ rest) := by
  obtain ⟨c, t, ht, hc⟩ := formatNat_cons n
  rw [ht]
  unfold minus
  split
  · next he =>
    obtain rfl := List.head_eq_of_cons_eq he
    exact absurd hc (by decide)
  · rfl

theorem number_formatInt (i : Int) {rest : List UInt8} (hr : Stops rest) :
    number (formatInt i ++ rest) = some ((i : ℚ), rest) := by
  have hint := intPart_formatNat i.natAbs hr
  unfold formatInt number
  split_ifs with hi
  · have habs : ((i.natAbs : ℕ) : ℚ) = -(i : ℚ) := by
      rw [← Int.cast_natCast, ← Int.cast_neg, show (i.natAbs : Int) = -i by omega]
    rw [List.cons_append, minus]
    dsimp only
    rw [hint]
    simp [fracPart_stops hr, expPart_stops hr, digitsValue_formatNat, habs]
  · have habs : ((i.natAbs : ℕ) : ℚ) = (i : ℚ) := by
      rw [← Int.cast_natCast, show (i.natAbs : Int) = i by omega]
    rw [minus_formatNat]
    dsimp only
    rw [hint]
    simp [fracPart_stops hr, expPart_stops hr, digitsValue_formatNat, habs]

end Digits

section Strings

def JsmnText.Plain (t : JsmnText) : Prop := ∀ c ∈ t.bytes, Unescaped c

theorem chars_plain {bytes : List UInt8} (h : ∀ c ∈ bytes, Unescaped c) (rest : List UInt8) :
    chars (bytes ++ 34 :: rest) = some (bytes.map .byte, rest) := by
  induction bytes with
  | nil =>
    unfold chars
    exact if_pos rfl
  | cons c bytes ih =>
    obtain ⟨hlow, h34, h92⟩ := h c (by simp)
    unfold chars
    rw [List.cons_append]
    dsimp only
    rw [if_neg h34, if_neg h92, if_neg (UInt8.not_lt.mpr hlow), ih fun d hd => h d (by simp [hd])]
    rfl

theorem strBytes_bytes (bytes : List UInt8) : strBytes (bytes.map .byte) = bytes := by
  induction bytes with
  | nil => rfl
  | cons c bytes ih =>
    rw [List.map_cons, strBytes, ih]

end Strings

section Trees

/-- The value that a call writes; a float and a double come as a text only. -/
def JsmnScalar.value? : JsmnScalar → Option Value
  | .string text => some (.string text.bytes)
  | .true_ => some (.bool true)
  | .false_ => some (.bool false)
  | .null => some .null
  | .int val => some (.number val.toInt)
  | .float _ => none
  | .double _ => none

mutual

/-- The tree as a JSON value, where it has neither a float nor a double. -/
def JsmnDoc.value? : JsmnDoc → Option Value
  | .scalar s => s.value?
  | .object members => (jsmnMembersValue? members).map .object
  | .array elements => (jsmnElementsValue? elements).map .array

def jsmnMembersValue? : List (JsmnText × JsmnDoc) → Option (List (List UInt8 × Value))
  | [] => some []
  | (key, doc) :: members => do
    let v ← doc.value?
    let vs ← jsmnMembersValue? members
    some ((key.bytes, v) :: vs)

def jsmnElementsValue? : List JsmnDoc → Option (List Value)
  | [] => some []
  | doc :: elements => do
    let v ← doc.value?
    let vs ← jsmnElementsValue? elements
    some (v :: vs)

end

mutual

/-- No key and no string holds a quote, a backslash or a control byte. -/
def JsmnDoc.Plain : JsmnDoc → Prop
  | .scalar s => ∀ text, s = .string text → text.Plain
  | .object members => jsmnMembersPlain members
  | .array elements => jsmnElementsPlain elements

def jsmnMembersPlain : List (JsmnText × JsmnDoc) → Prop
  | [] => True
  | (key, doc) :: members => key.Plain ∧ doc.Plain ∧ jsmnMembersPlain members

def jsmnElementsPlain : List JsmnDoc → Prop
  | [] => True
  | doc :: elements => doc.Plain ∧ jsmnElementsPlain elements

end

/-- A byte that a value may start with. -/
def Starts (c : UInt8) : Prop := ¬ IsWs c ∧ c ≠ 93 ∧ c ≠ 125

theorem skipWs_cons {c : UInt8} (hc : ¬ IsWs c) (t : List UInt8) : skipWs (c :: t) = c :: t :=
  List.dropWhile_cons_of_neg (by simpa using hc)

theorem starts_of_digit {c : UInt8} (h : IsDigit c) : Starts c := by
  obtain ⟨hlo, hhi⟩ := h
  refine ⟨?_, ?_, ?_⟩
  · rintro (rfl | rfl | rfl | rfl) <;> exact absurd hlo (by decide)
  · rintro rfl
    exact absurd hhi (by decide)
  · rintro rfl
    exact absurd hhi (by decide)

theorem formatInt_starts (i : Int) : ∃ c t, formatInt i = c :: t ∧ (c = 45 ∨ IsDigit c) := by
  obtain ⟨c, t, ht, hc⟩ := formatNat_cons i.natAbs
  unfold formatInt
  split_ifs
  · exact ⟨45, _, rfl, .inl rfl⟩
  · exact ⟨c, t, ht, .inr hc⟩

theorem JsmnDoc.text_starts {doc : JsmnDoc} {v : Value} (h : doc.value? = some v) :
    ∃ c t, doc.text = c :: t ∧ Starts c := by
  unfold JsmnDoc.text
  cases doc with
  | object members =>
    rw [JsmnDoc.textWith]
    exact ⟨123, _, rfl, by decide, by decide, by decide⟩
  | array elements =>
    rw [JsmnDoc.textWith]
    exact ⟨91, _, rfl, by decide, by decide, by decide⟩
  | scalar s =>
    rw [JsmnDoc.textWith]
    rw [JsmnDoc.value?] at h
    cases s with
    | string text => exact ⟨34, _, rfl, by decide, by decide, by decide⟩
    | true_ => exact ⟨116, _, rfl, by decide, by decide, by decide⟩
    | false_ => exact ⟨102, _, rfl, by decide, by decide, by decide⟩
    | null => exact ⟨110, _, rfl, by decide, by decide, by decide⟩
    | int val =>
      obtain ⟨c, t, ht, hc⟩ := formatInt_starts val.toInt
      refine ⟨c, t, ht, ?_⟩
      rcases hc with rfl | hc
      · exact ⟨by decide, by decide, by decide⟩
      · exact starts_of_digit hc
    | float text => exact absurd h (by simp [JsmnScalar.value?])
    | double text => exact absurd h (by simp [JsmnScalar.value?])

/-- Before whatever may follow, the decoder reads the text of the tree as its value. -/
def ReadsBack (doc : JsmnDoc) : Prop :=
  ∀ (v : Value) (fuel : Nat) (rest : List UInt8), doc.value? = some v → doc.Plain →
    2 * doc.text.length ≤ fuel → Stops rest → value fuel (doc.text ++ rest) = some (v, rest)

theorem value_number {input : List UInt8} {c : UInt8} {t : List UInt8} (fuel : Nat)
    (hi : input = c :: t) (hc : c = 45 ∨ IsDigit c) :
    value (fuel + 1) input = (number input).bind fun r => some (.number r.1, r.2) := by
  have hne : ∀ b, ¬ (b = 45 ∨ IsDigit b) → c ≠ b := fun b hb he => hb (he ▸ hc)
  unfold value
  split
  · exact absurd (List.head_eq_of_cons_eq hi).symm (hne 110 (by decide))
  · exact absurd (List.head_eq_of_cons_eq hi).symm (hne 116 (by decide))
  · exact absurd (List.head_eq_of_cons_eq hi).symm (hne 102 (by decide))
  · exact absurd (List.head_eq_of_cons_eq hi).symm (hne 34 (by decide))
  · exact absurd (List.head_eq_of_cons_eq hi).symm (hne 91 (by decide))
  · exact absurd (List.head_eq_of_cons_eq hi).symm (hne 123 (by decide))
  · rfl

theorem readsBack_scalar (s : JsmnScalar) : ReadsBack (.scalar s) := by
  intro v fuel rest hv hp hfuel hr
  rw [JsmnDoc.value?] at hv
  rw [JsmnDoc.Plain] at hp
  have htext : (JsmnDoc.scalar s).text = s.text := by
    rw [JsmnDoc.text, JsmnDoc.textWith]
  obtain ⟨c, t, hcons, -⟩ := (JsmnDoc.scalar s).text_starts hv
  obtain ⟨fuel, rfl⟩ : ∃ f, fuel = f + 1 := by
    rw [hcons, List.length_cons] at hfuel
    exact ⟨fuel - 1, by omega⟩
  rw [htext]
  cases s with
  | string text =>
    obtain rfl := Option.some.inj hv
    have hc := chars_plain (hp text rfl) rest
    show value (fuel + 1) (34 :: (text.bytes ++ [34]) ++ rest) = _
    rw [List.cons_append, List.append_assoc, List.singleton_append, value, hc]
    show some (Value.string (strBytes _), rest) = _
    rw [strBytes_bytes]
  | true_ =>
    obtain rfl := Option.some.inj hv
    rfl
  | false_ =>
    obtain rfl := Option.some.inj hv
    rfl
  | null =>
    obtain rfl := Option.some.inj hv
    rfl
  | int val =>
    obtain rfl := Option.some.inj hv
    obtain ⟨c, t, ht, hc⟩ := formatInt_starts val.toInt
    show value (fuel + 1) (formatInt val.toInt ++ rest) = _
    have hi : formatInt val.toInt ++ rest = c :: (t ++ rest) := by
      rw [ht]
      rfl
    rw [value_number fuel hi hc, number_formatInt val.toInt hr]
    rfl
  | float text => exact absurd hv (by simp [JsmnScalar.value?])
  | double text => exact absurd hv (by simp [JsmnScalar.value?])

theorem JsmnDoc.skipWs_text {doc : JsmnDoc} {v : Value} (h : doc.value? = some v)
    (rest : List UInt8) : skipWs (doc.text ++ rest) = doc.text ++ rest := by
  obtain ⟨c, t, ht, hc⟩ := doc.text_starts h
  rw [ht]
  exact skipWs_cons hc.1 _

theorem skipWs_comma (t : List UInt8) : skipWs (44 :: t) = 44 :: t := skipWs_cons (by decide) t

theorem jsmnElementsValue_cons {doc : JsmnDoc} {docs : List JsmnDoc} {vs : List Value}
    (h : jsmnElementsValue? (doc :: docs) = some vs) : ∃ v vs', doc.value? = some v ∧
      jsmnElementsValue? docs = some vs' ∧ vs = v :: vs' := by
  rw [jsmnElementsValue?] at h
  obtain ⟨v, hv, h⟩ := Option.bind_eq_some_iff.mp h
  obtain ⟨vs', hvs, h⟩ := Option.bind_eq_some_iff.mp h
  exact ⟨v, vs', hv, hvs, (Option.some.inj h).symm⟩

theorem jsmnMembersValue_cons {key : JsmnText} {doc : JsmnDoc} {ms : List (JsmnText × JsmnDoc)}
    {vs : List (List UInt8 × Value)} (h : jsmnMembersValue? ((key, doc) :: ms) = some vs) :
    ∃ v vs', doc.value? = some v ∧ jsmnMembersValue? ms = some vs' ∧
      vs = (key.bytes, v) :: vs' := by
  rw [jsmnMembersValue?] at h
  obtain ⟨v, hv, h⟩ := Option.bind_eq_some_iff.mp h
  obtain ⟨vs', hvs, h⟩ := Option.bind_eq_some_iff.mp h
  exact ⟨v, vs', hv, hvs, (Option.some.inj h).symm⟩

theorem elements_readBack {doc : JsmnDoc} {docs : List JsmnDoc}
    (h : ∀ d ∈ doc :: docs, ReadsBack d) (i : Nat) {vs : List Value} {fuel : Nat}
    (rest : List UInt8) (hv : jsmnElementsValue? (doc :: docs) = some vs)
    (hp : jsmnElementsPlain (doc :: docs))
    (hfuel : 2 * (doc.text.length + (jsmnElementsText jsmnSep (i + 1) docs).length) + 1 ≤ fuel) :
    elements fuel (doc.text ++ (jsmnElementsText jsmnSep (i + 1) docs ++ 93 :: rest)) =
      some (vs, rest) := by
  induction docs generalizing doc i vs fuel with
  | nil =>
    obtain ⟨v, vs', hdoc, hnil, rfl⟩ := jsmnElementsValue_cons hv
    obtain rfl := Option.some.inj hnil
    rw [jsmnElementsPlain] at hp
    obtain ⟨fuel, rfl⟩ : ∃ f, fuel = f + 1 := ⟨fuel - 1, by omega⟩
    have hread := h doc (by simp) v fuel (93 :: rest) hdoc hp.1 (by omega) (stops_cons (by simp))
    rw [jsmnElementsText, List.nil_append]
    rw [← doc.skipWs_text hdoc] at hread
    exact elements_last hread (skipWs_cons (by decide) rest)
  | cons next docs ih =>
    obtain ⟨v, vs', hdoc, hvs', rfl⟩ := jsmnElementsValue_cons hv
    rw [jsmnElementsPlain] at hp
    obtain ⟨fuel, rfl⟩ : ∃ f, fuel = f + 1 := ⟨fuel - 1, by omega⟩
    have hsep : jsmnElementsText jsmnSep (i + 1) (next :: docs) =
        44 :: (next.text ++ jsmnElementsText jsmnSep (i + 1 + 1) docs) := by
      rw [jsmnElementsText]
      rfl
    rw [hsep, List.length_cons, List.length_append] at hfuel
    rw [hsep, List.cons_append, List.append_assoc]
    have hread := h doc (by simp) v fuel
      (44 :: (next.text ++ (jsmnElementsText jsmnSep (i + 1 + 1) docs ++ 93 :: rest))) hdoc hp.1
      (by omega) (stops_cons (by simp))
    rw [← doc.skipWs_text hdoc] at hread
    refine elements_next hread (skipWs_comma _) (ih (fun d hd => h d ?_) (i + 1) hvs' hp.2 ?_)
    · exact List.mem_cons_of_mem _ hd
    · omega

theorem members_readBack {key : JsmnText} {doc : JsmnDoc} {ms : List (JsmnText × JsmnDoc)}
    (h : ∀ m ∈ (key, doc) :: ms, ReadsBack m.2) (i : Nat) {vs : List (List UInt8 × Value)}
    {fuel : Nat} (rest : List UInt8) (hv : jsmnMembersValue? ((key, doc) :: ms) = some vs)
    (hp : jsmnMembersPlain ((key, doc) :: ms))
    (hfuel : 2 * (doc.text.length + (jsmnMembersText jsmnSep (i + 1) ms).length) + 1 ≤ fuel) :
    members fuel (jsmnKeyText key ++
      (doc.text ++ (jsmnMembersText jsmnSep (i + 1) ms ++ 125 :: rest))) = some (vs, rest) := by
  induction ms generalizing key doc i vs fuel with
  | nil =>
    obtain ⟨v, vs', hdoc, hnil, rfl⟩ := jsmnMembersValue_cons hv
    obtain rfl := Option.some.inj hnil
    rw [jsmnMembersPlain] at hp
    obtain ⟨fuel, rfl⟩ : ∃ f, fuel = f + 1 := ⟨fuel - 1, by omega⟩
    have hback : ReadsBack doc := h (key, doc) (by simp)
    have hread := hback v fuel (125 :: rest) hdoc hp.2.1 (by omega) (stops_cons (by simp))
    rw [jsmnMembersText, List.nil_append]
    rw [← doc.skipWs_text hdoc] at hread
    have hk := chars_plain hp.1 (58 :: (doc.text ++ 125 :: rest))
    have := members_last (skipWs_cons (by decide) _) hk (skipWs_cons (by decide) _) hread
      (skipWs_cons (by decide) rest)
    simpa [jsmnKeyText, strBytes_bytes] using this
  | cons next ms ih =>
    obtain ⟨key', doc'⟩ := next
    obtain ⟨v, vs', hdoc, hvs', rfl⟩ := jsmnMembersValue_cons hv
    rw [jsmnMembersPlain] at hp
    obtain ⟨fuel, rfl⟩ : ∃ f, fuel = f + 1 := ⟨fuel - 1, by omega⟩
    have hsep : jsmnMembersText jsmnSep (i + 1) ((key', doc') :: ms) =
        44 :: (jsmnKeyText key' ++ (doc'.text ++ jsmnMembersText jsmnSep (i + 1 + 1) ms)) := by
      rw [jsmnMembersText, List.append_assoc, List.append_assoc]
      rfl
    rw [hsep, List.length_cons, List.length_append, List.length_append] at hfuel
    rw [hsep, List.cons_append, List.append_assoc, List.append_assoc]
    have hback : ReadsBack doc := h (key, doc) (by simp)
    have hread := hback v fuel (44 :: (jsmnKeyText key' ++ (doc'.text ++
      (jsmnMembersText jsmnSep (i + 1 + 1) ms ++ 125 :: rest)))) hdoc hp.2.1 (by omega)
      (stops_cons (by simp))
    rw [← doc.skipWs_text hdoc] at hread
    have hk := chars_plain hp.1 (58 :: (doc.text ++ (44 :: (jsmnKeyText key' ++ (doc'.text ++
      (jsmnMembersText jsmnSep (i + 1 + 1) ms ++ 125 :: rest))))))
    have hrest := ih (fun m hm => h m (List.mem_cons_of_mem _ hm)) (i + 1) hvs' hp.2.2
      (show _ ≤ fuel by omega)
    have := members_next (skipWs_cons (by decide) _) hk (skipWs_cons (by decide) _) hread
      (skipWs_comma _) hrest
    simpa [jsmnKeyText, strBytes_bytes] using this

theorem readsBack_object {ms : List (JsmnText × JsmnDoc)} (h : ∀ m ∈ ms, ReadsBack m.2) :
    ReadsBack (.object ms) := by
  intro v fuel rest hv hp hfuel hr
  rw [JsmnDoc.value?] at hv
  obtain ⟨vs, hvs, rfl⟩ := Option.map_eq_some_iff.mp hv
  rw [JsmnDoc.Plain] at hp
  rw [JsmnDoc.text, JsmnDoc.textWith, List.length_cons, List.length_append] at hfuel
  rw [JsmnDoc.text, JsmnDoc.textWith]
  obtain ⟨fuel, rfl⟩ : ∃ f, fuel = f + 1 := ⟨fuel - 1, by omega⟩
  cases ms with
  | nil =>
    obtain rfl := Option.some.inj hvs
    exact value_emptyObject fuel rest
  | cons m ms =>
    obtain ⟨key, doc⟩ := m
    have htext : jsmnMembersText jsmnSep 0 ((key, doc) :: ms) =
        jsmnKeyText key ++ (doc.text ++ jsmnMembersText jsmnSep (0 + 1) ms) := by
      rw [jsmnMembersText, List.append_assoc, List.append_assoc]
      rfl
    rw [htext, List.length_append, List.length_append] at hfuel
    rw [htext, List.cons_append, List.append_assoc, List.append_assoc, List.append_assoc,
      List.singleton_append]
    have hmembers := members_readBack h 0 rest hvs hp (show _ ≤ fuel by omega)
    exact value_object (skipWs_cons (by decide) _) (by decide) hmembers

theorem readsBack_array {docs : List JsmnDoc} (h : ∀ d ∈ docs, ReadsBack d) :
    ReadsBack (.array docs) := by
  intro v fuel rest hv hp hfuel hr
  rw [JsmnDoc.value?] at hv
  obtain ⟨vs, hvs, rfl⟩ := Option.map_eq_some_iff.mp hv
  rw [JsmnDoc.Plain] at hp
  rw [JsmnDoc.text, JsmnDoc.textWith, List.length_cons, List.length_append] at hfuel
  rw [JsmnDoc.text, JsmnDoc.textWith]
  obtain ⟨fuel, rfl⟩ : ∃ f, fuel = f + 1 := ⟨fuel - 1, by omega⟩
  cases docs with
  | nil =>
    obtain rfl := Option.some.inj hvs
    exact value_emptyArray fuel rest
  | cons doc docs =>
    have htext : jsmnElementsText jsmnSep 0 (doc :: docs) =
        doc.text ++ jsmnElementsText jsmnSep (0 + 1) docs := by
      rw [jsmnElementsText, List.append_assoc]
      rfl
    rw [htext, List.length_append] at hfuel
    rw [htext, List.cons_append, List.append_assoc, List.append_assoc, List.singleton_append]
    have helements := elements_readBack h 0 rest hvs hp (show _ ≤ fuel by omega)
    obtain ⟨v, vs', hdoc, -, -⟩ := jsmnElementsValue_cons hvs
    obtain ⟨c, t, ht, hc⟩ := doc.text_starts hdoc
    obtain ⟨t', ht'⟩ : ∃ t', doc.text ++ (jsmnElementsText jsmnSep (0 + 1) docs ++ 93 :: rest) =
        c :: t' := ⟨_, by rw [ht]; rfl⟩
    exact value_array ((doc.skipWs_text hdoc _).trans ht') hc.2.1 helements

mutual

theorem JsmnDoc.readsBack : ∀ doc : JsmnDoc, ReadsBack doc
  | .scalar s => readsBack_scalar s
  | .object ms => readsBack_object (jsmnMembers_readsBack ms)
  | .array docs => readsBack_array (jsmnElements_readsBack docs)

theorem jsmnMembers_readsBack : ∀ (ms : List (JsmnText × JsmnDoc)), ∀ m ∈ ms, ReadsBack m.2
  | [], m, hm => absurd hm (by simp)
  | (key, doc) :: ms, m, hm => by
    rcases List.mem_cons.mp hm with he | hm
    · rw [he]
      exact doc.readsBack
    · exact jsmnMembers_readsBack ms m hm

theorem jsmnElements_readsBack : ∀ (docs : List JsmnDoc), ∀ d ∈ docs, ReadsBack d
  | [], d, hd => absurd hd (by simp)
  | doc :: docs, d, hd => by
    rcases List.mem_cons.mp hd with he | hd
    · rw [he]
      exact doc.readsBack
    · exact jsmnElements_readsBack docs d hd

end

theorem JsmnScalar.value_inj {s s' : JsmnScalar} {v : Value} (h : s.value? = some v)
    (h' : s'.value? = some v) : s = s' := by
  cases s <;> simp only [JsmnScalar.value?, Option.some.injEq, reduceCtorEq] at h <;> subst h <;>
    cases s' <;> simp [JsmnScalar.value?] at h' <;>
    simp_all [JsmnText.ext_iff, Int32.toInt_inj]

mutual

theorem JsmnDoc.value_inj : ∀ (doc doc' : JsmnDoc) (v : Value), doc.value? = some v →
    doc'.value? = some v → doc = doc'
  | .scalar s, .scalar s', v, h, h' => by
    rw [JsmnDoc.value?] at h h'
    rw [JsmnScalar.value_inj h h']
  | .object ms, .object ms', v, h, h' => by
    rw [JsmnDoc.value?] at h h'
    obtain ⟨vs, hvs, rfl⟩ := Option.map_eq_some_iff.mp h
    obtain ⟨vs', hvs', he⟩ := Option.map_eq_some_iff.mp h'
    obtain rfl := Value.object.inj he
    rw [jsmnMembersValue_inj ms ms' vs' hvs hvs']
  | .array docs, .array docs', v, h, h' => by
    rw [JsmnDoc.value?] at h h'
    obtain ⟨vs, hvs, rfl⟩ := Option.map_eq_some_iff.mp h
    obtain ⟨vs', hvs', he⟩ := Option.map_eq_some_iff.mp h'
    obtain rfl := Value.array.inj he
    rw [jsmnElementsValue_inj docs docs' vs' hvs hvs']
  | .scalar s, .object ms, v, h, h' => by
    simp only [JsmnDoc.value?] at h h'
    obtain ⟨vs, -, rfl⟩ := Option.map_eq_some_iff.mp h'
    cases s <;> simp [JsmnScalar.value?] at h
  | .scalar s, .array docs, v, h, h' => by
    simp only [JsmnDoc.value?] at h h'
    obtain ⟨vs, -, rfl⟩ := Option.map_eq_some_iff.mp h'
    cases s <;> simp [JsmnScalar.value?] at h
  | .object ms, .scalar s, v, h, h' => by
    simp only [JsmnDoc.value?] at h h'
    obtain ⟨vs, -, rfl⟩ := Option.map_eq_some_iff.mp h
    cases s <;> simp [JsmnScalar.value?] at h'
  | .array docs, .scalar s, v, h, h' => by
    simp only [JsmnDoc.value?] at h h'
    obtain ⟨vs, -, rfl⟩ := Option.map_eq_some_iff.mp h
    cases s <;> simp [JsmnScalar.value?] at h'
  | .object ms, .array docs, v, h, h' => by
    simp only [JsmnDoc.value?] at h h'
    obtain ⟨vs, -, rfl⟩ := Option.map_eq_some_iff.mp h
    exact absurd h' (by simp)
  | .array docs, .object ms, v, h, h' => by
    simp only [JsmnDoc.value?] at h h'
    obtain ⟨vs, -, rfl⟩ := Option.map_eq_some_iff.mp h
    exact absurd h' (by simp)

theorem jsmnMembersValue_inj : ∀ (ms ms' : List (JsmnText × JsmnDoc))
    (vs : List (List UInt8 × Value)), jsmnMembersValue? ms = some vs →
    jsmnMembersValue? ms' = some vs → ms = ms'
  | [], [], _, _, _ => rfl
  | [], (_, _) :: _, vs, h, h' => by
    obtain ⟨v, vs', -, -, rfl⟩ := jsmnMembersValue_cons h'
    exact absurd h (by simp [jsmnMembersValue?])
  | (_, _) :: _, [], vs, h, h' => by
    obtain ⟨v, vs', -, -, rfl⟩ := jsmnMembersValue_cons h
    exact absurd h' (by simp [jsmnMembersValue?])
  | (key, doc) :: ms, (key', doc') :: ms', vs, h, h' => by
    obtain ⟨v, vs', hv, hvs, rfl⟩ := jsmnMembersValue_cons h
    obtain ⟨v', vs'', hv', hvs', he⟩ := jsmnMembersValue_cons h'
    obtain ⟨hm, rfl⟩ := List.cons.inj he
    obtain ⟨hk, rfl⟩ := Prod.mk.inj hm
    rw [JsmnText.ext hk, doc.value_inj doc' v hv hv', jsmnMembersValue_inj ms ms' vs' hvs hvs']

theorem jsmnElementsValue_inj : ∀ (docs docs' : List JsmnDoc) (vs : List Value),
    jsmnElementsValue? docs = some vs → jsmnElementsValue? docs' = some vs → docs = docs'
  | [], [], _, _, _ => rfl
  | [], _ :: _, vs, h, h' => by
    obtain ⟨v, vs', -, -, rfl⟩ := jsmnElementsValue_cons h'
    exact absurd h (by simp [jsmnElementsValue?])
  | _ :: _, [], vs, h, h' => by
    obtain ⟨v, vs', -, -, rfl⟩ := jsmnElementsValue_cons h
    exact absurd h' (by simp [jsmnElementsValue?])
  | doc :: docs, doc' :: docs', vs, h, h' => by
    obtain ⟨v, vs', hv, hvs, rfl⟩ := jsmnElementsValue_cons h
    obtain ⟨v', vs'', hv', hvs', he⟩ := jsmnElementsValue_cons h'
    obtain ⟨rfl, rfl⟩ := List.cons.inj he
    rw [doc.value_inj doc' v hv hv', jsmnElementsValue_inj docs docs' vs' hvs hvs']

end

end Trees

section Buffer

end Buffer

end LibCC
