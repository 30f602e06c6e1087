import LibCC.JsonText

/-! Whatever the decoder reads is a text of the grammar. -/

namespace JsonText

variable {input rest : List UInt8}

theorem skipWs_split (input : List UInt8) : ∃ w, Ws w ∧ input = w ++ skipWs input := by
  refine ⟨input.takeWhile fun c => IsWs c, fun c hc => ?_, List.takeWhile_append_dropWhile.symm⟩
  simpa using List.mem_takeWhile_imp hc

theorem digits_sound {ds : List UInt8} (h : digits input = some (ds, rest)) :
    Digits ds ∧ input = ds ++ rest := by
  unfold digits at h
  dsimp only at h
  split_ifs at h with hne
  obtain ⟨rfl, rfl⟩ := Prod.mk.inj (Option.some.inj h)
  refine ⟨⟨hne, fun c hc => ?_⟩, List.takeWhile_append_dropWhile.symm⟩
  simpa using List.mem_takeWhile_imp hc

theorem minus_sound (input : List UInt8) :
    ∃ m, (m = [] ∨ m = [45]) ∧ input = m ++ (minus input).2 := by
  unfold minus
  split
  · exact ⟨[45], .inr rfl, rfl⟩
  · exact ⟨[], .inl rfl, rfl⟩

theorem intPart_sound {t : List UInt8} (h : intPart input = some (t, rest)) :
    IntPart t ∧ input = t ++ rest := by
  unfold intPart at h
  split at h
  · obtain ⟨rfl, rfl⟩ := Prod.mk.inj (Option.some.inj h)
    refine ⟨⟨⟨by simp, ?_⟩, fun _ => rfl⟩, rfl⟩
    intro c hc
    obtain rfl := List.mem_singleton.mp hc
    exact ⟨by decide, by decide⟩
  · next hzero =>
    obtain ⟨hd, rfl⟩ := digits_sound h
    refine ⟨⟨hd, fun hh => ?_⟩, rfl⟩
    obtain ⟨ds, rfl⟩ := List.head?_eq_some_iff.mp hh
    exact absurd rfl (hzero (ds ++ rest))

theorem fracPart_sound {ds : List UInt8} (h : fracPart input = some (ds, rest)) :
    ∃ t, FracPart t ∧ input = t ++ rest := by
  unfold fracPart at h
  split at h
  · obtain ⟨hd, rfl⟩ := digits_sound h
    exact ⟨46 :: ds, .inr ⟨ds, hd, rfl⟩, rfl⟩
  · obtain ⟨rfl, rfl⟩ := Prod.mk.inj (Option.some.inj h)
    exact ⟨[], .inl rfl, rfl⟩

theorem expSign_sound (input : List UInt8) :
    ∃ s, (s = [] ∨ s = [43] ∨ s = [45]) ∧ input = s ++ (expSign input).2 := by
  unfold expSign
  split
  · exact ⟨[43], .inr (.inl rfl), rfl⟩
  · exact ⟨[45], .inr (.inr rfl), rfl⟩
  · exact ⟨[], .inl rfl, rfl⟩

theorem expPart_sound {e : Int} (h : expPart input = some (e, rest)) :
    ∃ t, ExpPart t ∧ input = t ++ rest := by
  unfold expPart at h
  split at h
  · obtain ⟨rfl, rfl⟩ := Prod.mk.inj (Option.some.inj h)
    exact ⟨[], .inl rfl, rfl⟩
  · next c input =>
    split_ifs at h with hc
    · obtain ⟨s, hs, hinput⟩ := expSign_sound input
      obtain ⟨⟨ds, rest'⟩, hd, h⟩ := Option.bind_eq_some_iff.mp h
      obtain ⟨-, rfl⟩ := Prod.mk.inj (Option.some.inj h)
      obtain ⟨hds, hrest⟩ : Digits ds ∧ (expSign input).2 = ds ++ rest' := digits_sound hd
      refine ⟨c :: (s ++ ds), .inr ⟨c, s, ds, hc, hs, hds, rfl⟩, ?_⟩
      rw [hinput, hrest, List.cons_append, List.append_assoc]
    · obtain ⟨-, rfl⟩ := Prod.mk.inj (Option.some.inj h)
      exact ⟨[], .inl rfl, rfl⟩

theorem number_sound {q : ℚ} (h : number input = some (q, rest)) :
    ∃ t, Number t ∧ input = t ++ rest := by
  unfold number at h
  obtain ⟨m, hm, hinput⟩ := minus_sound input
  obtain ⟨⟨int, r₁⟩, hi, h⟩ := Option.bind_eq_some_iff.mp h
  obtain ⟨⟨frac, r₂⟩, hf, h⟩ := Option.bind_eq_some_iff.mp h
  obtain ⟨⟨exp, r₃⟩, he, h⟩ := Option.bind_eq_some_iff.mp h
  obtain ⟨-, rfl⟩ := Prod.mk.inj (Option.some.inj h)
  obtain ⟨hint, h₁⟩ : IntPart int ∧ (minus input).2 = int ++ r₁ := intPart_sound hi
  obtain ⟨f, hfrac, h₂⟩ := fracPart_sound hf
  obtain ⟨e, hexp, h₃⟩ := expPart_sound he
  refine ⟨m ++ int ++ f ++ e, ⟨m, int, f, e, hm, hint, hfrac, hexp, rfl⟩, ?_⟩
  rw [hinput, h₁, h₂, h₃]
  simp

theorem chars_sound {cs : List StrChar} (h : chars input = some (cs, rest)) :
    ∃ t, Chars t ∧ input = t ++ 34 :: rest := by
  induction input using chars.induct generalizing cs with
  | case1 => exact absurd h (by simp [chars])
  | case2 input =>
    unfold chars at h
    rw [if_pos rfl] at h
    obtain ⟨-, rfl⟩ := Prod.mk.inj (Option.some.inj h)
    exact ⟨[], .nil, rfl⟩
  | case3 => exact absurd h (by simp [chars])
  | case4 h1 h2 h3 h4 input _ ih =>
    unfold chars at h
    rw [if_neg (by decide), if_pos rfl] at h
    obtain ⟨u1, hu1, h⟩ := Option.bind_eq_some_iff.mp h
    obtain ⟨u2, hu2, h⟩ := Option.bind_eq_some_iff.mp h
    obtain ⟨u3, hu3, h⟩ := Option.bind_eq_some_iff.mp h
    obtain ⟨u4, hu4, h⟩ := Option.bind_eq_some_iff.mp h
    obtain ⟨⟨cs', rest'⟩, hc, h⟩ := Option.bind_eq_some_iff.mp h
    obtain ⟨-, rfl⟩ := Prod.mk.inj (Option.some.inj h)
    obtain ⟨t, ht, rfl⟩ := ih hc
    refine ⟨92 :: 117 :: h1 :: h2 :: h3 :: h4 :: t, .unicode ?_ ?_ ?_ ?_ ht, rfl⟩
    · simp [hu1]
    · simp [hu2]
    · simp [hu3]
    · simp [hu4]
  | case5 input hshort _ =>
    exfalso
    unfold chars at h
    rw [if_neg (by decide), if_pos rfl] at h
    dsimp only at h
    rw [if_pos rfl] at h
    split at h
    · exact hshort _ _ _ _ _ rfl
    · exact absurd h (by simp)
  | case6 e input he _ ih =>
    unfold chars at h
    rw [if_neg (by decide), if_pos rfl] at h
    dsimp only at h
    rw [if_neg he] at h
    obtain ⟨b, hb, h⟩ := Option.bind_eq_some_iff.mp h
    obtain ⟨⟨cs', rest'⟩, hc, h⟩ := Option.bind_eq_some_iff.mp h
    obtain ⟨-, rfl⟩ := Prod.mk.inj (Option.some.inj h)
    obtain ⟨t, ht, rfl⟩ := ih hc
    exact ⟨92 :: e :: t, .escape hb ht, rfl⟩
  | case7 c input h34 h92 hlt =>
    unfold chars at h
    rw [if_neg h34, if_neg h92, if_pos hlt] at h
    exact absurd h (by simp)
  | case8 c input h34 h92 hlt ih =>
    unfold chars at h
    rw [if_neg h34, if_neg h92, if_neg hlt] at h
    obtain ⟨⟨cs', rest'⟩, hc, h⟩ := Option.bind_eq_some_iff.mp h
    obtain ⟨-, rfl⟩ := Prod.mk.inj (Option.some.inj h)
    obtain ⟨t, ht, rfl⟩ := ih hc
    exact ⟨c :: t, .plain ⟨UInt8.not_lt.mp hlt, h34, h92⟩ ht, rfl⟩

/-- What the three readers of one depth promise. -/
structure Sound (fuel : Nat) : Prop where
  value : ∀ {input rest v}, value fuel input = some (v, rest) →
    ∃ t, IsValue t ∧ input = t ++ rest
  elements : ∀ {input rest vs}, elements fuel input = some (vs, rest) →
    ∃ t, IsElements t ∧ input = t ++ 93 :: rest
  members : ∀ {input rest ms}, members fuel input = some (ms, rest) →
    ∃ t, IsMembers t ∧ input = t ++ 125 :: rest

theorem Sound.value_succ {fuel : Nat} (h : Sound fuel) {v : Value}
    (hv : JsonText.value (fuel + 1) input = some (v, rest)) :
    ∃ t, IsValue t ∧ input = t ++ rest := by
  unfold JsonText.value at hv
  split at hv
  · obtain ⟨-, rfl⟩ := Prod.mk.inj (Option.some.inj hv)
    exact ⟨_, .null, rfl⟩
  · obtain ⟨-, rfl⟩ := Prod.mk.inj (Option.some.inj hv)
    exact ⟨_, .true_, rfl⟩
  · obtain ⟨-, rfl⟩ := Prod.mk.inj (Option.some.inj hv)
    exact ⟨_, .false_, rfl⟩
  · obtain ⟨⟨cs, rest'⟩, hc, hv⟩ := Option.bind_eq_some_iff.mp hv
    obtain ⟨-, rfl⟩ := Prod.mk.inj (Option.some.inj hv)
    obtain ⟨t, ht, rfl⟩ := chars_sound hc
    exact ⟨_, .string ht, by simp⟩
  · next input =>
    obtain ⟨w, hw, hinput⟩ := skipWs_split input
    split at hv
    · next rest' hskip =>
      obtain ⟨-, rfl⟩ := Prod.mk.inj (Option.some.inj hv)
      refine ⟨_, .emptyArray hw, ?_⟩
      rw [hinput, hskip]
      simp
    · obtain ⟨⟨vs, rest'⟩, he, hv⟩ := Option.bind_eq_some_iff.mp hv
      obtain ⟨-, rfl⟩ := Prod.mk.inj (Option.some.inj hv)
      obtain ⟨t, ht, rfl⟩ := h.elements he
      exact ⟨_, .array ht, by simp⟩
  · next input =>
    obtain ⟨w, hw, hinput⟩ := skipWs_split input
    split at hv
    · next rest' hskip =>
      obtain ⟨-, rfl⟩ := Prod.mk.inj (Option.some.inj hv)
      refine ⟨_, .emptyObject hw, ?_⟩
      rw [hinput, hskip]
      simp
    · obtain ⟨⟨ms, rest'⟩, hm, hv⟩ := Option.bind_eq_some_iff.mp hv
      obtain ⟨-, rfl⟩ := Prod.mk.inj (Option.some.inj hv)
      obtain ⟨t, ht, rfl⟩ := h.members hm
      exact ⟨_, .object ht, by simp⟩
  · obtain ⟨⟨q, rest'⟩, hn, hv⟩ := Option.bind_eq_some_iff.mp hv
    obtain ⟨-, rfl⟩ := Prod.mk.inj (Option.some.inj hv)
    obtain ⟨t, ht, rfl⟩ := number_sound hn
    exact ⟨t, .number ht, rfl⟩

theorem Sound.elements_succ {fuel : Nat} (h : Sound fuel) {vs : List Value}
    (hv : JsonText.elements (fuel + 1) input = some (vs, rest)) :
    ∃ t, IsElements t ∧ input = t ++ 93 :: rest := by
  rw [JsonText.elements] at hv
  obtain ⟨⟨v, input'⟩, hval, hv⟩ := Option.bind_eq_some_iff.mp hv
  obtain ⟨w, hw, hinput⟩ := skipWs_split input
  obtain ⟨t, ht, htext⟩ := h.value hval
  obtain ⟨w', hw', hinput'⟩ := skipWs_split input'
  dsimp only at hv
  split at hv
  · next rest' hskip =>
    obtain ⟨-, rfl⟩ := Prod.mk.inj (Option.some.inj hv)
    refine ⟨_, .one hw ht hw', ?_⟩
    rw [hinput, htext, hinput', hskip]
    simp
  · next input'' hskip =>
    obtain ⟨⟨vs', rest'⟩, he, hv⟩ := Option.bind_eq_some_iff.mp hv
    obtain ⟨-, rfl⟩ := Prod.mk.inj (Option.some.inj hv)
    obtain ⟨ts, hts, rfl⟩ := h.elements he
    refine ⟨_, .more hw ht hw' hts, ?_⟩
    rw [hinput, htext, hinput', hskip]
    simp
  · exact absurd hv (by simp)

theorem Sound.members_succ {fuel : Nat} (h : Sound fuel) {ms : List (List UInt8 × Value)}
    (hv : JsonText.members (fuel + 1) input = some (ms, rest)) :
    ∃ t, IsMembers t ∧ input = t ++ 125 :: rest := by
  rw [JsonText.members] at hv
  obtain ⟨w, hw, hinput⟩ := skipWs_split input
  split at hv
  · next input₁ hquote =>
    obtain ⟨⟨cs, input₂⟩, hc, hv⟩ := Option.bind_eq_some_iff.mp hv
    obtain ⟨k, hk, hinput₁⟩ := chars_sound hc
    obtain ⟨w', hw', hinput₂⟩ := skipWs_split input₂
    dsimp only at hv
    split at hv
    · next input₃ hcolon =>
      obtain ⟨⟨v, input₄⟩, hval, hv⟩ := Option.bind_eq_some_iff.mp hv
      obtain ⟨w₃, hw₃, hinput₃⟩ := skipWs_split input₃
      obtain ⟨t, ht, htext⟩ := h.value hval
      obtain ⟨w₄, hw₄, hinput₄⟩ := skipWs_split input₄
      dsimp only at hv
      split at hv
      · next rest' hskip =>
        obtain ⟨-, rfl⟩ := Prod.mk.inj (Option.some.inj hv)
        refine ⟨_, .one hw hk hw' hw₃ ht hw₄, ?_⟩
        rw [hinput, hquote, hinput₁, hinput₂, hcolon, hinput₃, htext, hinput₄, hskip]
        simp
      · next input₅ hskip =>
        obtain ⟨⟨ms', rest'⟩, hm, hv⟩ := Option.bind_eq_some_iff.mp hv
        obtain ⟨-, rfl⟩ := Prod.mk.inj (Option.some.inj hv)
        obtain ⟨ts, hts, rfl⟩ := h.members hm
        refine ⟨_, .more hw hk hw' hw₃ ht hw₄ hts, ?_⟩
        rw [hinput, hquote, hinput₁, hinput₂, hcolon, hinput₃, htext, hinput₄, hskip]
        simp
      · exact absurd hv (by simp)
    · exact absurd hv (by simp)
  · exact absurd hv (by simp)

theorem sound (fuel : Nat) : Sound fuel := by
  induction fuel with
  | zero =>
    exact ⟨fun h => absurd h (by simp [JsonText.value]),
      fun h => absurd h (by simp [JsonText.elements]),
      fun h => absurd h (by simp [JsonText.members])⟩
  | succ fuel ih => exact ⟨ih.value_succ, ih.elements_succ, ih.members_succ⟩

section Reading

variable {fuel : Nat} {next after : List UInt8} {v : Value}

theorem elements_last (hv : value fuel (skipWs input) = some (v, next))
    (hn : skipWs next = 93 :: rest) : elements (fuel + 1) input = some ([v], rest) := by
  rw [elements, hv]
  simp [hn]

theorem elements_next {vs : List Value} (hv : value fuel (skipWs input) = some (v, next))
    (hn : skipWs next = 44 :: after) (hvs : elements fuel after = some (vs, rest)) :
    elements (fuel + 1) input = some (v :: vs, rest) := by
  rw [elements, hv]
  simp [hn, hvs]

theorem members_last {k colon : List UInt8} {cs : List StrChar}
    (hi : skipWs input = 34 :: k) (hk : chars k = some (cs, colon))
    (hc : skipWs colon = 58 :: after) (hv : value fuel (skipWs after) = some (v, next))
    (hn : skipWs next = 125 :: rest) :
    members (fuel + 1) input = some ([(strBytes cs, v)], rest) := by
  rw [members]
  simp [hi, hk, hc, hv, hn]

theorem members_next {k colon later : List UInt8} {cs : List StrChar}
    {ms : List (List UInt8 × Value)} (hi : skipWs input = 34 :: k)
    (hk : chars k = some (cs, colon)) (hc : skipWs colon = 58 :: after)
    (hv : value fuel (skipWs after) = some (v, next)) (hn : skipWs next = 44 :: later)
    (hms : members fuel later = some (ms, rest)) :
    members (fuel + 1) input = some ((strBytes cs, v) :: ms, rest) := by
  rw [members]
  simp [hi, hk, hc, hv, hn, hms]

theorem value_emptyArray (fuel : Nat) (rest : List UInt8) :
    value (fuel + 1) (91 :: 93 :: rest) = some (.array [], rest) := rfl

theorem value_emptyObject (fuel : Nat) (rest : List UInt8) :
    value (fuel + 1) (123 :: 125 :: rest) = some (.object [], rest) := rfl

theorem value_array {c : UInt8} {t : List UInt8} {vs : List Value} (hi : skipWs input = c :: t)
    (hc : c ≠ 93) (he : elements fuel input = some (vs, rest)) :
    value (fuel + 1) (91 :: input) = some (.array vs, rest) := by
  rw [value]
  split
  · next rest' hskip => exact absurd (List.head_eq_of_cons_eq (hi.symm.trans hskip)) hc
  · rw [he]
    rfl

theorem value_object {c : UInt8} {t : List UInt8} {ms : List (List UInt8 × Value)}
    (hi : skipWs input = c :: t) (hc : c ≠ 125) (hm : members fuel input = some (ms, rest)) :
    value (fuel + 1) (123 :: input) = some (.object ms, rest) := by
  rw [value]
  split
  · next rest' hskip => exact absurd (List.head_eq_of_cons_eq (hi.symm.trans hskip)) hc
  · rw [hm]
    rfl

end Reading

end JsonText
