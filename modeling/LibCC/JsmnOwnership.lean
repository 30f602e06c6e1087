import LibCC.JsmnBlocks

/-! What the constructors do from any state: one that fails leaves no block
behind, and one that succeeds returns a value that owns the new blocks and
stands for the tokens that were read. -/

namespace LibCC

open StateProgram Ledger

/-- The tokens whose text is copied lie in the text. -/
def JsmnWrapper.Bounded (jw : JsmnWrapper) : Prop :=
  ∀ tok ∈ jw.tokens, ∀ type, tok.type = .leaf type →
    0 ≤ tok.start ∧ tok.start ≤ tok.stop ∧ tok.stop ≤ jw.str.length

def JsmnWrapper.Sized (jw : JsmnWrapper) : Prop := ∀ tok ∈ jw.tokens, 0 ≤ tok.size

/-- The only fault is a byte outside of the text. -/
def JsmnWrapper.Faults (jw : JsmnWrapper) (e : JsmnFault) : Prop := e = .text ∧ ¬ jw.Bounded

/-- The cursor went over `toks`. -/
def JsmnWrapper.Reads (jw : JsmnWrapper) (s s' : JsmnState) (toks : List JsmnTok) : Prop :=
  toks <+: jw.tokens.drop s.pos ∧ s'.pos = s.pos + toks.length

variable {jw : JsmnWrapper} {grants : Nat → Bool} {s s' s'' : JsmnState}

theorem JsmnWrapper.Reads.trans {toks toks' : List JsmnTok} (h : jw.Reads s s' toks)
    (h' : jw.Reads s' s'' toks') : jw.Reads s s'' (toks ++ toks') := by
  obtain ⟨⟨rest, hr⟩, hp⟩ := h
  obtain ⟨⟨rest', hr'⟩, hp'⟩ := h'
  refine ⟨⟨rest', ?_⟩, ?_⟩
  · rw [hp, ← List.drop_drop, ← hr, List.drop_left] at hr'
    rw [← hr, ← hr', List.append_assoc]
  · rw [hp', hp, List.length_append]
    omega

theorem JsmnWrapper.Reads.nil (h : s'.pos = s.pos) : jw.Reads s s' [] :=
  ⟨List.nil_prefix, by simpa using h⟩

theorem JsmnWrapper.Reads.single {tok : JsmnTok} (ht : jw.tokens[s.pos]? = some tok)
    (hp : s'.pos = s.pos + 1) : jw.Reads s s' [tok] := by
  obtain ⟨hlt, he⟩ := List.getElem?_eq_some_iff.mp ht
  refine ⟨⟨jw.tokens.drop (s.pos + 1), ?_⟩, hp⟩
  rw [List.drop_eq_getElem_cons hlt, he]
  rfl

theorem JsmnWrapper.Reads.le {toks : List JsmnTok} (hs : jw.Reads s s' toks) : s.pos ≤ s'.pos := by
  rw [hs.2]
  omega

/-- What a constructor leaves: `blocks` are those of its value, and `stands`
tells which tokens the value stands for. -/
def JsmnOutcome {α : Type} (jw : JsmnWrapper) (blocks : α → List Nat)
    (stands : α → List JsmnTok → Prop) (s : JsmnState) : Option α → JsmnState → Prop
  | none, s' => Grew s.heap s'.heap []
  | some v, s' => Grew s.heap s'.heap (blocks v) ∧ ∃ toks, jw.Reads s s' toks ∧ stands v toks

theorem jsmnCalloc_wp {Q : Option Nat → JsmnState → Prop} {E : JsmnFault → Prop}
    (hnone : ∀ s', Grew s.heap s'.heap [] → s'.pos = s.pos → Q none s')
    (hsome : ∀ b s', Grew s.heap s'.heap [b] → s'.pos = s.pos → Q (some b) s') :
    Wp (jsmnCalloc grants) s Q E := by
  unfold jsmnCalloc
  rw [wp_bind, wp_get]
  split_ifs
  · exact hsome s.heap.requests ⟨s.heap.grant, s.pos⟩ (grew_grant s.heap) rfl
  · exact hnone ⟨s.heap.refuse, s.pos⟩ (grew_refuse s.heap) rfl

theorem JsmnWrapper.readByte_wp (i : Int) :
    Wp (jw.readByte i) s (fun byte s' => s' = s ∧ 0 ≤ i ∧ jw.str[i.toNat]? = some byte)
      (fun e => e = .text ∧ (i < 0 ∨ jw.str.length ≤ i)) := by
  unfold JsmnWrapper.readByte
  split_ifs with hi
  · exact ⟨rfl, .inl hi⟩
  · split
    · next byte hb => exact ⟨rfl, by omega, hb⟩
    · next hb =>
      rw [List.getElem?_eq_none_iff] at hb
      exact ⟨rfl, .inr (by omega)⟩

theorem JsmnWrapper.copy_wp (len : Nat) (start : Int) :
    Wp (jw.copy len start) s
      (fun bytes s' => s' = s ∧ bytes.length = len ∧ Covers jw.str start bytes)
      (fun e => e = .text ∧ (start < 0 ∨ jw.str.length < start + len)) := by
  induction len generalizing start with
  | zero => exact ⟨rfl, rfl, trivial⟩
  | succ len ih =>
    simp only [JsmnWrapper.copy, wp_bind, wp_pure]
    refine (jw.readByte_wp start).mono ?_ ?_
    · rintro byte s' ⟨rfl, h0, hb⟩
      refine (ih (start + 1)).mono ?_ ?_
      · rintro bytes s'' ⟨rfl, hlen, hc⟩
        exact ⟨rfl, by simp [hlen], h0, hb, hc⟩
      · rintro e ⟨rfl, h⟩
        refine ⟨rfl, ?_⟩
        push_cast
        omega
    · rintro e ⟨rfl, h⟩
      refine ⟨rfl, ?_⟩
      push_cast
      omega

theorem JsmnWrapper.readToken_wp {Q : JsmnTok → JsmnState → Prop} {E : JsmnFault → Prop}
    (hp : ¬ jw.count ≤ s.pos) (hq : ∀ tok, jw.tokens[s.pos]? = some tok → Q tok s) :
    Wp (jw.readToken s.pos) s Q E := by
  have hlt : s.pos < jw.tokens.length := by
    rw [jw.filled]
    omega
  have ht := List.getElem?_eq_getElem hlt
  unfold JsmnWrapper.readToken
  rw [ht]
  exact hq _ ht

def JsmnStepped.blocks : JsmnStepped → List Nat
  | .container _ => []
  | .leaf _ data => [data.addr]

def JsmnStepped.Stands (jw : JsmnWrapper) : JsmnStepped → List JsmnTok → Prop
  | .container tok, toks => toks = [tok]
  | .leaf type data, toks =>
    ∃ tok, toks = [tok] ∧ tok.type = .leaf type ∧ Delimits jw.str tok data.bytes

theorem jsmnWrapperStep_wp :
    Wp (jsmnWrapperStep grants jw) s
      (JsmnOutcome jw JsmnStepped.blocks (JsmnStepped.Stands jw) s) jw.Faults := by
  unfold jsmnWrapperStep
  rw [wp_bind, wp_get]
  split_ifs with hp
  · exact Grew.refl s.heap
  rw [wp_bind]
  refine JsmnWrapper.readToken_wp hp fun tok ht => ?_
  have hmem : tok ∈ jw.tokens := List.mem_of_getElem? ht
  split
  · next type hty =>
    have hbad : tok.start < 0 ∨ jw.str.length < tok.stop ∨ tok.stop < tok.start →
        jw.Faults .text := by
      intro h
      refine ⟨rfl, fun hb => ?_⟩
      obtain ⟨h0, h1, h2⟩ := hb tok hmem type hty
      omega
    split_ifs with hlt
    · exact hbad (by omega)
    rw [wp_bind]
    refine jsmnCalloc_wp (fun s' hg _ => hg) fun addr s' hg hpos => ?_
    simp only [wp_bind, wp_modify, wp_pure]
    refine (jw.copy_wp (tok.stop - tok.start).toNat tok.start).mono ?_ ?_
    · rintro bytes s'' ⟨rfl, hlen, hc⟩
      have hstop : tok.stop = tok.start + bytes.length := by
        rw [hlen]
        omega
      exact ⟨hg, [tok], .single ht (congrArg (· + 1) hpos), tok, rfl, hty, hstop, hc⟩
    · rintro e ⟨rfl, h⟩
      exact hbad (by omega)
  · exact ⟨Grew.refl s.heap, [tok], .single ht rfl, rfl⟩

theorem jsmnWrapperPeek_wp :
    Wp (jsmnWrapperPeek jw) s (fun r s' => s' = s ∧ (∀ tok, r = some tok →
      s.pos < jw.count ∧ jw.tokens[s.pos]? = some tok)) jw.Faults := by
  unfold jsmnWrapperPeek
  rw [wp_bind, wp_get]
  split_ifs with hp
  · exact ⟨rfl, by simp⟩
  rw [wp_bind]
  refine JsmnWrapper.readToken_wp hp fun tok ht => ⟨rfl, ?_⟩
  rintro tok' h
  obtain rfl := Option.some.inj h
  exact ⟨by omega, ht⟩

section Container

variable {α : Type} {blocks : α → List Nat} {blocksAll : List (Nat × α) → List Nat}
  {stands : α → List JsmnTok → Prop} {wrap : JsmnM (Option α)} {delete : α → JsmnM Unit}
  {clear : List (Nat × α) → JsmnM Unit} {need : Nat}

/-- The tokens of the members, one after the other. -/
def StandsAll (stands : α → List JsmnTok → Prop) : List (Nat × α) → List JsmnTok → Prop
  | [], toks => toks = []
  | (_, member) :: list, toks =>
    ∃ first rest, toks = first ++ rest ∧ stands member first ∧ StandsAll stands list rest

theorem StandsAll.append {list : List (Nat × α)} {toks first : List JsmnTok} {member : α}
    (h : StandsAll stands list toks) (hm : stands member first) (iter : Nat) :
    StandsAll stands (list ++ [(iter, member)]) (toks ++ first) := by
  induction list generalizing toks with
  | nil =>
    obtain rfl := h
    exact ⟨first, [], by simp, hm, rfl⟩
  | cons entry list ih =>
    obtain ⟨a, rest, rfl, ha, hr⟩ := h
    exact ⟨a, rest ++ first, by simp, ha, ih hr⟩

/-- What the loop and its caller assume of the functions of a member. -/
structure JsmnMember (jw : JsmnWrapper) (blocks : α → List Nat)
    (blocksAll : List (Nat × α) → List Nat) (stands : α → List JsmnTok → Prop) (need : Nat)
    (wrap : JsmnM (Option α)) (delete : α → JsmnM Unit) (clear : List (Nat × α) → JsmnM Unit) :
    Prop where
  wrap : ∀ s : JsmnState, 3 * (jw.count - s.pos) + 1 ≤ need →
    Wp wrap s (JsmnOutcome jw blocks stands s) jw.Faults
  delete : ∀ v, Deletes (blocks v) (delete v)
  clear : ∀ list, Deletes (blocksAll list) (clear list)
  nil : blocksAll [] = []
  append : ∀ list iter v, blocksAll (list ++ [(iter, v)]) = blocksAll list ++ (iter :: blocks v)

/-- Invariant of the loop, which started with an empty list in `s₀`: the list owns what
was allocated and stands for what was read. -/
theorem jsmnContainerLoop_wp
    (hm : JsmnMember jw blocks blocksAll stands need wrap delete clear) {s₀ : JsmnState} (n : Nat)
    {list : List (Nat × α)} {toks : List JsmnTok} (hneed : 3 * (jw.count - s.pos) + 1 ≤ need)
    (hg : Grew s₀.heap s.heap (blocksAll list)) (hr : jw.Reads s₀ s toks)
    (hs : StandsAll stands list toks) :
    Wp (jsmnContainerLoop grants wrap delete clear n list) s
      (JsmnOutcome jw blocksAll (fun list' toks => list'.length = list.length + n ∧
        StandsAll stands list' toks) s₀) jw.Faults := by
  induction n generalizing s list toks with
  | zero => exact ⟨hg, toks, hr, rfl, hs⟩
  | succ n ih =>
    rw [jsmnContainerLoop, wp_bind]
    refine (hm.wrap s hneed).imp ?_
    rintro (_ | member) s₁ h
    · have hg₁ : Grew s₀.heap s₁.heap (blocksAll list ++ []) := hg.trans h
      show Wp (clear list >>= _) _ _ _
      rw [wp_bind]
      exact (hm.clear list).shrink hg₁ fun s₂ hg₂ _ => hg₂
    obtain ⟨hg₁, first, hr₁, hs₁⟩ := h
    show Wp (jsmnCalloc grants >>= _) _ _ _
    rw [wp_bind]
    refine jsmnCalloc_wp (fun s₂ hg₂ _ => ?_) fun iter s₂ hg₂ hpos => ?_
    · have hg₃ : Grew s₀.heap s₂.heap (blocks member ++ (blocksAll list ++ [])) := by
        refine ((hg.trans hg₁).trans hg₂).perm ?_
        rw [List.append_nil, List.append_nil]
        exact List.perm_append_comm
      show Wp (delete member >>= _) _ _ _
      rw [wp_bind]
      refine (hm.delete member).shrink hg₃ fun s₃ hg₃ _ => ?_
      rw [wp_bind]
      exact (hm.clear list).shrink hg₃ fun s₄ hg₄ _ => hg₄
    · have hle := hr₁.le
      have hg₃ : Grew s₀.heap s₂.heap (blocksAll (list ++ [(iter, member)])) := by
        refine ((hg.trans hg₁).trans hg₂).perm ?_
        rw [hm.append, List.append_assoc]
        exact (List.perm_append_singleton _ _).append_left _
      have hr₂ : jw.Reads s₀ s₂ (toks ++ first) := by
        obtain ⟨hpre, hpos₁⟩ := hr.trans hr₁
        exact ⟨hpre, hpos.trans hpos₁⟩
      refine (ih (by omega) hg₃ hr₂ (hs.append hs₁ iter)).imp ?_
      rintro (_ | list') s₃ h
      · exact h
      · obtain ⟨hg₄, toks', hr₄, hlen, hs₄⟩ := h
        refine ⟨hg₄, toks', hr₄, ?_, hs₄⟩
        rw [hlen, List.length_append, List.length_singleton]
        omega

/-- The tokens of a container: its own, and those of as many members as that one announces. -/
def ContainerStands (type : JsmnType) (stands : α → List JsmnTok → Prop)
    (obj : JsmnContainer α) (toks : List JsmnTok) : Prop :=
  ∃ tok rest, toks = tok :: rest ∧ tok.type = type ∧ obj.list.length = tok.size.toNat ∧
    StandsAll stands obj.list rest

theorem jsmnContainerWrap_wp
    (hm : JsmnMember jw blocks blocksAll stands need wrap delete clear) (type : JsmnType)
    (hneed : 3 * (jw.count - s.pos) ≤ need + 1) (hp : s.pos < jw.count) :
    Wp (jsmnContainerWrap grants jw type wrap delete clear) s
      (JsmnOutcome jw (fun obj => blocksAll obj.list ++ [obj.listAddr, obj.addr])
        (ContainerStands type stands) s) jw.Faults := by
  unfold jsmnContainerWrap
  rw [wp_bind]
  refine jsmnCalloc_wp (fun s₁ hg _ => hg) fun self s₁ hg₁ hpos₁ => ?_
  show Wp (jsmnCalloc grants >>= _) _ _ _
  rw [wp_bind]
  refine jsmnCalloc_wp (fun s₂ hg _ => ?_) fun list s₂ hg₂ hpos₂ => ?_
  · have hg' : Grew s.heap s₂.heap ([self] ++ []) := hg₁.trans hg
    show Wp (jsmnFree self >>= _) _ _ _
    rw [wp_bind]
    exact (jsmnFree_deletes self).shrink hg' fun s₃ hg₃ _ => hg₃
  have hg₂ : Grew s.heap s₂.heap [list, self] := (hg₁.trans hg₂).perm (List.Perm.swap _ _ _)
  -- the ladder from fail_tok on
  have hladder : ∀ s' : JsmnState, Grew s.heap s'.heap [list, self] →
      Wp (do jsmnFree list; jsmnFree self; return (none : Option (JsmnContainer α))) s'
        (JsmnOutcome jw (fun obj => blocksAll obj.list ++ [obj.listAddr, obj.addr])
        (ContainerStands type stands) s) jw.Faults := by
    intro s' hg
    rw [wp_bind]
    refine (jsmnFree_deletes list).shrink hg fun s₃ hg₃ _ => ?_
    rw [wp_bind]
    exact (jsmnFree_deletes self).shrink hg₃ fun s₄ hg₄ _ => hg₄
  show Wp (jsmnWrapperStep grants jw >>= _) _ _ _
  rw [wp_bind]
  refine jsmnWrapperStep_wp.imp ?_
  rintro (_ | tok | ⟨type', data⟩) s₃ h
  · exact hladder s₃ (hg₂.trans h)
  · obtain ⟨hg₃, toks, hr₃, rfl⟩ := h
    have hg₃ : Grew s.heap s₃.heap ([list, self] ++ []) := hg₂.trans hg₃
    show Wp (ite _ _ _) _ _ _
    split_ifs with hty
    · exact hladder s₃ hg₃
    have hpos₃ : s₃.pos = s.pos + 1 := by
      rw [hr₃.2, hpos₂, hpos₁]
      rfl
    have hgl : Grew s₃.heap s₃.heap (blocksAll []) := by
      rw [hm.nil]
      exact Grew.refl s₃.heap
    rw [wp_bind]
    refine (jsmnContainerLoop_wp hm tok.size.toNat (by omega) hgl (.nil rfl) rfl).imp ?_
    rintro (_ | members) s₄ h
    · exact hladder s₄ (hg₃.trans h)
    obtain ⟨hg₄, toks, hr₄, hlen, hs⟩ := h
    refine ⟨(hg₃.trans hg₄).perm List.perm_append_comm, [tok] ++ toks, ?_, tok, toks, rfl, ?_⟩
    · obtain ⟨hpre, hpos₄⟩ := hr₃.trans hr₄
      rw [hpos₂, hpos₁] at hpos₄ hpre
      exact ⟨hpre, hpos₄⟩
    · exact ⟨not_not.mp hty, by simpa using hlen, hs⟩
  · obtain ⟨hg₃, toks, hr₃, hs₃⟩ := h
    have hg₄ : Grew s.heap s₃.heap ([data.addr] ++ [list, self]) :=
      (hg₂.trans hg₃).perm List.perm_append_comm
    show Wp (jsmnFree data.addr >>= _) _ _ _
    rw [wp_bind]
    exact (jsmnFree_deletes data.addr).shrink hg₄ fun s₄ hg₄ _ => hladder s₄ hg₄

end Container

end LibCC
