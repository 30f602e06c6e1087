import LibCC.JsmnReader

/-! The reader rebuilds every tree from the tokens that stand for it. -/

namespace LibCC

open StateProgram Ledger

theorem jsmnMembers_eq_map (list : List (Nat × JsmnKeyval)) :
    jsmnMembers list = list.map fun entry => entry.2.member := by
  induction list with
  | nil => rfl
  | cons entry list ih => simp [jsmnMembers, ih]

theorem jsmnElements_eq_map (list : List (Nat × JsmnVal)) :
    jsmnElements list = list.map fun entry => entry.2.tree := by
  induction list with
  | nil => rfl
  | cons entry list ih => simp [jsmnElements, ih]

variable {jw : JsmnWrapper} {grants : Nat → Bool} {s s' : JsmnState} {E : JsmnFault → Prop}

/-- `toks` come next. -/
def JsmnWrapper.Ahead (jw : JsmnWrapper) (s : JsmnState) (toks : List JsmnTok) : Prop :=
  toks <+: jw.tokens.drop s.pos

theorem JsmnWrapper.Ahead.left {a b : List JsmnTok} (h : jw.Ahead s (a ++ b)) : jw.Ahead s a :=
  (List.prefix_append a b).trans h

theorem JsmnWrapper.Ahead.right {a b : List JsmnTok} (h : jw.Ahead s (a ++ b))
    (hp : s'.pos = s.pos + a.length) : jw.Ahead s' b := by
  obtain ⟨rest, hr⟩ := h
  refine ⟨rest, ?_⟩
  rw [hp, ← List.drop_drop, ← hr, List.append_assoc, List.drop_left]

theorem JsmnWrapper.Ahead.token {tok : JsmnTok} {rest : List JsmnTok}
    (h : jw.Ahead s (tok :: rest)) : s.pos < jw.count ∧ jw.tokens[s.pos]? = some tok := by
  obtain ⟨later, hr⟩ := h
  have ht : jw.tokens[s.pos]? = some tok := by
    rw [← List.head?_drop, ← hr]
    rfl
  have hlt := (List.getElem?_eq_some_iff.mp ht).1
  rw [jw.filled] at hlt
  exact ⟨hlt, ht⟩

theorem JsmnWrapper.Ahead.of_pos {toks : List JsmnTok} (h : jw.Ahead s toks)
    (hp : s'.pos = s.pos) : jw.Ahead s' toks := by
  unfold JsmnWrapper.Ahead
  rw [hp]
  exact h

theorem jsmnCalloc_granted (hall : ∀ n, grants n = true) {Q : Option Nat → JsmnState → Prop}
    (hq : ∀ b s', s'.pos = s.pos → Q (some b) s') : Wp (jsmnCalloc grants) s Q E := by
  unfold jsmnCalloc
  rw [wp_bind, wp_get, if_pos (hall _)]
  exact hq s.heap.requests ⟨s.heap.grant, s.pos⟩ rfl

theorem JsmnWrapper.copy_covers {start : Int} {bytes : List UInt8}
    (h : Covers jw.str start bytes) :
    Wp (jw.copy bytes.length start) s (fun r s' => s' = s ∧ r = bytes) E := by
  induction bytes generalizing start with
  | nil => exact ⟨rfl, rfl⟩
  | cons byte bytes ih =>
    obtain ⟨h0, hb, hc⟩ := h
    rw [List.length_cons, JsmnWrapper.copy, wp_bind, JsmnWrapper.readByte, if_neg (by omega), hb]
    show Wp (jw.copy bytes.length (start + 1) >>= _) _ _ _
    rw [wp_bind]
    refine (ih hc).imp ?_
    rintro r s' ⟨rfl, rfl⟩
    exact ⟨rfl, rfl⟩

theorem jsmnWrapperStep_container {tok : JsmnTok} {rest : List JsmnTok}
    (ha : jw.Ahead s (tok :: rest)) (hty : ∀ type, tok.type ≠ .leaf type) :
    Wp (jsmnWrapperStep grants jw) s
      (fun r s' => r = some (.container tok) ∧ s'.pos = s.pos + 1) E := by
  obtain ⟨hp, ht⟩ := ha.token
  unfold jsmnWrapperStep JsmnWrapper.readToken
  rw [wp_bind, wp_get, if_neg (by omega), ht]
  dsimp only
  rw [wp_bind, wp_pure]
  split
  · next type h => exact absurd h (hty type)
  · exact ⟨rfl, rfl⟩

theorem jsmnWrapperStep_leaf (hall : ∀ n, grants n = true) {tok : JsmnTok} {rest : List JsmnTok}
    {type : JsmnLeaf} {bytes : List UInt8} (ha : jw.Ahead s (tok :: rest))
    (hty : tok.type = .leaf type) (hd : Delimits jw.str tok bytes) :
    Wp (jsmnWrapperStep grants jw) s (fun r s' => (∃ addr, r = some (.leaf type ⟨addr, bytes⟩)) ∧
      s'.pos = s.pos + 1) E := by
  obtain ⟨hp, ht⟩ := ha.token
  obtain ⟨hstop, hc⟩ := hd
  have hlen : (tok.stop - tok.start).toNat = bytes.length := by omega
  unfold jsmnWrapperStep JsmnWrapper.readToken
  rw [wp_bind, wp_get, if_neg (by omega), ht]
  dsimp only
  rw [wp_bind, wp_pure, hty]
  dsimp only
  rw [if_neg (by omega), wp_bind]
  refine jsmnCalloc_granted hall fun addr s₁ hpos => ?_
  show Wp (jw.copy _ _ >>= _) _ _ _
  rw [wp_bind, hlen]
  refine (JsmnWrapper.copy_covers hc).imp ?_
  rintro r s₂ ⟨rfl, rfl⟩
  exact ⟨⟨addr, rfl⟩, congrArg (· + 1) hpos⟩

section Container

variable {α β : Type} {wrap : JsmnM (Option α)} {delete : α → JsmnM Unit}
  {clear : List (Nat × α) → JsmnM Unit} {need : Nat} {spell : α → β}

/-- With `toks` next the constructor builds a value that spells `x` from them. -/
def Rebuilds (jw : JsmnWrapper) (need : Nat) (wrap : JsmnM (Option α)) (spell : α → β) (x : β)
    (toks : List JsmnTok) : Prop :=
  ∀ (s : JsmnState) (E : JsmnFault → Prop), 3 * (jw.count - s.pos) + 1 ≤ need → jw.Ahead s toks →
    Wp wrap s (fun r s' => (∃ v, r = some v ∧ spell v = x) ∧ s'.pos = s.pos + toks.length) E

def RebuildsAll (jw : JsmnWrapper) (need : Nat) (wrap : JsmnM (Option α)) (spell : α → β) :
    List β → List JsmnTok → Prop
  | [], toks => toks = []
  | x :: xs, toks => ∃ first rest, toks = first ++ rest ∧ Rebuilds jw need wrap spell x first ∧
      RebuildsAll jw need wrap spell xs rest

theorem jsmnContainerLoop_rebuilds (hall : ∀ n, grants n = true) {xs : List β}
    {toks : List JsmnTok} (h : RebuildsAll jw need wrap spell xs toks) (list : List (Nat × α))
    (hneed : 3 * (jw.count - s.pos) + 1 ≤ need) (ha : jw.Ahead s toks) :
    Wp (jsmnContainerLoop grants wrap delete clear xs.length list) s (fun r s' =>
      (∃ new, r = some (list ++ new) ∧ new.map (fun entry => spell entry.2) = xs) ∧
        s'.pos = s.pos + toks.length) E := by
  induction xs generalizing s toks list with
  | nil =>
    obtain rfl := h
    exact ⟨⟨[], by simp, rfl⟩, rfl⟩
  | cons x xs ih =>
    obtain ⟨first, rest, rfl, hx, hxs⟩ := h
    rw [List.length_cons, jsmnContainerLoop, wp_bind]
    refine (hx s E hneed ha.left).imp ?_
    rintro r s₁ ⟨⟨v, rfl, hv⟩, hpos₁⟩
    show Wp (jsmnCalloc grants >>= _) _ _ _
    rw [wp_bind]
    refine jsmnCalloc_granted hall fun iter s₂ hpos₂ => ?_
    have hpos : s₂.pos = s.pos + first.length := hpos₂.trans hpos₁
    refine (ih hxs (list ++ [(iter, v)]) (by omega) (ha.right hpos)).imp ?_
    rintro r s₃ ⟨⟨new, rfl, hnew⟩, hpos₃⟩
    refine ⟨⟨(iter, v) :: new, by simp, by simp [hv, hnew]⟩, ?_⟩
    rw [hpos₃, hpos, List.length_append]
    omega

theorem jsmnContainerWrap_rebuilds (hall : ∀ n, grants n = true) {type : JsmnType} {tok : JsmnTok}
    {xs : List β} {rest : List JsmnTok} (h : RebuildsAll jw need wrap spell xs rest)
    (hty : tok.type = type) (hleaf : ∀ l, type ≠ .leaf l) (hsize : tok.size = xs.length)
    (hneed : 3 * (jw.count - s.pos) ≤ need + 1) (ha : jw.Ahead s (tok :: rest)) :
    Wp (jsmnContainerWrap grants jw type wrap delete clear) s (fun r s' =>
      (∃ obj, r = some obj ∧ obj.list.map (fun entry => spell entry.2) = xs) ∧
        s'.pos = s.pos + (rest.length + 1)) E := by
  unfold jsmnContainerWrap
  rw [wp_bind]
  refine jsmnCalloc_granted hall fun self s₁ hpos₁ => ?_
  show Wp (jsmnCalloc grants >>= _) _ _ _
  rw [wp_bind]
  refine jsmnCalloc_granted hall fun list s₂ hpos₂ => ?_
  show Wp (jsmnWrapperStep grants jw >>= _) _ _ _
  have hp := ha.token.1
  have ha₂ : jw.Ahead s₂ (tok :: rest) := ha.of_pos (hpos₂.trans hpos₁)
  rw [wp_bind]
  refine (jsmnWrapperStep_container ha₂ (hty ▸ hleaf)).imp ?_
  rintro r s₃ ⟨rfl, hpos₃⟩
  show Wp (ite _ _ _) _ _ _
  rw [if_neg (not_not.mpr hty), wp_bind, hsize, Int.toNat_natCast]
  have ha₃ : jw.Ahead s₃ rest := JsmnWrapper.Ahead.right (a := [tok]) ha₂ hpos₃
  refine (jsmnContainerLoop_rebuilds hall h [] (by omega) ha₃).imp ?_
  rintro r s₄ ⟨⟨new, rfl, hnew⟩, hpos₄⟩
  refine ⟨⟨⟨self, list, new⟩, rfl, hnew⟩, ?_⟩
  omega

end Container

theorem jsmnWrapperPeek_ahead {tok : JsmnTok} {rest : List JsmnTok}
    {Q : Option JsmnTok → JsmnState → Prop} (ha : jw.Ahead s (tok :: rest)) (hq : Q (some tok) s) :
    Wp (jsmnWrapperPeek jw) s Q E := by
  obtain ⟨hp, ht⟩ := ha.token
  unfold jsmnWrapperPeek JsmnWrapper.readToken
  rw [wp_bind, wp_get, if_neg (by omega), ht]
  exact hq

mutual

theorem jsmnValWrap_rebuilds (hall : ∀ n, grants n = true) : ∀ (tree : JsmnTree)
    (toks : List JsmnTok) (fuel : Nat), Flattens jw.str tree toks →
    Rebuilds jw fuel (jsmnValWrap grants jw fuel) JsmnVal.tree tree toks
  | _, _, 0, _ => fun _ _ hneed _ => by omega
  | .object members, toks, fuel + 1, h => by
    intro s E hneed ha
    obtain ⟨tok, rest, rfl, hty, hsize, hrest⟩ := h
    have hp := ha.token.1
    rw [jsmnValWrap, wp_bind]
    refine jsmnCalloc_granted hall fun self s₁ hpos₁ => ?_
    show Wp (jsmnWrapperPeek jw >>= _) _ _ _
    have ha₁ := ha.of_pos hpos₁
    rw [wp_bind]
    apply jsmnWrapperPeek_ahead ha₁
    dsimp only
    rw [hty]
    cases fuel with
    | zero => omega
    | succ fuel =>
      show Wp (jsmnObjectWrap grants jw (fuel + 1) >>= _) _ _ _
      rw [wp_bind, jsmnObjectWrap]
      refine (jsmnContainerWrap_rebuilds hall (jsmnMembers_rebuild hall members rest fuel hrest)
        hty (by simp) hsize (by omega) ha₁).imp ?_
      rintro r s₂ ⟨⟨⟨objAddr, listAddr, list⟩, rfl, hobj⟩, hpos₂⟩
      refine ⟨⟨_, rfl, ?_⟩, hpos₂.trans (congrArg (· + _) hpos₁)⟩
      rw [JsmnVal.tree, jsmnObjectMembers, jsmnMembers_eq_map]
      exact congrArg JsmnTree.object hobj
  | .array elements, toks, fuel + 1, h => by
    intro s E hneed ha
    obtain ⟨tok, rest, rfl, hty, hsize, hrest⟩ := h
    have hp := ha.token.1
    rw [jsmnValWrap, wp_bind]
    refine jsmnCalloc_granted hall fun self s₁ hpos₁ => ?_
    show Wp (jsmnWrapperPeek jw >>= _) _ _ _
    have ha₁ := ha.of_pos hpos₁
    rw [wp_bind]
    apply jsmnWrapperPeek_ahead ha₁
    dsimp only
    rw [hty]
    cases fuel with
    | zero => omega
    | succ fuel =>
      show Wp (jsmnArrayWrap grants jw (fuel + 1) >>= _) _ _ _
      rw [wp_bind, jsmnArrayWrap]
      refine (jsmnContainerWrap_rebuilds hall (jsmnElements_rebuild hall elements rest fuel hrest)
        hty (by simp) hsize (by omega) ha₁).imp ?_
      rintro r s₂ ⟨⟨⟨arrayAddr, listAddr, list⟩, rfl, harray⟩, hpos₂⟩
      refine ⟨⟨_, rfl, ?_⟩, hpos₂.trans (congrArg (· + _) hpos₁)⟩
      rw [JsmnVal.tree, jsmnArrayElements, jsmnElements_eq_map]
      exact congrArg JsmnTree.array harray
  | .leaf type bytes, toks, fuel + 1, h => by
    intro s E hneed ha
    obtain ⟨tok, rfl, hty, hd⟩ := h
    rw [jsmnValWrap, wp_bind]
    refine jsmnCalloc_granted hall fun self s₁ hpos₁ => ?_
    show Wp (jsmnWrapperPeek jw >>= _) _ _ _
    have ha₁ := ha.of_pos hpos₁
    rw [wp_bind]
    apply jsmnWrapperPeek_ahead ha₁
    dsimp only
    rw [hty]
    show Wp (jsmnWrapperStep grants jw >>= _) _ _ _
    rw [wp_bind]
    refine (jsmnWrapperStep_leaf hall ha₁ hty hd).imp ?_
    rintro r s₂ ⟨⟨addr, rfl⟩, hpos₂⟩
    exact ⟨⟨_, rfl, rfl⟩, hpos₂.trans (congrArg (· + 1) hpos₁)⟩

theorem jsmnMembers_rebuild (hall : ∀ n, grants n = true) : ∀
    (members : List (List UInt8 × JsmnTree)) (toks : List JsmnTok) (fuel : Nat),
    FlattensMembers jw.str members toks →
    RebuildsAll jw fuel (jsmnKeyvalWrap grants jw fuel) JsmnKeyval.member members toks
  | [], _, _, h => h
  | (key, tree) :: members, toks, fuel, h => by
    obtain ⟨tok, val, rest, rfl, hty, hkey, hval, hrest⟩ := h
    refine ⟨tok :: val, rest, rfl, ?_, jsmnMembers_rebuild hall members rest fuel hrest⟩
    intro s E hneed ha
    have hp := ha.token.1
    cases fuel with
    | zero => omega
    | succ fuel =>
      rw [jsmnKeyvalWrap, wp_bind]
      refine jsmnCalloc_granted hall fun self s₁ hpos₁ => ?_
      show Wp (jsmnWrapperStep grants jw >>= _) _ _ _
      have ha₁ := ha.of_pos hpos₁
      rw [wp_bind]
      refine (jsmnWrapperStep_leaf hall ha₁ hty hkey).imp ?_
      rintro r s₂ ⟨⟨addr, rfl⟩, hpos₂⟩
      show Wp (ite _ _ _) _ _ _
      rw [if_neg (by simp), wp_bind]
      have ha₂ : jw.Ahead s₂ val := JsmnWrapper.Ahead.right (a := [tok]) ha₁ hpos₂
      refine (jsmnValWrap_rebuilds hall tree val fuel hval s₂ E (by omega) ha₂).imp ?_
      rintro r s₃ ⟨⟨v, rfl, rfl⟩, hpos₃⟩
      refine ⟨⟨_, rfl, rfl⟩, ?_⟩
      rw [hpos₃, hpos₂, hpos₁, List.length_cons]
      omega

theorem jsmnElements_rebuild (hall : ∀ n, grants n = true) : ∀
    (elements : List JsmnTree) (toks : List JsmnTok) (fuel : Nat),
    FlattensElements jw.str elements toks →
    RebuildsAll jw fuel (jsmnValWrap grants jw fuel) JsmnVal.tree elements toks
  | [], _, _, h => h
  | tree :: elements, toks, fuel, h => by
    obtain ⟨val, rest, rfl, hval, hrest⟩ := h
    exact ⟨val, rest, rfl, jsmnValWrap_rebuilds hall tree val fuel hval,
      jsmnElements_rebuild hall elements rest fuel hrest⟩

end

/-- cc_jsmnVal_wrap reads any tree back from the tokens that stand for it and leaves the cursor
behind them. On any token array it ends, without a read at or past jw->count. -/
theorem jsmnValWrap_reads_back :
    (∀ (jw : JsmnWrapper) (grants : Nat → Bool) (tree : JsmnTree) (pre toks suf : List JsmnTok)
      (s : JsmnState) (fuel : Nat), (∀ n, grants n = true) → jw.tokens = pre ++ toks ++ suf →
      Flattens jw.str tree toks → s.pos = pre.length → jw.fuel ≤ fuel →
      ∃ v s', (jsmnValWrap grants jw fuel).run s = .ok (some v, s') ∧ v.tree = tree ∧
        s'.pos = (pre ++ toks).length) ∧
    (∀ (jw : JsmnWrapper) (grants : Nat → Bool) (s : JsmnState) (fuel : Nat), jw.Bounded →
      jw.fuel ≤ fuel → ∃ r s', (jsmnValWrap grants jw fuel).run s = .ok (r, s')) := by
  constructor
  · intro jw grants tree pre toks suf s fuel hall htok hflat hpos hfuel
    have ha : jw.Ahead s toks := by
      refine ⟨suf, ?_⟩
      rw [htok, hpos, List.append_assoc, List.drop_left]
    have hneed : 3 * (jw.count - s.pos) + 1 ≤ fuel := by
      unfold JsmnWrapper.fuel at hfuel
      omega
    obtain ⟨r, s', hrun, ⟨v, rfl, hv⟩, hpos'⟩ :=
      (jsmnValWrap_rebuilds hall tree toks fuel hflat s (fun _ => False) hneed ha).exists
    refine ⟨v, s', hrun, hv, ?_⟩
    rw [hpos', hpos, List.length_append]
  · intro jw grants s fuel hb hfuel
    have hneed : 3 * (jw.count - s.pos) + 1 ≤ fuel := by
      unfold JsmnWrapper.fuel at hfuel
      omega
    obtain ⟨r, s', hrun, -⟩ := (((jsmnWrap_spec fuel).val s hneed).mono (fun _ _ h => h)
      fun e he => he.2 hb).exists
    exact ⟨r, s', hrun⟩

/-- The two numbers of an array, between other tokens. -/
theorem jsmnValWrap_reads_back_pair : ∃ v s',
    (jsmnValWrap (fun _ => true) ⟨[91, 49, 44, 50, 93], 5, [⟨.object, 0, 0, 7⟩, ⟨.array, 0, 5, 2⟩,
      ⟨.leaf .primitive, 1, 2, 0⟩, ⟨.leaf .primitive, 3, 4, 0⟩, ⟨.object, 0, 0, 7⟩], rfl⟩ 16).run
      ⟨⟨∅, 0, [], by simp⟩, 1⟩ = .ok (some v, s') ∧
    v.tree = .array [.leaf .primitive [49], .leaf .primitive [50]] ∧ s'.pos = 4 := by
  refine jsmnValWrap_reads_back.1 _ _ _ [⟨.object, 0, 0, 7⟩] [⟨.array, 0, 5, 2⟩,
    ⟨.leaf .primitive, 1, 2, 0⟩, ⟨.leaf .primitive, 3, 4, 0⟩] [⟨.object, 0, 0, 7⟩] _ _
    (fun _ => rfl) rfl ?_ rfl (by decide)
  refine ⟨_, _, rfl, rfl, rfl, [_], [_], rfl, ?_, [_], [], rfl, ?_, rfl⟩
  · exact ⟨_, rfl, rfl, rfl, by decide, rfl, trivial⟩
  · exact ⟨_, rfl, rfl, rfl, by decide, rfl, trivial⟩

variable {parse : JsmnParse} {str : List UInt8}

theorem jsmnWrapperNew_granted (hall : ∀ n, grants n = true) (hpos : 0 < parse.first)
    (hagree : parse.first = parse.second) :
    Wp (jsmnWrapperNew grants parse str) s (fun r _ => r ≠ none) E := by
  unfold jsmnWrapperNew
  rw [wp_bind]
  refine jsmnCalloc_granted hall fun self s₁ _ => ?_
  show Wp (ite _ _ _) _ _ _
  rw [if_neg (by omega), wp_bind]
  refine jsmnCalloc_granted hall fun tokens s₂ _ => ?_
  show Wp (ite _ _ _) _ _ _
  rw [if_neg (not_not.mpr hagree)]
  exact Option.some_ne_none _

/-- A prefix of the tokens that stands for a tree is all that cc_jsmnVal_new needs. -/
theorem jsmnValNew_rebuilds (hall : ∀ n, grants n = true) (hpos : 0 < parse.first)
    (hagree : parse.first = parse.second) {tree : JsmnTree} {toks : List JsmnTok}
    (hpre : toks <+: parse.tokens) (hflat : Flattens str tree toks) :
    ∃ v s', (jsmnValNew grants parse str).run s = .ok (some v, s') ∧ v.tree = tree := by
  have hwp : Wp (jsmnValNew grants parse str) s (fun r _ => ∃ v, r = some v ∧ v.tree = tree)
      (fun _ => False) := by
    unfold jsmnValNew
    rw [wp_bind]
    have hnew : Wp (jsmnWrapperNew grants parse str) s (JsmnWrapperOutcome parse str s)
        (fun _ => False) := jsmnWrapperNew_wp
    refine (hnew.and (jsmnWrapperNew_granted hall hpos hagree)).imp ?_
    rintro (_ | self) s₁ ⟨h₁, hsome⟩
    · exact absurd rfl hsome
    obtain ⟨hg₁, hpos₁, rfl, htok, -⟩ := h₁
    have hneed : 3 * (self.jw.count - s₁.pos) + 1 ≤ self.jw.fuel := by
      rw [hpos₁]
      exact le_refl _
    have ha : self.jw.Ahead s₁ toks := by
      unfold JsmnWrapper.Ahead
      rwa [hpos₁, List.drop_zero, htok]
    show Wp (jsmnValWrap grants self.jw self.jw.fuel >>= _) _ _ _
    rw [wp_bind]
    refine (((jsmnWrap_spec self.jw.fuel).val s₁ hneed).and (jsmnValWrap_rebuilds hall tree toks
      self.jw.fuel hflat s₁ (fun _ => False) hneed ha)).imp ?_
    rintro r s₂ ⟨h₂, ⟨v, rfl, hv⟩, -⟩
    show Wp (jsmnWrapperDelete self >>= _) _ _ _
    rw [wp_bind]
    exact jsmnWrapperDelete_wp (hg₁.trans h₂.1) fun s₃ _ => ⟨v, rfl, hv⟩
  obtain ⟨r, s', hrun, v, rfl, hv⟩ := hwp.exists
  exact ⟨v, s', hrun, hv⟩

/-- A value that cc_jsmnVal_new returns is the tree that a prefix of the tokens stands for, and
what follows that prefix is not looked at. Without such a prefix it returns NULL, and with one it
returns that tree where no allocation fails. -/
theorem jsmnValNew_flattens_prefix (grants : Nat → Bool) (parse : JsmnParse) (str : List UInt8)
    (s : JsmnState) (hsize : ∀ tok ∈ parse.tokens, 0 ≤ tok.size) :
    (∀ v s', (jsmnValNew grants parse str).run s = .ok (some v, s') →
      ∃ toks later, parse.tokens = toks ++ later ∧ toks ≠ [] ∧ Flattens str v.tree toks) ∧
    (parse.Bounded str → (∀ tree toks, toks <+: parse.tokens → ¬ Flattens str tree toks) →
      ∃ s', (jsmnValNew grants parse str).run s = .ok (none, s')) ∧
    ((∀ n, grants n = true) → 0 < parse.first → parse.first = parse.second →
      ∀ tree toks, toks <+: parse.tokens → Flattens str tree toks →
        ∃ v s', (jsmnValNew grants parse str).run s = .ok (some v, s') ∧ v.tree = tree) := by
  refine ⟨fun v s' hrun => ?_, fun hb hno => ?_, fun hall hpos hagree tree toks hpre hflat => ?_⟩
  · obtain ⟨-, -, -, toks, ⟨later, hlater⟩, hflat⟩ := jsmnValNew_wp.of_run hrun
    exact ⟨toks, later, hlater.symm, (hflat hsize).ne_nil, hflat hsize⟩
  · obtain ⟨r, s', hrun, hr⟩ := (jsmnValNew_wp.mono (fun _ _ h => h) fun e he => he.2 hb).exists
    cases r with
    | none => exact ⟨s', hrun⟩
    | some v =>
      obtain ⟨-, -, -, toks, hpre, hflat⟩ := hr
      exact absurd (hflat hsize) (hno v.tree toks hpre)
  · exact jsmnValNew_rebuilds hall hpos hagree hpre hflat

/-- The tokens of `1 2`. -/
def jsmnRootsParse : JsmnParse where
  first := 2
  second := 2
  fill
    | 0 => ⟨.leaf .primitive, 0, 1, 0⟩
    | _ => ⟨.leaf .primitive, 2, 3, 0⟩

theorem jsmnValNew_flattens_prefix_roots : ∃ v s', (jsmnValNew (fun _ => true) jsmnRootsParse
    [49, 32, 50]).run ⟨⟨∅, 0, [], by simp⟩, 0⟩ = .ok (some v, s') ∧
    v.tree = .leaf .primitive [49] := by
  have hflat : Flattens [49, 32, 50] (.leaf .primitive [49]) [⟨.leaf .primitive, 0, 1, 0⟩] :=
    ⟨_, rfl, rfl, rfl, by decide, rfl, trivial⟩
  obtain ⟨-, -, hreturns⟩ :=
    jsmnValNew_flattens_prefix (fun _ => true) jsmnRootsParse [49, 32, 50]
      ⟨⟨∅, 0, [], by simp⟩, 0⟩ (by decide)
  exact hreturns (fun _ => rfl) (by decide) rfl _ _ ⟨[⟨.leaf .primitive, 2, 3, 0⟩], rfl⟩ hflat

/-- The second number is left over. -/
theorem jsmnValNew_drops_tokens : ¬ ∀ (grants : Nat → Bool) (parse : JsmnParse) (str : List UInt8)
    (s : JsmnState) (v : JsmnVal) (s' : JsmnState), (∀ tok ∈ parse.tokens, 0 ≤ tok.size) →
    (jsmnValNew grants parse str).run s = .ok (some v, s') →
    Flattens str v.tree parse.tokens := by
  intro h
  have hone : Flattens [49, 32, 50] (.leaf .primitive [49]) [⟨.leaf .primitive, 0, 1, 0⟩] :=
    ⟨_, rfl, rfl, rfl, by decide, rfl, trivial⟩
  have hpre : [⟨.leaf .primitive, 0, 1, 0⟩] <+: jsmnRootsParse.tokens :=
    ⟨[⟨.leaf .primitive, 2, 3, 0⟩], rfl⟩
  have hgrants : ∀ n : Nat, (fun _ => true) n = true := fun _ => rfl
  obtain ⟨v, s', hrun, hv⟩ := jsmnValNew_rebuilds (s := ⟨⟨∅, 0, [], by simp⟩, 0⟩) hgrants
    (by decide) rfl hpre hone
  have hall := h _ _ _ _ v s' (by decide) hrun
  rw [hv] at hall
  obtain ⟨tok, htok, -⟩ := hall
  have hlen : 2 = 1 := congrArg List.length htok
  omega

end LibCC
