import LibCC.JsmnOwnership

/-! cc_jsmnVal_new over every token array and every schedule of allocation
failures: what it leaves allocated, and the tokens that its value stands for. -/

namespace LibCC

open StateProgram Ledger

mutual

/-- The tree that a value spells out. -/
def JsmnVal.tree : JsmnVal → JsmnTree
  | .object _ obj => .object (jsmnObjectMembers obj)
  | .array _ array => .array (jsmnArrayElements array)
  | .data _ type data => .leaf type data.bytes

def JsmnKeyval.member : JsmnKeyval → List UInt8 × JsmnTree
  | .mk _ key val => (key.bytes, val.tree)

def jsmnObjectMembers : JsmnContainer JsmnKeyval → List (List UInt8 × JsmnTree)
  | ⟨_, _, list⟩ => jsmnMembers list

def jsmnArrayElements : JsmnContainer JsmnVal → List JsmnTree
  | ⟨_, _, list⟩ => jsmnElements list

def jsmnMembers : List (Nat × JsmnKeyval) → List (List UInt8 × JsmnTree)
  | [] => []
  | (_, kv) :: list => kv.member :: jsmnMembers list

def jsmnElements : List (Nat × JsmnVal) → List JsmnTree
  | [] => []
  | (_, v) :: list => v.tree :: jsmnElements list

end

variable {jw : JsmnWrapper} {grants : Nat → Bool} {s s' : JsmnState}

@[simp] theorem jsmnMembers_length (list : List (Nat × JsmnKeyval)) :
    (jsmnMembers list).length = list.length := by
  induction list with
  | nil => rfl
  | cons entry list ih => simp [jsmnMembers, ih]

@[simp] theorem jsmnElements_length (list : List (Nat × JsmnVal)) :
    (jsmnElements list).length = list.length := by
  induction list with
  | nil => rfl
  | cons entry list ih => simp [jsmnElements, ih]

/-- A negative size would be read as no members, so a value flattens to its
tokens where no size is negative. -/
def JsmnVal.Stands (jw : JsmnWrapper) (v : JsmnVal) (toks : List JsmnTok) : Prop :=
  jw.Sized → Flattens jw.str v.tree toks

def JsmnKeyval.Stands (jw : JsmnWrapper) (kv : JsmnKeyval) (toks : List JsmnTok) : Prop :=
  jw.Sized → ∃ tok val, toks = tok :: val ∧ tok.type = .leaf .string ∧
    Delimits jw.str tok kv.member.1 ∧ Flattens jw.str kv.member.2 val

theorem flattensMembers_of_standsAll (hsize : jw.Sized) {list : List (Nat × JsmnKeyval)}
    {toks : List JsmnTok} (h : StandsAll (JsmnKeyval.Stands jw) list toks) :
    FlattensMembers jw.str (jsmnMembers list) toks := by
  induction list generalizing toks with
  | nil => exact h
  | cons entry list ih =>
    obtain ⟨first, rest, rfl, hkv, hrest⟩ := h
    obtain ⟨tok, val, rfl, hty, hkey, hval⟩ := hkv hsize
    exact ⟨tok, val, rest, rfl, hty, hkey, hval, ih hrest⟩

theorem flattensElements_of_standsAll (hsize : jw.Sized) {list : List (Nat × JsmnVal)}
    {toks : List JsmnTok} (h : StandsAll (JsmnVal.Stands jw) list toks) :
    FlattensElements jw.str (jsmnElements list) toks := by
  induction list generalizing toks with
  | nil => exact h
  | cons entry list ih =>
    obtain ⟨first, rest, rfl, hval, hrest⟩ := h
    exact ⟨first, rest, rfl, hval hsize, ih hrest⟩

theorem JsmnWrapper.Sized.of_reads (hsize : jw.Sized) {tok : JsmnTok} {rest : List JsmnTok}
    (hr : jw.Reads s s' (tok :: rest)) {n : Nat} (hn : n = tok.size.toNat) : tok.size = n := by
  have hmem : tok ∈ jw.tokens := List.mem_of_mem_drop (hr.1.subset (by simp))
  have := hsize tok hmem
  omega

section Fuel

variable {fuel : Nat}

theorem jsmnVal_object_stands {obj : JsmnContainer JsmnKeyval} {toks : List JsmnTok} (addr : Nat)
    (hr : jw.Reads s s' toks) (h : ContainerStands .object (JsmnKeyval.Stands jw) obj toks) :
    (JsmnVal.object addr obj).Stands jw toks := by
  intro hsize
  obtain ⟨tok, rest, rfl, hty, hlen, hs⟩ := h
  obtain ⟨objAddr, listAddr, list⟩ := obj
  refine ⟨tok, rest, rfl, hty, ?_, flattensMembers_of_standsAll hsize hs⟩
  simpa [jsmnObjectMembers] using hsize.of_reads hr hlen

theorem jsmnVal_array_stands {array : JsmnContainer JsmnVal} {toks : List JsmnTok} (addr : Nat)
    (hr : jw.Reads s s' toks) (h : ContainerStands .array (JsmnVal.Stands jw) array toks) :
    (JsmnVal.array addr array).Stands jw toks := by
  intro hsize
  obtain ⟨tok, rest, rfl, hty, hlen, hs⟩ := h
  obtain ⟨arrayAddr, listAddr, list⟩ := array
  refine ⟨tok, rest, rfl, hty, ?_, flattensElements_of_standsAll hsize hs⟩
  simpa [jsmnArrayElements] using hsize.of_reads hr hlen

/-- The wrap functions at one depth of the recursion, with fuel for all tokens that are left. -/
structure JsmnWrapSpec (grants : Nat → Bool) (jw : JsmnWrapper) (fuel : Nat) : Prop where
  val : ∀ s : JsmnState, 3 * (jw.count - s.pos) + 1 ≤ fuel →
    Wp (jsmnValWrap grants jw fuel) s (JsmnOutcome jw JsmnVal.blocks (JsmnVal.Stands jw) s)
      jw.Faults
  keyval : ∀ s : JsmnState, 3 * (jw.count - s.pos) + 1 ≤ fuel →
    Wp (jsmnKeyvalWrap grants jw fuel) s
      (JsmnOutcome jw JsmnKeyval.blocks (JsmnKeyval.Stands jw) s) jw.Faults
  object : ∀ s : JsmnState, 3 * (jw.count - s.pos) ≤ fuel → s.pos < jw.count →
    Wp (jsmnObjectWrap grants jw fuel) s
      (JsmnOutcome jw jsmnObjectBlocks (ContainerStands .object (JsmnKeyval.Stands jw)) s) jw.Faults
  array : ∀ s : JsmnState, 3 * (jw.count - s.pos) ≤ fuel → s.pos < jw.count →
    Wp (jsmnArrayWrap grants jw fuel) s
      (JsmnOutcome jw jsmnArrayBlocks (ContainerStands .array (JsmnVal.Stands jw)) s) jw.Faults

theorem JsmnWrapSpec.keyvals (h : JsmnWrapSpec grants jw fuel) :
    JsmnMember jw JsmnKeyval.blocks jsmnKeyvalsBlocks (JsmnKeyval.Stands jw) fuel
      (jsmnKeyvalWrap grants jw fuel) jsmnKeyvalDelete jsmnKeyvalsDelete :=
  ⟨h.keyval, jsmnKeyvalDelete_deletes, jsmnKeyvalsDelete_deletes, rfl, jsmnKeyvalsBlocks_append⟩

theorem JsmnWrapSpec.vals (h : JsmnWrapSpec grants jw fuel) :
    JsmnMember jw JsmnVal.blocks jsmnValsBlocks (JsmnVal.Stands jw) fuel
      (jsmnValWrap grants jw fuel) jsmnValDelete jsmnValsDelete :=
  ⟨h.val, jsmnValDelete_deletes, jsmnValsDelete_deletes, rfl, jsmnValsBlocks_append⟩

theorem JsmnWrapSpec.val_succ (h : JsmnWrapSpec grants jw fuel) (s : JsmnState)
    (hneed : 3 * (jw.count - s.pos) + 1 ≤ fuel + 1) :
    Wp (jsmnValWrap grants jw (fuel + 1)) s
      (JsmnOutcome jw JsmnVal.blocks (JsmnVal.Stands jw) s) jw.Faults := by
  rw [jsmnValWrap, wp_bind]
  refine jsmnCalloc_wp (fun s₁ hg _ => hg) fun self s₁ hg₁ hpos₁ => ?_
  -- fail_tok and fail_val
  have hladder : ∀ s' : JsmnState, Grew s₁.heap s'.heap [] →
      Wp (do jsmnFree self; return (none : Option JsmnVal)) s'
        (JsmnOutcome jw JsmnVal.blocks (JsmnVal.Stands jw) s) jw.Faults := by
    intro s' hg
    rw [wp_bind]
    exact (jsmnFree_deletes self).shrink (hg₁.trans hg) fun s'' hg' _ => hg'
  show Wp (jsmnWrapperPeek jw >>= _) _ _ _
  rw [wp_bind]
  refine jsmnWrapperPeek_wp.imp ?_
  rintro (_ | tok) s₂ ⟨rfl, hpeek⟩
  · exact hladder s₂ (Grew.refl _)
  obtain ⟨hp, ht⟩ := hpeek tok rfl
  have hreads : ∀ {s' : JsmnState} {toks : List JsmnTok}, jw.Reads s₂ s' toks →
      jw.Reads s s' toks := by
    intro s' toks hr
    obtain ⟨hpre, hpos⟩ := hr
    rw [hpos₁] at hpre hpos
    exact ⟨hpre, hpos⟩
  dsimp only
  split
  · rw [wp_bind]
    refine (h.object s₂ (by omega) hp).imp ?_
    rintro (_ | obj) s₃ h₃
    · exact hladder s₃ h₃
    obtain ⟨hg₃, toks, hr, hs⟩ := h₃
    refine ⟨(hg₁.trans hg₃).perm ?_, toks, hreads hr, jsmnVal_object_stands self hr hs⟩
    rw [JsmnVal.blocks]
    exact List.perm_append_comm
  · rw [wp_bind]
    refine (h.array s₂ (by omega) hp).imp ?_
    rintro (_ | array) s₃ h₃
    · exact hladder s₃ h₃
    obtain ⟨hg₃, toks, hr, hs⟩ := h₃
    refine ⟨(hg₁.trans hg₃).perm ?_, toks, hreads hr, jsmnVal_array_stands self hr hs⟩
    rw [JsmnVal.blocks]
    exact List.perm_append_comm
  · next type hty =>
    rw [wp_bind]
    refine jsmnWrapperStep_wp.imp ?_
    rintro (_ | tok' | ⟨type', data⟩) s₃ h₃
    · exact hladder s₃ h₃
    · exact hladder s₃ h₃.1
    obtain ⟨hg₃, toks, hr, tok', rfl, hty', hd⟩ := h₃
    -- the token that was peeked is the one that was read
    have htok : tok' = tok := by
      obtain ⟨rest, hrest⟩ := hr.1
      have : jw.tokens[s₂.pos]? = some tok' := by
        rw [← List.head?_drop, ← hrest]
        rfl
      exact Option.some.inj (this.symm.trans ht)
    subst htok
    obtain rfl : type' = type := by
      rw [hty'] at hty
      exact JsmnType.leaf.inj hty
    refine ⟨(hg₁.trans hg₃).perm (List.Perm.swap _ _ _), [tok'], hreads hr, ?_⟩
    exact fun _ => ⟨tok', rfl, hty', hd⟩

theorem JsmnWrapSpec.keyval_succ (h : JsmnWrapSpec grants jw fuel) (s : JsmnState)
    (hneed : 3 * (jw.count - s.pos) + 1 ≤ fuel + 1) :
    Wp (jsmnKeyvalWrap grants jw (fuel + 1)) s
      (JsmnOutcome jw JsmnKeyval.blocks (JsmnKeyval.Stands jw) s) jw.Faults := by
  rw [jsmnKeyvalWrap, wp_bind]
  refine jsmnCalloc_wp (fun s₁ hg _ => hg) fun self s₁ hg₁ hpos₁ => ?_
  show Wp (jsmnWrapperStep grants jw >>= _) _ _ _
  rw [wp_bind]
  refine jsmnWrapperStep_wp.imp ?_
  have hself : ∀ s' : JsmnState, Grew s₁.heap s'.heap [] →
      Wp (do jsmnFree self; return (none : Option JsmnKeyval)) s'
        (JsmnOutcome jw JsmnKeyval.blocks (JsmnKeyval.Stands jw) s) jw.Faults := by
    intro s' hg
    rw [wp_bind]
    exact (jsmnFree_deletes self).shrink (hg₁.trans hg) fun s'' hg' _ => hg'
  rintro (_ | tok | ⟨type, key⟩) s₂ h₂
  · exact hself s₂ h₂
  · exact hself s₂ h₂.1
  obtain ⟨hg₂, toks, hr₂, tok, rfl, hty, hd⟩ := h₂
  -- fail_type and fail_val
  have hladder : ∀ s' : JsmnState, Grew s₂.heap s'.heap [] →
      Wp (do jsmnFree key.addr; jsmnFree self; return (none : Option JsmnKeyval)) s'
        (JsmnOutcome jw JsmnKeyval.blocks (JsmnKeyval.Stands jw) s) jw.Faults := by
    intro s' hg
    have hg' : Grew s.heap s'.heap ([key.addr] ++ [self]) := by
      simpa using ((hg₁.trans hg₂).trans hg).perm (List.Perm.swap _ _ _)
    rw [wp_bind]
    refine (jsmnFree_deletes key.addr).shrink hg' fun s₃ hg₃ _ => ?_
    rw [wp_bind]
    exact (jsmnFree_deletes self).shrink hg₃ fun s₄ hg₄ _ => hg₄
  show Wp (ite _ _ _) _ _ _
  split_ifs with hstr
  · exact hladder s₂ (Grew.refl _)
  have hpos₂ : s₂.pos = s.pos + 1 := by
    rw [hr₂.2, hpos₁]
    rfl
  have hlt : s.pos < jw.count := by
    have hlen := hr₂.1.length_le
    rw [List.length_drop, jw.filled, List.length_singleton] at hlen
    omega
  rw [wp_bind]
  refine (h.val s₂ (by omega)).imp ?_
  rintro (_ | val) s₃ h₃
  · exact hladder s₃ h₃
  obtain ⟨hg₃, toks, hr₃, hs⟩ := h₃
  refine ⟨?_, [tok] ++ toks, ?_, fun hsize => ⟨tok, toks, rfl, ?_, hd, hs hsize⟩⟩
  · refine ((hg₁.trans hg₂).trans hg₃).perm ?_
    exact ((List.Perm.swap _ _ _).append_right _).trans List.perm_append_comm
  · obtain ⟨hpre, hpos⟩ := hr₂.trans hr₃
    rw [hpos₁] at hpre hpos
    exact ⟨hpre, hpos⟩
  · rw [hty, not_not.mp hstr]

theorem jsmnWrap_spec (fuel : Nat) : JsmnWrapSpec grants jw fuel := by
  induction fuel with
  | zero =>
    exact ⟨fun s h => by omega, fun s h => by omega, fun s h hp => by omega,
      fun s h hp => by omega⟩
  | succ fuel ih =>
    refine ⟨ih.val_succ, ih.keyval_succ, fun s hneed hp => ?_, fun s hneed hp => ?_⟩
    · rw [jsmnObjectWrap, jsmnObjectBlocks_eq]
      exact jsmnContainerWrap_wp ih.keyvals .object hneed hp
    · rw [jsmnArrayWrap, jsmnArrayBlocks_eq]
      exact jsmnContainerWrap_wp ih.vals .array hneed hp

end Fuel

/-- The token array that the second call leaves, where both calls agree. -/
def JsmnParse.tokens (parse : JsmnParse) : List JsmnTok :=
  (List.range parse.first.toNat).map parse.fill

/-- Where both calls agree, the tokens whose text is copied lie in the text. -/
def JsmnParse.Bounded (parse : JsmnParse) (str : List UInt8) : Prop :=
  parse.first = parse.second → ∀ tok ∈ parse.tokens, ∀ type, tok.type = .leaf type →
    0 ≤ tok.start ∧ tok.start ≤ tok.stop ∧ tok.stop ≤ str.length

variable {parse : JsmnParse} {str : List UInt8}

def JsmnWrapperOutcome (parse : JsmnParse) (str : List UInt8) (s : JsmnState) :
    Option JsmnWrapperPtr → JsmnState → Prop
  | none, s' => Grew s.heap s'.heap []
  | some self, s' => Grew s.heap s'.heap [self.tokensAddr, self.addr] ∧ s'.pos = 0 ∧
    self.jw.str = str ∧ self.jw.tokens = parse.tokens ∧ 0 < parse.first ∧
    parse.first = parse.second

theorem jsmnWrapperNew_wp {E : JsmnFault → Prop} :
    Wp (jsmnWrapperNew grants parse str) s (JsmnWrapperOutcome parse str s) E := by
  unfold jsmnWrapperNew
  rw [wp_bind]
  refine jsmnCalloc_wp (fun s₁ hg _ => hg) fun self s₁ hg₁ _ => ?_
  have hself : ∀ s' : JsmnState, Grew s₁.heap s'.heap [] →
      Wp (do jsmnFree self; return (none : Option JsmnWrapperPtr)) s'
        (JsmnWrapperOutcome parse str s) E := by
    intro s' hg
    rw [wp_bind]
    exact (jsmnFree_deletes self).shrink (hg₁.trans hg) fun s'' hg' _ => hg'
  show Wp (ite _ _ _) _ _ _
  by_cases hfirst : parse.first ≤ 0
  · rw [if_pos hfirst]
    exact hself s₁ (Grew.refl _)
  rw [if_neg hfirst, wp_bind]
  refine jsmnCalloc_wp (fun s₂ hg₂ _ => hself s₂ hg₂) fun tokens s₂ hg₂ _ => ?_
  have hg : Grew s.heap s₂.heap ([tokens] ++ [self]) := (hg₁.trans hg₂).perm (List.Perm.swap _ _ _)
  dsimp only
  split_ifs with hsecond
  · rw [wp_bind]
    refine (jsmnFree_deletes tokens).shrink hg fun s₃ hg₃ _ => ?_
    rw [wp_bind]
    exact (jsmnFree_deletes self).shrink hg₃ fun s₄ hg₄ _ => hg₄
  · exact ⟨hg, rfl, rfl, rfl, by omega, not_not.mp hsecond⟩

theorem jsmnWrapperDelete_wp {self : JsmnWrapperPtr} {l : Ledger} {bs : List Nat}
    {Q : Unit → JsmnState → Prop} {E : JsmnFault → Prop}
    (hg : Grew l s.heap ([self.tokensAddr, self.addr] ++ bs))
    (hq : ∀ s', Grew l s'.heap bs → Q () s') : Wp (jsmnWrapperDelete self) s Q E := by
  have hd : Deletes [self.tokensAddr, self.addr] (jsmnWrapperDelete self) :=
    (jsmnFree_deletes self.tokensAddr).seq (jsmnFree_deletes self.addr)
  exact hd.shrink hg fun s' hg' _ => hq s' hg'

/-- cc_jsmnVal_new: a value owns the new blocks, and a prefix of the tokens stands for it. -/
theorem jsmnValNew_wp :
    Wp (jsmnValNew grants parse str) s (fun r s' => match r with
      | none => Grew s.heap s'.heap []
      | some v => Grew s.heap s'.heap v.blocks ∧ 0 < parse.first ∧ parse.first = parse.second ∧
        ∃ toks, toks <+: parse.tokens ∧
          ((∀ tok ∈ parse.tokens, 0 ≤ tok.size) → Flattens str v.tree toks))
      (fun e => e = .text ∧ ¬ parse.Bounded str) := by
  unfold jsmnValNew
  rw [wp_bind]
  refine jsmnWrapperNew_wp.imp ?_
  rintro (_ | self) s₁ h₁
  · exact h₁
  obtain ⟨hg₁, hpos, rfl, htok, hfirst, hsecond⟩ := h₁
  show Wp (jsmnValWrap grants self.jw self.jw.fuel >>= _) _ _ _
  have hneed : 3 * (self.jw.count - s₁.pos) + 1 ≤ self.jw.fuel := by
    rw [hpos]
    exact le_refl _
  rw [wp_bind]
  refine ((jsmnWrap_spec self.jw.fuel).val s₁ hneed).mono ?_ ?_
  · rintro (_ | v) s₂ h₂
    · show Wp (jsmnWrapperDelete self >>= _) _ _ _
      rw [wp_bind]
      exact jsmnWrapperDelete_wp (hg₁.trans h₂) fun s₃ hg₃ => hg₃
    · obtain ⟨hg₂, toks, hr, hs⟩ := h₂
      show Wp (jsmnWrapperDelete self >>= _) _ _ _
      rw [wp_bind]
      refine jsmnWrapperDelete_wp (hg₁.trans hg₂) fun s₃ hg₃ => ?_
      refine ⟨hg₃, hfirst, hsecond, toks, ?_, fun hsize => hs ?_⟩
      · have hpre := hr.1
        rwa [hpos, List.drop_zero, htok] at hpre
      · intro tok hmem
        exact hsize tok (htok ▸ hmem)
  · rintro e ⟨rfl, hb⟩
    refine ⟨rfl, fun hbound => hb ?_⟩
    intro tok hmem
    exact hbound hsecond tok (htok ▸ hmem)

/-- cc_jsmnVal_new that fails leaves the live blocks as they were. A value that it returns owns
the new blocks, none of them twice, and cc_jsmnVal_delete gives back each of them once. -/
theorem jsmnValNew_leaks_nothing (grants : Nat → Bool) (parse : JsmnParse) (str : List UInt8)
    (s : JsmnState) (hb : parse.Bounded str) :
    ∃ r s', (jsmnValNew grants parse str).run s = .ok (r, s') ∧
      (r = none → s'.heap.live = s.heap.live) ∧
      ∀ v, r = some v → v.blocks.Nodup ∧ (∀ b ∈ v.blocks, b ∉ s.heap.live) ∧
        s'.heap.live = s.heap.live ∪ v.blocks.toFinset ∧
        ∃ s'', (jsmnValDelete v).run s' = .ok ((), s'') ∧ s''.heap.live = s.heap.live ∧
          ∃ order, order.Perm v.blocks ∧ s''.heap.freed = order ++ s'.heap.freed := by
  obtain ⟨r, s', hrun, hr⟩ := (jsmnValNew_wp.mono (fun _ _ h => h) fun e he => he.2 hb).exists
  refine ⟨r, s', hrun, ?_, ?_⟩
  · rintro rfl
    exact Grew.live_eq hr
  · rintro v rfl
    have hg : Grew s.heap s'.heap (v.blocks ++ []) := by
      rw [List.append_nil]
      exact hr.1
    have hlive : ∀ b ∈ v.blocks, b ∈ s'.heap.live := fun b hb => hr.1.subset (by simp [hb])
    obtain ⟨_, s'', hdel, hs, -⟩ :=
      (jsmnValDelete_deletes v s' (fun _ => False) hr.1.nodup hlive).exists
    exact ⟨hr.1.nodup, fun b hb => hr.1.notMem hb, hr.1.live, s'', hdel, (hg.shrink hs).live_eq,
      hs.freed⟩

/-- The tokens of `[1,2]`. -/
def jsmnPairParse : JsmnParse where
  first := 3
  second := 3
  fill
    | 0 => ⟨.array, 0, 5, 2⟩
    | 1 => ⟨.leaf .primitive, 1, 2, 0⟩
    | _ => ⟨.leaf .primitive, 3, 4, 0⟩

theorem jsmnPairParse_bounded : jsmnPairParse.Bounded [91, 49, 44, 50, 93] := by
  intro _ tok hmem type _
  have htok : jsmnPairParse.tokens =
      [⟨.array, 0, 5, 2⟩, ⟨.leaf .primitive, 1, 2, 0⟩, ⟨.leaf .primitive, 3, 4, 0⟩] := rfl
  simp only [htok, List.mem_cons, List.not_mem_nil, or_false] at hmem
  rcases hmem with rfl | rfl | rfl <;> simp

/-- The sixth request fails, which is the one for the first element. -/
theorem jsmnValNew_leaks_nothing_pair : ∃ s',
    (jsmnValNew (fun n => n ≠ 5) jsmnPairParse [91, 49, 44, 50, 93]).run ⟨⟨∅, 0, [], by simp⟩, 0⟩ =
      .ok (none, s') ∧ s'.heap.live = ∅ := by
  obtain ⟨r, s', hrun, hnone, -⟩ := jsmnValNew_leaks_nothing (fun n => n ≠ 5) jsmnPairParse
    [91, 49, 44, 50, 93] ⟨⟨∅, 0, [], by simp⟩, 0⟩ jsmnPairParse_bounded
  have hr : ((jsmnValNew (fun n => n ≠ 5) jsmnPairParse [91, 49, 44, 50, 93]).run
      ⟨⟨∅, 0, [], by simp⟩, 0⟩).map Prod.fst = .ok none := rfl
  rw [hrun] at hr
  obtain rfl : r = none := Except.ok.inj hr
  exact ⟨s', hrun, hnone rfl⟩

end LibCC
