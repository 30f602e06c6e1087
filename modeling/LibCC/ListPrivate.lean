import LibCC.ListAccount

/-! What a list function does that finds its iters in its own lists: cells
change their order, their list or their kind of chain, and no cell comes or
goes. -/

namespace LibCC

open DoublyLinked SequenceFamily

variable {τ ι α : Type}

/-- The lists that `U` names exchange cells among themselves. -/
structure Regrouped (e : ListSpare ι) (σ : ListSeqs ι α) (e' : ListSpare ι) (σ' : ListSeqs ι α)
    (U : ι → Prop) : Prop where
  free : e'.free = e.free
  pool : e'.pool = e.pool
  link : e'.link = e.link
  mem : ∀ p, (∃ list, p ∈ σ'.seq list ∨ p ∈ e'.cache list) ↔
    ∃ list, p ∈ σ.seq list ∨ p ∈ e.cache list
  frame : ∀ list, ¬ U list → σ'.seq list = σ.seq list ∧ e'.cache list = e.cache list

section

variable {st : ListStore ι α} {live : Finset ι} {e e' : ListSpare ι} {σ σ' : ListSeqs ι α}
  {held : τ → List IterPtr} {U : ι → Prop}

theorem Regrouped.of_eq (hs : σ'.seq = σ.seq) : Regrouped e σ e σ' U :=
  ⟨rfl, rfl, rfl, fun p => by rw [hs], fun list _ => ⟨by rw [hs], rfl⟩⟩

theorem Regrouped.cells (h : Regrouped e σ e' σ' U) (p : IterPtr) :
    (∃ k, p ∈ e'.cells σ' k) ↔ ∃ k, p ∈ e.cells σ k := by
  have hsplit : ∀ (e : ListSpare ι) (σ : ListSeqs ι α), (∃ k, p ∈ e.cells σ k) ↔
      (∃ list, p ∈ σ.seq list ∨ p ∈ e.cache list) ∨ p ∈ e.free := by
    intro e σ
    constructor
    · rintro ⟨list | list | _, hp⟩
      · exact .inl ⟨list, .inl hp⟩
      · exact .inl ⟨list, .inr hp⟩
      · exact .inr hp
    · rintro (⟨list, hp | hp⟩ | hp)
      · exact ⟨.linked list, hp⟩
      · exact ⟨.cached list, hp⟩
      · exact ⟨.pooled, hp⟩
  rw [hsplit, hsplit, h.mem, h.free]

theorem separated_places {e : ListSpare ι} {σ : ListSeqs ι α} (hc : Separated (e.cells σ))
    (hh : Separated held) (hd : ∀ t, ∀ p ∈ held t, Detached (e.cells σ) p) :
    Separated (e.places σ held) := by
  constructor
  · rintro (k | t)
    · exact hc.1 k
    · exact hh.1 t
  · rintro (k | t) (k' | t') p hp hp'
    · exact congrArg Sum.inl (hc.2 k k' p hp hp')
    · exact absurd hp (hd t' p hp' k)
    · exact absurd hp' (hd t p hp k')
    · exact congrArg Sum.inr (hh.2 t t' p hp hp')

theorem PoolInv.held_separated (h : PoolInv st live e σ held) : Separated held :=
  h.separated.comp Sum.inr_injective

theorem PoolInv.held_detached (h : PoolInv st live e σ held) {t : τ} {p : IterPtr}
    (hp : p ∈ held t) : Detached (e.cells σ) p := fun k =>
  fun hk => Sum.inr_ne_inl (h.separated.2 (.inr t) (.inl k) p hp hk)

/-- The account after a regrouping, and what the threads hold as it was. -/
theorem PoolInv.regroup {st' : ListStore ι α} (h : PoolInv st live e σ held)
    (hr : RepAt 0 e' σ' st') (hg : Regrouped e σ e' σ' U) (hU : ∀ list, U list → list ∈ live) :
    PoolInv st' live e' σ' held ∧ ∀ t, ∀ p ∈ held t, st'.next p = st.next p := by
  have hpool : st'.pool = st.pool := hr.pool.trans (hg.pool.trans h.rep.pool.symm)
  have hdet : ∀ t, ∀ p ∈ held t, Detached (e'.cells σ') p := by
    intro t p hp k hk
    obtain ⟨k', hk'⟩ := (hg.cells p).mp ⟨k, hk⟩
    exact h.held_detached hp k' hk'
  refine ⟨⟨hr, separated_places hr.inv.separated h.held_separated hdet, fun p => ?_, ?_, ?_,
    fun list hl => ?_⟩, fun t p hp => ?_⟩
  · rw [hpool, ← h.cover p]
    have hsum : ∀ (e : ListSpare ι) (σ : ListSeqs ι α), (∃ k, p ∈ e.places σ held k) ↔
        (∃ k, p ∈ e.cells σ k) ∨ ∃ t, p ∈ held t := fun _ _ => Sum.exists
    rw [hsum, hsum, hg.cells]
  · rw [hpool]
    exact h.blocks
  · rw [hpool]
    exact h.total
  · obtain ⟨hs, hc⟩ := hg.frame list fun hu => hl (hU list hu)
    rw [hs, hc]
    exact h.dead list hl
  · rw [hr.link rfl p (hdet t p hp), hg.link, h.rep.link rfl p (h.held_detached hp)]

theorem follows_unique {P : Type*} {f : P → Option P} {o : Option P} {l l' : List P}
    (h : Follows f o l) (h' : Follows f o l') : l = l' := by
  induction l generalizing o l' with
  | nil =>
    have ho : o = none := h
    subst ho
    cases l' with
    | nil => rfl
    | cons y l' => exact absurd h'.1 (by simp)
  | cons x l ih =>
    cases l' with
    | nil =>
      have ho : o = none := h'
      rw [ho] at h
      exact absurd h.1 (by simp)
    | cons y l' =>
      obtain rfl : x = y := Option.some.inj (h.1.symm.trans h'.1)
      rw [ih h.2 h'.2]

theorem Represents.seq_eq {σ₀ : ListSeqs ι α} (h₀ : Represents σ₀ st) (h : Represents σ st) :
    σ₀.seq = σ.seq := by
  funext list
  exact follows_unique (h₀.forward list) (h.forward list)

theorem cells_congr {σ₀ : ListSeqs ι α} (hseq : σ₀.seq = σ.seq) : e.cells σ = e.cells σ₀ :=
  cells_eq (fun list => by rw [hseq]; rfl) (fun _ => rfl) rfl

theorem RepAt.change {flags : Nat} {σ₀ : ListSeqs ι α} (h : RepAt flags e σ st)
    (h₀ : Represents σ₀ st) : RepAt flags e σ₀ st := by
  have hcells : e.cells σ = e.cells σ₀ := cells_congr (h₀.seq_eq h.rep.represents)
  exact ⟨hcells ▸ h.inv, h₀.data, h.pool, hcells ▸ h.link⟩

theorem PoolInv.change {σ₀ : ListSeqs ι α} (h : PoolInv st live e σ held)
    (h₀ : Represents σ₀ st) : PoolInv st live e σ₀ held := by
  have hseq := h₀.seq_eq h.rep.rep.represents
  have hplaces : e.places σ held = e.places σ₀ held := by
    rw [ListSpare.places, ListSpare.places, cells_congr hseq]
  refine ⟨h.rep.change h₀, hplaces ▸ h.separated, fun p => ?_, h.blocks, h.total, ?_⟩
  · rw [← hplaces]
    exact h.cover p
  · rw [hseq]
    exact h.dead

end

section

variable [DecidableEq ι] {st : ListStore ι α} {e : ListSpare ι} {σ : ListSeqs ι α}

theorem recache_zero (e : ListSpare ι) (list : ι) (l : List IterPtr) :
    e.recache 0 list l = { e with cache := Function.update e.cache list (l ++ e.cache list) } :=
  if_neg (by decide)

theorem Regrouped.of_list {σ' : ListSeqs ι α} {self : ι} {l u : List IterPtr}
    (hs : σ'.seq = Function.update σ.seq self l)
    (hp : (l ++ u).Perm (σ.seq self ++ e.cache self)) {U : ι → Prop} (hU : U self) :
    Regrouped e σ { e with cache := Function.update e.cache self u } σ' U := by
  refine ⟨rfl, rfl, rfl, fun p => ?_, fun list hl => ?_⟩
  · refine exists_congr fun list => ?_
    by_cases he : list = self
    · subst he
      rw [hs, Function.update_self]
      simpa using hp.mem_iff (a := p)
    · rw [hs, Function.update_of_ne he]
      simp [he]
  · have he : list ≠ self := fun he => hl (he ▸ hU)
    rw [hs, Function.update_of_ne he]
    exact ⟨rfl, Function.update_of_ne he _ _⟩

theorem Regrouped.of_perm {self : ι} {l : List IterPtr} (hp : l.Perm (σ.seq self)) {U : ι → Prop}
    (hU : U self) : Regrouped e σ e (σ.setSeq self l) U := by
  have hs : (σ.setSeq self l).seq = Function.update σ.seq self l := rfl
  have h := Regrouped.of_list (e := e) (u := e.cache self) hs (hp.append_right _) hU
  rwa [Function.update_eq_self] at h

theorem Regrouped.of_pair {a b : ι} (hab : a ≠ b) {l l' : List IterPtr}
    (hp : (l ++ l').Perm (σ.seq a ++ σ.seq b)) {U : ι → Prop} (ha : U a) (hb : U b) :
    Regrouped e σ e ((σ.setSeq a l).setSeq b l') U := by
  have hb' : ((σ.setSeq a l).setSeq b l').seq b = l' := by simp
  have ha' : ((σ.setSeq a l).setSeq b l').seq a = l := by simp [hab]
  have hne : ∀ list, list ≠ a → list ≠ b →
      ((σ.setSeq a l).setSeq b l').seq list = σ.seq list := by
    intro list h₁ h₂
    simp [h₁, h₂]
  have hmem : ∀ p, (p ∈ l ∨ p ∈ l') ↔ p ∈ σ.seq a ∨ p ∈ σ.seq b := fun p => by
    simpa using hp.mem_iff (a := p)
  have hiff : ∀ p, (∃ list, p ∈ ((σ.setSeq a l).setSeq b l').seq list) ↔
      ∃ list, p ∈ σ.seq list := by
    intro p
    constructor
    · rintro ⟨list, hl⟩
      by_cases h₁ : list = a
      · rw [h₁, ha'] at hl
        rcases (hmem p).mp (.inl hl) with h | h
        exacts [⟨a, h⟩, ⟨b, h⟩]
      · by_cases h₂ : list = b
        · rw [h₂, hb'] at hl
          rcases (hmem p).mp (.inr hl) with h | h
          exacts [⟨a, h⟩, ⟨b, h⟩]
        · exact ⟨list, by rwa [hne list h₁ h₂] at hl⟩
    · rintro ⟨list, hl⟩
      by_cases h₁ : list = a
      · rw [h₁] at hl
        rcases (hmem p).mpr (.inl hl) with h | h
        exacts [⟨a, ha'.symm ▸ h⟩, ⟨b, hb'.symm ▸ h⟩]
      · by_cases h₂ : list = b
        · rw [h₂] at hl
          rcases (hmem p).mpr (.inr hl) with h | h
          exacts [⟨a, ha'.symm ▸ h⟩, ⟨b, hb'.symm ▸ h⟩]
        · exact ⟨list, by rwa [hne list h₁ h₂]⟩
  refine ⟨rfl, rfl, rfl, fun p => ?_, fun list hl => ⟨?_, rfl⟩⟩
  · rw [exists_or, exists_or, hiff]
  · exact hne list (fun he => hl (he ▸ ha)) (fun he => hl (he ▸ hb))

theorem listIterNew_cached (h : RepAt 0 e σ st) {list : ι} {a b : List IterPtr}
    (hl : σ.seq list = a ++ b) (hi : (st.lists list).iters ≠ none) (d : α) (alloc : Option Nat) :
    ∃ self rest, e.cache list = self :: rest ∧
      RepAt 0 { e with cache := Function.update e.cache list rest }
        ((σ.setData self d).setSeq list (a ++ self :: b))
        (listIterNew list a.getLast? b.head? d alloc st).2 := by
  obtain ⟨self, hs⟩ := Option.ne_none_iff_exists'.mp hi
  obtain ⟨rest, hc, hn⟩ := listIterAlloc_cached h.inv hs
  refine ⟨self, rest, hc, ?_⟩
  have hflags : (st.lists list).cMalloc = false := by
    rw [CcList.cMalloc, h.inv.sameFlags]
    rfl
  rw [cells_cache] at hn
  have hlink : ∀ p, Detached (ListSpare.cells
      { e with cache := Function.update e.cache list rest } σ) p → p ≠ self →
      st.next p = e.link p := by
    intro p hp hps
    refine h.link rfl p (Detached.of_update (by rwa [cells_cache]) ?_)
    have hpr : p ∉ rest := by
      have hpm := hp (.cached list)
      rw [← cells_cache, Function.update_self] at hpm
      exact hpm
    rw [hc]
    simp [hps, hpr]
  have hheld := hn.held (fun _ => rfl) h.data (show _ = e.pool from h.pool) (fun _ => hlink) d
  have hadd := listIterAdd_rep hheld (by simp [ListStore.setData]) (show _ = a ++ b from hl)
  rw [← listIterAdd_setData] at hadd
  simpa [listIterNew, listIterAlloc, hflags, hs] using hadd

/-- Where a call that needs a new iter will link it. -/
theorem ListCall.newIter_split (h : RepAt 0 e σ st) {call : ListCall ι α} (hl : call.Legal σ)
    {list : ι} {prev next : Option IterPtr} {data : α}
    (hn : call.newIter st = some (list, prev, next, data)) :
    (∀ l, call.Uses σ l ↔ l = list) ∧
      (∀ alloc, (call.exec alloc st).2 = (listIterNew list prev next data alloc st).2) ∧
      ∃ a b, σ.seq list = a ++ b ∧ prev = a.getLast? ∧ next = b.head? := by
  cases call with
  | insert self iter data' =>
    obtain ⟨hlinks, -, hh⟩ := h.links self
    cases iter with
    | none =>
      obtain ⟨rfl, rfl, rfl, rfl⟩ := hn
      exact ⟨fun _ => Iff.rfl, fun _ => rfl, [], _, rfl, rfl, hh.head⟩
    | some p =>
      obtain ⟨rfl, rfl, rfl, rfl⟩ := hn
      obtain ⟨a, b, hab, -⟩ := split_of_mem (hl p rfl)
      rw [hab] at hlinks
      exact ⟨fun _ => Iff.rfl, fun _ => rfl, a, p :: b, hab, hlinks.neighbours.1, rfl⟩
  | append self iter data' =>
    obtain ⟨hlinks, -, hh⟩ := h.links self
    cases iter with
    | none =>
      obtain ⟨rfl, rfl, rfl, rfl⟩ := hn
      exact ⟨fun _ => Iff.rfl, fun _ => rfl, _, [], (List.append_nil _).symm, hh.tail, rfl⟩
    | some p =>
      obtain ⟨rfl, rfl, rfl, rfl⟩ := hn
      obtain ⟨a, b, hab, -⟩ := split_of_mem (hl p rfl)
      rw [hab] at hlinks
      exact ⟨fun _ => Iff.rfl, fun _ => rfl, a ++ [p], b, by simp [hab], by simp,
        hlinks.neighbours.2⟩
  | _ => exact absurd hn (by simp [ListCall.newIter])

/-- A call that stays away from the pool regroups the cells of the lists that it uses. -/
theorem ListCall.exec_at (h : RepAt 0 e σ st) {call : ListCall ι α} (hl : call.Legal σ)
    (hp : ∀ list prev next data, ¬ call.Gets st list prev next data) :
    ∃ e' σ', RepAt 0 e' σ' (call.exec none st).2 ∧ Regrouped e σ e' σ' (call.Uses σ) := by
  have hnew : ∀ list prev next data, call.newIter st = some (list, prev, next, data) →
      ∃ e' σ', RepAt 0 e' σ' (call.exec none st).2 ∧ Regrouped e σ e' σ' (call.Uses σ) := by
    intro list prev next data hn
    obtain ⟨huses, hexec, a, b, hab, rfl, rfl⟩ := newIter_split h hl hn
    obtain ⟨self, rest, hc, hr⟩ :=
      listIterNew_cached h hab (fun hi => hp _ _ _ _ ⟨hn, hi⟩) data none
    rw [← hexec none] at hr
    refine ⟨_, _, hr, Regrouped.of_list rfl ?_ ((huses list).mpr rfl)⟩
    rw [hab, hc, List.append_assoc, List.append_assoc]
    have hmid : (self :: (b ++ rest)).Perm (b ++ self :: rest) := List.perm_middle.symm
    exact hmid.append_left a
  have hmoved : ∀ {self : ι} {src : IterPtr} {l : List IterPtr}, src ∈ σ.seq self →
      l.Perm (src :: (σ.seq self).erase src) → l.Perm (σ.seq self) :=
    fun hs hperm => hperm.trans (List.perm_cons_erase hs).symm
  cases call with
  | insert self iter data =>
    cases iter <;> exact hnew _ _ _ _ rfl
  | append self iter data =>
    cases iter <;> exact hnew _ _ _ _ rfl
  | replace iter data =>
    obtain ⟨list, hm⟩ := hl
    exact ⟨e, _, (listReplace_rep h hm data).2, Regrouped.of_eq rfl⟩
  | remove self iter =>
    obtain ⟨st', he, hr⟩ := listRemove_rep h hl
    have hexec : ((ListCall.remove self iter).exec none st).2 = st' := by
      simp only [ListCall.exec, he]
    rw [hexec]
    rw [recache_zero] at hr
    refine ⟨_, _, hr, Regrouped.of_list rfl ?_ rfl⟩
    exact List.perm_middle.trans ((List.perm_cons_erase hl).symm.append_right _)
  | discard self =>
    have hr := listDiscard_rep h self
    rw [recache_zero] at hr
    refine ⟨_, _, hr, Regrouped.of_list rfl ?_ rfl⟩
    exact (List.reverse_perm _).append_right _
  | move self src dst =>
    refine ⟨e, _, listMove_rep h hl.1 hl.2, ?_⟩
    unfold ListSeqs.move
    split_ifs
    · exact Regrouped.of_eq rfl
    · exact Regrouped.of_perm (hmoved hl.1 (insertBefore_perm _ _ _)) rfl
  | moven self src dst =>
    refine ⟨e, _, listMoven_rep h hl.1 hl.2, ?_⟩
    unfold ListSeqs.moven
    split_ifs
    · exact Regrouped.of_eq rfl
    · exact Regrouped.of_perm (hmoved hl.1 (insertAfter_perm _ _ _)) rfl
  | swap fromList toList src dst =>
    refine ⟨e, _, listSwap_rep h hl.1 hl.2, ?_⟩
    unfold ListSeqs.swap ListSeqs.move
    split_ifs with hft hs
    · exact Regrouped.of_eq rfl
    · exact Regrouped.of_perm (hmoved hl.1 (insertBefore_perm _ _ _)) (.inl rfl)
    · refine Regrouped.of_pair hft ?_ (.inl rfl) (.inr rfl)
      refine ((insertBefore_perm src dst _).append_left _).trans ?_
      exact List.perm_middle.trans ((List.perm_cons_erase hl.1).symm.append_right _)
  | swapn fromList toList src dst =>
    refine ⟨e, _, listSwapn_rep h hl.1 hl.2, ?_⟩
    unfold ListSeqs.swapn ListSeqs.moven
    split_ifs with hft hs
    · exact Regrouped.of_eq rfl
    · exact Regrouped.of_perm (hmoved hl.1 (insertAfter_perm _ _ _)) (.inl rfl)
    · refine Regrouped.of_pair hft ?_ (.inl rfl) (.inr rfl)
      refine ((insertAfter_perm src dst _).append_left _).trans ?_
      exact List.perm_middle.trans ((List.perm_cons_erase hl.1).symm.append_right _)
  | appendList self src =>
    refine ⟨e, _, listAppendList_rep h hl, Regrouped.of_pair hl ?_ (.inl rfl) (.inr rfl)⟩
    rw [List.append_nil]
  | insertList self src =>
    refine ⟨e, _, listInsertList_rep h hl, Regrouped.of_pair hl ?_ (.inl rfl) (.inr rfl)⟩
    rw [List.append_nil]
    exact List.perm_append_comm

end

end LibCC
