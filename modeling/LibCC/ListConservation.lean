import LibCC.ListSections

/-! Every interleaving of threads keeps the account of the iter pool. -/

namespace LibCC

open DoublyLinked SequenceFamily

variable {τ ι α : Type}

/-- What is true of a thread that stands at a point and has the chain `h` in its hands. -/
def PcInv (link : IterPtr → Option IterPtr) (live : Finset ι) (e : ListSpare ι) (σ : ListSeqs ι α)
    (h : List IterPtr) : ListPc ι α → Prop
  | .idle => h = []
  | .getting list prev next _ =>
    h = [] ∧ list ∈ live ∧ ∃ a b, σ.seq list = a ++ b ∧ prev = a.getLast? ∧ next = b.head?
  | .adding list prev next _ self =>
    list ∈ live ∧ self = h.head? ∧ h.length ≤ listSetSize ∧ Follows link h.head? h ∧
      ∃ a b, σ.seq list = a ++ b ∧ prev = a.getLast? ∧ next = b.head?
  | .putting list iters tail count =>
    h = [] ∧ list ∈ live ∧ σ.seq list = [] ∧ (e.cache list).head? = some iters ∧
      (e.cache list).getLast? = some tail ∧ (e.cache list).length = count

structure ListSysInv (s : ListSys τ ι α) (e : ListSpare ι) (σ : ListSeqs ι α)
    (held : τ → List IterPtr) : Prop where
  pool : PoolInv s.store s.live e σ held
  pcs : ∀ t, PcInv s.store.next s.live e σ (held t) (s.pc t)
  alone : ∀ t t' list, (s.pc t).list? = some list → (s.pc t').list? = some list → t = t'

/-- A step frees the blocks of the pool exactly if it is a put that leaves no reference. -/
def FreesAtZero (s : ListSys τ ι α) (t : τ) (s' : ListSys τ ι α) : Prop :=
  ∀ block ∈ s.store.pool.blocks, block ∉ s'.store.pool.blocks ↔
    (∃ list iters tail count, s.pc t = .putting list iters tail count) ∧
      s'.store.pool.refcount = 0

section

variable {s s' : ListSys τ ι α} {t : τ} {e e' : ListSpare ι} {σ σ' : ListSeqs ι α}
  {held held' : τ → List IterPtr}

theorem PcInv.frame {link link' : IterPtr → Option IterPtr} {live live' : Finset ι}
    {h : List IterPtr} {pc : ListPc ι α} (hp : PcInv link live e σ h pc)
    (hn : ∀ p ∈ h, link' p = link p)
    (hl : ∀ list, pc.list? = some list → list ∈ live →
      list ∈ live' ∧ σ'.seq list = σ.seq list ∧ e'.cache list = e.cache list) :
    PcInv link' live' e' σ' h pc := by
  cases pc with
  | idle => exact hp
  | getting list prev next data =>
    obtain ⟨hh, hlive, hab⟩ := hp
    obtain ⟨hlive', hs, -⟩ := hl list rfl hlive
    exact ⟨hh, hlive', hs ▸ hab⟩
  | adding list prev next data self =>
    obtain ⟨hlive, hself, hlen, hf, hab⟩ := hp
    obtain ⟨hlive', hs, -⟩ := hl list rfl hlive
    exact ⟨hlive', hself, hlen, hf.congr hn, hs ▸ hab⟩
  | putting list iters tail count =>
    obtain ⟨hh, hlive, hseq, hhead, htail, hcount⟩ := hp
    obtain ⟨hlive', hs, hc⟩ := hl list rfl hlive
    exact ⟨hh, hlive', hs ▸ hseq, hc ▸ hhead, hc ▸ htail, hc ▸ hcount⟩

theorem ListSysInv.new (data : IterPtr → α) : ListSysInv (ListSys.new : ListSys τ ι α)
    ⟨fun _ => [], [], ⟨0, 0, none, []⟩, fun _ => none⟩ (ListSeqs.empty data) (fun _ => []) := by
  have hnil : ∀ k, ListSpare.cells ⟨fun _ => [], [], ⟨0, 0, none, []⟩, fun _ => none⟩
      (ListSeqs.empty data : ListSeqs ι α) k = [] := by
    rintro (list | list | _) <;> rfl
  have hplaces : ∀ k, ListSpare.places ⟨fun _ => [], [], ⟨0, 0, none, []⟩, fun _ => none⟩
      (ListSeqs.empty data : ListSeqs ι α) (fun _ : τ => []) k = [] := by
    rintro (k | t)
    · exact hnil k
    · rfl
  refine ⟨⟨⟨⟨⟨fun k => ?_, ?_⟩, fun _ => trivial, fun _ => ⟨rfl, rfl, rfl⟩, fun _ => rfl,
    fun _ => rfl, rfl, rfl, ?_⟩, ?_, rfl, fun _ _ _ => rfl⟩, ⟨fun k => ?_, ?_⟩, fun p => ?_,
    List.nodup_nil, rfl, fun _ _ => ⟨rfl, rfl⟩⟩, fun _ => rfl, ?_⟩
  · rw [hnil]
    exact List.nodup_nil
  · simp [hnil]
  · simp [hnil]
  · simp [ListSeqs.empty]
  · rw [hplaces]
    exact List.nodup_nil
  · simp [hplaces]
  · simp [hplaces, poolCells, ListSys.new, ListStore.new]
  · simp [ListSys.new, ListPc.list?]

/-- What is left to show of a step of thread `t`: the lists of the others are as they were. -/
theorem ListSysInv.move (h : ListSysInv s e σ held) (hp : PoolInv s'.store s'.live e' σ' held')
    (hpc : ∀ t', t' ≠ t → s'.pc t' = s.pc t' ∧ held' t' = held t' ∧
      ∀ p ∈ held t', s'.store.next p = s.store.next p)
    (hl : ∀ t', t' ≠ t → ∀ list, (s.pc t').list? = some list → list ∈ s.live →
      list ∈ s'.live ∧ σ'.seq list = σ.seq list ∧ e'.cache list = e.cache list)
    (ht : PcInv s'.store.next s'.live e' σ' (held' t) (s'.pc t))
    (ha : ∀ list, (s'.pc t).list? = some list → ∀ t', t' ≠ t → (s.pc t').list? ≠ some list) :
    ListSysInv s' e' σ' held' := by
  refine ⟨hp, fun t' => ?_, fun t₁ t₂ list h₁ h₂ => ?_⟩
  · by_cases he : t' = t
    · subst he
      exact ht
    · obtain ⟨hs, hh, hn⟩ := hpc t' he
      rw [hs, hh]
      exact (h.pcs t').frame hn (hl t' he)
  · by_cases he₁ : t₁ = t <;> by_cases he₂ : t₂ = t
    · rw [he₁, he₂]
    · rw [(hpc t₂ he₂).1] at h₂
      exact absurd h₂ (ha list (he₁ ▸ h₁) t₂ he₂)
    · rw [(hpc t₁ he₁).1] at h₁
      exact absurd h₁ (ha list (he₂ ▸ h₂) t₁ he₁)
    · rw [(hpc t₁ he₁).1] at h₁
      rw [(hpc t₂ he₂).1] at h₂
      exact h.alone t₁ t₂ list h₁ h₂

theorem ListSysInv.change {σ₀ : ListSeqs ι α} (h : ListSysInv s e σ held)
    (h₀ : Represents σ₀ s.store) : ListSysInv s e σ₀ held := by
  have hseq := h₀.seq_eq h.pool.rep.rep.represents
  refine ⟨h.pool.change h₀, fun t => (h.pcs t).frame (fun _ _ => rfl) fun list _ hl => ?_, h.alone⟩
  exact ⟨hl, by rw [hseq], rfl⟩

theorem FreesAtZero.of_subset
    (hpc : ∀ list iters tail count, s.pc t ≠ .putting list iters tail count)
    (hb : s.store.pool.blocks ⊆ s'.store.pool.blocks) : FreesAtZero s t s' := by
  intro block hm
  constructor
  · exact fun hn => absurd (hb hm) hn
  · rintro ⟨⟨list, iters, tail, count, hp⟩, -⟩
    exact absurd hp (hpc list iters tail count)

theorem FreesAtZero.of_put {list : ι} {iters tail : IterPtr} {count : Nat}
    (ht : s.pc t = .putting list iters tail count)
    (hb : s'.store.pool.blocks =
      if s'.store.pool.refcount = 0 then [] else s.store.pool.blocks) : FreesAtZero s t s' := by
  intro block hm
  rw [hb]
  constructor
  · intro hn
    refine ⟨⟨list, iters, tail, count, ht⟩, ?_⟩
    by_contra hne
    rw [if_neg hne] at hn
    exact hn hm
  · rintro ⟨-, hz⟩
    rw [if_pos hz]
    exact List.not_mem_nil

theorem RepAt.header {st : ListStore ι α} (h : RepAt 0 e σ st) {list : ι}
    (hs : σ.seq list = []) (hc : e.cache list = []) : st.lists list = CcList.new 0 := by
  obtain ⟨-, -, hh⟩ := h.links list
  have hcached : Follows st.next (st.lists list).iters (e.cache list) := h.inv.cached list
  rw [hc] at hcached
  rw [hs] at hh
  have hf := h.inv.sameFlags list
  have hhead := hh.head
  have htail := hh.tail
  have hsize := hh.size
  have hiters : (st.lists list).iters = none := hcached
  revert hf hhead htail hsize hiters
  generalize st.lists list = header
  obtain ⟨flags, size, head, tail, iters⟩ := header
  rintro rfl rfl rfl rfl rfl
  rfl

end

section

variable [DecidableEq ι] {s s' : ListSys τ ι α} {t : τ} {e : ListSpare ι} {σ : ListSeqs ι α}
  {held : τ → List IterPtr}

omit [DecidableEq ι] in
/-- A call by an idle thread that regroups the cells of available lists. -/
theorem ListSysInv.regroup (h : ListSysInv s e σ held) (ht : s.pc t = .idle)
    {e' : ListSpare ι} {σ' : ListSeqs ι α} {st' : ListStore ι α} {U : ι → Prop}
    (hr : RepAt 0 e' σ' st') (hg : Regrouped e σ e' σ' U)
    (hU : ∀ list, U list → s.Available list) :
    ListSysInv { s with store := st' } e' σ' held ∧ st'.pool = s.store.pool := by
  obtain ⟨hp, hn⟩ := h.pool.regroup hr hg fun list hu => (hU list hu).1
  have hidle : held t = [] := by
    have hpc := h.pcs t
    rwa [ht] at hpc
  refine ⟨h.move hp (fun t' _ => ⟨rfl, rfl, hn t'⟩) (fun t' _ list hlist hlive => ?_) (t := t) ?_
    ?_, hr.pool.trans (hg.pool.trans h.pool.rep.pool.symm)⟩
  · exact ⟨hlive, hg.frame list fun hu => (hU list hu).2 t' hlist⟩
  · show PcInv _ _ _ _ _ (s.pc t)
    rw [ht]
    exact hidle
  · intro list hlist
    have hlist : (s.pc t).list? = some list := hlist
    rw [ht] at hlist
    exact absurd hlist (by simp [ListPc.list?])

theorem listDeleteIters_rep {st : ListStore ι α} (h : RepAt 0 e σ st) (list : ι) :
    ∃ e' σ', RepAt 0 e' σ' (listDeleteIters list st) ∧ Regrouped e σ e' σ' (· = list) ∧
      σ'.seq list = [] := by
  obtain ⟨-, -, hh⟩ := h.links list
  unfold listDeleteIters
  split_ifs with hs
  · have hr := listDiscard_rep h list
    rw [recache_zero] at hr
    refine ⟨_, _, hr, Regrouped.of_list rfl ?_ rfl, ?_⟩
    · exact (List.reverse_perm _).append_right _
    · exact Function.update_self _ _ _
  · refine ⟨e, σ, h, Regrouped.of_eq rfl, hh.eq_nil ?_⟩
    have hsize := hh.size
    omega

theorem ListSysInv.new_list (h : ListSysInv s e σ held) {list : ι} (hl : list ∉ s.live) :
    ListSysInv { s with store := listNewFlags 0 list s.store, live := insert list s.live }
      e σ held := by
  obtain ⟨hseq, hcache⟩ := h.pool.dead list hl
  have hst : listNewFlags 0 list s.store = s.store := by
    unfold listNewFlags ListStore.setList
    rw [← h.pool.rep.header hseq hcache, Function.update_eq_self]
  rw [hst]
  refine ⟨{ h.pool with dead := fun m hm => h.pool.dead m fun hl => hm ?_ }, fun t => ?_, h.alone⟩
  · exact Finset.mem_insert_of_mem hl
  · exact (h.pcs t).frame (fun _ _ => rfl) fun m _ hm => ⟨Finset.mem_insert_of_mem hm, rfl, rfl⟩

variable [DecidableEq τ]

omit [DecidableEq τ] in
theorem ListSysInv.call (h : ListSysInv s e σ held) (ht : s.pc t = .idle) {call : ListCall ι α}
    (hp : s.Permits call) (hg : ∀ list prev next data, ¬ call.Gets s.store list prev next data) :
    ∃ e' σ', ListSysInv { s with store := (call.exec none s.store).2 } e' σ' held ∧
      (call.exec none s.store).2.pool = s.store.pool := by
  obtain ⟨σ₀, h₀, hlegal, huses⟩ := hp
  have hc := h.change h₀
  obtain ⟨e', σ', hr, hreg⟩ := ListCall.exec_at hc.pool.rep hlegal hg
  exact ⟨e', σ', hc.regroup ht hr hreg huses⟩

theorem ListSysInv.start (h : ListSysInv s e σ held) (ht : s.pc t = .idle) {call : ListCall ι α}
    (hp : s.Permits call) {list : ι} {prev next : Option IterPtr} {data : α}
    (hg : call.Gets s.store list prev next data) :
    ∃ σ', ListSysInv (s.setPc t (.getting list prev next data)) e σ' held := by
  obtain ⟨σ₀, h₀, hlegal, huses⟩ := hp
  have hc := h.change h₀
  obtain ⟨hu, -, hab⟩ := ListCall.newIter_split hc.pool.rep hlegal hg.1
  obtain ⟨hlive, hfree⟩ := huses list ((hu list).mpr rfl)
  have hidle : held t = [] := by
    have hpc := h.pcs t
    rwa [ht] at hpc
  refine ⟨σ₀, hc.move hc.pool (fun t' he => ⟨Function.update_of_ne he _ _, rfl, fun _ _ => rfl⟩)
    (fun _ _ _ _ hl => ⟨hl, rfl, rfl⟩) (t := t) ?_ ?_⟩
  · show PcInv _ _ _ _ _ (Function.update s.pc t _ t)
    rw [Function.update_self]
    exact ⟨hidle, hlive, hab⟩
  · intro m hm t' _
    have hm : (Function.update s.pc t (ListPc.getting list prev next data) t).list? = some m := hm
    rw [Function.update_self] at hm
    obtain rfl : list = m := Option.some.inj hm
    exact hfree t'

theorem ListSysInv.get (h : ListSysInv s e σ held) {list : ι} {prev next : Option IterPtr}
    {data : α} {alloc : Option Nat} (ht : s.pc t = .getting list prev next data)
    (hf : ∀ block, alloc = some block → FreshBlock s.store block) :
    (∃ e' held', ListSysInv ({ s with store := (listPoolGet alloc s.store).2 }.setPc t
        (.adding list prev next data (listPoolGet alloc s.store).1)) e' σ held') ∧
      s.store.pool.blocks ⊆ (listPoolGet alloc s.store).2.pool.blocks := by
  have hpc := h.pcs t
  rw [ht] at hpc
  obtain ⟨hheld, hlive, hab⟩ := hpc
  have halone : ∀ m, (ListPc.adding list prev next data (listPoolGet alloc s.store).1).list? =
      some m → ∀ t', t' ≠ t → (s.pc t').list? ≠ some m := by
    intro m hm t' he hm'
    obtain rfl : list = m := Option.some.inj hm
    exact he (h.alone t' t list hm' (by rw [ht]; rfl))
  rcases h.pool.get hheld hf with hnone | ⟨set, e', st', hget, hlen, hfol, hcache, hinv, hb, hn⟩
  · rw [hnone] at halone ⊢
    refine ⟨⟨e, held, h.move h.pool
      (fun t' he => ⟨Function.update_of_ne he _ _, rfl, fun _ _ => rfl⟩)
      (fun _ _ _ _ hl => ⟨hl, rfl, rfl⟩) (t := t) ?_ ?_⟩, List.Subset.refl _⟩
    · show PcInv _ _ _ _ _ (Function.update s.pc t _ t)
      rw [Function.update_self, hheld]
      exact ⟨hlive, rfl, by simp, rfl, hab⟩
    · show ∀ m, (Function.update s.pc t _ t).list? = some m → _
      rw [Function.update_self]
      exact halone
  · rw [hget] at halone ⊢
    refine ⟨⟨e', Function.update held t set, h.move hinv
      (fun t' he => ⟨Function.update_of_ne he _ _, Function.update_of_ne he _ _, hn t'⟩)
      (fun _ _ m _ hl => ⟨hl, rfl, by rw [hcache]⟩) (t := t) ?_ ?_⟩, hb⟩
    · show PcInv _ _ _ _ _ (Function.update s.pc t _ t)
      rw [Function.update_self, Function.update_self]
      exact ⟨hlive, rfl, hlen.le, hfol, hab⟩
    · show ∀ m, (Function.update s.pc t _ t).list? = some m → _
      rw [Function.update_self]
      exact halone

theorem ListSysInv.add (h : ListSysInv s e σ held) {list : ι} {prev next self : Option IterPtr}
    {data : α} (ht : s.pc t = .adding list prev next data self) :
    ∃ e' σ' held', ListSysInv ({ s with
        store := (listIterNewRest list prev next data self s.store).2 }.setPc t .idle) e' σ' held' ∧
      (listIterNewRest list prev next data self s.store).2.pool = s.store.pool := by
  have hpc := h.pcs t
  rw [ht] at hpc
  obtain ⟨hlive, hself, hlen, hfol, a, b, hab, rfl, rfl⟩ := hpc
  have hidle : ∀ m, (Function.update s.pc t ListPc.idle t).list? = some m →
      ∀ t', t' ≠ t → (s.pc t').list? ≠ some m := by
    intro m hm
    rw [Function.update_self] at hm
    exact absurd hm (by simp [ListPc.list?])
  cases hht : held t with
  | nil =>
    rw [hht] at hself
    subst hself
    refine ⟨e, σ, held, h.move h.pool
      (fun t' he => ⟨Function.update_of_ne he _ _, rfl, fun _ _ => rfl⟩)
      (fun _ _ _ _ hl => ⟨hl, rfl, rfl⟩) (t := t) ?_ hidle, rfl⟩
    show PcInv _ _ _ _ _ (Function.update s.pc t _ t)
    rw [Function.update_self]
    exact hht
  | cons self rest =>
    rw [hht] at hself hlen hfol
    subst hself
    rw [List.length_cons] at hlen
    obtain ⟨e', σ', st', hst', hinv, hother, hpool, hn⟩ :=
      h.pool.add hht hfol.2 (by omega) hab hlive data
    rw [show some self = (self :: rest).head? from rfl] at hst'
    rw [hst']
    refine ⟨e', σ', Function.update held t [], h.move hinv
      (fun t' he => ⟨Function.update_of_ne he _ _, Function.update_of_ne he _ _, hn t' he⟩)
      (fun t' he m hm hl => ⟨hl, hother m ?_⟩) (t := t) ?_ hidle, hpool⟩
    · rintro rfl
      exact he (h.alone t' t m hm (by rw [ht]; rfl))
    · show PcInv _ _ _ _ _ (Function.update s.pc t _ t)
      rw [Function.update_self, Function.update_self]
      rfl

omit [DecidableEq τ] in
/-- cc_list_delete up to the private chain. -/
theorem ListSysInv.deleteIters (h : ListSysInv s e σ held) (ht : s.pc t = .idle) {list : ι}
    (ha : s.Available list) :
    ∃ e' σ', ListSysInv { s with store := listDeleteIters list s.store } e' σ' held ∧
      σ'.seq list = [] ∧ (listDeleteIters list s.store).pool = s.store.pool := by
  obtain ⟨e', σ', hr, hg, hseq⟩ := listDeleteIters_rep h.pool.rep list
  obtain ⟨hinv, hpool⟩ := h.regroup ht hr hg fun m hm => hm ▸ ha
  exact ⟨e', σ', hinv, hseq, hpool⟩

omit [DecidableEq τ] in
theorem ListSysInv.delete (h : ListSysInv s e σ held) (ht : s.pc t = .idle) {list : ι}
    (ha : s.Available list) (hi : ((listDeleteIters list s.store).lists list).iters = none) :
    ∃ e' σ', ListSysInv { s with
        store := listFree list (listDeleteIters list s.store),
        live := s.live.erase list } e' σ' held ∧
      (listFree list (listDeleteIters list s.store)).pool = s.store.pool := by
  obtain ⟨e', σ', hinv, hseq, hpool⟩ := h.deleteIters ht ha
  have hcache : e'.cache list = [] := by
    have hf : Follows _ ((listDeleteIters list s.store).lists list).iters (e'.cache list) :=
      hinv.pool.rep.inv.cached list
    rw [hi] at hf
    exact follows_unique hf rfl
  have hst : listFree list (listDeleteIters list s.store) = listDeleteIters list s.store := by
    have hh := hinv.pool.rep.header hseq hcache
    unfold listFree ListStore.setList
    rw [hh]
    show { listDeleteIters list s.store with
      lists := Function.update (listDeleteIters list s.store).lists list (CcList.new 0) } = _
    rw [← hh, Function.update_eq_self]
  rw [hst]
  refine ⟨e', σ', ⟨{ hinv.pool with dead := fun m hm => ?_ }, fun t' => ?_, hinv.alone⟩, hpool⟩
  · by_cases he : m = list
    · exact he ▸ ⟨hseq, hcache⟩
    · exact hinv.pool.dead m fun hl => hm (Finset.mem_erase.mpr ⟨he, hl⟩)
  · refine (hinv.pcs t').frame (fun _ _ => rfl) fun m hm hl => ⟨?_, rfl, rfl⟩
    exact Finset.mem_erase.mpr ⟨fun he => ha.2 t' (he ▸ hm), hl⟩

theorem ListSysInv.count (h : ListSysInv s e σ held) (ht : s.pc t = .idle) {list : ι}
    {iters tail : IterPtr} {count : Nat} (ha : s.Available list)
    (hi : ((listDeleteIters list s.store).lists list).iters = some iters)
    (hc : listPoolCount (listBlockSize * s.store.pool.blocks.length) 1 iters
      (listDeleteIters list s.store) = (count, tail)) :
    ∃ e' σ', ListSysInv ({ s with store := listDeleteIters list s.store }.setPc t
        (.putting list iters tail count)) e' σ' held ∧
      (listDeleteIters list s.store).pool = s.store.pool := by
  obtain ⟨e', σ', hinv, hseq, hpool⟩ := h.deleteIters ht ha
  have hf : Follows (listDeleteIters list s.store).next
      ((listDeleteIters list s.store).lists list).iters (e'.cache list) :=
    hinv.pool.rep.inv.cached list
  have hidle : held t = [] := by
    have hpc := h.pcs t
    rwa [ht] at hpc
  have hlen : (e'.cache list).length ≤ listBlockSize * s.store.pool.blocks.length := by
    rw [← hpool]
    exact hinv.pool.places_length (hinv.pool.separated.1 (.inl (.cached list)))
      fun p hp => ⟨.inl (.cached list), hp⟩
  cases hu : e'.cache list with
  | nil =>
    rw [hu, hi] at hf
    exact absurd hf (by simp [Follows])
  | cons x rest =>
    rw [hu, hi] at hf
    obtain rfl : iters = x := Option.some.inj hf.1
    rw [hu, List.length_cons] at hlen
    rw [listPoolCount_eq hf.2 (by omega), Prod.mk.injEq] at hc
    obtain ⟨hcount, htail⟩ := hc
    refine ⟨e', σ', hinv.move hinv.pool
      (fun t' he => ⟨Function.update_of_ne he _ _, rfl, fun _ _ => rfl⟩)
      (fun _ _ _ _ hl => ⟨hl, rfl, rfl⟩) (t := t) ?_ ?_, hpool⟩
    · show PcInv _ _ _ _ _ (Function.update s.pc t _ t)
      rw [Function.update_self]
      refine ⟨hidle, ha.1, hseq, by rw [hu]; rfl, ?_, ?_⟩
      · rw [hu, List.getLast?_cons, htail]
      · rw [hu, List.length_cons]
        omega
    · show ∀ m, (Function.update s.pc t _ t).list? = some m → _
      rw [Function.update_self]
      intro m hm t' _
      obtain rfl : list = m := Option.some.inj hm
      exact ha.2 t'

theorem ListSysInv.put (h : ListSysInv s e σ held) {list : ι} {iters tail : IterPtr}
    {count : Nat} (ht : s.pc t = .putting list iters tail count) :
    let st' := listFree list (listPoolPutSet iters tail count s.store)
    (∃ e', ListSysInv ({ s with store := st', live := s.live.erase list }.setPc t .idle)
        e' σ held) ∧
      st'.pool.blocks = if st'.pool.refcount = 0 then [] else s.store.pool.blocks := by
  intro st'
  have hpc := h.pcs t
  rw [ht] at hpc
  obtain ⟨hidle, hlive, hseq, hhead, htail, hcount⟩ := hpc
  have hst' : st' = listFree list (listPoolPutSet iters tail (e.cache list).length s.store) := by
    rw [hcount]
  obtain ⟨e', hcache, hinv, hn, hblocks⟩ := h.pool.put hseq hhead htail hst'
  have hother : ∀ t', t' ≠ t → ∀ m, (s.pc t').list? = some m → m ≠ list := by
    rintro t' he m hm rfl
    exact he (h.alone t' t m hm (by rw [ht]; rfl))
  refine ⟨⟨e', h.move hinv (fun t' he => ⟨Function.update_of_ne he _ _, rfl, hn t'⟩)
    (fun t' he m hm hl => ⟨Finset.mem_erase.mpr ⟨hother t' he m hm, hl⟩, rfl,
      hcache m (hother t' he m hm)⟩) (t := t) ?_ ?_⟩, hblocks⟩
  · show PcInv _ _ _ _ _ (Function.update s.pc t _ t)
    rw [Function.update_self]
    exact hidle
  · show ∀ m, (Function.update s.pc t _ t).list? = some m → _
    rw [Function.update_self]
    exact fun m hm => absurd hm (by simp [ListPc.list?])

/-- One step keeps the account, and frees blocks only at zero. -/
theorem ListSysInv.step (h : ListSysInv s e σ held) (hs : ListStep s t s') :
    (∃ e' σ' held', ListSysInv s' e' σ' held') ∧ FreesAtZero s t s' := by
  cases hs with
  | new list ht hl =>
    exact ⟨⟨e, σ, held, h.new_list hl⟩, .of_subset (by simp [ht]) (List.Subset.refl _)⟩
  | call call ht hp hg =>
    obtain ⟨e', σ', hinv, hpool⟩ := h.call ht hp hg
    exact ⟨⟨e', σ', held, hinv⟩,
      .of_subset (by simp [ht]) (by rw [hpool]; exact List.Subset.refl _)⟩
  | start call ht hp hg =>
    obtain ⟨σ', hinv⟩ := h.start ht hp hg
    exact ⟨⟨e, σ', held, hinv⟩, .of_subset (by simp [ht]) (List.Subset.refl _)⟩
  | get alloc ht hf =>
    obtain ⟨⟨e', held', hinv⟩, hb⟩ := h.get ht hf
    exact ⟨⟨e', σ, held', hinv⟩, .of_subset (by simp [ht]) hb⟩
  | add ht =>
    obtain ⟨e', σ', held', hinv, hpool⟩ := h.add ht
    refine ⟨⟨e', σ', held', hinv⟩, .of_subset (by simp [ht]) ?_⟩
    show _ ⊆ (listIterNewRest _ _ _ _ _ _).2.pool.blocks
    rw [hpool]
    exact List.Subset.refl _
  | delete ht ha hi =>
    obtain ⟨e', σ', hinv, hpool⟩ := h.delete ht ha hi
    exact ⟨⟨e', σ', held, hinv⟩,
      .of_subset (by simp [ht]) (by rw [hpool]; exact List.Subset.refl _)⟩
  | count ht ha hi hc =>
    obtain ⟨e', σ', hinv, hpool⟩ := h.count ht ha hi hc
    refine ⟨⟨e', σ', held, hinv⟩, .of_subset (by simp [ht]) ?_⟩
    show _ ⊆ (listDeleteIters _ _).pool.blocks
    rw [hpool]
    exact List.Subset.refl _
  | put ht =>
    obtain ⟨⟨e', hinv⟩, hb⟩ := h.put ht
    exact ⟨⟨e', σ, held, hinv⟩, .of_put ht hb⟩

theorem ListReachable.inv [Inhabited α] (h : ListReachable s) :
    ∃ e σ held, ListSysInv s e σ held := by
  induction h with
  | new => exact ⟨_, _, _, ListSysInv.new fun _ => default⟩
  | step _ hs ih =>
    obtain ⟨e, σ, held, hinv⟩ := ih
    exact (hinv.step hs).1

end

/-- The account of the iters: `place` tells what is linked in each list, in its private chain, in
the pool's chain, and in the hands of each thread. -/
structure ListAccount [Fintype τ] (s : ListSys τ ι α) (place : ListPlace ι ⊕ τ → List IterPtr) :
    Prop where
  linked : ∀ list ∈ s.live,
    Follows s.store.next (s.store.lists list).head (place (.inl (.linked list)))
  cached : ∀ list ∈ s.live,
    Follows s.store.next (s.store.lists list).iters (place (.inl (.cached list)))
  pooled : Follows s.store.next s.store.pool.iters (place (.inl .pooled))
  held : ∀ t list prev next data self, s.pc t = .adding list prev next data self →
    Follows s.store.next self (place (.inr t))
  idle : ∀ t, s.pc t = .idle → place (.inr t) = []
  dead : ∀ list, list ∉ s.live →
    place (.inl (.linked list)) = [] ∧ place (.inl (.cached list)) = []
  once : ∀ block ∈ s.store.pool.blocks, ∀ index < listBlockSize, ∃! k, ⟨block, index⟩ ∈ place k
  nodup : ∀ k, (place k).Nodup
  allocated : ∀ k, ∀ p ∈ place k, p.block ∈ s.store.pool.blocks ∧ p.index < listBlockSize
  count : s.store.pool.count = (place (.inl .pooled)).length
  refcount : s.store.pool.refcount = ((∑ list ∈ s.live, ((place (.inl (.linked list))).length +
    (place (.inl (.cached list))).length)) + ∑ t, (place (.inr t)).length : Nat)

section

variable {s : ListSys τ ι α} {e : ListSpare ι} {σ : ListSeqs ι α} {held : τ → List IterPtr}

theorem ListSysInv.account [Fintype τ] (h : ListSysInv s e σ held) :
    ListAccount s (e.places σ held) := by
  refine ⟨fun list _ => h.pool.rep.rep.represents.forward list,
    fun list _ => h.pool.rep.inv.cached list, h.pool.rep.inv.pooled, fun t list prev next data self
    ht => ?_, fun t ht => ?_, h.pool.dead, fun block hb index hi => ?_, h.pool.separated.1,
    fun k p hp => mem_poolCells.mp ((h.pool.cover p).mp ⟨k, hp⟩), h.pool.rep.inv.count,
    h.pool.refcount_eq⟩
  · have hpc := h.pcs t
    rw [ht] at hpc
    obtain ⟨-, hself, -, hfol, -⟩ := hpc
    rw [hself]
    exact hfol
  · have hpc := h.pcs t
    rwa [ht] at hpc
  · obtain ⟨k, hk⟩ := (h.pool.cover ⟨block, index⟩).mpr (mem_poolCells.mpr ⟨hb, hi⟩)
    exact ⟨k, hk, fun k' hk' => h.pool.separated.2 k' k _ hk' hk⟩

end

section

variable [DecidableEq ι] [DecidableEq τ]

omit [DecidableEq ι] in
@[simp] theorem ListSys.setPc_self (s : ListSys τ ι α) (t : τ) (pc : ListPc ι α) :
    (s.setPc t pc).pc t = pc := Function.update_self _ _ _

omit [DecidableEq ι] in
theorem ListSys.setPc_idle {s : ListSys τ ι α} {t : τ} {pc : ListPc ι α}
    (h : ∀ t', t' ≠ t → s.pc t' = .idle) (hpc : pc = .idle) (t' : τ) :
    (s.setPc t pc).pc t' = .idle := by
  by_cases ht : t' = t
  · rw [ht, setPc_self, hpc]
  · exact (Function.update_of_ne ht _ _).trans (h t' ht)

omit [DecidableEq ι] [DecidableEq τ] in
/-- No thread is in a list function, so the refcount counts what the lists hold. -/
theorem ListSysInv.refcount_idle [Fintype τ] {s : ListSys τ ι α} {e : ListSpare ι}
    {σ : ListSeqs ι α} {held : τ → List IterPtr} (h : ListSysInv s e σ held)
    (hidle : ∀ t, s.pc t = .idle) : s.store.pool.refcount =
      ((∑ list ∈ s.live, ((σ.seq list).length + (e.cache list).length) : Nat) : Int) := by
  have hheld : ∀ t, (held t).length = 0 := fun t => by
    have hpc := h.pcs t
    rw [hidle t] at hpc
    rw [show held t = [] from hpc, List.length_nil]
  rw [h.pool.refcount_eq, Finset.sum_eq_zero fun t _ => hheld t, Nat.add_zero]

/-- A thread that deletes the only list leaves no reference. -/
theorem ListSysInv.delete_only [Fintype τ] {s : ListSys τ ι α} {e : ListSpare ι} {σ : ListSeqs ι α}
    {held : τ → List IterPtr} {list : ι} (h : ListSysInv s e σ held) (hidle : ∀ t, s.pc t = .idle)
    (hl : s.live = {list}) (hz : s.store.pool.refcount ≠ 0) (t : τ) :
    ∃ s₁ s₂, ListStep s t s₁ ∧ ListStep s₁ t s₂ ∧ s₁.store.pool = s.store.pool ∧
      (∃ iters tail count, s₁.pc t = .putting list iters tail count) ∧
      s₂.store.pool.refcount = 0 := by
  have ha : s.Available list := ⟨by simp [hl], fun t' => by simp [hidle t', ListPc.list?]⟩
  obtain ⟨e₀, σ₀, h₀, hseq, hpool⟩ := h.deleteIters (hidle t) ha
  have hcached : Follows _ ((listDeleteIters list s.store).lists list).iters (e₀.cache list) :=
    h₀.pool.rep.inv.cached list
  -- the references are those of the private chain
  have hne : e₀.cache list ≠ [] := by
    intro hnil
    have hrefs := h₀.refcount_idle hidle
    rw [hl, Finset.sum_singleton, hseq, hnil] at hrefs
    rw [← hpool] at hz
    exact hz hrefs
  obtain ⟨iters, rest, hcache⟩ := List.exists_cons_of_ne_nil hne
  rw [hcache] at hcached
  obtain ⟨e₁, σ₁, h₁, -⟩ := h.count (hidle t) ha hcached.1 rfl
  obtain ⟨⟨e₂, h₂⟩, -⟩ := h₁.put (Function.update_self _ _ _)
  refine ⟨_, _, .count (hidle t) ha hcached.1 rfl, .put (Function.update_self _ _ _), hpool,
    ⟨_, _, _, Function.update_self _ _ _⟩, ?_⟩
  have hrefs := h₂.refcount_idle (ListSys.setPc_idle (fun t' ht => ?_) rfl)
  · have hnone : s.live.erase list = ∅ := by rw [hl, Finset.erase_singleton]
    refine hrefs.trans ?_
    show ((∑ m ∈ s.live.erase list, _ : Nat) : Int) = 0
    rw [hnone]
    rfl
  · exact (Function.update_of_ne ht _ _).trans (hidle t')

end

section

/-- The thread `false` appends to the one list; the pool has no block yet. -/
def listSysGetting : ListSys Bool Unit Nat where
  store := listNewFlags 0 () (ListStore.new 0)
  live := {()}
  pc := Function.update (fun _ => .idle) false (.getting () none none 7)

theorem listSysGetting_reachable : ListReachable listSysGetting := by
  have hnew : ListReachable ({ (ListSys.new : ListSys Bool Unit Nat) with
      store := listNewFlags 0 () (ListStore.new 0), live := insert () ∅ }) :=
    .step .new (.new () rfl (by simp [ListSys.new]) (t := false))
  obtain ⟨e, σ, held, hinv⟩ := hnew.inv
  refine .step hnew (.start (.append () none 7) rfl ?_ ⟨rfl, rfl⟩)
  refine ⟨σ, hinv.pool.rep.rep.represents, by simp [ListCall.Legal], ?_⟩
  rintro list rfl
  exact ⟨by simp, fun t => by simp [ListSys.new, ListPc.list?]⟩

/-- The append has come to its end with a new block: it linked one iter of the set. -/
theorem listReachable_appended : ∃ s : ListSys Bool Unit Nat, ListReachable s ∧
    (∀ t, s.pc t = .idle) ∧ s.live = {()} ∧
    s.store.pool.refcount = 32 ∧ s.store.pool.count = 992 ∧ s.store.pool.blocks = [5] ∧
    ∃ p, (s.store.lists ()).head = some p ∧ s.store.next p = none := by
  have hs := listSysGetting_reachable
  obtain ⟨e, σ, held, hinv⟩ := hs.inv
  have hfresh : FreshBlock listSysGetting.store 5 := ⟨List.not_mem_nil, List.not_mem_nil⟩
  obtain ⟨self, st, hget, hrefs, hcount, hblocks⟩ :=
    listPoolGet_block hinv.pool.rep.inv rfl hfresh
  obtain ⟨s, hsys⟩ : ∃ s : ListSys Bool Unit Nat,
      s = { listSysGetting with store := st }.setPc false (.adding () none none 7 (some self)) :=
    ⟨_, rfl⟩
  have hgot : ListReachable s := by
    have hstep := ListReachable.step hs (.get (t := false) (some 5) rfl fun block he => by
      obtain rfl := Option.some.inj he
      exact hfresh)
    rwa [hget, ← hsys] at hstep
  have hpc : s.pc false = .adding () none none 7 (some self) := by
    rw [hsys, ListSys.setPc_self]
  have hadd := hgot.step (.add hpc)
  rw [hsys] at hadd
  have hpool : (listIterNewRest () none none 7 (some self) st).2.pool = st.pool :=
    listIterStash_pool () listSetSize (st.next self) st
  refine ⟨_, hadd, fun t => ?_, rfl, ?_, ?_, ?_, self, ?_, ?_⟩
  · refine ListSys.setPc_idle (fun t' ht => ?_) rfl t
    have hother : listSysGetting.pc t' = .idle := by simp [listSysGetting, ht]
    exact (Function.update_of_ne ht _ _).trans hother
  · show (listIterNewRest () none none 7 (some self) st).2.pool.refcount = 32
    rw [hpool, hrefs]
    rfl
  · show (listIterNewRest () none none 7 (some self) st).2.pool.count = 992
    rw [hpool, hcount]
    rfl
  · show (listIterNewRest () none none 7 (some self) st).2.pool.blocks = [5]
    rw [hpool, hblocks]
    rfl
  · show ((listIterNewRest () none none 7 (some self) st).2.lists ()).head = some self
    simp [listIterNewRest, listIterAdd, ListStore.setList, ListStore.setNext?, ListStore.setPrev?,
      ListStore.setData]
  · show (listIterNewRest () none none 7 (some self) st).2.next self = none
    simp [listIterNewRest, listIterAdd, ListStore.setList, ListStore.setNext?, ListStore.setPrev?,
      ListStore.setData, ListStore.setNext, ListStore.setPrev]

end

section

variable [DecidableEq ι] [DecidableEq τ] [Fintype τ] [Inhabited α] {s : ListSys τ ι α}

/-- In every reachable state each iter of each block has one place, and the pool counts them.
Blocks are freed by the put that leaves no reference, and a thread that gets no block leaves the
pool and the lists as they were. -/
theorem listPool_conserves (h : ListReachable s) :
    (∃ place, ListAccount s place ∧ ((∀ t, s.pc t = .idle) →
      (∀ block ∈ s.store.pool.blocks, ∀ index < listBlockSize,
        ∃! k, ⟨block, index⟩ ∈ place (.inl k)) ∧
      s.store.pool.refcount = (∑ list ∈ s.live, ((place (.inl (.linked list))).length +
        (place (.inl (.cached list))).length) : Nat))) ∧
    (∀ t s', ListStep s t s' → FreesAtZero s t s') ∧
    (∀ t list prev next data, s.pc t = .getting list prev next data →
      s.store.pool.count < listSetSize → listPoolGet none s.store = (none, s.store) ∧
        listIterNewRest list prev next data none s.store = (none, s.store)) := by
  obtain ⟨e, σ, held, hinv⟩ := h.inv
  have hacc := hinv.account
  refine ⟨⟨e.places σ held, hacc, fun hidle => ⟨fun block hb index hi => ?_, ?_⟩⟩,
    fun t s' hs => (hinv.step hs).2, fun t list prev next data _ hc => ⟨?_, rfl⟩⟩
  · obtain ⟨k, hk, hunique⟩ := hacc.once block hb index hi
    match k with
    | .inl k => exact ⟨k, hk, fun k' hk' => Sum.inl.inj (hunique (.inl k') hk')⟩
    | .inr t =>
      rw [hacc.idle t (hidle t)] at hk
      exact absurd hk (by simp)
  · have hzero : ∑ t, (e.places σ held (.inr t)).length = 0 :=
      Finset.sum_eq_zero fun t _ => by rw [hacc.idle t (hidle t), List.length_nil]
    rw [hacc.refcount, hzero, Nat.add_zero]
  · simp [listPoolGet, hc]

/-- One list and two threads. The first get may fail while the pool is empty. After an append one
iter is linked, 31 are cached and 992 pooled, and the put of the other thread, which deletes the
list, frees the block. -/
theorem listPool_conserves_delete : (listSysGetting.pc false = .getting () none none 7 ∧
      listPoolGet none listSysGetting.store = (none, listSysGetting.store)) ∧
    ∃ s : ListSys Bool Unit Nat, ListReachable s ∧
      (∃ place, ListAccount s place ∧ (place (.inl (.linked ()))).length = 1 ∧
        (place (.inl (.cached ()))).length = 31 ∧ (place (.inl .pooled)).length = 992 ∧
        ∀ index < listBlockSize, ∃! k, ⟨5, index⟩ ∈ place (.inl k)) ∧
      ∃ s₁ s₂, ListStep s true s₁ ∧ ListStep s₁ true s₂ ∧ 5 ∈ s₁.store.pool.blocks ∧
        5 ∉ s₂.store.pool.blocks := by
  obtain ⟨-, -, hfail⟩ := listPool_conserves listSysGetting_reachable
  obtain ⟨s, hs, hidle, hlive, hrefs, hcount, hblocks, p, hhead, hnext⟩ := listReachable_appended
  obtain ⟨⟨place, hacc, hall⟩, -⟩ := listPool_conserves hs
  obtain ⟨honce, hsum⟩ := hall hidle
  obtain ⟨e, σ, held, hinv⟩ := hs.inv
  obtain ⟨s₁, s₂, hcnt, hput, hpool, hat, hzero⟩ :=
    hinv.delete_only hidle hlive (by rw [hrefs]; decide) true
  obtain ⟨-, hfrees, -⟩ := listPool_conserves (hs.step hcnt)
  have hlinked := hacc.linked () (by simp [hlive])
  rw [hhead] at hlinked
  have hone : (place (.inl (.linked ()))).length = 1 := by
    cases hplace : place (.inl (.linked ())) with
    | nil =>
      rw [hplace] at hlinked
      exact absurd hlinked (by simp [Follows])
    | cons q rest =>
      rw [hplace] at hlinked
      obtain ⟨hq, hrest⟩ := hlinked
      obtain rfl := Option.some.inj hq
      rw [hnext] at hrest
      rw [follows_unique hrest (show Follows s.store.next none [] from rfl)]
      rfl
  refine ⟨⟨rfl, (hfail false () none none 7 rfl (by decide)).1⟩, s, hs, ⟨place, hacc, hone, ?_, ?_,
    honce 5 (by simp [hblocks])⟩, s₁, s₂, hcnt, hput, ?_, ?_⟩
  · rw [hrefs, hlive, Finset.sum_singleton, hone] at hsum
    omega
  · rw [← hacc.count, hcount]
  · rw [hpool, hblocks]
    exact List.mem_singleton.mpr rfl
  · have hmem : 5 ∈ s₁.store.pool.blocks := by simp [hpool, hblocks]
    exact (hfrees true s₂ hput 5 hmem).mpr ⟨⟨(), hat⟩, hzero⟩

end

end LibCC
