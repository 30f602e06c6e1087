import LibCC.TracedRuns

/-! Families of allocators never mix, and containers from newCMalloc stay with
libc, in every run of a program. -/

namespace LibCC

open AllocEvent FramedProgram SequenceFamily

variable {α V : Type} {plain : Finset Nat} {sys : Containers α V}

section Invariant

variable {list : Nat}

theorem ContainersInv.putList (h : ContainersInv plain sys) (hk : list ∈ sys.lists.keys)
    {header : ListHeader} (hf : header.flags = (sys.lists.val list).flags)
    (seqs : ListSeqs Nat α) :
    ContainersInv plain { sys with lists := sys.lists.put list header, seqs := seqs } where
  lists l hl := by
    rw [FiniteTable.put_keys, Finset.insert_eq_of_mem hk] at hl
    exact h.lists l hl
  maps := h.maps
  names := h.names
  plainLists l hl hm := by
    rw [FiniteTable.put_keys, Finset.insert_eq_of_mem hk] at hm
    rw [FiniteTable.put_val]
    by_cases he : l = list
    · subst he
      rw [Function.update_self, hf]
      exact h.plainLists l hl hm
    · rw [Function.update_of_ne he]
      exact h.plainLists l hl hm
  plainMaps := h.plainMaps

theorem ContainersInv.putMap (h : ContainersInv plain sys) {map : Nat} (hk : map ∈ sys.maps.keys)
    {m : TracedMap V} (hm : (sys.maps.val map).Same m) :
    ContainersInv plain { sys with maps := sys.maps.put map m } where
  lists := h.lists
  maps l hl := by
    rw [FiniteTable.put_keys, Finset.insert_eq_of_mem hk] at hl
    exact h.maps l hl
  names := h.names
  plainLists := h.plainLists
  plainMaps l hl hmem := by
    rw [FiniteTable.put_keys, Finset.insert_eq_of_mem hk] at hmem
    rw [FiniteTable.put_val]
    by_cases he : l = map
    · subst he
      rw [Function.update_self]
      exact hm.cMalloc (h.plainMaps l hl hmem)
    · rw [Function.update_of_ne he]
      exact h.plainMaps l hl hmem

theorem mem_plain {id : Nat} {cMalloc : Bool} {made : Option Nat}
    (h : id ∈ (ContainerCall.listNew cMalloc : ContainerCall α V).plain plain made) :
    id ∈ plain ∨ cMalloc = true ∧ made = some id := by
  cases cMalloc with
  | false => exact .inl h
  | true => simpa [ContainerCall.plain, eq_comm] using h

theorem ContainersInv.made (h : ContainersInv plain sys) (cMalloc : Bool)
    {lists : FiniteTable Nat ListHeader} {maps : FiniteTable Nat (TracedMap V)}
    (hl : lists = sys.lists ∨ ∃ header, lists = sys.lists.put sys.next header ∧
      isCMalloc header.flags = cMalloc)
    (hm : maps = sys.maps ∨ ∃ map, maps = sys.maps.put sys.next map ∧
      (cMalloc = true → map.CMalloc)) (seqs : ListSeqs Nat α) :
    ContainersInv ((ContainerCall.listNew cMalloc : ContainerCall α V).plain plain (some sys.next))
      ⟨sys.next + 1, seqs, lists, maps⟩ where
  lists l hm := by
    rcases hl with rfl | ⟨header, rfl, -⟩
    · have hlt := h.lists l hm
      show l < sys.next + 1
      omega
    · rcases Finset.mem_insert.mp hm with rfl | hm
      · exact Nat.lt_succ_self _
      · have hlt := h.lists l hm
        show l < sys.next + 1
        omega
  maps l hl := by
    rcases hm with rfl | ⟨map, rfl, -⟩
    · have hlt := h.maps l hl
      show l < sys.next + 1
      omega
    · rcases Finset.mem_insert.mp hl with rfl | hl
      · exact Nat.lt_succ_self _
      · have hlt := h.maps l hl
        show l < sys.next + 1
        omega
  names l hp := by
    show l < sys.next + 1
    rcases mem_plain hp with hp | ⟨-, he⟩
    · have hlt := h.names l hp
      omega
    · cases he
      exact Nat.lt_succ_self _
  plainLists l hp hm := by
    rcases hl with rfl | ⟨header, rfl, hf⟩
    · have hlt := h.lists l hm
      rcases mem_plain hp with hp | ⟨-, he⟩
      · exact h.plainLists l hp hm
      · cases he
        omega
    · show isCMalloc (Function.update sys.lists.val sys.next header l).flags = true
      by_cases he : l = sys.next
      · subst he
        rw [Function.update_self, hf]
        rcases mem_plain hp with hp | ⟨hc, -⟩
        · have hlt := h.names _ hp
          omega
        · exact hc
      · rw [Function.update_of_ne he]
        rcases mem_plain hp with hp | ⟨-, he'⟩
        · exact h.plainLists l hp ((Finset.mem_insert.mp hm).resolve_left he)
        · cases he'
          exact absurd rfl he
  plainMaps l hp hl := by
    rcases hm with rfl | ⟨map, rfl, hf⟩
    · have hlt := h.maps l hl
      rcases mem_plain hp with hp | ⟨-, he⟩
      · exact h.plainMaps l hp hl
      · cases he
        omega
    · show (Function.update sys.maps.val sys.next map l).CMalloc
      by_cases he : l = sys.next
      · subst he
        rw [Function.update_self]
        rcases mem_plain hp with hp | ⟨hc, -⟩
        · have hlt := h.names _ hp
          omega
        · exact hf hc
      · rw [Function.update_of_ne he]
        rcases mem_plain hp with hp | ⟨-, he'⟩
        · exact h.plainMaps l hp ((Finset.mem_insert.mp hl).resolve_left he)
        · cases he'
          exact absurd rfl he

end Invariant

namespace Traced

variable (hashFn : UInt32 → List UInt8 → UInt32) (node : IterPtr → MapNode V)

theorem cMallocFlags_iff (cMalloc : Bool) : isCMalloc (cMallocFlags cMalloc) = cMalloc := by
  cases cMalloc <;> rfl

theorem listCall_returns (h : ContainersInv plain sys) {call : ListCall Nat α}
    (hl : (ContainerCall.listCall call : ContainerCall α V).Legal sys) :
    Returns (listCall sys call) (ContainersInv plain) := by
  obtain ⟨-, hk, -⟩ := hl
  have hsame : ∀ seqs : ListSeqs Nat α, ContainersInv plain { sys with seqs := seqs } :=
    fun seqs => ⟨h.lists, h.maps, h.names, h.plainLists, h.plainMaps⟩
  have hadd : ∀ self place, self ∈ sys.lists.keys →
      Returns (listAdd sys self place) (ContainersInv plain) := by
    intro self place hk
    refine (listIterAcquire_returns (sys.lists.val self)).bind ?_
    exact fun r hr => .pure (h.putList hk hr.1 _)
  cases call with
  | insert self iter data => exact hadd self _ (hk self (by simp [ListCall.lists]))
  | append self iter data => exact hadd self _ (hk self (by simp [ListCall.lists]))
  | remove self iter =>
    refine (listIterRelease_returns (sys.lists.val self) iter).bind ?_
    exact fun header hr => .pure (h.putList (hk self (by simp [ListCall.lists])) hr.1 _)
  | discard self =>
    refine (listDiscard_returns (sys.seqs.seq self) (sys.lists.val self)).bind ?_
    exact fun header hr => .pure (h.putList (hk self (by simp [ListCall.lists])) hr.1 _)
  | replace iter data => exact .pure (hsame _)
  | move self src dst => exact .pure (hsame _)
  | moven self src dst => exact .pure (hsame _)
  | swap fromList toList src dst => exact .pure (hsame _)
  | swapn fromList toList src dst => exact .pure (hsame _)
  | appendList self src => exact .pure (hsame _)
  | insertList self src => exact .pure (hsame _)

theorem containerCall_returns (h : ContainersInv plain sys) {call : ContainerCall α V}
    (hl : call.Legal sys) :
    Returns (containerCall hashFn node sys call)
      (fun r => ContainersInv (call.plain plain r.1) r.2) := by
  cases call with
  | listNew cMalloc =>
    refine (listNewFlags_returns (cMallocFlags cMalloc)).bind ?_
    rintro (_ | header) hr
    · apply Returns.pure
      cases cMalloc with
      | false => exact h
      | true => simpa [ContainerCall.plain] using h
    · have hf : isCMalloc header.flags = cMalloc := by
        rw [hr header rfl, cMallocFlags_iff]
      exact .pure (h.made cMalloc (.inr ⟨header, rfl, hf⟩) (.inl rfl) _)
  | listCall call => exact (listCall_returns h hl).bind fun sys hs => .pure hs
  | listInsertSorted list compare data =>
    refine Returns.bind (φ := ContainersInv plain) ?_ fun sys hs => .pure hs
    refine (listIterAcquire_returns (sys.lists.val list)).bind ?_
    exact fun r hr => .pure (h.putList hl hr.1 _)
  | listFind list compare data => exact .pure h
  | listDelete list =>
    apply Returns.next
    intro _
    exact .pure ⟨fun l hm => h.lists l (Finset.mem_of_mem_erase hm), h.maps, h.names,
      fun l hp hm => h.plainLists l hp (Finset.mem_of_mem_erase hm), h.plainMaps⟩
  | mapNew cMalloc seed =>
    refine (mapNewFlags_returns (cMallocFlags cMalloc) seed node).bind ?_
    rintro (_ | map) hr
    · apply Returns.pure
      cases cMalloc with
      | false => exact h
      | true => simpa [ContainerCall.plain] using h
    · obtain ⟨hf, -, hn⟩ := hr map rfl
      rw [cMallocFlags_iff] at hn
      have hc : cMalloc = true → map.CMalloc := by
        intro hc
        refine ⟨?_, hn.trans hc⟩
        rw [hf, cMallocFlags_iff]
        exact hc
      apply Returns.pure
      have hmade := h.made cMalloc (.inl rfl) (.inr ⟨map, rfl, hc⟩) sys.seqs
      cases cMalloc with
      | false => exact hmade
      | true => exact hmade
  | mapFindp map mem len key => exact .pure h
  | mapAddp map mem val len key =>
    refine (mapAddp_returns hashFn mem (sys.maps.val map) val len key).bind ?_
    exact fun r hr => .pure (h.putMap hl hr)
  | mapRemove map miter =>
    refine (mapRemove_returns (sys.maps.val map) miter).bind ?_
    exact fun r hr => .pure (h.putMap hl.1 hr)
  | mapDiscard map =>
    refine (mapDiscard_returns (sys.maps.val map)).bind ?_
    exact fun r hr => .pure (h.putMap hl hr)
  | mapDelete map =>
    apply Returns.next
    intro _
    exact .pure ⟨h.lists, fun l hm => h.maps l (Finset.mem_of_mem_erase hm), h.names,
      h.plainLists, fun l hp hm => h.plainMaps l hp (Finset.mem_of_mem_erase hm)⟩

theorem listCall_libc (h : ContainersInv plain sys) {call : ListCall Nat α}
    (hl : (ContainerCall.listCall call : ContainerCall α V).Legal sys)
    (hp : ∀ l ∈ call.lists, l ∈ plain) : OnlyLibc (listCall sys call) := by
  have hc : ∀ l ∈ call.lists, isCMalloc (sys.lists.val l).flags = true :=
    fun l hm => h.plainLists l (hp l hm) (hl.2.1 l hm)
  have hadd : ∀ self place, isCMalloc (sys.lists.val self).flags = true →
      OnlyLibc (listAdd sys self place) :=
    fun self place hc => (listIterAcquire_libc hc).next fun _ => .pure
  cases call with
  | insert self iter data => exact hadd self _ (hc self (by simp [ListCall.lists]))
  | append self iter data => exact hadd self _ (hc self (by simp [ListCall.lists]))
  | remove self iter =>
    exact (listIterRelease_libc (hc self (by simp [ListCall.lists])) iter).next fun _ => .pure
  | discard self =>
    exact (listDiscard_libc (hc self (by simp [ListCall.lists])) _).next fun _ => .pure
  | replace iter data => exact .pure
  | move self src dst => exact .pure
  | moven self src dst => exact .pure
  | swap fromList toList src dst => exact .pure
  | swapn fromList toList src dst => exact .pure
  | appendList self src => exact .pure
  | insertList self src => exact .pure

/-- A call that creates a container by newCMalloc, or is made on such ones, asks only libc. -/
theorem containerCall_libc (h : ContainersInv plain sys) {call : ContainerCall α V}
    (hl : call.Legal sys) (hp : call.Plain plain) :
    OnlyLibc (containerCall hashFn node sys call) := by
  cases call with
  | listNew cMalloc =>
    obtain rfl : cMalloc = true := hp
    apply (listNewFlags_libc rfl).next
    rintro (_ | header)
    · exact .pure
    · exact .pure
  | listCall call => exact (listCall_libc h hl hp).next fun _ => .pure
  | listInsertSorted list compare data =>
    have hc := h.plainLists list (hp list (by simp [ContainerCall.uses])) hl
    exact Logs.next ((listIterAcquire_libc hc).next fun _ => .pure) fun _ => .pure
  | listFind list compare data => exact .pure
  | listDelete list =>
    have hc := h.plainLists list (hp list (by simp [ContainerCall.uses])) hl
    exact (listDelete_libc hc _).next fun _ => .pure
  | mapNew cMalloc seed =>
    obtain rfl : cMalloc = true := hp
    apply (mapNewFlags_libc rfl seed node).next
    rintro (_ | map)
    · exact .pure
    · exact .pure
  | mapFindp map mem len key => exact .pure
  | mapAddp map mem val len key =>
    have hc := h.plainMaps map (hp map (by simp [ContainerCall.uses])) hl
    exact (mapAddp_libc hc hashFn mem val len key).next fun _ => .pure
  | mapRemove map miter =>
    have hc := h.plainMaps map (hp map (by simp [ContainerCall.uses])) hl.1
    exact (mapRemove_libc hc miter).next fun _ => .pure
  | mapDiscard map =>
    have hc := h.plainMaps map (hp map (by simp [ContainerCall.uses])) hl
    exact (mapDiscard_libc hc).next fun _ => .pure
  | mapDelete map =>
    have hc := h.plainMaps map (hp map (by simp [ContainerCall.uses])) hl
    exact (mapDelete_libc hc).next fun _ => .pure

end Traced

section Runs

variable {hashFn : UInt32 → List UInt8 → UInt32} {node : IterPtr → MapNode V} {s : TracedHeap}

theorem containersInv_new (data : IterPtr → α) (node : IterPtr → MapNode V) :
    ContainersInv ∅ (Containers.new data node) :=
  ⟨by simp [Containers.new, FiniteTable.empty], by simp [Containers.new, FiniteTable.empty],
    by simp, by simp, by simp⟩

theorem ContainersReach.inv (h : ContainersReach hashFn node plain sys s) :
    ContainersInv plain sys := by
  induction h with
  | new data grants stale => exact containersInv_new data node
  | @call plain sys sys' s s' made c _ hl hr ih =>
    have hret := Traced.containerCall_returns hashFn node ih hl s
    rw [hr] at hret
    exact hret

/-- What is live is held by a container, or was leaked by cc_map_delete. -/
theorem ContainersReach.account (h : ContainersReach hashFn node plain sys s) :
    ∃ leaked, HeapAccount s (sys.holds + leaked) := by
  induction h with
  | new data grants stale => exact ⟨0, heapAccount_new grants stale⟩
  | @call plain sys sys' s s' made c hreach hl hr ih =>
    obtain ⟨leaked, hacc⟩ := ih
    have hstep := Traced.containerCall_framed hashFn node hreach.inv hl s leaked hacc
    rw [hr, add_assoc] at hstep
    exact ⟨_, hstep⟩

end Runs

end LibCC
