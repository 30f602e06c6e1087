import Mathlib

/-! An allocator seen as a ledger of live blocks. A block is named by the
request that it answered, so no name is handed out twice. -/

/-- `freed` lists the blocks given back, the last one first. -/
structure Ledger where
  live : Finset Nat
  requests : Nat
  freed : List Nat
  named : ∀ b ∈ live, b < requests

namespace Ledger

variable {l l' l'' : Ledger} {b : Nat} {bs cs : List Nat}

def grant (l : Ledger) : Ledger where
  live := insert l.requests l.live
  requests := l.requests + 1
  freed := l.freed
  named := by
    intro b hb
    rcases Finset.mem_insert.mp hb with rfl | hb
    · omega
    · have := l.named b hb
      omega

def refuse (l : Ledger) : Ledger where
  live := l.live
  requests := l.requests + 1
  freed := l.freed
  named := fun b hb => by
    have := l.named b hb
    omega

def release (l : Ledger) (b : Nat) : Ledger where
  live := l.live.erase b
  requests := l.requests
  freed := b :: l.freed
  named := fun c hc => l.named c (Finset.mem_of_mem_erase hc)

/-- `bs` are the blocks that are live now and were not before; nothing else changed hands. -/
structure Grew (l l' : Ledger) (bs : List Nat) : Prop where
  requests : l.requests ≤ l'.requests
  nodup : bs.Nodup
  fresh : ∀ b ∈ bs, l.requests ≤ b
  live : l'.live = l.live ∪ bs.toFinset

theorem Grew.refl (l : Ledger) : Grew l l [] :=
  ⟨le_refl _, List.nodup_nil, by simp, by simp⟩

theorem Grew.lt (h : Grew l l' bs) (hb : b ∈ bs) : b < l'.requests := by
  apply l'.named
  rw [h.live]
  simp [hb]

theorem Grew.notMem (h : Grew l l' bs) (hb : b ∈ bs) : b ∉ l.live := by
  intro hl
  have hlt := l.named b hl
  have hge := h.fresh b hb
  omega

theorem Grew.trans (h : Grew l l' bs) (h' : Grew l' l'' cs) : Grew l l'' (bs ++ cs) := by
  refine ⟨h.requests.trans h'.requests, ?_, ?_, ?_⟩
  · refine List.nodup_append.mpr ⟨h.nodup, h'.nodup, ?_⟩
    intro b hb c hc he
    have hlt := h.lt hb
    have hge := h'.fresh c hc
    omega
  · intro b hb
    rcases List.mem_append.mp hb with hb | hb
    · exact h.fresh b hb
    · exact h.requests.trans (h'.fresh b hb)
  · rw [h'.live, h.live, List.toFinset_append, Finset.union_assoc]

theorem Grew.perm (h : Grew l l' bs) (hp : bs.Perm cs) : Grew l l' cs := by
  refine ⟨h.requests, hp.nodup_iff.mp h.nodup, ?_, ?_⟩
  · intro b hb
    exact h.fresh b (hp.mem_iff.mpr hb)
  · rw [h.live, List.toFinset_eq_of_perm _ _ hp]

theorem grew_grant (l : Ledger) : Grew l l.grant [l.requests] := by
  refine ⟨Nat.le_succ _, List.nodup_singleton _, by simp, ?_⟩
  ext b
  simp [grant]

theorem grew_refuse (l : Ledger) : Grew l l.refuse [] :=
  ⟨Nat.le_succ _, List.nodup_nil, by simp, by simp [refuse]⟩

/-- `bs` are the blocks given back, each of them once. -/
structure Shrank (l l' : Ledger) (bs : List Nat) : Prop where
  requests : l'.requests = l.requests
  live : l'.live = l.live \ bs.toFinset
  freed : ∃ order, order.Perm bs ∧ l'.freed = order ++ l.freed

theorem Shrank.refl (l : Ledger) : Shrank l l [] :=
  ⟨rfl, by simp, [], List.Perm.nil, rfl⟩

theorem Shrank.trans (h : Shrank l l' bs) (h' : Shrank l' l'' cs) : Shrank l l'' (bs ++ cs) := by
  obtain ⟨order, hperm, hfreed⟩ := h.freed
  obtain ⟨order', hperm', hfreed'⟩ := h'.freed
  refine ⟨h'.requests.trans h.requests, ?_, order' ++ order, ?_, ?_⟩
  · rw [h'.live, h.live, List.toFinset_append, sdiff_sdiff_left, Finset.sup_eq_union]
  · exact (hperm'.append hperm).trans List.perm_append_comm
  · rw [hfreed', hfreed, List.append_assoc]

theorem shrank_release (l : Ledger) (b : Nat) : Shrank l (l.release b) [b] := by
  refine ⟨rfl, ?_, [b], List.Perm.refl _, rfl⟩
  simp [release, Finset.sdiff_singleton_eq_erase]

/-- Blocks that were taken and given back leave no trace. -/
theorem Grew.shrink (h : Grew l l' (bs ++ cs)) (h' : Shrank l' l'' bs) : Grew l l'' cs := by
  have hnd := List.nodup_append.mp h.nodup
  refine ⟨by rw [h'.requests]; exact h.requests, hnd.2.1, ?_, ?_⟩
  · intro b hb
    exact h.fresh b (by simp [hb])
  · rw [h'.live, h.live]
    ext b
    have hl : b ∈ bs → b ∉ l.live := fun hb => h.notMem (by simp [hb])
    have hc : b ∈ bs → b ∉ cs := fun hb hc => hnd.2.2 b hb b hc rfl
    simp only [Finset.mem_sdiff, Finset.mem_union, List.mem_toFinset, List.mem_append]
    tauto

theorem Grew.subset (h : Grew l l' bs) : bs.toFinset ⊆ l'.live := by
  rw [h.live]
  exact Finset.subset_union_right

theorem Grew.live_eq (h : Grew l l' []) : l'.live = l.live := by
  simpa using h.live

end Ledger
