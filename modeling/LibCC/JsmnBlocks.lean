import LibCC.JsmnWrapper

/-! The blocks that a value owns, and the destructors, which give back
exactly these. -/

namespace LibCC

open StateProgram Ledger

mutual

/-- All blocks that can be reached from the value, along every path. -/
def JsmnVal.blocks : JsmnVal → List Nat
  | .object addr obj => jsmnObjectBlocks obj ++ [addr]
  | .array addr array => jsmnArrayBlocks array ++ [addr]
  | .data addr _ data => [data.addr, addr]

def JsmnKeyval.blocks : JsmnKeyval → List Nat
  | .mk addr key val => val.blocks ++ [key.addr, addr]

def jsmnObjectBlocks : JsmnContainer JsmnKeyval → List Nat
  | ⟨addr, listAddr, list⟩ => jsmnKeyvalsBlocks list ++ [listAddr, addr]

def jsmnArrayBlocks : JsmnContainer JsmnVal → List Nat
  | ⟨addr, listAddr, list⟩ => jsmnValsBlocks list ++ [listAddr, addr]

def jsmnKeyvalsBlocks : List (Nat × JsmnKeyval) → List Nat
  | [] => []
  | (iter, kv) :: list => iter :: (kv.blocks ++ jsmnKeyvalsBlocks list)

def jsmnValsBlocks : List (Nat × JsmnVal) → List Nat
  | [] => []
  | (iter, v) :: list => iter :: (v.blocks ++ jsmnValsBlocks list)

end

section Delete

variable {bs cs : List Nat} {m m' : JsmnM Unit} {s : JsmnState} {E : JsmnFault → Prop}

/-- Run with all of `bs` live, the program frees each of them once and does nothing else. -/
def Deletes (bs : List Nat) (m : JsmnM Unit) : Prop :=
  ∀ (s : JsmnState) (E : JsmnFault → Prop), bs.Nodup → (∀ b ∈ bs, b ∈ s.heap.live) →
    Wp m s (fun _ s' => Shrank s.heap s'.heap bs ∧ s'.pos = s.pos) E

theorem Deletes.nil : Deletes [] (return) :=
  fun s _ _ _ => ⟨Shrank.refl s.heap, rfl⟩

theorem jsmnFree_deletes (b : Nat) : Deletes [b] (jsmnFree b) := by
  intro s E _ hlive
  have hb : b ∈ s.heap.live := hlive b (by simp)
  simp only [jsmnFree, wp_bind, wp_get, if_pos hb, wp_set]
  exact ⟨shrank_release s.heap b, trivial⟩

theorem Deletes.seq (h : Deletes bs m) (h' : Deletes cs m') :
    Deletes (bs ++ cs) (do m; m') := by
  intro s E hnd hlive
  obtain ⟨hb, hc, hdis⟩ := List.nodup_append.mp hnd
  rw [wp_bind]
  apply (h s E hb fun b hb => hlive b (by simp [hb])).imp
  rintro - s' ⟨hs, hpos⟩
  refine (h' s' E hc ?_).imp ?_
  · intro c hc
    rw [hs.live, Finset.mem_sdiff, List.mem_toFinset]
    exact ⟨hlive c (by simp [hc]), fun hb => hdis c hb c hc rfl⟩
  · rintro - s'' ⟨hs', hpos'⟩
    exact ⟨hs.trans hs', hpos'.trans hpos⟩

mutual

theorem jsmnValDelete_deletes : ∀ v : JsmnVal, Deletes v.blocks (jsmnValDelete v)
  | .object addr obj => by
    rw [JsmnVal.blocks, jsmnValDelete]
    exact (jsmnObjectDelete_deletes obj).seq (jsmnFree_deletes addr)
  | .array addr array => by
    rw [JsmnVal.blocks, jsmnValDelete]
    exact (jsmnArrayDelete_deletes array).seq (jsmnFree_deletes addr)
  | .data addr type data => by
    rw [JsmnVal.blocks, jsmnValDelete]
    exact (jsmnFree_deletes data.addr).seq (jsmnFree_deletes addr)

theorem jsmnKeyvalDelete_deletes : ∀ kv : JsmnKeyval, Deletes kv.blocks (jsmnKeyvalDelete kv)
  | .mk addr key val => by
    rw [JsmnKeyval.blocks, jsmnKeyvalDelete]
    exact (jsmnValDelete_deletes val).seq
      ((jsmnFree_deletes key.addr).seq (jsmnFree_deletes addr))

theorem jsmnObjectDelete_deletes : ∀ obj : JsmnContainer JsmnKeyval,
    Deletes (jsmnObjectBlocks obj) (jsmnObjectDelete obj)
  | ⟨addr, listAddr, list⟩ => by
    rw [jsmnObjectBlocks, jsmnObjectDelete]
    exact (jsmnKeyvalsDelete_deletes list).seq
      ((jsmnFree_deletes listAddr).seq (jsmnFree_deletes addr))

theorem jsmnArrayDelete_deletes : ∀ array : JsmnContainer JsmnVal,
    Deletes (jsmnArrayBlocks array) (jsmnArrayDelete array)
  | ⟨addr, listAddr, list⟩ => by
    rw [jsmnArrayBlocks, jsmnArrayDelete]
    exact (jsmnValsDelete_deletes list).seq
      ((jsmnFree_deletes listAddr).seq (jsmnFree_deletes addr))

theorem jsmnKeyvalsDelete_deletes : ∀ list : List (Nat × JsmnKeyval),
    Deletes (jsmnKeyvalsBlocks list) (jsmnKeyvalsDelete list)
  | [] => by
    rw [jsmnKeyvalsBlocks, jsmnKeyvalsDelete]
    exact Deletes.nil
  | (iter, kv) :: list => by
    rw [jsmnKeyvalsBlocks, jsmnKeyvalsDelete]
    exact (jsmnFree_deletes iter).seq
      ((jsmnKeyvalDelete_deletes kv).seq (jsmnKeyvalsDelete_deletes list))

theorem jsmnValsDelete_deletes : ∀ list : List (Nat × JsmnVal),
    Deletes (jsmnValsBlocks list) (jsmnValsDelete list)
  | [] => by
    rw [jsmnValsBlocks, jsmnValsDelete]
    exact Deletes.nil
  | (iter, v) :: list => by
    rw [jsmnValsBlocks, jsmnValsDelete]
    exact (jsmnFree_deletes iter).seq
      ((jsmnValDelete_deletes v).seq (jsmnValsDelete_deletes list))

end

theorem Deletes.shrink (h : Deletes bs m) {l : Ledger} (hg : Grew l s.heap (bs ++ cs))
    {Q : Unit → JsmnState → Prop} (hq : ∀ s', Grew l s'.heap cs → s'.pos = s.pos → Q () s') :
    Wp m s Q E := by
  refine (h s E (List.nodup_append.mp hg.nodup).1 ?_).imp ?_
  · intro b hb
    exact hg.subset (by simp [hb])
  · rintro - s' ⟨hs, hpos⟩
    exact hq s' (hg.shrink hs) hpos

end Delete

theorem jsmnKeyvalsBlocks_append (list : List (Nat × JsmnKeyval)) (iter : Nat) (kv : JsmnKeyval) :
    jsmnKeyvalsBlocks (list ++ [(iter, kv)]) = jsmnKeyvalsBlocks list ++ (iter :: kv.blocks) := by
  induction list with
  | nil => simp [jsmnKeyvalsBlocks]
  | cons entry list ih => simp [jsmnKeyvalsBlocks, ih]

theorem jsmnValsBlocks_append (list : List (Nat × JsmnVal)) (iter : Nat) (v : JsmnVal) :
    jsmnValsBlocks (list ++ [(iter, v)]) = jsmnValsBlocks list ++ (iter :: v.blocks) := by
  induction list with
  | nil => simp [jsmnValsBlocks]
  | cons entry list ih => simp [jsmnValsBlocks, ih]

theorem jsmnObjectBlocks_eq :
    jsmnObjectBlocks = fun obj => jsmnKeyvalsBlocks obj.list ++ [obj.listAddr, obj.addr] := by
  funext ⟨addr, listAddr, list⟩
  rw [jsmnObjectBlocks]

theorem jsmnArrayBlocks_eq :
    jsmnArrayBlocks = fun array => jsmnValsBlocks array.list ++ [array.listAddr, array.addr] := by
  funext ⟨addr, listAddr, list⟩
  rw [jsmnArrayBlocks]

end LibCC
