import LibCC.WorkqSections

/-! What each function of cc_workq.c does to the workq while it holds the
mutex. -/

namespace LibCC

open SequenceFamily

variable {τ : Type} [DecidableEq τ] {q q' : Workq τ}

omit [DecidableEq τ] in
/-- The iters that cc_workq_purge removes. -/
def PurgeDrops (q : Workq τ) (iter : IterPtr) : Prop :=
  (iter ∈ q.pending ∧ (q.peek iter).any (WorkqNode.stale q.purgeId) = true) ∨
  (iter ∈ q.complete ∧ (q.peek iter).any (WorkqNode.spent q.purgeId) = true)

/-- What cc_workq_purge observes and leaves. -/
structure Purged (q : Workq τ) (events : List (WorkqEvent τ)) (q' : Workq τ) : Prop where
  evolves : Evolves (PurgeDrops q) q events q'
  events : events =
    droppedEvents q (q.pending.filter fun iter => (q.peek iter).any (WorkqNode.stale q.purgeId)) ++
    droppedEvents q (q.complete.filter fun iter => (q.peek iter).any (WorkqNode.spent q.purgeId))
  pending : q'.pending =
    q.pending.filter fun iter => !(q.peek iter).any (WorkqNode.stale q.purgeId)
  complete : q'.complete =
    q.complete.filter fun iter => !(q.peek iter).any (WorkqNode.spent q.purgeId)
  data : q'.queues.data = q.queues.data
  peek : ∀ iter, iter ∈ q'.pending ∨ iter ∈ q'.complete → q'.peek iter = q.peek iter
  marked : ∀ iter ∈ q.active, q'.peek iter = (q.peek iter).map (WorkqNode.mark q.purgeId)
  purgeId : q'.purgeId = if q.purgeId = workqPurgeMark then workqPurgeMark else 1 - q.purgeId
  state : q'.state = q.state
  nextNode : q'.nextNode = q.nextNode

omit [DecidableEq τ] in
theorem workqPurge_swap {purgeId : Int} (hid : q.purgeId = purgeId) :
    (if q.purgeId ≠ workqPurgeMark then { q with purgeId := 1 - q.purgeId } else q) =
      { q with purgeId := if purgeId = workqPurgeMark then workqPurgeMark else 1 - purgeId } := by
  subst hid
  by_cases hm : q.purgeId = workqPurgeMark
  · rw [if_neg (not_not.mpr hm), if_pos hm, ← hm]
  · rw [if_pos hm, if_neg hm]

theorem workqPurge_spec (h : WorkqInv q) : Purged q (workqPurge q).1 (workqPurge q).2 := by
  have h₁ : Dropped .pending (WorkqNode.stale q.purgeId) [] q.pending q _ _ :=
    workqDropLoop_spec (by simp) _ h rfl
  set q₁ := (workqDropLoop .pending (WorkqNode.stale q.purgeId) q.pending q).2 with hq₁
  set e₁ := (workqDropLoop .pending (WorkqNode.stale q.purgeId) q.pending q).1 with he₁
  have h₂ := workqPurgeActive_spec h₁.evolves.inv
  set q₂ := workqPurgeActive q₁.active q₁ with hq₂
  have h₃ : Dropped .complete (WorkqNode.spent q₂.purgeId) [] q₂.complete q₂ _ _ :=
    workqDropLoop_spec (by simp) _ (h₂.retouched.inv h₁.evolves.inv) rfl
  set q₃ := (workqDropLoop .complete (WorkqNode.spent q₂.purgeId) q₂.complete q₂).2 with hq₃
  set e₃ := (workqDropLoop .complete (WorkqNode.spent q₂.purgeId) q₂.complete q₂).1 with he₃
  have hid₂ : q₂.purgeId = q.purgeId := h₂.purgeId.trans h₁.purgeId
  have hdata₂ : q₂.queues.data = q.queues.data := h₂.retouched.data.trans h₁.data
  have hactive : q₁.active = q.active := h₁.other (by simp)
  have hseqc : q₁.queues.seq .complete = q.queues.seq .complete := h₁.other (by simp)
  have hcomplete : q₂.complete = q.complete := (congrFun h₂.seq .complete).trans hseqc
  have hpending : q₃.pending = q₁.pending :=
    (h₃.other (by simp)).trans (congrFun h₂.seq .pending)
  -- a node outside the active queue is not marked
  have hpeek₂ : ∀ k, k ≠ .active → ∀ iter ∈ q₁.queues.seq k, q₂.peek iter = q.peek iter :=
    fun k hk iter hi => (h₂.unmarked k hk iter hi).trans (h₁.peek k iter hi)
  have hpeekc : ∀ iter ∈ q.complete, q₂.peek iter = q.peek iter :=
    fun iter hi => hpeek₂ .complete (by simp) iter (hseqc ▸ hi)
  have hrest : q₃.complete =
      q.complete.filter fun iter => !(q.peek iter).any (WorkqNode.spent q.purgeId) := by
    rw [Workq.complete, h₃.rest, hcomplete, hid₂]
    exact List.filter_congr (fun x hx => by rw [hpeekc x hx])
  have hev : Evolves (PurgeDrops q) q (e₁ ++ e₃) q₃ := by
    have hev₁ := h₁.evolves.mono fun iter hi => (.inl hi : PurgeDrops q iter)
    refine Evolves.trans h (hev₁.retouch h₂.retouched)
      (h₂.retouched.nextNode.trans h₁.nextNode) (h₃.evolves.mono ?_)
    rintro iter ⟨hi, hd⟩
    rw [hcomplete] at hi
    rw [hpeekc iter hi, hid₂] at hd
    exact .inr ⟨hi, hd⟩
  have hres : workqPurge q = (e₁ ++ e₃, { q₃ with
      purgeId := if q.purgeId = workqPurgeMark then workqPurgeMark else 1 - q.purgeId }) :=
    congrArg (Prod.mk (e₁ ++ e₃)) (workqPurge_swap (h₃.purgeId.trans hid₂))
  rw [hres]
  refine ⟨hev.retouch (retouched_purgeId ..), ?_, hpending.trans h₁.rest, hrest,
    h₃.data.trans hdata₂, ?_, fun iter hi => ?_, rfl, h₃.state.trans (h₂.state.trans h₁.state),
    h₃.nextNode.trans (h₂.retouched.nextNode.trans h₁.nextNode)⟩
  · simp only
    rw [h₁.events, h₃.events, hcomplete, hid₂]
    congr 1
    rw [List.filter_congr (fun x hx => by rw [hpeekc x hx])]
    exact droppedEvents_congr hdata₂ (fun x hx => hpeekc x (List.mem_of_mem_filter hx))
  · rintro iter (hi | hi)
    · have hi₁ : iter ∈ q₁.queues.seq .pending := by
        rw [← Workq.pending, ← hpending]
        exact hi
      exact (h₃.peek .pending iter hi).trans (hpeek₂ .pending (by simp) iter hi₁)
    · have hi₃ : iter ∈ q₃.complete := hi
      rw [hrest] at hi₃
      exact (h₃.peek .complete iter hi).trans (hpeekc iter (List.mem_of_mem_filter hi₃))
  · have hi₁ : iter ∈ q₁.active := by rwa [hactive]
    have hi₃ : iter ∈ q₃.queues.seq .active := by
      rw [h₃.other (by simp), h₂.seq]
      exact hi₁
    refine (h₃.peek .active iter hi₃).trans ?_
    rw [h₂.marked iter hi₁, h₁.peek .active iter hi₁, h₁.purgeId]

section Flush

/-- What cc_workq_flushLocked observes and leaves. -/
structure Flushed (q : Workq τ) (events : List (WorkqEvent τ)) (q' : Workq τ) : Prop where
  evolves : Evolves (· ∈ q.complete) q events q'
  events : events = droppedEvents q q.complete
  pending : q'.pending = q.pending
  complete : q'.complete = []
  data : q'.queues.data = q.queues.data
  peek : ∀ k, ∀ iter ∈ q'.queues.seq k, q'.peek iter = q.peek iter
  purgeId : q'.purgeId = q.purgeId
  state : q'.state = q.state
  nextNode : q'.nextNode = q.nextNode

theorem workqFlushLocked_spec (h : WorkqInv q) :
    Flushed q (workqFlushLocked q).1 (workqFlushLocked q).2 := by
  have hd : Dropped .complete (fun _ => true) [] q.complete q _ _ :=
    workqDropLoop_spec (by simp) _ h rfl
  have hany : ∀ iter ∈ q.complete, (q.peek iter).any (fun _ => true) = true := by
    intro iter hi
    obtain ⟨n, hn, -⟩ := h.queued .complete iter hi
    simp [hn]
  refine ⟨hd.evolves.mono (fun _ hi => hi.1), ?_, hd.other (by simp), hd.rest.trans ?_, hd.data,
    hd.peek, hd.purgeId, hd.state, hd.nextNode⟩
  · have he := hd.events
    rw [List.filter_eq_self.mpr hany] at he
    exact he
  · rw [List.filter_eq_nil_iff]
    intro iter hi
    simp [hany iter hi]

theorem workqFinish_eq (q : Workq τ) : workqFinish q = ((workqFlushLocked q).1,
    decide ((workqFlushLocked q).2.pending ≠ [] ∨ (workqFlushLocked q).2.active ≠ []),
    (workqFlushLocked q).2) := by
  by_cases hc : q.complete = []
  · simp [workqFinish, workqFlushLocked, hc, workqDropLoop]
  · simp [workqFinish, hc]

end Flush

section Run

/-- The workq with a new node between `a` and `b` of the pending queue. -/
def Workq.withNode (q : Workq τ) (a b : List IterPtr) (iter : IterPtr) (task : τ) (priority : Int) :
    Workq τ :=
  { q with
    queues := ⟨Function.update q.queues.seq .pending (a ++ iter :: b),
      Function.update q.queues.data iter q.nextNode⟩
    mapTask := Function.update q.mapTask task (some iter)
    node := Function.update q.node q.nextNode (some ⟨.pending, priority, q.purgeId, task⟩)
    nextNode := q.nextNode + 1 }

@[simp] theorem withNode_seq (q : Workq τ) (a b : List IterPtr) (iter : IterPtr) (task : τ)
    (priority : Int) : (q.withNode a b iter task priority).queues.seq =
      Function.update q.queues.seq .pending (a ++ iter :: b) := rfl

@[simp] theorem withNode_mapTask (q : Workq τ) (a b : List IterPtr) (iter : IterPtr) (task : τ)
    (priority : Int) : (q.withNode a b iter task priority).mapTask =
      Function.update q.mapTask task (some iter) := rfl

@[simp] theorem withNode_node (q : Workq τ) (a b : List IterPtr) (iter : IterPtr) (task : τ)
    (priority : Int) : (q.withNode a b iter task priority).node =
      Function.update q.node q.nextNode (some ⟨.pending, priority, q.purgeId, task⟩) := rfl

structure Unchanged (q q' : Workq τ) : Prop where
  seq : q'.queues.seq = q.queues.seq
  data : ∀ k, ∀ iter ∈ q.queues.seq k, q'.queues.data iter = q.queues.data iter
  mapTask : q'.mapTask = q.mapTask
  node : q'.node = q.node
  purgeId : q'.purgeId = q.purgeId
  state : q'.state = q.state
  nextNode : q.nextNode ≤ q'.nextNode

/-- What cc_workq_run observes and leaves, and whether it broadcasts. -/
inductive RunOutcome (task : τ) (priority : Int) (q : Workq τ) :
    List (WorkqEvent τ) → Bool → Workq τ → Prop
  | removed {iter : IterPtr} {n : WorkqNode τ} : q.mapTask task = some iter → iter ∈ q.complete →
      q.peek iter = some n → n.task = task →
      RunOutcome task priority q [.returned (q.queues.data iter) n.status] false
        (q.without .complete iter n)
  | active {iter : IterPtr} : q.mapTask task = some iter → iter ∈ q.active →
      RunOutcome task priority q [.result .active] false
        (q.setNode (q.queues.data iter) fun n => { n with purgeId := q.purgeId })
  | pending {iter : IterPtr} : q.mapTask task = some iter → iter ∈ q.pending →
      RunOutcome task priority q [.result .pending] false
        ({ q with queues := workqReposition priority iter q }.setNode (q.queues.data iter)
          fun n => { n with purgeId := q.purgeId, priority := priority })
  | failed {q' : Workq τ} : q.mapTask task = none → Unchanged q q' →
      RunOutcome task priority q [.result .error] false q'
  | created {a b : List IterPtr} {iter : IterPtr} : q.mapTask task = none →
      (∀ k, iter ∉ q.queues.seq k) → q.pending = a ++ b →
      (∀ pos, a.getLast? = some pos → q.priority pos ≥ priority) →
      (∀ pos ∈ b, q.priority pos < priority) →
      RunOutcome task priority q [.created q.nextNode task, .result .pending] true
        (q.withNode a b iter task priority)

omit [DecidableEq τ] in
theorem WorkqAlloc.fresh_seq {iter : IterPtr}
    (h : iter ∉ q.pending ∧ iter ∉ q.active ∧ iter ∉ q.complete) (k : WorkqQueue) :
    iter ∉ q.queues.seq k := by
  cases k with
  | pending => exact h.1
  | active => exact h.2.1
  | complete => exact h.2.2

theorem workqRunNode_spec (h : WorkqInv q) {task : τ} {iter : IterPtr}
    (hm : q.mapTask task = some iter) (priority : Int) :
    RunOutcome task priority q (workqRunNode priority iter q).1 false
      (workqRunNode priority iter q).2 := by
  obtain ⟨k, n, hi, hn, ht⟩ := h.mapped task iter hm
  obtain ⟨n', hn', hk, -⟩ := h.queued k iter hi
  obtain rfl := Option.some.inj (hn.symm.trans hn')
  have hnode : q.node (q.queues.data iter) = some n := hn
  cases hs : n.status with
  | error =>
    rw [hs] at hk
    exact absurd hk (by simp [WorkqStatus.home])
  | pending =>
    simp only [workqRunNode, hnode, hs]
    exact .pending hm (h.mem_of_status hm hn (by rw [hs]; rfl))
  | active =>
    simp only [workqRunNode, hnode, hs]
    exact .active hm (h.mem_of_status hm hn (by rw [hs]; rfl))
  | complete =>
    simp only [workqRunNode, hnode, hs, workqRemoveLocked_eq hn]
    have hr : RunOutcome task priority q _ false _ := .removed hm
      (h.mem_of_status hm hn (by rw [hs]; rfl)) hn ht
    rwa [hs] at hr
  | failure =>
    simp only [workqRunNode, hnode, hs, workqRemoveLocked_eq hn]
    have hr : RunOutcome task priority q _ false _ := .removed hm
      (h.mem_of_status hm hn (by rw [hs]; rfl)) hn ht
    rwa [hs] at hr

omit [DecidableEq τ] in
/-- The new node goes behind the last one that is not less urgent. -/
theorem workqInsert_eq (hnd : q.pending.Nodup) (node : Nat) (priority : Int) (iter : IterPtr) :
    ∃ a b, q.pending = a ++ b ∧ (∀ pos, a.getLast? = some pos → q.priority pos ≥ priority) ∧
      (∀ pos ∈ b, q.priority pos < priority) ∧
      workqInsert node priority iter q = { q with
        queues := ⟨Function.update q.queues.seq .pending (a ++ iter :: b),
          Function.update q.queues.data iter node⟩ } := by
  cases hp : workqInsertPos priority q with
  | none =>
    refine ⟨[], q.pending, rfl, by simp, fun pos hpos => ?_, ?_⟩
    · have hh := List.find?_eq_none.mp hp pos (by simpa using hpos)
      simpa using hh
    · simp only [workqInsert, hp, ListSeqs.insert, insertBefore_none]
      rfl
  | some pos =>
    obtain ⟨a, b, hl, hge, hlt⟩ := find?_reverse_split hp
    rw [hl] at hnd
    have hpa : pos ∉ a := fun hm => List.disjoint_of_nodup_append hnd hm (by simp)
    refine ⟨a ++ [pos], b, by simpa using hl, fun x hx => ?_, fun x hx => ?_, ?_⟩
    · rw [List.getLast?_concat] at hx
      obtain rfl := Option.some.inj hx
      simpa using hge
    · simpa using hlt x hx
    · have hl' : q.queues.seq .pending = a ++ pos :: b := hl
      simp only [workqInsert, hp, ListSeqs.append, hl', insertAfter_split iter hpa,
        List.append_assoc, List.singleton_append]
      rfl

theorem workqRunNode_new (q : Workq τ) (a b : List IterPtr) (iter : IterPtr) (task : τ)
    (priority : Int) :
    workqRunNode priority iter (q.withNode a b iter task priority) =
      ([.result .pending], q.withNode a b iter task priority) := by
  have hdata : (q.withNode a b iter task priority).queues.data iter = q.nextNode :=
    Function.update_self ..
  have hnode : (q.withNode a b iter task priority).node q.nextNode =
      some ⟨.pending, priority, q.purgeId, task⟩ := Function.update_self ..
  have hprio : (q.withNode a b iter task priority).priority iter = priority := by
    simp [Workq.priority, Workq.peek, hdata, hnode]
  have hrepo : workqReposition priority iter (q.withNode a b iter task priority) =
      (q.withNode a b iter task priority).queues := by
    simp [workqReposition, hprio]
  simp only [workqRunNode, hdata, hnode, hrepo, Workq.setNode, Option.map_some]
  simp only [Workq.withNode, Function.update_idem]

theorem workqInsert_new (h : WorkqInv q) (iter : IterPtr) (task : τ) (priority : Int) :
    ∃ a b, q.pending = a ++ b ∧ (∀ pos, a.getLast? = some pos → q.priority pos ≥ priority) ∧
      (∀ pos ∈ b, q.priority pos < priority) ∧
      workqInsert q.nextNode priority iter (workqNodeNew task priority q) =
        { q.withNode a b iter task priority with mapTask := q.mapTask } := by
  have hnone := h.unborn (le_refl q.nextNode)
  have hprio : ∀ x ∈ q.pending, (workqNodeNew task priority q).priority x = q.priority x := by
    intro x hx
    have hd : q.queues.data x ≠ q.nextNode := by
      intro hd
      obtain ⟨n, hn, -⟩ := h.queued .pending x hx
      rw [Workq.peek, hd, hnone] at hn
      exact absurd hn (by simp)
    have hp : (workqNodeNew task priority q).peek x = q.peek x := Function.update_of_ne hd ..
    rw [Workq.priority, Workq.priority, hp]
  obtain ⟨a, b, hab, hge, hlt, hins⟩ := workqInsert_eq (q := workqNodeNew task priority q)
    (h.separated.1 .pending) q.nextNode priority iter
  have hab' : q.pending = a ++ b := hab
  refine ⟨a, b, hab', fun x hx => ?_, fun x hx => ?_, hins⟩
  · rw [← hprio x (by rw [hab']; exact List.mem_append_left b (List.mem_of_getLast? hx))]
    exact hge x hx
  · rw [← hprio x (by rw [hab']; exact List.mem_append_right a hx)]
    exact hlt x hx

/-- Whichever allocation fails, cc_workq_run undoes what it has done. -/
theorem workqRun_failed (h : WorkqInv q) {alloc : WorkqAlloc} (ha : alloc.Fresh q = true) {task : τ}
    (hm : q.mapTask task = none) (hf : ∀ iter, alloc ≠ .success iter) (priority : Int) :
    ∃ q', workqRun task priority alloc q = ([.result .error], false, q') ∧ Unchanged q q' := by
  have hnode : Function.update (Function.update q.node q.nextNode
      (some ⟨.pending, priority, q.purgeId, task⟩)) q.nextNode none = q.node := by
    rw [Function.update_idem, ← h.unborn (le_refl q.nextNode), Function.update_eq_self]
  cases alloc with
  | failNode =>
    simp only [workqRun, hm]
    exact ⟨q, rfl, rfl, fun _ _ _ => rfl, rfl, rfl, rfl, rfl, le_refl _⟩
  | failQueue =>
    simp only [workqRun, hm]
    exact ⟨_, rfl, rfl, fun _ _ _ => rfl, rfl, hnode, rfl, rfl, Nat.le_succ _⟩
  | failMapAdd iter =>
    have hfresh : ∀ k, iter ∉ q.queues.seq k :=
      WorkqAlloc.fresh_seq (by simpa [WorkqAlloc.Fresh] using ha)
    obtain ⟨a, b, hab, -, -, hins⟩ := workqInsert_new h iter task priority
    simp only [workqRun, hm, hins]
    refine ⟨_, rfl, ?_, fun k x hx => ?_, rfl, hnode, rfl, rfl, Nat.le_succ _⟩
    · have hia : iter ∉ a := by
        intro hi
        apply hfresh .pending
        rw [← Workq.pending, hab]
        exact List.mem_append_left b hi
      simp only [workqNodeDelete, Workq.withNode, ListSeqs.remove, ListSeqs.setSeq_seq,
        Function.update_self, Function.update_idem, erase_split hia]
      rw [← hab, Workq.pending, Function.update_eq_self]
    · have hne : x ≠ iter := by
        rintro rfl
        exact hfresh k hx
      exact Function.update_of_ne hne ..
  | success iter => exact absurd rfl (hf iter)

theorem workqRun_success (h : WorkqInv q) {task : τ} (hm : q.mapTask task = none) (iter : IterPtr)
    (priority : Int) :
    ∃ a b, q.pending = a ++ b ∧ (∀ pos, a.getLast? = some pos → q.priority pos ≥ priority) ∧
      (∀ pos ∈ b, q.priority pos < priority) ∧
      workqRun task priority (.success iter) q =
        ([.created q.nextNode task, .result .pending], true,
          q.withNode a b iter task priority) := by
  obtain ⟨a, b, hab, hge, hlt, hins⟩ := workqInsert_new h iter task priority
  refine ⟨a, b, hab, hge, hlt, ?_⟩
  have hq : ({ ({ q.withNode a b iter task priority with mapTask := q.mapTask } : Workq τ) with
      mapTask := Function.update q.mapTask task (some iter) } : Workq τ) =
      q.withNode a b iter task priority := rfl
  have hmt : ({ q.withNode a b iter task priority with mapTask := q.mapTask } :
      Workq τ).mapTask = q.mapTask := rfl
  simp only [workqRun, hm, hins, hmt, hq, workqRunNode_new]

theorem workqRun_spec (h : WorkqInv q) {alloc : WorkqAlloc} (ha : alloc.Fresh q = true) (task : τ)
    (priority : Int) :
    RunOutcome task priority q (workqRun task priority alloc q).1
      (workqRun task priority alloc q).2.1 (workqRun task priority alloc q).2.2 := by
  cases hm : q.mapTask task with
  | some iter =>
    simp only [workqRun, hm]
    exact workqRunNode_spec h hm priority
  | none =>
    by_cases hs : ∃ iter, alloc = .success iter
    · obtain ⟨iter, rfl⟩ := hs
      obtain ⟨a, b, hab, hge, hlt, he⟩ := workqRun_success h hm iter priority
      rw [he]
      have hfresh : ∀ k, iter ∉ q.queues.seq k :=
        WorkqAlloc.fresh_seq (by simpa [WorkqAlloc.Fresh] using ha)
      exact .created hm hfresh hab hge hlt
    · obtain ⟨q', he, hu⟩ := workqRun_failed h ha hm (fun iter hi => hs ⟨iter, hi⟩) priority
      rw [he]
      exact .failed hm hu

def RunDrops (task : τ) (q : Workq τ) (iter : IterPtr) : Prop :=
  q.mapTask task = some iter ∧ iter ∈ q.complete

omit [DecidableEq τ] in
theorem workqReposition_perm (priority : Int) {iter : IterPtr} (hi : iter ∈ q.pending) :
    ∃ l, l.Perm q.pending ∧ workqReposition priority iter q = q.queues.setSeq .pending l := by
  have hself : q.queues = q.queues.setSeq .pending q.pending := by
    simp only [ListSeqs.setSeq, Workq.pending, Function.update_eq_self]
  have hmove : ∀ dst, ∃ l, l.Perm q.pending ∧
      q.queues.move .pending iter dst = q.queues.setSeq .pending l := by
    intro dst
    unfold ListSeqs.move
    split_ifs
    · exact ⟨q.pending, .refl _, hself⟩
    · exact ⟨_, (insertBefore_perm iter dst _).trans (List.perm_cons_erase hi).symm, rfl⟩
  have hmoven : ∀ dst, ∃ l, l.Perm q.pending ∧
      q.queues.moven .pending iter dst = q.queues.setSeq .pending l := by
    intro dst
    unfold ListSeqs.moven
    split_ifs
    · exact ⟨q.pending, .refl _, hself⟩
    · exact ⟨_, (insertAfter_perm iter dst _).trans (List.perm_cons_erase hi).symm, rfl⟩
  unfold workqReposition
  split_ifs
  · split
    · exact hmoven _
    · exact hmove _
  · split
    · exact hmove _
    · exact hmoven _
  · exact ⟨q.pending, .refl _, hself⟩

omit [DecidableEq τ] in
theorem retouched_reposition (priority : Int) {iter : IterPtr} (hi : iter ∈ q.pending) :
    Retouched q { q with queues := workqReposition priority iter q } := by
  obtain ⟨l, hp, hl⟩ := workqReposition_perm priority hi
  rw [hl]
  refine ⟨fun k => ?_, by simp [Workq.active], rfl, rfl, rfl, fun _ => rfl⟩
  by_cases hk : k = .pending
  · subst hk
    simpa [Workq.pending] using hp
  · simp [hk]

omit [DecidableEq τ] in
theorem Unchanged.evolves (hu : Unchanged q q') (h : WorkqInv q) {events : List (WorkqEvent τ)}
    (he : ∀ node, nodeEvents node events = []) (drop : IterPtr → Prop) :
    Evolves drop q events q' := by
  have hpeek : ∀ k, ∀ x ∈ q.queues.seq k, q'.peek x = q.peek x := by
    intro k x hx
    rw [Workq.peek, Workq.peek, hu.node, hu.data k x hx]
  refine ⟨⟨by rw [hu.seq]; exact h.separated, fun k x hx => ?_, fun task x hx => ?_,
    fun node n hn => ?_⟩, by rw [Workq.active, hu.seq]; rfl, hu.nextNode, fun node n x hn hx => ?_,
    fun node hn _ => ⟨he node, by rw [hu.node]; exact hn⟩,
    fun node hle => .inl ⟨he node, by rw [hu.node]; exact h.unborn hle⟩,
    fun _ _ _ hm => absurd hm (no_finished he)⟩
  · rw [hu.seq] at hx
    rw [hpeek k x hx, hu.mapTask]
    exact h.queued k x hx
  · rw [hu.mapTask] at hx
    obtain ⟨k, n, hk, hn, ht⟩ := h.mapped task x hx
    exact ⟨k, n, by rw [hu.seq]; exact hk, by rw [hpeek k x hk]; exact hn, ht⟩
  · rw [hu.node] at hn
    obtain ⟨hlt, k, x, hx, hd⟩ := h.allocated node n hn
    exact ⟨hlt.trans_le hu.nextNode, k, x, by rw [hu.seq]; exact hx,
      by rw [hu.data k x hx]; exact hd⟩
  · obtain ⟨k, y, hy, hd, -, hm⟩ := h.place hn
    obtain rfl := Option.some.inj (hx.symm.trans hm)
    exact .inl ⟨he node, by rw [hu.mapTask]; exact hx, by rw [hu.data k x hy]; exact hd, n,
      by rw [hu.node]; exact hn, rfl, rfl⟩

omit [DecidableEq τ] in
theorem WorkqInv.data_ne_next (h : WorkqInv q) {k : WorkqQueue} {x : IterPtr}
    (hx : x ∈ q.queues.seq k) : q.queues.data x ≠ q.nextNode := by
  obtain ⟨n, hn, -⟩ := h.queued k x hx
  have hlt := (h.allocated _ n hn).1
  omega

section Create

variable {a b : List IterPtr} {iter : IterPtr} {task : τ}

theorem mem_withNode (hab : q.pending = a ++ b) (priority : Int) (k : WorkqQueue) (x : IterPtr) :
    x ∈ (q.withNode a b iter task priority).queues.seq k ↔
      x ∈ q.queues.seq k ∨ (k = .pending ∧ x = iter) := by
  by_cases hk : k = .pending
  · subst hk
    have hq : q.queues.seq .pending = a ++ b := hab
    simp only [withNode_seq, Function.update_self, hq, List.mem_append, List.mem_cons, true_and]
    tauto
  · simp [hk]

theorem withNode_data (hf : ∀ k, iter ∉ q.queues.seq k) (priority : Int) {k : WorkqQueue}
    {x : IterPtr} (hx : x ∈ q.queues.seq k) :
    (q.withNode a b iter task priority).queues.data x = q.queues.data x := by
  have hne : x ≠ iter := by
    rintro rfl
    exact hf k hx
  exact Function.update_of_ne hne ..

theorem withNode_peek (h : WorkqInv q) (hf : ∀ k, iter ∉ q.queues.seq k) (priority : Int)
    {k : WorkqQueue} {x : IterPtr} (hx : x ∈ q.queues.seq k) :
    (q.withNode a b iter task priority).peek x = q.peek x := by
  rw [Workq.peek, withNode_data hf priority hx]
  exact Function.update_of_ne (h.data_ne_next hx) ..

theorem withNode_peek_new (q : Workq τ) (a b : List IterPtr) (iter : IterPtr) (task : τ)
    (priority : Int) : (q.withNode a b iter task priority).peek iter =
      some ⟨.pending, priority, q.purgeId, task⟩ := by
  have hd : (q.withNode a b iter task priority).queues.data iter = q.nextNode :=
    Function.update_self ..
  rw [Workq.peek, hd]
  exact Function.update_self ..

omit [DecidableEq τ] in
theorem WorkqInv.task_of_unmapped (h : WorkqInv q) (hm : q.mapTask task = none) {node : Nat}
    {n : WorkqNode τ} (hn : q.node node = some n) : n.task ≠ task := by
  rintro rfl
  obtain ⟨-, x, -, -, -, hx⟩ := h.place hn
  rw [hm] at hx
  exact absurd hx (by simp)

theorem WorkqInv.withNode (h : WorkqInv q) (hm : q.mapTask task = none)
    (hf : ∀ k, iter ∉ q.queues.seq k) (hab : q.pending = a ++ b) (priority : Int) :
    WorkqInv (q.withNode a b iter task priority) := by
  have hmem : ∀ k x, x ∈ (q.withNode a b iter task priority).queues.seq k ↔
      x ∈ q.queues.seq k ∨ (k = .pending ∧ x = iter) :=
    mem_withNode hab priority
  have hnew := withNode_peek_new q a b iter task priority
  refine ⟨?_, fun k x hx => ?_, fun t x hx => ?_, fun node n hn => ?_⟩
  · have hnd := h.separated.1 .pending
    have hq : q.queues.seq .pending = a ++ b := hab
    rw [hq] at hnd
    have hia : iter ∉ a ++ b := by
      rw [← hq]
      exact hf .pending
    refine h.separated.update (List.perm_middle.nodup_iff.mpr (List.nodup_cons.mpr ⟨hia, hnd⟩))
      (fun x hx k hk => ?_)
    rcases List.mem_cons.mp (List.perm_middle.mem_iff.mp hx) with rfl | hx
    · exact absurd hk (hf k)
    · rw [← hq] at hx
      exact h.separated.2 k .pending x hk hx
  · rcases (hmem k x).mp hx with hx | ⟨rfl, rfl⟩
    · obtain ⟨n, hn, hk, hmx⟩ := h.queued k x hx
      exact ⟨n, (withNode_peek h hf priority hx).trans hn, hk,
        (Function.update_of_ne (h.task_of_unmapped hm hn) ..).trans hmx⟩
    · exact ⟨_, hnew, rfl, Function.update_self ..⟩
  · by_cases ht : t = task
    · subst ht
      rw [withNode_mapTask, Function.update_self] at hx
      obtain rfl := Option.some.inj hx
      exact ⟨.pending, _, (hmem _ _).mpr (.inr ⟨rfl, rfl⟩), hnew, rfl⟩
    · rw [withNode_mapTask, Function.update_of_ne ht] at hx
      obtain ⟨k, n, hk, hn, ht'⟩ := h.mapped t x hx
      exact ⟨k, n, (hmem k x).mpr (.inl hk), (withNode_peek h hf priority hk).trans hn, ht'⟩
  · by_cases hc : node = q.nextNode
    · subst hc
      exact ⟨Nat.lt_succ_self _, .pending, iter, (hmem _ _).mpr (.inr ⟨rfl, rfl⟩),
        Function.update_self ..⟩
    · rw [withNode_node, Function.update_of_ne hc] at hn
      obtain ⟨hlt, k, x, hx, hd⟩ := h.allocated node n hn
      exact ⟨hlt.trans (Nat.lt_succ_self _), k, x, (hmem k x).mpr (.inl hx),
        (withNode_data hf priority hx).trans hd⟩

theorem evolves_create (h : WorkqInv q) (hm : q.mapTask task = none)
    (hf : ∀ k, iter ∉ q.queues.seq k) (hab : q.pending = a ++ b) (priority : Int)
    (drop : IterPtr → Prop) :
    Evolves drop q [.created q.nextNode task, .result .pending]
      (q.withNode a b iter task priority) := by
  refine ⟨h.withNode hm hf hab priority, by simp [Workq.active], Nat.le_succ _,
    fun node n x hn hx => ?_, fun node hn hlt => ?_, fun node hle => ?_,
    fun node t status hm => absurd hm (by simp)⟩
  · obtain ⟨k, y, hy, hd, -, hmy⟩ := h.place hn
    obtain rfl := Option.some.inj (hx.symm.trans hmy)
    have hc : node ≠ q.nextNode := hd ▸ h.data_ne_next hy
    exact .inl ⟨by simp [Ne.symm hc],
      (Function.update_of_ne (h.task_of_unmapped hm hn) ..).trans hx,
      (withNode_data hf priority hy).trans hd, n, (Function.update_of_ne hc ..).trans hn, rfl, rfl⟩
  · have hc : node ≠ q.nextNode := by omega
    exact ⟨by simp [Ne.symm hc], (Function.update_of_ne hc ..).trans hn⟩
  · by_cases hc : node = q.nextNode
    · subst hc
      exact .inr ⟨by simp, _, Function.update_self .., rfl, by simp⟩
    · exact .inl ⟨by simp [Ne.symm hc], (Function.update_of_ne hc ..).trans (h.unborn hle)⟩

end Create

theorem RunOutcome.evolves {task : τ} {priority : Int} {events : List (WorkqEvent τ)}
    {broadcast : Bool} (hr : RunOutcome task priority q events broadcast q') (h : WorkqInv q) :
    Evolves (RunDrops task q) q events q' := by
  cases hr with
  | removed hm hi hn ht =>
    refine (evolves_remove h hi (by simp) hn (fun _ => by simp)
      (fun _ _ _ hm => absurd hm (by simp))).mono ?_
    rintro x rfl
    exact ⟨hm, hi⟩
  | @active iter hm hi =>
    have hr := retouched_setNode q (q.queues.data iter)
      (f := fun n => { n with purgeId := q.purgeId }) (fun _ => rfl) (fun _ => rfl)
    exact hr.evolves h (fun node => nodeEvents_result node _) _
  | @pending iter hm hi =>
    have hr := (retouched_reposition priority hi).trans (retouched_setNode _ (q.queues.data iter)
      (f := fun n => { n with purgeId := q.purgeId, priority := priority }) (fun _ => rfl)
      (fun _ => rfl))
    exact hr.evolves h (fun node => nodeEvents_result node _) _
  | failed hm hu => exact hu.evolves h (fun node => nodeEvents_result node _) _
  | created hm hf hab _ _ => exact evolves_create h hm hf hab priority _

end Run

section Wait

/-- How a wait or cancel call ends its loop, when it removes nodes of `queues`. -/
inductive WaitOutcome (queues : List WorkqQueue) (blocking : Bool) (iter : IterPtr) (q : Workq τ) :
    WorkqWait τ → Prop
  | sleep : blocking = true → WaitOutcome queues blocking iter q .sleep
  | unlock : blocking = false → WaitOutcome queues blocking iter q .unlock
  | done {k : WorkqQueue} {n : WorkqNode τ} : k ∈ queues → iter ∈ q.queues.seq k →
      q.peek iter = some n →
        WaitOutcome queues blocking iter q (.done n.status (q.without k iter n))

theorem workqWait_spec (h : WorkqInv q) {task : τ} {iter : IterPtr}
    (hm : q.mapTask task = some iter) (blocking : Bool) :
    WaitOutcome [.complete] blocking iter q (workqWait blocking iter (q.queues.data iter) q) := by
  obtain ⟨k, n, hi, hn, -⟩ := h.mapped task iter hm
  obtain ⟨n', hn', hk, -⟩ := h.queued k iter hi
  obtain rfl := Option.some.inj (hn.symm.trans hn')
  have hnode : q.node (q.queues.data iter) = some n := hn
  have hin : n.status.home = some .complete → iter ∈ q.complete := h.mem_of_status hm hn
  have hsleep : WaitOutcome [.complete] blocking iter q (if blocking then .sleep else .unlock) := by
    cases blocking with
    | true => exact .sleep rfl
    | false => exact .unlock rfl
  have hdone : n.status.home = some .complete →
      WaitOutcome [.complete] blocking iter q (.done n.status (q.without .complete iter n)) :=
    fun hc => .done (by simp) (hin hc) hn
  cases hs : n.status with
  | error =>
    rw [hs] at hk
    exact absurd hk (by simp [WorkqStatus.home])
  | pending =>
    simp only [workqWait, hnode, hs]
    exact hsleep
  | active =>
    simp only [workqWait, hnode, hs]
    exact hsleep
  | complete =>
    rw [hs] at hin hdone
    simp only [workqWait, hnode, hs, workqRemoveLocked_eq hn, if_pos (hin rfl)]
    exact hdone rfl
  | failure =>
    rw [hs] at hin hdone
    simp only [workqWait, hnode, hs, workqRemoveLocked_eq hn, if_pos (hin rfl)]
    exact hdone rfl

theorem workqCancel_spec (h : WorkqInv q) {task : τ} {iter : IterPtr}
    (hm : q.mapTask task = some iter) (blocking : Bool) :
    WaitOutcome [.pending, .complete] blocking iter q
      (workqCancel blocking iter (q.queues.data iter) q) := by
  obtain ⟨k, n, hi, hn, -⟩ := h.mapped task iter hm
  obtain ⟨n', hn', hk, -⟩ := h.queued k iter hi
  obtain rfl := Option.some.inj (hn.symm.trans hn')
  have hnode : q.node (q.queues.data iter) = some n := hn
  have hin : ∀ k, n.status.home = some k → iter ∈ q.queues.seq k :=
    fun k => h.mem_of_status hm hn
  have hdone : ∀ k ∈ [WorkqQueue.pending, .complete], n.status.home = some k →
      WaitOutcome [.pending, .complete] blocking iter q (.done n.status (q.without k iter n)) :=
    fun k hk hc => .done hk (hin k hc) hn
  cases hs : n.status with
  | error =>
    rw [hs] at hk
    exact absurd hk (by simp [WorkqStatus.home])
  | pending =>
    rw [hs] at hin hdone
    have hi' : iter ∈ q.pending := hin .pending rfl
    simp only [workqCancel, hnode, hs, workqRemoveLocked_eq hn, if_pos hi']
    exact hdone .pending (by simp) rfl
  | active =>
    simp only [workqCancel, hnode, hs]
    cases blocking with
    | true => exact .sleep rfl
    | false => exact .unlock rfl
  | complete =>
    rw [hs] at hin hdone
    have hi' : iter ∈ q.complete := hin .complete rfl
    simp only [workqCancel, hnode, hs, workqRemoveLocked_eq hn, if_pos hi']
    exact hdone .complete (by simp) rfl
  | failure =>
    rw [hs] at hin hdone
    have hi' : iter ∈ q.complete := hin .complete rfl
    simp only [workqCancel, hnode, hs, workqRemoveLocked_eq hn, if_pos hi']
    exact hdone .complete (by simp) rfl

end Wait

end LibCC
