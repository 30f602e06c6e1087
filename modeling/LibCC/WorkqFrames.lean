import LibCC.WorkqLife

/-! What the steps other than cc_workq_run and cc_workq_purge leave alone: a
node keeps its task, its purge id and its priority, no node becomes pending,
and the pending queue keeps its order. -/

namespace LibCC

open LabelledRun SequenceFamily

variable {threads : Nat} {C τ : Type} [DecidableEq C] [DecidableEq τ]

structure Trims (q q' : Workq τ) : Prop where
  state : q'.state = q.state
  purgeId : q'.purgeId = q.purgeId
  pending : q'.pending.Sublist q.pending
  data : q'.queues.data = q.queues.data
  node : ∀ node n', q'.node node = some n' → ∃ n, q.node node = some n ∧ n'.task = n.task ∧
    n'.purgeId = n.purgeId ∧ n'.priority = n.priority ∧ (n'.status = .pending → n.status = .pending)

/-- The thread is in no call of cc_workq_reset or cc_workq_delete. -/
def WorkqClient.ordinary : WorkqClient τ → Bool
  | idle | waitAsleep _ _ _ _ | cancelAsleep _ _ _ _ | unlocked _ | finishAsleep _ | fault => true
  | _ => false

def WorkqCall.ordinary : WorkqCall τ → Bool
  | run _ _ _ | purge | reset _ | delete => false
  | _ => true

def WorkqCall.isRun : WorkqCall τ → Bool
  | run _ _ _ => true
  | _ => false

section Parts

variable {q q' q'' : Workq τ}

omit [DecidableEq τ] in
theorem Trims.refl (q : Workq τ) : Trims q q :=
  ⟨rfl, rfl, .refl _, rfl, fun _ n hn => ⟨n, hn, rfl, rfl, rfl, id⟩⟩

omit [DecidableEq τ] in
theorem Trims.trans (h : Trims q q') (h' : Trims q' q'') : Trims q q'' := by
  refine ⟨h'.state.trans h.state, h'.purgeId.trans h.purgeId, h'.pending.trans h.pending,
    h'.data.trans h.data, ?_⟩
  intro node n'' hn''
  obtain ⟨n', hn', ht', hp', hr', hs'⟩ := h'.node node n'' hn''
  obtain ⟨n, hn, ht, hp, hr, hs⟩ := h.node node n' hn'
  exact ⟨n, hn, ht'.trans ht, hp'.trans hp, hr'.trans hr, fun hst => hs (hs' hst)⟩

theorem trims_without (q : Workq τ) (k : WorkqQueue) (iter : IterPtr) (n : WorkqNode τ) :
    Trims q (q.without k iter n) := by
  refine ⟨rfl, rfl, ?_, rfl, fun node n' hn' => ⟨n', ?_, rfl, rfl, rfl, id⟩⟩
  · change (Function.update q.queues.seq k ((q.queues.seq k).erase iter) .pending).Sublist _
    by_cases hk : k = .pending
    · subst hk
      rw [Function.update_self]
      exact List.erase_sublist
    · rw [Function.update_of_ne (Ne.symm hk)]
      exact .refl _
  · have hne : node ≠ q.queues.data iter := by
      rintro rfl
      simp [Workq.without] at hn'
    simpa [Workq.without, hne] using hn'

theorem trims_flush (h : WorkqInv q) : Trims q (workqFlushLocked q).2 := by
  have hf := workqFlushLocked_spec h
  refine ⟨hf.state, hf.purgeId, hf.pending ▸ .refl _, hf.data,
    fun node n' hn' => ⟨n', ?_, rfl, rfl, rfl, id⟩⟩
  obtain ⟨k, iter, hi, hd, -, -⟩ := hf.evolves.inv.place hn'
  have hp := hf.peek k iter hi
  rw [Workq.peek, Workq.peek, hd, hn', ← hf.data, hd] at hp
  exact hp.symm

omit [DecidableEq τ] in
theorem trims_shift {k k' : WorkqQueue} (hk : k ≠ k') (hk' : k' ≠ .pending) (iter : IterPtr)
    {status : WorkqStatus} (hs : status ≠ .pending) : Trims q (q.shift k k' iter status) := by
  refine ⟨rfl, rfl, ?_, shift_data .., fun node n' hn' => ?_⟩
  · change ((q.shift k k' iter status).queues.seq .pending).Sublist _
    rw [shift_seq hk, Function.update_of_ne (Ne.symm hk')]
    by_cases hp : k = .pending
    · subst hp
      rw [Function.update_self]
      exact List.erase_sublist
    · rw [Function.update_of_ne (Ne.symm hp)]
      exact .refl _
  · rw [shift_node] at hn'
    split_ifs at hn'
    · obtain ⟨n, hn, rfl⟩ := Option.map_eq_some_iff.mp hn'
      exact ⟨n, hn, rfl, rfl, rfl, fun hc => absurd hc hs⟩
    · exact ⟨n', hn', rfl, rfl, rfl, id⟩

omit [DecidableEq τ] in
theorem ordinary_of_sleepsOn {pc : WorkqClient τ} {x : τ × IterPtr × Nat}
    (h : pc.sleepsOn = some x) : pc.ordinary = true := by
  cases pc <;> first | rfl | simp [WorkqClient.sleepsOn] at h

theorem WaitStep.trims {drop : IterPtr → Prop} {freed : Prop} {r : WorkqSection τ}
    (h : WaitStep drop freed q r) : Trims q r.q ∧ r.pc.ordinary = true := by
  cases h with
  | absent => exact ⟨.refl q, rfl⟩
  | bereft => exact ⟨.refl q, rfl⟩
  | looped _ hw _ ha _ =>
    cases hw with
    | sleep => exact ⟨.refl q, ordinary_of_sleepsOn ha⟩
    | unlock => exact ⟨.refl q, rfl⟩
    | done => exact ⟨trims_without q _ _ _, rfl⟩

theorem finishSection_trims (h : WorkqInv q) :
    Trims q (workqFinishSection q).q ∧ (workqFinishSection q).pc.ordinary = true := by
  simp only [workqFinishSection, workqFinish_eq]
  refine ⟨trims_flush h, ?_⟩
  split_ifs <;> rfl

theorem callSection_run (h : WorkqInv q) {task : τ} {priority : Int} {alloc : WorkqAlloc}
    {r : WorkqSection τ} (hr : workqCallSection q (.run task priority alloc) = some r) :
    RunOutcome task priority q r.events r.broadcast r.q ∧ r.pc = .idle := by
  by_cases ha : alloc.Fresh q = true
  · simp only [workqCallSection, ha, if_true, Option.some.injEq] at hr
    subst hr
    exact ⟨workqRun_spec h ha task priority, rfl⟩
  · simp [workqCallSection, ha] at hr

theorem run_idle (h : WorkqInv q) {op : WorkqCall τ} {r : WorkqSection τ}
    (hr : workqCallSection q op = some r) (hop : op.isRun = true) : r.pc = .idle := by
  cases op with
  | run => exact (callSection_run h hr).2
  | _ => simp [WorkqCall.isRun] at hop

theorem callSection_trims (h : WorkqInv q) {op : WorkqCall τ} {r : WorkqSection τ}
    (hr : workqCallSection q op = some r) (hop : op.ordinary = true) :
    Trims q r.q ∧ r.pc.ordinary = true := by
  cases op with
  | wait | cancel => exact (callSection_waits h hr rfl).trims
  | status task =>
    obtain rfl := Option.some.inj hr
    exact ⟨.refl q, rfl⟩
  | pending =>
    obtain rfl := Option.some.inj hr
    exact ⟨.refl q, rfl⟩
  | flush =>
    obtain rfl := Option.some.inj hr
    exact ⟨trims_flush h, rfl⟩
  | finish =>
    obtain rfl := Option.some.inj hr
    exact finishSection_trims h
  | run => simp [WorkqCall.ordinary] at hop
  | purge => simp [WorkqCall.ordinary] at hop
  | reset => simp [WorkqCall.ordinary] at hop
  | delete => simp [WorkqCall.ordinary] at hop

theorem resumeSection_trims (h : WorkqInv q) {pc : WorkqClient τ} {joined : Bool}
    {r : WorkqSection τ} (hr : workqResumeSection joined q pc = some r)
    (hs : ∀ task iter node n, pc.sleepsOn = some (task, iter, node) → q.node node = some n →
      n.task = task ∧ q.mapTask task = some iter) (hpc : pc.ordinary = true) :
    Trims q r.q ∧ r.pc.ordinary = true := by
  cases pc with
  | waitAsleep | cancelAsleep =>
    exact (resumeSection_waits h hr hs (by simp [WorkqClient.sleepsOn])).trims
  | finishAsleep awake =>
    cases awake with
    | false => simp [workqResumeSection] at hr
    | true =>
      obtain rfl := Option.some.inj hr
      exact finishSection_trims h
  | idle => simp [workqResumeSection] at hr
  | unlocked node => simp [workqResumeSection] at hr
  | fault => simp [workqResumeSection] at hr
  | _ => simp [WorkqClient.ordinary] at hpc

end Parts

section Workers

variable {s s' : WorkqSys threads C τ}

omit [DecidableEq C] [DecidableEq τ] in
theorem WorkqSys.Ready.trims (h : WorkqSysInv s) {w : Fin threads} (hr : s.Ready w s') :
    Trims s.q s'.q := by
  cases hr with
  | enter => exact .refl _
  | @report iter node ret hw =>
    obtain ⟨-, hd⟩ := h.holder w iter node (by rw [hw]; rfl)
    have hq : (s.report w iter node ret).q =
        s.q.shift .active .complete iter (workqRetStatus ret) := workqReport_eq hd ret
    rw [hq]
    exact trims_shift (by simp) (by simp) iter (by cases ret <;> simp [workqRetStatus])

omit [DecidableEq C] [DecidableEq τ] in
theorem thread_trims (s : WorkqSys threads C τ) (w : Fin threads) : Trims s.q (s.thread w).q := by
  rcases workqThreadSection_cases s.q with ⟨hr, -⟩ | ⟨hr, -⟩ | ⟨iter, rest, hp, -, hr⟩
  · simpa [WorkqSys.thread, hr] using Trims.refl s.q
  · simpa [WorkqSys.thread, hr] using Trims.refl s.q
  · simpa [WorkqSys.thread, hr] using
      trims_shift (show WorkqQueue.pending ≠ .active by simp) (by simp) iter
        (show WorkqStatus.active ≠ .pending by simp)

end Workers

section Origins

variable {q q' : Workq τ} {events : List (WorkqEvent τ)}

theorem RunOutcome.purgeId {task : τ} {priority : Int} {broadcast : Bool}
    (ho : RunOutcome task priority q events broadcast q') : q'.purgeId = q.purgeId := by
  cases ho with
  | failed _ hu => exact hu.purgeId
  | _ => rfl

theorem RunOutcome.origin {task : τ} {priority : Int} {broadcast : Bool} (h : WorkqInv q)
    (ho : RunOutcome task priority q events broadcast q') {node : Nat} {n' : WorkqNode τ}
    (hn' : q'.node node = some n') :
    (n'.task = task ∧ n'.purgeId = q.purgeId ∧ (n'.status = .pending → n'.priority = priority)) ∨
    (n'.task ≠ task ∧ q.node node = some n') := by
  -- the task of an allocated node is mapped to the iter of the node
  have hother : ∀ iter, q.mapTask task = some iter → q.node node = some n' →
      node ≠ q.queues.data iter → n'.task ≠ task := by
    rintro iter hm hn hne rfl
    exact hne (h.data_of_mapTask hn hm).symm
  cases ho with
  | @removed iter n hm hi hn ht =>
    have hne : node ≠ q.queues.data iter := by
      rintro rfl
      simp [Workq.without] at hn'
    have hn₀ : q.node node = some n' := by simpa [Workq.without, hne] using hn'
    exact .inr ⟨hother iter hm hn₀ hne, hn₀⟩
  | @active iter hm hi =>
    obtain ⟨n, hn, hk, ht⟩ := h.queued .active iter hi
    by_cases hne : node = q.queues.data iter
    · subst hne
      have hq : q.node (q.queues.data iter) = some n := hn
      simp only [Workq.setNode, Function.update_self, hq, Option.map_some, Option.some.injEq] at hn'
      obtain ⟨k, n₁, -, hn₁, ht₁⟩ := h.mapped task iter hm
      obtain rfl := Option.some.inj (hn.symm.trans hn₁)
      subst hn'
      refine .inl ⟨ht₁, rfl, fun hs => ?_⟩
      exact absurd (home_eq_active.mp hk ▸ hs : WorkqStatus.active = .pending) (by simp)
    · have hn₀ : q.node node = some n' := by simpa [Workq.setNode, hne] using hn'
      exact .inr ⟨hother iter hm hn₀ hne, hn₀⟩
  | @pending iter hm hi =>
    by_cases hne : node = q.queues.data iter
    · subst hne
      obtain ⟨k, n, -, hn, ht⟩ := h.mapped task iter hm
      have hq : q.node (q.queues.data iter) = some n := hn
      simp only [Workq.setNode, Function.update_self, hq, Option.map_some, Option.some.injEq] at hn'
      subst hn'
      exact .inl ⟨ht, rfl, fun _ => rfl⟩
    · have hn₀ : q.node node = some n' := by simpa [Workq.setNode, hne] using hn'
      exact .inr ⟨hother iter hm hn₀ hne, hn₀⟩
  | failed hm hu =>
    rw [hu.node] at hn'
    obtain ⟨k, iter, -, -, -, hm'⟩ := h.place hn'
    refine .inr ⟨?_, hn'⟩
    rintro rfl
    simp [hm] at hm'
  | @created a b iter hm hf hab hge hlt =>
    by_cases hne : node = q.nextNode
    · subst hne
      simp only [withNode_node, Function.update_self, Option.some.injEq] at hn'
      subst hn'
      exact .inl ⟨rfl, rfl, fun _ => rfl⟩
    · have hn₀ : q.node node = some n' := by simpa [hne] using hn'
      obtain ⟨k, iter', -, -, -, hm'⟩ := h.place hn₀
      refine .inr ⟨?_, hn₀⟩
      rintro rfl
      simp [hm] at hm'

omit [DecidableEq τ] in
/-- Each observation of cc_workq_purge is the finish_fn call of a node that it drops. -/
theorem Purged.mem_events (hp : Purged q events q') {e : WorkqEvent τ} (he : e ∈ events) :
    ∃ iter n, PurgeDrops q iter ∧ q.peek iter = some n ∧
      e = .finished (q.queues.data iter) n.task n.status := by
  rw [hp.events, List.mem_append] at he
  rcases he with he | he
  · obtain ⟨iter, hi, hmap⟩ := List.mem_filterMap.mp he
    obtain ⟨n, hn, rfl⟩ := Option.map_eq_some_iff.mp hmap
    exact ⟨iter, n, .inl (List.mem_filter.mp hi), hn, rfl⟩
  · obtain ⟨iter, hi, hmap⟩ := List.mem_filterMap.mp he
    obtain ⟨n, hn, rfl⟩ := Option.map_eq_some_iff.mp hmap
    exact ⟨iter, n, .inr (List.mem_filter.mp hi), hn, rfl⟩

omit [DecidableEq τ] in
theorem PurgeDrops.not_active (h : WorkqInv q) {iter : IterPtr} {n : WorkqNode τ}
    (hd : PurgeDrops q iter) (hn : q.peek iter = some n) : n.status ≠ .active := by
  have hk : n.status.home = some .pending ∨ n.status.home = some .complete := by
    rcases hd with ⟨hi, -⟩ | ⟨hi, -⟩
    · obtain ⟨n', hn', hk, -⟩ := h.queued .pending iter hi
      obtain rfl := Option.some.inj (hn.symm.trans hn')
      exact .inl hk
    · obtain ⟨n', hn', hk, -⟩ := h.queued .complete iter hi
      obtain rfl := Option.some.inj (hn.symm.trans hn')
      exact .inr hk
  intro hs
  simp [hs] at hk

omit [DecidableEq τ] in
theorem Purged.origin (hp : Purged q events q') {node : Nat} {n' : WorkqNode τ}
    (hn' : q'.node node = some n') : ∃ n, q.node node = some n ∧
      ((n.status = .active ∧ n' = n.mark q.purgeId) ∨
       (n.status ≠ .active ∧ n' = n ∧ n.purgeId = q.purgeId ∧
          (n.status = .pending ∨ n.purgeId ≠ workqPurgeMark))) := by
  obtain ⟨k, iter, hi, hd, hk, -⟩ := hp.evolves.inv.place hn'
  have hpeek : q'.peek iter = some n' := by rw [Workq.peek, hd, hn']
  have hnode : ∀ n, q.peek iter = some n → q.node node = some n := by
    intro n hn
    rw [Workq.peek, ← hp.data, hd] at hn
    exact hn
  cases k with
  | pending =>
    have hi' : iter ∈ q'.pending := hi
    have hn := (hp.peek iter (.inl hi')).symm.trans hpeek
    rw [hp.pending, List.mem_filter, hn] at hi'
    have hs : n'.status = .pending := home_eq_pending.mp hk
    have hkept : n'.purgeId = q.purgeId := by simpa [WorkqNode.stale] using hi'.2
    exact ⟨n', hnode n' hn, .inr ⟨by simp [hs], rfl, hkept, .inl hs⟩⟩
  | active =>
    have hi' : iter ∈ q.active := by
      rw [← hp.evolves.active]
      exact hi
    have hm := (hp.marked iter hi').symm.trans hpeek
    obtain ⟨n, hn, rfl⟩ := Option.map_eq_some_iff.mp hm
    rw [mark_status] at hk
    exact ⟨n, hnode n hn, .inl ⟨home_eq_active.mp hk, rfl⟩⟩
  | complete =>
    have hi' : iter ∈ q'.complete := hi
    have hn := (hp.peek iter (.inr hi')).symm.trans hpeek
    rw [hp.complete, List.mem_filter, hn] at hi'
    have hs : n'.status ≠ .active := by
      rcases home_eq_complete.mp hk with hs | hs <;> simp [hs]
    have hkept : n'.purgeId = q.purgeId ∧ n'.purgeId ≠ workqPurgeMark := by
      simpa [WorkqNode.spent] using hi'.2
    exact ⟨n', hnode n' hn, .inr ⟨hs, rfl, hkept.1, .inr hkept.2⟩⟩

end Origins

end LibCC
