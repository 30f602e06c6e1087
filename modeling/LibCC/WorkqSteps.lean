import LibCC.WorkqCalls
import LibCC.WorkqSystem

/-! What each step of the threads can do. -/

namespace LibCC

open LabelledRun SequenceFamily

variable {threads : Nat} {C τ : Type} [DecidableEq C] [DecidableEq τ]

/-- The task, iter and node that a thread keeps while it sleeps in wait or
cancel. -/
def WorkqClient.sleepsOn : WorkqClient τ → Option (τ × IterPtr × Nat)
  | waitAsleep task iter node _ | cancelAsleep task iter node _ => some (task, iter, node)
  | _ => none

/-- The thread neither keeps a node nor has used a freed one. -/
def WorkqClient.calm : WorkqClient τ → Bool
  | waitAsleep _ _ _ _ | cancelAsleep _ _ _ _ | fault => false
  | _ => true

/-- The iter and node of the task that a worker has taken. -/
def WorkqWorker.holds : WorkqWorker → Option (IterPtr × Nat)
  | taken iter node | running iter node | returned iter node _ => some (iter, node)
  | _ => none

omit [DecidableEq τ] in
@[simp] theorem sleepsOn_signal (pc : WorkqClient τ) : pc.signal.sleepsOn = pc.sleepsOn := by
  cases pc <;> rfl

@[simp] theorem holds_signal (pc : WorkqWorker) : pc.signal.holds = pc.holds := by
  cases pc <;> rfl

/-- The iters whose nodes a call removes in its first section. -/
def WorkqCall.Drops (q : Workq τ) (iter : IterPtr) : WorkqCall τ → Prop
  | run task _ _ | wait task _ => RunDrops task q iter
  | cancel task _ => q.mapTask task = some iter ∧ (iter ∈ q.pending ∨ iter ∈ q.complete)
  | purge => PurgeDrops q iter
  | flush | finish => iter ∈ q.complete
  | status _ | pending | reset _ | delete => False

/-- The iters whose nodes a thread removes in its next section. -/
def WorkqClient.Drops (q : Workq τ) (iter : IterPtr) : WorkqClient τ → Prop
  | waitAsleep _ own _ true => own = iter ∧ iter ∈ q.complete
  | cancelAsleep _ own _ true => own = iter ∧ (iter ∈ q.pending ∨ iter ∈ q.complete)
  | finishAsleep true => iter ∈ q.complete
  | resetPurge _ _ | resetPurgeComplete _ | deletePurge => PurgeDrops q iter
  | _ => False

/-- What a section of a client does to the workq. The iter that its thread
goes to sleep on is the one of its task, and the thread fails only if it had
slept on a node that is freed. -/
structure SectionSpec (drop : IterPtr → Prop) (freed : Prop) (q : Workq τ) (r : WorkqSection τ) :
    Prop where
  evolves : Evolves drop q r.events r.q
  sleeps : ∀ task iter node, r.pc.sleepsOn = some (task, iter, node) →
    ∃ n, r.q.node node = some n ∧ n.task = task ∧ r.q.mapTask task = some iter
  sound : r.pc = .fault → freed

variable {q : Workq τ} {drop : IterPtr → Prop} {freed : Prop}

omit [DecidableEq τ] in
theorem SectionSpec.awake {r : WorkqSection τ} (h : Evolves drop q r.events r.q)
    (hs : r.pc.calm = true) : SectionSpec drop freed q r := by
  refine ⟨h, fun task iter node he => ?_, fun he => ?_⟩
  · cases hpc : r.pc <;> rw [hpc] at hs he <;>
      simp [WorkqClient.sleepsOn, WorkqClient.calm] at hs he
  · rw [he] at hs
    exact absurd hs (by simp [WorkqClient.calm])

omit [DecidableEq τ] in
theorem SectionSpec.idle (h : WorkqInv q) {events : List (WorkqEvent τ)}
    (he : ∀ node, nodeEvents node events = []) {pc : WorkqClient τ} (hs : pc.calm = true)
    (broadcast : Bool) : SectionSpec drop freed q ⟨events, pc, broadcast, q⟩ :=
  .awake ((Retouched.refl q).evolves h he drop) hs

/-- The next section of a wait or cancel call: the task has no node, the loop
goes on or ends, or the thread has slept on a node that is freed. -/
inductive WaitStep (drop : IterPtr → Prop) (freed : Prop) (q : Workq τ) : WorkqSection τ → Prop
  | absent : WaitStep drop freed q ⟨[.result .error], .idle, false, q⟩
  | looped {queues : List WorkqQueue} {blocking : Bool} {task : τ} {iter : IterPtr}
      {asleep : WorkqClient τ} {w : WorkqWait τ} : .active ∉ queues →
      WaitOutcome queues blocking iter q w → q.mapTask task = some iter →
      asleep.sleepsOn = some (task, iter, q.queues.data iter) →
      (∀ k ∈ queues, iter ∈ q.queues.seq k → drop iter) →
      WaitStep drop freed q (workqWaitSection asleep (q.queues.data iter) q w)
  | bereft (asleep : WorkqClient τ) (node : Nat) : freed →
      WaitStep drop freed q (workqWaitSection asleep node q .freed)

theorem WaitStep.spec (h : WorkqInv q) {r : WorkqSection τ} (hw : WaitStep drop freed q r) :
    SectionSpec drop freed q r := by
  cases hw with
  | absent => exact .idle h (fun node => nodeEvents_result node _) rfl _
  | bereft asleep node hf =>
    exact ⟨(Retouched.refl q).evolves h (fun _ => rfl) drop,
      fun _ _ _ he => absurd he (by simp [workqWaitSection, WorkqClient.sleepsOn]), fun _ => hf⟩
  | @looped queues blocking task iter asleep w hq hw hm ha hdrop =>
    cases hw with
    | sleep hb =>
      refine ⟨(Retouched.refl q).evolves h (fun _ => rfl) _, fun t i n he => ?_, fun he => ?_⟩
      · have he' : asleep.sleepsOn = some (t, i, n) := he
        rw [ha] at he'
        obtain ⟨rfl, rfl, rfl⟩ : task = t ∧ iter = i ∧ q.queues.data iter = n := by simpa using he'
        obtain ⟨k, m, -, hn, ht⟩ := h.mapped task iter hm
        exact ⟨m, hn, ht, hm⟩
      · have he' : asleep = .fault := he
        rw [he'] at ha
        exact absurd ha (by simp [WorkqClient.sleepsOn])
    | unlock hb => exact .idle h (fun _ => rfl) rfl _
    | @done k n hk hi hn =>
      have hka : k ≠ .active := by
        rintro rfl
        exact hq hk
      have hev : Evolves (· = iter) q [.returned (q.queues.data iter) n.status]
          (q.without k iter n) :=
        evolves_remove h hi hka hn (fun m => nodeEvents_returned m ..)
          (fun _ _ _ hm => absurd hm (by simp))
      refine .awake (hev.mono ?_) rfl
      rintro x rfl
      exact hdrop k hk hi

def WorkqCall.waits : WorkqCall τ → Bool
  | wait _ _ | cancel _ _ => true
  | _ => false

theorem callSection_waits (h : WorkqInv q) {op : WorkqCall τ} {r : WorkqSection τ}
    (hr : workqCallSection q op = some r) (hop : op.waits = true) :
    WaitStep (fun i => op.Drops q i) False q r := by
  cases op with
  | wait task blocking =>
    cases hm : q.mapTask task with
    | none =>
      simp only [workqCallSection, hm, Option.some.injEq] at hr
      subst hr
      exact .absent
    | some iter =>
      simp only [workqCallSection, hm, Option.some.injEq] at hr
      subst hr
      refine .looped (by simp) (workqWait_spec h hm blocking) hm rfl ?_
      intro k hk hi
      obtain rfl := List.mem_singleton.mp hk
      exact ⟨hm, hi⟩
  | cancel task blocking =>
    cases hm : q.mapTask task with
    | none =>
      simp only [workqCallSection, hm, Option.some.injEq] at hr
      subst hr
      exact .absent
    | some iter =>
      simp only [workqCallSection, hm, Option.some.injEq] at hr
      subst hr
      refine .looped (by simp) (workqCancel_spec h hm blocking) hm rfl ?_
      intro k hk hi
      rcases List.mem_pair.mp hk with rfl | rfl
      · exact ⟨hm, .inl hi⟩
      · exact ⟨hm, .inr hi⟩
  | _ => simp [WorkqCall.waits] at hop

/-- The node on which the thread sleeps is freed. -/
def WorkqClient.Bereft (q : Workq τ) (pc : WorkqClient τ) : Prop :=
  ∃ task iter node, pc.sleepsOn = some (task, iter, node) ∧ q.node node = none

theorem resumeSection_waits (h : WorkqInv q) {pc : WorkqClient τ} {joined : Bool}
    {r : WorkqSection τ} (hr : workqResumeSection joined q pc = some r)
    (hs : ∀ task iter node n, pc.sleepsOn = some (task, iter, node) → q.node node = some n →
      n.task = task ∧ q.mapTask task = some iter) (hpc : pc.sleepsOn ≠ none) :
    WaitStep (fun i => pc.Drops q i) (pc.Bereft q) q r := by
  cases pc with
  | waitAsleep task iter node awake =>
    cases awake with
    | false => exact absurd hr (by simp [workqResumeSection])
    | true =>
      obtain rfl := Option.some.inj hr
      cases hn : q.node node with
      | none =>
        simp only [workqWait, hn]
        exact .bereft _ _ ⟨task, iter, node, rfl, hn⟩
      | some n =>
        obtain ⟨rfl, hm⟩ := hs task iter node n rfl hn
        obtain rfl := h.data_of_mapTask hn hm
        refine .looped (by simp) (workqWait_spec h hm true) hm rfl ?_
        intro k hk hi
        obtain rfl := List.mem_singleton.mp hk
        exact ⟨rfl, hi⟩
  | cancelAsleep task iter node awake =>
    cases awake with
    | false => exact absurd hr (by simp [workqResumeSection])
    | true =>
      obtain rfl := Option.some.inj hr
      cases hn : q.node node with
      | none =>
        simp only [workqCancel, hn]
        exact .bereft _ _ ⟨task, iter, node, rfl, hn⟩
      | some n =>
        obtain ⟨rfl, hm⟩ := hs task iter node n rfl hn
        obtain rfl := h.data_of_mapTask hn hm
        refine .looped (by simp) (workqCancel_spec h hm true) hm rfl ?_
        intro k hk hi
        rcases List.mem_pair.mp hk with rfl | rfl
        · exact ⟨rfl, .inl hi⟩
        · exact ⟨rfl, .inr hi⟩
  | _ => simp [WorkqClient.sleepsOn] at hpc

theorem finishSection_spec (h : WorkqInv q) :
    SectionSpec (· ∈ q.complete) freed q (workqFinishSection q) := by
  simp only [workqFinishSection, workqFinish_eq]
  refine .awake (workqFlushLocked_spec h).evolves ?_
  dsimp only
  split_ifs <;> rfl

omit [DecidableEq τ] in
theorem resetSection_spec (h : WorkqInv q) (purgeId : Int) :
    SectionSpec drop freed q (workqResetSection purgeId q) := by
  refine .idle h (fun _ => rfl) ?_ _
  split_ifs <;> rfl

theorem purgeSection_spec (h : WorkqInv q) {pc : WorkqClient τ} (hs : pc.calm = true)
    (broadcast : Bool) :
    SectionSpec (PurgeDrops q) freed q ⟨(workqPurge q).1, pc, broadcast, (workqPurge q).2⟩ :=
  .awake (workqPurge_spec h).evolves hs

theorem callSection_spec (h : WorkqInv q) {call : WorkqCall τ} {r : WorkqSection τ}
    (hr : workqCallSection q call = some r) : SectionSpec (fun i => call.Drops q i) False q r := by
  cases call with
  | run task priority alloc =>
    by_cases ha : alloc.Fresh q = true
    · simp only [workqCallSection, ha, if_true, Option.some.injEq] at hr
      subst hr
      exact .awake ((workqRun_spec h ha task priority).evolves h) rfl
    · simp [workqCallSection, ha] at hr
  | wait | cancel => exact (callSection_waits h hr rfl).spec h
  | status task =>
    obtain rfl := Option.some.inj hr
    exact .idle h (fun node => nodeEvents_result node _) rfl _
  | pending =>
    obtain rfl := Option.some.inj hr
    exact .idle h (fun _ => rfl) rfl _
  | purge =>
    obtain rfl := Option.some.inj hr
    exact purgeSection_spec h rfl _
  | flush =>
    obtain rfl := Option.some.inj hr
    exact .awake (workqFlushLocked_spec h).evolves rfl
  | finish =>
    obtain rfl := Option.some.inj hr
    exact finishSection_spec h
  | reset blocking =>
    obtain rfl := Option.some.inj hr
    exact .idle h (fun _ => rfl) rfl _
  | delete =>
    obtain rfl := Option.some.inj hr
    exact .awake ((retouched_state q .stop).evolves h (fun _ => rfl) _) rfl

theorem resumeSection_spec (h : WorkqInv q) {pc : WorkqClient τ} {joined : Bool}
    {r : WorkqSection τ} (hr : workqResumeSection joined q pc = some r)
    (hs : ∀ task iter node n, pc.sleepsOn = some (task, iter, node) → q.node node = some n →
      n.task = task ∧ q.mapTask task = some iter) :
    SectionSpec (fun i => pc.Drops q i) (pc.Bereft q) q r := by
  cases pc with
  | waitAsleep | cancelAsleep =>
    exact (resumeSection_waits h hr hs (by simp [WorkqClient.sleepsOn])).spec h
  | finishAsleep awake =>
    cases awake with
    | false => exact absurd hr (by simp [workqResumeSection])
    | true =>
      obtain rfl := Option.some.inj hr
      exact finishSection_spec h
  | resetSaved purgeId blocking =>
    obtain rfl := Option.some.inj hr
    exact .awake ((retouched_purgeId q _).evolves h (fun _ => rfl) _) rfl
  | resetPurge purgeId blocking =>
    obtain rfl := Option.some.inj hr
    refine purgeSection_spec h ?_ _
    split_ifs <;> rfl
  | resetActive purgeId =>
    obtain rfl := Option.some.inj hr
    exact resetSection_spec h purgeId
  | resetAsleep purgeId awake =>
    cases awake with
    | false => exact absurd hr (by simp [workqResumeSection])
    | true =>
      obtain rfl := Option.some.inj hr
      exact resetSection_spec h purgeId
  | resetPurgeComplete purgeId =>
    obtain rfl := Option.some.inj hr
    exact purgeSection_spec h rfl _
  | resetRestore purgeId =>
    obtain rfl := Option.some.inj hr
    exact .awake ((retouched_purgeId q _).evolves h (fun _ => rfl) _) rfl
  | deleteJoin =>
    cases joined with
    | false => exact absurd hr (by simp [workqResumeSection])
    | true =>
      obtain rfl := Option.some.inj hr
      exact .idle h (fun _ => rfl) rfl _
  | deleteMark =>
    obtain rfl := Option.some.inj hr
    exact .awake ((retouched_purgeId q _).evolves h (fun _ => rfl) _) rfl
  | deletePurge =>
    obtain rfl := Option.some.inj hr
    exact purgeSection_spec h rfl _
  | deleteLists =>
    obtain rfl := Option.some.inj hr
    exact .idle h (fun _ => rfl) rfl _
  | idle => exact absurd hr (by simp [workqResumeSection])
  | unlocked node => exact absurd hr (by simp [workqResumeSection])
  | deleted => exact absurd hr (by simp [workqResumeSection])
  | fault => exact absurd hr (by simp [workqResumeSection])

section Move

omit [DecidableEq τ] in
/-- The workq with one node in another queue and with another status. -/
def Workq.shift (q : Workq τ) (k k' : WorkqQueue) (iter : IterPtr) (status : WorkqStatus) :
    Workq τ :=
  { q with queues := q.queues.swapn k k' iter none }.setNode (q.queues.data iter)
    fun n => { n with status := status }

omit [DecidableEq τ] in
theorem workqReport_eq {iter : IterPtr} {node : Nat} (hd : q.queues.data iter = node) (ret : Bool) :
    workqReport iter node ret q = q.shift .active .complete iter (workqRetStatus ret) := by
  subst hd
  rfl

omit [DecidableEq τ] in
theorem shift_seq {k k' : WorkqQueue} (hk : k ≠ k') (iter : IterPtr) (status : WorkqStatus) :
    (q.shift k k' iter status).queues.seq =
      Function.update (Function.update q.queues.seq k ((q.queues.seq k).erase iter)) k'
        (q.queues.seq k' ++ [iter]) := by
  simp [Workq.shift, Workq.setNode, ListSeqs.swapn, hk, ListSeqs.remove]

omit [DecidableEq τ] in
@[simp] theorem shift_data (k k' : WorkqQueue) (iter : IterPtr) (status : WorkqStatus) :
    (q.shift k k' iter status).queues.data = q.queues.data := by
  unfold Workq.shift Workq.setNode ListSeqs.swapn ListSeqs.moven
  split_ifs <;> rfl

omit [DecidableEq τ] in
theorem shift_node (k k' : WorkqQueue) (iter : IterPtr) (status : WorkqStatus) (node : Nat) :
    (q.shift k k' iter status).node node =
      if node = q.queues.data iter then (q.node node).map fun n => { n with status := status }
      else q.node node := by
  by_cases hn : node = q.queues.data iter
  · subst hn
    simp [Workq.shift, Workq.setNode]
  · simp [Workq.shift, Workq.setNode, hn]

omit [DecidableEq τ] in
theorem setNode_eq_none {node m : Nat} {f : WorkqNode τ → WorkqNode τ} :
    (q.setNode node f).node m = none ↔ q.node m = none := by
  by_cases hm : m = node
  · subst hm
    simp [Workq.setNode]
  · simp [Workq.setNode, hm]

omit [DecidableEq τ] in
theorem shift_origin {k k' : WorkqQueue} {iter : IterPtr} {status : WorkqStatus} {node : Nat}
    {n' : WorkqNode τ} (h : (q.shift k k' iter status).node node = some n') :
    ∃ n, q.node node = some n ∧ n'.task = n.task := by
  rw [shift_node] at h
  split_ifs at h
  · obtain ⟨n, hn, rfl⟩ := Option.map_eq_some_iff.mp h
    exact ⟨n, hn, rfl⟩
  · exact ⟨n', h, rfl⟩

omit [DecidableEq τ] in
theorem WorkqInv.mem_shift (h : WorkqInv q) {k k' : WorkqQueue} (hk : k ≠ k') {iter : IterPtr}
    (hi : iter ∈ q.queues.seq k) (status : WorkqStatus) (j : WorkqQueue) (x : IterPtr) :
    x ∈ (q.shift k k' iter status).queues.seq j ↔
      (x ∈ q.queues.seq j ∧ x ≠ iter) ∨ (j = k' ∧ x = iter) := by
  rw [shift_seq hk]
  by_cases hj' : j = k'
  · subst hj'
    have hn : x ∈ q.queues.seq j → x ≠ iter := by
      rintro hx rfl
      exact hk (h.separated.2 k j x hi hx)
    simp only [Function.update_self, List.mem_append, List.mem_singleton, true_and]
    tauto
  · by_cases hj : j = k
    · subst hj
      simp [(h.separated.1 j).mem_erase_iff, hj', and_comm]
    · have hn : x ∈ q.queues.seq j → x ≠ iter := by
        rintro hx rfl
        exact hj (h.separated.2 j k x hx hi)
      simp only [Function.update_of_ne hj', Function.update_of_ne hj, hj', false_and, or_false]
      tauto

omit [DecidableEq τ] in
theorem WorkqInv.shift (h : WorkqInv q) {k k' : WorkqQueue} (hk : k ≠ k') {iter : IterPtr}
    (hi : iter ∈ q.queues.seq k) {status : WorkqStatus} (hs : status.home = some k') :
    WorkqInv (q.shift k k' iter status) := by
  have hmem := h.mem_shift hk hi status
  have hpeek : ∀ j, ∀ x ∈ q.queues.seq j, x ≠ iter →
      (q.shift k k' iter status).peek x = q.peek x := by
    intro j x hx hne
    rw [Workq.peek, shift_data, shift_node, if_neg (fun he => hne (h.data_inj hx hi he))]
    rfl
  obtain ⟨n, hn, -, hm⟩ := h.queued k iter hi
  have hown : (q.shift k k' iter status).peek iter = some { n with status := status } := by
    have hn' : q.node (q.queues.data iter) = some n := hn
    rw [Workq.peek, shift_data, shift_node, if_pos rfl, hn']
    rfl
  refine ⟨⟨fun j => ?_, fun j j' x hx hx' => ?_⟩, fun j x hx => ?_, fun task x hx => ?_,
    fun node n' hn' => ?_⟩
  · rw [shift_seq hk]
    by_cases hj' : j = k'
    · subst hj'
      rw [Function.update_self]
      refine List.Nodup.append (h.separated.1 j) (List.nodup_singleton iter) ?_
      rw [List.disjoint_singleton]
      exact fun hx => hk (h.separated.2 k j iter hi hx)
    · rw [Function.update_of_ne hj']
      by_cases hj : j = k
      · subst hj
        rw [Function.update_self]
        exact (h.separated.1 j).erase iter
      · rw [Function.update_of_ne hj]
        exact h.separated.1 j
  · rcases (hmem j x).mp hx with ⟨hx, hne⟩ | ⟨rfl, rfl⟩ <;>
      rcases (hmem j' x).mp hx' with ⟨hx', hne'⟩ | ⟨rfl, he⟩
    · exact h.separated.2 j j' x hx hx'
    · exact absurd he hne
    · exact absurd rfl hne'
    · rfl
  · rcases (hmem j x).mp hx with ⟨hx, hne⟩ | ⟨rfl, rfl⟩
    · rw [hpeek j x hx hne]
      exact h.queued j x hx
    · exact ⟨_, hown, hs, hm⟩
  · obtain ⟨j, n', hj, hn', ht⟩ := h.mapped task x hx
    by_cases hne : x = iter
    · subst hne
      obtain rfl := Option.some.inj (hn.symm.trans hn')
      exact ⟨k', _, (hmem k' x).mpr (.inr ⟨rfl, rfl⟩), hown, ht⟩
    · exact ⟨j, n', (hmem j x).mpr (.inl ⟨hj, hne⟩), (hpeek j x hj hne).trans hn', ht⟩
  · obtain ⟨n₀, hn₀, -⟩ := shift_origin hn'
    obtain ⟨hlt, j, x, hx, hd⟩ := h.allocated node n₀ hn₀
    refine ⟨hlt, ?_⟩
    by_cases hne : x = iter
    · subst hne
      exact ⟨k', x, (hmem k' x).mpr (.inr ⟨rfl, rfl⟩), by rw [shift_data]; exact hd⟩
    · exact ⟨j, x, (hmem j x).mpr (.inl ⟨hx, hne⟩), by rw [shift_data]; exact hd⟩

omit [DecidableEq τ] in
theorem workqThreadSection_cases (q : Workq τ) :
    (workqThreadSection q = (.asleep false, q) ∧ q.pending = [] ∧ q.state = .running) ∨
    (workqThreadSection q = (.exited, q) ∧ q.state = .stop) ∨
    ∃ iter rest, q.pending = iter :: rest ∧ q.state = .running ∧
      workqThreadSection q =
        (.taken iter (q.queues.data iter), q.shift .pending .active iter .active) := by
  unfold workqThreadSection
  cases hs : q.state with
  | stop => simp
  | running =>
    cases hp : q.pending with
    | nil => simp
    | cons iter rest => exact .inr (.inr ⟨iter, rest, by simp [workqTake, Workq.shift]⟩)

end Move

section Step

variable {s s' : WorkqSys threads C τ} {events : List (WorkqEvent τ)}

theorem step_call {c : C} {call : WorkqCall τ} (h : s.step (.call c call) = some (events, s')) :
    s.client c = .idle ∧
      ∃ r, workqCallSection s.q call = some r ∧ events = r.events ∧ s' = s.section_ c r := by
  simp only [WorkqSys.step] at h
  split_ifs at h with hc
  obtain ⟨r, hr, he⟩ := Option.map_eq_some_iff.mp h
  obtain ⟨rfl, rfl⟩ := Prod.mk.inj he
  exact ⟨hc, r, hr, rfl, rfl⟩

theorem step_resume {c : C} (h : s.step (.resume c) = some (events, s')) :
    ∃ r, workqResumeSection (decide (∀ w, s.worker w = .exited)) s.q (s.client c) = some r ∧
      events = r.events ∧ s' = s.section_ c r := by
  obtain ⟨r, hr, he⟩ := Option.map_eq_some_iff.mp h
  obtain ⟨rfl, rfl⟩ := Prod.mk.inj he
  exact ⟨r, hr, rfl, rfl⟩

theorem step_read {c : C} {garbage : WorkqStatus}
    (h : s.step (.read c garbage) = some (events, s')) :
    ∃ node, s.client c = .unlocked node ∧
      events = [.peeked node ((s.q.node node).elim garbage WorkqNode.status)] ∧
      s' = s.setClient c .idle := by
  simp only [WorkqSys.step] at h
  split at h
  · rename_i node hc
    obtain ⟨rfl, rfl⟩ := Prod.mk.inj (Option.some.inj h)
    exact ⟨node, hc, rfl, rfl⟩
  · exact absurd h (by simp)

theorem step_wakeClient {c : C} (h : s.step (.wakeClient c) = some (events, s')) :
    events = [] ∧ s' = s.setClient c (s.client c).signal := by
  obtain ⟨rfl, rfl⟩ := Prod.mk.inj (Option.some.inj h)
  exact ⟨rfl, rfl⟩

theorem step_wakeWorker {w : Fin threads} (h : s.step (.wakeWorker w) = some (events, s')) :
    events = [] ∧ s' = s.setWorker w (s.worker w).signal := by
  obtain ⟨rfl, rfl⟩ := Prod.mk.inj (Option.some.inj h)
  exact ⟨rfl, rfl⟩

/-- A worker that enters its loop, after its report if it has one to make. -/
inductive WorkqSys.Ready (s : WorkqSys threads C τ) (w : Fin threads) :
    WorkqSys threads C τ → Prop
  | enter : s.worker w = .start ∨ s.worker w = .asleep true → s.Ready w s
  | report {iter : IterPtr} {node : Nat} {ret : Bool} : s.worker w = .returned iter node ret →
      s.Ready w (s.report w iter node ret)

theorem step_work {w : Fin threads} :
    s.step (.work w) = some (events, s') → events = [] ∧ ∃ s₁, s.Ready w s₁ ∧ s' = s₁.thread w := by
  intro h
  simp only [WorkqSys.step] at h
  split at h
  · rename_i hw
    obtain ⟨rfl, rfl⟩ := Prod.mk.inj (Option.some.inj h)
    exact ⟨rfl, s, .enter (.inl hw), rfl⟩
  · rename_i hw
    obtain ⟨rfl, rfl⟩ := Prod.mk.inj (Option.some.inj h)
    exact ⟨rfl, s, .enter (.inr hw), rfl⟩
  · rename_i iter node ret hw
    obtain ⟨rfl, rfl⟩ := Prod.mk.inj (Option.some.inj h)
    exact ⟨rfl, _, .report hw, rfl⟩
  · exact absurd h (by simp)

theorem step_begin {w : Fin threads} (h : s.step (.begin w) = some (events, s')) :
    ∃ iter node, s.worker w = .taken iter node ∧ events = [.started node] ∧
      s' = s.setWorker w (.running iter node) := by
  simp only [WorkqSys.step] at h
  split at h
  · rename_i iter node hw
    obtain ⟨rfl, rfl⟩ := Prod.mk.inj (Option.some.inj h)
    exact ⟨iter, node, hw, rfl, rfl⟩
  · exact absurd h (by simp)

theorem step_finish {w : Fin threads} {ret : Bool}
    (h : s.step (.finish w ret) = some (events, s')) :
    ∃ iter node, s.worker w = .running iter node ∧ events = [.ended node ret] ∧
      s' = s.setWorker w (.returned iter node ret) := by
  simp only [WorkqSys.step] at h
  split at h
  · rename_i iter node hw
    obtain ⟨rfl, rfl⟩ := Prod.mk.inj (Option.some.inj h)
    exact ⟨iter, node, hw, rfl, rfl⟩
  · exact absurd h (by simp)

end Step

end LibCC
