import LibCC.WorkqSafety

/-! The life of a node. What has been observed about a node at any time of a
run is one of a few stories, and the state tells which. -/

namespace LibCC

open LabelledRun SequenceFamily

/-- How far a node has come. -/
inductive NodeLife
  | unborn
  | waiting
  | running
  | ended (ret : Bool)
  | withdrawn
  | done (ret : Bool)
  deriving DecidableEq

def NodeLife.story : NodeLife → List NodeEvent
  | unborn => []
  | waiting => [.created]
  | running => [.created, .started]
  | ended ret => [.created, .started, .ended ret]
  | withdrawn => [.created, .disposed .pending]
  | done ret => [.created, .started, .ended ret, .disposed (workqRetStatus ret)]

variable {threads : Nat} {C τ : Type} [DecidableEq C] [DecidableEq τ]

omit [DecidableEq C] [DecidableEq τ] in
/-- All that is observed in a run, oldest first. -/
def history (tr : List (WorkqLabel threads C τ)) : List (WorkqEvent τ) :=
  tr.reverse.flatMap Prod.snd

section History

omit [DecidableEq C] [DecidableEq τ]

@[simp] theorem history_nil : history ([] : List (WorkqLabel threads C τ)) = [] := rfl

@[simp] theorem history_cons (l : WorkqLabel threads C τ) (tr : List (WorkqLabel threads C τ)) :
    history (l :: tr) = history tr ++ l.2 := by
  simp [history]

end History

/-- The node of the task that a worker has taken, and how far it is. -/
def WorkqWorker.tells : WorkqWorker → Option (Nat × NodeLife)
  | taken _ node => some (node, .waiting)
  | running _ node => some (node, .running)
  | returned _ node ret => some (node, .ended ret)
  | _ => none

@[simp] theorem tells_signal (pc : WorkqWorker) : pc.signal.tells = pc.tells := by
  cases pc <;> rfl

theorem WorkqWorker.holds_of_tells {pc : WorkqWorker} {node : Nat} {life : NodeLife}
    (h : pc.tells = some (node, life)) : ∃ iter, pc.holds = some (iter, node) := by
  cases pc <;> simp only [tells, Option.some.injEq, Prod.mk.injEq, reduceCtorEq] at h
  all_goals
    obtain ⟨rfl, -⟩ := h
    exact ⟨_, rfl⟩

/-- What the state tells about the life of a node. -/
inductive Lives (s : WorkqSys threads C τ) (node : Nat) : NodeLife → Prop
  | unborn : s.q.node node = none → Lives s node .unborn
  | waiting {n : WorkqNode τ} : s.q.node node = some n → n.status = .pending →
      Lives s node .waiting
  | active {n : WorkqNode τ} {life : NodeLife} (w : Fin threads) : s.q.node node = some n →
      n.status = .active → (s.worker w).tells = some (node, life) → Lives s node life
  | ended {n : WorkqNode τ} (ret : Bool) : s.q.node node = some n →
      n.status = workqRetStatus ret → Lives s node (.ended ret)
  | withdrawn : s.q.node node = none → node < s.q.nextNode → Lives s node .withdrawn
  | done (ret : Bool) : s.q.node node = none → node < s.q.nextNode → Lives s node (.done ret)

section Step

variable {s s' : WorkqSys threads C τ} {node : Nat} {life life' : NodeLife}

omit [DecidableEq C] [DecidableEq τ] in
theorem Lives.keep (hL : Lives s node life) (hnext : s.q.nextNode ≤ s'.q.nextNode)
    (hnode : (s'.q.node node).map WorkqNode.status = (s.q.node node).map WorkqNode.status)
    (hworker : ∀ w life, (s.worker w).tells = some (node, life) →
      (s'.worker w).tells = some (node, life)) : Lives s' node life := by
  have hsome : ∀ n, s.q.node node = some n →
      ∃ n', s'.q.node node = some n' ∧ n'.status = n.status := by
    intro n hn
    rw [hn, Option.map_some, Option.map_eq_some_iff] at hnode
    exact hnode
  have hnone : s.q.node node = none → s'.q.node node = none := by
    intro hn
    rw [hn, Option.map_none, Option.map_eq_none_iff] at hnode
    exact hnode
  cases hL with
  | unborn hn => exact .unborn (hnone hn)
  | waiting hn hs =>
    obtain ⟨n', hn', hs'⟩ := hsome _ hn
    exact .waiting hn' (hs'.trans hs)
  | active w hn hs hw =>
    obtain ⟨n', hn', hs'⟩ := hsome _ hn
    exact .active w hn' (hs'.trans hs) (hworker w _ hw)
  | ended ret hn hs =>
    obtain ⟨n', hn', hs'⟩ := hsome _ hn
    exact .ended ret hn' (hs'.trans hs)
  | withdrawn hn hlt => exact .withdrawn (hnone hn) (by omega)
  | done ret hn hlt => exact .done ret (hnone hn) (by omega)

omit [DecidableEq C] [DecidableEq τ] in
theorem WorkqSysInv.tells_once (h : WorkqSysInv s) {w w' : Fin threads}
    (hw : (s.worker w).tells = some (node, life)) (hw' : (s.worker w').tells = some (node, life')) :
    w = w' := by
  obtain ⟨iter, hi⟩ := WorkqWorker.holds_of_tells hw
  obtain ⟨iter', hi'⟩ := WorkqWorker.holds_of_tells hw'
  obtain ⟨ha, hd⟩ := h.holder w iter node hi
  obtain ⟨ha', hd'⟩ := h.holder w' iter' node hi'
  obtain rfl := h.inv.data_inj ha ha' (hd.trans hd'.symm)
  exact h.once w w' iter node node hi hi'

omit [DecidableEq C] [DecidableEq τ] in
theorem WorkqSysInv.executing (h : WorkqSysInv s) {w : Fin threads} {iter : IterPtr}
    (hw : (s.worker w).holds = some (iter, node)) :
    ∃ n, s.q.node node = some n ∧ n.status = .active ∧ s.q.mapTask n.task = some iter := by
  obtain ⟨hi, rfl⟩ := h.holder w iter node hw
  obtain ⟨n, hn, hk, hm⟩ := h.inv.queued .active iter hi
  exact ⟨n, hn, home_eq_active.mp hk, hm⟩

omit [DecidableEq C] [DecidableEq τ] in
theorem Lives.told (hL : Lives s node life) (h : WorkqSysInv s) {w : Fin threads}
    (hw : (s.worker w).tells = some (node, life')) : life = life' := by
  obtain ⟨iter, hi⟩ := WorkqWorker.holds_of_tells hw
  obtain ⟨n, hn, hs, -⟩ := h.executing hi
  cases hL with
  | unborn hn' => simp [hn] at hn'
  | waiting hn' hs' => simp_all
  | active w' _ _ hw' =>
    obtain rfl := h.tells_once hw hw'
    exact (Prod.mk.inj (Option.some.inj (hw'.symm.trans hw))).2
  | ended ret hn' hs' =>
    obtain rfl := Option.some.inj (hn.symm.trans hn')
    rw [hs] at hs'
    cases ret <;> simp [workqRetStatus] at hs'
  | withdrawn hn' _ => simp [hn] at hn'
  | done _ hn' _ => simp [hn] at hn'

omit [DecidableEq τ] in
theorem section_tells (c : C) (r : WorkqSection τ) (w : Fin threads) :
    ((s.section_ c r).worker w).tells = (s.worker w).tells := by
  unfold WorkqSys.section_
  split_ifs <;> simp

omit [DecidableEq τ] in
/-- A section of a client creates a node, disposes of it with its status, or
does nothing to it. -/
theorem Lives.section_ (hL : Lives s node life) (h : WorkqSysInv s) {c : C} {r : WorkqSection τ}
    {drop : IterPtr → Prop} {freed : Prop} (hr : SectionSpec drop freed s.q r) :
    ∃ life', Lives (s.section_ c r) node life' ∧
      life'.story = life.story ++ nodeEvents node r.events := by
  have he := hr.evolves
  have htells : ∀ w life, (s.worker w).tells = some (node, life) →
      ((s.section_ c r).worker w).tells = some (node, life) := by
    intro w life hw
    rw [section_tells]
    exact hw
  -- nothing is observed about a node that keeps its status
  have hkeep : nodeEvents node r.events = [] →
      (r.q.node node).map WorkqNode.status = (s.q.node node).map WorkqNode.status →
      ∃ life', Lives (s.section_ c r) node life' ∧
        life'.story = life.story ++ nodeEvents node r.events := by
    intro hev hst
    exact ⟨life, hL.keep he.next hst htells, by rw [hev, List.append_nil]⟩
  cases hn : s.q.node node with
  | none =>
    by_cases hlt : node < s.q.nextNode
    · obtain ⟨hev, hn'⟩ := he.dead node hn hlt
      exact hkeep hev (by rw [hn, hn'])
    · rcases he.born node (by omega) with ⟨hev, hn'⟩ | ⟨hev, n, hn', hs', -⟩
      · exact hkeep hev (by rw [hn, hn'])
      · cases hL with
        | unborn => exact ⟨.waiting, .waiting hn' hs', by rw [hev]; rfl⟩
        | waiting hc => simp [hn] at hc
        | active _ hc => simp [hn] at hc
        | ended _ hc => simp [hn] at hc
        | withdrawn _ hlt' => exact absurd hlt' hlt
        | done _ _ hlt' => exact absurd hlt' hlt
  | some n =>
    obtain ⟨k, iter, -, -, -, hm⟩ := h.inv.place hn
    rcases he.each node n iter hn hm with ⟨hev, -, -, n', hn', hs', -⟩ | ⟨hev, hn', -, ha⟩
    · exact hkeep hev (by rw [hn, hn', Option.map_some, Option.map_some, hs'])
    · have hlt : node < r.q.nextNode := ((h.inv.allocated node n hn).1).trans_le he.next
      cases hL with
      | unborn hc => simp [hn] at hc
      | waiting hc hs =>
        obtain rfl := Option.some.inj (hn.symm.trans hc)
        exact ⟨.withdrawn, .withdrawn hn' hlt, by rw [hev, hs]; rfl⟩
      | active _ hc hs =>
        obtain rfl := Option.some.inj (hn.symm.trans hc)
        exact absurd hs ha
      | ended ret hc hs =>
        obtain rfl := Option.some.inj (hn.symm.trans hc)
        exact ⟨.done ret, .done ret hn' hlt, by rw [hev, hs]; rfl⟩
      | withdrawn hc => simp [hn] at hc
      | done _ hc => simp [hn] at hc

omit [DecidableEq C] [DecidableEq τ] in
theorem Lives.setWorker (hL : Lives s node life) (h : WorkqSysInv s) {w : Fin threads}
    {pc : WorkqWorker} {own : Nat} {now next : NodeLife}
    (hw : (s.worker w).tells = some (own, now)) (hpc : pc.tells = some (own, next))
    {events : List NodeEvent}
    (hstory : next.story = now.story ++ events) :
    ∃ life', Lives (s.setWorker w pc) node life' ∧
      life'.story = life.story ++ if own = node then events else [] := by
  by_cases hne : own = node
  · subst hne
    obtain rfl := hL.told h hw
    obtain ⟨iter, hi⟩ := WorkqWorker.holds_of_tells hw
    obtain ⟨n, hn, hs, -⟩ := h.executing hi
    exact ⟨next, .active w hn hs (by simpa [WorkqSys.setWorker] using hpc), by simpa using hstory⟩
  · refine ⟨life, hL.keep le_rfl rfl ?_, by simp [hne]⟩
    intro w' life' hw'
    have hww : w' ≠ w := by
      rintro rfl
      exact hne (Prod.mk.inj (Option.some.inj (hw.symm.trans hw'))).1
    simpa [WorkqSys.setWorker, hww] using hw'

omit [DecidableEq C] [DecidableEq τ] in
theorem Lives.report (hL : Lives s node life) (h : WorkqSysInv s) {w : Fin threads}
    {iter : IterPtr} {own : Nat} {ret : Bool} (hw : s.worker w = .returned iter own ret) :
    Lives (s.report w iter own ret) node life := by
  have htells : (s.worker w).tells = some (own, .ended ret) := by rw [hw]; rfl
  by_cases hne : own = node
  · subst hne
    obtain rfl := hL.told h htells
    have hi : (s.worker w).holds = some (iter, own) := by rw [hw]; rfl
    obtain ⟨n, hn, -, -⟩ := h.executing hi
    refine .ended (n := { n with status := workqRetStatus ret }) ret ?_ rfl
    simp [WorkqSys.report, workqReport, Workq.setNode, hn]
  · refine hL.keep le_rfl ?_ ?_
    · simp [WorkqSys.report, workqReport, Workq.setNode, Ne.symm hne]
    · intro w' life' hw'
      have hww : w' ≠ w := by
        rintro rfl
        exact hne (Prod.mk.inj (Option.some.inj (htells.symm.trans hw'))).1
      simpa [WorkqSys.report, hww] using hw'

omit [DecidableEq C] [DecidableEq τ] in
theorem Lives.thread (hL : Lives s node life) (h : WorkqSysInv s) {w : Fin threads}
    (hw : (s.worker w).holds = none) : Lives (s.thread w) node life := by
  have hne : ∀ w' life, (s.worker w').tells = some (node, life) → w' ≠ w := by
    rintro w' life hw' rfl
    obtain ⟨iter, hi⟩ := WorkqWorker.holds_of_tells hw'
    simp [hw] at hi
  have hworker : ∀ w' life, (s.worker w').tells = some (node, life) →
      ((s.thread w).worker w').tells = some (node, life) := by
    intro w' life hw'
    simpa [WorkqSys.thread, hne w' life hw'] using hw'
  rcases workqThreadSection_cases s.q with ⟨hr, -⟩ | ⟨hr, -⟩ | ⟨iter, rest, hp, -, hr⟩
  · exact hL.keep (by simp [WorkqSys.thread, hr]) (by simp [WorkqSys.thread, hr]) hworker
  · exact hL.keep (by simp [WorkqSys.thread, hr]) (by simp [WorkqSys.thread, hr]) hworker
  · have hq : (s.thread w).q = s.q.shift .pending .active iter .active := by
      simp [WorkqSys.thread, hr]
    by_cases hd : node = s.q.queues.data iter
    · have hi : iter ∈ s.q.pending := by simp [hp]
      obtain ⟨n, hn, hk, -⟩ := h.inv.queued .pending iter hi
      have hs : n.status = .pending := home_eq_pending.mp hk
      have hn' : s.q.node node = some n := by rw [hd]; exact hn
      have hlife : life = .waiting := by
        cases hL with
        | unborn hc => simp [hn'] at hc
        | waiting => rfl
        | active _ hc hs' => simp_all
        | ended ret hc hs' =>
          obtain rfl := Option.some.inj (hn'.symm.trans hc)
          rw [hs] at hs'
          cases ret <;> simp [workqRetStatus] at hs'
        | withdrawn hc => simp [hn'] at hc
        | done _ hc => simp [hn'] at hc
      subst hlife
      refine .active (n := { n with status := .active }) w ?_ rfl ?_
      · rw [hq, shift_node, if_pos hd, hn', Option.map_some]
      · simp [WorkqSys.thread, hr, WorkqWorker.tells, hd]
    · refine hL.keep ?_ ?_ hworker
      · rw [hq]
        exact le_rfl
      · rw [hq, shift_node, if_neg hd]

/-- One step takes the story of a node on by what it shows of the node. -/
theorem Lives.step (hL : Lives s node life) (h : WorkqSysInv s) {l : WorkqLabel threads C τ}
    (hs : WorkqStep s l s') :
    ∃ life', Lives s' node life' ∧ life'.story = life.story ++ nodeEvents node l.2 := by
  obtain ⟨m, events⟩ := l
  change s.step m = some (events, s') at hs
  have hquiet : Lives s' node life → nodeEvents node events = [] →
      ∃ life', Lives s' node life' ∧ life'.story = life.story ++ nodeEvents node events :=
    fun hL' he => ⟨life, hL', by rw [he, List.append_nil]⟩
  cases m with
  | call c call =>
    obtain ⟨-, r, hr, rfl, rfl⟩ := step_call hs
    exact hL.section_ h (callSection_spec h.inv hr)
  | resume c =>
    obtain ⟨r, hr, rfl, rfl⟩ := step_resume hs
    exact hL.section_ h (resumeSection_spec h.inv hr (h.sleeper c))
  | read c garbage =>
    obtain ⟨own, -, rfl, rfl⟩ := step_read hs
    exact hquiet (hL.keep le_rfl rfl fun _ _ => id) rfl
  | wakeClient c =>
    obtain ⟨rfl, rfl⟩ := step_wakeClient hs
    exact hquiet (hL.keep le_rfl rfl fun _ _ => id) rfl
  | wakeWorker w =>
    obtain ⟨rfl, rfl⟩ := step_wakeWorker hs
    refine hquiet (hL.keep le_rfl rfl fun w' life' hw' => ?_) rfl
    by_cases hww : w' = w
    · subst hww
      simpa [WorkqSys.setWorker] using hw'
    · simpa [WorkqSys.setWorker, hww] using hw'
  | work w =>
    obtain ⟨rfl, s₁, hr, rfl⟩ := step_work hs
    obtain ⟨h₁, hw⟩ := hr.spec h
    refine hquiet (Lives.thread ?_ h₁ hw) rfl
    cases hr with
    | enter => exact hL
    | report hreturned => exact hL.report h hreturned
  | begin w =>
    obtain ⟨iter, own, hw, rfl, rfl⟩ := step_begin hs
    rw [nodeEvents_started]
    exact hL.setWorker h (by rw [hw]; rfl) rfl rfl
  | finish w ret =>
    obtain ⟨iter, own, hw, rfl, rfl⟩ := step_finish hs
    rw [nodeEvents_ended]
    exact hL.setWorker h (by rw [hw]; rfl) rfl rfl

end Step

theorem WorkqReach.lives {data : IterPtr → Nat} {tr : List (WorkqLabel threads C τ)}
    {s : WorkqSys threads C τ} (h : WorkqReach data tr s) (node : Nat) :
    ∃ life, Lives s node life ∧ nodeEvents node (history tr) = life.story := by
  refine h.invariant (P := fun tr s => ∃ life, Lives s node life ∧
    nodeEvents node (history tr) = life.story) ⟨.unborn, .unborn rfl, rfl⟩ ?_
  rintro tr s l s' hr ⟨life, hL, he⟩ hs
  obtain ⟨life', hL', he'⟩ := hL.step (WorkqReach.inv hr) hs
  exact ⟨life', hL', by rw [history_cons, nodeEvents_append, he, he']⟩

theorem NodeLife.story_nodup (life : NodeLife) : life.story.Nodup := by
  cases life <;> simp [story]

section Names

variable {s s' : WorkqSys threads C τ} {events : List (WorkqEvent τ)}

/-- The tasks that the state and the observations name are those of nodes
that were created with them. -/
structure Named (events : List (WorkqEvent τ)) (s : WorkqSys threads C τ) : Prop where
  live : ∀ node n, s.q.node node = some n → .created node n.task ∈ events
  finished : ∀ node task status, .finished node task status ∈ events → .created node task ∈ events

omit [DecidableEq C] [DecidableEq τ] in
theorem Named.step {new : List (WorkqEvent τ)} (h : Named events s)
    (hlive : ∀ node n', s'.q.node node = some n' →
      (∃ n, s.q.node node = some n ∧ n'.task = n.task) ∨ .created node n'.task ∈ new)
    (hfinished : ∀ node task status, .finished node task status ∈ new →
      ∃ n, s.q.node node = some n ∧ n.task = task) : Named (events ++ new) s' := by
  refine ⟨fun node n' hn' => ?_, fun node task status hm => ?_⟩
  · rcases hlive node n' hn' with ⟨n, hn, ht⟩ | hc
    · rw [ht]
      exact List.mem_append_left _ (h.live node n hn)
    · exact List.mem_append_right _ hc
  · rcases List.mem_append.mp hm with hm | hm
    · exact List.mem_append_left _ (h.finished node task status hm)
    · obtain ⟨n, hn, rfl⟩ := hfinished node task status hm
      exact List.mem_append_left _ (h.live node n hn)

omit [DecidableEq C] [DecidableEq τ] in
theorem Evolves.named {drop : IterPtr → Prop} {new : List (WorkqEvent τ)} (h : Named events s)
    (hinv : WorkqInv s.q) (he : Evolves drop s.q new s'.q) : Named (events ++ new) s' := by
  refine h.step (fun node n' hn' => ?_) he.finished
  by_cases hlt : node < s.q.nextNode
  · obtain ⟨n, -, hn, -, ht, -, -⟩ := he.origin hinv hn' hlt
    exact .inl ⟨n, hn, ht⟩
  · rcases he.born node (by omega) with ⟨-, hnone⟩ | ⟨-, n, hn, -, hc⟩
    · simp [hnone] at hn'
    · obtain rfl := Option.some.inj (hn.symm.trans hn')
      exact .inr hc

omit [DecidableEq C] [DecidableEq τ] in
theorem Named.quiet {new : List (WorkqEvent τ)} (h : Named events s)
    (hnode : ∀ node n', s'.q.node node = some n' → ∃ n, s.q.node node = some n ∧ n'.task = n.task)
    (hnew : ∀ node task status, .finished node task status ∉ new) : Named (events ++ new) s' :=
  h.step (fun node n' hn' => .inl (hnode node n' hn'))
    (fun node task status hm => absurd hm (hnew node task status))

omit [DecidableEq C] [DecidableEq τ] in
theorem WorkqSys.Ready.node {w : Fin threads} (hr : s.Ready w s') {node : Nat} {n' : WorkqNode τ}
    (hn' : (s'.thread w).q.node node = some n') :
    ∃ n, s.q.node node = some n ∧ n'.task = n.task := by
  have hthread : ∃ n, s'.q.node node = some n ∧ n'.task = n.task := by
    rcases workqThreadSection_cases s'.q with ⟨he, -⟩ | ⟨he, -⟩ | ⟨iter, rest, hp, -, he⟩
    · exact ⟨n', by simpa [WorkqSys.thread, he] using hn', rfl⟩
    · exact ⟨n', by simpa [WorkqSys.thread, he] using hn', rfl⟩
    · simp only [WorkqSys.thread, he] at hn'
      exact shift_origin hn'
  obtain ⟨n₁, hn₁, ht₁⟩ := hthread
  cases hr with
  | enter => exact ⟨n₁, hn₁, ht₁⟩
  | @report iter own ret hw =>
    by_cases hne : node = own
    · subst hne
      simp only [WorkqSys.report, workqReport, Workq.setNode, Function.update_self] at hn₁
      obtain ⟨n, hn, rfl⟩ := Option.map_eq_some_iff.mp hn₁
      exact ⟨n, hn, ht₁⟩
    · exact ⟨n₁, by simpa [WorkqSys.report, workqReport, Workq.setNode, hne] using hn₁, ht₁⟩

theorem WorkqStep.named (hN : Named events s) (h : WorkqSysInv s) {l : WorkqLabel threads C τ}
    (hs : WorkqStep s l s') : Named (events ++ l.2) s' := by
  obtain ⟨m, new⟩ := l
  change s.step m = some (new, s') at hs
  cases m with
  | call c op =>
    obtain ⟨-, r, hr, rfl, rfl⟩ := step_call hs
    exact (callSection_spec h.inv hr).evolves.named hN h.inv
  | resume c =>
    obtain ⟨r, hr, rfl, rfl⟩ := step_resume hs
    exact (resumeSection_spec h.inv hr (h.sleeper c)).evolves.named hN h.inv
  | read c garbage =>
    obtain ⟨own, -, rfl, rfl⟩ := step_read hs
    exact hN.quiet (fun _ n hn => ⟨n, hn, rfl⟩) (by simp)
  | wakeClient c =>
    obtain ⟨rfl, rfl⟩ := step_wakeClient hs
    exact hN.quiet (fun _ n hn => ⟨n, hn, rfl⟩) (by simp)
  | wakeWorker w =>
    obtain ⟨rfl, rfl⟩ := step_wakeWorker hs
    exact hN.quiet (fun _ n hn => ⟨n, hn, rfl⟩) (by simp)
  | work w =>
    obtain ⟨rfl, s₁, hr, rfl⟩ := step_work hs
    exact hN.quiet (fun _ _ hn => hr.node hn) (by simp)
  | begin w =>
    obtain ⟨iter, own, hw, rfl, rfl⟩ := step_begin hs
    exact hN.quiet (fun _ n hn => ⟨n, hn, rfl⟩) (by simp)
  | finish w ret =>
    obtain ⟨iter, own, hw, rfl, rfl⟩ := step_finish hs
    exact hN.quiet (fun _ n hn => ⟨n, hn, rfl⟩) (by simp)

end Names

theorem WorkqReach.named {data : IterPtr → Nat} {tr : List (WorkqLabel threads C τ)}
    {s : WorkqSys threads C τ} (h : WorkqReach data tr s) : Named (history tr) s := by
  refine h.invariant (P := fun tr s => Named (history tr) s) ?_ ?_
  · exact ⟨fun _ _ hn => by simp [workqSysNew, workqNew] at hn, fun _ _ _ hm => by simp at hm⟩
  · intro tr s l s' hr hN hs
    rw [history_cons]
    exact WorkqStep.named hN (WorkqReach.inv hr) hs

theorem WorkqReach.created_once {data : IterPtr → Nat} {tr : List (WorkqLabel threads C τ)}
    {s : WorkqSys threads C τ} (h : WorkqReach data tr s) {node : Nat} {task task' : τ}
    (hc : .created node task ∈ history tr) (hc' : .created node task' ∈ history tr) :
    task = task' := by
  obtain ⟨life, -, he⟩ := h.lives node
  have hnd : (nodeEvents node (history tr)).Nodup := he ▸ life.story_nodup
  have hh := eq_of_nodup_filterMap hnd hc hc' (c := .created) (by simp [WorkqEvent.about])
    (by simp [WorkqEvent.about])
  exact (WorkqEvent.created.inj hh).2

end LibCC
