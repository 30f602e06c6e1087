import LibCC.WorkqLife

/-! Two results of the invariant: the structure that one client always
finds, and when a client that sleeps on a task keeps its node. -/

namespace LibCC

open LabelledRun SequenceFamily

section

variable {threads : Nat} {C τ : Type} [DecidableEq C] [DecidableEq τ]

/-- What one client and any workers keep, between any two of their steps. -/
theorem workq_structure {data : IterPtr → Nat} {tr : List (WorkqLabel threads Unit τ)}
    {s : WorkqSys threads Unit τ} (h : WorkqReach data tr s) :
    (∀ k k' node, s.q.Has k node → s.q.Has k' node → k = k') ∧
    (∀ k node, s.q.Has k node → ∃ n, s.q.node node = some n) ∧
    (∀ node n, s.q.node node = some n →
      (s.q.Has .pending node ↔ n.status = .pending) ∧
      (s.q.Has .active node ↔ n.status = .active) ∧
      (s.q.Has .complete node ↔ n.status = .complete ∨ n.status = .failure)) ∧
    (∀ task iter, s.q.mapTask task = some iter ↔
      ∃ k n, iter ∈ s.q.queues.seq k ∧ s.q.peek iter = some n ∧ n.task = task) ∧
    (∀ w iter node, (s.worker w).holds = some (iter, node) →
      iter ∈ s.q.active ∧ s.q.queues.data iter = node) ∧
    (∀ iter ∈ s.q.active, ∃! w, (s.worker w).holds = some (iter, s.q.queues.data iter)) ∧
    (∀ w iter node, (s.worker w).holds = some (iter, node) →
      ∃ n, s.q.node node = some n ∧ n.status = .active ∧
        ∀ w' iter' node' n', (s.worker w').holds = some (iter', node') →
          s.q.node node' = some n' → n'.task = n.task → w' = w) := by
  have hinv := h.inv
  have hq := hinv.inv
  have hnode : ∀ k node, s.q.Has k node → ∃ n, s.q.node node = some n := by
    rintro k node ⟨iter, hi, rfl⟩
    obtain ⟨n, hn, -⟩ := hq.queued k iter hi
    exact ⟨n, hn⟩
  refine ⟨?_, hnode, fun node n hn => ?_, fun task iter => ?_, hinv.holder, fun iter hi => ?_,
    fun w iter node hw => ?_⟩
  · rintro k k' node hk hk'
    obtain ⟨n, hn⟩ := hnode k node hk
    have h₁ := (hq.has_iff hn k).mp hk
    have h₂ := (hq.has_iff hn k').mp hk'
    exact Option.some.inj (h₁.symm.trans h₂)
  · rw [hq.has_iff hn, hq.has_iff hn, hq.has_iff hn]
    cases n.status <;> simp [WorkqStatus.home]
  · constructor
    · exact hq.mapped task iter
    · rintro ⟨k, n, hi, hn, rfl⟩
      obtain ⟨n', hn', -, hm⟩ := hq.queued k iter hi
      obtain rfl := Option.some.inj (hn.symm.trans hn')
      exact hm
  · obtain ⟨w, node, hw⟩ := hinv.held iter hi
    obtain ⟨-, hd⟩ := hinv.holder w iter node hw
    subst hd
    exact ⟨w, hw, fun w' hw' => hinv.once w' w iter _ _ hw' hw⟩
  · obtain ⟨n, hn, hs, hm⟩ := hinv.executing hw
    refine ⟨n, hn, hs, fun w' iter' node' n' hw' hn' ht => ?_⟩
    obtain ⟨n'', hn'', -, hm'⟩ := hinv.executing hw'
    obtain rfl := Option.some.inj (hn'.symm.trans hn'')
    rw [ht, hm] at hm'
    obtain rfl := Option.some.inj hm'
    exact hinv.once w' w _ _ _ hw' hw

def workqTakeOnly : List (WorkqMove 2 Unit Nat) :=
  [.call () (.run 1 0 (.success ⟨0, 0⟩)), .work 0]

theorem workq_structure_taken :
    ∃! w,
      (((workqExec (workqSysNew (fun _ => 0)) workqTakeOnly).get (by decide)).2.worker w).holds =
        some (⟨0, 0⟩, 0) :=
  (workq_structure (WorkqReach.play (fun _ => 0) workqTakeOnly (by decide))).2.2.2.2.2.1 ⟨0, 0⟩
    (by decide)

/-- A client that sleeps in wait or cancel keeps the node of its task, when
no step has removed a node on which another client slept. -/
theorem workq_sleeper_keeps_node {data : IterPtr → Nat} {tr : List (WorkqLabel threads C τ)}
    {s : WorkqSys threads C τ} (h : SparingReach data tr s) {c : C} {task : τ} {iter : IterPtr}
    {node : Nat} (hc : (s.client c).sleepsOn = some (task, iter, node)) :
    s.q.mapTask task = some iter ∧ s.q.queues.data iter = node ∧
      (∃ k, iter ∈ s.q.queues.seq k) ∧ ∃ n, s.q.node node = some n ∧ n.task = task := by
  have hinv := WorkqReach.inv h.unguard
  obtain ⟨n, hn⟩ := Option.ne_none_iff_exists'.mp
    (fun hn => h.kept.live c ⟨task, iter, node, hc, hn⟩)
  obtain ⟨ht, hm⟩ := hinv.sleeper c task iter node n hc hn
  obtain ⟨k, -, hk, -, -⟩ := hinv.inv.mapped task iter hm
  exact ⟨hm, hinv.inv.data_of_mapTask hn (ht ▸ hm), ⟨k, hk⟩, n, hn, ht⟩

end

def workqWaitAlone : List (WorkqMove 1 Unit Nat) :=
  [.call () (.run 1 0 (.success ⟨0, 0⟩)), .call () (.wait 1 true)]

theorem workq_sleeper_keeps_node_alone :
    ∃ n, ((workqExec (workqSysNew (fun _ => 0)) workqWaitAlone).get (by decide)).2.q.node 0 =
      some n ∧ n.task = 1 := by
  have hr := WorkqReach.play (fun _ => 0) workqWaitAlone (by decide)
  have hc : (((workqExec (workqSysNew (fun _ => 0)) workqWaitAlone).get
      (by decide)).2.client ()).sleepsOn = some (1, ⟨0, 0⟩, 0) := by decide
  exact (workq_sleeper_keeps_node hr.sparing hc).2.2.2

/-- One client waits for a task, another cancels it while it is pending, and
a worker completes a second task. -/
def workqCancelWhileAwaited : List (WorkqMove 2 Bool Nat) :=
  [.call false (.run 1 0 (.success ⟨0, 0⟩)), .call false (.wait 1 true),
    .call true (.cancel 1 true), .call true (.run 2 0 (.success ⟨0, 1⟩)), .work 0, .begin 0,
    .finish 0 true, .work 0]

/-- The first client has been signalled, and its node is freed. -/
theorem workq_sleeper_node_freed :
    ¬ ∀ (tr : List (WorkqLabel 2 Bool Nat)) (s : WorkqSys 2 Bool Nat),
      WorkqReach (fun _ => 0) tr s → ∀ c task iter node,
        s.client c = .waitAsleep task iter node true →
        s.q.mapTask task = some iter ∧ ∃ n, s.q.node node = some n ∧ n.task = task := by
  intro h
  have hr := WorkqReach.play (fun _ => 0) workqCancelWhileAwaited (by decide)
  have hc := h _ _ hr false 1 ⟨0, 0⟩ 0 (by decide)
  exact absurd hc.1 (by decide)

end LibCC
