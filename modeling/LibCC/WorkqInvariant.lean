import LibCC.WorkqModel

/-! The structure of a workq between critical sections, and how one section
of a client changes it: nodes stay, are created, or are disposed of. -/

namespace LibCC

open SequenceFamily

/-- The queue that holds the nodes of a status. -/
def WorkqStatus.home : WorkqStatus → Option WorkqQueue
  | .error => none
  | .pending => some .pending
  | .active => some .active
  | .complete | .failure => some .complete

@[simp] theorem home_eq_pending {status : WorkqStatus} :
    status.home = some .pending ↔ status = .pending := by
  cases status <;> simp [WorkqStatus.home]

@[simp] theorem home_eq_active {status : WorkqStatus} :
    status.home = some .active ↔ status = .active := by
  cases status <;> simp [WorkqStatus.home]

@[simp] theorem home_eq_complete {status : WorkqStatus} :
    status.home = some .complete ↔ status = .complete ∨ status = .failure := by
  cases status <;> simp [WorkqStatus.home]

inductive NodeEvent
  | created
  | started
  | ended (ret : Bool)
  | disposed (status : WorkqStatus)
  deriving DecidableEq, Repr

variable {τ : Type} [DecidableEq τ]

section Events

omit [DecidableEq τ]

def WorkqEvent.about (node : Nat) : WorkqEvent τ → Option NodeEvent
  | .created n _ => if n = node then some .created else none
  | .started n => if n = node then some .started else none
  | .ended n ret => if n = node then some (.ended ret) else none
  | .finished n _ status | .returned n status => if n = node then some (.disposed status) else none
  | .peeked _ _ | .result _ | .size _ => none

def nodeEvents (node : Nat) (events : List (WorkqEvent τ)) : List NodeEvent :=
  events.filterMap (WorkqEvent.about node)

@[simp] theorem nodeEvents_nil (node : Nat) : nodeEvents node ([] : List (WorkqEvent τ)) = [] := rfl

@[simp] theorem nodeEvents_append (node : Nat) (a b : List (WorkqEvent τ)) :
    nodeEvents node (a ++ b) = nodeEvents node a ++ nodeEvents node b :=
  List.filterMap_append

@[simp] theorem nodeEvents_result (node : Nat) (status : WorkqStatus) :
    nodeEvents node ([.result status] : List (WorkqEvent τ)) = [] := rfl

@[simp] theorem nodeEvents_finished (node n : Nat) (task : τ) (status : WorkqStatus) :
    nodeEvents node [.finished n task status] = if n = node then [.disposed status] else [] := by
  by_cases h : n = node <;> simp [nodeEvents, WorkqEvent.about, h]

@[simp] theorem nodeEvents_returned (node n : Nat) (status : WorkqStatus) :
    nodeEvents node ([.returned n status] : List (WorkqEvent τ)) =
      if n = node then [.disposed status] else [] := by
  by_cases h : n = node <;> simp [nodeEvents, WorkqEvent.about, h]

@[simp] theorem nodeEvents_created (node n : Nat) (task : τ) (rest : List (WorkqEvent τ)) :
    nodeEvents node (.created n task :: rest) =
      (if n = node then [.created] else []) ++ nodeEvents node rest := by
  by_cases h : n = node <;> simp [nodeEvents, WorkqEvent.about, h]

@[simp] theorem nodeEvents_started (node n : Nat) :
    nodeEvents node ([.started n] : List (WorkqEvent τ)) = if n = node then [.started] else [] := by
  by_cases h : n = node <;> simp [nodeEvents, WorkqEvent.about, h]

@[simp] theorem nodeEvents_ended (node n : Nat) (ret : Bool) :
    nodeEvents node ([.ended n ret] : List (WorkqEvent τ)) =
      if n = node then [.ended ret] else [] := by
  by_cases h : n = node <;> simp [nodeEvents, WorkqEvent.about, h]

theorem mem_nodeEvents_finished {node : Nat} {task : τ} {status : WorkqStatus}
    {events : List (WorkqEvent τ)} (h : .finished node task status ∈ events) :
    .disposed status ∈ nodeEvents node events :=
  List.mem_filterMap.mpr ⟨_, h, by simp [WorkqEvent.about]⟩

end Events

/-- The queues share no node, each node is in the queue of its status,
map_task leads from each task to the iter of its node, and no other node is
allocated. -/
structure WorkqInv (q : Workq τ) : Prop where
  separated : Separated q.queues.seq
  queued : ∀ k, ∀ iter ∈ q.queues.seq k,
    ∃ n, q.peek iter = some n ∧ n.status.home = some k ∧ q.mapTask n.task = some iter
  mapped : ∀ task iter, q.mapTask task = some iter →
    ∃ k n, iter ∈ q.queues.seq k ∧ q.peek iter = some n ∧ n.task = task
  allocated : ∀ node n, q.node node = some n →
    node < q.nextNode ∧ ∃ k, ∃ iter ∈ q.queues.seq k, q.queues.data iter = node

omit [DecidableEq τ] in
theorem workqNew_inv (data : IterPtr → Nat) : WorkqInv (workqNew data : Workq τ) := by
  refine ⟨⟨fun _ => List.nodup_nil, ?_⟩, ?_, ?_, ?_⟩
  · intro k k' p hp
    exact absurd hp List.not_mem_nil
  · intro k iter hi
    exact absurd hi List.not_mem_nil
  · intro task iter h
    exact absurd h (by simp [workqNew])
  · intro node n h
    exact absurd h (by simp [workqNew])

def Workq.Has {τ : Type} (q : Workq τ) (k : WorkqQueue) (node : Nat) : Prop :=
  ∃ iter ∈ q.queues.seq k, q.queues.data iter = node

section Inv

variable {q : Workq τ}

omit [DecidableEq τ] in
theorem WorkqInv.data_inj (h : WorkqInv q) {k k' : WorkqQueue} {iter iter' : IterPtr}
    (hi : iter ∈ q.queues.seq k) (hi' : iter' ∈ q.queues.seq k')
    (he : q.queues.data iter = q.queues.data iter') : iter = iter' := by
  obtain ⟨n, hn, -, hm⟩ := h.queued k iter hi
  obtain ⟨n', hn', -, hm'⟩ := h.queued k' iter' hi'
  have hnn : n = n' := by
    rw [Workq.peek, he] at hn
    exact Option.some.inj (hn.symm.trans hn')
  rw [hnn, hm'] at hm
  exact (Option.some.inj hm).symm

omit [DecidableEq τ] in
theorem WorkqInv.place (h : WorkqInv q) {node : Nat} {n : WorkqNode τ}
    (hn : q.node node = some n) : ∃ k iter, iter ∈ q.queues.seq k ∧ q.queues.data iter = node ∧
      n.status.home = some k ∧ q.mapTask n.task = some iter := by
  obtain ⟨-, k, iter, hi, hd⟩ := h.allocated node n hn
  obtain ⟨n', hn', hk, hm⟩ := h.queued k iter hi
  rw [Workq.peek, hd, hn] at hn'
  obtain rfl := Option.some.inj hn'
  exact ⟨k, iter, hi, hd, hk, hm⟩

omit [DecidableEq τ] in
theorem WorkqInv.mem_of_status (h : WorkqInv q) {k : WorkqQueue} {iter : IterPtr} {task : τ}
    {n : WorkqNode τ} (hm : q.mapTask task = some iter) (hn : q.peek iter = some n)
    (hk : n.status.home = some k) : iter ∈ q.queues.seq k := by
  obtain ⟨k', n', hi, hn', -⟩ := h.mapped task iter hm
  obtain ⟨n'', hn'', hk', -⟩ := h.queued k' iter hi
  rw [hn] at hn' hn''
  obtain rfl := Option.some.inj hn''
  rw [hk] at hk'
  rw [Option.some.inj hk']
  exact hi

omit [DecidableEq τ] in
theorem WorkqInv.has_iff (h : WorkqInv q) {node : Nat} {n : WorkqNode τ}
    (hn : q.node node = some n) (k : WorkqQueue) : q.Has k node ↔ n.status.home = some k := by
  constructor
  · rintro ⟨iter, hi, rfl⟩
    obtain ⟨n', hn', hk, -⟩ := h.queued k iter hi
    obtain rfl := Option.some.inj (hn.symm.trans hn')
    exact hk
  · intro hk
    obtain ⟨k', iter, hi, hd, hk', -⟩ := h.place hn
    obtain rfl := Option.some.inj (hk.symm.trans hk')
    exact ⟨iter, hi, hd⟩

end Inv

/-- From `q` to `q'` with `events`: every node stays with its status, its
task and its iter, or was in `drop` and is disposed of with its status; nodes
that were freed stay so, and a new node is pending. -/
structure Evolves (drop : IterPtr → Prop) (q : Workq τ) (events : List (WorkqEvent τ))
    (q' : Workq τ) : Prop where
  inv : WorkqInv q'
  active : q'.active = q.active
  next : q.nextNode ≤ q'.nextNode
  each : ∀ node n iter, q.node node = some n → q.mapTask n.task = some iter →
    (nodeEvents node events = [] ∧ q'.mapTask n.task = some iter ∧ q'.queues.data iter = node ∧
      ∃ n', q'.node node = some n' ∧ n'.status = n.status ∧ n'.task = n.task) ∨
    (nodeEvents node events = [.disposed n.status] ∧ q'.node node = none ∧ drop iter ∧
      n.status ≠ .active)
  dead : ∀ node, q.node node = none → node < q.nextNode →
    nodeEvents node events = [] ∧ q'.node node = none
  born : ∀ node, q.nextNode ≤ node →
    (nodeEvents node events = [] ∧ q'.node node = none) ∨
    (nodeEvents node events = [.created] ∧ ∃ n, q'.node node = some n ∧ n.status = .pending ∧
      .created node n.task ∈ events)
  finished : ∀ node task status, .finished node task status ∈ events →
    ∃ n, q.node node = some n ∧ n.task = task

section Evolves

variable {drop : IterPtr → Prop} {q q' q'' : Workq τ} {events events' : List (WorkqEvent τ)}

omit [DecidableEq τ] in
theorem WorkqInv.unborn (h : WorkqInv q) {node : Nat} (hn : q.nextNode ≤ node) :
    q.node node = none := by
  cases hc : q.node node with
  | none => rfl
  | some n =>
    have := (h.allocated node n hc).1
    omega

omit [DecidableEq τ] in
theorem WorkqInv.data_of_mapTask (h : WorkqInv q) {node : Nat} {n : WorkqNode τ} {iter : IterPtr}
    (hn : q.node node = some n) (hm : q.mapTask n.task = some iter) :
    q.queues.data iter = node := by
  obtain ⟨k, iter', -, hd, -, hm'⟩ := h.place hn
  rw [hm] at hm'
  rw [Option.some.inj hm']
  exact hd

omit [DecidableEq τ] in
theorem Evolves.mono {drop' : IterPtr → Prop} (h : Evolves drop q events q')
    (hd : ∀ iter, drop iter → drop' iter) : Evolves drop' q events q' := by
  refine ⟨h.inv, h.active, h.next, fun node n iter hn hm => ?_, h.dead, h.born, h.finished⟩
  rcases h.each node n iter hn hm with hk | ⟨he, hg, hi, ha⟩
  · exact .inl hk
  · exact .inr ⟨he, hg, hd iter hi, ha⟩

omit [DecidableEq τ] in
theorem Evolves.trans (hq : WorkqInv q) (h : Evolves drop q events q')
    (hn : q'.nextNode = q.nextNode) (h' : Evolves drop q' events' q'') :
    Evolves drop q (events ++ events') q'' := by
  have hunborn : ∀ node, q'.nextNode ≤ node → q'.node node = none := fun _ => h.inv.unborn
  refine ⟨h'.inv, h'.active.trans h.active, h.next.trans h'.next, fun node n iter hnode hm => ?_,
    fun node hnode hlt => ?_, fun node hle => ?_, fun node task status hmem => ?_⟩
  · rcases h.each node n iter hnode hm with ⟨he, hm₁, hd₁, n₁, hn₁, hs₁, ht₁⟩ | ⟨he, hg, hi, ha⟩
    · rw [← ht₁] at hm₁
      rcases h'.each node n₁ iter hn₁ hm₁ with
        ⟨he', hm₂, hd₂, n₂, hn₂, hs₂, ht₂⟩ | ⟨he', hg', hi', ha'⟩
      · left
        rw [ht₁] at hm₂
        exact ⟨by simp [he, he'], hm₂, hd₂, n₂, hn₂, hs₂.trans hs₁, ht₂.trans ht₁⟩
      · right
        exact ⟨by simp [he, he', hs₁], hg', hi', hs₁ ▸ ha'⟩
    · have hlt := (hq.allocated node n hnode).1
      obtain ⟨he', hg'⟩ := h'.dead node hg (by omega)
      exact .inr ⟨by simp [he, he'], hg', hi, ha⟩
  · obtain ⟨he, hg⟩ := h.dead node hnode hlt
    obtain ⟨he', hg'⟩ := h'.dead node hg (by omega)
    exact ⟨by simp [he, he'], hg'⟩
  · have he : nodeEvents node events = [] := by
      rcases h.born node hle with ⟨he, -⟩ | ⟨-, n, hc, -, -⟩
      · exact he
      · rw [hunborn node (by omega)] at hc
        exact absurd hc (by simp)
    rcases h'.born node (by omega) with ⟨he', hg'⟩ | ⟨he', hb⟩
    · exact .inl ⟨by simp [he, he'], hg'⟩
    · obtain ⟨n, hn, hs, hc⟩ := hb
      exact .inr ⟨by simp [he, he'], n, hn, hs, List.mem_append_right _ hc⟩
  · rcases List.mem_append.mp hmem with hmem | hmem
    · exact h.finished node task status hmem
    · obtain ⟨n', hn', ht⟩ := h'.finished node task status hmem
      cases hnode : q.node node with
      | none =>
        by_cases hlt : node < q.nextNode
        · rw [(h.dead node hnode hlt).2] at hn'
          exact absurd hn' (by simp)
        · rw [hunborn node (by omega)] at hn'
          exact absurd hn' (by simp)
      | some n =>
        obtain ⟨k, iter, -, -, -, hm⟩ := hq.place hnode
        rcases h.each node n iter hnode hm with ⟨-, -, -, n₁, hn₁, -, ht₁⟩ | ⟨-, hg, -, -⟩
        · obtain rfl := Option.some.inj (hn₁.symm.trans hn')
          exact ⟨n, rfl, ht₁.symm.trans ht⟩
        · rw [hg] at hn'
          exact absurd hn' (by simp)

omit [DecidableEq τ] in
theorem Evolves.origin (he : Evolves drop q events q') (h : WorkqInv q) {node : Nat}
    {n' : WorkqNode τ} (hn' : q'.node node = some n') (hlt : node < q.nextNode) :
    ∃ n iter, q.node node = some n ∧ n'.status = n.status ∧ n'.task = n.task ∧
      q.mapTask n.task = some iter ∧ q'.mapTask n.task = some iter := by
  cases hn : q.node node with
  | none => simp [(he.dead node hn hlt).2] at hn'
  | some n =>
    obtain ⟨k, iter, -, -, -, hm⟩ := h.place hn
    rcases he.each node n iter hn hm with ⟨-, hm', -, n₁, hn₁, hs, ht⟩ | ⟨-, hg, -, -⟩
    · obtain rfl := Option.some.inj (hn₁.symm.trans hn')
      exact ⟨n, iter, rfl, hs, ht, hm, hm'⟩
    · simp [hg] at hn'

end Evolves

end LibCC
