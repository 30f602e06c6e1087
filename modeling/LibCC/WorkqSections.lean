import LibCC.WorkqInvariant

/-! Every critical section of a client evolves the workq: it removes only
nodes that its call is meant to remove. -/

namespace LibCC

open SequenceFamily

variable {τ : Type} [DecidableEq τ] {q q' : Workq τ}

section Remove

/-- The workq without one queued node. -/
def Workq.without (q : Workq τ) (queue : WorkqQueue) (iter : IterPtr) (n : WorkqNode τ) : Workq τ :=
  { q with
    queues := q.queues.remove queue iter
    mapTask := Function.update q.mapTask n.task none
    node := Function.update q.node (q.queues.data iter) none }

theorem workqRemoveLocked_eq {iter : IterPtr} {n : WorkqNode τ} (hn : q.peek iter = some n)
    (finish : Bool) (queue : WorkqQueue) :
    workqRemoveLocked finish queue iter q =
      (if finish then [.finished (q.queues.data iter) n.task n.status] else [],
        q.without queue iter n) := by
  have hn' : q.node (q.queues.data iter) = some n := hn
  simp only [workqRemoveLocked, hn', Workq.without]

theorem WorkqInv.mem_without (h : WorkqInv q) {queue : WorkqQueue} {iter : IterPtr}
    (hi : iter ∈ q.queues.seq queue) (n : WorkqNode τ) (k : WorkqQueue) (x : IterPtr) :
    x ∈ (q.without queue iter n).queues.seq k ↔ x ∈ q.queues.seq k ∧ x ≠ iter := by
  by_cases hk : k = queue
  · subst hk
    simp [Workq.without, ListSeqs.remove, (h.separated.1 k).mem_erase_iff, and_comm]
  · have hne : x ∈ q.queues.seq k → x ≠ iter := by
      intro hx hc
      subst hc
      exact hk (h.separated.2 k queue x hx hi)
    simpa [Workq.without, ListSeqs.remove, hk] using hne

theorem WorkqInv.peek_without (h : WorkqInv q) {queue k : WorkqQueue} {iter x : IterPtr}
    (hi : iter ∈ q.queues.seq queue) (hx : x ∈ q.queues.seq k) (hne : x ≠ iter) (n : WorkqNode τ) :
    (q.without queue iter n).peek x = q.peek x := by
  have hd : q.queues.data x ≠ q.queues.data iter := fun he => hne (h.data_inj hx hi he)
  exact Function.update_of_ne hd ..

omit [DecidableEq τ] in
theorem WorkqInv.task_ne (h : WorkqInv q) {queue k : WorkqQueue} {iter x : IterPtr}
    {n n' : WorkqNode τ} (hi : iter ∈ q.queues.seq queue) (hn : q.peek iter = some n)
    (hx : x ∈ q.queues.seq k) (hn' : q.peek x = some n') (hne : x ≠ iter) : n'.task ≠ n.task := by
  intro hc
  obtain ⟨n₁, hn₁, -, hm₁⟩ := h.queued queue iter hi
  obtain ⟨n₂, hn₂, -, hm₂⟩ := h.queued k x hx
  obtain rfl := Option.some.inj (hn.symm.trans hn₁)
  obtain rfl := Option.some.inj (hn'.symm.trans hn₂)
  rw [hc, hm₁] at hm₂
  exact hne (Option.some.inj hm₂).symm

theorem WorkqInv.without (h : WorkqInv q) {queue : WorkqQueue} {iter : IterPtr}
    (hi : iter ∈ q.queues.seq queue) {n : WorkqNode τ} (hn : q.peek iter = some n) :
    WorkqInv (q.without queue iter n) := by
  have hmem := h.mem_without hi n
  refine ⟨?_, fun k x hx => ?_, fun task x hx => ?_, fun node n' hn' => ?_⟩
  · exact h.separated.update_subset ((h.separated.1 queue).erase iter) List.erase_subset
  · obtain ⟨hx, hne⟩ := (hmem k x).mp hx
    obtain ⟨n', hn', hk, hm'⟩ := h.queued k x hx
    exact ⟨n', (h.peek_without hi hx hne n).trans hn', hk,
      (Function.update_of_ne (h.task_ne hi hn hx hn' hne) ..).trans hm'⟩
  · have hne : task ≠ n.task := by
      rintro rfl
      exact absurd ((Function.update_self ..).symm.trans hx) (by simp)
    have hx' : q.mapTask task = some x := (Function.update_of_ne hne ..).symm.trans hx
    obtain ⟨k, n', hk, hn', ht⟩ := h.mapped task x hx'
    have hxi : x ≠ iter := by
      rintro rfl
      rw [hn] at hn'
      obtain rfl := Option.some.inj hn'
      exact hne ht.symm
    exact ⟨k, n', (hmem k x).mpr ⟨hk, hxi⟩, (h.peek_without hi hk hxi n).trans hn', ht⟩
  · have hne : node ≠ q.queues.data iter := by
      rintro rfl
      exact absurd ((Function.update_self ..).symm.trans hn') (by simp)
    have hn₀ : q.node node = some n' := (Function.update_of_ne hne ..).symm.trans hn'
    obtain ⟨hlt, k, x, hx, hd⟩ := h.allocated node n' hn₀
    have hxi : x ≠ iter := by
      rintro rfl
      exact hne hd.symm
    exact ⟨hlt, k, x, (hmem k x).mpr ⟨hx, hxi⟩, hd⟩

theorem evolves_remove (h : WorkqInv q) {queue : WorkqQueue} {iter : IterPtr}
    (hi : iter ∈ q.queues.seq queue) (hq : queue ≠ .active) {n : WorkqNode τ}
    (hn : q.peek iter = some n) {events : List (WorkqEvent τ)}
    (he : ∀ node, nodeEvents node events =
      if q.queues.data iter = node then [.disposed n.status] else [])
    (hf : ∀ node task status, .finished node task status ∈ events → task = n.task) :
    Evolves (· = iter) q events (q.without queue iter n) := by
  obtain ⟨n', hn', hk, hm⟩ := h.queued queue iter hi
  rw [hn] at hn'
  obtain rfl := Option.some.inj hn'
  have ha : n.status ≠ .active := by
    intro hs
    rw [hs] at hk
    exact hq (Option.some.inj hk).symm
  refine ⟨h.without hi hn, Function.update_of_ne (Ne.symm hq) .., le_refl _, ?_, ?_, ?_, ?_⟩
  · intro node n' x hn' hx
    by_cases hc : node = q.queues.data iter
    · subst hc
      obtain rfl := Option.some.inj (hn'.symm.trans hn)
      obtain rfl := Option.some.inj (hm.symm.trans hx)
      exact .inr ⟨by simp [he], Function.update_self .., rfl, ha⟩
    · obtain ⟨k, y, hy, hd, -, hmy⟩ := h.place hn'
      have hyi : y ≠ iter := by
        rintro rfl
        exact hc hd.symm
      have hpy : q.peek y = some n' := by
        rw [Workq.peek, hd]
        exact hn'
      exact .inl ⟨by simp [he, Ne.symm hc],
        (Function.update_of_ne (h.task_ne hi hn hy hpy hyi) ..).trans hx,
        h.data_of_mapTask hn' hx, n', (Function.update_of_ne hc ..).trans hn', rfl, rfl⟩
  · intro node hnone _
    have hc : q.queues.data iter ≠ node := by
      rintro rfl
      exact absurd (hnone.symm.trans hn) (by simp)
    exact ⟨by simp [he, hc], (Function.update_of_ne (Ne.symm hc) ..).trans hnone⟩
  · intro node hle
    have hlt := (h.allocated _ n hn).1
    have hc : q.queues.data iter ≠ node := by omega
    exact .inl ⟨by simp [he, hc], (Function.update_of_ne (Ne.symm hc) ..).trans (h.unborn hle)⟩
  · intro node task status hmem
    have hin := mem_nodeEvents_finished hmem
    rw [he] at hin
    split_ifs at hin with hc
    · subst hc
      exact ⟨n, hn, (hf _ task status hmem).symm⟩
    · exact absurd hin List.not_mem_nil

end Remove

section Retouch

omit [DecidableEq τ] in
/-- The queues are permuted, and nodes keep status and task. -/
structure Retouched (q q' : Workq τ) : Prop where
  seq : ∀ k, (q'.queues.seq k).Perm (q.queues.seq k)
  active : q'.active = q.active
  data : q'.queues.data = q.queues.data
  mapTask : q'.mapTask = q.mapTask
  nextNode : q'.nextNode = q.nextNode
  node : ∀ node, (q'.node node).map (fun n => (n.status, n.task)) =
    (q.node node).map (fun n => (n.status, n.task))

omit [DecidableEq τ] in
theorem Retouched.some (h : Retouched q q') {node : Nat} {n : WorkqNode τ}
    (hn : q.node node = some n) :
    ∃ n', q'.node node = Option.some n' ∧ n'.status = n.status ∧ n'.task = n.task := by
  have hh := h.node node
  rw [hn, Option.map_some, Option.map_eq_some_iff] at hh
  obtain ⟨n', hn', he⟩ := hh
  exact ⟨n', hn', (Prod.mk.inj he).1, (Prod.mk.inj he).2⟩

omit [DecidableEq τ] in
theorem Retouched.some' (h : Retouched q q') {node : Nat} {n' : WorkqNode τ}
    (hn : q'.node node = Option.some n') :
    ∃ n, q.node node = Option.some n ∧ n'.status = n.status ∧ n'.task = n.task := by
  have hh := h.node node
  rw [hn, Option.map_some, eq_comm, Option.map_eq_some_iff] at hh
  obtain ⟨n, hn, he⟩ := hh
  exact ⟨n, hn, (Prod.mk.inj he).1.symm, (Prod.mk.inj he).2.symm⟩

omit [DecidableEq τ] in
theorem Retouched.none (h : Retouched q q') {node : Nat} (hn : q.node node = Option.none) :
    q'.node node = Option.none := by
  have hh := h.node node
  rwa [hn, Option.map_none, Option.map_eq_none_iff] at hh

omit [DecidableEq τ] in
theorem Retouched.refl (q : Workq τ) : Retouched q q :=
  ⟨fun _ => .refl _, rfl, rfl, rfl, rfl, fun _ => rfl⟩

omit [DecidableEq τ] in
theorem Retouched.trans {q'' : Workq τ} (h : Retouched q q') (h' : Retouched q' q'') :
    Retouched q q'' :=
  ⟨fun k => (h'.seq k).trans (h.seq k), h'.active.trans h.active, h'.data.trans h.data,
    h'.mapTask.trans h.mapTask, h'.nextNode.trans h.nextNode,
    fun node => (h'.node node).trans (h.node node)⟩

omit [DecidableEq τ] in
theorem Retouched.inv (hr : Retouched q q') (h : WorkqInv q) : WorkqInv q' := by
  have hmem : ∀ k x, x ∈ q'.queues.seq k ↔ x ∈ q.queues.seq k := fun k x => (hr.seq k).mem_iff
  refine ⟨⟨fun k => (hr.seq k).nodup_iff.mpr (h.separated.1 k), fun k k' p hp hp' => ?_⟩,
    fun k iter hi => ?_, fun task iter hm => ?_, fun node n' hn' => ?_⟩
  · exact h.separated.2 k k' p ((hmem k p).mp hp) ((hmem k' p).mp hp')
  · obtain ⟨n, hn, hk, hm⟩ := h.queued k iter ((hmem k iter).mp hi)
    obtain ⟨n', hn', hs, ht⟩ := hr.some hn
    refine ⟨n', ?_, by rw [hs]; exact hk, by rw [hr.mapTask, ht]; exact hm⟩
    rw [Workq.peek, hr.data]
    exact hn'
  · rw [hr.mapTask] at hm
    obtain ⟨k, n, hi, hn, ht⟩ := h.mapped task iter hm
    obtain ⟨n', hn', -, ht'⟩ := hr.some hn
    refine ⟨k, n', (hmem k iter).mpr hi, ?_, ht'.trans ht⟩
    rw [Workq.peek, hr.data]
    exact hn'
  · obtain ⟨n, hn, -, -⟩ := hr.some' hn'
    obtain ⟨hlt, k, iter, hi, hd⟩ := h.allocated node n hn
    exact ⟨by rw [hr.nextNode]; exact hlt, k, iter, (hmem k iter).mpr hi, by rw [hr.data]; exact hd⟩

omit [DecidableEq τ] in
theorem no_finished {events : List (WorkqEvent τ)} (he : ∀ node, nodeEvents node events = [])
    {node : Nat} {task : τ} {status : WorkqStatus} : .finished node task status ∉ events := by
  intro hm
  have hin := mem_nodeEvents_finished hm
  rw [he] at hin
  exact List.not_mem_nil hin

omit [DecidableEq τ] in
theorem Retouched.evolves (hr : Retouched q q') (h : WorkqInv q) {events : List (WorkqEvent τ)}
    (he : ∀ node, nodeEvents node events = []) (drop : IterPtr → Prop) :
    Evolves drop q events q' := by
  refine ⟨hr.inv h, hr.active, hr.nextNode.ge, fun node n iter hn hm => ?_, fun node hn _ => ?_,
    fun node hle => ?_, fun _ _ _ hm => absurd hm (no_finished he)⟩
  · obtain ⟨n', hn', hs, ht⟩ := hr.some hn
    left
    refine ⟨he node, by rw [hr.mapTask]; exact hm, ?_, n', hn', hs, ht⟩
    rw [hr.data]
    exact h.data_of_mapTask hn hm
  · exact ⟨he node, hr.none hn⟩
  · exact .inl ⟨he node, hr.none (h.unborn hle)⟩

omit [DecidableEq τ] in
theorem Evolves.retouch {drop : IterPtr → Prop} {q₀ : Workq τ} {events : List (WorkqEvent τ)}
    (h : Evolves drop q₀ events q) (hr : Retouched q q') : Evolves drop q₀ events q' := by
  refine ⟨hr.inv h.inv, hr.active.trans h.active, h.next.trans hr.nextNode.ge,
    fun node n iter hn hm => ?_, fun node hn hlt => ?_, fun node hle => ?_, h.finished⟩
  · rcases h.each node n iter hn hm with ⟨he, hm', hd, n₁, hn₁, hs, ht⟩ | ⟨he, hg, hi, ha⟩
    · obtain ⟨n₂, hn₂, hs₂, ht₂⟩ := hr.some hn₁
      exact .inl ⟨he, by rw [hr.mapTask]; exact hm', by rw [hr.data]; exact hd, n₂, hn₂,
        hs₂.trans hs, ht₂.trans ht⟩
    · exact .inr ⟨he, hr.none hg, hi, ha⟩
  · obtain ⟨he, hg⟩ := h.dead node hn hlt
    exact ⟨he, hr.none hg⟩
  · rcases h.born node hle with ⟨he, hg⟩ | ⟨he, n, hn, hs, hc⟩
    · exact .inl ⟨he, hr.none hg⟩
    · obtain ⟨n', hn', hs', ht'⟩ := hr.some hn
      exact .inr ⟨he, n', hn', hs'.trans hs, by rw [ht']; exact hc⟩

omit [DecidableEq τ] in
theorem retouched_purgeId (q : Workq τ) (purgeId : Int) :
    Retouched q { q with purgeId := purgeId } :=
  ⟨fun _ => .refl _, rfl, rfl, rfl, rfl, fun _ => rfl⟩

omit [DecidableEq τ] in
theorem retouched_state (q : Workq τ) (state : WorkqState) :
    Retouched q { q with state := state } :=
  ⟨fun _ => .refl _, rfl, rfl, rfl, rfl, fun _ => rfl⟩

omit [DecidableEq τ] in
theorem retouched_setNode (q : Workq τ) (node : Nat) {f : WorkqNode τ → WorkqNode τ}
    (hs : ∀ n, (f n).status = n.status) (ht : ∀ n, (f n).task = n.task) :
    Retouched q (q.setNode node f) := by
  refine ⟨fun _ => .refl _, rfl, rfl, rfl, rfl, fun m => ?_⟩
  by_cases hm : m = node
  · subst hm
    simp only [Workq.setNode, Function.update_self, Option.map_map]
    congr 1
    funext n
    simp [hs, ht]
  · simp only [Workq.setNode, Function.update_of_ne hm]

omit [DecidableEq τ] in
@[simp] theorem mark_status (purgeId : Int) (n : WorkqNode τ) :
    (n.mark purgeId).status = n.status := by
  unfold WorkqNode.mark
  split_ifs <;> rfl

omit [DecidableEq τ] in
@[simp] theorem mark_task (purgeId : Int) (n : WorkqNode τ) : (n.mark purgeId).task = n.task := by
  unfold WorkqNode.mark
  split_ifs <;> rfl

omit [DecidableEq τ] in
@[simp] theorem mark_mark (purgeId : Int) (n : WorkqNode τ) :
    (n.mark purgeId).mark purgeId = n.mark purgeId := by
  by_cases h : n.purgeId = purgeId
  · simp [WorkqNode.mark, h]
  · by_cases hp : workqPurgeMark = purgeId <;> simp [WorkqNode.mark, h, hp]

omit [DecidableEq τ] in
theorem workqPurgeActive_eq (l : List IterPtr) (q : Workq τ) :
    workqPurgeActive l q = { q with
      node := fun m =>
        if m ∈ l.map q.queues.data then (q.node m).map (WorkqNode.mark q.purgeId)
        else q.node m } := by
  induction l generalizing q with
  | nil => simp [workqPurgeActive]
  | cons iter l ih =>
    rw [workqPurgeActive, ih]
    simp only [Workq.setNode]
    congr 1
    funext m
    by_cases hm : m = q.queues.data iter
    · subst hm
      by_cases hl : q.queues.data iter ∈ l.map q.queues.data
      · simp only [hl, if_true, Function.update_self, Option.map_map, List.map_cons,
          List.mem_cons_self]
        congr 1
        funext n
        exact mark_mark q.purgeId n
      · simp only [hl, if_false, Function.update_self, List.map_cons, List.mem_cons_self, if_true]
    · simp only [Function.update_of_ne hm, List.map_cons, List.mem_cons, hm, false_or]

omit [DecidableEq τ] in
theorem retouched_purgeActive (l : List IterPtr) (q : Workq τ) :
    Retouched q (workqPurgeActive l q) := by
  rw [workqPurgeActive_eq]
  refine ⟨fun _ => .refl _, rfl, rfl, rfl, rfl, fun m => ?_⟩
  simp only
  split_ifs
  · rw [Option.map_map]
    congr 1
    funext n
    simp
  · rfl

/-- What the loop of cc_workq_purge over the active queue leaves. -/
structure Marked (q q' : Workq τ) : Prop where
  retouched : Retouched q q'
  seq : q'.queues.seq = q.queues.seq
  marked : ∀ iter ∈ q.active, q'.peek iter = (q.peek iter).map (WorkqNode.mark q.purgeId)
  unmarked : ∀ k, k ≠ .active → ∀ iter ∈ q.queues.seq k, q'.peek iter = q.peek iter
  purgeId : q'.purgeId = q.purgeId
  state : q'.state = q.state

omit [DecidableEq τ] in
theorem workqPurgeActive_spec (h : WorkqInv q) : Marked q (workqPurgeActive q.active q) := by
  have heq := workqPurgeActive_eq q.active q
  refine ⟨retouched_purgeActive q.active q, by rw [heq], fun iter hi => ?_,
    fun k hk iter hi => ?_, by rw [heq], by rw [heq]⟩
  · have hmap : q.queues.data iter ∈ q.active.map q.queues.data := List.mem_map_of_mem hi
    rw [Workq.peek, heq]
    exact if_pos hmap
  · have hnot : q.queues.data iter ∉ q.active.map q.queues.data := by
      rw [List.mem_map]
      rintro ⟨x, hx, he⟩
      obtain rfl := h.data_inj hx hi he
      exact hk (h.separated.2 k .active x hi hx)
    rw [Workq.peek, Workq.peek, heq]
    exact if_neg hnot

end Retouch

section Drop

def droppedEvents (q : Workq τ) (l : List IterPtr) : List (WorkqEvent τ) :=
  l.filterMap fun iter =>
    (q.peek iter).map fun n => .finished (q.queues.data iter) n.task n.status

omit [DecidableEq τ] in
theorem droppedEvents_cons {iter : IterPtr} {n : WorkqNode τ} (hn : q.peek iter = some n)
    (l : List IterPtr) : droppedEvents q (iter :: l) =
      .finished (q.queues.data iter) n.task n.status :: droppedEvents q l := by
  simp [droppedEvents, hn]

omit [DecidableEq τ] in
theorem droppedEvents_congr {l : List IterPtr} (hd : q'.queues.data = q.queues.data)
    (hp : ∀ x ∈ l, q'.peek x = q.peek x) : droppedEvents q' l = droppedEvents q l := by
  apply List.filterMap_congr
  intro x hx
  rw [hp x hx, hd]

/-- What a drop loop over the rest `l` of a queue leaves. -/
structure Dropped (queue : WorkqQueue) (drop : WorkqNode τ → Bool) (kept l : List IterPtr)
    (q : Workq τ) (events : List (WorkqEvent τ)) (q' : Workq τ) : Prop where
  evolves : Evolves (fun iter => iter ∈ l ∧ (q.peek iter).any drop = true) q events q'
  events : events = droppedEvents q (l.filter fun iter => (q.peek iter).any drop)
  seq : q'.queues.seq = Function.update q.queues.seq queue
    (kept ++ l.filter fun iter => !(q.peek iter).any drop)
  data : q'.queues.data = q.queues.data
  peek : ∀ k, ∀ iter ∈ q'.queues.seq k, q'.peek iter = q.peek iter
  nextNode : q'.nextNode = q.nextNode
  purgeId : q'.purgeId = q.purgeId
  state : q'.state = q.state

omit [DecidableEq τ] in
theorem Dropped.other {queue k : WorkqQueue} {drop : WorkqNode τ → Bool} {kept l : List IterPtr}
    {events : List (WorkqEvent τ)} (h : Dropped queue drop kept l q events q') (hk : k ≠ queue) :
    q'.queues.seq k = q.queues.seq k := by
  rw [h.seq, Function.update_of_ne hk]

omit [DecidableEq τ] in
theorem Dropped.rest {queue : WorkqQueue} {drop : WorkqNode τ → Bool} {l : List IterPtr}
    {events : List (WorkqEvent τ)} (h : Dropped queue drop [] l q events q') :
    q'.queues.seq queue = l.filter fun iter => !(q.peek iter).any drop := by
  rw [h.seq, Function.update_self, List.nil_append]

theorem workqDropLoop_spec {queue : WorkqQueue} (hqa : queue ≠ .active) (drop : WorkqNode τ → Bool)
    {kept l : List IterPtr} (h : WorkqInv q) (hs : q.queues.seq queue = kept ++ l) :
    Dropped queue drop kept l q (workqDropLoop queue drop l q).1
      (workqDropLoop queue drop l q).2 := by
  induction l generalizing q kept with
  | nil =>
    refine ⟨(Retouched.refl q).evolves h (fun _ => rfl) _, rfl, ?_, rfl, fun _ _ _ => rfl, rfl, rfl,
      rfl⟩
    rw [List.filter_nil, ← hs, Function.update_eq_self]
    rfl
  | cons iter l ih =>
    have hmem : iter ∈ q.queues.seq queue := by simp [hs]
    obtain ⟨n, hn, -, -⟩ := h.queued queue iter hmem
    have hnd := h.separated.1 queue
    rw [hs] at hnd
    have hik : iter ∉ kept := fun hm => List.disjoint_of_nodup_append hnd hm (by simp)
    have hil : iter ∉ l := (List.nodup_cons.mp (List.nodup_append.mp hnd).2.1).1
    have hlq : ∀ x ∈ l, x ∈ q.queues.seq queue := fun x hx => by simp [hs, hx]
    have hlne : ∀ x ∈ l, x ≠ iter := by
      rintro x hx rfl
      exact hil hx
    by_cases hd : (q.peek iter).any drop = true
    · have hev : Evolves (· = iter) q [.finished (q.queues.data iter) n.task n.status]
          (q.without queue iter n) :=
        evolves_remove h hmem hqa hn (fun _ => by simp)
          (fun _ _ _ hm => by simp at hm; exact hm.2.1)
      have hs₁ : (q.without queue iter n).queues.seq queue = kept ++ l := by
        simp [Workq.without, ListSeqs.remove, hs, erase_split hik]
      have hpeek : ∀ x ∈ l, (q.without queue iter n).peek x = q.peek x :=
        fun x hx => h.peek_without hmem (hlq x hx) (hlne x hx) n
      have hrest := ih hev.inv hs₁
      have hseq : (workqDropLoop queue drop l (q.without queue iter n)).2.queues.seq =
          Function.update q.queues.seq queue
            (kept ++ (iter :: l).filter fun x => !(q.peek x).any drop) := by
        rw [hrest.seq, List.filter_congr (fun x hx => by rw [hpeek x hx]), List.filter_cons_of_neg
          (by simp [hd])]
        exact Function.update_idem ..
      simp only [workqDropLoop, hd, if_true, workqRemoveLocked_eq hn]
      refine ⟨?_, ?_, hseq, hrest.data, fun k x hx => ?_, hrest.nextNode, hrest.purgeId,
        hrest.state⟩
      · refine Evolves.trans h (hev.mono ?_) rfl (hrest.evolves.mono ?_)
        · rintro x rfl
          exact ⟨by simp, hd⟩
        · rintro x ⟨hx, hxd⟩
          rw [hpeek x hx] at hxd
          exact ⟨by simp [hx], hxd⟩
      · have hdropped : droppedEvents (q.without queue iter n)
            (l.filter fun x => (q.peek x).any drop) =
            droppedEvents q (l.filter fun x => (q.peek x).any drop) :=
          droppedEvents_congr rfl (fun x hx => hpeek x (List.mem_of_mem_filter hx))
        rw [hrest.events, List.filter_congr (fun x hx => by rw [hpeek x hx]),
          List.filter_cons_of_pos (by simpa using hd), droppedEvents_cons hn, hdropped]
        rfl
      · refine (hrest.peek k x hx).trans ?_
        have hx₁ : x ∈ (q.without queue iter n).queues.seq k := by
          rw [hrest.seq] at hx
          by_cases hk : k = queue
          · subst hk
            rw [Function.update_self] at hx
            rw [hs₁]
            rcases List.mem_append.mp hx with hx | hx
            · exact List.mem_append_left _ hx
            · exact List.mem_append_right _ (List.mem_of_mem_filter hx)
          · rwa [Function.update_of_ne hk] at hx
        obtain ⟨hxq, hne⟩ := (h.mem_without hmem n k x).mp hx₁
        exact h.peek_without hmem hxq hne n
    · have hs' : q.queues.seq queue = (kept ++ [iter]) ++ l := by simpa using hs
      have hrest := ih h hs'
      have hd' : (q.peek iter).any drop = false := by simpa using hd
      simp only [workqDropLoop, hd', Bool.false_eq_true, if_false]
      refine ⟨hrest.evolves.mono ?_, ?_, ?_, hrest.data, hrest.peek, hrest.nextNode, hrest.purgeId,
        hrest.state⟩
      · rintro x ⟨hx, hxd⟩
        exact ⟨by simp [hx], hxd⟩
      · rw [hrest.events]
        simp [hd']
      · rw [hrest.seq]
        simp [hd']

end Drop

end LibCC
