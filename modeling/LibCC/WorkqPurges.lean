import LibCC.WorkqFrames

/-! Which nodes cc_workq_purge drops. The purge id of a node tells whether
cc_workq_run was called on its task since the last purge: the two ids never
alias, since a purge leaves no node with the id that it goes on to. -/

namespace LibCC

open LabelledRun SequenceFamily

variable {threads : Nat} {C τ : Type} [DecidableEq C] [DecidableEq τ]

omit [DecidableEq C] in
/-- Whether cc_workq_run was called on a task since the last call of
cc_workq_purge or cc_workq_reset; the labels are newest first. -/
def touched (task : τ) : List (WorkqLabel threads C τ) → Bool
  | [] => false
  | (.call _ (.run t _ _), _) :: tr => t = task || touched task tr
  | (.call _ .purge, _) :: _ | (.call _ (.reset _), _) :: _ => false
  | _ :: tr => touched task tr

/-- No pending node has the id that cc_workq_reset and cc_workq_delete purge with. -/
def Unmarked (q : Workq τ) : Prop :=
  ∀ node n, q.node node = some n → n.status = .pending → n.purgeId ≠ workqPurgeMark

/-- Outside cc_workq_reset a node has the current id just when its task is touched. -/
structure IdsAgree (t : τ → Bool) (q : Workq τ) : Prop where
  alternates : q.purgeId = 0 ∨ q.purgeId = 1
  unmarked : Unmarked q
  agrees : ∀ node n, q.node node = some n → (n.purgeId = q.purgeId ↔ t n.task = true)

/-- After the first purge of cc_workq_reset. -/
structure Cleared (q : Workq τ) : Prop where
  marked : q.purgeId = workqPurgeMark
  all : ∀ node n, q.node node = some n → n.purgeId = workqPurgeMark ∧ n.status ≠ .pending

/-- What holds of the purge ids, by where the client stands. -/
def PurgePhase (t : τ → Bool) (q : Workq τ) : WorkqClient τ → Prop
  | .resetSaved purgeId _ =>
    (purgeId = 0 ∨ purgeId = 1) ∧ (∀ task, t task = false) ∧ Unmarked q
  | .resetPurge purgeId _ =>
    (purgeId = 0 ∨ purgeId = 1) ∧ (∀ task, t task = false) ∧ Unmarked q ∧
      q.purgeId = workqPurgeMark
  | .resetActive purgeId | .resetAsleep purgeId _ | .resetPurgeComplete purgeId
  | .resetRestore purgeId =>
    (purgeId = 0 ∨ purgeId = 1) ∧ (∀ task, t task = false) ∧ Cleared q
  | .deleteJoin | .deleteMark => Unmarked q
  | .deletePurge => Unmarked q ∧ q.purgeId = workqPurgeMark
  | .deleteLists | .deleted => True
  | _ => IdsAgree t q

section Trims

variable {q q' : Workq τ} {t : τ → Bool}

omit [DecidableEq τ] in
theorem Unmarked.trims (h : Unmarked q) (ht : Trims q q') : Unmarked q' := by
  intro node n' hn' hs'
  obtain ⟨n, hn, -, hid, -, hs⟩ := ht.node node n' hn'
  rw [hid]
  exact h node n hn (hs hs')

omit [DecidableEq τ] in
theorem IdsAgree.trims (h : IdsAgree t q) (ht : Trims q q') : IdsAgree t q' := by
  refine ⟨ht.purgeId ▸ h.alternates, h.unmarked.trims ht, fun node n' hn' => ?_⟩
  obtain ⟨n, hn, htask, hid, -, -⟩ := ht.node node n' hn'
  rw [hid, htask, ht.purgeId]
  exact h.agrees node n hn

omit [DecidableEq τ] in
theorem Cleared.trims (h : Cleared q) (ht : Trims q q') : Cleared q' := by
  refine ⟨ht.purgeId.trans h.marked, fun node n' hn' => ?_⟩
  obtain ⟨n, hn, -, hid, -, hs⟩ := ht.node node n' hn'
  obtain ⟨hmark, hp⟩ := h.all node n hn
  exact ⟨hid.trans hmark, fun hs' => hp (hs hs')⟩

omit [DecidableEq τ] in
theorem PurgePhase.trims {pc : WorkqClient τ} (h : PurgePhase t q pc) (ht : Trims q q') :
    PurgePhase t q' pc := by
  cases pc with
  | resetSaved => exact ⟨h.1, h.2.1, h.2.2.trims ht⟩
  | resetPurge => exact ⟨h.1, h.2.1, h.2.2.1.trims ht, ht.purgeId.trans h.2.2.2⟩
  | resetActive => exact ⟨h.1, h.2.1, h.2.2.trims ht⟩
  | resetAsleep => exact ⟨h.1, h.2.1, h.2.2.trims ht⟩
  | resetPurgeComplete => exact ⟨h.1, h.2.1, h.2.2.trims ht⟩
  | resetRestore => exact ⟨h.1, h.2.1, h.2.2.trims ht⟩
  | deleteJoin => exact Unmarked.trims h ht
  | deleteMark => exact Unmarked.trims h ht
  | deletePurge => exact ⟨h.1.trims ht, ht.purgeId.trans h.2⟩
  | deleteLists => trivial
  | deleted => trivial
  | _ => exact IdsAgree.trims h ht

omit [DecidableEq τ] in
theorem PurgePhase.signal {pc : WorkqClient τ} (h : PurgePhase t q pc) :
    PurgePhase t q pc.signal := by
  cases pc <;> exact h

omit [DecidableEq τ] in
theorem purgePhase_ordinary {pc : WorkqClient τ} (hpc : pc.ordinary = true) :
    PurgePhase t q pc ↔ IdsAgree t q := by
  cases pc <;> first | rfl | simp [WorkqClient.ordinary] at hpc

end Trims

section Sections

variable {q q' : Workq τ} {t : τ → Bool} {events : List (WorkqEvent τ)}

omit [DecidableEq τ] in
theorem IdsAgree.id_ne (h : IdsAgree t q) : q.purgeId ≠ workqPurgeMark := by
  rcases h.alternates with he | he <;> rw [he] <;> decide

theorem IdsAgree.run (h : IdsAgree t q) (hq : WorkqInv q) {task : τ} {priority : Int}
    {broadcast : Bool} (ho : RunOutcome task priority q events broadcast q') :
    IdsAgree (fun x => decide (task = x) || t x) q' := by
  have hid := ho.purgeId
  refine ⟨hid ▸ h.alternates, fun node n' hn' hs => ?_, fun node n' hn' => ?_⟩
  · rcases ho.origin hq hn' with ⟨-, hp, -⟩ | ⟨-, hn⟩
    · rw [hp]
      exact h.id_ne
    · exact h.unmarked node n' hn hs
  · rw [hid]
    rcases ho.origin hq hn' with ⟨ht, hp, -⟩ | ⟨ht, hn⟩
    · simp [ht, hp]
    · rw [h.agrees node n' hn]
      simp [Ne.symm ht]

omit [DecidableEq τ] in
theorem IdsAgree.purge (h : IdsAgree t q) (hp : Purged q events q') :
    IdsAgree (fun _ => false) q' := by
  have hid : q'.purgeId = 1 - q.purgeId := by rw [hp.purgeId, if_neg h.id_ne]
  have hne : q.purgeId ≠ 1 - q.purgeId ∧ workqPurgeMark ≠ 1 - q.purgeId := by
    rcases h.alternates with he | he <;> rw [he] <;> decide
  refine ⟨?_, fun node n' hn' hs => ?_, fun node n' hn' => ?_⟩
  · rw [hid]
    have := h.alternates
    omega
  · obtain ⟨n, hn, ⟨ha, rfl⟩ | ⟨-, rfl, hp', -⟩⟩ := hp.origin hn'
    · rw [mark_status, ha] at hs
      exact absurd hs (by simp)
    · rw [hp']
      exact h.id_ne
  · rw [hid]
    simp only [Bool.false_eq_true, iff_false]
    obtain ⟨n, hn, ⟨-, rfl⟩ | ⟨-, rfl, hp', -⟩⟩ := hp.origin hn'
    · unfold WorkqNode.mark
      split_ifs with hm
      · exact hne.2
      · simp only [ne_eq, not_not] at hm
        rw [hm]
        exact hne.1
    · rw [hp']
      exact hne.1

omit [DecidableEq τ] in
theorem IdsAgree.untouched (hid : IdsAgree t q) {iter : IterPtr} {n : WorkqNode τ}
    (hn : q.peek iter = some n) (hd : PurgeDrops q iter) : t n.task = false := by
  have hne : n.purgeId ≠ q.purgeId := by
    rcases hd with ⟨-, hd⟩ | ⟨-, hd⟩
    · simpa [hn, WorkqNode.stale] using hd
    · intro he
      have hmark : n.purgeId = workqPurgeMark := by simpa [hn, WorkqNode.spent, he] using hd
      exact hid.id_ne (he.symm.trans hmark)
  rw [← Bool.not_eq_true]
  exact fun ht => hne ((hid.agrees _ n hn).mpr ht)

omit [DecidableEq τ] in
theorem Purged.finished (hp : Purged q events q') (hid : IdsAgree t q) (h : WorkqInv q)
    {e : WorkqEvent τ} (he : e ∈ events) : ∃ node n, q.node node = some n ∧ n.status ≠ .active ∧
      t n.task = false ∧ e = .finished node n.task n.status := by
  obtain ⟨iter, n, hd, hn, rfl⟩ := hp.mem_events he
  exact ⟨_, n, hn, hd.not_active h hn, hid.untouched hn hd, rfl⟩

omit [DecidableEq τ] in
theorem Purged.disposes (hp : Purged q events q') (hid : IdsAgree t q) (h : WorkqInv q)
    {node : Nat} {n : WorkqNode τ} (hn : q.node node = some n) (hs : n.status ≠ .active)
    (ht : t n.task = false) : .finished node n.task n.status ∈ events ∧
      nodeEvents node events = [.disposed n.status] ∧ q'.node node = none := by
  obtain ⟨k, iter, -, -, -, hm⟩ := h.place hn
  rcases hp.evolves.each node n iter hn hm with ⟨-, -, -, n', hn', -, -⟩ | ⟨hev, hn', -, -⟩
  · obtain ⟨n₀, hn₀, hor⟩ := hp.origin hn'
    obtain rfl := Option.some.inj (hn.symm.trans hn₀)
    rcases hor with ⟨ha, -⟩ | ⟨-, -, hkept, -⟩
    · exact absurd ha hs
    · have htouched := (hid.agrees node n hn).mp hkept
      simp [ht] at htouched
  · refine ⟨?_, hev, hn'⟩
    obtain ⟨e, he, hab⟩ : ∃ e ∈ events, e.about node = some (.disposed n.status) := by
      have hmem : NodeEvent.disposed n.status ∈ nodeEvents node events := by simp [hev]
      exact List.mem_filterMap.mp hmem
    obtain ⟨node', n₁, hn₁, -, -, rfl⟩ := hp.finished hid h he
    have hnode : node' = node := by
      by_contra hne
      simp [WorkqEvent.about, hne] at hab
    subst hnode
    obtain rfl := Option.some.inj (hn.symm.trans hn₁)
    exact he

omit [DecidableEq τ] in
theorem Purged.keeps (hp : Purged q events q') (hid : IdsAgree t q) (h : WorkqInv q)
    {node : Nat} {n : WorkqNode τ} (hn : q.node node = some n)
    (ht : n.status = .active ∨ t n.task = true) : nodeEvents node events = [] ∧
      (∃ n', q'.node node = some n' ∧ n'.task = n.task ∧ n'.status = n.status) ∧
      ∀ k, q'.Has k node ↔ q.Has k node := by
  obtain ⟨k, iter, hi, hd, -, hm⟩ := h.place hn
  have hpeek : q.peek iter = some n := by rw [Workq.peek, hd, hn]
  rcases hp.evolves.each node n iter hn hm with ⟨hev, -, -, n', hn', hs', ht'⟩ | ⟨-, -, hd, ha⟩
  · refine ⟨hev, ⟨n', hn', ht', hs'⟩, fun k => ?_⟩
    rw [hp.evolves.inv.has_iff hn', h.has_iff hn, hs']
  · rcases ht with hs | ht
    · exact absurd hs ha
    · simp [hid.untouched hpeek hd] at ht

omit [DecidableEq τ] in
/-- A purge with the mark drops all pending nodes that do not have it, and
the complete queue. -/
theorem Purged.cleared (hp : Purged q events q') (hmark : q.purgeId = workqPurgeMark)
    (hun : Unmarked q) : Cleared q' := by
  refine ⟨by rw [hp.purgeId, if_pos hmark], fun node n' hn' => ?_⟩
  obtain ⟨n, hn, ⟨ha, rfl⟩ | ⟨-, rfl, hp', hrest⟩⟩ := hp.origin hn'
  · refine ⟨?_, by simp [ha]⟩
    unfold WorkqNode.mark
    split_ifs with hm
    · rfl
    · simp only [ne_eq, not_not] at hm
      exact hm.trans hmark
  · rcases hrest with hs | hne
    · exact absurd (hp'.trans hmark) (hun node n' hn hs)
    · exact absurd (hp'.trans hmark) hne

omit [DecidableEq τ] in
theorem Cleared.unmarked (h : Cleared q) : Unmarked q :=
  fun node n hn hs => absurd hs (h.all node n hn).2

omit [DecidableEq τ] in
theorem Unmarked.withId (h : Unmarked q) (purgeId : Int) :
    Unmarked { q with purgeId := purgeId } := h

omit [DecidableEq τ] in
theorem Cleared.restore (h : Cleared q) {purgeId : Int} (hid : purgeId = 0 ∨ purgeId = 1) :
    IdsAgree (fun _ => false) { q with purgeId := purgeId } := by
  refine ⟨hid, h.unmarked.withId purgeId, fun node n hn => ?_⟩
  have hm := (h.all node n hn).1
  have hne : workqPurgeMark ≠ purgeId := by
    rcases hid with rfl | rfl <;> decide
  simp [hm, hne]

end Sections

section Runs

variable {data : IterPtr → Nat} {tr : List (WorkqLabel threads Unit τ)}
  {s s' : WorkqSys threads Unit τ}

theorem call_phase (h : WorkqSysInv s) {t t' : τ → Bool} (hid : IdsAgree t s.q) {op : WorkqCall τ}
    {r : WorkqSection τ} (hr : workqCallSection s.q op = some r)
    (hrun : ∀ task priority alloc, op = .run task priority alloc →
      t' = fun x => decide (task = x) || t x)
    (hclear : op = .purge ∨ (∃ blocking, op = .reset blocking) → t' = fun _ => false)
    (hkeep : op.ordinary = true → t' = t) : PurgePhase t' r.q r.pc := by
  have hord : op.ordinary = true → PurgePhase t' r.q r.pc := by
    intro hop
    obtain ⟨htr, hpc⟩ := callSection_trims h.inv hr hop
    rw [hkeep hop]
    exact (purgePhase_ordinary hpc).mpr (hid.trims htr)
  cases op with
  | run task priority alloc =>
    obtain ⟨ho, hpc⟩ := callSection_run h.inv hr
    rw [hrun task priority alloc rfl, hpc]
    exact hid.run h.inv ho
  | purge =>
    obtain rfl := Option.some.inj hr
    rw [hclear (.inl rfl)]
    exact hid.purge (workqPurge_spec h.inv)
  | reset blocking =>
    obtain rfl := Option.some.inj hr
    rw [hclear (.inr ⟨blocking, rfl⟩)]
    exact ⟨hid.alternates, fun _ => rfl, hid.unmarked⟩
  | delete =>
    obtain rfl := Option.some.inj hr
    exact hid.unmarked
  | wait => exact hord rfl
  | cancel => exact hord rfl
  | status => exact hord rfl
  | pending => exact hord rfl
  | flush => exact hord rfl
  | finish => exact hord rfl

omit [DecidableEq τ] in
theorem resetSection_phase {t : τ → Bool} {q : Workq τ} {purgeId : Int}
    (h : PurgePhase t q (.resetActive purgeId)) :
    PurgePhase t (workqResetSection purgeId q).q (workqResetSection purgeId q).pc := by
  simp only [workqResetSection]
  split_ifs
  · exact h
  · exact h

theorem resume_phase (h : WorkqSysInv s) {t : τ → Bool} (hph : PurgePhase t s.q (s.client ()))
    {joined : Bool} {r : WorkqSection τ}
    (hr : workqResumeSection joined s.q (s.client ()) = some r) : PurgePhase t r.q r.pc := by
  have hsleep := h.sleeper ()
  by_cases hord : (s.client ()).ordinary = true
  · obtain ⟨htr, hpc⟩ := resumeSection_trims h.inv hr hsleep hord
    rw [purgePhase_ordinary hord] at hph
    exact (purgePhase_ordinary hpc).mpr (hph.trims htr)
  · have hp := workqPurge_spec h.inv
    cases hc : s.client () with
    | resetSaved purgeId blocking =>
      rw [hc] at hph hr
      obtain rfl := Option.some.inj hr
      exact ⟨hph.1, hph.2.1, hph.2.2.withId _, rfl⟩
    | resetPurge purgeId blocking =>
      rw [hc] at hph hr
      obtain rfl := Option.some.inj hr
      have hcl := hp.cleared hph.2.2.2 hph.2.2.1
      cases blocking
      · exact ⟨hph.1, hph.2.1, hcl⟩
      · exact ⟨hph.1, hph.2.1, hcl⟩
    | resetActive purgeId =>
      rw [hc] at hph hr
      obtain rfl := Option.some.inj hr
      exact resetSection_phase hph
    | resetAsleep purgeId awake =>
      rw [hc] at hph hr
      cases awake with
      | false => simp [workqResumeSection] at hr
      | true =>
        obtain rfl := Option.some.inj hr
        exact resetSection_phase hph
    | resetPurgeComplete purgeId =>
      rw [hc] at hph hr
      obtain rfl := Option.some.inj hr
      exact ⟨hph.1, hph.2.1, hp.cleared hph.2.2.marked hph.2.2.unmarked⟩
    | resetRestore purgeId =>
      rw [hc] at hph hr
      obtain rfl := Option.some.inj hr
      have ht : t = fun _ => false := funext hph.2.1
      rw [ht]
      exact hph.2.2.restore hph.1
    | deleteJoin =>
      rw [hc] at hph hr
      cases joined with
      | false => simp [workqResumeSection] at hr
      | true =>
        obtain rfl := Option.some.inj hr
        exact hph
    | deleteMark =>
      rw [hc] at hph hr
      obtain rfl := Option.some.inj hr
      exact ⟨Unmarked.withId hph _, rfl⟩
    | deletePurge =>
      rw [hc] at hr
      obtain rfl := Option.some.inj hr
      trivial
    | deleteLists =>
      rw [hc] at hr
      obtain rfl := Option.some.inj hr
      trivial
    | deleted => simp [hc, workqResumeSection] at hr
    | _ => simp [hc, WorkqClient.ordinary] at hord

theorem phase_step (h : WorkqSysInv s)
    (hph : PurgePhase (fun task => touched task tr) s.q (s.client ()))
    {l : WorkqLabel threads Unit τ} (hs : WorkqStep s l s') :
    PurgePhase (fun task => touched task (l :: tr)) s'.q (s'.client ()) := by
  obtain ⟨m, events⟩ := l
  change s.step m = some (events, s') at hs
  cases m with
  | call c op =>
    obtain ⟨hc, r, hr, -, rfl⟩ := step_call hs
    rw [hc] at hph
    change PurgePhase _ r.q ((s.section_ () r).client ())
    rw [section_client_self]
    refine call_phase h hph hr (fun task priority alloc he => ?_) (fun he => ?_) (fun hop => ?_)
    · subst he
      rfl
    · rcases he with rfl | ⟨blocking, rfl⟩ <;> rfl
    · cases op <;> first | rfl | simp [WorkqCall.ordinary] at hop
  | resume c =>
    obtain ⟨r, hr, -, rfl⟩ := step_resume hs
    change PurgePhase _ r.q ((s.section_ () r).client ())
    rw [section_client_self]
    exact resume_phase h hph hr
  | read c garbage =>
    obtain ⟨node, hc, -, rfl⟩ := step_read hs
    rw [hc] at hph
    exact hph
  | wakeClient c =>
    obtain ⟨-, rfl⟩ := step_wakeClient hs
    exact hph.signal
  | wakeWorker w =>
    obtain ⟨-, rfl⟩ := step_wakeWorker hs
    exact hph
  | work w =>
    obtain ⟨-, s₁, hr, rfl⟩ := step_work hs
    have htr := (hr.trims h).trans (thread_trims s₁ w)
    cases hr with
    | enter => exact (show PurgePhase _ s.q (s.client ()) from hph).trims htr
    | report => exact (hph.trims htr).signal
  | begin w =>
    obtain ⟨iter, node, hw, -, rfl⟩ := step_begin hs
    exact hph
  | finish w ret =>
    obtain ⟨iter, node, hw, -, rfl⟩ := step_finish hs
    exact hph

omit [DecidableEq τ] in
theorem idsAgree_new (data : IterPtr → Nat) (t : τ → Bool) : IdsAgree t (workqNew data) := by
  refine ⟨.inl rfl, fun node n hn => ?_, fun node n hn => ?_⟩
  · simp [workqNew] at hn
  · simp [workqNew] at hn

theorem WorkqReach.phase (h : WorkqReach data tr s) :
    PurgePhase (fun task => touched task tr) s.q (s.client ()) := by
  refine h.invariant (P := fun tr s => PurgePhase (fun task => touched task tr) s.q (s.client ()))
    ?_ ?_
  · exact idsAgree_new data _
  · intro tr s l s' hr hph hs
    exact phase_step (WorkqReach.inv hr) hph hs

/-- A call of cc_workq_purge passes to finish_fn, once each, the nodes that
are not active and whose task is untouched, and it keeps all others. -/
theorem workq_purge_untouched (h : WorkqReach data tr s) {events : List (WorkqEvent τ)}
    (hs : s.step (.call () .purge) = some (events, s')) :
    (∀ e ∈ events, ∃ node n, s.q.node node = some n ∧ n.status ≠ .active ∧
      touched n.task tr = false ∧ e = .finished node n.task n.status) ∧
    (∀ node n, s.q.node node = some n → n.status ≠ .active → touched n.task tr = false →
      .finished node n.task n.status ∈ events ∧ nodeEvents node events = [.disposed n.status] ∧
        s'.q.node node = none) ∧
    (∀ node n, s.q.node node = some n → n.status = .active ∨ touched n.task tr = true →
      nodeEvents node events = [] ∧ (∃ n', s'.q.node node = some n' ∧ n'.task = n.task ∧
        n'.status = n.status) ∧ ∀ k, s'.q.Has k node ↔ s.q.Has k node) := by
  have hinv := h.inv.inv
  have hph := h.phase
  obtain ⟨hc, r, hr, rfl, rfl⟩ := step_call hs
  obtain rfl := Option.some.inj hr
  rw [hc] at hph
  have hid : IdsAgree (fun task => touched task tr) s.q := hph
  have hp := workqPurge_spec hinv
  change Purged s.q _
    ((s.section_ () ⟨(workqPurge s.q).1, .idle, false, (workqPurge s.q).2⟩).q) at hp
  generalize (s.section_ () ⟨(workqPurge s.q).1, .idle, false, (workqPurge s.q).2⟩).q = q' at hp ⊢
  dsimp only
  generalize (workqPurge s.q).1 = events at hp ⊢
  exact ⟨fun e he => hp.finished hid hinv he, fun node n hn hs ht => hp.disposes hid hinv hn hs ht,
    fun node n hn ht => hp.keeps hid hinv hn ht⟩

/-- A task is submitted and purged once while it is touched. -/
def workqPurgeTouched : List (WorkqMove 1 Unit Nat) :=
  [.call () (.run 1 0 (.success ⟨0, 0⟩)), .call () .purge]

/-- The next purge disposes of it. -/
theorem workq_purge_untouched_twice :
    nodeEvents 0 ((((workqExec (workqSysNew (fun _ => 0)) workqPurgeTouched).get
      (by decide)).2.step (.call () .purge)).get (by decide)).1 = [.disposed .pending] := by
  have hr := WorkqReach.play (fun _ => 0) workqPurgeTouched (by decide)
  have hs : (((workqExec (workqSysNew (fun _ => 0)) workqPurgeTouched).get
      (by decide)).2.step (.call () .purge)) = some (_, _) := (Option.some_get (by decide)).symm
  exact ((workq_purge_untouched hr hs).2.1 0 ⟨.pending, 0, 0, 1⟩ (by decide) (by decide)
    (by decide)).2.1

end Runs

end LibCC
