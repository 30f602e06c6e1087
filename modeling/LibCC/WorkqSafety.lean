import LibCC.WorkqSteps

/-! The invariant of a workq with its threads, and what a client that sleeps
on a node keeps while no step removes that node. -/

namespace LibCC

open LabelledRun SequenceFamily

variable {threads : Nat} {C τ : Type} [DecidableEq C] [DecidableEq τ]

/-- Besides the structure of the workq: the workers that have taken a task
hold the nodes of the active queue, one each, and a client that sleeps on a
node that is not freed keeps the iter of its task. -/
structure WorkqSysInv (s : WorkqSys threads C τ) : Prop where
  inv : WorkqInv s.q
  holder : ∀ w iter node, (s.worker w).holds = some (iter, node) →
    iter ∈ s.q.active ∧ s.q.queues.data iter = node
  held : ∀ iter ∈ s.q.active, ∃ w node, (s.worker w).holds = some (iter, node)
  once : ∀ w w' iter node node', (s.worker w).holds = some (iter, node) →
    (s.worker w').holds = some (iter, node') → w = w'
  known : ∀ c task iter node, (s.client c).sleepsOn = some (task, iter, node) → node < s.q.nextNode
  sleeper : ∀ c task iter node n, (s.client c).sleepsOn = some (task, iter, node) →
    s.q.node node = some n → n.task = task ∧ s.q.mapTask task = some iter

/-- No client sleeps on a node that is freed, and none has used one. -/
structure WorkqKept (s : WorkqSys threads C τ) : Prop where
  live : ∀ c, ¬ (s.client c).Bereft s.q
  sound : ∀ c, s.client c ≠ .fault

/-- The step removes no node on which another client sleeps. -/
def WorkqMove.Spares (s : WorkqSys threads C τ) : WorkqMove threads C τ → Prop
  | .call c op => ∀ c' ≠ c, ∀ task iter node,
    (s.client c').sleepsOn = some (task, iter, node) → ¬ op.Drops s.q iter
  | .resume c => ∀ c' ≠ c, ∀ task iter node,
    (s.client c').sleepsOn = some (task, iter, node) → ¬ (s.client c).Drops s.q iter
  | _ => True

omit [DecidableEq C] [DecidableEq τ] in
theorem workqSysNew_inv (data : IterPtr → Nat) :
    WorkqSysInv (workqSysNew data : WorkqSys threads C τ) := by
  refine ⟨workqNew_inv data, ?_, ?_, ?_, ?_, ?_⟩
  · intro w iter node h
    exact absurd h (by simp [workqSysNew, WorkqWorker.holds])
  · intro iter h
    exact absurd h List.not_mem_nil
  · intro w w' iter node node' h
    exact absurd h (by simp [workqSysNew, WorkqWorker.holds])
  · intro c task iter node h
    exact absurd h (by simp [workqSysNew, WorkqClient.sleepsOn])
  · intro c task iter node n h
    exact absurd h (by simp [workqSysNew, WorkqClient.sleepsOn])

section Parts

variable {s : WorkqSys threads C τ}

omit [DecidableEq τ] in
theorem signal_ne_fault {pc : WorkqClient τ} (h : pc ≠ .fault) : pc.signal ≠ .fault := by
  cases pc <;> first | exact absurd rfl h | simp [WorkqClient.signal]

omit [DecidableEq τ] in
theorem section_holds (s : WorkqSys threads C τ) (c : C) (r : WorkqSection τ) (w : Fin threads) :
    ((s.section_ c r).worker w).holds = (s.worker w).holds := by
  unfold WorkqSys.section_
  split_ifs <;> simp

omit [DecidableEq C] [DecidableEq τ] in
theorem Evolves.active_data {drop : IterPtr → Prop} {q q' : Workq τ} {events : List (WorkqEvent τ)}
    (he : Evolves drop q events q') (h : WorkqInv q) {iter : IterPtr} (hi : iter ∈ q.active) :
    q'.queues.data iter = q.queues.data iter := by
  obtain ⟨n, hn, hk, hm⟩ := h.queued .active iter hi
  have hs : n.status = .active := home_eq_active.mp hk
  rcases he.each _ n iter hn hm with ⟨-, -, hd, -⟩ | ⟨-, -, -, ha⟩
  · exact hd
  · exact absurd hs ha

omit [DecidableEq τ] in
@[simp] theorem section_client_self (c : C) (r : WorkqSection τ) :
    (s.section_ c r).client c = r.pc := Function.update_self ..

omit [DecidableEq τ] in
theorem section_client_of_ne {c c' : C} (hne : c' ≠ c) (r : WorkqSection τ) :
    (s.section_ c r).client c' = s.client c' := Function.update_of_ne hne ..

omit [DecidableEq τ] in
theorem section_inv (h : WorkqSysInv s) {c : C} {r : WorkqSection τ} {drop : IterPtr → Prop}
    {freed : Prop} (hr : SectionSpec drop freed s.q r) : WorkqSysInv (s.section_ c r) := by
  have hact : r.q.active = s.q.active := hr.evolves.active
  have hinv' : WorkqInv r.q := hr.evolves.inv
  refine ⟨hinv', fun w iter node hw => ?_, fun iter hi => ?_,
    fun w w' iter node node' hw hw' => ?_, fun c' task iter node hc => ?_,
    fun c' task iter node n' hc hn' => ?_⟩
  · rw [section_holds] at hw
    obtain ⟨hi, hd⟩ := h.holder w iter node hw
    refine ⟨?_, (hr.evolves.active_data h.inv hi).trans hd⟩
    change iter ∈ r.q.active
    rw [hact]
    exact hi
  · change iter ∈ r.q.active at hi
    rw [hact] at hi
    obtain ⟨w, node, hw⟩ := h.held iter hi
    exact ⟨w, node, by rw [section_holds]; exact hw⟩
  · rw [section_holds] at hw hw'
    exact h.once w w' iter node node' hw hw'
  · by_cases he : c' = c
    · subst he
      rw [section_client_self] at hc
      obtain ⟨n, hn, -, -⟩ := hr.sleeps task iter node hc
      exact (hinv'.allocated node n hn).1
    · rw [section_client_of_ne he] at hc
      exact (h.known c' task iter node hc).trans_le hr.evolves.next
  · by_cases he : c' = c
    · subst he
      rw [section_client_self] at hc
      obtain ⟨n, hn, ht, hm⟩ := hr.sleeps task iter node hc
      obtain rfl := Option.some.inj (hn.symm.trans hn')
      exact ⟨ht, hm⟩
    · rw [section_client_of_ne he] at hc
      obtain ⟨n, iter', hn, -, ht', hm, hm'⟩ :=
        hr.evolves.origin h.inv hn' (h.known c' task iter node hc)
      obtain ⟨rfl, hm₀⟩ := h.sleeper c' task iter node n hc hn
      obtain rfl := Option.some.inj (hm.symm.trans hm₀)
      exact ⟨ht', hm'⟩

omit [DecidableEq τ] in
theorem setClient_sleepsOn {c : C} {pc : WorkqClient τ}
    (hpc : pc.sleepsOn = none ∨ pc.sleepsOn = (s.client c).sleepsOn) {c' : C}
    {x : τ × IterPtr × Nat} (hc : ((s.setClient c pc).client c').sleepsOn = some x) :
    (s.client c').sleepsOn = some x := by
  by_cases he : c' = c
  · subst he
    have hc' : pc.sleepsOn = some x := by simpa [WorkqSys.setClient] using hc
    rcases hpc with hpc | hpc
    · exact absurd (hpc.symm.trans hc') (by simp)
    · exact hpc.symm.trans hc'
  · simpa [WorkqSys.setClient, he] using hc

omit [DecidableEq τ] in
theorem setClient_inv (h : WorkqSysInv s) {c : C} {pc : WorkqClient τ}
    (hpc : pc.sleepsOn = none ∨ pc.sleepsOn = (s.client c).sleepsOn) :
    WorkqSysInv (s.setClient c pc) :=
  ⟨h.inv, h.holder, h.held, h.once,
    fun c' task iter node hc => h.known c' task iter node (setClient_sleepsOn hpc hc),
    fun c' task iter node n hc => h.sleeper c' task iter node n (setClient_sleepsOn hpc hc)⟩

omit [DecidableEq C] [DecidableEq τ] in
theorem setWorker_inv (h : WorkqSysInv s) {w : Fin threads} {pc : WorkqWorker}
    (hpc : pc.holds = (s.worker w).holds) : WorkqSysInv (s.setWorker w pc) := by
  have hh : ∀ w', ((s.setWorker w pc).worker w').holds = (s.worker w').holds := by
    intro w'
    by_cases he : w' = w
    · subst he
      simp [WorkqSys.setWorker, hpc]
    · simp [WorkqSys.setWorker, he]
  refine ⟨h.inv, fun w' iter node hw => ?_, fun iter hi => ?_,
    fun w₁ w₂ iter node node' hw hw' => ?_, h.known, h.sleeper⟩
  · rw [hh] at hw
    exact h.holder w' iter node hw
  · obtain ⟨w', node, hw⟩ := h.held iter hi
    exact ⟨w', node, by rw [hh]; exact hw⟩
  · rw [hh] at hw hw'
    exact h.once w₁ w₂ iter node node' hw hw'

omit [DecidableEq C] [DecidableEq τ] in
@[simp] theorem report_sleepsOn (w : Fin threads) (iter : IterPtr) (node : Nat) (ret : Bool)
    (c : C) :
    ((s.report w iter node ret).client c).sleepsOn = (s.client c).sleepsOn := by
  simp [WorkqSys.report]

omit [DecidableEq C] [DecidableEq τ] in
theorem report_inv (h : WorkqSysInv s) {w : Fin threads} {iter : IterPtr} {node : Nat} {ret : Bool}
    (hw : s.worker w = .returned iter node ret) : WorkqSysInv (s.report w iter node ret) := by
  obtain ⟨hi, hd⟩ := h.holder w iter node (by rw [hw]; rfl)
  have hq : (s.report w iter node ret).q = s.q.shift .active .complete iter (workqRetStatus ret) :=
    workqReport_eq hd ret
  have hs : (workqRetStatus ret).home = some .complete := by cases ret <;> rfl
  have hmem := h.inv.mem_shift (show WorkqQueue.active ≠ .complete by simp) hi
    (workqRetStatus ret)
  have hother : ∀ w', w' ≠ w → (s.report w iter node ret).worker w' = s.worker w' :=
    fun w' he => Function.update_of_ne he ..
  have hself : (s.report w iter node ret).worker w = .start := Function.update_self ..
  refine ⟨by rw [hq]; exact h.inv.shift (by simp) hi hs, fun w' x m hx => ?_, fun x hx => ?_,
    fun w₁ w₂ x m m' h₁ h₂ => ?_, fun c task x m hc => ?_, fun c task x m n' hc hn' => ?_⟩
  · by_cases he : w' = w
    · subst he
      rw [hself] at hx
      exact absurd hx (by simp [WorkqWorker.holds])
    · rw [hother w' he] at hx
      obtain ⟨hxa, hxd⟩ := h.holder w' x m hx
      have hne : x ≠ iter := by
        rintro rfl
        exact he (h.once w' w x m node hx (by rw [hw]; rfl))
      rw [hq]
      exact ⟨(hmem .active x).mpr (.inl ⟨hxa, hne⟩), by rw [shift_data]; exact hxd⟩
  · rw [hq] at hx
    rcases (hmem .active x).mp hx with ⟨hxa, hne⟩ | ⟨he, -⟩
    · obtain ⟨w', m, hw'⟩ := h.held x hxa
      have he : w' ≠ w := by
        rintro rfl
        rw [hw] at hw'
        exact hne (Prod.mk.inj (Option.some.inj hw')).1.symm
      exact ⟨w', m, by rw [hother w' he]; exact hw'⟩
    · exact absurd he (by simp)
  · by_cases he₁ : w₁ = w
    · subst he₁
      rw [hself] at h₁
      exact absurd h₁ (by simp [WorkqWorker.holds])
    · by_cases he₂ : w₂ = w
      · subst he₂
        rw [hself] at h₂
        exact absurd h₂ (by simp [WorkqWorker.holds])
      · rw [hother w₁ he₁] at h₁
        rw [hother w₂ he₂] at h₂
        exact h.once w₁ w₂ x m m' h₁ h₂
  · rw [report_sleepsOn] at hc
    exact h.known c task x m hc
  · rw [report_sleepsOn] at hc
    rw [hq] at hn' ⊢
    obtain ⟨n, hn, ht⟩ := shift_origin hn'
    obtain ⟨rfl, hm⟩ := h.sleeper c task x m n hc hn
    exact ⟨ht, hm⟩

omit [DecidableEq C] [DecidableEq τ] in
theorem WorkqSys.Ready.spec (h : WorkqSysInv s) {w : Fin threads} {s₁ : WorkqSys threads C τ}
    (hr : s.Ready w s₁) : WorkqSysInv s₁ ∧ (s₁.worker w).holds = none := by
  cases hr with
  | enter hw => exact ⟨h, by rcases hw with hw | hw <;> rw [hw] <;> rfl⟩
  | report hw => exact ⟨report_inv h hw, by simp [WorkqSys.report, WorkqWorker.holds]⟩

omit [DecidableEq C] [DecidableEq τ] in
theorem thread_inv (h : WorkqSysInv s) {w : Fin threads} (hw : (s.worker w).holds = none) :
    WorkqSysInv (s.thread w) := by
  have hnone : ∀ pc : WorkqWorker, pc.holds = none → WorkqSysInv (s.setWorker w pc) :=
    fun pc hpc => setWorker_inv h (hpc.trans hw.symm)
  rcases workqThreadSection_cases s.q with ⟨hr, -⟩ | ⟨hr, -⟩ | ⟨iter, rest, hp, -, hr⟩
  · have he : s.thread w = s.setWorker w (.asleep false) := by
      simp [WorkqSys.thread, WorkqSys.setWorker, hr]
    rw [he]
    exact hnone _ rfl
  · have he : s.thread w = s.setWorker w .exited := by
      simp [WorkqSys.thread, WorkqSys.setWorker, hr]
    rw [he]
    exact hnone _ rfl
  · have hi : iter ∈ s.q.queues.seq .pending := by
      have : iter ∈ s.q.pending := by simp [hp]
      exact this
    have hq : (s.thread w).q = s.q.shift .pending .active iter .active := by
      simp [WorkqSys.thread, hr]
    have hself : (s.thread w).worker w = .taken iter (s.q.queues.data iter) := by
      simp [WorkqSys.thread, hr]
    have hother : ∀ w', w' ≠ w → (s.thread w).worker w' = s.worker w' := by
      intro w' he
      simp [WorkqSys.thread, he]
    have hmem := h.inv.mem_shift (show WorkqQueue.pending ≠ .active by simp) hi .active
    have hnew : iter ∉ s.q.active :=
      fun ha => absurd (h.inv.separated.2 .pending .active iter hi ha) (by simp)
    refine ⟨by rw [hq]; exact h.inv.shift (by simp) hi rfl, fun w' x m hx => ?_, fun x hx => ?_,
      fun w₁ w₂ x m m' h₁ h₂ => ?_, ?_, fun c task x m n' hc hn' => ?_⟩
    · rw [hq, shift_data]
      by_cases he : w' = w
      · subst he
        rw [hself] at hx
        obtain ⟨rfl, rfl⟩ := Prod.mk.inj (Option.some.inj hx)
        exact ⟨(hmem .active iter).mpr (.inr ⟨rfl, rfl⟩), rfl⟩
      · rw [hother w' he] at hx
        obtain ⟨hxa, hxd⟩ := h.holder w' x m hx
        have hne : x ≠ iter := by
          rintro rfl
          exact hnew hxa
        exact ⟨(hmem .active x).mpr (.inl ⟨hxa, hne⟩), hxd⟩
    · rw [hq] at hx
      rcases (hmem .active x).mp hx with ⟨hxa, hne⟩ | ⟨-, rfl⟩
      · obtain ⟨w', m, hw'⟩ := h.held x hxa
        have he : w' ≠ w := by
          rintro rfl
          exact absurd (hw.symm.trans hw') (by simp)
        exact ⟨w', m, by rw [hother w' he]; exact hw'⟩
      · exact ⟨w, _, by rw [hself]; rfl⟩
    · by_cases he₁ : w₁ = w <;> by_cases he₂ : w₂ = w
      · rw [he₁, he₂]
      · subst he₁
        rw [hself] at h₁
        rw [hother w₂ he₂] at h₂
        obtain ⟨rfl, -⟩ := Prod.mk.inj (Option.some.inj h₁)
        exact absurd (h.holder w₂ _ m' h₂).1 hnew
      · subst he₂
        rw [hself] at h₂
        rw [hother w₁ he₁] at h₁
        obtain ⟨rfl, -⟩ := Prod.mk.inj (Option.some.inj h₂)
        exact absurd (h.holder w₁ _ m h₁).1 hnew
      · rw [hother w₁ he₁] at h₁
        rw [hother w₂ he₂] at h₂
        exact h.once w₁ w₂ x m m' h₁ h₂
    · rw [hq]
      exact h.known
    · rw [hq] at hn' ⊢
      obtain ⟨n, hn, ht⟩ := shift_origin hn'
      obtain ⟨rfl, hm⟩ := h.sleeper c task x m n hc hn
      exact ⟨ht, hm⟩

end Parts

theorem WorkqStep.inv {s s' : WorkqSys threads C τ} {l : WorkqLabel threads C τ}
    (h : WorkqSysInv s) (hs : WorkqStep s l s') : WorkqSysInv s' := by
  obtain ⟨m, events⟩ := l
  change s.step m = some (events, s') at hs
  cases m with
  | call c call =>
    obtain ⟨-, r, hr, -, rfl⟩ := step_call hs
    exact section_inv h (callSection_spec h.inv hr)
  | resume c =>
    obtain ⟨r, hr, -, rfl⟩ := step_resume hs
    exact section_inv h (resumeSection_spec h.inv hr (h.sleeper c))
  | read c garbage =>
    obtain ⟨node, hc, -, rfl⟩ := step_read hs
    exact setClient_inv h (.inl rfl)
  | wakeClient c =>
    obtain ⟨-, rfl⟩ := step_wakeClient hs
    exact setClient_inv h (.inr (sleepsOn_signal _))
  | wakeWorker w =>
    obtain ⟨-, rfl⟩ := step_wakeWorker hs
    exact setWorker_inv h (holds_signal _)
  | work w =>
    obtain ⟨-, s₁, hr, rfl⟩ := step_work hs
    obtain ⟨h₁, hw⟩ := hr.spec h
    exact thread_inv h₁ hw
  | begin w =>
    obtain ⟨iter, node, hw, -, rfl⟩ := step_begin hs
    exact setWorker_inv h (by rw [hw]; rfl)
  | finish w ret =>
    obtain ⟨iter, node, hw, -, rfl⟩ := step_finish hs
    exact setWorker_inv h (by rw [hw]; rfl)

theorem WorkqReach.inv {data : IterPtr → Nat} {tr : List (WorkqLabel threads C τ)}
    {s : WorkqSys threads C τ} (h : WorkqReach data tr s) : WorkqSysInv s := by
  refine h.invariant (P := fun _ s => WorkqSysInv s) (workqSysNew_inv data) ?_
  intro _ _ _ _ _ hi hs
  exact WorkqStep.inv hi hs

section Kept

variable {s : WorkqSys threads C τ}

omit [DecidableEq τ] in
theorem section_kept (h : WorkqSysInv s) (hk : WorkqKept s) {c : C} {r : WorkqSection τ}
    {drop : IterPtr → Prop} {freed : Prop} (hr : SectionSpec drop freed s.q r) (hf : ¬ freed)
    (hspare : ∀ c' ≠ c, ∀ task iter node, (s.client c').sleepsOn = some (task, iter, node) →
      ¬ drop iter) : WorkqKept (s.section_ c r) := by
  refine ⟨fun c' => ?_, fun c' => ?_⟩
  · rintro ⟨task, iter, node, hc, hn'⟩
    change r.q.node node = none at hn'
    by_cases he : c' = c
    · subst he
      rw [section_client_self] at hc
      obtain ⟨n, hn, -, -⟩ := hr.sleeps task iter node hc
      simp [hn] at hn'
    · rw [section_client_of_ne he] at hc
      cases hn : s.q.node node with
      | none => exact hk.live c' ⟨task, iter, node, hc, hn⟩
      | some n =>
        obtain ⟨rfl, hm⟩ := h.sleeper c' task iter node n hc hn
        rcases hr.evolves.each node n iter hn hm with ⟨-, -, -, n₁, hn₁, -, -⟩ | ⟨-, -, hd, -⟩
        · simp [hn₁] at hn'
        · exact hspare c' he n.task iter node hc hd
  · by_cases he : c' = c
    · subst he
      rw [section_client_self]
      exact fun hpc => hf (hr.sound hpc)
    · rw [section_client_of_ne he]
      exact hk.sound c'

omit [DecidableEq τ] in
theorem setClient_kept (hk : WorkqKept s) {c : C} {pc : WorkqClient τ}
    (hpc : pc.sleepsOn = none ∨ pc.sleepsOn = (s.client c).sleepsOn) (hf : pc ≠ .fault) :
    WorkqKept (s.setClient c pc) := by
  refine ⟨fun c' => ?_, fun c' => ?_⟩
  · rintro ⟨task, iter, node, hc, hn⟩
    exact hk.live c' ⟨task, iter, node, setClient_sleepsOn hpc hc, hn⟩
  · by_cases he : c' = c
    · subst he
      simpa [WorkqSys.setClient] using hf
    · simpa [WorkqSys.setClient, he] using hk.sound c'

omit [DecidableEq C] [DecidableEq τ] in
theorem report_kept (hk : WorkqKept s) (w : Fin threads) (iter : IterPtr) (node : Nat)
    (ret : Bool) : WorkqKept (s.report w iter node ret) := by
  refine ⟨fun c => ?_, fun c => signal_ne_fault (hk.sound c)⟩
  rintro ⟨task, i, m, hc, hn⟩
  rw [report_sleepsOn] at hc
  exact hk.live c ⟨task, i, m, hc, setNode_eq_none.mp hn⟩

omit [DecidableEq C] [DecidableEq τ] in
theorem thread_kept (hk : WorkqKept s) (w : Fin threads) : WorkqKept (s.thread w) := by
  refine ⟨fun c => ?_, hk.sound⟩
  rintro ⟨task, i, m, hc, hn⟩
  refine hk.live c ⟨task, i, m, hc, ?_⟩
  rcases workqThreadSection_cases s.q with ⟨hr, -⟩ | ⟨hr, -⟩ | ⟨iter, rest, hp, -, hr⟩
  · simpa [WorkqSys.thread, hr] using hn
  · simpa [WorkqSys.thread, hr] using hn
  · have hn' : (s.q.shift .pending .active iter .active).node m = none := by
      simpa [WorkqSys.thread, hr] using hn
    exact setNode_eq_none.mp hn'

end Kept

theorem WorkqStep.kept {s s' : WorkqSys threads C τ} {l : WorkqLabel threads C τ}
    (h : WorkqSysInv s) (hk : WorkqKept s) (hs : WorkqStep s l s') (hspare : l.1.Spares s) :
    WorkqKept s' := by
  obtain ⟨m, events⟩ := l
  change s.step m = some (events, s') at hs
  cases m with
  | call c call =>
    obtain ⟨-, r, hr, -, rfl⟩ := step_call hs
    exact section_kept h hk (callSection_spec h.inv hr) id hspare
  | resume c =>
    obtain ⟨r, hr, -, rfl⟩ := step_resume hs
    exact section_kept h hk (resumeSection_spec h.inv hr (h.sleeper c)) (hk.live c) hspare
  | read c garbage =>
    obtain ⟨node, hc, -, rfl⟩ := step_read hs
    exact setClient_kept hk (.inl rfl) (by simp)
  | wakeClient c =>
    obtain ⟨-, rfl⟩ := step_wakeClient hs
    exact setClient_kept hk (.inr (sleepsOn_signal _)) (signal_ne_fault (hk.sound c))
  | wakeWorker w =>
    obtain ⟨-, rfl⟩ := step_wakeWorker hs
    exact ⟨hk.live, hk.sound⟩
  | work w =>
    obtain ⟨-, s₁, hr, rfl⟩ := step_work hs
    cases hr with
    | enter => exact thread_kept hk w
    | report => exact thread_kept (report_kept hk _ _ _ _) w
  | begin w =>
    obtain ⟨iter, node, hw, -, rfl⟩ := step_begin hs
    exact ⟨hk.live, hk.sound⟩
  | finish w ret =>
    obtain ⟨iter, node, hw, -, rfl⟩ := step_finish hs
    exact ⟨hk.live, hk.sound⟩

/-- The runs in which no step removes a node on which another client sleeps. -/
abbrev SparingReach (data : IterPtr → Nat) :
    List (WorkqLabel threads C τ) → WorkqSys threads C τ → Prop :=
  Run (Guarded WorkqStep fun s l => l.1.Spares s) (workqSysNew data)

theorem SparingReach.kept {data : IterPtr → Nat} {tr : List (WorkqLabel threads C τ)}
    {s : WorkqSys threads C τ} (h : SparingReach data tr s) : WorkqKept s := by
  refine h.invariant (P := fun _ s => WorkqKept s) ?_ ?_
  · refine ⟨fun c => ?_, fun c => by simp [workqSysNew]⟩
    rintro ⟨task, iter, node, hc, -⟩
    exact absurd hc (by simp [workqSysNew, WorkqClient.sleepsOn])
  · intro _ _ _ _ hr hk hs
    exact WorkqStep.kept (WorkqReach.inv hr.unguard) hk hs.1 hs.2

/-- With one client no other client sleeps. -/
theorem WorkqReach.sparing [Subsingleton C] {data : IterPtr → Nat}
    {tr : List (WorkqLabel threads C τ)} {s : WorkqSys threads C τ} (h : WorkqReach data tr s) :
    SparingReach data tr s := by
  refine h.mono (fun s l s' hs => ⟨hs, ?_⟩)
  obtain ⟨m, events⟩ := l
  cases m with
  | call c call => exact fun c' hne => absurd (Subsingleton.elim c' c) hne
  | resume c => exact fun c' hne => absurd (Subsingleton.elim c' c) hne
  | _ => trivial

end LibCC
