import LibCC.PriorityOrder
import LibCC.WorkqFrames

/-! The order of the pending queue. cc_workq_run finds the place of a new
node by its priority. It looks for the new place of a pending node by the old
priority, so the order survives only where the two lead to one place. -/

namespace LibCC

open LabelledRun PriorityOrder SequenceFamily

variable {threads : Nat} {C τ : Type} [DecidableEq C] [DecidableEq τ]

omit [DecidableEq C] in
/-- The priority that was last requested for a task; the labels are newest first. -/
def requested (task : τ) : List (WorkqLabel threads C τ) → Option Int
  | [] => none
  | (.call _ (.run t priority _), _) :: tr =>
    if t = task then some priority else requested task tr
  | _ :: tr => requested task tr

/-- The place where the old priority leaves a pending node is right for the new one. -/
def workqRepositions (priority : Int) (iter : IterPtr) (q : Workq τ) : Bool :=
  if priority > q.priority iter then
    (before iter q.pending).all fun pos => priority ≤ q.priority pos
  else if priority < q.priority iter then
    (after iter q.pending).all fun pos =>
      q.priority iter ≤ q.priority pos || q.priority pos ≤ priority
  else true

def WorkqMove.keepsOrder (s : WorkqSys threads C τ) : WorkqMove threads C τ → Bool
  | .call _ (.run task priority _) =>
    match s.q.mapTask task with
    | some iter => iter ∉ s.q.pending || workqRepositions priority iter s.q
    | none => true
  | _ => true

def Workq.Ordered (q : Workq τ) : Prop := Descending q.priority q.pending

section Reposition

variable {q : Workq τ} {priority : Int} {iter : IterPtr} {a b : List IterPtr}

omit [DecidableEq τ] in
/-- A higher priority never moves a node: the scan stops at the node before it. -/
theorem workqReposition_raise (ho : q.Ordered) (hnd : q.pending.Nodup)
    (hs : q.pending = a ++ iter :: b) (hle : q.priority iter ≤ priority) :
    workqReposition priority iter q = q.queues.setSeq .pending (a ++ iter :: b) := by
  have hord : Descending q.priority (a ++ iter :: b) := hs ▸ ho
  obtain ⟨-, hia, -⟩ := descending_insert_iff.mp hord
  have hself : q.queues = q.queues.setSeq .pending q.pending := by
    simp only [ListSeqs.setSeq, Workq.pending, Function.update_eq_self]
  rcases hle.eq_or_lt with heq | hgt
  · simp only [workqReposition, heq, gt_iff_lt, lt_self_iff_false, if_false]
    rw [← hs]
    exact hself
  · rw [hs] at hnd
    have hina : iter ∉ a := fun hi => List.disjoint_of_nodup_append hnd hi (by simp)
    have hse : q.queues.seq .pending = a ++ iter :: b := hs
    have herase : (q.queues.seq .pending).erase iter = a ++ b := by rw [hse, erase_split hina]
    have hbefore : before iter q.pending = a := by rw [hs, before_split hina]
    simp only [workqReposition, gt_iff_lt, hgt, if_true, hbefore]
    rcases List.eq_nil_or_concat a with rfl | ⟨a₀, z, rfl⟩
    · simp [ListSeqs.move, herase]
    · have hz : z ∉ a₀ := by
        have hnd' := (List.nodup_append.mp hnd).1
        rw [List.concat_eq_append] at hnd'
        exact fun hi => List.disjoint_of_nodup_append hnd' hi (by simp)
      have hzi : z ≠ iter := by
        rintro rfl
        simp at hina
      have hge : q.priority iter ≤ q.priority z := hia z (by simp)
      have hf : (a₀.concat z).reverse.find? (fun pos => decide (q.priority pos ≥ q.priority iter)) =
          some z := by
        simp [hge]
      rw [hf]
      simp only [ListSeqs.moven, Option.some.injEq, hzi, if_false, herase, List.concat_eq_append,
        List.append_assoc, List.singleton_append]
      rw [insertAfter_split _ hz]

omit [DecidableEq τ] in
/-- A lower priority moves a node behind the nodes that have at least its old one. -/
theorem workqReposition_lower (ho : q.Ordered) (hnd : q.pending.Nodup)
    (hs : q.pending = a ++ iter :: b) (hlt : priority < q.priority iter) :
    ∃ m rest, b = m ++ rest ∧
      workqReposition priority iter q = q.queues.setSeq .pending (a ++ m ++ iter :: rest) ∧
      (∀ y ∈ m, q.priority iter ≤ q.priority y) ∧ ∀ y ∈ rest, q.priority y < q.priority iter := by
  have hord : Descending q.priority (a ++ iter :: b) := hs ▸ ho
  obtain ⟨hab, -, -⟩ := descending_insert_iff.mp hord
  rw [hs] at hnd
  have hina : iter ∉ a := fun hi => List.disjoint_of_nodup_append hnd hi (by simp)
  have hinb : iter ∉ b := (List.nodup_cons.mp (List.nodup_append.mp hnd).2.1).1
  have hse : q.queues.seq .pending = a ++ iter :: b := hs
  have herase : (q.queues.seq .pending).erase iter = a ++ b := by rw [hse, erase_split hina]
  have hafter : after iter q.pending = b := by rw [hs, after_split hina]
  have hne : ¬ priority > q.priority iter := by omega
  simp only [workqReposition, hne, if_false, hlt, if_true, hafter]
  cases hf : b.find? (fun pos => decide (q.priority pos < q.priority iter)) with
  | none =>
    refine ⟨b, [], by simp, by simp [ListSeqs.moven, herase], fun y hy => ?_, by simp⟩
    have := List.find?_eq_none.mp hf y hy
    simpa using this
  | some pos =>
    obtain ⟨hpos, m, rest, rfl, hm⟩ := List.find?_eq_some_iff_append.mp hf
    have hpi : pos ≠ iter := by
      rintro rfl
      simp at hinb
    have hpm : pos ∉ a ++ m := by
      have hnd' : ((a ++ [iter] ++ m) ++ pos :: rest).Nodup := by simpa using hnd
      intro hp
      refine List.disjoint_of_nodup_append hnd' (a := pos) ?_ (by simp)
      rcases List.mem_append.mp hp with hp | hp <;> simp [hp]
    have hrest : ∀ y ∈ pos :: rest, q.priority y < q.priority iter := by
      have hd : Descending q.priority (pos :: rest) :=
        hab.sublist ((List.sublist_append_right m _).trans (List.sublist_append_right a _))
      refine hd.lt_head fun y hy => ?_
      obtain rfl := Option.some.inj hy
      simpa using hpos
    refine ⟨m, pos :: rest, rfl, ?_, fun y hy => ?_, hrest⟩
    · simp only [ListSeqs.move, Option.some.injEq, hpi, if_false, herase]
      rw [← List.append_assoc, insertBefore_split _ hpm]
    · simpa using hm y hy

/-- A pending node with a new priority, as cc_workq_run leaves it. -/
def Workq.reprioritize (q : Workq τ) (iter : IterPtr) (priority : Int) : Workq τ :=
  { q with queues := workqReposition priority iter q }.setNode (q.queues.data iter)
    fun n => { n with purgeId := q.purgeId, priority := priority }

section Reprioritize

variable {m rest : List IterPtr}

omit [DecidableEq τ] in
theorem reprioritize_pending
    (hseq : workqReposition priority iter q = q.queues.setSeq .pending (a ++ m ++ iter :: rest)) :
    (q.reprioritize iter priority).pending = a ++ m ++ iter :: rest := by
  change (workqReposition priority iter q).seq .pending = _
  rw [hseq]
  simp

omit [DecidableEq τ] in
theorem reprioritize_data (hi : iter ∈ q.pending) (priority : Int) :
    (q.reprioritize iter priority).queues.data = q.queues.data :=
  (retouched_reposition priority hi).data

omit [DecidableEq τ] in
theorem reprioritize_own (h : WorkqInv q) (hi : iter ∈ q.pending) (priority : Int) :
    (q.reprioritize iter priority).priority iter = priority := by
  obtain ⟨n, hn, -, -⟩ := h.queued .pending iter hi
  have hn' : q.node (q.queues.data iter) = some n := hn
  rw [Workq.priority, Workq.peek, reprioritize_data hi]
  simp [Workq.reprioritize, Workq.setNode, hn']

omit [DecidableEq τ] in
theorem reprioritize_other (h : WorkqInv q) (hi : iter ∈ q.pending) (priority : Int) {y : IterPtr}
    (hy : y ∈ q.pending) (hne : y ≠ iter) :
    (q.reprioritize iter priority).priority y = q.priority y := by
  have hd : q.queues.data y ≠ q.queues.data iter := fun he => hne (h.data_inj hy hi he)
  rw [Workq.priority, Workq.priority, Workq.peek, reprioritize_data hi]
  simp [Workq.reprioritize, Workq.setNode, hd, Workq.peek]

omit [DecidableEq τ] in
theorem reprioritize_ordered_split (h : WorkqInv q) (ho : q.Ordered)
    (hs : q.pending = a ++ iter :: (m ++ rest))
    (hseq : workqReposition priority iter q = q.queues.setSeq .pending (a ++ m ++ iter :: rest)) :
    (q.reprioritize iter priority).Ordered ↔
      (∀ y ∈ a, priority ≤ q.priority y) ∧ (∀ y ∈ m, priority ≤ q.priority y) ∧
        ∀ y ∈ rest, q.priority y ≤ priority := by
  have hord : Descending q.priority (a ++ iter :: (m ++ rest)) := hs ▸ ho
  have hnd : (a ++ iter :: (m ++ rest)).Nodup := hs ▸ h.separated.1 .pending
  have hi : iter ∈ q.pending := by simp [hs]
  have hkey : ∀ y ∈ a ++ (m ++ rest),
      (q.reprioritize iter priority).priority y = q.priority y := by
    intro y hy
    have hne : y ≠ iter := by
      rintro rfl
      exact (List.nodup_cons.mp (List.perm_middle.nodup_iff.mp hnd)).1 hy
    refine reprioritize_other h hi priority ?_ hne
    rw [hs]
    rcases List.mem_append.mp hy with hy | hy <;> simp [hy]
  have hka : ∀ y ∈ a, (q.reprioritize iter priority).priority y = q.priority y :=
    fun y hy => hkey y (by simp [hy])
  have hkm : ∀ y ∈ m, (q.reprioritize iter priority).priority y = q.priority y :=
    fun y hy => hkey y (by simp [hy])
  have hkr : ∀ y ∈ rest, (q.reprioritize iter priority).priority y = q.priority y :=
    fun y hy => hkey y (by simp [hy])
  rw [Workq.Ordered, reprioritize_pending hseq, descending_insert_iff, reprioritize_own h hi]
  constructor
  · rintro ⟨-, hle, hge⟩
    exact ⟨fun y hy => hka y hy ▸ hle y (by simp [hy]), fun y hy => hkm y hy ▸ hle y (by simp [hy]),
      fun y hy => hkr y hy ▸ hge y hy⟩
  · rintro ⟨hla, hlm, hlr⟩
    have hrest : Descending (q.reprioritize iter priority).priority (a ++ m ++ rest) := by
      rw [List.append_assoc]
      exact (descending_insert_iff.mp hord).1.congr hkey
    refine ⟨hrest, fun y hy => ?_, fun y hy => (hkr y hy).symm ▸ hlr y hy⟩
    rcases List.mem_append.mp hy with hy | hy
    · exact (hka y hy).symm ▸ hla y hy
    · exact (hkm y hy).symm ▸ hlm y hy

omit [DecidableEq τ] in
/-- The order survives a new priority exactly when the place is right. -/
theorem reprioritize_ordered_iff (h : WorkqInv q) (ho : q.Ordered) (hi : iter ∈ q.pending)
    (priority : Int) :
    (q.reprioritize iter priority).Ordered ↔ workqRepositions priority iter q = true := by
  have hnd : q.pending.Nodup := h.separated.1 .pending
  obtain ⟨a, b, hs, hina⟩ := split_of_mem hi
  have hord : Descending q.priority (a ++ iter :: b) := hs ▸ ho
  obtain ⟨-, hia, hib⟩ := descending_insert_iff.mp hord
  have hbefore : before iter q.pending = a := by rw [hs, before_split hina]
  have hafter : after iter q.pending = b := by rw [hs, after_split hina]
  rcases lt_or_ge priority (q.priority iter) with hlt | hle
  · obtain ⟨m, rest, rfl, hseq, hm, hr⟩ := workqReposition_lower ho hnd hs hlt
    rw [reprioritize_ordered_split h ho hs hseq]
    have hne : ¬ priority > q.priority iter := by omega
    simp only [workqRepositions, hne, if_false, hlt, if_true, hafter, List.all_eq_true,
      Bool.or_eq_true, decide_eq_true_eq]
    constructor
    · rintro ⟨-, -, hge⟩ y hy
      rcases List.mem_append.mp hy with hy | hy
      · exact .inl (hm y hy)
      · exact .inr (hge y hy)
    · intro hall
      refine ⟨fun y hy => ?_, fun y hy => ?_, fun y hy => ?_⟩
      · have := hia y hy
        omega
      · have := hm y hy
        omega
      · have := hr y hy
        rcases hall y (by simp [hy]) with hge | hge <;> omega
  · have hseq : workqReposition priority iter q =
        q.queues.setSeq .pending (a ++ [] ++ iter :: b) := by
      rw [List.append_nil]
      exact workqReposition_raise ho hnd hs hle
    rw [reprioritize_ordered_split h ho hs hseq]
    have hne : ¬ priority < q.priority iter := by omega
    simp only [workqRepositions, hne, if_false, hbefore]
    split_ifs with hgt
    · simp only [List.all_eq_true, decide_eq_true_eq]
      constructor
      · exact fun hh => hh.1
      · intro hall
        refine ⟨hall, by simp, fun y hy => ?_⟩
        have := hib y hy
        omega
    · refine iff_of_true ⟨fun y hy => ?_, by simp, fun y hy => ?_⟩ rfl
      · have := hia y hy
        omega
      · have := hib y hy
        omega

end Reprioritize

theorem withNode_ordered (h : WorkqInv q) (ho : q.Ordered) {task : τ}
    (hf : ∀ k, iter ∉ q.queues.seq k) (hab : q.pending = a ++ b)
    (hge : ∀ pos, a.getLast? = some pos → q.priority pos ≥ priority)
    (hlt : ∀ pos ∈ b, q.priority pos < priority) :
    (q.withNode a b iter task priority).Ordered := by
  have hord : Descending q.priority (a ++ b) := hab ▸ ho
  have hkey : ∀ y ∈ a ++ b, (q.withNode a b iter task priority).priority y = q.priority y := by
    intro y hy
    have hyp : y ∈ q.queues.seq .pending := by
      have hyp' : y ∈ q.pending := hab ▸ hy
      exact hyp'
    rw [Workq.priority, Workq.priority, withNode_peek h hf priority hyp]
  have hown : (q.withNode a b iter task priority).priority iter = priority := by
    rw [Workq.priority, withNode_peek_new]
    rfl
  have hpending : (q.withNode a b iter task priority).pending = a ++ iter :: b := by
    simp [Workq.pending]
  rw [Workq.Ordered, hpending, descending_insert_iff, hown]
  refine ⟨hord.congr hkey, fun y hy => ?_, fun y hy => ?_⟩
  · rw [hkey y (List.mem_append_left _ hy)]
    exact (hord.sublist (List.sublist_append_left a b)).ge_getLast hge y hy
  · rw [hkey y (List.mem_append_right _ hy)]
    exact (hlt y hy).le

end Reposition

section Thins

/-- Nodes leave the pending queue, and no priority changes. -/
structure Thins (q q' : Workq τ) : Prop where
  pending : q'.pending.Sublist q.pending
  data : q'.queues.data = q.queues.data
  node : ∀ node n', q'.node node = some n' → ∃ n, q.node node = some n ∧ n'.task = n.task ∧
    n'.priority = n.priority ∧ (n'.status = .pending → n.status = .pending)

variable {q q' : Workq τ}

omit [DecidableEq τ] in
theorem Trims.thins (h : Trims q q') : Thins q q' := by
  refine ⟨h.pending, h.data, fun node n' hn' => ?_⟩
  obtain ⟨n, hn, ht, -, hp, hs⟩ := h.node node n' hn'
  exact ⟨n, hn, ht, hp, hs⟩

omit [DecidableEq τ] in
theorem thins_purgeId (q : Workq τ) (purgeId : Int) : Thins q { q with purgeId := purgeId } :=
  ⟨.refl _, rfl, fun _ n hn => ⟨n, hn, rfl, rfl, id⟩⟩

omit [DecidableEq τ] in
theorem Purged.thins {events : List (WorkqEvent τ)} (h : Purged q events q') : Thins q q' := by
  refine ⟨h.pending ▸ List.filter_sublist, h.data, fun node n' hn' => ?_⟩
  obtain ⟨n, hn, ⟨-, rfl⟩ | ⟨-, rfl, -, -⟩⟩ := h.origin hn'
  · refine ⟨n, hn, mark_task .., ?_, fun hs => by rwa [mark_status] at hs⟩
    unfold WorkqNode.mark
    split_ifs <;> rfl
  · exact ⟨n', hn, rfl, rfl, id⟩

omit [DecidableEq τ] in
theorem Thins.priority (h : Thins q q') (hinv : WorkqInv q') {iter : IterPtr}
    (hi : iter ∈ q'.pending) : q'.priority iter = q.priority iter := by
  obtain ⟨n', hn', -, -⟩ := hinv.queued .pending iter hi
  obtain ⟨n, hn, -, hp, -⟩ := h.node _ n' hn'
  have hn₀ : q.peek iter = some n := by rw [Workq.peek, ← h.data]; exact hn
  simp [Workq.priority, hn', hn₀, hp]

omit [DecidableEq τ] in
theorem Thins.ordered (h : Thins q q') (hinv : WorkqInv q') (ho : q.Ordered) : q'.Ordered :=
  (Descending.sublist ho h.pending).congr fun _ hy => h.priority hinv hy

end Thins

section Sections

variable {q q' : Workq τ}

theorem callSection_thins (h : WorkqInv q) {op : WorkqCall τ} {r : WorkqSection τ}
    (hr : workqCallSection q op = some r) (hop : op.isRun = false) : Thins q r.q := by
  by_cases hord : op.ordinary = true
  · exact (callSection_trims h hr hord).1.thins
  · cases op with
    | purge =>
      obtain rfl := Option.some.inj hr
      exact (workqPurge_spec h).thins
    | reset =>
      obtain rfl := Option.some.inj hr
      exact (Trims.refl q).thins
    | delete =>
      obtain rfl := Option.some.inj hr
      exact ⟨.refl _, rfl, fun _ n hn => ⟨n, hn, rfl, rfl, id⟩⟩
    | run => simp [WorkqCall.isRun] at hop
    | _ => exact absurd rfl hord

theorem resumeSection_thins (h : WorkqInv q) {pc : WorkqClient τ} {joined : Bool}
    {r : WorkqSection τ} (hr : workqResumeSection joined q pc = some r)
    (hs : ∀ task iter node n, pc.sleepsOn = some (task, iter, node) → q.node node = some n →
      n.task = task ∧ q.mapTask task = some iter) : Thins q r.q := by
  by_cases hord : pc.ordinary = true
  · exact (resumeSection_trims h hr hs hord).1.thins
  · cases pc with
    | resetSaved | resetRestore | deleteMark =>
      obtain rfl := Option.some.inj hr
      exact thins_purgeId q _
    | resetPurge | resetPurgeComplete | deletePurge =>
      obtain rfl := Option.some.inj hr
      exact (workqPurge_spec h).thins
    | resetActive | deleteLists =>
      obtain rfl := Option.some.inj hr
      exact (Trims.refl q).thins
    | resetAsleep purgeId awake =>
      cases awake with
      | false => simp [workqResumeSection] at hr
      | true =>
        obtain rfl := Option.some.inj hr
        exact (Trims.refl q).thins
    | deleteJoin =>
      cases joined with
      | false => simp [workqResumeSection] at hr
      | true =>
        obtain rfl := Option.some.inj hr
        exact (Trims.refl q).thins
    | deleted => simp [workqResumeSection] at hr
    | _ => exact absurd rfl hord

theorem RunOutcome.ordered {task : τ} {priority : Int} {events : List (WorkqEvent τ)}
    {broadcast : Bool} (hr : RunOutcome task priority q events broadcast q') (h : WorkqInv q)
    (ho : q.Ordered) (hkeep : ∀ iter, q.mapTask task = some iter → iter ∈ q.pending →
      workqRepositions priority iter q = true) : q'.Ordered := by
  cases hr with
  | @removed iter n hm hi hn ht =>
    exact (trims_without q .complete iter n).thins.ordered (h.without hi hn) ho
  | @active iter hm hi =>
    refine ho.congr fun y hy => ?_
    by_cases hne : q.queues.data y = q.queues.data iter
    · simp only [Workq.priority, Workq.peek, Workq.setNode, hne, Function.update_self]
      cases q.node (q.queues.data iter) <;> rfl
    · simp [Workq.priority, Workq.peek, Workq.setNode, hne]
  | pending hm hi => exact (reprioritize_ordered_iff h ho hi priority).mpr (hkeep _ hm hi)
  | failed hm hu =>
    have hp : q'.pending = q.pending := congrFun hu.seq .pending
    rw [Workq.Ordered, hp]
    refine ho.congr fun y hy => ?_
    rw [Workq.priority, Workq.priority, Workq.peek, Workq.peek, hu.data .pending y hy, hu.node]
  | created hm hf hab hge hlt => exact withNode_ordered h ho hf hab hge hlt

end Sections

/-- The pending queue is in order, and the priority of a pending node is the
one last requested for its task. -/
structure OrderInv (tr : List (WorkqLabel threads C τ)) (q : Workq τ) : Prop where
  ordered : q.Ordered
  requested : ∀ node n, q.node node = some n → n.status = .pending →
    requested n.task tr = some n.priority

section Runs

variable {data : IterPtr → Nat} {tr : List (WorkqLabel threads C τ)} {s s' : WorkqSys threads C τ}

omit [DecidableEq C] in
theorem OrderInv.thins {q q' : Workq τ} (hO : OrderInv tr q) (ht : Thins q q') (h : WorkqInv q')
    {tr' : List (WorkqLabel threads C τ)} (hreq : ∀ task, LibCC.requested task tr' =
      LibCC.requested task tr) : OrderInv tr' q' := by
  refine ⟨ht.ordered h hO.ordered, fun node n' hn' hs' => ?_⟩
  obtain ⟨n, hn, htask, hp, hs⟩ := ht.node node n' hn'
  rw [hreq, htask, hp]
  exact hO.requested node n hn (hs hs')

theorem OrderInv.step (hO : OrderInv tr s.q) (h : WorkqSysInv s) {l : WorkqLabel threads C τ}
    (hs : WorkqStep s l s') (hkeep : l.1.keepsOrder s = true) : OrderInv (l :: tr) s'.q := by
  have hinv' := (WorkqStep.inv h hs).inv
  obtain ⟨m, events⟩ := l
  change s.step m = some (events, s') at hs
  cases m with
  | call c op =>
    obtain ⟨-, r, hr, -, rfl⟩ := step_call hs
    cases hop : op.isRun with
    | false =>
      refine hO.thins (callSection_thins h.inv hr hop) hinv' fun task => ?_
      cases op <;> first | rfl | simp [WorkqCall.isRun] at hop
    | true =>
      cases op with
      | run task priority alloc =>
        obtain ⟨ho, -⟩ := callSection_run h.inv hr
        refine ⟨ho.ordered h.inv hO.ordered fun iter hm hi => ?_, fun node n' hn' hs' => ?_⟩
        · simpa [WorkqMove.keepsOrder, hm, hi] using hkeep
        · rcases ho.origin h.inv hn' with ⟨ht, -, hp⟩ | ⟨ht, hn⟩
          · simp [LibCC.requested, ht, hp hs']
          · simp only [LibCC.requested, Ne.symm ht, if_false]
            exact hO.requested node n' hn hs'
      | _ => simp [WorkqCall.isRun] at hop
  | resume c =>
    obtain ⟨r, hr, -, rfl⟩ := step_resume hs
    exact hO.thins (resumeSection_thins h.inv hr (h.sleeper c)) hinv' fun _ => rfl
  | read c garbage =>
    obtain ⟨node, -, -, rfl⟩ := step_read hs
    exact hO.thins (Trims.refl s.q).thins hinv' fun _ => rfl
  | wakeClient c =>
    obtain ⟨-, rfl⟩ := step_wakeClient hs
    exact hO.thins (Trims.refl s.q).thins hinv' fun _ => rfl
  | wakeWorker w =>
    obtain ⟨-, rfl⟩ := step_wakeWorker hs
    exact hO.thins (Trims.refl s.q).thins hinv' fun _ => rfl
  | work w =>
    obtain ⟨-, s₁, hr, rfl⟩ := step_work hs
    exact hO.thins ((hr.trims h).trans (thread_trims s₁ w)).thins hinv' fun _ => rfl
  | begin w =>
    obtain ⟨iter, node, hw, -, rfl⟩ := step_begin hs
    exact hO.thins (Trims.refl s.q).thins hinv' fun _ => rfl
  | finish w ret =>
    obtain ⟨iter, node, hw, -, rfl⟩ := step_finish hs
    exact hO.thins (Trims.refl s.q).thins hinv' fun _ => rfl

/-- A run in which every new priority of a pending task leaves its node in
the right place. -/
abbrev OrderingReach (data : IterPtr → Nat) :
    List (WorkqLabel threads C τ) → WorkqSys threads C τ → Prop :=
  Run (Guarded WorkqStep fun s l => l.1.keepsOrder s = true) (workqSysNew data)

theorem OrderingReach.order (h : OrderingReach data tr s) : OrderInv tr s.q := by
  refine h.invariant (P := fun tr s => OrderInv tr s.q) ?_ ?_
  · exact ⟨List.Pairwise.nil, fun _ _ hn => by simp [workqSysNew, workqNew] at hn⟩
  · intro tr s l s' hr hO hs
    exact hO.step (WorkqReach.inv hr.unguard) hs.1 hs.2

omit [DecidableEq C] [DecidableEq τ] in
theorem thread_taken {w : Fin threads} {iter : IterPtr} {node : Nat}
    (hw : (s.thread w).worker w = .taken iter node) :
    s.q.pending = iter :: (s.thread w).q.pending ∧ node = s.q.queues.data iter ∧
      (s.thread w).q = s.q.shift .pending .active iter .active := by
  rcases workqThreadSection_cases s.q with ⟨hr, -⟩ | ⟨hr, -⟩ | ⟨x, rest, hp, -, hr⟩
  · simp [WorkqSys.thread, hr] at hw
  · simp [WorkqSys.thread, hr] at hw
  · obtain ⟨rfl, rfl⟩ : x = iter ∧ s.q.queues.data x = node := by
      simpa [WorkqSys.thread, hr] using hw
    have hq : (s.thread w).q = s.q.shift .pending .active x .active := by
      simp [WorkqSys.thread, hr]
    have hrest : (s.thread w).q.pending = rest := by
      rw [hq]
      change (s.q.shift .pending .active x .active).queues.seq .pending = rest
      have hse : s.q.queues.seq .pending = x :: rest := hp
      rw [shift_seq (by simp), Function.update_of_ne (by simp), Function.update_self, hse,
        List.erase_cons_head]
    exact ⟨by rw [hrest, hp], rfl, hq⟩

/-- While every new priority leaves its node in the right place, the pending
queue is in order of the priorities last requested, and a worker takes a task
of the highest one. -/
theorem workq_priority_order (h : OrderingReach data tr s) :
    s.q.pending.Pairwise (fun a b => s.q.priority b ≤ s.q.priority a) ∧
    (∀ iter ∈ s.q.pending, ∃ n, s.q.peek iter = some n ∧
      requested n.task tr = some n.priority) ∧
    ∀ w events s' iter node, s.step (.work w) = some (events, s') →
      s'.worker w = .taken iter node → ∃ n, s'.q.node node = some n ∧
        requested n.task tr = some n.priority ∧
        ∀ pos ∈ s'.q.pending, ∃ n', s'.q.peek pos = some n' ∧
          requested n'.task tr = some n'.priority ∧ n'.priority ≤ n.priority := by
  have hinv := WorkqReach.inv h.unguard
  have hpeek : ∀ q : Workq τ, WorkqInv q → OrderInv tr q → ∀ iter ∈ q.pending,
      ∃ n, q.peek iter = some n ∧ requested n.task tr = some n.priority := by
    intro q hq hO iter hi
    obtain ⟨n, hn, hk, -⟩ := hq.queued .pending iter hi
    exact ⟨n, hn, hO.requested _ n hn (home_eq_pending.mp hk)⟩
  refine ⟨h.order.ordered, hpeek s.q hinv.inv h.order, fun w events s' iter node hs hw => ?_⟩
  have hinv' : WorkqInv s'.q := (WorkqStep.inv hinv (l := (.work w, events)) hs).inv
  obtain ⟨-, s₁, hr, rfl⟩ := step_work hs
  have hinv₁ := (hr.spec hinv).1
  have hO₁ : OrderInv tr s₁.q := h.order.thins (hr.trims hinv).thins hinv₁.inv fun _ => rfl
  have htr := (thread_trims s₁ w).thins
  have hO' : OrderInv tr (s₁.thread w).q := hO₁.thins htr hinv' fun _ => rfl
  obtain ⟨hp, rfl, hq⟩ := thread_taken hw
  obtain ⟨n, hn, hreq⟩ := hpeek s₁.q hinv₁.inv hO₁ iter (by simp [hp])
  have hord : Descending s₁.q.priority (iter :: (s₁.thread w).q.pending) := hp ▸ hO₁.ordered
  refine ⟨{ n with status := .active }, ?_, hreq, fun pos hpos => ?_⟩
  · have hn' : s₁.q.node (s₁.q.queues.data iter) = some n := hn
    rw [hq, shift_node, if_pos rfl, hn', Option.map_some]
  · obtain ⟨n', hn', hreq'⟩ := hpeek _ hinv' hO' pos hpos
    have hle := (List.pairwise_cons.mp hord).1 pos hpos
    rw [← htr.priority hinv' hpos] at hle
    exact ⟨n', hn', hreq', by simpa [Workq.priority, hn, hn'] using hle⟩

end Runs

/-- The second of two tasks is submitted again with a lower priority. -/
def workqLower : List (WorkqMove 1 Unit Nat) :=
  [.call () (.run 1 2 (.success ⟨0, 0⟩)), .call () (.run 2 2 (.success ⟨0, 1⟩)),
    .call () (.run 2 1 .failNode)]

theorem workq_priority_order_lowered :
    ∃ n, ((workqExec (workqSysNew (fun _ => 0)) workqLower).get (by decide)).2.q.peek ⟨0, 1⟩ =
      some n ∧ requested n.task ((workqExec (workqSysNew (fun _ => 0))
        workqLower).get (by decide)).1 = some n.priority :=
  (workq_priority_order
    (guarded_play (fun _ => 0) (fun s m => m.keepsOrder s) workqLower (by decide) (by decide))).2.1
    ⟨0, 1⟩
      (by decide)

/-- The second of two tasks is submitted again with the highest priority. -/
def workqRaise : List (WorkqMove 1 Unit Nat) :=
  [.call () (.run 1 2 (.success ⟨0, 0⟩)), .call () (.run 2 1 (.success ⟨0, 1⟩)),
    .call () (.run 2 3 .failNode)]

/-- It stays behind the first one. -/
theorem workq_priority_disordered :
    ¬ ∀ (tr : List (WorkqLabel 1 Unit Nat)) (s : WorkqSys 1 Unit Nat),
      WorkqReach (fun _ => 0) tr s →
        s.q.pending.Pairwise (fun a b => s.q.priority b ≤ s.q.priority a) := by
  intro h
  have hr := WorkqReach.play (fun _ => 0) workqRaise (by decide)
  exact absurd (h _ _ hr) (by decide)

end LibCC
