import LibCC.JobqRuns
import LibCC.JobqWakeups
import LibCC.RunProgress

/-! How much the threads of a jobq have left to do before they wait for
something from outside: every step of theirs takes from it. -/

namespace LibCC

open LabelledRun

variable {threads : Nat} {C τ : Type}

/-- A step that needs neither a new call nor a spurious wake-up. -/
def JobqMove.internal : JobqMove threads C τ → Bool
  | resume _ | work _ | begin _ | finish _ => true
  | call .. | wakeCaller _ | wakeWorker _ => false

/-- The steps of the threads as they are left to themselves. -/
def JobqInternal [DecidableEq C] (s : JobqSys threads C τ) (l : JobqLabel threads C τ)
    (s' : JobqSys threads C τ) : Prop :=
  JobqStep s l s' ∧ l.1.internal = true

instance [Fintype C] : Fintype (JobqAgent threads C) :=
  Fintype.ofEquiv (C ⊕ Fin threads)
    { toFun := Sum.elim .client .job
      invFun
        | .client c => .inl c
        | .job w => .inr w
      left_inv a := by cases a <;> rfl
      right_inv a := by cases a <;> rfl }

/-- What a worker has left to do; to complete a job may wake up all callers. -/
def JobqWorker.effort (agents : Nat) : JobqWorker τ → Nat
  | asleep false | exited | fault => 0
  | start | asleep true => 1
  | returned _ _ => agents + 1
  | running _ _ => agents + 2
  | taken _ _ => agents + 3

/-- What a caller has left to do; cc_jobq_delete wakes up all workers. -/
def JobqCaller.effort (threads : Nat) : JobqCaller → Nat
  | idle | finishAsleep false | deleted => 0
  | finishAsleep true | deleteLists => 1
  | deleteJoin => 2
  | deleteStop => threads + 3
  | deleteAsleep false => threads + 4
  | deleteAsleep true => threads + 5

theorem JobqWorker.effort_signal (agents : Nat) (pc : JobqWorker τ) :
    pc.signal.effort agents ≤ pc.effort agents + 1 := by
  cases pc with
  | asleep awake => cases awake <;> simp [signal, effort]
  | _ => simp [signal]

theorem JobqCaller.effort_signal (threads : Nat) (pc : JobqCaller) :
    pc.signal.effort threads ≤ pc.effort threads + 1 := by
  cases pc with
  | finishAsleep awake => cases awake <;> simp [signal, effort]
  | deleteAsleep awake => cases awake <;> simp [signal, effort]
  | _ => simp [signal]

variable [Fintype C]

namespace JobqSys

def workersEffort (s : JobqSys threads C τ) : Nat :=
  ∑ w, (s.worker w).effort (Fintype.card (JobqAgent threads C))

def callersEffort (s : JobqSys threads C τ) : Nat := ∑ a, (s.caller a).effort threads

def effort (s : JobqSys threads C τ) : Nat :=
  s.workersEffort + s.callersEffort +
    (Fintype.card (JobqAgent threads C) + 3) * s.q.pending.length

variable {s s' : JobqSys threads C τ}

theorem workersEffort_update (s s' : JobqSys threads C τ) {w : Fin threads} {pc : JobqWorker τ}
    (hw : s'.worker = Function.update s.worker w pc) :
    s'.workersEffort + (s.worker w).effort (Fintype.card (JobqAgent threads C)) =
      s.workersEffort + pc.effort (Fintype.card (JobqAgent threads C)) := by
  unfold workersEffort
  rw [hw]
  exact sum_weight_update _ s.worker w pc

/-- One worker moves, and the queues may change. -/
theorem effort_update (s s' : JobqSys threads C τ) {w : Fin threads} {pc : JobqWorker τ}
    (hc : s'.caller = s.caller) (hw : s'.worker = Function.update s.worker w pc) :
    s'.effort + (s.worker w).effort (Fintype.card (JobqAgent threads C)) +
        (Fintype.card (JobqAgent threads C) + 3) * s.q.pending.length =
      s.effort + pc.effort (Fintype.card (JobqAgent threads C)) +
        (Fintype.card (JobqAgent threads C) + 3) * s'.q.pending.length := by
  have hworkers := workersEffort_update s s' hw
  have hcallers : s'.callersEffort = s.callersEffort := by
    unfold callersEffort
    rw [hc]
  unfold effort
  rw [hcallers]
  omega

omit [Fintype C] in
theorem jobqTake_pending {q : Jobq τ} {iter : IterPtr} {rest : List IterPtr}
    (hp : q.pending = iter :: rest) : (jobqTake iter q).pending = rest := by
  have hseq : q.queues.seq .pending = iter :: rest := hp
  simp [jobqTake, Jobq.pending, ListSeqs.swapn, ListSeqs.remove, hseq]

/-- A worker at the top of its loop gives up its wake-up, and a job that it takes weighs as much
as it did in queue_pending. -/
theorem thread_effort {w : Fin threads}
    (hw : (s.worker w).effort (Fintype.card (JobqAgent threads C)) = 1) :
    (s.thread w).2.effort < s.effort := by
  have hmove := effort_update s (s.thread w).2 (w := w) rfl rfl
  rw [hw] at hmove
  rcases jobqThreadSection_cases w s.q with ⟨he, -⟩ | ⟨he, -⟩ | ⟨iter, rest, hp, -, he⟩
  · have hq : (s.thread w).2.q = s.q := congrArg (fun r => r.2.2) he
    simp only [he, hq, JobqWorker.effort] at hmove
    omega
  · have hq : (s.thread w).2.q = s.q := congrArg (fun r => r.2.2) he
    simp only [he, hq, JobqWorker.effort] at hmove
    omega
  · have hq : (s.thread w).2.q = jobqTake iter s.q := congrArg (fun r => r.2.2) he
    simp only [he, hq, JobqWorker.effort, jobqTake_pending hp, hp, List.length_cons,
      Nat.mul_add] at hmove
    omega

/-- To complete a job may wake up every caller, which the weight of the job pays for. -/
theorem complete_effort {w : Fin threads} {iter : IterPtr} {task : τ}
    (hw : s.worker w = .returned iter task) : (s.complete w iter).effort ≤ s.effort := by
  have hworkers := workersEffort_update s (s.complete w iter) (w := w) rfl
  have hpend : (s.complete w iter).q.pending = s.q.pending := by
    simp [complete, jobqComplete, Jobq.pending, ListSeqs.remove]
  have hcallers : (s.complete w iter).callersEffort ≤
      s.callersEffort + Fintype.card (JobqAgent threads C) * 1 := by
    simp only [callersEffort, complete]
    split_ifs
    · exact sum_weight_map_le (JobqCaller.effort_signal threads) s.caller
    · omega
  simp only [hw, JobqWorker.effort] at hworkers
  unfold effort
  rw [hpend]
  omega

variable [DecidableEq C]

/-- A caller moves on, and the workers that it wakes up are paid for. -/
theorem section_effort {a : JobqAgent threads C} {r : JobqSection threads τ}
    (hq : r.q.pending = s.q.pending) (hlt : r.pc.effort threads +
      (if r.broadcast then threads else 0) < (s.caller a).effort threads) :
    (s.section_ a r).effort < s.effort := by
  have hcallers : (s.section_ a r).callersEffort + (s.caller a).effort threads =
      s.callersEffort + r.pc.effort threads := sum_weight_update _ s.caller a r.pc
  have hworkers : (s.section_ a r).workersEffort ≤
      s.workersEffort + if r.broadcast then threads else 0 := by
    cases hb : r.broadcast with
    | true =>
      have hwake := sum_weight_map_le
        (JobqWorker.effort_signal (τ := τ) (Fintype.card (JobqAgent threads C))) s.worker
      rw [Fintype.card_fin, Nat.mul_one] at hwake
      simpa only [workersEffort, section_, hb, if_true] using hwake
    | false => simp [workersEffort, section_, hb]
  have hpend : (s.section_ a r).q.pending = s.q.pending := hq
  rw [effort, effort, hpend]
  omega

end JobqSys

variable [DecidableEq C] {s s' : JobqSys threads C τ}

theorem JobqResumeStep.effort_lt {q : Jobq τ} {pc : JobqCaller} {r : JobqSection threads τ}
    (h : JobqResumeStep q pc r) : r.q.pending = q.pending ∧
      r.pc.effort threads + (if r.broadcast then threads else 0) < pc.effort threads := by
  cases h <;> simp [JobqCaller.effort, Jobq.pending, Nat.add_comm]

theorem JobqMoves.effort_lt {l : JobqLabel threads C τ} (hs : JobqMoves s l s')
    (hi : l.1.internal = true) : s'.effort < s.effort := by
  cases hs with
  | call | wakeCaller | wakeWorker => exact absurd hi (by simp [JobqMove.internal])
  | resume hr => exact JobqSys.section_effort hr.effort_lt.1 hr.effort_lt.2
  | work hw => exact JobqSys.thread_effort (by rcases hw with hw | hw <;> rw [hw] <;> rfl)
  | @completes w iter task hw =>
    refine lt_of_lt_of_le (JobqSys.thread_effort ?_) (JobqSys.complete_effort hw)
    simp [JobqSys.complete, JobqWorker.effort]
  | @begins w iter task hw =>
    have hmove := JobqSys.effort_update s (s.setWorker w (.running iter task)) (w := w) rfl rfl
    have hq : (s.setWorker w (.running iter task)).q = s.q := rfl
    simp only [hw, hq, JobqWorker.effort] at hmove
    omega
  | @ends w iter task hw =>
    have hmove := JobqSys.effort_update s (s.setWorker w (.returned iter task)) (w := w) rfl rfl
    have hq : (s.setWorker w (.returned iter task)).q = s.q := rfl
    simp only [hw, hq, JobqWorker.effort] at hmove
    omega

theorem jobqInternal_lowers : Lowers (@JobqInternal threads C τ _)
    (fun _ => True) JobqSys.effort :=
  fun _ _ _ _ hs => ⟨trivial, hs.1.moves.effort_lt hs.2⟩

end LibCC
