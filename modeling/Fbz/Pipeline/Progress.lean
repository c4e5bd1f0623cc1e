import Mathlib.Data.List.Nodup
import Fbz.Pipeline.Coordinator

/-!
# Progress of the worker pipeline

A measure that every step shrinks, and the states without a step: with a coordinator that asks
only for what is there, in job order, the pipeline always runs to its end.
-/

namespace Fbz.Pipeline

open Transition
set_option linter.unusedSimpArgs false

variable {T O S Q R σ : Type}

/-- Steps a worker may still take before it looks for new work. -/
def Worker.weight : Worker O S Q → Nat
  | .idle => 2
  | .polled => 1
  | .executing _ | .staging _ => 5
  | .sending _ | .stageSending _ _ => 4
  | .stopped | .panicked _ | .stagePanicked _ => 0

/-- Charge of staged work that has panicked; nothing gives it back. -/
def Worker.leaked : Worker O S Q → List Nat
  | .stagePanicked message => [message.retained]
  | _ => []

def State.leaked (s : State O S Q R σ) : List Nat := s.workers.flatMap Worker.leaked

/-- The worker can go on without waiting for anything. -/
def Worker.busy : Worker O S Q → Bool
  | .executing _ | .sending _ | .staging _ | .stageSending _ _ => true
  | _ => false

namespace Program

variable (P : Program T O S Q R σ)

/-- Upper bound on the steps still to come while the coordinator stays where it is. -/
def effort (s : State O S Q R σ) : Nat :=
  5 * (P.jobs.length - s.budget.next) + (s.workers.map Worker.weight).sum +
    s.channel.length + s.stageChannel.length + 5 * s.stageJobs.length +
    (if s.finished.isNone then 1 else 0)

/-- Upper bound on the steps still to come. -/
def measure (rank : σ → Nat) (s : State O S Q R σ) : Nat := 6 * rank s.consumer + P.effort s

/-- Where workers can be, and why. -/
structure Phased (n : Nat) (s : State O S Q R σ) : Prop where
  count : s.workers.length = n
  polled : .polled ∈ s.workers → P.staged = true
  stopped : .stopped ∈ s.workers → s.finished = none →
    P.staged = false ∧ P.jobs.length ≤ s.budget.next
  panicked : ∀ index, .panicked index ∈ s.workers →
    ∃ job, P.jobs[index]? = some job ∧ P.execute job.payload = none
  stagePanicked : ∀ message, .stagePanicked message ∈ s.workers →
    (message.key, message.value) ∈ s.submitted ∧ P.executeStage message.value = none

theorem phased_init (n : Nat) (start : σ) : P.Phased n (P.init n start) := by
  constructor <;> simp [init, List.mem_replicate]

private theorem request_cancelled {b : Budget} (running : b.cancelled = false)
    (h : P.request b = .cancelled) : P.staged = false ∧ P.jobs.length ≤ b.next := by
  unfold request at h
  split at h
  case isTrue =>
    unfold Budget.tryNext at h
    rw [running] at h
    simp only [Bool.false_eq_true, if_false] at h
    split at h
    · cases h
    · split at h <;> cases h
  case isFalse hst =>
    refine ⟨by simpa using hst, ?_⟩
    unfold Budget.nextJob at h
    rw [running] at h
    simp only [Bool.false_eq_true, if_false] at h
    split at h
    case h_1 hnone => exact List.getElem?_eq_none_iff.mp hnone
    case h_2 => split at h <;> cases h

theorem Phased.step {n : Nat} {s t : State O S Q R σ} (h : P.Phased n s) (tracked : P.Tracked s)
    (hstep : P.Step s t) : P.Phased n t := by
  obtain ⟨hc, hp, hs, hx, hy⟩ := h
  have hcan := tracked.cancelled
  cases hstep
  case grant index budget here room =>
    obtain ⟨-, rfl, job, hjob, -, rfl⟩ := P.request_eq_ready.mp room
    rcases P.asking_eq with ha | ha <;> rw [ha] at here <;> constructor <;>
      simp_all only [List.length_append, List.length_cons, List.mem_append, List.mem_cons,
        reduceCtorEq, false_or, or_false, Worker.panicked.injEq, Worker.stagePanicked.injEq, Budget.grant] <;> grind
  case stop here none_left =>
    have hcancel := P.request_cancelled (b := s.budget)
    rcases P.asking_eq with ha | ha <;> rw [ha] at here <;> constructor <;>
      simp_all only [List.length_append, List.length_cons, List.mem_append, List.mem_cons,
        reduceCtorEq, false_or, or_false, Worker.panicked.injEq, Worker.stagePanicked.injEq] <;> grind
  case stagePanic message here result =>
    have hmem : (message.key, message.value) ∈ s.submitted := by
      refine tracked.stageJobs message ?_
      simp only [State.stageMessages, here, List.flatMap_append, List.flatMap_cons,
        Worker.stageMessages, List.mem_append, List.mem_cons, true_or, or_true]
    constructor <;> simp_all only [List.length_append, List.length_cons, List.mem_append, List.mem_cons,
        reduceCtorEq, false_or, or_false, Worker.panicked.injEq, Worker.stagePanicked.injEq] <;> grind
  case discardBefore => exact ⟨hc, hp, by simpa only [retire_fold_next] using hs, hx, hy⟩
  all_goals
    constructor <;> simp_all only [List.length_append, List.length_cons, List.mem_append, List.mem_cons,
        reduceCtorEq, false_or, or_false, Worker.panicked.injEq, Worker.stagePanicked.injEq, Budget.retire, Budget.complete, Budget.cancel] <;> grind

variable {P}

section Steps

variable {n : Nat} {start : σ} {s : State O S Q R σ}

/-- A busy worker has a step, be it into a panic. -/
theorem busy_step {w : Worker O S Q} (tracked : P.Tracked s) (counted : P.Counted s)
    (hw : w ∈ s.workers) (busy : w.busy = true) : ∃ t, P.Step s t := by
  obtain ⟨pre, post, here⟩ := List.append_of_mem hw
  cases w with
  | executing index =>
    have hlt := Nat.lt_of_lt_of_le (tracked.executing index hw) counted.next_le
    have hjob := List.getElem?_eq_getElem hlt
    cases hr : P.execute P.jobs[index].payload with
    | none => exact ⟨_, .panic here hjob hr⟩
    | some value => exact ⟨_, .complete here hjob hr⟩
  | sending message =>
    by_cases hf : s.finished = none
    · exact ⟨_, .send here hf⟩
    · exact ⟨_, .sendFails here hf⟩
  | staging message =>
    cases hr : P.executeStage message.value with
    | none => exact ⟨_, .stagePanic here hr⟩
    | some value => exact ⟨_, .stageComplete here hr⟩
  | stageSending key value =>
    by_cases hf : s.finished = none
    · exact ⟨_, .stageSend here hf⟩
    · exact ⟨_, .stageSendFails here hf⟩
  | idle | polled | stopped | panicked | stagePanicked => cases busy

/-- After the end of the coordinator every worker that is not done has a step. -/
theorem drain_step {w : Worker O S Q} (tracked : P.Tracked s) (counted : P.Counted s)
    (phased : P.Phased n s) (closed : s.finished ≠ none) (hw : w ∈ s.workers)
    (alive : w.ended = false) : ∃ t, P.Step s t := by
  have hcan : s.budget.cancelled = true := tracked.cancelled.mpr closed
  have hreq : P.request s.budget = .cancelled := by
    unfold request Budget.tryNext Budget.nextJob
    simp [hcan]
  by_cases busy : w.busy = true
  · exact busy_step tracked counted hw busy
  obtain ⟨pre, post, here⟩ := List.append_of_mem hw
  cases hst : P.staged with
  | false =>
    cases w with
    | idle => exact ⟨_, .stop (by simpa [asking, hst] using here) hreq⟩
    | polled => exact absurd (phased.polled hw) (by simp [hst])
    | executing | sending | staging | stageSending => exact absurd rfl busy
    | stopped | panicked | stagePanicked => cases alive
  | true =>
    cases w with
    | idle =>
      cases hq : s.stageJobs with
      | nil => exact ⟨_, .disconnect hst here hq closed⟩
      | cons message rest => exact ⟨_, .receiveStage hst here (.inl rfl) hq⟩
    | polled => exact ⟨_, .stop (by simpa [asking, hst] using here) hreq⟩
    | executing | sending | staging | stageSending => exact absurd rfl busy
    | stopped | panicked | stagePanicked => cases alive

private theorem looking_of_alive {w : Worker O S Q} (alive : w.ended = false)
    (waiting : w.busy = false) : w = .idle ∨ w = .polled := by
  cases w with
  | idle => exact .inl rfl
  | polled => exact .inr rfl
  | executing | sending | staging | stageSending => cases waiting
  | stopped | panicked | stagePanicked => cases alive

private theorem looking_of_not_busy {w : Worker O S Q} (phased : P.Phased n s)
    (executes : ∀ job ∈ P.jobs, P.execute job.payload ≠ none)
    (stages : ∀ x ∈ s.submitted, P.executeStage x.2 ≠ none) (running : s.finished = none)
    (work : P.staged = true ∨ s.budget.next < P.jobs.length)
    (hw : w ∈ s.workers) (waiting : w.busy = false) : w = .idle ∨ w = .polled := by
  cases w with
  | idle => exact .inl rfl
  | polled => exact .inr rfl
  | executing | sending | staging | stageSending => cases waiting
  | stopped =>
    obtain ⟨hst, hle⟩ := phased.stopped hw running
    rcases work with h | h
    · simp [hst] at h
    · omega
  | panicked index =>
    obtain ⟨job, hjob, hnone⟩ := phased.panicked index hw
    exact absurd hnone (executes job (List.mem_of_getElem? hjob))
  | stagePanicked message =>
    obtain ⟨hmem, hnone⟩ := phased.stagePanicked message hw
    exact absurd hnone (stages _ hmem)

/-- A worker looking for work finds it when a job fits or staged work is queued. -/
theorem look_step {w : Worker O S Q} (phased : P.Phased n s) (running : s.finished = none)
    (hw : w ∈ s.workers) (looking : w = .idle ∨ w = .polled)
    (work : (∃ index budget, P.request s.budget = .ready index budget) ∨
      P.staged = true ∧ s.stageJobs ≠ []) : ∃ t, P.Step s t := by
  obtain ⟨pre, post, here⟩ := List.append_of_mem hw
  cases hst : P.staged with
  | false =>
    rcases work with ⟨index, budget, room⟩ | ⟨h, -⟩
    · rcases looking with rfl | rfl
      · exact ⟨_, .grant (by simpa [asking, hst] using here) room⟩
      · exact absurd (phased.polled hw) (by simp [hst])
    · simp [hst] at h
  | true =>
    cases hq : s.stageJobs with
    | cons message rest => exact ⟨_, .receiveStage hst here looking hq⟩
    | nil =>
      rcases looking with rfl | rfl
      · exact ⟨_, .poll hst here hq running⟩
      · rcases work with ⟨index, budget, room⟩ | ⟨-, h⟩
        · exact ⟨_, .grant (by simpa [asking, hst] using here) room⟩
        · exact absurd hq h

theorem mem_take_of_lt {pre post : List (Job T)} {job : Job T} {next : Nat}
    (split : P.jobs = pre ++ job :: post) (lt : pre.length < next) : job ∈ P.jobs.take next := by
  rw [split, List.take_append, List.mem_append]
  refine .inr ?_
  obtain ⟨d, rfl⟩ := Nat.exists_eq_add_of_lt lt
  rw [show pre.length + d + 1 - pre.length = d + 1 by omega, List.take_succ_cons]
  exact List.mem_cons_self

theorem undelivered_of_unadmitted {key : Nat} (counted : P.Counted s)
    (unadmitted : key ∉ (P.jobs.take s.budget.next).map Job.key) :
    ∀ m ∈ s.channel ++ s.ready, m.key ≠ key := by
  intro m hm heq
  refine unadmitted (List.count_pos_iff.mp ?_)
  rw [← counted.keys key]
  refine List.count_pos_iff.mpr ?_
  simp only [Program.keys, List.mem_append] at hm ⊢
  rcases hm with hm | hm
  · exact .inl (.inl (.inr (List.mem_map.mpr ⟨m, hm, heq⟩)))
  · exact .inl (.inr (List.mem_map.mpr ⟨m, hm, heq⟩))

/-- Waiting for a result that has been admitted and not consumed is not the end, unless its job
panics. -/
theorem take_step {key : Nat} (counted : P.Counted s) (tracked : P.Tracked s)
    (phased : P.Phased n s) (executes : ∀ job ∈ P.jobs, job.key = key → P.execute job.payload ≠ none)
    (running : s.finished = none)
    (waiting : P.consumer.op s.consumer = .take key ∨ P.consumer.op s.consumer = .takePrimary key)
    (admitted : key ∈ (P.jobs.take s.budget.next).map Job.key) (fresh : key ∉ s.consumed) :
    ∃ t, P.Step s t := by
  by_cases present : ∃ m ∈ s.ready, m.key = key
  · obtain ⟨m, hm, rfl⟩ := present
    obtain ⟨pre, post, here⟩ := List.append_of_mem hm
    rcases waiting with h | h
    · exact ⟨_, .take running h here⟩
    · exact ⟨_, .takePrimary running h here⟩
  · have missing : ∀ m ∈ s.ready, m.key ≠ key := fun m hm h => present ⟨m, hm, h⟩
    cases hq : s.channel with
    | cons message rest => exact ⟨_, .receive running waiting missing hq⟩
    | nil =>
      have hkeys : key ∈ P.keys s := by
        rw [← List.count_pos_iff, counted.keys key]
        exact List.count_pos_iff.mpr admitted
      have hheld : key ∈ s.workers.flatMap P.workerKeys := by
        simp only [Program.keys, hq, List.map_nil, List.append_nil, List.mem_append,
          List.mem_map] at hkeys
        rcases hkeys with (h | ⟨m, hm, h⟩) | h
        · exact h
        · exact absurd h (missing m hm)
        · exact absurd h fresh
      obtain ⟨w, hw, hk⟩ := List.mem_flatMap.mp hheld
      cases w with
      | executing | sending => exact busy_step tracked counted hw rfl
      | panicked index =>
        obtain ⟨job, hjob, hnone⟩ := phased.panicked index hw
        simp only [workerKeys, keyAt, hjob, Option.map_some, Option.toList_some,
          List.mem_singleton] at hk
        exact absurd hnone (executes job (List.mem_of_getElem? hjob) hk.symm)
      | idle | polled | staging | stageSending | stopped | stagePanicked => cases hk

/-- Waiting for staged work that has been handed over and not consumed is not the end, unless it
panics or no worker is left to do it. -/
theorem takeStage_step {key : Nat} (counted : P.Counted s) (tracked : P.Tracked s)
    (phased : P.Phased n s)
    (stages : ∀ payload, (key, payload) ∈ s.submitted → P.executeStage payload ≠ none)
    (alive : (∃ r ∈ s.stageChannel ++ s.stageReady, r.1 = key) ∨
      ∃ w ∈ s.workers, w.ended = false)
    (staged : P.staged = true) (running : s.finished = none)
    (waiting : P.consumer.op s.consumer = .takeStage key)
    (handed : key ∈ s.submitted.map Prod.fst) (fresh : key ∉ s.stageConsumed) :
    ∃ t, P.Step s t := by
  by_cases present : ∃ m ∈ s.stageReady, m.1 = key
  · obtain ⟨⟨k, value⟩, hm, rfl⟩ := present
    obtain ⟨pre, post, here⟩ := List.append_of_mem hm
    exact ⟨_, .takeStage running waiting here⟩
  · have missing : ∀ m ∈ s.stageReady, m.1 ≠ key := fun m hm h => present ⟨m, hm, h⟩
    cases hq : s.stageChannel with
    | cons result rest => exact ⟨_, .receiveStaged running waiting missing hq⟩
    | nil =>
      have hkeys : key ∈ s.stageKeys := by
        rw [← List.count_pos_iff, counted.stageKeys key]
        exact List.count_pos_iff.mpr handed
      simp only [State.stageKeys, hq, List.map_nil, List.append_nil, List.mem_append] at hkeys
      rcases hkeys with ((h | h) | h) | h
      · have hne : s.stageJobs ≠ [] := fun hnil => by simp [hnil] at h
        obtain ⟨w, hw, hlive⟩ : ∃ w ∈ s.workers, w.ended = false := by
          rcases alive with ⟨r, hr, hkey⟩ | h
          · rw [hq, List.nil_append] at hr
            exact absurd hkey (missing r hr)
          · exact h
        by_cases busy : w.busy = true
        · exact busy_step tracked counted hw busy
        · exact look_step phased running hw (looking_of_alive hlive (by simpa using busy))
            (.inr ⟨staged, hne⟩)
      · obtain ⟨w, hw, hk⟩ := List.mem_flatMap.mp h
        cases w with
        | staging | stageSending => exact busy_step tracked counted hw rfl
        | stagePanicked message =>
          obtain ⟨hmem, hnone⟩ := phased.stagePanicked message hw
          obtain rfl := List.mem_singleton.mp hk
          exact absurd hnone (stages _ hmem)
        | idle | polled | executing | sending | stopped | panicked => cases hk
      · obtain ⟨m, hm, hk⟩ := List.mem_map.mp h
        exact absurd hk (missing m hm)
      · exact absurd h fresh

private theorem leaked_of_waiting {ws : List (Worker O S Q)}
    (waiting : ∀ w ∈ ws, w.busy = false ∧ ∀ index, w ≠ .panicked index) :
    (ws.map P.workerBytes).sum = (ws.flatMap Worker.leaked).sum ∧
      (ws.map Worker.slots).sum = (ws.flatMap Worker.leaked).length := by
  induction ws with
  | nil => simp
  | cons w ws ih =>
    obtain ⟨hbytes, hslots⟩ := ih fun w hw => waiting w (List.mem_cons_of_mem _ hw)
    obtain ⟨busy, calm⟩ := waiting w List.mem_cons_self
    cases w with
    | idle | polled | stopped | stagePanicked =>
      simp only [List.map_cons, List.sum_cons, List.flatMap_cons, List.sum_append,
        List.length_append, workerBytes, Worker.slots, Worker.leaked, List.sum_nil,
        List.length_cons, List.length_nil, hbytes, hslots, Nat.add_comm, and_self, Nat.add_zero]
    | panicked index => exact absurd rfl (calm index)
    | executing | sending | staging | stageSending => cases busy

/-- With everything admitted consumed, and no worker holding anything, the budget is empty up to
what panicked staged work leaked. -/
theorem budget_leaked (accounted : P.Accounted s) (counted : P.Counted s) (phased : P.Phased n s)
    (nodup : (P.jobs.map Job.key).Nodup) (leases : s.leases = []) (stageJobs : s.stageJobs = [])
    (waiting : ∀ w ∈ s.workers, w.busy = false)
    (consumed : ∀ job ∈ P.jobs.take s.budget.next, job.key ∈ s.consumed) :
    s.budget.reserved = s.leaked.sum ∧ s.budget.active = s.leaked.length := by
  have hcount : ∀ k, (s.workers.flatMap P.workerKeys).count k = 0 ∧
      (s.channel.map Message.key).count k = 0 ∧ (s.ready.map Message.key).count k = 0 := fun k => by
    have hk := counted.keys k
    simp only [Program.keys, List.count_append] at hk
    have htake : ((P.jobs.take s.budget.next).map Job.key).Nodup :=
      nodup.sublist ((List.take_sublist ..).map _)
    have hle := List.nodup_iff_count_le_one.mp htake k
    by_cases hmem : k ∈ (P.jobs.take s.budget.next).map Job.key
    · obtain ⟨job, hj, rfl⟩ := List.mem_map.mp hmem
      have := List.count_pos_iff.mpr (consumed job hj)
      omega
    · have := List.count_eq_zero.mpr hmem
      omega
  have hchannel : s.channel = [] := List.map_eq_nil_iff.mp
    (List.eq_nil_iff_forall_not_mem.mpr fun k => List.count_eq_zero.mp (hcount k).2.1)
  have hready : s.ready = [] := List.map_eq_nil_iff.mp
    (List.eq_nil_iff_forall_not_mem.mpr fun k => List.count_eq_zero.mp (hcount k).2.2)
  have hcalm : ∀ index, .panicked index ∉ s.workers := fun index hw => by
    obtain ⟨job, hjob, -⟩ := phased.panicked index hw
    refine List.count_eq_zero.mp (hcount job.key).1 (List.mem_flatMap.mpr ⟨_, hw, ?_⟩)
    simp [workerKeys, keyAt, hjob]
  obtain ⟨hbytes, hslots⟩ := @leaked_of_waiting _ _ _ _ _ _ P s.workers fun w hw =>
    ⟨waiting w hw, fun index heq => hcalm index (heq ▸ hw)⟩
  constructor
  · rw [accounted.bytes, chargedBytes, hbytes, hchannel, hready, leases, stageJobs]; rfl
  · rw [accounted.slots, State.chargedSlots, hslots, hchannel, hready, leases, stageJobs]; rfl

end Steps

/-- The next job of the list finds no room beside what panicked staged work leaked. -/
def Starved (P : Program T O S Q R σ) (s : State O S Q R σ) : Prop :=
  ∃ job, P.jobs[s.budget.next]? = some job ∧
    (P.limits.active ≤ s.leaked.length ∨ P.limits.memory < s.leaked.sum + job.reservation)

/-- The coordinator waits for the result of a job or of staged work that panics, or for a result
not on its way while all workers have ended or its job will never be admitted. -/
def Doomed (P : Program T O S Q R σ) (s : State O S Q R σ) : Prop :=
  s.finished = none ∧
    match P.consumer.op s.consumer with
    | .take key | .takePrimary key =>
      (∃ job ∈ P.jobs, job.key = key ∧ P.execute job.payload = none) ∨
        (∀ m ∈ s.channel ++ s.ready, m.key ≠ key) ∧
          ((∀ w ∈ s.workers, w.ended = true) ∨
            key ∉ (P.jobs.take s.budget.next).map Job.key ∧ P.Starved s)
    | .takeStage key =>
      (∃ payload, (key, payload) ∈ s.submitted ∧ P.executeStage payload = none) ∨
        (∀ r ∈ s.stageChannel ++ s.stageReady, r.1 ≠ key) ∧ ∀ w ∈ s.workers, w.ended = true
    | _ => False

/-- What a coordinator has to satisfy, whatever the jobs do. -/
structure Guided (P : Program T O S Q R σ) (start : σ) (rank : σ → Nat) : Prop where
  keys_nodup : (P.jobs.map Job.key).Nodup
  legal : ∀ g, Reaches P.Follows ⟨start, [], [], [], []⟩ g → P.Legal g
  prompt : ∀ g, Reaches P.Follows ⟨start, [], [], [], []⟩ g → P.Prompt g
  descends : ∀ g g', Reaches P.Follows ⟨start, [], [], [], []⟩ g → P.Follows g g' →
    rank g'.consumer < rank g.consumer

/-- What a program has to satisfy to be run to its end. -/
structure Driven (P : Program T O S Q R σ) (start : σ) (rank : σ → Nat) : Prop where
  keys_nodup : (P.jobs.map Job.key).Nodup
  executes : ∀ job ∈ P.jobs, P.execute job.payload ≠ none
  fits : ∀ job ∈ P.jobs, job.reservation ≤ P.limits.memory
  active : 0 < P.limits.active
  legal : ∀ g, Reaches P.Follows ⟨start, [], [], [], []⟩ g → P.Legal g
  prompt : ∀ g, Reaches P.Follows ⟨start, [], [], [], []⟩ g → P.Prompt g
  stages : ∀ g, Reaches P.Follows ⟨start, [], [], [], []⟩ g →
    ∀ x ∈ g.submitted, P.executeStage x.2 ≠ none
  descends : ∀ g g', Reaches P.Follows ⟨start, [], [], [], []⟩ g → P.Follows g g' →
    rank g'.consumer < rank g.consumer

/-- The same, but for what the coordinator asks for. -/
structure Fed (P : Program T O S Q R σ) (start : σ) (rank : σ → Nat) : Prop where
  keys_nodup : (P.jobs.map Job.key).Nodup
  executes : ∀ job ∈ P.jobs, P.execute job.payload ≠ none
  fits : ∀ job ∈ P.jobs, job.reservation ≤ P.limits.memory
  active : 0 < P.limits.active
  unstaged : P.staged = false → ∀ g, Reaches P.Follows ⟨start, [], [], [], []⟩ g → g.submitted = []
  prompt : ∀ g, Reaches P.Follows ⟨start, [], [], [], []⟩ g → P.Legal g → P.Prompt g
  stages : ∀ g, Reaches P.Follows ⟨start, [], [], [], []⟩ g →
    ∀ x ∈ g.submitted, P.executeStage x.2 ≠ none
  descends : ∀ g g', Reaches P.Follows ⟨start, [], [], [], []⟩ g → P.Follows g g' →
    rank g'.consumer < rank g.consumer

/-- The call has returned: the closure has, and the worker threads are joined. -/
def Returned (s : State O S Q R σ) : Prop :=
  s.finished ≠ none ∧ ∀ w ∈ s.workers, w.ended = true

/-- Nothing happens after the call has returned. -/
theorem Returned.not_step {s t : State O S Q R σ} (h : Returned s) : ¬ P.Step s t := by
  obtain ⟨hf, hw⟩ := h
  have ended : ∀ {pre post : List (Worker O S Q)} {w}, s.workers = pre ++ w :: post →
      w.ended = false → False := fun {pre post w} here hend => by
    have := hw w (by rw [here]; simp)
    rw [hend] at this
    cases this
  have asking : (P.asking : Worker O S Q).ended = false := by
    rcases P.asking_eq with ha | ha <;> rw [ha] <;> rfl
  intro hstep
  cases hstep
  case grant here _ => exact ended here asking
  case stop here _ => exact ended here asking
  case receiveStage w message rest staged here looking queue =>
    rcases looking with rfl | rfl <;> exact ended here rfl
  all_goals first
    | exact hf (by assumption)
    | exact ended (by assumption) rfl

/-- A step of a worker lowers the effort; one of the coordinator raises it by at most one staged
job. -/
theorem effort_step {s t : State O S Q R σ} (tracked : P.Tracked s) (hstep : P.Step s t) :
    t.consumer = s.consumer ∧ P.effort t < P.effort s ∨
      s.finished = none ∧ P.Follows s.ledger t.ledger ∧ P.effort t ≤ P.effort s + 5 := by
  cases hstep
  case take message pre post running waiting here =>
    refine .inr ⟨running, take_follows tracked (by simp [here]) waiting, ?_⟩
    simp only [effort, Budget.retire]
    omega
  case discardBefore key running waiting =>
    refine .inr ⟨running, discardBefore_follows waiting, ?_⟩
    simp only [effort, retire_fold_next]
    omega
  case takePrimary message pre post running waiting here =>
    exact .inr ⟨running, takePrimary_follows tracked (by simp [here]) waiting,
      Nat.le_add_right _ _⟩
  case retire lease pre post running waiting here =>
    refine .inr ⟨running, .retire (g := s.ledger) waiting here, ?_⟩
    simp only [effort, Budget.retire]
    omega
  case submit key lease payload pre post running waiting here =>
    refine .inr ⟨running, .submit (g := s.ledger) waiting here, ?_⟩
    simp only [effort, List.length_append, List.length_cons, List.length_nil]
    omega
  case takeStage key value pre post running waiting here =>
    exact .inr ⟨running, @takeStage_follows _ _ _ _ _ _ _ _ _ value tracked (by simp [here]) waiting,
      Nat.le_add_right _ _⟩
  case compute running waiting =>
    exact .inr ⟨running, .compute (g := s.ledger) waiting, Nat.le_add_right _ _⟩
  case grant index budget here room =>
    obtain ⟨-, rfl, job, hjob, -, rfl⟩ := P.request_eq_ready.mp room
    have hlt := (List.getElem?_eq_some_iff.mp hjob).1
    refine .inl ⟨rfl, ?_⟩
    rcases P.asking_eq with ha | ha <;> rw [ha] at here <;>
      simp only [effort, here, List.map_append, List.map_cons, List.sum_append, List.sum_cons,
        Worker.weight, Budget.grant] <;> omega
  case stop here none_left =>
    refine .inl ⟨rfl, ?_⟩
    rcases P.asking_eq with ha | ha <;> rw [ha] at here <;>
      simp only [effort, here, List.map_append, List.map_cons, List.sum_append, List.sum_cons,
        Worker.weight] <;> omega
  case receiveStage w message rest staged here looking queue =>
    refine .inl ⟨rfl, ?_⟩
    rcases looking with rfl | rfl <;>
      simp only [effort, here, queue, List.map_append, List.map_cons, List.sum_append,
        List.sum_cons, Worker.weight, List.length_cons] <;> omega
  case finish result running waiting =>
    refine .inl ⟨rfl, ?_⟩
    simp only [effort, running, Budget.cancel, Option.isNone_none, Option.isNone_some, if_true,
      Bool.false_eq_true, if_false]
    omega
  all_goals
    refine .inl ⟨rfl, ?_⟩
    simp_all only [effort, List.map_append, List.map_cons, List.sum_append, List.sum_cons,
      Worker.weight, Budget.retire, Budget.complete, List.length_append, List.length_cons,
      List.length_nil]
    omega

theorem measure_step {rank : σ → Nat} {s t : State O S Q R σ} (tracked : P.Tracked s)
    (descends : s.finished = none → ∀ g, P.Follows s.ledger g → rank g.consumer < rank s.consumer)
    (hstep : P.Step s t) : P.measure rank t < P.measure rank s := by
  rw [measure, measure]
  rcases effort_step tracked hstep with ⟨hsame, heffort⟩ | ⟨running, hfollows, heffort⟩
  · rw [hsame]
    omega
  · have : rank t.consumer < rank s.consumer := descends running _ hfollows
    omega

private theorem submitted_nil {start : σ} (unstaged : P.staged = false)
    (legal : ∀ g, Reaches P.Follows ⟨start, [], [], [], []⟩ g → P.Legal g) {g : Ledger S σ}
    (run : Reaches P.Follows ⟨start, [], [], [], []⟩ g) : g.submitted = [] := by
  induction run with
  | refl => rfl
  | tail hrun hstep ih =>
    have hlegal := legal _ hrun
    cases hstep
    case submit key lease payload pre post waiting held =>
      simp [Legal, waiting, unstaged] at hlegal
    all_goals exact ih

section Runs

variable {n : Nat} {start : σ} {rank : σ → Nat} {s : State O S Q R σ}

private theorem Invariant.stages (h : P.Invariant start s)
    (stages : ∀ g, Reaches P.Follows ⟨start, [], [], [], []⟩ g →
      ∀ x ∈ g.submitted, P.executeStage x.2 ≠ none) :
    ∀ x ∈ s.submitted, P.executeStage x.2 ≠ none := by
  cases hf : s.finished with
  | none => exact stages _ (h.explained.running hf)
  | some r =>
    obtain ⟨g, hrun, -, heq⟩ := h.explained.finished r hf
    exact heq ▸ stages g hrun

/-- Waiting for a job not yet admitted: everything before it is paid back, so it fits beside what
has leaked. -/
theorem unadmitted_step (h : P.Invariant start s) (phased : P.Phased n s)
    (nodup : (P.jobs.map Job.key).Nodup) (prompt : P.Prompt s.ledger)
    (unstaged : P.staged = false → s.submitted = []) (running : s.finished = none) {key : Nat}
    (waiting : P.consumer.op s.consumer = .take key ∨ P.consumer.op s.consumer = .takePrimary key)
    {pre post : List (Job T)} {job : Job T} (split : P.jobs = pre ++ job :: post)
    (key_eq : job.key = key) (later : s.budget.next ≤ pre.length)
    (alive : ∃ w ∈ s.workers, w.ended = false) (fed : ¬ P.Starved s) : ∃ t, P.Step s t := by
  by_cases busy : ∃ w ∈ s.workers, w.busy = true
  · obtain ⟨w, hw, hb⟩ := busy
    exact busy_step h.tracked h.counted hw hb
  have quiet : ∀ w ∈ s.workers, w.busy = false := by
    simpa using busy
  obtain ⟨w, hw, hlive⟩ := alive
  have looking := looking_of_alive hlive (quiet w hw)
  by_cases hstage : s.stageJobs = []
  · have hlt : s.budget.next < P.jobs.length := by
      rw [split, List.length_append, List.length_cons]; omega
    have hprompt : s.leases = [] ∧ ∀ earlier ∈ pre, earlier.key ∈ s.consumed := by
      have key_waiting : P.consumer.op s.ledger.consumer = .take key ∨
        P.consumer.op s.ledger.consumer = .takePrimary key := waiting
      rcases key_waiting with h | h <;> rw [Prompt, h] at prompt <;>
        exact ⟨prompt.1, prompt.2 pre job post split key_eq⟩
    have hleaked := budget_leaked h.accounted h.counted phased nodup hprompt.1 hstage quiet
      fun j hj => hprompt.2 j (by
        rw [split, List.take_append_of_le_length later] at hj
        exact List.mem_of_mem_take hj)
    have hroom := not_exists.mp fed P.jobs[s.budget.next]
    rw [List.getElem?_eq_getElem hlt] at hroom
    simp only [true_and, not_or, Nat.not_le, Nat.not_lt] at hroom
    refine look_step phased running hw looking (.inl ⟨_, _, P.request_eq_ready.mpr
      ⟨?_, rfl, _, List.getElem?_eq_getElem hlt, Budget.fits_iff.mpr ⟨?_, ?_⟩, rfl⟩⟩)
    · simpa [running] using h.tracked.cancelled
    · rw [hleaked.2, h.accounted.maxActive]
      exact hroom.1
    · rw [hleaked.1, h.accounted.limit]
      omega
  · have hst : P.staged = true := by
      by_contra hst
      have hnil : s.submitted = [] := unstaged (by simpa using hst)
      obtain ⟨m, hm⟩ := List.exists_mem_of_ne_nil _ hstage
      have hmem := h.tracked.stageJobs m (by simp only [State.stageMessages, List.mem_append]; exact .inl hm)
      simp [hnil] at hmem
    exact look_step phased running hw looking (.inr ⟨hst, hstage⟩)

private theorem wait_step (h : P.Invariant start s) (phased : P.Phased n s)
    (nodup : (P.jobs.map Job.key).Nodup) (prompt : P.Prompt s.ledger)
    (unstaged : P.staged = false → s.submitted = []) (running : s.finished = none) {key : Nat}
    (waiting : P.consumer.op s.consumer = .take key ∨ P.consumer.op s.consumer = .takePrimary key)
    (mem : key ∈ P.jobs.map Job.key) (fresh : key ∉ s.consumed)
    (executes : ∀ job ∈ P.jobs, job.key = key → P.execute job.payload ≠ none)
    (comes : (∀ m ∈ s.channel ++ s.ready, m.key ≠ key) →
      (∃ w ∈ s.workers, w.ended = false) ∧
        (key ∉ (P.jobs.take s.budget.next).map Job.key → ¬ P.Starved s)) : ∃ t, P.Step s t := by
  by_cases admitted : key ∈ (P.jobs.take s.budget.next).map Job.key
  · exact take_step h.counted h.tracked phased executes running waiting admitted fresh
  · obtain ⟨alive, fed⟩ := comes (undelivered_of_unadmitted h.counted admitted)
    obtain ⟨job, hj, key_eq⟩ := List.mem_map.mp mem
    obtain ⟨pre, post, split⟩ := List.append_of_mem hj
    refine unadmitted_step h phased nodup prompt unstaged running waiting split key_eq
      (Nat.le_of_not_lt fun hlt =>
        admitted (List.mem_map.mpr ⟨job, mem_take_of_lt split hlt, key_eq⟩)) alive (fed admitted)

/-- As long as the call has not returned and what the coordinator asks for may come, some step can
be taken. -/
theorem progress_of_legal (h : P.Invariant start s) (phased : P.Phased n s)
    (nodup : (P.jobs.map Job.key).Nodup)
    (legal : s.finished = none → P.Legal s.ledger ∧ P.Prompt s.ledger ∧
      (P.staged = false → s.submitted = []))
    (open_call : ¬ Returned s) (hope : ¬ P.Doomed s) : ∃ t, P.Step s t := by
  by_cases running : s.finished = none
  · obtain ⟨hlegal, hprompt, unstaged⟩ := legal running
    have hledger : s.ledger.consumer = s.consumer := rfl
    rw [Legal, hledger] at hlegal
    simp only [Doomed, running, true_and] at hope
    cases hop : P.consumer.op s.consumer with
    | done r => exact ⟨_, .finish running hop⟩
    | compute => exact ⟨_, .compute running hop⟩
    | discardBefore key => exact ⟨_, .discardBefore running hop⟩
    | retire lease =>
      rw [hop] at hlegal
      obtain ⟨pre, post, here⟩ := List.append_of_mem hlegal
      exact ⟨_, .retire running hop here⟩
    | submit key lease payload =>
      rw [hop] at hlegal
      obtain ⟨pre, post, here⟩ := List.append_of_mem hlegal.2
      exact ⟨_, .submit running hop here⟩
    | takeStage key =>
      rw [hop] at hlegal hope
      obtain ⟨stages, alive⟩ := not_or.mp hope
      refine takeStage_step h.counted h.tracked phased
        (fun payload hmem hnone => stages ⟨payload, hmem, hnone⟩) ?_ hlegal.1 running hop
        hlegal.2.1 hlegal.2.2
      by_cases here : ∃ r ∈ s.stageChannel ++ s.stageReady, r.1 = key
      · exact .inl here
      · refine .inr ?_
        by_contra dead
        refine alive ⟨fun r hr heq => here ⟨r, hr, heq⟩, fun w hw => ?_⟩
        by_contra hlive
        exact dead ⟨w, hw, by simpa using hlive⟩
    | take key | takePrimary key =>
      rw [hop] at hlegal hope
      obtain ⟨executes, comes⟩ := not_or.mp hope
      refine wait_step h phased nodup hprompt unstaged running (by simp [hop]) hlegal.1 hlegal.2
        (fun job hj heq hnone => executes ⟨job, hj, heq, hnone⟩) fun undelivered => ?_
      refine ⟨?_, fun unadmitted starved => comes ⟨undelivered, .inr ⟨unadmitted, starved⟩⟩⟩
      by_contra dead
      refine comes ⟨undelivered, .inl fun w hw => ?_⟩
      by_contra hlive
      exact dead ⟨w, hw, by simpa using hlive⟩
  · have : ∃ w ∈ s.workers, w.ended = false := by
      simpa only [Returned, ne_eq, running, not_false_eq_true, true_and, not_forall,
        exists_prop, Bool.not_eq_true] using open_call
    obtain ⟨w, hw, alive⟩ := this
    exact drain_step h.tracked h.counted phased running hw alive

theorem Guided.progress (hg : P.Guided start rank) (h : P.Invariant start s)
    (phased : P.Phased n s) (open_call : ¬ Returned s) (hope : ¬ P.Doomed s) :
    ∃ t, P.Step s t := by
  refine progress_of_legal h phased hg.keys_nodup (fun running => ?_) open_call hope
  have hrun := h.explained.running running
  exact ⟨hg.legal _ hrun, hg.prompt _ hrun, fun unstaged => P.submitted_nil unstaged hg.legal hrun⟩

/-- Without panics a worker is always left, and nothing leaks. -/
theorem Fed.not_doomed (hd : P.Fed start rank) (threads : 0 < n) (h : P.Invariant start s)
    (phased : P.Phased n s) (legal : s.finished = none → P.Legal s.ledger) : ¬ P.Doomed s := by
  rintro ⟨running, wait⟩
  have stages := h.stages hd.stages
  have hlegal := legal running
  have hledger : s.ledger.consumer = s.consumer := rfl
  rw [Legal, hledger] at hlegal
  have alive : P.staged = true ∨ s.budget.next < P.jobs.length →
      ¬ ∀ w ∈ s.workers, w.ended = true := fun work dead => by
    obtain ⟨w, hw⟩ := List.exists_mem_of_length_pos (phased.count ▸ threads)
    have hquiet : w.busy = false := by
      have := dead w hw
      cases w with
      | stopped | panicked | stagePanicked => rfl
      | idle | polled | executing | sending | staging | stageSending => cases this
    rcases looking_of_not_busy phased hd.executes stages running work hw hquiet with rfl | rfl <;>
      cases dead _ hw
  have fed : ¬ P.Starved s := by
    rintro ⟨job, hjob, hfull⟩
    have hnil : s.leaked = [] := by
      refine List.flatMap_eq_nil_iff.mpr fun w hw => ?_
      cases w with
      | stagePanicked message =>
        obtain ⟨hmem, hnone⟩ := phased.stagePanicked message hw
        exact absurd hnone (stages _ hmem)
      | _ => rfl
    have hactive := hd.active
    have hfits := hd.fits job (List.mem_of_getElem? hjob)
    rw [hnil] at hfull
    simp only [List.length_nil, List.sum_nil] at hfull
    omega
  have doomed_key : ∀ key, key ∈ P.jobs.map Job.key → key ∉ s.consumed →
      (∀ m ∈ s.channel ++ s.ready, m.key ≠ key) → (∀ w ∈ s.workers, w.ended = true) → False :=
    fun key mem fresh undelivered dead => by
    by_cases hlt : s.budget.next < P.jobs.length
    · exact alive (.inr hlt) dead
    · have hkeys : key ∈ P.keys s := by
        rw [← List.count_pos_iff, h.counted.keys key, List.take_of_length_le (by omega)]
        exact List.count_pos_iff.mpr mem
      simp only [Program.keys, List.mem_append] at hkeys undelivered
      rcases hkeys with ((hk | hk) | hk) | hk
      · obtain ⟨w, hw, hk⟩ := List.mem_flatMap.mp hk
        cases w with
        | panicked index =>
          obtain ⟨job, hjob, hnone⟩ := phased.panicked index hw
          exact hd.executes job (List.mem_of_getElem? hjob) hnone
        | executing | sending => cases dead _ hw
        | idle | polled | staging | stageSending | stopped | stagePanicked => cases hk
      · obtain ⟨m, hm, hkey⟩ := List.mem_map.mp hk
        exact undelivered m (.inl hm) hkey
      · obtain ⟨m, hm, hkey⟩ := List.mem_map.mp hk
        exact undelivered m (.inr hm) hkey
      · exact fresh hk
  cases hop : P.consumer.op s.consumer with
  | take key | takePrimary key =>
    rw [hop] at wait hlegal
    rcases wait with ⟨job, hj, -, hnone⟩ | ⟨undelivered, dead | ⟨-, starved⟩⟩
    · exact hd.executes job hj hnone
    · exact doomed_key key hlegal.1 hlegal.2 undelivered dead
    · exact fed starved
  | takeStage key =>
    rw [hop] at wait hlegal
    rcases wait with ⟨payload, hmem, hnone⟩ | ⟨-, dead⟩
    · exact stages _ hmem hnone
    · exact alive (.inl hlegal.1) dead
  | compute | discardBefore | retire | submit | done => rw [hop] at wait; exact wait

theorem reachable_phased (run : Reaches P.Step (P.init n start) s) :
    P.Invariant start s ∧ P.Phased n s :=
  run.invariant (I := fun s => P.Invariant start s ∧ P.Phased n s)
    ⟨P.invariant_init n start, P.phased_init n start⟩ fun _ _ h step =>
      ⟨h.1.step P step, h.2.step P h.1.tracked step⟩

theorem Fed.measure_lt (hd : P.Fed start rank) (run : Reaches P.Step (P.init n start) s)
    {t : State O S Q R σ} (step : P.Step s t) : P.measure rank t < P.measure rank s := by
  have h := P.reachable_invariant run
  exact P.measure_step h.tracked
    (fun running g follows => hd.descends _ g (h.explained.running running) follows) step

/-- There is one until the call has returned, or the coordinator asks for something that is not
there to come. -/
theorem Fed.progress (hd : P.Fed start rank) (threads : 0 < n)
    (run : Reaches P.Step (P.init n start) s) (open_call : ¬ Returned s)
    (legal : s.finished = none → P.Legal s.ledger) : ∃ t, P.Step s t := by
  obtain ⟨h, phased⟩ := reachable_phased run
  refine progress_of_legal h phased hd.keys_nodup (fun running => ?_) open_call
    (hd.not_doomed threads h phased legal)
  have hrun := h.explained.running running
  exact ⟨legal running, hd.prompt _ hrun (legal running),
    fun unstaged => hd.unstaged unstaged _ hrun⟩

/-- Every run of a program that is fed, under any schedule, ends with the call returning, unless the
coordinator comes to ask for something that is not there to come. -/
theorem Fed.returns_or_illegal (hd : P.Fed start rank) (threads : 0 < n) :
    Inevitable P.Step (fun s => Returned s ∨ s.finished = none ∧ ¬ P.Legal s.ledger)
      (P.init n start) := by
  refine Inevitable.of_measure (I := Reaches P.Step (P.init n start)) (P.measure rank)
    (fun _ _ run step => run.tail step) (fun _ _ run step => hd.measure_lt run step)
    (fun s run hp => ?_) .refl
  obtain ⟨open_call, asks⟩ := not_or.mp hp
  exact hd.progress threads run open_call fun running =>
    not_not.mp fun illegal => asks ⟨running, illegal⟩

theorem Driven.guided (hd : P.Driven start rank) : P.Guided start rank :=
  ⟨hd.keys_nodup, hd.legal, hd.prompt, hd.descends⟩

private theorem Driven.fed (hd : P.Driven start rank) : P.Fed start rank where
  keys_nodup := hd.keys_nodup
  executes := hd.executes
  fits := hd.fits
  active := hd.active
  unstaged unstaged _ run := P.submitted_nil unstaged hd.legal run
  prompt g run _ := hd.prompt g run
  stages := hd.stages
  descends := hd.descends

theorem Driven.returns (hd : P.Driven start rank) (threads : 0 < n) :
    Inevitable P.Step Returned (P.init n start) := by
  refine (hd.fed.returns_or_illegal threads).strengthen fun s run h => ?_
  rcases h with returned | ⟨running, illegal⟩
  · exact returned
  · exact absurd (hd.legal _ ((P.reachable_invariant run).explained.running running)) illegal

theorem returned_result {r : R} (run : Reaches P.Step (P.init n start) s)
    (finished : s.finished = some r) :
    ∃ g, Reaches P.Follows ⟨start, [], [], [], []⟩ g ∧ P.consumer.op g.consumer = .done r := by
  obtain ⟨g, hrun, hop, -⟩ := (P.reachable_invariant run).explained.finished r finished
  exact ⟨g, hrun, hop⟩

end Runs

end Program

end Fbz.Pipeline
