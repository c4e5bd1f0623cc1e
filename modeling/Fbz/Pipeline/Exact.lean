import Fbz.Pipeline.Progress

/-!
# The budget is exact

Without panics the bytes and slots the budget has handed out are those of the jobs executing and
of the results not yet retired, and no subtraction ever saturates. A log of the run records which
jobs were admitted and which have been executed.
-/

namespace Fbz.Pipeline

open Transition
set_option linter.unusedSimpArgs false

variable {T O S Q R σ : Type}

/-- `Budget::retire` where none of its subtractions saturates. -/
def Budget.retireExact (b : Budget) (retained : Nat) : Option Budget :=
  if retained ≤ b.reserved ∧ 1 ≤ b.active then some (b.retire retained) else none

/-- `Budget::complete` where its subtraction does not saturate. -/
def Budget.completeExact (b : Budget) (reservation retained : Nat) : Option Budget :=
  if reservation ≤ b.reserved then some (b.complete reservation retained) else none

private theorem Budget.retireExact_eq {b : Budget} {retained : Nat} (bytes : retained ≤ b.reserved)
    (slot : 1 ≤ b.active) : b.retireExact retained = some (b.retire retained) :=
  if_pos ⟨bytes, slot⟩

private theorem Budget.retireExact_all {ms : List (Message O)} {b : Budget}
    (bytes : (ms.map Message.retained).sum ≤ b.reserved) (slots : ms.length ≤ b.active) :
    ms.foldlM (fun b m => b.retireExact m.retained) b =
      some (ms.foldl (fun b m => b.retire m.retained) b) := by
  induction ms generalizing b with
  | nil => rfl
  | cons m ms ih =>
    rw [List.map_cons, List.sum_cons] at bytes
    rw [List.length_cons] at slots
    rw [List.foldlM_cons, Budget.retireExact_eq (by omega) (by omega), Option.bind_eq_bind,
      Option.bind_some, List.foldl_cons]
    exact ih (by simp only [Budget.retire]; omega) (by simp only [Budget.retire]; omega)

def Worker.executing? : Worker O S Q → Option Nat
  | .executing index => some index
  | _ => none

/-- Retained size of the completed result a worker holds. -/
def Worker.retained : Worker O S Q → List Nat
  | .sending message => [message.retained]
  | .staging message => [message.retained]
  | _ => []

/-- Jobs being executed. -/
def State.executing (s : State O S Q R σ) : List Nat := s.workers.filterMap Worker.executing?

/-- Retained sizes of the completed results that have not been retired: on their way to the
coordinator, waiting there, leased by it, or attached to staged work. -/
def State.retained (s : State O S Q R σ) : List Nat :=
  s.workers.flatMap Worker.retained ++ s.channel.map Message.retained ++
    s.ready.map Message.retained ++ s.leases ++ s.stageJobs.map Message.retained

namespace Program

variable (P : Program T O S Q R σ)

/-- The step that hands out job `index`. -/
def Admits (s : State O S Q R σ) (index : Nat) (t : State O S Q R σ) : Prop :=
  ∃ pre post, s.workers = pre ++ P.asking :: post ∧
    P.request s.budget = .ready index t.budget ∧ t.workers = pre ++ .executing index :: post

/-- The step in which the execution of job `index` ends. -/
def Completes (s : State O S Q R σ) (index : Nat) (t : State O S Q R σ) : Prop :=
  ∃ pre post job message, s.workers = pre ++ .executing index :: post ∧
    P.jobs[index]? = some job ∧ P.execute job.payload = some message.value ∧
    t.workers = pre ++ .sending message :: post ∧ t.budget.next = s.budget.next

structure Log where
  admitted : List Nat := []
  completed : List Nat := []

/-- Runs together with the jobs admitted and executed in them, in the order of the steps. -/
inductive Logged (n : Nat) (start : σ) : Log → State O S Q R σ → Prop
  | init : Logged n start {} (P.init n start)
  | admission {log s t index} (run : Logged n start log s) (step : P.Step s t)
      (admits : P.Admits s index t) :
      Logged n start { log with admitted := log.admitted ++ [index] } t
  | complete {log s t index} (run : Logged n start log s) (step : P.Step s t)
      (completes : P.Completes s index t) :
      Logged n start { log with completed := log.completed ++ [index] } t
  | other {log s t} (run : Logged n start log s) (step : P.Step s t)
      (none_admitted : ∀ index, ¬ P.Admits s index t)
      (none_completed : ∀ index, ¬ P.Completes s index t) : Logged n start log t

theorem Logged.reaches {n : Nat} {start : σ} {log : Log} {s : State O S Q R σ}
    (h : P.Logged n start log s) : Reaches P.Step (P.init n start) s := by
  induction h with
  | init => exact .refl
  | admission _ step _ ih | complete _ step _ ih | other _ step _ _ ih => exact ih.tail step

private theorem exists_logged {n : Nat} {start : σ} {s : State O S Q R σ}
    (run : Reaches P.Step (P.init n start) s) : ∃ log, P.Logged n start log s := by
  induction run with
  | refl => exact ⟨_, .init⟩
  | @tail s t _ step ih =>
    obtain ⟨log, h⟩ := ih
    by_cases admits : ∃ index, P.Admits s index t
    · exact ⟨_, .admission h step admits.choose_spec⟩
    · by_cases completes : ∃ index, P.Completes s index t
      · exact ⟨_, .complete h step completes.choose_spec⟩
      · exact ⟨log, .other h step (not_exists.mp admits) (not_exists.mp completes)⟩

/-- No job and no staged work panics. -/
structure Calm : Prop where
  executes : ∀ job ∈ P.jobs, P.execute job.payload ≠ none
  stages : ∀ payload, P.executeStage payload ≠ none

/-- Steps other than an admission and the end of an execution leave the jobs being executed and
the admission counter alone. -/
theorem executing_step {s t : State O S Q R σ} (calm : P.Calm) (step : P.Step s t)
    (none_admitted : ∀ index, ¬ P.Admits s index t)
    (none_completed : ∀ index, ¬ P.Completes s index t) :
    t.executing = s.executing ∧ t.budget.next = s.budget.next := by
  cases step
  case grant pre post index budget here room =>
    exact absurd ⟨pre, post, here, room, rfl⟩ (none_admitted index)
  case complete pre post index job value here job_eq result =>
    exact absurd ⟨pre, post, job, _, here, job_eq, result, rfl, rfl⟩ (none_completed index)
  case panic pre post index job here job_eq result =>
    exact absurd result (calm.executes job (List.mem_of_getElem? job_eq))
  case stop pre post here none_left =>
    rcases P.asking_eq with ha | ha <;> rw [ha] at here <;>
      simp [State.executing, here, Worker.executing?, List.filterMap_cons]
  case receiveStage pre post w message rest staged here looking queue =>
    rcases looking with rfl | rfl <;>
      simp [State.executing, here, Worker.executing?, List.filterMap_cons]
  case discardBefore => simp only [State.executing, retire_fold_next, and_self]
  all_goals
    simp_all only [State.executing, List.filterMap_append, List.filterMap_cons,
      Worker.executing?, Budget.retire, Budget.cancel, and_self]

private theorem Logged.executed {n : Nat} {start : σ} {log : Log} {s : State O S Q R σ}
    (calm : P.Calm) (h : P.Logged n start log s) :
    log.admitted = List.range s.budget.next ∧
      (log.completed ++ s.executing).Perm log.admitted := by
  induction h with
  | init =>
    simp [Program.init, Budget.new, State.executing, Worker.executing?]
  | @admission log s t index run step admits ih =>
    obtain ⟨pre, post, here, room, there⟩ := admits
    obtain ⟨-, rfl, job, -, -, hbudget⟩ := P.request_eq_ready.mp room
    refine ⟨?_, ?_⟩
    · rw [ih.1, hbudget, Budget.grant, List.range_succ]
    · have hexec : t.executing.Perm (s.executing ++ [s.budget.next]) := by
        rcases P.asking_eq with ha | ha <;> rw [ha] at here <;>
          simp only [State.executing, here, there, Worker.executing?, List.filterMap_cons,
            List.filterMap_append] <;>
          exact List.perm_middle.trans (List.perm_append_singleton _ _).symm
      refine ((List.Perm.append_left _ hexec).trans ?_)
      rw [← List.append_assoc]
      exact ih.2.append_right _
  | @complete log s t index run step completes ih =>
    obtain ⟨pre, post, job, message, here, -, -, there, hnext⟩ := completes
    refine ⟨by rw [hnext]; exact ih.1, List.Perm.trans ?_ ih.2⟩
    simp only [State.executing, here, there, List.filterMap_append, List.filterMap_cons,
      Worker.executing?, List.append_assoc, List.singleton_append]
    exact List.Perm.append_left _ List.perm_middle.symm
  | other run step none_admitted none_completed ih =>
    obtain ⟨hexec, hnext⟩ := P.executing_step calm step none_admitted none_completed
    rw [hexec, hnext]
    exact ih

/-- The budget of a state agrees with the jobs executing and the results in flight. -/
structure Regular (s : State O S Q R σ) : Prop where
  reserved : s.budget.reserved = (s.executing.map P.reservationAt).sum + s.retained.sum
  reserved_le : s.budget.reserved ≤ P.limits.memory
  active : s.budget.active = s.executing.length + s.retained.length
  active_le : s.budget.active ≤ P.limits.active
  complete : ∀ index ∈ s.executing, ∀ job, P.jobs[index]? = some job → ∀ retained,
    s.budget.completeExact job.reservation retained =
      some (s.budget.complete job.reservation retained)
  retire : ∀ retained ∈ s.retained,
    s.budget.retireExact retained = some (s.budget.retire retained)
  /-- in whatever order the map hands out the stale entries -/
  discardBefore : ∀ key (stale : List (Message O)),
    stale.Perm (s.ready.filter fun m => decide (m.key < key)) →
    stale.foldlM (fun b m => b.retireExact m.retained) s.budget =
      some (stale.foldl (fun b m => b.retire m.retained) s.budget)
  ready_nodup : (s.ready.map Message.key).Nodup
  take : ∀ key t, P.Step s t → s.finished = none → P.consumer.op s.consumer = .take key →
    t.consumer = s.consumer ∨ ∃ job ∈ P.jobs, job.key = key ∧
      ∃ value, P.execute job.payload = some value ∧
        t.consumer = P.consumer.afterTake s.consumer value
  takePrimary : ∀ key t, P.Step s t → s.finished = none →
    P.consumer.op s.consumer = .takePrimary key →
    t.consumer = s.consumer ∨ ∃ job ∈ P.jobs, job.key = key ∧
      ∃ value, P.execute job.payload = some value ∧
        t.consumer = P.consumer.afterTakePrimary s.consumer
          (min (P.retainedSize value) job.reservation) value

section Charges

variable {P} {n : Nat} {start : σ} {s : State O S Q R σ}

private theorem panicked_absent (calm : P.Calm) (phased : P.Phased n s) :
    (∀ index, .panicked index ∉ s.workers) ∧ ∀ message, .stagePanicked message ∉ s.workers := by
  refine ⟨fun index h => ?_, fun message h => ?_⟩
  · obtain ⟨job, hjob, hnone⟩ := phased.panicked index h
    exact calm.executes job (List.mem_of_getElem? hjob) hnone
  · exact calm.stages _ (phased.stagePanicked message h).2

private theorem worker_charges (ws : List (Worker O S Q))
    (calm : (∀ index, .panicked index ∉ ws) ∧ ∀ message, .stagePanicked message ∉ ws) :
    (ws.map P.workerBytes).sum =
        ((ws.filterMap Worker.executing?).map P.reservationAt).sum +
          (ws.flatMap Worker.retained).sum ∧
      (ws.map Worker.slots).sum =
        (ws.filterMap Worker.executing?).length + (ws.flatMap Worker.retained).length := by
  induction ws with
  | nil => simp
  | cons w ws ih =>
    obtain ⟨hbytes, hslots⟩ := ih ⟨fun index h => calm.1 index (List.mem_cons_of_mem _ h),
      fun message h => calm.2 message (List.mem_cons_of_mem _ h)⟩
    cases w
    case panicked index => exact absurd List.mem_cons_self (calm.1 index)
    case stagePanicked message => exact absurd List.mem_cons_self (calm.2 message)
    all_goals
      simp only [List.map_cons, List.sum_cons, List.filterMap_cons, List.flatMap_cons,
        workerBytes, Worker.slots, Worker.executing?, Worker.retained, List.sum_append,
        List.length_append, List.length_cons, List.length_nil, List.sum_nil, hbytes, hslots]
      omega

private theorem Accounted.charges (h : P.Accounted s) (calm : P.Calm) (phased : P.Phased n s) :
    s.budget.reserved = (s.executing.map P.reservationAt).sum + s.retained.sum ∧
      s.budget.active = s.executing.length + s.retained.length := by
  obtain ⟨hbytes, hslots⟩ := @worker_charges _ _ _ _ _ _ P s.workers (panicked_absent calm phased)
  have hb := h.bytes
  have hs := h.slots
  simp only [chargedBytes, State.chargedSlots, hbytes, hslots] at hb hs
  simp only [State.executing, State.retained, List.sum_append, List.length_append,
    List.length_map]
  constructor <;> omega

private theorem le_sum_of_mem {xs : List Nat} {x : Nat} (h : x ∈ xs) :
    x ≤ xs.sum ∧ 1 ≤ xs.length := by
  refine ⟨?_, List.length_pos_of_mem h⟩
  obtain ⟨pre, post, rfl⟩ := List.append_of_mem h
  rw [List.sum_append, List.sum_cons]
  omega

private theorem ready_keys_nodup (counted : P.Counted s) (nodup : (P.jobs.map Job.key).Nodup) :
    (s.ready.map Message.key).Nodup := by
  refine List.nodup_iff_count_le_one.mpr fun key => ?_
  have hkeys := counted.keys key
  simp only [Program.keys, List.count_append] at hkeys
  have := List.nodup_iff_count_le_one.mp
    (nodup.sublist ((List.take_sublist s.budget.next _).map _)) key
  omega

private theorem regular_of_invariant (inv : P.Invariant start s) (phased : P.Phased n s)
    (calm : P.Calm) (nodup : (P.jobs.map Job.key).Nodup) : P.Regular s := by
  obtain ⟨hreserved, hactive⟩ := inv.accounted.charges calm phased
  have hbytes := inv.accounted.bytes_le
  have hslots := inv.accounted.slots_le
  rw [inv.accounted.limit] at hbytes
  rw [inv.accounted.maxActive] at hslots
  have answered : ∀ t, P.Step s t → s.finished = none → (∀ r, P.consumer.op s.consumer ≠ .done r) →
      t.consumer = s.consumer ∨ P.Follows s.ledger t.ledger := by
    intro t step running busy
    have hfinished : t.finished = none := by
      cases step <;> simp_all
    rcases P.ledger_step inv.tracked step hfinished with heq | hf
    · exact .inl (congrArg Ledger.consumer heq)
    · exact .inr hf
  refine ⟨hreserved, hbytes, hactive, hslots, ?_, ?_, ?_, ready_keys_nodup inv.counted nodup,
    ?_, ?_⟩
  · intro index hmem job hjob retained
    have hat : P.reservationAt index = job.reservation := by simp [reservationAt, hjob]
    have hle := (le_sum_of_mem (List.mem_map_of_mem (f := P.reservationAt) hmem)).1
    exact if_pos (by omega)
  · intro retained hmem
    obtain ⟨hle, hpos⟩ := le_sum_of_mem hmem
    exact Budget.retireExact_eq (by omega) (by omega)
  · intro key stale hperm
    have hsum := filter_retained_sum s.ready fun m => decide (m.key < key)
    have hlen := filter_length_add s.ready fun m => decide (m.key < key)
    have hstale := (hperm.map Message.retained).sum_nat
    have hcount := hperm.length_eq
    simp only [State.retained, List.sum_append, List.length_append, List.length_map]
      at hreserved hactive
    exact Budget.retireExact_all (by omega) (by omega)
  · intro key t step running waiting
    rcases answered t step running (by simp [waiting]) with heq | hf
    · exact .inl heq
    · obtain ⟨job, hmem, hkey, value, hexec, heq⟩ := hf.of_take waiting
      exact .inr ⟨job, hmem, hkey, value, hexec, congrArg Ledger.consumer heq⟩
  · intro key t step running waiting
    rcases answered t step running (by simp [waiting]) with heq | hf
    · exact .inl heq
    · obtain ⟨job, hmem, hkey, value, hexec, heq⟩ := hf.of_takePrimary waiting
      exact .inr ⟨job, hmem, hkey, value, hexec, congrArg Ledger.consumer heq⟩

end Charges

/-- In every reachable state the budget is exact, and the jobs admitted so far are the first ones
of the list, each executed or being executed once. -/
theorem reachable_regular {n : Nat} {start : σ} {s : State O S Q R σ} (calm : P.Calm)
    (nodup : (P.jobs.map Job.key).Nodup) (run : Reaches P.Step (P.init n start) s) :
    P.Regular s ∧ (∃ log, P.Logged n start log s) ∧
      ∀ log, P.Logged n start log s → log.admitted = List.range s.budget.next ∧
        (log.completed ++ s.executing).Perm log.admitted ∧ log.completed.Nodup := by
  have hboth : P.Invariant start s ∧ P.Phased n s :=
    run.invariant (I := fun s => P.Invariant start s ∧ P.Phased n s)
      ⟨P.invariant_init n start, P.phased_init n start⟩ fun _ _ h step =>
      ⟨h.1.step P step, h.2.step P h.1.tracked step⟩
  refine ⟨regular_of_invariant hboth.1 hboth.2 calm nodup, P.exists_logged run,
    fun log hlog => ?_⟩
  obtain ⟨hadmitted, hperm⟩ := Logged.executed P calm hlog
  have hnodup := hperm.nodup_iff.mpr (hadmitted ▸ List.nodup_range)
  exact ⟨hadmitted, hperm, (List.nodup_append.mp hnodup).1⟩

/-- Two jobs of which only one fits at a time; the coordinator takes the first. -/
def pairProgram : Program Nat Nat Unit Unit Nat Nat where
  staged := false
  jobs := [⟨0, 2, 5⟩, ⟨1, 3, 6⟩]
  limits := ⟨4, 2⟩
  execute := some
  retainedSize := id
  executeStage := some
  consumer :=
    { op := fun s => if s = 0 then .take 0 else .done s
      afterTake := fun _ value => value
      afterTakePrimary := fun s _ _ => s
      afterTakeStage := fun s _ => s
      after := id }

theorem reachable_regular_pair :
    let s : State Nat Unit Unit Nat Nat :=
      { pairProgram.init 1 0 with
        budget := (Budget.new ⟨4, 2⟩).grant 2, workers := [.executing 0] }
    pairProgram.Regular s ∧ (∃ log, pairProgram.Logged 1 0 log s) ∧
      ∀ log, pairProgram.Logged 1 0 log s → log.admitted = List.range 1 ∧
        (log.completed ++ s.executing).Perm log.admitted ∧ log.completed.Nodup :=
  reachable_regular pairProgram ⟨fun _ _ => nofun, fun _ => nofun⟩ (by decide)
    (.tail .refl (@Step.grant _ _ _ _ _ _ pairProgram (pairProgram.init 1 0) [] [] 0 _ rfl rfl))

end Program

end Fbz.Pipeline
