import Fbz.Pipeline.System

/-!
# Accounting of the worker pipeline

What every run keeps: the bytes and slots the budget has handed out are exactly those some part
of the pipeline holds, every admitted job is in one place, and every result in flight is the
result of the job whose key it carries.
-/

namespace Fbz.Pipeline

open Transition
set_option linter.unusedSimpArgs false

variable {T O S Q R σ : Type}

/-- Budget slots taken by what a worker holds. -/
def Worker.slots : Worker O S Q → Nat
  | .executing _ | .panicked _ | .sending _ | .staging _ | .stagePanicked _ => 1
  | _ => 0

/-- Keys of the staged work a worker holds. -/
def Worker.stageKeys : Worker O S Q → List Nat
  | .staging message | .stagePanicked message => [message.key]
  | .stageSending key _ => [key]
  | _ => []

def State.chargedSlots (s : State O S Q R σ) : Nat :=
  (s.workers.map Worker.slots).sum + s.channel.length + s.ready.length + s.leases.length +
    s.stageJobs.length

/-- Keys of all submitted staged work, wherever it is. -/
def State.stageKeys (s : State O S Q R σ) : List Nat :=
  s.stageJobs.map Message.key ++ s.workers.flatMap Worker.stageKeys ++
    s.stageChannel.map Prod.fst ++ s.stageReady.map Prod.fst ++ s.stageConsumed

namespace Program

variable (P : Program T O S Q R σ)

def reservationAt (index : Nat) : Nat := (P.jobs[index]?.map Job.reservation).getD 0

/-- Key of an admitted job, as a list of at most one element. -/
def keyAt (index : Nat) : List Nat := (P.jobs[index]?.map Job.key).toList

/-- Bytes the budget has charged for what a worker holds. -/
def workerBytes : Worker O S Q → Nat
  | .executing index | .panicked index => P.reservationAt index
  | .sending message => message.retained
  | .staging message | .stagePanicked message => message.retained
  | _ => 0

/-- Keys of the primary jobs a worker holds. -/
def workerKeys : Worker O S Q → List Nat
  | .executing index | .panicked index => P.keyAt index
  | .sending message => [message.key]
  | _ => []

def chargedBytes (s : State O S Q R σ) : Nat :=
  (s.workers.map P.workerBytes).sum + (s.channel.map Message.retained).sum +
    (s.ready.map Message.retained).sum + s.leases.sum + (s.stageJobs.map Message.retained).sum

/-- Keys of all admitted jobs, wherever they are. -/
def keys (s : State O S Q R σ) : List Nat :=
  s.workers.flatMap P.workerKeys ++ s.channel.map Message.key ++ s.ready.map Message.key ++
    s.consumed

/-- The budget agrees with what is held. -/
structure Accounted (s : State O S Q R σ) : Prop where
  bytes : s.budget.reserved = P.chargedBytes s
  slots : s.budget.active = s.chargedSlots
  limit : s.budget.limit = P.limits.memory
  maxActive : s.budget.maxActive = P.limits.active
  bytes_le : s.budget.reserved ≤ s.budget.limit
  slots_le : s.budget.active ≤ s.budget.maxActive

theorem request_eq_ready {b b' : Budget} {index : Nat} :
    P.request b = .ready index b' ↔
      b.cancelled = false ∧ index = b.next ∧
        ∃ job, P.jobs[b.next]? = some job ∧ b.fits job.reservation = true ∧
          b' = b.grant job.reservation := by
  unfold request
  split
  · exact Budget.tryNext_eq_ready
  · exact Budget.nextJob_eq_ready

theorem request_eq_pending {b : Budget} {job : Job T} (running : b.cancelled = false)
    (next : P.jobs[b.next]? = some job) (full : b.fits job.reservation = false) :
    P.request b = .pending := by
  unfold request Budget.tryNext Budget.nextJob
  simp only [running, next, full, Bool.false_eq_true, if_false, ite_self]

theorem accounted_init (n : Nat) (start : σ) : P.Accounted (P.init n start) := by
  constructor <;>
    simp [init, Budget.new, chargedBytes, State.chargedSlots, List.map_replicate, workerBytes, Worker.slots]

theorem retire_fold_next (ms : List (Message O)) (b : Budget) :
    (ms.foldl (fun b m => b.retire m.retained) b) =
      { b with
        reserved := b.reserved - (ms.map Message.retained).sum, active := b.active - ms.length } := by
  induction ms generalizing b with
  | nil => simp
  | cons m ms ih =>
    rw [List.foldl_cons, ih]
    simp [Budget.retire, Nat.sub_sub, Nat.add_comm]

theorem filter_retained_sum (ms : List (Message O)) (p : Message O → Bool) :
    ((ms.filter p).map Message.retained).sum + ((ms.filter fun m => !p m).map Message.retained).sum =
      (ms.map Message.retained).sum := by
  induction ms with
  | nil => rfl
  | cons m ms ih => cases hp : p m <;> simp [hp] <;> omega

theorem filter_length_add (ms : List (Message O)) (p : Message O → Bool) :
    (ms.filter p).length + (ms.filter fun m => !p m).length = ms.length := by
  induction ms with
  | nil => rfl
  | cons m ms ih => cases hp : p m <;> simp [hp] <;> omega

theorem Accounted.step {s t : State O S Q R σ} (h : P.Accounted s) (hstep : P.Step s t) :
    P.Accounted t := by
  obtain ⟨hb, hs, hl, hm, hbl, hsl⟩ := h
  cases hstep
  case discardBefore key running waiting =>
    have h1 := filter_retained_sum s.ready fun m => decide (m.key < key)
    have h2 := filter_length_add s.ready fun m => decide (m.key < key)
    rw [chargedBytes] at hb
    rw [State.chargedSlots] at hs
    constructor <;> simp only [retire_fold_next, chargedBytes, State.chargedSlots] <;> omega
  case grant index budget here room =>
    obtain ⟨-, rfl, job, hj, hf, rfl⟩ := P.request_eq_ready.mp room
    have hf := Budget.fits_iff.mp hf
    have ha : P.workerBytes (P.asking : Worker O S Q) = 0 ∧
        Worker.slots (P.asking : Worker O S Q) = 0 := by
      unfold asking; split <;> exact ⟨rfl, rfl⟩
    constructor <;>
      simp only [chargedBytes, State.chargedSlots, here, List.map_append, List.map_cons, List.sum_append,
        List.sum_cons, ha, Budget.grant, workerBytes, Worker.slots, reservationAt, hj,
        Option.map_some, Option.getD_some] at * <;> omega
  case stop here none_left =>
    have ha : P.workerBytes (P.asking : Worker O S Q) = 0 ∧
        Worker.slots (P.asking : Worker O S Q) = 0 := by
      unfold asking; split <;> exact ⟨rfl, rfl⟩
    constructor <;>
      simp only [chargedBytes, State.chargedSlots, here, List.map_append, List.map_cons, List.sum_append,
        List.sum_cons, ha, workerBytes, Worker.slots] at * <;> omega
  case receiveStage w message rest staged here looking queue =>
    have ha : P.workerBytes w = 0 ∧ Worker.slots w = 0 := by
      rcases looking with rfl | rfl <;> exact ⟨rfl, rfl⟩
    constructor <;>
      simp only [chargedBytes, State.chargedSlots, here, queue, List.map_append, List.map_cons,
        List.sum_append, List.sum_cons, ha, workerBytes, Worker.slots, List.length_cons] at * <;>
      omega
  case complete job value here job_eq result =>
    have := Nat.min_le_right (P.retainedSize value) job.reservation
    constructor <;>
      simp only [chargedBytes, State.chargedSlots, here, List.map_append, List.map_cons, List.sum_append,
        List.sum_cons, workerBytes, Worker.slots, reservationAt, job_eq, Option.map_some,
        Option.getD_some, Budget.complete] at * <;> omega
  all_goals
    simp only [chargedBytes, State.chargedSlots] at hb hs
    constructor <;>
      simp_all only [chargedBytes, State.chargedSlots, List.map_append, List.map_cons,
        List.sum_append, List.sum_cons, workerBytes, Worker.slots, List.length_append, List.map_nil,
        List.length_cons, List.sum_nil, List.length_nil, Budget.retire, Budget.cancel] <;> omega

end Program

end Fbz.Pipeline
