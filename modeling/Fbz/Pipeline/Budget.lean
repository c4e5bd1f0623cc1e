import Mathlib.Algebra.Order.Ring.Int

/-!
# Byte budget of the worker pipeline

`Budget` hands the job list out in order, one reservation at a time, and takes the bytes back
as results are completed and retired. Byte counts and job indices are natural numbers; the
saturating operations of the source are the truncated ones of `Nat`.
-/

namespace Fbz.Pipeline

structure Job (T : Type) where
  key : Nat
  reservation : Nat
  payload : T

structure PipelineLimits where
  memory : Nat
  active : Nat

/-- The limits together with the state the mutex guards. -/
structure Budget where
  limit : Nat
  maxActive : Nat
  next : Nat := 0
  reserved : Nat := 0
  active : Nat := 0
  cancelled : Bool := false

/-- Answer to a worker that asks for a job. -/
inductive Admission
  | ready (index : Nat) (budget : Budget)
  | pending
  | cancelled

theorem key_lt_of_sorted {T : Type} {jobs pre post : List (Job T)} {job earlier : Job T}
    (sorted : (jobs.map Job.key).Pairwise (· < ·)) (split : jobs = pre ++ job :: post)
    (mem : earlier ∈ pre) : earlier.key < job.key := by
  rw [split, List.map_append, List.map_cons, List.pairwise_append] at sorted
  exact sorted.2.2 _ (List.mem_map_of_mem mem) _ List.mem_cons_self

namespace Budget

variable {T : Type}

def new (limits : PipelineLimits) : Budget :=
  { limit := limits.memory, maxActive := limits.active }

/-- There is room for one more job of this size. -/
def fits (b : Budget) (reservation : Nat) : Bool :=
  decide (b.active < b.maxActive) && decide (reservation ≤ b.limit - b.reserved)

def grant (b : Budget) (reservation : Nat) : Budget :=
  { b with next := b.next + 1, reserved := b.reserved + reservation, active := b.active + 1 }

/-- `Budget::next`: a worker that gets `pending` sleeps until it is woken, and `cancelled`
stands for the `None` that ends its loop. -/
def nextJob (b : Budget) (jobs : List (Job T)) : Admission :=
  if b.cancelled then .cancelled
  else match jobs[b.next]? with
    | none => .cancelled
    | some job => if b.fits job.reservation then .ready b.next (b.grant job.reservation) else .pending

/-- `Budget::try_next`: an exhausted job list is `pending` here, since staged work may follow. -/
def tryNext (b : Budget) (jobs : List (Job T)) : Admission :=
  if b.cancelled then .cancelled
  else match jobs[b.next]? with
    | none => .pending
    | some job => if b.fits job.reservation then .ready b.next (b.grant job.reservation) else .pending

def complete (b : Budget) (reservation retained : Nat) : Budget :=
  { b with reserved := b.reserved - reservation + min retained reservation }

def retire (b : Budget) (retained : Nat) : Budget :=
  { b with reserved := b.reserved - retained, active := b.active - 1 }

def cancel (b : Budget) : Budget := { b with cancelled := true }

theorem fits_iff {b : Budget} {reservation : Nat} :
    b.fits reservation = true ↔ b.active < b.maxActive ∧ reservation ≤ b.limit - b.reserved := by
  simp [fits]

/-- An admission is always of the next job in the list, and only when it fits. -/
theorem nextJob_eq_ready {b b' : Budget} {jobs : List (Job T)} {index : Nat} :
    b.nextJob jobs = .ready index b' ↔
      b.cancelled = false ∧ index = b.next ∧
        ∃ job, jobs[b.next]? = some job ∧ b.fits job.reservation = true ∧
          b' = b.grant job.reservation := by
  unfold nextJob
  cases b.cancelled with
  | true => simp
  | false =>
    cases jobs[b.next]? with
    | none => simp
    | some job =>
      cases hf : b.fits job.reservation with
      | false => simp [hf]
      | true => simp only [Bool.false_eq_true, if_false, if_true, Admission.ready.injEq, true_and,
          Option.some.injEq, exists_eq_left', hf, eq_comm]

theorem tryNext_eq_ready {b b' : Budget} {jobs : List (Job T)} {index : Nat} :
    b.tryNext jobs = .ready index b' ↔
      b.cancelled = false ∧ index = b.next ∧
        ∃ job, jobs[b.next]? = some job ∧ b.fits job.reservation = true ∧
          b' = b.grant job.reservation := by
  rw [← nextJob_eq_ready]
  unfold tryNext nextJob
  cases b.cancelled with
  | true => simp
  | false =>
    cases jobs[b.next]? with
    | none => simp
    | some job => simp only [Bool.false_eq_true, if_false]

end Budget

end Fbz.Pipeline
