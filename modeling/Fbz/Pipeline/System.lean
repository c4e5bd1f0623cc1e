import Fbz.Lib.Transition
import Fbz.Error
import Fbz.Pipeline.Budget

/-!
# Worker pipeline

`run_ordered` and `run_staged_ordered` as one transition system. The coordinator is a
`Consumer`: a state machine that says which operation on the results it is blocked on and how it
goes on with the answer. Workers, channels and the budget take steps in any order. Waiting
(a condition variable, an empty channel, a timed wait) is the absence of a step.
-/

namespace Fbz.Pipeline

open Transition

/-- What travels over a channel: job key, bytes still charged for it, value. -/
structure Message (V : Type) where
  key : Nat
  retained : Nat
  value : V

/-- What the closure does next: an operation of `OrderedResults` or `StagedResults`, a stretch of
its own work, or the end. -/
inductive Op (S R : Type)
  | compute
  | take (key : Nat)
  | discardBefore (key : Nat)
  | takePrimary (key : Nat)
  | retire (lease : Nat)
  | submit (key lease : Nat) (payload : S)
  | takeStage (key : Nat)
  | done (result : R)

/-- The `consume` closure. A lease is the number of bytes it keeps charged. -/
structure Consumer (O S Q R σ : Type) where
  op : σ → Op S R
  afterTake : σ → O → σ
  afterTakePrimary : σ → Nat → O → σ
  afterTakeStage : σ → Q → σ
  after : σ → σ

/-- Everything a pipeline is started with. A closure that panics gives `none`. -/
structure Program (T O S Q R σ : Type) where
  staged : Bool
  jobs : List (Job T)
  limits : PipelineLimits
  execute : T → Option O
  retainedSize : O → Nat
  executeStage : S → Option Q
  consumer : Consumer O S Q R σ

/-- Where one worker thread stands in its loop. -/
inductive Worker (O S Q : Type)
  /-- about to look for work: staged work first, where there is any -/
  | idle
  /-- has found the stage queue empty and turns to the budget -/
  | polled
  | executing (index : Nat)
  | sending (message : Message O)
  | staging (message : Message S)
  | stageSending (key : Nat) (value : Q)
  | stopped
  | panicked (index : Nat)
  | stagePanicked (message : Message S)

/-- The thread has ended. -/
def Worker.ended {O S Q : Type} : Worker O S Q → Bool
  | .stopped | .panicked _ | .stagePanicked _ => true
  | _ => false

structure State (O S Q R σ : Type) where
  budget : Budget
  workers : List (Worker O S Q)
  channel : List (Message O) := []
  ready : List (Message O) := []
  leases : List Nat := []
  stageJobs : List (Message S) := []
  stageChannel : List (Nat × Q) := []
  stageReady : List (Nat × Q) := []
  consumer : σ
  /-- what `consume` has returned; its ends of the channels are dropped from then on -/
  finished : Option R := none
  /-- history: keys whose results have left the pipeline -/
  consumed : List Nat := []
  /-- history: staged work submitted so far -/
  submitted : List (Nat × S) := []
  /-- history: stage keys whose results have left the pipeline -/
  stageConsumed : List Nat := []

variable {T O S Q R σ : Type}

/-- The error of a pipeline whose job list is not admissible. -/
def reservationError : Error :=
  .invalidConfiguration "a parallel job reservation exceeds the memory limit"

namespace Program

variable (P : Program T O S Q R σ)

/-- The check both functions make before they start a thread. -/
def admissible : Bool := P.jobs.all fun job => decide (job.reservation ≤ P.limits.memory)

/-- How a worker asks the budget for a job in the two loops. -/
def request (b : Budget) : Admission := if P.staged then b.tryNext P.jobs else b.nextJob P.jobs

/-- The point of the loop at which it asks. -/
def asking : Worker O S Q := if P.staged then .polled else .idle

def init (workerCount : Nat) (start : σ) : State O S Q R σ :=
  { budget := Budget.new P.limits, workers := List.replicate workerCount .idle, consumer := start }

/-- One step of a worker or of the coordinator. -/
inductive Step : State O S Q R σ → State O S Q R σ → Prop
  | poll {s pre post} (staged : P.staged = true) (here : s.workers = pre ++ .idle :: post)
      (empty : s.stageJobs = []) (running : s.finished = none) :
      Step s { s with workers := pre ++ .polled :: post }
  | grant {s pre post index budget} (here : s.workers = pre ++ P.asking :: post)
      (room : P.request s.budget = .ready index budget) :
      Step s { s with budget := budget, workers := pre ++ .executing index :: post }
  | stop {s pre post} (here : s.workers = pre ++ P.asking :: post)
      (none_left : P.request s.budget = .cancelled) :
      Step s { s with workers := pre ++ .stopped :: post }
  | disconnect {s pre post} (staged : P.staged = true) (here : s.workers = pre ++ .idle :: post)
      (empty : s.stageJobs = []) (closed : s.finished ≠ none) :
      Step s { s with workers := pre ++ .stopped :: post }
  | complete {s pre post index job value} (here : s.workers = pre ++ .executing index :: post)
      (job_eq : P.jobs[index]? = some job) (result : P.execute job.payload = some value) :
      Step s { s with
        budget := s.budget.complete job.reservation (min (P.retainedSize value) job.reservation)
        workers := pre ++
          .sending ⟨job.key, min (P.retainedSize value) job.reservation, value⟩ :: post }
  | panic {s pre post index job} (here : s.workers = pre ++ .executing index :: post)
      (job_eq : P.jobs[index]? = some job) (result : P.execute job.payload = none) :
      Step s { s with workers := pre ++ .panicked index :: post }
  | send {s pre post message} (here : s.workers = pre ++ .sending message :: post)
      (running : s.finished = none) :
      Step s { s with channel := s.channel ++ [message], workers := pre ++ .idle :: post }
  | sendFails {s pre post message} (here : s.workers = pre ++ .sending message :: post)
      (closed : s.finished ≠ none) :
      Step s { s with
        budget := s.budget.retire message.retained
        workers := pre ++ .stopped :: post
        consumed := message.key :: s.consumed }
  | receiveStage {s pre post w message rest} (staged : P.staged = true)
      (here : s.workers = pre ++ w :: post) (looking : w = .idle ∨ w = .polled)
      (queue : s.stageJobs = message :: rest) :
      Step s { s with stageJobs := rest, workers := pre ++ .staging message :: post }
  | stageComplete {s pre post message value}
      (here : s.workers = pre ++ .staging message :: post)
      (result : P.executeStage message.value = some value) :
      Step s { s with
        budget := s.budget.retire message.retained
        workers := pre ++ .stageSending message.key value :: post }
  | stagePanic {s pre post message} (here : s.workers = pre ++ .staging message :: post)
      (result : P.executeStage message.value = none) :
      Step s { s with workers := pre ++ .stagePanicked message :: post }
  | stageSend {s pre post key value} (here : s.workers = pre ++ .stageSending key value :: post)
      (running : s.finished = none) :
      Step s { s with
        stageChannel := s.stageChannel ++ [(key, value)], workers := pre ++ .idle :: post }
  | stageSendFails {s pre post key value}
      (here : s.workers = pre ++ .stageSending key value :: post) (closed : s.finished ≠ none) :
      Step s { s with
        workers := pre ++ .stopped :: post, stageConsumed := key :: s.stageConsumed }
  | receive {s key message rest} (running : s.finished = none)
      (waiting : P.consumer.op s.consumer = .take key ∨
        P.consumer.op s.consumer = .takePrimary key)
      (missing : ∀ m ∈ s.ready, m.key ≠ key) (queue : s.channel = message :: rest) :
      Step s { s with channel := rest, ready := message :: s.ready }
  | take {s message pre post} (running : s.finished = none)
      (waiting : P.consumer.op s.consumer = .take message.key)
      (here : s.ready = pre ++ message :: post) :
      Step s { s with
        ready := pre ++ post
        budget := s.budget.retire message.retained
        consumer := P.consumer.afterTake s.consumer message.value
        consumed := message.key :: s.consumed }
  | discardBefore {s key} (running : s.finished = none)
      (waiting : P.consumer.op s.consumer = .discardBefore key) :
      Step s { s with
        ready := s.ready.filter fun m => !decide (m.key < key)
        budget := (s.ready.filter fun m => decide (m.key < key)).foldl
          (fun b m => b.retire m.retained) s.budget
        consumer := P.consumer.after s.consumer
        consumed := (s.ready.filter fun m => decide (m.key < key)).map Message.key ++ s.consumed }
  | takePrimary {s message pre post} (running : s.finished = none)
      (waiting : P.consumer.op s.consumer = .takePrimary message.key)
      (here : s.ready = pre ++ message :: post) :
      Step s { s with
        ready := pre ++ post
        leases := message.retained :: s.leases
        consumer := P.consumer.afterTakePrimary s.consumer message.retained message.value
        consumed := message.key :: s.consumed }
  | retire {s lease pre post} (running : s.finished = none)
      (waiting : P.consumer.op s.consumer = .retire lease)
      (here : s.leases = pre ++ lease :: post) :
      Step s { s with
        leases := pre ++ post
        budget := s.budget.retire lease
        consumer := P.consumer.after s.consumer }
  | submit {s key lease payload pre post} (running : s.finished = none)
      (waiting : P.consumer.op s.consumer = .submit key lease payload)
      (here : s.leases = pre ++ lease :: post) :
      Step s { s with
        leases := pre ++ post
        stageJobs := s.stageJobs ++ [⟨key, lease, payload⟩]
        consumer := P.consumer.after s.consumer
        submitted := (key, payload) :: s.submitted }
  | receiveStaged {s key result rest} (running : s.finished = none)
      (waiting : P.consumer.op s.consumer = .takeStage key)
      (missing : ∀ m ∈ s.stageReady, m.1 ≠ key) (queue : s.stageChannel = result :: rest) :
      Step s { s with stageChannel := rest, stageReady := result :: s.stageReady }
  | takeStage {s key value pre post} (running : s.finished = none)
      (waiting : P.consumer.op s.consumer = .takeStage key)
      (here : s.stageReady = pre ++ (key, value) :: post) :
      Step s { s with
        stageReady := pre ++ post
        consumer := P.consumer.afterTakeStage s.consumer value
        stageConsumed := key :: s.stageConsumed }
  | compute {s} (running : s.finished = none)
      (waiting : P.consumer.op s.consumer = .compute) :
      Step s { s with consumer := P.consumer.after s.consumer }
  | finish {s result} (running : s.finished = none)
      (waiting : P.consumer.op s.consumer = .done result) :
      Step s { s with finished := some result, budget := s.budget.cancel }

end Program

end Fbz.Pipeline
