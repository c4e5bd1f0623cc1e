import Fbz.Pipeline.Accounting

/-!
# Where every job of the pipeline is

Admitted jobs are counted key by key through workers, channel, ready map and consumer; values in
flight are tied to the job that produced them.
-/

namespace Fbz.Pipeline

open Transition
set_option linter.unusedSimpArgs false

variable {T O S Q R σ : Type}

/-- Primary results a worker is about to send. -/
def Worker.messages : Worker O S Q → List (Message O)
  | .sending message => [message]
  | _ => []

def Worker.stageMessages : Worker O S Q → List (Message S)
  | .staging message => [message]
  | _ => []

def Worker.stageValues : Worker O S Q → List (Nat × Q)
  | .stageSending key value => [(key, value)]
  | _ => []

def State.messages (s : State O S Q R σ) : List (Message O) :=
  s.workers.flatMap Worker.messages ++ s.channel ++ s.ready

def State.stageMessages (s : State O S Q R σ) : List (Message S) :=
  s.stageJobs ++ s.workers.flatMap Worker.stageMessages

def State.stageValues (s : State O S Q R σ) : List (Nat × Q) :=
  s.workers.flatMap Worker.stageValues ++ s.stageChannel ++ s.stageReady

namespace Program

variable (P : Program T O S Q R σ)

/-- The message carries the result of the job whose key it has. -/
def Sound (m : Message O) : Prop :=
  ∃ job ∈ P.jobs, job.key = m.key ∧ P.execute job.payload = some m.value ∧
    m.retained = min (P.retainedSize m.value) job.reservation

/-- The staged result belongs to work submitted under its key. -/
def StageSound (submitted : List (Nat × S)) (r : Nat × Q) : Prop :=
  ∃ payload, (r.1, payload) ∈ submitted ∧ P.executeStage payload = some r.2

/-- Each admitted job, and each piece of staged work, is in exactly one place. -/
structure Counted (s : State O S Q R σ) : Prop where
  next_le : s.budget.next ≤ P.jobs.length
  keys : ∀ k, (P.keys s).count k = ((P.jobs.take s.budget.next).map Job.key).count k
  stageKeys : ∀ k, s.stageKeys.count k = (s.submitted.map Prod.fst).count k

structure Tracked (s : State O S Q R σ) : Prop where
  sound : ∀ m ∈ s.messages, P.Sound m
  stageJobs : ∀ m ∈ s.stageMessages, (m.key, m.value) ∈ s.submitted
  stageSound : ∀ r ∈ s.stageValues, P.StageSound s.submitted r
  executing : ∀ index, .executing index ∈ s.workers → index < s.budget.next
  cancelled : s.budget.cancelled = true ↔ s.finished ≠ none

theorem counted_init (n : Nat) (start : σ) : P.Counted (P.init n start) := by
  constructor
  · exact Nat.zero_le _
  · intro k
    simp [init, Budget.new, Program.keys, workerKeys, List.flatMap_replicate]
  · intro k
    simp [init, State.stageKeys, Worker.stageKeys, List.flatMap_replicate]

theorem tracked_init (n : Nat) (start : σ) : P.Tracked (P.init n start) := by
  constructor <;>
    simp [init, Budget.new, State.messages, State.stageMessages, State.stageValues, Worker.messages,
      Worker.stageMessages, Worker.stageValues, List.mem_replicate]

private theorem filter_key_count (ms : List (Message O)) (p : Message O → Bool) (k : Nat) :
    ((ms.filter p).map Message.key).count k + ((ms.filter fun m => !p m).map Message.key).count k =
      (ms.map Message.key).count k := by
  induction ms with
  | nil => rfl
  | cons m ms ih => cases hp : p m <;> simp [hp, List.count_cons] <;> omega

theorem asking_eq : (P.asking : Worker O S Q) = .idle ∨ (P.asking : Worker O S Q) = .polled := by
  unfold asking
  split
  · exact .inr rfl
  · exact .inl rfl

theorem Counted.step {s t : State O S Q R σ} (h : P.Counted s) (hstep : P.Step s t) :
    P.Counted t := by
  obtain ⟨hn, hk, hs⟩ := h
  cases hstep
  case discardBefore key running waiting =>
    refine ⟨by simpa only [retire_fold_next] using hn, fun k => ?_, hs⟩
    have h1 := filter_key_count s.ready (fun m => decide (m.key < key)) k
    specialize hk k
    simp only [Program.keys, retire_fold_next, List.count_append] at *
    omega
  case grant index budget here room =>
    obtain ⟨-, rfl, job, hj, -, rfl⟩ := P.request_eq_ready.mp room
    have hlt : s.budget.next < P.jobs.length := (List.getElem?_eq_some_iff.mp hj).1
    refine ⟨hlt, fun k => ?_, fun k => ?_⟩
    all_goals
      specialize hk k
      specialize hs k
      rcases P.asking_eq with ha | ha <;> rw [ha] at here <;>
        simp only [Program.keys, State.stageKeys, here, Budget.grant, List.take_add_one, hj,
          List.flatMap_append, List.flatMap_cons, workerKeys, Worker.stageKeys, keyAt,
          Option.map_some, Option.toList_some, List.map_append, List.count_append, List.map_cons,
          List.map_nil, List.count_nil] at * <;> omega
  case stop here none_left =>
    refine ⟨hn, fun k => ?_, fun k => ?_⟩
    all_goals
      specialize hk k
      specialize hs k
      rcases P.asking_eq with ha | ha <;> rw [ha] at here <;>
        simp only [Program.keys, State.stageKeys, here, List.flatMap_append, List.flatMap_cons,
          workerKeys, Worker.stageKeys, List.count_append, List.count_nil] at * <;> omega
  case receiveStage w message rest staged here looking queue =>
    refine ⟨hn, fun k => ?_, fun k => ?_⟩
    all_goals
      specialize hk k
      specialize hs k
      rcases looking with rfl | rfl <;>
        simp only [Program.keys, State.stageKeys, here, queue, List.flatMap_append,
          List.flatMap_cons, workerKeys, Worker.stageKeys, List.map_cons, List.count_append,
          List.count_cons, List.count_nil] at * <;> omega
  case complete job value here job_eq result =>
    refine ⟨hn, fun k => ?_, fun k => ?_⟩
    · simpa only [Program.keys, here, List.flatMap_append, List.flatMap_cons, workerKeys, keyAt,
        job_eq, Option.map_some, Option.toList_some, Budget.complete] using hk k
    · simpa only [State.stageKeys, here, List.flatMap_append, List.flatMap_cons,
        Worker.stageKeys] using hs k
  all_goals
    refine ⟨hn, fun k => ?_, fun k => ?_⟩
    all_goals
      specialize hk k
      specialize hs k
      simp_all only [Program.keys, State.stageKeys, List.flatMap_append, List.flatMap_cons,
        workerKeys, Worker.stageKeys, List.map_append, List.map_cons, List.map_nil,
        List.count_append, List.count_cons, List.count_nil, List.nil_append, Budget.retire,
        Budget.cancel] <;> omega

private theorem StageSound.mono {staged staged' : List (Nat × S)} {r : Nat × Q}
    (h : P.StageSound staged r) (sub : staged ⊆ staged') : P.StageSound staged' r := by
  obtain ⟨payload, hmem, heq⟩ := h
  exact ⟨payload, sub hmem, heq⟩

theorem Tracked.step {s t : State O S Q R σ} (h : P.Tracked s) (hstep : P.Step s t) :
    P.Tracked t := by
  obtain ⟨hm, hj, hv, he, hc⟩ := h
  simp only [State.messages, State.stageMessages, State.stageValues, List.forall_mem_append]
    at hm hj hv
  cases hstep
  case discardBefore key running waiting =>
    refine ⟨?_, ?_, ?_, ?_, ?_⟩ <;>
      simp only [State.messages, State.stageMessages, State.stageValues, List.forall_mem_append,
        retire_fold_next]
    · exact ⟨hm.1, fun m h => hm.2 m (List.mem_filter.mp h).1⟩
    · exact hj
    · exact hv
    · exact he
    · exact hc
  case grant index budget here room =>
    obtain ⟨hcan, rfl, job, hjob, -, rfl⟩ := P.request_eq_ready.mp room
    have hold : ∀ index, .executing index ∈ s.workers → index < s.budget.next + 1 :=
      fun index h => Nat.lt_succ_of_lt (he index h)
    rcases P.asking_eq with ha | ha <;> rw [ha] at here <;> constructor <;>
      simp_all only [State.messages, State.stageMessages, State.stageValues, Worker.messages,
        Worker.stageMessages, Worker.stageValues, List.flatMap_append, List.flatMap_cons,
        List.forall_mem_append, List.forall_mem_cons, List.mem_append, List.mem_cons,
        List.nil_append, List.not_mem_nil, Worker.executing.injEq, reduceCtorEq, or_imp,
        forall_and, forall_eq, false_or, and_true, true_and, implies_true, false_imp_iff, ne_eq,
        not_true_eq_false, not_false_eq_true, Budget.grant, Nat.lt_add_one]
  case stop here none_left =>
    rcases P.asking_eq with ha | ha <;> rw [ha] at here <;> constructor <;>
      simp_all only [State.messages, State.stageMessages, State.stageValues, Worker.messages,
        Worker.stageMessages, Worker.stageValues, List.flatMap_append, List.flatMap_cons,
        List.forall_mem_append, List.forall_mem_cons, List.mem_append, List.mem_cons,
        List.nil_append, List.not_mem_nil, Worker.executing.injEq, reduceCtorEq, or_imp,
        forall_and, forall_eq, false_or, and_true, true_and, implies_true, false_imp_iff, ne_eq,
        not_true_eq_false, not_false_eq_true]
  case receiveStage w message rest staged here looking queue =>
    rcases looking with rfl | rfl <;> constructor <;>
      simp_all only [State.messages, State.stageMessages, State.stageValues, Worker.messages,
        Worker.stageMessages, Worker.stageValues, List.flatMap_append, List.flatMap_cons,
        List.forall_mem_append, List.forall_mem_cons, List.mem_append, List.mem_cons,
        List.nil_append, List.not_mem_nil, Worker.executing.injEq, reduceCtorEq, or_imp,
        forall_and, forall_eq, false_or, and_true, true_and, implies_true, false_imp_iff, ne_eq,
        not_true_eq_false, not_false_eq_true]
  case complete job value here job_eq result =>
    have hnew : P.Sound ⟨job.key, min (P.retainedSize value) job.reservation, value⟩ :=
      ⟨job, List.mem_of_getElem? job_eq, rfl, result, rfl⟩
    constructor <;>
      simp_all only [State.messages, State.stageMessages, State.stageValues, Worker.messages,
        Worker.stageMessages, Worker.stageValues, List.flatMap_append, List.flatMap_cons,
        List.forall_mem_append, List.forall_mem_cons, List.mem_append, List.mem_cons,
        List.nil_append, List.not_mem_nil, Worker.executing.injEq, reduceCtorEq, or_imp,
        forall_and, forall_eq, false_or, and_true, true_and, implies_true, false_imp_iff, ne_eq,
        not_true_eq_false, not_false_eq_true, Budget.complete]
  case submit key lease payload pre post running waiting here =>
    have hsub : s.submitted ⊆ (key, payload) :: s.submitted := List.subset_cons_self ..
    refine ⟨by simpa only [State.messages, List.forall_mem_append] using hm, ?_, ?_, he, hc⟩ <;>
      simp only [State.messages, State.stageMessages, State.stageValues, Worker.messages,
        Worker.stageMessages, Worker.stageValues, List.flatMap_append, List.flatMap_cons,
        List.forall_mem_append, List.forall_mem_cons, List.mem_append, List.mem_cons,
        List.nil_append, List.not_mem_nil, Worker.executing.injEq, reduceCtorEq, or_imp,
        forall_and, forall_eq, false_or, and_true, true_and, implies_true, false_imp_iff, ne_eq,
        not_true_eq_false, not_false_eq_true]
    · exact ⟨⟨fun m h => .inr (hj.1 m h), .inl trivial⟩, fun m h => .inr (hj.2 m h)⟩
    · exact ⟨⟨fun r h => (hv.1.1 r h).mono P hsub, fun r h => (hv.1.2 r h).mono P hsub⟩,
        fun r h => (hv.2 r h).mono P hsub⟩
  case stageComplete message value here result =>
    have hnew : (message.key, message.value) ∈ s.submitted →
        P.StageSound s.submitted (message.key, value) := fun h => ⟨_, h, result⟩
    constructor <;>
      simp_all only [State.messages, State.stageMessages, State.stageValues, Worker.messages,
        Worker.stageMessages, Worker.stageValues, List.flatMap_append, List.flatMap_cons,
        List.forall_mem_append, List.forall_mem_cons, List.mem_append, List.mem_cons,
        List.nil_append, List.not_mem_nil, Worker.executing.injEq, reduceCtorEq, or_imp,
        forall_and, forall_eq, false_or, and_true, true_and, implies_true, false_imp_iff, ne_eq,
        not_true_eq_false, not_false_eq_true, Budget.retire]
  all_goals
    constructor <;>
      simp_all only [State.messages, State.stageMessages, State.stageValues, Worker.messages,
        Worker.stageMessages, Worker.stageValues, List.flatMap_append, List.flatMap_cons,
        List.forall_mem_append, List.forall_mem_cons, List.mem_append, List.mem_cons,
        List.nil_append, List.not_mem_nil, Worker.executing.injEq, reduceCtorEq, or_imp,
        forall_and, forall_eq, false_or, and_true, true_and, implies_true, false_imp_iff, ne_eq,
        not_true_eq_false, not_false_eq_true, Budget.retire, Budget.cancel]

end Program

end Fbz.Pipeline
