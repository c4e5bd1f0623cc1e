import Mathlib.Data.List.Nodup
import Fbz.Pipeline.Tracking

/-!
# The coordinator alone

Whatever order the workers take, the coordinator goes through states it also goes through alone,
its questions answered from the job list. What it may ask for is stated on these runs.
-/

namespace Fbz.Pipeline

open Transition

variable {T O S Q R σ : Type}

/-- The coordinator with what it has taken, holds and has handed on so far. -/
structure Ledger (S σ : Type) where
  consumer : σ
  consumed : List Nat := []
  leases : List Nat := []
  submitted : List (Nat × S) := []
  stageConsumed : List Nat := []

def State.ledger (s : State O S Q R σ) : Ledger S σ :=
  ⟨s.consumer, s.consumed, s.leases, s.submitted, s.stageConsumed⟩

namespace Program

variable (P : Program T O S Q R σ)

/-- One operation of the coordinator. Which results `discardBefore` finds depends on the
workers. -/
inductive Follows : Ledger S σ → Ledger S σ → Prop
  | compute {g} (waiting : P.consumer.op g.consumer = .compute) :
      Follows g { g with consumer := P.consumer.after g.consumer }
  | take {g job value} (waiting : P.consumer.op g.consumer = .take job.key) (mem : job ∈ P.jobs)
      (result : P.execute job.payload = some value) :
      Follows g { g with
        consumer := P.consumer.afterTake g.consumer value, consumed := job.key :: g.consumed }
  | discardBefore {g key} {keys : List Nat}
      (waiting : P.consumer.op g.consumer = .discardBefore key)
      (below : ∀ k ∈ keys, k < key) :
      Follows g { g with
        consumer := P.consumer.after g.consumer, consumed := keys ++ g.consumed }
  | takePrimary {g job value} (waiting : P.consumer.op g.consumer = .takePrimary job.key)
      (mem : job ∈ P.jobs) (result : P.execute job.payload = some value) :
      Follows g { g with
        consumer := P.consumer.afterTakePrimary g.consumer
          (min (P.retainedSize value) job.reservation) value
        leases := min (P.retainedSize value) job.reservation :: g.leases
        consumed := job.key :: g.consumed }
  | retire {g lease pre post} (waiting : P.consumer.op g.consumer = .retire lease)
      (held : g.leases = pre ++ lease :: post) :
      Follows g { g with consumer := P.consumer.after g.consumer, leases := pre ++ post }
  | submit {g key lease payload pre post}
      (waiting : P.consumer.op g.consumer = .submit key lease payload)
      (held : g.leases = pre ++ lease :: post) :
      Follows g { g with
        consumer := P.consumer.after g.consumer
        leases := pre ++ post
        submitted := (key, payload) :: g.submitted }
  | takeStage {g key payload value} (waiting : P.consumer.op g.consumer = .takeStage key)
      (mem : (key, payload) ∈ g.submitted) (result : P.executeStage payload = some value) :
      Follows g { g with
        consumer := P.consumer.afterTakeStage g.consumer value
        stageConsumed := key :: g.stageConsumed }

section Inversion

variable {P} {g g' : Ledger S σ}

theorem Follows.of_take {key : Nat} (h : P.Follows g g')
    (waiting : P.consumer.op g.consumer = .take key) :
    ∃ job ∈ P.jobs, job.key = key ∧ ∃ value, P.execute job.payload = some value ∧
      g' = { g with
        consumer := P.consumer.afterTake g.consumer value, consumed := key :: g.consumed } := by
  cases h
  case take job value here mem result =>
    obtain rfl := Op.take.inj (here.symm.trans waiting)
    exact ⟨job, mem, rfl, value, result, rfl⟩
  all_goals simp_all

theorem Follows.of_takePrimary {key : Nat} (h : P.Follows g g')
    (waiting : P.consumer.op g.consumer = .takePrimary key) :
    ∃ job ∈ P.jobs, job.key = key ∧ ∃ value, P.execute job.payload = some value ∧
      g' = { g with
        consumer := P.consumer.afterTakePrimary g.consumer
          (min (P.retainedSize value) job.reservation) value
        leases := min (P.retainedSize value) job.reservation :: g.leases
        consumed := key :: g.consumed } := by
  cases h
  case takePrimary job value here mem result =>
    obtain rfl := Op.takePrimary.inj (here.symm.trans waiting)
    exact ⟨job, mem, rfl, value, result, rfl⟩
  all_goals simp_all

theorem Follows.of_retire {lease : Nat} (h : P.Follows g g')
    (waiting : P.consumer.op g.consumer = .retire lease) :
    ∃ pre post, g.leases = pre ++ lease :: post ∧
      g' = { g with consumer := P.consumer.after g.consumer, leases := pre ++ post } := by
  cases h
  case retire lease' pre post here held =>
    obtain rfl := Op.retire.inj (here.symm.trans waiting)
    exact ⟨pre, post, held, rfl⟩
  all_goals simp_all

theorem Follows.of_submit {key lease : Nat} {payload : S} (h : P.Follows g g')
    (waiting : P.consumer.op g.consumer = .submit key lease payload) :
    ∃ pre post, g.leases = pre ++ lease :: post ∧
      g' = { g with
        consumer := P.consumer.after g.consumer
        leases := pre ++ post
        submitted := (key, payload) :: g.submitted } := by
  cases h
  case submit key' lease' payload' pre post here held =>
    obtain ⟨rfl, rfl, rfl⟩ := Op.submit.inj (here.symm.trans waiting)
    exact ⟨pre, post, held, rfl⟩
  all_goals simp_all

theorem Follows.of_takeStage {key : Nat} (h : P.Follows g g')
    (waiting : P.consumer.op g.consumer = .takeStage key) :
    ∃ payload value, (key, payload) ∈ g.submitted ∧ P.executeStage payload = some value ∧
      g' = { g with
        consumer := P.consumer.afterTakeStage g.consumer value
        stageConsumed := key :: g.stageConsumed } := by
  cases h
  case takeStage key' payload value here mem result =>
    obtain rfl := Op.takeStage.inj (here.symm.trans waiting)
    exact ⟨payload, value, mem, result, rfl⟩
  all_goals simp_all

theorem Follows.of_compute (h : P.Follows g g')
    (waiting : P.consumer.op g.consumer = .compute) :
    g' = { g with consumer := P.consumer.after g.consumer } := by
  cases h
  case compute => rfl
  all_goals simp_all

theorem Follows.not_done {result : R} (waiting : P.consumer.op g.consumer = .done result) :
    ¬ P.Follows g g' := by
  intro h
  cases h <;> simp_all

/-- The coordinator has no choice, unless it discards what happens to be ready. -/
theorem Follows.unique (nodup : (P.jobs.map Job.key).Nodup)
    (stages : ∀ key payload payload', P.consumer.op g.consumer = .takeStage key →
      (key, payload) ∈ g.submitted → (key, payload') ∈ g.submitted → payload = payload')
    (single : g.leases.length ≤ 1) (keeps : ∀ key, P.consumer.op g.consumer ≠ .discardBefore key)
    {g₁ g₂ : Ledger S σ} (h₁ : P.Follows g g₁) (h₂ : P.Follows g g₂) : g₁ = g₂ := by
  have hnone {lease : Nat} {pre post : List Nat} (held : g.leases = pre ++ lease :: post) :
      pre ++ post = [] := by
    rw [held, List.length_append, List.length_cons] at single
    apply List.eq_nil_of_length_eq_zero
    rw [List.length_append]
    omega
  cases h₁ with
  | compute waiting => exact (h₂.of_compute waiting).symm
  | discardBefore waiting => exact absurd waiting (keeps _)
  | take waiting mem result =>
    obtain ⟨job, hmem, hkey, value, hresult, rfl⟩ := h₂.of_take waiting
    obtain rfl := List.inj_on_of_nodup_map nodup hmem mem hkey
    obtain rfl := Option.some.inj (result.symm.trans hresult)
    rfl
  | takePrimary waiting mem result =>
    obtain ⟨job, hmem, hkey, value, hresult, rfl⟩ := h₂.of_takePrimary waiting
    obtain rfl := List.inj_on_of_nodup_map nodup hmem mem hkey
    obtain rfl := Option.some.inj (result.symm.trans hresult)
    rfl
  | retire waiting held =>
    obtain ⟨pre, post, hheld, rfl⟩ := h₂.of_retire waiting
    rw [hnone held, hnone hheld]
  | submit waiting held =>
    obtain ⟨pre, post, hheld, rfl⟩ := h₂.of_submit waiting
    rw [hnone held, hnone hheld]
  | takeStage waiting mem result =>
    obtain ⟨payload, value, hmem, hresult, rfl⟩ := h₂.of_takeStage waiting
    obtain rfl := stages _ _ _ waiting mem hmem
    obtain rfl := Option.some.inj (result.symm.trans hresult)
    rfl

end Inversion

/-- What the coordinator asks for next is a job it has not had yet, a lease it holds, or staged
work it has handed over. -/
def Legal (g : Ledger S σ) : Prop :=
  match P.consumer.op g.consumer with
  | .take key | .takePrimary key => key ∈ P.jobs.map Job.key ∧ key ∉ g.consumed
  | .retire lease => lease ∈ g.leases
  | .submit _ lease _ => P.staged = true ∧ lease ∈ g.leases
  | .takeStage key => P.staged = true ∧ key ∈ g.submitted.map Prod.fst ∧ key ∉ g.stageConsumed
  | .compute | .discardBefore _ | .done _ => True

/-- A result is asked for only when everything before it has been taken and paid back. -/
def Prompt (g : Ledger S σ) : Prop :=
  match P.consumer.op g.consumer with
  | .take key | .takePrimary key => g.leases = [] ∧
      ∀ pre job post, P.jobs = pre ++ job :: post → job.key = key →
        ∀ earlier ∈ pre, earlier.key ∈ g.consumed
  | _ => True

section Waiting

variable {P} {g : Ledger S σ} {key : Nat}

theorem legal_done {result : R} (waiting : P.consumer.op g.consumer = .done result) :
    P.Legal g := by
  rw [Legal, waiting]
  trivial

theorem legal_take (waiting : P.consumer.op g.consumer = .take key)
    (mem : key ∈ P.jobs.map Job.key) (fresh : key ∉ g.consumed) : P.Legal g := by
  rw [Legal, waiting]
  exact ⟨mem, fresh⟩

theorem prompt_done {result : R} (waiting : P.consumer.op g.consumer = .done result) :
    P.Prompt g := by
  rw [Prompt, waiting]
  trivial

theorem prompt_take (waiting : P.consumer.op g.consumer = .take key) (leases : g.leases = [])
    (before : ∀ pre job post, P.jobs = pre ++ job :: post → job.key = key →
      ∀ earlier ∈ pre, earlier.key ∈ g.consumed) : P.Prompt g := by
  rw [Prompt, waiting]
  exact ⟨leases, before⟩

end Waiting

/-- The state `s` of a run is explained by a run of the coordinator alone. -/
structure Explained (start : σ) (s : State O S Q R σ) : Prop where
  running : s.finished = none → Reaches P.Follows ⟨start, [], [], [], []⟩ s.ledger
  finished : ∀ r, s.finished = some r →
    ∃ g, Reaches P.Follows ⟨start, [], [], [], []⟩ g ∧ P.consumer.op g.consumer = .done r ∧
      g.submitted = s.submitted

private theorem explained_init (n : Nat) (start : σ) : P.Explained start (P.init n start) :=
  ⟨fun _ => .refl, fun r h => by simp [init] at h⟩

section Operations

variable {P} {s : State O S Q R σ}

theorem sound_of_ready {message : Message O} (h : P.Tracked s) (mem : message ∈ s.ready) :
    P.Sound message :=
  h.sound message (by simp only [State.messages, List.mem_append]; exact .inr mem)

theorem take_follows {message : Message O} (h : P.Tracked s) (mem : message ∈ s.ready)
    (waiting : P.consumer.op s.consumer = .take message.key) :
    P.Follows s.ledger { s.ledger with
      consumer := P.consumer.afterTake s.consumer message.value
      consumed := message.key :: s.consumed } := by
  obtain ⟨job, hmem, hkey, hexec, -⟩ := sound_of_ready h mem
  rw [← hkey] at waiting ⊢
  exact .take (g := s.ledger) waiting hmem hexec

theorem takePrimary_follows {message : Message O} (h : P.Tracked s) (mem : message ∈ s.ready)
    (waiting : P.consumer.op s.consumer = .takePrimary message.key) :
    P.Follows s.ledger { s.ledger with
      consumer := P.consumer.afterTakePrimary s.consumer message.retained message.value
      leases := message.retained :: s.leases
      consumed := message.key :: s.consumed } := by
  obtain ⟨job, hmem, hkey, hexec, hret⟩ := sound_of_ready h mem
  rw [← hkey] at waiting ⊢
  rw [hret]
  exact .takePrimary (g := s.ledger) waiting hmem hexec

theorem takeStage_follows {key : Nat} {value : Q} (h : P.Tracked s)
    (mem : (key, value) ∈ s.stageReady) (waiting : P.consumer.op s.consumer = .takeStage key) :
    P.Follows s.ledger { s.ledger with
      consumer := P.consumer.afterTakeStage s.consumer value
      stageConsumed := key :: s.stageConsumed } := by
  obtain ⟨payload, hmem, hexec⟩ := h.stageSound (key, value)
    (by simp only [State.stageValues, List.mem_append]; exact .inr mem)
  exact .takeStage (g := s.ledger) waiting hmem hexec

theorem discardBefore_follows {key : Nat}
    (waiting : P.consumer.op s.consumer = .discardBefore key) :
    P.Follows s.ledger { s.ledger with
      consumer := P.consumer.after s.consumer
      consumed := (s.ready.filter fun m => decide (m.key < key)).map Message.key ++
        s.consumed } := by
  refine .discardBefore (g := s.ledger) waiting fun k hk => ?_
  obtain ⟨m, hm, rfl⟩ := List.mem_map.mp hk
  simpa using (List.mem_filter.mp hm).2

end Operations

/-- A step of the coordinator is a step of the coordinator alone; the workers do not touch the
ledger while it runs. -/
theorem ledger_step {s t : State O S Q R σ} (h : P.Tracked s) (hstep : P.Step s t)
    (running : t.finished = none) : t.ledger = s.ledger ∨ P.Follows s.ledger t.ledger := by
  cases hstep
  case sendFails closed => exact absurd running closed
  case stageSendFails closed => exact absurd running closed
  case finish => simp at running
  case take message pre post _ waiting here =>
    exact .inr (take_follows h (by simp [here]) waiting)
  case discardBefore key _ waiting => exact .inr (discardBefore_follows waiting)
  case takePrimary message pre post _ waiting here =>
    exact .inr (takePrimary_follows h (by simp [here]) waiting)
  case retire lease pre post _ waiting here =>
    exact .inr (.retire (g := s.ledger) waiting here)
  case submit key lease payload pre post _ waiting here =>
    exact .inr (.submit (g := s.ledger) waiting here)
  case takeStage key value pre post _ waiting here =>
    exact .inr (takeStage_follows h (by simp [here]) waiting)
  case compute _ waiting => exact .inr (.compute (g := s.ledger) waiting)
  all_goals exact .inl rfl

private theorem Explained.step {start : σ} {s t : State O S Q R σ} (h : P.Explained start s)
    (tracked : P.Tracked s) (hstep : P.Step s t) : P.Explained start t := by
  have back : t.finished = none → s.finished = none := by
    cases hstep <;> simp_all
  refine ⟨fun hr => ?_, fun r hr => ?_⟩
  · rcases P.ledger_step tracked hstep hr with heq | hf
    · exact heq ▸ h.running (back hr)
    · exact (h.running (back hr)).tail hf
  · by_cases hs : s.finished = none
    · refine ⟨s.ledger, h.running hs, ?_⟩
      cases hstep <;> simp_all [State.ledger]
    · have heq : s.finished = t.finished ∧ s.submitted = t.submitted := by
        cases hstep <;> simp_all
      exact heq.2 ▸ h.finished r (heq.1 ▸ hr)

/-- Everything the runs keep. -/
structure Invariant (start : σ) (s : State O S Q R σ) : Prop where
  accounted : P.Accounted s
  counted : P.Counted s
  tracked : P.Tracked s
  explained : P.Explained start s

theorem Invariant.step {start : σ} {s t : State O S Q R σ} (h : P.Invariant start s)
    (hstep : P.Step s t) : P.Invariant start t :=
  ⟨h.accounted.step P hstep, h.counted.step P hstep, h.tracked.step P hstep,
    h.explained.step P h.tracked hstep⟩

theorem invariant_init (n : Nat) (start : σ) : P.Invariant start (P.init n start) :=
  ⟨P.accounted_init n start, P.counted_init n start, P.tracked_init n start,
    P.explained_init n start⟩

theorem reachable_invariant {n : Nat} {start : σ} {s : State O S Q R σ}
    (run : Reaches P.Step (P.init n start) s) : P.Invariant start s :=
  run.invariant (P.invariant_init n start) fun _ _ h hstep => h.step P hstep

/-- The coordinator of a reachable state is one it comes to alone, also when it has returned. -/
theorem reachable_consumer {n : Nat} {start : σ} {s : State O S Q R σ}
    (run : Reaches P.Step (P.init n start) s) :
    (∃ g, Reaches P.Follows ⟨start, [], [], [], []⟩ g ∧ g.consumer = s.consumer) ∧
      ∀ r, s.finished = some r → P.consumer.op s.consumer = .done r := by
  induction run with
  | refl => exact ⟨⟨_, .refl, rfl⟩, fun r h => by simp [init] at h⟩
  | @tail s t run step ih =>
    obtain ⟨halone, hdone⟩ := ih
    by_cases hrunning : t.finished = none
    · refine ⟨⟨_, (P.reachable_invariant (run.tail step)).explained.running hrunning, rfl⟩, ?_⟩
      intro r h
      rw [hrunning] at h
      cases h
    · have hsame : t.consumer = s.consumer := by
        cases step <;> simp_all
      rw [hsame]
      refine ⟨halone, fun r h => ?_⟩
      cases step
      case finish result running waiting =>
        obtain rfl := Option.some.inj h
        exact waiting
      all_goals simp_all

end Program

end Fbz.Pipeline
