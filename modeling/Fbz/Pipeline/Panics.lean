import Mathlib.Algebra.Order.BigOperators.Group.List
import Mathlib.Algebra.Order.Group.Nat
import Fbz.Pipeline.Progress

/-!
# Panicking jobs

A worker that panics sends nothing, and the senders of both channels live until the call returns:
a coordinator that waits for the lost result waits for good. With a coordinator that asks only for
what is there, this and a pool without living workers are the only ways not to return.
-/

namespace Fbz.Pipeline

open Transition
set_option linter.unusedSimpArgs false

variable {T O S Q R σ : Type}

namespace Program

variable {P : Program T O S Q R σ}

/-- The coordinator is blocked in `take`, `take_primary` or `take_stage` and no run goes on. -/
def WaitsForever (P : Program T O S Q R σ) (s : State O S Q R σ) : Prop :=
  (∃ key, P.consumer.op s.consumer = .take key ∨ P.consumer.op s.consumer = .takePrimary key ∨
    P.consumer.op s.consumer = .takeStage key) ∧
  ∀ t, Reaches P.Step s t → t.finished = none ∧ t.consumer = s.consumer

section Waits

variable {n : Nat} {start : σ} {rank : σ → Nat} {s t : State O S Q R σ}

/-- While the result waited for is not in the map, the coordinator stays where it is. -/
theorem take_waits {key : Nat} (running : s.finished = none)
    (waiting : P.consumer.op s.consumer = .take key ∨ P.consumer.op s.consumer = .takePrimary key)
    (absent : ∀ m ∈ s.ready, m.key ≠ key) (step : P.Step s t) :
    t.finished = none ∧ t.consumer = s.consumer := by
  cases step
  case take message pre post _ asked here =>
    rcases waiting with h | h
    · exact absurd (Op.take.inj (asked.symm.trans h)) (absent message (by simp [here]))
    · simp [asked] at h
  case takePrimary message pre post _ asked here =>
    rcases waiting with h | h
    · simp [asked] at h
    · exact absurd (Op.takePrimary.inj (asked.symm.trans h)) (absent message (by simp [here]))
  all_goals first
    | exact ⟨running, rfl⟩
    | rcases waiting with h | h <;> simp_all

private theorem takeStage_waits {key : Nat} (running : s.finished = none)
    (waiting : P.consumer.op s.consumer = .takeStage key)
    (absent : ∀ r ∈ s.stageReady, r.1 ≠ key) (step : P.Step s t) :
    t.finished = none ∧ t.consumer = s.consumer ∧ t.submitted = s.submitted := by
  cases step
  case takeStage key' value pre post _ asked here =>
    exact absurd (Op.takeStage.inj (asked.symm.trans waiting)) (absent (key', value) (by simp [here]))
  all_goals first
    | exact ⟨running, rfl, rfl⟩
    | simp_all

private theorem ended_step (dead : ∀ w ∈ s.workers, w.ended = true)
    (step : P.Step s t) (same : t.consumer = s.consumer)
    (waiting : ∃ key, P.consumer.op s.consumer = .take key ∨
      P.consumer.op s.consumer = .takePrimary key ∨ P.consumer.op s.consumer = .takeStage key) :
    t.workers = s.workers ∧ t.channel ++ t.ready ⊆ s.channel ++ s.ready ∧
      t.stageChannel ++ t.stageReady ⊆ s.stageChannel ++ s.stageReady := by
  have ended : ∀ {pre post : List (Worker O S Q)} {w}, s.workers = pre ++ w :: post →
      w.ended = false → False := fun {pre post w} here hend => by
    have := dead w (by rw [here]; simp)
    rw [hend] at this
    cases this
  have asking : (P.asking : Worker O S Q).ended = false := by
    rcases P.asking_eq with ha | ha <;> rw [ha] <;> rfl
  obtain ⟨key, waiting⟩ := waiting
  cases step
  case grant here _ => exact absurd asking (by simpa using fun h => ended here h)
  case stop here _ => exact absurd asking (by simpa using fun h => ended here h)
  case receiveStage w message rest staged here looking queue =>
    rcases looking with rfl | rfl <;> exact absurd rfl fun h => ended here h
  case receive message rest _ _ _ queue => simp [queue, List.subset_def]; grind
  case receiveStaged result rest _ _ _ queue => simp [queue, List.subset_def]; grind
  all_goals first
    | exact absurd rfl fun h => ended (by assumption) h
    | (simp_all [List.subset_def]; done)
    | (simp_all [List.subset_def]; grind)

private theorem leaked_le (ws : List (Worker O S Q)) :
    (ws.flatMap Worker.leaked).sum ≤ (ws.map P.workerBytes).sum ∧
      (ws.flatMap Worker.leaked).length ≤ (ws.map Worker.slots).sum := by
  induction ws with
  | nil => simp
  | cons w ws ih =>
    obtain ⟨hbytes, hslots⟩ := ih
    cases w <;>
      simp only [List.flatMap_cons, List.map_cons, List.sum_cons, List.sum_append,
        List.length_append, List.length_cons, List.length_nil, List.sum_nil, Worker.leaked,
        Worker.slots, workerBytes] <;> omega

/-- A job that finds no room beside what has leaked is never admitted. -/
theorem starved_step (accounted : P.Accounted s) (starved : P.Starved s) (step : P.Step s t) :
    t.budget.next = s.budget.next ∧ P.Starved t := by
  obtain ⟨job, hjob, hfull⟩ := starved
  have grows : t.budget.next = s.budget.next ∧ s.leaked.Sublist t.leaked := by
    cases step
    case grant index budget here room =>
      obtain ⟨-, -, job', hjob', hfits, -⟩ := P.request_eq_ready.mp room
      obtain rfl := Option.some.inj (hjob.symm.trans hjob')
      have hfits := Budget.fits_iff.mp hfits
      obtain ⟨hbytes, hslots⟩ := @leaked_le _ _ _ _ _ _ P s.workers
      have hb := accounted.bytes
      have hs := accounted.slots
      have hle := accounted.bytes_le
      rw [accounted.limit, accounted.maxActive] at hfits
      rw [accounted.limit] at hle
      rw [chargedBytes] at hb
      rw [State.chargedSlots] at hs
      rw [State.leaked] at hfull
      omega
    case stop here none_left =>
      rcases P.asking_eq with ha | ha <;> rw [ha] at here <;>
        simp [State.leaked, here, Worker.leaked]
    case receiveStage w message rest staged here looking queue =>
      rcases looking with rfl | rfl <;> simp [State.leaked, here, Worker.leaked]
    case discardBefore => simp [State.leaked, retire_fold_next]
    all_goals
      simp_all [State.leaked, Worker.leaked, Budget.retire, Budget.complete, Budget.cancel]
  obtain ⟨hnext, hsub⟩ := grows
  refine ⟨hnext, job, hnext ▸ hjob, ?_⟩
  have := hsub.length_le
  have := hsub.sum_le_sum fun _ _ => Nat.zero_le _
  omega

/-- A doomed coordinator makes no step, and stays doomed. -/
theorem doomed_step (inv : P.Invariant start s) (inv' : P.Invariant start t)
    (nodup : (P.jobs.map Job.key).Nodup) (distinct : (s.submitted.map Prod.fst).Nodup)
    (doomed : P.Doomed s) (step : P.Step s t) :
    P.Doomed t ∧ t.consumer = s.consumer ∧ t.submitted = s.submitted := by
  obtain ⟨running, wait⟩ := doomed
  have waits : ∀ key, (P.consumer.op s.consumer = .take key ∨
      P.consumer.op s.consumer = .takePrimary key) →
      ((∃ job ∈ P.jobs, job.key = key ∧ P.execute job.payload = none) ∨
        (∀ m ∈ s.channel ++ s.ready, m.key ≠ key) ∧
          ((∀ w ∈ s.workers, w.ended = true) ∨
            key ∉ (P.jobs.take s.budget.next).map Job.key ∧ P.Starved s)) →
      (t.finished = none ∧ t.consumer = s.consumer) ∧
      ((∃ job ∈ P.jobs, job.key = key ∧ P.execute job.payload = none) ∨
        (∀ m ∈ t.channel ++ t.ready, m.key ≠ key) ∧
          ((∀ w ∈ t.workers, w.ended = true) ∨
            key ∉ (P.jobs.take t.budget.next).map Job.key ∧ P.Starved t)) := by
    rintro key waiting (⟨job, hj, hkey, hnone⟩ | ⟨undelivered, why⟩)
    · refine ⟨take_waits running waiting (fun m hm heq => ?_) step, .inl ⟨job, hj, hkey, hnone⟩⟩
      obtain ⟨job', hj', hkey', hexec, -⟩ := sound_of_ready inv.tracked hm
      obtain rfl := List.inj_on_of_nodup_map nodup hj hj' (by rw [hkey, hkey', heq])
      simp [hnone] at hexec
    · obtain ⟨hfin, hsame⟩ := take_waits running waiting
        (fun m hm => undelivered m (List.mem_append_right _ hm)) step
      refine ⟨⟨hfin, hsame⟩, .inr ?_⟩
      rcases why with dead | ⟨unadmitted, starved⟩
      · obtain ⟨hworkers, hsub, -⟩ := ended_step dead step hsame
          ⟨key, waiting.elim .inl fun h => .inr (.inl h)⟩
        exact ⟨fun m hm => undelivered m (hsub hm), .inl (hworkers ▸ dead)⟩
      · obtain ⟨hnext, hstarved⟩ := starved_step inv.accounted starved step
        rw [← hnext] at unadmitted
        exact ⟨undelivered_of_unadmitted inv'.counted unadmitted, .inr ⟨unadmitted, hstarved⟩⟩
  have same_submitted : ∀ key, (P.consumer.op s.consumer = .take key ∨
      P.consumer.op s.consumer = .takePrimary key) → t.submitted = s.submitted := by
    intro key waiting
    cases step
    case submit _ asked _ => simp [asked] at waiting
    all_goals rfl
  cases hop : P.consumer.op s.consumer with
  | take key | takePrimary key =>
    rw [hop] at wait
    obtain ⟨⟨hfin, hsame⟩, hwait⟩ := waits key (by simp [hop]) wait
    refine ⟨⟨hfin, ?_⟩, hsame, same_submitted key (by simp [hop])⟩
    rw [hsame, hop]
    exact hwait
  | takeStage key =>
    rw [hop] at wait
    have absent : ∀ r ∈ s.stageReady, r.1 ≠ key := by
      rcases wait with ⟨payload, hmem, hnone⟩ | ⟨undelivered, -⟩
      · intro r hr heq
        obtain ⟨payload', hmem', hexec⟩ := inv.tracked.stageSound r
          (by simp only [State.stageValues, List.mem_append]; exact .inr hr)
        have := List.inj_on_of_nodup_map distinct hmem hmem' (by simp [heq])
        obtain rfl := (Prod.mk.inj this).2
        simp [hnone] at hexec
      · exact fun r hr => undelivered r (List.mem_append_right _ hr)
    obtain ⟨hfin, hsame, hsubmitted⟩ := takeStage_waits running hop absent step
    refine ⟨⟨hfin, ?_⟩, hsame, hsubmitted⟩
    rw [hsame, hop]
    rcases wait with hpanics | ⟨undelivered, dead⟩
    · exact .inl (hsubmitted ▸ hpanics)
    · obtain ⟨hworkers, -, hsub⟩ := ended_step dead step hsame ⟨key, .inr (.inr hop)⟩
      exact .inr ⟨fun r hr => undelivered r (hsub hr), hworkers ▸ dead⟩
  | compute | discardBefore | retire | submit | done => rw [hop] at wait; exact wait.elim

/-- From a doomed state no run returns. -/
theorem doomed_forever (inv : P.Invariant start s) (nodup : (P.jobs.map Job.key).Nodup)
    (distinct : (s.submitted.map Prod.fst).Nodup) (doomed : P.Doomed s) : P.WaitsForever s := by
  refine ⟨?_, fun t run => ?_⟩
  · obtain ⟨-, wait⟩ := doomed
    cases hop : P.consumer.op s.consumer with
    | take key => exact ⟨key, .inl rfl⟩
    | takePrimary key => exact ⟨key, .inr (.inl rfl)⟩
    | takeStage key => exact ⟨key, .inr (.inr rfl)⟩
    | compute | discardBefore | retire | submit | done => rw [hop] at wait; exact wait.elim
  · have key : P.Invariant start t ∧ P.Doomed t ∧ t.consumer = s.consumer ∧
        t.submitted = s.submitted := by
      induction run with
      | refl => exact ⟨inv, doomed, rfl, rfl⟩
      | tail _ step ih =>
        obtain ⟨hinv, hdoomed, hsame, hsubmitted⟩ := ih
        have hinv' := hinv.step P step
        obtain ⟨h1, h2, h3⟩ :=
          doomed_step hinv hinv' nodup (hsubmitted ▸ distinct) hdoomed step
        exact ⟨hinv', h1, h2.trans hsame, h3.trans hsubmitted⟩
    exact ⟨key.2.1.1, key.2.2.1⟩

private theorem Guided.returns_or_doomed (hg : P.Guided start rank) :
    Inevitable P.Step (fun s => Returned s ∨ P.Doomed s) (P.init n start) := by
  refine Inevitable.of_measure (I := fun s => P.Invariant start s ∧ P.Phased n s)
    (P.measure rank) (fun s t hs step => ?_) (fun s t hs step => ?_) (fun s hs hopen => ?_)
    ⟨P.invariant_init n start, P.phased_init n start⟩
  · exact ⟨hs.1.step P step, hs.2.step P hs.1.tracked step⟩
  · exact P.measure_step hs.1.tracked
      (fun running g hg' => hg.descends _ g (hs.1.explained.running running) hg') step
  · obtain ⟨open_call, hope⟩ := not_or.mp hopen
    exact hg.progress hs.1 hs.2 open_call hope

theorem WaitsForever.not_returns (stuck : P.WaitsForever s)
    (run : Reaches P.Step (P.init n start) s) : ¬ Inevitable P.Step Returned (P.init n start) := by
  intro returns
  have here := returns.of_reaches (fun _ _ h step => absurd step h.not_step) run
  obtain ⟨t, hrun, hreturned⟩ := here.exists_reaches
  exact hreturned.1 (stuck.2 t hrun).1

/-- Who waits for the result of a job that is not on the list waits for good. -/
theorem missing_waits {key : Nat} (run : Reaches P.Step (P.init n start) s)
    (running : s.finished = none)
    (waiting : P.consumer.op s.consumer = .take key ∨ P.consumer.op s.consumer = .takePrimary key)
    (missing : key ∉ P.jobs.map Job.key) : P.WaitsForever s := by
  refine ⟨⟨key, waiting.imp_right .inl⟩, ?_⟩
  intro t more
  induction more with
  | refl => exact ⟨running, rfl⟩
  | @tail u t more step ih =>
    obtain ⟨hrunning, hsame⟩ := ih
    have htracked := (P.reachable_invariant (run.trans more)).tracked
    rw [← hsame] at waiting
    have hstay := take_waits hrunning waiting (fun m hm heq => ?_) step
    · exact ⟨hstay.1, hstay.2.trans hsame⟩
    · obtain ⟨job, hjob, hkey, -⟩ := sound_of_ready htracked hm
      exact missing (List.mem_map.mpr ⟨job, hjob, hkey.trans heq⟩)

/-- Every run returns, and no state waits forever. -/
def AlwaysReturns (P : Program T O S Q R σ) (n : Nat) (start : σ) : Prop :=
  Inevitable P.Step Returned (P.init n start) ∧
    ∀ s, Reaches P.Step (P.init n start) s → ¬ P.WaitsForever s

theorem Guided.returns_iff_hope (hg : P.Guided start rank)
    (distinct : ∀ g, Reaches P.Follows ⟨start, [], [], [], []⟩ g →
      (g.submitted.map Prod.fst).Nodup) :
    P.AlwaysReturns n start ↔ ∀ s, Reaches P.Step (P.init n start) s → ¬ P.Doomed s := by
  constructor
  · intro h s run doomed
    obtain ⟨inv, -⟩ := reachable_phased run
    exact h.2 s run (doomed_forever inv hg.keys_nodup
      (distinct _ (inv.explained.running doomed.1)) doomed)
  · intro hope
    have returns : Inevitable P.Step Returned (P.init n start) :=
      hg.returns_or_doomed.strengthen fun t run h => h.resolve_right (hope t run)
    exact ⟨returns, fun s run stuck => stuck.not_returns run returns⟩

end Waits

end Program

end Fbz.Pipeline
