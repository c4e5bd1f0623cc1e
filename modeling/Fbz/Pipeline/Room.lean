import Fbz.Pipeline.Sweep

/-!
# Room for the job the coordinator waits for

A schedule may hold back fewer workers than there are, each with the result of a job the
coordinator skips. Where such leftovers and the jobs in between leave no room, the coordinator
waits forever; so a sweeping coordinator returns under every schedule exactly when each of its
questions is served.
-/

namespace Fbz.Pipeline

open Transition
set_option linter.unusedSimpArgs false

variable {T O S Q R σ : Type}

namespace Program

variable {P : Program T O S Q R σ} {start : σ} {rank : σ → Nat} {n : Nat} {s t : State O S Q R σ}

private theorem take_waits_consumed {key : Nat} (running : s.finished = none)
    (waiting : P.consumer.op s.consumer = .take key) (absent : ∀ m ∈ s.ready, m.key ≠ key)
    (step : P.Step s t) : t.consumed = s.consumed := by
  cases step
  case take message pre post _ asked here =>
    exact absurd (Op.take.inj (asked.symm.trans waiting)) (absent message (by simp [here]))
  all_goals first
    | rfl
    | simp_all

private theorem next_step (step : P.Step s t) : t.budget.next = s.budget.next ∨
    t.budget.next = s.budget.next + 1 ∧ (∃ pre post, s.workers = pre ++ P.asking :: post) ∧
      ∃ job, P.jobs[s.budget.next]? = some job ∧ s.budget.fits job.reservation = true := by
  cases step
  case grant pre post index budget here room =>
    obtain ⟨-, -, job, hjob, hfits, rfl⟩ := P.request_eq_ready.mp room
    exact .inr ⟨rfl, ⟨pre, post, here⟩, job, hjob, hfits⟩
  case discardBefore => exact .inl (by simp [retire_fold_next])
  all_goals exact .inl rfl

section Waits

variable (hs : P.Sweeps start rank)
include hs

private theorem Sweeps.waits_of_refused (run : Reaches P.Step (P.init n start) s)
    (running : s.finished = none) {key : Nat} (waiting : P.consumer.op s.consumer = .take key)
    {pre post : List (Job T)} {job : Job T} (split : P.jobs = pre ++ job :: post)
    (le : job.key ≤ key) (later : s.budget.next ≤ pre.length)
    (refused : ∀ t u, P.Swept n start t → t.finished = none → t.consumed = s.consumed →
      t.budget.next = pre.length → P.Step t u → u.budget.next = t.budget.next) :
    P.WaitsForever s := by
  refine ⟨⟨key, .inl waiting⟩, fun t more => ?_⟩
  have kept : t.finished = none ∧ t.consumer = s.consumer ∧ t.consumed = s.consumed ∧
      t.budget.next ≤ pre.length := by
    induction more with
    | refl => exact ⟨running, rfl, rfl, later⟩
    | @tail u v more step ih =>
      obtain ⟨hrun, hsame, hconsumed, hnext⟩ := ih
      have swept := hs.swept (run.trans more)
      have absent : ∀ m ∈ u.ready, m.key ≠ key := fun m hm heq => by
        have := admitted_lt swept.inv hs.keys_sorted split hnext (show m.key ∈ P.keys u by
          simp only [Program.keys, List.mem_append, List.mem_map]
          exact .inl (.inr ⟨m, hm, rfl⟩))
        omega
      rw [← hsame] at waiting
      obtain ⟨hrun', hsame'⟩ := take_waits hrun (.inl waiting) absent step
      refine ⟨hrun', hsame'.trans hsame,
        (take_waits_consumed hrun waiting absent step).trans hconsumed, ?_⟩
      rcases Nat.lt_or_eq_of_le hnext with hlt | heq
      · rcases next_step step with h | ⟨h, -⟩ <;> omega
      · rw [refused u v swept hrun hconsumed heq step]
        exact hnext
  exact ⟨kept.1, kept.2.1⟩

private theorem Sweeps.waits_of_full (run : Reaches P.Step (P.init n start) s)
    (running : s.finished = none) {key : Nat} (waiting : P.consumer.op s.consumer = .take key)
    {pre post : List (Job T)} {job : Job T} (split : P.jobs = pre ++ job :: post)
    (le : job.key ≤ key) (later : s.budget.next ≤ pre.length)
    (full : P.limits.active ≤ (unconsumed s pre).length ∨
      P.limits.memory < ((unconsumed s pre).map P.charge).sum + job.reservation) :
    P.WaitsForever s := by
  refine hs.waits_of_refused run running waiting split le later
    fun t u swept _ consumed next step => ?_
  refine (next_step step).resolve_right fun ⟨_, _, job', hjob, hfits⟩ => ?_
  obtain rfl : job' = job := by
    rw [next, split, List.getElem?_append_right (Nat.le_refl _), Nat.sub_self] at hjob
    exact (Option.some.inj hjob).symm
  obtain ⟨hbytes, -, hslots⟩ := charged hs.keys_nodup swept.inv swept.phased swept.plain
  have hsame : unconsumed t (P.jobs.take t.budget.next) = unconsumed s pre := by
    rw [next, split, List.take_left, unconsumed, unconsumed, consumed]
  have hlimit := swept.inv.accounted.bytes_le
  have hfits := Budget.fits_iff.mp hfits
  rw [hsame] at hbytes hslots
  rw [swept.inv.accounted.maxActive, swept.inv.accounted.limit] at hfits
  rw [swept.inv.accounted.limit] at hlimit
  omega

private theorem Sweeps.panicking_held (swept : P.Swept n start s) (running : s.finished = none)
    {job : Job T} (mem : job ∈ P.jobs.take s.budget.next) (panics : P.panics job = true) :
    job.key ∈ P.held s := by
  have hjob := List.mem_of_mem_take mem
  have never : ∀ key, (∃ other ∈ P.jobs, other.key = key ∧ P.panics other = false) →
      key ≠ job.key := by
    rintro key ⟨other, hother, rfl, hruns⟩ heq
    obtain rfl := List.inj_on_of_nodup_map hs.keys_nodup hother hjob heq
    rw [panics] at hruns
    cases hruns
  have hkeys : job.key ∈ P.keys s := by
    rw [← List.count_pos_iff, swept.inv.counted.keys, List.count_pos_iff]
    exact List.mem_map_of_mem mem
  obtain ⟨w, -, tied⟩ := swept.tied running
  simp only [Program.keys, List.mem_append, List.mem_map] at hkeys
  rcases hkeys with ((h | ⟨m, hm, h⟩) | ⟨m, hm, h⟩) | h
  · exact h
  · exact absurd h (never _ (executed_of_sound (swept.inv.tracked.sound m
      (by simp [State.messages, hm]))))
  · exact absurd h (never _ (executed_of_sound (sound_of_ready swept.inv.tracked hm)))
  · exact absurd rfl (never _ (tied.executed _ h))

/-- Once as many jobs panic as there are workers, nobody is left to look for the next one. -/
theorem Sweeps.waits_of_understaffed (run : Reaches P.Step (P.init n start) s)
    (running : s.finished = none) {pre post : List (Job T)} {job : Job T}
    (split : P.jobs = pre ++ job :: post) (waiting : P.consumer.op s.consumer = .take job.key)
    (later : s.budget.next ≤ pre.length)
    (fallen : n ≤ (P.jobs.filter fun j => decide (j.key < job.key) && P.panics j).length) :
    P.WaitsForever s := by
  refine hs.waits_of_refused run running waiting split (Nat.le_refl _) later
    fun t u swept hrun _ next step => ?_
  refine (next_step step).resolve_right fun ⟨_, ⟨front, back, here⟩, _⟩ => ?_
  have hsub : (P.jobs.filter fun j => decide (j.key < job.key) && P.panics j).map Job.key ⊆
      P.held t := fun k hk => by
    obtain ⟨j, hj, rfl⟩ := List.mem_map.mp hk
    obtain ⟨hmem, hj⟩ := List.mem_filter.mp hj
    simp only [Bool.and_eq_true, decide_eq_true_eq] at hj
    refine hs.panicking_held swept hrun ?_ hj.2
    have hin : j ∈ pre := by
      rw [split, List.mem_append, List.mem_cons] at hmem
      refine hmem.resolve_right fun h => ?_
      rcases h with rfl | h
      · omega
      · obtain ⟨mid, back, rfl⟩ := List.append_of_mem h
        have := key_lt_of_sorted hs.keys_sorted
          (split.trans (List.append_assoc pre (job :: mid) (j :: back)).symm)
          (show job ∈ pre ++ job :: mid by simp)
        omega
    rw [next, split, List.take_left]
    exact hin
  have hnodup : ((P.jobs.filter fun j =>
      decide (j.key < job.key) && P.panics j).map Job.key).Nodup :=
    hs.keys_nodup.sublist (List.filter_sublist.map _)
  have hle := (List.subperm_of_subset hnodup hsub).length_le
  have hfront := held_length_le (P := P) front
  have hback := held_length_le (P := P) back
  have hcount := swept.phased.count
  have hasking : P.workerKeys (P.asking : Worker O S Q) = [] := by
    rcases P.asking_eq with ha | ha <;> rw [ha] <;> rfl
  rw [here, List.length_append, List.length_cons] at hcount
  rw [held, here, List.flatMap_append, List.flatMap_cons, hasking, List.length_map] at hle
  simp only [List.length_append, List.length_nil] at hle
  omega

private theorem Sweeps.waits_of_panic (run : Reaches P.Step (P.init n start) s)
    (running : s.finished = none) {job : Job T} (mem : job ∈ P.jobs)
    (waiting : P.consumer.op s.consumer = .take job.key) (panics : P.panics job = true) :
    P.WaitsForever s := by
  have swept := hs.swept run
  refine doomed_forever swept.inv hs.keys_nodup (by rw [swept.plain.submitted]; exact .nil)
    ⟨running, ?_⟩
  rw [waiting]
  exact .inl ⟨job, mem, rfl, by simpa [Program.panics] using panics⟩

end Waits

/-- The worker of the job does not deliver: it is held back, or the job panics. -/
def withheld (P : Program T O S Q R σ) (hold : Nat → Bool) (job : Job T) : Bool :=
  hold job.key || P.panics job

/-- A state in which nothing moves: the workers of withheld jobs stand before all others, which
look for work. -/
structure Parked (P : Program T O S Q R σ) (n : Nat) (hold : Nat → Bool) (s : State O S Q R σ) :
    Prop where
  running : s.finished = none
  channel : s.channel = []
  workers : ∃ front : List (Worker O S Q),
    s.workers = front ++ List.replicate (n - front.length) .idle ∧
      (∀ index, .executing index ∉ front) ∧
      front.flatMap P.workerKeys =
        ((P.jobs.take s.budget.next).filter (P.withheld hold)).map Job.key ∧
      front.length = ((P.jobs.take s.budget.next).filter (P.withheld hold)).length

private theorem parked_init (hold : Nat → Bool) : P.Parked n hold (P.init n start) :=
  ⟨rfl, rfl, [], by simp [init], by simp, by simp [init, Budget.new], by simp [init, Budget.new]⟩

private theorem Parked.settled {hold : Nat → Bool} (h : P.Parked n hold s) :
    ∀ index, .executing index ∉ s.workers := fun index hw => by
  obtain ⟨front, heq, hnone, -⟩ := h.workers
  rw [heq, List.mem_append] at hw
  rcases hw with hw | hw
  · exact hnone index hw
  · cases (List.mem_replicate.mp hw).2

section Schedules

variable (hs : P.Sweeps start rank) {hold : Nat → Bool}
include hs

private theorem Sweeps.asking : (P.asking : Worker O S Q) = .idle := by
  rw [Program.asking, if_neg (by simp [hs.unstaged])]

/-- The next job is admitted and its worker runs as far as it is let. -/
theorem Sweeps.admit (parked : P.Parked n hold s) (cancelled : s.budget.cancelled = false)
    {key : Nat} (waiting : P.consumer.op s.consumer = .take key)
    (absent : ∀ m ∈ s.ready, m.key ≠ key) {job : Job T}
    (next : P.jobs[s.budget.next]? = some job) (fits : s.budget.fits job.reservation = true)
    (free : ((P.jobs.take s.budget.next).filter (P.withheld hold)).length < n) :
    ∃ t, Reaches P.Step s t ∧ P.Parked n hold t ∧ t.consumer = s.consumer ∧
      t.consumed = s.consumed ∧ t.budget.next = s.budget.next + 1 ∧
      (P.withheld hold job = false → ∃ m ∈ t.ready, m.key = job.key) ∧
      (P.withheld hold job = true → t.ready = s.ready) := by
  obtain ⟨running, channel, front, here, settled, hkeys, hlength⟩ := parked
  have htake : P.jobs.take (s.budget.next + 1) = P.jobs.take s.budget.next ++ [job] := by
    rw [List.take_add_one, next, Option.toList_some]
  obtain ⟨m, hm⟩ : ∃ m, n - front.length = m + 1 := ⟨n - front.length - 1, by omega⟩
  rw [hm, List.replicate_succ] at here
  have room := P.request_eq_ready.mpr ⟨cancelled, rfl, job, next, fits, rfl⟩
  have grant := Step.grant (by rw [hs.asking]; exact here) room
  -- the worker is done with the job, and keeps what it has
  have keep : ∀ (b : Budget) (w : Worker O S Q), b.next = s.budget.next + 1 →
      (∀ index, w ≠ .executing index) → P.workerKeys w = [job.key] →
      P.withheld hold job = true →
      P.Parked n hold { s with budget := b, workers := front ++ w :: List.replicate m .idle } :=
    fun b w hnext hw hkey hwithheld => by
      refine ⟨running, channel, front ++ [w], ?_, fun index hmem => ?_, ?_, ?_⟩
      · simp only [List.append_assoc, List.singleton_append, List.length_append,
          List.length_cons, List.length_nil]
        rw [show n - (front.length + (0 + 1)) = m by omega]
      · rcases List.mem_append.mp hmem with h | h
        · exact settled index h
        · exact hw index (List.mem_singleton.mp h).symm
      · rw [hnext, htake, List.filter_append, List.map_append, List.flatMap_append, hkeys]
        simp [hwithheld, hkey]
      · rw [hnext, htake, List.filter_append, List.length_append, List.length_append, hlength]
        simp [hwithheld]
  cases hexec : P.execute job.payload with
  | none =>
    have hpanics : P.withheld hold job = true := by simp [withheld, panics, hexec]
    refine ⟨_, .tail (.single grant) (.panic rfl next hexec), keep _ _ rfl
      (fun _ h => by cases h) ?_ hpanics, rfl, rfl, rfl, by simp [hpanics], fun _ => rfl⟩
    simp [workerKeys, keyAt, next]
  | some value =>
    have complete : Reaches P.Step s _ := .tail (.single grant) (.complete rfl next hexec)
    cases hheld : P.withheld hold job with
    | true =>
      exact ⟨_, complete, keep _ _ rfl (fun _ h => by cases h) rfl hheld, rfl, rfl, rfl,
        (fun h => by cases h), fun _ => rfl⟩
    | false =>
      have sent : Reaches P.Step s _ := complete.tail (.send rfl running)
      refine ⟨_, sent.tail (.receive running (.inl waiting) absent
        (show _ = _ :: [] by rw [channel]; rfl)), ⟨running, rfl, front, ?_, settled, ?_, ?_⟩, rfl,
        rfl, rfl, fun _ => ⟨_, List.mem_cons_self, rfl⟩, fun h => by cases h⟩
      · show front ++ .idle :: List.replicate m .idle = _
        rw [hm, List.replicate_succ]
      · show _ = ((P.jobs.take (s.budget.next + 1)).filter (P.withheld hold)).map Job.key
        rw [htake, List.filter_append, hkeys]
        simp [hheld]
      · show _ = ((P.jobs.take (s.budget.next + 1)).filter (P.withheld hold)).length
        rw [htake, List.filter_append, hlength]
        simp [hheld]

private theorem Sweeps.fits_or_waits (run : Reaches P.Step (P.init n start) s)
    (parked : P.Parked n hold s) {key : Nat} (waiting : P.consumer.op s.consumer = .take key)
    {pre post : List (Job T)} {job : Job T} (split : P.jobs = pre ++ job :: post)
    (le : job.key ≤ key) (next : s.budget.next = pre.length) :
    s.budget.fits job.reservation = true ∨ P.WaitsForever s := by
  cases hfits : s.budget.fits job.reservation with
  | true => exact .inl rfl
  | false =>
    refine .inr (hs.waits_of_full run parked.running waiting split le (Nat.le_of_eq next) ?_)
    have swept := hs.swept run
    obtain ⟨-, hbytes, hslots⟩ := charged hs.keys_nodup swept.inv swept.phased swept.plain
    have hbytes := hbytes parked.settled
    have hle := swept.inv.accounted.bytes_le
    have hnot : ¬ (s.budget.active < s.budget.maxActive ∧
        job.reservation ≤ s.budget.limit - s.budget.reserved) := by
      rw [← Budget.fits_iff, hfits]
      exact Bool.false_ne_true
    rw [next, split, List.take_left] at hbytes hslots
    rw [swept.inv.accounted.limit] at hle
    rw [swept.inv.accounted.maxActive, swept.inv.accounted.limit] at hnot
    omega

/-- The jobs before the one asked for are admitted one after the other. -/
theorem Sweeps.walk (run : Reaches P.Step (P.init n start) s) (parked : P.Parked n hold s)
    {pre post : List (Job T)} {job : Job T} (split : P.jobs = pre ++ job :: post)
    (waiting : P.consumer.op s.consumer = .take job.key) (later : s.budget.next ≤ pre.length)
    (free : (pre.filter (P.withheld hold)).length < n) :
    (∃ t, Reaches P.Step (P.init n start) t ∧ P.WaitsForever t) ∨
      ∃ t, Reaches P.Step (P.init n start) t ∧ P.Parked n hold t ∧ t.consumer = s.consumer ∧
        t.budget.next = pre.length := by
  induction hd : pre.length - s.budget.next generalizing s with
  | zero => exact .inr ⟨s, run, parked, rfl, by omega⟩
  | succ d ih =>
    have hlt : s.budget.next < pre.length := by omega
    have hpre : pre = pre.take s.budget.next ++ pre[s.budget.next] ::
        pre.drop (s.budget.next + 1) := by
      rw [← List.drop_eq_getElem_cons, List.take_append_drop]
    have hsplit : P.jobs = pre.take s.budget.next ++ pre[s.budget.next] ::
        (pre.drop (s.budget.next + 1) ++ job :: post) := by
      rw [← List.cons_append, ← List.append_assoc, ← hpre, split]
    have hkey := Nat.le_of_lt
      (key_lt_of_sorted hs.keys_sorted split (List.getElem_mem (h := hlt)))
    have swept := hs.swept run
    have hlength : (pre.take s.budget.next).length = s.budget.next :=
      List.length_take_of_le later
    rcases hs.fits_or_waits run parked waiting hsplit hkey hlength.symm with fits | waits
    · obtain ⟨t, more, parked', same, -, next, -, -⟩ := hs.admit parked
        (by simpa [parked.running] using swept.inv.tracked.cancelled) waiting
        (fun m hm heq => Nat.ne_of_lt (admitted_lt swept.inv hs.keys_sorted split later
          (show m.key ∈ P.keys s by
            simp only [Program.keys, List.mem_append, List.mem_map]
            exact .inl (.inr ⟨m, hm, rfl⟩))) heq)
        (show P.jobs[s.budget.next]? = some pre[s.budget.next] by
          rw [split, List.getElem?_append_left hlt, List.getElem?_eq_getElem hlt]) fits (by
          refine Nat.lt_of_le_of_lt ?_ free
          rw [split, List.take_append_of_le_length later]
          exact ((List.take_sublist ..).filter _).length_le)
      rcases ih (run.trans more) parked' (same ▸ waiting) (by omega) (by omega) with h | h
      · exact .inl h
      · obtain ⟨u, hu, parkedu, hsame, hnext⟩ := h
        exact .inr ⟨u, hu, parkedu, hsame.trans same, hnext⟩
    · exact .inl ⟨s, run, waits⟩

/-- A state in which nothing moves, with the coordinator at `w` and the jobs admitted up to the
last one taken. -/
structure Standing (P : Program T O S Q R σ) (n : Nat) (start : σ) (hold : Nat → Bool)
    (w : Sweep σ) (s : State O S Q R σ) : Prop where
  run : Reaches P.Step (P.init n start) s
  parked : P.Parked n hold s
  consumer : s.consumer = w.consumer
  admitted : ∀ pre job post, P.jobs = pre ++ job :: post →
    (pre.length < s.budget.next ↔ w.ahead job = false)

/-- The order of the keys is that of the list. -/
theorem Sweeps.length_lt_iff {pre post pre' post' : List (Job T)} {job job' : Job T}
    (split : P.jobs = pre ++ job :: post) (split' : P.jobs = pre' ++ job' :: post') :
    pre.length ≤ pre'.length ↔ job.key ≤ job'.key := by
  have key_lt : ∀ {pre post pre' post' : List (Job T)} {job job' : Job T},
      P.jobs = pre ++ job :: post → P.jobs = pre' ++ job' :: post' → pre.length < pre'.length →
      job.key < job'.key := by
    intro pre post pre' post' job job' h h' hlt
    refine key_lt_of_sorted hs.keys_sorted h' (List.mem_of_getElem? (i := pre.length) ?_)
    have hpre : pre'[pre.length]? = (pre' ++ job' :: post')[pre.length]? :=
      (List.getElem?_append_left hlt).symm
    rw [hpre, ← h', h]
    simp
  constructor
  · intro hle
    rcases Nat.lt_or_eq_of_le hle with hlt | heq
    · exact Nat.le_of_lt (key_lt split split' hlt)
    · have := List.append_inj (split.symm.trans split') heq
      exact Nat.le_of_eq (congrArg Job.key (List.cons.inj this.2).1)
  · intro hle
    refine Nat.le_of_not_lt fun hlt => ?_
    have := key_lt split' split hlt
    omega

private theorem Sweeps.standing_take {w : Sweep σ} {job : Job T} {value : O}
    (alone : Reaches P.Sweeping ⟨start, [], 0⟩ w) (standing : P.Standing n start hold w s)
    (waiting : P.consumer.op w.consumer = .take job.key) (mem : job ∈ P.jobs)
    (result : P.execute job.payload = some value) (kept : hold job.key = false)
    (free : (P.jobs.filter fun j => decide (j.key ≤ job.key) && P.withheld hold j).length < n) :
    (∃ t, Reaches P.Step (P.init n start) t ∧ P.WaitsForever t) ∨
      ∃ t, P.Standing n start hold { w with
        consumer := P.consumer.afterTake w.consumer value, taken := job.key :: w.taken } t := by
  obtain ⟨pre, post, split⟩ := List.append_of_mem mem
  have order := hs.asks w job.key alone waiting
  have hahead : w.ahead job = true := List.all_eq_true.mpr fun k hk => by
    simpa using order.behind k hk
  have later : s.budget.next ≤ pre.length := Nat.le_of_not_lt fun hlt => by
    have := (standing.admitted pre job post split).mp hlt
    rw [hahead] at this
    cases this
  have few : (pre.filter (P.withheld hold)).length < n := by
    refine Nat.lt_of_le_of_lt (List.Sublist.length_le ?_) free
    have hpre : pre.filter (P.withheld hold) =
        pre.filter fun j => decide (j.key ≤ job.key) && P.withheld hold j :=
      List.filter_congr fun j hj => by
        have := key_lt_of_sorted hs.keys_sorted split hj
        simp [Nat.le_of_lt this]
    rw [hpre, split]
    exact (List.sublist_append_left _ _).filter _
  rcases hs.walk standing.run standing.parked split (standing.consumer ▸ waiting) later few with
    h | ⟨t, run, parked, same, next⟩
  · exact .inl h
  rw [← standing.consumer, ← same] at waiting
  rcases hs.fits_or_waits run parked waiting split (Nat.le_refl _) next with fits | waits
  · have swept := hs.swept run
    have runs : P.withheld hold job = false := by simp [withheld, kept, panics, result]
    obtain ⟨u, more, parked', same', -, next', delivered, -⟩ := hs.admit parked
      (by simpa [parked.running] using swept.inv.tracked.cancelled) waiting
      (fun m hm heq => Nat.ne_of_lt (admitted_lt swept.inv hs.keys_sorted split (Nat.le_of_eq next)
        (show m.key ∈ P.keys t by
          simp only [Program.keys, List.mem_append, List.mem_map]
          exact .inl (.inr ⟨m, hm, rfl⟩))) heq)
      (show P.jobs[t.budget.next]? = some job by
        rw [next, split, List.getElem?_append_right (Nat.le_refl _)]
        simp) fits
      (by rw [next, split, List.take_left]; exact few)
    obtain ⟨m, hm, hkey⟩ := delivered runs
    obtain ⟨job', hjob', hkey', hexec, -⟩ :=
      sound_of_ready (hs.swept (run.trans more)).inv.tracked hm
    obtain rfl := List.inj_on_of_nodup_map hs.keys_nodup hjob' mem (hkey'.trans hkey)
    obtain rfl := Option.some.inj (hexec.symm.trans result)
    obtain ⟨front, back, here⟩ := List.append_of_mem hm
    have asked : P.consumer.op u.consumer = .take m.key := by rw [same', hkey]; exact waiting
    refine .inr ⟨_, (run.trans more).tail (.take parked'.running asked here),
      ⟨parked'.running, parked'.channel, parked'.workers⟩, ?_, fun pre' other post' split' => ?_⟩
    · exact congrArg (P.consumer.afterTake · m.value) (same'.trans (same.trans standing.consumer))
    · show pre'.length < u.budget.next ↔ _
      rw [next', next, Nat.lt_succ_iff, hs.length_lt_iff split' split]
      simp only [Sweep.ahead, List.all_cons, Bool.and_eq_false_iff, decide_eq_false_iff_not,
        Nat.not_lt]
      refine ⟨.inl, fun h => h.elim id fun h => ?_⟩
      obtain ⟨k, hk, hle⟩ := List.all_eq_false.mp h
      have := order.behind k hk
      simp only [decide_eq_true_eq, Nat.not_lt] at hle
      omega
  · exact .inl ⟨t, run, waits⟩

omit hs in
private theorem ahead_take {w : Sweep σ} {key : Nat} (behind : ∀ k ∈ w.taken, k < key)
    (consumer : σ) (passed : Nat) (job : Job T) :
    (Sweep.mk consumer (key :: w.taken) passed).ahead job = decide (key < job.key) := by
  rw [Sweep.ahead, List.all_cons]
  by_cases h : key < job.key
  · have hall : (w.taken.all fun k => decide (k < job.key)) = true :=
      List.all_eq_true.mpr fun k hk => by
        have := behind k hk
        simp only [decide_eq_true_eq]
        omega
    rw [hall, Bool.and_true]
  · simp [h]

omit hs in
private theorem ahead_of_behind {w : Sweep σ} {key : Nat} (behind : ∀ k ∈ w.taken, k < key)
    {job : Job T} (le : key ≤ job.key) : w.ahead job = true :=
  List.all_eq_true.mpr fun k hk => by
    have := behind k hk
    simp only [decide_eq_true_eq]
    omega

/-- The coordinator is brought to where it gets alone, with the workers of the jobs in `hold` held
back, or waits forever before. -/
theorem Sweeps.reach {w : Sweep σ} (alone : Reaches P.Sweeping ⟨start, [], 0⟩ w)
    (kept : ∀ k ∈ w.taken, hold k = false)
    (free : w.taken ≠ [] →
      (P.jobs.filter fun job => !w.ahead job && P.withheld hold job).length < n) :
    (∃ t, Reaches P.Step (P.init n start) t ∧ P.WaitsForever t) ∨
      ∃ s, P.Standing n start hold w s := by
  induction alone with
  | refl =>
    exact .inr ⟨_, .refl, parked_init hold, rfl, fun pre job post _ => by
      simp [init, Budget.new, Sweep.ahead]⟩
  | @tail w w' alone step ih =>
    cases step with
    | compute waiting =>
      refine (ih kept free).imp_right fun h => ?_
      obtain ⟨s, run, parked, same, admitted⟩ := h
      exact ⟨_, run.tail (.compute parked.running (same ▸ waiting)), ⟨parked.running,
        parked.channel, parked.workers⟩, congrArg P.consumer.after same, admitted⟩
    | discardBefore waiting =>
      refine (ih kept free).imp_right fun h => ?_
      obtain ⟨s, run, parked, same, admitted⟩ := h
      refine ⟨_, run.tail (.discardBefore parked.running (same ▸ waiting)), ⟨parked.running,
        parked.channel, ?_⟩, congrArg P.consumer.after same, ?_⟩
      · simpa only [retire_fold_next] using parked.workers
      · simp only [retire_fold_next]
        exact admitted
    | @take job value waiting mem result =>
      have order := hs.asks w job.key alone waiting
      have few : (P.jobs.filter fun j =>
          decide (j.key ≤ job.key) && P.withheld hold j).length < n := by
        have := free (List.cons_ne_nil _ _)
        simpa only [ahead_take order.behind, ← Nat.not_lt, decide_not] using this
      have fewer : (P.jobs.filter fun j => !w.ahead j && P.withheld hold j).length < n := by
        refine Nat.lt_of_le_of_lt (List.Sublist.length_le
          (List.monotone_filter_right _ fun j hj => ?_)) few
        simp only [Bool.and_eq_true, Bool.not_eq_true', decide_eq_true_eq] at hj ⊢
        refine ⟨Nat.le_of_lt (Nat.lt_of_not_le fun hle => ?_), hj.2⟩
        rw [ahead_of_behind order.behind hle] at hj
        exact absurd hj.1 (by simp)
      rcases ih (fun k hk => kept k (List.mem_cons_of_mem _ hk)) fun _ => fewer with
        h | ⟨s, standing⟩
      · exact .inl h
      · exact hs.standing_take alone standing waiting mem result (kept _ List.mem_cons_self) few

omit hs in
private theorem taken_runs {w : Sweep σ} (alone : Reaches P.Sweeping ⟨start, [], 0⟩ w) :
    ∀ k ∈ w.taken, ∃ job ∈ P.jobs, job.key = k ∧ P.panics job = false := by
  induction alone with
  | refl => simp
  | tail _ step ih =>
    cases step with
    | compute | discardBefore => exact ih
    | @take job value _ mem result =>
      intro k hk
      rcases List.mem_cons.mp hk with rfl | hk
      · exact ⟨job, mem, rfl, by rw [panics, result]; rfl⟩
      · exact ih k hk

/-- Fewer jobs panic up to the last one taken than there are workers, or the coordinator waits
forever before. -/
theorem Sweeps.fallen_lt {w : Sweep σ} (alone : Reaches P.Sweeping ⟨start, [], 0⟩ w) :
    (∃ t, Reaches P.Step (P.init n start) t ∧ P.WaitsForever t) ∨
      (w.taken ≠ [] → (P.jobs.filter fun job =>
        !w.ahead job && P.withheld (fun _ => false) job).length < n) := by
  induction alone with
  | refl => exact .inr fun h => absurd rfl h
  | @tail w w' alone step ih =>
    cases step with
    | compute | discardBefore => exact ih
    | @take job value waiting mem result =>
      refine ih.elim .inl fun free => ?_
      rcases hs.reach alone (fun _ _ => rfl) free with h | ⟨s, standing⟩
      · exact .inl h
      obtain ⟨pre, post, split⟩ := List.append_of_mem mem
      have order := hs.asks w job.key alone waiting
      have later : s.budget.next ≤ pre.length := Nat.le_of_not_lt fun hlt => by
        have := (standing.admitted pre job post split).mp hlt
        rw [ahead_of_behind order.behind (Nat.le_refl _)] at this
        cases this
      by_cases fallen : n ≤ (P.jobs.filter fun j =>
          decide (j.key < job.key) && P.panics j).length
      · exact .inl ⟨s, standing.run, hs.waits_of_understaffed standing.run
          standing.parked.running split (standing.consumer ▸ waiting) later fallen⟩
      · refine .inr fun _ => Nat.lt_of_le_of_lt (List.Sublist.length_le ?_)
          (Nat.lt_of_not_le fallen)
        -- the job itself does not panic
        have same : (P.jobs.filter fun j => decide (j.key < job.key) && P.panics j) =
            P.jobs.filter fun j => decide (j.key ≤ job.key) && P.panics j :=
          List.filter_congr fun j hj => by
            rcases Nat.lt_trichotomy j.key job.key with h | h | h
            · simp [h, Nat.le_of_lt h]
            · obtain rfl := List.inj_on_of_nodup_map hs.keys_nodup hj mem h
              simp [panics, result]
            · simp [Nat.not_lt_of_lt h, Nat.not_le_of_lt h]
        rw [same]
        refine List.monotone_filter_right _ fun j hj => ?_
        simpa only [ahead_take order.behind, withheld, Bool.false_or, ← decide_not,
          Nat.not_lt] using hj

end Schedules

section Returns

variable (hs : P.Sweeps start rank)
include hs

/-- Where a question is not served, some schedule makes the coordinator wait forever. -/
theorem Sweeps.waits_of_unserved {w : Sweep σ} {key : Nat}
    (alone : Reaches P.Sweeping ⟨start, [], 0⟩ w) (waiting : P.consumer.op w.consumer = .take key)
    (unserved : ¬ P.Served n w key) :
    ∃ s, Reaches P.Step (P.init n start) s ∧ P.WaitsForever s := by
  by_contra never
  have order := hs.asks w key alone waiting
  obtain ⟨job, mem, rfl⟩ := List.mem_map.mp order.mem
  obtain ⟨pre, post, split⟩ := List.append_of_mem mem
  have hahead : w.ahead job = true := ahead_of_behind order.behind (Nat.le_refl _)
  have later : ∀ {hold s}, P.Standing n start hold w s → s.budget.next ≤ pre.length :=
    fun standing => Nat.le_of_not_lt fun hlt => by
      have := (standing.admitted pre job post split).mp hlt
      rw [hahead] at this
      cases this
  have free := (hs.fallen_lt alone).resolve_left never
  obtain ⟨s, standing⟩ := (hs.reach alone (fun _ _ => rfl) free).resolve_left never
  have asked : P.consumer.op s.consumer = .take job.key := standing.consumer ▸ waiting
  refine unserved ⟨fun other hother heq => ?_, ?_, fun late few pre' other post' split' le ahead => ?_⟩
  · obtain rfl := List.inj_on_of_nodup_map hs.keys_nodup hother mem heq
    by_contra hpanics
    exact never ⟨s, standing.run, hs.waits_of_panic standing.run standing.parked.running hother
      asked (by simpa using hpanics)⟩
  · by_contra fallen
    exact never ⟨s, standing.run, hs.waits_of_understaffed standing.run standing.parked.running
      split asked (later standing) (Nat.le_of_not_lt fallen)⟩
  · -- the skipped jobs that are late are held back
    have taken_panics : ∀ j ∈ P.jobs, j.key ∈ w.taken → P.panics j = false := fun j hj hk => by
      obtain ⟨other, hother, heq, hruns⟩ := taken_runs alone _ hk
      obtain rfl := List.inj_on_of_nodup_map hs.keys_nodup hother hj heq
      exact hruns
    have lags : ∀ j ∈ P.jobs, (!w.ahead j &&
        P.withheld (fun k => late k && decide (k ∉ w.taken)) j) = P.lagging w late j :=
      fun j hj => by
        by_cases hk : j.key ∈ w.taken
        · simp [withheld, lagging, Sweep.skipped, hk, taken_panics j hj hk]
        · simp [withheld, lagging, Sweep.skipped, hk]
    have hold_taken : ∀ k ∈ w.taken, (late k && decide (k ∉ w.taken)) = false :=
      fun k hk => by simp [hk]
    obtain ⟨s, standing⟩ := (hs.reach alone hold_taken fun _ => by
      rwa [List.filter_congr lags]).resolve_left never
    have swept := hs.swept standing.run
    have here : s.budget.next ≤ pre'.length := Nat.le_of_not_lt fun hlt => by
      have := (standing.admitted pre' other post' split').mp hlt
      rw [ahead] at this
      cases this
    -- everything outstanding is unconsumed
    have unconsumed_of : ∀ j ∈ P.jobs, (w.ahead j || P.lagging w late j) = true →
        j.key ∉ s.consumed := fun j hj out consumed => by
      obtain ⟨front, back, jsplit⟩ := List.append_of_mem hj
      have hkeys : j.key ∈ P.keys s := List.mem_append_right _ consumed
      have admitted : front.length < s.budget.next := Nat.lt_of_not_le fun hle =>
        Nat.lt_irrefl _ (admitted_lt swept.inv hs.keys_sorted jsplit hle hkeys)
      have behind := (standing.admitted front j back jsplit).mp admitted
      rw [behind, Bool.false_or, ← lags j hj, behind, Bool.not_false, Bool.true_and] at out
      obtain ⟨held, workers, -, hheld, -⟩ := standing.parked.workers
      have hmem : j.key ∈ P.held s := by
        rw [Program.held, workers, List.flatMap_append, hheld]
        exact List.mem_append_left _ (List.mem_map_of_mem
          (List.mem_filter.mpr ⟨mem_take_of_lt jsplit admitted, out⟩))
      have hcount := List.nodup_iff_count_le_one.mp (hs.nodup_keys swept.inv) j.key
      have hpos := List.count_pos_iff.mpr hmem
      have hpos' := List.count_pos_iff.mpr consumed
      simp only [Program.keys, Program.held, List.count_append] at hcount hpos
      omega
    have hsub : (P.outstanding w late pre').Sublist (unconsumed s pre') := by
      have : P.outstanding w late pre' = (P.outstanding w late pre').filter fun j =>
          decide (j.key ∉ s.consumed) :=
        (List.filter_eq_self.mpr fun j hj => by
          obtain ⟨hmem, out⟩ := List.mem_filter.mp hj
          simpa using unconsumed_of j (by rw [split']; exact List.mem_append_left _ hmem) out).symm
      rw [this]
      exact List.filter_sublist.filter _
    by_contra full
    have hlength := hsub.length_le
    have hsum := (hsub.map P.charge).sum_le_sum fun _ _ => Nat.zero_le _
    exact never ⟨s, standing.run, hs.waits_of_full standing.run standing.parked.running
      (standing.consumer ▸ waiting) split' le here (by omega)⟩

/-- The coordinator waits for a job that is not admitted, nothing is on its way to it, and the
budget has no room. -/
def Stuck (P : Program T O S Q R σ) (s : State O S Q R σ) : Prop :=
  s.finished = none ∧ ∃ key, P.consumer.op s.consumer = .take key ∧ s.channel = [] ∧
    (∀ w ∈ s.workers, w.busy = false) ∧ key ∈ P.jobs.map Job.key ∧
    key ∉ (P.jobs.take s.budget.next).map Job.key ∧ P.request s.budget = .pending

section Stuck

variable (executes : ∀ job ∈ P.jobs, P.panics job = false) (threads : 0 < n)
include executes threads

omit hs in
private theorem staffed_of_executes (key : Nat) :
    (P.jobs.filter fun job => decide (job.key < key) && P.panics job).length < n := by
  rw [List.filter_eq_nil_iff.mpr fun job hj => by simp [executes job hj]]
  exact threads

/-- A coordinator without panics that waits and has no step left to wait for is stuck. -/
theorem Sweeps.stuck_of_no_step (run : Reaches P.Step (P.init n start) s)
    (running : s.finished = none) {key : Nat} (waiting : P.consumer.op s.consumer = .take key)
    (no_step : ∀ t, ¬ P.Step s t) : P.Stuck s := by
  have swept := hs.swept run
  obtain ⟨w, alone, tied⟩ := swept.tied running
  have order := hs.asks w key alone (tied.consumer ▸ waiting)
  have quiet : ∀ w ∈ s.workers, w.busy = false := fun worker hw => by
    by_contra busy
    obtain ⟨t, step⟩ := busy_step swept.inv.tracked swept.inv.counted hw (by simpa using busy)
    exact no_step t step
  have unadmitted : key ∉ (P.jobs.take s.budget.next).map Job.key := fun admitted => by
    obtain ⟨t, step⟩ := take_step swept.inv.counted swept.inv.tracked swept.phased
      (fun job hj _ hnone => by simpa [panics, hnone] using executes job hj) running (.inl waiting)
      admitted fun consumed => by
        rcases tied.consumed key consumed with h | h
        · exact Nat.lt_irrefl _ (order.behind key h)
        · exact Nat.not_lt_of_le order.passed h
    exact no_step t step
  have channel : s.channel = [] := by
    cases hq : s.channel with
    | nil => rfl
    | cons message rest =>
      refine absurd (.receive running (.inl waiting) (fun m hm => ?_) hq) (no_step _)
      exact undelivered_of_unadmitted swept.inv.counted unadmitted m (List.mem_append_right _ hm)
  obtain ⟨job, hj, rfl⟩ := List.mem_map.mp order.mem
  obtain ⟨pre, post, split⟩ := List.append_of_mem hj
  have later : s.budget.next ≤ pre.length := Nat.le_of_not_lt fun hlt =>
    unadmitted (List.mem_map_of_mem (mem_take_of_lt split hlt))
  have more : s.budget.next < P.jobs.length := by
    rw [split, List.length_append, List.length_cons]; omega
  obtain ⟨worker, hw, looking⟩ := hs.exists_idle swept.inv swept.phased running split later
    swept.plain quiet (staffed_of_executes executes threads _)
  have cancelled : s.budget.cancelled = false := by
    simpa [running] using swept.inv.tracked.cancelled
  refine ⟨running, job.key, waiting, channel, quiet, order.mem, unadmitted,
    P.request_eq_pending cancelled (List.getElem?_eq_getElem more) ?_⟩
  by_contra fits
  obtain ⟨t, step⟩ := look_step swept.phased running hw looking (.inl ⟨_, _,
    P.request_eq_ready.mpr ⟨cancelled, rfl, _, List.getElem?_eq_getElem more,
      by simpa using fits, rfl⟩⟩)
  exact no_step t step

private theorem Sweeps.stuck_of_waits (run : Reaches P.Step (P.init n start) s)
    (waits : P.WaitsForever s) : ∃ t, Reaches P.Step s t ∧ P.Stuck t := by
  induction hm : P.measure rank s using Nat.strongRecOn generalizing s with
  | ind m ih =>
    have running := (waits.2 s .refl).1
    obtain ⟨key, waiting⟩ : ∃ key, P.consumer.op s.consumer = .take key := by
      obtain ⟨⟨key, h | h | h⟩, -⟩ := waits
      · exact ⟨key, h⟩
      · simpa [h] using hs.op s.consumer
      · simpa [h] using hs.op s.consumer
    by_cases next : ∃ t, P.Step s t
    · obtain ⟨t, step⟩ := next
      have swept := hs.swept run
      have lt := P.measure_step swept.inv.tracked (fun running g follows => by
        obtain ⟨w, alone, tied⟩ := swept.tied running
        exact hs.follows_descends alone tied.consumer follows) step
      have same := (waits.2 t (.single step)).2
      obtain ⟨u, hu, stuck⟩ := ih _ (hm ▸ lt) (run.tail step) ⟨by rw [same]; exact waits.1,
        fun u hu => by rw [same]; exact waits.2 u (.head step hu)⟩ rfl
      exact ⟨u, .head step hu, stuck⟩
    · exact ⟨s, .refl, hs.stuck_of_no_step executes threads run running waiting
        fun t step => next ⟨t, step⟩⟩

/-- No reachable state is stuck exactly when each question of the coordinator is served. -/
theorem Sweeps.never_stuck_iff :
    (∀ s, Reaches P.Step (P.init n start) s → ¬ P.Stuck s) ↔
      ∀ w key, Reaches P.Sweeping ⟨start, [], 0⟩ w → P.consumer.op w.consumer = .take key →
        P.Served n w key := by
  constructor
  · intro never w key alone waiting
    by_contra unserved
    obtain ⟨s, run, waits⟩ := hs.waits_of_unserved alone waiting unserved
    obtain ⟨t, more, stuck⟩ := hs.stuck_of_waits executes threads run waits
    exact never t (run.trans more) stuck
  · rintro served s run ⟨running, key, waiting, -, quiet, -, unadmitted, pending⟩
    have swept := hs.swept run
    obtain ⟨w, alone, tied⟩ := swept.tied running
    have asked : P.consumer.op w.consumer = .take key := tied.consumer ▸ waiting
    have order := hs.asks w key alone asked
    obtain ⟨job, hj, rfl⟩ := List.mem_map.mp order.mem
    obtain ⟨pre, post, split⟩ := List.append_of_mem hj
    obtain ⟨index, budget, ready⟩ := hs.request_ready swept.inv swept.phased order tied
      (served w _ alone asked) swept.plain running (fun index h => by cases quiet _ h) split rfl
      (Nat.le_of_not_lt fun hlt => unadmitted (List.mem_map_of_mem (mem_take_of_lt split hlt)))
    rw [pending] at ready
    cases ready

end Stuck

end Returns

end Program

end Fbz.Pipeline
