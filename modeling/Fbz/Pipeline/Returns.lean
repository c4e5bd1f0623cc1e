import Fbz.Pipeline.Room

/-!
# When a pipeline returns

With jobs that may panic, `run_ordered` returns under every schedule exactly when each question of
its coordinator is served, and `run_staged_ordered` exactly when no wait is doomed.
-/

namespace Fbz.Pipeline

open Transition
set_option linter.unusedSimpArgs false

variable {T O S Q R σ : Type}

namespace Program

section Takes

variable {P : Program T O S Q R σ} {start : σ} {rank : σ → Nat}

/-- A coordinator that takes all results in the order of the jobs sweeps over them. -/
theorem Guided.sweeps (hg : P.Guided start rank) (unstaged : P.staged = false)
    (sorted : (P.jobs.map Job.key).Pairwise (· < ·))
    (op : ∀ c, (∃ r, P.consumer.op c = .done r) ∨ P.consumer.op c = .compute ∨
      ∃ key, P.consumer.op c = .take key) : P.Sweeps start rank := by
  have walked : ∀ w, Reaches P.Sweeping ⟨start, [], 0⟩ w → w.passed = 0 ∧
      Reaches P.Follows ⟨start, [], [], [], []⟩ ⟨w.consumer, w.taken, [], [], []⟩ ∧
      ∀ k ∈ w.taken, ∀ job ∈ P.jobs, job.key < k → job.key ∈ w.taken := fun w run => by
    induction run with
    | refl => exact ⟨rfl, .refl, by simp⟩
    | @tail u v _ step ih =>
      obtain ⟨hpassed, hrun, hclosed⟩ := ih
      cases step with
      | compute waiting => exact ⟨hpassed, hrun.tail (.compute waiting), hclosed⟩
      | discardBefore waiting =>
        rcases op u.consumer with ⟨_, h⟩ | h | ⟨_, h⟩ <;> cases waiting.symm.trans h
      | @take job value waiting mem result =>
        refine ⟨hpassed, hrun.tail (.take waiting mem result), fun k hk other hother hlt => ?_⟩
        rcases List.mem_cons.mp hk with rfl | hk
        · have prompt := hg.prompt _ hrun
          rw [Prompt, waiting] at prompt
          obtain ⟨pre, post, split⟩ := List.append_of_mem mem
          refine List.mem_cons_of_mem _ (prompt.2 pre job post split rfl other ?_)
          rw [split, List.mem_append, List.mem_cons] at hother
          refine hother.resolve_right fun h => ?_
          rcases h with rfl | h
          · exact Nat.lt_irrefl _ hlt
          · obtain ⟨mid, back, rfl⟩ := List.append_of_mem h
            have := key_lt_of_sorted sorted
              (split.trans (List.append_assoc pre (job :: mid) (other :: back)).symm)
              (show job ∈ pre ++ job :: mid by simp)
            omega
        · exact List.mem_cons_of_mem _ (hclosed k hk other hother hlt)
  refine ⟨unstaged, sorted, fun c => ?_, fun w key run waiting => ?_, fun w w' run step => ?_⟩
  · rcases op c with ⟨_, h⟩ | h | ⟨_, h⟩ <;> rw [h] <;> trivial
  · obtain ⟨hpassed, hrun, hclosed⟩ := walked w run
    have legal := hg.legal _ hrun
    rw [Legal, waiting] at legal
    obtain ⟨hmem, hfresh⟩ := legal
    refine ⟨hmem, fun k hk => ?_, by rw [hpassed]; exact Nat.zero_le _, fun k hk => .inr
      fun job mem lt => hclosed k hk job mem lt⟩
    obtain ⟨job, hjob, rfl⟩ := List.mem_map.mp hmem
    rcases Nat.lt_trichotomy k job.key with h | rfl | h
    · exact h
    · exact absurd hk hfresh
    · exact absurd (hclosed k hk job hjob h) hfresh
  · obtain ⟨-, hrun, -⟩ := walked w run
    cases step with
    | compute waiting => exact hg.descends _ _ hrun (.compute waiting)
    | discardBefore waiting =>
      rcases op w.consumer with ⟨_, h⟩ | h | ⟨_, h⟩ <;> cases waiting.symm.trans h
    | take waiting mem result => exact hg.descends _ _ hrun (.take waiting mem result)

end Takes

/-- For a coordinator that asks in order and discards what it passes over, and for a staged one that
asks for what is there, all runs return exactly when the results it waits for can come. -/
theorem returns_iff (P : Program T O S Q R σ) (n : Nat) (start : σ) (rank : σ → Nat) :
    (P.Sweeps start rank → (P.AlwaysReturns n start ↔
      ∀ w key, Reaches P.Sweeping ⟨start, [], 0⟩ w → P.consumer.op w.consumer = .take key →
        P.Served n w key)) ∧
    (P.Guided start rank →
      (∀ g, Reaches P.Follows ⟨start, [], [], [], []⟩ g → (g.submitted.map Prod.fst).Nodup) →
      (P.AlwaysReturns n start ↔
        ∀ s, Reaches P.Step (P.init n start) s → ¬ P.Doomed s)) := by
  refine ⟨fun hs => ⟨fun h w key alone waiting => ?_, fun served => ?_⟩,
    fun hg distinct => hg.returns_iff_hope distinct⟩
  · by_contra unserved
    obtain ⟨s, run, waits⟩ := hs.waits_of_unserved alone waiting unserved
    exact h.2 s run waits
  · have returns := hs.returns served
    exact ⟨returns, fun s run waits => waits.not_returns run returns⟩

/-- One job that panics, and a coordinator that asks for its result. -/
def lostProgram (staged : Bool) : Program Unit Unit Unit Unit Unit Bool where
  staged := staged
  jobs := [⟨0, 1, ()⟩]
  limits := ⟨1, 1⟩
  execute := fun _ => none
  retainedSize := fun _ => 1
  executeStage := some
  consumer :=
    { op := fun asking =>
        if asking then (if staged then .takePrimary 0 else .take 0) else .done ()
      afterTake := fun _ _ => false
      afterTakePrimary := fun _ _ _ => false
      afterTakeStage := fun s _ => s
      after := id }

private theorem lost_asks {staged : Bool} {g : Ledger Unit Bool} :
    ¬ (lostProgram staged).Follows ⟨true, [], [], [], []⟩ g := by
  intro step
  cases step with
  | take waiting mem result => exact nomatch result
  | takePrimary waiting mem result => exact nomatch result
  | compute waiting => cases staged <;> exact nomatch waiting
  | discardBefore waiting => cases staged <;> exact nomatch waiting
  | retire waiting => cases staged <;> exact nomatch waiting
  | submit waiting => cases staged <;> exact nomatch waiting
  | takeStage waiting => cases staged <;> exact nomatch waiting

private theorem lost_follows {staged : Bool} {g : Ledger Unit Bool}
    (run : Reaches (lostProgram staged).Follows ⟨true, [], [], [], []⟩ g) :
    g = ⟨true, [], [], [], []⟩ := by
  induction run with
  | refl => rfl
  | tail _ step ih => exact absurd (ih ▸ step) lost_asks

private theorem lost_guided (staged : Bool) : (lostProgram staged).Guided true fun _ => 0 := by
  refine ⟨by simp [lostProgram], fun g run => ?_, fun g run => ?_, fun g g' run step => ?_⟩
  · rw [lost_follows run]
    cases staged <;> simp [Legal, lostProgram]
  · rw [lost_follows run]
    have first : ∀ pre job post, (lostProgram staged).jobs = pre ++ job :: post → job.key = 0 →
        ∀ earlier ∈ pre, earlier.key ∈ ([] : List Nat) := by
      intro pre job post split
      cases pre with
      | nil => simp
      | cons head pre => simp [lostProgram] at split
    cases staged <;> exact ⟨rfl, first⟩
  · rw [lost_follows run] at step
    exact absurd step lost_asks

/-- Three jobs, of which the second panics; the coordinator takes the first and discards all before
the third. -/
def passingProgram (memory : Nat) : Program Nat Nat Unit Unit Unit Nat where
  staged := false
  jobs := [⟨0, 1, 0⟩, ⟨1, 1, 1⟩, ⟨2, 1, 2⟩]
  limits := ⟨memory, 3⟩
  execute := fun key => if key = 1 then none else some key
  retainedSize := fun _ => 1
  executeStage := some
  consumer :=
    { op := fun
        | 0 => .take 0
        | 1 => .discardBefore 2
        | 2 => .take 2
        | _ => .done ()
      afterTake := fun c _ => c + 1
      afterTakePrimary := fun c _ _ => c
      afterTakeStage := fun c _ => c
      after := (· + 1) }

private theorem passing_walk {memory : Nat} {w : Sweep Nat}
    (run : Reaches (passingProgram memory).Sweeping ⟨0, [], 0⟩ w) :
    w ∈ [⟨0, [], 0⟩, ⟨1, [0], 0⟩, ⟨2, [0], 2⟩, ⟨3, [2, 0], 2⟩] := by
  induction run with
  | refl => simp
  | tail _ step ih =>
    simp only [List.mem_cons, List.not_mem_nil, or_false] at ih
    rcases ih with rfl | rfl | rfl | rfl <;> cases step with
      | compute waiting => cases waiting
      | discardBefore waiting => cases waiting <;> simp [passingProgram]
      | @take job value waiting mem result =>
        simp only [passingProgram, Op.take.injEq, reduceCtorEq] at waiting <;>
          simp [← waiting, passingProgram]

private theorem passing_sweeps (memory : Nat) :
    (passingProgram memory).Sweeps 0 fun c => 3 - c where
  unstaged := rfl
  keys_sorted := by simp [passingProgram]
  op
    | 0 | 1 | 2 | _ + 3 => trivial
  asks w key run waiting := by
    have walk := passing_walk run
    simp only [List.mem_cons, List.not_mem_nil, or_false] at walk
    rcases walk with rfl | rfl | rfl | rfl
    · obtain rfl := Op.take.inj waiting
      exact ⟨by simp [passingProgram], by simp, Nat.le_refl _, by simp⟩
    · cases waiting
    · obtain rfl := Op.take.inj waiting
      exact ⟨by simp [passingProgram], by simp, Nat.le_refl _, fun k hk => .inl (by simp_all)⟩
    · cases waiting
  descends w w' run step := by
    have walk := passing_walk run
    simp only [List.mem_cons, List.not_mem_nil, or_false] at walk
    rcases walk with rfl | rfl | rfl | rfl <;> cases step with
      | compute waiting => cases waiting
      | discardBefore waiting => cases waiting <;> simp [passingProgram]
      | take waiting =>
        simp only [passingProgram, Op.take.injEq, reduceCtorEq] at waiting <;>
          simp [passingProgram]

private theorem passing_split {memory : Nat} {pre post : List (Job Nat)} {job : Job Nat}
    (split : (passingProgram memory).jobs = pre ++ job :: post) :
    pre = [] ∧ job = ⟨0, 1, 0⟩ ∨ pre = [⟨0, 1, 0⟩] ∧ job = ⟨1, 1, 1⟩ ∨
      pre = [⟨0, 1, 0⟩, ⟨1, 1, 1⟩] ∧ job = ⟨2, 1, 2⟩ := by
  rcases pre with _ | ⟨first, _ | ⟨second, _ | ⟨third, pre⟩⟩⟩ <;>
    simp [passingProgram] at split <;> simp_all

/-- The result of the second job is never asked for, but its reservation stays charged: the third
job needs room beside it. -/
theorem passing_returns :
    (passingProgram 2).AlwaysReturns 2 0 ∧ ¬ (passingProgram 1).AlwaysReturns 2 0 ∧
      ¬ (lostProgram true).AlwaysReturns 1 true := by
  refine ⟨((passingProgram 2).returns_iff 2 0 _).1 (passing_sweeps 2) |>.mpr
    fun w key run waiting => ?_, fun returns => ?_, fun returns => ?_⟩
  · have walk := passing_walk run
    simp only [List.mem_cons, List.not_mem_nil, or_false] at walk
    rcases walk with rfl | rfl | rfl | rfl
    · obtain rfl := Op.take.inj waiting
      refine ⟨by simp [passingProgram, panics], by decide, fun late _ pre job post split le _ => ?_⟩
      rcases passing_split split with ⟨rfl, rfl⟩ | ⟨rfl, rfl⟩ | ⟨rfl, rfl⟩
      · simp [outstanding, passingProgram]
      · simp at le
      · simp at le
    · cases waiting
    · obtain rfl := Op.take.inj waiting
      refine ⟨by simp [passingProgram, panics], by decide, fun late _ pre job post split _ ahead => ?_⟩
      rcases passing_split split with ⟨rfl, rfl⟩ | ⟨rfl, rfl⟩ | ⟨rfl, rfl⟩
      · simp [Sweep.ahead] at ahead
      · simp [outstanding, Sweep.ahead, lagging, Sweep.skipped, passingProgram]
      · simp [outstanding, Sweep.ahead, lagging, Sweep.skipped, charge, passingProgram]
    · cases waiting
  · have served := (((passingProgram 1).returns_iff 2 0 _).1 (passing_sweeps 1)).mp returns
    have run : Reaches (passingProgram 1).Sweeping ⟨0, [], 0⟩ ⟨2, [0], 2⟩ :=
      .head (@Sweeping.take _ _ _ _ _ _ _ _ ⟨0, 1, 0⟩ 0 rfl (by simp [passingProgram]) rfl) <|
        .head (.discardBefore rfl) .refl
    have room := ((served _ 2 run rfl).room (fun _ => false) (by decide)
      [⟨0, 1, 0⟩, ⟨1, 1, 1⟩] ⟨2, 1, 2⟩ [] rfl (by decide) rfl).2
    exact absurd room (by decide)
  · have hope := (((lostProgram true).returns_iff 1 true _).2 (lost_guided true)
      fun g run => by rw [lost_follows run]; exact .nil).mp returns
    exact hope _ .refl ⟨rfl, .inl ⟨⟨0, 1, ()⟩, List.mem_singleton_self _, rfl, rfl⟩⟩

private theorem lost_waits (staged : Bool) :
    ∃ s, Reaches (lostProgram staged).Step ((lostProgram staged).init 1 true) s ∧
      (lostProgram staged).WaitsForever s := by
  let granted : State Unit Unit Unit Unit Bool :=
    { (lostProgram staged).init 1 true with
      budget := (Budget.new ⟨1, 1⟩).grant 1, workers := [.executing 0] }
  let lost : State Unit Unit Unit Unit Bool := { granted with workers := [.panicked 0] }
  have panics : (lostProgram staged).Step granted lost :=
    @Step.panic _ _ _ _ _ _ (lostProgram staged) granted [] [] 0 ⟨0, 1, ()⟩ rfl rfl rfl
  have run : Reaches (lostProgram staged).Step ((lostProgram staged).init 1 true) lost := by
    refine .tail ?_ panics
    cases staged with
    | false =>
      exact .single (@Step.grant _ _ _ _ _ _ (lostProgram false) _ [] [] 0 _ rfl rfl)
    | true =>
      refine .tail (.single (@Step.poll _ _ _ _ _ _ (lostProgram true) _ [] [] rfl rfl rfl rfl)) ?_
      exact @Step.grant _ _ _ _ _ _ (lostProgram true)
        { (lostProgram true).init 1 true with workers := [.polled] } [] [] 0 _ rfl rfl
  refine ⟨lost, run, doomed_forever ((lostProgram staged).reachable_invariant run)
    (lost_guided staged).keys_nodup .nil ⟨rfl, ?_⟩⟩
  cases staged <;> exact .inl ⟨⟨0, 1, ()⟩, List.mem_singleton_self _, rfl, rfl⟩

/-- Neither pipeline returns when the job panics whose result it waits for. -/
theorem lost_never_returns :
    (∃ s, Reaches (lostProgram false).Step ((lostProgram false).init 1 true) s ∧
      (lostProgram false).WaitsForever s) ∧
    (∃ s, Reaches (lostProgram true).Step ((lostProgram true).init 1 true) s ∧
      (lostProgram true).WaitsForever s) ∧
    ¬ Inevitable (lostProgram false).Step Returned ((lostProgram false).init 1 true) ∧
    ¬ Inevitable (lostProgram true).Step Returned ((lostProgram true).init 1 true) := by
  obtain ⟨s, run, stuck⟩ := lost_waits false
  obtain ⟨s', run', stuck'⟩ := lost_waits true
  exact ⟨⟨s, run, stuck⟩, ⟨s', run', stuck'⟩, stuck.not_returns run, stuck'.not_returns run'⟩

end Program

end Fbz.Pipeline
