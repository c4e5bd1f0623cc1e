import Mathlib.Logic.Relation

/-!
# Transition systems

Reachability, invariants and inevitability for an arbitrary step relation. A predicate is
inevitable when every run reaches it: no run is infinite and none stops short of it.
-/

namespace Fbz.Transition

variable {α β : Type*}

/-- Reflexive and transitive closure of the step relation. -/
abbrev Reaches (step : α → α → Prop) : α → α → Prop := Relation.ReflTransGen step

/-- Every run from this state arrives at `P`. -/
inductive Inevitable (step : α → α → Prop) (P : α → Prop) : α → Prop
  | now {s : α} (h : P s) : Inevitable step P s
  | later {s : α} (progress : ∃ t, step s t) (next : ∀ t, step s t → Inevitable step P t) :
      Inevitable step P s

/-- A property that every step keeps holds wherever a run gets to. -/
theorem Reaches.invariant {step : α → α → Prop} {I : α → Prop} {s t : α}
    (h : Reaches step s t) (start : I s) (keep : ∀ u v, I u → step u v → I v) : I t := by
  induction h with
  | refl => exact start
  | tail _ hstep ih => exact keep _ _ ih hstep

/-- Steps that shrink a measure until `P`, and are always available before it, make `P`
inevitable. -/
theorem Inevitable.of_measure_until {step : α → α → Prop} {P I : α → Prop} (measure : α → Nat)
    (keep : ∀ s t, I s → step s t → I t)
    (shrink : ∀ s t, I s → ¬ P s → step s t → measure t < measure s)
    (progress : ∀ s, I s → ¬ P s → ∃ t, step s t) {s : α} (hs : I s) :
    Inevitable step P s := by
  induction hn : measure s using Nat.strongRecOn generalizing s with
  | ind n ih =>
    by_cases hp : P s
    · exact .now hp
    · refine .later (progress s hs hp) fun t ht => ?_
      exact ih (measure t) (hn ▸ shrink s t hs hp ht) (keep s t hs ht) rfl

/-- The same with a measure that shrinks throughout. -/
theorem Inevitable.of_measure {step : α → α → Prop} {P I : α → Prop} (measure : α → Nat)
    (keep : ∀ s t, I s → step s t → I t)
    (shrink : ∀ s t, I s → step s t → measure t < measure s)
    (progress : ∀ s, I s → ¬ P s → ∃ t, step s t) {s : α} (hs : I s) :
    Inevitable step P s :=
  .of_measure_until measure keep (fun s t h _ => shrink s t h) progress hs

theorem Inevitable.mono {step : α → α → Prop} {P Q : α → Prop} {s : α}
    (h : Inevitable step P s) (imp : ∀ t, P t → Q t) : Inevitable step Q s := by
  induction h with
  | now h => exact .now (imp _ h)
  | later progress _ ih => exact .later progress ih

/-- What holds wherever a run gets to may be added to what is inevitable. -/
theorem Inevitable.strengthen {step : α → α → Prop} {P Q : α → Prop} {s : α}
    (h : Inevitable step P s) (imp : ∀ t, Reaches step s t → P t → Q t) : Inevitable step Q s := by
  induction h with
  | now h => exact .now (imp _ .refl h)
  | later progress _ ih =>
    exact .later progress fun t ht => ih t ht fun u hu => imp u (.head ht hu)

theorem Inevitable.trans {step : α → α → Prop} {P Q : α → Prop} {s : α}
    (h : Inevitable step P s) (next : ∀ t, P t → Inevitable step Q t) : Inevitable step Q s := by
  induction h with
  | now h => exact next _ h
  | later progress _ ih => exact .later progress ih

/-- What is inevitable is in particular reached by some run. -/
theorem Inevitable.exists_reaches {step : α → α → Prop} {P : α → Prop} {s : α}
    (h : Inevitable step P s) : ∃ t, Reaches step s t ∧ P t := by
  induction h with
  | now h => exact ⟨_, .refl, h⟩
  | later progress _ ih =>
    obtain ⟨t, ht⟩ := progress
    obtain ⟨u, hu, hp⟩ := ih t ht
    exact ⟨u, .head ht hu, hp⟩

/-- Once `P` is kept by every step, a run can only stop inside it. -/
theorem Inevitable.of_reaches {step : α → α → Prop} {P : α → Prop} {s t : α}
    (h : Inevitable step P s) (stable : ∀ u v, P u → step u v → P v) (run : Reaches step s t) :
    Inevitable step P t := by
  induction run with
  | refl => exact h
  | tail _ hstep ih =>
    cases ih with
    | now hp => exact .now (stable _ _ hp hstep)
    | later _ next => exact next _ hstep

theorem Inevitable.not_stuck {step : α → α → Prop} {P : α → Prop} {s t : α}
    (h : Inevitable step P s) (stable : ∀ u v, P u → step u v → P v) (run : Reaches step s t)
    (hp : ¬ P t) : ∃ u, step t u := by
  cases h.of_reaches stable run with
  | now h => exact absurd h hp
  | later progress _ => exact progress

/-- Inevitability inside a component carries over to the system it is embedded in, when the
embedded states make exactly the component's steps until the component is done. -/
theorem Inevitable.embed {step : α → α → Prop} {step' : β → β → Prop} {P : α → Prop}
    {Q : β → Prop} (f : α → β) {s : α} (h : Inevitable step P s)
    (enter : ∀ t, Reaches step s t → P t → Inevitable step' Q (f t))
    (forth : ∀ t u, step t u → step' (f t) (f u))
    (back : ∀ t v, ¬ P t → step' (f t) v → ∃ u, step t u ∧ v = f u) :
    Inevitable step' Q (f s) := by
  induction h with
  | now h => exact enter _ .refl h
  | @later s progress _ ih =>
    by_cases hp : P s
    · exact enter s .refl hp
    · obtain ⟨t, ht⟩ := progress
      refine .later ⟨f t, forth _ _ ht⟩ fun v hv => ?_
      obtain ⟨u, hu, rfl⟩ := back s v hp hv
      exact ih u hu fun t ht => enter t (.head hu ht)

/-- From here on every state has at most one next one. -/
def Determined (step : α → α → Prop) (s : α) : Prop :=
  ∀ t u v, Reaches step s t → step t u → step t v → u = v

/-- Where the steps are determined, a run goes on to where another one ends. -/
theorem Determined.goes_on {step : α → α → Prop} {s t u : α} (determined : Determined step s)
    (run : Reaches step s t) (full : Reaches step s u) (last : ∀ v, ¬ step u v) :
    Reaches step t u := by
  induction run with
  | refl => exact full
  | @tail t v front step ih =>
    rcases ih.cases_head with rfl | ⟨w, first, rest⟩
    · exact absurd step (last v)
    · rw [determined _ _ _ front step first]
      exact rest

/-- They all end in one state. -/
theorem Determined.last_unique {step : α → α → Prop} {s t u : α} (determined : Determined step s)
    (run : Reaches step s t) (ends : ∀ v, ¬ step t v) (other : Reaches step s u)
    (ends' : ∀ v, ¬ step u v) : t = u := by
  rcases (determined.goes_on run other ends').cases_head with rfl | ⟨v, first, -⟩
  · rfl
  · exact absurd first (ends v)

end Fbz.Transition
