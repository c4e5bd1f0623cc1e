import Fbz.Error

/-!
# Encoding options

The options all encoders share.
-/

namespace Fbz

structure EncodeOptions where
  threads : Nat
  memoryLimit : Nat
  level : Option Nat

namespace EncodeOptions

/-- Zero threads selects what `available_parallelism` reports. -/
def resolvedThreads (options : EncodeOptions) (parallelism : Nat) : Nat :=
  if options.threads ≠ 0 then options.threads else parallelism

def validate (options : EncodeOptions) : Result EncodeOptions := do
  ensure (∀ level ∈ options.level, 1 ≤ level ∧ level ≤ 9)
    (.invalidConfiguration "compression level must be between 1 and 9")
  ensure (options.memoryLimit ≠ 0)
    (.invalidConfiguration "compression memory limit must be greater than zero")
  return options

def levelOr (options : EncodeOptions) (default : Nat) : Nat := options.level.getD default

theorem validate_eq_ok {options checked : EncodeOptions} :
    options.validate = .ok checked ↔ checked = options ∧
      (∀ level ∈ options.level, 1 ≤ level ∧ level ≤ 9) ∧ options.memoryLimit ≠ 0 := by
  simp only [validate, result_bind_eq_ok, ensure_eq_ok]
  constructor
  · rintro ⟨-, hlevel, -, hmemory, heq⟩
    exact ⟨(Except.ok.inj heq).symm, hlevel, hmemory⟩
  · rintro ⟨rfl, hlevel, hmemory⟩
    exact ⟨(), hlevel, (), hmemory, rfl⟩

theorem levelOr_range {options checked : EncodeOptions} {default : Nat}
    (h : options.validate = .ok checked) (lo : 1 ≤ default) (hi : default ≤ 9) :
    1 ≤ checked.levelOr default ∧ checked.levelOr default ≤ 9 := by
  obtain ⟨rfl, hlevel, -⟩ := validate_eq_ok.mp h
  unfold levelOr
  cases hl : checked.level with
  | none => exact ⟨lo, hi⟩
  | some level => exact hlevel level hl

end EncodeOptions

end Fbz
