import Fbz.Lib.Checked
import Mathlib.Logic.Function.Basic

/-!
# Programs that may panic or fail

A program has no result when it panics, and otherwise a value or an error. It is compared with a
function that cannot panic: the program returns, and both results agree. The rules follow the
structure of a program.
-/

namespace Fbz.Checked

abbrev Program (ε α : Type) : Type := ExceptT ε Option α

variable {ε α β γ δ σ τ : Type}

theorem bind_of_some {o : Option α} {a : α} (h : o = some a) (f : α → Option β) :
    (o >>= f) = f a := by
  rw [h]
  rfl

/-- `array[i]`. -/
def index (array : List α) (i : Nat) : Option α := array[i]?

/-- `value << amount` of `width` bits; what is shifted out is lost. -/
def shl (width value amount : Nat) : Option Nat :=
  if amount < width then some (value <<< amount % 2 ^ width) else none

theorem shl_of_lt {width value amount : Nat} (lt : amount < width)
    (fits : value * 2 ^ amount < 2 ^ width) : shl width value amount = some (value * 2 ^ amount) := by
  rw [shl, if_pos lt, Nat.shiftLeft_eq, Nat.mod_eq_of_lt fits]

/-- `value >> amount` of `width` bits. -/
def shr (width value amount : Nat) : Option Nat :=
  if amount < width then some (value >>> amount) else none

theorem shr_of_lt {width value amount : Nat} (lt : amount < width) :
    shr width value amount = some (value >>> amount) := if_pos lt

/-- `a * b` in `width` bits. -/
def mul (width a b : Nat) : Option Nat := if a * b < 2 ^ width then some (a * b) else none

theorem mul_of_lt {width a b : Nat} (lt : a * b < 2 ^ width) : mul width a b = some (a * b) :=
  if_pos lt

/-- A number of 32 bits with a sign. -/
def int32 (value : Int) : Option Int :=
  if -2 ^ 31 ≤ value ∧ value < 2 ^ 31 then some value else none

theorem int32_of {value : Int} (lo : -2 ^ 31 ≤ value) (hi : value < 2 ^ 31) :
    int32 value = some value := if_pos ⟨lo, hi⟩

/-- A number of 16 bits with a sign. -/
def int16 (value : Int) : Option Int :=
  if -2 ^ 15 ≤ value ∧ value < 2 ^ 15 then some value else none

theorem int16_of {value : Int} (lo : -2 ^ 15 ≤ value) (hi : value < 2 ^ 15) :
    int16 value = some value := if_pos ⟨lo, hi⟩

/-- `value << 1` of a number of 32 bits with a sign. -/
def double32 (value : Int) : Int := (value * 2).bmod (2 ^ 32)

theorem double32_of {value : Int} (lo : -2 ^ 30 ≤ value) (hi : value < 2 ^ 30) :
    double32 value = value * 2 := by
  apply Int.bmod_eq_of_le
  · omega
  · omega

/-- A number of 32 bits, read with a sign. -/
def asInt32 (value : Nat) : Int := (value : Int).bmod (2 ^ 32)

theorem asInt32_of {value : Nat} (lt : value < 2 ^ 31) : asInt32 value = value := by
  apply Int.bmod_eq_of_le
  · omega
  · omega

/-- `a | b` of two such numbers. -/
def or32 (a b : Int) : Int := (BitVec.ofInt 32 a ||| BitVec.ofInt 32 b).toInt

theorem or32_of {a b : Nat} (bit : b < 2) (lt : a < 2 ^ 30) :
    or32 ((a : Int) * 2) b = (a * 2 + b : Nat) := by
  have hor : a * 2 ||| b = a * 2 + b := by
    rw [show a * 2 = a <<< 1 by rw [Nat.shiftLeft_eq, Nat.pow_one],
      ← Nat.shiftLeft_add_eq_or_of_lt bit]
  have heven : BitVec.ofInt 32 ((a : Int) * 2) = BitVec.ofNat 32 (a * 2) := by
    rw [← BitVec.ofInt_natCast]
    push_cast
    rfl
  rw [or32, heven, BitVec.ofInt_natCast, ← BitVec.ofNat_or, hor, BitVec.toInt_eq_toNat_of_lt]
  · rw [BitVec.toNat_ofNat, Nat.mod_eq_of_lt (by omega)]
  · rw [BitVec.toNat_ofNat, Nat.mod_eq_of_lt (by omega)]
    omega

/-- `array[i] += 1` in `width` bits. -/
def bump (width : Nat) (array : List Nat) (i : Nat) : Option (List Nat) := do
  let value ← array[i]?
  let value ← add width value 1
  store array i value

theorem bump_of_lt {width i value : Nat} {array : List Nat} (get : array[i]? = some value)
    (room : value + 1 < 2 ^ width) : bump width array i = some (array.set i (value + 1)) := by
  obtain ⟨hlt, -⟩ := List.getElem?_eq_some_iff.mp get
  rw [bump, get]
  show (add width value 1).bind _ = _
  rw [add_of_lt room]
  exact store_of_lt hlt _

/-- `array[start..stop].fill(value)`. -/
def fill (array : List α) (start stop : Nat) (value : α) : Option (List α) :=
  if start ≤ stop ∧ stop ≤ array.length then
    some (array.take start ++ List.replicate (stop - start) value ++ array.drop stop)
  else none

theorem fill_of_le {array : List α} {start stop : Nat} (ordered : start ≤ stop)
    (inside : stop ≤ array.length) (value : α) :
    fill array start stop value =
      some (array.take start ++ List.replicate (stop - start) value ++ array.drop stop) :=
  if_pos ⟨ordered, inside⟩

theorem fill_tail {front : List α} {start stop count rest : Nat} (a b : α)
    (size : front.length = start) (ends : start + count = stop) :
    fill (front ++ List.replicate (count + rest) a) start stop b =
      some (front ++ List.replicate count b ++ List.replicate rest a) := by
  have hinside : stop ≤ (front ++ List.replicate (count + rest) a).length := by
    rw [List.length_append, List.length_replicate]
    omega
  rw [fill_of_le (by omega) hinside, ← ends, ← size, List.take_left, Nat.add_sub_cancel_left,
    List.drop_append, List.drop_of_length_le (Nat.le_add_right _ _), List.nil_append,
    List.drop_replicate, Nat.add_sub_cancel_left, Nat.add_sub_cancel_left]

theorem fill_length {array filled : List α} {start stop : Nat} {value : α}
    (h : fill array start stop value = some filled) : filled.length = array.length := by
  rw [fill] at h
  split at h
  case isTrue hinside =>
    rw [← Option.some.inj h]
    simp only [List.length_append, List.length_take, List.length_replicate, List.length_drop]
    omega
  case isFalse => cases h

/-- The array has this size and holds these values. -/
structure Holds (array : List α) (size : Nat) (value : Nat → α) : Prop where
  length : array.length = size
  get : ∀ i < size, array[i]? = some (value i)

namespace Holds

variable {array : List α} {size i : Nat} {value other : Nat → α}

theorem replicate (size : Nat) (a : α) : Holds (List.replicate size a) size fun _ => a :=
  ⟨List.length_replicate, fun i hi => by rw [List.getElem?_replicate, if_pos hi]⟩

theorem congr (h : Holds array size value) (same : ∀ i < size, value i = other i) :
    Holds array size other :=
  ⟨h.length, fun i hi => by rw [h.get i hi, same i hi]⟩

theorem index (h : Holds array size value) (lt : i < size) :
    Checked.index array i = some (value i) := h.get i lt

theorem set (h : Holds array size value) (lt : i < size) (a : α) :
    Holds (array.set i a) size (Function.update value i a) := by
  refine ⟨by rw [List.length_set, h.length], fun j hj => ?_⟩
  by_cases heq : j = i
  · subst heq
    rw [List.getElem?_set_self (by rw [h.length]; exact hj), Function.update_self]
  · rw [List.getElem?_set_ne (Ne.symm heq), h.get j hj, Function.update_of_ne heq]

theorem eq_map (h : Holds array size value) : array = (List.range size).map value := by
  refine List.ext_getElem? fun i => ?_
  rw [List.getElem?_map]
  rcases Nat.lt_or_ge i size with hlt | hge
  · rw [h.get i hlt, List.getElem?_range hlt]
    rfl
  · rw [List.getElem?_eq_none (h.length ▸ hge), List.getElem?_eq_none, Option.map_none]
    rw [List.length_range]
    exact hge

theorem store (h : Holds array size value) (lt : i < size) (a : α) :
    Checked.store array i a = some (array.set i a) :=
  store_of_lt (h.length.symm ▸ lt) a

theorem bump {value : Nat → Nat} {array : List Nat} {width : Nat} (h : Holds array size value)
    (lt : i < size) (room : value i + 1 < 2 ^ width) :
    Checked.bump width array i = some (array.set i (value i + 1)) :=
  bump_of_lt (h.get i lt) room

end Holds

/-- Counts of a list that is one longer. -/
theorem count_concat (xs : List Nat) (x other : Nat) :
    (xs ++ [x]).count other =
      Function.update (fun y => xs.count y) x (xs.count x + 1) other := by
  rw [List.count_append, List.count_singleton]
  by_cases heq : other = x
  · subst heq
    rw [Function.update_self, beq_self_eq_true, if_pos rfl]
  · rw [Function.update_of_ne heq, if_neg, Nat.add_zero]
    exact fun hbeq => heq (eq_of_beq hbeq).symm

/-- The element behind the first ones of a range. -/
theorem range'_split {start count x : Nat} {done rest : List Nat}
    (h : List.range' start count = done ++ x :: rest) :
    x = start + done.length ∧ done.length < count := by
  have hget := congrArg (fun xs => xs[done.length]?) h
  have hlength := congrArg List.length h
  rw [List.length_range', List.length_append, List.length_cons] at hlength
  have hlt : done.length < count := by omega
  simp only [List.getElem?_append_right (Nat.le_refl _), Nat.sub_self, List.getElem?_cons_zero] at hget
  rw [List.getElem?_range' hlt, Nat.one_mul] at hget
  exact ⟨(Option.some.inj hget).symm, hlt⟩

/-- The same error, or values that are related. -/
inductive Agree (R : α → β → Prop) : Except ε α → Except ε β → Prop
  | ok {a : α} {b : β} (related : R a b) : Agree R (.ok a) (.ok b)
  | error (e : ε) : Agree R (.error e) (.error e)

theorem Agree.isSome_eq {R : α → β → Prop} {r : Except ε α} {s : Except ε β} (h : Agree R r s) :
    r.toOption.isSome = s.toOption.isSome := by
  cases h with
  | ok => rfl
  | error => rfl

/-- The program does not panic, and its result agrees with this one. -/
def Returns (R : α → β → Prop) (x : Program ε α) (r : Except ε β) : Prop :=
  ∃ s, x.run = some s ∧ Agree R s r

variable {R R' : α → β → Prop} {S : γ → δ → Prop} {x : Program ε α} {r : Except ε β}

theorem Returns.run_eq {r : Except ε α} (h : Returns Eq x r) : x.run = some r := by
  obtain ⟨s, hs, hagree⟩ := h
  cases hagree with
  | ok related => rw [hs, related]
  | error e => exact hs

theorem returns_of_run {r : Except ε α} (h : x.run = some r) : Returns Eq x r := by
  refine ⟨r, h, ?_⟩
  cases r with
  | error e => exact .error e
  | ok a => exact .ok rfl

theorem Returns.exists_ok {a : α} (h : Returns R x r) (run : x.run = some (.ok a)) :
    ∃ b, r = .ok b ∧ R a b := by
  obtain ⟨s, hs, hagree⟩ := h
  obtain rfl := Option.some.inj (run.symm.trans hs)
  cases hagree with
  | ok related => exact ⟨_, rfl, related⟩

theorem Returns.mono (h : Returns R x r) (weaker : ∀ a b, r = .ok b → R a b → R' a b) :
    Returns R' x r := by
  obtain ⟨s, hs, hagree⟩ := h
  refine ⟨s, hs, ?_⟩
  cases hagree with
  | ok related => exact .ok (weaker _ _ rfl related)
  | error e => exact .error e

theorem returns_ok {a : α} {b : β} (related : R a b) :
    Returns R (pure a : Program ε α) (.ok b) := ⟨.ok a, rfl, .ok related⟩

theorem returns_error (e : ε) : Returns R (throw e : Program ε α) (.error e) :=
  ⟨.error e, rfl, .error e⟩

theorem Returns.bind {f : α → Program ε γ} {g : β → Except ε δ} (h : Returns R x r)
    (next : ∀ a b, r = .ok b → R a b → Returns S (f a) (g b)) :
    Returns S (x >>= f) (r >>= g) := by
  obtain ⟨s, hs, hagree⟩ := h
  cases hagree with
  | ok related =>
    obtain ⟨t, ht, hnext⟩ := next _ _ rfl related
    refine ⟨t, ?_, hnext⟩
    rw [ExceptT.run_bind, hs]
    exact ht
  | error e =>
    refine ⟨.error e, ?_, .error e⟩
    rw [ExceptT.run_bind, hs]
    rfl

/-- A step that may panic, and does not. -/
theorem returns_step {a : α} {o : Option α} {f : α → Program ε γ} {r : Except ε δ}
    (step : o = some a) (next : Returns S (f a) r) :
    Returns S ((liftM o : Program ε α) >>= f) r := by
  rw [step]
  exact next

theorem returns_lift {a : α} {b : β} {o : Option α} (step : o = some a) (related : R a b) :
    Returns R (liftM o : Program ε α) (.ok b) := by
  rw [step]
  exact returns_ok related

/-- The result of a program, which goes on when that is an error. -/
def attempt (x : Program ε α) : Program ε (Except ε α) := ExceptT.lift x.run

theorem returns_attempt {x : Program ε α} {r : Except ε α} {f : Except ε α → Program ε γ}
    {s : Except ε δ} (h : Returns Eq x r) (next : Returns S (f r) s) :
    Returns S (attempt x >>= f) s := by
  have hattempt : (attempt x).run = some (.ok r) := by
    rw [attempt, ExceptT.run_lift, h.run_eq]
    rfl
  obtain ⟨t, ht, hagree⟩ := next
  refine ⟨t, ?_, hagree⟩
  rw [ExceptT.run_bind, hattempt]
  exact ht

/-- A check that fails with an error. -/
theorem returns_check (r : Except ε α) : Returns Eq (liftM r : Program ε α) r :=
  returns_of_run rfl

/-- A check whose result is the whole result. -/
theorem returns_checked {r : Except ε α} {f : α → Program ε γ} {S : γ → α → Prop}
    (next : ∀ a, r = .ok a → Returns S (f a) (.ok a)) :
    Returns S ((liftM r : Program ε α) >>= f) r := by
  cases r with
  | ok a => exact next a rfl
  | error e => exact returns_error e

/-- Both loops take a turn for each element, and their states stay related. -/
theorem Returns.foldlM {f : σ → α → Program ε σ} {g : τ → α → Except ε τ}
    {R : List α → σ → τ → Prop} {xs : List α} {s : σ} {t : τ} (begins : R [] s t)
    (turn : ∀ done x rest, xs = done ++ x :: rest → ∀ s t, R done s t →
      Returns (R (done ++ [x])) (f s x) (g t x)) :
    Returns (R xs) (xs.foldlM f s) (xs.foldlM g t) := by
  suffices h : ∀ rest done s t, xs = done ++ rest → R done s t →
      Returns (R xs) (rest.foldlM f s) (rest.foldlM g t) from h xs [] s t rfl begins
  intro rest
  induction rest with
  | nil =>
    intro done s t hxs hrelated
    rw [List.append_nil] at hxs
    exact returns_ok (hxs ▸ hrelated)
  | cons x rest ih =>
    intro done s t hxs hrelated
    rw [List.foldlM_cons, List.foldlM_cons]
    apply (turn done x rest hxs s t hrelated).bind
    intro s t _ hnext
    exact ih (done ++ [x]) s t (by rw [hxs, List.append_assoc]; rfl) hnext

theorem returns_mapM {f : α → Program ε β} {g : α → Except ε β} {xs : List α}
    (each : ∀ x ∈ xs, Returns Eq (f x) (g x)) : Returns Eq (xs.mapM f) (xs.mapM g) := by
  induction xs with
  | nil => exact returns_ok rfl
  | cons x xs ih =>
    obtain ⟨hx, hxs⟩ := List.forall_mem_cons.mp each
    rw [List.mapM_cons, List.mapM_cons]
    apply hx.bind
    rintro _ y _ rfl
    apply (ih hxs).bind
    rintro _ ys _ rfl
    exact returns_ok rfl

end Fbz.Checked
