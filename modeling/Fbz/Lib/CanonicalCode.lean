import Mathlib.Algebra.BigOperators.Group.List.Basic
import Mathlib.Algebra.Order.Field.Rat
import Mathlib.Data.List.Count
import Mathlib.Tactic.FieldSimp
import Mathlib.Tactic.Linarith
import Mathlib.Tactic.Ring

/-!
# Canonical prefix codes

A list of code lengths stands for a prefix code: codes are numbers of their length in bits, first
bit highest, given out by length and then by symbol. The length zero means that a symbol has no
code. When the lengths satisfy Kraft's inequality, no word begins with the codes of two symbols.
-/

namespace Fbz.CanonicalCode

/-- How many symbols have codes of this length. -/
def count (lengths : List Nat) (length : Nat) : Nat :=
  if length = 0 then 0 else lengths.count length

/-- The first code of each length. -/
def first (lengths : List Nat) : Nat → Nat
  | 0 => 0
  | length + 1 => (first lengths length + count lengths length) * 2

/-- The words of each length that begin with a code. -/
def filled (lengths : List Nat) (length : Nat) : Nat := first lengths length + count lengths length

def code (lengths : List Nat) (symbol : Nat) : Nat :=
  first lengths (lengths.getD symbol 0) + (lengths.take symbol).count (lengths.getD symbol 0)

/-- Kraft's sum; a code is complete when it is one. -/
def kraftSum (lengths : List Nat) : ℚ :=
  (lengths.map fun length => if length = 0 then 0 else (1 / 2 : ℚ) ^ length).sum

/-- Kraft's sum in units of one word of `width` bits. -/
def kraft (lengths : List Nat) (width : Nat) : Nat :=
  (lengths.map fun length => if length = 0 then 0 else 2 ^ (width - length)).sum

/-- The symbol has a code of this length. -/
structure HasLength (lengths : List Nat) (symbol length : Nat) : Prop where
  get : lengths[symbol]? = some length
  pos : 0 < length

variable {lengths : List Nat} {symbol other length width : Nat}

theorem filled_succ (lengths : List Nat) (length : Nat) :
    filled lengths (length + 1) = 2 * filled lengths length + count lengths (length + 1) := by
  rw [filled, first, filled]
  omega

/-- Codes begin with zero. -/
theorem first_eq_zero {least : Nat} (none_below : ∀ length ∈ lengths, least ≤ length) :
    first lengths least = 0 := by
  have hbelow : ∀ length ≤ least, first lengths length = 0 := by
    intro length
    induction length with
    | zero => exact fun _ => rfl
    | succ length ih =>
      intro hlt
      have hcount : lengths.count length = 0 :=
        List.count_eq_zero.mpr fun hmem => absurd (none_below length hmem) (by omega)
      rw [first, ih (by omega), count, hcount, ite_self]
  exact hbelow least (Nat.le_refl _)

private theorem sum_upTo_succ (lengths : List Nat) (bound : Nat) :
    (lengths.map fun length =>
        if length = 0 ∨ bound + 1 < length then 0 else 2 ^ (bound + 1 - length)).sum =
      2 * (lengths.map fun length =>
        if length = 0 ∨ bound < length then 0 else 2 ^ (bound - length)).sum +
        lengths.count (bound + 1) := by
  induction lengths with
  | nil => rfl
  | cons length lengths ih =>
    simp only [List.map_cons, List.sum_cons, ih, List.count_cons]
    rcases Nat.lt_trichotomy length (bound + 1) with hlt | rfl | hgt
    · have hpow : 2 ^ (bound + 1 - length) = 2 * 2 ^ (bound - length) := by
        rw [Nat.succ_sub (by omega), Nat.pow_succ']
      by_cases hzero : length = 0
      · simp [hzero]
      · rw [if_neg (by omega), if_neg (by omega), if_neg (by simp; omega), hpow]
        ring
    · rw [if_neg (by omega), if_pos (by omega), if_pos (by simp)]
      simp
      ring
    · rw [if_pos (by omega), if_pos (by omega), if_neg (by simp; omega)]
      ring

private theorem sum_upTo (lengths : List Nat) (bound : Nat) :
    (lengths.map fun length =>
        if length = 0 ∨ bound < length then 0 else 2 ^ (bound - length)).sum =
      filled lengths bound := by
  induction bound with
  | zero =>
    have hzero : (lengths.map fun length =>
        if length = 0 ∨ 0 < length then 0 else 2 ^ (0 - length)) = lengths.map fun _ => 0 :=
      List.map_congr_left fun length _ => if_pos (Nat.eq_zero_or_pos length)
    rw [hzero]
    simp [filled, first, count]
  | succ bound ih =>
    rw [sum_upTo_succ, ih, filled_succ, count, if_neg (Nat.succ_ne_zero bound)]

theorem kraft_eq_filled (bounded : ∀ length ∈ lengths, length ≤ width) :
    kraft lengths width = filled lengths width := by
  rw [← sum_upTo, kraft]
  congr 1
  refine List.map_congr_left fun length hmem => ?_
  have := bounded length hmem
  by_cases hzero : length = 0
  · rw [if_pos hzero, if_pos (.inl hzero)]
  · rw [if_neg hzero, if_neg (by omega)]

theorem kraft_cast (bounded : ∀ length ∈ lengths, length ≤ width) :
    (kraft lengths width : ℚ) = 2 ^ width * kraftSum lengths := by
  induction lengths with
  | nil => simp [kraft, kraftSum]
  | cons length lengths ih =>
    have hle := bounded length List.mem_cons_self
    have htail := ih fun other hmem => bounded other (List.mem_cons_of_mem _ hmem)
    simp only [kraft, kraftSum, List.map_cons, List.sum_cons, Nat.cast_add, mul_add] at htail ⊢
    rw [htail]
    congr 1
    by_cases hzero : length = 0
    · simp [hzero]
    · rw [if_neg hzero, if_neg hzero, one_div, inv_pow, Nat.cast_pow, Nat.cast_ofNat,
        ← pow_sub₀ _ two_ne_zero hle]

/-- Kraft's inequality on words. -/
theorem kraftSum_le_one_iff (bounded : ∀ length ∈ lengths, length ≤ width) :
    kraftSum lengths ≤ 1 ↔ filled lengths width ≤ 2 ^ width := by
  have hcast := kraft_cast bounded
  have hpos : (0 : ℚ) < 2 ^ width := by positivity
  rw [← kraft_eq_filled bounded, ← @Nat.cast_le ℚ, hcast]
  push_cast
  constructor
  · intro h
    nlinarith
  · intro h
    by_contra hgt
    nlinarith

theorem kraftSum_eq_one_iff (bounded : ∀ length ∈ lengths, length ≤ width) :
    kraftSum lengths = 1 ↔ kraft lengths width = 2 ^ width := by
  have hcast := kraft_cast bounded
  have hpos : (0 : ℚ) < 2 ^ width := by positivity
  rw [← @Nat.cast_inj ℚ, hcast]
  push_cast
  constructor
  · intro h
    rw [h, mul_one]
  · intro h
    exact mul_left_cancel₀ (ne_of_gt hpos) (h.trans (mul_one _).symm)

theorem filled_mul_le_first (lengths : List Nat) {short long : Nat} (lt : short < long) :
    filled lengths short * 2 ^ (long - short) ≤ first lengths long := by
  obtain ⟨gap, rfl⟩ : ∃ gap, long = short + gap + 1 := ⟨long - short - 1, by omega⟩
  clear lt
  induction gap with
  | zero =>
    rw [show short + 0 + 1 - short = 1 by omega, first, filled]
    omega
  | succ gap ih =>
    have hpow : 2 ^ (short + (gap + 1) + 1 - short) = 2 * 2 ^ (short + gap + 1 - short) := by
      rw [show short + (gap + 1) + 1 - short = short + gap + 1 - short + 1 by omega,
        Nat.pow_succ']
    rw [hpow, show short + (gap + 1) + 1 = (short + gap + 1) + 1 from rfl, first,
      show filled lengths short * (2 * 2 ^ (short + gap + 1 - short)) =
        2 * (filled lengths short * 2 ^ (short + gap + 1 - short)) by ring]
    omega

/-- Too many codes of one length are too many of any greater length. -/
theorem filled_le_of_le {short long : Nat} (le : short ≤ long)
    (fits : filled lengths long ≤ 2 ^ long) : filled lengths short ≤ 2 ^ short := by
  rcases Nat.eq_or_lt_of_le le with rfl | hlt
  · exact fits
  · have hfirst := filled_mul_le_first lengths hlt
    have hfilled : first lengths long ≤ filled lengths long := Nat.le_add_right _ _
    have hpow : 2 ^ long = 2 ^ short * 2 ^ (long - short) := by
      rw [← Nat.pow_add]
      congr 1
      omega
    exact Nat.le_of_mul_le_mul_right (by omega) (Nat.two_pow_pos (long - short))

namespace HasLength

theorem getD (h : HasLength lengths symbol length) : lengths.getD symbol 0 = length := by
  rw [List.getD_eq_getElem?_getD, h.get, Option.getD_some]

theorem mem (h : HasLength lengths symbol length) : length ∈ lengths := List.mem_of_getElem? h.get

theorem code_eq (h : HasLength lengths symbol length) :
    code lengths symbol = first lengths length + (lengths.take symbol).count length := by
  rw [code, h.getD]

theorem split (h : HasLength lengths symbol length) :
    lengths = lengths.take symbol ++ length :: lengths.drop (symbol + 1) := by
  obtain ⟨hlt, heq⟩ := List.getElem?_eq_some_iff.mp h.get
  rw [← heq, ← List.drop_eq_getElem_cons hlt, List.take_append_drop]

theorem rank_lt (h : HasLength lengths symbol length) :
    (lengths.take symbol).count length < count lengths length := by
  have hcount := congrArg (List.count length) h.split
  rw [List.count_append, List.count_cons_self] at hcount
  rw [count, if_neg (Nat.ne_of_gt h.pos)]
  omega

theorem code_lt_filled (h : HasLength lengths symbol length) :
    code lengths symbol < filled lengths length := by
  have := h.rank_lt
  rw [h.code_eq, filled]
  omega

theorem first_le_code (h : HasLength lengths symbol length) :
    first lengths length ≤ code lengths symbol := by
  rw [h.code_eq]
  exact Nat.le_add_right _ _

theorem code_lt (h : HasLength lengths symbol length) (fits : filled lengths width ≤ 2 ^ width)
    (le : length ≤ width) : code lengths symbol < 2 ^ length :=
  Nat.lt_of_lt_of_le h.code_lt_filled (filled_le_of_le le fits)

theorem rank_lt_of_lt (h : HasLength lengths symbol length) (lt : symbol < other) :
    (lengths.take symbol).count length < (lengths.take other).count length := by
  have hlonger : (lengths.take (symbol + 1)).count length ≤ (lengths.take other).count length :=
    (List.take_sublist_take_left lt).count_le length
  have hself : lengths.take (symbol + 1) = lengths.take symbol ++ [length] := by
    rw [List.take_add_one, h.get]
    rfl
  rw [hself, List.count_append, List.count_singleton_self] at hlonger
  omega

/-- Codes of one length are different. -/
theorem eq_of_code_eq (h : HasLength lengths symbol length) (h' : HasLength lengths other length)
    (eq : code lengths symbol = code lengths other) : symbol = other := by
  rw [h.code_eq, h'.code_eq] at eq
  rcases Nat.lt_trichotomy symbol other with hlt | heq | hgt
  · have := h.rank_lt_of_lt hlt
    omega
  · exact heq
  · have := h'.rank_lt_of_lt hgt
    omega

/-- No code begins with a shorter one. -/
theorem code_ne_prefix {short long : Nat} (h : HasLength lengths symbol short)
    (h' : HasLength lengths other long) (lt : short < long) :
    code lengths other / 2 ^ (long - short) ≠ code lengths symbol := by
  have hfirst := filled_mul_le_first lengths lt
  have hcode : filled lengths short ≤ code lengths other / 2 ^ (long - short) :=
    (Nat.le_div_iff_mul_le (Nat.two_pow_pos _)).mpr (Nat.le_trans hfirst h'.first_le_code)
  have := h.code_lt_filled
  omega

/-- A word begins with the code of one symbol at most. -/
theorem unique {long word : Nat} (h : HasLength lengths symbol length)
    (h' : HasLength lengths other long) (le : length ≤ width) (le' : long ≤ width)
    (begins : word / 2 ^ (width - length) = code lengths symbol)
    (begins' : word / 2 ^ (width - long) = code lengths other) : symbol = other := by
  have hcut : ∀ {short long : Nat}, short ≤ long → long ≤ width →
      word / 2 ^ (width - long) / 2 ^ (long - short) = word / 2 ^ (width - short) := by
    intro short long hle hwidth
    rw [Nat.div_div_eq_div_mul, ← Nat.pow_add]
    congr 2
    omega
  rcases Nat.lt_trichotomy length long with hlt | rfl | hgt
  · refine absurd ?_ (h.code_ne_prefix h' hlt)
    rw [← begins', hcut (by omega) le', begins]
  · exact h.eq_of_code_eq h' (begins.symm.trans begins')
  · refine absurd ?_ (h'.code_ne_prefix h hgt)
    rw [← begins, hcut (by omega) le, begins']

end HasLength

private theorem exists_rank {rank : Nat} (lt : rank < lengths.count length) :
    ∃ symbol, lengths[symbol]? = some length ∧ (lengths.take symbol).count length = rank := by
  induction lengths generalizing rank with
  | nil => cases lt
  | cons head lengths ih =>
    by_cases hhead : head = length
    · subst hhead
      cases rank with
      | zero => exact ⟨0, rfl, rfl⟩
      | succ rank =>
        rw [List.count_cons_self] at lt
        obtain ⟨symbol, hget, hrank⟩ := @ih rank (by omega)
        exact ⟨symbol + 1, hget, by rw [List.take_succ_cons, List.count_cons_self, hrank]⟩
    · rw [List.count_cons_of_ne hhead] at lt
      obtain ⟨symbol, hget, hrank⟩ := ih lt
      exact ⟨symbol + 1, hget, by rw [List.take_succ_cons, List.count_cons_of_ne hhead, hrank]⟩

/-- From the first code of a length on, every number below the end is a code. -/
theorem exists_code {value : Nat} (pos : 0 < length) (lo : first lengths length ≤ value)
    (hi : value < filled lengths length) :
    ∃ symbol, HasLength lengths symbol length ∧ code lengths symbol = value := by
  rw [filled, count, if_neg (Nat.ne_of_gt pos)] at hi
  obtain ⟨symbol, hget, hrank⟩ :=
    exists_rank (show value - first lengths length < lengths.count length by omega)
  have hsymbol : HasLength lengths symbol length := ⟨hget, pos⟩
  exact ⟨symbol, hsymbol, by rw [hsymbol.code_eq, hrank]; omega⟩

theorem count_append_zeros (lengths : List Nat) (zeros length : Nat) :
    count (lengths ++ List.replicate zeros 0) length = count lengths length := by
  by_cases hzero : length = 0
  · simp [count, hzero]
  · rw [count, count, if_neg hzero, if_neg hzero, List.count_append, List.count_replicate,
      if_neg (by simpa using Ne.symm hzero), Nat.add_zero]

theorem first_append_zeros (lengths : List Nat) (zeros length : Nat) :
    first (lengths ++ List.replicate zeros 0) length = first lengths length := by
  induction length with
  | zero => rfl
  | succ length ih => rw [first, first, ih, count_append_zeros]

theorem kraftSum_append_zeros (lengths : List Nat) (zeros : Nat) :
    kraftSum (lengths ++ List.replicate zeros 0) = kraftSum lengths := by
  simp [kraftSum]

theorem HasLength.of_append_zeros {zeros : Nat}
    (h : HasLength (lengths ++ List.replicate zeros 0) symbol length) :
    HasLength lengths symbol length := by
  refine ⟨?_, h.pos⟩
  by_cases hlt : symbol < lengths.length
  · rw [← h.get, List.getElem?_append_left hlt]
  · have hget := h.get
    have hpos := h.pos
    rw [List.getElem?_append_right (by omega), List.getElem?_replicate] at hget
    split at hget
    · have := Option.some.inj hget
      omega
    · cases hget

theorem HasLength.append_zeros (h : HasLength lengths symbol length) (zeros : Nat) :
    HasLength (lengths ++ List.replicate zeros 0) symbol length := by
  refine ⟨?_, h.pos⟩
  rw [List.getElem?_append_left (List.getElem?_eq_some_iff.mp h.get).1, h.get]

theorem HasLength.code_append_zeros (h : HasLength lengths symbol length) (zeros : Nat) :
    (lengths ++ List.replicate zeros 0).getD symbol 0 = length ∧
      code (lengths ++ List.replicate zeros 0) symbol = code lengths symbol := by
  have hlt := (List.getElem?_eq_some_iff.mp h.get).1
  have hget : (lengths ++ List.replicate zeros 0).getD symbol 0 = length := by
    rw [List.getD_eq_getElem?_getD, List.getElem?_append_left hlt, h.get, Option.getD_some]
  refine ⟨hget, ?_⟩
  rw [code, code, hget, h.getD, first_append_zeros, List.take_append_of_le_length (by omega)]

end Fbz.CanonicalCode
