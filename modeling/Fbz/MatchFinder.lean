import Fbz.Bytes

/-!
# Match finders

`match_length` and the two hash tables the compressors search. Tables hold earlier positions, or
`NONE`; whatever a search returns is a true match that starts before the position searched from.
-/

namespace Fbz

/-- `HASH_SIZE`, the entries of the table. -/
def hashSize : Nat := 2 ^ 16

/-- `NONE`, the largest `u32`. -/
def noPosition : Nat := 2 ^ 32 - 1

/-- `trailing_zeros` of a 64-bit word. -/
def trailingZeros (n : Nat) : Nat :=
  if n = 0 then 64 else if n % 2 = 1 then 0 else trailingZeros (n / 2) + 1
termination_by n
decreasing_by omega

/-- The comparison byte by byte from `length` on. -/
def matchTail (bytes : List UInt8) (left right limit length : Nat) : Nat :=
  if length < limit ∧ bytes[left + length]? = bytes[right + length]? then
    matchTail bytes left right limit (length + 1)
  else length
termination_by limit - length

/-- The comparison by words of eight bytes. -/
def matchWords (bytes : List UInt8) (left right limit length : Nat) : Nat :=
  if length + 8 ≤ limit then
    let a := leNat (slice bytes (left + length) (left + length + 8))
    let b := leNat (slice bytes (right + length) (right + length + 8))
    let different := a ^^^ b
    if different ≠ 0 then length + trailingZeros different / 8
    else matchWords bytes left right limit (length + 8)
  else matchTail bytes left right limit length
termination_by limit - length

def matchLength (bytes : List UInt8) (left right limit : Nat) : Nat :=
  matchWords bytes left right limit 0

/-- Bytes at the two positions agree for `length` bytes. -/
def Matches (bytes : List UInt8) (left right length : Nat) : Prop :=
  ∀ i < length, bytes[left + i]? = bytes[right + i]?

structure LatestMatch where
  head : Nat → Nat
  window : Nat

namespace LatestMatch

def new (window : Nat) : LatestMatch := ⟨fun _ => noPosition, window⟩

def hash (bytes : List UInt8) (position : Nat) : Nat :=
  leNat (slice bytes position (position + 4)) * 0x9e3779b1 % 2 ^ 32 / 2 ^ 16

theorem hash_lt (bytes : List UInt8) (position : Nat) : hash bytes position < hashSize :=
  Nat.div_lt_of_lt_mul (Nat.mod_lt _ (by decide))

def store (finder : LatestMatch) (slot position : Nat) : LatestMatch :=
  { finder with head := fun other => if other = slot then position % 2 ^ 32 else finder.head other }

def insertAndFind (finder : LatestMatch) (bytes : List UInt8) (position : Nat) :
    LatestMatch × Option Nat :=
  if position + 4 > bytes.length then (finder, none)
  else
    let slot := hash bytes position
    let candidate := finder.head slot
    let finder := finder.store slot position
    if candidate = noPosition then (finder, none)
    else if position - candidate ≤ finder.window ∧
        slice bytes candidate (candidate + 4) = slice bytes position (position + 4) then
      (finder, some candidate)
    else (finder, none)

def insert (finder : LatestMatch) (bytes : List UInt8) (position : Nat) : LatestMatch :=
  if position + 4 ≤ bytes.length then finder.store (hash bytes position) position else finder

/-- Every stored position lies before `position`. -/
def Before (finder : LatestMatch) (position : Nat) : Prop :=
  ∀ slot, finder.head slot = noPosition ∨ finder.head slot < position

end LatestMatch

structure HashChain where
  head : Nat → Nat
  previous : Option (Nat → Nat)
  window : Nat

namespace HashChain

/-- `HashChain::new` behind its assertion; the length of the input only sizes the table of previous
positions. -/
def new (window maxChain : Nat) : HashChain :=
  ⟨fun _ => noPosition, if maxChain > 1 then some fun _ => noPosition else none, window⟩

/-- What `HashChain::new` asserts of the length of its input. -/
def Fits (inputLen : Nat) : Prop := inputLen < noPosition

instance (inputLen : Nat) : Decidable (Fits inputLen) := inferInstanceAs (Decidable (_ < _))

def hash (bytes : List UInt8) (position : Nat) : Nat :=
  let byte (i : Nat) := (bytes[position + i]?.map UInt8.toNat).getD 0
  (byte 0 * 2 ^ 16 ||| byte 1 * 2 ^ 8 ||| byte 2) * 0x1e35a7bd % 2 ^ 32 / 2 ^ 16

theorem hash_lt (bytes : List UInt8) (position : Nat) : hash bytes position < hashSize :=
  Nat.div_lt_of_lt_mul (Nat.mod_lt _ (by decide))

def insert (finder : HashChain) (bytes : List UInt8) (position : Nat) : HashChain :=
  if position + 2 ≥ bytes.length then finder
  else
    let slot := hash bytes position
    { finder with
      previous := finder.previous.map fun previous =>
        fun other => if other = position then finder.head slot else previous other
      head := fun other => if other = slot then position % 2 ^ 32 else finder.head other }

/-- How far the match at a candidate reaches, when it can beat `bestLength` at all. -/
def candidateLength (bytes : List UInt8) (candidate position limit bestLength : Nat) : Nat :=
  if bytes[candidate]? = bytes[position]? ∧
      bytes[candidate + bestLength]? = bytes[position + bestLength]? then
    matchLength bytes candidate position limit
  else 0

/-- The walk along the chain: length and distance of the best match so far. -/
def search (finder : HashChain) (bytes : List UInt8) (position limit maxChain minimum : Nat)
    (candidate bestLength bestDistance searched : Nat) : Nat × Nat :=
  if candidate ≠ noPosition ∧ minimum ≤ candidate ∧ searched < maxChain then
    let distance := position - candidate
    let next := (finder.previous.map fun previous => previous candidate).getD noPosition
    let length := candidateLength bytes candidate position limit bestLength
    if length > bestLength then
      if length = limit then (length, distance)
      else if searched + 1 ≥ maxChain then (length, distance)
      else search finder bytes position limit maxChain minimum next length distance (searched + 1)
    else if searched + 1 ≥ maxChain then (bestLength, bestDistance)
    else
      search finder bytes position limit maxChain minimum next bestLength bestDistance (searched + 1)
  else (bestLength, bestDistance)
termination_by maxChain - searched

def bestMatch (finder : HashChain) (bytes : List UInt8)
    (position maxLength minLength maxChain : Nat) : Nat × Nat :=
  if position + minLength > bytes.length ∨ minLength < 3 then (0, 0)
  else
    let best := finder.search bytes position (min (bytes.length - position) maxLength) maxChain
      (position - finder.window) (finder.head (hash bytes position)) (minLength - 1) 0 0
    if best.1 ≥ minLength then best else (0, 0)

/-- Every stored position lies before `position`. -/
structure Before (finder : HashChain) (position : Nat) : Prop where
  head : ∀ slot, finder.head slot = noPosition ∨ finder.head slot < position
  previous : ∀ previous, finder.previous = some previous →
    ∀ i, previous i = noPosition ∨ previous i < position

end HashChain

private theorem trailingZeros_double {n : Nat} (h : n ≠ 0) :
    trailingZeros (2 * n) = trailingZeros n + 1 := by
  rw [trailingZeros, if_neg (by omega), if_neg (by omega)]
  congr 2
  omega

private theorem trailingZeros_shift {n : Nat} (h : n ≠ 0) (k : Nat) :
    trailingZeros (2 ^ k * n) = trailingZeros n + k := by
  induction k with
  | zero => simp
  | succ k ih =>
    have hne : 2 ^ k * n ≠ 0 := Nat.mul_ne_zero (Nat.pos_iff_ne_zero.mp (Nat.two_pow_pos k)) h
    rw [Nat.pow_succ', Nat.mul_assoc, trailingZeros_double hne, ih, Nat.add_assoc]

private theorem trailingZeros_lt {n k : Nat} (h : n % 2 ^ k ≠ 0) : trailingZeros n < k := by
  induction k generalizing n with
  | zero => simp [Nat.mod_one] at h
  | succ k ih =>
    rw [trailingZeros]
    split
    case isTrue hz => simp [hz] at h
    case isFalse hz =>
    split
    case isTrue => omega
    case isFalse he =>
      have : n / 2 % 2 ^ k ≠ 0 := fun h0 => h (by
        rw [Nat.pow_succ', Nat.mod_mul, h0]
        omega)
      have := ih this
      omega

private theorem leNat_xor_cons (x y : UInt8) (xs ys : List UInt8) :
    leNat (x :: xs) ^^^ leNat (y :: ys) =
      (x.toNat ^^^ y.toNat) + 256 * (leNat xs ^^^ leNat ys) := by
  have hx := x.toNat_lt
  have hy := y.toNat_lt
  have hxy : x.toNat ^^^ y.toNat < 2 ^ 8 := Nat.xor_lt_two_pow hx hy
  rw [← Nat.mod_add_div (leNat (x :: xs) ^^^ leNat (y :: ys)) (2 ^ 8), Nat.xor_mod_two_pow,
    Nat.xor_div_two_pow, leNat, leNat]
  congr 2 <;> congr 1 <;> omega

private theorem xor_eq_zero {a b : Nat} (h : a ^^^ b = 0) : a = b := by
  have : a ^^^ b ^^^ b = b := by rw [h, Nat.zero_xor]
  rwa [Nat.xor_assoc, Nat.xor_self, Nat.xor_zero] at this

/-- The lowest set bit of the difference of two words finds the first byte that differs. -/
private theorem first_difference {xs ys : List UInt8} (len : xs.length = ys.length)
    (different : leNat xs ^^^ leNat ys ≠ 0) :
    trailingZeros (leNat xs ^^^ leNat ys) / 8 < xs.length ∧
      (∀ i < trailingZeros (leNat xs ^^^ leNat ys) / 8, xs[i]? = ys[i]?) ∧
      xs[trailingZeros (leNat xs ^^^ leNat ys) / 8]? ≠
        ys[trailingZeros (leNat xs ^^^ leNat ys) / 8]? := by
  induction xs generalizing ys with
  | nil =>
    cases ys with
    | nil => exact absurd rfl different
    | cons y ys => cases len
  | cons x xs ih =>
    cases ys with
    | nil => cases len
    | cons y ys =>
      rw [leNat_xor_cons] at different ⊢
      by_cases hxy : x = y
      · subst hxy
        rw [Nat.xor_self, Nat.zero_add] at different ⊢
        have hrest : leNat xs ^^^ leNat ys ≠ 0 := fun h => different (by rw [h])
        obtain ⟨h1, h2, h3⟩ := ih (by simpa using len) hrest
        have hshift : trailingZeros (256 * (leNat xs ^^^ leNat ys)) / 8 =
            trailingZeros (leNat xs ^^^ leNat ys) / 8 + 1 := by
          rw [show (256 : Nat) = 2 ^ 8 from rfl, trailingZeros_shift hrest]
          omega
        rw [hshift]
        refine ⟨by simpa using h1, fun i hi => ?_, by simpa using h3⟩
        cases i with
        | zero => rfl
        | succ i => simpa using h2 i (by omega)
      · have hne : x.toNat ^^^ y.toNat ≠ 0 := fun h => hxy (UInt8.toNat_inj.mp (xor_eq_zero h))
        have hlt : x.toNat ^^^ y.toNat < 2 ^ 8 := Nat.xor_lt_two_pow x.toNat_lt y.toNat_lt
        have hzero : trailingZeros ((x.toNat ^^^ y.toNat) + 256 * (leNat xs ^^^ leNat ys)) / 8 = 0 := by
          have := @trailingZeros_lt ((x.toNat ^^^ y.toNat) + 256 * (leNat xs ^^^ leNat ys)) 8 (by
            rw [show (256 : Nat) = 2 ^ 8 from rfl, Nat.add_mul_mod_self_left, Nat.mod_eq_of_lt hlt]
            exact hne)
          omega
        rw [hzero]
        exact ⟨by simp, by omega, by simpa using hxy⟩

private theorem leNat_inj {xs ys : List UInt8} (len : xs.length = ys.length)
    (h : leNat xs = leNat ys) : xs = ys := by
  induction xs generalizing ys with
  | nil => exact (List.length_eq_zero_iff.mp len.symm).symm
  | cons x xs ih =>
    cases ys with
    | nil => cases len
    | cons y ys =>
      rw [leNat, leNat] at h
      have hx := x.toNat_lt
      have hy := y.toNat_lt
      rw [UInt8.toNat_inj.mp (by omega : x.toNat = y.toNat),
        ih (by simpa using len) (by omega)]

theorem getElem?_slice {α : Type} {xs : List α} {start stop i : Nat} (lt : start + i < stop) :
    (slice xs start stop)[i]? = xs[start + i]? := by
  rw [slice, List.getElem?_take_of_lt (by omega), List.getElem?_drop]

private theorem le_trailingZeros {n k : Nat} (ne : n ≠ 0) (h : n % 2 ^ k = 0) :
    k ≤ trailingZeros n := by
  induction k generalizing n with
  | zero => exact Nat.zero_le _
  | succ k ih =>
    have hdvd := Nat.dvd_of_mod_eq_zero h
    obtain ⟨m, rfl⟩ : ∃ m, n = 2 * m := by
      obtain ⟨m, rfl⟩ := hdvd
      exact ⟨2 ^ k * m, by rw [Nat.pow_succ', Nat.mul_assoc]⟩
    have hm : m ≠ 0 := fun h0 => ne (by rw [h0])
    rw [Nat.pow_succ', Nat.mul_mod_mul_left] at h
    rw [trailingZeros_double hm]
    have := ih hm (by omega)
    omega

private theorem leNat_take (xs : List UInt8) (k : Nat) :
    leNat (xs.take k) = leNat xs % 2 ^ (8 * k) := by
  induction k generalizing xs with
  | zero => simp [leNat, Nat.mod_one]
  | succ k ih =>
    cases xs with
    | nil => simp [leNat]
    | cons x xs =>
      have hx := x.toNat_lt
      rw [List.take_succ_cons, leNat, leNat, ih, Nat.mul_succ, Nat.add_comm (8 * k), Nat.pow_add,
        Nat.mod_mul, show (x.toNat + 256 * leNat xs) / 2 ^ 8 = leNat xs by omega]
      omega

section MatchLength

variable {bytes : List UInt8} {left right limit : Nat}

private theorem le_matchTail (length : Nat) :
    length ≤ matchTail bytes left right limit length := by
  induction length using matchTail.induct bytes left right limit with
  | case1 length h ih => rw [matchTail, if_pos h]; omega
  | case2 length h => exact Nat.le_of_eq (by rw [matchTail, if_neg h])

private theorem le_matchTail_of {length stop : Nat} (room : stop ≤ limit)
    (same : ∀ i, length ≤ i → i < stop → bytes[left + i]? = bytes[right + i]?) :
    stop ≤ matchTail bytes left right limit length := by
  induction length using matchTail.induct bytes left right limit with
  | case1 length h ih =>
    rw [matchTail, if_pos h]
    exact ih fun i hi => same i (by omega)
  | case2 length h =>
    rw [matchTail, if_neg h]
    refine Nat.le_of_not_lt fun hlt => h ⟨by omega, same length (Nat.le_refl _) hlt⟩

private theorem matchTail_spec {length : Nat} (le : length ≤ limit)
    (same : Matches bytes left right length) :
    matchTail bytes left right limit length ≤ limit ∧
    Matches bytes left right (matchTail bytes left right limit length) ∧
      (matchTail bytes left right limit length < limit →
        bytes[left + matchTail bytes left right limit length]? ≠
          bytes[right + matchTail bytes left right limit length]?) := by
  induction length using matchTail.induct bytes left right limit with
  | case1 length h ih =>
    rw [matchTail, if_pos h]
    refine ih h.1 fun i hi => ?_
    rcases Nat.lt_succ_iff_lt_or_eq.mp hi with hlt | rfl
    · exact same i hlt
    · exact h.2
  | case2 length h =>
    rw [matchTail, if_neg h]
    exact ⟨le, same, fun hlt heq => h ⟨hlt, heq⟩⟩

private theorem le_matchWords (length : Nat) :
    length ≤ matchWords bytes left right limit length := by
  induction length using matchWords.induct bytes left right limit with
  | case1 length fits a b different hne =>
    rw [matchWords, if_pos fits]
    dsimp only
    rw [if_pos hne]
    exact Nat.le_add_right _ _
  | case2 length fits a b different heq ih =>
    rw [matchWords, if_pos fits]
    dsimp only
    rw [if_neg heq]
    omega
  | case3 length fits =>
    rw [matchWords, if_neg fits]
    exact le_matchTail length

private theorem matchWords_spec {length : Nat} (hl : left + limit ≤ bytes.length)
    (hr : right + limit ≤ bytes.length) (le : length ≤ limit)
    (same : Matches bytes left right length) :
    matchWords bytes left right limit length ≤ limit ∧
    Matches bytes left right (matchWords bytes left right limit length) ∧
      (matchWords bytes left right limit length < limit →
        bytes[left + matchWords bytes left right limit length]? ≠
          bytes[right + matchWords bytes left right limit length]?) := by
  induction length using matchWords.induct bytes left right limit with
  | case1 length fits a b different hne =>
    rw [matchWords, if_pos fits]
    dsimp only
    rw [if_pos hne]
    have ha : (slice bytes (left + length) (left + length + 8)).length = 8 := by
      rw [slice_length (by omega)]; omega
    have hb : (slice bytes (right + length) (right + length + 8)).length = 8 := by
      rw [slice_length (by omega)]; omega
    obtain ⟨h1, h2, h3⟩ := first_difference (ha.trans hb.symm) hne
    rw [ha] at h1
    refine ⟨by omega, fun i hi => ?_, fun _ => ?_⟩
    · rcases Nat.lt_or_ge i length with hlt | hge
      · exact same i hlt
      · obtain ⟨k, rfl⟩ := Nat.exists_eq_add_of_le hge
        have := h2 k (by omega)
        rw [getElem?_slice (by omega), getElem?_slice (by omega)] at this
        rwa [← Nat.add_assoc, ← Nat.add_assoc]
    · rw [getElem?_slice (by omega), getElem?_slice (by omega)] at h3
      rwa [← Nat.add_assoc, ← Nat.add_assoc]
  | case2 length fits a b different heq ih =>
    rw [matchWords, if_pos fits]
    dsimp only
    rw [if_neg heq]
    have ha : (slice bytes (left + length) (left + length + 8)).length = 8 := by
      rw [slice_length (by omega)]; omega
    have hb : (slice bytes (right + length) (right + length + 8)).length = 8 := by
      rw [slice_length (by omega)]; omega
    have hword := leNat_inj (ha.trans hb.symm) (xor_eq_zero (not_not.mp heq))
    refine ih fits fun i hi => ?_
    rcases Nat.lt_or_ge i length with hlt | hge
    · exact same i hlt
    · obtain ⟨k, rfl⟩ := Nat.exists_eq_add_of_le hge
      have : (slice bytes (left + length) (left + length + 8))[k]? =
          (slice bytes (right + length) (right + length + 8))[k]? := by rw [hword]
      rw [getElem?_slice (by omega), getElem?_slice (by omega)] at this
      rwa [← Nat.add_assoc, ← Nat.add_assoc]
  | case3 length fits =>
    rw [matchWords, if_neg fits]
    exact matchTail_spec le same

theorem matchLength_spec (hl : left + limit ≤ bytes.length) (hr : right + limit ≤ bytes.length) :
    matchLength bytes left right limit ≤ limit ∧
    Matches bytes left right (matchLength bytes left right limit) ∧
      (matchLength bytes left right limit < limit →
        bytes[left + matchLength bytes left right limit]? ≠
          bytes[right + matchLength bytes left right limit]?) :=
  matchWords_spec hl hr (Nat.zero_le _) fun i hi => absurd hi (Nat.not_lt_zero i)

theorem le_matchLength {length : Nat} (hl : left + limit ≤ bytes.length)
    (hr : right + limit ≤ bytes.length) (le : length ≤ limit)
    (same : Matches bytes left right length) : length ≤ matchLength bytes left right limit := by
  obtain ⟨-, -, h⟩ := matchLength_spec hl hr
  refine Nat.le_of_not_lt fun hlt => h (by omega) ?_
  exact same _ hlt

private theorem four_le_matchLength
    (same : slice bytes left (left + 4) = slice bytes right (right + 4))
    (room : 4 ≤ limit) : 4 ≤ matchLength bytes left right limit := by
  have hbyte (i : Nat) (hi : i < 4) : bytes[left + i]? = bytes[right + i]? := by
    rw [← @getElem?_slice _ bytes left (left + 4) i (by omega), same, getElem?_slice (by omega)]
  unfold matchLength
  rw [matchWords]
  split
  case isTrue words =>
    dsimp only
    split
    case isTrue different =>
      have hmod : (leNat (slice bytes (left + 0) (left + 0 + 8)) ^^^
          leNat (slice bytes (right + 0) (right + 0 + 8))) % 2 ^ 32 = 0 := by
        rw [Nat.xor_mod_two_pow, ← leNat_take _ 4, ← leNat_take _ 4]
        simp only [slice, List.take_take, Nat.add_zero] at same ⊢
        rw [show min 4 (left + 8 - left) = left + 4 - left by omega,
          show min 4 (right + 8 - right) = right + 4 - right by omega, same, Nat.xor_self]
      have := le_trailingZeros different hmod
      omega
    case isFalse =>
      have := @le_matchWords bytes left right limit (0 + 8)
      omega
  case isFalse => exact le_matchTail_of room fun i _ hi => hbyte i hi

end MatchLength

namespace LatestMatch

variable {finder : LatestMatch} {bytes : List UInt8} {position : Nat}

theorem before_new (window : Nat) : (new window).Before position := fun _ => .inl rfl

theorem Before.mono {later : Nat} (h : finder.Before position) (le : position ≤ later) :
    finder.Before later := fun slot => (h slot).imp_right fun hlt => by omega

private theorem Before.store {slot stored : Nat} (h : finder.Before position)
    (lt : stored < position) : (finder.store slot stored).Before position := fun other => by
  rw [LatestMatch.store]
  dsimp only
  split
  · have := Nat.mod_le stored (2 ^ 32)
    exact .inr (by omega)
  · exact h other

theorem Before.insert {inserted : Nat} (h : finder.Before position) (lt : inserted < position) :
    (finder.insert bytes inserted).Before position := by
  unfold LatestMatch.insert
  split
  · exact h.store lt
  · exact h

@[simp] theorem store_window (slot stored : Nat) :
    (finder.store slot stored).window = finder.window := rfl

@[simp] theorem insert_window (inserted : Nat) :
    (finder.insert bytes inserted).window = finder.window := by
  unfold LatestMatch.insert
  split <;> rfl

@[simp] theorem insertAndFind_window :
    (finder.insertAndFind bytes position).1.window = finder.window := by
  unfold insertAndFind
  split
  · rfl
  · dsimp only
    split
    · rfl
    · split <;> rfl

/-- What is found is at least four bytes long. -/
theorem four_le_matchLength {after : LatestMatch} {candidate limit : Nat}
    (found : finder.insertAndFind bytes position = (after, some candidate)) (room : 4 ≤ limit) :
    4 ≤ matchLength bytes position candidate limit := by
  unfold insertAndFind at found
  split at found
  case isTrue => cases found
  case isFalse fits =>
  dsimp only at found
  split at found
  case isTrue => cases found
  case isFalse stored =>
  split at found
  case isFalse => cases found
  case isTrue near =>
    simp only [Prod.mk.injEq, Option.some.injEq] at found
    obtain ⟨-, rfl⟩ := found
    exact Fbz.four_le_matchLength near.2.symm room

theorem Before.insertAndFind (h : finder.Before position) :
    (finder.insertAndFind bytes position).1.Before (position + 1) := by
  have hmono := h.mono (Nat.le_succ position)
  unfold LatestMatch.insertAndFind
  split
  · exact hmono
  · dsimp only
    split
    · exact hmono.store (Nat.lt_succ_self _)
    · split <;> exact hmono.store (Nat.lt_succ_self _)

/-- A candidate lies before the position, inside the window, and agrees on four bytes. -/
theorem insertAndFind_some {candidate : Nat} (h : finder.Before position)
    (found : (finder.insertAndFind bytes position).2 = some candidate) :
    candidate < position ∧ position - candidate ≤ finder.window ∧ position + 4 ≤ bytes.length ∧
      Matches bytes position candidate 4 := by
  unfold insertAndFind at found
  split at found
  case isTrue => cases found
  case isFalse fits =>
  dsimp only at found
  split at found
  case isTrue => cases found
  case isFalse stored =>
  split at found
  case isFalse => cases found
  case isTrue near =>
    obtain rfl := Option.some.inj found
    refine ⟨(h _).resolve_left stored, near.1, by omega, fun i hi => ?_⟩
    have hget := congrArg (fun xs => xs[i]?) near.2
    rw [getElem?_slice (by omega), getElem?_slice (by omega)] at hget
    exact hget.symm

end LatestMatch

namespace HashChain

variable {finder : HashChain} {bytes : List UInt8} {position : Nat}

theorem before_new (window maxChain : Nat) : (new window maxChain).Before position := by
  refine ⟨fun _ => .inl rfl, fun previous h i => ?_⟩
  unfold new at h
  split at h
  · obtain rfl := Option.some.inj h
    exact .inl rfl
  · cases h

theorem Before.mono {later : Nat} (h : finder.Before position) (le : position ≤ later) :
    finder.Before later :=
  ⟨fun slot => (h.head slot).imp_right fun hlt => by omega,
    fun previous hp i => (h.previous previous hp i).imp_right fun hlt => by omega⟩

theorem Before.insert {inserted : Nat} (h : finder.Before position) (lt : inserted < position) :
    (finder.insert bytes inserted).Before position := by
  unfold HashChain.insert
  split
  case isTrue => exact h
  case isFalse =>
  refine ⟨fun other => ?_, fun previous hp i => ?_⟩
  · dsimp only
    split
    · have := Nat.mod_le inserted (2 ^ 32)
      exact .inr (by omega)
    · exact h.head other
  · obtain ⟨old, hold, rfl⟩ := Option.map_eq_some_iff.mp hp
    dsimp only
    split
    · exact h.head _
    · exact h.previous old hold i

@[simp] theorem insert_window (inserted : Nat) :
    (finder.insert bytes inserted).window = finder.window := by
  unfold HashChain.insert
  split <;> rfl

/-- A match of this length at this distance before `position`. -/
structure Found (finder : HashChain) (bytes : List UInt8) (position length distance : Nat) :
    Prop where
  fits : position + length ≤ bytes.length
  pos : 0 < distance
  near : distance ≤ finder.window
  inside : distance ≤ position
  same : Matches bytes (position - distance) position length

private theorem found_of_candidate {candidate limit bestLength : Nat}
    (room : position + limit ≤ bytes.length) (lt : candidate < position)
    (near : position - finder.window ≤ candidate)
    (longer : bestLength < candidateLength bytes candidate position limit bestLength) :
    candidateLength bytes candidate position limit bestLength ≤ limit ∧
      finder.Found bytes position (candidateLength bytes candidate position limit bestLength)
        (position - candidate) := by
  unfold candidateLength at longer ⊢
  split at longer
  case isFalse => omega
  case isTrue same =>
    rw [if_pos same]
    obtain ⟨hle, hsame, -⟩ := @matchLength_spec bytes candidate position limit (by omega) room
    refine ⟨hle, by omega, by omega, by omega, by omega, ?_⟩
    rwa [show position - (position - candidate) = candidate by omega]

/-- The search keeps the match it has or returns a longer one. -/
theorem search_spec {limit maxChain candidate bestLength bestDistance searched : Nat}
    (h : finder.Before position) (room : position + limit ≤ bytes.length)
    (stored : candidate = noPosition ∨ candidate < position) :
    let result := finder.search bytes position limit maxChain (position - finder.window) candidate
      bestLength bestDistance searched
    result = (bestLength, bestDistance) ∨
      bestLength < result.1 ∧ result.1 ≤ limit ∧ finder.Found bytes position result.1 result.2 := by
  have hnext (candidate : Nat) :
      (finder.previous.map fun previous => previous candidate).getD noPosition = noPosition ∨
        (finder.previous.map fun previous => previous candidate).getD noPosition < position := by
    cases hp : finder.previous with
    | none => exact .inl rfl
    | some previous => exact h.previous previous hp candidate
  dsimp only
  induction candidate, bestLength, bestDistance, searched using search.induct finder bytes position
    limit maxChain (position - finder.window) with
  | case1 candidate bestLength bestDistance searched more length longer full =>
    obtain ⟨hle, hfound⟩ := found_of_candidate room (stored.resolve_left more.1) more.2.1 longer
    rw [search, if_pos more]
    dsimp only
    rw [if_pos longer, if_pos full]
    exact .inr ⟨longer, hle, hfound⟩
  | case2 candidate bestLength bestDistance searched more length longer full last =>
    obtain ⟨hle, hfound⟩ := found_of_candidate room (stored.resolve_left more.1) more.2.1 longer
    rw [search, if_pos more]
    dsimp only
    rw [if_pos longer, if_neg full, if_pos last]
    exact .inr ⟨longer, hle, hfound⟩
  | case3 candidate bestLength bestDistance searched more distance next length longer full last ih =>
    obtain ⟨hle, hfound⟩ := found_of_candidate room (stored.resolve_left more.1) more.2.1 longer
    rw [search, if_pos more]
    dsimp only
    rw [if_pos longer, if_neg full, if_neg last]
    rcases ih (hnext candidate) with heq | ⟨hlt, hrest⟩
    · rw [heq]
      exact .inr ⟨longer, hle, hfound⟩
    · exact .inr ⟨Nat.lt_trans longer hlt, hrest⟩
  | case4 candidate bestLength bestDistance searched more length short last =>
    rw [search, if_pos more]
    dsimp only
    rw [if_neg short, if_pos last]
    exact .inl rfl
  | case5 candidate bestLength bestDistance searched more next length short last ih =>
    rw [search, if_pos more]
    dsimp only
    rw [if_neg short, if_neg last]
    exact ih (hnext candidate)
  | case6 candidate bestLength bestDistance searched none =>
    rw [search, if_neg none]
    exact .inl rfl

/-- `best_match` returns nothing, or a match of at least the least length asked for. -/
theorem bestMatch_spec {maxLength minLength maxChain : Nat} (h : finder.Before position) :
    let result := finder.bestMatch bytes position maxLength minLength maxChain
    result = (0, 0) ∨ minLength ≤ result.1 ∧ result.1 ≤ maxLength ∧ 3 ≤ minLength ∧
      finder.Found bytes position result.1 result.2 := by
  dsimp only
  unfold bestMatch
  split
  case isTrue => exact .inl rfl
  case isFalse fits =>
  dsimp only
  split
  case isFalse => exact .inl rfl
  case isTrue long =>
    rcases @search_spec finder bytes position (min (bytes.length - position) maxLength) maxChain
      (finder.head (hash bytes position)) (minLength - 1) 0 0 h (by omega) (h.head _) with heq | hmore
    · rw [heq] at long
      omega
    · exact .inr ⟨long, by omega, by omega, hmore.2.2⟩

end HashChain

end Fbz
