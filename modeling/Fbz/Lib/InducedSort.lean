import Mathlib.Algebra.Order.Ring.Int
import Mathlib.Data.Finset.Card
import Mathlib.Data.Finset.Range
import Mathlib.Data.Fintype.EquivFin
import Mathlib.Data.Prod.Lex

/-!
# Places of the positions of a string in induced sorting

A string by its positions, each with a letter and a type, ends with its smallest letter. The places
of a sorted list of positions are in buckets, one for each letter; in a bucket, the positions that
are not small come first. The small positions behind one that is not have places from the start. A
first pass gives the positions that are not small their places, each from the place of the next
position, and a second pass the small ones.
-/

namespace Fbz.InducedSort

variable {α κ : Type} [LinearOrder α] [LinearOrder κ]

/-- A string by its positions. Types agree with the letters as far as these decide. -/
structure Text (α : Type) [LinearOrder α] where
  size : Nat
  letter : Nat → α
  small : Nat → Bool
  size_pos : 0 < size
  small_last : small (size - 1) = true
  last_lt : ∀ {i}, i + 1 < size → letter (size - 1) < letter i
  small_le : ∀ {i}, i + 1 < size → small i = true →
    toLex (letter i, small i) ≤ toLex (letter (i + 1), small (i + 1))
  large_le : ∀ {i}, i + 1 < size → small i = false →
    toLex (letter (i + 1), small (i + 1)) ≤ toLex (letter i, small i)

namespace Text

variable (t : Text α)

def head (i : Nat) : α ×ₗ Bool := toLex (t.letter i, t.small i)

/-- How many positions have a property. -/
def count (p : Nat → Prop) [DecidablePred p] : Nat := ((Finset.range t.size).filter p).card

def start (c : α) : Nat := t.count fun i => t.letter i < c

def stop (c : α) : Nat := t.count fun i => t.letter i ≤ c

/-- Where the small positions of a bucket begin. -/
def middle (c : α) : Nat :=
  t.start c + t.count fun i => t.letter i = c ∧ t.small i = false

/-- A small position behind one that is not. -/
def IsLms (q : Nat) : Prop := 0 < q ∧ q < t.size ∧ t.small q = true ∧ t.small (q - 1) = false

/-- The positions with a place during the first pass. -/
def Seen (p : Nat) : Prop := p < t.size ∧ (t.small p = true → t.IsLms p)

variable {t}

theorem count_le {p q : Nat → Prop} [DecidablePred p] [DecidablePred q]
    (h : ∀ i, i < t.size → p i → q i) : t.count p ≤ t.count q := by
  refine Finset.card_le_card fun i hi => ?_
  rw [Finset.mem_filter, Finset.mem_range] at hi ⊢
  exact ⟨hi.1, h i hi.1 hi.2⟩

theorem count_congr {p q : Nat → Prop} [DecidablePred p] [DecidablePred q]
    (h : ∀ i, i < t.size → (p i ↔ q i)) : t.count p = t.count q :=
  Nat.le_antisymm (count_le fun i hi => (h i hi).mp) (count_le fun i hi => (h i hi).mpr)

theorem count_lt {p q : Nat → Prop} [DecidablePred p] [DecidablePred q] {j : Nat}
    (h : ∀ i, i < t.size → p i → q i) (lt : j < t.size) (hq : q j) (hp : ¬p j) :
    t.count p < t.count q := by
  refine Finset.card_lt_card ((Finset.ssubset_iff_of_subset fun i hi => ?_).mpr ⟨j, ?_, ?_⟩)
  · rw [Finset.mem_filter, Finset.mem_range] at hi ⊢
    exact ⟨hi.1, h i hi.1 hi.2⟩
  · exact Finset.mem_filter.mpr ⟨Finset.mem_range.mpr lt, hq⟩
  · exact fun hmem => hp (Finset.mem_filter.mp hmem).2

theorem count_or {p q r : Nat → Prop} [DecidablePred p] [DecidablePred q] [DecidablePred r]
    (h : ∀ i, i < t.size → (p i ↔ q i ∨ r i)) (disjoint : ∀ i, i < t.size → q i → ¬r i) :
    t.count p = t.count q + t.count r := by
  rw [count_congr h, count, Finset.filter_or]
  refine Finset.card_union_of_disjoint (Finset.disjoint_filter.mpr fun i hi => ?_)
  exact disjoint i (Finset.mem_range.mp hi)

theorem count_eq_one {j : Nat} (lt : j < t.size) : (t.count fun i => i = j) = 1 := by
  rw [count, Finset.filter_eq' , if_pos (Finset.mem_range.mpr lt), Finset.card_singleton]

theorem count_lt_size {p : Nat → Prop} [DecidablePred p] {j : Nat} (lt : j < t.size) (hp : ¬p j) :
    t.count p < t.size := by
  have := @count_lt _ _ t p (fun _ => True) _ _ j (fun _ _ _ => trivial) lt trivial hp
  rwa [count, count, Finset.filter_true, Finset.card_range] at this

theorem middle_le_stop (c : α) : t.middle c ≤ t.stop c := by
  have h : t.stop c = t.start c + t.count fun i => t.letter i = c :=
    count_or (fun i _ => le_iff_lt_or_eq) fun i _ hlt heq => absurd heq (ne_of_lt hlt)
  rw [h, middle]
  exact Nat.add_le_add_left (count_le fun i _ hi => hi.1) _

theorem stop_le_start {c d : α} (lt : c < d) : t.stop c ≤ t.start d :=
  count_le fun _ _ hle => lt_of_le_of_lt hle lt

theorem head_lt_iff {i j : Nat} : t.head i < t.head j ↔
    t.letter i < t.letter j ∨ t.letter i = t.letter j ∧ t.small i = false ∧ t.small j = true := by
  rw [head, head, Prod.Lex.toLex_lt_toLex, Bool.lt_iff]

theorem head_eq_iff {i j : Nat} :
    t.head i = t.head j ↔ t.letter i = t.letter j ∧ t.small i = t.small j := by
  rw [head, head, EmbeddingLike.apply_eq_iff_eq, Prod.mk.injEq]

theorem succ_lt_of_large {j : Nat} (lt : j < t.size) (large : t.small j = false) :
    j + 1 < t.size := by
  by_contra h
  have : j = t.size - 1 := by omega
  rw [this, t.small_last] at large
  cases large

theorem seen_succ {j : Nat} (lt : j < t.size) (large : t.small j = false) : t.Seen (j + 1) :=
  ⟨succ_lt_of_large lt large, fun h => ⟨j.succ_pos, succ_lt_of_large lt large, h, large⟩⟩

theorem isLms_last (lt : 1 < t.size) : t.IsLms (t.size - 1) := by
  refine ⟨by omega, by omega, t.small_last, ?_⟩
  by_contra h
  rw [Bool.not_eq_false] at h
  have hlt := @last_lt _ _ t (t.size - 1 - 1) (by omega)
  have hle := t.small_le (by omega) h
  rw [show t.size - 1 - 1 + 1 = t.size - 1 by omega, Prod.Lex.toLex_le_toLex] at hle
  rcases hle with h | ⟨h, -⟩
  · exact lt_asymm h hlt
  · exact ne_of_gt hlt h

theorem stop_last : t.stop (t.letter (t.size - 1)) = 1 := by
  have hlast : t.size - 1 < t.size := Nat.sub_lt t.size_pos Nat.one_pos
  refine (count_congr fun i hi => ⟨fun hle => ?_, fun h => h ▸ le_refl _⟩).trans
    (count_eq_one hlast)
  by_contra hne
  exact not_lt_of_ge hle (t.last_lt (by omega))

/-- The place of a position among all of them. -/
def rank (t : Text α) (key : Nat → κ) (j : Nat) : Nat := t.count fun i => key i < key j

/-- Places for the small positions behind one that is not, in the small parts of their buckets. -/
structure Seeds (t : Text α) (seed : Nat → Nat) : Prop where
  inj : ∀ {p q}, t.IsLms p → t.IsLms q → seed p = seed q → p = q
  ge : ∀ {q}, t.IsLms q → t.middle (t.letter q) ≤ seed q
  lt : ∀ {q}, t.IsLms q → seed q < t.stop (t.letter q)

/-- The place of a position during the first pass. -/
def place (t : Text α) (seed : Nat → Nat) (key : Nat → κ) (p : Nat) : Nat :=
  if t.small p then seed p else t.rank key p

/-- An order of the positions in which their heads come first. -/
structure Heads (t : Text α) (key : Nat → κ) : Prop where
  head_lt : ∀ {i j}, i < t.size → j < t.size → t.head i < t.head j → key i < key j

/-- An order of the positions: heads first, then what is behind them. -/
structure Keys (t : Text α) (seed : Nat → Nat) (key : Nat → κ) : Prop extends t.Heads key where
  inj : ∀ {i j}, i < t.size → j < t.size → key i = key j → i = j
  small_iff : ∀ {i j}, i + 1 < t.size → j + 1 < t.size → t.small i = true → t.small j = true →
    t.letter i = t.letter j → (key i < key j ↔ key (i + 1) < key (j + 1))
  large_iff : ∀ {i j}, i + 1 < t.size → j + 1 < t.size → t.small i = false → t.small j = false →
    t.letter i = t.letter j →
    (key i < key j ↔ t.place seed key (i + 1) < t.place seed key (j + 1))

theorem rank_lt_iff {key : Nat → κ} {i j : Nat} (hi : i < t.size) :
    t.rank key i < t.rank key j ↔ key i < key j := by
  constructor
  · intro h
    by_contra hle
    exact Nat.not_le_of_gt h (count_le fun _ _ hlt => lt_of_lt_of_le hlt (not_lt.mp hle))
  · intro h
    exact count_lt (fun _ _ hlt => lt_trans hlt h) hi h (lt_irrefl _)

theorem rank_lt_size {key : Nat → κ} {j : Nat} (hj : j < t.size) : t.rank key j < t.size :=
  count_lt_size hj (lt_irrefl _)

theorem place_large {seed : Nat → Nat} {key : Nat → κ} {p : Nat} (large : t.small p = false) :
    t.place seed key p = t.rank key p := by
  rw [place, large]
  rfl

theorem place_small {seed : Nat → Nat} {key : Nat → κ} {p : Nat} (small : t.small p = true) :
    t.place seed key p = seed p := by
  rw [place, if_pos small]

namespace Heads

variable {seed : Nat → Nat} {key : Nat → κ}

theorem head_le (k : t.Heads key) {i j : Nat} (hi : i < t.size) (hj : j < t.size)
    (lt : key i < key j) : t.head i ≤ t.head j :=
  not_lt.mp fun h => lt_asymm lt (k.head_lt hj hi h)

theorem key_lt_iff (k : t.Heads key) {i j : Nat} (hi : i < t.size) (hj : j < t.size) :
    key i < key j ↔ t.head i < t.head j ∨ t.head i = t.head j ∧ key i < key j := by
  constructor
  · intro h
    exact (lt_or_eq_of_le (k.head_le hi hj h)).imp id fun heq => ⟨heq, h⟩
  · rintro (h | ⟨-, h⟩)
    · exact k.head_lt hi hj h
    · exact h

/-- The keys of two positions, by their heads. -/
theorem key_cases (k : t.Heads key) {i j : Nat} (hi : i < t.size) (hj : j < t.size) :
    key i < key j ↔ t.letter i < t.letter j ∨ t.letter i = t.letter j ∧
      (t.small i = false ∧ t.small j = true ∨ t.small i = t.small j ∧ key i < key j) := by
  rw [k.key_lt_iff hi hj, head_lt_iff, head_eq_iff]
  grind

/-- Before a position that is not small are the buckets of smaller letters and the positions of its
own that are not small and before it. -/
theorem rank_large (k : t.Heads key) {j : Nat} (hj : j < t.size) (large : t.small j = false) :
    t.rank key j = t.start (t.letter j) +
      t.count fun i => t.letter i = t.letter j ∧ t.small i = false ∧ key i < key j := by
  refine count_or (fun i hi => ?_) fun i _ hlt heq => absurd heq.1 (ne_of_lt hlt)
  rw [k.key_cases hi hj, large]
  grind

theorem place_large_bounds (k : t.Heads key) {p : Nat} (hp : p < t.size)
    (large : t.small p = false) :
    t.start (t.letter p) ≤ t.place seed key p ∧ t.place seed key p < t.middle (t.letter p) := by
  rw [place_large large, k.rank_large hp large]
  refine ⟨Nat.le_add_right _ _, Nat.add_lt_add_left ?_ _⟩
  exact count_lt (fun i _ h => ⟨h.1, h.2.1⟩) hp ⟨rfl, large⟩ fun h => lt_irrefl _ h.2.2

theorem place_small_bounds (s : t.Seeds seed) {p : Nat} (hp : t.Seen p) (small : t.small p = true) :
    t.middle (t.letter p) ≤ t.place seed key p ∧ t.place seed key p < t.stop (t.letter p) := by
  rw [place_small small]
  exact ⟨s.ge (hp.2 small), s.lt (hp.2 small)⟩

theorem place_bounds (k : t.Heads key) (s : t.Seeds seed) {p : Nat} (hp : t.Seen p) :
    t.start (t.letter p) ≤ t.place seed key p ∧ t.place seed key p < t.stop (t.letter p) := by
  cases hsmall : t.small p
  · obtain ⟨hge, hlt⟩ := k.place_large_bounds hp.1 hsmall
    exact ⟨hge, hlt.trans_le (middle_le_stop _)⟩
  · obtain ⟨hge, hlt⟩ := @place_small_bounds _ _ _ _ _ _ key s _ hp hsmall
    exact ⟨(Nat.le_add_right _ _).trans hge, hlt⟩

theorem place_lt_of_head_lt (k : t.Heads key) (s : t.Seeds seed) {p q : Nat} (hp : t.Seen p)
    (hq : t.Seen q) (lt : t.head p < t.head q) : t.place seed key p < t.place seed key q := by
  rcases head_lt_iff.mp lt with h | ⟨heq, hlarge, hsmall⟩
  · exact (k.place_bounds s hp).2.trans_le ((stop_le_start h).trans (k.place_bounds s hq).1)
  · have := (@place_large_bounds _ _ _ _ _ seed _ k _ hp.1 hlarge).2
    rw [heq] at this
    exact this.trans_le (place_small_bounds s hq hsmall).1

end Heads

namespace Keys

variable {seed : Nat → Nat} {key : Nat → κ}

theorem rank_inj (k : t.Keys seed key) {i j : Nat} (hi : i < t.size) (hj : j < t.size)
    (eq : t.rank key i = t.rank key j) : i = j := by
  refine k.inj hi hj (le_antisymm ?_ ?_)
  · exact not_lt.mp fun h => absurd eq.symm (ne_of_lt ((rank_lt_iff hj).mpr h))
  · exact not_lt.mp fun h => absurd eq (ne_of_lt ((rank_lt_iff hi).mpr h))

/-- Every place is that of a position. -/
theorem exists_rank (k : t.Keys seed key) {x : Nat} (lt : x < t.size) :
    ∃ p, p < t.size ∧ t.rank key p = x := by
  have hinj : Function.Injective fun p : Fin t.size =>
      (⟨t.rank key p, rank_lt_size p.isLt⟩ : Fin t.size) := by
    intro p q heq
    exact Fin.ext (k.rank_inj p.isLt q.isLt (congrArg Fin.val heq))
  obtain ⟨p, hp⟩ := Finite.surjective_of_injective hinj ⟨x, lt⟩
  exact ⟨p, p.isLt, congrArg Fin.val hp⟩

/-- Behind a small position, in its bucket, are the small ones that are larger. -/
theorem rank_small (k : t.Keys seed key) {j : Nat} (hj : j < t.size) (small : t.small j = true) :
    t.rank key j + 1 +
      (t.count fun i => t.letter i = t.letter j ∧ t.small i = true ∧ key j < key i) =
        t.stop (t.letter j) := by
  have hstop : t.stop (t.letter j) = (t.count fun i => key i < key j ∨ i = j) +
      t.count fun i => t.letter i = t.letter j ∧ t.small i = true ∧ key j < key i := by
    refine count_or (fun i hi => ?_) fun i hi hle hlt => ?_
    · have hlt := k.key_cases hi hj
      have hgt := k.key_cases hj hi
      rcases lt_trichotomy (key i) (key j) with h | h | h
      · grind
      · obtain rfl := k.inj hi hj h
        simp
      · grind
    · rcases hle with hle | rfl
      · exact lt_asymm hle hlt.2.2
      · exact lt_irrefl _ hlt.2.2
  have hrank : (t.count fun i => key i < key j ∨ i = j) = t.rank key j + 1 := by
    rw [← count_eq_one hj]
    exact count_or (fun _ _ => Iff.rfl) fun i _ hlt heq => absurd (heq ▸ hlt) (lt_irrefl _)
  rw [hstop, hrank]

theorem place_inj (k : t.Keys seed key) (s : t.Seeds seed) {p q : Nat} (hp : t.Seen p)
    (hq : t.Seen q) (eq : t.place seed key p = t.place seed key q) : p = q := by
  have hhead : t.head p = t.head q := le_antisymm
    (not_lt.mp fun h => absurd eq.symm (ne_of_lt (k.place_lt_of_head_lt s hq hp h)))
    (not_lt.mp fun h => absurd eq (ne_of_lt (k.place_lt_of_head_lt s hp hq h)))
  have htype := (head_eq_iff.mp hhead).2
  cases hsmall : t.small p
  · rw [place_large hsmall, place_large (htype ▸ hsmall)] at eq
    exact k.rank_inj hp.1 hq.1 eq
  · rw [place_small hsmall, place_small (htype ▸ hsmall)] at eq
    exact s.inj (hp.2 hsmall) (hq.2 (htype ▸ hsmall)) eq

/-- A position that is not small has its place behind that of the next position. -/
theorem place_succ_lt (k : t.Keys seed key) (s : t.Seeds seed) {j : Nat} (hj : j < t.size)
    (large : t.small j = false) : t.place seed key (j + 1) < t.place seed key j := by
  induction hm : t.size - j using Nat.strong_induction_on generalizing j with
  | _ m ih =>
    have hsucc := succ_lt_of_large hj large
    rcases lt_or_eq_of_le (t.large_le hsucc large) with h | h
    · exact k.place_lt_of_head_lt s (seen_succ hj large) ⟨hj, fun h => by simp [large] at h⟩ h
    · -- the next position has the same head, so it is not small either
      obtain ⟨hletter, htype⟩ := head_eq_iff.mp h
      have hlarge := htype.trans large
      have hnext := ih (t.size - (j + 1)) (by omega) hsucc hlarge rfl
      have hkey := (k.large_iff (succ_lt_of_large hsucc hlarge) hsucc hlarge large hletter).mpr hnext
      rw [place_large large, place_large hlarge]
      exact (rank_lt_iff hsucc).mpr hkey

/-- Its place is counted by the places of the next positions. -/
theorem place_eq_count (k : t.Keys seed key) {j : Nat} (hj : j < t.size)
    (large : t.small j = false) :
    t.place seed key j = t.start (t.letter j) + t.count fun i => t.letter i = t.letter j ∧
      t.small i = false ∧ t.place seed key (i + 1) < t.place seed key (j + 1) := by
  rw [place_large large, k.rank_large hj large]
  refine congrArg _ (count_congr fun i hi => and_congr_right fun hletter => and_congr_right fun h => ?_)
  exact k.large_iff (succ_lt_of_large hi h) (succ_lt_of_large hj large) h large hletter

/-- A small position is before the next one. -/
theorem key_lt_succ (k : t.Keys seed key) {j : Nat} (hj : j + 1 < t.size)
    (small : t.small j = true) : key j < key (j + 1) := by
  induction hm : t.size - j using Nat.strong_induction_on generalizing j with
  | _ m ih =>
    rcases lt_or_eq_of_le (t.small_le hj small) with h | h
    · exact k.head_lt (Nat.lt_of_succ_lt hj) hj h
    · obtain ⟨hletter, htype⟩ := head_eq_iff.mp h
      have hsucc : j + 1 + 1 < t.size := by
        by_contra hlast
        have hlt := t.last_lt hj
        rw [show t.size - 1 = j + 1 by omega, ← hletter] at hlt
        exact lt_irrefl _ hlt
      have hnext := ih (t.size - (j + 1)) (by omega) hsucc (htype.symm.trans small) rfl
      exact (k.small_iff hj hsucc small (htype.symm.trans small) hletter).mpr hnext

/-- The place of a small position is counted by the places of the next positions. -/
theorem rank_add_count (k : t.Keys seed key) {j : Nat} (hj : j + 1 < t.size)
    (small : t.small j = true) :
    t.rank key j + 1 + (t.count fun i => t.letter i = t.letter j ∧ t.small i = true ∧
      i + 1 < t.size ∧ t.rank key (j + 1) < t.rank key (i + 1)) = t.stop (t.letter j) := by
  rw [← k.rank_small (Nat.lt_of_succ_lt hj) small]
  refine congrArg _ (count_congr fun i hi => and_congr_right fun hletter => and_congr_right fun h => ?_)
  have hsucc : i + 1 < t.size := by
    by_contra hlast
    have hlt := t.last_lt hj
    rw [show t.size - 1 = i by omega, hletter] at hlt
    exact lt_irrefl _ hlt
  rw [rank_lt_iff hj, ← k.small_iff hj hsucc small h hletter.symm]
  exact and_iff_right hsucc

theorem rank_last (k : t.Keys seed key) : t.rank key (t.size - 1) = 0 := by
  have h := k.rank_small (Nat.sub_lt t.size_pos Nat.one_pos) t.small_last
  rw [stop_last] at h
  omega

theorem seed_last (s : t.Seeds seed) (lt : 1 < t.size) : seed (t.size - 1) = 0 := by
  have h := s.lt (isLms_last lt)
  rw [stop_last] at h
  omega

end Keys

end Text

end Fbz.InducedSort
