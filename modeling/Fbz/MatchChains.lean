import Fbz.Lib.Checked
import Fbz.MatchFinder
import Mathlib.Data.List.Pairwise
import Mathlib.Order.Bounds.Basic

/-!
# Chains of earlier positions

The match finders with their indexes checked. A chain holds the positions that were inserted, the
latest first, and the walk along it finds the longest match among them.
-/

namespace Fbz

def matchTail? (bytes : List UInt8) (left right limit length : Nat) : Option Nat :=
  if length < limit then do
    let a ← bytes[left + length]?
    let b ← bytes[right + length]?
    if a = b then matchTail? bytes left right limit (length + 1) else some length
  else some length
termination_by limit - length

def matchWords? (bytes : List UInt8) (left right limit length : Nat) : Option Nat :=
  if length + 8 ≤ limit then do
    let a ← range? bytes (left + length) (left + length + 8)
    let b ← range? bytes (right + length) (right + length + 8)
    let different := leNat a ^^^ leNat b
    if different ≠ 0 then some (length + trailingZeros different / 8)
    else matchWords? bytes left right limit (length + 8)
  else matchTail? bytes left right limit length
termination_by limit - length

/-- `match_length`, with its indexes checked. -/
def matchLength? (bytes : List UInt8) (left right limit : Nat) : Option Nat :=
  matchWords? bytes left right limit 0

section MatchLength

variable {bytes : List UInt8} {left right limit : Nat}

private theorem matchTail?_eq (hl : left + limit ≤ bytes.length) (hr : right + limit ≤ bytes.length)
    (length : Nat) : matchTail? bytes left right limit length =
      some (matchTail bytes left right limit length) := by
  induction length using matchTail.induct bytes left right limit with
  | case1 length same ih =>
    have hleft : left + length < bytes.length := by have := same.1; omega
    have hright : right + length < bytes.length := by have := same.1; omega
    have hsame := same.2
    rw [List.getElem?_eq_getElem hleft, List.getElem?_eq_getElem hright, Option.some.injEq]
      at hsame
    rw [matchTail?, if_pos same.1, matchTail, if_pos same, List.getElem?_eq_getElem hleft,
      List.getElem?_eq_getElem hright]
    show ite _ _ _ = _
    rw [if_pos hsame, ih]
  | case2 length stop =>
    rw [matchTail?, matchTail, if_neg stop]
    split
    case isFalse => rfl
    case isTrue more =>
      have hleft : left + length < bytes.length := by omega
      have hright : right + length < bytes.length := by omega
      rw [List.getElem?_eq_getElem hleft, List.getElem?_eq_getElem hright]
      refine if_neg fun hsame => stop ⟨more, ?_⟩
      rw [List.getElem?_eq_getElem hleft, List.getElem?_eq_getElem hright, hsame]

private theorem matchWords?_eq (hl : left + limit ≤ bytes.length)
    (hr : right + limit ≤ bytes.length) (length : Nat) : matchWords? bytes left right limit length =
      some (matchWords bytes left right limit length) := by
  induction length using matchWords.induct bytes left right limit with
  | case1 length fits a b different hne =>
    rw [matchWords?, if_pos fits, matchWords, if_pos fits, range?, if_pos (by omega), range?,
      if_pos (by omega)]
    dsimp only
    rw [if_pos hne]
    exact if_pos hne
  | case2 length fits a b different heq ih =>
    rw [matchWords?, if_pos fits, matchWords, if_pos fits, range?, if_pos (by omega), range?,
      if_pos (by omega)]
    dsimp only
    rw [if_neg heq, ← ih]
    exact if_neg heq
  | case3 length fits =>
    rw [matchWords?, if_neg fits, matchWords, if_neg fits]
    exact matchTail?_eq hl hr length

private theorem matchLength?_eq (hl : left + limit ≤ bytes.length)
    (hr : right + limit ≤ bytes.length) :
    matchLength? bytes left right limit = some (matchLength bytes left right limit) :=
  matchWords?_eq hl hr 0

private theorem matches_iff_slice {length : Nat} (hl : left + length ≤ bytes.length)
    (hr : right + length ≤ bytes.length) :
    Matches bytes left right length ↔
      slice bytes left (left + length) = slice bytes right (right + length) := by
  constructor
  · intro same
    apply List.ext_getElem?
    intro i
    rcases Nat.lt_or_ge i length with hi | hi
    · rw [getElem?_slice (by omega), getElem?_slice (by omega), same i hi]
    · rw [List.getElem?_eq_none, List.getElem?_eq_none]
      · rw [slice_length hr]; omega
      · rw [slice_length hl]; omega
  · intro same i hi
    have := congrArg (fun xs => xs[i]?) same
    rwa [getElem?_slice (by omega), getElem?_slice (by omega)] at this

private theorem slice_take {start length : Nat} (le : length ≤ limit) :
    (slice bytes start (start + limit)).take length = slice bytes start (start + length) := by
  rw [slice, slice, List.take_take]
  congr 1
  omega

private theorem matchLength_isGreatest (hl : left + limit ≤ bytes.length)
    (hr : right + limit ≤ bytes.length) :
    IsGreatest {n | ∃ common, common.length = n ∧
        common <+: slice bytes left (left + limit) ∧ common <+: slice bytes right (right + limit)}
      (matchLength bytes left right limit) := by
  obtain ⟨hle, hsame, -⟩ := matchLength_spec hl hr
  constructor
  · have hslice := (matches_iff_slice (by omega) (by omega)).mp hsame
    refine ⟨slice bytes left (left + matchLength bytes left right limit), ?_, ?_, ?_⟩
    · rw [slice_length (by omega)]
      omega
    · rw [← slice_take hle]
      exact List.take_prefix ..
    · rw [hslice, ← slice_take hle]
      exact List.take_prefix ..
  · rintro n ⟨common, rfl, hcl, hcr⟩
    have hle : common.length ≤ limit := by
      have := hcl.length_le
      rw [slice_length hl] at this
      omega
    apply le_matchLength hl hr hle
    rw [matches_iff_slice (by omega) (by omega), ← slice_take hle, ← slice_take hle,
      ← List.prefix_iff_eq_take.mp hcl, ← List.prefix_iff_eq_take.mp hcr]

end MatchLength

namespace HashChain

open Checked

/-- `HashChain::new`; the table of earlier positions has `inputLen` entries. -/
def new? (inputLen window maxChain : Nat) : Option HashChain :=
  if Fits inputLen then some (new window maxChain) else none

def hash? (bytes : List UInt8) (position : Nat) : Option Nat := do
  let first ← bytes[position]?
  let second ← bytes[position + 1]?
  let third ← bytes[position + 2]?
  let value := first.toNat * 2 ^ 16 ||| second.toNat * 2 ^ 8 ||| third.toNat
  some (value * 0x1e35a7bd % 2 ^ 32 / 2 ^ 16)

/-- The table of earlier positions, when there is one, takes the head of the chain. -/
def link? (finder : HashChain) (inputLen slot position : Nat) : Option (Option (Nat → Nat)) :=
  match finder.previous with
  | none => some none
  | some previous =>
    if position < inputLen then
      some (some fun other => if other = position then finder.head slot else previous other)
    else none

/-- `insert`, with its indexes checked. -/
def insert? (inputLen : Nat) (bytes : List UInt8) (finder : HashChain) (position : Nat) :
    Option HashChain :=
  if position + 2 ≥ bytes.length then some finder
  else do
    let slot ← hash? bytes position
    let previous ← finder.link? inputLen slot position
    some { finder with
      previous
      head := fun other => if other = slot then position % 2 ^ 32 else finder.head other }

/-- The step to the next candidate. -/
def next? (finder : HashChain) (inputLen candidate : Nat) : Option Nat :=
  match finder.previous with
  | none => some noPosition
  | some previous => if candidate < inputLen then some (previous candidate) else none

def candidateLength? (bytes : List UInt8) (candidate position limit bestLength : Nat) :
    Option Nat := do
  let first ← bytes[candidate]?
  let other ← bytes[position]?
  if first = other ∧ bytes[candidate + bestLength]? = bytes[position + bestLength]? then
    matchLength? bytes candidate position limit
  else some 0

/-- The walk along the chain, with its indexes checked. -/
def search? (finder : HashChain) (inputLen : Nat) (bytes : List UInt8)
    (position limit maxChain minimum : Nat)
    (candidate bestLength bestDistance searched : Nat) : Option (Nat × Nat) :=
  if candidate ≠ noPosition ∧ minimum ≤ candidate ∧ searched < maxChain then do
    let distance ← sub position candidate
    let length ← candidateLength? bytes candidate position limit bestLength
    if length > bestLength then
      if length = limit then some (length, distance)
      else if searched + 1 ≥ maxChain then some (length, distance)
      else
        let next ← finder.next? inputLen candidate
        search? finder inputLen bytes position limit maxChain minimum next length distance
          (searched + 1)
    else if searched + 1 ≥ maxChain then some (bestLength, bestDistance)
    else
      let next ← finder.next? inputLen candidate
      search? finder inputLen bytes position limit maxChain minimum next bestLength bestDistance
        (searched + 1)
  else some (bestLength, bestDistance)
termination_by maxChain - searched

/-- `best_match`, with its indexes checked. -/
def bestMatch? (finder : HashChain) (inputLen : Nat) (bytes : List UInt8)
    (position maxLength minLength maxChain : Nat) : Option (Nat × Nat) :=
  if position + minLength > bytes.length ∨ minLength < 3 then some (0, 0)
  else do
    let slot ← hash? bytes position
    let room ← sub bytes.length position
    let best ← finder.search? inputLen bytes position (min room maxLength) maxChain
      (position - finder.window) (finder.head slot) (minLength - 1) 0 0
    some (if best.1 ≥ minLength then best else (0, 0))

/-- A finder for positions of a buffer, in the order in which they are inserted. -/
def filled? (inputLen : Nat) (bytes : List UInt8) (window maxChain : Nat) (inserted : List Nat) :
    Option HashChain := do
  let finder ← new? inputLen window maxChain
  inserted.foldlM (insert? inputLen bytes) finder

/-- The positions of a chain: what was inserted with this hash, the latest first. -/
def entries (bytes : List UInt8) (inserted : List Nat) (slot : Nat) : List Nat :=
  (inserted.filter fun q => q + 2 < bytes.length ∧ hash bytes q = slot).reverse

/-- The walk from a candidate visits these positions. -/
def LinksTo (previous : Nat → Nat) : Nat → List Nat → Prop
  | candidate, [] => candidate = noPosition
  | candidate, q :: rest => candidate = q ∧ LinksTo previous (previous q) rest

/-- The chains of a finder hold what was inserted. -/
structure Holds (finder : HashChain) (inputLen : Nat) (bytes : List UInt8) (inserted : List Nat) :
    Prop where
  short : inputLen < noPosition
  linked : ∃ previous, finder.previous = some previous ∧
    ∀ slot, LinksTo previous (finder.head slot) (entries bytes inserted slot)
  inside : ∀ slot, ∀ q ∈ entries bytes inserted slot, q < inputLen

variable {finder : HashChain} {bytes : List UInt8} {inserted : List Nat}
  {inputLen position limit : Nat}

private theorem hash?_eq (room : position + 3 ≤ bytes.length) :
    hash? bytes position = some (hash bytes position) := by
  have h0 : position < bytes.length := by omega
  have h1 : position + 1 < bytes.length := by omega
  have h2 : position + 2 < bytes.length := by omega
  simp only [hash?, hash, Nat.add_zero, List.getElem?_eq_getElem h0, List.getElem?_eq_getElem h1,
    List.getElem?_eq_getElem h2]
  rfl

private theorem mem_entries {slot q : Nat} : q ∈ entries bytes inserted slot ↔
    q ∈ inserted ∧ q + 2 < bytes.length ∧ hash bytes q = slot := by
  rw [entries, List.mem_reverse, List.mem_filter, decide_eq_true_iff]

private theorem LinksTo.congr {previous other : Nat → Nat} {candidate : Nat} {chain : List Nat}
    (links : LinksTo previous candidate chain) (same : ∀ q ∈ chain, other q = previous q) :
    LinksTo other candidate chain := by
  induction chain generalizing candidate with
  | nil => exact links
  | cons q rest ih =>
    refine ⟨links.1, ?_⟩
    rw [same q List.mem_cons_self]
    exact ih links.2 fun q' hq' => same q' (List.mem_cons_of_mem q hq')

private theorem entries_append (slot : Nat) : entries bytes (inserted ++ [position]) slot =
    if position + 2 < bytes.length ∧ hash bytes position = slot then
      position :: entries bytes inserted slot
    else entries bytes inserted slot := by
  rw [entries, entries, List.filter_append, List.reverse_append]
  by_cases h : position + 2 < bytes.length ∧ hash bytes position = slot
  · rw [if_pos h, List.filter_cons_of_pos (by simpa using h)]
    rfl
  · rw [if_neg h, List.filter_cons_of_neg (by simpa using h)]
    rfl

private theorem holds_new {window maxChain : Nat} (deep : 1 < maxChain)
    (created : new? inputLen window maxChain = some finder) :
    finder.Holds inputLen bytes [] ∧ finder.window = window := by
  unfold new? at created
  split at created
  case isFalse => cases created
  case isTrue fits =>
    obtain rfl := Option.some.inj created
    refine ⟨⟨fits, ⟨fun _ => noPosition, if_pos deep, fun slot => rfl⟩, ?_⟩, rfl⟩
    intro slot q hq
    cases hq

/-- An insertion puts its position in front of its own chain and leaves the others. -/
theorem Holds.insert? {after : HashChain} (holds : finder.Holds inputLen bytes inserted)
    (later : ∀ q ∈ inserted, q < position)
    (stored : finder.insert? inputLen bytes position = some after) :
    after.Holds inputLen bytes (inserted ++ [position]) ∧ after.window = finder.window := by
  obtain ⟨previous, hprevious, hlinks⟩ := holds.linked
  unfold HashChain.insert? at stored
  split at stored
  case isTrue past =>
    obtain rfl := Option.some.inj stored
    have hsame (slot : Nat) :
        entries bytes (inserted ++ [position]) slot = entries bytes inserted slot := by
      rw [entries_append, if_neg (by omega)]
    refine ⟨⟨holds.short, ⟨previous, hprevious, fun slot => ?_⟩, fun slot q hq => ?_⟩, rfl⟩
    · rw [hsame]
      exact hlinks slot
    · rw [hsame] at hq
      exact holds.inside slot q hq
  case isFalse within =>
  rw [hash?_eq (by omega)] at stored
  obtain ⟨_, hslot, stored⟩ := Option.bind_eq_some_iff.mp stored
  obtain rfl := Option.some.inj hslot
  obtain ⟨table, htable, stored⟩ := Option.bind_eq_some_iff.mp stored
  obtain rfl := Option.some.inj stored
  rw [link?, hprevious] at htable
  dsimp only at htable
  split at htable
  case isFalse => cases htable
  case isTrue hin =>
  obtain rfl := Option.some.inj htable
  have hshort := holds.short
  have hmod : position % 2 ^ 32 = position := Nat.mod_eq_of_lt (by
    rw [noPosition] at hshort
    omega)
  have hother (slot : Nat) : LinksTo
      (fun other => if other = position then finder.head (hash bytes position) else previous other)
      (finder.head slot) (entries bytes inserted slot) := by
    apply (hlinks slot).congr
    intro q hq
    have := later q (mem_entries.mp hq).1
    exact if_neg (by omega)
  refine ⟨⟨holds.short, ⟨_, rfl, fun slot => ?_⟩, fun slot q hq => ?_⟩, rfl⟩
  · rw [entries_append]
    dsimp only
    by_cases hslot : slot = hash bytes position
    · subst hslot
      rw [if_pos rfl, if_pos ⟨by omega, rfl⟩]
      refine ⟨hmod, ?_⟩
      dsimp only
      rw [if_pos rfl]
      exact hother _
    · rw [if_neg hslot, if_neg fun h => hslot h.2.symm]
      exact hother slot
  · rcases mem_entries.mp hq with ⟨hmem, hroom, hhash⟩
    rcases List.mem_append.mp hmem with hmem | hmem
    · exact holds.inside slot q (mem_entries.mpr ⟨hmem, hroom, hhash⟩)
    · obtain rfl := List.mem_singleton.mp hmem
      exact hin

private theorem holds_foldlM {more : List Nat} {after : HashChain}
    (holds : finder.Holds inputLen bytes inserted)
    (increasing : (inserted ++ more).Pairwise (· < ·))
    (filled : more.foldlM (HashChain.insert? inputLen bytes) finder = some after) :
    after.Holds inputLen bytes (inserted ++ more) ∧ after.window = finder.window := by
  induction more generalizing finder inserted with
  | nil =>
    obtain rfl := Option.some.inj filled
    rw [List.append_nil]
    exact ⟨holds, rfl⟩
  | cons position more ih =>
    rw [List.foldlM_cons] at filled
    obtain ⟨next, hnext, hrest⟩ := Option.bind_eq_some_iff.mp filled
    have hlater : ∀ q ∈ inserted, q < position := fun q hq =>
      (List.pairwise_append.mp increasing).2.2 q hq position List.mem_cons_self
    obtain ⟨hholds, hwindow⟩ := holds.insert? hlater hnext
    rw [List.append_cons] at increasing ⊢
    obtain ⟨hafter, hsame⟩ := ih hholds increasing hrest
    exact ⟨hafter, hsame.trans hwindow⟩

private theorem holds_filled {window maxChain : Nat} (deep : 1 < maxChain)
    (increasing : inserted.Pairwise (· < ·))
    (filled : filled? inputLen bytes window maxChain inserted = some finder) :
    finder.Holds inputLen bytes inserted ∧ finder.window = window := by
  obtain ⟨empty, hempty, hrest⟩ := Option.bind_eq_some_iff.mp filled
  obtain ⟨hnew, hwindow⟩ := @holds_new _ bytes _ _ _ deep hempty
  obtain ⟨hholds, hsame⟩ := holds_foldlM hnew increasing hrest
  exact ⟨hholds, hsame.trans hwindow⟩

private theorem insert?_eq {after : HashChain}
    (stored : finder.insert? inputLen bytes position = some after) :
    after = finder.insert bytes position := by
  unfold HashChain.insert? at stored
  unfold HashChain.insert
  split at stored
  case isTrue past =>
    rw [if_pos past]
    exact (Option.some.inj stored).symm
  case isFalse within =>
  rw [if_neg within]
  rw [hash?_eq (by omega)] at stored
  obtain ⟨_, hslot, stored⟩ := Option.bind_eq_some_iff.mp stored
  obtain rfl := Option.some.inj hslot
  obtain ⟨table, htable, stored⟩ := Option.bind_eq_some_iff.mp stored
  obtain rfl := Option.some.inj stored
  have hmap : table = finder.previous.map fun previous => fun other =>
      if other = position then finder.head (hash bytes position) else previous other := by
    unfold link? at htable
    cases hprevious : finder.previous with
    | none =>
      rw [hprevious] at htable
      exact (Option.some.inj htable).symm
    | some previous =>
      rw [hprevious] at htable
      dsimp only at htable
      split at htable
      case isTrue => exact (Option.some.inj htable).symm
      case isFalse => cases htable
  rw [hmap]

private theorem before_filled {window maxChain : Nat} (below : ∀ q ∈ inserted, q < position)
    (filled : filled? inputLen bytes window maxChain inserted = some finder) :
    finder.Before position := by
  obtain ⟨empty, hempty, hrest⟩ := Option.bind_eq_some_iff.mp filled
  have hbefore : empty.Before position := by
    unfold new? at hempty
    split at hempty
    · obtain rfl := Option.some.inj hempty
      exact before_new window maxChain
    · cases hempty
  clear filled hempty
  induction inserted generalizing empty with
  | nil =>
    obtain rfl := Option.some.inj hrest
    exact hbefore
  | cons q inserted ih =>
    rw [List.foldlM_cons] at hrest
    obtain ⟨next, hnext, hrest⟩ := Option.bind_eq_some_iff.mp hrest
    refine ih (fun q' hq' => below q' (List.mem_cons_of_mem q hq')) next hrest ?_
    rw [insert?_eq hnext]
    exact hbefore.insert (below q List.mem_cons_self)

private theorem matchLength_le_best {candidate bestLength : Nat}
    (room : position + limit ≤ bytes.length) (lt : candidate < position) :
    matchLength bytes candidate position limit ≤
      max bestLength (candidateLength bytes candidate position limit bestLength) := by
  rw [candidateLength]
  split
  case isTrue => exact Nat.le_max_right ..
  case isFalse different =>
    apply Nat.le_trans _ (Nat.le_max_left ..)
    obtain ⟨-, hsame, -⟩ := @matchLength_spec bytes candidate position limit (by omega) room
    by_contra longer
    refine different ⟨?_, hsame bestLength (by omega)⟩
    simpa using hsame 0 (by omega)

private theorem candidateLength?_eq {candidate bestLength : Nat}
    (room : position + limit ≤ bytes.length)
    (here : position < bytes.length) (lt : candidate < position) :
    candidateLength? bytes candidate position limit bestLength =
      some (candidateLength bytes candidate position limit bestLength) := by
  have hc : candidate < bytes.length := by omega
  rw [candidateLength?, candidateLength, List.getElem?_eq_getElem hc, List.getElem?_eq_getElem here,
    matchLength?_eq (by omega) room]
  simp only [Option.bind_eq_bind, Option.bind_some, Option.some.injEq]
  split
  · rfl
  · rfl

private theorem candidateLength_le {candidate bestLength : Nat}
    (room : position + limit ≤ bytes.length) (lt : candidate < position) :
    candidateLength bytes candidate position limit bestLength ≤ limit := by
  rw [candidateLength]
  split
  · exact (matchLength_spec (by omega) room).1
  · exact Nat.zero_le limit

section Walk

variable {maxChain minimum candidate searched : Nat} {rest : List Nat}

/-- The walk ends at the window or after its last turn, and has left nothing out. -/
private theorem walk_ends (inside : candidate ≠ noPosition)
    (descending : ∀ q ∈ rest, candidate > q)
    (stop : ¬ (candidate ≠ noPosition ∧ minimum ≤ candidate ∧ searched < maxChain)) :
    ((candidate :: rest).filter (minimum ≤ ·)).take (maxChain - searched) = [] := by
  rcases Nat.lt_or_ge searched maxChain with hturn | hturn
  · have hfar : ¬ minimum ≤ candidate := fun h => stop ⟨inside, h, hturn⟩
    have hnone : (candidate :: rest).filter (minimum ≤ ·) = [] := by
      rw [List.filter_eq_nil_iff]
      intro q hq
      rcases List.mem_cons.mp hq with rfl | hq
      · simpa using hfar
      · have := descending q hq
        simp only [decide_eq_true_eq]
        omega
    rw [hnone, List.take_nil]
  · rw [Nat.sub_eq_zero_of_le hturn, List.take_zero]

private theorem walk_turns (near : minimum ≤ candidate) (turn : searched < maxChain) :
    ((candidate :: rest).filter (minimum ≤ ·)).take (maxChain - searched) =
      candidate :: (rest.filter (minimum ≤ ·)).take (maxChain - (searched + 1)) := by
  have hmore : maxChain - searched = maxChain - (searched + 1) + 1 := by omega
  rw [List.filter_cons_of_pos (by simpa using near), hmore, List.take_succ_cons]

private theorem walk_last {chain : List Nat} (last : maxChain ≤ searched + 1) :
    chain.take (maxChain - (searched + 1)) = [] := by
  rw [Nat.sub_eq_zero_of_le last, List.take_zero]

end Walk

/-- The walk looks at every position of the chain that it may look at. -/
theorem search?_spec {previous : Nat → Nat} {maxChain minimum candidate : Nat} {chain : List Nat}
    {bestLength bestDistance searched : Nat} (table : finder.previous = some previous)
    (short : inputLen < noPosition) (room : position + limit ≤ bytes.length)
    (here : position < bytes.length)
    (links : LinksTo previous candidate chain) (descending : chain.Pairwise (· > ·))
    (below : ∀ q ∈ chain, q < position ∧ q < inputLen) :
    ∃ best, finder.search? inputLen bytes position limit maxChain minimum candidate bestLength
        bestDistance searched = some best ∧
      finder.search bytes position limit maxChain minimum candidate bestLength bestDistance
        searched = best ∧
      bestLength ≤ best.1 ∧
      ∀ q ∈ (chain.filter (minimum ≤ ·)).take (maxChain - searched),
        matchLength bytes q position limit ≤ best.1 := by
  induction chain generalizing candidate bestLength bestDistance searched with
  | nil =>
    have hstop : ¬ (candidate ≠ noPosition ∧ minimum ≤ candidate ∧ searched < maxChain) :=
      fun h => h.1 links
    rw [search?, search, if_neg hstop, if_neg hstop, List.filter_nil, List.take_nil]
    exact ⟨_, rfl, rfl, Nat.le_refl _, List.forall_mem_nil _⟩
  | cons q rest ih =>
    obtain ⟨rfl, hrest⟩ := links
    obtain ⟨hlt, hin⟩ := below candidate List.mem_cons_self
    obtain ⟨hfirst, hpairs⟩ := List.pairwise_cons.mp descending
    have hnone : candidate ≠ noPosition := by omega
    rw [search?, search]
    by_cases hmore : candidate ≠ noPosition ∧ minimum ≤ candidate ∧ searched < maxChain
    case neg =>
      rw [if_neg hmore, if_neg hmore, walk_ends hnone hfirst hmore]
      exact ⟨_, rfl, rfl, Nat.le_refl _, List.forall_mem_nil _⟩
    case pos =>
    have hnext : finder.next? inputLen candidate = some (previous candidate) := by
      rw [next?, table]
      exact if_pos hin
    have hmap : (finder.previous.map fun previous => previous candidate).getD noPosition =
        previous candidate := by
      rw [table]
      rfl
    have hprobe := @matchLength_le_best bytes position limit candidate bestLength room hlt
    have hlimit := @candidateLength_le bytes position limit candidate bestLength room hlt
    have hbelow : ∀ q ∈ rest, q < position ∧ q < inputLen :=
      fun q hq => below q (List.mem_cons_of_mem candidate hq)
    rw [if_pos hmore, if_pos hmore, sub_of_le (Nat.le_of_lt hlt), candidateLength?_eq room here hlt,
      walk_turns hmore.2.1 hmore.2.2, hmap]
    simp only [Option.bind_eq_bind, Option.bind_some, hnext, List.forall_mem_cons]
    split
    case isTrue longer =>
      split
      case isTrue full =>
        -- nothing is longer than the limit
        refine ⟨_, rfl, rfl, Nat.le_of_lt longer, by omega, fun q hq => ?_⟩
        have hq := hbelow q (List.mem_of_mem_filter (List.mem_of_mem_take hq))
        have := (@matchLength_spec bytes q position limit (by omega) room).1
        omega
      case isFalse =>
      split
      case isTrue last =>
        rw [walk_last last]
        exact ⟨_, rfl, rfl, Nat.le_of_lt longer, by omega, List.forall_mem_nil _⟩
      case isFalse =>
        obtain ⟨best, hsearch?, hsearch, hle, hmost⟩ := ih hrest hpairs hbelow
        exact ⟨best, hsearch?, hsearch, by omega, by omega, hmost⟩
    case isFalse =>
      split
      case isTrue last =>
        rw [walk_last last]
        exact ⟨_, rfl, rfl, Nat.le_refl _, by omega, List.forall_mem_nil _⟩
      case isFalse =>
        obtain ⟨best, hsearch?, hsearch, hle, hmost⟩ := ih hrest hpairs hbelow
        exact ⟨best, hsearch?, hsearch, hle, by omega, hmost⟩

private theorem entries_descending (increasing : inserted.Pairwise (· < ·)) (slot : Nat) :
    (entries bytes inserted slot).Pairwise (· > ·) :=
  List.pairwise_reverse.mpr (increasing.filter _)

/-- The positions that a search may look at: the first of the chain, inside the window. -/
def candidates (bytes : List UInt8) (inserted : List Nat) (window position maxChain : Nat) :
    List Nat :=
  ((entries bytes inserted (hash bytes position)).filter (position - window ≤ ·)).take maxChain

private theorem bestMatch?_spec {window maxLength minLength maxChain : Nat}
    (holds : finder.Holds inputLen bytes inserted) (same : finder.window = window)
    (increasing : inserted.Pairwise (· < ·)) (below : ∀ q ∈ inserted, q < position) :
    finder.bestMatch? inputLen bytes position maxLength minLength maxChain =
        some (finder.bestMatch bytes position maxLength minLength maxChain) ∧
      (3 ≤ minLength → ∀ q ∈ candidates bytes inserted window position maxChain, ∀ length,
        minLength ≤ length → length ≤ maxLength → position + length ≤ bytes.length →
        Matches bytes q position length →
        length ≤ (finder.bestMatch bytes position maxLength minLength maxChain).1) := by
  unfold bestMatch? bestMatch
  by_cases hskip : position + minLength > bytes.length ∨ minLength < 3
  · rw [if_pos hskip, if_pos hskip]
    exact ⟨rfl, fun _ q _ length _ _ _ _ => by omega⟩
  rw [if_neg hskip, if_neg hskip]
  obtain ⟨previous, htable, hlinks⟩ := holds.linked
  have hbelow : ∀ q ∈ entries bytes inserted (hash bytes position), q < position ∧ q < inputLen :=
    fun q hq => ⟨below q (mem_entries.mp hq).1, holds.inside _ q hq⟩
  obtain ⟨best, hsearch?, hsearch, hle, hmost⟩ := @search?_spec finder bytes inputLen position
    (min (bytes.length - position) maxLength) previous maxChain (position - finder.window) _ _
    (minLength - 1) 0 0 htable holds.short (by omega) (by omega) (hlinks (hash bytes position))
    (entries_descending increasing _) hbelow
  rw [hash?_eq (by omega), sub_of_le (by omega)]
  simp only [Option.bind_eq_bind, Option.bind_some, hsearch?, hsearch]
  refine ⟨trivial, fun hmin q hq length hlong hmax hroom hsame => ?_⟩
  rw [candidates, ← same] at hq
  have hlt := (hbelow q (List.mem_of_mem_filter (List.mem_of_mem_take hq))).1
  have hlength : length ≤ best.1 := by
    apply Nat.le_trans _ (hmost q hq)
    exact le_matchLength (by omega) (by omega) (by omega) hsame
  rw [if_pos (Nat.le_trans hlong hlength)]
  exact hlength

end HashChain

/-- `match_length` measures the longest common prefix; `best_match` finds nothing, or a match in
the window that no position it may look at improves. -/
theorem matchFinders_exact (bytes : List UInt8) :
    (∀ left right limit, left + limit ≤ bytes.length → right + limit ≤ bytes.length →
      ∃ length, matchLength? bytes left right limit = some length ∧
        IsGreatest {n | ∃ common, common.length = n ∧
          common <+: slice bytes left (left + limit) ∧
          common <+: slice bytes right (right + limit)} length) ∧
    ∀ inputLen window depth inserted finder position maxLength minLength maxChain,
      1 < depth → inserted.Pairwise (· < ·) → (∀ q ∈ inserted, q < position) → 3 ≤ minLength →
      HashChain.filled? inputLen bytes window depth inserted = some finder →
      ∃ length distance,
        finder.bestMatch? inputLen bytes position maxLength minLength maxChain =
          some (length, distance) ∧
        ((length, distance) = (0, 0) ∨
          minLength ≤ length ∧ length ≤ maxLength ∧ 1 ≤ distance ∧ distance ≤ window ∧
          distance ≤ position ∧ position + length ≤ bytes.length ∧
          slice bytes position (position + length) =
            slice bytes (position - distance) (position - distance + length)) ∧
        ∀ q ∈ HashChain.candidates bytes inserted window position maxChain, ∀ other,
          minLength ≤ other → other ≤ maxLength → position + other ≤ bytes.length →
          slice bytes q (q + other) = slice bytes position (position + other) → other ≤ length := by
  refine ⟨fun left right limit hl hr =>
    ⟨_, matchLength?_eq hl hr, matchLength_isGreatest hl hr⟩, ?_⟩
  intro inputLen window depth inserted finder position maxLength minLength maxChain deep increasing
    below hmin filled
  obtain ⟨hholds, hwindow⟩ := HashChain.holds_filled deep increasing filled
  obtain ⟨hbest, hmost⟩ := @HashChain.bestMatch?_spec finder bytes inserted inputLen position window
    maxLength minLength maxChain hholds hwindow increasing below
  refine ⟨_, _, hbest, ?_, fun q hq other hlong hmax hroom hsame => ?_⟩
  · rcases @HashChain.bestMatch_spec finder bytes position maxLength minLength maxChain
      (HashChain.before_filled below filled) with hnone | ⟨hlong, hmax, -, hfound⟩
    · exact .inl hnone
    · obtain ⟨hfits, hpos, hnear, hinside, hsame⟩ := hfound
      refine .inr ⟨hlong, hmax, hpos, hwindow ▸ hnear, hinside, hfits, ?_⟩
      exact ((matches_iff_slice (by omega) (by omega)).mp hsame).symm
  · have hlt := below q (HashChain.mem_entries.mp
      (List.mem_of_mem_filter (List.mem_of_mem_take hq))).1
    exact hmost hmin q hq other hlong hmax hroom
      ((matches_iff_slice (by omega) (by omega)).mpr hsame)

/-- Three bytes and their repetition. -/
theorem matchFinders_exact_repeated :
    (∃ length, matchLength? [1, 2, 3, 1, 2, 3] 0 3 3 = some length ∧
      IsGreatest {n | ∃ common : List UInt8, common.length = n ∧
        common <+: slice [1, 2, 3, 1, 2, 3] 0 (0 + 3) ∧
        common <+: slice [1, 2, 3, 1, 2, 3] 3 (3 + 3)} length) ∧
    ∃ finder, HashChain.filled? 6 [1, 2, 3, 1, 2, 3] 100 4 [0, 1] = some finder ∧
      ∃ length distance, finder.bestMatch? 6 [1, 2, 3, 1, 2, 3] 3 258 3 4 =
        some (length, distance) := by
  refine ⟨(matchFinders_exact [1, 2, 3, 1, 2, 3]).1 0 3 3 (by decide) (by decide), _, rfl, ?_⟩
  obtain ⟨length, distance, hbest, -⟩ := (matchFinders_exact [1, 2, 3, 1, 2, 3]).2 6 100 4 [0, 1] _
    3 258 3 4 (by decide) (by decide) (by decide) (by decide) rfl
  exact ⟨length, distance, hbest⟩

end Fbz
