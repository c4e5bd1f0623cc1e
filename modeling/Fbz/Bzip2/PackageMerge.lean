import Mathlib.Algebra.BigOperators.Intervals
import Mathlib.Algebra.Order.BigOperators.Group.Finset
import Mathlib.Data.List.GetD
import Mathlib.Data.List.Sort
import Fbz.Bzip2.Coding
import Fbz.Lib.CanonicalCode
import Fbz.Lib.CoinCollector

/-!
# Package-merge is optimal

The levels are those of the coin collector's problem: a symbol with a code of some length is one
coin of each of so many denominations from the highest down. Lengths whose sum is at most one pay
for all words but one code's worth, and the selected prefix of the last level does it by the least
weight.
-/

namespace Fbz.Bzip2.Coding

open CoinCollector CanonicalCode

/-- The bits of all symbols, each as often as its weight says. -/
def totalLength (weights lengths : List Nat) : Nat := (List.zipWith (· * ·) weights lengths).sum

def Weighted.leaf (entry : Nat × Nat) : Weighted := ⟨entry.1, .single entry.2⟩

def Weighted.pack (a b : Weighted) : Weighted := ⟨a.weight + b.weight, .package a.coin b.coin⟩

/-- How often a symbol is in a coin. -/
def Coin.occurrences (symbol : Nat) : Coin → Nat
  | single other => if other = symbol then 1 else 0
  | package left right => left.occurrences symbol + right.occurrences symbol

def byWeight (weights : List Nat) : List (Nat × Nat) :=
  weights.zipIdx.mergeSort fun a b => decide (a.1 ≤ b.1)

/-- Whether a symbol is among so many of the lightest. -/
def among (weights : List Nat) (symbol count : Nat) : Nat :=
  (((byWeight weights).take count).map fun entry => if entry.2 = symbol then 1 else 0).sum

variable {weights : List Nat}

private theorem packages_eq (level : List Weighted) :
    packages level = pairs Weighted.pack level := by
  induction level using packages.induct with
  | case1 a b rest ih => rw [packages, pairs, ih, Weighted.pack]
  | case2 a => rw [packages, pairs]
  | case3 => rw [packages, pairs]

private theorem levels_eq (leaves : List Weighted) (below : Nat) :
    Nat.repeat (fun level => mergeCoins leaves (packages level)) below leaves =
      level Weighted.weight Weighted.pack leaves below := by
  induction below with
  | zero => rfl
  | succ below ih =>
    rw [Nat.repeat, ih, packages_eq]
    rfl

private theorem weight_additive : Additive Weighted.pack Weighted.weight := fun _ _ => rfl

private theorem occurrences_additive (symbol : Nat) :
    Additive Weighted.pack fun node => node.coin.occurrences symbol := fun _ _ => rfl

/-- No weight leaves 64 bits, for symbols that are counted in 32 bits and an arena that is indexed
in 32. -/
theorem level_weight_lt {limit below : Nat} (lt : below < limit)
    (few : weights.length * limit ≤ 2 ^ 32) (u32 : ∀ weight ∈ weights, weight < 2 ^ 32) :
    ∀ node ∈ level Weighted.weight Weighted.pack ((byWeight weights).map Weighted.leaf) below,
      node.weight < 2 ^ 64 := by
  intro node hmem
  have hnode := List.le_sum_of_mem (List.mem_map_of_mem (f := Weighted.weight) hmem)
  have hlevel := @level_sum_le _ Weighted.weight Weighted.pack _ weight_additive
    ((byWeight weights).map Weighted.leaf) below
  have hsum : (((byWeight weights).map Weighted.leaf).map Weighted.weight).sum = weights.sum := by
    rw [List.map_map, byWeight, ((List.mergeSort_perm ..).map _).sum_nat]
    exact congrArg _ (List.zipIdx_map_fst 0 weights)
  have hweights : weights.sum ≤ weights.length * (2 ^ 32 - 1) :=
    List.sum_le_card_nsmul _ _ fun weight hw => Nat.le_sub_one_of_lt (u32 weight hw)
  rw [hsum] at hlevel
  calc node.weight ≤ (below + 1) * weights.sum := Nat.le_trans hnode hlevel
    _ ≤ limit * (weights.length * (2 ^ 32 - 1)) := Nat.mul_le_mul lt hweights
    _ = weights.length * limit * (2 ^ 32 - 1) := by ring
    _ ≤ 2 ^ 32 * (2 ^ 32 - 1) := Nat.mul_le_mul_right _ few
    _ < 2 ^ 64 := by decide

private theorem Coin.count_length (coin : Coin) (lens : List Nat) :
    (coin.count lens).length = lens.length := by
  induction coin generalizing lens with
  | single symbol => rw [Coin.count, List.length_modify]
  | package left right ihl ihr => rw [Coin.count, ihr, ihl]

private theorem Coin.count_getD (coin : Coin) {lens : List Nat} {symbol : Nat}
    (lt : symbol < lens.length) :
    (coin.count lens).getD symbol 0 = lens.getD symbol 0 + coin.occurrences symbol := by
  induction coin generalizing lens with
  | single other =>
    rw [Coin.count, Coin.occurrences, List.getD_eq_getElem?_getD, List.getElem?_modify,
      List.getD_eq_getElem?_getD, List.getElem?_eq_getElem lt]
    by_cases heq : other = symbol
    · simp [heq]
    · simp [heq]
  | package left right ihl ihr =>
    rw [Coin.count, Coin.occurrences, ihr (by rwa [Coin.count_length]), ihl lt, Nat.add_assoc]

private theorem foldl_count_length (nodes : List Weighted) (lens : List Nat) :
    (nodes.foldl (fun lens node => node.coin.count lens) lens).length = lens.length := by
  induction nodes generalizing lens with
  | nil => rfl
  | cons node nodes ih => rw [List.foldl_cons, ih, Coin.count_length]

private theorem foldl_count_getD (nodes : List Weighted) {lens : List Nat} {symbol : Nat}
    (lt : symbol < lens.length) :
    (nodes.foldl (fun lens node => node.coin.count lens) lens).getD symbol 0 =
      lens.getD symbol 0 + (nodes.map fun node => node.coin.occurrences symbol).sum := by
  induction nodes generalizing lens with
  | nil => rfl
  | cons node nodes ih =>
    rw [List.foldl_cons, ih (by rwa [Coin.count_length]), Coin.count_getD _ lt, List.map_cons,
      List.sum_cons, Nat.add_assoc]

private theorem sum_zipIdx (weights : List Nat) (f : Nat × Nat → Nat) :
    (weights.zipIdx.map f).sum = ∑ i ∈ Finset.range weights.length, f (weights.getD i 0, i) := by
  have hentries : weights.zipIdx =
      (List.range weights.length).map fun i => (weights.getD i 0, i) := by
    refine List.ext_getElem (by simp) fun i hi hi' => ?_
    rw [List.length_zipIdx] at hi
    simp [hi]
  rw [hentries, List.map_map]
  rfl

private theorem sum_byWeight (weights : List Nat) (f : Nat × Nat → Nat) :
    ((byWeight weights).map f).sum =
      ∑ i ∈ Finset.range weights.length, f (weights.getD i 0, i) := by
  rw [← sum_zipIdx]
  exact ((List.mergeSort_perm ..).map f).sum_nat

private theorem byWeight_length (weights : List Nat) :
    (byWeight weights).length = weights.length := by
  rw [byWeight, List.length_mergeSort, List.length_zipIdx]

private theorem byWeight_mem {entry : Nat × Nat} (mem : entry ∈ byWeight weights) :
    entry.2 < weights.length ∧ weights.getD entry.2 0 = entry.1 := by
  have hget := List.mk_mem_zipIdx_iff_getElem?.mp ((List.mergeSort_perm ..).mem_iff.mp mem)
  refine ⟨(List.getElem?_eq_some_iff.mp hget).1, ?_⟩
  rw [List.getD_eq_getElem?_getD, hget, Option.getD_some]

private theorem leaves_sorted (weights : List Nat) :
    Sorted Weighted.weight ((byWeight weights).map Weighted.leaf) := by
  have hsorted := @List.pairwise_mergeSort _ (fun a b : Nat × Nat => decide (a.1 ≤ b.1))
    (fun a b c hab hbc => by
      rw [decide_eq_true_eq] at hab hbc ⊢
      exact Nat.le_trans hab hbc)
    (fun a b => by
      rw [Bool.or_eq_true, decide_eq_true_eq, decide_eq_true_eq]
      exact Nat.le_total _ _)
    weights.zipIdx
  exact List.pairwise_map.mpr (hsorted.imp fun h => of_decide_eq_true h)

private theorem sum_leaves (weights : List Nat) (count : Nat) (f : Weighted → Nat) :
    ((((byWeight weights).map Weighted.leaf).take count).map f).sum =
      (((byWeight weights).take count).map fun entry => f (.leaf entry)).sum := by
  rw [← List.map_take, List.map_map]
  rfl

private theorem among_mono (weights : List Nat) (symbol : Nat) {few many : Nat} (le : few ≤ many) :
    among weights symbol few ≤ among weights symbol many :=
  sum_take_mono _ (byWeight weights) le

private theorem among_le_one (weights : List Nat) (symbol count : Nat) :
    among weights symbol count ≤ 1 := by
  have hall : among weights symbol (byWeight weights).length ≤ 1 := by
    rw [among, List.take_length, sum_byWeight, Finset.sum_ite_eq']
    split <;> omega
  rcases Nat.le_total count (byWeight weights).length with hle | hle
  · exact Nat.le_trans (among_mono weights symbol hle) hall
  · rwa [among, List.take_of_length_le hle, ← List.take_length (l := byWeight weights)]

private theorem sum_among (weights : List Nat) (count : Nat) (f : Nat → Nat) :
    ∑ i ∈ Finset.range weights.length, f i * among weights i count =
      (((byWeight weights).take count).map fun entry => f entry.2).sum := by
  have hmem : ∀ entry ∈ (byWeight weights).take count, entry.2 < weights.length :=
    fun entry h => (byWeight_mem (List.mem_of_mem_take h)).1
  simp only [among]
  generalize (byWeight weights).take count = entries at hmem
  induction entries with
  | nil => simp
  | cons entry entries ih =>
    simp only [List.map_cons, List.sum_cons, mul_add, Finset.sum_add_distrib]
    rw [ih fun e he => hmem e (List.mem_cons_of_mem _ he)]
    simp [hmem entry List.mem_cons_self]

private theorem sum_below {limit length : Nat} (le : length ≤ limit) :
    ((List.range limit).map fun j => if j < length then 1 else 0).sum = length := by
  have hfinset : ((List.range limit).map fun j => if j < length then 1 else 0).sum =
      ∑ j ∈ Finset.range limit, if j < length then 1 else 0 := rfl
  have hbelow : (Finset.range limit).filter (· < length) = Finset.range length := by
    ext j
    simp
    omega
  rw [hfinset, ← Finset.sum_filter, Finset.sum_const_nat fun _ _ => rfl, mul_one, hbelow,
    Finset.card_range]

private theorem worth_lengths {limit : Nat} (length : Nat → Nat) (symbols : Nat)
    (bounded : ∀ i < symbols, length i ≤ limit) :
    worth ((List.range limit).map fun j =>
        ∑ i ∈ Finset.range symbols, if j < length i then 1 else 0) +
      ∑ i ∈ Finset.range symbols, 2 ^ (limit - length i) = symbols * 2 ^ limit := by
  rw [worth_sum, ← Finset.sum_add_distrib]
  refine (Finset.sum_const_nat fun i hi => ?_).trans (by rw [Finset.card_range])
  have hle := bounded i (Finset.mem_range.mp hi)
  obtain ⟨hworth, -⟩ := @worth_bits ((List.range limit).map fun j => if j < length i then 1 else 0)
    (by simp; intro a _; split <;> omega)
    (List.pairwise_map.mpr (List.pairwise_lt_range.imp fun {a b} hlt => by
      split <;> split <;> omega))
  rwa [sum_below hle, List.length_map, List.length_range] at hworth

private theorem selected_worth {limit : Nat} (pos : 0 < limit) (symbols : Nat) :
    (2 * symbols - 2) * 2 ^ (limit - 1) = (symbols - 1) * 2 ^ limit := by
  obtain ⟨below, rfl⟩ := Nat.exists_eq_add_of_lt pos
  rw [show 2 * symbols - 2 = (symbols - 1) * 2 by omega, Nat.mul_assoc, ← Nat.pow_succ']
  congr 2

private theorem level_full {limit : Nat} (pos : 0 < limit) (room : weights.length ≤ 2 ^ limit) :
    2 * weights.length - 2 ≤ (level Weighted.weight Weighted.pack
      ((byWeight weights).map Weighted.leaf) (limit - 1)).length := by
  refine (@level_light _ _ _ weight_additive _ (leaves_sorted weights) (limit - 1)
    (2 * weights.length - 2) ((List.range limit).map fun j =>
      ∑ _i ∈ Finset.range weights.length, if j < limit then 1 else 0) ?_ ?_ ?_).1
  · rw [List.length_map, List.length_range]
    omega
  · intro count hmem
    obtain ⟨j, -, rfl⟩ := List.mem_map.mp hmem
    rw [List.length_map, byWeight_length]
    refine Nat.le_trans (Finset.sum_le_card_nsmul _ _ 1 fun _ _ => ?_) (by simp)
    split <;> omega
  · have hworth := @worth_lengths limit (fun _ => limit) weights.length fun _ _ => Nat.le_refl _
    rw [Nat.sub_self, pow_zero, Finset.sum_const_nat fun _ _ => rfl, Finset.card_range] at hworth
    rw [selected_worth pos, Nat.sub_mul]
    omega

private theorem packageMerge_counts {limit : Nat} (pos : 0 < limit)
    (room : weights.length ≤ 2 ^ limit) :
    ∃ counts : List Nat, counts.length = limit ∧ counts.Pairwise (· ≥ ·) ∧
      (∀ count ∈ counts, count ≤ weights.length) ∧
      worth counts = (weights.length - 1) * 2 ^ limit ∧
      (∀ i < weights.length,
        (packageMerge weights limit).getD i 0 = (counts.map (among weights i)).sum) ∧
      (counts.map fun count => (((byWeight weights).take count).map Prod.fst).sum).sum =
        (((level Weighted.weight Weighted.pack ((byWeight weights).map Weighted.leaf)
          (limit - 1)).take (2 * weights.length - 2)).map Weighted.weight).sum := by
  obtain ⟨first, rest, hlength, hdesc, hfirst, hworth, -, hsum⟩ :=
    level_picks weight_additive (leaves_sorted weights) (limit - 1) (level_full pos room)
  rw [List.length_map, byWeight_length] at hfirst
  refine ⟨first :: rest, by rw [List.length_cons]; omega, hdesc, fun count hmem => ?_, ?_,
    fun i hi => ?_, ?_⟩
  · rcases List.mem_cons.mp hmem with rfl | hmem
    · exact hfirst
    · exact Nat.le_trans ((List.pairwise_cons.mp hdesc).1 count hmem) hfirst
  · rw [hworth, selected_worth pos]
  · have hcount := hsum _ (occurrences_additive i)
    simp only [sum_leaves] at hcount
    rw [packageMerge, show (weights.zipIdx.mergeSort fun a b => decide (a.1 ≤ b.1)) = byWeight weights from rfl,
      show (fun entry : Nat × Nat => (⟨entry.1, .single entry.2⟩ : Weighted)) = Weighted.leaf from rfl,
      levels_eq, foldl_count_getD _ (by rwa [List.length_replicate]), hcount,
      List.getD_replicate _ hi, Nat.zero_add]
    rfl
  · rw [hsum _ weight_additive]
    simp only [sum_leaves]
    rfl

theorem packageMerge_length (weights : List Nat) (limit : Nat) :
    (packageMerge weights limit).length = weights.length := by
  rw [packageMerge, foldl_count_length, List.length_replicate]

private theorem sum_map_comm (s : Finset Nat) (items : List Nat) (f : Nat → Nat → Nat) :
    ∑ i ∈ s, (items.map (f i)).sum = (items.map fun item => ∑ i ∈ s, f i item).sum := by
  induction items with
  | nil => simp
  | cons item items ih => simp only [List.map_cons, List.sum_cons, Finset.sum_add_distrib, ih]

private theorem sum_map_getD (lengths : List Nat) (f : Nat → Nat) :
    (lengths.map f).sum = ∑ i ∈ Finset.range lengths.length, f (lengths.getD i 0) := by
  have hlist : lengths = (List.range lengths.length).map fun i => lengths.getD i 0 := by
    refine List.ext_getElem (by simp) fun i hi _ => ?_
    simp [hi]
  conv_lhs => rw [hlist, List.map_map]
  rfl

private theorem totalLength_eq {lengths : List Nat} (size : lengths.length = weights.length) :
    totalLength weights lengths =
      ∑ i ∈ Finset.range weights.length, weights.getD i 0 * lengths.getD i 0 := by
  have hlist : List.zipWith (· * ·) weights lengths =
      (List.range weights.length).map fun i => weights.getD i 0 * lengths.getD i 0 := by
    refine List.ext_getElem (by simp [size]) fun i hi _ => ?_
    rw [List.length_zipWith] at hi
    simp [show i < weights.length by omega, show i < lengths.length by omega]
  rw [totalLength, hlist]
  rfl

private theorem kraft_eq_sum {lengths : List Nat} {limit : Nat}
    (pos : ∀ length ∈ lengths, 1 ≤ length) : kraft lengths limit =
      ∑ i ∈ Finset.range lengths.length, 2 ^ (limit - lengths.getD i 0) := by
  rw [← sum_map_getD lengths fun length => 2 ^ (limit - length), kraft]
  congr 1
  exact List.map_congr_left fun length hmem => if_neg (by have := pos length hmem; omega)

/-- For each denomination, the lightest coins are no heavier than those of the symbols that have one
there. -/
theorem sum_lightest_le (lengths : List Nat) (j : Nat) :
    (((byWeight weights).take (∑ i ∈ Finset.range weights.length,
      if j < lengths.getD i 0 then 1 else 0)).map Prod.fst).sum ≤
      ∑ i ∈ Finset.range weights.length, weights.getD i 0 * if j < lengths.getD i 0 then 1 else 0 := by
  obtain ⟨chosen, hchosen⟩ : ∃ chosen, chosen =
      (byWeight weights).filter fun entry => decide (j < lengths.getD entry.2 0) := ⟨_, rfl⟩
  have hfilter : ∀ (f : Nat × Nat → Nat) (entries : List (Nat × Nat)),
      ((entries.filter fun entry => decide (j < lengths.getD entry.2 0)).map f).sum =
        (entries.map fun entry => f entry * if j < lengths.getD entry.2 0 then 1 else 0).sum := by
    intro f entries
    induction entries with
    | nil => rfl
    | cons entry entries ih =>
      rw [List.filter_cons, List.map_cons, List.sum_cons, ← ih]
      by_cases hlt : j < lengths.getD entry.2 0
      · rw [if_pos (decide_eq_true hlt), if_pos hlt, List.map_cons, List.sum_cons, Nat.mul_one]
      · rw [if_neg (by simpa using hlt), if_neg hlt, Nat.mul_zero, Nat.zero_add]
  have hlength : chosen.length = ∑ i ∈ Finset.range weights.length,
      if j < lengths.getD i 0 then 1 else 0 := by
    have h := hfilter (fun _ => 1) (byWeight weights)
    rw [sum_byWeight, ← hchosen] at h
    simpa using h
  have hsorted : Sorted Prod.fst (byWeight weights) :=
    (List.pairwise_map (f := Weighted.leaf)).mp (leaves_sorted weights)
  have hle := sum_take_le_of_sublist hsorted (hchosen ▸ List.filter_sublist)
  rw [hlength] at hle
  refine Nat.le_trans hle (Nat.le_of_eq ?_)
  rw [hchosen, hfilter, sum_byWeight]

/-- The lengths are one to the limit and leave no word unused. -/
theorem packageMerge_complete {limit : Nat} (two : 2 ≤ weights.length)
    (room : weights.length ≤ 2 ^ limit) :
    (∀ length ∈ packageMerge weights limit, 1 ≤ length ∧ length ≤ limit) ∧
      kraftSum (packageMerge weights limit) = 1 := by
  have hpos : 0 < limit := by
    rcases Nat.eq_zero_or_pos limit with rfl | hpos
    · omega
    · exact hpos
  obtain ⟨counts, hlength, hdesc, hle, hworth, hget, -⟩ := packageMerge_counts hpos room
  have hbits : ∀ i < weights.length,
      worth (counts.map (among weights i)) +
        2 ^ (limit - (packageMerge weights limit).getD i 0) = 2 ^ limit ∧
      (packageMerge weights limit).getD i 0 ≤ limit := by
    intro i hi
    have h := @worth_bits (counts.map (among weights i))
      (fun bit hmem => by
        obtain ⟨count, -, rfl⟩ := List.mem_map.mp hmem
        exact among_le_one weights i count)
      (List.pairwise_map.mpr (hdesc.imp fun h => among_mono weights i h))
    rwa [List.length_map, hlength, ← hget i hi] at h
  have htotal : ∑ i ∈ Finset.range weights.length,
      2 ^ (limit - (packageMerge weights limit).getD i 0) = 2 ^ limit := by
    have hsum : ∑ i ∈ Finset.range weights.length, worth (counts.map (among weights i)) =
        (weights.length - 1) * 2 ^ limit := by
      rw [← worth_sum, ← hworth]
      congr 1
      refine (List.map_congr_left fun count hmem => ?_).trans (List.map_id counts)
      have hamong := sum_among weights count fun _ => 1
      simp only [Nat.one_mul] at hamong
      rw [hamong]
      simp [byWeight_length, hle count hmem]
    have hall : ∑ i ∈ Finset.range weights.length, (worth (counts.map (among weights i)) +
        2 ^ (limit - (packageMerge weights limit).getD i 0)) = weights.length * 2 ^ limit :=
      (Finset.sum_const_nat fun i hi => (hbits i (Finset.mem_range.mp hi)).1).trans
        (by rw [Finset.card_range])
    rw [Finset.sum_add_distrib, hsum, Nat.sub_mul] at hall
    have := Nat.mul_le_mul_right (2 ^ limit) two
    omega
  have hone : ∀ i < weights.length, 1 ≤ (packageMerge weights limit).getD i 0 := by
    intro i hi
    by_contra hzero
    -- A code of no bits would be all words, and there is another symbol.
    obtain ⟨j, hj, hne⟩ : ∃ j < weights.length, j ≠ i :=
      ⟨if i = 0 then 1 else 0, by split <;> omega, by split <;> omega⟩
    have hpair := Finset.sum_le_sum_of_subset
      (f := fun i => 2 ^ (limit - (packageMerge weights limit).getD i 0))
      (show ({i, j} : Finset Nat) ⊆ Finset.range weights.length by
        intro k hk
        rcases Finset.mem_insert.mp hk with rfl | hk
        · exact Finset.mem_range.mpr hi
        · rw [Finset.mem_singleton.mp hk]
          exact Finset.mem_range.mpr hj)
    rw [Finset.sum_pair hne.symm, htotal, show (packageMerge weights limit).getD i 0 = 0 by omega,
      Nat.sub_zero] at hpair
    have := Nat.two_pow_pos (limit - (packageMerge weights limit).getD j 0)
    omega
  have hmem : ∀ length ∈ packageMerge weights limit, 1 ≤ length ∧ length ≤ limit := by
    intro length h
    obtain ⟨i, hi, rfl⟩ := List.mem_iff_getElem.mp h
    rw [packageMerge_length] at hi
    have h1 := hone i hi
    have h2 := (hbits i hi).2
    rw [List.getD_eq_getElem _ _ (by rwa [packageMerge_length])] at h1 h2
    exact ⟨h1, h2⟩
  refine ⟨hmem, (kraftSum_eq_one_iff fun length h => (hmem length h).2).mpr ?_⟩
  rw [kraft_eq_sum fun length h => (hmem length h).1, packageMerge_length, htotal]

/-- No lengths within the limit whose code fits make the total shorter. -/
theorem packageMerge_least {limit : Nat} (two : 2 ≤ weights.length)
    (room : weights.length ≤ 2 ^ limit) {lengths : List Nat}
    (size : lengths.length = weights.length)
    (bounded : ∀ length ∈ lengths, 1 ≤ length ∧ length ≤ limit) (fits : kraftSum lengths ≤ 1) :
    totalLength weights (packageMerge weights limit) ≤ totalLength weights lengths := by
  have hpos : 0 < limit := by
    rcases Nat.eq_zero_or_pos limit with rfl | hpos
    · omega
    · exact hpos
  have hlimit : ∀ length ∈ lengths, length ≤ limit := fun length hmem => (bounded length hmem).2
  have hbounded : ∀ i < weights.length, lengths.getD i 0 ≤ limit := by
    intro i hi
    rw [List.getD_eq_getElem _ _ (by omega)]
    exact hlimit _ (List.getElem_mem _)
  obtain ⟨counts, -, -, hle, -, hget, hweight⟩ := packageMerge_counts hpos room
  have hselected : totalLength weights (packageMerge weights limit) =
      (counts.map fun count => (((byWeight weights).take count).map Prod.fst).sum).sum := by
    rw [totalLength_eq (packageMerge_length weights limit)]
    calc ∑ i ∈ Finset.range weights.length,
          weights.getD i 0 * (packageMerge weights limit).getD i 0
        = ∑ i ∈ Finset.range weights.length,
            (counts.map fun count => weights.getD i 0 * among weights i count).sum :=
          Finset.sum_congr rfl fun i hi => by
            rw [hget i (Finset.mem_range.mp hi), List.sum_map_mul_left]
      _ = (counts.map fun count =>
            ∑ i ∈ Finset.range weights.length, weights.getD i 0 * among weights i count).sum :=
          sum_map_comm _ counts _
      _ = _ := by
          congr 1
          refine List.map_congr_left fun count _ => ?_
          rw [sum_among]
          congr 1
          exact List.map_congr_left fun entry hmem =>
            (byWeight_mem (List.mem_of_mem_take hmem)).2
  have hkraft : kraft lengths limit ≤ 2 ^ limit := by
    rw [kraft_eq_filled hlimit]
    exact (kraftSum_le_one_iff hlimit).mp fits
  rw [kraft_eq_sum fun length hmem => (bounded length hmem).1, size] at hkraft
  have hworth := @worth_lengths limit (fun i => lengths.getD i 0) weights.length hbounded
  obtain ⟨-, hlight⟩ := @level_light _ Weighted.weight Weighted.pack weight_additive _
    (leaves_sorted weights) (limit - 1) (2 * weights.length - 2)
    ((List.range limit).map fun j =>
      ∑ i ∈ Finset.range weights.length, if j < lengths.getD i 0 then 1 else 0)
    (by
      rw [List.length_map, List.length_range]
      omega)
    (by
      intro count hmem
      obtain ⟨j, -, rfl⟩ := List.mem_map.mp hmem
      rw [List.length_map, byWeight_length]
      refine Nat.le_trans (Finset.sum_le_card_nsmul _ _ 1 fun _ _ => ?_) (by simp)
      split <;> omega)
    (by
      rw [selected_worth hpos, Nat.sub_mul]
      omega)
  rw [hselected, hweight, totalLength_eq size]
  refine Nat.le_trans hlight ?_
  simp only [sum_leaves, List.map_map]
  calc (((List.range limit).map _)).sum
      ≤ ((List.range limit).map fun j => ∑ i ∈ Finset.range weights.length,
          weights.getD i 0 * if j < lengths.getD i 0 then 1 else 0).sum :=
        List.sum_le_sum fun j _ => sum_lightest_le lengths j
    _ = ∑ j ∈ Finset.range limit, ∑ i ∈ Finset.range weights.length,
          weights.getD i 0 * if j < lengths.getD i 0 then 1 else 0 := rfl
    _ = ∑ i ∈ Finset.range weights.length, weights.getD i 0 * lengths.getD i 0 := by
        rw [Finset.sum_comm]
        refine Finset.sum_congr rfl fun i hi => ?_
        have := hbounded i (Finset.mem_range.mp hi)
        rw [← Finset.mul_sum]
        exact congrArg _ (sum_below this)

/-- Lengths of a complete code within the limit, of the least total. The code keeps weights in `u64`
and places of its arena in `u32`; for counts of 32 bits and an arena of `weights.length * limit`
entries that fits (`level_weight_lt`), which is so for every block. -/
theorem packageMerge_optimal {limit : Nat} (two : 2 ≤ weights.length)
    (room : weights.length ≤ 2 ^ limit) :
    (packageMerge weights limit).length = weights.length ∧
      (∀ length ∈ packageMerge weights limit, 1 ≤ length ∧ length ≤ limit) ∧
      kraftSum (packageMerge weights limit) = 1 ∧
      ∀ lengths : List Nat, lengths.length = weights.length →
        (∀ length ∈ lengths, 1 ≤ length ∧ length ≤ limit) → kraftSum lengths ≤ 1 →
        totalLength weights (packageMerge weights limit) ≤ totalLength weights lengths := by
  obtain ⟨hbounded, hkraft⟩ := packageMerge_complete two room
  exact ⟨packageMerge_length weights limit, hbounded, hkraft, fun _ => packageMerge_least two room⟩

theorem packageMerge_optimal_four : (packageMerge [7, 1, 2, 1] 2).length = 4 ∧
    (∀ length ∈ packageMerge [7, 1, 2, 1] 2, 1 ≤ length ∧ length ≤ 2) ∧
    kraftSum (packageMerge [7, 1, 2, 1] 2) = 1 ∧
    ∀ lengths : List Nat, lengths.length = 4 → (∀ length ∈ lengths, 1 ≤ length ∧ length ≤ 2) →
      kraftSum lengths ≤ 1 →
      totalLength [7, 1, 2, 1] (packageMerge [7, 1, 2, 1] 2) ≤ totalLength [7, 1, 2, 1] lengths :=
  packageMerge_optimal (by decide) (by decide)

end Fbz.Bzip2.Coding
