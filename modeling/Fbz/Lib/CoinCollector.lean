import Mathlib.Algebra.BigOperators.Ring.Finset
import Mathlib.Data.List.Forall2
import Mathlib.Tactic.Linarith
import Mathlib.Tactic.Ring

/-!
# The coin collector's problem

Coins of the same weights are there in each denomination, and a denomination is half the next one.
Merging the coins of a denomination with pairs of the denomination below, level by level, lists the
ways to pay by weight: the first `n` entries of a level pay `n` of its denomination, no other choice
of coins that pays as much is lighter, and the coins chosen of each denomination are the lightest.
-/

namespace Fbz.CoinCollector

variable {α : Type} {weight : α → Nat} {pack : α → α → α}

/-- Neighbours are packed together; one that is left over is dropped. -/
def pairs (pack : α → α → α) : List α → List α
  | a :: b :: rest => pack a b :: pairs pack rest
  | [_] | [] => []

/-- The coins of a denomination among the pairs of the one below; coins go first. -/
def merge (weight : α → Nat) (coins packed : List α) : List α :=
  coins.merge packed fun a b => decide (weight a ≤ weight b)

/-- The entries of a denomination, with so many below it. -/
def level (weight : α → Nat) (pack : α → α → α) (coins : List α) : Nat → List α
  | 0 => coins
  | below + 1 => merge weight coins (pairs pack (level weight pack coins below))

/-- What numbers of coins are worth in units of the lowest denomination, the highest first. -/
def worth : List Nat → Nat
  | [] => 0
  | count :: counts => count * 2 ^ counts.length + worth counts

/-- By weight. -/
def Sorted (weight : α → Nat) (items : List α) : Prop :=
  items.Pairwise fun a b => weight a ≤ weight b

/-- What a pack holds is what both hold. -/
def Additive (pack : α → α → α) (f : α → Nat) : Prop := ∀ a b, f (pack a b) = f a + f b

/-- In a sorted list, the first elements are the lightest. -/
theorem sum_take_le_of_sublist {items chosen : List α} (sorted : Sorted weight items)
    (sub : chosen.Sublist items) :
    ((items.take chosen.length).map weight).sum ≤ (chosen.map weight).sum := by
  have hpointwise : List.Forall₂ (fun a b => weight a ≤ weight b)
      (items.take chosen.length) chosen := by
    induction sub with
    | slnil => exact .nil
    | @cons chosen items a sub ih =>
      obtain ⟨hle, hsorted⟩ := List.pairwise_cons.mp sorted
      have hshift : ∀ (a : α) (items chosen : List α), (∀ b ∈ items, weight a ≤ weight b) →
          Sorted weight items →
          List.Forall₂ (fun a b => weight a ≤ weight b) (items.take chosen.length) chosen →
          List.Forall₂ (fun a b => weight a ≤ weight b) ((a :: items).take chosen.length) chosen := by
        intro a items chosen
        induction chosen generalizing a items with
        | nil => exact fun _ _ _ => .nil
        | cons c chosen ih =>
          intro hle hsorted hall
          cases items with
          | nil => cases hall
          | cons b items =>
            obtain ⟨hb, hsorted⟩ := List.pairwise_cons.mp hsorted
            rw [List.length_cons, List.take_succ_cons] at hall ⊢
            obtain ⟨hhead, htail⟩ := List.forall₂_cons.mp hall
            exact .cons (Nat.le_trans (hle b List.mem_cons_self) hhead) (ih b items hb hsorted htail)
      exact hshift a items chosen hle hsorted (ih hsorted)
    | @cons_cons chosen items a sub ih =>
      rw [List.length_cons, List.take_succ_cons]
      exact .cons (Nat.le_refl _) (ih (List.pairwise_cons.mp sorted).2)
  have hsum : ∀ {xs ys : List α}, List.Forall₂ (fun a b => weight a ≤ weight b) xs ys →
      (xs.map weight).sum ≤ (ys.map weight).sum := by
    intro xs ys h
    induction h with
    | nil => exact Nat.le_refl _
    | cons hle _ ih =>
      rw [List.map_cons, List.sum_cons, List.map_cons, List.sum_cons]
      exact Nat.add_le_add hle ih
  exact hsum hpointwise

theorem sum_take_le_of_subperm {items chosen : List α} (sorted : Sorted weight items)
    (sub : chosen.Subperm items) :
    ((items.take chosen.length).map weight).sum ≤ (chosen.map weight).sum := by
  obtain ⟨other, hperm, hsub⟩ := sub
  rw [← hperm.length_eq, ← (hperm.map weight).sum_nat]
  exact sum_take_le_of_sublist sorted hsub

theorem sum_take_mono (weight : α → Nat) (items : List α) {few many : Nat} (le : few ≤ many) :
    ((items.take few).map weight).sum ≤ ((items.take many).map weight).sum := by
  obtain ⟨more, rfl⟩ := Nat.exists_eq_add_of_le le
  rw [List.take_add, List.map_append, List.sum_append]
  exact Nat.le_add_right _ _

theorem pairs_length (pack : α → α → α) (items : List α) :
    (pairs pack items).length = items.length / 2 := by
  induction items using pairs.induct with
  | case1 a b rest ih =>
    rw [pairs, List.length_cons, ih, List.length_cons, List.length_cons]
    omega
  | case2 a => simp [pairs]
  | case3 => simp [pairs]

theorem pairs_take (pack : α → α → α) (items : List α) (count : Nat) :
    (pairs pack items).take count = pairs pack (items.take (2 * count)) := by
  induction items using pairs.induct generalizing count with
  | case1 a b rest ih =>
    cases count with
    | zero => rfl
    | succ count =>
      rw [show 2 * (count + 1) = 2 * count + 1 + 1 by omega, List.take_succ_cons,
        List.take_succ_cons, pairs, pairs, List.take_succ_cons, ih]
  | case2 a =>
    cases count with
    | zero => rfl
    | succ count =>
      rw [show 2 * (count + 1) = 2 * count + 1 + 1 by omega, List.take_succ_cons, List.take_nil,
        pairs, List.take_nil]
  | case3 => simp [pairs]

theorem pairs_sum {f : α → Nat} (additive : Additive pack f) {items : List α}
    (even : items.length % 2 = 0) : ((pairs pack items).map f).sum = (items.map f).sum := by
  induction items using pairs.induct with
  | case1 a b rest ih =>
    rw [List.length_cons, List.length_cons] at even
    rw [pairs]
    simp only [List.map_cons, List.sum_cons, additive a b, ih (by omega)]
    omega
  | case2 a => simp at even
  | case3 => rw [pairs]

theorem pairs_sum_le {f : α → Nat} (additive : Additive pack f) (items : List α) :
    ((pairs pack items).map f).sum ≤ (items.map f).sum := by
  induction items using pairs.induct with
  | case1 a b rest ih =>
    rw [pairs]
    simp only [List.map_cons, List.sum_cons, additive a b]
    omega
  | case2 a => simp [pairs]
  | case3 => simp [pairs]

/-- No item is heavier than the pack it is in. -/
theorem pairs_cover (additive : Additive pack weight) {items : List α}
    (even : items.length % 2 = 0) :
    ∀ a ∈ items, ∃ b ∈ pairs pack items, weight a ≤ weight b := by
  induction items using pairs.induct with
  | case1 a b rest ih =>
    rw [List.length_cons, List.length_cons] at even
    intro c hmem
    rw [pairs]
    have hpack := additive a b
    rcases List.mem_cons.mp hmem with rfl | hmem
    · exact ⟨pack c b, List.mem_cons_self, by omega⟩
    rcases List.mem_cons.mp hmem with rfl | hmem
    · exact ⟨pack a c, List.mem_cons_self, by omega⟩
    obtain ⟨d, hd, hle⟩ := ih (by omega) c hmem
    exact ⟨d, List.mem_cons_of_mem _ hd, hle⟩
  | case2 a => simp at even
  | case3 => simp

theorem pairs_heavy (additive : Additive pack weight) {items : List α} {bound : Nat}
    (heavy : ∀ a ∈ items, bound ≤ weight a) : ∀ a ∈ pairs pack items, 2 * bound ≤ weight a := by
  induction items using pairs.induct with
  | case1 a b rest ih =>
    intro c hmem
    rw [pairs] at hmem
    rcases List.mem_cons.mp hmem with rfl | hmem
    · have ha := heavy a (by simp)
      have hb := heavy b (by simp)
      rw [additive a b]
      omega
    · exact ih (fun d hd => heavy d (by simp [hd])) c hmem
  | case2 a => simp [pairs]
  | case3 => simp [pairs]

theorem pairs_sorted (additive : Additive pack weight) {items : List α}
    (sorted : Sorted weight items) : Sorted weight (pairs pack items) := by
  induction items using pairs.induct with
  | case1 a b rest ih =>
    obtain ⟨ha, htail⟩ := List.pairwise_cons.mp sorted
    obtain ⟨hb, hrest⟩ := List.pairwise_cons.mp htail
    rw [pairs]
    refine List.pairwise_cons.mpr ⟨fun c hmem => ?_, ih hrest⟩
    have hheavy := pairs_heavy additive hb c hmem
    have := ha b List.mem_cons_self
    rw [additive a b]
    omega
  | case2 a =>
    rw [pairs]
    exact .nil
  | case3 =>
    rw [pairs]
    exact .nil

theorem merge_sorted {coins packed : List α} (hcoins : Sorted weight coins)
    (hpacked : Sorted weight packed) : Sorted weight (merge weight coins packed) := by
  have h := @List.pairwise_merge _ (fun a b => decide (weight a ≤ weight b))
    (fun a b c hab hbc => by
      rw [decide_eq_true_eq] at hab hbc ⊢
      exact Nat.le_trans hab hbc)
    (fun a b => by
      rw [Bool.or_eq_true, decide_eq_true_eq, decide_eq_true_eq]
      exact Nat.le_total _ _)
    coins packed (hcoins.imp fun h => decide_eq_true h) (hpacked.imp fun h => decide_eq_true h)
  exact h.imp fun h => of_decide_eq_true h

/-- The first entries of a merge are the first coins and the first packs; packs are only taken when
they are lighter than the coins that are not. -/
theorem merge_take {coins packed : List α} {count : Nat} (hcoins : Sorted weight coins)
    (le : count ≤ coins.length + packed.length) :
    ∃ taken packs, taken + packs = count ∧ taken ≤ coins.length ∧ packs ≤ packed.length ∧
      ((merge weight coins packed).take count).Perm (coins.take taken ++ packed.take packs) ∧
      ∀ a ∈ coins.drop taken, ∀ b ∈ packed.take packs, weight b < weight a := by
  induction count generalizing coins packed with
  | zero => exact ⟨0, 0, rfl, Nat.zero_le _, Nat.zero_le _, .refl _, by simp⟩
  | succ count ih =>
    cases coins with
    | nil =>
      refine ⟨0, count + 1, Nat.zero_add _, Nat.zero_le _, by simpa using le, ?_, by simp⟩
      rw [merge, List.nil_merge]
      exact .refl _
    | cons x xs =>
      cases packed with
      | nil =>
        refine ⟨count + 1, 0, rfl, by simpa using le, Nat.zero_le _, ?_, by simp⟩
        rw [merge, List.merge_right, List.take_zero, List.append_nil]
      | cons y ys =>
        obtain ⟨hx, hxs⟩ := List.pairwise_cons.mp hcoins
        rw [List.length_cons, List.length_cons] at le
        rw [merge, List.cons_merge_cons]
        by_cases hle : weight x ≤ weight y
        · obtain ⟨taken, packs, hsum, htaken, hpacks, hperm, hheavy⟩ :=
            @ih xs (y :: ys) hxs (by rw [List.length_cons]; omega)
          rw [if_pos (decide_eq_true hle)]
          exact ⟨taken + 1, packs, by omega, Nat.succ_le_succ htaken, hpacks, hperm.cons x, hheavy⟩
        · obtain ⟨taken, packs, hsum, htaken, hpacks, hperm, hheavy⟩ :=
            @ih (x :: xs) ys hcoins (by rw [List.length_cons]; omega)
          rw [if_neg (by simpa using hle)]
          refine ⟨taken, packs + 1, by omega, htaken, Nat.succ_le_succ hpacks,
            (hperm.cons y).trans List.perm_middle.symm, fun a ha b hb => ?_⟩
          rw [List.take_succ_cons] at hb
          rcases List.mem_cons.mp hb with rfl | hb
          · have hxa : weight x ≤ weight a := by
              rcases List.mem_cons.mp (List.mem_of_mem_drop ha) with rfl | hmem
              · exact Nat.le_refl _
              · exact hx a hmem
            omega
          · exact hheavy a ha b hb

theorem merge_length (coins packed : List α) :
    (merge weight coins packed).length = coins.length + packed.length := List.length_merge ..

theorem worth_sum {β ι : Type} (s : Finset ι) (f : ι → β → Nat) (items : List β) :
    worth (items.map fun b => ∑ i ∈ s, f i b) = ∑ i ∈ s, worth (items.map (f i)) := by
  induction items with
  | nil => simp [worth]
  | cons b items ih =>
    simp only [List.map_cons, worth, List.length_map, ih, Finset.sum_mul, Finset.sum_add_distrib]

/-- One coin of each of the highest denominations, and none below: what is missing is the value of
the lowest that was taken. -/
theorem worth_bits {bits : List Nat} (le_one : ∀ bit ∈ bits, bit ≤ 1)
    (descending : bits.Pairwise (· ≥ ·)) :
    worth bits + 2 ^ (bits.length - bits.sum) = 2 ^ bits.length ∧ bits.sum ≤ bits.length := by
  induction bits with
  | nil => simp [worth]
  | cons bit bits ih =>
    obtain ⟨hfirst, hrest⟩ := List.pairwise_cons.mp descending
    obtain ⟨hworth, hsum⟩ := ih (fun b hb => le_one b (List.mem_cons_of_mem _ hb)) hrest
    have hbit := le_one bit List.mem_cons_self
    rw [worth, List.sum_cons, List.length_cons]
    rcases Nat.le_one_iff_eq_zero_or_eq_one.mp hbit with rfl | rfl
    · have hzero : bits.sum = 0 :=
        List.sum_eq_zero fun b hb => Nat.le_zero.mp (hfirst b hb)
      rw [hzero, Nat.sub_zero] at hworth
      rw [hzero, show worth bits = 0 by omega]
      simp
    · rw [show bits.length + 1 - (1 + bits.sum) = bits.length - bits.sum by omega, Nat.pow_succ]
      omega

theorem level_sorted (additive : Additive pack weight) {coins : List α}
    (sorted : Sorted weight coins) (below : Nat) : Sorted weight (level weight pack coins below) := by
  induction below with
  | zero => exact sorted
  | succ below ih => exact merge_sorted sorted (pairs_sorted additive ih)

/-- The coins are in a level at most once for each denomination up to it. -/
theorem level_sum_le {f : α → Nat} (additive : Additive pack f) (coins : List α) (below : Nat) :
    ((level weight pack coins below).map f).sum ≤ (below + 1) * (coins.map f).sum := by
  induction below with
  | zero => rw [level, Nat.zero_add, Nat.one_mul]
  | succ below ih =>
    have hperm := (@List.merge_perm_append _ (fun a b => decide (weight a ≤ weight b)) coins
      (pairs pack (level weight pack coins below))).map f
    have hpairs := pairs_sum_le additive (level weight pack coins below)
    rw [level, merge, hperm.sum_nat, List.map_append, List.sum_append, Nat.succ_mul]
    omega

/-- The first entries of a level pay their number with the lightest coins of each denomination, at
most as many of a lower one as of a higher one. -/
theorem level_picks (additive : Additive pack weight) {coins : List α}
    (sorted : Sorted weight coins) (below : Nat) {n : Nat}
    (le : n ≤ (level weight pack coins below).length) :
    ∃ first rest, rest.length = below ∧ (first :: rest).Pairwise (· ≥ ·) ∧
      first ≤ coins.length ∧ worth (first :: rest) = n * 2 ^ below ∧
      (∀ a ∈ coins.take first, a ∈ (level weight pack coins below).take n) ∧
      ∀ f, Additive pack f → (((level weight pack coins below).take n).map f).sum =
        ((first :: rest).map fun count => ((coins.take count).map f).sum).sum := by
  induction below generalizing n with
  | zero => exact ⟨n, [], rfl, by simp, le, by simp [worth], fun a h => h, by simp [level]⟩
  | succ below ih =>
    rw [level] at le ⊢
    rw [merge_length] at le
    obtain ⟨taken, packs, rfl, htaken, hpacks, hperm, hheavy⟩ := merge_take sorted le
    rw [pairs_length] at hpacks
    obtain ⟨first, rest, hlength, hdesc, hfirst, hworth, hmem, hsum⟩ := @ih (2 * packs) (by omega)
    have heven : ((level weight pack coins below).take (2 * packs)).length % 2 = 0 := by
      rw [List.length_take]
      omega
    have hle : first ≤ taken := by
      by_contra hlt
      -- The coin after those taken is in a pack that was lighter than it.
      have hbound : taken < coins.length := by omega
      have hcoin : coins[taken] ∈ coins.take first :=
        List.mem_take_iff_getElem.mpr ⟨taken, by omega, rfl⟩
      obtain ⟨b, hb, hweight⟩ := pairs_cover additive heven _ (hmem _ hcoin)
      rw [← pairs_take] at hb
      have hdrop : coins[taken] ∈ coins.drop taken := by
        rw [List.drop_eq_getElem_cons hbound]
        exact List.mem_cons_self
      have := hheavy _ hdrop b hb
      omega
    refine ⟨taken, first :: rest, by rw [List.length_cons, hlength], ?_, htaken, ?_, ?_, ?_⟩
    · refine List.pairwise_cons.mpr ⟨fun count hcount => ?_, hdesc⟩
      rcases List.mem_cons.mp hcount with rfl | hcount
      · exact hle
      · exact Nat.le_trans ((List.pairwise_cons.mp hdesc).1 count hcount) hle
    · rw [worth, hworth, List.length_cons, hlength]
      ring
    · exact fun a ha => hperm.mem_iff.mpr (List.mem_append_left _ ha)
    · intro f hf
      rw [(hperm.map f).sum_nat, List.map_append, List.sum_append, pairs_take, pairs_sum hf heven,
        hsum f hf]
      rfl

/-- The first entries of a level are the lightest way to pay their number. -/
theorem level_light (additive : Additive pack weight) {coins : List α}
    (sorted : Sorted weight coins) (below : Nat) {n : Nat} {counts : List Nat}
    (hlength : counts.length = below + 1) (hcounts : ∀ count ∈ counts, count ≤ coins.length)
    (hworth : n * 2 ^ below ≤ worth counts) :
    n ≤ (level weight pack coins below).length ∧
      (((level weight pack coins below).take n).map weight).sum ≤
        (counts.map fun count => ((coins.take count).map weight).sum).sum := by
  induction below generalizing n counts with
  | zero =>
    obtain ⟨count, rfl⟩ := List.length_eq_one_iff.mp hlength
    have hcount := hcounts count (by simp)
    have hle : n ≤ count := by simpa [worth] using hworth
    refine ⟨Nat.le_trans hle hcount, ?_⟩
    simpa [level] using sum_take_mono weight coins hle
  | succ below ih =>
    obtain ⟨count, counts, rfl⟩ := List.exists_cons_of_length_eq_add_one hlength
    have hcount := hcounts count (by simp)
    rw [List.length_cons, Nat.add_right_cancel_iff] at hlength
    rw [worth, hlength] at hworth
    have hrest : 2 * (n - count) * 2 ^ below ≤ worth counts := by
      have : (n - count) * 2 ^ (below + 1) ≤ worth counts := by
        rw [Nat.sub_mul]
        omega
      calc 2 * (n - count) * 2 ^ below = (n - count) * 2 ^ (below + 1) := by ring
        _ ≤ worth counts := this
    obtain ⟨hle, hlight⟩ := ih hlength (fun c hc => hcounts c (List.mem_cons_of_mem _ hc)) hrest
    have heven : ((level weight pack coins below).take (2 * (n - count))).length % 2 = 0 := by
      rw [List.length_take]
      omega
    have hpacks : n - count ≤ (pairs pack (level weight pack coins below)).length := by
      rw [pairs_length]
      omega
    rw [level]
    refine ⟨by rw [merge_length]; omega, ?_⟩
    have hsub : (coins.take (min n count) ++
        (pairs pack (level weight pack coins below)).take (n - count)).Subperm
          (merge weight coins (pairs pack (level weight pack coins below))) :=
      ((List.take_sublist ..).append (List.take_sublist ..)).subperm.trans
        (List.merge_perm_append _).symm.subperm
    have hchosen := sum_take_le_of_subperm
      (merge_sorted sorted (pairs_sorted additive (level_sorted additive sorted below))) hsub
    have hnumber : (coins.take (min n count) ++
        (pairs pack (level weight pack coins below)).take (n - count)).length = n := by
      rw [List.length_append, List.length_take, List.length_take]
      omega
    rw [hnumber, List.map_append, List.sum_append, pairs_take, pairs_sum additive heven] at hchosen
    have hcoins : ((coins.take (min n count)).map weight).sum ≤
        ((coins.take count).map weight).sum := sum_take_mono weight coins (Nat.min_le_right n count)
    rw [List.map_cons, List.sum_cons]
    omega

end Fbz.CoinCollector
