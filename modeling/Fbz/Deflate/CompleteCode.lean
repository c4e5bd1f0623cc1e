import Mathlib.Algebra.Order.BigOperators.Group.List
import Fbz.Deflate.CodeLengths
import Fbz.Lib.CanonicalCode

/-!
# The code lengths are those of a complete code

Every symbol that occurs has a code, no other has one, and the codes leave no word unused. With all
frequencies equal the tree is as flat as it can be, so the loop ends for as many symbols as there
are words.
-/

namespace Fbz.Deflate

open CanonicalCode

/-- Trees of two sizes, and at most one tree that is in between. -/
structure Even (size : Nat) (heap : List HeapEntry) : Prop where
  ascending : Ascending heap
  range : ∀ entry ∈ heap, 2 ^ size ≤ entry.frequency ∧ entry.frequency ≤ 2 ^ (size + 1)
  height : ∀ entry ∈ heap, entry.tree.height ≤ size + 1
  small : ∀ entry ∈ heap, entry.frequency = 2 ^ size → entry.tree.height ≤ size
  between : (heap.countP fun entry =>
    decide (entry.frequency ≠ 2 ^ size ∧ entry.frequency ≠ 2 ^ (size + 1))) ≤ 1

private theorem Even.merge {size : Nat} {left right : HeapEntry} {rest : List HeapEntry}
    (next : Nat) (h : Even size (left :: right :: rest)) :
    ∃ size, Even size (HeapEntry.push
      ⟨left.frequency + right.frequency, next, .node left.tree right.tree⟩ rest) := by
  obtain ⟨hleft, htail⟩ := List.pairwise_cons.mp h.ascending
  obtain ⟨hright, hrest⟩ := List.pairwise_cons.mp htail
  have hmem : ∀ entry ∈ rest, entry ∈ left :: right :: rest := fun entry he => by simp [he]
  have hle := hleft right List.mem_cons_self
  have hl := h.range left (by simp)
  have hr := h.range right (by simp)
  have hpow : 2 ^ (size + 1) = 2 * 2 ^ size := Nat.pow_succ'
  have hpos := Nat.two_pow_pos size
  have hhl := h.height left (by simp)
  have hhr := h.height right (by simp)
  have hbetween := h.between
  rw [List.countP_cons, List.countP_cons] at hbetween
  obtain ⟨parent, hparent⟩ : ∃ parent : HeapEntry, parent =
      ⟨left.frequency + right.frequency, next, .node left.tree right.tree⟩ := ⟨_, rfl⟩
  have hperm := push_perm parent rest
  have hpush : ∀ entry ∈ parent.push rest, entry = parent ∨ entry ∈ rest := fun entry he =>
    List.mem_cons.mp (hperm.subset he)
  have hfrequency : parent.frequency = left.frequency + right.frequency := by rw [hparent]
  have hheight : parent.tree.height = max left.tree.height right.tree.height + 1 := by
    rw [hparent]
    rfl
  rw [← hparent]
  by_cases hsmall : right.frequency = 2 ^ size
  · -- two small trees make a large one
    have hsl := h.small left (by simp) (by omega)
    have hsr := h.small right (by simp) hsmall
    refine ⟨size, push_ascending hrest, fun entry he => ?_, fun entry he => ?_,
      fun entry he heq => ?_, ?_⟩
    · rcases hpush entry he with rfl | he
      · omega
      · exact h.range entry (hmem entry he)
    · rcases hpush entry he with rfl | he
      · omega
      · exact h.height entry (hmem entry he)
    · rcases hpush entry he with rfl | he
      · omega
      · exact h.small entry (hmem entry he) heq
    · have hparent_large : ¬ decide (parent.frequency ≠ 2 ^ size ∧
          parent.frequency ≠ 2 ^ (size + 1)) = true := by
        rw [decide_eq_true_eq]
        omega
      rw [hperm.countP_eq, List.countP_cons, if_neg hparent_large]
      omega
  · -- the trees that are left are large, and the new one is larger
    have hlarge : ∀ entry ∈ rest, entry.frequency = 2 ^ (size + 1) := by
      intro entry he
      have hge := hright entry he
      have hrange := h.range entry (hmem entry he)
      by_contra hne
      have hcount : 0 < rest.countP fun entry =>
          decide (entry.frequency ≠ 2 ^ size ∧ entry.frequency ≠ 2 ^ (size + 1)) :=
        List.countP_pos_iff.mpr ⟨entry, he, decide_eq_true ⟨by omega, hne⟩⟩
      have hodd : decide (right.frequency ≠ 2 ^ size ∧ right.frequency ≠ 2 ^ (size + 1)) = true :=
        decide_eq_true ⟨hsmall, by omega⟩
      rw [if_pos hodd] at hbetween
      omega
    have hpow' : 2 ^ (size + 1 + 1) = 2 * 2 ^ (size + 1) := Nat.pow_succ'
    refine ⟨size + 1, push_ascending hrest, fun entry he => ?_, fun entry he => ?_,
      fun entry he heq => ?_, ?_⟩
    · rcases hpush entry he with rfl | he
      · omega
      · have := hlarge entry he
        omega
    · rcases hpush entry he with rfl | he
      · omega
      · have := h.height entry (hmem entry he)
        omega
    · rcases hpush entry he with rfl | he
      · omega
      · exact h.height entry (hmem entry he)
    · have hnone : rest.countP (fun entry =>
          decide (entry.frequency ≠ 2 ^ (size + 1) ∧ entry.frequency ≠ 2 ^ (size + 1 + 1))) = 0 := by
        rw [List.countP_eq_zero]
        intro entry he
        rw [decide_eq_true_eq]
        exact fun hne => hne.1 (hlarge entry he)
      rw [hperm.countP_eq, List.countP_cons, hnone]
      split <;> omega

private theorem mergeNodes_even {size next bits : Nat} {heap : List HeapEntry} (h : Even size heap)
    (ne : heap ≠ []) (light : (heap.map HeapEntry.frequency).sum ≤ 2 ^ bits) :
    ∃ root, mergeNodes next heap = some root ∧ root.tree.height ≤ bits := by
  induction next, heap using mergeNodes.induct generalizing size with
  | case1 => exact absurd rfl ne
  | case2 next root =>
    refine ⟨root, by rw [mergeNodes], ?_⟩
    have hrange := h.range root (by simp)
    have hheight := h.height root (by simp)
    rw [List.map_singleton, List.sum_singleton] at light
    by_cases hsmall : root.frequency = 2 ^ size
    · have := h.small root (by simp) hsmall
      have := (Nat.pow_le_pow_iff_right (by decide)).mp (hsmall ▸ light)
      omega
    · have hlt : 2 ^ size < 2 ^ bits := by omega
      have := (Nat.pow_lt_pow_iff_right (by decide)).mp hlt
      omega
  | case3 next left right rest ih =>
    obtain ⟨size', heven⟩ := h.merge next
    obtain ⟨root, hroot, hheight⟩ := ih heven
      (fun hnil => by
        have := congrArg List.length hnil
        simp at this)
      (by
        rw [((push_perm _ _).map HeapEntry.frequency).sum_nat]
        simp only [List.map_cons, List.sum_cons] at light ⊢
        omega)
    exact ⟨root, by rw [mergeNodes, hroot], hheight⟩

namespace CodeTree

def symbols : CodeTree → List Nat
  | leaf symbol => [symbol]
  | node left right => left.symbols ++ right.symbols

private theorem assign_getD_of_not_mem {tree : CodeTree} {depth symbol : Nat} {lengths : List Nat}
    (h : symbol ∉ tree.symbols) :
    (tree.assign depth lengths).getD symbol 0 = lengths.getD symbol 0 := by
  induction tree generalizing depth lengths with
  | leaf other =>
    rw [assign, List.getD_eq_getElem?_getD, List.getElem?_set_ne, List.getD_eq_getElem?_getD]
    rintro rfl
    exact h (List.mem_singleton_self _)
  | node left right ihl ihr =>
    rw [symbols, List.mem_append, not_or] at h
    rw [assign, ihl h.1, ihr h.2]

private theorem assign_getD_of_mem {tree : CodeTree} {depth symbol : Nat} {lengths : List Nat}
    (h : symbol ∈ tree.symbols) (lt : symbol < lengths.length) :
    (tree.assign depth lengths).getD symbol 0 ≠ 0 := by
  induction tree generalizing depth lengths with
  | leaf other =>
    obtain rfl := List.mem_singleton.mp h
    rw [assign, List.getD_eq_getElem?_getD, List.getElem?_set_self lt, Option.getD_some]
    omega
  | node left right ihl ihr =>
    rw [assign]
    by_cases hleft : symbol ∈ left.symbols
    · exact ihl hleft (by rwa [assign_length])
    · rw [assign_getD_of_not_mem hleft]
      exact ihr ((List.mem_append.mp h).resolve_left hleft) lt

private theorem kraftSum_set {lengths : List Nat} {symbol length : Nat} (pos : 0 < length)
    (lt : symbol < lengths.length) (none : lengths.getD symbol 0 = 0) :
    kraftSum (lengths.set symbol length) = kraftSum lengths + (1 / 2) ^ length := by
  induction lengths generalizing symbol with
  | nil => cases lt
  | cons head lengths ih =>
    cases symbol with
    | zero =>
      have hhead : head = 0 := none
      simp only [List.set_cons_zero, kraftSum, List.map_cons, List.sum_cons, hhead, if_true,
        if_neg (Nat.ne_of_gt pos)]
      ring
    | succ symbol =>
      have htail := ih (Nat.lt_of_succ_lt_succ lt) none
      simp only [List.set_cons_succ, kraftSum, List.map_cons, List.sum_cons] at htail ⊢
      rw [htail]
      ring

private theorem kraftSum_assign {tree : CodeTree} {depth : Nat} {lengths : List Nat}
    (pos : 0 < depth ∨ 2 ≤ tree.symbols.length) (nodup : tree.symbols.Nodup)
    (inside : ∀ symbol ∈ tree.symbols, symbol < lengths.length)
    (none : ∀ symbol ∈ tree.symbols, lengths.getD symbol 0 = 0) :
    kraftSum (tree.assign depth lengths) = kraftSum lengths + (1 / 2) ^ depth := by
  induction tree generalizing depth lengths with
  | leaf symbol =>
    have hdepth : 0 < depth := pos.resolve_right (by simp [symbols])
    rw [assign, Nat.max_eq_left hdepth]
    exact kraftSum_set hdepth (inside symbol (List.mem_singleton_self _))
      (none symbol (List.mem_singleton_self _))
  | node left right ihl ihr =>
    obtain ⟨hleft, hright, hdisjoint⟩ := List.nodup_append.mp nodup
    have hr := @ihr (depth + 1) lengths (.inl (Nat.succ_pos _)) hright
      (fun symbol hmem => inside symbol (List.mem_append_right _ hmem))
      fun symbol hmem => none symbol (List.mem_append_right _ hmem)
    have hl := @ihl (depth + 1) (right.assign (depth + 1) lengths) (.inl (Nat.succ_pos _)) hleft
      (fun symbol hmem => by
        rw [assign_length]
        exact inside symbol (List.mem_append_left _ hmem))
      fun symbol hmem => by
        rw [assign_getD_of_not_mem fun hother => hdisjoint symbol hmem symbol hother rfl]
        exact none symbol (List.mem_append_left _ hmem)
    rw [assign, hl, hr, pow_succ]
    ring

end CodeTree

private theorem mergeNodes_symbols {next : Nat} {heap : List HeapEntry} {root : HeapEntry}
    (h : mergeNodes next heap = some root) :
    root.tree.symbols.Perm (heap.flatMap fun entry => entry.tree.symbols) := by
  induction next, heap using mergeNodes.induct with
  | case1 =>
    rw [mergeNodes] at h
    cases h
  | case2 next entry =>
    rw [mergeNodes] at h
    obtain rfl := Option.some.inj h
    simp
  | case3 next left right rest ih =>
    rw [mergeNodes] at h
    refine (ih h).trans (((push_perm _ _).flatMap_right _).trans ?_)
    simp [CodeTree.symbols]

/-- The leaves from `start` on stand for the symbols that occur. -/
theorem mem_leavesFrom {start symbol : Nat} {scaled : List Nat} :
    symbol ∈ ((scaled.zipIdx start).filterMap leafOf).flatMap (fun entry => entry.tree.symbols) ↔
      start ≤ symbol ∧ scaled.getD (symbol - start) 0 ≠ 0 := by
  induction scaled generalizing start with
  | nil => simp
  | cons frequency scaled ih =>
    have hsucc : ∀ {symbol}, start + 1 ≤ symbol →
        (frequency :: scaled).getD (symbol - start) 0 = scaled.getD (symbol - (start + 1)) 0 := by
      intro symbol hle
      rw [show symbol - start = symbol - (start + 1) + 1 by omega, List.getD_cons_succ]
    have hhead : (frequency :: scaled).getD (start - start) 0 = frequency := by
      rw [Nat.sub_self, List.getD_cons_zero]
    rw [List.zipIdx_cons, List.filterMap_cons, leafOf]
    by_cases hzero : frequency = 0
    · rw [if_neg (by simpa using hzero), ih]
      constructor
      · rintro ⟨hle, hne⟩
        exact ⟨by omega, by rwa [hsucc hle]⟩
      · rintro ⟨hle, hne⟩
        rcases Nat.eq_or_lt_of_le hle with rfl | hlt
        · exact absurd (hhead.trans hzero) hne
        · exact ⟨hlt, by rwa [← hsucc hlt]⟩
    · rw [if_pos hzero]
      dsimp only
      rw [List.flatMap_cons, CodeTree.symbols, List.mem_append, List.mem_singleton, ih]
      constructor
      · rintro (rfl | ⟨hle, hne⟩)
        · exact ⟨Nat.le_refl _, by rwa [hhead]⟩
        · exact ⟨by omega, by rwa [hsucc hle]⟩
      · rintro ⟨hle, hne⟩
        rcases Nat.eq_or_lt_of_le hle with rfl | hlt
        · exact .inl rfl
        · exact .inr ⟨hlt, by rwa [← hsucc hlt]⟩

private theorem nodup_leavesFrom (start : Nat) (scaled : List Nat) :
    (((scaled.zipIdx start).filterMap leafOf).flatMap fun entry => entry.tree.symbols).Nodup := by
  induction scaled generalizing start with
  | nil => exact List.nodup_nil
  | cons frequency scaled ih =>
    rw [List.zipIdx_cons, List.filterMap_cons, leafOf]
    by_cases hzero : frequency = 0
    · rw [if_neg (by simpa using hzero)]
      exact ih (start + 1)
    · rw [if_pos hzero]
      dsimp only
      rw [List.flatMap_cons]
      refine List.nodup_cons.mpr ⟨fun hmem => ?_, ih (start + 1)⟩
      have := (mem_leavesFrom.mp hmem).1
      omega

private theorem length_leavesFrom (start : Nat) (scaled : List Nat) :
    (((scaled.zipIdx start).filterMap leafOf).flatMap fun entry => entry.tree.symbols).length =
      scaled.countP (· ≠ 0) := by
  induction scaled generalizing start with
  | nil => rfl
  | cons frequency scaled ih =>
    rw [List.zipIdx_cons, List.filterMap_cons, leafOf, List.countP_cons]
    by_cases hzero : frequency = 0
    · rw [if_neg (by simpa using hzero), if_neg (by simpa using hzero)]
      exact ih (start + 1)
    · rw [if_pos hzero, if_pos (by simpa using hzero)]
      dsimp only
      rw [List.flatMap_cons, List.length_append, ih, Nat.add_comm]
      rfl

/-- The tree of one round. -/
def treeOf (scaled : List Nat) : Option HeapEntry :=
  mergeNodes scaled.length ((leaves scaled).foldl (fun heap entry => entry.push heap) [])

private theorem treeLengths_eq (scaled : List Nat) :
    treeLengths scaled =
      (treeOf scaled).map fun root => root.tree.assign 0 (List.replicate scaled.length 0) := rfl

private theorem treeOf_symbols {scaled : List Nat} {root : HeapEntry}
    (h : treeOf scaled = some root) :
    root.tree.symbols.Nodup ∧ root.tree.symbols.length = scaled.countP (· ≠ 0) ∧
      ∀ symbol, symbol ∈ root.tree.symbols ↔ scaled.getD symbol 0 ≠ 0 := by
  obtain ⟨-, hheap⟩ := leaves_weighty (@leaves_leaf scaled)
  have hperm := (mergeNodes_symbols h).trans (hheap.flatMap_right _)
  refine ⟨hperm.nodup_iff.mpr (nodup_leavesFrom 0 scaled),
    hperm.length_eq.trans (length_leavesFrom 0 scaled), fun symbol => ?_⟩
  rw [hperm.mem_iff]
  exact mem_leavesFrom.trans (by simp)

/-- The lengths of a tree are those of a complete code for the symbols that occur. -/
theorem treeLengths_complete {scaled lengths : List Nat} (two : 2 ≤ scaled.countP (· ≠ 0))
    (h : treeLengths scaled = some lengths) :
    lengths.length = scaled.length ∧
      (∀ symbol, lengths.getD symbol 0 = 0 ↔ scaled.getD symbol 0 = 0) ∧ kraftSum lengths = 1 := by
  rw [treeLengths_eq] at h
  obtain ⟨root, hroot, rfl⟩ := Option.map_eq_some_iff.mp h
  obtain ⟨hnodup, hlength, hmem⟩ := treeOf_symbols hroot
  have hzero : ∀ symbol, (List.replicate scaled.length 0).getD symbol 0 = 0 := by
    intro symbol
    rw [List.getD_eq_getElem?_getD, List.getElem?_replicate]
    split <;> rfl
  have hinside : ∀ symbol ∈ root.tree.symbols, symbol < (List.replicate scaled.length 0).length := by
    intro symbol hsymbol
    rw [List.length_replicate]
    by_contra hge
    refine (hmem symbol).mp hsymbol ?_
    rw [List.getD_eq_getElem?_getD, List.getElem?_eq_none (by omega), Option.getD_none]
  refine ⟨by rw [CodeTree.assign_length, List.length_replicate], fun symbol => ?_, ?_⟩
  · by_cases hsymbol : symbol ∈ root.tree.symbols
    · exact iff_of_false (CodeTree.assign_getD_of_mem hsymbol (hinside symbol hsymbol))
        ((hmem symbol).mp hsymbol)
    · rw [CodeTree.assign_getD_of_not_mem hsymbol, hzero]
      exact iff_of_true rfl (not_not.mp fun hne => hsymbol ((hmem symbol).mpr hne))
  · rw [CodeTree.kraftSum_assign (.inr (by omega)) hnodup hinside fun symbol _ => hzero symbol]
    simp [kraftSum]

/-- The frequencies of each round. -/
inductive Round (frequencies : List Nat) (maxBits : Nat) : List Nat → Prop
  | first : Round frequencies maxBits frequencies
  | again {scaled lengths : List Nat} (round : Round frequencies maxBits scaled)
      (tree : treeLengths scaled = some lengths) (high : ¬ lengths.foldl max 0 ≤ maxBits) :
      Round frequencies maxBits (halve scaled)

private theorem halve_getD (scaled : List Nat) (symbol : Nat) :
    (halve scaled).getD symbol 0 = 0 ↔ scaled.getD symbol 0 = 0 := by
  rw [halve, List.getD_eq_getElem?_getD, List.getD_eq_getElem?_getD, List.getElem?_map]
  cases scaled[symbol]? with
  | none => simp
  | some frequency =>
    rw [Option.map_some, Option.getD_some, Option.getD_some]
    omega

private theorem halve_countP (scaled : List Nat) :
    (halve scaled).countP (· ≠ 0) = scaled.countP (· ≠ 0) := by
  rw [halve, List.countP_map]
  refine List.countP_congr fun frequency _ => ?_
  simp only [Function.comp_apply, ne_eq, decide_eq_true_eq]
  omega

theorem Round.spec {frequencies scaled : List Nat} {maxBits : Nat}
    (h : Round frequencies maxBits scaled) :
    scaled.length = frequencies.length ∧ scaled.sum ≤ frequencies.sum ∧
      scaled.countP (· ≠ 0) = frequencies.countP (· ≠ 0) ∧
      ∀ symbol, scaled.getD symbol 0 = 0 ↔ frequencies.getD symbol 0 = 0 := by
  induction h with
  | first => exact ⟨rfl, Nat.le_refl _, rfl, fun _ => Iff.rfl⟩
  | again round tree high ih =>
    obtain ⟨hlength, hsum, hcount, hzero⟩ := ih
    exact ⟨(List.length_map _).trans hlength, Nat.le_trans (halve_sum_le _) hsum,
      (halve_countP _).trans hcount, fun symbol => (halve_getD _ symbol).trans (hzero symbol)⟩

private theorem treeOf_height {scaled : List Nat} {root : HeapEntry} {height : Nat}
    (h : treeOf scaled = some root) (light : scaled.sum < Nat.fib (height + 3)) :
    root.tree.height ≤ height := by
  obtain ⟨hweighty, hperm⟩ := leaves_weighty (@leaves_leaf scaled)
  have hne : (leaves scaled).foldl (fun heap entry => entry.push heap) [] ≠ [] := by
    intro hnil
    rw [treeOf, hnil, mergeNodes] at h
    cases h
  obtain ⟨root', hroot, hweight⟩ := @mergeNodes_weighty scaled.length _ hweighty hne
  obtain rfl := Option.some.inj (hroot.symm.trans h)
  rw [(hperm.map HeapEntry.frequency).sum_nat, leaves_sum] at hweight
  by_contra hhigh
  have := Nat.fib_mono (show height + 3 ≤ root'.tree.height + 2 by omega)
  omega

private theorem le_one_of_halve_eq {scaled : List Nat} (fixed : halve scaled = scaled) :
    ∀ frequency ∈ scaled, frequency ≤ 1 := by
  induction scaled with
  | nil => simp
  | cons head scaled ih =>
    obtain ⟨hhead, htail⟩ := List.cons.inj fixed
    intro frequency hmem
    rcases List.mem_cons.mp hmem with rfl | hmem
    · dsimp only at hhead
      omega
    · exact ih htail frequency hmem

private theorem leaves_even {scaled : List Nat} (fixed : halve scaled = scaled) :
    Even 0 ((leaves scaled).foldl (fun heap entry => entry.push heap) []) := by
  obtain ⟨hweighty, hperm⟩ := leaves_weighty (@leaves_leaf scaled)
  have hone : ∀ entry ∈ (leaves scaled).foldl (fun heap entry => entry.push heap) [],
      entry.frequency = 1 ∧ entry.tree.height = 0 := by
    intro entry he
    have he := hperm.subset he
    obtain ⟨hheight, hpos⟩ := leaves_leaf entry he
    obtain ⟨⟨frequency, symbol⟩, hmem, heq⟩ := List.mem_filterMap.mp he
    unfold leafOf at heq
    split at heq
    · obtain rfl := Option.some.inj heq
      have hle := le_one_of_halve_eq fixed frequency (List.fst_mem_of_mem_zipIdx hmem)
      exact ⟨by dsimp only at hpos ⊢; omega, hheight⟩
    · cases heq
  refine ⟨hweighty.ascending, fun entry he => ?_, fun entry he => ?_, fun entry he _ => ?_, ?_⟩
  · rw [(hone entry he).1]
    decide
  · rw [(hone entry he).2]
    exact Nat.zero_le _
  · rw [(hone entry he).2]
  · refine Nat.le_trans (Nat.le_of_eq (List.countP_eq_zero.mpr fun entry he => ?_)) (Nat.zero_le 1)
    rw [decide_eq_true_eq]
    exact fun hne => hne.1 (hone entry he).1

private theorem treeLengths_flat {scaled : List Nat} {maxBits : Nat} (fixed : halve scaled = scaled)
    (pos : 1 ≤ maxBits) (used : ∃ frequency ∈ scaled, frequency ≠ 0)
    (few : scaled.length ≤ 2 ^ maxBits) :
    ∃ lengths, treeLengths scaled = some lengths ∧ ∀ length ∈ lengths, length ≤ maxBits := by
  obtain ⟨-, hperm⟩ := leaves_weighty (@leaves_leaf scaled)
  obtain ⟨root, hroot, hheight⟩ := @mergeNodes_even 0 scaled.length maxBits _ (leaves_even fixed)
    (fun hnil => leaves_ne_nil used (List.nil_perm.mp (hnil ▸ hperm)))
    (by
      rw [(hperm.map HeapEntry.frequency).sum_nat, leaves_sum]
      exact Nat.le_trans (sum_le_of_halve_eq fixed) few)
  refine ⟨root.tree.assign 0 (List.replicate scaled.length 0),
    by rw [treeLengths, hroot]; rfl, CodeTree.assign_le (fun length hmem => ?_) pos (by omega)⟩
  rw [List.eq_of_mem_replicate hmem]
  exact Nat.zero_le _

/-- The loop ends in some round, with lengths that are short enough. -/
theorem huffmanLengths_round {frequencies scaled : List Nat} {maxBits : Nat} (pos : 1 ≤ maxBits)
    (used : ∃ frequency ∈ scaled, frequency ≠ 0) (few : scaled.length ≤ 2 ^ maxBits)
    (round : Round frequencies maxBits scaled) :
    ∃ last lengths, Round frequencies maxBits last ∧ treeLengths last = some lengths ∧
      huffmanLengths scaled maxBits = some lengths ∧ lengths.foldl max 0 ≤ maxBits := by
  induction hn : scaled.sum using Nat.strongRecOn generalizing scaled with
  | ind n ih =>
    obtain ⟨lengths, htree, -⟩ := @treeLengths_bound scaled maxBits used
    by_cases hflat : lengths.foldl max 0 ≤ maxBits
    · exact ⟨scaled, lengths, round, htree, by rw [huffmanLengths, htree]; exact if_pos hflat, hflat⟩
    · have hmoved : halve scaled ≠ scaled := by
        intro hfixed
        obtain ⟨lengths', htree', hle⟩ := treeLengths_flat hfixed pos used few
        obtain rfl := Option.some.inj (htree.symm.trans htree')
        exact hflat (foldl_max_le hle)
      obtain ⟨frequency, hmem, hne⟩ := used
      obtain ⟨last, lengths', hlast, htree', hlengths, hle⟩ :=
        @ih _ (hn ▸ halve_sum_lt hmoved) (halve scaled)
          ⟨(frequency + 1) / 2, List.mem_map_of_mem hmem, by omega⟩ (by simpa [halve] using few)
          (round.again htree hflat) rfl
      refine ⟨last, lengths', hlast, htree', ?_, hle⟩
      rw [huffmanLengths, htree]
      dsimp only
      rw [if_neg hflat, dif_neg hmoved, hlengths]

/-- The depths of a tree are bytes, and the loop ends with a complete code of the symbols that occur,
for as many symbols as there are words and any frequencies of 32 bits. -/
theorem huffmanLengths_complete {frequencies : List Nat} {maxBits : Nat}
    (bits : maxBits = 7 ∨ maxBits = 15) (few : frequencies.length ≤ min (2 ^ maxBits) 512)
    (u32 : ∀ frequency ∈ frequencies, frequency < 2 ^ 32)
    (two : 2 ≤ frequencies.countP (· ≠ 0)) :
    (∀ scaled root, Round frequencies maxBits scaled → treeOf scaled = some root →
        root.tree.height < 2 ^ 8) ∧
      ∃ lengths, huffmanLengths frequencies maxBits = some lengths ∧
        lengths.length = frequencies.length ∧
        (∀ symbol, lengths.getD symbol 0 = 0 ↔ frequencies.getD symbol 0 = 0) ∧
        (∀ length ∈ lengths, length ≤ maxBits) ∧ kraftSum lengths = 1 := by
  constructor
  · intro scaled root hround hroot
    obtain ⟨-, hsum, -, -⟩ := hround.spec
    have hlight : frequencies.sum ≤ frequencies.length * 2 ^ 32 :=
      List.sum_le_card_nsmul _ _ fun frequency hmem => Nat.le_of_lt (u32 frequency hmem)
    have hfib : 512 * 2 ^ 32 < Nat.fib (100 + 3) := by decide +kernel
    have := @treeOf_height scaled root 100 hroot (by omega)
    omega
  · have hused : ∃ frequency ∈ frequencies, frequency ≠ 0 := by
      obtain ⟨frequency, hmem, hne⟩ := List.countP_pos_iff.mp (Nat.lt_of_lt_of_le Nat.two_pos two)
      exact ⟨frequency, hmem, of_decide_eq_true hne⟩
    obtain ⟨last, lengths, hlast, htree, hlengths, hle⟩ :=
      @huffmanLengths_round frequencies frequencies maxBits (by omega) hused (by omega) .first
    obtain ⟨hlength, -, hcount, hzero⟩ := hlast.spec
    obtain ⟨hsize, hused, hkraft⟩ := treeLengths_complete (hcount ▸ two) htree
    exact ⟨lengths, hlengths, hsize.trans hlength, fun symbol => (hused symbol).trans (hzero symbol),
      fun length hmem => Nat.le_trans (le_foldl_max 0 hmem) hle, hkraft⟩

theorem huffmanLengths_complete_three : ∃ lengths, huffmanLengths [5, 0, 1, 2] 7 = some lengths ∧
    lengths.length = 4 ∧
    (∀ symbol, lengths.getD symbol 0 = 0 ↔ [5, 0, 1, 2].getD symbol 0 = 0) ∧
    (∀ length ∈ lengths, length ≤ 7) ∧ kraftSum lengths = 1 :=
  (huffmanLengths_complete (.inl rfl) (by decide) (by decide) (by decide)).2

end Fbz.Deflate
