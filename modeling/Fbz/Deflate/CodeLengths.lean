import Mathlib.Data.Nat.Fib.Basic
import Fbz.Deflate.Huffman

/-!
# Code lengths

`huffman_lengths` builds a Huffman tree and halves the frequencies until the tree is flat enough.
A tree of height `h` weighs at least the Fibonacci number of `h + 2`, so with few symbols of
frequency one the tree is flat and the loop ends.
-/

namespace Fbz.Deflate

/-- The nodes of a tree; `children` of the source as one value. -/
inductive CodeTree
  | leaf (symbol : Nat)
  | node (left right : CodeTree)

/-- What the heap holds: the smallest frequency is popped first, and of these the first node. -/
structure HeapEntry where
  frequency : Nat
  node : Nat
  tree : CodeTree

namespace HeapEntry

def le (a b : HeapEntry) : Bool :=
  decide (a.frequency < b.frequency) || (a.frequency == b.frequency && decide (a.node ≤ b.node))

/-- The heap as a list in the order in which its entries are popped. -/
def push (entry : HeapEntry) : List HeapEntry → List HeapEntry
  | [] => [entry]
  | head :: rest => if entry.le head then entry :: head :: rest else head :: push entry rest

end HeapEntry

def leafOf (entry : Nat × Nat) : Option HeapEntry :=
  if entry.1 ≠ 0 then some ⟨entry.1, entry.2, .leaf entry.2⟩ else none

/-- A leaf for each symbol that occurs. -/
def leaves (scaled : List Nat) : List HeapEntry := scaled.zipIdx.filterMap leafOf

@[simp] theorem push_length (entry : HeapEntry) (heap : List HeapEntry) :
    (entry.push heap).length = heap.length + 1 := by
  induction heap with
  | nil => rfl
  | cons head rest ih =>
    rw [HeapEntry.push]
    split
    · rfl
    · rw [List.length_cons, ih, List.length_cons]

/-- Two nodes are popped and their parent is pushed until one is left. There is none to pop when no
symbol occurs. -/
def mergeNodes (next : Nat) : List HeapEntry → Option HeapEntry
  | [] => none
  | [root] => some root
  | left :: right :: rest =>
    mergeNodes (next + 1) (HeapEntry.push
      ⟨left.frequency + right.frequency, next, .node left.tree right.tree⟩ rest)
termination_by heap => heap.length

/-- The walk over the tree: a symbol alone still gets one bit. -/
def CodeTree.assign : CodeTree → Nat → List Nat → List Nat
  | leaf symbol, depth, lengths => lengths.set symbol (max depth 1)
  | node left right, depth, lengths =>
    left.assign (depth + 1) (right.assign (depth + 1) lengths)

/-- One turn of the loop: the lengths the tree gives. -/
def treeLengths (scaled : List Nat) : Option (List Nat) :=
  let heap := (leaves scaled).foldl (fun heap entry => entry.push heap) []
  (mergeNodes scaled.length heap).map fun root =>
    root.tree.assign 0 (List.replicate scaled.length 0)

/-- `frequency.div_ceil(2)`. -/
def halve (scaled : List Nat) : List Nat := scaled.map fun frequency => (frequency + 1) / 2

theorem halve_sum_le (scaled : List Nat) : (halve scaled).sum ≤ scaled.sum := by
  induction scaled with
  | nil => exact Nat.le_refl _
  | cons frequency scaled ih =>
    simp only [halve, List.map_cons, List.sum_cons] at ih ⊢
    omega

theorem halve_sum_lt {scaled : List Nat} (moved : halve scaled ≠ scaled) :
    (halve scaled).sum < scaled.sum := by
  induction scaled with
  | nil => exact absurd rfl moved
  | cons frequency scaled ih =>
    have hle := halve_sum_le scaled
    by_cases htail : halve scaled = scaled
    · have hhead : (frequency + 1) / 2 ≠ frequency := fun heq => moved (by
        simp only [halve, List.map_cons] at htail ⊢
        rw [heq, htail])
      simp only [halve, List.map_cons, List.sum_cons] at hle ⊢
      omega
    · have := ih htail
      simp only [halve, List.map_cons, List.sum_cons] at this ⊢
      omega

theorem sum_le_of_halve_eq {scaled : List Nat} (fixed : halve scaled = scaled) :
    scaled.sum ≤ scaled.length := by
  induction scaled with
  | nil => exact Nat.le_refl _
  | cons frequency scaled ih =>
    obtain ⟨hhead, htail⟩ := List.cons.inj fixed
    have := ih htail
    dsimp only at hhead
    rw [List.sum_cons, List.length_cons]
    omega

/-- `none` where the source panics, or goes on for good because halving changes nothing. -/
def huffmanLengths (scaled : List Nat) (maxBits : Nat) : Option (List Nat) :=
  match treeLengths scaled with
  | none => none
  | some lengths =>
    if lengths.foldl max 0 ≤ maxBits then some lengths
    else if _h : halve scaled = scaled then none
    else huffmanLengths (halve scaled) maxBits
termination_by scaled.sum
decreasing_by exact halve_sum_lt _h

example : huffmanLengths [5, 0, 1, 1, 3] 7 = some [1, 0, 3, 3, 2] := by decide +kernel

example : huffmanLengths [8, 5, 3, 2, 1, 1] 4 = some [2, 2, 3, 3, 3, 3] := by decide +kernel

namespace CodeTree

def height : CodeTree → Nat
  | leaf _ => 0
  | node left right => max left.height right.height + 1

theorem assign_le {tree : CodeTree} {depth bound : Nat} {lengths : List Nat}
    (before : ∀ length ∈ lengths, length ≤ bound) (pos : 1 ≤ bound)
    (fits : depth + tree.height ≤ bound) : ∀ length ∈ tree.assign depth lengths, length ≤ bound := by
  induction tree generalizing depth lengths with
  | leaf symbol =>
    intro length hmem
    rcases List.mem_or_eq_of_mem_set hmem with hold | rfl
    · exact before length hold
    · simp only [height] at fits
      omega
  | node left right ihl ihr =>
    simp only [height] at fits
    exact ihl (ihr before (by omega)) (by omega)

end CodeTree

theorem push_perm (entry : HeapEntry) (heap : List HeapEntry) :
    (entry.push heap).Perm (entry :: heap) := by
  induction heap with
  | nil => exact .refl _
  | cons head rest ih =>
    rw [HeapEntry.push]
    split
    · exact .refl _
    · exact (ih.cons head).trans (.swap _ _ _)

/-- Popped in the order of frequencies. -/
def Ascending (heap : List HeapEntry) : Prop :=
  heap.Pairwise fun a b => a.frequency ≤ b.frequency

theorem push_ascending {entry : HeapEntry} {heap : List HeapEntry} (h : Ascending heap) :
    Ascending (entry.push heap) := by
  induction heap with
  | nil => exact List.pairwise_singleton _ _
  | cons head rest ih =>
    obtain ⟨hhead, hrest⟩ := List.pairwise_cons.mp h
    rw [HeapEntry.push]
    split
    · next hle =>
      have hfirst : entry.frequency ≤ head.frequency := by
        simp only [HeapEntry.le, Bool.or_eq_true, Bool.and_eq_true, decide_eq_true_eq,
          beq_iff_eq] at hle
        omega
      refine List.pairwise_cons.mpr ⟨fun other hmem => ?_, h⟩
      rcases List.mem_cons.mp hmem with rfl | hmem
      · exact hfirst
      · exact Nat.le_trans hfirst (hhead other hmem)
    · next hgt =>
      have hfirst : head.frequency ≤ entry.frequency := by
        simp only [HeapEntry.le, Bool.or_eq_true, Bool.and_eq_true, decide_eq_true_eq,
          beq_iff_eq] at hgt
        omega
      refine List.pairwise_cons.mpr ⟨fun other hmem => ?_, ih hrest⟩
      rcases List.mem_cons.mp ((push_perm entry rest).subset hmem) with rfl | hmem
      · exact hfirst
      · exact hhead other hmem

/-- Trees weigh as much as their height asks for, and what remains is no lighter than the taller
subtree of any. -/
structure Weighty (heap : List HeapEntry) : Prop where
  ascending : Ascending heap
  own : ∀ entry ∈ heap, Nat.fib (entry.tree.height + 2) ≤ entry.frequency
  others : ∀ entry ∈ heap, ∀ other ∈ heap, Nat.fib (entry.tree.height + 1) ≤ other.frequency

private theorem Weighty.merge {left right : HeapEntry} {rest : List HeapEntry} (next : Nat)
    (h : Weighty (left :: right :: rest)) :
    Weighty (HeapEntry.push
      ⟨left.frequency + right.frequency, next, .node left.tree right.tree⟩ rest) := by
  obtain ⟨hleft, htail⟩ := List.pairwise_cons.mp h.ascending
  obtain ⟨hright, hrest⟩ := List.pairwise_cons.mp htail
  have hmem : ∀ entry ∈ rest, entry ∈ left :: right :: rest := fun entry he => by simp [he]
  have hl := h.own left (by simp)
  have hr := h.own right (by simp)
  have hlr := h.others left (by simp) right (by simp)
  have hrl := h.others right (by simp) left (by simp)
  have hparent : Nat.fib (max left.tree.height right.tree.height + 1 + 2) ≤
      left.frequency + right.frequency := by
    rw [Nat.fib_add_two, show max left.tree.height right.tree.height + 1 + 1 =
      max left.tree.height right.tree.height + 2 from rfl]
    rcases Nat.le_total left.tree.height right.tree.height with hle | hle
    · rw [Nat.max_eq_right hle]
      omega
    · rw [Nat.max_eq_left hle]
      omega
  refine ⟨push_ascending hrest, fun entry he => ?_, fun entry he other ho => ?_⟩
  · rcases List.mem_cons.mp ((push_perm _ _).subset he) with rfl | he
    · exact hparent
    · exact h.own entry (hmem entry he)
  · have hbound : ∀ other ∈ rest, left.frequency ≤ other.frequency ∧
        right.frequency ≤ other.frequency :=
      fun other ho => ⟨hleft other (List.mem_cons_of_mem _ ho), hright other ho⟩
    rcases List.mem_cons.mp ((push_perm _ _).subset he) with rfl | he
    · have htaller : Nat.fib (max left.tree.height right.tree.height + 2) ≤
          max left.frequency right.frequency := by
        rcases Nat.le_total left.tree.height right.tree.height with hle | hle
        · rw [Nat.max_eq_right hle]
          omega
        · rw [Nat.max_eq_left hle]
          omega
      refine Nat.le_trans htaller ?_
      rcases List.mem_cons.mp ((push_perm _ _).subset ho) with rfl | ho
      · dsimp only
        omega
      · have := hbound other ho
        omega
    · rcases List.mem_cons.mp ((push_perm _ _).subset ho) with rfl | ho
      · have := h.others entry (hmem entry he) left (by simp)
        dsimp only
        omega
      · exact h.others entry (hmem entry he) other (hmem other ho)

theorem mergeNodes_weighty {next : Nat} {heap : List HeapEntry} (h : Weighty heap)
    (ne : heap ≠ []) :
    ∃ root, mergeNodes next heap = some root ∧
      Nat.fib (root.tree.height + 2) ≤ (heap.map HeapEntry.frequency).sum := by
  induction next, heap using mergeNodes.induct with
  | case1 => exact absurd rfl ne
  | case2 next root =>
    refine ⟨root, by rw [mergeNodes], ?_⟩
    simpa using h.own root (by simp)
  | case3 next left right rest ih =>
    obtain ⟨root, hroot, hweight⟩ := ih (h.merge next) (fun hnil => by
      have := congrArg List.length hnil
      simp at this)
    refine ⟨root, by rw [mergeNodes, hroot], Nat.le_trans hweight (Nat.le_of_eq ?_)⟩
    rw [((push_perm _ _).map HeapEntry.frequency).sum_nat]
    simp only [List.map_cons, List.sum_cons]
    omega

/-- The heap of the leaves. -/
theorem leaves_weighty {entries : List HeapEntry}
    (h : ∀ entry ∈ entries, entry.tree.height = 0 ∧ 0 < entry.frequency) :
    Weighty (entries.foldl (fun heap entry => entry.push heap) []) ∧
      (entries.foldl (fun heap entry => entry.push heap) []).Perm entries := by
  have hfold : ∀ (entries heap : List HeapEntry), Ascending heap →
      Ascending (entries.foldl (fun heap entry => entry.push heap) heap) ∧
        (entries.foldl (fun heap entry => entry.push heap) heap).Perm (entries ++ heap) := by
    intro entries
    induction entries with
    | nil => exact fun heap hheap => ⟨hheap, .refl _⟩
    | cons entry entries ih =>
      intro heap hheap
      obtain ⟨hascending, hperm⟩ := ih (entry.push heap) (push_ascending hheap)
      exact ⟨hascending, hperm.trans (((push_perm entry heap).append_left entries).trans
        List.perm_middle)⟩
  obtain ⟨hascending, hperm⟩ := hfold entries [] List.Pairwise.nil
  rw [List.append_nil] at hperm
  have hleaf : ∀ entry ∈ entries.foldl (fun heap entry => entry.push heap) [],
      entry.tree.height = 0 ∧ 0 < entry.frequency := fun entry he => h entry (hperm.subset he)
  refine ⟨⟨hascending, fun entry he => ?_, fun entry he other ho => ?_⟩, hperm⟩
  · rw [(hleaf entry he).1]
    exact (hleaf entry he).2
  · rw [(hleaf entry he).1]
    exact (hleaf other ho).2

theorem leaves_leaf {scaled : List Nat} :
    ∀ entry ∈ leaves scaled, entry.tree.height = 0 ∧ 0 < entry.frequency := by
  intro entry he
  obtain ⟨⟨frequency, symbol⟩, -, heq⟩ := List.mem_filterMap.mp he
  unfold leafOf at heq
  split at heq
  · next hne =>
    obtain rfl := Option.some.inj heq
    exact ⟨rfl, Nat.pos_of_ne_zero hne⟩
  · cases heq

theorem leaves_ne_nil {scaled : List Nat} (used : ∃ frequency ∈ scaled, frequency ≠ 0) :
    leaves scaled ≠ [] := by
  obtain ⟨frequency, hmem, hne⟩ := used
  obtain ⟨symbol, hlt, rfl⟩ := List.mem_iff_getElem.mp hmem
  have hentry : (⟨scaled[symbol], symbol, .leaf symbol⟩ : HeapEntry) ∈ leaves scaled :=
    List.mem_filterMap.mpr ⟨(scaled[symbol], symbol),
      List.mem_zipIdx_iff_getElem?.mpr (by simp [List.getElem?_eq_getElem hlt]), if_pos hne⟩
  exact List.ne_nil_of_mem hentry

theorem leaves_sum (scaled : List Nat) :
    ((leaves scaled).map HeapEntry.frequency).sum = scaled.sum := by
  have hsum : ∀ (scaled : List Nat) (start : Nat),
      (((scaled.zipIdx start).filterMap leafOf).map HeapEntry.frequency).sum = scaled.sum := by
    intro scaled
    induction scaled with
    | nil => exact fun _ => rfl
    | cons frequency scaled ih =>
      intro start
      have htail := ih (start + 1)
      rw [List.zipIdx_cons, List.filterMap_cons, leafOf]
      by_cases hzero : frequency = 0
      · rw [if_neg (by simpa using hzero), htail, hzero, List.sum_cons, Nat.zero_add]
      · rw [if_pos hzero]
        simp only [List.map_cons, List.sum_cons, htail]
  exact hsum scaled 0

/-- A symbol that occurs makes a tree, and the tree is no higher than its weight allows. -/
theorem treeLengths_bound {scaled : List Nat} {maxBits : Nat}
    (used : ∃ frequency ∈ scaled, frequency ≠ 0) :
    ∃ lengths, treeLengths scaled = some lengths ∧
      (1 ≤ maxBits → scaled.sum < Nat.fib (maxBits + 3) →
        ∀ length ∈ lengths, length ≤ maxBits) := by
  obtain ⟨hweighty, hperm⟩ := leaves_weighty (@leaves_leaf scaled)
  obtain ⟨root, hroot, hweight⟩ := @mergeNodes_weighty scaled.length _ hweighty
    fun hnil => leaves_ne_nil used (List.nil_perm.mp (hnil ▸ hperm))
  refine ⟨root.tree.assign 0 (List.replicate scaled.length 0), by rw [treeLengths, hroot]; rfl,
    fun hpos hsmall => ?_⟩
  rw [(hperm.map HeapEntry.frequency).sum_nat, leaves_sum] at hweight
  have hheight : root.tree.height ≤ maxBits := by
    by_contra hhigh
    have := Nat.fib_mono (show maxBits + 3 ≤ root.tree.height + 2 by omega)
    omega
  refine CodeTree.assign_le (fun length hmem => ?_) hpos (by omega)
  rw [List.eq_of_mem_replicate hmem]
  exact Nat.zero_le _

/-- The loop ends: with frequencies of one at most, the tree is flat. -/
theorem huffmanLengths_isSome {scaled : List Nat} {maxBits : Nat} (pos : 1 ≤ maxBits)
    (few : scaled.length < Nat.fib (maxBits + 3)) (used : ∃ frequency ∈ scaled, frequency ≠ 0) :
    (huffmanLengths scaled maxBits).isSome := by
  induction hn : scaled.sum using Nat.strongRecOn generalizing scaled with
  | ind n ih =>
    obtain ⟨lengths, htree, hflat⟩ := @treeLengths_bound scaled maxBits used
    rw [huffmanLengths, htree]
    dsimp only
    split
    · rfl
    · next hhigh =>
      split
      · next hfixed =>
        have hsum := sum_le_of_halve_eq hfixed
        exact absurd (foldl_max_le (hflat pos (by omega))) hhigh
      · next hmoved =>
        obtain ⟨frequency, hmem, hne⟩ := used
        refine ih _ (hn ▸ halve_sum_lt hmoved) (by simpa [halve] using few)
          ⟨(frequency + 1) / 2, List.mem_map_of_mem hmem, by omega⟩ rfl

/-- The symbol the walk sets last. -/
def CodeTree.first : CodeTree → Nat
  | leaf symbol => symbol
  | node left _ => left.first

@[simp] theorem CodeTree.assign_length (tree : CodeTree) (depth : Nat) (lengths : List Nat) :
    (tree.assign depth lengths).length = lengths.length := by
  induction tree generalizing depth lengths with
  | leaf symbol => exact List.length_set ..
  | node left right ihl ihr => rw [assign, ihl, ihr]

private theorem CodeTree.assign_used {tree : CodeTree} {depth : Nat} {lengths : List Nat}
    (lt : tree.first < lengths.length) : ∃ length ∈ tree.assign depth lengths, length ≠ 0 := by
  induction tree generalizing depth lengths with
  | leaf symbol => exact ⟨max depth 1, List.mem_set lt _, by omega⟩
  | node left right ihl _ => exact ihl (by simpa [first] using lt)

private theorem mergeNodes_first {next count : Nat} {heap : List HeapEntry} {root : HeapEntry}
    (symbols : ∀ entry ∈ heap, entry.tree.first < count)
    (h : mergeNodes next heap = some root) : root.tree.first < count := by
  induction next, heap using mergeNodes.induct with
  | case1 =>
    rw [mergeNodes] at h
    cases h
  | case2 next entry =>
    rw [mergeNodes] at h
    exact Option.some.inj h ▸ symbols entry (by simp)
  | case3 next left right rest ih =>
    rw [mergeNodes] at h
    refine ih (fun entry he => ?_) h
    rcases List.mem_cons.mp ((push_perm _ _).subset he) with rfl | he
    · exact symbols left (by simp)
    · exact symbols entry (by simp [he])

private theorem treeLengths_used {scaled lengths : List Nat}
    (h : treeLengths scaled = some lengths) :
    lengths.length = scaled.length ∧ ∃ length ∈ lengths, length ≠ 0 := by
  obtain ⟨root, hroot, rfl⟩ := Option.map_eq_some_iff.mp h
  refine ⟨by simp, CodeTree.assign_used ?_⟩
  rw [List.length_replicate]
  refine mergeNodes_first (fun entry he => ?_) hroot
  obtain ⟨-, hperm⟩ := leaves_weighty (@leaves_leaf scaled)
  obtain ⟨⟨frequency, symbol⟩, hmem, heq⟩ := List.mem_filterMap.mp (hperm.subset he)
  unfold leafOf at heq
  split at heq
  · obtain rfl := Option.some.inj heq
    have := List.snd_lt_of_mem_zipIdx hmem
    simpa [CodeTree.first] using this
  · cases heq

theorem huffmanLengths_used {scaled lengths : List Nat} {maxBits : Nat}
    (h : huffmanLengths scaled maxBits = some lengths) :
    lengths.length = scaled.length ∧ ∃ length ∈ lengths, length ≠ 0 := by
  induction scaled using huffmanLengths.induct maxBits with
  | case1 scaled htree =>
    rw [huffmanLengths, htree] at h
    cases h
  | case2 scaled found htree hflat =>
    rw [huffmanLengths, htree] at h
    dsimp only at h
    rw [if_pos hflat] at h
    exact Option.some.inj h ▸ treeLengths_used htree
  | case3 scaled found htree hhigh hfixed =>
    rw [huffmanLengths, htree] at h
    dsimp only at h
    rw [if_neg hhigh, dif_pos hfixed] at h
    cases h
  | case4 scaled found htree hhigh hmoved ih =>
    rw [huffmanLengths, htree] at h
    dsimp only at h
    rw [if_neg hhigh, dif_neg hmoved] at h
    obtain ⟨hlength, hused⟩ := ih h
    exact ⟨hlength.trans (List.length_map ..), hused⟩

end Fbz.Deflate
