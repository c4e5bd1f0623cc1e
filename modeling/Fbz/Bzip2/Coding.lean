import Mathlib.Data.List.Basic
import Fbz.Bzip2.BitWriter
import Fbz.Bzip2.Block

/-!
# Grouped Huffman coding

Two to six tables, and for each group of fifty symbols the table it is coded with. Code lengths come
from package-merge.
-/

namespace Fbz.Bzip2

/-- The longest code the encoder uses. -/
def encoderMaxCodeLen : Nat := 17

/-- `N_ITERS`, rounds of choosing tables and building them again. -/
def refinements : Nat := 4

structure Coding where
  nGroups : Nat
  selectors : List Nat
  lens : List (List Nat)
  codes : List (List Nat)

namespace Coding

def groupCount (nSyms : Nat) : Nat :=
  if nSyms ≤ 199 then 2 else if nSyms ≤ 599 then 3 else if nSyms ≤ 1199 then 4
  else if nSyms ≤ 2399 then 5 else 6

def symbolFrequencies (syms : List Nat) (alphaSize : Nat) : List Nat :=
  syms.foldl (fun freq symbol => freq.modify symbol (· + 1)) (List.replicate alphaSize 0)

/-- The symbols up to the target: where they stop, and their frequency. -/
def reach (freq : List Nat) (alphaSize target stop acc : Nat) : Nat × Nat :=
  if acc < target ∧ stop < alphaSize then
    reach freq alphaSize target (stop + 1) (acc + freq.getD stop 0)
  else (stop, acc)
termination_by alphaSize - stop

/-- The tables from `nPart` down, the first one last. `start` is the first symbol that is not in the
part of any table yet. -/
def initialFrom (freq : List Nat) (alphaSize nGroups : Nat) : Nat → Nat → Nat → List (List Nat)
  | 0, _, _ => []
  | nPart + 1, start, remaining =>
    let (stop, acc) := reach freq alphaSize (remaining / (nPart + 1)) start 0
    let (stop, acc) :=
      if start + 1 < stop ∧ nPart + 1 ≠ nGroups ∧ nPart ≠ 0 ∧ (nGroups - (nPart + 1)) % 2 = 1 then
        (stop - 1, acc - freq.getD (stop - 1) 0)
      else (stop, acc)
    let table := (List.range alphaSize).map fun v => if start ≤ v ∧ v < stop then 1 else 15
    initialFrom freq alphaSize nGroups nPart stop (remaining - acc) ++ [table]

def initialLengths (syms : List Nat) (alphaSize nGroups : Nat) : List (List Nat) :=
  initialFrom (symbolFrequencies syms alphaSize) alphaSize nGroups nGroups 0 syms.length

def cost (group lens : List Nat) : Nat := (group.map fun symbol => lens.getD symbol 0).sum

/-- The first of the tables with the lowest cost. -/
def cheapest (lens : List (List Nat)) (group : List Nat) : Nat :=
  (lens.zipIdx.foldl
    (fun best entry =>
      let cost := cost group entry.1
      if cost < best.2 then (entry.2, cost) else best)
    (0, 2 ^ 64 - 1)).1

def assignSelectors (syms : List Nat) (lens : List (List Nat)) : List Nat :=
  (syms.toChunks groupSize).map (cheapest lens)

/-- Coins of the symbols, and packages of two. -/
inductive Coin
  | single (symbol : Nat)
  | package (left right : Coin)

/-- The arrays of nodes as trees with their weights. -/
structure Weighted where
  weight : Nat
  coin : Coin

/-- Neighbours are packaged; one that is left over is dropped. -/
def packages : List Weighted → List Weighted
  | a :: b :: rest => ⟨a.weight + b.weight, .package a.coin b.coin⟩ :: packages rest
  | [_] | [] => []

/-- A coin goes before a package of the same weight. -/
def mergeCoins (leaves packaged : List Weighted) : List Weighted :=
  leaves.merge packaged fun a b => decide (a.weight ≤ b.weight)

/-- One more for each symbol in the coin. -/
def Coin.count : Coin → List Nat → List Nat
  | single symbol, lens => lens.modify symbol (· + 1)
  | package left right, lens => right.count (left.count lens)

def packageMerge (weights : List Nat) (limit : Nat) : List Nat :=
  let order := weights.zipIdx.mergeSort fun a b => decide (a.1 ≤ b.1)
  let leaves := order.map fun entry => (⟨entry.1, .single entry.2⟩ : Weighted)
  let level := Nat.repeat (fun level => mergeCoins leaves (packages level)) (limit - 1) leaves
  (level.take (2 * weights.length - 2)).foldl (fun lens node => node.coin.count lens)
    (List.replicate weights.length 0)

/-- Codes so far, and the next one. -/
def assignCode (length : Nat) (codes : List Nat × Nat) (entry : Nat × Nat) : List Nat × Nat :=
  if entry.1 = length then (codes.1.set entry.2 codes.2, codes.2 + 1) else codes

/-- Codes by length, those of one length in the order of the symbols. -/
def canonicalCodes (lens : List Nat) : List Nat :=
  let least := lens.min?.getD 0
  let most := lens.max?.getD 0
  ((List.range' least (most + 1 - least)).foldl
    (fun codes length =>
      let codes := lens.zipIdx.foldl (assignCode length) codes
      (codes.1, codes.2 <<< 1))
    (List.replicate lens.length 0, 0)).1

/-- How often each symbol is coded with each table. -/
def tableFrequencies (syms : List Nat) (alphaSize : Nat) (lens : List (List Nat)) :
    List (List Nat) :=
  ((syms.toChunks groupSize).zip (assignSelectors syms lens)).foldl
    (fun rfreq entry => rfreq.modify entry.2 fun freq =>
      entry.1.foldl (fun freq symbol => freq.modify symbol (· + 1)) freq)
    (List.replicate lens.length (List.replicate alphaSize 0))

/-- One round: each table is built for the symbols that chose it. -/
def refine (syms : List Nat) (alphaSize : Nat) (lens : List (List Nat)) : List (List Nat) :=
  (tableFrequencies syms alphaSize lens).map fun freq =>
    packageMerge (freq.map (max · 1)) encoderMaxCodeLen

def build (syms : List Nat) (alphaSize : Nat) : Coding :=
  let nGroups := groupCount syms.length
  let lens := Nat.repeat (refine syms alphaSize) refinements (initialLengths syms alphaSize nGroups)
  { nGroups, selectors := assignSelectors syms lens, lens, codes := lens.map canonicalCodes }

/-- The index of a selector in unary, and the list with that selector in front. -/
def writeSelector (state : BitWriter × List Nat) (selector : Nat) : BitWriter × List Nat :=
  let index := state.2.idxOf selector
  ((Nat.repeat (·.writeBit 1) index state.1).writeBit 0, (moveToFront state.2 index).2)

def writeSelectors (w : BitWriter) (selectors : List Nat) (nGroups : Nat) : BitWriter :=
  (selectors.foldl writeSelector (w, List.range nGroups)).1

/-- A code length as steps up or down from the one before. -/
def writeLength (state : BitWriter × Nat) (target : Nat) : BitWriter × Nat :=
  let w := Nat.repeat (·.writeBits 2 0b10) (target - state.2) state.1
  let w := Nat.repeat (·.writeBits 2 0b11) (state.2 - target) w
  (w.writeBit 0, target)

def writeTable (w : BitWriter) (table : List Nat) : BitWriter :=
  let first := table.headD 0
  (table.foldl writeLength (w.writeBits 5 first, first)).1

def writeTables (w : BitWriter) (lens : List (List Nat)) : BitWriter := lens.foldl writeTable w

end Coding

end Fbz.Bzip2
