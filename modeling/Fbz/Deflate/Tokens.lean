import Fbz.Deflate.Block
import Fbz.MatchFinder

/-!
# DEFLATE tokens

The search for matches, lazily from level four on, and the symbols that stand for its results.
-/

namespace Fbz.Deflate

namespace Encode

def windowSize : Nat := 32 * 1024
def maxMatch : Nat := 258

end Encode

/-- `Token`; the second kind is a match. -/
inductive Token
  | literal (byte : UInt8)
  | copy (length distance : Nat)
  deriving DecidableEq, Repr

/-- Levels run from one to nine. -/
def chainDepth (level : Nat) : Nat := [0, 4, 8, 16, 32, 48, 64, 96, 192, 384].getD level 0

/-- The positions from `start` on, one after the other. -/
def insertRange (finder : HashChain) (bytes : List UInt8) (start stop : Nat) : HashChain :=
  (List.range' start (stop - start)).foldl (fun finder position => finder.insert bytes position)
    finder

/-- The next position promises a match that is longer by two at least. -/
def deferMatch (finder : HashChain) (bytes : List UInt8) (position length level maxChain : Nat) :
    Bool :=
  decide (level ≥ 4) && decide (position + 1 < bytes.length) &&
    decide ((finder.bestMatch bytes (position + 1) Encode.maxMatch 3 (maxChain / 2)).1 > length + 1)

/-- The loop of `tokenize`. -/
def tokenizeFrom (bytes : List UInt8) (level maxChain : Nat) (finder : HashChain)
    (position : Nat) : List Token :=
  if h : position < bytes.length then
    let best := finder.bestMatch bytes position Encode.maxMatch 3 maxChain
    if _h : best.1 = 0 then
      .literal bytes[position] ::
        tokenizeFrom bytes level maxChain (finder.insert bytes position) (position + 1)
    else
      let finder := finder.insert bytes position
      if deferMatch finder bytes position best.1 level maxChain then
        .literal bytes[position] :: tokenizeFrom bytes level maxChain finder (position + 1)
      else
        .copy (best.1 % 2 ^ 16) (best.2 % 2 ^ 16) ::
          tokenizeFrom bytes level maxChain
            (insertRange finder bytes (position + 1) (position + best.1)) (position + best.1)
  else []
termination_by bytes.length - position
decreasing_by
  · omega
  · omega
  · dsimp only [best] at _h
    omega

/-- `tokenize` once the finder is there. -/
def tokenize (bytes : List UInt8) (prefixLen level : Nat) : List Token :=
  let maxChain := chainDepth level
  let finder := HashChain.new Encode.windowSize maxChain
  tokenizeFrom bytes level maxChain
    (insertRange finder bytes (prefixLen - Encode.windowSize) prefixLen) prefixLen

/-- `tokenize`, with `none` where `HashChain::new` panics. No segment is that long. -/
def tokenize? (bytes : List UInt8) (prefixLen level : Nat) : Option (List Token) :=
  if HashChain.Fits bytes.length then some (tokenize bytes prefixLen level) else none

/-- Symbol, extra value and number of extra bits, from this index down. -/
def symbolFrom (value : Nat) (bases extras : List Nat) : Nat → Nat × Nat × Nat
  | 0 => (0, value - bases.getD 0 0, extras.getD 0 0)
  | index + 1 =>
    if value ≥ bases.getD (index + 1) 0 then
      (index + 1, value - bases.getD (index + 1) 0, extras.getD (index + 1) 0)
    else symbolFrom value bases extras index

/-- The loop of `symbol_for`; no value lies below the first base. -/
def symbolFor (value : Nat) (bases extras : List Nat) : Nat × Nat × Nat :=
  symbolFrom value bases extras (bases.length - 1)

def lengthSymbol (length : Nat) : Nat × Nat × Nat := symbolFor length lengthBase lengthExtra

def distanceSymbol (distance : Nat) : Nat × Nat × Nat :=
  symbolFor distance distanceBase distanceExtra

/-- One more of this symbol. -/
def countSymbol (frequencies : List Nat) (symbol : Nat) : List Nat :=
  frequencies.modify symbol (· + 1)

/-- At least two symbols get a code. -/
def ensureTwo (frequencies : List Nat) : List Nat :=
  let active := (List.range frequencies.length).filter fun symbol =>
    frequencies.getD symbol 0 ≠ 0
  match active with
  | [] => (frequencies.set 0 1).set 1 1
  | [symbol] => frequencies.set (if symbol = 0 then 1 else 0) 1
  | _ => frequencies

def countToken (counts : List Nat × List Nat) : Token → List Nat × List Nat
  | .literal byte => (countSymbol counts.1 byte.toNat, counts.2)
  | .copy length distance =>
    (countSymbol counts.1 (257 + (lengthSymbol length).1),
      countSymbol counts.2 (distanceSymbol distance).1)

def frequencies (tokens : List Token) : List Nat × List Nat :=
  let counts := tokens.foldl countToken (List.replicate 286 0, List.replicate 30 0)
  (ensureTwo (countSymbol counts.1 256), ensureTwo counts.2)

example : tokenize [1, 2, 3, 1, 2, 3, 1] 0 1 =
    [.literal 1, .literal 2, .literal 3, .copy 4 3] := by
  decide +kernel

example : distanceSymbol 6 = (4, 1, 1) := by decide

@[simp] theorem countSymbol_length (frequencies : List Nat) (symbol : Nat) :
    (countSymbol frequencies symbol).length = frequencies.length := List.length_modify ..

theorem countToken_length (counts : List Nat × List Nat) (token : Token) :
    (countToken counts token).1.length = counts.1.length ∧
      (countToken counts token).2.length = counts.2.length := by
  cases token <;> simp [countToken]

theorem ensureTwo_length (frequencies : List Nat) :
    (ensureTwo frequencies).length = frequencies.length := by
  unfold ensureTwo
  dsimp only
  split <;> simp

private theorem used_of_active {frequencies : List Nat} {symbol : Nat}
    (mem : symbol ∈ (List.range frequencies.length).filter fun symbol =>
      frequencies.getD symbol 0 ≠ 0) : ∃ frequency ∈ frequencies, frequency ≠ 0 := by
  obtain ⟨hlt, hne⟩ := List.mem_filter.mp mem
  have hlt := List.mem_range.mp hlt
  refine ⟨frequencies[symbol], List.getElem_mem hlt, ?_⟩
  simpa [List.getElem?_eq_getElem hlt] using hne

/-- Some symbol has a frequency. -/
theorem ensureTwo_used {frequencies : List Nat} (ne : frequencies ≠ []) :
    ∃ frequency ∈ ensureTwo frequencies, frequency ≠ 0 := by
  have hpos := List.length_pos_iff.mpr ne
  unfold ensureTwo
  dsimp only
  split
  · by_cases hone : 1 < frequencies.length
    · exact ⟨1, List.mem_set (by simpa using hone) 1, by decide⟩
    · rw [List.set_eq_of_length_le (by simp; omega)]
      exact ⟨1, List.mem_set hpos 1, by decide⟩
  · next symbol hactive =>
    by_cases hlt : (if symbol = 0 then 1 else 0) < frequencies.length
    · exact ⟨1, List.mem_set hlt 1, by decide⟩
    · rw [List.set_eq_of_length_le (by omega)]
      exact used_of_active (hactive ▸ List.mem_singleton_self symbol)
  · next hnil _ =>
    obtain ⟨symbol, hmem⟩ := List.exists_mem_of_ne_nil _ hnil
    exact used_of_active hmem

theorem frequencies_length (tokens : List Token) :
    (frequencies tokens).1.length = 286 ∧ (frequencies tokens).2.length = 30 := by
  have hcounts : ∀ (tokens : List Token) (counts : List Nat × List Nat),
      (tokens.foldl countToken counts).1.length = counts.1.length ∧
        (tokens.foldl countToken counts).2.length = counts.2.length := by
    intro tokens
    induction tokens with
    | nil => exact fun _ => ⟨rfl, rfl⟩
    | cons token tokens ih =>
      intro counts
      obtain ⟨hliterals, hdistances⟩ := ih (countToken counts token)
      obtain ⟨hliterals', hdistances'⟩ := countToken_length counts token
      exact ⟨hliterals.trans hliterals', hdistances.trans hdistances'⟩
  obtain ⟨hliterals, hdistances⟩ :=
    hcounts tokens (List.replicate 286 0, List.replicate 30 0)
  simp only [frequencies, ensureTwo_length, countSymbol_length, hliterals, hdistances,
    List.length_replicate, and_self]

end Fbz.Deflate
