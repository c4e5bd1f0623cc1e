import Fbz.Deflate.Tokens

/-!
# Tokens expand to their buffer

Literals and copies, put out one after the other behind the dictionary, give back the buffer they
were made from, and every copy keeps the bounds of the format.
-/

namespace Fbz.Deflate

open Lz

/-- Put out one token, a copy byte by byte. -/
def Token.expand (output : List UInt8) : Token → List UInt8
  | .literal byte => output ++ [byte]
  | .copy length distance => copyBack distance length output

def expand (output : List UInt8) (tokens : List Token) : List UInt8 :=
  tokens.foldl Token.expand output

/-- What the format allows behind `available` bytes. -/
def Token.Legal (available : Nat) : Token → Prop
  | .literal _ => True
  | .copy length distance =>
    3 ≤ length ∧ length ≤ 258 ∧ 1 ≤ distance ∧ distance ≤ 32768 ∧ distance ≤ available

/-- Legal tokens that put out the buffer from `position` on. -/
structure Spells (bytes : List UInt8) (position : Nat) (tokens : List Token) : Prop where
  expand : expand (bytes.take position) tokens = bytes
  legal : ∀ front token back, tokens = front ++ token :: back →
    token.Legal (Deflate.expand (bytes.take position) front).length

variable {bytes : List UInt8} {position : Nat} {tokens : List Token}

private theorem Spells.nil (done : bytes.length ≤ position) : Spells bytes position [] where
  expand := List.take_of_length_le done
  legal := by
    intro front token back h
    simp at h

private theorem Spells.cons {token : Token} {next : Nat}
    (legal : token.Legal (bytes.take position).length)
    (step : token.expand (bytes.take position) = bytes.take next)
    (rest : Spells bytes next tokens) : Spells bytes position (token :: tokens) where
  expand := by
    rw [Deflate.expand, List.foldl_cons, step]
    exact rest.expand
  legal := by
    intro front other back h
    cases front with
    | nil =>
      obtain ⟨rfl, -⟩ := List.cons.inj h
      exact legal
    | cons first front =>
      obtain ⟨rfl, htail⟩ := List.cons.inj h
      have hlegal := rest.legal front other back htail
      rw [← step] at hlegal
      exact hlegal

private theorem Spells.literal (lt : position < bytes.length)
    (rest : Spells bytes (position + 1) tokens) :
    Spells bytes position (.literal bytes[position] :: tokens) := by
  apply Spells.cons _ _ rest
  · exact trivial
  · rw [Token.expand, List.take_succ_eq_append_getElem lt]

private theorem Spells.copy {finder : HashChain} {length distance : Nat}
    (found : finder.Found bytes position length distance)
    (window : finder.window = Encode.windowSize) (least : 3 ≤ length)
    (most : length ≤ Encode.maxMatch) (rest : Spells bytes (position + length) tokens) :
    Spells bytes position (.copy (length % 2 ^ 16) (distance % 2 ^ 16) :: tokens) := by
  have hnear : distance ≤ 32 * 1024 := by
    have := found.near
    rwa [window] at this
  have hmost : length ≤ 258 := most
  have hfits := found.fits
  have hinside := found.inside
  have hpos := found.pos
  rw [Nat.mod_eq_of_lt (by omega), Nat.mod_eq_of_lt (by omega)]
  apply Spells.cons _ _ rest
  · rw [List.length_take]
    refine ⟨least, hmost, hpos, hnear, ?_⟩
    omega
  · apply copyBack_take hpos hinside hfits
    intro i hi
    rw [← found.same i hi]
    congr 1
    omega

theorem insertRange_window (finder : HashChain) (bytes : List UInt8) (start stop : Nat) :
    (insertRange finder bytes start stop).window = finder.window := by
  unfold insertRange
  induction List.range' start (stop - start) generalizing finder with
  | nil => rfl
  | cons inserted rest ih => rw [List.foldl_cons, ih, HashChain.insert_window]

theorem insertRange_before {finder : HashChain} {start stop : Nat} (h : finder.Before stop) :
    (insertRange finder bytes start stop).Before stop := by
  have hrange : ∀ i ∈ List.range' start (stop - start), i < stop := by
    intro i hi
    simp only [List.mem_range'_1] at hi
    omega
  unfold insertRange
  generalize List.range' start (stop - start) = positions at hrange ⊢
  induction positions generalizing finder with
  | nil => exact h
  | cons inserted rest ih =>
    apply ih (h.insert (hrange inserted List.mem_cons_self))
    intro i hi
    exact hrange i (List.mem_cons_of_mem _ hi)

/-- From any position on, whatever the finder holds of what lies before. -/
theorem tokenizeFrom_spells {level maxChain : Nat} {finder : HashChain}
    (h : finder.Before position) (window : finder.window = Encode.windowSize) :
    Spells bytes position (tokenizeFrom bytes level maxChain finder position) := by
  induction finder, position using tokenizeFrom.induct bytes level maxChain with
  | case1 finder position lt best none ih =>
    rw [tokenizeFrom, dif_pos lt]
    dsimp only
    rw [dif_pos none]
    apply Spells.literal lt
    apply ih ((h.mono (Nat.le_succ _)).insert (Nat.lt_succ_self _))
    rw [HashChain.insert_window, window]
  | case2 finder position lt best some inserted defer ih =>
    rw [tokenizeFrom, dif_pos lt]
    dsimp only
    rw [dif_neg some, if_pos defer]
    apply Spells.literal lt
    apply ih ((h.mono (Nat.le_succ _)).insert (Nat.lt_succ_self _))
    rw [HashChain.insert_window, window]
  | case3 finder position lt best some inserted take ih =>
    rw [tokenizeFrom, dif_pos lt]
    dsimp only
    rw [dif_neg some, if_neg take]
    obtain hnone | ⟨hleast, hmost, -, hfound⟩ :=
      @HashChain.bestMatch_spec finder bytes position Encode.maxMatch 3 maxChain h
    · exact absurd (congrArg Prod.fst hnone) some
    have hahead : position < position + best.1 := Nat.lt_add_of_pos_right (by omega)
    apply Spells.copy hfound window hleast hmost
    apply ih (insertRange_before ((h.mono (Nat.le_of_lt hahead)).insert hahead))
    rw [insertRange_window, HashChain.insert_window, window]
  | case4 finder position done =>
    rw [tokenizeFrom, dif_neg done]
    exact Spells.nil (Nat.not_lt.mp done)

/-- Short of the length at which the finder refuses its input, the tokens are legal and put out
what stands behind the dictionary. -/
theorem tokenize_spells {prefixLen level : Nat} (short : bytes.length < 2 ^ 32 - 1) :
    ∃ tokens, tokenize? bytes prefixLen level = some tokens ∧ Spells bytes prefixLen tokens := by
  refine ⟨tokenize bytes prefixLen level, if_pos short, ?_⟩
  apply tokenizeFrom_spells (insertRange_before (HashChain.before_new _ _))
  rw [insertRange_window]
  rfl

theorem tokenize_spells_run : ∃ tokens, tokenize? [1, 2, 3, 1, 2, 3, 1] 0 1 = some tokens ∧
    Spells [1, 2, 3, 1, 2, 3, 1] 0 tokens := tokenize_spells (by decide)

/-- A longer buffer stops at the assertion. -/
theorem tokenize_refuses : ¬ ∀ (bytes : List UInt8) (prefixLen level : Nat),
    prefixLen ≤ bytes.length → prefixLen ≤ 32768 → 1 ≤ level → level ≤ 9 →
    ∃ tokens, tokenize? bytes prefixLen level = some tokens ∧ Spells bytes prefixLen tokens := by
  intro h
  obtain ⟨tokens, htokens, -⟩ := h (List.replicate (2 ^ 32 - 1) 0) 0 1 (Nat.zero_le _)
    (by decide) (by decide) (by decide)
  have hlong : ¬ HashChain.Fits (List.replicate (2 ^ 32 - 1) (0 : UInt8)).length := by
    rw [List.length_replicate]
    exact Nat.lt_irrefl _
  rw [tokenize?, if_neg hlong] at htokens
  cases htokens

end Fbz.Deflate
