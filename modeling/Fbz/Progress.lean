import Fbz.Lib.Ascending
import Fbz.Options

/-!
# Calls of the progress callback

What is asked of the values a decoder passes to its callback.
-/

namespace Fbz

open Ascending

instance : LE DecodeProgress where
  le a b := a.compressedBytes ≤ b.compressedBytes ∧ a.decodedBytes ≤ b.decodedBytes

instance : Preorder DecodeProgress where
  le_refl _ := ⟨Nat.le_refl _, Nat.le_refl _⟩
  le_trans _ _ _ hab hbc := ⟨Nat.le_trans hab.1 hbc.1, Nat.le_trans hab.2 hbc.2⟩

/-- The calls go up to this many bytes, compressed and decoded. -/
def Climbs (calls : List DecodeProgress) (compressed decoded : Nat) : Prop :=
  Ascends ⟨0, 0⟩ calls ⟨compressed, decoded⟩

/-- The calls never go down, and none is behind the end of the input. -/
structure Orderly (data : List UInt8) (calls : List DecodeProgress) : Prop where
  neverDecreases : calls.Pairwise (· ≤ ·)
  inside : ∀ call ∈ calls, call.compressedBytes ≤ data.length

/-- The compressed bytes of the calls never go down, and none is behind the end of the input. -/
structure Advancing (data : List UInt8) (calls : List DecodeProgress) : Prop where
  neverDecreases : (calls.map DecodeProgress.compressedBytes).Pairwise (· ≤ ·)
  inside : ∀ call ∈ calls, call.compressedBytes ≤ data.length

/-- Every count is one that a `u64` holds. -/
def Fitting (counts : List DecodeProgress) : Prop :=
  ∀ count ∈ counts, count.decodedBytes < 2 ^ 64

section Wrapped

variable {data : List UInt8} {counts : List DecodeProgress}

theorem Fitting.wrapped (h : Fitting counts) : counts.map DecodeProgress.wrapped = counts := by
  have hsame : ∀ count ∈ counts, count.wrapped = id count := by
    intro count hcount
    rw [DecodeProgress.wrapped, Nat.mod_eq_of_lt (h count hcount), id]
  rw [List.map_congr_left hsame, List.map_id]

theorem Orderly.advancing (h : Orderly data counts) :
    Advancing data (counts.map DecodeProgress.wrapped) where
  neverDecreases := by
    rw [List.map_map]
    exact h.neverDecreases.map _ fun _ _ hle => hle.1
  inside call mem := by
    obtain ⟨count, hcount, rfl⟩ := List.mem_map.mp mem
    exact h.inside count hcount

end Wrapped

section Climbs

variable {calls : List DecodeProgress} {compressed decoded compressed' decoded' : Nat}

theorem climbs_nil (compressed decoded : Nat) : Climbs [] compressed decoded :=
  ⟨Nat.zero_le _, Nat.zero_le _⟩

theorem Climbs.mono (h : Climbs calls compressed decoded) (hc : compressed ≤ compressed')
    (hd : decoded ≤ decoded') : Climbs calls compressed' decoded' :=
  Ascends.mono h ⟨hc, hd⟩

theorem Climbs.call (h : Climbs calls compressed decoded) (hc : compressed ≤ compressed')
    (hd : decoded ≤ decoded') : Climbs (calls ++ [⟨compressed', decoded'⟩]) compressed' decoded' :=
  Ascends.snoc h ⟨hc, hd⟩

theorem Climbs.fitting (h : Climbs calls compressed decoded) (fits : decoded < 2 ^ 64) :
    Fitting calls :=
  fun _ mem => Nat.lt_of_le_of_lt (h.bounds mem).2.2 fits

theorem Climbs.orderly {data : List UInt8} (h : Climbs calls compressed decoded)
    (inside : compressed ≤ data.length) : Orderly data calls where
  neverDecreases := h.pairwise
  inside _ mem := Nat.le_trans (h.bounds mem).2.1 inside

end Climbs

end Fbz
