import Fbz.Lib.InducedSort
import Fbz.Lib.SuffixOrder
import Mathlib.Data.List.GetD

/-!
# The order that induced sorting gives

From places of the substrings, induced sorting makes an order of all positions: first by the
substring that begins at a position, then by the place of the next one. Where the places are in the
order of the suffixes, so are all positions.
-/

namespace Fbz.SuffixKeys

open InducedSort SuffixOrder

variable {α : Type} [LinearOrder α] [Inhabited α] {c : α} {s : List α}

/-- The type of an entry. -/
def rising (e : α ×ₗ Bool) : Bool := (ofLex e).2

def head (s : List α) (i : Nat) : α ×ₗ Bool := (typed s).getD i (toLex (default, false))

theorem drop_typed {i : Nat} (lt : i < s.length) :
    (typed s).drop i = head s i :: (typed s).drop (i + 1) := by
  have hlt : i < (typed s).length := by rwa [typed_length]
  rw [head, List.getD_eq_getElem _ _ hlt]
  exact List.drop_eq_getElem_cons hlt

/-- Two letters that stand next to each other, with their types. -/
theorem heads_succ (h : Ended c s) {i : Nat} (lt : i + 1 < s.length) :
    ∃ a b rest, Ended c (a :: b :: rest) ∧ head s i = toLex (a, decide (a :: b :: rest < b :: rest)) ∧
      head s (i + 1) = toLex (b, rest.isEmpty || decide (b :: rest < rest)) := by
  have hdrop := h.drop (Nat.lt_of_succ_lt lt)
  have hfirst := @drop_typed _ _ _ s i (Nat.lt_of_succ_lt lt)
  rw [drop_typed lt, ← typed_drop] at hfirst
  rcases hs : s.drop i with _ | ⟨a, _ | ⟨b, rest⟩⟩
  · rw [List.drop_eq_nil_iff] at hs
    omega
  · have := congrArg List.length hs
    rw [List.length_drop, List.length_singleton] at this
    omega
  · rw [hs] at hdrop hfirst
    obtain ⟨ha, htail⟩ := List.cons.inj hfirst
    exact ⟨a, b, rest, hdrop, ha.symm, (List.cons.inj htail).1.symm⟩

theorem head_last (h : Ended c s) : head s (s.length - 1) = toLex (c, true) := by
  induction h with
  | last => rfl
  | @cons a u hlt hu ih =>
    have hlength := List.length_pos_iff.mpr hu.ne_nil
    rw [← ih, head, head, typed, List.length_cons, Nat.add_sub_cancel,
      show u.length = u.length - 1 + 1 by omega, List.getD_cons_succ, Nat.add_sub_cancel]

theorem lt_head (h : Ended c s) {i : Nat} (lt : i + 1 < s.length) : c < (ofLex (head s i)).1 := by
  obtain ⟨a, b, rest, hended, hhead, -⟩ := heads_succ h lt
  rw [hhead]
  cases hended with
  | cons hlt _ => exact hlt

/-- A string that ends with its smallest letter, by its positions. -/
def text (s : List α) (h : Ended c s) : Text α where
  size := s.length
  letter i := (ofLex (head s i)).1
  small i := rising (head s i)
  size_pos := List.length_pos_iff.mpr h.ne_nil
  small_last := by rw [head_last h]; rfl
  last_lt := by
    intro i lt
    rw [head_last h]
    exact lt_head h lt
  small_le := by
    intro i lt small
    obtain ⟨a, b, rest, hended, hhead, hnext⟩ := heads_succ h lt
    show head s i ≤ head s (i + 1)
    rw [hhead] at small ⊢
    rw [hnext]
    rcases List.cons_lt_cons_iff.mp (of_decide_eq_true small) with hlt | ⟨rfl, hrise⟩
    · exact le_of_lt (Prod.Lex.toLex_lt_toLex.mpr (.inl hlt))
    · have hsmall : decide (a :: a :: rest < a :: rest) = true := small
      rw [hsmall, decide_eq_true hrise, Bool.or_true]
  large_le := by
    intro i lt large
    obtain ⟨a, b, rest, hended, hhead, hnext⟩ := heads_succ h lt
    show head s (i + 1) ≤ head s i
    rw [hhead] at large ⊢
    rw [hnext]
    have hfall : b :: rest < a :: b :: rest := by
      apply lt_of_le_of_ne (not_lt.mp (of_decide_eq_false large))
      exact (List.cons_ne_self a (b :: rest)).symm
    rcases List.cons_lt_cons_iff.mp hfall with hlt | ⟨rfl, hbelow⟩
    · exact le_of_lt (Prod.Lex.toLex_lt_toLex.mpr (.inl hlt))
    · have hmore : rest.isEmpty = false := by
        cases hended with
        | cons hlt htail =>
          cases htail with
          | last => exact absurd hlt (lt_irrefl _)
          | cons _ hrest => exact hrest.isEmpty
      have hlarge : decide (b :: b :: rest < b :: rest) = false := large
      rw [hmore, hlarge, decide_eq_false (lt_asymm hbelow), Bool.or_false]

variable {h : Ended c s}

/-- The positions behind `i` at which a substring begins. -/
def nexts (s : List α) (i : Nat) : List Nat := rises rising i ((typed s).drop i)

/-- The substring that begins at a position. -/
def sub (s : List α) (i : Nat) : List (α ×ₗ Bool) := substr rising ((typed s).drop i)

def placeAfter (s : List α) (seed : Nat → Nat) (i : Nat) : Nat :=
  match nexts s i with
  | [] => 0
  | q :: _ => seed q

def key (s : List α) (seed : Nat → Nat) (i : Nat) : List (α ×ₗ Bool) ×ₗ Nat :=
  toLex (sub s i, placeAfter s seed i)

theorem drop_typed_two {i : Nat} (lt : i + 1 < s.length) : (typed s).drop i =
    head s i :: head s (i + 1) :: (typed s).drop (i + 2) := by
  rw [drop_typed (Nat.lt_of_succ_lt lt), drop_typed lt]

/-- Where no substring begins next, the substring goes on. -/
theorem key_flat {i : Nat} (seed : Nat → Nat) (lt : i + 1 < s.length)
    (flat : ¬(!rising (head s i) && rising (head s (i + 1))) = true) :
    sub s i = head s i :: sub s (i + 1) ∧ nexts s i = nexts s (i + 1) ∧
      placeAfter s seed i = placeAfter s seed (i + 1) := by
  have hnexts : nexts s i = nexts s (i + 1) := by
    rw [nexts, nexts, drop_typed_two lt, drop_typed lt, rises, if_neg flat]
  refine ⟨?_, hnexts, ?_⟩
  · rw [sub, sub, drop_typed_two lt, drop_typed lt, (substr_flat _ flat).1]
  · rw [placeAfter, placeAfter, hnexts]

theorem key_rise {i : Nat} (seed : Nat → Nat) (lt : i + 1 < s.length)
    (rise : (!rising (head s i) && rising (head s (i + 1))) = true) :
    sub s i = [head s i, head s (i + 1)] ∧ nexts s i = (i + 1) :: nexts s (i + 1) ∧
      placeAfter s seed i = seed (i + 1) := by
  have hnexts : nexts s i = (i + 1) :: nexts s (i + 1) := by
    rw [nexts, nexts, drop_typed_two lt, drop_typed lt, rises, if_pos rise]
  refine ⟨?_, hnexts, ?_⟩
  · rw [sub, drop_typed_two lt, (substr_rise _ rise).1]
  · rw [placeAfter, hnexts]

theorem sub_cons {i : Nat} (lt : i < s.length) : ∃ rest, sub s i = head s i :: rest := by
  rw [sub, drop_typed lt]
  exact substr_cons_ne_nil _ _

theorem sub_cons_two {i : Nat} (lt : i + 1 < s.length) :
    ∃ rest, sub s i = head s i :: head s (i + 1) :: rest := by
  rw [sub, drop_typed_two lt]
  exact substr_tail_ne_nil _ _ _

theorem nexts_eq (s : List α) (i : Nat) : nexts s i =
    (List.range' (i + 1) (s.length - i - 1)).filter fun q =>
      !rising (head s (q - 1)) && rising (head s q) := by
  have hlength : ((typed s).drop i).length - 1 = s.length - i - 1 := by
    rw [List.length_drop, typed_length]
  rw [nexts, ← hlength]
  apply rises_eq_filter
  intro j e f he hf
  have hget {k : Nat} {e : α ×ₗ Bool} (hk : ((typed s).drop i)[k]? = some e) :
      head s (i + k) = e := by
    rw [List.getElem?_drop] at hk
    rw [head, List.getD_eq_getElem?_getD, hk, Option.getD_some]
  rw [← hget he, ← hget hf]
  rfl

theorem isLms_of_nexts {i q : Nat} (mem : q ∈ nexts s i) : (text s h).IsLms q ∧ i < q := by
  rw [nexts_eq, List.mem_filter, List.mem_range'_1, Bool.and_eq_true, Bool.not_eq_true'] at mem
  obtain ⟨⟨hlo, hhi⟩, hlarge, hsmall⟩ := mem
  refine ⟨⟨by omega, ?_, hsmall, hlarge⟩, hlo⟩
  show q < s.length
  omega

theorem sub_lt_of_head_lt {i j : Nat} (hi : i < s.length) (hj : j < s.length)
    (lt : head s i < head s j) : sub s i < sub s j := by
  obtain ⟨rest, hrest⟩ := sub_cons hi
  obtain ⟨rest', hrest'⟩ := sub_cons hj
  rw [hrest, hrest']
  exact List.cons_lt_cons_iff.mpr (.inl lt)

omit [Inhabited α] in
theorem nexts_cases (s : List α) (i : Nat) :
    (nexts s i = [] ∧ sub s i = (typed s).drop i) ∨
      ∃ q, nexts s i = q :: nexts s q ∧ i < q ∧ q < s.length ∧
        after rising ((typed s).drop i) = (typed s).drop q ∧ q + 1 = i + (sub s i).length := by
  rcases @rises_drop_cases _ rising i (typed s) with h | ⟨q, hlt, hin, hcons, hafter, hlength⟩
  · exact .inl h
  · rw [typed_length] at hin
    exact .inr ⟨q, hcons, hlt, hin, hafter, hlength⟩

/-- Where the same substring begins twice, it ends with the same letter. -/
theorem head_next {i j q r : Nat} (same : sub s i = sub s j) (hi : i < q) (hq : q < s.length)
    (hj : j < r) (hr : r < s.length) (length : q + 1 = i + (sub s i).length)
    (length' : r + 1 = j + (sub s j).length) : head s q = head s r := by
  have hget {i q : Nat} (hi : i < q) (hq : q < s.length) (length : q + 1 = i + (sub s i).length) :
      (sub s i)[q - i]? = some (head s q) := by
    obtain ⟨rest, hrest⟩ : sub s i <+: (typed s).drop i := prefix_of_substr rising _
    have hinside : q - i < (sub s i).length := by omega
    have hfront : ((typed s).drop i)[q - i]? = (sub s i)[q - i]? := by
      rw [← hrest, List.getElem?_append_left hinside]
    have hlt : q < (typed s).length := by rwa [typed_length]
    rw [← hfront, List.getElem?_drop, Nat.add_sub_cancel' (Nat.le_of_lt hi), head,
      List.getD_eq_getElem _ _ hlt, List.getElem?_eq_getElem hlt]
  have hfirst := hget hi hq length
  have hsecond := hget hj hr length'
  have hlengths : q - i = r - j := by
    rw [same] at length
    omega
  rw [same, hlengths, hsecond] at hfirst
  exact (Option.some.inj hfirst).symm

omit [Inhabited α] in
theorem key_lt_iff {seed : Nat → Nat} {i j : Nat} : key s seed i < key s seed j ↔
    sub s i < sub s j ∨ sub s i = sub s j ∧ placeAfter s seed i < placeAfter s seed j :=
  Prod.Lex.toLex_lt_toLex

/-- One more head in front of both. -/
theorem key_lt_of_flat {seed : Nat → Nat} {i j : Nat} (hi : i + 1 < s.length)
    (hj : j + 1 < s.length) (same : head s i = head s j)
    (flat : ¬(!rising (head s i) && rising (head s (i + 1))) = true)
    (flat' : ¬(!rising (head s j) && rising (head s (j + 1))) = true) :
    key s seed i < key s seed j ↔ key s seed (i + 1) < key s seed (j + 1) := by
  obtain ⟨hsub, -, hplace⟩ := key_flat seed hi flat
  obtain ⟨hsub', -, hplace'⟩ := key_flat seed hj flat'
  rw [key_lt_iff, key_lt_iff, hsub, hsub', hplace, hplace', same, List.cons_lt_cons_self,
    List.cons.injEq, eq_self, true_and]

variable {seed : Nat → Nat}

theorem heads : (text s h).Heads (key s seed) where
  head_lt hi hj lt := key_lt_iff.mpr (.inl (sub_lt_of_head_lt hi hj lt))

theorem key_inj (seeds : (text s h).Seeds seed) {i j : Nat} (hi : i < s.length)
    (hj : j < s.length) (same : key s seed i = key s seed j) : i = j := by
  obtain ⟨hsub, hplace⟩ := Prod.mk.inj (toLex.injective same)
  rcases nexts_cases s i with ⟨hnil, hall⟩ | ⟨q, hcons, hlt, hin, -, hlength⟩
  · have hnil' : nexts s j = [] := rises_eq_nil_of_substr hsub hnil
    rcases nexts_cases s j with ⟨-, hall'⟩ | ⟨r, hcons', -⟩
    · have hlengths := congrArg List.length (hall.symm.trans (hsub.trans hall'))
      rw [List.length_drop, List.length_drop, typed_length] at hlengths
      omega
    · rw [hnil'] at hcons'
      cases hcons'
  · rcases nexts_cases s j with ⟨hnil', -⟩ | ⟨r, hcons', hlt', hin', -, hlength'⟩
    · have hnil : nexts s i = [] := rises_eq_nil_of_substr hsub.symm hnil'
      rw [hnil] at hcons
      cases hcons
    · rw [placeAfter, placeAfter, hcons, hcons'] at hplace
      have hq := (@isLms_of_nexts _ _ _ _ _ h i q (by simp [hcons])).1
      have hr := (@isLms_of_nexts _ _ _ _ _ h j r (by simp [hcons'])).1
      obtain rfl := seeds.inj hq hr hplace
      rw [hsub] at hlength
      omega

theorem keys (seeds : (text s h).Seeds seed) : (text s h).Keys seed (key s seed) where
  toHeads := heads
  inj := key_inj seeds
  small_iff := by
    intro i j hi hj hsmall hsmall' hletter
    have hhead : head s i = head s j := (Text.head_eq_iff (t := text s h)).mpr
      ⟨hletter, hsmall.trans hsmall'.symm⟩
    have hrise : rising (head s i) = true := hsmall
    have hrise' : rising (head s j) = true := hsmall'
    exact key_lt_of_flat hi hj hhead (by simp [hrise]) (by simp [hrise'])
  large_iff := by
    intro i j hi hj hlarge hlarge' hletter
    have hhead : head s i = head s j := (Text.head_eq_iff (t := text s h)).mpr
      ⟨hletter, hlarge.trans hlarge'.symm⟩
    have hfall : rising (head s i) = false := hlarge
    have hfall' : rising (head s j) = false := hlarge'
    have hseen := @Text.seen_succ _ _ (text s h) i (Nat.lt_of_succ_lt hi) hlarge
    have hseen' := @Text.seen_succ _ _ (text s h) j (Nat.lt_of_succ_lt hj) hlarge'
    have hbelow {i j : Nat} (hi : i + 1 < s.length) (hj : j + 1 < s.length)
        (hhead : head s i = head s j) (lt : head s (i + 1) < head s (j + 1)) :
        key s seed i < key s seed j := by
      obtain ⟨rest, hrest⟩ := sub_cons_two hi
      obtain ⟨rest', hrest'⟩ := sub_cons_two hj
      apply key_lt_iff.mpr (.inl _)
      rw [hrest, hrest', hhead, List.cons_lt_cons_self]
      exact List.cons_lt_cons_iff.mpr (.inl lt)
    rcases lt_trichotomy (head s (i + 1)) (head s (j + 1)) with hlt | heq | hgt
    · exact iff_of_true (hbelow hi hj hhead hlt) (heads.place_lt_of_head_lt seeds hseen hseen' hlt)
    · cases hnext : rising (head s (i + 1)) with
      | false =>
        have hnext' : rising (head s (j + 1)) = false := heq ▸ hnext
        rw [key_lt_of_flat hi hj hhead (by simp [hnext]) (by simp [hnext']), Text.place_large hnext,
          Text.place_large hnext']
        exact (Text.rank_lt_iff (t := text s h) hi).symm
      | true =>
        have hnext' : rising (head s (j + 1)) = true := heq ▸ hnext
        obtain ⟨hsub, -, hplace⟩ := key_rise seed hi (by simp [hfall, hnext])
        obtain ⟨hsub', -, hplace'⟩ := key_rise seed hj (by simp [hfall', hnext'])
        rw [key_lt_iff, hsub, hsub', hplace, hplace', hhead, heq, Text.place_small hnext,
          Text.place_small hnext', eq_self, true_and]
        exact or_iff_right (List.lt_irrefl _)
    · exact iff_of_false (lt_asymm (hbelow hj hi hhead.symm hgt))
        (lt_asymm (heads.place_lt_of_head_lt seeds hseen' hseen hgt))

/-- In each bucket, the places are in the order of the suffixes. -/
def Sorted (h : Ended c s) (seed : Nat → Nat) : Prop :=
  ∀ {p q}, (text s h).IsLms p → (text s h).IsLms q → (text s h).letter p = (text s h).letter q →
    (seed p < seed q ↔ s.drop p < s.drop q)

omit [Inhabited α] in
theorem typed_drop_lt_iff (h : Ended c s) {i j : Nat} (hi : i < s.length) (hj : j < s.length) :
    (typed s).drop i < (typed s).drop j ↔ s.drop i < s.drop j := by
  rw [← typed_drop, ← typed_drop]
  exact typed_lt_typed (h.drop hi) (h.drop hj)

/-- Then all positions come in the order of their suffixes. -/
theorem key_lt_iff_drop (sorted : Sorted h seed) {i j : Nat} (hi : i < s.length)
    (hj : j < s.length) : key s seed i < key s seed j ↔ s.drop i < s.drop j := by
  rw [← typed_drop_lt_iff h hi hj]
  apply (key_lt_iff.trans _).trans (@lt_iff_substr _ _ rising _ _).symm
  apply or_congr_right
  apply and_congr_right
  intro hsub
  rcases nexts_cases s i with ⟨hnil, hall⟩ | ⟨q, hcons, hlt, hin, hafter, hlength⟩
  · have hnil' : nexts s j = [] := rises_eq_nil_of_substr hsub hnil
    rcases nexts_cases s j with ⟨-, hall'⟩ | ⟨r, hcons', -⟩
    · have hsame := hall.symm.trans (hsub.trans hall')
      rw [placeAfter, placeAfter, hnil, hnil', hsame]
      exact iff_of_false (lt_irrefl _) (List.lt_irrefl _)
    · rw [hnil'] at hcons'
      cases hcons'
  · rcases nexts_cases s j with ⟨hnil', -⟩ | ⟨r, hcons', hlt', hin', hafter', hlength'⟩
    · have hnil : nexts s i = [] := rises_eq_nil_of_substr hsub.symm hnil'
      rw [hnil] at hcons
      cases hcons
    · have hq := (@isLms_of_nexts _ _ _ _ _ h i q (by simp [hcons])).1
      have hr := (@isLms_of_nexts _ _ _ _ _ h j r (by simp [hcons'])).1
      have hhead := head_next hsub hlt hin hlt' hin' hlength hlength'
      rw [placeAfter, placeAfter, hcons, hcons', hafter, hafter', typed_drop_lt_iff h hin hin']
      exact sorted hq hr (congrArg (fun e => (ofLex e).1) hhead)

end Fbz.SuffixKeys
