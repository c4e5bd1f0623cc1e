import Mathlib.Algebra.Order.Ring.Int
import Mathlib.Data.List.Lex
import Mathlib.Data.List.Perm.Basic
import Mathlib.Data.List.Range
import Mathlib.Data.Prod.Lex

/-!
# The order of the suffixes of a string

Each letter comes with its type: whether the suffix that begins with it is smaller than the next one.
Types refine letters and leave the order of the suffixes as it is. A small letter behind one that is
not begins a substring that ends with the next such letter; suffixes compare as these substrings do,
and where they agree as what is behind them. So the names of the substrings, in the order of the
string, have suffixes in the same order.
-/

namespace Fbz.SuffixOrder

section Types

variable {α : Type} [LinearOrder α]

/-- The letters with their types. The last suffix counts as small. -/
def typed : List α → List (α ×ₗ Bool)
  | [] => []
  | a :: rest => toLex (a, rest.isEmpty || decide (a :: rest < rest)) :: typed rest

/-- The string ends with a letter that is smaller than all others. -/
inductive Ended (c : α) : List α → Prop
  | last : Ended c [c]
  | cons {a : α} {u : List α} : c < a → Ended c u → Ended c (a :: u)

variable {c : α} {u v : List α}

theorem Ended.ne_nil (h : Ended c u) : u ≠ [] := by
  cases h <;> exact List.cons_ne_nil _ _

theorem Ended.isEmpty (h : Ended c u) : u.isEmpty = false :=
  List.isEmpty_eq_false_iff.mpr h.ne_nil

theorem Ended.drop (h : Ended c u) {i : Nat} (lt : i < u.length) : Ended c (u.drop i) := by
  induction h generalizing i with
  | last =>
    obtain rfl := Nat.lt_one_iff.mp lt
    exact .last
  | cons hlt hu ih =>
    cases i with
    | zero => exact .cons hlt hu
    | succ i => exact ih (Nat.lt_of_succ_lt_succ lt)

theorem typed_length (u : List α) : (typed u).length = u.length := by
  induction u with
  | nil => rfl
  | cons a u ih => rw [typed, List.length_cons, List.length_cons, ih]

theorem typed_drop (u : List α) (i : Nat) : typed (u.drop i) = (typed u).drop i := by
  induction u generalizing i with
  | nil => rw [List.drop_nil, typed, List.drop_nil]
  | cons a u ih =>
    cases i with
    | zero => rfl
    | succ i => exact ih i

theorem map_fst_typed (u : List α) : (typed u).map (fun e => (ofLex e).1) = u := by
  induction u with
  | nil => rfl
  | cons a u ih =>
    rw [typed, List.map_cons, ih]
    rfl

/-- Before the same letter, what is larger than its string with the letter is larger than what is
smaller. -/
theorem lt_of_fall_rise {a : α} (fall : v < a :: v) (rise : a :: u < u) : v < u := by
  induction u generalizing v with
  | nil => exact absurd rise (List.not_lt_nil _)
  | cons b u ih =>
    cases v with
    | nil => exact List.nil_lt_cons _ _
    | cons b' v =>
      rw [List.cons_lt_cons_iff] at fall rise ⊢
      rcases fall with hfall | ⟨rfl, hfall⟩
      · exact .inl (hfall.trans_le (rise.elim le_of_lt fun h => le_of_eq h.1))
      · rcases rise with hrise | ⟨rfl, hrise⟩
        · exact .inl hrise
        · exact .inr ⟨rfl, ih hfall hrise⟩

theorem typed_lt_typed_of_lt (hu : Ended c u) (hv : Ended c v) (lt : u < v) :
    typed u < typed v := by
  induction hu generalizing v with
  | last =>
    cases hv with
    | last => exact absurd lt (List.lt_irrefl _)
    | cons hc hv =>
      exact List.cons_lt_cons_iff.mpr (.inl (Prod.Lex.toLex_lt_toLex.mpr (.inl hc)))
  | @cons a u hc hu ih =>
    cases hv with
    | last =>
      rcases List.cons_lt_cons_iff.mp lt with h | ⟨h, -⟩
      · exact absurd h (lt_asymm hc)
      · exact absurd h (ne_of_gt hc)
    | @cons b v hc' hv =>
      rw [typed, typed, List.cons_lt_cons_iff, Prod.Lex.toLex_lt_toLex, hu.isEmpty, hv.isEmpty,
        Bool.false_or, Bool.false_or]
      rcases List.cons_lt_cons_iff.mp lt with h | ⟨rfl, huv⟩
      · exact .inl (.inl h)
      · by_cases hrise : a :: u < u
        · by_cases hrise' : a :: v < v
          · exact .inr ⟨by simp [hrise, hrise'], ih hv huv⟩
          · have hfall : v < a :: v := lt_of_le_of_ne (not_lt.mp hrise') (List.cons_ne_self a v).symm
            exact absurd (lt_of_fall_rise hfall hrise) (lt_asymm huv)
        · by_cases hrise' : a :: v < v
          · exact .inl (.inr ⟨rfl, by simp [hrise, hrise']⟩)
          · exact .inr ⟨by simp [hrise, hrise'], ih hv huv⟩

/-- Types do not change the order of suffixes. -/
theorem typed_lt_typed (hu : Ended c u) (hv : Ended c v) : typed u < typed v ↔ u < v := by
  refine ⟨fun h => ?_, typed_lt_typed_of_lt hu hv⟩
  rcases lt_trichotomy u v with huv | rfl | hvu
  · exact huv
  · exact absurd h (lt_irrefl _)
  · exact absurd h (lt_asymm (typed_lt_typed_of_lt hv hu hvu))

/-- All positions, in the order of the suffixes at them. -/
structure IsSuffixArray (s : List α) (sa : List Nat) : Prop where
  mem_iff : ∀ p, p ∈ sa ↔ p < s.length
  sorted : sa.Pairwise fun p q => s.drop p < s.drop q

theorem IsSuffixArray.nodup {s : List α} {sa : List Nat} (h : IsSuffixArray s sa) : sa.Nodup := by
  apply h.sorted.imp
  intro p q hlt heq
  subst heq
  exact lt_irrefl _ hlt

theorem IsSuffixArray.perm {s : List α} {sa : List Nat} (h : IsSuffixArray s sa) :
    sa.Perm (List.range s.length) := by
  apply (List.perm_ext_iff_of_nodup h.nodup List.nodup_range).mpr
  intro p
  rw [h.mem_iff, List.mem_range]

theorem IsSuffixArray.length_eq {s : List α} {sa : List Nat} (h : IsSuffixArray s sa) :
    sa.length = s.length := by
  rw [h.perm.length_eq, List.length_range]

end Types

section Substrings

variable {β : Type} [LinearOrder β] (small : β → Bool)

/-- The start of a string up to the next small entry behind one that is not. -/
def substr : List β → List β
  | [] => []
  | [e] => [e]
  | e :: f :: rest => if !small e && small f then [e, f] else e :: substr (f :: rest)

/-- What begins with the last entry of the start. -/
def after : List β → List β
  | [] => []
  | [e] => [e]
  | e :: f :: rest => if !small e && small f then f :: rest else after (f :: rest)

/-- The positions of small entries behind one that is not, counted from the first entry's. -/
def rises : Nat → List β → List Nat
  | i, e :: f :: rest =>
    if !small e && small f then (i + 1) :: rises (i + 1) (f :: rest) else rises (i + 1) (f :: rest)
  | _, _ => []

variable {small}

omit [LinearOrder β] in
theorem substr_cons_ne_nil (e : β) (u : List β) : ∃ rest, substr small (e :: u) = e :: rest := by
  cases u with
  | nil => exact ⟨[], rfl⟩
  | cons f u =>
    rw [substr]
    split
    · exact ⟨[f], rfl⟩
    · exact ⟨_, rfl⟩

omit [LinearOrder β] in
theorem substr_rise {e f : β} (rest : List β) (rise : (!small e && small f) = true) :
    substr small (e :: f :: rest) = [e, f] ∧ after small (e :: f :: rest) = f :: rest :=
  ⟨if_pos rise, if_pos rise⟩

omit [LinearOrder β] in
theorem substr_flat {e f : β} (rest : List β) (flat : ¬(!small e && small f) = true) :
    substr small (e :: f :: rest) = e :: substr small (f :: rest) ∧
      after small (e :: f :: rest) = after small (f :: rest) :=
  ⟨if_neg flat, if_neg flat⟩

omit [LinearOrder β] in
theorem substr_tail_ne_nil (e f : β) (u : List β) :
    ∃ rest, substr small (e :: f :: u) = e :: f :: rest := by
  obtain ⟨rest, hrest⟩ := @substr_cons_ne_nil _ small f u
  by_cases hrise : (!small e && small f) = true
  · exact ⟨[], (substr_rise u hrise).1⟩
  · exact ⟨rest, by rw [(substr_flat u hrise).1, hrest]⟩

omit [LinearOrder β] in
theorem prefix_of_substr (small : β → Bool) (u : List β) : substr small u <+: u := by
  induction u with
  | nil => exact List.prefix_refl _
  | cons e u ih =>
    cases u with
    | nil => exact List.prefix_refl _
    | cons f u =>
      by_cases hrise : (!small e && small f) = true
      · rw [(substr_rise u hrise).1]
        exact List.prefix_append [e, f] u
      · rw [(substr_flat u hrise).1]
        exact List.prefix_cons_inj e |>.mpr ih

theorem lt_iff_of_ne {f f' : β} (ne : f ≠ f') (u v r r' a b : List β) :
    f :: u < f' :: v ↔ f :: r < f' :: r' ∨ f :: r = f' :: r' ∧ a < b := by
  rw [List.cons_lt_cons_iff, List.cons_lt_cons_iff]
  simp [ne]

/-- The step of the comparison: one more letter in front of both strings. -/
theorem lt_iff_substr_cons {e f f' : β} {u v : List β}
    (ih : f :: u < f' :: v ↔ substr small (f :: u) < substr small (f' :: v) ∨
      substr small (f :: u) = substr small (f' :: v) ∧ after small (f :: u) < after small (f' :: v)) :
    e :: f :: u < e :: f' :: v ↔
      substr small (e :: f :: u) < substr small (e :: f' :: v) ∨
        substr small (e :: f :: u) = substr small (e :: f' :: v) ∧
          after small (e :: f :: u) < after small (e :: f' :: v) := by
  obtain ⟨tail, htail⟩ := @substr_cons_ne_nil _ small f u
  obtain ⟨tail', htail'⟩ := @substr_cons_ne_nil _ small f' v
  rw [List.cons_lt_cons_self]
  by_cases hrise : (!small e && small f) = true
  · obtain ⟨hsub, hafter⟩ := substr_rise u hrise
    rw [hsub, hafter]
    by_cases hrise' : (!small e && small f') = true
    · obtain ⟨hsub', hafter'⟩ := substr_rise v hrise'
      rw [hsub', hafter', List.cons_lt_cons_self, List.cons.injEq]
      by_cases hne : f = f'
      · subst hne
        simp
      · exact (lt_iff_of_ne hne u v [] [] (f :: u) (f' :: v)).trans (by simp)
    · have hne : f ≠ f' := fun h => hrise' (h ▸ hrise)
      obtain ⟨hsub', hafter'⟩ := substr_flat v hrise'
      rw [hsub', hafter', htail', List.cons_lt_cons_self, List.cons.injEq]
      exact (lt_iff_of_ne hne u v [] tail' (f :: u) (after small (f' :: v))).trans (by simp)
  · obtain ⟨hsub, hafter⟩ := substr_flat u hrise
    rw [hsub, hafter]
    by_cases hrise' : (!small e && small f') = true
    · have hne : f ≠ f' := fun h => hrise (h ▸ hrise')
      obtain ⟨hsub', hafter'⟩ := substr_rise v hrise'
      rw [hsub', hafter', htail, List.cons_lt_cons_self, List.cons.injEq]
      exact (lt_iff_of_ne hne u v tail [] (after small (f :: u)) (f' :: v)).trans (by simp)
    · obtain ⟨hsub', hafter'⟩ := substr_flat v hrise'
      rw [hsub', hafter', List.cons_lt_cons_self, ih, List.cons.injEq]
      simp

/-- Strings compare as their starts do, and those with the same start as what is behind it. -/
theorem lt_iff_substr (u v : List β) :
    u < v ↔ substr small u < substr small v ∨
      substr small u = substr small v ∧ after small u < after small v := by
  induction u generalizing v with
  | nil =>
    cases v with
    | nil => simp [substr, after]
    | cons e v =>
      obtain ⟨rest, hrest⟩ := @substr_cons_ne_nil _ small e v
      simp [substr, hrest]
  | cons e u ih =>
    cases v with
    | nil =>
      obtain ⟨rest, hrest⟩ := @substr_cons_ne_nil _ small e u
      simp [substr, hrest]
    | cons e' v =>
      by_cases heq : e = e'
      · subst heq
        cases u with
        | nil =>
          cases v with
          | nil => simp [substr, after]
          | cons f' v =>
            obtain ⟨rest, hrest⟩ := @substr_tail_ne_nil _ small e f' v
            rw [hrest, show substr small [e] = [e] from rfl]
            simp
        | cons f u =>
          cases v with
          | nil =>
            obtain ⟨rest, hrest⟩ := @substr_tail_ne_nil _ small e f u
            rw [hrest, show substr small [e] = [e] from rfl]
            simp
          | cons f' v => exact lt_iff_substr_cons (ih (f' :: v))
      · obtain ⟨rest, hrest⟩ := @substr_cons_ne_nil _ small e u
        obtain ⟨rest', hrest'⟩ := @substr_cons_ne_nil _ small e' v
        rw [hrest, hrest']
        exact lt_iff_of_ne heq ..

omit [LinearOrder β] in
theorem rises_eq_filter {p : Nat → Bool} (i : Nat) (u : List β)
    (h : ∀ j e f, u[j]? = some e → u[j + 1]? = some f → p (i + j + 1) = (!small e && small f)) :
    rises small i u = (List.range' (i + 1) (u.length - 1)).filter p := by
  induction u generalizing i with
  | nil => rfl
  | cons e u ih =>
    cases u with
    | nil => rfl
    | cons f u =>
      have hrest := ih (i + 1) fun j e' f' he hf => by
        rw [show i + 1 + j + 1 = i + (j + 1) + 1 by omega]
        exact h (j + 1) e' f' he hf
      have hlength : (e :: f :: u).length - 1 = (f :: u).length - 1 + 1 := rfl
      rw [rises, hrest, hlength, List.range'_succ, List.filter_cons,
        show p (i + 1) = (!small e && small f) from h 0 e f rfl rfl]

omit [LinearOrder β] in
/-- The first substring ends where the next one begins. -/
theorem rises_cases (i : Nat) (u : List β) :
    (rises small i u = [] ∧ substr small u = u) ∨
      ∃ m, 0 < m ∧ m < u.length ∧ rises small i u = (i + m) :: rises small (i + m) (u.drop m) ∧
        after small u = u.drop m ∧ (substr small u).length = m + 1 := by
  induction u generalizing i with
  | nil => exact .inl ⟨rfl, rfl⟩
  | cons e u ih =>
    cases u with
    | nil => exact .inl ⟨rfl, rfl⟩
    | cons f u =>
      by_cases hrise : (!small e && small f) = true
      · obtain ⟨hsub, hafter⟩ := substr_rise u hrise
        refine .inr ⟨1, Nat.one_pos, by simp, ?_, hafter, by rw [hsub]; rfl⟩
        rw [rises, if_pos hrise, List.drop_one, List.tail_cons]
      · obtain ⟨hsub, hafter⟩ := substr_flat u hrise
        rw [rises, if_neg hrise, hsub, hafter]
        rcases ih (i + 1) with ⟨hnil, hall⟩ | ⟨m, hpos, hlt, hcons, hdrop, hlength⟩
        · exact .inl ⟨hnil, by rw [hall]⟩
        · refine .inr ⟨m + 1, Nat.succ_pos m, Nat.succ_lt_succ hlt, ?_, hdrop, by
            rw [List.length_cons, hlength]⟩
          rw [hcons, List.drop_succ_cons, show i + 1 + m = i + (m + 1) by omega]

omit [LinearOrder β] in
theorem rises_substr (i : Nat) (u : List β) :
    rises small i (substr small u) = [] ↔ rises small i u = [] := by
  induction u generalizing i with
  | nil => rfl
  | cons e u ih =>
    cases u with
    | nil => rfl
    | cons f u =>
      by_cases hrise : (!small e && small f) = true
      · rw [(substr_rise u hrise).1, rises, rises, if_pos hrise, if_pos hrise]
        simp
      · obtain ⟨tail, htail⟩ := @substr_cons_ne_nil _ small f u
        rw [(substr_flat u hrise).1, htail, rises, rises, if_neg hrise, if_neg hrise, ← htail,
          ih (i + 1)]

omit [LinearOrder β] in
theorem rises_eq_nil_shift (i j : Nat) (u : List β) :
    rises small i u = [] ↔ rises small j u = [] := by
  induction u generalizing i j with
  | nil => rfl
  | cons e u ih =>
    cases u with
    | nil => rfl
    | cons f u =>
      rw [rises, rises]
      split
      · simp
      · exact ih (i + 1) (j + 1)

omit [LinearOrder β] in
/-- Whether a substring ends the string can be read off it. -/
theorem rises_eq_nil_of_substr {i j : Nat} {u v : List β} (same : substr small u = substr small v)
    (nil : rises small i u = []) : rises small j v = [] := by
  rw [← rises_substr, ← same, rises_substr]
  exact (rises_eq_nil_shift i j u).mp nil

omit [LinearOrder β] in
theorem rises_drop_cases (i : Nat) (t : List β) :
    (rises small i (t.drop i) = [] ∧ substr small (t.drop i) = t.drop i) ∨
      ∃ q, i < q ∧ q < t.length ∧ rises small i (t.drop i) = q :: rises small q (t.drop q) ∧
        after small (t.drop i) = t.drop q ∧ q + 1 = i + (substr small (t.drop i)).length := by
  rcases @rises_cases _ small i (t.drop i) with h | ⟨m, hpos, hlt, hcons, hafter, hlength⟩
  · exact .inl h
  · rw [List.length_drop] at hlt
    rw [List.drop_drop] at hcons hafter
    exact .inr ⟨i + m, by omega, by omega, hcons, hafter, by omega⟩

omit [LinearOrder β] in
/-- The positions from one of them on. -/
theorem drop_rises {i a p : Nat} {t : List β} (get : (rises small i (t.drop i))[a]? = some p) :
    (rises small i (t.drop i)).drop a = p :: rises small p (t.drop p) := by
  induction a generalizing i with
  | zero =>
    rcases @rises_drop_cases _ small i t with ⟨hnil, -⟩ | ⟨q, -, -, hcons, -⟩
    · rw [hnil] at get
      cases get
    · rw [hcons] at get ⊢
      obtain rfl := Option.some.inj get
      rfl
  | succ a ih =>
    rcases @rises_drop_cases _ small i t with ⟨hnil, -⟩ | ⟨q, -, -, hcons, -⟩
    · rw [hnil] at get
      cases get
    · rw [hcons] at get ⊢
      exact ih get

/-- Substrings at these positions that agree up to the last entry. -/
def Alike (small : β → Bool) (t : List β) (p q : Nat) : Prop :=
  p = q ∨ ∃ m, rises small p (t.drop p) = (p + m) :: rises small (p + m) (t.drop (p + m)) ∧
    rises small q (t.drop q) = (q + m) :: rises small (q + m) (t.drop (q + m)) ∧
    (t.drop p).take m = (t.drop q).take m

omit [LinearOrder β] in
theorem Alike.symm {t : List β} {p q : Nat} (h : Alike small t p q) : Alike small t q p := by
  rcases h with rfl | ⟨m, hp, hq, hsame⟩
  · exact .inl rfl
  · exact .inr ⟨m, hq, hp, hsame.symm⟩

omit [LinearOrder β] in
theorem Alike.trans {t : List β} {p q r : Nat} (h : Alike small t p q) (h' : Alike small t q r) :
    Alike small t p r := by
  rcases h with rfl | ⟨m, hp, hq, hsame⟩
  · exact h'
  · rcases h' with rfl | ⟨m', hq', hr, hsame'⟩
    · exact .inr ⟨m, hp, hq, hsame⟩
    · have hm : q + m = q + m' := (List.cons.inj (hq.symm.trans hq')).1
      obtain rfl : m = m' := Nat.add_left_cancel hm
      exact .inr ⟨m, hp, hr, hsame.trans hsame'⟩

theorem append_lt_append_iff (w u v : List β) : w ++ u < w ++ v ↔ u < v := by
  induction w with
  | nil => rfl
  | cons e w ih => rw [List.cons_append, List.cons_append, List.cons_lt_cons_self, ih]

/-- Names in the order of the substrings that are only shared by substrings that are alike: written
in the order of the positions, they compare as the suffixes at these positions do. -/
theorem names_lt_iff {γ : Type} [LinearOrder γ] {t : List β} {name : Nat → γ} {S : Nat → Prop}
    (next : ∀ p q, S p → rises small p (t.drop p) = q :: rises small q (t.drop q) → S q)
    (ordered : ∀ p q, S p → S q → name p < name q →
      substr small (t.drop p) < substr small (t.drop q))
    (shared : ∀ p q, S p → S q → name p = name q → Alike small t p q)
    {p q : Nat} (hp : S p) (hq : S q) :
    (p :: rises small p (t.drop p)).map name < (q :: rises small q (t.drop q)).map name ↔
      t.drop p < t.drop q := by
  induction h : t.length - p using Nat.strong_induction_on generalizing p q with
  | _ n ih =>
    have hbelow {p q : Nat} (hp : S p) (hq : S q) (lt : name p < name q) :
        t.drop p < t.drop q := (lt_iff_substr _ _).mpr (.inl (ordered p q hp hq lt))
    rw [List.map_cons, List.map_cons, List.cons_lt_cons_iff]
    rcases lt_trichotomy (name p) (name q) with hlt | heq | hgt
    · exact iff_of_true (.inl hlt) (hbelow hp hq hlt)
    · rcases shared p q hp hq heq with rfl | ⟨m, hnext, hnext', hsame⟩
      · simp
      · have hstep : p < p + m ∧ p + m < t.length := by
          rcases @rises_drop_cases _ small p t with ⟨hnil, -⟩ | ⟨r, hlt, hin, hcons, -⟩
          · rw [hnil] at hnext
            cases hnext
          · obtain rfl := (List.cons.inj (hcons.symm.trans hnext)).1
            exact ⟨hlt, hin⟩
        have hfront : t.drop p = (t.drop q).take m ++ t.drop (p + m) := by
          rw [← hsame, ← List.drop_drop, List.take_append_drop]
        have hfront' : t.drop q = (t.drop q).take m ++ t.drop (q + m) := by
          rw [← List.drop_drop, List.take_append_drop]
        generalize (t.drop q).take m = front at hfront hfront'
        rw [hnext, hnext', hfront, hfront', append_lt_append_iff,
          ← ih (t.length - (p + m)) (by omega) (next p _ hp hnext) (next q _ hq hnext') rfl]
        simp [heq]
    · refine iff_of_false ?_ (lt_asymm (hbelow hq hp hgt))
      rintro (hlt | ⟨heq, -⟩)
      · exact lt_asymm hgt hlt
      · exact ne_of_gt hgt heq

end Substrings

end Fbz.SuffixOrder
