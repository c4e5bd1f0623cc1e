import Fbz.Bzip2.Seeding

/-!
# Names of the LMS substrings

The first pass sorts the LMS substrings. In their order, each takes the name of the one before it
where the two are alike, and the next name otherwise. In the order of the string, the names are the
string that the recursion sorts, and its suffixes compare as the LMS suffixes do.
-/

namespace Fbz.Bzip2.Bwt

open Checked InducedSort SuffixKeys SuffixOrder

section Order

variable {κ : Type} [LinearOrder κ] {t : Text Nat} {seed : Nat → Nat} {key : Nat → κ}
  {sa : List Nat} {p : Nat}

private theorem Ranked.get_iff (ranked : Ranked t key sa) (keys : t.Keys seed key) {x : Nat} :
    sa[x]? = some p ↔ p < t.size ∧ t.rank key p = x := by
  constructor
  · intro hget
    have hlt : x < t.size := by
      rw [← ranked.length]
      exact (List.getElem?_eq_some_iff.mp hget).1
    obtain ⟨q, hq, hrank⟩ := keys.exists_rank hlt
    have hsame := ranked.get q hq
    rw [hrank, hget] at hsame
    obtain rfl := Option.some.inj hsame
    exact ⟨hq, hrank⟩
  · intro hp
    rw [← hp.2]
    exact ranked.get p hp.1

theorem Ranked.mem_iff (ranked : Ranked t key sa) (keys : t.Keys seed key) :
    p ∈ sa ↔ p < t.size := by
  rw [List.mem_iff_getElem?]
  constructor
  · intro hmem
    obtain ⟨x, hx⟩ := hmem
    exact ((ranked.get_iff keys).mp hx).1
  · intro hp
    exact ⟨t.rank key p, ranked.get p hp⟩

theorem Ranked.pairwise (ranked : Ranked t key sa) (keys : t.Keys seed key) :
    sa.Pairwise fun p q => key p < key q := by
  apply List.pairwise_iff_getElem.mpr
  intro i j hi hj hlt
  have hfirst := (ranked.get_iff keys).mp (List.getElem?_eq_getElem hi)
  have hsecond := (ranked.get_iff keys).mp (List.getElem?_eq_getElem hj)
  apply (Text.rank_lt_iff hfirst.1).mp
  rw [hfirst.2, hsecond.2]
  exact hlt

end Order

section Compare

variable {s : List Nat} {h : Ended 0 s} {p q m m' d : Nat}

private theorem typed_get (lt : p < s.length) : (typed s)[p]? = some (head s p) := by
  have hlt : p < (typed s).length := by rwa [typed_length]
  rw [head, List.getD_eq_getElem _ _ hlt, List.getElem?_eq_getElem hlt]

private theorem drop_get (lt : p + d < s.length) : ((typed s).drop p)[d]? = some
    (head s (p + d)) := by
  rw [List.getElem?_drop, typed_get lt]

private theorem isLms_iff_of_next (next : nexts s p = (p + m) :: nexts s (p + m)) (pos : 0 < d)
    (le : d ≤ m) : (text s h).IsLms (p + d) ↔ d = m := by
  constructor
  · intro hlms
    by_contra hne
    have hmem : p + d ∈ nexts s p := by
      rw [nexts_eq, List.mem_filter, List.mem_range'_1, Bool.and_eq_true, Bool.not_eq_true']
      have hlt : p + d < s.length := hlms.2.1
      exact ⟨⟨by omega, by omega⟩, hlms.2.2.2, hlms.2.2.1⟩
    rw [next] at hmem
    rcases List.mem_cons.mp hmem with heq | hlater
    · omega
    · have := (isLms_of_nexts (h := h) hlater).2
      omega
  · intro heq
    subst heq
    exact (isLms_of_nexts (h := h) (by rw [next]; exact List.mem_cons_self)).1

private theorem next_bounds (next : nexts s p = (p + m) :: nexts s (p + m)) :
    0 < m ∧ p + m < s.length := by
  rcases nexts_cases s p with ⟨hnil, -⟩ | ⟨r, hcons, hlt, hin, -⟩
  · rw [hnil] at next
    cases next
  · obtain rfl := (List.cons.inj (hcons.symm.trans next)).1
    exact ⟨by omega, hin⟩

private theorem isLms_at (next : nexts s p = (p + m) :: nexts s (p + m)) (le : d ≤ m)
    (h : Ended 0 s) : (d = 0 → decide (d = m) = false) ∧
      (d ≠ 0 → isLms (classify s) (p + d) = some (decide (d = m))) := by
  have hbounds := next_bounds next
  constructor
  · intro hzero
    exact decide_eq_false (by omega)
  · intro hne
    rw [isLms_eq h (by omega)]
    exact congrArg some (decide_eq_decide.mpr
      (isLms_iff_of_next next (Nat.pos_of_ne_zero hne) le))

private theorem lmsSubstrEqFrom_turn {types : List Bool} {a b : Bool} (hp : p + d < s.length)
    (hq : q + d < s.length) (first : (d = 0 → a = false) ∧ (d ≠ 0 → isLms types (p + d) = some a))
    (second : (d = 0 → b = false) ∧ (d ≠ 0 → isLms types (q + d) = some b)) :
    lmsSubstrEqFrom s types p q d =
      if a && b then some true
      else if a != b then some false
      else types[p + d]?.bind fun pType => types[q + d]?.bind fun qType =>
        if s[p + d]? ≠ s[q + d]? ∨ pType ≠ qType then some false
        else lmsSubstrEqFrom s types p q (d + 1) := by
  rw [lmsSubstrEqFrom, dif_neg (by omega)]
  by_cases hzero : d = 0
  · simp only [if_pos hzero, first.1 hzero, second.1 hzero, Option.bind_eq_bind, Option.bind_some]
  · simp only [if_neg hzero, first.2 hzero, second.2 hzero, Option.bind_eq_bind, Option.bind_some]

private theorem head_ne_iff (h : Ended 0 s) (hp : p < s.length) (hq : q < s.length) :
    s[p]? ≠ s[q]? ∨ (text s h).small p ≠ (text s h).small q ↔ head s p ≠ head s q := by
  have hhead : head s p = head s q ↔ (text s h).letter p = (text s h).letter q ∧
      (text s h).small p = (text s h).small q := Text.head_eq_iff (t := text s h)
  rw [letter_get h hp, letter_get h hq, Ne, Option.some.injEq, Ne, Ne, hhead]
  tauto

private theorem take_succ_drop (lt : p + d < s.length) :
    ((typed s).drop p).take (d + 1) = ((typed s).drop p).take d ++ [head s (p + d)] := by
  rw [List.take_add_one, drop_get lt]
  rfl

private theorem lmsSubstrEqFrom_eq (h : Ended 0 s) (next : nexts s p = (p + m) :: nexts s (p + m))
    (next' : nexts s q = (q + m') :: nexts s (q + m')) (le : d ≤ m) (le' : d ≤ m')
    (same : ((typed s).drop p).take d = ((typed s).drop q).take d) :
    lmsSubstrEqFrom s (classify s) p q d =
      some (decide (m = m' ∧ ((typed s).drop p).take m = ((typed s).drop q).take m)) := by
  have hbounds := next_bounds next
  have hbounds' := next_bounds next'
  induction hn : m - d generalizing d with
  | zero =>
    obtain rfl : d = m := by omega
    rw [lmsSubstrEqFrom_turn (by omega) (by omega) (isLms_at next le h) (isLms_at next' le' h)]
    by_cases heq : d = m'
    · simp [← heq, same]
    · simp [heq]
  | succ n ih =>
    have hne : d ≠ m := by omega
    have hp : p + d < s.length := by omega
    have hq : q + d < s.length := by omega
    rw [lmsSubstrEqFrom_turn hp hq (isLms_at next le h) (isLms_at next' le' h),
      decide_eq_false hne, Bool.false_and, if_neg Bool.false_ne_true]
    by_cases heq : d = m'
    · have hapart : m ≠ m' := by omega
      rw [decide_eq_true heq, decide_eq_false (fun hsame => hapart hsame.1)]
      rfl
    · rw [decide_eq_false heq, bne_self_eq_false, if_neg Bool.false_ne_true, types_get h hp,
        types_get h hq]
      show (if _ then _ else _) = _
      by_cases hhead : head s (p + d) = head s (q + d)
      · rw [if_neg (fun hdiff => (head_ne_iff h hp hq).mp hdiff hhead)]
        apply ih (by omega) (by omega) _ (by omega)
        rw [take_succ_drop hp, take_succ_drop hq, same, hhead]
      · rw [if_pos ((head_ne_iff h hp hq).mpr hhead)]
        apply congrArg some (decide_eq_false _).symm
        intro hsame
        have hget := congrArg (·[d]?) hsame.2
        simp only [List.getElem?_take_of_lt (show d < m by omega), drop_get hp, drop_get hq] at hget
        exact hhead (Option.some.inj hget)

private theorem nexts_last (s : List Nat) : nexts s (s.length - 1) = [] := by
  rcases nexts_cases s (s.length - 1) with ⟨hnil, -⟩ | ⟨r, -, hlt, hin, -⟩
  · exact hnil
  · omega

private theorem next_of_lt (h : Ended 0 s) (lt : p + 1 < s.length) :
    ∃ m, nexts s p = (p + m) :: nexts s (p + m) := by
  rcases nexts_cases s p with ⟨hnil, -⟩ | ⟨r, hcons, hlt, -⟩
  · have hlast : (text s h).IsLms (s.length - 1) :=
      Text.isLms_last (t := text s h) (show 1 < s.length by omega)
    have hmem : s.length - 1 ∈ nexts s p := by
      rw [nexts_eq, List.mem_filter, List.mem_range'_1, Bool.and_eq_true, Bool.not_eq_true']
      exact ⟨⟨by omega, by omega⟩, hlast.2.2.2, hlast.2.2.1⟩
    rw [hnil] at hmem
    cases hmem
  · exact ⟨r - p, by rwa [Nat.add_sub_cancel' (Nat.le_of_lt hlt)]⟩

private theorem alike_last (s : List Nat) (p : Nat) : Alike rising (typed s) p (s.length - 1) ↔
    p = s.length - 1 := by
  constructor
  · intro halike
    rcases halike with heq | ⟨m, -, hnext, -⟩
    · exact heq
    · have hnil := nexts_last s
      rw [nexts, hnext] at hnil
      cases hnil
  · exact Or.inl

private theorem alike_iff (next : nexts s p = (p + m) :: nexts s (p + m))
    (next' : nexts s q = (q + m') :: nexts s (q + m')) : Alike rising (typed s) p q ↔
      m = m' ∧ ((typed s).drop p).take m = ((typed s).drop q).take m := by
  constructor
  · intro halike
    rcases halike with heq | ⟨w, hw, hw', hsame⟩
    · subst heq
      have hm := (List.cons.inj (next.symm.trans next')).1
      exact ⟨by omega, rfl⟩
    · have hm := (List.cons.inj (next.symm.trans hw)).1
      have hm' := (List.cons.inj (next'.symm.trans hw')).1
      obtain rfl : m = w := by omega
      exact ⟨by omega, hsame⟩
  · intro hsame
    obtain ⟨heq, htake⟩ := hsame
    subst heq
    exact .inr ⟨m, next, next', htake⟩

private theorem alike_of_sub (hp : p < s.length) (hq : q < s.length)
    (same : sub s p = sub s q) : Alike rising (typed s) p q := by
  rcases nexts_cases s p with ⟨hnil, hall⟩ | ⟨r, hcons, hlt, hin, -, hlength⟩
  · have hnil' : nexts s q = [] := rises_eq_nil_of_substr same hnil
    rcases nexts_cases s q with ⟨-, hall'⟩ | ⟨r, hcons, -⟩
    · have hlengths := congrArg List.length (hall.symm.trans (same.trans hall'))
      rw [List.length_drop, List.length_drop, typed_length] at hlengths
      exact .inl (by omega)
    · rw [hnil'] at hcons
      cases hcons
  · rcases nexts_cases s q with ⟨hnil', -⟩ | ⟨r', hcons', hlt', -, -, hlength'⟩
    · have hnil : nexts s p = [] := rises_eq_nil_of_substr same.symm hnil'
      rw [hnil] at hcons
      cases hcons
    · have htake {i : Nat} : (sub s i) = ((typed s).drop i).take (sub s i).length :=
        (List.prefix_iff_eq_take.mp (prefix_of_substr rising _))
      rw [← same] at hlength'
      refine .inr ⟨r - p, ?_, ?_, ?_⟩
      · rw [Nat.add_sub_cancel' (Nat.le_of_lt hlt)]
        exact hcons
      · rw [show q + (r - p) = r' by omega]
        exact hcons'
      · have hfront := congrArg (List.take (r - p)) (htake.symm.trans (same.trans htake))
        rw [← same, List.take_take, List.take_take, Nat.min_eq_left (by omega)] at hfront
        exact hfront

private theorem lmsSubstrEq_eq (h : Ended 0 s) (hp : p < s.length) (hq : q < s.length) :
    ∃ b, lmsSubstrEq s (classify s) p q = some b ∧ (b = true ↔ Alike rising (typed s) p q) := by
  by_cases hlast : p = s.length - 1 ∨ q = s.length - 1
  · refine ⟨decide (p = q), by rw [lmsSubstrEq, if_pos hlast], ?_⟩
    rw [decide_eq_true_eq]
    rcases hlast with hlast | hlast
    · constructor
      · exact Or.inl
      · intro halike
        rw [hlast] at halike ⊢
        exact ((alike_last s q).mp halike.symm).symm
    · rw [hlast, alike_last s p]
  · obtain ⟨m, next⟩ := next_of_lt h (show p + 1 < s.length by omega)
    obtain ⟨m', next'⟩ := next_of_lt h (show q + 1 < s.length by omega)
    refine ⟨_, ?_, decide_eq_true_iff.trans (alike_iff next next').symm⟩
    rw [lmsSubstrEq, if_neg hlast]
    exact lmsSubstrEqFrom_eq h next next' (Nat.zero_le _) (Nat.zero_le _) rfl

end Compare

section Names

variable {s : List Nat} {h : Ended 0 s} {done : List Nat} {name : Nat → Nat} {n : Names}
  {p q v : Nat}

/-- Substrings that are done have names in their order, which only alike ones share. -/
structure Named (s done : List Nat) (name : Nat → Nat) (n : Names) : Prop where
  length : n.names.length = s.length / 2 + 1
  get : ∀ p ∈ done, n.names[p / 2]? = some (name p)
  lt : ∀ p ∈ done, name p < n.name
  used : ∀ v < n.name, ∃ p ∈ done, name p = v
  ordered : ∀ p ∈ done, ∀ q ∈ done, name p < name q → sub s p < sub s q
  shared : ∀ p ∈ done, ∀ q ∈ done, name p = name q → Alike rising (typed s) p q
  prev : (n.prev = none ∧ done = [] ∧ n.name = 0) ∨
    ∃ q ∈ done, n.prev = some q ∧ name q + 1 = n.name

private theorem half_ne (hp : (text s h).IsLms p) (hq : (text s h).IsLms q) (ne : q ≠ p) :
    q / 2 ≠ p / 2 := by
  intro heq
  have hsmall := hp.2.2.1
  have hsmall' := hq.2.2.1
  have hbefore := hp.2.2.2
  have hbefore' := hq.2.2.2
  have hpos := hp.1
  have hpos' := hq.1
  rcases show q = p - 1 ∨ p = q - 1 by omega with hnear | hnear
  · rw [hnear, hbefore] at hsmall'
    cases hsmall'
  · rw [hnear, hbefore'] at hsmall
    cases hsmall

/-- One more name, not before the others. -/
theorem Named.extend {prev : Option Nat} {count : Nat} (named : Named s done name n)
    (new : p ∉ done) (inside : p < s.length) (apart : ∀ q ∈ done, q / 2 ≠ p / 2)
    (le : n.name ≤ count) (hv : v + 1 = count) (old : ∀ w < count, w ≠ v → w < n.name)
    (above : ∀ q ∈ done, name q < v → sub s q < sub s p)
    (alike : ∀ q ∈ done, name q = v → Alike rising (typed s) q p)
    (last : prev = some p ∨ ∃ q ∈ done, prev = some q ∧ name q = v) :
    Named s (done ++ [p]) (Function.update name p v) ⟨n.names.set (p / 2) v, count, prev⟩ := by
  have hold : ∀ q ∈ done, Function.update name p v q = name q := by
    intro q hq
    apply Function.update_of_ne
    intro heq
    rw [heq] at hq
    exact new hq
  have hself : Function.update name p v p = v := Function.update_self p v name
  have hmem : ∀ q, q ∈ done ++ [p] ↔ q ∈ done ∨ q = p := by
    intro q
    rw [List.mem_append, List.mem_singleton]
  have hbelow : ∀ q ∈ done, ¬ v < name q := by
    intro q hq
    have := named.lt q hq
    omega
  constructor
  case length => rw [List.length_set, named.length]
  case get =>
    intro q hq
    rcases (hmem q).mp hq with hq | rfl
    · rw [hold q hq, List.getElem?_set_ne (apart q hq).symm, named.get q hq]
    · rw [hself, List.getElem?_set_self (by rw [named.length]; omega)]
  case lt =>
    intro q hq
    rcases (hmem q).mp hq with hq | rfl
    · rw [hold q hq]
      exact Nat.lt_of_lt_of_le (named.lt q hq) le
    · rw [hself]
      exact Nat.lt_of_succ_le (Nat.le_of_eq hv)
  case used =>
    intro w hw
    by_cases heq : w = v
    · exact ⟨p, (hmem p).mpr (.inr rfl), hself.trans heq.symm⟩
    · obtain ⟨q, hq, hname⟩ := named.used w (old w hw heq)
      exact ⟨q, (hmem q).mpr (.inl hq), (hold q hq).trans hname⟩
  case ordered =>
    intro q hin r hin'
    rcases (hmem q).mp hin with hq | rfl
    · rcases (hmem r).mp hin' with hr | rfl
      · rw [hold q hq, hold r hr]
        exact named.ordered q hq r hr
      · rw [hold q hq, hself]
        exact above q hq
    · rcases (hmem r).mp hin' with hr | rfl
      · rw [hself, hold r hr]
        exact fun hlt => absurd hlt (hbelow r hr)
      · exact fun hlt => absurd hlt (Nat.lt_irrefl _)
  case shared =>
    intro q hin r hin'
    rcases (hmem q).mp hin with hq | rfl
    · rcases (hmem r).mp hin' with hr | rfl
      · rw [hold q hq, hold r hr]
        exact named.shared q hq r hr
      · rw [hold q hq, hself]
        exact alike q hq
    · rcases (hmem r).mp hin' with hr | rfl
      · rw [hself, hold r hr]
        exact fun heq => (alike r hr heq.symm).symm
      · exact fun _ => .inl rfl
  case prev =>
    rcases last with hprev | ⟨q, hq, hprev, hname⟩
    · exact .inr ⟨p, (hmem p).mpr (.inr rfl), hprev, by rw [hself, hv]⟩
    · exact .inr ⟨q, (hmem q).mpr (.inl hq), hprev, by rw [hold q hq, hname, hv]⟩

/-- The loop gives the next substring in the order its name. -/
theorem Named.add (named : Named s done name n) (h : Ended 0 s) (inside : p < s.length)
    (new : p ∉ done) (apart : ∀ q ∈ done, q / 2 ≠ p / 2) (within : ∀ q ∈ done, q < s.length)
    (sorted : ∀ q ∈ done, sub s q < sub s p ∨ sub s q = sub s p) :
    ∃ next name', Names.add s (classify s) n p = some next ∧ Named s (done ++ [p]) name' next := by
  have hstore (v : Nat) : store n.names (p / 2) v = some (n.names.set (p / 2) v) :=
    store_of_lt (by rw [named.length]; omega) v
  -- a new name
  have hfresh (hnone : ∀ q ∈ done, sub s q ≠ sub s p) :
      Named s (done ++ [p]) (Function.update name p n.name)
        ⟨n.names.set (p / 2) n.name, n.name + 1, some p⟩ := by
    apply named.extend new inside apart (Nat.le_succ _) rfl (by omega) _ _ (.inl rfl)
    · intro q hq _
      exact (sorted q hq).resolve_right (hnone q hq)
    · intro q hq heq
      exact absurd heq (Nat.ne_of_lt (named.lt q hq))
  rw [Names.add]
  rcases named.prev with ⟨hprev, rfl, hzero⟩ | ⟨q, hq, hprev, hname⟩
  · rw [hprev]
    refine ⟨_, _, ?_, hfresh (by simp)⟩
    show (if n.name + 1 = 0 then none else (store n.names (p / 2) n.name).bind _) = _
    rw [if_neg (Nat.succ_ne_zero _), hstore]
    rfl
  · obtain ⟨b, hb, hiff⟩ := lmsSubstrEq_eq h inside (within q hq)
    rw [hprev]
    show ∃ next name', ((lmsSubstrEq s (classify s) p q).map (!·)).bind _ = some next ∧ _
    rw [hb]
    cases b with
    | false =>
      have hnot : ¬Alike rising (typed s) p q := fun halike => Bool.false_ne_true (hiff.mpr halike)
      refine ⟨_, _, ?_, hfresh ?_⟩
      · show (if n.name + 1 = 0 then none else (store n.names (p / 2) n.name).bind _) = _
        rw [if_neg (Nat.succ_ne_zero _), hstore]
        rfl
      · intro r hr hsame
        have hle : name r ≤ name q := by
          have := named.lt r hr
          omega
        rcases Nat.lt_or_eq_of_le hle with hlt | heq
        · have hless := named.ordered r hr q hq hlt
          rw [hsame] at hless
          rcases sorted q hq with hbelow | hsame'
          · exact lt_asymm hless hbelow
          · exact ne_of_gt hless hsame'
        · have halike := alike_of_sub (within r hr) inside hsame
          exact hnot (halike.symm.trans (named.shared r hr q hq heq))
    | true =>
      have halike : Alike rising (typed s) q p := (hiff.mp rfl).symm
      refine ⟨_, Function.update name p (name q), ?_, named.extend new inside apart
        (Nat.le_refl _) hname (by omega) ?_ ?_ (.inr ⟨q, hq, rfl, rfl⟩)⟩
      · show (if n.name = 0 then none else (store n.names (p / 2) (n.name - 1)).bind _) = _
        rw [if_neg (by omega), hstore, ← hname, Nat.add_sub_cancel]
        rfl
      · intro r hr hlt
        have hfirst := named.ordered r hr q hq hlt
        rcases sorted q hq with hless | hsame
        · exact lt_trans hfirst hless
        · exact hsame ▸ hfirst
      · intro r hr heq
        exact (named.shared r hr q hq heq).trans halike

private theorem names_spec (h : Ended 0 s) {sorted : List Nat}
    (lms : ∀ p ∈ sorted, (text s h).IsLms p) (nodup : sorted.Nodup)
    (ordered : sorted.Pairwise fun p q => sub s p < sub s q ∨ sub s p = sub s q) :
    ∃ n name, sorted.foldlM (Names.add s (classify s))
        ⟨List.replicate (s.length / 2 + 1) vacant, 0, none⟩ = some n ∧
      Named s sorted name n := by
  have hstart : Named s [] id ⟨List.replicate (s.length / 2 + 1) vacant, 0, none⟩ := by
    constructor <;> simp
  obtain ⟨n, hn, name, hnamed⟩ := @foldlM_done _ _ (Names.add s (classify s))
    (fun done n => ∃ name, Named s done name n) sorted _ ⟨id, hstart⟩ (by
      intro done p rest hsorted n hn
      obtain ⟨name, hnamed⟩ := hn
      have hin : ∀ q ∈ done, q ∈ sorted := by
        intro q hq
        rw [hsorted]
        exact List.mem_append_left _ hq
      have hp : (text s h).IsLms p := lms p (by rw [hsorted]; simp)
      rw [hsorted] at nodup ordered
      have hnew := (List.nodup_append.mp nodup).2.2
      have hne : ∀ q ∈ done, q ≠ p := fun q hq => hnew q hq p List.mem_cons_self
      obtain ⟨next, name', hnext, hmore⟩ := hnamed.add h hp.2.1 (fun hq => hne p hq rfl)
        (fun q hq => half_ne hp (lms q (hin q hq)) (hne q hq)) (fun q hq => (lms q (hin q hq)).2.1)
        (fun q hq => (List.pairwise_append.mp ordered).2.2 q hq p List.mem_cons_self)
      exact ⟨next, hnext, name', hmore⟩)
  exact ⟨n, name, hn, hnamed⟩

end Names

section Reduced

variable {s : List Nat} {h : Ended 0 s} {k : Nat} {cs : List Nat} {name : Nat → Nat} {count : Nat}
  {p q : Nat}

/-- Names of the LMS positions, in the order of their substrings. -/
structure Naming (s : List Nat) (h : Ended 0 s) (name : Nat → Nat) (count : Nat) : Prop where
  lt : ∀ {p}, (text s h).IsLms p → name p < count
  used : ∀ v < count, ∃ p, (text s h).IsLms p ∧ name p = v
  ordered : ∀ {p q}, (text s h).IsLms p → (text s h).IsLms q → name p < name q → sub s p < sub s q
  shared : ∀ {p q}, (text s h).IsLms p → (text s h).IsLms q → name p = name q →
    Alike rising (typed s) p q

theorem reduce_spec (h : Ended 0 s) (within : ∀ c ∈ s, c < k) (long : 1 < s.length)
    (short : s.length ≤ vacant) (counted : Holds cs k fun c => s.count c) :
    ∃ name count, reduce s (classify s) cs =
        some ⟨lmsOf (text s h), (lmsOf (text s h)).map name, count⟩ ∧ Naming s h name count := by
  generalize hqs : (lmsOf (text s h)).reverse = qs
  have harranged : Arranged (text s h) qs := hqs ▸ arranged_reverse _
  have hkeys := keys harranged.seeds
  obtain ⟨slots, hslots, hplaced⟩ := @seedPositions_spec s h k cs within counted
  rw [hqs] at hplaced
  obtain ⟨sa, hsa, hranked⟩ := induce_spec hkeys harranged.seeds within long short counted hplaced
  have hin : ∀ p, p ∈ sa ↔ p < s.length := fun p => hranked.mem_iff hkeys
  have hpairwise := hranked.pairwise hkeys
  have hkeep : keep (fun p => if p ≠ vacant ∧ 0 < p then isLms (classify s) p else some false) sa =
      some (sa.filter fun p => decide ((text s h).IsLms p)) := by
    apply keep_eq_filter
    intro p hp
    have hlt := (hin p).mp hp
    by_cases hzero : p = 0
    · subst hzero
      rw [if_neg (by simp), decide_eq_false (fun hlms => absurd hlms.1 (Nat.lt_irrefl 0))]
    · rw [if_pos ⟨by omega, Nat.pos_of_ne_zero hzero⟩, isLms_eq h hlt]
  generalize hsorted : (sa.filter fun p => decide ((text s h).IsLms p)) = sorted at hkeep
  have hmem : ∀ p, p ∈ sorted ↔ (text s h).IsLms p := by
    intro p
    rw [← hsorted, List.mem_filter, decide_eq_true_eq, hin]
    exact and_iff_right_of_imp fun hlms => hlms.2.1
  have hordered : sorted.Pairwise fun p q => key s (seedOf (text s h) qs) p <
      key s (seedOf (text s h) qs) q := hsorted ▸ hpairwise.filter _
  have hnodup : sorted.Nodup := by
    apply hordered.imp
    intro p q hlt heq
    subst heq
    exact lt_irrefl _ hlt
  obtain ⟨n, name, hn, hnamed⟩ := names_spec h (fun p hp => (hmem p).mp hp) hnodup
    (hordered.imp fun hlt => (key_lt_iff.mp hlt).imp id And.left)
  have hperm : (lmsOf (text s h)).Perm sorted := by
    apply (List.perm_ext_iff_of_nodup ((List.nodup_range' 1).filter _) hnodup).mpr
    intro p
    rw [hmem, ← mem_lmsOf]
    rfl
  have hnames : (lmsOf (text s h)).mapM (fun p => n.names[p / 2]?) =
      some ((lmsOf (text s h)).map name) := by
    apply mapM_eq_map
    intro p hp
    exact hnamed.get p ((hmem p).mpr ((mem_lmsOf _ p).mp hp))
  refine ⟨name, n.name, ?_, ?_⟩
  · simp only [reduce, hslots, hsa, hkeep, hn, lmsPositions_eq h, Option.bind_eq_bind,
      Option.bind_some, hperm.length_eq, ne_eq, not_true_eq_false, if_false, hnames]
  · constructor
    · intro p hp
      exact hnamed.lt p ((hmem p).mpr hp)
    · intro v hv
      obtain ⟨p, hp, heq⟩ := hnamed.used v hv
      exact ⟨p, (hmem p).mp hp, heq⟩
    · intro p q hp hq
      exact hnamed.ordered p ((hmem p).mpr hp) q ((hmem q).mpr hq)
    · intro p q hp hq
      exact hnamed.shared p ((hmem p).mpr hp) q ((hmem q).mpr hq)

private theorem isLms_of_next (h : Ended 0 s) {p q : Nat} (next : nexts s p = q :: nexts s q) :
    (text s h).IsLms q ∧ p < q :=
  isLms_of_nexts (by rw [next]; exact List.mem_cons_self)

private theorem lmsOf_eq (h : Ended 0 s) : lmsOf (text s h) = nexts s 0 := by
  rw [nexts_eq, lmsOf]
  show ((List.range' 1 (s.length - 1)).filter _) = _
  apply List.filter_congr
  intro i hi
  rw [List.mem_range'_1] at hi
  apply Bool.eq_iff_iff.mpr
  rw [decide_eq_true_eq, Bool.and_eq_true, Bool.not_eq_true']
  constructor
  · intro hlms
    exact ⟨hlms.2.2.2, hlms.2.2.1⟩
  · intro htypes
    refine ⟨hi.1, ?_, htypes.2, htypes.1⟩
    show i < s.length
    omega

namespace Naming

private theorem last_eq (naming : Naming s h name count) (long : 1 < s.length) :
    name (s.length - 1) = 0 := by
  have hlast : (text s h).IsLms (s.length - 1) := Text.isLms_last (t := text s h) long
  by_contra hne
  obtain ⟨p, hp, hzero⟩ := naming.used 0 (Nat.zero_lt_of_lt (naming.lt hlast))
  have hlt := naming.ordered hp hlast (by omega)
  have hinside : p + 1 < s.length := by
    by_contra hnot
    have hlt : p < s.length := hp.2.1
    obtain rfl : p = s.length - 1 := by omega
    exact hne hzero
  -- the last substring is a single letter, the smallest of all
  obtain ⟨rest, hrest⟩ := sub_cons hp.2.1
  have hsingle : sub s (s.length - 1) = [head s (s.length - 1)] := by
    rw [SuffixKeys.sub, drop_typed (by omega), List.drop_eq_nil_of_le (by rw [typed_length]; omega)]
    rfl
  rw [hrest, hsingle, head_last h] at hlt
  have hpos := lt_head h hinside
  rcases List.cons_lt_cons_iff.mp hlt with hhead | ⟨-, hnil⟩
  · rcases Prod.Lex.toLex_lt_toLex'.mp hhead with ⟨hle, -⟩
    exact Nat.not_lt_of_le hle hpos
  · exact List.not_lt_nil _ hnil

private theorem pos_of_ne_last (naming : Naming s h name count) (hp : (text s h).IsLms p)
    (lt : p + 1 < s.length) : 0 < name p := by
  apply Nat.pos_of_ne_zero
  intro hzero
  have hlong : 1 < s.length := by omega
  have hlast : (text s h).IsLms (s.length - 1) := Text.isLms_last (t := text s h) hlong
  have halike := naming.shared hp hlast (hzero.trans (naming.last_eq hlong).symm)
  have := (alike_last s p).mp halike
  omega

private theorem ended_from (naming : Naming s h name count) (hp : (text s h).IsLms p) :
    Ended 0 ((p :: nexts s p).map name) := by
  induction hm : s.length - p using Nat.strong_induction_on generalizing p with
  | _ m ih =>
    have hlong : 1 < s.length := Nat.lt_of_le_of_lt hp.1 hp.2.1
    by_cases hlast : p + 1 < s.length
    · obtain ⟨d, hnext⟩ := next_of_lt h hlast
      have hbounds := next_bounds hnext
      rw [hnext, List.map_cons]
      exact .cons (naming.pos_of_ne_last hp hlast)
        (ih (s.length - (p + d)) (by omega) (isLms_of_next h hnext).1 rfl)
    · have hlt : p < s.length := hp.2.1
      obtain rfl : p = s.length - 1 := by omega
      rw [nexts_last s, List.map_singleton, naming.last_eq hlong]
      exact .last

theorem ended (naming : Naming s h name count) (long : 1 < s.length) :
    Ended 0 ((lmsOf (text s h)).map name) := by
  obtain ⟨d, hnext⟩ := @next_of_lt s 0 h long
  rw [lmsOf_eq, hnext]
  exact naming.ended_from (isLms_of_next h hnext).1

private theorem drop_lmsOf {a : Nat} (get : (lmsOf (text s h))[a]? = some p) :
    (lmsOf (text s h)).drop a = p :: nexts s p := by
  rw [lmsOf_eq] at get ⊢
  exact drop_rises get

theorem drop_lt_iff (naming : Naming s h name count) {a b : Nat}
    (hp : (lmsOf (text s h))[a]? = some p) (hq : (lmsOf (text s h))[b]? = some q) :
    ((lmsOf (text s h)).map name).drop a < ((lmsOf (text s h)).map name).drop b ↔
      s.drop p < s.drop q := by
  have hlms := (mem_lmsOf _ p).mp (List.mem_of_getElem? hp)
  have hlms' := (mem_lmsOf _ q).mp (List.mem_of_getElem? hq)
  rw [← List.map_drop, ← List.map_drop, drop_lmsOf hp, drop_lmsOf hq,
    ← typed_drop_lt_iff h hlms.2.1 hlms'.2.1]
  exact names_lt_iff (fun p q _ hnext => (isLms_of_next h hnext).1)
    (fun p q hp hq => naming.ordered hp hq) (fun p q hp hq => naming.shared hp hq) hlms hlms'

end Naming

end Reduced

end Fbz.Bzip2.Bwt
