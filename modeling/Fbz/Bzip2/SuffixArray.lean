import Fbz.Bzip2.Naming
import Mathlib.Data.List.Perm.Subperm

/-!
# The suffix array of the encoder

Where all names are distinct, they are the places of the LMS suffixes; otherwise the recursion sorts
them. Seeded in that order, the second pass sorts all suffixes.
-/

namespace Fbz.Bzip2.Bwt

open Checked InducedSort SuffixKeys SuffixOrder

private theorem invert_spec {names : List Nat} (perm : names.Perm (List.range names.length)) :
    ∃ order, invert names = some order ∧ IsSuffixArray names order := by
  have hnodup : names.Nodup := perm.nodup_iff.mpr List.nodup_range
  have hlt : ∀ v, v ∈ names ↔ v < names.length := by
    intro v
    rw [perm.mem_iff, List.mem_range]
  obtain ⟨order, horder, hlength, hget⟩ := @foldlM_done _ _
    (fun order (entry : Nat × Nat) => store order entry.1 entry.2)
    (fun done order => order.length = names.length ∧
      ∀ entry ∈ done, order[entry.1]? = some entry.2) names.zipIdx (List.replicate names.length 0)
    ⟨List.length_replicate, by simp⟩ (by
      intro done entry rest hsplit order hinv
      obtain ⟨hlength, hget⟩ := hinv
      have hfirst : names = done.map Prod.fst ++ entry.1 :: rest.map Prod.fst := by
        rw [← List.zipIdx_map_fst 0 names, hsplit, List.map_append, List.map_cons]
      have hin : entry.1 < order.length := by
        rw [hlength, ← hlt, hfirst]
        simp
      refine ⟨order.set entry.1 entry.2, store_of_lt hin _, by rw [List.length_set, hlength], ?_⟩
      intro other hother
      rcases List.mem_append.mp hother with hold | hnew
      · have hne : other.1 ≠ entry.1 := by
          rw [hfirst] at hnodup
          exact (List.nodup_append.mp hnodup).2.2 _ (List.mem_map_of_mem hold) _ List.mem_cons_self
        rw [List.getElem?_set_ne hne.symm, hget other hold]
      · obtain rfl := List.mem_singleton.mp hnew
        rw [List.getElem?_set_self hin])
  have hat : ∀ v a : Nat, names[a]? = some v → order[v]? = some a := by
    intro v a ha
    exact hget (v, a) (List.mk_mem_zipIdx_iff_getElem?.mpr ha)
  have hname : ∀ v < order.length, ∃ a : Nat, names[a]? = some v := by
    intro v hv
    rw [hlength, ← hlt] at hv
    exact List.mem_iff_getElem?.mp hv
  refine ⟨order, horder, ?_, ?_⟩
  · intro a
    constructor
    · intro hmem
      obtain ⟨v, hv⟩ := List.mem_iff_getElem?.mp hmem
      obtain ⟨b, hb⟩ := hname v (List.getElem?_eq_some_iff.mp hv).1
      rw [hat v b hb] at hv
      obtain rfl := Option.some.inj hv
      exact (List.getElem?_eq_some_iff.mp hb).1
    · intro hlt
      exact List.mem_of_getElem? (hat _ a (List.getElem?_eq_getElem hlt))
  · apply List.pairwise_iff_getElem.mpr
    intro v w hv hw hless
    obtain ⟨a, ha⟩ := hname v hv
    obtain ⟨b, hb⟩ := hname w hw
    have hfirst := hat v a ha
    have hsecond := hat w b hb
    rw [List.getElem?_eq_getElem hv] at hfirst
    rw [List.getElem?_eq_getElem hw] at hsecond
    obtain ⟨hina, hgeta⟩ := List.getElem?_eq_some_iff.mp ha
    obtain ⟨hinb, hgetb⟩ := List.getElem?_eq_some_iff.mp hb
    rw [Option.some.inj hfirst, Option.some.inj hsecond, List.drop_eq_getElem_cons hina,
      List.drop_eq_getElem_cons hinb, hgeta, hgetb]
    exact List.cons_lt_cons_iff.mpr (.inl hless)

private theorem names_perm {names : List Nat} {count : Nat} (used : ∀ v < count, v ∈ names)
    (le : names.length ≤ count) : names.Perm (List.range names.length) := by
  have hsub : (List.range count).Subperm names := by
    apply List.nodup_range.subperm
    intro v hv
    exact used v (List.mem_range.mp hv)
  have hperm := hsub.perm_of_length_le (by rwa [List.length_range])
  have hlength := hperm.length_eq
  rw [List.length_range] at hlength
  rw [← hlength]
  exact hperm.symm

section Second

variable {s : List Nat} {h : Ended 0 s} {k : Nat} {cs : List Nat} {name : Nat → Nat} {count : Nat}

private theorem foldlM_map {σ α β : Type} {f : σ → α → Option σ} {g : σ → β → Option σ} {e : α → β}
    (xs : List α) (start : σ) (same : ∀ state, ∀ x ∈ xs, f state x = g state (e x)) :
    xs.foldlM f start = (xs.map e).foldlM g start := by
  induction xs generalizing start with
  | nil => rfl
  | cons x xs ih =>
    rw [List.foldlM_cons, same start x List.mem_cons_self, List.map_cons, List.foldlM_cons]
    congr 1
    funext state
    exact ih state fun other y hy => same other y (List.mem_cons_of_mem _ hy)

private theorem idxOf_lt_iff {κ : Type} [LinearOrder κ] {f : Nat → κ} {l : List Nat} {p q : Nat}
    (descends : l.Pairwise fun x y => f y < f x) (hp : p ∈ l) (hq : q ∈ l) :
    l.idxOf q < l.idxOf p ↔ f p < f q := by
  have hlt {x y : Nat} (hx : x ∈ l) (hy : y ∈ l) (lt : l.idxOf x < l.idxOf y) : f y < f x := by
    have := List.pairwise_iff_getElem.mp descends _ _ (List.idxOf_lt_length_of_mem hx)
      (List.idxOf_lt_length_of_mem hy) lt
    rwa [List.getElem_idxOf, List.getElem_idxOf] at this
  rcases Nat.lt_trichotomy (l.idxOf q) (l.idxOf p) with hless | heq | hgt
  · exact iff_of_true hless (hlt hq hp hless)
  · obtain rfl := (List.idxOf_inj hq).mp heq
    exact iff_of_false (Nat.lt_irrefl _) (lt_irrefl _)
  · exact iff_of_false (Nat.lt_asymm hgt) (lt_asymm (hlt hp hq hgt))

private theorem sortFrom_spec (naming : Naming s h name count) (within : ∀ c ∈ s, c < k)
    (long : 1 < s.length) (short : s.length ≤ vacant) (counted : Holds cs k fun c => s.count c)
    {order : List Nat} (sorted : IsSuffixArray ((lmsOf (text s h)).map name) order) :
    ∃ sa, sortFrom s (classify s) cs (lmsOf (text s h)) order = some sa ∧ IsSuffixArray s sa := by
  generalize hpositions : lmsOf (text s h) = positions at sorted
  have hlms : ∀ q, q ∈ positions ↔ (text s h).IsLms q := hpositions ▸ mem_lmsOf (text s h)
  have hlength : order.length = positions.length := by rw [sorted.length_eq, List.length_map]
  have hin : ∀ a, a ∈ order ↔ a < positions.length := by
    intro a
    rw [sorted.mem_iff, List.length_map]
  have hget {a : Nat} (lt : a < positions.length) : positions[a]? = some (positions.getD a 0) := by
    rw [List.getElem?_eq_getElem lt, List.getD_eq_getElem _ _ lt]
  have hascends : (order.map fun a => positions.getD a 0).Pairwise fun p q =>
      s.drop p < s.drop q := by
    apply List.pairwise_map.mpr
    apply sorted.sorted.imp_of_mem
    intro a b ha hb hlt
    subst hpositions
    exact (naming.drop_lt_iff (hget ((hin a).mp ha)) (hget ((hin b).mp hb))).mp hlt
  have hdescends := List.pairwise_reverse.mpr hascends
  generalize hqs : (order.map fun a => positions.getD a 0).reverse = qs at hdescends
  have harranged : Arranged (text s h) qs := by
    constructor
    · apply hdescends.imp
      intro p q hlt heq
      subst heq
      exact lt_irrefl _ hlt
    · intro q
      rw [← hqs, List.mem_reverse, List.mem_map, ← hlms, List.mem_iff_getElem?]
      apply exists_congr
      intro a
      constructor
      · intro ha
        rw [hget ((hin a).mp ha.1), ha.2]
      · intro ha
        obtain ⟨hlt, -⟩ := List.getElem?_eq_some_iff.mp ha
        rw [hget hlt] at ha
        exact ⟨(hin a).mpr hlt, Option.some.inj ha⟩
  have hloop : ∀ start, (List.range positions.length).reverse.foldlM (seedRow s positions order)
      start = qs.foldlM (fun slots q => Slots.pushBack slots s q) start := by
    intro start
    have hrows : (List.range positions.length).reverse.map
        (fun i => positions.getD (order.getD i 0) 0) = qs := by
      rw [List.map_reverse, ← hqs, ← hlength]
      apply congrArg List.reverse
      apply List.ext_getElem
      · rw [List.length_map, List.length_map, List.length_range]
      · intro i hi hi'
        rw [List.length_map] at hi'
        rw [List.getElem_map, List.getElem_map, List.getElem_range, List.getD_eq_getElem order _ hi']
    rw [← hrows]
    apply foldlM_map
    intro slots i hi
    rw [List.mem_reverse, List.mem_range, ← hlength] at hi
    have hrow : order.getD i 0 = order[i] := List.getD_eq_getElem _ _ hi
    rw [seedRow, List.getElem?_eq_getElem hi, hrow]
    show (positions[order[i]]?).bind _ = _
    rw [hget ((hin _).mp (List.getElem_mem hi))]
    rfl
  have hsorted : Sorted h (seedOf (text s h) qs) := by
    intro p q hp hq hletter
    rw [harranged.seedOf_lt_iff hp hq hletter]
    exact idxOf_lt_iff hdescends ((harranged.mem_iff p).mpr hp) ((harranged.mem_iff q).mpr hq)
  have hkeys := keys harranged.seeds
  obtain ⟨slots, hslots, hplaced⟩ := @seed_spec s h k qs cs harranged within counted
  obtain ⟨sa, hsa, hranked⟩ := induce_spec hkeys harranged.seeds within long short counted hplaced
  refine ⟨sa, ?_, ?_, ?_⟩
  · rw [sortFrom, hloop, hslots]
    exact hsa
  · intro p
    exact hranked.mem_iff hkeys
  · apply (hranked.pairwise hkeys).imp_of_mem
    intro p q hp hq hlt
    have hp := (hranked.mem_iff hkeys).mp hp
    have hq := (hranked.mem_iff hkeys).mp hq
    exact (key_lt_iff_drop hsorted hp hq).mp hlt

end Second

private theorem sais_eq {s cs : List Nat} {k : Nat} {r : Reduced} (long : 1 < s.length)
    (counted : counts s k = some cs) (reduced : reduce s (classify s) cs = some r) :
    sais s k = (if r.name < r.positions.length then sais r.names r.name else invert r.names).bind
      (sortFrom s (classify s) cs r.positions) := by
  rw [sais, if_neg (by omega), dif_neg (by omega), counted]
  simp only [Option.bind_eq_bind, Option.bind_some]
  split
  · rename_i hnone
    rw [reduced] at hnone
    cases hnone
  · rename_i r' hsome
    rw [reduced] at hsome
    obtain rfl := Option.some.inj hsome
    by_cases hshared : r.name < r.positions.length
    · rw [if_pos hshared, if_pos hshared]
    · rw [if_neg hshared, if_neg hshared]

/-- A string that ends with its only zero has its suffixes sorted. -/
theorem sais_spec {s : List Nat} {k : Nat} (h : Ended 0 s) (within : ∀ c ∈ s, c < k)
    (short : s.length ≤ vacant) : ∃ sa, sais s k = some sa ∧ IsSuffixArray s sa := by
  induction hm : s.length using Nat.strong_induction_on generalizing s k with
  | _ m ih =>
    have hpos := List.length_pos_iff.mpr h.ne_nil
    by_cases hone : s.length = 1
    · refine ⟨[0], by rw [sais, if_pos hone], ?_, by simp⟩
      intro p
      rw [List.mem_singleton, hone, Nat.lt_one_iff]
    · have hlong : 1 < s.length := by omega
      obtain ⟨cs, hcs, hcounted⟩ := counts_spec within
      obtain ⟨name, count, hreduce, hnaming⟩ := reduce_spec h within hlong short hcounted
      have hlms := hnaming.ended hlong
      have hbelow : ∀ v ∈ (lmsOf (text s h)).map name, v < count := by
        intro v hv
        obtain ⟨p, hp, rfl⟩ := List.mem_map.mp hv
        exact hnaming.lt ((mem_lmsOf _ p).mp hp)
      have hless : ((lmsOf (text s h)).map name).length < s.length := by
        have hle := List.length_filter_le (fun i => decide ((text s h).IsLms i))
          (List.range' 1 (s.length - 1))
        rw [List.length_range'] at hle
        rw [List.length_map, lmsOf]
        exact Nat.lt_of_le_of_lt hle (by omega)
      have horder : ∃ order, (if count < (lmsOf (text s h)).length then
            sais ((lmsOf (text s h)).map name) count
          else invert ((lmsOf (text s h)).map name)) = some order ∧
          IsSuffixArray ((lmsOf (text s h)).map name) order := by
        by_cases hshared : count < (lmsOf (text s h)).length
        · rw [if_pos hshared]
          exact ih _ (by omega) hlms hbelow (by omega) rfl
        · rw [if_neg hshared]
          have hcount : ((lmsOf (text s h)).map name).length ≤ count := by
            rw [List.length_map]
            omega
          refine invert_spec (names_perm (fun v hv => ?_) hcount)
          obtain ⟨p, hp, hname⟩ := hnaming.used v hv
          exact List.mem_map.mpr ⟨p, (mem_lmsOf _ p).mpr hp, hname⟩
      obtain ⟨order, horder, hsuffixes⟩ := horder
      obtain ⟨sa, hsa, harray⟩ := sortFrom_spec hnaming within hlong short hcounted hsuffixes
      refine ⟨sa, ?_, harray⟩
      rw [sais_eq hlong hcs hreduce, horder]
      exact hsa

end Fbz.Bzip2.Bwt
