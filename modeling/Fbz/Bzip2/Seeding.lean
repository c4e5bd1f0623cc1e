import Fbz.Bzip2.InducedPasses
import Mathlib.Data.List.Nodup

/-!
# Places of the LMS positions

The LMS positions take the places of their buckets from the end, in whatever order they come. A
position that comes later has a place before.
-/

namespace Fbz.Bzip2.Bwt

open Checked InducedSort SuffixKeys SuffixOrder

/-- All LMS positions in some order. -/
structure Arranged (t : Text Nat) (qs : List Nat) : Prop where
  nodup : qs.Nodup
  mem_iff : ∀ q, q ∈ qs ↔ t.IsLms q

/-- The positions of a bucket up to this one. -/
def ahead (t : Text Nat) (qs : List Nat) (q : Nat) : Nat :=
  (qs.take (qs.idxOf q + 1)).countP fun p => decide (t.letter p = t.letter q)

def seedOf (t : Text Nat) (qs : List Nat) (q : Nat) : Nat := t.stop (t.letter q) - ahead t qs q

section Places

variable {t : Text Nat} {qs : List Nat} {p q : Nat}

private theorem stop_eq (t : Text Nat) (c : Nat) :
    t.stop c = t.middle c + t.count fun i => t.letter i = c ∧ t.small i = true := by
  have hstop : t.stop c = t.start c + t.count fun i => t.letter i = c :=
    Text.count_or (fun i _ => Nat.le_iff_lt_or_eq) fun i _ hlt heq => absurd heq (Nat.ne_of_lt hlt)
  have hbucket : (t.count fun i => t.letter i = c) =
      (t.count fun i => t.letter i = c ∧ t.small i = false) +
        t.count fun i => t.letter i = c ∧ t.small i = true := by
    apply Text.count_or
    · intro i _
      cases t.small i <;> simp
    · rintro i _ ⟨-, hlarge⟩ ⟨-, hsmall⟩
      rw [hlarge] at hsmall
      cases hsmall
  rw [hstop, hbucket, Text.middle, Nat.add_assoc]

private theorem Arranged.countP_le (a : Arranged t qs) (m c : Nat) :
    t.middle c + (qs.take m).countP (fun p => decide (t.letter p = c)) ≤ t.stop c := by
  rw [stop_eq]
  apply Nat.add_le_add_left
  have hnodup : ((qs.take m).filter fun p => decide (t.letter p = c)).Nodup :=
    (a.nodup.sublist (List.take_sublist m qs)).filter _
  rw [List.countP_eq_length_filter, ← List.toFinset_card_of_nodup hnodup, Text.count]
  apply Finset.card_le_card
  intro i hi
  rw [List.mem_toFinset, List.mem_filter, decide_eq_true_eq] at hi
  have hlms := (a.mem_iff i).mp (List.mem_of_mem_take hi.1)
  rw [Finset.mem_filter, Finset.mem_range]
  exact ⟨hlms.2.1, hi.2, hlms.2.2.1⟩

private theorem ahead_pos (mem : q ∈ qs) : 0 < ahead t qs q := by
  apply List.countP_pos_iff.mpr
  refine ⟨q, ?_, decide_eq_true rfl⟩
  have hget : qs[qs.idxOf q]? = some q := by
    rw [List.getElem?_eq_getElem (List.idxOf_lt_length_of_mem mem), List.getElem_idxOf]
  rw [List.mem_iff_getElem?]
  exact ⟨qs.idxOf q, by rw [List.getElem?_take_of_lt (Nat.lt_succ_self _), hget]⟩

private theorem ahead_lt (mem : q ∈ qs) (letter : t.letter p = t.letter q)
    (lt : qs.idxOf p < qs.idxOf q) : ahead t qs p < ahead t qs q := by
  have hget : qs[qs.idxOf q]? = some q := by
    rw [List.getElem?_eq_getElem (List.idxOf_lt_length_of_mem mem), List.getElem_idxOf]
  have hlast : qs.take (qs.idxOf q + 1) = qs.take (qs.idxOf q) ++ [q] := by
    rw [List.take_add_one, hget]
    rfl
  have hle : (qs.take (qs.idxOf p + 1)).countP (fun p => decide (t.letter p = t.letter q)) ≤
      (qs.take (qs.idxOf q)).countP fun p => decide (t.letter p = t.letter q) :=
    (List.take_sublist_take_left lt).countP_le
  rw [ahead, ahead, letter, hlast, List.countP_append, List.countP_singleton,
    if_pos (decide_eq_true rfl)]
  omega

private theorem Arranged.seedOf_bounds (a : Arranged t qs) (lms : t.IsLms q) :
    t.middle (t.letter q) ≤ seedOf t qs q ∧ seedOf t qs q < t.stop (t.letter q) ∧
      seedOf t qs q + ahead t qs q = t.stop (t.letter q) := by
  have hle := a.countP_le (qs.idxOf q + 1) (t.letter q)
  have hpos := @ahead_pos t qs q ((a.mem_iff q).mpr lms)
  rw [seedOf]
  rw [ahead] at hpos ⊢
  omega

theorem Arranged.seedOf_lt_iff (a : Arranged t qs) (hp : t.IsLms p) (hq : t.IsLms q)
    (letter : t.letter p = t.letter q) :
    seedOf t qs p < seedOf t qs q ↔ qs.idxOf q < qs.idxOf p := by
  obtain ⟨-, -, hsum⟩ := a.seedOf_bounds hp
  obtain ⟨-, -, hsum'⟩ := a.seedOf_bounds hq
  rw [letter] at hsum
  rcases Nat.lt_trichotomy (qs.idxOf p) (qs.idxOf q) with hlt | heq | hgt
  · have := @ahead_lt t qs p q ((a.mem_iff q).mpr hq) letter hlt
    omega
  · obtain rfl := List.idxOf_inj ((a.mem_iff p).mpr hp) |>.mp heq
    simp
  · have := @ahead_lt t qs q p ((a.mem_iff p).mpr hp) letter.symm hgt
    omega

theorem Arranged.seeds (a : Arranged t qs) : t.Seeds (seedOf t qs) where
  ge hq := (a.seedOf_bounds hq).1
  lt hq := (a.seedOf_bounds hq).2.1
  inj := by
    intro p q hp hq heq
    obtain ⟨hge, hlt, -⟩ := a.seedOf_bounds hp
    obtain ⟨hge', hlt', -⟩ := a.seedOf_bounds hq
    have hletter : t.letter p = t.letter q := by
      rcases Nat.lt_trichotomy (t.letter p) (t.letter q) with hless | hsame | hless
      · have hapart := Text.stop_le_start (t := t) hless
        rw [Text.middle] at hge'
        omega
      · exact hsame
      · have hapart := Text.stop_le_start (t := t) hless
        rw [Text.middle] at hge
        omega
    have hiff := a.seedOf_lt_iff hp hq hletter
    have hiff' := a.seedOf_lt_iff hq hp hletter.symm
    rw [heq] at hiff hiff'
    have hidx : qs.idxOf p = qs.idxOf q := by omega
    exact (List.idxOf_inj ((a.mem_iff p).mpr hp)).mp hidx

end Places

section Loops

variable {s : List Nat} {h : Ended 0 s} {k : Nat} {qs : List Nat} {cs : List Nat}

private theorem pushBack_seed {done rest : List Nat} {q : Nat} {slots : Slots}
    (a : Arranged (text s h) qs) (within : ∀ c ∈ s, c < k) (split : qs = done ++ q :: rest)
    (bucket : Holds slots.bucket k fun c =>
      (text s h).stop c - done.countP fun p => decide ((text s h).letter p = c))
    (placed : Placed s.length slots.sa (· ∈ done) (seedOf (text s h) qs)) :
    ∃ next, slots.pushBack s q = some next ∧
      (Holds next.bucket k fun c =>
        (text s h).stop c - (done ++ [q]).countP fun p => decide ((text s h).letter p = c)) ∧
      Placed s.length next.sa (· ∈ done ++ [q]) (seedOf (text s h) qs) := by
  generalize ht : text s h = t at *
  have hnodup := a.nodup
  rw [split, List.nodup_append] at hnodup
  have hnew : q ∉ done := fun hmem => hnodup.2.2 q hmem q List.mem_cons_self rfl
  have hmem : q ∈ qs := by rw [split]; simp
  have hlms : t.IsLms q := (a.mem_iff q).mp hmem
  have hsize : t.size = s.length := by rw [← ht]; rfl
  have hlt : q < s.length := hsize ▸ hlms.2.1
  have hletter : s[q]? = some (t.letter q) := ht ▸ letter_get h hlt
  have hk : t.letter q < k := ht ▸ letter_lt (h := h) within hlt
  have hahead : ahead t qs q = (done.countP fun p => decide (t.letter p = t.letter q)) + 1 := by
    have hidx : qs.idxOf q = done.length := by
      rw [split, List.idxOf_append_of_notMem hnew, List.idxOf_cons_self, Nat.add_zero]
    have htake : qs.take (done.length + 1) = done ++ [q] := by
      rw [split, List.take_append, List.take_of_length_le (Nat.le_succ _),
        Nat.add_sub_cancel_left]
      rfl
    rw [ahead, hidx, htake, List.countP_append, List.countP_singleton, if_pos (decide_eq_true rfl)]
  obtain ⟨-, hless, hsum⟩ := a.seedOf_bounds hlms
  have hstop : t.stop (t.letter q) - (done.countP fun p => decide (t.letter p = t.letter q)) =
      seedOf t qs q + 1 := by omega
  have hinside : seedOf t qs q < s.length := by
    apply Nat.lt_of_lt_of_le hless
    rw [← hsize]
    exact (Finset.card_filter_le _ _).trans (Nat.le_of_eq (Finset.card_range _))
  have hstore : store slots.sa (seedOf t qs q) q = some (slots.sa.set (seedOf t qs q) q) :=
    store_of_lt (by rwa [placed.length]) q
  refine ⟨⟨slots.bucket.set (t.letter q) (seedOf t qs q), slots.sa.set (seedOf t qs q) q⟩,
    ?_, ?_, ?_⟩
  · rw [Slots.pushBack, hletter]
    show (slots.bucket[t.letter q]?).bind _ = _
    rw [bucket.get _ hk, hstop]
    show (if seedOf t qs q + 1 = 0 then none else
      (store slots.sa (seedOf t qs q) q).bind _) = _
    rw [if_neg (Nat.succ_ne_zero _), hstore]
    rfl
  · apply (bucket.set hk _).congr
    intro c _
    rw [List.countP_append, List.countP_singleton]
    by_cases heq : c = t.letter q
    · subst heq
      rw [Function.update_self, if_pos (decide_eq_true rfl)]
      omega
    · have hne : ¬ decide (t.letter q = c) = true := by
        rw [decide_eq_true_eq]
        exact fun hsame => heq hsame.symm
      rw [Function.update_of_ne heq, if_neg hne, Nat.add_zero]
  · apply placed.set hinside
    · intro p hp heq
      have hlms' : t.IsLms p := (a.mem_iff p).mp (by rw [split]; simp [hp])
      exact hnew (a.seeds.inj hlms' hlms heq ▸ hp)
    · intro p
      rw [List.mem_append, List.mem_singleton]

theorem seed_spec (a : Arranged (text s h) qs) (within : ∀ c ∈ s, c < k)
    (counted : Holds cs k fun c => s.count c) :
    ∃ slots : Slots, qs.foldlM (fun slots q => Slots.pushBack slots s q)
        ⟨bucketEnds cs, List.replicate s.length vacant⟩ = some slots ∧
      Placed s.length slots.sa (text s h).IsLms (seedOf (text s h) qs) := by
  obtain ⟨last, hlast, -, hplaced⟩ := @foldlM_done _ _ (fun slots q => Slots.pushBack slots s q)
    (fun done (slots : Slots) => (Holds slots.bucket k fun c =>
        (text s h).stop c - done.countP fun p => decide ((text s h).letter p = c)) ∧
      Placed s.length slots.sa (· ∈ done) (seedOf (text s h) qs)) qs
    ⟨bucketEnds cs, List.replicate s.length vacant⟩
    ⟨(bucketEnds_holds h counted).congr fun c _ => by rw [List.countP_nil, Nat.sub_zero],
      (placed_none _ _).congr fun p => by simp⟩
    fun done q rest split slots state => pushBack_seed a within split state.1 state.2
  exact ⟨last, hlast, hplaced.congr a.mem_iff⟩

private theorem foldlM_filter {σ α : Type} {f g : σ → α → Option σ} {p : α → Bool} (xs : List α)
    (start : σ) (same : ∀ state, ∀ x ∈ xs, f state x = if p x then g state x else some state) :
    xs.foldlM f start = (xs.filter p).foldlM g start := by
  induction xs generalizing start with
  | nil => rfl
  | cons x xs ih =>
    have hrest : ∀ state, xs.foldlM f state = (xs.filter p).foldlM g state := by
      intro state
      exact ih state fun other y hy => same other y (List.mem_cons_of_mem _ hy)
    rw [List.foldlM_cons, same start x List.mem_cons_self, List.filter_cons]
    cases p x with
    | true =>
      rw [if_pos rfl, if_pos rfl, List.foldlM_cons]
      congr 1
      funext state
      exact hrest state
    | false => exact hrest start

/-- The LMS positions in the order of the string. -/
def lmsOf (t : Text Nat) : List Nat :=
  (List.range' 1 (t.size - 1)).filter fun i => decide (t.IsLms i)

theorem mem_lmsOf (t : Text Nat) (q : Nat) : q ∈ lmsOf t ↔ t.IsLms q := by
  rw [lmsOf, List.mem_filter, List.mem_range'_1, decide_eq_true_eq]
  constructor
  · exact And.right
  · intro hlms
    have hpos := hlms.1
    have hlt := hlms.2.1
    exact ⟨⟨hpos, by omega⟩, hlms⟩

theorem lmsPositions_eq (h : Ended 0 s) : lmsPositions (classify s) = some (lmsOf (text s h)) := by
  rw [lmsPositions, classify_length]
  apply keep_eq_filter
  intro i hi
  rw [List.mem_range'_1] at hi
  exact isLms_eq h (by omega)

theorem arranged_reverse (t : Text Nat) : Arranged t (lmsOf t).reverse where
  nodup := List.nodup_reverse.mpr ((List.nodup_range' 1).filter _)
  mem_iff q := by rw [List.mem_reverse, mem_lmsOf]

/-- The first loop seeds the LMS positions from the last to the first. -/
theorem seedPositions_spec (within : ∀ c ∈ s, c < k) (counted : Holds cs k fun c => s.count c) :
    ∃ slots, (List.range' 1 (s.length - 1)).reverse.foldlM (seedPosition s (classify s))
        ⟨bucketEnds cs, List.replicate s.length vacant⟩ = some slots ∧
      Placed s.length slots.sa (text s h).IsLms
        (seedOf (text s h) (lmsOf (text s h)).reverse) := by
  have hfilter : (List.range' 1 (s.length - 1)).reverse.foldlM (seedPosition s (classify s))
      ⟨bucketEnds cs, List.replicate s.length vacant⟩ =
        (lmsOf (text s h)).reverse.foldlM (fun slots q => Slots.pushBack slots s q)
          ⟨bucketEnds cs, List.replicate s.length vacant⟩ := by
    rw [lmsOf, ← List.filter_reverse]
    apply foldlM_filter
    intro slots i hi
    rw [List.mem_reverse, List.mem_range'_1] at hi
    rw [seedPosition, isLms_eq h (by omega)]
    rfl
  rw [hfilter]
  exact seed_spec (arranged_reverse _) within counted

end Loops

end Fbz.Bzip2.Bwt
