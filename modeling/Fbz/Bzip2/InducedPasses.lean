import Fbz.Bzip2.Bwt
import Fbz.Lib.Program
import Fbz.Lib.SuffixKeys

/-!
# The passes of induced sorting

Buckets count down from their ends while the LMS positions are seeded, up from their starts in the
first pass and down again in the second. Each position is written where its rank says, before it is
read.
-/

namespace Fbz.Bzip2.Bwt

open Checked InducedSort SuffixKeys SuffixOrder

private theorem classify_eq {c : Nat} {s : List Nat} (h : Ended c s) :
    classify s = (typed s).map rising := by
  induction h with
  | last => rfl
  | @cons a u hlt hu ih =>
    cases u with
    | nil => exact absurd rfl hu.ne_nil
    | cons b u =>
      have hdecide : decide (a :: b :: u < b :: u) = if a < b then true else if b < a then false
          else (u.isEmpty || decide (b :: u < u)) := by
        rcases Nat.lt_trichotomy a b with hab | rfl | hba
        · rw [if_pos hab]
          exact decide_eq_true (List.cons_lt_cons_iff.mpr (.inl hab))
        · have hmore : u.isEmpty = false := by
            cases hu with
            | last => exact absurd hlt (Nat.lt_irrefl _)
            | cons _ hrest => exact hrest.isEmpty
          rw [if_neg (Nat.lt_irrefl _), if_neg (Nat.lt_irrefl _), hmore, Bool.false_or]
          exact decide_eq_decide.mpr (by rw [List.cons_lt_cons_self])
        · rw [if_neg (Nat.not_lt_of_gt hba), if_pos hba]
          apply decide_eq_false
          intro hless
          rcases List.cons_lt_cons_iff.mp hless with hab | ⟨hab, -⟩
          · exact Nat.lt_asymm hab hba
          · exact Nat.ne_of_gt hba hab
      rw [classify, ih]
      exact congrArg (· :: (typed (b :: u)).map rising) hdecide.symm

section String

variable {s : List Nat} {h : Ended 0 s} {i k : Nat}

theorem letter_get (h : Ended 0 s) (lt : i < s.length) : s[i]? = some ((text s h).letter i) := by
  have hlt : i < (typed s).length := by rwa [typed_length]
  have hget : ((typed s).map fun e => (ofLex e).1)[i]? = s[i]? := by rw [map_fst_typed]
  rw [List.getElem?_map, List.getElem?_eq_getElem hlt] at hget
  rw [← hget]
  show some _ = some (ofLex (head s i)).1
  rw [head, List.getD_eq_getElem _ _ hlt]

theorem types_get (h : Ended 0 s) (lt : i < s.length) :
    (classify s)[i]? = some ((text s h).small i) := by
  have hlt : i < (typed s).length := by rwa [typed_length]
  rw [classify_eq h, List.getElem?_map, List.getElem?_eq_getElem hlt]
  show some _ = some (rising (head s i))
  rw [head, List.getD_eq_getElem _ _ hlt]

instance isLmsDecidable (t : Text Nat) : DecidablePred t.IsLms := fun q =>
  inferInstanceAs (Decidable (0 < q ∧ q < t.size ∧ t.small q = true ∧ t.small (q - 1) = false))

theorem isLms_eq (h : Ended 0 s) (lt : i < s.length) :
    isLms (classify s) i = some (decide ((text s h).IsLms i)) := by
  rw [isLms]
  by_cases hzero : i = 0
  · rw [if_pos hzero, decide_eq_false (fun hlms => Nat.ne_of_gt hlms.1 hzero)]
  · rw [if_neg hzero, types_get h lt, types_get h (Nat.lt_of_le_of_lt (Nat.sub_le i 1) lt)]
    have hpos : 0 < i := Nat.pos_of_ne_zero hzero
    cases hsmall : (text s h).small i with
    | false =>
      have hnot : ¬ (text s h).IsLms i := by
        intro hlms
        rw [hlms.2.2.1] at hsmall
        cases hsmall
      rw [decide_eq_false hnot]
      rfl
    | true =>
      cases hbefore : (text s h).small (i - 1) with
      | false =>
        rw [decide_eq_true (show (text s h).IsLms i from ⟨hpos, lt, hsmall, hbefore⟩)]
        rfl
      | true =>
        have hnot : ¬ (text s h).IsLms i := by
          intro hlms
          rw [hlms.2.2.2] at hbefore
          cases hbefore
        rw [decide_eq_false hnot]
        rfl

private theorem count_letters (h : Ended 0 s) (P : Nat → Prop) [DecidablePred P] :
    (text s h).count (fun i => P ((text s h).letter i)) = s.countP fun c => decide (P c) := by
  have hletters : (List.range s.length).map (text s h).letter = s := by
    apply List.ext_getElem?
    intro i
    rw [List.getElem?_map]
    by_cases hlt : i < s.length
    · rw [List.getElem?_range hlt, letter_get h hlt]
      rfl
    · rw [List.getElem?_eq_none (by simpa using hlt), List.getElem?_eq_none (by simpa using hlt)]
      rfl
  conv_rhs => rw [← hletters]
  rw [List.countP_map, List.countP_eq_length_filter]
  rfl

theorem counts_spec (within : ∀ c ∈ s, c < k) :
    ∃ cs, counts s k = some cs ∧ Holds cs k fun c => s.count c := by
  apply @foldlM_done _ _ count (fun done cs => Holds cs k fun c => done.count c)
  · exact Holds.replicate k 0
  · intro done c rest hs cs hholds
    have hlt : c < k := within c (by rw [hs]; simp)
    refine ⟨cs.set c (done.count c + 1), ?_, ?_⟩
    · rw [count, hholds.get c hlt]
      exact hholds.store hlt _
    · apply (hholds.set hlt _).congr
      intro other _
      exact (count_concat done c other).symm

private theorem bucketStartsFrom_get (cs : List Nat) (sum : Nat) {c : Nat} (lt : c < cs.length) :
    (bucketStartsFrom sum cs)[c]? = some (sum + (cs.take c).sum) := by
  induction cs generalizing sum c with
  | nil => cases lt
  | cons count cs ih =>
    cases c with
    | zero => rfl
    | succ c =>
      rw [bucketStartsFrom, List.getElem?_cons_succ, ih _ (Nat.lt_of_succ_lt_succ lt),
        List.take_succ_cons, List.sum_cons, Nat.add_assoc]

private theorem bucketEndsFrom_get (cs : List Nat) (sum : Nat) {c : Nat} (lt : c < cs.length) :
    (bucketEndsFrom sum cs)[c]? = some (sum + (cs.take (c + 1)).sum) := by
  induction cs generalizing sum c with
  | nil => cases lt
  | cons count cs ih =>
    cases c with
    | zero =>
      rw [bucketEndsFrom, List.take_succ_cons, List.take_zero, List.sum_singleton]
      rfl
    | succ c =>
      rw [bucketEndsFrom, List.getElem?_cons_succ, ih _ (Nat.lt_of_succ_lt_succ lt),
        List.take_succ_cons, List.sum_cons, Nat.add_assoc]

private theorem bucketStartsFrom_length (cs : List Nat) (sum : Nat) :
    (bucketStartsFrom sum cs).length = cs.length := by
  induction cs generalizing sum with
  | nil => rfl
  | cons count cs ih => rw [bucketStartsFrom, List.length_cons, List.length_cons, ih]

private theorem bucketEndsFrom_length (cs : List Nat) (sum : Nat) :
    (bucketEndsFrom sum cs).length = cs.length := by
  induction cs generalizing sum with
  | nil => rfl
  | cons count cs ih => rw [bucketEndsFrom, List.length_cons, List.length_cons, ih]

private theorem sum_counts (s : List Nat) (c : Nat) :
    ((List.range c).map fun d => s.count d).sum = s.countP fun d => decide (d < c) := by
  induction c with
  | zero => simp
  | succ c ih =>
    have hsplit : (s.countP fun d => decide (d < c + 1)) =
        (s.countP fun d => decide (d < c)) + s.count c := by
      clear ih
      induction s with
      | nil => rfl
      | cons d s ih =>
        rw [List.countP_cons, List.countP_cons, List.count_cons, ih]
        rcases Nat.lt_trichotomy d c with hlt | rfl | hgt
        · have hne : d ≠ c := Nat.ne_of_lt hlt
          simp [hlt, Nat.lt_succ_of_lt hlt, hne]
          omega
        · simp
          omega
        · have hne : d ≠ c := Nat.ne_of_gt hgt
          have hnot : ¬ d < c + 1 := by omega
          simp [hnot, Nat.not_lt_of_gt hgt, hne]
    rw [List.range_succ, List.map_append, List.sum_append, ih, hsplit, List.map_singleton,
      List.sum_singleton]

private theorem take_counts {cs : List Nat} (holds : Holds cs k fun c => s.count c) {c : Nat}
    (le : c ≤ k) : (cs.take c).sum = s.countP fun d => decide (d < c) := by
  rw [holds.eq_map, ← List.map_take, List.take_range, Nat.min_eq_left le, sum_counts]

private theorem bucketStarts_holds (h : Ended 0 s) {cs : List Nat}
    (holds : Holds cs k fun c => s.count c) : Holds (bucketStarts cs) k (text s h).start := by
  refine ⟨(bucketStartsFrom_length cs 0).trans holds.length, ?_⟩
  intro c hlt
  rw [bucketStarts, bucketStartsFrom_get cs 0 (by rwa [holds.length]), take_counts holds
    (Nat.le_of_lt hlt), Nat.zero_add, Text.start, count_letters h (· < c)]

theorem bucketEnds_holds (h : Ended 0 s) {cs : List Nat}
    (holds : Holds cs k fun c => s.count c) : Holds (bucketEnds cs) k (text s h).stop := by
  refine ⟨(bucketEndsFrom_length cs 0).trans holds.length, ?_⟩
  intro c hlt
  have hsame : (s.countP fun d => decide (d < c + 1)) = s.countP fun d => decide (d ≤ c) := by
    apply List.countP_congr
    intro d _
    simp only [decide_eq_true_eq]
    exact Nat.lt_succ_iff
  rw [bucketEnds, bucketEndsFrom_get cs 0 (by rwa [holds.length]), take_counts holds hlt,
    Nat.zero_add, Text.stop, count_letters h (· ≤ c), hsame]

/-- Positions that have been written to their places, and nothing else. -/
structure Placed (n : Nat) (sa : List Nat) (S : Nat → Prop) (place : Nat → Nat) : Prop where
  length : sa.length = n
  get : ∀ p, S p → sa[place p]? = some p
  free : ∀ x < n, (∀ p, S p → place p ≠ x) → sa[x]? = some vacant

theorem placed_none (n : Nat) (place : Nat → Nat) :
    Placed n (List.replicate n vacant) (fun _ => False) place where
  length := List.length_replicate
  get p hp := hp.elim
  free x hx _ := by rw [List.getElem?_replicate, if_pos hx]

theorem Placed.congr {n : Nat} {sa : List Nat} {S S' : Nat → Prop} {place : Nat → Nat}
    (placed : Placed n sa S place) (same : ∀ p, S p ↔ S' p) : Placed n sa S' place where
  length := placed.length
  get p hp := placed.get p ((same p).mpr hp)
  free x hx hfree := placed.free x hx fun p hp => hfree p ((same p).mp hp)

theorem Placed.set {n q : Nat} {sa : List Nat} {S S' : Nat → Prop} {place : Nat → Nat}
    (placed : Placed n sa S place) (inside : place q < n) (own : ∀ p, S p → place p ≠ place q)
    (more : ∀ p, S' p ↔ S p ∨ p = q) : Placed n (sa.set (place q) q) S' place where
  length := by rw [List.length_set, placed.length]
  get p hp := by
    rcases (more p).mp hp with hp | rfl
    · rw [List.getElem?_set_ne (Ne.symm (own p hp)), placed.get p hp]
    · rw [List.getElem?_set_self (by rwa [placed.length])]
  free x hx hfree := by
    have hne : place q ≠ x := hfree q ((more q).mpr (.inr rfl))
    rw [List.getElem?_set_ne hne]
    exact placed.free x hx fun p hp => hfree p ((more p).mpr (.inl hp))

end String

section Passes

variable {κ : Type} [LinearOrder κ] {s : List Nat} {h : Ended 0 s} {k : Nat}
  {seed : Nat → Nat} {key : Nat → κ} {slots : Slots} {i j : Nat}

theorem letter_lt (within : ∀ c ∈ s, c < k) (lt : j < s.length) : (text s h).letter j < k :=
  within _ (List.mem_of_getElem? (letter_get h lt))

/-- The positions that have a place once the first pass has read the places below `i`. -/
def FirstPlaced (t : Text Nat) (seed : Nat → Nat) (key : Nat → κ) (i p : Nat) : Prop :=
  p < t.size ∧ (t.IsLms p ∨ t.small p = false ∧ t.place seed key (p + 1) < i)

structure FirstPass (t : Text Nat) (k : Nat) (seed : Nat → Nat) (key : Nat → κ) (i : Nat)
    (slots : Slots) : Prop where
  bucket : Holds slots.bucket k fun c => t.start c + t.count fun j =>
    t.letter j = c ∧ t.small j = false ∧ t.place seed key (j + 1) < i
  placed : Placed t.size slots.sa (FirstPlaced t seed key i) (t.place seed key)

private theorem FirstPass.stay (pass : FirstPass (text s h) k seed key i slots)
    (none : ∀ j < s.length, (text s h).small j = false → (text s h).place seed key (j + 1) ≠ i) :
    FirstPass (text s h) k seed key (i + 1) slots := by
  have hsame : ∀ j < s.length, (text s h).small j = false →
      ((text s h).place seed key (j + 1) < i ↔ (text s h).place seed key (j + 1) < i + 1) := by
    intro j hj hlarge
    have := none j hj hlarge
    omega
  refine ⟨pass.bucket.congr ?_, pass.placed.congr ?_⟩
  · intro c _
    apply congrArg _ (Text.count_congr _)
    intro j hj
    apply and_congr_right
    intro _
    apply and_congr_right
    exact hsame j hj
  · intro p
    apply and_congr_right
    intro hp
    apply or_congr_right
    apply and_congr_right
    exact hsame p hp

/-- Reading a place adds the one position before it to those of its letter. -/
private theorem large_read {t : Text Nat} {c : Nat}
    (only : ∀ other, other < t.size → t.small other = false →
      t.place seed key (other + 1) = i → other = j)
    (lt : j < t.size) (large : t.small j = false) (here : t.place seed key (j + 1) = i) :
    (t.count fun other => t.letter other = c ∧ t.small other = false ∧
      t.place seed key (other + 1) < i + 1) =
        (t.count fun other => t.letter other = c ∧ t.small other = false ∧
          t.place seed key (other + 1) < i) + if c = t.letter j then 1 else 0 := by
  by_cases heq : c = t.letter j
  · subst heq
    rw [if_pos rfl]
    apply Eq.trans _ (congrArg _ (Text.count_eq_one lt))
    apply Text.count_or
    · intro other hother
      constructor
      · intro hnew
        rcases Nat.lt_or_eq_of_le (Nat.le_of_lt_succ hnew.2.2) with hless | hhere
        · exact .inl ⟨hnew.1, hnew.2.1, hless⟩
        · exact .inr (only other hother hnew.2.1 hhere)
      · rintro (hold | rfl)
        · exact ⟨hold.1, hold.2.1, Nat.lt_succ_of_lt hold.2.2⟩
        · exact ⟨rfl, large, Nat.lt_succ_of_le (Nat.le_of_eq here)⟩
    · rintro other _ hold rfl
      exact absurd here (Nat.ne_of_lt hold.2.2)
  · rw [if_neg heq]
    apply Text.count_congr
    intro other hother
    apply and_congr_right
    intro hletter
    apply and_congr_right
    intro hlarge
    have hne : t.place seed key (other + 1) ≠ i := by
      intro hhere
      rw [only other hother hlarge hhere] at hletter
      exact heq hletter.symm
    omega

/-- The position before the one that is read takes the next place of its bucket. -/
theorem FirstPass.push (keys : (text s h).Keys seed key) (seeds : (text s h).Seeds seed)
    (within : ∀ c ∈ s, c < k) (pass : FirstPass (text s h) k seed key i slots)
    (lt : j < s.length) (large : (text s h).small j = false)
    (here : (text s h).place seed key (j + 1) = i) :
    ∃ next, slots.pushFront s j = some next ∧ FirstPass (text s h) k seed key (i + 1) next := by
  generalize ht : text s h = t at *
  have hsize : t.size = s.length := by rw [← ht]; rfl
  have hletter : s[j]? = some (t.letter j) := ht ▸ letter_get h lt
  have hk : t.letter j < k := ht ▸ letter_lt (h := h) within lt
  rw [← hsize] at lt
  have honly : ∀ other, other < t.size → t.small other = false →
      t.place seed key (other + 1) = i → other = j := by
    intro other hother hlarge heq
    have hinj := keys.place_inj seeds (Text.seen_succ hother hlarge) (Text.seen_succ lt large)
      (heq.trans here.symm)
    omega
  have hplace : t.place seed key j = t.start (t.letter j) + t.count fun other =>
      t.letter other = t.letter j ∧ t.small other = false ∧
        t.place seed key (other + 1) < i := by
    rw [keys.place_eq_count lt large, here]
  have hinside : t.place seed key j < t.size := by
    rw [Text.place_large large]
    exact Text.rank_lt_size lt
  have hstore : store slots.sa (t.place seed key j) j =
      some (slots.sa.set (t.place seed key j) j) :=
    store_of_lt (by rwa [pass.placed.length]) j
  refine ⟨⟨slots.bucket.set (t.letter j) (t.place seed key j + 1),
    slots.sa.set (t.place seed key j) j⟩, ?_, ?_, ?_⟩
  · rw [Slots.pushFront, hletter]
    show (slots.bucket[t.letter j]?).bind _ = _
    rw [pass.bucket.get _ hk, ← hplace]
    show (store slots.sa (t.place seed key j) j).bind _ = _
    rw [hstore]
    rfl
  · apply (pass.bucket.set hk _).congr
    intro c _
    rw [large_read honly lt large here]
    by_cases heq : c = t.letter j
    · subst heq
      rw [Function.update_self, hplace, if_pos rfl, Nat.add_assoc]
    · rw [Function.update_of_ne heq, if_neg heq, Nat.add_zero]
  · apply pass.placed.set hinside
    · intro p hp heq
      have hseen : t.Seen p := by
        refine ⟨hp.1, ?_⟩
        intro hsmall
        rcases hp.2 with hlms | ⟨hlarge, -⟩
        · exact hlms
        · rw [hlarge] at hsmall
          cases hsmall
      have hseen' : t.Seen j := ⟨lt, fun hsmall => by rw [large] at hsmall; cases hsmall⟩
      obtain rfl := keys.place_inj seeds hseen hseen' heq
      rcases hp.2 with hlms | ⟨-, hless⟩
      · rw [hlms.2.2.1] at large
        cases large
      · exact absurd here (Nat.ne_of_lt hless)
    · intro p
      constructor
      · rintro ⟨hp, hlms | ⟨hlarge, hless⟩⟩
        · exact .inl ⟨hp, .inl hlms⟩
        · rcases Nat.lt_or_eq_of_le (Nat.le_of_lt_succ hless) with hless | hhere
          · exact .inl ⟨hp, .inr ⟨hlarge, hless⟩⟩
          · exact .inr (honly p hp hlarge hhere)
      · rintro (⟨hp, hlms | ⟨hlarge, hless⟩⟩ | rfl)
        · exact ⟨hp, .inl hlms⟩
        · exact ⟨hp, .inr ⟨hlarge, Nat.lt_succ_of_lt hless⟩⟩
        · exact ⟨lt, .inr ⟨large, Nat.lt_succ_of_le (Nat.le_of_eq here)⟩⟩

private theorem induceLarge_idle {p : Nat} (read : slots.sa[i]? = some p)
    (idle : p = vacant ∨ p = 0) : induceLarge s (classify s) slots i = some slots := by
  rw [induceLarge, read]
  apply if_neg
  rintro ⟨hne, hpos⟩
  rcases idle with rfl | rfl
  · exact hne rfl
  · exact Nat.lt_irrefl 0 hpos

private theorem induceLarge_succ {small : Bool} (read : slots.sa[i]? = some (j + 1))
    (ne : j + 1 ≠ vacant) (type : (classify s)[j]? = some small) :
    induceLarge s (classify s) slots i = if small then some slots else slots.pushFront s j := by
  rw [induceLarge, read]
  show (if j + 1 ≠ vacant ∧ 0 < j + 1 then (do
    let small ← (classify s)[j + 1 - 1]?
    if small then some slots else slots.pushFront s (j + 1 - 1)) else some slots) = _
  rw [if_pos ⟨ne, Nat.succ_pos j⟩, Nat.add_sub_cancel, type]
  rfl

private theorem FirstPass.step (keys : (text s h).Keys seed key) (seeds : (text s h).Seeds seed)
    (within : ∀ c ∈ s, c < k) (short : s.length ≤ vacant)
    (pass : FirstPass (text s h) k seed key i slots) (lt : i < s.length) :
    ∃ next, induceLarge s (classify s) slots i = some next ∧
      FirstPass (text s h) k seed key (i + 1) next := by
  by_cases hnext : ∃ j < s.length, (text s h).small j = false ∧
      (text s h).place seed key (j + 1) = i
  case pos =>
    obtain ⟨j, hj, hlarge, hhere⟩ := hnext
    have hsucc : j + 1 < s.length := Text.succ_lt_of_large (t := text s h) hj hlarge
    have hplaced : FirstPlaced (text s h) seed key i (j + 1) := by
      refine ⟨hsucc, ?_⟩
      cases hsmall : (text s h).small (j + 1) with
      | true => exact .inl ((Text.seen_succ (t := text s h) hj hlarge).2 hsmall)
      | false =>
        refine .inr ⟨rfl, ?_⟩
        rw [← hhere]
        exact keys.place_succ_lt seeds hsucc hsmall
    have hread := pass.placed.get _ hplaced
    rw [hhere] at hread
    obtain ⟨next, hpush, hpass⟩ := pass.push keys seeds within hj hlarge hhere
    have htype := types_get h hj
    rw [hlarge] at htype
    exact ⟨next, (induceLarge_succ hread (by omega) htype).trans hpush, hpass⟩
  case neg =>
    have hnone : ∀ j < s.length, (text s h).small j = false →
        (text s h).place seed key (j + 1) ≠ i := by
      intro j hj hlarge hhere
      exact hnext ⟨j, hj, hlarge, hhere⟩
    refine ⟨slots, ?_, pass.stay hnone⟩
    by_cases hread : ∃ p, FirstPlaced (text s h) seed key i p ∧ (text s h).place seed key p = i
    case neg =>
      have hfree := pass.placed.free i lt fun p hp hhere => hread ⟨p, hp, hhere⟩
      exact induceLarge_idle hfree (.inl rfl)
    case pos =>
      obtain ⟨p, hp, hhere⟩ := hread
      have hget := pass.placed.get p hp
      rw [hhere] at hget
      cases p with
      | zero => exact induceLarge_idle hget (.inr rfl)
      | succ j =>
        have hsucc : j + 1 < s.length := hp.1
        have hj : j < s.length := Nat.lt_of_succ_lt hsucc
        have hsmall : (text s h).small j = true := by
          by_contra hlarge
          exact hnone j hj (Bool.not_eq_true _ ▸ hlarge) hhere
        have htype := types_get h hj
        rw [hsmall] at htype
        exact induceLarge_succ hget (by omega) htype

/-- The second pass has read the places from `i` on. -/
structure SecondPass (t : Text Nat) (k : Nat) (key : Nat → κ) (i : Nat) (slots : Slots) :
    Prop where
  bucket : Holds slots.bucket k fun c => t.stop c - t.count fun j =>
    t.letter j = c ∧ t.small j = true ∧ j + 1 < t.size ∧ i ≤ t.rank key (j + 1)
  length : slots.sa.length = t.size
  ranked : ∀ p < t.size, (t.small p = true → p + 1 < t.size → i ≤ t.rank key (p + 1)) →
    slots.sa[t.rank key p]? = some p

private theorem SecondPass.stay (pass : SecondPass (text s h) k key (i + 1) slots)
    (none : ∀ j, j + 1 < s.length → (text s h).small j = true →
      (text s h).rank key (j + 1) ≠ i) : SecondPass (text s h) k key i slots := by
  have hsame : ∀ j, (text s h).small j = true → j + 1 < s.length →
      (i ≤ (text s h).rank key (j + 1) ↔ i + 1 ≤ (text s h).rank key (j + 1)) := by
    intro j hsmall hj
    have := none j hj hsmall
    omega
  refine ⟨pass.bucket.congr ?_, pass.length, ?_⟩
  · intro c _
    apply congrArg _ (Text.count_congr _)
    intro j _
    apply and_congr_right
    intro _
    apply and_congr_right
    intro hsmall
    apply and_congr_right
    intro hj
    exact (hsame j hsmall hj).symm
  · intro p hp hready
    apply pass.ranked p hp
    intro hsmall hsucc
    exact (hsame p hsmall hsucc).mp (hready hsmall hsucc)

private theorem SecondPass.push (keys : (text s h).Keys seed key) (within : ∀ c ∈ s, c < k)
    (pass : SecondPass (text s h) k key (i + 1) slots) (lt : j + 1 < s.length)
    (small : (text s h).small j = true) (here : (text s h).rank key (j + 1) = i) :
    ∃ next, slots.pushBack s j = some next ∧ SecondPass (text s h) k key i next := by
  generalize ht : text s h = t at *
  have hsize : t.size = s.length := by rw [← ht]; rfl
  have hletter : s[j]? = some (t.letter j) := ht ▸ letter_get h (Nat.lt_of_succ_lt lt)
  have hk : t.letter j < k := ht ▸ letter_lt (h := h) within (Nat.lt_of_succ_lt lt)
  rw [← hsize] at lt
  have hlt : j < t.size := Nat.lt_of_succ_lt lt
  have honly : ∀ other, other + 1 < t.size → t.rank key (other + 1) = i → other = j := by
    intro other hother heq
    have hinj := keys.rank_inj hother lt (heq.trans here.symm)
    omega
  have hrank : t.stop (t.letter j) - (t.count fun other => t.letter other = t.letter j ∧
      t.small other = true ∧ other + 1 < t.size ∧ i + 1 ≤ t.rank key (other + 1)) =
        t.rank key j + 1 := by
    have hsum := keys.rank_add_count lt small
    rw [here] at hsum
    exact Nat.sub_eq_of_eq_add hsum.symm
  have hcount : (t.count fun other => t.letter other = t.letter j ∧ t.small other = true ∧
      other + 1 < t.size ∧ i ≤ t.rank key (other + 1)) =
        (t.count fun other => t.letter other = t.letter j ∧ t.small other = true ∧
          other + 1 < t.size ∧ i + 1 ≤ t.rank key (other + 1)) + t.count fun other => other = j := by
    apply Text.count_or
    · intro other _
      constructor
      · rintro ⟨hsame, hsmall, hother, hle⟩
        rcases Nat.lt_or_eq_of_le hle with hless | hhere
        · exact .inl ⟨hsame, hsmall, hother, hless⟩
        · exact .inr (honly other hother hhere.symm)
      · rintro (⟨hsame, hsmall, hother, hless⟩ | rfl)
        · exact ⟨hsame, hsmall, hother, Nat.le_of_lt hless⟩
        · exact ⟨rfl, small, lt, Nat.le_of_eq here.symm⟩
    · rintro other _ hold rfl
      exact absurd here.symm (Nat.ne_of_lt hold.2.2.2)
  have hstore : store slots.sa (t.rank key j) j = some (slots.sa.set (t.rank key j) j) :=
    store_of_lt (by rw [pass.length]; exact Text.rank_lt_size hlt) j
  refine ⟨⟨slots.bucket.set (t.letter j) (t.rank key j), slots.sa.set (t.rank key j) j⟩,
    ?_, ?_, ?_, ?_⟩
  · rw [Slots.pushBack, hletter]
    show (slots.bucket[t.letter j]?).bind _ = _
    rw [pass.bucket.get _ hk, hrank]
    show (if t.rank key j + 1 = 0 then none else
      (store slots.sa (t.rank key j) j).bind _) = _
    rw [if_neg (Nat.succ_ne_zero _), hstore]
    rfl
  · apply (pass.bucket.set hk _).congr
    intro c _
    by_cases heq : c = t.letter j
    · subst heq
      rw [Function.update_self, hcount, Text.count_eq_one hlt]
      omega
    · rw [Function.update_of_ne heq]
      apply congrArg _ (Text.count_congr _)
      intro other _
      apply and_congr_right
      intro hletter'
      apply and_congr_right
      intro _
      apply and_congr_right
      intro hother
      have hne : t.rank key (other + 1) ≠ i := by
        intro hhere
        rw [honly other hother hhere] at hletter'
        exact heq hletter'.symm
      omega
  · rw [List.length_set, pass.length]
  · intro p hp hready
    by_cases heq : p = j
    · subst heq
      rw [List.getElem?_set_self (by rw [pass.length]; exact Text.rank_lt_size hlt)]
    · have hne : t.rank key j ≠ t.rank key p := fun hsame => heq (keys.rank_inj hlt hp hsame).symm
      rw [List.getElem?_set_ne hne]
      apply pass.ranked p hp
      intro hsmall hsucc
      apply Nat.lt_of_le_of_ne (hready hsmall hsucc)
      intro hhere
      exact heq (honly p hsucc hhere.symm)

private theorem induceSmall_idle {p : Nat} (read : slots.sa[i]? = some p)
    (idle : p = vacant ∨ p = 0) : induceSmall s (classify s) slots i = some slots := by
  rw [induceSmall, read]
  apply if_neg
  rintro ⟨hne, hpos⟩
  rcases idle with rfl | rfl
  · exact hne rfl
  · exact Nat.lt_irrefl 0 hpos

private theorem induceSmall_succ {small : Bool} (read : slots.sa[i]? = some (j + 1))
    (ne : j + 1 ≠ vacant) (type : (classify s)[j]? = some small) :
    induceSmall s (classify s) slots i = if small then slots.pushBack s j else some slots := by
  rw [induceSmall, read]
  show (if j + 1 ≠ vacant ∧ 0 < j + 1 then (do
    let small ← (classify s)[j + 1 - 1]?
    if small then slots.pushBack s (j + 1 - 1) else some slots) else some slots) = _
  rw [if_pos ⟨ne, Nat.succ_pos j⟩, Nat.add_sub_cancel, type]
  rfl

private theorem SecondPass.step (keys : (text s h).Keys seed key) (within : ∀ c ∈ s, c < k)
    (short : s.length ≤ vacant) (pass : SecondPass (text s h) k key (i + 1) slots)
    (lt : i < s.length) :
    ∃ next, induceSmall s (classify s) slots i = some next ∧
      SecondPass (text s h) k key i next := by
  obtain ⟨p, hp, hrank⟩ := keys.exists_rank (x := i) lt
  have hread : slots.sa[i]? = some p := by
    rw [← hrank]
    apply pass.ranked p hp
    intro hsmall hsucc
    rw [← hrank]
    exact (Text.rank_lt_iff hp).mpr (keys.key_lt_succ hsucc hsmall)
  have honly : ∀ j, j + 1 < s.length → (text s h).rank key (j + 1) = i → j + 1 = p :=
    fun j hj hhere => keys.rank_inj hj hp (hhere.trans hrank.symm)
  cases p with
  | zero =>
    refine ⟨slots, induceSmall_idle hread (.inr rfl), pass.stay ?_⟩
    intro j hj _ hhere
    exact Nat.succ_ne_zero j (honly j hj hhere)
  | succ j =>
    have hsucc : j + 1 < s.length := hp
    have htype := types_get h (Nat.lt_of_succ_lt hsucc)
    cases hsmall : (text s h).small j with
    | true =>
      obtain ⟨next, hpush, hpass⟩ := pass.push keys within hsucc hsmall hrank
      rw [hsmall] at htype
      exact ⟨next, (induceSmall_succ hread (by omega) htype).trans hpush, hpass⟩
    | false =>
      rw [hsmall] at htype
      refine ⟨slots, induceSmall_succ hread (by omega) htype, pass.stay ?_⟩
      intro other hother hsmall' hhere
      obtain rfl : other = j := Nat.succ.inj (honly other hother hhere)
      rw [hsmall] at hsmall'
      cases hsmall'

/-- Each position stands where its rank says. -/
structure Ranked (t : Text Nat) (key : Nat → κ) (sa : List Nat) : Prop where
  length : sa.length = t.size
  get : ∀ p < t.size, sa[t.rank key p]? = some p

/-- Where the substrings have been given places, the passes order all positions. -/
theorem induce_spec (keys : (text s h).Keys seed key) (seeds : (text s h).Seeds seed)
    (within : ∀ c ∈ s, c < k) (long : 1 < s.length) (short : s.length ≤ vacant)
    {cs sa : List Nat} (counted : Holds cs k fun c => s.count c)
    (placed : Placed s.length sa (text s h).IsLms seed) :
    ∃ sorted, induce s sa (classify s) cs = some sorted ∧ Ranked (text s h) key sorted := by
  have hseeded : ∀ p, (text s h).IsLms p → (text s h).place seed key p = seed p :=
    fun p hp => Text.place_small hp.2.2.1
  have hfirst : FirstPass (text s h) k seed key 0 ⟨bucketStarts cs, sa⟩ := by
    constructor
    · apply (bucketStarts_holds h counted).congr
      intro c _
      have hnone : ((text s h).count fun j => (text s h).letter j = c ∧
          (text s h).small j = false ∧ (text s h).place seed key (j + 1) < 0) = 0 := by
        simp [Text.count]
      rw [hnone, Nat.add_zero]
    · refine ⟨placed.length, ?_, ?_⟩
      · rintro p ⟨-, hlms | ⟨-, hless⟩⟩
        · rw [hseeded p hlms]
          exact placed.get p hlms
        · exact absurd hless (Nat.not_lt_zero _)
      · intro x hx hfree
        apply placed.free x hx
        intro p hlms
        rw [← hseeded p hlms]
        exact hfree p ⟨hlms.2.1, .inl hlms⟩
  obtain ⟨large, hlarge, hdone⟩ := foldlM_range hfirst
    fun i hi _ pass => pass.step keys seeds within short hi
  have hinside : ∀ p, (text s h).Seen p → (text s h).place seed key p < s.length := by
    intro p hp
    apply Nat.lt_of_lt_of_le (keys.place_bounds seeds hp).2
    exact (Finset.card_filter_le _ _).trans (Nat.le_of_eq (Finset.card_range _))
  have hsecond : SecondPass (text s h) k key s.length ⟨bucketEnds cs, large.sa⟩ := by
    refine ⟨?_, hdone.placed.length, ?_⟩
    · apply (bucketEnds_holds h counted).congr
      intro c _
      have hnone : ((text s h).count fun j => (text s h).letter j = c ∧
          (text s h).small j = true ∧ j + 1 < (text s h).size ∧
            s.length ≤ (text s h).rank key (j + 1)) = 0 := by
        rw [Text.count, Finset.card_eq_zero, Finset.filter_eq_empty_iff]
        rintro j - ⟨-, -, hj, hle⟩
        exact Nat.not_lt_of_le hle (Text.rank_lt_size hj)
      rw [hnone, Nat.sub_zero]
    · intro p hp hready
      cases hsmall : (text s h).small p with
      | false =>
        have hplace := hdone.placed.get p ⟨hp, .inr ⟨hsmall, hinside _ (Text.seen_succ hp hsmall)⟩⟩
        rwa [Text.place_large hsmall] at hplace
      | true =>
        have hlast : p = s.length - 1 := by
          by_contra hne
          have hlt : p < s.length := hp
          have hsucc : p + 1 < s.length := by omega
          exact Nat.not_lt_of_le (hready hsmall hsucc) (Text.rank_lt_size (t := text s h) hsucc)
        have hlms : (text s h).IsLms p := hlast ▸ Text.isLms_last (t := text s h) long
        have hplace := hdone.placed.get p ⟨hp, .inl hlms⟩
        have hseed : seed (s.length - 1) = 0 := Text.Keys.seed_last seeds long
        have hrank : (text s h).rank key (s.length - 1) = 0 := keys.rank_last
        rw [hseeded p hlms, hlast, hseed] at hplace
        rw [hlast, hrank]
        exact hplace
  obtain ⟨small, hsmall, hsorted⟩ := foldlM_range_reverse hsecond
    fun i hi _ pass => pass.step keys within short hi
  refine ⟨small.sa, ?_, hsorted.length, ?_⟩
  · rw [induce, hlarge]
    show (List.foldlM (induceSmall s (classify s)) ⟨bucketEnds cs, large.sa⟩
      (List.range s.length).reverse).bind _ = _
    rw [hsmall]
    rfl
  · intro p hp
    exact hsorted.ranked p hp fun _ _ => Nat.zero_le _

end Passes

end Fbz.Bzip2.Bwt
