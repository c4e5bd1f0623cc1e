import Fbz.Deflate.Ordered

/-!
# The grid of a stream

Which grid points have a job, and how a stream falls into segments at the grid. There is one way to
cut a stream, whoever decodes its segments.
-/

namespace Fbz.Deflate

open Pipeline

variable {crc : Crc32}

/-- There is a grid point of this number in the stream. -/
def HasJob (startByte endByte key : Nat) : Prop :=
  1 ≤ key ∧ startByte + key * parallelGrid < endByte

/-- The job of a grid point. -/
def gridJob (startByte endByte key : Nat) : Job GzipJob :=
  ⟨key, parallelJobMemory,
    { searchStart := (startByte + key * parallelGrid) * 8
      searchEnd := min (startByte + (key + 2) * parallelGrid) endByte * 8
      stopBit := estimatedStop startByte endByte key
      outputLimit := parallelOutputLimit }⟩

section Jobs

variable {startByte endByte key : Nat} {job : Job GzipJob}

private theorem gridJobs_cons (here : startByte + key * parallelGrid < endByte) :
    gridJobs endByte key (startByte + key * parallelGrid) =
      gridJob startByte endByte key ::
        gridJobs endByte (key + 1) (startByte + (key + 1) * parallelGrid) := by
  rw [gridJobs, if_pos here]
  simp only [gridJob, estimatedStop, Nat.add_mul, Nat.one_mul, Nat.add_assoc]

private theorem gridJobs_nil (behind : endByte ≤ startByte + key * parallelGrid) :
    gridJobs endByte key (startByte + key * parallelGrid) = [] := by
  rw [gridJobs, if_neg (Nat.not_lt.mpr behind)]

private theorem mem_gridJobs :
    job ∈ gridJobs endByte key (startByte + key * parallelGrid) ↔
      ∃ later, key ≤ later ∧ startByte + later * parallelGrid < endByte ∧
        job = gridJob startByte endByte later := by
  generalize hleft : endByte - (startByte + key * parallelGrid) = left
  induction left using Nat.strongRecOn generalizing key with
  | ind left ih =>
    by_cases here : startByte + key * parallelGrid < endByte
    · have hnext : endByte - (startByte + (key + 1) * parallelGrid) < left := by
        rw [Nat.add_mul, parallelGrid] at *
        omega
      rw [gridJobs_cons here, List.mem_cons, ih _ hnext rfl]
      constructor
      · rintro (rfl | ⟨later, hle, hlt, rfl⟩)
        · exact ⟨key, Nat.le_refl _, here, rfl⟩
        · exact ⟨later, Nat.le_of_succ_le hle, hlt, rfl⟩
      · rintro ⟨later, hle, hlt, rfl⟩
        rcases Nat.eq_or_lt_of_le hle with rfl | hlater
        · exact .inl rfl
        · exact .inr ⟨later, hlater, hlt, rfl⟩
    · rw [gridJobs_nil (Nat.not_lt.mp here)]
      constructor
      · intro hmem
        cases hmem
      · rintro ⟨later, hle, hlt, -⟩
        have := Nat.mul_le_mul_right parallelGrid hle
        omega

private theorem gridJobs_sorted :
    (gridJobs endByte key (startByte + key * parallelGrid)).Pairwise fun a b => a.key < b.key := by
  generalize hleft : endByte - (startByte + key * parallelGrid) = left
  induction left using Nat.strongRecOn generalizing key with
  | ind left ih =>
    by_cases here : startByte + key * parallelGrid < endByte
    · have hnext : endByte - (startByte + (key + 1) * parallelGrid) < left := by
        rw [Nat.add_mul, parallelGrid] at *
        omega
      rw [gridJobs_cons here]
      refine .cons ?_ (ih _ hnext rfl)
      intro other hmem
      obtain ⟨later, hle, -, rfl⟩ := mem_gridJobs.mp hmem
      exact hle
    · rw [gridJobs_nil (Nat.not_lt.mp here)]
      exact .nil

end Jobs

section Program

variable {setting : Setting crc} {data : List UInt8} {startByte threads key : Nat}
  {job : Job GzipJob}

theorem mem_streamJobs :
    job ∈ (streamProgram setting data startByte threads).jobs ↔
      ∃ key, HasJob startByte data.length key ∧ job = gridJob startByte data.length key := by
  have hmem := @mem_gridJobs startByte data.length 1 job
  rw [Nat.one_mul] at hmem
  simp only [streamProgram, hmem, HasJob, and_assoc]

theorem streamJobs_key :
    key ∈ (streamProgram setting data startByte threads).jobs.map Job.key ↔
      HasJob startByte data.length key := by
  simp only [List.mem_map, mem_streamJobs]
  constructor
  · rintro ⟨_, ⟨key, hjob, rfl⟩, rfl⟩
    exact hjob
  · intro hjob
    exact ⟨_, ⟨key, hjob, rfl⟩, rfl⟩

theorem streamJobs_sorted :
    (streamProgram setting data startByte threads).jobs.Pairwise fun a b => a.key < b.key := by
  have hsorted := @gridJobs_sorted startByte data.length 1
  rw [Nat.one_mul] at hsorted
  exact hsorted

theorem streamJobs_nodup : ((streamProgram setting data startByte threads).jobs.map Job.key).Nodup :=
  (List.pairwise_map.mpr streamJobs_sorted).imp fun h => Nat.ne_of_lt h

end Program

/-- The stream cut at the grid: each segment runs from where the one before it ends to the first
dynamic block that reaches the next grid point, or to the end of the stream. -/
inductive Cut (data : List UInt8) (startByte : Nat) : List (Segment crc) → Nat → Bool → Prop
  | first {segment : Segment crc}
      (decoded : decodeSegment crc data (startByte * 8) (estimatedStop startByte data.length 0)
        .empty parallelOutputLimit = .ok segment) :
      Cut data startByte [segment] segment.endBit segment.finalBlock
  | next {segments : List (Segment crc)} {bit : Nat} {segment : Segment crc}
      (front : Cut data startByte segments bit false)
      (decoded : decodeSegment crc data bit
        (estimatedStop startByte data.length segments.length) .unknown parallelOutputLimit =
          .ok segment) :
      Cut data startByte (segments ++ [segment]) segment.endBit segment.finalBlock

section Cut

variable {data : List UInt8} {startByte bit bit' : Nat} {segments segments' : List (Segment crc)}
  {fin fin' : Bool}

theorem Cut.length_pos (cut : Cut data startByte segments bit fin) : 1 ≤ segments.length := by
  cases cut with
  | first => exact Nat.le_refl _
  | next => simp

theorem Cut.initial (cut : Cut data startByte segments bit fin) : ∃ initial : Segment crc,
    decodeSegment crc data (startByte * 8) (estimatedStop startByte data.length 0) .empty
      parallelOutputLimit = .ok initial := by
  induction cut with
  | first decoded => exact ⟨_, decoded⟩
  | next front decoded ih => exact ih

theorem Cut.chain (cut : Cut data startByte segments bit fin) :
    Chain data (startByte * 8) segments bit fin := by
  induction cut with
  | first decoded => exact .first decoded
  | next front decoded ih => exact ih.next decoded

theorem Cut.bounds (cut : Cut data startByte segments bit fin) :
    bit ≤ data.length * 8 ∧
      (fin = false → min (startByte + segments.length * parallelGrid) data.length * 8 ≤ bit) := by
  cases cut with
  | first decoded =>
    obtain ⟨-, hinside, hstop⟩ := decodeSegment_bounds decoded
    exact ⟨hinside, hstop⟩
  | next front decoded =>
    obtain ⟨-, hinside, hstop⟩ := decodeSegment_bounds decoded
    refine ⟨hinside, ?_⟩
    rw [List.length_append]
    exact hstop

/-- Cuts into as many segments are the same. -/
theorem Cut.unique (cut : Cut data startByte segments bit fin)
    (cut' : Cut data startByte segments' bit' fin') (same : segments.length = segments'.length) :
    segments = segments' ∧ bit = bit' ∧ fin = fin' := by
  induction cut generalizing segments' bit' fin' with
  | first decoded =>
    cases cut' with
    | first decoded' =>
      obtain rfl := Except.ok.inj (decoded.symm.trans decoded')
      exact ⟨rfl, rfl, rfl⟩
    | next front =>
      have := front.length_pos
      simp only [List.length_append, List.length_singleton] at same
      omega
  | next front decoded ih =>
    cases cut' with
    | first =>
      have := front.length_pos
      simp only [List.length_append, List.length_singleton] at same
      omega
    | next front' decoded' =>
      obtain ⟨rfl, rfl, -⟩ := ih front' (by simpa using same)
      obtain rfl := Except.ok.inj (decoded.symm.trans decoded')
      exact ⟨rfl, rfl, rfl⟩

/-- A cut into fewer segments goes on. -/
theorem Cut.goes_on (cut : Cut data startByte segments bit fin)
    (cut' : Cut data startByte segments' bit' fin') (fewer : segments.length < segments'.length) :
    fin = false ∧ ∃ segment, decodeSegment crc data bit
      (estimatedStop startByte data.length segments.length) .unknown parallelOutputLimit =
        .ok segment := by
  induction cut' with
  | first =>
    have := cut.length_pos
    simp only [List.length_singleton] at fewer
    omega
  | @next segments' bit' segment front decoded ih =>
    rw [List.length_append, List.length_singleton] at fewer
    rcases Nat.eq_or_lt_of_le (Nat.le_of_lt_succ fewer) with heq | hlt
    · obtain ⟨rfl, rfl, rfl⟩ := cut.unique front heq
      exact ⟨rfl, segment, decoded⟩
    · exact ih hlt

/-- Behind `bit` and its window, the workers of the grid points from `key` on find segments that start
where the ones before them end, none with the last block, whose windows the coordinator can tell. -/
inductive HeldBack (data : List UInt8) (startByte key bit : Nat) (window : List UInt8) :
    List (Segment crc) → Nat → List UInt8 → Prop
  | none : HeldBack data startByte key bit window [] bit window
  | next {segments : List (Segment crc)} {bit' : Nat} {segment : Segment crc}
      {before after : List UInt8} (front : HeldBack data startByte key bit window segments bit' before)
      (found : runGzipJob crc data
        (gridJob startByte data.length (key + segments.length)).payload = .ok segment)
      (here : segment.startBit = bit') (unfinished : segment.finalBlock = false)
      (known : successorWindow segment before = .ok after) :
      HeldBack data startByte key bit window (segments ++ [segment]) segment.endBit after

/-- The data stops to the bit behind a block that is not the last one of its stream, and no grid point
is left there. The blocks of the segments in front decode; those of the segments behind them, fewer
than there are threads, are accepted as the workers have found them, before they are resolved. -/
structure DriesUp (data : List UInt8) (startByte threads : Nat) (front back : List (Segment crc))
    (bit : Nat) (bytes window : List UInt8) (blocks : List Block) : Prop where
  cut : Cut data startByte front bit false
  passes : Passes data (startByte * 8) bit bytes blocks false
  counted : bytes.length < 2 ^ 64
  few : back.length < threads
  held : HeldBack data startByte front.length bit (lastWindow bytes) back (data.length * 8) window
  behind : data.length ≤ startByte + (front.length + back.length) * parallelGrid

def RunsDry (crc : Crc32) (data : List UInt8) (startByte threads : Nat) : Prop :=
  ∃ (front back : List (Segment crc)) (bit : Nat) (bytes window : List UInt8) (blocks : List Block),
    DriesUp data startByte threads front back bit bytes window blocks

theorem initialSegment_eq {stream : DeflateStream} {input : List UInt8}
    (bounds : streamData input stream = .ok data) :
    (initialSegment data stream : Result (Segment crc)) =
      decodeSegment crc data (stream.startByte * 8) (estimatedStop stream.startByte data.length 0)
        .empty parallelOutputLimit := by
  obtain ⟨data', hrange, h⟩ := result_bind_eq_ok.mp bounds
  obtain ⟨_, -, heq⟩ := result_bind_eq_ok.mp h
  obtain rfl := Except.ok.inj heq
  have hlen : data'.length = stream.endByte := by
    have := range?_length (okOr_eq_ok.mp hrange)
    omega
  rw [initialSegment, estimatedStop, hlen, Nat.zero_add, Nat.one_mul]

theorem streamData_all {stream : DeflateStream} (start : stream.startByte = 0)
    (all : data.length = stream.endByte) : streamData data stream = .ok data := by
  have hall := range?_append [] data []
  rw [List.nil_append, List.append_nil, List.length_nil, Nat.zero_add, all] at hall
  rw [streamData, hall, start, okOr_some, result_bind_ok, ensure_of (Nat.zero_le _)]
  rfl

end Cut

end Fbz.Deflate
