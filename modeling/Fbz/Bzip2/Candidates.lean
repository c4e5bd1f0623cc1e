import Fbz.Bzip2.Assemble
import Fbz.Pipeline.Room

/-!
# Candidates left behind

`assemble` takes the candidates on the chain of true markers and passes over the others. Results of
the latter that come late stay charged, and whether the next candidate still finds room depends on
where the blocks end, how long they are decoded, and the memory limit.
-/

namespace Fbz.Bzip2

open Pipeline Transition

/-- A candidate that decodes ends behind its marker. -/
def Forward (decode : CandidateJob → Result DecodedCandidate) : Prop :=
  ∀ job decoded, decode job = .ok decoded → job.startBit < decoded.endBit

/-- The candidate decoded before the scan belongs to a block marker and ends behind it. -/
def ForwardPrefetched (markers : List Marker) (prefetched : Option (Nat × DecodedCandidate)) :
    Prop :=
  ∀ p ∈ prefetched, ∃ block, markers[p.1]? = some (.block block) ∧ block.bitOffset < p.2.endBit

section Chain

variable {data : List UInt8} {markers : List Marker}

private theorem offset_lt (sorted : (markers.map Marker.bitOffset).Pairwise (· < ·)) {i j : Nat}
    {marker marker' : Marker} (hi : markers[i]? = some marker) (hj : markers[j]? = some marker')
    (lt : i < j) : marker.bitOffset < marker'.bitOffset := by
  obtain ⟨hi, rfl⟩ := List.getElem?_eq_some_iff.mp hi
  obtain ⟨hj, rfl⟩ := List.getElem?_eq_some_iff.mp hj
  have := List.pairwise_iff_getElem.mp sorted i j (by simpa) (by simpa) lt
  rwa [List.getElem_map, List.getElem_map] at this

private theorem index_lt (sorted : (markers.map Marker.bitOffset).Pairwise (· < ·)) {i j : Nat}
    {marker marker' : Marker} (hi : markers[i]? = some marker) (hj : markers[j]? = some marker')
    (lt : marker.bitOffset < marker'.bitOffset) : i < j := by
  refine Nat.lt_of_not_le fun hle => ?_
  rcases Nat.lt_or_eq_of_le hle with hlt | rfl
  · have := offset_lt sorted hj hi hlt
    omega
  · obtain rfl := Option.some.inj (hi.symm.trans hj)
    exact Nat.lt_irrefl _ lt

/-- What the coordinator has taken and discarded lies before this bit, and the prefetched candidate
is still there unless it does, too. -/
structure Behind (markers : List Marker) (prefetched : Option (Nat × DecodedCandidate))
    (w : Sweep AssemblyCursor) (bit : Nat) : Prop where
  taken : ∀ key ∈ w.taken, ∃ marker, markers[key]? = some marker ∧ marker.bitOffset < bit
  passed : ∀ index marker, markers[index]? = some marker → bit ≤ marker.bitOffset →
    w.passed ≤ index
  prefetched : w.consumer.assembly.prefetched = prefetched ∨
    w.consumer.assembly.prefetched = none ∧ ∀ p ∈ prefetched, ∃ marker,
      markers[p.1]? = some marker ∧ marker.bitOffset < bit

private theorem Behind.mono {prefetched : Option (Nat × DecodedCandidate)}
    {w : Sweep AssemblyCursor}
    {bit bit' : Nat} (h : Behind markers prefetched w bit) (le : bit ≤ bit') :
    Behind markers prefetched w bit' where
  taken key hk := by
    obtain ⟨marker, hmarker, hlt⟩ := h.taken key hk
    exact ⟨marker, hmarker, Nat.lt_of_lt_of_le hlt le⟩
  passed index marker hmarker hle := h.passed index marker hmarker (Nat.le_trans le hle)
  prefetched := h.prefetched.imp_right fun ⟨hnone, hp⟩ => ⟨hnone, fun p mem => by
    obtain ⟨marker, hmarker, hlt⟩ := hp p mem
    exact ⟨marker, hmarker, Nat.lt_of_lt_of_le hlt le⟩⟩

/-- Where `assemble` stands when its candidates move forward. -/
def OnChain (markers : List Marker) (prefetched : Option (Nat × DecodedCandidate))
    (w : Sweep AssemblyCursor) : Prop :=
  match w.consumer.phase with
  | .stream => Behind markers prefetched w (w.consumer.assembly.headerByte * 8) ∧
      ∀ key ∈ w.taken, key < w.passed
  | .marker index => ∃ marker, markers[index]? = some marker ∧
      Behind markers prefetched w marker.bitOffset ∧ ∀ key ∈ w.taken, key < w.passed
  | .passing _ _ endIndex => ∃ marker, markers[endIndex]? = some marker ∧
      Behind markers prefetched w marker.bitOffset
  | .returned _ => True

private theorem onChain_start (prefetched : Option (Nat × DecodedCandidate)) :
    OnChain markers prefetched ⟨assembleStart prefetched, [], 0⟩ :=
  ⟨⟨by simp, fun _ _ _ _ => Nat.zero_le _, .inl rfl⟩, by simp⟩

private theorem taken_cases (markers : List Marker) (a : Assembly) (block : BlockCandidate)
    (value : Result DecodedCandidate) :
    (∃ result, a.taken markers block value = ⟨a, .returned result⟩) ∨
      ∃ decoded endIndex marker, value = .ok decoded ∧ markers[endIndex]? = some marker ∧
        marker.bitOffset = decoded.endBit ∧
        a.taken markers block value = ⟨a, .passing block decoded endIndex⟩ := by
  cases value with
  | error error => exact .inl ⟨_, rfl⟩
  | ok decoded =>
    rw [Assembly.taken]
    split
    · exact .inl ⟨_, rfl⟩
    · cases hend : markerAt markers decoded.endBit with
      | error error => exact .inl ⟨_, rfl⟩
      | ok endIndex =>
        obtain ⟨marker, hmarker, hbit⟩ := markerAt_eq_ok hend
        exact .inr ⟨decoded, endIndex, marker, rfl, hmarker, hbit, rfl⟩

/-- No marker and no byte of the data lies behind this bit. -/
def horizon (data : List UInt8) (markers : List Marker) : Nat :=
  (markers.map Marker.bitOffset).foldr max (data.length * 8)

private theorem length_le_horizon (data : List UInt8) (markers : List Marker) :
    data.length * 8 ≤ horizon data markers := by
  rw [horizon]
  induction markers with
  | nil => exact Nat.le_refl _
  | cons marker markers ih => exact Nat.le_trans ih (Nat.le_max_right _ _)

private theorem offset_le_horizon (data : List UInt8) {index : Nat} {marker : Marker}
    (h : markers[index]? = some marker) : marker.bitOffset ≤ horizon data markers := by
  have hmem := List.mem_of_getElem? h
  rw [horizon]
  clear h
  induction markers with
  | nil => cases hmem
  | cons head markers ih =>
    rcases List.mem_cons.mp hmem with rfl | hmem
    · exact Nat.le_max_left _ _
    · exact Nat.le_trans (ih hmem) (Nat.le_max_right _ _)

/-- What is left of the way to the horizon. -/
def assembleRank (data : List UInt8) (markers : List Marker) (c : AssemblyCursor) : Nat :=
  let offset index := (markers[index]?.map Marker.bitOffset).getD 0
  match c.phase with
  | .stream => 2 * (horizon data markers - c.assembly.headerByte * 8) + 1
  | .marker index => 2 * (horizon data markers - offset index) + 1
  | .passing _ _ endIndex => 2 * (horizon data markers - offset endIndex) + 2
  | .returned _ => 0

/-- One step along the chain. -/
private def Along (data : List UInt8) (markers : List Marker)
    (prefetched : Option (Nat × DecodedCandidate)) (w w' : Sweep AssemblyCursor) : Prop :=
  OnChain markers prefetched w' ∧
    assembleRank data markers w'.consumer < assembleRank data markers w.consumer

section Steps

variable {prefetched : Option (Nat × DecodedCandidate)} {taken : List Nat} {passed : Nat}
  {a : Assembly}

private theorem along_returned {c c' : AssemblyCursor} {result : Result Assembled}
    {taken' : List Nat} {passed' : Nat}
    (next : c'.phase = .returned result) (open_phase : ∀ result, c.phase ≠ .returned result) :
    Along data markers prefetched ⟨c, taken, passed⟩ ⟨c', taken', passed'⟩ := by
  refine ⟨by simp only [OnChain, next], ?_⟩
  simp only [assembleRank, next]
  split
  · omega
  · omega
  · omega
  · exact absurd (by assumption) (open_phase _)

private theorem along_stream (on : OnChain markers prefetched ⟨⟨a, .stream⟩, taken, passed⟩) :
    Along data markers prefetched ⟨⟨a, .stream⟩, taken, passed⟩
      ⟨a.stream data markers, taken, passed⟩ := by
  obtain ⟨behind, hpassed⟩ := on
  rw [Assembly.stream]
  split
  case isFalse => exact along_returned rfl nofun
  case isTrue hlt =>
    cases hstream : a.enterStream data markers with
    | error error => exact along_returned rfl nofun
    | ok entered =>
      obtain ⟨level, currentBit, index⟩ := entered
      obtain ⟨_, -, bit, hbit, current, hcurrent, index', hindex, heq⟩ := by
        simpa only [Assembly.enterStream, result_bind_eq_ok] using hstream
      cases heq
      obtain ⟨rfl, -⟩ := checked_eq_ok hbit
      obtain ⟨rfl, -⟩ := checked_eq_ok hcurrent
      obtain ⟨marker, hmarker, hoffset⟩ := markerAt_eq_ok hindex
      have hle := behind.mono (show _ ≤ marker.bitOffset by rw [hoffset]; exact Nat.le_add_right _ _)
      refine ⟨⟨marker, hmarker, ⟨hle.taken, hle.passed, hle.prefetched⟩, hpassed⟩, ?_⟩
      have := offset_le_horizon data hmarker
      simp only [assembleRank, hmarker, Option.map_some, Option.getD_some]
      omega

private theorem along_atEnd (data : List UInt8) {index : Nat} {eos : EndCandidate}
    (here : markers[index]? = some (.eos eos))
    (on : OnChain markers prefetched ⟨⟨a, .marker index⟩, taken, passed⟩) :
    Along data markers prefetched ⟨⟨a, .marker index⟩, taken, passed⟩
      ⟨a.atEnd data eos, taken, passed⟩ := by
  obtain ⟨marker, hmarker, behind, hpassed⟩ := on
  obtain rfl := Option.some.inj (here.symm.trans hmarker)
  rw [Assembly.atEnd]
  split
  · exact along_returned rfl nofun
  · cases hnext : Assembly.nextHeader eos with
    | error error => exact along_returned rfl nofun
    | ok headerByte =>
      dsimp only
      split
      · exact along_returned rfl nofun
      · split
        · exact along_returned rfl nofun
        · have hle := (nextHeader_eq_ok hnext).1
          have hmono := behind.mono (show _ ≤ headerByte * 8 by
            simp only [Marker.bitOffset]
            omega)
          refine ⟨⟨⟨hmono.taken, hmono.passed, hmono.prefetched⟩, hpassed⟩, ?_⟩
          have := length_le_horizon data markers
          simp only [assembleRank, here, Option.map_some, Option.getD_some, Marker.bitOffset]
          omega

private theorem along_taken (data : List UInt8) (prefetched : Option (Nat × DecodedCandidate))
    (a a' : Assembly) (taken taken' : List Nat) (passed : Nat) (value : Result DecodedCandidate)
    {index : Nat} {block : BlockCandidate} (here : markers[index]? = some (.block block))
    (forward : ∀ decoded, value = .ok decoded → block.bitOffset < decoded.endBit)
    (behind : ∀ bit, block.bitOffset < bit →
      Behind markers prefetched ⟨⟨a', .marker index⟩, taken', passed⟩ bit) :
    Along data markers prefetched ⟨⟨a, .marker index⟩, taken, passed⟩
      ⟨a'.taken markers block value, taken', passed⟩ := by
  rcases taken_cases markers a' block value with
    ⟨result, heq⟩ | ⟨decoded, endIndex, marker, rfl, hmarker, hbit, heq⟩
  · rw [heq]
    exact along_returned rfl nofun
  · rw [heq]
    have hlt := forward decoded rfl
    rw [← hbit] at hlt
    have hbehind := behind _ hlt
    refine ⟨⟨marker, hmarker, hbehind.taken, hbehind.passed, hbehind.prefetched⟩, ?_⟩
    have := offset_le_horizon data hmarker
    simp only [assembleRank, here, hmarker, Option.map_some, Option.getD_some, Marker.bitOffset]
    simp only [Marker.bitOffset] at hlt this
    omega

private theorem along_pass (sorted : (markers.map Marker.bitOffset).Pairwise (· < ·))
    (valid : ∀ p ∈ prefetched, ∃ marker, markers[p.1]? = some marker)
    {block : BlockCandidate} {decoded : DecodedCandidate} {endIndex : Nat}
    (on : OnChain markers prefetched ⟨⟨a, .passing block decoded endIndex⟩, taken, passed⟩) :
    Along data markers prefetched ⟨⟨a, .passing block decoded endIndex⟩, taken, passed⟩
      ⟨a.pass markers block decoded endIndex, taken, max passed endIndex⟩ := by
  obtain ⟨marker, hmarker, behind⟩ := on
  rw [Assembly.pass]
  dsimp only
  cases checked (a.decodedOffset + decoded.decodedLen) with
  | error error => exact along_returned rfl nofun
  | ok decodedOffset =>
    refine ⟨⟨marker, hmarker, ⟨behind.taken, fun index other hother hle => ?_, ?_⟩,
      fun key hk => ?_⟩, ?_⟩
    · refine Nat.max_le.mpr ⟨behind.passed index other hother hle, Nat.le_of_not_lt fun hlt => ?_⟩
      have := offset_lt sorted hother hmarker hlt
      omega
    · rcases behind.prefetched with hsame | ⟨hnone, hp⟩
      · have hsame : a.prefetched = prefetched := hsame
        rw [hsame]
        cases prefetched with
        | none => exact .inl rfl
        | some p =>
          by_cases hlt : p.1 < endIndex
          · obtain ⟨other, hother⟩ := valid p rfl
            refine .inr ⟨by simp [hlt], fun q hq => ?_⟩
            obtain rfl := Option.some.inj hq
            exact ⟨other, hother, offset_lt sorted hother hmarker hlt⟩
          · exact .inl (by simp [hlt])
      · have hnone : a.prefetched = none := hnone
        exact .inr ⟨by simp [hnone], hp⟩
    · obtain ⟨other, hother, hlt⟩ := behind.taken key hk
      exact lt_max_of_lt_right (index_lt sorted hother hmarker hlt)
    · simp only [assembleRank]
      omega

end Steps

/-- Every step of `assemble` alone leads along the chain. -/
private theorem chain_step (sorted : (markers.map Marker.bitOffset).Pairwise (· < ·))
    {memoryLimit : Nat} {decode : CandidateJob → Result DecodedCandidate} (forward : Forward decode)
    {prefetched : Option (Nat × DecodedCandidate)} (ahead : ForwardPrefetched markers prefetched)
    {w w' : Sweep AssemblyCursor} (on : OnChain markers prefetched w)
    (step : (assembleProgram data markers memoryLimit decode (prefetched.map Prod.fst)).Sweeping
      w w') : Along data markers prefetched w w' := by
  obtain ⟨⟨a, phase⟩, taken, passed⟩ := w
  cases phase with
  | returned result =>
    cases step with
    | compute waiting | take waiting | discardBefore waiting => cases waiting
  | stream =>
    cases step with
    | compute => exact along_stream on
    | take waiting | discardBefore waiting => cases waiting
  | passing block decoded endIndex =>
    cases step with
    | compute waiting | take waiting => cases waiting
    | discardBefore waiting =>
      obtain rfl := Op.discardBefore.inj waiting
      refine along_pass sorted (fun p mem => ?_) on
      obtain ⟨block, hblock, -⟩ := ahead p mem
      exact ⟨_, hblock⟩
  | marker index =>
    obtain ⟨marker, here, behind, hpassed⟩ := on
    have op_eq : (assembleProgram data markers memoryLimit decode
        (prefetched.map Prod.fst)).consumer.op ⟨a, .marker index⟩ = match marker with
          | .block _ => if a.prefetched.any fun p => p.1 = index then .compute else .take index
          | .eos _ => .compute := by
      simp only [assembleProgram, assembleConsumer, here]
      cases marker <;> rfl
    cases marker with
    | eos eos =>
      cases step with
      | compute =>
        have := along_atEnd data here ⟨_, here, behind, hpassed⟩
        simpa only [assembleProgram, assembleConsumer, here] using this
      | take waiting | discardBefore waiting => rw [op_eq] at waiting; cases waiting
    | block block =>
      cases hprefetched : a.prefetched.any fun p => p.1 = index with
      | true =>
        rw [hprefetched, if_pos rfl] at op_eq
        obtain ⟨p, hp, hindex⟩ := (Option.any_eq_true _ _).mp hprefetched
        obtain rfl : p.1 = index := by simpa using hindex
        have hsame : prefetched = some p := by
          rcases behind.prefetched with h | ⟨h, -⟩
          · exact h.symm.trans hp
          · cases hp.symm.trans h
        obtain ⟨other, hother, hforward⟩ := ahead p hsame
        obtain rfl : other = block := Marker.block.inj (Option.some.inj (hother.symm.trans here))
        cases step with
        | compute =>
          have := along_taken data prefetched a { a with prefetched := none } taken taken passed
            (.ok p.2) here (fun decoded h => Except.ok.inj h ▸ hforward) fun bit hlt =>
              ⟨(behind.mono (Nat.le_of_lt hlt)).taken, (behind.mono (Nat.le_of_lt hlt)).passed,
                .inr ⟨rfl, fun q hq => ?_⟩⟩
          · simpa only [assembleProgram, assembleConsumer, here, hp] using this
          · obtain rfl := Option.some.inj (hsame.symm.trans hq)
            exact ⟨_, here, hlt⟩
        | take waiting | discardBefore waiting => rw [op_eq] at waiting; cases waiting
      | false =>
        rw [hprefetched, if_neg Bool.false_ne_true] at op_eq
        cases step with
        | compute waiting | discardBefore waiting => rw [op_eq] at waiting; cases waiting
        | @take job value waiting mem result =>
          obtain rfl : index = job.key := Op.take.inj (op_eq.symm.trans waiting)
          obtain ⟨other, hother, -, -, hpayload⟩ := mem_candidateJobs.mp mem
          obtain rfl : other = block := Marker.block.inj (Option.some.inj (hother.symm.trans here))
          have hvalue : decode job.payload = value := Option.some.inj result
          have := along_taken data prefetched a a taken (job.key :: taken) passed value here
            (fun decoded h => by
              have := forward job.payload decoded (hvalue.trans h)
              rwa [hpayload] at this) fun bit hlt => ⟨fun key hk => ?_,
                (behind.mono (Nat.le_of_lt hlt)).passed, (behind.mono (Nat.le_of_lt hlt)).prefetched⟩
          · simpa only [assembleProgram, assembleConsumer, here] using this
          · rcases List.mem_cons.mp hk with rfl | hk
            · exact ⟨_, here, hlt⟩
            · exact (behind.mono (Nat.le_of_lt hlt)).taken key hk

end Chain

section Stuck

variable (data : List UInt8) (markers : Markers) (memoryLimit : Nat)
  (decode : CandidateJob → Result DecodedCandidate) (prefetched : Option (Nat × DecodedCandidate))

/-- `assemble` alone, answered by `decode`, has taken these candidates and asks for the one at
this marker. -/
def Asks (taken : List Nat) (index : Nat) : Prop :=
  let program := assembleProgram data markers.list memoryLimit decode (prefetched.map Prod.fst)
  ∃ w, Reaches program.Sweeping ⟨assembleStart prefetched, [], 0⟩ w ∧ w.taken = taken ∧
    program.consumer.op w.consumer = .take index

/-- The candidates before a marker that can be charged when `assemble` asks for it: all behind
those it has taken, and of the ones it has passed over before these the late ones. -/
def chargeable (taken : List Nat) (late : Nat → Bool) (index : Nat) : List (Job CandidateJob) :=
  (candidateJobs markers.list (prefetched.map Prod.fst)).filter fun job =>
    decide (job.key < index) && decide (job.key ∉ taken) &&
      ((taken.all fun key => decide (key < job.key)) || late job.key)

/-- Bytes the decoded candidate keeps charged. -/
def candidateCharge (job : Job CandidateJob) : Nat :=
  min (candidateLen (decode job.payload)) maxDecodedBlock

/-- Whichever candidates are late, fewer than there are threads, every one asked for finds room
for a whole block beside what can be charged. -/
def CandidatesFit (threads : Nat) : Prop :=
  ∀ taken index, Asks data markers memoryLimit decode prefetched taken index →
    ∀ late : Nat → Bool,
      ((chargeable markers prefetched taken late index).filter fun job =>
        !taken.all fun key => decide (key < job.key)).length < threads →
      ((chargeable markers prefetched taken late index).map (candidateCharge decode)).sum +
        maxDecodedBlock ≤ memoryLimit

variable {decode prefetched}

private theorem reaches_onChain (forward : Forward decode)
    (ahead : ForwardPrefetched markers.list prefetched) {w : Sweep AssemblyCursor}
    (run : Reaches (assembleProgram data markers.list memoryLimit decode
      (prefetched.map Prod.fst)).Sweeping ⟨assembleStart prefetched, [], 0⟩ w) :
    OnChain markers.list prefetched w :=
  run.invariant (onChain_start prefetched) fun _ _ on step =>
    (chain_step markers.sorted forward ahead on step).1

/-- `assemble` takes candidates in ascending order and discards what it passes over. -/
theorem assemble_sweeps (forward : Forward decode)
    (ahead : ForwardPrefetched markers.list prefetched) :
    (assembleProgram data markers.list memoryLimit decode (prefetched.map Prod.fst)).Sweeps
      (assembleStart prefetched) (assembleRank data markers.list) where
  unstaged := rfl
  keys_sorted := candidateJobs_keys_sorted markers.list (prefetched.map Prod.fst)
  op c := by
    obtain ⟨assembly, phase⟩ := c
    cases phase with
    | marker index =>
      simp only [assembleProgram, assembleConsumer]
      cases markers.list[index]? with
      | none => trivial
      | some marker =>
        cases marker with
        | eos => trivial
        | block =>
          dsimp only
          cases assembly.prefetched.any fun p => p.1 = index <;> trivial
    | stream | passing | returned => trivial
  asks w key run waiting := by
    have on := reaches_onChain data markers memoryLimit forward ahead run
    obtain ⟨⟨a, phase⟩, taken, passed⟩ := w
    cases phase with
    | stream | passing | returned => cases waiting
    | marker index =>
      obtain ⟨marker, here, behind, hpassed⟩ := on
      simp only [assembleProgram, assembleConsumer, here] at waiting
      cases marker with
      | eos => cases waiting
      | block block =>
        dsimp only at waiting
        split at waiting
        · cases waiting
        · rename_i unfetched
          obtain rfl := Op.take.inj waiting
          refine ⟨?_, fun k hk => ?_, behind.passed _ _ here (Nat.le_refl _),
            fun k hk => .inl (hpassed k hk)⟩
          · refine List.mem_map.mpr ⟨⟨index, maxDecodedBlock, ⟨block.bitOffset,
              block.expectedCrc⟩⟩, mem_candidateJobs.mpr ⟨block, here, fun heq => ?_, rfl, rfl⟩, rfl⟩
            obtain ⟨p, hp, rfl⟩ := Option.map_eq_some_iff.mp heq
            rcases behind.prefetched with hsame | ⟨-, hbefore⟩
            · have hsame : a.prefetched = prefetched := hsame
              exact unfetched (by rw [hsame, hp]; simp)
            · obtain ⟨other, hother, hlt⟩ := hbefore p hp
              obtain rfl := Option.some.inj (hother.symm.trans here)
              exact Nat.lt_irrefl _ hlt
          · obtain ⟨other, hother, hlt⟩ := behind.taken k hk
            exact index_lt markers.sorted hother here hlt
  descends _ _ run step :=
    (chain_step markers.sorted forward ahead (reaches_onChain data markers memoryLimit forward ahead run) step).2

section Fits

variable {w : Sweep AssemblyCursor} {index : Nat}

private theorem not_taken_of_ahead {job : Job CandidateJob} (ahead : w.ahead job = true) :
    job.key ∉ w.taken := fun mem => by
  simpa using List.all_eq_true.mp ahead job.key mem

variable (decode) in
private theorem chargeable_eq {pre post : List (Job CandidateJob)} {job : Job CandidateJob}
    (split : candidateJobs markers.list (prefetched.map Prod.fst) = pre ++ job :: post)
    (late : Nat → Bool) :
    chargeable markers prefetched w.taken late job.key =
      (assembleProgram data markers.list memoryLimit decode
        (prefetched.map Prod.fst)).outstanding w late pre := by
  have sorted := candidateJobs_keys_sorted markers.list (prefetched.map Prod.fst)
  have later : ((job :: post).filter fun other => decide (other.key < job.key) &&
      decide (other.key ∉ w.taken) && ((w.taken.all fun key => decide (key < other.key)) ||
        late other.key)) = [] := by
    refine List.filter_eq_nil_iff.mpr fun other hother => ?_
    have : ¬ other.key < job.key := by
      rcases List.mem_cons.mp hother with rfl | hother
      · exact Nat.lt_irrefl _
      · obtain ⟨mid, back, rfl⟩ := List.append_of_mem hother
        have := key_lt_of_sorted sorted
          (split.trans (List.append_assoc pre (job :: mid) (other :: back)).symm)
          (show job ∈ pre ++ job :: mid by simp)
        omega
    simp [this]
  rw [chargeable, split, List.filter_append, later, List.append_nil, Program.outstanding]
  refine List.filter_congr fun other hother => ?_
  have hlt := key_lt_of_sorted sorted split hother
  cases hahead : w.ahead other with
  | true =>
    have hall : (w.taken.all fun key => decide (key < other.key)) = true := hahead
    simp [hlt, not_taken_of_ahead hahead, hall]
  | false =>
    have hall : (w.taken.all fun key => decide (key < other.key)) = false := hahead
    simp [hlt, hall, Program.lagging, Sweep.skipped, hahead, Program.panics, assembleProgram]

variable (decode) in
private theorem late_eq (behind : ∀ key ∈ w.taken, key < index) (late : Nat → Bool) :
    ((chargeable markers prefetched w.taken late index).filter fun job =>
      !w.taken.all fun key => decide (key < job.key)) =
    (assembleProgram data markers.list memoryLimit decode (prefetched.map Prod.fst)).jobs.filter
      ((assembleProgram data markers.list memoryLimit decode
        (prefetched.map Prod.fst)).lagging w late) := by
  rw [chargeable, List.filter_filter]
  refine List.filter_congr fun job _ => ?_
  cases hahead : w.ahead job with
  | true =>
    have hall : (w.taken.all fun key => decide (key < job.key)) = true := hahead
    simp [hall, Program.lagging, Sweep.skipped, hahead]
  | false =>
    have hall : (w.taken.all fun key => decide (key < job.key)) = false := hahead
    obtain ⟨key, hk, hle⟩ := List.all_eq_false.mp hall
    have hlt : job.key < index := by
      have := behind key hk
      simp only [decide_eq_true_eq] at hle
      omega
    simp [hall, hlt, Program.lagging, Sweep.skipped, hahead, Program.panics, assembleProgram]

private theorem charge_eq {jobs : List (Job CandidateJob)}
    (sub : jobs ⊆ candidateJobs markers.list (prefetched.map Prod.fst)) :
    jobs.map (assembleProgram data markers.list memoryLimit decode
      (prefetched.map Prod.fst)).charge = jobs.map (candidateCharge decode) :=
  List.map_congr_left fun job hj => by
    obtain ⟨_, -, -, hreservation, -⟩ := mem_candidateJobs.mp (sub hj)
    rw [candidateCharge, ← hreservation]
    rfl

end Fits

/-- With equal reservations and no panics, being served is having room for the candidate itself. -/
theorem served_iff (forward : Forward decode) (ahead : ForwardPrefetched markers.list prefetched)
    {threads : Nat} (several : 2 ≤ threads) :
    (∀ w index, Reaches (assembleProgram data markers.list memoryLimit decode
        (prefetched.map Prod.fst)).Sweeping ⟨assembleStart prefetched, [], 0⟩ w →
      (assembleProgram data markers.list memoryLimit decode
        (prefetched.map Prod.fst)).consumer.op w.consumer = .take index →
      (assembleProgram data markers.list memoryLimit decode
        (prefetched.map Prod.fst)).Served threads w index) ↔
      CandidatesFit data markers memoryLimit decode prefetched threads := by
  have sweeps := assemble_sweeps data markers memoryLimit forward ahead
  constructor
  · rintro served _ _ ⟨w, run, rfl, waiting⟩ late few
    have order := sweeps.asks w _ run waiting
    obtain ⟨job, hjob, rfl⟩ := List.mem_map.mp order.mem
    obtain ⟨pre, post, split⟩ := List.append_of_mem hjob
    have jobs_eq : candidateJobs markers.list (prefetched.map Prod.fst) = pre ++ job :: post := split
    rw [late_eq data markers memoryLimit decode order.behind] at few
    obtain ⟨-, hroom⟩ := (served w _ run waiting).room late few pre job post split (Nat.le_refl _)
      (List.all_eq_true.mpr fun key hk => by simpa using order.behind key hk)
    obtain ⟨_, -, -, hreservation, -⟩ := mem_candidateJobs.mp hjob
    rw [hreservation] at hroom
    rw [chargeable_eq data markers memoryLimit decode split]
    rwa [charge_eq data markers memoryLimit] at hroom
    intro other hother
    rw [jobs_eq]
    exact List.mem_append_left _ (List.mem_filter.mp hother).1
  · intro fit w index run waiting
    have order := sweeps.asks w index run waiting
    obtain ⟨job, hjob, rfl⟩ := List.mem_map.mp order.mem
    obtain ⟨pre, post, split⟩ := List.append_of_mem hjob
    have jobs_eq : candidateJobs markers.list (prefetched.map Prod.fst) = pre ++ job :: post := split
    have no_panic : ∀ j, (assembleProgram data markers.list memoryLimit decode
      (prefetched.map Prod.fst)).panics j = false := fun _ => rfl
    refine ⟨fun _ _ _ => rfl, ?_, fun late few pre' other post' split' le _ => ⟨?_, ?_⟩⟩
    · rw [List.filter_eq_nil_iff.mpr fun j _ => by simp [no_panic j]]
      exact Nat.lt_of_lt_of_le Nat.zero_lt_two several
    · have hshort : pre'.length < (candidateJobs markers.list (prefetched.map Prod.fst)).length := by
        have : candidateJobs markers.list (prefetched.map Prod.fst) = pre' ++ other :: post' := split'
        rw [this, List.length_append, List.length_cons]
        omega
      have hle := candidateJobs_length_le markers.list (prefetched.map Prod.fst)
      have haddressable := markers.addressable
      have hfilter : ((assembleProgram data markers.list memoryLimit decode
        (prefetched.map Prod.fst)).outstanding w late pre').length ≤ pre'.length :=
        List.length_filter_le ..
      show _ < 2 ^ 64 - 1
      omega
    · rw [← late_eq data markers memoryLimit decode order.behind] at few
      have hfit := fit w.taken job.key ⟨w, run, rfl, waiting⟩ late few
      have hlength := (sweeps.length_lt_iff split' split).mpr le
      have hfront : pre' = pre.take pre'.length := by
        have := congrArg (List.take pre'.length) (split'.symm.trans split)
        rwa [List.take_left, List.take_append_of_le_length hlength] at this
      have hsub : ((assembleProgram data markers.list memoryLimit decode
          (prefetched.map Prod.fst)).outstanding w late pre').Sublist
          ((assembleProgram data markers.list memoryLimit decode
            (prefetched.map Prod.fst)).outstanding w late pre) := by
        rw [hfront]
        exact (List.take_sublist ..).filter _
      have hother : other ∈ (assembleProgram data markers.list memoryLimit decode
          (prefetched.map Prod.fst)).jobs := by
        rw [split']
        simp
      obtain ⟨_, -, -, hreservation, -⟩ := mem_candidateJobs.mp hother
      have hsum := (hsub.map (assembleProgram data markers.list memoryLimit decode
        (prefetched.map Prod.fst)).charge).sum_le_sum fun _ _ => Nat.zero_le _
      rw [chargeable_eq data markers memoryLimit decode split,
        ← @charge_eq data markers memoryLimit decode prefetched] at hfit
      · rw [hreservation]
        show _ ≤ memoryLimit
        omega
      · intro j hj
        rw [jobs_eq]
        exact List.mem_append_left _ (List.mem_filter.mp hj).1

/-- Decoding never gets stuck, under any schedule, exactly when the candidates fit. -/
theorem assemble_never_stuck_iff (threads : Nat) (several : 2 ≤ threads) (forward : Forward decode)
    (ahead : ForwardPrefetched markers.list prefetched) :
    let program := assembleProgram data markers.list memoryLimit decode (prefetched.map Prod.fst)
    (∀ s, Reaches program.Step (program.init threads (assembleStart prefetched)) s →
      ¬ program.Stuck s) ↔
    CandidatesFit data markers memoryLimit decode prefetched threads :=
  ((assemble_sweeps data markers memoryLimit forward ahead).never_stuck_iff (fun _ _ => rfl)
    (by omega)).trans (served_iff data markers memoryLimit forward ahead several)

end Stuck

/-- Three block markers, the middle one a false marker inside the first block. -/
def skippedMarkers : Markers where
  list := [.block ⟨32, 1, false, 0⟩, .block ⟨100, 2, false, 0⟩, .block ⟨200, 3, false, 0⟩]
  sorted := by decide
  addressable := by decide

def skippedHeader : List UInt8 := [0x42, 0x5a, 0x68, 0x39]

/-- The first block ends at the third marker; it and the false marker decode to one byte each. -/
def skippedDecode (job : CandidateJob) : Result DecodedCandidate :=
  if job.startBit = 32 then .ok ⟨[5], 1, 200, 1⟩
  else if job.startBit = 100 then .ok ⟨[7], 1, 300, 1⟩
  else .error (.decode job.startBit .truncated)

private theorem skippedDecode_forward : Forward skippedDecode := by
  intro job decoded h
  unfold skippedDecode at h
  split at h
  · obtain rfl := Except.ok.inj h
    dsimp only
    omega
  · split at h
    · obtain rfl := Except.ok.inj h
      dsimp only
      omega
    · cases h

private theorem skipped_unfetched : ForwardPrefetched skippedMarkers.list none :=
  fun p mem => by cases mem

theorem skipped_never_stuck_iff :
    let program :=
      assembleProgram skippedHeader skippedMarkers.list maxDecodedBlock skippedDecode none
    (∀ s, Reaches program.Step (program.init 2 (assembleStart none)) s → ¬ program.Stuck s) ↔
      CandidatesFit skippedHeader skippedMarkers maxDecodedBlock skippedDecode none 2 :=
  assemble_never_stuck_iff skippedHeader skippedMarkers maxDecodedBlock 2 (by decide)
    skippedDecode_forward skipped_unfetched

private theorem skipped_asks :
    Asks skippedHeader skippedMarkers maxDecodedBlock skippedDecode none [0] 2 :=
  ⟨_, .head (.compute rfl) <| .head (@Program.Sweeping.take _ _ _ _ _ _ _ _
    ⟨0, maxDecodedBlock, ⟨32, 1⟩⟩ _ rfl List.mem_cons_self rfl) <|
    .head (.discardBefore rfl) .refl, rfl, rfl⟩

theorem skipped_marker_stuck :
    (∀ job decoded, skippedDecode job = .ok decoded → decoded.output.length ≤ maxDecodedBlock) ∧
    ¬ ∀ s, Reaches
        (assembleProgram skippedHeader skippedMarkers.list maxDecodedBlock skippedDecode none).Step
        ((assembleProgram skippedHeader skippedMarkers.list maxDecodedBlock skippedDecode none).init
          2 (assembleStart none)) s →
      ¬ (assembleProgram skippedHeader skippedMarkers.list maxDecodedBlock skippedDecode
        none).Stuck s := by
  constructor
  · intro job decoded h
    unfold skippedDecode at h
    split at h
    · obtain rfl := Except.ok.inj h
      decide
    · split at h
      · obtain rfl := Except.ok.inj h
        decide
      · cases h
  · intro never
    have sweeps := assemble_sweeps skippedHeader skippedMarkers maxDecodedBlock
      skippedDecode_forward skipped_unfetched
    have served := (sweeps.never_stuck_iff (fun _ _ => rfl) (by decide : 0 < 2)).mp never
    have fit := (served_iff skippedHeader skippedMarkers maxDecodedBlock skippedDecode_forward
      skipped_unfetched (by decide : 2 ≤ 2)).mp served
    -- the byte of the false marker and a whole block are more than the limit
    exact absurd (fit [0] 2 skipped_asks (fun _ => false) (by decide)) (by decide +kernel)

end Fbz.Bzip2
