import Fbz.Bzip2.Assemble
import Fbz.Bzip2.Levels
import Fbz.Bzip2.Session

/-!
# Runs of a block

The expansion of a block by the decoder: it never exceeds what five bytes can stand for, and it
gives back the groups the encoder has put into the block, with the checksum the encoder stores.
-/

namespace Fbz.Bzip2

open Pipeline Rle1

section Bound

variable {maxOutput blockOffset : Nat} {x : Expansion} {bytes : List UInt8}

private theorem expandByte_fits (byte : UInt8)
    (room : 5 * x.output.length + 254 * x.repeated + 259 ≤ 5 * maxOutput) :
    ∃ y, expandByte maxOutput blockOffset x byte = .ok y := by
  have hbyte := byte.toNat_lt
  unfold expandByte
  split
  case isTrue hfour =>
    rw [if_neg (by omega)]
    exact ⟨_, rfl⟩
  case isFalse hfour =>
    rw [if_neg (by omega)]
    exact ⟨_, rfl⟩

private theorem expandBytes_fits
    (room : 5 * x.output.length + 254 * x.repeated + 259 * bytes.length ≤ 5 * maxOutput) :
    ∃ output, expandBytes maxOutput blockOffset x bytes = .ok output := by
  induction bytes generalizing x with
  | nil => exact ⟨_, rfl⟩
  | cons byte rest ih =>
    rw [List.length_cons, Nat.mul_succ] at room
    have hroom : 5 * x.output.length + 254 * x.repeated + 259 ≤ 5 * maxOutput :=
      Nat.le_trans (Nat.add_le_add_left (Nat.le_add_left ..) _) room
    obtain ⟨y, hbyte⟩ := @expandByte_fits _ blockOffset _ byte hroom
    have hgrows := (expandByte_grows hbyte).2
    obtain ⟨output, hrest⟩ := @ih y (by omega)
    exact ⟨output, by rw [expandBytes, hbyte]; exact hrest⟩

private theorem expandBytes_level_fits {level : Nat} (few : bytes.length ≤ level * 100000) :
    ∃ output, expandBytes (level * 100000 / 5 * 259 + 4) blockOffset {} bytes = .ok output ∧
      output.length ≤ level * 100000 / 5 * 259 := by
  have hfifth : level * 100000 / 5 = level * 20000 := by omega
  rw [hfifth]
  have hroom : 5 * ([] : List UInt8).length + 254 * 0 + 259 * bytes.length ≤
      5 * (level * 20000 * 259 + 4) := by
    rw [List.length_nil]
    omega
  obtain ⟨output, houtput⟩ := @expandBytes_fits _ blockOffset {} bytes hroom
  have hbound : 5 * output.length ≤ 5 * ([] : List UInt8).length + 254 * 0 + 259 * bytes.length :=
    expandBytes_bound houtput
  rw [List.length_nil] at hbound
  exact ⟨output, houtput, by omega⟩

private theorem decoderBlock_expands {data : List UInt8} {bit next level : Nat}
    {header : BlockHeader}
    (read : decodeSymbols data header (level * 100000) { mtf := header.alphabet } bit =
      .ok (bytes, next)) :
    ∃ output, expandBytes (level * 100000 / 5 * 259 + 4) blockOffset {}
        (inverseTransform bytes header.origin) = .ok output ∧
      output.length ≤ level * 100000 / 5 * 259 := by
  apply expandBytes_level_fits
  rw [inverseTransform_length]
  exact decodeSymbols_fits read (Nat.zero_le _)

private theorem decoderBlock_length {data : List UInt8} {bit next level : Nat}
    {expectedCrc : Option UInt32}
    {block : DecodedBlock} (h : decoderBlock data bit level expectedCrc = .ok (block, next)) :
    block.output.length ≤ level * 100000 / 5 * 259 := by
  simp only [decoderBlock, result_bind_eq_ok] at h
  obtain ⟨⟨header, bit1⟩, -, ⟨bytes, bit2⟩, hsymbols, _, -, output, hexpand, _, -, heq⟩ := h
  cases heq
  obtain ⟨output', hexpand', hlength⟩ := @decoderBlock_expands (bit - 48) _ _ _ _ _ _ hsymbols
  rw [hexpand] at hexpand'
  obtain rfl := Except.ok.inj hexpand'
  exact hlength

private theorem decodeCandidate_length {data : List UInt8} {startBit : Nat} {crc : UInt32}
    {candidate : DecodedCandidate} (h : decodeCandidate data startBit crc = .ok candidate) :
    candidate.output.length ≤ maxDecodedBlock := by
  simp only [decodeCandidate, result_bind_eq_ok] at h
  obtain ⟨bit, -, ⟨magic, bit1⟩, -, _, -, ⟨block, bit2⟩, hblock, heq⟩ := h
  cases heq
  have hlength := decoderBlock_length hblock
  have hmax : maxDecodedBlock = 9 * 100000 / 5 * 259 + 4 := rfl
  dsimp only
  omega

/-- The block of a level expands to at most 259 bytes for each five, no check on the way fires, and
what the scheduler reserves for a candidate is enough. -/
theorem block_expansion (level : Nat) (inRange : 1 ≤ level ∧ level ≤ 9) :
    (∀ blockOffset bytes, bytes.length ≤ level * 100000 →
      ∃ output, expandBytes (level * 100000 / 5 * 259 + 4) blockOffset {} bytes = .ok output ∧
        output.length ≤ level * 100000 / 5 * 259) ∧
    (∀ data header blockOffset bit bytes next,
      decodeSymbols data header (level * 100000) { mtf := header.alphabet } bit = .ok (bytes, next) →
      ∃ output, expandBytes (level * 100000 / 5 * 259 + 4) blockOffset {}
          (inverseTransform bytes header.origin) = .ok output ∧
        output.length ≤ level * 100000 / 5 * 259) ∧
    level * 100000 / 5 * 259 ≤ maxDecodedBlock ∧
    ∀ data markers memoryLimit prefetched,
      ∀ job ∈ (assembleProgram data markers memoryLimit (fun job =>
        decodeCandidate data job.startBit job.expectedCrc) prefetched).jobs,
      job.reservation = maxDecodedBlock ∧
        ∀ candidate, decodeCandidate data job.payload.startBit job.payload.expectedCrc =
          .ok candidate → candidate.output.length ≤ job.reservation := by
  refine ⟨fun _ _ few => expandBytes_level_fits few,
    fun _ _ _ _ _ _ read => decoderBlock_expands read, ?_, ?_⟩
  · have hmax : maxDecodedBlock = 9 * 100000 / 5 * 259 + 4 := rfl
    omega
  · intro data markers memoryLimit prefetched job hmem
    obtain ⟨block, -, -, hreserved, -⟩ := mem_candidateJobs.mp hmem
    refine ⟨hreserved, ?_⟩
    intro candidate hdecoded
    rw [hreserved]
    exact decodeCandidate_length hdecoded

theorem block_expansion_nine :
    (∀ blockOffset bytes, bytes.length ≤ 9 * 100000 →
      ∃ output, expandBytes (9 * 100000 / 5 * 259 + 4) blockOffset {} bytes = .ok output ∧
        output.length ≤ 9 * 100000 / 5 * 259) ∧ 9 * 100000 / 5 * 259 ≤ maxDecodedBlock :=
  ⟨(block_expansion 9 (by decide)).1, (block_expansion 9 (by decide)).2.2.1⟩

end Bound

/-- Two groups of one byte are told apart by the count of the first. -/
def Apart (group next : Group) : Prop := group.byte = next.byte → 4 ≤ group.rawLen

/-- Groups as the splitter makes them. -/
structure Grouped (groups : List Group) : Prop where
  bounds : ∀ group ∈ groups, 0 < group.rawLen ∧ group.rawLen ≤ maxRun
  apart : groups.IsChain Apart

/-- The bytes the groups stand for. -/
def rawBytes (groups : List Group) : List UInt8 := groups.flatMap Group.raw

def encodedBytes (groups : List Group) : List UInt8 := groups.flatMap Group.encoded

section Groups

variable {maxOutput blockOffset : Nat} {out rest : List UInt8} {byte : UInt8}

private theorem expandBytes_cons (x : Expansion) (byte : UInt8) (rest : List UInt8) :
    expandBytes maxOutput blockOffset x (byte :: rest) =
      expandByte maxOutput blockOffset x byte >>= fun x =>
        expandBytes maxOutput blockOffset x rest := rfl

private theorem expandByte_literal {previous : Option UInt8} {repeated : Nat} (few : repeated ≠ 4)
    (room : out.length < maxOutput) :
    expandByte maxOutput blockOffset ⟨out, previous, repeated⟩ byte =
      .ok ⟨out ++ [byte], some byte, if previous = some byte then repeated + 1 else 1⟩ := by
  rw [expandByte, if_neg few, if_neg (Nat.ne_of_lt room)]

private theorem expandBytes_run {repeated count : Nat} (few : repeated + count ≤ 4)
    (room : out.length + count ≤ maxOutput) :
    expandBytes maxOutput blockOffset ⟨out, some byte, repeated⟩ (List.replicate count byte ++ rest) =
      expandBytes maxOutput blockOffset ⟨out ++ List.replicate count byte, some byte, repeated + count⟩
        rest := by
  induction count generalizing out repeated with
  | zero => rw [List.replicate_zero, List.append_nil]; rfl
  | succ count ih =>
    rw [List.replicate_succ, List.cons_append, expandBytes_cons,
      expandByte_literal (by omega) (by omega), result_bind_ok, if_pos rfl,
      ih (by omega) (by rw [List.length_append, List.length_singleton]; omega),
      List.append_assoc, List.singleton_append, Nat.add_assoc, Nat.add_comm 1]

private theorem expandBytes_front {previous : Option UInt8} {repeated count : Nat}
    (fresh : repeated ≠ 4) (other : previous ≠ some byte) (pos : 0 < count) (few : count ≤ 4)
    (room : out.length + count ≤ maxOutput) :
    expandBytes maxOutput blockOffset ⟨out, previous, repeated⟩
        (List.replicate count byte ++ rest) =
      expandBytes maxOutput blockOffset ⟨out ++ List.replicate count byte, some byte, count⟩ rest := by
  obtain ⟨count, rfl⟩ := Nat.exists_eq_succ_of_ne_zero (Nat.pos_iff_ne_zero.mp pos)
  rw [List.replicate_succ, List.cons_append, expandBytes_cons,
    expandByte_literal fresh (by omega), result_bind_ok, if_neg other, expandBytes_run (by omega)
      (by rw [List.length_append, List.length_singleton]; omega), List.append_assoc,
    List.singleton_append, Nat.add_comm 1]

private theorem expandBytes_group {previous : Option UInt8} {repeated : Nat} {group : Group}
    (fresh : repeated ≠ 4) (other : previous ≠ some group.byte) (pos : 0 < group.rawLen)
    (le : group.rawLen ≤ maxRun) (room : out.length + group.rawLen ≤ maxOutput) :
    ∃ previous' repeated', repeated' ≠ 4 ∧
      (∀ next, Apart group next → previous' ≠ some next.byte) ∧
      expandBytes maxOutput blockOffset ⟨out, previous, repeated⟩ (group.encoded ++ rest) =
        expandBytes maxOutput blockOffset ⟨out ++ group.raw, previous', repeated'⟩ rest := by
  have hmax : maxRun = 259 := rfl
  unfold Group.encoded
  split
  case isTrue long =>
    refine ⟨none, 0, by decide, nofun, ?_⟩
    have hcount : (UInt8.ofNat (group.rawLen - 4)).toNat = group.rawLen - 4 :=
      UInt8.toNat_ofNat_of_lt' (by rw [UInt8.size]; omega)
    have hraw : out ++ group.raw = out ++ List.replicate 4 group.byte ++
        List.replicate (group.rawLen - 4) group.byte := by
      rw [List.append_assoc, List.replicate_append_replicate, Group.raw]
      congr 2
      omega
    rw [List.append_assoc, expandBytes_front fresh other (by decide) (by decide) (by omega),
      List.singleton_append, expandBytes_cons, expandByte, if_pos rfl, hcount, if_neg,
      result_bind_ok, hraw]
    · rfl
    · rw [List.length_append, List.length_replicate]
      omega
  case isFalse short =>
    refine ⟨some group.byte, group.rawLen, by omega, ?_,
      expandBytes_front fresh other pos (by omega) (by omega)⟩
    intro next apart same
    exact short (apart (Option.some.inj same))

/-- The expansion gives back what the groups stand for. -/
theorem expandBytes_groups {previous : Option UInt8} {repeated : Nat} {groups : List Group}
    (grouped : Grouped groups) (fresh : repeated ≠ 4)
    (other : ∀ group ∈ groups.head?, previous ≠ some group.byte)
    (room : out.length + (rawBytes groups).length ≤ maxOutput) :
    expandBytes maxOutput blockOffset ⟨out, previous, repeated⟩ (encodedBytes groups) =
      .ok (out ++ rawBytes groups) := by
  induction groups generalizing out previous repeated with
  | nil =>
    rw [rawBytes, List.flatMap_nil, List.append_nil]
    rfl
  | cons group groups ih =>
    have hraw : rawBytes (group :: groups) = group.raw ++ rawBytes groups := List.flatMap_cons
    have hencoded : encodedBytes (group :: groups) = group.encoded ++ encodedBytes groups :=
      List.flatMap_cons
    have hlength : group.raw.length = group.rawLen := List.length_replicate
    rw [hraw, List.length_append, hlength] at room
    obtain ⟨hpos, hle⟩ := grouped.bounds group List.mem_cons_self
    obtain ⟨previous', repeated', hfresh, hother, hgroup⟩ :=
      @expandBytes_group maxOutput blockOffset out (encodedBytes groups) previous repeated group fresh
        (other group rfl) hpos hle (by omega)
    have hrest : Grouped groups :=
      ⟨fun next hmem => grouped.bounds next (List.mem_cons_of_mem _ hmem), grouped.apart.tail⟩
    rw [hencoded, hgroup, hraw, ← List.append_assoc]
    apply ih hrest hfresh
    · intro next hnext
      apply hother
      exact List.IsChain.rel_head? grouped.apart hnext
    · rw [List.length_append, hlength]
      omega

private theorem pushRepeat_groups (crc : Bz2Crc) (groups : List Group) :
    groups.foldl (fun crc group => crc.pushRepeat group.byte group.rawLen) crc =
      crc.update (rawBytes groups) := by
  induction groups generalizing crc with
  | nil => rfl
  | cons group groups ih =>
    have hraw : rawBytes (group :: groups) = group.raw ++ rawBytes groups := List.flatMap_cons
    rw [List.foldl_cons, ih, Bz2Crc.pushRepeat_eq_update, hraw, Bz2Crc.update_append]
    rfl

end Groups

/-- The groups placed in the block, and that all groups at hand are groups of the splitter. The run
is empty only before the first byte and behind the last one. -/
structure Collector.Collects (i : Collector) (groups : List Group) : Prop where
  block : i.block = encodedBytes groups
  crc : i.blockCrc = Bz2Crc.new.update (rawBytes groups)
  inputLen : i.blockInputLen = (rawBytes groups).length
  grouped : Grouped (groups ++ i.group.toList ++ i.runs.finish.1.toList)
  fresh : i.runs.len = 0 → i.bytes = [] ∧ i.calls = [] ∨ groups ++ i.group.toList = []

section Collects

variable {i next : Collector} {groups : List Group} {group : Group}

theorem rawBytes_snoc (groups : List Group) (group : Group) :
    rawBytes (groups ++ [group]) = rawBytes groups ++ group.raw := by
  rw [rawBytes, List.flatMap_append, List.flatMap_singleton]
  rfl

private theorem Grouped.right {front back : List Group} (grouped : Grouped (front ++ back)) :
    Grouped back :=
  ⟨fun group hmem => grouped.bounds group (List.mem_append_right _ hmem),
    grouped.apart.right_of_append⟩

theorem Grouped.left {front back : List Group} (grouped : Grouped (front ++ back)) :
    Grouped front :=
  ⟨fun group hmem => grouped.bounds group (List.mem_append_left _ hmem),
    grouped.apart.left_of_append⟩

private theorem Grouped.snoc {front : List Group} (grouped : Grouped front)
    (bounds : 0 < group.rawLen ∧ group.rawLen ≤ maxRun)
    (apart : ∀ last ∈ front.getLast?, Apart last group) : Grouped (front ++ [group]) where
  bounds other hmem := by
    rcases List.mem_append.mp hmem with hmem | hmem
    · exact grouped.bounds other hmem
    · obtain rfl := List.mem_singleton.mp hmem
      exact bounds
  apart := by
    refine grouped.apart.append (.singleton _) ?_
    intro last hlast other hother
    obtain rfl := Option.some.inj hother
    exact apart last hlast

private theorem Grouped.last {front : List Group} (grouped : Grouped (front ++ [group])) :
    ∀ last ∈ front.getLast?, Apart last group :=
  fun last hlast => (List.isChain_append.mp grouped.apart).2.2 last hlast group rfl

private theorem Grouped.push {front : List Group} {s : Splitter}
    (grouped : Grouped (front ++ s.finish.1.toList)) (byte : UInt8)
    (fresh : s.len = 0 → front = []) :
    Grouped (front ++ (s.push byte).1.toList ++ (s.push byte).2.finish.1.toList) := by
  unfold Splitter.push
  split
  case isTrue more =>
    obtain ⟨hpos, rfl, hlt⟩ := more
    have hopen : s.finish.1 = some ⟨s.byte, s.len⟩ := by rw [Splitter.finish, if_neg (by omega)]
    rw [hopen] at grouped
    have hnext : (Splitter.finish { s with len := s.len + 1 }).1 = some ⟨s.byte, s.len + 1⟩ := by
      rw [Splitter.finish, if_neg (by exact Nat.succ_ne_zero _)]
    rw [hnext, Option.toList_none, List.append_nil]
    exact grouped.left.snoc ⟨Nat.succ_pos _, hlt⟩ grouped.last
  case isFalse other =>
    have hnext : (Splitter.finish ⟨byte, 1⟩).1 = some ⟨byte, 1⟩ := rfl
    rw [hnext]
    apply grouped.snoc ⟨Nat.one_pos, Nat.le_add_left 1 258⟩
    intro last hlast same
    by_cases hlen : s.len = 0
    · rw [fresh hlen, Splitter.finish, if_pos hlen] at hlast
      cases hlast
    · have hopen : s.finish.1 = some ⟨s.byte, s.len⟩ := by rw [Splitter.finish, if_neg hlen]
      rw [hopen, Option.toList_some, List.getLast?_concat] at hlast
      obtain rfl := Option.some.inj hlast
      have hmax : maxRun = 259 := rfl
      by_contra short
      have short : ¬ 4 ≤ s.len := short
      exact other ⟨by omega, same.symm, by omega⟩

theorem Collector.Collects.submitted (collects : i.Collects groups) :
    i.submitted.Collects [] where
  block := rfl
  crc := rfl
  inputLen := rfl
  grouped := by
    have hgrouped := collects.grouped
    rw [List.append_assoc] at hgrouped
    exact hgrouped.right
  fresh hlen := by
    rcases collects.fresh hlen with hdone | hnone
    · exact .inl hdone
    · exact .inr (List.append_eq_nil_iff.mp hnone).2

theorem Collector.Collects.place (collects : i.Collects groups) (hgroup : i.group = some group) :
    (i.place group).Collects (groups ++ [group]) where
  block := by
    rw [encodedBytes, List.flatMap_append, List.flatMap_singleton, ← encodedBytes, ← collects.block]
    rfl
  crc := by
    rw [rawBytes_snoc, Bz2Crc.update_append, ← collects.crc]
    exact Bz2Crc.pushRepeat_eq_update ..
  inputLen := by
    rw [rawBytes_snoc, List.length_append, ← collects.inputLen, Group.raw, List.length_replicate]
    rfl
  grouped := by
    have hgrouped := collects.grouped
    rw [hgroup] at hgrouped
    rw [Collector.place, Option.toList_none, List.append_nil]
    exact hgrouped
  fresh hlen := by
    have hfresh := collects.fresh hlen
    rw [hgroup] at hfresh
    rw [Collector.place, Option.toList_none, List.append_nil]
    exact hfresh

theorem Collector.Collects.push (collects : i.Collects groups) (hgroup : i.group = none)
    {byte : UInt8} {bytes : List UInt8} (hbytes : i.bytes = byte :: bytes) :
    (i.push byte bytes).Collects groups where
  block := collects.block
  crc := collects.crc
  inputLen := collects.inputLen
  grouped := by
    have hgrouped := collects.grouped
    rw [hgroup, Option.toList_none, List.append_nil] at hgrouped
    apply hgrouped.push byte
    intro hlen
    have hfresh := collects.fresh hlen
    rw [hbytes, hgroup, Option.toList_none, List.append_nil] at hfresh
    exact hfresh.resolve_left fun h => by cases h.1
  fresh hlen := by
    exfalso
    change (i.runs.push byte).2.len = 0 at hlen
    unfold Splitter.push at hlen
    split at hlen <;> cases hlen

theorem Collector.Collects.close (collects : i.Collects groups) (hgroup : i.group = none)
    (hbytes : i.bytes = []) (hcalls : i.calls = []) {runs : Splitter}
    (hfinish : i.runs.finish = (some group, runs)) :
    ({ i with group := some group, runs } : Collector).Collects groups := by
  have hruns : runs.finish.1 = none := by
    unfold Splitter.finish at hfinish
    split at hfinish
    · cases hfinish
    · obtain ⟨-, rfl⟩ := Prod.mk.inj hfinish
      rw [Splitter.finish, if_pos rfl]
  refine ⟨collects.block, collects.crc, collects.inputLen, ?_, fun _ => .inl ⟨hbytes, hcalls⟩⟩
  have hgrouped := collects.grouped
  rw [hgroup, hfinish] at hgrouped
  rw [hruns, Option.toList_none, List.append_nil]
  simpa using hgrouped

/-- Every step of the input side keeps the groups. -/
theorem Collector.Collects.keeps (collects : i.Collects groups)
    (step : i.request.next? = some next) : ∃ groups', next.Collects groups' := by
  unfold Collector.request at step
  split at step
  · next group hgroup =>
    split at step
    · obtain rfl := Option.some.inj step
      exact ⟨[], collects.submitted⟩
    · obtain rfl := Option.some.inj step
      exact ⟨_, collects.place hgroup⟩
  · next hgroup =>
    split at step
    · next byte bytes hbytes =>
      obtain rfl := Option.some.inj step
      exact ⟨groups, collects.push hgroup hbytes⟩
    · next hbytes =>
      split at step
      · next bytes calls hcalls =>
        obtain rfl := Option.some.inj step
        refine ⟨groups, collects.block, collects.crc, collects.inputLen, collects.grouped, ?_⟩
        intro hlen
        have hfresh := collects.fresh hlen
        rw [hcalls] at hfresh
        exact .inr (hfresh.resolve_left fun h => by cases h.2)
      · next calls hcalls =>
        obtain rfl := Option.some.inj step
        refine ⟨groups, collects.block, collects.crc, collects.inputLen, collects.grouped, ?_⟩
        intro hlen
        have hfresh := collects.fresh hlen
        rw [hcalls] at hfresh
        exact .inr (hfresh.resolve_left fun h => by cases h.2)
      · next hcalls =>
        unfold Collector.close at step
        split at step
        · next group runs hfinish =>
          obtain rfl := Option.some.inj step
          exact ⟨groups, collects.close hgroup hbytes hcalls hfinish⟩
        · split at step
          · cases step
          · obtain rfl := Option.some.inj step
            exact ⟨[], collects.submitted⟩

/-- What is cut is the block with its checksum and length. -/
theorem Collector.Collects.job (collects : i.Collects groups) {job : EncodedBlock}
    (cut : i.request.job? = some job) :
    job = encodeBlock
      ⟨encodedBytes groups, bz2Crc32 (rawBytes groups), (rawBytes groups).length⟩ := by
  have hjob : i.job = encodeBlock
      ⟨encodedBytes groups, bz2Crc32 (rawBytes groups), (rawBytes groups).length⟩ := by
    rw [Collector.job, collects.block, collects.crc, collects.inputLen]
    rfl
  rw [← hjob]
  unfold Collector.request Collector.close at cut
  split at cut
  · split at cut
    · exact (Option.some.inj cut).symm
    · cases cut
  · split at cut
    · cases cut
    · split at cut
      · cases cut
      · cases cut
      · split at cut
        · cases cut
        · split at cut
          · cases cut
          · exact (Option.some.inj cut).symm

private theorem jobs_groups (collects : i.Collects groups) {job : EncodedBlock}
    (mem : job ∈ encoderClient.jobs i) : ∃ groups, Grouped groups ∧ job = encodeBlock
      ⟨encodedBytes groups, bz2Crc32 (rawBytes groups), (rawBytes groups).length⟩ := by
  induction hn : i.remaining using Nat.strongRecOn generalizing i groups with
  | ind n ih =>
    cases hnext : (encoderClient.request i).next? with
    | none =>
      rw [Client.jobs_finish hnext] at mem
      cases mem
    | some next =>
      rw [Client.jobs_next hnext] at mem
      rcases List.mem_append.mp mem with hmem | hmem
      · have hgrouped := collects.grouped
        rw [List.append_assoc] at hgrouped
        exact ⟨groups, hgrouped.left, collects.job (Option.mem_toList.mp hmem)⟩
      · obtain ⟨groups', hcollects⟩ := collects.keeps hnext
        exact ih _ (hn ▸ Collector.request_decreases i next hnext) hcollects hmem rfl

theorem collects_start (limit : Nat) (calls : List Call) :
    ({ blockLimit := limit, calls } : Collector).Collects [] where
  block := rfl
  crc := rfl
  inputLen := rfl
  grouped := ⟨by rintro group ⟨⟩, .nil⟩
  fresh _ := .inr rfl

end Collects

/-- The checksum is the one taken bit by bit, also when runs are pushed; the one the encoder stores
for a block is that of the bytes the decoder expands the block to. -/
theorem blockCrc_exact :
    (∀ data, bz2Crc32 data = bitwiseCrc32 data) ∧
    (∀ groups : List Group,
      (groups.foldl (fun crc group => crc.pushRepeat group.byte group.rawLen) Bz2Crc.new).finish =
        bitwiseCrc32 (rawBytes groups)) ∧
    ∀ limit calls, ∀ job ∈ encoderClient.jobs { blockLimit := limit, calls }, ∃ block raw,
      job = encodeBlock ⟨block, bitwiseCrc32 raw, raw.length⟩ ∧
        ∀ maxOutput blockOffset, raw.length ≤ maxOutput →
          expandBytes maxOutput blockOffset {} block = .ok raw := by
  refine ⟨bz2Crc32_eq_bitwise, ?_, ?_⟩
  · intro groups
    rw [pushRepeat_groups, ← bz2Crc32_eq_bitwise]
    rfl
  · intro limit calls job hmem
    obtain ⟨groups, hgrouped, rfl⟩ := jobs_groups (collects_start limit calls) hmem
    refine ⟨encodedBytes groups, rawBytes groups, by rw [bz2Crc32_eq_bitwise], ?_⟩
    intro maxOutput blockOffset hroom
    have hexpand := @expandBytes_groups maxOutput blockOffset [] none 0 groups hgrouped (by decide)
      nofun (by rw [List.length_nil, Nat.zero_add]; exact hroom)
    rw [List.nil_append] at hexpand
    exact hexpand

/-- A write of five equal bytes, which are one run and one block. -/
theorem blockCrc_exact_run :
    bz2Crc32 [7, 7, 7, 7, 7] = bitwiseCrc32 [7, 7, 7, 7, 7] ∧
      (Bz2Crc.new.pushRepeat 7 5).finish = bitwiseCrc32 (rawBytes [⟨7, 5⟩]) ∧
      ∃ job block raw,
        encoderClient.jobs { blockLimit := blockLimit 1, calls := [.write [7, 7, 7, 7, 7]] } =
          [job] ∧
        job = encodeBlock ⟨block, bitwiseCrc32 raw, raw.length⟩ ∧
        ∀ maxOutput blockOffset, raw.length ≤ maxOutput →
          expandBytes maxOutput blockOffset {} block = .ok raw := by
  obtain ⟨hbytes, hgroups, hjobs⟩ := blockCrc_exact
  obtain ⟨job, hjob⟩ : ∃ job, encoderClient.jobs
      { blockLimit := blockLimit 1, calls := [.write [7, 7, 7, 7, 7]] } = [job] := by
    -- the call, five bytes, the open run, its group and the block
    rw [Client.jobs_next rfl, Client.jobs_next rfl, Client.jobs_next rfl, Client.jobs_next rfl,
      Client.jobs_next rfl, Client.jobs_next rfl, Client.jobs_next rfl, Client.jobs_next rfl,
      Client.jobs_next rfl, Client.jobs_finish rfl]
    exact ⟨_, rfl⟩
  obtain ⟨block, raw, heq, hexpand⟩ := hjobs _ _ job (hjob ▸ List.mem_singleton_self job)
  exact ⟨hbytes _, hgroups [⟨7, 5⟩], job, block, raw, hjob, heq, hexpand⟩

end Fbz.Bzip2
