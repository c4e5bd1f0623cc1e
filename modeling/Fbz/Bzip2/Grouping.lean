import Fbz.Bzip2.RunExpansion

/-!
# The blocks of the encoder

The blocks that are cut hold the groups of all bytes, one after the other, whatever calls the bytes
came in. None of them is empty, and none is longer than the limit.
-/

namespace Fbz.Bzip2

open Pipeline Rle1

/-- The block that is cut of these groups. -/
def groupsJob (groups : List Group) : EncodedBlock :=
  encodeBlock ⟨encodedBytes groups, bz2Crc32 (rawBytes groups), (rawBytes groups).length⟩

/-- Groups that make a block. -/
structure Fills (limit : Nat) (groups : List Group) : Prop where
  grouped : Grouped groups
  ne : groups ≠ []
  fits : (encodedBytes groups).length ≤ limit

theorem encodedBytes_length_pos {groups : List Group} (grouped : Grouped groups)
    (ne : groups ≠ []) : 0 < (encodedBytes groups).length := by
  obtain ⟨group, hgroup⟩ := List.exists_mem_of_ne_nil groups ne
  have hpos := (grouped.bounds group hgroup).1
  have hencoded : 0 < group.encoded.length := by
    rw [Group.encoded_length, Group.encodedLen]
    split <;> omega
  apply List.length_pos_of_mem
  exact List.mem_flatMap.mpr ⟨group, hgroup, List.getElem_mem hencoded⟩

theorem rawBytes_length_pos {groups : List Group} (grouped : Grouped groups) (ne : groups ≠ []) :
    0 < (rawBytes groups).length := by
  obtain ⟨group, hgroup⟩ := List.exists_mem_of_ne_nil groups ne
  have hpos := (grouped.bounds group hgroup).1
  have hraw : 0 < group.raw.length := by rwa [Group.raw, List.length_replicate]
  apply List.length_pos_of_mem
  exact List.mem_flatMap.mpr ⟨group, hgroup, List.getElem_mem hraw⟩

namespace Collector

variable {i next : Collector} {groups : List Group} {group : Group}

/-- The bytes that are in no block yet: of the group at hand, of the open run, of the write at hand
and of the calls to come. -/
def ahead (i : Collector) : List UInt8 :=
  Splitter.rawOf i.group ++ (i.runs.raw ++ (i.bytes ++ (i.calls.map Call.bytes).flatten))

/-- The blocks to be cut hold these groups and all that is ahead. -/
def Cuts (i : Collector) (groups : List Group) : Prop :=
  ∃ blocks : List (List Group), encoderClient.jobs i = blocks.map groupsJob ∧
    (∀ block ∈ blocks, Fills i.blockLimit block) ∧
    blocks.flatMap rawBytes = rawBytes groups ++ i.ahead

private theorem Cuts.step {later : List Group} {r : Request Collector EncodedBlock}
    (request : i.request = r)
    (next? : r.next? = some next) (job : r.job? = none) (limit : next.blockLimit = i.blockLimit)
    (same : rawBytes later ++ next.ahead = rawBytes groups ++ i.ahead) (cuts : next.Cuts later) :
    i.Cuts groups := by
  subst request
  obtain ⟨blocks, hjobs, hblocks, hraw⟩ := cuts
  have hnext : (encoderClient.request i).next? = some next := next?
  have hnone : (encoderClient.request i).job? = none := job
  refine ⟨blocks, ?_, limit ▸ hblocks, hraw.trans same⟩
  rw [Client.jobs_next hnext, hnone, hjobs]
  rfl

private theorem Cuts.submit (collects : i.Collects groups) (fits : i.block.length ≤ i.blockLimit)
    (ne : i.block ≠ []) (request : i.request = .submit i.job i.submitted)
    (cuts : i.submitted.Cuts []) : i.Cuts groups := by
  obtain ⟨blocks, hjobs, hblocks, hraw⟩ := cuts
  have hjob : (encoderClient.request i).job? = some i.job := congrArg Request.job? request
  have hnext : (encoderClient.request i).next? = some i.submitted := congrArg Request.next? request
  have hgrouped := collects.grouped
  rw [List.append_assoc] at hgrouped
  have hblock : Fills i.blockLimit groups := by
    refine ⟨hgrouped.left, ?_, collects.block ▸ fits⟩
    intro hnil
    rw [collects.block, hnil] at ne
    exact ne rfl
  refine ⟨groups :: blocks, ?_, List.forall_mem_cons.mpr ⟨hblock, hblocks⟩, ?_⟩
  · rw [Client.jobs_next hnext, hjob, hjobs, collects.job (congrArg Request.job? request)]
    rfl
  · rw [List.flatMap_cons, hraw]
    rfl

private theorem Collects.call (collects : i.Collects groups) {call : Call} {calls : List Call}
    (hcalls : i.calls = call :: calls) (bytes : List UInt8) :
    ({ i with bytes, calls } : Collector).Collects groups := by
  refine ⟨collects.block, collects.crc, collects.inputLen, collects.grouped, ?_⟩
  intro hlen
  have hfresh := collects.fresh hlen
  rw [hcalls] at hfresh
  right
  exact hfresh.resolve_left fun h => List.cons_ne_nil _ _ h.2

private theorem push_ahead {byte : UInt8} {bytes : List UInt8} (hgroup : i.group = none)
    (hbytes : i.bytes = byte :: bytes) : (i.push byte bytes).ahead = i.ahead := by
  have hpush := Splitter.push_raw i.runs byte
  rw [ahead, ahead, hgroup, hbytes]
  show Splitter.rawOf (i.runs.push byte).1 ++ ((i.runs.push byte).2.raw ++
    (bytes ++ (i.calls.map Call.bytes).flatten)) = _
  rw [← List.append_assoc, hpush]
  simp [Splitter.rawOf]

private theorem place_fits (five : 5 ≤ i.blockLimit)
    (room : ¬ (i.blockLimit < i.block.length + group.encodedLen ∧ i.block ≠ [])) :
    (i.place group).block.length ≤ (i.place group).blockLimit := by
  show (i.block ++ group.encoded).length ≤ i.blockLimit
  rw [List.length_append, Group.encoded_length]
  by_cases hblock : i.block = []
  · have hencoded : group.encodedLen ≤ 5 := by
      rw [Group.encodedLen]
      split <;> omega
    rw [hblock, List.length_nil]
    omega
  · have hle : ¬ i.blockLimit < i.block.length + group.encodedLen := fun h => room ⟨h, hblock⟩
    omega

private theorem close_raw {s runs : Splitter} {closed : Option Group}
    (finish : s.finish = (closed, runs)) : s.raw = Splitter.rawOf closed ∧ runs.raw = [] := by
  have hraw := Splitter.finish_raw s
  rw [finish] at hraw
  refine ⟨hraw.symm, ?_⟩
  unfold Splitter.finish at finish
  split at finish
  case isTrue hlen =>
    cases finish
    rw [Splitter.raw, hlen]
    rfl
  case isFalse =>
    cases finish
    rfl

/-- Whatever is collected, the blocks to be cut hold it. -/
theorem Collects.cuts (collects : i.Collects groups) (five : 5 ≤ i.blockLimit)
    (fits : i.block.length ≤ i.blockLimit) : i.Cuts groups := by
  induction hn : i.remaining using Nat.strongRecOn generalizing i groups with
  | ind n ih =>
    subst hn
    have hless {next : Collector} {r : Request Collector EncodedBlock} (hrequest : i.request = r)
        (hnext : r.next? = some next) : next.remaining < i.remaining :=
      request_decreases i next (hrequest ▸ hnext)
    have hsubmitted (hrequest : i.request = .submit i.job i.submitted) : i.submitted.Cuts [] :=
      ih _ (hless hrequest rfl) collects.submitted five (Nat.zero_le _) rfl
    cases hgroup : i.group with
    | some group =>
      by_cases hfull : i.blockLimit < i.block.length + group.encodedLen ∧ i.block ≠ []
      · have hrequest := request_submit hgroup hfull
        exact .submit collects fits hfull.2 hrequest (hsubmitted hrequest)
      · have hrequest := request_place hgroup hfull
        have hplaced := ih _ (hless hrequest rfl) (collects.place hgroup) five
          (place_fits five hfull) rfl
        apply hplaced.step hrequest rfl rfl rfl
        rw [rawBytes_snoc, ahead, ahead, hgroup]
        simp only [Splitter.rawOf, Option.elim_some, List.append_assoc]
        rfl
    | none =>
      cases hbytes : i.bytes with
      | cons byte bytes =>
        have hrequest := request_byte hgroup hbytes
        have hpushed := ih _ (hless hrequest rfl) (collects.push hgroup hbytes) five fits rfl
        apply hpushed.step hrequest rfl rfl rfl
        rw [push_ahead hgroup hbytes]
      | nil =>
        cases hcalls : i.calls with
        | cons call calls =>
          cases call with
          | write bytes =>
            have hrequest := request_write hgroup hbytes hcalls
            have hcalled := ih _ (hless hrequest rfl) (collects.call hcalls bytes) five fits rfl
            apply hcalled.step hrequest rfl rfl rfl
            simp [ahead, hbytes, hcalls, Call.bytes]
          | flush =>
            have hrequest : i.request = .touch { i with calls } := by
              rw [request, hgroup, hbytes, hcalls]
            have hcalled := ih _ (hless hrequest rfl) (collects.call hcalls i.bytes) five fits rfl
            apply hcalled.step hrequest rfl rfl rfl
            simp [ahead, hcalls, Call.bytes]
        | nil =>
          have hclose : i.request = i.close := by rw [request, hgroup, hbytes, hcalls]
          cases hfinish : i.runs.finish with
          | mk closed runs =>
            cases closed with
            | some group =>
              have hrequest : i.request = .compute { i with group := some group, runs } := by
                rw [hclose, Collector.close, hfinish]
              have hclosed := ih _ (hless hrequest rfl)
                (collects.close hgroup hbytes hcalls hfinish) five fits rfl
              apply hclosed.step hrequest rfl rfl rfl
              obtain ⟨hraw, hnone⟩ := close_raw hfinish
              rw [ahead, ahead, hgroup, hraw]
              simp [Splitter.rawOf, hnone]
            | none =>
              by_cases hblock : i.block = []
              · have hrequest : i.request = .finish := by
                  rw [hclose, Collector.close, hfinish]
                  exact if_pos hblock
                have hgroups : groups = [] := by
                  have hgrouped := collects.grouped
                  rw [List.append_assoc] at hgrouped
                  by_contra hne
                  have hpos := encodedBytes_length_pos hgrouped.left hne
                  rw [← collects.block, hblock] at hpos
                  exact Nat.lt_irrefl 0 hpos
                refine ⟨[], Client.jobs_finish (congrArg Request.next? hrequest), by simp, ?_⟩
                rw [ahead, hgroup, hbytes, hcalls, hgroups, (close_raw hfinish).1]
                rfl
              · have hrequest : i.request = .submit i.job i.submitted := by
                  rw [hclose, Collector.close, hfinish]
                  exact if_neg hblock
                exact .submit collects fits hblock hrequest (hsubmitted hrequest)

end Collector

end Fbz.Bzip2
