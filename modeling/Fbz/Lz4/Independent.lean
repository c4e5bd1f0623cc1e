import Fbz.Lz4.Decode
import Fbz.Pipeline.Returns

/-!
# Independent LZ4 blocks on several threads

`decode_independent` reads ahead batches of blocks, decodes each batch inline or through the
worker pipeline, and holds a parse error back until the blocks before it are out. Under every
schedule of the workers it delivers what one thread delivers and ends the same way.
-/

namespace Fbz.Lz4

open Transition Pipeline

variable {xxh : XxHash32}

/-- Work estimated for a block: stored blocks cost only their checksum. -/
def BlockLayout.work (block : BlockLayout) (maxBlockSize : Nat) : Nat :=
  if block.stored then
    if block.expectedChecksum.isSome then block.dataEnd - block.dataStart else 0
  else maxBlockSize

/-- What one look-ahead has found. -/
structure Batch where
  blocks : List BlockLayout := []
  estimatedWork : Nat := 0
  parseError : Option Error := none
  ended : Bool := false
  position : Nat

def collectBatch (data : List UInt8) (frame : FrameHeader) (threads : Nat) (batch : Batch) :
    Batch :=
  if batch.blocks.length < maxBatchBlocks ∧
      (batch.blocks.length < threads ∨ batch.estimatedWork < minParallelInput) then
    match nextBlock data batch.position frame with
    | .ok (some block, next) => collectBatch data frame threads
        { batch with
          blocks := batch.blocks ++ [block]
          estimatedWork := batch.estimatedWork + block.work frame.maxBlockSize
          position := next }
    | .ok (none, next) => { batch with ended := true, position := next }
    | .error error => { batch with ended := true, parseError := some error }
  else batch
termination_by maxBatchBlocks - batch.blocks.length
decreasing_by
  simp only [List.length_append, List.length_singleton]
  omega

def Batch.parallelWork (batch : Batch) : Bool :=
  decide (2 ≤ batch.blocks.length) && decide (minParallelInput ≤ batch.estimatedWork) &&
    batch.blocks.any fun block => !block.stored || block.expectedChecksum.isSome

/-- The blocks of a batch one after the other, up to the first that fails. -/
def FrameCommitter.commitAll (data : List UInt8) (maxBlockSize : Nat) :
    FrameCommitter xxh → List BlockLayout → FrameCommitter xxh × Result Unit
  | c, [] => (c, .ok ())
  | c, block :: blocks =>
    match c.decodeAndCommit data maxBlockSize block with
    | (c, .error error) => (c, .error error)
    | (c, .ok ()) => c.commitAll data maxBlockSize blocks

/-- Where the coordinator of a batch stands. -/
structure BatchCursor (xxh : XxHash32) where
  committer : FrameCommitter xxh
  remaining : List (BlockLayout × Nat)
  failed : Option Error := none

def batchConsumer (data : List UInt8) : Consumer (Result DecodedBlock) Empty Empty
    (FrameCommitter xxh × Result Unit) (BatchCursor xxh) where
  op cursor :=
    match cursor.failed, cursor.remaining with
    | some error, _ => .done (cursor.committer, .error error)
    | none, [] => .done (cursor.committer, .ok ())
    | none, (_, key) :: _ => .take key
  afterTake cursor value :=
    match cursor.remaining, value with
    | [], _ => cursor
    | _, .error error => { cursor with failed := some error }
    | (block, _) :: remaining, .ok decoded =>
      match cursor.committer.commit data block decoded with
      | (committer, .ok ()) => { committer, remaining }
      | (committer, .error error) => { committer, remaining, failed := some error }
  afterTakePrimary cursor _ _ := cursor
  afterTakeStage cursor _ := cursor
  after cursor := cursor

/-- The pipeline a batch is decoded with. `capacity` is what the allocator gives a vector. -/
def batchProgram (data : List UInt8) (frame : FrameHeader) (memoryLimit threads : Nat)
    (capacity : List UInt8 → Nat) (blocks : List BlockLayout) :
    Program BlockLayout (Result DecodedBlock) Empty Empty (FrameCommitter xxh × Result Unit)
      (BatchCursor xxh) where
  staged := false
  jobs := blocks.zipIdx.map fun (block, key) =>
    ⟨key, if block.stored then 0 else frame.maxBlockSize, block⟩
  limits := ⟨memoryLimit, threads + 2⟩
  execute block := some (decodeLayoutBlock xxh data block [] frame.maxBlockSize)
  retainedSize
    | .ok decoded => decoded.retainedBytes capacity
    | .error _ => 0
  executeStage := nofun
  consumer := batchConsumer data

/-- Where `decode_independent` stands between two steps. -/
inductive IndependentState (xxh : XxHash32)
  | scanning (position : Nat) (c : FrameCommitter xxh)
  | parallel (batch : Batch)
      (s : Pipeline.State (Result DecodedBlock) Empty Empty (FrameCommitter xxh × Result Unit)
        (BatchCursor xxh))
  | done (outcome : FrameCommitter xxh × Result Nat)

/-- What follows once the blocks of a batch have been dealt with. -/
def Batch.next (batch : Batch) : FrameCommitter xxh × Result Unit → IndependentState xxh
  | (c, .error error) => .done (c, .error error)
  | (c, .ok ()) =>
    match batch.parseError with
    | some error => .done (c, .error error)
    | none => if batch.ended then .done (c, .ok batch.position) else .scanning batch.position c

/-- Where `decode_independent` runs: the options, the machine and the allocator. -/
structure Setting where
  options : DecodeOptions
  parallelism : Nat
  capacity : List UInt8 → Nat

def Setting.threads (setting : Setting) : Nat := workerThreads setting.options setting.parallelism

/-- The one-thread path is taken for one thread or where two blocks do not fit in memory. -/
def Setting.serial (setting : Setting) (frame : FrameHeader) : Bool :=
  decide (setting.threads = 1) ||
    decide (setting.options.memoryLimit / frame.maxBlockSize < 2)

def Setting.program (xxh : XxHash32) (setting : Setting) (data : List UInt8) (frame : FrameHeader)
    (batch : Batch) : Program BlockLayout (Result DecodedBlock) Empty Empty
      (FrameCommitter xxh × Result Unit) (BatchCursor xxh) :=
  batchProgram data frame setting.options.memoryLimit setting.threads setting.capacity batch.blocks

/-- The steps of `decode_independent`; those of the worker pipeline interleave freely. -/
inductive IndependentStep (setting : Setting) (data : List UInt8) (frame : FrameHeader) :
    IndependentState xxh → IndependentState xxh → Prop
  | serial {position c} (single : setting.serial frame = true) :
      IndependentStep setting data frame (.scanning position c)
        (.done (decodeIndependentSerial data frame position c))
  | empty {position c batch} (many : setting.serial frame = false)
      (collected : collectBatch data frame setting.threads { position } = batch)
      (nil : batch.blocks = []) :
      IndependentStep setting data frame (.scanning position c)
        (.done (c, match batch.parseError with
          | some error => .error error
          | none => .ok batch.position))
  | inline {position c batch} (many : setting.serial frame = false)
      (collected : collectBatch data frame setting.threads { position } = batch)
      (nonempty : batch.blocks ≠ []) (little : batch.parallelWork = false) :
      IndependentStep setting data frame (.scanning position c)
        (batch.next (c.commitAll data frame.maxBlockSize batch.blocks))
  | refuse {position c batch} (many : setting.serial frame = false)
      (collected : collectBatch data frame setting.threads { position } = batch)
      (much : batch.parallelWork = true)
      (large : (setting.program xxh data frame batch).admissible = false) :
      IndependentStep setting data frame (.scanning position c)
        (batch.next (c, .error reservationError))
  | spawn {position c batch} (many : setting.serial frame = false)
      (collected : collectBatch data frame setting.threads { position } = batch)
      (much : batch.parallelWork = true)
      (admissible : (setting.program xxh data frame batch).admissible = true) :
      IndependentStep setting data frame (.scanning position c)
        (.parallel batch ((setting.program xxh data frame batch).init setting.threads
          { committer := c, remaining := batch.blocks.zipIdx }))
  | run {batch s t} (step : (setting.program xxh data frame batch).Step s t) :
      IndependentStep setting data frame (.parallel batch s) (.parallel batch t)
  | join {batch s r} (returned : Program.Returned s) (result : s.finished = some r) :
      IndependentStep setting data frame (.parallel batch s) (batch.next r)

/-- `blocks` are the blocks read between the two positions. -/
private inductive Chain (data : List UInt8) (frame : FrameHeader) (start : Nat) :
    List BlockLayout → Nat → Prop
  | nil : Chain data frame start [] start
  | snoc {blocks position block next} (front : Chain data frame start blocks position)
      (last : nextBlock data position frame = .ok (some block, next)) :
      Chain data frame start (blocks ++ [block]) next

private theorem chain_position {data : List UInt8} {frame : FrameHeader} {start position : Nat}
    {blocks : List BlockLayout} (h : Chain data frame start blocks position) :
    start ≤ position ∧ (blocks ≠ [] → start < position ∧ position ≤ data.length) := by
  induction h with
  | nil => exact ⟨Nat.le_refl _, fun h => absurd rfl h⟩
  | snoc _ last ih =>
    have := nextBlock_some last
    omega

private theorem commitAll_append (data : List UInt8) (maxBlockSize : Nat) (c : FrameCommitter xxh)
    (front back : List BlockLayout) :
    c.commitAll data maxBlockSize (front ++ back) =
      match c.commitAll data maxBlockSize front with
      | (c, .error error) => (c, .error error)
      | (c, .ok ()) => c.commitAll data maxBlockSize back := by
  induction front generalizing c with
  | nil => rfl
  | cons block blocks ih =>
    rw [List.cons_append, FrameCommitter.commitAll, FrameCommitter.commitAll]
    split
    · rfl
    · exact ih _

private theorem commitAll_singleton (data : List UInt8) (maxBlockSize : Nat)
    (c : FrameCommitter xxh) (block : BlockLayout) :
    c.commitAll data maxBlockSize [block] = c.decodeAndCommit data maxBlockSize block := by
  rw [FrameCommitter.commitAll]
  split <;> simp_all [FrameCommitter.commitAll]

private theorem serial_chain {data : List UInt8} {frame : FrameHeader} {start position : Nat}
    {blocks : List BlockLayout} (h : Chain data frame start blocks position)
    (c : FrameCommitter xxh) :
    decodeIndependentSerial data frame start c =
      match c.commitAll data frame.maxBlockSize blocks with
      | (c, .error error) => (c, .error error)
      | (c, .ok ()) => decodeIndependentSerial data frame position c := by
  induction h with
  | nil => rfl
  | @snoc _ position _ _ _ last ih =>
    rw [ih, commitAll_append]
    split
    · rfl
    · have step := @decodeIndependentSerial_eq xxh data frame position
      rw [last] at step
      rw [commitAll_singleton]
      exact step _

/-- What one thread does from the end of a batch on. -/
private def resume (data : List UInt8) (frame : FrameHeader) (batch : Batch) :
    FrameCommitter xxh × Result Unit → FrameCommitter xxh × Result Nat
  | (c, .error error) => (c, .error error)
  | (c, .ok ()) =>
    match batch.parseError with
    | some error => (c, .error error)
    | none =>
      if batch.ended then (c, .ok batch.position)
      else decodeIndependentSerial data frame batch.position c

private theorem serial_collect {data : List UInt8} {frame : FrameHeader} {start threads : Nat}
    {batch : Batch} (chain : Chain data frame start batch.blocks batch.position)
    (parseError : batch.parseError = none) (ended : batch.ended = false)
    (c : FrameCommitter xxh) :
    decodeIndependentSerial data frame start c =
      resume data frame (collectBatch data frame threads batch)
        (c.commitAll data frame.maxBlockSize (collectBatch data frame threads batch).blocks) := by
  induction batch using collectBatch.induct data frame threads with
  | case1 batch more block next hnext ih =>
    rw [collectBatch, if_pos more, hnext]
    exact ih (chain.snoc hnext) parseError ended
  | case2 batch more next hnext =>
    rw [collectBatch, if_pos more, hnext, serial_chain chain]
    dsimp only
    split
    · simp only [resume, *]
    · rw [decodeIndependentSerial_eq, hnext]
      simp only [resume, *, if_true]
  | case3 batch more error hnext =>
    rw [collectBatch, if_pos more, hnext, serial_chain chain]
    dsimp only
    split
    · simp only [resume, *]
    · rw [decodeIndependentSerial_eq, hnext]
      simp only [resume, *]
  | case4 batch less =>
    rw [collectBatch, if_neg less, serial_chain chain]
    split
    · simp only [resume, *]
    · simp only [resume, *, Bool.false_eq_true, if_false]

private theorem collect_open {data : List UInt8} {frame : FrameHeader} {start threads : Nat}
    {batch : Batch} (chain : Chain data frame start batch.blocks batch.position)
    (work : batch.blocks = [] → batch.estimatedWork = 0)
    (more : (collectBatch data frame threads batch).ended = false) :
    (collectBatch data frame threads batch).blocks ≠ [] ∧
      Chain data frame start (collectBatch data frame threads batch).blocks
        (collectBatch data frame threads batch).position := by
  induction batch using collectBatch.induct data frame threads with
  | case1 batch room block next hnext ih =>
    rw [collectBatch, if_pos room, hnext] at more ⊢
    exact ih (chain.snoc hnext) (fun hnil => absurd hnil (List.append_ne_nil_of_right_ne_nil _ nofun))
      more
  | case2 batch room next hnext => rw [collectBatch, if_pos room, hnext] at more; cases more
  | case3 batch room error hnext => rw [collectBatch, if_pos room, hnext] at more; cases more
  | case4 batch full =>
    rw [collectBatch, if_neg full]
    refine ⟨fun hnil => full ?_, chain⟩
    rw [work hnil, hnil]
    exact ⟨by decide, .inr (by decide)⟩

/-- What is left to a coordinator, done on one thread. -/
private def BatchCursor.settle (data : List UInt8) (maxBlockSize : Nat) (cursor : BatchCursor xxh) :
    FrameCommitter xxh × Result Unit :=
  match cursor.failed with
  | some error => (cursor.committer, .error error)
  | none => cursor.committer.commitAll data maxBlockSize (cursor.remaining.map Prod.fst)

/-- Every state of a batch's coordinator settles the same way, and what it has taken is a prefix
of the batch. -/
private structure Settles (data : List UInt8) (maxBlockSize : Nat) (blocks : List BlockLayout)
    (outcome : FrameCommitter xxh × Result Unit) (g : Ledger Empty (BatchCursor xxh)) : Prop where
  settle : g.consumer.settle data maxBlockSize = outcome
  leases : g.leases = []
  submitted : g.submitted = []
  taken : g.consumer.failed = none → ∃ count, g.consumer.remaining = blocks.zipIdx.drop count ∧
    ∀ key, key ∈ g.consumed ↔ key < count

private theorem op_take {data : List UInt8} {cursor : BatchCursor xxh} {key : Nat}
    (h : (batchConsumer data).op cursor = .take key) :
    cursor.failed = none ∧ ∃ block rest, cursor.remaining = (block, key) :: rest := by
  obtain ⟨committer, remaining, failed⟩ := cursor
  match failed, remaining with
  | some error, _ => cases h
  | none, [] => cases h
  | none, (block, key') :: rest =>
    obtain rfl := Op.take.inj h
    exact ⟨rfl, block, rest, rfl⟩

private theorem op_cases (data : List UInt8) (cursor : BatchCursor xxh) :
    (∃ r, (batchConsumer data).op cursor = .done r) ∨
      ∃ key, (batchConsumer data).op cursor = .take key := by
  obtain ⟨committer, remaining, failed⟩ := cursor
  match failed, remaining with
  | some error, _ => exact .inl ⟨_, rfl⟩
  | none, [] => exact .inl ⟨_, rfl⟩
  | none, (block, key) :: rest => exact .inr ⟨key, rfl⟩

private theorem op_done {data : List UInt8} {maxBlockSize : Nat} {cursor : BatchCursor xxh}
    {r : FrameCommitter xxh × Result Unit} (h : (batchConsumer data).op cursor = .done r) :
    cursor.settle data maxBlockSize = r := by
  obtain ⟨committer, remaining, failed⟩ := cursor
  match failed, remaining with
  | some error, _ => exact Op.done.inj h
  | none, [] => exact Op.done.inj h
  | none, (block, key) :: rest => cases h

private theorem remaining_head {blocks : List BlockLayout} {count key : Nat} {block : BlockLayout}
    {rest : List (BlockLayout × Nat)} (h : blocks.zipIdx.drop count = (block, key) :: rest) :
    key = count ∧ blocks[count]? = some block ∧ rest = blocks.zipIdx.drop (count + 1) := by
  have hlt : count < blocks.zipIdx.length := by
    refine Nat.lt_of_not_le fun hle => ?_
    rw [List.drop_eq_nil_of_le hle] at h
    cases h
  rw [List.drop_eq_getElem_cons hlt] at h
  obtain ⟨hhead, hrest⟩ := List.cons.inj h
  rw [List.getElem_zipIdx] at hhead
  obtain ⟨hblock, hkey⟩ := Prod.mk.inj hhead
  rw [List.length_zipIdx] at hlt
  exact ⟨by omega, by rw [List.getElem?_eq_getElem hlt, hblock], hrest.symm⟩

section Batch

variable {data : List UInt8} {frame : FrameHeader} {memoryLimit threads : Nat}
  {capacity : List UInt8 → Nat} {blocks : List BlockLayout}

private theorem mem_jobs {job : Job BlockLayout}
    (h : job ∈ (@batchProgram xxh data frame memoryLimit threads capacity blocks).jobs) :
    blocks[job.key]? = some job.payload ∧
      (job.reservation = 0 ∨ job.reservation = frame.maxBlockSize) := by
  obtain ⟨⟨block, key⟩, hmem, rfl⟩ := List.mem_map.mp h
  refine ⟨by simpa [List.mem_zipIdx_iff_getElem?] using hmem, ?_⟩
  dsimp only
  split
  · exact .inl rfl
  · exact .inr rfl

private theorem settles_step {outcome : FrameCommitter xxh × Result Unit}
    {g g' : Ledger Empty (BatchCursor xxh)} (h : Settles data frame.maxBlockSize blocks outcome g)
    (hstep : (batchProgram data frame memoryLimit threads capacity blocks).Follows g g') :
    Settles data frame.maxBlockSize blocks outcome g' ∧ g.consumer.failed = none ∧
      (g'.consumer.failed ≠ none ∨
        g'.consumer.remaining.length < g.consumer.remaining.length) := by
  obtain ⟨⟨committer, remaining, failed⟩, consumed, leases, submitted, stageConsumed⟩ := g
  obtain ⟨hsettle, hleases, hsubmitted, htaken⟩ := h
  rcases op_cases data ⟨committer, remaining, failed⟩ with ⟨r, waiting⟩ | ⟨key, waiting⟩
  · exact absurd hstep (Program.Follows.not_done waiting)
  obtain ⟨job, mem, hjob, value, result, rfl⟩ := hstep.of_take waiting
  obtain ⟨hfailed, block, rest, hremaining⟩ := op_take waiting
  dsimp only at hfailed hremaining hsettle hleases hsubmitted htaken
  obtain ⟨count, hdrop, hconsumed⟩ := htaken hfailed
  obtain ⟨hkey, hblock, hrest⟩ := remaining_head (hdrop.symm.trans hremaining)
  have hvalue : decodeLayoutBlock xxh data block [] frame.maxBlockSize = value := by
    have hpayload := (mem_jobs mem).1
    rw [hjob, hkey, hblock, Option.some.injEq] at hpayload
    simpa only [batchProgram, ← hpayload, Option.some.injEq] using result
  have hmore : ∀ k, k ∈ key :: consumed ↔ k < count + 1 := fun k => by
    rw [List.mem_cons, hconsumed, hkey]
    omega
  subst hfailed hremaining
  simp only [BatchCursor.settle, List.map_cons, FrameCommitter.commitAll,
    FrameCommitter.decodeAndCommit, hvalue] at hsettle
  -- the value is an error, or committing it fails, or it is committed
  cases value with
  | error error =>
    refine ⟨⟨hsettle, hleases, hsubmitted, ?_⟩, rfl, .inl ?_⟩
    · intro hrunning
      cases hrunning
    · intro hrunning
      cases hrunning
  | ok decoded =>
    dsimp only at hsettle
    rcases hcommit : committer.commit data block decoded with ⟨c, error | _⟩
    · rw [hcommit] at hsettle
      simp only [batchProgram, batchConsumer, hcommit]
      refine ⟨⟨hsettle, hleases, hsubmitted, ?_⟩, trivial, .inl ?_⟩
      · intro hrunning
        cases hrunning
      · intro hrunning
        cases hrunning
    · rw [hcommit] at hsettle
      simp only [batchProgram, batchConsumer, hcommit]
      exact ⟨⟨hsettle, hleases, hsubmitted, fun _ => ⟨count + 1, hrest, hmore⟩⟩, trivial,
        .inr (Nat.lt_succ_self _)⟩

private theorem settles_run {c : FrameCommitter xxh} {g : Ledger Empty (BatchCursor xxh)}
    (run : Reaches (batchProgram data frame memoryLimit threads capacity blocks).Follows
      ⟨{ committer := c, remaining := blocks.zipIdx }, [], [], [], []⟩ g) :
    Settles data frame.maxBlockSize blocks (c.commitAll data frame.maxBlockSize blocks) g := by
  refine run.invariant ?_ fun _ _ h hstep => (settles_step h hstep).1
  refine ⟨?_, rfl, rfl, fun _ => ⟨0, rfl, fun key => by simp⟩⟩
  simp only [BatchCursor.settle, List.zipIdx_map_fst]

private theorem jobs_keys : (@batchProgram xxh data frame memoryLimit threads capacity
    blocks).jobs.map Job.key = List.range blocks.length := by
  simp only [batchProgram, List.map_map, Function.comp_def]
  exact (List.zipIdx_map_snd 0 blocks).trans List.range_eq_range'.symm

private theorem waiting_key {outcome : FrameCommitter xxh × Result Unit}
    {g : Ledger Empty (BatchCursor xxh)} {key : Nat}
    (h : Settles data frame.maxBlockSize blocks outcome g)
    (waiting : (batchConsumer data).op g.consumer = .take key) :
    key < blocks.length ∧ ∀ k, k ∈ g.consumed ↔ k < key := by
  obtain ⟨hfailed, block, rest, hremaining⟩ := op_take waiting
  obtain ⟨count, hdrop, hconsumed⟩ := h.taken hfailed
  obtain ⟨rfl, hblock, -⟩ := remaining_head (hdrop.symm.trans hremaining)
  exact ⟨(List.getElem?_eq_some_iff.mp hblock).1, hconsumed⟩

private theorem batch_driven (c : FrameCommitter xxh) (fits : frame.maxBlockSize ≤ memoryLimit) :
    (batchProgram data frame memoryLimit threads capacity blocks).Driven
      { committer := c, remaining := blocks.zipIdx }
      fun cursor => if cursor.failed = none then cursor.remaining.length + 1 else 0 where
  keys_nodup := jobs_keys ▸ List.nodup_range
  executes job _ := nofun
  fits job mem := by
    rcases (mem_jobs mem).2 with h | h <;> rw [h]
    · exact Nat.zero_le _
    · exact fits
  active := Nat.succ_pos _
  legal g run := by
    rcases op_cases data g.consumer with ⟨r, hop⟩ | ⟨key, hop⟩
    · exact Program.legal_done hop
    · obtain ⟨hkey, hconsumed⟩ := waiting_key (settles_run run) hop
      refine Program.legal_take hop (jobs_keys ▸ List.mem_range.mpr hkey) ?_
      rw [hconsumed]
      exact Nat.lt_irrefl key
  prompt g run := by
    rcases op_cases data g.consumer with ⟨r, hop⟩ | ⟨key, hop⟩
    · exact Program.prompt_done hop
    · obtain ⟨-, hconsumed⟩ := waiting_key (settles_run run) hop
      refine Program.prompt_take hop (settles_run run).leases ?_
      intro pre job post split hjob earlier hmem
      rw [hconsumed, ← hjob]
      exact key_lt_of_sorted (jobs_keys ▸ List.pairwise_lt_range) split hmem
  stages g run x := nomatch x.2
  descends g g' run hstep := by
    obtain ⟨-, hnone, h⟩ := settles_step (settles_run run) hstep
    rw [if_pos hnone]
    split
    case isTrue hg => exact Nat.succ_lt_succ (h.resolve_left (not_not_intro hg))
    case isFalse => exact Nat.succ_pos _

theorem batch_sweeps (c : FrameCommitter xxh) (fits : frame.maxBlockSize ≤ memoryLimit) :
    (batchProgram data frame memoryLimit threads capacity blocks).Sweeps
      { committer := c, remaining := blocks.zipIdx }
      fun cursor => if cursor.failed = none then cursor.remaining.length + 1 else 0 := by
  exact (batch_driven c fits).guided.sweeps rfl (jobs_keys ▸ List.pairwise_lt_range)
    fun cursor => (op_cases data cursor).imp_right .inr

private theorem batch_result {c : FrameCommitter xxh} {r : FrameCommitter xxh × Result Unit}
    {s : Pipeline.State (Result DecodedBlock) Empty Empty (FrameCommitter xxh × Result Unit)
      (BatchCursor xxh)}
    (run : Reaches (batchProgram data frame memoryLimit threads capacity blocks).Step
      ((batchProgram data frame memoryLimit threads capacity blocks).init threads
        { committer := c, remaining := blocks.zipIdx }) s)
    (finished : s.finished = some r) : r = c.commitAll data frame.maxBlockSize blocks := by
  obtain ⟨g, hrun, hop⟩ := Program.returned_result run finished
  rw [← (settles_run hrun).settle, op_done hop]

end Batch

private theorem fits_of_parallel {setting : Setting} {frame : FrameHeader}
    (many : setting.serial frame = false) :
    frame.maxBlockSize ≤ setting.options.memoryLimit := by
  simp only [Setting.serial, Bool.or_eq_false_iff, decide_eq_false_iff_not] at many
  have hdiv := Nat.div_mul_le_self setting.options.memoryLimit frame.maxBlockSize
  have := Nat.mul_le_mul_right frame.maxBlockSize (show 1 ≤ _ from by omega :
    1 ≤ setting.options.memoryLimit / frame.maxBlockSize)
  omega

private theorem program_admissible {setting : Setting} {data : List UInt8} {frame : FrameHeader}
    {batch : Batch} (fits : frame.maxBlockSize ≤ setting.options.memoryLimit) :
    (setting.program xxh data frame batch).admissible = true := by
  refine List.all_eq_true.mpr fun job hjob => decide_eq_true ?_
  rcases (mem_jobs hjob).2 with h | h <;> rw [h]
  · exact Nat.zero_le _
  · exact fits

private theorem next_inevitable {setting : Setting} {data : List UInt8} {frame : FrameHeader}
    {batch : Batch} {outcome : FrameCommitter xxh × Result Nat}
    {r : FrameCommitter xxh × Result Unit} (hresume : resume data frame batch r = outcome)
    (scan : batch.ended = false → ∀ c, decodeIndependentSerial data frame batch.position c = outcome →
      Inevitable (IndependentStep setting data frame) (· = .done outcome)
        (.scanning batch.position c)) :
    Inevitable (IndependentStep setting data frame) (· = .done outcome) (batch.next r) := by
  obtain ⟨c, error | _⟩ := r
  · exact .now (by rw [← hresume]; rfl)
  · unfold Batch.next resume at *
    dsimp only at hresume ⊢
    cases hp : batch.parseError with
    | some error => rw [hp] at hresume; exact .now (by rw [← hresume])
    | none =>
      rw [hp] at hresume
      cases he : batch.ended with
      | true => exact .now (by rw [← hresume, he]; rfl)
      | false => rw [he] at hresume; exact scan he c hresume

/-- `decode_independent` on any number of threads delivers, and ends with, what the one-thread
loop does, under every schedule. -/
theorem decodeIndependent_schedule (setting : Setting) (data : List UInt8) (frame : FrameHeader)
    (position : Nat) (c : FrameCommitter xxh) (threads : 0 < setting.threads) :
    Inevitable (IndependentStep setting data frame)
      (· = .done (decodeIndependentSerial data frame position c)) (.scanning position c) := by
  induction hn : data.length - position using Nat.strongRecOn generalizing position c with
  | ind n ih =>
    generalize hb : collectBatch data frame setting.threads { position } = batch
    have hserial := @serial_collect xxh data frame position setting.threads { position } .nil rfl rfl c
    rw [hb] at hserial
    have hopen := @collect_open data frame position setting.threads { position } .nil fun _ => rfl
    rw [hb] at hopen
    have hscan : batch.ended = false → ∀ c', decodeIndependentSerial data frame batch.position c' =
        decodeIndependentSerial data frame position c →
        Inevitable (IndependentStep setting data frame)
          (· = .done (decodeIndependentSerial data frame position c))
          (.scanning batch.position c') := fun he c' hc' => by
      obtain ⟨hne, hchain⟩ := hopen he
      have hpos := (chain_position hchain).2 hne
      rw [← hc']
      exact ih _ (by omega) batch.position c' rfl
    have hafter : ∀ r, resume data frame batch r = decodeIndependentSerial data frame position c →
        Inevitable (IndependentStep setting data frame)
          (· = .done (decodeIndependentSerial data frame position c)) (batch.next r) :=
      fun r hr => next_inevitable hr hscan
    -- the state before a batch always has a step, and every step keeps the outcome
    refine .later ?_ fun t ht => ?_
    · cases hs : setting.serial frame with
      | true => exact ⟨_, .serial hs⟩
      | false =>
        cases hw : batch.parallelWork with
        | true => exact ⟨_, .spawn hs hb hw (program_admissible (fits_of_parallel hs))⟩
        | false =>
          by_cases hnil : batch.blocks = []
          · exact ⟨_, .empty hs hb hnil⟩
          · exact ⟨_, .inline hs hb hnil hw⟩
    · cases ht with
      | serial => exact .now rfl
      | empty many collected nil =>
        obtain rfl := hb.symm.trans collected
        have hended : batch.ended = true := by
          by_contra he
          exact (hopen (by simpa using he)).1 nil
        refine .now ?_
        rw [hserial, nil, FrameCommitter.commitAll, resume]
        cases batch.parseError with
        | some error => rfl
        | none => simp only [hended, if_true]
      | inline many collected =>
        obtain rfl := hb.symm.trans collected
        exact hafter _ hserial.symm
      | refuse many collected much large =>
        rw [program_admissible (fits_of_parallel many)] at large
        cases large
      | spawn many collected =>
        obtain rfl := hb.symm.trans collected
        refine ((batch_driven c (fits_of_parallel many)).returns threads).embed
          (IndependentState.parallel batch) (fun s run hs => ?_)
          (fun s u h => IndependentStep.run h) (fun s v hs hv => ?_)
        · refine .later ?_ fun v hv => ?_
          · obtain ⟨r, hr⟩ := Option.ne_none_iff_exists'.mp hs.1
            exact ⟨_, .join hs hr⟩
          · cases hv with
            | run step => exact absurd step hs.not_step
            | join returned result =>
              rw [batch_result run result]
              exact hafter _ hserial.symm
        · cases hv with
          | run step => exact ⟨_, step, rfl⟩
          | join returned result => exact absurd returned hs

/-- The committer of a state. -/
def IndependentState.committer : IndependentState xxh → FrameCommitter xxh
  | .scanning _ c => c
  | .parallel _ s => s.consumer.committer
  | .done outcome => outcome.1

theorem commit_progress (data : List UInt8) (c : FrameCommitter xxh) (layout : BlockLayout)
    (decoded : DecodedBlock) : c.progress <+: (c.commit data layout decoded).1.progress := by
  unfold FrameCommitter.commit
  dsimp only
  split
  · exact List.prefix_append _ _
  · exact List.prefix_refl _

private theorem decodeAndCommit_progress (data : List UInt8) (maxBlockSize : Nat)
    (c : FrameCommitter xxh) (block : BlockLayout) :
    c.progress <+: (c.decodeAndCommit data maxBlockSize block).1.progress := by
  unfold FrameCommitter.decodeAndCommit
  split
  · exact List.prefix_refl _
  · exact commit_progress data c block _

private theorem commitAll_progress (data : List UInt8) (maxBlockSize : Nat)
    (c : FrameCommitter xxh) (blocks : List BlockLayout) :
    c.progress <+: (c.commitAll data maxBlockSize blocks).1.progress := by
  induction blocks generalizing c with
  | nil => exact List.prefix_refl _
  | cons block blocks ih =>
    have hone := decodeAndCommit_progress data maxBlockSize c block
    rw [FrameCommitter.commitAll]
    split
    case h_1 hfail =>
      rw [hfail] at hone
      exact hone
    case h_2 hcommit =>
      rw [hcommit] at hone
      exact hone.trans (ih _)

private theorem serial_progress (data : List UInt8) (frame : FrameHeader) (position : Nat)
    (c : FrameCommitter xxh) :
    c.progress <+: (decodeIndependentSerial data frame position c).1.progress := by
  induction position, c using decodeIndependentSerial.induct data frame with
  | case1 position c error hnext => simp [decodeIndependentSerial_eq, hnext]
  | case2 position c stop hnext => simp [decodeIndependentSerial_eq, hnext]
  | case3 position c block after hnext c' error hcommit =>
    have hone := decodeAndCommit_progress data frame.maxBlockSize c block
    rw [decodeIndependentSerial_eq]
    simpa only [hnext, hcommit] using hone
  | case4 position c block after hnext c' hcommit ih =>
    have hone := decodeAndCommit_progress data frame.maxBlockSize c block
    rw [hcommit] at hone
    rw [decodeIndependentSerial_eq]
    simpa only [hnext, hcommit] using hone.trans ih

private theorem resume_progress (data : List UInt8) (frame : FrameHeader) (batch : Batch)
    (r : FrameCommitter xxh × Result Unit) :
    r.1.progress <+: (resume data frame batch r).1.progress := by
  obtain ⟨c, error | _⟩ := r
  · exact List.prefix_refl _
  · unfold resume
    dsimp only
    split
    · exact List.prefix_refl _
    · split
      · exact List.prefix_refl _
      · exact serial_progress data frame batch.position c

/-- From here on, one thread ends with this outcome. -/
private inductive Heads (setting : Setting) (data : List UInt8) (frame : FrameHeader)
    (outcome : FrameCommitter xxh × Result Nat) : IndependentState xxh → Prop
  | scanning {position c} (serial : decodeIndependentSerial data frame position c = outcome) :
      Heads setting data frame outcome (.scanning position c)
  | parallel {batch c s}
      (run : Reaches (setting.program xxh data frame batch).Step
        ((setting.program xxh data frame batch).init setting.threads
          { committer := c, remaining := batch.blocks.zipIdx }) s)
      (rest : resume data frame batch (c.commitAll data frame.maxBlockSize batch.blocks) =
        outcome) :
      Heads setting data frame outcome (.parallel batch s)
  | done : Heads setting data frame outcome (.done outcome)

section Heads

variable {setting : Setting} {data : List UInt8} {frame : FrameHeader}
  {outcome : FrameCommitter xxh × Result Nat}

private theorem next_heads {batch : Batch} {r : FrameCommitter xxh × Result Unit}
    (h : resume data frame batch r = outcome) : Heads setting data frame outcome (batch.next r) := by
  obtain ⟨c, error | _⟩ := r
  · rw [← h]
    exact .done
  · unfold Batch.next resume at *
    dsimp only at h ⊢
    cases hparse : batch.parseError with
    | some error =>
      rw [hparse] at h
      rw [← h]
      exact .done
    | none =>
      rw [hparse] at h
      cases hended : batch.ended with
      | true =>
        rw [hended] at h
        rw [← h]
        exact .done
      | false =>
        rw [hended] at h
        exact .scanning h

private theorem Heads.step {s t : IndependentState xxh} (heads : Heads setting data frame outcome s)
    (step : IndependentStep setting data frame s t) : Heads setting data frame outcome t := by
  have collected : ∀ {position c}, decodeIndependentSerial data frame position c = outcome →
      resume data frame (collectBatch data frame setting.threads { position })
        (c.commitAll data frame.maxBlockSize
          (collectBatch data frame setting.threads { position }).blocks) = outcome := by
    intro position c serial
    rw [← serial]
    exact (serial_collect .nil rfl rfl c).symm
  cases heads with
  | @scanning position c serial =>
    cases step with
    | serial =>
      rw [serial]
      exact .done
    | empty many hbatch hnil =>
      obtain rfl := hbatch
      have hresume := collected serial
      rw [hnil, FrameCommitter.commitAll, resume] at hresume
      have hended : (collectBatch data frame setting.threads { position }).ended = true := by
        by_contra hopen
        exact (collect_open .nil (fun _ => rfl) (by simpa using hopen)).1 hnil
      rw [hended, if_pos rfl] at hresume
      rw [← hresume]
      cases (collectBatch data frame setting.threads { position }).parseError with
      | some error => exact .done
      | none => exact .done
    | inline many hbatch =>
      obtain rfl := hbatch
      exact next_heads (collected serial)
    | refuse many hbatch much large =>
      rw [program_admissible (fits_of_parallel many)] at large
      cases large
    | spawn many hbatch =>
      obtain rfl := hbatch
      exact .parallel .refl (collected serial)
  | parallel run rest =>
    cases step with
    | run step => exact .parallel (run.tail step) rest
    | join returned result =>
      rw [batch_result run result]
      exact next_heads rest
  | done => cases step

private theorem Heads.progress {s : IndependentState xxh}
    (heads : Heads setting data frame outcome s) :
    s.committer.progress <+: outcome.1.progress := by
  cases heads with
  | @scanning position c serial =>
    rw [← serial]
    exact serial_progress data frame position c
  | @parallel batch c s run rest =>
    obtain ⟨⟨g, hrun, hconsumer⟩, -⟩ :=
      (setting.program xxh data frame batch).reachable_consumer run
    have hsettle := (settles_run hrun).settle
    have hcursor : s.consumer.committer.progress <+:
        (s.consumer.settle data frame.maxBlockSize).1.progress := by
      unfold BatchCursor.settle
      split
      · exact List.prefix_refl _
      · exact commitAll_progress data _ _ _
    rw [hconsumer] at hsettle
    rw [hsettle] at hcursor
    rw [← rest]
    exact hcursor.trans (resume_progress data frame batch _)
  | done => exact List.prefix_refl _

/-- A run that ends, under whatever schedule, ends as one thread does; and whatever has been
reported on the way, one thread reports too. -/
theorem independent_run {position : Nat} {c : FrameCommitter xxh} {s : IndependentState xxh}
    (run : Reaches (IndependentStep setting data frame) (.scanning position c) s) :
    (∀ outcome, s = .done outcome → outcome = decodeIndependentSerial data frame position c) ∧
      s.committer.progress <+: (decodeIndependentSerial data frame position c).1.progress := by
  have heads : Heads setting data frame (decodeIndependentSerial data frame position c) s :=
    run.invariant (.scanning rfl) fun _ _ heads step => heads.step step
  refine ⟨?_, heads.progress⟩
  rintro outcome rfl
  cases heads with
  | done => rfl

end Heads

/-- Several threads and one thread commit the same blocks and end with the same result. -/
theorem decodeIndependent_threads (setting : Setting) (data : List UInt8) (frame : FrameHeader)
    (position : Nat) (c : FrameCommitter xxh) (many : 2 ≤ setting.options.threads) :
    ∃ outcome,
      Inevitable
        (IndependentStep { setting with options := { setting.options with threads := 1 } } data
          frame) (· = .done outcome) (.scanning position c) ∧
      Inevitable (IndependentStep setting data frame) (· = .done outcome)
        (.scanning position c) := by
  refine ⟨decodeIndependentSerial data frame position c,
    decodeIndependent_schedule _ data frame position c ?_,
    decodeIndependent_schedule setting data frame position c ?_⟩
  · exact Nat.succ_pos 0
  · have hne : setting.options.threads ≠ 0 := by omega
    simp only [Setting.threads, workerThreads, DecodeOptions.resolvedThreads, hne, ne_eq,
      not_false_eq_true, if_true, if_false]
    omega

/-- Two compressed blocks and one cut short. -/
def truncatedBlocks : List UInt8 :=
  [10, 0, 0, 0, 26, 7, 1, 0, 80, 7, 7, 7, 7, 7, 2, 0, 0, 0, 0x10, 9, 9, 0, 0, 0]

/-- Four threads take the pool for these blocks and hold the error back until they are out. -/
theorem decodeIndependent_threads_pooled :
    (collectBatch truncatedBlocks ⟨0, 0, 4 * 1024 * 1024, .independent, false, true, none⟩ 4
        { position := 0 }).parallelWork = true ∧
      ∃ outcome,
        Inevitable
          (@IndependentStep XxHash32.reference ⟨⟨1, maxDecodedBlock⟩, 8, List.length⟩
            truncatedBlocks ⟨0, 0, 4 * 1024 * 1024, .independent, false, true, none⟩)
          (· = .done outcome) (.scanning 0 ⟨[], [], some [], 0, 0, 0, []⟩) ∧
        Inevitable
          (@IndependentStep XxHash32.reference ⟨⟨4, maxDecodedBlock⟩, 8, List.length⟩
            truncatedBlocks ⟨0, 0, 4 * 1024 * 1024, .independent, false, true, none⟩)
          (· = .done outcome) (.scanning 0 ⟨[], [], some [], 0, 0, 0, []⟩) :=
  ⟨by decide +kernel,
    decodeIndependent_threads ⟨⟨4, maxDecodedBlock⟩, 8, List.length⟩ _ _ 0 _ (by decide)⟩

end Fbz.Lz4
