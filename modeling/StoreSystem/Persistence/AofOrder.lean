/-
What the two threads of `Persistence.AofQueue` keep true.

The bytes of the batches, in the order of their sequences, are what was queued, then the producer's chunk, then what a commit
still has to copy (`Inv.stream`); what was queued is what was written, then the rest of the queue (`Inv.handed`). A number
that a chunk, a thread or a counter holds as complete is a mark: its batches end no later than the place of the holder
(`Marks`). Every action keeps both.

- `ready_means_written`: what `aof_sequence_ready` reports is in the file, in order, and under `always` synced.
- `flushed_in_order`: the queue gets the records in the order of the calls, if no transaction commits over pending records.
- `eviction_behind_set`: a record pending from before a commit is queued after it.
-/
import StoreSystem.Persistence.AofQueue

namespace StoreSystem.Aof

open List Resp

/-! ## Batches -/

/-- the bytes of the batches up to a sequence -/
def upTo (batches : List (ℕ × Bytes)) (sequence : ℕ) : Bytes := (batches.filter (·.1 ≤ sequence)).flatMap Prod.snd

theorem upTo_nil (s : ℕ) : upTo [] s = [] := rfl

theorem upTo_cons (b : ℕ × Bytes) (bs : List (ℕ × Bytes)) (s : ℕ) :
    upTo (b :: bs) s = if b.1 ≤ s then b.2 ++ upTo bs s else upTo bs s := by
  unfold upTo
  by_cases h : b.1 ≤ s
  · rw [filter_cons_of_pos (by simpa using h), if_pos h, flatMap_cons]
  · rw [filter_cons_of_neg (by simpa using h), if_neg h]

theorem upTo_append (bs cs : List (ℕ × Bytes)) (s : ℕ) : upTo (bs ++ cs) s = upTo bs s ++ upTo cs s := by
  unfold upTo
  rw [filter_append, flatMap_append]

/-- a batch with a later sequence -/
theorem upTo_snoc {bs : List (ℕ × Bytes)} {b : ℕ × Bytes} {s : ℕ} (h : s < b.1) : upTo (bs ++ [b]) s = upTo bs s := by
  rw [upTo_append, upTo_cons, if_neg (by omega), upTo_nil, append_nil]

theorem upTo_mono (bs : List (ℕ × Bytes)) {s s' : ℕ} (h : s ≤ s') : (upTo bs s).length ≤ (upTo bs s').length := by
  induction bs with
  | nil => exact le_rfl
  | cons b bs ih =>
    rw [upTo_cons, upTo_cons]
    split_ifs
    · simp only [length_append]
      omega
    · omega
    · simp only [length_append]
      omega
    · exact ih

theorem upTo_le_total (bs : List (ℕ × Bytes)) (s : ℕ) : (upTo bs s).length ≤ (bs.flatMap Prod.snd).length := by
  induction bs with
  | nil => exact le_rfl
  | cons b bs ih =>
    rw [upTo_cons, flatMap_cons, length_append]
    split_ifs
    · rw [length_append]
      omega
    · omega

/-- the batches up to a sequence come first -/
theorem upTo_initial {bs : List (ℕ × Bytes)} (hsorted : (bs.map Prod.fst).Pairwise (· < ·)) (s : ℕ) :
    upTo bs s <+: bs.flatMap Prod.snd := by
  induction bs with
  | nil => exact prefix_rfl
  | cons b bs ih =>
    rw [map_cons, pairwise_cons] at hsorted
    rw [upTo_cons, flatMap_cons]
    by_cases hb : b.1 ≤ s
    · rw [if_pos hb]
      exact prefix_append_right_inj _ |>.2 (ih hsorted.2)
    · -- all the later ones are above
      have hnone : upTo bs s = [] := by
        unfold upTo
        rw [filter_eq_nil_iff.2, flatMap_nil]
        intro c hc
        have := hsorted.1 c.1 (mem_map_of_mem hc)
        simp only [decide_eq_true_eq]
        omega
      rw [if_neg hb, hnone]
      exact List.nil_prefix

/-! ## The invariant -/

/-- the chunks of a queue whose first byte is at `base`: a batch that a chunk ends does not reach beyond it -/
def Ends (done : ℕ → ℕ) (next : ℕ) : ℕ → List Chunk → Prop
  | _, [] => True
  | base, chunk :: rest =>
    chunk.offset ≤ chunk.data.length ∧ chunk.sequence ≤ next ∧
      (chunk.sequenceEnd → done chunk.sequence ≤ base + chunk.rest.length) ∧ Ends done next (base + chunk.rest.length) rest

/-- a number that is taken for complete when `bytes` bytes are there -/
structure Mark (done : ℕ → ℕ) (next sequence bytes : ℕ) : Prop where
  assigned : sequence ≤ next
  complete : done sequence ≤ bytes

section Marks

variable {done done' : ℕ → ℕ} {next next' base bytes bytes' sequence sequence' : ℕ}

theorem Ends.mono {queue : List Chunk} (hdone : ∀ s ≤ next, done' s ≤ done s) (hnext : next ≤ next') :
    ∀ {base : ℕ}, Ends done next base queue → Ends done' next' base queue := by
  induction queue with
  | nil => exact fun _ => trivial
  | cons chunk queue ih =>
    intro base h
    obtain ⟨h1, h2, h3, h4⟩ := h
    exact ⟨h1, h2.trans hnext, fun hend => (hdone _ h2).trans (h3 hend), ih h4⟩

theorem Ends.append {queue queue' : List Chunk} : ∀ {base : ℕ}, Ends done next base queue →
    Ends done next (base + (queue.flatMap Chunk.rest).length) queue' → Ends done next base (queue ++ queue') := by
  induction queue with
  | nil => exact fun _ h' => h'
  | cons chunk queue ih =>
    intro base h h'
    obtain ⟨h1, h2, h3, h4⟩ := h
    refine ⟨h1, h2, h3, ih h4 ?_⟩
    rwa [flatMap_cons, length_append, ← Nat.add_assoc] at h'

theorem Mark.mono (h : Mark done next sequence bytes) (hdone : ∀ s ≤ next, done' s ≤ done s) (hnext : next ≤ next')
    (hbytes : bytes ≤ bytes') : Mark done' next' sequence bytes' :=
  ⟨h.assigned.trans hnext, (hdone _ h.assigned).trans (h.complete.trans hbytes)⟩

theorem Mark.later (h : Mark done next sequence bytes) (hbytes : bytes ≤ bytes') : Mark done next sequence bytes' :=
  h.mono (fun _ _ => le_rfl) le_rfl hbytes

theorem Mark.both (h : Mark done next sequence bytes) (h' : Mark done next sequence' bytes) :
    Mark done next (max sequence sequence') bytes := by
  rcases Nat.le_total sequence sequence' with hle | hle
  · rwa [Nat.max_eq_right hle]
  · rwa [Nat.max_eq_left hle]

end Marks

/-- the steps of the writer thread -/
def Action.OfWriter : Action → Bool
  | .gather | .writev _ | .consume | .tick | .writerSync _ | .publish => true
  | _ => false

namespace State

variable {a : State}

/-- the bytes in the queue that are not written -/
def queued (a : State) : Bytes := a.queue.flatMap Chunk.rest

def produced (a : State) : Bytes := (a.producerChunk.map Chunk.data).getD []

/-- what the commit has not copied -/
def uncopied (a : State) : Bytes :=
  match a.reactor with
  | .committing position _ _ => a.transaction.drop position
  | _ => []

/-- where the batches up to a sequence end -/
def done (a : State) (sequence : ℕ) : ℕ := (upTo a.batches sequence).length

/-- the numbers the reactor thread holds -/
def ReactorMarks (done : ℕ → ℕ) (next : ℕ) (a : State) : Prop :=
  match a.reactor with
  | .syncing .store target _ => Mark done next target a.writtenBytes ∧ Mark done next target a.durable
  | .syncing _ target _ => Mark done next target a.writtenBytes
  | .committing _ assigned _ => assigned ≤ next
  | _ => True

/-- the numbers the writer thread holds -/
def WriterMarks (done : ℕ → ℕ) (next : ℕ) (a : State) : Prop :=
  match a.writer with
  | .syncing .store target _ => Mark done next target a.writtenBytes ∧ Mark done next target a.durable
  | .syncing _ target _ => Mark done next target a.writtenBytes
  | .publishing sequence => Mark done next sequence a.writtenBytes ∧ sequence ≤ a.syncedSequence
  | _ => True

/-- the numbers of a state are marks -/
structure Marks (done : ℕ → ℕ) (next : ℕ) (a : State) : Prop where
  queue : Ends done next a.writtenBytes a.queue
  producer : ∀ chunk, a.producerChunk = some chunk → chunk.sequence ≤ next ∧
    (chunk.sequenceEnd → done chunk.sequence ≤ a.writtenBytes + a.queued.length + chunk.data.length)
  written : Mark done next a.writtenSequence a.writtenBytes
  synced : Mark done next a.syncedSequence a.durable
  always : a.fsyncPolicy = .always → a.writtenSequence ≤ a.syncedSequence
  reactor : ReactorMarks done next a
  writer : WriterMarks done next a

/-- what the writer thread has written and not counted -/
def Ahead (a : State) : Prop :=
  match a.writer with
  | .gathered vectors => a.appended.length = a.writtenBytes ∧ vectors.flatten <+: a.queued
  | .wrote result => a.appended.length = a.writtenBytes + result ∧ a.appended.drop a.writtenBytes <+: a.queued
  | _ => a.appended.length = a.writtenBytes

/-- where the reactor thread is, the buffers are so -/
def Buffers (a : State) : Prop :=
  match a.reactor with
  | .committing position assigned _ => position ≤ a.transaction.length ∧
      (a.transaction ≠ [] → ∃ bs, a.batches = bs ++ [(assigned, a.transaction)])
  | .enqueueing => a.producerChunk = none ∧ a.pending ≠ []
  | _ => True

structure Inv (a : State) : Prop where
  sorted : (a.batches.map Prod.fst).Pairwise (· < ·)
  bound : ∀ b ∈ a.batches, b.1 ≤ a.nextSequence
  stream : a.batches.flatMap Prod.snd = a.handed ++ a.produced ++ a.uncopied
  handed : a.handed = a.appended.take a.writtenBytes ++ a.queued
  ahead : a.Ahead
  buffers : a.Buffers
  offset : ∀ chunk, a.producerChunk = some chunk → chunk.offset = 0
  durable : a.durable ≤ a.appended.length
  marks : Marks a.done a.nextSequence a

section Grow

variable {b : State} {done done' : ℕ → ℕ} {next next' : ℕ}

/-- the numbers a thread holds stay marks while the counters grow -/
theorem ReactorMarks.grow (h : ReactorMarks done next a) (hdone : ∀ s ≤ next, done' s ≤ done s) (hnext : next ≤ next')
    (hreactor : b.reactor = a.reactor) (hwritten : a.writtenBytes ≤ b.writtenBytes) (hdurable : a.durable ≤ b.durable) :
    ReactorMarks done' next' b := by
  unfold ReactorMarks at h ⊢
  rw [hreactor]
  split at h
  · exact ⟨h.1.mono hdone hnext hwritten, h.2.mono hdone hnext hdurable⟩
  · exact h.mono hdone hnext hwritten
  · exact le_trans h hnext
  · trivial

theorem WriterMarks.grow (h : WriterMarks done next a) (hdone : ∀ s ≤ next, done' s ≤ done s) (hnext : next ≤ next')
    (hwriter : b.writer = a.writer) (hwritten : a.writtenBytes ≤ b.writtenBytes) (hdurable : a.durable ≤ b.durable)
    (hsynced : a.syncedSequence ≤ b.syncedSequence) : WriterMarks done' next' b := by
  unfold WriterMarks at h ⊢
  rw [hwriter]
  split at h
  · exact ⟨h.1.mono hdone hnext hwritten, h.2.mono hdone hnext hdurable⟩
  · exact h.mono hdone hnext hwritten
  · exact ⟨h.1.mono hdone hnext hwritten, h.2.trans hsynced⟩
  · trivial

theorem Marks.mono (h : Marks done next a) (hdone : ∀ s ≤ next, done' s ≤ done s) (hnext : next ≤ next') : Marks done' next' a := by
  refine ⟨h.queue.mono hdone hnext, fun chunk hc => ?_, h.written.mono hdone hnext le_rfl, h.synced.mono hdone hnext le_rfl, h.always,
    h.reactor.grow hdone hnext rfl le_rfl le_rfl, h.writer.grow hdone hnext rfl le_rfl le_rfl le_rfl⟩
  obtain ⟨h1, h2⟩ := h.producer chunk hc
  exact ⟨h1.trans hnext, fun hend => (hdone _ h1).trans (h2 hend)⟩

/-- the queue gets longer -/
theorem Ahead.longer (h : a.Ahead) (hwriter : b.writer = a.writer) (hfile : b.appended = a.appended ∧ b.writtenBytes = a.writtenBytes)
    {more : Bytes} (hmore : b.queued = a.queued ++ more) : b.Ahead := by
  have hqueued : a.queued <+: b.queued := hmore ▸ prefix_append _ _
  unfold Ahead at h ⊢
  rw [hwriter, hfile.1, hfile.2]
  split at h
  · exact ⟨h.1, h.2.trans hqueued⟩
  · exact ⟨h.1, h.2.trans hqueued⟩
  · exact h

end Grow

theorem inv_open (fsyncPolicy : FsyncPolicy) (opened : Bytes) : Inv (aofOpen fsyncPolicy opened) := by
  have hzero : ∀ bytes, Mark (aofOpen fsyncPolicy opened).done 0 0 bytes := fun bytes => ⟨le_rfl, Nat.zero_le _⟩
  exact ⟨List.Pairwise.nil, fun b hb => absurd hb not_mem_nil, rfl, rfl, rfl, trivial, fun _ h => (Option.some_ne_none _ h.symm).elim,
    le_rfl, ⟨trivial, fun _ h => (Option.some_ne_none _ h.symm).elim, hzero 0, hzero 0, fun _ => le_rfl, trivial, trivial⟩⟩

theorem Inv.count (h : Inv a) : a.writtenBytes ≤ a.appended.length := by
  have := h.ahead
  unfold Ahead at this
  split at this <;> omega

theorem Inv.length_handed (h : Inv a) : a.handed.length = a.writtenBytes + a.queued.length := by
  rw [h.handed, length_append, length_take_of_le h.count]

/-- a complete batch is in the file -/
theorem Inv.in_file (h : Inv a) {s : ℕ} (hdone : a.done s ≤ a.writtenBytes) : upTo a.batches s <+: a.appended := by
  have htotal := upTo_initial h.sorted s
  rw [h.stream, h.handed, append_assoc, append_assoc] at htotal
  have hlen : (upTo a.batches s).length ≤ (a.appended.take a.writtenBytes).length := by
    rw [length_take_of_le h.count]
    exact hdone
  exact (prefix_of_prefix_length_le htotal (prefix_append _ _) hlen).trans (List.take_prefix _ _)

/-! ## Actions of the reactor thread -/

section Rules

variable {P : State → Prop} (h : P a)
include h

/-- a call is made when the reactor thread is not in another -/
theorem call_rule {next : State} (hnext : a.reactor = .idle → P next) : P (a.call next) := by
  unfold State.call
  split
  · rename_i hidle
    exact hnext hidle
  · exact h

theorem enqueue_rule {allocated : Bool} (hnext : a.reactor = .enqueueing → P (a.enqueueBytes allocated)) :
    P (a.step (.enqueue allocated)) := by
  simp only [State.step]
  split
  · rename_i hat
    exact hnext hat
  · exact h

theorem handing_rule (hnext : ∀ sequence token, a.reactor = .handing sequence token →
    P { a.handOver with reactor := .waiting sequence (some token) }) : P (a.step .handOver) := by
  simp only [State.step]
  split
  · rename_i sequence token hat
    exact hnext sequence token hat
  · exact h

end Rules

/-! ## What an action leaves alone -/

/-- the file, and what the writer thread has said of it -/
structure SameFile (a b : State) : Prop where
  opened : b.opened = a.opened
  appended : b.appended = a.appended
  writtenBytes : b.writtenBytes = a.writtenBytes
  writtenSequence : b.writtenSequence = a.writtenSequence
  asyncError : b.asyncError = a.asyncError

/-- the file, the queue and the producer's chunk -/
structure SameChunks (a b : State) : Prop extends SameFile a b where
  queue : b.queue = a.queue
  producerChunk : b.producerChunk = a.producerChunk
  checkpoints : b.checkpoints = a.checkpoints

theorem SameFile.refl (a : State) : SameFile a a := ⟨rfl, rfl, rfl, rfl, rfl⟩

variable {b c : State} {reactor : Reactor} {action : Action} {assigned position : ℕ} {token : Option Bytes}

theorem SameFile.trans (h : SameFile a b) (h' : SameFile b c) : SameFile a c :=
  ⟨h'.opened.trans h.opened, h'.appended.trans h.appended, h'.writtenBytes.trans h.writtenBytes,
    h'.writtenSequence.trans h.writtenSequence, h'.asyncError.trans h.asyncError⟩

theorem SameChunks.refl (a : State) : SameChunks a a := ⟨SameFile.refl a, rfl, rfl, rfl⟩

theorem SameChunks.trans (h : SameChunks a b) (h' : SameChunks b c) : SameChunks a c :=
  ⟨h.toSameFile.trans h'.toSameFile, h'.queue.trans h.queue, h'.producerChunk.trans h.producerChunk,
    h'.checkpoints.trans h.checkpoints⟩

/-- **`aof_append`** fails and changes nothing, or encodes the record into the open transaction or the pending bytes. -/
theorem aofAppend_cases (a : State) (allocated : Bool) (arguments : List Bytes) :
    a.aofAppend allocated arguments = (a, false) ∨ Fits arguments ∧ a.aofAppend allocated arguments =
      if a.transactionActive then
        ({ a with
          transaction := a.transaction ++ encodeRequest arguments, transactionRecords := a.transactionRecords ++ [arguments] }, true)
      else ({ a with pending := a.pending ++ encodeRequest arguments, kept := a.kept ++ [arguments] }, true) := by
  unfold aofAppend
  by_cases herror : a.asyncError = true
  · exact Or.inl (if_pos herror)
  rw [if_neg herror]
  cases hsize : encodedSize arguments with
  | none => exact Or.inl rfl
  | some size =>
    simp only
    by_cases halloc : allocated = false
    · exact Or.inl (if_pos halloc)
    · rw [if_neg halloc, encodeRecord_eq hsize le_rfl]
      exact Or.inr ⟨by rw [Fits, hsize]; rfl, rfl⟩

theorem begin_leaves (a : State) : a.aofTransactionBegin.1.reactor = a.reactor ∧ SameChunks a a.aofTransactionBegin.1 := by
  unfold aofTransactionBegin
  split_ifs
  · exact ⟨rfl, .refl a⟩
  · exact ⟨rfl, { SameChunks.refl a with }⟩

theorem append_leaves (a : State) (allocated : Bool) (arguments : List Bytes) :
    (a.aofAppend allocated arguments).1.reactor = a.reactor ∧ SameChunks a (a.aofAppend allocated arguments).1 := by
  rcases aofAppend_cases a allocated arguments with heq | ⟨_, heq⟩
  · rw [heq]
    exact ⟨rfl, .refl a⟩
  · rw [heq]
    split_ifs
    · exact ⟨rfl, { SameChunks.refl a with }⟩
    · exact ⟨rfl, { SameChunks.refl a with }⟩

theorem sameChunks_startCommit (a : State) (token : Option Bytes) : SameChunks a (a.startCommit token) := by
  unfold State.startCommit
  split_ifs <;> exact { SameChunks.refl a with }

theorem sameChunks_checkpoint (a : State) (allocated : Bool) (token : Bytes) : SameChunks a (a.aofCreateCheckpoint allocated token) := by
  have hbegin := (begin_leaves a).2
  have happend := hbegin.trans (append_leaves a.aofTransactionBegin.1 allocated (checkpointRecord token)).2
  unfold aofCreateCheckpoint
  simp only
  split_ifs
  · exact { hbegin with }
  · exact { happend with }
  · exact happend.trans (sameChunks_startCommit _ _)

theorem handOver_producerChunk (a : State) : a.handOver.producerChunk = none := by
  unfold State.handOver
  split
  · rename_i hnone
    exact hnone
  · rfl

theorem handOver_reactor (a : State) : a.handOver.reactor = a.reactor ∧ a.handOver.checkpoints = a.checkpoints := by
  unfold State.handOver
  split <;> exact ⟨rfl, rfl⟩

theorem sameFile_handOver (a : State) : SameFile a a.handOver := by
  unfold State.handOver
  split <;> exact { SameFile.refl a with }

theorem sameFile_flush (a : State) : SameFile a a.aofFlush := by
  unfold aofFlush
  split_ifs
  · exact .refl a
  · exact sameFile_handOver a
  · exact { sameFile_handOver a with }

theorem sameFile_copyRound (a : State) (allocated : Bool) : SameFile a (a.copyRound allocated) := by
  unfold State.copyRound
  split
  · split_ifs
    · split
      · exact { SameFile.refl a with }
      · simp only
        split_ifs
        · exact { sameFile_handOver _ with }
        · exact { SameFile.refl a with }
    · exact .refl a
  · exact .refl a

/-- a list of chunks goes to the queue -/
theorem queueAll_eq (chunks : List Chunk) : ∀ a : State, ∃ queueBytes backpressured, chunks.foldl queueChunkLocked a = { a with
      queue := a.queue ++ chunks, queueBytes := queueBytes, backpressured := backpressured,
      handed := a.handed ++ chunks.flatMap Chunk.data } := by
  induction chunks with
  | nil =>
    intro a
    exact ⟨a.queueBytes, a.backpressured, by simp⟩
  | cons chunk chunks ih =>
    intro a
    obtain ⟨n, b, h⟩ := ih (a.queueChunkLocked chunk)
    refine ⟨n, b, ?_⟩
    rw [foldl_cons, h]
    simp [queueChunkLocked]

/-- the records of a commit that is under way -/
def committed (a : State) : List (List Bytes) :=
  match a.reactor with
  | .committing _ _ _ => a.transactionRecords
  | _ => []

theorem committed_eq_nil (h : ∀ position assigned token, a.reactor ≠ .committing position assigned token) : a.committed = [] := by
  unfold committed
  split
  · rename_i position assigned token hat
    exact absurd hat (h position assigned token)
  · rfl

/-- the records and bytes before the queue, which most actions leave alone -/
structure SameRecords (a b : State) : Prop where
  kept : b.kept = a.kept
  committed : b.committed = a.committed
  batches : b.batches = a.batches
  nextSequence : b.nextSequence = a.nextSequence
  pending : b.pending = a.pending
  transaction : b.transaction = a.transaction
  transactionRecords : b.transactionRecords = a.transactionRecords

theorem SameRecords.refl (a : State) : SameRecords a a := ⟨rfl, rfl, rfl, rfl, rfl, rfl, rfl⟩

theorem SameRecords.trans (h : SameRecords a b) (h' : SameRecords b c) : SameRecords a c :=
  ⟨h'.kept.trans h.kept, h'.committed.trans h.committed, h'.batches.trans h.batches, h'.nextSequence.trans h.nextSequence,
    h'.pending.trans h.pending, h'.transaction.trans h.transaction, h'.transactionRecords.trans h.transactionRecords⟩

theorem sameRecords_handOver (a : State) : SameRecords a a.handOver := by
  unfold State.handOver
  split <;> exact { SameRecords.refl a with }

theorem sameRecords_copyRound (a : State) : SameRecords a (a.copyRound true) := by
  unfold State.copyRound
  split
  · rename_i position assigned token hat
    split_ifs
    · split
      · rename_i hnone
        cases hp : a.producerChunk with
        | none | some chunk =>
          rw [hp] at hnone
          cases hnone
      · rename_i chunk hchunk
        simp only
        have hcopied : ∀ chunk position', SameRecords a
            { a with producerChunk := some chunk, reactor := .committing position' assigned token } := by
          intro chunk position'
          refine { SameRecords.refl a with committed := ?_ }
          unfold committed
          rw [hat]
        split_ifs
        · exact (hcopied _ _).trans (sameRecords_handOver _)
        · exact hcopied _ _
    · exact .refl a
  · exact .refl a

/-- the reactor thread waits, syncs or takes the size of the file -/
structure Rests (a b : State) : Prop extends SameRecords a b, SameFile a b where
  producerChunk : b.producerChunk = a.producerChunk

theorem Rests.refl (a : State) : Rests a a := ⟨SameRecords.refl a, SameFile.refl a, rfl⟩

/-- it moves on outside a commit -/
theorem Rests.moved (h : ∀ position assigned token, a.reactor ≠ .committing position assigned token)
    (h' : ∀ position assigned token, reactor ≠ .committing position assigned token) {durable synced : ℕ}
    {checkpoints : List Rdb.Checkpoint} :
    Rests a { a with reactor := reactor, durable := durable, syncedSequence := synced, checkpoints := checkpoints } := by
  refine { Rests.refl a with committed := ?_ }
  rw [committed_eq_nil h, committed_eq_nil]
  exact h'

theorem rests_awake (a : State) : Rests a a.awake := by
  unfold State.awake
  split
  · rename_i sequence token hat
    split_ifs
    · exact .refl a
    · exact Rests.moved (by simp [hat]) (by simp)
    · cases token with
      | none | some token => exact Rests.moved (by simp [hat]) (by simp)
  · exact .refl a

theorem rests_reactorSync (a : State) (ok : Bool) : Rests a (a.reactorSync ok) := by
  unfold State.reactorSync
  split
  · rename_i target token hat
    split_ifs
    · exact .refl a
    · exact Rests.moved (by simp [hat]) (by simp)
    · exact Rests.moved (by simp [hat]) (by simp)
  · rename_i target token hat
    split_ifs
    · exact Rests.moved (by simp [hat]) (by simp)
    · exact Rests.moved (by simp [hat]) (by simp)
  · rename_i target token hat
    exact Rests.moved (by simp [hat]) (by simp)
  · exact .refl a

theorem rests_stat (a : State) : Rests a a.statFile := by
  unfold State.statFile
  split
  · rename_i token hat
    exact Rests.moved (by simp [hat]) (by simp)
  · exact .refl a

theorem SameFile.call {next : State} (h : SameFile a next) : SameFile a (a.call next) := call_rule (SameFile.refl a) fun _ => h

theorem sameFile_enqueueBytes (a : State) (allocated : Bool) :
    SameFile a (a.enqueueBytes allocated) ∧ (a.enqueueBytes allocated).producerChunk = a.producerChunk := by
  unfold State.enqueueBytes
  split_ifs
  · exact ⟨{ SameFile.refl a with }, rfl⟩
  · obtain ⟨n, b, hqueue⟩ := queueAll_eq (chunksOf (a.nextSequence + 1) a.pending.length a.pending) a
    simp only [hqueue]
    exact ⟨{ SameFile.refl a with }, trivial⟩

/-- **The reactor thread** does not touch the file. -/
theorem sameFile_step (a : State) (h : action.OfWriter = false) : SameFile a (a.step action) := by
  cases action with
  | append allocated arguments => exact (append_leaves a allocated arguments).2.toSameFile.call
  | begin => exact (begin_leaves a).2.toSameFile.call
  | commit => exact (sameChunks_startCommit a none).toSameFile.call
  | rollback => exact SameFile.call { SameFile.refl a with }
  | flush => exact (sameFile_flush a).call
  | checkpoint allocated token => exact (sameChunks_checkpoint a allocated token).toSameFile.call
  | copy allocated => exact sameFile_copyRound a allocated
  | finish =>
    simp only [State.step, State.finishCommit]
    split
    · split_ifs <;> exact { SameFile.refl a with }
    · exact .refl a
  | enqueue allocated => exact enqueue_rule (SameFile.refl a) fun _ => (sameFile_enqueueBytes a allocated).1
  | handOver => exact handing_rule (SameFile.refl a) fun _ _ _ => { sameFile_handOver a with }
  | awake => exact (rests_awake a).toSameFile
  | reactorSync ok => exact (rests_reactorSync a ok).toSameFile
  | stat => exact (rests_stat a).toSameFile
  | _ => exact absurd h (by simp [Action.OfWriter])

/-- what the writer thread leaves alone; it adds to the file and counts what it has added -/
structure WriterMoves (a b : State) : Prop extends SameRecords a b where
  opened : b.opened = a.opened
  reactor : b.reactor = a.reactor
  active : b.transactionActive = a.transactionActive
  checkpoints : b.checkpoints = a.checkpoints
  producerChunk : b.producerChunk = a.producerChunk
  appended : a.appended.length ≤ b.appended.length
  written : a.writtenBytes ≤ b.writtenBytes
  sequence : a.writtenSequence ≤ b.writtenSequence
  error : a.asyncError = true → b.asyncError = true

theorem WriterMoves.refl (a : State) : WriterMoves a a :=
  ⟨.refl a, rfl, rfl, rfl, rfl, rfl, le_rfl, le_rfl, le_rfl, id⟩

theorem WriterMoves.trans (h : WriterMoves a b) (h' : WriterMoves b c) : WriterMoves a c where
  toSameRecords := h.toSameRecords.trans h'.toSameRecords
  opened := h'.opened.trans h.opened
  reactor := h'.reactor.trans h.reactor
  active := h'.active.trans h.active
  checkpoints := h'.checkpoints.trans h.checkpoints
  producerChunk := h'.producerChunk.trans h.producerChunk
  appended := h.appended.trans h'.appended
  written := h.written.trans h'.written
  sequence := h.sequence.trans h'.sequence
  error := fun herror => h'.error (h.error herror)

/-- **The writer thread** touches the queue, the file and its counters. -/
theorem writerMoves_step (a : State) (h : action.OfWriter = true) : WriterMoves a (a.step action) := by
  cases action with
  | gather =>
    simp only [State.step, State.gather]
    split
    · split_ifs <;> exact { WriterMoves.refl a with }
    · exact .refl a
  | writev result =>
    simp only [State.step, State.writev]
    split
    · split_ifs
      · exact { WriterMoves.refl a with error := fun _ => rfl }
      · exact .refl a
      · exact { WriterMoves.refl a with appended := by simp }
    · exact .refl a
  | consume =>
    simp only [State.step, State.consume]
    split
    · refine { WriterMoves.refl a with written := Nat.le_add_right _ _, sequence := ?_ }
      simp only
      split_ifs <;> omega
    · exact .refl a
  | tick =>
    simp only [State.step, State.tick]
    split
    · split_ifs <;> exact { WriterMoves.refl a with }
    · exact .refl a
  | writerSync ok =>
    simp only [State.step, State.writerSync]
    split
    · split_ifs <;> exact { WriterMoves.refl a with }
    · split_ifs
      · exact { WriterMoves.refl a with }
      · exact { WriterMoves.refl a with error := fun _ => rfl }
    · exact { WriterMoves.refl a with }
    · exact .refl a
  | publish =>
    simp only [State.step, State.publish]
    split
    · exact { WriterMoves.refl a with sequence := le_max_left _ _ }
    · exact .refl a
  | _ => exact absurd h (by simp [Action.OfWriter])

/-- **`written_sequence` never decreases, and an error of the writer stays.** -/
theorem step_monotone (a : State) (action : Action) :
    a.writtenSequence ≤ (a.step action).writtenSequence ∧ (a.asyncError = true → (a.step action).asyncError = true) := by
  cases hw : action.OfWriter with
  | true => exact ⟨(writerMoves_step a hw).sequence, (writerMoves_step a hw).error⟩
  | false =>
    have hsame := sameFile_step a hw
    exact ⟨hsame.writtenSequence.ge, fun herror => hsame.asyncError.trans herror⟩

/-! ## The reactor thread -/

theorem uncopied_eq_nil (h : ∀ position assigned token, a.reactor ≠ .committing position assigned token) : a.uncopied = [] := by
  unfold uncopied
  split
  · rename_i position assigned token hat
    exact absurd hat (h position assigned token)
  · rfl

theorem uncopied_idle (hidle : a.reactor = .idle) : a.uncopied = [] := uncopied_eq_nil (by simp [hidle])

theorem uncopied_committing (hat : a.reactor = .committing position assigned token) :
    a.uncopied = a.transaction.drop position := by
  unfold uncopied
  rw [hat]

theorem Inv.assigned_le (h : Inv a) (hat : a.reactor = .committing position assigned token) :
    assigned ≤ a.nextSequence := by
  have hmarks := h.marks.reactor
  unfold ReactorMarks at hmarks
  rwa [hat] at hmarks

/-- calls that touch the reactor's own buffers only -/
theorem Inv.buffered (h : Inv a) (hidle : a.reactor = .idle) {pending transaction : Bytes} {active : Bool}
    {kept records : List (List Bytes)} :
    Inv { a with
      pending := pending, transaction := transaction, transactionActive := active, kept := kept, transactionRecords := records } := by
  have hstream := h.stream
  rw [uncopied_idle hidle] at hstream
  refine { h with stream := ?_, buffers := ?_, marks := { h.marks with } }
  · unfold uncopied
    simp only [hidle]
    exact hstream
  · unfold Buffers
    simp only [hidle]

/-- the reactor thread moves on, with nothing left to copy -/
theorem Inv.moved (h : Inv a) (hdone : a.uncopied = []) (hnext : match reactor with
      | .idle | .handing _ _ | .waiting _ _ | .stating _ => True
      | .syncing .store target _ => Mark a.done a.nextSequence target a.writtenBytes ∧ Mark a.done a.nextSequence target a.durable
      | .syncing _ target _ => Mark a.done a.nextSequence target a.writtenBytes
      | .enqueueing => a.producerChunk = none ∧ a.pending ≠ []
      | .committing _ _ _ => False) : Inv { a with reactor := reactor } := by
  have hstream := h.stream
  rw [hdone] at hstream
  cases reactor with
  | committing position assigned token => exact absurd hnext id
  | enqueueing => exact { h with stream := hstream, buffers := hnext, marks := { h.marks with reactor := trivial } }
  | syncing stage target token =>
    cases stage <;> exact { h with stream := hstream, buffers := trivial, marks := { h.marks with reactor := hnext } }
  | _ => exact { h with stream := hstream, buffers := trivial, marks := { h.marks with reactor := trivial } }

/-- the next sequence is above those of all batches -/
theorem sorted_snoc (h : Inv a) {bytes : Bytes} : ((a.batches ++ [(a.nextSequence + 1, bytes)]).map Prod.fst).Pairwise (· < ·) := by
  rw [map_append, pairwise_append]
  refine ⟨h.sorted, pairwise_singleton _ _, fun s hs t ht => ?_⟩
  obtain ⟨b, hb, rfl⟩ := mem_map.1 hs
  rw [map_singleton, mem_singleton] at ht
  have := h.bound b hb
  omega

theorem bound_snoc (h : Inv a) {bytes : Bytes} : ∀ b ∈ a.batches ++ [(a.nextSequence + 1, bytes)], b.1 ≤ a.nextSequence + 1 := by
  intro b hb
  rcases mem_append.1 hb with hb | hb
  · exact (h.bound b hb).trans (Nat.le_succ _)
  · rw [mem_singleton.1 hb]

theorem marks_snoc (h : Inv a) {bytes : Bytes} :
    Marks (fun s => (upTo (a.batches ++ [(a.nextSequence + 1, bytes)]) s).length) (a.nextSequence + 1) a := by
  refine h.marks.mono (fun s hs => ?_) (Nat.le_succ _)
  rw [upTo_snoc (by omega)]
  rfl

theorem Inv.startCommit (h : Inv a) (hidle : a.reactor = .idle) (token : Option Bytes) : Inv (a.startCommit token) := by
  have hstream := h.stream
  rw [uncopied_idle hidle] at hstream
  unfold State.startCommit
  split_ifs with hactive hempty
  · exact h
  · refine { h with stream := ?_, buffers := ?_, marks := { h.marks with reactor := Nat.zero_le _ } }
    · rw [hstream]
      simp [uncopied, hempty, produced]
    · exact ⟨Nat.zero_le _, fun hne => absurd hempty hne⟩
  · refine { h with sorted := ?_, bound := ?_, stream := ?_, buffers := ?_, marks := { marks_snoc h with reactor := le_rfl } }
    · exact sorted_snoc h
    · exact bound_snoc h
    · rw [flatMap_append, hstream]
      simp [uncopied, produced]
    · exact ⟨Nat.zero_le _, fun _ => ⟨a.batches, rfl⟩⟩

/-- the producer's chunk goes to the queue -/
theorem Inv.handOver (h : Inv a) : Inv a.handOver := by
  unfold State.handOver
  cases hchunk : a.producerChunk with
  | none => exact h
  | some chunk =>
    have hrest : chunk.rest = chunk.data := by rw [Chunk.rest, h.offset chunk hchunk, drop_zero]
    have hqueued : (a.queue ++ [chunk]).flatMap Chunk.rest = a.queued ++ chunk.data := by
      rw [flatMap_append, flatMap_singleton, hrest]
      rfl
    obtain ⟨hbound, hend⟩ := h.marks.producer chunk hchunk
    simp only [queueChunkLocked]
    refine { h with
      stream := ?_, handed := ?_, ahead := ?_, buffers := ?_, offset := ?_, marks := { h.marks with queue := ?_, producer := ?_ } }
    · have hstream := h.stream
      unfold produced at hstream
      rw [hchunk] at hstream
      rw [hstream]
      simp [produced, uncopied]
    · unfold queued
      simp only [hqueued, h.handed, append_assoc]
    · exact h.ahead.longer rfl ⟨rfl, rfl⟩ hqueued
    · have hbuffers := h.buffers
      unfold Buffers at hbuffers ⊢
      simp only
      split at hbuffers
      · exact hbuffers
      · exact ⟨trivial, hbuffers.2⟩
      · trivial
    · exact fun _ hc => (Option.some_ne_none _ hc.symm).elim
    · refine h.marks.queue.append ⟨?_, hbound, fun hc => ?_, trivial⟩
      · rw [h.offset chunk hchunk]
        exact Nat.zero_le _
      · rw [hrest]
        exact hend hc
    · exact fun _ hc => (Option.some_ne_none _ hc.symm).elim

theorem cutLast_append (bs : List (ℕ × Bytes)) (b : ℕ × Bytes) (position : ℕ) :
    cutLast (bs ++ [b]) position = bs ++ [(b.1, b.2.take position)] := by
  unfold cutLast
  rw [dropLast_concat, List.getLast?_concat]
  rfl

theorem upTo_cut (bs : List (ℕ × Bytes)) (b : ℕ × Bytes) (position s : ℕ) :
    (upTo (bs ++ [(b.1, b.2.take position)]) s).length ≤ (upTo (bs ++ [b]) s).length := by
  rw [upTo_append, upTo_append, upTo_cons, upTo_cons, upTo_nil]
  split_ifs
  · simp
  · exact le_rfl

/-- a commit that finds no chunk -/
theorem Inv.commitFails (h : Inv a) (hat : a.reactor = .committing position assigned token)
    (hlt : position < a.transaction.length) :
    Inv { a with
      transaction := [], transactionActive := false, transactionRecords := [], reactor := .idle,
      batches := cutLast a.batches position } := by
  have hbuffers := h.buffers
  unfold Buffers at hbuffers
  rw [hat] at hbuffers
  obtain ⟨bs, hbs⟩ := hbuffers.2 (ne_nil_of_length_pos (Nat.zero_lt_of_lt hlt))
  have hstream := h.stream
  rw [uncopied_committing hat, hbs, flatMap_append, flatMap_singleton] at hstream
  have hcut : cutLast a.batches position = bs ++ [(assigned, a.transaction.take position)] := by rw [hbs, cutLast_append]
  rw [hcut]
  have hdone : ∀ s ≤ a.nextSequence, (upTo (bs ++ [(assigned, a.transaction.take position)]) s).length ≤ a.done s := by
    intro s _
    unfold done
    rw [hbs]
    exact upTo_cut bs (assigned, a.transaction) position s
  have hmarks := h.marks.mono hdone le_rfl
  have hsame : (bs ++ [(assigned, a.transaction.take position)]).map Prod.fst = a.batches.map Prod.fst := by
    rw [hbs, map_append, map_append]
    rfl
  refine { h with sorted := ?_, bound := ?_, stream := ?_, buffers := trivial, marks := { hmarks with reactor := trivial } }
  · simp only [hsame]
    exact h.sorted
  · intro b hb
    have hfst : b.1 ∈ a.batches.map Prod.fst := hsame ▸ mem_map_of_mem hb
    obtain ⟨b', hb', he⟩ := mem_map.1 hfst
    exact he ▸ h.bound b' hb'
  · -- what was copied is what is not left to copy
    rw [flatMap_append, flatMap_singleton]
    refine (append_left_inj (a.transaction.drop position)).1 ?_
    rw [append_assoc, take_append_drop]
    simpa [uncopied, produced] using hstream

/-- a round that copies into a chunk -/
theorem Inv.copied (h : Inv a) (hat : a.reactor = .committing position assigned token)
    {chunk : Chunk} (hdata : a.produced = chunk.data) (hoffset : chunk.offset = 0) (amount : ℕ)
    (hamount : position + amount ≤ a.transaction.length) :
    Inv { a with
      producerChunk := some
        { chunk with
          data := chunk.data ++ (a.transaction.drop position).take amount
          sequence := assigned
          sequenceEnd := decide (position + amount = a.transaction.length) }
      reactor := .committing (position + amount) assigned token } := by
  have hbuffers := h.buffers
  unfold Buffers at hbuffers
  rw [hat] at hbuffers
  have hstream := h.stream
  rw [uncopied_committing hat, hdata] at hstream
  have hassigned := h.assigned_le hat
  have hsplit : (a.transaction.drop position).take amount ++ a.transaction.drop (position + amount) = a.transaction.drop position := by
    rw [← drop_drop, take_append_drop]
  refine { h with
    stream := ?_, buffers := ⟨hamount, hbuffers.2⟩, offset := ?_, marks := { h.marks with producer := ?_, reactor := hassigned } }
  · rw [hstream]
    simp only [produced, uncopied, Option.map_some, Option.getD_some]
    rw [append_assoc, append_assoc, append_assoc, hsplit]
  · intro c hc
    cases hc
    exact hoffset
  · intro c hc
    cases hc
    refine ⟨hassigned, fun hend => ?_⟩
    -- the chunk ends the last batch, and nothing is left to copy
    rw [decide_eq_true_eq] at hend
    have hle : a.done assigned ≤ (a.batches.flatMap Prod.snd).length := upTo_le_total _ _
    have hend' : a.transaction.drop (position + amount) = [] := drop_of_length_le (le_of_eq hend.symm)
    rw [hstream, ← hsplit, hend', append_nil, length_append, length_append, h.length_handed] at hle
    rw [length_append]
    exact le_trans hle (le_of_eq (Nat.add_assoc _ _ _))

theorem Inv.copyRound (h : Inv a) (allocated : Bool) : Inv (a.copyRound allocated) := by
  unfold State.copyRound
  split
  · rename_i position assigned token hat
    split_ifs with hlt
    · split
      · exact h.commitFails hat hlt
      · rename_i chunk hchunk
        have hdata : a.produced = chunk.data ∧ chunk.offset = 0 := by
          unfold produced
          cases hp : a.producerChunk with
          | some c =>
            rw [hp] at hchunk
            cases hchunk
            exact ⟨rfl, h.offset chunk hp⟩
          | none =>
            rw [hp] at hchunk
            cases allocated
            · cases hchunk
            · cases hchunk
              exact ⟨rfl, rfl⟩
        have hcopied := h.copied hat hdata.1 hdata.2 (min (a.transaction.length - position) (aofChunkCapacity - chunk.data.length))
          (by omega)
        simp only
        split_ifs
        · exact hcopied.handOver
        · exact hcopied
    · exact h
  · exact h

theorem Inv.finishCommit (h : Inv a) : Inv a.finishCommit := by
  unfold State.finishCommit
  split
  · rename_i position assigned token hat
    split_ifs with hlt
    · exact h
    · have hstream := h.stream
      rw [uncopied_committing hat] at hstream
      have hnone : a.transaction.drop position = [] := drop_of_length_le (not_lt.1 hlt)
      simp only [hnone] at hstream
      cases token <;> exact { h with stream := hstream, buffers := trivial, marks := { h.marks with reactor := trivial } }
  · exact h

theorem Inv.flush (h : Inv a) (hidle : a.reactor = .idle) : Inv a.aofFlush := by
  unfold aofFlush
  split_ifs with hactive hempty
  · exact h
  · exact h.handOver
  · refine h.handOver.moved (uncopied_idle ((handOver_reactor a).1.trans hidle)) ⟨handOver_producerChunk a, ?_⟩
    rwa [(sameRecords_handOver a).pending]

/-! ## Pending bytes -/

theorem chunksOf_data (sequence fuel : ℕ) : ∀ {data : Bytes}, data ≠ [] → data.length ≤ fuel →
    (chunksOf sequence fuel data).flatMap Chunk.data = data ∧ (chunksOf sequence fuel data).flatMap Chunk.rest = data := by
  induction fuel with
  | zero =>
    intro data hne hfuel
    exact absurd (length_eq_zero_iff.1 (Nat.le_zero.1 hfuel)) hne
  | succ fuel ih =>
    intro data hne hfuel
    rw [chunksOf]
    split_ifs with hlast
    · exact ⟨append_nil _, append_nil _⟩
    · have hleft : (data.drop aofChunkCapacity).length = data.length - aofChunkCapacity := length_drop
      have hpos : 0 < aofChunkCapacity := by decide
      have hmore : data.drop aofChunkCapacity ≠ [] := ne_nil_of_length_pos (by omega)
      obtain ⟨h1, h2⟩ := ih hmore (by omega)
      rw [flatMap_cons, flatMap_cons, h1, h2]
      exact ⟨take_append_drop _ _, take_append_drop _ _⟩

theorem chunksOf_ends {done : ℕ → ℕ} {next sequence : ℕ} (hseq : sequence ≤ next) (fuel : ℕ) : ∀ {base : ℕ} {data : Bytes},
    done sequence ≤ base + data.length → Ends done next base (chunksOf sequence fuel data) := by
  induction fuel with
  | zero => exact fun _ => trivial
  | succ fuel ih =>
    intro base data hdone
    rw [chunksOf]
    split_ifs with hlast
    · exact ⟨Nat.zero_le _, hseq, fun _ => hdone, trivial⟩
    · refine ⟨Nat.zero_le _, Nat.zero_le _, by simp, ih ?_⟩
      simp only [Chunk.rest, drop_zero, length_take, length_drop]
      omega

theorem Inv.enqueueBytes (h : Inv a) (hat : a.reactor = .enqueueing) (allocated : Bool) : Inv (a.enqueueBytes allocated) := by
  have hbuffers := h.buffers
  unfold Buffers at hbuffers
  rw [hat] at hbuffers
  obtain ⟨hproducer, hpending⟩ := hbuffers
  have hnone := uncopied_eq_nil (a := a) (by simp [hat])
  have hproduced : a.produced = [] := by
    unfold produced
    rw [hproducer]
    rfl
  unfold State.enqueueBytes
  split_ifs with halloc
  · exact h.moved hnone trivial
  obtain ⟨n, b, hqueue⟩ := queueAll_eq (chunksOf (a.nextSequence + 1) a.pending.length a.pending) a
  obtain ⟨hdata, hrest⟩ := chunksOf_data (a.nextSequence + 1) a.pending.length hpending le_rfl
  simp only [hqueue, hdata]
  have hstream := h.stream
  rw [hnone, hproduced, append_nil, append_nil] at hstream
  have hqueued : (a.queue ++ chunksOf (a.nextSequence + 1) a.pending.length a.pending).flatMap Chunk.rest = a.queued ++ a.pending := by
    rw [flatMap_append, hrest]
    rfl
  have hmarks := @marks_snoc a h a.pending
  refine { h with
    sorted := ?_, bound := ?_, stream := ?_, handed := ?_, ahead := ?_, buffers := trivial,
    marks := { hmarks with queue := ?_, producer := ?_, reactor := trivial } }
  · exact sorted_snoc h
  · exact bound_snoc h
  · rw [flatMap_append, hstream]
    simp [uncopied, produced, hproducer]
  · unfold queued
    simp only [hqueued, h.handed, append_assoc]
  · exact h.ahead.longer rfl ⟨rfl, rfl⟩ hqueued
  · refine hmarks.queue.append (chunksOf_ends le_rfl _ ?_)
    refine (upTo_le_total _ _).trans (le_of_eq ?_)
    rw [flatMap_append, hstream, length_append, h.length_handed]
    simp [queued]
  · intro chunk hc
    simp only [hproducer] at hc
    cases hc

theorem Inv.awake (h : Inv a) : Inv a.awake := by
  unfold State.awake
  split
  · rename_i sequence token hat
    have hnone := uncopied_eq_nil (a := a) (by simp [hat])
    split_ifs with hwait herror
    · exact h
    · exact h.moved hnone trivial
    · cases token with
      | none => exact h.moved hnone trivial
      | some token =>
        have hle : sequence ≤ a.writtenSequence := by
          by_contra hlt
          exact hwait ⟨not_le.1 hlt, eq_false_of_ne_true herror⟩
        refine h.moved hnone ⟨hle.trans h.marks.written.assigned, ?_⟩
        exact (upTo_mono _ hle).trans h.marks.written.complete
  · exact h

/-- more of the file is synced -/
theorem Inv.fdatasync (h : Inv a) : Inv { a with durable := a.appended.length } := by
  have hle := h.durable
  refine { h with durable := le_rfl, marks := { h.marks with synced := h.marks.synced.later hle, reactor := ?_, writer := ?_ } }
  · exact h.marks.reactor.grow (fun _ _ => le_rfl) le_rfl rfl le_rfl hle
  · exact h.marks.writer.grow (fun _ _ => le_rfl) le_rfl rfl le_rfl hle le_rfl

/-- a synced sequence is stored -/
theorem Inv.stored (h : Inv a) {target : ℕ} (hmark : Mark a.done a.nextSequence target a.durable) :
    Inv { a with syncedSequence := max a.syncedSequence target } := by
  have hle : a.syncedSequence ≤ max a.syncedSequence target := le_max_left _ _
  refine { h with marks := { h.marks with
    synced := h.marks.synced.both hmark, always := fun hp => (h.marks.always hp).trans hle, writer := ?_ } }
  exact h.marks.writer.grow (fun _ _ => le_rfl) le_rfl rfl le_rfl le_rfl hle

theorem Inv.reactorSync (h : Inv a) (ok : Bool) : Inv (a.reactorSync ok) := by
  have hmarks := h.marks.reactor
  unfold ReactorMarks at hmarks
  unfold State.reactorSync
  split
  · rename_i target token hat
    have hnone := uncopied_eq_nil (a := a) (by simp [hat])
    rw [hat] at hmarks
    split_ifs
    · exact h
    · exact h.moved hnone trivial
    · exact h.moved hnone hmarks
  · rename_i target token hat
    have hnone := uncopied_eq_nil (a := a) (by simp [hat])
    rw [hat] at hmarks
    split_ifs
    · exact h.fdatasync.moved hnone ⟨hmarks, hmarks.later h.count⟩
    · exact h.moved hnone trivial
  · rename_i target token hat
    have hnone := uncopied_eq_nil (a := a) (by simp [hat])
    rw [hat] at hmarks
    exact (h.stored hmarks.2).moved hnone trivial
  · exact h

theorem Inv.statFile (h : Inv a) : Inv a.statFile := by
  unfold State.statFile
  split
  · rename_i token hat
    have hnone := uncopied_eq_nil (a := a) (by simp [hat])
    have hmoved : Inv { a with reactor := .idle } := h.moved hnone trivial
    exact { hmoved with marks := { hmoved.marks with } }
  · exact h

/-! ## The writer thread -/

/-- **`consume_written`** takes the written bytes off the queue; the number it returns is complete. -/
theorem consumeWritten_spec {done : ℕ → ℕ} {next : ℕ} (queue : List Chunk) : ∀ {base amount completed : ℕ},
    Ends done next base queue → amount ≤ (queue.flatMap Chunk.rest).length → (completed ≠ 0 → Mark done next completed base) →
    (consumeWritten queue amount completed).1.flatMap Chunk.rest = (queue.flatMap Chunk.rest).drop amount ∧
      Ends done next (base + amount) (consumeWritten queue amount completed).1 ∧
      ((consumeWritten queue amount completed).2 ≠ 0 → Mark done next (consumeWritten queue amount completed).2 (base + amount)) := by
  induction queue with
  | nil =>
    intro base amount completed _ hamount hmark
    have hzero : amount = 0 := Nat.le_zero.1 hamount
    subst hzero
    exact ⟨rfl, trivial, hmark⟩
  | cons chunk queue ih =>
    intro base amount completed hends hamount hmark
    rw [consumeWritten]
    by_cases hzero : amount = 0
    · rw [if_pos hzero, hzero]
      exact ⟨rfl, hends, hmark⟩
    obtain ⟨h1, h2, h3, h4⟩ := hends
    have hrest : chunk.rest.length = chunk.data.length - chunk.offset := length_drop
    rw [flatMap_cons, length_append] at hamount
    rw [if_neg hzero]
    simp only
    by_cases hwhole : chunk.offset + min amount (chunk.data.length - chunk.offset) = chunk.data.length
    · -- the chunk is written: go on behind it
      have hconsumed : min amount (chunk.data.length - chunk.offset) = chunk.rest.length := by omega
      have hle : chunk.rest.length ≤ amount := hconsumed ▸ min_le_left _ _
      rw [if_pos hwhole, hconsumed]
      have hmark' : (if chunk.sequenceEnd then chunk.sequence else completed) ≠ 0 →
          Mark done next (if chunk.sequenceEnd then chunk.sequence else completed) (base + chunk.rest.length) := by
        intro hne
        split_ifs at hne ⊢ with hend
        · exact ⟨h2, h3 hend⟩
        · exact (hmark hne).later (Nat.le_add_right _ _)
      obtain ⟨g1, g2, g3⟩ := ih h4 (show amount - chunk.rest.length ≤ _ by omega) hmark'
      have hbase : base + chunk.rest.length + (amount - chunk.rest.length) = base + amount := by omega
      rw [hbase] at g2 g3
      refine ⟨?_, g2, g3⟩
      rw [g1, flatMap_cons, drop_append, drop_of_length_le hle, nil_append]
    · -- it is not: the writing ends here
      have hconsumed : min amount (chunk.data.length - chunk.offset) = amount := by omega
      have hlt : amount < chunk.rest.length := by omega
      rw [if_neg hwhole, hconsumed]
      have hleft : ({ chunk with offset := chunk.offset + amount } : Chunk).rest = chunk.rest.drop amount := by
        simp only [Chunk.rest, drop_drop]
      have hlen : (chunk.rest.drop amount).length = chunk.rest.length - amount := length_drop
      refine ⟨?_, ⟨?_, h2, fun hend => ?_, ?_⟩, fun hne => (hmark hne).later (Nat.le_add_right _ _)⟩
      · rw [flatMap_cons, flatMap_cons, hleft, drop_append_of_le_length (le_of_lt hlt)]
      · simp only
        omega
      · have := h3 hend
        rw [hleft, hlen]
        simp only
        omega
      · rw [hleft, hlen, show base + amount + (chunk.rest.length - amount) = base + chunk.rest.length by omega]
        exact h4

section

variable (h : Inv a)
include h

/-- the writer thread moves on, with nothing written ahead -/
theorem Inv.writerMoved (hcount : a.appended.length = a.writtenBytes) {writer : Writer} (hnext : match writer with
      | .idle | .stopped => True
      | .gathered vectors => vectors.flatten <+: a.queued
      | .wrote _ => False
      | .syncing .store target _ => Mark a.done a.nextSequence target a.writtenBytes ∧ Mark a.done a.nextSequence target a.durable
      | .syncing _ target _ => Mark a.done a.nextSequence target a.writtenBytes
      | .publishing sequence => Mark a.done a.nextSequence sequence a.writtenBytes ∧ sequence ≤ a.syncedSequence) :
    Inv { a with writer := writer } := by
  cases writer with
  | wrote result => exact absurd hnext id
  | gathered vectors => exact { h with ahead := ⟨hcount, hnext⟩, marks := { h.marks with writer := trivial } }
  | publishing sequence => exact { h with ahead := hcount, marks := { h.marks with writer := hnext } }
  | syncing stage target publish => cases stage <;> exact { h with ahead := hcount, marks := { h.marks with writer := hnext } }
  | _ => exact { h with ahead := hcount, marks := { h.marks with writer := trivial } }

theorem Inv.gather : Inv a.gather := by
  have hahead := h.ahead
  unfold State.gather
  split
  · rename_i hat
    unfold Ahead at hahead
    rw [hat] at hahead
    split_ifs
    · exact h
    · refine h.writerMoved hahead ?_
      refine ⟨(a.queue.drop aofWritevMax).flatMap Chunk.rest, ?_⟩
      rw [← flatMap_def, queued, ← flatMap_append, take_append_drop]
  · exact h

theorem Inv.error : Inv { a with asyncError := true } := { h with marks := { h.marks with } }

theorem Inv.writev (result : ℕ) : Inv (a.writev result) := by
  have hahead := h.ahead
  unfold State.writev
  split
  · rename_i vectors hat
    unfold Ahead at hahead
    rw [hat] at hahead
    obtain ⟨hcount, hvectors⟩ := hahead
    split_ifs with hzero hlong
    · exact h.error.writerMoved hcount trivial
    · exact h
    · have hdrop : (a.appended ++ vectors.flatten.take result).drop a.writtenBytes = vectors.flatten.take result := by
        rw [← hcount, drop_left]
      have htake : (a.appended ++ vectors.flatten.take result).take a.writtenBytes = a.appended.take a.writtenBytes := by
        rw [take_append_of_le_length (le_of_eq hcount.symm)]
      have hlen : (a.appended ++ vectors.flatten.take result).length = a.writtenBytes + result := by
        rw [length_append, hcount, length_take_of_le (not_lt.1 hlong)]
      refine { h with handed := ?_, ahead := ⟨hlen, ?_⟩, durable := ?_, marks := { h.marks with writer := trivial } }
      · simp only [htake]
        exact h.handed
      · simp only [hdrop]
        exact (List.take_prefix _ _).trans hvectors
      · have := h.durable
        simp only [hlen]
        omega
  · exact h

theorem Inv.consume : Inv a.consume := by
  have hahead := h.ahead
  unfold State.consume
  split
  · rename_i result hat
    unfold Ahead at hahead
    rw [hat] at hahead
    obtain ⟨hcount, hwritten⟩ := hahead
    have hnew : a.appended.drop a.writtenBytes = a.queued.take result := by
      rw [prefix_iff_eq_take.1 hwritten, length_drop, hcount, Nat.add_sub_cancel_left]
    have hle : result ≤ a.queued.length := by
      have := hwritten.length_le
      rw [length_drop, hcount] at this
      omega
    obtain ⟨h1, h2, h3⟩ := consumeWritten_spec a.queue h.marks.queue hle fun hne => absurd rfl hne
    generalize consumeWritten a.queue result 0 = r at h1 h2 h3 ⊢
    have hlen : a.writtenBytes + result + (r.1.flatMap Chunk.rest).length = a.writtenBytes + a.queued.length := by
      have hleft : (a.queued.drop result).length = a.queued.length - result := length_drop
      rw [h1]
      unfold queued at hleft hle ⊢
      omega
    refine { h with
      handed := ?_, ahead := ?_,
      marks := { h.marks with queue := h2, producer := ?_, written := ?_, always := ?_, reactor := ?_, writer := ?_ } }
    · -- what was written moves from the queue to the file's part
      have htake : a.appended.take (a.writtenBytes + result) = a.appended.take a.writtenBytes ++ a.queued.take result := by
        rw [take_add, hnew, take_take, Nat.min_self]
      simp only [htake, queued, h1]
      rw [append_assoc, take_append_drop]
      exact h.handed
    · unfold Ahead
      simp only
      split_ifs <;> exact hcount
    · intro chunk hc
      obtain ⟨g1, g2⟩ := h.marks.producer chunk hc
      refine ⟨g1, fun hend => ?_⟩
      simp only [queued]
      rw [hlen]
      exact g2 hend
    · simp only
      by_cases hnext : r.2 ≠ 0 ∧ a.fsyncPolicy ≠ .always ∧ r.2 > a.writtenSequence
      · rw [if_pos hnext]
        exact h3 hnext.1
      · rw [if_neg hnext]
        exact h.marks.written.later (Nat.le_add_right _ _)
    · intro hp
      simp only
      rw [if_neg (fun hnext => hnext.2.1 hp)]
      exact h.marks.always hp
    · exact h.marks.reactor.grow (fun _ _ => le_rfl) le_rfl rfl (Nat.le_add_right _ _) le_rfl
    · unfold WriterMarks
      simp only
      by_cases hsync : r.2 ≠ 0 ∧ a.fsyncPolicy = .always
      · rw [if_pos hsync]
        exact h3 hsync.1
      · rw [if_neg hsync]
        trivial
  · exact h

theorem Inv.tick : Inv a.tick := by
  have hahead := h.ahead
  unfold State.tick
  split
  · rename_i hat
    unfold Ahead at hahead
    rw [hat] at hahead
    split_ifs
    · exact h.writerMoved hahead h.marks.written
    · exact h
  · exact h

theorem Inv.afterSync (hcount : a.appended.length = a.writtenBytes) {target : ℕ} {publish : Bool}
    (hmark : Mark a.done a.nextSequence target a.writtenBytes) (hle : target ≤ a.syncedSequence) :
    Inv { a with writer := afterSync target publish } := by
  unfold State.afterSync
  cases publish with
  | false => exact h.writerMoved hcount trivial
  | true => exact h.writerMoved hcount ⟨hmark, hle⟩

theorem Inv.writerSync (ok : Bool) : Inv (a.writerSync ok) := by
  have hmarks := h.marks.writer
  have hahead := h.ahead
  unfold WriterMarks at hmarks
  unfold Ahead at hahead
  unfold State.writerSync
  split
  · rename_i target publish hat
    rw [hat] at hmarks hahead
    split_ifs with hheld hle
    · exact h
    · exact h.afterSync hahead hmarks hle
    · exact h.writerMoved hahead hmarks
  · rename_i target publish hat
    rw [hat] at hmarks hahead
    split_ifs
    · exact h.fdatasync.writerMoved hahead ⟨hmarks, hmarks.later h.count⟩
    · exact h.error.writerMoved hahead trivial
  · rename_i target publish hat
    rw [hat] at hmarks hahead
    exact (h.stored hmarks.2).afterSync hahead hmarks.1 (le_max_right _ _)
  · exact h

theorem Inv.publish : Inv a.publish := by
  have hmarks := h.marks.writer
  have hahead := h.ahead
  unfold WriterMarks at hmarks
  unfold Ahead at hahead
  unfold State.publish
  split
  · rename_i sequence hat
    rw [hat] at hmarks hahead
    refine { h with ahead := hahead, marks := { h.marks with written := h.marks.written.both hmarks.1, always := ?_, writer := trivial } }
    exact fun hp => max_le (h.marks.always hp) hmarks.2
  · exact h

/-! ## Runs -/

theorem Inv.append (hidle : a.reactor = .idle) (allocated : Bool) (arguments : List Bytes) :
    Inv (a.aofAppend allocated arguments).1 := by
  rcases aofAppend_cases a allocated arguments with heq | ⟨_, heq⟩
  · rw [heq]
    exact h
  · rw [heq]
    split_ifs
    · exact h.buffered hidle
    · exact h.buffered hidle

theorem Inv.begin (hidle : a.reactor = .idle) : Inv a.aofTransactionBegin.1 := by
  unfold aofTransactionBegin
  split_ifs
  · exact h
  · exact h.buffered hidle

theorem Inv.checkpoint (hidle : a.reactor = .idle) (allocated : Bool) (token : Bytes) :
    Inv (a.aofCreateCheckpoint allocated token) := by
  have hbegin := h.begin hidle
  have hidle' : a.aofTransactionBegin.1.reactor = .idle := (begin_leaves a).1.trans hidle
  have happend := hbegin.append hidle' allocated (checkpointRecord token)
  have hidle'' := (append_leaves a.aofTransactionBegin.1 allocated (checkpointRecord token)).1.trans hidle'
  unfold aofCreateCheckpoint
  simp only
  split_ifs
  · exact hbegin.buffered hidle'
  · exact happend.buffered hidle''
  · exact happend.startCommit hidle'' (some token)

/-- **One action** keeps the invariant. -/
theorem Inv.step (action : Action) : Inv (a.step action) := by
  cases action with
  | append allocated arguments => exact call_rule h fun hidle => h.append hidle allocated arguments
  | begin => exact call_rule h fun hidle => h.begin hidle
  | commit => exact call_rule h fun hidle => h.startCommit hidle none
  | rollback => exact call_rule h fun hidle => h.buffered hidle
  | flush => exact call_rule h fun hidle => h.flush hidle
  | checkpoint allocated token => exact call_rule h fun hidle => h.checkpoint hidle allocated token
  | copy allocated => exact h.copyRound allocated
  | finish => exact h.finishCommit
  | enqueue allocated => exact enqueue_rule h fun hat => h.enqueueBytes hat allocated
  | handOver =>
    refine handing_rule h fun sequence token hat => ?_
    have hreactor := (handOver_reactor a).1.trans hat
    exact h.handOver.moved (uncopied_eq_nil (by simp [hreactor])) trivial
  | awake => exact h.awake
  | reactorSync ok => exact h.reactorSync ok
  | stat => exact h.statFile
  | gather => exact h.gather
  | writev result => exact h.writev result
  | consume => exact h.consume
  | tick => exact h.tick
  | writerSync ok => exact h.writerSync ok
  | publish => exact h.publish

end

theorem Inv.run (actions : List Action) : ∀ {a : State}, Inv a → Inv (a.run actions) := by
  induction actions with
  | nil => exact fun h => h
  | cons action actions ih => exact fun h => ih (h.step action)

/-! ## What a reported sequence means -/

/-- **What is reported ready is written.** In every interleaving, the batches up to a sequence that `aof_sequence_ready`
reports are in the file behind what it held when it was opened, in order and without a gap; under `always` a completed
`fdatasync` covers them. `written_sequence` never decreases and never exceeds the last assigned sequence. -/
theorem ready_means_written (fsyncPolicy : FsyncPolicy) (opened : Bytes) (actions : List Action) :
    (∀ s, ((aofOpen fsyncPolicy opened).run actions).aofSequenceReady s = true →
      ((aofOpen fsyncPolicy opened).run actions).opened ++ upTo ((aofOpen fsyncPolicy opened).run actions).batches s <+:
          ((aofOpen fsyncPolicy opened).run actions).file ∧
        (((aofOpen fsyncPolicy opened).run actions).fsyncPolicy = .always →
          (upTo ((aofOpen fsyncPolicy opened).run actions).batches s).length ≤ ((aofOpen fsyncPolicy opened).run actions).durable)) ∧
      ((aofOpen fsyncPolicy opened).run actions).writtenSequence ≤ ((aofOpen fsyncPolicy opened).run actions).nextSequence ∧
      ∀ action, ((aofOpen fsyncPolicy opened).run actions).writtenSequence ≤
        (((aofOpen fsyncPolicy opened).run actions).step action).writtenSequence := by
  have h := (inv_open fsyncPolicy opened).run actions
  generalize (aofOpen fsyncPolicy opened).run actions = a at h
  refine ⟨fun s hready => ?_, h.marks.written.assigned, fun action => (step_monotone a action).1⟩
  have hle : s ≤ a.writtenSequence := by
    unfold aofSequenceReady at hready
    simp only [Bool.or_eq_true, decide_eq_true_eq] at hready
    omega
  have hdone : a.done s ≤ a.writtenBytes := (upTo_mono _ hle).trans h.marks.written.complete
  constructor
  · exact (prefix_append_right_inj _).2 (h.in_file hdone)
  · intro hp
    calc (upTo a.batches s).length
        ≤ a.done a.syncedSequence := upTo_mono _ (hle.trans (h.marks.always hp))
      _ ≤ a.durable := h.marks.synced.complete

/-! ## The order of the records -/

/-- an action that does not cut a commit: a copy that has begun finds its chunks -/
def Uncut (a : State) : Action → Bool
  | .copy allocated =>
    match a.reactor with
    | .committing position _ _ =>
      allocated || a.producerChunk.isSome || decide (position = 0) || decide (a.transaction.length ≤ position)
    | _ => true
  | _ => true

def UncutRun : State → List Action → Bool
  | _, [] => true
  | a, action :: actions => a.Uncut action && UncutRun (a.step action) actions

/-- an action that cuts no commit and begins none while a record is pending -/
def Orderly (a : State) : Action → Bool
  | .commit => a.pending.isEmpty || a.transaction.isEmpty
  | .checkpoint _ _ => a.pending.isEmpty
  | action => a.Uncut action

/-- every action of a run is orderly -/
def OrderlyRun : State → List Action → Bool
  | _, [] => true
  | a, action :: actions => a.Orderly action && OrderlyRun (a.step action) actions

/-- how the records kept are those queued and those waiting: in their order, if it is asked for and no commit goes by -/
structure Sorted (ordered : Prop) (queued waiting committed kept : List (List Bytes)) : Prop where
  perm : (queued ++ waiting).Perm kept
  order : ordered → queued ++ waiting = kept ∧ (waiting = [] ∨ committed = [])

/-- the batches and the pending bytes are complete records, and together they are those kept -/
structure Recorded (ordered : Prop) (a : State) : Prop where
  log : ∃ queued waiting, a.batches.flatMap Prod.snd = encodeLog (queued ++ a.committed) ∧ a.pending = encodeLog waiting ∧
    Sorted ordered queued waiting a.committed a.kept
  transaction : a.transaction = encodeLog a.transactionRecords

section Recorded

variable {ordered : Prop}

theorem recorded_open (fsyncPolicy : FsyncPolicy) (opened : Bytes) : Recorded ordered (aofOpen fsyncPolicy opened) :=
  ⟨⟨[], [], rfl, rfl, List.Perm.refl _, fun _ => ⟨rfl, Or.inl rfl⟩⟩, rfl⟩

theorem Recorded.same (h : Recorded ordered a) (hs : SameRecords a b) : Recorded ordered b := by
  refine ⟨?_, ?_⟩
  · rw [hs.batches, hs.committed, hs.pending, hs.kept]
    exact h.log
  · rw [hs.transaction, hs.transactionRecords, h.transaction]

/-- outside a commit, only the transaction changes -/
theorem Recorded.reset (h : Recorded ordered a) (hidle : a.reactor = .idle) {active : Bool} {records : List (List Bytes)} :
    Recorded ordered { a with transaction := encodeLog records, transactionActive := active, transactionRecords := records } := by
  have hlog := h.log
  rw [committed_eq_nil (by simp [hidle])] at hlog
  refine ⟨?_, rfl⟩
  rw [committed_eq_nil (by simp [hidle])]
  exact hlog

theorem Recorded.append (h : Recorded ordered a) (hidle : a.reactor = .idle) (allocated : Bool) (arguments : List Bytes) :
    Recorded ordered (a.aofAppend allocated arguments).1 := by
  have hone : encodeLog [arguments] = encodeRequest arguments := flatMap_singleton _ _
  rcases aofAppend_cases a allocated arguments with heq | ⟨_, heq⟩
  · rw [heq]
    exact h
  rw [heq]
  split_ifs with hactive
  · have hreset := @Recorded.reset a ordered h hidle a.transactionActive (a.transactionRecords ++ [arguments])
    rw [encodeLog_append, hone, ← h.transaction] at hreset
    exact hreset
  · obtain ⟨queued, waiting, hlog, hpending, hsorted⟩ := h.log
    have hnone : a.committed = [] := committed_eq_nil (by simp [hidle])
    refine ⟨⟨queued, waiting ++ [arguments], hlog, ?_, ?_, fun ho => ⟨?_, Or.inr hnone⟩⟩, h.transaction⟩
    · simp only
      rw [encodeLog_append, hone, hpending]
    · rw [← append_assoc]
      exact hsorted.perm.append_right _
    · rw [← append_assoc, (hsorted.order ho).1]

theorem Recorded.begin (h : Recorded ordered a) (hidle : a.reactor = .idle) : Recorded ordered a.aofTransactionBegin.1 := by
  unfold aofTransactionBegin
  split_ifs
  · exact h
  · exact @Recorded.reset a ordered h hidle true []

theorem encodeLog_eq_nil {records : List (List Bytes)} (h : encodeLog records = []) : records = [] := by
  have hcount := length_le_encodeLog records
  rw [h] at hcount
  exact length_eq_zero_iff.1 (Nat.le_zero.1 hcount)

/-- **A commit** puts its records behind those queued, and behind the others if none of those is still pending. -/
theorem Recorded.startCommit (h : Recorded ordered a) (hidle : a.reactor = .idle) (token : Option Bytes)
    (horderly : ordered → a.pending = [] ∨ a.transaction = []) : Recorded ordered (a.startCommit token) := by
  obtain ⟨queued, waiting, hlog, hpending, hsorted⟩ := h.log
  have hnone : a.committed = [] := committed_eq_nil (by simp [hidle])
  rw [hnone, append_nil] at hlog
  have hsorted' : Sorted ordered queued waiting a.transactionRecords a.kept := by
    refine ⟨hsorted.perm, fun ho => ⟨(hsorted.order ho).1, ?_⟩⟩
    rw [h.transaction, hpending] at horderly
    exact (horderly ho).imp encodeLog_eq_nil encodeLog_eq_nil
  unfold State.startCommit
  split_ifs with hactive hempty
  · exact h
  · refine ⟨⟨queued, waiting, ?_, hpending, hsorted'⟩, h.transaction⟩
    simp only [committed]
    rw [encodeLog_append, ← h.transaction, hempty, append_nil, hlog]
  · refine ⟨⟨queued, waiting, ?_, hpending, hsorted'⟩, h.transaction⟩
    simp only [committed]
    rw [encodeLog_append, ← h.transaction, flatMap_append, hlog, flatMap_singleton]

theorem append_pending (a : State) (allocated : Bool) (arguments : List Bytes) (hactive : a.transactionActive = true) :
    (a.aofAppend allocated arguments).1.pending = a.pending := by
  rcases aofAppend_cases a allocated arguments with heq | ⟨_, heq⟩
  · rw [heq]
  · rw [heq, if_pos hactive]

theorem Recorded.checkpoint (h : Recorded ordered a) (hidle : a.reactor = .idle) (allocated : Bool) (token : Bytes)
    (horderly : ordered → a.pending = []) : Recorded ordered (a.aofCreateCheckpoint allocated token) := by
  have hbegin := h.begin hidle
  have hidle' : a.aofTransactionBegin.1.reactor = .idle := (begin_leaves a).1.trans hidle
  have happend := hbegin.append hidle' allocated (checkpointRecord token)
  have hidle'' := (append_leaves a.aofTransactionBegin.1 allocated (checkpointRecord token)).1.trans hidle'
  unfold aofCreateCheckpoint
  simp only
  split_ifs with hfails hfull
  · exact @Recorded.reset _ ordered hbegin hidle' false []
  · exact @Recorded.reset _ ordered happend hidle'' false []
  · refine happend.startCommit hidle'' (some token) fun ho => Or.inl ?_
    have hactive : a.aofTransactionBegin.1.transactionActive = true ∧ a.aofTransactionBegin.1.pending = a.pending := by
      unfold aofTransactionBegin at hfails ⊢
      split_ifs at hfails ⊢
      · exact absurd rfl hfails
      · exact ⟨rfl, rfl⟩
    rw [append_pending _ _ _ hactive.1, hactive.2, horderly ho]

/-- a round without a chunk ends the commit -/
theorem copyRound_fails (hat : a.reactor = .committing position assigned token)
    (hlt : position < a.transaction.length) (hnone : a.producerChunk = none) :
    a.copyRound false =
      { a with
        transaction := []
        transactionActive := false
        transactionRecords := []
        reactor := .idle
        batches := cutLast a.batches position } := by
  unfold State.copyRound
  rw [hat]
  simp only [if_pos hlt, hnone]
  rfl

/-- a commit that fails before its first byte takes its records back -/
theorem Recorded.commitFails (h : Recorded ordered a) (hinv : Inv a)
    (hat : a.reactor = .committing 0 assigned token) (hlt : 0 < a.transaction.length) (hnone : a.producerChunk = none) :
    Recorded ordered (a.copyRound false) := by
  obtain ⟨queued, waiting, hlog, hpending, hsorted⟩ := h.log
  have hbuffers := hinv.buffers
  unfold Buffers at hbuffers
  rw [hat] at hbuffers
  obtain ⟨batches, hbatches⟩ := hbuffers.2 (ne_nil_of_length_pos hlt)
  have hbefore : batches.flatMap Prod.snd = encodeLog queued := by
    have hcommitted : a.committed = a.transactionRecords := by rw [committed, hat]
    rw [hbatches, flatMap_append, flatMap_singleton, hcommitted, encodeLog_append, ← h.transaction] at hlog
    exact append_cancel_right hlog
  rw [copyRound_fails hat hlt hnone]
  refine ⟨⟨queued, waiting, ?_, hpending, hsorted.perm, fun ho => ⟨(hsorted.order ho).1, Or.inr rfl⟩⟩, rfl⟩
  simp only [committed, append_nil]
  rw [hbatches, cutLast_append, flatMap_append, flatMap_singleton, take_zero, append_nil, hbefore]

/-- a copy that finds the producer's chunk does not need the allocator -/
theorem copyRound_of_some {chunk : Chunk} (hsome : a.producerChunk = some chunk) (allocated : Bool) :
    a.copyRound allocated = a.copyRound true := by
  unfold State.copyRound
  rw [hsome]
  rfl

theorem Recorded.copyRound (h : Recorded ordered a) (hinv : Inv a) {allocated : Bool} (huncut : a.Uncut (.copy allocated) = true) :
    Recorded ordered (a.copyRound allocated) := by
  cases allocated with
  | true => exact h.same (sameRecords_copyRound a)
  | false =>
    cases hp : a.producerChunk with
    | some chunk =>
      rw [copyRound_of_some hp]
      exact h.same (sameRecords_copyRound a)
    | none =>
      cases hat : a.reactor with
      | committing position assigned token =>
        by_cases hlt : position < a.transaction.length
        · have hzero : position = 0 := by
            simp only [Uncut, hat, hp, Option.isSome_none, Bool.or_false, Bool.false_or, Bool.or_eq_true, decide_eq_true_eq] at huncut
            omega
          subst hzero
          exact h.commitFails hinv hat hlt hp
        · unfold State.copyRound
          rw [hat]
          simp only [if_neg hlt]
          exact h
      | _ =>
        unfold State.copyRound
        rw [hat]
        exact h

theorem Recorded.finishCommit (h : Recorded ordered a) : Recorded ordered a.finishCommit := by
  unfold State.finishCommit
  split
  · rename_i position assigned token hat
    split_ifs
    · exact h
    · obtain ⟨queued, waiting, hlog, hpending, hsorted⟩ := h.log
      have hcommitted : a.committed = a.transactionRecords := by rw [committed, hat]
      rw [hcommitted] at hlog hsorted
      refine ⟨⟨queued ++ a.transactionRecords, waiting, ?_, hpending, ?_, fun ho => ⟨?_, Or.inr ?_⟩⟩, rfl⟩
      · rw [committed_eq_nil (by cases token <;> simp), append_nil]
        exact hlog
      · calc (queued ++ a.transactionRecords ++ waiting).Perm (queued ++ (waiting ++ a.transactionRecords)) := by
              rw [append_assoc]
              exact perm_append_comm.append_left queued
          _ = (queued ++ waiting ++ a.transactionRecords) := (append_assoc _ _ _).symm
          (queued ++ waiting ++ a.transactionRecords).Perm (a.kept ++ a.transactionRecords) := hsorted.perm.append_right _
      · obtain ⟨horder, hempty⟩ := hsorted.order ho
        rw [← horder]
        rcases hempty with hempty | hempty
        · rw [hempty, append_nil, append_nil]
        · rw [hempty, append_nil, append_nil]
      · exact committed_eq_nil (by cases token <;> simp)
  · exact h

theorem Recorded.enqueueBytes (h : Recorded ordered a) (hat : a.reactor = .enqueueing) (allocated : Bool) :
    Recorded ordered (a.enqueueBytes allocated) := by
  unfold State.enqueueBytes
  split_ifs
  · exact h.same (Rests.moved (by simp [hat]) (by simp)).toSameRecords
  · obtain ⟨n, b, hqueue⟩ := queueAll_eq (chunksOf (a.nextSequence + 1) a.pending.length a.pending) a
    obtain ⟨queued, waiting, hlog, hpending, hsorted⟩ := h.log
    rw [committed_eq_nil (by simp [hat]), append_nil] at hlog
    simp only [hqueue]
    refine ⟨⟨queued ++ waiting, [], ?_, rfl, ?_, fun ho => ⟨?_, Or.inl rfl⟩⟩, h.transaction⟩
    · rw [committed_eq_nil (by simp), append_nil, flatMap_append, hlog, flatMap_singleton, encodeLog_append, hpending]
    · rw [append_nil]
      exact hsorted.perm
    · rw [append_nil, (hsorted.order ho).1]

/-- the chunk is handed over, and the reactor thread moves on outside a commit -/
theorem Recorded.handOver (h : Recorded ordered a) (hout : ∀ position assigned token, a.reactor ≠ .committing position assigned token)
    (hnext : ∀ position assigned token, reactor ≠ .committing position assigned token) :
    Recorded ordered { a.handOver with reactor := reactor } := by
  have hmoved : Rests a.handOver { a.handOver with reactor := reactor } := Rests.moved (by rwa [(handOver_reactor a).1]) hnext
  exact h.same ((sameRecords_handOver a).trans hmoved.toSameRecords)

/-- **One action** that cuts no commit keeps the records complete, and in order if it is orderly. -/
theorem Recorded.step (h : Recorded ordered a) (hinv : Inv a) {action : Action} (huncut : a.Uncut action = true)
    (horderly : ordered → a.Orderly action = true) : Recorded ordered (a.step action) := by
  cases action with
  | append allocated arguments => exact call_rule h fun hidle => h.append hidle allocated arguments
  | begin => exact call_rule h fun hidle => h.begin hidle
  | commit =>
    refine call_rule h fun hidle => h.startCommit hidle none fun ho => ?_
    simpa [Orderly] using horderly ho
  | rollback => exact call_rule h fun hidle => @Recorded.reset _ ordered h hidle false []
  | flush =>
    refine call_rule h fun hidle => ?_
    unfold aofFlush
    split_ifs
    · exact h
    · exact h.same (sameRecords_handOver a)
    · exact h.handOver (by simp [hidle]) (by simp)
  | checkpoint allocated token =>
    refine call_rule h fun hidle => h.checkpoint hidle allocated token fun ho => ?_
    simpa [Orderly] using horderly ho
  | copy allocated => exact h.copyRound hinv huncut
  | finish => exact h.finishCommit
  | enqueue allocated => exact enqueue_rule h fun hat => h.enqueueBytes hat allocated
  | handOver => exact handing_rule h fun sequence token hat => h.handOver (by simp [hat]) (by simp)
  | awake => exact h.same (rests_awake a).toSameRecords
  | reactorSync ok => exact h.same (rests_reactorSync a ok).toSameRecords
  | stat => exact h.same (rests_stat a).toSameRecords
  | _ => exact h.same (writerMoves_step a rfl).toSameRecords

theorem Recorded.run (actions : List Action) : ∀ {a : State}, Recorded ordered a → Inv a → a.UncutRun actions = true →
    (ordered → a.OrderlyRun actions = true) → Recorded ordered (a.run actions) := by
  induction actions with
  | nil => exact fun h _ _ _ => h
  | cons action actions ih =>
    intro a h hinv huncut horderly
    obtain ⟨hone, hrest⟩ := Bool.and_eq_true_iff.1 huncut
    exact ih (h.step hinv hone fun ho => (Bool.and_eq_true_iff.1 (horderly ho)).1) (hinv.step action) hrest
      fun ho => (Bool.and_eq_true_iff.1 (horderly ho)).2

end Recorded

theorem uncut_of_orderly (h : a.Orderly action = true) : a.Uncut action = true := by
  cases action with
  | copy allocated => exact h
  | _ => rfl

theorem uncutRun_of_orderly (actions : List Action) : ∀ {a : State}, a.OrderlyRun actions = true → a.UncutRun actions = true := by
  induction actions with
  | nil => exact fun _ => rfl
  | cons action actions ih =>
    intro a h
    obtain ⟨hone, hrest⟩ := Bool.and_eq_true_iff.1 h
    exact Bool.and_eq_true_iff.2 ⟨uncut_of_orderly hone, ih hrest⟩

/-- **Records reach the queue in order.** After a run in which no commit finds a record pending and none is cut, once
everything is flushed, the bytes handed to the writer are the encoded records in the order of the appends, without those
rolled back. -/
theorem flushed_in_order (fsyncPolicy : FsyncPolicy) (opened : Bytes) (actions : List Action)
    (horderly : (aofOpen fsyncPolicy opened).OrderlyRun actions = true)
    (hidle : ((aofOpen fsyncPolicy opened).run actions).reactor = .idle)
    (hpending : ((aofOpen fsyncPolicy opened).run actions).pending = [])
    (hproducer : ((aofOpen fsyncPolicy opened).run actions).producerChunk = none) :
    ((aofOpen fsyncPolicy opened).run actions).handed = encodeLog ((aofOpen fsyncPolicy opened).run actions).kept := by
  have hopen : Recorded True (aofOpen fsyncPolicy opened) := recorded_open fsyncPolicy opened
  have horder := hopen.run actions (inv_open fsyncPolicy opened) (uncutRun_of_orderly actions horderly) fun _ => horderly
  have hinv := (inv_open fsyncPolicy opened).run actions
  generalize (aofOpen fsyncPolicy opened).run actions = a at horder hinv hidle hpending hproducer
  have hstream := hinv.stream
  rw [uncopied_idle hidle, produced, hproducer] at hstream
  obtain ⟨queued, waiting, hlog, hwaiting, hsorted⟩ := horder.log
  rw [committed_eq_nil (by simp [hidle]), append_nil] at hlog
  have hall := (hsorted.order trivial).1
  rw [encodeLog_eq_nil (hwaiting.symm.trans hpending), append_nil] at hall
  rw [← hall, ← hlog, hstream]
  simp

/-- the record of an evicted key, written before the next transaction -/
def flushedEviction : List Action :=
  [.append true [ascii "DEL", ascii "k"], .flush, .enqueue true, .gather, .writev 20, .consume, .awake,
   .begin, .append true [ascii "SET", ascii "k", ascii "v"], .commit, .copy true, .finish, .flush]

theorem flushed_in_order_eviction : ((aofOpen .no []).run flushedEviction).handed =
      encodeLog [[ascii "DEL", ascii "k"], [ascii "SET", ascii "k", ascii "v"]] := by
  have hkept : ((aofOpen .no []).run flushedEviction).kept = [[ascii "DEL", ascii "k"], [ascii "SET", ascii "k", ascii "v"]] := by
    decide +kernel
  rw [← hkept]
  exact flushed_in_order .no [] flushedEviction (by decide +kernel) (by decide +kernel) (by decide +kernel) (by decide +kernel)

/-- the record of an evicted key, pending while a transaction commits -/
def evictionPending : List Action :=
  [.append true [ascii "DEL", ascii "k"],
   .begin, .append true [ascii "SET", ascii "k", ascii "v"], .commit, .copy true, .finish,
   .flush, .enqueue true, .gather, .writev 47, .consume, .awake]

/-- **Out of order.** The DEL is appended first and queued last: the file ends without the key that was set after it. -/
theorem eviction_behind_set :
    ((aofOpen .no []).run evictionPending).kept = [[ascii "DEL", ascii "k"], [ascii "SET", ascii "k", ascii "v"]] ∧
      ((aofOpen .no []).run evictionPending).reactor = .idle ∧
      ((aofOpen .no []).run evictionPending).pending = [] ∧
      ((aofOpen .no []).run evictionPending).producerChunk = none ∧
      ((aofOpen .no []).run evictionPending).handed ≠ encodeLog ((aofOpen .no []).run evictionPending).kept ∧
      ((aofOpen .no []).run evictionPending).file =
        encodeLog [[ascii "SET", ascii "k", ascii "v"], [ascii "DEL", ascii "k"]] := by
  decide +kernel

end State

end StoreSystem.Aof
