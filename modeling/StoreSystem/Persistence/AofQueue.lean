/-
Model of the AOF's producer and writer (`src/persistence/aof.c`): the reactor thread that appends records, commits
transactions, flushes and takes checkpoints, and the writer thread that writes the queue of chunks to the file.

A state holds `struct aof`, the file, and where each of the two threads is. An action is what one thread does between two
points at which the other can see it: a locked region, a system call, or a stretch of work on its own buffers. An action of a
thread that is elsewhere does nothing, so every list of actions is an interleaving. `writev` takes any number of bytes that is
not zero; allocations, `writev` and `fdatasync` can fail.

Records appended outside a transaction go to `pending` and are queued by `aof_flush`, behind the chunk that commits fill. What
holds in every interleaving is in `Persistence.AofOrder`.

Left out are a `fstat` that fails in a checkpoint, the sync that ends an `everysec` writer, `aof_pause_for_fork`, which only
holds the writer back, and `aof_close`. Sequence numbers do not wrap at 2^64.
-/
import StoreSystem.Persistence.AofFile
import StoreSystem.Persistence.Rdb

namespace StoreSystem.Aof

open Resp
open Rdb (Checkpoint)

/-! ## State -/

def aofChunkCapacity : ℕ := 256 * 1024

def aofQueueHighWater : ℕ := 4 * 1024 * 1024

def aofQueueLowWater : ℕ := 2 * 1024 * 1024

def aofWritevMax : ℕ := 16

/-- `aof_chunk_t`; `data` has the chunk's length -/
structure Chunk where
  data : Bytes
  offset : ℕ
  sequence : ℕ
  sequenceEnd : Bool
deriving DecidableEq

/-- the bytes of a chunk that are not written -/
def Chunk.rest (chunk : Chunk) : Bytes := chunk.data.drop chunk.offset

inductive FsyncPolicy where
  | always
  | everysec
  | no
deriving DecidableEq

/-- where a thread is in `sync_written`; from `call` on it holds `sync_mutex` -/
inductive SyncStage where
  | check
  | call
  | store
deriving DecidableEq

/-- where the reactor thread is; a token says that it is in `aof_create_checkpoint` -/
inductive Reactor where
  | idle
  /-- the loop of `aof_transaction_commit` -/
  | committing (position assigned : ℕ) (token : Option Bytes)
  /-- `aof_flush`, before `enqueue_bytes` -/
  | enqueueing
  /-- `aof_create_checkpoint`, before the producer's chunk is handed over -/
  | handing (sequence : ℕ) (token : Bytes)
  | waiting (sequence : ℕ) (token : Option Bytes)
  | syncing (stage : SyncStage) (target : ℕ) (token : Bytes)
  /-- before `fstat` -/
  | stating (token : Bytes)
deriving DecidableEq

def Reactor.HoldsSync : Reactor → Bool
  | .syncing .check _ _ => false
  | .syncing _ _ _ => true
  | _ => false

/-- where the writer thread is -/
inductive Writer where
  | idle
  /-- before `writev` -/
  | gathered (vectors : List Bytes)
  /-- before `consume_written` -/
  | wrote (result : ℕ)
  /-- `sync_written`; `publish` when `written_sequence` is stored after it -/
  | syncing (stage : SyncStage) (target : ℕ) (publish : Bool)
  | publishing (sequence : ℕ)
  | stopped
deriving DecidableEq

def Writer.HoldsSync : Writer → Bool
  | .syncing .check _ _ => false
  | .syncing _ _ _ => true
  | _ => false

/-- `struct aof`, its file and the threads. The last four fields are history: the batches of bytes that got a sequence, the
bytes queued so far, the records appended and not rolled back, and those of the open transaction. -/
structure State where
  fsyncPolicy : FsyncPolicy
  queue : List Chunk
  producerChunk : Option Chunk
  queueBytes : ℕ
  nextSequence : ℕ
  writtenSequence : ℕ
  syncedSequence : ℕ
  writtenBytes : ℕ
  backpressured : Bool
  asyncError : Bool
  pending : Bytes
  transaction : Bytes
  transactionActive : Bool
  /-- the file when it was opened -/
  opened : Bytes
  /-- what was written behind it -/
  appended : Bytes
  /-- the bytes of `appended` that a completed `fdatasync` covers -/
  durable : ℕ
  checkpoints : List Checkpoint
  reactor : Reactor
  writer : Writer
  batches : List (ℕ × Bytes)
  handed : Bytes
  kept : List (List Bytes)
  transactionRecords : List (List Bytes)

/-- `aof_open` of a file -/
def aofOpen (fsyncPolicy : FsyncPolicy) (opened : Bytes) : State where
  fsyncPolicy := fsyncPolicy
  queue := []
  producerChunk := none
  queueBytes := 0
  nextSequence := 0
  writtenSequence := 0
  syncedSequence := 0
  writtenBytes := 0
  backpressured := false
  asyncError := false
  pending := []
  transaction := []
  transactionActive := false
  opened := opened
  appended := []
  durable := 0
  checkpoints := []
  reactor := .idle
  writer := .idle
  batches := []
  handed := []
  kept := []
  transactionRecords := []

namespace State

variable (a : State)

def file : Bytes := a.opened ++ a.appended

/-! ## The reactor thread -/

/-- `queue_chunk_locked` -/
def queueChunkLocked (chunk : Chunk) : State :=
  { a with
    queue := a.queue ++ [chunk]
    queueBytes := a.queueBytes + chunk.data.length
    backpressured := a.backpressured || decide (a.queueBytes + chunk.data.length ≥ aofQueueHighWater)
    handed := a.handed ++ chunk.data }

/-- the producer's chunk goes to the queue -/
def handOver : State :=
  match a.producerChunk with
  | none => a
  | some chunk => { a.queueChunkLocked chunk with producerChunk := none }

def aofCanAcceptWrite : Bool := !a.backpressured && !a.asyncError

variable (allocated : Bool) (token : Bytes)

/-- `aof_append`; `allocated` is the outcome of `reserve_bytes` -/
def aofAppend (arguments : List Bytes) : State × Bool :=
  if a.asyncError then (a, false)
  else
    match encodedSize arguments with
    | none => (a, false)
    | some recordLength =>
      if allocated = false then (a, false)
      else
        match encodeRecord recordLength arguments recordLength with
        | none => (a, false)
        | some bytes =>
          if a.transactionActive then
            ({ a with
                transaction := a.transaction ++ bytes
                transactionRecords := a.transactionRecords ++ [arguments] }, true)
          else ({ a with pending := a.pending ++ bytes, kept := a.kept ++ [arguments] }, true)

def aofTransactionBegin : State × Bool :=
  if a.transactionActive ∨ a.aofCanAcceptWrite = false then (a, false)
  else ({ a with transaction := [], transactionActive := true, transactionRecords := [] }, true)

def aofTransactionRollback : State :=
  { a with transaction := [], transactionActive := false, transactionRecords := [] }

/-- `aof_transaction_commit` up to its loop -/
def startCommit (token : Option Bytes) : State :=
  if a.transactionActive = false then a
  else if a.transaction = [] then { a with reactor := .committing 0 0 token }
  else
    { a with
      nextSequence := a.nextSequence + 1
      batches := a.batches ++ [(a.nextSequence + 1, a.transaction)]
      reactor := .committing 0 (a.nextSequence + 1) token }

/-- the last batch cut to its first bytes -/
def cutLast (batches : List (ℕ × Bytes)) (position : ℕ) : List (ℕ × Bytes) :=
  batches.dropLast ++ batches.getLast?.toList.map fun b => (b.1, b.2.take position)

/-- `acquire_chunk`; `allocated` says that the free list or the allocator has one -/
def acquireChunk : Option Chunk := if allocated then some ⟨[], 0, 0, false⟩ else none

/-- a round of the loop of `aof_transaction_commit`. Without a chunk the commit fails; what it has copied stays. -/
def copyRound : State :=
  match a.reactor with
  | .committing position assigned token =>
    if position < a.transaction.length then
      match a.producerChunk <|> acquireChunk allocated with
      | none =>
        { a with
          transaction := []
          transactionActive := false
          transactionRecords := []
          reactor := .idle
          batches := cutLast a.batches position }
      | some chunk =>
        let available := aofChunkCapacity - chunk.data.length
        let amount := min (a.transaction.length - position) available
        let chunk : Chunk :=
          { chunk with
            data := chunk.data ++ (a.transaction.drop position).take amount
            sequence := assigned
            sequenceEnd := decide (position + amount = a.transaction.length) }
        let a := { a with producerChunk := some chunk, reactor := .committing (position + amount) assigned token }
        if chunk.data.length = aofChunkCapacity then a.handOver else a
    else a
  | _ => a

/-- the end of `aof_transaction_commit` -/
def finishCommit : State :=
  match a.reactor with
  | .committing position assigned token =>
    if position < a.transaction.length then a
    else
      { a with
        transaction := []
        transactionActive := false
        kept := a.kept ++ a.transactionRecords
        transactionRecords := []
        reactor := match token with
          | none => .idle
          | some token => .handing assigned token }
  | _ => a

/-- `aof_flush` up to `enqueue_bytes` -/
def aofFlush : State :=
  if a.transactionActive then a
  else if a.pending = [] then a.handOver
  else { a.handOver with reactor := .enqueueing }

/-- the chunks of `enqueue_bytes`; the last one has the sequence -/
def chunksOf (sequence : ℕ) : ℕ → Bytes → List Chunk
  | 0, _ => []
  | fuel + 1, data =>
    if data.length ≤ aofChunkCapacity then [⟨data, 0, sequence, true⟩]
    else ⟨data.take aofChunkCapacity, 0, 0, false⟩ :: chunksOf sequence fuel (data.drop aofChunkCapacity)

/-- `enqueue_bytes` of the pending bytes -/
def enqueueBytes : State :=
  if allocated = false then { a with reactor := .idle }
  else
    let sequence := a.nextSequence + 1
    let b := (chunksOf sequence a.pending.length a.pending).foldl queueChunkLocked a
    { b with
      nextSequence := sequence
      batches := a.batches ++ [(sequence, a.pending)]
      pending := []
      reactor := .waiting sequence none }

def hexDigit (n : ℕ) : UInt8 := if n < 10 then (48 + n).toUInt8 else (87 + n).toUInt8

def checkpointTokenText : Bytes := token.flatMap fun byte => [hexDigit (byte.toNat / 16), hexDigit (byte.toNat % 16)]

/-- the record that marks a checkpoint -/
def checkpointRecord : List Bytes := [ascii "PING", checkpointTokenText token]

/-- `aof_create_checkpoint` up to the loop of its commit; a step that fails rolls the transaction back -/
def aofCreateCheckpoint : State :=
  let b := a.aofTransactionBegin
  if b.2 = false then b.1.aofTransactionRollback
  else
    let r := b.1.aofAppend allocated (checkpointRecord token)
    if r.2 = false then r.1.aofTransactionRollback else r.1.startCommit (some token)

/-- the wait for the writer ends -/
def awake : State :=
  match a.reactor with
  | .waiting sequence token =>
    if a.writtenSequence < sequence ∧ a.asyncError = false then a
    else if a.asyncError then { a with reactor := .idle }
    else
      match token with
      | none => { a with reactor := .idle }
      | some token => { a with reactor := .syncing .check sequence token }
  | _ => a

/-- the steps of `sync_written` in the reactor thread; `ok` is the outcome of `fdatasync` -/
def reactorSync (ok : Bool) : State :=
  match a.reactor with
  | .syncing .check target token =>
    if a.writer.HoldsSync then a
    else if target ≤ a.syncedSequence then { a with reactor := .stating token }
    else { a with reactor := .syncing .call target token }
  | .syncing .call target token =>
    if ok then { a with durable := a.appended.length, reactor := .syncing .store target token } else { a with reactor := .idle }
  | .syncing .store target token => { a with syncedSequence := max a.syncedSequence target, reactor := .stating token }
  | _ => a

/-- the end of `aof_create_checkpoint` -/
def statFile : State :=
  match a.reactor with
  | .stating token =>
    { a with checkpoints := a.checkpoints ++ [⟨a.opened.length + a.appended.length, token, true⟩], reactor := .idle }
  | _ => a

/-! ## The writer thread -/

/-- `consume_written` over the queue: what is left of it and the sequence of the last batch that ends in what was written -/
def consumeWritten : List Chunk → ℕ → ℕ → List Chunk × ℕ
  | [], _, completed => ([], completed)
  | chunk :: rest, amount, completed =>
    if amount = 0 then (chunk :: rest, completed)
    else
      let consumed := min amount (chunk.data.length - chunk.offset)
      if chunk.offset + consumed = chunk.data.length then
        consumeWritten rest (amount - consumed) (if chunk.sequenceEnd then chunk.sequence else completed)
      else ({ chunk with offset := chunk.offset + consumed } :: rest, completed)

/-- the vectors for `writev`, under the lock -/
def gather : State :=
  match a.writer with
  | .idle => if a.queue = [] then a else { a with writer := .gathered ((a.queue.take aofWritevMax).map Chunk.rest) }
  | _ => a

/-- `writev` writes `result` bytes; none is an error -/
def writev (result : ℕ) : State :=
  match a.writer with
  | .gathered vectors =>
    if result = 0 then { a with asyncError := true, writer := .stopped }
    else if result > vectors.flatten.length then a
    else { a with appended := a.appended ++ vectors.flatten.take result, writer := .wrote result }
  | _ => a

/-- the locked region after `writev` -/
def consume : State :=
  match a.writer with
  | .wrote result =>
    let r := consumeWritten a.queue result 0
    { a with
      queue := r.1
      queueBytes := a.queueBytes - result
      writtenBytes := a.writtenBytes + result
      backpressured := a.backpressured && decide (aofQueueLowWater < a.queueBytes - result)
      writtenSequence :=
        if r.2 ≠ 0 ∧ a.fsyncPolicy ≠ .always ∧ r.2 > a.writtenSequence then r.2 else a.writtenSequence
      writer := if r.2 ≠ 0 ∧ a.fsyncPolicy = .always then .syncing .check r.2 true else .idle }
  | _ => a

/-- the timer of `everysec` -/
def tick : State :=
  match a.writer with
  | .idle => if a.fsyncPolicy = .everysec then { a with writer := .syncing .check a.writtenSequence false } else a
  | _ => a

/-- behind `sync_written` -/
def afterSync (target : ℕ) (publish : Bool) : Writer := if publish then .publishing target else .idle

/-- the steps of `sync_written` in the writer thread -/
def writerSync (ok : Bool) : State :=
  match a.writer with
  | .syncing .check target publish =>
    if a.reactor.HoldsSync then a
    else if target ≤ a.syncedSequence then { a with writer := afterSync target publish }
    else { a with writer := .syncing .call target publish }
  | .syncing .call target publish =>
    if ok then { a with durable := a.appended.length, writer := .syncing .store target publish }
    else { a with asyncError := true, writer := .stopped }
  | .syncing .store target publish =>
    { a with syncedSequence := max a.syncedSequence target, writer := afterSync target publish }
  | _ => a

/-- under `always` the sequence is published after the sync -/
def publish : State :=
  match a.writer with
  | .publishing sequence => { a with writtenSequence := max a.writtenSequence sequence, writer := .idle }
  | _ => a

/-! ## Runs -/

/-- `aof_sequence_ready` -/
def aofSequenceReady (sequence : ℕ) : Bool := sequence = 0 || a.writtenSequence ≥ sequence

end State

/-- what one of the threads does next; the calls come first -/
inductive Action where
  | append (allocated : Bool) (arguments : List Bytes)
  | begin
  | commit
  | rollback
  | flush
  | checkpoint (allocated : Bool) (token : Bytes)
  | copy (allocated : Bool)
  | finish
  | enqueue (allocated : Bool)
  | handOver
  | awake
  | reactorSync (ok : Bool)
  | stat
  | gather
  | writev (result : ℕ)
  | consume
  | tick
  | writerSync (ok : Bool)
  | publish

namespace State

variable (a : State)
/-- a call of the reactor thread, when it is not in another -/
def call (next : State) : State :=
  match a.reactor with
  | .idle => next
  | _ => a

def step : Action → State
  | .append allocated arguments => a.call (a.aofAppend allocated arguments).1
  | .begin => a.call a.aofTransactionBegin.1
  | .commit => a.call (a.startCommit none)
  | .rollback => a.call a.aofTransactionRollback
  | .flush => a.call a.aofFlush
  | .checkpoint allocated token => a.call (a.aofCreateCheckpoint allocated token)
  | .copy allocated => a.copyRound allocated
  | .finish => a.finishCommit
  | .enqueue allocated =>
    match a.reactor with
    | .enqueueing => a.enqueueBytes allocated
    | _ => a
  | .handOver =>
    match a.reactor with
    | .handing sequence token => { a.handOver with reactor := .waiting sequence (some token) }
    | _ => a
  | .awake => a.awake
  | .reactorSync ok => a.reactorSync ok
  | .stat => a.statFile
  | .gather => a.gather
  | .writev result => a.writev result
  | .consume => a.consume
  | .tick => a.tick
  | .writerSync ok => a.writerSync ok
  | .publish => a.publish

def run (actions : List Action) : State := actions.foldl step a

end State

end StoreSystem.Aof
