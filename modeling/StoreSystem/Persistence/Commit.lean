/-
`aof_transaction_commit` when chunks run out (`src/persistence/aof.c`).

A commit copies the transaction into the producer's chunk, hands the chunk to the writer's queue when it is full and then needs
another one. `enqueue_bytes`, which queues what is pending, gets all its chunks before it queues the first; the commit does not:
when a chunk is missing in the middle, it reports an error, forgets the transaction and leaves the bytes it has copied.

- `aofTransactionCommit`: the call as a whole, with an outcome for the allocation of each round. The loop ends in every case.
- `Whole`: the condition under which a commit is all or nothing. Either the very first allocation fails, before a byte is
  copied, or none does that is needed after the first chunk is full.
- `commit_whole_iff`: a commit that succeeds adds the transaction to what the queue and the producer's chunk hold; one that fails
  leaves both alone if and only if the commit is `Whole`. And in every run, with any interleaving of the two threads, whose
  commits never miss a chunk after their first byte, the stream behind the opened file is a concatenation of complete records,
  those that were appended and not rolled back, up to the ones still pending.
- `commit_leaves_part`: five records of one transaction, a second chunk that is not there, and a whole chunk of the transaction
  in the queue after the error.
-/
import StoreSystem.Persistence.AofOrder

namespace StoreSystem.Aof

open List Resp

namespace State

variable {a : State}

/-! ## The commit as one call -/

/-- the loop of `aof_transaction_commit`; `allocated i` is the outcome of `acquire_chunk` in round `i`, where it is called -/
def copyRounds (allocated : ℕ → Bool) : ℕ → ℕ → State → State
  | 0, _, a => a
  | fuel + 1, round, a => copyRounds allocated fuel (round + 1) (a.copyRound (allocated round))

/-- `aof_transaction_commit`, with no other thread between its steps; a round copies at least one byte -/
def aofTransactionCommit (a : State) (allocated : ℕ → Bool) : State × Bool :=
  if a.transactionActive = false then (a, false)
  else
    let b := (a.startCommit none).copyRounds allocated a.transaction.length 0
    match b.reactor with
    | .committing _ _ _ => (b.finishCommit, true)
    | _ => (b, false)

/-- the bytes in the writer's queue and the producer's chunk -/
def held (a : State) : Bytes := a.queued ++ a.produced

/-- the bytes behind the opened file: those the writer has counted as written and those that are held -/
def stream (a : State) : Bytes := a.appended.take a.writtenBytes ++ a.held

/-- the bytes the producer's chunk can take; an empty chunk is acquired if there is none -/
def room (a : State) : ℕ := aofChunkCapacity - a.produced.length

/-- no chunk is missing after the first byte is copied -/
def Whole (a : State) (allocated : ℕ → Bool) : Prop :=
  (a.producerChunk = none ∧ allocated 0 = false) ∨
    ∀ i, a.room + i * aofChunkCapacity < a.transaction.length → allocated (i + 1) = true

/-! ## The producer's chunk has room -/

/-- a chunk is handed over when it is full -/
def Filling (a : State) : Prop := ∀ chunk, a.producerChunk = some chunk → chunk.data.length < aofChunkCapacity

theorem Filling.same {b : State} (h : Filling a) (hb : b.producerChunk = a.producerChunk) : Filling b := by
  intro chunk hchunk
  exact h chunk (hb.symm.trans hchunk)

theorem filling_none (h : a.producerChunk = none) : Filling a := by
  intro chunk hchunk
  rw [h] at hchunk
  cases hchunk

theorem Filling.handOver (_ : Filling a) : Filling a.handOver := filling_none (handOver_producerChunk a)

theorem Filling.room_pos (h : Filling a) : 0 < a.room := by
  unfold room produced
  cases hp : a.producerChunk with
  | none => decide
  | some chunk => exact Nat.sub_pos_of_lt (h chunk hp)

/-! ## One round -/

theorem produced_none (h : a.producerChunk = none) : a.produced = [] := by rw [produced, h]; rfl

theorem produced_some {chunk : Chunk} (h : a.producerChunk = some chunk) : a.produced = chunk.data := by rw [produced, h]; rfl

/-- handing the chunk over moves its bytes to the queue -/
theorem handOver_held (hoffset : ∀ chunk, a.producerChunk = some chunk → chunk.offset = 0) : a.handOver.held = a.held := by
  unfold State.handOver
  cases hp : a.producerChunk with
  | none => rfl
  | some chunk =>
    have hrest : chunk.rest = chunk.data := by rw [Chunk.rest, hoffset chunk hp, drop_zero]
    simp only [held, queued, queueChunkLocked, produced, hp, Option.map_some, Option.map_none, Option.getD_some, Option.getD_none,
      flatMap_append, flatMap_singleton, hrest, append_nil]

/-- the chunk of a round: the producer's, or a new one -/
theorem round_chunk (hoffset : ∀ chunk, a.producerChunk = some chunk → chunk.offset = 0) {allocated : Bool}
    (hchunk : a.producerChunk ≠ none ∨ allocated = true) :
    ∃ chunk, (a.producerChunk <|> acquireChunk allocated) = some chunk ∧ chunk.data = a.produced ∧ chunk.offset = 0 := by
  cases hp : a.producerChunk with
  | none =>
    have htrue : allocated = true := hchunk.resolve_left (fun h => h hp)
    refine ⟨⟨[], 0, 0, false⟩, ?_, ?_, rfl⟩
    · rw [htrue]
      rfl
    · exact (produced_none hp).symm
  | some chunk => exact ⟨chunk, rfl, (produced_some hp).symm, hoffset chunk hp⟩

/-- what a round that finds a chunk does -/
structure Copied (a : State) (position assigned : ℕ) (token : Option Bytes) (amount : ℕ) (b : State) : Prop where
  reactor : b.reactor = .committing (position + amount) assigned token
  transaction : b.transaction = a.transaction
  held : b.held = a.held ++ (a.transaction.drop position).take amount
  offset : ∀ chunk, b.producerChunk = some chunk → chunk.offset = 0
  filling : Filling b
  full : position + amount < a.transaction.length → b.producerChunk = none

/-- **A round that finds a chunk** fills it as far as the transaction goes. -/
theorem copyRound_copies (hfill : Filling a) (hoffset : ∀ chunk, a.producerChunk = some chunk → chunk.offset = 0)
    {position assigned : ℕ} {token : Option Bytes} (hat : a.reactor = .committing position assigned token)
    (hlt : position < a.transaction.length) {allocated : Bool} (hchunk : a.producerChunk ≠ none ∨ allocated = true) :
    Copied a position assigned token (min (a.transaction.length - position) a.room) (a.copyRound allocated) := by
  obtain ⟨chunk, hacquire, hdata, hzero⟩ := round_chunk hoffset hchunk
  have hroom : a.produced.length + a.room = aofChunkCapacity := by
    have := hfill.room_pos
    unfold room at this ⊢
    omega
  have hamount : aofChunkCapacity - chunk.data.length = a.room := by rw [hdata, room]
  unfold State.copyRound
  rw [hat]
  simp only [if_pos hlt, hacquire, hamount]
  generalize hn : min (a.transaction.length - position) a.room = amount
  generalize hc : ({ chunk with
      data := chunk.data ++ (a.transaction.drop position).take amount
      sequence := assigned
      sequenceEnd := decide (position + amount = a.transaction.length) } : Chunk) = filled
  have hfilled : filled.data = a.produced ++ (a.transaction.drop position).take amount := by rw [← hc, ← hdata]
  have hfirst : filled.offset = 0 := by rw [← hc]; exact hzero
  have hlength : filled.data.length = a.produced.length + amount := by
    rw [hfilled, length_append, length_take, length_drop]
    omega
  generalize hb : ({ a with producerChunk := some filled, reactor := .committing (position + amount) assigned token } : State) = b
  have hreactor : b.reactor = .committing (position + amount) assigned token := by rw [← hb]
  have htransaction : b.transaction = a.transaction := by rw [← hb]
  have hproducer : b.producerChunk = some filled := by rw [← hb]
  have hoff : ∀ chunk, b.producerChunk = some chunk → chunk.offset = 0 := by
    intro chunk hsome
    cases Option.some.inj (hproducer.symm.trans hsome)
    exact hfirst
  have hheld : b.held = a.held ++ (a.transaction.drop position).take amount := by
    have hqueue : b.queued = a.queued := by rw [← hb]; rfl
    rw [held, hqueue, produced_some hproducer, hfilled, held, append_assoc]
  split_ifs with hcap
  · have hnone := handOver_producerChunk b
    refine ⟨(handOver_reactor b).1.trans hreactor, (sameRecords_handOver b).transaction.trans htransaction,
      (handOver_held hoff).trans hheld, ?_, filling_none hnone, fun _ => hnone⟩
    intro chunk hsome
    rw [hnone] at hsome
    cases hsome
  · have hne : filled.data.length ≠ aofChunkCapacity := by
      rw [hfilled, ← hdata]
      exact hcap
    refine ⟨hreactor, htransaction, hheld, hoff, ?_, ?_⟩
    · intro chunk hsome
      cases Option.some.inj (hproducer.symm.trans hsome)
      omega
    · intro hmore
      -- a round that does not fill its chunk has copied all
      omega

theorem Filling.copyRound (h : Filling a) (hoffset : ∀ chunk, a.producerChunk = some chunk → chunk.offset = 0) (allocated : Bool) :
    Filling (a.copyRound allocated) := by
  cases hat : a.reactor with
  | committing position assigned token =>
    by_cases hlt : position < a.transaction.length
    · by_cases hchunk : a.producerChunk ≠ none ∨ allocated = true
      · exact (copyRound_copies h hoffset hat hlt hchunk).filling
      · rw [not_or, not_not, Bool.not_eq_true] at hchunk
        rw [hchunk.2, copyRound_fails hat hlt hchunk.1]
        exact filling_none hchunk.1
    · have hsame : a.copyRound allocated = a := by
        unfold State.copyRound
        rw [hat]
        exact if_neg hlt
      rw [hsame]
      exact h
  | _ =>
    unfold State.copyRound
    rw [hat]
    exact h

theorem Filling.step (h : Filling a) (hinv : Inv a) (action : Action) : Filling (a.step action) := by
  cases action with
  | append allocated arguments => exact call_rule h fun _ => h.same (append_leaves a allocated arguments).2.producerChunk
  | begin => exact call_rule h fun _ => h.same (begin_leaves a).2.producerChunk
  | commit => exact call_rule h fun _ => h.same (sameChunks_startCommit a none).producerChunk
  | rollback => exact call_rule h fun _ => h.same rfl
  | flush =>
    refine call_rule h fun _ => ?_
    unfold aofFlush
    split_ifs
    · exact h
    · exact h.handOver
    · exact h.handOver.same rfl
  | checkpoint allocated token => exact call_rule h fun _ => h.same (sameChunks_checkpoint a allocated token).producerChunk
  | copy allocated => exact h.copyRound hinv.offset allocated
  | finish =>
    simp only [State.step, State.finishCommit]
    split
    · split_ifs <;> exact h
    · exact h
  | enqueue allocated => exact enqueue_rule h fun _ => h.same (sameFile_enqueueBytes a allocated).2
  | handOver => exact handing_rule h fun _ _ _ => h.handOver.same rfl
  | awake => exact h.same (rests_awake a).producerChunk
  | reactorSync ok => exact h.same (rests_reactorSync a ok).producerChunk
  | stat => exact h.same (rests_stat a).producerChunk
  | _ => exact h.same (writerMoves_step a rfl).producerChunk

theorem Filling.run (actions : List Action) : ∀ {a : State}, Filling a → Inv a → Filling (a.run actions) := by
  induction actions with
  | nil => exact fun h _ => h
  | cons action actions ih =>
    intro a h hinv
    exact ih (h.step hinv action) (hinv.step action)

/-! ## The loop -/

theorem copyRounds_idle (allocated : ℕ → Bool) (fuel : ℕ) :
    ∀ {round : ℕ} {a : State}, a.reactor = .idle → a.copyRounds allocated fuel round = a := by
  induction fuel with
  | zero => exact fun _ => rfl
  | succ fuel ih =>
    intro round a hidle
    have hsame : a.copyRound (allocated round) = a := by
      unfold State.copyRound
      rw [hidle]
    rw [copyRounds, hsame]
    exact ih hidle

theorem copyRounds_done (allocated : ℕ → Bool) (fuel : ℕ) : ∀ {round : ℕ} {a : State} {position assigned : ℕ} {token : Option Bytes},
    a.reactor = .committing position assigned token → a.transaction.length ≤ position →
      a.copyRounds allocated fuel round = a := by
  induction fuel with
  | zero => exact fun _ _ => rfl
  | succ fuel ih =>
    intro round a position assigned token hat hdone
    have hsame : a.copyRound (allocated round) = a := by
      unfold State.copyRound
      rw [hat]
      exact if_neg (not_lt.2 hdone)
    rw [copyRounds, hsame]
    exact ih hat hdone

/-- how the loop ends, `missing` being that a round does not find its chunk -/
inductive LoopEnds (a : State) (position : ℕ) (missing : Prop) (b : State) : Prop
  | all (assigned : ℕ) (h : ¬ missing) (reactor : b.reactor = .committing a.transaction.length assigned none)
      (transaction : b.transaction = a.transaction) (held : b.held = a.held ++ a.transaction.drop position)
  | part (h : missing) (reactor : b.reactor = .idle) (transaction : b.transaction = []) (held : a.held <+: b.held)

/-- **The rest of the loop**, from a round that needs a chunk: it ends with the whole transaction copied, or at the first chunk that
is missing. -/
theorem copyRounds_ends (allocated : ℕ → Bool) (fuel : ℕ) : ∀ {round : ℕ} {a : State} {position assigned : ℕ},
    Filling a → (∀ chunk, a.producerChunk = some chunk → chunk.offset = 0) → a.reactor = .committing position assigned none →
    position ≤ a.transaction.length → (position < a.transaction.length → a.producerChunk = none) →
    a.transaction.length - position ≤ fuel →
      LoopEnds a position (∃ j, position + j * aofChunkCapacity < a.transaction.length ∧ allocated (round + j) = false)
        (a.copyRounds allocated fuel round) := by
  induction fuel with
  | zero =>
    intro round a position assigned _ _ hat hle _ hfuel
    have hend : position = a.transaction.length := by omega
    subst hend
    refine .all assigned ?_ hat rfl ?_
    · rintro ⟨j, hj, -⟩
      omega
    · rw [drop_length, append_nil]
      rfl
  | succ fuel ih =>
    intro round a position assigned hfill hoffset hat hle hnone hfuel
    by_cases hlt : position < a.transaction.length
    · cases halloc : allocated round with
      | false =>
        rw [copyRounds, halloc, copyRound_fails hat hlt (hnone hlt), copyRounds_idle allocated fuel rfl]
        refine .part ⟨0, by omega, halloc⟩ rfl rfl ?_
        exact prefix_rfl
      | true =>
        have hcopied := @copyRound_copies a hfill hoffset position assigned none hat hlt true (Or.inr rfl)
        have hroom : a.room = aofChunkCapacity := by rw [room, produced_none (hnone hlt)]; rfl
        have hcap : 0 < aofChunkCapacity := by decide
        rw [hroom] at hcopied
        generalize hn : min (a.transaction.length - position) aofChunkCapacity = amount at hcopied
        rw [copyRounds, halloc]
        generalize a.copyRound true = b at hcopied
        have htransaction := hcopied.transaction
        have hrest := @ih (round + 1) b (position + amount) assigned hcopied.filling hcopied.offset hcopied.reactor
          (by rw [htransaction]; omega) (by rw [htransaction]; exact hcopied.full) (by rw [htransaction]; omega)
        rw [htransaction] at hrest
        -- the chunks needed from here on are those needed behind this round
        have hmissing : (∃ j, position + amount + j * aofChunkCapacity < a.transaction.length ∧ allocated (round + 1 + j) = false) ↔
            ∃ j, position + j * aofChunkCapacity < a.transaction.length ∧ allocated (round + j) = false := by
          constructor
          · rintro ⟨j, hj, hfails⟩
            refine ⟨j + 1, ?_, by rw [← hfails]; congr 1; omega⟩
            rw [Nat.succ_mul]
            omega
          · rintro ⟨j, hj, hfails⟩
            cases j with
            | zero =>
              rw [Nat.add_zero, halloc] at hfails
              cases hfails
            | succ j =>
              refine ⟨j, ?_, by rw [← hfails]; congr 1; omega⟩
              rw [Nat.succ_mul] at hj
              omega
        cases hrest with
        | all assigned' h hreactor htrans hheld =>
          refine .all assigned' (fun hm => h (hmissing.2 hm)) (hreactor.trans (by rw [htransaction])) (htrans.trans htransaction) ?_
          rw [hheld, hcopied.held, htransaction, append_assoc, ← drop_drop, take_append_drop]
        | part h hreactor htrans hheld =>
          refine .part (hmissing.1 h) hreactor htrans ?_
          rw [hcopied.held] at hheld
          exact (prefix_append _ _).trans hheld
    · have hend : position = a.transaction.length := by omega
      rw [copyRounds_done allocated (fuel + 1) hat (by omega)]
      subst hend
      refine .all assigned ?_ hat rfl ?_
      · rintro ⟨j, hj, -⟩
        omega
      · rw [drop_length, append_nil]

/-! ## The call -/

/-- the start of a commit changes no bytes -/
theorem startCommit_committing (hactive : a.transactionActive = true) :
    ∃ assigned, (a.startCommit none).reactor = .committing 0 assigned none ∧ (a.startCommit none).transaction = a.transaction := by
  unfold State.startCommit
  rw [if_neg (by simp [hactive])]
  split_ifs
  · exact ⟨_, rfl, rfl⟩
  · exact ⟨_, rfl, rfl⟩

/-- the three ends of a commit -/
inductive CommitEnds (a : State) (allocated : ℕ → Bool) (b : State) : Bool → Prop
  | done (whole : a.Whole allocated) (held : b.held = a.held ++ a.transaction) : CommitEnds a allocated b true
  | refused (whole : a.Whole allocated) (queue : b.queue = a.queue) (producer : b.producerChunk = a.producerChunk) :
      CommitEnds a allocated b false
  | cut (part : ¬ a.Whole allocated) (held : a.held <+: b.held) (more : a.held.length < b.held.length) :
      CommitEnds a allocated b false

/-- the loop has copied all, and the commit succeeds -/
theorem commit_of_all {b : State} {assigned : ℕ} (hreactor : b.reactor = .committing b.transaction.length assigned none) :
    b.finishCommit.reactor = .idle ∧ b.finishCommit.transaction = [] ∧ b.finishCommit.held = b.held := by
  unfold State.finishCommit
  rw [hreactor]
  simp only [lt_irrefl, if_false]
  exact ⟨trivial, trivial, rfl⟩

/-- the chunks that `Whole` asks for are those the loop needs behind its first round -/
theorem whole_iff_of_first {allocated : ℕ → Bool} (hfirst : a.producerChunk ≠ none ∨ allocated 0 = true) :
    a.Whole allocated ↔
      ¬ ∃ j, min a.transaction.length a.room + j * aofChunkCapacity < a.transaction.length ∧ allocated (1 + j) = false := by
  constructor
  · rintro (⟨hnone, hfails⟩ | hall) ⟨j, hj, hmissing⟩
    · rcases hfirst with hsome | htrue
      · exact hsome hnone
      · rw [hfails] at htrue
        cases htrue
    · rw [Nat.add_comm, hall j (by omega)] at hmissing
      cases hmissing
  · intro hnone
    refine Or.inr fun i hi => ?_
    by_contra hfails
    refine hnone ⟨i, by omega, ?_⟩
    rw [Nat.add_comm]
    exact Bool.not_eq_true _ ▸ hfails

/-- **The call** ends, closes the transaction, and ends in one of the three ways. -/
theorem commit_ends (hfill : Filling a) (hoffset : ∀ chunk, a.producerChunk = some chunk → chunk.offset = 0)
    (hactive : a.transactionActive = true) (allocated : ℕ → Bool) :
    (a.aofTransactionCommit allocated).1.reactor = .idle ∧ (a.aofTransactionCommit allocated).1.transaction = [] ∧
      CommitEnds a allocated (a.aofTransactionCommit allocated).1 (a.aofTransactionCommit allocated).2 := by
  obtain ⟨assigned, hat, htransaction⟩ := startCommit_committing hactive
  obtain ⟨_, hqueue, hproducer, _⟩ := sameChunks_startCommit a none
  unfold aofTransactionCommit
  rw [if_neg (by simp [hactive])]
  generalize a.startCommit none = s at hat htransaction hqueue hproducer
  have hproduced : s.produced = a.produced := by rw [produced, hproducer, produced]
  have hheld : s.held = a.held := by rw [held, queued, hqueue, hproduced, held, queued]
  have hroom : s.room = a.room := by rw [room, hproduced, room]
  cases hlen : a.transaction.length with
  | zero =>
    have hdone := @commit_of_all s assigned (by rw [hat, htransaction, hlen])
    simp only [copyRounds, hat]
    refine ⟨hdone.1, hdone.2.1, .done (Or.inr fun i hi => by omega) ?_⟩
    rw [hdone.2.2, hheld, length_eq_zero_iff.1 hlen, append_nil]
  | succ fuel =>
    have hlt : 0 < s.transaction.length := by rw [htransaction]; omega
    rw [copyRounds]
    by_cases hfirst : a.producerChunk ≠ none ∨ allocated 0 = true
    · have hcopied := copyRound_copies (hfill.same hproducer) (fun chunk h => hoffset chunk (hproducer.symm.trans h)) hat hlt
        (hfirst.imp_left fun h => hproducer.symm ▸ h)
      rw [hroom, htransaction, Nat.sub_zero] at hcopied
      have hpos := hfill.room_pos
      have hwhole := whole_iff_of_first hfirst
      generalize hn : min a.transaction.length a.room = amount at hcopied hwhole
      generalize s.copyRound (allocated 0) = t at hcopied
      have hsame : t.transaction = a.transaction := hcopied.transaction.trans htransaction
      have hstart : t.held = a.held ++ a.transaction.take amount := by
        rw [hcopied.held, hheld, htransaction, drop_zero]
      have hrest := @copyRounds_ends allocated fuel 1 t _ assigned hcopied.filling hcopied.offset hcopied.reactor
        (by rw [hsame]; omega) (by rw [hsame, ← htransaction]; exact hcopied.full) (by rw [hsame]; omega)
      rw [Nat.zero_add, hsame] at hrest
      generalize t.copyRounds allocated fuel (0 + 1) = b at hrest
      cases hrest with
      | all assigned' h hreactor htrans hend =>
        have hdone := @commit_of_all b assigned' (by rw [hreactor, htrans])
        simp only [hreactor]
        refine ⟨hdone.1, hdone.2.1, .done (hwhole.2 h) ?_⟩
        rw [hdone.2.2, hend, hstart, append_assoc, hsame, take_append_drop]
      | part h hreactor htrans hend =>
        simp only [hreactor]
        rw [hstart] at hend
        refine ⟨trivial, htrans, .cut (fun hw => hwhole.1 hw h) ((prefix_append _ _).trans hend) ?_⟩
        have hlength := hend.length_le
        rw [length_append, length_take] at hlength
        omega
    · rw [not_or, not_not, Bool.not_eq_true] at hfirst
      rw [hfirst.2, copyRound_fails hat hlt (hproducer.trans hfirst.1), copyRounds_idle allocated fuel rfl]
      exact ⟨rfl, rfl, .refused (Or.inl hfirst) hqueue hproducer⟩

/-! ## The records of a run -/

theorem filling_open (fsyncPolicy : FsyncPolicy) (opened : Bytes) : Filling (aofOpen fsyncPolicy opened) := filling_none rfl

/-- outside a commit the batches are the stream -/
theorem Inv.stream_eq (h : Inv a) (hout : ∀ position assigned token, a.reactor ≠ .committing position assigned token) :
    a.stream = a.batches.flatMap Prod.snd := by
  rw [h.stream, uncopied_eq_nil hout, append_nil, h.handed, State.stream, held, append_assoc]

/-- **A commit and its failures.** A transaction that commits is added to what the queue and the producer's chunk hold. One whose
commit fails leaves no byte there if and only if the commit is whole. And while no commit is cut, the stream is made of complete
records: with those pending, the ones that were appended and not rolled back. -/
theorem commit_whole_iff (fsyncPolicy : FsyncPolicy) (opened : Bytes) (actions : List Action) :
    let a := (aofOpen fsyncPolicy opened).run actions
    (a.reactor = .idle → a.transactionActive = true → ∀ allocated : ℕ → Bool,
      let r := a.aofTransactionCommit allocated
      (r.1.reactor = .idle ∧ r.1.transaction = []) ∧ (r.2 = true → r.1.held = a.held ++ a.transaction) ∧
        ((r.2 = false → r.1.queue = a.queue ∧ r.1.producerChunk = a.producerChunk) ↔ a.Whole allocated)) ∧
    ((aofOpen fsyncPolicy opened).UncutRun actions = true →
      (∀ position assigned token, a.reactor ≠ .committing position assigned token) →
        ∃ queued waiting, a.stream = encodeLog queued ∧ a.pending = encodeLog waiting ∧ (queued ++ waiting).Perm a.kept) := by
  intro a
  have hinv : Inv a := (inv_open fsyncPolicy opened).run actions
  have hfill : Filling a := (filling_open fsyncPolicy opened).run actions (inv_open fsyncPolicy opened)
  constructor
  · intro hidle hactive allocated
    obtain ⟨hreactor, htransaction, hends⟩ := commit_ends hfill hinv.offset hactive allocated
    generalize a.aofTransactionCommit allocated = r at hreactor htransaction hends ⊢
    obtain ⟨b, ok⟩ := r
    refine ⟨⟨hreactor, htransaction⟩, ?_⟩
    cases hends with
    | done whole hheld => exact ⟨fun _ => hheld, fun _ => whole, by simp⟩
    | refused whole hqueue hproducer => exact ⟨by simp, fun _ => whole, fun _ _ => ⟨hqueue, hproducer⟩⟩
    | cut part hheld more =>
      refine ⟨by simp, fun hsame => ?_, fun hwhole => absurd hwhole part⟩
      obtain ⟨hqueue, hproducer⟩ := hsame rfl
      have heq : b.held = a.held := by rw [held, queued, produced, hqueue, hproducer, held, queued, produced]
      simp only at more
      rw [heq] at more
      exact absurd more (lt_irrefl _)
  · intro huncut hout
    have hrecorded : Recorded False a :=
      (recorded_open fsyncPolicy opened).run actions (inv_open fsyncPolicy opened) huncut False.elim
    obtain ⟨queued, waiting, hlog, hpending, hsorted⟩ := hrecorded.log
    rw [committed_eq_nil hout, append_nil, ← hinv.stream_eq hout] at hlog
    exact ⟨queued, waiting, hlog, hpending, hsorted.perm⟩

/-! ## A commit that is cut -/

/-- a key that fills most of a request -/
def longKey : Bytes := List.replicate 60000 107

/-- the transaction of a command that evicts four long keys and deletes a fifth -/
def evictionTransaction : List Action := .begin :: (List.replicate 5 [ascii "DEL", longKey]).map (.append true)

theorem longKey_record : encodedSize [ascii "DEL", longKey] = some 60023 := by
  have hlength : longKey.length = 60000 := length_replicate
  have hname : (ascii "DEL").length = 3 := by decide
  simp only [encodedSize, sizeLoop, length_cons, length_nil, hlength, hname]
  decide

/-- records appended to an open transaction -/
theorem run_appends (records : List (List Bytes)) : ∀ {a : State}, a.reactor = .idle → a.asyncError = false →
    a.transactionActive = true → (∀ r ∈ records, Fits r) →
      a.run (records.map (.append true)) =
        { a with transaction := a.transaction ++ encodeLog records, transactionRecords := a.transactionRecords ++ records } := by
  induction records with
  | nil =>
    intro a _ _ _ _
    simp [State.run, encodeLog]
  | cons record records ih =>
    intro a hidle herror hactive hfits
    obtain ⟨size, hsize⟩ := Option.isSome_iff_exists.1 (hfits record mem_cons_self)
    have hstep : a.step (.append true record) =
        { a with transaction := a.transaction ++ encodeRequest record, transactionRecords := a.transactionRecords ++ [record] } := by
      simp only [State.step, State.call, hidle, aofAppend, herror, hsize, encodeRecord_eq hsize le_rfl, hactive]
      rfl
    rw [map_cons, State.run, foldl_cons, ← State.run, hstep]
    refine Eq.trans (ih hidle herror hactive fun r hr => hfits r (mem_cons_of_mem _ hr)) ?_
    simp only [encodeLog_cons, append_assoc, cons_append, nil_append]

/-- a transaction of an open file, before its commit -/
theorem run_transaction (records : List (List Bytes)) (hfits : ∀ r ∈ records, Fits r) :
    (aofOpen .no []).run (.begin :: records.map (.append true)) =
      { aofOpen .no [] with
        transactionActive := true
        transaction := encodeLog records
        transactionRecords := records } := by
  rw [State.run, foldl_cons, ← State.run, run_appends records rfl rfl rfl hfits]
  rfl

theorem run_evictionTransaction :
    let a := (aofOpen .no []).run evictionTransaction
    a.reactor = .idle ∧ a.transactionActive = true ∧ a.held = [] ∧ a.producerChunk = none ∧ a.transaction.length = 300115 := by
  have hfits : ∀ r ∈ List.replicate 5 [ascii "DEL", longKey], Fits r := by
    intro r hr
    rw [eq_of_mem_replicate hr, Fits, longKey_record]
    rfl
  have hlength : (encodeLog (List.replicate 5 [ascii "DEL", longKey])).length = 300115 := by
    rw [encodeLog, length_flatMap, map_replicate, (encodedSize_spec longKey_record).1]
    decide
  rw [evictionTransaction]
  generalize List.replicate 5 [ascii "DEL", longKey] = records at hlength hfits
  rw [run_transaction records hfits]
  exact ⟨rfl, rfl, rfl, rfl, hlength⟩

/-- the first chunk is there and the second is not -/
theorem evictionTransaction_not_whole : ¬ ((aofOpen .no []).run evictionTransaction).Whole fun round => round = 0 := by
  obtain ⟨_, _, _, hproducer, hlength⟩ := run_evictionTransaction
  rintro (⟨_, hfirst⟩ | hall)
  · simp at hfirst
  · have hroom : ((aofOpen .no []).run evictionTransaction).room = aofChunkCapacity := by
      rw [room, produced_none hproducer]
      rfl
    have hsecond := hall 0 (by rw [hroom, hlength]; decide)
    simp at hsecond

/-- **A commit that is cut.** The transaction is longer than a chunk. The first chunk is there, the second is not: the commit
returns an error, and the queue has bytes of the transaction. -/
theorem commit_leaves_part :
    let a := (aofOpen .no []).run evictionTransaction
    let r := a.aofTransactionCommit fun round => round = 0
    a.held = [] ∧ r.2 = false ∧ r.1.held ≠ [] := by
  have hpart := evictionTransaction_not_whole
  obtain ⟨_, hactive, hheld, hproducer, _⟩ := run_evictionTransaction
  generalize (aofOpen .no []).run evictionTransaction = a at hpart hactive hheld hproducer
  have hends := (commit_ends (filling_none hproducer) (by rw [hproducer]; intro chunk h; cases h) hactive fun round => round = 0).2.2
  simp only
  generalize a.aofTransactionCommit (fun round => decide (round = 0)) = r at hends ⊢
  obtain ⟨b, ok⟩ := r
  refine ⟨hheld, ?_⟩
  cases hends with
  | done whole _ | refused whole _ _ => exact absurd whole hpart
  | cut _ _ more => exact ⟨rfl, ne_nil_of_length_pos (lt_of_le_of_lt (Nat.zero_le _) more)⟩

/-- a commit, and another one that gets no chunk -/
def refusedCommit : List Action :=
  [.begin, .append true [ascii "DEL", ascii "k"], .commit, .copy true, .finish, .flush,
   .begin, .append true [ascii "DEL", ascii "j"], .commit, .copy false]

/-- the five records are cut after the first chunk; the commit that gets none leaves the record before it -/
theorem commit_whole_iff_eviction :
    let a := (aofOpen .no []).run evictionTransaction
    let r := a.aofTransactionCommit fun round => round = 0
    (r.2 = false ∧ ¬ (r.1.queue = a.queue ∧ r.1.producerChunk = a.producerChunk)) ∧
      ∃ queued waiting, ((aofOpen .no []).run refusedCommit).stream = encodeLog queued ∧
        [] = encodeLog waiting ∧ (queued ++ waiting).Perm [[ascii "DEL", ascii "k"]] := by
  constructor
  · obtain ⟨hidle, hactive, _⟩ := run_evictionTransaction
    have h := ((commit_whole_iff .no [] evictionTransaction).1 hidle hactive fun round => round = 0).2.2
    exact Classical.not_imp.1 fun hsame => evictionTransaction_not_whole (h.1 hsame)
  · refine (commit_whole_iff .no [] refusedCommit).2 (by decide +kernel) ?_
    have hidle : ((aofOpen .no []).run refusedCommit).reactor = .idle := by decide +kernel
    simp [hidle]

end State

end StoreSystem.Aof
