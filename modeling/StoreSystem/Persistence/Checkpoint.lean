/-
Checkpoints of the AOF (`aof_create_checkpoint`, `aof_validate_checkpoint` in `src/persistence/aof.c`), as the server uses the
AOF when nothing is evicted: every record goes through a transaction, so no bytes are ever pending.

A checkpoint logs a PING with a random token and waits until it is written. The reactor thread does nothing else meanwhile, so
the size of the file is then the end of the PING.

- `Tidy`: the file holds a first part of the bytes of the records logged so far, and every checkpoint ends such a log.
- `Tidy.commit`, `Tidy.checkpoint`, `Tidy.flush`, `Tidy.step`: what the server does to the AOF keeps this.
- `validate_marked`: a checkpoint is accepted against every later file.

Premise: allocations of the AOF succeed.
-/
import StoreSystem.Persistence.AofOrder

namespace StoreSystem.Aof

open List Resp
open Rdb (Checkpoint rdbCheckpointTokenSize)

/-! ## Model -/

/-- `checkpoint_record` into a buffer with room for `capacity` bytes -/
def checkpointBytes (capacity : ℕ) (checkpoint : Checkpoint) : Option Bytes :=
  match encodedSize (State.checkpointRecord checkpoint.token) with
  | none => none
  | some length =>
    if length > capacity then none else encodeRecord capacity (State.checkpointRecord checkpoint.token) length

/-- `aof_validate_checkpoint`; a file that ends too early gives fewer bytes -/
def aofValidateCheckpoint (file : Bytes) (checkpoint : Checkpoint) : Bool :=
  if checkpoint.valid = false then false
  else
    match checkpointBytes 128 checkpoint with
    | none => false
    | some expected =>
      if checkpoint.aofOffset < expected.length then false
      else (file.drop (checkpoint.aofOffset - expected.length)).take expected.length = expected

/-- what the threads do between two calls of the AOF, with the memory they need -/
def Action.Internal : Action → Bool
  | .append _ _ | .begin | .commit | .rollback | .flush | .checkpoint _ _ => false
  | .copy allocated | .enqueue allocated => allocated
  | _ => true

namespace State

/-- the records of a request; a record that `aof_append` refuses is not logged -/
def appendAll (a : State) (records : List (List Bytes)) : State := records.foldl (fun a record => (a.aofAppend true record).1) a

/-! ## The invariant -/

variable {a b : State}

/-- the records logged, the commit under way included -/
def logged (a : State) : List (List Bytes) := a.kept ++ a.committed

/-- a checkpoint that ends the first records of the log, all of them written -/
structure Marked (logged : List (List Bytes)) (written : ℕ) (checkpoint : Checkpoint) (before : List (List Bytes)) : Prop where
  sized : checkpoint.token.length = rdbCheckpointTokenSize
  valid : checkpoint.valid = true
  log : before ++ [checkpointRecord checkpoint.token] <+: logged
  offset : checkpoint.aofOffset = (encodeLog (before ++ [checkpointRecord checkpoint.token])).length
  written : checkpoint.aofOffset ≤ written

/-- the checkpoint that is being taken: its PING is the last record, and no sequence is later -/
structure Taking (a : State) (sequence : ℕ) (token : Bytes) : Prop where
  sized : token.length = rdbCheckpointTokenSize
  last : sequence = a.nextSequence
  log : ∃ before, a.logged = before ++ [checkpointRecord token]

/-- where the reactor thread is in `aof_create_checkpoint` -/
def Current (a : State) : Prop :=
  match a.reactor with
  | .idle | .committing _ _ none => True
  | .committing _ sequence (some token) | .handing sequence token | .waiting sequence (some token)
  | .syncing _ sequence token => Taking a sequence token
  | .stating token => Taking a a.nextSequence token ∧ a.done a.nextSequence ≤ a.writtenBytes
  | .enqueueing | .waiting _ none => False

structure Tidy (a : State) : Prop where
  inv : Inv a
  order : Recorded True a
  opened : a.opened = []
  pending : a.pending = []
  fits : ∀ record ∈ a.logged, Fits record
  ready : ∀ record ∈ a.transactionRecords, Fits record
  current : Current a
  marked : ∀ checkpoint ∈ a.checkpoints, ∃ before, Marked a.logged a.appended.length checkpoint before

variable {before : List (List Bytes)} {written : ℕ}

theorem Marked.later {logged logged' : List (List Bytes)} {written' : ℕ} {checkpoint : Checkpoint}
    (h : Marked logged written checkpoint before) (hlog : logged <+: logged')
    (hwritten : written ≤ written') : Marked logged' written' checkpoint before :=
  { h with
    log := h.log.trans hlog
    written := h.written.trans hwritten }

/-- a checkpoint at the end of the log -/
theorem Marked.whole {logged : List (List Bytes)} {checkpoint : Checkpoint}
    (h : Marked logged written checkpoint before) (hend : checkpoint.aofOffset = (encodeLog logged).length) :
    before ++ [checkpointRecord checkpoint.token] = logged := by
  obtain ⟨rest, hrest⟩ := h.log
  have hoffset := h.offset
  rw [hend, ← hrest, encodeLog_append _ rest, length_append] at hoffset
  have hcount := length_le_encodeLog rest
  have hnone : rest = [] := length_eq_zero_iff.1 (by omega)
  rw [← hrest, hnone, append_nil]

/-- the file is a first part of the bytes that got a sequence -/
theorem Inv.appended_initial (h : Inv a) : a.appended <+: a.batches.flatMap Prod.snd := by
  have hhanded : a.appended <+: a.handed := by
    have hahead := h.ahead
    rw [h.handed]
    unfold Ahead at hahead
    split at hahead
    · rw [take_of_length_le hahead.1.le]
      exact prefix_append _ _
    · calc a.appended = a.appended.take a.writtenBytes ++ a.appended.drop a.writtenBytes := (take_append_drop _ _).symm
        _ <+: a.appended.take a.writtenBytes ++ a.queued := (prefix_append_right_inj _).2 hahead.2
    · rw [take_of_length_le hahead.le]
      exact prefix_append _ _
  rw [h.stream, append_assoc]
  exact hhanded.trans (prefix_append _ _)

/-- the bytes that got a sequence are those of the log -/
theorem Tidy.log (h : Tidy a) : encodeLog a.logged = a.batches.flatMap Prod.snd := by
  obtain ⟨queued, waiting, hlog, hwaiting, hsorted⟩ := h.order.log
  have hall := (hsorted.order trivial).1
  rw [encodeLog_eq_nil (hwaiting.symm.trans h.pending), append_nil] at hall
  rw [hlog, logged, hall]

/-- **The file** is a first part of the log. -/
theorem Tidy.file (h : Tidy a) : a.file = a.appended ∧ a.appended <+: encodeLog a.logged := by
  refine ⟨?_, ?_⟩
  · rw [State.file, h.opened, nil_append]
  · rw [h.log]
    exact h.inv.appended_initial

theorem tidy_open (fsyncPolicy : FsyncPolicy) : Tidy (aofOpen fsyncPolicy []) where
  inv := inv_open fsyncPolicy []
  order := recorded_open fsyncPolicy []
  opened := rfl
  pending := rfl
  fits := fun _ h => absurd h not_mem_nil
  ready := fun _ h => absurd h not_mem_nil
  current := trivial
  marked := fun _ h => absurd h not_mem_nil

/-! ## Inside a call -/

variable {c : State} {token : Bytes}

/-- what an action inside a call leaves alone -/
structure Moves (a b : State) : Prop where
  logged : b.logged = a.logged
  pending : b.pending = a.pending
  opened : b.opened = a.opened
  batches : b.batches = a.batches
  nextSequence : b.nextSequence = a.nextSequence
  appended : a.appended.length ≤ b.appended.length
  written : a.writtenBytes ≤ b.writtenBytes

theorem Moves.refl (a : State) : Moves a a := ⟨rfl, rfl, rfl, rfl, rfl, le_rfl, le_rfl⟩

theorem Moves.trans (h : Moves a b) (h' : Moves b c) : Moves a c :=
  ⟨h'.logged.trans h.logged, h'.pending.trans h.pending, h'.opened.trans h.opened, h'.batches.trans h.batches,
    h'.nextSequence.trans h.nextSequence, h.appended.trans h'.appended, h.written.trans h'.written⟩

theorem SameRecords.moves (h : SameRecords a b) (h' : SameFile a b) : Moves a b :=
  ⟨by rw [State.logged, State.logged, h.kept, h.committed], h.pending, h'.opened, h.batches, h.nextSequence, by rw [h'.appended],
    h'.writtenBytes.ge⟩

theorem Rests.moves (h : Rests a b) : Moves a b := h.toSameRecords.moves h.toSameFile

theorem WriterMoves.moves (h : WriterMoves a b) : Moves a b :=
  ⟨by rw [State.logged, State.logged, h.kept, h.committed], h.pending, h.opened, h.batches, h.nextSequence, h.appended, h.written⟩

theorem Taking.moves {sequence : ℕ} (h : Taking a sequence token) (hm : Moves a b) : Taking b sequence token :=
  ⟨h.sized, h.last.trans hm.nextSequence.symm, by rw [hm.logged]; exact h.log⟩

/-- its sequence is the last one -/
theorem Taking.now {sequence : ℕ} (h : Taking a sequence token) : Taking a a.nextSequence token := ⟨h.sized, rfl, h.log⟩

theorem Current.same (h : Current a) (hm : Moves a b) (hr : b.reactor = a.reactor) : Current b := by
  have hdone : b.done b.nextSequence = a.done a.nextSequence := by rw [State.done, State.done, hm.batches, hm.nextSequence]
  unfold Current at h ⊢
  rw [hr]
  split at h
  · trivial
  · trivial
  · exact h.moves hm
  · exact h.moves hm
  · exact h.moves hm
  · exact h.moves hm
  · rw [hdone, hm.nextSequence]
    exact ⟨h.1.moves hm, h.2.trans hm.written⟩
  · exact h
  · exact h

/-- an action inside a call that takes no checkpoint -/
theorem Tidy.moved (h : Tidy a) (hinv : Inv b) (horder : Recorded True b) (hm : Moves a b)
    (hready : ∀ record ∈ b.transactionRecords, Fits record) (hcurrent : Current b) (hcheckpoints : b.checkpoints = a.checkpoints) :
    Tidy b where
  inv := hinv
  order := horder
  opened := hm.opened.trans h.opened
  pending := hm.pending.trans h.pending
  fits := by
    rw [hm.logged]
    exact h.fits
  ready := hready
  current := hcurrent
  marked := by
    intro checkpoint hmem
    rw [hcheckpoints] at hmem
    obtain ⟨before, hmark⟩ := h.marked checkpoint hmem
    exact ⟨before, hmark.later (by rw [hm.logged]) hm.appended⟩

/-- what happens inside a call: the log stays, and a new checkpoint is at its end -/
structure Goes (a b : State) : Prop where
  tidy : Tidy b
  moves : Moves a b
  checkpoints : ∃ fresh, b.checkpoints = a.checkpoints ++ fresh ∧
    ∀ checkpoint ∈ fresh, checkpoint.aofOffset = (encodeLog b.logged).length

theorem Goes.same (h : Tidy b) (hm : Moves a b) (hcheckpoints : b.checkpoints = a.checkpoints) : Goes a b :=
  ⟨h, hm, [], by rw [hcheckpoints, append_nil], fun _ hmem => absurd hmem not_mem_nil⟩

theorem Tidy.stays (h : Tidy a) : Goes a a := Goes.same h (Moves.refl a) rfl

theorem Goes.trans (h : Goes a b) (h' : Goes b c) : Goes a c := by
  obtain ⟨fresh, hfresh, hend⟩ := h.checkpoints
  obtain ⟨fresh', hfresh', hend'⟩ := h'.checkpoints
  refine ⟨h'.tidy, h.moves.trans h'.moves, fresh ++ fresh', by rw [hfresh', hfresh, append_assoc], ?_⟩
  intro checkpoint hmem
  rcases mem_append.1 hmem with hold | hnew
  · rw [h'.moves.logged]
    exact hend checkpoint hold
  · exact hend' checkpoint hnew

/-- an action that leaves the records alone -/
theorem Tidy.kept (h : Tidy a) (hinv : Inv b) (hrecords : SameRecords a b) (hm : Moves a b) (hcurrent : Current b)
    (hcheckpoints : b.checkpoints = a.checkpoints) : Goes a b := by
  refine Goes.same (h.moved hinv (h.order.same hrecords) hm ?_ hcurrent hcheckpoints) hm hcheckpoints
  rw [hrecords.transactionRecords]
  exact h.ready

theorem Tidy.rested (h : Tidy a) (hinv : Inv b) (hrests : Rests a b) (hcurrent : Current b) (hcheckpoints : b.checkpoints = a.checkpoints) :
    Goes a b :=
  h.kept hinv hrests.toSameRecords hrests.moves hcurrent hcheckpoints

theorem Tidy.writerMoved (h : Tidy a) {action : Action} (hw : action.OfWriter = true) : Goes a (a.step action) := by
  have hmoves := writerMoves_step a hw
  exact h.kept (h.inv.step action) hmoves.toSameRecords hmoves.moves (h.current.same hmoves.moves hmoves.reactor) hmoves.checkpoints

/-- **The writer thread** goes on. -/
theorem Tidy.writes (actions : List Action) : ∀ {a : State}, Tidy a → (∀ action ∈ actions, action.OfWriter = true) →
    Tidy (a.run actions) ∧ WriterMoves a (a.run actions) := by
  induction actions with
  | nil => exact fun h _ => ⟨h, .refl _⟩
  | cons action actions ih =>
    intro a h hall
    have hfirst := hall action mem_cons_self
    obtain ⟨hnext, hmoves⟩ := ih (h.writerMoved hfirst).tidy fun x hx => hall x (mem_cons_of_mem _ hx)
    exact ⟨hnext, (writerMoves_step a hfirst).trans hmoves⟩

/-- a round of the copying loop stays in its commit -/
theorem copyRound_rest (a : State) : (a.copyRound true).checkpoints = a.checkpoints ∧ ((a.copyRound true).reactor = a.reactor ∨
      ∃ position position' assigned token, a.reactor = .committing position assigned token ∧
        (a.copyRound true).reactor = .committing position' assigned token) := by
  unfold State.copyRound
  split
  · rename_i position assigned token hat
    split_ifs
    · split
      · rename_i hnone
        cases hp : a.producerChunk with
        | none | some chunk =>
          rw [hp] at hnone
          cases hnone
      · simp only
        split_ifs
        · obtain ⟨hreactor, hcheckpoints⟩ := handOver_reactor { a with
            producerChunk := _, reactor := .committing _ assigned token }
          exact ⟨hcheckpoints, Or.inr ⟨position, _, assigned, token, hat, hreactor⟩⟩
        · exact ⟨rfl, Or.inr ⟨position, _, assigned, token, hat, rfl⟩⟩
    · exact ⟨rfl, Or.inl rfl⟩
  · exact ⟨rfl, Or.inl rfl⟩

theorem Tidy.copyRound (h : Tidy a) : Goes a (a.copyRound true) := by
  have hm := (sameRecords_copyRound a).moves (sameFile_copyRound a true)
  obtain ⟨hcheckpoints, hreactor⟩ := copyRound_rest a
  refine h.kept (h.inv.copyRound true) (sameRecords_copyRound a) hm ?_ hcheckpoints
  rcases hreactor with hsame | ⟨_, position', assigned', token', hat, hat'⟩
  · exact h.current.same hm hsame
  · have hcurrent := h.current
    unfold Current at hcurrent ⊢
    rw [hat] at hcurrent
    rw [hat']
    cases token' with
    | none => trivial
    | some token => exact hcurrent.moves hm

/-- the end of a commit keeps its records -/
theorem Tidy.finishCommit (h : Tidy a) : Goes a a.finishCommit := by
  have hinv := h.inv.finishCommit
  have horder := h.order.finishCommit
  unfold State.finishCommit at hinv horder ⊢
  split
  · rename_i position assigned token hat
    simp only [hat] at hinv horder
    split_ifs with hmore
    · exact h.stays
    · rw [if_neg hmore] at hinv horder
      have hnone : ∀ p s t, (match token with | none => Reactor.idle | some token => .handing assigned token) ≠ .committing p s t := by
        cases token <;> simp
      have hlogged : a.logged = a.kept ++ a.transactionRecords := by
        rw [logged, committed, hat]
      have hm : Moves a { a with
          transaction := [], transactionActive := false, kept := a.kept ++ a.transactionRecords, transactionRecords := [],
          reactor := match token with | none => Reactor.idle | some token => .handing assigned token } := by
        refine ⟨?_, rfl, rfl, rfl, rfl, le_rfl, le_rfl⟩
        rw [hlogged, logged, committed_eq_nil hnone, append_nil]
      refine Goes.same (h.moved hinv horder hm (fun _ hmem => absurd hmem not_mem_nil) ?_ rfl) hm rfl
      have hcurrent := h.current
      unfold Current at hcurrent ⊢
      rw [hat] at hcurrent
      cases token with
      | none => trivial
      | some token => exact hcurrent.moves hm
  · exact h.stays

theorem Tidy.handing (h : Tidy a) : Goes a (a.step .handOver) := by
  have hinv := h.inv.step .handOver
  simp only [State.step] at hinv ⊢
  split
  · rename_i sequence token hat
    simp only [hat] at hinv
    obtain ⟨hreactor, hcheckpoints⟩ := handOver_reactor a
    have hmoved : Rests a.handOver { a.handOver with reactor := .waiting sequence (some token) } :=
      Rests.moved (by simp [hreactor, hat]) (by simp)
    have hrecords := (sameRecords_handOver a).trans hmoved.toSameRecords
    have hm := hrecords.moves ((sameFile_handOver a).trans hmoved.toSameFile)
    refine h.kept hinv hrecords hm ?_ hcheckpoints
    have hcurrent := h.current
    unfold Current at hcurrent
    rw [hat] at hcurrent
    exact hcurrent.moves hm
  · exact h.stays

theorem Tidy.awake (h : Tidy a) : Goes a a.awake := by
  have hinv := h.inv.awake
  have hrests := rests_awake a
  have hcurrent := h.current
  unfold State.awake at hinv hrests ⊢
  split
  · rename_i sequence token hat
    simp only [hat] at hinv hrests
    unfold Current at hcurrent
    rw [hat] at hcurrent
    split_ifs with hwait herror
    · exact h.stays
    · rw [if_neg hwait, if_pos herror] at hinv hrests
      exact h.rested hinv hrests trivial rfl
    · rw [if_neg hwait, if_neg herror] at hinv hrests
      cases token with
      | none => exact hcurrent.elim
      | some token => exact h.rested hinv hrests (hcurrent.moves hrests.moves) rfl
  · exact h.stays

theorem Tidy.reactorSync (h : Tidy a) (ok : Bool) : Goes a (a.reactorSync ok) := by
  have hinv := h.inv.reactorSync ok
  have hrests := rests_reactorSync a ok
  have hcurrent := h.current
  have hmarks := h.inv.marks.reactor
  unfold State.reactorSync at hinv hrests ⊢
  unfold Current at hcurrent
  unfold ReactorMarks at hmarks
  split
  · rename_i target token hat
    simp only [hat] at hinv hrests hmarks hcurrent
    split_ifs with hheld hdone
    · exact h.stays
    · rw [if_neg hheld, if_pos hdone] at hinv hrests
      exact h.rested hinv hrests ⟨(hcurrent.moves hrests.moves).now, hcurrent.last ▸ hmarks.complete⟩ rfl
    · rw [if_neg hheld, if_neg hdone] at hinv hrests
      exact h.rested hinv hrests (hcurrent.moves hrests.moves) rfl
  · rename_i target token hat
    simp only [hat] at hinv hrests hcurrent
    split_ifs with hok
    · rw [if_pos hok] at hinv hrests
      exact h.rested hinv hrests (hcurrent.moves hrests.moves) rfl
    · rw [if_neg hok] at hinv hrests
      exact h.rested hinv hrests trivial rfl
  · rename_i target token hat
    simp only [hat] at hinv hrests hmarks hcurrent
    exact h.rested hinv hrests ⟨(hcurrent.moves hrests.moves).now, hcurrent.last ▸ hmarks.1.complete⟩ rfl
  · exact h.stays

/-- when the last sequence is written, so is the log -/
theorem Tidy.all_written (h : Tidy a) (hdone : a.done a.nextSequence ≤ a.writtenBytes) : a.appended = encodeLog a.logged := by
  have hall : upTo a.batches a.nextSequence = a.batches.flatMap Prod.snd := by
    unfold upTo
    rw [filter_eq_self.2]
    intro b hb
    exact decide_eq_true (h.inv.bound b hb)
  refine h.file.2.eq_of_length_le ?_
  rw [h.log, ← hall]
  exact hdone.trans h.inv.count

/-- **The size of the file** is where the PING ends. -/
theorem Tidy.statFile (h : Tidy a) : Goes a a.statFile := by
  have hinv := h.inv.statFile
  have hrests := rests_stat a
  have hcurrent := h.current
  unfold State.statFile at hinv hrests ⊢
  split
  · rename_i token hat
    simp only [hat] at hinv hrests
    unfold Current at hcurrent
    rw [hat] at hcurrent
    obtain ⟨htaking, hdone⟩ := hcurrent
    obtain ⟨before, hbefore⟩ := htaking.log
    have hall := h.all_written hdone
    have hm := hrests.moves
    have hend : a.opened.length + a.appended.length = (encodeLog a.logged).length := by
      rw [hall, h.opened, length_nil, Nat.zero_add]
    refine ⟨⟨hinv, h.order.same hrests.toSameRecords, h.opened, h.pending, by rw [hm.logged]; exact h.fits, h.ready, trivial, ?_⟩, hm,
      [⟨a.opened.length + a.appended.length, token, true⟩], rfl, ?_⟩
    · intro checkpoint hmem
      rcases mem_append.1 hmem with hold | hnew
      · obtain ⟨before', hmark⟩ := h.marked checkpoint hold
        exact ⟨before', hmark.later (by rw [hm.logged]) le_rfl⟩
      · rw [mem_singleton] at hnew
        subst hnew
        refine ⟨before, htaking.sized, rfl, ?_, ?_, ?_⟩
        · rw [hm.logged, hbefore]
        · rw [← hbefore]
          exact hend
        · exact hend.trans_le (by rw [hall])
    · intro checkpoint hmem
      rw [mem_singleton] at hmem
      rw [hmem, hm.logged]
      exact hend
  · exact h.stays

/-- **One action** inside the calls of the AOF. -/
theorem Tidy.step (h : Tidy a) {action : Action} (hint : action.Internal = true) : Goes a (a.step action) := by
  cases action with
  | append allocated arguments | begin | commit | rollback | flush | checkpoint allocated token =>
    exact absurd hint Bool.false_ne_true
  | copy allocated =>
    cases (show allocated = true from hint)
    exact h.copyRound
  | finish => exact h.finishCommit
  | enqueue allocated =>
    refine enqueue_rule h.stays fun hat => ?_
    have hcurrent := h.current
    unfold Current at hcurrent
    rw [hat] at hcurrent
    exact hcurrent.elim
  | handOver => exact h.handing
  | awake => exact h.awake
  | reactorSync ok => exact h.reactorSync ok
  | stat => exact h.statFile
  | _ => exact h.writerMoved rfl

/-- **Any number of them.** -/
theorem Tidy.run (actions : List Action) : ∀ {a : State}, Tidy a → (∀ action ∈ actions, action.Internal = true) →
    Goes a (a.run actions) := by
  induction actions with
  | nil => exact fun h _ => h.stays
  | cons action actions ih =>
    intro a h hall
    have hfirst := h.step (hall action mem_cons_self)
    exact hfirst.trans (ih hfirst.tidy fun x hx => hall x (mem_cons_of_mem _ hx))

/-! ## Calls -/

variable {records : List (List Bytes)}

/-- the buffers of the reactor thread change between two calls -/
theorem Tidy.buffered (h : Tidy a) (hidle : a.reactor = .idle) (hfits : ∀ record ∈ records, Fits record) (active : Bool) :
    Tidy { a with transaction := encodeLog records, transactionActive := active, transactionRecords := records } := by
  have hnone : a.committed = [] := committed_eq_nil (by simp [hidle])
  have hnone' : State.committed { a with
      transaction := encodeLog records, transactionActive := active, transactionRecords := records } = [] :=
    committed_eq_nil (by simp [hidle])
  have hm : Moves a { a with transaction := encodeLog records, transactionActive := active, transactionRecords := records } := by
    refine ⟨?_, rfl, rfl, rfl, rfl, le_rfl, le_rfl⟩
    rw [logged, logged, hnone, hnone']
  refine h.moved (h.inv.buffered hidle) (h.order.reset hidle) hm hfits ?_ rfl
  unfold Current
  simp only [hidle]

/-- what a call leaves: some more records in the log -/
structure Extends (a b : State) (records : List (List Bytes)) : Prop where
  tidy : Tidy b
  logged : b.logged = a.logged ++ records
  appended : a.appended.length ≤ b.appended.length

theorem Goes.extends (h : Goes a b) : Extends a b [] := ⟨h.tidy, h.moves.logged.trans (append_nil _).symm, h.moves.appended⟩

theorem Extends.goes (h : Extends a b records) (h' : Goes b c) : Extends a c records :=
  ⟨h'.tidy, h'.moves.logged.trans h.logged, h.appended.trans h'.moves.appended⟩

theorem logged_idle (hidle : a.reactor = .idle) : a.logged = a.kept := by
  rw [logged, committed_eq_nil (by simp [hidle]), append_nil]

theorem begin_eq (hbegin : a.aofTransactionBegin.2 = true) :
    a.aofTransactionBegin.1 = { a with transaction := [], transactionActive := true, transactionRecords := [] } ∧ a.asyncError = false := by
  unfold aofTransactionBegin at hbegin ⊢
  split_ifs at hbegin ⊢ with hrefused
  refine ⟨rfl, ?_⟩
  push Not at hrefused
  have haccept := hrefused.2
  unfold aofCanAcceptWrite at haccept
  simp only [ne_eq, Bool.not_eq_false, Bool.and_eq_true, Bool.not_eq_true'] at haccept
  exact haccept.2

/-- a commit of the open transaction; for a checkpoint it holds the PING -/
theorem Tidy.startCommit (h : Tidy a) (hidle : a.reactor = .idle) (hactive : a.transactionActive = true) (token : Option Bytes)
    (htoken : ∀ t, token = some t → t.length = rdbCheckpointTokenSize ∧ a.transactionRecords = [checkpointRecord t]) :
    Extends a (a.startCommit token) a.transactionRecords := by
  have hinv := h.inv.startCommit hidle token
  have horder := h.order.startCommit hidle token fun _ => Or.inl h.pending
  have hkept := logged_idle hidle
  have hfits : ∀ record ∈ a.kept ++ a.transactionRecords, Fits record := by
    intro record hmem
    rcases mem_append.1 hmem with hold | hnew
    · exact h.fits record (hkept ▸ hold)
    · exact h.ready record hnew
  have hmarked : ∀ checkpoint ∈ a.checkpoints, ∃ before, Marked (a.kept ++ a.transactionRecords) a.appended.length checkpoint before := by
    intro checkpoint hmem
    obtain ⟨before, hmark⟩ := h.marked checkpoint hmem
    exact ⟨before, hmark.later (by rw [hkept]; exact prefix_append _ _) le_rfl⟩
  unfold State.startCommit at hinv horder ⊢
  rw [if_neg (by simp [hactive])] at hinv horder ⊢
  split_ifs with hempty
  · rw [if_pos hempty] at hinv horder
    refine ⟨⟨hinv, horder, h.opened, h.pending, hfits, h.ready, ?_, hmarked⟩, by rw [hkept]; rfl, le_rfl⟩
    cases token with
    | none => trivial
    | some t =>
      exfalso
      have hbytes := h.order.transaction
      rw [hempty, (htoken t rfl).2] at hbytes
      have hpos := encodeRequest_pos (checkpointRecord t)
      simp [encodeLog] at hbytes
      simp [hbytes] at hpos
  · rw [if_neg hempty] at hinv horder
    refine ⟨⟨hinv, horder, h.opened, h.pending, hfits, h.ready, ?_, hmarked⟩, by rw [hkept]; rfl, le_rfl⟩
    cases token with
    | none => trivial
    | some t =>
      refine ⟨(htoken t rfl).1, rfl, a.kept, ?_⟩
      show a.kept ++ a.transactionRecords = _
      rw [(htoken t rfl).2]

theorem aofAppend_error (herror : a.asyncError = true) (allocated : Bool) (record : List Bytes) :
    a.aofAppend allocated record = (a, false) := if_pos herror

theorem aofAppend_ok (herror : a.asyncError = false) (hactive : a.transactionActive = true) {record : List Bytes} (hfits : Fits record) :
    a.aofAppend true record = ({ a with
      transaction := a.transaction ++ encodeRequest record, transactionRecords := a.transactionRecords ++ [record] }, true) := by
  obtain ⟨size, hsize⟩ := Option.isSome_iff_exists.1 hfits
  unfold aofAppend
  rw [if_neg (by simp [herror]), hsize]
  simp only
  rw [if_neg (by simp), encodeRecord_eq hsize le_rfl]
  simp only
  rw [if_pos hactive]

/-- the records of a request in the open transaction -/
theorem appendAll_eq (hactive : a.transactionActive = true) (horder : a.transaction = encodeLog a.transactionRecords)
    (hfits : a.asyncError = false → ∀ record ∈ records, Fits record) :
    a.appendAll records = { a with
      transaction := encodeLog (a.transactionRecords ++ if a.asyncError then [] else records)
      transactionRecords := a.transactionRecords ++ if a.asyncError then [] else records } := by
  induction records generalizing a with
  | nil =>
    rw [ite_self, append_nil, ← horder]
    rfl
  | cons record records ih =>
    cases herror : a.asyncError with
    | true =>
      have hsame : a.appendAll (record :: records) = a.appendAll records := by
        rw [appendAll, foldl_cons, aofAppend_error herror]
        rfl
      rw [hsame, ih hactive horder fun hok r hr => hfits hok r (mem_cons_of_mem _ hr), herror]
      rfl
    | false =>
      have hone := aofAppend_ok herror hactive (hfits herror record mem_cons_self)
      have hstep : a.appendAll (record :: records) = (a.aofAppend true record).1.appendAll records := rfl
      rw [hstep, hone]
      simp only
      rw [ih (by exact hactive) ?_ fun _ r hr => hfits herror r (mem_cons_of_mem _ hr)]
      · simp [herror]
      · simp only
        rw [encodeLog_append, horder]
        simp [encodeLog]

/-- **A transaction** logs its records, unless the writer has failed before they are appended. -/
theorem Tidy.commit (h : Tidy a) (hidle : a.reactor = .idle) (hbegin : a.aofTransactionBegin.2 = true) {during : List Action}
    (hduring : ∀ action ∈ during, action.OfWriter = true) {records : List (List Bytes)}
    (hfits : (a.aofTransactionBegin.1.run during).asyncError = false → ∀ record ∈ records, Fits record) :
    Extends a (((a.aofTransactionBegin.1.run during).appendAll records).startCommit none)
      (if (a.aofTransactionBegin.1.run during).asyncError then [] else records) := by
  obtain ⟨hbegun, _⟩ := begin_eq hbegin
  have hopen : Tidy a.aofTransactionBegin.1 := by
    rw [hbegun]
    exact h.buffered hidle (fun _ hmem => absurd hmem not_mem_nil) true
  obtain ⟨htidy, hmoves⟩ := hopen.writes during hduring
  have hlogged := hmoves.moves.logged
  have happended : a.appended.length ≤ (a.aofTransactionBegin.1.run during).appended.length :=
    le_trans (by rw [hbegun]) hmoves.appended
  generalize a.aofTransactionBegin.1.run during = b at htidy hmoves hlogged happended hfits ⊢
  have hb : b.reactor = .idle := hmoves.reactor.trans (by rw [hbegun]; exact hidle)
  have hactive : b.transactionActive = true := hmoves.active.trans (by rw [hbegun])
  have hnone : b.transactionRecords = [] := hmoves.transactionRecords.trans (by rw [hbegun])
  rw [appendAll_eq hactive htidy.order.transaction hfits, hnone, nil_append]
  have hin : ∀ record ∈ (if b.asyncError then [] else records), Fits record := by
    intro record hmem
    split_ifs at hmem with herror
    · exact absurd hmem not_mem_nil
    · exact hfits (Bool.eq_false_iff.2 herror) record hmem
  have hfilled := htidy.buffered hb hin b.transactionActive
  have hcommit := hfilled.startCommit hb hactive none (fun t ht => nomatch ht)
  refine ⟨hcommit.tidy, hcommit.logged.trans ?_, happended.trans hcommit.appended⟩
  have hkept : a.aofTransactionBegin.1.logged = a.logged := by
    rw [hbegun, logged_idle hidle]
    exact logged_idle hidle
  rw [← hkept, ← hlogged, logged_idle hb]
  rw [logged_idle (by exact hb)]

/-- **A checkpoint** logs its PING, or the call fails and logs nothing. -/
theorem Tidy.checkpoint (h : Tidy a) (hidle : a.reactor = .idle) (hsized : token.length = rdbCheckpointTokenSize)
    (hfits : Fits (checkpointRecord token)) :
    (a.aofCreateCheckpoint true token).checkpoints = a.checkpoints ∧
      ((a.aofCreateCheckpoint true token).reactor = .idle ∧ Extends a (a.aofCreateCheckpoint true token) [] ∨
        (a.aofCreateCheckpoint true token).reactor ≠ .idle ∧ a.asyncError = false ∧
          Extends a (a.aofCreateCheckpoint true token) [checkpointRecord token]) := by
  unfold aofCreateCheckpoint
  simp only
  cases hbegin : a.aofTransactionBegin.2 with
  | false =>
    have hsame : a.aofTransactionBegin.1 = a := by
      unfold aofTransactionBegin at hbegin ⊢
      split_ifs at hbegin ⊢
      rfl
    rw [if_pos rfl, hsame]
    refine ⟨rfl, Or.inl ⟨hidle, h.buffered hidle (fun _ hmem => absurd hmem not_mem_nil) false, ?_, le_rfl⟩⟩
    rw [logged_idle hidle, append_nil]
    exact logged_idle hidle
  | true =>
    obtain ⟨hbegun, herror⟩ := begin_eq hbegin
    have happend := aofAppend_ok (a := a.aofTransactionBegin.1) (by rw [hbegun]; exact herror) (by rw [hbegun]) hfits
    rw [if_neg (by simp), happend, if_neg (by simp), hbegun]
    have hone : ∀ record ∈ [checkpointRecord token], Fits record := by simpa using hfits
    have hfilled := h.buffered hidle hone true
    have hbytes : encodeLog [checkpointRecord token] = encodeRequest (checkpointRecord token) := flatMap_singleton _ _
    rw [hbytes] at hfilled
    simp only [nil_append]
    have hcommit := hfilled.startCommit hidle rfl (some token) (fun t ht => by cases ht; exact ⟨hsized, rfl⟩)
    refine ⟨(sameChunks_startCommit _ _).checkpoints, Or.inr ⟨?_, herror, hcommit.tidy, ?_, hcommit.appended⟩⟩
    · unfold State.startCommit
      rw [if_neg (by simp)]
      split_ifs <;> simp
    · rw [hcommit.logged, logged_idle hidle]
      rw [logged_idle (by exact hidle)]

/-- `aof_flush` finds no bytes pending -/
theorem Tidy.flush (h : Tidy a) : Goes a a.aofFlush := by
  unfold State.aofFlush
  split_ifs with hactive hpending
  · exact h.stays
  · obtain ⟨hreactor, hcheckpoints⟩ := handOver_reactor a
    have hm := (sameRecords_handOver a).moves (sameFile_handOver a)
    exact h.kept h.inv.handOver (sameRecords_handOver a) hm (h.current.same hm hreactor) hcheckpoints
  · exact absurd h.pending hpending

/-! ## Errors -/

theorem error_appendAll (records : List (List Bytes)) : ∀ a : State, (a.appendAll records).asyncError = a.asyncError := by
  induction records with
  | nil => exact fun _ => rfl
  | cons record records ih => exact fun a => (ih _).trans (append_leaves a true record).2.asyncError

/-! ## Validation -/

theorem length_checkpointTokenText (token : Bytes) : (checkpointTokenText token).length = 2 * token.length := by
  induction token with
  | nil => rfl
  | cons byte token ih =>
    rw [checkpointTokenText, flatMap_cons, length_append, length_cons]
    unfold checkpointTokenText at ih
    rw [ih]
    simp only [length_cons, length_nil]
    omega

/-- the record of a checkpoint is short enough for the buffers -/
theorem encodedSize_checkpoint (h : token.length = rdbCheckpointTokenSize) :
    encodedSize (checkpointRecord token) = some 53 := by
  have htext : (checkpointTokenText token).length = 32 := by rw [length_checkpointTokenText, h]; rfl
  simp only [encodedSize, checkpointRecord, sizeLoop, htext, length_cons, length_nil]
  decide

theorem fits_checkpoint (h : token.length = rdbCheckpointTokenSize) : Fits (checkpointRecord token) := by
  rw [Fits, encodedSize_checkpoint h]
  rfl

/-- **A checkpoint is accepted** against every file that starts with its log. -/
theorem validate_marked {logged : List (List Bytes)} {checkpoint : Checkpoint} {file : Bytes}
    (h : Marked logged written checkpoint before) (hfile : file <+: encodeLog logged) (hwritten : written ≤ file.length) :
    aofValidateCheckpoint file checkpoint = true := by
  have hsize := encodedSize_checkpoint h.sized
  have hlength : (encodeRequest (checkpointRecord checkpoint.token)).length = 53 := (encodedSize_spec hsize).1
  have hbytes : checkpointBytes 128 checkpoint = some (encodeRequest (checkpointRecord checkpoint.token)) := by
    simp only [checkpointBytes, hsize]
    rw [if_neg (by decide), encodeRecord_eq hsize (by decide)]
  have hlog : encodeLog (before ++ [checkpointRecord checkpoint.token]) =
      encodeLog before ++ encodeRequest (checkpointRecord checkpoint.token) := by
    rw [encodeLog_append]
    simp [encodeLog]
  have hoffset : checkpoint.aofOffset = (encodeLog before).length + 53 := by rw [h.offset, hlog, length_append, hlength]
  obtain ⟨rest, hrest⟩ := h.log
  obtain ⟨later, hlater⟩ : ∃ later, file = encodeLog before ++ encodeRequest (checkpointRecord checkpoint.token) ++ later := by
    have hboth : encodeLog (before ++ [checkpointRecord checkpoint.token]) <+: encodeLog logged := by
      rw [← hrest, encodeLog_append _ rest]
      exact prefix_append _ _
    obtain ⟨later, hlater⟩ := prefix_of_prefix_length_le hboth hfile (h.offset ▸ h.written.trans hwritten)
    exact ⟨later, by rw [← hlog, hlater]⟩
  unfold aofValidateCheckpoint
  rw [if_neg (by simp [h.valid]), hbytes]
  simp only
  rw [if_neg (by rw [hlength, hoffset]; omega), hlength, hoffset, Nat.add_sub_cancel, hlater, append_assoc, drop_left]
  rw [decide_eq_true_iff]
  exact take_left' hlength

end State

end StoreSystem.Aof
