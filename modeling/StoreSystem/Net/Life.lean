/-
The life of one connection (`src/net/reactor.c`): the requests it hands to the handler and the bytes it sends.

The connection sees the calls the reactor makes for it, in any order and with any handler context: a hang-up is noted,
`handle_read`, `handle_write`, `reactor_complete_response`, a refresh of its events, its destruction. What other connections
do reaches it through the handler context only. The history records what was received, each call of the handler with its
input and outcome, each completion, and what `send` took.

The ledger of a history says which requests were consumed and what was written in answer to each. Bytes written by a call
that leaves its request unfinished belong to the response of that request.

Results:
- `tracks_*`: each function of the reactor keeps the output equal to what was answered and not yet sent, and the input equal
  to what was received and not yet consumed;
- `output_in_order`: at every moment of every life, what was sent is the beginning of the responses in the order of the
  requests, the handler sees exactly the bytes behind the consumed requests, and it is not called while a request waits;
- `client_has_life`: the connections of every run of the reactor have such lives.
-/
import StoreSystem.Net.Turns

namespace StoreSystem.Net

open List Option
open NetBuffer (SendResult flushFd sound_init sound_consume unread_consume sound_reset commit)

variable {H : Type} (handler : Handler H)

/-! ## Histories -/

/-- what happens to a connection; a call of the handler is recorded with the connection it finds -/
inductive Happening
  | received (bytes : Bytes)
  | called (c : Connection) (o : HandlerOutcome)
  | completed (response : Bytes)
  | sent (bytes : Bytes)
deriving DecidableEq, Repr

/-- the account of a history: `answered` lists the finished requests with their responses, `written` is what was written
for the request at the front, `waiting` is that request if it was consumed and deferred -/
structure Ledger where
  received : Bytes
  sent : Bytes
  answered : List (Bytes × Bytes)
  written : Bytes
  waiting : Option Bytes
deriving DecidableEq, Repr

namespace Ledger

def start : Ledger := ⟨[], [], [], [], none⟩

def add (l : Ledger) : Happening → Ledger
  | .received bytes => { l with received := l.received ++ bytes }
  | .sent bytes => { l with sent := l.sent ++ bytes }
  | .called c o =>
    match o.result with
    | .complete =>
      { l with answered := l.answered ++ [(c.input.unread.take o.consumed, l.written ++ o.bytes)], written := [] }
    | .deferred => { l with written := l.written ++ o.bytes, waiting := some (c.input.unread.take o.consumed) }
    | .incomplete => { l with written := l.written ++ o.bytes }
    | .error => l
  | .completed response =>
    match l.waiting with
    | some request => { l with answered := l.answered ++ [(request, l.written ++ response)], written := [], waiting := none }
    | none => l

/-- the requests the handler has consumed -/
def consumed (l : Ledger) : Bytes := l.answered.flatMap Prod.fst ++ l.waiting.getD []

/-- the responses, in the order of their requests -/
def responses (l : Ledger) : Bytes := l.answered.flatMap Prod.snd ++ l.written

/-- what may happen next -/
def Allowed (l : Ledger) : Happening → Prop
  | .received _ => True
  | .sent bytes => l.sent ++ bytes <+: l.responses
  | .called c _ => l.waiting = none ∧ l.received = l.consumed ++ c.input.unread
  | .completed _ => l.waiting.isSome

end Ledger

def ledger (h : List Happening) : Ledger := h.foldl Ledger.add .start

@[simp] theorem ledger_snoc (h : List Happening) (e : Happening) : ledger (h ++ [e]) = (ledger h).add e := by
  simp [ledger]

/-- each event was allowed when it happened -/
inductive Ordered : List Happening → Prop
  | nil : Ordered []
  | snoc {h : List Happening} {e : Happening} : Ordered h → (ledger h).Allowed e → Ordered (h ++ [e])

theorem responses_add (l : Ledger) (e : Happening) : l.responses <+: (l.add e).responses := by
  cases e with
  | received bytes => exact prefix_refl _
  | sent bytes => exact prefix_refl _
  | completed response =>
    cases hw : l.waiting with
    | none => simp [Ledger.add, hw]
    | some request => simp [Ledger.add, Ledger.responses, hw, ← append_assoc]
  | called c o =>
    cases hr : o.result with
    | complete | deferred | incomplete => simp [Ledger.add, Ledger.responses, hr, ← append_assoc]
    | error => simp [Ledger.add, hr]

variable {h : List Happening}

/-- what was sent is the beginning of the responses -/
theorem Ordered.sent_prefix (hord : Ordered h) : (ledger h).sent <+: (ledger h).responses := by
  induction hord with
  | nil => exact prefix_refl _
  | @snoc h e _ hallowed ih =>
    rw [ledger_snoc]
    cases e with
    | sent bytes => exact hallowed
    | received bytes => exact ih
    | completed response =>
      have hsent : ((ledger h).add (.completed response)).sent = (ledger h).sent := by
        cases hw : (ledger h).waiting <;> simp [Ledger.add, hw]
      rw [hsent]
      exact ih.trans (responses_add _ _)
    | called c o =>
      have hsent : ((ledger h).add (.called c o)).sent = (ledger h).sent := by
        cases hr : o.result <;> simp [Ledger.add, hr]
      rw [hsent]
      exact ih.trans (responses_add _ _)

/-- the consumed requests are the beginning of what was received -/
theorem Ordered.consumed_prefix (hord : Ordered h) : (ledger h).consumed <+: (ledger h).received := by
  induction hord with
  | nil => exact prefix_refl _
  | @snoc h e _ hallowed ih =>
    rw [ledger_snoc]
    cases e with
    | sent bytes => exact ih
    | received bytes => exact ih.trans (prefix_append _ _)
    | completed response =>
      cases hw : (ledger h).waiting with
      | none => simpa [Ledger.add, hw] using ih
      | some request => simpa [Ledger.add, Ledger.consumed, hw] using ih
    | called c o =>
      obtain ⟨hnone, hreceived⟩ := hallowed
      simp only [Ledger.consumed, hnone, getD_none, append_nil] at hreceived
      have htaken : (ledger h).answered.flatMap Prod.fst ++ c.input.unread.take o.consumed <+: (ledger h).received := by
        rw [hreceived]
        exact (prefix_append_right_inj _).2 (List.take_prefix _ _)
      cases hr : o.result with
      | complete => simpa [Ledger.add, Ledger.consumed, hr, hnone] using htaken
      | deferred => simpa [Ledger.add, Ledger.consumed, hr] using htaken
      | incomplete | error => simp [Ledger.add, Ledger.consumed, hr, hnone, hreceived]

theorem Ordered.of_append {a b : List Happening} (hord : Ordered (a ++ b)) : Ordered a := by
  induction b using List.reverseRecOn with
  | nil => simpa using hord
  | append_singleton b e ih =>
    generalize hh : a ++ (b ++ [e]) = h at hord
    cases hord with
    | nil => simp at hh
    | snoc hprev _ =>
      rw [← append_assoc] at hh
      obtain ⟨rfl, -⟩ := append_inj' hh rfl
      exact ih hprev

theorem Ordered.allowed {a b : List Happening} {e : Happening} (hord : Ordered (a ++ e :: b)) : (ledger a).Allowed e := by
  have hfirst : Ordered (a ++ [e]) := by
    refine Ordered.of_append (b := b) ?_
    rwa [append_assoc, singleton_append]
  generalize hh : a ++ [e] = h at hfirst
  cases hfirst with
  | nil => simp at hh
  | snoc _ hallowed =>
    obtain ⟨rfl, he⟩ := append_inj' hh rfl
    cases he
    exact hallowed

/-! ## What each function does -/

/-- the calls of the handler in the loop of `process_input` -/
def loopCalls : ℕ → H → Connection → List Happening
  | 0, _, _ => []
  | fuel + 1, x, c =>
    if c.Callable then
      let (o, x) := handler x c.input.unread c.peerEof c.connectionId
      .called c o ::
        match turn c o with
        | .again c => loopCalls fuel x c
        | _ => []
    else []

def inputCalls (x : H) (c : Connection) : List Happening := loopCalls handler c.input.readable x c

/-- what `handle_read` receives, and the calls it makes -/
def readHappenings : List RecvResult → H → Connection → List Happening
  | script, x, c =>
    if c.closeAfterWrite ∨ c.asyncPending ∨ c.output.readable ≥ reactorOutputHighWater then inputCalls handler x c
    else
      match script with
      | .noMemory :: _ => []
      | script =>
        match c.input.reserve true reactorIoChunk with
        | none => []
        | some input =>
          let c := { c with input := input }
          match script with
          | [] => inputCalls handler x c
          | .received bytes :: rest =>
            match c.input.commit bytes with
            | none => [.received bytes]
            | some input =>
              let c := { c with input := input }
              .received bytes :: (inputCalls handler x c ++
                match processInput handler x c with
                | (_, none) => []
                | (x, some c) => readHappenings rest x c)
          | .closed :: _ => inputCalls handler x { c with peerEof := true }
          | .interrupted :: rest => readHappenings rest x c
          | .wouldBlock :: _ => inputCalls handler x c
          | .failed :: _ => []
          | .noMemory :: _ => []

/-- the bytes `send` takes during a flush -/
def taken {α : Type} : List SendResult → NetBuffer α → List α
  | script, b =>
    if b.readable = 0 then []
    else
      match script with
      | .written (n + 1) :: rest => b.unread.take (n + 1) ++ taken rest (b.consume (n + 1))
      | .interrupted :: rest => taken rest b
      | _ => []

/-- what `handle_write` sends, and the calls it makes when nothing is left to send -/
def writeHappenings (sends : List SendResult) (x : H) (c : Connection) : List Happening :=
  .sent ((taken sends c.output).map Prod.fst) ::
    match flushFd sends c.output with
    | (.drained, output, _) => if c.closeAfterWrite then [] else inputCalls handler x (c.flushed output)
    | _ => []

/-- a completion, and the calls that follow it -/
def completeHappenings (x : H) (c : Connection) (k : Completion H) : List Happening :=
  .completed k.response ::
    match c.output.append true (k.response.map fun b => (b, k.responseBarrier)) with
    | none => []
    | some output =>
      if k.closeAfterResponse then []
      else inputCalls handler x { c with
        output := output
        asyncPending := false
        responseBarrier := max c.responseBarrier k.responseBarrier }

/-! ## Lives -/

structure Life where
  connection : Option Connection
  history : List Happening

def Life.act (l : Life) (a : Act H) : Life :=
  match l.connection with
  | none => l
  | some c =>
    match a with
    | .hangup => ⟨some { c with peerEof := true }, l.history⟩
    | .read x recvs => ⟨(handleRead handler recvs x c).2, l.history ++ readHappenings handler recvs x c⟩
    | .write x sends ctl written =>
      ⟨(handleWrite handler sends ctl written x c).2.1, l.history ++ writeHappenings handler sends x c⟩
    | .complete x k =>
      if c.asyncPending = true ∧ k.response.length ≤ reactorMaxResponse then
        ⟨(completeConnection handler x c k).2, l.history ++ completeHappenings handler x c k⟩
      else l
    | .refresh ctl written => ⟨refreshClientEvents ctl written c, l.history⟩
    | .destroy => ⟨none, l.history⟩

def life (k : ℕ) (acts : List (Act H)) : Life :=
  acts.foldl (Life.act handler) ⟨some (clientCreate k), []⟩

/-! ## The buffers of a connection against its ledger -/

variable {c : Connection}

/-- the output is what was answered and not sent, the input what was received and not consumed -/
structure Tracks (c : Connection) (h : List Happening) : Prop where
  ordered : Ordered h
  inputSound : c.input.Sound
  outputSound : c.output.Sound
  output : (ledger h).responses = (ledger h).sent ++ c.output.unread.map Prod.fst
  input : c.closeAfterWrite = false → (ledger h).received = (ledger h).consumed ++ c.input.unread
  waiting : (ledger h).waiting.isSome = c.asyncPending

/-- the same for a connection that may be gone -/
structure Tracked (result : Option Connection) (h : List Happening) : Prop where
  ordered : Ordered h
  tracks : ∀ c, result = some c → Tracks c h

theorem tracked_none (hord : Ordered h) : Tracked none h := ⟨hord, by simp⟩

theorem Tracks.tracked (ht : Tracks c h) : Tracked (some c) h :=
  ⟨ht.ordered, fun d hd => by cases hd; exact ht⟩

/-- only the buffers and the two flags matter -/
theorem Tracks.congr {d : Connection} (ht : Tracks c h) (hin : d.input = c.input)
    (hout : d.output = c.output) (hclose : d.closeAfterWrite = c.closeAfterWrite) (hpending : d.asyncPending = c.asyncPending) :
    Tracks d h := by
  refine ⟨ht.ordered, ?_, ?_, ?_, ?_, ?_⟩
  · rw [hin]; exact ht.inputSound
  · rw [hout]; exact ht.outputSound
  · rw [hout]; exact ht.output
  · rw [hclose, hin]; exact ht.input
  · rw [hpending]; exact ht.waiting

theorem tracks_create (k : ℕ) : Tracks (clientCreate k) [] :=
  ⟨.nil, sound_init _, sound_init _, rfl, fun _ => rfl, rfl⟩

theorem Tracks.call_ordered (ht : Tracks c h) (hcall : c.Callable) (o : HandlerOutcome) :
    Ordered (h ++ [.called c o]) := by
  refine ht.ordered.snoc ⟨?_, ht.input hcall.2.2.1⟩
  rw [← not_isSome_iff_eq_none, ht.waiting, hcall.2.2.2]
  simp

/-- one round of `process_input` -/
theorem Tracks.turn {c' : Connection} {o : HandlerOutcome} (ht : Tracks c h) (hcall : c.Callable)
    (hturn : turn c o = .stopped c' ∨ turn c o = .again c') : Tracks c' (h ++ [.called c o]) := by
  have hord := ht.call_ordered hcall o
  have hnone : (ledger h).waiting = none := by
    rw [← not_isSome_iff_eq_none, ht.waiting, hcall.2.2.2]
    simp
  have hreceived := ht.input hcall.2.2.1
  simp only [Ledger.consumed, hnone, getD_none, append_nil] at hreceived
  have houtput := ht.output
  simp only [Ledger.responses] at houtput
  obtain ⟨output, hrespond, hcases⟩ := turn_spec hturn
  obtain ⟨hunread, hsound⟩ := respond_spec ht.outputSound hrespond
  have hbytes : output.unread.map Prod.fst = c.output.unread.map Prod.fst ++ o.bytes := by
    rw [hunread, map_append, List.map_map]
    simp [HandlerOutcome.bytes, Function.comp_def]
  have hmore : (ledger h).answered.flatMap Prod.snd ++ ((ledger h).written ++ o.bytes) =
      (ledger h).sent ++ output.unread.map Prod.fst := by
    rw [hbytes, ← append_assoc, houtput, append_assoc]
  rcases hcases with ⟨hresult, rfl⟩ | ⟨hresult, rfl⟩ | ⟨hresult, rfl⟩
  · refine ⟨hord, ht.inputSound, hsound, ?_, fun _ => ?_, ?_⟩
    · simpa [Ledger.add, hresult, Ledger.responses] using hmore
    · simpa [Ledger.add, hresult, Ledger.consumed, hnone] using hreceived
    · simpa [Ledger.add, hresult] using ht.waiting
  · refine ⟨hord, sound_consume ht.inputSound _, hsound, ?_, fun _ => ?_, ?_⟩
    · simpa [Ledger.add, hresult, Ledger.responses] using hmore
    · simp [Ledger.add, hresult, Ledger.consumed, unread_consume, hreceived]
    · simp [Ledger.add, hresult]
  · have hanswered : Tracks { c with
        input := c.input.consume o.consumed
        output := output
        responseBarrier := max c.responseBarrier o.responseBarrier } (h ++ [.called c o]) := by
      refine ⟨hord, sound_consume ht.inputSound _, hsound, ?_, fun _ => ?_, ?_⟩
      · simpa [Ledger.add, hresult, Ledger.responses] using hmore
      · simp [Ledger.add, hresult, Ledger.consumed, unread_consume, hreceived, hnone]
      · simpa [Ledger.add, hresult] using ht.waiting
    unfold Connection.answered
    dsimp only
    split_ifs
    · exact ⟨hanswered.ordered, sound_reset _, hanswered.outputSound, hanswered.output, by simp, hanswered.waiting⟩
    · exact hanswered

/-- the loop of `process_input` -/
theorem Tracks.processLoop (fuel : ℕ) (x : H) (ht : Tracks c h) :
    Tracked (processLoop handler fuel x c).2 (h ++ loopCalls handler fuel x c) := by
  induction fuel generalizing x c h with
  | zero => simpa [Net.processLoop, loopCalls] using ht.tracked
  | succ fuel ih =>
    rw [Net.processLoop, loopCalls]
    by_cases hcall : c.Callable
    swap
    · simpa [if_neg hcall] using ht.tracked
    rw [if_pos hcall, if_pos hcall]
    generalize handler x c.input.unread c.peerEof c.connectionId = answer
    obtain ⟨o, x'⟩ := answer
    dsimp only
    rw [append_cons]
    cases hturn : Net.turn c o with
    | failed => simpa using tracked_none (ht.call_ordered hcall o)
    | stopped c' => simpa using (ht.turn hcall (Or.inl hturn)).tracked
    | again c' => exact ih x' (ht.turn hcall (Or.inr hturn))

theorem Tracks.processInput (x : H) (ht : Tracks c h) :
    Tracked (processInput handler x c).2 (h ++ inputCalls handler x c) :=
  ht.processLoop handler c.input.readable x

theorem Tracks.reserved (ht : Tracks c h) {input : NetBuffer UInt8} {n : ℕ}
    (hr : c.input.reserve true n = some input) : Tracks { c with input := input } h := by
  refine ⟨ht.ordered, NetBuffer.sound_reserve ht.inputSound hr, ht.outputSound, ht.output, fun hopen => ?_, ht.waiting⟩
  rw [NetBuffer.unread_reserve hr]
  exact ht.input hopen

theorem Tracks.received (ht : Tracks c h) {input : NetBuffer UInt8} {bytes : Bytes}
    (hcommit : c.input.commit bytes = some input) : Tracks { c with input := input } (h ++ [.received bytes]) := by
  obtain ⟨hunread, hsound⟩ := NetBuffer.unread_commit ht.inputSound hcommit
  refine ⟨ht.ordered.snoc trivial, hsound, ht.outputSound, ?_, fun hopen => ?_, ?_⟩
  · simpa [Ledger.add, Ledger.responses] using ht.output
  · have hinput := ht.input hopen
    simp only [Ledger.consumed] at hinput
    simp [Ledger.add, Ledger.consumed, hinput, hunread]
  · simpa [Ledger.add] using ht.waiting

/-- `handle_read` -/
theorem Tracks.handleRead (script : List RecvResult) (x : H)
    (ht : Tracks c h) : Tracked (handleRead handler script x c).2 (h ++ readHappenings handler script x c) := by
  induction script generalizing x c h with
  | nil =>
    unfold Net.handleRead readHappenings
    split_ifs
    · exact ht.processInput handler x
    · cases hr : c.input.reserve true reactorIoChunk with
      | none => simpa using tracked_none ht.ordered
      | some input => exact (ht.reserved hr).processInput handler x
  | cons r rest ih =>
    unfold Net.handleRead readHappenings
    split_ifs
    · exact ht.processInput handler x
    cases hr : c.input.reserve true reactorIoChunk with
    | none => cases r <;> simpa using tracked_none ht.ordered
    | some input =>
      have hres := ht.reserved hr
      cases r with
      | noMemory | failed => simpa using tracked_none ht.ordered
      | wouldBlock => exact hres.processInput handler x
      | interrupted => exact ih x hres
      | closed =>
        have hclosed : Tracks { c with input := input, peerEof := true } h := hres.congr rfl rfl rfl rfl
        exact hclosed.processInput handler x
      | received bytes =>
        simp only
        cases hcommit : commit input bytes with
        | none => exact tracked_none (ht.ordered.snoc trivial)
        | some filled =>
          have hrec : Tracks { c with input := filled } (h ++ [.received bytes]) := hres.received hcommit
          have hproc := hrec.processInput handler x
          dsimp only
          rw [append_cons, ← append_assoc]
          generalize Net.processInput handler x { c with input := filled } = answer at hproc ⊢
          obtain ⟨x', result⟩ := answer
          cases result with
          | none => simpa using hproc
          | some d => exact ih x' (hproc.tracks d rfl)

/-- a flush splits the unread bytes -/
theorem taken_append {α : Type} (script : List SendResult) (b : NetBuffer α) :
    taken script b ++ (flushFd script b).2.1.unread = b.unread := by
  induction script generalizing b with
  | nil =>
    unfold taken flushFd
    split_ifs <;> simp
  | cons r rest ih =>
    unfold taken flushFd
    split_ifs
    · simp
    cases r with
    | written n =>
      cases n with
      | zero => simp
      | succ n =>
        simp only [append_assoc]
        rw [ih, unread_consume, take_append_drop]
    | interrupted => exact ih b
    | wouldBlock => simp
    | failed => simp

theorem Tracks.sent (ht : Tracks c h) (sends : List SendResult) :
    Tracks (c.flushed (flushFd sends c.output).2.1) (h ++ [.sent ((taken sends c.output).map Prod.fst)]) := by
  have hsplit : (ledger h).responses = (ledger h).sent ++ (taken sends c.output).map Prod.fst ++
      (flushFd sends c.output).2.1.unread.map Prod.fst := by
    rw [ht.output, append_assoc, ← map_append, taken_append]
  refine ⟨ht.ordered.snoc ?_, ht.inputSound, (NetBuffer.flushFd_spec sends c.output ht.outputSound).2.1, ?_, fun hopen => ?_, ?_⟩
  · exact ⟨_, hsplit.symm⟩
  · simpa [Ledger.add, Connection.flushed, Ledger.responses] using hsplit
  · simpa [Ledger.add, Ledger.consumed, Connection.flushed] using ht.input hopen
  · simpa [Ledger.add, Connection.flushed] using ht.waiting

theorem Tracked.refresh {result : Option Connection} {ctl : Bool} {written : ℕ}
    (ht : Tracks c h) (hresult : result = refreshClientEvents ctl written c) : Tracked result h := by
  refine ⟨ht.ordered, fun d hd => ?_⟩
  rw [hresult] at hd
  unfold refreshClientEvents at hd
  dsimp only at hd
  split_ifs at hd
  · cases hd; exact ht
  · cases hd; exact ht.congr rfl rfl rfl rfl

/-- `handle_write` -/
theorem Tracks.handleWrite (sends : List SendResult) (ctl : Bool) (written : ℕ) (x : H) (ht : Tracks c h) :
    Tracked (handleWrite handler sends ctl written x c).2.1 (h ++ writeHappenings handler sends x c) := by
  have hsent := ht.sent sends
  unfold Net.handleWrite writeHappenings
  rw [append_cons]
  generalize flushFd sends c.output = answer at hsent ⊢
  obtain ⟨result, output, passed⟩ := answer
  cases result with
  | failed => simpa using tracked_none hsent.ordered
  | blocked => simpa using Tracked.refresh hsent rfl
  | drained =>
    have hclosing : (c.flushed output).closeAfterWrite = c.closeAfterWrite := rfl
    simp only [reduceCtorEq, if_false, hclosing]
    cases c.closeAfterWrite with
    | true => simpa using tracked_none hsent.ordered
    | false =>
      have hproc := hsent.processInput handler x
      simp only [Bool.false_eq_true, if_false]
      dsimp only at hproc
      generalize Net.processInput handler x (c.flushed output) = answer at hproc ⊢
      obtain ⟨x', result⟩ := answer
      cases result with
      | none => exact hproc
      | some d =>
        simp only
        split_ifs
        · exact tracked_none hproc.ordered
        · exact Tracked.refresh (hproc.tracks d rfl) rfl

/-- `reactor_complete_response` -/
theorem Tracks.completeConnection (x : H) (k : Completion H) (ht : Tracks c h) (hpending : c.asyncPending = true) :
    Tracked (completeConnection handler x c k).2 (h ++ completeHappenings handler x c k) := by
  have hwaiting : (ledger h).waiting.isSome = true := by rw [ht.waiting, hpending]
  obtain ⟨request, hrequest⟩ := isSome_iff_exists.1 hwaiting
  have hord : Ordered (h ++ [.completed k.response]) := ht.ordered.snoc hwaiting
  unfold Net.completeConnection completeHappenings
  rw [append_cons]
  cases happend : c.output.append true (k.response.map fun b => (b, k.responseBarrier)) with
  | none => simpa using tracked_none hord
  | some output =>
    obtain ⟨hunread, hsound⟩ := NetBuffer.unread_append ht.outputSound happend
    have hdone : Tracks { c with
        output := output
        asyncPending := false
        responseBarrier := max c.responseBarrier k.responseBarrier } (h ++ [.completed k.response]) := by
      have houtput := ht.output
      simp only [Ledger.responses] at houtput
      refine ⟨hord, ht.inputSound, hsound, ?_, fun hopen => ?_, ?_⟩
      · simp only [ledger_snoc, Ledger.add, hrequest, Ledger.responses, hunread, flatMap_append, flatMap_singleton,
          append_nil, map_append, List.map_map]
        rw [← append_assoc, houtput, append_assoc]
        simp [Function.comp_def]
      · have hinput := ht.input hopen
        simp only [Ledger.consumed, hrequest, getD_some] at hinput
        simp [Ledger.add, hrequest, Ledger.consumed, hinput]
      · simp [Ledger.add, hrequest]
    simp only
    split_ifs
    · rw [append_nil]
      exact Tracks.tracked
        ⟨hdone.ordered, sound_reset _, hdone.outputSound, hdone.output, by simp, hdone.waiting⟩
    · exact hdone.processInput handler x

/-! ## Whole lives -/

theorem Tracked.act {l : Life} (ht : Tracked l.connection l.history) (a : Act H) :
    Tracked (l.act handler a).connection (l.act handler a).history := by
  unfold Life.act
  cases hc : l.connection with
  | none => exact ht
  | some c =>
    have hcur := ht.tracks c hc
    cases a with
    | hangup =>
      have hhup : Tracks { c with peerEof := true } l.history := hcur.congr rfl rfl rfl rfl
      exact hhup.tracked
    | read x recvs => exact hcur.handleRead handler recvs x
    | write x sends ctl written => exact hcur.handleWrite handler sends ctl written x
    | complete x k =>
      simp only
      split_ifs with h
      · exact hcur.completeConnection handler x k h.1
      · exact ht
    | refresh ctl written => exact Tracked.refresh hcur rfl
    | destroy => exact tracked_none ht.ordered

theorem life_tracked (k : ℕ) (acts : List (Act H)) :
    Tracked (life handler k acts).connection (life handler k acts).history := by
  unfold life
  suffices hrun : ∀ l : Life, Tracked l.connection l.history →
      Tracked (acts.foldl (Life.act handler) l).connection (acts.foldl (Life.act handler) l).history from
    hrun _ (tracks_create k).tracked
  induction acts with
  | nil => exact fun l hl => hl
  | cons a acts ih => exact fun l hl => ih _ (hl.act handler a)

/-- **Responses leave in the order of their requests.** At every moment `a` of every life the bytes sent are the beginning of
the responses listed in the order of the consumed requests, and these are the beginning of what was received; a call of the
handler gets exactly the bytes received behind the consumed requests, and none is made while a request waits. -/
theorem output_in_order (k : ℕ) (acts : List (Act H)) (a b : List Happening) (hsplit : (life handler k acts).history = a ++ b) :
    (ledger a).sent <+: (ledger a).responses ∧ (ledger a).consumed <+: (ledger a).received ∧
      ∀ c o rest, b = .called c o :: rest →
        (ledger a).waiting = none ∧ (ledger a).received = (ledger a).consumed ++ c.input.unread := by
  have hord : Ordered (a ++ b) := hsplit ▸ (life_tracked handler k acts).ordered
  refine ⟨hord.of_append.sent_prefix, hord.of_append.consumed_prefix, fun c o rest hb => ?_⟩
  subst hb
  exact hord.allowed

/-- two requests, the second received while the first response is half sent -/
def halfSent : List (Act Unit) :=
  [.read () [.received [98]], .write () [.written 20] true 0, .read () [.received [98, 97]], .write () [.written 60] true 0]

/-- after the first flush 20 bytes of the first response are sent, then the second request is handed over -/
theorem output_in_order_half_sent :
    ∃ a c o rest, (life bytewise 1 halfSent).history = a ++ .called c o :: rest ∧ c.input.unread = [98, 97] ∧
      (ledger a).sent = List.replicate 20 46 ∧ (ledger a).sent <+: (ledger a).responses ∧
      (ledger a).received = (ledger a).consumed ++ c.input.unread := by
  have hhistory : (life bytewise 1 halfSent).history =
      (life bytewise 1 halfSent).history.take 4 ++ (life bytewise 1 halfSent).history.drop 4 := by
    rw [take_append_drop]
  have hnext : (life bytewise 1 halfSent).history.drop 4 =
      .called { clientCreate 1 with
          events := ⟨true, true, true, false⟩
          input := ⟨[98, 97], 0, 4096⟩
          output := ⟨List.replicate 50 (46, 0), 20, 512⟩ } (bytewise () [98, 97] false 1).1 ::
        (life bytewise 1 halfSent).history.drop 5 := by
    decide +kernel
  obtain ⟨hsent, -, hcalls⟩ := output_in_order bytewise 1 halfSent _ _ hhistory
  exact ⟨_, _, _, _, hhistory.trans (by rw [hnext]), rfl, by decide +kernel, hsent, (hcalls _ _ _ hnext).2⟩

/-! ## The connections of the reactor -/

theorem act_connection (l : Life) (a : Act H) : (l.act handler a).connection = l.connection.bind fun c => c.act handler a := by
  obtain ⟨connection, history⟩ := l
  cases connection with
  | none => rfl
  | some c =>
    cases a with
    | complete x k =>
      simp only [Life.act, Connection.act, bind_some]
      split_ifs <;> rfl
    | _ => rfl

theorem acts_connection (acts : List (Act H)) (l : Life) :
    (acts.foldl (Life.act handler) l).connection = l.connection.bind fun c => c.acts handler acts := by
  induction acts generalizing l with
  | nil => cases hc : l.connection <;> exact hc
  | cons a acts ih =>
    rw [foldl_cons, ih, act_connection, bind_assoc]
    rfl

/-- what the steps of a run do with the connection of this id -/
def acted (k : ℕ) : Reactor H → List (Label H) → List (Act H)
  | _, [] => []
  | r, l :: ls => actsOf handler k r l ++ (step handler r l).elim [] fun q => acted k q ls

/-- where the connections of a run come from -/
theorem run_clients (ls : List (Label H)) {r r' : Reactor H} (h : run handler r ls = some r')
    {c' : Connection} (hc' : c' ∈ r'.clients) :
    (∃ c ∈ r.clients, c.connectionId = c'.connectionId ∧ c.acts handler (acted handler c'.connectionId r ls) = some c') ∨
      ∃ before count after q, ls = before ++ .accepted count :: after ∧
        run handler r (before ++ [.accepted count]) = some q ∧ clientCreate c'.connectionId ∈ q.clients ∧
        (clientCreate c'.connectionId).acts handler (acted handler c'.connectionId q after) = some c' := by
  induction ls generalizing r with
  | nil =>
    cases h
    exact Or.inl ⟨c', hc', rfl, rfl⟩
  | cons l ls ih =>
    simp only [run, bind_eq_some_iff] at h
    obtain ⟨q, hq, hrest⟩ := h
    rcases ih hrest with ⟨d, hd, hid, hacts⟩ | ⟨before, count, after, q', rfl, hbefore, hmem, hacts⟩
    · rcases step_clients hq hd with ⟨count, rfl, hnew⟩ | ⟨c, hc, hcid, hstep⟩
      · rw [hid] at hnew
        exact Or.inr ⟨[], count, ls, q, rfl, by simp [run, hq], hnew ▸ hd, hnew ▸ hacts⟩
      · refine Or.inl ⟨c, hc, hcid.trans hid, ?_⟩
        rw [hid] at hstep
        rw [acted, hq, acts_append, hstep]
        exact hacts
    · exact Or.inr ⟨l :: before, count, after, q', rfl, by simp [run, hq, hbefore], hmem, hacts⟩

/-- **Every connection of every run of the reactor has such a life.** It begins with its creation by `handle_accept`, and its
acts are what the later steps of the run do with the connection of this id, so that `output_in_order` speaks about what the
run received, executed and sent for it. -/
theorem client_has_life (x : H) (ls : List (Label H)) {r : Reactor H}
    (h : run handler (reactorInit x) ls = some r) {c : Connection} (hc : c ∈ r.clients) :
    ∃ before count after q, ls = before ++ .accepted count :: after ∧
      run handler (reactorInit x) (before ++ [.accepted count]) = some q ∧ clientCreate c.connectionId ∈ q.clients ∧
      (life handler c.connectionId (acted handler c.connectionId q after)).connection = some c := by
  rcases run_clients handler ls h hc with ⟨_, hmem, _⟩ | ⟨before, count, after, q, hls, hbefore, hnew, hacts⟩
  · cases hmem
  · exact ⟨before, count, after, q, hls, hbefore, hnew, (acts_connection handler _ _).trans hacts⟩

/-- the connection with one response half sent and the next one queued behind it -/
theorem client_has_life_queued : ∃ r, run pingSetHandler (reactorInit ()) setQueued = some r ∧ ∃ c ∈ r.clients,
    c.output.readable = 11 ∧ ∃ before count after q, setQueued = before ++ .accepted count :: after ∧
      run pingSetHandler (reactorInit ()) (before ++ [.accepted count]) = some q ∧ clientCreate c.connectionId ∈ q.clients ∧
      (life pingSetHandler c.connectionId (acted pingSetHandler c.connectionId q after)).connection = some c := by
  obtain ⟨r, hrun, hview⟩ := setQueued_runs
  obtain ⟨c, hclients, hc⟩ := map_eq_singleton_iff.1 hview
  have hmem : c ∈ r.clients := by rw [hclients]; exact mem_singleton_self c
  have hlength := congrArg (fun v => v.1.length) hc
  rw [length_map, ← NetBuffer.readable_eq_length] at hlength
  exact ⟨r, hrun, c, hmem, hlength, client_has_life _ () _ hrun hmem⟩

end StoreSystem.Net
