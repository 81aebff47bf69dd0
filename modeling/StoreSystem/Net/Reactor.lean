/-
The epoll reactor (`src/net/reactor.c`): one thread that accepts connections, reads requests, calls the request handler,
queues responses and sends them, with a response barrier that is meant to hold a response back until the AOF has written
the transaction it reports.

The reactor thread moves in steps: one return of `epoll_wait`, the part of the loop body up to `handle_write`, the flush
handler with `handle_write`, the end of a batch. The AOF writer thread can move between any two of them; how far it gets
during a step, before the step looks at the barrier again, is an input of that step, and so are the results of `recv`,
`send`, `epoll_ctl` and the allocations. The request handler is an arbitrary function of its context and its input.

Every byte of an output buffer carries the barrier of the response it belongs to, and `passed` records what each call of
`send` was given together with the sequence written at that time.

Premises: the output of a completed response gets its memory; the sequence written does not change while a wake-up refreshes
the clients; a connection that `handle_accept` cannot create takes no id. An event of a connection that an earlier event of
the same batch destroyed is skipped here; the loop of `reactor_run` follows the freed pointer, and nothing is said about it.

A round of `process_input` is one call of the request handler and the checks behind it (`turn`); what the rounds keep, the
functions built on them keep (`Steady`). What a step does with one connection is a list of acts (`actsOf`), and every
connection comes from its creation by such acts (`step_clients`).

Results:
- `run_covered`: in every state reached, the barrier of a connection covers every byte still in its output;
- `send_waits_for_barrier`: in a run in which every `handle_write` finds the barrier of its connection ready, no byte is
  passed to `send` before its barrier is ready;
- `send_overtakes_barrier`: `handle_write` itself does not look at the barrier. One wake-up that reports a connection
  readable and writable sends the reply of the write command it has just read.
-/
import Mathlib.Tactic
import StoreSystem.Net.Buffer

namespace StoreSystem.Net

open List Option
open NetBuffer (SendResult flushFd unread_append flushFd_spec)

/-! ## Connections -/

def reactorIoChunk : ℕ := 4096

def reactorInitialBuffer : ℕ := 512

def reactorMaxRequest : ℕ := 64 * 1024

def reactorMaxResponse : ℕ := 1024 * 1024

def reactorOutputHighWater : ℕ := 1024 * 1024

/-- the bits of an epoll mask the reactor uses; `EPOLLERR` and `EPOLLHUP` are one bit -/
structure Mask where
  epollin : Bool
  epollout : Bool
  epollrdhup : Bool
  epollerr : Bool
deriving DecidableEq, Repr

/-- a byte of a response, with the barrier its handler call returned -/
abbrev OutByte := UInt8 × ℕ

/-- `struct reactor_connection` of a client -/
structure Connection where
  connectionId : ℕ
  events : Mask
  peerEof : Bool
  closeAfterWrite : Bool
  asyncPending : Bool
  responseBarrier : ℕ
  input : NetBuffer UInt8
  output : NetBuffer OutByte
deriving DecidableEq, Repr

/-- `client_create`, with the interest set of `handle_accept` -/
def clientCreate (connectionId : ℕ) : Connection :=
  ⟨connectionId, ⟨true, false, true, false⟩, false, false, false, 0, .init reactorInitialBuffer,
    .init reactorInitialBuffer⟩

inductive HandlerResult
  | error
  | incomplete
  | complete
  | deferred
deriving DecidableEq, Repr

/-- one write of a handler to the output buffer: `net_buffer_append`, or `net_buffer_write_pointer` for some number of bytes
and `net_buffer_commit` of those it has written there -/
inductive Write
  | append (bytes : Bytes)
  | pointer (additional : ℕ) (bytes : Bytes)
deriving DecidableEq, Repr

/-- what one call of the request handler reports; `response` lists its writes to the output buffer -/
structure HandlerOutcome where
  result : HandlerResult
  consumed : ℕ
  response : List Write
  closeAfterResponse : Bool
  responseBarrier : ℕ
deriving DecidableEq, Repr

/-- `reactor_request_handler`: context, input, end of stream and request token -/
abbrev Handler (H : Type) := H → Bytes → Bool → ℕ → HandlerOutcome × H

/-- only a completed request has a response, so only its bytes carry a barrier -/
def HandlerOutcome.tag (o : HandlerOutcome) : ℕ := if o.result = .complete then o.responseBarrier else 0

def write (tag : ℕ) (output : NetBuffer OutByte) : Write → Option (NetBuffer OutByte)
  | .append bytes => output.append true (bytes.map fun x => (x, tag))
  | .pointer additional bytes => (output.reserve true additional).bind fun b => b.commit (bytes.map fun x => (x, tag))

/-- the handler's writes to the output buffer -/
def respond (tag : ℕ) (output : NetBuffer OutByte) (writes : List Write) : Option (NetBuffer OutByte) :=
  writes.foldlM (write tag) output

/-! ## Reading and writing one connection -/

variable {H : Type} (handler : Handler H)

/-- how a round ends: with the return value -1, with the end of the loop, or with another round -/
inductive Turn
  | failed
  | stopped (c : Connection)
  | again (c : Connection)
deriving DecidableEq

/-- the condition of the loop -/
def Connection.Callable (c : Connection) : Prop :=
  0 < c.input.readable ∧ c.output.readable < reactorOutputHighWater ∧ c.closeAfterWrite = false ∧ c.asyncPending = false

instance (c : Connection) : Decidable c.Callable := by
  unfold Connection.Callable
  infer_instance

/-- a response is queued: the input is consumed and the barrier is raised -/
def Connection.answered (c : Connection) (o : HandlerOutcome) (output : NetBuffer OutByte) : Connection :=
  let c := { c with
    input := c.input.consume o.consumed
    output := output
    responseBarrier := max c.responseBarrier o.responseBarrier }
  if o.closeAfterResponse then { c with closeAfterWrite := true, input := c.input.reset } else c

/-- what a round does with the outcome of the handler -/
def turn (c : Connection) (o : HandlerOutcome) : Turn :=
  match respond o.tag c.output o.response with
  | none => .failed
  | some output =>
    match o.result with
    | .incomplete => if c.input.readable > reactorMaxRequest then .failed else .stopped { c with output := output }
    | .error => .failed
    | .complete =>
      if o.consumed = 0 ∨ o.consumed > c.input.readable ∨ output.writePos < c.output.writePos ∨
          output.writePos - c.output.writePos > reactorMaxResponse then .failed
      else .again (c.answered o output)
    | .deferred =>
      if o.consumed = 0 ∨ o.consumed > c.input.readable ∨ output.writePos ≠ c.output.writePos ∨
          o.closeAfterResponse ∨ o.responseBarrier ≠ 0 then .failed
      else .stopped { c with input := c.input.consume o.consumed, output := output, asyncPending := true }

/-- the loop of `process_input`, `fuel` bounding the bytes left to consume; `none` is the return value -1 -/
def processLoop : ℕ → H → Connection → H × Option Connection
  | 0, x, c => (x, some c)
  | fuel + 1, x, c =>
    if c.Callable then
      let (o, x) := handler x c.input.unread c.peerEof c.connectionId
      match turn c o with
      | .failed => (x, none)
      | .stopped c => (x, some c)
      | .again c => processLoop fuel x c
    else (x, some c)

def processInput (x : H) (c : Connection) : H × Option Connection :=
  processLoop handler c.input.readable x c

/-- what one call of `recv` does -/
inductive RecvResult
  | received (bytes : Bytes)
  | closed
  | interrupted
  | wouldBlock
  | failed
  | noMemory
deriving DecidableEq, Repr

/-- `handle_read` up to the refresh; a `recv` past the end of the script would block -/
def handleRead : List RecvResult → H → Connection → H × Option Connection
  | script, x, c =>
    if c.closeAfterWrite ∨ c.asyncPending ∨ c.output.readable ≥ reactorOutputHighWater then processInput handler x c
    else
      match script with
      | .noMemory :: _ => (x, none)
      | script =>
        match c.input.reserve true reactorIoChunk with
        | none => (x, none)
        | some input =>
          let c := { c with input := input }
          match script with
          | [] => processInput handler x c
          | .received bytes :: rest =>
            match c.input.commit bytes with
            | none => (x, none)
            | some input =>
              match processInput handler x { c with input := input } with
              | (x, none) => (x, none)
              | (x, some c) => handleRead rest x c
          | .closed :: _ => processInput handler x { c with peerEof := true }
          | .interrupted :: rest => handleRead rest x c
          | .wouldBlock :: _ => processInput handler x c
          | .failed :: _ => (x, none)
          | .noMemory :: _ => (x, none)

/-- the barrier handler `aof_barrier_ready`: `aof_sequence_ready` against the sequence the AOF writer has reached -/
def barrierReady (written sequence : ℕ) : Bool := sequence == 0 || decide (sequence ≤ written)

/-- `refresh_client_events`; `ctl` is what `epoll_ctl` does if the interest set changes -/
def refreshClientEvents (ctl : Bool) (written : ℕ) (c : Connection) : Option Connection :=
  let events : Mask :=
    { epollin := !c.peerEof && !c.closeAfterWrite && !c.asyncPending && decide (c.output.readable < reactorOutputHighWater)
      epollout := decide (0 < c.output.readable) && barrierReady written c.responseBarrier
      epollrdhup := true
      epollerr := false }
  if c.events = events then some c else if ctl then some { c with events := events } else none

/-- the barrier is forgotten once nothing is left to send -/
def Connection.flushed (c : Connection) (output : NetBuffer OutByte) : Connection :=
  { c with output := output, responseBarrier := if output.readable = 0 then 0 else c.responseBarrier }

/-- the `written` argument is the sequence reached when the refresh looks at the barrier -/
def handleWrite (sends : List SendResult) (ctl : Bool) (written : ℕ) (x : H)
    (c : Connection) : H × Option Connection × List (List OutByte) :=
  match flushFd sends c.output with
  | (.failed, _, passed) => (x, none, passed)
  | (result, output, passed) =>
    let c := c.flushed output
    if result = .blocked then (x, refreshClientEvents ctl written c, passed)
    else if c.closeAfterWrite then (x, none, passed)
    else
      match processInput handler x c with
      | (x, none) => (x, none, passed)
      | (x, some c) =>
        if c.peerEof ∧ c.output.readable = 0 then (x, none, passed) else (x, refreshClientEvents ctl written c, passed)

/-! ## The reactor -/

/-- an entry of the array `epoll_wait` fills -/
inductive Event
  | listener (failed : Bool)
  | wake (failed : Bool)
  | timer (failed : Bool)
  | client (connectionId : ℕ) (active : Mask)
deriving DecidableEq, Repr

/-- where the reactor thread is -/
inductive Pc
  | waiting
  | batch (rest : List Event)
  | writing (connectionId : ℕ) (rest : List Event)
  | stopped
deriving DecidableEq, Repr

/-- one call of `send`: the bytes it was given, and the sequence the AOF writer had reached -/
structure Passed where
  bytes : List OutByte
  written : ℕ
deriving DecidableEq, Repr

/-- `struct reactor`, with the context of the handlers, the sequence the AOF writer has reached, the position of the
reactor thread and the record of the calls of `send` -/
structure Reactor (H : Type) where
  clients : List Connection
  nextConnectionId : ℕ
  context : H
  written : ℕ
  pc : Pc
  passed : List Passed
deriving Repr

section

variable (x : H) (r : Reactor H)

def reactorInit : Reactor H := ⟨[], 0, x, 0, .waiting, []⟩

def Reactor.client (connectionId : ℕ) : Option Connection :=
  r.clients.find? fun c => c.connectionId = connectionId

def Reactor.setClient (c : Connection) : Reactor H :=
  { r with clients := r.clients.map fun d => if d.connectionId = c.connectionId then c else d }

def Reactor.connectionDestroy (connectionId : ℕ) : Reactor H :=
  { r with clients := r.clients.filter fun c => c.connectionId ≠ connectionId }

/-- `next_connection_id` skips 0 when it wraps -/
def nextId (n : ℕ) : ℕ := if (n + 1) % 2 ^ 64 = 0 then 1 else (n + 1) % 2 ^ 64

/-- `handle_accept` of `count` connections; those it fails to create are not counted -/
def handleAccept : ℕ → Reactor H → Reactor H
  | 0, r => r
  | count + 1, r =>
    handleAccept count
      { r with clients := clientCreate (nextId r.nextConnectionId) :: r.clients, nextConnectionId := nextId r.nextConnectionId }

/-- a call of `reactor_complete_response` by the async handler, with the handler context at that time -/
structure Completion (H : Type) where
  context : H
  connectionId : ℕ
  response : Bytes
  closeAfterResponse : Bool
  responseBarrier : ℕ
deriving Repr

/-- `reactor_complete_response` for the pending connection it has found; the append gets its memory -/
def completeConnection (c : Connection) (k : Completion H) : H × Option Connection :=
  match c.output.append true (k.response.map fun b => (b, k.responseBarrier)) with
  | none => (x, none)
  | some output =>
    let c := { c with
      output := output
      asyncPending := false
      responseBarrier := max c.responseBarrier k.responseBarrier }
    if k.closeAfterResponse then (x, some { c with closeAfterWrite := true, input := c.input.reset })
    else processInput handler x c

/-- the connection is destroyed if that fails -/
def completePending (c : Connection) (k : Completion H) : Reactor H :=
  match completeConnection handler r.context c k with
  | (x, none) => { r with context := x }.connectionDestroy k.connectionId
  | (x, some c) => { r with context := x }.setClient c

def reactorCompleteResponse (k : Completion H) : Reactor H :=
  let r := { r with context := k.context }
  if k.connectionId = 0 ∨ k.response.length > reactorMaxResponse then r
  else
    match r.client k.connectionId with
    | none => r
    | some c => if c.asyncPending then completePending handler r c k else r

/-- the second half of `drain_wake_fd`: refresh every client against one sequence, `failing` listing the clients whose
`epoll_ctl` fails -/
def refreshAll (failing : List ℕ) (r : Reactor H) : Reactor H :=
  { r with clients := r.clients.filterMap fun c => refreshClientEvents (c.connectionId ∉ failing) r.written c }

/-- the end of the loop body of `reactor_run` for a client -/
def settle (connectionId : ℕ) (result : Option Connection) : Reactor H :=
  match result with
  | none => r.connectionDestroy connectionId
  | some c => if c.peerEof ∧ c.output.readable = 0 then r.connectionDestroy connectionId else r.setClient c

/-- one step of the system, with everything the code does not decide -/
inductive Label (H : Type)
  /-- the AOF writer thread gets `n` sequences further -/
  | writer (n : ℕ)
  | epollWait (events : List Event)
  | accepted (count : ℕ)
  /-- the wake-up of the async handler, its completions, whether it succeeds, the writer's progress meanwhile -/
  | woken (completions : List (Completion H)) (ok : Bool) (progress : ℕ) (failing : List ℕ)
  /-- the periodic handler -/
  | ticked (context : H) (ok : Bool)
  /-- a client event up to `handle_write` -/
  | read (recvs : List RecvResult) (progress : ℕ) (ctl : Bool)
  /-- the flush handler and `handle_write` -/
  | write (context : H) (flushed : Bool) (sends : List SendResult) (progress : ℕ) (ctl : Bool)
  /-- the flush handler at the end of a batch -/
  | batchEnd (context : H) (flushed : Bool)
deriving Repr

/-- what `epoll_wait` may report: bits of the interest set, hang-ups and errors at any time, each connection once -/
def reported (events : List Event) : Bool :=
  (events.all fun e =>
    match e with
    | .client k active =>
      r.clients.any fun c =>
        c.connectionId == k && (!active.epollin || c.events.epollin) && (!active.epollout || c.events.epollout)
    | _ => true) &&
  decide (events.filterMap fun e => match e with | .client k _ => some k | _ => none).Nodup

/-- the `EPOLLIN` branch of the loop body -/
def readPart (active : Mask) (recvs : List RecvResult) (ctl : Bool) (written : ℕ) (x : H)
    (c : Connection) : H × Option Connection :=
  if active.epollin then
    match handleRead handler recvs x c with
    | (x, none) => (x, none)
    | (x, some c) => (x, refreshClientEvents ctl written c)
  else (x, some c)

/-- the loop body of `reactor_run` for a client, up to the flush handler and `handle_write`; the event of a client that is
gone, whose memory the code would use, is skipped -/
def clientRead (k : ℕ) (active : Mask) (rest : List Event) (recvs : List RecvResult) (progress : ℕ) (ctl : Bool) : Reactor H :=
  match r.client k with
  | none => { r with pc := .batch rest }
  | some c =>
    if active.epollerr then { r with pc := .batch rest }.connectionDestroy k
    else
      let (x, result) := readPart handler active recvs ctl (r.written + progress) r.context
        { c with peerEof := c.peerEof || active.epollrdhup }
      let r := { r with context := x, written := r.written + progress }
      match result, active.epollout with
      | some c, true => { r with pc := .writing k rest }.setClient c
      | result, _ => settle { r with pc := .batch rest } k result

def clientWrite (k : ℕ) (rest : List Event) (sends : List SendResult) (progress : ℕ) (ctl : Bool) : Reactor H :=
  match r.client k with
  | none => { r with pc := .batch rest }
  | some c =>
    let (x, result, passed) := handleWrite handler sends ctl (r.written + progress) r.context c
    settle { r with
      context := x
      pc := .batch rest
      passed := r.passed ++ passed.map fun bytes => ⟨bytes, r.written⟩
      written := r.written + progress } k result

/-- `reactor_run`, step by step; `none` when the step is not the thread's next one -/
def step : Label H → Option (Reactor H)
  | .writer n => some { r with written := r.written + n }
  | .epollWait events =>
    if r.pc = .waiting ∧ reported r events = true then some { r with pc := .batch events } else none
  | .accepted count =>
    match r.pc with
    | .batch (.listener failed :: rest) =>
      if failed then some { r with pc := .stopped } else some (handleAccept count { r with pc := .batch rest })
    | _ => none
  | .woken completions ok progress failing =>
    match r.pc with
    | .batch (.wake failed :: rest) =>
      if failed then some { r with pc := .stopped }
      else
        let r := completions.foldl (reactorCompleteResponse handler) { r with pc := .batch rest }
        if ok then some (refreshAll failing { r with written := r.written + progress }) else some { r with pc := .stopped }
    | _ => none
  | .ticked context ok =>
    match r.pc with
    | .batch (.timer failed :: rest) =>
      if failed = true ∨ ok = false then some { r with pc := .stopped }
      else some { r with pc := .batch rest, context := context }
    | _ => none
  | .read recvs progress ctl =>
    match r.pc with
    | .batch (.client k active :: rest) => some (clientRead handler r k active rest recvs progress ctl)
    | _ => none
  | .write context flushed sends progress ctl =>
    match r.pc with
    | .writing k rest =>
      if flushed then some (clientWrite handler { r with context := context } k rest sends progress ctl)
      else some { r with context := context, clients := [], pc := .waiting }
    | _ => none
  | .batchEnd context flushed =>
    if r.pc = .batch [] then
      some { r with context := context, clients := if flushed then r.clients else [], pc := .waiting }
    else none

def run (r : Reactor H) : List (Label H) → Option (Reactor H)
  | [] => some r
  | l :: ls => (step handler r l).bind fun r => run r ls

end

/-! ## What the functions of the reactor keep -/

variable {c c' : Connection} {written : ℕ} {l : Label H} {r r' : Reactor H}

/-- what a round leaves if it does not fail -/
theorem turn_spec {o : HandlerOutcome} (h : turn c o = .stopped c' ∨ turn c o = .again c') :
    ∃ output, respond o.tag c.output o.response = some output ∧
      ((o.result = .incomplete ∧ c' = { c with output := output }) ∨
        (o.result = .deferred ∧ c' = { c with input := c.input.consume o.consumed, output := output, asyncPending := true }) ∨
        (o.result = .complete ∧ c' = c.answered o output)) := by
  unfold turn at h
  cases hrespond : respond o.tag c.output o.response with
  | none => simp [hrespond] at h
  | some output =>
    refine ⟨output, rfl, ?_⟩
    simp only [hrespond] at h
    cases hresult : o.result with
    | error => simp [hresult] at h
    | incomplete =>
      simp only [hresult] at h
      split_ifs at h
      · simp at h
      · rcases h with h | h <;> cases h
        exact Or.inl ⟨rfl, rfl⟩
    | deferred =>
      simp only [hresult] at h
      split_ifs at h
      · simp at h
      · rcases h with h | h <;> cases h
        exact Or.inr (Or.inl ⟨rfl, rfl⟩)
    | complete =>
      simp only [hresult] at h
      split_ifs at h
      · simp at h
      · rcases h with h | h <;> cases h
        exact Or.inr (Or.inr ⟨rfl, rfl⟩)

/-- a property of connections that a round keeps, and the writes to a connection outside the rounds -/
structure Steady (P : Connection → Prop) : Prop where
  turn : ∀ {c c' o}, P c → turn c o = .stopped c' ∨ turn c o = .again c' → P c'
  input : ∀ {c} input, P c → P { c with input := input }
  hangup : ∀ {c}, P c → P { c with peerEof := true }
  events : ∀ {c} events, P c → P { c with events := events }
  flushed : ∀ {c} sends, P c → P (c.flushed (flushFd sends c.output).2.1)
  closing : ∀ {c}, P c → P { c with closeAfterWrite := true, input := c.input.reset }
  completed : ∀ {c barrier output} {response : Bytes}, P c → c.output.append true (response.map fun b => (b, barrier)) = some output →
    P { c with output := output, asyncPending := false, responseBarrier := max c.responseBarrier barrier }

/-- what the reactor does with a connection -/
inductive Act (H : Type)
  | hangup
  | read (x : H) (recvs : List RecvResult)
  | write (x : H) (sends : List SendResult) (ctl : Bool) (written : ℕ)
  | complete (x : H) (k : Completion H)
  | refresh (ctl : Bool) (written : ℕ)
  | destroy

def Connection.act (c : Connection) : Act H → Option Connection
  | .hangup => some { c with peerEof := true }
  | .read x recvs => (handleRead handler recvs x c).2
  | .write x sends ctl written => (handleWrite handler sends ctl written x c).2.1
  | .complete x k =>
    if c.asyncPending = true ∧ k.response.length ≤ reactorMaxResponse then (completeConnection handler x c k).2 else some c
  | .refresh ctl written => refreshClientEvents ctl written c
  | .destroy => none

def Connection.acts (c : Connection) (acts : List (Act H)) : Option Connection :=
  acts.foldlM (Connection.act handler) c

section Steady

variable {handler} {P : Connection → Prop} {x : H} {c c' : Connection}

section

variable (hP : Steady P)
include hP

theorem Steady.processLoop (fuel : ℕ) (hc : P c) (h : (processLoop handler fuel x c).2 = some c') : P c' := by
  induction fuel generalizing x c with
  | zero =>
    cases h
    exact hc
  | succ fuel ih =>
    unfold Net.processLoop at h
    dsimp only at h
    split_ifs at h
    · cases hturn : Net.turn c (handler x c.input.unread c.peerEof c.connectionId).1 with
      | failed => simp [hturn] at h
      | stopped d =>
        simp only [hturn, Option.some.injEq] at h
        exact h ▸ hP.turn hc (Or.inl hturn)
      | again d =>
        simp only [hturn] at h
        exact ih (hP.turn hc (Or.inr hturn)) h
    · cases h
      exact hc

theorem Steady.processInput (hc : P c) (h : (processInput handler x c).2 = some c') : P c' :=
  hP.processLoop _ hc h

theorem Steady.handleRead (recvs : List RecvResult) (hc : P c) (h : (handleRead handler recvs x c).2 = some c') :
    P c' := by
  induction recvs generalizing x c with
  | nil =>
    unfold Net.handleRead at h
    split_ifs at h
    · exact hP.processInput hc h
    · cases hr : c.input.reserve true reactorIoChunk with
      | none => simp [hr] at h
      | some input =>
        simp only [hr] at h
        exact hP.processInput (hP.input input hc) h
  | cons r rest ih =>
    unfold Net.handleRead at h
    split_ifs at h
    · exact hP.processInput hc h
    cases hr : c.input.reserve true reactorIoChunk with
    | none => cases r <;> simp [hr] at h
    | some input =>
      cases r with
      | noMemory => simp at h
      | failed => simp [hr] at h
      | wouldBlock =>
        simp only [hr] at h
        exact hP.processInput (hP.input input hc) h
      | interrupted =>
        simp only [hr] at h
        exact ih (hP.input input hc) h
      | closed =>
        simp only [hr] at h
        exact hP.processInput (hP.hangup (hP.input input hc)) h
      | received bytes =>
        simp only [hr] at h
        cases hcommit : input.commit bytes with
        | none => simp [hcommit] at h
        | some filled =>
          simp only [hcommit] at h
          cases hp : Net.processInput handler x { c with input := filled } with
          | mk x' result =>
            cases result with
            | none => simp [hp] at h
            | some d =>
              simp only [hp] at h
              exact ih (hP.processInput (hP.input filled hc) (congrArg Prod.snd hp)) h

theorem Steady.refresh {ctl : Bool} (hc : P c) (h : refreshClientEvents ctl written c = some c') :
    P c' := by
  unfold refreshClientEvents at h
  dsimp only at h
  split_ifs at h
  · cases h
    exact hc
  · cases h
    exact hP.events _ hc

theorem Steady.handleWrite {sends : List SendResult} {ctl : Bool} (hc : P c)
    (h : (handleWrite handler sends ctl written x c).2.1 = some c') : P c' := by
  have hflushed := hP.flushed sends hc
  unfold Net.handleWrite at h
  generalize flushFd sends c.output = answer at h hflushed
  obtain ⟨result, output, passed⟩ := answer
  cases result with
  | failed => simp at h
  | blocked =>
    simp only [if_true] at h
    exact hP.refresh hflushed h
  | drained =>
    simp only [reduceCtorEq, if_false] at h
    split_ifs at h
    cases hp : Net.processInput handler x (c.flushed output) with
    | mk x' result =>
      cases result with
      | none => simp [hp] at h
      | some d =>
        simp only [hp] at h
        split_ifs at h
        exact hP.refresh (hP.processInput hflushed (congrArg Prod.snd hp)) h

theorem Steady.completeConnection {k : Completion H} (hc : P c) (h : (completeConnection handler x c k).2 = some c') : P c' := by
  unfold Net.completeConnection at h
  cases ho : c.output.append true (k.response.map fun x => (x, k.responseBarrier)) with
  | none => simp [ho] at h
  | some output =>
    have hdone := hP.completed hc ho
    simp only [ho] at h
    split_ifs at h
    · cases h
      exact hP.closing hdone
    · exact hP.processInput hdone h

/-- **What the rounds keep**, every act keeps. -/
theorem Steady.act {a : Act H} (hc : P c) (h : c.act handler a = some c') : P c' := by
  cases a with
  | hangup => cases h; exact hP.hangup hc
  | read x recvs => exact hP.handleRead recvs hc h
  | write x sends ctl written => exact hP.handleWrite hc h
  | refresh ctl written => exact hP.refresh hc h
  | destroy => cases h
  | complete x k =>
    simp only [Connection.act] at h
    split_ifs at h
    · exact hP.completeConnection hc h
    · cases h; exact hc

theorem Steady.acts {acts : List (Act H)} (hc : P c) (h : c.acts handler acts = some c') : P c' := by
  induction acts generalizing c with
  | nil => cases h; exact hc
  | cons a acts ih =>
    obtain ⟨d, hd, hrest⟩ := bind_eq_some_iff.1 h
    exact ih (hP.act hc hd) hrest

end

end Steady

/-! ## The barrier of a connection covers its output -/

/-- every byte still in the output has a barrier the connection's barrier covers -/
structure Covered (c : Connection) : Prop where
  sound : c.output.Sound
  covers : ∀ b ∈ c.output.unread, b.2 ≤ c.responseBarrier

theorem Covered.congr (hc : Covered c) (ho : c'.output = c.output) (hb : c'.responseBarrier = c.responseBarrier) : Covered c' :=
  ⟨by rw [ho]; exact hc.sound, by rw [ho, hb]; exact hc.covers⟩

theorem covered_create (k : ℕ) : Covered (clientCreate k) :=
  ⟨NetBuffer.sound_init _, by simp [clientCreate]⟩

def Write.bytes : Write → Bytes
  | .append bytes => bytes
  | .pointer _ bytes => bytes

theorem write_spec {tag : ℕ} {w : Write} {output output' : NetBuffer OutByte} (hs : output.Sound)
    (h : write tag output w = some output') :
    output'.unread = output.unread ++ w.bytes.map (fun x => (x, tag)) ∧ output'.Sound := by
  cases w with
  | append bytes => exact unread_append hs h
  | pointer additional bytes =>
    obtain ⟨b, hb, hcommit⟩ := bind_eq_some_iff.1 h
    obtain ⟨hunread, hsound⟩ := NetBuffer.unread_commit (NetBuffer.sound_reserve hs hb) hcommit
    exact ⟨by rw [hunread, NetBuffer.unread_reserve hb]; rfl, hsound⟩

/-- a handler's writes put the bytes of its own response behind what was there -/
theorem respond_spec {tag : ℕ} {writes : List Write} {output output' : NetBuffer OutByte} (hs : output.Sound)
    (h : respond tag output writes = some output') :
    output'.unread = output.unread ++ (writes.flatMap Write.bytes).map (fun x => (x, tag)) ∧ output'.Sound := by
  induction writes generalizing output with
  | nil =>
    simp only [respond, foldlM_nil, Option.pure_def, Option.some.injEq] at h
    subst h
    exact ⟨by simp, hs⟩
  | cons w writes ih =>
    simp only [respond, foldlM_cons, bind_eq_bind, bind_eq_some_iff] at h
    obtain ⟨mid, h1, h2⟩ := h
    obtain ⟨hmid, hsound⟩ := write_spec hs h1
    obtain ⟨hunread, hsound'⟩ := ih hsound h2
    exact ⟨by rw [hunread, hmid, flatMap_cons, map_append, append_assoc], hsound'⟩

/-- the bytes of a response carry its tag -/
theorem tagged {tag : ℕ} {bytes : Bytes} : ∀ b ∈ bytes.map (fun x => (x, tag)), b.2 = tag := by
  intro b hb
  obtain ⟨x, -, rfl⟩ := List.mem_map.1 hb
  rfl

/-- what a connection looks like after new bytes: covered if the barrier was raised to theirs -/
theorem Covered.extend (hc : Covered c) {tag : ℕ} (hs : c'.output.Sound) {bytes : List OutByte}
    (hu : c'.output.unread = c.output.unread ++ bytes) (ht : ∀ b ∈ bytes, b.2 = tag)
    (hold : c.responseBarrier ≤ c'.responseBarrier) (hnew : tag ≤ c'.responseBarrier) : Covered c' := by
  refine ⟨hs, fun b hb => ?_⟩
  rw [hu] at hb
  rcases mem_append.1 hb with hb | hb
  · exact (hc.covers b hb).trans hold
  · rw [ht b hb]
    exact hnew

theorem Covered.flushed (hc : Covered c) (sends : List SendResult) :
    Covered (c.flushed (flushFd sends c.output).2.1) := by
  obtain ⟨⟨n, hleft⟩, hsound, _⟩ := flushFd_spec sends c.output hc.sound
  refine ⟨hsound, fun b hb => ?_⟩
  have hb' : b ∈ (flushFd sends c.output).2.1.unread := hb
  simp only [Connection.flushed]
  split_ifs with hz
  · rw [NetBuffer.unread_of_readable_zero hz] at hb'
    simp at hb'
  · rw [hleft] at hb'
    exact hc.covers b (mem_of_mem_drop hb')

/-- a round raises the barrier to that of the bytes it adds -/
theorem Covered.turn {o : HandlerOutcome} (hc : Covered c) (h : turn c o = .stopped c' ∨ turn c o = .again c') : Covered c' := by
  obtain ⟨output, hr, hcases⟩ := turn_spec h
  obtain ⟨hu, hs⟩ := respond_spec hc.sound hr
  rcases hcases with ⟨hres, rfl⟩ | ⟨hres, rfl⟩ | ⟨hres, rfl⟩
  · exact hc.extend hs hu tagged le_rfl (by simp [HandlerOutcome.tag, hres])
  · exact hc.extend hs hu tagged le_rfl (by simp [HandlerOutcome.tag, hres])
  · have htag : o.tag = o.responseBarrier := by simp [HandlerOutcome.tag, hres]
    unfold Connection.answered
    dsimp only
    split_ifs
    · exact hc.extend hs hu tagged (le_max_left _ _) (htag ▸ le_max_right _ _)
    · exact hc.extend hs hu tagged (le_max_left _ _) (htag ▸ le_max_right _ _)

theorem covered_steady : Steady Covered where
  turn := Covered.turn
  input _ hc := hc.congr rfl rfl
  hangup hc := hc.congr rfl rfl
  events _ hc := hc.congr rfl rfl
  flushed sends hc := hc.flushed sends
  closing hc := hc.congr rfl rfl
  completed hc ho := by
    obtain ⟨hu, hs⟩ := unread_append hc.sound ho
    exact hc.extend hs hu tagged (le_max_left _ _) (le_max_right _ _)

/-! ## The acts of a step -/

theorem steady_connectionId (k : ℕ) : Steady fun c => c.connectionId = k where
  turn := by
    intro c c' o hk h
    obtain ⟨output, _, ⟨_, rfl⟩ | ⟨_, rfl⟩ | ⟨_, rfl⟩⟩ := turn_spec h
    · exact hk
    · exact hk
    · unfold Connection.answered
      dsimp only
      split_ifs <;> exact hk
  input _ hk := hk
  hangup hk := hk
  events _ hk := hk
  flushed _ hk := hk
  closing hk := hk
  completed hk _ := hk

/-- the loop body of `reactor_run` up to `handle_write` -/
def readActs (active : Mask) (recvs : List RecvResult) (ctl : Bool) (written : ℕ) (x : H) : List (Act H) :=
  (if active.epollrdhup then [.hangup] else []) ++ if active.epollin then [.read x recvs, .refresh ctl written] else []

/-- `reactor_complete_response` finds the connection of this id waiting -/
def completes (r : Reactor H) (k : ℕ) (completion : Completion H) : Bool :=
  completion.connectionId == k && k != 0 && decide (completion.response.length ≤ reactorMaxResponse) &&
    (r.client k).any Connection.asyncPending

/-- the completions of the connection during a wake-up -/
def completeActs (k : ℕ) : Reactor H → List (Completion H) → List (Act H)
  | _, [] => []
  | r, completion :: rest =>
    (if completes r k completion then [.complete completion.context completion] else []) ++
      completeActs k (reactorCompleteResponse handler r completion) rest

/-- what a step does with the connection of this id -/
def actsOf (k : ℕ) (r : Reactor H) : Label H → List (Act H)
  | .read recvs progress ctl =>
    match r.pc with
    | .batch (.client id active :: _) => if id = k then readActs active recvs ctl (r.written + progress) r.context else []
    | _ => []
  | .write context _ sends progress ctl =>
    match r.pc with
    | .writing id _ => if id = k then [.write context sends ctl (r.written + progress)] else []
    | _ => []
  | .woken completions ok progress failing =>
    match r.pc with
    | .batch (.wake false :: rest) =>
      completeActs handler k { r with pc := .batch rest } completions ++
        if ok then [.refresh (k ∉ failing) (r.written + progress)] else []
    | _ => []
  | _ => []

/-- every connection comes from one of the same id by the acts for that id -/
def Follows (acts : ℕ → List (Act H)) (r r' : Reactor H) : Prop :=
  ∀ c' ∈ r'.clients, ∃ c ∈ r.clients, c.connectionId = c'.connectionId ∧ c.acts handler (acts c'.connectionId) = some c'

section Acts

variable {handler} {r r' q : Reactor H} {k : ℕ} {c d : Connection} {acts acts' : ℕ → List (Act H)}

theorem acts_append (c : Connection) (xs ys : List (Act H)) :
    c.acts handler (xs ++ ys) = (c.acts handler xs).bind fun d => d.acts handler ys :=
  foldlM_append

theorem acts_singleton (c : Connection) (a : Act H) : c.acts handler [a] = c.act handler a := by
  simp [Connection.acts]

theorem client_context (r : Reactor H) (x : H) (k : ℕ) : Reactor.client { r with context := x } k = r.client k := rfl

theorem client_connectionId (hc : r.client k = some c) : c.connectionId = k := by
  simpa using List.find?_some hc

theorem Follows.trans (h : Follows handler acts r q) (h' : Follows handler acts' q r') :
    Follows handler (fun k => acts k ++ acts' k) r r' := by
  intro c' hc'
  obtain ⟨d, hd, hid, hacts'⟩ := h' c' hc'
  obtain ⟨c, hc, hid', hacts⟩ := h d hd
  refine ⟨c, hc, hid'.trans hid, ?_⟩
  rw [hid] at hacts
  rw [acts_append, hacts]
  exact hacts'

/-- connections that no act is for stay -/
theorem follows_untouched (hclients : ∀ c ∈ q.clients, c ∈ r.clients ∧ acts c.connectionId = []) : Follows handler acts r q :=
  fun c hc => ⟨c, (hclients c hc).1, rfl, by rw [(hclients c hc).2]; rfl⟩

variable (hq : q.clients = r.clients) (hother : ∀ i, i ≠ k → acts i = [])
include hq hother

theorem follows_destroy : Follows handler acts r (q.connectionDestroy k) := by
  refine follows_untouched fun c hc => ?_
  obtain ⟨hmem, hne⟩ := mem_filter.1 hc
  exact ⟨hq ▸ hmem, hother _ (by simpa using hne)⟩

theorem follows_none (hc : r.client k = none) : Follows handler acts r q := by
  refine follows_untouched fun c hmem => ?_
  rw [hq] at hmem
  exact ⟨hmem, hother _ (by simpa using List.find?_eq_none.1 hc c hmem)⟩

theorem follows_setClient (hc : r.client k = some c) (hd : c.acts handler (acts k) = some d) :
    Follows handler acts r (q.setClient d) := by
  have hid : d.connectionId = k := (steady_connectionId k).acts (client_connectionId hc) hd
  intro e he
  obtain ⟨a, ha, rfl⟩ := List.mem_map.1 he
  rw [hq] at ha
  split_ifs with hsame
  · exact ⟨c, List.mem_of_find?_eq_some hc, by rw [client_connectionId hc, hid], by rw [hid]; exact hd⟩
  · exact ⟨a, ha, rfl, by rw [hother _ (hid ▸ hsame)]; rfl⟩

theorem follows_settle (hc : r.client k = some c) : Follows handler acts r (settle q k (c.acts handler (acts k))) := by
  unfold settle
  cases hd : c.acts handler (acts k) with
  | none => exact follows_destroy hq hother
  | some d =>
    dsimp only
    split_ifs
    · exact follows_destroy hq hother
    · exact follows_setClient hq hother hc hd

omit hq hother

theorem readPart_acts (handler : Handler H) (active : Mask) (recvs : List RecvResult) (ctl : Bool) (written : ℕ) (x : H) (c : Connection) :
    (readPart handler active recvs ctl written x { c with peerEof := c.peerEof || active.epollrdhup }).2 =
      c.acts handler (readActs active recvs ctl written x) := by
  have hnoted : c.acts handler (if active.epollrdhup then [.hangup] else []) =
      some { c with peerEof := c.peerEof || active.epollrdhup } := by
    cases active.epollrdhup with
    | true => rw [Bool.or_true]; rfl
    | false => rw [Bool.or_false]; rfl
  rw [readActs, acts_append, hnoted, bind_some, readPart]
  cases active.epollin with
  | false => rfl
  | true =>
    simp only [if_true, Connection.acts, foldlM_cons, Connection.act]
    generalize handleRead handler recvs x _ = answer
    obtain ⟨x', result⟩ := answer
    cases result with
    | none => rfl
    | some d => exact (acts_singleton d (.refresh ctl written)).symm

theorem clientRead_follows (active : Mask) (rest : List Event) (recvs : List RecvResult) (progress : ℕ) (ctl : Bool)
    (hk : acts k = readActs active recvs ctl (r.written + progress) r.context) (hother : ∀ i, i ≠ k → acts i = []) :
    Follows handler acts r (clientRead handler r k active rest recvs progress ctl) := by
  unfold clientRead
  cases hc : r.client k with
  | none => exact follows_none rfl hother hc
  | some c =>
    dsimp only
    split_ifs
    · exact follows_destroy rfl hother
    have hresult := readPart_acts handler active recvs ctl (r.written + progress) r.context c
    rw [← hk] at hresult
    generalize readPart handler active recvs ctl (r.written + progress) r.context _ = answer at hresult ⊢
    obtain ⟨x, result⟩ := answer
    dsimp only at hresult ⊢
    split
    · exact follows_setClient rfl hother hc hresult.symm
    · rw [hresult]
      exact follows_settle rfl hother hc

theorem clientWrite_follows {x : H} (rest : List Event) (sends : List SendResult) (progress : ℕ) (ctl : Bool)
    (hk : acts k = [.write x sends ctl (r.written + progress)]) (hother : ∀ i, i ≠ k → acts i = []) :
    Follows handler acts r (clientWrite handler { r with context := x } k rest sends progress ctl) := by
  unfold clientWrite
  rw [client_context]
  cases hc : r.client k with
  | none => exact follows_none rfl hother hc
  | some c =>
    have hresult : (handleWrite handler sends ctl (r.written + progress) x c).2.1 = c.acts handler (acts k) := by
      rw [hk, acts_singleton, Connection.act]
    dsimp only
    rw [hresult]
    exact follows_settle rfl hother hc

theorem completeResponse_follows (r : Reactor H) (completion : Completion H) :
    Follows handler (fun k => if completes r k completion then [.complete completion.context completion] else []) r
      (reactorCompleteResponse handler r completion) := by
  have hsame : completes r completion.connectionId completion = false →
      Follows handler (fun k => if completes r k completion then [.complete completion.context completion] else []) r
        { r with context := completion.context } := by
    intro hfalse
    refine follows_untouched fun c hc => ⟨hc, if_neg fun htrue => ?_⟩
    have hid : completion.connectionId = c.connectionId := by simp_all [completes]
    rw [← hid, hfalse] at htrue
    cases htrue
  unfold reactorCompleteResponse
  dsimp only
  split_ifs with hsize
  · apply hsame
    simp only [completes, Bool.and_eq_false_iff, bne_eq_false_iff_eq, decide_eq_false_iff_not, not_le]
    tauto
  rw [client_context]
  cases hc : r.client completion.connectionId with
  | none => exact hsame (by simp [completes, hc])
  | some c =>
    dsimp only
    split_ifs with hpending
    swap
    · exact hsame (by simp [completes, hc, hpending])
    obtain ⟨hpos, hshort⟩ := not_or.1 hsize
    have hcomplete : c.acts handler
        (if completes r completion.connectionId completion then [.complete completion.context completion] else []) =
        (completeConnection handler completion.context c completion).2 := by
      rw [if_pos (by simp [completes, hc, hpending, hpos, not_lt.1 hshort])]
      rw [acts_singleton, Connection.act, if_pos ⟨hpending, not_lt.1 hshort⟩]
    have hother : ∀ i, i ≠ completion.connectionId →
        (if completes r i completion then [Act.complete completion.context completion] else []) = [] :=
      fun i hi => if_neg (by simp [completes, Ne.symm hi])
    unfold completePending
    generalize completeConnection handler completion.context c completion = answer at hcomplete
    obtain ⟨x, result⟩ := answer
    cases result with
    | none => exact follows_destroy rfl hother
    | some d => exact follows_setClient rfl hother hc hcomplete

theorem completions_follow (completions : List (Completion H)) (r : Reactor H) :
    Follows handler (fun k => completeActs handler k r completions) r
      (completions.foldl (reactorCompleteResponse handler) r) := by
  induction completions generalizing r with
  | nil => exact follows_untouched fun c hc => ⟨hc, rfl⟩
  | cons completion rest ih => exact (completeResponse_follows r completion).trans (ih _)

theorem completions_keep (handler : Handler H) (completions : List (Completion H)) (r : Reactor H) :
    (completions.foldl (reactorCompleteResponse handler) r).passed = r.passed ∧
      (completions.foldl (reactorCompleteResponse handler) r).written = r.written := by
  induction completions generalizing r with
  | nil => exact ⟨rfl, rfl⟩
  | cons completion rest ih =>
    have hfirst : (reactorCompleteResponse handler r completion).passed = r.passed ∧
        (reactorCompleteResponse handler r completion).written = r.written := by
      unfold reactorCompleteResponse
      dsimp only
      split_ifs
      · exact ⟨rfl, rfl⟩
      split
      · exact ⟨rfl, rfl⟩
      split_ifs
      · unfold completePending
        split <;> exact ⟨rfl, rfl⟩
      · exact ⟨rfl, rfl⟩
    obtain ⟨hpassed, hwritten⟩ := ih (reactorCompleteResponse handler r completion)
    exact ⟨hpassed.trans hfirst.1, hwritten.trans hfirst.2⟩

theorem refreshAll_follows (handler : Handler H) (failing : List ℕ) (r : Reactor H) :
    Follows handler (fun k => [.refresh (k ∉ failing) r.written]) r (refreshAll failing r) := by
  intro c' hc'
  obtain ⟨c, hc, hrefresh⟩ := mem_filterMap.1 hc'
  have hid : c'.connectionId = c.connectionId := (steady_connectionId _).refresh rfl hrefresh
  refine ⟨c, hc, hid.symm, ?_⟩
  rw [acts_singleton, hid]
  exact hrefresh

theorem handleAccept_clients (count : ℕ) {r : Reactor H} (hc : c ∈ (handleAccept count r).clients) :
    c ∈ r.clients ∨ c = clientCreate c.connectionId := by
  induction count generalizing r with
  | zero => exact Or.inl hc
  | succ count ih =>
    rcases ih hc with hmem | hnew
    · rcases mem_cons.1 hmem with rfl | hold
      · exact Or.inr rfl
      · exact Or.inl hold
    · exact Or.inr hnew

/-- a step other than `handle_accept` acts on the connections there are -/
theorem step_follows (hl : ∀ count, l ≠ .accepted count) (h : step handler r l = some r') :
    Follows handler (fun k => actsOf handler k r l) r r' := by
  have hsame : ∀ {q : Reactor H}, q.clients = r.clients → (∀ k, actsOf handler k r l = []) →
      Follows handler (fun k => actsOf handler k r l) r q :=
    fun hq hacts => follows_untouched fun c hc => ⟨hq ▸ hc, hacts _⟩
  have hgone : ∀ {q : Reactor H}, q.clients = [] → Follows handler (fun k => actsOf handler k r l) r q := by
    intro q hq c hc
    rw [hq] at hc
    cases hc
  cases l with
  | accepted count => exact absurd rfl (hl count)
  | writer n => cases h; exact hsame rfl fun _ => rfl
  | epollWait events =>
    simp only [step] at h
    split_ifs at h
    cases h
    exact hsame rfl fun _ => rfl
  | ticked context ok =>
    simp only [step] at h
    split at h
    · split_ifs at h <;> cases h <;> exact hsame rfl fun _ => rfl
    · cases h
  | batchEnd context flushed =>
    simp only [step] at h
    split_ifs at h
    · cases h; exact hsame rfl fun _ => rfl
    · cases h; exact hgone rfl
  | read recvs progress ctl =>
    simp only [step] at h
    split at h
    · rename_i k active rest hpc
      cases h
      refine clientRead_follows active rest recvs progress ctl ?_ fun i hi => ?_
      · simp only [actsOf, hpc, if_true]
      · simp only [actsOf, hpc, if_neg (Ne.symm hi)]
    · cases h
  | write context flushed sends progress ctl =>
    simp only [step] at h
    split at h
    · rename_i k rest hpc
      split_ifs at h
      · cases h
        refine clientWrite_follows rest sends progress ctl ?_ fun i hi => ?_
        · simp only [actsOf, hpc, if_true]
        · simp only [actsOf, hpc, if_neg (Ne.symm hi)]
      · cases h; exact hgone rfl
    · cases h
  | woken completions ok progress failing =>
    simp only [step] at h
    split at h
    swap
    · cases h
    rename_i failed rest hpc
    cases failed with
    | true =>
      cases h
      exact hsame rfl fun _ => by simp only [actsOf, hpc]
    | false =>
      have hdone : Follows handler (fun k => completeActs handler k { r with pc := .batch rest } completions) r
          (completions.foldl (reactorCompleteResponse handler) { r with pc := .batch rest }) := completions_follow completions _
      have hwritten := (completions_keep handler completions { r with pc := .batch rest }).2
      simp only [actsOf, hpc]
      generalize completions.foldl (reactorCompleteResponse handler) { r with pc := .batch rest } = q at h hdone hwritten
      cases ok with
      | true =>
        cases h
        refine hdone.trans ?_
        have hrefresh := refreshAll_follows handler failing { q with written := q.written + progress }
        rw [← hwritten]
        exact hrefresh
      | false =>
        cases h
        simp only [Bool.false_eq_true, if_false, append_nil]
        exact hdone

/-- **Where the connections of a step come from**: `handle_accept` has created them, or the acts of the step lead to them. -/
theorem step_clients (h : step handler r l = some r') (hc' : c' ∈ r'.clients) :
    (∃ count, l = .accepted count ∧ c' = clientCreate c'.connectionId) ∨
      ∃ c ∈ r.clients, c.connectionId = c'.connectionId ∧ c.acts handler (actsOf handler c'.connectionId r l) = some c' := by
  by_cases hl : ∃ count, l = .accepted count
  swap
  · exact Or.inr (step_follows (fun count hcount => hl ⟨count, hcount⟩) h c' hc')
  obtain ⟨count, rfl⟩ := hl
  have hmem : c' ∈ r.clients ∨ c' = clientCreate c'.connectionId := by
    simp only [step] at h
    split at h
    · split_ifs at h
      · cases h; exact Or.inl hc'
      · cases h
        have hmem := handleAccept_clients count hc'
        exact hmem
    · cases h
  rcases hmem with hold | hnew
  · exact Or.inr ⟨c', hold, rfl, rfl⟩
  · exact Or.inl ⟨count, rfl, hnew⟩

end Acts

/-! ## Whole runs -/

/-- every connection has the property -/
def All (P : Connection → Prop) (r : Reactor H) : Prop := ∀ c ∈ r.clients, P c

section Runs

variable {handler} {P : Connection → Prop} {r r' : Reactor H}

theorem All.client (hr : All P r) {k : ℕ} (h : r.client k = some c) : P c :=
  hr c (List.mem_of_find?_eq_some h)

/-- **A step keeps what the rounds keep**, for every connection. -/
theorem Steady.step (hP : Steady P) (hnew : ∀ k, P (clientCreate k)) {l : Label H} (hr : All P r)
    (h : step handler r l = some r') : All P r' := by
  intro c' hc'
  rcases step_clients h hc' with ⟨_, _, hcreated⟩ | ⟨c, hc, _, hacts⟩
  · rw [hcreated]
    exact hnew _
  · exact hP.acts (hr c hc) hacts

/-- every run keeps it -/
theorem Steady.run (hP : Steady P) (hnew : ∀ k, P (clientCreate k)) (ls : List (Label H)) {r : Reactor H} (hr : All P r)
    (h : run handler r ls = some r') : All P r' := by
  induction ls generalizing r with
  | nil => cases h; exact hr
  | cons l ls ih =>
    simp only [Net.run, bind_eq_some_iff] at h
    obtain ⟨q, hq, hrest⟩ := h
    exact ih (hP.step hnew hr hq) hrest

end Runs

/-- **The barrier of a connection covers its output**, in every state of every run. -/
theorem run_covered (x : H) (ls : List (Label H)) {r : Reactor H} (h : run handler (reactorInit x) ls = some r) : All Covered r :=
  covered_steady.run covered_create ls (by simp [All, reactorInit]) h

/-! ## What is passed to `send` -/

@[simp] theorem settle_passed (r : Reactor H) (k : ℕ) (result : Option Connection) : (settle r k result).passed = r.passed := by
  unfold settle
  split
  · rfl
  · split_ifs <;> rfl

@[simp] theorem handleAccept_passed (count : ℕ) (r : Reactor H) : (handleAccept count r).passed = r.passed := by
  induction count generalizing r with
  | zero => rfl
  | succ count ih => exact ih _

@[simp] theorem clientRead_passed (r : Reactor H) (k : ℕ) (active : Mask) (rest : List Event)
    (recvs : List RecvResult) (progress : ℕ) (ctl : Bool) :
    (clientRead handler r k active rest recvs progress ctl).passed = r.passed := by
  unfold clientRead
  split
  · rfl
  · split_ifs
    · rfl
    · dsimp only
      split
      · rfl
      · simp

/-- `handle_write` passes unsent bytes of the connection to `send` -/
theorem handleWrite_passed (sends : List SendResult) (ctl : Bool) (written : ℕ) (x : H)
    (c : Connection) : (handleWrite handler sends ctl written x c).2.2 = (flushFd sends c.output).2.2 := by
  unfold handleWrite
  generalize flushFd sends c.output = answer
  obtain ⟨result, output, passed⟩ := answer
  cases result with
  | failed => rfl
  | blocked => rfl
  | drained =>
    simp only [reduceCtorEq, if_false]
    split_ifs
    · rfl
    · cases hp : processInput handler x (c.flushed output) with
      | mk x' result =>
        cases result with
        | none => rfl
        | some d =>
          simp only
          split_ifs <;> rfl

/-- the calls of `send` that `handle_write` adds to the record -/
theorem clientWrite_passed (hr : All Covered r) (k : ℕ) (rest : List Event)
    (sends : List SendResult) (progress : ℕ) (ctl : Bool) {p : Passed}
    (hp : p ∈ (clientWrite handler r k rest sends progress ctl).passed) :
    p ∈ r.passed ∨ ∃ c, r.client k = some c ∧ p.written = r.written ∧ ∀ b ∈ p.bytes, b ∈ c.output.unread := by
  unfold clientWrite at hp
  cases hc : r.client k with
  | none => exact Or.inl (by simpa [hc] using hp)
  | some c =>
    obtain ⟨_, _, hsent⟩ := flushFd_spec sends c.output (hr.client hc).sound
    simp only [hc, settle_passed, handleWrite_passed] at hp
    rcases mem_append.1 hp with hp | hp
    · exact Or.inl hp
    · obtain ⟨bytes, hb, rfl⟩ := List.mem_map.1 hp
      exact Or.inr ⟨c, rfl, rfl, hsent bytes hb⟩

/-- only `handle_write` calls `send`, and only on unsent bytes of its connection -/
theorem step_passed (hr : All Covered r) (h : step handler r l = some r') {p : Passed} (hp : p ∈ r'.passed) :
    p ∈ r.passed ∨ ∃ context sends progress ctl k rest c, l = .write context true sends progress ctl ∧
      r.pc = .writing k rest ∧ r.client k = some c ∧ p.written = r.written ∧ ∀ b ∈ p.bytes, b ∈ c.output.unread := by
  cases l with
  | writer n => cases h; exact Or.inl hp
  | epollWait events =>
    simp only [step] at h
    split_ifs at h
    cases h
    exact Or.inl hp
  | accepted count =>
    simp only [step] at h
    split at h
    · split_ifs at h
      · cases h; exact Or.inl hp
      · cases h; exact Or.inl (by simpa using hp)
    · simp at h
  | woken completions ok progress failing =>
    simp only [step] at h
    split at h
    · split_ifs at h
      · cases h; exact Or.inl hp
      · cases h; exact Or.inl (by simpa [refreshAll, completions_keep] using hp)
      · cases h; exact Or.inl (by simpa [completions_keep] using hp)
    · simp at h
  | ticked context ok =>
    simp only [step] at h
    split at h
    · split_ifs at h
      · cases h; exact Or.inl hp
      · cases h; exact Or.inl hp
    · simp at h
  | read recvs progress ctl =>
    simp only [step] at h
    split at h
    · cases h; exact Or.inl (by simpa using hp)
    · simp at h
  | write context flushed sends progress ctl =>
    simp only [step] at h
    split at h
    · rename_i k rest hpc
      split_ifs at h with hfl
      · cases h
        rcases clientWrite_passed handler (r := { r with context := context }) hr k rest sends progress ctl hp with
          hp | ⟨c, hc, hw, hb⟩
        · exact Or.inl hp
        · exact Or.inr ⟨context, sends, progress, ctl, k, rest, c, by rw [hfl], hpc, hc, hw, hb⟩
      · cases h; exact Or.inl hp
    · simp at h
  | batchEnd context flushed =>
    simp only [step] at h
    split_ifs at h
    · cases h; exact Or.inl hp
    · cases h; exact Or.inl hp

/-- no byte of this call of `send` is ahead of its barrier -/
def Passed.AfterBarrier (p : Passed) : Prop := ∀ b ∈ p.bytes, barrierReady p.written b.2 = true

/-- when `handle_write` is entered with something to send, the barrier handler reports the connection's barrier ready -/
def writeReady (r : Reactor H) : Label H → Bool
  | .write _ true _ _ _ =>
    match r.pc with
    | .writing k _ => (r.client k).all fun c => c.output.readable == 0 || barrierReady r.written c.responseBarrier
    | _ => true
  | _ => true

/-- every `handle_write` of the run is entered so -/
def writesReady (r : Reactor H) : List (Label H) → Bool
  | [] => true
  | l :: ls => writeReady r l && (step handler r l).all fun r => writesReady r ls

/-- the barrier handler is downward closed: a written sequence covers every earlier one -/
theorem barrierReady_of_le {s t : ℕ} (h : barrierReady written t = true) (hst : s ≤ t) :
    barrierReady written s = true := by
  simp only [barrierReady, Bool.or_eq_true, beq_iff_eq, decide_eq_true_eq] at h ⊢
  omega

theorem step_after_barrier (hr : All Covered r)
    (hw : writeReady r l = true) (hp : ∀ p ∈ r.passed, p.AfterBarrier) (h : step handler r l = some r') :
    ∀ p ∈ r'.passed, p.AfterBarrier := by
  intro p hmem
  rcases step_passed handler hr h hmem with hold | ⟨context, sends, progress, ctl, k, rest, c, rfl, hpc, hc, hwr, hbytes⟩
  · exact hp p hold
  · intro b hb
    have hunread : b ∈ c.output.unread := hbytes b hb
    have hne : c.output.readable ≠ 0 := by
      rw [NetBuffer.readable_eq_length]
      exact (length_pos_of_mem hunread).ne'
    have hready : barrierReady r.written c.responseBarrier = true := by
      simpa [writeReady, hpc, hc, hne] using hw
    rw [hwr]
    exact barrierReady_of_le hready ((All.client hr hc).covers b hunread)

theorem run_after_barrier (ls : List (Label H)) (hr : All Covered r)
    (hp : ∀ p ∈ r.passed, p.AfterBarrier) (hw : writesReady handler r ls = true) (h : run handler r ls = some r') :
    ∀ p ∈ r'.passed, p.AfterBarrier := by
  induction ls generalizing r with
  | nil => cases h; exact hp
  | cons l ls ih =>
    simp only [run, bind_eq_some_iff] at h
    obtain ⟨q, hq, hrest⟩ := h
    simp only [writesReady, hq, Bool.and_eq_true, all_some] at hw
    exact ih (covered_steady.step covered_create hr hq) (step_after_barrier handler hr hw.1 hp hq) hw.2 hrest

/-- **A response waits for its barrier** in every run in which `handle_write` is only entered with the connection's
barrier ready: whatever the handler answers, however events are batched and sends are cut, no byte is passed to `send`
before the AOF writer has reached the barrier of its response. -/
theorem send_waits_for_barrier (x : H) (ls : List (Label H)) (r : Reactor H)
    (h : run handler (reactorInit x) ls = some r) (hw : writesReady handler (reactorInit x) ls = true) :
    ∀ p ∈ r.passed, p.AfterBarrier :=
  run_after_barrier handler ls (by simp [All, reactorInit]) (by simp [reactorInit]) hw h

/-- the frame of `PING` -/
def pingFrame : Bytes := [42, 49, 13, 10, 36, 52, 13, 10, 80, 73, 78, 71, 13, 10]

/-- the frame of `SET k v` -/
def setFrame : Bytes :=
  [42, 51, 13, 10, 36, 51, 13, 10, 83, 69, 84, 13, 10, 36, 49, 13, 10, 107, 13, 10, 36, 49, 13, 10, 118, 13, 10]

/-- the server's answers to the two frames: `+PONG` without a barrier, `+OK` with the barrier of AOF sequence 1 -/
def pingSetHandler : Handler Unit := fun x input _ _ =>
  if input[1]? = some 49 then (⟨.complete, 14, [.append [43, 80, 79, 78, 71, 13, 10]], false, 0⟩, x)
  else (⟨.complete, 27, [.append [43, 79, 75, 13, 10]], false, 1⟩, x)

/-- a client sends `PING`; the socket takes one byte of the reply and blocks with 6 bytes left -/
def pingBlocked : List (Label Unit) :=
  [.epollWait [.listener false], .accepted 1, .batchEnd () true,
    .epollWait [.client 1 ⟨true, false, false, false⟩], .read [.received pingFrame] 0 true, .batchEnd () true,
    .epollWait [.client 1 ⟨false, true, false, false⟩], .read [] 0 true,
    .write () true [.written 1, .wouldBlock] 0 true, .batchEnd () true]

/-- the socket is still blocked when `SET k v` arrives -/
def setQueued : List (Label Unit) :=
  pingBlocked ++ [.epollWait [.client 1 ⟨true, false, false, false⟩], .read [.received setFrame] 0 true]

theorem setQueued_runs : ∃ r, run pingSetHandler (reactorInit ()) setQueued = some r ∧
    r.clients.map (fun c => (c.output.unread.map Prod.snd, c.responseBarrier)) = [([0, 0, 0, 0, 0, 0, 1, 1, 1, 1, 1], 1)] :=
  map_eq_some_iff.1 (by decide +kernel)

/-- the rest of `+PONG` has no barrier, the `+OK` behind it waits for sequence 1, and so does the connection -/
theorem run_covered_queued : ∃ r, run pingSetHandler (reactorInit ()) setQueued = some r ∧
    r.clients.map (fun c => (c.output.unread.map Prod.snd, c.responseBarrier)) = [([0, 0, 0, 0, 0, 0, 1, 1, 1, 1, 1], 1)] ∧
    All Covered r := by
  obtain ⟨r, hrun, hview⟩ := setQueued_runs
  exact ⟨r, hrun, hview, run_covered _ () _ hrun⟩

/-- the socket becomes writable again just as `SET k v` arrives; the AOF writer has not written anything -/
def readableAndWritable : List (Label Unit) :=
  [.epollWait [.client 1 ⟨true, true, false, false⟩], .read [.received setFrame] 0 true, .write () true [.written 11] 0 true]

/-- the same wake-up, with the AOF writer faster than the `send` -/
def writerFirst : List (Label Unit) :=
  [.epollWait [.client 1 ⟨true, true, false, false⟩], .read [.received setFrame] 0 true, .writer 1,
    .write () true [.written 11] 0 true]

/-- the reply of the `SET` goes out with the rest of the reply of the `PING`, after its AOF sequence -/
theorem send_waits_for_barrier_run :
    ∃ r, run pingSetHandler (reactorInit ()) (pingBlocked ++ writerFirst) = some r ∧ r.passed.length = 3 ∧
      ∀ p ∈ r.passed, p.AfterBarrier := by
  have h : (run pingSetHandler (reactorInit ()) (pingBlocked ++ writerFirst)).map (fun r => r.passed.length) = some 3 := by
    decide +kernel
  obtain ⟨r, hr, hlen⟩ := map_eq_some_iff.1 h
  exact ⟨r, hr, hlen, send_waits_for_barrier pingSetHandler () _ r hr (by decide +kernel)⟩

def overtaken (r : Reactor H) : Bool := r.passed.any fun p => p.bytes.any fun b => !barrierReady p.written b.2

/-- The reply of the `SET` is sent with the rest of the reply of the `PING`, before its AOF sequence is written. -/
theorem send_overtakes_barrier :
    ∃ r, run pingSetHandler (reactorInit ()) (pingBlocked ++ readableAndWritable) = some r ∧
      ∃ p ∈ r.passed, ¬ p.AfterBarrier := by
  have h : (run pingSetHandler (reactorInit ()) (pingBlocked ++ readableAndWritable)).map overtaken = some true := by
    decide +kernel
  obtain ⟨r, hr, ho⟩ := map_eq_some_iff.1 h
  refine ⟨r, hr, ?_⟩
  simp only [overtaken, List.any_eq_true] at ho
  obtain ⟨p, hp, b, hb, hready⟩ := ho
  exact ⟨p, hp, fun hall => by simp [hall b hb] at hready⟩

end StoreSystem.Net
