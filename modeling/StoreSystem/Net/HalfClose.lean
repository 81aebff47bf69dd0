/-
A client that sends its requests and closes its sending side (`src/net/reactor.c` with `dispatch_request` of
`src/app/main.c`, MySQL off).

The stream is any list of valid requests. The environment chooses how `recv` splits it, what `send` takes, when
`epoll_wait` reports the connection and when it reports `EPOLLRDHUP`. The requests executed and the responses sent are read
off the history of the connection.

`EPOLLRDHUP` makes the reactor set `peer_eof` before it has read the bytes that arrived with it. From then on the parser is
told that the stream has ended, and `EPOLLIN` is no longer asked for.

Results:
- `Serves.*`: what each function of the reactor does for a stream of valid requests;
- `half_close_served`: if every call of the handler with `peer_eof` set finds whole requests, no response is refused, and the
  event that brings `peer_eof` reads the rest of the stream, then every request is executed in order with one response;
- `half_close_served_timely`: the same under a condition on the events alone;
- `half_close_refused`: a request of more than `REACTOR_IO_CHUNK` bytes that arrives together with the hang-up is answered
  with a protocol error.
-/
import StoreSystem.Net.Visit
import StoreSystem.Protocol.Stream

namespace StoreSystem.Net

open List Option
open NetBuffer (reserve writePos commit readable_eq_length unread_consume unread_reserve unread_commit SendResult flushFd consume readable)
open Resp (parseRequestWithLimit)

/-! ## The synchronous handler -/

/-- a valid complete request -/
structure Request where
  bytes : Bytes
  arguments : List Bytes
  parses : parseRequestWithLimit bytes false respMaxFrameSize = .complete (arguments, bytes.length)

/-- the execution of a request with `encode_reply`: the writes to the response buffer and the barrier; what is written fits
the space asked for, and a response is within the reactor's limit -/
structure Executor (S : Type) where
  execute : S → List Bytes → List Write × ℕ × S
  fits : ∀ x arguments, ∀ w ∈ (execute x arguments).1, w.bytes.length ≤ w.reserved
  addressable : ∀ x arguments, ∀ w ∈ (execute x arguments).1,
    w.reserved + (reactorOutputHighWater + reactorMaxResponse) ≤ sizeMax
  small : ∀ x arguments, ((execute x arguments).1.flatMap Write.bytes).length ≤ reactorMaxResponse

def protocolError : Bytes := ascii "-ERR Protocol error\r\n"

variable {S : Type}

/-- `dispatch_request` without MySQL -/
def dispatchRequest (E : Executor S) : Handler S := fun x input endOfStream _ =>
  match parseRequestWithLimit input endOfStream respMaxFrameSize with
  | .incomplete => (⟨.incomplete, 0, [], false, 0⟩, x)
  | .error => (⟨.complete, input.length, [.pointer 64 protocolError], true, 0⟩, x)
  | .complete (arguments, consumed) =>
    let (writes, barrier, x) := E.execute x arguments
    (⟨.complete, consumed, writes, false, barrier⟩, x)

/-! ## The environment -/

/-- a visit, or the refresh of `drain_wake_fd` -/
inductive Move (S : Type)
  | visit (v : Visit S)
  | refresh (written : ℕ)

def Life.move (handler : Handler S) (l : Life) : Move S → Life
  | .visit v => l.visit handler v
  | .refresh written => l.act handler (.refresh true written)

/-- the sequence the AOF writer had reached at the last refresh -/
def refreshedAt (written : ℕ) : Move S → ℕ
  | .visit v => if v.epollout then v.sentWritten else if v.epollin then v.readWritten else written
  | .refresh written => written

def Life.moves (handler : Handler S) (l : Life) (ms : List (Move S)) : Life := ms.foldl (Life.move handler) l

/-- a condition on every move of a run, given the state it starts from -/
def Along (handler : Handler S) (P : Life → Move S → Prop) : Life → List (Move S) → Prop
  | _, [] => True
  | l, m :: ms => P l m ∧ Along handler P (l.move handler m) ms

/-- the results of `recv` on a socket that has these bytes to deliver before the end of the stream -/
def Delivers : List RecvResult → Bytes → Prop
  | [], _ => True
  | .received bytes :: rest, u => bytes.length ≤ reactorIoChunk ∧ bytes <+: u ∧ Delivers rest (u.drop bytes.length)
  | .closed :: _, u => u = []
  | .interrupted :: rest, u => Delivers rest u
  | .wouldBlock :: _, _ => True
  | .failed :: _, _ => False
  | .noMemory :: _, _ => False

variable (requests : List Request) (l : Life)

def stream : Bytes := requests.flatMap Request.bytes

/-- what the peer has sent and `recv` has not returned -/
def Life.unreceived : Bytes :=
  (stream requests).drop (ledger l.history).received.length

/-- the peer sends the stream, no system call fails, and the input can be held in memory -/
def Honest : Move S → Prop
  | .visit v =>
    Delivers v.recvs (l.unreceived requests) ∧ (∀ s ∈ v.sends, s ≠ .failed ∧ s ≠ .written 0) ∧ v.ctl = true ∧
      ∀ c, l.connection = some c → c.input.readable + reactorIoChunk * (v.recvs.length + 1) ≤ sizeMax
  | .refresh _ => True

/-- the call finds whole requests if `peer_eof` is set, and its response does not pull `write_pos` back -/
def Fine (c : Connection) (o : HandlerOutcome) : Prop :=
  falls c.output o.response = false ∧ (c.peerEof = true → ∃ whole : List Request, c.input.unread = stream whole)

def FineCalls (h : List Happening) : Prop := ∀ c o, .called c o ∈ h → Fine c o

/-- a visit whose calls are fine and that leaves nothing to receive if it leaves `peer_eof` set -/
def Favourable (handler : Handler S) (requests : List Request) (l : Life) : Move S → Prop
  | .visit v =>
    FineCalls (l.visit handler v).history ∧
      ∀ c, (l.reading handler v).connection = some c → c.peerEof = true → (l.reading handler v).unreceived requests = []
  | .refresh _ => True

/-- what an event must bring: it finds nothing of the output sent or only goes on sending it, and a hang-up is reported after
the stream, or below the high-water mark together with the rest of the stream in one piece -/
def Timely : Move S → Prop
  | .visit v => ∀ c, l.connection = some c →
    (c.output.readPos = 0 ∨ (v.epollin = false ∧ c.output.readable ≠ 0)) ∧
      (v.rdhup = true → l.unreceived requests = [] ∨ (v.epollin = true ∧ c.output.readable < reactorOutputHighWater ∧
        ∃ rest, v.recvs = .received (l.unreceived requests) :: rest))
  | .refresh _ => True

/-! ## Requests in a stream -/

section Requests

variable {r q : Request} {rest : Bytes}

theorem Request.parses_append (r : Request) (rest : Bytes) (eos : Bool) :
    parseRequestWithLimit (r.bytes ++ rest) eos respMaxFrameSize = .complete (r.arguments, r.bytes.length) := by
  obtain ⟨f, hf, hroom, hsize, hargs, hlength⟩ := Resp.parse_eq_complete_iff.1 r.parses
  exact Resp.parse_eq_complete_iff.2 ⟨f, hf.trans (prefix_append _ _), hroom, hsize, hargs, hlength⟩

theorem Request.length_le (r : Request) : r.bytes.length ≤ reactorMaxRequest := by
  obtain ⟨f, -, hroom, -, -, hlength⟩ := Resp.parse_eq_complete_iff.1 r.parses
  rw [← hlength]
  exact hroom

theorem Request.length_pos (r : Request) : 0 < r.bytes.length := by
  obtain ⟨-, hne, -⟩ := Resp.parseRequestWithLimit_eq_complete_iff.1 r.parses
  exact length_pos_of_ne_nil hne

theorem Request.cut_incomplete (r : Request) {p : Bytes} (hcut : p <+: r.bytes) (hlt : p.length < r.bytes.length) :
    parseRequestWithLimit p false respMaxFrameSize = .incomplete := by
  have htake : r.bytes.take (r.arguments, r.bytes.length).2 = r.bytes := take_length
  refine Resp.parse_prefix r.parses (by rw [htake]; exact hcut) ?_
  rw [htake]
  rintro rfl
  exact absurd hlt (lt_irrefl _)

/-- no request is a proper part of another one's beginning -/
theorem Request.not_prefix (hq : q.bytes <+: r.bytes) : r.bytes.length = q.bytes.length := by
  obtain ⟨rest, hrest⟩ := hq
  have hparse := q.parses_append rest false
  rw [hrest, r.parses, Resp.ParseResult.complete.injEq, Prod.mk.injEq] at hparse
  exact hparse.2

theorem stream_cons (r : Request) (requests : List Request) : stream (r :: requests) = r.bytes ++ stream requests := rfl

theorem stream_eq_nil {requests : List Request} (h : stream requests = []) : requests = [] := by
  cases requests with
  | nil => rfl
  | cons r requests =>
    rw [stream_cons, append_eq_nil_iff] at h
    exact absurd (congrArg List.length h.1) r.length_pos.ne'

end Requests

/-! ## The space of the output -/

theorem reserve_some {α : Type} (b : NetBuffer α) {n : ℕ} (h : n + b.readable ≤ sizeMax) :
    ∃ b', b.reserve true n = some b' ∧ n ≤ b'.capacity - b'.writePos := by
  unfold reserve
  rw [if_neg (by omega)]
  simp only [if_true]
  by_cases hroom : n ≤ b.capacity - b.writePos
  · exact ⟨_, if_pos hroom, hroom⟩
  rw [if_neg hroom]
  by_cases hcompact : n ≤ b.compact.capacity - b.compact.writePos
  · exact ⟨_, if_pos hcompact, hcompact⟩
  refine ⟨_, if_neg hcompact, ?_⟩
  have hcap := NetBuffer.le_growCapacity 64 (if b.compact.capacity = 0 then 512 else b.compact.capacity) (b.compact.writePos + n)
  simp only [writePos] at hcap ⊢
  omega

theorem write_some (tag : ℕ) (b : NetBuffer OutByte) {w : Write} (hfits : w.bytes.length ≤ w.reserved)
    (hroom : w.reserved + b.readable ≤ sizeMax) : ∃ b', write tag b w = some b' := by
  obtain ⟨b', hb', hfree⟩ := reserve_some b hroom
  cases w with
  | append bytes =>
    refine ⟨{ b' with data := b'.data ++ bytes.map fun x => (x, tag) }, ?_⟩
    simp only [write, NetBuffer.append, length_map]
    simp only [Write.reserved] at hb'
    rw [hb', map_some]
  | pointer additional bytes =>
    refine ⟨{ b' with data := b'.data ++ bytes.map fun x => (x, tag) }, ?_⟩
    simp only [Write.reserved, Write.bytes] at hb' hfits hfree
    rw [write, hb', bind_some, commit, if_neg (by rw [length_map]; omega)]

/-- the writes of a response that is addressable succeed -/
theorem respond_some (tag : ℕ) (writes : List Write) : ∀ {b : NetBuffer OutByte}, b.Sound →
    (∀ w ∈ writes, w.bytes.length ≤ w.reserved) →
    (∀ w ∈ writes, w.reserved + (b.readable + (writes.flatMap Write.bytes).length) ≤ sizeMax) →
    ∃ b', respond tag b writes = some b' := by
  induction writes with
  | nil => exact fun _ _ _ => ⟨_, rfl⟩
  | cons w writes ih =>
    intro b hs hfits hroom
    have hw := hroom w mem_cons_self
    obtain ⟨mid, hmid⟩ := write_some tag b (hfits w mem_cons_self) (by omega)
    obtain ⟨hunread, hsound⟩ := write_spec hs hmid
    have hreadable : mid.readable = b.readable + w.bytes.length := by
      rw [readable_eq_length, hunread, length_append, length_map, readable_eq_length]
    obtain ⟨b', hb'⟩ := ih hsound (fun v hv => hfits v (mem_cons_of_mem _ hv)) fun v hv => by
      have hv := hroom v (mem_cons_of_mem _ hv)
      rw [flatMap_cons, length_append] at hv
      omega
    refine ⟨b', ?_⟩
    rw [respond, foldlM_cons, hmid]
    exact hb'

/-! ## Serving a stream -/

section Serving

variable (E : Executor S)

/-- a response is what one execution of its request writes -/
def Answers (r : Request) (a : Bytes × Bytes) : Prop :=
  a.1 = r.bytes ∧ ∃ x, a.2 = (E.execute x r.arguments).1.flatMap Write.bytes

/-- the first requests are answered, the others are in the input or on their way -/
structure Serves (requests : List Request) (unreceived : Bytes) (c : Connection) (h : List Happening) : Prop where
  tracks : Tracks c h
  opened : c.closeAfterWrite = false
  synchronous : c.asyncPending = false
  finished : (ledger h).written = []
  answers : List.Forall₂ (Answers E) (requests.take (ledger h).answered.length) (ledger h).answered
  input : c.input.unread ++ unreceived = stream (requests.drop (ledger h).answered.length)

/-- no whole request is left in the input while there is nothing to send -/
def CaughtUp (requests : List Request) (c : Connection) (h : List Happening) : Prop :=
  c.output.readable = 0 → ∀ r, requests[(ledger h).answered.length]? = some r → c.input.readable < r.bytes.length

/-- `EPOLLIN` is asked for while more may be received and the output is below the high-water mark, `EPOLLOUT` while there is
output whose barrier was ready at the last refresh -/
structure Interested (written : ℕ) (c : Connection) : Prop where
  input : c.peerEof = false → c.output.readable < reactorOutputHighWater → c.events.epollin = true
  output : c.output.readable ≠ 0 → barrierReady written c.responseBarrier = true → c.events.epollout = true

variable {E} {requests : List Request} {u : Bytes} {c : Connection} {h : List Happening}

theorem Serves.congr (hs : Serves E requests u c h) {d : Connection} (hin : d.input = c.input) (hout : d.output = c.output)
    (hclose : d.closeAfterWrite = c.closeAfterWrite) (hpending : d.asyncPending = c.asyncPending) :
    Serves E requests u d h :=
  ⟨hs.tracks.congr hin hout hclose hpending, by rw [hclose, hs.opened], by rw [hpending, hs.synchronous], hs.finished,
    hs.answers, by rw [hin, hs.input]⟩

/-- the requests consumed so far -/
theorem consumed_of_answers {l : Ledger} {requests : List Request} (hanswers : List.Forall₂ (Answers E) requests l.answered)
    (hnone : l.waiting = none) : l.consumed = stream requests := by
  rw [Ledger.consumed, hnone, getD_none, append_nil]
  generalize l.answered = answered at hanswers
  induction hanswers with
  | nil => rfl
  | cons hfirst _ ih => rw [flatMap_cons, ih, hfirst.1, stream_cons]

theorem Serves.nothing_waiting (hs : Serves E requests u c h) : (ledger h).waiting = none := by
  rw [← not_isSome_iff_eq_none, hs.tracks.waiting, hs.synchronous]
  simp

theorem Serves.received (hs : Serves E requests u c h) : (ledger h).received ++ u = stream requests := by
  rw [hs.tracks.input hs.opened, consumed_of_answers hs.answers hs.nothing_waiting, append_assoc, hs.input, stream,
    stream, stream, ← flatMap_append, take_append_drop]

theorem Serves.unreceived_eq {l : Life} (hs : Serves E requests u c l.history) : l.unreceived requests = u := by
  rw [Life.unreceived, ← hs.received, drop_left' rfl]

/-- there is a next request while bytes are left -/
theorem Serves.next (hs : Serves E requests u c h) (hsome : c.input.unread ++ u ≠ []) :
    ∃ r, requests[(ledger h).answered.length]? = some r ∧
      c.input.unread ++ u = r.bytes ++ stream (requests.drop ((ledger h).answered.length + 1)) := by
  rw [hs.input] at hsome ⊢
  cases hdrop : requests.drop (ledger h).answered.length with
  | nil =>
    rw [hdrop] at hsome
    exact absurd rfl hsome
  | cons r rest =>
    refine ⟨r, ?_, ?_⟩
    · rw [← List.head?_drop, hdrop, List.head?_cons]
    · rw [stream_cons, ← tail_drop, hdrop, tail_cons]

section

variable (hs : Serves E requests u c h) (hcall : c.Callable)
include hs hcall

/-- what the handler finds at the front of its input -/
theorem Serves.front :
    ∃ r, requests[(ledger h).answered.length]? = some r ∧
      ((∃ rest, c.input.unread = r.bytes ++ rest ∧ rest ++ u = stream (requests.drop ((ledger h).answered.length + 1))) ∨
        (c.input.unread <+: r.bytes ∧ c.input.unread.length < r.bytes.length)) := by
  have hpos := hcall.1
  rw [readable_eq_length] at hpos
  obtain ⟨r, hr, hsplit⟩ := hs.next (by simp [ne_nil_of_length_pos hpos])
  refine ⟨r, hr, ?_⟩
  rcases append_eq_append_iff.1 hsplit with ⟨more, hmore, -⟩ | ⟨rest, hrest, hu⟩
  · rcases Nat.lt_or_ge c.input.unread.length r.bytes.length with hlt | hge
    · exact Or.inr ⟨⟨more, hmore.symm⟩, hlt⟩
    · have hsame : c.input.unread = r.bytes := (prefix_append _ _).eq_of_length_le (hmore ▸ hge) |>.trans hmore.symm
      rw [hsame] at hsplit ⊢
      exact Or.inl ⟨[], (append_nil _).symm, append_cancel_left hsplit⟩
  · exact Or.inl ⟨rest, hrest, hu.symm⟩

/-- a whole request at the front is executed and answered -/
theorem Serves.turn_whole (x : S) (k : ℕ) {r : Request} {rest : Bytes}
    (hr : requests[(ledger h).answered.length]? = some r) (hrest : c.input.unread = r.bytes ++ rest)
    (hu : rest ++ u = stream (requests.drop ((ledger h).answered.length + 1)))
    (hfine : Fine c (dispatchRequest E x c.input.unread c.peerEof k).1) :
    ∃ c', turn c (dispatchRequest E x c.input.unread c.peerEof k).1 = .again c' ∧
      Serves E requests u c' (h ++ [.called c (dispatchRequest E x c.input.unread c.peerEof k).1]) ∧
      c'.peerEof = c.peerEof ∧ c'.input.readable < c.input.readable := by
  have hdispatch : (dispatchRequest E x c.input.unread c.peerEof k).1 =
      ⟨.complete, r.bytes.length, (E.execute x r.arguments).1, false, (E.execute x r.arguments).2.1⟩ := by
    rw [dispatchRequest, hrest, r.parses_append]
  rw [hdispatch] at hfine ⊢
  have hlength : c.input.readable = r.bytes.length + rest.length := by
    rw [readable_eq_length, hrest, length_append]
  have hsmall := E.small x r.arguments
  obtain ⟨output, houtput⟩ := respond_some (E.execute x r.arguments).2.1 (E.execute x r.arguments).1
    hs.tracks.outputSound (E.fits x r.arguments) fun w hw => by
      have hw := E.addressable x r.arguments w hw
      have hlow := hcall.2.1
      omega
  have hturn := turn_complete (o := ⟨.complete, r.bytes.length, (E.execute x r.arguments).1, false, (E.execute x r.arguments).2.1⟩)
    hs.tracks.outputSound rfl ⟨r.length_pos, by rw [hlength]; exact Nat.le_add_right _ _⟩ houtput hsmall
  rw [if_neg (by rw [hfine.1]; simp)] at hturn
  have htracks := hs.tracks.turn hcall (Or.inr hturn)
  refine ⟨_, hturn, ⟨htracks, hs.opened, hs.synchronous, ?_, ?_, ?_⟩, rfl, ?_⟩
  · simp [Ledger.add]
  · simp only [ledger_snoc, Ledger.add, hs.finished, nil_append, length_append, length_singleton]
    rw [take_add_one, hr, toList_some]
    refine rel_append hs.answers (.cons ⟨?_, x, rfl⟩ .nil)
    rw [hrest, take_left' rfl]
  · simp only [ledger_snoc, Ledger.add, length_append, length_singleton]
    rw [← hu]
    simp [Connection.answered, unread_consume, hrest]
  · have hpos := r.length_pos
    simp only [Connection.answered, Bool.false_eq_true, if_false]
    rw [readable_eq_length, unread_consume, length_drop, ← readable_eq_length]
    omega

/-- the beginning of a request waits for the rest -/
theorem Serves.turn_cut (x : S) (k : ℕ) {r : Request}
    (hr : requests[(ledger h).answered.length]? = some r) (hcut : c.input.unread <+: r.bytes)
    (hlt : c.input.unread.length < r.bytes.length) (hfine : Fine c (dispatchRequest E x c.input.unread c.peerEof k).1) :
    turn c (dispatchRequest E x c.input.unread c.peerEof k).1 = .stopped c ∧
      Serves E requests u c (h ++ [.called c (dispatchRequest E x c.input.unread c.peerEof k).1]) ∧
      CaughtUp requests c (h ++ [.called c (dispatchRequest E x c.input.unread c.peerEof k).1]) := by
  have heof : c.peerEof = false := by
    rw [Bool.eq_false_iff]
    intro heof
    obtain ⟨whole, hwhole⟩ := hfine.2 heof
    cases whole with
    | nil =>
      have hpos := hcall.1
      rw [readable_eq_length, hwhole] at hpos
      exact absurd hpos (lt_irrefl 0)
    | cons q whole =>
      have hq : q.bytes <+: c.input.unread := hwhole ▸ prefix_append _ _
      have hsame := Request.not_prefix (hq.trans hcut)
      have hle := hq.length_le
      omega
  have hdispatch : (dispatchRequest E x c.input.unread c.peerEof k).1 = ⟨.incomplete, 0, [], false, 0⟩ := by
    rw [dispatchRequest, heof, r.cut_incomplete hcut hlt]
  rw [hdispatch]
  have hturn : turn c ⟨.incomplete, 0, [], false, 0⟩ = .stopped c := by
    have hle := r.length_le
    have hreadable := readable_eq_length c.input
    simp only [turn, respond, foldlM_nil, Option.pure_def]
    rw [if_neg (by omega)]
  have htracks := hs.tracks.turn hcall (Or.inl hturn)
  refine ⟨hturn, ⟨htracks, hs.opened, hs.synchronous, ?_, ?_, ?_⟩, ?_⟩
  · simp [Ledger.add, HandlerOutcome.bytes, hs.finished]
  · simpa [Ledger.add] using hs.answers
  · simpa [Ledger.add] using hs.input
  · intro _ q hq
    have hqr : some q = some r := by
      rw [← hq, ← hr]
      simp [Ledger.add]
    cases hqr
    rw [readable_eq_length]
    exact hlt

end

/-- the connection goes on serving, with at most that much input -/
def GoesOn (E : Executor S) (requests : List Request) (u : Bytes) (eof : Bool) (most : ℕ) (result : Option Connection)
    (h : List Happening) : Prop :=
  ∃ c, result = some c ∧ Serves E requests u c h ∧ CaughtUp requests c h ∧ c.peerEof = eof ∧ c.input.readable ≤ most

/-- the loop of `process_input` -/
theorem Serves.processLoop (fuel : ℕ) : ∀ (x : S) {c : Connection} {h : List Happening}, Serves E requests u c h →
    c.input.readable ≤ fuel → FineCalls (loopCalls (dispatchRequest E) fuel x c) →
    GoesOn E requests u c.peerEof c.input.readable (processLoop (dispatchRequest E) fuel x c).2
      (h ++ loopCalls (dispatchRequest E) fuel x c) := by
  have hidle : ∀ {c : Connection} {h : List Happening}, Serves E requests u c h → ¬ c.Callable → CaughtUp requests c h := by
    intro c h hs hcall hempty r hr
    have hzero : c.input.readable = 0 := by
      by_contra hne
      exact hcall ⟨Nat.pos_of_ne_zero hne, by rw [hempty]; decide, hs.opened, hs.synchronous⟩
    rw [hzero]
    exact r.length_pos
  induction fuel with
  | zero =>
    intro x c h hs hfuel _
    have hcall : ¬ c.Callable := fun hcall => absurd hcall.1 (by omega)
    exact ⟨c, rfl, by simpa [loopCalls] using hs, by simpa [loopCalls] using hidle hs hcall, rfl, le_rfl⟩
  | succ fuel ih =>
    intro x c h hs hfuel hfine
    rw [Net.processLoop]
    unfold loopCalls at hfine ⊢
    by_cases hcall : c.Callable
    swap
    · rw [if_neg hcall, if_neg hcall, append_nil]
      exact ⟨c, rfl, hs, hidle hs hcall, rfl, le_rfl⟩
    rw [if_pos hcall] at hfine ⊢
    rw [if_pos hcall]
    dsimp only at hfine ⊢
    have hhead := hfine _ _ mem_cons_self
    obtain ⟨r, hr, ⟨rest, hrest, hu⟩ | ⟨hcut, hlt⟩⟩ := hs.front hcall
    · obtain ⟨c', hturn, hs', heof, hless⟩ := hs.turn_whole hcall x c.connectionId hr hrest hu hhead
      rw [hturn] at hfine ⊢
      rw [append_cons]
      obtain ⟨d, hd, hserves, hcaught, hdeof, hmost⟩ :=
        ih _ hs' (by omega) fun d o hmem => hfine d o (mem_cons_of_mem _ hmem)
      exact ⟨d, hd, hserves, hcaught, hdeof.trans heof, by omega⟩
    · obtain ⟨hturn, hs', hcaught⟩ := hs.turn_cut hcall x c.connectionId hr hcut hlt hhead
      rw [hturn]
      exact ⟨c, rfl, hs', hcaught, rfl, le_rfl⟩

theorem Serves.processInput (x : S) (hs : Serves E requests u c h) (hfine : FineCalls (inputCalls (dispatchRequest E) x c)) :
    GoesOn E requests u c.peerEof c.input.readable (processInput (dispatchRequest E) x c).2
      (h ++ inputCalls (dispatchRequest E) x c) :=
  Serves.processLoop c.input.readable x hs le_rfl hfine

theorem FineCalls.left {a b : List Happening} (hfine : FineCalls (a ++ b)) : FineCalls a :=
  fun c o hmem => hfine c o (mem_append_left _ hmem)

theorem FineCalls.right {a b : List Happening} (hfine : FineCalls (a ++ b)) : FineCalls b :=
  fun c o hmem => hfine c o (mem_append_right _ hmem)

theorem Serves.reserved (hs : Serves E requests u c h) {input : NetBuffer UInt8} {n : ℕ}
    (hr : c.input.reserve true n = some input) : Serves E requests u { c with input := input } h :=
  ⟨hs.tracks.reserved hr, hs.opened, hs.synchronous, hs.finished, hs.answers, by rw [unread_reserve hr]; exact hs.input⟩

theorem Serves.chunk {bytes : Bytes} (hs : Serves E requests u c h) (hbegin : bytes <+: u) {input : NetBuffer UInt8}
    (hcommit : c.input.commit bytes = some input) :
    Serves E requests (u.drop bytes.length) { c with input := input } (h ++ [.received bytes]) := by
  refine ⟨hs.tracks.received hcommit, hs.opened, hs.synchronous, ?_, ?_, ?_⟩
  · simpa [Ledger.add] using hs.finished
  · simpa [Ledger.add] using hs.answers
  · obtain ⟨rest, rfl⟩ := hbegin
    simpa [(unread_commit hs.tracks.inputSound hcommit).1, Ledger.add] using hs.input

/-- one `recv` finds room for its bytes -/
theorem Serves.receives {bytes : Bytes} (hs : Serves E requests u c h) (hspace : c.input.readable + reactorIoChunk ≤ sizeMax)
    (hsize : bytes.length ≤ reactorIoChunk) (hbegin : bytes <+: u) :
    ∃ input filled, c.input.reserve true reactorIoChunk = some input ∧ input.commit bytes = some filled ∧
      Serves E requests (u.drop bytes.length) { c with input := filled } (h ++ [.received bytes]) ∧
      filled.readable = c.input.readable + bytes.length := by
  obtain ⟨input, hinput, hfree⟩ := reserve_some c.input (n := reactorIoChunk) (by omega)
  have hres := hs.reserved hinput
  have hcommit : input.commit bytes = some { input with data := input.data ++ bytes } := by
    rw [commit, if_neg (by omega)]
  refine ⟨input, _, hinput, hcommit, hres.chunk hbegin hcommit, ?_⟩
  rw [readable_eq_length, (unread_commit hres.tracks.inputSound hcommit).1, length_append,
    unread_reserve hinput, readable_eq_length]

/-- `handle_read` -/
theorem Serves.handleRead (script : List RecvResult) : ∀ (x : S) {u : Bytes} {c : Connection} {h : List Happening},
    Serves E requests u c h → c.input.readable + reactorIoChunk * (script.length + 1) ≤ sizeMax → Delivers script u →
    FineCalls (readHappenings (dispatchRequest E) script x c) →
    ∃ u' eof most, GoesOn E requests u' eof most (handleRead (dispatchRequest E) script x c).2
        (h ++ readHappenings (dispatchRequest E) script x c) ∧ (eof = c.peerEof ∨ (eof = true ∧ u' = [])) := by
  induction script with
  | nil =>
    intro x u c h hs hspace _ hfine
    unfold readHappenings at hfine ⊢
    unfold Net.handleRead
    split_ifs at hfine ⊢
    · exact ⟨u, _, _, hs.processInput x hfine, Or.inl rfl⟩
    · obtain ⟨input, hinput, -⟩ := reserve_some c.input (n := reactorIoChunk) (by simp at hspace; omega)
      rw [hinput] at hfine ⊢
      exact ⟨u, _, _, (hs.reserved hinput).processInput x hfine, Or.inl rfl⟩
  | cons r rest ih =>
    intro x u c h hs hspace hdelivers hfine
    rw [length_cons, Nat.mul_add, Nat.mul_one] at hspace
    unfold readHappenings at hfine ⊢
    unfold Net.handleRead
    split_ifs at hfine ⊢
    · exact ⟨u, _, _, hs.processInput x hfine, Or.inl rfl⟩
    obtain ⟨input, hinput, hfree⟩ := reserve_some c.input (n := reactorIoChunk) (by omega)
    have hsame : input.readable = c.input.readable := by
      rw [readable_eq_length, unread_reserve hinput, readable_eq_length]
    have hres := hs.reserved hinput
    cases r with
    | noMemory | failed => exact absurd hdelivers id
    | wouldBlock =>
      simp only [hinput] at hfine ⊢
      exact ⟨u, _, _, hres.processInput x hfine, Or.inl rfl⟩
    | interrupted =>
      simp only [hinput] at hfine ⊢
      exact ih x hres (by dsimp only; omega) hdelivers hfine
    | closed =>
      simp only [hinput] at hfine ⊢
      have hclosed : Serves E requests u { c with input := input, peerEof := true } h := hres.congr rfl rfl rfl rfl
      exact ⟨u, _, _, hclosed.processInput x hfine, Or.inr ⟨rfl, hdelivers⟩⟩
    | received bytes =>
      obtain ⟨hsize, hbegin, hnext⟩ := hdelivers
      obtain ⟨_, filled, hinput, hcommit, hchunk, hmore⟩ := hs.receives (by omega) hsize hbegin
      simp only [hinput, hcommit] at hfine ⊢
      have hrest : FineCalls _ := fun d o hmem => hfine d o (mem_cons_of_mem _ hmem)
      have hproc := hchunk.processInput x hrest.left
      rw [append_cons, ← append_assoc]
      generalize Net.processInput (dispatchRequest E) x _ = answer at hproc hrest ⊢
      obtain ⟨x', result⟩ := answer
      obtain ⟨d, hd, hserves, -, heof, hmost⟩ := hproc
      dsimp only at hd hmost
      subst hd
      obtain ⟨u', eof, most, hgoes, hor⟩ := ih x' hserves (by omega) hnext hrest.right
      rw [heof] at hor
      exact ⟨u', eof, most, hgoes, hor⟩

/-- what a refresh leaves -/
theorem refresh_spec (written : ℕ) (c : Connection) :
    ∃ d, refreshClientEvents true written c = some d ∧ d.input = c.input ∧ d.output = c.output ∧
      d.closeAfterWrite = c.closeAfterWrite ∧ d.asyncPending = c.asyncPending ∧ d.peerEof = c.peerEof ∧
      (c.closeAfterWrite = false → c.asyncPending = false → Interested written d) := by
  unfold refreshClientEvents
  simp only [if_true]
  split_ifs with hsame
  · refine ⟨c, rfl, rfl, rfl, rfl, rfl, rfl, fun hclose hpending => ⟨fun heof hlow => ?_, fun hsome hready => ?_⟩⟩
    · rw [hsame]
      simp [hclose, hpending, heof, hlow]
    · rw [hsame]
      simp [hready, Nat.pos_of_ne_zero hsome]
  · refine ⟨_, rfl, rfl, rfl, rfl, rfl, rfl, fun hclose hpending => ⟨fun heof hlow => ?_, fun hsome hready => ?_⟩⟩
    · simp only at heof hlow
      simp [hclose, hpending, heof, hlow]
    · simp only at hsome hready
      simp [hready, Nat.pos_of_ne_zero hsome]

/-- the state of a connection between two events -/
structure Ready (E : Executor S) (requests : List Request) (written : ℕ) (c : Connection) (h : List Happening) : Prop where
  serves : ∃ u, Serves E requests u c h ∧ (c.peerEof = true → u = [])
  caughtUp : CaughtUp requests c h
  interested : Interested written c

theorem Ready.refresh (written : ℕ) (hs : Serves E requests u c h) (hcaught : CaughtUp requests c h)
    (heof : c.peerEof = true → u = []) :
    ∃ d, refreshClientEvents true written c = some d ∧ Ready E requests written d h := by
  obtain ⟨d, hd, hin, hout, hclose, hpending, hpeer, hinterested⟩ := refresh_spec written c
  refine ⟨d, hd, ⟨u, hs.congr hin hout hclose hpending, by rw [hpeer]; exact heof⟩, ?_, hinterested hs.opened hs.synchronous⟩
  unfold CaughtUp
  rw [hin, hout]
  exact hcaught

/-- everything was executed and sent -/
structure Finished (E : Executor S) (requests : List Request) (h : List Happening) : Prop where
  answers : List.Forall₂ (Answers E) requests (ledger h).answered
  sent : (ledger h).sent = (ledger h).responses

/-- with the whole stream received and nothing left to send, all is done -/
theorem Serves.finish (hs : Serves E requests [] c h) (hcaught : CaughtUp requests c h) (hempty : c.output.readable = 0) :
    Finished E requests h := by
  have hnone : c.input.unread ++ [] = [] := by
    by_contra hsome
    obtain ⟨r, hr, hsplit⟩ := hs.next hsome
    have hshort := hcaught hempty r hr
    have hlength := congrArg List.length hsplit
    rw [append_nil, length_append, ← readable_eq_length] at hlength
    omega
  have hdone := stream_eq_nil (hnone ▸ hs.input).symm
  have hanswers := hs.answers
  rw [take_of_length_le (drop_eq_nil_iff.1 hdone)] at hanswers
  refine ⟨hanswers, ?_⟩
  rw [hs.tracks.output, NetBuffer.unread_of_readable_zero hempty]
  simp

theorem flush_result {α : Type} (sends : List SendResult) : ∀ (b : NetBuffer α),
    (∀ s ∈ sends, s ≠ .failed ∧ s ≠ .written 0) → (flushFd sends b).1 ≠ .failed ∧
      ((flushFd sends b).1 = .blocked → (flushFd sends b).2.1.readable ≠ 0) := by
  induction sends with
  | nil =>
    intro b _
    unfold flushFd
    split_ifs with hzero
    · exact ⟨by simp, by simp⟩
    · exact ⟨by simp, fun _ => hzero⟩
  | cons s sends ih =>
    intro b hs
    obtain ⟨hfailed, hnone⟩ := hs s mem_cons_self
    have hrest := fun b => ih b fun t ht => hs t (mem_cons_of_mem _ ht)
    unfold flushFd
    split_ifs with hzero
    · exact ⟨by simp, by simp⟩
    cases s with
    | written n =>
      cases n with
      | zero => exact absurd rfl hnone
      | succ n => exact hrest _
    | interrupted => exact hrest b
    | wouldBlock => exact ⟨by simp, fun _ => hzero⟩
    | failed => exact absurd rfl hfailed

theorem Serves.flush (hs : Serves E requests u c h) (sends : List SendResult) :
    Serves E requests u (c.flushed (flushFd sends c.output).2.1)
      (h ++ [.sent ((taken sends c.output).map Prod.fst)]) := by
  refine ⟨hs.tracks.sent sends, hs.opened, hs.synchronous, ?_, ?_, ?_⟩
  · simpa [Ledger.add] using hs.finished
  · simpa [Ledger.add] using hs.answers
  · simpa [Ledger.add, Connection.flushed] using hs.input

/-- `handle_write` -/
theorem Serves.handleWrite (sends : List SendResult) (written : ℕ) (x : S) (hs : Serves E requests u c h)
    (heof : c.peerEof = true → u = []) (hsends : ∀ s ∈ sends, s ≠ .failed ∧ s ≠ .written 0)
    (hfine : FineCalls (writeHappenings (dispatchRequest E) sends x c)) :
    (∃ d, (handleWrite (dispatchRequest E) sends true written x c).2.1 = some d ∧
      Ready E requests written d (h ++ writeHappenings (dispatchRequest E) sends x c)) ∨
    ((handleWrite (dispatchRequest E) sends true written x c).2.1 = none ∧
      Finished E requests (h ++ writeHappenings (dispatchRequest E) sends x c)) := by
  have hflush := hs.flush sends
  have hok := flush_result sends c.output hsends
  unfold Net.handleWrite writeHappenings at *
  rw [append_cons]
  have hcalls : FineCalls _ := fun d o hmem => hfine d o (mem_cons_of_mem _ hmem)
  generalize flushFd sends c.output = answer at *
  obtain ⟨result, output, passed⟩ := answer
  cases result with
  | failed => exact absurd rfl hok.1
  | blocked =>
    have hcaught : CaughtUp requests (c.flushed output) (h ++ [.sent ((taken sends c.output).map Prod.fst)]) :=
      fun hempty => absurd hempty (hok.2 rfl)
    obtain ⟨d, hd, hready⟩ := Ready.refresh written hflush hcaught heof
    exact Or.inl ⟨d, hd, by simpa using hready⟩
  | drained =>
    have hopen : (c.flushed output).closeAfterWrite = false := hs.opened
    simp only [reduceCtorEq, if_false, hopen, hs.opened, Bool.false_eq_true] at hcalls ⊢
    have hproc := hflush.processInput x hcalls
    generalize Net.processInput (dispatchRequest E) x (c.flushed output) = answer at hproc ⊢
    obtain ⟨x', result⟩ := answer
    obtain ⟨d, hd, hserves, hcaught, hdeof, -⟩ := hproc
    dsimp only at hd
    subst hd
    have hall : d.peerEof = true → u = [] := fun h => heof (hdeof.symm.trans h)
    simp only
    split_ifs with hlast
    · rw [hall hlast.1] at hserves
      exact Or.inr ⟨rfl, hserves.finish hcaught hlast.2⟩
    · exact Or.inl (Ready.refresh written hserves hcaught hall)

/-! ## Whole runs -/

variable {written : ℕ} {l : Life}

/-- between two events: ready for the next one, or done -/
structure Serving (E : Executor S) (requests : List Request) (written : ℕ) (l : Life) : Prop where
  ready : ∀ c, l.connection = some c → Ready E requests written c l.history
  finished : l.connection = none → Finished E requests l.history

theorem Ready.serving (hc : l.connection = some c) (hready : Ready E requests written c l.history) :
    Serving E requests written l := by
  refine ⟨fun d hd => ?_, fun hnone => ?_⟩
  · rw [hc] at hd
    cases hd
    exact hready
  · rw [hc] at hnone
    cases hnone

theorem Finished.serving (hc : l.connection = none) (hdone : Finished E requests l.history) :
    Serving E requests written l := by
  refine ⟨fun d hd => ?_, fun _ => hdone⟩
  rw [hc] at hd
  cases hd

section

variable (hl : Serving E requests written l)
include hl

theorem Serving.settled : Serving E requests written l.settled := by
  unfold Life.settled
  cases hc : l.connection with
  | none => exact hl
  | some c =>
    simp only
    split_ifs with hlast
    · have hready := hl.ready c hc
      obtain ⟨u, hserves, heof⟩ := hready.serves
      rw [heof hlast.1] at hserves
      exact Finished.serving rfl (hserves.finish hready.caughtUp hlast.2)
    · exact hl

/-- the first half of a visit -/
theorem Serving.reading (v : Visit S) (hdelivers : Delivers v.recvs (l.unreceived requests)) (hctl : v.ctl = true)
    (hspace : ∀ c, l.connection = some c → c.input.readable + reactorIoChunk * (v.recvs.length + 1) ≤ sizeMax)
    (hfine : FineCalls (l.reading (dispatchRequest E) v).history)
    (hall : ∀ c, (l.reading (dispatchRequest E) v).connection = some c → c.peerEof = true →
      (l.reading (dispatchRequest E) v).unreceived requests = []) :
    Serving E requests (if v.epollin then v.readWritten else written) (l.reading (dispatchRequest E) v) := by
  cases hc : l.connection with
  | none =>
    have hsame : l.reading (dispatchRequest E) v = l := by
      simp [Life.reading, act_none hc]
    rw [hsame]
    exact (hl.finished hc).serving hc
  | some c =>
    obtain ⟨⟨u, hs, heof⟩, hcaught, hinterested⟩ := hl.ready c hc
    rw [hs.unreceived_eq] at hdelivers
    have hnoted : Serves E requests u { c with peerEof := c.peerEof || v.rdhup } l.history := hs.congr rfl rfl rfl rfl
    unfold Life.reading at hfine hall ⊢
    rw [noted_eq hc] at hfine hall ⊢
    cases hin : v.epollin with
    | false =>
      simp only [hin, Bool.false_eq_true, if_false] at hall ⊢
      refine Ready.serving rfl ⟨⟨u, hnoted, fun h => ?_⟩, hcaught, fun h hlow => ?_, hinterested.output⟩
      · rw [← hnoted.unreceived_eq (l := ⟨some { c with peerEof := c.peerEof || v.rdhup }, l.history⟩)]
        exact hall _ rfl h
      · exact hinterested.input (Bool.or_eq_false_iff.1 h).1 hlow
    | true =>
      simp only [hin, if_true, hctl] at hfine hall ⊢
      rw [act_refresh_history] at hfine
      generalize hnote : ({ c with peerEof := c.peerEof || v.rdhup } : Connection) = noted at *
      have hspace' := hspace c hc
      have hinput : c.input = noted.input := by rw [← hnote]
      rw [hinput] at hspace'
      obtain ⟨u', eof, most, ⟨d, hd, hserves, hcaught', hdeof, -⟩, -⟩ :=
        Serves.handleRead v.recvs v.context hnoted hspace' hdelivers hfine.right
      obtain ⟨d', hd', hin, hout, hclose, hpending, hpeer, hinterested'⟩ := refresh_spec v.readWritten d
      have hread : Life.act (dispatchRequest E) ⟨some noted, l.history⟩ (.read v.context v.recvs) =
          ⟨some d, l.history ++ readHappenings (dispatchRequest E) v.recvs v.context noted⟩ := by
        simp only [Life.act, hd]
      rw [hread] at hall ⊢
      have hrefresh : ∀ history, Life.act (dispatchRequest E) ⟨some d, history⟩ (.refresh true v.readWritten) =
          ⟨some d', history⟩ := by
        intro history
        simp only [Life.act, hd']
      rw [hrefresh] at hall ⊢
      have hserves' : Serves E requests u' d' _ := hserves.congr hin hout hclose hpending
      refine Ready.serving rfl ⟨⟨u', hserves', fun h => ?_⟩, ?_, hinterested' hserves.opened hserves.synchronous⟩
      · rw [← Serves.unreceived_eq (l := ⟨some d', _⟩) hserves']
        exact hall _ rfl h
      · unfold CaughtUp
        rw [hin, hout]
        exact hcaught'

/-- a visit -/
theorem Serving.visit (v : Visit S) (hhonest : Honest requests l (.visit v))
    (hfavourable : Favourable (dispatchRequest E) requests l (.visit v)) :
    Serving E requests (refreshedAt written (.visit v)) (l.visit (dispatchRequest E) v) := by
  obtain ⟨hdelivers, hsends, hctl, hspace⟩ := hhonest
  obtain ⟨hfine, hall⟩ := hfavourable
  unfold Life.visit refreshedAt at *
  rw [settled_history] at hfine
  refine Serving.settled ?_
  cases hout : v.epollout with
  | false =>
    simp only [hout, Bool.false_eq_true, if_false] at hfine ⊢
    exact hl.reading v hdelivers hctl hspace hfine hall
  | true =>
    simp only [hout, if_true, hctl] at hfine ⊢
    cases hc : (l.reading (dispatchRequest E) v).connection with
    | none =>
      rw [act_none hc] at hfine ⊢
      exact ((hl.reading v hdelivers hctl hspace hfine hall).finished hc).serving hc
    | some c =>
      have hact : ∀ a, (l.reading (dispatchRequest E) v).act (dispatchRequest E) a =
          Life.act (dispatchRequest E) ⟨some c, (l.reading (dispatchRequest E) v).history⟩ a := by
        intro a
        rw [← hc]
      rw [hact] at hfine ⊢
      have hserving := hl.reading v hdelivers hctl hspace hfine.left hall
      obtain ⟨u, hs, heof⟩ := (hserving.ready c hc).serves
      rcases hs.handleWrite v.sends v.sentWritten v.flushed heof hsends hfine.right with ⟨d, hd, hready⟩ | ⟨hnone, hdone⟩
      · exact Ready.serving hd hready
      · exact Finished.serving hnone hdone

theorem Serving.move (m : Move S) (hhonest : Honest requests l m) (hfavourable : Favourable (dispatchRequest E) requests l m) :
    Serving E requests (refreshedAt written m) (l.move (dispatchRequest E) m) := by
  cases m with
  | visit v => exact hl.visit v hhonest hfavourable
  | refresh written =>
    unfold Life.move
    cases hc : l.connection with
    | none =>
      dsimp only
      rw [act_none hc]
      exact (hl.finished hc).serving hc
    | some c =>
      obtain ⟨⟨u, hs, heof⟩, hcaught, -⟩ := hl.ready c hc
      obtain ⟨d, hd, hready⟩ := Ready.refresh written hs hcaught heof
      simp only [Life.act, hc]
      exact Ready.serving hd hready

end

theorem Serving.moves (ms : List (Move S)) : ∀ {written : ℕ} {l : Life}, Serving E requests written l →
    Along (dispatchRequest E) (Honest requests) l ms →
    Along (dispatchRequest E) (Favourable (dispatchRequest E) requests) l ms →
    Serving E requests (ms.foldl refreshedAt written) (l.moves (dispatchRequest E) ms) := by
  induction ms with
  | nil => exact fun hl _ _ => hl
  | cons m ms ih => exact fun hl hhonest hfavourable => ih (hl.move m hhonest.1 hfavourable.1) hhonest.2 hfavourable.2

/-! ## What the events bring -/

theorem turn_readPos {o : HandlerOutcome} {c' : Connection} (hs : c.output.Sound) (hzero : c.output.readPos = 0)
    (h : turn c o = .stopped c' ∨ turn c o = .again c') : c'.output.readPos = 0 := by
  obtain ⟨output, hrespond, hcases⟩ := turn_spec h
  have hout : output.readPos = 0 := by
    rcases respond_moves _ hs hrespond with ⟨-, -, hpos⟩ | ⟨-, -, hpos⟩
    · rw [hpos, hzero]
    · exact hpos
  rcases hcases with ⟨-, rfl⟩ | ⟨-, rfl⟩ | ⟨-, rfl⟩
  · exact hout
  · exact hout
  · rw [answered_output]
    exact hout

/-- the calls of the loop of `process_input` are fine while nothing of the output is sent -/
theorem Serves.fine_loop (fuel : ℕ) : ∀ (x : S) {c : Connection} {h : List Happening}, Serves E requests u c h →
    c.output.readPos = 0 → (c.peerEof = true → u = []) → FineCalls (loopCalls (dispatchRequest E) fuel x c) ∧
      ∀ d, (Net.processLoop (dispatchRequest E) fuel x c).2 = some d → d.output.readPos = 0 := by
  induction fuel with
  | zero =>
    intro x c h _ hzero _
    exact ⟨fun _ _ hmem => absurd hmem (by simp [loopCalls]), fun d hd => by cases hd; exact hzero⟩
  | succ fuel ih =>
    intro x c h hs hzero hend
    unfold loopCalls Net.processLoop
    by_cases hcall : c.Callable
    swap
    · rw [if_neg hcall, if_neg hcall]
      exact ⟨fun _ _ hmem => absurd hmem (by simp), fun d hd => by cases hd; exact hzero⟩
    rw [if_pos hcall, if_pos hcall]
    dsimp only
    have hhead : Fine c (dispatchRequest E x c.input.unread c.peerEof c.connectionId).1 := by
      refine ⟨by simp [falls, hzero], fun heof => ⟨requests.drop (ledger h).answered.length, ?_⟩⟩
      rw [← hs.input, hend heof, append_nil]
    obtain ⟨r, hr, ⟨rest, hrest, hleft⟩ | ⟨hcut, hlt⟩⟩ := hs.front hcall
    · obtain ⟨c', hturn, hs', heof, -⟩ := hs.turn_whole hcall x c.connectionId hr hrest hleft hhead
      rw [hturn]
      obtain ⟨hfine, hpos⟩ := ih (dispatchRequest E x c.input.unread c.peerEof c.connectionId).2 hs'
        (turn_readPos hs.tracks.outputSound hzero (Or.inr hturn)) (heof ▸ hend)
      refine ⟨fun d o hmem => ?_, hpos⟩
      rcases mem_cons.1 hmem with hmem | hmem
      · cases hmem
        exact hhead
      · exact hfine d o hmem
    · obtain ⟨hturn, -, -⟩ := hs.turn_cut hcall x c.connectionId hr hcut hlt hhead
      rw [hturn]
      refine ⟨fun d o hmem => ?_, fun d hd => ?_⟩
      · cases mem_singleton.1 hmem
        exact hhead
      · cases hd
        exact hzero

/-- what was partly sent before is gone when everything is sent -/
theorem flush_readPos {α : Type} (sends : List SendResult) : ∀ (b : NetBuffer α),
    b.readPos = 0 ∨ b.readable ≠ 0 → (flushFd sends b).1 = .drained → (flushFd sends b).2.1.readPos = 0 := by
  induction sends with
  | nil =>
    intro b hb
    unfold flushFd
    split_ifs with hempty
    · exact fun _ => hb.resolve_right fun h => h hempty
    · exact fun h => by cases h
  | cons s sends ih =>
    intro b hb
    unfold flushFd
    split_ifs with hempty
    · exact fun _ => hb.resolve_right fun h => h hempty
    cases s with
    | written n =>
      cases n with
      | zero => exact fun h => by cases h
      | succ n =>
        refine ih _ ?_
        unfold consume
        split_ifs with hall
        · exact Or.inl rfl
        · refine Or.inr ?_
          simp only [readable, writePos] at hall ⊢
          omega
    | interrupted => exact ih b hb
    | wouldBlock | failed => exact fun h => by cases h

theorem Serves.fine_write (hs : Serves E requests u c h) (sends : List SendResult) (x : S)
    (hend : c.peerEof = true → u = []) (hsent : c.output.readPos = 0 ∨ c.output.readable ≠ 0) :
    FineCalls (writeHappenings (dispatchRequest E) sends x c) := by
  intro d o hmem
  have hflush := hs.flush sends
  have hzero := flush_readPos sends c.output hsent
  rcases mem_cons.1 hmem with hmem | hmem
  · cases hmem
  generalize flushFd sends c.output = answer at *
  obtain ⟨result, output, passed⟩ := answer
  cases result with
  | failed => cases hmem
  | blocked => cases hmem
  | drained =>
    simp only [hs.opened, Bool.false_eq_true, if_false] at hmem
    exact (hflush.fine_loop _ x (hzero rfl) hend).1 d o hmem

/-- `handle_read` makes fine calls while nothing of the output is sent, and after a hang-up reads all at once -/
theorem Serves.fine_read (script : List RecvResult) : ∀ (x : S) {u : Bytes} {c : Connection} {h : List Happening},
    Serves E requests u c h → c.input.readable + reactorIoChunk * (script.length + 1) ≤ sizeMax → Delivers script u →
    c.output.readPos = 0 → (c.peerEof = true → u = [] ∨ (c.output.readable < reactorOutputHighWater ∧
      ∃ rest, script = .received u :: rest)) →
    FineCalls (readHappenings (dispatchRequest E) script x c) ∧
      ∃ d u', (Net.handleRead (dispatchRequest E) script x c).2 = some d ∧
        Serves E requests u' d (h ++ readHappenings (dispatchRequest E) script x c) ∧ d.output.readPos = 0 ∧
        (d.peerEof = true → u' = []) := by
  -- `process_input` at the end of the reading
  have hlast : ∀ (x : S) {u : Bytes} {c : Connection} {h : List Happening}, Serves E requests u c h → c.output.readPos = 0 →
      (c.peerEof = true → u = []) → FineCalls (inputCalls (dispatchRequest E) x c) ∧
        ∃ d u', (Net.processInput (dispatchRequest E) x c).2 = some d ∧
          Serves E requests u' d (h ++ inputCalls (dispatchRequest E) x c) ∧ d.output.readPos = 0 ∧
          (d.peerEof = true → u' = []) := by
    intro x u c h hs hzero hend
    obtain ⟨hfine, hpos⟩ := Serves.fine_loop c.input.readable x hs hzero hend
    obtain ⟨d, hd, hserves, -, heof, -⟩ := hs.processInput x hfine
    exact ⟨hfine, d, u, hd, hserves, hpos d hd, fun h => hend (heof ▸ h)⟩
  induction script with
  | nil =>
    intro x u c h hs hspace _ hzero hhangup
    have hend : c.peerEof = true → u = [] := fun heof => (hhangup heof).resolve_right (by simp)
    unfold readHappenings Net.handleRead
    split_ifs
    · exact hlast x hs hzero hend
    · obtain ⟨input, hinput, -⟩ := reserve_some c.input (n := reactorIoChunk) (by simp at hspace; omega)
      rw [hinput]
      exact hlast x (hs.reserved hinput) hzero hend
  | cons r rest ih =>
    intro x u c h hs hspace hdelivers hzero hhangup
    rw [length_cons, Nat.mul_add, Nat.mul_one] at hspace
    unfold readHappenings Net.handleRead
    split_ifs with hstop
    · refine hlast x hs hzero fun heof => (hhangup heof).resolve_right fun hall => ?_
      simp only [hs.opened, hs.synchronous, Bool.false_eq_true, false_or] at hstop
      omega
    obtain ⟨input, hinput, -⟩ := reserve_some c.input (n := reactorIoChunk) (by omega)
    have hres := hs.reserved hinput
    cases r with
    | noMemory => exact absurd hdelivers id
    | failed => exact absurd hdelivers id
    | wouldBlock =>
      simp only [hinput]
      exact hlast x hres hzero fun heof => (hhangup heof).resolve_right (by simp)
    | interrupted =>
      have hsame : input.readable = c.input.readable := by
        rw [readable_eq_length, unread_reserve hinput, readable_eq_length]
      simp only [hinput]
      exact ih x hres (by dsimp only; omega) hdelivers hzero fun heof => Or.inl ((hhangup heof).resolve_right (by simp))
    | closed =>
      simp only [hinput]
      have hclosed : Serves E requests u { c with input := input, peerEof := true } h := hres.congr rfl rfl rfl rfl
      exact hlast x hclosed hzero fun _ => hdelivers
    | received bytes =>
      obtain ⟨hsize, hbegin, hnext⟩ := hdelivers
      obtain ⟨_, filled, hinput, hcommit, hchunk, hmore⟩ := hs.receives (by omega) hsize hbegin
      simp only [hinput, hcommit]
      have hend : c.peerEof = true → u.drop bytes.length = [] := by
        intro heof
        rcases hhangup heof with rfl | ⟨-, _, hall⟩
        · exact drop_nil
        · cases hall
          exact drop_length
      obtain ⟨hfine, hpos⟩ := Serves.fine_loop filled.readable x hchunk hzero hend
      have hproc := hchunk.processInput x hfine
      have hkept : ∀ d, (Net.processInput (dispatchRequest E) x { c with input := filled }).2 = some d →
        d.output.readPos = 0 := hpos
      generalize Net.processInput (dispatchRequest E) x { c with input := filled } = answer at hproc hkept
      obtain ⟨x', result⟩ := answer
      obtain ⟨d, hd, hserves, -, heof, hmost⟩ := hproc
      dsimp only at hd hmost heof
      subst hd
      obtain ⟨hrest, d', u', hd', hserves', hlater⟩ := ih x' hserves (by omega) hnext (hkept d rfl) fun h =>
        Or.inl (hend (heof.symm.trans h))
      refine ⟨fun e o hmem => ?_, d', u', hd', ?_, hlater⟩
      · rcases mem_cons.1 hmem with hmem | hmem
        · cases hmem
        · rcases mem_append.1 hmem with hmem | hmem
          · exact hfine e o hmem
          · exact hrest e o hmem
      · simpa only [append_assoc, cons_append, nil_append] using hserves'

/-- the first half of a visit -/
theorem Timely.reading (v : Visit S) (hhonest : Honest requests l (.visit v)) (ht : Timely requests l (.visit v))
    (hpast : FineCalls l.history) (hc : l.connection = some c) (hs : Serves E requests u c l.history)
    (heof : c.peerEof = true → u = []) :
    ∃ d u', (l.reading (dispatchRequest E) v).connection = some d ∧ FineCalls (l.reading (dispatchRequest E) v).history ∧
      Serves E requests u' d (l.reading (dispatchRequest E) v).history ∧ (d.peerEof = true → u' = []) ∧
      (d.output.readPos = 0 ∨ d.output.readable ≠ 0) := by
  obtain ⟨hdelivers, -, hctl, hspace⟩ := hhonest
  obtain ⟨hsending, hhangup⟩ := ht c hc
  rw [hs.unreceived_eq] at hdelivers hhangup
  have hnoted : Serves E requests u { c with peerEof := c.peerEof || v.rdhup } l.history := hs.congr rfl rfl rfl rfl
  unfold Life.reading
  rw [noted_eq hc]
  cases hin : v.epollin with
  | false =>
    refine ⟨_, u, rfl, hpast, hnoted, fun h => ?_, hsending.imp_right And.right⟩
    rcases Bool.or_eq_true_iff.1 h with h | h
    · exact heof h
    · exact (hhangup h).resolve_right (by simp [hin])
  | true =>
    have hzero : c.output.readPos = 0 := hsending.resolve_right (by simp [hin])
    obtain ⟨hfine, d, u', hd, hserves, hpos, hend⟩ := Serves.fine_read v.recvs v.context hnoted (hspace c hc) hdelivers hzero
      fun h => (Bool.or_eq_true_iff.1 h).elim (fun h => Or.inl (heof h)) fun h => (hhangup h).imp_right And.right
    obtain ⟨d', hd', hin', hout, hclose, hpending, hpeer, -⟩ := refresh_spec v.readWritten d
    simp only [if_true, Life.act, hd, hctl, hd']
    refine ⟨d', u', rfl, fun e o hmem => ?_, hserves.congr hin' hout hclose hpending, by rw [hpeer]; exact hend,
      Or.inl (by rw [hout]; exact hpos)⟩
    rcases mem_append.1 hmem with hmem | hmem
    · exact hpast e o hmem
    · exact hfine e o hmem

/-- **What the event brings decides.** -/
theorem Timely.favourable (hl : Serving E requests written l) (v : Visit S) (hhonest : Honest requests l (.visit v))
    (ht : Timely requests l (.visit v)) (hpast : FineCalls l.history) :
    Favourable (dispatchRequest E) requests l (.visit v) := by
  simp only [Favourable, Life.visit, settled_history]
  cases hc : l.connection with
  | none =>
    have hsame : l.reading (dispatchRequest E) v = l := by simp [Life.reading, act_none hc]
    simp only [hsame, act_none hc, ite_self]
    exact ⟨hpast, fun c h => by rw [hc] at h; cases h⟩
  | some c =>
    obtain ⟨u, hs, heof⟩ := (hl.ready c hc).serves
    obtain ⟨d, u', hd, hfine, hserves, hend, hsent⟩ := ht.reading v hhonest hpast hc hs heof
    refine ⟨?_, fun e he hpeer => ?_⟩
    · cases v.epollout with
      | false => exact hfine
      | true =>
        simp only [if_true, Life.act, hd]
        intro e o hmem
        rcases mem_append.1 hmem with hmem | hmem
        · exact hfine e o hmem
        · exact hserves.fine_write v.sends v.flushed hend hsent e o hmem
    · rw [hd] at he
      cases he
      rw [hserves.unreceived_eq, hend hpeer]

theorem Timely.along (ms : List (Move S)) : ∀ {written : ℕ} {l : Life}, Serving E requests written l → FineCalls l.history →
    Along (dispatchRequest E) (Honest requests) l ms → Along (dispatchRequest E) (Timely requests) l ms →
    Along (dispatchRequest E) (Favourable (dispatchRequest E) requests) l ms := by
  induction ms with
  | nil => exact fun _ _ _ _ => trivial
  | cons m ms ih =>
    intro written l hl hpast hhonest ht
    cases m with
    | visit v =>
      have hfavourable := ht.1.favourable hl v hhonest.1 hpast
      exact ⟨hfavourable, ih (hl.move _ hhonest.1 hfavourable) hfavourable.1 hhonest.2 ht.2⟩
    | refresh written =>
      refine ⟨trivial, ih (hl.move _ trivial trivial) ?_ hhonest.2 ht.2⟩
      rw [Life.move, act_refresh_history]
      exact hpast

/-- a new connection -/
def born (k : ℕ) : Life := ⟨some (clientCreate k), []⟩

theorem serving_born (E : Executor S) (requests : List Request) (k : ℕ) : Serving E requests 0 (born k) := by
  refine Ready.serving rfl ⟨⟨stream requests, ⟨tracks_create k, rfl, rfl, rfl, .nil, rfl⟩, ?_⟩, ?_, ?_⟩
  · intro h
    cases h
  · intro _ r _
    exact r.length_pos
  · exact ⟨fun _ _ => rfl, fun h => absurd rfl h⟩

/-- the requests answered are the first ones of the stream, each with the response of its own execution; a connection that is
gone has executed all of them and sent all responses; one that is open has no whole request left when its output is empty,
and asks for what it waits for -/
structure Served (E : Executor S) (requests : List Request) (written : ℕ) (l : Life) : Prop where
  answers : List.Forall₂ (Answers E) (requests.take (ledger l.history).answered.length) (ledger l.history).answered
  gone : l.connection = none →
    (ledger l.history).answered.length = requests.length ∧ (ledger l.history).sent = (ledger l.history).responses
  waits : ∀ c, l.connection = some c → CaughtUp requests c l.history ∧ Interested written c

theorem Serving.served (hl : Serving E requests written l) : Served E requests written l := by
  refine ⟨?_, fun hnone => ?_, fun c hc => ⟨(hl.ready c hc).caughtUp, (hl.ready c hc).interested⟩⟩
  · cases hc : l.connection with
    | none =>
      have hanswers := (hl.finished hc).answers
      rwa [← hanswers.length_eq, take_length]
    | some c =>
      obtain ⟨u, hs, -⟩ := (hl.ready c hc).serves
      exact hs.answers
  · have hdone := hl.finished hnone
    exact ⟨hdone.answers.length_eq.symm, hdone.sent⟩

/-- **Every request of a half-closed stream is served**, in every run whose calls are fine and whose hang-ups find the rest of
the stream received. -/
theorem half_close_served (E : Executor S) (requests : List Request) (k : ℕ) (ms : List (Move S))
    (hhonest : Along (dispatchRequest E) (Honest requests) (born k) ms)
    (hfavourable : Along (dispatchRequest E) (Favourable (dispatchRequest E) requests) (born k) ms) :
    Served E requests (ms.foldl refreshedAt 0) ((born k).moves (dispatchRequest E) ms) :=
  ((serving_born E requests k).moves ms hhonest hfavourable).served

/-- **The same for what the events bring**: no request is read while a response is partly sent, and a hang-up is reported after
the stream or, below the high-water mark, with the rest of it in one piece. -/
theorem half_close_served_timely (E : Executor S) (requests : List Request) (k : ℕ) (ms : List (Move S))
    (hhonest : Along (dispatchRequest E) (Honest requests) (born k) ms)
    (ht : Along (dispatchRequest E) (Timely requests) (born k) ms) :
    Served E requests (ms.foldl refreshedAt 0) ((born k).moves (dispatchRequest E) ms) := by
  have hborn := serving_born E requests k
  have hfavourable := Timely.along ms hborn (fun _ _ hmem => by cases hmem) hhonest ht
  exact (hborn.moves ms hhonest hfavourable).served

end Serving

/-! ## Two streams -/

/-- an executor that answers every request with `PONG` -/
def pong : Executor Unit where
  execute := fun x _ => ([.pointer 32 (ascii "+PONG\r\n")], 0, x)
  fits := by
    intro _ _ w hw
    cases mem_singleton.1 hw
    decide
  addressable := by
    intro _ _ w hw
    cases mem_singleton.1 hw
    decide
  small := fun _ _ => by simp [ascii, Write.bytes, reactorMaxResponse]

def ping : Request := ⟨ascii "*1\r\n$4\r\nPING\r\n", [ascii "PING"], by decide +kernel⟩

/-- two requests arrive in one piece together with the hang-up; the responses leave in two pieces -/
def hangupWithPings : List (Move Unit) :=
  [.visit ⟨true, true, false, (), (), [.received (ping.bytes ++ ping.bytes), .closed], [], true, 0, 0⟩,
    .visit ⟨true, false, true, (), (), [], [.written 5, .written 9], true, 0, 0⟩]

/-- both are served -/
theorem half_close_served_pings : ((born 1).moves (dispatchRequest pong) hangupWithPings).connection = none ∧
      (ledger ((born 1).moves (dispatchRequest pong) hangupWithPings).history).answered.length = 2 ∧
      (ledger ((born 1).moves (dispatchRequest pong) hangupWithPings).history).sent =
        (ledger ((born 1).moves (dispatchRequest pong) hangupWithPings).history).responses := by
  have hcalls : ∀ l : Life, (l.history.all fun e =>
      match e with
      | .called c o => !falls c.output o.response && (c.input.unread == ping.bytes ++ ping.bytes || c.input.unread == ping.bytes)
      | _ => true) = true → FineCalls l.history := by
    intro l hall c o hmem
    have hcheck := List.all_eq_true.1 hall _ hmem
    simp only [Bool.and_eq_true, Bool.not_eq_true', Bool.or_eq_true, beq_iff_eq] at hcheck
    refine ⟨hcheck.1, fun _ => ?_⟩
    rcases hcheck.2 with h | h
    · exact ⟨[ping, ping], by rw [h, stream_cons, stream_cons]; simp [stream]⟩
    · exact ⟨[ping], by rw [h, stream_cons]; simp [stream]⟩
  have hspace : ∀ (l : Life) (n : ℕ), (l.connection.all fun c => decide (c.input.readable + n ≤ sizeMax)) = true →
      ∀ c, l.connection = some c → c.input.readable + n ≤ sizeMax := by
    intro l n hall c hc
    rw [hc] at hall
    exact of_decide_eq_true hall
  have hhonest : Along (dispatchRequest pong) (Honest [ping, ping]) (born 1) hangupWithPings :=
    ⟨⟨⟨by decide +kernel, by decide +kernel, show List.drop _ _ = [] by decide +kernel⟩, by decide, rfl, hspace _ _ (by decide +kernel)⟩,
      ⟨trivial, by decide, rfl, hspace _ _ (by decide +kernel)⟩, trivial⟩
  have hfavourable : Along (dispatchRequest pong) (Favourable (dispatchRequest pong) [ping, ping]) (born 1) hangupWithPings :=
    ⟨⟨hcalls _ (by decide +kernel), fun _ _ _ => by decide +kernel⟩,
      ⟨hcalls _ (by decide +kernel), fun _ _ _ => by decide +kernel⟩, trivial⟩
  have hnone : ((born 1).moves (dispatchRequest pong) hangupWithPings).connection = none := by decide +kernel
  exact ⟨hnone, (half_close_served pong [ping, ping] 1 hangupWithPings hhonest hfavourable).gone hnone⟩

set_option maxRecDepth 20000 in
/-- a request of 4123 bytes -/
def large : Request :=
  ⟨ascii "*2\r\n$4\r\nECHO\r\n$4100\r\n" ++ (List.replicate 4100 120 ++ ascii "\r\n"), [ascii "ECHO", List.replicate 4100 120],
    by decide +kernel⟩

/-- a client sends the request and closes its sending side before the reactor sees either -/
def hangupWithLarge : List (Label Unit) :=
  [.epollWait [.listener false], .accepted 1, .batchEnd () true, .epollWait [.client 1 ⟨true, false, true, false⟩],
    .read [.received (large.bytes.take reactorIoChunk), .received (large.bytes.drop reactorIoChunk), .closed] 0 true]

set_option maxRecDepth 20000 in
/-- The first piece is parsed with `end_of_stream` set although the second one is waiting in the socket: the request is
answered with a protocol error and not executed. -/
theorem half_close_refused :
    ∃ r c, run (dispatchRequest pong) (reactorInit ()) hangupWithLarge = some r ∧ r.clients = [c] ∧
      c.output.unread.map Prod.fst = protocolError ∧ c.closeAfterWrite = true := by
  have h : (run (dispatchRequest pong) (reactorInit ()) hangupWithLarge).map (fun r => r.clients.map fun c =>
      (c.output.unread.map Prod.fst, c.closeAfterWrite)) = some [(protocolError, true)] := by
    decide +kernel
  obtain ⟨r, hr, hfacts⟩ := map_eq_some_iff.1 h
  obtain ⟨c, hc, hfacts⟩ := map_eq_singleton_iff.1 hfacts
  exact ⟨r, c, hr, hc, congrArg Prod.fst hfacts, congrArg Prod.snd hfacts⟩

end StoreSystem.Net
