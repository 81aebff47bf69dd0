/-
One round of `process_input` (`src/net/reactor.c`): a call of the request handler and the checks behind it.

The length of a response is taken from the positions of the output buffer before and after the call. A write that does not
fit behind `write_pos` moves the unsent bytes to the front of the buffer first, so the position can fall although bytes were
added.

Results:
- `respond_moves`: where the positions are after the writes of a handler;
- `response_accepted_iff`: a response within the limit is accepted unless its writes move the unsent bytes and it is shorter
  than what was sent before;
- `response_refused`: a connection that loses its client in this way, after three requests.
-/
import StoreSystem.Net.Reactor

namespace StoreSystem.Net

open List

variable {H : Type}

/-! ## Positions of the output buffer -/

/-- the space a write asks for -/
def Write.reserved : Write → ℕ
  | .append bytes => bytes.length
  | .pointer additional _ => additional

/-- whether some write asks for more than is free behind `write_pos` -/
def tight : ℕ → List Write → Bool
  | _, [] => false
  | free, w :: ws => decide (free < w.reserved) || tight (free - w.bytes.length) ws

/-- the bytes of a response -/
def HandlerOutcome.bytes (o : HandlerOutcome) : Bytes := o.response.flatMap Write.bytes

/-- the writes move the unsent bytes to the front, by more than they add -/
def falls (output : NetBuffer OutByte) (writes : List Write) : Bool :=
  tight (output.capacity - output.writePos) writes && decide ((writes.flatMap Write.bytes).length < output.readPos)

theorem reserve_moves {α : Type} {b b' : NetBuffer α} {n : ℕ} (h : b.reserve true n = some b') :
    (n ≤ b.capacity - b.writePos ∧ b' = b) ∨ (b.capacity - b.writePos < n ∧ b'.data = b.unread ∧ b'.readPos = 0) := by
  have hcompact : b.compact.data = b.unread ∧ b.compact.readPos = 0 := by
    unfold NetBuffer.compact
    split_ifs with hzero
    · exact ⟨by rw [NetBuffer.unread, hzero, drop_zero], hzero⟩
    · exact ⟨rfl, rfl⟩
  unfold NetBuffer.reserve at h
  simp only [if_true] at h
  split_ifs at h with _ hroom hroom'
  · cases h
    exact Or.inl ⟨hroom, rfl⟩
  all_goals
    cases h
    exact Or.inr ⟨not_le.1 hroom, hcompact⟩

variable {tag : ℕ}

theorem write_eq_reserve {w : Write} {b b' : NetBuffer OutByte} (h : write tag b w = some b') :
    ∃ b1, b.reserve true w.reserved = some b1 ∧ b' = { b1 with data := b1.data ++ w.bytes.map fun x => (x, tag) } := by
  cases w with
  | append bytes =>
    obtain ⟨b1, hb1, rfl⟩ := Option.map_eq_some_iff.1 h
    rw [length_map] at hb1
    exact ⟨b1, hb1, rfl⟩
  | pointer additional bytes =>
    obtain ⟨b1, hb1, hcommit⟩ := Option.bind_eq_some_iff.1 h
    unfold NetBuffer.commit at hcommit
    split_ifs at hcommit
    cases hcommit
    exact ⟨b1, hb1, rfl⟩

/-- **Where a response ends up**: behind the old bytes, or behind the unsent ones at the front of the buffer. -/
theorem respond_moves (writes : List Write) : ∀ {b b' : NetBuffer OutByte}, b.Sound → respond tag b writes = some b' →
    (tight (b.capacity - b.writePos) writes = false ∧
      b'.data = b.data ++ (writes.flatMap Write.bytes).map (fun x => (x, tag)) ∧ b'.readPos = b.readPos) ∨
    (tight (b.capacity - b.writePos) writes = true ∧
      b'.data = b.unread ++ (writes.flatMap Write.bytes).map (fun x => (x, tag)) ∧ b'.readPos = 0) := by
  induction writes with
  | nil =>
    intro b b' _ h
    cases h
    exact Or.inl ⟨rfl, by simp, rfl⟩
  | cons w writes ih =>
    intro b b' hs h
    simp only [respond, foldlM_cons, Option.bind_eq_bind, Option.bind_eq_some_iff] at h
    obtain ⟨mid, hmid, hrest⟩ := h
    obtain ⟨-, hsound⟩ := write_spec hs hmid
    obtain ⟨b1, hb1, rfl⟩ := write_eq_reserve hmid
    rw [flatMap_cons, map_append, ← append_assoc, ← append_assoc]
    rcases reserve_moves hb1 with ⟨hroom, rfl⟩ | ⟨htight, hdata, hread⟩
    · have hfree : ∀ bytes : List OutByte, b1.capacity - (b1.data ++ bytes).length = b1.capacity - b1.writePos - bytes.length := by
        intro bytes
        rw [length_append, NetBuffer.writePos, Nat.sub_add_eq]
      have htight : tight (b1.capacity - b1.writePos) (w :: writes) =
          tight (b1.capacity - b1.writePos - w.bytes.length) writes := by
        rw [tight, decide_eq_false (not_lt.2 hroom), Bool.false_or]
      rw [htight]
      rcases ih hsound hrest with ⟨hfits, hdata, hread⟩ | ⟨hmoves, hdata, hread⟩
      · rw [NetBuffer.writePos, hfree, length_map] at hfits
        exact Or.inl ⟨hfits, hdata, hread⟩
      · rw [NetBuffer.writePos, hfree, length_map] at hmoves
        rw [NetBuffer.unread_append_data hs] at hdata
        exact Or.inr ⟨hmoves, hdata, hread⟩
    · right
      refine ⟨by rw [tight, decide_eq_true htight, Bool.true_or], ?_⟩
      rcases ih hsound hrest with ⟨-, hdata', hread'⟩ | ⟨-, hdata', hread'⟩
      · exact ⟨by rw [hdata', hdata], by rw [hread', hread]⟩
      · refine ⟨?_, hread'⟩
        rw [hdata', NetBuffer.unread]
        simp only [hread, drop_zero, hdata]

theorem respond_writePos {writes : List Write} {b b' : NetBuffer OutByte} (hs : b.Sound) (h : respond tag b writes = some b') :
    b'.writePos =
      if tight (b.capacity - b.writePos) writes then b.readable + (writes.flatMap Write.bytes).length
      else b.writePos + (writes.flatMap Write.bytes).length := by
  rcases respond_moves writes hs h with ⟨hfits, hdata, -⟩ | ⟨hmoves, hdata, -⟩
  · rw [hfits, if_neg (by simp), NetBuffer.writePos, hdata, length_append, length_map]
    rfl
  · rw [hmoves, if_pos rfl, NetBuffer.writePos, hdata, length_append, length_map, NetBuffer.readable_eq_length]

/-! ## Responses -/

@[simp] theorem answered_output (c : Connection) (o : HandlerOutcome) (output : NetBuffer OutByte) :
    (c.answered o output).output = output := by
  unfold Connection.answered
  split_ifs <;> rfl

/-- the round of a completed request whose response is within the limit -/
theorem turn_complete {c : Connection} {o : HandlerOutcome} {output : NetBuffer OutByte} (hsound : c.output.Sound)
    (hresult : o.result = .complete) (hconsumed : 1 ≤ o.consumed ∧ o.consumed ≤ c.input.readable)
    (hwrites : respond o.tag c.output o.response = some output) (hsize : o.bytes.length ≤ reactorMaxResponse) :
    turn c o = if falls c.output o.response then .failed else .again (c.answered o output) := by
  have hpos := respond_writePos hsound hwrites
  have hread : c.output.readable = c.output.writePos - c.output.readPos := rfl
  have hle : c.output.readPos ≤ c.output.writePos := hsound
  unfold HandlerOutcome.bytes at hsize
  rw [turn, hwrites]
  simp only [hresult]
  cases htight : tight (c.output.capacity - c.output.writePos) o.response with
  | false =>
    rw [htight, if_neg (Bool.false_ne_true)] at hpos
    rw [if_neg (by omega), falls, htight, Bool.false_and, if_neg (Bool.false_ne_true)]
  | true =>
    rw [htight, if_pos rfl] at hpos
    rw [falls, htight, Bool.true_and]
    by_cases hshort : (o.response.flatMap Write.bytes).length < c.output.readPos
    · rw [if_pos (by omega), if_pos (by simpa using hshort)]
    · rw [if_neg (by omega), if_neg (by simpa using hshort)]

/-- **A response is accepted unless the position falls.** For a connection with any amount of sent and unsent output, and a
handler that returns `REACTOR_HANDLER_COMPLETE` with a number of consumed bytes that is there and a response of at most
`REACTOR_MAX_RESPONSE` bytes, `process_input` queues the response behind the unsent bytes exactly when the writes do not pull
`write_pos` below its old place; else it returns -1. -/
theorem response_accepted_iff (handler : Handler H) (x : H) (c : Connection) (o : HandlerOutcome) (x' : H)
    (output : NetBuffer OutByte) (hsound : c.output.Sound) (hcall : c.Callable)
    (ho : handler x c.input.unread c.peerEof c.connectionId = (o, x')) (hresult : o.result = .complete)
    (hconsumed : 1 ≤ o.consumed ∧ o.consumed ≤ c.input.readable) (hwrites : respond o.tag c.output o.response = some output)
    (hsize : o.bytes.length ≤ reactorMaxResponse) :
    ((∃ c', turn c o = .again c' ∧ processInput handler x c = processLoop handler (c.input.readable - 1) x' c' ∧
        c'.output.unread = c.output.unread ++ o.bytes.map fun b => (b, o.responseBarrier)) ↔
      falls c.output o.response = false) ∧
    (falls c.output o.response = true → processInput handler x c = (x', none)) := by
  have htag : o.tag = o.responseBarrier := by rw [HandlerOutcome.tag, if_pos hresult]
  obtain ⟨hunread, -⟩ := respond_spec hsound hwrites
  have hloop : processInput handler x c = processLoop handler (c.input.readable - 1 + 1) x c := by
    rw [Nat.sub_add_cancel hcall.1]
    rfl
  rw [processLoop, if_pos hcall, ho] at hloop
  dsimp only at hloop
  have hturn := turn_complete hsound hresult hconsumed hwrites hsize
  cases hfalls : falls c.output o.response with
  | false =>
    rw [hfalls, if_neg (by simp)] at hturn
    rw [hturn] at hloop
    refine ⟨⟨fun _ => rfl, fun _ => ⟨_, hturn, hloop, ?_⟩⟩, fun h => by cases h⟩
    rw [answered_output, hunread, htag]
    rfl
  | true =>
    rw [hfalls, if_pos rfl] at hturn
    rw [hturn] at hloop
    refine ⟨⟨?_, fun h => by cases h⟩, fun _ => hloop⟩
    rintro ⟨c', hagain, -⟩
    rw [hturn] at hagain
    cases hagain

/-- a handler of requests of one byte: `a` has a response of 500 bytes, every other one of 50 -/
def bytewise : Handler Unit := fun x input _ _ =>
  (⟨.complete, 1, [.append (List.replicate (if input.head? = some 97 then 500 else 50) 46)], false, 0⟩, x)

/-- a connection with a request to read; 30 bytes of a response of 500 are sent -/
def requesting : Connection :=
  { clientCreate 1 with input := ⟨[98], 0, 512⟩, output := ⟨List.replicate 500 (46, 0), 30, 512⟩ }

/-- the next response moves the 470 unsent bytes to the front of a larger buffer and is queued behind them -/
theorem response_accepted_moved :
    tight (requesting.output.capacity - requesting.output.writePos) (bytewise () [98] false 1).1.response = true ∧
      ∃ c', turn requesting (bytewise () [98] false 1).1 = .again c' ∧
        c'.output.unread = requesting.output.unread ++ (bytewise () [98] false 1).1.bytes.map fun b => (b, 0) := by
  have hsound : requesting.output.Sound := show 30 ≤ requesting.output.writePos by decide +kernel
  have haccepted := (response_accepted_iff bytewise () requesting (bytewise () [98] false 1).1 ()
    ⟨List.replicate 520 (46, 0), 0, 1024⟩ hsound (by decide +kernel) rfl rfl (by decide) (by decide +kernel)
    (by decide +kernel)).1.2 (by decide +kernel)
  obtain ⟨c', hturn, -, hunread⟩ := haccepted
  exact ⟨by decide +kernel, c', hturn, hunread⟩

/-- a client sends `a`; the socket takes 400 bytes of the response and blocks; the client sends `b` -/
def partlySent : List (Label Unit) :=
  [.epollWait [.listener false], .accepted 1, .batchEnd () true,
    .epollWait [.client 1 ⟨true, false, false, false⟩], .read [.received [97]] 0 true, .batchEnd () true,
    .epollWait [.client 1 ⟨false, true, false, false⟩], .read [] 0 true,
    .write () true [.written 400, .wouldBlock] 0 true, .batchEnd () true,
    .epollWait [.client 1 ⟨true, false, false, false⟩]]

/-- With 100 of 500 bytes unsent in a buffer of 512, a response of 50 bytes moves `write_pos` from 500 to 150: the round fails
although the handler returned `REACTOR_HANDLER_COMPLETE`, and the client loses its connection with the 100 bytes. -/
theorem response_refused :
    ∃ r c, run bytewise (reactorInit ()) partlySent = some r ∧ r.clients = [c] ∧ c.output.readable = 100 ∧
      (bytewise () [98] false 1).1 = ⟨.complete, 1, [.append (List.replicate 50 46)], false, 0⟩ ∧
      (run bytewise r [.read [.received [98]] 0 true]).map (fun r => r.clients) = some [] := by
  have h : (run bytewise (reactorInit ()) partlySent).map (fun r => (r.clients.map fun c => c.output.readable,
      (run bytewise r [.read [.received [98]] 0 true]).map fun r => r.clients)) = some ([100], some []) := by
    decide +kernel
  obtain ⟨r, hr, hfacts⟩ := Option.map_eq_some_iff.1 h
  rw [Prod.mk.injEq] at hfacts
  obtain ⟨c, hc, hread⟩ := map_eq_singleton_iff.1 hfacts.1
  exact ⟨r, c, hr, hc, hread, rfl, hfacts.2⟩

end StoreSystem.Net
