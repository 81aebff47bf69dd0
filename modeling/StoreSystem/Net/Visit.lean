/-
One event of `epoll_wait` for a connection, as the loop body of `reactor_run` handles it (`src/net/reactor.c`): a hang-up is
noted, `handle_read` runs for `EPOLLIN` and `handle_write` for `EPOLLOUT`, and a connection closed by its peer with nothing
left to send is destroyed.

The reactor takes two steps for such an event, because the AOF writer can move before the flush handler. A visit is both
together, on the life of the one connection. `clientRead_visit` says that the steps of the reactor are visits.
-/
import StoreSystem.Net.Life

namespace StoreSystem.Net

variable {S : Type}

/-! ## Visits -/

/-- one event of `epoll_wait` for the connection: what is reported, the handler context before and after the flush handler,
the results of the system calls and the sequence the AOF writer has reached at the two refreshes -/
structure Visit (S : Type) where
  rdhup : Bool
  epollin : Bool
  epollout : Bool
  context : S
  flushed : S
  recvs : List RecvResult
  sends : List NetBuffer.SendResult
  ctl : Bool
  readWritten : ℕ
  sentWritten : ℕ

/-- the loop body of `reactor_run` up to `handle_write` -/
def Life.reading (handler : Handler S) (l : Life) (v : Visit S) : Life :=
  let l := if v.rdhup then l.act handler .hangup else l
  if v.epollin then (l.act handler (.read v.context v.recvs)).act handler (.refresh v.ctl v.readWritten) else l

/-- a connection that was closed by the peer and has nothing to send is destroyed -/
def Life.settled (l : Life) : Life :=
  match l.connection with
  | none => l
  | some c => if c.peerEof ∧ c.output.readable = 0 then ⟨none, l.history⟩ else l

/-- the loop body of `reactor_run` for the connection -/
def Life.visit (handler : Handler S) (l : Life) (v : Visit S) : Life :=
  let l := l.reading handler v
  (if v.epollout then l.act handler (.write v.flushed v.sends v.ctl v.sentWritten) else l).settled

variable {c : Connection}

variable {l : Life}

section Acts

variable {handler : Handler S}

theorem act_none (hc : l.connection = none) (a : Act S) : l.act handler a = l := by
  rw [Life.act, hc]

theorem act_refresh_history (l : Life) (ctl : Bool) (written : ℕ) :
    (l.act handler (.refresh ctl written)).history = l.history := by
  unfold Life.act
  cases l.connection <;> rfl

/-- `peer_eof` after the hang-up was noted -/
theorem noted_eq (hc : l.connection = some c) (rdhup : Bool) :
    (if rdhup then l.act handler .hangup else l) = ⟨some { c with peerEof := c.peerEof || rdhup }, l.history⟩ := by
  cases rdhup with
  | true => simp [Life.act, hc]
  | false =>
    simp only [Bool.false_eq_true, if_false, Bool.or_false]
    rw [← hc]

theorem settled_history (l : Life) : l.settled.history = l.history := by
  unfold Life.settled
  cases l.connection with
  | none => rfl
  | some c =>
    simp only
    split_ifs <;> rfl

end Acts

/-! ## The steps of the reactor -/

section Steps

variable {handler : Handler S} {r : Reactor S}

variable {k : ℕ}

theorem client_setClient {d : Connection} (hc : r.client k = some c) (hd : d.connectionId = k) :
    (r.setClient d).client k = some d := by
  unfold Reactor.client Reactor.setClient at *
  dsimp only
  generalize r.clients = clients at hc ⊢
  induction clients with
  | nil => simp at hc
  | cons e clients ih =>
    rw [List.map_cons, hd]
    rw [hd] at ih
    by_cases he : e.connectionId = k
    · rw [if_pos he, List.find?_cons_of_pos (by simpa using hd)]
    · rw [List.find?_cons_of_neg (by simpa using he)] at hc
      rw [if_neg he, List.find?_cons_of_neg (by simpa using he)]
      exact ih hc

theorem client_connectionDestroy (r : Reactor S) (k : ℕ) : (r.connectionDestroy k).client k = none := by
  simp [Reactor.client, Reactor.connectionDestroy]

theorem settle_client (hc : r.client k = some c) (l : Life)
    (hid : ∀ d, l.connection = some d → d.connectionId = k) : (settle r k l.connection).client k = l.settled.connection := by
  unfold settle Life.settled
  cases hl : l.connection with
  | none => rw [client_connectionDestroy, hl]
  | some d =>
    simp only
    split_ifs
    · exact client_connectionDestroy r k
    · rw [client_setClient hc (hid d hl), hl]

theorem clientWrite_client {d : Connection} (hd : r.client k = some d) (rest : List Event)
    (sends : List NetBuffer.SendResult) (progress : ℕ) (ctl : Bool) (h : List Happening) :
    (clientWrite handler r k rest sends progress ctl).client k =
      (Life.settled ⟨(handleWrite handler sends ctl (r.written + progress) r.context d).2.1, h⟩).connection := by
  simp only [clientWrite, hd]
  refine settle_client (c := d) ?_ ⟨_, h⟩ fun e he => (steady_connectionId k).handleWrite (client_connectionId hd) he
  exact hd

def Visit.mask (v : Visit S) : Mask := ⟨v.epollin, v.epollout, v.rdhup, false⟩

/-- the first half of a visit makes the acts of the loop body up to `handle_write` -/
theorem reading_connection (handler : Handler S) (hc : l.connection = some c) (v : Visit S) :
    (l.reading handler v).connection = c.acts handler (readActs v.mask v.recvs v.ctl v.readWritten v.context) := by
  have hacts : l.reading handler v =
      (readActs v.mask v.recvs v.ctl v.readWritten v.context).foldl (Life.act handler) l := by
    unfold Life.reading readActs Visit.mask
    cases v.rdhup <;> cases v.epollin <;> rfl
  rw [hacts, acts_connection, hc, Option.bind_some]

/-- **The loop body of the reactor is a visit**: for an event without `EPOLLOUT`, and for one with it, where the flush handler
and `handle_write` follow. -/
theorem clientRead_visit (hc : r.client k = some c) (l : Life)
    (hl : l.connection = some c) (v : Visit S) (hcontext : v.context = r.context) (rest : List Event)
    {progress sentProgress : ℕ} (hwritten : v.readWritten = r.written + progress)
    (hsent : v.sentWritten = v.readWritten + sentProgress) :
    (if v.epollout = true ∧ (l.reading handler v).connection ≠ none then
      clientWrite handler { clientRead handler r k v.mask rest v.recvs progress v.ctl with context := v.flushed } k rest
        v.sends sentProgress v.ctl
    else clientRead handler r k v.mask rest v.recvs progress v.ctl).client k = (l.visit handler v).connection := by
  have hpart := readPart_acts handler v.mask v.recvs v.ctl (r.written + progress) r.context c
  rw [← hwritten, ← hcontext, ← reading_connection handler hl v, hwritten, hcontext] at hpart
  have hid : ∀ d, (l.reading handler v).connection = some d → d.connectionId = k := by
    intro d hd
    rw [reading_connection handler hl v] at hd
    exact (steady_connectionId k).acts (client_connectionId hc) hd
  unfold Life.visit clientRead
  have herr : v.mask.epollerr = false := rfl
  have hout : v.mask.epollout = v.epollout := rfl
  simp only [hc, herr, Bool.false_eq_true, if_false, hout]
  generalize readPart handler v.mask v.recvs v.ctl (r.written + progress) r.context _ = answer at hpart ⊢
  obtain ⟨x, result⟩ := answer
  dsimp only at hpart
  subst hpart
  cases v.epollout with
  | false =>
    simp only [Bool.false_eq_true, false_and, if_false]
    have hsettle := settle_client (r := { r with context := x, written := r.written + progress, pc := .batch rest }) hc _ hid
    cases hd : (l.reading handler v).connection with
    | none | some d => rw [hd] at hsettle; exact hsettle
  | true =>
    cases hd : (l.reading handler v).connection with
    | none =>
      simp only [ne_eq, not_true_eq_false, and_false, if_false, if_true]
      rw [act_none hd, Life.settled, hd]
      exact (client_connectionDestroy _ k).trans hd.symm
    | some d =>
      have hset : Reactor.client { ({ r with context := x, written := r.written + progress, pc := .writing k rest }).setClient d
          with context := v.flushed } k = some d :=
        client_setClient (r := r) hc (hid d hd)
      have hwrite : (l.reading handler v).act handler (.write v.flushed v.sends v.ctl v.sentWritten) =
          ⟨(handleWrite handler v.sends v.ctl v.sentWritten v.flushed d).2.1,
            (l.reading handler v).history ++ writeHappenings handler v.sends v.flushed d⟩ := by
        simp only [Life.act, hd]
      simp only [ne_eq, reduceCtorEq, not_false_eq_true, and_self, if_true]
      rw [hwrite, hsent, hwritten]
      exact clientWrite_client hset rest v.sends sentProgress v.ctl _

end Steps

end StoreSystem.Net
