/-
The growing byte buffer of a connection (`src/net/buffer.c`).

`data` holds the bytes below `write_pos`; what lies above is free space whose content no function reads. The element type
is a parameter, so that a proof can follow where each byte of an output came from. `realloc` can fail: the calls that may
grow the buffer say whether theirs does.
-/
import Mathlib.Tactic
import StoreSystem.Engine.Hash

namespace StoreSystem

open List Option

variable {α : Type}

/-! ## Model -/

/-- `net_buffer_t`; `write_pos` is the length of `data` -/
structure NetBuffer (α : Type) where
  data : List α
  readPos : ℕ
  capacity : ℕ
deriving DecidableEq, Repr

namespace NetBuffer

variable (b : NetBuffer α)

def writePos : ℕ := b.data.length

/-- the bytes appended and not yet consumed -/
def unread : List α := b.data.drop b.readPos

/-- `net_buffer_readable` -/
def readable : ℕ := b.writePos - b.readPos

def init (initialCapacity : ℕ) : NetBuffer α := ⟨[], 0, initialCapacity⟩

def reset : NetBuffer α := { b with data := [], readPos := 0 }

def compact : NetBuffer α := if b.readPos = 0 then b else { b with data := b.unread, readPos := 0 }

/-- the doubling loop of `net_buffer_reserve`; from a positive capacity 64 rounds reach `SIZE_MAX / 2` -/
def growCapacity : ℕ → ℕ → ℕ → ℕ
  | 0, _, required => required
  | rounds + 1, capacity, required =>
    if capacity < required then
      if capacity > sizeMax / 2 then required else growCapacity rounds (capacity * 2) required
    else capacity

def reserve (realloc : Bool) (b : NetBuffer α) (additional : ℕ) : Option (NetBuffer α) :=
  if additional > sizeMax - b.readable then none
  else if b.capacity - b.writePos ≥ additional then some b
  else
    let b := b.compact
    if b.capacity - b.writePos ≥ additional then some b
    else if realloc then
      some { b with capacity := growCapacity 64 (if b.capacity = 0 then 512 else b.capacity) (b.writePos + additional) }
    else none

def append (realloc : Bool) (b : NetBuffer α) (bytes : List α) : Option (NetBuffer α) :=
  (b.reserve realloc bytes.length).map fun b => { b with data := b.data ++ bytes }

/-- `net_buffer_commit` of the bytes the caller has written to the free space -/
def commit (bytes : List α) : Option (NetBuffer α) :=
  if bytes.length > b.capacity - b.writePos then none else some { b with data := b.data ++ bytes }

def consume (length : ℕ) : NetBuffer α :=
  if length ≥ b.readable then b.reset else { b with readPos := b.readPos + length }

/-- what one call of `send` does -/
inductive SendResult
  | written (n : ℕ)
  | interrupted
  | wouldBlock
  | failed
deriving DecidableEq, Repr

/-- the return value of `net_buffer_flush_fd`: -1, 0 or 1 -/
inductive FlushResult
  | failed
  | blocked
  | drained
deriving DecidableEq, Repr

/-- `net_buffer_flush_fd`, with what each `send` was given; a `send` past the end of the script would block -/
def flushFd : List SendResult → NetBuffer α → FlushResult × NetBuffer α × List (List α)
  | script, b =>
    if b.readable = 0 then (.drained, b, [])
    else
      match script with
      | [] => (.blocked, b, [b.unread])
      | .written 0 :: _ => (.failed, b, [b.unread])
      | .written (n + 1) :: rest =>
        let r := flushFd rest (b.consume (n + 1))
        (r.1, r.2.1, b.unread :: r.2.2)
      | .interrupted :: rest =>
        let r := flushFd rest b
        (r.1, r.2.1, b.unread :: r.2.2)
      | .wouldBlock :: _ => (.blocked, b, [b.unread])
      | .failed :: _ => (.failed, b, [b.unread])

/-! ## What is unread -/

theorem readable_eq_length : b.readable = b.unread.length := by
  simp [readable, unread, writePos]

theorem unread_of_readable_zero {b : NetBuffer α} (h : b.readable = 0) : b.unread = [] := by
  rw [readable_eq_length] at h
  exact length_eq_zero_iff.1 h

@[simp] theorem unread_init (n : ℕ) : (init n : NetBuffer α).unread = [] := rfl

@[simp] theorem unread_reset : b.reset.unread = [] := rfl

@[simp] theorem unread_compact : b.compact.unread = b.unread := by
  unfold compact
  split_ifs with h
  · rfl
  · simp [unread]

variable {realloc : Bool} {bytes : List α}

theorem unread_reserve {b b' : NetBuffer α} {n : ℕ} (h : b.reserve realloc n = some b') :
    b'.unread = b.unread := by
  unfold reserve at h
  dsimp only at h
  split_ifs at h
  · cases h; rfl
  all_goals cases h; exact unread_compact b

/-- a buffer never reads past what was written -/
def Sound : Prop := b.readPos ≤ b.writePos

theorem sound_init (n : ℕ) : Sound (init n : NetBuffer α) := Nat.zero_le _

theorem sound_reset : Sound b.reset := Nat.zero_le _

theorem sound_compact {b : NetBuffer α} (h : Sound b) : Sound b.compact := by
  unfold compact
  split_ifs
  · exact h
  · exact Nat.zero_le _

theorem sound_reserve {b b' : NetBuffer α} {n : ℕ} (hs : Sound b) (h : b.reserve realloc n = some b') :
    Sound b' := by
  unfold reserve at h
  dsimp only at h
  split_ifs at h
  · cases h; exact hs
  all_goals cases h; exact sound_compact hs

theorem unread_append_data {b : NetBuffer α} (hs : Sound b) (bytes : List α) :
    ({ b with data := b.data ++ bytes } : NetBuffer α).unread = b.unread ++ bytes := by
  simp only [unread]
  exact drop_append_of_le_length hs

theorem sound_append_data {b : NetBuffer α} (hs : Sound b) (bytes : List α) :
    Sound { b with data := b.data ++ bytes } := by
  simp only [Sound, writePos, length_append] at *
  omega

theorem unread_append {b b' : NetBuffer α} (hs : Sound b)
    (h : b.append realloc bytes = some b') : b'.unread = b.unread ++ bytes ∧ Sound b' := by
  simp only [append, map_eq_some_iff] at h
  obtain ⟨b1, h1, rfl⟩ := h
  have hs1 := sound_reserve hs h1
  exact ⟨by rw [unread_append_data hs1, unread_reserve h1], sound_append_data hs1 bytes⟩

theorem unread_commit {b b' : NetBuffer α} (hs : Sound b) (h : b.commit bytes = some b') :
    b'.unread = b.unread ++ bytes ∧ Sound b' := by
  unfold commit at h
  split_ifs at h
  cases h
  exact ⟨unread_append_data hs bytes, sound_append_data hs bytes⟩

theorem unread_consume (n : ℕ) : (b.consume n).unread = b.unread.drop n := by
  unfold consume
  split_ifs with h
  · rw [unread_reset, eq_comm, drop_eq_nil_iff, ← readable_eq_length]
    exact h
  · simp [unread, drop_drop]

theorem sound_consume {b : NetBuffer α} (hs : Sound b) (n : ℕ) : Sound (b.consume n) := by
  unfold consume
  split_ifs with h
  · exact sound_reset b
  · simp only [Sound, readable, writePos] at *
    omega

/-- flushing hands out unread bytes only, and leaves a suffix of them -/
theorem flushFd_spec (script : List SendResult) (b : NetBuffer α) (hs : Sound b) :
    (∃ n, (flushFd script b).2.1.unread = b.unread.drop n) ∧ Sound (flushFd script b).2.1 ∧
      ∀ bytes ∈ (flushFd script b).2.2, ∀ x ∈ bytes, x ∈ b.unread := by
  induction script generalizing b with
  | nil =>
    unfold flushFd
    split_ifs
    · exact ⟨⟨0, rfl⟩, hs, by simp⟩
    · exact ⟨⟨0, rfl⟩, hs, by simp⟩
  | cons r rest ih =>
    unfold flushFd
    split_ifs
    · exact ⟨⟨0, rfl⟩, hs, by simp⟩
    · cases r with
      | written n =>
        cases n with
        | zero => exact ⟨⟨0, rfl⟩, hs, by simp⟩
        | succ n =>
          obtain ⟨⟨k, hk⟩, hs', hsent⟩ := ih (b.consume (n + 1)) (sound_consume hs _)
          simp only [unread_consume] at hk hsent
          refine ⟨⟨n + 1 + k, by simp only [hk, drop_drop]⟩, hs', fun bytes hb x hx => ?_⟩
          rcases mem_cons.1 hb with rfl | hb
          · exact hx
          · exact mem_of_mem_drop (hsent bytes hb x hx)
      | interrupted =>
        obtain ⟨hk, hs', hsent⟩ := ih b hs
        refine ⟨hk, hs', fun bytes hb x hx => ?_⟩
        rcases mem_cons.1 hb with rfl | hb
        · exact hx
        · exact hsent bytes hb x hx
      | wouldBlock | failed => exact ⟨⟨0, rfl⟩, hs, by simp⟩

/-! ## Runs of calls -/

/-- a call on a buffer, with sizes of `size_t`; `fill` are the bytes that the caller of `net_buffer_write_pointer` writes and commits,
no more than the capacity it got -/
inductive Call (α : Type)
  | append (bytes : List α) (hsize : bytes.length ≤ sizeMax)
  | write (additional : UInt64) (fill : ℕ → List α) (hfill : ∀ capacity, (fill capacity).length ≤ capacity)
  | consume (length : UInt64)
  | reserve (additional : UInt64)
  | reset

/-- `net_buffer_write_pointer`, with the capacity it returns -/
def writePointer (additional : ℕ) : Option (NetBuffer α × ℕ) :=
  (b.reserve true additional).map fun b => (b, b.capacity - b.writePos)

/-- a call, with allocations that succeed; one that fails leaves the buffer as it was -/
def step : Call α → NetBuffer α
  | .append bytes _ => (b.append true bytes).getD b
  | .write additional fill _ =>
    match b.writePointer additional.toNat with
    | none => b
    | some (b, capacity) => (b.commit (fill capacity)).getD b
  | .consume length => b.consume length.toNat
  | .reserve additional => (b.reserve true additional.toNat).getD b
  | .reset => b.reset

/-- the capacity that the caller of `net_buffer_write_pointer` gets -/
def granted : Call α → ℕ
  | .write additional _ _ => (b.writePointer additional.toNat).elim 0 Prod.snd
  | _ => 0

/-- what a call whose caller gets `capacity` does to a queue; no more than `SIZE_MAX` bytes can be queued -/
def queueStep (q : List α) (capacity : ℕ) : Call α → List α
  | .append bytes _ => if bytes.length > sizeMax - q.length then q else q ++ bytes
  | .write additional fill _ => if additional.toNat > sizeMax - q.length then q else q ++ fill capacity
  | .consume length => q.drop length.toNat
  | .reserve _ => q
  | .reset => []

/-- the buffer and the queue after some calls -/
def run : NetBuffer α → List α → List (Call α) → NetBuffer α × List α
  | b, q, [] => (b, q)
  | b, q, call :: calls => run (b.step call) (queueStep q (b.granted call) call) calls

/-- the positions are in order, in a block that `size_t` can measure -/
structure Exact (b : NetBuffer α) : Prop where
  read : b.readPos ≤ b.writePos
  write : b.writePos ≤ b.capacity
  block : b.capacity ≤ sizeMax

/-- the differences and sums that the calls compute on `b` stay within `size_t`: the readable bytes, `SIZE_MAX - readable`, the free
space, the size `net_buffer_reserve` asks for and the positions behind a commit and a consumption; the capacity is doubled
below `SIZE_MAX / 2` only, and the size of the new block is one of `size_t` -/
structure NoWrap (b : NetBuffer α) : Prop where
  readable : b.readPos ≤ b.writePos
  countable : b.readable ≤ sizeMax
  free : b.writePos ≤ b.capacity ∧ b.compact.writePos ≤ b.compact.capacity
  required : ∀ additional ≤ sizeMax - b.readable, b.compact.writePos + additional ≤ sizeMax
  grown : ∀ required ≤ sizeMax, growCapacity 64 (if b.compact.capacity = 0 then 512 else b.compact.capacity) required ≤ sizeMax
  committed : ∀ n ≤ b.capacity - b.writePos, b.writePos + n ≤ sizeMax
  consumed : ∀ n < b.readable, b.readPos + n ≤ sizeMax

theorem Exact.compact {b : NetBuffer α} (h : Exact b) :
    Exact b.compact ∧ b.compact.writePos = b.readable ∧ b.compact.capacity = b.capacity := by
  have hwrite := h.write
  unfold NetBuffer.compact
  split_ifs with hzero
  · exact ⟨h, by rw [readable, hzero, Nat.sub_zero], rfl⟩
  · have hlength : (⟨b.unread, 0, b.capacity⟩ : NetBuffer α).writePos = b.readable := (readable_eq_length b).symm
    refine ⟨⟨Nat.zero_le _, ?_, h.block⟩, hlength, rfl⟩
    rw [hlength]
    exact (Nat.sub_le _ _).trans hwrite

theorem le_growCapacity (rounds capacity required : ℕ) : required ≤ growCapacity rounds capacity required := by
  induction rounds generalizing capacity with
  | zero => exact le_rfl
  | succ rounds ih =>
    rw [growCapacity]
    split_ifs with hless
    · exact le_rfl
    · exact ih _
    · exact not_lt.1 hless

theorem growCapacity_le (rounds : ℕ) {capacity required : ℕ} (hc : capacity ≤ sizeMax) (hr : required ≤ sizeMax) :
    growCapacity rounds capacity required ≤ sizeMax := by
  induction rounds generalizing capacity with
  | zero => exact hr
  | succ rounds ih =>
    rw [growCapacity]
    split_ifs with hless hbig
    · exact hr
    · exact ih (by omega)
    · exact hc

theorem Exact.noWrap {b : NetBuffer α} (h : Exact b) : NoWrap b := by
  obtain ⟨hcompact, hwritten, hsame⟩ := h.compact
  have hread := h.read
  have hwrite := h.write
  have hblock := h.block
  have hreadable : b.readable ≤ b.writePos := Nat.sub_le _ _
  refine ⟨hread, by omega, ⟨hwrite, hcompact.write⟩, ?_, ?_, by omega, ?_⟩
  · intro additional hadditional
    omega
  · intro required hrequired
    refine growCapacity_le 64 ?_ hrequired
    split_ifs
    · decide
    · exact hcompact.block
  · intro n hn
    unfold readable at hn
    omega

/-- **`net_buffer_reserve`** fails when the bytes could not be counted, else the free space has the size asked for. -/
theorem Exact.reserve {b : NetBuffer α} (h : Exact b) (additional : ℕ) :
    (b.reserve true additional = none ∧ sizeMax - b.readable < additional) ∨
      ∃ b', b.reserve true additional = some b' ∧ Exact b' ∧ additional ≤ b'.capacity - b'.writePos ∧
        additional ≤ sizeMax - b.readable := by
  unfold NetBuffer.reserve
  by_cases hcount : additional > sizeMax - b.readable
  · rw [if_pos hcount]
    exact Or.inl ⟨rfl, hcount⟩
  have hsmall := not_lt.1 hcount
  refine Or.inr ?_
  rw [if_neg hcount]
  by_cases hroom : b.capacity - b.writePos ≥ additional
  · rw [if_pos hroom]
    exact ⟨b, rfl, h, hroom, hsmall⟩
  rw [if_neg hroom]
  obtain ⟨hcompact, _⟩ := h.compact
  have hrequired := h.noWrap.required additional hsmall
  have hgrown := h.noWrap.grown _ hrequired
  have hlarge := le_growCapacity 64 (if b.compact.capacity = 0 then 512 else b.compact.capacity) (b.compact.writePos + additional)
  simp only
  by_cases hroom' : b.compact.capacity - b.compact.writePos ≥ additional
  · rw [if_pos hroom']
    exact ⟨b.compact, rfl, hcompact, hroom', hsmall⟩
  · rw [if_neg hroom', if_pos trivial]
    refine ⟨_, rfl, ⟨hcompact.read, ?_, hgrown⟩, ?_, hsmall⟩
    · exact (Nat.le_add_right _ _).trans hlarge
    · exact Nat.le_sub_of_add_le' hlarge

theorem Exact.append_data {b : NetBuffer α} (h : Exact b) (hfit : bytes.length ≤ b.capacity - b.writePos) :
    Exact { b with data := b.data ++ bytes } := by
  have hwrite := h.write
  have hlength : ({ b with data := b.data ++ bytes } : NetBuffer α).writePos = b.writePos + bytes.length := length_append
  refine ⟨sound_append_data h.read bytes, ?_, h.block⟩
  rw [hlength]
  change b.writePos + bytes.length ≤ b.capacity
  omega

/-- **A call** does to the buffer what it does to the queue. -/
theorem Exact.step {b : NetBuffer α} (h : Exact b) (call : Call α) :
    Exact (b.step call) ∧ (b.step call).unread = queueStep b.unread (b.granted call) call := by
  cases call with
  | append bytes hsize =>
    simp only [NetBuffer.step, queueStep, NetBuffer.append]
    rw [← readable_eq_length]
    rcases h.reserve bytes.length with ⟨hnone, hmany⟩ | ⟨c, hsome, hc, hroom, hfew⟩
    · rw [hnone, if_pos hmany]
      exact ⟨h, rfl⟩
    · rw [hsome, if_neg (not_lt.2 hfew)]
      refine ⟨hc.append_data hroom, ?_⟩
      rw [map_some, getD_some, unread_append_data hc.read, unread_reserve hsome]
  | write additional fill hfill =>
    simp only [NetBuffer.step, queueStep, granted, writePointer]
    rw [← readable_eq_length]
    rcases h.reserve additional.toNat with ⟨hnone, hmany⟩ | ⟨c, hsome, hc, _, hfew⟩
    · rw [hnone, if_pos hmany]
      exact ⟨h, rfl⟩
    · have hfit := hfill (c.capacity - c.writePos)
      rw [hsome, map_some, if_neg (not_lt.2 hfew)]
      simp only [commit, if_neg (not_lt.2 hfit), elim_some]
      refine ⟨hc.append_data hfit, ?_⟩
      rw [getD_some, unread_append_data hc.read, unread_reserve hsome]
  | consume length =>
    refine ⟨?_, unread_consume b length.toNat⟩
    simp only [NetBuffer.step, consume]
    split_ifs with hall
    · exact ⟨Nat.zero_le _, Nat.zero_le _, h.block⟩
    · refine ⟨?_, h.write, h.block⟩
      have hread := h.read
      unfold readable at hall
      change b.readPos + length.toNat ≤ b.writePos
      omega
  | reserve additional =>
    simp only [NetBuffer.step, queueStep]
    rcases h.reserve additional.toNat with ⟨hnone, _⟩ | ⟨c, hsome, hc, _⟩
    · rw [hnone]
      exact ⟨h, rfl⟩
    · rw [hsome]
      exact ⟨hc, unread_reserve hsome⟩
  | reset => exact ⟨⟨Nat.zero_le _, Nat.zero_le _, h.block⟩, rfl⟩

theorem Exact.run (calls : List (Call α)) : ∀ {b : NetBuffer α}, Exact b →
    Exact (NetBuffer.run b b.unread calls).1 ∧ (NetBuffer.run b b.unread calls).1.unread = (NetBuffer.run b b.unread calls).2 := by
  induction calls with
  | nil => exact fun h => ⟨h, rfl⟩
  | cons call calls ih =>
    intro b h
    obtain ⟨hexact, hqueue⟩ := h.step call
    rw [NetBuffer.run, ← hqueue]
    exact ih hexact

/-- **`net_buffer_write_pointer`** succeeds when the bytes can be counted, and returns at least the capacity asked for. -/
theorem Exact.writePointer {b : NetBuffer α} (h : Exact b) (additional : ℕ) :
    ((b.writePointer additional).isSome = true ↔ additional ≤ sizeMax - b.readable) ∧
      ∀ b' capacity, b.writePointer additional = some (b', capacity) → additional ≤ capacity := by
  unfold NetBuffer.writePointer
  rcases h.reserve additional with ⟨hnone, hmany⟩ | ⟨c, hsome, _, hroom, hfew⟩
  · rw [hnone]
    exact ⟨⟨by simp, fun hc => absurd hc (not_le.2 hmany)⟩, fun b' capacity hc => nomatch hc⟩
  · rw [hsome]
    refine ⟨⟨fun _ => hfew, fun _ => rfl⟩, fun b' capacity hc => ?_⟩
    cases hc
    exact hroom

/-- **The buffer is a queue.** After any calls the positions are in order and within the capacity, the bytes between them are those
that were appended and not consumed, and no size computation of the next call wraps. `net_buffer_write_pointer` is refused only
when more than `SIZE_MAX` bytes would be queued, and returns at least the capacity asked for. -/
theorem buffer_is_queue (initialCapacity : UInt64) (calls : List (Call α)) :
    let r := run (init initialCapacity.toNat) [] calls
    r.1.readPos ≤ r.1.writePos ∧ r.1.writePos ≤ r.1.capacity ∧ r.1.unread = r.2 ∧ NoWrap r.1 ∧
      ∀ additional, ((r.1.writePointer additional).isSome = true ↔ additional ≤ sizeMax - r.2.length) ∧
        ∀ b' capacity, r.1.writePointer additional = some (b', capacity) → additional ≤ capacity := by
  have hstart : Exact (init initialCapacity.toNat : NetBuffer α) :=
    ⟨le_rfl, Nat.zero_le _, Nat.le_sub_one_of_lt initialCapacity.toNat_lt⟩
  obtain ⟨hexact, hqueue⟩ := hstart.run calls
  rw [unread_init] at hexact hqueue
  intro r
  refine ⟨hexact.read, hexact.write, hqueue, hexact.noWrap, fun additional => ?_⟩
  rw [← hqueue, ← readable_eq_length]
  exact hexact.writePointer additional

end NetBuffer

end StoreSystem
